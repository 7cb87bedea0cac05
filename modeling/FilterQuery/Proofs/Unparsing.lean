import FilterQuery.Proofs.Leaves
import FilterQuery.Proofs.Spelling
/-!
# Writing a tree back

The leaves of a tree, written with a blank between any two, spell the tokens of its expression
again. Parsing them gives the same tree in the same mode, also where the first text had more.
-/
namespace FilterQuery

/-- The values of the leaves that stand for tokens, with one blank between any two. -/
def Node.unparse (t : Node) : String := " ".intercalate (t.written.filterMap Node.value)

/-- The tokens, each but the last with one blank behind it. -/
def spacedWords : List Token → List (Token × List Char)
  | [] => []
  | [t] => [(t, [])]
  | t :: s :: ts => (t, [' ']) :: spacedWords (s :: ts)

theorem map_fst_spacedWords (ts : List Token) : (spacedWords ts).map Prod.fst = ts := by
  fun_induction spacedWords ts with
  | case1 => rfl
  | case2 t => rfl
  | case3 t s ts ih => rw [List.map_cons, ih]

theorem wordsText_spacedWords (ts : List Token) :
    wordsText (spacedWords ts) = (" ".intercalate (ts.map Token.text)).toList := by
  rw [String.toList_intercalate, List.map_map]
  fun_induction spacedWords ts with
  | case1 => rfl
  | case2 t => simp [wordsText, List.intercalate]
  | case3 t s ts ih =>
    rw [wordsText, ih, List.map_cons, List.map_cons, List.map_cons, List.intercalate_cons_cons]
    simp

theorem wordsFit_spacedWords {ts : List Token} (h : ∀ t ∈ ts, t.Fits []) :
    WordsFit (spacedWords ts) := by
  fun_induction spacedWords ts with
  | case1 => trivial
  | case2 t => exact ⟨h t List.mem_cons_self, List.forall_mem_nil _, trivial⟩
  | case3 t s ts ih =>
    rw [List.forall_mem_cons] at h
    refine ⟨h.1.before_blank ?_, ?_, ih h.2⟩
    · simp [isBlank]
    · simp [IsGap, isBlank]

theorem tokenize_intercalate {ts : List Token} (h : ∀ t ∈ ts, t.Fits []) (mode : Mode) :
    tokenize mode (" ".intercalate (ts.map Token.text)) = .ok ts := by
  have hspelling := Spelling.tokenize_eq_tokens
    (s := ⟨[], spacedWords ts, List.forall_mem_nil _, wordsFit_spacedWords h⟩)
    (wordsText_spacedWords ts) mode
  rw [hspelling, Spelling.tokens, map_fst_spacedWords]

theorem fits_of_next {c : Char} {cs chars : List Char} {rule : Rule}
    (h : (Piece.next c cs).1 = .lexeme rule chars) :
    Token.Fits ⟨rule.kind, String.ofList chars⟩ [] := by
  cases hfirst : Rule.first? (c :: cs) with
  | some first =>
    obtain ⟨text, rest, -, hfits, hnext⟩ := Piece.next_of_first? hfirst
    rw [hnext] at h
    cases h
    rw [String.ofList_toList]
    exact hfits.before_blank (by simp)
  | none =>
    rw [Piece.next, hfirst] at h
    split at h
    · cases h
    · dsimp only at h
      split at h <;> cases h

theorem fits_of_mem_split {rule : Rule} {chars : List Char} : (cs : List Char) →
    .lexeme rule chars ∈ Piece.split cs → Token.Fits ⟨rule.kind, String.ofList chars⟩ []
  | [], h => by
    rw [Piece.split_nil] at h
    cases h
  | c :: cs, h => by
    rw [Piece.split_cons, List.mem_cons] at h
    exact h.elim (fun h => fits_of_next h.symm) (fits_of_mem_split (Piece.next c cs).2)
termination_by cs => cs.length
decreasing_by exact Piece.length_next_lt c cs

theorem Piece.read_eq_some {mode : Mode} {before : Nat} {p : Piece} {t : Token}
    (h : (p.read mode before).result = .ok (some t)) :
    ∃ rule chars, p = .lexeme rule chars ∧ t = ⟨rule.kind, String.ofList chars⟩ := by
  cases p with
  | blank c => cases h
  | lexeme rule chars =>
    cases h
    exact ⟨rule, chars, rfl, rfl⟩
  | unknown c =>
    by_cases hc : mode = .strict ∨ isReservedChar c
    · simp [read, hc] at h
    · simp [read, hc, Logged.result_bind, Except.bind] at h
  | unclosed chars =>
    by_cases hmode : mode = .strict
    · simp [read, hmode] at h
    · simp [read, hmode, Logged.result_bind, Except.bind] at h

theorem exists_lexeme_of_mem {mode : Mode} {before : Nat} {ps : List Piece} {ts : List Token}
    (h : (readPieces mode before ps).result = .ok ts) :
    ∀ t ∈ ts, ∃ rule chars, .lexeme rule chars ∈ ps ∧ t = ⟨rule.kind, String.ofList chars⟩ := by
  induction ps generalizing before ts with
  | nil =>
    cases h
    simp
  | cons p ps ih =>
    obtain ⟨token?, rest, hp, hps, rfl⟩ := readPieces_cons_ok h
    intro t ht
    rw [List.mem_append, Option.mem_toList] at ht
    cases ht with
    | inl ht =>
      rw [ht] at hp
      obtain ⟨rule, chars, rfl, rfl⟩ := Piece.read_eq_some hp
      exact ⟨rule, chars, List.mem_cons_self, rfl⟩
    | inr ht =>
      obtain ⟨rule, chars, hmem, rfl⟩ := ih hps t ht
      exact ⟨rule, chars, List.mem_cons_of_mem p hmem, rfl⟩

/-- Every token that a scan returns fits where nothing follows. -/
theorem fits_of_tokenize {mode : Mode} {query : String} {ts : List Token}
    (h : tokenize mode query = .ok ts) : ∀ t ∈ ts, t.Fits [] := by
  rw [tokenize_eq] at h
  intro t ht
  obtain ⟨rule, chars, hmem, rfl⟩ := exists_lexeme_of_mem h t ht
  exact fits_of_mem_split _ hmem

theorem Token.Fits.kind_ne_eof {t : Token} {rest : List Char} (h : t.Fits rest) :
    t.kind ≠ .eof := by
  obtain ⟨kind, text⟩ := t
  rintro rfl
  exact h

namespace Expression

theorem Ends.nil {e : Expression} {dropped : List Token} {next : Token} (h : e.Ends dropped next) :
    e.Ends [] Token.eof := by
  obtain ⟨hlinks, hlast, hwhole, -⟩ := h
  refine ⟨hlinks, hlast.nil, ?_, fun _ => by decide⟩
  exact hwhole.imp_right fun hopen => ⟨hopen.1, rfl⟩

end Expression

/-- The parser reads the tokens of its result again, in the same mode. -/
theorem parse_tokens {mode : Mode} {ts : List Token} {e : Expression}
    (h : (parse mode ts).result = .ok e) (hne : e.tokens ≠ []) :
    (parse mode e.tokens).result = .ok e := by
  obtain ⟨-, dropped, rest, -, hends, hpaired, hstrict⟩ := Parse.parse_ok_iff.mp h
  refine Parse.parse_ok_iff.mpr ⟨hne, [], [], ?_, hends.nil, hpaired, fun hmode => ?_⟩
  · rw [List.append_nil, List.append_nil]
  · exact ⟨(hstrict hmode).1, rfl⟩

theorem tokens_ne_nil_of_parse {mode : Mode} {ts : List Token} {e : Expression}
    (h : (parse mode ts).result = .ok e) (hts : ∀ t ∈ ts, t.kind ≠ .eof) : e.tokens ≠ [] := by
  intro hnil
  obtain ⟨hne, dropped, rest, hsplit, ⟨-, hlast, hwhole, -⟩, -⟩ := Parse.parse_ok_iff.mp h
  have hkey : e.chain.last.filter.key = none := by
    by_contra hkey
    exact tokens_ne_nil (Option.isSome_iff_ne_none.mpr hkey) hnil
  have hnot : ¬ e.chain.last.filter.Whole := by simp [Filter.Whole, hkey]
  obtain ⟨-, heof⟩ := hwhole.resolve_left hnot
  obtain ⟨hcomparison, hdropped⟩ := hlast
  rw [hcomparison hkey] at hdropped
  obtain ⟨-, rfl⟩ := hdropped
  rw [hnil, List.append_nil, List.nil_append] at hsplit
  subst hsplit
  obtain ⟨t, ts, rfl⟩ := List.exists_cons_of_ne_nil hne
  have heof : t.isEof := heof
  exact hts t List.mem_cons_self (by simpa [Token.isEof] using heof)

theorem Expression.unparse_toNode {e : Expression} {dropped : List Token} {next : Token}
    (h : e.Ends dropped next) : e.toNode.unparse = " ".intercalate (e.tokens.map Token.text) := by
  have hvalue : Node.value ∘ Token.toNode = some ∘ Token.text := rfl
  rw [Node.unparse, written_toNode h, List.filterMap_map, hvalue, List.filterMap_eq_map]

/-- The leaves of a query's tree, written with single blanks, are a query with the same tree. -/
theorem queryTree_unparse {mode : Mode} {query : String} {t : Node}
    (h : queryTree mode query = .ok t) : queryTree mode t.unparse = .ok t := by
  obtain ⟨ts, e, hscan, hparse, rfl⟩ := queryTree_ok_iff.mp h
  obtain ⟨-, dropped, rest, hts, hends, -⟩ := Parse.parse_ok_iff.mp hparse
  have hfits := fits_of_tokenize hscan
  have htokens : ∀ t ∈ e.tokens, t.Fits [] := by
    intro t ht
    rw [hts] at hfits
    exact hfits t (List.mem_append_left _ (List.mem_append_left _ ht))
  have hne := tokens_ne_nil_of_parse hparse fun t ht => (hfits t ht).kind_ne_eof
  refine queryTree_ok_iff.mpr ⟨e.tokens, e, ?_, parse_tokens hparse hne, rfl⟩
  rw [Expression.unparse_toNode hends]
  exact tokenize_intercalate htokens mode

theorem unparse_of_open_list :
    let query := "(((x not: \"b c\")&&a IN: [1,"
    ∃ t, queryTree .lenient query = .ok t ∧
      t.unparse = "( ( ( x not: \"b c\" ) && a IN:" ∧ queryTree .lenient t.unparse = .ok t := by
  intro query
  have htree : ∃ t, queryTree .lenient query = .ok t ∧
      t.unparse = "( ( ( x not: \"b c\" ) && a IN:" := ⟨_, by cbv, by cbv⟩
  obtain ⟨t, ht, htext⟩ := htree
  exact ⟨t, ht, htext, queryTree_unparse ht⟩

end FilterQuery
