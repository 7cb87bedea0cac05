import FilterQuery.Proofs.Warnings
/-!
# Where a scan fails

Of what follows a piece the scan sees the first character, and a blank there is no different from
the end of the text. So what stands before an error is scanned alike whatever follows it, and the
error itself is settled by one character more.
-/
namespace FilterQuery

/-- Whether `rest'` may stand where `rest` does: it is empty, or starts with a blank or as `rest`
starts. -/
def MayReplace (rest rest' : List Char) : Prop := ∀ c ∈ rest'.head?, c ∈ rest.head? ∨ isBlank c

namespace MayReplace

theorem refl (rest : List Char) : MayReplace rest rest := fun _ => .inl

theorem nil (rest : List Char) : MayReplace rest [] := by
  intro c hc
  cases hc

theorem cons (c : Char) (cs cs' : List Char) : MayReplace (c :: cs) (c :: cs') := fun _ => .inl

theorem append {rest rest' : List Char} (h : MayReplace rest rest') (done : List Char) :
    MayReplace (done ++ rest) (done ++ rest') := by
  cases done with
  | nil => exact h
  | cons c done => exact cons c _ _

end MayReplace

/-! ### Characters that fit nowhere -/

namespace Rule

variable {c : Char} {cs cs' : List Char}

theorem width_of_first?_eq_none (h : first? cs = none) (rule : Rule) : rule.width cs = 0 := by
  have hall : rule ∈ all := by cases rule <;> decide
  simpa using List.find?_eq_none.mp h rule hall

theorem first?_eq_none_iff (hc : c ≠ '"') : first? (c :: cs) = none ↔
    ¬ isKeyChar c ∧ ¬ isSeparatorChar c ∧ ∀ op ∈ ["&&", "||", ":="], ¬ op.toList <+: c :: cs := by
  constructor
  · intro h
    have hwidth := width_of_first?_eq_none h
    refine ⟨fun hkey => ?_, fun hseparator => ?_, ?_⟩
    · by_cases hdigit : c.isDigit
      · simpa [width, literalWidth, hdigit] using hwidth .literal
      · simpa [width, keyWidth, hkey, hdigit] using hwidth .identifier
    · simpa [width, separatorWidth, hseparator] using hwidth .separator
    · rintro op hop ⟨rest, hrest⟩
      rw [← hrest] at h
      simp only [List.mem_cons, List.not_mem_nil, or_false] at hop
      rcases hop with rfl | rfl | rfl <;> cases h
  · rintro ⟨hkey, hseparator, hop⟩
    have hdigit : ¬ c.isDigit := by
      intro hdigit
      apply hkey
      simp [isKeyChar, Char.isAlphanum, hdigit]
    rw [first?_of_no_operator]
    · simp [width, keyWidth, literalWidth, separatorWidth, hkey, hseparator, hdigit, hc]
    · intro op hmem hp
      rcases List.mem_append.mp hmem with hmem | hmem
      · exact hop op hmem hp
      · simp only [comparisonTexts, List.mem_cons, List.not_mem_nil, or_false] at hmem
        rcases hmem with rfl | rfl | rfl | rfl | rfl | rfl | rfl
        all_goals
          obtain ⟨rfl, -⟩ := List.cons_prefix_cons.mp hp
          exact hkey (by decide)

theorem first?_eq_none_of_mayReplace (hc : c ≠ '"') (h : first? (c :: cs) = none)
    (hreplace : MayReplace cs cs') : first? (c :: cs') = none := by
  rw [first?_eq_none_iff hc] at h ⊢
  refine ⟨h.1, h.2.1, fun op hmem hp => ?_⟩
  obtain ⟨a, d, htext, hd⟩ : ∃ a d, op.toList = [a, d] ∧ ¬ isBlank d := by
    simp only [List.mem_cons, List.not_mem_nil, or_false] at hmem
    rcases hmem with rfl | rfl | rfl <;> exact ⟨_, _, rfl, by decide⟩
  have hnone := h.2.2 op hmem
  rw [htext, List.cons_prefix_cons] at hp hnone
  obtain ⟨rfl, tail, rfl⟩ := hp
  rcases hreplace d rfl with hhead | hblank
  · obtain ⟨tail', rfl⟩ := List.head?_eq_some_iff.mp hhead
    exact hnone ⟨rfl, tail', rfl⟩
  · exact hd hblank

end Rule

/-! ### Errors and what stands before them -/

section
variable {mode : Mode} {before : Nat} {xs ys rest cs : List Char} {ts us : List Token}
  {e : ScanError}

/-- Before `rest`, and before all that may stand in its place, `xs` is scanned to `ts`. -/
def ReadsBefore (mode : Mode) (before : Nat) (xs : List Char) (ts : List Token)
    (rest : List Char) : Prop :=
  ∀ rest', MayReplace rest rest' → (readPieces mode before (Piece.split (xs ++ rest'))).result =
    (readPieces mode (before + xs.length) (Piece.split rest')).result.map (ts ++ ·)

theorem ReadsBefore.append (hxs : ReadsBefore mode before xs ts (ys ++ rest))
    (hys : ReadsBefore mode (before + xs.length) ys us rest) :
    ReadsBefore mode before (xs ++ ys) (ts ++ us) rest := by
  intro rest' h
  rw [List.append_assoc, hxs _ (h.append ys), hys rest' h, List.length_append, ← Nat.add_assoc]
  cases (readPieces mode (before + xs.length + ys.length) (Piece.split rest')).result <;>
    simp [Except.map]

theorem readsBefore_nil : ReadsBefore mode before [] [] rest := by
  intro rest' _
  cases h : (readPieces mode before (Piece.split rest')).result <;> simp [h, Except.map]

theorem readsBefore_blank {c : Char} (hc : isBlank c) : ReadsBefore mode before [c] [] rest := by
  intro rest' _
  have hread : ((Piece.blank c).read mode before).result = .ok none := rfl
  rw [List.singleton_append, Piece.split_blank hc, readPieces_cons hread]
  rfl

theorem Token.Fits.readsBefore {t : Token} (h : t.Fits rest) :
    ReadsBefore mode before t.text.toList [t] rest := by
  intro rest' hreplace
  obtain ⟨rule, hkind, hsplit⟩ := Piece.split_word (h.of_head hreplace)
  rw [hsplit, readPieces_lexeme, hkind, String.ofList_toList]
  rfl

theorem readsBefore_unknown {c : Char} (hc : ¬ isBlank c) (hq : c ≠ '"')
    (h : Rule.first? (c :: rest) = none)
    (hread : ((Piece.unknown c).read mode before).result = .ok none) :
    ReadsBefore mode before [c] [] rest := by
  intro rest' hreplace
  have hfirst := Rule.first?_eq_none_of_mayReplace hq h hreplace
  rw [List.singleton_append, Piece.split_unknown hc hq hfirst, readPieces_cons hread]
  rfl

/-- The error with which a scan stops at the first character of a text that has `before` characters
before it. -/
inductive FailsAt (mode : Mode) (before : Nat) : List Char → ScanError → Prop
  | invalidCharacter {c : Char} {cs : List Char} : ¬ isBlank c → c ≠ '"' →
    Rule.first? (c :: cs) = none → (mode = .lenient → isReservedChar c) →
    FailsAt mode before (c :: cs) (.invalidCharacter c (before + 1))
  | unterminatedLiteral {cs : List Char} : mode = .strict → '"' ∉ cs →
    FailsAt mode before ('"' :: cs) (.unterminatedLiteral (before + 1))

theorem FailsAt.result_eq (h : FailsAt mode before cs e) :
    (readPieces mode before (Piece.split cs)).result = .error e := by
  cases h with
  | @invalidCharacter c cs hc hq hfirst hreserved =>
    have hread : ((Piece.unknown c).read mode before).result =
        .error (.invalidCharacter c (before + 1)) := by
      cases mode with
      | strict => rfl
      | lenient => simp [Piece.read, hreserved]
    rw [Piece.split_unknown hc hq hfirst, readPieces_cons_error hread]
  | @unterminatedLiteral cs hmode hq =>
    have hread : ((Piece.unclosed ('"' :: cs)).read mode before).result =
        .error (.unterminatedLiteral (before + 1)) := by
      rw [Piece.read, if_pos hmode]
      rfl
    rw [Piece.split_unclosed hq, readPieces_cons_error hread]

/-- The scan of a text fails behind a part of it that is scanned alike before all that may
follow. -/
def FailsIn (mode : Mode) (before : Nat) (cs : List Char) (e : ScanError) : Prop :=
  ∃ done rest ts, cs = done ++ rest ∧ Even (done.count '"') ∧ ReadsBefore mode before done ts rest ∧
    FailsAt mode (before + done.length) rest e

theorem FailsAt.failsIn (h : FailsAt mode before cs e) : FailsIn mode before cs e :=
  ⟨[], cs, [], rfl, Even.zero, readsBefore_nil, h⟩

theorem ReadsBefore.failsIn (hreads : ReadsBefore mode before xs ts rest)
    (heven : Even (xs.count '"'))
    (ih : (readPieces mode (before + xs.length) (Piece.split rest)).result = .error e →
      FailsIn mode (before + xs.length) rest e)
    (h : (readPieces mode before (Piece.split (xs ++ rest))).result = .error e) :
    FailsIn mode before (xs ++ rest) e := by
  rw [hreads rest (.refl rest)] at h
  have hrest : (readPieces mode (before + xs.length) (Piece.split rest)).result = .error e := by
    cases hresult : (readPieces mode (before + xs.length) (Piece.split rest)).result with
    | error e' =>
      rw [hresult] at h
      cases h
      rfl
    | ok us =>
      rw [hresult] at h
      cases h
  obtain ⟨done, rest, us, rfl, hdone, hreads', hfails⟩ := ih hrest
  refine ⟨xs ++ done, rest, ts ++ us, by rw [List.append_assoc], ?_, hreads.append hreads', ?_⟩
  · rw [List.count_append]
    exact heven.add hdone
  · rwa [List.length_append, ← Nat.add_assoc]

theorem even_count_singleton {c : Char} (hc : c ≠ '"') : Even (List.count '"' [c]) := by
  rw [List.count_eq_zero.mpr (by simpa using hc.symm)]
  exact Even.zero

/-- Every error of a scan has its place in the text. -/
theorem failsIn_of_error (h : (readPieces mode before (Piece.split cs)).result = .error e) :
    FailsIn mode before cs e := by
  induction cs using Piece.text_induction generalizing before with
  | nil =>
    rw [Piece.split_nil] at h
    cases h
  | blank c cs hc ih =>
    have hq : c ≠ '"' := by
      rintro rfl
      exact absurd hc (by decide)
    exact (readsBefore_blank hc).failsIn (even_count_singleton hq) ih h
  | word t rest hfits ih => exact hfits.readsBefore.failsIn hfits.even_quotes ih h
  | unknown c cs hc hq hfirst ih =>
    by_cases hreserved : mode = .lenient → isReservedChar c
    · have hat : FailsAt mode before (c :: cs) _ :=
        .invalidCharacter hc hq hfirst hreserved
      cases hat.result_eq.symm.trans h
      exact hat.failsIn
    · obtain ⟨rfl, hskipped⟩ := Classical.not_imp.mp hreserved
      have hread : ((Piece.unknown c).read .lenient before).result = .ok none := by
        simp only [Piece.read, hskipped]
        rfl
      exact (readsBefore_unknown hc hq hfirst hread).failsIn (even_count_singleton hq) ih h
  | unclosed cs hq =>
    cases mode with
    | strict =>
      have hat : FailsAt .strict before ('"' :: cs) _ := .unterminatedLiteral rfl hq
      cases hat.result_eq.symm.trans h
      exact hat.failsIn
    | lenient =>
      rw [Piece.split_unclosed hq] at h
      cases h

end

/-! ### Errors of queries -/

section
variable {mode : Mode} {query : String} {ch : Char} {column : Nat}

theorem tokenize_of_readsBefore {done rest : List Char} {ts : List Token}
    (h : ReadsBefore mode 0 done ts rest) : tokenize mode (String.ofList done) = .ok ts := by
  have hend := h [] (.nil rest)
  rw [List.append_nil, Piece.split_nil] at hend
  rw [tokenize_eq, String.toList_ofList, hend]
  simp [readPieces, Except.map]

theorem exists_of_invalidCharacter
    (h : tokenize mode query = .error (.invalidCharacter ch column)) :
    ∃ done cs, query.toList = done ++ ch :: cs ∧ column = done.length + 1 ∧ ¬ isBlank ch ∧
      (mode = .lenient → isReservedChar ch) ∧
      (∃ ts, tokenize mode (String.ofList done) = .ok ts) ∧
      ∀ (query' : String) (cs' : List Char), query'.toList = done ++ ch :: cs' → MayReplace cs cs' →
        tokenize mode query' = .error (.invalidCharacter ch column) := by
  rw [tokenize_eq] at h
  obtain ⟨done, rest, ts, htext, -, hreads, hfails⟩ := failsIn_of_error h
  cases hfails with
  | @invalidCharacter c cs hc hq hfirst hreserved =>
    refine ⟨done, cs, htext, by rw [Nat.zero_add], hc, hreserved,
      ⟨ts, tokenize_of_readsBefore hreads⟩, fun query' cs' htext' hreplace => ?_⟩
    have hfirst' := Rule.first?_eq_none_of_mayReplace hq hfirst hreplace
    have hat : FailsAt mode (0 + done.length) (ch :: cs') _ :=
      .invalidCharacter hc hq hfirst' hreserved
    rw [tokenize_eq, htext', hreads _ (.cons ch cs cs'), hat.result_eq]
    rfl

theorem exists_of_unterminatedLiteral
    (h : tokenize mode query = .error (.unterminatedLiteral column)) :
    mode = .strict ∧ ∃ done cs, query.toList = done ++ '"' :: cs ∧ column = done.length + 1 ∧
      '"' ∉ cs ∧ Even (done.count '"') ∧ ∃ ts, tokenize mode (String.ofList done) = .ok ts := by
  rw [tokenize_eq] at h
  obtain ⟨done, rest, ts, htext, heven, hreads, hfails⟩ := failsIn_of_error h
  cases hfails with
  | @unterminatedLiteral cs hmode hq =>
    exact ⟨hmode, done, cs, htext, by rw [Nat.zero_add], hq, heven, ts,
      tokenize_of_readsBefore hreads⟩

end

theorem exists_append_of_take_eq {α : Type} {done rest ys : List α}
    (h : ys.take (done.length + 1) = (done ++ rest).take (done.length + 1)) :
    ∃ rest', ys = done ++ rest' ∧ rest'.head? = rest.head? := by
  have hdone : ys.take done.length = done := by
    have htake := congrArg (List.take done.length) h
    simpa [List.take_take] using htake
  have hnext : ys[done.length]? = (done ++ rest)[done.length]? := by
    have hget := congrArg (·[done.length]?) h
    simpa [List.getElem?_take] using hget
  refine ⟨ys.drop done.length, ?_, ?_⟩
  · conv_lhs => rw [← List.take_append_drop done.length ys, hdone]
  · rw [List.head?_drop, hnext, List.getElem?_append_right le_rfl, Nat.sub_self,
      List.head?_eq_getElem?]

/-- An error of a scan names the character at its column, and it stands behind a text that is
scanned without error. An invalid character is one in every text that goes alike up to one character
behind it; a literal is unterminated only at the last quote and behind quotes that come in pairs. -/
theorem scan_error_located (mode : Mode) (query : String) :
    (∀ ch column, tokenize mode query = .error (.invalidCharacter ch column) →
      1 ≤ column ∧ column ≤ query.length ∧ query.toList[column - 1]? = some ch ∧
      ch ∉ [' ', '\r', '\n'] ∧ (mode = .lenient → ch = '@' ∨ ch = ':') ∧
      (∃ ts, tokenize mode (String.ofList (query.toList.take (column - 1))) = .ok ts) ∧
      ∀ query' : String, query'.toList.take (column + 1) = query.toList.take (column + 1) →
        tokenize mode query' = .error (.invalidCharacter ch column)) ∧
    ∀ column, tokenize mode query = .error (.unterminatedLiteral column) →
      mode = .strict ∧ 1 ≤ column ∧ query.toList[column - 1]? = some '"' ∧
      '"' ∉ query.toList.drop column ∧ Even ((query.toList.take (column - 1)).count '"') ∧
      ∃ ts, tokenize mode (String.ofList (query.toList.take (column - 1))) = .ok ts := by
  constructor
  · intro ch column h
    obtain ⟨done, cs, htext, rfl, hblank, hreserved, hdone, hlocal⟩ := exists_of_invalidCharacter h
    have htake : query.toList.take done.length = done := by rw [htext, List.take_left]
    refine ⟨Nat.le_add_left 1 _, ?_, ?_, ?_, ?_, ?_, ?_⟩
    · rw [← String.length_toList, htext, List.length_append, List.length_cons]
      omega
    · rw [Nat.add_sub_cancel, htext, List.getElem?_append_right le_rfl, Nat.sub_self]
      rfl
    · simpa [isBlank, and_assoc] using hblank
    · simpa [isReservedChar] using hreserved
    · rwa [Nat.add_sub_cancel, htake]
    · intro query' hsame
      have hsplit : query.toList = (done ++ [ch]) ++ cs := by simp [htext]
      have hlength : done.length + 1 + 1 = (done ++ [ch]).length + 1 := by simp
      rw [hlength, hsplit] at hsame
      obtain ⟨cs', htext', hhead⟩ := exists_append_of_take_eq hsame
      apply hlocal query' cs'
      · simp [htext']
      · intro d hd
        exact .inl (hhead ▸ hd)
  · intro column h
    obtain ⟨hmode, done, cs, htext, rfl, hq, heven, hdone⟩ := exists_of_unterminatedLiteral h
    have htake : query.toList.take done.length = done := by rw [htext, List.take_left]
    refine ⟨hmode, Nat.le_add_left 1 _, ?_, ?_, ?_, ?_⟩
    · rw [Nat.add_sub_cancel, htext, List.getElem?_append_right le_rfl, Nat.sub_self]
      rfl
    · have hdrop : query.toList.drop (done.length + 1) = cs := by simp [htext]
      rwa [hdrop]
    · rwa [Nat.add_sub_cancel, htake]
    · rwa [Nat.add_sub_cancel, htake]

/-- A colon behind a quoted one, of which the text behind it makes no operator, and a quote behind a
pair. -/
theorem scan_error_of_colon :
    tokenize .lenient "a := \":\" :x" = .error (.invalidCharacter ':' 10) ∧
    tokenize .lenient "a := \":\" :xyz&&" = .error (.invalidCharacter ':' 10) ∧
    tokenize .strict "\"a\"b\"&&" = .error (.unterminatedLiteral 5) ∧
    '"' ∉ "\"a\"b\"&&".toList.drop 5 := by
  have hcolon : tokenize .lenient "a := \":\" :x" = .error (.invalidCharacter ':' 10) := by cbv
  have hquote : tokenize .strict "\"a\"b\"&&" = .error (.unterminatedLiteral 5) := by cbv
  obtain ⟨-, -, -, -, -, -, hlocal⟩ := (scan_error_located .lenient "a := \":\" :x").1 ':' 10 hcolon
  obtain ⟨-, -, -, hlast, -⟩ := (scan_error_located .strict "\"a\"b\"&&").2 5 hquote
  exact ⟨hcolon, hlocal "a := \":\" :xyz&&" (by decide), hquote, hlast⟩

/-- A text whose quotes are closed, a blank and any other text are scanned one after the other. An
invalid character stays one whatever follows a blank behind the text, even within open quotes. -/
theorem tokenize_blank_between (mode : Mode) {w : Char} (hw : isBlank w) (left right : String) :
    (∀ ts, tokenize mode left = .ok ts → Even (left.toList.count '"') →
      (∀ us, tokenize mode right = .ok us →
        tokenize mode (left ++ String.singleton w ++ right) = .ok (ts ++ us)) ∧
      ∀ e, tokenize mode right = .error e →
        tokenize mode (left ++ String.singleton w ++ right) =
          .error (e.withColumn (e.column + (left.length + 1)))) ∧
    ∀ ch column, tokenize mode left = .error (.invalidCharacter ch column) →
      tokenize mode (left ++ String.singleton w ++ right) =
        .error (.invalidCharacter ch column) := by
  constructor
  · intro ts hts heven
    have hstop : ∀ c ∈ (String.singleton w ++ right).toList.head?, IsStop c := by
      simp [IsStop, hw]
    have happend : tokenize mode (left ++ String.singleton w ++ right) =
        ((tokenize mode right).mapError (ScanError.after (left.length + 1))).map (ts ++ ·) := by
      rw [String.append_assoc, tokenize_append heven hstop, tokenize_blank hw, hts,
        ← ScanError.after_after]
      cases tokenize mode right <;> rfl
    constructor
    · intro us hus
      rw [happend, hus]
      rfl
    · intro e he
      rw [happend, he, Nat.add_comm e.column]
      rfl
  · intro ch column h
    obtain ⟨done, cs, htext, -, -, -, -, hlocal⟩ := exists_of_invalidCharacter h
    apply hlocal _ (cs ++ w :: right.toList)
    · simp [htext]
    · intro c hc
      cases cs with
      | nil =>
        cases hc
        exact .inr hw
      | cons d cs => exact .inl hc

/-- An operator that a blank cuts in two, and an open quote behind an invalid character. -/
theorem error_of_blank_between :
    tokenize .strict "a:=" = .ok [.identifier "a", .assign] ∧
    tokenize .strict "= 1" = .error (.invalidCharacter '=' 1) ∧
    tokenize .strict "a:=\n= 1" = .error (.invalidCharacter '=' 5) ∧
    tokenize .lenient "a @\"b" = .error (.invalidCharacter '@' 3) ∧
    tokenize .lenient "a @\"b\r\" c" = .error (.invalidCharacter '@' 3) := by
  have hleft : tokenize .strict "a:=" = .ok [.identifier "a", .assign] := by cbv
  have hright : tokenize .strict "= 1" = .error (.invalidCharacter '=' 1) := by cbv
  have hat : tokenize .lenient "a @\"b" = .error (.invalidCharacter '@' 3) := by cbv
  have hjoined := ((tokenize_blank_between .strict (w := '\n') rfl "a:=" "= 1").1 _ hleft
    (by decide)).2 _ hright
  exact ⟨hleft, hright, hjoined, hat,
    (tokenize_blank_between .lenient (w := '\r') rfl "a @\"b" "\" c").2 '@' 3 hat⟩

end FilterQuery
