import FilterQuery.Proofs.QuotedText
/-!
# What the lenient scan warns of

The strict scan ends where the lenient one first warns, with the error that the warning stands for.
If all that was warned of is mended in the query, the strict scan reads the tokens that the lenient
one read.
-/
namespace FilterQuery

/-! ### The first warning -/

/-- The error that the strict scan makes of what the lenient one warns of. -/
def ScanEvent.fault? : ScanEvent → Option ScanError
  | .token .. => none
  | .skipped ch column => some (.invalidCharacter ch column)
  | .dropped column => some (.unterminatedLiteral column)
  | .finished .. => none

theorem ScanEvent.severity_eq_warn_iff {r : ScanEvent} :
    r.severity = .warn ↔ r.fault? ≠ none := by
  cases r <;> simp [fault?, severity]

theorem findSome?_fault? (log : List ScanEvent) :
    log.findSome? ScanEvent.fault? = (log.find? (·.severity = .warn)).bind ScanEvent.fault? := by
  induction log with
  | nil => rfl
  | cons r log ih =>
    rw [List.findSome?_cons]
    by_cases hr : r.severity = .warn
    · rw [List.find?_cons_of_pos (by simpa using hr)]
      cases hf : r.fault? with
      | none => exact absurd hf (ScanEvent.severity_eq_warn_iff.mp hr)
      | some e => simp [hf]
    · have hf : r.fault? = none := by simpa [ScanEvent.severity_eq_warn_iff] using hr
      rw [List.find?_cons_of_neg (by simpa using hr), hf, ih]

/-- What a scan comes to if its first warning ends it. -/
def Scanned.strictly {α : Type} (x : Scanned α) : Except ScanError α :=
  match x.log.findSome? ScanEvent.fault? with
  | some e => .error e
  | none => x.result

theorem Scanned.strictly_bind {α β : Type} (x : Scanned α) (f : α → Scanned β) :
    Scanned.strictly (x >>= f) = x.strictly.bind fun a => (f a).strictly := by
  unfold strictly
  cases hx : x.result with
  | error e =>
    rw [Logged.log_bind_error hx, Logged.result_bind, hx]
    cases x.log.findSome? ScanEvent.fault? <;> rfl
  | ok a =>
    rw [Logged.log_bind_ok hx, Logged.result_bind, hx, List.findSome?_append]
    cases x.log.findSome? ScanEvent.fault? <;> rfl

theorem read_strict (before : Nat) (p : Piece) :
    (p.read .strict before).result = (p.read .lenient before).strictly := by
  cases p with
  | blank c => rfl
  | lexeme rule cs => rfl
  | unknown c =>
    by_cases hc : isReservedChar c
    · simp [Piece.read, hc, Scanned.strictly]
    · simp only [Piece.read, hc]
      rfl
  | unclosed cs => rfl

theorem readPieces_strict (before : Nat) (ps : List Piece) :
    (readPieces .strict before ps).result = (readPieces .lenient before ps).strictly := by
  induction ps generalizing before with
  | nil => rfl
  | cons p ps ih =>
    rw [readPieces, readPieces, Logged.result_bind, Scanned.strictly_bind, read_strict]
    congr 1
    funext token?
    rw [Logged.result_bind, Scanned.strictly_bind, ih]
    rfl

theorem tokenize_strict_eq (query : String) :
    tokenize .strict query = (scan .lenient query).strictly := by
  rw [tokenize, scan_eq, scan_eq, Logged.result_bind, Scanned.strictly_bind, readPieces_strict]
  rfl

/-- The strict scan fails with the first thing of which the lenient scan warns, also if the lenient
scan fails behind it. Without a warning both end alike. -/
theorem tokenize_strict_at_first_warning (query : String) :
    ((∀ r ∈ (scan .lenient query).log, r.severity ≠ .warn) →
      tokenize .strict query = tokenize .lenient query) ∧
    (∀ ch column,
      (scan .lenient query).log.find? (·.severity = .warn) = some (.skipped ch column) →
      tokenize .strict query = .error (.invalidCharacter ch column)) ∧
    ∀ column, (scan .lenient query).log.find? (·.severity = .warn) = some (.dropped column) →
      tokenize .strict query = .error (.unterminatedLiteral column) := by
  rw [tokenize_strict_eq, Scanned.strictly, findSome?_fault?]
  refine ⟨?_, ?_, ?_⟩
  · intro h
    have hnone : (scan .lenient query).log.find? (·.severity = .warn) = none := by
      rw [List.find?_eq_none]
      simpa using h
    rw [hnone]
    rfl
  · intro ch column h
    rw [h]
    rfl
  · intro column h
    rw [h]
    rfl

/-- Warnings in front of characters at which the lenient scan fails or would fail. -/
theorem strict_error_of_warnings :
    (∀ r ∈ (scan .lenient "a eq: 1 @").log, r.severity ≠ .warn) ∧
    tokenize .strict "a eq: 1 @" = tokenize .lenient "a eq: 1 @" ∧
    tokenize .lenient "a | b & :" = .error (.invalidCharacter ':' 9) ∧
    (scan .lenient "a | b & :").log.find? (·.severity = .warn) = some (.skipped '|' 3) ∧
    tokenize .strict "a | b & :" = .error (.invalidCharacter '|' 3) ∧
    (scan .lenient "a \"b @").log.find? (·.severity = .warn) = some (.dropped 3) ∧
    tokenize .strict "a \"b @" = .error (.unterminatedLiteral 3) := by
  have hlog : (scan .lenient "a eq: 1 @").log =
      [.token .identifier (.identifier "a") 1, .token .comparisonOperator (.comparison "eq:") 5,
        .token .literal (.literal "1") 7] := by cbv
  have hnone : ∀ r ∈ (scan .lenient "a eq: 1 @").log, r.severity ≠ .warn := by
    rw [hlog]
    decide
  have hskipped : (scan .lenient "a | b & :").log.find? (·.severity = .warn) =
      some (.skipped '|' 3) := by cbv
  have hdropped : (scan .lenient "a \"b @").log.find? (·.severity = .warn) =
      some (.dropped 3) := by cbv
  exact ⟨hnone, (tokenize_strict_at_first_warning "a eq: 1 @").1 hnone, by cbv, hskipped,
    (tokenize_strict_at_first_warning "a | b & :").2.1 '|' 3 hskipped, hdropped,
    (tokenize_strict_at_first_warning "a \"b @").2.2 3 hdropped⟩

/-! ### Texts piece by piece -/

namespace Piece

theorem split_unknown {c : Char} {cs : List Char} (hc : ¬ isBlank c) (hq : c ≠ '"')
    (h : Rule.first? (c :: cs) = none) : split (c :: cs) = .unknown c :: split cs := by
  rw [split_cons, next, if_neg hc, h]
  simp [hq]

theorem split_unclosed {cs : List Char} (h : '"' ∉ cs) :
    split ('"' :: cs) = [.unclosed ('"' :: cs)] := by
  rw [split_cons, next, Rule.first?_unclosed h]
  simp [isBlank]

/-- A text is empty, or a piece in front of another text. -/
theorem text_induction {motive : List Char → Prop} (nil : motive [])
    (blank : ∀ c cs, isBlank c → motive cs → motive (c :: cs))
    (word : ∀ (t : Token) (rest : List Char), t.Fits rest → motive rest →
      motive (t.text.toList ++ rest))
    (unknown : ∀ c cs, ¬ isBlank c → c ≠ '"' → Rule.first? (c :: cs) = none → motive cs →
      motive (c :: cs))
    (unclosed : ∀ cs, '"' ∉ cs → motive ('"' :: cs)) : ∀ cs, motive cs
  | [] => nil
  | c :: cs => by
    have ih := text_induction nil blank word unknown unclosed (next c cs).2
    cases hfirst : Rule.first? (c :: cs) with
    | some rule =>
      obtain ⟨text, rest, hcs, hfits, hnext⟩ := next_of_first? hfirst
      rw [hnext] at ih
      rw [hcs]
      exact word ⟨rule.kind, text⟩ rest hfits ih
    | none =>
      by_cases hc : isBlank c
      · rw [next, if_pos hc] at ih
        exact blank c cs hc ih
      · by_cases hq : c = '"'
        · subst hq
          refine unclosed cs fun hmem => ?_
          rw [Rule.first?_quote hmem] at hfirst
          cases hfirst
        · rw [next, if_neg hc, hfirst] at ih
          simp only [hq] at ih
          exact unknown c cs hc hq hfirst ih
termination_by cs => cs.length
decreasing_by exact length_next_lt c cs

theorem next_of_unclosed {c : Char} {cs chars : List Char} (h : (next c cs).1 = .unclosed chars) :
    (next c cs).2 = [] := by
  unfold next at h ⊢
  split at h
  · cases h
  · split at h
    · cases h
    · split at h
      · rename_i hblank _ hfirst hq
        rw [if_neg hblank, if_pos hq]
      · cases h

end Piece

/-! ### Mended queries -/

/-- The text with the change that a warning asks for: a blank instead of a skipped character, and
the end of the text instead of a quote that is not closed. -/
def ScanEvent.mend (cs : List Char) : ScanEvent → List Char
  | .token .. => cs
  | .skipped _ column => cs.set (column - 1) ' '
  | .dropped column => cs.take (column - 1)
  | .finished .. => cs

/-- The query with every change for which the warnings of its lenient scan ask. -/
def mended (query : String) : String :=
  String.ofList ((scan .lenient query).log.foldl ScanEvent.mend query.toList)

/-- What mending leaves of a piece. -/
def Piece.mended : Piece → List Char
  | .blank c => [c]
  | .lexeme _ cs => cs
  | .unknown _ => [' ']
  | .unclosed _ => []

theorem Piece.unclosed_or_length_mended (p : Piece) :
    (∃ chars, p = .unclosed chars) ∨ p.mended.length = p.chars.length := by
  cases p with
  | blank c => exact .inr rfl
  | lexeme rule cs => exact .inr rfl
  | unknown c => exact .inr rfl
  | unclosed cs => exact .inl ⟨cs, rfl⟩

def mendedChars (cs : List Char) : List Char := (Piece.split cs).flatMap Piece.mended

section
variable {c : Char} {cs : List Char}

theorem mendedChars_blank (hc : isBlank c) (cs : List Char) :
    mendedChars (c :: cs) = c :: mendedChars cs := by
  rw [mendedChars, Piece.split_blank hc]
  rfl

theorem mendedChars_word {t : Token} {rest : List Char} (h : t.Fits rest) :
    mendedChars (t.text.toList ++ rest) = t.text.toList ++ mendedChars rest := by
  obtain ⟨rule, -, hsplit⟩ := Piece.split_word h
  rw [mendedChars, hsplit]
  rfl

theorem mendedChars_unknown (hc : ¬ isBlank c) (hq : c ≠ '"') (h : Rule.first? (c :: cs) = none) :
    mendedChars (c :: cs) = ' ' :: mendedChars cs := by
  rw [mendedChars, Piece.split_unknown hc hq h]
  rfl

theorem mendedChars_unclosed (h : '"' ∉ cs) : mendedChars ('"' :: cs) = [] := by
  rw [mendedChars, Piece.split_unclosed h]
  rfl

end

theorem head_mendedChars (cs : List Char) {c : Char} (hc : c ∈ (mendedChars cs).head?) :
    c ∈ cs.head? ∨ isBlank c := by
  induction cs using Piece.text_induction with
  | nil => simp [mendedChars] at hc
  | blank d cs hd ih =>
    rw [mendedChars_blank hd] at hc
    exact .inl hc
  | word t rest hfits ih =>
    obtain ⟨d, ds, htext, -⟩ := hfits.head
    rw [mendedChars_word hfits, htext] at hc
    rw [htext]
    exact .inl hc
  | unknown d cs hd hq hfirst ih =>
    rw [mendedChars_unknown hd hq hfirst] at hc
    cases hc
    exact .inr rfl
  | unclosed cs hq =>
    rw [mendedChars_unclosed hq] at hc
    cases hc

theorem read_unknown_ok {mode : Mode} {c : Char} {before : Nat} {token? : Option Token}
    (h : ((Piece.unknown c).read mode before).result = .ok token?) :
    token? = none ∧ ((Piece.unknown c).read mode before).log = [.skipped c (before + 1)] := by
  rw [Piece.read] at h ⊢
  split at h
  · cases h
  · rename_i hc
    cases h
    rw [if_neg hc]
    exact ⟨rfl, rfl⟩

theorem exists_spelling_mendedChars {cs : List Char} {before : Nat} {ts : List Token}
    (h : (readPieces .lenient before (Piece.split cs)).result = .ok ts) :
    ∃ s : Spelling, s.text = mendedChars cs ∧ s.tokens = ts := by
  induction cs using Piece.text_induction generalizing before ts with
  | nil =>
    rw [Piece.split_nil] at h
    cases h
    exact ⟨⟨[], [], List.forall_mem_nil _, trivial⟩, by rw [mendedChars, Piece.split_nil]; rfl, rfl⟩
  | blank c cs hc ih =>
    rw [Piece.split_blank hc] at h
    obtain ⟨token?, rest, hp, hrest, rfl⟩ := readPieces_cons_ok h
    cases hp
    obtain ⟨s, htext, htokens⟩ := ih hrest
    have hlead : IsGap (c :: s.lead) := List.forall_mem_cons.mpr ⟨hc, s.lead_blank⟩
    refine ⟨⟨c :: s.lead, s.words, hlead, s.words_fit⟩, ?_, htokens⟩
    rw [mendedChars_blank hc, ← htext]
    rfl
  | word t tail hfits ih =>
    obtain ⟨rule, hkind, hsplit⟩ := Piece.split_word hfits
    rw [hsplit] at h
    obtain ⟨token?, rest, hp, hrest, rfl⟩ := readPieces_cons_ok h
    cases hp
    obtain ⟨s, htext, rfl⟩ := ih hrest
    have hfits' := hfits.of_head fun c => head_mendedChars tail
    rw [← htext] at hfits'
    refine ⟨⟨[], (t, s.lead) :: s.words, List.forall_mem_nil _, hfits', s.lead_blank,
      s.words_fit⟩, ?_, ?_⟩
    · rw [mendedChars_word hfits, ← htext]
      rfl
    · rw [hkind, String.ofList_toList]
      rfl
  | unknown c cs hc hq hfirst ih =>
    rw [Piece.split_unknown hc hq hfirst] at h
    obtain ⟨token?, rest, hp, hrest, rfl⟩ := readPieces_cons_ok h
    obtain ⟨s, htext, rfl⟩ := ih hrest
    have hlead : IsGap (' ' :: s.lead) := List.forall_mem_cons.mpr ⟨rfl, s.lead_blank⟩
    refine ⟨⟨' ' :: s.lead, s.words, hlead, s.words_fit⟩, ?_, ?_⟩
    · rw [mendedChars_unknown hc hq hfirst, ← htext]
      rfl
    · rw [(read_unknown_ok hp).1]
      rfl
  | unclosed cs hq =>
    rw [Piece.split_unclosed hq] at h
    cases h
    exact ⟨⟨[], [], List.forall_mem_nil _, trivial⟩, (mendedChars_unclosed hq).symm, rfl⟩

theorem foldl_mend_read {p : Piece} {token? : Option Token} {done rest : List Char}
    (hp : (p.read .lenient done.length).result = .ok token?)
    (hrest : ∀ chars, p = .unclosed chars → rest = []) :
    (p.read .lenient done.length).log.foldl ScanEvent.mend (done ++ (p.chars ++ rest)) =
      done ++ (p.mended ++ rest) := by
  cases p with
  | blank c => rfl
  | lexeme rule cs => rfl
  | unknown c =>
    rw [(read_unknown_ok hp).2]
    simp [ScanEvent.mend, Piece.chars, Piece.mended]
  | unclosed cs =>
    have hlog : ((Piece.unclosed cs).read .lenient done.length).log =
        [.dropped (done.length + 1)] := rfl
    rw [hlog, hrest cs rfl]
    simp [ScanEvent.mend, Piece.mended]

/-- The records of a scan that starts behind `done` mend what stands there. -/
theorem foldl_mend_readPieces {ts : List Token} (done : List Char) : (cs : List Char) →
    (readPieces .lenient done.length (Piece.split cs)).result = .ok ts →
    (readPieces .lenient done.length (Piece.split cs)).log.foldl ScanEvent.mend (done ++ cs) =
      done ++ mendedChars cs
  | [], _ => by
    rw [mendedChars, Piece.split_nil]
    rfl
  | c :: cs, h => by
    rw [mendedChars, Piece.split_cons, List.flatMap_cons]
    rw [Piece.split_cons] at h
    obtain ⟨token?, rest, hp, hrest, -⟩ := readPieces_cons_ok h
    have hpiece := foldl_mend_read hp fun _ => Piece.next_of_unclosed
    rw [Piece.chars_next] at hpiece
    rw [log_readPieces_cons hp, List.foldl_append, hpiece]
    rcases (Piece.next c cs).1.unclosed_or_length_mended with ⟨chars, hunclosed⟩ | hlength
    · rw [Piece.next_of_unclosed hunclosed, Piece.split_nil]
      simp [readPieces]
    · -- the columns of what follows still hold in the mended text
      rw [← hlength, ← List.length_append] at hrest ⊢
      have hnext := foldl_mend_readPieces _ (Piece.next c cs).2 hrest
      rwa [List.append_assoc, List.append_assoc] at hnext
termination_by cs => cs.length
decreasing_by exact Piece.length_next_lt c cs

theorem toList_mended {query : String} {ts : List Token} (h : tokenize .lenient query = .ok ts) :
    (mended query).toList = mendedChars query.toList := by
  rw [tokenize_eq] at h
  rw [mended, String.toList_ofList, scan_eq, Logged.log_bind_ok h, List.foldl_append]
  exact foldl_mend_readPieces [] query.toList h

/-- The strict scan of the mended query reads the tokens that the lenient scan read. -/
theorem tokenize_strict_mended {query : String} {ts : List Token}
    (h : tokenize .lenient query = .ok ts) : tokenize .strict (mended query) = .ok ts := by
  have htext := toList_mended h
  rw [tokenize_eq] at h
  obtain ⟨s, hs, rfl⟩ := exists_spelling_mendedChars h
  exact s.tokenize_eq_tokens (hs.trans htext.symm) .strict

/-- A skipped bar behind two that are an operator, and a skipped ampersand before an open quote. -/
theorem strict_tokens_of_mended_bars :
    tokenize .lenient "a|||1&\"x" = .ok [.identifier "a", .logical "||", .literal "1"] ∧
    mended "a|||1&\"x" = "a|| 1 " ∧
    tokenize .strict (mended "a|||1&\"x") =
      .ok [.identifier "a", .logical "||", .literal "1"] := by
  have h : tokenize .lenient "a|||1&\"x" =
    .ok [.identifier "a", .logical "||", .literal "1"] := by cbv
  exact ⟨h, by cbv, tokenize_strict_mended h⟩

end FilterQuery
