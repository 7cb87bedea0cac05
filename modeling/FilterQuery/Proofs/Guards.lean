import FilterQuery.Proofs.ParenHint
import FilterQuery.Proofs.ParserRun
import FilterQuery.Proofs.Unparsing
import FilterQuery.Proofs.Window
/-!
# Guards that never fire

A parser looks at `IN:` and at the bracket behind a list twice, and the second look finds what the
first one did. A scan and a parser have each a list of the comparators, and as the lists agree, a
parser that asks for an operator does not refuse one that was scanned.
-/
namespace FilterQuery

/-- An error of a guard that looks for `IN:` or for the bracket behind a list a second time. -/
def ParseError.FromGuard : ParseError → Prop
  | .unexpectedToken expected _ => expected = .inOperator ∨ expected = .listClosing
  | .unexpectedEnd expected => expected = .inOperator
  | _ => False

/-- An error about where the input ends. -/
def ParseError.FromEnd : ParseError → Prop
  | .unexpectedEnd _ => True
  | .trailingInput _ => True
  | _ => False

section
variable {mode : Mode} {ts : List Token} {e : ParseError} {t : Token}

theorem ParserState.place_of_outcome? {s : ParserState} {log : List ParseEvent}
    (h : s.outcome? = some ⟨log, .error e⟩) : s.place = .failed e := by
  unfold outcome? at h
  split at h
  · simp at h
  · simp_all
  · cases h

/-- An error of a parser is known of the token that was ahead when it failed. -/
theorem founded_of_error (hts : ts ≠ []) (h : tokensTree mode ts = .error e) :
    ∃ current, e.Founded mode current ∧ (current.isEof = false → current ∈ ts) := by
  obtain ⟨states, last, -, -, hsound, houtcome⟩ := ParserState.exists_run_to_outcome mode hts
  rw [h] at houtcome
  have hplace := ParserState.place_of_outcome? houtcome
  have hfounded : e.Founded mode last.current := by
    simpa only [ParserState.Guarded, hplace] using hsound.guarded
  exact ⟨last.current, hfounded, fun heof => List.mem_of_getElem? (hsound.getElem? heof)⟩

namespace ParseError.Founded

variable {current : Token}

theorem not_fromGuard (h : e.Founded mode current) : ¬ e.FromGuard := by
  cases e with
  | unexpectedToken expected found =>
    rintro (hin | hclosing)
    · exact h.1 hin
    · exact h.2.1 hclosing
  | unexpectedEnd expected => exact h.1
  | emptyInput | unbalancedParens | trailingInput => exact id

theorem not_fromEnd (h : e.Founded .lenient current) : ¬ e.FromEnd := by
  cases e with
  | unexpectedEnd expected => cases h.2
  | trailingInput found => cases h
  | emptyInput | unexpectedToken | unbalancedParens => exact id

end ParseError.Founded

theorem not_fromGuard_of_error (h : tokensTree mode ts = .error e) :
    ¬ e.FromGuard ∧ (mode = .lenient → ¬ e.FromEnd) := by
  by_cases hts : ts = []
  · subst hts
    cases h
    exact ⟨id, fun _ => id⟩
  · obtain ⟨current, hfounded, -⟩ := founded_of_error hts h
    refine ⟨hfounded.not_fromGuard, ?_⟩
    rintro rfl
    exact hfounded.not_fromEnd

theorem Token.Fits.kind_of_mem {rest : List Char} (h : t.Fits rest)
    (htext : t.text ∈ comparisonTexts) : t.kind = .comparisonOperator := by
  obtain ⟨rule, hfirst, hkind, -⟩ := h.first?
  obtain ⟨rule', hfirst', hkind', -⟩ := Rule.first?_comparison htext rest
  cases hfirst.symm.trans hfirst'
  exact hkind.symm.trans hkind'

theorem mem_comparisonTexts_iff {text : String} :
    text ∈ comparisonTexts ↔ text = "IN:" ∨ text ∈ parsedComparators := by
  simp [comparisonTexts, parsedComparators]

theorem mem_parsedComparators_of_ne (hkind : t.kind = .comparisonOperator)
    (htext : t.text ∈ comparisonTexts) (hin : t ≠ Token.inOperator) :
    t.text ∈ parsedComparators := by
  refine (mem_comparisonTexts_iff.mp htext).resolve_left fun heq => hin ?_
  rw [Token.inOperator, Token.comparison, ← hkind, ← heq]

namespace ParserState

variable {s : ParserState}

theorem takes_operator (hplace : s.place = .comparison)
    (hkind : s.current.kind = .comparisonOperator) (htext : s.current.text ∈ comparisonTexts) :
    ∃ u v, s.step mode ts = some u ∧ u.step mode ts = some v ∧
      v.place = (if s.current = Token.inOperator then .item else .operand) ∧
      v.operator = s.current.toNode ∧ v.position = s.position + 1 := by
  by_cases hin : s.current = Token.inOperator
  · refine ⟨{ s with place := .inOperator }, putInOperator (s.advance ts) s.current.toNode,
      ?_, ?_, ?_, rfl, rfl⟩
    · simp only [step, hplace, choose, if_pos hin]
    · simp only [step, takeInOperator, require, hin, decide_true, if_true]
      rfl
    · rw [if_pos hin]
      rfl
  · have heof : s.current.isEof = false := by simp [Token.isEof, hkind]
    have hmem := mem_parsedComparators_of_ne hkind htext hin
    refine ⟨{ s with place := .comparator }, putComparator (s.advance ts) s.current.toNode,
      ?_, ?_, ?_, rfl, rfl⟩
    · simp only [step, hplace, choose, if_neg hin]
    · simp only [step, takeComparator, require, heof, hkind, List.contains_iff_mem.mpr hmem,
        decide_true, Bool.and_self, Bool.false_eq_true, if_false, if_true]
      rfl
    · rw [if_neg hin]
      rfl

end ParserState

end

/-- No error of a parser comes from a guard that looks for `IN:` or for the bracket behind a list a
second time, and those guards find what they look for in every run. A lenient parser is not stopped
by the end of its input or by tokens behind the expression. A scan and a parser know the same
comparators: where a query is refused for want of an operator, what stands there is not the text of
one, and an operator that was scanned is taken wherever a parser is due to read a comparison. -/
theorem guards_never_fire (mode : Mode) :
    (∀ ts e, tokensTree mode ts = .error e →
      ¬ e.FromGuard ∧ (mode = .lenient → ¬ e.FromEnd)) ∧
    (∀ ts states, IsRun (ParserState.step mode ts) (.start ts) states → ∀ s ∈ states,
      (s.place = .inOperator → s.current = Token.inOperator) ∧
      (s.place = .list → s.buffered.getLast? = some s.current ∧ s.current.text = "]") ∧
      ∀ e, s.place = .failed e → ¬ e.FromGuard ∧ (mode = .lenient → ¬ e.FromEnd)) ∧
    (∀ text, text ∈ scannedComparators ↔ text ∈ parsedComparators) ∧
    (∀ query found,
      queryTree mode query = .error (.parse (.unexpectedToken .comparisonOperator found)) →
      found ∉ comparisonTexts) ∧
    ∀ query ts, tokenize mode query = .ok ts → ∀ t ∈ ts, t.kind = .comparisonOperator →
      ∀ (m : Mode) us (s : ParserState), s.place = .comparison → s.current = t →
      ∃ u v, s.step m us = some u ∧ u.step m us = some v ∧
        v.place = (if t = Token.inOperator then .item else .operand) ∧
        v.operator = t.toNode ∧ v.position = s.position + 1 := by
  refine ⟨fun ts e => not_fromGuard_of_error, fun ts states hrun s hs => ?_, fun text => ?_,
    fun query found h htext => ?_, ?_⟩
  · have hguarded := (ParserState.sound_of_run hrun s hs).guarded
    refine ⟨fun hplace => ?_, fun hplace => ?_, fun e hplace => ?_⟩
    · simpa only [ParserState.Guarded, hplace] using hguarded
    · simp only [ParserState.Guarded, hplace] at hguarded
      obtain ⟨-, htext, inside, hbuffered⟩ := hguarded
      exact ⟨by rw [hbuffered, List.getLast?_concat], htext⟩
    · simp only [ParserState.Guarded, hplace] at hguarded
      refine ⟨hguarded.not_fromGuard, ?_⟩
      rintro rfl
      exact hguarded.not_fromEnd
  · simp only [scannedComparators, parsedComparators, List.mem_cons, List.not_mem_nil, or_false]
    tauto
  · obtain ⟨ts, hscan, herror⟩ := queryTree_parse_error_iff.mp h
    have hts : ts ≠ [] := by
      rintro rfl
      cases herror
    -- What is refused as an operator was scanned, so with the text of one it has the kind of one.
    obtain ⟨current, ⟨-, -, hfound⟩, hmem⟩ := founded_of_error hts herror
    obtain ⟨rfl, heof, hin, hcomparator⟩ := hfound rfl
    have hkind := (fits_of_tokenize hscan current (hmem heof)).kind_of_mem htext
    have hparsed := mem_parsedComparators_of_ne hkind htext hin
    have hsome := Token.isSome_comparator? current
    rw [hcomparator, hkind, List.contains_iff_mem.mpr hparsed] at hsome
    cases hsome
  · rintro query ts hscan t ht hkind m us s hplace rfl
    have htext : s.current.text ∈ comparisonTexts := by
      have hfits := fits_of_tokenize hscan s.current ht
      simpa only [Token.Fits, hkind] using hfits
    exact ParserState.takes_operator hplace hkind htext

/-- A query with a word where an operator is due, and a scanned `IN:` in the place of one. -/
theorem guards_of_word :
    queryTree .lenient "a b" = .error (.parse (.unexpectedToken .comparisonOperator "b")) ∧
    "b" ∉ comparisonTexts ∧
    ¬ (ParseError.unexpectedToken .comparisonOperator "b").FromGuard ∧
    ∃ u v, ParserState.step .lenient [.inOperator]
        { ParserState.start [.inOperator] with place := .comparison } = some u ∧
      u.step .lenient [.inOperator] = some v ∧ v.place = .item ∧ v.position = 1 := by
  obtain ⟨herrors, -, -, hqueries, htakes⟩ := guards_never_fire .lenient
  have hquery : queryTree .lenient "a b" =
      .error (.parse (.unexpectedToken .comparisonOperator "b")) := by cbv
  have htree : tokensTree .lenient [.identifier "a", .identifier "b"] =
      .error (.unexpectedToken .comparisonOperator "b") := by cbv
  have hscan : tokenize .lenient "IN:" = .ok [.inOperator] := by cbv
  obtain ⟨u, v, hu, hv, hplace, -, hposition⟩ :=
    htakes "IN:" _ hscan .inOperator List.mem_cons_self rfl .lenient [.inOperator]
      { ParserState.start [.inOperator] with place := .comparison } rfl rfl
  exact ⟨hquery, hqueries "a b" "b" hquery, (herrors _ _ htree).1, u, v, hu, hv, hplace,
    hposition⟩

end FilterQuery
