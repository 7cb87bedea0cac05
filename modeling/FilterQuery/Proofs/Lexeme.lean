import Mathlib
import FilterQuery.Token.Piece
/-!
# Where a token may stand in a text

The first rule that applies to a text takes the text of a token exactly if the token fits: keys
and numbers do not go on behind it, and no key starts where an operator does.
-/
namespace FilterQuery

/-- The operators behind a key. -/
def comparisonTexts : List String := ["IN:", "eq:", "gt:", "lt:", "gte:", "lte:", "not:"]

def separatorTexts : List String := ["(", ")", "[", "]", ","]

/-- Whether `run` is a key before `rest`: it does not go on there, and no operator stands in its
place. -/
def KeyText (run rest : List Char) : Prop :=
  run ≠ [] ∧ (∀ c ∈ run, isKeyChar c) ∧ (∀ c ∈ run.head?, ¬ c.isDigit) ∧
    (∀ c ∈ rest.head?, ¬ isKeyChar c) ∧ ∀ op ∈ comparisonTexts, ¬ op.toList <+: run ++ rest

/-- Whether `run` is a number or a quoted text before `rest`. -/
def LiteralText (run rest : List Char) : Prop :=
  (run ≠ [] ∧ (∀ c ∈ run, c.isDigit) ∧ ∀ c ∈ rest.head?, ¬ c.isDigit) ∨
    ∃ body, run = '"' :: body ++ ['"'] ∧ '"' ∉ body

/-- Whether `t` may be read from a text that goes on with `rest` behind it. -/
def Token.Fits (t : Token) (rest : List Char) : Prop :=
  match t.kind with
  | .logicalOperator => t.text ∈ ["&&", "||"]
  | .assignOperator => t.text = ":="
  | .comparisonOperator => t.text ∈ comparisonTexts
  | .separator => t.text ∈ separatorTexts
  | .identifier => KeyText t.text.toList rest
  | .literal => LiteralText t.text.toList rest
  | .eof => False

theorem LiteralText.head {run rest : List Char} (h : LiteralText run rest) :
    ∃ c cs, run = c :: cs ∧ (c.isDigit ∨ c = '"') := by
  rcases h with ⟨hne, hdigits, -⟩ | ⟨body, rfl, -⟩
  · obtain ⟨c, cs, rfl⟩ := List.exists_cons_of_ne_nil hne
    exact ⟨c, cs, rfl, .inl (hdigits c List.mem_cons_self)⟩
  · exact ⟨'"', body ++ ['"'], rfl, .inr rfl⟩

section
variable {α : Type} {p : α → Bool} {run rest : List α}

theorem takeWhile_run (hrun : ∀ a ∈ run, p a) (hrest : ∀ a ∈ rest.head?, ¬ p a) :
    (run ++ rest).takeWhile p = run := by
  rw [List.takeWhile_append_of_pos hrun]
  cases rest with
  | nil => simp
  | cons a rest =>
    have ha : p a = false := by simpa using hrest a rfl
    simp [ha]

theorem dropWhile_run (hrun : ∀ a ∈ run, p a) (hrest : ∀ a ∈ rest.head?, ¬ p a) :
    (run ++ rest).dropWhile p = rest := by
  rw [List.dropWhile_append_of_pos hrun]
  cases rest with
  | nil => rfl
  | cons a rest =>
    have ha : p a = false := by simpa using hrest a rfl
    simp [ha]

theorem exists_run (p : α → Bool) (as : List α) :
    ∃ run rest, as = run ++ rest ∧ (∀ a ∈ run, p a) ∧ ∀ a ∈ rest.head?, ¬ p a := by
  refine ⟨as.takeWhile p, as.dropWhile p, List.takeWhile_append_dropWhile.symm,
    List.all_eq_true.mp List.all_takeWhile, fun a ha => ?_⟩
  have hn := List.head?_dropWhile_not p as
  rw [Option.mem_def] at ha
  rw [ha] at hn
  simpa using hn

end

namespace Rule

theorem fixedWidth_eq_zero {texts : List String} {cs : List Char}
    (h : ∀ text ∈ texts, ¬ text.toList <+: cs) : fixedWidth texts cs = 0 := by
  have hnone : texts.find? (·.toList.isPrefixOf cs) = none := by
    rw [List.find?_eq_none]
    intro text ht
    rw [List.isPrefixOf_iff_prefix]
    exact h text ht
  rw [fixedWidth, hnone]

theorem exists_of_fixedWidth_pos {texts : List String} {cs : List Char}
    (h : 0 < fixedWidth texts cs) :
    ∃ text ∈ texts, ∃ rest, cs = text.toList ++ rest := by
  unfold fixedWidth at h
  cases hf : texts.find? (·.toList.isPrefixOf cs) with
  | none => simp [hf] at h
  | some text =>
    have hp : text.toList.isPrefixOf cs = true := by simpa using List.find?_some hf
    obtain ⟨rest, hr⟩ := List.isPrefixOf_iff_prefix.mp hp
    exact ⟨text, List.mem_of_find?_eq_some hf, rest, hr.symm⟩

theorem first?_comparison {op : String} (h : op ∈ comparisonTexts) (rest : List Char) :
    ∃ rule, first? (op.toList ++ rest) = some rule ∧ rule.kind = .comparisonOperator ∧
      rule.width (op.toList ++ rest) = op.toList.length := by
  simp only [comparisonTexts, List.mem_cons, List.not_mem_nil, or_false] at h
  rcases h with rfl | rfl | rfl | rfl | rfl | rfl | rfl
  · exact ⟨.inOperator, rfl, rfl, rfl⟩
  all_goals exact ⟨.comparisonOperator, rfl, rfl, rfl⟩

theorem first?_of_no_operator {cs : List Char}
    (h : ∀ op ∈ ["&&", "||", ":="] ++ comparisonTexts, ¬ op.toList <+: cs) :
    first? cs = [Rule.identifier, .literal, .separator].find? fun rule => 0 < rule.width cs := by
  have hlogical : width .logicalOperator cs = 0 :=
    fixedWidth_eq_zero fun text ht => h text (by simp at ht ⊢; grind)
  have hassign : width .assignOperator cs = 0 :=
    fixedWidth_eq_zero fun text ht => h text (by simp at ht ⊢; grind)
  have hin : width .inOperator cs = 0 :=
    fixedWidth_eq_zero fun text ht => h text (by simp [comparisonTexts] at ht ⊢; grind)
  have hcomparison : width .comparisonOperator cs = 0 :=
    fixedWidth_eq_zero fun text ht => h text (by
      simp [Comparator.all, Comparator.text, comparisonTexts] at ht ⊢; grind)
  simp [first?, all, hlogical, hassign, hin, hcomparison]

theorem operator_head {op : String} {c : Char} {cs : List Char}
    (hop : op ∈ ["&&", "||", ":="] ++ comparisonTexts) (h : op.toList <+: c :: cs) :
    ¬ c.isDigit ∧ c ≠ '"' ∧ (isKeyChar c → op ∈ comparisonTexts) := by
  simp only [comparisonTexts, List.cons_append, List.nil_append, List.mem_cons, List.not_mem_nil,
    or_false] at hop
  rcases hop with rfl | rfl | rfl | rfl | rfl | rfl | rfl | rfl | rfl | rfl
  all_goals
    obtain ⟨rfl, -⟩ := List.cons_prefix_cons.mp h
    decide

theorem keyWidth_append {run rest : List Char} (hne : run ≠ []) (hrun : ∀ c ∈ run, isKeyChar c)
    (hdigit : ∀ c ∈ run.head?, ¬ c.isDigit) (hrest : ∀ c ∈ rest.head?, ¬ isKeyChar c) :
    keyWidth (run ++ rest) = run.length := by
  obtain ⟨c, cs, rfl⟩ := List.exists_cons_of_ne_nil hne
  simp only [List.mem_cons, forall_eq_or_imp, List.head?_cons, Option.mem_def, Option.some.injEq,
    forall_eq'] at hrun hdigit
  simp [keyWidth, hrun.1, hdigit, takeWhile_run hrun.2 hrest]

theorem exists_of_keyWidth_pos {cs : List Char} (h : 0 < keyWidth cs) :
    ∃ run rest, cs = run ++ rest ∧ run ≠ [] ∧ (∀ c ∈ run, isKeyChar c) ∧
      (∀ c ∈ run.head?, ¬ c.isDigit) ∧ ∀ c ∈ rest.head?, ¬ isKeyChar c := by
  cases cs with
  | nil => exact absurd h (by decide)
  | cons c cs =>
    have hc : isKeyChar c ∧ c.isDigit = false := by
      simp only [keyWidth] at h
      split at h
      · simp_all
      · exact absurd h (Nat.lt_irrefl 0)
    obtain ⟨run, rest, rfl, hrun, hrest⟩ := exists_run isKeyChar cs
    refine ⟨c :: run, rest, rfl, List.cons_ne_nil c run, ?_, by simp [hc.2], hrest⟩
    simpa using ⟨hc.1, hrun⟩

theorem quotedWidth_append {body rest : List Char} (hbody : '"' ∉ body) :
    quotedWidth (body ++ '"' :: rest) = body.length + 2 := by
  have hrun : ∀ c ∈ body, decide (c ≠ '"') := by
    intro c hc
    have : c ≠ '"' := fun hq => hbody (hq ▸ hc)
    simpa using this
  have hrest : ∀ c ∈ ('"' :: rest).head?, ¬ decide (c ≠ '"') := by simp
  rw [quotedWidth, dropWhile_run hrun hrest, takeWhile_run hrun hrest]

theorem exists_of_quotedWidth_pos {cs : List Char} (h : 0 < quotedWidth cs) :
    ∃ body rest, cs = body ++ '"' :: rest ∧ '"' ∉ body := by
  obtain ⟨body, rest, rfl, hbody, hrest⟩ := exists_run (· ≠ '"') cs
  cases rest with
  | nil =>
    rw [quotedWidth, dropWhile_run hbody hrest] at h
    exact absurd h (Nat.lt_irrefl 0)
  | cons c rest =>
    have hc : c = '"' := by simpa using hrest c rfl
    exact ⟨body, rest, by rw [hc], fun hq => by simpa using hbody '"' hq⟩

theorem literalWidth_append {run rest : List Char} (h : LiteralText run rest) :
    literalWidth (run ++ rest) = run.length := by
  rcases h with ⟨hne, hdigits, hrest⟩ | ⟨body, rfl, hbody⟩
  · obtain ⟨c, cs, rfl⟩ := List.exists_cons_of_ne_nil hne
    simp only [List.mem_cons, forall_eq_or_imp] at hdigits
    simp [literalWidth, hdigits.1, takeWhile_run hdigits.2 hrest]
  · have hq : ('"').isDigit = false := by decide
    simp [literalWidth, hq, quotedWidth_append hbody]

theorem exists_of_literalWidth_pos {cs : List Char} (h : 0 < literalWidth cs) :
    ∃ run rest, cs = run ++ rest ∧ LiteralText run rest := by
  cases cs with
  | nil => exact absurd h (by decide)
  | cons c cs =>
    by_cases hc : c.isDigit
    · obtain ⟨run, rest, rfl, hrun, hrest⟩ := exists_run Char.isDigit cs
      refine ⟨c :: run, rest, rfl, .inl ⟨List.cons_ne_nil c run, ?_, hrest⟩⟩
      simpa using ⟨hc, hrun⟩
    · by_cases hq : c = '"'
      · have hquoted : 0 < quotedWidth cs := by simpa [literalWidth, hc, hq] using h
        obtain ⟨body, rest, rfl, hbody⟩ := exists_of_quotedWidth_pos hquoted
        exact ⟨'"' :: body ++ ['"'], rest, by simp [hq], .inr ⟨body, rfl, hbody⟩⟩
      · exact absurd h (by simp [literalWidth, hc, hq])

theorem exists_of_separatorWidth_pos {cs : List Char} (h : 0 < separatorWidth cs) :
    ∃ text ∈ separatorTexts, ∃ rest, cs = text.toList ++ rest := by
  cases cs with
  | nil => exact absurd h (by decide)
  | cons c cs =>
    have hc : isSeparatorChar c := by
      simp only [separatorWidth] at h
      split at h
      · assumption
      · exact absurd h (Nat.lt_irrefl 0)
    simp only [isSeparatorChar, List.contains_eq_mem, List.mem_cons, List.not_mem_nil, or_false,
      decide_eq_true_eq] at hc
    refine ⟨String.ofList [c], ?_, cs, by simp⟩
    rcases hc with rfl | rfl | rfl | rfl | rfl <;> simp [separatorTexts]

end Rule

theorem KeyText.first? {run rest : List Char} (h : KeyText run rest) :
    Rule.first? (run ++ rest) = some .identifier ∧
      Rule.width .identifier (run ++ rest) = run.length := by
  obtain ⟨hne, hkey, hdigit, hrest, hop⟩ := h
  have hwidth : Rule.width .identifier (run ++ rest) = run.length :=
    Rule.keyWidth_append hne hkey hdigit hrest
  have hpos : 0 < run.length := List.length_pos_iff.mpr hne
  refine ⟨?_, hwidth⟩
  obtain ⟨c, cs, rfl⟩ := List.exists_cons_of_ne_nil hne
  have hnone : ∀ op ∈ ["&&", "||", ":="] ++ comparisonTexts, ¬ op.toList <+: c :: cs ++ rest := by
    intro op hmem hp
    have hc := (Rule.operator_head hmem hp).2.2
    exact hop op (hc (hkey c List.mem_cons_self)) hp
  rw [Rule.first?_of_no_operator hnone, List.find?_cons_of_pos]
  simpa only [hwidth, decide_eq_true_eq] using hpos

theorem LiteralText.first? {run rest : List Char} (h : LiteralText run rest) :
    Rule.first? (run ++ rest) = some .literal ∧
      Rule.width .literal (run ++ rest) = run.length := by
  have hwidth : Rule.width .literal (run ++ rest) = run.length := Rule.literalWidth_append h
  obtain ⟨c, cs, rfl, hc⟩ := h.head
  have hpos : 0 < (c :: cs).length := Nat.succ_pos _
  have hnone : ∀ op ∈ ["&&", "||", ":="] ++ comparisonTexts, ¬ op.toList <+: c :: cs ++ rest := by
    intro op hmem hp
    obtain ⟨hd, hq, -⟩ := Rule.operator_head hmem hp
    exact hc.elim hd hq
  have hkey : Rule.width .identifier (c :: cs ++ rest) = 0 := by
    rcases hc with hc | rfl
    · simp [Rule.width, Rule.keyWidth, hc]
    · rfl
  refine ⟨?_, hwidth⟩
  rw [Rule.first?_of_no_operator hnone, List.find?_cons_of_neg, List.find?_cons_of_pos]
  · simpa only [hwidth, decide_eq_true_eq] using hpos
  · simp only [hkey, Nat.lt_irrefl, decide_false, Bool.false_eq_true, not_false_eq_true]

/-- A token that fits is what the first rule takes. -/
theorem Token.Fits.first? {t : Token} {rest : List Char} (h : t.Fits rest) :
    ∃ rule, Rule.first? (t.text.toList ++ rest) = some rule ∧ rule.kind = t.kind ∧
      rule.width (t.text.toList ++ rest) = t.text.toList.length := by
  obtain ⟨kind, text⟩ := t
  cases kind with
  | logicalOperator =>
    simp only [Fits, List.mem_cons, List.not_mem_nil, or_false] at h
    rcases h with rfl | rfl <;> exact ⟨.logicalOperator, rfl, rfl, rfl⟩
  | assignOperator =>
    cases show text = ":=" from h
    exact ⟨.assignOperator, rfl, rfl, rfl⟩
  | comparisonOperator => exact Rule.first?_comparison h rest
  | separator =>
    simp only [Fits, separatorTexts, List.mem_cons, List.not_mem_nil, or_false] at h
    rcases h with rfl | rfl | rfl | rfl | rfl <;> exact ⟨.separator, rfl, rfl, rfl⟩
  | identifier =>
    obtain ⟨hfirst, hwidth⟩ := KeyText.first? h
    exact ⟨.identifier, hfirst, rfl, hwidth⟩
  | literal =>
    obtain ⟨hfirst, hwidth⟩ := LiteralText.first? h
    exact ⟨.literal, hfirst, rfl, hwidth⟩
  | eof => exact h.elim

theorem Rule.first?_blank {c : Char} (hc : isBlank c) (cs : List Char) :
    first? (c :: cs) = none := by
  simp only [isBlank, Bool.or_eq_true, decide_eq_true_eq] at hc
  rcases hc with (rfl | rfl) | rfl <;> rfl

theorem Token.Fits.head {t : Token} {rest : List Char} (h : t.Fits rest) :
    ∃ c cs, t.text.toList = c :: cs ∧ ¬ isBlank c := by
  obtain ⟨rule, hfirst, -, hwidth⟩ := h.first?
  have hpos := Rule.width_pos_of_first? hfirst
  cases htext : t.text.toList with
  | nil =>
    rw [hwidth, htext] at hpos
    exact absurd hpos (Nat.lt_irrefl 0)
  | cons c cs =>
    refine ⟨c, cs, rfl, fun hc => ?_⟩
    rw [htext, List.cons_append, Rule.first?_blank hc] at hfirst
    cases hfirst

theorem Token.Fits.inj {t t' : Token} {rest rest' : List Char} (h : t.Fits rest)
    (h' : t'.Fits rest') (heq : t.text.toList ++ rest = t'.text.toList ++ rest') :
    t = t' ∧ rest = rest' := by
  obtain ⟨rule, hfirst, hkind, hwidth⟩ := h.first?
  obtain ⟨rule', hfirst', hkind', hwidth'⟩ := h'.first?
  rw [← heq, hfirst] at hfirst'
  cases hfirst'
  rw [← heq, hwidth] at hwidth'
  obtain ⟨htext, hrest⟩ := List.append_inj heq hwidth'
  obtain ⟨kind, text⟩ := t
  obtain ⟨kind', text'⟩ := t'
  cases String.toList_inj.mp htext
  cases hkind.symm.trans hkind'
  exact ⟨rfl, hrest⟩

theorem prefix_of_prefix_append {α : Type} {xs run rest : List α} (h : xs <+: run ++ rest)
    (hrest : ∀ a ∈ rest.head?, a ∉ xs) : xs <+: run := by
  rcases List.prefix_or_prefix_of_prefix h (List.prefix_append run rest) with h' | ⟨ys, rfl⟩
  · exact h'
  · cases ys with
    | nil => simp
    | cons a ys =>
      obtain ⟨zs, hzs⟩ := (List.prefix_append_right_inj run).mp h
      have ha : a ∈ rest.head? := by rw [← hzs]; rfl
      exact absurd (List.mem_append_right run List.mem_cons_self) (hrest a ha)

theorem not_isKeyChar_of_isBlank {c : Char} (hc : isBlank c) : ¬ isKeyChar c ∧ ¬ c.isDigit := by
  simp only [isBlank, Bool.or_eq_true, decide_eq_true_eq] at hc
  rcases hc with (rfl | rfl) | rfl <;> decide

theorem operator_beyond_key {op : String} {run rest : List Char} (hop : op ∈ comparisonTexts)
    (hrest : ∀ c ∈ rest.head?, ¬ isKeyChar c) (h : op.toList <+: run ++ rest) :
    op.toList <+: run ∨ ∃ c ∈ rest.head?, op.toList = run ++ [c] := by
  have hkeys : ∀ op ∈ comparisonTexts, op.toList.dropLast.all isKeyChar := by decide
  rcases List.prefix_or_prefix_of_prefix h (List.prefix_append run rest) with hrun | ⟨tail, htail⟩
  · exact .inl hrun
  · rw [← htail, List.prefix_append_right_inj] at h
    cases tail with
    | nil => exact .inl (by rw [← htail, List.append_nil])
    | cons c tail =>
      obtain ⟨more, rfl⟩ := h
      refine .inr ⟨c, rfl, ?_⟩
      cases tail with
      | nil => exact htail.symm
      | cons d tail =>
        have hc : c ∈ op.toList.dropLast := by
          rw [← htail, List.dropLast_append_of_ne_nil (List.cons_ne_nil _ _)]
          simp
        exact absurd (List.all_eq_true.mp (hkeys op hop) c hc) (hrest c rfl)

/-- Of what follows a token only the first character matters, and a blank there suits any token. -/
theorem Token.Fits.of_head {t : Token} {rest rest' : List Char} (h : t.Fits rest)
    (hhead : ∀ c ∈ rest'.head?, c ∈ rest.head? ∨ isBlank c) : t.Fits rest' := by
  obtain ⟨kind, text⟩ := t
  cases kind with
  | identifier =>
    obtain ⟨hne, hkey, hdigit, hrest, hop⟩ := h
    have hstop : ∀ c ∈ rest'.head?, ¬ isKeyChar c := fun c hc =>
      (hhead c hc).elim (hrest c) fun hblank => (not_isKeyChar_of_isBlank hblank).1
    refine ⟨hne, hkey, hdigit, hstop, fun op hmem hp => ?_⟩
    rcases operator_beyond_key hmem hstop hp with hrun | ⟨c, hc, htext⟩
    · exact hop op hmem (hrun.trans (List.prefix_append _ _))
    · rcases hhead c hc with hc | hblank
      · obtain ⟨more, rfl⟩ := List.head?_eq_some_iff.mp hc
        exact hop op hmem ⟨more, by simp [htext]⟩
      · have hnone : ∀ op ∈ comparisonTexts, op.toList.all (!isBlank ·) := by decide
        simpa [htext, hblank] using hnone op hmem
  | literal =>
    rcases h with ⟨hne, hdigits, hrest⟩ | h
    · exact .inl ⟨hne, hdigits, fun c hc => (hhead c hc).elim (hrest c) fun hblank =>
        (not_isKeyChar_of_isBlank hblank).2⟩
    · exact .inr h
  | logicalOperator => exact h
  | assignOperator => exact h
  | comparisonOperator => exact h
  | separator => exact h
  | eof => exact h

theorem Token.Fits.before_blank {t : Token} {rest rest' : List Char} (h : t.Fits rest)
    (hblank : ∀ c ∈ rest'.head?, isBlank c) : t.Fits rest' :=
  h.of_head fun c hc => .inr (hblank c hc)

theorem Rule.exists_fits {cs : List Char} {rule : Rule} (h : first? cs = some rule) :
    ∃ text rest, cs = text.toList ++ rest ∧ Token.Fits ⟨rule.kind, text⟩ rest := by
  have hpos := width_pos_of_first? h
  cases rule with
  | logicalOperator =>
    obtain ⟨text, hmem, rest, hcs⟩ := exists_of_fixedWidth_pos hpos
    exact ⟨text, rest, hcs, hmem⟩
  | assignOperator =>
    obtain ⟨text, hmem, rest, hcs⟩ := exists_of_fixedWidth_pos hpos
    exact ⟨text, rest, hcs, List.mem_singleton.mp hmem⟩
  | inOperator =>
    obtain ⟨text, hmem, rest, hcs⟩ := exists_of_fixedWidth_pos hpos
    cases List.mem_singleton.mp hmem
    exact ⟨"IN:", rest, hcs, List.mem_cons_self⟩
  | comparisonOperator =>
    obtain ⟨text, hmem, rest, hcs⟩ := exists_of_fixedWidth_pos hpos
    have hsub : ∀ text ∈ Comparator.all.map Comparator.text, text ∈ comparisonTexts := by decide
    exact ⟨text, rest, hcs, hsub text hmem⟩
  | identifier =>
    obtain ⟨run, rest, rfl, hne, hrun, hdigit, hrest⟩ := exists_of_keyWidth_pos hpos
    refine ⟨String.ofList run, rest, by simp, ?_⟩
    simp only [Token.Fits, kind, String.toList_ofList]
    refine ⟨hne, hrun, hdigit, hrest, ?_⟩
    -- an operator would have been read first
    rintro op hop ⟨rest', hcs⟩
    obtain ⟨rule, hfirst, hkind, -⟩ := first?_comparison hop rest'
    rw [hcs, h] at hfirst
    cases hfirst
    exact absurd hkind (by decide)
  | literal =>
    obtain ⟨run, rest, rfl, hrun⟩ := exists_of_literalWidth_pos hpos
    refine ⟨String.ofList run, rest, by simp, ?_⟩
    simpa [Token.Fits, kind] using hrun
  | separator =>
    obtain ⟨text, hmem, rest, hcs⟩ := exists_of_separatorWidth_pos hpos
    exact ⟨text, rest, hcs, hmem⟩

end FilterQuery
