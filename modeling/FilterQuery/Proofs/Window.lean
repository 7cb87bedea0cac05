import FilterQuery.Proofs.QuotedText
/-!
# Lexical rules on a window

A text can be scanned with two indexes into it: `start`, where the token that is being built begins,
and `cursor`, up to which the text has been read. A rule moves the cursor over the characters that
it takes and then cuts the token out of the text. If both indexes are the same at first, a rule
takes as many characters as its width says, and they are the same again behind the token.
-/
namespace FilterQuery

structure Window where
  start : Nat
  cursor : Nat
deriving DecidableEq, Repr

/-- The characters of a text from index `i` up to index `j`. There are none to give, not even an
empty list of them, if the indexes are out of order or do not lie within the text. -/
def slice? (text : List Char) (i j : Nat) : Option (List Char) :=
  if i ≤ j ∧ j ≤ text.length then some ((text.drop i).take (j - i)) else none

/-- What a rule makes of a window: an error, or a token or none, and the window behind it; nothing
if it asks for a slice that is not there. -/
abbrev Attempt := Option (Scanned (Option Token × Window))

namespace Window

def advance (w : Window) (n : Nat) : Window := { w with cursor := w.cursor + n }

/-- The window that opens where this one ends. -/
def next (w : Window) : Window := { w with start := w.cursor }

def decline (w : Window) : Attempt := some (pure (none, w))

section
variable (text : List Char)

def current? (w : Window) : Option Char := text[w.cursor]?

/-- Whether the text goes on with `expected` at the cursor. -/
def looksAt (w : Window) (expected : String) : Bool :=
  expected.toList.zipIdx.all fun (c, offset) => text[w.cursor + offset]? = some c

/-- Moves the cursor over characters with the property `p` as long as there is one. -/
def advanceWhile (p : Char → Bool) (w : Window) : Window :=
  if _h : (w.current? text).any p then advanceWhile p (w.advance 1) else w
termination_by text.length - w.cursor
decreasing_by
  obtain ⟨c, hc, -⟩ := (Option.any_eq_true _ _).mp _h
  have hlt := (List.getElem?_eq_some_iff.mp hc).1
  simp only [advance]
  omega

/-- Cuts the token between the two indexes out of the text. -/
def emit (kind : TokenKind) (w : Window) : Attempt :=
  (slice? text w.start w.cursor).map fun cs => pure (some ⟨kind, String.ofList cs⟩, w.next)

/-- Takes the first of `texts` with which the text goes on. -/
def fixed (kind : TokenKind) (texts : List String) (w : Window) : Attempt :=
  match texts.find? (w.looksAt text) with
  | some expected => (w.advance expected.length).emit text kind
  | none => w.decline

def identifier (w : Window) : Attempt :=
  if (w.current? text).any fun c => isKeyChar c && !c.isDigit then
    (w.advanceWhile text isKeyChar).emit text .identifier
  else w.decline

/-- Takes the text up to the next quote. Without one a strict scan fails, and a lenient one drops
the rest of the text. -/
def quotedLiteral (mode : Mode) (w : Window) : Attempt :=
  (slice? text (w.cursor + 1) text.length).bind fun behind =>
    match behind.findIdx? (· = '"') with
    | some offset => emit text .literal { w with cursor := w.cursor + 1 + offset + 1 }
    | none =>
      match mode with
      | .strict => some (Logged.fail (.unterminatedLiteral (w.cursor + 1)))
      | .lenient => some do
        Logged.write (.dropped (w.cursor + 1))
        return (none, ⟨text.length, text.length⟩)

def literal (mode : Mode) (w : Window) : Attempt :=
  if (w.current? text).any Char.isDigit then
    (w.advanceWhile text Char.isDigit).emit text .literal
  else if w.current? text = some '"' then w.quotedLiteral text mode
  else w.decline

def separator (w : Window) : Attempt :=
  if (w.current? text).any isSeparatorChar then (w.advance 1).emit text .separator else w.decline

end

end Window

/-- The operators that compare with one literal, in the order in which they are looked for. -/
def scannedComparators : List String := ["gte:", "lte:", "not:", "eq:", "gt:", "lt:"]

/-- Tries a rule on a window. -/
def Rule.attempt (mode : Mode) (text : List Char) : Rule → Window → Attempt
  | .logicalOperator => Window.fixed text .logicalOperator ["&&", "||"]
  | .assignOperator => Window.fixed text .assignOperator [":="]
  | .inOperator => Window.fixed text .comparisonOperator ["IN:"]
  | .comparisonOperator => Window.fixed text .comparisonOperator scannedComparators
  | .identifier => Window.identifier text
  | .literal => Window.literal text mode
  | .separator => Window.separator text

section
variable {text : List Char} {i : Nat}

theorem slice?_of_le {j : Nat} (hij : i ≤ j) (hj : j ≤ text.length) :
    slice? text i j = some ((text.drop i).take (j - i)) :=
  if_pos ⟨hij, hj⟩

theorem drop_succ_of_cons {c : Char} {cs : List Char} (h : text.drop i = c :: cs) :
    text.drop (i + 1) = cs := by
  rw [← List.tail_drop, h, List.tail_cons]

namespace Window

theorem current?_eq (text : List Char) (w : Window) :
    w.current? text = (text.drop w.cursor).head? := by
  rw [current?, List.head?_drop]

theorem looksAt_iff {w : Window} {expected : String} :
    w.looksAt text expected ↔ expected.toList <+: text.drop w.cursor := by
  rw [List.prefix_iff_getElem?]
  simp only [looksAt, List.all_eq_true, decide_eq_true_eq, Prod.forall, List.getElem?_drop]
  constructor
  · intro h k hk
    exact h _ k (List.mem_zipIdx_iff_getElem?.mpr (List.getElem?_eq_getElem hk))
  · intro h c k hk
    have hget : expected.toList[k]? = some c := List.mem_zipIdx_iff_getElem?.mp hk
    obtain ⟨hlt, rfl⟩ := List.getElem?_eq_some_iff.mp hget
    exact h k hlt

theorem advanceWhile_eq (text : List Char) (p : Char → Bool) (w : Window) :
    w.advanceWhile text p = w.advance ((text.drop w.cursor).takeWhile p).length := by
  fun_induction advanceWhile text p w with
  | case1 w h ih =>
    obtain ⟨c, hc, hp⟩ := (Option.any_eq_true _ _).mp h
    obtain ⟨hlt, rfl⟩ := List.getElem?_eq_some_iff.mp hc
    rw [ih, List.drop_eq_getElem_cons hlt, List.takeWhile_cons_of_pos hp, List.length_cons]
    simp only [advance, mk.injEq, true_and]
    omega
  | case2 w h =>
    rw [current?_eq] at h
    have hnone : (text.drop w.cursor).takeWhile p = [] := by
      cases hdrop : text.drop w.cursor with
      | nil => rfl
      | cons c cs =>
        rw [hdrop] at h
        exact List.takeWhile_cons_of_neg h
    rw [hnone]
    rfl

/-- The outcome of a rule that takes `n` characters from index `i` on, or does not apply. -/
def taking (text : List Char) (kind : TokenKind) (i n : Nat) : Scanned (Option Token × Window) :=
  if n = 0 then pure (none, ⟨i, i⟩)
  else pure (some ⟨kind, String.ofList ((text.drop i).take n)⟩, ⟨i + n, i + n⟩)

theorem emit_eq {n : Nat} (kind : TokenKind) (hn : n ≠ 0) (hle : i + n ≤ text.length) :
    emit text kind ⟨i, i + n⟩ = some (taking text kind i n) := by
  rw [emit, slice?_of_le (Nat.le_add_right i n) hle, Nat.add_sub_cancel_left, taking, if_neg hn]
  rfl

theorem fixed_eq {texts : List String} (kind : TokenKind) (hne : ∀ t ∈ texts, t.length ≠ 0) :
    fixed text kind texts ⟨i, i⟩ =
      some (taking text kind i (Rule.fixedWidth texts (text.drop i))) := by
  have hfind : texts.find? (looksAt text ⟨i, i⟩) =
      texts.find? (·.toList.isPrefixOf (text.drop i)) := by
    congr 1
    funext t
    rw [Bool.eq_iff_iff, looksAt_iff, List.isPrefixOf_iff_prefix]
  unfold fixed Rule.fixedWidth
  rw [hfind]
  cases h : texts.find? (·.toList.isPrefixOf (text.drop i)) with
  | none => rfl
  | some t =>
    have hprefix : t.toList <+: text.drop i := by
      simpa [List.isPrefixOf_iff_prefix] using List.find?_some h
    have hlength := hprefix.length_le
    have hpos := hne t (List.mem_of_find?_eq_some h)
    rw [String.length_toList, List.length_drop] at hlength
    change emit text kind ⟨i, i + t.length⟩ = _
    exact emit_eq kind hpos (by omega)

theorem run_eq {c : Char} {cs : List Char} {p : Char → Bool} (kind : TokenKind)
    (hdrop : text.drop i = c :: cs) (hc : p c) :
    emit text kind (advanceWhile text p ⟨i, i⟩) =
      some (taking text kind i ((cs.takeWhile p).length + 1)) := by
  have hrun := (List.takeWhile_prefix p (l := cs)).length_le
  have hlength := congrArg List.length hdrop
  rw [List.length_drop, List.length_cons] at hlength
  rw [advanceWhile_eq]
  simp only [hdrop, List.takeWhile_cons_of_pos hc, List.length_cons]
  change emit text kind ⟨i, i + ((cs.takeWhile p).length + 1)⟩ = _
  exact emit_eq kind (Nat.succ_ne_zero _) (by omega)

theorem identifier_eq :
    identifier text ⟨i, i⟩ =
      some (taking text .identifier i (Rule.keyWidth (text.drop i))) := by
  rw [identifier, current?_eq]
  cases hdrop : text.drop i with
  | nil => rfl
  | cons c cs =>
    change (if isKeyChar c && !c.isDigit then _ else _) = _
    rw [Rule.keyWidth]
    by_cases hc : (isKeyChar c && !c.isDigit) = true
    · rw [if_pos hc, if_pos hc]
      exact run_eq .identifier hdrop (Bool.and_eq_true_iff.mp hc).1
    · rw [if_neg hc, if_neg hc]
      rfl

theorem separator_eq :
    separator text ⟨i, i⟩ =
      some (taking text .separator i (Rule.separatorWidth (text.drop i))) := by
  rw [separator, current?_eq]
  cases hdrop : text.drop i with
  | nil => rfl
  | cons c cs =>
    have hlength := congrArg List.length hdrop
    rw [List.length_drop, List.length_cons] at hlength
    change (if isSeparatorChar c then _ else _) = _
    rw [Rule.separatorWidth]
    by_cases hc : isSeparatorChar c
    · rw [if_pos hc, if_pos hc]
      change emit text .separator ⟨i, i + 1⟩ = _
      exact emit_eq .separator Nat.one_ne_zero (by omega)
    · rw [if_neg hc, if_neg hc]
      rfl

/-- A quote stands at index `i`, and none behind it. -/
def Unclosed (text : List Char) (i : Nat) : Prop :=
  text[i]? = some '"' ∧ '"' ∉ text.drop (i + 1)

instance (text : List Char) (i : Nat) : Decidable (Unclosed text i) :=
  inferInstanceAs (Decidable (_ ∧ _))

/-- What becomes of a quote at index `i` that is not closed. -/
def dropping (mode : Mode) (text : List Char) (i : Nat) : Scanned (Option Token × Window) :=
  match mode with
  | .strict => Logged.fail (.unterminatedLiteral (i + 1))
  | .lenient => do
    Logged.write (.dropped (i + 1))
    return (none, ⟨text.length, text.length⟩)

theorem quotedLiteral_of_unclosed (mode : Mode) (h : Unclosed text i) :
    quotedLiteral text mode ⟨i, i⟩ = some (dropping mode text i) := by
  have hlt := (List.getElem?_eq_some_iff.mp h.1).1
  have hnone : (text.drop (i + 1)).findIdx? (· = '"') = none := by
    rw [List.findIdx?_eq_none_iff]
    intro c hc
    exact decide_eq_false fun hq => h.2 (hq ▸ hc)
  unfold quotedLiteral
  rw [slice?_of_le (by exact hlt) le_rfl, Option.bind_some, ← List.length_drop, List.take_length]
  simp only [hnone]
  cases mode <;> rfl

theorem quotedLiteral_of_closed (mode : Mode) {body rest : List Char}
    (hdrop : text.drop (i + 1) = body ++ '"' :: rest) (hbody : '"' ∉ body) :
    quotedLiteral text mode ⟨i, i⟩ = some (taking text .literal i (body.length + 2)) := by
  have hlength := congrArg List.length hdrop
  rw [List.length_drop, List.length_append, List.length_cons] at hlength
  have hindex : (text.drop (i + 1)).findIdx? (· = '"') = some body.length := by
    rw [hdrop, List.findIdx?_append, List.findIdx?_eq_none_iff.mpr, List.findIdx?_cons]
    · simp
    · intro c hc
      exact decide_eq_false fun hq => hbody (hq ▸ hc)
  have hle : i + 1 ≤ text.length := by omega
  have hcursor : i + 1 + body.length + 1 = i + (body.length + 2) := by omega
  unfold quotedLiteral
  rw [slice?_of_le hle le_rfl, Option.bind_some, ← List.length_drop, List.take_length]
  simp only [hindex, hcursor]
  exact emit_eq .literal (Nat.succ_ne_zero _) (by omega)

theorem literal_eq (mode : Mode) (h : ¬ Unclosed text i) :
    literal text mode ⟨i, i⟩ =
      some (taking text .literal i (Rule.literalWidth (text.drop i))) := by
  rw [literal, current?_eq]
  cases hdrop : text.drop i with
  | nil => rfl
  | cons c cs =>
    change (if c.isDigit then _ else if some c = some '"' then _ else _) = _
    rw [Rule.literalWidth]
    by_cases hc : c.isDigit
    · rw [if_pos hc, if_pos hc]
      exact run_eq .literal hdrop hc
    · rw [if_neg hc, if_neg hc]
      by_cases hq : c = '"'
      · subst hq
        have htail := drop_succ_of_cons hdrop
        have hcurrent : text[i]? = some '"' := by rw [← List.head?_drop, hdrop, List.head?_cons]
        have hmem : '"' ∈ cs := by
          by_contra hmem
          exact h ⟨hcurrent, htail ▸ hmem⟩
        obtain ⟨body, rest, rfl, hbody⟩ := List.eq_append_cons_of_mem hmem
        rw [if_pos rfl, if_pos rfl, Rule.quotedWidth_append hbody]
        exact quotedLiteral_of_closed mode htail hbody
      · rw [if_neg hq, if_neg (fun heq => hq (Option.some.inj heq))]
        rfl

end Window

/-- Every rule takes as many characters as its width, except for a literal at a quote that is not
closed. -/
theorem Rule.attempt_eq (mode : Mode) {rule : Rule}
    (h : rule = .literal → ¬ Window.Unclosed text i) :
    rule.attempt mode text ⟨i, i⟩ =
      some (Window.taking text rule.kind i (rule.width (text.drop i))) := by
  cases rule with
  | logicalOperator => exact Window.fixed_eq .logicalOperator (by decide)
  | assignOperator => exact Window.fixed_eq .assignOperator (by decide)
  | inOperator => exact Window.fixed_eq .comparisonOperator (by decide)
  | comparisonOperator => exact Window.fixed_eq .comparisonOperator (by decide)
  | identifier => exact Window.identifier_eq
  | literal => exact Window.literal_eq mode (h rfl)
  | separator => exact Window.separator_eq

theorem Rule.attempt_literal_of_unclosed (mode : Mode) (h : Window.Unclosed text i) :
    Rule.literal.attempt mode text ⟨i, i⟩ = some (Window.dropping mode text i) := by
  have hcurrent : Window.current? text ⟨i, i⟩ = some '"' := h.1
  change Window.literal text mode ⟨i, i⟩ = _
  rw [Window.literal, hcurrent, if_neg (by decide), if_pos rfl]
  exact Window.quotedLiteral_of_unclosed mode h

end

end FilterQuery
