import FilterQuery.Token.Rule
/-!
# Pieces of a query text

A text is cut from left to right into pieces, whatever the mode: blanks, lexemes of the
lexical rules, characters that fit nowhere, and a quote that nothing closes together with all
that follows it. The pieces put together are the text again, and no piece is empty.
-/
namespace FilterQuery

inductive Piece
  | blank (c : Char)
  | lexeme (rule : Rule) (chars : List Char)
  /-- A character at which no rule applies. -/
  | unknown (c : Char)
  /-- A quote without a closing one, and the rest of the text. -/
  | unclosed (chars : List Char)
deriving DecidableEq, Repr

namespace Piece

def chars : Piece → List Char
  | .blank c => [c]
  | .lexeme _ cs => cs
  | .unknown c => [c]
  | .unclosed cs => cs

/-- The first piece of the text `c :: cs` and what follows it. -/
def next (c : Char) (cs : List Char) : Piece × List Char :=
  if isBlank c then (.blank c, cs)
  else match Rule.first? (c :: cs) with
    | some rule =>
      (.lexeme rule ((c :: cs).take (rule.width (c :: cs))), (c :: cs).drop (rule.width (c :: cs)))
    | none => if c = '"' then (.unclosed (c :: cs), []) else (.unknown c, cs)

theorem chars_next (c : Char) (cs : List Char) : (next c cs).1.chars ++ (next c cs).2 = c :: cs := by
  unfold next
  split
  · rfl
  · split
    · exact List.take_append_drop _ _
    · split <;> simp [chars]

theorem chars_next_ne_nil (c : Char) (cs : List Char) : (next c cs).1.chars ≠ [] := by
  unfold next
  split
  · simp [chars]
  · split
    · rename_i rule h
      have := Rule.width_pos_of_first? h
      simp only [chars, ne_eq, List.take_eq_nil_iff]
      simp; omega
    · split <;> simp [chars]

theorem length_next_lt (c : Char) (cs : List Char) : (next c cs).2.length < (c :: cs).length := by
  have h := congrArg List.length (chars_next c cs)
  have hn := List.length_pos_iff.mpr (chars_next_ne_nil c cs)
  rw [List.length_append] at h
  omega

/-- The pieces of a text, put behind those in `done`. -/
def splitOnto (done : Array Piece) : List Char → Array Piece
  | [] => done
  | c :: cs =>
    let step := next c cs
    splitOnto (done.push step.1) step.2
termination_by cs => cs.length
decreasing_by exact length_next_lt c cs

/-- The pieces of a text in order. -/
def split (cs : List Char) : List Piece := (splitOnto #[] cs).toList

theorem toList_splitOnto : (done : Array Piece) → (cs : List Char) →
    (splitOnto done cs).toList = done.toList ++ split cs
  | done, [] => by simp [split, splitOnto]
  | done, c :: cs => by
    rw [split, splitOnto, splitOnto, toList_splitOnto _ (next c cs).2,
      toList_splitOnto _ (next c cs).2]
    simp
termination_by _ cs => cs.length
decreasing_by all_goals exact length_next_lt c cs

@[simp] theorem split_nil : split [] = [] := by simp [split, splitOnto]

theorem split_cons (c : Char) (cs : List Char) :
    split (c :: cs) = (next c cs).1 :: split (next c cs).2 := by
  rw [split, splitOnto, toList_splitOnto]
  simp

/-- Nothing of a text is lost or reordered by cutting it. -/
theorem chars_split : (cs : List Char) → (split cs).flatMap chars = cs
  | [] => by simp
  | c :: cs => by
    rw [split_cons, List.flatMap_cons, chars_split (next c cs).2, chars_next]
termination_by cs => cs.length
decreasing_by exact length_next_lt c cs

end Piece

end FilterQuery
