import FilterQuery.Token
/-!
# Cursors

A place in a token list: how many tokens lie behind it, and the tokens ahead. Past the last
token the current token is `Token.eof`. `c.Reaches d` says that `d` is `c` or lies ahead of it
with no end-of-input token between them; it is what every step of the parser keeps.
-/
namespace FilterQuery

structure Cursor where
  position : Nat
  rest : List Token
deriving DecidableEq, Repr

namespace Cursor

/-- The start of a token list. -/
def start (ts : List Token) : Cursor := ⟨0, ts⟩

def current (c : Cursor) : Token := c.rest.headD Token.eof

/-- The cursor `n` tokens further on. -/
def skip (c : Cursor) (n : Nat) : Cursor := ⟨c.position + n, c.rest.drop n⟩

def advance (c : Cursor) : Cursor := c.skip 1

/-- Whether the token behind the current one opens a parenthesis. -/
def nextIsOpeningParen (c : Cursor) : Bool := c.rest[1]?.any Token.isOpeningParen

/-- What lies between `c` and `d` when `d` can be reached from `c`. -/
def Reaches (c d : Cursor) : Prop :=
  ∃ taken, c.rest = taken ++ d.rest ∧ d.position = c.position + taken.length ∧
    ∀ t ∈ taken, t.isEof = false

theorem Reaches.refl (c : Cursor) : c.Reaches c := ⟨[], by simp⟩

theorem Reaches.trans {c d e : Cursor} (h : c.Reaches d) (h' : d.Reaches e) : c.Reaches e := by
  obtain ⟨taken, hr, hp, ht⟩ := h
  obtain ⟨taken', hr', hp', ht'⟩ := h'
  refine ⟨taken ++ taken', by simp [hr, hr'], by simp [hp, hp', Nat.add_assoc], ?_⟩
  intro t hm
  exact (List.mem_append.mp hm).elim (ht t) (ht' t)

theorem Reaches.length_le {c d : Cursor} (h : c.Reaches d) : d.rest.length ≤ c.rest.length := by
  obtain ⟨taken, hr, _⟩ := h
  simp [hr]

theorem rest_of_current_ne_eof {c : Cursor} (h : c.current.isEof = false) :
    c.rest = c.current :: c.rest.tail := by
  cases hr : c.rest with
  | nil => simp [current, hr, Token.isEof, Token.eof] at h
  | cons t ts => simp [current, hr]

theorem reaches_advance {c : Cursor} (h : c.current.isEof = false) : c.Reaches c.advance := by
  refine ⟨[c.current], ?_, by simp [advance, skip], by simpa using h⟩
  rw [rest_of_current_ne_eof h]
  simp [advance, skip, current]

theorem length_advance_lt {c : Cursor} (h : c.current.isEof = false) :
    c.advance.rest.length < c.rest.length := by
  rw [rest_of_current_ne_eof h]
  simp [advance, skip]

end Cursor

end FilterQuery
