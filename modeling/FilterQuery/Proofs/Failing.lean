import FilterQuery.Query
import FilterQuery.Proofs.ExpressionReading
/-!
# How a parser fails

A production fails with the error of the first of its parts that fails. Expressions fail besides
that for their parentheses, and strict parsers for what stands behind an expression.
-/
namespace FilterQuery

theorem tokensTree_error_iff {mode : Mode} {ts : List Token} {e : ParseError} :
    tokensTree mode ts = .error e ↔ (parse mode ts).result = .error e := by
  unfold tokensTree
  cases (parse mode ts).result <;> simp [Except.map]

namespace Parse

variable {mode : Mode} {b : Balance} {c : Cursor} {e : ParseError}

theorem comparison_list_error_iff (hc : c.current = Token.inOperator) :
    (comparison mode c).result = .error e ↔ (list mode c.advance).result = .error e := by
  rw [comparison, if_pos hc, Logged.result_bind_eq_error]
  refine or_iff_left ?_
  rintro ⟨r, -, h⟩
  cases h

theorem comparison_scalar_error_iff (hc : c.current ≠ Token.inOperator) :
    (comparison mode c).result = .error e ↔ (comparator mode c).result = .error e ∨
      ∃ op d, (comparator mode c).result = .ok (op, d) ∧
        (terminal mode .literal .literal d).result = .error e := by
  rw [comparison, if_neg hc, Logged.result_bind_eq_error]
  simp only [Logged.result_bind_eq_error, Prod.exists]
  simp

theorem filter_error_iff :
    (filter mode c).result = .error e ↔
      (terminal mode .identifier .identifier c).result = .error e ∨
        ∃ key d, (terminal mode .identifier .identifier c).result = .ok (key, d) ∧
          (comparison mode d).result = .error e := by
  rw [filter, Logged.result_bind_eq_error]
  simp only [Logged.result_bind_eq_error, Prod.exists]
  simp

theorem segment_error_iff : (segment mode b c).result = .error e ↔
    (filter mode (paren .opening b c).2.2).result = .error e := by
  rw [segment, Logged.result_bind_eq_error]
  simp only [Logged.result_bind_eq_error, Prod.exists]
  simp

theorem chain_error_iff : (chain mode c).result = .error e ↔
    (segments mode .empty c).result = .error e ∨
      ∃ x b d, (segments mode .empty c).result = .ok (x, b, d) ∧ b.check = .error e := by
  rw [chain_eq, Logged.result_bind_eq_error]
  simp only [Logged.result_bind_eq_error, Prod.exists]
  simp [Logged.ofExcept]

theorem expression_error_iff : (expression mode c).result = .error e ↔
    (chain mode (wrappers .empty c).2).result = .error e ∨
      ∃ x d, (chain mode (wrappers .empty c).2).result = .ok (x, d) ∧
        (paren .closing (wrappers .empty c).1 d).2.1.check = .error e := by
  change ((chain mode (wrappers .empty c).2) >>= _).result = .error e ↔ _
  rw [Logged.result_bind_eq_error]
  simp only [Logged.result_bind_eq_error, Prod.exists]
  simp [Logged.ofExcept]

theorem parse_error_iff {ts : List Token} (hts : ts ≠ []) : (parse mode ts).result = .error e ↔
    (expression mode (.start ts)).result = .error e ∨
      ∃ x d, (expression mode (.start ts)).result = .ok (x, d) ∧ mode = .strict ∧ d.rest ≠ [] ∧
        e = .trailingInput d.current.text := by
  have htrailing (d : Cursor) : (trailing mode d).result = .error e ↔
      mode = .strict ∧ d.rest ≠ [] ∧ e = .trailingInput d.current.text := by
    unfold trailing
    by_cases hd : d.rest = [] <;> cases mode <;> simp [hd, eq_comm]
  rw [parse, if_neg hts, Logged.result_bind_eq_error]
  simp only [Logged.result_bind_eq_error, Prod.exists, htrailing]
  simp

end Parse

end FilterQuery
