import Mathlib
import FilterQuery.Expression.Parse
/-!
# Weights of log records

While an expression is read every record is a trace. Only what stands behind an expression is
warned of, and only a parser that succeeds writes a summary.
-/
namespace FilterQuery

namespace Logged

variable {ρ ε α β : Type} {P : ρ → Prop}

/-- Every record that was written has the property `P`. -/
def Writes (P : ρ → Prop) (x : Logged ρ ε α) : Prop := ∀ r ∈ x.log, P r

theorem writes_pure (a : α) : (pure a : Logged ρ ε α).Writes P := by
  intro r hr
  cases hr

theorem writes_fail (e : ε) : (fail e : Logged ρ ε α).Writes P := by
  intro r hr
  cases hr

theorem writes_ofExcept (x : Except ε α) : (ofExcept x : Logged ρ ε α).Writes P := by
  intro r hr
  cases hr

theorem writes_write {r : ρ} : (write r : Logged ρ ε Unit).Writes P ↔ P r := by
  simp [Writes]

theorem writes_lift {σ ζ : Type} {P : σ → Prop} {f : ρ → σ} {g : ε → ζ} {x : Logged ρ ε α} :
    (x.lift f g).Writes P ↔ x.Writes (P ∘ f) := by
  simp [Writes]

/-- A sequence writes what its first part writes and, if this succeeds, what the second does. -/
theorem writes_bind_iff {x : Logged ρ ε α} {f : α → Logged ρ ε β} :
    (x >>= f).Writes P ↔ x.Writes P ∧ ∀ a, x.result = .ok a → (f a).Writes P := by
  unfold Writes
  cases hx : x.result with
  | error e =>
    rw [log_bind_error hx]
    simp
  | ok a =>
    rw [log_bind_ok hx]
    simp [or_imp, forall_and]

theorem writes_bind {x : Logged ρ ε α} {f : α → Logged ρ ε β} (hx : x.Writes P)
    (hf : ∀ a, (f a).Writes P) : (x >>= f).Writes P :=
  writes_bind_iff.mpr ⟨hx, fun a _ => hf a⟩

end Logged

namespace Parse

/-- Nothing but traces is written. -/
def Traces {α : Type} (x : Parsed α) : Prop := x.Writes (·.severity = .trace)

theorem traces_missing (mode : Mode) (expected : Construct) : Traces (missing mode expected) := by
  cases mode with
  | strict => exact Logged.writes_fail _
  | lenient => exact Logged.writes_write.mpr rfl

theorem traces_terminal (mode : Mode) (kind : TokenKind) (expected : Construct) (c : Cursor) :
    Traces (terminal mode kind expected c) := by
  unfold terminal
  split
  · exact Logged.writes_bind (traces_missing _ _) fun _ => Logged.writes_pure _
  · split
    · exact Logged.writes_pure _
    · exact Logged.writes_fail _

theorem traces_comparator (mode : Mode) (c : Cursor) : Traces (comparator mode c) := by
  unfold comparator
  split
  · exact Logged.writes_bind (traces_missing _ _) fun _ => Logged.writes_pure _
  · split
    · exact Logged.writes_pure _
    · exact Logged.writes_fail _

theorem traces_list (mode : Mode) (c : Cursor) : Traces (list mode c) := by
  unfold list
  dsimp only
  split
  · exact Logged.writes_bind (traces_missing _ _) fun _ => Logged.writes_pure _
  · split
    · exact Logged.writes_fail _
    · split
      · exact Logged.writes_fail _
      · exact Logged.writes_pure _

theorem traces_filter (mode : Mode) (c : Cursor) : Traces (filter mode c) := by
  have hcomparison (c : Cursor) : Traces (comparison mode c) := by
    unfold comparison
    split
    · exact Logged.writes_bind (traces_list _ _) fun _ => Logged.writes_pure _
    · refine Logged.writes_bind (traces_comparator _ _) fun _ => ?_
      exact Logged.writes_bind (traces_terminal _ _ _ _) fun _ => Logged.writes_pure _
  refine Logged.writes_bind (traces_terminal _ _ _ _) fun _ => ?_
  exact Logged.writes_bind (hcomparison _) fun _ => Logged.writes_pure _

theorem traces_segment (mode : Mode) (b : Balance) (c : Cursor) : Traces (segment mode b c) := by
  refine Logged.writes_bind (Logged.writes_write.mpr rfl) fun _ => ?_
  exact Logged.writes_bind (traces_filter _ _) fun _ => Logged.writes_pure _

theorem traces_segments (mode : Mode) (b : Balance) (c : Cursor) :
    Traces (segments mode b c) := by
  fun_induction segments mode b c with
  | case1 b c step e => exact traces_segment mode b c
  | case2 b c step s b₁ d₁ h hd =>
    rename_i tail ih
    intro r hr
    rcases List.mem_append.mp hr with hr | hr
    · exact traces_segment mode b c r hr
    · exact ih r hr
  | case3 b c step s b₁ d₁ h => exact traces_segment mode b c

theorem traces_expression (mode : Mode) (c : Cursor) : Traces (expression mode c) := by
  have hchain (c : Cursor) : Traces (chain mode c) := by
    rw [chain_eq]
    refine Logged.writes_bind (traces_segments _ _ _) fun _ => ?_
    exact Logged.writes_bind (Logged.writes_ofExcept _) fun _ => Logged.writes_pure _
  refine Logged.writes_bind (hchain _) fun _ => ?_
  exact Logged.writes_bind (Logged.writes_ofExcept _) fun _ => Logged.writes_pure _

end Parse

end FilterQuery
