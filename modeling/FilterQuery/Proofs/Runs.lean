import Mathlib
/-!
# Runs of a machine

A machine that makes one step at a time passes through a list of states. What each step keeps holds
of all of them. A number that each step lowers tells the states apart, bounds how many there are,
and so brings the machine to a halt.
-/
namespace FilterQuery

/-- The states that a machine passes through from a state on, in order. It need not halt behind the
last of them. -/
inductive IsRun {σ : Type} (step : σ → Option σ) : σ → List σ → Prop
  | here (s : σ) : IsRun step s [s]
  | step {s t : σ} {states : List σ} :
    step s = some t → IsRun step t states → IsRun step s (s :: states)

section
variable {σ : Type} {step : σ → Option σ} {Inv : σ → Prop} {work : σ → Nat} {s : σ}
  {states : List σ}

theorem IsRun.forall_mem (hkeep : ∀ s t, Inv s → step s = some t → Inv t)
    (h : IsRun step s states) (hs : Inv s) : ∀ t ∈ states, Inv t := by
  induction h with
  | here s => exact List.forall_mem_singleton.mpr hs
  | step hstep _ ih => exact List.forall_mem_cons.mpr ⟨hs, ih (hkeep _ _ hs hstep)⟩

section
variable (hlower : ∀ s t, Inv s → step s = some t → Inv t ∧ work t < work s)

include hlower

theorem IsRun.work_le (h : IsRun step s states) (hs : Inv s) : ∀ t ∈ states, work t ≤ work s := by
  have hkeep (u t : σ) (hu : Inv u ∧ work u ≤ work s) (hstep : step u = some t) :
      Inv t ∧ work t ≤ work s := by
    obtain ⟨ht, hlt⟩ := hlower u t hu.1 hstep
    exact ⟨ht, hlt.le.trans hu.2⟩
  intro t ht
  exact (h.forall_mem hkeep ⟨hs, le_rfl⟩ t ht).2

theorem IsRun.pairwise_work (h : IsRun step s states) (hs : Inv s) :
    states.Pairwise fun s t => work t < work s := by
  induction h with
  | here s => exact List.pairwise_singleton _ s
  | step hstep hrun ih =>
    obtain ⟨ht, hlt⟩ := hlower _ _ hs hstep
    refine List.pairwise_cons.mpr ⟨fun u hu => ?_, ih ht⟩
    exact (hrun.work_le hlower ht u hu).trans_lt hlt

theorem IsRun.length_le (h : IsRun step s states) (hs : Inv s) : states.length ≤ work s + 1 := by
  induction h with
  | here s => exact Nat.le_add_left 1 (work s)
  | step hstep _ ih =>
    obtain ⟨ht, hlt⟩ := hlower _ _ hs hstep
    have hle := ih ht
    rw [List.length_cons]
    omega

/-- A machine with such a number halts, whatever state it starts from. What no step changes is at the
end what it was at the start. -/
theorem exists_halting_run {β : Type} {value : σ → β}
    (hvalue : ∀ s t, Inv s → step s = some t → value t = value s) (hs : Inv s) :
    ∃ states last, IsRun step s states ∧ states.getLast? = some last ∧ Inv last ∧
      value last = value s ∧ step last = none := by
  induction hwork : work s using Nat.strong_induction_on generalizing s with
  | _ n ih =>
    cases hstep : step s with
    | none => exact ⟨[s], s, .here s, rfl, hs, rfl, hstep⟩
    | some t =>
      obtain ⟨ht, hlt⟩ := hlower s t hs hstep
      obtain ⟨states, last, hrun, hlast, hinv, heq, hhalt⟩ := ih (work t) (hwork ▸ hlt) ht rfl
      refine ⟨s :: states, last, .step hstep hrun, ?_, hinv, heq.trans (hvalue s t hs hstep), hhalt⟩
      rw [List.getLast?_cons, hlast]
      rfl

end

end

theorem length_le_of_pairwise_lt {n : Nat} {xs : List Nat} (hlt : xs.Pairwise (· < ·))
    (hle : ∀ x ∈ xs, x ≤ n) : xs.length ≤ n + 1 := by
  have hnodup : xs.Nodup := hlt.imp Nat.ne_of_lt
  have hsubset : xs ⊆ List.range (n + 1) := fun x hx =>
    List.mem_range.mpr (Nat.lt_succ_of_le (hle x hx))
  simpa using (hnodup.subperm hsubset).length_le

end FilterQuery
