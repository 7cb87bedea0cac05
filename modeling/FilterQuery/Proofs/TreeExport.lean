import Mathlib
import FilterQuery.Json.Export
/-!
# Exporting trees

An export enters every node and leaves it again, with the finished values on a stack. What the
visits to come will do to this stack is settled at every time: each node that is left finds the
values of its children on top, and behind the last visit the value of the tree is all there is.
-/
namespace FilterQuery.Node

theorem nestedJsonAll_eq (ns : List Node) : nestedJsonAll ns = ns.map nestedJson := by
  induction ns with
  | nil => rw [nestedJsonAll, List.map_nil]
  | cons n ns ih => rw [nestedJsonAll, ih, List.map_cons]

theorem nestedJson_eq (n : Node) : n.nestedJson = n.object (n.children.map nestedJson) := by
  obtain ⟨kind, value, children⟩ := n
  rw [nestedJson, nestedJsonAll_eq]

namespace ExportState

/-- The visits in `pending` find on the stack `built` what they need and turn it into `out`. -/
inductive Settles (out : List Json) : List Visit → List Json → Prop
  | done : Settles out [] out
  | enter {n : Node} {pending : List Visit} {built : List Json} :
    Settles out pending (n.nestedJson :: built) → Settles out (.enter n :: pending) built
  | leave {n : Node} {pending : List Visit} {built : List Json} :
    Settles out pending (n.nestedJson :: built) →
      Settles out (.leave n :: pending) ((n.children.map nestedJson).reverse ++ built)

/-- Makes visits, or none, on the way from `s` to `t`. -/
def Leads (s t : ExportState) : Prop := Relation.ReflTransGen (fun s t => s.next? = some t) s t

section
variable {out : List Json} {s t : ExportState}

theorem settles_start (n : Node) : Settles [n.nestedJson] (start n).pending (start n).built :=
  .enter .done

theorem Settles.enterAll {pending : List Visit} {ns : List Node} {built : List Json}
    (h : Settles out pending ((ns.map nestedJson).reverse ++ built)) :
    Settles out (ns.map .enter ++ pending) built := by
  induction ns generalizing built with
  | nil => exact h
  | cons n ns ih =>
    rw [List.map_cons, List.reverse_cons, List.append_assoc] at h
    exact .enter (ih h)

theorem Settles.of_leave {n : Node} {pending : List Visit} {built : List Json}
    (h : Settles out (.leave n :: pending) built) :
    n.children.length ≤ built.length ∧
      (built.take n.children.length).reverse = n.children.map nestedJson ∧
      Settles out pending (n.nestedJson :: built.drop n.children.length) := by
  cases h with
  | @leave _ _ built h =>
    have hlength : (n.children.map nestedJson).reverse.length = n.children.length := by
      rw [List.length_reverse, List.length_map]
    rw [List.take_left' hlength, List.drop_left' hlength, List.reverse_reverse, List.length_append,
      hlength]
    exact ⟨Nat.le_add_right _ _, rfl, h⟩

/-- A visit keeps what is settled. -/
theorem Settles.next? (hs : Settles out s.pending s.built) (h : s.next? = some t) :
    Settles out t.pending t.built := by
  obtain ⟨pending, built⟩ := s
  match pending with
  | [] => cases h
  | .enter n :: pending =>
    cases h
    cases hs with
    | enter hs => exact (Settles.leave hs).enterAll
  | .leave n :: pending =>
    cases h
    obtain ⟨-, hvalues, hs⟩ := hs.of_leave
    change Settles out pending (n.object _ :: _)
    rwa [hvalues, ← nestedJson_eq]

theorem Settles.leads (hs : Settles out s.pending s.built) (h : s.Leads t) :
    Settles out t.pending t.built := by
  induction h with
  | refl => exact hs
  | tail _ hnext ih => exact ih.next? hnext

theorem pending_of_done (h : s.next? = none) : s.pending = [] := by
  obtain ⟨pending, built⟩ := s
  cases pending with
  | nil => rfl
  | cons visit pending => cases visit <;> cases h

theorem Settles.built_of_done (hs : Settles out s.pending s.built) (h : s.pending = []) :
    s.built = out := by
  rw [h] at hs
  cases hs
  rfl

theorem leads_run (s : ExportState) : s.Leads s.run ∧ s.run.pending = [] := by
  fun_induction run s with
  | case1 s t h ih => exact ⟨.head h ih.1, ih.2⟩
  | case2 s h => exact ⟨.refl, pending_of_done h⟩

end

theorem built_run_start (n : Node) : (start n).run.built = [n.nestedJson] :=
  ((settles_start n).leads (leads_run _).1).built_of_done (leads_run _).2

end ExportState

theorem toJson_eq (n : Node) : n.toJson = n.nestedJson := by
  rw [toJson, ExportState.built_run_start]
  rfl

/-- An export builds the object of a node from those of its children. Whenever a node is left, the
values of its children are the last ones that were finished, and in the end one value is left. -/
theorem toJson_collects (n : Node) :
    n.toJson = .object
      ((if n.children = [] then [] else [("children", .array (n.children.map toJson))]) ++
        [("type", .string n.kind.name), ("value", (n.value.map Json.string).getD .null)]) ∧
    (∀ s m pending, (ExportState.start n).Leads s → s.pending = .leave m :: pending →
      m.children.length ≤ s.built.length ∧
        (s.built.take m.children.length).reverse = m.children.map toJson) ∧
    (∀ s, (ExportState.start n).Leads s → s.pending = [] → s.built = [n.toJson]) ∧
    (ExportState.start n).Leads (ExportState.start n).run ∧
      (ExportState.start n).run.pending = [] := by
  have hvalues (ns : List Node) : ns.map toJson = ns.map nestedJson :=
    List.map_congr_left fun m _ => toJson_eq m
  have hsettles {s : ExportState} (h : (ExportState.start n).Leads s) :
      ExportState.Settles [n.nestedJson] s.pending s.built := (ExportState.settles_start n).leads h
  refine ⟨?_, fun s m pending hs hm => ?_, fun s hs hdone => ?_, ExportState.leads_run _⟩
  · rw [toJson_eq, nestedJson_eq, hvalues, object]
    simp
  · have hleave := hsettles hs
    rw [hm] at hleave
    obtain ⟨hlength, htop, -⟩ := hleave.of_leave
    exact ⟨hlength, by rw [htop, hvalues]⟩
  · rw [toJson_eq]
    exact (hsettles hs).built_of_done hdone

/-- The brackets of a list behind the key of a filter. -/
theorem toJson_collects_brackets :
    let list := branch .list [leaf .separator "[", leaf .separator "]"]
    let n := branch .filter [leaf .identifier "city", list]
    ∃ s, (ExportState.start n).Leads s ∧ s.pending = [.leave list, .leave n] ∧
      2 ≤ s.built.length ∧ (s.built.take 2).reverse = list.children.map toJson ∧
      ∃ t, (ExportState.start n).Leads t ∧ t.pending = [] ∧ t.built = [n.toJson] := by
  intro list n
  obtain ⟨-, hleave, hdone, hrun, hend⟩ := toJson_collects n
  have hleads : (ExportState.start n).Leads
      ⟨[.leave list, .leave n], [(leaf .separator "]").object [], (leaf .separator "[").object [],
        (leaf .identifier "city").object []]⟩ :=
    .head rfl (.head rfl (.head rfl (.head rfl
      (.head rfl (.head rfl (.head rfl (.head rfl .refl)))))))
  obtain ⟨hlength, htop⟩ := hleave _ list _ hleads rfl
  exact ⟨_, hleads, rfl, hlength, htop, _, hrun, hend, hdone _ hrun hend⟩

end FilterQuery.Node
