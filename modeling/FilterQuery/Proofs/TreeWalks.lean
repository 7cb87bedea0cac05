import Mathlib
import FilterQuery.Node.Equality
import FilterQuery.Node.Outline
/-!
# Walks over trees

The loops over pending subtrees do what recursion on the tree does. Each of them is described for
any list of pending work, so that its induction is on the loop and not on the tree.
-/
namespace FilterQuery.Node

theorem entriesFromAll_eq (depth : Nat) (ns : List Node) :
    entriesFromAll depth ns = ns.flatMap (entriesFrom depth) := by
  induction ns with
  | nil => rw [entriesFromAll, List.flatMap_nil]
  | cons n ns ih => rw [entriesFromAll, ih, List.flatMap_cons]

theorem entriesFrom_eq (depth : Nat) (n : Node) :
    entriesFrom depth n =
      ⟨depth, n.kind, n.value⟩ :: n.children.flatMap (entriesFrom (depth + 1)) := by
  obtain ⟨kind, value, children⟩ := n
  rw [entriesFrom, entriesFromAll_eq]

theorem toList_preorderOnto (done : Array Entry) (pending : List (Node × Nat)) :
    (preorderOnto done pending).toList =
      done.toList ++ pending.flatMap fun p => entriesFrom p.2 p.1 := by
  fun_induction preorderOnto done pending with
  | case1 done => simp
  | case2 done n depth pending ih =>
    have hchildren : (n.childrenAt (depth + 1)).flatMap (fun p => entriesFrom p.2 p.1) =
        n.children.flatMap (entriesFrom (depth + 1)) := by
      rw [childrenAt, List.flatMap_map]
    rw [ih, List.flatMap_append, hchildren, List.flatMap_cons, entriesFrom_eq]
    simp

theorem preorder_eq (n : Node) : n.preorder = n.entriesFrom 0 := by
  simp [preorder, toList_preorderOnto]

/-! ### A tree from its entries -/

/-- Whether no entry of depth `depth` or more comes next. -/
def Above (depth : Nat) (es : List Entry) : Prop := ∀ e ∈ es.head?, e.depth < depth

theorem Above.flatMap {depth : Nat} {rest : List Entry} (h : Above depth rest)
    (ns : List Node) : Above (depth + 1) (ns.flatMap (entriesFrom depth) ++ rest) := by
  cases ns with
  | nil => exact fun e he => Nat.lt_succ_of_lt (h e he)
  | cons n ns =>
    intro e he
    simp only [List.flatMap_cons, entriesFrom_eq depth n, List.cons_append, List.head?_cons,
      Option.mem_some_iff] at he
    subst he
    exact Nat.lt_succ_self depth

theorem not_above_entriesFrom (depth : Nat) (n : Node) (rest : List Entry) :
    ¬ Above depth (entriesFrom depth n ++ rest) := by
  rw [entriesFrom_eq]
  exact fun h => absurd (h _ rfl) (lt_irrefl depth)

/-- Whether the entries of `n` tell where they end. -/
def Separable (depth : Nat) (n : Node) : Prop :=
  ∀ {n' : Node} {rest rest' : List Entry}, Above (depth + 1) rest → Above (depth + 1) rest' →
    entriesFrom depth n ++ rest = entriesFrom depth n' ++ rest' → n = n' ∧ rest = rest'

theorem siblings_inj {depth : Nat} {ns ns' : List Node} {rest rest' : List Entry}
    (hns : ∀ n ∈ ns, Separable depth n) (hrest : Above depth rest) (hrest' : Above depth rest')
    (h : ns.flatMap (entriesFrom depth) ++ rest = ns'.flatMap (entriesFrom depth) ++ rest') :
    ns = ns' ∧ rest = rest' := by
  induction ns generalizing ns' with
  | nil =>
    cases ns' with
    | nil => exact ⟨rfl, h⟩
    | cons n' ns' =>
      rw [List.flatMap_nil, List.nil_append, List.flatMap_cons, List.append_assoc] at h
      rw [h] at hrest
      exact absurd hrest (not_above_entriesFrom depth n' _)
  | cons n ns ih =>
    obtain ⟨hn, hns⟩ := List.forall_mem_cons.mp hns
    cases ns' with
    | nil =>
      rw [List.flatMap_nil, List.nil_append, List.flatMap_cons, List.append_assoc] at h
      rw [← h] at hrest'
      exact absurd hrest' (not_above_entriesFrom depth n _)
    | cons n' ns' =>
      rw [List.flatMap_cons, List.flatMap_cons, List.append_assoc, List.append_assoc] at h
      obtain ⟨rfl, htail⟩ := hn (hrest.flatMap ns) (hrest'.flatMap ns') h
      obtain ⟨rfl, rfl⟩ := ih hns htail
      exact ⟨rfl, rfl⟩

/-- The depths of the entries tell where the children of a node end. -/
theorem separable (n : Node) : ∀ depth, Separable depth n := by
  induction n using Node.induct with
  | step kind value children ih =>
    intro depth n' rest rest' hrest hrest' h
    obtain ⟨kind', value', children'⟩ := n'
    rw [entriesFrom_eq, entriesFrom_eq, List.cons_append, List.cons_append] at h
    obtain ⟨hentry, hbelow⟩ := List.cons.inj h
    cases hentry
    obtain ⟨rfl, rfl⟩ := siblings_inj (fun n hn => ih n hn (depth + 1)) hrest hrest' hbelow
    exact ⟨rfl, rfl⟩

theorem preorder_inj {a b : Node} (h : a.preorder = b.preorder) : a = b := by
  rw [preorder_eq, preorder_eq] at h
  have hnil : Above 1 [] := fun e he => nomatch he
  exact (separable a 0 hnil hnil (by rw [h])).1

/-! ### Outlines -/

theorem outlineFromAll_eq (depth : Nat) (ns : List Node) :
    outlineFromAll depth ns = String.join (ns.map (outlineFrom depth)) := by
  induction ns with
  | nil => rw [outlineFromAll]; rfl
  | cons n ns ih => rw [outlineFromAll, ih, List.map_cons, String.join_cons]

theorem join_flatMap {α β : Type} (xs : List α) (f : α → List β) (text : β → String) :
    String.join ((xs.flatMap f).map text) =
      String.join (xs.map fun x => String.join ((f x).map text)) := by
  induction xs with
  | nil => rfl
  | cons x xs ih =>
    rw [List.flatMap_cons, List.map_append, String.join_append, ih, List.map_cons, String.join_cons]

theorem join_entriesFrom (n : Node) : ∀ depth,
    String.join ((entriesFrom depth n).map Entry.outline) = outlineFrom depth n := by
  induction n using Node.induct with
  | step kind value children ih =>
    intro depth
    have hchildren : children.map (fun c =>
        String.join ((entriesFrom (depth + 1) c).map Entry.outline)) =
          children.map (outlineFrom (depth + 1)) :=
      List.map_congr_left fun c hc => ih c hc (depth + 1)
    rw [entriesFrom_eq, List.map_cons, String.join_cons, join_flatMap, hchildren, outlineFrom,
      outlineFromAll_eq]
    rfl

theorem getLast?_outline (e : Entry) : e.outline.toList.getLast? = some ']' := by
  have hbracket : "']".toList.getLast? = some ']' := rfl
  rw [Entry.outline, outlineHeader, String.toList_append, String.toList_append,
    List.getLast?_append, List.getLast?_append, hbracket, Option.some_or, Option.some_or]

/-- The outline of a tree has its root in front and then the outlines of its children, each one
level deeper and on a line of its own. It ends with a bracket and so with no line break. -/
theorem outline_nests (n : Node) :
    n.outline = n.outlineFrom 0 ∧
    (∀ depth (m : Node), m.outlineFrom depth =
      (if depth = 0 then "" else
        "\n" ++ String.ofList (List.replicate (3 * (depth - 1)) ' ') ++ "└─ ") ++
      ("Node[" ++ m.kind.name ++ " = '" ++ m.value.getD "null" ++ "']") ++
      String.join (m.children.map (outlineFrom (depth + 1)))) ∧
    n.outline.toList.getLast? = some ']' := by
  refine ⟨?_, fun depth m => ?_, ?_⟩
  · rw [outline, preorder_eq, join_entriesFrom]
  · obtain ⟨kind, value, children⟩ := m
    rw [outlineFrom, outlineFromAll_eq]
    cases depth <;> rfl
  · have hne : n.preorder ≠ [] := by
      rw [preorder_eq, entriesFrom_eq]
      exact List.cons_ne_nil _ _
    rw [outline, ← List.dropLast_append_getLast hne, String.toList_join, List.map_append,
      List.flatMap_append, List.getLast?_append, List.map_singleton, List.flatMap_singleton,
      getLast?_outline, Option.some_or]

/-! ### Comparing trees -/

theorem forall_mem_zip_iff {α : Type} {xs ys : List α} (h : xs.length = ys.length) :
    (∀ p ∈ xs.zip ys, p.1 = p.2) ↔ xs = ys := by
  have hzip : List.Forall₂ Eq xs ys ↔ _ := List.forall₂_iff_zip
  rw [List.forall₂_eq_eq_eq] at hzip
  rw [hzip]
  exact ⟨fun hall => ⟨h, fun hp => hall _ hp⟩, fun hall p hp => hall.2 hp⟩

theorem agreeAll_iff (pending : List (Node × Node)) :
    agreeAll pending ↔ ∀ p ∈ pending, p.1 = p.2 := by
  fun_induction agreeAll pending with
  | case1 => simp
  | case2 a b pending h ih =>
    obtain ⟨kind, value, children⟩ := a
    obtain ⟨kind', value', children'⟩ := b
    simp only [sameSymbol, Bool.and_eq_true, decide_eq_true_eq, beq_iff_eq] at h
    obtain ⟨⟨rfl, rfl⟩, hlength⟩ := h
    have hzip : (∀ p ∈ (children.zip children').reverse, p.1 = p.2) ↔ children = children' := by
      simp only [List.mem_reverse]
      exact forall_mem_zip_iff hlength
    rw [ih, List.forall_mem_append, List.forall_mem_cons, hzip]
    simp
  | case3 a b pending h =>
    apply iff_of_false Bool.false_ne_true
    intro hall
    obtain rfl : a = b := hall (a, b) List.mem_cons_self
    exact h (by simp [sameSymbol])

theorem structurallyEq_iff {a b : Node} : a.structurallyEq b ↔ a = b := by
  rw [structurallyEq, agreeAll_iff, List.forall_mem_singleton]

theorem eq_iff_children {a b : Node} :
    a = b ↔ a.kind = b.kind ∧ a.value = b.value ∧ List.Forall₂ (· = ·) a.children b.children := by
  rw [List.forall₂_eq_eq_eq]
  obtain ⟨kind, value, children⟩ := a
  obtain ⟨kind', value', children'⟩ := b
  rw [mk.injEq]

/-- The comparison of trees is their equality: it goes by labels, values and the children, which
agree one by one. -/
theorem structurallyEq_deeply :
    (∀ a b : Node, a.structurallyEq b ↔ a = b) ∧ (∀ a b : Node, a == b ↔ a = b) ∧
    (∀ a b : Node, a.structurallyEq b ↔ a.kind = b.kind ∧ a.value = b.value ∧
      List.Forall₂ (fun x y => x.structurallyEq y) a.children b.children) ∧
    Equivalence (fun a b : Node => a.structurallyEq b) ∧
    ∀ a b : Node, a.structurallyEq b → a.sameSymbol b := by
  have hiff (a b : Node) : a.structurallyEq b ↔ a = b := structurallyEq_iff
  refine ⟨hiff, hiff, ?_, ?_, ?_⟩
  · intro a b
    simp only [hiff]
    exact eq_iff_children
  · simp only [hiff]
    exact eq_equivalence
  · intro a b h
    obtain rfl := (hiff a b).mp h
    simp [sameSymbol]

/-- Brackets that are put into a list from behind and from the front. -/
theorem structurallyEq_of_pushed :
    let a := (branch .list [leaf .separator "["]).pushBack (leaf .separator "]")
    let b := (branch .list [leaf .separator "]"]).pushFront (leaf .separator "[")
    a.structurallyEq b ∧ a.sameSymbol b := by
  intro a b
  have heq : a.structurallyEq b := (structurallyEq_deeply.1 a b).mpr rfl
  exact ⟨heq, structurallyEq_deeply.2.2.2.2 a b heq⟩

end FilterQuery.Node
