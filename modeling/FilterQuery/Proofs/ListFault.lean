import FilterQuery.Proofs.FilterReading
/-!
# Where a list goes wrong

A list is refused at the first of its tokens behind which no list can be completed any more. What
an index asks for depends on the length of the list only where the list ends, so the tokens before
a fault are also those of a list.
-/
namespace FilterQuery

/-- A list that the given mode accepts. -/
def IsListIn (mode : Mode) (ts : List Token) : Prop :=
  IsList ts ∧ (mode = .strict → ts.length % 2 = 1)

theorem Cursor.Passes.concat {c d : Cursor} {taken : List Token} (h : c.Passes taken d)
    (heof : d.current.isEof = false) : c.Passes (taken ++ [d.current]) d.advance :=
  passes_append.mpr ⟨d, h, (passes_singleton heof).mpr ⟨rfl, rfl⟩⟩

theorem append_cons_concat {α : Type} (before others : List α) (found last : α) :
    before ++ found :: others.concat last = (before ++ found :: others) ++ [last] := by
  rw [List.concat_eq_append, List.append_assoc, List.cons_append]

theorem append_cons_eq_concat {α : Type} {before after init : List α} {found last : α}
    (h : before ++ found :: after = init ++ [last]) :
    (after = [] ∧ before = init ∧ found = last) ∨
      ∃ others, after = others ++ [last] ∧ init = before ++ found :: others := by
  rcases List.eq_nil_or_concat after with rfl | ⟨others, last', rfl⟩
  · obtain ⟨hinit, hlast⟩ := List.append_inj' h rfl
    exact .inl ⟨rfl, hinit, List.singleton_inj.mp hlast⟩
  · rw [append_cons_concat] at h
    obtain ⟨hinit, hlast⟩ := List.append_inj' h rfl
    exact .inr ⟨others, by rw [List.concat_eq_append, hlast], hinit.symm⟩

namespace Parse

theorem isInsideList_iff {t : Token} : isInsideList t ↔ t.isEof = false ∧ t.text ≠ "]" := by
  simp [isInsideList]

section
variable {ts : List Token} {e : ParseError}

theorem listFault?_none_iff_forall :
    listFault? ts = none ↔ ∀ i t, ts[i]? = some t → expectedAt (ts.length - 1) i t = none := by
  simp only [listFault?, List.findSome?_eq_none_iff, List.mem_zipIdx_iff_getElem?, Prod.forall,
    Option.map_eq_none_iff]
  constructor
  · intro h i t ht
    exact h t i ht
  · intro h t i ht
    exact h i t ht

theorem exists_of_listFault?_eq_some (h : listFault? ts = some e) :
    ∃ taken t rest expected, ts = taken ++ t :: rest ∧ e = .unexpectedToken expected t.text ∧
      expectedAt (ts.length - 1) taken.length t = some expected ∧
      ∀ i s, taken[i]? = some s → expectedAt (ts.length - 1) i s = none := by
  obtain ⟨before, ⟨t, i⟩, after, hsplit, ht, hbefore⟩ := List.findSome?_eq_some_iff.mp h
  obtain ⟨expected, hexpected, rfl⟩ := Option.map_eq_some_iff.mp ht
  obtain ⟨taken, others, hts, rfl, hothers⟩ := List.zipIdx_eq_append_iff.mp hsplit
  obtain ⟨t', rest, rfl, hpair, -⟩ := List.zipIdx_eq_cons_iff.mp hothers.symm
  rw [Nat.zero_add] at hpair
  cases hpair
  refine ⟨taken, t, rest, expected, hts, rfl, hexpected, fun i s hs => ?_⟩
  exact Option.map_eq_none_iff.mp (hbefore (s, i) (List.mem_zipIdx_iff_getElem?.mpr hs))

end

theorem expectedAt_congr {last i : Nat} (last' : Nat) (h : i ≠ 0 → i < last)
    (h' : i ≠ 0 → i < last') (t : Token) : expectedAt last i t = expectedAt last' i t := by
  unfold expectedAt
  by_cases hi : i = 0
  · rw [if_pos hi, if_pos hi]
  · rw [if_neg hi, if_neg hi, if_neg (Nat.ne_of_lt (h hi)), if_neg (Nat.ne_of_lt (h' hi))]

theorem expectedAt_last {last : Nat} {t : Token} (hlast : last ≠ 0) (ht : t.text = "]") :
    expectedAt last last t = none := by
  rw [expectedAt, if_neg hlast, if_pos rfl, if_pos ht]

theorem isList_of_taken {taken : List Token} (last : Nat) (hne : taken ≠ [])
    (hinside : ∀ t ∈ taken, isInsideList t) (hlast : taken.length ≤ last)
    (h : ∀ i t, taken[i]? = some t → expectedAt last i t = none) :
    IsList (taken ++ [Token.separator "]"]) := by
  have hpos : taken.length ≠ 0 := mt List.length_eq_zero_iff.mp hne
  refine (listFault?_eq_none_iff hinside rfl rfl).mp (listFault?_none_iff_forall.mpr ?_)
  intro i t ht
  rw [List.length_append, List.length_singleton, Nat.add_sub_cancel]
  rw [List.getElem?_append] at ht
  split at ht
  · rename_i hi
    rw [expectedAt_congr last (fun _ => hi) (fun _ => by omega)]
    exact h i t ht
  · rename_i hi
    obtain ⟨hi', ht⟩ := List.getElem?_eq_some_iff.mp ht
    rw [List.length_singleton] at hi'
    obtain rfl : i = taken.length := by omega
    refine expectedAt_last hpos ?_
    rw [← ht, List.getElem_singleton]
    rfl

end Parse

theorem Alternates.concat {ts : List Token} (h : Alternates ts) (heven : ts.length % 2 = 0)
    {t : Token} (ht : t.kind = .literal) : Alternates (ts ++ [t]) := by
  induction h with
  | nil => exact .literal ht
  | literal => simp at heven
  | comma hliteral hcomma h ih =>
    rw [List.length_cons, List.length_cons] at heven
    exact .comma hliteral hcomma (ih (by omega))

theorem IsList.closing_iff {before after : List Token} {t : Token}
    (h : IsList (before ++ t :: after)) : t.text = "]" ↔ after = [] := by
  obtain ⟨opening, items, closing, hsplit, -, -, hclosing, -, hinside⟩ := h
  rcases append_cons_eq_concat hsplit with ⟨rfl, -, rfl⟩ | ⟨others, rfl, hinit⟩
  · exact iff_of_true hclosing rfl
  · have ht := hinside t (hinit ▸ List.mem_append_right _ List.mem_cons_self)
    exact iff_of_false (Parse.isInsideList_iff.mp ht).2 (by simp)

theorem IsList.exists_closing {ts : List Token} (h : IsList ts) :
    ¬ ∀ t ∈ ts, Parse.isInsideList t := by
  obtain ⟨opening, items, closing, rfl, -, -, hclosing, -, -⟩ := h
  intro hinside
  have hlast := hinside closing (List.mem_append_right _ List.mem_cons_self)
  simp [Parse.isInsideList, hclosing] at hlast

theorem IsList.fault_eq_none {ts : List Token} (h : IsList ts) : Parse.listFault? ts = none := by
  obtain ⟨opening, items, closing, rfl, -, -, hclosing, heof, hinside⟩ := id h
  exact (Parse.listFault?_eq_none_iff hinside hclosing heof).mpr h

namespace Parse

/-- What begins a list can be completed to one that both modes accept. -/
theorem exists_list_of_taken {taken : List Token} (mode : Mode) (last : Nat)
    (hinside : ∀ t ∈ taken, isInsideList t) (hlast : taken.length ≤ last)
    (h : ∀ i t, taken[i]? = some t → expectedAt last i t = none) :
    ∃ more, IsListIn mode (taken ++ more) := by
  by_cases hne : taken = []
  · refine ⟨[.separator "[", .literal "1", .separator "]"], ?_, fun _ => by rw [hne]; rfl⟩
    rw [hne]
    refine ⟨_, [.literal "1"], _, rfl, rfl, .literal rfl, rfl, rfl, ?_⟩
    simp [isInsideList, Token.isEof, Token.separator, Token.literal]
  · have hlist := isList_of_taken last hne hinside hlast h
    by_cases hodd : taken.length % 2 = 1
    · obtain ⟨opening, items, closing, hsplit, ho, ha, hc, heof, -⟩ := hlist
      obtain ⟨rfl, hclosing⟩ := List.append_inj' hsplit rfl
      rw [List.length_cons] at hodd
      have hitems : Alternates (items ++ [.literal "1"]) := ha.concat (by omega) rfl
      refine ⟨[.literal "1", closing], ⟨opening, _, closing, ?_, ho, hitems, hc, heof, ?_⟩, ?_⟩
      · simp
      · rw [← List.cons_append, List.forall_mem_append, List.forall_mem_singleton]
        exact ⟨hinside, rfl⟩
      · intro _
        simp only [List.length_append, List.length_cons, List.length_nil]
        omega
    · refine ⟨[.separator "]"], hlist, fun _ => ?_⟩
      rw [List.length_append, List.length_singleton]
      omega

section
variable {mode : Mode} {inside : List Token} {closing : Token}

/-- The tokens `ts` hold one behind which no list of the mode can be completed any more, while
those before it begin a list. -/
def BreaksList (mode : Mode) (ts : List Token) (found : String) : Prop :=
  ∃ taken t rest, ts = taken ++ t :: rest ∧ t.text = found ∧ (∀ s ∈ taken, isInsideList s) ∧
    (∃ more, IsListIn mode (taken ++ more)) ∧ ∀ more, ¬ IsListIn mode (taken ++ t :: more)

theorem breaksList_of_fault {expected : Construct} {found : String}
    (hinside : ∀ t ∈ inside, isInsideList t) (hclosing : closing.text = "]")
    (h : listFault? (inside ++ [closing]) = some (.unexpectedToken expected found)) :
    BreaksList mode (inside ++ [closing]) found := by
  obtain ⟨taken, t, rest, expected, hsplit, herror, hfault, htaken⟩ :=
    exists_of_listFault?_eq_some h
  cases herror
  rw [List.length_append, List.length_singleton, Nat.add_sub_cancel] at hfault htaken
  have hlength := congrArg List.length hsplit
  simp only [List.length_append, List.length_cons, List.length_nil] at hlength
  -- the closing bracket is wrong only where the opening one is due
  have hfront : (∀ s ∈ taken, isInsideList s) ∧
      (taken.length ≠ 0 → taken.length < inside.length ∧ t.text ≠ "]") := by
    rcases append_cons_eq_concat hsplit.symm with ⟨-, rfl, rfl⟩ | ⟨others, -, rfl⟩
    · refine ⟨hinside, fun hne => ?_⟩
      rw [expectedAt_last hne hclosing] at hfault
      cases hfault
    · rw [List.forall_mem_append, List.forall_mem_cons] at hinside
      refine ⟨hinside.1, fun _ => ⟨by simp, fun htext => ?_⟩⟩
      simp [isInsideList, htext] at hinside
  refine ⟨taken, t, rest, hsplit, rfl, hfront.1,
    exists_list_of_taken mode inside.length hfront.1 (by omega) htaken, fun more hlist => ?_⟩
  have hnone := listFault?_none_iff_forall.mp hlist.1.fault_eq_none taken.length t (by simp)
  have hmore (hne : taken.length ≠ 0) : 0 < more.length :=
    List.length_pos_iff.mpr (mt hlist.1.closing_iff.mpr (hfront.2 hne).2)
  rw [expectedAt_congr inside.length (fun hne => ?_) fun hne => (hfront.2 hne).1,
    hfault] at hnone
  · cases hnone
  · have := hmore hne
    simp only [List.length_append, List.length_cons]
    omega

theorem breaksList_of_even (hinside : ∀ t ∈ inside, isInsideList t)
    (h : IsList (inside ++ [closing])) (heven : (inside ++ [closing]).length % 2 = 0) :
    BreaksList .strict (inside ++ [closing]) closing.text := by
  have hnone := listFault?_none_iff_forall.mp h.fault_eq_none
  refine ⟨inside, closing, [], rfl, rfl, hinside,
    exists_list_of_taken .strict inside.length hinside le_rfl fun i t ht => ?_,
    fun more hlist => ?_⟩
  · have hi := (List.getElem?_eq_some_iff.mp ht).1
    have := hnone i t (by rw [List.getElem?_append_left hi, ht])
    simpa using this
  · obtain rfl := hlist.1.closing_iff.mp (h.closing_iff.mpr rfl)
    have hodd := hlist.2 rfl
    omega

end

theorem list_unclosed {mode : Mode} {c stop : Cursor} {inside : List Token}
    (hpasses : c.Passes inside stop) (hinside : ∀ t ∈ inside, isInsideList t)
    (heof : stop.current.isEof) : list mode c = do
      missing mode .listClosing
      return (none, stop) := by
  have hstop : isInsideList stop.current = false := by simp [isInsideList, heof]
  obtain ⟨htaken, hskip⟩ := takeWhile_of_passes hpasses hinside hstop
  unfold list
  dsimp only
  rw [htaken, hskip, if_pos heof]

theorem list_closed {mode : Mode} {c stop : Cursor} {inside : List Token}
    (hpasses : c.Passes inside stop) (hinside : ∀ t ∈ inside, isInsideList t)
    (heof : stop.current.isEof = false) (hstop : isInsideList stop.current = false) :
    list mode c = (listFault? (inside ++ [stop.current])).elim
      (if mode = .strict ∧ (inside ++ [stop.current]).length % 2 = 0 then
        unexpected .literal stop.current
      else return (some (inside ++ [stop.current]), stop.advance)) Logged.fail := by
  obtain ⟨htaken, hskip⟩ := takeWhile_of_passes hpasses hinside hstop
  unfold list
  dsimp only
  rw [htaken, hskip, if_neg (by simp [heof])]
  cases listFault? (inside ++ [stop.current]) <;> rfl

theorem list_fault {mode : Mode} {c stop : Cursor} {inside : List Token}
    (hpasses : c.Passes inside stop) (hinside : ∀ t ∈ inside, isInsideList t)
    (hclosing : stop.current.text = "]") (heof : stop.current.isEof = false)
    (hlist : ¬ IsListIn mode (inside ++ [stop.current])) :
    ∃ expected found, (list mode c).result = .error (.unexpectedToken expected found) ∧
      BreaksList mode (inside ++ [stop.current]) found := by
  have hstop : isInsideList stop.current = false := by simp [isInsideList, hclosing]
  rw [list_closed hpasses hinside heof hstop]
  cases hfault : listFault? (inside ++ [stop.current]) with
  | some fault =>
    obtain ⟨taken, t, rest, expected, -, rfl, -⟩ := exists_of_listFault?_eq_some hfault
    exact ⟨_, _, rfl, breaksList_of_fault hinside hclosing hfault⟩
  | none =>
    have hclosed := (listFault?_eq_none_iff hinside hclosing heof).mp hfault
    have heven : mode = .strict ∧ (inside ++ [stop.current]).length % 2 = 0 := by
      obtain ⟨hmode, hodd⟩ := Classical.not_imp.mp fun hodd => hlist ⟨hclosed, hodd⟩
      exact ⟨hmode, by omega⟩
    rw [Option.elim_none, if_pos heven]
    obtain ⟨rfl, heven⟩ := heven
    exact ⟨_, _, rfl, breaksList_of_even hinside hclosed heven⟩

/-- A list fails where the input ends before its closing bracket, or at a token behind which no
list of its mode can be completed any more. -/
theorem list_error {mode : Mode} {c : Cursor} {e : ParseError}
    (h : (list mode c).result = .error e) :
    e = .unexpectedEnd .listClosing ∨ ∃ expected found ts rest,
      e = .unexpectedToken expected found ∧ c.rest = ts ++ rest ∧ BreaksList mode ts found := by
  obtain ⟨hpasses, hstop⟩ := inside_spec c
  have hinside : ∀ t ∈ c.rest.takeWhile isInsideList, isInsideList t :=
    List.all_eq_true.mp List.all_takeWhile
  generalize c.rest.takeWhile isInsideList = inside at *
  generalize c.skip inside.length = stop at *
  by_cases heof : stop.current.isEof
  · rw [list_unclosed hpasses hinside heof, Logged.result_bind] at h
    cases mode with
    | lenient => cases h
    | strict =>
      cases h
      exact .inl rfl
  · have heof : stop.current.isEof = false := by simpa using heof
    have hclosing := text_of_not_inside hstop heof
    have hall := hpasses.concat heof
    have hlist : ¬ IsListIn mode (inside ++ [stop.current]) := by
      intro hlist
      cases (list_some_iff.mpr ⟨hall, hlist⟩).symm.trans h
    obtain ⟨expected, found, herror, hbreaks⟩ := list_fault hpasses hinside hclosing heof hlist
    cases herror.symm.trans h
    exact .inr ⟨expected, found, _, _, rfl, hall.1, hbreaks⟩

end Parse

end FilterQuery
