import Mathlib
import FilterQuery.Expression.Parse.Filter
/-!
# What each production of a filter reads

A production succeeds exactly when the tokens ahead begin with those of its result. A lenient
production may also stop at the end of the input with parts left out; a list that is never
closed is dropped with all of its tokens.
-/
namespace FilterQuery

namespace Cursor

/-- The tokens between `c` and `d`, when `d` lies ahead of `c`. -/
def Passes (c : Cursor) (taken : List Token) (d : Cursor) : Prop :=
  c.rest = taken ++ d.rest ∧ d.position = c.position + taken.length

theorem current_of_rest {c : Cursor} {t : Token} {ts : List Token} (h : c.rest = t :: ts) :
    c.current = t := by
  rw [current, h]
  rfl

@[simp] theorem passes_nil {c d : Cursor} : c.Passes [] d ↔ d = c := by
  constructor
  · rintro ⟨hr, hp⟩
    cases c
    cases d
    simp_all
  · rintro rfl
    simp [Passes]

theorem passes_append {c e : Cursor} {xs ys : List Token} :
    c.Passes (xs ++ ys) e ↔ ∃ d, c.Passes xs d ∧ d.Passes ys e := by
  constructor
  · rintro ⟨hr, hp⟩
    refine ⟨⟨c.position + xs.length, ys ++ e.rest⟩, ⟨by simpa using hr, rfl⟩, rfl, ?_⟩
    simp only [List.length_append] at hp
    simp only
    omega
  · rintro ⟨d, ⟨hr, hp⟩, hr', hp'⟩
    refine ⟨by rw [hr, hr', List.append_assoc], ?_⟩
    simp only [List.length_append]
    omega

theorem passes_singleton {c d : Cursor} {t : Token} (ht : t.isEof = false) :
    c.Passes [t] d ↔ c.current = t ∧ d = c.advance := by
  constructor
  · rintro ⟨hr, hp⟩
    refine ⟨by simp [current, hr], ?_⟩
    cases d
    simp_all [advance, skip]
  · rintro ⟨rfl, rfl⟩
    have hr := rest_of_current_ne_eof ht
    refine ⟨?_, rfl⟩
    rw [hr]
    simp [advance, skip, current]

theorem passes_cons {c e : Cursor} {t : Token} {ts : List Token} (ht : t.isEof = false) :
    c.Passes (t :: ts) e ↔ c.current = t ∧ c.advance.Passes ts e := by
  rw [← List.singleton_append, passes_append]
  constructor
  · rintro ⟨d, hd, hp⟩
    obtain ⟨hc, rfl⟩ := (passes_singleton ht).mp hd
    exact ⟨hc, hp⟩
  · rintro ⟨hc, hp⟩
    exact ⟨_, (passes_singleton ht).mpr ⟨hc, rfl⟩, hp⟩

theorem Passes.current_eq {c d : Cursor} {t : Token} {ts : List Token} (h : c.Passes (t :: ts) d) :
    c.current = t := by
  simp [current, h.1]

end Cursor

/-- The literals and commas inside a list: literals at even places and commas at odd ones. -/
inductive Alternates : List Token → Prop
  | nil : Alternates []
  | literal {t : Token} : t.kind = .literal → Alternates [t]
  | comma {t s : Token} {ts : List Token} :
    t.kind = .literal → s.text = "," → Alternates ts → Alternates (t :: s :: ts)

/-- A bracketed list, in which the last literal may be missing. -/
def IsList (ts : List Token) : Prop :=
  ∃ opening items closing, ts = opening :: items ++ [closing] ∧ opening.text = "[" ∧
    Alternates items ∧ closing.text = "]" ∧ closing.isEof = false ∧
    ∀ t ∈ opening :: items, Parse.isInsideList t

theorem IsList.kind_ne_eof {ts : List Token} (h : IsList ts) : ∀ t ∈ ts, t.kind ≠ .eof := by
  obtain ⟨opening, items, closing, rfl, -, -, -, hc, hi⟩ := h
  intro t ht
  rcases List.mem_append.mp ht with ht | ht
  · have ht := hi t ht
    simp_all [Parse.isInsideList, Token.isEof]
  · obtain rfl := List.mem_singleton.mp ht
    simpa [Token.isEof] using hc

namespace Comparison

/-- No part is missing. -/
def Whole : Comparison → Prop
  | .scalar comparator operand => comparator.isSome ∧ operand.isSome
  | .membership list => list.isSome

/-- No part is missing, and a list does not end with a comma or without any literal. -/
def Full : Comparison → Prop
  | .scalar comparator operand => comparator.isSome ∧ operand.isSome
  | .membership list => ∃ ts, list = some ts ∧ ts.length % 2 = 1

/-- What the parts look like when the tokens in `dropped` were read and left out. -/
def Shaped : Comparison → List Token → Prop
  | .scalar comparator operand, dropped => (comparator = none → operand = none) ∧ dropped = []
  | .membership (some ts), dropped => IsList ts ∧ dropped = []
  | .membership none, dropped => ∀ t ∈ dropped, Parse.isInsideList t

theorem Full.whole {x : Comparison} (h : x.Full) : x.Whole := by
  cases x with
  | scalar op operand => exact h
  | membership list =>
    obtain ⟨ts, rfl, _⟩ := h
    rfl

theorem Shaped.dropped_eq_nil {x : Comparison} {dropped : List Token} (h : x.Shaped dropped)
    (hw : x.Whole) : dropped = [] := by
  cases x with
  | scalar op operand => exact h.2
  | membership list =>
    cases list with
    | none => cases hw
    | some ts => exact h.2

theorem Shaped.nil {x : Comparison} {dropped : List Token} (h : x.Shaped dropped) :
    x.Shaped [] := by
  cases x with
  | scalar op operand => exact ⟨h.1, rfl⟩
  | membership list =>
    cases list with
    | none =>
      intro t ht
      cases ht
    | some ts => exact ⟨h.1, rfl⟩

end Comparison

namespace Filter

def Whole (f : Filter) : Prop := f.key.isSome ∧ f.comparison.Whole

def Full (f : Filter) : Prop := f.key.isSome ∧ f.comparison.Full

/-- What the parts look like when the tokens in `dropped` were read and left out. -/
def Shaped (f : Filter) (dropped : List Token) : Prop :=
  (f.key = none → f.comparison = .scalar none none) ∧ f.comparison.Shaped dropped

theorem Full.whole {f : Filter} (h : f.Full) : f.Whole := ⟨h.1, h.2.whole⟩

theorem Shaped.dropped_eq_nil {f : Filter} {dropped : List Token} (h : f.Shaped dropped)
    (hw : f.Whole) : dropped = [] :=
  h.2.dropped_eq_nil hw.2

theorem Shaped.nil {f : Filter} {dropped : List Token} (h : f.Shaped dropped) : f.Shaped [] :=
  ⟨h.1, h.2.nil⟩

end Filter

namespace Parse

theorem missing_ok_iff {mode : Mode} {expected : Construct} {u : Unit} :
    (missing mode expected).result = .ok u ↔ mode = .lenient := by
  cases mode <;> simp [missing]

/-- Reads one token that stands for a value. Keys, operands and comparators are read this way. -/
def single {α : Type} (mode : Mode) (expected : Construct) (read : Token → Option α) (c : Cursor) :
    Parsed (Option α × Cursor) :=
  if c.current.isEof then do
    missing mode expected
    return (none, c)
  else match read c.current with
    | some a => return (some a, c.advance)
    | none => unexpected expected c.current

theorem single_ok_iff {α : Type} {mode : Mode} {expected : Construct} {read : Token → Option α}
    {token : α → Token} {c d : Cursor} {x : Option α}
    (hread : ∀ t a, read t = some a ↔ t = token a) (heof : ∀ a, (token a).isEof = false) :
    (single mode expected read c).result = .ok (x, d) ↔
      c.Passes (x.map token).toList d ∧ (x = none → d.current.isEof) ∧
        (mode = .strict → x.isSome) := by
  unfold single
  by_cases hc : c.current.isEof
  · rw [if_pos hc, Logged.result_bind_eq_ok]
    constructor
    · rintro ⟨u, hu, h⟩
      cases h
      rw [missing_ok_iff] at hu
      simp [hu, hc]
    · rintro ⟨hp, _, hm⟩
      cases x with
      | none =>
        obtain rfl := Cursor.passes_nil.mp hp
        refine ⟨(), missing_ok_iff.mpr ?_, rfl⟩
        cases mode with
        | lenient => rfl
        | strict => cases hm rfl
      | some a =>
        have he := heof a
        rw [← hp.current_eq, hc] at he
        cases he
  · rw [if_neg hc]
    cases x with
    | none =>
      constructor
      · intro h
        split at h <;> cases h
      · rintro ⟨hp, he, _⟩
        obtain rfl := Cursor.passes_nil.mp hp
        exact absurd (he rfl) hc
    | some a =>
      change _ ↔ c.Passes [token a] d ∧ _
      rw [Cursor.passes_singleton (heof a), ← hread]
      constructor
      · intro h
        split at h
        · rename_i ha
          cases h
          simp [ha]
        · cases h
      · rintro ⟨⟨ha, rfl⟩, _⟩
        rw [ha]
        rfl

theorem terminal_eq_single (mode : Mode) (kind : TokenKind) (expected : Construct) (c : Cursor) :
    terminal mode kind expected c =
      single mode expected (fun t => if t.kind = kind then some t.text else none) c := by
  unfold terminal single
  by_cases hc : c.current.kind = kind <;> simp [hc]

theorem comparator_eq_single (mode : Mode) (c : Cursor) :
    comparator mode c = single mode .comparisonOperator Token.comparator? c := by
  unfold comparator single
  split
  · rfl
  · cases c.current.comparator? <;> rfl

theorem terminal_ok_iff {mode : Mode} {kind : TokenKind} {expected : Construct} {c d : Cursor}
    {x : Option String} (hk : kind ≠ .eof) :
    (terminal mode kind expected c).result = .ok (x, d) ↔
      c.Passes (x.map (Token.mk kind)).toList d ∧ (x = none → d.current.isEof) ∧
        (mode = .strict → x.isSome) := by
  rw [terminal_eq_single]
  apply single_ok_iff
  · intro t text
    cases t
    simp
  · intro text
    simp [Token.isEof, hk]

theorem comparator_ok_iff {mode : Mode} {c d : Cursor} {x : Option Comparator} :
    (comparator mode c).result = .ok (x, d) ↔
      c.Passes (x.map Comparator.token).toList d ∧ (x = none → d.current.isEof) ∧
        (mode = .strict → x.isSome) := by
  rw [comparator_eq_single]
  apply single_ok_iff
  · intro t op
    cases t
    simp [Token.comparator?, Comparator.ofText?_eq_some_iff, Comparator.token, Token.comparison]
  · intro op
    rfl

/-- The first token that is not what its index asks for, when the first index is `i`. -/
private def faultFrom (last i : Nat) (ts : List Token) : Option ParseError :=
  (ts.zipIdx i).findSome? fun (t, index) =>
    (expectedAt last index t).map fun expected => .unexpectedToken expected t.text

private theorem faultFrom_cons_eq_none_iff {last i : Nat} {t : Token} {ts : List Token} :
    faultFrom last i (t :: ts) = none ↔
      expectedAt last i t = none ∧ faultFrom last (i + 1) ts = none := by
  unfold faultFrom
  rw [List.zipIdx_cons, List.findSome?_cons]
  cases h : expectedAt last i t <;> simp [h]

section
variable {last i : Nat} {t closing : Token}

private theorem expectedAt_literal (hi : i % 2 = 1) (hl : i < last) :
    expectedAt last i t = none ↔ t.kind = .literal := by
  unfold expectedAt
  rw [if_neg (by omega), if_neg (by omega), if_pos hi]
  simp

private theorem expectedAt_comma (hi : i % 2 = 0) (hp : 0 < i) (hl : i < last) :
    expectedAt last i t = none ↔ t.text = "," := by
  unfold expectedAt
  rw [if_neg (by omega), if_neg (by omega), if_neg (by omega)]
  simp

private theorem faultFrom_closing (hp : 0 < last) (hc : closing.text = "]") :
    faultFrom last last [closing] = none := by
  rw [faultFrom_cons_eq_none_iff]
  refine ⟨?_, rfl⟩
  unfold expectedAt
  rw [if_neg (by omega)]
  simp [hc]

end

private theorem faultFrom_items {last : Nat} {closing : Token} (hc : closing.text = "]") :
    (items : List Token) → (i : Nat) → i % 2 = 1 → last = i + items.length →
      (faultFrom last i (items ++ [closing]) = none ↔ Alternates items)
  | [], i, hi, hl => by
    have hl : last = i := hl
    subst hl
    exact iff_of_true (faultFrom_closing (by omega) hc) .nil
  | [t], i, hi, hl => by
    have hl : last = i + 1 := hl
    subst hl
    change faultFrom _ i (t :: [closing]) = none ↔ _
    rw [faultFrom_cons_eq_none_iff, expectedAt_literal hi (by omega)]
    constructor
    · intro h
      exact .literal h.1
    · intro h
      cases h with
      | literal ht => exact ⟨ht, faultFrom_closing (by omega) hc⟩
  | t :: s :: ts, i, hi, hl => by
    have hl : last = i + (ts.length + 2) := hl
    have ih := faultFrom_items hc ts (i + 2) (by omega) (by omega : last = _)
    change faultFrom _ i (t :: s :: (ts ++ [closing])) = none ↔ _
    rw [faultFrom_cons_eq_none_iff, faultFrom_cons_eq_none_iff,
      expectedAt_literal hi (by omega), expectedAt_comma (by omega) (by omega) (by omega), ih]
    constructor
    · rintro ⟨ht, hs, h⟩
      exact .comma ht hs h
    · intro h
      cases h with
      | comma ht hs h => exact ⟨ht, hs, h⟩

theorem listFault?_eq_none_iff {inside : List Token} {closing : Token}
    (hi : ∀ t ∈ inside, isInsideList t) (hc : closing.text = "]") (he : closing.isEof = false) :
    listFault? (inside ++ [closing]) = none ↔ IsList (inside ++ [closing]) := by
  change faultFrom ((inside ++ [closing]).length - 1) 0 (inside ++ [closing]) = none ↔ _
  have hl : (inside ++ [closing]).length - 1 = 0 + inside.length := by simp
  rw [hl]
  cases inside with
  | nil =>
    apply iff_of_false
    · rw [List.nil_append, faultFrom_cons_eq_none_iff]
      simp [expectedAt, hc]
    · rintro ⟨opening, items, closing', h, _⟩
      simpa using congrArg List.length h
  | cons opening items =>
    have hfirst : expectedAt (0 + (items.length + 1)) 0 opening = none ↔ opening.text = "[" := by
      simp [expectedAt]
    rw [List.length_cons, List.cons_append, faultFrom_cons_eq_none_iff, hfirst,
      faultFrom_items hc items 1 rfl (by omega)]
    constructor
    · rintro ⟨ho, ha⟩
      exact ⟨opening, items, closing, rfl, ho, ha, hc, he, hi⟩
    · rintro ⟨opening', items', closing', h, ho, ha, _⟩
      have h : opening :: items ++ [closing] = opening' :: items' ++ [closing'] := h
      obtain ⟨hb, _⟩ := List.append_inj' h rfl
      cases hb
      exact ⟨ho, ha⟩

theorem inside_spec (c : Cursor) :
    let stop := c.skip (c.rest.takeWhile isInsideList).length
    c.Passes (c.rest.takeWhile isInsideList) stop ∧ isInsideList stop.current = false := by
  intro stop
  have hr : stop.rest = c.rest.dropWhile isInsideList := drop_length_takeWhile _ _
  refine ⟨⟨by rw [hr, List.takeWhile_append_dropWhile], rfl⟩, ?_⟩
  have hn := List.head?_dropWhile_not isInsideList c.rest
  rw [← hr] at hn
  rw [Cursor.current, List.headD_eq_head?_getD]
  cases h : stop.rest.head? with
  | none => rfl
  | some t => simpa [h] using hn

theorem takeWhile_of_passes {c e : Cursor} {inside : List Token} (h : c.Passes inside e)
    (hi : ∀ t ∈ inside, isInsideList t) (he : isInsideList e.current = false) :
    c.rest.takeWhile isInsideList = inside ∧ c.skip inside.length = e := by
  constructor
  · have hn : e.rest.takeWhile isInsideList = [] := by
      cases hr : e.rest with
      | nil => rfl
      | cons t ts =>
        have ht : isInsideList t = false := by simpa [Cursor.current, hr] using he
        simp [ht]
    rw [h.1, List.takeWhile_append_of_pos hi, hn, List.append_nil]
  · cases e
    simp_all [Cursor.skip, Cursor.Passes]

theorem text_of_not_inside {t : Token} (h : isInsideList t = false) (he : t.isEof = false) :
    t.text = "]" := by
  simpa [isInsideList, he] using h

/-- The outcome of a list hangs on the token at which the run inside it stops. -/
theorem list_stopping_iff {mode : Mode} {c d e : Cursor} {inside : List Token}
    {x : Option (List Token)} (h : c.Passes inside e) (hi : ∀ t ∈ inside, isInsideList t)
    (he : isInsideList e.current = false) :
    (list mode c).result = .ok (x, d) ↔
      if e.current.isEof then mode = .lenient ∧ x = none ∧ d = e
      else x = some (inside ++ [e.current]) ∧ d = e.advance ∧ IsList (inside ++ [e.current]) ∧
        (mode = .strict → (inside ++ [e.current]).length % 2 = 1) := by
  obtain ⟨ht, hs⟩ := takeWhile_of_passes h hi he
  unfold list
  dsimp only
  rw [ht, hs]
  by_cases heof : e.current.isEof
  · rw [if_pos heof, if_pos heof, Logged.result_bind_eq_ok]
    constructor
    · rintro ⟨u, hu, h⟩
      cases h
      exact ⟨missing_ok_iff.mp hu, rfl, rfl⟩
    · rintro ⟨hm, rfl, rfl⟩
      exact ⟨(), missing_ok_iff.mpr hm, rfl⟩
  · rw [if_neg heof, if_neg heof]
    have heof : e.current.isEof = false := by simpa using heof
    have hf := listFault?_eq_none_iff hi (text_of_not_inside he heof) heof
    cases hfault : listFault? (inside ++ [e.current]) with
    | some fault =>
      rw [hfault] at hf
      constructor
      · intro h
        cases h
      · rintro ⟨_, _, hl, _⟩
        cases hf.mpr hl
    | none =>
      have hl := hf.mp hfault
      dsimp only
      by_cases hm : mode = .strict ∧ (inside ++ [e.current]).length % 2 = 0
      · rw [if_pos hm]
        constructor
        · intro h
          cases h
        · rintro ⟨_, _, _, ho⟩
          have := ho hm.1
          omega
      · rw [if_neg hm]
        constructor
        · intro h
          cases h
          refine ⟨rfl, rfl, hl, fun hs => ?_⟩
          have : ¬ (inside ++ [e.current]).length % 2 = 0 := fun h => hm ⟨hs, h⟩
          omega
        · rintro ⟨rfl, rfl, _⟩
          rfl

theorem list_some_iff {mode : Mode} {c d : Cursor} {ts : List Token} :
    (list mode c).result = .ok (some ts, d) ↔
      c.Passes ts d ∧ IsList ts ∧ (mode = .strict → ts.length % 2 = 1) := by
  constructor
  · intro h
    obtain ⟨hp, he⟩ := inside_spec c
    have hi : ∀ t ∈ c.rest.takeWhile isInsideList, isInsideList t :=
      List.all_eq_true.mp List.all_takeWhile
    rw [list_stopping_iff hp hi he] at h
    split at h
    · cases h.2.1
    · rename_i heof
      obtain ⟨hts, rfl, hl, ho⟩ := h
      cases hts
      refine ⟨Cursor.passes_append.mpr ⟨_, hp, ?_⟩, hl, ho⟩
      exact (Cursor.passes_singleton (by simpa using heof)).mpr ⟨rfl, rfl⟩
  · rintro ⟨hp, hl, ho⟩
    obtain ⟨opening, items, closing, rfl, _, _, hc, heof, hi⟩ := id hl
    obtain ⟨e, hinside, hlast⟩ := Cursor.passes_append.mp hp
    obtain ⟨rfl, rfl⟩ := (Cursor.passes_singleton heof).mp hlast
    rw [list_stopping_iff hinside hi (by simp [isInsideList, hc]), if_neg (by simp [heof])]
    exact ⟨rfl, rfl, hl, ho⟩

theorem list_none_iff {mode : Mode} {c d : Cursor} :
    (list mode c).result = .ok (none, d) ↔ mode = .lenient ∧ d.current.isEof ∧
      ∃ dropped, c.Passes dropped d ∧ ∀ t ∈ dropped, isInsideList t := by
  constructor
  · intro h
    obtain ⟨hp, he⟩ := inside_spec c
    have hi : ∀ t ∈ c.rest.takeWhile isInsideList, isInsideList t :=
      List.all_eq_true.mp List.all_takeWhile
    rw [list_stopping_iff hp hi he] at h
    split at h
    · rename_i heof
      obtain ⟨hm, _, rfl⟩ := h
      exact ⟨hm, heof, _, hp, hi⟩
    · cases h.1
  · rintro ⟨hm, heof, dropped, hp, hi⟩
    rw [list_stopping_iff hp hi (by simp [isInsideList, heof]), if_pos heof]
    exact ⟨hm, rfl, rfl⟩

theorem comparison_membership_iff {mode : Mode} {c d : Cursor} {list : Option (List Token)} :
    (comparison mode c).result = .ok (.membership list, d) ↔
      c.current = Token.inOperator ∧ (Parse.list mode c.advance).result = .ok (list, d) := by
  unfold comparison
  split
  · rename_i hc
    rw [Logged.result_bind_eq_ok]
    constructor
    · rintro ⟨⟨ts, e⟩, hl, h⟩
      cases h
      exact ⟨hc, hl⟩
    · rintro ⟨_, hl⟩
      exact ⟨(list, d), hl, rfl⟩
  · rename_i hc
    apply iff_of_false
    · intro h
      obtain ⟨_, _, h⟩ := Logged.result_bind_eq_ok.mp h
      obtain ⟨_, _, h⟩ := Logged.result_bind_eq_ok.mp h
      cases h
    · exact fun h => hc h.1

theorem comparison_scalar_iff {mode : Mode} {c d : Cursor} {op : Option Comparator}
    {operand : Option String} :
    (comparison mode c).result = .ok (.scalar op operand, d) ↔ c.current ≠ Token.inOperator ∧
      ∃ e, (comparator mode c).result = .ok (op, e) ∧
        (terminal mode .literal .literal e).result = .ok (operand, d) := by
  unfold comparison
  split
  · rename_i hc
    apply iff_of_false
    · intro h
      obtain ⟨_, _, h⟩ := Logged.result_bind_eq_ok.mp h
      cases h
    · exact fun h => h.1 hc
  · rename_i hc
    rw [Logged.result_bind_eq_ok]
    constructor
    · rintro ⟨⟨op, e⟩, ho, h⟩
      obtain ⟨⟨x, e'⟩, hx, h⟩ := Logged.result_bind_eq_ok.mp h
      cases h
      exact ⟨hc, e, ho, hx⟩
    · rintro ⟨_, e, ho, hx⟩
      exact ⟨(op, e), ho, Logged.result_bind_eq_ok.mpr ⟨(operand, d), hx, rfl⟩⟩

private theorem passes_membership {c d : Cursor} {list : Option (List Token)}
    {dropped : List Token} :
    c.Passes ((Comparison.membership list).tokens ++ dropped) d ↔
      c.current = Token.inOperator ∧ c.advance.Passes (list.getD [] ++ dropped) d :=
  Cursor.passes_cons rfl

private theorem comparison_membership_ok_iff {mode : Mode} {c d : Cursor}
    {list : Option (List Token)} :
    (comparison mode c).result = .ok (.membership list, d) ↔
      ∃ dropped, c.Passes ((Comparison.membership list).tokens ++ dropped) d ∧
        (Comparison.membership list).Shaped dropped ∧
        ((Comparison.membership list).Whole ∨ d.current.isEof) ∧
        (mode = .strict → (Comparison.membership list).Full) := by
  rw [comparison_membership_iff]
  simp only [passes_membership]
  cases list with
  | none =>
    rw [list_none_iff]
    constructor
    · rintro ⟨hc, hm, heof, dropped, hp, hi⟩
      exact ⟨dropped, ⟨hc, hp⟩, hi, .inr heof, fun hs => by simp [hm] at hs⟩
    · rintro ⟨dropped, ⟨hc, hp⟩, hi, hw, hs⟩
      refine ⟨hc, ?_, hw.resolve_left (by simp [Comparison.Whole]), dropped, hp, hi⟩
      cases mode with
      | lenient => rfl
      | strict => exact absurd (hs rfl) (by simp [Comparison.Full])
  | some ts =>
    rw [list_some_iff]
    constructor
    · rintro ⟨hc, hp, hl, ho⟩
      exact ⟨[], ⟨hc, by simpa using hp⟩, ⟨hl, rfl⟩, .inl rfl, fun hs => ⟨ts, rfl, ho hs⟩⟩
    · rintro ⟨dropped, ⟨hc, hp⟩, ⟨hl, rfl⟩, _, hs⟩
      refine ⟨hc, by simpa using hp, hl, fun hm => ?_⟩
      obtain ⟨_, hts, ho⟩ := hs hm
      cases hts
      exact ho

private theorem comparison_scalar_ok_iff {mode : Mode} {c d : Cursor} {op : Option Comparator}
    {operand : Option String} :
    (comparison mode c).result = .ok (.scalar op operand, d) ↔
      ∃ dropped, c.Passes ((Comparison.scalar op operand).tokens ++ dropped) d ∧
        (Comparison.scalar op operand).Shaped dropped ∧
        ((Comparison.scalar op operand).Whole ∨ d.current.isEof) ∧
        (mode = .strict → (Comparison.scalar op operand).Full) := by
  rw [comparison_scalar_iff]
  simp only [comparator_ok_iff, terminal_ok_iff (show TokenKind.literal ≠ .eof by decide)]
  constructor
  · rintro ⟨hc, e, ⟨hp, heof, hs⟩, hp', heof', hs'⟩
    -- An operand that was read is no end of the input, so the operator before it was read too.
    have hop (text : String) (ho : operand = some text) : op ≠ none := by
      intro hn
      subst ho
      have he := heof hn
      rw [hp'.current_eq] at he
      cases he
    refine ⟨[], ?_, ⟨?_, rfl⟩, ?_, fun hm => ⟨hs hm, hs' hm⟩⟩
    · rw [List.append_nil]
      exact Cursor.passes_append.mpr ⟨e, hp, hp'⟩
    · intro ho
      cases operand with
      | none => rfl
      | some text => exact absurd ho (hop text rfl)
    · cases operand with
      | none => exact .inr (heof' rfl)
      | some text => exact .inl ⟨Option.isSome_iff_ne_none.mpr (hop text rfl), rfl⟩
  · rintro ⟨dropped, hp, ⟨ho, rfl⟩, hw, hs⟩
    rw [List.append_nil] at hp
    obtain ⟨e, hp, hp'⟩ := Cursor.passes_append.mp hp
    have heof (hn : operand = none) : d.current.isEof :=
      hw.resolve_left (by simp [Comparison.Whole, hn])
    cases op with
    | none =>
      obtain rfl := ho rfl
      obtain rfl := Cursor.passes_nil.mp hp
      obtain rfl := Cursor.passes_nil.mp hp'
      refine ⟨?_, d, ⟨hp, fun _ => heof rfl, fun hm => (hs hm).1⟩, hp', heof, fun hm => (hs hm).2⟩
      intro hc
      have he := heof rfl
      rw [hc] at he
      cases he
    | some op =>
      refine ⟨?_, e, ⟨hp, by simp, by simp⟩, hp', heof, fun hm => (hs hm).2⟩
      rw [hp.current_eq]
      cases op <;> decide

theorem comparison_ok_iff {mode : Mode} {c d : Cursor} {x : Comparison} :
    (comparison mode c).result = .ok (x, d) ↔ ∃ dropped, c.Passes (x.tokens ++ dropped) d ∧
      x.Shaped dropped ∧ (x.Whole ∨ d.current.isEof) ∧ (mode = .strict → x.Full) := by
  cases x with
  | scalar op operand => exact comparison_scalar_ok_iff
  | membership list => exact comparison_membership_ok_iff

private theorem comparison_at_end {c d : Cursor} {x : Comparison} {dropped : List Token}
    (hc : c.current.isEof) (hp : c.Passes (x.tokens ++ dropped) d) (hs : x.Shaped dropped) :
    x = .scalar none none := by
  cases x with
  | membership list =>
    obtain ⟨hin, _⟩ := passes_membership.mp hp
    rw [hin] at hc
    cases hc
  | scalar op operand =>
    cases op with
    | none => rw [hs.1 rfl]
    | some op =>
      rw [hp.current_eq] at hc
      cases hc

theorem filter_ok_iff {mode : Mode} {c d : Cursor} {f : Filter} :
    (filter mode c).result = .ok (f, d) ↔ ∃ dropped, c.Passes (f.tokens ++ dropped) d ∧
      f.Shaped dropped ∧ (f.Whole ∨ d.current.isEof) ∧ (mode = .strict → f.Full) := by
  have hbind : (filter mode c).result = .ok (f, d) ↔
      ∃ e, (terminal mode .identifier .identifier c).result = .ok (f.key, e) ∧
        (comparison mode e).result = .ok (f.comparison, d) := by
    unfold filter
    rw [Logged.result_bind_eq_ok]
    constructor
    · rintro ⟨⟨key, e⟩, hk, h⟩
      obtain ⟨⟨x, e'⟩, hx, h⟩ := Logged.result_bind_eq_ok.mp h
      cases h
      exact ⟨e, hk, hx⟩
    · rintro ⟨e, hk, hx⟩
      exact ⟨(f.key, e), hk, Logged.result_bind_eq_ok.mpr ⟨(f.comparison, d), hx, rfl⟩⟩
  rw [hbind]
  simp only [comparison_ok_iff, terminal_ok_iff (show TokenKind.identifier ≠ .eof by decide)]
  constructor
  · rintro ⟨e, ⟨hk, heof, hks⟩, dropped, hp, hx, hw, hs⟩
    refine ⟨dropped, ?_, ⟨fun hn => comparison_at_end (heof hn) hp hx, hx⟩, ?_,
      fun hm => ⟨hks hm, hs hm⟩⟩
    · rw [Filter.tokens, List.append_assoc]
      exact Cursor.passes_append.mpr ⟨e, hk, hp⟩
    · cases hkey : f.key with
      | some key => exact hw.imp_left fun hw => ⟨by simp [hkey], hw⟩
      | none =>
        have hx := comparison_at_end (heof hkey) hp hx
        exact .inr (hw.resolve_left (by simp [hx, Comparison.Whole]))
  · rintro ⟨dropped, hp, ⟨hn, hx⟩, hw, hs⟩
    rw [Filter.tokens, List.append_assoc] at hp
    obtain ⟨e, hk, hp⟩ := Cursor.passes_append.mp hp
    refine ⟨e, ⟨hk, ?_, fun hm => (hs hm).1⟩, dropped, hp, hx, hw.imp_left And.right,
      fun hm => (hs hm).2⟩
    intro hkey
    rw [hn hkey] at hp hx
    obtain ⟨_, rfl⟩ := hx
    obtain rfl := Cursor.passes_nil.mp hp
    exact hw.resolve_left (by simp [Filter.Whole, hkey])

end Parse

end FilterQuery
