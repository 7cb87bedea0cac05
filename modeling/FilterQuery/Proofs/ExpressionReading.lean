import FilterQuery.Expression.Parse
import FilterQuery.Proofs.FilterReading
/-!
# What a parser reads

Segments, chains and expressions succeed exactly when the tokens ahead begin with those of their
result and the token behind them could not have been taken as well. The strict parser accepts
what spells a proper expression and nothing else.
-/
namespace FilterQuery

namespace Balance

/-- The balance once the parentheses in `ps` have been met. -/
def after (b : Balance) (ps : List Paren) : Balance := ps.foldl Balance.record b

theorem after_append (b : Balance) (ps qs : List Paren) :
    b.after (ps ++ qs) = (b.after ps).after qs :=
  List.foldl_append

theorem count_after (b : Balance) (ps : List Paren) : (b.after ps).count = b.count + ps.length := by
  induction ps generalizing b with
  | nil => rfl
  | cons p ps ih =>
    change ((b.record p).after ps).count = _
    rw [ih, record, List.length_cons]
    simp only
    omega

theorem count_empty_after (ps : List Paren) : (Balance.empty.after ps).count = ps.length := by
  rw [count_after]
  exact Nat.zero_add _

theorem check_ok_iff {b : Balance} {u : Unit} : b.check = .ok u ↔ b.count % 2 = 0 := by
  unfold check
  split <;> simp_all

end Balance

/-- A parenthesis that may be left out. -/
def Paren.when (p : Paren) (present : Bool) : List Paren := if present then [p] else []

@[simp] theorem Paren.when_true (p : Paren) : p.when true = [p] := rfl

@[simp] theorem Paren.when_false (p : Paren) : p.when false = [] := rfl

theorem Paren.length_when (p : Paren) (present : Bool) : (p.when present).length = present.toNat := by
  cases present <;> rfl

theorem Paren.token_isEof (p : Paren) : p.token.isEof = false := by
  cases p <;> rfl

namespace Segment

/-- The parentheses of a segment in order. -/
def parenWord (s : Segment) : List Paren := Paren.opening.when s.opening ++ Paren.closing.when s.closing

theorem tokens_eq (s : Segment) :
    s.tokens = (Paren.opening.when s.opening).map Paren.token ++
      (s.filter.tokens ++ (Paren.closing.when s.closing).map Paren.token) := by
  obtain ⟨opening, filter, closing⟩ := s
  cases opening <;> cases closing <;> simp [tokens, openings, closings, Paren.token]

/-- What a segment looks like when `dropped` was read and left out and `next` stands behind it. -/
def Ends (s : Segment) (dropped : List Token) (next : Token) : Prop :=
  s.filter.Shaped dropped ∧ (s.filter.Whole ∨ s.closing = false ∧ next.isEof) ∧
    (s.closing = false → next ≠ Token.closingParen)

end Segment

namespace Parse

theorem paren_eq_iff {p : Paren} {b b' : Balance} {c d : Cursor} {x : Bool} :
    paren p b c = (x, b', d) ↔ c.Passes ((p.when x).map Paren.token) d ∧
      b' = b.after (p.when x) ∧ (x = false → c.current ≠ p.token) := by
  unfold paren
  split
  · rename_i hc
    cases x with
    | false => simp [hc]
    | true =>
      change _ ↔ c.Passes [p.token] d ∧ b' = b.record p ∧ _
      rw [Cursor.passes_singleton p.token_isEof]
      simp [hc, eq_comm, and_comm]
  · rename_i hc
    cases x with
    | false =>
      change _ ↔ c.Passes [] d ∧ b' = b ∧ _
      simp [hc, eq_comm, and_comm]
    | true =>
      change _ ↔ c.Passes [p.token] d ∧ _
      rw [Cursor.passes_singleton p.token_isEof]
      simp [hc]

private theorem filter_current {c d : Cursor} {f : Filter} {dropped : List Token}
    (hp : c.Passes (f.tokens ++ dropped) d) (hf : f.Shaped dropped)
    (hw : f.Whole ∨ d.current.isEof) : c.current.kind = .identifier ∨ c.current.kind = .eof := by
  obtain ⟨key, x⟩ := f
  cases key with
  | some key =>
    have hc : c.current = Token.identifier key := hp.current_eq
    rw [hc]
    exact .inl rfl
  | none =>
    obtain ⟨hn, hx⟩ := hf
    obtain rfl := hn rfl
    obtain ⟨_, rfl⟩ := hx
    obtain rfl := Cursor.passes_nil.mp hp
    have heof := hw.resolve_left (by simp [Filter.Whole])
    exact .inr (by simpa [Token.isEof] using heof)

private theorem segment_bind_iff {mode : Mode} {b b' : Balance} {c d : Cursor} {s : Segment} :
    (segment mode b c).result = .ok (s, b', d) ↔ ∃ b₁ c₁ c₂,
      paren .opening b c = (s.opening, b₁, c₁) ∧ (filter mode c₁).result = .ok (s.filter, c₂) ∧
        paren .closing b₁ c₂ = (s.closing, b', d) := by
  unfold segment
  rw [Logged.result_bind_eq_ok]
  constructor
  · rintro ⟨_, _, h⟩
    obtain ⟨⟨f, c₂⟩, hf, h⟩ := Logged.result_bind_eq_ok.mp h
    cases h
    exact ⟨_, _, c₂, rfl, hf, rfl⟩
  · rintro ⟨b₁, c₁, c₂, ho, hf, hc⟩
    refine ⟨(), rfl, ?_⟩
    rw [ho]
    refine Logged.result_bind_eq_ok.mpr ⟨(s.filter, c₂), hf, ?_⟩
    dsimp only
    rw [hc]
    rfl

private theorem filter_closing_iff {mode : Mode} {c d : Cursor} {f : Filter} {closing : Bool} :
    (∃ e, (filter mode c).result = .ok (f, e) ∧
        e.Passes ((Paren.closing.when closing).map Paren.token) d ∧
        (closing = false → e.current ≠ Token.closingParen)) ↔
      ∃ dropped, c.Passes (f.tokens ++ (Paren.closing.when closing).map Paren.token ++ dropped) d ∧
        f.Shaped dropped ∧ (f.Whole ∨ closing = false ∧ d.current.isEof) ∧
        (closing = false → d.current ≠ Token.closingParen) ∧ (mode = .strict → f.Full) := by
  cases closing with
  | false =>
    simp only [Paren.when_false, List.map_nil, Cursor.passes_nil, List.append_nil]
    constructor
    · rintro ⟨_, hf, rfl, hn⟩
      obtain ⟨dropped, hp, hs, hw, hm⟩ := filter_ok_iff.mp hf
      exact ⟨dropped, hp, hs, hw.imp_right fun h => ⟨trivial, h⟩, hn, hm⟩
    · rintro ⟨dropped, hp, hs, hw, hn, hm⟩
      exact ⟨d, filter_ok_iff.mpr ⟨dropped, hp, hs, hw.imp_right And.right, hm⟩, rfl, hn⟩
  | true =>
    constructor
    · rintro ⟨e, hf, hp', _⟩
      obtain ⟨dropped, hp, hs, hw, hm⟩ := filter_ok_iff.mp hf
      -- The closing parenthesis is no end of the input, so nothing was dropped before it.
      have hw := hw.resolve_right (by rw [hp'.current_eq]; decide)
      obtain rfl := hs.dropped_eq_nil hw
      rw [List.append_nil] at hp
      refine ⟨[], ?_, hs, .inl hw, by simp, hm⟩
      rw [List.append_nil]
      exact Cursor.passes_append.mpr ⟨e, hp, hp'⟩
    · rintro ⟨dropped, hp, hs, hw, _, hm⟩
      have hw := hw.resolve_right (by simp)
      obtain rfl := hs.dropped_eq_nil hw
      rw [List.append_nil] at hp
      obtain ⟨e, hp, hp'⟩ := Cursor.passes_append.mp hp
      refine ⟨e, filter_ok_iff.mpr ⟨[], ?_, hs, .inl hw, hm⟩, hp', by simp⟩
      rwa [List.append_nil]

theorem segment_ok_iff {mode : Mode} {b b' : Balance} {c d : Cursor} {s : Segment} :
    (segment mode b c).result = .ok (s, b', d) ↔ ∃ dropped, c.Passes (s.tokens ++ dropped) d ∧
      s.Ends dropped d.current ∧ b' = b.after s.parenWord ∧ (mode = .strict → s.filter.Full) := by
  rw [segment_bind_iff]
  simp only [paren_eq_iff]
  constructor
  · rintro ⟨b₁, c₁, c₂, ⟨ho, rfl, _⟩, hf, hc, rfl, hn⟩
    obtain ⟨dropped, hp, hs, hw, hn, hm⟩ := filter_closing_iff.mp ⟨c₂, hf, hc, hn⟩
    refine ⟨dropped, ?_, ⟨hs, hw, hn⟩, (Balance.after_append _ _ _).symm, hm⟩
    rw [Segment.tokens_eq, List.append_assoc]
    exact Cursor.passes_append.mpr ⟨c₁, ho, hp⟩
  · rintro ⟨dropped, hp, ⟨hs, hw, hn⟩, rfl, hm⟩
    rw [Segment.tokens_eq, List.append_assoc] at hp
    obtain ⟨c₁, ho, hp⟩ := Cursor.passes_append.mp hp
    obtain ⟨c₂, hf, hc, hn⟩ := filter_closing_iff.mpr ⟨dropped, hp, hs, hw, hn, hm⟩
    refine ⟨_, c₁, c₂, ⟨ho, rfl, ?_⟩, hf, hc, Balance.after_append _ _ _, hn⟩
    intro hx
    rw [hx] at ho
    obtain rfl := Cursor.passes_nil.mp ho
    obtain ⟨dropped', hp', hs', hw', _⟩ := filter_ok_iff.mp hf
    intro h
    rcases filter_current hp' hs' hw' with hk | hk
    · rw [h] at hk
      cases hk
    · rw [h] at hk
      cases hk

end Parse

namespace Chain

/-- The parentheses of a chain in order. -/
def parenWord (c : Chain) : List Paren := c.segments.flatMap Segment.parenWord

def first (c : Chain) : Segment := (c.links.head?.map Prod.fst).getD c.last

theorem forall_segments {P : Segment → Prop} {c : Chain} :
    (∀ s ∈ c.segments, P s) ↔ (∀ l ∈ c.links, P l.1) ∧ P c.last := by
  rw [segments, List.forall_mem_append, List.forall_mem_map, List.forall_mem_singleton]

def Full (c : Chain) : Prop := ∀ s ∈ c.segments, s.filter.Full

/-- What a chain looks like when `dropped` was read and left out and `next` stands behind it. -/
def Ends (c : Chain) (dropped : List Token) (next : Token) : Prop :=
  (∀ l ∈ c.links, l.1.filter.Shaped [] ∧ l.1.filter.Whole) ∧ c.last.Ends dropped next ∧
    next.kind ≠ .logicalOperator

theorem parenWord_cons (s : Segment) (operator : String) (c : Chain) :
    (cons s operator c).parenWord = s.parenWord ++ c.parenWord := rfl

theorem length_parenWord (c : Chain) : c.parenWord.length = c.parens := by
  have hs (s : Segment) : s.parenWord.length = s.parens := by
    obtain ⟨opening, filter, closing⟩ := s
    cases opening <;> cases closing <;> rfl
  obtain ⟨links, last⟩ := c
  induction links with
  | nil => simp [parenWord, segments, parens, hs]
  | cons link links ih =>
    have hc : Chain.mk (link :: links) last = cons link.1 link.2 ⟨links, last⟩ := rfl
    rw [hc, parenWord_cons, List.length_append, ih, hs, parens_cons]

end Chain

namespace Parse

/-- How a chain lies between two cursors, and what its parentheses do to the balance. -/
private def ChainLies (mode : Mode) (b : Balance) (c : Cursor) (x : Chain) (b' : Balance)
    (d : Cursor) : Prop :=
  ∃ dropped, c.Passes (x.tokens ++ dropped) d ∧ x.Ends dropped d.current ∧
    b' = b.after x.parenWord ∧ (mode = .strict → x.Full)

section
variable {mode : Mode} {b b' : Balance} {c d : Cursor} {s : Segment} {operator : String} {x : Chain}

private theorem chainLies_last :
    ChainLies mode b c ⟨[], s⟩ b' d ↔
      (segment mode b c).result = .ok (s, b', d) ∧ d.current.kind ≠ .logicalOperator := by
  have hw : (Chain.mk [] s).parenWord = s.parenWord := by simp [Chain.parenWord, Chain.segments]
  have hf : (Chain.mk [] s).Full ↔ s.filter.Full := by simp [Chain.Full, Chain.segments]
  rw [segment_ok_iff]
  constructor
  · rintro ⟨dropped, hp, ⟨_, he, hd⟩, hb, hm⟩
    rw [hw] at hb
    exact ⟨⟨dropped, hp, he, hb, fun h => hf.mp (hm h)⟩, hd⟩
  · rintro ⟨⟨dropped, hp, he, hb, hm⟩, hd⟩
    rw [← hw] at hb
    exact ⟨dropped, hp, ⟨by simp, he, hd⟩, hb, fun h => hf.mpr (hm h)⟩

private theorem chainLies_cons :
    ChainLies mode b c (x.cons s operator) b' d ↔
      ∃ b₁ d₁, (segment mode b c).result = .ok (s, b₁, d₁) ∧ d₁.current = Token.logical operator ∧
        ChainLies mode b₁ d₁.advance x b' d := by
  have hf : (x.cons s operator).Full ↔ s.filter.Full ∧ x.Full := by
    simp [Chain.Full, Chain.segments, Chain.cons]
  have hl : (∀ l ∈ (x.cons s operator).links, l.1.filter.Shaped [] ∧ l.1.filter.Whole) ↔
      (s.filter.Shaped [] ∧ s.filter.Whole) ∧ ∀ l ∈ x.links, l.1.filter.Shaped [] ∧ l.1.filter.Whole := by
    simp [Chain.cons]
  constructor
  · rintro ⟨dropped, hp, ⟨hlinks, he⟩, rfl, hm⟩
    obtain ⟨⟨hs, hw⟩, hlinks⟩ := hl.mp hlinks
    rw [Chain.tokens_cons, List.append_assoc] at hp
    obtain ⟨d₁, hp, hp'⟩ := Cursor.passes_append.mp hp
    have hd : d₁.current = Token.logical operator := hp'.current_eq
    obtain ⟨_, hp'⟩ := (Cursor.passes_cons rfl).mp hp'
    refine ⟨_, d₁, segment_ok_iff.mpr ⟨[], by rwa [List.append_nil], ⟨hs, .inl hw, ?_⟩, rfl,
      fun h => (hf.mp (hm h)).1⟩, hd, dropped, hp', ⟨hlinks, he⟩, ?_, fun h => (hf.mp (hm h)).2⟩
    · intro _
      rw [hd]
      exact fun h => by cases h
    · rw [Chain.parenWord_cons, Balance.after_append]
  · rintro ⟨b₁, d₁, hsegment, hd, dropped, hp', ⟨hlinks, he⟩, rfl, hm⟩
    obtain ⟨dropped', hp, ⟨hs, hw, _⟩, rfl, hm'⟩ := segment_ok_iff.mp hsegment
    have hw := hw.resolve_right (by rw [hd]; exact fun h => by cases h.2)
    obtain rfl := hs.dropped_eq_nil hw
    rw [List.append_nil] at hp
    refine ⟨dropped, ?_, ⟨hl.mpr ⟨⟨hs, hw⟩, hlinks⟩, he⟩, ?_, fun h => hf.mpr ⟨hm' h, hm h⟩⟩
    · rw [Chain.tokens_cons, List.append_assoc]
      exact Cursor.passes_append.mpr ⟨d₁, hp, (Cursor.passes_cons rfl).mpr ⟨hd, hp'⟩⟩
    · rw [Chain.parenWord_cons, Balance.after_append]

/-- The first segment of a chain and the token behind it decide whether more of it follows. -/
private theorem chainLies_iff {b₁ : Balance} {d₁ : Cursor}
    (h : (segment mode b c).result = .ok (s, b₁, d₁)) :
    ChainLies mode b c x b' d ↔
      if d₁.current.kind = .logicalOperator then
        ∃ tail, x = tail.cons s d₁.current.text ∧ ChainLies mode b₁ d₁.advance tail b' d
      else x = ⟨[], s⟩ ∧ b' = b₁ ∧ d = d₁ := by
  obtain ⟨links, last⟩ := x
  cases links with
  | nil =>
    rw [chainLies_last]
    split
    · rename_i hk
      apply iff_of_false
      · rintro ⟨hs, hd⟩
        have hs := h.symm.trans hs
        cases hs
        exact hd hk
      · rintro ⟨tail, h, _⟩
        cases h
    · rename_i hk
      constructor
      · rintro ⟨hs, _⟩
        have hs := h.symm.trans hs
        cases hs
        exact ⟨rfl, rfl, rfl⟩
      · rintro ⟨hx, rfl, rfl⟩
        cases hx
        exact ⟨h, hk⟩
  | cons link links =>
    obtain ⟨s', operator⟩ := link
    change ChainLies mode b c (Chain.cons s' operator ⟨links, last⟩) b' d ↔ _
    rw [chainLies_cons]
    split
    · rename_i hk
      constructor
      · rintro ⟨b₂, d₂, hs, hd, hx⟩
        have hs := h.symm.trans hs
        cases hs
        rw [hd]
        exact ⟨_, rfl, hx⟩
      · rintro ⟨tail, ht, hx⟩
        cases ht
        exact ⟨b₁, d₁, h, by rw [Token.logical, ← hk], hx⟩
    · rename_i hk
      apply iff_of_false
      · rintro ⟨b₂, d₂, hs, hd, _⟩
        have hs := h.symm.trans hs
        cases hs
        exact hk (by rw [hd]; rfl)
      · rintro ⟨h, _⟩
        cases h

private theorem first_of_chainLies (h : ChainLies mode b c x b' d) :
    ∃ b₁ d₁, (segment mode b c).result = .ok (x.first, b₁, d₁) := by
  obtain ⟨links, last⟩ := x
  cases links with
  | nil => exact ⟨_, _, (chainLies_last.mp h).1⟩
  | cons link links =>
    have h : ChainLies mode b c (Chain.cons link.1 link.2 ⟨links, last⟩) b' d := h
    obtain ⟨b₁, d₁, hs, _⟩ := chainLies_cons.mp h
    exact ⟨b₁, d₁, hs⟩

end

theorem segments_ok_iff {mode : Mode} {b b' : Balance} {c d : Cursor} {x : Chain} :
    (segments mode b c).result = .ok (x, b', d) ↔ ∃ dropped, c.Passes (x.tokens ++ dropped) d ∧
      x.Ends dropped d.current ∧ b' = b.after x.parenWord ∧ (mode = .strict → x.Full) := by
  change _ ↔ ChainLies mode b c x b' d
  fun_induction segments mode b c generalizing x b' d with
  | case1 b c step e =>
    rename_i h
    apply iff_of_false
    · intro h
      cases h
    · intro hx
      obtain ⟨b₁, d₁, hs⟩ := first_of_chainLies hx
      have hs := h.symm.trans hs
      cases hs
  | case2 b c step s b₁ d₁ h hd =>
    rename_i tail ih
    rw [chainLies_iff h, if_pos hd]
    simp only [← ih]
    change tail.result.map _ = _ ↔ ∃ rest, _ ∧ tail.result = _
    cases tail.result with
    | error e =>
      apply iff_of_false
      · intro h
        cases h
      · rintro ⟨_, _, h⟩
        cases h
    | ok r =>
      obtain ⟨rest, b₂, d₂⟩ := r
      constructor
      · intro h
        cases h
        exact ⟨rest, rfl, rfl⟩
      · rintro ⟨rest', rfl, h⟩
        cases h
        rfl
  | case3 b c step s b₁ d₁ h =>
    rename_i hd
    rw [chainLies_iff h, if_neg hd]
    simp [eq_comm]

theorem chain_bind_iff {mode : Mode} {c d : Cursor} {x : Chain} :
    (chain mode c).result = .ok (x, d) ↔
      ∃ b, (segments mode .empty c).result = .ok (x, b, d) ∧ b.check = .ok () := by
  rw [chain_eq, Logged.result_bind_eq_ok]
  constructor
  · rintro ⟨⟨x, b, e⟩, hs, h⟩
    obtain ⟨u, hb, h⟩ := Logged.result_bind_eq_ok.mp h
    cases h
    exact ⟨b, hs, hb⟩
  · rintro ⟨b, hs, hb⟩
    exact ⟨(x, b, d), hs, Logged.result_bind_eq_ok.mpr ⟨(), hb, rfl⟩⟩

theorem chain_ok_iff {mode : Mode} {c d : Cursor} {x : Chain} :
    (chain mode c).result = .ok (x, d) ↔ ∃ dropped, c.Passes (x.tokens ++ dropped) d ∧
      x.Ends dropped d.current ∧ x.parens % 2 = 0 ∧ (mode = .strict → x.Full) := by
  have hcheck : (Balance.empty.after x.parenWord).check = .ok () ↔ x.parens % 2 = 0 := by
    rw [Balance.check_ok_iff, Balance.count_empty_after, Chain.length_parenWord]
  rw [chain_bind_iff]
  simp only [segments_ok_iff]
  constructor
  · rintro ⟨b, ⟨dropped, hp, he, rfl, hm⟩, hb⟩
    exact ⟨dropped, hp, he, hcheck.mp hb, hm⟩
  · rintro ⟨dropped, hp, he, hb, hm⟩
    exact ⟨_, ⟨dropped, hp, he, rfl, hm⟩, hcheck.mpr hb⟩

theorem nextIsOpeningParen_iff {c : Cursor} :
    c.nextIsOpeningParen ↔ c.advance.current = Token.openingParen := by
  obtain ⟨position, rest⟩ := c
  have heof : Token.eof ≠ Token.openingParen := by decide
  match rest with
  | [] => simp [Cursor.nextIsOpeningParen, Cursor.advance, Cursor.skip, Cursor.current, heof]
  | [t] => simp [Cursor.nextIsOpeningParen, Cursor.advance, Cursor.skip, Cursor.current, heof]
  | t :: t' :: ts =>
    simp [Cursor.nextIsOpeningParen, Cursor.advance, Cursor.skip, Cursor.current,
      Token.isOpeningParen]

private theorem current_of_wrappers {c d : Cursor} {n : Nat}
    (hp : c.Passes (List.replicate n Token.openingParen) d)
    (hd : d.current = Token.openingParen) : c.current = Token.openingParen := by
  cases n with
  | zero =>
    obtain rfl := Cursor.passes_nil.mp hp
    exact hd
  | succ n => exact hp.current_eq

theorem wrappers_eq_iff {b b' : Balance} {c d : Cursor} :
    wrappers b c = (b', d) ↔ ∃ n, c.Passes (List.replicate n Token.openingParen) d ∧
      b' = b.after (List.replicate n .opening) ∧ (0 < n → d.current = Token.openingParen) ∧
      ¬ (d.current = Token.openingParen ∧ d.nextIsOpeningParen) := by
  fun_induction wrappers b c with
  | case1 b c h ih =>
    have hnext := nextIsOpeningParen_iff.mp h.2
    rw [ih]
    constructor
    · rintro ⟨n, hp, rfl, hd, hn⟩
      refine ⟨n + 1, (Cursor.passes_cons rfl).mpr ⟨h.1, hp⟩, rfl, fun _ => ?_, hn⟩
      cases n with
      | zero =>
        obtain rfl := Cursor.passes_nil.mp hp
        exact hnext
      | succ n => exact hd (by omega)
    · rintro ⟨n, hp, rfl, hd, hn⟩
      cases n with
      | zero =>
        obtain rfl := Cursor.passes_nil.mp hp
        exact absurd h hn
      | succ n =>
        obtain ⟨_, hp⟩ := (Cursor.passes_cons rfl).mp hp
        exact ⟨n, hp, rfl, fun _ => hd (by omega), hn⟩
  | case2 b c h =>
    constructor
    · intro hw
      cases hw
      exact ⟨0, Cursor.passes_nil.mpr rfl, rfl, by omega, h⟩
    · rintro ⟨n, hp, rfl, hd, _⟩
      cases n with
      | zero =>
        obtain rfl := Cursor.passes_nil.mp hp
        rfl
      | succ n =>
        obtain ⟨hc, hp⟩ := (Cursor.passes_cons rfl).mp hp
        have hnext := current_of_wrappers hp (hd (by omega))
        exact absurd ⟨hc, nextIsOpeningParen_iff.mpr hnext⟩ h

end Parse

namespace Expression

/-- The parentheses of an expression in order. -/
def parenWord (e : Expression) : List Paren :=
  List.replicate e.wrappers .opening ++ e.chain.parenWord ++ Paren.closing.when e.closing

/-- The demands on the parentheses of an expression: further ones stand only where the first
segment opens and the last one closes, and each of the two groups is even. -/
def Paired (e : Expression) : Prop :=
  (0 < e.wrappers → e.chain.first.opening) ∧ (e.closing → e.chain.last.closing) ∧
    (e.wrappers + e.closing.toNat) % 2 = 0 ∧ e.chain.parens % 2 = 0

/-- What an expression looks like when `dropped` was read and left out and `next` stands
behind it. -/
def Ends (e : Expression) (dropped : List Token) (next : Token) : Prop :=
  (∀ l ∈ e.chain.links, l.1.filter.Shaped [] ∧ l.1.filter.Whole) ∧
    e.chain.last.filter.Shaped dropped ∧
    (e.chain.last.filter.Whole ∨ e.chain.last.closing = false ∧ next.isEof) ∧
    (e.closing = false → next ≠ Token.closingParen ∧ next.kind ≠ .logicalOperator)

end Expression

namespace Parse

theorem segment_current {mode : Mode} {b b' : Balance} {c d : Cursor} {s : Segment}
    (h : (segment mode b c).result = .ok (s, b', d)) :
    (c.current = Token.openingParen ↔ s.opening) ∧
      ¬ (c.current = Token.openingParen ∧ c.nextIsOpeningParen) := by
  obtain ⟨b₁, c₁, c₂, ho, hf, _⟩ := segment_bind_iff.mp h
  obtain ⟨hp, _, hn⟩ := paren_eq_iff.mp ho
  obtain ⟨dropped, hp', hs, hw, _⟩ := filter_ok_iff.mp hf
  have hc₁ : c₁.current ≠ Token.openingParen := by
    intro h
    have hk := filter_current hp' hs hw
    rw [h] at hk
    rcases hk with hk | hk <;> cases hk
  cases hx : s.opening with
  | false =>
    have hn : c.current ≠ Token.openingParen := hn hx
    simp [hn]
  | true =>
    rw [hx] at hp
    obtain ⟨hc, rfl⟩ := (Cursor.passes_singleton rfl).mp hp
    have hc : c.current = Token.openingParen := hc
    simp [hc, nextIsOpeningParen_iff, hc₁]

theorem segments_current {mode : Mode} {b b' : Balance} {c d : Cursor} {x : Chain}
    (h : (segments mode b c).result = .ok (x, b', d)) :
    (c.current = Token.openingParen ↔ x.first.opening) ∧
      ¬ (c.current = Token.openingParen ∧ c.nextIsOpeningParen) := by
  obtain ⟨b₁, d₁, hs⟩ := first_of_chainLies (segments_ok_iff.mp h)
  exact segment_current hs

private theorem chain_current {mode : Mode} {c d : Cursor} {x : Chain}
    (h : (chain mode c).result = .ok (x, d)) :
    (c.current = Token.openingParen ↔ x.first.opening) ∧
      ¬ (c.current = Token.openingParen ∧ c.nextIsOpeningParen) := by
  obtain ⟨b, hs, -⟩ := chain_bind_iff.mp h
  exact segments_current hs

private theorem chain_closing_iff {mode : Mode} {c d : Cursor} {x : Chain} {closing : Bool} :
    (∃ e, (chain mode c).result = .ok (x, e) ∧
        e.Passes ((Paren.closing.when closing).map Paren.token) d ∧
        (closing = false → e.current ≠ Token.closingParen)) ↔
      ∃ dropped, c.Passes (x.tokens ++ (Paren.closing.when closing).map Paren.token ++ dropped) d ∧
        ((∀ l ∈ x.links, l.1.filter.Shaped [] ∧ l.1.filter.Whole) ∧ x.last.filter.Shaped dropped ∧
          (x.last.filter.Whole ∨ x.last.closing = false ∧ d.current.isEof) ∧
          (closing = false →
            d.current ≠ Token.closingParen ∧ d.current.kind ≠ .logicalOperator)) ∧
        (closing → x.last.closing) ∧ x.parens % 2 = 0 ∧ (mode = .strict → x.Full) := by
  simp only [chain_ok_iff]
  cases closing with
  | false =>
    constructor
    · rintro ⟨e, ⟨dropped, hp, ⟨hl, ⟨hs, hw, _⟩, hk⟩, hb, hm⟩, he, hn⟩
      obtain rfl := Cursor.passes_nil.mp he
      refine ⟨dropped, ?_, ⟨hl, hs, hw, fun h => ⟨hn h, hk⟩⟩, by simp, hb, hm⟩
      rwa [Paren.when_false, List.map_nil, List.append_nil]
    · rintro ⟨dropped, hp, ⟨hl, hs, hw, hn⟩, _, hb, hm⟩
      rw [Paren.when_false, List.map_nil, List.append_nil] at hp
      refine ⟨d, ⟨dropped, hp, ⟨hl, ⟨hs, hw, fun _ => (hn rfl).1⟩, (hn rfl).2⟩, hb, hm⟩,
        Cursor.passes_nil.mpr rfl, fun _ => (hn rfl).1⟩
  | true =>
    constructor
    · rintro ⟨e, ⟨dropped, hp, ⟨hl, ⟨hs, hw, hn⟩, hk⟩, hb, hm⟩, he, _⟩
      have hclosing : e.current = Token.closingParen := he.current_eq
      have hw := hw.resolve_right (by rw [hclosing]; exact fun h => by cases h.2)
      obtain rfl := hs.dropped_eq_nil hw
      rw [List.append_nil] at hp
      refine ⟨[], ?_, ⟨hl, hs, .inl hw, by simp⟩, fun _ => ?_, hb, hm⟩
      · rw [List.append_nil]
        exact Cursor.passes_append.mpr ⟨e, hp, he⟩
      · cases hx : x.last.closing with
        | false => exact absurd hclosing (hn hx)
        | true => rfl
    · rintro ⟨dropped, hp, ⟨hl, hs, hw, _⟩, hx, hb, hm⟩
      have hx := hx rfl
      have hw := hw.resolve_right (by simp [hx])
      obtain rfl := hs.dropped_eq_nil hw
      rw [List.append_nil] at hp
      obtain ⟨e, hp, he⟩ := Cursor.passes_append.mp hp
      have hclosing : e.current = Token.closingParen := he.current_eq
      refine ⟨e, ⟨[], by rwa [List.append_nil], ⟨hl, ⟨hs, .inl hw, by simp [hx]⟩, ?_⟩, hb, hm⟩,
        he, by simp⟩
      rw [hclosing]
      decide

theorem expression_bind_iff {mode : Mode} {c d : Cursor} {e : Expression} :
    (expression mode c).result = .ok (e, d) ↔ ∃ b₁ b₂ c₁ c₂, wrappers .empty c = (b₁, c₁) ∧
      b₁.count = e.wrappers ∧ (chain mode c₁).result = .ok (e.chain, c₂) ∧
      paren .closing b₁ c₂ = (e.closing, b₂, d) ∧ b₂.count % 2 = 0 := by
  unfold expression
  constructor
  · intro h
    obtain ⟨⟨x, c₂⟩, hx, h⟩ := Logged.result_bind_eq_ok.mp h
    obtain ⟨u, hb, h⟩ := Logged.result_bind_eq_ok.mp h
    cases h
    exact ⟨_, _, _, c₂, rfl, rfl, hx, rfl, Balance.check_ok_iff.mp hb⟩
  · rintro ⟨b₁, b₂, c₁, c₂, hw, hcount, hx, hc, hb⟩
    rw [hw]
    refine Logged.result_bind_eq_ok.mpr ⟨(e.chain, c₂), hx, ?_⟩
    dsimp only
    rw [hc]
    refine Logged.result_bind_eq_ok.mpr ⟨(), Balance.check_ok_iff.mpr hb, ?_⟩
    rw [hcount]
    rfl

theorem expression_ok_iff {mode : Mode} {c d : Cursor} {e : Expression} :
    (expression mode c).result = .ok (e, d) ↔ ∃ dropped, c.Passes (e.tokens ++ dropped) d ∧
      e.Ends dropped d.current ∧ e.Paired ∧ (mode = .strict → e.chain.Full) := by
  have htokens : e.tokens = List.replicate e.wrappers Token.openingParen ++
      (e.chain.tokens ++ (Paren.closing.when e.closing).map Paren.token) := by
    rw [Expression.tokens, Expression.openings, Expression.closings, List.append_assoc]
    cases e.closing <;> rfl
  have hcount (n : Nat) : (Balance.empty.after (List.replicate n Paren.opening)).count = n := by
    rw [Balance.count_empty_after, List.length_replicate]
  rw [expression_bind_iff, htokens]
  constructor
  · rintro ⟨b₁, b₂, c₁, c₂, hw, hn, hx, hc, hb⟩
    obtain ⟨n, hp, rfl, hopen, _⟩ := wrappers_eq_iff.mp hw
    obtain ⟨hclosing, rfl, hne⟩ := paren_eq_iff.mp hc
    obtain ⟨dropped, hp', he, hlast, heven, hm⟩ := chain_closing_iff.mp ⟨c₂, hx, hclosing, hne⟩
    rw [hcount] at hn
    subst hn
    rw [Balance.count_after, hcount, Paren.length_when] at hb
    refine ⟨dropped, ?_, he, ⟨fun h => ?_, hlast, hb, heven⟩, hm⟩
    · rw [List.append_assoc]
      exact Cursor.passes_append.mpr ⟨c₁, hp, hp'⟩
    · exact (chain_current hx).1.mp (hopen h)
  · rintro ⟨dropped, hp, he, ⟨hfirst, hlast, hb, heven⟩, hm⟩
    rw [List.append_assoc] at hp
    obtain ⟨c₁, hp, hp'⟩ := Cursor.passes_append.mp hp
    obtain ⟨c₂, hx, hclosing, hne⟩ := chain_closing_iff.mpr ⟨dropped, hp', he, hlast, heven, hm⟩
    obtain ⟨hcurrent, htwo⟩ := chain_current hx
    refine ⟨_, _, c₁, c₂, wrappers_eq_iff.mpr ⟨e.wrappers, hp, rfl, fun h => ?_, htwo⟩, hcount _,
      hx, paren_eq_iff.mpr ⟨hclosing, rfl, hne⟩, ?_⟩
    · exact hcurrent.mpr (hfirst h)
    · rwa [Balance.count_after, hcount, Paren.length_when]

theorem parse_bind_iff {mode : Mode} {ts : List Token} {e : Expression} :
    (parse mode ts).result = .ok e ↔ ts ≠ [] ∧ ∃ d,
      (expression mode (.start ts)).result = .ok (e, d) ∧ (mode = .strict → d.rest = []) := by
  have htrailing (d : Cursor) (u : Unit) :
      (trailing mode d).result = .ok u ↔ (mode = .strict → d.rest = []) := by
    unfold trailing
    cases mode <;> by_cases h : d.rest = [] <;> simp [h]
  unfold parse
  split
  · rename_i h
    apply iff_of_false
    · intro h
      cases h
    · exact fun hn => hn.1 h
  · rename_i h
    rw [Logged.result_bind_eq_ok]
    constructor
    · rintro ⟨⟨x, d⟩, he, hx⟩
      obtain ⟨u, ht, hx⟩ := Logged.result_bind_eq_ok.mp hx
      cases hx
      exact ⟨h, d, he, (htrailing d u).mp ht⟩
    · rintro ⟨_, d, he, ht⟩
      exact ⟨(e, d), he, Logged.result_bind_eq_ok.mpr ⟨(), (htrailing d ()).mpr ht, rfl⟩⟩

theorem parse_ok_iff {mode : Mode} {ts : List Token} {e : Expression} :
    (parse mode ts).result = .ok e ↔ ts ≠ [] ∧ ∃ dropped rest,
      ts = e.tokens ++ dropped ++ rest ∧ e.Ends dropped (rest.headD Token.eof) ∧ e.Paired ∧
        (mode = .strict → e.chain.Full ∧ rest = []) := by
  rw [parse_bind_iff]
  simp only [expression_ok_iff]
  constructor
  · rintro ⟨h, d, ⟨dropped, hp, he, hb, hm⟩, hr⟩
    exact ⟨h, dropped, d.rest, hp.1, he, hb, fun hs => ⟨hm hs, hr hs⟩⟩
  · rintro ⟨h, dropped, rest, hts, he, hb, hm⟩
    refine ⟨h, ⟨(e.tokens ++ dropped).length, rest⟩, ⟨dropped, ⟨hts, ?_⟩, he, hb, fun hs => (hm hs).1⟩,
      fun hs => (hm hs).2⟩
    simp [Cursor.start]

end Parse

namespace Expression

/-- What the strict parser asks of an expression. -/
def Proper (e : Expression) : Prop :=
  (∀ s ∈ e.chain.segments, s.filter.Shaped [] ∧ s.filter.Full) ∧ e.Paired

end Expression

theorem tokens_ne_nil {e : Expression} (h : e.chain.last.filter.key.isSome) :
    e.tokens ≠ [] := by
  obtain ⟨key, hk⟩ := Option.isSome_iff_exists.mp h
  apply List.ne_nil_of_mem (a := Token.identifier key)
  simp [Expression.tokens, Chain.tokens, Segment.tokens, Filter.tokens, hk]

theorem expression_strict_iff {c d : Cursor} {e : Expression} :
    (Parse.expression .strict c).result = .ok (e, d) ↔ c.Passes e.tokens d ∧ e.Proper ∧
      (e.closing = false → d.current ≠ Token.closingParen ∧ d.current.kind ≠ .logicalOperator) := by
  rw [Parse.expression_ok_iff]
  constructor
  · rintro ⟨dropped, hpasses, ⟨hlinks, hlast, -, hnext⟩, hpaired, hfull⟩
    obtain ⟨hfulls, hfull⟩ := Chain.forall_segments.mp (hfull rfl)
    obtain rfl := hlast.dropped_eq_nil hfull.whole
    rw [List.append_nil] at hpasses
    refine ⟨hpasses, ⟨Chain.forall_segments.mpr ⟨fun l hl => ?_, hlast, hfull⟩, hpaired⟩, hnext⟩
    exact ⟨(hlinks l hl).1, hfulls l hl⟩
  · rintro ⟨hpasses, ⟨hproper, hpaired⟩, hnext⟩
    obtain ⟨hlinks, hlast, hfull⟩ := Chain.forall_segments.mp hproper
    refine ⟨[], by rwa [List.append_nil], ⟨fun l hl => ?_, hlast, .inl hfull.whole, hnext⟩, hpaired,
      fun _ s hs => (hproper s hs).2⟩
    exact ⟨(hlinks l hl).1, (hlinks l hl).2.whole⟩

/-- The strict parser accepts the token lists of proper expressions and reads these back. -/
theorem parse_strict_iff {ts : List Token} {e : Expression} :
    (parse .strict ts).result = .ok e ↔ e.Proper ∧ e.tokens = ts := by
  rw [Parse.parse_bind_iff]
  constructor
  · rintro ⟨-, d, he, hend⟩
    obtain ⟨hpasses, hproper, -⟩ := expression_strict_iff.mp he
    have hts : ts = e.tokens ++ d.rest := hpasses.1
    rw [hend rfl, List.append_nil] at hts
    exact ⟨hproper, hts.symm⟩
  · rintro ⟨hproper, rfl⟩
    obtain ⟨-, hfull⟩ := (Chain.forall_segments.mp hproper.1).2
    have hpasses : (Cursor.start e.tokens).Passes e.tokens ⟨e.tokens.length, []⟩ := by
      constructor <;> simp [Cursor.start]
    have hnext : Cursor.current ⟨e.tokens.length, []⟩ = Token.eof := rfl
    refine ⟨tokens_ne_nil hfull.1, _, expression_strict_iff.mpr ⟨hpasses, hproper, fun _ => ?_⟩,
      fun _ => rfl⟩
    rw [hnext]
    decide

end FilterQuery
