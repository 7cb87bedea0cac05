import FilterQuery.Query
import FilterQuery.Proofs.ExpressionReading
import FilterQuery.Proofs.Records
/-!
# Strict reading as lenient reading

The strict mode accepts a query exactly if the lenient mode makes no use of its leniency: it
warns of nothing, fills in for nothing and takes no list that lacks a literal.
-/
namespace FilterQuery

/-- `n.Within t` says that `n` is the tree `t` or one of the trees below its root. -/
inductive Node.Within : Node → Node → Prop
  | root (n : Node) : Within n n
  | child {n c t : Node} : c ∈ t.children → Within n c → Within n t

/-- No leaf stands for missing input, and every list has an odd number of members. -/
def Node.Tidy (t : Node) : Prop :=
  ∀ n : Node, n.Within t → n.kind ≠ .eof ∧ (n.kind = .list → n.children.length % 2 = 1)

section
variable {kind : NodeKind} {value : Option String} {children : List Node}

theorem Node.tidy_mk : Node.Tidy ⟨kind, value, children⟩ ↔
    (kind ≠ .eof ∧ (kind = .list → children.length % 2 = 1)) ∧ ∀ c ∈ children, c.Tidy := by
  constructor
  · intro h
    exact ⟨h _ (.root _), fun c hc n hn => h n (.child hc hn)⟩
  · rintro ⟨hroot, hbelow⟩ n hn
    cases hn with
    | root => exact hroot
    | child hc hn => exact hbelow _ hc n hn

end

theorem Token.tidy_toNode {t : Token} : t.toNode.Tidy ↔ t.kind ≠ .eof := by
  obtain ⟨kind, text⟩ := t
  rw [Token.toNode, Node.tidy_mk]
  cases kind <;> simp [TokenKind.toNodeKind]

theorem Node.tidy_ofToken? {t : Option Token} :
    (Node.ofToken? t).Tidy ↔ ∃ token, t = some token ∧ token.kind ≠ .eof := by
  cases t with
  | none =>
    apply iff_of_false
    · intro h
      exact (h _ (.root _)).1 rfl
    · rintro ⟨_, h, _⟩
      cases h
  | some token =>
    change token.toNode.Tidy ↔ _
    simp [Token.tidy_toNode]

theorem IsList.tidy_toNode {ts : List Token} (h : IsList ts) :
    (Node.branch .list (ts.map Token.toNode)).Tidy ↔ ts.length % 2 = 1 := by
  change Node.Tidy ⟨.list, none, _⟩ ↔ _
  rw [Node.tidy_mk, List.length_map, List.forall_mem_map]
  simp only [Token.tidy_toNode]
  constructor
  · rintro ⟨⟨_, hodd⟩, _⟩
    exact hodd trivial
  · intro hodd
    exact ⟨⟨by decide, fun _ => hodd⟩, h.kind_ne_eof⟩

theorem Comparison.tidy_toNode {x : Comparison} {dropped : List Token} (h : x.Shaped dropped) :
    x.toNode.Tidy ↔ x.Full := by
  have hbranch (a b : Node) : (Node.branch .comparison [a, b]).Tidy ↔ a.Tidy ∧ b.Tidy := by
    change Node.Tidy ⟨.comparison, none, _⟩ ↔ _
    rw [Node.tidy_mk]
    simp
  cases x with
  | scalar op operand =>
    refine (hbranch _ _).trans ?_
    rw [Node.tidy_ofToken?, Node.tidy_ofToken?]
    cases op <;> cases operand <;>
      simp [Comparison.Full, Comparator.token, Token.comparison, Token.literal]
  | membership list =>
    refine (hbranch _ _).trans ?_
    rw [Token.tidy_toNode]
    cases list with
    | none =>
      apply iff_of_false
      · rintro ⟨_, h⟩
        exact (h _ (.root _)).1 rfl
      · rintro ⟨_, h, _⟩
        cases h
    | some ts =>
      refine (and_iff_right (by decide)).trans (h.1.tidy_toNode.trans ?_)
      simp [Comparison.Full]

theorem Filter.tidy_toNode {f : Filter} {dropped : List Token} (h : f.Shaped dropped) :
    f.toNode.Tidy ↔ f.Full := by
  change Node.Tidy ⟨.filter, none, _⟩ ↔ _
  rw [Node.tidy_mk]
  simp only [List.forall_mem_cons, Node.tidy_ofToken?, Comparison.tidy_toNode h.2]
  cases hk : f.key <;> simp [Filter.Full, hk, Token.identifier]

theorem Segment.tidy_nodes {s : Segment} {dropped : List Token} (h : s.filter.Shaped dropped) :
    (∀ n ∈ s.nodes, n.Tidy) ↔ s.filter.Full := by
  have hfilter := Filter.tidy_toNode h
  obtain ⟨opening, filter, closing⟩ := s
  cases opening <;> cases closing <;>
    simpa [nodes, openings, closings, Token.tidy_toNode, Token.openingParen, Token.closingParen,
      Token.separator] using hfilter

theorem Chain.tidy_toNode {links : List (Segment × String)} {last : Segment} {dropped : List Token}
    (hl : ∀ l ∈ links, l.1.filter.Shaped []) (h : last.filter.Shaped dropped) :
    (Chain.mk links last).toNode.Tidy ↔ (Chain.mk links last).Full := by
  induction links with
  | nil =>
    change Node.Tidy ⟨.filters, none, last.nodes⟩ ↔ _
    rw [Node.tidy_mk, Segment.tidy_nodes h]
    simp [Chain.Full, Chain.segments]
  | cons link links ih =>
    have ih := ih fun l h => hl l (List.mem_cons_of_mem _ h)
    have hs := Segment.tidy_nodes (hl link List.mem_cons_self)
    change (Chain.cons link.1 link.2 ⟨links, last⟩).toNode.Tidy ↔ _
    rw [Chain.toNode_cons]
    change Node.Tidy ⟨.filters, none, _⟩ ↔ _
    rw [Node.tidy_mk, List.forall_mem_append, hs, List.forall_mem_cons, List.forall_mem_singleton,
      Token.tidy_toNode, ih]
    simp [Chain.Full, Chain.segments, Token.logical]

theorem Expression.tidy_toNode {e : Expression} {dropped : List Token} {next : Token}
    (h : e.Ends dropped next) : e.toNode.Tidy ↔ e.chain.Full := by
  have hchain := Chain.tidy_toNode (fun l hl => (h.1 l hl).1) h.2.1
  have hopen : ∀ n ∈ e.openings.map Token.toNode, n.Tidy := by
    rw [List.forall_mem_map]
    intro t ht
    rw [List.eq_of_mem_replicate ht, Token.tidy_toNode]
    decide
  have hclose : ∀ n ∈ e.closings.map Token.toNode, n.Tidy := by
    rw [List.forall_mem_map]
    intro t ht
    unfold closings at ht
    split at ht
    · rw [List.mem_singleton.mp ht, Token.tidy_toNode]
      decide
    · cases ht
  change Node.Tidy ⟨.expression, none, _⟩ ↔ _
  rw [Node.tidy_mk, List.forall_mem_append, List.forall_mem_cons, hchain]
  constructor
  · rintro ⟨_, _, hx, _⟩
    exact hx
  · intro hx
    exact ⟨⟨by decide, fun h => by cases h⟩, hopen, hx, hclose⟩

/-- What both modes make of the same input when the lenient one warns of nothing. -/
def Restricts {ρ ε α : Type} (severity : ρ → Severity) (strict lenient : Logged ρ ε α) : Prop :=
  ∀ a, strict.result = .ok a ↔
    lenient.result = .ok a ∧ lenient.Writes (severity · ≠ .warn)

theorem Restricts.bind {ρ ε α β : Type} {severity : ρ → Severity} {x y : Logged ρ ε α}
    {f g : α → Logged ρ ε β} (hx : Restricts severity x y) (hf : ∀ a, Restricts severity (f a) (g a)) :
    Restricts severity (x >>= f) (y >>= g) := by
  intro b
  rw [Logged.result_bind_eq_ok, Logged.result_bind_eq_ok, Logged.writes_bind_iff]
  constructor
  · rintro ⟨a, ha, hb⟩
    obtain ⟨hy, hw⟩ := (hx a).mp ha
    obtain ⟨hg, hw'⟩ := (hf a b).mp hb
    refine ⟨⟨a, hy, hg⟩, hw, fun a' ha' => ?_⟩
    cases hy.symm.trans ha'
    exact hw'
  · rintro ⟨⟨a, hy, hg⟩, hw, hw'⟩
    exact ⟨a, (hx a).mpr ⟨hy, hw⟩, (hf a b).mpr ⟨hg, hw' a hy⟩⟩

theorem restricts_self {ρ ε α : Type} {severity : ρ → Severity} {x : Logged ρ ε α}
    (h : x.Writes (severity · ≠ .warn)) : Restricts severity x x :=
  fun _ => ⟨fun hx => ⟨hx, h⟩, And.left⟩

theorem restricts_read (before : Nat) (p : Piece) :
    Restricts ScanEvent.severity (p.read .strict before) (p.read .lenient before) := by
  cases p with
  | blank c => exact restricts_self (Logged.writes_pure _)
  | lexeme rule cs =>
    apply restricts_self
    refine Logged.writes_bind (Logged.writes_write.mpr ?_) fun _ => Logged.writes_pure _
    simp [ScanEvent.severity]
  | unknown c =>
    intro a
    unfold Piece.read
    by_cases hc : isReservedChar c
    · simp [hc]
    · simp [hc, Logged.writes_bind_iff, Logged.writes_write, ScanEvent.severity]
  | unclosed cs =>
    intro a
    simp [Piece.read, Logged.writes_bind_iff, Logged.writes_write, ScanEvent.severity]

theorem restricts_readPieces (before : Nat) (ps : List Piece) :
    Restricts ScanEvent.severity (readPieces .strict before ps) (readPieces .lenient before ps) := by
  induction ps generalizing before with
  | nil => exact restricts_self (Logged.writes_pure _)
  | cons p ps ih =>
    refine (restricts_read before p).bind fun token? => ?_
    exact (ih _).bind fun _ => restricts_self (Logged.writes_pure _)

theorem restricts_scan (query : String) :
    Restricts ScanEvent.severity (scan .strict query) (scan .lenient query) := by
  rw [scan_eq, scan_eq]
  refine (restricts_readPieces 0 _).bind fun tokens => restricts_self ?_
  refine Logged.writes_bind (Logged.writes_write.mpr ?_) fun _ => Logged.writes_pure _
  simp [ScanEvent.severity]

theorem writes_parse_iff {ts : List Token} {e : Expression} {d : Cursor} (hts : ts ≠ [])
    (h : (Parse.expression .lenient (.start ts)).result = .ok (e, d)) :
    (parse .lenient ts).Writes (·.severity ≠ .warn) ↔ d.rest = [] := by
  have hexpression : (Parse.expression .lenient (.start ts)).Writes (·.severity ≠ .warn) := by
    intro r hr
    have ht : r.severity = .trace := Parse.traces_expression .lenient (.start ts) r hr
    simp [ht]
  have htrailing : (Parse.trailing .lenient d).Writes (·.severity ≠ .warn) ↔ d.rest = [] := by
    unfold Parse.trailing
    split
    · rename_i hd
      exact iff_of_true (Logged.writes_pure _) hd
    · rename_i hd
      exact iff_of_false (fun hw => Logged.writes_write.mp hw rfl) hd
  have hfinished : (do
      Logged.write (.finished d.position)
      return e : Parsed Expression).Writes (·.severity ≠ .warn) :=
    Logged.writes_bind (Logged.writes_write.mpr (by simp [ParseEvent.severity]))
      fun _ => Logged.writes_pure _
  unfold parse
  rw [if_neg hts, Logged.writes_bind_iff]
  constructor
  · rintro ⟨_, hw⟩
    exact htrailing.mp (Logged.writes_bind_iff.mp (hw _ h)).1
  · intro hd
    refine ⟨hexpression, fun a ha => ?_⟩
    cases h.symm.trans ha
    exact Logged.writes_bind (htrailing.mpr hd) fun _ => hfinished

theorem parse_strict_iff_lenient {ts : List Token} {e : Expression} :
    (parse .strict ts).result = .ok e ↔ ((parse .lenient ts).result = .ok e ∧
      (parse .lenient ts).Writes (·.severity ≠ .warn)) ∧ e.chain.Full := by
  have hexpression (d : Cursor) : (Parse.expression .strict (.start ts)).result = .ok (e, d) ↔
      (Parse.expression .lenient (.start ts)).result = .ok (e, d) ∧ e.chain.Full := by
    rw [Parse.expression_ok_iff, Parse.expression_ok_iff]
    constructor
    · rintro ⟨dropped, hp, he, hb, hm⟩
      exact ⟨⟨dropped, hp, he, hb, fun h => by cases h⟩, hm rfl⟩
    · rintro ⟨⟨dropped, hp, he, hb, _⟩, hm⟩
      exact ⟨dropped, hp, he, hb, fun _ => hm⟩
  rw [Parse.parse_bind_iff, Parse.parse_bind_iff]
  constructor
  · rintro ⟨hts, d, he, hr⟩
    obtain ⟨he, hf⟩ := (hexpression d).mp he
    exact ⟨⟨⟨hts, d, he, fun h => by cases h⟩, (writes_parse_iff hts he).mpr (hr rfl)⟩, hf⟩
  · rintro ⟨⟨⟨hts, d, he, _⟩, hw⟩, hf⟩
    exact ⟨hts, d, (hexpression d).mpr ⟨he, hf⟩, fun _ => (writes_parse_iff hts he).mp hw⟩

theorem parse_tidy_iff {mode : Mode} {ts : List Token} {e : Expression}
    (h : (parse mode ts).result = .ok e) : e.toNode.Tidy ↔ e.chain.Full := by
  obtain ⟨_, dropped, rest, _, he, _⟩ := Parse.parse_ok_iff.mp h
  exact Expression.tidy_toNode he

theorem writes_readQuery_iff {mode : Mode} {query : String} {P : QueryEvent → Prop} :
    (readQuery mode query).Writes P ↔ (scan mode query).Writes (P ∘ QueryEvent.scan) ∧
      ∀ ts, (scan mode query).result = .ok ts → (parse mode ts).Writes (P ∘ QueryEvent.parse) := by
  have hok (ts : List Token) : ((scan mode query).lift QueryEvent.scan QueryError.scan).result =
      .ok ts ↔ (scan mode query).result = .ok ts := by
    rw [Logged.result_lift]
    cases (scan mode query).result <;> simp [Except.mapError]
  unfold readQuery
  rw [Logged.writes_bind_iff, Logged.writes_lift]
  simp only [hok, Logged.writes_lift]

/-- The strict mode accepts a query and returns a tree exactly if the lenient mode returns it
without a warning, with no leaf for missing input and with every list of odd length. -/
theorem queryTree_strict_iff_lenient (query : String) :
    (∀ t, queryTree .strict query = .ok t ↔ queryTree .lenient query = .ok t ∧
      (∀ r ∈ (readQuery .lenient query).log, r.severity ≠ .warn) ∧
      ∀ n : Node, n.Within t → n.kind ≠ .eof ∧ (n.kind = .list → n.children.length % 2 = 1)) ∧
    ∀ e, queryTree .lenient query = .error e → ∃ e', queryTree .strict query = .error e' := by
  have hiff (t : Node) : queryTree .strict query = .ok t ↔ queryTree .lenient query = .ok t ∧
      (readQuery .lenient query).Writes (·.severity ≠ .warn) ∧ t.Tidy := by
    rw [queryTree_ok_iff, queryTree_ok_iff, writes_readQuery_iff]
    constructor
    · rintro ⟨ts, e, hs, hp, rfl⟩
      obtain ⟨hs, hws⟩ := (restricts_scan query ts).mp hs
      obtain ⟨⟨hp, hwp⟩, hf⟩ := parse_strict_iff_lenient.mp hp
      refine ⟨⟨ts, e, hs, hp, rfl⟩, ⟨hws, fun ts' hs' => ?_⟩, (parse_tidy_iff hp).mpr hf⟩
      cases hs.symm.trans hs'
      exact hwp
    · rintro ⟨⟨ts, e, hs, hp, rfl⟩, ⟨hws, hwp⟩, ht⟩
      exact ⟨ts, e, (restricts_scan query ts).mpr ⟨hs, hws⟩,
        parse_strict_iff_lenient.mpr ⟨⟨hp, hwp ts hs⟩, (parse_tidy_iff hp).mp ht⟩, rfl⟩
  refine ⟨hiff, fun e he => ?_⟩
  cases hs : queryTree .strict query with
  | error e' => exact ⟨e', rfl⟩
  | ok t =>
    have hl := ((hiff t).mp hs).1
    cases he.symm.trans hl

theorem queryTree_strict_error_colon :
    queryTree .lenient ":" = .error (.scan (.invalidCharacter ':' 1)) ∧
      ∃ e', queryTree .strict ":" = .error e' :=
  ⟨by cbv, (queryTree_strict_iff_lenient ":").2 _ (by cbv)⟩

end FilterQuery
