import FilterQuery.Query
import FilterQuery.Proofs.ExpressionReading
/-!
# The grammar of strict queries

    SENTENCE := '('* CHAIN ')'?
    CHAIN    := SEGMENT (LOGICAL CHAIN)?
    SEGMENT  := '('? FILTER ')'?
    FILTER   := KEY (COMPARATOR LITERAL | IN '[' LITERAL (',' LITERAL)* ']')

The relations say of a token list that it is such a phrase and of a tree that it is the tree of
the phrase. The strict parser decides them: it returns the tree of a sentence and nothing else.
-/
namespace FilterQuery

/-- Literals with commas between them, none of which reads as a closing bracket. -/
inductive Literals : List Token → Prop
  | last {t : Token} : t.kind = .literal → t.text ≠ "]" → Literals [t]
  | more {t comma : Token} {ts : List Token} : t.kind = .literal → t.text ≠ "]" →
    comma.text = "," → comma.kind ≠ .eof → Literals ts → Literals (t :: comma :: ts)

inductive FilterPhrase : List Token → Node → Prop
  | scalar {key op value : String} : op ∈ ["eq:", "gt:", "lt:", "gte:", "lte:", "not:"] →
    FilterPhrase [⟨.identifier, key⟩, ⟨.comparisonOperator, op⟩, ⟨.literal, value⟩]
      (.branch .filter [.leaf .identifier key,
        .branch .comparison [.leaf .comparisonOperator op, .leaf .literal value]])
  | membership {key : String} {opening closing : Token} {items : List Token} :
    opening.text = "[" → opening.kind ≠ .eof → Literals items →
    closing.text = "]" → closing.kind ≠ .eof →
    FilterPhrase
      (⟨.identifier, key⟩ :: ⟨.comparisonOperator, "IN:"⟩ :: (opening :: items ++ [closing]))
      (.branch .filter [.leaf .identifier key,
        .branch .comparison [.leaf .comparisonOperator "IN:",
          .branch .list ((opening :: items ++ [closing]).map Token.toNode)]])

/-- Tokens behind `a` opening and before `b` closing parentheses. -/
def enclose (a : Nat) (ts : List Token) (b : Nat) : List Token :=
  List.replicate a ⟨.separator, "("⟩ ++ ts ++ List.replicate b ⟨.separator, ")"⟩

/-- A tree behind `a` opening and before `b` closing parentheses. -/
def encloseNode (a : Nat) (n : Node) (b : Nat) : List Node :=
  List.replicate a (.leaf .separator "(") ++ [n] ++ List.replicate b (.leaf .separator ")")

/-- A chain whose first segment opens if `a`, whose last one closes if `b`, and which has `m`
parentheses. -/
inductive ChainPhrase : Bool → Bool → Nat → List Token → Node → Prop
  | last {a b : Bool} {ts : List Token} {n : Node} : FilterPhrase ts n →
    ChainPhrase a b (a.toNat + b.toNat) (enclose a.toNat ts b.toNat)
      (.branch .filters (encloseNode a.toNat n b.toNat))
  | link {a b a' b' : Bool} {m : Nat} {ts us : List Token} {n rest : Node} {operator : String} :
    FilterPhrase ts n → ChainPhrase a' b' m us rest →
    ChainPhrase a b' (a.toNat + b.toNat + m)
      (enclose a.toNat ts b.toNat ++ ⟨.logicalOperator, operator⟩ :: us)
      (.branch .filters
        (encloseNode a.toNat n b.toNat ++ [.leaf .logicalOperator operator, rest]))

inductive Sentence : List Token → Node → Prop
  | mk {k m : Nat} {a b c : Bool} {ts : List Token} {n : Node} : ChainPhrase a b m ts n →
    (0 < k → a = true) → (c = true → b = true) → (k + c.toNat) % 2 = 0 → m % 2 = 0 →
    Sentence (enclose k ts c.toNat) (.branch .expression (encloseNode k n c.toNat))

private theorem isInsideList_iff {t : Token} :
    Parse.isInsideList t ↔ t.kind ≠ .eof ∧ t.text ≠ "]" := by
  simp [Parse.isInsideList, Token.isEof]

private theorem literals_iff : (ts : List Token) → (Literals ts ↔
    Alternates ts ∧ (∀ t ∈ ts, Parse.isInsideList t) ∧ ts.length % 2 = 1)
  | [] => by
    apply iff_of_false
    · intro h
      cases h
    · simp
  | [t] => by
    rw [List.forall_mem_singleton, isInsideList_iff]
    constructor
    · intro h
      cases h with
      | last hk ht => exact ⟨.literal hk, ⟨by simp [hk], ht⟩, rfl⟩
    · rintro ⟨h, hi, _⟩
      cases h with
      | literal hk => exact .last hk hi.2
  | t :: comma :: ts => by
    have ih := literals_iff ts
    rw [List.forall_mem_cons, List.forall_mem_cons, isInsideList_iff, isInsideList_iff]
    simp only [List.length_cons]
    constructor
    · intro h
      cases h with
      | more hk ht hc he h =>
        obtain ⟨ha, hi, ho⟩ := ih.mp h
        exact ⟨.comma hk hc ha, ⟨⟨by simp [hk], ht⟩, ⟨he, by simp [hc]⟩, hi⟩, by omega⟩
    · rintro ⟨h, ⟨ht, hc', hi⟩, ho⟩
      cases h with
      | comma hk hc ha => exact .more hk ht.2 hc hc'.1 (ih.mpr ⟨ha, hi, by omega⟩)

private theorem comparator_mem (text : String) :
    text ∈ ["eq:", "gt:", "lt:", "gte:", "lte:", "not:"] ↔ ∃ op : Comparator, text = op.text := by
  constructor
  · intro h
    simp only [List.mem_cons, List.not_mem_nil, or_false] at h
    rcases h with rfl | rfl | rfl | rfl | rfl | rfl
    · exact ⟨.eq, rfl⟩
    · exact ⟨.gt, rfl⟩
    · exact ⟨.lt, rfl⟩
    · exact ⟨.gte, rfl⟩
    · exact ⟨.lte, rfl⟩
    · exact ⟨.not, rfl⟩
  · rintro ⟨op, rfl⟩
    cases op <;> decide

private theorem isList_iff {ts : List Token} : IsList ts ∧ ts.length % 2 = 1 ↔
    ∃ opening items closing, ts = opening :: items ++ [closing] ∧ opening.text = "[" ∧
      opening.kind ≠ .eof ∧ Literals items ∧ closing.text = "]" ∧ closing.kind ≠ .eof := by
  constructor
  · rintro ⟨⟨opening, items, closing, rfl, ho, ha, hc, he, hi⟩, hl⟩
    rw [List.forall_mem_cons, isInsideList_iff] at hi
    refine ⟨opening, items, closing, rfl, ho, hi.1.1, (literals_iff _).mpr ⟨ha, hi.2, ?_⟩, hc, ?_⟩
    · simp only [List.length_append, List.length_cons, List.length_nil] at hl
      omega
    · simpa [Token.isEof] using he
  · rintro ⟨opening, items, closing, rfl, ho, he, hl, hc, he'⟩
    obtain ⟨ha, hi, hl⟩ := (literals_iff _).mp hl
    refine ⟨⟨opening, items, closing, rfl, ho, ha, hc, by simp [Token.isEof, he'], ?_⟩, ?_⟩
    · rw [List.forall_mem_cons, isInsideList_iff]
      exact ⟨⟨he, by simp [ho]⟩, hi⟩
    · simp only [List.length_append, List.length_cons, List.length_nil]
      omega

private theorem filterPhrase_iff {ts : List Token} {n : Node} : FilterPhrase ts n ↔
    ∃ f : Filter, (f.Shaped [] ∧ f.Full) ∧ f.tokens = ts ∧ f.toNode = n := by
  constructor
  · intro h
    cases h with
    | scalar h =>
      obtain ⟨op, rfl⟩ := (comparator_mem _).mp h
      exact ⟨⟨some _, .scalar (some op) (some _)⟩,
        ⟨⟨by simp, by simp [Comparison.Shaped]⟩, rfl, rfl, rfl⟩, rfl, rfl⟩
    | membership ho he hi hc he' =>
      obtain ⟨hl, hodd⟩ := isList_iff.mpr ⟨_, _, _, rfl, ho, he, hi, hc, he'⟩
      exact ⟨⟨some _, .membership (some _)⟩, ⟨⟨by simp, hl, rfl⟩, rfl, _, rfl, hodd⟩, rfl, rfl⟩
  · rintro ⟨⟨key, x⟩, ⟨⟨_, hs⟩, hkey, hf⟩, rfl, rfl⟩
    obtain ⟨key, rfl⟩ := Option.isSome_iff_exists.mp hkey
    cases x with
    | scalar op operand =>
      obtain ⟨op, rfl⟩ := Option.isSome_iff_exists.mp hf.1
      obtain ⟨operand, rfl⟩ := Option.isSome_iff_exists.mp hf.2
      exact .scalar ((comparator_mem _).mpr ⟨op, rfl⟩)
    | membership list =>
      obtain ⟨ts, rfl, hodd⟩ := hf
      obtain ⟨opening, items, closing, rfl, ho, he, hi, hc, he'⟩ := isList_iff.mp ⟨hs.1, hodd⟩
      exact .membership ho he hi hc he'

private theorem segment_tokens (s : Segment) :
    s.tokens = enclose s.opening.toNat s.filter.tokens s.closing.toNat := by
  obtain ⟨opening, filter, closing⟩ := s
  cases opening <;> cases closing <;> rfl

theorem segment_nodes (s : Segment) :
    s.nodes = encloseNode s.opening.toNat s.filter.toNode s.closing.toNat := by
  obtain ⟨opening, filter, closing⟩ := s
  cases opening <;> cases closing <;> rfl

private theorem chainPhrase_of_chain (links : List (Segment × String)) (last : Segment)
    (h : ∀ s ∈ (Chain.mk links last).segments, s.filter.Shaped [] ∧ s.filter.Full) :
    let x : Chain := ⟨links, last⟩
    ChainPhrase x.first.opening x.last.closing x.parens x.tokens x.toNode := by
  have hphrase (s : Segment) (hs : s ∈ (Chain.mk links last).segments) :
      FilterPhrase s.filter.tokens s.filter.toNode :=
    filterPhrase_iff.mpr ⟨s.filter, h s hs, rfl, rfl⟩
  induction links with
  | nil =>
    have hlast := hphrase last (by simp [Chain.segments])
    have hchain := ChainPhrase.last (a := last.opening) (b := last.closing) hlast
    simpa [Chain.first, Chain.parens, Chain.segments, Segment.parens, Chain.tokens, Chain.toNode,
      segment_tokens, segment_nodes] using hchain
  | cons link links ih =>
    obtain ⟨s, operator⟩ := link
    have hs := hphrase s (by simp [Chain.segments])
    have hrest := ih (fun s hs => h s (List.mem_cons_of_mem _ hs))
      (fun s hs => hphrase s (List.mem_cons_of_mem _ hs))
    intro x
    have hx : x = Chain.cons s operator ⟨links, last⟩ := rfl
    rw [hx, Chain.parens_cons, Chain.tokens_cons, Chain.toNode_cons, segment_tokens, segment_nodes]
    exact .link hs hrest

private theorem chain_of_chainPhrase {a b : Bool} {m : Nat} {ts : List Token} {n : Node}
    (h : ChainPhrase a b m ts n) :
    ∃ x : Chain, (∀ s ∈ x.segments, s.filter.Shaped [] ∧ s.filter.Full) ∧ x.first.opening = a ∧
      x.last.closing = b ∧ x.parens = m ∧ x.tokens = ts ∧ x.toNode = n := by
  induction h with
  | @last a b ts n h =>
    obtain ⟨f, hf, rfl, rfl⟩ := filterPhrase_iff.mp h
    refine ⟨⟨[], ⟨a, f, b⟩⟩, by simpa [Chain.segments] using hf, rfl, rfl, ?_, ?_, ?_⟩
    · simp [Chain.parens, Segment.parens]
    · simp [Chain.tokens, segment_tokens]
    · simp [Chain.toNode, segment_nodes]
  | @link a b a' b' m ts us n rest operator h _ ih =>
    obtain ⟨f, hf, rfl, rfl⟩ := filterPhrase_iff.mp h
    obtain ⟨x, hx, _, rfl, rfl, rfl, rfl⟩ := ih
    refine ⟨x.cons ⟨a, f, b⟩ operator, ?_, rfl, rfl, ?_, ?_, ?_⟩
    · intro s hs
      rcases List.mem_cons.mp hs with rfl | hs
      · exact hf
      · exact hx s hs
    · rw [Chain.parens_cons]
      rfl
    · rw [Chain.tokens_cons, segment_tokens]
      rfl
    · rw [Chain.toNode_cons, segment_nodes]
      rfl

private theorem expression_tokens (e : Expression) :
    e.tokens = enclose e.wrappers e.chain.tokens e.closing.toNat := by
  rw [Expression.tokens, Expression.closings]
  cases e.closing <;> rfl

theorem expression_toNode (e : Expression) :
    e.toNode = .branch .expression (encloseNode e.wrappers e.chain.toNode e.closing.toNat) := by
  rw [Expression.toNode, Expression.openings, Expression.closings, List.map_replicate, encloseNode,
    List.append_assoc]
  cases e.closing <;> rfl

private theorem sentence_iff {ts : List Token} {n : Node} :
    Sentence ts n ↔ ∃ e : Expression, e.Proper ∧ e.tokens = ts ∧ e.toNode = n := by
  constructor
  · intro h
    cases h with
    | @mk k m a b c ts n hchain hopen hclose hk hm =>
      obtain ⟨x, hx, rfl, rfl, rfl, rfl, rfl⟩ := chain_of_chainPhrase hchain
      exact ⟨⟨k, x, c⟩, ⟨hx, hopen, hclose, hk, hm⟩, expression_tokens _, expression_toNode _⟩
  · rintro ⟨e, ⟨hx, hopen, hclose, hk, hm⟩, rfl, rfl⟩
    rw [expression_tokens, expression_toNode]
    exact .mk (chainPhrase_of_chain e.chain.links e.chain.last hx) hopen hclose hk hm

/-- The strict parser returns a tree for the sentences of the grammar and for nothing else, and
the tree is that of the sentence. -/
theorem tokensTree_strict_iff (ts : List Token) (t : Node) :
    tokensTree .strict ts = .ok t ↔ Sentence ts t := by
  rw [sentence_iff]
  simp only [← and_assoc, ← parse_strict_iff]
  unfold tokensTree
  cases (parse .strict ts).result with
  | error e => simp [Except.map]
  | ok e => simp [Except.map]

end FilterQuery
