import FilterQuery.Proofs.Failing
import FilterQuery.Proofs.ListFault
/-!
# The parenthesis named as missing

The first group of parentheses that is odd fails the parser. The side that its error names is
opposite to the last parenthesis of that group, and not always the one with fewer parentheses.
-/
namespace FilterQuery

theorem not_hint_names_fewer : ¬ ∀ mode query ts missing, tokenize mode query = .ok ts →
    queryTree mode query = .error (.parse (.unbalancedParens missing)) →
    (ts.count Token.closingParen < ts.count Token.openingParen → missing = .closing) ∧
      (ts.count Token.openingParen < ts.count Token.closingParen → missing = .opening) := by
  intro h
  -- two parentheses open and one closes, and that is the last one
  have hscan : ∃ ts, tokenize .lenient "(a eq: 1 && (b eq: 2 && c eq: 3)" = .ok ts ∧
      ts.count Token.closingParen < ts.count Token.openingParen := ⟨_, by cbv, by decide⟩
  have hparse : queryTree .lenient "(a eq: 1 && (b eq: 2 && c eq: 3)" =
      .error (.parse (.unbalancedParens .opening)) := by cbv
  obtain ⟨ts, hts, hcount⟩ := hscan
  cases (h _ _ ts _ hts hparse).1 hcount

/-- The other side of a pair. -/
def Paren.other : Paren → Paren
  | .opening => .closing
  | .closing => .opening

/-- The first of these groups of parentheses with an odd number of them ends in one that is opposite
to `missing`. -/
def OddGroup (groups : List (List Paren)) (missing : Paren) : Prop :=
  ∃ group, groups.find? (fun group => group.length % 2 = 1) = some group ∧
    group.getLast? = some missing.other

/-- The parentheses outside a chain: `k` in front of it and, if `next` is one, that behind it. -/
def outerWord (k : Nat) (next : Token) : List Paren :=
  List.replicate k .opening ++ Paren.closing.when (next = Token.closingParen)

/-- The tokens begin with a chain in parentheses, of which one of the two groups is odd: those around
the segments, or those outside. -/
def OddParens (mode : Mode) (ts : List Token) (missing : Paren) : Prop :=
  ∃ k x dropped rest,
    ts = List.replicate k Token.openingParen ++ (Chain.tokens x ++ dropped) ++ rest ∧
      (0 < k → x.first.opening) ∧ x.Ends dropped (rest.headD Token.eof) ∧
      (mode = .strict → x.Full) ∧
      OddGroup [x.parenWord, outerWord k (rest.headD Token.eof)] missing

namespace Balance

theorem lastClosing_after_concat (b : Balance) (ps : List Paren) (p : Paren) :
    (b.after (ps ++ [p])).lastClosing = decide (p = .closing) := by
  rw [after_append]
  cases p <;> rfl

theorem check_after_iff {ps : List Paren} {missing : Paren} :
    (Balance.empty.after ps).check = .error (.unbalancedParens missing) ↔
      ps.length % 2 = 1 ∧ ps.getLast? = some missing.other := by
  rcases List.eq_nil_or_concat ps with rfl | ⟨ps, p, rfl⟩
  · apply iff_of_false
    · intro h
      cases h
    · intro h
      cases h.1
  · rw [List.concat_eq_append, check, count_empty_after, lastClosing_after_concat,
      List.getLast?_concat]
    split
    · rename_i heven
      apply iff_of_false
      · intro h
        cases h
      · rintro ⟨hodd, -⟩
        cases heven.symm.trans hodd
    · rename_i hodd
      rw [and_iff_right (Nat.mod_two_ne_zero.mp hodd)]
      cases p <;> cases missing <;> simp [Paren.other]

end Balance

namespace Parse

section
variable {mode : Mode} {b : Balance} {c d : Cursor} {x : Chain} {missing : Paren}

theorem single_balanced {α : Type} (expected : Construct) (read : Token → Option α) (c : Cursor) :
    (single mode expected read c).result ≠ .error (.unbalancedParens missing) := by
  intro h
  unfold single at h
  split at h
  · cases mode <;> cases h
  · split at h <;> cases h

theorem list_balanced (c : Cursor) :
    (list mode c).result ≠ .error (.unbalancedParens missing) := by
  intro h
  rcases list_error h with h | ⟨expected, found, ts, rest, h, -⟩ <;> cases h

theorem filter_balanced (c : Cursor) :
    (filter mode c).result ≠ .error (.unbalancedParens missing) := by
  have hterminal (kind : TokenKind) (expected : Construct) (c : Cursor) :
      (terminal mode kind expected c).result ≠ .error (.unbalancedParens missing) := by
    rw [terminal_eq_single]
    exact single_balanced expected _ c
  rw [Ne, filter_error_iff]
  rintro (h | ⟨key, d, -, h⟩)
  · exact hterminal _ _ _ h
  · by_cases hd : d.current = Token.inOperator
    · exact list_balanced _ ((comparison_list_error_iff hd).mp h)
    · rcases (comparison_scalar_error_iff hd).mp h with h | ⟨op, d', -, h⟩
      · rw [comparator_eq_single] at h
        exact single_balanced _ _ _ h
      · exact hterminal _ _ _ h

theorem segments_balanced (b : Balance) (c : Cursor) :
    (segments mode b c).result ≠ .error (.unbalancedParens missing) := by
  fun_induction segments mode b c with
  | case1 b c step e h =>
    rintro ⟨⟩
    exact filter_balanced _ (segment_error_iff.mp h)
  | case2 b c step s b' d h hd tail ih =>
    intro h
    cases htail : tail.result with
    | error e =>
      rw [htail] at h
      cases h
      exact ih htail
    | ok r =>
      rw [htail] at h
      cases h
  | case3 b c step s b' d h hd =>
    intro h
    cases h

theorem segments_behind_wrappers_iff {b₁ b₂ : Balance} :
    (∃ c₁, wrappers .empty c = (b₁, c₁) ∧ (segments mode .empty c₁).result = .ok (x, b₂, d)) ↔
      ∃ k dropped,
        c.Passes (List.replicate k Token.openingParen ++ (x.tokens ++ dropped)) d ∧
        (0 < k → x.first.opening) ∧ x.Ends dropped d.current ∧ (mode = .strict → x.Full) ∧
        b₁ = Balance.empty.after (List.replicate k .opening) ∧
        b₂ = Balance.empty.after x.parenWord := by
  simp only [wrappers_eq_iff]
  constructor
  · rintro ⟨c₁, ⟨k, hk, rfl, hopen, -⟩, hx⟩
    have hcurrent := (segments_current hx).1
    obtain ⟨dropped, hpasses, hends, rfl, hfull⟩ := segments_ok_iff.mp hx
    exact ⟨k, dropped, Cursor.passes_append.mpr ⟨c₁, hk, hpasses⟩, fun h => hcurrent.mp (hopen h),
      hends, hfull, rfl, rfl⟩
  · rintro ⟨k, dropped, hpasses, hopen, hends, hfull, rfl, rfl⟩
    obtain ⟨c₁, hk, hpasses⟩ := Cursor.passes_append.mp hpasses
    have hx : (segments mode .empty c₁).result = .ok (x, Balance.empty.after x.parenWord, d) :=
      segments_ok_iff.mpr ⟨dropped, hpasses, hends, rfl, hfull⟩
    obtain ⟨hcurrent, htwo⟩ := segments_current hx
    exact ⟨c₁, ⟨k, hk, rfl, fun h => hcurrent.mpr (hopen h), htwo⟩, hx⟩

/-- The groups are checked in turn: that of the chain, and then with the parenthesis that may follow
that of the wrappers. -/
theorem expression_balance_iff :
    (expression mode c).result = .error (.unbalancedParens missing) ↔
      ∃ b₁ c₁ x b₂ d, wrappers .empty c = (b₁, c₁) ∧
        (segments mode .empty c₁).result = .ok (x, b₂, d) ∧
        (b₂.check = .error (.unbalancedParens missing) ∨
          b₂.check = .ok () ∧
            (paren .closing b₁ d).2.1.check = .error (.unbalancedParens missing)) := by
  rw [expression_error_iff, chain_error_iff]
  constructor
  · rintro ((h | ⟨x, b₂, d, hx, hb⟩) | ⟨x, d, hx, hb⟩)
    · exact absurd h (segments_balanced _ _)
    · exact ⟨_, _, x, b₂, d, rfl, hx, .inl hb⟩
    · obtain ⟨b₂, hx, hb₂⟩ := chain_bind_iff.mp hx
      exact ⟨_, _, x, b₂, d, rfl, hx, .inr ⟨hb₂, hb⟩⟩
  · rintro ⟨b₁, c₁, x, b₂, d, hw, hx, hb | ⟨hb₂, hb⟩⟩
    · rw [hw]
      exact .inl (.inr ⟨x, b₂, d, hx, hb⟩)
    · rw [hw]
      exact .inr ⟨x, d, chain_bind_iff.mpr ⟨b₂, hx, hb₂⟩, hb⟩

end

end Parse

theorem oddGroup_pair_iff {ps qs : List Paren} {missing : Paren} :
    OddGroup [ps, qs] missing ↔
      (Balance.empty.after ps).check = .error (.unbalancedParens missing) ∨
        (Balance.empty.after ps).check = .ok () ∧
          (Balance.empty.after qs).check = .error (.unbalancedParens missing) := by
  rw [Balance.check_after_iff, Balance.check_after_iff, Balance.check_ok_iff,
    Balance.count_empty_after, OddGroup]
  rcases Nat.mod_two_eq_zero_or_one ps.length with hps | hps
  · rcases Nat.mod_two_eq_zero_or_one qs.length with hqs | hqs <;> simp [List.find?, hps, hqs]
  · simp [List.find?, hps]

namespace Parse

theorem balance_paren_closing (k : Nat) (d : Cursor) :
    (paren .closing (Balance.empty.after (List.replicate k .opening)) d).2.1 =
      Balance.empty.after (outerWord k d.current) := by
  rw [outerWord, Balance.after_append, paren, Paren.token]
  by_cases hd : d.current = Token.closingParen
  · rw [if_pos hd, decide_eq_true hd]
    rfl
  · rw [if_neg hd, decide_eq_false hd]
    rfl

theorem expression_unbalanced_iff {mode : Mode} {ts : List Token} {missing : Paren} :
    (expression mode (.start ts)).result = .error (.unbalancedParens missing) ↔
      OddParens mode ts missing := by
  rw [expression_balance_iff]
  constructor
  · rintro ⟨b₁, c₁, x, b₂, d, hw, hx, hb⟩
    obtain ⟨k, dropped, hpasses, hopen, hends, hfull, rfl, rfl⟩ :=
      segments_behind_wrappers_iff.mp ⟨c₁, hw, hx⟩
    rw [balance_paren_closing] at hb
    exact ⟨k, x, dropped, d.rest, hpasses.1, hopen, hends, hfull, oddGroup_pair_iff.mpr hb⟩
  · rintro ⟨k, x, dropped, rest, rfl, hopen, hends, hfull, hodd⟩
    let taken := List.replicate k Token.openingParen ++ (x.tokens ++ dropped)
    let d : Cursor := ⟨taken.length, rest⟩
    have hpasses : (Cursor.start (taken ++ rest)).Passes taken d := by
      constructor <;> simp [Cursor.start, d]
    obtain ⟨c₁, hw, hx⟩ :=
      segments_behind_wrappers_iff.mpr ⟨k, dropped, hpasses, hopen, hends, hfull, rfl, rfl⟩
    refine ⟨_, c₁, x, _, d, hw, hx, ?_⟩
    rw [balance_paren_closing]
    exact oddGroup_pair_iff.mp hodd

end Parse

theorem Chain.mem_tokens_of_parenWord {x : Chain} {p : Paren} (h : p ∈ x.parenWord) :
    p.token ∈ x.tokens := by
  have hsegment {s : Segment} (h : p ∈ s.parenWord) : p.token ∈ s.tokens := by
    rw [Segment.tokens_eq]
    rcases List.mem_append.mp h with h | h
    · exact List.mem_append_left _ (List.mem_map_of_mem h)
    · exact List.mem_append_right _ (List.mem_append_right _ (List.mem_map_of_mem h))
  obtain ⟨links, last⟩ := x
  induction links with
  | nil =>
    have hlast : p ∈ last.parenWord := by simpa [parenWord, segments] using h
    simpa [tokens] using hsegment hlast
  | cons link links ih =>
    have hx : Chain.mk (link :: links) last = cons link.1 link.2 ⟨links, last⟩ := rfl
    rw [hx, parenWord_cons, List.mem_append] at h
    rw [hx, tokens_cons, List.mem_append, List.mem_cons]
    exact h.imp hsegment fun h => .inr (ih h)

theorem mem_of_mem_outerWord {k : Nat} {rest : List Token} {p : Paren}
    (h : p ∈ outerWord k (rest.headD Token.eof)) :
    p.token ∈ List.replicate k Token.openingParen ∨ p.token ∈ rest := by
  rcases List.mem_append.mp h with h | h
  · obtain ⟨hk, rfl⟩ := List.mem_replicate.mp h
    exact .inl (List.mem_replicate.mpr ⟨hk, rfl⟩)
  · right
    cases rest with
    | nil => cases h
    | cons t rest =>
      by_cases ht : t = Token.closingParen
      · simp only [List.headD_cons, ht, decide_true, Paren.when_true, List.mem_singleton] at h
        rw [h, ht]
        exact List.mem_cons_self
      · simp [ht] at h

theorem OddParens.mem {mode : Mode} {ts : List Token} {missing : Paren}
    (h : OddParens mode ts missing) : missing.other.token ∈ ts := by
  obtain ⟨k, x, dropped, rest, rfl, -, -, -, group, hgroup, hlast⟩ := h
  have hmem := List.mem_of_getLast? hlast
  have hgroup := List.mem_of_find?_eq_some hgroup
  simp only [List.mem_append]
  rcases List.mem_cons.mp hgroup with rfl | hgroup
  · exact .inl (.inr (.inl (Chain.mem_tokens_of_parenWord hmem)))
  · obtain rfl := List.mem_singleton.mp hgroup
    rcases mem_of_mem_outerWord hmem with h | h
    · exact .inl (.inl h)
    · exact .inr h

theorem tokensTree_unbalanced_iff {mode : Mode} {ts : List Token} {missing : Paren} :
    tokensTree mode ts = .error (.unbalancedParens missing) ↔ OddParens mode ts missing := by
  rw [tokensTree_error_iff]
  by_cases hts : ts = []
  · subst hts
    apply iff_of_false
    · intro h
      cases h
    · intro h
      cases h.mem
  · rw [Parse.parse_error_iff hts, ← Parse.expression_unbalanced_iff]
    refine or_iff_left ?_
    rintro ⟨x, d, -, -, -, h⟩
    cases h

theorem queryTree_parse_error_iff {mode : Mode} {query : String} {e : ParseError} :
    queryTree mode query = .error (.parse e) ↔
      ∃ ts, tokenize mode query = .ok ts ∧ tokensTree mode ts = .error e := by
  rw [queryTree_eq]
  cases tokenize mode query with
  | error e' => simp [Except.mapError, Except.bind]
  | ok ts =>
    change (tokensTree mode ts).mapError QueryError.parse = _ ↔ _
    cases htree : tokensTree mode ts <;> simp [Except.mapError, htree]

/-- A query fails for its parentheses if the first of the two groups that is odd ends in one opposite
to the one that is named. So if it has parentheses of one side only, the other one is named. -/
theorem queryTree_unbalanced_iff (mode : Mode) (query : String) (missing : Paren) :
    (queryTree mode query = .error (.parse (.unbalancedParens missing)) ↔
      ∃ ts, tokenize mode query = .ok ts ∧ OddParens mode ts missing) ∧
    ∀ ts side, queryTree mode query = .error (.parse (.unbalancedParens missing)) →
      tokenize mode query = .ok ts → side.token ∉ ts → missing = side := by
  have hiff : queryTree mode query = .error (.parse (.unbalancedParens missing)) ↔
      ∃ ts, tokenize mode query = .ok ts ∧ OddParens mode ts missing := by
    simp only [queryTree_parse_error_iff, tokensTree_unbalanced_iff]
  refine ⟨hiff, fun ts side htree hscan hside => ?_⟩
  obtain ⟨ts', hscan', hodd⟩ := hiff.mp htree
  cases hscan.symm.trans hscan'
  have hmem := hodd.mem
  cases missing <;> cases side <;> first | rfl | exact absurd hmem hside

/-- Parentheses that nest, of which only one is read as the end of the wrappers, and some that all
open. -/
theorem unbalanced_of_wrappers :
    (∃ ts, tokenize .strict "(((a eq: 1)))" = .ok ts ∧ OddParens .strict ts .opening) ∧
    ∃ ts missing, tokenize .lenient "((a eq: 1" = .ok ts ∧ Paren.closing.token ∉ ts ∧
      queryTree .lenient "((a eq: 1" = .error (.parse (.unbalancedParens missing)) ∧
      missing = .closing := by
  have hopen : queryTree .lenient "((a eq: 1" = .error (.parse (.unbalancedParens .closing)) := by
    cbv
  have hscan : ∃ ts, tokenize .lenient "((a eq: 1" = .ok ts ∧ Paren.closing.token ∉ ts :=
    ⟨_, by cbv, by decide⟩
  obtain ⟨ts, hscan, hside⟩ := hscan
  exact ⟨(queryTree_unbalanced_iff _ _ _).1.mp (by cbv), ts, .closing, hscan, hside, hopen,
    (queryTree_unbalanced_iff _ _ _).2 ts .closing hopen hscan hside⟩

end FilterQuery
