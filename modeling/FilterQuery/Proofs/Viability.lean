import FilterQuery.Query
import FilterQuery.Proofs.ChainAppend
import FilterQuery.Proofs.Failing
import FilterQuery.Proofs.Lexeme
import FilterQuery.Proofs.ListFault
/-!
# Where a strict parser fails

A strict parser fails at the first token behind which nothing that it accepts can follow, and the
tokens before that one can be completed. Each production blames such a token or the end of the
input; parentheses are no obstacle, as one more segment makes their numbers even.
-/
namespace FilterQuery

/-- The strict parser accepts the token list. -/
def Accepted (ts : List Token) : Prop := ∃ t, tokensTree .strict ts = .ok t

/-- Some token list that starts with `ts` is accepted. -/
def Viable (ts : List Token) : Prop := ∃ more, Accepted (ts ++ more)

theorem accepted_iff {ts : List Token} :
    Accepted ts ↔ ∃ e : Expression, e.Proper ∧ e.tokens = ts := by
  simp only [Accepted, tokensTree_ok_iff, parse_strict_iff]
  constructor
  · rintro ⟨t, e, h, -⟩
    exact ⟨e, h⟩
  · rintro ⟨e, h⟩
    exact ⟨_, e, h, rfl⟩

/-- The tokens of what a filter says behind its key. -/
def ComparisonTokens (ts : List Token) : Prop :=
  ∃ x : Comparison, x.Shaped [] ∧ x.Full ∧ x.tokens = ts

def FilterTokens (ts : List Token) : Prop := ∃ f : Filter, f.Shaped [] ∧ f.Full ∧ f.tokens = ts

/-- The tokens of a chain whose first segment opens if `opening`. -/
def ChainTokens (opening : Bool) (ts : List Token) : Prop :=
  ∃ x : Chain, (∀ s ∈ x.segments, s.filter.Shaped [] ∧ s.filter.Full) ∧
    x.first.opening = opening ∧ x.tokens = ts

namespace Parse

variable {α β : Type}

/-- Whatever stands behind `taken` and `t`, the production fails. -/
def Refuses (p : Cursor → Parsed α) (taken : List Token) (t : Token) : Prop :=
  ∀ c rest, c.rest = taken ++ t :: rest → ∃ e, (p c).result = .error e

/-- The error of a production on `ts` blames a token that it refuses, or the end of the input; the
tokens before begin a phrase. An open list fails at the end of the input whatever is in it. -/
def Blames (p : Cursor → Parsed α) (Phrase : List Token → Prop) (ts : List Token) :
    ParseError → Prop
  | .unexpectedToken _ found => ∃ taken t rest, ts = taken ++ t :: rest ∧ t.text = found ∧
      Refuses p taken t ∧ ∃ more, Phrase (taken ++ more)
  | .unexpectedEnd expected => expected ≠ .listClosing → ∃ taken rest, ts = taken ++ rest ∧
      (∀ t ∈ taken, t.isEof = false) ∧ (rest.headD Token.eof).isEof ∧
      ∃ more, Phrase (taken ++ more)
  | _ => False

theorem Blames.behind {p : Cursor → Parsed α} {q : Cursor → Parsed β} {P Q : List Token → Prop}
    {ts : List Token} {e : ParseError} (h : Blames q Q ts e) (before : List Token)
    (hbefore : ∀ t ∈ before, t.isEof = false)
    (hphrase : ∀ us, Q us → ∃ more, P (before ++ us ++ more))
    (hstep : ∀ c d e, c.Passes before d → d.current = ts.headD Token.eof →
      (q d).result = .error e → (p c).result = .error e) :
    Blames p P (before ++ ts) e := by
  cases e with
  | unexpectedToken expected found =>
    obtain ⟨taken, t, rest, rfl, htext, hrefuses, more, hmore⟩ := h
    obtain ⟨more', hmore'⟩ := hphrase _ hmore
    refine ⟨before ++ taken, t, rest, by simp, htext, fun c rest' hc => ?_, more ++ more', ?_⟩
    · let d : Cursor := ⟨c.position + before.length, taken ++ t :: rest'⟩
      have hpasses : c.Passes before d := ⟨by simpa using hc, rfl⟩
      obtain ⟨e, he⟩ := hrefuses d rest' rfl
      refine ⟨e, hstep c d e hpasses ?_ he⟩
      cases taken <;> rfl
    · simpa using hmore'
  | unexpectedEnd expected =>
    intro hne
    obtain ⟨taken, rest, rfl, htaken, hrest, more, hmore⟩ := h hne
    obtain ⟨more', hmore'⟩ := hphrase _ hmore
    refine ⟨before ++ taken, rest, by simp, ?_, hrest, more ++ more', by simpa using hmore'⟩
    exact List.forall_mem_append.mpr ⟨hbefore, htaken⟩
  | emptyInput => exact h
  | unbalancedParens missing => exact h
  | trailingInput found => exact h

section
variable {Phrase : List Token → Prop} {us : List Token} {c : Cursor} {e : ParseError}

theorem blames_single {expected : Construct} {read : Token → Option α} (hphrase : Phrase us)
    (h : (single .strict expected read c).result = .error e) :
    Blames (single .strict expected read) Phrase c.rest e := by
  unfold single at h
  split at h
  · rename_i hc
    cases h
    exact fun _ => ⟨[], c.rest, rfl, by simp, hc, us, hphrase⟩
  · rename_i hc
    have hc : c.current.isEof = false := by simpa using hc
    split at h
    · cases h
    · rename_i hnone
      cases h
      refine ⟨[], c.current, c.rest.tail, Cursor.rest_of_current_ne_eof hc, rfl,
        fun d rest hd => ⟨.unexpectedToken expected c.current.text, ?_⟩, us, hphrase⟩
      have hcurrent : d.current = c.current := Cursor.current_of_rest hd
      rw [single, hcurrent, if_neg (by simp [hc]), hnone]
      rfl

theorem blames_terminal {kind : TokenKind} {expected : Construct} (hphrase : Phrase us)
    (h : (terminal .strict kind expected c).result = .error e) :
    Blames (terminal .strict kind expected) Phrase c.rest e := by
  have hsingle := funext (terminal_eq_single .strict kind expected)
  rw [hsingle] at h ⊢
  exact blames_single hphrase h

theorem blames_comparator (hphrase : Phrase us) (h : (comparator .strict c).result = .error e) :
    Blames (comparator .strict) Phrase c.rest e := by
  have hsingle := funext (comparator_eq_single .strict)
  rw [hsingle] at h ⊢
  exact blames_single hphrase h

theorem blames_list (h : (list .strict c).result = .error e) :
    Blames (list .strict) (IsListIn .strict) c.rest e := by
  rcases list_error h with rfl | ⟨expected, found, ts, rest, rfl, hrest, hbreaks⟩
  · exact fun hne => absurd rfl hne
  · obtain ⟨taken, t, others, rfl, htext, hinside, hmore, hdead⟩ := hbreaks
    refine ⟨taken, t, others ++ rest, by simpa using hrest, htext, fun d rest' hd => ?_, hmore⟩
    cases hresult : (list .strict d).result with
    | error e => exact ⟨e, rfl⟩
    | ok r =>
      obtain ⟨list?, d'⟩ := r
      cases list? with
      | none => cases (list_none_iff.mp hresult).1
      | some us =>
        obtain ⟨⟨hpasses, -⟩, hlist⟩ := list_some_iff.mp hresult
        rw [hd] at hpasses
        -- a list that was read would end within the tokens of `taken` or go on behind `t`
        rcases List.append_eq_append_iff.mp hpasses with ⟨more, rfl, hsplit⟩ | ⟨more, rfl, -⟩
        · cases more with
          | nil => exact absurd (by simpa using hinside) hlist.1.exists_closing
          | cons s more =>
            cases hsplit
            exact absurd hlist (hdead more)
        · exact absurd (List.forall_mem_append.mp hinside).1 hlist.1.exists_closing

theorem comparisonTokens_scalar (op : Comparator) :
    ComparisonTokens [op.token, .literal "1"] :=
  ⟨.scalar (some op) (some "1"), ⟨by simp, rfl⟩, ⟨rfl, rfl⟩, rfl⟩

theorem blames_comparison (h : (comparison .strict c).result = .error e) :
    Blames (comparison .strict) ComparisonTokens c.rest e := by
  by_cases hc : c.current = Token.inOperator
  · have hrest := ((Cursor.passes_singleton rfl).mpr ⟨hc, rfl⟩).1
    rw [hrest]
    refine (blames_list ((comparison_list_error_iff hc).mp h)).behind [Token.inOperator]
      (List.forall_mem_singleton.mpr rfl) ?_ ?_
    · rintro us ⟨hus, hodd⟩
      exact ⟨[], .membership (some us), ⟨hus, rfl⟩, ⟨us, rfl, hodd rfl⟩, by simp [Comparison.tokens]⟩
    · intro d d' e hpasses _ he
      obtain ⟨hd, rfl⟩ := (Cursor.passes_singleton rfl).mp hpasses
      exact (comparison_list_error_iff hd).mpr he
  · rcases (comparison_scalar_error_iff hc).mp h with h | ⟨op?, d, hop, h⟩
    · refine (blames_comparator (comparisonTokens_scalar .eq) h).behind []
        (List.forall_mem_nil _) (fun us hus => ⟨[], by simpa using hus⟩) ?_
      intro d d' e hpasses hcurrent he
      obtain rfl := Cursor.passes_nil.mp hpasses
      exact (comparison_scalar_error_iff (by rwa [hcurrent])).mpr (.inl he)
    · obtain ⟨hpasses, -, hsome⟩ := comparator_ok_iff.mp hop
      obtain ⟨op, rfl⟩ := Option.isSome_iff_exists.mp (hsome rfl)
      have hop (op : Comparator) : op.token ≠ Token.inOperator := by cases op <;> decide
      rw [hpasses.1]
      have hoperand : Blames (terminal .strict .literal .literal) (· = [.literal "1"]) d.rest e :=
        blames_terminal rfl h
      refine hoperand.behind [op.token] (List.forall_mem_singleton.mpr rfl) ?_ ?_
      · rintro us rfl
        exact ⟨[], comparisonTokens_scalar op⟩
      · intro d d' e hpasses _ he
        have hd : d.current ≠ Token.inOperator := by
          rw [hpasses.current_eq]
          exact hop op
        exact (comparison_scalar_error_iff hd).mpr
          (.inr ⟨some op, d', comparator_ok_iff.mpr ⟨hpasses, by simp, by simp⟩, he⟩)

theorem blames_filter (h : (filter .strict c).result = .error e) :
    Blames (filter .strict) FilterTokens c.rest e := by
  have hsample : FilterTokens [.identifier "a", Comparator.eq.token, .literal "1"] :=
    ⟨⟨some "a", .scalar (some .eq) (some "1")⟩, ⟨by simp, by simp, rfl⟩, ⟨rfl, rfl, rfl⟩, rfl⟩
  rcases filter_error_iff.mp h with h | ⟨key?, d, hkey, h⟩
  · refine (blames_terminal hsample h).behind [] (List.forall_mem_nil _)
      (fun us hus => ⟨[], by simpa using hus⟩) ?_
    intro d d' e hpasses _ he
    obtain rfl := Cursor.passes_nil.mp hpasses
    exact filter_error_iff.mpr (.inl he)
  · obtain ⟨hpasses, -, hsome⟩ := (terminal_ok_iff (by decide)).mp hkey
    obtain ⟨key, rfl⟩ := Option.isSome_iff_exists.mp (hsome rfl)
    rw [hpasses.1]
    refine (blames_comparison h).behind [Token.identifier key] (List.forall_mem_singleton.mpr rfl)
      ?_ ?_
    · rintro us ⟨x, hshaped, hfull, rfl⟩
      exact ⟨[], ⟨some key, x⟩, ⟨by simp, hshaped⟩, ⟨rfl, hfull⟩, by simp [Filter.tokens]⟩
    · intro d d' e hpasses _ he
      have hkey : (terminal .strict .identifier .identifier d).result = .ok (some key, d') :=
        (terminal_ok_iff (by decide)).mpr ⟨hpasses, by simp, by simp⟩
      exact filter_error_iff.mpr (.inr ⟨some key, d', hkey, he⟩)

/-- The tokens of a segment that opens if `opening`. -/
def SegmentTokens (opening : Bool) (ts : List Token) : Prop :=
  ∃ s : Segment, s.filter.Shaped [] ∧ s.filter.Full ∧ s.opening = opening ∧ s.tokens = ts

theorem blames_segment {b : Balance} (h : (segment .strict b c).result = .error e) :
    Blames (segment .strict b) (SegmentTokens (c.current = Token.openingParen)) c.rest e := by
  obtain ⟨opening, b', c', hparen⟩ : ∃ opening b' c', paren .opening b c = (opening, b', c') :=
    ⟨_, _, _, rfl⟩
  obtain ⟨hpasses, -, hcurrent⟩ := paren_eq_iff.mp hparen
  have hopening : opening = decide (c.current = Token.openingParen) := by
    cases opening with
    | false => exact (decide_eq_false (hcurrent rfl)).symm
    | true => exact (decide_eq_true hpasses.current_eq).symm
  rw [segment_error_iff, hparen] at h
  rw [hpasses.1]
  refine (blames_filter h).behind _ ?_ ?_ ?_
  · rw [List.forall_mem_map]
    exact fun p _ => p.token_isEof
  · rintro us ⟨f, hshaped, hfull, rfl⟩
    refine ⟨[], ⟨opening, f, false⟩, hshaped, hfull, hopening, ?_⟩
    rw [Segment.tokens_eq]
    simp
  · intro d d' e hpasses' hcurrent' he
    have hparen' : paren .opening b d = (opening, b.after (Paren.opening.when opening), d') := by
      refine paren_eq_iff.mpr ⟨hpasses', rfl, fun hclosed => ?_⟩
      subst hclosed
      obtain rfl := Cursor.passes_nil.mp hpasses
      obtain rfl := Cursor.passes_nil.mp hpasses'
      rw [hcurrent']
      exact hcurrent rfl
    rw [segment_error_iff, hparen']
    exact he

theorem segment_tokens_ne_eof {mode : Mode} {b b' : Balance} {d : Cursor} {s : Segment}
    (h : (segment mode b c).result = .ok (s, b', d)) (hpasses : c.Passes s.tokens d) :
    ∀ t ∈ s.tokens, t.isEof = false := by
  obtain ⟨taken, hrest, -, htaken⟩ := reaches_segment h
  rw [hpasses.1] at hrest
  rwa [List.append_cancel_right hrest]

theorem blames_segments {b : Balance} (h : (segments .strict b c).result = .error e) :
    Blames (segments .strict b) (ChainTokens (c.current = Token.openingParen)) c.rest e := by
  fun_induction segments .strict b c with
  | case1 b c step e' hsegment =>
    cases h
    refine (blames_segment hsegment).behind [] (List.forall_mem_nil _) ?_ ?_
    · rintro us ⟨s, hshaped, hfull, hopening, rfl⟩
      refine ⟨[], ⟨[], s⟩, ?_, hopening, by simp [Chain.tokens]⟩
      simpa [Chain.segments] using ⟨hshaped, hfull⟩
    · intro d d' e hpasses _ he
      obtain rfl := Cursor.passes_nil.mp hpasses
      rw [segments_of_error he]
  | case2 b c step s b₁ c₁ hsegment hc₁ tail ih =>
    have htail : tail.result = .error e := by
      cases htail : tail.result with
      | error e' => simpa [htail, Except.map] using h
      | ok r => simp [htail, Except.map] at h
    obtain ⟨dropped, hpasses, ⟨hshaped, -⟩, hb₁, hfull⟩ := segment_ok_iff.mp hsegment
    obtain rfl := hshaped.dropped_eq_nil (hfull rfl).whole
    rw [List.append_nil] at hpasses
    have hopening : s.opening = decide (c.current = Token.openingParen) := by
      rw [Bool.eq_iff_iff, decide_eq_true_iff]
      exact (segment_current hsegment).1.symm
    let operator := Token.logical c₁.current.text
    have hoperator : c₁.current = operator := by simp only [operator, Token.logical, ← hc₁]
    have hbefore : c.Passes (s.tokens ++ [operator]) c₁.advance :=
      Cursor.passes_append.mpr ⟨c₁, hpasses, (Cursor.passes_singleton rfl).mpr ⟨hoperator, rfl⟩⟩
    rw [hbefore.1]
    refine (ih htail).behind _ ?_ ?_ ?_
    · exact List.forall_mem_append.mpr
        ⟨segment_tokens_ne_eof hsegment hpasses, List.forall_mem_singleton.mpr rfl⟩
    · rintro us ⟨x, hx, -, rfl⟩
      refine ⟨[], x.cons s c₁.current.text, ?_, hopening, by simp [operator]⟩
      exact List.forall_mem_cons.mpr ⟨⟨hshaped, hfull rfl⟩, hx⟩
    · intro d d' e hd _ he
      obtain ⟨d₁, hd, hd'⟩ := Cursor.passes_append.mp hd
      obtain ⟨hd₁, rfl⟩ := (Cursor.passes_singleton rfl).mp hd'
      have hsegment' : (segment .strict b d).result = .ok (s, b₁, d₁) := by
        refine segment_ok_iff.mpr ⟨[], by rwa [List.append_nil],
          ⟨hshaped, .inl (hfull rfl).whole, fun _ => ?_⟩, hb₁, hfull⟩
        rw [hd₁]
        simp [operator, Token.logical, Token.closingParen, Token.separator]
      rw [segments_of_link hsegment' (by rw [hd₁]; rfl), he]
      rfl
  | case3 b c step s b₁ c₁ hsegment hc₁ => cases h

end

end Parse

theorem viable_of_chainTokens {k : Nat} {opening : Bool} {ts : List Token}
    (h : ChainTokens opening ts) (hk : 0 < k → opening) :
    Viable (List.replicate k Token.openingParen ++ ts) := by
  obtain ⟨x, hx, rfl, rfl⟩ := h
  let filler : Segment :=
    ⟨x.parens % 2 = 0, ⟨some "a", .scalar (some .eq) (some "1")⟩, true⟩
  let e : Expression := ⟨k, x.append "&&" ⟨[], filler⟩, k % 2 = 1⟩
  have hfiller : filler.filter.Shaped [] ∧ filler.filter.Full :=
    ⟨⟨by simp [filler], by simp, rfl⟩, rfl, rfl, rfl⟩
  have hparens : e.chain.parens % 2 = 0 := by
    have hlast : (Chain.mk [] filler).parens = (decide (x.parens % 2 = 0)).toNat + 1 := rfl
    rw [Chain.parens_append, hlast]
    by_cases hx : x.parens % 2 = 0
    · rw [decide_eq_true hx, Bool.toNat_true]
      omega
    · rw [decide_eq_false hx, Bool.toNat_false]
      omega
  have hwrappers : (e.wrappers + e.closing.toNat) % 2 = 0 := by
    change (k + (decide (k % 2 = 1)).toNat) % 2 = 0
    by_cases hodd : k % 2 = 1
    · rw [decide_eq_true hodd, Bool.toNat_true]
      omega
    · rw [decide_eq_false hodd, Bool.toNat_false]
      omega
  have hsegments : ∀ s ∈ e.chain.segments, s.filter.Shaped [] ∧ s.filter.Full := by
    rw [Chain.segments_append, List.forall_mem_append]
    exact ⟨hx, List.forall_mem_singleton.mpr hfiller⟩
  have hproper : e.Proper := by
    refine ⟨hsegments, ?_, fun _ => rfl, hwrappers, hparens⟩
    rw [Chain.first_append]
    exact hk
  refine ⟨Token.logical "&&" :: (Chain.mk [] filler).tokens ++ e.closings,
    accepted_iff.mpr ⟨e, hproper, ?_⟩⟩
  change e.openings ++ e.chain.tokens ++ e.closings = _
  rw [Chain.tokens_append]
  simp [Expression.openings, e]

namespace Parse

theorem not_refuses_openingParen : ¬ Refuses (segments .strict .empty) [] Token.openingParen := by
  intro h
  let ts := [Token.openingParen, .identifier "a", Comparator.eq.token, .literal "1"]
  have hread : ∃ r, (segments .strict .empty (.start ts)).result = .ok r := ⟨_, by cbv⟩
  obtain ⟨r, hr⟩ := hread
  obtain ⟨e, he⟩ := h (.start ts) _ rfl
  cases hr.symm.trans he

theorem wrappers_two {c d : Cursor} {taken rest rest' : List Token} {t : Token}
    (hc : c.rest = taken ++ t :: rest) (hd : d.rest = taken ++ t :: rest')
    (ht : taken = [] → t ≠ Token.openingParen)
    (htwo : ¬ (c.current = Token.openingParen ∧ c.nextIsOpeningParen)) :
    ¬ (d.current = Token.openingParen ∧ d.nextIsOpeningParen) := by
  rintro ⟨hcurrent, hnext⟩
  rw [Cursor.current, hd] at hcurrent
  rw [Cursor.nextIsOpeningParen, hd] at hnext
  rw [Cursor.current, Cursor.nextIsOpeningParen, hc] at htwo
  cases taken with
  | nil => exact ht rfl hcurrent
  | cons s taken =>
    refine htwo ⟨hcurrent, ?_⟩
    cases taken with
    | nil => exact hnext
    | cons s' taken => exact hnext

theorem blames_expression {c : Cursor} {e : ParseError}
    (h : (expression .strict c).result = .error e) (hparens : ∀ side, e ≠ .unbalancedParens side) :
    Blames (expression .strict) Accepted c.rest e := by
  have hcheck (b : Balance) : b.check ≠ .error e := by
    unfold Balance.check
    split
    · exact fun h => by cases h
    · exact fun h => hparens _ (Except.error.inj h).symm
  have hchain : (chain .strict (wrappers .empty c).2).result = .error e :=
    (expression_error_iff.mp h).resolve_right fun ⟨x, d, _, hb⟩ => hcheck _ hb
  have hsegments : (segments .strict .empty (wrappers .empty c).2).result = .error e :=
    (chain_error_iff.mp hchain).resolve_right fun ⟨x, b, d, _, hb⟩ => hcheck _ hb
  obtain ⟨n, hpasses, hb, hcurrent, htwo⟩ := wrappers_eq_iff.mp (rfl : wrappers .empty c = _)
  have hblames := blames_segments hsegments
  generalize (wrappers .empty c).2 = c₁ at *
  have hviable {taken : List Token}
      (hmore : ∃ more, ChainTokens (c₁.current = Token.openingParen) (taken ++ more)) :
      Viable (List.replicate n Token.openingParen ++ taken) := by
    obtain ⟨more, hmore⟩ := hmore
    obtain ⟨more', hmore'⟩ := viable_of_chainTokens hmore fun hn => decide_eq_true (hcurrent hn)
    exact ⟨more ++ more', by simpa using hmore'⟩
  rw [hpasses.1]
  cases e with
  | unexpectedToken expected found =>
    obtain ⟨taken, t, rest, hrest, htext, hrefuses, hmore⟩ := hblames
    refine ⟨_ ++ taken, t, rest, by simp [hrest], htext, fun d rest' hd => ?_, hviable hmore⟩
    let d₁ : Cursor := ⟨d.position + n, taken ++ t :: rest'⟩
    have hd₁ : d.Passes (List.replicate n Token.openingParen) d₁ :=
      ⟨by simpa using hd, by simp [d₁]⟩
    have hsame : d₁.current = c₁.current := by
      rw [Cursor.current, Cursor.current, hrest]
      cases taken <;> rfl
    have ht : taken = [] → t ≠ Token.openingParen := by
      rintro rfl rfl
      exact not_refuses_openingParen hrefuses
    have hwrappers : wrappers .empty d =
        (Balance.empty.after (List.replicate n .opening), d₁) :=
      wrappers_eq_iff.mpr
        ⟨n, hd₁, rfl, fun hn => hsame.trans (hcurrent hn), wrappers_two hrest rfl ht htwo⟩
    obtain ⟨e, he⟩ := hrefuses d₁ rest' rfl
    refine ⟨e, expression_error_iff.mpr (.inl ?_)⟩
    rw [hwrappers]
    exact chain_error_iff.mpr (.inl he)
  | unexpectedEnd expected =>
    intro hne
    obtain ⟨taken, rest, hrest, htaken, heof, hmore⟩ := hblames hne
    refine ⟨_ ++ taken, rest, by simp [hrest], ?_, heof, hviable hmore⟩
    rw [List.forall_mem_append]
    refine ⟨fun t ht => ?_, htaken⟩
    rw [List.eq_of_mem_replicate ht]
    rfl
  | emptyInput => exact hblames
  | unbalancedParens missing => exact hblames
  | trailingInput found => exact hblames

end Parse

theorem not_accepted_nil : ¬ Accepted [] := by
  rintro ⟨t, h⟩
  cases h

theorem not_viable_of_refuses {taken : List Token} {t : Token}
    (h : Parse.Refuses (Parse.expression .strict) taken t) : ¬ Viable (taken ++ [t]) := by
  rintro ⟨more, tree, htree⟩
  obtain ⟨e, he, -⟩ := tokensTree_ok_iff.mp htree
  obtain ⟨-, d, he, -⟩ := Parse.parse_bind_iff.mp he
  obtain ⟨e', he'⟩ := h (.start (taken ++ [t] ++ more)) more (by simp [Cursor.start])
  cases he.symm.trans he'

theorem accepted_of_expression {e : Expression} {c d : Cursor} {t : Token} {rest : List Token}
    (h : (Parse.expression .strict c).result = .ok (e, d)) (hd : d.rest = t :: rest) :
    Accepted e.tokens ∧ ¬ Viable (e.tokens ++ [t]) := by
  obtain ⟨hpasses, hproper, hnext⟩ := expression_strict_iff.mp h
  rw [Cursor.current_of_rest hd] at hnext
  refine ⟨accepted_iff.mpr ⟨e, hproper, rfl⟩, ?_⟩
  rintro ⟨more, tree, htree⟩
  obtain ⟨e', he', -⟩ := tokensTree_ok_iff.mp htree
  obtain ⟨-, d', he', hend⟩ := Parse.parse_bind_iff.mp he'
  let d₁ : Cursor := ⟨e.tokens.length, t :: more⟩
  have hread : (Parse.expression .strict (.start (e.tokens ++ [t] ++ more))).result = .ok (e, d₁) :=
    expression_strict_iff.mpr ⟨⟨by simp [Cursor.start, d₁], by simp [Cursor.start, d₁]⟩, hproper,
      hnext⟩
  obtain ⟨-, rfl⟩ := Prod.mk.inj (Except.ok.inj (he'.symm.trans hread))
  cases hend rfl

/-- The kinds of errors of a strict parser, and what it had read. -/
theorem tokensTree_strict_error_cases {ts : List Token} {e : ParseError}
    (h : tokensTree .strict ts = .error e) :
    e = .emptyInput ∨ (∃ side, e = .unbalancedParens side) ∨
      Parse.Blames (Parse.expression .strict) Accepted ts e ∨
      ∃ x d t rest, (Parse.expression .strict (.start ts)).result = .ok (x, d) ∧
        d.rest = t :: rest ∧ e = .trailingInput t.text := by
  rw [tokensTree_error_iff] at h
  by_cases hts : ts = []
  · subst hts
    cases h
    exact .inl rfl
  · rcases (Parse.parse_error_iff hts).mp h with h | ⟨x, d, hx, -, hd, rfl⟩
    · by_cases hparens : ∃ side, e = .unbalancedParens side
      · exact .inr (.inl hparens)
      · exact .inr (.inr (.inl (Parse.blames_expression h (not_exists.mp hparens))))
    · obtain ⟨t, rest, hrest⟩ := List.exists_cons_of_ne_nil hd
      rw [Cursor.current_of_rest hrest]
      exact .inr (.inr (.inr ⟨x, d, t, rest, hx, hrest, rfl⟩))

/-- A strict parser names the first token behind which nothing that it accepts can follow, or the
end of tokens that can be completed. -/
theorem tokensTree_strict_error (ts : List Token) :
    (∀ expected found, tokensTree .strict ts = .error (.unexpectedToken expected found) →
      ∃ i t, ts[i]? = some t ∧ t.text = found ∧ Viable (ts.take i) ∧ ¬ Viable (ts.take (i + 1))) ∧
    (∀ found, tokensTree .strict ts = .error (.trailingInput found) →
      ∃ i t, 1 ≤ i ∧ ts[i]? = some t ∧ t.text = found ∧ Accepted (ts.take i) ∧
        ¬ Viable (ts.take (i + 1))) ∧
    ∀ expected, expected ≠ .listClosing →
      tokensTree .strict ts = .error (.unexpectedEnd expected) →
      Viable (ts.takeWhile (!·.isEof)) := by
  have htake (taken : List Token) (t : Token) (rest : List Token) :
      (taken ++ t :: rest).take (taken.length + 1) = taken ++ [t] := by
    rw [List.append_cons]
    exact List.take_left' (by simp)
  refine ⟨fun expected found h => ?_, fun found h => ?_, fun expected hne h => ?_⟩
  · rcases tokensTree_strict_error_cases h with h | ⟨side, h⟩ | hblames | ⟨_, _, _, _, _, _, h⟩
    · cases h
    · cases h
    · obtain ⟨taken, t, rest, rfl, htext, hrefuses, hviable⟩ := hblames
      refine ⟨taken.length, t, by simp, htext, ?_, ?_⟩
      · rw [List.take_left]
        exact hviable
      · rw [htake]
        exact not_viable_of_refuses hrefuses
    · cases h
  · rcases tokensTree_strict_error_cases h with h | ⟨side, h⟩ | hblames | ⟨x, d, t, rest, hx, hd, h⟩
    · cases h
    · cases h
    · exact hblames.elim
    · cases h
      obtain ⟨haccepted, hdead⟩ := accepted_of_expression hx hd
      have hts : ts = x.tokens ++ t :: rest := by
        rw [← hd]
        exact (expression_strict_iff.mp hx).1.1
      have hpos : 1 ≤ x.tokens.length := by
        refine List.length_pos_iff.mpr fun hnil => ?_
        rw [hnil] at haccepted
        exact not_accepted_nil haccepted
      refine ⟨x.tokens.length, t, hpos, by simp [hts], rfl, ?_, ?_⟩
      · rwa [hts, List.take_left]
      · rwa [hts, htake]
  · rcases tokensTree_strict_error_cases h with h | ⟨side, h⟩ | hblames | ⟨_, _, _, _, _, _, h⟩
    · cases h
    · cases h
    · obtain ⟨taken, rest, rfl, htaken, heof, hviable⟩ := hblames hne
      have hrest : ∀ t ∈ rest.head?, ¬ (!t.isEof) := by
        intro t ht
        rw [List.headD_eq_head?_getD, Option.mem_def.mp ht] at heof
        simpa using heof
      rw [takeWhile_run (by simpa using htaken) hrest]
      exact hviable
    · cases h

theorem strict_error_of_groups :
    let group : List Token := [.openingParen, .openingParen, .identifier "a", Comparator.eq.token,
      .literal "1", .closingParen, .closingParen, .logical "&&"]
    let list : List Token := [.openingParen, .identifier "a", .inOperator, .separator "[",
      .literal "1", .separator ",", .separator "]"]
    (∃ i t, list[i]? = some t ∧ t.text = "]" ∧ Viable (list.take i) ∧
      ¬ Viable (list.take (i + 1))) ∧
    (∃ i t, 1 ≤ i ∧ group[i]? = some t ∧ t.text = "&&" ∧ Accepted (group.take i) ∧
      ¬ Viable (group.take (i + 1))) ∧
    Viable ((group.take 4).takeWhile (!·.isEof)) := by
  dsimp only
  exact ⟨(tokensTree_strict_error _).1 .literal "]" (by cbv),
    (tokensTree_strict_error _).2.1 "&&" (by cbv),
    (tokensTree_strict_error _).2.2 .literal (by decide) (by cbv)⟩

end FilterQuery
