import FilterQuery.Proofs.Records
import FilterQuery.Proofs.Warnings
/-!
# What the log of a scan accounts for

Each record of a scan is about a stretch of the text. These stretches follow one another, and what
stands between them is blank: of a text that was scanned nothing is lost without a record.
-/
namespace FilterQuery

/-- The rule that makes tokens of this kind, or of this text where two rules make tokens of one
kind. -/
def Token.rule? (t : Token) : Option Rule :=
  match t.kind with
  | .identifier => some .identifier
  | .literal => some .literal
  | .comparisonOperator => some (if t = inOperator then .inOperator else .comparisonOperator)
  | .logicalOperator => some .logicalOperator
  | .separator => some .separator
  | .assignOperator => some .assignOperator
  | .eof => none

theorem Token.Fits.rule?_eq {t : Token} {rest : List Char} (h : t.Fits rest) {rule : Rule}
    (hfirst : Rule.first? (t.text.toList ++ rest) = some rule) : t.rule? = some rule := by
  obtain ⟨rule', hfirst', hkind, -⟩ := h.first?
  cases hfirst.symm.trans hfirst'
  obtain ⟨kind, text⟩ := t
  cases kind with
  | comparisonOperator =>
    have htext : text ∈ comparisonTexts := h
    simp only [comparisonTexts, List.mem_cons, List.not_mem_nil, or_false] at htext
    rcases htext with rfl | rfl | rfl | rfl | rfl | rfl | rfl <;> cases hfirst <;> rfl
  | eof => exact h.elim
  | identifier | literal | logicalOperator | separator | assignOperator =>
    cases rule <;> first | rfl | cases hkind

namespace ScanEvent

/-- The token that a record is about. -/
def token? : ScanEvent → Option Token
  | .token _ t _ => some t
  | _ => none

/-- A record is a trace, or in the lenient mode a warning. -/
def WeighsIn (mode : Mode) (r : ScanEvent) : Prop :=
  r.severity = .trace ∨ mode = .lenient ∧ r.severity = .warn

/-- The index of the first character that a record is about. -/
def start : ScanEvent → Nat
  | .token _ t column => column - t.text.length
  | .skipped _ column => column - 1
  | .dropped column => column - 1
  | .finished characters _ => characters

/-- The index behind the last character that a record is about, in a text of the given length. -/
def stop (length : Nat) : ScanEvent → Nat
  | .token _ _ column => column
  | .skipped _ column => column
  | .dropped _ => length
  | .finished characters _ => characters

/-- Whether a record is about the character with index `i`. -/
def Covers (length i : Nat) (r : ScanEvent) : Prop := r.start ≤ i ∧ i < r.stop length

/-- No character is one that both records are about. -/
def Apart (length : Nat) (r r' : ScanEvent) : Prop :=
  ∀ i, r.Covers length i → ¬ r'.Covers length i

instance (length : Nat) : Std.Symm (Apart length) :=
  ⟨fun _ _ h i hcovers hcovers' => h i hcovers' hcovers⟩

/-- What a record says of characters of the text `cs` is so. -/
def TrueOf (cs : List Char) : ScanEvent → Prop
  | .token rule t column => t.rule? = some rule ∧ t.text.length ≤ column ∧
    (cs.take column).drop (column - t.text.length) = t.text.toList
  | .skipped ch column => 0 < column ∧ cs[column - 1]? = some ch
  | .dropped column => 0 < column ∧ cs[column - 1]? = some '"'
  | .finished .. => False

end ScanEvent

/-- The log of a scan up to its summary gives an account of the text `cs` and its tokens `ts`. -/
structure LogAccounts (mode : Mode) (cs : List Char) (ts : List Token) (rs : List ScanEvent) :
    Prop where
  weights : ∀ r ∈ rs, r.WeighsIn mode
  /-- The traces are one for each token in turn. -/
  traces : (rs.filter (·.severity = .trace)).map ScanEvent.token? = ts.map some
  /-- A trace names the rule of its token and where this ends, a warning the character that it is
  about. -/
  told : ∀ r ∈ rs, r.TrueOf cs
  /-- All records are about characters of the text. -/
  within : ∀ r ∈ rs, r.start < r.stop cs.length ∧ r.stop cs.length ≤ cs.length
  /-- What a later record is about stands further behind. -/
  ordered : rs.Pairwise fun r r' => r.stop cs.length ≤ r'.start
  /-- No two records are about one character. -/
  once : ∀ i, ∀ r ∈ rs, ∀ r' ∈ rs, r.Covers cs.length i → r'.Covers cs.length i → r = r'
  /-- A character that belongs to no token is blank, or one record says that it was skipped, or it
  stands at or behind the quote at which the last record says that the rest was dropped. -/
  outside : ∀ i c, cs[i]? = some c →
    (∀ r ∈ rs, r.severity = .trace → ¬ r.Covers cs.length i) →
    c ∈ [' ', '\r', '\n'] ∨ rs.count (.skipped c (i + 1)) = 1 ∨
      ∃ column, rs.getLast? = some (.dropped column) ∧ column ≤ i + 1

/-- The records of a scan that goes on at index `before` account for what stands from there. -/
structure Accounts (text : List Char) (before : Nat) (ts : List Token) (rs : List ScanEvent) :
    Prop where
  traces : (rs.filter (·.severity = .trace)).map ScanEvent.token? = ts.map some
  told : ∀ r ∈ rs, r.TrueOf text
  within : ∀ r ∈ rs, before ≤ r.start ∧ r.start < r.stop text.length ∧
    r.stop text.length ≤ text.length
  ordered : rs.Pairwise fun r r' => r.stop text.length ≤ r'.start
  covered : ∀ i c, before ≤ i → text[i]? = some c →
    isBlank c ∨ ∃ r ∈ rs, r.Covers text.length i

section
variable {text : List Char} {before : Nat} {ts : List Token} {rs : List ScanEvent}

theorem accounts_nil (text : List Char) : Accounts text text.length [] [] where
  traces := rfl
  told := List.forall_mem_nil _
  within := List.forall_mem_nil _
  ordered := List.Pairwise.nil
  covered := by
    intro i c hi hc
    rw [List.getElem?_eq_none hi] at hc
    cases hc

theorem Accounts.blank {c : Char} (h : Accounts text (before + 1) ts rs)
    (hget : text[before]? = some c) (hc : isBlank c) : Accounts text before ts rs where
  traces := h.traces
  told := h.told
  within r hr := (h.within r hr).imp_left (Nat.le_of_succ_le ·)
  ordered := h.ordered
  covered i d hi hd := by
    rcases Nat.eq_or_lt_of_le hi with rfl | hlt
    · cases hget.symm.trans hd
      exact .inl hc
    · exact h.covered i d hlt hd

theorem Accounts.cons {r : ScanEvent} {next : Nat} (h : Accounts text next ts rs)
    (hstart : r.start = before) (hstop : r.stop text.length = next) (hlt : before < next)
    (hnext : next ≤ text.length) (htold : r.TrueOf text) :
    Accounts text before (r.token?.toList ++ ts) (r :: rs) where
  traces := by
    cases r with
    | token rule t column => exact congrArg (some t :: ·) h.traces
    | skipped | dropped | finished => exact h.traces
  told := List.forall_mem_cons.mpr ⟨htold, h.told⟩
  within := by
    refine List.forall_mem_cons.mpr ⟨⟨hstart.ge, ?_, ?_⟩, fun r' hr' => ?_⟩
    · rwa [hstart, hstop]
    · rwa [hstop]
    · exact (h.within r' hr').imp_left hlt.le.trans
  ordered := by
    refine List.pairwise_cons.mpr ⟨fun r' hr' => ?_, h.ordered⟩
    rw [hstop]
    exact (h.within r' hr').1
  covered i c hi hc := by
    by_cases hlt : i < next
    · exact .inr ⟨r, List.mem_cons_self, hstart.trans_le hi, hlt.trans_eq hstop.symm⟩
    · refine (h.covered i c (not_lt.mp hlt) hc).imp_right ?_
      rintro ⟨r', hr', hcovers⟩
      exact ⟨r', List.mem_cons_of_mem r hr', hcovers⟩

end

theorem read_lexeme {rule : Rule} {t : Token} (h : rule.kind = t.kind) (mode : Mode) (before : Nat) :
    (Piece.lexeme rule t.text.toList).read mode before =
      ⟨[.token rule t (before + t.text.length)], .ok (some t)⟩ := by
  rw [Piece.read, h, String.ofList_toList, String.length_toList]
  rfl

theorem read_unclosed_ok {mode : Mode} {cs : List Char} {before : Nat} {token? : Option Token}
    (h : ((Piece.unclosed cs).read mode before).result = .ok token?) :
    token? = none ∧ ((Piece.unclosed cs).read mode before).log = [.dropped (before + 1)] := by
  rw [Piece.read] at h ⊢
  split at h
  · cases h
  · rename_i hmode
    cases h
    rw [if_neg hmode]
    exact ⟨rfl, rfl⟩

theorem trueOf_token {t : Token} {rest : List Char} (h : t.Fits rest) {rule : Rule}
    (hfirst : Rule.first? (t.text.toList ++ rest) = some rule) (done : List Char) :
    (ScanEvent.token rule t (done.length + t.text.length)).TrueOf
      (done ++ (t.text.toList ++ rest)) := by
  refine ⟨h.rule?_eq hfirst, Nat.le_add_left _ _, ?_⟩
  rw [← String.length_toList, ← List.append_assoc, ← List.length_append, List.take_left,
    List.length_append, Nat.add_sub_cancel, List.drop_left]

/-- A scan that starts behind `done` accounts for all that stands there. -/
theorem accounts_readPieces {mode : Mode} {text : List Char} {before : Nat} {ts : List Token}
    (done cs : List Char) (htext : text = done ++ cs) (hbefore : before = done.length)
    (h : (readPieces mode before (Piece.split cs)).result = .ok ts) :
    Accounts text before ts (readPieces mode before (Piece.split cs)).log := by
  induction cs using Piece.text_induction generalizing done before ts with
  | nil =>
    rw [Piece.split_nil] at h ⊢
    cases h
    obtain rfl : before = text.length := by simp [htext, hbefore]
    exact accounts_nil text
  | blank c cs hc ih =>
    rw [Piece.split_blank hc] at h ⊢
    obtain ⟨token?, tail, hp, htail, rfl⟩ := readPieces_cons_ok h
    cases hp
    rw [log_readPieces_cons rfl]
    have hrest := ih (done ++ [c]) (by simp [htext]) (by simp [hbefore, Piece.chars]) htail
    exact hrest.blank (by simp [htext, hbefore]) hc
  | word t rest hfits ih =>
    obtain ⟨rule, hfirst, hkind, -⟩ := hfits.first?
    rw [Piece.split_of_first? hfits hfirst] at h ⊢
    obtain ⟨token?, tail, hp, htail, rfl⟩ := readPieces_cons_ok h
    rw [log_readPieces_cons hp]
    rw [read_lexeme hkind] at hp ⊢
    cases hp
    have hrest := ih (done ++ t.text.toList) (by simp [htext]) (by simp [hbefore, Piece.chars]) htail
    subst htext hbefore
    rw [Piece.chars, String.length_toList] at hrest ⊢
    refine hrest.cons (Nat.add_sub_cancel _ _) rfl ?_ ?_ (trueOf_token hfits hfirst done)
    · obtain ⟨c, cs, hcs, -⟩ := hfits.head
      rw [← String.length_toList, hcs]
      simp
    · simp [← String.length_toList]
  | unknown c cs hc hq hfirst ih =>
    rw [Piece.split_unknown hc hq hfirst] at h ⊢
    obtain ⟨token?, tail, hp, htail, rfl⟩ := readPieces_cons_ok h
    obtain ⟨rfl, hlog⟩ := read_unknown_ok hp
    rw [log_readPieces_cons hp, hlog]
    have hrest := ih (done ++ [c]) (by simp [htext]) (by simp [hbefore, Piece.chars]) htail
    subst htext hbefore
    refine hrest.cons (r := .skipped c (done.length + 1)) rfl rfl (Nat.lt_succ_self _) ?_ ?_
    · simp [Piece.chars]
    · exact ⟨Nat.succ_pos _, by simp⟩
  | unclosed cs hq =>
    rw [Piece.split_unclosed hq] at h ⊢
    obtain ⟨token?, tail, hp, htail, rfl⟩ := readPieces_cons_ok h
    obtain ⟨rfl, hlog⟩ := read_unclosed_ok hp
    cases htail
    rw [log_readPieces_cons hp, hlog]
    subst htext hbefore
    refine (accounts_nil _).cons (r := .dropped (done.length + 1)) rfl rfl ?_ le_rfl ?_
    · simp
    · exact ⟨Nat.succ_pos _, by simp⟩

section
variable {text : List Char} {before : Nat} {ts : List Token} {rs : List ScanEvent}

theorem Accounts.once (h : Accounts text before ts rs) {i : Nat} {r r' : ScanEvent} (hr : r ∈ rs)
    (hr' : r' ∈ rs) (hcovers : r.Covers text.length i) (hcovers' : r'.Covers text.length i) :
    r = r' := by
  have hapart : rs.Pairwise (ScanEvent.Apart text.length) :=
    h.ordered.imp fun hle i hcovers hcovers' => by
      have := hcovers.2
      have := hcovers'.1
      omega
  by_contra hne
  exact hapart.forall hr hr' hne i hcovers hcovers'

theorem Accounts.nodup (h : Accounts text before ts rs) : rs.Nodup := by
  refine h.ordered.imp_of_mem fun {r r'} hr _ hle heq => ?_
  subst heq
  exact absurd (h.within r hr).2.1 (not_lt.mpr hle)

theorem Accounts.getLast?_of_dropped (h : Accounts text before ts rs) {column : Nat}
    (hmem : .dropped column ∈ rs) : rs.getLast? = some (.dropped column) := by
  obtain ⟨done, rest, rfl⟩ := List.append_of_mem hmem
  have hnil : rest = [] := by
    refine List.eq_nil_iff_forall_not_mem.mpr fun r hr => ?_
    have hordered := (List.pairwise_cons.mp (List.pairwise_append.mp h.ordered).2.1).1 r hr
    have hwithin := h.within r (List.mem_append_right _ (List.mem_cons_of_mem _ hr))
    rw [ScanEvent.stop] at hordered
    omega
  rw [hnil, List.getLast?_concat]

theorem Accounts.warned (h : Accounts text before ts rs) {i : Nat} {c : Char} {r : ScanEvent}
    (hc : text[i]? = some c) (hr : r ∈ rs) (hcovers : r.Covers text.length i)
    (htrace : r.severity ≠ .trace) :
    rs.count (.skipped c (i + 1)) = 1 ∨
      ∃ column, rs.getLast? = some (.dropped column) ∧ column ≤ i + 1 := by
  have htold := h.told r hr
  cases r with
  | token rule t column => exact absurd rfl htrace
  | skipped ch column =>
    obtain ⟨hstart, hstop⟩ := hcovers
    obtain ⟨hpos, hch⟩ := htold
    rw [ScanEvent.start] at hstart
    rw [ScanEvent.stop] at hstop
    obtain rfl : column = i + 1 := by omega
    cases hc.symm.trans hch
    exact .inl (List.count_eq_one_of_mem h.nodup hr)
  | dropped column =>
    have hstart := hcovers.1
    rw [ScanEvent.start] at hstart
    exact .inr ⟨column, h.getLast?_of_dropped hr, by omega⟩
  | finished => exact htold.elim

theorem Accounts.logAccounts {mode : Mode} (h : Accounts text 0 ts rs)
    (hweights : ∀ r ∈ rs, r.WeighsIn mode) :
    LogAccounts mode text ts rs where
  weights := hweights
  traces := h.traces
  told := h.told
  within r hr := (h.within r hr).2
  ordered := h.ordered
  once _ _ hr _ hr' := h.once hr hr'
  outside i c hc htraces := by
    rcases h.covered i c (Nat.zero_le i) hc with hblank | ⟨r, hr, hcovers⟩
    · left
      simpa [isBlank, or_assoc] using hblank
    · exact .inr (h.warned hc hr hcovers fun htrace => htraces r hr htrace hcovers)

end

section
variable {mode : Mode}

theorem weighs_fail_or_warn {α : Type} {stop : Prop} [Decidable stop] (hstop : mode = .strict → stop)
    (e : ScanError) {r : ScanEvent} (hr : r.severity = .warn) (a : α) :
    Logged.Writes (ScanEvent.WeighsIn mode) (if stop then Logged.fail e else do
      Logged.write r
      return a) := by
  split
  · exact Logged.writes_fail _
  · rename_i hgoes
    have hmode : mode = .lenient := by
      cases mode with
      | lenient => rfl
      | strict => exact absurd (hstop rfl) hgoes
    refine Logged.writes_bind (Logged.writes_write.mpr (.inr ⟨hmode, hr⟩)) fun _ => ?_
    exact Logged.writes_pure _

theorem weighs_read (before : Nat) (p : Piece) : (p.read mode before).Writes (ScanEvent.WeighsIn mode) := by
  cases p with
  | blank c => exact Logged.writes_pure _
  | lexeme rule cs =>
    exact Logged.writes_bind (Logged.writes_write.mpr (.inl rfl)) fun _ => Logged.writes_pure _
  | unknown c => exact weighs_fail_or_warn (fun h => by simp [h]) _ rfl _
  | unclosed cs => exact weighs_fail_or_warn id _ rfl _

theorem weighs_readPieces (before : Nat) (ps : List Piece) :
    (readPieces mode before ps).Writes (ScanEvent.WeighsIn mode) := by
  induction ps generalizing before with
  | nil => exact Logged.writes_pure _
  | cons p ps ih =>
    refine Logged.writes_bind (weighs_read before p) fun _ => ?_
    exact Logged.writes_bind (ih _) fun _ => Logged.writes_pure _

end

end FilterQuery
