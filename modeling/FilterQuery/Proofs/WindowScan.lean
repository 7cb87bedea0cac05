import FilterQuery.Proofs.Runs
import FilterQuery.Proofs.Warnings
import FilterQuery.Proofs.Window
/-!
# Scanning with a window

A scan with a window skips blanks at the head of its loop and then tries the rules in turn, until
one takes a token or none is left. Between these attempts the window is empty and lies within the
text, and it only moves ahead. So the scan ends, and it reads what the pieces of the text are.
-/
namespace FilterQuery

/-- What a scan does next. -/
inductive ScanPlace
  /-- It is at the head of its loop. -/
  | head
  /-- It tries the first of these rules, or deals with a character at which no rule applies. -/
  | attempt (rules : List Rule)
  | finished
  | failed (e : ScanError)
  /-- A slice was asked for that is not there. -/
  | crashed
deriving DecidableEq, Repr

structure ScanState where
  place : ScanPlace
  window : Window
  tokens : List Token
  log : List ScanEvent

/-- What the attempt of a rule at a window comes to. Without a token the window stays, except that a
quote that is not closed moves it to the end of the text. With a token it moves on. -/
structure Window.Attempted (mode : Mode) (text : List Char) (rule : Rule) (w : Window)
    (outcome : Scanned (Option Token × Window)) : Prop where
  declined : ∀ w', outcome.result = .ok (none, w') →
    if rule = .literal ∧ Unclosed text w.cursor then
      mode = .lenient ∧ w' = ⟨text.length, text.length⟩
    else w' = w
  taken : ∀ t w', outcome.result = .ok (some t, w') →
    w'.start = w'.cursor ∧ w.cursor < w'.cursor ∧ w'.cursor ≤ text.length ∧ t.text ≠ ""

namespace ScanState

def start : ScanState := ⟨.head, ⟨0, 0⟩, [], []⟩

/-- One step of a scan, unless it has ended. -/
def step (mode : Mode) (text : List Char) (s : ScanState) : Option ScanState :=
  match s.place with
  | .head =>
    let w := (s.window.advanceWhile text isBlank).next
    if text.length ≤ w.cursor then
      some ⟨.finished, w, s.tokens, s.log ++ [.finished text.length s.tokens.length]⟩
    else some ⟨.attempt Rule.all, w, s.tokens, s.log⟩
  | .attempt (rule :: rules) =>
    match rule.attempt mode text s.window with
    | none => some { s with place := .crashed }
    | some outcome =>
      match outcome.result with
      | .error e => some { s with place := .failed e, log := s.log ++ outcome.log }
      | .ok (none, w) => some ⟨.attempt rules, w, s.tokens, s.log ++ outcome.log⟩
      | .ok (some t, w) =>
        some ⟨.head, w, s.tokens ++ [t], s.log ++ outcome.log ++ [.token rule t w.cursor]⟩
  | .attempt [] =>
    match s.window.current? text with
    | none => some { s with place := .head }
    | some c =>
      let column := s.window.cursor + 1
      if isReservedChar c || mode = .strict then
        some { s with place := .failed (.invalidCharacter c column) }
      else some ⟨.head, (s.window.advance 1).next, s.tokens, s.log ++ [.skipped c column]⟩
  | .finished | .failed _ | .crashed => none

/-- What a scan that has ended comes to. -/
def outcome? (s : ScanState) : Option (Scanned (List Token)) :=
  match s.place with
  | .finished => some ⟨s.log, .ok s.tokens⟩
  | .failed e => some ⟨s.log, .error e⟩
  | _ => none

/-! ### Steps between empty windows -/

/-- The steps of a scan from an empty window at index `i`. -/
inductive Next (mode : Mode) (text : List Char) (i : Nat) (tokens : List Token)
    (log : List ScanEvent) : ScanPlace → ScanState → Prop
  | finish : IsGap (text.drop i) →
    Next mode text i tokens log .head ⟨.finished, ⟨text.length, text.length⟩, tokens,
      log ++ [.finished text.length tokens.length]⟩
  | look {gap cs : List Char} {c : Char} :
    text.drop i = gap ++ c :: cs → IsGap gap → ¬ isBlank c →
    Next mode text i tokens log .head
      ⟨.attempt Rule.all, ⟨i + gap.length, i + gap.length⟩, tokens, log⟩
  | take {rule : Rule} {rules : List Rule} {n : Nat} {t : Token} :
    rule.width (text.drop i) = n → n ≠ 0 → t = ⟨rule.kind, String.ofList ((text.drop i).take n)⟩ →
    Next mode text i tokens log (.attempt (rule :: rules))
      ⟨.head, ⟨i + n, i + n⟩, tokens ++ [t], log ++ [.token rule t (i + n)]⟩
  | decline {rule : Rule} {rules : List Rule} :
    rule.width (text.drop i) = 0 → (rule = .literal → ¬ Window.Unclosed text i) →
    Next mode text i tokens log (.attempt (rule :: rules)) ⟨.attempt rules, ⟨i, i⟩, tokens, log⟩
  | drop {rules : List Rule} : Window.Unclosed text i → mode = .lenient →
    Next mode text i tokens log (.attempt (.literal :: rules))
      ⟨.attempt rules, ⟨text.length, text.length⟩, tokens, log ++ [.dropped (i + 1)]⟩
  | unterminated {rules : List Rule} : Window.Unclosed text i → mode = .strict →
    Next mode text i tokens log (.attempt (.literal :: rules))
      ⟨.failed (.unterminatedLiteral (i + 1)), ⟨i, i⟩, tokens, log⟩
  | leave : text.length ≤ i →
    Next mode text i tokens log (.attempt []) ⟨.head, ⟨i, i⟩, tokens, log⟩
  | skip {c : Char} : text[i]? = some c → mode = .lenient → ¬ isReservedChar c →
    Next mode text i tokens log (.attempt [])
      ⟨.head, ⟨i + 1, i + 1⟩, tokens, log ++ [.skipped c (i + 1)]⟩
  | reject {c : Char} : text[i]? = some c → mode = .strict ∨ isReservedChar c →
    Next mode text i tokens log (.attempt [])
      ⟨.failed (.invalidCharacter c (i + 1)), ⟨i, i⟩, tokens, log⟩

section
variable {mode : Mode} {text : List Char} {i : Nat} {tokens : List Token} {log : List ScanEvent}
  {place : ScanPlace} {t : ScanState}

theorem next_of_head (hi : i ≤ text.length)
    (h : step mode text ⟨.head, ⟨i, i⟩, tokens, log⟩ = some t) :
    Next mode text i tokens log .head t := by
  obtain ⟨gap, rest, hdrop, hgap, hrest⟩ := exists_run isBlank (text.drop i)
  have hlength := congrArg List.length hdrop
  rw [List.length_drop, List.length_append] at hlength
  have hskip : (Window.advanceWhile text isBlank ⟨i, i⟩).next =
      ⟨i + gap.length, i + gap.length⟩ := by
    rw [Window.advanceWhile_eq]
    simp only [hdrop, takeWhile_run hgap hrest]
    rfl
  simp only [step, hskip] at h
  cases rest with
  | nil =>
    have hend : i + gap.length = text.length := by
      rw [List.length_nil] at hlength
      omega
    rw [List.append_nil] at hdrop
    rw [if_pos hend.ge, hend] at h
    cases h
    exact .finish (hdrop ▸ hgap)
  | cons c cs =>
    rw [List.length_cons] at hlength
    rw [if_neg (by omega)] at h
    cases h
    exact .look hdrop hgap (hrest c rfl)

theorem next_of_attempt {rule : Rule} {rules : List Rule}
    (h : step mode text ⟨.attempt (rule :: rules), ⟨i, i⟩, tokens, log⟩ = some t) :
    Next mode text i tokens log (.attempt (rule :: rules)) t := by
  by_cases hquote : rule = .literal ∧ Window.Unclosed text i
  · obtain ⟨rfl, hquote⟩ := hquote
    simp only [step, Rule.attempt_literal_of_unclosed mode hquote] at h
    cases mode with
    | strict =>
      cases h
      have hlog : (Window.dropping .strict text i).log = [] := rfl
      rw [hlog, List.append_nil]
      exact .unterminated hquote rfl
    | lenient =>
      cases h
      exact .drop hquote rfl
  · have hclosed : rule = .literal → ¬ Window.Unclosed text i := fun hr hq => hquote ⟨hr, hq⟩
    simp only [step, Rule.attempt_eq mode hclosed, Window.taking] at h
    by_cases hwidth : rule.width (text.drop i) = 0
    · rw [if_pos hwidth] at h
      cases h
      rw [Logged.log_pure, List.append_nil]
      exact .decline hwidth hclosed
    · rw [if_neg hwidth] at h
      cases h
      rw [Logged.log_pure, List.append_nil]
      exact .take rfl hwidth rfl

theorem next_of_unknown (h : step mode text ⟨.attempt [], ⟨i, i⟩, tokens, log⟩ = some t) :
    Next mode text i tokens log (.attempt []) t := by
  simp only [step, Window.current?] at h
  cases hc : text[i]? with
  | none =>
    rw [hc] at h
    cases h
    exact .leave (List.getElem?_eq_none_iff.mp hc)
  | some c =>
    simp only [hc, Bool.or_eq_true, decide_eq_true_eq] at h
    split at h
    · rename_i hreject
      cases h
      exact .reject hc hreject.symm
    · rename_i hskip
      cases h
      obtain ⟨hreserved, hmode⟩ := not_or.mp hskip
      have hmode : mode = .lenient := by cases mode <;> first | rfl | exact absurd rfl hmode
      exact .skip hc hmode hreserved

/-- A step from an empty window within the text is one of these. In particular it does not ask for
characters that are not there. -/
theorem next_of_step (hi : i ≤ text.length)
    (h : step mode text ⟨place, ⟨i, i⟩, tokens, log⟩ = some t) :
    Next mode text i tokens log place t := by
  match place with
  | .head => exact next_of_head hi h
  | .attempt (rule :: rules) => exact next_of_attempt h
  | .attempt [] => exact next_of_unknown h
  | .finished | .failed _ | .crashed => cases h

/-! ### What a step keeps -/

/-- What is known where rules are tried: the text has ended, or the rules that were tried before do
not apply to what stands there, and if that is a quote without a closing one it is still to come to
the rule for literals. -/
def Pending (text : List Char) (i : Nat) : ScanPlace → Prop
  | .attempt rules => i = text.length ∨
    (∃ c cs, text.drop i = c :: cs ∧ ¬ isBlank c) ∧
      Rule.first? (text.drop i) = rules.find? (fun rule => 0 < rule.width (text.drop i)) ∧
      (Window.Unclosed text i → .literal ∈ rules)
  | .crashed => False
  | _ => True

/-- Between two attempts the window is empty and within the text, and no token is empty. -/
structure Sound (text : List Char) (s : ScanState) : Prop where
  empty : s.window.start = s.window.cursor
  within : s.window.cursor ≤ text.length
  texts : ∀ t ∈ s.tokens, t.text ≠ ""
  pending : Pending text s.window.cursor s.place

theorem sound_start (text : List Char) : start.Sound text :=
  ⟨rfl, Nat.zero_le _, List.forall_mem_nil _, trivial⟩

theorem width_nil (rule : Rule) : rule.width [] = 0 := by
  cases rule <;> rfl

theorem first?_of_pending {rule : Rule} {rules : List Rule}
    (h : Pending text i (.attempt (rule :: rules))) (hwidth : rule.width (text.drop i) ≠ 0) :
    ∃ c cs, text.drop i = c :: cs ∧ ¬ isBlank c ∧ Rule.first? (text.drop i) = some rule := by
  rcases h with rfl | ⟨⟨c, cs, hdrop, hc⟩, hfirst, -⟩
  · rw [List.drop_length, width_nil] at hwidth
    exact absurd rfl hwidth
  · rw [List.find?_cons_of_pos (by simpa using Nat.pos_of_ne_zero hwidth)] at hfirst
    exact ⟨c, cs, hdrop, hc, hfirst⟩

theorem Pending.tail {rule : Rule} {rules : List Rule}
    (h : Pending text i (.attempt (rule :: rules))) (hwidth : rule.width (text.drop i) = 0)
    (hclosed : rule = .literal → ¬ Window.Unclosed text i) : Pending text i (.attempt rules) := by
  rcases h with hi | ⟨hstart, hfirst, hquote⟩
  · exact .inl hi
  · rw [List.find?_cons_of_neg (by simp [hwidth])] at hfirst
    refine .inr ⟨hstart, hfirst, fun hunclosed => ?_⟩
    rcases List.mem_cons.mp (hquote hunclosed) with hrule | hmem
    · exact absurd hunclosed (hclosed hrule.symm)
    · exact hmem

theorem Pending.unknown {c : Char} (h : Pending text i (.attempt [])) (hc : text[i]? = some c) :
    ∃ cs, text.drop i = c :: cs ∧ ¬ isBlank c ∧ c ≠ '"' ∧ Rule.first? (c :: cs) = none := by
  have hhead : (text.drop i).head? = some c := by rw [List.head?_drop, hc]
  rcases h with rfl | ⟨⟨d, cs, hdrop, hblank⟩, hfirst, hquote⟩
  · rw [List.drop_length] at hhead
    cases hhead
  · rw [hdrop] at hhead hfirst
    cases hhead
    refine ⟨cs, hdrop, hblank, ?_, hfirst⟩
    rintro rfl
    have hmem : '"' ∈ cs := by
      by_contra hnone
      cases hquote ⟨hc, drop_succ_of_cons hdrop ▸ hnone⟩
    rw [Rule.first?_quote hmem] at hfirst
    cases hfirst

theorem le_of_drop_eq_append {xs ys : List Char} (h : text.drop i = xs ++ ys) (hys : ys ≠ []) :
    i + xs.length < text.length := by
  have hlength := congrArg List.length h
  have hpos := List.length_pos_iff.mpr hys
  rw [List.length_drop, List.length_append] at hlength
  omega

theorem taken_within {rule : Rule} {rules : List Rule}
    (h : Pending text i (.attempt (rule :: rules))) (hwidth : rule.width (text.drop i) ≠ 0) :
    i + rule.width (text.drop i) ≤ text.length ∧
      String.ofList ((text.drop i).take (rule.width (text.drop i))) ≠ "" := by
  obtain ⟨c, cs, hdrop, -, hfirst⟩ := first?_of_pending h hwidth
  have hle := Rule.width_le_length hfirst
  have hfront : text.drop i = [] ++ c :: cs := hdrop
  have hlt := le_of_drop_eq_append hfront (List.cons_ne_nil c cs)
  rw [List.length_drop] at hle
  rw [List.length_nil] at hlt
  refine ⟨by omega, fun hempty => ?_⟩
  have hnil := congrArg String.toList hempty
  rw [String.toList_ofList] at hnil
  rcases List.take_eq_nil_iff.mp hnil with hzero | hnil
  · exact hwidth hzero
  · rw [hdrop] at hnil
    cases hnil

theorem Next.sound (h : Next mode text i tokens log place t) (hi : i ≤ text.length)
    (htexts : ∀ t ∈ tokens, t.text ≠ "") (hpending : Pending text i place) : t.Sound text := by
  cases h with
  | finish hgap => exact ⟨rfl, le_rfl, htexts, trivial⟩
  | @look gap cs c hdrop hgap hc =>
    have hlt := le_of_drop_eq_append hdrop (List.cons_ne_nil c cs)
    have hbehind : text.drop (i + gap.length) = c :: cs := by
      rw [← List.drop_drop, hdrop, List.drop_left]
    exact ⟨rfl, hlt.le, htexts, .inr ⟨⟨c, cs, hbehind, hc⟩, rfl, fun _ => by decide⟩⟩
  | take hwidth hn ht =>
    subst hwidth ht
    obtain ⟨hle, htext⟩ := taken_within hpending hn
    refine ⟨rfl, hle, fun u hu => ?_, trivial⟩
    rcases List.mem_append.mp hu with hu | hu
    · exact htexts u hu
    · obtain rfl := List.mem_singleton.mp hu
      exact htext
  | decline hwidth hclosed => exact ⟨rfl, hi, htexts, hpending.tail hwidth hclosed⟩
  | drop => exact ⟨rfl, le_rfl, htexts, .inl rfl⟩
  | unterminated => exact ⟨rfl, hi, htexts, trivial⟩
  | leave => exact ⟨rfl, hi, htexts, trivial⟩
  | skip hc => exact ⟨rfl, (List.getElem?_eq_some_iff.mp hc).1, htexts, trivial⟩
  | reject => exact ⟨rfl, hi, htexts, trivial⟩

/-! ### Progress -/

/-- A bound on the number of steps that are left. -/
def work (text : List Char) (s : ScanState) : Nat :=
  match s.place with
  | .head => if s.window.cursor < text.length then 9 * (text.length - s.window.cursor) + 8 else 1
  | .attempt rules =>
    if s.window.cursor < text.length then 9 * (text.length - s.window.cursor) + rules.length
    else rules.length + 2
  | _ => 0

theorem Next.work_lt (h : Next mode text i tokens log place t)
    (hpending : Pending text i place) :
    t.work text < work text ⟨place, ⟨i, i⟩, tokens, log⟩ := by
  cases h with
  | finish =>
    simp only [work]
    split <;> omega
  | look hdrop =>
    have hlt := le_of_drop_eq_append hdrop (List.cons_ne_nil _ _)
    have hall : Rule.all.length = 7 := rfl
    simp only [work, if_pos hlt, if_pos (Nat.lt_of_le_of_lt (Nat.le_add_right _ _) hlt), hall]
    omega
  | take hwidth hn =>
    subst hwidth
    have hle := (taken_within hpending hn).1
    have hlt : i < text.length := by omega
    simp only [work, if_pos hlt]
    split <;> omega
  | decline =>
    simp only [work, List.length_cons]
    split <;> omega
  | drop hquote =>
    have hlt := (List.getElem?_eq_some_iff.mp hquote.1).1
    simp only [work, if_pos hlt, if_neg (Nat.lt_irrefl _), List.length_cons]
    omega
  | unterminated =>
    simp only [work, List.length_cons]
    split <;> omega
  | leave hi =>
    simp only [work, if_neg (Nat.not_lt.mpr hi), List.length_nil]
    omega
  | skip hc =>
    have hlt := (List.getElem?_eq_some_iff.mp hc).1
    simp only [work, if_pos hlt, List.length_nil]
    split <;> omega
  | reject hc =>
    have hlt := (List.getElem?_eq_some_iff.mp hc).1
    simp only [work, if_pos hlt]
    omega

/-! ### What the scan comes to -/

/-- The rest of a scan that stands at index `i` with `tokens` behind it, by the pieces of what
stands there. -/
def reading (mode : Mode) (text : List Char) (tokens : List Token) (i : Nat) :
    Scanned (List Token) := do
  let ts ← readPieces mode i (Piece.split (text.drop i))
  Logged.write (.finished text.length (tokens.length + ts.length))
  return tokens ++ ts

/-- What a scan under way will come to. -/
def expected (mode : Mode) (text : List Char) (s : ScanState) : Scanned (List Token) :=
  match s.place with
  | .finished => ⟨s.log, .ok s.tokens⟩
  | .failed e => ⟨s.log, .error e⟩
  | _ => (reading mode text s.tokens s.window.cursor).after s.log

theorem reading_blank {c : Char} {cs : List Char} (hdrop : text.drop i = c :: cs)
    (hc : isBlank c) : reading mode text tokens i = reading mode text tokens (i + 1) := by
  have hread : readPieces mode i (.blank c :: Piece.split cs) =
      readPieces mode (i + 1) (Piece.split cs) := by
    rw [readPieces]
    exact Logged.bind_pure _
  rw [reading, reading, hdrop, drop_succ_of_cons hdrop, Piece.split_blank hc, hread]

theorem reading_gap {gap rest : List Char} (hdrop : text.drop i = gap ++ rest) (hgap : IsGap gap) :
    reading mode text tokens i = reading mode text tokens (i + gap.length) := by
  induction gap generalizing i with
  | nil => rfl
  | cons c gap ih =>
    rw [reading_blank hdrop (hgap c List.mem_cons_self),
      ih (drop_succ_of_cons hdrop) fun d hd => hgap d (List.mem_cons_of_mem c hd),
      List.length_cons, Nat.add_assoc, Nat.add_comm 1]

theorem reading_end (mode : Mode) (hi : text.length ≤ i) : reading mode text tokens i = do
    Logged.write (.finished text.length tokens.length)
    return tokens := by
  rw [reading, List.drop_of_length_le hi, Piece.split_nil, readPieces]
  ext1
  · rfl
  · change Except.ok (tokens ++ []) = _
    rw [List.append_nil]
    rfl

theorem reading_lexeme {c : Char} {cs : List Char} {rule : Rule} {t : Token} {n : Nat}
    (hdrop : text.drop i = c :: cs) (hc : ¬ isBlank c) (hfirst : Rule.first? (c :: cs) = some rule)
    (hn : rule.width (c :: cs) = n) (hle : n ≤ (c :: cs).length)
    (ht : t = ⟨rule.kind, String.ofList ((c :: cs).take n)⟩) :
    reading mode text tokens i = Logged.write (.token rule t (i + n)) >>= fun _ =>
      reading mode text (tokens ++ [t]) (i + n) := by
  have hsplit : Piece.split (c :: cs) =
      .lexeme rule ((c :: cs).take n) :: Piece.split ((c :: cs).drop n) := by
    rw [Piece.split_cons, Piece.next, if_neg hc, hfirst]
    simp only [hn]
  have hlength : ((c :: cs).take n).length = n := List.length_take_of_le hle
  have hread : readPieces mode i (Piece.split (c :: cs)) = do
      Logged.write (.token rule t (i + n))
      let ts ← readPieces mode (i + n) (Piece.split ((c :: cs).drop n))
      return t :: ts := by
    rw [hsplit, readPieces, Piece.read, Piece.chars, hlength, ht, Logged.bind_bind]
    rfl
  rw [reading, hdrop, hread, Logged.bind_bind]
  congr 1
  funext _
  rw [Logged.bind_bind, reading, ← List.drop_drop, hdrop]
  congr 1
  funext ts
  rw [List.length_append, List.length_singleton, Nat.add_assoc, Nat.add_comm 1, List.append_assoc,
    List.singleton_append]
  rfl

theorem reading_unclosed (hquote : Window.Unclosed text i) : reading mode text tokens i =
    match mode with
    | .strict => Logged.fail (.unterminatedLiteral (i + 1))
    | .lenient => Logged.write (.dropped (i + 1)) >>= fun _ =>
      reading .lenient text tokens text.length := by
  obtain ⟨hlt, hget⟩ := List.getElem?_eq_some_iff.mp hquote.1
  rw [reading, List.drop_eq_getElem_cons hlt, hget, Piece.split_unclosed hquote.2]
  cases mode with
  | strict => rfl
  | lenient =>
    rw [reading_end .lenient le_rfl]
    ext1
    · rfl
    · change Except.ok (tokens ++ []) = _
      rw [List.append_nil]
      rfl

theorem reading_unknown {c : Char} {cs : List Char} (hdrop : text.drop i = c :: cs)
    (hc : ¬ isBlank c) (hq : c ≠ '"') (hfirst : Rule.first? (c :: cs) = none) :
    reading mode text tokens i =
      if mode = .strict || isReservedChar c then Logged.fail (.invalidCharacter c (i + 1))
      else Logged.write (.skipped c (i + 1)) >>= fun _ => reading mode text tokens (i + 1) := by
  rw [reading, hdrop, Piece.split_unknown hc hq hfirst, readPieces, Piece.read]
  split
  · rfl
  · rw [Logged.bind_bind, Logged.bind_bind, reading, drop_succ_of_cons hdrop]
    congr 1
    funext _
    exact Logged.bind_bind _ _ _

theorem Next.expected_eq (h : Next mode text i tokens log place t)
    (hpending : Pending text i place) :
    t.expected mode text = expected mode text ⟨place, ⟨i, i⟩, tokens, log⟩ := by
  cases h with
  | finish hgap =>
    have hend : text.length ≤ i + (text.drop i).length := by
      rw [List.length_drop]
      omega
    change _ = (reading mode text tokens i).after log
    rw [reading_gap (List.append_nil _).symm hgap, reading_end mode hend, Logged.after_write,
      Logged.after, Logged.log_pure, List.append_nil]
    rfl
  | look hdrop hgap =>
    change _ = (reading mode text tokens i).after log
    rw [reading_gap hdrop hgap]
    rfl
  | take hwidth hn ht =>
    subst hwidth
    obtain ⟨c, cs, hdrop, hc, hfirst⟩ := first?_of_pending hpending hn
    have hle := Rule.width_le_length hfirst
    rw [hdrop] at hfirst hle ht ⊢
    change _ = (reading mode text tokens i).after log
    rw [reading_lexeme hdrop hc hfirst rfl hle ht, Logged.after_write]
    rfl
  | decline => rfl
  | drop hquote hmode =>
    subst hmode
    change _ = (reading .lenient text tokens i).after log
    rw [reading_unclosed hquote, Logged.after_write]
    rfl
  | unterminated hquote hmode =>
    subst hmode
    change _ = (reading .strict text tokens i).after log
    rw [reading_unclosed hquote, Logged.after, Logged.log_fail, List.append_nil]
    rfl
  | leave => rfl
  | skip hc hmode hreserved =>
    subst hmode
    obtain ⟨cs, hdrop, hblank, hq, hfirst⟩ := hpending.unknown hc
    change _ = (reading .lenient text tokens i).after log
    rw [reading_unknown hdrop hblank hq hfirst, if_neg (by simpa using hreserved),
      Logged.after_write]
    rfl
  | reject hc hreject =>
    obtain ⟨cs, hdrop, hblank, hq, hfirst⟩ := hpending.unknown hc
    change _ = (reading mode text tokens i).after log
    rw [reading_unknown hdrop hblank hq hfirst, if_pos (by simpa using hreject), Logged.after,
      Logged.log_fail, List.append_nil]
    rfl

end

/-! ### Runs -/

section
variable {mode : Mode} {text : List Char} {s t : ScanState}

theorem Sound.step (hs : s.Sound text) (h : s.step mode text = some t) :
    t.Sound text ∧ t.work text < s.work text ∧ t.expected mode text = s.expected mode text := by
  obtain ⟨place, ⟨i, cursor⟩, tokens, log⟩ := s
  obtain ⟨hempty, hwithin, htexts, hpending⟩ := hs
  obtain rfl : i = cursor := hempty
  have hnext := next_of_step hwithin h
  exact ⟨hnext.sound hwithin htexts hpending, hnext.work_lt hpending, hnext.expected_eq hpending⟩

theorem expected_start (mode : Mode) (query : String) :
    start.expected mode query.toList = scan mode query := by
  rw [scan_eq]
  change (reading mode query.toList [] 0).after [] = _
  rw [reading, Logged.after, List.nil_append, List.drop_zero, String.length_toList]
  simp

theorem outcome?_of_halt (hs : s.Sound text) (h : s.step mode text = none) :
    s.outcome? = some (s.expected mode text) := by
  obtain ⟨place, ⟨i, cursor⟩, tokens, log⟩ := s
  match place with
  | .finished | .failed e => rfl
  | .crashed => exact hs.pending.elim
  | .head =>
    simp only [ScanState.step] at h
    split at h <;> cases h
  | .attempt [] =>
    simp only [ScanState.step] at h
    split at h
    · cases h
    · split at h <;> cases h
  | .attempt (rule :: rules) =>
    simp only [ScanState.step] at h
    split at h
    · cases h
    · split at h <;> cases h

theorem work_start_le (text : List Char) : start.work text ≤ 9 * text.length + 8 := by
  change (if 0 < text.length then 9 * (text.length - 0) + 8 else 1) ≤ _
  split <;> omega

theorem cursor_lt_of_work_lt (hs : s.place = .head) (ht : t.place = .head)
    (hwithin : t.window.cursor ≤ text.length) (h : t.work text < s.work text) :
    s.window.cursor < t.window.cursor := by
  simp only [work, hs, ht] at h
  split at h <;> split at h <;> omega

theorem Sound.attempt {rule : Rule} {rules : List Rule} (hs : s.Sound text)
    (hplace : s.place = .attempt (rule :: rules)) :
    ∃ outcome, rule.attempt mode text s.window = some outcome ∧
      s.window.Attempted mode text rule outcome := by
  obtain ⟨place, ⟨i, cursor⟩, tokens, log⟩ := s
  obtain ⟨hempty, -, -, hpending⟩ := hs
  obtain rfl : i = cursor := hempty
  obtain rfl : place = .attempt (rule :: rules) := hplace
  by_cases hquote : rule = .literal ∧ Window.Unclosed text i
  · obtain ⟨rfl, hunclosed⟩ := hquote
    refine ⟨_, Rule.attempt_literal_of_unclosed mode hunclosed, fun w hw => ?_, fun t w hw => ?_⟩
    · rw [if_pos ⟨rfl, hunclosed⟩]
      cases mode with
      | strict => cases hw
      | lenient =>
        cases hw
        exact ⟨rfl, rfl⟩
    · cases mode <;> cases hw
  · have hclosed : rule = .literal → ¬ Window.Unclosed text i := fun hr hq => hquote ⟨hr, hq⟩
    refine ⟨_, Rule.attempt_eq mode hclosed, fun w hw => ?_, fun t w hw => ?_⟩
    · rw [if_neg hquote]
      rw [Window.taking] at hw
      split at hw <;> cases hw
      rfl
    · rw [Window.taking] at hw
      split at hw
      · cases hw
      · rename_i hwidth
        cases hw
        obtain ⟨hle, htext⟩ := taken_within hpending hwidth
        exact ⟨rfl, Nat.lt_add_of_pos_right (Nat.pos_of_ne_zero hwidth), hle, htext⟩

end

end ScanState

/-- In every run of a scan, the window is empty and within the text between attempts, a rule moves
it only over a token or, at a quote that is not closed, to the end of the text, and the cursor has
moved on whenever the scan is at the head of its loop again. No slice is asked for that is not there
and no token is empty. All runs are short, and one of them ends with what the scan of the text
is. -/
theorem scan_window_invariant (mode : Mode) (query : String) :
    let text := query.toList
    (∀ states, IsRun (ScanState.step mode text) .start states →
      (∀ s ∈ states, s.window.start = s.window.cursor ∧ s.window.cursor ≤ text.length ∧
        s.place ≠ .crashed ∧ ∀ t ∈ s.tokens, t.text ≠ "") ∧
      (∀ s ∈ states, ∀ rule rules, s.place = .attempt (rule :: rules) →
        ∃ outcome, rule.attempt mode text s.window = some outcome ∧
          s.window.Attempted mode text rule outcome) ∧
      (states.filter (·.place = .head)).Pairwise (fun s t => s.window.cursor < t.window.cursor) ∧
      states.length ≤ 9 * (text.length + 1)) ∧
    ∃ states last, IsRun (ScanState.step mode text) .start states ∧
      states.getLast? = some last ∧ last.outcome? = some (scan mode query) := by
  intro text
  have hstart := ScanState.sound_start text
  have hlower (s t : ScanState) (hs : s.Sound text) (h : s.step mode text = some t) :
      t.Sound text ∧ t.work text < s.work text := by
    obtain ⟨ht, hlt, -⟩ := hs.step h
    exact ⟨ht, hlt⟩
  have hsound {states : List ScanState} (hrun : IsRun (ScanState.step mode text) .start states) :
      ∀ s ∈ states, s.Sound text :=
    hrun.forall_mem (fun s t hs h => (hlower s t hs h).1) hstart
  refine ⟨fun states hrun => ⟨fun s hs => ?_, fun s hs rule rules hplace => ?_, ?_, ?_⟩, ?_⟩
  · obtain ⟨hempty, hwithin, htexts, hpending⟩ := hsound hrun s hs
    refine ⟨hempty, hwithin, fun hcrash => ?_, htexts⟩
    rw [hcrash] at hpending
    exact hpending
  · exact (hsound hrun s hs).attempt hplace
  · rw [List.pairwise_filter]
    refine (hrun.pairwise_work hlower hstart).imp_of_mem fun _ ht hwork hs' ht' => ?_
    exact ScanState.cursor_lt_of_work_lt (of_decide_eq_true hs') (of_decide_eq_true ht')
      (hsound hrun _ ht).within hwork
  · have hlength := hrun.length_le hlower hstart
    have hwork := ScanState.work_start_le text
    omega
  · obtain ⟨states, last, hrun, hlast, hs, heq, hhalt⟩ := exists_halting_run hlower
      (fun _ _ hs h => (hs.step h).2.2) hstart
    rw [ScanState.expected_start] at heq
    exact ⟨states, last, hrun, hlast, by rw [ScanState.outcome?_of_halt hs hhalt, heq]⟩

/-- A quote that is not closed: the literal rule drops it, and the scan is at the head of its loop
once more. -/
theorem window_invariant_of_quote : ∃ states t,
    IsRun (ScanState.step .lenient ['"']) .start states ∧
    states.filter (·.place = .head) = [.start, t] ∧
    ScanState.start.window.cursor < t.window.cursor ∧ states.length ≤ 18 ∧
    Window.Attempted .lenient ['"'] .literal ⟨0, 0⟩ ⟨[.dropped 1], .ok (none, ⟨1, 1⟩)⟩ := by
  let tried (rules : List Rule) : ScanState := ⟨.attempt rules, ⟨0, 0⟩, [], []⟩
  let behind (place : ScanPlace) : ScanState := ⟨place, ⟨1, 1⟩, [], [.dropped 1]⟩
  let states : List ScanState :=
    [.start, tried Rule.all, tried (Rule.all.drop 1), tried (Rule.all.drop 2),
      tried (Rule.all.drop 3), tried (Rule.all.drop 4), tried (Rule.all.drop 5),
      behind (.attempt [.separator]), behind (.attempt []), behind .head]
  have hrun : IsRun (ScanState.step .lenient ['"']) .start states :=
    .step (by cbv) <| .step (by cbv) <| .step (by cbv) <| .step (by cbv) <| .step (by cbv) <|
      .step (by cbv) <| .step (by cbv) <| .step (by cbv) <| .step (by cbv) <| .here _
  have hfilter : states.filter (·.place = .head) = [.start, behind .head] := rfl
  obtain ⟨-, hattempt, hheads, hlength⟩ := (scan_window_invariant .lenient "\"").1 states hrun
  obtain ⟨outcome, houtcome, hattempted⟩ :=
    hattempt (tried (Rule.all.drop 5)) (by simp [states]) .literal [.separator] rfl
  have hdropped : Rule.literal.attempt .lenient ['"'] ⟨0, 0⟩ =
      some ⟨[.dropped 1], .ok (none, ⟨1, 1⟩)⟩ := by cbv
  obtain rfl := Option.some.inj (hdropped.symm.trans houtcome)
  rw [hfilter] at hheads
  exact ⟨states, behind .head, hrun, hfilter, List.rel_of_pairwise_cons hheads List.mem_cons_self,
    hlength, hattempted⟩

end FilterQuery
