import FilterQuery.Proofs.Failing
import FilterQuery.Proofs.ParserReading
/-!
# Runs of a parser

A parser in steps stands before a token or at the end of its input, has passed no end-of-input
token, and comes back to a place only with its position further on. So it ends, it never counts
below zero, and it comes to what the parse of the tokens is.
-/
namespace FilterQuery

/-- What is known of an error that a parser ends with when `current` is ahead of it. -/
def ParseError.Founded (mode : Mode) (current : Token) : ParseError → Prop
  | .emptyInput => False
  | .unexpectedToken expected found =>
    expected ≠ .inOperator ∧ expected ≠ .listClosing ∧
      (expected = .comparisonOperator → found = current.text ∧ current.isEof = false ∧
        current ≠ Token.inOperator ∧ current.comparator? = none)
  | .unbalancedParens _ => True
  | .unexpectedEnd expected => expected ≠ .inOperator ∧ mode = .strict
  | .trailingInput _ => mode = .strict

section
variable {mode : Mode}

theorem founded_of_listFault? {inside : List Token} {closing : Token} {e : ParseError}
    (hclosing : closing.text = "]") (h : Parse.listFault? (inside ++ [closing]) = some e)
    (current : Token) : e.Founded mode current := by
  obtain ⟨taken, t, rest, x, hsplit, rfl, hx, -⟩ := Parse.exists_of_listFault?_eq_some h
  obtain ⟨hmem, hlast⟩ := Parse.expectedAt_mem hx
  refine ⟨?_, fun heq => ?_, ?_⟩
  · rintro rfl
    exact absurd hmem (by decide)
  · obtain ⟨hi, htext⟩ := hlast heq
    rw [List.length_append, List.length_singleton, Nat.add_sub_cancel] at hi
    have hget : (inside ++ [closing])[inside.length]? = some t := by rw [hsplit, ← hi]; simp
    rw [List.getElem?_concat_length] at hget
    cases hget
    exact htext hclosing
  · rintro rfl
    exact absurd hmem (by decide)

theorem founded_of_check {b : Balance} {e : ParseError} (h : b.check = .error e) (current : Token) :
    e.Founded mode current := by
  unfold Balance.check at h
  split at h
  · cases h
  · cases h
    trivial

end

namespace ParserState

section
variable (ts : List Token)

/-- The place of a parser in its input. -/
def cursor (s : ParserState) : Cursor := ⟨s.position, ts.drop s.position⟩

/-- The position is within the input, the current token is the one there or else the end of the
input, and no end-of-input token lies behind. -/
structure Placed (s : ParserState) : Prop where
  within : s.position ≤ ts.length
  current_eq : s.current = ts[s.position]?.getD Token.eof
  behind : ∀ t ∈ ts.take s.position, t.isEof = false

/-- A step goes on in the grammar or takes a token that does not end the input. -/
inductive Moves (s t : ParserState) : Prop
  | stay : t.position = s.position → t.current = s.current → t.place.ahead < s.place.ahead →
    Moves s t
  | take : s.current.isEof = false → t.position = s.position + 1 →
    t.current = ts[s.position + 1]?.getD Token.eof → Moves s t

/-- A bound on the number of steps that are left. -/
def work (s : ParserState) : Nat := 12 * (ts.length - s.position) + s.place.ahead

end

section
variable {ts : List Token} {s t : ParserState}

theorem placed_start : (start ts).Placed ts := by
  refine ⟨Nat.zero_le _, ?_, fun t ht => ?_⟩
  · cases ts <;> rfl
  · cases ht

theorem Placed.current_cursor (hs : s.Placed ts) : (s.cursor ts).current = s.current := by
  rw [hs.current_eq, cursor, Cursor.current, List.headD_eq_head?_getD, List.head?_drop]

theorem Placed.paren_taken (hs : s.Placed ts) {p : Paren} {b : Balance}
    (h : s.current = p.token) :
    Parse.paren p b (s.cursor ts) = (true, b.record p, (s.cursor ts).advance) := by
  rw [Parse.paren, hs.current_cursor, if_pos h]

theorem Placed.paren_passed (hs : s.Placed ts) {p : Paren} {b : Balance}
    (h : s.current ≠ p.token) : Parse.paren p b (s.cursor ts) = (false, b, s.cursor ts) := by
  rw [Parse.paren, hs.current_cursor, if_neg h]

theorem Placed.getElem? (hs : s.Placed ts) (h : s.current.isEof = false) :
    ts[s.position]? = some s.current := by
  have hcurrent := hs.current_eq
  cases hget : ts[s.position]? with
  | none =>
    rw [hcurrent, hget] at h
    cases h
  | some t => rw [hcurrent, hget, Option.getD_some]

theorem Placed.of_moves (hs : s.Placed ts) (h : s.Moves ts t) : t.Placed ts := by
  obtain ⟨hwithin, hcurrent, hbehind⟩ := hs
  cases h with
  | stay hposition hsame =>
    exact ⟨hposition ▸ hwithin, by rw [hposition, hsame, hcurrent], hposition ▸ hbehind⟩
  | take heof hposition hnext =>
    have hget := Placed.getElem? ⟨hwithin, hcurrent, hbehind⟩ heof
    refine ⟨?_, by rw [hposition, hnext], ?_⟩
    · rw [hposition]
      exact (List.getElem?_eq_some_iff.mp hget).1
    · rw [hposition, List.take_add_one, hget, List.forall_mem_append]
      exact ⟨hbehind, List.forall_mem_singleton.mpr heof⟩

theorem ahead_lt (place : ParserPlace) : place.ahead < 12 := by
  cases place <;> simp

theorem Moves.work_lt (h : s.Moves ts t) (hs : s.Placed ts) : t.work ts < s.work ts := by
  unfold work
  cases h with
  | stay hposition _ hahead => omega
  | take heof hposition =>
    have hlt := (List.getElem?_eq_some_iff.mp (hs.getElem? heof)).1
    have hahead := ahead_lt t.place
    omega

theorem position_lt_of_work_lt (hplace : t.place = s.place) (hwithin : t.position ≤ ts.length)
    (h : t.work ts < s.work ts) : s.position < t.position := by
  unfold work at h
  rw [hplace] at h
  omega

theorem cursor_advance : (s.advance ts).cursor ts = (s.cursor ts).advance := by
  simp [cursor, advance, Cursor.advance, Cursor.skip]

theorem nextIsOpeningParen_cursor :
    (s.cursor ts).nextIsOpeningParen = s.nextIsOpeningParen ts := by
  simp [cursor, Cursor.nextIsOpeningParen, nextIsOpeningParen]

end

/-! ### What a step keeps -/

section
variable (mode : Mode)

/-- What is known besides at each place of a parser. -/
def Guarded (s : ParserState) : Prop :=
  match s.place with
  | .wrappers =>
    s.root = .branch .expression (List.replicate s.outer.count Token.openingParen.toNode)
  | .inOperator => s.current = Token.inOperator
  | .list => s.current.isEof = false ∧ s.current.text = "]" ∧
    ∃ inside, s.buffered = inside ++ [s.current]
  | .comparator => s.current ≠ Token.inOperator
  | .failed e => e.Founded mode s.current
  | .crashed => False
  | _ => True

/-- What the parser comes to, with the records that it has written. -/
def expected (ts : List Token) (s : ParserState) : Parsed Node :=
  (remaining mode s (s.cursor ts)).after s.log

/-- What is known in every run. -/
structure Sound (ts : List Token) (s : ParserState) : Prop extends s.Placed ts where
  guarded : s.Guarded mode

/-- A step from `s` to `t` after which the same is known, and which does not change what the parser
comes to. -/
structure Next (ts : List Token) (s t : ParserState) : Prop where
  moves : s.Moves ts t
  guarded : t.Guarded mode
  expected_eq : t.expected mode ts = s.expected mode ts

/-- A way to go on at `place` with a node. It leaves the parser where it is in its input, and what is
left to read behind it does not depend on that place. -/
structure Puts (place : ParserPlace) (put : ParserState → Node → ParserState) : Prop where
  place_eq : ∀ s node, (put s node).place = place
  position_eq : ∀ s node, (put s node).position = s.position
  current_eq : ∀ s node, (put s node).current = s.current
  log_eq : ∀ s node, (put s node).log = s.log
  guarded : ∀ s node, (put s node).Guarded mode
  advance_eq : ∀ ts s node c,
    remaining mode (put (s.advance ts) node) c = remaining mode (put s node) c
  write_eq : ∀ r s node c,
    remaining mode (put (s.write r) node) c = remaining mode (put s node) c

end

/-! ### Steps -/

section
variable {mode : Mode} {ts : List Token} {s t : ParserState} {place : ParserPlace}
  {put : ParserState → Node → ParserState} {expected : Construct} {accepts : Token → Bool}

theorem puts_key : Puts mode .comparison putKey :=
  ⟨fun _ _ => rfl, fun _ _ => rfl, fun _ _ => rfl, fun _ _ => rfl, fun _ _ => trivial,
    fun _ _ _ _ => rfl, fun _ _ _ _ => rfl⟩

theorem puts_comparator : Puts mode .operand putComparator :=
  ⟨fun _ _ => rfl, fun _ _ => rfl, fun _ _ => rfl, fun _ _ => rfl, fun _ _ => trivial,
    fun _ _ _ _ => rfl, fun _ _ _ _ => rfl⟩

theorem puts_operand : Puts mode .closing putOperand :=
  ⟨fun _ _ => rfl, fun _ _ => rfl, fun _ _ => rfl, fun _ _ => rfl, fun _ _ => trivial,
    fun _ _ _ _ => rfl, fun _ _ _ _ => rfl⟩

theorem puts_opening : Puts mode .key putOpening :=
  ⟨fun _ _ => rfl, fun _ _ => rfl, fun _ _ => rfl, fun _ _ => rfl, fun _ _ => trivial,
    fun _ _ _ _ => rfl, fun _ _ _ _ => rfl⟩

theorem puts_closing : Puts mode .operator putClosing :=
  ⟨fun _ _ => rfl, fun _ _ => rfl, fun _ _ => rfl, fun _ _ => rfl, fun _ _ => trivial,
    fun _ _ _ _ => rfl, fun _ _ _ _ => rfl⟩

theorem puts_rootClosing : Puts mode .trailing putRootClosing :=
  ⟨fun _ _ => rfl, fun _ _ => rfl, fun _ _ => rfl, fun _ _ => rfl, fun _ _ => trivial,
    fun _ _ _ _ => rfl, fun _ _ _ _ => rfl⟩

theorem next_stay (hposition : t.position = s.position) (hcurrent : t.current = s.current)
    (hahead : t.place.ahead < s.place.ahead) (hguarded : t.Guarded mode)
    (h : (remaining mode t (s.cursor ts)).after t.log = s.expected mode ts) :
    s.Next mode ts t := by
  refine ⟨.stay hposition hcurrent hahead, hguarded, ?_⟩
  rw [ParserState.expected, cursor, hposition]
  exact h

theorem next_take (heof : s.current.isEof = false) (hposition : t.position = s.position + 1)
    (hcurrent : t.current = ts[s.position + 1]?.getD Token.eof) (hguarded : t.Guarded mode)
    (h : (remaining mode t (s.cursor ts).advance).after t.log = s.expected mode ts) :
    s.Next mode ts t := by
  refine ⟨.take heof hposition hcurrent, hguarded, ?_⟩
  rw [ParserState.expected, cursor, hposition, ← h, ← cursor_advance]
  rfl

theorem next_fail {e : ParseError} (hahead : 0 < s.place.ahead) (he : e.Founded mode s.current)
    (h : remaining mode s (s.cursor ts) = Logged.fail e) : s.Next mode ts (s.fail e) := by
  refine next_stay rfl rfl hahead he ?_
  rw [ParserState.expected, h]
  rfl

theorem Puts.next_advance (hput : Puts mode place put) (node : Node)
    (heof : s.current.isEof = false)
    (h : remaining mode s (s.cursor ts) = remaining mode (put s node) (s.cursor ts).advance) :
    s.Next mode ts (put (s.advance ts) node) := by
  refine next_take heof (hput.position_eq _ _) (hput.current_eq _ _) (hput.guarded _ _) ?_
  rw [ParserState.expected, hput.advance_eq, hput.log_eq, h]
  rfl

theorem Puts.next_exhausted (hput : Puts mode place put) (hahead : place.ahead < s.place.ahead)
    (hexpected : expected ≠ .inOperator)
    (h : remaining mode s (s.cursor ts) =
      Parse.missing mode expected >>= fun _ => remaining mode (put s .eof) (s.cursor ts)) :
    s.Next mode ts (s.exhausted mode expected put) := by
  cases mode with
  | strict => exact next_fail (Nat.zero_lt_of_lt hahead) ⟨hexpected, rfl⟩ h
  | lenient =>
    refine next_stay (hput.position_eq _ _) (hput.current_eq _ _) ?_ (hput.guarded _ _) ?_
    · rw [exhausted, hput.place_eq]
      exact hahead
    · rw [exhausted, hput.write_eq, hput.log_eq, ParserState.expected, h]
      exact (Logged.after_write s.log (.exhausted expected) fun _ => _).symm

theorem Puts.next_require {α : Type} {read : Token → Option α} {token : α → Token}
    (hput : Puts mode place put) (hs : s.Placed ts) (hahead : place.ahead < s.place.ahead)
    (hexpected : expected ≠ .inOperator)
    (haccepts : accepts s.current = (read s.current).isSome)
    (htoken : ∀ a, read s.current = some a → token a = s.current)
    (hfault : s.current.isEof = false → read s.current = none →
      (ParseError.unexpectedToken expected s.current.text).Founded mode s.current)
    (h : remaining mode s (s.cursor ts) = Parse.single mode expected read (s.cursor ts) >>=
      fun (x, d) => remaining mode (put s (.ofToken? (x.map token))) d) :
    s.Next mode ts (s.require mode ts expected accepts put) := by
  rw [Parse.single, hs.current_cursor] at h
  by_cases heof : s.current.isEof
  · rw [if_pos heof, Logged.bind_bind] at h
    rw [require, if_pos heof]
    exact hput.next_exhausted hahead hexpected h
  · rw [if_neg heof] at h
    rw [require, if_neg heof, haccepts]
    have heof : s.current.isEof = false := by simpa using heof
    cases hread : read s.current with
    | none =>
      rw [hread] at h
      exact next_fail (Nat.zero_lt_of_lt hahead) (hfault heof hread) h
    | some a =>
      rw [hread] at h
      have hleaf : Node.ofToken? (some (token a)) = s.current.toNode := by
        rw [htoken a hread]
        rfl
      refine hput.next_advance _ heof (h.trans ?_)
      rw [← hleaf]
      rfl

theorem Puts.next_paren {u : ParserState} {p : Paren} (hput : Puts mode place put)
    (hposition : u.position = s.position) (hcurrent : u.current = s.current)
    (hplace : u.place = place) (hahead : place.ahead < s.place.ahead) (hguarded : u.Guarded mode)
    (htaken : s.current = p.token → s.expected mode ts =
      (remaining mode (put u p.token.toNode) (s.cursor ts).advance).after u.log)
    (hpassed : s.current ≠ p.token →
      s.expected mode ts = (remaining mode u (s.cursor ts)).after u.log) :
    s.Next mode ts (u.takeParen ts p put) := by
  rw [takeParen, hcurrent]
  by_cases hparen : s.current = p.token
  · have heof : s.current.isEof = false := by
      rw [hparen]
      cases p <;> rfl
    rw [if_pos hparen, hparen]
    refine next_take heof ?_ ?_ (hput.guarded _ _) ?_
    · rw [hput.position_eq, advance, hposition]
    · rw [hput.current_eq, advance, hposition]
    · rw [hput.advance_eq, hput.log_eq, htaken hparen]
      rfl
  · rw [if_neg hparen]
    exact next_stay hposition hcurrent (hplace ▸ hahead) hguarded (hpassed hparen).symm

theorem takeWrapper_next (hs : s.Sound mode ts) (hplace : s.place = .wrappers) :
    s.Next mode ts (s.takeWrapper ts) := by
  have hroot : s.root =
      .branch .expression (List.replicate s.outer.count Token.openingParen.toNode) := by
    simpa only [Guarded, hplace] using hs.guarded
  have hreading : s.expected mode ts = (readWrappers mode s (s.cursor ts)).after s.log := by
    simp only [ParserState.expected, remaining, hplace]
  by_cases hnext : s.current = Token.openingParen ∧ s.nextIsOpeningParen ts
  · have htake : s.takeWrapper ts = { s.advance ts with
        place := .wrappers
        root := s.root.pushFront s.current.toNode
        outer := s.outer.record .opening } := by
      rw [takeWrapper, if_pos (by simpa [Token.isOpeningParen] using hnext)]
    rw [htake]
    refine next_take (by rw [hnext.1]; rfl) rfl rfl ?_ ?_
    · change s.root.pushFront s.current.toNode = _
      rw [hroot, hnext.1]
      rfl
    · rw [hreading, readWrappers, Parse.wrappers,
        dif_pos (by rwa [hs.current_cursor, nextIsOpeningParen_cursor])]
      rfl
  · have htake : s.takeWrapper ts = { s with place := .segment } := by
      rw [takeWrapper, if_neg (by simpa [Token.isOpeningParen] using hnext)]
    rw [htake]
    refine next_stay rfl rfl (by simp [hplace]) trivial ?_
    rw [hreading, readWrappers, Parse.wrappers,
      dif_neg (by rwa [hs.current_cursor, nextIsOpeningParen_cursor])]
    dsimp only
    rw [← hroot]
    rfl

theorem openSegment_next (hs : s.Sound mode ts) (hplace : s.place = .segment) :
    s.Next mode ts (s.openSegment ts) := by
  have hreading : s.expected mode ts = (readSegment mode s (s.cursor ts)).after s.log := by
    simp only [ParserState.expected, remaining, hplace, readChain_eq]
  rw [readSegment, Logged.after_write] at hreading
  refine puts_opening.next_paren rfl rfl rfl (by simp [hplace]) trivial
    (fun hparen => ?_) (fun hparen => ?_)
  · rw [hreading, hs.paren_taken hparen]
    rfl
  · rw [hreading, hs.paren_passed hparen]
    rfl

theorem Puts.next_terminal {kind : TokenKind} (hput : Puts mode place put) (hs : s.Placed ts)
    (hahead : place.ahead < s.place.ahead)
    (hexpected : expected ∉ [.inOperator, .listClosing, .comparisonOperator])
    (h : remaining mode s (s.cursor ts) = Parse.terminal mode kind expected (s.cursor ts) >>=
      fun (x, d) => remaining mode (put s (.ofToken? (x.map (Token.mk kind)))) d) :
    s.Next mode ts (s.require mode ts expected (·.kind = kind) put) := by
  simp only [List.mem_cons, List.not_mem_nil, or_false, not_or] at hexpected
  obtain ⟨hin, hclosing, hcomparator⟩ := hexpected
  rw [Parse.terminal_eq_single] at h
  refine hput.next_require hs hahead hin ?_ (fun a ha => ?_) (fun _ _ => ?_) h
  · by_cases hkind : s.current.kind = kind <;> simp [hkind]
  · obtain ⟨hkind, htext⟩ := Option.ite_none_right_eq_some.mp ha
    rw [← hkind, ← Option.some.inj htext]
  · exact ⟨hin, hclosing, fun heq => absurd heq hcomparator⟩

theorem takeKey_next (hs : s.Sound mode ts) (hplace : s.place = .key) :
    s.Next mode ts (s.takeKey mode ts) := by
  refine puts_key.next_terminal hs.toPlaced (by simp [hplace]) (by decide) ?_
  simp only [remaining, hplace]
  rfl

theorem choose_next (hs : s.Sound mode ts) (hplace : s.place = .comparison) :
    s.Next mode ts s.choose := by
  have hreading : s.expected mode ts = (readComparison mode s (s.cursor ts)).after s.log := by
    simp only [ParserState.expected, remaining, hplace]
  rw [readComparison, hs.current_cursor] at hreading
  by_cases hin : s.current = Token.inOperator
  · rw [if_pos hin] at hreading
    rw [choose, if_pos hin]
    exact next_stay rfl rfl (by simp [hplace]) hin hreading.symm
  · rw [if_neg hin] at hreading
    rw [choose, if_neg hin]
    exact next_stay rfl rfl (by simp [hplace]) hin hreading.symm

theorem takeInOperator_next (hs : s.Sound mode ts) (hplace : s.place = .inOperator) :
    s.Next mode ts (s.takeInOperator mode ts) := by
  have hin : s.current = Token.inOperator := by simpa only [Guarded, hplace] using hs.guarded
  have heof : s.current.isEof = false := by rw [hin]; rfl
  have hreading : s.expected mode ts = (readInOperator mode s (s.cursor ts)).after s.log := by
    simp only [ParserState.expected, remaining, hplace]
  rw [takeInOperator, require, if_neg (by simp [heof]), if_pos (decide_eq_true hin), hin]
  exact next_take heof rfl rfl trivial hreading.symm

theorem takeOperand_next (hs : s.Sound mode ts) (hplace : s.place = .operand) :
    s.Next mode ts (s.takeOperand mode ts) := by
  refine puts_operand.next_terminal hs.toPlaced (by simp [hplace]) (by decide) ?_
  simp only [remaining, hplace]
  rfl

theorem takeComparator_next (hs : s.Sound mode ts) (hplace : s.place = .comparator) :
    s.Next mode ts (s.takeComparator mode ts) := by
  have hin : s.current ≠ Token.inOperator := by simpa only [Guarded, hplace] using hs.guarded
  have hreading : remaining mode s (s.cursor ts) = readComparator mode s (s.cursor ts) := by
    simp only [remaining, hplace]
  rw [readComparator, Parse.comparator_eq_single] at hreading
  exact puts_comparator.next_require hs.toPlaced (by simp [hplace]) (by decide)
    (Token.isSome_comparator? s.current).symm (fun op => Token.comparator?_eq_some_iff.mp)
    (fun heof hread => ⟨by decide, by decide, fun _ => ⟨rfl, heof, hin, hread⟩⟩) hreading

theorem bufferItem_next (hs : s.Sound mode ts) (hplace : s.place = .item) :
    s.Next mode ts (s.bufferItem mode ts) := by
  have hreading : remaining mode s (s.cursor ts) = readItem mode s (s.cursor ts) := by
    simp only [remaining, hplace]
  rw [readItem] at hreading
  have hcurrent := hs.current_cursor
  rw [bufferItem]
  by_cases heof : s.current.isEof
  · rw [if_pos heof]
    refine puts_operand.next_exhausted (by simp [hplace]) (by decide) ?_
    rw [hreading, Parse.listBehind_of_isEof (by rw [hcurrent, heof]), Logged.bind_bind]
    rfl
  · rw [if_neg heof]
    have heof : s.current.isEof = false := by simpa using heof
    by_cases htext : s.current.text = "]"
    · dsimp only
      rw [if_pos htext]
      refine next_stay rfl rfl (by simp [hplace])
        ⟨heof, htext, s.buffered, rfl⟩ ?_
      rw [ParserState.expected, hreading, Parse.listBehind_of_closing (by rw [hcurrent, heof])
        (by rw [hcurrent, htext]), hcurrent]
      rfl
    · dsimp only
      rw [if_neg htext]
      have hinside := Parse.isInsideList_iff.mpr ⟨heof, htext⟩
      refine next_take heof rfl rfl trivial ?_
      rw [ParserState.expected, hreading,
        Parse.listBehind_of_inside (by rw [hcurrent, hinside]), hcurrent]
      rfl

theorem closeSegment_next (hs : s.Sound mode ts) (hplace : s.place = .closing) :
    s.Next mode ts (s.closeSegment ts) := by
  have hreading : s.expected mode ts = (readClosing mode s (s.cursor ts)).after s.log := by
    simp only [ParserState.expected, remaining, hplace]
  refine puts_closing.next_paren rfl rfl rfl (by simp [hplace]) trivial
    (fun hparen => ?_) (fun hparen => ?_)
  · rw [hreading, readClosing, hs.paren_taken hparen]
    rfl
  · rw [hreading, readClosing, hs.paren_passed hparen]
    rfl

theorem checkList_next (hs : s.Sound mode ts) (hplace : s.place = .list) :
    s.Next mode ts (s.checkList mode ts) := by
  have hguarded : s.current.isEof = false ∧ s.current.text = "]" ∧
      ∃ inside, s.buffered = inside ++ [s.current] := by
    simpa only [Guarded, hplace] using hs.guarded
  obtain ⟨heof, htext, inside, hbuffered⟩ := hguarded
  have hreading : remaining mode s (s.cursor ts) = readList mode s (s.cursor ts) := by
    simp only [remaining, hplace]
  have hahead : 0 < s.place.ahead := by simp [hplace]
  have hlength : s.buffered.length = inside.length + 1 := by simp [hbuffered]
  -- The current token is the last one, so its index is there and its check does not fail.
  have hlast : Nat.psub s.buffered.length 1 = some inside.length :=
    Nat.psub_eq_some.mpr hlength.symm
  have hget : s.buffered[inside.length]? = some s.current := by simp [hbuffered]
  have hfault : fault? inside.length s.buffered = Parse.listFault? s.buffered := by
    rw [Parse.listFault?, hlength]
    rfl
  rw [readList, Parse.checked, hs.current_cursor] at hreading
  simp only [checkList, hlast, hfault]
  cases hlist : Parse.listFault? s.buffered with
  | some e =>
    rw [hlist] at hreading
    rw [hbuffered] at hlist
    exact next_fail hahead (founded_of_listFault? htext hlist _) hreading
  | none =>
    rw [hlist] at hreading
    dsimp only at hreading ⊢
    by_cases heven : mode = .strict ∧ s.buffered.length % 2 = 0
    · rw [if_pos heven] at hreading ⊢
      simp only [hget]
      exact next_fail hahead ⟨by decide, by decide, fun h => absurd h (by decide)⟩ hreading
    · rw [if_neg heven] at hreading ⊢
      exact puts_operand.next_advance _ heof hreading

theorem joinSegment_next (hs : s.Sound mode ts) (hplace : s.place = .operator) :
    s.Next mode ts (s.joinSegment ts) := by
  have hreading : remaining mode s (s.cursor ts) = readOperator mode s (s.cursor ts) := by
    simp only [remaining, hplace]
  rw [readOperator, hs.current_cursor] at hreading
  rw [joinSegment]
  by_cases hkind : s.current.kind = .logicalOperator
  · rw [if_pos hkind] at hreading ⊢
    refine next_take (by simp [Token.isEof, hkind]) rfl rfl trivial ?_
    rw [ParserState.expected, hreading]
    rfl
  · rw [if_neg hkind, readBehindChain] at hreading
    rw [if_neg hkind]
    cases hcheck : s.inner.check with
    | error e =>
      rw [hcheck] at hreading
      exact next_fail (by simp [hplace]) (founded_of_check hcheck _) hreading
    | ok _ =>
      rw [hcheck] at hreading
      refine next_stay rfl rfl (by simp [hplace]) trivial ?_
      rw [ParserState.expected, hreading]
      rfl

theorem closeRoot_next (hs : s.Sound mode ts) (hplace : s.place = .ending) :
    s.Next mode ts (s.closeRoot ts) := by
  have hreading : s.expected mode ts = (readEnding mode s (s.cursor ts)).after s.log := by
    simp only [ParserState.expected, remaining, hplace]
  refine puts_rootClosing.next_paren rfl rfl rfl (by simp [hplace]) trivial
    (fun hparen => ?_) (fun hparen => ?_)
  · rw [hreading, readEnding, hs.paren_taken hparen]
    rfl
  · rw [hreading, readEnding, hs.paren_passed hparen]
    rfl

theorem conclude_eq (h : s.position ≤ ts.length) :
    s.conclude ts = { s.write (.finished s.position) with place := .finished } := by
  rw [conclude, Nat.min_eq_left h]

theorem finish_next (hs : s.Sound mode ts) (hplace : s.place = .trailing) :
    s.Next mode ts (s.finish mode ts) := by
  have hreading : remaining mode s (s.cursor ts) = readTrailing mode s (s.cursor ts) := by
    simp only [remaining, hplace]
  have hahead : 0 < s.place.ahead := by simp [hplace]
  unfold readTrailing Parse.trailing at hreading
  rw [hs.current_cursor] at hreading
  unfold finish
  cases hcheck : s.outer.check with
  | error e =>
    rw [hcheck] at hreading
    exact next_fail hahead (founded_of_check hcheck _) hreading
  | ok _ =>
    rw [hcheck] at hreading
    by_cases hmore : s.position < ts.length
    · have hrest : (s.cursor ts).rest ≠ [] := fun hnil => by
        have hle := List.drop_eq_nil_iff.mp hnil
        omega
      rw [if_neg hrest] at hreading
      dsimp only
      rw [if_pos hmore]
      cases mode with
      | strict => exact next_fail hahead rfl hreading
      | lenient =>
        have hcount : Nat.psub ts.length s.position = some (ts.length - s.position) :=
          Nat.psub_eq_some.mpr (Nat.sub_add_cancel hs.within)
        have hlength : (s.cursor ts).rest.length = ts.length - s.position := List.length_drop
        rw [hlength] at hreading
        simp only [hcount]
        rw [conclude_eq (s := s.write _) hs.within]
        refine next_stay rfl rfl hahead trivial ?_
        rw [ParserState.expected, hreading]
        change _ = Logged.after s.log (Logged.write _ >>= fun _ => Logged.write _ >>= fun _ => _)
        rw [Logged.after_write, Logged.after_write]
        rfl
    · have hrest : (s.cursor ts).rest = [] := List.drop_eq_nil_iff.mpr (Nat.le_of_not_lt hmore)
      rw [if_pos hrest] at hreading
      dsimp only
      rw [if_neg hmore, conclude_eq hs.within]
      refine next_stay rfl rfl hahead trivial ?_
      rw [ParserState.expected, hreading]
      change _ = Logged.after s.log (Logged.write _ >>= fun _ => _)
      rw [Logged.after_write]
      rfl

end

/-! ### Runs -/

section
variable {mode : Mode} {ts : List Token} {s t : ParserState}

theorem Sound.next (hs : s.Sound mode ts) (h : s.step mode ts = some t) : s.Next mode ts t := by
  unfold ParserState.step at h
  cases hplace : s.place <;> rw [hplace] at h <;> cases h
  case wrappers => exact takeWrapper_next hs hplace
  case segment => exact openSegment_next hs hplace
  case key => exact takeKey_next hs hplace
  case comparison => exact choose_next hs hplace
  case inOperator => exact takeInOperator_next hs hplace
  case item => exact bufferItem_next hs hplace
  case list => exact checkList_next hs hplace
  case comparator => exact takeComparator_next hs hplace
  case operand => exact takeOperand_next hs hplace
  case closing => exact closeSegment_next hs hplace
  case operator => exact joinSegment_next hs hplace
  case ending => exact closeRoot_next hs hplace
  case trailing => exact finish_next hs hplace

theorem Sound.step (hs : s.Sound mode ts) (h : s.step mode ts = some t) :
    t.Sound mode ts ∧ t.work ts < s.work ts := by
  have hnext := hs.next h
  exact ⟨⟨hs.toPlaced.of_moves hnext.moves, hnext.guarded⟩, hnext.moves.work_lt hs.toPlaced⟩

theorem sound_start : (start ts).Sound mode ts := ⟨placed_start, rfl⟩

theorem sound_of_run {states : List ParserState}
    (h : IsRun (ParserState.step mode ts) (.start ts) states) : ∀ s ∈ states, s.Sound mode ts :=
  h.forall_mem (fun _ _ hs hstep => (hs.step hstep).1) sound_start

theorem expected_start (mode : Mode) (hts : ts ≠ []) :
    (start ts).expected mode ts = ⟨(parse mode ts).log, tokensTree mode ts⟩ := by
  change (readWrappers mode (start ts) (.start ts)).after [] = _
  rw [readWrappers_start hts, Logged.after, List.nil_append, Logged.log_bind_pure,
    Logged.result_bind]
  rfl

theorem outcome?_of_halt (hs : s.Sound mode ts) (h : s.step mode ts = none) :
    s.outcome? = some (s.expected mode ts) := by
  unfold ParserState.step at h
  unfold outcome? ParserState.expected remaining
  cases hplace : s.place <;> rw [hplace] at h <;> cases h
  case finished => simp [Logged.after]
  case failed e => simp [Logged.after]
  case crashed => simpa only [Guarded, hplace] using hs.guarded

/-- A parser halts, and with the log and the tree or the error of the parse. -/
theorem exists_run_to_outcome (mode : Mode) (hts : ts ≠ []) :
    ∃ states last, IsRun (ParserState.step mode ts) (.start ts) states ∧
      states.getLast? = some last ∧ last.Sound mode ts ∧
      last.outcome? = some ⟨(parse mode ts).log, tokensTree mode ts⟩ := by
  have hstart : (start ts).Sound mode ts := sound_start
  obtain ⟨states, last, hrun, hlast, hs, hexpected, hhalt⟩ :=
    exists_halting_run (fun _ _ hs hstep => hs.step hstep)
      (fun _ _ hs hstep => (hs.next hstep).expected_eq) hstart
  refine ⟨states, last, hrun, hlast, hs, ?_⟩
  rw [outcome?_of_halt hs hhalt, hexpected, expected_start mode hts]

theorem work_start (ts : List Token) : (start ts).work ts = 12 * ts.length + 11 := rfl

end

end ParserState

/-- In every run of a parser the position is within the tokens, the current token is the one there
or stands for the end of the input, and no end-of-input token has been passed. Whenever the parser
is at a place again, in particular at the head of a loop, its position is further on. So there is at
most one segment more than tokens, all runs are short, no number goes below zero, and one of the runs
ends with what the parse of the tokens is. -/
theorem parser_state_invariant (mode : Mode) {ts : List Token} (hts : ts ≠ []) :
    (∀ states, IsRun (ParserState.step mode ts) (.start ts) states →
      (∀ s ∈ states, s.position ≤ ts.length ∧ s.current = ts[s.position]?.getD Token.eof ∧
        (∀ t ∈ ts.take s.position, t.isEof = false) ∧ s.place ≠ .crashed ∧
        (s.place = .list → s.buffered ≠ [])) ∧
      (∀ place, (states.filter (·.place = place)).Pairwise fun s t => s.position < t.position) ∧
      (states.filter (·.place = .segment)).length ≤ ts.length + 1 ∧
      states.length ≤ 12 * (ts.length + 1)) ∧
    ∃ states last, IsRun (ParserState.step mode ts) (.start ts) states ∧
      states.getLast? = some last ∧
      last.outcome? = some ⟨(parse mode ts).log, tokensTree mode ts⟩ := by
  refine ⟨fun states hrun => ?_, ?_⟩
  · have hsound := ParserState.sound_of_run hrun
    have hlower (s t : ParserState) (hs : s.Sound mode ts) (hstep : s.step mode ts = some t) :=
      hs.step hstep
    -- Between two states at one place the work that is left differs by the position alone.
    have hpositions (place : ParserPlace) :
        (states.filter (·.place = place)).Pairwise fun s t => s.position < t.position := by
      rw [List.pairwise_filter]
      refine (hrun.pairwise_work hlower ParserState.sound_start).imp_of_mem ?_
      intro s t _ ht hwork hs' ht'
      have hplace := (of_decide_eq_true ht').trans (of_decide_eq_true hs').symm
      exact ParserState.position_lt_of_work_lt hplace (hsound t ht).within hwork
    refine ⟨fun s hs => ?_, hpositions, ?_, ?_⟩
    · obtain ⟨⟨hwithin, hcurrent, hbehind⟩, hguarded⟩ := hsound s hs
      refine ⟨hwithin, hcurrent, hbehind, fun hplace => ?_, fun hplace => ?_⟩
      · simp only [ParserState.Guarded, hplace] at hguarded
      · simp only [ParserState.Guarded, hplace] at hguarded
        obtain ⟨-, -, inside, hbuffered⟩ := hguarded
        rw [hbuffered]
        exact List.concat_ne_nil _ _
    · have hlt := List.pairwise_map.mpr (hpositions .segment)
      have hle := length_le_of_pairwise_lt hlt (n := ts.length) ?_
      · rwa [List.length_map] at hle
      · intro x hx
        obtain ⟨s, hs, rfl⟩ := List.mem_map.mp hx
        exact (hsound s (List.mem_of_mem_filter hs)).within
    · have hlength := hrun.length_le hlower ParserState.sound_start
      rw [ParserState.work_start] at hlength
      omega
  · obtain ⟨states, last, hrun, hlast, -, houtcome⟩ := ParserState.exists_run_to_outcome mode hts
    exact ⟨states, last, hrun, hlast, houtcome⟩

/-- An operator behind the last filter: two segments are read, the second one past all tokens. -/
theorem parser_invariant_of_operator : ∃ states last,
    IsRun (ParserState.step .lenient
      [.identifier "a", .comparison "eq:", .literal "1", .logical "&&"])
      (.start [.identifier "a", .comparison "eq:", .literal "1", .logical "&&"]) states ∧
    states.getLast? = some last ∧
    last.outcome?.map Logged.log = some [.filters 0, .filters 4, .exhausted .identifier,
      .exhausted .comparisonOperator, .exhausted .literal, .finished 4] ∧
    (states.filter (·.place = .segment)).length ≤ 5 ∧ states.length ≤ 60 := by
  obtain ⟨hall, states, last, hrun, hlast, houtcome⟩ := @parser_state_invariant .lenient
    [.identifier "a", .comparison "eq:", .literal "1", .logical "&&"] (List.cons_ne_nil _ _)
  obtain ⟨-, -, hsegments, hlength⟩ := hall states hrun
  refine ⟨states, last, hrun, hlast, ?_, hsegments, hlength⟩
  rw [houtcome]
  cbv

end FilterQuery
