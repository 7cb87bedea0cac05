import Mathlib
import FilterQuery.Json
/-!
# Reading JSON text

A text is cut into marks, which are strings, `null` and brackets; blanks, commas and colons only
keep them apart. The marks are put together on a stack of open brackets. Both layouts of a value
have the same marks, so either is read back.
-/
namespace FilterQuery.Json

inductive Mark
  | null
  | string (s : String)
  | openArray
  | closeArray
  | openObject
  | closeObject
deriving DecidableEq, Repr

mutual

/-- The marks of the text of a value, in order. -/
def marks : Json → List Mark
  | .null => [.null]
  | .string s => [.string s]
  | .array items => .openArray :: (marksAll items ++ [.closeArray])
  | .object fields => .openObject :: (marksFields fields ++ [.closeObject])

def marksAll : List Json → List Mark
  | [] => []
  | item :: items => marks item ++ marksAll items

def marksFields : List (String × Json) → List Mark
  | [] => []
  | (key, value) :: fields => .string key :: (marks value ++ marksFields fields)

end

/-! ### From text to marks -/

/-- What the characters behind a backslash stand for. -/
def escapes : List (Char × Char) :=
  [('"', '"'), ('\\', '\\'), ('/', '/'), ('b', '\x08'), ('t', '\t'), ('n', '\n'), ('f', '\x0c'),
    ('r', '\r')]

def hexDigit? (c : Char) : Option Nat := (List.range 16).find? (Nat.digitChar · = c)

/-- The character with the code that some hexadecimal digits denote. -/
def ofHex? (digits : List Char) : Option Char :=
  (digits.mapM hexDigit?).map fun ds => Char.ofNat (ds.foldl (16 * · + ·) 0)

/-- The character that is written behind a backslash, and what stands behind it. -/
def readEscape : List Char → Option (Char × List Char)
  | [] => none
  | c :: rest =>
    if c = 'u' then (ofHex? (rest.take 4)).map (·, rest.drop 4)
    else (escapes.lookup c).map (·, rest)

/-- The first character of a text between quotes, and what stands behind it. -/
def readChar : List Char → Option (Char × List Char)
  | [] => none
  | c :: rest => if c = '\\' then readEscape rest else some (c, rest)

theorem length_readEscape_lt {cs rest : List Char} {c : Char}
    (h : readEscape cs = some (c, rest)) : rest.length < cs.length := by
  cases cs with
  | nil => cases h
  | cons d cs =>
    rw [readEscape] at h
    split at h
    · obtain ⟨_, -, h⟩ := Option.map_eq_some_iff.mp h
      cases h
      simp only [List.length_drop, List.length_cons]
      omega
    · obtain ⟨_, -, h⟩ := Option.map_eq_some_iff.mp h
      cases h
      exact Nat.lt_succ_self _

theorem length_readChar_lt {cs rest : List Char} {c : Char} (h : readChar cs = some (c, rest)) :
    rest.length < cs.length := by
  cases cs with
  | nil => cases h
  | cons d cs =>
    rw [readChar] at h
    split at h
    · exact (length_readEscape_lt h).trans (Nat.lt_succ_self _)
    · cases h
      exact Nat.lt_succ_self _

/-- The text before the closing quote, and what stands behind that quote. -/
def readText (cs : List Char) : Option (List Char × List Char) :=
  match cs with
  | '"' :: rest => some ([], rest)
  | cs =>
    match _h : readChar cs with
    | some (c, rest) => (readText rest).map fun p => (c :: p.1, p.2)
    | none => none
termination_by cs.length
decreasing_by exact length_readChar_lt _h

theorem length_readText_lt {cs text rest : List Char} (h : readText cs = some (text, rest)) :
    rest.length < cs.length := by
  fun_induction readText cs generalizing text with
  | case1 rest' =>
    cases h
    exact Nat.lt_succ_self _
  | case2 cs _ c rest' hc ih =>
    obtain ⟨p, hp, h⟩ := Option.map_eq_some_iff.mp h
    cases h
    exact (ih hp).trans (length_readChar_lt hc)
  | case3 => cases h

/-- What one character outside strings contributes. -/
def Mark.ofChar? : Char → Option (List Mark)
  | '[' => some [.openArray]
  | ']' => some [.closeArray]
  | '\x7b' => some [.openObject]
  | '\x7d' => some [.closeObject]
  | ' ' | '\n' | '\r' | '\t' | ',' | ':' => some []
  | _ => none

/-- The marks of a text, unless something else stands in it. -/
def marks? (cs : List Char) : Option (List Mark) :=
  match cs with
  | [] => some []
  | 'n' :: 'u' :: 'l' :: 'l' :: rest => (marks? rest).map (.null :: ·)
  | '"' :: cs =>
    match _h : readText cs with
    | some (text, rest) => (marks? rest).map (.string (String.ofList text) :: ·)
    | none => none
  | c :: cs => (Mark.ofChar? c).bind fun ms => (marks? cs).map (ms ++ ·)
termination_by cs.length
decreasing_by
  all_goals simp only [List.length_cons]
  · omega
  · have := length_readText_lt _h
    omega
  · omega

theorem ofHex?_digits : ∀ n < 32,
    ofHex? ['0', '0', Nat.digitChar (n / 16), Nat.digitChar (n % 16)] = some (Char.ofNat n) := by
  decide

theorem readChar_escape (c : Char) (rest : List Char) :
    readChar (escape c ++ rest) = some (c, rest) := by
  have hcontrol := ofHex?_digits c.toNat
  unfold escape
  split_ifs with h1 h2 h3 h4 h5 h6 h7 h8
  · subst h1; rfl
  · subst h2; rfl
  · subst h3; rfl
  · subst h4; rfl
  · subst h5; rfl
  · subst h6; rfl
  · subst h7; rfl
  · change (ofHex? ['0', '0', _, _]).map (·, rest) = _
    rw [hcontrol h8, Char.ofNat_toNat]
    rfl
  · simp [readChar, h2]

theorem head_escape (c : Char) : ∃ d ds, escape c = d :: ds ∧ d ≠ '"' := by
  unfold escape
  split_ifs with h1
  all_goals first
    | exact ⟨_, _, rfl, by decide⟩
    | exact ⟨c, [], rfl, h1⟩

theorem readText_quote (text rest : List Char) :
    readText (text.flatMap escape ++ '"' :: rest) = some (text, rest) := by
  induction text with
  | nil => rw [List.flatMap_nil, List.nil_append, readText]
  | cons c text ih =>
    rw [List.flatMap_cons, List.append_assoc]
    have hread := readChar_escape c (text.flatMap escape ++ '"' :: rest)
    obtain ⟨d, ds, hescape, hd⟩ := head_escape c
    rw [hescape, List.cons_append] at hread ⊢
    rw [readText, hread]
    · dsimp only
      rw [ih]
      rfl
    · rintro rest' ⟨⟩
      exact hd rfl

/-- Whether a part of a text has the marks `ms`, whatever stands behind it. -/
def Reads (text : String) (ms : List Mark) : Prop :=
  ∀ rest, marks? (text.toList ++ rest) = (marks? rest).map (ms ++ ·)

namespace Reads

theorem append {s t : String} {ms ns : List Mark} (hs : Reads s ms) (ht : Reads t ns) :
    Reads (s ++ t) (ms ++ ns) := by
  intro rest
  rw [String.toList_append, List.append_assoc, hs, ht, Option.map_map]
  simp [Function.comp_def]

theorem empty : Reads "" [] := by
  intro rest
  simp

theorem marks?_cons {c : Char} {ms : List Mark} (h : Mark.ofChar? c = some ms)
    (rest : List Char) : marks? (c :: rest) = (marks? rest).map (ms ++ ·) := by
  have hquote : c ≠ '"' := by
    rintro rfl
    cases h
  have hnull : c ≠ 'n' := by
    rintro rfl
    cases h
  rw [marks?, h]
  · rfl
  · exact fun _ hc _ => hnull hc
  · exact hquote

theorem char (c : Char) {s : String} {ms : List Mark} (hs : s.toList = [c])
    (h : Mark.ofChar? c = some ms) : Reads s ms := by
  intro rest
  rw [hs, List.singleton_append, marks?_cons h]

theorem filler {s : String} (h : ∀ c ∈ s.toList, Mark.ofChar? c = some []) : Reads s [] := by
  intro rest
  generalize s.toList = cs at h
  induction cs with
  | nil => simp
  | cons c cs ih =>
    obtain ⟨hc, hcs⟩ := List.forall_mem_cons.mp h
    rw [List.cons_append, marks?_cons hc, ih hcs]
    simp

theorem pad {s t : String} {ms : List Mark} (hs : Reads s ms) (ht : Reads t []) :
    Reads (s ++ t) ms := by
  have happend := hs.append ht
  rwa [List.append_nil] at happend

theorem null : Reads "null" [.null] := by
  intro rest
  change marks? ('n' :: 'u' :: 'l' :: 'l' :: rest) = _
  rw [marks?]
  rfl

theorem quote (s : String) : Reads (Json.quote s) [.string s] := by
  intro rest
  have htext : (Json.quote s).toList ++ rest =
      '"' :: (s.toList.flatMap escape ++ '"' :: rest) := by
    simp [Json.quote]
  rw [htext, marks?, readText_quote]
  simp

theorem openArray : Reads "[" [.openArray] := char '[' (by simp) rfl

theorem closeArray : Reads "]" [.closeArray] := char ']' (by simp) rfl

theorem openObject : Reads "\x7b" [.openObject] := char '\x7b' (by simp) rfl

theorem closeObject : Reads "\x7d" [.closeObject] := char '\x7d' (by simp) rfl

theorem comma : Reads "," [] := char ',' (by simp) rfl

theorem colon (layout : Layout) : Reads layout.colon [] := by
  apply filler
  cases layout <;> simp [Layout.colon, Mark.ofChar?]

theorem newline (layout : Layout) (depth : Nat) : Reads (layout.newline depth) [] := by
  apply filler
  cases layout with
  | compact => simp [Layout.newline]
  | indented =>
    simp only [Layout.newline, String.toList_append, String.toList_ofList]
    rintro c hc
    rcases List.mem_append.mp hc with hc | hc
    · obtain rfl : c = '\n' := by simpa using hc
      rfl
    · obtain rfl := List.eq_of_mem_replicate hc
      rfl

end Reads

section
variable (layout : Layout)

mutual

theorem reads_writeOnto (depth : Nat) {acc : String} {ms : List Mark} (h : Reads acc ms) :
    (j : Json) → Reads (writeOnto layout depth acc j) (ms ++ j.marks)
  | .null => by
    rw [writeOnto, marks]
    exact h.append .null
  | .string s => by
    rw [writeOnto, marks]
    exact h.append (.quote s)
  | .array [] => by
    rw [writeOnto, marks, marksAll]
    exact h.append (Reads.openArray.append .closeArray)
  | .array (item :: items) => by
    have hopen := (h.append .openArray).pad (.newline layout (depth + 1))
    have hitem := reads_writeOnto (depth + 1) hopen item
    have hitems := reads_writeItemsOnto (depth + 1) hitem items
    have hclose := (hitems.pad (.newline layout depth)).append .closeArray
    rw [writeOnto, marks, marksAll]
    simpa only [List.append_assoc, List.cons_append, List.nil_append] using hclose
  | .object [] => by
    rw [writeOnto, marks, marksFields]
    exact h.append (Reads.openObject.append .closeObject)
  | .object ((key, value) :: fields) => by
    have hopen := (h.append .openObject).pad (.newline layout (depth + 1))
    have hkey := (hopen.append (.quote key)).pad (.colon layout)
    have hvalue := reads_writeOnto (depth + 1) hkey value
    have hfields := reads_writeFieldsOnto (depth + 1) hvalue fields
    have hclose := (hfields.pad (.newline layout depth)).append .closeObject
    rw [writeOnto, marks, marksFields]
    simpa only [List.append_assoc, List.cons_append, List.nil_append] using hclose

theorem reads_writeItemsOnto (depth : Nat) {acc : String} {ms : List Mark} (h : Reads acc ms) :
    (items : List Json) →
      Reads (writeItemsOnto layout depth acc items) (ms ++ marksAll items)
  | [] => by
    rw [writeItemsOnto, marksAll, List.append_nil]
    exact h
  | item :: items => by
    have hitem := reads_writeOnto depth ((h.pad .comma).pad (.newline layout depth)) item
    rw [writeItemsOnto, marksAll, ← List.append_assoc]
    exact reads_writeItemsOnto depth hitem items

theorem reads_writeFieldsOnto (depth : Nat) {acc : String} {ms : List Mark} (h : Reads acc ms) :
    (fields : List (String × Json)) →
      Reads (writeFieldsOnto layout depth acc fields) (ms ++ marksFields fields)
  | [] => by
    rw [writeFieldsOnto, marksFields, List.append_nil]
    exact h
  | (key, value) :: fields => by
    have hline := (h.pad .comma).pad (.newline layout depth)
    have hkey := (hline.append (.quote key)).pad (.colon layout)
    have hvalue := reads_writeOnto depth hkey value
    have hfields := reads_writeFieldsOnto depth hvalue fields
    rw [writeFieldsOnto, marksFields]
    simpa only [List.append_assoc, List.cons_append, List.nil_append] using hfields

end

/-- The layout leaves no trace in the marks. -/
theorem marks?_render (j : Json) : marks? (j.render layout).toList = some j.marks := by
  have h := reads_writeOnto layout 0 .empty j []
  rw [List.append_nil, List.nil_append, marks?] at h
  simpa [render] using h

end

/-! ### From marks to values -/

/-- The fields whose keys and values stand in turn. -/
def fields? : List Json → Option (List (String × Json))
  | [] => some []
  | .string key :: value :: rest => (fields? rest).map ((key, value) :: ·)
  | _ => none

/-- Puts a value into the innermost open bracket. A bracket holds its values the latest first. -/
def put (j : Json) : List (List Json) → Option (List (List Json))
  | frame :: frames => some ((j :: frame) :: frames)
  | [] => none

/-- What a mark does to the brackets that are open, the innermost first. -/
def Mark.step : List (List Json) → Mark → Option (List (List Json))
  | frames, .null => put .null frames
  | frames, .string s => put (.string s) frames
  | frames, .openArray => some ([] :: frames)
  | frames, .openObject => some ([] :: frames)
  | frame :: frames, .closeArray => put (.array frame.reverse) frames
  | frame :: frames, .closeObject =>
    (fields? frame.reverse).bind fun fields => put (.object fields) frames
  | [], .closeArray => none
  | [], .closeObject => none

/-- The value of a text. -/
def read? (text : String) : Option Json :=
  match (marks? text.toList).bind (List.foldlM Mark.step [[]]) with
  | some [[j]] => some j
  | _ => none

theorem fields?_flatMap (fields : List (String × Json)) :
    fields? (fields.flatMap fun f => [.string f.1, f.2]) = some fields := by
  induction fields with
  | nil => rfl
  | cons field fields ih =>
    change (fields? (fields.flatMap _)).map _ = _
    rw [ih]
    rfl

mutual

theorem foldlM_marks (frame : List Json) (frames : List (List Json)) :
    (j : Json) → j.marks.foldlM Mark.step (frame :: frames) = some ((j :: frame) :: frames)
  | .null => by
    rw [marks]
    rfl
  | .string s => by
    rw [marks]
    rfl
  | .array items => by
    rw [marks, List.foldlM_cons]
    change ((marksAll items ++ [Mark.closeArray]).foldlM Mark.step ([] :: frame :: frames)) = _
    rw [List.foldlM_append, foldlM_marksAll [] _ items]
    simp [Mark.step, put]
  | .object fields => by
    rw [marks, List.foldlM_cons]
    change ((marksFields fields ++ [Mark.closeObject]).foldlM Mark.step ([] :: frame :: frames)) = _
    rw [List.foldlM_append, foldlM_marksFields [] _ fields]
    simp [Mark.step, put, fields?_flatMap]

theorem foldlM_marksAll (frame : List Json) (frames : List (List Json)) :
    (items : List Json) → (marksAll items).foldlM Mark.step (frame :: frames) =
      some ((items.reverse ++ frame) :: frames)
  | [] => by
    rw [marksAll]
    rfl
  | item :: items => by
    rw [marksAll, List.foldlM_append, foldlM_marks frame frames item]
    change (marksAll items).foldlM Mark.step ((item :: frame) :: frames) = _
    rw [foldlM_marksAll _ _ items]
    simp

theorem foldlM_marksFields (frame : List Json) (frames : List (List Json)) :
    (fields : List (String × Json)) → (marksFields fields).foldlM Mark.step (frame :: frames) =
      some (((fields.flatMap fun f => [.string f.1, f.2]).reverse ++ frame) :: frames)
  | [] => by
    rw [marksFields]
    rfl
  | (key, value) :: fields => by
    rw [marksFields, List.foldlM_cons]
    change (value.marks ++ marksFields fields).foldlM Mark.step ((.string key :: frame) :: frames)
      = _
    rw [List.foldlM_append, foldlM_marks _ frames value]
    change (marksFields fields).foldlM Mark.step ((value :: .string key :: frame) :: frames) = _
    rw [foldlM_marksFields _ _ fields]
    simp

end

/-- The text of a value in either layout is read back. -/
theorem read?_render (layout : Layout) (j : Json) : read? (j.render layout) = some j := by
  have h := foldlM_marks [] [] j
  simp only [read?, marks?_render, Option.bind_some, h]

end FilterQuery.Json
