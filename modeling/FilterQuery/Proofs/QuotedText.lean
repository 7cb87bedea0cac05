import FilterQuery.Proofs.Spelling
/-!
# Texts put together

No rule looks past a blank, or past a quote at which no token starts. So where the quotes before it
are closed, a blank or a quote begins a piece, and what stands on its two sides is scanned apart.
-/
namespace FilterQuery

/-- A text between double quotes. -/
def quoted (body : String) : String := "\"" ++ body ++ "\""

namespace ScanError

def column : ScanError → Nat
  | .invalidCharacter _ column => column
  | .unterminatedLiteral column => column

/-- The same error at another place. -/
def withColumn (e : ScanError) (column : Nat) : ScanError :=
  match e with
  | .invalidCharacter ch _ => .invalidCharacter ch column
  | .unterminatedLiteral _ => .unterminatedLiteral column

/-- The error with `n` more characters in front of the text. -/
def after (n : Nat) (e : ScanError) : ScanError := e.withColumn (n + e.column)

@[simp] theorem column_withColumn (e : ScanError) (n : Nat) : (e.withColumn n).column = n := by
  cases e <;> rfl

@[simp] theorem withColumn_withColumn (e : ScanError) (m n : Nat) :
    (e.withColumn m).withColumn n = e.withColumn n := by
  cases e <;> rfl

@[simp] theorem withColumn_column (e : ScanError) : e.withColumn e.column = e := by
  cases e <;> rfl

end ScanError

/-- Whether a character ends every run of characters that a rule takes outside quotes. -/
def IsStop (c : Char) : Prop := c = '"' ∨ isBlank c

theorem IsStop.not_isKeyChar {c : Char} (h : IsStop c) :
    isKeyChar c = false ∧ c.isDigit = false := by
  rcases h with rfl | h
  · decide
  · simpa using not_isKeyChar_of_isBlank h

theorem IsStop.notMem {c : Char} (h : IsStop c) :
    ∀ text ∈ ["&&", "||", ":="] ++ comparisonTexts, c ∉ text.toList := by
  unfold IsStop isBlank at h
  simp only [Bool.or_eq_true, decide_eq_true_eq] at h
  rcases h with rfl | (rfl | rfl) | rfl <;> decide

theorem takeWhile_append_stop {α : Type} {p : α → Bool} {a : α} (h : p a = false)
    (xs ys : List α) : (xs ++ a :: ys).takeWhile p = xs.takeWhile p := by
  induction xs with
  | nil => simp [h]
  | cons x xs ih => simp [List.takeWhile_cons, ih]

namespace Rule

section
variable {stop : Char} {cs : List Char}

theorem fixedWidth_append_stop {texts : List String} (h : ∀ text ∈ texts, stop ∉ text.toList)
    (cs rest : List Char) : fixedWidth texts (cs ++ stop :: rest) = fixedWidth texts cs := by
  have hprefix : ∀ text ∈ texts,
      text.toList.isPrefixOf (cs ++ stop :: rest) = text.toList.isPrefixOf cs := by
    intro text ht
    rw [Bool.eq_iff_iff, List.isPrefixOf_iff_prefix, List.isPrefixOf_iff_prefix]
    constructor
    · intro hp
      apply prefix_of_prefix_append hp
      simpa using h text ht
    · exact fun hp => hp.trans (List.prefix_append _ _)
  unfold fixedWidth
  rw [← List.head?_filter, ← List.head?_filter, List.filter_congr hprefix]

theorem quotedWidth_append_stop (h : '"' ∈ cs) (rest : List Char) :
    quotedWidth (cs ++ stop :: rest) = quotedWidth cs := by
  obtain ⟨body, tail, rfl, hbody⟩ := List.eq_append_cons_of_mem h
  rw [List.append_assoc, List.cons_append, quotedWidth_append hbody, quotedWidth_append hbody]

theorem width_append_stop (hstop : IsStop stop) (rule : Rule) {c : Char} (h : c = '"' → '"' ∈ cs)
    (rest : List Char) : rule.width (c :: cs ++ stop :: rest) = rule.width (c :: cs) := by
  have hnone := hstop.notMem
  obtain ⟨hkey, hdigit⟩ := hstop.not_isKeyChar
  cases rule with
  | logicalOperator =>
    exact fixedWidth_append_stop (fun text ht => hnone text (by simp at ht ⊢; grind)) _ _
  | assignOperator =>
    exact fixedWidth_append_stop (fun text ht => hnone text (by simp at ht ⊢; grind)) _ _
  | inOperator =>
    apply fixedWidth_append_stop
    exact fun text ht => hnone text (by simp [comparisonTexts] at ht ⊢; grind)
  | comparisonOperator =>
    apply fixedWidth_append_stop
    intro text ht
    simp only [Comparator.all, Comparator.text, List.map_cons, List.map_nil] at ht
    exact hnone text (by simp [comparisonTexts] at ht ⊢; grind)
  | identifier => simp only [width, List.cons_append, keyWidth, takeWhile_append_stop hkey]
  | literal =>
    simp only [width, List.cons_append, literalWidth, takeWhile_append_stop hdigit]
    by_cases hc : c = '"'
    · rw [quotedWidth_append_stop (h hc)]
    · rw [if_neg hc, if_neg hc]
  | separator => rfl

theorem first?_append_stop (hstop : IsStop stop) {c : Char} (h : c = '"' → '"' ∈ cs)
    (rest : List Char) : first? (c :: cs ++ stop :: rest) = first? (c :: cs) := by
  simp only [first?, width_append_stop hstop _ h]

end

theorem first?_quote {cs : List Char} (h : '"' ∈ cs) : first? ('"' :: cs) = some .literal := by
  obtain ⟨body, rest, rfl, hbody⟩ := List.eq_append_cons_of_mem h
  have hliteral : LiteralText ('"' :: body ++ ['"']) rest := .inr ⟨body, rfl, hbody⟩
  simpa using hliteral.first?.1

theorem width_le_length {cs : List Char} {rule : Rule} (h : first? cs = some rule) :
    rule.width cs ≤ cs.length := by
  obtain ⟨text, rest, rfl, hfits⟩ := exists_fits h
  obtain ⟨rule', hfirst, -, hwidth⟩ := hfits.first?
  obtain rfl : rule = rule' := Option.some.inj (h.symm.trans hfirst)
  rw [hwidth, List.length_append]
  exact Nat.le_add_right _ _

end Rule

/-- Whether a text is in double quotes, or has no quote of either sort. -/
def SelfClosed (text : List Char) : Prop :=
  (∃ body, text = '"' :: body ++ ['"'] ∧ '"' ∉ body) ∨ (text ≠ [] ∧ '"' ∉ text ∧ '\'' ∉ text)

theorem Token.Fits.selfClosed {t : Token} {rest : List Char} (h : t.Fits rest) :
    SelfClosed t.text.toList := by
  have hfixed : ∀ text ∈ ["&&", "||", ":="] ++ comparisonTexts ++ separatorTexts,
      text.toList ≠ [] ∧ '"' ∉ text.toList ∧ '\'' ∉ text.toList := by decide
  obtain ⟨kind, text⟩ := t
  cases kind with
  | logicalOperator => exact .inr (hfixed text (by simp [Fits] at h ⊢; grind))
  | assignOperator => exact .inr (hfixed text (by simp [Fits] at h ⊢; grind))
  | comparisonOperator =>
    exact .inr (hfixed text (List.mem_append_left _ (List.mem_append_right _ h)))
  | separator => exact .inr (hfixed text (List.mem_append_right _ h))
  | identifier =>
    exact .inr ⟨h.1, fun hq => absurd (h.2.1 _ hq) (by decide),
      fun hq => absurd (h.2.1 _ hq) (by decide)⟩
  | literal =>
    rcases h with ⟨hne, hdigits, -⟩ | hquoted
    · exact .inr ⟨hne, fun hq => absurd (hdigits _ hq) (by decide),
        fun hq => absurd (hdigits _ hq) (by decide)⟩
    · exact .inl hquoted
  | eof => exact h.elim

theorem Token.Fits.even_quotes {t : Token} {rest : List Char} (h : t.Fits rest) :
    Even (t.text.toList.count '"') := by
  rcases h.selfClosed with ⟨body, hbody, hnone⟩ | ⟨-, hnone, -⟩
  · rw [hbody]
    simp [List.count_eq_zero.mpr hnone]
  · rw [List.count_eq_zero.mpr hnone]
    exact Even.zero

theorem mem_of_even_quotes {cs : List Char} (h : Even (('"' :: cs).count '"')) : '"' ∈ cs := by
  by_contra hq
  rw [List.count_cons_self, List.count_eq_zero.mpr hq] at h
  exact absurd h (by decide)

theorem Rule.first?_unclosed {cs : List Char} (h : '"' ∉ cs) : first? ('"' :: cs) = none := by
  cases hfirst : first? ('"' :: cs) with
  | none => rfl
  | some rule =>
    obtain ⟨text, rest, hcs, hfits⟩ := exists_fits hfirst
    obtain ⟨c, tail, htext, -⟩ := hfits.head
    have htext : text.toList = c :: tail := htext
    rw [htext] at hcs
    obtain ⟨rfl, rfl⟩ := List.cons.inj hcs
    have hclosed := mem_of_even_quotes (htext ▸ hfits.even_quotes)
    exact absurd (List.mem_append_left rest hclosed) h

namespace Piece

section
variable {c : Char} {cs : List Char}

theorem even_quotes_next (h : Even ((c :: cs).count '"')) :
    Even ((next c cs).2.count '"') := by
  have hone (hc : c ≠ '"') : Even (List.count '"' [c]) := by
    rw [List.count_singleton, if_neg (by simpa using hc)]
    exact Even.zero
  have hpiece : Even ((next c cs).1.chars.count '"') := by
    cases hfirst : Rule.first? (c :: cs) with
    | some rule =>
      obtain ⟨text, rest, -, hfits, hnext⟩ := next_of_first? hfirst
      rw [hnext]
      exact hfits.even_quotes
    | none =>
      have hc : c ≠ '"' := by
        rintro rfl
        rw [Rule.first?_quote (mem_of_even_quotes h)] at hfirst
        cases hfirst
      rw [next, hfirst]
      split
      · exact hone hc
      · exact hone hc
  rw [← chars_next c cs, List.count_append, Nat.even_add] at h
  exact h.mp hpiece

theorem next_append_stop {stop : Char} (hstop : IsStop stop) (h : c = '"' → '"' ∈ cs)
    (rest : List Char) :
    next c (cs ++ stop :: rest) = ((next c cs).1, (next c cs).2 ++ stop :: rest) := by
  have hfirst := Rule.first?_append_stop hstop h rest
  unfold next
  split
  · rfl
  · rw [← List.cons_append, hfirst]
    split
    · rename_i rule hrule
      have hle := Rule.width_le_length hrule
      rw [Rule.width_append_stop hstop rule h, List.take_append_of_le_length hle,
        List.drop_append_of_le_length hle]
    · rename_i hnone
      have hc : c ≠ '"' := by
        rintro rfl
        rw [Rule.first?_quote (h rfl)] at hnone
        cases hnone
      rw [if_neg hc, if_neg hc]

end

/-- Behind an even number of quotes a stopping character starts a piece. -/
theorem split_append_stop {stop : Char} (hstop : IsStop stop) (rest : List Char) :
    (cs : List Char) → Even (cs.count '"') →
    split (cs ++ stop :: rest) = split cs ++ split (stop :: rest)
  | [], _ => by rw [split_nil, List.nil_append, List.nil_append]
  | c :: cs, h => by
    have hclosed : c = '"' → '"' ∈ cs := by
      rintro rfl
      exact mem_of_even_quotes h
    rw [List.cons_append, split_cons, next_append_stop hstop hclosed, split_cons,
      split_append_stop hstop rest (next c cs).2 (even_quotes_next h), List.cons_append]
termination_by cs => cs.length
decreasing_by exact length_next_lt c cs

end Piece

section
variable (mode : Mode)

theorem readPieces_append (before : Nat) (ps qs : List Piece) :
    (readPieces mode before (ps ++ qs)).result =
      (readPieces mode before ps).result.bind fun xs =>
        (readPieces mode (before + (ps.flatMap Piece.chars).length) qs).result.map (xs ++ ·) := by
  induction ps generalizing before with
  | nil =>
    change (readPieces mode before qs).result = (readPieces mode before qs).result.map _
    cases (readPieces mode before qs).result <;> rfl
  | cons p ps ih =>
    cases hp : (p.read mode before).result with
    | error e =>
      rw [List.cons_append, readPieces_cons_error hp, readPieces_cons_error hp]
      rfl
    | ok token? =>
      rw [List.cons_append, readPieces_cons hp, readPieces_cons hp, ih, List.flatMap_cons,
        List.length_append, Nat.add_assoc]
      cases (readPieces mode (before + p.chars.length) ps).result with
      | error e => rfl
      | ok xs =>
        cases (readPieces mode _ qs).result with
        | error e => rfl
        | ok ys => simp [Except.map, Except.bind]

theorem read_add (n before : Nat) (p : Piece) :
    (p.read mode (n + before)).result =
      (p.read mode before).result.mapError (ScanError.after n) := by
  cases p with
  | blank c => rfl
  | lexeme rule cs => rfl
  | unknown c =>
    rw [Piece.read, Piece.read]
    split <;> rfl
  | unclosed cs =>
    rw [Piece.read, Piece.read]
    split <;> rfl

theorem readPieces_add (n before : Nat) (ps : List Piece) :
    (readPieces mode (n + before) ps).result =
      (readPieces mode before ps).result.mapError (ScanError.after n) := by
  induction ps generalizing before with
  | nil => rfl
  | cons p ps ih =>
    have hmoved := read_add mode n before p
    cases hp : (p.read mode before).result with
    | error e =>
      rw [hp] at hmoved
      rw [readPieces_cons_error hmoved, readPieces_cons_error hp]
      rfl
    | ok token? =>
      rw [hp] at hmoved
      rw [readPieces_cons hmoved, readPieces_cons hp, Nat.add_assoc, ih]
      cases (readPieces mode (before + p.chars.length) ps).result <;> rfl

variable {mode}

theorem column_of_readPieces {e : ScanError} (before : Nat) : (cs : List Char) →
    (readPieces mode before (Piece.split cs)).result = .error e →
      before < e.column ∧ e.column ≤ before + cs.length
  | [], h => by
    rw [Piece.split_nil] at h
    cases h
  | c :: cs, h => by
    have hlength := congrArg List.length (Piece.chars_next c cs)
    have hpos := List.length_pos_iff.mpr (Piece.chars_next_ne_nil c cs)
    rw [List.length_append] at hlength
    rw [Piece.split_cons, readPieces] at h
    rcases Logged.result_bind_eq_error.mp h with h | ⟨token?, -, h⟩
    · have hcolumn : e.column = before + 1 := by
        cases hp : (Piece.next c cs).1 with
        | blank c =>
          rw [hp] at h
          cases h
        | lexeme rule chars =>
          rw [hp] at h
          cases h
        | unknown c =>
          rw [hp, Piece.read] at h
          split at h <;> cases h
          rfl
        | unclosed chars =>
          rw [hp, Piece.read] at h
          split at h <;> cases h
          rfl
      omega
    · rcases Logged.result_bind_eq_error.mp h with h | ⟨tokens, -, h⟩
      · have := column_of_readPieces _ (Piece.next c cs).2 h
        omega
      · cases h
termination_by cs => cs.length
decreasing_by exact Piece.length_next_lt c cs

theorem column_of_tokenize {query : String} {e : ScanError} (h : tokenize mode query = .error e) :
    0 < e.column ∧ e.column ≤ query.length := by
  rw [tokenize_eq] at h
  have hcolumn := column_of_readPieces 0 query.toList h
  rwa [Nat.zero_add, String.length_toList] at hcolumn

theorem ScanError.after_after (m n : Nat) :
    (ScanError.after m ∘ ScanError.after n) = ScanError.after (m + n) := by
  funext e
  cases e <;> simp [ScanError.after, ScanError.withColumn, ScanError.column, Nat.add_assoc]

/-- Two texts put together are scanned apart if the quotes of the first are closed and the second
starts with a blank or a quote. -/
theorem tokenize_append {left right : String} (hleft : Even (left.toList.count '"'))
    (hright : ∀ c ∈ right.toList.head?, IsStop c) :
    tokenize mode (left ++ right) =
      (tokenize mode left).bind fun xs =>
        ((tokenize mode right).mapError (ScanError.after left.length)).map (xs ++ ·) := by
  have hpieces : Piece.split (left ++ right).toList =
      Piece.split left.toList ++ Piece.split right.toList := by
    rw [String.toList_append]
    cases hcs : right.toList with
    | nil => simp
    | cons stop cs => exact Piece.split_append_stop (hright stop (by simp [hcs])) cs _ hleft
  have hshift := readPieces_add mode left.length 0 (Piece.split right.toList)
  rw [tokenize_eq, tokenize_eq, tokenize_eq, hpieces, readPieces_append, Piece.chars_split,
    String.length_toList, Nat.zero_add]
  rw [Nat.add_zero] at hshift
  rw [hshift]

theorem tokenize_blank {w : Char} (hw : isBlank w) (right : String) :
    tokenize mode (String.singleton w ++ right) =
      (tokenize mode right).mapError (ScanError.after 1) := by
  have hgap : IsGap [w] := by simpa [IsGap] using hw
  have htext : (String.singleton w ++ right).toList = [w] ++ right.toList := by simp
  have hshift := readPieces_add mode 1 0 (Piece.split right.toList)
  rw [tokenize_eq, tokenize_eq, htext, Piece.split_gap hgap, readPieces_gap]
  exact hshift

theorem tokenize_quoted_front {body : String} (hbody : '"' ∉ body.toList) (right : String) :
    tokenize mode (quoted body ++ right) =
      ((tokenize mode right).mapError (ScanError.after (body.length + 2))).map
        (.literal (quoted body) :: ·) := by
  have htext : (quoted body).toList = '"' :: body.toList ++ ['"'] := by simp [quoted]
  have hfits : (Token.literal (quoted body)).Fits right.toList := .inr ⟨body.toList, htext, hbody⟩
  have hlength : (quoted body).toList.length = body.length + 2 := by
    simp [htext, String.length_toList]
  obtain ⟨rule, hkind, hsplit⟩ := Piece.split_word hfits
  have hsplit : Piece.split ((quoted body).toList ++ right.toList) =
    .lexeme rule (quoted body).toList :: Piece.split right.toList := hsplit
  have hshift := readPieces_add mode (body.length + 2) 0 (Piece.split right.toList)
  rw [Nat.add_zero] at hshift
  rw [tokenize_eq, tokenize_eq, String.toList_append, hsplit, readPieces_lexeme, hkind,
    String.ofList_toList, hlength, Nat.zero_add, hshift]
  rfl

theorem tokenize_quoted {left body : String} (right : String)
    (hleft : Even (left.toList.count '"')) (hbody : '"' ∉ body.toList) :
    tokenize mode (left ++ quoted body ++ right) =
      (tokenize mode left).bind fun xs =>
        ((tokenize mode right).mapError (ScanError.after (left.length + (body.length + 2)))).map
          fun ys => xs ++ .literal (quoted body) :: ys := by
  have hstop : ∀ c ∈ (quoted body ++ right).toList.head?, IsStop c := by
    simp [quoted, IsStop]
  rw [String.append_assoc, tokenize_append hleft hstop, tokenize_quoted_front hbody,
    ← ScanError.after_after left.length]
  congr 1
  funext xs
  cases tokenize mode right <;> rfl

end

end FilterQuery
