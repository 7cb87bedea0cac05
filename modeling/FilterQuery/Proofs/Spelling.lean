import FilterQuery.Proofs.Lexeme
import FilterQuery.Token.Scan
/-!
# Spellings of token lists

A text that the strict scan accepts is tokens with blanks around them, each token fitting what
follows it. No text has two such spellings.
-/
namespace FilterQuery

def IsGap (cs : List Char) : Prop := ∀ c ∈ cs, isBlank c

/-- The text of tokens that are each followed by blanks. -/
def wordsText : List (Token × List Char) → List Char
  | [] => []
  | (t, gap) :: words => t.text.toList ++ (gap ++ wordsText words)

/-- Whether each token fits the rest of the text, and only blanks stand between tokens. -/
def WordsFit : List (Token × List Char) → Prop
  | [] => True
  | (t, gap) :: words => t.Fits (gap ++ wordsText words) ∧ IsGap gap ∧ WordsFit words

structure Spelling where
  /-- The blanks before the first token. -/
  lead : List Char
  /-- The tokens, each with the blanks behind it. -/
  words : List (Token × List Char)
  lead_blank : IsGap lead
  words_fit : WordsFit words

namespace Spelling

def text (s : Spelling) : List Char := s.lead ++ wordsText s.words

def tokens (s : Spelling) : List Token := s.words.map Prod.fst

end Spelling

theorem head_wordsText {words : List (Token × List Char)} (h : WordsFit words) :
    ∀ c ∈ (wordsText words).head?, ¬ isBlank c := by
  cases words with
  | nil => simp [wordsText]
  | cons word words =>
    obtain ⟨c, cs, htext, hc⟩ := h.1.head
    simpa [wordsText, htext] using hc

theorem gap_inj {gap gap' : List Char} {words words' : List (Token × List Char)}
    (hgap : IsGap gap) (hgap' : IsGap gap') (h : WordsFit words) (h' : WordsFit words')
    (heq : gap ++ wordsText words = gap' ++ wordsText words') :
    gap = gap' ∧ wordsText words = wordsText words' := by
  have htake := takeWhile_run hgap (head_wordsText h)
  rw [heq, takeWhile_run hgap' (head_wordsText h')] at htake
  have hdrop := dropWhile_run hgap (head_wordsText h)
  rw [heq, dropWhile_run hgap' (head_wordsText h')] at hdrop
  exact ⟨htake.symm, hdrop.symm⟩

theorem wordsText_inj {words words' : List (Token × List Char)} (h : WordsFit words)
    (h' : WordsFit words') (heq : wordsText words = wordsText words') : words = words' := by
  induction words generalizing words' with
  | nil =>
    cases words' with
    | nil => rfl
    | cons word' words' =>
      obtain ⟨c, cs, htext, -⟩ := h'.1.head
      simp [wordsText, htext] at heq
  | cons word words ih =>
    cases words' with
    | nil =>
      obtain ⟨c, cs, htext, -⟩ := h.1.head
      simp [wordsText, htext] at heq
    | cons word' words' =>
      obtain ⟨t, gap⟩ := word
      obtain ⟨t', gap'⟩ := word'
      obtain ⟨hfits, hgap, hwords⟩ := h
      obtain ⟨hfits', hgap', hwords'⟩ := h'
      obtain ⟨rfl, hrest⟩ := hfits.inj hfits' heq
      obtain ⟨rfl, htail⟩ := gap_inj hgap hgap' hwords hwords' hrest
      rw [ih hwords hwords' htail]

theorem Spelling.text_inj {s s' : Spelling} (h : s.text = s'.text) : s = s' := by
  obtain ⟨lead, words, hlead, hwords⟩ := s
  obtain ⟨lead', words', hlead', hwords'⟩ := s'
  obtain ⟨rfl, htext⟩ := gap_inj hlead hlead' hwords hwords' h
  cases wordsText_inj hwords hwords' htext
  rfl

/-- The tokens with one blank behind each. -/
def Spelling.spaced (ts : List Token) (h : ∀ t ∈ ts, t.Fits []) : Spelling where
  lead := []
  words := ts.map (·, [' '])
  lead_blank := nofun
  words_fit := by
    induction ts with
    | nil => trivial
    | cons t ts ih =>
      refine ⟨(h t List.mem_cons_self).before_blank ?_, ?_, ?_⟩
      · simp [isBlank]
      · simp [IsGap, isBlank]
      · exact ih fun t ht => h t (List.mem_cons_of_mem _ ht)

theorem Spelling.tokens_spaced (ts : List Token) (h : ∀ t ∈ ts, t.Fits []) :
    (spaced ts h).tokens = ts := by
  simp [spaced, tokens, Function.comp_def]

namespace Piece

theorem split_blank {c : Char} (hc : isBlank c) (cs : List Char) :
    split (c :: cs) = .blank c :: split cs := by
  rw [split_cons, next, if_pos hc]

theorem split_gap {gap : List Char} (h : IsGap gap) (rest : List Char) :
    split (gap ++ rest) = gap.map blank ++ split rest := by
  induction gap with
  | nil => rfl
  | cons c gap ih =>
    have hc : isBlank c := h c List.mem_cons_self
    have hgap : IsGap gap := fun d hd => h d (List.mem_cons_of_mem c hd)
    rw [List.cons_append, split_blank hc, ih hgap]
    rfl

theorem split_of_first? {t : Token} {rest : List Char} {rule : Rule} (h : t.Fits rest)
    (hfirst : Rule.first? (t.text.toList ++ rest) = some rule) :
    split (t.text.toList ++ rest) = .lexeme rule t.text.toList :: split rest := by
  obtain ⟨rule', hfirst', -, hwidth⟩ := h.first?
  cases hfirst.symm.trans hfirst'
  obtain ⟨c, cs, htext, hc⟩ := h.head
  have hnext : next c (cs ++ rest) = (.lexeme rule t.text.toList, rest) := by
    rw [htext, List.cons_append] at hfirst hwidth
    have hsplit : c :: (cs ++ rest) = t.text.toList ++ rest := by rw [htext, List.cons_append]
    rw [next, if_neg hc, hfirst]
    simp only [hwidth]
    rw [← htext, hsplit, List.take_left, List.drop_left]
  rw [htext, List.cons_append, split_cons, hnext, htext]

theorem split_word {t : Token} {rest : List Char} (h : t.Fits rest) :
    ∃ rule, rule.kind = t.kind ∧
      split (t.text.toList ++ rest) = .lexeme rule t.text.toList :: split rest := by
  obtain ⟨rule, hfirst, hkind, -⟩ := h.first?
  exact ⟨rule, hkind, split_of_first? h hfirst⟩

theorem next_of_first? {c : Char} {cs : List Char} {rule : Rule}
    (h : Rule.first? (c :: cs) = some rule) :
    ∃ text rest, c :: cs = text.toList ++ rest ∧ Token.Fits ⟨rule.kind, text⟩ rest ∧
      next c cs = (.lexeme rule text.toList, rest) := by
  obtain ⟨text, rest, hcs, hfits⟩ := Rule.exists_fits h
  obtain ⟨rule', hfirst, -, hwidth⟩ := hfits.first?
  have hwidth : rule'.width (text.toList ++ rest) = text.toList.length := hwidth
  have hblank : ¬ isBlank c := by
    intro hc
    rw [Rule.first?_blank hc] at h
    cases h
  rw [← hcs, h] at hfirst
  cases hfirst
  refine ⟨text, rest, hcs, hfits, ?_⟩
  rw [next, if_neg hblank, h]
  simp only [hcs, hwidth, List.take_left, List.drop_left]

end Piece

theorem tokenize_eq (mode : Mode) (query : String) :
    tokenize mode query = (readPieces mode 0 (Piece.split query.toList)).result := by
  rw [tokenize, scan_eq, Logged.result_bind]
  cases (readPieces mode 0 (Piece.split query.toList)).result <;> rfl

theorem readPieces_cons {mode : Mode} {before : Nat} {p : Piece} {token? : Option Token}
    (h : (p.read mode before).result = .ok token?) (ps : List Piece) :
    (readPieces mode before (p :: ps)).result =
      (readPieces mode (before + p.chars.length) ps).result.map (token?.toList ++ ·) := by
  rw [readPieces, Logged.result_bind, h]
  change (readPieces mode (before + p.chars.length) ps >>= _).result = _
  rw [Logged.result_bind]
  cases (readPieces mode (before + p.chars.length) ps).result <;> rfl

theorem readPieces_cons_error {mode : Mode} {before : Nat} {p : Piece} {e : ScanError}
    (h : (p.read mode before).result = .error e) (ps : List Piece) :
    (readPieces mode before (p :: ps)).result = .error e := by
  rw [readPieces, Logged.result_bind, h]
  rfl

theorem readPieces_cons_ok {mode : Mode} {before : Nat} {p : Piece} {ps : List Piece}
    {ts : List Token} (h : (readPieces mode before (p :: ps)).result = .ok ts) :
    ∃ token? rest, (p.read mode before).result = .ok token? ∧
      (readPieces mode (before + p.chars.length) ps).result = .ok rest ∧
      ts = token?.toList ++ rest := by
  rw [readPieces] at h
  obtain ⟨token?, hp, h⟩ := Logged.result_bind_eq_ok.mp h
  obtain ⟨rest, hps, h⟩ := Logged.result_bind_eq_ok.mp h
  cases h
  exact ⟨token?, rest, hp, hps, rfl⟩

theorem log_readPieces_cons {mode : Mode} {before : Nat} {p : Piece} {token? : Option Token}
    (h : (p.read mode before).result = .ok token?) (ps : List Piece) :
    (readPieces mode before (p :: ps)).log =
      (p.read mode before).log ++ (readPieces mode (before + p.chars.length) ps).log := by
  rw [readPieces, Logged.log_bind_ok h, Logged.log_bind_pure]

theorem readPieces_gap (mode : Mode) (before : Nat) (gap : List Char) (ps : List Piece) :
    (readPieces mode before (gap.map .blank ++ ps)).result =
      (readPieces mode (before + gap.length) ps).result := by
  induction gap generalizing before with
  | nil => rfl
  | cons c gap ih =>
    have hread : (Piece.read mode before (.blank c)).result = .ok none := rfl
    rw [List.map_cons, List.cons_append, readPieces_cons hread, ih]
    have hlen : before + (Piece.blank c).chars.length + gap.length =
        before + (c :: gap).length := by
      simp [Piece.chars]; omega
    rw [hlen]
    cases (readPieces mode (before + (c :: gap).length) ps).result <;> rfl

theorem readPieces_lexeme (mode : Mode) (before : Nat) (rule : Rule) (cs : List Char)
    (ps : List Piece) :
    (readPieces mode before (.lexeme rule cs :: ps)).result =
      (readPieces mode (before + cs.length) ps).result.map (⟨rule.kind, String.ofList cs⟩ :: ·) :=
  readPieces_cons (p := .lexeme rule cs) rfl ps

/-- The words of a spelling are read in either mode. -/
theorem readPieces_words {words : List (Token × List Char)} (h : WordsFit words) (mode : Mode)
    (before : Nat) :
    (readPieces mode before (Piece.split (wordsText words))).result =
      .ok (words.map Prod.fst) := by
  induction words generalizing before with
  | nil => simp [wordsText, readPieces]
  | cons word words ih =>
    obtain ⟨t, gap⟩ := word
    obtain ⟨hfits, hgap, hwords⟩ := h
    obtain ⟨rule, hkind, hsplit⟩ := Piece.split_word hfits
    rw [wordsText, hsplit, readPieces_lexeme, Piece.split_gap hgap, readPieces_gap, ih hwords,
      hkind, String.ofList_toList]
    rfl

theorem Spelling.tokenize_eq_tokens {s : Spelling} {query : String} (h : s.text = query.toList)
    (mode : Mode) : tokenize mode query = .ok s.tokens := by
  rw [tokenize_eq, ← h, Spelling.text, Piece.split_gap s.lead_blank, readPieces_gap]
  exact readPieces_words s.words_fit mode _

theorem readPieces_stuck {c : Char} {cs : List Char} (hc : ¬ isBlank c)
    (h : Rule.first? (c :: cs) = none) (before : Nat) (ts : List Token) :
    (readPieces .strict before (Piece.split (c :: cs))).result ≠ .ok ts := by
  have hread : ∃ e, ((Piece.next c cs).1.read .strict before).result = .error e := by
    rw [Piece.next, if_neg hc, h]
    by_cases hq : c = '"'
    · exact ⟨.unterminatedLiteral (before + 1), by simp [hq, Piece.read]⟩
    · exact ⟨.invalidCharacter c (before + 1), by simp [hq, Piece.read]⟩
  obtain ⟨e, hread⟩ := hread
  rw [Piece.split_cons, readPieces_cons_error hread]
  intro h
  cases h

theorem exists_word {c : Char} {cs : List Char} {ts : List Token} {before : Nat}
    (hc : ¬ isBlank c)
    (h : (readPieces .strict before (Piece.split (c :: cs))).result = .ok ts) :
    ∃ (t : Token) (rest : List Char) (tail : List Token), c :: cs = t.text.toList ++ rest ∧
      t.Fits rest ∧ ts = t :: tail ∧
      (readPieces .strict (before + t.text.toList.length) (Piece.split rest)).result = .ok tail := by
  cases hfirst : Rule.first? (c :: cs) with
  | none => exact absurd h (readPieces_stuck hc hfirst before ts)
  | some rule =>
    obtain ⟨text, rest, hcs, hfits⟩ := Rule.exists_fits hfirst
    obtain ⟨rule', hkind, hsplit⟩ := Piece.split_word hfits
    rw [hcs, hsplit] at h
    obtain ⟨token?, tail, hread, htail, rfl⟩ := readPieces_cons_ok h
    cases hread
    refine ⟨⟨rule.kind, text⟩, rest, tail, hcs, hfits, ?_, htail⟩
    rw [hkind, String.ofList_toList]
    rfl

theorem exists_spelling (cs : List Char) (before : Nat) (ts : List Token)
    (h : (readPieces .strict before (Piece.split cs)).result = .ok ts) :
    ∃ s : Spelling, s.text = cs ∧ s.tokens = ts := by
  obtain ⟨gap, rest, rfl, hgap, hrest⟩ := exists_run isBlank cs
  rw [Piece.split_gap hgap, readPieces_gap] at h
  cases rest with
  | nil =>
    have hts : [] = ts := by simpa [readPieces] using h
    exact ⟨⟨gap, [], hgap, trivial⟩, rfl, hts⟩
  | cons c rest =>
    obtain ⟨t, tail, ts', htext, hfits, rfl, htail⟩ := exists_word (hrest c rfl) h
    have hlt : tail.length < (gap ++ c :: rest).length := by
      obtain ⟨d, ds, hd, -⟩ := hfits.head
      simp only [List.length_append, htext, hd, List.length_cons]
      omega
    obtain ⟨s, rfl, rfl⟩ := exists_spelling tail _ ts' htail
    refine ⟨⟨gap, (t, s.lead) :: s.words, hgap, hfits, s.lead_blank, s.words_fit⟩, ?_, rfl⟩
    rw [htext]
    rfl
termination_by cs.length

/-- The strict scan returns the tokens of the only spelling of the text, and fails if there is
none. -/
theorem tokenize_strict_iff (query : String) :
    (∀ ts, tokenize .strict query = .ok ts ↔
      ∃ s : Spelling, s.text = query.toList ∧ s.tokens = ts) ∧
    ∀ s s' : Spelling, s.text = query.toList → s'.text = query.toList → s = s' := by
  refine ⟨fun ts => ⟨fun h => ?_, ?_⟩, fun s s' hs hs' => Spelling.text_inj (hs.trans hs'.symm)⟩
  · rw [tokenize_eq] at h
    exact exists_spelling query.toList 0 ts h
  · rintro ⟨s, hs, rfl⟩
    exact s.tokenize_eq_tokens hs .strict

theorem spelling_comma_eq : ∃ s s' : Spelling, s.text = " ,".toList ∧
    s.tokens = [Token.separator ","] ∧ s'.words = [(Token.separator ",", [])] ∧ s = s' := by
  have hfit : WordsFit [(Token.separator ",", [])] :=
    ⟨List.mem_of_elem_eq_true rfl, nofun, trivial⟩
  obtain ⟨s, hs, hts⟩ :=
    ((tokenize_strict_iff " ,").1 [Token.separator ","]).mp (by cbv)
  let s' : Spelling := ⟨[' '], [(Token.separator ",", [])], by simp [IsGap, isBlank], hfit⟩
  exact ⟨s, s', hs, hts, rfl, (tokenize_strict_iff " ,").2 s s' hs rfl⟩

end FilterQuery
