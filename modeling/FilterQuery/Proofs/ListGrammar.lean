import FilterQuery.Proofs.ListFault
/-!
# Lists by their grammar

    strict    '[' LITERAL (',' LITERAL)* ']'
    lenient   '[' (LITERAL ',')* LITERAL? ']'

A list is cut at its first closing bracket and then checked by index. The two grammars as regular
languages of tokens: what the check accepts are their words, and it fails at the first token behind
which no word can follow. In strict mode it also fails where a literal with the text of the closing
bracket has cut a list short that could still become a word.
-/
namespace FilterQuery

open Computability

/-! ### The languages -/

/-- One token with the given text, of any kind. -/
def textWord (text : String) : Language Token := {ts | ∃ t, ts = [t] ∧ t.text = text}

/-- One literal, whatever its text. -/
def literalWord : Language Token := {ts | ∃ t, ts = [t] ∧ t.kind = .literal}

/-- What stands between the brackets of a list. -/
def itemWords : Mode → Language Token
  | .lenient => (literalWord * textWord ",")∗ * (1 + literalWord)
  | .strict => literalWord * (textWord "," * literalWord)∗

def listWords (mode : Mode) : Language Token := textWord "[" * itemWords mode * textWord "]"

theorem singleton_mem_textWord {text : String} {t : Token} :
    [t] ∈ textWord text ↔ t.text = text := by
  constructor
  · rintro ⟨_, hsingleton, ht⟩
    cases hsingleton
    exact ht
  · intro ht
    exact ⟨t, rfl, ht⟩

theorem singleton_mem_literalWord {t : Token} : [t] ∈ literalWord ↔ t.kind = .literal := by
  constructor
  · rintro ⟨_, hsingleton, ht⟩
    cases hsingleton
    exact ht
  · intro ht
    exact ⟨t, rfl, ht⟩

theorem append_mem_kstar {l : Language Token} {xs ys : List Token} (hx : xs ∈ l) (hy : ys ∈ l∗) :
    xs ++ ys ∈ l∗ := by
  obtain ⟨words, rfl, hwords⟩ := Language.mem_kstar.mp hy
  exact Language.mem_kstar.mpr ⟨xs :: words, rfl, List.forall_mem_cons.mpr ⟨hx, hwords⟩⟩

theorem mem_lenient_items_iff {ts : List Token} : ts ∈ itemWords .lenient ↔ Alternates ts := by
  constructor
  · intro h
    obtain ⟨_, hstar, last, hlast, rfl⟩ := Language.mem_mul.mp h
    obtain ⟨pairs, rfl, hpairs⟩ := Language.mem_kstar.mp hstar
    clear h hstar
    induction pairs with
    | nil =>
      rcases (Language.mem_add _ _ _).mp hlast with hlast | ⟨t, rfl, ht⟩
      · rw [(Language.mem_one _).mp hlast]
        exact .nil
      · exact .literal ht
    | cons pair pairs ih =>
      rw [List.forall_mem_cons] at hpairs
      obtain ⟨_, ⟨t, rfl, ht⟩, _, ⟨s, rfl, hs⟩, rfl⟩ := Language.mem_mul.mp hpairs.1
      exact .comma ht hs (ih hpairs.2)
  · intro h
    induction h with
    | nil => exact Language.append_mem_mul (Language.nil_mem_kstar _) (.inl rfl)
    | literal ht =>
      have hlast := singleton_mem_literalWord.mpr ht
      exact Language.append_mem_mul (Language.nil_mem_kstar _) (.inr hlast)
    | @comma t s rest ht hs _ ih =>
      obtain ⟨pairs, hpairs, last, hlast, rfl⟩ := Language.mem_mul.mp ih
      have hpair : [t, s] ∈ literalWord * textWord "," :=
        Language.append_mem_mul (singleton_mem_literalWord.mpr ht) (singleton_mem_textWord.mpr hs)
      exact Language.append_mem_mul (append_mem_kstar hpair hpairs) hlast

theorem mem_strict_items_iff {ts : List Token} :
    ts ∈ itemWords .strict ↔ Alternates ts ∧ ts.length % 2 = 1 := by
  constructor
  · intro h
    obtain ⟨_, ⟨t, rfl, ht⟩, _, hstar, rfl⟩ := Language.mem_mul.mp h
    obtain ⟨pairs, rfl, hpairs⟩ := Language.mem_kstar.mp hstar
    clear h hstar
    induction pairs generalizing t with
    | nil => exact ⟨.literal ht, rfl⟩
    | cons pair pairs ih =>
      rw [List.forall_mem_cons] at hpairs
      obtain ⟨_, ⟨s, rfl, hs⟩, _, ⟨u, rfl, hu⟩, rfl⟩ := Language.mem_mul.mp hpairs.1
      obtain ⟨hrest, hodd⟩ := ih u hu hpairs.2
      refine ⟨.comma ht hs hrest, ?_⟩
      simp only [List.length_append, List.length_cons, List.flatten_cons] at hodd ⊢
      omega
  · rintro ⟨h, hodd⟩
    induction h with
    | nil => simp at hodd
    | literal ht =>
      exact Language.append_mem_mul (singleton_mem_literalWord.mpr ht) (Language.nil_mem_kstar _)
    | @comma t s rest ht hs _ ih =>
      rw [List.length_cons, List.length_cons] at hodd
      obtain ⟨_, ⟨u, rfl, hu⟩, pairs, hpairs, rfl⟩ := Language.mem_mul.mp (ih (by omega))
      have hpair : [s, u] ∈ textWord "," * literalWord :=
        Language.append_mem_mul (singleton_mem_textWord.mpr hs) (singleton_mem_literalWord.mpr hu)
      exact Language.append_mem_mul (singleton_mem_literalWord.mpr ht)
        (append_mem_kstar hpair hpairs)

section
variable {mode : Mode} {ts : List Token}

theorem mem_itemWords_iff :
    ts ∈ itemWords mode ↔ Alternates ts ∧ (mode = .strict → ts.length % 2 = 1) := by
  cases mode with
  | strict => simp [mem_strict_items_iff]
  | lenient => simp [mem_lenient_items_iff]

theorem mem_listWords_iff :
    ts ∈ listWords mode ↔ ∃ opening items closing, ts = opening :: items ++ [closing] ∧
      opening.text = "[" ∧ items ∈ itemWords mode ∧ closing.text = "]" := by
  constructor
  · intro h
    obtain ⟨_, hfront, _, ⟨closing, rfl, hclosing⟩, rfl⟩ := Language.mem_mul.mp h
    obtain ⟨_, ⟨opening, rfl, hopening⟩, items, hitems, rfl⟩ := Language.mem_mul.mp hfront
    exact ⟨opening, items, closing, rfl, hopening, hitems, hclosing⟩
  · rintro ⟨opening, items, closing, rfl, hopening, hitems, hclosing⟩
    have hfront := Language.append_mem_mul (singleton_mem_textWord.mpr hopening) hitems
    exact Language.append_mem_mul hfront (singleton_mem_textWord.mpr hclosing)

theorem length_brackets_mod_two (opening closing : Token) (items : List Token) :
    (opening :: items ++ [closing]).length % 2 = items.length % 2 := by
  rw [List.length_append, List.length_cons, List.length_singleton, Nat.add_assoc,
    Nat.add_mod_right]

theorem IsListIn.mem_listWords (h : IsListIn mode ts) : ts ∈ listWords mode := by
  obtain ⟨⟨opening, items, closing, rfl, hopening, halternates, hclosing, -, -⟩, hodd⟩ := h
  rw [length_brackets_mod_two] at hodd
  have hitems : items ∈ itemWords mode := mem_itemWords_iff.mpr ⟨halternates, hodd⟩
  exact mem_listWords_iff.mpr ⟨opening, items, closing, rfl, hopening, hitems, hclosing⟩

theorem isListIn_of_mem_listWords {inside : List Token} {closing : Token}
    (hinside : ∀ t ∈ inside, Parse.isInsideList t) (heof : closing.isEof = false)
    (h : inside ++ [closing] ∈ listWords mode) : IsListIn mode (inside ++ [closing]) := by
  obtain ⟨opening, items, closing', hsplit, hopening, hitems, hclosing⟩ := mem_listWords_iff.mp h
  obtain ⟨rfl, hlast⟩ := List.append_inj' hsplit rfl
  cases hlast
  obtain ⟨halternates, hodd⟩ := mem_itemWords_iff.mp hitems
  refine ⟨⟨opening, items, closing, rfl, hopening, halternates, hclosing, heof, hinside⟩, ?_⟩
  rwa [length_brackets_mod_two]

end

/-! ### Words that go on behind a fault -/

/-- The token made one that may stand inside a list, of the same use for the grammar there. -/
def Token.asInside (t : Token) : Token :=
  if t.text = "]" then .literal "1" else if t.isEof then .separator t.text else t

theorem Token.asInside_of_inside {t : Token} (h : Parse.isInsideList t) : t.asInside = t := by
  obtain ⟨heof, htext⟩ := Parse.isInsideList_iff.mp h
  rw [asInside, if_neg htext, if_neg (by simp [heof])]

theorem Token.isInsideList_asInside (t : Token) : Parse.isInsideList t.asInside := by
  unfold asInside
  split
  · rfl
  · rename_i htext
    split
    · exact Parse.isInsideList_iff.mpr ⟨rfl, htext⟩
    · rename_i heof
      exact Parse.isInsideList_iff.mpr ⟨by simpa using heof, htext⟩

theorem Token.kind_asInside {t : Token} (h : t.kind = .literal) : t.asInside.kind = .literal := by
  unfold asInside
  split
  · rfl
  · rwa [if_neg (by simp [isEof, h])]

theorem Token.text_asInside {t : Token} (h : t.text ≠ "]") : t.asInside.text = t.text := by
  rw [asInside, if_neg h]
  split <;> rfl

theorem Alternates.asInside {ts : List Token} (h : Alternates ts) :
    Alternates (ts.map Token.asInside) := by
  induction h with
  | nil => exact .nil
  | literal ht => exact .literal (Token.kind_asInside ht)
  | comma ht hs _ ih =>
    have hcomma := Token.text_asInside (by rw [hs]; decide)
    exact .comma (Token.kind_asInside ht) (hcomma.trans hs) ih

theorem Alternates.of_append {ts others : List Token} (h : Alternates (ts ++ others)) :
    Alternates ts := by
  generalize hall : ts ++ others = all at h
  induction h generalizing ts with
  | nil =>
    rw [(List.append_eq_nil_iff.mp hall).1]
    exact .nil
  | literal ht =>
    rcases List.append_eq_singleton_iff.mp hall with ⟨rfl, -⟩ | ⟨rfl, -⟩
    · exact .nil
    · exact .literal ht
  | comma ht hs _ ih =>
    match ts, hall with
    | [], _ => exact .nil
    | [t], hall =>
      cases hall
      exact .literal ht
    | t :: s :: ts, hall =>
      cases hall
      exact .comma ht hs (ih rfl)

theorem Alternates.of_mem {ts : List Token} (h : Alternates ts) {t : Token} (ht : t ∈ ts) :
    t.kind = .literal ∨ t.text = "," := by
  induction h with
  | nil => cases ht
  | literal hliteral =>
    obtain rfl := List.mem_singleton.mp ht
    exact .inl hliteral
  | comma hliteral hcomma _ ih =>
    rcases List.mem_cons.mp ht with rfl | ht
    · exact .inl hliteral
    · rcases List.mem_cons.mp ht with rfl | ht
      · exact .inr hcomma
      · exact ih ht

section
variable {mode : Mode} {before more : List Token} {found : Token}

theorem map_asInside_mem_listWords {ts : List Token} {closing : Token}
    (h : ts ++ [closing] ∈ listWords mode) :
    ts.map Token.asInside ++ [.separator "]"] ∈ listWords mode := by
  obtain ⟨opening, items, closing', hsplit, hopening, hitems, -⟩ := mem_listWords_iff.mp h
  obtain ⟨rfl, -⟩ := List.append_inj' hsplit rfl
  obtain ⟨halternates, hodd⟩ := mem_itemWords_iff.mp hitems
  have hopening' := Token.text_asInside (by rw [hopening]; decide)
  have hitems' : items.map Token.asInside ∈ itemWords mode :=
    mem_itemWords_iff.mpr ⟨halternates.asInside, by rwa [List.length_map]⟩
  exact mem_listWords_iff.mpr
    ⟨opening.asInside, _, .separator "]", by simp, hopening'.trans hopening, hitems', rfl⟩

theorem exists_list_of_mem_listWords (hbefore : ∀ t ∈ before, Parse.isInsideList t)
    (heof : found.isEof = false) (hend : found.text = "]" → more = [])
    (h : before ++ found :: more ∈ listWords mode) :
    ∃ more, IsListIn mode (before ++ found :: more) := by
  rcases List.eq_nil_or_concat more with rfl | ⟨items, closing, rfl⟩
  · exact ⟨[], isListIn_of_mem_listWords hbefore heof h⟩
  · have hfound : Parse.isInsideList found := by
      have htext : found.text ≠ "]" := fun htext => by simpa using hend htext
      exact Parse.isInsideList_iff.mpr ⟨heof, htext⟩
    have hmap : (before ++ found :: items).map Token.asInside =
        before ++ found :: items.map Token.asInside := by
      rw [List.map_append, List.map_cons, Token.asInside_of_inside hfound,
        List.map_congr_left fun t ht => Token.asInside_of_inside (hbefore t ht), List.map_id']
    rw [append_cons_concat] at h
    have hword := map_asInside_mem_listWords h
    have hlist := isListIn_of_mem_listWords
      (List.forall_mem_map.mpr fun t _ => t.isInsideList_asInside) rfl hword
    rw [hmap, List.append_assoc, List.cons_append] at hlist
    exact ⟨_, hlist⟩

theorem eq_nil_of_closing (htext : found.text = "]") (hkind : found.kind ≠ .literal)
    (h : before ++ found :: more ∈ listWords mode) : more = [] := by
  obtain ⟨opening, items, closing, hsplit, hopening, hitems, -⟩ := mem_listWords_iff.mp h
  rcases append_cons_eq_concat hsplit with ⟨hnil, -⟩ | ⟨others, -, hfront⟩
  · exact hnil
  · have hmem : found ∈ opening :: items := hfront ▸ List.mem_append_right _ List.mem_cons_self
    rcases List.mem_cons.mp hmem with rfl | hmem
    · simp [htext] at hopening
    · rcases (mem_itemWords_iff.mp hitems).1.of_mem hmem with hliteral | hcomma
      · exact absurd hliteral hkind
      · simp [htext] at hcomma

theorem concat_mem_listWords (htext : found.text = "]")
    (h : before ++ found :: more ∈ listWords .lenient) : before ++ [found] ∈ listWords .lenient := by
  obtain ⟨opening, items, closing, hsplit, hopening, hitems, -⟩ := mem_listWords_iff.mp h
  have hfront : ∃ others, opening :: items = before ++ others := by
    rcases append_cons_eq_concat hsplit with ⟨-, rfl, -⟩ | ⟨others, -, hfront⟩
    · exact ⟨[], (List.append_nil _).symm⟩
    · exact ⟨_, hfront⟩
  obtain ⟨others, hothers⟩ := hfront
  cases before with
  | nil =>
    obtain ⟨rfl, -⟩ := List.cons.inj hsplit
    simp [htext] at hopening
  | cons first before =>
    obtain ⟨rfl, rfl⟩ := List.cons.inj hothers
    have halternates := (mem_itemWords_iff.mp hitems).1.of_append
    have hbefore : before ∈ itemWords .lenient :=
      mem_itemWords_iff.mpr ⟨halternates, fun hmode => by cases hmode⟩
    exact mem_listWords_iff.mpr ⟨_, before, found, rfl, hopening, hbefore, htext⟩

/-- The tokens before it begin a word, and with it they do not. -/
def StopsWord (mode : Mode) (before : List Token) (found : Token) : Prop :=
  (∃ more, before ++ more ∈ listWords mode) ∧ ∀ more, before ++ found :: more ∉ listWords mode

/-- Where a list breaks, its words stop, unless a literal has cut it. -/
theorem Parse.BreaksList.stopsWord {inside : List Token} {closing : Token} {text : String}
    (h : BreaksList mode (inside ++ [closing]) text) (hinside : ∀ t ∈ inside, isInsideList t)
    (heof : closing.isEof = false) : ∃ found : Token, found.text = text ∧
      ((∃ before after, inside ++ [closing] = before ++ found :: after ∧
          StopsWord mode before found) ∨
        mode = .strict ∧ found = closing ∧ found.kind = .literal ∧
          ∃ more, inside ++ found :: more ∈ listWords mode) := by
  obtain ⟨before, found, after, hsplit, rfl, hbefore, ⟨others, hviable⟩, hbreaks⟩ := h
  refine ⟨found, rfl, ?_⟩
  have heof : found.isEof = false := by
    have hall : ∀ t ∈ inside ++ [closing], t.isEof = false := by
      rw [List.forall_mem_append, List.forall_mem_singleton]
      exact ⟨fun t ht => (isInsideList_iff.mp (hinside t ht)).1, heof⟩
    exact hall found (hsplit ▸ List.mem_append_right _ List.mem_cons_self)
  have hno (more : List Token) (hend : found.text = "]" → more = []) :
      before ++ found :: more ∉ listWords mode := by
    intro hword
    obtain ⟨more, hlist⟩ := exists_list_of_mem_listWords hbefore heof hend hword
    exact hbreaks more hlist
  by_cases hmore : ∃ more, before ++ found :: more ∈ listWords mode
  · obtain ⟨more, hword⟩ := hmore
    have htext : found.text = "]" := by
      by_contra htext
      exact hno more (fun h => absurd h htext) hword
    have hkind : found.kind = .literal := by
      by_contra hkind
      exact hno more (fun _ => eq_nil_of_closing htext hkind hword) hword
    have hmode : mode = .strict := by
      cases mode with
      | strict => rfl
      | lenient => exact absurd (concat_mem_listWords htext hword) (hno [] fun _ => rfl)
    rcases append_cons_eq_concat hsplit.symm with ⟨-, rfl, hclosing⟩ | ⟨others, -, rfl⟩
    · exact .inr ⟨hmode, hclosing, hkind, more, hword⟩
    · have hfound := hinside found (List.mem_append_right _ List.mem_cons_self)
      exact absurd htext (isInsideList_iff.mp hfound).2
  · rw [not_exists] at hmore
    exact .inl ⟨before, after, hsplit, ⟨others, hviable.mem_listWords⟩, hmore⟩

end

/-! ### Reading a list -/

/-- The node of a list, or the leaf for missing input. -/
def Node.ofList? (list : Option (List Token)) : Node :=
  (list.map fun ts => Node.branch .list (ts.map Token.toNode)).getD .eof

theorem Cursor.passes_skip {c : Cursor} {xs ys : List Token} (h : c.rest = xs ++ ys) :
    c.Passes xs (c.skip xs.length) ∧ (c.skip xs.length).rest = ys := by
  have hrest : (c.skip xs.length).rest = ys := by simp [skip, h]
  exact ⟨⟨by rw [hrest, h], rfl⟩, hrest⟩

namespace Parse

/-- The node of a list, and the place behind it. -/
def listOperand (mode : Mode) (c : Cursor) : Parsed (Node × Cursor) := do
  let (ts, d) ← list mode c
  return (.ofList? ts, d)

theorem result_listOperand (mode : Mode) (c : Cursor) :
    (listOperand mode c).result = (list mode c).result.map fun (ts, d) => (.ofList? ts, d) := by
  rw [listOperand, Logged.result_bind]
  cases (list mode c).result <;> rfl

section
variable {mode : Mode} {c stop : Cursor} {inside : List Token}

theorem listOperand_unclosed (hpasses : c.Passes inside stop)
    (hinside : ∀ t ∈ inside, isInsideList t) (heof : stop.current.isEof) :
    (listOperand mode c).result = match mode with
      | .strict => .error (.unexpectedEnd .listClosing)
      | .lenient => .ok (.eof, stop) := by
  rw [result_listOperand, list_unclosed hpasses hinside heof]
  cases mode <;> rfl

theorem listOperand_closed (hpasses : c.Passes inside stop)
    (hinside : ∀ t ∈ inside, isInsideList t) (hclosing : stop.current.text = "]")
    (heof : stop.current.isEof = false) :
    ((listOperand mode c).result =
        .ok (.branch .list ((inside ++ [stop.current]).map Token.toNode), stop.advance) ↔
      inside ++ [stop.current] ∈ listWords mode) ∧
    (inside ++ [stop.current] ∉ listWords mode → ∃ expected found,
      (listOperand mode c).result = .error (.unexpectedToken expected found.text) ∧
      ((∃ before after, inside ++ [stop.current] = before ++ found :: after ∧
          StopsWord mode before found) ∨
        mode = .strict ∧ found = stop.current ∧ found.kind = .literal ∧
          ∃ more, inside ++ found :: more ∈ listWords mode)) := by
  rw [result_listOperand]
  by_cases hlist : IsListIn mode (inside ++ [stop.current])
  · have hall := hpasses.concat heof
    have hword := hlist.mem_listWords
    rw [list_some_iff.mpr ⟨hall, hlist⟩]
    exact ⟨iff_of_true rfl hword, fun hno => absurd hword hno⟩
  · have hno : inside ++ [stop.current] ∉ listWords mode :=
      mt (isListIn_of_mem_listWords hinside heof) hlist
    obtain ⟨expected, text, herror, hbreaks⟩ := list_fault hpasses hinside hclosing heof hlist
    obtain ⟨found, rfl, hstops⟩ := hbreaks.stopsWord hinside heof
    rw [herror]
    exact ⟨iff_of_false (fun hok => by cases hok) hno, fun _ => ⟨expected, found, rfl, hstops⟩⟩

end

/-- A list that is still open where the input ends is missing its bracket. Otherwise the tokens up
to the first closing bracket are a list if they are a word of the grammar. If they are not, the
first of them with which they stop to begin a word is unexpected; if they do not stop, then in
strict mode the last is, a literal with the text of the bracket. -/
theorem listOperand_follows_grammar (mode : Mode) (c : Cursor) :
    let ahead := c.rest.takeWhile (!·.isEof)
    ((∀ t ∈ ahead, t.text ≠ "]") →
      (listOperand mode c).result = match mode with
        | .strict => .error (.unexpectedEnd .listClosing)
        | .lenient => .ok (.eof, c.skip ahead.length)) ∧
    ∀ inside closing others, ahead = inside ++ closing :: others →
      (∀ t ∈ inside, t.text ≠ "]") → closing.text = "]" →
      ((listOperand mode c).result = .ok (.branch .list ((inside ++ [closing]).map Token.toNode),
          c.skip (inside.length + 1)) ↔ inside ++ [closing] ∈ listWords mode) ∧
      (inside ++ [closing] ∉ listWords mode → ∃ expected found,
        (listOperand mode c).result = .error (.unexpectedToken expected found.text) ∧
        ((∃ before after, inside ++ [closing] = before ++ found :: after ∧
            StopsWord mode before found) ∨
          mode = .strict ∧ found = closing ∧ found.kind = .literal ∧
            ∃ more, inside ++ found :: more ∈ listWords mode)) := by
  intro ahead
  have hahead : ∀ t ∈ ahead, t.isEof = false := fun t ht => by
    simpa using List.mem_takeWhile_imp ht
  have hsplit : c.rest = ahead ++ c.rest.dropWhile (!·.isEof) :=
    List.takeWhile_append_dropWhile.symm
  constructor
  · intro htext
    obtain ⟨hpasses, hrest⟩ := Cursor.passes_skip hsplit
    have heof : (c.skip ahead.length).current.isEof := by
      have hend := List.head?_dropWhile_not (!·.isEof) c.rest
      rw [Cursor.current, hrest, List.headD_eq_head?_getD]
      cases h : (c.rest.dropWhile (!·.isEof)).head? with
      | none => rfl
      | some t => simpa [h] using hend
    have hinside : ∀ t ∈ ahead, isInsideList t := fun t ht =>
      isInsideList_iff.mpr ⟨hahead t ht, htext t ht⟩
    exact listOperand_unclosed hpasses hinside heof
  · intro inside closing others hcut htext hclosing
    rw [hcut, List.forall_mem_append, List.forall_mem_cons] at hahead
    rw [hcut, List.append_assoc] at hsplit
    obtain ⟨hpasses, hrest⟩ := Cursor.passes_skip hsplit
    have hcurrent : (c.skip inside.length).current = closing := Cursor.current_of_rest hrest
    have hnext : c.skip (inside.length + 1) = (c.skip inside.length).advance := by
      simp [Cursor.advance, Cursor.skip, Nat.add_assoc]
    have hinside : ∀ t ∈ inside, isInsideList t := fun t ht =>
      isInsideList_iff.mpr ⟨hahead.1 t ht, htext t ht⟩
    rw [hnext, ← hcurrent]
    rw [← hcurrent] at hclosing hahead
    exact listOperand_closed hpasses hinside hclosing hahead.2.1

/-- A strict list with a comma before its bracket, and a lenient one whose bracket stands behind the
end of the input. -/
theorem listOperand_of_trailing_comma :
    (∃ expected found, (listOperand .strict
        (.start [.separator "[", .literal "1", .separator ",", .separator "]"])).result =
          .error (.unexpectedToken expected found.text) ∧
      ((∃ before after, [Token.separator "[", .literal "1", .separator ",", .separator "]"] =
          before ++ found :: after ∧ StopsWord .strict before found) ∨
        Mode.strict = .strict ∧ found = .separator "]" ∧ found.kind = .literal ∧
          ∃ more, [Token.separator "[", .literal "1", .separator ","] ++ found :: more ∈
            listWords .strict)) ∧
    (listOperand .lenient (.start [.separator "[", .eof, .separator "]"])).result =
      .ok (.eof, ⟨1, [.eof, .separator "]"]⟩) := by
  constructor
  · have hfollows := (listOperand_follows_grammar .strict
      (.start [.separator "[", .literal "1", .separator ",", .separator "]"])).2
      [.separator "[", .literal "1", .separator ","] (.separator "]") [] rfl (by decide) rfl
    have hno : [Token.separator "[", .literal "1", .separator ",", .separator "]"] ∉
        listWords .strict := hfollows.1.not.mp fun hok => by cases hok
    exact hfollows.2 hno
  · exact (listOperand_follows_grammar .lenient
      (.start [.separator "[", .eof, .separator "]"])).1 (by decide)

/-- A literal with the text of the bracket that cuts a strict list short: no token stops the word
that these tokens begin. -/
theorem no_token_stops_cut_list :
    (listOperand .strict (.start [.separator "[", .literal "]"])).result =
      .error (.unexpectedToken .literal "]") ∧
    [Token.separator "[", .literal "]"] ∉ listWords .strict ∧
    ∀ before found after, [Token.separator "[", .literal "]"] = before ++ found :: after →
      ¬ StopsWord .strict before found := by
  have hitems : [Token.literal "]"] ∈ itemWords .strict :=
    mem_itemWords_iff.mpr ⟨.literal rfl, fun _ => rfl⟩
  have hword : [Token.separator "[", .literal "]"] ++ [.separator "]"] ∈ listWords .strict :=
    mem_listWords_iff.mpr ⟨_, _, _, rfl, rfl, hitems, rfl⟩
  refine ⟨by cbv, fun hshort => ?_, fun before found after hsplit hstops => ?_⟩
  · obtain ⟨opening, items, closing, hsplit, -, hnone, -⟩ := mem_listWords_iff.mp hshort
    have hlength := congrArg List.length hsplit
    have hodd := (mem_itemWords_iff.mp hnone).2 rfl
    simp only [List.length_append, List.length_cons, List.length_nil] at hlength
    omega
  · rw [hsplit, List.append_assoc, List.cons_append] at hword
    exact hstops.2 _ hword

end Parse

end FilterQuery
