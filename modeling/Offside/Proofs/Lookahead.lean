import Mathlib.Data.List.Infix
import Offside.Proofs.Scanning

/-!
# `Proofs.Lookahead` — how far the lexer looks ahead

An item is read by one character more than it has: the character behind it decides where it ends (`Item.Form.again`). So an
item is read as before in front of any other text that starts with the same character, and a token also in front of any
text that is parted from it by a blank, a comment or a line feed, or is empty (`Item.Form.token_again`). A comment takes in
whatever stands behind it on its line. The start of a line looks no further ahead (`LineStart.Form.empty_again`,
`LineStart.Form.filled_again`).
-/

namespace Offside.Token

/-- The characters that part tokens: the blanks, the start of a comment and the line feed. -/
def partings : List Char := [' ', '\t', '\r', '\x0c', '#', '\n']

/-- The text is parted from a token that stands in front of it. -/
def Parted (text : List Char) : Prop := ∀ d ∈ text.head?, d ∈ partings

theorem mem_partings {c : Char} (h : isBlank c = true) : c ∈ partings := by
  simp only [isBlank, Bool.or_eq_true, beq_iff_eq] at h
  rcases h with ((rfl | rfl) | rfl) | rfl <;> decide

section Ends

variable {p : Char → Bool} {xs left text : List Char}

/-- What is taken while a test holds ends in front of a text whose first character fails the test. -/
theorem takeWhile_ends (hxs : ∀ d ∈ xs, p d = true) (htext : ∀ d ∈ text.head?, p d = false) :
    (xs ++ text).takeWhile p = xs ∧ (xs ++ text).dropWhile p = text := by
  cases text with
  | nil =>
      rw [List.append_nil]
      exact ⟨List.takeWhile_eq_self_iff.mpr hxs, List.dropWhile_eq_nil_iff.mpr hxs⟩
  | cons d ds => exact takeWhile_parts ds hxs (htext d rfl)

theorem head_dropWhile_false : ∀ d ∈ (left.dropWhile p).head?, p d = false := by
  intro d hd
  have hne : left.dropWhile p ≠ [] := List.ne_nil_of_mem (List.mem_of_mem_head? hd)
  have hhead := List.head_dropWhile_not p hne
  rwa [(List.head_eq_iff_head?_eq_some hne).mpr hd] at hhead

theorem Parted.ends (h : Parted text) (hp : (partings.all fun d => !p d) = true) : ∀ d ∈ text.head?, p d = false := by
  intro d hd
  have hfails := List.all_eq_true.mp hp d (h d hd)
  rwa [Bool.not_eq_true'] at hfails

/-- What stops in front of one text stops in front of another that starts with the same character, or is parted. -/
theorem ends_again (h : text.head? = left.head? ∨ Parted text) (hleft : ∀ d ∈ left.head?, p d = false)
    (hp : (partings.all fun d => !p d) = true) : ∀ d ∈ text.head?, p d = false := by
  rcases h with hhead | hparted
  · rw [hhead]
    exact hleft
  · exact hparted.ends hp

end Ends

/-! ## Tokens in front of another text -/

section Again

variable {c : Char} {source rest used left text : List Char} {item : Item} {k : Kind}

section Radix

variable {z m : Char} {tail : List Char}

theorem splitRadix_marked {radix : Nat} (h : (if z = '0' then radixMark? m else none) = some radix) :
    splitRadix (z :: m :: tail) = (radix, [z, m], tail) := by rw [splitRadix, h]

theorem splitRadix_unmarked (h : (if z = '0' then radixMark? m else none) = none) :
    splitRadix (z :: m :: tail) = (10, [], z :: m :: tail) := by rw [splitRadix, h]

end Radix

/-- One character in front of a text that starts with no mark of a radix. -/
theorem splitRadix_single {z : Char} (h : ∀ d ∈ text.head?, (if z = '0' then radixMark? d else none) = none) :
    splitRadix (z :: text) = (10, [], z :: text) := by
  cases text with
  | nil => rfl
  | cons d ds => exact splitRadix_unmarked (h d rfl)

theorem Parted.radixMark? (h : Parted text) {z : Char} :
    ∀ d ∈ text.head?, (if z = '0' then radixMark? d else none) = none := by
  intro d hd
  have hmark : (Token.radixMark? d).isSome = false :=
    h.ends (p := fun d => (Token.radixMark? d).isSome) (by decide) d hd
  split
  · exact Option.not_isSome_iff_eq_none.mp (Bool.eq_false_iff.mp hmark)
  · rfl

/-- A number keeps its radix in front of another text. -/
theorem splitRadix_again {radix : Nat} {mark body : List Char} (h : splitRadix source = (radix, mark, body))
    (hrun : body.takeWhile (continuesNumber radix) ≠ [])
    (htext : text.head? = (body.dropWhile (continuesNumber radix)).head? ∨ Parted text) :
    splitRadix (mark ++ body.takeWhile (continuesNumber radix) ++ text) =
      (radix, mark, body.takeWhile (continuesNumber radix) ++ text) := by
  unfold splitRadix at h
  split at h
  · next z m tail =>
      split at h
      · next hmark =>
          cases h
          exact splitRadix_marked hmark
      · next hmark =>
          cases h
          by_cases hz : continuesNumber 10 z = true
          · by_cases hm : continuesNumber 10 m = true
            · rw [List.takeWhile_cons_of_pos hz, List.takeWhile_cons_of_pos hm]
              exact splitRadix_unmarked hmark
            · -- the number is one character long, and what followed it was no mark of a radix
              rw [List.dropWhile_cons_of_pos hz, List.dropWhile_cons_of_neg hm] at htext
              rw [List.takeWhile_cons_of_pos hz, List.takeWhile_cons_of_neg hm]
              show splitRadix (z :: text) = (10, [], z :: text)
              apply splitRadix_single
              rcases htext with hhead | hparted
              · rw [hhead]
                rintro d ⟨⟩
                exact hmark
              · exact hparted.radixMark?
          · exact absurd (List.takeWhile_cons_of_neg hz) hrun
  · next hshort =>
      cases h
      cases source with
      | nil => exact absurd rfl hrun
      | cons z tail =>
          cases tail with
          | cons m tail => exact absurd rfl (hshort z m tail)
          | nil =>
              by_cases hz : continuesNumber 10 z = true
              · rw [List.dropWhile_cons_of_pos hz] at htext
                rw [List.takeWhile_cons_of_pos hz]
                show splitRadix (z :: text) = (10, [], z :: text)
                apply splitRadix_single
                rcases htext with hhead | hparted
                · rw [hhead]
                  rintro d ⟨⟩
                · exact hparted.radixMark?
              · exact absurd (List.takeWhile_cons_of_neg hz) hrun

theorem readNumber_again {r : Reading} (h : readNumber source = .ok r)
    (htext : text.head? = r.rest.head? ∨ Parted text) : readNumber (r.used ++ text) = .ok ⟨r.item, r.used, text⟩ := by
  unfold readNumber at h
  generalize hsplit : splitRadix source = parts at h
  obtain ⟨radix, mark, body⟩ := parts
  dsimp only at h
  split at h
  · exact absurd h (by simp)
  · next hfilter =>
      split at h
      · exact absurd h (by simp)
      · next hdigits =>
          split at h
          · next hlimit =>
              cases h
              have hrun : body.takeWhile (continuesNumber radix) ≠ [] := by
                intro hnil
                rw [hnil] at hdigits
                exact hdigits rfl
              -- the run of digits ends where it ended, and what ends it is no letter of a longer word
              have hends : ∀ d ∈ text.head?, continuesNumber radix d = false :=
                ends_again htext head_dropWhile_false (by simp [partings, continuesNumber, digit?])
              obtain ⟨htake, hdrop⟩ := takeWhile_ends (fun d hd => List.mem_takeWhile_imp hd) hends
              have hletter : text.head?.filter Text.isAlphanumeric = none := by
                rw [Option.filter_eq_none_iff] at hfilter ⊢
                simp only [Bool.not_eq_true] at hfilter ⊢
                exact ends_again htext hfilter (by decide)
              unfold readNumber
              rw [splitRadix_again hsplit hrun htext]
              dsimp only
              rw [htake, hdrop, hletter]
              dsimp only
              split
              · next hnil => exact absurd hnil hdigits
              · rw [if_pos hlimit]
          · exact absurd h (by simp)

theorem readString?_again {quote : Char} {value : List Char} (h : readString? quote source = some (value, used, left)) :
    readString? quote (used ++ text) = some (value, used, text) := by
  fun_induction readString? quote source generalizing value used left with
  | case1 | case2 | case4 | case6 | case8 => exact absurd h (by simp)
  | case3 _ hfeed =>
      cases h
      show readString? quote (quote :: text) = some ([], [quote], text)
      unfold readString?
      rw [if_neg hfeed, if_pos rfl]
  | case5 e tail value' used' left' hread hfeed hquote ih =>
      cases h
      simp [readString?, hquote, ih hread]
  | case7 c tail hfeed hquote hslash value' used' left' hread ih =>
      cases h
      rw [List.cons_append]
      unfold readString?
      rw [if_neg hfeed, if_neg hquote, if_neg hslash, ih hread]

/-- The symbol that a text starts with is the first of all symbols that it starts with. -/
theorem read?_eq_some_iff {s : Symbol} :
    Symbol.read? text = some s ↔ s.chars <+: text ∧ ∀ a ∈ Symbol.all.takeWhile (· != s), ¬ a.chars <+: text := by
  have hall : Symbol.all = Symbol.all.takeWhile (· != s) ++ Symbol.all.dropWhile (· != s) :=
    List.takeWhile_append_dropWhile.symm
  have hdrop : ∃ later, Symbol.all.dropWhile (· != s) = s :: later := by cases s <;> exact ⟨_, rfl⟩
  obtain ⟨later, hlater⟩ := hdrop
  rw [hlater] at hall
  constructor
  · intro h
    refine ⟨List.isPrefixOf_iff_prefix.mp (Symbol.chars_isPrefixOf_of_read? h), fun a ha hbegins => ?_⟩
    rw [Symbol.read?, hall, List.find?_append] at h
    cases hfind : (Symbol.all.takeWhile (· != s)).find? (fun s => s.chars.isPrefixOf text) with
    | none => exact List.find?_eq_none.mp hfind a ha (List.isPrefixOf_iff_prefix.mpr hbegins)
    | some b =>
        rw [hfind] at h
        obtain rfl : b = s := Option.some.inj h
        exact absurd (List.mem_takeWhile_imp (List.mem_of_find?_eq_some hfind)) (by simp)
  · rintro ⟨hbegins, hfirst⟩
    have hnone : (Symbol.all.takeWhile (· != s)).find? (fun s => s.chars.isPrefixOf text) = none := by
      apply List.find?_eq_none.mpr
      intro a ha hpos
      exact hfirst a ha (List.isPrefixOf_iff_prefix.mp hpos)
    rw [Symbol.read?, hall, List.find?_append, hnone, Option.none_or]
    exact List.find?_cons_of_pos (p := fun s : Symbol => s.chars.isPrefixOf text)
      (List.isPrefixOf_iff_prefix.mpr hbegins)

/-- The front of a longer symbol, one character longer than `s`, is a symbol that is looked for before `s`, too. -/
theorem exists_front (s : Symbol) : ∀ a ∈ Symbol.all.takeWhile (· != s),
    ∃ b ∈ Symbol.all.takeWhile (· != s), b.chars = a.chars.take (s.chars.length + 1) := by
  cases s <;> decide

theorem not_mem_chars_of_parting (s : Symbol) {d : Char} (hd : d ∈ partings) : d ∉ s.chars := by
  have hnone : (partings.all fun d => !s.chars.contains d) = true := by cases s <;> decide
  simpa using List.all_eq_true.mp hnone d hd

/-- **A symbol is read by one character more**: it stays the same in front of another text that starts with the same
    character, or is parted from it. -/
theorem read?_again {s : Symbol} (h : Symbol.read? (s.chars ++ left) = some s)
    (htext : text.head? = left.head? ∨ Parted text) : Symbol.read? (s.chars ++ text) = some s := by
  rw [read?_eq_some_iff]
  refine ⟨List.prefix_append _ _, fun a ha hbegins => ?_⟩
  -- what stands in front of `text` and one character of it decides
  obtain ⟨b, hb, hfront⟩ := exists_front s a ha
  have hone : b.chars <+: s.chars ++ text.take 1 := by
    have htake := hbegins.take (s.chars.length + 1)
    rwa [← hfront, List.take_length_add_append] at htake
  rcases htext with hhead | hparted
  · apply (read?_eq_some_iff.mp h).2 b hb
    rw [List.take_one, hhead, ← List.take_one] at hone
    exact hone.trans (List.prefix_append_right_inj _ |>.mpr (List.take_prefix 1 left))
  · have halone : Symbol.read? s.chars = some s := by cases s <;> rfl
    apply (read?_eq_some_iff.mp halone).2 b hb
    cases text with
    | nil =>
        rw [List.take_nil, List.append_nil] at hone
        exact hone
    | cons d ds =>
        rcases List.prefix_concat_iff.mp hone with heq | hshort
        · have hmem : d ∈ b.chars := by rw [heq]; exact List.mem_concat_self
          exact absurd hmem (not_mem_chars_of_parting b (hparted d rfl))
        · exact hshort

/-- What the first character of a token is not. -/
theorem Item.Form.token_head {left : List Char} (h : Item.Form c rest (.token k) used left) :
    isBlank c = false ∧ c ≠ '#' ∧ c ≠ '\\' ∧ c ≠ '\n' := by
  cases h with
  | word hc => exact startsWord_head hc
  | number hc hread =>
      obtain ⟨hblank, hhash, hslash, hfeed, -⟩ := digit_head hc
      exact ⟨hblank, hhash, hslash, hfeed⟩
  | string hc _ =>
      simp only [isQuote, Bool.or_eq_true, beq_iff_eq] at hc
      rcases hc with rfl | rfl <;> decide
  | @symbol s hread =>
      have hprefix := Symbol.chars_isPrefixOf_of_read? hread
      cases s <;> simp only [Symbol.chars, List.isPrefixOf, Bool.and_eq_true, beq_iff_eq] at hprefix <;>
        rw [← hprefix.1] <;> decide

/-- **A token is read by one character more**: it stays the same in front of another text that starts with the same
    character, or is parted from it. -/
theorem Item.Form.token_again (h : Item.Form c rest (.token k) used left)
    (htext : text.head? = left.head? ∨ Parted text) :
    ∃ tail, used = c :: tail ∧ Item.read c (tail ++ text) = .ok ⟨.token k, used, text⟩ := by
  -- the first character still says what is read, and in each case how far is settled anew
  obtain ⟨hblank, hhash, hslash, hfeed⟩ := h.token_head
  cases h with
  | word hc =>
      refine ⟨_, rfl, ?_⟩
      have hends : ∀ d ∈ text.head?, continuesWord d = false := ends_again htext head_dropWhile_false (by decide)
      have hword : ∀ d ∈ rest.takeWhile continuesWord, continuesWord d = true := fun d hd => List.mem_takeWhile_imp hd
      obtain ⟨htake, hdrop⟩ := takeWhile_ends hword hends
      simp [Item.read, hblank, hhash, hslash, hfeed, hc, htake, hdrop]
  | @number n _ _ hc hread =>
      obtain ⟨d, tail, rfl⟩ : ∃ d tail, used = d :: tail := List.exists_cons_of_ne_nil (readNumber_used hread)
      obtain rfl : d = c := (List.cons.inj (readNumber_split hread)).1
      refine ⟨tail, rfl, ?_⟩
      have hagain := readNumber_again hread htext
      simp only [List.cons_append] at hagain
      simp [Item.read, hblank, hhash, hslash, hfeed, (digit_head hc).2.2.2.2, hc, hagain]
  | string hc hread =>
      refine ⟨_, rfl, ?_⟩
      have hother : startsWord c = false ∧ c.isDigit = false := by
        simp only [isQuote, Bool.or_eq_true, beq_iff_eq] at hc
        rcases hc with rfl | rfl <;> decide
      simp [Item.read, hblank, hhash, hslash, hfeed, hother, hc, readString?_again hread]
  | @symbol s hread =>
      obtain ⟨tail, htail⟩ := List.isPrefixOf_iff_prefix.mp (Symbol.chars_isPrefixOf_of_read? hread)
      rw [← htail] at hread htext
      rw [List.drop_left] at htext
      have hagain := read?_again hread htext
      obtain ⟨x, xs, hx⟩ := List.exists_cons_of_ne_nil s.chars_ne_nil
      obtain rfl : x = c := by rw [hx] at htail; exact (List.cons.inj htail).1
      refine ⟨xs, hx, ?_⟩
      have hother : startsWord x = false ∧ x.isDigit = false ∧ isQuote x = false := by
        cases s <;> cases hx <;> decide
      have hdrop : (x :: (xs ++ text)).drop s.chars.length = text := by
        rw [← List.cons_append, ← hx, List.drop_left]
      rw [hx, List.cons_append] at hagain
      simp [Item.read, hblank, hhash, hslash, hfeed, hother, hagain, hdrop]

/-! ## Other items, and lines without tokens -/

theorem Item.read_blank (hc : isBlank c = true) : Item.read c text = .ok ⟨.blank, [c], text⟩ := by
  rw [Item.read, if_pos hc]

/-- A comment is read up to the line feed. -/
theorem Item.read_comment {cs : List Char} (hcs : '\n' ∉ cs) (htext : ∀ d ∈ text.head?, d = '\n') :
    Item.read '#' (cs ++ text) = .ok ⟨.blank, '#' :: cs, text⟩ := by
  have hinside : ∀ d ∈ cs, (d != '\n') = true := by
    intro d hd
    rw [bne_iff_ne]
    rintro rfl
    exact hcs hd
  obtain ⟨htake, hdrop⟩ := takeWhile_ends hinside (fun d hd => bne_eq_false_iff_eq.mpr (htext d hd))
  rw [Item.read, if_neg (by decide), if_pos rfl, htake, hdrop]

/-- An item starts where the text starts. -/
theorem Item.head_used {r : Reading} (h : Item.read c rest = .ok r) : r.used.head? = some c := by
  have hsplit := Item.read_split h
  obtain ⟨d, tail, hused⟩ := List.exists_cons_of_ne_nil (Item.read_used h)
  rw [hused] at hsplit ⊢
  rw [(List.cons.inj hsplit).1]
  rfl

/-- **An item is read by one character more**: it stays the same in front of another text that starts with the same
    character. Only a comment goes on in a text that is parted from the other items. -/
theorem Item.Form.again (h : Item.Form c rest item used left)
    (htext : text.head? = left.head? ∨ c ≠ '#' ∧ Parted text) :
    ∃ tail, used = c :: tail ∧ Item.read c (tail ++ text) = .ok ⟨item, used, text⟩ := by
  cases item with
  | token k => exact h.token_again (htext.imp_right And.right)
  | newline =>
      cases h with
      | newline hc =>
          rw [hc]
          exact ⟨[], rfl, rfl⟩
  | blank =>
      cases h with
      | blank hc => exact ⟨[], rfl, Item.read_blank hc⟩
      | comment hc =>
          obtain ⟨hcs, -⟩ := LineStart.comment_split rest
          rcases htext with hhead | ⟨hnot, -⟩
          · rw [hc]
            refine ⟨_, rfl, Item.read_comment hcs ?_⟩
            rw [hhead]
            exact fun d hd => bne_eq_false_iff_eq.mp (head_dropWhile_false d hd)
          · exact absurd hc hnot
      | joined hc _ =>
          rw [hc]
          exact ⟨['\n'], rfl, rfl⟩

theorem LineStart.form_of_eq {r : LineStart} (h : LineStart.read source = r) : LineStart.Form source r :=
  h ▸ LineStart.form_of_read source

/-- Behind a comment the text has ended, or the line has. -/
theorem head_of_comment (h : rest = [] ∨ ∃ tail, rest = '\n' :: tail) : ∀ d ∈ rest.head?, d = '\n' := by
  rcases h with rfl | ⟨_, rfl⟩
  · rintro d ⟨⟩
  · rintro d ⟨⟩
    rfl

/-- The start of a line is read as its form says. -/
theorem LineStart.Form.read_eq {r : LineStart} (h : LineStart.Form source r) : LineStart.read source = r := by
  cases h with
  | ended hblanks =>
      rw [LineStart.read, List.dropWhile_eq_nil_iff.mpr hblanks, List.takeWhile_eq_self_iff.mpr hblanks]
  | @comment blanks cs tail hblanks hcs htail =>
      obtain ⟨htake, hdrop⟩ := takeWhile_parts (cs ++ tail) hblanks (by decide : isBlank '#' = false)
      have hread := Item.read_comment hcs (head_of_comment htail)
      rw [Item.read, if_neg (by decide), if_pos rfl] at hread
      injection hread with hread
      injection hread with _ hused hleft
      rw [LineStart.read, hdrop, htake]
      dsimp only
      rw [if_pos rfl, hused, hleft]
  | @feed blanks tail hblanks =>
      obtain ⟨htake, hdrop⟩ := takeWhile_parts tail hblanks (by decide : isBlank '\n' = false)
      rw [LineStart.read, hdrop, htake]
      rfl
  | @filled blanks tail d hblanks hblank hhash hfeed =>
      obtain ⟨htake, hdrop⟩ := takeWhile_parts tail hblanks hblank
      rw [LineStart.read, hdrop, htake]
      dsimp only
      rw [if_neg hhash, if_neg hfeed]

/-- A line without tokens is passed over in front of another text that starts with the same character. -/
theorem LineStart.Form.empty_again (h : LineStart.Form source (.empty used rest)) (htext : text.head? = rest.head?) :
    LineStart.Form (used ++ text) (.empty used text) := by
  cases h with
  | ended hblanks =>
      obtain rfl : text = [] := List.head?_eq_none_iff.mp htext
      rw [List.append_nil]
      exact .ended hblanks
  | @comment blanks cs _ hblanks hcs hrest =>
      rw [List.append_assoc, List.cons_append]
      apply LineStart.Form.comment hblanks hcs
      rcases hrest with rfl | ⟨tail, rfl⟩
      · exact Or.inl (List.head?_eq_none_iff.mp htext)
      · obtain ⟨tail', rfl⟩ := List.head?_eq_some_iff.mp htext
        exact Or.inr ⟨tail', rfl⟩
  | feed hblanks =>
      rw [List.append_assoc]
      exact .feed hblanks

theorem LineStart.Form.used_ne_nil (h : LineStart.Form source (.empty used rest)) (hne : source ≠ []) : used ≠ [] := by
  cases h with
  | ended => exact hne
  | comment | feed => simp

theorem LineStart.Form.filled_again (h : LineStart.Form source (.filled used rest)) (htext : text.head? = rest.head?) :
    LineStart.Form (used ++ text) (.filled used text) := by
  cases h with
  | filled hblanks hblank hhash hfeed =>
      obtain ⟨tail', rfl⟩ := List.head?_eq_some_iff.mp htext
      exact .filled hblanks hblank hhash hfeed

end Again

end Offside.Token
