import Mathlib
import Offside.Proofs.Outcome

/-!
# `Proofs.Padding` — blank lines and comments are invisible

A padding is a stretch of blanks, perhaps with a comment behind it, on one line (`Padding`). In front of a line feed a
padding makes no difference to what a lexer makes of the text (`scan_padding`), and at the start of a line neither does the
line feed (`scan_feed_start`). That is so at the lexer itself; the text before it was read by moves, and the last of them
can be made again in front of a padding (`Move.scan_padding`), while all the others have the same character ahead as
before. So a padded line put in between two lines, or a padding put in at the end of a line, leaves the kinds of all tokens
as they are, and the cause of a failure (`padding_is_invisible`).
-/

namespace Offside.Token

/-- **A padding**: blanks, and perhaps a comment behind them, without a line feed. -/
structure Padding (w : List Char) : Prop where
  bare : isBare w = true
  line : '\n' ∉ w

namespace Padding

variable {w blanks cs : List Char}

theorem of_blanks (h : ∀ c ∈ blanks, isBlank c = true) : Padding blanks :=
  ⟨isBare_blanks h, not_feed_of_blank h⟩

theorem of_comment (h : ∀ c ∈ blanks, isBlank c = true) (hcs : '\n' ∉ cs) : Padding (blanks ++ '#' :: cs) := by
  refine ⟨isBare_comment h, ?_⟩
  simp [not_feed_of_blank h, hcs]

/-- A padding is made up of blanks and at most one comment. -/
theorem cases_form (h : Padding w) : (∀ c ∈ w, isBlank c = true) ∨
    ∃ blanks cs, w = blanks ++ '#' :: cs ∧ (∀ c ∈ blanks, isBlank c = true) ∧ '\n' ∉ cs := by
  have hsplit := List.takeWhile_append_dropWhile (p := isBlank) (l := w)
  have hblanks : ∀ c ∈ w.takeWhile isBlank, isBlank c = true := fun c hc => List.mem_takeWhile_imp hc
  have hbare := h.bare
  rw [isBare] at hbare
  cases hrest : w.dropWhile isBlank with
  | nil => exact Or.inl (List.dropWhile_eq_nil_iff.mp hrest)
  | cons c cs =>
      rw [hrest] at hbare hsplit
      obtain rfl : c = '#' := beq_iff_eq.mp hbare
      refine Or.inr ⟨_, cs, hsplit.symm, hblanks, ?_⟩
      intro hmem
      apply h.line
      rw [← hsplit]
      simp [hmem]

/-- Blanks in front of a padding make a padding. -/
theorem blanks_append (h : Padding w) (hblanks : ∀ c ∈ blanks, isBlank c = true) : Padding (blanks ++ w) := by
  rcases h.cases_form with hw | ⟨blanks', cs, rfl, hblanks', hcs⟩
  · exact of_blanks (List.forall_mem_append.mpr ⟨hblanks, hw⟩)
  · rw [← List.append_assoc]
    exact of_comment (List.forall_mem_append.mpr ⟨hblanks, hblanks'⟩) hcs

/-- A comment takes in the padding behind it. -/
theorem comment_append (h : Padding w) (hblanks : ∀ c ∈ blanks, isBlank c = true) (hcs : '\n' ∉ cs) :
    Padding (blanks ++ '#' :: cs ++ w) := by
  rw [List.append_assoc, List.cons_append]
  apply of_comment hblanks
  simp [hcs, h.line]

/-- In front of a line feed, a padding parts tokens. -/
theorem parted (h : Padding w) (rest : List Char) : Parted (w ++ '\n' :: rest) := by
  intro d hd
  cases w with
  | nil =>
      cases hd
      decide
  | cons c cs =>
      obtain rfl : c = d := Option.some.inj hd
      rcases h.cases_form with hblank | ⟨blanks, cs', heq, hblanks, -⟩
      · exact mem_partings (hblank c List.mem_cons_self)
      · cases blanks with
        | nil =>
            obtain ⟨rfl, -⟩ := List.cons.inj heq
            decide
        | cons b bs =>
            obtain ⟨rfl, -⟩ := List.cons.inj heq
            exact mem_partings (hblanks c List.mem_cons_self)

end Padding

namespace Lexer

variable {lx next : Lexer} {text used u b : List Char} {tokens : List Token}

/-- At the start of a line, a line feed makes no difference. -/
theorem scan_feed_start (hstart : lx.lineStart = true) (b : List Char) : lx.scan ('\n' :: b) = lx.scan b := by
  have hform : LineStart.Form ([] ++ '\n' :: b) (.empty ([] ++ ['\n']) b) := .feed (by simp)
  exact scan_skip hstart (List.cons_ne_nil _ _) hform

theorem scan_blanks (hstart : lx.lineStart = false) {blanks : List Char} (hblanks : ∀ c ∈ blanks, isBlank c = true)
    (rest : List Char) : lx.scan (blanks ++ rest) = lx.scan rest := by
  induction blanks with
  | nil => rfl
  | cons c cs ih =>
      rw [List.forall_mem_cons] at hblanks
      rw [List.cons_append, scan_blank hstart (Item.read_blank hblanks.1)]
      exact ih hblanks.2

/-- **In front of a line feed, a padding makes no difference.** -/
theorem scan_padding (lx : Lexer) (hu : Padding u) (b : List Char) : lx.scan (u ++ '\n' :: b) = lx.scan ('\n' :: b) := by
  have hne : u ++ '\n' :: b ≠ [] := by simp
  cases hstart : lx.lineStart with
  | true =>
      rcases hu.cases_form with hblanks | ⟨blanks, cs, rfl, hblanks, hcs⟩
      · rw [scan_skip hstart hne (.feed hblanks), scan_feed_start hstart]
      · have hform := LineStart.Form.comment hblanks hcs (Or.inr ⟨b, rfl⟩)
        rw [List.append_assoc, List.cons_append] at hne ⊢
        exact scan_skip hstart hne hform
  | false =>
      rcases hu.cases_form with hblanks | ⟨blanks, cs, rfl, hblanks, hcs⟩
      · exact scan_blanks hstart hblanks _
      · have hread : Item.read '#' (cs ++ '\n' :: b) = .ok ⟨.blank, '#' :: cs, '\n' :: b⟩ :=
          Item.read_comment hcs (by rintro d ⟨⟩; rfl)
        rw [List.append_assoc, scan_blanks hstart hblanks, List.cons_append, scan_blank hstart hread]

/-- A line that is entered goes on with a token. -/
theorem not_parted_of_filled {blanks rest : List Char} (h : LineStart.read text = .filled blanks rest) : ¬ Parted rest := by
  cases LineStart.form_of_eq h with
  | @filled _ _ c _ hblank hhash hfeed =>
      intro hparted
      have hc := hparted c rfl
      simp only [partings, List.mem_cons, List.not_mem_nil, or_false] at hc
      rcases hc with rfl | rfl | rfl | rfl | rfl | rfl
      all_goals first | exact absurd hblank (by decide) | contradiction

/-- Only the indentation of a line with tokens can be empty. -/
theorem Move.used_ne_nil (h : Move lx used tokens next) (hnext : next.lineStart = true ∨ Parted next.rest) :
    used ≠ [] := by
  cases h with
  | skip _ hne hread => exact (LineStart.form_of_eq hread).used_ne_nil hne
  | enter _ hread _ => exact absurd (hnext.resolve_left Bool.false_ne_true) (not_parted_of_filled hread)
  | blank _ _ hread | join _ _ hread _ | feed _ _ hread _ | token _ _ hread => exact Item.read_used hread

/-- Inside a line, what starts with a comment is a comment. -/
theorem Move.comment (h : Move lx used tokens next) (hstart : lx.lineStart = false) (hhash : used.head? = some '#') :
    ∃ cs, used = '#' :: cs ∧ '\n' ∉ cs ∧ tokens = [] ∧ next = lx.advance used next.rest := by
  cases h with
  | skip htrue | enter htrue => exact absurd (hstart.symm.trans htrue) Bool.false_ne_true
  | @blank c cs _ _ _ _ hread =>
      obtain rfl : c = '#' := Option.some.inj ((Item.head_used hread).symm.trans hhash)
      cases Item.form_of_read hread with
      | blank hc => exact absurd hc (by decide)
      | comment _ => exact ⟨_, rfl, (LineStart.comment_split cs).1, rfl, rfl⟩
      | joined hc _ => exact absurd hc (by decide)
  | @join c _ _ _ _ _ hread _ | @feed c _ _ _ _ _ hread _ =>
      obtain rfl : c = '#' := Option.some.inj ((Item.head_used hread).symm.trans hhash)
      cases Item.form_of_read hread with
      | newline hc => exact absurd hc (by decide)
  | @token c _ _ _ _ _ _ hread =>
      obtain rfl : c = '#' := Option.some.inj ((Item.head_used hread).symm.trans hhash)
      exact absurd rfl (Item.form_of_read hread).token_head.2.1

/-- **The last move in front of a padding.** It can be made again; a comment takes in the padding behind it. -/
theorem Move.scan_padding (h : Move lx used tokens next) (hnext : next.lineStart = true ∨ Parted next.rest)
    (hu : Padding u) (b : List Char) :
    lx.scan (used ++ (u ++ '\n' :: b)) = prepend (tokens.map Token.kind) (next.scan ('\n' :: b)) := by
  cases hstart : lx.lineStart with
  | false =>
      -- a comment goes on through the padding; any other item ends where it ended
      by_cases hhash : used.head? = some '#'
      · obtain ⟨cs, rfl, hcs, rfl, hafter⟩ := h.comment hstart hhash
        have hpadding : Padding ([] ++ '#' :: cs ++ u) := hu.comment_append (by simp) hcs
        rw [List.nil_append] at hpadding
        rw [← List.append_assoc, Lexer.scan_padding lx hpadding, hafter, List.map_nil, prepend_nil, scan_advance]
      · have hagain := (h.again (Or.inr ⟨hstart, hhash, hu.parted b⟩)).outcome
        rw [← Lexer.scan_padding next hu b]
        exact hagain
  | true =>
      cases h with
      | blank hfalse | join hfalse | feed hfalse | token hfalse =>
          exact absurd (hfalse.symm.trans hstart) Bool.false_ne_true
      -- behind the blanks of a filled line stands its first item, so no padding can be meant here
      | enter _ hread _ => exact absurd (hnext.resolve_left Bool.false_ne_true) (not_parted_of_filled hread)
      | @skip _ rest _ hne hread =>
          have hform := LineStart.form_of_eq hread
          rw [List.map_nil, prepend_nil, scan_advance]
          generalize lx.rest = line at hform
          cases hform with
          | ended hblanks =>
              rw [← List.append_assoc]
              exact Lexer.scan_padding lx (hu.blanks_append hblanks) b
          | comment hblanks hcs _ =>
              rw [← List.append_assoc]
              exact Lexer.scan_padding lx (hu.comment_append hblanks hcs) b
          | feed hblanks =>
              rw [List.append_assoc, List.cons_append, List.nil_append, scan_skip hstart (by simp) (.feed hblanks)]
              exact Lexer.scan_padding lx hu b

/-- **A padding behind the text that was read.** If the lexer makes of a line feed and `b` what it makes of its text, then
    a padding, a line feed and `b` behind the text that was read come to the same as the whole text. -/
theorem Moves.scan_padding (h : Moves lx text tokens next) (hnext : next.lineStart = true ∨ Parted next.rest)
    (hu : Padding u) (hscan : next.scan ('\n' :: b) = next.scan next.rest) :
    lx.scan (text ++ (u ++ '\n' :: b)) = lx.scan lx.rest := by
  cases h with
  | refl =>
      rw [List.nil_append, Lexer.scan_padding lx hu]
      exact hscan
  | @snoc mid _ text used tokens more hmoves hmove =>
      rw [List.append_assoc]
      apply hmoves.scan_congr
      · -- the moves before the last one have the same character ahead
        obtain ⟨c, cs, hused⟩ := List.exists_cons_of_ne_nil (hmove.used_ne_nil hnext)
        rw [hmove.splits.1, hused]
        rfl
      · calc mid.scan (used ++ (u ++ '\n' :: b))
          _ = prepend (more.map Token.kind) (next.scan ('\n' :: b)) := hmove.scan_padding hnext hu b
          _ = prepend (more.map Token.kind) (next.scan next.rest) := by rw [hscan]
          _ = mid.scan mid.rest := hmove.outcome.symm

end Lexer

/-- **Blank lines and comments are invisible.** Where a lexer that has read `a` is at the start of a line, a padding and a
    line feed can be put in front of the rest; and wherever a lexer comes to a line feed that ends a line, or that it
    passes over, a padding can be put in front of the line feed. The tokens keep their kinds, and a failure its cause. -/
theorem padding_is_invisible (file : String) {w : List Char} (hw : Padding w) (a b : List Char) :
    (∀ tokens lx, Lexer.Steps (.start file (a ++ b)) tokens lx → lx.rest = b → lx.lineStart = true →
      outcome (tokenize file (String.ofList (a ++ w ++ '\n' :: b))) =
        outcome (tokenize file (String.ofList (a ++ b)))) ∧
    (∀ tokens lx blanks, Lexer.Steps (.start file (a ++ '\n' :: b)) tokens lx → lx.rest = blanks ++ '\n' :: b →
      (∀ c ∈ blanks, isBlank c = true) →
      outcome (tokenize file (String.ofList (a ++ w ++ '\n' :: b))) =
        outcome (tokenize file (String.ofList (a ++ '\n' :: b)))) := by
  have hscan (x text : List Char) : outcome (tokenize file (String.ofList text)) = (Lexer.start file x).scan text := by
    rw [tokenize, String.toList_ofList]
    rfl
  constructor
  · intro tokens lx hsteps hrest hstart
    obtain ⟨text, hmoves⟩ := hsteps.moves
    obtain rfl : a = text := List.append_cancel_right (hmoves.splits.1.trans (by rw [hrest]))
    rw [hscan (a ++ b), hscan (a ++ b), List.append_assoc]
    apply hmoves.scan_padding (Or.inl hstart) hw
    rw [hrest]
    exact Lexer.scan_feed_start hstart b
  · intro tokens lx blanks hsteps hrest hblanks
    obtain ⟨text, hmoves⟩ := hsteps.moves
    have hpadding := Padding.of_blanks hblanks
    have hsplit : a ++ '\n' :: b = text ++ blanks ++ '\n' :: b := by
      rw [List.append_assoc, ← hrest]
      exact hmoves.splits.1
    obtain rfl : a = text ++ blanks := List.append_cancel_right hsplit
    have hinsert : text ++ blanks ++ w ++ '\n' :: b = text ++ (blanks ++ w ++ '\n' :: b) := by
      simp only [List.append_assoc]
    rw [hinsert, hscan (text ++ blanks ++ '\n' :: b), hscan (text ++ blanks ++ '\n' :: b)]
    apply hmoves.scan_padding (Or.inr (hrest ▸ hpadding.parted b)) (hw.blanks_append hblanks)
    rw [hrest]
    exact (Lexer.scan_padding lx hpadding b).symm

/-- A comment line in front of a line that closes a block, and a comment behind the last line of the block. -/
theorem padding_is_invisible_block :
    outcome (tokenize "m" (String.ofList ("if x:\n y\n".toList ++ "\t# end".toList ++ '\n' :: "z".toList))) =
        outcome (tokenize "m" (String.ofList ("if x:\n y\n".toList ++ "z".toList))) ∧
      outcome (tokenize "m" (String.ofList ("if x:\n y".toList ++ "\t# end".toList ++ '\n' :: "z".toList))) =
        outcome (tokenize "m" (String.ofList ("if x:\n y".toList ++ '\n' :: "z".toList))) := by
  have hpadding : Padding "\t# end".toList := ⟨by decide, by decide⟩
  constructor
  · obtain ⟨tokens, lx, hsteps, hrest, hstart⟩ : ∃ tokens lx,
        Lexer.Steps (.start "m" ("if x:\n y\n".toList ++ "z".toList)) tokens lx ∧ lx.rest = "z".toList ∧
          lx.lineStart = true :=
      ⟨_, _, .snoc (.snoc (.snoc (.snoc (.snoc (.snoc (.snoc .refl rfl) rfl) rfl) rfl) rfl) rfl) rfl, rfl, rfl⟩
    exact (padding_is_invisible "m" hpadding _ _).1 tokens lx hsteps hrest hstart
  · obtain ⟨tokens, lx, hsteps, hrest⟩ : ∃ tokens lx,
        Lexer.Steps (.start "m" ("if x:\n y".toList ++ '\n' :: "z".toList)) tokens lx ∧
          lx.rest = [] ++ '\n' :: "z".toList :=
      ⟨_, _, .snoc (.snoc (.snoc (.snoc (.snoc (.snoc .refl rfl) rfl) rfl) rfl) rfl) rfl, rfl⟩
    exact (padding_is_invisible "m" hpadding _ _).2 tokens lx [] hsteps hrest (by simp)

end Offside.Token
