import Mathlib.Data.List.TakeWhile
import Offside.Proofs.Spelling

/-!
# `Proofs.Scanning` — the lexer, one move at a time

What an item of a line can be is said once (`Item.form_of_read`), and so is what a line can start with
(`LineStart.form_of_read`).

A step of the lexer that starts a line does two things: it settles the indentation, and it reads the first item.
`Lexer.Move` takes them apart, so that each move passes over one stretch of text for one reason. A text is read by
moves one after the other (`Lexer.Moves`): a run that ends well makes moves up to the end of the text
(`moves_of_run_ok`), and a run that fails makes moves up to the place where it fails (`moves_of_run_error`).
Whatever holds at the start of a run and is kept by every move holds all along it.
-/

namespace Offside.Token

namespace Item

/-- **What an item can be**, when it is taken off the text `c :: rest`. -/
inductive Form (c : Char) (rest : List Char) : Item → List Char → List Char → Prop where
  | blank (hc : isBlank c = true) : Form c rest .blank [c] rest
  | comment (hc : c = '#') : Form c rest .blank (c :: rest.takeWhile (· != '\n')) (rest.dropWhile (· != '\n'))
  | joined {left : List Char} (hc : c = '\\') (hrest : rest = '\n' :: left) : Form c rest .blank [c, '\n'] left
  | newline (hc : c = '\n') : Form c rest .newline [c] rest
  | word (hc : startsWord c = true) :
      Form c rest (.token (wordKind (c :: rest.takeWhile continuesWord))) (c :: rest.takeWhile continuesWord)
        (rest.dropWhile continuesWord)
  | number {n : Nat} {used left : List Char} (hc : c.isDigit = true)
      (hread : readNumber (c :: rest) = .ok ⟨.token (.int n), used, left⟩) : Form c rest (.token (.int n)) used left
  | string {value used left : List Char} (hc : isQuote c = true) (hread : readString? c rest = some (value, used, left)) :
      Form c rest (.token (.str (String.ofList value))) (c :: used) left
  | symbol {s : Symbol} (hread : Symbol.read? (c :: rest) = some s) :
      Form c rest (.token (.sym s)) s.chars ((c :: rest).drop s.chars.length)

theorem form_of_read {c : Char} {rest : List Char} {r : Reading} (h : Item.read c rest = .ok r) :
    Form c rest r.item r.used r.rest := by
  unfold Item.read at h
  split at h
  · next hc => cases h; exact .blank hc
  split at h
  · next hc => cases h; exact .comment hc
  split at h
  · next hc =>
      cases h
      cases rest with
      | nil => exact absurd hc.2 (by simp)
      | cons d ds =>
          obtain rfl : d = '\n' := Option.some.inj hc.2
          rw [hc.1]
          exact .joined rfl rfl
  split at h
  · next hc => cases h; exact .newline hc
  split at h
  · next hc => cases h; exact .word hc
  split at h
  · next hc =>
      obtain ⟨_, _, _, _, -, -, -, rfl⟩ := readNumber_ok h
      exact .number hc h
  split at h
  · next hc =>
      split at h
      · next hread => cases h; exact .string hc hread
      · exact absurd h (by simp)
  · split at h
    · next hread => cases h; exact .symbol hread
    · exact absurd h (by simp)

theorem readNumber_misread {text : List Char} {m : Misread} (h : readNumber text = .error m) :
    m.before <+: text ∧ m.cause ≠ .unmatchedIndent := by
  have hsplit := splitRadix_split text
  unfold readNumber at h
  generalize splitRadix text = parts at h hsplit
  obtain ⟨radix, mark, body⟩ := parts
  dsimp only at h hsplit
  split at h
  · cases h
    refine ⟨?_, Cause.noConfusion⟩
    rw [← hsplit]
    exact List.prefix_append_right_inj mark |>.mpr (List.takeWhile_prefix _)
  · split at h
    · cases h
      exact ⟨List.nil_prefix, Cause.noConfusion⟩
    · split at h
      · exact absurd h (by simp)
      · cases h
        exact ⟨List.nil_prefix, Cause.noConfusion⟩

/-- A text that starts with no item is blamed at a place inside it, and not for its indentation. -/
theorem misread {c : Char} {rest : List Char} {m : Misread} (h : Item.read c rest = .error m) :
    m.before <+: c :: rest ∧ m.cause ≠ .unmatchedIndent := by
  unfold Item.read at h
  split at h
  · exact absurd h (by simp)
  split at h
  · exact absurd h (by simp)
  split at h
  · exact absurd h (by simp)
  split at h
  · exact absurd h (by simp)
  split at h
  · exact absurd h (by simp)
  split at h
  · exact readNumber_misread h
  split at h
  · split at h
    · exact absurd h (by simp)
    · cases h
      exact ⟨List.nil_prefix, Cause.noConfusion⟩
  · split at h
    · exact absurd h (by simp)
    · cases h
      exact ⟨List.nil_prefix, Cause.noConfusion⟩

end Item

namespace LineStart

/-- **What a line can start with.** -/
inductive Form : List Char → LineStart → Prop where
  | ended {blanks : List Char} (hblanks : ∀ c ∈ blanks, isBlank c = true) : Form blanks (.empty blanks [])
  | comment {blanks cs rest : List Char} (hblanks : ∀ c ∈ blanks, isBlank c = true) (hcs : '\n' ∉ cs)
      (hrest : rest = [] ∨ ∃ tail, rest = '\n' :: tail) :
      Form (blanks ++ '#' :: (cs ++ rest)) (.empty (blanks ++ '#' :: cs) rest)
  | feed {blanks rest : List Char} (hblanks : ∀ c ∈ blanks, isBlank c = true) :
      Form (blanks ++ '\n' :: rest) (.empty (blanks ++ ['\n']) rest)
  | filled {blanks rest : List Char} {c : Char} (hblanks : ∀ c ∈ blanks, isBlank c = true) (hblank : isBlank c = false)
      (hhash : c ≠ '#') (hfeed : c ≠ '\n') : Form (blanks ++ c :: rest) (.filled blanks (c :: rest))

/-- A comment is read up to the line feed. -/
theorem comment_split (text : List Char) :
    '\n' ∉ text.takeWhile (· != '\n') ∧
      (text.dropWhile (· != '\n') = [] ∨ ∃ tail, text.dropWhile (· != '\n') = '\n' :: tail) := by
  refine ⟨fun hmem => absurd (List.mem_takeWhile_imp hmem) (by decide), ?_⟩
  cases hrest : text.dropWhile (· != '\n') with
  | nil => exact Or.inl rfl
  | cons d ds =>
      have hd := List.head_dropWhile_not (· != '\n') (l := text) (by rw [hrest]; exact List.cons_ne_nil d ds)
      simp only [hrest, List.head_cons, bne_eq_false_iff_eq] at hd
      exact Or.inr ⟨ds, by rw [hd]⟩

theorem form_of_read (text : List Char) : Form text (LineStart.read text) := by
  have hblanks : ∀ c ∈ text.takeWhile isBlank, isBlank c = true := fun c hc => List.mem_takeWhile_imp hc
  have hwhole := List.takeWhile_append_dropWhile (p := isBlank) (l := text)
  have hhead := List.head_dropWhile_not isBlank (l := text)
  unfold LineStart.read
  generalize text.takeWhile isBlank = blanks at hblanks hwhole ⊢
  generalize text.dropWhile isBlank = left at hwhole hhead ⊢
  subst hwhole
  cases left with
  | nil =>
      rw [List.append_nil]
      exact .ended hblanks
  | cons c tail =>
      have hblank : isBlank c = false := hhead (List.cons_ne_nil c tail)
      dsimp only
      by_cases hhash : c = '#'
      · obtain ⟨hcs, hrest⟩ := comment_split tail
        rw [if_pos hhash, hhash]
        nth_rewrite 1 [← List.takeWhile_append_dropWhile (p := (· != '\n')) (l := tail)]
        exact .comment hblanks hcs hrest
      · rw [if_neg hhash]
        by_cases hfeed : c = '\n'
        · rw [if_pos hfeed, hfeed]
          exact .feed hblanks
        · rw [if_neg hfeed]
          exact .filled hblanks hblank hhash hfeed

end LineStart

namespace Lexer

variable {lx mid next last : Lexer} {text used rest : List Char} {tokens more : List Token}

/-- **A move of the lexer**: the characters it passes over, the tokens it puts out, and the lexer after it. -/
inductive Move : Lexer → List Char → List Token → Lexer → Prop where
  /-- A line without tokens is passed over, up to its comment or its line feed. -/
  | skip {lx : Lexer} {used rest : List Char} (hstart : lx.lineStart = true) (hne : lx.rest ≠ [])
      (hread : LineStart.read lx.rest = .empty used rest) : Move lx used [] (lx.advance used rest)
  /-- The indentation of a line with tokens is settled. -/
  | enter {lx : Lexer} {blanks rest : List Char} {layout : List Kind} {levels : Levels} (hstart : lx.lineStart = true)
      (hread : LineStart.read lx.rest = .filled blanks rest)
      (henter : lx.levels.enter? (blankWidth blanks) = some (layout, levels)) :
      Move lx blanks (layout.map (⟨·, .point (lx.pos.across blanks)⟩))
        { lx with
          pos := lx.pos.across blanks, rest := rest, levels := levels, lineStart := false
          lineOpen := if layout.isEmpty then lx.lineOpen else layout == [.indent] }
  /-- Inside a line, a blank, a comment or the end of a joined line is passed over. -/
  | blank {lx : Lexer} {c : Char} {cs used rest : List Char} (hstart : lx.lineStart = false) (hrest : lx.rest = c :: cs)
      (hread : Item.read c cs = .ok ⟨.blank, used, rest⟩) : Move lx used [] (lx.advance used rest)
  /-- Inside parentheses a line feed is passed over. -/
  | join {lx : Lexer} {c : Char} {cs used rest : List Char} (hstart : lx.lineStart = false) (hrest : lx.rest = c :: cs)
      (hread : Item.read c cs = .ok ⟨.newline, used, rest⟩) (hdepth : 0 < lx.depth) :
      Move lx used [] (lx.advance used rest)
  /-- Outside parentheses a line feed ends the line. -/
  | feed {lx : Lexer} {c : Char} {cs used rest : List Char} (hstart : lx.lineStart = false) (hrest : lx.rest = c :: cs)
      (hread : Item.read c cs = .ok ⟨.newline, used, rest⟩) (hdepth : lx.depth = 0) :
      Move lx used [⟨.newline, ⟨lx.pos, lx.pos.across used⟩⟩]
        { lx.advance used rest with lineStart := true, lineOpen := false }
  | token {lx : Lexer} {c : Char} {cs used rest : List Char} {kind : Kind} (hstart : lx.lineStart = false)
      (hrest : lx.rest = c :: cs) (hread : Item.read c cs = .ok ⟨.token kind, used, rest⟩) :
      Move lx used [⟨kind, ⟨lx.pos, lx.pos.across used⟩⟩]
        { lx.advance used rest with depth := depthAfter lx.depth kind, lineOpen := true }

/-- Moves one after the other. -/
inductive Moves : Lexer → List Char → List Token → Lexer → Prop where
  | refl (lx : Lexer) : Moves lx [] [] lx
  | snoc {lx mid next : Lexer} {text used : List Char} {tokens more : List Token} :
      Moves lx text tokens mid → Move mid used more next → Moves lx (text ++ used) (tokens ++ more) next

/-- The lexer cannot go on, and reports why. -/
inductive Fails : Lexer → Fault → Prop where
  | indent {lx : Lexer} {blanks rest : List Char} (hstart : lx.lineStart = true)
      (hread : LineStart.read lx.rest = .filled blanks rest) (henter : lx.levels.enter? (blankWidth blanks) = none) :
      Fails lx ⟨.unmatchedIndent, lx.pos.across blanks⟩
  | item {lx : Lexer} {c : Char} {cs : List Char} {m : Misread} (hstart : lx.lineStart = false)
      (hrest : lx.rest = c :: cs) (hread : Item.read c cs = .error m) : Fails lx ⟨m.cause, lx.pos.across m.before⟩

/-! ## Text and places -/

/-- A move takes off the text what it passes over, and goes as far. -/
theorem Move.splits (h : Move lx used tokens next) : lx.rest = used ++ next.rest ∧ next.pos = lx.pos.across used := by
  cases h with
  | skip _ _ hread => exact ⟨(LineStart.read_empty_split hread).symm, rfl⟩
  | enter _ hread _ => exact ⟨(LineStart.read_filled_split hread).1.symm, rfl⟩
  | blank _ hrest hread | join _ hrest hread _ | feed _ hrest hread _ | token _ hrest hread =>
      rw [hrest]
      exact ⟨(Item.read_split hread).symm, rfl⟩

theorem Moves.splits (h : Moves lx text tokens next) : lx.rest = text ++ next.rest ∧ next.pos = lx.pos.across text := by
  induction h with
  | refl => exact ⟨rfl, rfl⟩
  | snoc _ hmove ih =>
      obtain ⟨hrest, hpos⟩ := hmove.splits
      rw [List.append_assoc, ← hrest, hpos, ih.2, Position.across_append]
      exact ⟨ih.1, rfl⟩

theorem Move.moves (h : Move lx used tokens next) : Moves lx used tokens next := Moves.snoc (.refl lx) h

theorem Moves.trans {text' : List Char} (h : Moves lx text tokens mid) (h' : Moves mid text' more next) :
    Moves lx (text ++ text') (tokens ++ more) next := by
  induction h' with
  | refl =>
      rw [List.append_nil, List.append_nil]
      exact h
  | snoc _ hmove ih =>
      rw [← List.append_assoc, ← List.append_assoc]
      exact ih.snoc hmove

/-! ## Steps are moves -/

/-- What a step inside a line comes to: the text has ended, or the lexer fails here, or it makes one move. -/
theorem stepInLine_cases (hstart : lx.lineStart = false) :
    (lx.rest = [] ∧ lx.stepInLine = .ok none) ∨ (∃ e, lx.stepInLine = .error e ∧ Fails lx e) ∨
      ∃ used tokens next, lx.stepInLine = .ok (some (tokens, next)) ∧ Move lx used tokens next := by
  unfold stepInLine
  cases hrest : lx.rest with
  | nil => exact Or.inl ⟨rfl, rfl⟩
  | cons c cs =>
      refine Or.inr ?_
      dsimp only
      cases hread : Item.read c cs with
      | error m => exact Or.inl ⟨_, rfl, .item hstart hrest hread⟩
      | ok r =>
          refine Or.inr ?_
          obtain ⟨item, used, rest⟩ := r
          cases item with
          | blank => exact ⟨used, _, _, rfl, .blank hstart hrest hread⟩
          | newline =>
              by_cases hdepth : 0 < lx.depth
              · exact ⟨used, _, _, if_pos hdepth, .join hstart hrest hread hdepth⟩
              · exact ⟨used, _, _, if_neg hdepth, .feed hstart hrest hread (not_not.mp (mt UInt32.pos_iff_ne_zero.mpr hdepth))⟩
          | token kind => exact ⟨used, _, _, rfl, .token hstart hrest hread⟩

/-- What settling the indentation of a line comes to. -/
theorem enterLine_cases (hstart : lx.lineStart = true) (hread : LineStart.read lx.rest = .filled used rest) :
    (∃ e, lx.enterLine used rest = .error e ∧ Fails lx e) ∨
      ∃ layout inside, lx.enterLine used rest = .ok (layout, inside) ∧ Move lx used layout inside ∧
        inside.lineStart = false ∧ inside.rest = rest := by
  unfold enterLine
  cases henter : lx.levels.enter? (blankWidth used) with
  | none => exact Or.inl ⟨_, rfl, .indent hstart hread henter⟩
  | some entered => exact Or.inr ⟨_, _, rfl, .enter hstart hread henter, rfl, rfl⟩

/-- **What a step comes to**: the text has ended, or the lexer fails after at most one move, or it makes one move,
    or two at the start of a line with tokens. -/
theorem step_cases (lx : Lexer) :
    (lx.rest = [] ∧ lx.step = .ok none) ∨
      (∃ e text tokens last, lx.step = .error e ∧ Moves lx text tokens last ∧ Fails last e) ∨
      ∃ text tokens next, lx.step = .ok (some (tokens, next)) ∧ Moves lx text tokens next := by
  unfold step
  cases hstart : lx.lineStart with
  | false =>
      show (lx.rest = [] ∧ lx.stepInLine = .ok none) ∨ _
      rcases stepInLine_cases hstart with hnone | ⟨e, he, hfails⟩ | ⟨used, tokens, next, hok, hmove⟩
      · exact Or.inl hnone
      · exact Or.inr (Or.inl ⟨e, _, _, lx, he, .refl lx, hfails⟩)
      · exact Or.inr (Or.inr ⟨used, tokens, next, hok, hmove.moves⟩)
  | true =>
      cases hrest : lx.rest with
      | nil => exact Or.inl ⟨rfl, rfl⟩
      | cons c cs =>
          refine Or.inr ?_
          have hne : lx.rest ≠ [] := by rw [hrest]; exact List.cons_ne_nil c cs
          dsimp only
          rw [← hrest]
          cases hread : LineStart.read lx.rest with
          | empty used rest => exact Or.inr ⟨used, _, _, rfl, (Move.skip hstart hne hread).moves⟩
          | filled blanks rest =>
              dsimp only
              rcases enterLine_cases hstart hread with ⟨e, he, hfails⟩ | ⟨layout, inside, hok, hmove, hinside, hleft⟩
              · rw [he]
                exact Or.inl ⟨e, _, _, lx, rfl, .refl lx, hfails⟩
              rw [hok]
              rcases stepInLine_cases hinside with ⟨hnil, _⟩ | ⟨e, he, hfails⟩ | ⟨used, tokens, next, hstep, hmove'⟩
              · -- a line that is entered has characters left
                exact absurd (hleft.symm.trans hnil) (LineStart.read_filled_split hread).2
              · dsimp only
                rw [he]
                exact Or.inl ⟨e, _, _, inside, rfl, hmove.moves, hfails⟩
              · dsimp only
                rw [hstep]
                exact Or.inr ⟨_, _, next, rfl, hmove.moves.snoc hmove'⟩

/-! ## Runs are moves -/

/-- **What a run comes to**: the lexer makes moves up to the end of the text, and closes it; or it makes moves up
    to a place where it fails. -/
theorem run_cases (lx : Lexer) :
    (∃ tokens last, lx.run = .ok (tokens ++ last.close) ∧ Moves lx lx.rest tokens last ∧ last.rest = []) ∨
      ∃ e text tokens last, lx.run = .error e ∧ Moves lx text tokens last ∧ Fails last e := by
  -- each step that does not end the run leaves less to read
  induction hlength : lx.rest.length using Nat.strongRecOn generalizing lx with
  | _ n ih =>
      rcases step_cases lx with ⟨hnil, hstep⟩ | ⟨e, text, tokens, last, hstep, hmoves, hfails⟩ |
        ⟨text, tokens, next, hstep, hmoves⟩
      · rw [run_of_end hstep, hnil]
        exact Or.inl ⟨[], lx, rfl, .refl lx, hnil⟩
      · rw [run, hstep]
        exact Or.inr ⟨e, text, tokens, last, rfl, hmoves, hfails⟩
      · have hshorter := step_shortens hstep
        rw [run, hstep]
        dsimp only
        rcases ih _ (hlength ▸ hshorter) next rfl with ⟨more, last, hrun, hmoves', hlast⟩ |
          ⟨e, text', more, last, hrun, hmoves', hfails⟩
        · rw [hrun, hmoves.splits.1]
          exact Or.inl ⟨tokens ++ more, last, by rw [List.append_assoc], hmoves.trans hmoves', hlast⟩
        · rw [hrun]
          exact Or.inr ⟨e, _, _, last, rfl, hmoves.trans hmoves', hfails⟩

/-- **A run that ends well** makes moves up to the end of the text, and closes it. -/
theorem moves_of_run_ok (h : lx.run = .ok tokens) :
    ∃ front last, Moves lx lx.rest front last ∧ last.rest = [] ∧ tokens = front ++ last.close := by
  rcases run_cases lx with ⟨front, last, hrun, hmoves, hlast⟩ | ⟨e, _, _, _, hrun, _⟩
  · exact ⟨front, last, hmoves, hlast, Except.ok.inj (h.symm.trans hrun)⟩
  · exact absurd (h.symm.trans hrun) (by simp)

/-- **A run that fails** makes moves up to the place where the lexer cannot go on. -/
theorem moves_of_run_error {e : Fault} (h : lx.run = .error e) :
    ∃ text tokens last, Moves lx text tokens last ∧ Fails last e := by
  rcases run_cases lx with ⟨_, _, hrun, _⟩ | ⟨e', text, tokens, last, hrun, hmoves, hfails⟩
  · exact absurd (h.symm.trans hrun) (by simp)
  · cases h.symm.trans hrun
    exact ⟨text, tokens, last, hmoves, hfails⟩

/-- The kinds of the tokens that close a text. -/
def closing (lx : Lexer) : List Kind :=
  (if lx.lineOpen then [Kind.newline] else []) ++ lx.levels.map (fun _ => Kind.dedent) ++ [Kind.eof]

/-- The tokens that close a text stand at its end, and have no text. -/
theorem close_eq_map (lx : Lexer) : lx.close = lx.closing.map (⟨·, .point lx.pos⟩) := by
  unfold close closing
  rw [List.map_append, List.map_append, List.map_map]
  cases lx.lineOpen <;> rfl

/-! ## States along a run -/

/-- Steps one after the other, and the tokens they put out. -/
inductive Steps (lx : Lexer) : List Token → Lexer → Prop where
  | refl : Steps lx [] lx
  | snoc {mid next : Lexer} {tokens more : List Token} (h : Steps lx tokens mid)
      (hstep : mid.step = .ok (some (more, next))) : Steps lx (tokens ++ more) next

theorem Steps.moves (h : Steps lx tokens next) : ∃ text, Moves lx text tokens next := by
  induction h with
  | refl => exact ⟨[], .refl lx⟩
  | @snoc mid next tokens more _ hstep ih =>
      obtain ⟨text, hmoves⟩ := ih
      rcases step_cases mid with ⟨_, hnone⟩ | ⟨e, _, _, _, herror, _⟩ | ⟨text', more', next', hok, hmoves'⟩
      · exact absurd (hnone.symm.trans hstep) (by simp)
      · exact absurd (herror.symm.trans hstep) (by simp)
      · cases hok.symm.trans hstep
        exact ⟨text ++ text', hmoves.trans hmoves'⟩

/-- Lines start outside parentheses. -/
theorem Move.depth_zero (h : Move lx used tokens next) (hlx : lx.lineStart = true → lx.depth = 0) :
    next.lineStart = true → next.depth = 0 := by
  cases h with
  | skip hstart => exact fun _ => hlx hstart
  | enter => exact fun h => absurd h Bool.false_ne_true
  | blank hstart | join hstart | token hstart => exact fun h => absurd (hstart.symm.trans h) Bool.false_ne_true
  | feed _ _ _ hdepth => exact fun _ => hdepth

end Lexer

end Offside.Token
