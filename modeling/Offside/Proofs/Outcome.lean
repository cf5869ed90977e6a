import Mathlib
import Offside.Proofs.Cover

/-!
# `Proofs.Outcome` — what a text comes to, wherever it stands

Two texts can have the same tokens at different places. `outcome` keeps of a run what does not depend on places: the kinds
of the tokens, or the cause of the failure. It is known along moves (`Moves.outcome`), and moves can be made from any place
(`Moves.place`), so it does not depend on the place of the lexer (`outcome_place`); what a lexer makes of a text is
`Lexer.scan`.

A move looks one character ahead, so it can be made again in front of another text that starts with the same character
(`Move.again`). Two texts of which a lexer makes the same then come to the same behind everything that was read before
(`Moves.scan_congr`).
-/

namespace Offside.Token

/-! ## Outcomes -/

/-- **What a run comes to**, apart from places: the kinds of its tokens, or the cause of its failure, which is what its
    message says. -/
def outcome : Except Fault (List Token) → Except Cause (List Kind)
  | .error e => .error e.cause
  | .ok tokens => .ok (tokens.map Token.kind)

/-- Tokens of these kinds come first. -/
def prepend (ks : List Kind) (r : Except Cause (List Kind)) : Except Cause (List Kind) := r.map (ks ++ ·)

@[simp] theorem prepend_nil (r : Except Cause (List Kind)) : prepend [] r = r := by cases r <;> rfl

theorem prepend_append (ks ks' : List Kind) (r : Except Cause (List Kind)) :
    prepend (ks ++ ks') r = prepend ks (prepend ks' r) := by
  cases r with
  | error e => rfl
  | ok out =>
      show Except.ok (ks ++ ks' ++ out) = Except.ok (ks ++ (ks' ++ out))
      rw [List.append_assoc]

namespace Lexer

variable {lx mid next last : Lexer} {text used rest blanks cs : List Char} {tokens more : List Token} {c : Char}

theorem outcome_of_step (h : lx.step = .ok (some (tokens, next))) :
    outcome lx.run = prepend (tokens.map Token.kind) (outcome next.run) := by
  rw [run, h]
  dsimp only
  cases next.run with
  | error e => rfl
  | ok out =>
      show Except.ok ((tokens ++ out).map Token.kind) = Except.ok (tokens.map Token.kind ++ out.map Token.kind)
      rw [List.map_append]

/-- At the end of the text it is closed. -/
theorem outcome_of_end (h : lx.rest = []) : outcome lx.run = .ok lx.closing := by
  have hstep : lx.step = .ok none := by
    unfold step stepInLine
    rw [h]
    cases lx.lineStart <;> rfl
  rw [run_of_end hstep, close_eq_map]
  show Except.ok ((lx.closing.map (⟨·, .point lx.pos⟩)).map Token.kind) = _
  rw [map_kind_marks]

/-- A line that is entered has characters left. -/
theorem rest_of_filled (hread : LineStart.read lx.rest = .filled blanks rest) : ∃ c cs, lx.rest = c :: cs := by
  obtain ⟨hsplit, hne⟩ := LineStart.read_filled_split hread
  apply List.exists_cons_of_ne_nil
  rw [← hsplit]
  exact List.append_ne_nil_of_right_ne_nil blanks hne

/-- What becomes of a line that is entered is what becomes of its items, behind its layout. -/
theorem outcome_of_enter {inside : Lexer} {layout : List Token} (hstart : lx.lineStart = true)
    (hread : LineStart.read lx.rest = .filled blanks rest) (henter : lx.enterLine blanks rest = .ok (layout, inside))
    (hinside : inside.lineStart = false) (hrest : inside.rest = rest) :
    outcome lx.run = prepend (layout.map Token.kind) (outcome inside.run) := by
  obtain ⟨c, cs, hline⟩ := rest_of_filled hread
  have hfirst := step_inLine hinside
  rcases stepInLine_cases hinside with ⟨hnil, -⟩ | ⟨e, he, -⟩ | ⟨_, tokens, next, hok, -⟩
  · exact absurd (hrest.symm.trans hnil) (LineStart.read_filled_split hread).2
  · rw [hline] at hread
    have hstep : lx.step = .error e := by simp only [step, hstart, hline, hread, henter, he]
    rw [he] at hfirst
    rw [run, hstep, run, hfirst]
    rfl
  · rw [hline] at hread
    have hstep : lx.step = .ok (some (layout ++ tokens, next)) := by
      simp only [step, hstart, hline, hread, henter, hok]
    rw [hok] at hfirst
    rw [outcome_of_step hstep, outcome_of_step hfirst, List.map_append, prepend_append]

/-- **Along a move** a run comes to the tokens of the move, and to what the lexer after it comes to. -/
theorem Move.outcome (h : Move lx used tokens next) :
    outcome lx.run = prepend (tokens.map Token.kind) (outcome next.run) := by
  cases h with
  | skip hstart hne hread =>
      obtain ⟨c, cs, hline⟩ := List.exists_cons_of_ne_nil hne
      rw [hline] at hread
      apply outcome_of_step
      simp only [step, hstart, hline, hread]
  | enter hstart hread henter =>
      apply outcome_of_enter hstart hread _ rfl rfl
      rw [enterLine, henter]
  | blank hstart hrest hread =>
      apply outcome_of_step
      simp only [step_inLine hstart, stepInLine, hrest, hread]
  | token hstart hrest hread =>
      apply outcome_of_step
      simp only [step_inLine hstart, stepInLine, hrest, hread]
      rfl
  | join hstart hrest hread hdepth =>
      apply outcome_of_step
      simp only [step_inLine hstart, stepInLine, hrest, hread, if_pos hdepth]
  | feed hstart hrest hread hdepth =>
      apply outcome_of_step
      simp only [step_inLine hstart, stepInLine, hrest, hread, hdepth]
      rfl

theorem Moves.outcome (h : Moves lx text tokens next) :
    outcome lx.run = prepend (tokens.map Token.kind) (outcome next.run) := by
  induction h with
  | refl => exact (prepend_nil _).symm
  | snoc _ hmove ih =>
      rw [ih, hmove.outcome, List.map_append, prepend_append]

theorem Fails.outcome {e : Fault} (h : Fails lx e) : outcome lx.run = .error e.cause := by
  cases h with
  | @indent blanks _ hstart hread henter =>
      obtain ⟨c, cs, hline⟩ := rest_of_filled hread
      rw [hline] at hread
      have hstep : lx.step = .error ⟨.unmatchedIndent, lx.pos.across blanks⟩ := by
        simp only [step, hstart, hline, hread, enterLine, henter]
      rw [run, hstep]
      rfl
  | @item _ _ m hstart hrest hread =>
      have hstep : lx.step = .error ⟨m.cause, lx.pos.across m.before⟩ := by
        simp only [step_inLine hstart, stepInLine, hrest, hread]
      rw [run, hstep]
      rfl

/-! ## Places do not matter -/

/-- A move can be made from any place. -/
theorem Move.place (h : Move lx used tokens next) (p : Position) :
    ∃ tokens', Move { lx with pos := p } used tokens' { next with pos := p.across used } ∧
      tokens'.map Token.kind = tokens.map Token.kind := by
  cases h with
  | skip hstart hne hread => exact ⟨_, .skip hstart hne hread, rfl⟩
  | enter hstart hread henter =>
      refine ⟨_, .enter hstart hread henter, ?_⟩
      rw [map_kind_marks, map_kind_marks]
  | blank hstart hrest hread => exact ⟨_, .blank hstart hrest hread, rfl⟩
  | join hstart hrest hread hdepth => exact ⟨_, .join hstart hrest hread hdepth, rfl⟩
  | feed hstart hrest hread hdepth => exact ⟨_, .feed hstart hrest hread hdepth, rfl⟩
  | token hstart hrest hread => exact ⟨_, .token hstart hrest hread, rfl⟩

theorem Moves.place (h : Moves lx text tokens next) (p : Position) :
    ∃ tokens', Moves { lx with pos := p } text tokens' { next with pos := p.across text } ∧
      tokens'.map Token.kind = tokens.map Token.kind := by
  induction h with
  | refl => exact ⟨[], .refl _, rfl⟩
  | @snoc mid next text used tokens more _ hmove ih =>
      obtain ⟨tokens', hmoves, hkinds⟩ := ih
      obtain ⟨more', hmove', hkinds'⟩ := hmove.place (p.across text)
      refine ⟨tokens' ++ more', ?_, by rw [List.map_append, List.map_append, hkinds, hkinds']⟩
      rw [Position.across_append]
      exact hmoves.snoc hmove'

theorem Fails.place {e : Fault} (h : Fails lx e) (p : Position) :
    ∃ e', Fails { lx with pos := p } e' ∧ e'.cause = e.cause := by
  cases h with
  | indent hstart hread henter => exact ⟨_, .indent hstart hread henter, rfl⟩
  | item hstart hrest hread => exact ⟨_, .item hstart hrest hread, rfl⟩

/-- **What a run comes to does not depend on the place of the lexer.** -/
theorem outcome_place (lx : Lexer) (p : Position) : outcome ({ lx with pos := p } : Lexer).run = outcome lx.run := by
  rcases run_cases lx with ⟨tokens, last, -, hmoves, hlast⟩ | ⟨e, text, tokens, last, -, hmoves, hfails⟩
  · obtain ⟨tokens', hmoves', hkinds⟩ := hmoves.place p
    have hend : outcome ({ last with pos := p.across lx.rest } : Lexer).run = .ok last.closing := outcome_of_end hlast
    rw [hmoves.outcome, hmoves'.outcome, hkinds, hend, outcome_of_end hlast]
  · obtain ⟨tokens', hmoves', hkinds⟩ := hmoves.place p
    obtain ⟨e', hfails', hcause⟩ := hfails.place (p.across text)
    rw [hmoves.outcome, hmoves'.outcome, hkinds, hfails.outcome, hfails'.outcome, hcause]

/-- **What a lexer makes of a text**, when that is what it has to read. -/
def scan (lx : Lexer) (text : List Char) : Except Cause (List Kind) := outcome ({ lx with rest := text } : Lexer).run

theorem scan_advance (lx : Lexer) (used rest text : List Char) : (lx.advance used rest).scan text = lx.scan text :=
  outcome_place { lx with rest := text } (lx.pos.across used)

/-- A line without tokens is passed over. -/
theorem scan_skip (hstart : lx.lineStart = true) (hne : text ≠ []) (hform : LineStart.Form text (.empty used rest)) :
    lx.scan text = lx.scan rest := by
  have hmove : Move { lx with rest := text } used [] ({ lx with rest := text }.advance used rest) :=
    .skip hstart hne hform.read_eq
  rw [← scan_advance lx used rest rest]
  exact hmove.outcome.trans (prepend_nil _)

/-- Inside a line, a blank, a comment or the end of a joined line is passed over. -/
theorem scan_blank (hstart : lx.lineStart = false) (hread : Item.read c cs = .ok ⟨.blank, used, rest⟩) :
    lx.scan (c :: cs) = lx.scan rest := by
  have hmove : Move { lx with rest := c :: cs } used [] ({ lx with rest := c :: cs }.advance used rest) :=
    .blank hstart rfl hread
  rw [← scan_advance lx used rest rest]
  exact hmove.outcome.trans (prepend_nil _)

/-! ## Moves in front of another text -/

/-- **A move looks one character ahead**: it can be made again in front of another text that starts with the same
    character. Inside a line a move that passes over no comment can be made in front of any text that is parted from it. -/
theorem Move.again (h : Move lx used tokens next)
    (htext : text.head? = next.rest.head? ∨ lx.lineStart = false ∧ used.head? ≠ some '#' ∧ Parted text) :
    Move { lx with rest := used ++ text } used tokens { next with rest := text } := by
  -- an item's own first character is the first that the move passes over
  have hitem {c : Char} {cs left : List Char} {item : Item} (hread : Item.read c cs = .ok ⟨item, used, left⟩)
      (hleft : next.rest = left) :
      ∃ tail, used = c :: tail ∧ Item.read c (tail ++ text) = .ok ⟨item, used, text⟩ := by
    apply (Item.form_of_read hread).again
    rw [hleft] at htext
    refine htext.imp_right fun ⟨_, hhash, hparted⟩ => ⟨?_, hparted⟩
    rintro rfl
    exact hhash (Item.head_used hread)
  cases h with
  | skip hstart hne hread =>
      have hform := LineStart.form_of_eq hread
      have hne' : used ++ text ≠ [] := List.append_ne_nil_of_left_ne_nil (hform.used_ne_nil hne) text
      have hhead := htext.resolve_right fun h => Bool.false_ne_true (h.1.symm.trans hstart)
      exact .skip hstart hne' (hform.empty_again hhead).read_eq
  | enter hstart hread henter =>
      have hform := LineStart.form_of_eq hread
      have hhead := htext.resolve_right fun h => Bool.false_ne_true (h.1.symm.trans hstart)
      exact .enter hstart (hform.filled_again hhead).read_eq henter
  | blank hstart hrest hread =>
      obtain ⟨tail, rfl, hagain⟩ := hitem hread rfl
      exact .blank hstart rfl hagain
  | join hstart hrest hread hdepth =>
      obtain ⟨tail, rfl, hagain⟩ := hitem hread rfl
      exact .join hstart rfl hagain hdepth
  | feed hstart hrest hread hdepth =>
      obtain ⟨tail, rfl, hagain⟩ := hitem hread rfl
      exact .feed hstart rfl hagain hdepth
  | token hstart hrest hread =>
      obtain ⟨tail, rfl, hagain⟩ := hitem hread rfl
      exact .token hstart rfl hagain

/-- Moves can be made again in front of another text that starts with the same character: if the lexer after them makes
    the same of both texts, then so does the lexer before them. -/
theorem Moves.scan_congr (h : Moves lx text tokens next) {rest' : List Char} (hhead : rest'.head? = next.rest.head?)
    (hscan : next.scan rest' = next.scan next.rest) : lx.scan (text ++ rest') = lx.scan lx.rest := by
  induction h generalizing rest' with
  | refl => exact hscan
  | @snoc mid next text used tokens more _ hmove ih =>
      rw [List.append_assoc]
      apply ih
      · rw [hmove.splits.1, List.head?_append, List.head?_append, hhead]
      · calc mid.scan (used ++ rest')
          _ = prepend (more.map Token.kind) (next.scan rest') := (hmove.again (Or.inl hhead)).outcome
          _ = prepend (more.map Token.kind) (next.scan next.rest) := by rw [hscan]
          _ = mid.scan mid.rest := hmove.outcome.symm

end Lexer

end Offside.Token
