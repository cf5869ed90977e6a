import Mathlib
import Offside.Proofs.Recursion
import Offside.Proofs.Scanning

/-!
# `Proofs.Termination` — reading ends on every input

Neither the lexer nor the parser asks anything of what it is given: the text may be no program at all, and
the tokens may be unbalanced or lack the end of the file. A round of the lexer's loop reads at least one
character, or it is the last one. A function of the parser takes at least one token off the front. So the
loop of the lexer has one round for each character and one for the end, at most (`Lexer.within_eq`), and the
calls of the parser nest no deeper than `Rule.depth` says.

A module is read up to the end of the tokens or up to an end-of-file token, and nowhere else
(`moduleLines_stops`).
-/

namespace Offside

/-- Something was taken off the front of a list, and this is what is left. -/
def Shortens {α : Type} (whole rest : List α) : Prop := ∃ used, used ≠ [] ∧ whole = used ++ rest

theorem shortens_of_append {α : Type} {whole used rest : List α} (h : whole = used ++ rest)
    (hlt : rest.length < whole.length) : Shortens whole rest := by
  refine ⟨used, ?_, h⟩
  intro hnil
  rw [h, hnil] at hlt
  exact absurd hlt (Nat.lt_irrefl _)

/-! ## The lexer's loop -/

namespace Token.Lexer

/-- One round of the loop finds the end of the text, fails, or reads on. -/
theorem step_progress (lx : Lexer) :
    (lx.rest = [] ∧ lx.step = .ok none) ∨ (∃ e, lx.step = .error e) ∨
      ∃ tokens next, lx.step = .ok (some (tokens, next)) ∧ Shortens lx.rest next.rest := by
  rcases step_cases lx with hend | ⟨e, _, _, _, hfail, _⟩ | ⟨text, tokens, next, hstep, hmoves⟩
  · exact Or.inl hend
  · exact Or.inr (Or.inl ⟨e, hfail⟩)
  · exact Or.inr (Or.inr ⟨tokens, next, hstep, shortens_of_append hmoves.splits.1 (step_shortens hstep)⟩)

theorem Steps.suffix {lx next : Lexer} {tokens : List Token} (h : Steps lx tokens next) : next.rest <:+ lx.rest := by
  obtain ⟨text, hmoves⟩ := h.moves
  exact ⟨text, hmoves.splits.1.symm⟩

/-- The loop, stopped without a result after the given number of rounds. -/
def within : Nat → Lexer → Option (Except Fault (List Token))
  | 0, _ => none
  | rounds + 1, lx =>
    match lx.step with
    | .error e => some (.error e)
    | .ok none => some (.ok lx.close)
    | .ok (some (tokens, next)) => (next.within rounds).map fun whole => whole.map (tokens ++ ·)

theorem run_of_step_eq {lx next : Lexer} {tokens : List Token} (h : lx.step = .ok (some (tokens, next))) :
    lx.run = next.run.map (tokens ++ ·) := by
  rw [run]
  split
  · next e he => exact absurd (h.symm.trans he) (by simp)
  · next he => exact absurd (h.symm.trans he) (by simp)
  · next tokens' next' he =>
      cases h.symm.trans he
      cases next.run <;> rfl

theorem run_of_fault {lx : Lexer} {e : Fault} (h : lx.step = .error e) : lx.run = .error e := by
  rw [run]
  split
  · next e' he => cases h.symm.trans he; rfl
  · next he => exact absurd (h.symm.trans he) (by simp)
  · next he => exact absurd (h.symm.trans he) (by simp)

/-- **The lexer's loop ends**, at the latest in the round after the last character. -/
theorem within_eq (rounds : Nat) (lx : Lexer) (h : lx.rest.length < rounds) : lx.within rounds = some lx.run := by
  induction rounds generalizing lx with
  | zero => exact absurd h (Nat.not_lt_zero _)
  | succ rounds ih =>
      rw [within]
      rcases step_progress lx with ⟨_, hend⟩ | ⟨e, hfail⟩ | ⟨tokens, next, hstep, _⟩
      · rw [hend, run_of_end hend]
      · rw [hfail, run_of_fault hfail]
      · have hshorter := step_shortens hstep
        rw [hstep, run_of_step_eq hstep]
        show Option.map _ (next.within rounds) = _
        rw [ih next (by omega)]
        rfl

end Token.Lexer

/-! ## The parser -/

namespace Tree

theorem Front.shortens {ts rest : List Token} {R : List Token → Prop} (h : Front ts rest R)
    (hlt : rest.length < ts.length) : Shortens ts rest := by
  obtain ⟨used, hused, _⟩ := h
  exact shortens_of_append hused hlt

theorem Front.suffix {ts rest : List Token} {R : List Token → Prop} (h : Front ts rest R) : rest <:+ ts := by
  obtain ⟨used, hused, _⟩ := h
  exact ⟨used, hused.symm⟩

/-- Only the end of the file stops the loop over the lines of a module. -/
theorem moduleLines_stops {eof : Position} (ts : List Token) {p : Trail (List Stmt) ts}
    (h : moduleLines eof ts = .ok p) : p.rest = [] ∨ ∃ t rest, p.rest = t :: rest ∧ t.kind = .eof := by
  match ts with
  | [] =>
      rw [moduleLines] at h
      cases h
      exact Or.inl rfl
  | t :: rest =>
      rw [moduleLines] at h
      split at h
      · next heof =>
          cases h
          exact Or.inr ⟨t, rest, rfl, heof⟩
      split at h
      · obtain ⟨more, hmore, h⟩ := bind_eq_ok h
        cases h
        exact moduleLines_stops rest hmore
      · obtain ⟨line, _, h⟩ := bind_eq_ok h
        have hshorter := line.shorter
        obtain ⟨more, hmore, h⟩ := bind_eq_ok h
        cases h
        exact moduleLines_stops line.rest hmore
termination_by ts.length
decreasing_by
  · exact hshorter
  · exact Nat.lt_succ_self _

/-- **Reading ends on every input.** On any text, each round of the lexer's loop is the last one or moves on, and
    the loop has at most one round more than there are characters. On any list of tokens, a logical line, a block, a
    line of simple statements and an expression each take something off the front, and the calls of every function
    of the parser, the rounds of its loops among them, nest no deeper than sixteen for each token and the rank of the
    function. A module is read only where the tokens end or an end-of-file token stands. -/
theorem reading_ends (file source : String) (eof : Position) (ts : List Token) :
    (∀ tokens lx, Token.Lexer.Steps (.start file source.toList) tokens lx →
      lx.rest <:+ source.toList ∧
        ((lx.rest = [] ∧ lx.step = .ok none) ∨ (∃ e, lx.step = .error e) ∨
          ∃ more next, lx.step = .ok (some (more, next)) ∧ Shortens lx.rest next.rest)) ∧
    (∀ rounds, source.length < rounds →
      (Token.Lexer.start file source.toList).within rounds = some (Token.tokenize file source)) ∧
    (∀ p, statementLine eof ts = .ok p → Shortens ts p.rest) ∧
    (∀ context p, block eof context ts = .ok p → Shortens ts p.rest) ∧
    (∀ p, simpleStatements eof ts = .ok p → Shortens ts p.rest) ∧
    (∀ p, expression eof ts = .ok p → Shortens ts p.rest) ∧
    (∀ {α : Type} (rule : Rule α) depth, rule.depth ts ≤ depth →
      rule.within eof depth ts = .settled (rule.read eof ts)) ∧
    ∀ m, parseModule ts = .ok m → ∃ lines, moduleLines (eofOf ts) ts = .ok lines ∧ m.body = lines.value ∧
      lines.rest <:+ ts ∧ (lines.rest = [] ∨ ∃ t rest, lines.rest = t :: rest ∧ t.kind = .eof) := by
  refine ⟨?_, ?_, ?_, ?_, ?_, ?_, ?_, ?_⟩
  · intro tokens lx hsteps
    exact ⟨hsteps.suffix, lx.step_progress⟩
  · intro rounds hrounds
    exact Token.Lexer.within_eq rounds _ (by rwa [← String.length_toList] at hrounds)
  · intro p hp
    exact (composes_statementLine ts hp).shortens p.shorter
  · intro context p hp
    exact (composes_block context ts hp).shortens p.shorter
  · intro p hp
    exact (composes_simpleStatements hp).shortens p.shorter
  · intro p hp
    exact (makes_expression ts hp).shortens p.shorter
  · intro α rule depth hdepth
    exact rule.within_eq eof depth ts hdepth
  · intro m hm
    obtain ⟨lines, hlines, hm⟩ := bind_eq_ok hm
    cases hm
    exact ⟨lines, hlines, rfl, (composes_moduleLines ts hlines).suffix, moduleLines_stops ts hlines⟩

end Tree

end Offside
