import Offside.Compile
import Offside.Proofs.Allocation
import Offside.Proofs.Blame
import Offside.Proofs.Cover
import Offside.Proofs.Origins

/-!
# `Proofs.Locations` — every failure points into the source

The lexer blames a place that it comes to, tokens start and end at such places, the parser blames places of tokens, and
code generation blames starts of nodes, which are places of tokens again. So every failure of a compilation points at a
place of its source (`failures_point_into_source`): a place behind some first part of the text, whose line is a line of
the text and whose column lies in that line, or right behind it.
-/

namespace Offside

open Token (placeBehind lineBehind)

/-- The place lies in the source: it stands behind a first part of its text. -/
def InSource (file : String) (source : List Char) (p : Position) : Prop :=
  ∃ before, before <+: source ∧ p = placeBehind file before

variable {file : String} {source before after : List Char}

/-! ## Lines and columns -/

/-- A place counts the line feeds before it, and the characters behind the last of them. -/
theorem placeBehind_eq (file : String) (before : List Char) :
    placeBehind file before = ⟨file, before.count '\n' + 1, (lineBehind before).length + 1⟩ := by
  induction before using List.reverseRecOn with
  | nil => rfl
  | append_singleton before c ih =>
      rw [Token.placeBehind_append, ih, List.count_append]
      show Position.advance _ c = _
      unfold Position.advance
      by_cases hc : c = '\n'
      · rw [if_pos hc, hc, Token.lineBehind_feed]
        rfl
      · have hnot : '\n' ∉ [c] := fun h => hc (List.mem_singleton.mp h).symm
        rw [if_neg hc, Token.lineBehind_append hnot, List.count_eq_zero_of_not_mem hnot, List.length_append]
        rfl

theorem lineBehind_cons_of_mem {c : Char} (h : '\n' ∈ before) : lineBehind (c :: before) = lineBehind before := by
  have hshort : (before.reverse.takeWhile (· != '\n')).length ≠ before.reverse.length := by
    intro hlength
    have hall := (List.takeWhile_prefix (· != '\n')).eq_of_length hlength
    have hmem : '\n' ∈ before.reverse.takeWhile (· != '\n') := by
      rw [hall]
      exact List.mem_reverse.mpr h
    exact absurd (List.mem_takeWhile_imp hmem) (by decide)
  rw [lineBehind, List.reverse_cons, List.takeWhile_append, if_neg hshort]
  rfl

theorem getElem?_zero_splitOn (text : List Char) :
    (text.splitOn '\n')[0]? = some (text.takeWhile (· != '\n')) := by
  induction text with
  | nil => rfl
  | cons c cs ih =>
      rw [List.splitOn, List.splitOnP_cons_eq_if_modifyHead]
      by_cases hc : c = '\n'
      · rw [if_pos (by simp [hc]), List.takeWhile_cons_of_neg (by simp [hc])]
        rfl
      · rw [if_neg (by simp [hc]), List.takeWhile_cons_of_pos (by simp [hc]), List.getElem?_modifyHead_zero]
        show ((cs.splitOn '\n')[0]?).map (List.cons c) = _
        rw [ih]
        rfl

/-- The line that a place lies in. -/
theorem getElem?_splitOn (before after : List Char) :
    ((before ++ after).splitOn '\n')[before.count '\n']? = some (lineBehind before ++ after.takeWhile (· != '\n')) := by
  induction before with
  | nil => exact getElem?_zero_splitOn after
  | cons c before ih =>
      -- without a line feed, all of `before` stands on the first line
      have hwhole : ∀ start, '\n' ∉ before → lineBehind (start ++ before) = lineBehind start ++ before :=
        fun start hnot => Token.lineBehind_append hnot
      rw [List.cons_append, List.splitOn, List.splitOnP_cons_eq_if_modifyHead]
      by_cases hc : c = '\n'
      · have hline : lineBehind (c :: before) = lineBehind before := by
          by_cases hmem : '\n' ∈ before
          · exact lineBehind_cons_of_mem hmem
          · rw [hc]
            exact (hwhole ['\n'] hmem).trans (hwhole [] hmem).symm
        rw [if_pos (by simp [hc]), hline, hc, List.count_cons_self, List.getElem?_cons_succ]
        exact ih
      · rw [if_neg (by simp [hc]), List.count_cons_of_ne hc]
        by_cases hmem : '\n' ∈ before
        · obtain ⟨n, hn⟩ := Nat.exists_eq_succ_of_ne_zero (List.count_pos_iff.mpr hmem).ne'
          rw [lineBehind_cons_of_mem hmem, hn, List.getElem?_modifyHead_succ]
          rw [hn] at ih
          exact ih
        · have hfirst : lineBehind (c :: before) = c :: lineBehind before := by
            have hnot : '\n' ∉ [c] := fun h => hc (List.mem_singleton.mp h).symm
            have hstart : lineBehind ([] ++ [c]) = lineBehind [] ++ [c] := Token.lineBehind_append hnot
            calc lineBehind ([c] ++ before)
              _ = [c] ++ before := by rw [hwhole [c] hmem]; exact congrArg (· ++ before) hstart
              _ = [c] ++ lineBehind ([] ++ before) := by rw [hwhole [] hmem]; rfl
          rw [List.count_eq_zero_of_not_mem hmem] at ih ⊢
          rw [List.getElem?_modifyHead_zero]
          show (((before ++ after).splitOn '\n')[0]?).map (List.cons c) = _
          rw [ih, hfirst]
          rfl

/-- **Where places of the source lie.** -/
theorem InSource.bounds {p : Position} (h : InSource file source p) :
    p.file = file ∧ 1 ≤ p.line ∧ p.line ≤ source.count '\n' + 1 ∧
      ∃ line, (source.splitOn '\n')[p.line - 1]? = some line ∧ 1 ≤ p.column ∧ p.column ≤ line.length + 1 := by
  obtain ⟨before, ⟨after, rfl⟩, rfl⟩ := h
  rw [placeBehind_eq]
  refine ⟨rfl, Nat.le_add_left 1 _, ?_, _, getElem?_splitOn before after, Nat.le_add_left 1 _, ?_⟩
  · rw [List.count_append]
    exact Nat.succ_le_succ (Nat.le_add_right _ _)
  · rw [List.length_append]
    exact Nat.succ_le_succ (Nat.le_add_right _ _)

/-! ## The stages -/

section Stages

variable {source : String} {tokens : List Token}

/-- The lexer blames a place that it comes to. -/
theorem inSource_of_tokenize_error {f : Token.Fault} (h : Token.tokenize file source = .error f) :
    InSource file source.toList f.loc := by
  obtain ⟨text, tokens, last, hmoves, hfails⟩ := Token.Lexer.moves_of_run_error h
  have hsource : source.toList = text ++ last.rest := hmoves.splits.1
  have hpos : last.pos = placeBehind file text := hmoves.splits.2
  rw [hsource]
  cases hfails with
  | @indent blanks rest _ hread _ =>
      -- a line that stands on no level is blamed behind its blanks
      refine ⟨text ++ blanks, ?_, ?_⟩
      · rw [List.prefix_append_right_inj, ← (Token.LineStart.read_filled_split hread).1]
        exact List.prefix_append blanks rest
      · rw [Token.placeBehind_append, ← hpos]
  | @item _ _ m _ hrest hread =>
      -- an item that cannot be read is blamed inside it
      refine ⟨text ++ m.before, ?_, ?_⟩
      · rw [List.prefix_append_right_inj, hrest]
        exact (Token.Item.misread hread).1
      · rw [Token.placeBehind_append, ← hpos]

/-- Tokens start and stop at places of the source. -/
theorem inSource_of_tokenize (h : Token.tokenize file source = .ok tokens) :
    ∀ t ∈ tokens, InSource file source.toList t.span.start ∧ InSource file source.toList t.span.stop := by
  intro t ht
  obtain ⟨before, slice, after, hsource, hspan, -⟩ := (Token.covers_of_tokenize h).located t ht
  rw [hsource, hspan]
  refine ⟨⟨before, ?_, rfl⟩, before ++ slice, List.prefix_append .., rfl⟩
  rw [List.append_assoc]
  exact List.prefix_append ..

/-- There is a last token, so the end of the file is a place of the source, too. -/
theorem inSource_eofOf (h : Token.tokenize file source = .ok tokens) : InSource file source.toList (Tree.eofOf tokens) := by
  obtain ⟨front, last, -, -, htokens⟩ := Token.Lexer.moves_of_run_ok h
  have hlast : tokens.getLast? = some ⟨.eof, .point last.pos⟩ := by
    rw [htokens, Token.Lexer.close, ← List.append_assoc, List.getLast?_concat]
  rw [Tree.eofOf, hlast]
  exact (inSource_of_tokenize h _ (List.mem_of_getLast? hlast)).2

/-- **Reading a source** fails at a place of it, or gives a tree whose nodes start at places of it. -/
theorem parse_inSource (file source : String) :
    match parse file source with
    | .error d => ∃ p, d.position? = some p ∧ InSource file source.toList p
    | .ok m => Stmt.AllStartIn (InSource file source.toList) m.body := by
  unfold parse parseLogged
  cases htokens : Token.tokenize file source with
  | error f => exact ⟨f.loc, rfl, inSource_of_tokenize_error htokens⟩
  | ok tokens =>
      have hmeets := Tree.meets_parseModule (inSource_eofOf htokens) fun t ht => (inSource_of_tokenize htokens t ht).1
      dsimp only
      cases hmodule : Tree.parseModule tokens with
      | error f =>
          rw [hmodule] at hmeets
          exact ⟨f.loc, rfl, hmeets⟩
      | ok m =>
          rw [hmodule] at hmeets
          exact hmeets

/-- **Generating code** for the tree of a source fails at a place of the source. -/
theorem generate_inSource {options : Options} {m : Module} {e : Lower.Fault} (hparse : parse file source = .ok m)
    (h : generate options m = .error e) : ∃ p, e.diagnostic.position? = some p ∧ InSource file source.toList p := by
  have hm := parse_inSource file source
  rw [hparse] at hm
  have hat := Lower.generate_blames hm h
  have hblames := Lower.generate_error h
  cases e with
  | registersExhausted _ | argumentBusy _ => exact hblames.elim
  | _ => exact ⟨_, rfl, hat _ rfl⟩

end Stages

/-- **Every failure points into the source.** When a source cannot be read, or no code can be generated for its tree,
    the diagnostic has a place in the given file: a place behind some first part of the text, whose line is a line of the
    text, and whose column lies in that line or right behind it. It is never the place that stands for no source. -/
theorem failures_point_into_source {options : Options} {file source : String} {d : Diagnostic}
    (h : parse file source = .error d ∨
      ∃ m e, parse file source = .ok m ∧ generate options m = .error e ∧ d = e.diagnostic) :
    ∃ p, d.position? = some p ∧ p.file = file ∧
      (∃ before after, source.toList = before ++ after ∧ p = (Position.start file).across before) ∧
      1 ≤ p.line ∧ p.line ≤ source.toList.count '\n' + 1 ∧
      (∃ line, (source.toList.splitOn '\n')[p.line - 1]? = some line ∧ 1 ≤ p.column ∧ p.column ≤ line.length + 1) ∧
      p ≠ .unknown := by
  obtain ⟨p, hposition, hplace⟩ : ∃ p, d.position? = some p ∧ InSource file source.toList p := by
    rcases h with hparse | ⟨m, e, hparse, hgenerate, rfl⟩
    · have hread := parse_inSource file source
      rw [hparse] at hread
      exact hread
    · exact generate_inSource hparse hgenerate
  obtain ⟨hfile, hline, hlines, hcolumn⟩ := hplace.bounds
  obtain ⟨before, ⟨after, hsource⟩, hp⟩ := hplace
  refine ⟨p, hposition, hfile, ⟨before, after, hsource.symm, hp⟩, hline, hlines, hcolumn, ?_⟩
  -- the place that stands for no source is on line 0
  rintro rfl
  exact absurd hline (by decide)

/-- A source that calls a function without a definition. -/
def callSource : String := "if 1:\n f(2)\n"

def callTree : Module :=
  let span (line column line' column' : Nat) : Span := ⟨⟨"call", line, column⟩, ⟨"call", line', column'⟩⟩
  let call := .call (span 2 2 2 6) (.name (span 2 2 2 3) "f" .load) [.const (span 2 4 2 5) (.int 2)]
  ⟨[.cond (span 1 1 2 6) (.const (span 1 4 1 5) (.int 1)) [.expr (span 2 2 2 6) call] []], span 1 1 3 1⟩

def callFault : Lower.Fault := .undefinedName .fn "f" ⟨"call", 2, 2⟩

set_option maxRecDepth 10000 in
theorem parse_callSource : parse "call" callSource = .ok callTree := by cbv

set_option maxRecDepth 10000 in
theorem generate_callTree : generate {} callTree = .error callFault := by cbv

/-- The call stands on the second line, and is blamed there. -/
theorem failures_point_into_source_callSource :
    parse "call" callSource = .ok callTree ∧ generate {} callTree = .error callFault ∧
      ∃ p, callFault.diagnostic.position? = some p ∧ p = ⟨"call", 2, 2⟩ ∧ p.line ≤ callSource.toList.count '\n' + 1 ∧
        ∃ line, (callSource.toList.splitOn '\n')[p.line - 1]? = some line ∧ p.column ≤ line.length + 1 := by
  obtain ⟨p, hposition, -, -, -, hlines, ⟨line, hline, -, hcolumn⟩, -⟩ :=
    failures_point_into_source (Or.inr ⟨callTree, callFault, parse_callSource, generate_callTree, rfl⟩)
  exact ⟨parse_callSource, generate_callTree, p, hposition, (Option.some.inj hposition).symm, hlines, line, hline, hcolumn⟩

end Offside
