import Offside.Source.Diagnostic
import Offside.Token.Layout

/-!
# `Token.Lexer` — from text to tokens

The lexer reads a text step by step. At the start of a line it reads the line's indentation and puts out
the layout tokens that the off-side rule asks for; inside a line it takes one item at a time. A line end
inside parentheses is no line end. Each step shortens the text (`Lexer.step_shortens`), so `Lexer.run`
ends on every input, and its result is the list of tokens closed by an end-of-file token.
-/

namespace Offside.Token

/-- A text that is not made of tokens, and the place where that shows. -/
structure Fault where
  cause : Cause
  loc : Position
deriving DecidableEq

/-- The failure as it is reported. -/
def Fault.diagnostic (f : Fault) : Diagnostic := .lexical f.cause.message f.loc

/-- How far the lexer has read. -/
structure Lexer where
  /-- The place of the first unread character. -/
  pos : Position
  /-- The unread text. -/
  rest : List Char
  /-- The open levels of indentation. -/
  levels : Levels
  /-- The number of open parentheses, in 32 bits: `2 ^ 32` of them count as none. -/
  depth : UInt32
  /-- The next character starts a line, so its indentation counts. -/
  lineStart : Bool
  /-- A token stands on the line being read: the last token is neither a line end nor a closed level. -/
  lineOpen : Bool
deriving DecidableEq

namespace Lexer

/-- The lexer before the first character of a file. -/
def start (file : String) (text : List Char) : Lexer :=
  { pos := .start file, rest := text, levels := [], depth := 0, lineStart := true, lineOpen := false }

/-- The lexer after reading `used`, of which `rest` is left. -/
def advance (lx : Lexer) (used rest : List Char) : Lexer :=
  { lx with pos := lx.pos.across used, rest := rest }

/-- The number of open parentheses after a token. A parenthesis that closes none leaves it at 0. -/
def depthAfter (depth : UInt32) : Kind → UInt32
  | .sym .leftParen => depth + 1
  | .sym .rightParen => if depth = 0 then 0 else depth - 1
  | _ => depth

/-- Takes one item off a line. There is none at the end of the text. -/
def stepInLine (lx : Lexer) : Except Fault (Option (List Token × Lexer)) :=
  match lx.rest with
  | [] => .ok none
  | c :: rest =>
    match Item.read c rest with
    | .error m => .error ⟨m.cause, lx.pos.across m.before⟩
    | .ok r =>
      let next := lx.advance r.used r.rest
      let span : Span := ⟨lx.pos, next.pos⟩
      match r.item with
      | .blank => .ok (some ([], next))
      | .newline =>
        if 0 < lx.depth then .ok (some ([], next))
        else .ok (some ([⟨.newline, span⟩], { next with lineStart := true, lineOpen := false }))
      | .token kind =>
        .ok (some ([⟨kind, span⟩], { next with depth := depthAfter lx.depth kind, lineOpen := true }))

/-- Takes in the blanks at the start of a line that holds tokens, and settles its indentation. -/
def enterLine (lx : Lexer) (blanks rest : List Char) : Except Fault (List Token × Lexer) :=
  let here := lx.pos.across blanks
  match lx.levels.enter? (blankWidth blanks) with
  | none => .error ⟨.unmatchedIndent, here⟩
  | some (layout, levels) =>
    .ok (layout.map (⟨·, .point here⟩),
      { lx with
        pos := here, rest := rest, levels := levels, lineStart := false
        lineOpen := if layout.isEmpty then lx.lineOpen else layout == [.indent] })

/-- One step of the lexer: the tokens it puts out and the lexer after it, or nothing at the end of the text.
    A line without tokens is skipped; the first item of any other line is read with its indentation. -/
def step (lx : Lexer) : Except Fault (Option (List Token × Lexer)) :=
  match lx.lineStart, lx.rest with
  | true, [] => .ok none
  | true, text =>
    match LineStart.read text with
    | .empty used rest => .ok (some ([], lx.advance used rest))
    | .filled blanks rest =>
      match lx.enterLine blanks rest with
      | .error e => .error e
      | .ok (layout, inside) =>
        match inside.stepInLine with
        | .error e => .error e
        | .ok none => .ok none
        | .ok (some (tokens, next)) => .ok (some (layout ++ tokens, next))
  | false, _ => lx.stepInLine

/-- The tokens that close a text: the end of an unfinished line, the open levels, the end of the file. -/
def close (lx : Lexer) : List Token :=
  let here := Span.point lx.pos
  (if lx.lineOpen then [⟨.newline, here⟩] else [])
    ++ lx.levels.map (fun _ => ⟨.dedent, here⟩) ++ [⟨.eof, here⟩]

/-! ## Every step shortens the text -/

theorem stepInLine_shortens {lx next : Lexer} {tokens : List Token}
    (h : lx.stepInLine = .ok (some (tokens, next))) : next.rest.length < lx.rest.length := by
  unfold stepInLine at h
  split at h
  · exact absurd h (by simp)
  · next c rest hrest =>
    rw [hrest]
    split at h
    · exact absurd h (by simp)
    · next r hr =>
      have hlt := Item.read_shortens hr
      dsimp only at h
      split at h
      · cases h; exact hlt
      · split at h
        · cases h; exact hlt
        · cases h; exact hlt
      · cases h; exact hlt

theorem enterLine_rest {lx inside : Lexer} {blanks rest : List Char} {layout : List Token}
    (h : lx.enterLine blanks rest = .ok (layout, inside)) : inside.rest = rest := by
  unfold enterLine at h
  dsimp only at h
  split at h
  · exact absurd h (by simp)
  · cases h; rfl

/-- **Progress.** A step that does not end the run leaves less to read. -/
theorem step_shortens {lx next : Lexer} {tokens : List Token}
    (h : lx.step = .ok (some (tokens, next))) : next.rest.length < lx.rest.length := by
  unfold step at h
  split at h
  · exact absurd h (by simp)
  · next text htext =>
    split at h
    · next used rest hread =>
      cases h
      cases hr : lx.rest with
      | nil => exact absurd hr (by assumption)
      | cons c cs => rw [hr] at hread; exact LineStart.read_empty_shortens hread
    · next blanks rest hread =>
      split at h
      · exact absurd h (by simp)
      · next layout inside hin =>
        split at h
        · exact absurd h (by simp)
        · exact absurd h (by simp)
        · next toks next' hstep =>
          cases h
          have hlt := stepInLine_shortens hstep
          rw [enterLine_rest hin] at hlt
          have hsplit := congrArg List.length (LineStart.read_filled_split hread).1
          rw [List.length_append] at hsplit
          omega
  · exact stepInLine_shortens h

/-! ## The whole text -/

/-- Reads to the end of the text. -/
def run (lx : Lexer) : Except Fault (List Token) :=
  match _h : lx.step with
  | .error e => .error e
  | .ok none => .ok lx.close
  | .ok (some (tokens, next)) =>
    match next.run with
    | .error e => .error e
    | .ok more => .ok (tokens ++ more)
termination_by lx.rest.length
decreasing_by exact step_shortens _h

end Lexer

/-- The tokens of a source text, in order, ended by an end-of-file token. -/
def tokenize (file source : String) : Except Fault (List Token) := (Lexer.start file source.toList).run

end Offside.Token
