/-!
# `Source.Position` — places and stretches of source text

A `Position` names a file, a line and a column; a `Span` runs from one position to another. Lines and
columns count from 1, a column is one character, and only a line feed starts a new line: `Position.across`
walks a position across a text, so the place of every character is a function of what precedes it.

Lines and columns are numbers without a bound. Each grows by at most one with a character, so in a text of fewer
than `2 ^ 32 - 1` characters they are the numbers that a count in 32 bits gives.
-/

namespace Offside

/-- A place in a source file. -/
structure Position where
  file : String
  line : Nat
  column : Nat
deriving DecidableEq

namespace Position

/-- The place reported when there is no source at all. -/
def unknown : Position := ⟨"<unknown>", 0, 0⟩

instance : Inhabited Position := ⟨unknown⟩

/-- The file name given to text that comes from no file. -/
def anonymousFile : String := "<input>"

/-- The first place of a file. -/
def start (file : String) : Position := ⟨file, 1, 1⟩

/-- The place after reading one character. -/
def advance (p : Position) (c : Char) : Position :=
  if c = '\n' then { p with line := p.line + 1, column := 1 } else { p with column := p.column + 1 }

/-- The place after reading a whole text. -/
def across (p : Position) (text : List Char) : Position := text.foldl advance p

/-- Reading order inside one file: by line, then by column. The file plays no part. -/
def atOrBefore (p q : Position) : Bool :=
  p.line < q.line || (p.line == q.line && p.column ≤ q.column)

/-- `file:line:column`. -/
def text (p : Position) : String :=
  p.file ++ ":" ++ toString p.line ++ ":" ++ toString p.column

@[simp] theorem across_nil (p : Position) : p.across [] = p := rfl

@[simp] theorem across_cons (p : Position) (c : Char) (cs : List Char) :
    p.across (c :: cs) = (p.advance c).across cs := rfl

/-- Walking across two texts is walking across their concatenation. -/
theorem across_append (p : Position) (xs ys : List Char) : p.across (xs ++ ys) = (p.across xs).across ys := by
  simp [across]

end Position

/-- A stretch of source text: from `start` up to, not including, `stop`. -/
structure Span where
  start : Position
  stop : Position
deriving DecidableEq

namespace Span

/-- The empty span at a place. -/
def point (p : Position) : Span := ⟨p, p⟩

instance : Inhabited Span := ⟨point .unknown⟩

/-- The least span that holds both. A span of another file is ignored. -/
def join (a b : Span) : Span :=
  if a.start.file ≠ b.start.file then a
  else
    { start := if a.start.atOrBefore b.start then a.start else b.start
      stop := if b.stop.atOrBefore a.stop then a.stop else b.stop }

/-- The shortest text that names both ends: a shared file and a shared line are written once. -/
def text (s : Span) : String :=
  if s.start.file ≠ s.stop.file then s.start.text ++ " to " ++ s.stop.text
  else if s.start.line ≠ s.stop.line then
    s.start.text ++ "-" ++ toString s.stop.line ++ ":" ++ toString s.stop.column
  else if s.start.column ≠ s.stop.column then s.start.text ++ "-" ++ toString s.stop.column
  else s.start.text

end Span

end Offside
