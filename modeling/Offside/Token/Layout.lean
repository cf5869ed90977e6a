import Offside.Token.Item

/-!
# `Token.Layout` — indentation and the off-side rule

The indentation of a line is the width of the blanks it starts with. The open levels of indentation are
kept as a list of widths, innermost first, without the level 0 that is always open. A line deeper than the
innermost level opens a level; any other line closes the levels deeper than itself, and must then stand on
a level that is still open (`Levels.enter?`).

Widths are numbers of 32 bits: behind `2 ^ 32 - 1` columns the count starts again at 0.
-/

namespace Offside.Token

/-- Tab stops stand at the multiples of this width. -/
def tabWidth : UInt32 := 8

/-- The width after one more blank: a space is one wide, a tab goes to the next stop, and the other blanks
    have no width. -/
def widen (width : UInt32) (c : Char) : UInt32 :=
  if c = ' ' then width + 1 else if c = '\t' then (width / tabWidth + 1) * tabWidth else width

/-- The width of a run of blanks. -/
def blankWidth (blanks : List Char) : UInt32 := blanks.foldl widen 0

/-- Widths of the open levels, innermost first, without level 0. -/
abbrev Levels := List UInt32

namespace Levels

/-- The innermost open level. -/
def top (levels : Levels) : UInt32 := levels.headD 0

/-- The layout tokens before a line of the given width, and the levels open in it; nothing if the width
    matches no open level. -/
def enter? (levels : Levels) (width : UInt32) : Option (List Kind × Levels) :=
  if levels.top < width then some ([.indent], width :: levels)
  else
    let left : Levels := levels.dropWhile (width < ·)
    if left.top = width then some ((levels.takeWhile (width < ·)).map fun _ => .dedent, left) else none

end Levels

/-- How a line starts, once its blanks are taken off. -/
inductive LineStart where
  /-- The line holds no token; the characters that were skipped, and the rest. -/
  | empty (used rest : List Char)
  /-- A token stands after these blanks. -/
  | filled (blanks rest : List Char)
deriving DecidableEq

namespace LineStart

/-- Reads the start of a line. Of a line without tokens it takes the blanks and either the comment or the
    line feed. -/
def read (text : List Char) : LineStart :=
  let blanks := text.takeWhile isBlank
  match text.dropWhile isBlank with
  | [] => .empty blanks []
  | c :: rest =>
    if c = '#' then .empty (blanks ++ c :: rest.takeWhile (· != '\n')) (rest.dropWhile (· != '\n'))
    else if c = '\n' then .empty (blanks ++ [c]) rest
    else .filled blanks (c :: rest)

theorem read_empty_split {text used rest : List Char} (h : read text = .empty used rest) :
    used ++ rest = text := by
  have hwhole := List.takeWhile_append_dropWhile (p := isBlank) (l := text)
  unfold read at h
  split at h
  · next hd => cases h; rw [← hd]; exact hwhole
  · next c tail hd =>
    rw [hd] at hwhole
    split at h
    · cases h; simpa [List.takeWhile_append_dropWhile] using hwhole
    · split at h
      · cases h; simpa using hwhole
      · exact absurd h (by simp)

theorem read_filled_split {text blanks rest : List Char} (h : read text = .filled blanks rest) :
    blanks ++ rest = text ∧ rest ≠ [] := by
  have hwhole := List.takeWhile_append_dropWhile (p := isBlank) (l := text)
  unfold read at h
  split at h
  · exact absurd h (by simp)
  · next c tail hd =>
    rw [hd] at hwhole
    split at h
    · exact absurd h (by simp)
    · split at h
      · exact absurd h (by simp)
      · cases h; exact ⟨hwhole, by simp⟩

/-- Skipping a line without tokens uses at least one character. -/
theorem read_empty_shortens {c : Char} {text used rest : List Char}
    (h : read (c :: text) = .empty used rest) : rest.length < (c :: text).length := by
  have hlen := congrArg List.length (read_empty_split h)
  have hpos : used ≠ [] := by
    unfold read at h
    split at h
    · next hd =>
      cases h
      intro hnil
      have := List.takeWhile_append_dropWhile (p := isBlank) (l := c :: text)
      simp [hnil, hd] at this
    · split at h
      · cases h; simp
      · split at h
        · cases h; simp
        · exact absurd h (by simp)
  have := List.length_pos_iff.mpr hpos
  rw [List.length_append] at hlen
  omega

end LineStart

end Offside.Token
