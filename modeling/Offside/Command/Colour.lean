import Offside.Machine.Line

/-!
# `Command.Colour` — coloured output

Colours of a terminal: a sequence that switches a style on before a text, and one that switches it off
after it. Without colours a text stands as it is.
-/

namespace Offside.Command

open Machine

/-- The bright colours in use. -/
inductive Colour where
  | black | red | green | yellow | blue | cyan
deriving DecidableEq

/-- The code that switches a colour on. -/
def Colour.code : Colour → Nat
  | .black => 90
  | .red => 91
  | .green => 92
  | .yellow => 93
  | .blue => 94
  | .cyan => 96

/-- A style of text. -/
structure Style where
  colour : Colour
  bold : Bool := false
deriving DecidableEq

/-- A text in a style, if styles are on. -/
def Style.paint (style : Style) (on : Bool) (text : String) : String :=
  if on then
    "\x1b[" ++ (if style.bold then "1;" else "") ++ toString style.colour.code ++ "m" ++ text ++ "\x1b[0m"
  else text

/-- A line of assembly: labels, comments and directives each in one colour, and the mnemonics of
    instructions. -/
def paintLine (on : Bool) : Line → String
  | .label name => Style.paint ⟨.yellow, true⟩ on (Line.label name).text
  | .comment text => Style.paint ⟨.black, false⟩ on (Line.comment text).text
  | .directive d => Style.paint ⟨.blue, false⟩ on (Line.directive d).text
  | .instr i => "\t" ++ Style.paint ⟨.cyan, false⟩ on i.mnemonic ++ i.operandText

end Offside.Command
