import Offside.Lower.Statement

/-!
# `Lower.Listing` — the assembly of a module

A listing is the lines of code followed by the lines of data. The only data is the text that prints a
number, and it is there exactly when something prints.
-/

namespace Offside

open Machine

/-- The assembly of a module: code, then data. -/
structure Listing where
  code : List Line
  data : List Line
deriving DecidableEq

namespace Listing

/-- Every line, in order. -/
def lines (l : Listing) : List Line := l.code ++ l.data

/-- The text of a listing; every line has a line end. -/
def text (l : Listing) : String := String.join (l.lines.map fun line => line.text ++ "\n")

end Listing

namespace Lower

/-- The lines that define the text for printing numbers. -/
def printData : List Line :=
  [.directive (.sect ".rodata"), .label printFormat, .directive (.string "%ld\n")]

/-- Code of a whole module. -/
def lowerModule (m : Module) : Lower Unit := do
  emit (.directive .text)
  lowerBlock m.body

/-- The state before any code is generated. -/
def State.initial (options : Options) : State := { options := options }

/-- The listing of a finished state. -/
def State.listing (s : State) : Listing :=
  { code := s.code.toList, data := if s.printsNumbers then printData else [] }

end Lower

/-- The assembly of a module, with the journal of its making. -/
def generateLogged (options : Options) (m : Module) : List Event × Except Lower.Fault Listing :=
  match (Lower.lowerModule m).run (.initial options) with
  | .ok _ s => (s.journal.toList, .ok s.listing)
  | .error e s => (s.journal.toList, .error e)

/-- The assembly of a module. -/
def generate (options : Options) (m : Module) : Except Lower.Fault Listing := (generateLogged options m).2

end Offside
