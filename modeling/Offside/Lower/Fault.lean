import Offside.Machine.Frame
import Offside.Scope.Basic
import Offside.Source.Diagnostic

/-!
# `Lower.Fault` — why a tree has no code

The causes for which code generation stops, each with the place it blames. The last two blame the compiler
itself.
-/

namespace Offside.Lower

open Machine (Register RegisterClass FrameFault)

/-- A construct that no code is generated for. -/
inductive Unsupported where
  | stringLiteral
  | indirectCall
  | foreignVariable (name owner : String)
  | frame (function : String) (fault : FrameFault)
deriving DecidableEq

/-- The text of a construct. -/
def Unsupported.message : Unsupported → String
  | .stringLiteral => "string literal"
  | .indirectCall => "call of a non-name expression"
  | .foreignVariable name owner => "variable '" ++ name ++ "' belongs to the frame of '" ++ owner ++ "'"
  | .frame function fault => "function '" ++ function ++ "': " ++ fault.message

/-- A statement that has no meaning. -/
inductive Malformed where
  | chainedComparison
  | multipleTargets
  | targetNotName
  | returnOutsideFunction
  | duplicateParameter (name function : String)
deriving DecidableEq

/-- The text of a cause. -/
def Malformed.message : Malformed → String
  | .chainedComparison => "chained comparisons are not supported"
  | .multipleTargets => "multiple assignment targets"
  | .targetNotName => "assignment target must be a name"
  | .returnOutsideFunction => "'return' outside function"
  | .duplicateParameter name function =>
      "duplicate parameter '" ++ name ++ "' in function '" ++ function ++ "'"

/-- Why code generation stops. -/
inductive Fault where
  | undefinedName (kind : NameKind) (name : String) (loc : Position)
  | duplicateFunction (name : String) (loc : Position)
  | arityMismatch (name : String) (expected found : Nat) (loc : Position)
  | unsupported (what : Unsupported) (loc : Position)
  | malformed (what : Malformed) (loc : Position)
  | registersExhausted (c : RegisterClass)
  | argumentBusy (r : Register)
deriving DecidableEq

namespace Fault

/-- A failed look-up, blamed on a place. -/
def ofScope (loc : Position) : ScopeFault → Fault
  | .undefinedVariable name => .undefinedName .var name loc
  | .undefinedFunction name => .undefinedName .fn name loc
  | .duplicateFunction name => .duplicateFunction name loc

/-- The failure as it is reported. -/
def diagnostic : Fault → Diagnostic
  | .undefinedName kind name loc => .undefinedName kind name loc
  | .duplicateFunction name loc => .duplicateFunction name loc
  | .arityMismatch name expected found loc => .arityMismatch name expected found loc
  | .unsupported what loc => .unsupported what.message loc
  | .malformed what loc => .malformed what.message loc
  | .registersExhausted c => .registersExhausted c.name
  | .argumentBusy r => .internal ("argument register " ++ r.name ++ " is still bound at a call")

end Fault

end Offside.Lower
