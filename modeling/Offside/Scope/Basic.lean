import Offside.Machine.Register

/-!
# `Scope.Basic` — variables, functions, scopes

A scope holds the variables and functions that were bound in it. Function scopes (and the global scope)
own a frame: a slot for each name ever bound in it, in the order of first use. Block scopes live in the
frame of the function around them, their `root`.
-/

namespace Offside

open Machine (Register)

/-- The number of a scope, in the order in which scopes are made. -/
abbrev ScopeId := Nat

/-- The scope of the module. -/
def globalScope : ScopeId := 0

/-- The name of the module's scope. -/
def globalScopeName : String := "global"

/-- A variable: its slot in the frame, and the register that last held its value. While the variable is
    active, the register holds it now. -/
structure Variable where
  name : String
  register : Option Register
  active : Bool
  slot : Nat
deriving DecidableEq

namespace Variable

/-- The register that holds the value now. -/
def activeRegister? (v : Variable) : Option Register := if v.active then v.register else none

/-- The variable, held in a register. -/
def bind (v : Variable) (r : Register) : Variable := { v with register := some r, active := true }

/-- The variable, held in its slot only. -/
def release (v : Variable) : Variable := { v with active := false }

end Variable

/-- A variable's place: the scope that owns it and its position there. -/
structure VarRef where
  scope : ScopeId
  index : Nat
deriving DecidableEq

/-- What a call needs to know of a function: where it starts, where it wants its arguments and where it
    leaves its result. -/
structure Callee where
  name : String
  label : String
  params : List (String × Register)
  result : Register
deriving DecidableEq

/-- The number of parameters of a function. -/
def Callee.arity (f : Callee) : Nat := f.params.length

/-- A scope. -/
structure Scope where
  name : String
  parent : Option ScopeId
  /-- The function (or global) scope whose frame this scope lives in. -/
  root : ScopeId
  /-- The variables bound here, in the order of their definition. -/
  vars : List Variable := []
  /-- The functions defined here. -/
  functions : List Callee := []
  /-- The number of labels made here. -/
  labels : Nat := 0
  /-- The names that have a slot in this scope's frame; a name's position is its slot. -/
  slotNames : List String := []
deriving DecidableEq

namespace Scope

/-- The last position of a name in a list of variables. -/
def lastIndex? (name : String) : List Variable → Option Nat
  | [] => none
  | v :: rest =>
    match lastIndex? name rest with
    | some i => some (i + 1)
    | none => if v.name = name then some 0 else none

/-- The position of the variable that a name means in this scope: of several, the last. -/
def find? (s : Scope) (name : String) : Option Nat := lastIndex? name s.vars

/-- The function that a name means in this scope. -/
def findFunction? (s : Scope) (name : String) : Option Callee := s.functions.find? (·.name == name)

/-- The variables held in registers, with their positions, in the order of definition. -/
def activeIndices (s : Scope) : List Nat :=
  (s.vars.zipIdx.filter fun p => p.1.active).map (·.2)

/-- The registers that hold variables of this scope, with the variables' names. -/
def activeRegisters (s : Scope) : List (String × Register) :=
  s.vars.filterMap fun v => v.activeRegister?.map (v.name, ·)

end Scope

/-- Why a name has no meaning, or cannot be given one. -/
inductive ScopeFault where
  | undefinedVariable (name : String)
  | undefinedFunction (name : String)
  | duplicateFunction (name : String)
deriving DecidableEq

/-- The text of a cause. -/
def ScopeFault.message : ScopeFault → String
  | .undefinedVariable name => "undefined variable '" ++ name ++ "'"
  | .undefinedFunction name => "undefined function '" ++ name ++ "'"
  | .duplicateFunction name => "function '" ++ name ++ "' is already defined in this scope"

end Offside
