import Offside.Scope.Basic

/-!
# `Scope.Arena` — all scopes of a compilation

Scopes are kept in the order in which they are made and name their parent by its number, which is always
smaller than their own; `Arena.chain` lists a scope and all scopes around it. Names are looked up along the
chain, so binding a name in a block writes to the binding further out if there is one. When a block ends,
its variables move to the scope around it (`Arena.hoist`).
-/

namespace Offside

open Machine (Register)

/-- The scopes made so far. -/
structure Arena where
  scopes : Array Scope
deriving DecidableEq

namespace Arena

/-- The global scope alone. -/
def initial : Arena := ⟨#[{ name := globalScopeName, parent := none, root := globalScope }]⟩

/-- A scope that was never made: it holds nothing. -/
def missing : Scope := { name := "", parent := none, root := globalScope }

/-- The scope with a number. -/
def get (a : Arena) (s : ScopeId) : Scope := a.scopes.getD s missing

/-- Changes one scope. -/
def update (a : Arena) (s : ScopeId) (f : Scope → Scope) : Arena := ⟨a.scopes.modify s f⟩

/-- Makes a scope; a function scope is its own root. -/
def pushFunction (a : Arena) (parent : ScopeId) (name : String) : ScopeId × Arena :=
  (a.scopes.size, ⟨a.scopes.push { name := name, parent := some parent, root := a.scopes.size }⟩)

/-- Makes a block scope, which shares the name and the root of its parent. -/
def pushBlock (a : Arena) (parent : ScopeId) : ScopeId × Arena :=
  let outer := a.get parent
  (a.scopes.size, ⟨a.scopes.push { name := outer.name, parent := some parent, root := outer.root }⟩)

/-- A scope and the scopes around it, from the inside out. -/
def chain (a : Arena) (s : ScopeId) : List ScopeId :=
  match (a.get s).parent with
  | none => [s]
  | some p => if _h : p < s then s :: chain a p else [s]
termination_by s

/-! ## Variables -/

/-- The variable at a place. -/
def lookup? (a : Arena) (v : VarRef) : Option Variable := (a.get v.scope).vars[v.index]?

/-- Changes the variable at a place. -/
def updateVariable (a : Arena) (v : VarRef) (f : Variable → Variable) : Arena :=
  a.update v.scope fun s => { s with vars := s.vars.modify v.index f }

/-- The register that holds the variable at a place now. -/
def activeRegister? (a : Arena) (v : VarRef) : Option Register :=
  (a.lookup? v).bind Variable.activeRegister?

/-- The number of slots in the frame that a scope lives in. -/
def slotCount (a : Arena) (s : ScopeId) : Nat := (a.get (a.get s).root).slotNames.length

/-- The slot of a name in the frame that a scope lives in; a new name gets the next slot. -/
def slotFor (a : Arena) (s : ScopeId) (name : String) : Nat × Arena :=
  let root := (a.get s).root
  match (a.get root).slotNames.idxOf? name with
  | some slot => (slot, a)
  | none =>
    ((a.get root).slotNames.length, a.update root fun r => { r with slotNames := r.slotNames ++ [name] })

/-- Adds a variable to a scope, active if it comes with a register. -/
def insert (a : Arena) (s : ScopeId) (name : String) (register : Option Register) : VarRef × Arena :=
  let (slot, a) := a.slotFor s name
  let v : Variable := { name := name, register := register, active := register.isSome, slot := slot }
  (⟨s, (a.get s).vars.length⟩, a.update s fun sc => { sc with vars := sc.vars ++ [v] })

/-- The variable that a name means in a scope: that of the innermost scope that has the name. -/
def resolve? (a : Arena) (s : ScopeId) (name : String) : Option VarRef :=
  (a.chain s).findSome? fun id => ((a.get id).find? name).map (⟨id, ·⟩)

/-- Moves the variables of a finished block to the end of its parent's variables. -/
def hoist (a : Arena) (block : ScopeId) : Arena :=
  match (a.get block).parent with
  | none => a
  | some parent =>
    let moved := (a.get block).vars
    (a.update block fun s => { s with vars := [] }).update parent
      fun s => { s with vars := s.vars ++ moved }

/-- The active variables that a scope sees: innermost scope first, in the order of definition. -/
def activeVariables (a : Arena) (s : ScopeId) : List VarRef :=
  (a.chain s).flatMap fun id => (a.get id).activeIndices.map (⟨id, ·⟩)

/-! ## Functions and labels -/

/-- Adds a function to a scope that has none of its name. -/
def defineFunction (a : Arena) (s : ScopeId) (f : Callee) : Except ScopeFault Arena :=
  if ((a.get s).findFunction? f.name).isSome then .error (.duplicateFunction f.name)
  else .ok (a.update s fun sc => { sc with functions := sc.functions ++ [f] })

/-- The function that a name means in a scope. -/
def resolveFunction? (a : Arena) (s : ScopeId) (name : String) : Option Callee :=
  (a.chain s).findSome? fun id => (a.get id).findFunction? name

/-- The number of the next label of a scope. -/
def nextSerial (a : Arena) (s : ScopeId) : Nat × Arena :=
  ((a.get s).labels, a.update s fun sc => { sc with labels := sc.labels + 1 })

/-- A label made of its purpose, the name and number of its scope, and its number there. -/
def labelText (purpose scopeName : String) (s : ScopeId) (serial : Nat) : String :=
  purpose ++ "_" ++ scopeName ++ "_sc_" ++ toString s ++ "_lab_" ++ toString serial

/-- The next label of a scope. -/
def nextLabel (a : Arena) (s : ScopeId) (purpose : String) : String × Arena :=
  let (serial, a) := a.nextSerial s
  (labelText purpose (a.get s).name s serial, a)

end Arena

end Offside
