import Offside.Lower.Script

/-!
# `Lower.State` — the basic moves of code generation

Lines and events are only ever added at the end of what is there.

A variable is in a register while it is active and in its slot otherwise. `spill` writes an active variable
back, `reload` brings an inactive one into a register, and `synchronise` writes back every active variable
in sight, so that at a label it does not matter which way control came.
-/

namespace Offside.Lower

open Machine

/-! ## Lines and events -/

/-- Writes an event to the journal. -/
def note (e : Event) : Lower Unit := change fun s => { s with journal := s.journal.push e }

/-- Adds a line. -/
def emit (l : Line) : Lower Unit := change fun s => { s with code := s.code.push l }

/-- Adds lines. -/
def emitAll (ls : List Line) : Lower Unit := ls.forM emit

/-- Adds instructions. -/
def emitInstrs (is : List Instr) : Lower Unit := is.forM fun i => emit (.instr i)

/-- Adds a comment, if comments are wanted. -/
def comment (text : String) : Lower Unit :=
  change fun s => if s.options.comments then { s with code := s.code.push (.comment text) } else s

/-! ## Registers -/

/-- Hands out a register of a class. -/
def allocate (c : RegisterClass) : Lower (Option Register) := do
  match (← look).pool.allocate? c with
  | none => return none
  | some (r, pool) =>
    change fun s => { s with pool := pool }
    note (.registerAllocated r c)
    return some r

/-- Hands out a given register; says whether it was free. -/
def take (r : Register) : Lower Bool := do
  match (← look).pool.take? r with
  | none => return false
  | some pool =>
    change fun s => { s with pool := pool }
    note (.registerTaken r)
    return true

/-- Takes a register back. -/
def free (r : Register) : Lower Unit := do
  if r.classOf?.isSome then
    change fun s => { s with pool := s.pool.free r }
    note (.registerFreed r)

/-! ## Scopes and variables -/

/-- Makes a function scope. -/
def pushFunction (parent : ScopeId) (name : String) : Lower ScopeId := do
  let (id, arena) := (← look).arena.pushFunction parent name
  change fun s => { s with arena := arena }
  note (.scopeMade id name)
  return id

/-- Makes a block scope. -/
def pushBlock (parent : ScopeId) : Lower ScopeId := do
  let (id, arena) := (← look).arena.pushBlock parent
  change fun s => { s with arena := arena }
  note (.scopeMade id (arena.get id).name)
  return id

/-- Adds a parameter to a scope, held in a register. -/
def declareParameter (scope : ScopeId) (name : String) (r : Register) : Lower VarRef := do
  let (v, arena) := (← look).arena.insert scope name (some r)
  change fun s => { s with arena := arena }
  return v

/-- The variable that storing to a name writes: the one the name means, or a new one. -/
def define (scope : ScopeId) (name : String) : Lower VarRef := do
  match (← look).arena.resolve? scope name with
  | some v => return v
  | none =>
    let (v, arena) := (← look).arena.insert scope name none
    change fun s => { s with arena := arena }
    note (.variableDefined name scope (((arena.lookup? v).map (·.slot)).getD 0))
    return v

/-- Records that a register holds a variable now. -/
def bindVariable (v : VarRef) (r : Register) : Lower Unit := do
  change fun s => { s with arena := s.arena.updateVariable v (·.bind r) }
  milestone .binding

/-- Records that a variable is held in its slot only, and frees its register. -/
def unbindVariable (v : VarRef) : Lower (Option Register) := do
  match (← look).arena.activeRegister? v with
  | none => return none
  | some r =>
    change fun s => { s with arena := s.arena.updateVariable v (·.release) }
    free r
    return some r

/-- Frees the registers of a scope's own variables, and names them. -/
def release (scope : ScopeId) : Lower (List (String × Register)) := do
  let released := ((← look).arena.get scope).activeRegisters
  change fun s =>
    { s with arena := s.arena.update scope fun sc => { sc with vars := sc.vars.map (·.release) } }
  released.forM fun p => free p.2
  note (.scopeReleased scope released.length)
  return released

/-- Moves the variables of a finished block to the scope around it. -/
def hoist (block : ScopeId) : Lower Unit := do
  let s ← look
  match (s.arena.get block).parent with
  | none => return ()
  | some parent =>
    let moved := (s.arena.get block).vars
    change fun s => { s with arena := s.arena.hoist block }
    moved.forM fun v => note (.variableHoisted v.name block parent)

/-- The next label of a scope. -/
def nextLabel (scope : ScopeId) (purpose : String) : Lower String := do
  let (label, arena) := (← look).arena.nextLabel scope purpose
  change fun s => { s with arena := arena }
  return label

/-! ## Variables of the current frame -/

/-- Slots are reached through the frame pointer, so only variables of the current frame have a place. -/
def checkFrame (v : VarRef) (loc : Position) : Lower Unit := do
  let s ← look
  let owner := (s.arena.get v.scope).root
  if owner ≠ (s.arena.get s.current).root then
    let name := ((s.arena.lookup? v).map (·.name)).getD ""
    fail (.unsupported (.foreignVariable name (s.arena.get owner).name) loc)

/-- The variable of the current frame that a name means. -/
def resolveLocal (name : String) (loc : Position) : Lower VarRef := do
  let s ← look
  match s.arena.resolve? s.current name with
  | none => fail (.undefinedName .var name loc)
  | some v =>
    checkFrame v loc
    return v

/-- The variable of the current frame that storing to a name writes. -/
def defineLocal (name : String) (loc : Position) : Lower VarRef := do
  let v ← define (← look).current name
  checkFrame v loc
  return v

/-! ## Spilling and reloading -/

/-- Writes a variable to its slot, if it is active, and frees its register. -/
def writeBack (v : VarRef) : Lower Unit := do
  match (← look).arena.lookup? v with
  | none => return ()
  | some var =>
    match var.activeRegister? with
    | none => return ()
    | some r =>
      note (.spilled var.name r var.slot)
      comment ("spill " ++ var.name ++ " from " ++ r.name)
      emitInstrs [storeSlot r var.slot]
      discard (unbindVariable v)

/-- Writes an active variable back to its slot and frees its register. -/
def spill (v : VarRef) : Lower Unit := do
  writeBack v
  milestone .spill

/-- The variable to spill when temporaries run out: the first that is in one, outermost scope first. -/
def spillCandidate? (s : State) : Option VarRef :=
  (s.arena.chain s.current).reverse.findSome? fun id =>
    ((s.arena.get id).vars.findIdx? fun v =>
      v.activeRegister?.bind Register.classOf? == some .temporary).map (⟨id, ·⟩)

/-- Spills one of the variables that are in temporaries. -/
def makeRoom : Lower Unit := do
  match spillCandidate? (← look) with
  | some v => spill v
  | none => return ()

/-- A free temporary; if there is none, one variable is spilled to make room. -/
def allocateTemp : Lower Register := do
  let r ← match ← allocate .temporary with
    | some r => pure r
    | none => do
      makeRoom
      match ← allocate .temporary with
      | some r => pure r
      | none => fail (.registersExhausted .temporary)
  milestone .temporary
  return r

/-- Reads a variable from its slot into a register, which holds it from then on. -/
def loadInto (v : VarRef) (r : Register) : Lower Unit := do
  match (← look).arena.lookup? v with
  | none => return ()
  | some var =>
    note (.reloaded var.name var.slot r)
    comment ("reload " ++ var.name ++ " into " ++ r.name)
    emitInstrs [loadSlot r var.slot]
    bindVariable v r

/-- Brings a variable from its slot into a fresh temporary. -/
def reload (v : VarRef) : Lower Register := do
  let r ← allocateTemp
  loadInto v r
  milestone .reload
  return r

/-- Spills every active variable in sight. -/
def synchronise : Lower Unit := do
  let s ← look
  (s.arena.activeVariables s.current).forM spill

/-- Takes the top of the evaluation stack into a fresh temporary. -/
def popTemp : Lower Register := do
  let r ← allocateTemp
  emitInstrs (pop r)
  return r

/-! ## Blocks -/

/-- Enters a block; gives the scope to come back to. -/
def enterBlock : Lower ScopeId := do
  let outer := (← look).current
  let block ← pushBlock outer
  change fun s => { s with current := block }
  milestone .blockEntry
  return outer

/-- Frees the registers of the current scope's own variables. -/
def releaseCurrent : Lower Unit := do
  let released ← release (← look).current
  released.forM fun p => comment ("free " ++ p.2.name ++ " (" ++ p.1 ++ ")")

/-- Leaves the current block. Names first bound in it stay known outside, in their slots. -/
def leaveBlock (outer : ScopeId) : Lower Unit := do
  releaseCurrent
  hoist (← look).current
  change fun s => { s with current := outer }
  milestone .blockExit

/-- Code in a block of its own, in view of the scope around it. -/
def inBlock (code : ScopeId → Lower Unit) : Lower Unit := do
  let outer ← enterBlock
  code outer
  leaveBlock outer

end Offside.Lower
