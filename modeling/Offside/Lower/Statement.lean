import Offside.Lower.Expression
import Offside.Lower.Locals

/-!
# `Lower.Statement` — code for statements and functions

The code of a statement leaves the evaluation stack as it was. Wherever control can come from two places,
every variable is in its slot: variables are written back before the branches of a conditional, at both
ends of a loop, and before the definition of a function.

A function's code stands where its definition stands; inside another function the code around it jumps
over it.
-/

namespace Offside.Lower

open Machine

/-! ## Assignments and results -/

/-- The name that an assignment binds. -/
def targetName (target : Expr) (loc : Position) : Lower String :=
  match target.asName? with
  | some name => return name
  | none => fail (.malformed .targetNotName loc)

/-- Takes the top of the stack as the value of a variable. -/
def popVariable (v : VarRef) : Lower Unit := do
  let r ← match (← look).arena.activeRegister? v with
    | some r => pure r
    | none => allocateTemp
  let name := (((← look).arena.lookup? v).map (·.name)).getD ""
  comment ("assign " ++ name ++ " in " ++ r.name)
  emitInstrs (pop r)
  bindVariable v r

/-- Code of an assignment. -/
def lowerAssign (targets : List Expr) (value : Expr) (loc : Position) : Lower Unit :=
  match targets with
  | [target] => do
    let name ← targetName target loc
    let v ← defineLocal name loc
    lowerExpr value
    popVariable v
  | _ => fail (.malformed .multipleTargets loc)

/-- Code of an augmented assignment. -/
def lowerAugAssign (target : Expr) (op : BinaryOp) (value : Expr) (loc : Position) : Lower Unit := do
  let name ← targetName target loc
  let v ← resolveLocal name loc
  pushVariable name loc
  lowerExpr value
  combineBinary op
  popVariable v

/-- Code of a `return`. -/
def lowerReturn (value : Option Expr) (loc : Position) : Lower Unit := do
  match (← look).frames with
  | [] => fail (.malformed .returnOutsideFunction loc)
  | frame :: _ =>
    match value with
    | some e => do
      lowerExpr e
      emitInstrs (pop resultRegister)
    | none => emitInstrs [.li resultRegister 0]
    emitInstrs frame.epilogue

/-- Code of an expression that stands alone. Calls of the entry function are left out. -/
def lowerExprStmt (e : Expr) : Lower Unit := do
  let entry := (← look).options.entry
  if e.calledName? = some entry then comment ("call to entry point " ++ entry ++ " omitted")
  else
    lowerExpr e
    emitInstrs (pop resultRegister)

/-! ## Control flow -/

/-- Places a label where control comes together. -/
def placeLabel (label : String) : Lower Unit := do
  milestone (.join label)
  emit (.label label)

/-- Jumps to where control comes together. -/
def jumpTo (label : String) : Lower Unit := do
  milestone (.join label)
  emitInstrs [.jump label]

/-- Takes the top of the stack and branches if it is zero, at the given milestone. -/
def branchIfZero (p : Milestone) (label : String) : Lower Unit := do
  let r ← popTemp
  milestone p
  emitInstrs [.beqz r label]
  free r

/-- Code from the end of the first branch of a conditional on. -/
def lowerElse (elseLabel : String) (orelse : Lower Unit) (hasElse : Bool) (outer : ScopeId) :
    Lower Unit := do
  if hasElse then
    let endLabel ← nextLabel outer "endif"
    jumpTo endLabel
    placeLabel elseLabel
    orelse
    synchronise
    placeLabel endLabel
  else
    placeLabel elseLabel

/-- Code of a conditional around the code of its branches. -/
def lowerCond (test : Expr) (body orelse : Lower Unit) (hasElse : Bool) : Lower Unit := do
  let elseLabel ← nextLabel (← look).current "else"
  lowerExpr test
  synchronise
  branchIfZero (.join elseLabel) elseLabel
  inBlock fun _ => do
    body
    synchronise
  inBlock (lowerElse elseLabel orelse hasElse)

/-- Code of a loop in its block. -/
def lowerTurns (test : Expr) (body : Lower Unit) : Lower Unit := do
  let top ← nextLabel (← look).current "while"
  let done ← nextLabel (← look).current "break"
  synchronise
  placeLabel top
  lowerExpr test
  branchIfZero (.exit top) done
  body
  synchronise
  jumpTo top
  placeLabel done

/-- Code of a loop around the code of its body. -/
def lowerLoop (test : Expr) (body : Lower Unit) : Lower Unit := inBlock fun _ => lowerTurns test body

/-! ## Functions -/

/-- Functions of the module keep their name; others are named for the scope around them, too. -/
def functionLabel (arena : Arena) (outer inner : ScopeId) (name : String) : String :=
  if outer = globalScope then name
  else (arena.get outer).name ++ "_" ++ name ++ "_sc_" ++ toString inner

/-- A register for each parameter, in order. -/
def placeParameters : List String → Lower (List (String × Register))
  | [] => return []
  | name :: rest => do
    match ← allocate .argument with
    | none => fail (.registersExhausted .argument)
    | some r => return (name, r) :: (← placeParameters rest)

/-- The frame of a function, if it has acceptable parameters and fits. -/
def planFrame (name : String) (params : List String) (body : List Stmt) (loc : Position) :
    Lower Frame := do
  match checkParameters params.length with
  | .error e => fail (.unsupported (.frame name e) loc)
  | .ok _ => pure ()
  match duplicate? [] params with
  | some p => fail (.malformed (.duplicateParameter p name) loc)
  | none => pure ()
  let s ← look
  let slots := countLocals params body fun x => (s.arena.resolve? s.current x).isSome
  match Frame.ofSlots slots with
  | .error e => fail (.unsupported (.frame name e) loc)
  | .ok frame => return frame

/-- Inside a function, jumps over the code that follows; gives the label to jump to. -/
def skipDefinition (outer : ScopeId) : Lower (Option String) := do
  if (← look).frames.isEmpty then return none
  else
    let label ← nextLabel outer "enddef"
    jumpTo label
    return some label

/-- Makes the scope of a function known by its label, with its parameters in their registers. -/
def openFunction (outer : ScopeId) (name : String) (params : List String) (loc : Position) :
    Lower (ScopeId × String) := do
  let placed ← placeParameters params
  let scope ← pushFunction outer name
  let label := functionLabel (← look).arena outer scope name
  match (← look).arena.defineFunction outer ⟨name, label, placed, resultRegister⟩ with
  | .error e => fail (.ofScope loc e)
  | .ok arena => change fun s => { s with arena := arena }
  placed.forM fun p => do
    discard (declareParameter scope p.1 p.2)
    note (.parameterPlaced p.1 name p.2)
  return (scope, label)

/-- A function whose last statement does not return gives 0. -/
def returnZero (frame : Frame) : Lower Unit := do
  comment "implicit return 0"
  emitInstrs [.li resultRegister 0]
  emitInstrs frame.epilogue

/-- What the end of a function's code needs to know of its start. -/
structure Opening where
  frame : Frame
  label : String
  /-- Where the code around the function goes on, if there is any. -/
  skip : Option String

/-- Code before the body of a function, up to its frame. -/
def enterFunction (name : String) (params : List String) (stmts : List Stmt) (loc : Position) :
    Lower Opening := do
  let outer := (← look).current
  let frame ← planFrame name params stmts loc
  note (.functionEntered name frame.slots frame.size)
  synchronise
  let skip ← skipDefinition outer
  let (scope, label) ← openFunction outer name params loc
  change fun s => { s with current := scope, frames := frame :: s.frames }
  emitAll (functionHeader label)
  emitInstrs frame.prologue
  return ⟨frame, label, skip⟩

/-- Inside a function, the place where the code around a definition goes on. -/
def placeSkip : Option String → Lower Unit
  | some label => placeLabel label
  | none => return ()

/-- Goes back to the scope around a function. -/
def leaveFunction (outer : ScopeId) (name : String) (o : Opening) : Lower Unit := do
  releaseCurrent
  change fun s => { s with current := outer, frames := s.frames.tail }
  emit (functionFooter o.label)
  placeSkip o.skip
  note (.functionLeft name (← look).pool.inUse)
  milestone .definition

/-- Code of a function around the code of its body. -/
def lowerFunction (name : String) (params : List String) (stmts : List Stmt) (body : Lower Unit)
    (loc : Position) : Lower Unit := do
  let outer := (← look).current
  let o ← enterFunction name params stmts loc
  body
  unless stmts.getLast?.any Stmt.isReturn do returnZero o.frame
  leaveFunction outer name o

/-! ## Statements -/

mutual

/-- Code of a statement. -/
def lowerStmt : Stmt → Lower Unit
  | .pass _ => return ()
  | .ret span value => lowerReturn value span.start
  | .expr _ value => lowerExprStmt value
  | .assign span targets value => lowerAssign targets value span.start
  | .augAssign span target op value => lowerAugAssign target op value span.start
  | .cond _ test body orelse => lowerCond test (lowerBlock body) (lowerBlock orelse) (!orelse.isEmpty)
  | .loop _ test body => lowerLoop test (lowerBlock body)
  | .funcDef span name params body => lowerFunction name params body (lowerBlock body) span.start

/-- Code of statements, one after the other. -/
def lowerBlock : List Stmt → Lower Unit
  | [] => milestone .boundary
  | s :: rest => do
    milestone .boundary
    lowerStmt s
    lowerBlock rest

end

end Offside.Lower
