import Offside.Lower.Fault
import Offside.Lower.Journal
import Offside.Machine.Frame
import Offside.Machine.Pool
import Offside.Scope.Arena

/-!
# `Lower.Script` — code generation as a script of moves

Code is generated in one pass over the tree. The state holds the registers in use, the scopes, the lines
generated so far and the journal. Code generation is a script: it changes the state, looks at it, and stops
with a value or with a fault (`Lower`). Running a script (`Lower.run`) gives its value and the state it
ends in; a script that fails keeps the state it has reached.

On its way a script passes milestones, the points of the work that statements about the state refer to.
They do nothing when the script runs; `Lower.Passes` says in which states it passes them.
-/

namespace Offside

/-- What the user chooses about the generated code. -/
structure Options where
  /-- Comments explain the code. -/
  comments : Bool := false
  /-- The function whose bare calls are left out. -/
  entry : String := "main"
deriving DecidableEq

namespace Lower

open Machine

/-- The state of code generation. -/
structure State where
  options : Options
  pool : Pool := {}
  arena : Arena := .initial
  /-- The lines generated so far. -/
  code : Array Line := #[]
  /-- The innermost scope of the code being generated. -/
  current : ScopeId := globalScope
  /-- The frames of the functions being generated, innermost first. -/
  frames : List Frame := []
  /-- Numbers are printed somewhere, so the text that prints them is needed. -/
  printsNumbers : Bool := false
  /-- What happened so far. -/
  journal : Array Event := #[]

/-- A point of the work that statements about the state refer to. -/
inductive Milestone where
  /-- A temporary was handed out. -/
  | temporary
  /-- A variable was written back. -/
  | spill
  /-- A variable was brought into a register. -/
  | reload
  /-- A register was recorded as a variable's. -/
  | binding
  /-- A block was entered. -/
  | blockEntry
  /-- A block was left. -/
  | blockExit
  /-- The code of an expression is finished. -/
  | expression
  /-- The code of a function is finished. -/
  | definition
  /-- Between two statements, before the first and after the last of a block. -/
  | boundary
  /-- Control comes to a label here, or leaves for it from here. -/
  | join (label : String)
  /-- Control may leave a loop here; its test starts at a label. -/
  | exit (top : String)
deriving DecidableEq

end Lower

/-- Code generation: a script that ends in a value or a fault. -/
inductive Lower (α : Type) where
  | done (a : α)
  | fail (e : Lower.Fault)
  /-- Changes the state and goes on in view of the new one. -/
  | act (change : Lower.State → Lower.State) (next : Lower.State → Lower α)
  | pass (p : Lower.Milestone) (next : Lower α)

namespace Lower

/-- One script after another. -/
protected def bind {α β : Type} : Lower α → (α → Lower β) → Lower β
  | .done a, f => f a
  | .fail e, _ => .fail e
  | .act change next, f => .act change fun s => (next s).bind f
  | .pass p next, f => .pass p (next.bind f)

instance : Monad Lower where
  pure := .done
  bind := .bind

/-- The value of a script and the state it ends in. -/
def run {α : Type} : Lower α → State → EStateM.Result Fault State α
  | .done a, s => .ok a s
  | .fail e, s => .error e s
  | .act change next, s =>
    let t := change s
    (next t).run t
  | .pass _ next, s => next.run s

/-- The script, started in a state, passes a milestone in another. -/
def Passes {α : Type} : Lower α → State → Milestone → State → Prop
  | .done _, _, _, _ => False
  | .fail _, _, _, _ => False
  | .act change next, s, p, t => (next (change s)).Passes (change s) p t
  | .pass q next, s, p, t => (p = q ∧ t = s) ∨ next.Passes s p t

/-- The state as it is. -/
def look : Lower State := .act id .done

/-- Changes the state. -/
def change (f : State → State) : Lower Unit := .act f fun _ => .done ()

/-- Passes a milestone. -/
def milestone (p : Milestone) : Lower Unit := .pass p (.done ())

end Lower

end Offside
