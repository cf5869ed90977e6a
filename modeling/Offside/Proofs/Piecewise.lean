import Offside.Lower.Listing
import Offside.Proofs.Nodes

/-!
# `Proofs.Piecewise` — what holds of every move holds of all of code generation

Scripts are put together from a few moves. A property of scripts that those moves have, and that composition keeps
(`Lower.Piecewise`), is therefore a property of every function of code generation, one theorem each, and of the script of
a whole module (`Piecewise.lowerModule`).

Faults are the exception, since they come from the tree. The places that are blamed are those where its nodes start, and
only a target that is no name is refused as a target.
-/

namespace Offside.Lower

open Machine

/-! ## Lines that control crosses -/

/-- The label is one that a comparison uses for itself. -/
def isComparisonLabel (x : String) : Bool := "cmp_".toList.isPrefixOf x.toList

/-- The label is one that a loop is left for. -/
def isBreakLabel (x : String) : Bool := "break_".toList.isPrefixOf x.toList

/-- The label that control crosses at a line: the one that stands there, or the one that a jump or a branch goes
    to. Comparisons branch within themselves. -/
def crossing? : Line → Option String
  | .label x | .instr (.branch _ _ _ x) => if isComparisonLabel x then none else some x
  | .instr (.beqz _ x) | .instr (.jump x) => some x
  | _ => none

/-- The milestone names the label that control crosses. Where a loop is left it names the top of the loop, and
    control goes to a label behind a loop, never to one of another kind. -/
def Milestone.Names : Milestone → String → Prop
  | .join label, x => label = x
  | .exit _, x => isBreakLabel x = true
  | _, _ => False

/-- A label starts with the purpose that it was made for. -/
theorem prefix_nextLabel (a : Arena) (scope : ScopeId) (purpose : String) :
    (purpose ++ "_").toList <+: (a.nextLabel scope purpose).1.toList := by
  show (purpose ++ "_").toList <+: (Arena.labelText purpose _ _ _).toList
  simp only [Arena.labelText, String.toList_append, List.append_assoc]
  exact List.prefix_append_right_inj _ |>.mpr (List.prefix_append _ _)

/-! ## Faults -/

/-- The place that a fault blames. A fault of the compiler itself blames none. -/
def Fault.loc? : Fault → Option Position
  | .undefinedName _ _ loc | .duplicateFunction _ loc | .arityMismatch _ _ _ loc | .unsupported _ loc
  | .malformed _ loc => some loc
  | .registersExhausted _ | .argumentBusy _ => none

/-- The fault says that a target is no name. -/
def Fault.RefusesTarget (e : Fault) : Prop := ∃ loc, e = .malformed .targetNotName loc

/-! ## The moves -/

/-- **The property holds of every move**, and of what is put together from scripts that have it. Lines that control
    crosses are put down behind their milestones only. A script with the property may fail at places of `P` and by a
    fault of the compiler; if all targets are `named`, it may not refuse one. -/
structure Piecewise (C : {α : Type} → Lower α → Prop) (P : Position → Prop) (named : Prop) : Prop where
  pure {α : Type} (a : α) : C (pure a)
  bind {α β : Type} {x : Lower α} {f : α → Lower β} (hx : C x) (hf : ∀ a, C (f a)) : C (x >>= f)
  look : C look
  change {f : State → State} (hf : ∀ s, (f s).code = s.code) : C (change f)
  comment (text : String) : C (comment text)
  emit {l : Line} (hl : crossing? l = none) : C (emit l)
  functionHeader (label : String) : C (emitAll (functionHeader label))
  placeLabel (label : String) : C (placeLabel label)
  jumpTo (label : String) : C (jumpTo label)
  branch {p : Milestone} {label : String} (hp : p.Names label) (r : Register) {x : Lower Unit} (hx : C x) :
    C (Lower.milestone p >>= fun _ => emitInstrs [.beqz r label] >>= fun _ => x)
  nextLabel {α : Type} {scope : ScopeId} {purpose : String} {f : String → Lower α}
    (hf : ∀ label, (purpose ++ "_").toList <+: label.toList → C (f label)) : C (nextLabel scope purpose >>= f)
  milestone (p : Milestone) : C (milestone p)
  internal {α : Type} {e : Fault} (he : e.loc? = none) : C (.fail e : Lower α)
  refuse {loc : Position} (hfree : ¬named) (h : P loc) : C (.fail (.malformed .targetNotName loc) : Lower String)
  fail {α : Type} {e : Fault} {loc : Position} (he : e.loc? = some loc) (hplain : ¬e.RefusesTarget) (h : P loc) :
    C (.fail e : Lower α)

namespace Piecewise

variable {C : {α : Type} → Lower α → Prop} {P : Position → Prop} {named : Prop} {α β : Type} {loc : Position}

section Moves

variable (h : Piecewise @C P named)
include h

/-- **Loops** over scripts that have the property. -/
theorem forM {f : β → Lower Unit} : ∀ {l : List β}, (∀ b ∈ l, C (f b)) → C (l.forM f)
  | [], _ => h.pure ()
  | b :: _, hf => h.bind (hf b List.mem_cons_self) fun _ => forM fun b' hb' => hf b' (List.mem_cons_of_mem b hb')

theorem discard {x : Lower α} (hx : C x) : C (discard x) := h.bind hx fun _ => h.pure ()

/-- Events are no lines of code. -/
theorem note (e : Event) : C (note e) := h.change fun _ => rfl

/-- Instructions that control passes without crossing a label. -/
theorem emitInstrs {is : List Instr} (his : ∀ i ∈ is, crossing? (.instr i) = none) : C (emitInstrs is) :=
  h.forM fun i hi => h.emit (his i hi)

/-- A push moves the stack pointer and stores; a pop, and the way out of a function, are as harmless. -/
theorem push (r : Register) : C (Lower.emitInstrs (push r)) := h.emitInstrs (by simp [Machine.push, crossing?])

theorem pop (r : Register) : C (Lower.emitInstrs (pop r)) := h.emitInstrs (by simp [Machine.pop, crossing?])

theorem epilogue (frame : Frame) : C (Lower.emitInstrs frame.epilogue) :=
  h.emitInstrs (by simp [Frame.epilogue, crossing?])

/-- A register is handed out by a change of the pool and an event. -/
theorem allocate (c : RegisterClass) : C (allocate c) := by
  refine h.bind h.look fun s => ?_
  split
  · exact h.pure _
  · exact h.bind (h.change fun _ => rfl) fun _ => h.bind (h.note _) fun _ => h.pure _

/-- As `allocate`, for a register that is asked for by name. -/
theorem take (r : Register) : C (take r) := by
  refine h.bind h.look fun s => ?_
  split
  · exact h.pure _
  · exact h.bind (h.change fun _ => rfl) fun _ => h.bind (h.note _) fun _ => h.pure _

theorem free (r : Register) : C (free r) := by
  unfold Lower.free
  split
  · exact h.bind (h.change fun _ => rfl) fun _ => h.note _
  · exact h.pure _

/-- A name is looked up first, and entered in the arena only if it is new. -/
theorem define (scope : ScopeId) (name : String) : C (define scope name) := by
  refine h.bind h.look fun s => ?_
  split
  · exact h.pure _
  · refine h.bind h.look fun _ => h.bind (h.change fun _ => rfl) fun _ => ?_
    exact h.bind (h.note _) fun _ => h.pure _

theorem bindVariable (v : VarRef) (r : Register) : C (bindVariable v r) :=
  h.bind (h.change fun _ => rfl) fun _ => h.milestone _

theorem unbindVariable (v : VarRef) : C (unbindVariable v) := by
  refine h.bind h.look fun s => ?_
  split
  · exact h.pure _
  · exact h.bind (h.change fun _ => rfl) fun _ => h.bind (h.free _) fun _ => h.pure _

/-- **Spilling**: a store behind a comment, and the register is free again. -/
theorem spill (v : VarRef) : C (spill v) := by
  refine h.bind (h.bind h.look fun s => ?_) fun _ => h.milestone _
  split
  · exact h.pure _
  split
  · exact h.pure _
  · refine h.bind (h.note _) fun _ => h.bind (h.comment _) fun _ => h.bind (h.emitInstrs ?_) fun _ => ?_
    · simp [storeSlot, crossing?]
    · exact h.discard (h.unbindVariable v)

/-- The variable that makes room is spilled, if there is one. -/
theorem makeRoom : C makeRoom := by
  refine h.bind h.look fun s => ?_
  split
  · exact h.spill _
  · exact h.pure _

/-- Running out of registers is a fault of the compiler. -/
theorem allocateTemp : C allocateTemp := by
  have hend : ∀ r : Register, C (Lower.milestone .temporary >>= fun _ => Pure.pure r) :=
    fun r => h.bind (h.milestone _) fun _ => h.pure r
  refine h.bind (h.allocate _) fun r => ?_
  cases r with
  | some r => exact h.bind (h.pure r) hend
  | none =>
      -- without a free register a variable is spilled, and the second attempt is the last
      refine h.bind h.makeRoom fun _ => h.bind (h.allocate _) fun r => ?_
      cases r with
      | some r => exact h.bind (h.pure r) hend
      | none => exact h.bind (h.internal rfl) hend

/-- **Reloading**: a temporary, a load behind a comment, and the variable is bound to the register. -/
theorem reload (v : VarRef) : C (reload v) := by
  refine h.bind h.allocateTemp fun r => h.bind (h.bind h.look fun s => ?_) fun _ =>
    h.bind (h.milestone _) fun _ => h.pure _
  split
  · exact h.pure _
  · refine h.bind (h.note _) fun _ => h.bind (h.comment _) fun _ => h.bind (h.emitInstrs ?_) fun _ => ?_
    · simp [loadSlot, crossing?]
    · exact h.bindVariable _ _

/-- Every variable in a register is spilled. -/
theorem synchronise : C synchronise := h.bind h.look fun _ => h.forM fun v _ => h.spill v

theorem popTemp : C popTemp := h.bind h.allocateTemp fun r => h.bind (h.pop r) fun _ => h.pure _

/-- The registers of a scope are freed, and comments name its variables. -/
theorem releaseCurrent : C releaseCurrent := by
  refine h.bind h.look fun s => h.bind ?_ fun released => h.forM fun p _ => h.comment _
  refine h.bind h.look fun s => h.bind (h.change fun _ => rfl) fun _ => ?_
  exact h.bind (h.forM fun p _ => h.free _) fun _ => h.bind (h.note _) fun _ => h.pure _

/-- The variables of a block move to the scope around it by a change of the arena. -/
theorem hoist (block : ScopeId) : C (hoist block) := by
  refine h.bind h.look fun s => ?_
  split
  · exact h.pure _
  · exact h.bind (h.change fun _ => rfl) fun _ => h.forM fun v _ => h.note _

/-- **A block** has the property if the code inside it has. -/
theorem inBlock {code : ScopeId → Lower Unit} (hcode : ∀ outer, C (code outer)) : C (inBlock code) := by
  have henter : C enterBlock := by
    refine h.bind h.look fun s => h.bind ?_ fun block => ?_
    · refine h.bind h.look fun _ => h.bind (h.change fun _ => rfl) fun _ => ?_
      exact h.bind (h.note _) fun _ => h.pure _
    · exact h.bind (h.change fun _ => rfl) fun _ => h.bind (h.milestone _) fun _ => h.pure _
  refine h.bind henter fun outer => h.bind (hcode outer) fun _ => h.bind h.releaseCurrent fun _ => ?_
  refine h.bind h.look fun s => h.bind (h.hoist _) fun _ => h.bind (h.change fun _ => rfl) fun _ => ?_
  exact h.milestone _

/-! ## Names -/

/-- A variable of another frame is blamed by the place of its name. -/
theorem checkFrame (hloc : P loc) (v : VarRef) : C (checkFrame v loc) := by
  refine h.bind h.look fun s => ?_
  dsimp only
  split
  · exact h.fail rfl nofun hloc
  · exact h.pure _

/-- A name without a variable is blamed by its place. -/
theorem resolveLocal (hloc : P loc) (name : String) : C (resolveLocal name loc) := by
  refine h.bind h.look fun s => ?_
  split
  · exact h.fail rfl nofun hloc
  · exact h.bind (h.checkFrame hloc _) fun _ => h.pure _

theorem defineLocal (hloc : P loc) (name : String) : C (defineLocal name loc) :=
  h.bind h.look fun _ => h.bind (h.define _ _) fun _ => h.bind (h.checkFrame hloc _) fun _ => h.pure _

/-- A function that is not there, or that takes another number of arguments, is blamed by the call. -/
theorem resolveCallee (hloc : P loc) (name : String) (count : Nat) : C (resolveCallee name count loc) := by
  refine h.bind h.look fun s => ?_
  split
  · exact h.fail rfl nofun hloc
  · dsimp only
    split
    · exact h.bind (h.fail rfl nofun hloc) fun _ => h.pure _
    · exact h.pure _

/-! ## Expressions -/

theorem pushLiteral (w : Word) : C (pushLiteral w) := by
  refine h.bind h.allocateTemp fun r => h.bind (h.emitInstrs ?_) fun _ => h.bind (h.push r) fun _ => h.free r
  simp [crossing?]

/-- A text has no code and is blamed by its place. -/
theorem pushConstant (hloc : P loc) (c : Constant) : C (pushConstant c loc) := by
  cases c with
  | int w => exact h.pushLiteral w
  | bool b => exact h.pushLiteral _
  | str s => exact h.fail rfl nofun hloc

/-- A variable in a register is pushed from there, and otherwise reloaded first. -/
theorem pushVariable (hloc : P loc) (name : String) : C (pushVariable name loc) := by
  refine h.bind (h.resolveLocal hloc name) fun v => h.bind h.look fun s => ?_
  cases s.arena.activeRegister? v with
  | some r => exact h.bind (h.pure r) fun r => h.push r
  | none => exact h.bind (h.reload v) fun r => h.push r

theorem combineBinary (op : BinaryOp) : C (combineBinary op) := by
  refine h.bind h.popTemp fun right => h.bind h.popTemp fun left => h.bind (h.comment _) fun _ => ?_
  refine h.bind (h.emitInstrs ?_) fun _ => h.bind (h.free right) fun _ => h.bind (h.push left) fun _ => h.free left
  simp [crossing?]

/-- The label of a comparison is its own, so control crosses no line inside it. -/
theorem combineCompare (op : CompareOp) : C (combineCompare op) := by
  refine h.bind h.popTemp fun right => h.bind h.popTemp fun left => h.bind h.allocateTemp fun result => ?_
  refine h.bind h.look fun _ => h.nextLabel fun label hlabel => ?_
  have hown : isComparisonLabel label = true := List.isPrefixOf_iff_prefix.mpr hlabel
  have hli : ∀ w : Word, C (Lower.emitInstrs [.li result w]) := fun w => h.emitInstrs (by simp [crossing?])
  refine h.bind (h.comment _) fun _ => h.bind (hli 1) fun _ => h.bind (h.emitInstrs ?_) fun _ => ?_
  · simp [crossing?, hown]
  refine h.bind (h.free right) fun _ => h.bind (h.free left) fun _ => h.bind (hli 0) fun _ => ?_
  refine h.bind (h.emit ?_) fun _ => h.bind (h.push result) fun _ => h.free result
  simp [crossing?, hown]

theorem applyUnary (op : UnaryOp) : C (applyUnary op) := by
  unfold Lower.applyUnary
  split
  · refine h.bind h.popTemp fun r => h.bind (h.emitInstrs ?_) fun _ => h.bind (h.push r) fun _ => h.free r
    cases op <;> simp [unaryInstr?, crossing?]
  · exact h.pure _

/-- What a call may change is spilled before it. -/
theorem spillClobbered : C spillClobbered :=
  h.bind h.look fun _ => h.bind (h.forM fun v _ => h.spill v) fun _ => h.pure _

/-- An argument register that is in use is a fault of the compiler. -/
theorem popInto (rs : List Register) : C (popInto rs) := by
  refine h.forM fun r _ => h.bind (h.take r) fun taken => ?_
  cases taken with
  | true => exact h.pop r
  | false => exact h.internal rfl

/-- The variables that were spilled for a call are brought back behind it. -/
theorem reloadAll (vs : List VarRef) : C (vs.forM fun v => Functor.discard (Lower.reload v)) :=
  h.forM fun v _ => h.discard (h.reload v)

/-- **A call** spills, passes its arguments in registers, jumps and reloads. No label is crossed: control comes back.
    -/
theorem finishCall (callee : Callee) (count : Nat) : C (finishCall callee count) := by
  refine h.bind (h.note _) fun _ => h.bind h.spillClobbered fun spilled => ?_
  refine h.bind (h.forM fun p _ => h.comment _) fun _ => h.bind (h.popInto _) fun _ => ?_
  refine h.bind (h.emitInstrs ?_) fun _ => h.bind (h.forM fun p _ => h.free _) fun _ => ?_
  · simp [crossing?]
  · exact h.bind (h.reloadAll spilled) fun _ => h.push _

theorem finishPrint : C finishPrint := by
  refine h.bind h.spillClobbered fun spilled => h.bind (h.comment _) fun _ => h.bind (h.popInto _) fun _ => ?_
  refine h.bind (h.emitInstrs ?_) fun _ => h.bind (h.emitInstrs ?_) fun _ => h.bind (h.free _) fun _ => ?_
  · simp [crossing?]
  · simp [crossing?]
  · exact h.bind (h.change fun _ => rfl) fun _ => h.bind (h.reloadAll spilled) fun _ => h.push _

/-- Arguments are lowered from the last to the first. -/
theorem lowerArguments {args : List Expr} (hargs : ∀ e ∈ args, C (lowerExpr e)) : C (lowerArguments args) := by
  induction args with
  | nil =>
      rw [Lower.lowerArguments]
      exact h.pure _
  | cons arg rest ih =>
      rw [Lower.lowerArguments]
      exact h.bind (ih fun e he => hargs e (List.mem_cons_of_mem arg he)) fun _ => hargs arg List.mem_cons_self

end Moves

mutual

/-- **The code of an expression.** -/
theorem lowerExpr (h : Piecewise @C P named) : ∀ e : Expr, e.StartsIn P → C (lowerExpr e)
  | .const span c, he => by
      rw [Expr.StartsIn] at he
      rw [Lower.lowerExpr]
      exact h.bind (h.pushConstant he c) fun _ => h.milestone _
  | .name span id use, he => by
      rw [Expr.StartsIn] at he
      rw [Lower.lowerExpr]
      exact h.bind (h.pushVariable he id) fun _ => h.milestone _
  | .binary span left op right, he => by
      rw [Expr.StartsIn] at he
      rw [Lower.lowerExpr]
      refine h.bind (lowerExpr h left he.2.1) fun _ => h.bind (lowerExpr h right he.2.2) fun _ => ?_
      exact h.bind (h.combineBinary op) fun _ => h.milestone _
  | .unary span op operand, he => by
      rw [Expr.StartsIn] at he
      rw [Lower.lowerExpr]
      split
      · exact h.bind (h.pushLiteral _) fun _ => h.milestone _
      · refine h.bind (lowerExpr h operand he.2) fun _ => h.bind (h.applyUnary op) fun _ => ?_
        exact h.milestone _
  | .compare span left ops comparators, he => by
      rw [Expr.StartsIn] at he
      have hright := each h comparators he.2.2
      -- only comparisons of two operands have code; the operands that `split` names are among `comparators`
      unfold Lower.lowerExpr
      split
      · next op right =>
          refine h.bind (lowerExpr h left he.2.1) fun _ => h.bind (hright right List.mem_cons_self) fun _ => ?_
          exact h.bind (h.combineCompare op) fun _ => h.milestone _
      · exact h.fail rfl nofun he.1
  | .call span func args, he => by
      rw [Expr.StartsIn] at he
      have hargs := each h args he.2.2
      unfold Lower.lowerExpr
      split
      · exact h.fail rfl nofun he.1
      split
      · split
        · next arg =>
            refine h.bind (hargs arg List.mem_cons_self) fun _ => h.bind h.finishPrint fun _ => ?_
            exact h.milestone _
        · exact h.fail rfl nofun he.1
      · refine h.bind (h.resolveCallee he.1 _ _) fun callee => h.bind (h.lowerArguments hargs) fun _ => ?_
        exact h.bind (h.finishCall callee _) fun _ => h.milestone _

/-- Every member of a list of expressions, for the arguments of calls and the operands of comparisons. -/
theorem each (h : Piecewise @C P named) : ∀ es : List Expr, Expr.AllStartIn P es → ∀ e ∈ es, C (Lower.lowerExpr e)
  | [], _, e, he => absurd he List.not_mem_nil
  | e :: es, hes, e', he' => by
      rw [Expr.AllStartIn] at hes
      rcases List.mem_cons.mp he' with heq | he'
      · rw [heq]
        exact lowerExpr h e hes.1
      · exact each h es hes.2 e' he'

end

/-! ## Statements -/

section Statements

variable (h : Piecewise @C P named)
include h

/-- **Only a target that is no name is refused.** -/
theorem targetName {target : Expr} (hnamed : named → target.IsStored) (hloc : P loc) : C (targetName target loc) := by
  by_cases hn : named
  · obtain ⟨s, id, rfl⟩ := hnamed hn
    exact h.pure id
  · unfold Lower.targetName
    split
    · exact h.pure _
    · exact h.refuse hn hloc

/-- **Storing**: the variable keeps its register or gets a temporary. -/
theorem popVariable (v : VarRef) : C (popVariable v) := by
  have hend : ∀ r : Register, C (Lower.look >>= fun s =>
      Lower.comment ("assign " ++ ((s.arena.lookup? v).map (·.name)).getD "" ++ " in " ++ r.name) >>= fun _ =>
        Lower.emitInstrs (Machine.pop r) >>= fun _ => Lower.bindVariable v r) := fun r =>
    h.bind h.look fun _ => h.bind (h.comment _) fun _ => h.bind (h.pop r) fun _ => h.bindVariable v r
  refine h.bind h.look fun s => ?_
  cases s.arena.activeRegister? v with
  | some r => exact h.bind (h.pure r) hend
  | none => exact h.bind h.allocateTemp hend

/-- More than one target is blamed by the place of the statement. -/
theorem lowerAssign {targets : List Expr} {value : Expr} (hloc : P loc)
    (htargets : named → ∀ e ∈ targets, e.IsStored) (hvalue : value.StartsIn P) : C (lowerAssign targets value loc) := by
  rcases targets with _ | ⟨target, _ | ⟨target', targets⟩⟩
  case cons.nil =>
    refine h.bind (h.targetName (fun hn => htargets hn target List.mem_cons_self) hloc) fun name => ?_
    refine h.bind (h.defineLocal hloc name) fun v => h.bind (h.lowerExpr value hvalue) fun _ => ?_
    exact h.popVariable v
  all_goals exact h.fail rfl nofun hloc

theorem lowerAugAssign {target value : Expr} (hloc : P loc) (htarget : named → target.IsStored) (op : BinaryOp)
    (hvalue : value.StartsIn P) : C (lowerAugAssign target op value loc) := by
  refine h.bind (h.targetName htarget hloc) fun name => h.bind (h.resolveLocal hloc name) fun v => ?_
  refine h.bind (h.pushVariable hloc name) fun _ => h.bind (h.lowerExpr value hvalue) fun _ => ?_
  exact h.bind (h.combineBinary op) fun _ => h.popVariable v

/-- A return outside of functions is blamed by its place. -/
theorem lowerReturn {value : Option Expr} (hloc : P loc) (hvalue : ∀ e ∈ value, e.StartsIn P) :
    C (lowerReturn value loc) := by
  refine h.bind h.look fun s => ?_
  split
  · exact h.fail rfl nofun hloc
  · cases value with
    | none => exact h.bind (h.emitInstrs (by simp [crossing?])) fun _ => h.epilogue _
    | some e => exact h.bind (h.lowerExpr e (hvalue e rfl)) fun _ => h.bind (h.pop _) fun _ => h.epilogue _

/-- The value is dropped. A call of the entry function leaves a comment only. -/
theorem lowerExprStmt {e : Expr} (he : e.StartsIn P) : C (lowerExprStmt e) := by
  refine h.bind h.look fun s => ?_
  dsimp only
  split
  · exact h.comment _
  · exact h.bind (h.lowerExpr e he) fun _ => h.pop _

/-! ## Control flow -/

/-- Control branches right behind the milestone that names its label. -/
theorem branchIfZero {p : Milestone} {label : String} (hp : p.Names label) : C (branchIfZero p label) :=
  h.bind h.popTemp fun r => h.branch hp r (h.free r)

/-- Where there is an alternative, control jumps over it to a label of its own. -/
theorem lowerElse {orelse : Lower Unit} (horelse : C orelse) (label : String) (hasElse : Bool) (outer : ScopeId) :
    C (lowerElse label orelse hasElse outer) := by
  unfold Lower.lowerElse
  split
  · refine h.nextLabel fun last _ => h.bind (h.jumpTo last) fun _ => h.bind (h.placeLabel label) fun _ => ?_
    exact h.bind horelse fun _ => h.bind h.synchronise fun _ => h.placeLabel last
  · exact h.placeLabel label

/-- **A conditional** has the property if its branches have. -/
theorem lowerCond {test : Expr} {body orelse : Lower Unit} (htest : test.StartsIn P) (hbody : C body)
    (horelse : C orelse) (hasElse : Bool) : C (lowerCond test body orelse hasElse) := by
  refine h.bind h.look fun _ => h.nextLabel fun label _ => h.bind (h.lowerExpr test htest) fun _ => ?_
  refine h.bind h.synchronise fun _ => h.bind (h.branchIfZero (p := .join label) rfl) fun _ => ?_
  refine h.bind (h.inBlock fun _ => h.bind hbody fun _ => h.synchronise) fun _ => ?_
  exact h.inBlock (h.lowerElse horelse label hasElse)

/-- A loop is left for a label of its own kind. -/
theorem lowerLoop {test : Expr} {body : Lower Unit} (htest : test.StartsIn P) (hbody : C body) :
    C (lowerLoop test body) := by
  refine h.inBlock fun _ => h.bind h.look fun _ => h.nextLabel fun top _ => ?_
  refine h.bind h.look fun _ => h.nextLabel fun done hdone => h.bind h.synchronise fun _ => ?_
  have hleft : (Milestone.exit top).Names done := List.isPrefixOf_iff_prefix.mpr hdone
  refine h.bind (h.placeLabel top) fun _ => h.bind (h.lowerExpr test htest) fun _ => ?_
  refine h.bind (h.branchIfZero hleft) fun _ => h.bind hbody fun _ => h.bind h.synchronise fun _ => ?_
  exact h.bind (h.jumpTo top) fun _ => h.placeLabel done

/-! ## Functions -/

/-- Running out of argument registers is a fault of the compiler. -/
theorem placeParameters (names : List String) : C (placeParameters names) := by
  induction names with
  | nil => exact h.pure _
  | cons name names ih =>
      refine h.bind (h.allocate _) fun r => ?_
      cases r with
      | none => exact h.internal rfl
      | some r => exact h.bind ih fun _ => h.pure _

/-- Too many parameters, one that comes twice and a frame that is too large are blamed by the definition. -/
theorem planFrame (hloc : P loc) (name : String) (params : List String) (stmts : List Stmt) :
    C (planFrame name params stmts loc) := by
  unfold Lower.planFrame
  dsimp only
  split
  · exact h.fail rfl nofun hloc
  split
  · exact h.fail rfl nofun hloc
  · refine h.bind h.look fun s => ?_
    split
    · exact h.fail rfl nofun hloc
    · exact h.pure _

/-- Control jumps over a definition inside a function. -/
theorem skipDefinition (outer : ScopeId) : C (skipDefinition outer) := by
  refine h.bind h.look fun s => ?_
  split
  · exact h.pure _
  · exact h.nextLabel fun label _ => h.bind (h.jumpTo label) fun _ => h.pure _

theorem pushFunction (outer : ScopeId) (name : String) : C (pushFunction outer name) :=
  h.bind h.look fun _ => h.bind (h.change fun _ => rfl) fun _ => h.bind (h.note _) fun _ => h.pure _

theorem declareParameter (scope : ScopeId) (name : String) (r : Register) : C (declareParameter scope name r) :=
  h.bind h.look fun _ => h.bind (h.change fun _ => rfl) fun _ => h.pure _

/-- A function that is defined twice is blamed by the second definition. -/
theorem openFunction (hloc : P loc) (outer : ScopeId) (name : String) (params : List String) :
    C (openFunction outer name params loc) := by
  refine h.bind (h.placeParameters params) fun placed => h.bind (h.pushFunction outer name) fun scope => ?_
  refine h.bind h.look fun s => h.bind h.look fun t => ?_
  dsimp only
  split
  · next e _ => cases e <;> exact h.fail rfl nofun hloc
  · refine h.bind (h.change fun _ => rfl) fun _ => h.bind (h.forM fun p _ => ?_) fun _ => h.pure _
    exact h.bind (h.discard (h.declareParameter _ _ _)) fun _ => h.note _

theorem enterFunction (hloc : P loc) (name : String) (params : List String) (stmts : List Stmt) :
    C (enterFunction name params stmts loc) := by
  refine h.bind h.look fun s => h.bind (h.planFrame hloc name params stmts) fun frame => ?_
  refine h.bind (h.note _) fun _ => h.bind h.synchronise fun _ => h.bind (h.skipDefinition _) fun _ => ?_
  refine h.bind (h.openFunction hloc _ name params) fun opened => h.bind (h.change fun _ => rfl) fun _ => ?_
  refine h.bind (h.functionHeader _) fun _ => h.bind (h.emitInstrs ?_) fun _ => h.pure _
  simp [Frame.prologue, crossing?]

/-- Behind the function stands the label that control jumped to, if it had to. -/
theorem leaveFunction (outer : ScopeId) (name : String) (o : Opening) : C (leaveFunction outer name o) := by
  have hskip : C (placeSkip o.skip) := by
    unfold placeSkip
    split
    · exact h.placeLabel _
    · exact h.pure _
  refine h.bind h.releaseCurrent fun _ => h.bind (h.change fun _ => rfl) fun _ => h.bind (h.emit rfl) fun _ => ?_
  exact h.bind hskip fun _ => h.bind h.look fun _ => h.bind (h.note _) fun _ => h.milestone _

theorem returnZero (frame : Frame) : C (returnZero frame) := by
  refine h.bind (h.comment _) fun _ => h.bind (h.emitInstrs ?_) fun _ => h.epilogue frame
  simp [crossing?]

/-- **A function** has the property if its body has. -/
theorem lowerFunction {body : Lower Unit} (hloc : P loc) (hbody : C body) (name : String) (params : List String)
    (stmts : List Stmt) : C (lowerFunction name params stmts body loc) := by
  refine h.bind h.look fun s => h.bind (h.enterFunction hloc name params stmts) fun o => h.bind hbody fun _ => ?_
  dsimp only
  split
  · exact h.leaveFunction _ name o
  · exact h.bind (h.returnZero o.frame) fun _ => h.leaveFunction _ name o

end Statements

mutual

/-- **The code of a statement.** -/
theorem lowerStmt (h : Piecewise @C P named) : ∀ st : Stmt, st.StartsIn P → (named → st.Regular) → C (lowerStmt st)
  | .pass span, _, _ => by
      rw [Lower.lowerStmt]
      exact h.pure _
  | .ret span value, hst, _ => by
      rw [Stmt.StartsIn] at hst
      rw [Lower.lowerStmt]
      exact h.lowerReturn hst.1 hst.2
  | .expr span value, hst, _ => by
      rw [Stmt.StartsIn] at hst
      rw [Lower.lowerStmt]
      exact h.lowerExprStmt hst.2
  | .assign span targets value, hst, hregular => by
      rw [Stmt.StartsIn] at hst
      rw [Stmt.Regular] at hregular
      rw [Lower.lowerStmt]
      exact h.lowerAssign hst.1 (fun hn => (hregular hn).2.1) hst.2.2
  | .augAssign span target op value, hst, hregular => by
      rw [Stmt.StartsIn] at hst
      rw [Stmt.Regular] at hregular
      rw [Lower.lowerStmt]
      exact h.lowerAugAssign hst.1 (fun hn => (hregular hn).1) op hst.2.2
  | .cond span test body orelse, hst, hregular => by
      rw [Stmt.StartsIn] at hst
      rw [Stmt.Regular] at hregular
      rw [Lower.lowerStmt]
      have hbody := lowerBlock h body hst.2.2.1 fun hn => (hregular hn).2.1
      have horelse := lowerBlock h orelse hst.2.2.2 fun hn => (hregular hn).2.2
      exact h.lowerCond hst.2.1 hbody horelse _
  | .loop span test body, hst, hregular => by
      rw [Stmt.StartsIn] at hst
      rw [Stmt.Regular] at hregular
      rw [Lower.lowerStmt]
      exact h.lowerLoop hst.2.1 (lowerBlock h body hst.2.2 fun hn => (hregular hn).2)
  | .funcDef span name params body, hst, hregular => by
      rw [Stmt.StartsIn] at hst
      rw [Stmt.Regular] at hregular
      rw [Lower.lowerStmt]
      exact h.lowerFunction hst.1 (lowerBlock h body hst.2 hregular) name params body

/-- Statements one after the other, each behind a milestone. -/
theorem lowerBlock (h : Piecewise @C P named) : ∀ sts : List Stmt, Stmt.AllStartIn P sts →
    (named → Stmt.AllRegular sts) → C (lowerBlock sts)
  | [], _, _ => by
      rw [Lower.lowerBlock]
      exact h.milestone _
  | st :: sts, hsts, hregular => by
      rw [Stmt.AllStartIn] at hsts
      rw [Stmt.AllRegular] at hregular
      rw [Lower.lowerBlock]
      refine h.bind (h.milestone _) fun _ => h.bind (lowerStmt h st hsts.1 fun hn => (hregular hn).1) fun _ => ?_
      exact lowerBlock h sts hsts.2 fun hn => (hregular hn).2

end

/-- **The code of a module.** -/
theorem lowerModule (h : Piecewise @C P named) {m : Module} (hm : Stmt.AllStartIn P m.body)
    (hregular : named → Stmt.AllRegular m.body) : C (lowerModule m) :=
  h.bind (h.emit rfl) fun _ => h.lowerBlock m.body hm hregular

end Piecewise

end Offside.Lower
