import Offside.Lower.State
import Offside.Tree.Basic

/-!
# `Lower.Expression` — code for expressions

The code of an expression leaves exactly one value on the evaluation stack. Operands are evaluated from
left to right; operators take them off the stack again into temporaries.

Arguments of a call are evaluated from right to left and then taken off the stack into the registers where
the function wants them. A call may overwrite temporaries and argument registers, so the variables in them
are spilled before it and reloaded after it.
-/

namespace Offside.Lower

open Machine

/-! ## Values -/

/-- Puts a number on the stack. -/
def pushLiteral (w : Word) : Lower Unit := do
  let r ← allocateTemp
  emitInstrs [.li r w]
  emitInstrs (push r)
  free r

/-- Puts a constant on the stack. Truth values are 0 and 1. -/
def pushConstant (c : Constant) (loc : Position) : Lower Unit :=
  match c with
  | .int w => pushLiteral w
  | .bool b => pushLiteral (if b then 1 else 0)
  | .str _ => fail (.unsupported .stringLiteral loc)

/-- Puts the value of a variable on the stack. The variable keeps its register, or gets one. -/
def pushVariable (name : String) (loc : Position) : Lower Unit := do
  let v ← resolveLocal name loc
  let r ← match (← look).arena.activeRegister? v with
    | some r => pure r
    | none => reload v
  emitInstrs (push r)

/-! ## Operators -/

/-- The operation that computes a binary operator. Both divisions round toward zero. -/
def aluOp : BinaryOp → AluOp
  | .add => .add
  | .sub => .sub
  | .mul => .mul
  | .div | .floorDiv => .div
  | .mod => .rem
  | .bitAnd => .and
  | .bitOr => .or
  | .bitXor => .xor
  | .leftShift => .sll
  | .rightShift => .sra

/-- The branch that is taken when a comparison holds. -/
def branchTest : CompareOp → BranchTest
  | .less => .lt
  | .lessEqual => .le
  | .greater => .gt
  | .greaterEqual => .ge
  | .equal => .eq
  | .notEqual => .ne

/-- Replaces the two values on top of the stack by the result of an operator. -/
def combineBinary (op : BinaryOp) : Lower Unit := do
  let right ← popTemp
  let left ← popTemp
  comment (op.describe ++ " (" ++ op.text ++ ")")
  emitInstrs [.alu (aluOp op) left left right]
  free right
  emitInstrs (push left)
  free left

/-- Replaces the two values on top of the stack by 1 if a comparison holds and by 0 otherwise. -/
def combineCompare (op : CompareOp) : Lower Unit := do
  let right ← popTemp
  let left ← popTemp
  let result ← allocateTemp
  let label ← nextLabel (← look).current "cmp"
  comment ("compare: " ++ op.describe ++ " (" ++ op.text ++ ")")
  emitInstrs [.li result 1]
  emitInstrs [.branch (branchTest op) left right label]
  free right
  free left
  emitInstrs [.li result 0]
  emit (.label label)
  emitInstrs (push result)
  free result

/-- The instruction that computes a unary operator; a plus sign needs none. -/
def unaryInstr? (r : Register) : UnaryOp → Option Instr
  | .plus => none
  | .minus => some (.neg r r)
  | .invert => some (.not r r)

/-- Replaces the value on top of the stack by the result of an operator. -/
def applyUnary (op : UnaryOp) : Lower Unit := do
  if op ≠ .plus then
    let r ← popTemp
    emitInstrs (unaryInstr? r op).toList
    emitInstrs (push r)
    free r

/-- The number that a minus sign and a number literal stand for together. -/
def negatedLiteral? : UnaryOp → Expr → Option Word
  | .minus, .const _ (.int w) => some (-w)
  | _, _ => none

/-! ## Calls -/

/-- The name of the printing function. -/
def printName : String := "print"

/-- The library routine that prints. -/
def printRoutine : String := "printf"

/-- The label of the text that tells the routine to print a number. -/
def printFormat : String := "print_fmt"

/-- Spills the active variables in registers that a call may overwrite, and names them. -/
def spillClobbered : Lower (List VarRef) := do
  let s ← look
  let victims := (s.arena.activeVariables s.current).filter fun v =>
    (s.arena.activeRegister? v).any Register.isCallerClobbered
  victims.forM spill
  return victims

/-- Takes values off the stack into given registers, which stay in use. -/
def popInto (rs : List Register) : Lower Unit :=
  rs.forM fun r => do
    if ← take r then emitInstrs (pop r) else fail (.argumentBusy r)

/-- Calls a function whose arguments are on the stack, and puts its result there. -/
def finishCall (callee : Callee) (count : Nat) : Lower Unit := do
  note (.functionCalled callee.name count)
  let spilled ← spillClobbered
  callee.params.forM fun p => comment ("argument " ++ p.1 ++ " in " ++ p.2.name)
  popInto (callee.params.map (·.2))
  emitInstrs [.call callee.label]
  callee.params.forM fun p => free p.2
  spilled.forM fun v => discard (reload v)
  emitInstrs (push callee.result)

/-- Prints the number on top of the stack, and puts 0 there. -/
def finishPrint : Lower Unit := do
  let spilled ← spillClobbered
  comment "print"
  popInto [.a1]
  emitInstrs [.la resultRegister printFormat]
  emitInstrs [.call printRoutine]
  free .a1
  change fun s => { s with printsNumbers := true }
  spilled.forM fun v => discard (reload v)
  emitInstrs (push .zero)

/-- The function that a call means; it must take the given number of arguments. -/
def resolveCallee (name : String) (count : Nat) (loc : Position) : Lower Callee := do
  let s ← look
  match s.arena.resolveFunction? s.current name with
  | none => fail (.undefinedName .fn name loc)
  | some callee =>
    if count ≠ callee.arity then fail (.arityMismatch callee.name callee.arity count loc)
    return callee

/-! ## Expressions -/

mutual

/-- Code that puts the value of an expression on the stack. -/
def lowerExpr : Expr → Lower Unit
  | .const span c => do
    pushConstant c span.start
    milestone .expression
  | .name span id _ => do
    pushVariable id span.start
    milestone .expression
  | .binary _ left op right => do
    lowerExpr left
    lowerExpr right
    combineBinary op
    milestone .expression
  | .unary _ op operand =>
    match negatedLiteral? op operand with
    | some w => do
      pushLiteral w
      milestone .expression
    | none => do
      lowerExpr operand
      applyUnary op
      milestone .expression
  | .compare span left ops comparators =>
    match ops, comparators with
    | [op], [right] => do
      lowerExpr left
      lowerExpr right
      combineCompare op
      milestone .expression
    | _, _ => fail (.malformed .chainedComparison span.start)
  | .call span func args =>
    match func.asName? with
    | none => fail (.unsupported .indirectCall span.start)
    | some name =>
      if name = printName then
        match args with
        | [arg] => do
          lowerExpr arg
          finishPrint
          milestone .expression
        | _ => fail (.arityMismatch printName 1 args.length span.start)
      else do
        let callee ← resolveCallee name args.length span.start
        lowerArguments args
        finishCall callee args.length
        milestone .expression

/-- Code that puts the values of arguments on the stack, the last one first. -/
def lowerArguments : List Expr → Lower Unit
  | [] => return ()
  | arg :: rest => do
    lowerArguments rest
    lowerExpr arg

end

end Offside.Lower
