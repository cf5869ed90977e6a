import Offside.Lower.Expression

/-!
# `Proofs.Evaluation` — what a program means

A big-step semantics of the language, as an evaluator with fuel: a call terminates if some amount of fuel is
enough for it. Numbers are words of 64 bits. Reading a variable that was not assigned has no meaning, and
neither has anything that the language does not have, such as text or a chain of comparisons.

Functions are found statically. A list of definitions holds those in sight, the latest first; a call takes
the first of its name and runs its body with the definitions that were in sight there, itself included.
-/

namespace Offside

open Lower (printName)

/-! ## Operators -/

/-- The number that a constant stands for; text has none. -/
def Constant.word? : Constant → Option Word
  | .int w => some w
  | .bool b => some (if b then 1 else 0)
  | .str _ => none

/-- Arithmetic wraps around, both divisions round toward zero, and shift counts are taken modulo 64. The
    quotient by 0 is -1, and the remainder is the dividend. -/
def BinaryOp.eval : BinaryOp → Word → Word → Word
  | .add, x, y => BitVec.ofInt 64 (x.toInt + y.toInt)
  | .sub, x, y => BitVec.ofInt 64 (x.toInt - y.toInt)
  | .mul, x, y => BitVec.ofInt 64 (x.toInt * y.toInt)
  | .div, x, y | .floorDiv, x, y => if y = 0 then -1 else BitVec.ofInt 64 (x.toInt.tdiv y.toInt)
  | .mod, x, y => if y = 0 then x else BitVec.ofInt 64 (x.toInt.tmod y.toInt)
  | .bitAnd, x, y => x &&& y
  | .bitOr, x, y => x ||| y
  | .bitXor, x, y => x ^^^ y
  | .leftShift, x, y => x <<< (y.toNat % 64)
  | .rightShift, x, y => x.sshiftRight (y.toNat % 64)

def UnaryOp.eval : UnaryOp → Word → Word
  | .plus, x => x
  | .minus, x => BitVec.ofInt 64 (-x.toInt)
  | .invert, x => ~~~x

theorem UnaryOp.eval_minus (x : Word) : UnaryOp.minus.eval x = -x :=
  BitVec.eq_of_toInt_eq (by simp [UnaryOp.eval, BitVec.toInt_neg])

/-- A comparison of signed numbers. -/
def CompareOp.holds : CompareOp → Word → Word → Bool
  | .less, x, y => x.toInt < y.toInt
  | .lessEqual, x, y => x.toInt ≤ y.toInt
  | .greater, x, y => x.toInt > y.toInt
  | .greaterEqual, x, y => x.toInt ≥ y.toInt
  | .equal, x, y => x.toInt = y.toInt
  | .notEqual, x, y => x.toInt ≠ y.toInt

/-- Comparisons give 0 or 1. -/
def CompareOp.eval (op : CompareOp) (x y : Word) : Word := if op.holds x y then 1 else 0

/-! ## Functions and variables -/

/-- A function as the source defines it. -/
structure Definition where
  name : String
  params : List String
  body : List Stmt

/-- The function that a statement defines. -/
def Stmt.definition? : Stmt → Option Definition
  | .funcDef _ name params body => some ⟨name, params, body⟩
  | _ => none

/-- The functions that statements define, in order. -/
def definitions (ss : List Stmt) : List Definition := ss.filterMap Stmt.definition?

/-- The definitions in sight of the body of the function that a name means, itself first. -/
def inSight (Δ : List Definition) (name : String) : List Definition := Δ.dropWhile (·.name != name)

/-- The variables of a call that were assigned, with their values. -/
abbrev Store := String → Option Word

namespace Store

def update (σ : Store) (x : String) (w : Word) : Store := fun y => if y = x then some w else σ y

/-- The variables at the start of a call. -/
def ofParams : List String → List Word → Store
  | x :: params, w :: args => (ofParams params args).update x w
  | _, _ => fun _ => none

/-- A variable of a call that has just started is a parameter, with its argument. -/
theorem exists_of_ofParams {params : List String} {args : List Word} {x : String} {w : Word}
    (h : ofParams params args x = some w) : ∃ k : Nat, params[k]? = some x ∧ args[k]? = some w := by
  induction params generalizing args with
  | nil => exact absurd h (by simp [ofParams])
  | cons y params ih =>
      cases args with
      | nil => exact absurd h (by simp [ofParams])
      | cons z args =>
          unfold ofParams update at h
          split at h
          · rename_i hx
            exact ⟨0, congrArg some hx.symm, h⟩
          · obtain ⟨k, hk, hw⟩ := ih h
            exact ⟨k + 1, hk, hw⟩

end Store

/-- How a statement ends: the next one follows, or the function returns. -/
inductive Flow where
  | next (σ : Store)
  | returned (v : Word)

/-- A function whose body ends without a result gives 0. -/
def Flow.result : Flow → Word
  | .next _ => 0
  | .returned v => v

/-! ## Evaluation -/

section Evaluation

variable (entry : String)

mutual

/-- The value of an expression, and what is printed on the way. -/
def evalExpr : Nat → List Definition → Store → Expr → Option (Word × List Word)
  | 0, _, _, _ => none
  | n + 1, Δ, σ, e =>
    match e with
    | .const _ c => c.word?.map (·, [])
    | .name _ x _ => (σ x).map (·, [])
    | .binary _ left op right => do
      let (x, out) ← evalExpr n Δ σ left
      let (y, out') ← evalExpr n Δ σ right
      return (op.eval x y, out ++ out')
    | .unary _ op operand => do
      let (x, out) ← evalExpr n Δ σ operand
      return (op.eval x, out)
    | .compare _ left ops comparators =>
      match ops, comparators with
      | [op], [right] => do
        let (x, out) ← evalExpr n Δ σ left
        let (y, out') ← evalExpr n Δ σ right
        return (op.eval x y, out ++ out')
      | _, _ => none
    | .call _ func args => do
      let name ← func.asName?
      if name = printName then
        match args with
        | [arg] => do
          let (x, out) ← evalExpr n Δ σ arg
          return (0, out ++ [x])
        | _ => none
      else
        let (xs, out) ← evalArguments n Δ σ args
        let (x, out') ← evalCall n (inSight Δ name) xs
        return (x, out ++ out')

/-- The values of arguments; the last one is evaluated first. -/
def evalArguments : Nat → List Definition → Store → List Expr → Option (List Word × List Word)
  | 0, _, _, _ => none
  | _ + 1, _, _, [] => some ([], [])
  | n + 1, Δ, σ, arg :: rest => do
    let (xs, out) ← evalArguments n Δ σ rest
    let (x, out') ← evalExpr n Δ σ arg
    return (x :: xs, out ++ out')

/-- A call of the first function of a list. -/
def evalCall : Nat → List Definition → List Word → Option (Word × List Word)
  | 0, _, _ => none
  | _ + 1, [], _ => none
  | n + 1, f :: Δ, args =>
    if args.length = f.params.length then do
      let (flow, out) ← evalBlock n (f :: Δ) (.ofParams f.params args) f.body
      return (flow.result, out)
    else none

/-- A statement. Calls of the entry function that stand alone are left out, and a definition does nothing. -/
def evalStmt : Nat → List Definition → Store → Stmt → Option (Flow × List Word)
  | 0, _, _, _ => none
  | n + 1, Δ, σ, st =>
    match st with
    | .pass _ => some (.next σ, [])
    | .ret _ none => some (.returned 0, [])
    | .ret _ (some e) => do
      let (x, out) ← evalExpr n Δ σ e
      return (.returned x, out)
    | .expr _ e =>
      if e.calledName? = some entry then some (.next σ, [])
      else do
        let (_, out) ← evalExpr n Δ σ e
        return (.next σ, out)
    | .assign _ targets e =>
      match targets with
      | [target] => do
        let name ← target.asName?
        let (x, out) ← evalExpr n Δ σ e
        return (.next (σ.update name x), out)
      | _ => none
    | .augAssign _ target op e => do
      let name ← target.asName?
      let x ← σ name
      let (y, out) ← evalExpr n Δ σ e
      return (.next (σ.update name (op.eval x y)), out)
    | .cond _ test body orelse => do
      let (x, out) ← evalExpr n Δ σ test
      let (flow, out') ← evalBlock n Δ σ (if x = 0 then orelse else body)
      return (flow, out ++ out')
    | .loop _ test body => evalLoop n Δ σ test body
    | .funcDef _ _ _ _ => some (.next σ, [])

/-- Statements, one after the other; a definition is in sight of those that follow it. -/
def evalBlock : Nat → List Definition → Store → List Stmt → Option (Flow × List Word)
  | 0, _, _, _ => none
  | _ + 1, _, σ, [] => some (.next σ, [])
  | n + 1, Δ, σ, st :: rest => do
    let (flow, out) ← evalStmt n Δ σ st
    match flow with
    | .returned x => return (.returned x, out)
    | .next σ' => do
      let (flow', out') ← evalBlock n (st.definition?.toList ++ Δ) σ' rest
      return (flow', out ++ out')

/-- A loop, from its test on. -/
def evalLoop : Nat → List Definition → Store → Expr → List Stmt → Option (Flow × List Word)
  | 0, _, _, _, _ => none
  | n + 1, Δ, σ, test, body => do
    let (x, out) ← evalExpr n Δ σ test
    if x = 0 then return (.next σ, out)
    else do
      let (flow, out') ← evalBlock n Δ σ body
      match flow with
      | .returned y => return (.returned y, out ++ out')
      | .next σ' => do
        let (flow', out'') ← evalLoop n Δ σ' test body
        return (flow', out ++ out' ++ out'')

end

variable {entry} {n : Nat} {Δ : List Definition} {σ : Store} {v w : Word} {out : List Word}

/-- Only single comparisons have a value. -/
theorem single_of_evalExpr_compare {span : Span} {left : Expr} {ops : List CompareOp} {comparators : List Expr}
    (h : evalExpr entry (n + 1) Δ σ (.compare span left ops comparators) = some (v, out)) :
    ∃ op right, ops = [op] ∧ comparators = [right] := by
  unfold evalExpr at h
  dsimp only at h
  split at h
  · exact ⟨_, _, rfl, rfl⟩
  · exact absurd h (by simp)

/-- A minus sign and a number stand for the negated number. -/
theorem evalExpr_negatedLiteral {op : UnaryOp} {e : Expr} (hneg : Lower.negatedLiteral? op e = some w)
    (h : evalExpr entry n Δ σ e = some (v, out)) : w = op.eval v ∧ out = [] := by
  unfold Lower.negatedLiteral? at hneg
  split at hneg
  · obtain rfl := Option.some.inj hneg
    cases n with
    | zero => exact absurd h (by simp [evalExpr])
    | succ n =>
        obtain ⟨rfl, rfl⟩ := Prod.mk.inj (Option.some.inj h)
        exact ⟨(UnaryOp.eval_minus _).symm, rfl⟩
  · exact absurd hneg (by simp)

/-- A return is never followed by another statement. -/
theorem isReturn_of_evalStmt_next {st : Stmt} {σ' : Store} (h : evalStmt entry n Δ σ st = some (.next σ', out)) :
    st.isReturn = false := by
  cases n with
  | zero => exact absurd h (by simp [evalStmt])
  | succ n =>
      cases st with
      | ret span value =>
          cases value with
          | none => exact absurd h (by simp [evalStmt])
          | some e =>
              obtain ⟨_, _, heq⟩ := Option.bind_eq_some_iff.mp h
              exact absurd heq (by simp)
      | pass | expr | assign | augAssign | cond | loop | funcDef => rfl

/-- **Statements that control can pass** do not end with a return. -/
theorem isReturn_getLast_of_evalBlock_next {ss : List Stmt} {σ' : Store}
    (h : evalBlock entry n Δ σ ss = some (.next σ', out)) : ss.getLast?.any Stmt.isReturn = false := by
  induction ss generalizing n Δ σ out with
  | nil => rfl
  | cons st rest ih =>
      cases n with
      | zero => exact absurd h (by simp [evalBlock])
      | succ n =>
          obtain ⟨⟨flow, o₁⟩, hst, h⟩ := Option.bind_eq_some_iff.mp h
          cases flow with
          | returned x => exact absurd h (by simp)
          | next σ₁ =>
              obtain ⟨⟨flow, o₂⟩, hrest, heq⟩ := Option.bind_eq_some_iff.mp h
              obtain ⟨rfl, _⟩ := Prod.mk.inj (Option.some.inj heq)
              cases rest with
              | nil => exact isReturn_of_evalStmt_next hst
              | cons st' rest => exact ih hrest

/-- **A call terminates** with a value and an output: of the functions that a module defines, the one of the
    given name is called. -/
def CallTerminates (entry : String) (m : Module) (name : String) (args : List Word) (v : Word) (out : List Word) :
    Prop :=
  ∃ n, evalCall entry n (inSight (definitions m.body).reverse name) args = some (v, out)

end Evaluation

end Offside
