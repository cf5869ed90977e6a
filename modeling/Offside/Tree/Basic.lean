import Offside.Tree.Operator
import Offside.Word

/-!
# `Tree.Basic` — expressions, statements, modules

The tree of a source file. Every node carries the span it was read from. Trees are wider than what the
parser builds: a comparison may pair up operators and operands badly, an assignment may have any
expressions as targets, a block may be empty. What the parser promises beyond the types is proved of it.
-/

namespace Offside

/-- Whether a name is read or bound. -/
inductive NameUse where
  | load
  | store
deriving DecidableEq

/-- Literal values. -/
inductive Constant where
  | int (value : Word)
  | bool (value : Bool)
  | str (value : String)
deriving DecidableEq

/-- Expressions. A comparison `a < b <= c` is one node that holds every operator and every operand after
    the first. -/
inductive Expr where
  | const (span : Span) (value : Constant)
  | name (span : Span) (id : String) (use : NameUse)
  | binary (span : Span) (left : Expr) (op : BinaryOp) (right : Expr)
  | unary (span : Span) (op : UnaryOp) (operand : Expr)
  | compare (span : Span) (left : Expr) (ops : List CompareOp) (comparators : List Expr)
  | call (span : Span) (func : Expr) (args : List Expr)

/-- Statements. `elif` is a conditional that stands alone in the other branch. -/
inductive Stmt where
  | pass (span : Span)
  | ret (span : Span) (value : Option Expr)
  | expr (span : Span) (value : Expr)
  | assign (span : Span) (targets : List Expr) (value : Expr)
  | augAssign (span : Span) (target : Expr) (op : BinaryOp) (value : Expr)
  | cond (span : Span) (test : Expr) (body orelse : List Stmt)
  | loop (span : Span) (test : Expr) (body : List Stmt)
  | funcDef (span : Span) (name : String) (params : List String) (body : List Stmt)

/-- A source file. -/
structure Module where
  body : List Stmt
  span : Span

namespace Expr

/-- The stretch of source an expression was read from. -/
def span : Expr → Span
  | .const s _ | .name s _ _ | .binary s _ _ _ | .unary s _ _ | .compare s _ _ _ | .call s _ _ => s

/-- The same expression, read from another stretch. -/
def withSpan (s : Span) : Expr → Expr
  | .const _ v => .const s v
  | .name _ id use => .name s id use
  | .binary _ l op r => .binary s l op r
  | .unary _ op e => .unary s op e
  | .compare _ l ops es => .compare s l ops es
  | .call _ f args => .call s f args

/-- The name that an expression consists of, if it is one. -/
def asName? : Expr → Option String
  | .name _ id _ => some id
  | _ => none

/-- The name that an expression calls, if it is a call of a name. -/
def calledName? : Expr → Option String
  | .call _ f _ => f.asName?
  | _ => none

@[simp] theorem span_withSpan (s : Span) (e : Expr) : (e.withSpan s).span = s := by cases e <;> rfl

@[simp] theorem asName?_withSpan (s : Span) (e : Expr) : (e.withSpan s).asName? = e.asName? := by
  cases e <;> rfl

end Expr

namespace Stmt

/-- The stretch of source a statement was read from. -/
def span : Stmt → Span
  | .pass s | .ret s _ | .expr s _ | .assign s _ _ | .augAssign s _ _ _ | .cond s _ _ _ | .loop s _ _
  | .funcDef s _ _ _ => s

/-- The statement leaves its function. -/
def isReturn : Stmt → Bool
  | .ret _ _ => true
  | _ => false

end Stmt

end Offside
