import Offside.Tree.Basic

/-!
# `Lower.Locals` — how many slots a function needs

A function needs a slot for each parameter and for each name that its body binds, unless the name already
means a variable outside. Blocks inside the body count, functions inside it do not.
-/

namespace Offside.Lower

mutual

/-- The names that a statement binds, in order and with repetitions. -/
def boundByStmt : Stmt → List String
  | .assign _ targets _ => targets.filterMap Expr.asName?
  | .augAssign _ target _ _ => target.asName?.toList
  | .cond _ _ body orelse => boundNames body ++ boundNames orelse
  | .loop _ _ body => boundNames body
  | .pass _ | .ret _ _ | .expr _ _ | .funcDef _ _ _ _ => []

/-- The names that statements bind, in order and with repetitions. -/
def boundNames : List Stmt → List String
  | [] => []
  | s :: rest => boundByStmt s ++ boundNames rest

end

/-- The number of slots of a function, where `known` says which names mean variables outside. -/
def countLocals (params : List String) (body : List Stmt) (known : String → Bool) : Nat :=
  let fresh := (boundNames body).filter fun name => !params.contains name && !known name
  params.length + fresh.eraseDups.length

/-- The first parameter that an earlier one already names. -/
def duplicate? (seen : List String) : List String → Option String
  | [] => none
  | name :: rest => if seen.contains name then some name else duplicate? (name :: seen) rest

end Offside.Lower
