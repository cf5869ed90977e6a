import Offside.Tree.Expression

/-!
# `Tree.Statement` — reading statements and modules

A logical line is one compound statement (`def`, `if`, `while`) or simple statements separated by
semicolons and ended by a newline token. The block of a compound statement is either such simple
statements on the same line or an indented run of logical lines. A module is a run of logical lines up to
the end of the file.
-/

namespace Offside

/-- The operator of the augmented assignment that a token stands for. -/
def Token.Kind.assignmentOp? : Token.Kind → Option BinaryOp
  | .sym s => BinaryOp.ofAssignment? s
  | _ => none

end Offside

namespace Offside.Tree

/-! ## Simple statements -/

/-- An expression as the target of an assignment: only names can be bound. -/
def asTarget : Expr → Except Fault Expr
  | .name span id _ => .ok (.name span id .store)
  | e => .error ⟨.notAssignable, e.span.start⟩

/-- Goes on from an expression while `=` follows: every expression but the last is a target. -/
def assignmentTail (eof : Position) (value : Expr) (ts : List Token) :
    Except Fault (Trail (List Expr × Expr) ts) :=
  match ts with
  | [] => .ok (.nothing ([], value) [])
  | t :: rest =>
    if t.kind = .sym .equal then do
      let target ← asTarget value
      let next ← expression eof rest
      let more ← assignmentTail eof next.value next.rest
      return ⟨(target :: more.value.1, more.value.2), more.rest,
        Nat.le_of_lt (Nat.lt_of_le_of_lt more.noLonger (next.shorter_cons t))⟩
    else .ok (.nothing ([], value) (t :: rest))
termination_by ts.length
decreasing_by exact next.shorter_cons t

/-- An assignment if there are targets, and a statement of the value alone otherwise. -/
def assignmentOf (targets : List Expr) (value : Expr) : Stmt :=
  match targets with
  | [] => .expr value.span value
  | first :: _ => .assign (first.span.join value.span) targets value

/-- The operator of an augmented assignment at the front of the tokens. -/
def augmented? : (ts : List Token) → Option (Parsed BinaryOp ts)
  | [] => none
  | t :: rest => t.kind.assignmentOp?.map fun op => .token op t rest

/-- An expression, an assignment or an augmented assignment. -/
def expressionStatement (eof : Position) (ts : List Token) : Except Fault (Parsed Stmt ts) := do
  let first ← expression eof ts
  have := first.shorter
  match augmented? first.rest with
  | some op =>
    have := op.shorter
    let target ← asTarget first.value
    let value ← expression eof op.rest
    have := value.shorter
    return ⟨.augAssign (target.span.join value.value.span) target op.value value.value, value.rest,
      by omega⟩
  | none =>
    let whole ← assignmentTail eof first.value first.rest
    have := whole.noLonger
    return ⟨assignmentOf whole.value.1 whole.value.2, whole.rest, by omega⟩

/-- `pass`, `return`, or a statement that starts with an expression. -/
def simpleStatement (eof : Position) (ts : List Token) : Except Fault (Parsed Stmt ts) :=
  match ts with
  | [] => expressionStatement eof []
  | t :: rest =>
    if t.kind = .kw .pass_ then .ok (.token (.pass t.span) t rest)
    else if t.kind = .kw .return_ then
      if nextIs .newline rest || nextIs (.sym .semicolon) rest then
        .ok (.token (.ret t.span none) t rest)
      else do
        let value ← expression eof rest
        return ⟨.ret ⟨t.span.start, value.value.span.stop⟩ (some value.value), value.rest,
          value.shorter_cons t⟩
    else expressionStatement eof (t :: rest)

/-- The statements after the first on a line. A semicolon may stand before the end of the line. -/
def simpleTail (eof : Position) (ts : List Token) : Except Fault (Trail (List Stmt) ts) :=
  match ts with
  | [] => .ok (.nothing [] [])
  | t :: rest =>
    if t.kind = .sym .semicolon then
      if nextIs .newline rest then .ok ⟨[], rest, Nat.le_succ _⟩
      else do
        let stmt ← simpleStatement eof rest
        have := stmt.shorter
        let more ← simpleTail eof stmt.rest
        have := more.noLonger
        return ⟨stmt.value :: more.value, more.rest, by simp; omega⟩
    else .ok (.nothing [] (t :: rest))
termination_by ts.length

/-- A line of simple statements. -/
def simpleStatements (eof : Position) (ts : List Token) : Except Fault (Parsed (List Stmt) ts) := do
  let first ← simpleStatement eof ts
  have := first.shorter
  let more ← simpleTail eof first.rest
  have := more.noLonger
  let close ← expect eof .newline .endOfStatement more.rest
  have := close.shorter
  return ⟨first.value :: more.value, close.rest, by omega⟩

/-! ## Compound statements -/

/-- Parameter names separated by commas; a comma may follow the last one. -/
def parameterNames (eof : Position) (ts : List Token) : Except Fault (Parsed (List String) ts) := do
  let first ← expectIdentifier eof .parameterList ts
  have := first.shorter
  match hrest : first.rest with
  | t :: rest =>
    if t.kind = .sym .comma then
      if nextIs (.sym .rightParen) rest then
        return ⟨[first.value], rest, first.tail_shorter hrest⟩
      else
        have : rest.length < ts.length := first.tail_shorter hrest
        let more ← parameterNames eof rest
        return ⟨first.value :: more.value, more.rest, Nat.lt_trans more.shorter this⟩
    else return ⟨[first.value], t :: rest, first.shorter_of_eq hrest⟩
  | [] => return ⟨[first.value], [], first.shorter_of_eq hrest⟩
termination_by ts.length

/-- The parameter names up to the closing parenthesis. -/
def parameters (eof : Position) (ts : List Token) : Except Fault (Trail (List String) ts) :=
  if nextIs (.sym .rightParen) ts then .ok (.nothing [] ts)
  else do
    let names ← parameterNames eof ts
    return names.trail

/-- The head of a definition, after `def`: the name and the parameters. -/
def signature (eof : Position) (ts : List Token) : Except Fault (Parsed (String × List String) ts) := do
  let name ← expectIdentifier eof .functionDefinition ts
  have := name.shorter
  let opened ← expect eof (.sym .leftParen) .parameterList name.rest
  have := opened.shorter
  let params ← parameters eof opened.rest
  have := params.noLonger
  let closed ← expect eof (.sym .rightParen) .parameterList params.rest
  have := closed.shorter
  return ⟨(name.value, params.value), closed.rest, by omega⟩

/-- From a start to the end of the last statement. -/
def blockSpan (start : Position) (body : List Stmt) : Span :=
  match body.getLast? with
  | some last => ⟨start, last.span.stop⟩
  | none => .point start

mutual

/-- A logical line. -/
def statementLine (eof : Position) (ts : List Token) : Except Fault (Parsed (List Stmt) ts) :=
  match ts with
  | [] => simpleStatements eof []
  | t :: rest =>
    match t.kind with
    | .kw .def_ => do
      let head ← signature eof rest
      have := head.shorter
      let body ← block eof .functionDefinition head.rest
      have := body.shorter
      return ⟨[.funcDef (blockSpan t.span.start body.value) head.value.1 head.value.2 body.value],
        body.rest, by simp; omega⟩
    | .kw .if_ => do
      let stmt ← conditional eof t.span.start rest
      return ⟨[stmt.value], stmt.rest, stmt.shorter_cons t⟩
    | .kw .while_ => do
      let test ← expression eof rest
      have := test.shorter
      let body ← block eof .whileStatement test.rest
      have := body.shorter
      return ⟨[.loop (blockSpan t.span.start body.value) test.value body.value], body.rest,
        by simp; omega⟩
    | .indent => .error (unexpected eof .statement (t :: rest))
    | _ => simpleStatements eof (t :: rest)
termination_by (ts.length, 0)

/-- A conditional, after the `if` or `elif` that starts it: a test, a block, and what follows it. -/
def conditional (eof : Position) (start : Position) (ts : List Token) : Except Fault (Parsed Stmt ts) := do
  let test ← expression eof ts
  have := test.shorter
  let body ← block eof .ifStatement test.rest
  have := body.shorter
  let other ← alternative eof body.rest
  have := other.noLonger
  let last := if other.value.isEmpty then body.value else other.value
  return ⟨.cond (blockSpan start last) test.value body.value other.value, other.rest, by omega⟩
termination_by (ts.length, 0)

/-- The other branch of a conditional: a conditional of its own after `elif`, a block after `else`. -/
def alternative (eof : Position) (ts : List Token) : Except Fault (Trail (List Stmt) ts) :=
  match ts with
  | [] => .ok (.nothing [] [])
  | t :: rest =>
    match t.kind with
    | .kw .elif_ => do
      let stmt ← conditional eof t.span.start rest
      return ⟨[stmt.value], stmt.rest, Nat.le_succ_of_le (Nat.le_of_lt stmt.shorter)⟩
    | .kw .else_ => do
      let body ← block eof .elseClause rest
      return ⟨body.value, body.rest, Nat.le_succ_of_le (Nat.le_of_lt body.shorter)⟩
    | _ => .ok (.nothing [] (t :: rest))
termination_by (ts.length, 0)

/-- A colon and the block after it. -/
def block (eof : Position) (context : Context) (ts : List Token) :
    Except Fault (Parsed (List Stmt) ts) := do
  let colon ← expect eof (.sym .colon) context ts
  have := colon.shorter
  if nextIs .newline colon.rest then
    let opened ← expect eof .indent context colon.rest.tail
    have := opened.shorter
    have : colon.rest.tail.length ≤ colon.rest.length := by simp
    let body ← blockLines eof opened.rest
    have := body.noLonger
    let closed ← expect eof .dedent context body.rest
    have := closed.shorter
    return ⟨body.value, closed.rest, by omega⟩
  else
    let body ← simpleStatements eof colon.rest
    have := body.shorter
    return ⟨body.value, body.rest, by omega⟩
termination_by (ts.length, 0)

/-- Logical lines up to the end of the block or of the file. -/
def blockLines (eof : Position) (ts : List Token) : Except Fault (Trail (List Stmt) ts) :=
  if nextIs .dedent ts || nextIs .eof ts then .ok (.nothing [] ts)
  else do
    let line ← statementLine eof ts
    have := line.shorter
    let more ← blockLines eof line.rest
    have := more.noLonger
    return ⟨line.value ++ more.value, more.rest, by omega⟩
termination_by (ts.length, 1)

end

/-! ## Modules -/

/-- Logical lines up to the end of the file. Newline tokens between them mean nothing. -/
def moduleLines (eof : Position) (ts : List Token) : Except Fault (Trail (List Stmt) ts) :=
  match ts with
  | [] => .ok (.nothing [] [])
  | t :: rest =>
    if t.kind = .eof then .ok (.nothing [] (t :: rest))
    else if t.kind = .newline then do
      let more ← moduleLines eof rest
      return ⟨more.value, more.rest, Nat.le_succ_of_le more.noLonger⟩
    else do
      let line ← statementLine eof (t :: rest)
      have := line.shorter
      let more ← moduleLines eof line.rest
      have := more.noLonger
      return ⟨line.value ++ more.value, more.rest, by omega⟩
termination_by ts.length
decreasing_by
  · exact Nat.lt_succ_self _
  · exact line.shorter

/-- The place reported past the last token: where the last token ends. -/
def eofOf (ts : List Token) : Position :=
  match ts.getLast? with
  | some t => t.span.stop
  | none => .unknown

/-- The module that a token list spells. -/
def parseModule (ts : List Token) : Except Fault Module := do
  let eof := eofOf ts
  let lines ← moduleLines eof ts
  return ⟨lines.value, ⟨placeOf eof ts, eof⟩⟩

/-- The expression that a token list starts with. -/
def parseExpression (ts : List Token) : Except Fault (Parsed Expr ts) := expression (eofOf ts) ts

/-- The logical line that a token list starts with. -/
def parseLine (ts : List Token) : Except Fault (Parsed (List Stmt) ts) := statementLine (eofOf ts) ts

end Offside.Tree
