import Offside.Tree.Reading

/-!
# `Tree.Expression` — reading expressions

One function per level, loosest first: comparisons, the six levels of binary operators, unary operators,
calls, atoms. Binary operators group to the left, a chain of comparisons is one node, and parentheses leave
no node behind, only a wider span.

Each function ends because it passes on a shorter list, or the same list to a tighter level.
-/

namespace Offside

/-- The binary operator that a token stands for. -/
def Token.Kind.binaryOp? : Token.Kind → Option BinaryOp
  | .sym s => BinaryOp.ofSymbol? s
  | _ => none

/-- The binary operator of one level that a token stands for. -/
def Token.Kind.binaryOpAt? (level : Nat) (kind : Token.Kind) : Option BinaryOp :=
  kind.binaryOp?.filter fun op => op.level == level

/-- The unary operator that a token stands for. -/
def Token.Kind.unaryOp? : Token.Kind → Option UnaryOp
  | .sym s => UnaryOp.ofSymbol? s
  | _ => none

/-- The comparison that a token stands for. -/
def Token.Kind.compareOp? : Token.Kind → Option CompareOp
  | .sym s => CompareOp.ofSymbol? s
  | _ => none

end Offside

namespace Offside.Tree

/-- The least magnitude that no non-negative number of 64 bits has. -/
def signBound : Nat := 1 <<< 63

/-- A comparison if there is anything to compare with, and the first operand alone otherwise. -/
def comparisonOf (left : Expr) (pairs : List (CompareOp × Expr)) : Expr :=
  match pairs.getLast? with
  | none => left
  | some last => .compare (left.span.join last.2.span) left (pairs.map (·.1)) (pairs.map (·.2))

/-- The literal one too large, right after a minus sign. -/
def leastNumber? (op : UnaryOp) : (ts : List Token) → Option (Parsed Token ts)
  | [] => none
  | t :: rest =>
    if op = .minus ∧ t.kind = .int signBound then some (.token t t rest) else none

mutual

/-- An expression: operands of the loosest binary level, joined by comparisons. -/
def expression (eof : Position) (ts : List Token) : Except Fault (Parsed Expr ts) := do
  let left ← binary eof BinaryOp.loosest ts
  have := left.shorter
  let pairs ← comparisons eof left.rest
  return ⟨comparisonOf left.value pairs.value, pairs.rest, Nat.lt_of_le_of_lt pairs.noLonger this⟩
termination_by (ts.length, BinaryOp.loosest + 4)

/-- The comparisons that follow an operand. -/
def comparisons (eof : Position) (ts : List Token) :
    Except Fault (Trail (List (CompareOp × Expr)) ts) :=
  match ts with
  | [] => .ok (.nothing [] [])
  | t :: rest =>
    match t.kind.compareOp? with
    | none => .ok (.nothing [] (t :: rest))
    | some op => do
      let right ← binary eof BinaryOp.loosest rest
      have := right.shorter
      let more ← comparisons eof right.rest
      have := more.noLonger
      return ⟨(op, right.value) :: more.value, more.rest, by simp; omega⟩
termination_by (ts.length, 0)

/-- Operands of the next tighter level, joined by the operators of a level. Level 0 has no operators. -/
def binary (eof : Position) (level : Nat) (ts : List Token) : Except Fault (Parsed Expr ts) :=
  match level with
  | 0 => unary eof ts
  | level + 1 => do
    let left ← binary eof level ts
    have := left.shorter
    let whole ← binaryTail eof level left.value left.rest
    return ⟨whole.value, whole.rest, Nat.lt_of_le_of_lt whole.noLonger this⟩
termination_by (ts.length, level + 3)

/-- Goes on from a left operand while operators of the level follow. -/
def binaryTail (eof : Position) (level : Nat) (left : Expr) (ts : List Token) :
    Except Fault (Trail Expr ts) :=
  match ts with
  | [] => .ok (.nothing left [])
  | t :: rest =>
    match t.kind.binaryOpAt? (level + 1) with
    | none => .ok (.nothing left (t :: rest))
    | some op => do
      let right ← binary eof level rest
      have := right.shorter
      let joined := Expr.binary (left.span.join right.value.span) left op right.value
      let whole ← binaryTail eof level joined right.rest
      have := whole.noLonger
      return ⟨whole.value, whole.rest, by simp; omega⟩
termination_by (ts.length, 0)

/-- A unary operator and its operand, or a call. A minus sign before the literal that is one too large
    makes the least number. -/
def unary (eof : Position) (ts : List Token) : Except Fault (Parsed Expr ts) :=
  match ts with
  | [] => call eof []
  | t :: rest =>
    match t.kind.unaryOp? with
    | none => call eof (t :: rest)
    | some op =>
      match leastNumber? op rest with
      | some literal =>
        .ok ⟨.const ⟨t.span.start, literal.value.span.stop⟩ (.int (BitVec.ofNat 64 signBound)),
          literal.rest, literal.shorter_cons t⟩
      | none => do
        let operand ← unary eof rest
        return ⟨.unary ⟨t.span.start, operand.value.span.stop⟩ op operand.value, operand.rest,
          operand.shorter_cons t⟩
termination_by (ts.length, 2)

/-- An atom, called any number of times. -/
def call (eof : Position) (ts : List Token) : Except Fault (Parsed Expr ts) := do
  let func ← atom eof ts
  have := func.shorter
  let whole ← callTail eof func.value func.rest
  return ⟨whole.value, whole.rest, Nat.lt_of_le_of_lt whole.noLonger this⟩
termination_by (ts.length, 1)

/-- Goes on from a callee while argument lists follow. -/
def callTail (eof : Position) (func : Expr) (ts : List Token) : Except Fault (Trail Expr ts) :=
  match ts with
  | [] => .ok (.nothing func [])
  | t :: rest =>
    if t.kind = .sym .leftParen then do
      let args ← arguments eof rest
      have := args.noLonger
      let close ← expect eof (.sym .rightParen) .functionCall args.rest
      have := close.shorter
      let joined := Expr.call ⟨func.span.start, close.value.span.stop⟩ func args.value
      let whole ← callTail eof joined close.rest
      have := whole.noLonger
      return ⟨whole.value, whole.rest, by simp; omega⟩
    else .ok (.nothing func (t :: rest))
termination_by (ts.length, 0)

/-- The arguments of a call, up to its closing parenthesis. -/
def arguments (eof : Position) (ts : List Token) : Except Fault (Trail (List Expr) ts) :=
  if nextIs (.sym .rightParen) ts then .ok (.nothing [] ts)
  else do
    let args ← argumentList eof ts
    return args.trail
termination_by (ts.length, BinaryOp.loosest + 6)

/-- Expressions separated by commas; a comma may follow the last one. -/
def argumentList (eof : Position) (ts : List Token) : Except Fault (Parsed (List Expr) ts) := do
  let first ← expression eof ts
  have := first.shorter
  match hrest : first.rest with
  | t :: rest =>
    if t.kind = .sym .comma then
      if nextIs (.sym .rightParen) rest then
        return ⟨[first.value], rest, first.tail_shorter hrest⟩
      else
        have : rest.length < ts.length := first.tail_shorter hrest
        let more ← argumentList eof rest
        return ⟨first.value :: more.value, more.rest, Nat.lt_trans more.shorter this⟩
    else return ⟨[first.value], t :: rest, first.shorter_of_eq hrest⟩
  | [] => return ⟨[first.value], [], first.shorter_of_eq hrest⟩
termination_by (ts.length, BinaryOp.loosest + 5)

/-- A literal, a name, or an expression in parentheses. -/
def atom (eof : Position) (ts : List Token) : Except Fault (Parsed Expr ts) :=
  match ts with
  | [] => .error (unexpected eof .expression [])
  | t :: rest =>
    match t.kind with
    | .int n =>
      if n < signBound then
        .ok (.token (.const t.span (.int (BitVec.ofNat 64 n))) t rest)
      else .error ⟨.literalTooLarge n, t.span.start⟩
    | .kw .true_ => .ok (.token (.const t.span (.bool true)) t rest)
    | .kw .false_ => .ok (.token (.const t.span (.bool false)) t rest)
    | .str s => .ok (.token (.const t.span (.str s)) t rest)
    | .ident id => .ok (.token (.name t.span id .load) t rest)
    | .sym .leftParen => do
      let inner ← expression eof rest
      have := inner.shorter
      let close ← expect eof (.sym .rightParen) .parentheses inner.rest
      have := close.shorter
      return ⟨inner.value.withSpan ⟨t.span.start, close.value.span.stop⟩, close.rest,
        by simp; omega⟩
    | _ => .error (unexpected eof .expression (t :: rest))
termination_by (ts.length, 0)

end

end Offside.Tree
