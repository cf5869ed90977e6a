import Mathlib
import Offside.Proofs.Makeup

/-!
# `Proofs.Recursion` — how deep the parser's calls nest

The parser's functions carry proofs that they read something, and end because of them. Here they stand
without those proofs: a `Rule` is one function of the parser, `Rule.body` is what it does, with every call it
makes left to another (`ask`), and `Rule.within` answers these calls itself, down to a given depth. A loop is
a rule that asks for itself, so its rounds count, too. Beyond the depth there is no answer at all.

Every rule has a rank, and a call from a rule goes to a shorter list of tokens, or to a lower rank on the same
list. So the calls nest no deeper than `Rule.depth`, sixteen for each token and the rank
(`Rule.within_eq`), and at this depth the plain functions give what the parser gives, faults included.
-/

namespace Offside.Tree

/-! ## Rules -/

/-- A function of the parser with what it is given besides the tokens. The index is what it reads. -/
inductive Rule : Type → Type where
  | expression : Rule Expr
  | comparisons : Rule (List (CompareOp × Expr))
  | binary (level : Nat) : Rule Expr
  | binaryTail (level : Nat) (left : Expr) : Rule Expr
  | unary : Rule Expr
  | call : Rule Expr
  | callTail (func : Expr) : Rule Expr
  | arguments : Rule (List Expr)
  | argumentList : Rule (List Expr)
  | atom : Rule Expr
  | assignmentTail (value : Expr) : Rule (List Expr × Expr)
  | expressionStatement : Rule Stmt
  | simpleStatement : Rule Stmt
  | simpleTail : Rule (List Stmt)
  | simpleStatements : Rule (List Stmt)
  | parameterNames : Rule (List String)
  | parameters : Rule (List String)
  | signature : Rule (String × List String)
  | statementLine : Rule (List Stmt)
  | conditional (start : Position) : Rule Stmt
  | alternative : Rule (List Stmt)
  | block (context : Context) : Rule (List Stmt)
  | blockLines : Rule (List Stmt)
  | moduleLines : Rule (List Stmt)

/-- What was read and what is left, without the bound on it. -/
def Parsed.pair {α : Type} {ts : List Token} (p : Parsed α ts) : α × List Token := (p.value, p.rest)

@[inherit_doc Parsed.pair]
def Trail.pair {α : Type} {ts : List Token} (p : Trail α ts) : α × List Token := (p.value, p.rest)

/-- What the parser's function for a rule reads off the front of a token list. -/
def Rule.read (eof : Position) : {α : Type} → Rule α → List Token → Except Fault (α × List Token)
  | _, .expression, ts => (Tree.expression eof ts).map Parsed.pair
  | _, .comparisons, ts => (Tree.comparisons eof ts).map Trail.pair
  | _, .binary level, ts => (Tree.binary eof level ts).map Parsed.pair
  | _, .binaryTail level left, ts => (Tree.binaryTail eof level left ts).map Trail.pair
  | _, .unary, ts => (Tree.unary eof ts).map Parsed.pair
  | _, .call, ts => (Tree.call eof ts).map Parsed.pair
  | _, .callTail func, ts => (Tree.callTail eof func ts).map Trail.pair
  | _, .arguments, ts => (Tree.arguments eof ts).map Trail.pair
  | _, .argumentList, ts => (Tree.argumentList eof ts).map Parsed.pair
  | _, .atom, ts => (Tree.atom eof ts).map Parsed.pair
  | _, .assignmentTail value, ts => (Tree.assignmentTail eof value ts).map Trail.pair
  | _, .expressionStatement, ts => (Tree.expressionStatement eof ts).map Parsed.pair
  | _, .simpleStatement, ts => (Tree.simpleStatement eof ts).map Parsed.pair
  | _, .simpleTail, ts => (Tree.simpleTail eof ts).map Trail.pair
  | _, .simpleStatements, ts => (Tree.simpleStatements eof ts).map Parsed.pair
  | _, .parameterNames, ts => (Tree.parameterNames eof ts).map Parsed.pair
  | _, .parameters, ts => (Tree.parameters eof ts).map Trail.pair
  | _, .signature, ts => (Tree.signature eof ts).map Parsed.pair
  | _, .statementLine, ts => (Tree.statementLine eof ts).map Parsed.pair
  | _, .conditional start, ts => (Tree.conditional eof start ts).map Parsed.pair
  | _, .alternative, ts => (Tree.alternative eof ts).map Trail.pair
  | _, .block context, ts => (Tree.block eof context ts).map Parsed.pair
  | _, .blockLines, ts => (Tree.blockLines eof ts).map Trail.pair
  | _, .moduleLines, ts => (Tree.moduleLines eof ts).map Trail.pair

/-! ## What a rule does, its calls left open -/

/-- A computation whose calls may be cut off: it has no answer, fails, or gives a value. -/
abbrev Attempt (β : Type) : Type := ExceptT Fault Option β

/-- The answer is known. -/
def Attempt.settled {β : Type} (x : Except Fault β) : Attempt β := some x

/-- The lists of a comma-separated run: `item` was read, a comma may follow, and `more` reads the items after it. -/
def commaTail {β : Type} (item : β) (more : List Token → Attempt (List β × List Token)) :
    List Token → Attempt (List β × List Token)
  | [] => return ([item], [])
  | t :: rest =>
    if t.kind = .sym .comma then
      if nextIs (.sym .rightParen) rest then return ([item], rest)
      else do
        let items ← more rest
        return (item :: items.1, items.2)
    else return ([item], t :: rest)

/-- What a rule does with a token list, where `ask` answers its calls. -/
def Rule.body (eof : Position) (ask : {β : Type} → Rule β → List Token → Attempt (β × List Token)) :
    {α : Type} → Rule α → List Token → Attempt (α × List Token)
  | _, .expression, ts => do
    let left ← ask (.binary BinaryOp.loosest) ts
    let pairs ← ask .comparisons left.2
    return (comparisonOf left.1 pairs.1, pairs.2)
  | _, .comparisons, [] => return ([], [])
  | _, .comparisons, t :: rest =>
    match t.kind.compareOp? with
    | none => return ([], t :: rest)
    | some op => do
      let right ← ask (.binary BinaryOp.loosest) rest
      let more ← ask .comparisons right.2
      return ((op, right.1) :: more.1, more.2)
  | _, .binary 0, ts => ask .unary ts
  | _, .binary (level + 1), ts => do
    let left ← ask (.binary level) ts
    ask (.binaryTail level left.1) left.2
  | _, .binaryTail _ left, [] => return (left, [])
  | _, .binaryTail level left, t :: rest =>
    match t.kind.binaryOpAt? (level + 1) with
    | none => return (left, t :: rest)
    | some op => do
      let right ← ask (.binary level) rest
      ask (.binaryTail level (.binary (left.span.join right.1.span) left op right.1)) right.2
  | _, .unary, [] => ask .call []
  | _, .unary, t :: rest =>
    match t.kind.unaryOp? with
    | none => ask .call (t :: rest)
    | some op =>
      match leastNumber? op rest with
      | some literal =>
        return (.const ⟨t.span.start, literal.value.span.stop⟩ (.int (BitVec.ofNat 64 signBound)), literal.rest)
      | none => do
        let operand ← ask .unary rest
        return (.unary ⟨t.span.start, operand.1.span.stop⟩ op operand.1, operand.2)
  | _, .call, ts => do
    let func ← ask .atom ts
    ask (.callTail func.1) func.2
  | _, .callTail func, [] => return (func, [])
  | _, .callTail func, t :: rest =>
    if t.kind = .sym .leftParen then do
      let args ← ask .arguments rest
      let close ← .settled ((expect eof (.sym .rightParen) .functionCall args.2).map Parsed.pair)
      ask (.callTail (.call ⟨func.span.start, close.1.span.stop⟩ func args.1)) close.2
    else return (func, t :: rest)
  | _, .arguments, ts => if nextIs (.sym .rightParen) ts then return ([], ts) else ask .argumentList ts
  | _, .argumentList, ts => do
    let first ← ask .expression ts
    commaTail first.1 (ask .argumentList) first.2
  | _, .atom, [] => .settled (.error (unexpected eof .expression []))
  | _, .atom, t :: rest =>
    match t.kind with
    | .int n =>
      if n < signBound then return (.const t.span (.int (BitVec.ofNat 64 n)), rest)
      else .settled (.error ⟨.literalTooLarge n, t.span.start⟩)
    | .kw .true_ => return (.const t.span (.bool true), rest)
    | .kw .false_ => return (.const t.span (.bool false), rest)
    | .str s => return (.const t.span (.str s), rest)
    | .ident id => return (.name t.span id .load, rest)
    | .sym .leftParen => do
      let inner ← ask .expression rest
      let close ← .settled ((expect eof (.sym .rightParen) .parentheses inner.2).map Parsed.pair)
      return (inner.1.withSpan ⟨t.span.start, close.1.span.stop⟩, close.2)
    | _ => .settled (.error (unexpected eof .expression (t :: rest)))
  | _, .assignmentTail value, [] => return (([], value), [])
  | _, .assignmentTail value, t :: rest =>
    if t.kind = .sym .equal then do
      let target ← .settled (asTarget value)
      let next ← ask .expression rest
      let more ← ask (.assignmentTail next.1) next.2
      return ((target :: more.1.1, more.1.2), more.2)
    else return (([], value), t :: rest)
  | _, .expressionStatement, ts => do
    let first ← ask .expression ts
    match augmented? first.2 with
    | some op =>
      let target ← .settled (asTarget first.1)
      let value ← ask .expression op.rest
      return (.augAssign (target.span.join value.1.span) target op.value value.1, value.2)
    | none =>
      let whole ← ask (.assignmentTail first.1) first.2
      return (assignmentOf whole.1.1 whole.1.2, whole.2)
  | _, .simpleStatement, [] => ask .expressionStatement []
  | _, .simpleStatement, t :: rest =>
    if t.kind = .kw .pass_ then return (.pass t.span, rest)
    else if t.kind = .kw .return_ then
      if nextIs .newline rest || nextIs (.sym .semicolon) rest then return (.ret t.span none, rest)
      else do
        let value ← ask .expression rest
        return (.ret ⟨t.span.start, value.1.span.stop⟩ (some value.1), value.2)
    else ask .expressionStatement (t :: rest)
  | _, .simpleTail, [] => return ([], [])
  | _, .simpleTail, t :: rest =>
    if t.kind = .sym .semicolon then
      if nextIs .newline rest then return ([], rest)
      else do
        let stmt ← ask .simpleStatement rest
        let more ← ask .simpleTail stmt.2
        return (stmt.1 :: more.1, more.2)
    else return ([], t :: rest)
  | _, .simpleStatements, ts => do
    let first ← ask .simpleStatement ts
    let more ← ask .simpleTail first.2
    let close ← .settled ((expect eof .newline .endOfStatement more.2).map Parsed.pair)
    return (first.1 :: more.1, close.2)
  | _, .parameterNames, ts => do
    let first ← .settled ((expectIdentifier eof .parameterList ts).map Parsed.pair)
    commaTail first.1 (ask .parameterNames) first.2
  | _, .parameters, ts => if nextIs (.sym .rightParen) ts then return ([], ts) else ask .parameterNames ts
  | _, .signature, ts => do
    let name ← .settled ((expectIdentifier eof .functionDefinition ts).map Parsed.pair)
    let opened ← .settled ((expect eof (.sym .leftParen) .parameterList name.2).map Parsed.pair)
    let params ← ask .parameters opened.2
    let closed ← .settled ((expect eof (.sym .rightParen) .parameterList params.2).map Parsed.pair)
    return ((name.1, params.1), closed.2)
  | _, .statementLine, [] => ask .simpleStatements []
  | _, .statementLine, t :: rest =>
    match t.kind with
    | .kw .def_ => do
      let head ← ask .signature rest
      let body ← ask (.block .functionDefinition) head.2
      return ([.funcDef (blockSpan t.span.start body.1) head.1.1 head.1.2 body.1], body.2)
    | .kw .if_ => do
      let stmt ← ask (.conditional t.span.start) rest
      return ([stmt.1], stmt.2)
    | .kw .while_ => do
      let test ← ask .expression rest
      let body ← ask (.block .whileStatement) test.2
      return ([.loop (blockSpan t.span.start body.1) test.1 body.1], body.2)
    | .indent => .settled (.error (unexpected eof .statement (t :: rest)))
    | _ => ask .simpleStatements (t :: rest)
  | _, .conditional start, ts => do
    let test ← ask .expression ts
    let body ← ask (.block .ifStatement) test.2
    let other ← ask .alternative body.2
    return (.cond (blockSpan start (if other.1.isEmpty then body.1 else other.1)) test.1 body.1 other.1, other.2)
  | _, .alternative, [] => return ([], [])
  | _, .alternative, t :: rest =>
    match t.kind with
    | .kw .elif_ => do
      let stmt ← ask (.conditional t.span.start) rest
      return ([stmt.1], stmt.2)
    | .kw .else_ => ask (.block .elseClause) rest
    | _ => return ([], t :: rest)
  | _, .block context, ts => do
    let colon ← .settled ((expect eof (.sym .colon) context ts).map Parsed.pair)
    if nextIs .newline colon.2 then
      let opened ← .settled ((expect eof .indent context colon.2.tail).map Parsed.pair)
      let body ← ask .blockLines opened.2
      let closed ← .settled ((expect eof .dedent context body.2).map Parsed.pair)
      return (body.1, closed.2)
    else ask .simpleStatements colon.2
  | _, .blockLines, ts =>
    if nextIs .dedent ts || nextIs .eof ts then return ([], ts)
    else do
      let line ← ask .statementLine ts
      let more ← ask .blockLines line.2
      return (line.1 ++ more.1, more.2)
  | _, .moduleLines, [] => return ([], [])
  | _, .moduleLines, t :: rest =>
    if t.kind = .eof then return ([], t :: rest)
    else if t.kind = .newline then ask .moduleLines rest
    else do
      let line ← ask .statementLine (t :: rest)
      let more ← ask .moduleLines line.2
      return (line.1 ++ more.1, more.2)

/-- The rule with calls nested to the given depth, itself included. Below it there is no answer. -/
def Rule.within (eof : Position) : Nat → {α : Type} → Rule α → List Token → Attempt (α × List Token)
  | 0, _, _, _ => none
  | depth + 1, _, rule, ts => rule.body eof (Rule.within eof depth) ts

/-! ## Ranks -/

/-- On one and the same token list a rule calls rules of lower rank only. -/
def Rule.rank : {α : Type} → Rule α → Nat
  | _, .expression => BinaryOp.loosest + 4
  | _, .binary level => level + 3
  -- a tail goes back to the operands of its level, and levels have no bound
  | _, .binaryTail level _ => level
  | _, .unary => 2
  | _, .call => 1
  | _, .arguments => 12
  | _, .argumentList => 11
  | _, .expressionStatement => 11
  | _, .simpleStatement => 12
  | _, .simpleStatements => 13
  | _, .parameters => 1
  | _, .statementLine => 14
  | _, .conditional _ => 11
  | _, .blockLines => 15
  | _, .moduleLines => 15
  -- all these call on shorter lists only
  | _, .comparisons | _, .callTail _ | _, .atom | _, .assignmentTail _ | _, .simpleTail | _, .parameterNames
  | _, .signature | _, .alternative | _, .block _ => 0

/-- How deep the calls of a rule nest on a token list, itself included. -/
def Rule.depth {α : Type} (rule : Rule α) (ts : List Token) : Nat := 16 * ts.length + rule.rank + 1

/-! ## One rule, its calls answered -/

/-- `ask` gives the parser's answer to every call that a rule may make on a token list. -/
def Rule.Answered (eof : Position) (ask : {β : Type} → Rule β → List Token → Attempt (β × List Token)) {α : Type}
    (rule : Rule α) (ts : List Token) : Prop :=
  ∀ {β : Type} (called : Rule β) (rest : List Token), called.depth rest < rule.depth ts →
    ask called rest = .settled (called.read eof rest)

section Body

variable {eof : Position} {ask : {β : Type} → Rule β → List Token → Attempt (β × List Token)} {ts rest : List Token}
variable {α β : Type} {rule : Rule α} {t : Token}

/-- A call on the same tokens goes to a lower rank. -/
theorem Rule.Answered.lower (h : rule.Answered eof ask ts) (called : Rule β) (hrank : called.rank < rule.rank) :
    ask called ts = .settled (called.read eof ts) := by
  apply h called ts
  unfold Rule.depth
  omega

/-- A call on fewer tokens goes to any rank that one token pays for. -/
theorem Rule.Answered.shorter (h : rule.Answered eof ask ts) (called : Rule β) (hrest : rest.length < ts.length)
    (hrank : called.rank < rule.rank + 16) : ask called rest = .settled (called.read eof rest) := by
  apply h called rest
  unfold Rule.depth
  omega

theorem Rule.Answered.tail (h : rule.Answered eof ask (t :: rest)) (called : Rule β)
    (hrank : called.rank < rule.rank + 16) : ask called rest = .settled (called.read eof rest) :=
  h.shorter called (Nat.lt_succ_self _) hrank

/-- Going on from a known answer is going on from what the parser read. -/
theorem settled_bind {γ δ ε : Type} {a : Attempt δ} {x : Except Fault β} {pair : β → δ}
    (ha : a = .settled (x.map pair)) {k : δ → Attempt ε} {f : β → Except Fault γ} {pair' : γ → ε}
    (hk : ∀ b, k (pair b) = .settled ((f b).map pair')) : (a >>= k) = .settled ((x >>= f).map pair') := by
  subst ha
  cases x with
  | error e => rfl
  | ok b => exact hk b

/-- An answer that is given as it is. -/
theorem settled_id (x : Except Fault β) : Attempt.settled x = .settled (x.map id) := by
  cases x <;> rfl

/-- A call in last place: the parser only widens the bound of what it read. -/
theorem settled_last {γ δ : Type} {a : Attempt δ} {x : Except Fault β} {pair : β → δ}
    (ha : a = .settled (x.map pair)) {f : β → γ} {pair' : γ → δ} (hf : ∀ b, pair' (f b) = pair b) :
    a = .settled ((x >>= fun b => pure (f b)).map pair') := by
  subst ha
  cases x with
  | error e => rfl
  | ok b => exact congrArg (fun d => some (Except.ok d)) (hf b).symm

/-! ### Expressions -/

theorem body_expression (h : Rule.expression.Answered eof ask ts) :
    Rule.expression.body eof ask ts = .settled (Rule.expression.read eof ts) := by
  show _ = Attempt.settled ((expression eof ts).map Parsed.pair)
  rw [expression]
  apply settled_bind (h.lower (.binary BinaryOp.loosest) (by decide))
  intro left
  apply settled_bind (h.shorter .comparisons left.shorter (by decide))
  intro pairs
  rfl

theorem body_comparisons (h : Rule.comparisons.Answered eof ask ts) :
    Rule.comparisons.body eof ask ts = .settled (Rule.comparisons.read eof ts) := by
  show _ = Attempt.settled ((comparisons eof ts).map Trail.pair)
  cases ts with
  | nil =>
      rw [comparisons]
      rfl
  | cons t rest =>
      rw [comparisons, Rule.body]
      cases t.kind.compareOp? with
      | none => rfl
      | some op =>
          apply settled_bind (h.tail (.binary BinaryOp.loosest) (by decide))
          intro right
          apply settled_bind (h.shorter .comparisons (right.shorter_cons t) (by decide))
          intro more
          rfl

theorem body_binary {level : Nat} (h : (Rule.binary level).Answered eof ask ts) :
    (Rule.binary level).body eof ask ts = .settled ((Rule.binary level).read eof ts) := by
  show _ = Attempt.settled ((binary eof level ts).map Parsed.pair)
  cases level with
  | zero =>
      rw [binary]
      exact h.lower .unary (by decide)
  | succ level =>
      rw [binary]
      apply settled_bind (h.lower (.binary level) (Nat.lt_succ_self _))
      intro left
      have hrank : (Rule.binaryTail level left.value).rank < (Rule.binary (level + 1)).rank + 16 := by
        simp only [Rule.rank]
        omega
      exact settled_last (h.shorter _ left.shorter hrank) fun _ => rfl

theorem body_binaryTail {level : Nat} {left : Expr} (h : (Rule.binaryTail level left).Answered eof ask ts) :
    (Rule.binaryTail level left).body eof ask ts = .settled ((Rule.binaryTail level left).read eof ts) := by
  show _ = Attempt.settled ((binaryTail eof level left ts).map Trail.pair)
  cases ts with
  | nil =>
      rw [binaryTail]
      rfl
  | cons t rest =>
      rw [binaryTail, Rule.body]
      cases t.kind.binaryOpAt? (level + 1) with
      | none => rfl
      | some op =>
          have hrank : (Rule.binary level).rank < (Rule.binaryTail level left).rank + 16 := by
            simp only [Rule.rank]
            omega
          apply settled_bind (h.tail (.binary level) hrank)
          intro right
          have hround : ∀ joined, (Rule.binaryTail level joined).rank < (Rule.binaryTail level left).rank + 16 := by
            intro joined
            simp only [Rule.rank]
            omega
          exact settled_last (h.shorter _ (right.shorter_cons t) (hround _)) fun _ => rfl

theorem body_unary (h : Rule.unary.Answered eof ask ts) :
    Rule.unary.body eof ask ts = .settled (Rule.unary.read eof ts) := by
  show _ = Attempt.settled ((unary eof ts).map Parsed.pair)
  cases ts with
  | nil =>
      rw [unary]
      exact h.lower .call (by decide)
  | cons t rest =>
      rw [unary, Rule.body]
      cases t.kind.unaryOp? with
      | none => exact h.lower .call (by decide)
      | some op =>
          cases hleast : leastNumber? op rest with
          | some literal => simp only [hleast]; rfl
          | none =>
              simp only [hleast]
              apply settled_bind (h.tail .unary (by decide))
              intro operand
              rfl

theorem body_call (h : Rule.call.Answered eof ask ts) :
    Rule.call.body eof ask ts = .settled (Rule.call.read eof ts) := by
  show _ = Attempt.settled ((call eof ts).map Parsed.pair)
  rw [call]
  apply settled_bind (h.lower .atom (by decide))
  intro func
  exact settled_last (h.shorter (.callTail func.value) func.shorter (by simp [Rule.rank])) fun _ => rfl

theorem body_callTail {func : Expr} (h : (Rule.callTail func).Answered eof ask ts) :
    (Rule.callTail func).body eof ask ts = .settled ((Rule.callTail func).read eof ts) := by
  show _ = Attempt.settled ((callTail eof func ts).map Trail.pair)
  cases ts with
  | nil =>
      rw [callTail]
      rfl
  | cons t rest =>
      rw [callTail, Rule.body]
      by_cases hopen : t.kind = .sym .leftParen
      · rw [if_pos hopen, if_pos hopen]
        apply settled_bind (h.tail .arguments (by simp [Rule.rank]))
        intro args
        apply settled_bind rfl
        intro close
        have hshorter : close.rest.length < (t :: rest).length :=
          Nat.lt_succ_of_lt (Nat.lt_of_lt_of_le close.shorter args.noLonger)
        exact settled_last (h.shorter (.callTail _) hshorter (by simp [Rule.rank])) fun _ => rfl
      · rw [if_neg hopen, if_neg hopen]
        rfl

theorem body_arguments (h : Rule.arguments.Answered eof ask ts) :
    Rule.arguments.body eof ask ts = .settled (Rule.arguments.read eof ts) := by
  show _ = Attempt.settled ((arguments eof ts).map Trail.pair)
  rw [arguments, Rule.body]
  by_cases hclose : nextIs (.sym .rightParen) ts = true
  · rw [if_pos hclose, if_pos hclose]
    rfl
  · rw [if_neg hclose, if_neg hclose]
    exact settled_last (h.lower .argumentList (by decide)) fun _ => rfl

/-- What the parser does after the first item of a run of items with commas between them. -/
def itemsAfter (first : Parsed β ts) (more : (rest : List Token) → Except Fault (Parsed (List β) rest)) :
    Except Fault (Parsed (List β) ts) :=
  match hrest : first.rest with
  | t :: rest =>
    if t.kind = .sym .comma then
      if nextIs (.sym .rightParen) rest then .ok ⟨[first.value], rest, first.tail_shorter hrest⟩
      else do
        let items ← more rest
        return ⟨first.value :: items.value, items.rest, Nat.lt_trans items.shorter (first.tail_shorter hrest)⟩
    else .ok ⟨[first.value], t :: rest, first.shorter_of_eq hrest⟩
  | [] => .ok ⟨[first.value], [], first.shorter_of_eq hrest⟩

theorem commaTail_eq {first : Parsed β ts} {next : List Token → Attempt (List β × List Token)}
    {more : (rest : List Token) → Except Fault (Parsed (List β) rest)}
    (h : ∀ rest, rest.length < ts.length → next rest = .settled ((more rest).map Parsed.pair)) :
    commaTail first.value next first.rest = .settled ((itemsAfter first more).map Parsed.pair) := by
  obtain ⟨value, left, hleft⟩ := first
  cases left with
  | nil => rfl
  | cons t rest =>
      simp only [commaTail, itemsAfter]
      by_cases hcomma : t.kind = .sym .comma
      · rw [if_pos hcomma, if_pos hcomma]
        by_cases hclose : nextIs (.sym .rightParen) rest = true
        · rw [if_pos hclose, if_pos hclose]
          rfl
        · rw [if_neg hclose, if_neg hclose]
          apply settled_bind (h rest (Nat.lt_trans (Nat.lt_succ_self _) hleft))
          intro items
          rfl
      · rw [if_neg hcomma, if_neg hcomma]
        rfl

theorem argumentList_eq (eof : Position) (ts : List Token) :
    argumentList eof ts = expression eof ts >>= fun first => itemsAfter first (argumentList eof) := by
  rw [argumentList]
  rfl

theorem body_argumentList (h : Rule.argumentList.Answered eof ask ts) :
    Rule.argumentList.body eof ask ts = .settled (Rule.argumentList.read eof ts) := by
  show _ = Attempt.settled ((argumentList eof ts).map Parsed.pair)
  rw [argumentList_eq]
  apply settled_bind (h.lower .expression (by decide))
  intro first
  apply commaTail_eq
  intro rest hrest
  exact h.shorter .argumentList hrest (by decide)

theorem body_atom (h : Rule.atom.Answered eof ask ts) :
    Rule.atom.body eof ask ts = .settled (Rule.atom.read eof ts) := by
  show _ = Attempt.settled ((atom eof ts).map Parsed.pair)
  cases ts with
  | nil =>
      rw [atom]
      rfl
  | cons t rest =>
      rw [atom, Rule.body]
      cases t.kind with
      | int n =>
          by_cases hlt : n < signBound
          · simp only [if_pos hlt]
            rfl
          · simp only [if_neg hlt]
            rfl
      | kw word => cases word <;> rfl
      | sym s =>
          by_cases hopen : s = .leftParen
          · subst hopen
            apply settled_bind (h.tail .expression (by decide))
            intro inner
            apply settled_bind rfl
            intro close
            rfl
          · cases s <;> first | rfl | exact absurd rfl hopen
      | _ => rfl

/-! ### Simple statements -/

theorem body_assignmentTail {value : Expr} (h : (Rule.assignmentTail value).Answered eof ask ts) :
    (Rule.assignmentTail value).body eof ask ts = .settled ((Rule.assignmentTail value).read eof ts) := by
  show _ = Attempt.settled ((assignmentTail eof value ts).map Trail.pair)
  cases ts with
  | nil =>
      rw [assignmentTail]
      rfl
  | cons t rest =>
      rw [assignmentTail, Rule.body]
      by_cases hequal : t.kind = .sym .equal
      · rw [if_pos hequal, if_pos hequal]
        apply settled_bind (settled_id _)
        intro target
        apply settled_bind (h.tail .expression (by simp [Rule.rank, BinaryOp.loosest]))
        intro next
        apply settled_bind (h.shorter (.assignmentTail next.value) (next.shorter_cons t) (by simp [Rule.rank]))
        intro more
        rfl
      · rw [if_neg hequal, if_neg hequal]
        rfl

theorem body_expressionStatement (h : Rule.expressionStatement.Answered eof ask ts) :
    Rule.expressionStatement.body eof ask ts = .settled (Rule.expressionStatement.read eof ts) := by
  show _ = Attempt.settled ((expressionStatement eof ts).map Parsed.pair)
  rw [expressionStatement]
  apply settled_bind (h.lower .expression (by decide))
  intro first
  cases haug : augmented? first.rest with
  | some op =>
      simp only [Parsed.pair, haug]
      apply settled_bind (settled_id _)
      intro target
      apply settled_bind (h.shorter .expression (Nat.lt_trans op.shorter first.shorter) (by decide))
      intro value
      rfl
  | none =>
      simp only [Parsed.pair, haug]
      apply settled_bind (h.shorter (.assignmentTail first.value) first.shorter (by simp [Rule.rank]))
      intro whole
      rfl

theorem body_simpleStatement (h : Rule.simpleStatement.Answered eof ask ts) :
    Rule.simpleStatement.body eof ask ts = .settled (Rule.simpleStatement.read eof ts) := by
  show _ = Attempt.settled ((simpleStatement eof ts).map Parsed.pair)
  cases ts with
  | nil => exact h.lower .expressionStatement (by decide)
  | cons t rest =>
      rw [simpleStatement, Rule.body]
      by_cases hpass : t.kind = .kw .pass_
      · rw [if_pos hpass, if_pos hpass]
        rfl
      rw [if_neg hpass, if_neg hpass]
      by_cases hreturn : t.kind = .kw .return_
      · rw [if_pos hreturn, if_pos hreturn]
        by_cases hbare : (nextIs .newline rest || nextIs (.sym .semicolon) rest) = true
        · rw [if_pos hbare, if_pos hbare]
          rfl
        · rw [if_neg hbare, if_neg hbare]
          apply settled_bind (h.tail .expression (by decide))
          intro value
          rfl
      · rw [if_neg hreturn, if_neg hreturn]
        exact h.lower .expressionStatement (by decide)

theorem body_simpleTail (h : Rule.simpleTail.Answered eof ask ts) :
    Rule.simpleTail.body eof ask ts = .settled (Rule.simpleTail.read eof ts) := by
  show _ = Attempt.settled ((simpleTail eof ts).map Trail.pair)
  cases ts with
  | nil =>
      rw [simpleTail]
      rfl
  | cons t rest =>
      rw [simpleTail, Rule.body]
      by_cases hsemicolon : t.kind = .sym .semicolon
      · rw [if_pos hsemicolon, if_pos hsemicolon]
        by_cases hend : nextIs .newline rest = true
        · rw [if_pos hend, if_pos hend]
          rfl
        · rw [if_neg hend, if_neg hend]
          apply settled_bind (h.tail .simpleStatement (by decide))
          intro stmt
          apply settled_bind (h.shorter .simpleTail (stmt.shorter_cons t) (by decide))
          intro more
          rfl
      · rw [if_neg hsemicolon, if_neg hsemicolon]
        rfl

theorem body_simpleStatements (h : Rule.simpleStatements.Answered eof ask ts) :
    Rule.simpleStatements.body eof ask ts = .settled (Rule.simpleStatements.read eof ts) := by
  show _ = Attempt.settled ((simpleStatements eof ts).map Parsed.pair)
  rw [simpleStatements]
  apply settled_bind (h.lower .simpleStatement (by decide))
  intro first
  apply settled_bind (h.shorter .simpleTail first.shorter (by decide))
  intro more
  apply settled_bind rfl
  intro close
  rfl

/-! ### Compound statements -/

theorem parameterNames_eq (eof : Position) (ts : List Token) :
    parameterNames eof ts =
      expectIdentifier eof .parameterList ts >>= fun first => itemsAfter first (parameterNames eof) := by
  rw [parameterNames]
  rfl

theorem body_parameterNames (h : Rule.parameterNames.Answered eof ask ts) :
    Rule.parameterNames.body eof ask ts = .settled (Rule.parameterNames.read eof ts) := by
  show _ = Attempt.settled ((parameterNames eof ts).map Parsed.pair)
  rw [parameterNames_eq]
  apply settled_bind rfl
  intro first
  apply commaTail_eq
  intro rest hrest
  exact h.shorter .parameterNames hrest (by decide)

theorem body_parameters (h : Rule.parameters.Answered eof ask ts) :
    Rule.parameters.body eof ask ts = .settled (Rule.parameters.read eof ts) := by
  show _ = Attempt.settled ((parameters eof ts).map Trail.pair)
  rw [parameters, Rule.body]
  by_cases hclose : nextIs (.sym .rightParen) ts = true
  · rw [if_pos hclose, if_pos hclose]
    rfl
  · rw [if_neg hclose, if_neg hclose]
    exact settled_last (h.lower .parameterNames (by decide)) fun _ => rfl

theorem body_signature (h : Rule.signature.Answered eof ask ts) :
    Rule.signature.body eof ask ts = .settled (Rule.signature.read eof ts) := by
  show _ = Attempt.settled ((signature eof ts).map Parsed.pair)
  rw [signature]
  apply settled_bind rfl
  intro name
  apply settled_bind rfl
  intro opened
  apply settled_bind (h.shorter .parameters (Nat.lt_trans opened.shorter name.shorter) (by decide))
  intro params
  apply settled_bind rfl
  intro closed
  rfl

theorem body_statementLine (h : Rule.statementLine.Answered eof ask ts) :
    Rule.statementLine.body eof ask ts = .settled (Rule.statementLine.read eof ts) := by
  show _ = Attempt.settled ((statementLine eof ts).map Parsed.pair)
  cases ts with
  | nil =>
      rw [statementLine]
      exact h.lower .simpleStatements (by decide)
  | cons t rest =>
      have hsimple := h.lower .simpleStatements (by decide)
      rw [statementLine, Rule.body]
      cases t.kind with
      | kw word =>
          cases word with
          | def_ =>
              apply settled_bind (h.tail .signature (by decide))
              intro head
              apply settled_bind (h.shorter (.block .functionDefinition) (head.shorter_cons t) (by decide))
              intro body
              rfl
          | if_ =>
              apply settled_bind (h.tail (.conditional t.span.start) (by simp [Rule.rank]))
              intro stmt
              rfl
          | while_ =>
              apply settled_bind (h.tail .expression (by decide))
              intro test
              apply settled_bind (h.shorter (.block .whileStatement) (test.shorter_cons t) (by decide))
              intro body
              rfl
          | _ => exact hsimple
      | indent => rfl
      | _ => exact hsimple

theorem body_conditional {start : Position} (h : (Rule.conditional start).Answered eof ask ts) :
    (Rule.conditional start).body eof ask ts = .settled ((Rule.conditional start).read eof ts) := by
  show _ = Attempt.settled ((conditional eof start ts).map Parsed.pair)
  rw [conditional]
  apply settled_bind (h.lower .expression (by simp [Rule.rank, BinaryOp.loosest]))
  intro test
  apply settled_bind (h.shorter (.block .ifStatement) test.shorter (by simp [Rule.rank]))
  intro body
  apply settled_bind (h.shorter .alternative (Nat.lt_trans body.shorter test.shorter) (by simp [Rule.rank]))
  intro other
  rfl

theorem body_alternative (h : Rule.alternative.Answered eof ask ts) :
    Rule.alternative.body eof ask ts = .settled (Rule.alternative.read eof ts) := by
  show _ = Attempt.settled ((alternative eof ts).map Trail.pair)
  cases ts with
  | nil =>
      rw [alternative]
      rfl
  | cons t rest =>
      rw [alternative, Rule.body]
      cases t.kind with
      | kw word =>
          cases word with
          | elif_ =>
              apply settled_bind (h.tail (.conditional t.span.start) (by simp [Rule.rank]))
              intro stmt
              rfl
          | else_ => exact settled_last (h.tail (.block .elseClause) (by decide)) fun _ => rfl
          | _ => rfl
      | _ => rfl

theorem body_block {context : Context} (h : (Rule.block context).Answered eof ask ts) :
    (Rule.block context).body eof ask ts = .settled ((Rule.block context).read eof ts) := by
  show _ = Attempt.settled ((block eof context ts).map Parsed.pair)
  rw [block]
  apply settled_bind rfl
  intro colon
  by_cases hnewline : nextIs .newline colon.rest = true
  · simp only [Parsed.pair, hnewline, if_true]
    apply settled_bind rfl
    intro opened
    have htail : colon.rest.tail.length ≤ colon.rest.length := by simp
    have hshorter := Nat.lt_trans (Nat.lt_of_lt_of_le opened.shorter htail) colon.shorter
    apply settled_bind (h.shorter .blockLines hshorter (by simp [Rule.rank]))
    intro body
    apply settled_bind rfl
    intro closed
    rfl
  · simp only [Parsed.pair, hnewline]
    exact settled_last (h.shorter .simpleStatements colon.shorter (by simp [Rule.rank])) fun _ => rfl

theorem body_blockLines (h : Rule.blockLines.Answered eof ask ts) :
    Rule.blockLines.body eof ask ts = .settled (Rule.blockLines.read eof ts) := by
  show _ = Attempt.settled ((blockLines eof ts).map Trail.pair)
  rw [blockLines, Rule.body]
  by_cases hend : (nextIs .dedent ts || nextIs .eof ts) = true
  · rw [if_pos hend, if_pos hend]
    rfl
  · rw [if_neg hend, if_neg hend]
    apply settled_bind (h.lower .statementLine (by decide))
    intro line
    apply settled_bind (h.shorter .blockLines line.shorter (by decide))
    intro more
    rfl

theorem body_moduleLines (h : Rule.moduleLines.Answered eof ask ts) :
    Rule.moduleLines.body eof ask ts = .settled (Rule.moduleLines.read eof ts) := by
  show _ = Attempt.settled ((moduleLines eof ts).map Trail.pair)
  cases ts with
  | nil =>
      rw [moduleLines]
      rfl
  | cons t rest =>
      rw [moduleLines, Rule.body]
      by_cases heof : t.kind = .eof
      · rw [if_pos heof, if_pos heof]
        rfl
      rw [if_neg heof, if_neg heof]
      by_cases hnewline : t.kind = .newline
      · rw [if_pos hnewline, if_pos hnewline]
        exact settled_last (h.tail .moduleLines (by decide)) fun _ => rfl
      · rw [if_neg hnewline, if_neg hnewline]
        apply settled_bind (h.lower .statementLine (by decide))
        intro line
        apply settled_bind (h.shorter .moduleLines line.shorter (by decide))
        intro more
        rfl

/-- **One rule.** With its calls answered as the parser answers them, a rule gives what the parser gives. -/
theorem Rule.body_eq (rule : Rule α) (h : rule.Answered eof ask ts) :
    rule.body eof ask ts = .settled (rule.read eof ts) := by
  cases rule with
  | expression => exact body_expression h
  | comparisons => exact body_comparisons h
  | binary => exact body_binary h
  | binaryTail => exact body_binaryTail h
  | unary => exact body_unary h
  | call => exact body_call h
  | callTail => exact body_callTail h
  | arguments => exact body_arguments h
  | argumentList => exact body_argumentList h
  | atom => exact body_atom h
  | assignmentTail => exact body_assignmentTail h
  | expressionStatement => exact body_expressionStatement h
  | simpleStatement => exact body_simpleStatement h
  | simpleTail => exact body_simpleTail h
  | simpleStatements => exact body_simpleStatements h
  | parameterNames => exact body_parameterNames h
  | parameters => exact body_parameters h
  | signature => exact body_signature h
  | statementLine => exact body_statementLine h
  | conditional => exact body_conditional h
  | alternative => exact body_alternative h
  | block => exact body_block h
  | blockLines => exact body_blockLines h
  | moduleLines => exact body_moduleLines h

end Body

/-- **The parser's calls end.** Nested as deep as the depth of a rule allows, its calls all return, with what
    the parser gives. -/
theorem Rule.within_eq (eof : Position) (depth : Nat) {α : Type} (rule : Rule α) (ts : List Token)
    (h : rule.depth ts ≤ depth) : rule.within eof depth ts = .settled (rule.read eof ts) := by
  induction depth generalizing α ts with
  | zero => exact absurd h (Nat.not_succ_le_zero _)
  | succ depth ih =>
      apply Rule.body_eq
      intro β called rest hcalled
      exact ih called rest (Nat.le_of_lt_succ (Nat.lt_of_lt_of_le hcalled h))

-- On no tokens the depth of an expression is 11, and no less will do: the fault is found in the atom.
example (eof : Position) : Rule.expression.within eof 10 [] = none := rfl

example (eof : Position) :
    Rule.expression.within eof 11 [] = Attempt.settled (.error ⟨.exhausted .expression, eof⟩) := rfl

end Offside.Tree
