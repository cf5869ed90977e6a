import Offside.Proofs.Nodes
import Offside.Tree.Statement

/-!
# `Proofs.Origins` — where the places of a tree come from

A node of a tree starts where one of its tokens starts, and the parser blames such a place, or the end of the file. So a
property `P` of places that holds of the starts of all tokens and of the end of the file holds of every place that the
parser blames and of the start of every node that it makes (`meets_parseModule`). `Meets` is the contract that the
functions of the parser share, one theorem each.
-/

namespace Offside

variable {P : Position → Prop}

/-- Two spans joined start where one of them does. -/
theorem Span.start_join {a b : Span} (ha : P a.start) (hb : P b.start) : P (a.join b).start := by
  unfold Span.join
  split
  · exact ha
  · dsimp only
    split
    · exact ha
    · exact hb

namespace Tree

/-! ## The contract -/

/-- Every token starts at a place with the property. -/
def Placed (P : Position → Prop) (ts : List Token) : Prop := ∀ t ∈ ts, P t.span.start

/-- **The contract of a reading.** A fault blames a place with the property, and a result satisfies `Q`. -/
def Meets {α : Type} (P : Position → Prop) (Q : α → Prop) : Except Fault α → Prop
  | .error f => P f.loc
  | .ok a => Q a

variable {α β : Type} {ts rest : List Token} {t : Token} {eof : Position}

/-- **Sequencing.** A fault of either reading is one of the whole. -/
theorem Meets.bind {Q : α → Prop} {R : β → Prop} {x : Except Fault α} {f : α → Except Fault β} (hx : Meets P Q x)
    (hf : ∀ a, Q a → Meets P R (f a)) : Meets P R (x >>= f) := by
  cases x with
  | error e => exact hx
  | ok a => exact hf a hx

theorem Placed.head (h : Placed P (t :: rest)) : P t.span.start := h t List.mem_cons_self

theorem Placed.tail (h : Placed P (t :: rest)) : Placed P rest := fun u hu => h u (List.mem_cons_of_mem t hu)

/-- The token that stands in the way is blamed, or the end of the file where there is none. -/
theorem meets_expect (heof : P eof) (hts : Placed P ts) (k : Token.Kind) (context : Context) :
    Meets P (fun p => Placed P p.rest) (expect eof k context ts) := by
  cases ts with
  | nil => exact heof
  | cons t ts =>
      rw [expect]
      split
      · exact hts.tail
      · exact hts.head

/-- As `meets_expect`, for a name. -/
theorem meets_expectIdentifier (heof : P eof) (hts : Placed P ts) (context : Context) :
    Meets P (fun p => Placed P p.rest) (expectIdentifier eof context ts) := by
  cases ts with
  | nil => exact heof
  | cons t ts =>
      rw [expectIdentifier]
      split
      · exact hts.tail
      · exact hts.head

/-! ## Expressions -/

/-- What is read has the property, and so have the tokens that are left. -/
def ExprIn (P : Position → Prop) (e : Expr) (rest : List Token) : Prop := e.StartsIn P ∧ Placed P rest

/-- All that is read has the property, and so have the tokens that are left. -/
def ExprsIn (P : Position → Prop) (es : List Expr) (rest : List Token) : Prop :=
  (∀ e ∈ es, e.StartsIn P) ∧ Placed P rest

/-- A chain of comparisons starts where its first operand or its last one does. -/
theorem startsIn_comparisonOf {left : Expr} {pairs : List (CompareOp × Expr)} (hleft : left.StartsIn P)
    (hpairs : ∀ e ∈ pairs.map (·.2), e.StartsIn P) : (comparisonOf left pairs).StartsIn P := by
  unfold comparisonOf
  split
  · exact hleft
  · next last hlast =>
      have hmem := hpairs last.2 (List.mem_map_of_mem (List.mem_of_getLast? hlast))
      rw [Expr.StartsIn]
      exact ⟨Span.start_join hleft.span hmem.span, hleft, Expr.StartsIn.all_iff.mpr hpairs⟩

-- The recursion and its measure are the parser's own: fewer tokens, or as many at a tighter level.
mutual

/-- **An expression** is a chain of comparisons, which may be of one operand only. -/
theorem meets_expression (heof : P eof) (ts : List Token) (hts : Placed P ts) :
    Meets P (fun p => ExprIn P p.value p.rest) (expression eof ts) := by
  rw [expression]
  refine Meets.bind (meets_binary heof BinaryOp.loosest ts hts) fun left hleft => ?_
  have hshorter := left.shorter
  refine Meets.bind (meets_comparisons heof left.rest hleft.2) fun pairs hpairs => ?_
  exact ⟨startsIn_comparisonOf hleft.1 hpairs.1, hpairs.2⟩
termination_by (ts.length, BinaryOp.loosest + 4)
decreasing_by
  · exact .right _ (Nat.lt_succ_self _)
  · exact .left _ _ hshorter

/-- The operands of the comparisons that follow. -/
theorem meets_comparisons (heof : P eof) (ts : List Token) (hts : Placed P ts) :
    Meets P (fun p => ExprsIn P (p.value.map (·.2)) p.rest) (comparisons eof ts) := by
  match ts with
  | [] =>
      rw [comparisons]
      exact ⟨fun e he => absurd he List.not_mem_nil, hts⟩
  | t :: rest =>
      rw [comparisons]
      split
      · exact ⟨fun e he => absurd he List.not_mem_nil, hts⟩
      · refine Meets.bind (meets_binary heof BinaryOp.loosest rest hts.tail) fun right hright => ?_
        have hshorter := right.shorter
        refine Meets.bind (meets_comparisons heof right.rest hright.2) fun more hmore => ?_
        exact ⟨List.forall_mem_cons.mpr ⟨hright.1, hmore.1⟩, hmore.2⟩
termination_by (ts.length, 0)
decreasing_by
  · exact .left _ _ (Nat.lt_succ_self _)
  · exact .left _ _ (Nat.lt_succ_of_lt hshorter)

/-- The operands of a level are of the level below, down to the unary operators. -/
theorem meets_binary (heof : P eof) (level : Nat) (ts : List Token) (hts : Placed P ts) :
    Meets P (fun p => ExprIn P p.value p.rest) (binary eof level ts) := by
  match level with
  | 0 =>
      rw [binary]
      exact meets_unary heof ts hts
  | level + 1 =>
      rw [binary]
      refine Meets.bind (meets_binary heof level ts hts) fun left hleft => ?_
      have hshorter := left.shorter
      refine Meets.bind (meets_binaryTail heof level left.value left.rest hleft) fun whole hwhole => ?_
      exact hwhole
termination_by (ts.length, level + 3)
decreasing_by
  · exact .right _ (Nat.lt_succ_self _)
  · exact .right _ (Nat.lt_succ_self _)
  · exact .left _ _ hshorter

/-- **The loop of one level**: what has been read on the left stays in place as more is joined to it. -/
theorem meets_binaryTail (heof : P eof) (level : Nat) (left : Expr) (ts : List Token) (h : ExprIn P left ts) :
    Meets P (fun p => ExprIn P p.value p.rest) (binaryTail eof level left ts) := by
  match ts with
  | [] =>
      rw [binaryTail]
      exact h
  | t :: rest =>
      rw [binaryTail]
      split
      · exact h
      · next op _ =>
          refine Meets.bind (meets_binary heof level rest h.2.tail) fun right hright => ?_
          have hshorter := right.shorter
          have hjoined : (Expr.binary (left.span.join right.value.span) left op right.value).StartsIn P := by
            rw [Expr.StartsIn]
            exact ⟨Span.start_join h.1.span hright.1.span, h.1, hright.1⟩
          refine Meets.bind (meets_binaryTail heof level _ right.rest ⟨hjoined, hright.2⟩) fun whole hwhole => ?_
          exact hwhole
termination_by (ts.length, 0)
decreasing_by
  · exact .left _ _ (Nat.lt_succ_self _)
  · exact .left _ _ (Nat.lt_succ_of_lt hshorter)

/-- A unary operator starts its node. So does the sign of the least number, which has no node of its own. -/
theorem meets_unary (heof : P eof) (ts : List Token) (hts : Placed P ts) :
    Meets P (fun p => ExprIn P p.value p.rest) (unary eof ts) := by
  match ts with
  | [] =>
      rw [unary]
      exact meets_call heof [] hts
  | t :: rest =>
      rw [unary]
      split
      · exact meets_call heof (t :: rest) hts
      · split
        · next literal hliteral =>
            -- the sign and the literal make one node, which starts at the sign
            cases rest with
            | nil => exact absurd hliteral (by simp [leastNumber?])
            | cons t' rest =>
                rw [leastNumber?] at hliteral
                split at hliteral
                · cases hliteral
                  refine ⟨?_, hts.tail.tail⟩
                  rw [Expr.StartsIn]
                  exact hts.head
                · exact absurd hliteral (by simp)
        · refine Meets.bind (meets_unary heof rest hts.tail) fun operand hoperand => ?_
          refine ⟨?_, hoperand.2⟩
          rw [Expr.StartsIn]
          exact ⟨hts.head, hoperand.1⟩
termination_by (ts.length, 2)
decreasing_by
  · exact .right _ (Nat.lt_succ_self _)
  · exact .right _ (Nat.lt_succ_self _)
  · exact .left _ _ (Nat.lt_succ_self _)

theorem meets_call (heof : P eof) (ts : List Token) (hts : Placed P ts) :
    Meets P (fun p => ExprIn P p.value p.rest) (call eof ts) := by
  rw [call]
  refine Meets.bind (meets_atom heof ts hts) fun func hfunc => ?_
  have hshorter := func.shorter
  refine Meets.bind (meets_callTail heof func.value func.rest hfunc) fun whole hwhole => ?_
  exact hwhole
termination_by (ts.length, 1)
decreasing_by
  · exact .right _ Nat.zero_lt_one
  · exact .left _ _ hshorter

/-- A call starts where the function that is called does. -/
theorem meets_callTail (heof : P eof) (func : Expr) (ts : List Token) (h : ExprIn P func ts) :
    Meets P (fun p => ExprIn P p.value p.rest) (callTail eof func ts) := by
  match ts with
  | [] =>
      rw [callTail]
      exact h
  | t :: rest =>
      rw [callTail]
      split
      · refine Meets.bind (meets_arguments heof rest h.2.tail) fun args hargs => ?_
        have hnoLonger := args.noLonger
        refine Meets.bind (meets_expect heof hargs.2 _ _) fun close hclose => ?_
        have hshorter := close.shorter
        have hjoined : (Expr.call ⟨func.span.start, close.value.span.stop⟩ func args.value).StartsIn P := by
          rw [Expr.StartsIn]
          exact ⟨h.1.span, h.1, Expr.StartsIn.all_iff.mpr hargs.1⟩
        refine Meets.bind (meets_callTail heof _ close.rest ⟨hjoined, hclose⟩) fun whole hwhole => ?_
        exact hwhole
      · exact h
termination_by (ts.length, 0)
decreasing_by
  · exact .left _ _ (Nat.lt_succ_self _)
  · exact .left _ _ (Nat.lt_succ_of_lt (Nat.lt_of_lt_of_le hshorter hnoLonger))

theorem meets_arguments (heof : P eof) (ts : List Token) (hts : Placed P ts) :
    Meets P (fun p => ExprsIn P p.value p.rest) (arguments eof ts) := by
  rw [arguments]
  split
  · exact ⟨fun e he => absurd he List.not_mem_nil, hts⟩
  · exact Meets.bind (meets_argumentList heof ts hts) fun args hargs => hargs
termination_by (ts.length, BinaryOp.loosest + 6)
decreasing_by exact .right _ (Nat.lt_succ_self _)

/-- Arguments are read up to the parenthesis, whether or not a comma stands in front of it. -/
theorem meets_argumentList (heof : P eof) (ts : List Token) (hts : Placed P ts) :
    Meets P (fun p => ExprsIn P p.value p.rest) (argumentList eof ts) := by
  rw [argumentList]
  refine Meets.bind (meets_expression heof ts hts) fun first hfirst => ?_
  have hshorter := first.shorter
  obtain ⟨hvalue, hplaced⟩ := hfirst
  have hsingle : ∀ e ∈ [first.value], e.StartsIn P := fun e he => List.mem_singleton.mp he ▸ hvalue
  split
  · next t rest hrest =>
      rw [hrest] at hplaced hshorter
      split
      · split
        · exact ⟨hsingle, hplaced.tail⟩
        · have hlt : rest.length < ts.length := Nat.lt_of_succ_lt hshorter
          refine Meets.bind (meets_argumentList heof rest hplaced.tail) fun more hmore => ?_
          exact ⟨List.forall_mem_cons.mpr ⟨hvalue, hmore.1⟩, hmore.2⟩
      · exact ⟨hsingle, hplaced⟩
  · next hrest => exact ⟨hsingle, fun t ht => absurd ht List.not_mem_nil⟩
termination_by (ts.length, BinaryOp.loosest + 5)
decreasing_by
  · exact .right _ (Nat.lt_succ_self _)
  · exact .left _ _ hlt

/-- **An atom** starts at its token. A token that starts none, or a number too large, is blamed by its own place. -/
theorem meets_atom (heof : P eof) (ts : List Token) (hts : Placed P ts) :
    Meets P (fun p => ExprIn P p.value p.rest) (atom eof ts) := by
  match ts with
  | [] =>
      rw [atom]
      exact heof
  | t :: rest =>
      have hleaf : ∀ v : Constant, (Expr.const t.span v).StartsIn P := by
        intro v
        rw [Expr.StartsIn]
        exact hts.head
      rw [atom]
      split
      · split
        · exact ⟨hleaf _, hts.tail⟩
        · exact hts.head
      · exact ⟨hleaf _, hts.tail⟩
      · exact ⟨hleaf _, hts.tail⟩
      · exact ⟨hleaf _, hts.tail⟩
      · refine ⟨?_, hts.tail⟩
        rw [Parsed.token, Expr.StartsIn]
        exact hts.head
      · refine Meets.bind (meets_expression heof rest hts.tail) fun inner hinner => ?_
        refine Meets.bind (meets_expect heof hinner.2 _ _) fun close hclose => ?_
        -- the node between parentheses is made to start at the first of them
        exact ⟨hinner.1.withSpan hts.head, hclose⟩
      · exact hts.head
termination_by (ts.length, 0)
decreasing_by exact .left _ _ (Nat.lt_succ_self _)

end

/-! ## Statements -/

def StmtIn (P : Position → Prop) (st : Stmt) (rest : List Token) : Prop := st.StartsIn P ∧ Placed P rest

/-- As `ExprsIn`, for statements. -/
def StmtsIn (P : Position → Prop) (sts : List Stmt) (rest : List Token) : Prop :=
  Stmt.AllStartIn P sts ∧ Placed P rest

/-- A line may be one statement. -/
theorem StmtIn.single {st : Stmt} (h : StmtIn P st rest) : StmtsIn P [st] rest := by
  rw [StmtsIn, Stmt.AllStartIn, Stmt.AllStartIn]
  exact ⟨⟨h.1, trivial⟩, h.2⟩

theorem StmtIn.cons {st : Stmt} {sts : List Stmt} (h : st.StartsIn P) (hsts : StmtsIn P sts rest) :
    StmtsIn P (st :: sts) rest := by
  rw [StmtsIn, Stmt.AllStartIn]
  exact ⟨⟨h, hsts.1⟩, hsts.2⟩

/-- What cannot be assigned to is blamed by its own start. -/
theorem meets_asTarget {e : Expr} (h : e.StartsIn P) : Meets P (·.StartsIn P) (asTarget e) := by
  cases e with
  | name span id use =>
      rw [Expr.StartsIn] at h
      show (Expr.name span id .store).StartsIn P
      rw [Expr.StartsIn]
      exact h
  | _ => exact h.span

/-- The targets of an assignment are the expressions in front of its last `=`. -/
theorem meets_assignmentTail (heof : P eof) (value : Expr) (ts : List Token) (h : ExprIn P value ts) :
    Meets P (fun p => (∀ e ∈ p.value.1, e.StartsIn P) ∧ ExprIn P p.value.2 p.rest) (assignmentTail eof value ts) := by
  match ts with
  | [] =>
      rw [assignmentTail]
      exact ⟨fun e he => absurd he List.not_mem_nil, h⟩
  | t :: rest =>
      rw [assignmentTail]
      split
      · refine Meets.bind (meets_asTarget h.1) fun target htarget => ?_
        refine Meets.bind (meets_expression heof rest h.2.tail) fun next hnext => ?_
        have hshorter := next.shorter_cons t
        refine Meets.bind (meets_assignmentTail heof next.value next.rest hnext) fun more hmore => ?_
        exact ⟨List.forall_mem_cons.mpr ⟨htarget, hmore.1⟩, hmore.2⟩
      · exact ⟨fun e he => absurd he List.not_mem_nil, h⟩
termination_by ts.length
decreasing_by exact hshorter

/-- An assignment starts at its first target, and without a target at its value. -/
theorem startsIn_assignmentOf {targets : List Expr} {value : Expr} (htargets : ∀ e ∈ targets, e.StartsIn P)
    (hvalue : value.StartsIn P) : (assignmentOf targets value).StartsIn P := by
  unfold assignmentOf
  split
  · rw [Stmt.StartsIn]
    exact ⟨hvalue.span, hvalue⟩
  · next first _ =>
      rw [Stmt.StartsIn]
      exact ⟨Span.start_join (htargets first List.mem_cons_self).span hvalue.span, htargets, hvalue⟩

theorem placed_augmented {op : Parsed BinaryOp ts} (hts : Placed P ts) (h : augmented? ts = some op) :
    Placed P op.rest := by
  cases ts with
  | nil => exact absurd h (by simp [augmented?])
  | cons t ts =>
      obtain ⟨_, _, rfl⟩ := Option.map_eq_some_iff.mp h
      exact hts.tail

/-- An expression, an assignment, or an operator joined with one. -/
theorem meets_expressionStatement (heof : P eof) (ts : List Token) (hts : Placed P ts) :
    Meets P (fun p => StmtIn P p.value p.rest) (expressionStatement eof ts) := by
  unfold expressionStatement
  refine Meets.bind (meets_expression heof ts hts) fun first hfirst => ?_
  dsimp only
  split
  · next op hop =>
      refine Meets.bind (meets_asTarget hfirst.1) fun target htarget => ?_
      refine Meets.bind (meets_expression heof op.rest (placed_augmented hfirst.2 hop)) fun value hvalue => ?_
      refine ⟨?_, hvalue.2⟩
      rw [Stmt.StartsIn]
      exact ⟨Span.start_join htarget.span hvalue.1.span, htarget, hvalue.1⟩
  · refine Meets.bind (meets_assignmentTail heof first.value first.rest hfirst) fun whole hwhole => ?_
    exact ⟨startsIn_assignmentOf hwhole.1 hwhole.2.1, hwhole.2.2⟩

/-- `pass` and `return` start at their keyword. -/
theorem meets_simpleStatement (heof : P eof) (ts : List Token) (hts : Placed P ts) :
    Meets P (fun p => StmtIn P p.value p.rest) (simpleStatement eof ts) := by
  match ts with
  | [] => exact meets_expressionStatement heof [] hts
  | t :: rest =>
      have hret : ∀ {span : Span} {value : Option Expr}, span.start = t.span.start → (∀ e ∈ value, e.StartsIn P) →
          (Stmt.ret span value).StartsIn P := by
        intro span value hspan hvalue
        rw [Stmt.StartsIn, hspan]
        exact ⟨hts.head, hvalue⟩
      rw [simpleStatement]
      split
      · refine ⟨?_, hts.tail⟩
        rw [Parsed.token, Stmt.StartsIn]
        exact hts.head
      split
      · split
        · exact ⟨hret rfl fun e he => absurd he (by simp), hts.tail⟩
        · refine Meets.bind (meets_expression heof rest hts.tail) fun value hvalue => ?_
          refine ⟨hret rfl fun e he => ?_, hvalue.2⟩
          rw [← Option.mem_some_iff.mp he]
          exact hvalue.1
      · exact meets_expressionStatement heof (t :: rest) hts

/-- Statements of one line are parted by semicolons. -/
theorem meets_simpleTail (heof : P eof) (ts : List Token) (hts : Placed P ts) :
    Meets P (fun p => StmtsIn P p.value p.rest) (simpleTail eof ts) := by
  match ts with
  | [] =>
      rw [simpleTail]
      exact ⟨trivial, hts⟩
  | t :: rest =>
      rw [simpleTail]
      split
      · split
        · exact ⟨trivial, hts.tail⟩
        · refine Meets.bind (meets_simpleStatement heof rest hts.tail) fun stmt hstmt => ?_
          have hshorter := stmt.shorter_cons t
          refine Meets.bind (meets_simpleTail heof stmt.rest hstmt.2) fun more hmore => ?_
          exact StmtIn.cons hstmt.1 hmore
      · exact ⟨trivial, hts⟩
termination_by ts.length
decreasing_by exact hshorter

theorem meets_simpleStatements (heof : P eof) (ts : List Token) (hts : Placed P ts) :
    Meets P (fun p => StmtsIn P p.value p.rest) (simpleStatements eof ts) := by
  unfold simpleStatements
  refine Meets.bind (meets_simpleStatement heof ts hts) fun first hfirst => ?_
  refine Meets.bind (meets_simpleTail heof first.rest hfirst.2) fun more hmore => ?_
  refine Meets.bind (meets_expect heof hmore.2 _ _) fun close hclose => ?_
  exact StmtIn.cons hfirst.1 ⟨hmore.1, hclose⟩

theorem meets_parameterNames (heof : P eof) (ts : List Token) (hts : Placed P ts) :
    Meets P (fun p => Placed P p.rest) (parameterNames eof ts) := by
  rw [parameterNames]
  refine Meets.bind (meets_expectIdentifier heof hts _) fun first hfirst => ?_
  have hshorter := first.shorter
  split
  · next t rest hrest =>
      rw [hrest] at hfirst hshorter
      split
      · split
        · exact hfirst.tail
        · have hlt : rest.length < ts.length := Nat.lt_of_succ_lt hshorter
          exact Meets.bind (meets_parameterNames heof rest hfirst.tail) fun more hmore => hmore
      · exact hfirst
  · exact fun t ht => absurd ht List.not_mem_nil
termination_by ts.length

/-- The head of a function has no nodes; what is missing from it is blamed. -/
theorem meets_signature (heof : P eof) (ts : List Token) (hts : Placed P ts) :
    Meets P (fun p => Placed P p.rest) (signature eof ts) := by
  unfold signature
  refine Meets.bind (meets_expectIdentifier heof hts _) fun name hname => ?_
  refine Meets.bind (meets_expect heof hname _ _) fun opened hopened => ?_
  have hparams : Meets P (fun p => Placed P p.rest) (parameters eof opened.rest) := by
    unfold parameters
    split
    · exact hopened
    · exact Meets.bind (meets_parameterNames heof opened.rest hopened) fun names hnames => hnames
  refine Meets.bind hparams fun params hparams => ?_
  exact Meets.bind (meets_expect heof hparams _ _) fun closed hclosed => hclosed

/-- A statement with a block starts at its keyword, whatever the block holds. -/
theorem start_blockSpan (start : Position) (body : List Stmt) : (blockSpan start body).start = start := by
  unfold blockSpan
  split <;> rfl

-- Again the parser's recursion: every block and every branch starts behind a token that has been read.
mutual

/-- **One line of statements**, or one statement with the blocks below it. -/
theorem meets_statementLine (heof : P eof) (ts : List Token) (hts : Placed P ts) :
    Meets P (fun p => StmtsIn P p.value p.rest) (statementLine eof ts) := by
  match ts with
  | [] =>
      rw [statementLine]
      exact meets_simpleStatements heof [] hts
  | t :: rest =>
      rw [statementLine]
      split
      · refine Meets.bind (meets_signature heof rest hts.tail) fun head hhead => ?_
        have hshorter := head.shorter
        refine Meets.bind (meets_block heof _ head.rest hhead) fun body hbody => ?_
        refine StmtIn.single ⟨?_, hbody.2⟩
        rw [Stmt.StartsIn, start_blockSpan]
        exact ⟨hts.head, hbody.1⟩
      · exact Meets.bind (meets_conditional heof t.span.start hts.head rest hts.tail) fun stmt hstmt => hstmt.single
      · refine Meets.bind (meets_expression heof rest hts.tail) fun test htest => ?_
        have hshorter := test.shorter
        refine Meets.bind (meets_block heof _ test.rest htest.2) fun body hbody => ?_
        refine StmtIn.single ⟨?_, hbody.2⟩
        rw [Stmt.StartsIn, start_blockSpan]
        exact ⟨hts.head, htest.1, hbody.1⟩
      · exact hts.head
      · exact meets_simpleStatements heof (t :: rest) hts
termination_by (ts.length, 0)
decreasing_by
  · exact .left _ _ (Nat.lt_succ_of_lt hshorter)
  · exact .left _ _ (Nat.lt_succ_self _)
  · exact .left _ _ (Nat.lt_succ_of_lt hshorter)

/-- A conditional starts at its `if` or `elif`, whose place is handed down. -/
theorem meets_conditional (heof : P eof) (start : Position) (hstart : P start) (ts : List Token) (hts : Placed P ts) :
    Meets P (fun p => StmtIn P p.value p.rest) (conditional eof start ts) := by
  rw [conditional]
  refine Meets.bind (meets_expression heof ts hts) fun test htest => ?_
  have hshorter := test.shorter
  refine Meets.bind (meets_block heof _ test.rest htest.2) fun body hbody => ?_
  have hshorter' := body.shorter
  refine Meets.bind (meets_alternative heof body.rest hbody.2) fun other hother => ?_
  refine ⟨?_, hother.2⟩
  rw [Stmt.StartsIn, start_blockSpan]
  exact ⟨hstart, htest.1, hbody.1, hother.1⟩
termination_by (ts.length, 0)
decreasing_by
  · exact .left _ _ hshorter
  · exact .left _ _ (Nat.lt_trans hshorter' hshorter)

theorem meets_alternative (heof : P eof) (ts : List Token) (hts : Placed P ts) :
    Meets P (fun p => StmtsIn P p.value p.rest) (alternative eof ts) := by
  match ts with
  | [] =>
      rw [alternative]
      exact ⟨trivial, hts⟩
  | t :: rest =>
      rw [alternative]
      split
      · exact Meets.bind (meets_conditional heof t.span.start hts.head rest hts.tail) fun stmt hstmt => hstmt.single
      · exact Meets.bind (meets_block heof _ rest hts.tail) fun body hbody => hbody
      · exact ⟨trivial, hts⟩
termination_by (ts.length, 0)
decreasing_by
  · exact .left _ _ (Nat.lt_succ_self _)
  · exact .left _ _ (Nat.lt_succ_self _)

/-- A block stands on the line of its colon, or on lines of its own one level deeper. -/
theorem meets_block (heof : P eof) (context : Context) (ts : List Token) (hts : Placed P ts) :
    Meets P (fun p => StmtsIn P p.value p.rest) (block eof context ts) := by
  rw [block]
  refine Meets.bind (meets_expect heof hts _ _) fun colon hcolon => ?_
  have hshorter := colon.shorter
  split
  · refine Meets.bind (meets_expect heof (fun t ht => hcolon t (List.mem_of_mem_tail ht)) _ _) fun opened hopened => ?_
    have hshorter' := opened.shorter
    have htail : colon.rest.tail.length ≤ colon.rest.length := by simp
    refine Meets.bind (meets_blockLines heof opened.rest hopened) fun body hbody => ?_
    refine Meets.bind (meets_expect heof hbody.2 _ _) fun closed hclosed => ?_
    exact ⟨hbody.1, hclosed⟩
  · exact Meets.bind (meets_simpleStatements heof colon.rest hcolon) fun body hbody => hbody
termination_by (ts.length, 0)
decreasing_by exact .left _ _ (Nat.lt_trans (Nat.lt_of_lt_of_le hshorter' htail) hshorter)

theorem meets_blockLines (heof : P eof) (ts : List Token) (hts : Placed P ts) :
    Meets P (fun p => StmtsIn P p.value p.rest) (blockLines eof ts) := by
  rw [blockLines]
  split
  · exact ⟨trivial, hts⟩
  · refine Meets.bind (meets_statementLine heof ts hts) fun line hline => ?_
    have hshorter := line.shorter
    refine Meets.bind (meets_blockLines heof line.rest hline.2) fun more hmore => ?_
    exact ⟨hline.1.append hmore.1, hmore.2⟩
termination_by (ts.length, 1)
decreasing_by
  · exact .right _ Nat.zero_lt_one
  · exact .left _ _ hshorter

end

/-! ## Modules -/

/-- The lines of a file. Newline tokens between them are passed over. -/
theorem meets_moduleLines (heof : P eof) (ts : List Token) (hts : Placed P ts) :
    Meets P (fun p => StmtsIn P p.value p.rest) (moduleLines eof ts) := by
  match ts with
  | [] =>
      rw [moduleLines]
      exact ⟨trivial, hts⟩
  | t :: rest =>
      rw [moduleLines]
      split
      · exact ⟨trivial, hts⟩
      split
      · exact Meets.bind (meets_moduleLines heof rest hts.tail) fun more hmore => hmore
      · refine Meets.bind (meets_statementLine heof (t :: rest) hts) fun line hline => ?_
        have hshorter := line.shorter
        refine Meets.bind (meets_moduleLines heof line.rest hline.2) fun more hmore => ?_
        exact ⟨hline.1.append hmore.1, hmore.2⟩
termination_by ts.length
decreasing_by
  · exact hshorter
  · exact Nat.lt_succ_self _

/-- **Places come from tokens.** Whatever holds of the places where tokens start and of the end of the file holds of
    every place that the parser blames, and of the starts of all nodes of a tree that it makes. -/
theorem meets_parseModule (heof : P (eofOf ts)) (hts : Placed P ts) :
    Meets P (fun m => Stmt.AllStartIn P m.body) (parseModule ts) := by
  unfold parseModule
  exact Meets.bind (meets_moduleLines heof ts hts) fun lines hlines => hlines.1

end Tree

end Offside
