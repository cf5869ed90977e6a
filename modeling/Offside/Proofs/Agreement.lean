import Mathlib.Data.List.Forall2
import Offside.Proofs.Blocks
import Offside.Proofs.Tracking

/-!
# `Proofs.Agreement` — places do not influence meaning

Let two token lists have the same kinds, and any spans whatsoever. The parser then reads the two in step: it makes
trees that are equal once their places are erased, and leaves lists that have the same kinds again, or it stops in both
for the same cause. `Agree` is this contract of two readings, and there is one theorem for each function of the parser,
up to `agree_parseModule`. With `generate_erase` it gives that places do not influence meaning
(`places_leave_no_trace`).
-/

namespace Offside.Tree

variable {α β γ δ : Type} {ts ts' rest rest' : List Token} {t t' : Token} {eof eof' : Position}

/-! ## Lists and readings that agree -/

/-- The lists have the same kinds of tokens, one by one. -/
abbrev Alike (ts ts' : List Token) : Prop := List.Forall₂ (fun t t' => t.kind = t'.kind) ts ts'

/-- **Two readings agree**: both have a result, and these are related, or both stop for the same cause. -/
def Agree (R : α → β → Prop) : Except Fault α → Except Fault β → Prop
  | .ok a, .ok b => R a b
  | .error e, .error e' => e.cause = e'.cause
  | _, _ => False

theorem Agree.bind {R : α → β → Prop} {S : γ → δ → Prop} {x : Except Fault α} {x' : Except Fault β}
    {f : α → Except Fault γ} {f' : β → Except Fault δ} (hx : Agree R x x') (hf : ∀ a b, R a b → Agree S (f a) (f' b)) :
    Agree S (x >>= f) (x' >>= f') := by
  cases x with
  | error e =>
      cases x' with
      | error e' => exact hx
      | ok b => exact hx.elim
  | ok a =>
      cases x' with
      | error e' => exact hx.elim
      | ok b => exact hf a b hx

/-- The values have the same view, and what is left to read is alike. -/
structure Parsed.Agrees (view : α → γ) (p : Parsed α ts) (p' : Parsed α ts') : Prop where
  value : view p.value = view p'.value
  rest : Alike p.rest p'.rest

structure Trail.Agrees (view : α → γ) (p : Trail α ts) (p' : Trail α ts') : Prop where
  value : view p.value = view p'.value
  rest : Alike p.rest p'.rest

theorem alike_of_map_kind (h : ts.map Token.kind = ts'.map Token.kind) : Alike ts ts' := by
  rw [← List.forall₂_eq_eq_eq, List.forall₂_map_left_iff, List.forall₂_map_right_iff] at h
  exact h

theorem nextIs_congr (h : Alike ts ts') (k : Token.Kind) : nextIs k ts = nextIs k ts' := by
  cases h with
  | nil => rfl
  | cons hkind _ => rw [nextIs, nextIs, hkind]

theorem alike_tail (h : Alike ts ts') : Alike ts.tail ts'.tail := by
  cases h with
  | nil => exact .nil
  | cons _ hrest => exact hrest

theorem cause_unexpected_congr (h : Alike ts ts') (eof eof' : Position) (wanted : Wanted) :
    (unexpected eof wanted ts).cause = (unexpected eof' wanted ts').cause := by
  cases h with
  | nil => rfl
  | cons hkind _ =>
      rw [unexpected, unexpected]
      exact congrArg (Cause.mismatch wanted) hkind

theorem agree_expect (h : Alike ts ts') (k : Token.Kind) (context : Context) :
    Agree (Parsed.Agrees Token.kind) (expect eof k context ts) (expect eof' k context ts') := by
  cases h with
  | nil => exact cause_unexpected_congr .nil eof eof' _
  | @cons t t' rest rest' hkind hrest =>
      rw [expect, expect, ← hkind]
      by_cases hk : t.kind = k
      · rw [if_pos hk, if_pos hk]
        exact ⟨hkind, hrest⟩
      · rw [if_neg hk, if_neg hk]
        exact cause_unexpected_congr (.cons hkind hrest) eof eof' _

theorem agree_expectIdentifier (h : Alike ts ts') (context : Context) :
    Agree (Parsed.Agrees id) (expectIdentifier eof context ts) (expectIdentifier eof' context ts') := by
  cases h with
  | nil => exact cause_unexpected_congr .nil eof eof' _
  | cons hkind hrest =>
      rw [expectIdentifier, expectIdentifier, ← hkind]
      split
      · exact ⟨rfl, hrest⟩
      · exact cause_unexpected_congr (.cons hkind hrest) eof eof' _

/-! ## Expressions -/

/-- Operators and operands of comparisons, without places. -/
def erasePairs (pairs : List (CompareOp × Expr)) : List (CompareOp × Expr) := pairs.map fun p => (p.1, p.2.erase)

theorem erase_comparisonOf_congr {left left' : Expr} {pairs pairs' : List (CompareOp × Expr)}
    (hleft : left.erase = left'.erase) (hpairs : erasePairs pairs = erasePairs pairs') :
    (comparisonOf left pairs).erase = (comparisonOf left' pairs').erase := by
  have hops : pairs.map (·.1) = pairs'.map (·.1) := by
    simpa [erasePairs, Function.comp_def] using congrArg (List.map (·.1)) hpairs
  have hes : (pairs.map (·.2)).map Expr.erase = (pairs'.map (·.2)).map Expr.erase := by
    simpa [erasePairs, Function.comp_def] using congrArg (List.map (·.2)) hpairs
  by_cases hnil : pairs = []
  · have hnil' : pairs' = [] := by
      rw [hnil] at hops
      exact List.map_eq_nil_iff.mp hops.symm
    rw [hnil, hnil']
    exact hleft
  · have hne : pairs' ≠ [] := by
      intro hnil'
      rw [hnil'] at hops
      exact hnil (List.map_eq_nil_iff.mp hops)
    rw [erase_comparisonOf left hnil, erase_comparisonOf left' hne, hleft, hops, hes]

theorem agree_leastNumber (op : UnaryOp) (h : Alike ts ts') :
    (∃ p p', leastNumber? op ts = some p ∧ leastNumber? op ts' = some p' ∧ Alike p.rest p'.rest) ∨
      leastNumber? op ts = none ∧ leastNumber? op ts' = none := by
  cases h with
  | nil => exact .inr ⟨rfl, rfl⟩
  | @cons t t' rest rest' hkind hrest =>
      rw [leastNumber?, leastNumber?, ← hkind]
      by_cases hleast : op = .minus ∧ t.kind = .int signBound
      · rw [if_pos hleast, if_pos hleast]
        exact .inl ⟨_, _, rfl, rfl, hrest⟩
      · rw [if_neg hleast, if_neg hleast]
        exact .inr ⟨rfl, rfl⟩

-- The recursion and its measure are the parser's own, along the first of the two lists.
mutual

theorem agree_expression {ts ts' : List Token} (h : Alike ts ts') :
    Agree (Parsed.Agrees Expr.erase) (expression eof ts) (expression eof' ts') := by
  rw [expression, expression]
  refine (agree_binary BinaryOp.loosest h).bind fun left left' hleft => ?_
  have hshorter := left.shorter
  refine (agree_comparisons hleft.rest).bind fun pairs pairs' hpairs => ?_
  exact ⟨erase_comparisonOf_congr hleft.value hpairs.value, hpairs.rest⟩
termination_by (ts.length, BinaryOp.loosest + 4)
decreasing_by
  · exact .right _ (Nat.lt_succ_self _)
  · exact .left _ _ hshorter

theorem agree_comparisons {ts ts' : List Token} (h : Alike ts ts') :
    Agree (Trail.Agrees erasePairs) (comparisons eof ts) (comparisons eof' ts') := by
  match ts, h with
  | [], h =>
      obtain rfl := List.forall₂_nil_left_iff.mp h
      rw [comparisons, comparisons]
      exact ⟨rfl, .nil⟩
  | t :: rest, h =>
      obtain ⟨t', rest', hkind, hrest, rfl⟩ := List.forall₂_cons_left_iff.mp h
      rw [comparisons, comparisons, ← hkind]
      cases hop : t.kind.compareOp? with
      | none => exact ⟨rfl, .cons hkind hrest⟩
      | some op =>
          refine (agree_binary BinaryOp.loosest hrest).bind fun right right' hright => ?_
          have hshorter := right.shorter
          refine (agree_comparisons hright.rest).bind fun more more' hmore => ?_
          refine ⟨?_, hmore.rest⟩
          show (op, right.value.erase) :: erasePairs more.value = (op, right'.value.erase) :: erasePairs more'.value
          rw [hright.value, hmore.value]
termination_by (ts.length, 0)
decreasing_by
  · exact .left _ _ (Nat.lt_succ_self _)
  · exact .left _ _ (Nat.lt_succ_of_lt hshorter)

theorem agree_binary (level : Nat) {ts ts' : List Token} (h : Alike ts ts') :
    Agree (Parsed.Agrees Expr.erase) (binary eof level ts) (binary eof' level ts') := by
  match level with
  | 0 =>
      rw [binary, binary]
      exact agree_unary h
  | level + 1 =>
      rw [binary, binary]
      refine (agree_binary level h).bind fun left left' hleft => ?_
      have hshorter := left.shorter
      refine (agree_binaryTail level hleft.value hleft.rest).bind fun whole whole' hwhole => ?_
      exact ⟨hwhole.value, hwhole.rest⟩
termination_by (ts.length, level + 3)
decreasing_by
  · exact .right _ (Nat.lt_succ_self _)
  · exact .right _ (Nat.lt_succ_self _)
  · exact .left _ _ hshorter

theorem agree_binaryTail (level : Nat) {left left' : Expr} {ts ts' : List Token} (hleft : left.erase = left'.erase)
    (h : Alike ts ts') :
    Agree (Trail.Agrees Expr.erase) (binaryTail eof level left ts) (binaryTail eof' level left' ts') := by
  match ts, h with
  | [], h =>
      obtain rfl := List.forall₂_nil_left_iff.mp h
      rw [binaryTail, binaryTail]
      exact ⟨hleft, .nil⟩
  | t :: rest, h =>
      obtain ⟨t', rest', hkind, hrest, rfl⟩ := List.forall₂_cons_left_iff.mp h
      rw [binaryTail, binaryTail, ← hkind]
      cases hop : t.kind.binaryOpAt? (level + 1) with
      | none => exact ⟨hleft, .cons hkind hrest⟩
      | some op =>
          refine (agree_binary level hrest).bind fun right right' hright => ?_
          have hshorter := right.shorter
          have hjoined : (Expr.binary (left.span.join right.value.span) left op right.value).erase =
              (Expr.binary (left'.span.join right'.value.span) left' op right'.value).erase := by
            rw [Expr.erase, Expr.erase, hleft, hright.value]
          refine (agree_binaryTail level hjoined hright.rest).bind fun whole whole' hwhole => ?_
          exact ⟨hwhole.value, hwhole.rest⟩
termination_by (ts.length, 0)
decreasing_by
  · exact .left _ _ (Nat.lt_succ_self _)
  · exact .left _ _ (Nat.lt_succ_of_lt hshorter)

theorem agree_unary {ts ts' : List Token} (h : Alike ts ts') :
    Agree (Parsed.Agrees Expr.erase) (unary eof ts) (unary eof' ts') := by
  match ts, h with
  | [], h =>
      obtain rfl := List.forall₂_nil_left_iff.mp h
      rw [unary, unary]
      exact agree_call .nil
  | t :: rest, h =>
      obtain ⟨t', rest', hkind, hrest, rfl⟩ := List.forall₂_cons_left_iff.mp h
      rw [unary, unary, ← hkind]
      cases hop : t.kind.unaryOp? with
      | none => exact agree_call (.cons hkind hrest)
      | some op =>
          dsimp only
          -- the least number is read in both lists or in none, as it depends on the kind of one more token
          rcases agree_leastNumber op hrest with ⟨p, p', hp, hp', hleft⟩ | ⟨hp, hp'⟩
          · rw [hp, hp']
            exact ⟨rfl, hleft⟩
          · rw [hp, hp']
            refine (agree_unary hrest).bind fun operand operand' hoperand => ?_
            refine ⟨?_, hoperand.rest⟩
            rw [Expr.erase, Expr.erase, hoperand.value]
termination_by (ts.length, 2)
decreasing_by
  · exact .right _ (Nat.lt_succ_self _)
  · exact .right _ (Nat.lt_succ_self _)
  · exact .left _ _ (Nat.lt_succ_self _)

theorem agree_call {ts ts' : List Token} (h : Alike ts ts') :
    Agree (Parsed.Agrees Expr.erase) (call eof ts) (call eof' ts') := by
  rw [call, call]
  refine (agree_atom h).bind fun func func' hfunc => ?_
  have hshorter := func.shorter
  refine (agree_callTail hfunc.value hfunc.rest).bind fun whole whole' hwhole => ?_
  exact ⟨hwhole.value, hwhole.rest⟩
termination_by (ts.length, 1)
decreasing_by
  · exact .right _ Nat.zero_lt_one
  · exact .left _ _ hshorter

theorem agree_callTail {func func' : Expr} {ts ts' : List Token} (hfunc : func.erase = func'.erase)
    (h : Alike ts ts') :
    Agree (Trail.Agrees Expr.erase) (callTail eof func ts) (callTail eof' func' ts') := by
  match ts, h with
  | [], h =>
      obtain rfl := List.forall₂_nil_left_iff.mp h
      rw [callTail, callTail]
      exact ⟨hfunc, .nil⟩
  | t :: rest, h =>
      obtain ⟨t', rest', hkind, hrest, rfl⟩ := List.forall₂_cons_left_iff.mp h
      rw [callTail, callTail, ← hkind]
      by_cases hparen : t.kind = .sym .leftParen
      · rw [if_pos hparen, if_pos hparen]
        refine (agree_arguments hrest).bind fun args args' hargs => ?_
        have hnoLonger := args.noLonger
        refine (agree_expect hargs.rest _ _).bind fun close close' hclose => ?_
        have hshorter := close.shorter
        have hjoined : (Expr.call ⟨func.span.start, close.value.span.stop⟩ func args.value).erase =
            (Expr.call ⟨func'.span.start, close'.value.span.stop⟩ func' args'.value).erase := by
          rw [Expr.erase, Expr.erase, hfunc, hargs.value]
        refine (agree_callTail hjoined hclose.rest).bind fun whole whole' hwhole => ?_
        exact ⟨hwhole.value, hwhole.rest⟩
      · rw [if_neg hparen, if_neg hparen]
        exact ⟨hfunc, .cons hkind hrest⟩
termination_by (ts.length, 0)
decreasing_by
  · exact .left _ _ (Nat.lt_succ_self _)
  · exact .left _ _ (Nat.lt_succ_of_lt (Nat.lt_of_lt_of_le hshorter hnoLonger))

theorem agree_arguments {ts ts' : List Token} (h : Alike ts ts') :
    Agree (Trail.Agrees Expr.eraseAll) (arguments eof ts) (arguments eof' ts') := by
  rw [arguments, arguments, ← nextIs_congr h]
  by_cases hclose : nextIs (.sym .rightParen) ts = true
  · rw [if_pos hclose, if_pos hclose]
    exact ⟨rfl, h⟩
  · rw [if_neg hclose, if_neg hclose]
    refine (agree_argumentList h).bind fun args args' hargs => ?_
    exact ⟨hargs.value, hargs.rest⟩
termination_by (ts.length, BinaryOp.loosest + 6)
decreasing_by exact .right _ (Nat.lt_succ_self _)

theorem agree_argumentList {ts ts' : List Token} (h : Alike ts ts') :
    Agree (Parsed.Agrees Expr.eraseAll) (argumentList eof ts) (argumentList eof' ts') := by
  rw [argumentList, argumentList]
  refine (agree_expression h).bind fun first first' hfirst => ?_
  -- what is left is alike, so a comma follows in both lists or in none
  obtain ⟨value, left, hshorter⟩ := first
  obtain ⟨value', left', hshorter'⟩ := first'
  obtain ⟨hvalue, hleft⟩ : value.erase = value'.erase ∧ Alike left left' := ⟨hfirst.value, hfirst.rest⟩
  have hsingle : Expr.eraseAll [value] = Expr.eraseAll [value'] := by
    rw [Expr.eraseAll, Expr.eraseAll, hvalue]
    rfl
  cases hleft with
  | nil => exact ⟨hsingle, .nil⟩
  | @cons t t' rest rest' hkind hrest =>
      show Agree _ (if t.kind = .sym .comma then _ else _) (if t'.kind = .sym .comma then _ else _)
      rw [← hkind]
      by_cases hcomma : t.kind = .sym .comma
      · rw [if_pos hcomma, if_pos hcomma, ← nextIs_congr hrest]
        by_cases hclose : nextIs (.sym .rightParen) rest = true
        · rw [if_pos hclose, if_pos hclose]
          exact ⟨hsingle, hrest⟩
        · rw [if_neg hclose, if_neg hclose]
          have hlt : rest.length < ts.length := Nat.lt_of_succ_lt hshorter
          refine (agree_argumentList hrest).bind fun more more' hmore => ?_
          refine ⟨?_, hmore.rest⟩
          rw [Expr.eraseAll, Expr.eraseAll, hvalue, hmore.value]
      · rw [if_neg hcomma, if_neg hcomma]
        exact ⟨hsingle, .cons hkind hrest⟩
termination_by (ts.length, BinaryOp.loosest + 5)
decreasing_by
  · exact .right _ (Nat.lt_succ_self _)
  · exact .left _ _ hlt

theorem agree_atom {ts ts' : List Token} (h : Alike ts ts') :
    Agree (Parsed.Agrees Expr.erase) (atom eof ts) (atom eof' ts') := by
  match ts, h with
  | [], h =>
      obtain rfl := List.forall₂_nil_left_iff.mp h
      rw [atom, atom]
      exact cause_unexpected_congr .nil eof eof' _
  | t :: rest, h =>
      obtain ⟨t', rest', hkind, hrest, rfl⟩ := List.forall₂_cons_left_iff.mp h
      rw [atom, atom, ← hkind]
      split
      · next n _ =>
        by_cases hn : n < signBound
        · rw [if_pos hn, if_pos hn]
          exact ⟨rfl, hrest⟩
        · rw [if_neg hn, if_neg hn]
          rfl
      · exact ⟨rfl, hrest⟩
      · exact ⟨rfl, hrest⟩
      · exact ⟨rfl, hrest⟩
      · exact ⟨rfl, hrest⟩
      · refine (agree_expression hrest).bind fun inner inner' hinner => ?_
        refine (agree_expect hinner.rest _ _).bind fun close close' hclose => ?_
        -- the wider span that parentheses give to the node is erased with the others
        refine ⟨?_, hclose.rest⟩
        rw [erase_withSpan, erase_withSpan, hinner.value]
      · exact cause_unexpected_congr (.cons hkind hrest) eof eof' _
termination_by (ts.length, 0)
decreasing_by exact .left _ _ (Nat.lt_succ_self _)

end

/-! ## Statements -/

theorem agree_asTarget {e e' : Expr} (h : e.erase = e'.erase) :
    Agree (fun target target' => target.erase = target'.erase) (asTarget e) (asTarget e') := by
  cases e with
  | name span id use =>
      cases e' with
      | name span' id' use' =>
          rw [Expr.erase, Expr.erase] at h
          obtain ⟨_, rfl, _⟩ := Expr.name.inj h
          rfl
      | _ => simp [Expr.erase] at h
  | _ =>
      cases e' with
      | name span' id' use' => simp [Expr.erase] at h
      | _ => rfl

/-- The targets and the value of an assignment, without places. -/
def eraseAssignment (parts : List Expr × Expr) : List Expr × Expr := (Expr.eraseAll parts.1, parts.2.erase)

theorem agree_assignmentTail {value value' : Expr} {ts ts' : List Token} (hvalue : value.erase = value'.erase)
    (h : Alike ts ts') :
    Agree (Trail.Agrees eraseAssignment) (assignmentTail eof value ts) (assignmentTail eof' value' ts') := by
  have hnone : eraseAssignment ([], value) = eraseAssignment ([], value') := by
    rw [eraseAssignment, eraseAssignment, hvalue]
  match ts, h with
  | [], h =>
      obtain rfl := List.forall₂_nil_left_iff.mp h
      rw [assignmentTail, assignmentTail]
      exact ⟨hnone, .nil⟩
  | t :: rest, h =>
      obtain ⟨t', rest', hkind, hrest, rfl⟩ := List.forall₂_cons_left_iff.mp h
      rw [assignmentTail, assignmentTail, ← hkind]
      by_cases hequal : t.kind = .sym .equal
      · rw [if_pos hequal, if_pos hequal]
        refine (agree_asTarget hvalue).bind fun target target' htarget => ?_
        refine (agree_expression hrest).bind fun next next' hnext => ?_
        have hshorter := next.shorter_cons t
        refine (agree_assignmentTail hnext.value hnext.rest).bind fun more more' hmore => ?_
        obtain ⟨htargets, hlast⟩ := Prod.mk.inj hmore.value
        refine ⟨?_, hmore.rest⟩
        rw [eraseAssignment, eraseAssignment, Expr.eraseAll, Expr.eraseAll, htarget, htargets, hlast]
      · rw [if_neg hequal, if_neg hequal]
        exact ⟨hnone, .cons hkind hrest⟩
termination_by ts.length
decreasing_by exact hshorter

theorem erase_assignmentOf_congr {parts parts' : List Expr × Expr} (h : eraseAssignment parts = eraseAssignment parts') :
    (assignmentOf parts.1 parts.2).erase = (assignmentOf parts'.1 parts'.2).erase := by
  obtain ⟨targets, value⟩ := parts
  obtain ⟨targets', value'⟩ := parts'
  obtain ⟨htargets, hvalue⟩ := Prod.mk.inj h
  cases targets with
  | nil =>
      cases targets' with
      | nil =>
          show Stmt.expr default value.erase = Stmt.expr default value'.erase
          exact congrArg _ hvalue
      | cons target' targets' => simp [Expr.eraseAll] at htargets
  | cons target targets =>
      cases targets' with
      | nil => simp [Expr.eraseAll] at htargets
      | cons target' targets' =>
          show Stmt.assign default (Expr.eraseAll (target :: targets)) value.erase =
            Stmt.assign default (Expr.eraseAll (target' :: targets')) value'.erase
          exact congrArg₂ _ htargets hvalue

theorem agree_augmented (h : Alike ts ts') :
    (∃ p p', augmented? ts = some p ∧ augmented? ts' = some p' ∧ p.Agrees id p') ∨
      augmented? ts = none ∧ augmented? ts' = none := by
  cases h with
  | nil => exact .inr ⟨rfl, rfl⟩
  | @cons t t' rest rest' hkind hrest =>
      rw [augmented?, augmented?, ← hkind]
      cases hop : t.kind.assignmentOp? with
      | none => exact .inr ⟨rfl, rfl⟩
      | some op => exact .inl ⟨_, _, rfl, rfl, rfl, hrest⟩

theorem agree_expressionStatement (h : Alike ts ts') :
    Agree (Parsed.Agrees Stmt.erase) (expressionStatement eof ts) (expressionStatement eof' ts') := by
  unfold expressionStatement
  refine (agree_expression h).bind fun first first' hfirst => ?_
  dsimp only
  rcases agree_augmented hfirst.rest with ⟨op, op', hop, hop', hagrees⟩ | ⟨hop, hop'⟩
  · rw [hop, hop']
    refine (agree_asTarget hfirst.value).bind fun target target' htarget => ?_
    refine (agree_expression hagrees.rest).bind fun value value' hvalue => ?_
    have hvalue' : op.value = op'.value := hagrees.value
    refine ⟨?_, hvalue.rest⟩
    rw [Stmt.erase, Stmt.erase, htarget, hvalue', hvalue.value]
  · rw [hop, hop']
    refine (agree_assignmentTail hfirst.value hfirst.rest).bind fun whole whole' hwhole => ?_
    exact ⟨erase_assignmentOf_congr hwhole.value, hwhole.rest⟩

theorem agree_simpleStatement (h : Alike ts ts') :
    Agree (Parsed.Agrees Stmt.erase) (simpleStatement eof ts) (simpleStatement eof' ts') := by
  cases h with
  | nil => exact agree_expressionStatement .nil
  | @cons t t' rest rest' hkind hrest =>
      rw [simpleStatement, simpleStatement, ← hkind]
      by_cases hpass : t.kind = .kw .pass_
      · rw [if_pos hpass, if_pos hpass]
        exact ⟨rfl, hrest⟩
      rw [if_neg hpass, if_neg hpass]
      by_cases hreturn : t.kind = .kw .return_
      · rw [if_pos hreturn, if_pos hreturn, ← nextIs_congr hrest, ← nextIs_congr hrest]
        by_cases hend : (nextIs .newline rest || nextIs (.sym .semicolon) rest) = true
        · rw [if_pos hend, if_pos hend]
          exact ⟨rfl, hrest⟩
        · rw [if_neg hend, if_neg hend]
          refine (agree_expression hrest).bind fun value value' hvalue => ?_
          refine ⟨?_, hvalue.rest⟩
          rw [Stmt.erase, Stmt.erase, Option.map_some, Option.map_some, hvalue.value]
      · rw [if_neg hreturn, if_neg hreturn]
        exact agree_expressionStatement (.cons hkind hrest)

theorem agree_simpleTail {ts ts' : List Token} (h : Alike ts ts') :
    Agree (Trail.Agrees Stmt.eraseAll) (simpleTail eof ts) (simpleTail eof' ts') := by
  match ts, h with
  | [], h =>
      obtain rfl := List.forall₂_nil_left_iff.mp h
      rw [simpleTail, simpleTail]
      exact ⟨rfl, .nil⟩
  | t :: rest, h =>
      obtain ⟨t', rest', hkind, hrest, rfl⟩ := List.forall₂_cons_left_iff.mp h
      rw [simpleTail, simpleTail, ← hkind]
      by_cases hsemicolon : t.kind = .sym .semicolon
      · rw [if_pos hsemicolon, if_pos hsemicolon, ← nextIs_congr hrest]
        by_cases hend : nextIs .newline rest = true
        · rw [if_pos hend, if_pos hend]
          exact ⟨rfl, hrest⟩
        · rw [if_neg hend, if_neg hend]
          refine (agree_simpleStatement hrest).bind fun stmt stmt' hstmt => ?_
          have hshorter := stmt.shorter_cons t
          refine (agree_simpleTail hstmt.rest).bind fun more more' hmore => ?_
          refine ⟨?_, hmore.rest⟩
          rw [Stmt.eraseAll, Stmt.eraseAll, hstmt.value, hmore.value]
      · rw [if_neg hsemicolon, if_neg hsemicolon]
        exact ⟨rfl, .cons hkind hrest⟩
termination_by ts.length
decreasing_by exact hshorter

theorem agree_simpleStatements (h : Alike ts ts') :
    Agree (Parsed.Agrees Stmt.eraseAll) (simpleStatements eof ts) (simpleStatements eof' ts') := by
  unfold simpleStatements
  refine (agree_simpleStatement h).bind fun first first' hfirst => ?_
  refine (agree_simpleTail hfirst.rest).bind fun more more' hmore => ?_
  refine (agree_expect hmore.rest _ _).bind fun close close' hclose => ?_
  refine ⟨?_, hclose.rest⟩
  rw [Stmt.eraseAll, Stmt.eraseAll, hfirst.value, hmore.value]

theorem agree_parameterNames {ts ts' : List Token} (h : Alike ts ts') :
    Agree (Parsed.Agrees id) (parameterNames eof ts) (parameterNames eof' ts') := by
  rw [parameterNames, parameterNames]
  refine (agree_expectIdentifier h _).bind fun first first' hfirst => ?_
  obtain ⟨name, left, hshorter⟩ := first
  obtain ⟨name', left', hshorter'⟩ := first'
  obtain ⟨hname, hleft⟩ : name = name' ∧ Alike left left' := ⟨hfirst.value, hfirst.rest⟩
  subst hname
  cases hleft with
  | nil => exact ⟨rfl, .nil⟩
  | @cons t t' rest rest' hkind hrest =>
      show Agree _ (if t.kind = .sym .comma then _ else _) (if t'.kind = .sym .comma then _ else _)
      rw [← hkind]
      by_cases hcomma : t.kind = .sym .comma
      · rw [if_pos hcomma, if_pos hcomma, ← nextIs_congr hrest]
        by_cases hclose : nextIs (.sym .rightParen) rest = true
        · rw [if_pos hclose, if_pos hclose]
          exact ⟨rfl, hrest⟩
        · rw [if_neg hclose, if_neg hclose]
          have hlt : rest.length < ts.length := Nat.lt_of_succ_lt hshorter
          refine (agree_parameterNames hrest).bind fun more more' hmore => ?_
          exact ⟨congrArg (name :: ·) hmore.value, hmore.rest⟩
      · rw [if_neg hcomma, if_neg hcomma]
        exact ⟨rfl, .cons hkind hrest⟩
termination_by ts.length

theorem agree_parameters (h : Alike ts ts') :
    Agree (Trail.Agrees id) (parameters eof ts) (parameters eof' ts') := by
  unfold parameters
  rw [← nextIs_congr h]
  by_cases hclose : nextIs (.sym .rightParen) ts = true
  · rw [if_pos hclose, if_pos hclose]
    exact ⟨rfl, h⟩
  · rw [if_neg hclose, if_neg hclose]
    refine (agree_parameterNames h).bind fun names names' hnames => ?_
    exact ⟨hnames.value, hnames.rest⟩

theorem agree_signature (h : Alike ts ts') :
    Agree (Parsed.Agrees id) (signature eof ts) (signature eof' ts') := by
  unfold signature
  refine (agree_expectIdentifier h _).bind fun name name' hname => ?_
  refine (agree_expect hname.rest _ _).bind fun opened opened' hopened => ?_
  refine (agree_parameters hopened.rest).bind fun params params' hparams => ?_
  refine (agree_expect hparams.rest _ _).bind fun closed closed' hclosed => ?_
  exact ⟨congrArg₂ Prod.mk hname.value hparams.value, hclosed.rest⟩

theorem eraseAll_single_congr {st st' : Stmt} (h : st.erase = st'.erase) :
    Stmt.eraseAll [st] = Stmt.eraseAll [st'] := by
  rw [Stmt.eraseAll, Stmt.eraseAll, h]
  rfl

-- Again the parser's recursion: every block and every branch starts behind a token that has been read.
mutual

theorem agree_statementLine {ts ts' : List Token} (h : Alike ts ts') :
    Agree (Parsed.Agrees Stmt.eraseAll) (statementLine eof ts) (statementLine eof' ts') := by
  match ts, h with
  | [], h =>
      obtain rfl := List.forall₂_nil_left_iff.mp h
      rw [statementLine, statementLine]
      exact agree_simpleStatements .nil
  | t :: rest, h =>
      obtain ⟨t', rest', hkind, hrest, rfl⟩ := List.forall₂_cons_left_iff.mp h
      rw [statementLine, statementLine, ← hkind]
      split
      · refine (agree_signature hrest).bind fun head head' hhead => ?_
        have hshorter := head.shorter
        refine (agree_block _ hhead.rest).bind fun body body' hbody => ?_
        have hsignature : head.value = head'.value := hhead.value
        refine ⟨eraseAll_single_congr ?_, hbody.rest⟩
        rw [Stmt.erase, Stmt.erase, hsignature, hbody.value]
      · refine (agree_conditional t.span.start t'.span.start hrest).bind fun stmt stmt' hstmt => ?_
        exact ⟨eraseAll_single_congr hstmt.value, hstmt.rest⟩
      · refine (agree_expression hrest).bind fun test test' htest => ?_
        have hshorter := test.shorter
        refine (agree_block _ htest.rest).bind fun body body' hbody => ?_
        refine ⟨eraseAll_single_congr ?_, hbody.rest⟩
        rw [Stmt.erase, Stmt.erase, htest.value, hbody.value]
      · exact cause_unexpected_congr (.cons hkind hrest) eof eof' _
      · exact agree_simpleStatements (.cons hkind hrest)
termination_by (ts.length, 0)
decreasing_by
  · exact .left _ _ (Nat.lt_succ_of_lt hshorter)
  · exact .left _ _ (Nat.lt_succ_self _)
  · exact .left _ _ (Nat.lt_succ_of_lt hshorter)

theorem agree_conditional (start start' : Position) {ts ts' : List Token} (h : Alike ts ts') :
    Agree (Parsed.Agrees Stmt.erase) (conditional eof start ts) (conditional eof' start' ts') := by
  rw [conditional, conditional]
  refine (agree_expression h).bind fun test test' htest => ?_
  have hshorter := test.shorter
  refine (agree_block _ htest.rest).bind fun body body' hbody => ?_
  have hshorter' := body.shorter
  refine (agree_alternative hbody.rest).bind fun other other' hother => ?_
  refine ⟨?_, hother.rest⟩
  rw [Stmt.erase, Stmt.erase, htest.value, hbody.value, hother.value]
termination_by (ts.length, 0)
decreasing_by
  · exact .left _ _ hshorter
  · exact .left _ _ (Nat.lt_trans hshorter' hshorter)

theorem agree_alternative {ts ts' : List Token} (h : Alike ts ts') :
    Agree (Trail.Agrees Stmt.eraseAll) (alternative eof ts) (alternative eof' ts') := by
  match ts, h with
  | [], h =>
      obtain rfl := List.forall₂_nil_left_iff.mp h
      rw [alternative, alternative]
      exact ⟨rfl, .nil⟩
  | t :: rest, h =>
      obtain ⟨t', rest', hkind, hrest, rfl⟩ := List.forall₂_cons_left_iff.mp h
      rw [alternative, alternative, ← hkind]
      split
      · refine (agree_conditional t.span.start t'.span.start hrest).bind fun stmt stmt' hstmt => ?_
        exact ⟨eraseAll_single_congr hstmt.value, hstmt.rest⟩
      · refine (agree_block _ hrest).bind fun body body' hbody => ?_
        exact ⟨hbody.value, hbody.rest⟩
      · exact ⟨rfl, .cons hkind hrest⟩
termination_by (ts.length, 0)
decreasing_by
  · exact .left _ _ (Nat.lt_succ_self _)
  · exact .left _ _ (Nat.lt_succ_self _)

theorem agree_block (context : Context) {ts ts' : List Token} (h : Alike ts ts') :
    Agree (Parsed.Agrees Stmt.eraseAll) (block eof context ts) (block eof' context ts') := by
  rw [block, block]
  refine (agree_expect h _ _).bind fun colon colon' hcolon => ?_
  have hshorter := colon.shorter
  rw [← nextIs_congr hcolon.rest]
  by_cases hline : nextIs .newline colon.rest = true
  · rw [if_pos hline, if_pos hline]
    refine (agree_expect (alike_tail hcolon.rest) _ _).bind fun opened opened' hopened => ?_
    have hshorter' := opened.shorter
    have htail : colon.rest.tail.length ≤ colon.rest.length := by simp
    refine (agree_blockLines hopened.rest).bind fun body body' hbody => ?_
    refine (agree_expect hbody.rest _ _).bind fun closed closed' hclosed => ?_
    exact ⟨hbody.value, hclosed.rest⟩
  · rw [if_neg hline, if_neg hline]
    refine (agree_simpleStatements hcolon.rest).bind fun body body' hbody => ?_
    exact ⟨hbody.value, hbody.rest⟩
termination_by (ts.length, 0)
decreasing_by exact .left _ _ (Nat.lt_trans (Nat.lt_of_lt_of_le hshorter' htail) hshorter)

theorem agree_blockLines {ts ts' : List Token} (h : Alike ts ts') :
    Agree (Trail.Agrees Stmt.eraseAll) (blockLines eof ts) (blockLines eof' ts') := by
  rw [blockLines, blockLines, ← nextIs_congr h, ← nextIs_congr h]
  by_cases hend : (nextIs .dedent ts || nextIs .eof ts) = true
  · rw [if_pos hend, if_pos hend]
    exact ⟨rfl, h⟩
  · rw [if_neg hend, if_neg hend]
    refine (agree_statementLine h).bind fun line line' hline => ?_
    have hshorter := line.shorter
    refine (agree_blockLines hline.rest).bind fun more more' hmore => ?_
    refine ⟨?_, hmore.rest⟩
    rw [eraseAll_append, eraseAll_append, hline.value, hmore.value]
termination_by (ts.length, 1)
decreasing_by
  · exact .right _ Nat.zero_lt_one
  · exact .left _ _ hshorter

end

/-! ## Modules -/

theorem agree_moduleLines {ts ts' : List Token} (h : Alike ts ts') :
    Agree (Trail.Agrees Stmt.eraseAll) (moduleLines eof ts) (moduleLines eof' ts') := by
  match ts, h with
  | [], h =>
      obtain rfl := List.forall₂_nil_left_iff.mp h
      rw [moduleLines, moduleLines]
      exact ⟨rfl, .nil⟩
  | t :: rest, h =>
      obtain ⟨t', rest', hkind, hrest, rfl⟩ := List.forall₂_cons_left_iff.mp h
      rw [moduleLines, moduleLines, ← hkind]
      by_cases heof : t.kind = .eof
      · rw [if_pos heof, if_pos heof]
        exact ⟨rfl, .cons hkind hrest⟩
      rw [if_neg heof, if_neg heof]
      by_cases hline : t.kind = .newline
      · rw [if_pos hline, if_pos hline]
        refine (agree_moduleLines hrest).bind fun more more' hmore => ?_
        exact ⟨hmore.value, hmore.rest⟩
      · rw [if_neg hline, if_neg hline]
        refine (agree_statementLine (.cons hkind hrest)).bind fun line line' hstatement => ?_
        have hshorter := line.shorter
        refine (agree_moduleLines hstatement.rest).bind fun more more' hmore => ?_
        refine ⟨?_, hmore.rest⟩
        rw [eraseAll_append, eraseAll_append, hstatement.value, hmore.value]
termination_by ts.length
decreasing_by
  · exact Nat.lt_succ_self _
  · exact hshorter

/-- **Token lists with the same kinds are read alike.** -/
theorem agree_parseModule (h : Alike ts ts') :
    Agree (fun m m' => m.erase = m'.erase) (parseModule ts) (parseModule ts') := by
  unfold parseModule
  refine (agree_moduleLines h).bind fun lines lines' hlines => ?_
  show Module.mk (Stmt.eraseAll lines.value) default = Module.mk (Stmt.eraseAll lines'.value) default
  rw [hlines.value]

end Offside.Tree

namespace Offside

/-- Trees that are equal up to places have the same assembly, or fail alike. -/
theorem Lower.generate_congr {m m' : Module} (h : m.erase = m'.erase) (o : Options) :
    match generate o m, generate o m' with
    | .ok l, .ok l' => l = l'
    | .error e, .error e' => e.diagnostic.unplaced = e'.diagnostic.unplaced
    | _, _ => False := by
  -- both fare like the tree without places
  have herase := Lower.generate_erase o m
  rw [h, Lower.generate_erase o m'] at herase
  cases hm : generate o m with
  | ok l =>
      rw [hm] at herase
      cases hm' : generate o m' with
      | ok l' =>
          rw [hm'] at herase
          exact (Except.ok.inj herase).symm
      | error e' =>
          rw [hm'] at herase
          exact absurd herase (by simp)
  | error e =>
      rw [hm] at herase
      cases hm' : generate o m' with
      | ok l' =>
          rw [hm'] at herase
          exact absurd herase (by simp)
      | error e' =>
          rw [hm'] at herase
          show e.diagnostic.unplaced = e'.diagnostic.unplaced
          rw [← Lower.Fault.diagnostic_map_unknown, ← Lower.Fault.diagnostic_map_unknown, Except.error.inj herase]

/-- **Places do not influence meaning.** Token lists with the same kinds, whatever their spans, are both read, as trees
    that are equal up to places, or both rejected, with the same message. Trees that are equal up to places have the same
    assembly, or no assembly for reasons that are equal up to the place. -/
theorem places_leave_no_trace :
    (∀ ts ts' : List Token, ts.map Token.kind = ts'.map Token.kind →
      match Tree.parseModule ts, Tree.parseModule ts' with
      | .ok m, .ok m' => m.erase = m'.erase
      | .error e, .error e' => e.cause.message = e'.cause.message
      | _, _ => False) ∧
    (∀ (o : Options) (m m' : Module), m.erase = m'.erase →
      match generate o m, generate o m' with
      | .ok l, .ok l' => l = l'
      | .error e, .error e' => e.diagnostic.unplaced = e'.diagnostic.unplaced
      | _, _ => False) := by
  constructor
  · intro ts ts' h
    have hagree := Tree.agree_parseModule (Tree.alike_of_map_kind h)
    cases hts : Tree.parseModule ts with
    | ok m =>
        rw [hts] at hagree
        cases hts' : Tree.parseModule ts' with
        | ok m' => rw [hts'] at hagree; exact hagree
        | error e' => rw [hts'] at hagree; exact hagree
    | error e =>
        rw [hts] at hagree
        cases hts' : Tree.parseModule ts' with
        | ok m' => rw [hts'] at hagree; exact hagree
        | error e' => rw [hts'] at hagree; exact congrArg Tree.Cause.message hagree
  · intro o m m' h
    exact Lower.generate_congr h o

/-- The tokens of `def f(x): return -x`, in two lines, without the end of the file. -/
def negateKinds : List Token.Kind :=
  [.kw .def_, .ident "f", .sym .leftParen, .ident "x", .sym .rightParen, .sym .colon, .newline, .indent,
    .kw .return_, .sym .minus, .ident "x", .newline, .dedent]

/-- Tokens at places of their own. -/
def spread (kinds : List Token.Kind) : List Token :=
  kinds.zipIdx.map fun (kind, column) => ⟨kind, ⟨⟨"spread", 1, column⟩, ⟨"spread", 1, column + 1⟩⟩⟩

/-- Tokens that all stand at one place. -/
def heaped (kinds : List Token.Kind) : List Token := kinds.map fun kind => ⟨kind, default⟩

set_option maxRecDepth 10000 in
theorem exists_generate_negateKinds :
    ∃ m l, Tree.parseModule (spread negateKinds) = .ok m ∧ generate {} m = .ok l := by
  have hok : ((Tree.parseModule (spread negateKinds)).toOption.bind fun m => (generate {} m).toOption).isSome = true := by
    cbv
  cases hm : Tree.parseModule (spread negateKinds) with
  | error e => rw [hm] at hok; exact absurd hok Bool.false_ne_true
  | ok m =>
      rw [hm] at hok
      cases hl : generate {} m with
      | error e =>
          have hnone : (generate {} m).toOption.isSome = true := hok
          rw [hl] at hnone
          exact absurd hnone Bool.false_ne_true
      | ok l => exact ⟨m, l, rfl, hl⟩

/-- The tokens of a function may be moved to one place; and a variable without a value is reported without its place,
    too. -/
theorem places_leave_no_trace_negateKinds :
    (∃ m m' l, Tree.parseModule (spread negateKinds) = .ok m ∧ Tree.parseModule (heaped negateKinds) = .ok m' ∧
      m.erase = m'.erase ∧ generate {} m = .ok l ∧ generate {} m' = .ok l) ∧
    ∃ e, generate {} Lower.strayModule.erase = .error e ∧ e.diagnostic.unplaced = .undefinedName .var "z" .unknown := by
  constructor
  · obtain ⟨m, l, hm, hl⟩ := exists_generate_negateKinds
    have hread := places_leave_no_trace.1 (spread negateKinds) (heaped negateKinds) (by decide)
    rw [hm] at hread
    cases hm' : Tree.parseModule (heaped negateKinds) with
    | error e => rw [hm'] at hread; exact hread.elim
    | ok m' =>
        rw [hm'] at hread
        have hcode := places_leave_no_trace.2 {} m m' hread
        rw [hl] at hcode
        cases hl' : generate {} m' with
        | error e => rw [hl'] at hcode; exact hcode.elim
        | ok l' =>
            rw [hl'] at hcode
            exact ⟨m, m', l, hm, rfl, hread, hl, hl'.trans (congrArg Except.ok hcode.symm)⟩
  · have hcode := places_leave_no_trace.2 {} Lower.strayModule Lower.strayModule.erase rfl
    rw [Lower.generate_strayModule] at hcode
    cases he : generate {} Lower.strayModule.erase with
    | ok l => rw [he] at hcode; exact hcode.elim
    | error e => rw [he] at hcode; exact ⟨e, rfl, hcode.symm⟩

end Offside
