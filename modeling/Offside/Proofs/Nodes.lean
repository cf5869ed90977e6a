import Mathlib.Algebra.Group.Int.Defs
import Offside.Tree.Basic

/-!
# `Proofs.Nodes` — properties of the nodes of a tree

Two properties of trees that the parser establishes and code generation relies on: where the nodes start
(`Stmt.StartsIn`), and which targets, comparisons and numbers there are (`Stmt.Regular`).
-/

namespace Offside

variable {P : Position → Prop}

/-! ## Places -/

mutual

/-- Every node of the expression starts at a place with the property. -/
def Expr.StartsIn (P : Position → Prop) : Expr → Prop
  | .const s _ | .name s _ _ => P s.start
  | .binary s l _ r => P s.start ∧ l.StartsIn P ∧ r.StartsIn P
  | .unary s _ e => P s.start ∧ e.StartsIn P
  | .compare s l _ es => P s.start ∧ l.StartsIn P ∧ Expr.AllStartIn P es
  | .call s f args => P s.start ∧ f.StartsIn P ∧ Expr.AllStartIn P args

/-- The same of every expression of a list. -/
def Expr.AllStartIn (P : Position → Prop) : List Expr → Prop
  | [] => True
  | e :: es => e.StartsIn P ∧ Expr.AllStartIn P es

end

mutual

/-- Every node of the statement starts at a place with the property. -/
def Stmt.StartsIn (P : Position → Prop) : Stmt → Prop
  | .pass s => P s.start
  | .ret s value => P s.start ∧ ∀ e ∈ value, e.StartsIn P
  | .expr s e => P s.start ∧ e.StartsIn P
  | .assign s targets value => P s.start ∧ (∀ e ∈ targets, e.StartsIn P) ∧ value.StartsIn P
  | .augAssign s target _ value => P s.start ∧ target.StartsIn P ∧ value.StartsIn P
  | .cond s test body orelse =>
      P s.start ∧ test.StartsIn P ∧ Stmt.AllStartIn P body ∧ Stmt.AllStartIn P orelse
  | .loop s test body => P s.start ∧ test.StartsIn P ∧ Stmt.AllStartIn P body
  | .funcDef s _ _ body => P s.start ∧ Stmt.AllStartIn P body

/-- The same of every statement of a list. -/
def Stmt.AllStartIn (P : Position → Prop) : List Stmt → Prop
  | [] => True
  | st :: sts => st.StartsIn P ∧ Stmt.AllStartIn P sts

end

namespace Expr.StartsIn

variable {e : Expr} {es : List Expr}

theorem all_iff : Expr.AllStartIn P es ↔ ∀ e ∈ es, e.StartsIn P := by
  induction es with
  | nil => simp [Expr.AllStartIn]
  | cons e es ih => rw [Expr.AllStartIn, ih, List.forall_mem_cons]

theorem span (h : e.StartsIn P) : P e.span.start := by
  cases e <;> simp only [Expr.StartsIn] at h
  · exact h
  · exact h
  all_goals exact h.1

/-- A node that is given another span is judged by that span, and its children as before. -/
theorem withSpan {s : Span} (h : e.StartsIn P) (hs : P s.start) : (e.withSpan s).StartsIn P := by
  cases e <;> simp only [Expr.StartsIn, Expr.withSpan] at h ⊢
  · exact hs
  · exact hs
  all_goals exact ⟨hs, h.2⟩

end Expr.StartsIn

theorem Stmt.AllStartIn.append {xs ys : List Stmt} (hxs : Stmt.AllStartIn P xs) (hys : Stmt.AllStartIn P ys) :
    Stmt.AllStartIn P (xs ++ ys) := by
  induction xs with
  | nil => exact hys
  | cons x xs ih =>
      rw [Stmt.AllStartIn] at hxs
      rw [List.cons_append, Stmt.AllStartIn]
      exact ⟨hxs.1, ih hxs.2⟩

mutual

/-- A property that all places have says nothing about a tree. -/
theorem Expr.startsIn_of_forall (hP : ∀ loc, P loc) : ∀ e : Expr, e.StartsIn P
  | .const s _ | .name s _ _ => hP s.start
  | .binary s l _ r => ⟨hP s.start, l.startsIn_of_forall hP, r.startsIn_of_forall hP⟩
  | .unary s _ e => ⟨hP s.start, e.startsIn_of_forall hP⟩
  | .compare s l _ es => ⟨hP s.start, l.startsIn_of_forall hP, Expr.allStartIn_of_forall hP es⟩
  | .call s f args => ⟨hP s.start, f.startsIn_of_forall hP, Expr.allStartIn_of_forall hP args⟩

theorem Expr.allStartIn_of_forall (hP : ∀ loc, P loc) : ∀ es : List Expr, Expr.AllStartIn P es
  | [] => trivial
  | e :: es => ⟨e.startsIn_of_forall hP, Expr.allStartIn_of_forall hP es⟩

end

mutual

/-- The same of statements. -/
theorem Stmt.startsIn_of_forall (hP : ∀ loc, P loc) : ∀ st : Stmt, st.StartsIn P
  | .pass s => hP s.start
  | .ret s _ => ⟨hP s.start, fun e _ => e.startsIn_of_forall hP⟩
  | .expr s e => ⟨hP s.start, e.startsIn_of_forall hP⟩
  | .assign s _ value => ⟨hP s.start, fun e _ => e.startsIn_of_forall hP, value.startsIn_of_forall hP⟩
  | .augAssign s target _ value => ⟨hP s.start, target.startsIn_of_forall hP, value.startsIn_of_forall hP⟩
  | .cond s test body orelse =>
      ⟨hP s.start, test.startsIn_of_forall hP, Stmt.allStartIn_of_forall hP body, Stmt.allStartIn_of_forall hP orelse⟩
  | .loop s test body => ⟨hP s.start, test.startsIn_of_forall hP, Stmt.allStartIn_of_forall hP body⟩
  | .funcDef s _ _ body => ⟨hP s.start, Stmt.allStartIn_of_forall hP body⟩

theorem Stmt.allStartIn_of_forall (hP : ∀ loc, P loc) : ∀ sts : List Stmt, Stmt.AllStartIn P sts
  | [] => trivial
  | st :: sts => ⟨st.startsIn_of_forall hP, Stmt.allStartIn_of_forall hP sts⟩

end

/-! ## Regular trees -/

/-- A name that is bound. -/
def Expr.IsStored (e : Expr) : Prop := ∃ s id, e = .name s id .store

/-- A number is one that a literal can have, or the least of all. -/
def Constant.Regular : Constant → Prop
  | .int v => (0 ≤ v.toInt ∧ v.toInt < 2 ^ 63) ∨ v.toInt = -2 ^ 63
  | .bool _ | .str _ => True

mutual

/-- A comparison has as many operands behind the first as it has operators, and at least one; every name is read; every
    number is regular. -/
def Expr.Regular : Expr → Prop
  | .const _ v => v.Regular
  | .name _ _ use => use = .load
  | .binary _ l _ r => l.Regular ∧ r.Regular
  | .unary _ _ e => e.Regular
  | .compare _ l ops es => es.length = ops.length ∧ 1 ≤ es.length ∧ l.Regular ∧ Expr.AllRegular es
  | .call _ f args => f.Regular ∧ Expr.AllRegular args

/-- The same of every expression of a list. -/
def Expr.AllRegular : List Expr → Prop
  | [] => True
  | e :: es => e.Regular ∧ Expr.AllRegular es

end

mutual

/-- An assignment has a target, targets are names that are bound, and all other expressions are regular. -/
def Stmt.Regular : Stmt → Prop
  | .pass _ => True
  | .ret _ value => ∀ e ∈ value, e.Regular
  | .expr _ e => e.Regular
  | .assign _ targets value => targets ≠ [] ∧ (∀ e ∈ targets, e.IsStored) ∧ value.Regular
  | .augAssign _ target _ value => target.IsStored ∧ value.Regular
  | .cond _ test body orelse => test.Regular ∧ Stmt.AllRegular body ∧ Stmt.AllRegular orelse
  | .loop _ test body => test.Regular ∧ Stmt.AllRegular body
  | .funcDef _ _ _ body => Stmt.AllRegular body

/-- The same of every statement of a list. -/
def Stmt.AllRegular : List Stmt → Prop
  | [] => True
  | st :: sts => st.Regular ∧ Stmt.AllRegular sts

end

section Lists

variable {es : List Expr} {sts sts' : List Stmt}

theorem Expr.allRegular_iff : Expr.AllRegular es ↔ ∀ e ∈ es, e.Regular := by
  induction es with
  | nil => simp [Expr.AllRegular]
  | cons e es ih => rw [Expr.AllRegular, ih, List.forall_mem_cons]

theorem Stmt.allRegular_iff : Stmt.AllRegular sts ↔ ∀ st ∈ sts, st.Regular := by
  induction sts with
  | nil => simp [Stmt.AllRegular]
  | cons st sts ih => rw [Stmt.AllRegular, ih, List.forall_mem_cons]

theorem Stmt.allRegular_append : Stmt.AllRegular (sts ++ sts') ↔ Stmt.AllRegular sts ∧ Stmt.AllRegular sts' := by
  simp only [Stmt.allRegular_iff, List.forall_mem_append]

end Lists

end Offside
