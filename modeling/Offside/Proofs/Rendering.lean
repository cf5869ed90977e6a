import Offside.Proofs.Outline
import Offside.Tree.Statement

/-!
# `Proofs.Rendering` — modules written out as source text

A module is written with one statement a line, every operand, callee and argument in parentheses, and blocks
indented by a fixed step (`Module.render`). Which trees can be written is `Module.isShaped`: those of the shape
that the parser builds. What is written is made of phrases, that is, of tokens that can be spelled and of
parentheses that match (`Phrase`), so every line of it can be read (`Style.legible_outlines`).

Trees that differ only in the places they were read from are equal once the places are erased
(`Module.erase`).
-/

namespace Offside

open Token (Kind Outline Row isIdentifier)

/-! ## Trees without places -/

mutual

/-- The expression, without the places it was read from. -/
def Expr.erase : Expr → Expr
  | .const _ v => .const default v
  | .name _ id use => .name default id use
  | .binary _ l op r => .binary default l.erase op r.erase
  | .unary _ op e => .unary default op e.erase
  | .compare _ l ops es => .compare default l.erase ops (eraseAll es)
  | .call _ f args => .call default f.erase (eraseAll args)

/-- Expressions, without the places they were read from. -/
def Expr.eraseAll : List Expr → List Expr
  | [] => []
  | e :: es => e.erase :: eraseAll es

end

mutual

/-- The statement, without the places it was read from. -/
def Stmt.erase : Stmt → Stmt
  | .pass _ => .pass default
  | .ret _ value => .ret default (value.map Expr.erase)
  | .expr _ value => .expr default value.erase
  | .assign _ targets value => .assign default (Expr.eraseAll targets) value.erase
  | .augAssign _ target op value => .augAssign default target.erase op value.erase
  | .cond _ test body orelse => .cond default test.erase (eraseAll body) (eraseAll orelse)
  | .loop _ test body => .loop default test.erase (eraseAll body)
  | .funcDef _ name params body => .funcDef default name params (eraseAll body)

/-- Statements, without the places they were read from. -/
def Stmt.eraseAll : List Stmt → List Stmt
  | [] => []
  | st :: rest => st.erase :: eraseAll rest

end

/-- The module, without the places it was read from. -/
def Module.erase (m : Module) : Module := ⟨Stmt.eraseAll m.body, default⟩

/-! ## Trees that can be written -/

/-- There is a literal for the number: it has no sign, or is the least of all. -/
def Constant.isShaped : Constant → Bool
  | .int value => 0 ≤ value.toInt || value.toInt == -(Tree.signBound : Int)
  | .bool _ | .str _ => true

mutual

/-- The expression has the shape of those that are read: names are read, and a comparison compares as often as
    it has operators. -/
def Expr.isShaped : Expr → Bool
  | .const _ value => value.isShaped
  | .name _ id use => isIdentifier id && use == .load
  | .binary _ l _ r => l.isShaped && r.isShaped
  | .unary _ _ e => e.isShaped
  | .compare _ l ops es => l.isShaped && !ops.isEmpty && ops.length == es.length && allShaped es
  | .call _ f args => f.isShaped && allShaped args

/-- Every one of the expressions has the shape of those that are read. -/
def Expr.allShaped : List Expr → Bool
  | [] => true
  | e :: es => e.isShaped && allShaped es

end

/-- The expression is a name that is bound. -/
def Expr.isTarget : Expr → Bool
  | .name _ id use => isIdentifier id && use == .store
  | _ => false

mutual

/-- The statement has the shape of those that are read: names are bound, and blocks are not empty. -/
def Stmt.isShaped : Stmt → Bool
  | .pass _ => true
  | .ret _ value => value.all Expr.isShaped
  | .expr _ value => value.isShaped
  | .assign _ targets value => !targets.isEmpty && targets.all Expr.isTarget && value.isShaped
  | .augAssign _ target _ value => target.isTarget && value.isShaped
  | .cond _ test body orelse => test.isShaped && !body.isEmpty && allShaped body && allShaped orelse
  | .loop _ test body => test.isShaped && !body.isEmpty && allShaped body
  | .funcDef _ name params body => isIdentifier name && params.all isIdentifier && !body.isEmpty && allShaped body

/-- Every one of the statements has the shape of those that are read. -/
def Stmt.allShaped : List Stmt → Bool
  | [] => true
  | st :: rest => st.isShaped && allShaped rest

end

/-- The module has the shape of those that are read. -/
def Module.isShaped (m : Module) : Bool := Stmt.allShaped m.body

/-! ## Tokens of expressions -/

/-- Tokens in parentheses. -/
def Token.parens (ks : List Kind) : List Kind := .sym .leftParen :: ks ++ [.sym .rightParen]

/-- Phrases separated by commas. -/
def Token.commaList : List (List Kind) → List Kind
  | [] => []
  | [ks] => ks
  | ks :: rest => ks ++ .sym .comma :: commaList rest

open Token (parens commaList)

/-- The tokens of a literal. A number below zero has its sign before its magnitude. -/
def Constant.kinds : Constant → List Kind
  | .int value =>
    if 0 ≤ value.toInt then [.int value.toNat] else [.sym .minus, .int value.toInt.natAbs]
  | .bool true => [.kw .true_]
  | .bool false => [.kw .false_]
  | .str value => [.str value]

/-- The tokens of the comparisons with operands. -/
def CompareOp.kindsWith (ops : List CompareOp) (operands : List (List Kind)) : List Kind :=
  (ops.zip operands).flatMap fun p => .sym p.1.symbol :: parens p.2

mutual

/-- The tokens of an expression. Every expression inside it stands in parentheses. -/
def Expr.kinds : Expr → List Kind
  | .const _ value => value.kinds
  | .name _ id _ => [.ident id]
  | .binary _ l op r => parens l.kinds ++ .sym op.symbol :: parens r.kinds
  | .unary _ op e => .sym op.symbol :: parens e.kinds
  | .compare _ l ops es => parens l.kinds ++ CompareOp.kindsWith ops (kindsOf es)
  | .call _ f args => parens f.kinds ++ parens (commaList ((kindsOf args).map parens))

/-- The tokens of expressions, one by one. -/
def Expr.kindsOf : List Expr → List (List Kind)
  | [] => []
  | e :: es => e.kinds :: kindsOf es

end

/-! ## Lines of statements -/

/-- The symbol of an augmented assignment. -/
def BinaryOp.assignment : BinaryOp → Symbol
  | .add => .plusEqual
  | .sub => .minusEqual
  | .mul => .starEqual
  | .div => .slashEqual
  | .floorDiv => .slashSlashEqual
  | .mod => .percentEqual
  | .bitAnd => .ampersandEqual
  | .bitOr => .pipeEqual
  | .bitXor => .caretEqual
  | .leftShift => .leftShiftEqual
  | .rightShift => .rightShiftEqual

theorem BinaryOp.ofAssignment?_assignment (op : BinaryOp) : ofAssignment? op.assignment = some op := by
  cases op <;> rfl

/-- The statement is a conditional. -/
def Stmt.isCond : Stmt → Bool
  | .cond .. => true
  | _ => false

/-- What is free in the text of a module. -/
structure Style where
  /-- How far a block is indented. -/
  step : Nat
  step_pos : 0 < step
  /-- A conditional that stands alone in the other branch of another one is written with `elif`. -/
  chains : Bool
  /-- The outermost expression of a statement stands in parentheses, too. -/
  wraps : Bool

namespace Style

/-- The tokens of an expression that belongs to a statement. -/
def whole (style : Style) (e : Expr) : List Kind := if style.wraps then parens e.kinds else e.kinds

/-- The first line of a conditional. -/
def test (style : Style) (word : Keyword) (e : Expr) : List Kind := .kw word :: style.whole e ++ [.sym .colon]

/-- The first line of a definition. -/
def signature (name : String) (params : List String) : List Kind :=
  .kw .def_ :: .ident name :: parens (commaList (params.map fun p => [.ident p])) ++ [.sym .colon]

/-- The targets of an assignment, each with the sign behind it. -/
def targets (style : Style) (es : List Expr) : List Kind := es.flatMap fun e => style.whole e ++ [.sym .equal]

mutual

/-- The lines of a statement, where a conditional starts with the word `if` or `elif`. -/
def outline (style : Style) (word : Keyword) : Stmt → List Outline
  | .pass _ => [.entry [.kw .pass_] []]
  | .ret _ none => [.entry [.kw .return_] []]
  | .ret _ (some value) => [.entry (.kw .return_ :: style.whole value) []]
  | .expr _ value => [.entry (style.whole value) []]
  | .assign _ targets value => [.entry (style.targets targets ++ style.whole value) []]
  | .augAssign _ target op value =>
    [.entry (style.whole target ++ .sym op.assignment :: style.whole value) []]
  | .cond _ test body orelse => .entry (style.test word test) (style.outlines body) :: style.alternatives orelse
  | .loop _ test body => [.entry (style.test .while_ test) (style.outlines body)]
  | .funcDef _ name params body => [.entry (signature name params) (style.outlines body)]

/-- The lines of the other branch of a conditional. -/
def alternatives (style : Style) : List Stmt → List Outline
  | [] => []
  | st :: rest =>
    if style.chains && st.isCond && rest.isEmpty then style.outline .elif_ st
    else [.entry [.kw .else_, .sym .colon] (style.outline .if_ st ++ style.outlines rest)]

/-- The lines of statements one below the other. -/
def outlines (style : Style) : List Stmt → List Outline
  | [] => []
  | st :: rest => style.outline .if_ st ++ style.outlines rest

end

end Style

/-- How deep the blocks of a module are nested where it is written out. -/
def Module.nesting (style : Style) (m : Module) : Nat := Outline.nestingOf (style.outlines m.body)

/-- The source text of a module. -/
def Module.render (style : Style) (m : Module) : String :=
  String.ofList ((Outline.rowsOf style.step 0 (style.outlines m.body)).flatMap Row.text)

example : Module.render ⟨2, by decide, true, false⟩
    ⟨[.cond default (.unary default .minus (.name default "x" .load)) [.pass default] [.ret default none]], default⟩ =
      "if - ( x ) :\n  pass\nelse :\n  return\n" := by rfl

/-! ## What is written can be read -/

namespace Token

/-- Tokens that can be spelled, with parentheses that match. -/
structure Phrase (ks : List Kind) : Prop where
  spelled : ∀ k ∈ ks, k.isSpelled = true
  balanced : ∀ depth, depthBehind depth ks = depth

/-- The token can be spelled and is no parenthesis. -/
def Kind.isPlain (k : Kind) : Bool := k.isSpelled && k != .sym .leftParen && k != .sym .rightParen

theorem openAfter_plain {k : Kind} (h : k.isPlain = true) (depth : Nat) : openAfter depth k = depth := by
  refine openAfter_other ?_ ?_ depth
  · rintro rfl
    exact absurd h (by decide)
  · rintro rfl
    exact absurd h (by decide)

namespace Phrase

variable {ks ks' : List Kind}

theorem nil : Phrase [] := ⟨by simp, fun _ => rfl⟩

theorem cons {k : Kind} (hk : k.isPlain = true) (h : Phrase ks) : Phrase (k :: ks) where
  spelled k' hk' := by
    rcases List.mem_cons.mp hk' with rfl | hk'
    · simp only [Kind.isPlain, Bool.and_eq_true] at hk
      exact hk.1.1
    · exact h.spelled k' hk'
  balanced depth := by
    rw [depthBehind, List.foldl_cons, openAfter_plain hk]
    exact h.balanced depth

theorem append (h : Phrase ks) (h' : Phrase ks') : Phrase (ks ++ ks') where
  spelled k hk := (List.mem_append.mp hk).elim (h.spelled k) (h'.spelled k)
  balanced depth := by
    rw [depthBehind, List.foldl_append]
    exact (h'.balanced _).trans (h.balanced depth)

/-- Parentheses match around a phrase. -/
theorem parens (h : Phrase ks) : Phrase (parens ks) where
  spelled k hk := by
    simp only [Token.parens, List.cons_append, List.mem_cons, List.mem_append, List.not_mem_nil, or_false] at hk
    rcases hk with rfl | hk | rfl
    · rfl
    · exact h.spelled k hk
    · rfl
  balanced depth := by
    have hinner : ks.foldl openAfter (depth + 1) = depth + 1 := h.balanced (depth + 1)
    rw [depthBehind, Token.parens, List.cons_append, List.foldl_cons, List.foldl_append]
    show openAfter (ks.foldl openAfter (depth + 1)) (.sym .rightParen) = depth
    rw [hinner]
    rfl

theorem flatMap {α : Type} {f : α → List Kind} {xs : List α} (h : ∀ x ∈ xs, Phrase (f x)) : Phrase (xs.flatMap f) := by
  induction xs with
  | nil => exact .nil
  | cons x xs ih =>
      rw [List.flatMap_cons]
      exact (h x List.mem_cons_self).append (ih fun y hy => h y (List.mem_cons_of_mem x hy))

theorem commaList : ∀ {phrases : List (List Kind)}, (∀ ks ∈ phrases, Phrase ks) → Phrase (commaList phrases)
  | [], _ => .nil
  | [ks], h => h ks List.mem_cons_self
  | ks :: ks' :: rest, h => by
      rw [Token.commaList]
      · exact (h ks List.mem_cons_self).append
          (.cons rfl (commaList fun ks hks => h ks (List.mem_cons_of_mem _ hks)))
      · simp

/-- A line that is a phrase can be read. -/
theorem row {width : Nat} (h : Phrase ks) (hne : ks ≠ []) : Row.Spelled ⟨width, ks⟩ := ⟨hne, h.spelled, h.balanced 0⟩

end Phrase

end Token

open Token (Phrase)

theorem isPlain_ident {name : String} (h : isIdentifier name = true) : (Kind.ident name).isPlain = true := by
  simp [Kind.isPlain, Kind.isSpelled, h]

theorem isPlain_binary (op : BinaryOp) : (Kind.sym op.symbol).isPlain = true := by cases op <;> rfl

theorem isPlain_unary (op : UnaryOp) : (Kind.sym op.symbol).isPlain = true := by cases op <;> rfl

theorem isPlain_compare (op : CompareOp) : (Kind.sym op.symbol).isPlain = true := by cases op <;> rfl

theorem isPlain_assignment (op : BinaryOp) : (Kind.sym op.assignment).isPlain = true := by cases op <;> rfl

theorem Constant.phrase_kinds (v : Constant) : Phrase v.kinds := by
  have hlimit : Token.magnitudeLimit = 2 ^ 64 := rfl
  cases v with
  | int w =>
      rw [Constant.kinds]
      split
      · have hlt : w.toNat < Token.magnitudeLimit := hlimit ▸ w.isLt
        exact .cons (by simp [Kind.isPlain, Kind.isSpelled, hlt]) .nil
      · have hlt : w.toInt.natAbs < Token.magnitudeLimit := by
          have hge := w.le_two_mul_toInt
          have hlt := w.two_mul_toInt_lt
          omega
        exact .cons rfl (.cons (by simp [Kind.isPlain, Kind.isSpelled, hlt]) .nil)
  | bool b => cases b <;> exact .cons rfl .nil
  | str s => exact .cons rfl .nil

mutual

/-- **An expression is written as a phrase.** -/
theorem Expr.phrase_kinds : ∀ (e : Expr), e.isShaped = true → Phrase e.kinds
  | .const _ value, _ => by
      rw [Expr.kinds]
      exact value.phrase_kinds
  | .name _ id _, h => by
      simp only [Expr.isShaped, Bool.and_eq_true] at h
      rw [Expr.kinds]
      exact .cons (isPlain_ident h.1) .nil
  | .binary _ l op r, h => by
      simp only [Expr.isShaped, Bool.and_eq_true] at h
      rw [Expr.kinds]
      exact (l.phrase_kinds h.1).parens.append (.cons (isPlain_binary op) (r.phrase_kinds h.2).parens)
  | .unary _ op e, h => by
      rw [Expr.isShaped] at h
      rw [Expr.kinds]
      exact .cons (isPlain_unary op) (e.phrase_kinds h).parens
  | .compare _ l ops es, h => by
      simp only [Expr.isShaped, Bool.and_eq_true] at h
      rw [Expr.kinds]
      refine (l.phrase_kinds h.1.1.1).parens.append (.flatMap fun p hp => ?_)
      exact .cons (isPlain_compare p.1) (phrase_kindsOf es h.2 p.2 (List.of_mem_zip hp).2).parens
  | .call _ f args, h => by
      simp only [Expr.isShaped, Bool.and_eq_true] at h
      rw [Expr.kinds]
      refine (f.phrase_kinds h.1).parens.append (.parens (.commaList fun ks hks => ?_))
      obtain ⟨inner, hinner, rfl⟩ := List.mem_map.mp hks
      exact (phrase_kindsOf args h.2 inner hinner).parens

theorem Expr.phrase_kindsOf : ∀ (es : List Expr), Expr.allShaped es = true → ∀ ks ∈ Expr.kindsOf es, Phrase ks
  | [], _, ks, hks => by
      rw [Expr.kindsOf] at hks
      exact absurd hks List.not_mem_nil
  | e :: es, h, ks, hks => by
      simp only [Expr.allShaped, Bool.and_eq_true] at h
      rw [Expr.kindsOf] at hks
      rcases List.mem_cons.mp hks with rfl | hks
      · exact e.phrase_kinds h.1
      · exact phrase_kindsOf es h.2 ks hks

end

theorem Expr.phrase_target {e : Expr} (h : e.isTarget = true) : Phrase e.kinds := by
  cases e with
  | name _ id use =>
      simp only [Expr.isTarget, Bool.and_eq_true] at h
      rw [Expr.kinds]
      exact .cons (isPlain_ident h.1) .nil
  | _ => exact absurd h (by simp [Expr.isTarget])

namespace Style

variable (style : Style)

theorem phrase_whole {e : Expr} (h : Phrase e.kinds) : Phrase (style.whole e) := by
  unfold whole
  split
  · exact h.parens
  · exact h

theorem phrase_test {word : Keyword} {e : Expr} (h : e.isShaped = true) : Phrase (style.test word e) :=
  (Phrase.cons rfl (style.phrase_whole (e.phrase_kinds h))).append (.cons rfl .nil)

theorem phrase_signature {name : String} {params : List String} (hname : isIdentifier name = true)
    (hparams : params.all isIdentifier = true) : Phrase (signature name params) := by
  have hlist : Phrase (commaList (params.map fun p => [Kind.ident p])) := by
    refine .commaList fun ks hks => ?_
    obtain ⟨p, hp, rfl⟩ := List.mem_map.mp hks
    exact .cons (isPlain_ident (List.all_eq_true.mp hparams p hp)) .nil
  exact .append (.cons rfl (.cons (isPlain_ident hname) hlist.parens)) (.cons rfl .nil)

theorem phrase_targets {es : List Expr} (h : es.all Expr.isTarget = true) : Phrase (style.targets es) :=
  .flatMap fun e he =>
    (style.phrase_whole (Expr.phrase_target (List.all_eq_true.mp h e he))).append (.cons rfl .nil)

end Style

/-- The token can be the first of an expression. -/
def Token.Kind.opensExpr : Kind → Bool
  | .int _ | .str _ | .ident _ | .kw .true_ | .kw .false_ => true
  | .sym .leftParen | .sym .plus | .sym .minus | .sym .tilde => true
  | _ => false

theorem Expr.exists_kinds_cons (e : Expr) : ∃ k ks, e.kinds = k :: ks ∧ k.opensExpr = true := by
  cases e with
  | const _ v =>
      rw [Expr.kinds]
      cases v with
      | int w => rw [Constant.kinds]; split <;> exact ⟨_, _, rfl, rfl⟩
      | bool b => cases b <;> exact ⟨_, _, rfl, rfl⟩
      | str s => exact ⟨_, _, rfl, rfl⟩
  | unary _ op _ => rw [Expr.kinds]; exact ⟨_, _, rfl, by cases op <;> rfl⟩
  | name | binary | compare | call => rw [Expr.kinds]; exact ⟨_, _, rfl, rfl⟩

namespace Style

variable (style : Style)

theorem exists_whole_cons (e : Expr) : ∃ k ks, style.whole e = k :: ks ∧ k.opensExpr = true := by
  unfold whole
  split
  · exact ⟨_, _, rfl, rfl⟩
  · exact e.exists_kinds_cons

theorem exists_targets_cons {es : List Expr} (h : es.isEmpty = false) :
    ∃ k ks, style.targets es = k :: ks ∧ k.opensExpr = true := by
  cases es with
  | nil => exact absurd h (by simp)
  | cons e es =>
      obtain ⟨k, ks, hwhole, hk⟩ := style.exists_whole_cons e
      exact ⟨k, _, by rw [targets, List.flatMap_cons, hwhole]; rfl, hk⟩

end Style

/-- Every line of the outlines can be read, however far it is indented. -/
def Token.Outline.Legible (os : List Outline) : Prop :=
  ∀ step width, ∀ r ∈ Outline.rowsOf step width os, r.Spelled

namespace Token.Outline.Legible

variable {line : List Kind} {below os os' : List Outline}

theorem nil : Legible [] := by
  intro step width r hr
  rw [Outline.rowsOf] at hr
  exact absurd hr List.not_mem_nil

theorem cons (hline : Phrase line) (hne : line ≠ []) (hbelow : Legible below) (hos : Legible os) :
    Legible (.entry line below :: os) := by
  intro step width r hr
  rw [Outline.rowsOf, Outline.rows, List.cons_append, List.mem_cons, List.mem_append] at hr
  rcases hr with rfl | hr | hr
  · exact hline.row hne
  · exact hbelow step _ r hr
  · exact hos step width r hr

theorem append (hos : Legible os) (hos' : Legible os') : Legible (os ++ os') := by
  intro step width r hr
  rw [Outline.rowsOf_append, List.mem_append] at hr
  exact hr.elim (hos step width r) (hos' step width r)

end Token.Outline.Legible

namespace Style

open Token.Outline (Legible)

variable (style : Style)

mutual

/-- **Every line of a statement can be read.** -/
theorem legible_outline (word : Keyword) : ∀ (st : Stmt), st.isShaped = true → Legible (style.outline word st)
  | .pass _, _ => by
      rw [outline]
      exact .cons (.cons rfl .nil) (by simp) .nil .nil
  | .ret _ none, _ => by
      rw [outline]
      exact .cons (.cons rfl .nil) (by simp) .nil .nil
  | .ret _ (some value), h => by
      rw [Stmt.isShaped, Option.all_some] at h
      rw [outline]
      exact .cons (.cons rfl (style.phrase_whole (value.phrase_kinds h))) (by simp) .nil .nil
  | .expr _ value, h => by
      rw [Stmt.isShaped] at h
      rw [outline]
      obtain ⟨k, ks, hcons, _⟩ := style.exists_whole_cons value
      exact .cons (style.phrase_whole (value.phrase_kinds h)) (by simp [hcons]) .nil .nil
  | .assign _ targets value, h => by
      simp only [Stmt.isShaped, Bool.and_eq_true] at h
      rw [outline]
      obtain ⟨k, ks, hcons, _⟩ := style.exists_whole_cons value
      exact .cons ((style.phrase_targets h.1.2).append (style.phrase_whole (value.phrase_kinds h.2)))
        (by simp [hcons]) .nil .nil
  | .augAssign _ target op value, h => by
      simp only [Stmt.isShaped, Bool.and_eq_true] at h
      rw [outline]
      exact .cons ((style.phrase_whole (Expr.phrase_target h.1)).append
        (.cons (isPlain_assignment op) (style.phrase_whole (value.phrase_kinds h.2)))) (by simp) .nil .nil
  | .cond _ test body orelse, h => by
      simp only [Stmt.isShaped, Bool.and_eq_true] at h
      rw [outline]
      exact .cons (style.phrase_test h.1.1.1) (by simp [Style.test]) (legible_outlines body h.1.2)
        (legible_alternatives orelse h.2)
  | .loop _ test body, h => by
      simp only [Stmt.isShaped, Bool.and_eq_true] at h
      rw [outline]
      exact .cons (style.phrase_test h.1.1) (by simp [Style.test]) (legible_outlines body h.2) .nil
  | .funcDef _ name params body, h => by
      simp only [Stmt.isShaped, Bool.and_eq_true] at h
      rw [outline]
      exact .cons (phrase_signature h.1.1.1 h.1.1.2) (by simp [signature]) (legible_outlines body h.2) .nil

theorem legible_alternatives : ∀ (ss : List Stmt), Stmt.allShaped ss = true → Legible (style.alternatives ss)
  | [], _ => by
      rw [alternatives]
      exact .nil
  | st :: rest, h => by
      simp only [Stmt.allShaped, Bool.and_eq_true] at h
      rw [alternatives]
      split
      · exact legible_outline .elif_ st h.1
      · exact .cons (.cons rfl (.cons rfl .nil)) (by simp)
          ((legible_outline .if_ st h.1).append (legible_outlines rest h.2)) .nil

theorem legible_outlines : ∀ (ss : List Stmt), Stmt.allShaped ss = true → Legible (style.outlines ss)
  | [], _ => by
      rw [outlines]
      exact .nil
  | st :: rest, h => by
      simp only [Stmt.allShaped, Bool.and_eq_true] at h
      rw [outlines]
      exact (legible_outline .if_ st h.1).append (legible_outlines rest h.2)

end

end Style

end Offside
