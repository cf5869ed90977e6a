import Offside.Proofs.Frames
import Offside.Proofs.Transfers

/-!
# `Proofs.Simulation` — generated code does what the source says

The code of an expression, a statement or a function, run from a core that agrees with the variables of the
source, does what the evaluator does. The proof is by induction on the fuel of the evaluator (`simulates`):
each case opens the run of code generation into its moves and follows them with the lemmas of
`Proofs.Transfers`.

Functions are matched along the two lists of those in sight, definitions on the side of the source and
callees on the side of code generation (`Linked`).
-/

namespace Offside.Lower

open Machine

variable {P : Image} {entry : String} {A : Activation} {Δ : List Definition} {Γ : List Callee} {s t u : State}
  {clean : Prop} {σ : Store} {vs out o : List Word} {c : Core} {n : Nat}

/-! ## Functions in sight -/

/-- **The code of a function is in the program**, with the functions `Γ` in sight of its body. -/
structure Placed (P : Image) (entry : String) (f : Definition) (callee : Callee) (Γ : List Callee) : Prop where
  name_eq : callee.name = f.name
  stations : ∃ loc o s mid start finish last t,
    Stations f.name f.params f.body (lowerBlock f.body) loc o callee s mid start finish last t ∧
      s.options.entry = entry ∧ start.visible = Γ ∧ P.Holds t

/-- **Definitions and callees go together**: each definition has its code in the program, and from there the
    same functions are in sight. -/
inductive Linked (P : Image) (entry : String) : List Definition → List Callee → Prop
  | nil : Linked P entry [] []
  | cons {f : Definition} {callee : Callee} {Δ : List Definition} {Γ : List Callee}
      (hplaced : Placed P entry f callee (callee :: Γ)) (hrest : Linked P entry Δ Γ) :
      Linked P entry (f :: Δ) (callee :: Γ)

/-- **Both sides find the same function.** -/
theorem Linked.find? {name : String} {f : Definition} {Δ' : List Definition} (h : Linked P entry Δ Γ)
    (hf : inSight Δ name = f :: Δ') :
    ∃ callee Γ', Γ.find? (·.name == name) = some callee ∧ Linked P entry (f :: Δ') (callee :: Γ') := by
  induction h with
  | nil => exact absurd hf (by simp [inSight])
  | @cons g callee Δ Γ hplaced hrest ih =>
      by_cases hname : g.name = name
      · have hfirst : inSight (g :: Δ) name = g :: Δ := by simp [inSight, hname]
        obtain ⟨rfl, rfl⟩ := List.cons.inj (hfirst.symm.trans hf)
        refine ⟨callee, Γ, ?_, .cons hplaced hrest⟩
        simp [hplaced.name_eq, hname]
      · have hnext : inSight (g :: Δ) name = inSight Δ name := by simp [inSight, hname]
        obtain ⟨callee', Γ', hfind, hlinked⟩ := ih (hnext.symm.trans hf)
        refine ⟨callee', Γ', ?_, hlinked⟩
        rw [List.find?_cons_of_neg (by simp [hplaced.name_eq, hname])]
        exact hfind

/-! ## Inside a function -/

/-- **Code generation inside a function** whose call is `A`, with the definitions `Δ` in sight. -/
structure Context (P : Image) (entry : String) (A : Activation) (Δ : List Definition) (s : State) : Prop where
  ready : Ready [] s
  linked : Linked P entry Δ s.visible
  frame : ∃ frame rest, s.frames = frame :: rest ∧ frame.slots = A.table.length
  entry_eq : s.options.entry = entry
  inside : s.current ≠ globalScope

namespace Context

variable {names named pending : List String}

theorem advances (h : Context P entry A Δ s) (ht : Ready [] t) (hadv : Advances names [] named pending s t) :
    Context P entry A Δ t := by
  refine ⟨ht, ?_, ?_, ?_, ?_⟩
  · rw [hadv.visible_eq h.ready]; exact h.linked
  · rw [hadv.frames]; exact h.frame
  · rw [hadv.options]; exact h.entry_eq
  · rw [hadv.current]; exact h.inside

theorem settled (h : Context P entry A Δ s) (ht : Settled s t) : Context P entry A Δ t :=
  h.advances ht.ready ht.steady.advances

theorem entered (h : Context P entry A Δ s) (ht : Ready [] t) (henter : Entered s t) : Context P entry A Δ t := by
  refine ⟨ht, ?_, ?_, ?_, henter.current_ne h.ready⟩
  · rw [henter.visible_eq h.ready]; exact h.linked
  · rw [henter.frames]; exact h.frame
  · rw [henter.options]; exact h.entry_eq

theorem place (h : Context P entry A Δ s) (label : String) : Context P entry A Δ (s.place label) :=
  ⟨⟨h.ready.tidy, h.ready.named⟩, h.linked, h.frame, h.entry_eq, h.inside⟩

end Context

/-! ## What is to be shown -/

/-- **What control does after a statement**: it comes to the code that follows, or to a return. -/
def Continues (P : Image) (A : Activation) (t : State) (out : List Word) (M : Processor) : Flow → Prop
  | .next σ => ∃ d, P.Reaches M ⟨t.code.size, d⟩ ∧ A.Running False σ t.holder [] out d
  | .returned v => ∃ k d, P.Reaches M ⟨k, d⟩ ∧ P.code[k]? = some (.instr .ret) ∧ A.Finished v out d

theorem Continues.of_reaches {M M' : Processor} {flow : Flow} (h : Continues P A t out M' flow)
    (hM : P.Reaches M M') : Continues P A t out M flow := by
  cases flow with
  | next σ =>
      obtain ⟨d, hd, hrun⟩ := h
      exact ⟨d, hM.trans hd, hrun⟩
  | returned v =>
      obtain ⟨k, d, hd, hret, hfinished⟩ := h
      exact ⟨k, d, hM.trans hd, hret, hfinished⟩

/-- **The simulation**, for evaluations with the given fuel. -/
structure Simulates (P : Image) (entry : String) (n : Nat) : Prop where
  expr : ∀ {A Δ σ e v o s t clean vs out c}, evalExpr entry n Δ σ e = some (v, o) → Context P entry A Δ s →
    (lowerExpr e).run s = .ok () t → Carries P A t → A.Running clean σ s.holder vs out c →
    Leads P s t c (A.Running clean σ t.holder (v :: vs) (out ++ o))
  arguments : ∀ {A Δ σ args xs o s t clean vs out c}, evalArguments entry n Δ σ args = some (xs, o) →
    Context P entry A Δ s → (lowerArguments args).run s = .ok () t → Carries P A t →
    A.Running clean σ s.holder vs out c → Leads P s t c (A.Running clean σ t.holder (xs ++ vs) (out ++ o))
  call : ∀ {f Δ callee Γ args v o}, evalCall entry n (f :: Δ) args = some (v, o) →
    Linked P entry (f :: Δ) (callee :: Γ) → args.length = callee.params.length ∧
      ∃ k, P.code[k]? = some (.label callee.label) ∧
        ∀ d, 8 ∣ d.get .sp → Passed args d → P.Answers k d v o
  stmt : ∀ {A Δ σ st flow o s t out c}, evalStmt entry n Δ σ st = some (flow, o) → Context P entry A Δ s →
    (lowerStmt st).run s = .ok () t → Carries P A t → A.Running False σ s.holder [] out c →
    Continues P A t (out ++ o) ⟨s.code.size, c⟩ flow
  block : ∀ {A Δ σ ss flow o s t out c}, evalBlock entry n Δ σ ss = some (flow, o) → Context P entry A Δ s →
    (lowerBlock ss).run s = .ok () t → Carries P A t → A.Running False σ s.holder [] out c →
    Continues P A t (out ++ o) ⟨s.code.size, c⟩ flow
  loop : ∀ {A Δ σ test body flow o top done e made clean valued inside finish saved back out c},
    evalLoop entry n Δ σ test body = some (flow, o) →
    LoopStations test (lowerBlock body) top done e made clean valued inside finish saved back →
    Context P entry A Δ (clean.place top) → Carries P A (back.place done) →
    A.Running False σ (clean.place top).holder [] out c →
    Continues P A (back.place done) (out ++ o) ⟨(clean.place top).code.size, c⟩ flow

theorem simulates_zero : Simulates P entry 0 where
  expr h := absurd h (by simp [evalExpr])
  arguments h := absurd h (by simp [evalArguments])
  call h := absurd h (by simp [evalCall])
  stmt h := absurd h (by simp [evalStmt])
  block h := absurd h (by simp [evalBlock])
  loop h := absurd h (by simp [evalLoop])

/-! ## Expressions -/

section Expressions

variable {e left right operand : Expr} {span : Span} {v x y : Word}

theorem run_expression_ok (h : (milestone .expression).run s = .ok () t) : t = s :=
  (EStateM.Result.ok.inj h).2.symm

/-- The code of a constant. -/
theorem leads_constant {k : Constant} {loc : Position} (hv : k.word? = some v) (hs : Ready [] s)
    (hlower : (pushConstant k loc).run s = .ok () t) (ht : Carries P A t)
    (hrun : A.Running clean σ s.holder vs out c) :
    Leads P s t c (A.Running clean σ t.holder (v :: vs) out) := by
  cases k with
  | int w =>
      obtain rfl := Option.some.inj hv
      exact ((pushLiteral_ensures hs w).run_ok hlower).1.leads hs ht hrun
  | bool b =>
      obtain rfl := Option.some.inj hv
      exact ((pushLiteral_ensures hs _).run_ok hlower).1.leads hs ht hrun
  | str text => exact absurd hv (by simp [Constant.word?])

theorem settled_operands (hs : Ready [] s) (hleft : (lowerExpr left).run s = .ok () t)
    (hright : (lowerExpr right).run t = .ok () u) : Settled s u :=
  have h₁ := (lowerExpr_ensures left hs).run_ok hleft
  h₁.trans ((lowerExpr_ensures right h₁.ready).run_ok hright)

/-- The code of two operands, one after the other. -/
theorem Simulates.operands (ih : Simulates P entry n) {o' : List Word} (hx : evalExpr entry n Δ σ left = some (x, o))
    (hy : evalExpr entry n Δ σ right = some (y, o')) (hctx : Context P entry A Δ s)
    (hleft : (lowerExpr left).run s = .ok () t) (hright : (lowerExpr right).run t = .ok () u) (hu : Carries P A u)
    (hrun : A.Running clean σ s.holder vs out c) :
    Leads P s u c (A.Running clean σ u.holder (y :: x :: vs) (out ++ (o ++ o'))) := by
  have h₁ := (lowerExpr_ensures left hctx.ready).run_ok hleft
  have h₂ := (lowerExpr_ensures right h₁.ready).run_ok hright
  refine (ih.expr hx hctx hleft (hu.of_extends h₂.steady.extends) hrun).bind fun d hd => ?_
  rw [← List.append_assoc]
  exact ih.expr hy (hctx.settled h₁) hright hu hd

/-- The code of a call of a function. -/
theorem Simulates.named_call (ih : Simulates P entry n) (hP : P.Labelled) {name : String} {args : List Expr}
    {xs o' : List Word} {callee : Callee} (hargs : evalArguments entry n Δ σ args = some (xs, o))
    (hcall : evalCall entry n (inSight Δ name) xs = some (v, o')) (hctx : Context P entry A Δ s)
    (hcallee : s.arena.resolveFunction? s.current name = some callee)
    (hlower : (lowerArguments args).run s = .ok () t) (hfinish : (finishCall callee args.length).run t = .ok () u)
    (hu : Carries P A u) (hrun : A.Running clean σ s.holder vs out c) :
    Leads P s u c (A.Running clean σ u.holder (v :: vs) (out ++ (o ++ o'))) := by
  have hs := hctx.ready
  obtain ⟨_, i, _, hmem⟩ := Arena.resolveFunction?_some hcallee
  have h₁ := (lowerArguments_ensures args hs).run_ok hlower
  obtain ⟨hcalled, h₂⟩ := (finishCall_ensures h₁.ready args.length (hs.named.params hmem)).run_ok hfinish
  -- the definition that the source calls is the one whose code is called
  cases hsight : inSight Δ name with
  | nil =>
      rw [hsight] at hcall
      cases n <;> exact absurd hcall (by simp [evalCall])
  | cons f Δ' =>
      obtain ⟨callee', Γ', hfind, hlinked⟩ := hctx.linked.find? hsight
      rw [resolveFunction?_eq_find? hs, hfind] at hcallee
      obtain rfl := Option.some.inj hcallee
      rw [hsight] at hcall
      obtain ⟨hlen, k, hk, hanswers⟩ := ih.call hcall hlinked
      refine (ih.arguments hargs hctx hlower (hu.of_extends h₂.steady.extends) hrun).bind fun d hd => ?_
      rw [← List.append_assoc]
      exact hcalled.leads hP h₁.ready hu (hs.named.params hmem) hlen (hs.named.result hmem) hk hanswers hd

/-- The code of a call. -/
theorem Simulates.call_expr (ih : Simulates P entry n) (hP : P.Labelled) {func : Expr} {args : List Expr}
    (heval : evalExpr entry (n + 1) Δ σ (.call span func args) = some (v, o)) (hctx : Context P entry A Δ s)
    (hlower : (lowerExpr (.call span func args)).run s = .ok () t) (ht : Carries P A t)
    (hrun : A.Running clean σ s.holder vs out c) :
    Leads P s t c (A.Running clean σ t.holder (v :: vs) (out ++ o)) := by
  have hs := hctx.ready
  simp only [evalExpr, Option.bind_eq_bind, Option.bind_eq_some_iff] at heval
  obtain ⟨name, hname, heval⟩ := heval
  rw [lowerExpr.eq_def] at hlower
  dsimp only at hlower
  rw [hname] at hlower
  dsimp only at hlower
  by_cases hprint : name = printName
  · rw [if_pos hprint] at heval hlower
    rcases args with _ | ⟨arg, _ | ⟨arg', rest⟩⟩
    · exact absurd heval (by simp)
    · obtain ⟨⟨x, o₁⟩, hx, heq⟩ := Option.bind_eq_some_iff.mp heval
      obtain ⟨rfl, rfl⟩ := Prod.mk.inj (Option.some.inj heq)
      obtain ⟨_, t₁, harg, hlower⟩ := run_bind_ok.mp hlower
      obtain ⟨_, t₂, hfinish, hdone⟩ := run_bind_ok.mp hlower
      obtain rfl := run_expression_ok hdone
      have h₁ := (lowerExpr_ensures arg hs).run_ok harg
      obtain ⟨hprinted, h₂⟩ := (finishPrint_ensures h₁.ready).run_ok hfinish
      refine (ih.expr hx hctx harg (ht.of_extends h₂.steady.extends) hrun).bind fun d hd => ?_
      rw [← List.append_assoc]
      exact hprinted.leads h₁.ready ht hd
    · exact absurd heval (by simp)
  · rw [if_neg hprint] at heval hlower
    obtain ⟨⟨xs, o₁⟩, hxs, heval⟩ := Option.bind_eq_some_iff.mp heval
    obtain ⟨⟨x, o₂⟩, hx, heq⟩ := Option.bind_eq_some_iff.mp heval
    obtain ⟨rfl, rfl⟩ := Prod.mk.inj (Option.some.inj heq)
    obtain ⟨callee, s', hresolve, hlower⟩ := run_bind_ok.mp hlower
    obtain ⟨_, t₁, hargs, hlower⟩ := run_bind_ok.mp hlower
    obtain ⟨_, t₂, hfinish, hdone⟩ := run_bind_ok.mp hlower
    obtain rfl := run_expression_ok hdone
    -- looking up the callee emits nothing, so the code of its arguments starts where the call does
    obtain ⟨rfl, hcallee, _⟩ := (resolveCallee_ensures (I := Sound) name args.length span.start).run_ok hresolve
    exact ih.named_call hP hxs hx hctx hcallee hargs hfinish ht hrun

theorem Simulates.expr_succ (ih : Simulates P entry n) (hP : P.Labelled)
    (heval : evalExpr entry (n + 1) Δ σ e = some (v, o)) (hctx : Context P entry A Δ s)
    (hlower : (lowerExpr e).run s = .ok () t) (ht : Carries P A t) (hrun : A.Running clean σ s.holder vs out c) :
    Leads P s t c (A.Running clean σ t.holder (v :: vs) (out ++ o)) := by
  have hs := hctx.ready
  cases e with
  | const span k =>
      simp only [evalExpr, Option.map_eq_some_iff] at heval
      obtain ⟨w, hw, heq⟩ := heval
      obtain ⟨rfl, rfl⟩ := Prod.mk.inj heq
      rw [lowerExpr] at hlower
      obtain ⟨_, t', hpush, hdone⟩ := run_bind_ok.mp hlower
      obtain rfl := run_expression_ok hdone
      rw [List.append_nil]
      exact leads_constant hw hs hpush ht hrun
  | name span id ctx =>
      simp only [evalExpr, Option.map_eq_some_iff] at heval
      obtain ⟨w, hw, heq⟩ := heval
      obtain ⟨rfl, rfl⟩ := Prod.mk.inj heq
      rw [lowerExpr] at hlower
      obtain ⟨_, t', hpush, hdone⟩ := run_bind_ok.mp hlower
      obtain rfl := run_expression_ok hdone
      rw [List.append_nil]
      exact ((pushVariable_ensures hs id _).run_ok hpush).1.leads hs ht hw hrun
  | binary span left op right =>
      simp only [evalExpr, Option.bind_eq_bind, Option.bind_eq_some_iff] at heval
      obtain ⟨⟨x, o₁⟩, hx, ⟨y, o₂⟩, hy, heq⟩ := heval
      obtain ⟨rfl, rfl⟩ := Prod.mk.inj (Option.some.inj heq)
      rw [lowerExpr] at hlower
      obtain ⟨_, t₁, hleft, hlower⟩ := run_bind_ok.mp hlower
      obtain ⟨_, t₂, hright, hlower⟩ := run_bind_ok.mp hlower
      obtain ⟨_, t₃, hop, hdone⟩ := run_bind_ok.mp hlower
      obtain rfl := run_expression_ok hdone
      have h₂ := settled_operands hs hleft hright
      obtain ⟨hcombined, h₃⟩ := (combineBinary_ensures h₂.ready op).run_ok hop
      refine (ih.operands hx hy hctx hleft hright (ht.of_extends h₃.steady.extends) hrun).bind fun d hd => ?_
      exact hcombined.leads h₂.ready ht hd
  | unary span op operand =>
      simp only [evalExpr, Option.bind_eq_bind, Option.bind_eq_some_iff] at heval
      obtain ⟨⟨x, o₁⟩, hx, heq⟩ := heval
      obtain ⟨rfl, rfl⟩ := Prod.mk.inj (Option.some.inj heq)
      rw [lowerExpr] at hlower
      cases hneg : negatedLiteral? op operand with
      | some w =>
          -- the sign is part of the literal: the operand has no code of its own
          rw [hneg] at hlower
          obtain ⟨_, t', hpush, hdone⟩ := run_bind_ok.mp hlower
          obtain rfl := run_expression_ok hdone
          obtain ⟨hw, rfl⟩ := evalExpr_negatedLiteral hneg hx
          rw [← hw, List.append_nil]
          exact ((pushLiteral_ensures hs w).run_ok hpush).1.leads hs ht hrun
      | none =>
          rw [hneg] at hlower
          obtain ⟨_, t₁, hoperand, hlower⟩ := run_bind_ok.mp hlower
          obtain ⟨_, t₂, hop, hdone⟩ := run_bind_ok.mp hlower
          obtain rfl := run_expression_ok hdone
          have h₁ := (lowerExpr_ensures operand hs).run_ok hoperand
          obtain ⟨happlied, h₂⟩ := (applyUnary_ensures h₁.ready op).run_ok hop
          refine (ih.expr hx hctx hoperand (ht.of_extends h₂.steady.extends) hrun).bind fun d hd => ?_
          exact happlied.leads h₁.ready ht hd
  | compare span left ops comparators =>
      obtain ⟨op, right, rfl, rfl⟩ := single_of_evalExpr_compare heval
      simp only [evalExpr, Option.bind_eq_bind, Option.bind_eq_some_iff] at heval
      obtain ⟨⟨x, o₁⟩, hx, ⟨y, o₂⟩, hy, heq⟩ := heval
      obtain ⟨rfl, rfl⟩ := Prod.mk.inj (Option.some.inj heq)
      rw [lowerExpr] at hlower
      obtain ⟨_, t₁, hleft, hlower⟩ := run_bind_ok.mp hlower
      obtain ⟨_, t₂, hright, hlower⟩ := run_bind_ok.mp hlower
      obtain ⟨_, t₃, hop, hdone⟩ := run_bind_ok.mp hlower
      obtain rfl := run_expression_ok hdone
      have h₂ := settled_operands hs hleft hright
      obtain ⟨hcompared, h₃⟩ := (combineCompare_ensures h₂.ready op).run_ok hop
      refine (ih.operands hx hy hctx hleft hright (ht.of_extends h₃.steady.extends) hrun).bind fun d hd => ?_
      exact hcompared.leads hP h₂.ready ht hd
  | call span func args =>
      exact ih.call_expr hP heval hctx hlower ht hrun

/-- The code of arguments, the last one first. -/
theorem Simulates.arguments_succ (ih : Simulates P entry n) {args : List Expr} {xs : List Word}
    (heval : evalArguments entry (n + 1) Δ σ args = some (xs, o)) (hctx : Context P entry A Δ s)
    (hlower : (lowerArguments args).run s = .ok () t) (ht : Carries P A t)
    (hrun : A.Running clean σ s.holder vs out c) :
    Leads P s t c (A.Running clean σ t.holder (xs ++ vs) (out ++ o)) := by
  cases args with
  | nil =>
      obtain ⟨rfl, rfl⟩ := Prod.mk.inj (Option.some.inj heval)
      rw [lowerArguments] at hlower
      obtain ⟨_, rfl⟩ := EStateM.Result.ok.inj hlower
      rw [List.append_nil]
      exact .refl hrun
  | cons arg rest =>
      simp only [evalArguments, Option.bind_eq_bind, Option.bind_eq_some_iff] at heval
      obtain ⟨⟨ys, o₁⟩, hys, ⟨y, o₂⟩, hy, heq⟩ := heval
      obtain ⟨rfl, rfl⟩ := Prod.mk.inj (Option.some.inj heq)
      rw [lowerArguments] at hlower
      obtain ⟨_, t₁, hrest, harg⟩ := run_bind_ok.mp hlower
      have h₁ := (lowerArguments_ensures rest hctx.ready).run_ok hrest
      have h₂ := (lowerExpr_ensures arg h₁.ready).run_ok harg
      refine (ih.arguments hys hctx hrest (ht.of_extends h₂.steady.extends) hrun).bind fun d hd => ?_
      rw [← List.append_assoc]
      exact ih.expr hy (hctx.settled h₁) harg ht hd

end Expressions

end Offside.Lower
