import Offside.Proofs.BlackBox
import Offside.Proofs.Correctness

/-!
# `Proofs.Situations` — expressions from any register situation

Whichever variables are in registers when code generation comes to an expression, the code of the expression
computes it, from any core where the variables are where the state says (`Matches`) and whatever the calls
in it do. `Evaluates` says what an expression comes to if its calls answer as logged; the proof is by
recursion over the expression (`lowerExpr_computes`), and each case puts the moves of `Proofs.BlackBox`
together.

A core in the middle of an expression is a call in progress whose frame is open (`Activation`): the words
between the stack pointer and the frame are values in progress, whatever they mean.
-/

namespace Offside

/-- The variables of a call, if all of them have values. -/
def Activation.values (A : Activation) (ν : String → Word) : Store :=
  fun x => if x ∈ A.table then some (ν x) else none

namespace Lower

open Machine

variable {P : Image} {A : Activation} {Γ : List Callee} {ν : String → Word} {s t u : State} {vs out : List Word}
  {c d : Core} {n : Nat}

/-! ## Values -/

mutual

/-- **What an expression comes to**, with the values `ν` of variables and the functions `Γ` in sight, and the
    calls it makes, in order. The value of a call is its answer; it was handed the values of its arguments. -/
inductive Evaluates (Γ : List Callee) (ν : String → Word) : Expr → Word → List Call → Prop
  | const {span : Span} {k : Constant} {w : Word} (hw : k.word? = some w) : Evaluates Γ ν (.const span k) w []
  | name {span : Span} {x : String} {use : NameUse} : Evaluates Γ ν (.name span x use) (ν x) []
  | binary {span : Span} {left right : Expr} {op : BinaryOp} {x y : Word} {log log' : List Call}
      (hx : Evaluates Γ ν left x log) (hy : Evaluates Γ ν right y log') :
      Evaluates Γ ν (.binary span left op right) (op.eval x y) (log ++ log')
  | unary {span : Span} {op : UnaryOp} {operand : Expr} {x : Word} {log : List Call}
      (hx : Evaluates Γ ν operand x log) : Evaluates Γ ν (.unary span op operand) (op.eval x) log
  | compare {span : Span} {left right : Expr} {op : CompareOp} {x y : Word} {log log' : List Call}
      (hx : Evaluates Γ ν left x log) (hy : Evaluates Γ ν right y log') :
      Evaluates Γ ν (.compare span left [op] [right]) (op.eval x y) (log ++ log')
  | print {span : Span} {func arg : Expr} {x : Word} {log : List Call} {call : Call}
      (hname : func.asName? = some printName) (hx : Evaluates Γ ν arg x log) (hcall : call.Prints x) :
      Evaluates Γ ν (.call span func [arg]) 0 (log ++ [call])
  | call {span : Span} {func : Expr} {args : List Expr} {name : String} {callee : Callee} {xs : List Word}
      {log : List Call} {call : Call} (hname : func.asName? = some name) (hprint : name ≠ printName)
      (hcallee : Γ.find? (·.name == name) = some callee) (hargs : EvaluatesAll Γ ν args xs log)
      (hcall : call.Receives callee xs) : Evaluates Γ ν (.call span func args) call.answer (log ++ [call])

/-- What arguments come to, the last one first. -/
inductive EvaluatesAll (Γ : List Callee) (ν : String → Word) : List Expr → List Word → List Call → Prop
  | nil : EvaluatesAll Γ ν [] [] []
  | cons {arg : Expr} {rest : List Expr} {x : Word} {xs : List Word} {log log' : List Call}
      (hrest : EvaluatesAll Γ ν rest xs log) (hx : Evaluates Γ ν arg x log') :
      EvaluatesAll Γ ν (arg :: rest) (x :: xs) (log ++ log')

end

theorem EvaluatesAll.length_eq : ∀ {args : List Expr} {xs : List Word} {log : List Call},
    EvaluatesAll Γ ν args xs log → xs.length = args.length
  | _, _, _, .nil => rfl
  | _, _, _, .cons hrest _ => congrArg (· + 1) hrest.length_eq

mutual

/-- The number of calls in an expression. -/
def callCount : Expr → Nat
  | .const _ _ | .name _ _ _ => 0
  | .binary _ left _ right => callCount left + callCount right
  | .unary _ _ operand => callCount operand
  | .compare _ left _ comparators => callCount left + callCountAll comparators
  | .call _ _ args => callCountAll args + 1

def callCountAll : List Expr → Nat
  | [] => 0
  | arg :: rest => callCountAll rest + callCount arg

end

mutual

/-- **Every call in an expression is made once.** -/
theorem Evaluates.length_eq : ∀ {e : Expr} {v : Word} {log : List Call}, Evaluates Γ ν e v log →
    log.length = callCount e
  | _, _, _, .const _ => by rw [callCount]; rfl
  | _, _, _, .name => by rw [callCount]; rfl
  | _, _, _, .binary hx hy => by rw [List.length_append, hx.length_eq, hy.length_eq, callCount]
  | _, _, _, .unary hx => by rw [hx.length_eq, callCount]
  | _, _, _, .compare hx hy => by
      rw [List.length_append, hx.length_eq, hy.length_eq, callCount, callCountAll, callCountAll, Nat.zero_add]
  | _, _, _, .print _ hx _ => by
      rw [List.length_append, hx.length_eq, callCount, callCountAll, callCountAll, Nat.zero_add, List.length_singleton]
  | _, _, _, .call _ _ _ hargs _ => by rw [List.length_append, hargs.length_log, callCount, List.length_singleton]

theorem EvaluatesAll.length_log : ∀ {args : List Expr} {xs : List Word} {log : List Call},
    EvaluatesAll Γ ν args xs log → log.length = callCountAll args
  | _, _, _, .nil => by rw [callCountAll]; rfl
  | _, _, _, .cons hrest hx => by rw [List.length_append, hrest.length_log, hx.length_eq, callCountAll]

end

/-- **The answers of its calls determine what an expression comes to.** -/
theorem Evaluates.unique : ∀ {e : Expr} {v v' : Word} {log log' : List Call}, Evaluates Γ ν e v log →
    Evaluates Γ ν e v' log' → log' = log → v' = v
  | _, _, _, _, _, .const hw, h', _ => by
      cases h' with
      | const hw' => exact Option.some.inj (hw'.symm.trans hw)
  | _, _, _, _, _, .name, h', _ => by
      cases h' with
      | name => rfl
  | _, _, _, _, _, .binary hx hy, h', heq => by
      cases h' with
      -- how many calls an operand makes is read off its text, so equal logs agree operand by operand
      | binary hx' hy' =>
          obtain ⟨hleft, hright⟩ := List.append_inj heq (hx'.length_eq.trans hx.length_eq.symm)
          rw [hx.unique hx' hleft, hy.unique hy' hright]
  | _, _, _, _, _, .unary hx, h', heq => by
      cases h' with
      | unary hx' => rw [hx.unique hx' heq]
  | _, _, _, _, _, .compare hx hy, h', heq => by
      cases h' with
      | compare hx' hy' =>
          obtain ⟨hleft, hright⟩ := List.append_inj heq (hx'.length_eq.trans hx.length_eq.symm)
          rw [hx.unique hx' hleft, hy.unique hy' hright]
  | _, _, _, _, _, .print hname _ _, h', _ => by
      cases h' with
      | print => rfl
      | call hname' hprint => exact absurd (Option.some.inj (hname'.symm.trans hname)) hprint
  | _, _, _, _, _, .call hname hprint _ _ _, h', heq => by
      cases h' with
      | print hname' => exact absurd (Option.some.inj (hname.symm.trans hname')) hprint
      | call => rw [(List.append_inj' heq rfl).2 |> List.singleton_inj.mp]

/-! ## Forms of expressions

`Computes` is what is to be shown of an expression, and `ComputesAll` of arguments, for any state in which
code generation comes to them. There is one lemma for each form. -/

/-- Code generation has come to an expression, with the functions `Γ` in sight. -/
structure Underway (n : Nat) (Γ : List Callee) (s : State) : Prop where
  ready : Ready [] s
  visible : s.visible = Γ
  size_le : n ≤ s.code.size

theorem Underway.settled (h : Underway n Γ s) (ht : Settled s t) : Underway n Γ t :=
  ⟨ht.ready, ht.steady.visible_eq.trans h.visible, ht.steady.extends.le_size h.size_le⟩

/-- **The code of an expression computes it**, from any state. -/
def Computes (P : Image) (A : Activation) (n : Nat) (Γ : List Callee) (ν : String → Word) (e : Expr) : Prop :=
  ∀ ⦃s t : State⦄ ⦃vs out : List Word⦄ ⦃c : Core⦄, Underway n Γ s → (lowerExpr e).run s = .ok () t → Bears P A n t →
    A.Running False (A.values ν) s.holder vs out c →
    Assures P n s t c fun calls d => ∃ v out', Evaluates Γ ν e v calls ∧
      A.Running False (A.values ν) t.holder (v :: vs) out' d

/-- **The code of arguments computes them.** -/
def ComputesAll (P : Image) (A : Activation) (n : Nat) (Γ : List Callee) (ν : String → Word) (args : List Expr) :
    Prop :=
  ∀ ⦃s t : State⦄ ⦃vs out : List Word⦄ ⦃c : Core⦄, Underway n Γ s → (lowerArguments args).run s = .ok () t →
    Bears P A n t → A.Running False (A.values ν) s.holder vs out c →
    Assures P n s t c fun calls d => ∃ xs out', EvaluatesAll Γ ν args xs calls ∧
      A.Running False (A.values ν) t.holder (xs ++ vs) out' d

/-- A variable that is fetched has a slot in the frame. -/
theorem Fetched.mem_table {x : String} (h : Fetched x s t) (hs : Ready [] s) : x ∈ s.arena.table s.current := by
  obtain ⟨v, r, mid, hresolve, hmid, _⟩ := h
  rcases hmid with ⟨hact, rfl⟩ | hload
  · obtain ⟨_, var, hvar, rfl⟩ := Arena.resolve?_some hresolve
    exact List.mem_of_getElem? (hs.named.slot hvar (hs.tidy.place hact).2)
  · obtain ⟨mid', y, k, halloc, hy, hloads⟩ := hload.loads hs
    obtain rfl := resolve?_inj hy hresolve
    have hmem := List.mem_of_getElem? hloads.slot
    rwa [(halloc.steady hs).current, (halloc.steady hs).alike.table_eq] at hmem

section Cases

variable {left right operand arg func : Expr} {args rest : List Expr} {span : Span}

/-- An expression that has no code. -/
theorem computes_of_fail {e : Expr} {fault : Fault} (h : lowerExpr e = fail fault) : Computes P A n Γ ν e := by
  intro s t vs out c hs hlower
  rw [h] at hlower
  exact absurd hlower (by simp)

theorem computes_const (k : Constant) : Computes P A n Γ ν (.const span k) := by
  intro s t vs out c hs hlower ht hrun
  rw [lowerExpr] at hlower
  obtain ⟨_, t', hpush, hdone⟩ := run_bind_ok.mp hlower
  obtain rfl := run_expression_ok hdone
  have hloaded : ∃ w, k.word? = some w ∧ Loaded w s t := by
    cases k with
    | int w => exact ⟨w, rfl, ((pushLiteral_ensures hs.ready w).run_ok hpush).1⟩
    | bool b => exact ⟨_, rfl, ((pushLiteral_ensures hs.ready _).run_ok hpush).1⟩
    | str text => exact absurd hpush (by simp [pushConstant])
  obtain ⟨w, hw, hload⟩ := hloaded
  refine Leads.assures (((hload.window hs.ready hs.size_le).leads hs.ready.window ht.carries hrun).mono fun d hd => ?_)
  exact ⟨w, out, .const hw, hd⟩

theorem computes_name (x : String) (use : NameUse) : Computes P A n Γ ν (.name span x use) := by
  intro s t vs out c hs hlower ht hrun
  rw [lowerExpr] at hlower
  obtain ⟨_, t', hpush, hdone⟩ := run_bind_ok.mp hlower
  obtain rfl := run_expression_ok hdone
  obtain ⟨hfetched, hsettled⟩ := (pushVariable_ensures hs.ready x _).run_ok hpush
  have hmem := (ht.of_extends hsettled.steady.extends).table.subset (hfetched.mem_table hs.ready)
  have hx : A.values ν x = some (ν x) := if_pos hmem
  refine Leads.assures
    (((hfetched.window hs.ready hs.size_le).leads hs.ready.window ht.carries hx hrun).mono fun d hd => ?_)
  exact ⟨ν x, out, .name, hd⟩

/-- The code of two operands, one after the other. -/
theorem Computes.operands (hleft : Computes P A n Γ ν left) (hright : Computes P A n Γ ν right)
    (hs : Underway n Γ s) (hl : (lowerExpr left).run s = .ok () t) (hr : (lowerExpr right).run t = .ok () u)
    (hu : Bears P A n u) (hrun : A.Running False (A.values ν) s.holder vs out c) :
    Assures P n s u c fun calls d => ∃ x y log log' out', calls = log ++ log' ∧ Evaluates Γ ν left x log ∧
      Evaluates Γ ν right y log' ∧ A.Running False (A.values ν) u.holder (y :: x :: vs) out' d := by
  have h₁ := (lowerExpr_ensures left hs.ready).run_ok hl
  have h₂ := (lowerExpr_ensures right h₁.ready).run_ok hr
  refine (hleft hs hl (hu.of_extends h₂.steady.extends) hrun).bind fun log d ⟨x, out₁, hx, hd⟩ => ?_
  refine (hright (hs.settled h₁) hr hu hd).mono fun log' e ⟨y, out₂, hy, he⟩ => ?_
  exact ⟨x, y, log, log', out₂, rfl, hx, hy, he⟩

theorem Computes.binary (op : BinaryOp) (hleft : Computes P A n Γ ν left) (hright : Computes P A n Γ ν right) :
    Computes P A n Γ ν (.binary span left op right) := by
  intro s t vs out c hs hlower ht hrun
  rw [lowerExpr] at hlower
  obtain ⟨_, t₁, hl, hlower⟩ := run_bind_ok.mp hlower
  obtain ⟨_, t₂, hr, hlower⟩ := run_bind_ok.mp hlower
  obtain ⟨_, t₃, hop, hdone⟩ := run_bind_ok.mp hlower
  obtain rfl := run_expression_ok hdone
  have h₂ := settled_operands hs.ready hl hr
  obtain ⟨hcombined, h₃⟩ := (combineBinary_ensures h₂.ready op).run_ok hop
  have hoperands := hleft.operands hright hs hl hr (ht.of_extends h₃.steady.extends) hrun
  refine hoperands.last fun calls d ⟨x, y, log, log', out', hcalls, hx, hy, hd⟩ => ?_
  subst hcalls
  exact ((hcombined.window h₂.ready (hs.settled h₂).size_le).leads h₂.ready.window ht.carries hd).mono
    fun e he => ⟨_, out', .binary hx hy, he⟩

theorem Computes.compare (op : CompareOp) (hP : P.stopped.Labelled) (hleft : Computes P A n Γ ν left)
    (hright : Computes P A n Γ ν right) : Computes P A n Γ ν (.compare span left [op] [right]) := by
  intro s t vs out c hs hlower ht hrun
  rw [lowerExpr] at hlower
  obtain ⟨_, t₁, hl, hlower⟩ := run_bind_ok.mp hlower
  obtain ⟨_, t₂, hr, hlower⟩ := run_bind_ok.mp hlower
  obtain ⟨_, t₃, hop, hdone⟩ := run_bind_ok.mp hlower
  obtain rfl := run_expression_ok hdone
  have h₂ := settled_operands hs.ready hl hr
  obtain ⟨hcompared, h₃⟩ := (combineCompare_ensures h₂.ready op).run_ok hop
  have hoperands := hleft.operands hright hs hl hr (ht.of_extends h₃.steady.extends) hrun
  refine hoperands.last fun calls d ⟨x, y, log, log', out', hcalls, hx, hy, hd⟩ => ?_
  subst hcalls
  exact ((hcompared.window h₂.ready (hs.settled h₂).size_le).leads hP h₂.ready.window ht.carries hd).mono
    fun e he => ⟨_, out', .compare hx hy, he⟩

theorem Computes.unary (op : UnaryOp) (hoperand : Computes P A n Γ ν operand) :
    Computes P A n Γ ν (.unary span op operand) := by
  intro s t vs out c hs hlower ht hrun
  rw [lowerExpr] at hlower
  cases hneg : negatedLiteral? op operand with
  | some w =>
      -- the literal and its sign are one number
      rw [hneg] at hlower
      obtain ⟨_, t', hpush, hdone⟩ := run_bind_ok.mp hlower
      obtain rfl := run_expression_ok hdone
      have hload := ((pushLiteral_ensures hs.ready w).run_ok hpush).1
      have hvalue : Evaluates Γ ν (.unary span op operand) w [] := by
        unfold negatedLiteral? at hneg
        split at hneg
        · obtain rfl := Option.some.inj hneg
          rw [← UnaryOp.eval_minus]
          exact .unary (.const rfl)
        · exact absurd hneg (by simp)
      refine Leads.assures
        (((hload.window hs.ready hs.size_le).leads hs.ready.window ht.carries hrun).mono fun d hd => ?_)
      exact ⟨w, out, hvalue, hd⟩
  | none =>
      rw [hneg] at hlower
      obtain ⟨_, t₁, ho, hlower⟩ := run_bind_ok.mp hlower
      obtain ⟨_, t₂, hop, hdone⟩ := run_bind_ok.mp hlower
      obtain rfl := run_expression_ok hdone
      have h₁ := (lowerExpr_ensures operand hs.ready).run_ok ho
      obtain ⟨happlied, h₂⟩ := (applyUnary_ensures h₁.ready op).run_ok hop
      have hvalue := hoperand hs ho (ht.of_extends h₂.steady.extends) hrun
      refine hvalue.last fun calls d hd => ?_
      obtain ⟨x, out', hx, hd⟩ := hd
      exact ((happlied.window h₁.ready (hs.settled h₁).size_le).leads h₁.ready.window ht.carries hd).mono
        fun e he => ⟨_, out', .unary hx, he⟩

theorem ComputesAll.nil : ComputesAll P A n Γ ν [] := by
  intro s t vs out c hs hlower ht hrun
  rw [lowerArguments] at hlower
  obtain ⟨_, rfl⟩ := EStateM.Result.ok.inj hlower
  exact .refl ⟨[], out, .nil, hrun⟩

theorem ComputesAll.cons (hrest : ComputesAll P A n Γ ν rest) (harg : Computes P A n Γ ν arg) :
    ComputesAll P A n Γ ν (arg :: rest) := by
  intro s t vs out c hs hlower ht hrun
  rw [lowerArguments] at hlower
  obtain ⟨_, t₁, hr, ha⟩ := run_bind_ok.mp hlower
  have h₁ := (lowerArguments_ensures rest hs.ready).run_ok hr
  have h₂ := (lowerExpr_ensures arg h₁.ready).run_ok ha
  refine (hrest hs hr (ht.of_extends h₂.steady.extends) hrun).bind fun log d ⟨xs, out₁, hxs, hd⟩ => ?_
  refine (harg (hs.settled h₁) ha ht hd).mono fun log' e ⟨x, out₂, hx, he⟩ => ?_
  exact ⟨x :: xs, out₂, .cons hxs hx, he⟩

/-- The code that prints a number. -/
theorem Computes.print (hname : func.asName? = some printName) (harg : Computes P A n Γ ν arg) :
    Computes P A n Γ ν (.call span func [arg]) := by
  intro s t vs out c hs hlower ht hrun
  rw [lowerExpr.eq_def] at hlower
  dsimp only at hlower
  rw [hname] at hlower
  dsimp only at hlower
  rw [if_pos rfl] at hlower
  obtain ⟨_, t₁, ha, hlower⟩ := run_bind_ok.mp hlower
  obtain ⟨_, t₂, hfinish, hdone⟩ := run_bind_ok.mp hlower
  obtain rfl := run_expression_ok hdone
  have h₁ := (lowerExpr_ensures arg hs.ready).run_ok ha
  obtain ⟨hprinted, h₂⟩ := (finishPrint_ensures h₁.ready).run_ok hfinish
  refine (harg hs ha (ht.of_extends h₂.steady.extends) hrun).bind fun log d ⟨x, out₁, hx, hd⟩ => ?_
  refine (hprinted.assures h₁.ready (hs.settled h₁).size_le ht hd).mono
    fun calls e ⟨call, out₂, hcalls, hcall, he⟩ => ?_
  subst hcalls
  exact ⟨0, out₂, .print hname hx hcall, he⟩

/-- The code of a call of a function. -/
theorem ComputesAll.call {name : String} (hname : func.asName? = some name) (hprint : name ≠ printName)
    (hargs : ComputesAll P A n Γ ν args) : Computes P A n Γ ν (.call span func args) := by
  intro s t vs out c hs hlower ht hrun
  rw [lowerExpr.eq_def] at hlower
  dsimp only at hlower
  rw [hname] at hlower
  dsimp only at hlower
  rw [if_neg hprint] at hlower
  obtain ⟨callee, s', hresolve, hlower⟩ := run_bind_ok.mp hlower
  obtain ⟨_, t₁, ha, hlower⟩ := run_bind_ok.mp hlower
  obtain ⟨_, t₂, hfinish, hdone⟩ := run_bind_ok.mp hlower
  obtain rfl := run_expression_ok hdone
  obtain ⟨rfl, hcallee, harity⟩ := (resolveCallee_ensures (I := Sound) name args.length span.start).run_ok hresolve
  obtain ⟨_, i, _, hmem⟩ := Arena.resolveFunction?_some hcallee
  have hnamed := hs.ready.named
  have h₁ := (lowerArguments_ensures args hs.ready).run_ok ha
  obtain ⟨hcalled, h₂⟩ := (finishCall_ensures h₁.ready args.length (hnamed.params hmem)).run_ok hfinish
  -- the name means the same function before and after the arguments
  rw [resolveFunction?_eq_find? hs.ready, hs.visible] at hcallee
  refine (hargs hs ha (ht.of_extends h₂.steady.extends) hrun).bind fun log d ⟨xs, out₁, hxs, hd⟩ => ?_
  have hlen : xs.length = callee.params.length := hxs.length_eq.trans harity
  refine (hcalled.assures h₁.ready (hs.settled h₁).size_le ht (hnamed.params hmem) hlen (hnamed.result hmem) hd).mono
    fun calls e ⟨call, out₂, hcalls, hcall, he⟩ => ?_
  subst hcalls
  exact ⟨call.answer, out₂, .call hname hprint hcallee hxs hcall, he⟩

end Cases

mutual

/-- **The code of every expression computes it.** -/
theorem lowerExpr_computes (hP : P.stopped.Labelled) : ∀ e : Expr, Computes P A n Γ ν e
  | .const _ k => computes_const k
  | .name _ x use => computes_name x use
  | .binary _ left op right => (lowerExpr_computes hP left).binary op (lowerExpr_computes hP right)
  | .unary _ op operand => (lowerExpr_computes hP operand).unary op
  | .compare _ left [op] [right] => (lowerExpr_computes hP left).compare op hP (lowerExpr_computes hP right)
  | .compare _ _ [] _ => computes_of_fail (by rw [lowerExpr.eq_def])
  | .compare _ _ (_ :: _ :: _) _ => computes_of_fail (by rw [lowerExpr.eq_def])
  | .compare _ _ [_] [] => computes_of_fail (by rw [lowerExpr.eq_def])
  | .compare _ _ [_] (_ :: _ :: _) => computes_of_fail (by rw [lowerExpr.eq_def])
  | .call span func args => by
      cases hname : func.asName? with
      | none => exact computes_of_fail (by rw [lowerExpr.eq_def]; dsimp only; rw [hname])
      | some name =>
          by_cases hprint : name = printName
          · subst hprint
            match args with
            | [arg] => exact (lowerExpr_computes hP arg).print hname
            | [] => exact computes_of_fail (by rw [lowerExpr.eq_def]; dsimp only; rw [hname]; exact if_pos rfl)
            | _ :: _ :: _ => exact computes_of_fail (by rw [lowerExpr.eq_def]; dsimp only; rw [hname]; exact if_pos rfl)
          · exact (lowerArguments_computes hP args).call hname hprint

theorem lowerArguments_computes (hP : P.stopped.Labelled) : ∀ args : List Expr, ComputesAll P A n Γ ν args
  | [] => .nil
  | arg :: rest => (lowerArguments_computes hP rest).cons (lowerExpr_computes hP arg)

end

/-! ## Cores -/

/-- **Variables are where the state says**: an active one in its register, any other one in its slot. -/
def Matches (ν : String → Word) (s : State) (c : Core) : Prop :=
  ∀ k x, (s.arena.table s.current)[k]? = some x →
    (∀ r, s.holder x = some r → c.get r = (ν x).toInt) ∧
    (s.holder x = none → c.mem (c.get .fp + Frame.slotOffset k) = (ν x).toInt)

/-- **A frame is open**: the stack pointer is below the slots, and memory holds words. -/
structure Framed (s : State) (c : Core) : Prop where
  sp_aligned : 8 ∣ c.get .sp
  fp_aligned : 8 ∣ c.get .fp
  room : c.get .sp + frameBytes (s.arena.slotCount s.current) ≤ c.get .fp
  words : ∀ a, ∃ w : Word, c.mem a = w.toInt

namespace Framed

/-- The call whose frame is open. -/
def activation (h : Framed s c) (hs : Ready [] s) : Activation where
  table := s.arena.table s.current
  base := c.set .sp (c.get .fp - frameBytes (s.arena.table s.current).length)
  nodup := hs.named.table_nodup
  aligned := by
    rw [Core.get_set_self (by decide)]
    have hfp := h.fp_aligned
    unfold frameBytes frameHeader slotSize
    omega
  frame := by
    rw [Core.get_set_self (by decide), Core.get_set_ne (by decide)]
    omega

/-- The words between the stack pointer and the frame. -/
def stack (s : State) (c : Core) : List Word :=
  (List.range ((c.get .fp - frameBytes (s.arena.table s.current).length - c.get .sp) / 8).toNat).map fun i : Nat =>
    BitVec.ofInt 64 (c.mem (c.get .sp + 8 * i))

theorem length_stack (h : Framed s c) :
    c.get .sp = c.get .fp - frameBytes (s.arena.table s.current).length - 8 * (stack s c).length := by
  have hsp := h.sp_aligned
  have hfp := h.fp_aligned
  have hroom := h.room
  rw [Arena.slotCount_eq] at hroom
  unfold stack
  rw [List.length_map, List.length_range]
  unfold frameBytes frameHeader slotSize at hroom ⊢
  omega

theorem stack_getElem? (h : Framed s c) {i : Nat} {w : Word} (hw : (stack s c)[i]? = some w) :
    c.mem (c.get .sp + 8 * i) = w.toInt := by
  unfold stack at hw
  rw [List.getElem?_map, Option.map_eq_some_iff] at hw
  obtain ⟨j, hj, rfl⟩ := hw
  obtain rfl : j = i := by
    obtain ⟨_, hj⟩ := List.getElem?_eq_some_iff.mp hj
    rw [List.getElem_range] at hj
    exact hj.symm
  obtain ⟨w', hw'⟩ := h.words (c.get .sp + 8 * j)
  rw [hw', BitVec.ofInt_toInt]

variable (h : Framed s c) (hs : Ready [] s)

theorem base_get {r : Register} (hr : r ≠ .sp) : (h.activation hs).base.get r = c.get r := Core.get_set_ne hr

theorem base_sp : (h.activation hs).base.get .sp = c.get .sp + 8 * (stack s c).length := by
  rw [h.length_stack]
  exact (Core.get_set_self (by decide)).trans (by omega)

theorem slot_eq (k : Nat) : (h.activation hs).slot k = c.get .fp + Frame.slotOffset k :=
  congrArg (· + Frame.slotOffset k) (h.base_get hs (by decide))

/-- **A core where the variables are in their places** is that of a call in progress. -/
theorem running (hν : Matches ν s c) :
    (h.activation hs).Running False ((h.activation hs).values ν) s.holder (stack s c) [] c := by
  -- the call starts here: nothing was printed, and memory is as it was
  refine ⟨?_, h.stack_getElem?, (List.append_nil _).symm, fun {r} hr => ?_, fun _ _ => rfl, fun x w hw => ?_⟩
  · rw [h.base_sp hs]; omega
  · exact (h.base_get hs (by rintro rfl; exact absurd hr (by decide))).symm
  · have hmem : x ∈ s.arena.table s.current := by
      by_contra hnot
      exact absurd ((if_neg hnot).symm.trans hw) (by simp)
    obtain rfl : ν x = w := Option.some.inj ((if_pos hmem).symm.trans hw)
    obtain ⟨k, hk⟩ := List.mem_iff_getElem?.mp hmem
    obtain ⟨hreg, hslot⟩ := hν k x hk
    refine ⟨k, hk, fun r hr => ⟨Register.isVolatile_of_clobbered (hs.clobbered_of_holder hr), hreg r hr⟩, fun hor => ?_⟩
    rw [h.slot_eq]
    exact hslot (hor.resolve_right id)

end Framed

/-- **What the code of an expression leaves**: its value is on top of the stack, memory in use is as it was
    but for the slots of the frame, and variables are where the state after it says. -/
structure Leaves (ν : String → Word) (s t : State) (v : Word) (c d : Core) : Prop where
  sp : d.get .sp = c.get .sp - 8
  top : d.mem (d.get .sp) = v.toInt
  kept : ∀ {r : Register}, r.isKept = true → d.get r = c.get r
  memory : ∀ a, 8 ∣ a → c.get .sp ≤ a → (∀ k < s.arena.slotCount s.current, a ≠ c.get .fp + Frame.slotOffset k) →
    d.mem a = c.mem a
  places : Matches ν t d

theorem Framed.leaves {v : Word} (h : Framed s c) (hs : Ready [] s) (hst : Settled s t)
    (hrun : (h.activation hs).Running False ((h.activation hs).values ν) t.holder (v :: Framed.stack s c) out d) :
    Leaves ν s t v c d := by
  have hbottom := h.base_sp hs
  have hkept : ∀ {r : Register}, r.isKept = true → d.get r = c.get r := fun {r} hr =>
    (hrun.kept hr).trans (h.base_get hs (by rintro rfl; exact absurd hr (by decide)))
  have hsp : d.get .sp = c.get .sp - 8 := by
    rw [hrun.sp, hbottom, List.length_cons]
    omega
  refine ⟨hsp, hrun.top, hkept, fun a haligned ha hne => ?_, fun k x hk => ?_⟩
  · by_cases hbelow : a < (h.activation hs).base.get .sp
    · -- below the frame there are the values in progress
      have hcaligned := h.sp_aligned
      obtain ⟨i, rfl⟩ : ∃ i : Nat, a = c.get .sp + 8 * i := ⟨((a - c.get .sp) / 8).toNat, by omega⟩
      have hi : i < (Framed.stack s c).length := by omega
      have hw := List.getElem?_eq_getElem hi
      have haddr : d.get .sp + 8 * ((i + 1 : Nat) : Int) = c.get .sp + 8 * i := by omega
      rw [h.stack_getElem? hw, ← haddr]
      exact hrun.stack hw
    · refine hrun.memory (by omega) fun k hk => ?_
      rw [h.slot_eq]
      exact hne k hk
  · rw [hst.steady.current, hst.steady.alike.table_eq] at hk
    have hmem : x ∈ (h.activation hs).table := List.mem_of_getElem? hk
    obtain ⟨j, hj, hreg, hmemory⟩ := hrun.agrees x (ν x) (if_pos hmem)
    obtain rfl : j = k := (h.activation hs).index_unique hj hk
    refine ⟨fun r hr => (hreg r hr).2, fun hnone => ?_⟩
    rw [hkept rfl, ← h.slot_eq hs]
    exact hmemory (Or.inl hnone)

/-- The lines of an expression have labels of their own, none of which is the printing routine. -/
theorem Settled.labelled {new : List Line} (h : Settled s t) (hnew : t.code.toList = s.code.toList ++ new)
    (hP : P.code = new) : P.stopped.Labelled := by
  obtain ⟨new', made, hnew', _, hperm, hnodup, hissued⟩ := h.steady.segment.lines
  obtain rfl : new' = new := List.append_cancel_left (hnew'.symm.trans hnew)
  rw [List.nil_append] at hperm
  rw [List.append_nil] at hnodup hissued
  have hlabels : labelNames P.stopped.code = labelNames new' := hP ▸ labelNames_stopped P.code
  refine ⟨?_, fun hprint => ?_⟩
  · rw [hlabels]
    exact hperm.nodup_iff.mpr hnodup
  · rw [hlabels] at hprint
    exact absurd (underscore_mem_of_issued (hissued _ (hperm.mem_iff.mp hprint)).1) (by decide)

/-- **The code of an expression computes it from any register situation.** Let code generation come to an
    expression with any variables in registers, and let it succeed. From every core where the variables have
    the values `ν` in the places that the state says, the lines added run to their end, whatever the calls do
    that they make; each call is handed the values of its arguments in the registers of its parameters. In the
    end the value is on top of the stack. -/
theorem expression_computes_from_any_registers (e : Expr) {s t : State} {ν : String → Word} {c : Core}
    (hs : Ready [] s) (hlower : (lowerExpr e).run s = .ok () t) (hframe : Framed s c) (hν : Matches ν s c) :
    ∃ new, t.code.toList = s.code.toList ++ new ∧ ∀ P : Image, P.code = new →
      P.Surely (fun log d => ∃ v, (∀ w, Evaluates s.visible ν e w log ↔ w = v) ∧ Leaves ν s t v c d) 0 [] c := by
  have hsettled := (lowerExpr_ensures e hs).run_ok hlower
  obtain ⟨new, hnew⟩ := hsettled.steady.extends.code
  refine ⟨new, hnew.symm, fun P hP => ?_⟩
  have hdrop : t.code.toList.drop s.code.size = P.code := by
    rw [← hnew, hP]
    exact List.drop_left' (by simp)
  have hbears : Bears P (hframe.activation hs) s.code.size t := by
    refine ⟨hdrop ▸ List.prefix_refl _, ?_⟩
    rw [hsettled.steady.current, hsettled.steady.alike.table_eq]
    exact List.prefix_refl _
  have hcomputes := lowerExpr_computes (hsettled.labelled hnew.symm hP) e ⟨hs, rfl, Nat.le_refl _⟩ hlower hbears
    (hframe.running hs hν)
  rw [← Nat.sub_self s.code.size]
  refine hcomputes _ [] fun calls d ⟨v, out, hv, hd⟩ => ?_
  have hend : t.code.size - s.code.size = P.code.length := by simp [← hdrop]
  have hvalue : ∀ w, Evaluates s.visible ν e w calls ↔ w = v := fun w =>
    ⟨fun hw => hv.unique hw rfl, fun hw => hw ▸ hv⟩
  rw [hend]
  exact .done ⟨v, hvalue, hframe.leaves hs hsettled hd⟩

def mixParams : List String := ["a", "b", "c", "d", "e", "f", "g"]

def mixLocals : List String := ["h", "i", "j", "k", "l", "m", "n"]

/-- `def mix(a, b, c, d, e, f, g)`, which sets as many variables of its own. -/
def mixModule : Module :=
  ⟨[.funcDef default "mix" mixParams
      (mixLocals.map fun x => .assign default [.name default x .store] (.const default (.int 0)))], default⟩

/-- `mix(h, i, j, k, l, m, n) + (a < print(b))` -/
def mixExpr : Expr :=
  .binary default (.call default (.name default "mix" .load) (mixLocals.map (.name default · .load))) .add
    (.compare default (.name default "a" .load) [.less]
      [.call default (.name default "print" .load) [.name default "b" .load]])

/-- The script succeeds. -/
def succeeds (x : Lower Unit) (s : State) : Bool :=
  match x.run s with
  | .ok _ _ => true
  | .error _ _ => false

theorem exists_of_succeeds {x : Lower Unit} (h : succeeds x s = true) : ∃ t, x.run s = .ok () t := by
  unfold succeeds at h
  cases hrun : x.run s with
  | ok _ t => exact ⟨t, rfl⟩
  | error e t => rw [hrun] at h; exact absurd h (by simp)

/-- A core with nothing on the stack of a frame that ends at 1024, and 0 everywhere else. -/
def idleCore (slots : Nat) : Core where
  regs r := if r = .sp then 1024 - frameBytes slots else if r = .fp then 1024 else 0
  mem _ := 0
  output := []

theorem framed_idleCore (hslots : s.arena.slotCount s.current = n) : Framed s (idleCore n) := by
  have hsp : (idleCore n).get .sp = 1024 - frameBytes n := rfl
  have hfp : (idleCore n).get .fp = 1024 := rfl
  refine ⟨?_, ?_, ?_, fun a => ⟨0, rfl⟩⟩
  · rw [hsp]
    unfold frameBytes frameHeader slotSize
    omega
  · rw [hfp]; decide
  · rw [hsp, hfp, hslots]; omega

theorem matches_idleCore (hs : Ready [] s) : Matches (fun _ => 0) s (idleCore n) := by
  refine fun k x _ => ⟨fun r hr => ?_, fun _ => rfl⟩
  have hclobbered := hs.clobbered_of_holder hr
  have hsp : r ≠ .sp := by rintro rfl; exact absurd hclobbered (by decide)
  have hfp : r ≠ .fp := by rintro rfl; exact absurd hclobbered (by decide)
  simp [Core.get, idleCore, hsp, hfp]

/-- Before the function ends, every register that variables may be in holds one. The code of the expression makes
    two calls, and comes to its end. -/
theorem expression_computes_from_any_registers_mixExpr : ∃ s t, Ready [] s ∧
    (mixParams ++ mixLocals).map s.holder =
      (RegisterClass.argument.members ++ RegisterClass.temporary.members).map some ∧
    (lowerExpr mixExpr).run s = .ok () t ∧ Framed s (idleCore 14) ∧ Matches (fun _ => 0) s (idleCore 14) ∧
    ∃ new, t.code.toList = s.code.toList ++ new ∧
      (∀ P : Image, P.code = new →
        P.Surely (fun log d => ∃ v, (∀ w, Evaluates s.visible (fun _ => 0) mixExpr w log ↔ w = v) ∧
          Leaves (fun _ => 0) s t v (idleCore 14) d) 0 [] (idleCore 14)) ∧
      ∃ log v d, log.length = 2 ∧ Evaluates s.visible (fun _ => 0) mixExpr v log ∧
        Leaves (fun _ => 0) s t v (idleCore 14) d := by
  obtain ⟨p, s, hp, htest⟩ : ∃ p s, (lowerModule mixModule).Passes (.initial {}) p s ∧
      (p = .boundary && s.arena.slotCount s.current = 14 && (mixParams ++ mixLocals).map s.holder =
          (RegisterClass.argument.members ++ RegisterClass.temporary.members).map some &&
        succeeds (lowerExpr mixExpr) s) = true :=
    exists_passes (by decide +kernel)
  simp only [Bool.and_eq_true, decide_eq_true_eq] at htest
  obtain ⟨⟨⟨rfl, hslots⟩, hholders⟩, hok⟩ := htest
  obtain ⟨t, hlower⟩ := exists_of_succeeds hok
  obtain ⟨held, hready, hheld⟩ := (lowerModule_ensures {} mixModule).passes hp
  obtain rfl := hheld rfl
  have hframed := framed_idleCore hslots
  have hplaces := matches_idleCore (n := 14) hready
  obtain ⟨new, hnew, hsurely⟩ := expression_computes_from_any_registers mixExpr hready hlower hframed hplaces
  obtain ⟨log, d, v, hv, hleaves⟩ := (hsurely ⟨new, fun _ _ => 0⟩ rfl).exists_end
  have hvalue := (hv v).mpr rfl
  exact ⟨s, t, hready, hholders, hlower, hframed, hplaces, new, hnew, hsurely, log, v, d,
    hvalue.length_eq.trans (by decide), hvalue, hleaves⟩

end Lower

end Offside
