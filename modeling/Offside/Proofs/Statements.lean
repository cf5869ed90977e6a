import Offside.Lower.Listing
import Offside.Proofs.Expressions

/-!
# `Proofs.Statements` — contracts of the code for statements and functions

A statement starts and ends with nothing held. In between it may bind names in the current scope and define
a function there; everything else in the arena stays as it is (`Completes`). Blocks are entered and left
with every variable in its slot, and so are functions; `lowerStmt_ensures` and `lowerBlock_ensures` put this
together by recursion over the tree, and `lowerModule_ensures` starts it at the empty state.
-/

namespace Offside.Lower

open Machine

variable {s t u : State} {held : List Register} {r : Register} {v w : VarRef}
  {names names' named named' pending pending' : List String} {fns fns' : List Callee}
  {I : Milestone → State → Prop}

/-! ## Stretches between statements -/

/-- **What a stretch of statements does**: it binds `names` in the current scope, defines `fns` there, and
    places the labels `named`, which come from outside. -/
structure Advances (names : List String) (fns : List Callee) (named pending : List String) (s t : State) :
    Prop where
  current : t.current = s.current
  frames : t.frames = s.frames
  options : t.options = s.options
  grows : s.arena.Grows names fns s.current t.arena
  segment : Segment (t.arena.slotCount t.current) named pending s t

theorem Advances.slotCount_le (h : Advances names fns named pending s t) :
    s.arena.slotCount s.current ≤ t.arena.slotCount t.current := by
  rw [Arena.slotCount_eq, Arena.slotCount_eq, h.current]
  exact h.grows.table_prefix.length_le

theorem Advances.trans (h : Advances names fns named pending s t) (h' : Advances names' fns' named' pending' t u)
    (hs : s.current < s.arena.scopes.size) :
    Advances (names ++ names') (fns ++ fns') (named ++ named') (pending ++ pending') s u :=
  ⟨h'.current.trans h.current, h'.frames.trans h.frames, h'.options.trans h.options,
    h.grows.trans (h.current ▸ h'.grows) hs, (h.segment.mono h'.slotCount_le).trans h'.segment⟩

theorem Steady.advances (h : Steady pending s t) : Advances [] [] [] pending s t :=
  ⟨h.current, h.frames, h.options, h.alike.grows _, h.slotCount_eq ▸ h.segment⟩

/-- A stretch followed by one that leaves the arena alone. -/
theorem Advances.steady (h : Advances names fns named pending s t) (h' : Steady [] t u)
    (hs : s.current < s.arena.scopes.size) : Advances names fns named pending s u := by
  simpa using h.trans h'.advances hs

theorem Advances.perm (h : Advances names fns named pending s t) (hn : named.Perm named')
    (hp : pending.Perm pending') : Advances names fns named' pending' s t :=
  ⟨h.current, h.frames, h.options, h.grows, h.segment.perm hn hp⟩

/-- A label that was made on the way and placed later is settled. -/
theorem Advances.settle {l : String} (h : Advances names fns (l :: named) (l :: pending) s t) :
    Advances names fns named pending s t :=
  ⟨h.current, h.frames, h.options, h.grows, h.segment.settle⟩

/-- **A finished statement**: nothing is held, and no label is left to be placed. -/
structure Completes (names : List String) (fns : List Callee) (named : List String) (s t : State) : Prop where
  ready : Ready [] t
  advances : Advances names fns named [] s t

theorem Settled.completes (h : Settled s t) : Completes [] [] [] s t := ⟨h.ready, h.steady.advances⟩

theorem Completes.trans (h : Completes names fns named s t) (h' : Completes names' fns' named' t u)
    (hs : Ready [] s) : Completes (names ++ names') (fns ++ fns') (named ++ named') s u :=
  ⟨h'.ready, h.advances.trans h'.advances hs.named.current_lt⟩

/-! ## Assignments -/

/-- A name that the table already has is bound again. -/
theorem grows_of_mem {a : Arena} {c : ScopeId} {x : String} (hx : x ∈ a.table c) : a.Grows [x] [] c a := by
  have h := (Arena.Alike.refl a).grows c
  refine ⟨h.size_le, h.parent_eq, h.root_eq, h.vars_eq, h.slotNames_eq, h.functions_eq, h.fresh,
    h.table_prefix, ?_, h.table_new, h.resolve_mono⟩
  intro y
  rw [List.mem_singleton]
  exact ⟨Or.inl, fun h => h.elim id fun he => he ▸ hx⟩

theorem completes_of_mem {name : String} (hs : Ready [] s) (hmem : name ∈ s.arena.table s.current) :
    Completes [name] [] [] s s :=
  ⟨hs, rfl, rfl, rfl, grows_of_mem hmem, (Steady.refl s).segment⟩

/-- **A name is about to be stored to**: it means a variable of the current function now. Registers and
    other names are as they were. -/
structure Bound (name : String) (v : VarRef) (s t : State) : Prop where
  completes : Completes [name] [] [] s t
  isLocal : ∃ var, Local t.arena t.current v var ∧ var.name = name
  resolve : t.arena.resolve? t.current name = some v
  holder_eq : ∀ x, t.holder x = s.holder x
  functions_eq : ∀ i, (t.arena.get i).functions = (s.arena.get i).functions
  does : Does [] s.pool t.arena s t

/-- A new variable is not active. -/
theorem inserted_activeRegister? {a b : Arena} {c : ScopeId} {var : Variable} (h : a.Inserted b c var)
    (hact : var.active = false) (w : VarRef) : b.activeRegister? w = a.activeRegister? w := by
  unfold Arena.activeRegister?
  rw [h.lookup?_eq]
  split
  · rename_i hw
    have hnone : a.lookup? w = none := by
      unfold Arena.lookup?
      rw [hw]
      exact List.getElem?_eq_none (Nat.le_refl _)
    rw [hnone]
    simp [Variable.activeRegister?, hact]
  · rfl

theorem Tidy.insert {p : Pool} {a b : Arena} {c : ScopeId} {var : Variable} (h : Tidy held p a c)
    (hb : a.Inserted b c var) (hact : var.active = false) : Tidy held p b c := by
  have heq := inserted_activeRegister? hb hact
  refine ⟨?_, ?_, ?_, ?_, ?_, ?_, ?_, h.held_inUse, h.held_nodup⟩
  · intro w x hw hx
    rw [hb.lookup?_eq] at hw
    split at hw
    · obtain rfl := Option.some.inj hw
      rw [hact] at hx
      exact absurd hx (by simp)
    · exact h.register hw hx
  · intro w x hw; rw [heq] at hw; exact h.clobbered hw
  · intro w x hw; rw [heq] at hw; rw [hb.chain_eq, hb.root_eq, hb.root_eq]; exact h.place hw
  · intro w w' x hw hw'; rw [heq] at hw hw'; exact h.distinct hw hw'
  · intro w x hw; rw [heq] at hw; exact h.active_inUse hw
  · intro w x hw; rw [heq] at hw; exact h.active_not_held hw
  · intro x hx; simpa only [heq] using h.accounted hx

/-- A name that means nothing yet is bound in the current scope. -/
theorem bound_insert {a : Arena} (hs : Ready [] s) {name : String} {var : Variable}
    (hnone : s.arena.resolve? s.current name = none) (hb : s.arena.Inserted a s.current var)
    (hname : var.name = name) (hact : var.active = false) (ht : Does [] s.pool a s t) :
    Bound name ⟨s.current, (s.arena.get s.current).vars.length⟩ s t := by
  subst hname
  have hresolve : a.resolve? s.current var.name = some ⟨s.current, (s.arena.get s.current).vars.length⟩ := by
    rw [hb.resolve?_eq, if_pos rfl]
  have hready : Ready [] t := ht.ready (hs.tidy.insert hb hact)
    (hs.named.insert hb fun hv hroot => hs.named.name_ne hnone hv hroot)
  have hlabels : ∀ i, (s.arena.get i).labels ≤ (a.get i).labels := fun i => Nat.le_of_eq (by rw [hb.get_eq])
  refine ⟨⟨hready, ht.current, ht.frames, ht.options, ?_,
    ht.segment (Nat.le_of_eq hb.size_eq.symm) hlabels (by simp)⟩, ?_, ?_, ?_,
    fun i => by rw [ht.arena, hb.functions_eq], ht.arena ▸ ht⟩
  · rw [ht.arena]; exact hb.grows hnone
  · refine ⟨var, ⟨?_, ?_, by rw [ht.current]⟩, rfl⟩
    · rw [ht.arena, hb.lookup?_eq, if_pos rfl]
    · rw [ht.current]; exact Arena.mem_chain_self _ _
  · rw [ht.arena, ht.current]; exact hresolve
  · intro x
    unfold State.holder
    rw [ht.arena, ht.current, hb.resolve?_eq]
    by_cases hx : var.name = x
    · -- the name meant nothing, and its variable is new
      have hlast : s.arena.lookup? ⟨s.current, (s.arena.get s.current).vars.length⟩ = none :=
        List.getElem?_eq_none (Nat.le_refl _)
      rw [if_pos hx, ← hx, hnone, Option.bind_some, inserted_activeRegister? hb hact, Arena.activeRegister?, hlast]
      rfl
    · rw [if_neg hx]
      exact Option.bind_congr fun w _ => inserted_activeRegister? hb hact w

theorem define_ensures (hs : Ready [] s) (name : String) :
    (define s.current name).Ensures I s fun v t =>
      (s.arena.resolve? s.current name = some v ∧ t = s) ∨ Bound name v s t := by
  unfold define
  rw [ensures_bind, ensures_look]
  cases hv : s.arena.resolve? s.current name with
  | some v => exact Or.inl ⟨rfl, rfl⟩
  | none =>
      obtain ⟨var, hplace, hb, hname, _, hact⟩ :=
        Arena.insert_inserted hs.named.wellFormed hs.named.current_lt name none
      dsimp only
      rw [ensures_bind, ensures_look]
      refine (change_does (p := s.pool) (a := (s.arena.insert s.current name none).2) rfl rfl rfl rfl rfl rfl rfl).bind
        fun _ t₁ h₁ => (note_does _).bind fun _ t₂ h₂ => ?_
      rw [h₁.pool, h₁.arena] at h₂
      exact Or.inr (hplace ▸ bound_insert hs hv hb hname hact (h₁.trans h₂))

theorem defineLocal_ensures (hs : Ready [] s) (name : String) (loc : Position) :
    (defineLocal name loc).Ensures I s fun v t => Bound name v s t := by
  unfold defineLocal
  rw [ensures_bind, ensures_look]
  refine (define_ensures hs name).bind fun v t hdef => (checkFrame_ensures loc).bind fun _ u ⟨hu, hroot⟩ => ?_
  subst hu
  rcases hdef with ⟨hv, rfl⟩ | hbound
  · obtain ⟨hchain, var, hvar, hname⟩ := Arena.resolve?_some hv
    have hmem : name ∈ u.arena.table u.current := hname ▸ List.mem_of_getElem? (hs.named.slot hvar hroot)
    exact ⟨completes_of_mem hs hmem, ⟨var, ⟨hvar, hchain, hroot⟩, hname⟩, hv, fun _ => rfl, fun _ => rfl, .refl u⟩
  · exact hbound

/-- **The top of the stack was stored to a variable**, in the register it was in or in a new one. -/
def Stored (v : VarRef) (s t : State) : Prop :=
  ∃ r mid, ((s.arena.activeRegister? v = some r ∧ mid = s) ∨
      (s.arena.activeRegister? v = none ∧ Allocated r s mid)) ∧
    Does (pop r) mid.pool (mid.arena.updateVariable v (·.bind r)) mid t

theorem popVariable_ensures {var : Variable} (hs : Ready [] s) (hvar : Local s.arena s.current v var) :
    (popVariable v).Ensures Inner s fun _ t => Stored v s t ∧ Settled s t := by
  unfold popVariable
  rw [ensures_bind, ensures_look]
  dsimp only
  cases hact : s.arena.activeRegister? v with
  | some r =>
      rw [ensures_bind, ensures_pure, ensures_bind, ensures_look]
      refine (comment_does _).bind fun _ t₁ h₁ => (emitInstrs_does _).bind fun _ t₂ h₂ => ?_
      rw [h₁.pool, h₁.arena] at h₂
      have h₀₂ := h₁.trans h₂
      refine (rebindVariable_ensures (h₀₂.ready_of_eq hs) (by rw [h₀₂.arena]; exact hact)).mono
        fun _ t hbound => ?_
      obtain ⟨ht, hready⟩ := hbound
      have hsteady := (h₀₂.steady_of_frameless (frameless_pop r)).trans (ht.steady_bind (by simp))
      rw [h₀₂.pool, h₀₂.arena] at ht
      exact ⟨⟨r, s, Or.inl ⟨hact, rfl⟩, h₀₂.trans ht⟩, hready, hsteady⟩
  | none =>
      refine (allocateTemp_ensures hs (by decide)).bind fun r t₀ halloc => ?_
      obtain ⟨halloc, h₀⟩ := halloc
      have hs₀ := halloc.steady hs
      rw [ensures_bind, ensures_look]
      refine (comment_does _).bind fun _ t₁ h₁ => (emitInstrs_does _).bind fun _ t₂ h₂ => ?_
      rw [h₁.pool, h₁.arena] at h₂
      have h₀₂ := h₁.trans h₂
      obtain ⟨var', hvar', _⟩ := hvar.of_alike hs₀.alike
      -- to make room other variables may be put away, but none is brought into a register
      have hnone := halloc.activeRegister?_eq_none hact
      refine (bindVariable_ensures (h₀₂.ready_of_eq h₀) (clobbered_of_temporary halloc.temporary)
        (by rw [h₀₂.arena, h₀₂.current, hs₀.current]; exact hvar') (by rw [h₀₂.arena]; exact hnone)).mono
        fun _ t hbound => ?_
      obtain ⟨ht, hready⟩ := hbound
      have hsteady := hs₀.trans ((h₀₂.steady_of_frameless (frameless_pop r)).trans (ht.steady_bind (by simp)))
      rw [h₀₂.pool, h₀₂.arena] at ht
      exact ⟨⟨r, t₀, Or.inr ⟨hact, halloc⟩, h₀₂.trans ht⟩, hready, hsteady⟩

theorem targetName_ensures (target : Expr) (loc : Position) :
    (targetName target loc).Ensures I s fun name t => t = s ∧ target.asName? = some name := by
  unfold targetName
  cases target.asName? with
  | none => trivial
  | some name => exact ⟨rfl, rfl⟩

theorem lowerAssign_ensures (hs : Ready [] s) (targets : List Expr) (value : Expr) (loc : Position) :
    (lowerAssign targets value loc).Ensures Inner s fun _ t =>
      Completes (targets.filterMap Expr.asName?) [] [] s t := by
  match targets with
  | [] => trivial
  | _ :: _ :: _ => trivial
  | [target] =>
      refine (targetName_ensures target loc).bind fun name t ⟨ht, hname⟩ => ?_
      subst ht
      refine (defineLocal_ensures hs name loc).bind fun v t₁ h₁ => ?_
      obtain ⟨var, hvar, _⟩ := h₁.isLocal
      refine (lowerExpr_ensures value h₁.completes.ready).bind fun _ t₂ h₂ => ?_
      obtain ⟨var', hvar', _⟩ := hvar.of_alike h₂.steady.alike
      refine (popVariable_ensures h₂.ready (h₂.steady.current ▸ hvar')).mono fun _ t₃ h₃ => ?_
      have hdone := h₁.completes.trans (h₂.trans h₃.2).completes hs
      simpa [hname] using hdone

theorem lowerAugAssign_ensures (hs : Ready [] s) (target : Expr) (op : BinaryOp) (value : Expr) (loc : Position) :
    (lowerAugAssign target op value loc).Ensures Inner s fun _ t =>
      Completes target.asName?.toList [] [] s t := by
  refine (targetName_ensures target loc).bind fun name t' ⟨ht', hname⟩ => ?_
  refine (resolveLocal_ensures name loc).bind fun v t ⟨ht, _, var, hvar, hname'⟩ => ?_
  subst ht ht'
  refine (pushVariable_ensures hs name loc).bind fun _ t₁ h₁ => (lowerExpr_ensures value h₁.2.ready).bind
    fun _ t₂ h₂ => (combineBinary_ensures h₂.ready op).bind fun _ t₃ h₃ => ?_
  have h₁₃ := (h₁.2.trans h₂).trans h₃.2
  obtain ⟨var', hvar', _⟩ := hvar.of_alike h₁₃.steady.alike
  refine (popVariable_ensures h₃.2.ready (h₁₃.steady.current ▸ hvar')).mono fun _ t₄ h₄ => ?_
  have hmem : name ∈ t.arena.table t.current :=
    hname' ▸ List.mem_of_getElem? (hs.named.slot hvar.1 hvar.2.2)
  rw [hname]
  exact (completes_of_mem hs hmem).trans (h₁₃.trans h₄.2).completes hs

/-! ## Results and expressions that stand alone -/

theorem frameless_epilogue (f : Frame) : ∀ i ∈ f.epilogue, i.frameOffset? = none := by
  simp [Frame.epilogue, Instr.frameOffset?]

theorem lowerReturn_ensures (hs : Ready [] s) (value : Option Expr) (loc : Position) :
    (lowerReturn value loc).Ensures Inner s fun _ t => Settled s t := by
  have hfinish : ∀ {f : Frame} {u : State}, Settled s u →
      (emitInstrs f.epilogue).Ensures Inner u fun _ t => Settled s t := fun hu =>
    (emitInstrs_does _).mono fun _ t ht =>
      hu.trans ⟨ht.ready_of_eq hu.ready, ht.steady_of_frameless (frameless_epilogue _)⟩
  unfold lowerReturn
  rw [ensures_bind, ensures_look]
  cases s.frames with
  | nil => trivial
  | cons frame rest =>
      cases value with
      | some e =>
          refine (lowerExpr_ensures e hs).bind fun _ t₁ h₁ => (emitInstrs_does _).bind fun _ t₂ h₂ => ?_
          exact hfinish (h₁.trans ⟨h₂.ready_of_eq h₁.ready, h₂.steady_of_frameless (frameless_pop _)⟩)
      | none =>
          refine (emitInstrs_does _).bind fun _ t h => ?_
          exact hfinish ⟨h.ready_of_eq hs, h.steady_of_frameless (by simp [Instr.frameOffset?])⟩

theorem lowerExprStmt_ensures (hs : Ready [] s) (e : Expr) :
    (lowerExprStmt e).Ensures Inner s fun _ t => Settled s t := by
  unfold lowerExprStmt
  rw [ensures_bind, ensures_look]
  dsimp only
  split
  · exact (comment_does _).mono fun _ t ht => ⟨ht.ready_of_eq hs, ht.steady_of_frameless (by simp)⟩
  · refine (lowerExpr_ensures e hs).bind fun _ t ht => (emitInstrs_does _).mono fun _ u hu => ?_
    exact ht.trans ⟨hu.ready_of_eq ht.ready, hu.steady_of_frameless (frameless_pop _)⟩

/-! ## Blocks -/

/-- **A block is entered.** -/
def Entered (s t : State) : Prop :=
  Does [] s.pool (s.arena.pushBlock s.current).2 { s with current := s.arena.scopes.size } t

theorem Entered.segment {n : Nat} (h : Entered s t) : Segment n [] [] s t := by
  refine (Does.segment h ?_ (fun i => Nat.le_of_eq (Arena.labels_push rfl i).symm) (by simp)).of_current
  rw [Arena.size_pushBlock]
  exact Nat.le_succ _

theorem enterBlock_ensures (hs : Ready held s) :
    enterBlock.Ensures Inner s fun outer t => outer = s.current ∧ Entered s t ∧ Ready held t := by
  have htidy : Tidy held s.pool (s.arena.pushBlock s.current).2 s.arena.scopes.size :=
    hs.tidy.pushBlock hs.named.current_lt rfl rfl rfl
  unfold enterBlock pushBlock
  rw [ensures_bind, ensures_look, ensures_bind, ensures_bind, ensures_look]
  exact ⟨Ready.inner ⟨htidy, hs.named.pushBlock⟩ rfl, rfl, ⟨rfl, rfl, rfl, rfl, rfl, rfl, [], by simp, rfl⟩,
    htidy, hs.named.pushBlock⟩

/-- **A block is left**: its variables are in their slots and belong to the scope around it. -/
def Left (outer : ScopeId) (s t : State) : Prop :=
  ∃ q a, Does [] q a { s with current := outer } t ∧
    (s.arena.releaseScope s.current).Hoisted a s.current outer

theorem Left.segment {n : Nat} {outer : ScopeId} (h : Left outer s t) : Segment n [] [] s t := by
  obtain ⟨q, a, hdoes, hhoist⟩ := h
  refine (hdoes.segment (Nat.le_of_eq ?_) (fun i => Nat.le_of_eq ?_) (by simp)).of_current
  · rw [hhoist.size_eq, Arena.alike_releaseScope.size_eq]
  · rw [hhoist.get_eq, Arena.labels_releaseScope]

theorem Left.idle {outer : ScopeId} (h : Left outer s t) (hs : Idle s.arena) : Idle t.arena := by
  obtain ⟨q, a, hdoes, hhoist⟩ := h
  rw [hdoes.arena]
  exact (hs.releaseScope _).hoist hhoist

theorem Left.slotCount_eq {outer : ScopeId} (h : Left outer s t)
    (hroot : (s.arena.get s.current).root = (s.arena.get outer).root) :
    t.arena.slotCount t.current = s.arena.slotCount s.current := by
  obtain ⟨q, a, hdoes, hhoist⟩ := h
  have halike : s.arena.Alike (s.arena.releaseScope s.current) := Arena.alike_releaseScope
  unfold Arena.slotCount
  rw [hdoes.arena, hdoes.current, hhoist.slotNames_eq, hhoist.root_eq, halike.slotNames_eq, halike.root_eq, hroot]

/-- The variables of the current block move to the scope around it. -/
theorem hoist_does {outer : ScopeId} (hparent : (s.arena.get s.current).parent = some outer) :
    (hoist s.current).Ensures I s fun _ t => Does [] s.pool (s.arena.hoist s.current) s t := by
  unfold hoist
  rw [ensures_bind, ensures_look, hparent]
  refine (change_does (p := s.pool) (a := s.arena.hoist s.current) rfl rfl rfl rfl rfl rfl rfl).bind fun _ t₁ h₁ => ?_
  refine (forM_does (fun x _ => note_does _) _ t₁).mono fun _ t₂ h₂ => ?_
  rw [h₁.pool, h₁.arena] at h₂
  exact h₁.trans h₂

theorem leaveBlock_ensures {outer : ScopeId} (hs : Ready [] s) (hidle : Idle s.arena)
    (hparent : (s.arena.get s.current).parent = some outer)
    (hroot : (s.arena.get s.current).root = (s.arena.get outer).root) :
    (leaveBlock outer).Ensures Inner s fun _ t => Left outer s t ∧ Ready [] t := by
  have halike : s.arena.Alike (s.arena.releaseScope s.current) := Arena.alike_releaseScope
  unfold leaveBlock
  refine (releaseCurrent_ensures hs).bind fun _ t₁ ⟨hr₁, _, harena, q, h₁⟩ => ?_
  have hparent₁ : (t₁.arena.get t₁.current).parent = some outer := by
    rw [harena, h₁.current, halike.parent_eq, hparent]
  have hhoist := Arena.hoist_hoisted hr₁.named.wellFormed hr₁.named.current_lt hparent₁
  have hnamed := hr₁.named.hoist hhoist hparent₁
    (by rw [harena, h₁.current, halike.root_eq, halike.root_eq, hroot])
  have hidle₁ : Idle t₁.arena := by rw [harena]; exact hidle.releaseScope _
  have hused := hr₁.tidy.inUse_eq_nil hidle₁.activeRegister?_eq_none
  -- no variable is in a register, so the scopes may be moved without a look at the pool
  rw [ensures_bind, ensures_look]
  refine (hoist_does hparent₁).bind fun _ t₂ h₂ => ?_
  have hready : Ready [] { t₂ with current := outer } := by
    constructor
    · show Tidy [] t₂.pool t₂.arena outer
      rw [h₂.pool, h₂.arena]
      exact .of_idle (hidle₁.hoist hhoist) hused
    · show t₂.arena.Named outer
      rw [h₂.arena]
      exact hnamed
  have hdoes := h₁.trans h₂
  refine ⟨hready.inner rfl, ⟨t₂.pool, t₂.arena, ?_, ?_⟩, hready⟩
  · exact ⟨rfl, rfl, rfl, hdoes.frames, hdoes.options, hdoes.printsNumbers, hdoes.lines⟩
  · rw [h₂.arena, ← harena, ← h₁.current]; exact hhoist

/-- Code in a block knows the scope around it. -/
theorem Entered.outer (h : Entered s t) (hs : Ready [] s) (hadv : Advances names fns named pending t u) :
    (u.arena.get u.current).parent = some s.current ∧
      (u.arena.get u.current).root = (u.arena.get s.current).root := by
  have hgrows := hadv.grows
  rw [h.arena, h.current] at hgrows
  have hblock : s.arena.scopes.size < (s.arena.pushBlock s.current).2.scopes.size := by
    rw [Arena.size_pushBlock]; exact Nat.lt_succ_self _
  have hcurrent : u.current = s.arena.scopes.size := hadv.current.trans h.current
  rw [hcurrent, hgrows.parent_eq hblock, hgrows.root_eq hblock,
    hgrows.root_eq (Nat.lt_trans hs.named.current_lt hblock), Arena.get_pushBlock_self,
    Arena.get_pushBlock_lt s.current hs.named.current_lt]
  exact ⟨rfl, rfl⟩

/-- A block was entered, filled and left again. -/
theorem Entered.completes {t' : State} (henter : Entered s t) (hs : Ready [] s) (h : Completes names fns named t u)
    (hleave : Left s.current u t') (hready : Ready [] t') : Completes names [] named s t' := by
  have hcurrent : u.current = s.arena.scopes.size := h.advances.current.trans henter.current
  have hseg₂ := h.advances.segment
  rw [← hleave.slotCount_eq (henter.outer hs h.advances).2] at hseg₂
  have hseg := (henter.segment.trans hseg₂).trans hleave.segment
  rw [List.append_nil, List.append_nil] at hseg
  have hgrows := h.advances.grows
  rw [henter.arena, henter.current] at hgrows
  obtain ⟨q, a, hdoes, hhoist⟩ := hleave
  have halike : u.arena.Alike (u.arena.releaseScope u.current) := Arena.alike_releaseScope
  rw [hcurrent] at hhoist halike
  have hwhole := hgrows.trans (halike.grows _) (by rw [Arena.size_pushBlock]; exact Nat.lt_succ_self _)
  rw [List.append_nil, List.append_nil] at hwhole
  refine ⟨hready, hdoes.current, hdoes.frames.trans (h.advances.frames.trans henter.frames),
    hdoes.options.trans (h.advances.options.trans henter.options), ?_, hseg⟩
  rw [hdoes.arena]
  exact Arena.Grows.block hs.named hwhole hhoist

/-- **Code in a block of its own**: the block is entered at `e` and left at `u`, with every variable in its
    slot. -/
structure Enclosed (s e u t : State) : Prop where
  entered : Entered s e
  ready : Ready [] e
  ready_end : Ready [] u
  idle : Idle u.arena
  left : Left s.current u t
  root_eq : (u.arena.get u.current).root = (u.arena.get s.current).root

theorem Enclosed.idle_end {e : State} (h : Enclosed s e u t) : Idle t.arena := h.left.idle h.idle

/-- **Code in a block of its own.** Its names are bound in the scope around it; its functions are not known
    there. -/
theorem inBlock_ensures (names named : List String) {code : ScopeId → Lower Unit} {R : State → State → Prop}
    (hs : Ready [] s) (hI : ∀ p t, Inner p t → I p t)
    (hcode : ∀ e, Entered s e → Ready [] e → (code s.current).Ensures I e fun _ u =>
      (∃ fns, Completes names fns named e u) ∧ Idle u.arena ∧ R e u) :
    (inBlock code).Ensures I s fun _ t =>
      Completes names [] named s t ∧ ∃ e u, Enclosed s e u t ∧ R e u := by
  unfold inBlock
  refine ((enterBlock_ensures hs).weaken hI).bind fun outer e henter => ?_
  obtain ⟨hout, henter, he⟩ := henter
  subst hout
  refine (hcode e henter he).bind fun _ u hu => ?_
  obtain ⟨⟨fns, hcompletes⟩, hidle, hR⟩ := hu
  obtain ⟨hparent, hroot⟩ := henter.outer hs hcompletes.advances
  refine ((leaveBlock_ensures hcompletes.ready hidle hparent hroot).weaken hI).mono fun _ t ht => ?_
  exact ⟨henter.completes hs hcompletes ht.1 ht.2, e, u,
    ⟨henter, he, hcompletes.ready, hidle, ht.1, hroot⟩, hR⟩

/-! ## Control flow -/

/-- **Every variable was written back.** -/
structure Synchronised (s t : State) : Prop where
  spills : ∃ l, Spills l s t
  settled : Settled s t
  idle : Idle t.arena

/-- At a synchronised point every variable is in its slot. -/
theorem synchronise_settled (hs : Ready [] s) : synchronise.Ensures Inner s fun _ t => Synchronised s t := by
  refine (synchronise_ensures hs).mono fun _ t ht => ?_
  obtain ⟨hspills, hnone⟩ := ht
  exact ⟨⟨_, hspills⟩, ⟨hspills.ready hs, hspills.steady hs⟩, (hspills.ready hs).tidy.idle hnone⟩

/-- **The top of the stack was taken for a test.** -/
def Tested (label : String) (s t : State) : Prop :=
  ∃ r t₁ q, Popped r s t₁ ∧ Ready [r] t₁ ∧ Does [.beqz r label] q t₁.arena t₁ t

theorem branchIfZero_ensures {p : Milestone} (hs : Ready [] s) (l : String) (hI : ∀ p t, Inner p t → I p t)
    (hp : ∀ r u, Popped r s u → Ready [r] u → I p u) :
    (branchIfZero p l).Ensures I s fun _ t => Tested l s t ∧ Settled s t := by
  unfold branchIfZero
  refine ((popTemp_ensures hs (by decide)).weaken hI).bind fun r t₁ hpop => ?_
  obtain ⟨hr, hr₁⟩ := hpop
  refine Ensures.bind (R := fun _ t => t = t₁) ⟨hp r t₁ hr hr₁, rfl⟩ fun _ t ht => ?_
  subst ht
  refine (emitInstrs_does _).bind fun _ t₂ h₂ => ?_
  refine (free_ensures (h₂.ready_of_eq hr₁) (by rw [hr.temporary]; rfl)).mono fun _ t₃ hfreed => ?_
  obtain ⟨h₃, hr₃⟩ := hfreed
  rw [h₂.arena] at h₃
  have hdoes := h₂.trans h₃
  exact ⟨⟨r, t, _, hr, hr₁, hdoes⟩, hr₃,
    (hr.steady hs).trans (hdoes.steady_of_frameless (by simp [Instr.frameOffset?]))⟩

/-- A label is placed that was made outside. -/
theorem placeLabel_ensures (hs : Ready held s) {l : String} (hI : I (.join l) s) :
    (placeLabel l).Ensures I s fun _ t => t = s.place l ∧ Advances [] [] [l] [] s t ∧ Ready held t :=
  ⟨hI, rfl, ⟨rfl, rfl, rfl, (Arena.Alike.refl _).grows _, segment_label l⟩, hs.tidy, hs.named⟩

theorem jumpTo_ensures {l : String} (hI : I (.join l) s) :
    (jumpTo l).Ensures I s fun _ t => Does [.jump l] s.pool s.arena s t ∧
      t.code.toList = s.code.toList ++ [.instr (.jump l)] :=
  ⟨hI, ⟨rfl, rfl, rfl, rfl, rfl, rfl, [.instr (.jump l)], by simp, rfl⟩, by simp⟩

theorem jumpTo_does {l : String} (hI : I (.join l) s) :
    (jumpTo l).Ensures I s fun _ t => Does [.jump l] s.pool s.arena s t := (jumpTo_ensures hI).mono fun _ _ ht => ht.1

/-- Control may come together wherever the invariant holds. -/
theorem Ready.sound_join (h : Ready held s) {l : String} : Sound (.join l) s := h.sound (by simp)

theorem Entered.idle (h : Entered s t) (hs : Idle s.arena) : Idle t.arena := by
  intro v var hv
  rw [h.arena, Arena.pushBlock_eq, Arena.lookup?_push rfl] at hv
  exact hs v var hv

/-- A block is not the scope of the module. -/
theorem Entered.current_ne (h : Entered s t) (hs : Ready [] s) : t.current ≠ globalScope := by
  rw [h.current]
  exact Nat.ne_of_gt hs.named.wellFormed.inhabited

theorem Entered.outer_lt (h : Entered s t) (hs : Ready [] s) : s.current < t.arena.scopes.size := by
  rw [h.arena, Arena.size_pushBlock]
  exact Nat.lt_succ_of_lt hs.named.current_lt

/-- The code of a branch or a loop body, wherever it stands inside a block. -/
def BodyContract (names : List String) (body : Lower Unit) : Prop :=
  ∀ s, Ready [] s → s.current ≠ globalScope →
    body.Ensures Sound s fun _ t => ∃ fns, Completes names fns [] s t

/-- **The stations of a second branch**: after the first one control jumps over it; it starts at the label of
    `jumped`, and where it is `saved` the end label is placed. -/
structure ElseStations (elseLabel endLabel : String) (orelse : Lower Unit) (outer : ScopeId)
    (e jumped finish saved : State) : Prop where
  jump : Does [.jump endLabel] e.pool (e.arena.nextLabel outer "endif").2 e jumped
  steady : Steady [endLabel] e jumped
  ready : Ready [] jumped
  run_branch : orelse.run (jumped.place elseLabel) = .ok () finish
  save : Synchronised finish saved

/-- **The second branch of a conditional**; if there is none, only its label. -/
def Otherwise (elseLabel : String) (orelse : Lower Unit) (hasElse : Bool) (outer : ScopeId) (e u : State) : Prop :=
  (hasElse = true ∧ ∃ endLabel jumped finish saved,
    ElseStations elseLabel endLabel orelse outer e jumped finish saved ∧ u = saved.place endLabel) ∨
  (hasElse = false ∧ u = e.place elseLabel)

theorem lowerElse_ensures {elseLabel : String} {orelse : Lower Unit} {hasElse : Bool} (hs : Ready [] s)
    (henter : Entered s t) (ht : Ready [] t) (hidle : Idle t.arena) (horelse : BodyContract names orelse)
    (hnames : hasElse = false → names = []) :
    (lowerElse elseLabel orelse hasElse s.current).Ensures Sound t fun _ u =>
      (∃ fns, Completes names fns [elseLabel] t u) ∧ Idle u.arena ∧
        Otherwise elseLabel orelse hasElse s.current t u := by
  have hlt := ht.named.current_lt
  have houter := henter.outer_lt hs
  cases hasElse with
  | true =>
      unfold lowerElse
      rw [if_pos rfl]
      refine (nextLabel_ensures ht "endif" houter).bind fun endLabel t₁ hlabel => ?_
      obtain ⟨h₁, hr₁, hs₁⟩ := hlabel
      refine (jumpTo_does hr₁.sound_join).bind fun _ t₂ h₂ => ?_
      have hs₂ := hs₁.trans (h₂.steady_of_frameless (by simp [Instr.frameOffset?]))
      have hr₂ := h₂.ready_of_eq hr₁
      refine (placeLabel_ensures hr₂ hr₂.sound_join).bind fun _ t₃ helse => ?_
      obtain ⟨hplace, h₃, hr₃⟩ := helse
      have h₁₃ := hs₂.advances.trans h₃ hlt
      refine (horelse t₃ hr₃ (by rw [h₁₃.current]; exact henter.current_ne hs)).with_run.bind fun _ t₄ hbody => ?_
      obtain ⟨hrun, fns, h₄⟩ := hbody
      refine (synchronise_settled h₄.ready).sound.bind fun _ t₅ h₅ => ?_
      refine (placeLabel_ensures h₅.settled.ready h₅.settled.ready.sound_join).mono fun _ t₆ hend => ?_
      obtain ⟨hplace', h₆, hr₆⟩ := hend
      refine ⟨⟨fns, hr₆, ?_⟩, ?_, Or.inl ⟨rfl, endLabel, t₂, t₄, t₅, ⟨?_, hs₂, hr₂, hplace ▸ hrun, h₅⟩, hplace'⟩⟩
      · -- the end label was pending from its making to its place, the else label from before
        have h₁₅ := (h₁₃.trans h₄.advances hlt).steady h₅.settled.steady hlt
        have h₁₆ := h₁₅.trans h₆ hlt
        simp only [List.nil_append, List.append_nil] at h₁₆
        exact (h₁₆.perm (.swap _ _ _) (.refl _)).settle
      · rw [hplace']; exact h₅.idle
      · rw [h₁.pool, h₁.arena] at h₂
        exact h₁.trans h₂
  | false =>
      rw [hnames rfl]
      refine (placeLabel_ensures ht ht.sound_join).mono fun _ u hplaced => ?_
      obtain ⟨hplace, hu, hready⟩ := hplaced
      refine ⟨⟨[], hready, hu⟩, ?_, Or.inr ⟨rfl, hplace⟩⟩
      rw [hplace]
      exact hidle

/-- **The stations of a conditional**: its label is `made`, its test leaves a value at `valued`, and control
    branches from `clean`, where every variable is in its slot. The first branch starts at `enter` and has
    the blocks `e` and `u` for the second one behind it. -/
structure CondStations (test : Expr) (body orelse : Lower Unit) (hasElse : Bool) (elseLabel : String)
    (s made valued clean chosen enter finish saved joined e u t : State) : Prop where
  label : Does [] s.pool (s.arena.nextLabel s.current "else").2 s made
  steady : Steady [elseLabel] s made
  ready : Ready [] made
  run_test : (lowerExpr test).run made = .ok () valued
  synchronised : Synchronised valued clean
  tested : Tested elseLabel clean chosen
  settled : Settled clean chosen
  first : Enclosed chosen enter saved joined
  run_body : body.run enter = .ok () finish
  save : Synchronised finish saved
  join : Ready [] joined ∧ ∃ names, Advances names [] [] [] chosen joined
  second : Enclosed joined e u t
  otherwise : Otherwise elseLabel orelse hasElse joined.current e u

theorem lowerCond_ensures {body orelse : Lower Unit} {hasElse : Bool} (hs : Ready [] s) (test : Expr)
    (hbody : BodyContract names body) (horelse : BodyContract names' orelse)
    (hnames : hasElse = false → names' = []) :
    (lowerCond test body orelse hasElse).Ensures Sound s fun _ t => Completes (names ++ names') [] [] s t ∧
      ∃ elseLabel made valued clean chosen enter finish saved joined e u,
        CondStations test body orelse hasElse elseLabel s made valued clean chosen enter finish saved joined e u t := by
  have hlt := hs.named.current_lt
  unfold lowerCond
  rw [ensures_bind, ensures_look]
  refine (nextLabel_ensures hs "else" hlt).bind fun elseLabel t₁ hlabel => ?_
  obtain ⟨h₁, hr₁, hs₁⟩ := hlabel
  refine (lowerExpr_ensures test hr₁).sound.with_run.bind fun _ t₂ htest => ?_
  obtain ⟨hrun, h₂⟩ := htest
  refine (synchronise_settled h₂.ready).sound.bind fun _ t₃ h₃ => ?_
  refine (branchIfZero_ensures h₃.settled.ready elseLabel (fun _ _ => Inner.sound) fun _ _ _ hu => hu.sound_join).bind
    fun _ t₄ hbranch => ?_
  obtain ⟨htested, h₄⟩ := hbranch
  -- the first branch, in a block of its own
  refine (inBlock_ensures names []
    (R := fun e u => ∃ b, body.run e = .ok () b ∧ Synchronised b u) h₄.ready (fun _ _ => Inner.sound)
    fun e henter he => ?_).bind
    fun _ t₅ hfirst => ?_
  · refine (hbody e he (henter.current_ne h₄.ready)).with_run.bind fun _ b hb => ?_
    obtain ⟨hrun, fns, hb⟩ := hb
    refine (synchronise_settled hb.ready).sound.mono fun _ u hu => ⟨⟨fns, hu.settled.ready, ?_⟩, hu.idle, b, hrun, hu⟩
    exact hb.advances.steady hu.settled.steady he.named.current_lt
  obtain ⟨h₅, e₁, u₁, hfirst, b, hrun_body, hsaved⟩ := hfirst
  -- the second branch, in another one
  refine (inBlock_ensures names' [elseLabel] h₅.ready (fun _ _ => Inner.sound) fun e henter he =>
    lowerElse_ensures h₅.ready henter he (henter.idle hfirst.idle_end) horelse hnames).mono fun _ t₆ hsecond => ?_
  obtain ⟨h₆, e₂, u₂, hsecond, hotherwise⟩ := hsecond
  refine ⟨⟨h₆.ready, ?_⟩, elseLabel, t₁, t₂, t₃, t₄, e₁, b, u₁, t₅, e₂, u₂, h₁, hs₁, hr₁, hrun, h₃, htested, h₄,
    hfirst, hrun_body, hsaved, ⟨h₅.ready, names, h₅.advances⟩, hsecond, hotherwise⟩
  have h₁₄ := (hs₁.trans ((h₂.trans h₃.settled).trans h₄).steady).advances
  have h₁₆ := (h₁₄.trans h₅.advances hlt).trans h₆.advances hlt
  exact h₁₆.settle

/-- **The stations of a loop**, inside its block: its labels are `made`, and with every variable in its slot
    (`clean`) its test starts. Its body starts `inside`, and where it is `saved` control jumps `back`. -/
structure LoopStations (test : Expr) (body : Lower Unit) (top done : String)
    (e made clean valued inside finish saved back : State) : Prop where
  labels : ∃ mid, Does [] e.pool (e.arena.nextLabel e.current "while").2 e mid ∧
    Does [] mid.pool (mid.arena.nextLabel mid.current "break").2 mid made
  steady : Steady [top, done] e made
  ready : Ready [] made
  synchronised : Synchronised made clean
  run_test : (lowerExpr test).run (clean.place top) = .ok () valued
  tested : Tested done valued inside
  settled : Settled valued inside
  run_body : body.run inside = .ok () finish
  save : Synchronised finish saved
  jump : Does [.jump top] saved.pool saved.arena saved back

/-- **A loop, inside its block**; its end label is placed behind it. -/
def Looped (test : Expr) (body : Lower Unit) (e u : State) : Prop :=
  ∃ top done made clean valued inside finish saved back,
    LoopStations test body top done e made clean valued inside finish saved back ∧ u = back.place done

theorem lowerTurns_ensures {e : State} {body : Lower Unit} (hs : Ready [] s) (henter : Entered s e) (he : Ready [] e)
    (test : Expr) (hbody : BodyContract names body) :
    (lowerTurns test body).Ensures Sound e fun _ u =>
      (∃ fns, Completes names fns [] e u) ∧ Idle u.arena ∧ Looped test body e u := by
  have hlt := he.named.current_lt
  unfold lowerTurns
  rw [ensures_bind, ensures_look]
  refine (nextLabel_ensures he "while" hlt).bind fun top t₁ hlabel₁ => ?_
  obtain ⟨h₁, hr₁, hs₁⟩ := hlabel₁
  rw [ensures_bind, ensures_look]
  refine (nextLabel_ensures hr₁ "break" hr₁.named.current_lt).bind fun done t₂ hlabel₂ => ?_
  obtain ⟨h₂, hr₂, hs₂⟩ := hlabel₂
  -- control comes to the test from two sides, so every variable is put in its slot first
  refine (synchronise_settled hr₂).sound.bind fun _ t₃ h₃ => ?_
  have h₁₃ := ((hs₁.trans hs₂).trans h₃.settled.steady).advances
  refine (placeLabel_ensures h₃.settled.ready h₃.settled.ready.sound_join).bind fun _ t₄ hplaced => ?_
  obtain ⟨htop, h₄, hr₄⟩ := hplaced
  refine (lowerExpr_ensures test hr₄).sound.with_run.bind fun _ t₅ htest => ?_
  obtain ⟨hrun_test, h₅⟩ := htest
  refine (branchIfZero_ensures h₅.ready done (fun _ _ => Inner.sound) fun _ _ _ hu => hu.sound (by simp)).bind
    fun _ t₆ hbranch => ?_
  obtain ⟨htested, h₆⟩ := hbranch
  have h₁₆ := (h₁₃.trans h₄ hlt).steady (h₅.trans h₆).steady hlt
  have hne : t₆.current ≠ globalScope := by rw [h₁₆.current]; exact henter.current_ne hs
  refine (hbody t₆ h₆.ready hne).with_run.bind fun _ t₇ hfinish => ?_
  obtain ⟨hrun_body, fns, h₇⟩ := hfinish
  refine (synchronise_settled h₇.ready).sound.bind fun _ t₈ h₈ =>
    (jumpTo_does h₈.settled.ready.sound_join).bind fun _ t₉ h₉ => ?_
  have hs₉ := h₈.settled.steady.trans (h₉.steady_of_frameless (by simp [Instr.frameOffset?]))
  have h₁₉ := (h₁₆.trans h₇.advances hlt).steady hs₉ hlt
  have hr₉ := h₉.ready_of_eq h₈.settled.ready
  refine (placeLabel_ensures hr₉ hr₉.sound_join).mono fun _ t₁₀ hplaced => ?_
  obtain ⟨hdone, h₁₀, hr₁₀⟩ := hplaced
  refine ⟨⟨fns, hr₁₀, ?_⟩, ?_, top, done, t₂, t₃, t₅, t₆, t₇, t₈, t₉,
    ⟨⟨t₁, h₁, h₂⟩, hs₁.trans hs₂, hr₂, h₃, htop ▸ hrun_test, htested, h₆, hrun_body, h₈, h₉⟩, hdone⟩
  · have h := h₁₉.trans h₁₀ hlt
    simp only [List.nil_append, List.append_nil] at h
    exact h.settle.settle
  · rw [hdone]
    show Idle t₉.arena
    rw [h₉.arena]
    exact h₈.idle

theorem lowerLoop_ensures {body : Lower Unit} (hs : Ready [] s) (test : Expr) (hbody : BodyContract names body) :
    (lowerLoop test body).Ensures Sound s fun _ t =>
      Completes names [] [] s t ∧ ∃ e u, Enclosed s e u t ∧ Looped test body e u :=
  inBlock_ensures _ _ hs (fun _ _ => Inner.sound) fun _ henter he => lowerTurns_ensures hs henter he test hbody

end Offside.Lower
