import Offside.Lower.Expression
import Offside.Proofs.Moves

/-!
# `Proofs.Expressions` — contracts of the code for expressions

The code of an expression starts and ends with nothing held, and leaves the arena alone but for the
registers of variables (`lowerExpr_ensures`). On the way at most three temporaries are held at once, so
there always is one (`allocateTemp_ensures`); before a call every variable is spilled, so the argument
registers are free (`popInto_ensures`).
-/

namespace Offside.Lower

open Machine

variable {s t u : State} {held : List Register} {r : Register} {v w : VarRef}

/-- **A stretch between two expressions**: it ends with nothing held and leaves the arena alone but for the
    registers of variables. -/
structure Settled (s t : State) : Prop where
  ready : Ready [] t
  steady : Steady [] s t

theorem Settled.trans (h : Settled s t) (h' : Settled t u) : Settled s u := ⟨h'.ready, h.steady.trans h'.steady⟩

theorem Settled.refl (hs : Ready [] s) : Settled s s := ⟨hs, .refl s⟩

/-! ## Values -/

theorem frameless_push (r : Register) : ∀ i ∈ push r, i.frameOffset? = none := by
  simp [push, Instr.frameOffset?]

/-- The value of a held register is put on the stack, and the register given back. -/
theorem pushHeld_ensures (hs : Ready (r :: held) s) (hclass : r.classOf? = some .temporary) :
    (do emitInstrs (push r); free r : Lower Unit).Ensures Inner s fun _ t =>
      (∃ q, Does (push r) q s.arena s t) ∧ Ready held t := by
  refine (emitInstrs_does _).bind fun _ t₁ h₁ => ?_
  refine (free_ensures (h₁.ready_of_eq hs) (by rw [hclass]; rfl)).mono fun _ t₂ h₂ => ?_
  have hdoes := h₂.1
  rw [h₁.arena] at hdoes
  exact ⟨⟨_, by simpa using h₁.trans hdoes⟩, h₂.2⟩

/-- **A number was put on the stack.** -/
def Loaded (w : Word) (s t : State) : Prop :=
  ∃ r mid q, Allocated r s mid ∧ Ready [r] mid ∧ Does (.li r w :: push r) q mid.arena mid t

theorem pushLiteral_ensures (hs : Ready [] s) (w : Word) :
    (pushLiteral w).Ensures Inner s fun _ t => Loaded w s t ∧ Settled s t := by
  unfold pushLiteral
  refine (allocateTemp_ensures hs (by decide)).bind fun r t₁ halloc => ?_
  refine (emitInstrs_does _).bind fun _ t₂ h₂ => ?_
  refine (pushHeld_ensures (h₂.ready_of_eq halloc.2) halloc.1.temporary).mono fun _ t₃ h₃ => ?_
  obtain ⟨⟨q, hpush⟩, hr₃⟩ := h₃
  rw [h₂.arena] at hpush
  have hdoes : Does (.li r w :: push r) q t₁.arena t₁ t₃ := h₂.trans hpush
  refine ⟨⟨r, t₁, q, halloc.1, halloc.2, hdoes⟩, hr₃, ?_⟩
  exact (halloc.1.steady hs).trans (hdoes.steady_of_frameless (by simp [push, Instr.frameOffset?]))

theorem pushConstant_ensures (hs : Ready [] s) (c : Constant) (loc : Position) :
    (pushConstant c loc).Ensures Inner s fun _ t => ∃ w, Loaded w s t ∧ Settled s t := by
  cases c with
  | int w => exact (pushLiteral_ensures hs w).mono fun _ t ht => ⟨w, ht⟩
  | bool b => exact (pushLiteral_ensures hs _).mono fun _ t ht => ⟨_, ht⟩
  | str x => trivial

/-- **The value of a variable was put on the stack**, from the register it was in or was brought into. -/
def Fetched (name : String) (s t : State) : Prop :=
  ∃ v r mid, s.arena.resolve? s.current name = some v ∧
    ((s.arena.activeRegister? v = some r ∧ mid = s) ∨ Reloaded v r s mid) ∧
    Does (push r) mid.pool mid.arena mid t

theorem pushVariable_ensures (hs : Ready [] s) (name : String) (loc : Position) :
    (pushVariable name loc).Ensures Inner s fun _ t => Fetched name s t ∧ Settled s t := by
  unfold pushVariable
  refine (resolveLocal_ensures name loc).bind fun v t hv => ?_
  obtain ⟨ht, hresolve, var, hvar, _⟩ := hv
  subst ht
  rw [ensures_bind, ensures_look]
  cases hact : t.arena.activeRegister? v with
  | some r =>
      refine (emitInstrs_does _).mono fun _ u hu => ?_
      exact ⟨⟨v, r, t, hresolve, Or.inl ⟨hact, rfl⟩, hu⟩, hu.ready_of_eq hs,
        hu.steady_of_frameless (frameless_push r)⟩
  | none =>
      refine (reload_ensures hs (by decide) hvar hact).bind fun r u hload => ?_
      refine (emitInstrs_does _).mono fun _ u' hu' => ?_
      exact ⟨⟨v, r, u, hresolve, Or.inr hload.1, hu'⟩, hu'.ready_of_eq hload.2,
        (hload.1.steady hs).trans (hu'.steady_of_frameless (frameless_push r))⟩

/-! ## Operators -/

/-- **Two values were replaced by the result of an operator.** -/
def Combined (op : BinaryOp) (s t : State) : Prop :=
  ∃ right left t₁ t₂ q, Popped right s t₁ ∧ Ready [right] t₁ ∧ Popped left t₁ t₂ ∧ Ready [left, right] t₂ ∧
    Does (.alu (aluOp op) left left right :: push left) q t₂.arena t₂ t

theorem combineBinary_ensures (hs : Ready [] s) (op : BinaryOp) :
    (combineBinary op).Ensures Inner s fun _ t => Combined op s t ∧ Settled s t := by
  unfold combineBinary
  refine (popTemp_ensures hs (by decide)).bind fun right t₁ hpop₁ => ?_
  obtain ⟨hright, hr₁⟩ := hpop₁
  refine (popTemp_ensures hr₁ (by simp)).bind fun left t₂ hpop₂ => ?_
  obtain ⟨hleft, hr₂⟩ := hpop₂
  refine (comment_does _).bind fun _ t₃ h₃ => (emitInstrs_does _).bind fun _ t₄ h₄ => ?_
  have hr₄ := h₄.ready_of_eq (h₃.ready_of_eq hr₂)
  have hswap : Ready (right :: [left]) t₄ := ⟨hr₄.tidy.perm (.swap right left []), hr₄.named⟩
  refine (free_ensures hswap (by rw [hright.temporary]; rfl)).bind fun _ t₅ hfree => ?_
  obtain ⟨h₅, hr₅⟩ := hfree
  refine (pushHeld_ensures hr₅ hleft.temporary).mono fun _ t₆ hpush => ?_
  obtain ⟨⟨q, h₆⟩, hr₆⟩ := hpush
  rw [h₅.arena, h₄.arena, h₃.arena] at h₆
  rw [h₄.arena, h₃.arena] at h₅
  rw [h₃.arena] at h₄
  have hdoes : Does (.alu (aluOp op) left left right :: push left) q t₂.arena t₂ t₆ :=
    h₃.trans (h₄.trans (h₅.trans h₆))
  refine ⟨⟨right, left, t₁, t₂, q, hright, hr₁, hleft, hr₂, hdoes⟩, hr₆, ?_⟩
  exact (hright.steady hs).trans ((hleft.steady hr₁).trans
    (hdoes.steady_of_frameless (by simp [push, Instr.frameOffset?])))

/-- **Two values were replaced by the result of a comparison**: 1, if control jumps over the instruction
    that makes it 0. -/
def Compared (op : CompareOp) (s t : State) : Prop :=
  ∃ right left result label t₁ t₂ t₃ t₄ t₅ q q' q'', Popped right s t₁ ∧ Ready [right] t₁ ∧
    Popped left t₁ t₂ ∧ Ready [left, right] t₂ ∧ Allocated result t₂ t₃ ∧ Ready [result, left, right] t₃ ∧
    Does [.li result 1, .branch (branchTest op) left right label] q
      (t₃.arena.nextLabel t₃.current "cmp").2 t₃ t₄ ∧
    Does [.li result 0] q' t₄.arena t₄ t₅ ∧
    Does (push result) q'' (t₅.place label).arena (t₅.place label) t

theorem combineCompare_ensures (hs : Ready [] s) (op : CompareOp) :
    (combineCompare op).Ensures Inner s fun _ t => Compared op s t ∧ Settled s t := by
  unfold combineCompare
  refine (popTemp_ensures hs (by decide)).bind fun right t₁ hpop₁ => ?_
  obtain ⟨hright, hr₁⟩ := hpop₁
  refine (popTemp_ensures hr₁ (by simp)).bind fun left t₂ hpop₂ => ?_
  obtain ⟨hleft, hr₂⟩ := hpop₂
  refine (allocateTemp_ensures hr₂ (by simp)).bind fun result t₃ halloc => ?_
  obtain ⟨hresult, hr₃⟩ := halloc
  rw [ensures_bind, ensures_look]
  refine (nextLabel_ensures hr₃ "cmp" hr₃.named.current_lt).bind fun label t₄ hlabel => ?_
  obtain ⟨h₄, hr₄, hs₄⟩ := hlabel
  -- the test, with 1 as its result
  refine (comment_does _).bind fun _ t₅ h₅ => (emitInstrs_does _).bind fun _ t₆ h₆ =>
    (emitInstrs_does _).bind fun _ t₇ h₇ => ?_
  have hr₇ := h₇.ready_of_eq (h₆.ready_of_eq (h₅.ready_of_eq hr₄))
  rw [h₅.pool, h₅.arena] at h₆
  rw [h₆.pool, h₆.arena] at h₇
  have htest := h₅.trans (h₆.trans h₇)
  -- the operands are given back, and the result becomes 0 where the jump is not taken
  have hswap : Ready (right :: left :: [result]) t₇ :=
    ⟨hr₇.tidy.perm (List.reverse_perm [result, left, right]).symm, hr₇.named⟩
  refine (free_ensures hswap (by rw [hright.temporary]; rfl)).bind fun _ t₈ hfree₈ => ?_
  obtain ⟨h₈, hr₈⟩ := hfree₈
  refine (free_ensures hr₈ (by rw [hleft.temporary]; rfl)).bind fun _ t₉ hfree₉ => ?_
  obtain ⟨h₉, hr₉⟩ := hfree₉
  refine (emitInstrs_does _).bind fun _ t₁₀ h₁₀ => ?_
  have hr₁₀ := h₁₀.ready_of_eq hr₉
  rw [h₈.pool, h₈.arena] at h₉
  rw [h₉.pool, h₉.arena] at h₁₀
  have hzero := h₈.trans (h₉.trans h₁₀)
  have hsteady : Steady [label] s t₁₀ :=
    (hright.steady hs).trans ((hleft.steady hr₁).trans ((hresult.steady hr₂).trans (hs₄.trans
      ((htest.steady_of_frameless (by simp [Instr.frameOffset?])).trans
        (hzero.steady_of_frameless (by simp [Instr.frameOffset?]))))))
  refine Ensures.bind (R := fun _ u => u = t₁₀.place label) rfl fun _ t₁₁ h₁₁ => ?_
  have hr₁₁ : Ready [result] t₁₁ := by rw [h₁₁]; exact ⟨hr₁₀.tidy, hr₁₀.named⟩
  refine (pushHeld_ensures hr₁₁ hresult.temporary).mono fun _ t hpush => ?_
  obtain ⟨⟨q, hdoes⟩, hr⟩ := hpush
  subst h₁₁
  have hsteady' := hsteady.place.trans (hdoes.steady_of_frameless (frameless_push result))
  rw [h₄.pool, h₄.arena] at htest
  exact ⟨⟨right, left, result, label, t₁, t₂, t₃, t₇, t₁₀, _, _, q, hright, hr₁, hleft, hr₂, hresult, hr₃,
    h₄.trans htest, hzero, hdoes⟩, hr, hsteady'⟩

theorem frameOffset?_unaryInstr? {op : UnaryOp} : ∀ i ∈ (unaryInstr? r op).toList, i.frameOffset? = none := by
  cases op <;> simp [unaryInstr?, Instr.frameOffset?]

/-- **A value was replaced by the result of an operator**; a plus sign leaves it as it is. -/
def Applied (op : UnaryOp) (s t : State) : Prop :=
  (op = .plus ∧ t = s) ∨ ∃ r t₁ q, op ≠ .plus ∧ Popped r s t₁ ∧ Ready [r] t₁ ∧
    Does ((unaryInstr? r op).toList ++ push r) q t₁.arena t₁ t

theorem applyUnary_ensures (hs : Ready [] s) (op : UnaryOp) :
    (applyUnary op).Ensures Inner s fun _ t => Applied op s t ∧ Settled s t := by
  unfold applyUnary
  split
  · rename_i hop
    refine (popTemp_ensures hs (by decide)).bind fun r t₁ hpop => ?_
    obtain ⟨hr, hr₁⟩ := hpop
    refine (emitInstrs_does _).bind fun _ t₂ h₂ => ?_
    refine (pushHeld_ensures (h₂.ready_of_eq hr₁) hr.temporary).mono fun _ t hpush => ?_
    obtain ⟨⟨q, hdoes⟩, hready⟩ := hpush
    rw [h₂.arena] at hdoes
    refine ⟨Or.inr ⟨r, t₁, q, hop, hr, hr₁, h₂.trans hdoes⟩, hready, (hr.steady hs).trans ?_⟩
    refine (h₂.trans hdoes).steady_of_frameless fun i hi => ?_
    exact (List.mem_append.mp hi).elim (frameOffset?_unaryInstr? i) (frameless_push r i)
  · rename_i hop
    exact ⟨Or.inl ⟨Decidable.not_not.mp hop, rfl⟩, .refl hs⟩

/-! ## Calls -/

/-- **Before a call** every variable is in its slot; the list names those that were in registers. -/
structure Cleared (l : List VarRef) (s t : State) : Prop where
  spills : Spills l s t
  inactive : ∀ v, t.arena.activeRegister? v = none
  nodup : l.Nodup
  active : ∀ v ∈ l, (s.arena.activeRegister? v).isSome = true
  locals : ∀ v ∈ l, ∃ var, Local s.arena s.current v var

theorem spillClobbered_ensures (hs : Ready held s) : spillClobbered.Ensures Inner s fun l t => Cleared l s t := by
  unfold spillClobbered
  rw [ensures_bind, ensures_look]
  refine (spillAll_ensures hs _).bind fun _ t ht => ?_
  have hactive : ∀ v ∈ (s.arena.activeVariables s.current).filter fun v =>
      (s.arena.activeRegister? v).any Register.isCallerClobbered, (s.arena.activeRegister? v).isSome = true :=
    fun v hv => Option.isSome_of_any (List.mem_filter.mp hv).2
  refine ⟨ht, fun v => ?_, (Arena.activeVariables_nodup _ _).filter _, hactive, fun v hv => ?_⟩
  · rw [ht.activeRegister?_eq]
    split
    · rfl
    · rename_i hnot
      cases hv : s.arena.activeRegister? v with
      | none => rfl
      | some x =>
          obtain ⟨var, hvar, hact, _⟩ := Arena.activeRegister?_eq_some_iff.mp hv
          have hseen := Arena.mem_activeVariables.mpr ⟨(hs.tidy.place hv).1, var, hvar, hact⟩
          refine absurd (List.mem_filter.mpr ⟨hseen, ?_⟩) hnot
          rw [hv]
          exact hs.tidy.clobbered hv
  · obtain ⟨x, hact⟩ := Option.isSome_iff_exists.mp (hactive v hv)
    obtain ⟨var, hvar, _⟩ := Arena.activeRegister?_eq_some_iff.mp hact
    exact ⟨var, hvar, hs.tidy.place hact⟩

/-- **Argument registers are free** when a call takes them: no variable is in a register. -/
theorem popInto_ensures {rs : List Register} (hs : Ready held s) (hnone : ∀ v, s.arena.activeRegister? v = none)
    (hclass : ∀ r ∈ rs, r.classOf?.isSome = true) (hnodup : (rs.reverse ++ held).Nodup) :
    (popInto rs).Ensures Inner s fun _ t => ∃ q, Does (rs.flatMap pop) q s.arena s t ∧ Ready (rs.reverse ++ held) t := by
  induction rs generalizing s held with
  | nil => exact ⟨s.pool, .refl s, hs⟩
  | cons r rest ih =>
      rw [List.reverse_cons, List.append_assoc] at hnodup
      have hsome := hclass r List.mem_cons_self
      have hfree : r ∉ s.pool.inUse := fun hused => by
        rcases hs.tidy.accounted hused with hheld | ⟨v, hv⟩
        · have hcons : (r :: held).Nodup := (List.nodup_append.mp hnodup).2.1
          exact (List.nodup_cons.mp hcons).1 hheld
        · exact absurd ((hnone v).symm.trans hv) (by simp)
      have hhold := hs.tidy.hold hfree fun _ => mem_inUse_mark hsome
      refine Ensures.bind (R := fun _ t => Does (pop r) (s.pool.mark r false) s.arena s t ∧ Ready (r :: held) t) ?_
        fun _ t ⟨ht, hready⟩ => ?_
      · refine (take_free hsome (isAvailable_of_not_mem_inUse hsome hfree)).bind fun ok t ⟨hok, ht⟩ => ?_
        subst hok
        refine (emitInstrs_does _).mono fun _ u hu => ?_
        rw [ht.pool, ht.arena] at hu
        exact ⟨ht.trans hu, (ht.trans hu).ready hhold hs.named⟩
      · refine (ih hready (by rw [ht.arena]; exact hnone)
          (fun x hx => hclass x (List.mem_cons_of_mem r hx)) hnodup).mono fun _ u ⟨q, hu, hr⟩ => ⟨q, ?_, ?_⟩
        · rw [ht.arena] at hu; exact ht.trans hu
        · rw [List.reverse_cons, List.append_assoc]; exact hr

/-- Held registers are given back, one after the other. -/
theorem freeAll_ensures {l : List (String × Register)} (hs : Ready (l.map (·.2) ++ held) s)
    (hclass : ∀ e ∈ l, e.2.classOf?.isSome = true) :
    (l.forM fun e => free e.2).Ensures Inner s fun _ t => ∃ q, Does [] q s.arena s t ∧ Ready held t := by
  induction l generalizing s with
  | nil => exact ⟨s.pool, .refl s, hs⟩
  | cons e rest ih =>
      refine (free_ensures hs (hclass e List.mem_cons_self)).bind fun _ t ⟨ht, hready⟩ => ?_
      refine (ih hready fun e' he' => hclass e' (List.mem_cons_of_mem e he')).mono fun _ u ⟨q, hu, hr⟩ => ⟨q, ?_, hr⟩
      rw [ht.arena] at hu
      exact ht.trans hu

theorem frameless_pops (rs : List Register) : ∀ i ∈ rs.flatMap pop, i.frameOffset? = none := by
  intro i hi
  obtain ⟨r, _, hi⟩ := List.mem_flatMap.mp hi
  rcases List.mem_cons.mp hi with rfl | hi
  · rfl
  · obtain rfl := List.mem_singleton.mp hi
    rfl

/-- After a call the variables that were in registers are brought back. -/
theorem reloadCleared_ensures {l : List VarRef} (hcleared : Cleared l s t) (hs : Ready [] s) (hu : Ready [] u)
    (harena : u.arena = t.arena) (hcurrent : u.current = t.current) :
    (l.forM fun v => discard (reload v)).Ensures Inner u fun _ u' => Reloads l u u' ∧ Ready [] u' := by
  have hsteady := hcleared.spills.steady hs
  refine reloadAll_ensures hu hcleared.nodup (fun v hv => ?_) fun v _ => by rw [harena]; exact hcleared.inactive v
  obtain ⟨var, hvar⟩ := hcleared.locals v hv
  obtain ⟨var', hvar', _⟩ := hvar.of_alike hsteady.alike
  refine ⟨var', ?_⟩
  rw [harena, hcurrent, hsteady.current]
  exact hvar'

/-- **A function was called**: every variable was written back, the arguments went from the stack to their
    registers, and after the call the variables were brought back. -/
def Called (callee : Callee) (s t : State) : Prop :=
  ∃ l t₁ t₂ t₃ t₄ t₅ q q', Does [] s.pool s.arena s t₁ ∧ Cleared l t₁ t₂ ∧
    Does ((callee.params.map (·.2)).flatMap pop) q t₂.arena t₂ t₃ ∧ Does [.call callee.label] q' t₂.arena t₃ t₄ ∧
    Ready [] t₄ ∧ Reloads l t₄ t₅ ∧ Does (push callee.result) t₅.pool t₅.arena t₅ t

theorem finishCall_ensures {callee : Callee} (hs : Ready [] s) (count : Nat)
    (hparams : callee.params.map (·.2) = RegisterClass.argument.members.take callee.params.length) :
    (finishCall callee count).Ensures Inner s fun _ t => Called callee s t ∧ Settled s t := by
  have hclass : ∀ r ∈ callee.params.map (·.2), r.classOf?.isSome = true := fun r hr => by
    rw [hparams] at hr
    rw [RegisterClass.mem_members_iff.mp (List.mem_of_mem_take hr)]
    rfl
  have hnodup : (callee.params.map (·.2)).Nodup := by
    rw [hparams]
    exact (List.take_sublist _ _).nodup (by decide)
  unfold finishCall
  -- every variable goes to its slot, so the registers of the arguments are free to take
  refine (note_does _).bind fun _ t₁ h₁ => ?_
  have hr₁ := h₁.ready_of_eq hs
  refine (spillClobbered_ensures hr₁).bind fun l t₂ hcleared => ?_
  have hr₂ := hcleared.spills.ready hr₁
  refine (forM_does (fun e _ => comment_does _) _ t₂).bind fun _ t₃ h₃ => ?_
  refine (popInto_ensures (h₃.ready_of_eq hr₂) (by rw [h₃.arena]; exact hcleared.inactive) hclass
    (by rw [List.append_nil]; exact (List.reverse_perm _).nodup_iff.mpr hnodup)).bind fun _ t₄ hpops => ?_
  obtain ⟨q, h₄, hr₄⟩ := hpops
  rw [h₃.arena] at h₄
  refine (emitInstrs_does _).bind fun _ t₅ h₅ => ?_
  have hr₅ := h₅.ready_of_eq hr₄
  rw [h₄.arena] at h₅
  -- behind the call they are given back, before variables are loaded again
  have hheld : Ready (callee.params.map (·.2) ++ []) t₅ :=
    ⟨hr₅.tidy.perm ((List.reverse_perm _).append_right []), hr₅.named⟩
  refine (freeAll_ensures hheld fun e he => hclass e.2 (List.mem_map_of_mem he)).bind fun _ t₆ hfreed => ?_
  obtain ⟨q', h₆, hr₆⟩ := hfreed
  rw [h₅.arena] at h₆
  refine (reloadCleared_ensures hcleared hr₁ hr₆ (by rw [h₆.arena])
    (by rw [h₆.current, h₅.current, h₄.current, h₃.current])).bind fun _ t₇ hback => ?_
  obtain ⟨hreloads, hr₇⟩ := hback
  refine (emitInstrs_does _).mono fun _ t₈ h₈ => ?_
  have hpops : Does ((callee.params.map (·.2)).flatMap pop) q t₂.arena t₂ t₄ := h₃.trans h₄
  have hcall : Does [.call callee.label] q' t₂.arena t₄ t₆ := h₅.trans h₆
  refine ⟨⟨l, t₁, t₂, t₄, t₆, t₇, q, q', h₁, hcleared, hpops, hcall, hr₆, hreloads, h₈⟩, h₈.ready_of_eq hr₇, ?_⟩
  have hs₂ := (h₁.steady_of_frameless (by simp)).trans (hcleared.spills.steady hr₁)
  have hs₄ := hs₂.trans (hpops.steady_of_frameless (frameless_pops _))
  rw [← h₄.arena] at hcall
  have hs₆ := hs₄.trans (hcall.steady_of_frameless (by simp [Instr.frameOffset?]))
  exact hs₆.trans ((hreloads.steady hr₆).trans (h₈.steady_of_frameless (frameless_push _)))

/-- The state in which it is known that numbers are printed. -/
def State.printing (s : State) : State := { s with printsNumbers := true }

theorem Steady.printing {pending : List String} (h : Steady pending s t) : Steady pending s t.printing :=
  ⟨h.current, h.frames, h.options, h.alike, h.segment.size_le, h.segment.labels_le, h.segment.lines⟩

/-- **A number was printed**, and replaced by 0. -/
def Printed (s t : State) : Prop :=
  ∃ l t₁ t₂ t₃ t₄ q q', Cleared l s t₁ ∧ Does (pop .a1 ++ [.la resultRegister printFormat]) q t₁.arena t₁ t₂ ∧
    Does [.call printRoutine] q' t₁.arena t₂ t₃ ∧ Ready [] t₃.printing ∧ Reloads l t₃.printing t₄ ∧
    Does (push .zero) t₄.pool t₄.arena t₄ t

theorem finishPrint_ensures (hs : Ready [] s) :
    finishPrint.Ensures Inner s fun _ t => Printed s t ∧ Settled s t := by
  unfold finishPrint
  refine (spillClobbered_ensures hs).bind fun l t₁ hcleared => ?_
  have hr₁ := hcleared.spills.ready hs
  refine (comment_does _).bind fun _ t₂ h₂ => ?_
  -- `a1` is taken by name, which is safe since no variable is in a register any more
  refine (popInto_ensures (h₂.ready_of_eq hr₁) (by rw [h₂.arena]; exact hcleared.inactive) (by decide)
    (by decide)).bind fun _ t₃ hpop => ?_
  obtain ⟨q, h₃, hr₃⟩ := hpop
  rw [h₂.arena] at h₃
  refine (emitInstrs_does _).bind fun _ t₄ h₄ => (emitInstrs_does _).bind fun _ t₅ h₅ => ?_
  have hr₅ : Ready (.a1 :: []) t₅ := h₅.ready_of_eq (h₄.ready_of_eq hr₃)
  rw [h₃.arena] at h₄
  rw [h₄.arena] at h₅
  refine (free_ensures hr₅ (by decide)).bind fun _ t₆ hfreed => ?_
  obtain ⟨h₆, hr₆⟩ := hfreed
  rw [h₅.arena] at h₆
  refine Ensures.bind (R := fun _ t => t = t₆.printing) rfl fun _ t₇ h₇ => ?_
  subst h₇
  have hr₇ : Ready [] t₆.printing := ⟨hr₆.tidy, hr₆.named⟩
  refine (reloadCleared_ensures hcleared hs hr₇ h₆.arena
    (h₆.current.trans (by rw [h₅.current, h₄.current, h₃.current, h₂.current]))).bind fun _ t₈ hback => ?_
  obtain ⟨hreloads, hr₈⟩ := hback
  refine (emitInstrs_does _).mono fun _ t₉ h₉ => ?_
  have hpop : Does (pop .a1 ++ [.la resultRegister printFormat]) t₃.pool t₁.arena t₁ t₄ := h₂.trans (h₃.trans h₄)
  have hcall : Does [.call printRoutine] t₆.pool t₁.arena t₄ t₆ := h₆.pool ▸ h₅.trans h₆
  refine ⟨⟨l, t₁, t₄, t₆, t₈, _, _, hcleared, hpop, hcall, hr₇, hreloads, h₉⟩, h₉.ready_of_eq hr₈, ?_⟩
  have hs₄ := (hcleared.spills.steady hs).trans (hpop.steady_of_frameless (by simp [pop, Instr.frameOffset?]))
  rw [← h₄.arena] at hcall
  have hs₇ := hs₄.trans (hcall.steady_of_frameless (by simp [Instr.frameOffset?]))
  exact hs₇.printing.trans ((hreloads.steady hr₇).trans (h₉.steady_of_frameless (frameless_push _)))

/-- A call that means a function, with as many arguments as it takes. -/
theorem resolveCallee_ensures {I : Milestone → State → Prop} (name : String) (count : Nat) (loc : Position) :
    (resolveCallee name count loc).Ensures I s fun f t =>
      t = s ∧ s.arena.resolveFunction? s.current name = some f ∧ count = f.arity := by
  unfold resolveCallee
  rw [ensures_bind, ensures_look]
  cases hf : s.arena.resolveFunction? s.current name with
  | none => trivial
  | some f =>
      dsimp only
      split
      · trivial
      · rename_i hcount; exact ⟨rfl, rfl, Decidable.not_not.mp hcount⟩

/-! ## Expressions -/

/-- **Values went to the stack**, so many of them, by moves of these kinds: the code of an expression is made
    of them, whatever the expression. -/
inductive Pushes : Nat → State → State → Prop
  | none {s : State} (hs : Ready [] s) : Pushes 0 s s
  | loaded {w : Word} {s t : State} (h : Loaded w s t) (hst : Settled s t) : Pushes 1 s t
  | fetched {name : String} {s t : State} (h : Fetched name s t) (hst : Settled s t) : Pushes 1 s t
  | combined {op : BinaryOp} {s t u : State} (hs : Pushes 2 s t) (h : Combined op t u) (htu : Settled t u) : Pushes 1 s u
  | compared {op : CompareOp} {s t u : State} (hs : Pushes 2 s t) (h : Compared op t u) (htu : Settled t u) : Pushes 1 s u
  | applied {op : UnaryOp} {s t u : State} (hs : Pushes 1 s t) (h : Applied op t u) (htu : Settled t u) : Pushes 1 s u
  | printed {s t u : State} (hs : Pushes 1 s t) (h : Printed t u) (htu : Settled t u) : Pushes 1 s u
  | called {callee : Callee} {i : ScopeId} {s t u : State} (hs : Pushes callee.params.length s t)
      (hcallee : callee ∈ (t.arena.get i).functions) (h : Called callee t u) (htu : Settled t u) : Pushes 1 s u
  | append {m n : Nat} {s t u : State} (hs : Pushes m s t) (h : Pushes n t u) : Pushes (m + n) s u

theorem Pushes.settled {n : Nat} (h : Pushes n s t) : Settled s t := by
  induction h with
  | none hs => exact .refl hs
  | loaded _ hst => exact hst
  | fetched _ hst => exact hst
  | combined _ _ htu ih => exact ih.trans htu
  | compared _ _ htu ih => exact ih.trans htu
  | applied _ _ htu ih => exact ih.trans htu
  | printed _ _ htu ih => exact ih.trans htu
  | called _ _ _ htu ih => exact ih.trans htu
  | append _ _ ih ih' => exact ih.trans ih'

/-- The code of an expression is finished. -/
theorem Pushes.expression (h : Pushes 1 s t) :
    (milestone .expression).Ensures Inner t fun _ u => Pushes 1 s u :=
  ⟨h.settled.ready.inner rfl, h⟩

mutual

/-- **The code of an expression** puts one value on the stack. -/
theorem lowerExpr_pushes : ∀ (e : Expr) {s : State}, Ready [] s →
    (lowerExpr e).Ensures Inner s fun _ t => Pushes 1 s t
  | .const span c, s, hs => by
      rw [lowerExpr]
      exact (pushConstant_ensures hs c _).bind fun _ t ⟨_, h, ht⟩ => (Pushes.loaded h ht).expression
  | .name span id ctx, s, hs => by
      rw [lowerExpr]
      exact (pushVariable_ensures hs id _).bind fun _ t ht => (Pushes.fetched ht.1 ht.2).expression
  | .binary span left op right, s, hs => by
      rw [lowerExpr]
      refine (lowerExpr_pushes left hs).bind fun _ t ht =>
        (lowerExpr_pushes right ht.settled.ready).bind fun _ u hu => ?_
      exact (combineBinary_ensures hu.settled.ready op).bind fun _ _ h => ((ht.append hu).combined h.1 h.2).expression
  | .unary span op operand, s, hs => by
      rw [lowerExpr]
      cases negatedLiteral? op operand with
      | some w => exact (pushLiteral_ensures hs w).bind fun _ t ht => (Pushes.loaded ht.1 ht.2).expression
      | none =>
          refine (lowerExpr_pushes operand hs).bind fun _ t ht => ?_
          exact (applyUnary_ensures ht.settled.ready op).bind fun _ _ h => (ht.applied h.1 h.2).expression
  | .compare span left [op] [right], s, hs => by
      rw [lowerExpr]
      refine (lowerExpr_pushes left hs).bind fun _ t ht =>
        (lowerExpr_pushes right ht.settled.ready).bind fun _ u hu => ?_
      exact (combineCompare_ensures hu.settled.ready op).bind fun _ _ h => ((ht.append hu).compared h.1 h.2).expression
  | .compare span left [] comparators, s, hs => by rw [lowerExpr.eq_def]; trivial
  | .compare span left (_ :: _ :: _) comparators, s, hs => by rw [lowerExpr.eq_def]; trivial
  | .compare span left [op] [], s, hs => by rw [lowerExpr.eq_def]; trivial
  | .compare span left [op] (_ :: _ :: _), s, hs => by rw [lowerExpr.eq_def]; trivial
  | .call span func args, s, hs => by
      rw [lowerExpr.eq_def]
      dsimp only
      cases func.asName? with
      | none => trivial
      | some name =>
          dsimp only
          split
          · match args with
            | [] => trivial
            | [arg] =>
                refine (lowerExpr_pushes arg hs).bind fun _ t ht => ?_
                exact (finishPrint_ensures ht.settled.ready).bind fun _ _ h => (ht.printed h.1 h.2).expression
            | _ :: _ :: _ => trivial
          · refine (resolveCallee_ensures name _ _).bind fun f t ⟨ht, hf, hcount⟩ => ?_
            subst ht
            obtain ⟨_, i, _, hmem⟩ := Arena.resolveFunction?_some hf
            refine (lowerArguments_pushes args hs).bind fun _ u hu => ?_
            rw [hcount] at hu
            have hmem' : f ∈ (u.arena.get i).functions := by rw [hu.settled.steady.alike.functions_eq]; exact hmem
            exact (finishCall_ensures hu.settled.ready _ (hs.named.params hmem)).bind fun _ _ h =>
              (hu.called hmem' h.1 h.2).expression

/-- The code of arguments, the last one first. -/
theorem lowerArguments_pushes : ∀ (args : List Expr) {s : State}, Ready [] s →
    (lowerArguments args).Ensures Inner s fun _ t => Pushes args.length s t
  | [], s, hs => by rw [lowerArguments]; exact .none hs
  | arg :: rest, s, hs => by
      rw [lowerArguments]
      refine (lowerArguments_pushes rest hs).bind fun _ t ht => ?_
      exact (lowerExpr_pushes arg ht.settled.ready).mono fun _ u hu => ht.append hu

end

/-- The code of an expression ends with nothing held. -/
theorem lowerExpr_ensures (e : Expr) (hs : Ready [] s) : (lowerExpr e).Ensures Inner s fun _ t => Settled s t :=
  (lowerExpr_pushes e hs).mono fun _ _ ht => ht.settled

theorem lowerArguments_ensures (args : List Expr) (hs : Ready [] s) :
    (lowerArguments args).Ensures Inner s fun _ t => Settled s t :=
  (lowerArguments_pushes args hs).mono fun _ _ ht => ht.settled

end Offside.Lower
