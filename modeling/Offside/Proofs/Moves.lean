import Offside.Proofs.Names
import Offside.Proofs.Progress
import Offside.Proofs.Registers

/-!
# `Proofs.Moves` — contracts of the basic moves

`Ready held` is the invariant of code generation: registers are accounted for, with those in `held` held
by the code being generated, and names are in order. It is what every milestone is passed with (`Sound`), and
between two statements nothing is held. `Steady` says what a move leaves as it is.

Each basic move has one contract here; the code that uses it cites the contract.
-/

namespace Offside.Lower

open Machine

variable {s t u : State} {held : List Register} {r : Register} {v w : VarRef} {pending pending' : List String}
  {I : Milestone → State → Prop}

/-! ## The invariant -/

/-- **The invariant of code generation**, with the registers of `held` held by the code being generated. -/
structure Ready (held : List Register) (s : State) : Prop where
  tidy : Tidy held s.pool s.arena s.current
  named : s.arena.Named s.current

/-- The milestone is passed on the way through a statement, not where statements or branches meet. -/
def Milestone.isInner : Milestone → Bool
  | .boundary | .join _ | .exit _ => false
  | _ => true

/-- What holds at the milestones on the way through a statement. -/
def Inner (p : Milestone) (s : State) : Prop := p.isInner = true ∧ ∃ held, Ready held s

theorem Ready.inner (h : Ready held s) {p : Milestone} (hp : p.isInner = true) : Inner p s := ⟨hp, held, h⟩

/-- **What holds at a milestone**: the invariant, with nothing held between two statements. -/
def Sound (p : Milestone) (s : State) : Prop := ∃ held, Ready held s ∧ (p = .boundary → held = [])

theorem Ready.sound (h : Ready held s) {p : Milestone} (hp : p ≠ .boundary) : Sound p s :=
  ⟨held, h, fun he => absurd he hp⟩

theorem Ready.sound_boundary (h : Ready [] s) : Sound .boundary s := ⟨[], h, fun _ => rfl⟩

theorem Inner.sound {p : Milestone} (h : Inner p s) : Sound p s := by
  obtain ⟨hp, held, hs⟩ := h
  exact hs.sound (by rintro rfl; exact absurd hp (by decide))

theorem Ensures.sound {α : Type} {x : Lower α} {Q : α → State → Prop} (h : x.Ensures Inner s Q) :
    x.Ensures Sound s Q := h.weaken fun _ _ => Inner.sound

/-- The register that holds the variable of a name now. -/
def State.holder (s : State) (x : String) : Option Register :=
  (s.arena.resolve? s.current x).bind s.arena.activeRegister?

/-- **What a move leaves as it is**: the scope, the frames, and the arena but for the registers of its
    variables. -/
structure Steady (pending : List String) (s t : State) : Prop where
  current : t.current = s.current
  frames : t.frames = s.frames
  options : t.options = s.options
  alike : s.arena.Alike t.arena
  segment : Segment (s.arena.slotCount s.current) [] pending s t

theorem Steady.slotCount_eq (h : Steady pending s t) :
    t.arena.slotCount t.current = s.arena.slotCount s.current := by
  rw [Arena.slotCount_eq, Arena.slotCount_eq, h.current, h.alike.table_eq]

theorem Steady.trans (h : Steady pending s t) (h' : Steady pending' t u) : Steady (pending ++ pending') s u :=
  ⟨h'.current.trans h.current, h'.frames.trans h.frames, h'.options.trans h.options, h.alike.trans h'.alike,
    h.segment.trans (h.slotCount_eq ▸ h'.segment)⟩

theorem Steady.refl (s : State) : Steady [] s s :=
  ⟨rfl, rfl, rfl, .refl _, segment_of_code_eq rfl (fun _ => rfl) rfl⟩

theorem Steady.place {l : String} (h : Steady (l :: pending) s t) :
    Steady pending s (t.place l) :=
  ⟨h.current, h.frames, h.options, h.alike, h.segment.place⟩

/-- A straight move keeps the invariant if the pool and the arena it leaves do. -/
theorem Does.ready {is : List Instr} {p : Pool} {a : Arena} (h : Does is p a s t) (htidy : Tidy held p a s.current)
    (hnamed : a.Named s.current) : Ready held t := by
  refine ⟨?_, ?_⟩
  · rw [h.pool, h.arena, h.current]; exact htidy
  · rw [h.arena, h.current]; exact hnamed

theorem Does.steady {is : List Instr} {p : Pool} {a : Arena} (h : Does is p a s t) (halike : s.arena.Alike a)
    (hlabels : ∀ i, (a.get i).labels = (s.arena.get i).labels)
    (his : ∀ i ∈ is, (Line.instr i).Within (s.arena.slotCount s.current)) : Steady [] s t :=
  ⟨h.current, h.frames, h.options, by rw [h.arena]; exact halike,
    h.segment (Nat.le_of_eq halike.size_eq.symm) (fun i => Nat.le_of_eq (hlabels i).symm) his⟩

/-- A straight move that leaves the arena alone and does not use the frame pointer. -/
theorem Does.steady_of_frameless {is : List Instr} {p : Pool} (h : Does is p s.arena s t)
    (his : ∀ i ∈ is, i.frameOffset? = none) : Steady [] s t :=
  h.steady (.refl _) (fun _ => rfl) fun i hi => within_of_frameOffset? (his i hi)

/-- A straight move that leaves the pool and the arena alone. -/
theorem Does.ready_of_eq {is : List Instr} (h : Does is s.pool s.arena s t) (hs : Ready held s) : Ready held t :=
  h.ready hs.tidy hs.named

/-! ## The pool -/

theorem allocate_none {c : RegisterClass} (h : s.pool.allocate? c = none) :
    (allocate c).Ensures I s fun o t => o = none ∧ t = s := by
  unfold allocate
  rw [ensures_bind, ensures_look, h]
  exact ⟨rfl, rfl⟩

theorem allocate_some {c : RegisterClass} {q : Pool} (h : s.pool.allocate? c = some (r, q)) :
    (allocate c).Ensures I s fun o t => o = some r ∧ Does [] q s.arena s t := by
  unfold allocate
  rw [ensures_bind, ensures_look, h]
  exact ⟨rfl, rfl, rfl, rfl, rfl, rfl, rfl, [], by simp, rfl⟩

theorem take_free (hclass : r.classOf?.isSome = true) (h : s.pool.isAvailable r = true) :
    (take r).Ensures I s fun ok t => ok = true ∧ Does [] (s.pool.mark r false) s.arena s t := by
  have htake : s.pool.take? r = some (s.pool.mark r false) := by
    unfold Pool.take?
    rw [if_neg]
    simp [Option.isSome_iff_ne_none.mp hclass, h]
  unfold take
  rw [ensures_bind, ensures_look, htake]
  exact ⟨rfl, rfl, rfl, rfl, rfl, rfl, rfl, [], by simp, rfl⟩

theorem free_does (hclass : r.classOf?.isSome = true) :
    (free r).Ensures I s fun _ t => Does [] (s.pool.free r) s.arena s t := by
  unfold free
  rw [if_pos hclass]
  exact ⟨rfl, rfl, rfl, rfl, rfl, rfl, [], by simp, rfl⟩

/-- A held register is given back. -/
theorem free_ensures (hs : Ready (r :: held) s) (hclass : r.classOf?.isSome = true) :
    (free r).Ensures I s fun _ t => Does [] (s.pool.free r) s.arena s t ∧ Ready held t :=
  (free_does hclass).mono fun _ _ h => ⟨h, h.ready hs.tidy.drop hs.named⟩

theorem isSome_of_clobbered (h : r.isCallerClobbered = true) : r.classOf?.isSome = true := by
  revert h; cases r <;> decide

theorem clobbered_of_temporary (h : r.classOf? = some .temporary) : r.isCallerClobbered = true := by
  unfold Register.isCallerClobbered
  rw [h]
  rfl

/-! ## Spilling -/

/-- **A variable is written back**: nothing happens to one that is not active; an active one goes to its
    slot, and its register is free. -/
def WroteBack (v : VarRef) (s t : State) : Prop :=
  (s.arena.activeRegister? v = none ∧ t = s) ∨
    ∃ var r, s.arena.lookup? v = some var ∧ var.activeRegister? = some r ∧
      Does [storeSlot r var.slot] (s.pool.free r) (s.arena.updateVariable v (·.release)) s t

theorem WroteBack.activeRegister?_eq (h : WroteBack v s t) (w : VarRef) :
    t.arena.activeRegister? w = if w = v then none else s.arena.activeRegister? w := by
  rcases h with ⟨hnone, rfl⟩ | ⟨var, r, _, _, hdoes⟩
  · split
    · rename_i he; rw [he, hnone]
    · rfl
  · rw [hdoes.arena, Arena.activeRegister?_release]

theorem WroteBack.ready (h : WroteBack v s t) (hs : Ready held s) : Ready held t := by
  rcases h with ⟨_, rfl⟩ | ⟨var, r, hvar, hact, hdoes⟩
  · exact hs
  · have hactive : s.arena.activeRegister? v = some r := by unfold Arena.activeRegister?; rw [hvar]; exact hact
    exact hdoes.ready (hs.tidy.release hactive) (hs.named.of_alike (Arena.alike_updateVariable fun _ => rfl))

theorem WroteBack.steady (h : WroteBack v s t) (hs : Ready held s) : Steady [] s t := by
  rcases h with ⟨_, rfl⟩ | ⟨var, r, hvar, hact, hdoes⟩
  · exact .refl _
  · have hactive : s.arena.activeRegister? v = some r := by unfold Arena.activeRegister?; rw [hvar]; exact hact
    refine hdoes.steady (Arena.alike_updateVariable fun _ => rfl) (Arena.labels_updateVariable _) fun i hi => ?_
    obtain rfl := List.mem_singleton.mp hi
    exact within_storeSlot r (hs.named.slot_lt hvar (hs.tidy.place hactive).2)

theorem writeBack_ensures (hs : Ready held s) : (writeBack v).Ensures I s fun _ t => WroteBack v s t := by
  unfold writeBack
  rw [ensures_bind, ensures_look]
  cases hvar : s.arena.lookup? v with
  | none => exact Or.inl ⟨by unfold Arena.activeRegister?; rw [hvar]; rfl, rfl⟩
  | some var =>
      simp only
      cases hact : var.activeRegister? with
      | none => exact Or.inl ⟨by unfold Arena.activeRegister?; rw [hvar]; exact hact, rfl⟩
      | some r =>
          have hactive : s.arena.activeRegister? v = some r := by
            unfold Arena.activeRegister?; rw [hvar]; exact hact
          have hclass := isSome_of_clobbered (hs.tidy.clobbered hactive)
          refine (note_does _).bind fun _ t₁ h₁ => (comment_does _).bind fun _ t₂ h₂ =>
            (emitInstrs_does _).bind fun _ t₃ h₃ => ?_
          rw [h₁.pool, h₁.arena] at h₂
          rw [h₂.pool, h₂.arena] at h₃
          rw [ensures_discard]
          unfold unbindVariable
          rw [ensures_bind, ensures_look, h₃.arena, hactive]
          refine (change_does (p := t₃.pool) (a := s.arena.updateVariable v (·.release)) rfl
            (by rw [h₃.arena]) rfl rfl rfl rfl rfl).bind fun _ t₄ h₄ => ?_
          refine (free_does hclass).bind fun _ t₅ h₅ => ?_
          rw [h₄.pool, h₄.arena, h₃.pool] at h₅
          exact Or.inr ⟨var, r, hvar, hact, h₁.trans (h₂.trans (h₃.trans (h₄.trans h₅)))⟩

theorem spill_ensures (hs : Ready held s) :
    (spill v).Ensures Inner s fun _ t => WroteBack v s t ∧ Ready held t :=
  (writeBack_ensures hs).bind fun _ _ ht =>
    ⟨(ht.ready hs).inner rfl, ht, ht.ready hs⟩

/-- **Variables are written back**, one after the other. -/
inductive Spills : List VarRef → State → State → Prop
  | nil {s : State} : Spills [] s s
  | cons {v : VarRef} {l : List VarRef} {s t u : State} (hv : WroteBack v s t) (hl : Spills l t u) :
      Spills (v :: l) s u

namespace Spills

variable {l : List VarRef}

theorem activeRegister?_eq (h : Spills l s t) (w : VarRef) :
    t.arena.activeRegister? w = if w ∈ l then none else s.arena.activeRegister? w := by
  induction h with
  | nil => simp
  | @cons v l _ _ _ hv _ ih =>
      rw [ih, hv.activeRegister?_eq]
      by_cases hw : w ∈ l <;> simp [hw, List.mem_cons]

theorem ready (h : Spills l s t) (hs : Ready held s) : Ready held t := by
  induction h with
  | nil => exact hs
  | cons hv _ ih => exact ih (hv.ready hs)

theorem steady (h : Spills l s t) (hs : Ready held s) : Steady [] s t := by
  induction h with
  | nil => exact .refl _
  | cons hv _ ih => exact (hv.steady hs).trans (ih (hv.ready hs))

end Spills

theorem spillAll_ensures (hs : Ready held s) (l : List VarRef) :
    (l.forM spill).Ensures Inner s fun _ t => Spills l s t := by
  induction l generalizing s with
  | nil => exact .nil
  | cons v rest ih =>
      exact (spill_ensures hs).bind fun _ t ⟨hv, ht⟩ => (ih ht).mono fun _ u hu => .cons hv hu

/-- At a synchronised point every variable is in its slot. -/
theorem synchronise_ensures (hs : Ready held s) :
    synchronise.Ensures Inner s fun _ t =>
      Spills (s.arena.activeVariables s.current) s t ∧ ∀ v, t.arena.activeRegister? v = none := by
  unfold synchronise
  rw [ensures_bind, ensures_look]
  refine (spillAll_ensures hs _).mono fun _ t ht => ⟨ht, fun v => ?_⟩
  rw [ht.activeRegister?_eq]
  split
  · rfl
  · rename_i hnot
    cases hv : s.arena.activeRegister? v with
    | none => rfl
    | some x =>
        obtain ⟨var, hvar, hact, _⟩ := Arena.activeRegister?_eq_some_iff.mp hv
        exact absurd (Arena.mem_activeVariables.mpr ⟨(hs.tidy.place hv).1, var, hvar, hact⟩) hnot

/-! ## Temporaries -/

/-- **A temporary was handed out**, after variables were spilled to make room for it. -/
def Allocated (r : Register) (s t : State) : Prop :=
  ∃ l mid, Spills l s mid ∧ mid.pool.allocate? .temporary = some (r, t.pool) ∧ Does [] t.pool mid.arena mid t

namespace Allocated

theorem temporary (h : Allocated r s t) : r.classOf? = some .temporary := by
  obtain ⟨_, _, _, halloc, _⟩ := h
  exact (allocate?_some halloc).1

theorem ready (h : Allocated r s t) (hs : Ready held s) : Ready (r :: held) t := by
  obtain ⟨_, mid, hspills, halloc, hdoes⟩ := h
  obtain ⟨_, hfree, hused⟩ := allocate?_some halloc
  have hmid := hspills.ready hs
  exact hdoes.ready (hmid.tidy.hold hfree hused) hmid.named

theorem steady (h : Allocated r s t) (hs : Ready held s) : Steady [] s t := by
  obtain ⟨_, mid, hspills, _, hdoes⟩ := h
  exact (hspills.steady hs).trans (hdoes.steady_of_frameless (by simp))

/-- Making room only takes registers from variables. -/
theorem activeRegister?_of (h : Allocated r s t) {x : Register} (hw : t.arena.activeRegister? w = some x) :
    s.arena.activeRegister? w = some x := by
  obtain ⟨_, mid, hspills, _, hdoes⟩ := h
  rw [hdoes.arena, hspills.activeRegister?_eq] at hw
  split at hw
  · exact absurd hw (by simp)
  · exact hw

theorem activeRegister?_eq_none (h : Allocated r s t) (hw : s.arena.activeRegister? w = none) :
    t.arena.activeRegister? w = none := by
  cases hact : t.arena.activeRegister? w with
  | none => rfl
  | some x => exact absurd (hw.symm.trans (h.activeRegister?_of hact)) (by simp)

end Allocated

/-- Spilling a variable that is in a temporary makes room for a temporary. -/
theorem makeRoom_ensures (hs : Ready held s) (hlen : held.length < 7)
    (hnone : s.pool.allocate? .temporary = none) :
    makeRoom.Ensures Inner s fun _ t => ∃ v x, Spills [v] s t ∧ t.pool.allocate? .temporary = some x := by
  obtain ⟨v, x, hv, hclass⟩ := hs.tidy.exists_active_temporary hlen hnone
  obtain ⟨w, hw⟩ := spillCandidate?_isSome hv hclass (hs.tidy.place hv).1
  obtain ⟨y, hy, hyclass⟩ := spillCandidate?_some hw
  unfold makeRoom
  rw [ensures_bind, ensures_look, hw]
  refine (spill_ensures hs).mono fun _ t ⟨hback, _⟩ => ?_
  have hfree : y ∉ t.pool.inUse := by
    rcases hback with ⟨hinactive, _⟩ | ⟨var, z, hvar, hact, hdoes⟩
    · exact absurd (hinactive.symm.trans hy) (by simp)
    · have hz : s.arena.activeRegister? w = some z := by unfold Arena.activeRegister?; rw [hvar]; exact hact
      obtain rfl := Option.some.inj (hz.symm.trans hy)
      rw [hdoes.pool, mem_free]
      exact fun h => h.2 rfl
  obtain ⟨x, hx⟩ := allocate?_isSome_of_free hyclass hfree
  exact ⟨w, x, .cons hback .nil, hx⟩

/-- **A temporary is always found**, if few are held. -/
theorem allocateTemp_ensures (hs : Ready held s) (hlen : held.length < 7) :
    allocateTemp.Ensures Inner s fun r t => Allocated r s t ∧ Ready (r :: held) t := by
  have hfinish : ∀ {r t}, Allocated r s t →
      (do milestone .temporary; return r : Lower Register).Ensures Inner t
        fun r t => Allocated r s t ∧ Ready (r :: held) t := fun h =>
    ⟨(h.ready hs).inner rfl, h, h.ready hs⟩
  unfold allocateTemp
  cases halloc : s.pool.allocate? .temporary with
  | some x =>
      obtain ⟨r, q⟩ := x
      refine (allocate_some halloc).bind fun o t ⟨ho, ht⟩ => ?_
      subst ho
      exact hfinish ⟨[], s, .nil, by rw [halloc, ht.pool], ht.pool ▸ ht⟩
  | none =>
      refine (allocate_none halloc).bind fun o t ⟨ho, ht⟩ => ?_
      subst ho ht
      refine (makeRoom_ensures hs hlen halloc).bind fun _ t ⟨v, x, hspill, hx⟩ => ?_
      obtain ⟨r, q⟩ := x
      refine (allocate_some hx).bind fun o u ⟨ho, hu⟩ => ?_
      subst ho
      exact hfinish ⟨[v], t, hspill, by rw [hx, hu.pool], hu.pool ▸ hu⟩

theorem frameless_pop (r : Register) : ∀ i ∈ pop r, i.frameOffset? = none := by
  simp [pop, Instr.frameOffset?]

/-- **The top of the stack was taken into a temporary.** -/
def Popped (r : Register) (s t : State) : Prop :=
  ∃ mid, Allocated r s mid ∧ Does (pop r) mid.pool mid.arena mid t

theorem Popped.temporary (h : Popped r s t) : r.classOf? = some .temporary := by
  obtain ⟨mid, halloc, _⟩ := h
  exact halloc.temporary

theorem Popped.steady (h : Popped r s t) (hs : Ready held s) : Steady [] s t := by
  obtain ⟨mid, halloc, hdoes⟩ := h
  exact (halloc.steady hs).trans (hdoes.steady_of_frameless (frameless_pop r))

theorem popTemp_ensures (hs : Ready held s) (hlen : held.length < 7) :
    popTemp.Ensures Inner s fun r t => Popped r s t ∧ Ready (r :: held) t := by
  unfold popTemp
  refine (allocateTemp_ensures hs hlen).bind fun r mid halloc => ?_
  refine (emitInstrs_does _).bind fun _ t ht => ?_
  exact ⟨⟨mid, halloc.1, ht⟩, ht.ready_of_eq halloc.2⟩

/-! ## Reloading -/

/-- **A variable of the current function**, as seen from the current scope. -/
def Local (a : Arena) (c : ScopeId) (v : VarRef) (var : Variable) : Prop :=
  a.lookup? v = some var ∧ v.scope ∈ a.chain c ∧ (a.get v.scope).root = (a.get c).root

theorem Local.of_alike {a b : Arena} {c : ScopeId} {var : Variable} (h : Local a c v var) (hab : a.Alike b) :
    ∃ var', Local b c v var' ∧ var'.name = var.name ∧ var'.slot = var.slot := by
  obtain ⟨hvar, hchain, hroot⟩ := h
  obtain ⟨var', hvar', hname, hslot⟩ := hab.lookup?_some hvar
  exact ⟨var', ⟨hvar', hab.chain_eq c ▸ hchain, by rw [hab.root_eq, hab.root_eq]; exact hroot⟩, hname, hslot⟩

/-- A variable takes over a held register. -/
theorem bindVariable_ensures {var : Variable} (hs : Ready (r :: held) s) (hclobbered : r.isCallerClobbered = true)
    (hvar : Local s.arena s.current v var) (hnone : s.arena.activeRegister? v = none) :
    (bindVariable v r).Ensures Inner s fun _ t =>
      Does [] s.pool (s.arena.updateVariable v (·.bind r)) s t ∧ Ready held t := by
  refine (change_does rfl rfl rfl rfl rfl rfl rfl).bind fun _ t ht => ?_
  have hready : Ready held t := ht.ready (hs.tidy.bind hclobbered hvar.1 hnone hvar.2)
    (hs.named.of_alike (Arena.alike_updateVariable fun _ => rfl))
  exact ⟨hready.inner rfl, ht, hready⟩

/-- A variable is bound to the register it has. -/
theorem rebindVariable_ensures (hs : Ready held s) (hv : s.arena.activeRegister? v = some r) :
    (bindVariable v r).Ensures Inner s fun _ t =>
      Does [] s.pool (s.arena.updateVariable v (·.bind r)) s t ∧ Ready held t := by
  refine (change_does rfl rfl rfl rfl rfl rfl rfl).bind fun _ t ht => ?_
  have hready : Ready held t := ht.ready (hs.tidy.rebind hv)
    (hs.named.of_alike (Arena.alike_updateVariable fun _ => rfl))
  exact ⟨hready.inner rfl, ht, hready⟩

/-- Binding a variable leaves the shape of the arena alone. -/
theorem Does.steady_bind {is : List Instr} {p : Pool} (h : Does is p (s.arena.updateVariable v (·.bind r)) s t)
    (his : ∀ i ∈ is, (Line.instr i).Within (s.arena.slotCount s.current)) : Steady [] s t :=
  h.steady (Arena.alike_updateVariable fun _ => rfl) (Arena.labels_updateVariable _) his

/-- **A variable was brought into a temporary.** -/
def Reloaded (v : VarRef) (r : Register) (s t : State) : Prop :=
  ∃ mid var, s.arena.activeRegister? v = none ∧ Allocated r s mid ∧ Local mid.arena mid.current v var ∧
    Does [loadSlot r var.slot] mid.pool (mid.arena.updateVariable v (·.bind r)) mid t

namespace Reloaded

theorem steady (h : Reloaded v r s t) (hs : Ready held s) : Steady [] s t := by
  obtain ⟨mid, var, _, halloc, hvar, hdoes⟩ := h
  have hmid := halloc.ready hs
  refine (halloc.steady hs).trans (hdoes.steady_bind fun i hi => ?_)
  obtain rfl := List.mem_singleton.mp hi
  exact within_loadSlot r (hmid.named.slot_lt hvar.1 hvar.2.2)

theorem activeRegister?_self (h : Reloaded v r s t) : t.arena.activeRegister? v = some r := by
  obtain ⟨mid, var, _, _, hvar, hdoes⟩ := h
  rw [hdoes.arena, Arena.activeRegister?_bind hvar.1, if_pos rfl]

end Reloaded

theorem Reloaded.activeRegister?_none (h : Reloaded v r s t) (hne : w ≠ v)
    (hw : s.arena.activeRegister? w = none) : t.arena.activeRegister? w = none := by
  obtain ⟨mid, var, _, halloc, hvar, hdoes⟩ := h
  rw [hdoes.arena, Arena.activeRegister?_bind hvar.1, if_neg hne]
  exact halloc.activeRegister?_eq_none hw

theorem reload_ensures {var : Variable} (hs : Ready held s) (hlen : held.length < 7)
    (hvar : Local s.arena s.current v var) (hnone : s.arena.activeRegister? v = none) :
    (reload v).Ensures Inner s fun r t => Reloaded v r s t ∧ Ready held t := by
  unfold reload
  refine (allocateTemp_ensures hs hlen).bind fun r mid ⟨halloc, hmid⟩ => ?_
  have hsteady := halloc.steady hs
  obtain ⟨var', hvar', _, _⟩ := hvar.of_alike hsteady.alike
  rw [← hsteady.current] at hvar'
  have hnone' := halloc.activeRegister?_eq_none hnone
  refine Ensures.bind (R := fun _ t => Reloaded v r s t ∧ Ready held t) ?_ fun _ t ⟨ht, hready⟩ =>
    ⟨hready.inner rfl, ht, hready⟩
  unfold loadInto
  rw [ensures_bind, ensures_look, hvar'.1]
  refine (note_does _).bind fun _ t₁ h₁ => (comment_does _).bind fun _ t₂ h₂ =>
    (emitInstrs_does _).bind fun _ t₃ h₃ => ?_
  rw [h₁.pool, h₁.arena] at h₂
  rw [h₂.pool, h₂.arena] at h₃
  have h₀₃ := h₁.trans (h₂.trans h₃)
  refine (bindVariable_ensures (h₀₃.ready_of_eq hmid) (clobbered_of_temporary halloc.temporary)
    (by rw [h₀₃.arena, h₀₃.current]; exact hvar') (by rw [h₀₃.arena]; exact hnone')).mono
    fun _ t ⟨ht, hready⟩ => ⟨?_, hready⟩
  rw [h₃.pool, h₃.arena] at ht
  exact ⟨mid, var', hnone, halloc, hvar', h₀₃.trans ht⟩

/-- **Variables are brought into temporaries**, one after the other. -/
inductive Reloads : List VarRef → State → State → Prop
  | nil {s : State} : Reloads [] s s
  | cons {v : VarRef} {r : Register} {l : List VarRef} {s t u : State} (hv : Reloaded v r s t)
      (ht : Ready [] t) (hl : Reloads l t u) : Reloads (v :: l) s u

theorem Reloads.steady {l : List VarRef} (h : Reloads l s t) (hs : Ready [] s) : Steady [] s t := by
  induction h with
  | nil => exact .refl _
  | cons hv ht _ ih => exact (hv.steady hs).trans (ih ht)

theorem reloadAll_ensures {l : List VarRef} (hs : Ready [] s) (hnodup : l.Nodup)
    (hlocal : ∀ v ∈ l, ∃ var, Local s.arena s.current v var)
    (hnone : ∀ v ∈ l, s.arena.activeRegister? v = none) :
    (l.forM fun v => discard (reload v)).Ensures Inner s fun _ t => Reloads l s t ∧ Ready [] t := by
  induction l generalizing s with
  | nil => exact ⟨.nil, hs⟩
  | cons v rest ih =>
      obtain ⟨hv, hrest⟩ := List.nodup_cons.mp hnodup
      obtain ⟨var, hvar⟩ := hlocal v List.mem_cons_self
      refine Ensures.bind (R := fun _ t => ∃ r, Reloaded v r s t ∧ Ready [] t) ?_ fun _ t ⟨r, hload, ht⟩ => ?_
      · rw [ensures_discard]
        exact (reload_ensures hs (by decide) hvar (hnone v List.mem_cons_self)).mono fun r _ h => ⟨r, h⟩
      have hsteady := hload.steady hs
      refine (ih ht hrest (fun w hw => ?_) fun w hw => ?_).mono fun _ u ⟨hu, hready⟩ => ⟨.cons hload ht hu, hready⟩
      · obtain ⟨x, hx⟩ := hlocal w (List.mem_cons_of_mem v hw)
        obtain ⟨y, hy, _⟩ := hx.of_alike hsteady.alike
        exact ⟨y, hsteady.current ▸ hy⟩
      · exact hload.activeRegister?_none (fun he => hv (he ▸ hw)) (hnone w (List.mem_cons_of_mem v hw))

/-! ## Names and labels -/

theorem checkFrame_ensures (loc : Position) :
    (checkFrame v loc).Ensures I s fun _ t =>
      t = s ∧ (s.arena.get v.scope).root = (s.arena.get s.current).root := by
  unfold checkFrame
  rw [ensures_bind, ensures_look]
  dsimp only
  split
  · trivial
  · rename_i h; exact ⟨rfl, Decidable.not_not.mp h⟩

/-- A name that means a variable of the current function. -/
theorem resolveLocal_ensures (name : String) (loc : Position) :
    (resolveLocal name loc).Ensures I s fun v t => t = s ∧ s.arena.resolve? s.current name = some v ∧
      ∃ var, Local s.arena s.current v var ∧ var.name = name := by
  unfold resolveLocal
  rw [ensures_bind, ensures_look]
  cases hv : s.arena.resolve? s.current name with
  | none => trivial
  | some v =>
      refine (checkFrame_ensures loc).bind fun _ t ⟨ht, hroot⟩ => ?_
      obtain ⟨hchain, var, hvar, hname⟩ := Arena.resolve?_some hv
      exact ⟨ht, rfl, var, ⟨hvar, hchain, hroot⟩, hname⟩

theorem nextLabel_ensures {scope : ScopeId} (hs : Ready held s) (purpose : String)
    (hscope : scope < s.arena.scopes.size) :
    (nextLabel scope purpose).Ensures I s fun l t =>
      Does [] s.pool (s.arena.nextLabel scope purpose).2 s t ∧ Ready held t ∧ Steady [l] s t := by
  have halike := Arena.alike_nextLabel s.arena scope purpose
  refine ⟨⟨rfl, rfl, rfl, rfl, rfl, rfl, [], by simp, rfl⟩, ⟨?_, hs.named.of_alike halike⟩,
    rfl, rfl, rfl, halike, segment_nextLabel hscope⟩
  exact hs.tidy.congr (Arena.lookup?_nextLabel _ scope purpose) (halike.chain_eq _) halike.root_eq

/-! ## Leaving a scope -/

theorem freeAll_does {l : List (String × Register)} (hclass : ∀ e ∈ l, e.2.classOf?.isSome = true) :
    (l.forM fun e => free e.2).Ensures I s fun _ t =>
      Does [] (l.foldl (fun q e => q.free e.2) s.pool) s.arena s t := by
  induction l generalizing s with
  | nil => exact .refl s
  | cons e rest ih =>
      refine (free_does (hclass e List.mem_cons_self)).bind fun _ t ht => ?_
      refine (ih fun e' he' => hclass e' (List.mem_cons_of_mem e he')).mono fun _ u hu => ?_
      rw [ht.pool, ht.arena] at hu
      exact ht.trans hu

/-- The variables of the current scope give up their registers. -/
theorem releaseCurrent_ensures (hs : Ready [] s) :
    releaseCurrent.Ensures I s fun _ t => Ready [] t ∧ Steady [] s t ∧
      t.arena = s.arena.releaseScope s.current ∧ ∃ q, Does [] q (s.arena.releaseScope s.current) s t := by
  have hmem : ∀ {e}, e ∈ (s.arena.get s.current).activeRegisters →
      ∃ k, s.arena.activeRegister? ⟨s.current, k⟩ = some e.2 := fun he =>
    Arena.mem_activeRegisters.mp (List.mem_map_of_mem he)
  unfold releaseCurrent release
  rw [ensures_bind, ensures_look, ensures_bind, ensures_bind, ensures_look]
  refine (change_does (p := s.pool) (a := s.arena.releaseScope s.current) rfl rfl rfl rfl rfl rfl rfl).bind
    fun _ t₁ h₁ => ?_
  refine (freeAll_does fun e he => ?_).bind fun _ t₂ h₂ => ?_
  · obtain ⟨k, hk⟩ := hmem he
    exact isSome_of_clobbered (hs.tidy.clobbered hk)
  refine (note_does _).bind fun _ t₃ h₃ => ?_
  refine (forM_does (fun e _ => comment_does _) _ t₃).mono fun _ t₄ h₄ => ?_
  rw [h₃.pool, h₃.arena] at h₄
  rw [h₁.pool, h₁.arena] at h₂
  rw [h₂.pool, h₂.arena] at h₃ h₄
  have hdoes := h₁.trans (h₂.trans (h₃.trans h₄))
  have halike : s.arena.Alike (s.arena.releaseScope s.current) := Arena.alike_releaseScope
  refine ⟨hdoes.ready ?_ (hs.named.of_alike halike), hdoes.steady halike ?_ (by simp), hdoes.arena, _, hdoes⟩
  · -- a register is still in use exactly if no variable of the scope was in it
    refine hs.tidy.releaseScope s.current Arena.lookup?_releaseScope (halike.chain_eq _)
      halike.root_eq fun x => ?_
    rw [mem_foldl_free, Arena.mem_activeRegisters]
    refine and_congr_right fun _ => ⟨fun hno w hw hscope => hno ⟨w.index, ?_⟩, fun hno ⟨k, hk⟩ => hno _ hk rfl⟩
    rw [← hscope]
    exact hw
  · exact Arena.labels_releaseScope

end Offside.Lower
