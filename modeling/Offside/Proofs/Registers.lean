import Offside.Proofs.Arena
import Offside.Lower.State
import Mathlib.Data.List.Perm.Subperm

/-!
# `Proofs.Registers` — which registers are in use, and by whom

A register in use is held by the code being generated, or holds an active variable, never both. `Tidy held`
says this of a state in which the registers of the list `held` are held: the others in use are those of
the active variables, one each, and all active variables belong to the function being generated.

Every move on registers keeps a state tidy. Temporaries never run out (`Tidy.exists_candidate`): few are
held at a time, so if all are in use, one of them holds a variable.
-/

namespace Offside.Lower

open Machine

/-- **The registers in use are accounted for**: those in `held` by the code being generated, the others by
    one active variable each, which belongs to the current function. -/
structure Tidy (held : List Register) (p : Pool) (a : Arena) (c : ScopeId) : Prop where
  register : ∀ {v var}, a.lookup? v = some var → var.active = true → ∃ r, var.register = some r
  clobbered : ∀ {v r}, a.activeRegister? v = some r → r.isCallerClobbered = true
  place : ∀ {v r}, a.activeRegister? v = some r →
    v.scope ∈ a.chain c ∧ (a.get v.scope).root = (a.get c).root
  distinct : ∀ {v w r}, a.activeRegister? v = some r → a.activeRegister? w = some r → v = w
  active_inUse : ∀ {v r}, a.activeRegister? v = some r → r ∈ p.inUse
  active_not_held : ∀ {v r}, a.activeRegister? v = some r → r ∉ held
  accounted : ∀ {r}, r ∈ p.inUse → r ∈ held ∨ ∃ v, a.activeRegister? v = some r
  held_inUse : ∀ {r}, r ∈ held → r ∈ p.inUse
  held_nodup : held.Nodup

variable {held : List Register} {p q : Pool} {a b : Arena} {c : ScopeId} {v w : VarRef} {r : Register}

/-- **No variable is active.** -/
def Idle (a : Arena) : Prop := ∀ v var, a.lookup? v = some var → var.active = false

theorem Idle.activeRegister?_eq_none (h : Idle a) (v : VarRef) : a.activeRegister? v = none := by
  unfold Arena.activeRegister? Variable.activeRegister?
  cases hv : a.lookup? v with
  | none => rfl
  | some var => rw [Option.bind_some, h v var hv]; rfl

theorem Idle.releaseScope (h : Idle a) (s : ScopeId) : Idle (a.releaseScope s) := by
  intro v var hv
  rw [Arena.lookup?_releaseScope] at hv
  obtain ⟨x, hx, rfl⟩ := Option.map_eq_some_iff.mp hv
  split
  · rfl
  · exact h v x hx

theorem Idle.hoist {block parent : ScopeId} (h : Idle a) (hb : a.Hoisted b block parent) : Idle b := by
  intro v var hv
  rcases hb.lookup?_cases hv with ⟨_, hv⟩ | ⟨k, _, hv⟩
  · exact h _ _ hv
  · exact h _ _ hv

/-! ## The pool -/

theorem mem_inUse : r ∈ p.inUse ↔ r.classOf?.isSome = true ∧ p.isAvailable r = false := by
  simp [Pool.inUse, Register.mem_all]

/-- A member of a class is handed out, or can be. -/
theorem isAvailable_of_not_mem_inUse (hclass : r.classOf?.isSome = true) (h : r ∉ p.inUse) :
    p.isAvailable r = true := by
  by_contra havailable
  exact h (mem_inUse.mpr ⟨hclass, Bool.eq_false_iff.mpr havailable⟩)

/-- What is marked as taken is in use from then on. -/
theorem mem_inUse_mark {x : Register} (hclass : r.classOf?.isSome = true) :
    x ∈ (p.mark r false).inUse ↔ x = r ∨ x ∈ p.inUse := by
  rw [mem_inUse, mem_inUse, Pool.isAvailable_mark]
  by_cases hx : x = r
  · simp [hx, hclass]
  · simp [hx]

/-- What is given back is no longer in use; a register outside every class never was. -/
theorem mem_free {x : Register} : x ∈ (p.free r).inUse ↔ x ∈ p.inUse ∧ x ≠ r := by
  unfold Pool.free
  by_cases hclass : r.classOf?.isSome = true
  · rw [if_pos hclass, mem_inUse, mem_inUse, Pool.isAvailable_mark]
    by_cases hx : x = r <;> simp [hx]
  · rw [if_neg hclass]
    refine (and_iff_left_of_imp ?_).symm
    rintro hx rfl
    exact hclass (mem_inUse.mp hx).1

theorem mem_foldl_free {l : List (String × Register)} {x : Register} :
    x ∈ (l.foldl (fun q e => q.free e.2) p).inUse ↔ x ∈ p.inUse ∧ x ∉ l.map (·.2) := by
  induction l generalizing p with
  | nil => simp
  | cons e rest ih =>
      rw [List.foldl_cons, ih, mem_free, List.map_cons, List.mem_cons]
      constructor
      · rintro ⟨⟨hp, hne⟩, hrest⟩; exact ⟨hp, fun h => h.elim hne hrest⟩
      · rintro ⟨hp, hnot⟩; exact ⟨⟨hp, fun h => hnot (Or.inl h)⟩, fun h => hnot (Or.inr h)⟩

theorem allocate?_some {k : RegisterClass} (h : p.allocate? k = some (r, q)) :
    r.classOf? = some k ∧ r ∉ p.inUse ∧ ∀ x, x ∈ q.inUse ↔ x = r ∨ x ∈ p.inUse := by
  unfold Pool.allocate? at h
  obtain ⟨x, hx, heq⟩ := Option.map_eq_some_iff.mp h
  obtain ⟨rfl, rfl⟩ := Prod.mk.inj heq
  have hclass := RegisterClass.mem_members_iff.mp (List.mem_of_find?_eq_some hx)
  refine ⟨hclass, fun hmem => ?_, fun y => mem_inUse_mark (by rw [hclass]; rfl)⟩
  exact absurd ((mem_inUse.mp hmem).2.symm.trans (List.find?_some hx)) (by simp)

theorem allocate?_none {k : RegisterClass} (h : p.allocate? k = none) (hr : r.classOf? = some k) :
    r ∈ p.inUse := by
  unfold Pool.allocate? at h
  rw [Option.map_eq_none_iff, List.find?_eq_none] at h
  have hno := h r (RegisterClass.mem_members_iff.mpr hr)
  exact mem_inUse.mpr ⟨by rw [hr]; rfl, Bool.eq_false_iff.mpr hno⟩

theorem allocate?_isSome_of_free {k : RegisterClass} (hr : r.classOf? = some k) (hfree : r ∉ p.inUse) :
    ∃ x, p.allocate? k = some x := by
  cases h : p.allocate? k with
  | none => exact absurd (allocate?_none h hr) hfree
  | some x => exact ⟨x, rfl⟩

namespace Tidy

/-! ## Registers held by the code being generated -/

/-- A free register is taken. -/
theorem hold (h : Tidy held p a c) (hfree : r ∉ p.inUse) (hq : ∀ x, x ∈ q.inUse ↔ x = r ∨ x ∈ p.inUse) :
    Tidy (r :: held) q a c where
  register := h.register
  clobbered := h.clobbered
  place := h.place
  distinct := h.distinct
  active_inUse hv := (hq _).mpr (Or.inr (h.active_inUse hv))
  active_not_held hv hmem := by
    rcases List.mem_cons.mp hmem with rfl | hmem
    · exact hfree (h.active_inUse hv)
    · exact h.active_not_held hv hmem
  accounted hx := by
    rcases (hq _).mp hx with rfl | hx
    · exact Or.inl List.mem_cons_self
    · exact (h.accounted hx).imp_left (List.mem_cons_of_mem r)
  held_inUse hx := by
    rcases List.mem_cons.mp hx with rfl | hx
    · exact (hq _).mpr (Or.inl rfl)
    · exact (hq _).mpr (Or.inr (h.held_inUse hx))
  held_nodup := List.nodup_cons.mpr ⟨fun hmem => hfree (h.held_inUse hmem), h.held_nodup⟩

/-- A held register is given back. -/
theorem drop (h : Tidy (r :: held) p a c) : Tidy held (p.free r) a c where
  register := h.register
  clobbered := h.clobbered
  place := h.place
  distinct := h.distinct
  active_inUse hv := mem_free.mpr
    ⟨h.active_inUse hv, fun he => h.active_not_held hv (he ▸ List.mem_cons_self)⟩
  active_not_held hv hmem := h.active_not_held hv (List.mem_cons_of_mem r hmem)
  accounted hx := by
    obtain ⟨hused, hne⟩ := mem_free.mp hx
    refine (h.accounted hused).imp_left fun hmem => ?_
    exact (List.mem_cons.mp hmem).resolve_left hne
  held_inUse hx := mem_free.mpr ⟨h.held_inUse (List.mem_cons_of_mem r hx), fun he =>
    (List.nodup_cons.mp h.held_nodup).1 (he ▸ hx)⟩
  held_nodup := (List.nodup_cons.mp h.held_nodup).2

theorem perm {held' : List Register} (h : Tidy held p a c) (hp : held.Perm held') : Tidy held' p a c where
  register := h.register
  clobbered := h.clobbered
  place := h.place
  distinct := h.distinct
  active_inUse := h.active_inUse
  active_not_held hv hmem := h.active_not_held hv (hp.mem_iff.mpr hmem)
  accounted hx := (h.accounted hx).imp_left hp.mem_iff.mp
  held_inUse hx := h.held_inUse (hp.mem_iff.mpr hx)
  held_nodup := hp.nodup_iff.mp h.held_nodup

/-! ## Registers of variables -/

/-- The arena changes in a way that does not concern the active variables. -/
theorem congr (h : Tidy held p a c) (hlookup : ∀ v, b.lookup? v = a.lookup? v)
    (hchain : b.chain c = a.chain c) (hroot : ∀ i, (b.get i).root = (a.get i).root) : Tidy held p b c := by
  have hactive : ∀ v, b.activeRegister? v = a.activeRegister? v := fun v => by
    unfold Arena.activeRegister?; rw [hlookup]
  refine ⟨?_, ?_, ?_, ?_, ?_, ?_, ?_, h.held_inUse, h.held_nodup⟩
  · intro v var hv; rw [hlookup] at hv; exact h.register hv
  · intro v x hv; rw [hactive] at hv; exact h.clobbered hv
  · intro v x hv; rw [hactive] at hv; rw [hchain, hroot, hroot]; exact h.place hv
  · intro v w x hv hw; rw [hactive] at hv hw; exact h.distinct hv hw
  · intro v x hv; rw [hactive] at hv; exact h.active_inUse hv
  · intro v x hv; rw [hactive] at hv; exact h.active_not_held hv
  · intro x hx; simpa only [hactive] using h.accounted hx

/-- An active variable gives up its register. -/
theorem release (h : Tidy held p a c) (hv : a.activeRegister? v = some r) :
    Tidy held (p.free r) (a.updateVariable v (·.release)) c := by
  have halike : a.Alike (a.updateVariable v (·.release)) := Arena.alike_updateVariable fun _ => rfl
  have hactive : ∀ {w x}, (a.updateVariable v (·.release)).activeRegister? w = some x →
      w ≠ v ∧ a.activeRegister? w = some x := by
    intro w x hw
    rw [Arena.activeRegister?_release] at hw
    split at hw
    · exact absurd hw (by simp)
    · rename_i hne; exact ⟨hne, hw⟩
  exact {
    register := by
      intro w var hw hact
      rw [Arena.lookup?_updateVariable] at hw
      split at hw
      · obtain ⟨x, _, rfl⟩ := Option.map_eq_some_iff.mp hw
        exact absurd hact (by simp [Variable.release])
      · exact h.register hw hact
    clobbered := fun hw => h.clobbered (hactive hw).2
    place := by
      intro w x hw
      rw [halike.chain_eq, halike.root_eq, halike.root_eq]
      exact h.place (hactive hw).2
    distinct := fun hw hw' => h.distinct (hactive hw).2 (hactive hw').2
    active_inUse := by
      intro w x hw
      obtain ⟨hne, hold⟩ := hactive hw
      exact mem_free.mpr ⟨h.active_inUse hold, fun he => hne (h.distinct hold (he ▸ hv))⟩
    active_not_held := fun hw => h.active_not_held (hactive hw).2
    accounted := by
      intro x hx
      obtain ⟨hused, hne⟩ := mem_free.mp hx
      refine (h.accounted hused).imp_right fun ⟨w, hw⟩ => ⟨w, ?_⟩
      rw [Arena.activeRegister?_release, if_neg, hw]
      rintro rfl
      exact hne (Option.some.inj (hw.symm.trans hv))
    held_inUse := fun hx => mem_free.mpr ⟨h.held_inUse hx, fun he => h.active_not_held hv (he ▸ hx)⟩
    held_nodup := h.held_nodup }

/-- A variable takes over a held register. -/
theorem bind {var : Variable} (h : Tidy (r :: held) p a c) (hclobbered : r.isCallerClobbered = true)
    (hvar : a.lookup? v = some var) (hnone : a.activeRegister? v = none)
    (hplace : v.scope ∈ a.chain c ∧ (a.get v.scope).root = (a.get c).root) :
    Tidy held p (a.updateVariable v (·.bind r)) c := by
  have halike : a.Alike (a.updateVariable v (·.bind r)) := Arena.alike_updateVariable fun _ => rfl
  have hactive : ∀ {w x}, (a.updateVariable v (·.bind r)).activeRegister? w = some x →
      (w = v ∧ x = r) ∨ a.activeRegister? w = some x := by
    intro w x hw
    rw [Arena.activeRegister?_bind hvar] at hw
    split at hw
    · rename_i he; exact Or.inl ⟨he, (Option.some.inj hw).symm⟩
    · exact Or.inr hw
  have hself : ∀ {w}, a.activeRegister? w ≠ some r := fun hw => h.active_not_held hw List.mem_cons_self
  exact {
    register := by
      intro w var' hw hact
      rw [Arena.lookup?_updateVariable] at hw
      split at hw
      · obtain ⟨x, _, rfl⟩ := Option.map_eq_some_iff.mp hw
        exact ⟨r, rfl⟩
      · exact h.register hw hact
    clobbered := by
      intro w x hw
      rcases hactive hw with ⟨_, rfl⟩ | hw
      · exact hclobbered
      · exact h.clobbered hw
    place := by
      intro w x hw
      rw [halike.chain_eq, halike.root_eq, halike.root_eq]
      rcases hactive hw with ⟨rfl, _⟩ | hw
      · exact hplace
      · exact h.place hw
    distinct := by
      -- no variable was in the register while it was held
      intro w w' x hw hw'
      rcases hactive hw with ⟨rfl, rfl⟩ | hold <;> rcases hactive hw' with ⟨rfl, hx⟩ | hold'
      · rfl
      · exact absurd hold' hself
      · exact absurd (hx ▸ hold) hself
      · exact h.distinct hold hold'
    active_inUse := by
      intro w x hw
      rcases hactive hw with ⟨_, rfl⟩ | hw
      · exact h.held_inUse List.mem_cons_self
      · exact h.active_inUse hw
    active_not_held := by
      intro w x hw hmem
      rcases hactive hw with ⟨_, rfl⟩ | hw
      · exact (List.nodup_cons.mp h.held_nodup).1 hmem
      · exact h.active_not_held hw (List.mem_cons_of_mem r hmem)
    accounted := by
      intro x hx
      rcases h.accounted hx with hmem | ⟨w, hw⟩
      · rcases List.mem_cons.mp hmem with rfl | hmem
        · exact Or.inr ⟨v, by rw [Arena.activeRegister?_bind hvar, if_pos rfl]⟩
        · exact Or.inl hmem
      · refine Or.inr ⟨w, ?_⟩
        rw [Arena.activeRegister?_bind hvar, if_neg, hw]
        rintro rfl
        exact absurd (hnone.symm.trans hw) (by simp)
    held_inUse := fun hx => h.held_inUse (List.mem_cons_of_mem r hx)
    held_nodup := (List.nodup_cons.mp h.held_nodup).2 }

/-- A variable is bound to the register it has. -/
theorem rebind (h : Tidy held p a c) (hv : a.activeRegister? v = some r) :
    Tidy held p (a.updateVariable v (·.bind r)) c := by
  obtain ⟨var, hvar, hact, hreg⟩ := Arena.activeRegister?_eq_some_iff.mp hv
  have halike : a.Alike (a.updateVariable v (·.bind r)) := Arena.alike_updateVariable fun _ => rfl
  refine h.congr (fun w => ?_) (halike.chain_eq c) halike.root_eq
  rw [Arena.lookup?_updateVariable]
  split
  · rename_i he
    rw [he, hvar, Option.map_some]
    cases var
    simp_all [Variable.bind]
  · rfl

/-- All variables of a scope give up their registers. -/
theorem releaseScope (scope : ScopeId) (h : Tidy held p a c)
    (hlookup : ∀ w, b.lookup? w = (a.lookup? w).map fun x => if w.scope = scope then x.release else x)
    (hchain : b.chain c = a.chain c) (hroot : ∀ i, (b.get i).root = (a.get i).root)
    (hq : ∀ x, x ∈ q.inUse ↔ x ∈ p.inUse ∧ ∀ w, a.activeRegister? w = some x → w.scope ≠ scope) :
    Tidy held q b c := by
  have heq : ∀ w, b.activeRegister? w = if w.scope = scope then none else a.activeRegister? w := by
    intro w
    unfold Arena.activeRegister?
    rw [hlookup]
    cases a.lookup? w with
    | none => simp
    | some x => by_cases hw : w.scope = scope <;> simp [hw]
  have hactive : ∀ {w x}, b.activeRegister? w = some x → w.scope ≠ scope ∧ a.activeRegister? w = some x := by
    intro w x hw
    rw [heq] at hw
    split at hw
    · exact absurd hw (by simp)
    · rename_i hne; exact ⟨hne, hw⟩
  exact {
    register := by
      intro w var hw hact
      rw [hlookup] at hw
      obtain ⟨x, hx, rfl⟩ := Option.map_eq_some_iff.mp hw
      split at hact
      · exact absurd hact (by simp [Variable.release])
      · rename_i hne; rw [if_neg hne]; exact h.register hx hact
    clobbered := fun hw => h.clobbered (hactive hw).2
    place := by
      intro w x hw
      rw [hchain, hroot, hroot]
      exact h.place (hactive hw).2
    distinct := fun hw hw' => h.distinct (hactive hw).2 (hactive hw').2
    active_inUse := by
      intro w x hw
      obtain ⟨hne, hold⟩ := hactive hw
      refine (hq x).mpr ⟨h.active_inUse hold, fun w' hw' => ?_⟩
      rw [h.distinct hw' hold]
      exact hne
    active_not_held := fun hw => h.active_not_held (hactive hw).2
    accounted := by
      intro x hx
      obtain ⟨hused, hscope⟩ := (hq x).mp hx
      refine (h.accounted hused).imp_right fun ⟨w, hw⟩ => ⟨w, ?_⟩
      rw [heq, if_neg (hscope w hw), hw]
    held_inUse := fun hx => (hq _).mpr ⟨h.held_inUse hx, fun w hw => absurd hx (h.active_not_held hw)⟩
    held_nodup := h.held_nodup }

/-- A block is entered. -/
theorem pushBlock {sc : Scope} (h : Tidy held p a c) (hc : c < a.scopes.size) (hparent : sc.parent = some c)
    (hroot : sc.root = (a.get c).root) (hvars : sc.vars = []) :
    Tidy held p (Arena.mk (a.scopes.push sc)) a.scopes.size := by
  have hlookup := Arena.lookup?_push (a := a) hvars
  have hactive : ∀ w, (Arena.mk (a.scopes.push sc)).activeRegister? w = a.activeRegister? w := fun w => by
    unfold Arena.activeRegister?; rw [hlookup]
  refine ⟨?_, ?_, ?_, ?_, ?_, ?_, ?_, h.held_inUse, h.held_nodup⟩
  · intro w x hw; rw [hlookup] at hw; exact h.register hw
  · intro w x hw; rw [hactive] at hw; exact h.clobbered hw
  · intro w x hw
    rw [hactive] at hw
    obtain ⟨hchain, hsame⟩ := h.place hw
    have hlt : w.scope < a.scopes.size := Nat.lt_of_le_of_lt (Arena.le_of_mem_chain hchain) hc
    rw [Arena.chain_push_self hc hparent, Arena.get_push_lt sc hlt, Arena.get_push, if_pos rfl, hroot]
    exact ⟨List.mem_cons_of_mem _ hchain, hsame⟩
  · intro w w' x hw hw'; rw [hactive] at hw hw'; exact h.distinct hw hw'
  · intro w x hw; rw [hactive] at hw; exact h.active_inUse hw
  · intro w x hw; rw [hactive] at hw; exact h.active_not_held hw
  · intro x hx; simpa only [hactive] using h.accounted hx

/-- With nothing held and nothing active, no register is in use. -/
theorem inUse_eq_nil (h : Tidy [] p a c) (hnone : ∀ v, a.activeRegister? v = none) : p.inUse = [] := by
  rw [List.eq_nil_iff_forall_not_mem]
  intro x hx
  rcases h.accounted hx with hmem | ⟨v, hv⟩
  · exact absurd hmem List.not_mem_nil
  · exact absurd ((hnone v).symm.trans hv) (by simp)

theorem idle (h : Tidy held p a c) (hnone : ∀ v, a.activeRegister? v = none) : Idle a := by
  intro v var hvar
  cases hact : var.active with
  | false => rfl
  | true =>
      obtain ⟨x, hx⟩ := h.register hvar hact
      have hv := Arena.activeRegister?_eq_some_iff.mpr ⟨var, hvar, hact, hx⟩
      exact absurd ((hnone v).symm.trans hv) (by simp)

/-- Where no variable is active and no register in use, everything is accounted for. -/
theorem of_idle (hidle : Idle a) (hused : p.inUse = []) : Tidy [] p a c := by
  have hnone := hidle.activeRegister?_eq_none
  refine ⟨fun hv hact => ?_, fun hv => ?_, fun hv => ?_, fun hv => ?_, fun hv => ?_, fun hv => ?_, fun hx => ?_,
    fun hx => absurd hx List.not_mem_nil, List.nodup_nil⟩
  · rw [hidle _ _ hv] at hact; exact absurd hact (by simp)
  all_goals first
    | (rw [hused] at hx; exact absurd hx List.not_mem_nil)
    | exact absurd ((hnone _).symm.trans hv) (by simp)

/-! ## Temporaries -/

/-- **Temporaries never run out.** If none is free and few are held, one of them holds a variable. -/
theorem exists_active_temporary (h : Tidy held p a c) (hlen : held.length < 7)
    (hnone : p.allocate? .temporary = none) :
    ∃ v x, a.activeRegister? v = some x ∧ x.classOf? = some .temporary := by
  have hfree : ∃ x ∈ RegisterClass.temporary.members, x ∉ held := by
    by_contra hall
    have hsub : RegisterClass.temporary.members ⊆ held := fun x hx => by
      by_contra hx'
      exact hall ⟨x, hx, hx'⟩
    have hnodup : RegisterClass.temporary.members.Nodup := by decide
    have hle := (hnodup.subperm hsub).length_le
    exact absurd (Nat.lt_of_le_of_lt hle hlen) (by decide)
  obtain ⟨x, hx, hheld⟩ := hfree
  have hclass := RegisterClass.mem_members_iff.mp hx
  rcases h.accounted (allocate?_none hnone hclass) with hmem | ⟨v, hv⟩
  · exact absurd hmem hheld
  · exact ⟨v, x, hv, hclass⟩

end Tidy

/-- What is chosen to be spilled is an active variable in a temporary. -/
theorem spillCandidate?_some {s : State} (h : spillCandidate? s = some v) :
    ∃ r, s.arena.activeRegister? v = some r ∧ r.classOf? = some .temporary := by
  obtain ⟨id, _, hv⟩ := List.exists_of_findSome?_eq_some h
  obtain ⟨k, hk, rfl⟩ := Option.map_eq_some_iff.mp hv
  rw [List.findIdx?_eq_some_iff_getElem] at hk
  obtain ⟨hlt, htest, _⟩ := hk
  obtain ⟨r, hr, hclass⟩ := Option.bind_eq_some_iff.mp (eq_of_beq htest)
  refine ⟨r, ?_, hclass⟩
  unfold Arena.activeRegister? Arena.lookup?
  rw [List.getElem?_eq_getElem hlt]
  exact hr

/-- If a variable in sight is in a temporary, one is chosen. -/
theorem spillCandidate?_isSome {s : State} (hv : s.arena.activeRegister? v = some r)
    (hclass : r.classOf? = some .temporary) (hplace : v.scope ∈ s.arena.chain s.current) :
    ∃ w, spillCandidate? s = some w := by
  cases h : spillCandidate? s with
  | some w => exact ⟨w, rfl⟩
  | none =>
      unfold spillCandidate? at h
      rw [List.findSome?_eq_none_iff] at h
      have hscope := h v.scope (List.mem_reverse.mpr hplace)
      rw [Option.map_eq_none_iff, List.findIdx?_eq_none_iff] at hscope
      obtain ⟨var, hvar, hact⟩ := Option.bind_eq_some_iff.mp hv
      have hno := hscope var (List.mem_of_getElem? hvar)
      rw [hact, Option.bind_some, hclass] at hno
      exact absurd hno (by decide)

end Offside.Lower
