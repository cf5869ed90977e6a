import Mathlib
import Offside.Proofs.Modules

/-!
# `Proofs.Allocation` — no register is used twice, and none runs out

Two things follow from the contract of a module, whatever the module: at every milestone of its lowering each
register in use has one owner (`active_variables_own_registers`), and lowering never stops for want of a
register (`generate_never_blames_compiler`).
-/

namespace Offside.Lower

open Machine

variable {s : State}

/-! ## Who owns a register -/

section Ownership

variable {p : Milestone}

theorem Sound.register_ne (hs : Sound p s) {v w : VarRef} {x y : Variable} (hv : s.arena.lookup? v = some x)
    (hw : s.arena.lookup? w = some y) (hx : x.active = true) (hy : y.active = true) (hne : v ≠ w) :
    x.register ≠ y.register := by
  obtain ⟨held, hready, -⟩ := hs
  obtain ⟨r, hr⟩ := hready.tidy.register hv hx
  intro heq
  refine hne (hready.tidy.distinct (r := r) ?_ ?_)
  · exact Arena.activeRegister?_eq_some_iff.mpr ⟨x, hv, hx, hr⟩
  · exact Arena.activeRegister?_eq_some_iff.mpr ⟨y, hw, hy, heq ▸ hr⟩

theorem Sound.register_inUse (hs : Sound p s) {v : VarRef} {x : Variable} (hv : s.arena.lookup? v = some x)
    (hx : x.active = true) : ∃ r, x.register = some r ∧ s.pool.isAvailable r = false := by
  obtain ⟨held, hready, -⟩ := hs
  obtain ⟨r, hr⟩ := hready.tidy.register hv hx
  have hused := hready.tidy.active_inUse (Arena.activeRegister?_eq_some_iff.mpr ⟨x, hv, hx, hr⟩)
  exact ⟨r, hr, (mem_inUse.mp hused).2⟩

theorem Sound.place (hs : Sound p s) {v : VarRef} {x : Variable} (hv : s.arena.lookup? v = some x)
    (hx : x.active = true) :
    v.scope ∈ s.arena.chain s.current ∧ (s.arena.get v.scope).root = (s.arena.get s.current).root := by
  obtain ⟨held, hready, -⟩ := hs
  obtain ⟨r, hr⟩ := hready.tidy.register hv hx
  exact hready.tidy.place (Arena.activeRegister?_eq_some_iff.mpr ⟨x, hv, hx, hr⟩)

theorem Sound.mem_inUse_iff (hs : Sound .boundary s) (r : Register) : r ∈ s.pool.inUse ↔
    ∃ v x, s.arena.lookup? v = some x ∧ x.active = true ∧ x.register = some r := by
  obtain ⟨held, hready, hheld⟩ := hs
  obtain rfl := hheld rfl
  constructor
  · intro hused
    obtain ⟨v, hv⟩ := (hready.tidy.accounted hused).resolve_left List.not_mem_nil
    exact ⟨v, Arena.activeRegister?_eq_some_iff.mp hv⟩
  · rintro ⟨v, hv⟩
    exact hready.tidy.active_inUse (Arena.activeRegister?_eq_some_iff.mpr hv)

end Ownership

/-- **Every register in use has one owner.** Wherever the lowering of a module passes a milestone, two
    active variables are in two registers, the register of an active variable is not for others to take,
    and the variable is in sight and lives in the frame of the current function. Between two statements the
    registers in use are those of the active variables. -/
theorem active_variables_own_registers {o : Options} {m : Module} {p : Milestone} {s : State}
    (hp : (lowerModule m).Passes (.initial o) p s) :
    (∀ v w x y, s.arena.lookup? v = some x → s.arena.lookup? w = some y → x.active = true → y.active = true →
      v ≠ w → x.register ≠ y.register) ∧
    (∀ v x, s.arena.lookup? v = some x → x.active = true →
      ∃ r, x.register = some r ∧ s.pool.isAvailable r = false) ∧
    (∀ v x, s.arena.lookup? v = some x → x.active = true →
      v.scope ∈ s.arena.chain s.current ∧ (s.arena.get v.scope).root = (s.arena.get s.current).root) ∧
    (p = .boundary → ∀ r, r ∈ s.pool.inUse ↔
      ∃ v x, s.arena.lookup? v = some x ∧ x.active = true ∧ x.register = some r) := by
  have hs : Sound p s := (lowerModule_ensures o m).passes hp
  refine ⟨fun v w x y hv hw hx hy hne => hs.register_ne hv hw hx hy hne, fun v x hv hx => hs.register_inUse hv hx,
    fun v x hv hx => hs.place hv hx, ?_⟩
  rintro rfl r
  exact hs.mem_inUse_iff r

/-- Two assignments: `x = 7`, then `y = x`. -/
def twoAssignments : Module :=
  ⟨[.assign default [.name default "x" .store] (.const default (.int 7)),
    .assign default [.name default "y" .store] (.name default "x" .load)], default⟩

/-- After two assignments both variables are in registers, which are the registers in use. -/
theorem active_variables_own_registers_twoAssignments :
    ∃ s x y, (lowerModule twoAssignments).Passes (.initial {}) .boundary s ∧
      s.arena.lookup? ⟨0, 0⟩ = some x ∧ s.arena.lookup? ⟨0, 1⟩ = some y ∧ x.active = true ∧ y.active = true ∧
      x.register ≠ y.register ∧ ∃ r ∈ s.pool.inUse, x.register = some r ∧ s.pool.isAvailable r = false := by
  obtain ⟨s, hrun, hx, hy⟩ : ∃ s, (lowerModule twoAssignments).run (.initial {}) = .ok () s ∧
      s.arena.lookup? ⟨0, 0⟩ = some ⟨"x", some .t0, true, 0⟩ ∧
      s.arena.lookup? ⟨0, 1⟩ = some ⟨"y", some .t1, true, 1⟩ := exists_run_ok _ (by cbv)
  have hpasses : (lowerModule twoAssignments).Passes (.initial {}) .boundary s :=
    lowerBlock_passes_end twoAssignments.body (s := .start {}) hrun
  obtain ⟨hdistinct, hused, -, hinUse⟩ := active_variables_own_registers hpasses
  obtain ⟨r, hr, havailable⟩ := hused _ _ hx rfl
  exact ⟨s, _, _, hpasses, hx, hy, rfl, rfl, hdistinct _ _ _ _ hx hy rfl rfl (by decide), r,
    (hinUse rfl r).mpr ⟨_, _, hx, rfl, hr⟩, hr, havailable⟩

/-! ## No register runs out -/

theorem Fault.diagnostic_ne_registersExhausted {e : Fault} (he : e.BlamesSource) (family : String) :
    e.diagnostic ≠ .registersExhausted family := by
  cases e <;> simp_all [Fault.BlamesSource, Fault.diagnostic]

theorem Fault.diagnostic_ne_internal {e : Fault} (he : e.BlamesSource) (detail : String) :
    e.diagnostic ≠ .internal detail := by
  cases e <;> simp_all [Fault.BlamesSource, Fault.diagnostic]

theorem generate_error {o : Options} {m : Module} {e : Fault} (h : generate o m = .error e) : e.BlamesSource := by
  unfold generate generateLogged at h
  cases hrun : (lowerModule m).run (.initial o) with
  | ok _ s => rw [hrun] at h; exact absurd h (by simp)
  | error e' s =>
      rw [hrun] at h
      obtain rfl : e' = e := Except.error.inj h
      exact (lowerModule_ensures o m).run_error hrun

/-- **The compiler never fails for want of a register.** No tree makes `generate` report that registers
    are exhausted, or that a register a call needs is still in use. -/
theorem generate_never_blames_compiler (o : Options) (m : Module) :
    (∀ family, (generate o m).mapError Fault.diagnostic ≠ .error (.registersExhausted family)) ∧
      ∀ detail, (generate o m).mapError Fault.diagnostic ≠ .error (.internal detail) := by
  cases h : generate o m with
  | ok l => exact ⟨fun _ => by simp [Except.mapError], fun _ => by simp [Except.mapError]⟩
  | error e =>
      have he : e.BlamesSource := generate_error h
      refine ⟨fun family hfamily => ?_, fun detail hdetail => ?_⟩
      · exact Fault.diagnostic_ne_registersExhausted he family (Except.error.inj hfamily)
      · exact Fault.diagnostic_ne_internal he detail (Except.error.inj hdetail)

end Offside.Lower
