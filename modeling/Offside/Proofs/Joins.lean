import Mathlib
import Offside.Proofs.Crossings
import Offside.Proofs.Marks

/-!
# `Proofs.Joins` — registers agree where control comes together

Wherever control comes to a label, or leaves for it, every variable is in its slot, so it does not matter
which way control came. The one exception is the end of a loop, which control leaves right behind the test:
there a variable may be in a register, but then it is a copy of its slot
(`variables_in_slots_at_joins`). No place is left out: in the finished text a label or a jump stands where
the lowering passed a milestone that names it.
-/

namespace Offside.Lower

open Machine

variable {s t : State}

/-- The code of the statement has labels of its own, apart from those of its expressions. -/
def hasJoins : Stmt → Bool
  | .cond .. | .loop .. | .funcDef .. => true
  | _ => false

/-- With every variable in its slot, no register is in use between statements. -/
theorem Ready.inUse_eq_nil (h : Ready [] s) (hidle : Idle s.arena) : s.pool.inUse = [] :=
  h.tidy.inUse_eq_nil hidle.activeRegister?_eq_none

/-- **Behind a conditional, a loop or a function** every variable is in its slot. -/
theorem idle_of_hasJoins {st : Stmt} (hs : Ready [] s) (hst : hasJoins st = true)
    (hrun : (lowerStmt st).run s = .ok () t) : Idle t.arena := by
  cases st with
  | cond span test body orelse =>
      rw [lowerStmt] at hrun
      obtain ⟨_, _, _, _, _, _, _, _, _, _, _, _, hstations⟩ := (lowerCond_ensures hs test (lowerBlock_contract body)
        (lowerBlock_contract orelse) boundNames_of_noElse).run_ok hrun
      exact hstations.second.idle_end
  | loop span test body =>
      rw [lowerStmt] at hrun
      obtain ⟨_, _, _, hblock, _⟩ := (lowerLoop_ensures hs test (lowerBlock_contract body)).run_ok hrun
      exact hblock.idle_end
  | funcDef span name params body =>
      rw [lowerStmt] at hrun
      obtain ⟨_, _, _, _, _, _, hstations, _⟩ :=
        (lowerFunction_ensures hs name params body _ (lowerBlock_contract body)).run_ok hrun
      exact hstations.idle
  | _ => exact absurd hst Bool.false_ne_true

/-- **Registers agree where control comes together.** Wherever the lowering of a module places a label that
    control comes to, or jumps to it, no variable is active. Where control may leave a loop behind its test,
    every active variable was loaded from its slot since the label of the test, and the lines from there on
    leave its register and its slot alone. Behind a conditional, a loop or a function no variable is active
    and no register in use. In the finished text these places are all the labels and jumps there are, but for
    those inside comparisons and the labels that open functions. -/
theorem variables_in_slots_at_joins (o : Options) (m : Module) :
    (∀ p s, (lowerModule m).Passes (.initial o) p s →
      (∀ label, p = .join label → ∀ v x, s.arena.lookup? v = some x → x.active = false) ∧
      (∀ top, p = .exit top → ∃ front since, s.code.toList = front ++ .label top :: since ∧ .label top ∉ since ∧
        ∀ v x r, s.arena.lookup? v = some x → x.activeRegister? = some r → Copied r x.slot since) ∧
      (p = .boundary → ∀ st t, hasJoins st = true → (lowerStmt st).run s = .ok () t →
        (∀ v x, t.arena.lookup? v = some x → x.active = false) ∧ t.pool.inUse = [])) ∧
    ∀ t, (lowerModule m).run (.initial o) = .ok () t → ∀ (k : Nat) l label, t.code[k]? = some l →
      crossing? l = some label →
      (∃ p s, (lowerModule m).Passes (.initial o) p s ∧ p.Names label ∧ s.code.size = k) ∨
      (l = .label label ∧ ∃ j, k = j + 1 ∧ t.code[j]? = some (.directive (.typeFunction label))) := by
  refine ⟨fun p s hp => ?_, fun t hrun k l label hk hl => ?_⟩
  · have hwatched : Watched p s := (lowerModule_crosses o m).passes hp
    have hsound : Sound p s := (lowerModule_ensures o m).passes hp
    refine ⟨?_, ?_, ?_⟩
    · rintro label rfl v x hx
      exact hwatched.1 v x hx
    · rintro top rfl
      obtain ⟨front, since, hcode, htop, hfresh⟩ := hwatched.1
      exact ⟨front, since, hcode, htop, fun v x r hx hr => hfresh.copied hx hr⟩
    · rintro rfl st t hst hrun
      obtain ⟨held, hs, hheld⟩ := hsound
      rw [hheld rfl] at hs
      obtain ⟨_, _, hdone⟩ := (lowerStmt_ensures st hs).run_ok hrun
      have hidle := idle_of_hasJoins hs hst hrun
      exact ⟨fun v x hx => hidle v x hx, hdone.ready.inUse_eq_nil hidle⟩
  · refine ((quiet_lowerModule m (.initial o)).crossing hrun hk (Nat.zero_le k) hl).imp_left ?_
    rintro ⟨p, s, ⟨hnone, _⟩ | hp, hnames, hsize⟩
    · exact absurd hnone (by simp)
    · exact ⟨p, s, hp, hnames, hsize⟩

/-- `def countdown(n)`, by a loop. -/
def countdownModule : Module :=
  ⟨[.funcDef default "countdown" ["n"]
      [.loop default (.compare default (.name default "n" .load) [.greater] [.const default (.int 0)])
         [.augAssign default (.name default "n" .store) .sub (.const default (.int 1))],
       .ret default none]], default⟩

/-- The loop is left with `n` in a register, loaded behind the label of the test. -/
theorem variables_in_slots_at_joins_countdownModule : ∃ s front since,
    (lowerModule countdownModule).Passes (.initial {}) (.exit "while_countdown_sc_2_lab_0") s ∧
      s.code.toList = front ++ .label "while_countdown_sc_2_lab_0" :: since ∧
      s.arena.activeRegister? ⟨1, 0⟩ = some .t0 ∧ Copied .t0 0 since := by
  obtain ⟨p, s, hp, htest⟩ : ∃ p s, (lowerModule countdownModule).Passes (.initial {}) p s ∧
      (p = .exit "while_countdown_sc_2_lab_0" && s.arena.lookup? ⟨1, 0⟩ = some ⟨"n", some .t0, true, 0⟩) = true :=
    exists_passes (by cbv)
  obtain ⟨rfl, hn⟩ : p = .exit "while_countdown_sc_2_lab_0" ∧ s.arena.lookup? ⟨1, 0⟩ = some ⟨"n", some .t0, true, 0⟩ := by
    simpa using htest
  obtain ⟨front, since, hcode, _, hcopied⟩ := ((variables_in_slots_at_joins {} countdownModule).1 _ _ hp).2.1 _ rfl
  refine ⟨s, front, since, hp, hcode, ?_, hcopied _ _ _ hn rfl⟩
  unfold Arena.activeRegister?
  rw [hn]
  rfl

end Offside.Lower
