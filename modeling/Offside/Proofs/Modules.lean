import Offside.Proofs.Functions

/-!
# `Proofs.Modules` — contracts of the code for blocks and modules

The contracts of single statements, put together by recursion over the tree (`lowerStmt_ensures`,
`lowerBlock_ensures`), hold of a whole module (`lowerModule_ensures`), which starts with an empty arena and
with every register free.
-/

namespace Offside.Lower

open Machine

variable {s : State}

/-! ## The start -/

theorem initial_get (i : ScopeId) : (Arena.initial.get i).vars = [] ∧ (Arena.initial.get i).functions = [] ∧
    (Arena.initial.get i).slotNames = [] := by
  cases i with
  | zero => exact ⟨rfl, rfl, rfl⟩
  | succ i => rw [Arena.get_of_size_le (by simp [Arena.initial])]; exact ⟨rfl, rfl, rfl⟩

theorem initial_lookup? (v : VarRef) : Arena.initial.lookup? v = none := by
  unfold Arena.lookup?
  rw [(initial_get v.scope).1]
  rfl

theorem named_initial : Arena.initial.Named globalScope := by
  refine ⟨Arena.wellFormed_initial, by decide, ?_, ?_, ?_, ?_, ?_, ?_⟩
  · unfold Arena.table; rw [(initial_get _).2.2]; exact List.nodup_nil
  · intro v var hv; rw [initial_lookup?] at hv; exact absurd hv (by simp)
  · intro v var hv; rw [initial_lookup?] at hv; exact absurd hv (by simp)
  · intro i f hf; rw [(initial_get i).2.1] at hf; exact absurd hf List.not_mem_nil
  · intro i f hf; rw [(initial_get i).2.1] at hf; exact absurd hf List.not_mem_nil
  · intro i; rw [(initial_get i).2.1]; exact List.nodup_nil

/-- The state before the first statement of a module. -/
def State.start (o : Options) : State := { State.initial o with code := #[.directive .text] }

theorem ready_start (o : Options) : Ready [] (.start o) :=
  ⟨.of_idle (fun v var hv => by
    have hnone := initial_lookup? v
    exact absurd (hnone.symm.trans hv) (by simp)) rfl, named_initial⟩

/-! ## Statements -/

/-- The name of the function that a statement defines. -/
def definedName? : Stmt → Option String
  | .funcDef _ name _ _ => some name
  | _ => none

/-- The names of the functions that statements define, in order. -/
def definedNames (ss : List Stmt) : List String := ss.filterMap definedName?

/-- The names that become labels: those of the functions of the module. -/
def moduleLabels (scope : ScopeId) (names : List String) : List String := if scope = globalScope then names else []

/-- Statements that define no function put no label on the module. -/
theorem Completes.plain {names : List String} {t : State} (h : Completes names [] [] s t) :
    Completes names [] (moduleLabels s.current []) s t := by
  rw [moduleLabels, ite_self]
  exact h

/-- A block inside another one, or a body, defines no function of the module. -/
theorem bodyContract_of_ensures {ss : List Stmt} (h : ∀ {s : State}, Ready [] s →
    (lowerBlock ss).Ensures Sound s fun _ t => ∃ fns : List Callee, fns.map (·.name) = definedNames ss ∧
      Completes (boundNames ss) fns (moduleLabels s.current (definedNames ss)) s t) :
    BodyContract (boundNames ss) (lowerBlock ss) := by
  intro s hs hne
  refine (h hs).mono fun _ t ⟨fns, _, ht⟩ => ⟨fns, ?_⟩
  unfold moduleLabels at ht
  rw [if_neg hne] at ht
  exact ht

/-- Without an `else` there is no second branch. -/
theorem eq_nil_of_noElse {orelse : List Stmt} (h : (!orelse.isEmpty) = false) : orelse = [] := by simpa using h

theorem boundNames_of_noElse {orelse : List Stmt} (h : (!orelse.isEmpty) = false) : boundNames orelse = [] := by
  rw [eq_nil_of_noElse h]
  rfl

mutual

/-- **The code of a statement**: nothing is held before or after it, it binds the names that the statement
    binds, and defines the function that the statement defines. -/
theorem lowerStmt_ensures : ∀ (st : Stmt) {s : State}, Ready [] s →
    (lowerStmt st).Ensures Sound s fun _ t => ∃ fns : List Callee, fns.map (·.name) = (definedName? st).toList ∧
      Completes (boundByStmt st) fns (moduleLabels s.current (definedName? st).toList) s t
  | .pass span, s, hs => ⟨[], rfl, (Settled.refl hs).completes.plain⟩
  | .ret span value, s, hs => by
      rw [lowerStmt]
      refine (lowerReturn_ensures hs value _).sound.mono fun _ t ht => ⟨[], rfl, ?_⟩
      exact ht.completes.plain
  | .expr span value, s, hs => by
      rw [lowerStmt]
      refine (lowerExprStmt_ensures hs value).sound.mono fun _ t ht => ⟨[], rfl, ?_⟩
      exact ht.completes.plain
  | .assign span targets value, s, hs => by
      rw [lowerStmt]
      refine (lowerAssign_ensures hs targets value _).sound.mono fun _ t ht => ⟨[], rfl, ?_⟩
      exact ht.plain
  | .augAssign span target op value, s, hs => by
      rw [lowerStmt]
      refine (lowerAugAssign_ensures hs target op value _).sound.mono fun _ t ht => ⟨[], rfl, ?_⟩
      exact ht.plain
  | .cond span test body orelse, s, hs => by
      rw [lowerStmt]
      have hbody := bodyContract_of_ensures fun hs => lowerBlock_ensures body hs
      have horelse := bodyContract_of_ensures fun hs => lowerBlock_ensures orelse hs
      refine (lowerCond_ensures hs test hbody horelse boundNames_of_noElse).mono fun _ t ht => ⟨[], rfl, ?_⟩
      exact ht.1.plain
  | .loop span test body, s, hs => by
      rw [lowerStmt]
      have hbody := bodyContract_of_ensures fun hs => lowerBlock_ensures body hs
      refine (lowerLoop_ensures hs test hbody).mono fun _ t ht => ⟨[], rfl, ?_⟩
      exact ht.1.plain
  | .funcDef span name params body, s, hs => by
      rw [lowerStmt]
      have hbody := bodyContract_of_ensures fun hs => lowerBlock_ensures body hs
      refine (lowerFunction_ensures hs name params body _ hbody).mono fun _ t ht => ?_
      obtain ⟨o, f, _, _, _, _, hstations, hcompletes⟩ := ht
      refine ⟨[f], ?_, ?_⟩
      · simp [definedName?, hstations.opened.callee_name]
      · simpa [moduleLabels, definedName?, boundByStmt] using hcompletes

/-- **The code of a block**, statement by statement. -/
theorem lowerBlock_ensures : ∀ (ss : List Stmt) {s : State}, Ready [] s →
    (lowerBlock ss).Ensures Sound s fun _ t => ∃ fns : List Callee, fns.map (·.name) = definedNames ss ∧
      Completes (boundNames ss) fns (moduleLabels s.current (definedNames ss)) s t
  | [], s, hs => by
      rw [lowerBlock]
      refine ⟨hs.sound_boundary, [], rfl, ?_⟩
      simpa [moduleLabels, definedNames, boundNames] using (Settled.refl hs).completes
  | st :: rest, s, hs => by
      rw [lowerBlock]
      refine Ensures.bind (R := fun _ t => t = s) ⟨hs.sound_boundary, rfl⟩ fun _ s' hs' => ?_
      subst hs'
      refine (lowerStmt_ensures st hs).bind fun _ t ⟨fns, hfns, ht⟩ => ?_
      refine (lowerBlock_ensures rest ht.ready).mono fun _ u ⟨fns', hfns', hu⟩ => ⟨fns ++ fns', ?_, ?_⟩
      · rw [List.map_append, hfns, hfns']
        cases hst : definedName? st <;> simp [definedNames, hst]
      · have hdone := ht.trans hu hs
        rw [ht.advances.current] at hdone
        have hnames : moduleLabels s'.current (definedName? st).toList ++ moduleLabels s'.current (definedNames rest) =
            moduleLabels s'.current (definedNames (st :: rest)) := by
          unfold moduleLabels
          split
          · cases hst : definedName? st <;> simp [definedNames, hst]
          · rfl
        rw [← hnames]
        exact hdone

end

theorem lowerBlock_contract (ss : List Stmt) : BodyContract (boundNames ss) (lowerBlock ss) :=
  bodyContract_of_ensures (lowerBlock_ensures ss)

/-! ## Modules -/

/-- **The code of a module.** -/
theorem lowerModule_ensures (o : Options) (m : Module) :
    (lowerModule m).Ensures Sound (.initial o) fun _ t => ∃ fns : List Callee,
      fns.map (·.name) = definedNames m.body ∧
      Completes (boundNames m.body) fns (definedNames m.body) (.start o) t :=
  lowerBlock_ensures m.body (s := .start o) (ready_start o)

/-- The end of a block is a statement boundary. -/
theorem lowerBlock_passes_end : ∀ (ss : List Stmt) {s t : State}, (lowerBlock ss).run s = .ok () t →
    (lowerBlock ss).Passes s .boundary t
  | [], s, t, hrun => by
      rw [lowerBlock] at hrun ⊢
      simp only [run_milestone, EStateM.Result.ok.injEq, true_and] at hrun
      exact Or.inl ⟨rfl, hrun.symm⟩
  | st :: rest, s, t, hrun => by
      rw [lowerBlock] at hrun ⊢
      obtain ⟨_, s', hs', hrun⟩ := run_bind_ok.mp hrun
      obtain ⟨_, u, hu, hrun⟩ := run_bind_ok.mp hrun
      exact passes_bind hs' (passes_bind hu (lowerBlock_passes_end rest hrun))

end Offside.Lower
