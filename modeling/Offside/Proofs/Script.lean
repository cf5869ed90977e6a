import Offside.Lower.State

/-!
# `Proofs.Script` — reasoning about scripts of code generation

`Lower.Ensures` is the contract of a script: started in a state, it passes its milestones in states that
satisfy a given invariant, stops only with faults that blame the source, and otherwise ends in a value and
a state that satisfy a postcondition. Contracts compose along `>>=` (`Ensures.bind`) and over lists
(`Ensures.forM`), and say three things about a run: what it ends in (`Ensures.run_ok`), why it fails
(`Ensures.run_error`) and what holds at its milestones (`Ensures.passes`).

The second half opens finished runs: a run of `x >>= f` that ends well is a run of `x` followed by one of
`f` (`run_bind_ok`).
-/

namespace Offside.Lower

variable {α β : Type} {I : Milestone → State → Prop} {s t : State}

/-- **The fault blames the source**, not the compiler. -/
def Fault.BlamesSource : Fault → Prop
  | .registersExhausted _ | .argumentBusy _ => False
  | _ => True

/-- **The contract of a script.** From state `s`, every milestone is passed in a state that satisfies `I`,
    a fault blames the source, and the end satisfies `Q`. -/
def Ensures (I : Milestone → State → Prop) : Lower α → State → (α → State → Prop) → Prop
  | .done a, s, Q => Q a s
  | .fail e, _, _ => e.BlamesSource
  | .act change next, s, Q => (next (change s)).Ensures I (change s) Q
  | .pass p next, s, Q => I p s ∧ next.Ensures I s Q

/-! ## Composition -/

/-- **Sequencing.** The contract of `x >>= f` is that of `x`, with the contract of `f` as postcondition. -/
theorem ensures_bind {x : Lower α} {f : α → Lower β} {Q : β → State → Prop} :
    (x >>= f).Ensures I s Q ↔ x.Ensures I s fun a t => (f a).Ensures I t Q := by
  show (x.bind f).Ensures I s Q ↔ _
  induction x generalizing s with
  | done a => rfl
  | fail e => rfl
  | act change next ih => exact ih _
  | pass p next ih => exact and_congr_right fun _ => ih

/-- **Consequence.** A stronger postcondition may be exchanged for a weaker one. -/
theorem Ensures.mono {x : Lower α} {Q R : α → State → Prop} (hx : x.Ensures I s Q)
    (hQR : ∀ a t, Q a t → R a t) : x.Ensures I s R := by
  induction x generalizing s with
  | done a => exact hQR _ _ hx
  | fail e => exact hx
  | act change next ih => exact ih _ hx
  | pass p next ih => exact ⟨hx.1, ih hx.2⟩

/-- A stronger invariant may be exchanged for a weaker one, too. -/
theorem Ensures.weaken {J : Milestone → State → Prop} {x : Lower α} {Q : α → State → Prop} (hx : x.Ensures I s Q)
    (hIJ : ∀ p t, I p t → J p t) : x.Ensures J s Q := by
  induction x generalizing s with
  | done a => exact hx
  | fail e => exact hx
  | act change next ih => exact ih _ hx
  | pass p next ih => exact ⟨hIJ _ _ hx.1, ih hx.2⟩

/-- A contract may speak of the run itself. -/
theorem Ensures.with_run {x : Lower α} {Q : α → State → Prop} (hx : x.Ensures I s Q) :
    x.Ensures I s fun a t => x.run s = .ok a t ∧ Q a t := by
  induction x generalizing s with
  | done a => exact ⟨rfl, hx⟩
  | fail e => exact hx
  | act change next ih => exact ih _ hx
  | pass p next ih => exact ⟨hx.1, ih hx.2⟩

theorem Ensures.bind {x : Lower α} {f : α → Lower β} {R : α → State → Prop} {Q : β → State → Prop}
    (hx : x.Ensures I s R) (hf : ∀ a t, R a t → (f a).Ensures I t Q) : (x >>= f).Ensures I s Q :=
  ensures_bind.mpr (hx.mono hf)

@[simp] theorem ensures_pure {a : α} {Q : α → State → Prop} :
    (pure a : Lower α).Ensures I s Q ↔ Q a s := Iff.rfl

@[simp] theorem ensures_fail {e : Fault} {Q : α → State → Prop} :
    (fail e : Lower α).Ensures I s Q ↔ e.BlamesSource := Iff.rfl

@[simp] theorem ensures_look {Q : State → State → Prop} : look.Ensures I s Q ↔ Q s s := Iff.rfl

@[simp] theorem ensures_change {f : State → State} {Q : Unit → State → Prop} :
    (change f).Ensures I s Q ↔ Q () (f s) := Iff.rfl

@[simp] theorem ensures_milestone {p : Milestone} {Q : Unit → State → Prop} :
    (milestone p).Ensures I s Q ↔ I p s ∧ Q () s := Iff.rfl

theorem ensures_map {x : Lower α} {f : α → β} {Q : β → State → Prop} :
    (f <$> x).Ensures I s Q ↔ x.Ensures I s fun a t => Q (f a) t := ensures_bind

theorem ensures_discard {x : Lower α} {Q : Unit → State → Prop} :
    (discard x).Ensures I s Q ↔ x.Ensures I s fun _ t => Q () t := ensures_map

/-! ## From contracts to runs -/

theorem Ensures.run_ok {x : Lower α} {Q : α → State → Prop} {a : α} (hx : x.Ensures I s Q)
    (hrun : x.run s = .ok a t) : Q a t := by
  induction x generalizing s with
  | done b =>
      simp only [run, EStateM.Result.ok.injEq] at hrun
      obtain ⟨rfl, rfl⟩ := hrun
      exact hx
  | fail e => simp [run] at hrun
  | act change next ih => exact ih _ hx hrun
  | pass p next ih => exact ih hx.2 hrun

theorem Ensures.run_error {x : Lower α} {Q : α → State → Prop} {e : Fault} (hx : x.Ensures I s Q)
    (hrun : x.run s = .error e t) : e.BlamesSource := by
  induction x generalizing s with
  | done b => simp [run] at hrun
  | fail e' =>
      simp only [run, EStateM.Result.error.injEq] at hrun
      obtain ⟨rfl, rfl⟩ := hrun
      exact hx
  | act change next ih => exact ih _ hx hrun
  | pass p next ih => exact ih hx.2 hrun

/-- **Milestones.** A script that meets its contract passes every milestone in a state that satisfies the
    invariant, also when it fails later. -/
theorem Ensures.passes {x : Lower α} {Q : α → State → Prop} {p : Milestone} (hx : x.Ensures I s Q)
    (hp : x.Passes s p t) : I p t := by
  induction x generalizing s with
  | done a => exact hp.elim
  | fail e => exact hp.elim
  | act change next ih => exact ih _ hx hp
  | pass q next ih =>
      rcases hp with ⟨rfl, rfl⟩ | hp
      · exact hx.1
      · exact ih hx.2 hp

/-- After a run of `x` that ends well, `x >>= f` passes the milestones of `f`. -/
theorem passes_bind {x : Lower α} {f : α → Lower β} {a : α} {p : Milestone} {u : State}
    (hrun : x.run s = .ok a t) (hp : (f a).Passes t p u) : (x >>= f).Passes s p u := by
  show (x.bind f).Passes s p u
  induction x generalizing s with
  | done b =>
      simp only [run, EStateM.Result.ok.injEq] at hrun
      obtain ⟨rfl, rfl⟩ := hrun
      exact hp
  | fail e => simp [run] at hrun
  | act change next ih => exact ih _ hrun
  | pass q next ih => exact Or.inr (ih hrun)

/-- Whatever comes after it, `x >>= f` passes the milestones of `x`. -/
theorem passes_bind_left {x : Lower α} {f : α → Lower β} {p : Milestone} {u : State} (hp : x.Passes s p u) :
    (x >>= f).Passes s p u := by
  show (x.bind f).Passes s p u
  induction x generalizing s with
  | done a => exact hp.elim
  | fail e => exact hp.elim
  | act change next ih => exact ih _ hp
  | pass q next ih => exact hp.imp_right ih

/-! ## Opening finished runs -/

/-- A run of `x >>= f` that ends well is a run of `x` that ends well, then one of `f`. -/
theorem run_bind_ok {x : Lower α} {f : α → Lower β} {b : β} :
    (x >>= f).run s = .ok b t ↔ ∃ a u, x.run s = .ok a u ∧ (f a).run u = .ok b t := by
  show (x.bind f).run s = .ok b t ↔ _
  induction x generalizing s with
  | done a =>
      constructor
      · intro h; exact ⟨a, s, rfl, h⟩
      · rintro ⟨a', u, h1, h2⟩
        simp only [run, EStateM.Result.ok.injEq] at h1
        obtain ⟨rfl, rfl⟩ := h1
        exact h2
  | fail e => simp [Lower.bind, run]
  | act change next ih => exact ih _
  | pass p next ih => exact ih

/-- A failure ends the run. -/
theorem run_bind_error {x : Lower α} {f : α → Lower β} {e : Fault} (h : x.run s = .error e t) :
    (x >>= f).run s = .error e t := by
  show (x.bind f).run s = .error e t
  induction x generalizing s with
  | done a => exact absurd h (by simp [run])
  | fail e' => simpa [run, Lower.bind] using h
  | act change next ih => exact ih _ h
  | pass p next ih => exact ih h

@[simp] theorem run_pure {a : α} : (pure a : Lower α).run s = .ok a s := rfl

@[simp] theorem run_fail {e : Fault} : (fail e : Lower α).run s = .error e s := rfl

@[simp] theorem run_look : look.run s = .ok s s := rfl

theorem run_look_bind {f : State → Lower α} : (look >>= f).run s = (f s).run s := rfl

@[simp] theorem run_change {f : State → State} : (change f).run s = .ok () (f s) := rfl

@[simp] theorem run_milestone {p : Milestone} : (milestone p).run s = .ok () s := rfl

theorem run_discard_ok {x : Lower α} :
    (discard x).run s = .ok () t ↔ ∃ a, x.run s = .ok a t := by
  show (x >>= fun a => pure ()).run s = .ok () t ↔ _
  rw [run_bind_ok]
  constructor
  · rintro ⟨a, u, h, hu⟩
    simp only [run_pure, EStateM.Result.ok.injEq, true_and] at hu
    exact ⟨a, hu ▸ h⟩
  · rintro ⟨a, h⟩; exact ⟨a, t, h, rfl⟩

theorem run_forM_cons_ok {f : β → Lower Unit} {b : β} {rest : List β} :
    ((b :: rest).forM f).run s = .ok () t ↔
      ∃ u, (f b).run s = .ok () u ∧ (rest.forM f).run u = .ok () t := by
  show (f b >>= fun _ => rest.forM f).run s = .ok () t ↔ _
  rw [run_bind_ok]
  constructor
  · rintro ⟨_, u, h, hu⟩; exact ⟨u, h, hu⟩
  · rintro ⟨u, h, hu⟩; exact ⟨(), u, h, hu⟩

/-- **A finished run, with its milestones**: they are passed in states that satisfy `I`. -/
structure Went (I : Milestone → State → Prop) (x : Lower α) (s : State) (a : α) (t : State) : Prop where
  run : x.run s = .ok a t
  passes : ∀ p u, x.Passes s p u → I p u

theorem Went.bind {x : Lower α} {f : α → Lower β} {b : β} (h : Went I (x >>= f) s b t) :
    ∃ a u, Went I x s a u ∧ Went I (f a) u b t := by
  obtain ⟨a, u, hx, hf⟩ := run_bind_ok.mp h.run
  exact ⟨a, u, ⟨hx, fun p w hp => h.passes p w (passes_bind_left hp)⟩,
    ⟨hf, fun p w hp => h.passes p w (passes_bind hx hp)⟩⟩

theorem Went.look {f : State → Lower β} {b : β} (h : Went I (look >>= f) s b t) : Went I (f s) s b t :=
  ⟨h.run, h.passes⟩

theorem Went.milestone {p : Milestone} {x : Lower β} {b : β} (h : Went I (milestone p >>= fun _ => x) s b t) :
    I p s ∧ Went I x s b t :=
  ⟨h.passes p s (Or.inl ⟨rfl, rfl⟩), h.run, fun q u hq => h.passes q u (Or.inr hq)⟩

/-- A run on a given state is found by running it. -/
theorem exists_run_ok {x : Lower Unit} (P : State → Prop) [DecidablePred P]
    (h : (match x.run s with
      | .ok _ t => decide (P t)
      | .error _ _ => false) = true) : ∃ t, x.run s = .ok () t ∧ P t := by
  cases hrun : x.run s with
  | ok _ t => rw [hrun] at h; exact ⟨t, rfl, of_decide_eq_true h⟩
  | error e t => rw [hrun] at h; exact absurd h (by simp)

/-- The script, started in a state, passes a milestone that a test accepts. -/
def passesAny {α : Type} (test : Milestone → State → Bool) : Lower α → State → Bool
  | .done _, _ => false
  | .fail _, _ => false
  | .act change next, s => (next (change s)).passesAny test (change s)
  | .pass p next, s => test p s || next.passesAny test s

/-- A milestone is found by going through the script. -/
theorem exists_passes {α : Type} {test : Milestone → State → Bool} {x : Lower α} (h : x.passesAny test s = true) :
    ∃ p t, x.Passes s p t ∧ test p t = true := by
  induction x generalizing s with
  | done a => exact absurd h Bool.false_ne_true
  | fail e => exact absurd h Bool.false_ne_true
  | act change next ih => exact ih _ h
  | pass p next ih =>
      rcases Bool.or_eq_true_iff.mp h with htest | hnext
      · exact ⟨p, s, Or.inl ⟨rfl, rfl⟩, htest⟩
      · obtain ⟨q, t, hq, ht⟩ := ih hnext
        exact ⟨q, t, Or.inr hq, ht⟩

end Offside.Lower
