import Offside.Proofs.Statements

/-!
# `Proofs.Functions` — contracts of the code for functions

The code of a function starts where every variable around it is in its slot (`Paused`). Its body starts in
a scope of its own, with the parameters in the argument registers and in the first slots (`Opened`); at its
end all registers are free again. For the scope around it only the function itself is new
(`lowerFunction_ensures`).
-/

namespace Offside.Lower

open Machine

variable {s t u mid : State} {held : List Register} {r : Register} {v w : VarRef}
  {names named pending params : List String} {fns : List Callee} {I : Milestone → State → Prop}

/-! ## The frame -/

theorem duplicate?_eq_none {seen l : List String} (h : duplicate? seen l = none) :
    l.Nodup ∧ ∀ x ∈ l, x ∉ seen := by
  induction l generalizing seen with
  | nil => simp
  | cons x rest ih =>
      unfold duplicate? at h
      split at h
      · exact absurd h (by simp)
      · rename_i hx
        obtain ⟨hnodup, hnot⟩ := ih h
        refine ⟨List.nodup_cons.mpr ⟨fun hmem => hnot x hmem List.mem_cons_self, hnodup⟩, fun y hy => ?_⟩
        rcases List.mem_cons.mp hy with rfl | hy
        · simpa using hx
        · exact fun hmem => hnot y hy (List.mem_cons_of_mem x hmem)

/-- The number of slots of a function is the number of names it binds that mean nothing outside. -/
theorem planFrame_ensures (name : String) (params : List String) (body : List Stmt) (loc : Position) :
    (planFrame name params body loc).Ensures I s fun frame t => t = s ∧ params.length ≤ maxParameters ∧
      params.Nodup ∧ frame.slots = countLocals params body fun x => (s.arena.resolve? s.current x).isSome := by
  unfold planFrame
  dsimp only
  cases hparams : checkParameters params.length with
  | error e => trivial
  | ok _ =>
      have hle : params.length ≤ maxParameters := by
        unfold checkParameters at hparams
        split at hparams
        · assumption
        · exact absurd hparams (by simp)
      cases hdup : duplicate? [] params with
      | some p => trivial
      | none =>
          rw [ensures_bind, ensures_look]
          cases hframe : Frame.ofSlots (countLocals params body fun x => (s.arena.resolve? s.current x).isSome) with
          | error e => trivial
          | ok frame =>
              refine ⟨rfl, hle, (duplicate?_eq_none hdup).1, ?_⟩
              unfold Frame.ofSlots at hframe
              split at hframe
              · exact (congrArg Frame.slots (Except.ok.inj hframe)).symm
              · exact absurd hframe (by simp)

/-! ## Around a definition -/

/-- **The code around a function pauses**: every variable is in its slot, and inside a function control
    jumps over what follows. -/
structure Paused (skip : Option String) (s mid : State) : Prop where
  ready : Ready [] mid
  idle : Idle mid.arena
  steady : Steady skip.toList s mid
  jumps : ∀ {label}, skip = some label → ∃ front, mid.code.toList = front ++ [.instr (.jump label)]
  path : ∃ l t₁ t₂, Does [] s.pool s.arena s t₁ ∧ Spills l t₁ t₂ ∧
    ((skip = none ∧ s.frames = [] ∧ mid = t₂) ∨
      ∃ label, skip = some label ∧
        Does [.jump label] t₂.pool (t₂.arena.nextLabel s.current "enddef").2 t₂ mid)

theorem skipDefinition_ensures (hs : Ready [] s)
    (hI : ∀ l t, Does [] s.pool (s.arena.nextLabel s.current "enddef").2 s t → Ready [] t → I (.join l) t) :
    (skipDefinition s.current).Ensures I s fun skip t => Ready [] t ∧ Steady skip.toList s t ∧
      (∀ {label}, skip = some label → ∃ front, t.code.toList = front ++ [.instr (.jump label)]) ∧
      ((skip = none ∧ s.frames = [] ∧ t = s) ∨
        ∃ label, skip = some label ∧
          Does [.jump label] s.pool (s.arena.nextLabel s.current "enddef").2 s t) := by
  unfold skipDefinition
  rw [ensures_bind, ensures_look]
  split
  · rename_i hframes
    exact ⟨hs, .refl s, by simp, Or.inl ⟨rfl, List.isEmpty_iff.mp hframes, rfl⟩⟩
  · refine (nextLabel_ensures hs "enddef" hs.named.current_lt).bind fun label t₁ ⟨h₁, hr₁, hs₁⟩ => ?_
    refine (jumpTo_ensures (hI label t₁ h₁ hr₁)).bind fun _ t₂ ⟨h₂, hcode⟩ => ?_
    have hs₂ := h₂.steady_of_frameless (by simp [Instr.frameOffset?])
    refine ⟨h₂.ready_of_eq hr₁, hs₁.trans hs₂, fun he => ⟨_, Option.some.inj he ▸ hcode⟩, Or.inr ⟨label, rfl, ?_⟩⟩
    rw [h₁.pool, h₁.arena] at h₂
    exact h₁.trans h₂

/-! ## Parameters -/

/-- The registers in use are the first `k` of those for arguments. -/
def FirstTaken (k : Nat) (p : Pool) : Prop := ∀ x, x ∈ p.inUse ↔ x ∈ RegisterClass.argument.members.take k

/-- The next argument register is handed out, and then the first `k + 1` are in use. -/
theorem FirstTaken.allocate? {p : Pool} {k : Nat} (h : FirstTaken k p) (hk : k < RegisterClass.argument.members.length) :
    ∃ q, p.allocate? .argument = some (RegisterClass.argument.members[k], q) ∧ FirstTaken (k + 1) q := by
  have hsplit : RegisterClass.argument.members.take k ++ RegisterClass.argument.members[k] ::
      RegisterClass.argument.members.drop (k + 1) = RegisterClass.argument.members := by
    rw [← List.drop_eq_getElem_cons hk, List.take_append_drop]
  have hnodup : RegisterClass.argument.members.Nodup := by decide
  have hclass : RegisterClass.argument.members[k].classOf? = some .argument :=
    RegisterClass.mem_members_iff.mp (List.getElem_mem hk)
  have hfind : RegisterClass.argument.members.find? p.isAvailable = some RegisterClass.argument.members[k] := by
    rw [List.find?_eq_some_iff_append]
    refine ⟨isAvailable_of_not_mem_inUse (by rw [hclass]; rfl) ?_, _, _, hsplit.symm, ?_⟩
    · rw [← hsplit, List.nodup_append] at hnodup
      exact fun hmem => hnodup.2.2 _ ((h _).mp hmem) _ List.mem_cons_self rfl
    · intro x hx
      rw [(mem_inUse.mp ((h x).mpr hx)).2]
      rfl
  have halloc : p.allocate? .argument =
      some (RegisterClass.argument.members[k], p.mark RegisterClass.argument.members[k] false) := by
    unfold Pool.allocate?
    rw [hfind]
    rfl
  refine ⟨_, halloc, fun x => ?_⟩
  rw [(allocate?_some halloc).2.2, h, List.take_succ_eq_append_getElem hk, List.mem_append, List.mem_singleton]
  exact or_comm

/-- Parameters get the argument registers in order. -/
theorem placeParameters_ensures (params : List String) (k : Nat) (hlen : k + params.length ≤ 7)
    (hpool : FirstTaken k s.pool) :
    (placeParameters params).Ensures I s fun placed t => placed.map (·.1) = params ∧
      placed.map (·.2) = (RegisterClass.argument.members.drop k).take params.length ∧
      FirstTaken (k + params.length) t.pool ∧ Does [] t.pool s.arena s t := by
  induction params generalizing s k with
  | nil => exact ⟨rfl, by simp, hpool, .refl s⟩
  | cons name rest ih =>
      rw [List.length_cons] at hlen
      have hk : k < RegisterClass.argument.members.length := by
        show k < 7; omega
      obtain ⟨q, halloc, hq⟩ := hpool.allocate? hk
      unfold placeParameters
      refine (allocate_some halloc).bind fun o t₁ ⟨ho, h₁⟩ => ?_
      subst ho
      refine (ih (k + 1) (by omega) (by rw [h₁.pool]; exact hq)).bind fun placed t₂ ⟨hnames, hregs, htaken, h₂⟩ => ?_
      refine ⟨by rw [List.map_cons, hnames], ?_, ?_, ?_⟩
      · rw [List.map_cons, hregs, List.drop_eq_getElem_cons hk, List.length_cons, List.take_succ_cons]
      · rw [List.length_cons, ← Nat.add_assoc, Nat.add_right_comm]
        exact htaken
      · rw [h₁.arena] at h₂
        exact h₁.trans h₂

section Declared

variable {a b : Arena} {f : ScopeId} {placed : List (String × Register)}

/-- The variables of a function's scope are its parameters, in order. -/
theorem declared_getElem? (h : a.Declared f placed b) (k : Nat) :
    (b.lookup? ⟨f, k⟩).map (fun var => (var.name, var.activeRegister?)) =
      placed[k]?.map fun p => (p.1, some p.2) := by
  unfold Arena.lookup?
  rw [← List.getElem?_map, h.vars_eq, List.getElem?_map]

theorem declared_lookup? (h : a.Declared f placed b) {k : Nat} {var : Variable} (hv : b.lookup? ⟨f, k⟩ = some var) :
    ∃ e, placed[k]? = some e ∧ var.name = e.1 ∧ var.activeRegister? = some e.2 := by
  have hget := declared_getElem? h k
  rw [hv, Option.map_some, eq_comm, Option.map_eq_some_iff] at hget
  obtain ⟨e, he, heq⟩ := hget
  exact ⟨e, he, (Prod.mk.inj heq).1.symm, (Prod.mk.inj heq).2.symm⟩

theorem declared_of_getElem? (h : a.Declared f placed b) {k : Nat} {e : String × Register}
    (he : placed[k]? = some e) :
    ∃ var, b.lookup? ⟨f, k⟩ = some var ∧ var.name = e.1 ∧ var.activeRegister? = some e.2 := by
  have hget := declared_getElem? h k
  rw [he, Option.map_some, Option.map_eq_some_iff] at hget
  obtain ⟨var, hvar, heq⟩ := hget
  exact ⟨var, hvar, (Prod.mk.inj heq).1, (Prod.mk.inj heq).2⟩

/-- Only parameters are active. -/
theorem scope_eq_of_declared (h : a.Declared f placed b) (hidle : Idle a) {var : Variable}
    (hv : b.lookup? v = some var) (hact : var.active = true) : v.scope = f := by
  by_cases hf : v.scope = f
  · exact hf
  · unfold Arena.lookup? at hv
    rw [h.get_ne hf] at hv
    rw [hidle v var hv] at hact
    exact absurd hact (by simp)

theorem activeRegister?_of_declared (h : a.Declared f placed b) (hidle : Idle a)
    (hv : b.activeRegister? v = some r) : v.scope = f ∧ ∃ e, placed[v.index]? = some e ∧ e.2 = r := by
  obtain ⟨var, hvar, hact, hreg⟩ := Arena.activeRegister?_eq_some_iff.mp hv
  obtain rfl := scope_eq_of_declared h hidle hvar hact
  obtain ⟨e, he, _, hactive⟩ := declared_lookup? h hvar
  rw [Variable.activeRegister?, if_pos hact, hreg] at hactive
  exact ⟨rfl, e, he, (Option.some.inj hactive).symm⟩

/-- At the start of a body the registers in use are those of the parameters. -/
theorem tidy_of_declared {p : Pool} (h : a.Declared f placed b) (hidle : Idle a)
    (hregs : placed.map (·.2) = RegisterClass.argument.members.take placed.length)
    (hp : ∀ x, x ∈ p.inUse ↔ x ∈ placed.map (·.2)) : Tidy [] p b f := by
  have hnodup : (placed.map (·.2)).Nodup := by
    rw [hregs]; exact (List.take_sublist _ _).nodup (by decide)
  have hmem : ∀ {v x}, b.activeRegister? v = some x → x ∈ placed.map (·.2) := by
    intro v x hv
    obtain ⟨_, e, he, rfl⟩ := activeRegister?_of_declared h hidle hv
    exact List.mem_map_of_mem (List.mem_of_getElem? he)
  exact {
    register := by
      intro v var hv hact
      obtain rfl := scope_eq_of_declared h hidle hv hact
      obtain ⟨e, _, _, hactive⟩ := declared_lookup? h hv
      rw [Variable.activeRegister?, if_pos hact] at hactive
      exact ⟨e.2, hactive⟩
    clobbered := by
      intro v x hv
      have hx := hmem hv
      rw [hregs] at hx
      unfold Register.isCallerClobbered
      rw [RegisterClass.mem_members_iff.mp (List.mem_of_mem_take hx)]
      rfl
    place := by
      intro v x hv
      rw [(activeRegister?_of_declared h hidle hv).1]
      exact ⟨Arena.mem_chain_self _ _, rfl⟩
    distinct := by
      -- a register stands at one place among those of the parameters, and the place is the variable's
      intro v w x hv hw
      obtain ⟨hfv, e, he, hex⟩ := activeRegister?_of_declared h hidle hv
      obtain ⟨hfw, e', he', hex'⟩ := activeRegister?_of_declared h hidle hw
      have hlt : v.index < (placed.map (·.2)).length := by
        rw [List.length_map]; exact (List.getElem?_eq_some_iff.mp he).1
      have hindex : v.index = w.index := by
        rw [← List.getElem?_inj hlt hnodup, List.getElem?_map, List.getElem?_map, he, he', Option.map_some,
          Option.map_some, hex, hex']
      cases v
      cases w
      simp_all
    active_inUse := fun hv => (hp _).mpr (hmem hv)
    active_not_held := fun _ => List.not_mem_nil
    accounted := by
      intro x hx
      obtain ⟨e, he, rfl⟩ := List.mem_map.mp ((hp x).mp hx)
      obtain ⟨k, hk⟩ := List.mem_iff_getElem?.mp he
      obtain ⟨var, hvar, _, hactive⟩ := declared_of_getElem? h hk
      exact Or.inr ⟨⟨f, k⟩, by unfold Arena.activeRegister?; rw [hvar]; exact hactive⟩
    held_inUse := fun hx => absurd hx List.not_mem_nil
    held_nodup := List.nodup_nil }

/-- The rest of the parameters is declared. -/
theorem declareAll_ensures {done rest : List (String × Register)} (name : String)
    (h : a.Declared f done s.arena) (hnodup : ((done ++ rest).map (·.1)).Nodup) :
    (rest.forM fun p => do
      discard (declareParameter f p.1 p.2)
      note (.parameterPlaced p.1 name p.2)).Ensures I s fun _ t =>
        a.Declared f (done ++ rest) t.arena ∧ Does [] s.pool t.arena s t := by
  induction rest generalizing s done with
  | nil => exact ⟨by rw [List.append_nil]; exact h, .refl s⟩
  | cons e rest ih =>
      have hnew : e.1 ∉ done.map (·.1) := by
        rw [List.map_append, List.map_cons, List.nodup_append] at hnodup
        exact fun hmem => hnodup.2.2 _ hmem _ List.mem_cons_self rfl
      refine Ensures.bind (R := fun _ t => Does [] s.pool (s.arena.insert f e.1 (some e.2)).2 s t) ?_ fun _ t ht => ?_
      · refine Ensures.bind (R := fun _ t => Does [] s.pool (s.arena.insert f e.1 (some e.2)).2 s t) ?_ fun _ t ht => ?_
        · rw [ensures_discard]
          unfold declareParameter
          rw [ensures_bind, ensures_look]
          exact ⟨rfl, rfl, rfl, rfl, rfl, rfl, [], by simp, rfl⟩
        · refine (note_does _).mono fun _ u hu => ?_
          rw [ht.pool, ht.arena] at hu
          exact ht.trans hu
      · have hstep : a.Declared f (done ++ [e]) t.arena := by rw [ht.arena]; exact h.insert hnew
        rw [← List.singleton_append, ← List.append_assoc] at hnodup ⊢
        refine (ih hstep hnodup).mono fun _ u ⟨hu, hdoes⟩ => ⟨hu, ?_⟩
        rw [ht.pool] at hdoes
        exact ht.trans hdoes

end Declared

/-! ## The start of a function -/

/-- **The script adds no lines.** -/
def Silent {α : Type} (x : Lower α) : Prop := ∀ (s t : State) (a : α), x.run s = .ok a t → t.code = s.code

section Silent

variable {α β : Type}

theorem silent_pure (a : α) : Silent (pure a : Lower α) := by
  intro s t b h
  obtain ⟨_, rfl⟩ := EStateM.Result.ok.inj h
  rfl

theorem silent_fail (e : Fault) : Silent (fail e : Lower α) := by
  intro s t a h
  exact absurd h (by simp)

theorem silent_look : Silent look := by
  intro s t a h
  obtain ⟨_, rfl⟩ := EStateM.Result.ok.inj h
  rfl

theorem silent_change {f : State → State} (hf : ∀ s, (f s).code = s.code) : Silent (change f) := by
  intro s t a h
  obtain ⟨_, rfl⟩ := EStateM.Result.ok.inj h
  exact hf s

theorem Silent.bind {x : Lower α} {f : α → Lower β} (hx : Silent x) (hf : ∀ a, Silent (f a)) :
    Silent (x >>= f) := by
  intro s t b h
  obtain ⟨a, u, hu, h⟩ := run_bind_ok.mp h
  exact (hf a u t b h).trans (hx s u a hu)

theorem Silent.forM {f : β → Lower Unit} (hf : ∀ b, Silent (f b)) (l : List β) : Silent (l.forM f) := by
  induction l with
  | nil => exact silent_pure ()
  | cons b rest ih => exact (hf b).bind fun _ => ih

theorem silent_note (e : Event) : Silent (note e) := silent_change fun _ => rfl

theorem silent_placeParameters (params : List String) : Silent (placeParameters params) := by
  induction params with
  | nil => exact silent_pure []
  | cons name rest ih =>
      have hallocate : Silent (allocate .argument) := by
        refine silent_look.bind fun s => ?_
        cases s.pool.allocate? .argument with
        | none => exact silent_pure none
        | some x => exact .bind (silent_change fun _ => by rfl) fun _ => .bind (silent_note _) fun _ => silent_pure _
      refine hallocate.bind fun o => ?_
      cases o with
      | none => exact silent_fail _
      | some r => exact ih.bind fun _ => silent_pure _

/-- Making a function known adds no lines. -/
theorem silent_openFunction (outer : ScopeId) (name : String) (params : List String) (loc : Position) :
    Silent (openFunction outer name params loc) := by
  refine (silent_placeParameters params).bind fun placed => Silent.bind ?_ fun scope => ?_
  · exact silent_look.bind fun _ => .bind (silent_change fun _ => by rfl) fun _ => .bind (silent_note _) fun _ =>
      silent_pure _
  · have hdeclare : Silent (placed.forM fun p => do
        discard (declareParameter scope p.1 p.2)
        note (.parameterPlaced p.1 name p.2)) := by
      refine .forM (fun p => .bind (.bind ?_ fun _ => silent_pure ()) fun _ => silent_note _) placed
      exact silent_look.bind fun _ => .bind (silent_change fun _ => by rfl) fun _ => silent_pure _
    refine silent_look.bind fun s => silent_look.bind fun s' => ?_
    dsimp only
    cases s'.arena.defineFunction outer ⟨name, functionLabel s.arena outer scope name, placed, resultRegister⟩ with
    | error e => exact (silent_fail _).bind fun _ => hdeclare.bind fun _ => silent_pure _
    | ok a => exact .bind (silent_change fun _ => by rfl) fun _ => hdeclare.bind fun _ => silent_pure _

end Silent

theorem ofScope_blamesSource (loc : Position) (e : ScopeFault) : (Fault.ofScope loc e).BlamesSource := by
  cases e <;> trivial

/-- The scope of a function, before anything is bound in it. -/
def functionScope (a : Arena) (c : ScopeId) (name : String) : Scope :=
  { name := name, parent := some c, root := a.scopes.size }

theorem openFunction_ensures {name : String} (hs : Ready [] s) (hused : s.pool.inUse = []) (loc : Position)
    (hlen : params.length ≤ maxParameters) (hnodup : params.Nodup) :
    (openFunction s.current name params loc).Ensures I s fun x t =>
      ∃ placed a, x = (s.arena.scopes.size, functionLabel s.arena s.current s.arena.scopes.size name) ∧
        placed.map (·.1) = params ∧ placed.map (·.2) = RegisterClass.argument.members.take params.length ∧
        (Arena.mk (s.arena.scopes.push (functionScope s.arena s.current name))).Defined a s.current
          ⟨name, x.2, placed, resultRegister⟩ ∧
        a.Declared s.arena.scopes.size placed t.arena ∧
        FirstTaken params.length t.pool ∧ Does [] t.pool t.arena s t := by
  have hlt := hs.named.current_lt
  unfold openFunction
  -- no register is in use, so the parameters get the argument registers from the first on
  have hnone : FirstTaken 0 s.pool := fun x => by rw [hused]; exact Iff.rfl
  refine (placeParameters_ensures params 0 (by rw [Nat.zero_add]; exact hlen) hnone).bind
    fun placed t₁ ⟨hnames, hregs, htaken, h₁⟩ => ?_
  rw [List.drop_zero] at hregs
  rw [Nat.zero_add] at htaken
  refine Ensures.bind (R := fun id t => id = s.arena.scopes.size ∧
    Does [] t₁.pool (Arena.mk (s.arena.scopes.push (functionScope s.arena s.current name))) t₁ t) ?_
    fun id t₂ ⟨hid, h₂⟩ => ?_
  · unfold pushFunction
    rw [ensures_bind, ensures_look, h₁.arena]
    exact ⟨rfl, rfl, rfl, rfl, rfl, rfl, rfl, [], by simp, rfl⟩
  subst hid
  rw [ensures_bind, ensures_look]
  dsimp only
  rw [ensures_bind, ensures_look, h₂.arena]
  -- the label is made in the arena with the new scope, but only the scope around it is asked for its name
  have hlabel : functionLabel (Arena.mk (s.arena.scopes.push (functionScope s.arena s.current name))) s.current
      s.arena.scopes.size name = functionLabel s.arena s.current s.arena.scopes.size name := by
    unfold functionLabel
    rw [Arena.get_push_lt _ hlt]
  rw [hlabel]
  cases hdef : (Arena.mk (s.arena.scopes.push (functionScope s.arena s.current name))).defineFunction s.current
      ⟨name, functionLabel s.arena s.current s.arena.scopes.size name, placed, resultRegister⟩ with
  | error e => exact ofScope_blamesSource loc e
  | ok a =>
      have hdefined := Arena.defineFunction_defined 
        (by rw [Array.size_push]; exact Nat.lt_succ_of_lt hlt) hdef
      have hself : a.get s.arena.scopes.size = functionScope s.arena s.current name := by
        rw [hdefined.get_eq, Arena.get_push, if_pos rfl, if_neg (Nat.ne_of_gt hlt)]
      have hnamed := (hs.named.pushFunction rfl rfl rfl rfl rfl).define hdefined
        (by rw [hregs, ← hnames, List.length_map]) rfl
      have hstart : a.Declared s.arena.scopes.size [] a := by
        refine ⟨rfl, fun _ => rfl, rfl, ?_, rfl, rfl, ?_, ?_, hnamed⟩
        · rw [hself]; rfl
        · rw [hself]; rfl
        · unfold Arena.table; rw [hself]; exact congrArg Scope.slotNames hself
      refine (change_does (p := t₂.pool) (a := a) rfl rfl rfl rfl rfl rfl rfl).bind fun _ t₃ h₃ => ?_
      have hstart₃ : a.Declared s.arena.scopes.size [] t₃.arena := by rw [h₃.arena]; exact hstart
      refine (declareAll_ensures name hstart₃ (by rw [List.nil_append, hnames]; exact hnodup)).bind
        fun _ t₄ ⟨hdecl, h₄⟩ => ?_
      rw [h₃.pool, h₂.pool] at h₄
      rw [← h₄.pool] at htaken h₄
      exact ⟨placed, a, rfl, hnames, hregs, hdefined, hdecl, htaken, h₁.trans (h₂.trans (h₃.trans h₄))⟩

/-- **The body of a function is about to be generated.** The function is known in the scope around it; its
    own scope holds the parameters, which are in the argument registers and have the first slots. -/
structure Opened (name : String) (params : List String) (o : Opening) (f : Callee) (mid t : State) : Prop where
  ready : Ready [] t
  current : t.current = mid.arena.scopes.size
  frames : t.frames = o.frame :: mid.frames
  options : t.options = mid.options
  size_eq : t.arena.scopes.size = mid.arena.scopes.size + 1
  get_lt : ∀ {i}, i < mid.arena.scopes.size → t.arena.get i = { mid.arena.get i with
    functions := if i = mid.current then (mid.arena.get i).functions ++ [f] else (mid.arena.get i).functions }
  parent_eq : (t.arena.get t.current).parent = some mid.current
  root_eq : (t.arena.get t.current).root = t.current
  functions_eq : (t.arena.get t.current).functions = []
  labels_eq : (t.arena.get t.current).labels = 0
  table_eq : t.arena.table t.current = params
  callee_name : f.name = name
  callee_label : f.label = o.label
  callee_names : f.params.map (·.1) = params
  callee_params : f.params.map (·.2) = RegisterClass.argument.members.take params.length
  label_eq : o.label = functionLabel mid.arena mid.current mid.arena.scopes.size name
  holder : ∀ {k : Nat} {x}, params[k]? = some x → ∃ v r, RegisterClass.argument.members[k]? = some r ∧
    t.arena.resolve? t.current x = some v ∧ t.arena.activeRegister? v = some r
  printsNumbers : t.printsNumbers = mid.printsNumbers
  code_eq : t.code.toList = mid.code.toList ++ (functionHeader o.label ++ o.frame.prologue.map Line.instr)

theorem Opened.lines {name : String} {o : Opening} {f : Callee} (h : Opened name params o f mid t) :
    ∃ comments, (∀ l ∈ comments, l.isComment = true) ∧
      t.code.toList = mid.code.toList ++ comments ++ (functionHeader o.label ++ o.frame.prologue.map Line.instr) :=
  ⟨[], by simp, by rw [List.append_nil]; exact h.code_eq⟩

/-- A straight move without instructions adds comments only. -/
theorem Does.comments {p : Pool} {a : Arena} (h : Does [] p a s t) :
    ∃ new, t.code.toList = s.code.toList ++ new ∧ ∀ l ∈ new, l.isComment = true := by
  obtain ⟨new, hnew, hfilter⟩ := h.lines
  refine ⟨new, hnew, fun l hl => ?_⟩
  rw [List.map_nil, List.filter_eq_nil_iff] at hfilter
  simpa using hfilter l hl

/-- The state in which the body of a function starts. -/
theorem opened {name : String} {o : Opening} {placed : List (String × Register)} {a : Arena}
    (hmid : Ready [] mid) (hidle : Idle mid.arena)
    (hlabel : o.label = functionLabel mid.arena mid.current mid.arena.scopes.size name)
    (hnames : placed.map (·.1) = params)
    (hregs : placed.map (·.2) = RegisterClass.argument.members.take params.length)
    (hdefined : (Arena.mk (mid.arena.scopes.push (functionScope mid.arena mid.current name))).Defined a mid.current
      ⟨name, o.label, placed, resultRegister⟩)
    (hdecl : a.Declared mid.arena.scopes.size placed t.arena)
    (htaken : FirstTaken params.length t.pool) (hdoes : Does [] t.pool t.arena mid t)
    (hcode : t.code = mid.code)
    (hu : u = { t with current := mid.arena.scopes.size, frames := o.frame :: t.frames
                       code := (t.code.toList ++ (functionHeader o.label ++ o.frame.prologue.map Line.instr)).toArray }) :
    Opened name params o ⟨name, o.label, placed, resultRegister⟩ mid u := by
  have hlt := hmid.named.current_lt
  have hlen : placed.length = params.length := by rw [← hnames, List.length_map]
  have hidle' : Idle a := by
    intro v var hv
    unfold Arena.lookup? at hv
    rw [hdefined.get_eq] at hv
    exact hidle v var ((Arena.lookup?_push rfl v).symm.trans hv)
  have hself : a.get mid.arena.scopes.size = functionScope mid.arena mid.current name := by
    rw [hdefined.get_eq, Arena.get_push, if_pos rfl, if_neg (Nat.ne_of_gt hlt)]
  have htidy : Tidy [] t.pool t.arena mid.arena.scopes.size := by
    refine tidy_of_declared hdecl hidle' (by rw [hregs, hlen]) fun x => ?_
    rw [hregs]
    exact htaken x
  subst hu
  exact {
    ready := ⟨htidy, hdecl.named⟩
    current := rfl
    frames := by rw [← hdoes.frames]
    options := hdoes.options
    size_eq := by
      show t.arena.scopes.size = _
      rw [hdecl.size_eq, hdefined.size_eq, Array.size_push]
    get_lt := by
      intro i hi
      show t.arena.get i = _
      rw [hdecl.get_ne (Nat.ne_of_lt hi), hdefined.get_eq, Arena.get_push_lt _ hi]
    parent_eq := by
      show (t.arena.get mid.arena.scopes.size).parent = _
      rw [hdecl.parent_eq, hself]; rfl
    root_eq := hdecl.root_eq
    functions_eq := by
      show (t.arena.get mid.arena.scopes.size).functions = _
      rw [hdecl.functions_eq, hself]; rfl
    labels_eq := by
      show (t.arena.get mid.arena.scopes.size).labels = _
      rw [hdecl.labels_eq, hself]; rfl
    table_eq := by rw [← hnames]; exact hdecl.table_eq
    callee_name := rfl
    callee_label := rfl
    callee_names := hnames
    callee_params := hregs
    label_eq := hlabel
    holder := by
      -- the parameter is the variable with its number, and is in the register with its number
      intro k x hk
      rw [← hnames, List.getElem?_map, Option.map_eq_some_iff] at hk
      obtain ⟨e, he, rfl⟩ := hk
      obtain ⟨var, hvar, hname, hactive⟩ := declared_of_getElem? hdecl he
      refine ⟨⟨mid.arena.scopes.size, k⟩, e.2, ?_, ?_, ?_⟩
      · have hk := (List.getElem?_eq_some_iff.mp he).1
        have hmem : (placed.map (·.2))[k]? = some e.2 := by rw [List.getElem?_map, he]; rfl
        rw [hregs, List.getElem?_take_of_lt (by rw [← hlen]; exact hk)] at hmem
        exact hmem
      · rw [← hname]; exact hdecl.named.meaning hvar rfl
      · show t.arena.activeRegister? _ = _
        unfold Arena.activeRegister?; rw [hvar]; exact hactive
    printsNumbers := hdoes.printsNumbers
    code_eq := by rw [hcode] }

/-- **The start of a function**: the code around it pauses, and its body is about to be generated. Before
    control jumps over it, `I` is asked of a state with every variable in its slot. -/
theorem enterFunction_ensures (hs : Ready [] s) (name : String) (params : List String) (stmts : List Stmt)
    (loc : Position) (hI : ∀ p t, Inner p t → I p t)
    (hjoin : ∀ l t₁ t₂ u, Does [] s.pool s.arena s t₁ → Synchronised t₁ t₂ →
      Does [] t₂.pool (t₂.arena.nextLabel t₂.current "enddef").2 t₂ u → Ready [] u → I (.join l) u) :
    (enterFunction name params stmts loc).Ensures I s fun o t => ∃ mid f, Paused o.skip s mid ∧
      Opened name params o f mid t ∧ params.Nodup ∧ params.length ≤ maxParameters ∧
      o.frame.slots = countLocals params stmts fun x => (s.arena.resolve? s.current x).isSome := by
  unfold enterFunction
  rw [ensures_bind, ensures_look]
  refine (planFrame_ensures name params stmts loc).bind fun frame t₀ ⟨ht₀, hlen, hnodup, hslots⟩ => ?_
  subst ht₀
  -- the code around the function pauses with every variable in its slot
  refine (note_does _).bind fun _ t₁ h₁ => ?_
  have hr₁ := h₁.ready_of_eq hs
  refine ((synchronise_ensures hr₁).weaken hI).bind fun _ t₂ ⟨hspills, hnone⟩ => ?_
  have hr₂ := hspills.ready hr₁
  have hs₂ := (h₁.steady_of_frameless (by simp)).trans (hspills.steady hr₁)
  rw [← hs₂.current]
  have hsync : Synchronised t₁ t₂ := ⟨⟨_, hspills⟩, ⟨hr₂, hspills.steady hr₁⟩, hr₂.tidy.idle hnone⟩
  refine (skipDefinition_ensures hr₂ fun l u hu hr => hjoin l t₁ t₂ u h₁ hsync hu hr).bind
    fun skip mid ⟨hrm, hsm, hjumps, hpath⟩ => ?_
  have hidle : Idle mid.arena := by
    have hidle₂ := hr₂.tidy.idle hnone
    rcases hpath with ⟨_, _, rfl⟩ | ⟨label, _, hdoes⟩
    · exact hidle₂
    · intro v var hv
      rw [hdoes.arena, Arena.lookup?_nextLabel] at hv
      exact hidle₂ v var hv
  have hused := hrm.tidy.inUse_eq_nil hidle.activeRegister?_eq_none
  -- its scope is made, and its first lines are put down
  rw [← hsm.current]
  refine (openFunction_ensures hrm hused loc hlen hnodup).with_run.bind
    fun x t₃ ⟨hrun, placed, a, hx, hnames, hregs, hdefined, hdecl, htaken, hdoes⟩ => ?_
  have hcode := silent_openFunction mid.current name params loc _ _ _ hrun
  subst hx
  rw [emitInstrs_eq]
  refine Ensures.bind (R := fun _ t => t = _) rfl fun _ t₄ h₄ => (emitAll_ensures _).bind fun _ t₅ h₅ =>
    (emitAll_ensures _).bind fun _ t₆ h₆ => ?_
  have hpaused : Paused skip t₀ mid := by
    refine ⟨hrm, hidle, hs₂.trans hsm, hjumps, _, t₁, t₂, h₁, hspills, ?_⟩
    rw [← hs₂.frames, ← hs₂.current]
    exact hpath
  refine ⟨mid, _, hpaused, opened (o := ⟨frame, _, skip⟩) hrm hidle rfl hnames hregs hdefined hdecl htaken hdoes hcode ?_,
    hnodup, hlen, by rw [hsm.current, hs₂.current]; exact hslots⟩
  rw [h₆, h₅, h₄]
  simp

/-! ## The end of a function -/

theorem frameless_prologue (f : Frame) : ∀ i ∈ f.prologue, i.frameOffset? = none := by
  simp [Frame.prologue, Instr.frameOffset?]

/-- The lines of a function are code inside the function around it. -/
theorem segment_function {n k : Nat} {label : String} {frame : Frame} {comments : List Line} {start : State}
    (hstart : start.code.toList = mid.code.toList ++ comments ++
      (functionHeader label ++ frame.prologue.map Line.instr))
    (hcomments : ∀ l ∈ comments, l.isComment = true) (hbody : Segment k [] [] start t)
    (harena : u.arena = t.arena) (hcode : u.code = t.code.push (functionFooter label)) :
    Segment n [label] [] { mid with arena := start.arena } u := by
  obtain ⟨new, made, hnew, hnewBody, hperm, hnodup, hissued⟩ := hbody.lines
  have hnone : labelNames comments = [] := by
    rw [labelNames, List.filterMap_eq_nil_iff]
    exact fun l hl => label?_of_isComment (hcomments l hl)
  have hprologue : Body k (frame.prologue.map Line.instr) := by
    refine .of_forall fun l hl => ?_
    obtain ⟨i, hi, rfl⟩ := List.mem_map.mp hl
    exact within_of_frameOffset? (frameless_prologue frame i hi)
  have hlabels : labelNames (frame.prologue.map Line.instr) = [] := by
    rw [labelNames, List.filterMap_map, List.filterMap_eq_nil_iff]
    intro i _
    rfl
  refine ⟨by rw [harena]; exact hbody.size_le, by rw [harena]; exact hbody.labels_le,
    comments ++ (functionHeader label ++ (frame.prologue.map Line.instr ++ new) ++ [functionFooter label]), made,
    ?_, .function (.of_forall fun l hl => within_of_isComment (hcomments l hl)) (hprologue.append hnewBody), ?_, hnodup, ?_⟩
  · rw [hcode, Array.toList_push, hnew, hstart]
    simp only [List.append_assoc]
  · have hheader : labelNames (functionHeader label) = [label] := rfl
    have hfooter : labelNames [functionFooter label] = [] := rfl
    rw [labelNames_append, labelNames_append, labelNames_append, labelNames_append, hnone, hlabels, hheader, hfooter]
    simpa using hperm
  · intro x hx
    rw [harena]
    exact hissued x hx

/-- **The code around a function goes on** after its end. -/
structure Closed (o : Opening) (outer : ScopeId) (t u : State) : Prop where
  arena : u.arena = t.arena.releaseScope t.current
  current : u.current = outer
  frames : u.frames = t.frames.tail
  options : u.options = t.options
  printsNumbers : u.printsNumbers = t.printsNumbers
  lines : ∃ comments, (∀ l ∈ comments, l.isComment = true) ∧
    u.code.toList = t.code.toList ++ comments ++ functionFooter o.label :: o.skip.toList.map Line.label

theorem placeSkip_ensures (skip : Option String) (hI : ∀ l, skip = some l → I (.join l) s) :
    (placeSkip skip).Ensures I s fun _ t =>
      t = { s with code := (s.code.toList ++ skip.toList.map Line.label).toArray } := by
  cases skip with
  | none => simp [placeSkip]
  | some l =>
      have hcode : s.code.push (.label l) = (s.code.toList ++ [Line.label l]).toArray := Array.ext' (by simp)
      refine ⟨hI l rfl, ?_⟩
      show ({ s with code := s.code.push (.label l) } : State) = _
      rw [hcode]
      rfl

/-- The invariant holds behind the end of a function; where the code around it goes on, `I` is asked of the
    state in which the label is still to be placed. -/
theorem leaveFunction_ensures {outer : ScopeId} {o : Opening} (ht : Ready [] t) (name : String)
    (hidle : Idle (t.arena.releaseScope t.current)) (hnamed : (t.arena.releaseScope t.current).Named outer)
    (hI : ∀ p t, Inner p t → I p t)
    (hjoin : ∀ l u, o.skip = some l → Closed { o with skip := none } outer t u → Ready [] u → I (.join l) u) :
    (leaveFunction outer name o).Ensures I t fun _ u => Closed o outer t u ∧ Ready [] u := by
  unfold leaveFunction
  refine (releaseCurrent_ensures ht).bind fun _ t₁ ⟨hr₁, _, harena, q, h₁⟩ => ?_
  obtain ⟨comments, hcode, hcomments⟩ := h₁.comments
  -- only variables of the function were in registers, so all of the pool is free again
  have hused := hr₁.tidy.inUse_eq_nil (by rw [harena]; exact hidle.activeRegister?_eq_none)
  refine Ensures.bind (R := fun _ t => t = _) rfl fun _ t₂ h₂ => Ensures.bind (R := fun _ t => t = _) rfl
    fun _ t₃ h₃ => ?_
  have hready : Ready [] t₃ := by
    subst h₃ h₂
    refine ⟨?_, ?_⟩
    · show Tidy [] t₁.pool t₁.arena outer
      rw [harena]
      exact .of_idle hidle hused
    · show t₁.arena.Named outer
      rw [harena]
      exact hnamed
  have hclosed : Closed { o with skip := none } outer t t₃ := by
    subst h₃ h₂
    refine ⟨harena, rfl, congrArg List.tail h₁.frames, h₁.options, h₁.printsNumbers, comments, hcomments, ?_⟩
    simp [hcode]
  refine (placeSkip_ensures o.skip fun l hl => hjoin l t₃ hl hclosed hready).bind fun _ t₄ h₄ => ?_
  rw [ensures_bind, ensures_look]
  have hready' : Ready [] t₄ := by rw [h₄]; exact ⟨hready.tidy, hready.named⟩
  have hclosed' : Closed o outer t t₄ := by
    obtain ⟨comments, hcomments, hlines⟩ := hclosed.lines
    rw [h₄]
    exact ⟨hclosed.arena, hclosed.current, hclosed.frames, hclosed.options, hclosed.printsNumbers, comments,
      hcomments, by simp [hlines]⟩
  exact ⟨hI _ _ ⟨rfl, [], hready'.tidy, hready'.named⟩,
    ⟨hclosed'.arena, hclosed'.current, hclosed'.frames, hclosed'.options, hclosed'.printsNumbers, hclosed'.lines⟩,
    hready'.tidy, hready'.named⟩

/-- A function whose last statement does not return gives 0. -/
theorem returnZero_does (frame : Frame) :
    (returnZero frame).Ensures I s fun _ t =>
      Does (.li resultRegister 0 :: frame.epilogue) s.pool s.arena s t := by
  unfold returnZero
  refine (comment_does _).bind fun _ t₁ h₁ => (emitInstrs_does _).bind fun _ t₂ h₂ =>
    (emitInstrs_does _).mono fun _ t₃ h₃ => ?_
  rw [h₁.pool, h₁.arena] at h₂
  rw [h₂.pool, h₂.arena] at h₃
  exact h₁.trans (h₂.trans h₃)

section Whole

variable {name : String} {o : Opening} {f : Callee} {start : State}

theorem Opened.untouched {b : Arena} (h : Opened name params o f mid start)
    (hgrows : start.arena.Grows names fns start.current b) : mid.arena.Untouched b := by
  have hroot := h.root_eq
  rw [h.current] at hgrows hroot
  exact Arena.Grows.untouched h.size_eq h.get_lt hroot hgrows

/-- When a body is finished, only variables of the function's own scope are active. -/
theorem Opened.idle_release (h : Opened name params o f mid start) (hmid : Ready [] mid) (ht : Ready [] t)
    (hadv : Advances names fns named pending start t) : Idle (t.arena.releaseScope t.current) := by
  intro v var hv
  rw [Arena.lookup?_releaseScope] at hv
  obtain ⟨x, hx, rfl⟩ := Option.map_eq_some_iff.mp hv
  split
  · rfl
  · rename_i hne
    cases hact : x.active with
    | false => rfl
    | true =>
        obtain ⟨y, hy⟩ := ht.tidy.register hx hact
        have hplace := ht.tidy.place (Arena.activeRegister?_eq_some_iff.mpr ⟨x, hx, hact, hy⟩)
        have hcurrent : t.current = mid.arena.scopes.size := hadv.current.trans h.current
        have hself : (t.arena.get t.current).root = mid.arena.scopes.size := by
          rw [hadv.current, hadv.grows.root_eq h.ready.named.current_lt, h.root_eq, h.current]
        -- the scopes around the function belong to other roots
        have hlt : v.scope < mid.arena.scopes.size := by
          have hle := Arena.le_of_mem_chain hplace.1
          rw [hcurrent] at hle hne
          exact Nat.lt_of_le_of_ne hle hne
        have hroot := hplace.2
        rw [hself, (h.untouched hadv.grows).root_eq hlt] at hroot
        exact absurd hroot (Nat.ne_of_lt (hmid.named.wellFormed.root_lt _))

/-- The label of a function inside another one is new. -/
theorem Opened.segment_label {n : Nat} (h : Opened name params o f mid start) :
    Segment n [] (if mid.current = globalScope then [] else [o.label]) mid { mid with arena := start.arena } := by
  have hlabels : ∀ i, (mid.arena.get i).labels ≤ (start.arena.get i).labels := by
    intro i
    rcases Nat.lt_or_ge i mid.arena.scopes.size with hlt | hge
    · exact Nat.le_of_eq (by rw [h.get_lt hlt])
    · rw [Arena.get_of_size_le hge]; exact Nat.zero_le _
  refine ⟨by rw [h.size_eq]; exact Nat.le_succ _, hlabels, [], [], by simp, .nil, .refl _, ?_, ?_⟩
  · split <;> simp
  · intro l hl
    split at hl
    · exact absurd hl List.not_mem_nil
    · rename_i hne
      have hlabel : o.label = Arena.nestedLabel ((mid.arena.get mid.current).name ++ "_" ++ name) mid.arena.scopes.size := by
        rw [h.label_eq, functionLabel, if_neg hne]
        rfl
      rw [List.nil_append, List.mem_singleton, hlabel] at hl
      rw [hl]
      exact ⟨Or.inr ⟨_, _, rfl, by rw [h.size_eq]; exact Nat.lt_succ_self _⟩, Arena.not_issued_nestedLabel⟩

/-- The lines of a whole function, for the code around it. -/
theorem Opened.segment {n k : Nat} {outer : ScopeId} {t₁ : State} (h : Opened name params o f mid start)
    (hbody : Segment k [] [] start t₁) (hclosed : Closed o outer t₁ u) :
    Segment n (o.label :: o.skip.toList) (if mid.current = globalScope then [] else [o.label]) mid u := by
  obtain ⟨comments, hcomments, hstart⟩ := h.lines
  obtain ⟨comments', hcomments', hend⟩ := hclosed.lines
  -- the end of the body, the footer, and the label where the code around goes on
  have hrelease : Segment k [] [] t₁ { u with code := (t₁.code.toList ++ comments').toArray } := by
    refine segment_of_lines (Nat.le_of_eq ?_) (fun i => Nat.le_of_eq ?_) comments' rfl
      (fun l hl => within_of_isComment (hcomments' l hl)) ?_
    · rw [hclosed.arena, Arena.alike_releaseScope.size_eq]
    · rw [hclosed.arena, Arena.labels_releaseScope]
    · rw [labelNames, List.filterMap_eq_nil_iff]
      exact fun l hl => label?_of_isComment (hcomments' l hl)
  have hlines := segment_function (n := n) (k := k)
    (u := { u with code := (t₁.code.toList ++ comments').toArray.push (functionFooter o.label) })
    hstart hcomments (hbody.trans hrelease) rfl rfl
  have hskip := segment_labels (n := n)
    (s := { u with code := (t₁.code.toList ++ comments').toArray.push (functionFooter o.label) }) o.skip.toList
  have hu : u = { u with code := (((t₁.code.toList ++ comments').toArray.push (functionFooter o.label)).toList ++
      o.skip.toList.map Line.label).toArray } := by
    have hcode : u.code = (((t₁.code.toList ++ comments').toArray.push (functionFooter o.label)).toList ++
        o.skip.toList.map Line.label).toArray := Array.ext' (by simp [hend])
    exact congrArg (fun c => { u with code := c }) hcode
  rw [← hu] at hskip
  have hwhole := (h.segment_label.trans hlines).trans hskip
  simpa using hwhole

/-- **A whole function**: the code around it pauses, its body is generated, and the code around it goes on.
    For the scope around it only the function is new; its label comes from outside if the source chose it. -/
theorem Opened.completes {t₁ : State} (hpaused : Paused o.skip s mid) (h : Opened name params o f mid start)
    (hadv : Advances names fns [] [] start t) (hreturn : Steady [] t t₁)
    (hclosed : Closed o s.current t₁ u) (hu : Ready [] u) :
    Completes [] [f] (if s.current = globalScope then [name] else []) s u := by
  have hcurrent : mid.current = s.current := hpaused.steady.current
  have halike : t.arena.Alike u.arena := by
    rw [hclosed.arena]; exact hreturn.alike.trans Arena.alike_releaseScope
  have hinner : start.arena.Grows names fns start.current u.arena := by
    simpa using hadv.grows.trans (halike.grows _) h.ready.named.current_lt
  have huntouched := h.untouched hinner
  have hgrows : mid.arena.Grows [] [f] mid.current u.arena := by
    refine huntouched.grows hpaused.ready.named fun {i} hi => ?_
    rw [hinner.functions_eq (by rw [h.size_eq]; exact Nat.lt_succ_of_lt hi),
      if_neg (by rw [h.current]; exact Nat.ne_of_lt hi), List.append_nil, h.get_lt hi]
    by_cases hic : i = mid.current <;> simp [hic]
  have hslots : s.arena.slotCount s.current = u.arena.slotCount u.current := by
    rw [Arena.slotCount_eq, Arena.slotCount_eq, hclosed.current, ← hcurrent,
      huntouched.table_eq hpaused.ready.named, hpaused.steady.alike.table_eq]
  have hbody := hadv.segment.trans hreturn.segment
  have hseg := hpaused.steady.segment.trans (h.segment (n := s.arena.slotCount s.current) hbody hclosed)
  refine ⟨hu, hclosed.current, ?_, ?_, ?_, ?_⟩
  · rw [hclosed.frames, hreturn.frames, hadv.frames, h.frames, List.tail_cons, hpaused.steady.frames]
  · rw [hclosed.options, hreturn.options, hadv.options, h.options, hpaused.steady.options]
  · rw [hcurrent] at hgrows
    exact (hpaused.steady.alike.grows _).trans hgrows
      (hcurrent ▸ hpaused.steady.alike.size_eq ▸ hpaused.ready.named.current_lt)
  · have hlabels : ([o.label] ++ o.skip.toList).Perm (o.skip.toList ++ [o.label]) := List.perm_append_comm
    rw [← hslots]
    rw [hcurrent] at hseg
    -- at the top the source chose the label; elsewhere it was issued, and is settled like the one behind the function
    by_cases hglobal : s.current = globalScope
    · have hlabel : o.label = name := by rw [h.label_eq, functionLabel, if_pos (hcurrent.trans hglobal)]
      rw [if_pos hglobal] at hseg ⊢
      rw [← hlabel]
      exact (hseg.perm hlabels (.refl _)).settleAll o.skip.toList
    · rw [if_neg hglobal] at hseg ⊢
      exact ((hseg.perm hlabels (.refl _)).settleAll o.skip.toList).settle

/-- After its body a function can be left: only its own variables may be active, and the names of the scope
    around it are as they were. -/
theorem Opened.leave_ensures {t₁ : State} (hpaused : Paused o.skip s mid) (h : Opened name params o f mid start)
    (hbody : Completes names fns [] start t) (hreturn : Settled t t₁) (hI : ∀ p t, Inner p t → I p t)
    (hjoin : ∀ l u, o.skip = some l → Closed { o with skip := none } s.current t₁ u → Ready [] u → I (.join l) u) :
    (leaveFunction s.current name o).Ensures I t₁ fun _ u => Closed o s.current t₁ u ∧ Ready [] u := by
  have hadv := hbody.advances.steady hreturn.steady h.ready.named.current_lt
  have halike : t₁.arena.Alike (t₁.arena.releaseScope t₁.current) := Arena.alike_releaseScope
  have huntouched := h.untouched (b := t₁.arena.releaseScope t₁.current)
    (by simpa using hadv.grows.trans (halike.grows _) h.ready.named.current_lt)
  have hnamed := huntouched.named hpaused.ready.named (hreturn.ready.named.of_alike halike)
  rw [hpaused.steady.current] at hnamed
  exact leaveFunction_ensures hreturn.ready name (h.idle_release hpaused.ready hreturn.ready hadv) hnamed
    hI hjoin

theorem Opened.current_ne_globalScope (hpaused : Paused o.skip s mid) (h : Opened name params o f mid start) :
    start.current ≠ globalScope := by
  rw [h.current]
  exact Nat.ne_of_gt hpaused.ready.named.wellFormed.inhabited

end Whole

/-- The code that returns 0 touches no slot and no variable. -/
theorem Does.settled_return {frame : Frame} (h : Does (.li resultRegister 0 :: frame.epilogue) s.pool s.arena s t)
    (hs : Ready [] s) : Settled s t := by
  refine ⟨h.ready_of_eq hs, h.steady_of_frameless fun i hi => ?_⟩
  rcases List.mem_cons.mp hi with rfl | hi
  · rfl
  · exact frameless_epilogue frame i hi

/-! ## The stations of a function -/

/-- **The stations of a function's code**: around it the code pauses at `mid`; its body is generated from
    `start` to `finish`; if control can reach the end of the body, code to return 0 follows, up to `last`;
    and the code around it goes on at `t`. -/
structure Stations (name : String) (params : List String) (stmts : List Stmt) (body : Lower Unit) (loc : Position)
    (o : Opening) (f : Callee) (s mid start finish last t : State) : Prop where
  enter : (enterFunction name params stmts loc).run s = .ok o start
  run_body : body.run start = .ok () finish
  paused : Paused o.skip s mid
  opened : Opened name params o f mid start
  params_nodup : params.Nodup
  params_le : params.length ≤ maxParameters
  slots_eq : o.frame.slots = countLocals params stmts fun x => (s.arena.resolve? s.current x).isSome
  returns : (stmts.getLast?.any Stmt.isReturn = true ∧ last = finish) ∨
    Does (.li resultRegister 0 :: o.frame.epilogue) finish.pool finish.arena finish last
  closed : Closed o s.current last t
  idle : Idle t.arena

/-- **The code of a function** goes through its stations; for the scope around it only the function is new. -/
theorem lowerFunction_ensures {body : Lower Unit} (hs : Ready [] s) (name : String) (params : List String)
    (stmts : List Stmt) (loc : Position) (hbody : BodyContract names body) :
    (lowerFunction name params stmts body loc).Ensures Sound s fun _ t => ∃ o f mid start finish last,
      Stations name params stmts body loc o f s mid start finish last t ∧
      Completes [] [f] (if s.current = globalScope then [name] else []) s t := by
  unfold lowerFunction
  rw [ensures_bind, ensures_look]
  refine (enterFunction_ensures hs name params stmts loc (fun _ _ => Inner.sound) fun _ _ _ _ _ _ _ hu =>
    hu.sound_join).with_run.bind fun o start henter => ?_
  obtain ⟨hrun₀, mid, f, hpaused, hopened, hnodup, hlen, hslots⟩ := henter
  have hne := hopened.current_ne_globalScope hpaused
  refine (hbody start hopened.ready hne).with_run.bind fun _ finish hfinish => ?_
  obtain ⟨hrun₁, fns, h₁⟩ := hfinish
  -- both ends of the body lead to the end of the function
  have hleave : ∀ last, Settled finish last →
      ((stmts.getLast?.any Stmt.isReturn = true ∧ last = finish) ∨
        Does (.li resultRegister 0 :: o.frame.epilogue) finish.pool finish.arena finish last) →
      (leaveFunction s.current name o).Ensures Sound last fun _ t => ∃ o f mid start finish last,
        Stations name params stmts body loc o f s mid start finish last t ∧
        Completes [] [f] (if s.current = globalScope then [name] else []) s t := by
    intro last h₂ hreturns
    refine (hopened.leave_ensures hpaused h₁ h₂ (fun _ _ => Inner.sound) fun _ _ _ _ hu => hu.sound_join).mono
      fun _ t hclosed => ?_
    have hidle := hopened.idle_release hpaused.ready h₂.ready
      (h₁.advances.steady h₂.steady hopened.ready.named.current_lt)
    refine ⟨o, f, mid, start, finish, last, ⟨hrun₀, hrun₁, hpaused, hopened, hnodup, hlen, hslots, hreturns,
      hclosed.1, ?_⟩, hopened.completes hpaused h₁.advances h₂.steady hclosed.1 hclosed.2⟩
    rw [hclosed.1.arena]
    exact hidle
  dsimp only
  split
  · rename_i hlast
    exact hleave finish (.refl h₁.ready) (Or.inl ⟨hlast, rfl⟩)
  · refine (returnZero_does o.frame).bind fun _ last h₂ => ?_
    exact hleave last (h₂.settled_return h₁.ready) (Or.inr h₂)

end Offside.Lower
