import Offside.Proofs.Blame
import Offside.Proofs.Initialised
import Offside.Proofs.Roles

/-!
# `Proofs.Immediates` — which immediates fit their field

An immediate has twelve bits. Frames are checked to fit them, so the immediates of a function always do, and a
definition whose frame is too large is refused. At module level there is no frame to check: slots are handed
out there as in a function, and from the 255th on their offsets are out of reach
(`immediates_fit_in_functions`).

Such modules exist: assignments of constants are always accepted (`run_constants`), and when there are more
names than registers, some of them go to their slots (`constants_out_of_reach`).
-/

namespace Offside

open Machine

namespace Machine

/-- The immediate of an instruction that has one of twelve bits. -/
def Instr.immediate? : Instr → Option Int
  | .addi _ _ imm => some imm
  | .ld _ offset _ => some offset
  | .sd _ offset _ => some offset
  | _ => none

/-- **The instruction can be encoded**: its immediate, if it has one, is a number of twelve bits with sign. -/
def Instr.Encodable (i : Instr) : Prop := ∀ imm, i.immediate? = some imm → -2048 ≤ imm ∧ imm ≤ 2047

theorem Instr.encodable_of_none {i : Instr} (h : i.immediate? = none) : i.Encodable := by
  intro imm himm
  rw [h] at himm
  exact absurd himm (by simp)

theorem Instr.encodable_of_some {i : Instr} {n : Int} (h : i.immediate? = some n) (hge : -2048 ≤ n) (hle : n ≤ 2047) :
    i.Encodable := by
  intro imm himm
  rw [h] at himm
  obtain rfl := Option.some.inj himm
  exact ⟨hge, hle⟩

/-- The first slots are within reach, and no others. -/
theorem slotOffset_reach (k : Nat) : -2048 ≤ Frame.slotOffset k ↔ k < 254 := by
  unfold Frame.slotOffset frameHeader slotSize
  omega

theorem slotOffset_le (k : Nat) : Frame.slotOffset k ≤ 2047 := by
  unfold Frame.slotOffset
  omega

theorem Frame.slots_lt (f : Frame) : f.slots < 254 := by
  have hfits := f.fits
  unfold frameBytes frameHeader slotSize maxFrame at hfits
  omega

theorem Frame.size_bounds (f : Frame) : 16 ≤ f.size ∧ f.size ≤ 2047 := by
  have hfits := f.fits
  unfold frameBytes frameHeader slotSize maxFrame at hfits
  unfold Frame.size frameBytes frameHeader slotSize
  omega

end Machine

namespace Lower

/-! ## Idioms -/

/-- **An access to a slot out of reach**, of so many slots. -/
def FarSlot (slots : Nat) (i : Instr) : Prop :=
  ∃ r k, (i = storeSlot r k ∨ i = loadSlot r k) ∧ 254 ≤ k ∧ k < slots

section Idioms

variable {frame? : Option Frame} {home : Register → Prop} {n : Nat} {d : Idiom} {i : Instr}

theorem encodable_pop {r : Register} (hi : i ∈ pop r) : i.Encodable := by
  rcases List.mem_pair.mp hi with rfl | rfl
  · exact Instr.encodable_of_some rfl (by decide) (by decide)
  · exact Instr.encodable_of_some rfl (by decide) (by decide)

theorem encodable_push {r : Register} (hi : i ∈ push r) : i.Encodable := by
  rcases List.mem_pair.mp hi with rfl | rfl
  · exact Instr.encodable_of_some rfl (by decide) (by decide)
  · exact Instr.encodable_of_some rfl (by decide) (by decide)

theorem encodable_prologue {f : Frame} (hi : i ∈ f.prologue) : i.Encodable := by
  have hsize := f.size_bounds
  simp only [Frame.prologue, List.mem_cons, List.not_mem_nil, or_false] at hi
  rcases hi with rfl | rfl | rfl | rfl
  all_goals exact Instr.encodable_of_some rfl (by omega) (by omega)

theorem encodable_epilogue {f : Frame} (hi : i ∈ f.epilogue) : i.Encodable := by
  have hsize := f.size_bounds
  simp only [Frame.epilogue, List.mem_cons, List.not_mem_nil, or_false] at hi
  rcases hi with rfl | rfl | rfl | rfl
  · exact Instr.encodable_of_some rfl (by omega) (by omega)
  · exact Instr.encodable_of_some rfl (by omega) (by omega)
  · exact Instr.encodable_of_some rfl (by omega) (by omega)
  · exact Instr.encodable_of_none rfl

theorem Lone.encodable (h : Lone n i) : i.Encodable ∨ FarSlot n i := by
  -- a slot is near or far
  have hslot : ∀ {j : Instr} {k : Nat}, j.immediate? = some (Frame.slotOffset k) → k < 254 → j.Encodable :=
    fun hj hk => Instr.encodable_of_some hj ((slotOffset_reach _).mpr hk) (slotOffset_le _)
  cases h with
  | @store r k hk =>
      by_cases hnear : k < 254
      · exact Or.inl (hslot rfl hnear)
      · exact Or.inr ⟨r, k, Or.inl rfl, by omega, hk⟩
  | @load r k hr hk =>
      by_cases hnear : k < 254
      · exact Or.inl (hslot rfl hnear)
      · exact Or.inr ⟨r, k, Or.inr rfl, by omega, hk⟩
  | li hr => exact Or.inl (Instr.encodable_of_none rfl)
  | alu hr => exact Or.inl (Instr.encodable_of_none rfl)
  | neg hr => exact Or.inl (Instr.encodable_of_none rfl)
  | not hr => exact Or.inl (Instr.encodable_of_none rfl)
  | branch => exact Or.inl (Instr.encodable_of_none rfl)
  | beqz => exact Or.inl (Instr.encodable_of_none rfl)
  | jump => exact Or.inl (Instr.encodable_of_none rfl)

/-- **The immediates of an idiom** fit, those of far slots apart. -/
theorem Idiom.Proper.encodable (hd : d.Proper frame? n home) (hi : i ∈ d.instrs) : i.Encodable ∨ FarSlot n i := by
  cases d with
  | opens f => exact hd.elim
  | closes f => exact Or.inl (encodable_epilogue hi)
  | push r => exact Or.inl (encodable_push hi)
  | pop r => exact Or.inl (encodable_pop hi)
  | zero =>
      obtain rfl := List.mem_singleton.mp hi
      exact Or.inl (Instr.encodable_of_none rfl)
  | call label count =>
      rcases List.mem_append.mp hi with hpop | hcall
      · obtain ⟨r, _, hpop⟩ := List.mem_flatMap.mp hpop
        exact Or.inl (encodable_pop hpop)
      · obtain rfl := List.mem_singleton.mp hcall
        exact Or.inl (Instr.encodable_of_none rfl)
  | print =>
      rcases List.mem_append.mp hi with hpop | hcall
      · exact Or.inl (encodable_pop hpop)
      · rcases List.mem_pair.mp hcall with rfl | rfl
        · exact Or.inl (Instr.encodable_of_none rfl)
        · exact Or.inl (Instr.encodable_of_none rfl)
  | lone j =>
      obtain rfl := List.mem_singleton.mp hi
      exact Lone.encodable hd

end Idioms

/-! ## Texts -/

section Texts

variable {I : Milestone → State → Prop} {D : List Stmt} {frame? : Option Frame} {params : List String} {n : Nat}
  {front : List Line} {ps : List Part} {i : Instr}

/-- No slot of a frame is out of reach. -/
theorem not_farSlot (frame : Frame) : ¬FarSlot frame.slots i := by
  rintro ⟨_, k, _, hge, hlt⟩
  have := frame.slots_lt
  omega

/-- **The immediates of a text** fit, far slots of its own apart: the frame of a function inside has none. -/
theorem Composed.encodable (h : Composed I D frame? params n front ps) :
    .instr i ∈ linesOf ps → i.Encodable ∨ (.line (.instr i) ∈ ps ∧ FarSlot n i) := by
  -- an instruction is one of the text so far, or of what is put behind it
  have hcases : ∀ {qs rs : List Part} {m : Nat}, .instr i ∈ linesOf (qs ++ rs) →
      (.instr i ∈ linesOf qs → i.Encodable ∨ (.line (.instr i) ∈ qs ∧ FarSlot m i)) →
      (.instr i ∈ linesOf rs → i.Encodable ∨ (.line (.instr i) ∈ rs ∧ FarSlot m i)) →
      i.Encodable ∨ (.line (.instr i) ∈ qs ++ rs ∧ FarSlot m i) := by
    intro qs rs m hi hqs hrs
    rw [linesOf_append] at hi
    rcases List.mem_append.mp hi with hi | hi
    · exact (hqs hi).imp_right (And.imp_left (List.mem_append_left rs))
    · exact (hrs hi).imp_right (And.imp_left (List.mem_append_right qs))
  induction h with
  | nil => exact fun hi => absurd hi List.not_mem_nil
  | label _ x ih => exact fun hi => hcases hi ih fun hnew => absurd hnew (by simp [linesOf, Part.lines])
  | comment _ text ih => exact fun hi => hcases hi ih fun hnew => absurd hnew (by simp [linesOf, Part.lines])
  | idiom _ d new hnew hd ih =>
      refine fun hi => hcases hi ih fun hmem => ?_
      rw [linesOf_ofLines] at hmem
      have hinstr : Line.instr i ∈ d.instrs.map Line.instr := by
        rw [← hnew]
        exact List.mem_filter.mpr ⟨hmem, rfl⟩
      exact (hd.encodable (by simpa using hinstr)).imp_right fun hfar => ⟨List.mem_map_of_mem hmem, hfar⟩
  | @function _ _ _ _ _ _ _ _ body _ label frame _ hdef hbody ih ihbody =>
      refine fun hi => hcases hi ih fun hmem => Or.inl ?_
      have hinside : i ∈ frame.prologue ∨ .instr i ∈ linesOf body := by
        simpa [linesOf, Part.lines, functionHeader, functionFooter, linesOf_append, linesOf_ofInstrs] using hmem
      rcases hinside with hprologue | hinner
      · exact encodable_prologue hprologue
      · exact (ihbody hinner).resolve_right fun hfar => not_farSlot frame hfar.2

/-- **The immediates of a function fit.** -/
theorem Founded.encodable {text : List Line} {r : Region} {st : Stmt} {frame : Frame}
    (h : Founded I text r st frame params) (hi : .instr i ∈ linesOf r.body) : i.Encodable := by
  obtain ⟨D, body, hbody, hcomposed⟩ := h.composed
  rw [hbody, linesOf_append, linesOf_ofInstrs, List.mem_append] at hi
  rcases hi with hprologue | hinner
  · exact encodable_prologue (by simpa using hprologue)
  · exact (hcomposed.encodable hinner).resolve_right fun hfar => not_farSlot frame hfar.2

/-- The directives of a text belong to the functions in it. -/
theorem Composed.line_ne (h : Composed I D frame? params n front ps) {l : Line} (hl : .line l ∈ ps)
    (x : Directive) : l ≠ .directive x := by
  induction h with
  | nil => exact absurd hl List.not_mem_nil
  | label _ y ih =>
      rcases List.mem_append.mp hl with hl | hl
      · exact ih hl
      · obtain rfl := Part.line.inj (List.mem_singleton.mp hl)
        simp
  | comment _ text ih =>
      rcases List.mem_append.mp hl with hl | hl
      · exact ih hl
      · obtain rfl := Part.line.inj (List.mem_singleton.mp hl)
        simp
  | idiom _ d new hnew _ ih =>
      rcases List.mem_append.mp hl with hl | hl
      · exact ih hl
      · rintro rfl
        have hmem : Line.directive x ∈ d.instrs.map Line.instr := by
          rw [← hnew]
          exact List.mem_filter.mpr ⟨by simpa [ofLines] using hl, rfl⟩
        simp at hmem
  | function _ _ _ ih _ =>
      rcases List.mem_append.mp hl with hl | hl
      · exact ih hl
      · exact absurd (List.mem_singleton.mp hl) (by simp)

end Texts

/-! ## Refusal -/

theorem duplicate?_of_nodup {seen l : List String} (hnodup : l.Nodup) (hseen : ∀ x ∈ l, x ∉ seen) :
    duplicate? seen l = none := by
  induction l generalizing seen with
  | nil => rfl
  | cons x rest ih =>
      obtain ⟨hx, hrest⟩ := List.nodup_cons.mp hnodup
      have hnew : seen.contains x = false := by simpa using hseen x List.mem_cons_self
      rw [duplicate?, hnew, if_neg Bool.false_ne_true]
      refine ih hrest fun y hy hmem => ?_
      rcases List.mem_cons.mp hmem with rfl | hmem
      · exact hx hy
      · exact hseen y (List.mem_cons_of_mem x hy) hmem

/-- **A frame that is too large is refused**, before any code is put down. -/
theorem planFrame_refuses {params : List String} {body : List Stmt} {s : State} (name : String) (loc : Position)
    (hnodup : params.Nodup)
    (hlarge : maxFrame < frameBytes (countLocals params body fun x => (s.arena.resolve? s.current x).isSome)) :
    ∃ e, (planFrame name params body loc).run s = .error (.unsupported (.frame name e) loc) s ∧
      (params.length ≤ maxParameters → e = .frameTooLarge
        (frameBytes (countLocals params body fun x => (s.arena.resolve? s.current x).isSome))) := by
  unfold planFrame
  dsimp only
  by_cases hparams : params.length ≤ maxParameters
  · have hcheck : checkParameters params.length = .ok () := if_pos hparams
    have hframe : Frame.ofSlots (countLocals params body fun x => (s.arena.resolve? s.current x).isSome) =
        .error (.frameTooLarge _) := dif_neg (Nat.not_le.mpr hlarge)
    refine ⟨_, ?_, fun _ => rfl⟩
    rw [hcheck, duplicate?_of_nodup hnodup fun _ _ => List.not_mem_nil]
    show (look >>= _).run s = _
    rw [run_look_bind, hframe]
    rfl
  · have hcheck : checkParameters params.length = .error (.tooManyParameters params.length) := if_neg hparams
    refine ⟨.tooManyParameters params.length, ?_, fun h => absurd h hparams⟩
    rw [hcheck]
    rfl

theorem lowerStmt_refuses {span : Span} {name : String} {params : List String} {stmts : List Stmt} {s : State}
    {e : Fault} (h : (planFrame name params stmts span.start).run s = .error e s) :
    (lowerStmt (.funcDef span name params stmts)).run s = .error e s := by
  have henter : (enterFunction name params stmts span.start).run s = .error e s := by
    show (planFrame name params stmts span.start >>= _).run s = .error e s
    exact run_bind_error h
  rw [lowerStmt]
  show (enterFunction name params stmts span.start >>= _).run s = .error e s
  exact run_bind_error henter

/-- **Immediates fit everywhere but in far slots of a module.** In an accepted module every `addi`, `ld` and
    `sd` of a function has an immediate of twelve bits, and so has every other one, with one exception: an
    instruction of the module itself, outside its functions, that reaches the slot of one of its names from the
    255th on. A definition whose frame would be too large for immediates is refused as an unsupported construct,
    wherever it stands. -/
theorem immediates_fit_in_functions (o : Options) (m : Module) :
    (∀ l, generate o m = .ok l → ∃ forest, l.code = [.directive .text] ++ linesOf forest ∧
      (∀ l, .line l ∈ forest → ∀ x, l ≠ .directive x) ∧
      (∀ r ∈ regionsOf 1 forest, ∀ i, .instr i ∈ linesOf r.body → i.Encodable) ∧
      ∀ i, .instr i ∈ l.code → i.Encodable ∨
        (.line (.instr i) ∈ forest ∧ FarSlot (boundNames m.body).eraseDups.length i)) ∧
    ∀ (span : Span) (name : String) (params : List String) (stmts : List Stmt) (s : State), params.Nodup →
      maxFrame < frameBytes (countLocals params stmts fun x => (s.arena.resolve? s.current x).isSome) →
      ∃ e, (lowerStmt (.funcDef span name params stmts)).run s = .error (.unsupported (.frame name e) span.start) s ∧
        (params.length ≤ maxParameters → e = .frameTooLarge
          (frameBytes (countLocals params stmts fun x => (s.arena.resolve? s.current x).isSome))) := by
  refine ⟨fun l hl => ?_, fun span name params stmts s hnodup hlarge => ?_⟩
  · obtain ⟨t, hrun, rfl⟩ := run_of_generate hl
    obtain ⟨forest, hforest, hcomposed⟩ := lowerModule_composed hrun
    have hcode : t.listing.code = [.directive .text] ++ linesOf forest := hforest
    have hfunctions : List.Forall₂ (fun r _ => (∀ i, .instr i ∈ linesOf r.body → i.Encodable) ∧ True)
        (regionsOf 1 forest) (functionsOf m.body) :=
      hcomposed.founded.imp fun r st ⟨frame, params, hfounded⟩ => ⟨fun i hi => hfounded.encodable hi, trivial⟩
    refine ⟨forest, hcode, fun l hl => hcomposed.line_ne hl, ((List.forall₂_and_left _ _).mp hfunctions).1,
      fun i hi => hcomposed.encodable ?_⟩
    rw [hcode] at hi
    simpa using hi
  · obtain ⟨e, hrun, he⟩ := planFrame_refuses name span.start hnodup hlarge
    exact ⟨e, lowerStmt_refuses hrun, he⟩

/-! ## Modules of constants -/

/-- Where no place of the source can be blamed, only faults of the compiler are left. -/
theorem piecewise_spares : Piecewise (FailsOnly (¬·.BlamesSource)) (fun _ => False) False := by
  refine piecewise_failsOnly (fun e he => ?_) (fun _ _ _ _ h => h.elim) fun _ _ h => h.elim
  cases e with
  | registersExhausted _ => exact id
  | argumentBusy _ => exact id
  | _ => cases he

/-- A script that keeps a contract and cannot blame the source comes to its end. -/
theorem FailsOnly.exists_run {α : Type} {x : Lower α} {s : State} {I : Milestone → State → Prop}
    {Q : α → State → Prop} (h : x.FailsOnly (¬·.BlamesSource)) (hx : x.Ensures I s Q) : ∃ a t, x.run s = .ok a t := by
  induction x generalizing s with
  | done a => exact ⟨a, s, rfl⟩
  | fail e => exact absurd hx h
  | act change next ih => exact ih _ (h _) hx
  | pass p next ih => exact ih h hx.2

/-- The assignment of 0 to a name. -/
def clearStmt (x : String) : Stmt := .assign default [.name default x .store] (.const default (.int 0))

/-- A module that sets names to 0, one after the other. -/
def clearModule (xs : List String) : Module := ⟨xs.map clearStmt, default⟩

section Constants

variable {s t : State} {xs : List String} {x : String}

/-- At module level every name can be bound: no variable of another frame is in sight. -/
theorem run_defineLocal (hs : Ready [] s) (hglobal : s.current = globalScope) (x : String) (loc : Position) :
    ∃ v t, (defineLocal x loc).run s = .ok v t := by
  obtain ⟨v, t, hrun⟩ := (piecewise_spares.define s.current x).exists_run (I := fun _ _ => True) (define_ensures hs x)
  have hroot : (t.arena.get v.scope).root = (t.arena.get t.current).root := by
    rcases (define_ensures (I := fun _ _ => True) hs x).run_ok hrun with ⟨hv, rfl⟩ | hbound
    · obtain ⟨hchain, _⟩ := Arena.resolve?_some hv
      rw [hglobal, ← Arena.chain_head_tail] at hchain
      rcases List.mem_cons.mp hchain with hscope | htail
      · rw [hscope, hglobal]
      · exact absurd (Arena.lt_of_mem_chain_tail htail) (Nat.not_lt_zero _)
    · obtain ⟨var, hvar, _⟩ := hbound.isLocal
      exact hvar.2.2
  have hcheck : (checkFrame v loc).run t = .ok () t := by
    show (if (t.arena.get v.scope).root ≠ (t.arena.get t.current).root then _ else _ : Lower Unit).run t = _
    rw [if_neg (not_not_intro hroot)]
    rfl
  refine ⟨v, t, ?_⟩
  show (define s.current x >>= fun v => checkFrame v loc >>= fun _ => pure v).run s = .ok v t
  exact run_bind_ok.mpr ⟨v, t, hrun, run_bind_ok.mpr ⟨(), t, hcheck, rfl⟩⟩

/-- **An assignment of a constant is accepted** at module level. -/
theorem run_clearStmt (hs : Ready [] s) (hglobal : s.current = globalScope) (x : String) :
    ∃ t, (lowerStmt (clearStmt x)).run s = .ok () t := by
  obtain ⟨v, t₁, hdefine⟩ := run_defineLocal hs hglobal x (default : Span).start
  have hbound := (defineLocal_ensures (I := Inner) hs x _).run_ok hdefine
  obtain ⟨var, hvar, _⟩ := hbound.isLocal
  have hvalue := lowerExpr_pushes (.const default (.int 0)) hbound.completes.ready
  have hspares : (lowerExpr (.const default (.int 0))).FailsOnly (¬·.BlamesSource) := by
    rw [lowerExpr]
    exact piecewise_spares.bind (piecewise_spares.pushLiteral 0) fun _ => trivial
  obtain ⟨_, t₂, hpush⟩ := hspares.exists_run hvalue
  have hsettled := (hvalue.run_ok hpush).settled
  obtain ⟨var', hvar', _⟩ := hvar.of_alike hsettled.steady.alike
  rw [← hsettled.steady.current] at hvar'
  obtain ⟨_, t₃, hstore⟩ := (piecewise_spares.popVariable v).exists_run (popVariable_ensures hsettled.ready hvar')
  refine ⟨t₃, ?_⟩
  rw [clearStmt, lowerStmt]
  show (defineLocal x _ >>= fun v => lowerExpr _ >>= fun _ => popVariable v).run s = .ok () t₃
  exact run_bind_ok.mpr ⟨v, t₁, hdefine, run_bind_ok.mpr ⟨(), t₂, hpush, hstore⟩⟩

theorem run_constants (hs : Ready [] s) (hglobal : s.current = globalScope) (xs : List String) :
    ∃ t, (lowerBlock (xs.map clearStmt)).run s = .ok () t := by
  induction xs generalizing s with
  | nil => exact ⟨s, rfl⟩
  | cons x rest ih =>
      obtain ⟨t, hst⟩ := run_clearStmt hs hglobal x
      obtain ⟨_, _, hcompletes⟩ := (lowerStmt_ensures (clearStmt x) hs).run_ok hst
      obtain ⟨u, hrest⟩ := ih hcompletes.ready (hcompletes.advances.current.trans hglobal)
      refine ⟨u, ?_⟩
      rw [List.map_cons, lowerBlock]
      exact run_bind_ok.mpr ⟨(), s, rfl, run_bind_ok.mpr ⟨(), t, hst, hrest⟩⟩

theorem boundNames_clear (xs : List String) : boundNames (xs.map clearStmt) = xs := by
  induction xs with
  | nil => rfl
  | cons x rest ih => rw [List.map_cons, boundNames, ih]; rfl

theorem start_resolve? (o : Options) (x : String) :
    (State.start o).arena.resolve? (State.start o).current x = none := by
  cases hv : (State.start o).arena.resolve? (State.start o).current x with
  | none => rfl
  | some v =>
      obtain ⟨_, var, hvar, _⟩ := Arena.resolve?_some hv
      exact absurd ((initial_lookup? v).symm.trans hvar) (by simp)

theorem countLocals_clear (hnodup : xs.Nodup) {known : String → Bool} (hknown : ∀ x, known x = false) :
    countLocals [] (xs.map clearStmt) known = xs.length := by
  have hfresh : (boundNames (xs.map clearStmt)).filter (fun name => !([] : List String).contains name && !known name) =
      xs := by
    rw [boundNames_clear, List.filter_eq_self]
    simp [hknown]
  unfold countLocals
  rw [hfresh, List.length_nil, Nat.zero_add]
  exact List.Perm.length_eq ((List.perm_ext_iff_of_nodup (nodup_eraseDups xs) hnodup).mpr fun _ => List.mem_eraseDups)

/-- **There are fewer registers than names**: among names in different registers there are at most fourteen. -/
theorem exists_holder_none {held : List Register} (hs : Ready held s) (hnodup : xs.Nodup) (hlength : 14 < xs.length) :
    ∃ x ∈ xs, s.holder x = none := by
  by_contra hall
  have hheld : ∀ x ∈ xs, ∃ r, s.holder x = some r := fun x hx =>
    Option.ne_none_iff_exists'.mp fun hnone => hall ⟨x, hx, hnone⟩
  let regs := xs.map fun x => (s.holder x).getD .zero
  have hregs : regs.Nodup := by
    refine hnodup.map_on fun x hx y hy hxy => ?_
    obtain ⟨r, hr⟩ := hheld x hx
    obtain ⟨r', hr'⟩ := hheld y hy
    simp only [hr, hr', Option.getD_some] at hxy
    exact hs.holder_inj hr (hxy ▸ hr')
  have hsub : regs ⊆ RegisterClass.temporary.members ++ RegisterClass.argument.members := by
    intro r hr
    obtain ⟨x, hx, rfl⟩ := List.mem_map.mp hr
    obtain ⟨r, hr⟩ := hheld x hx
    have hclobbered := hs.clobbered_of_holder hr
    rw [hr, Option.getD_some, List.mem_append, RegisterClass.mem_members_iff, RegisterClass.mem_members_iff]
    simpa [Register.isCallerClobbered] using hclobbered
  have hle := (hregs.subperm hsub).length_le
  have hfourteen : (RegisterClass.temporary.members ++ RegisterClass.argument.members).length = 14 := by decide
  simp only [regs, List.length_map] at hle
  omega

/-- **Slots out of reach are in use**: a module with 269 names is accepted, and some of its instructions have
    immediates that do not fit. -/
theorem constants_out_of_reach (o : Options) (hnodup : xs.Nodup) (hlength : 268 < xs.length) :
    ∃ l i, generate o (clearModule xs) = .ok l ∧ .instr i ∈ l.code ∧ ¬i.Encodable := by
  obtain ⟨t, hrun⟩ := run_constants (ready_start o) rfl xs
  have hlower : (lowerModule (clearModule xs)).run (.initial o) = .ok () t := hrun
  obtain ⟨_, _, hcompletes⟩ := (lowerModule_ensures o (clearModule xs)).run_ok hlower
  have hready := hcompletes.ready
  -- the names of the module are those of its frame
  have htable : (t.arena.table t.current).length = xs.length := by
    refine List.Perm.length_eq ((List.perm_ext_iff_of_nodup hready.named.table_nodup hnodup).mpr fun x => ?_)
    have hempty : (State.start o).arena.table (State.start o).current = [] := rfl
    rw [hcompletes.advances.current, hcompletes.advances.grows.mem_table, hempty]
    show x ∈ [] ∨ x ∈ boundNames (xs.map clearStmt) ↔ _
    rw [boundNames_clear]
    simp
  -- one of the last fifteen is in no register
  obtain ⟨x, hx, hnone⟩ := exists_holder_none hready (hready.named.table_nodup.sublist (List.drop_sublist 254 _))
    (by rw [List.length_drop]; omega)
  obtain ⟨k, hk⟩ := List.getElem?_of_mem hx
  rw [List.getElem?_drop] at hk
  -- so it was written to its slot
  have hsimple : ∀ st ∈ xs.map clearStmt, st.isSimple = true := by
    intro st hst
    obtain ⟨_, _, rfl⟩ := List.mem_map.mp hst
    rfl
  obtain ⟨new, hnew, hfills⟩ := (lowerBlock_fills _ hsimple (ready_start o) hrun).1.lines
  have hstart : Stocked (fun _ => False) [] (.start o) := fun x k hk =>
    absurd (List.mem_of_getElem? hk) List.not_mem_nil
  obtain ⟨r, hr⟩ := (hfills [] hstart).1 x _ hk hnone id
  refine ⟨t.listing, .sd r (Frame.slotOffset (254 + k)) .fp, ?_, ?_, fun henc => ?_⟩
  · simp only [generate, generateLogged, hlower]
  · show _ ∈ t.code.toList
    rw [hnew]
    exact List.mem_append_right _ hr
  · have hreach := (slotOffset_reach (254 + k)).mp (henc _ rfl).1
    omega

end Constants

/-- The names `v0`, `v1` and so on, so many of them. -/
def numberedNames (n : Nat) : List String := (List.range n).map fun k => "v" ++ toString k

theorem nodup_numberedNames (n : Nat) : (numberedNames n).Nodup := by
  refine List.nodup_range.map fun j k hjk => ?_
  have hlist := congrArg String.toList hjk
  simp only [String.toList_append, toList_toString, List.append_cancel_left_eq] at hlist
  rw [← Nat.ofDigitChars_toDigits (n := j) (by decide : 1 < 10) (by decide), hlist,
    Nat.ofDigitChars_toDigits (by decide) (by decide)]

/-- `def wait(n)`, which waits for ever unless `n` is 0. -/
def waitModule : Module :=
  ⟨[.funcDef default "wait" ["n"] [.loop default (.name default "n" .load) [.pass default]]], default⟩

/-- In a module that only defines functions all immediates fit. A function with 254 names has no frame. -/
theorem immediates_fit_in_functions_waitModule :
    (∃ l, generate {} waitModule = .ok l ∧ .instr (.sd .a1 (-24) .fp) ∈ l.code ∧
      ∀ i, .instr i ∈ l.code → i.Encodable) ∧
    (lowerStmt (.funcDef default "f" [] ((numberedNames 254).map clearStmt))).run (.start {}) =
      .error (.unsupported (.frame "f" (.frameTooLarge 2048)) (default : Span).start) (.start {}) := by
  obtain ⟨t, hrun, hstore⟩ : ∃ t, (lowerModule waitModule).run (.initial {}) = .ok () t ∧
      .instr (.sd .a1 (-24) .fp) ∈ t.code.toList := exists_run_ok _ (by cbv)
  have hl : generate {} waitModule = .ok t.listing := by simp only [generate, generateLogged, hrun]
  obtain ⟨haccepted, hrefused⟩ := immediates_fit_in_functions {} waitModule
  obtain ⟨_, _, _, _, hfits⟩ := haccepted _ hl
  refine ⟨⟨t.listing, hl, hstore, fun i hi => (hfits i hi).resolve_right ?_⟩, ?_⟩
  · rintro ⟨_, _, k, _, hge, hlt⟩
    exact absurd hlt (Nat.not_lt_zero k)
  have hnodup := nodup_numberedNames 254
  have hlength : (numberedNames 254).length = 254 := by rw [numberedNames, List.length_map, List.length_range]
  generalize numberedNames 254 = xs at hnodup hlength
  have hcount : countLocals [] (xs.map clearStmt) (fun x =>
      ((State.start {}).arena.resolve? (State.start {}).current x).isSome) = 254 := by
    rw [countLocals_clear hnodup, hlength]
    exact fun x => by rw [start_resolve?]; rfl
  obtain ⟨e, hrun, he⟩ := hrefused default "f" [] (xs.map clearStmt) (.start {}) List.nodup_nil (by rw [hcount]; decide)
  rw [hcount] at he
  rw [hrun, he (by decide)]
  rfl

/-- A module may have more names than immediates reach slots. -/
theorem wide_module_unencodable : ∃ l i, generate {} (clearModule (numberedNames 269)) = .ok l ∧
    .instr i ∈ l.code ∧ ¬i.Encodable :=
  constants_out_of_reach {} (nodup_numberedNames 269) (by simp [numberedNames])

end Lower

end Offside
