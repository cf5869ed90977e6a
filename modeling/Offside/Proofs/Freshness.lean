import Offside.Proofs.Traces

/-!
# `Proofs.Freshness` — variables in registers as copies of their slots

The code of an expression stores to no variable. A variable that it finds in its slot, and brings into a
register, is a copy of the slot from then on: the register is written by the load alone (`Copied`).

`Refreshes` says of a stretch of code generation that it keeps this of every variable in a register; the
moves of expressions all do (`Pushes.refreshes`). Where a stretch starts with every variable in its slot, each
variable in a register at its end is such a copy (`Clean`).
-/

namespace Offside.Machine

/-! ## Copies of slots -/

/-- The instruction leaves a register, a slot and the frame pointer alone. -/
structure Instr.Spares (r : Register) (slot : Nat) (i : Instr) : Prop where
  dest : i.dest? ≠ some r
  frame : i.dest? ≠ some .fp
  ne_call : ∀ x, i ≠ .call x
  ne_store : ∀ q, i ≠ storeSlot q slot

/-- The line leaves a register, a slot and the frame pointer alone. -/
def Line.Spares (r : Register) (slot : Nat) : Line → Prop
  | .instr i => i.Spares r slot
  | _ => True

/-- No jump leaves the lines. -/
def Inward (ls : List Line) : Prop := ∀ i x, .instr i ∈ ls → i.target? = some x → .label x ∈ ls

/-- **A register was copied from a slot** by one of the lines, which no jump goes around, and both have been
    left alone by the lines behind it. -/
def Copied (r : Register) (slot : Nat) (ls : List Line) : Prop :=
  ∃ before after, ls = before ++ .instr (loadSlot r slot) :: after ∧ Inward before ∧ ∀ l ∈ after, l.Spares r slot

theorem Inward.append {ls ls' : List Line} (h : Inward ls) (h' : Inward ls') : Inward (ls ++ ls') := by
  intro i x hi hx
  rw [List.mem_append] at hi ⊢
  exact hi.imp (fun hmem => h i x hmem hx) fun hmem => h' i x hmem hx

theorem inward_of_target {ls : List Line} (h : ∀ i, .instr i ∈ ls → i.target? = none) : Inward ls := by
  intro i x hi hx
  exact absurd ((h i hi).symm.trans hx) (by simp)

theorem Copied.append {r : Register} {slot : Nat} {ls new : List Line} (h : Copied r slot ls)
    (hnew : ∀ l ∈ new, l.Spares r slot) : Copied r slot (ls ++ new) := by
  obtain ⟨before, after, rfl, hbefore, hafter⟩ := h
  refine ⟨before, after ++ new, by simp, hbefore, fun l hl => ?_⟩
  exact (List.mem_append.mp hl).elim (hafter l) (hnew l)

/-- A slot is loaded. -/
theorem Copied.load {r : Register} {slot : Nat} {ls before after : List Line} (hls : Inward (ls ++ before))
    (hafter : ∀ l ∈ after, l.isComment = true) :
    Copied r slot (ls ++ (before ++ .instr (loadSlot r slot) :: after)) := by
  refine ⟨ls ++ before, after, (List.append_assoc _ _ _).symm, hls, fun l hl => ?_⟩
  cases l with
  | instr i => exact absurd (hafter _ hl) Bool.false_ne_true
  | _ => trivial

end Offside.Machine

namespace Offside.Lower

open Machine

variable {s t u : State} {held : List Register} {r : Register} {v w : VarRef} {is : List Instr} {p q q' : Pool}
  {a : Arena}

/-- **Every variable in a register is a copy of its slot**, made by the given lines. -/
structure Fresh (since : List Line) (s : State) : Prop where
  inward : Inward since
  copied : ∀ {v var r}, s.arena.lookup? v = some var → var.activeRegister? = some r → Copied r var.slot since

/-- **A stretch that keeps copies of slots**: what was copied stays so, and what it brings into registers are
    copies. -/
def Refreshes (s t : State) : Prop :=
  ∃ new, t.code.toList = s.code.toList ++ new ∧ ∀ since, Fresh since s → Fresh (since ++ new) t

/-- **Every variable in a register is a copy of its slot**, made since a label was placed. -/
def Clean (top : String) (s : State) : Prop :=
  ∃ front since, s.code.toList = front ++ .label top :: since ∧ .label top ∉ since ∧ Fresh since s

theorem Refreshes.refl (s : State) : Refreshes s s :=
  ⟨[], (List.append_nil _).symm, fun since h => by rw [List.append_nil]; exact h⟩

theorem Refreshes.trans (h : Refreshes s t) (h' : Refreshes t u) : Refreshes s u := by
  obtain ⟨new, hnew, hfresh⟩ := h
  obtain ⟨new', hnew', hfresh'⟩ := h'
  refine ⟨new ++ new', by rw [hnew', hnew, List.append_assoc], fun since hs => ?_⟩
  rw [← List.append_assoc]
  exact hfresh' _ (hfresh since hs)

/-- A stretch that brings no variable into a register, and spares those that are. -/
theorem refreshes_of_spares (new : List Line) (hcode : t.code.toList = s.code.toList ++ new) (hinward : Inward new)
    (hspares : ∀ {v var x}, t.arena.lookup? v = some var → var.activeRegister? = some x →
      (∃ var', s.arena.lookup? v = some var' ∧ var'.activeRegister? = some x ∧ var'.slot = var.slot) ∧
        ∀ l ∈ new, l.Spares x var.slot) : Refreshes s t := by
  refine ⟨new, hcode, fun since hs => ⟨hs.inward.append hinward, fun {v var x} hv hx => ?_⟩⟩
  obtain ⟨⟨var', hv', hx', hslot⟩, hlines⟩ := hspares hv hx
  have hcopied := hs.copied hv' hx'
  rw [hslot] at hcopied
  exact hcopied.append hlines

/-! ## Straight moves -/

/-- The lines of a straight move are its instructions, and comments. -/
theorem Does.exists_lines (h : Does is p a s t) : ∃ new, t.code.toList = s.code.toList ++ new ∧
    ∀ l ∈ new, l.isComment = true ∨ ∃ i ∈ is, l = .instr i := by
  obtain ⟨new, hnew, hfilter⟩ := h.lines
  refine ⟨new, hnew, fun l hl => ?_⟩
  by_cases hcomment : l.isComment = true
  · exact Or.inl hcomment
  · have hmem : l ∈ new.filter (fun l => !l.isComment) := List.mem_filter.mpr ⟨hl, by simpa using hcomment⟩
    rw [hfilter] at hmem
    obtain ⟨i, hi, rfl⟩ := List.mem_map.mp hmem
    exact Or.inr ⟨i, hi, rfl⟩

theorem spares_of_comment {l : Line} {slot : Nat} (h : l.isComment = true) : l.Spares r slot := by
  cases l with
  | instr i => exact absurd h Bool.false_ne_true
  | _ => trivial

/-- Instructions that do not jump and spare the variables that stay in registers. -/
theorem Does.refreshes (h : Does is p a s t) (htarget : ∀ i ∈ is, i.target? = none)
    (hspares : ∀ {v var x}, a.lookup? v = some var → var.activeRegister? = some x →
      (∃ var', s.arena.lookup? v = some var' ∧ var'.activeRegister? = some x ∧ var'.slot = var.slot) ∧
        ∀ i ∈ is, i.Spares x var.slot) : Refreshes s t := by
  obtain ⟨new, hnew, hlines⟩ := h.exists_lines
  refine refreshes_of_spares new hnew (inward_of_target fun i hi => ?_) fun {v var x} hv hx => ?_
  · rcases hlines _ hi with hcomment | ⟨j, hj, heq⟩
    · exact absurd hcomment Bool.false_ne_true
    · rw [Line.instr.inj heq]; exact htarget j hj
  · rw [h.arena] at hv
    refine ⟨(hspares hv hx).1, fun l hl => ?_⟩
    rcases hlines l hl with hcomment | ⟨j, hj, rfl⟩
    · exact spares_of_comment hcomment
    · exact (hspares hv hx).2 j hj

/-- With no variable in a register there is nothing to spare. -/
theorem Does.refreshes_idle (h : Does is p s.arena s t) (htarget : ∀ i ∈ is, i.target? = none)
    (hidle : ∀ v, s.arena.activeRegister? v = none) : Refreshes s t := by
  refine h.refreshes htarget fun {v var x} hv hx => ?_
  have hactive : s.arena.activeRegister? v = some x := by unfold Arena.activeRegister?; rw [hv]; exact hx
  exact absurd ((hidle v).symm.trans hactive) (by simp)

/-- The instruction works on held temporaries and on the stack. -/
structure Private (held : List Register) (i : Instr) : Prop where
  target : i.target? = none
  dest : ∀ {x}, i.dest? = some x → x = .sp ∨ (x ∈ held ∧ x.classOf? = some .temporary)
  ne_call : ∀ x, i ≠ .call x
  frameless : i.frameOffset? = none

/-- What works on held temporaries spares the variables in registers. -/
theorem Ready.spares {var : Variable} {x : Register} {i : Instr} (hs : Ready held s) (hi : ∀ {x}, i.dest? = some x →
      x = .sp ∨ (x ∈ held ∧ x.classOf? = some .temporary)) (hcall : ∀ x, i ≠ .call x) (hframe : i.frameOffset? = none)
    (hv : s.arena.lookup? v = some var) (hx : var.activeRegister? = some x) : i.Spares x var.slot := by
  have hactive : s.arena.activeRegister? v = some x := by unfold Arena.activeRegister?; rw [hv]; exact hx
  refine ⟨fun hdest => ?_, fun hdest => ?_, hcall, fun q he => ?_⟩
  · rcases hi hdest with rfl | ⟨hmem, _⟩
    · exact absurd (hs.tidy.clobbered hactive) (by decide)
    · exact hs.tidy.active_not_held hactive hmem
  · rcases hi hdest with he | ⟨_, hclass⟩
    · exact absurd he (by decide)
    · exact absurd hclass (by decide)
  · rw [he] at hframe
    exact absurd hframe (by simp [storeSlot, Instr.frameOffset?])

theorem Does.refreshes_private (h : Does is p s.arena s t) (hs : Ready held s) (his : ∀ i ∈ is, Private held i) :
    Refreshes s t := by
  refine h.refreshes (fun i hi => (his i hi).target) fun {v var x} hv hx => ⟨⟨var, hv, hx, rfl⟩, fun i hi => ?_⟩
  exact hs.spares (his i hi).dest (his i hi).ne_call (his i hi).frameless hv hx

theorem private_push (held : List Register) (r : Register) : ∀ i ∈ push r, Private held i := by
  intro i hi
  rcases List.mem_cons.mp hi with rfl | hi
  · exact ⟨rfl, fun h => Or.inl (Option.some.inj h).symm, by simp, rfl⟩
  · obtain rfl := List.mem_singleton.mp hi
    exact ⟨rfl, fun h => absurd h (by simp [Instr.dest?]), by simp, rfl⟩

theorem private_pop (hr : r.classOf? = some .temporary) : ∀ i ∈ pop r, Private (r :: held) i := by
  intro i hi
  rcases List.mem_cons.mp hi with rfl | hi
  · exact ⟨rfl, fun h => Or.inr (by obtain rfl := Option.some.inj h; exact ⟨List.mem_cons_self, hr⟩), by simp, rfl⟩
  · obtain rfl := List.mem_singleton.mp hi
    exact ⟨rfl, fun h => Or.inl (Option.some.inj h).symm, by simp, rfl⟩

/-! ## Spilling and reloading -/

/-- Two variables of the current function have different slots. -/
theorem Ready.slot_ne {var var' : Variable} {x x' : Register} (hs : Ready held s) (hne : v ≠ w)
    (hv : s.arena.lookup? v = some var) (hx : var.activeRegister? = some x)
    (hw : s.arena.lookup? w = some var') (hx' : var'.activeRegister? = some x') : var.slot ≠ var'.slot := by
  have hroot : ∀ {v var x}, s.arena.lookup? v = some var → var.activeRegister? = some x →
      (s.arena.get v.scope).root = (s.arena.get s.current).root := by
    intro v var x hv hx
    exact (hs.tidy.place (v := v) (r := x) (by unfold Arena.activeRegister?; rw [hv]; exact hx)).2
  intro hslot
  have hname := hs.named.slot hv (hroot hv hx)
  rw [hslot, hs.named.slot hw (hroot hw hx'), Option.some.injEq] at hname
  have hmeaning := hs.named.meaning hw (hroot hw hx')
  rw [hname, hs.named.meaning hv (hroot hv hx)] at hmeaning
  exact hne (Option.some.inj hmeaning)

theorem slotOffset_inj {j k : Nat} (h : Frame.slotOffset j = Frame.slotOffset k) : j = k := by
  unfold Frame.slotOffset slotSize at h
  omega

/-- A variable is written back; the others have slots of their own. -/
theorem WroteBack.refreshes (h : WroteBack v s t) (hs : Ready held s) : Refreshes s t := by
  rcases h with ⟨_, rfl⟩ | ⟨var, r, hvar, hact, hdoes⟩
  · exact .refl t
  · refine hdoes.refreshes (by simp [storeSlot, Instr.target?]) fun {w var' x} hw hx => ?_
    rw [Arena.lookup?_updateVariable] at hw
    split at hw
    · obtain ⟨y, _, rfl⟩ := Option.map_eq_some_iff.mp hw
      exact absurd hx (by simp [Variable.release, Variable.activeRegister?])
    · rename_i hne
      refine ⟨⟨var', hw, hx, rfl⟩, fun i hi => ?_⟩
      obtain rfl := List.mem_singleton.mp hi
      refine ⟨by simp [storeSlot, Instr.dest?], by simp [storeSlot, Instr.dest?], by simp [storeSlot], fun q he => ?_⟩
      simp only [storeSlot, Instr.sd.injEq, and_true] at he
      exact hs.slot_ne hne hw hx hvar hact (slotOffset_inj he.2).symm

theorem Spills.refreshes {l : List VarRef} (h : Spills l s t) (hs : Ready held s) : Refreshes s t := by
  induction h with
  | nil => exact .refl _
  | cons hv _ ih => exact (hv.refreshes hs).trans (ih (hv.ready hs))

theorem Allocated.refreshes (h : Allocated r s t) (hs : Ready held s) : Refreshes s t := by
  obtain ⟨l, mid, hspills, _, hdoes⟩ := h
  exact (hspills.refreshes hs).trans (hdoes.refreshes_private (hspills.ready hs) (by simp))

theorem Popped.refreshes (h : Popped r s t) (hs : Ready held s) : Refreshes s t := by
  obtain ⟨mid, halloc, hdoes⟩ := h
  exact (halloc.refreshes hs).trans (hdoes.refreshes_private (halloc.ready hs) (private_pop halloc.temporary))

/-- **A variable that is brought into a register is a copy of its slot.** -/
theorem Reloaded.refreshes (h : Reloaded v r s t) (hs : Ready held s) : Refreshes s t := by
  obtain ⟨mid, var, _, halloc, hvar, hdoes⟩ := h
  have hmid := halloc.ready hs
  refine (halloc.refreshes hs).trans ?_
  obtain ⟨new, hnew, hfilter⟩ := hdoes.lines
  obtain ⟨before, after, rfl, hbefore, hafter⟩ : ∃ before after, new = before ++ .instr (loadSlot r var.slot) :: after ∧
      (∀ l ∈ before, l.isComment = true) ∧ ∀ l ∈ after, l.isComment = true := by
    obtain ⟨before, after, rfl, hbefore, _, hafter⟩ := List.filter_eq_cons_iff.mp hfilter
    exact ⟨before, after, rfl, by simpa using hbefore, by simpa [List.filter_eq_nil_iff] using hafter⟩
  have hinward : ∀ {ls : List Line}, (∀ l ∈ ls, l.isComment = true) → Inward ls := fun hls =>
    inward_of_target fun i hi => absurd (hls _ hi) Bool.false_ne_true
  refine ⟨_, hnew, fun since hsince => ⟨?_, fun {w var' x} hw hx => ?_⟩⟩
  · have hload : Inward [Line.instr (loadSlot r var.slot)] :=
      inward_of_target fun i hi => by obtain rfl := Line.instr.inj (List.mem_singleton.mp hi); rfl
    exact hsince.inward.append ((hinward hbefore).append (hload.append (hinward hafter)))
  rw [hdoes.arena, Arena.lookup?_updateVariable] at hw
  split at hw
  · -- the variable itself
    rw [hvar.1, Option.map_some, Option.some.injEq] at hw
    obtain rfl := hw
    obtain rfl : r = x := Option.some.inj hx
    exact .load (hsince.inward.append (hinward hbefore)) hafter
  · -- the others are in other registers
    refine (hsince.copied hw hx).append fun l hl => ?_
    rcases List.mem_append.mp hl with hl | hl
    · exact spares_of_comment (hbefore l hl)
    · rcases List.mem_cons.mp hl with rfl | hl
      · have hactive : mid.arena.activeRegister? w = some x := by unfold Arena.activeRegister?; rw [hw]; exact hx
        refine ⟨fun hdest => ?_, fun hdest => ?_, by simp [loadSlot], by simp [loadSlot, storeSlot]⟩
        · exact hmid.tidy.active_not_held hactive (Option.some.inj hdest ▸ List.mem_cons_self)
        · have hclass := halloc.temporary
          rw [Option.some.inj hdest] at hclass
          exact absurd hclass (by decide)
      · exact spares_of_comment (hafter l hl)

theorem Reloads.refreshes {l : List VarRef} (h : Reloads l s t) (hs : Ready [] s) : Refreshes s t := by
  induction h with
  | nil => exact .refl _
  | cons hv ht _ ih => exact (hv.refreshes hs).trans (ih ht)

/-! ## Expressions -/

/-- One instruction that writes a held temporary, and its value on the stack. -/
theorem private_compute {i : Instr} (hi : Private held i) (x : Register) : ∀ j ∈ i :: push x, Private held j := by
  intro j hj
  rcases List.mem_cons.mp hj with rfl | hj
  · exact hi
  · exact private_push held x j hj

theorem Loaded.refreshes {n : Word} (h : Loaded n s t) (hs : Ready [] s) : Refreshes s t := by
  obtain ⟨r, mid, q, halloc, hmid, hdoes⟩ := h
  refine (halloc.refreshes hs).trans (hdoes.refreshes_private hmid (private_compute ?_ r))
  exact ⟨rfl, fun hx => Or.inr (Option.some.inj hx ▸ ⟨List.mem_cons_self, halloc.temporary⟩), by simp, rfl⟩

/-- The invariant held before a straight move that leaves the pool and the arena alone. -/
theorem Does.ready_start (h : Does is s.pool s.arena s t) (ht : Ready held t) : Ready held s := by
  obtain ⟨htidy, hnamed⟩ := ht
  rw [h.arena, h.current] at htidy hnamed
  rw [h.pool] at htidy
  exact ⟨htidy, hnamed⟩

theorem Fetched.refreshes {name : String} (h : Fetched name s t) (hs : Ready [] s) (ht : Ready [] t) :
    Refreshes s t := by
  obtain ⟨v, r, mid, _, hplace, hdoes⟩ := h
  have hpush : Refreshes mid t := hdoes.refreshes_private (hdoes.ready_start ht) (private_push _ r)
  rcases hplace with ⟨_, rfl⟩ | hload
  · exact hpush
  · exact (hload.refreshes hs).trans hpush

theorem Combined.refreshes {op : BinaryOp} (h : Combined op s t) (hs : Ready [] s) : Refreshes s t := by
  obtain ⟨right, left, t₁, t₂, q, hright, hr₁, hleft, hr₂, hdoes⟩ := h
  refine (hright.refreshes hs).trans ((hleft.refreshes hr₁).trans (hdoes.refreshes_private hr₂ (private_compute ?_ left)))
  exact ⟨rfl, fun hx => Or.inr (Option.some.inj hx ▸ ⟨List.mem_cons_self, hleft.temporary⟩), by simp, rfl⟩

theorem Applied.refreshes {op : UnaryOp} (h : Applied op s t) (hs : Ready [] s) : Refreshes s t := by
  rcases h with ⟨_, rfl⟩ | ⟨r, t₁, q, _, hpop, hr₁, hdoes⟩
  · exact .refl t
  · refine (hpop.refreshes hs).trans (hdoes.refreshes_private hr₁ fun i hi => ?_)
    rcases List.mem_append.mp hi with hi | hi
    · cases op <;> simp only [unaryInstr?, Option.toList, List.mem_singleton, List.not_mem_nil] at hi <;> subst hi <;>
        exact ⟨rfl, fun hx => Or.inr (Option.some.inj hx ▸ ⟨List.mem_cons_self, hpop.temporary⟩), by simp, rfl⟩
    · exact private_push _ r i hi

/-- Control jumps over one instruction, or does not. -/
theorem refreshes_skip {test : BranchTest} {x y : Register} {label : String} {n n' : Word} (hs : Ready (r :: held) s)
    (hr : r.classOf? = some .temporary) (h : Does [.li r n, .branch test x y label] q a s t)
    (hlookup : ∀ v, a.lookup? v = s.arena.lookup? v) (h' : Does [.li r n'] q' t.arena t u) :
    Refreshes s (u.place label) := by
  obtain ⟨new, hnew, hlines⟩ := h.exists_lines
  obtain ⟨new', hnew', hlines'⟩ := h'.exists_lines
  -- whichever way control takes, only the result register is written
  have hall : ∀ l ∈ new ++ new' ++ [Line.label label], l.isComment = true ∨ l = .label label ∨
      (∃ n, l = .instr (.li r n)) ∨ l = .instr (.branch test x y label) := by
    intro l hl
    rcases List.mem_append.mp hl with hl | hl
    · rcases List.mem_append.mp hl with hl | hl
      · rcases hlines l hl with hcomment | ⟨i, hi, rfl⟩
        · exact Or.inl hcomment
        · rcases List.mem_cons.mp hi with rfl | hi
          · exact Or.inr (Or.inr (Or.inl ⟨n, rfl⟩))
          · exact Or.inr (Or.inr (Or.inr (congrArg _ (List.mem_singleton.mp hi))))
      · rcases hlines' l hl with hcomment | ⟨i, hi, rfl⟩
        · exact Or.inl hcomment
        · exact Or.inr (Or.inr (Or.inl ⟨n', congrArg _ (List.mem_singleton.mp hi)⟩))
    · exact Or.inr (Or.inl (List.mem_singleton.mp hl))
  refine refreshes_of_spares (new ++ new' ++ [Line.label label]) (by simp [State.place, hnew', hnew]) ?_ ?_
  · intro i z hi hz
    obtain rfl : label = z := by
      rcases hall _ hi with hcomment | he | ⟨n, he⟩ | he
      · exact absurd hcomment Bool.false_ne_true
      · exact absurd he (by simp)
      · rw [Line.instr.inj he] at hz; exact absurd hz (by simp [Instr.target?])
      · rw [Line.instr.inj he] at hz; exact Option.some.inj hz
    simp
  · intro v var z hv hz
    have hv' : s.arena.lookup? v = some var := by
      rw [← hlookup, ← h.arena, ← h'.arena]
      exact hv
    refine ⟨⟨var, hv', hz, rfl⟩, fun l hl => ?_⟩
    rcases hall l hl with hcomment | rfl | ⟨n, rfl⟩ | rfl
    · exact spares_of_comment hcomment
    · trivial
    · exact hs.spares (fun hx => Or.inr (Option.some.inj hx ▸ ⟨List.mem_cons_self, hr⟩)) (by simp) rfl hv' hz
    · exact hs.spares (fun hx => absurd hx (by simp [Instr.dest?])) (by simp) rfl hv' hz

theorem Compared.refreshes {op : CompareOp} (h : Compared op s t) (hs : Ready [] s) : Refreshes s t := by
  obtain ⟨right, left, result, label, t₁, t₂, t₃, t₄, t₅, q, q', q'', hright, hr₁, hleft, hr₂, hresult, hr₃, htest, hzero,
    hpush⟩ := h
  have hoperands := (hright.refreshes hs).trans ((hleft.refreshes hr₁).trans (hresult.refreshes hr₂))
  have hskip := refreshes_skip hr₃ hresult.temporary htest (Arena.lookup?_nextLabel _ _ "cmp") hzero
  refine hoperands.trans (hskip.trans (hpush.refreshes (fun i hi => (private_push [] result i hi).target) ?_))
  -- the same variables are in registers as before the test
  intro v var x hv hx
  refine ⟨⟨var, hv, hx, rfl⟩, fun i hi => ?_⟩
  have hv₃ : t₃.arena.lookup? v = some var := by
    rw [← Arena.lookup?_nextLabel _ t₃.current "cmp", ← htest.arena, ← hzero.arena]
    exact hv
  have hprivate := private_push [result, left, right] result i hi
  exact hr₃.spares hprivate.dest hprivate.ne_call hprivate.frameless hv₃ hx

/-! ## Calls -/

theorem target?_pops (rs : List Register) : ∀ i ∈ rs.flatMap pop, i.target? = none := by
  intro i hi
  obtain ⟨r, _, hi⟩ := List.mem_flatMap.mp hi
  rcases List.mem_cons.mp hi with rfl | hi
  · rfl
  · obtain rfl := List.mem_singleton.mp hi
    rfl

/-- **Around a call nothing is lost**: every variable is in its slot when the function is called. -/
theorem Called.refreshes {callee : Callee} (h : Called callee s t) (hs : Ready [] s) (ht : Ready [] t) :
    Refreshes s t := by
  obtain ⟨l, t₁, t₂, t₃, t₄, t₅, q, q', hnote, hcleared, hpops, hcall, hr₄, hreloads, hpush⟩ := h
  have hspills := (hnote.refreshes_private hs (by simp)).trans (hcleared.spills.refreshes (hnote.ready_of_eq hs))
  have harguments := hpops.refreshes_idle (target?_pops _) hcleared.inactive
  rw [← hpops.arena] at hcall
  have hcalled := hcall.refreshes_idle (by simp [Instr.target?]) (by rw [hpops.arena]; exact hcleared.inactive)
  have hresult := hpush.refreshes_private (hpush.ready_start ht) (private_push _ _)
  exact hspills.trans (harguments.trans (hcalled.trans ((hreloads.refreshes hr₄).trans hresult)))

theorem Refreshes.printing (h : Refreshes s t) : Refreshes s t.printing := by
  obtain ⟨new, hnew, hfresh⟩ := h
  exact ⟨new, hnew, fun since hs => ⟨(hfresh since hs).inward, (hfresh since hs).copied⟩⟩

theorem Printed.refreshes (h : Printed s t) (hs : Ready [] s) (ht : Ready [] t) : Refreshes s t := by
  obtain ⟨l, t₁, t₂, t₃, t₄, q, q', hcleared, hargument, hcall, hr₃, hreloads, hpush⟩ := h
  have hspills := hcleared.spills.refreshes hs
  have hloaded := hargument.refreshes_idle (by simp [pop, Instr.target?]) hcleared.inactive
  rw [← hargument.arena] at hcall
  have hcalled := hcall.refreshes_idle (by simp [Instr.target?]) (by rw [hargument.arena]; exact hcleared.inactive)
  have hresult := hpush.refreshes_private (hpush.ready_start ht) (private_push _ _)
  exact (hspills.trans (hloaded.trans hcalled)).printing.trans ((hreloads.refreshes hr₃).trans hresult)

/-! ## Expressions -/

/-- **The code of an expression keeps copies of slots**, whatever moves it takes. -/
theorem Pushes.refreshes {n : Nat} (h : Pushes n s t) (hs : Ready [] s) : Refreshes s t := by
  induction h with
  | none => exact .refl _
  | loaded h _ => exact h.refreshes hs
  | fetched h hst => exact h.refreshes hs hst.ready
  | combined hpushes h _ ih => exact (ih hs).trans (h.refreshes hpushes.settled.ready)
  | compared hpushes h _ ih => exact (ih hs).trans (h.refreshes hpushes.settled.ready)
  | applied hpushes h _ ih => exact (ih hs).trans (h.refreshes hpushes.settled.ready)
  | printed hpushes h htu ih => exact (ih hs).trans (h.refreshes hpushes.settled.ready htu.ready)
  | called hpushes _ h htu ih => exact (ih hs).trans (h.refreshes hpushes.settled.ready htu.ready)
  | append hpushes _ ih ih' => exact (ih hs).trans (ih' hpushes.settled.ready)

/-- A label that was made before a stretch does not stand in it. -/
theorem Steady.label_not_mem {x : String} {new : List Line} (h : Steady [] s t) (hx : s.arena.Issued x)
    (hnew : t.code.toList = s.code.toList ++ new) : .label x ∉ new := by
  intro hmem
  obtain ⟨new', made, hnew', _, hperm, _, hissued⟩ := h.segment.lines
  obtain rfl : new' = new := List.append_cancel_left (hnew'.symm.trans hnew)
  have hname : x ∈ labelNames new' := List.mem_filterMap.mpr ⟨_, hmem, rfl⟩
  exact (hissued x (List.mem_append_left [] (hperm.mem_iff.mp hname))).2 hx

/-- A stretch that starts at a label, with every variable in its slot. -/
theorem Refreshes.clean {top : String} (h : Refreshes (s.place top) t) (hsteady : Steady [] (s.place top) t)
    (hidle : Idle s.arena) (hissued : s.arena.Issued top) : Clean top t := by
  obtain ⟨new, hnew, hfresh⟩ := h
  refine ⟨s.code.toList, new, by rw [hnew]; simp [State.place], hsteady.label_not_mem hissued hnew, hfresh [] ?_⟩
  refine ⟨fun i x hi => absurd hi List.not_mem_nil, fun {v var r} hv hr => ?_⟩
  have hinactive := hidle v var hv
  exact absurd hr (by simp [Variable.activeRegister?, hinactive])

end Offside.Lower
