import Offside.Proofs.Names
import Offside.Proofs.Processor

/-!
# `Proofs.Activation` — a call in progress, on the processor

An `Activation` is a call whose frame is open: the names of its slots, and the core when its body starts.
`Running` relates the core while the body runs to the variables of the source: a variable is in the register
that holds it, and in its slot if none does; the values in progress stand on the evaluation stack below the
frame; and everything that belongs to callers is as it was.

The lemmas here say how each instruction sequence of code generation keeps this relation. They know nothing
of code generation itself, only which names are held in which registers.
-/

namespace Offside

open Machine

namespace Machine.Register

/-- A call leaves the register as it was: the pointers, and the registers that a callee saves. -/
def isKept : Register → Bool
  | .gp | .tp | .fp => true
  | r => r.classOf? == some .calleeSaved

/-- Code may write to the register and leave it so. -/
def isVolatile (r : Register) : Bool := r.isCallerClobbered || r == .ra || r == .a0

variable {q r : Register}

theorem ne_of_isVolatile (hr : r.isVolatile = true) : r ≠ .zero ∧ r ≠ .sp := by
  revert hr; cases r <;> decide

theorem ne_of_isKept (hq : q.isKept = true) (hr : r.isVolatile = true) : q ≠ r := by
  rintro rfl
  revert hq hr; cases q <;> decide

theorem isVolatile_of_clobbered (hr : r.isCallerClobbered = true) : r.isVolatile = true := by
  unfold isVolatile
  rw [hr]
  rfl

end Machine.Register

namespace Machine

namespace Core

/-- The core after a register was put on the evaluation stack. -/
def pushed (c : Core) (r : Register) : Core := (c.set .sp (c.get .sp - 8)).store (c.get .sp - 8) (c.get r)

/-- The core after the top of the evaluation stack was taken into a register. -/
def popped (c : Core) (r : Register) : Core := (c.set r (c.mem (c.get .sp))).set .sp (c.get .sp + 8)

variable {c : Core} {q r : Register} {a : Int}

theorem get_sp_pushed : (c.pushed r).get .sp = c.get .sp - 8 := by simp [pushed]

theorem get_pushed (hq : q ≠ .sp) : (c.pushed r).get q = c.get q := by simp [pushed, hq]

theorem mem_pushed_self : (c.pushed r).mem (c.get .sp - 8) = c.get r := by simp [pushed]

theorem mem_pushed (ha : a ≠ c.get .sp - 8) : (c.pushed r).mem a = c.mem a := by simp [pushed, ha]

end Core

/-- **A call has come back** with a result and an output: the registers of the caller and the memory in use
    are as they were. -/
structure Returned (v : Word) (out : List Word) (c d : Core) : Prop where
  result : d.get .a0 = v.toInt
  ra : d.get .ra = c.get .ra
  sp : d.get .sp = c.get .sp
  kept : ∀ {r : Register}, r.isKept = true → d.get r = c.get r
  output : d.output = c.output ++ out.map BitVec.toInt
  memory : ∀ {a}, c.get .sp ≤ a → d.mem a = c.mem a

/-- **Arguments are in their registers.** -/
def Passed (args : List Word) (c : Core) : Prop :=
  ∀ {i : Nat} {r : Register} {w : Word}, RegisterClass.argument.members[i]? = some r → args[i]? = some w →
    c.get r = w.toInt

/-- **A call of a line comes back**: control reaches a return. -/
def Image.Answers (P : Image) (k : Nat) (c : Core) (v : Word) (out : List Word) : Prop :=
  ∃ j d, P.Reaches ⟨k, c⟩ ⟨j, d⟩ ∧ P.code[j]? = some (.instr .ret) ∧ Returned v out c d

/-- The core after a frame was opened: the return address and the caller's frame pointer are saved. -/
def Core.entered (c : Core) (f : Frame) : Core :=
  (((c.set .sp (c.get .sp - f.size)).store (c.get .sp - 8) (c.get .ra)).store (c.get .sp - 16) (c.get .fp)).set
    .fp (c.get .sp)

/-- The core after a frame was closed. -/
def Core.exited (c : Core) (f : Frame) : Core :=
  ((c.set .ra (c.mem (c.get .sp + f.size - 8))).set .fp (c.mem (c.get .sp + f.size - 16))).set
    .sp (c.get .sp + f.size)

namespace Core

variable {c : Core} {f : Frame} {q : Register} {a : Int}

theorem get_sp_entered : (c.entered f).get .sp = c.get .sp - f.size := by simp [entered]

theorem get_fp_entered : (c.entered f).get .fp = c.get .sp := by simp [entered]

theorem get_entered (hsp : q ≠ .sp) (hfp : q ≠ .fp) : (c.entered f).get q = c.get q := by simp [entered, hsp, hfp]

theorem mem_entered_ra : (c.entered f).mem (c.get .sp - 8) = c.get .ra :=
  (mem_store_ne (by omega)).trans mem_store_self

theorem mem_entered_fp : (c.entered f).mem (c.get .sp - 16) = c.get .fp := mem_store_self

/-- Opening a frame writes below the stack pointer only. -/
theorem mem_entered (ha : c.get .sp ≤ a) : (c.entered f).mem a = c.mem a :=
  (mem_store_ne (by omega)).trans (mem_store_ne (by omega))

theorem get_exited (hra : q ≠ .ra) (hfp : q ≠ .fp) (hsp : q ≠ .sp) : (c.exited f).get q = c.get q := by
  simp [exited, hra, hfp, hsp]

theorem entered_aligned (c : Core) (f : Frame) (hsp : 8 ∣ c.get .sp) : 8 ∣ (c.entered f).get .sp := by
  rw [get_sp_entered]
  unfold Frame.size frameBytes frameHeader slotSize
  omega

theorem entered_frame (c : Core) (f : Frame) {n : Nat} (hslots : f.slots = n) :
    (c.entered f).get .fp = (c.entered f).get .sp + frameBytes n := by
  rw [get_sp_entered, get_fp_entered, ← hslots]
  exact (Int.sub_add_cancel _ _).symm

end Core

section Sequences

variable {c : Core} {r : Register}

theorem effects?_push (hsp : 8 ∣ c.get .sp) (hr : r ≠ .sp) : effects? (push r) c = some (c.pushed r) := by
  have haddr : (c.set .sp (c.get .sp - 8)).get .sp + 0 = c.get .sp - 8 := by
    rw [Core.get_set_self (by decide), Int.add_zero]
  unfold push
  rw [effects?_addi, ← Int.sub_eq_add_neg, effects?_sd haddr (by omega), Core.get_set_ne hr]
  rfl

theorem effects?_pop (hsp : 8 ∣ c.get .sp) (hr : r ≠ .sp) : effects? (pop r) c = some (c.popped r) := by
  unfold pop
  rw [effects?_ld (Int.add_zero _) hsp, effects?_addi, Core.get_set_ne hr.symm]
  rfl

theorem effects?_prologue (f : Frame) (hsp : 8 ∣ c.get .sp) : effects? f.prologue c = some (c.entered f) := by
  have hself : (c.set .sp (c.get .sp - f.size)).get .sp = c.get .sp - f.size := Core.get_set_self (by decide)
  have hback : c.get .sp - f.size + f.size = c.get .sp := by omega
  unfold Frame.prologue
  rw [effects?_addi, ← Int.sub_eq_add_neg, effects?_sd (a := c.get .sp - 8) (by rw [hself]; omega) (by omega),
    effects?_sd (a := c.get .sp - 16) (by rw [Core.get_store, hself]; omega) (by omega), effects?_addi]
  simp only [Core.get_store, hself, hback]
  rw [Core.get_set_ne (by decide), Core.get_set_ne (by decide)]
  rfl

/-- The instructions that close a frame, up to the return. -/
theorem effects?_epilogue (f : Frame) (hsp : 8 ∣ c.get .sp) :
    effects? f.epilogue.dropLast c = some (c.exited f) := by
  have hsize : 8 ∣ f.size := by
    unfold Frame.size frameBytes frameHeader slotSize
    omega
  show effects? [.ld .ra (f.size - 8) .sp, .ld .fp (f.size - 16) .sp, .addi .sp .sp f.size] c = _
  rw [effects?_ld (a := c.get .sp + f.size - 8) (by omega) (by omega),
    effects?_ld (a := c.get .sp + f.size - 16) (by rw [Core.get_set_ne (by decide)]; omega) (by omega), effects?_addi,
    Core.get_set_ne (by decide), Core.get_set_ne (by decide)]
  rfl

end Sequences

end Machine

/-- **A call in progress**: the names that have slots in its frame, and the core when its body starts. -/
structure Activation where
  table : List String
  base : Core
  nodup : table.Nodup
  aligned : 8 ∣ base.get .sp
  frame : base.get .fp = base.get .sp + frameBytes table.length

namespace Activation

variable (A : Activation) {clean clean' : Prop} {σ : Store} {h h' : String → Option Register} {vs out : List Word}
  {w : Word} {c : Core} {r : Register} {x : String} {j k : Nat}

/-- The address of a slot. -/
def slot (k : Nat) : Int := A.base.get .fp + Frame.slotOffset k

theorem slot_aligned (k : Nat) : 8 ∣ A.slot k := by
  have hsp := A.aligned
  unfold slot Frame.slotOffset
  rw [A.frame]
  unfold frameBytes frameHeader slotSize
  omega

/-- Slots stand above the evaluation stack, and below the saved pointers. -/
theorem slot_bounds (hk : k < A.table.length) :
    A.base.get .sp ≤ A.slot k ∧ A.slot k + 24 ≤ A.base.get .fp := by
  unfold slot Frame.slotOffset
  rw [A.frame]
  unfold frameBytes frameHeader slotSize
  omega

theorem slot_inj (h : A.slot j = A.slot k) : j = k := by
  unfold slot Frame.slotOffset frameHeader slotSize at h
  omega

theorem lt_of_getElem? (hk : A.table[k]? = some x) : k < A.table.length := (List.getElem?_eq_some_iff.mp hk).1

theorem index_unique (hj : A.table[j]? = some x) (hk : A.table[k]? = some x) : j = k :=
  (List.getElem?_inj (A.lt_of_getElem? hj) A.nodup).mp (hj.trans hk.symm)

/-- **Variables are where they should be**: in the registers that hold them, and otherwise in their slots. If
    all are clean, they are in their slots in any case. -/
def Agrees (clean : Prop) (σ : Store) (h : String → Option Register) (c : Core) : Prop :=
  ∀ x w, σ x = some w → ∃ k, A.table[k]? = some x ∧
    (∀ r, h x = some r → r.isVolatile = true ∧ c.get r = w.toInt) ∧ (h x = none ∨ clean → c.mem (A.slot k) = w.toInt)

/-- **A call is running**, with the values `vs` on the evaluation stack and `out` printed. -/
structure Running (clean : Prop) (σ : Store) (h : String → Option Register) (vs out : List Word) (c : Core) :
    Prop where
  sp : c.get .sp = A.base.get .sp - 8 * vs.length
  stack : ∀ {i : Nat} {w : Word}, vs[i]? = some w → c.mem (c.get .sp + 8 * i) = w.toInt
  output : c.output = A.base.output ++ out.map BitVec.toInt
  kept : ∀ {r : Register}, r.isKept = true → c.get r = A.base.get r
  memory : ∀ {a}, A.base.get .sp ≤ a → (∀ k < A.table.length, a ≠ A.slot k) → c.mem a = A.base.mem a
  agrees : A.Agrees clean σ h c

namespace Running

variable {A}

theorem fp (hrun : A.Running clean σ h vs out c) : c.get .fp = A.base.get .fp := hrun.kept rfl

theorem sp_aligned (hrun : A.Running clean σ h vs out c) : 8 ∣ c.get .sp := by
  have hsp := A.aligned
  rw [hrun.sp]
  omega

theorem effects?_storeSlot (hrun : A.Running clean σ h vs out c) (r : Register) (k : Nat) :
    effects? [storeSlot r k] c = some (c.store (A.slot k) (c.get r)) :=
  effects?_sd (congrArg (· + Frame.slotOffset k) hrun.fp) (A.slot_aligned k)

theorem effects?_loadSlot (hrun : A.Running clean σ h vs out c) (r : Register) (k : Nat) :
    effects? [loadSlot r k] c = some (c.set r (c.mem (A.slot k))) :=
  effects?_ld (congrArg (· + Frame.slotOffset k) hrun.fp) (A.slot_aligned k)

/-! ## Changes of view -/

theorem congr (hrun : A.Running clean σ h vs out c) (heq : ∀ x, h' x = h x) : A.Running clean σ h' vs out c := by
  obtain rfl : h' = h := funext heq
  exact hrun

/-- Clean variables need no registers. -/
theorem drop (hrun : A.Running True σ h vs out c) : A.Running clean σ (fun _ => none) vs out c := by
  refine ⟨hrun.sp, hrun.stack, hrun.output, hrun.kept, hrun.memory, fun x w hw => ?_⟩
  obtain ⟨k, hk, _, hmem⟩ := hrun.agrees x w hw
  exact ⟨k, hk, fun r hr => absurd hr (by simp), fun _ => hmem (Or.inr trivial)⟩

/-- Variables that no register holds are clean. -/
theorem of_unheld (hrun : A.Running clean σ h vs out c) (hnone : ∀ x, h x = none) :
    A.Running clean' σ h vs out c := by
  refine ⟨hrun.sp, hrun.stack, hrun.output, hrun.kept, hrun.memory, fun x w hw => ?_⟩
  obtain ⟨k, hk, hreg, hmem⟩ := hrun.agrees x w hw
  exact ⟨k, hk, hreg, fun _ => hmem (Or.inl (hnone x))⟩

theorem forget (hrun : A.Running clean σ h vs out c) : A.Running False σ h vs out c := by
  refine ⟨hrun.sp, hrun.stack, hrun.output, hrun.kept, hrun.memory, fun x w hw => ?_⟩
  obtain ⟨k, hk, hreg, hmem⟩ := hrun.agrees x w hw
  exact ⟨k, hk, hreg, fun hor => hmem (hor.imp_right False.elim)⟩

/-! ## Registers -/

/-- A register that holds no variable is overwritten. -/
theorem set {y : Int} (hrun : A.Running clean σ h vs out c) (hr : r.isVolatile = true) (hfree : ∀ x, h x ≠ some r) :
    A.Running clean σ h vs out (c.set r y) := by
  have hsp : (c.set r y).get .sp = c.get .sp := Core.get_set_ne (Register.ne_of_isVolatile hr).2.symm
  refine ⟨hsp.trans hrun.sp, fun hw => ?_, hrun.output, fun hq => ?_, hrun.memory, fun x w hw => ?_⟩
  · rw [hsp]; exact hrun.stack hw
  · rw [Core.get_set_ne (Register.ne_of_isKept hq hr)]; exact hrun.kept hq
  · obtain ⟨k, hk, hreg, hmem⟩ := hrun.agrees x w hw
    refine ⟨k, hk, fun q hq => ⟨(hreg q hq).1, ?_⟩, hmem⟩
    have hne : q ≠ r := by rintro rfl; exact hfree x hq
    rw [Core.get_set_ne hne]
    exact (hreg q hq).2

/-- **A variable is assigned**: the register that holds it from now on has the value. -/
theorem assign (hrun : A.Running clean σ h vs out c) (hr : r.isVolatile = true) (hx : x ∈ A.table)
    (hfree : ∀ y, y ≠ x → h y ≠ some r) :
    A.Running False (σ.update x w) (fun y => if y = x then some r else h y) vs out (c.set r w.toInt) := by
  have hsp : (c.set r w.toInt).get .sp = c.get .sp := Core.get_set_ne (Register.ne_of_isVolatile hr).2.symm
  refine ⟨hsp.trans hrun.sp, fun hw => ?_, hrun.output, fun hq => ?_, hrun.memory, fun y z hz => ?_⟩
  · rw [hsp]; exact hrun.stack hw
  · rw [Core.get_set_ne (Register.ne_of_isKept hq hr)]; exact hrun.kept hq
  · by_cases hy : y = x
    · subst hy
      obtain ⟨k, hk⟩ := List.mem_iff_getElem?.mp hx
      have hz : some w = some z := (if_pos rfl).symm.trans hz
      refine ⟨k, hk, fun q hq => ?_, fun hor => ?_⟩
      · have hq : some r = some q := (if_pos rfl).symm.trans hq
        rw [← Option.some.inj hq, ← Option.some.inj hz]
        exact ⟨hr, Core.get_set_self (Register.ne_of_isVolatile hr).1⟩
      · rcases hor with hnone | hfalse
        · exact absurd ((if_pos rfl).symm.trans hnone) (Option.some_ne_none r)
        · exact hfalse.elim
    · have hz : σ y = some z := (if_neg hy).symm.trans hz
      obtain ⟨k, hk, hreg, hmem⟩ := hrun.forget.agrees y z hz
      simp only [if_neg hy]
      refine ⟨k, hk, fun q hq => ⟨(hreg q hq).1, ?_⟩, hmem⟩
      have hne : q ≠ r := by rintro rfl; exact hfree y hy hq
      rw [Core.get_set_ne hne]
      exact (hreg q hq).2

/-! ## The frame -/

/-- **A variable goes to its slot.** -/
theorem save (hrun : A.Running clean σ h vs out c) (hk : A.table[k]? = some x) (hx : h x = some r) :
    A.Running clean σ (fun y => if y = x then none else h y) vs out (c.store (A.slot k) (c.get r)) := by
  have hbounds := A.slot_bounds (A.lt_of_getElem? hk)
  refine ⟨hrun.sp, fun {i w} hw => ?_, hrun.output, hrun.kept, fun ha hne => ?_, fun y w hw => ?_⟩
  · -- the evaluation stack is below the frame
    have hi := (List.getElem?_eq_some_iff.mp hw).1
    have hsp := hrun.sp
    rw [Core.mem_store_ne (by rw [Core.get_store]; omega)]
    exact hrun.stack hw
  · rw [Core.mem_store_ne (hne k (A.lt_of_getElem? hk))]
    exact hrun.memory ha hne
  · obtain ⟨j, hj, hreg, hmem⟩ := hrun.agrees y w hw
    refine ⟨j, hj, fun q hq => ?_, fun hor => ?_⟩
    · by_cases hy : y = x
      · rw [if_pos hy] at hq; exact absurd hq (by simp)
      · rw [if_neg hy] at hq; exact hreg q hq
    · by_cases hy : y = x
      · subst hy
        rw [A.index_unique hj hk, Core.mem_store_self]
        exact (hreg r hx).2
      · rw [if_neg hy] at hor
        have hne : A.slot j ≠ A.slot k := by
          intro he
          obtain rfl := A.slot_inj he
          exact hy (Option.some.inj (hj.symm.trans hk))
        rw [Core.mem_store_ne hne]
        exact hmem hor

/-- **A variable comes from its slot.** -/
theorem load (hrun : A.Running clean σ h vs out c) (hr : r.isVolatile = true) (hk : A.table[k]? = some x)
    (hx : h x = none) (hfree : ∀ y, h y ≠ some r) :
    A.Running clean σ (fun y => if y = x then some r else h y) vs out (c.set r (c.mem (A.slot k))) := by
  have hset := hrun.set (y := c.mem (A.slot k)) hr hfree
  refine ⟨hset.sp, hset.stack, hset.output, hset.kept, hset.memory, fun y w hw => ?_⟩
  obtain ⟨j, hj, hreg, hmem⟩ := hset.agrees y w hw
  by_cases hy : y = x
  · subst hy
    refine ⟨j, hj, fun q hq => ?_, fun _ => hmem (Or.inl hx)⟩
    rw [if_pos rfl] at hq
    rw [← Option.some.inj hq, Core.get_set_self (Register.ne_of_isVolatile hr).1, ← A.index_unique hj hk]
    exact ⟨hr, hmem (Or.inl hx)⟩
  · simp only [if_neg hy]
    exact ⟨j, hj, hreg, hmem⟩

/-! ## The evaluation stack -/

/-- A value is put on the stack. -/
theorem push (hrun : A.Running clean σ h vs out c) (hw : c.get r = w.toInt) :
    A.Running clean σ h (w :: vs) out (c.pushed r) := by
  have hsp := hrun.sp
  refine ⟨?_, fun {i z} hz => ?_, hrun.output, fun {q} hq => ?_, fun ha hne => ?_, fun x z hz => ?_⟩
  · rw [Core.get_sp_pushed, List.length_cons]; omega
  · rw [Core.get_sp_pushed]
    cases i with
    | zero =>
        obtain rfl : w = z := by simpa using hz
        have hzero : c.get .sp - 8 + 8 * ((0 : Nat) : Int) = c.get .sp - 8 := by omega
        rw [hzero]
        exact Core.mem_pushed_self.trans hw
    | succ i =>
        have hsucc : c.get .sp - 8 + 8 * ((i + 1 : Nat) : Int) = c.get .sp + 8 * i := by omega
        rw [hsucc, Core.mem_pushed (by omega)]
        exact hrun.stack (by simpa using hz)
  · rw [Core.get_pushed (by rintro rfl; exact absurd hq (by decide))]
    exact hrun.kept hq
  · rw [Core.mem_pushed (by omega)]
    exact hrun.memory ha hne
  · -- slots lie above the evaluation stack
    obtain ⟨k, hk, hreg, hmem⟩ := hrun.agrees x z hz
    have hbounds := A.slot_bounds (A.lt_of_getElem? hk)
    refine ⟨k, hk, fun q hq => ?_, fun hor => ?_⟩
    · rw [Core.get_pushed (Register.ne_of_isVolatile (hreg q hq).1).2]
      exact hreg q hq
    · rw [Core.mem_pushed (by omega)]
      exact hmem hor

theorem top (hrun : A.Running clean σ h (w :: vs) out c) : c.mem (c.get .sp) = w.toInt := by
  simpa using hrun.stack (i := 0) rfl

/-- The top of the stack is given up. -/
theorem raise (hrun : A.Running clean σ h (w :: vs) out c) :
    A.Running clean σ h vs out (c.set .sp (c.get .sp + 8)) := by
  have hsp := hrun.sp
  rw [List.length_cons] at hsp
  have hself : (c.set .sp (c.get .sp + 8)).get .sp = c.get .sp + 8 := Core.get_set_self (by decide)
  refine ⟨?_, fun {i z} hz => ?_, hrun.output, fun {q} hq => ?_, hrun.memory, fun x z hz => ?_⟩
  · rw [hself]; omega
  · have hstack := hrun.stack (i := i + 1) (by simpa using hz)
    have haddr : c.get .sp + 8 * ((i + 1 : Nat) : Int) = c.get .sp + 8 + 8 * i := by omega
    rw [hself, ← haddr]
    exact hstack
  · rw [Core.get_set_ne (by rintro rfl; exact absurd hq (by decide))]
    exact hrun.kept hq
  · obtain ⟨k, hk, hreg, hmem⟩ := hrun.agrees x z hz
    refine ⟨k, hk, fun q hq => ?_, hmem⟩
    rw [Core.get_set_ne (Register.ne_of_isVolatile (hreg q hq).1).2]
    exact hreg q hq

/-- The top of the stack is taken into a register that holds no variable. -/
theorem pop (hrun : A.Running clean σ h (w :: vs) out c) (hr : r.isVolatile = true) (hfree : ∀ x, h x ≠ some r) :
    A.Running clean σ h vs out (c.popped r) := by
  have hsp : (c.set r (c.mem (c.get .sp))).get .sp = c.get .sp :=
    Core.get_set_ne (Register.ne_of_isVolatile hr).2.symm
  have hraised := (hrun.set (y := c.mem (c.get .sp)) hr hfree).raise
  rw [hsp] at hraised
  exact hraised

theorem get_popped (hrun : A.Running clean σ h (w :: vs) out c) (hr : r.isVolatile = true) :
    (c.popped r).get r = w.toInt := by
  obtain ⟨hzero, hsp⟩ := Register.ne_of_isVolatile hr
  unfold Core.popped
  rw [Core.get_set_ne hsp, Core.get_set_self hzero]
  exact hrun.top

/-- **The top of the stack becomes the value of a variable.** -/
theorem popAssign (hrun : A.Running clean σ h (w :: vs) out c) (hr : r.isVolatile = true) (hx : x ∈ A.table)
    (hfree : ∀ y, y ≠ x → h y ≠ some r) :
    A.Running False (σ.update x w) (fun y => if y = x then some r else h y) vs out (c.popped r) := by
  have hsp : (c.set r w.toInt).get .sp = c.get .sp := Core.get_set_ne (Register.ne_of_isVolatile hr).2.symm
  have hraised := (hrun.assign (w := w) hr hx hfree).raise
  rw [hsp, ← hrun.top] at hraised
  exact hraised

/-- Values are taken off the stack into registers, when none holds a variable. -/
theorem pops (rs : List Register) {args : List Word} (hlen : rs.length = args.length)
    (hrun : A.Running clean σ h (args ++ vs) out c) (hnone : ∀ x, h x = none)
    (hvolatile : ∀ r ∈ rs, r.isVolatile = true) (hnodup : rs.Nodup) :
    ∃ d, effects? (rs.flatMap Machine.pop) c = some d ∧ A.Running clean σ h vs out d ∧
      (∀ q, q ∉ rs → q ≠ .sp → d.get q = c.get q) ∧
      ∀ {i : Nat} {r : Register} {w : Word}, rs[i]? = some r → args[i]? = some w → d.get r = w.toInt := by
  induction rs generalizing args c with
  | nil =>
      obtain rfl : args = [] := List.length_eq_zero_iff.mp hlen.symm
      exact ⟨c, rfl, hrun, fun _ _ _ => rfl, fun hr => absurd hr (by simp)⟩
  | cons r rest ih =>
      cases args with
      | nil => exact absurd hlen (by simp)
      | cons w args =>
          have hr := hvolatile r List.mem_cons_self
          obtain ⟨hnot, hnodup⟩ := List.nodup_cons.mp hnodup
          have hpop := effects?_pop hrun.sp_aligned (Register.ne_of_isVolatile hr).2
          have hfree : ∀ x, h x ≠ some r := fun x => by rw [hnone x]; simp
          obtain ⟨d, hd, hrun', hsame, hargs⟩ := ih (by simpa using hlen) (hrun.pop hr hfree)
            (fun q hq => hvolatile q (List.mem_cons_of_mem r hq)) hnodup
          -- the pops that follow write other registers, so the first value stays where it is
          have hfirst := (hsame r hnot (Register.ne_of_isVolatile hr).2).trans (hrun.get_popped hr)
          refine ⟨d, ?_, hrun', fun q hq hqsp => ?_, fun {i q z} hq hz => ?_⟩
          · rw [List.flatMap_cons, effects?_append, hpop]
            exact hd
          · have hne : q ≠ r := by rintro rfl; exact hq List.mem_cons_self
            rw [hsame q (fun hmem => hq (List.mem_cons_of_mem r hmem)) hqsp]
            unfold Core.popped
            rw [Core.get_set_ne hqsp, Core.get_set_ne hne]
          · cases i with
            | zero =>
                obtain rfl : r = q := by simpa using hq
                obtain rfl : w = z := by simpa using hz
                exact hfirst
            | succ i => exact hargs (by simpa using hq) (by simpa using hz)

/-! ## Calls -/

/-- The printing routine appends `a1` to the output. -/
theorem print {P : Image} (hrun : A.Running clean σ h vs out c) (hnone : ∀ x, h x = none)
    (hw : c.get .a1 = w.toInt) : A.Running clean σ h vs (out ++ [w]) (P.print c) := by
  have hkept : ∀ {r : Register}, r.isKept = true → (P.print c).get r = c.get r := fun {r} hr =>
    Image.get_print (by revert hr; cases r <;> decide) (by rintro rfl; exact absurd hr (by decide))
  have hsp : (P.print c).get .sp = c.get .sp := Image.get_print (by decide) (by decide)
  refine ⟨hsp.trans hrun.sp, fun hz => ?_, ?_, fun hr => (hkept hr).trans (hrun.kept hr), hrun.memory,
    fun x z hz => ?_⟩
  · rw [hsp]; exact hrun.stack hz
  · show c.output ++ [c.get .a1] = _
    rw [hrun.output, hw]
    simp
  · obtain ⟨k, hk, _, hmem⟩ := hrun.agrees x z hz
    exact ⟨k, hk, fun r hr => absurd ((hnone x).symm.trans hr) (by simp), hmem⟩

/-- A call that came back left everything of its caller as it was. -/
theorem returned {d : Core} {v : Word} {o : List Word} (hrun : A.Running clean σ h vs out c)
    (hnone : ∀ x, h x = none) (hret : Returned v o c d) : A.Running clean σ h vs (out ++ o) d := by
  have hsp := hrun.sp
  refine ⟨hret.sp.trans hrun.sp, fun {i z} hz => ?_, ?_, fun hr => (hret.kept hr).trans (hrun.kept hr),
    fun ha hne => ?_, fun x z hz => ?_⟩
  · rw [hret.sp, hret.memory (by omega)]; exact hrun.stack hz
  · rw [hret.output, hrun.output]; simp
  · rw [hret.memory (by omega)]; exact hrun.memory ha hne
  · obtain ⟨k, hk, _, hmem⟩ := hrun.agrees x z hz
    have hbounds := A.slot_bounds (A.lt_of_getElem? hk)
    refine ⟨k, hk, fun r hr => absurd ((hnone x).symm.trans hr) (by simp), fun hor => ?_⟩
    rw [hret.memory (by omega)]
    exact hmem hor

end Running

/-! ## The start and the end of a call -/

/-- **The call that starts** when a frame is opened for the given names. -/
def ofCall (c : Core) (f : Frame) (table : List String) (hnodup : table.Nodup) (hslots : f.slots = table.length)
    (hsp : 8 ∣ c.get .sp) : Activation where
  table := table
  base := c.entered f
  nodup := hnodup
  aligned := c.entered_aligned f hsp
  frame := c.entered_frame f hslots

/-- **A call starts running** with its arguments in the registers of its parameters. -/
theorem running_ofCall {f : Frame} {table params : List String} {args : List Word} (hnodup : table.Nodup)
    (hslots : f.slots = table.length) (hsp : 8 ∣ c.get .sp) (htable : params <+: table) (hargs : Passed args c)
    (hholder : ∀ {k : Nat} {x : String}, params[k]? = some x →
      ∃ r, RegisterClass.argument.members[k]? = some r ∧ h x = some r) :
    (ofCall c f table hnodup hslots hsp).Running False (.ofParams params args) h [] [] (c.entered f) := by
  refine ⟨(Int.sub_zero _).symm, fun hz => absurd hz (by simp), (List.append_nil _).symm, fun _ => rfl, fun _ _ => rfl,
    fun x w hw => ?_⟩
  obtain ⟨k, hk, hz⟩ := Store.exists_of_ofParams hw
  obtain ⟨r, hr, hx⟩ := hholder hk
  have hclass := RegisterClass.mem_members_iff.mp (List.mem_of_getElem? hr)
  refine ⟨k, getElem?_of_extends htable hk, fun q hq => ?_, fun hor => ?_⟩
  · -- the register of a parameter is neither of those that opening a frame writes
    obtain rfl : r = q := Option.some.inj (hx.symm.trans hq)
    refine ⟨by revert hclass; cases r <;> decide, ?_⟩
    rw [Core.get_entered (by rintro rfl; exact absurd hclass (by decide))
      (by rintro rfl; exact absurd hclass (by decide))]
    exact hargs hr hz
  · rw [hx] at hor
    exact absurd hor (by simp)

/-- **The body of a call is finished**, and all that is left is to return. -/
structure Finished (v : Word) (out : List Word) (d : Core) : Prop where
  result : d.get .a0 = v.toInt
  ra : d.get .ra = A.base.mem (A.base.get .fp - 8)
  sp : d.get .sp = A.base.get .fp
  fp : d.get .fp = A.base.mem (A.base.get .fp - 16)
  kept : ∀ {r : Register}, r.isKept = true → r ≠ .fp → d.get r = A.base.get r
  output : d.output = A.base.output ++ out.map BitVec.toInt
  memory : ∀ {a}, A.base.get .fp ≤ a → d.mem a = A.base.mem a

variable {A}

/-- Closing the frame finishes a call. -/
theorem Running.finished {f : Frame} {v : Word} (hrun : A.Running clean σ h [] out c) (hslots : f.slots = A.table.length)
    (hv : c.get .a0 = v.toInt) : A.Finished v out (c.exited f) := by
  have hsize : c.get .sp + f.size = A.base.get .fp := by
    rw [hrun.sp, A.frame, ← hslots]
    exact congrArg (· + f.size) (Int.sub_zero _)
  -- what stands above the slots was not touched
  have habove : ∀ {a}, A.base.get .fp - 16 ≤ a → c.mem a = A.base.mem a := by
    intro a ha
    have hframe := A.frame
    unfold frameBytes frameHeader at hframe
    refine hrun.memory (by omega) fun k hk => ?_
    have hbounds := A.slot_bounds hk
    omega
  refine ⟨?_, ?_, ?_, ?_, fun {r} hr hfp => ?_, hrun.output, fun ha => habove (by omega)⟩
  · exact hv
  · exact (congrArg (fun a => c.mem (a - 8)) hsize).trans (habove (by omega))
  · exact hsize
  · exact (congrArg (fun a => c.mem (a - 16)) hsize).trans (habove (by omega))
  · rw [Core.get_exited (Register.ne_of_isKept hr (by decide)) hfp (by rintro rfl; exact absurd hr (by decide))]
    exact hrun.kept hr

/-- A call that is finished has come back to its caller. -/
theorem Finished.returned {f : Frame} {table : List String} {hnodup : table.Nodup} {hslots : f.slots = table.length}
    {hsp : 8 ∣ c.get .sp} {v : Word} {d : Core} (hd : (ofCall c f table hnodup hslots hsp).Finished v out d) :
    Returned v out c d := by
  have hfp : (c.entered f).get .fp = c.get .sp := Core.get_fp_entered
  refine ⟨hd.result, ?_, hd.sp.trans hfp, fun {r} hr => ?_, hd.output, fun {a} ha => ?_⟩
  · rw [hd.ra]
    show (c.entered f).mem ((c.entered f).get .fp - 8) = _
    rw [hfp, Core.mem_entered_ra]
  · by_cases hne : r = .fp
    · subst hne
      rw [hd.fp]
      show (c.entered f).mem ((c.entered f).get .fp - 16) = _
      rw [hfp, Core.mem_entered_fp]
    · rw [hd.kept hr hne]
      exact Core.get_entered (by rintro rfl; exact absurd hr (by decide)) hne
  · rw [hd.memory (show (c.entered f).get .fp ≤ a by rw [hfp]; exact ha)]
    exact Core.mem_entered ha

end Activation

end Offside
