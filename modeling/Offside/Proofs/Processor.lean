import Mathlib.Logic.Relation
import Offside.Proofs.Evaluation
import Offside.Proofs.Progress

/-!
# `Proofs.Processor` — what assembly does

An RV64 processor that runs lines of assembly, one a step. Registers hold integers, and addresses are not
cut off, so the stack has no end; arithmetic cuts its results to 64 bits. Words are read and written at
multiples of eight only. The routine that prints appends `a1` to the output and leaves what it likes in the
registers that a call may overwrite.

Code generation adds lines at the end, so the code of a straight move runs from the end of the lines before
it to the end of the lines after it (`Does.reaches`), and a jump to a label goes to the one line that places
it (`Image.goto_label`).
-/

namespace Offside

namespace Machine

/-! ## Operations -/

/-- The result of an operation on words. -/
def AluOp.eval : AluOp → Word → Word → Word
  | .add, x, y => x + y
  | .sub, x, y => x - y
  | .mul, x, y => x * y
  | .div, x, y => if y = 0 then -1 else x.sdiv y
  | .rem, x, y => if y = 0 then x else x.srem y
  | .and, x, y => x &&& y
  | .or, x, y => x ||| y
  | .xor, x, y => x ^^^ y
  | .sll, x, y => x <<< (y.toNat % 64)
  | .sra, x, y => x.sshiftRight (y.toNat % 64)

/-- The branch is taken. -/
def BranchTest.holds : BranchTest → Int → Int → Bool
  | .eq, x, y => x = y
  | .ne, x, y => x ≠ y
  | .lt, x, y => x < y
  | .le, x, y => x ≤ y
  | .gt, x, y => x > y
  | .ge, x, y => x ≥ y

/-! ## The processor -/

/-- What a program works with: registers, memory and output. -/
structure Core where
  regs : Register → Int
  mem : Int → Int
  output : List Int

namespace Core

/-- The value of a register. -/
def get (c : Core) (r : Register) : Int := if r = .zero then 0 else c.regs r

def set (c : Core) (r : Register) (x : Int) : Core := { c with regs := fun q => if q = r then x else c.regs q }

def store (c : Core) (a x : Int) : Core := { c with mem := fun b => if b = a then x else c.mem b }

variable {c : Core} {r q : Register} {a x : Int}

@[simp] theorem get_set_self (h : r ≠ .zero) : (c.set r x).get r = x := by simp [get, set, h]

@[simp] theorem get_set_ne (h : q ≠ r) : (c.set r x).get q = c.get q := by simp [get, set, h]

@[simp] theorem mem_set : (c.set r x).mem = c.mem := rfl

@[simp] theorem output_set : (c.set r x).output = c.output := rfl

@[simp] theorem get_store : (c.store a x).get q = c.get q := rfl

@[simp] theorem mem_store_self : (c.store a x).mem a = x := if_pos rfl

@[simp] theorem mem_store_ne {b : Int} (h : b ≠ a) : (c.store a x).mem b = c.mem b := if_neg h

@[simp] theorem output_store : (c.store a x).output = c.output := rfl

end Core

/-- What an instruction does to registers and memory; nothing, if it leads elsewhere or fails. -/
def Instr.effect? : Instr → Core → Option Core
  | .alu op rd rs1 rs2, c =>
    some (c.set rd (op.eval (BitVec.ofInt 64 (c.get rs1)) (BitVec.ofInt 64 (c.get rs2))).toInt)
  | .addi rd rs imm, c => some (c.set rd (c.get rs + imm))
  | .neg rd rs, c => some (c.set rd (-BitVec.ofInt 64 (c.get rs)).toInt)
  | .not rd rs, c => some (c.set rd (~~~BitVec.ofInt 64 (c.get rs)).toInt)
  | .ld rd offset base, c =>
    if 8 ∣ c.get base + offset then some (c.set rd (c.mem (c.get base + offset))) else none
  | .sd rs offset base, c =>
    if 8 ∣ c.get base + offset then some (c.store (c.get base + offset) (c.get rs)) else none
  | .li rd imm, c => some (c.set rd imm.toInt)
  | .la rd _, c => some (c.set rd 0)
  | .branch _ _ _ _, _ | .beqz _ _, _ | .jump _, _ | .call _, _ | .ret, _ => none

/-- What instructions do one after the other. -/
def effects? : List Instr → Core → Option Core
  | [], c => some c
  | i :: is, c => (i.effect? c).bind (effects? is)

/-- The last line that places a label. -/
def target? (label : String) : List Line → Option Nat
  | [] => none
  | line :: rest =>
    match target? label rest with
    | some k => some (k + 1)
    | none => if line = .label label then some 0 else none

/-- A program in memory, and what the printing routine leaves in registers. -/
structure Image where
  code : List Line
  scratch : Core → Register → Int

/-- A processor: the line it is at, and what it works with. -/
structure Processor where
  pc : Nat
  core : Core

namespace Image

variable (P : Image)

/-- Control goes to a label. -/
def goto? (label : String) (c : Core) : Option Processor := (target? label P.code).map (⟨·, c⟩)

/-- The printing routine. -/
def print (c : Core) : Core where
  regs r := if r = .a0 then 0 else if r.isCallerClobbered then P.scratch c r else c.regs r
  mem := c.mem
  output := c.output ++ [c.get .a1]

/-- An instruction, with the line that follows it. -/
def execute (next : Nat) (c : Core) : Instr → Option Processor
  | .branch test rs1 rs2 label => if test.holds (c.get rs1) (c.get rs2) then P.goto? label c else some ⟨next, c⟩
  | .beqz rs label => if c.get rs = 0 then P.goto? label c else some ⟨next, c⟩
  | .jump label => P.goto? label c
  | .call label => if label = Lower.printRoutine then some ⟨next, P.print c⟩ else P.goto? label (c.set .ra next)
  | .ret => if 0 ≤ c.get .ra then some ⟨(c.get .ra).toNat, c⟩ else none
  | i => (i.effect? c).map (⟨next, ·⟩)

/-- One step. Labels, comments and directives do nothing. -/
def step (M : Processor) : Option Processor :=
  match P.code[M.pc]? with
  | none => none
  | some (.instr i) => P.execute (M.pc + 1) M.core i
  | some _ => some ⟨M.pc + 1, M.core⟩

/-- Any number of steps. -/
def Reaches : Processor → Processor → Prop := Relation.ReflTransGen fun M M' => P.step M = some M'

/-- The lines generated so far are in the program. -/
def Holds (s : Lower.State) : Prop := s.code.toList <+: P.code

/-- **Labels mean one line**, and none is taken for the printing routine. -/
structure Labelled : Prop where
  nodup : (labelNames P.code).Nodup
  print_not_mem : Lower.printRoutine ∉ labelNames P.code

variable {P : Image} {M M' M'' : Processor} {c c' : Core} {label : String} {k : Nat}

theorem Reaches.refl (M : Processor) : P.Reaches M M := Relation.ReflTransGen.refl

theorem Reaches.trans (h : P.Reaches M M') (h' : P.Reaches M' M'') : P.Reaches M M'' :=
  Relation.ReflTransGen.trans h h'

theorem reaches_of_step (h : P.step M = some M') : P.Reaches M M' := Relation.ReflTransGen.single h

theorem step_instr {i : Instr} (hk : P.code[k]? = some (.instr i)) : P.step ⟨k, c⟩ = P.execute (k + 1) c i := by
  unfold step
  rw [hk]

/-- An instruction that leads on to the next line. -/
theorem execute_of_effect? {i : Instr} (h : i.effect? c = some c') : P.execute k c i = some ⟨k, c'⟩ := by
  cases i <;> first
    | exact congrArg (Option.map (Processor.mk k)) h
    | exact absurd h (Option.some_ne_none c').symm

end Image

/-! ## Runs of lines -/

section Effects

variable {is : List Instr} {c : Core} {r q : Register} {offset : Int}

theorem effects?_addi : effects? (.addi r q offset :: is) c = effects? is (c.set r (c.get q + offset)) := rfl

theorem effects?_ld {a : Int} (ha : c.get q + offset = a) (haligned : 8 ∣ a) :
    effects? (.ld r offset q :: is) c = effects? is (c.set r (c.mem a)) := by
  subst ha
  exact congrArg (Option.bind · (effects? is)) (if_pos haligned)

theorem effects?_sd {a : Int} (ha : c.get q + offset = a) (haligned : 8 ∣ a) :
    effects? (.sd r offset q :: is) c = effects? is (c.store a (c.get r)) := by
  subst ha
  exact congrArg (Option.bind · (effects? is)) (if_pos haligned)

end Effects

theorem effects?_append (is is' : List Instr) (c : Core) :
    effects? (is ++ is') c = (effects? is c).bind (effects? is') := by
  induction is generalizing c with
  | nil => rfl
  | cons i rest ih =>
      show (i.effect? c).bind (effects? (rest ++ is')) = ((i.effect? c).bind (effects? rest)).bind (effects? is')
      cases i.effect? c with
      | none => rfl
      | some d => exact ih d

/-- The line that stands first after others. -/
theorem getElem?_length_of_extends {front code : List Line} {l : Line} (new : List Line) (h : front ++ l :: new <+: code) :
    code[front.length]? = some l := by
  obtain ⟨rest, rfl⟩ := h
  simp

section Lines

variable {P : Image} {c c' : Core}

/-- **Lines run from their first to the line after them**, if those that are not comments are instructions
    that lead on. -/
theorem Image.reaches_lines (is : List Instr) {front new : List Line} (hcode : front ++ new <+: P.code)
    (hlines : new.filter (fun l => !l.isComment) = is.map Line.instr) (heffect : effects? is c = some c') :
    P.Reaches ⟨front.length, c⟩ ⟨(front ++ new).length, c'⟩ := by
  induction new generalizing front is c with
  | nil =>
      obtain rfl : is = [] := List.map_eq_nil_iff.mp hlines.symm
      obtain rfl := Option.some.inj heffect
      rw [List.append_nil]
      exact .refl _
  | cons l new ih =>
      have hget := getElem?_length_of_extends _ hcode
      have hrest : front ++ [l] ++ new <+: P.code := by simpa using hcode
      have hlength : (front ++ l :: new).length = (front ++ [l] ++ new).length := by simp
      have hnext : (front ++ [l]).length = front.length + 1 := by simp
      rw [hlength]
      by_cases hcomment : l.isComment = true
      · -- a comment does nothing
        rw [List.filter_cons_of_neg (by simpa using hcomment)] at hlines
        refine (reaches_of_step ?_).trans (hnext ▸ ih _ hrest hlines heffect)
        unfold step
        rw [hget]
        cases l with
        | comment text => rfl
        | instr i => exact absurd hcomment Bool.false_ne_true
        | directive d => exact absurd hcomment Bool.false_ne_true
        | label name => exact absurd hcomment Bool.false_ne_true
      · rw [List.filter_cons_of_pos (by simpa using hcomment)] at hlines
        cases is with
        | nil => exact absurd hlines (by simp)
        | cons i is =>
            obtain ⟨rfl, hlines'⟩ := List.cons.inj hlines
            obtain ⟨d, hd, heffect⟩ := Option.bind_eq_some_iff.mp heffect
            refine (reaches_of_step ?_).trans (hnext ▸ ih _ hrest hlines' heffect)
            rw [step_instr hget]
            exact execute_of_effect? hd

end Lines

end Machine

namespace Lower

open Machine

variable {P : Image} {s t : State} {is : List Instr} {p : Pool} {a : Arena} {c c' : Core}

/-- **A straight move runs** from where its lines start to where they end. -/
theorem Does.reaches (h : Does is p a s t) (ht : P.Holds t) (heffect : effects? is c = some c') :
    P.Reaches ⟨s.code.size, c⟩ ⟨t.code.size, c'⟩ := by
  obtain ⟨new, hnew, hlines⟩ := h.lines
  unfold Image.Holds at ht
  rw [hnew] at ht
  have hreach := Image.reaches_lines _ ht hlines heffect
  rw [← hnew] at hreach
  simpa using hreach

/-- **The line of a last instruction**: control comes to it when those before it are done, and goes on from
    the line after it. -/
theorem Does.exists_line (is : List Instr) {i : Instr} (h : Does (is ++ [i]) p a s t) (ht : P.Holds t) :
    ∃ k, P.code[k]? = some (.instr i) ∧
      (∀ {c c'}, effects? is c = some c' → P.Reaches ⟨s.code.size, c⟩ ⟨k, c'⟩) ∧
      ∀ c, P.Reaches ⟨k + 1, c⟩ ⟨t.code.size, c⟩ := by
  obtain ⟨new, hnew, hlines⟩ := h.lines
  rw [List.map_append, List.map_singleton] at hlines
  obtain ⟨front, new₂, rfl, hfront, hlines₂⟩ := List.filter_eq_append_iff.mp hlines
  obtain ⟨before, after, rfl, hbefore, _, hafter⟩ := List.filter_eq_cons_iff.mp hlines₂
  unfold Image.Holds at ht
  rw [hnew] at ht
  have hsize : t.code.size = (s.code.toList ++ (front ++ before) ++ [Line.instr i] ++ after).length := by
    rw [← Array.length_toList, hnew]; simp
  refine ⟨(s.code.toList ++ (front ++ before)).length,
    getElem?_length_of_extends after (by simpa using ht), fun heffect => ?_, fun c => ?_⟩
  · -- up to the instruction: those before it, and comments
    have hcode : s.code.toList ++ (front ++ before) <+: P.code := List.IsPrefix.trans (by simp) ht
    have hreach := Image.reaches_lines _ hcode
      (by rw [List.filter_append, hfront, List.filter_eq_nil_iff.mpr hbefore, List.append_nil]) heffect
    simpa using hreach
  · have hcode : s.code.toList ++ (front ++ before) ++ [Line.instr i] ++ after <+: P.code := by simpa using ht
    have hreach := Image.reaches_lines (c := c) [] hcode hafter rfl
    rw [hsize]
    simpa [Nat.add_assoc] using hreach

end Lower

/-! ## Labels and jumps -/

namespace Machine

theorem target?_eq_none {label : String} {code : List Line} (h : label ∉ labelNames code) :
    target? label code = none := by
  induction code with
  | nil => rfl
  | cons line rest ih =>
      have hrest : label ∉ labelNames rest := fun hmem => h (by
        unfold labelNames at hmem ⊢
        rw [List.filterMap_cons]
        split
        · exact hmem
        · exact List.mem_cons_of_mem _ hmem)
      have hline : line ≠ .label label := by
        rintro rfl
        exact h List.mem_cons_self
      unfold target?
      rw [ih hrest]
      exact if_neg hline

/-- **A label that is placed once** is found there. -/
theorem target?_eq_some {label : String} {code : List Line} {k : Nat} (hnodup : (labelNames code).Nodup)
    (hk : code[k]? = some (.label label)) : target? label code = some k := by
  induction code generalizing k with
  | nil => exact absurd hk (by simp)
  | cons line rest ih =>
      cases k with
      | zero =>
          obtain rfl : line = .label label := by simpa using hk
          have hrest : label ∉ labelNames rest := (List.nodup_cons.mp hnodup).1
          unfold target?
          rw [target?_eq_none hrest]
          exact if_pos rfl
      | succ k =>
          have hrest : (labelNames rest).Nodup := by
            unfold labelNames at hnodup ⊢
            rw [List.filterMap_cons] at hnodup
            split at hnodup
            · exact hnodup
            · exact (List.nodup_cons.mp hnodup).2
          unfold target?
          rw [ih hrest (by simpa using hk)]

namespace Image

variable {P : Image} {s t : Lower.State} {c : Core} {label : String} {k n : Nat}

theorem Holds.of_extends (ht : P.Holds t) (h : s.code.toList <+: t.code.toList) : P.Holds s := h.trans ht

/-- The line of a label that was placed. -/
theorem Holds.getElem?_label (h : P.Holds (s.place label)) :
    P.code[s.code.size]? = some (.label label) := by
  unfold Holds Lower.State.place at h
  rw [Array.toList_push] at h
  have hget := getElem?_length_of_extends _ h
  rwa [Array.length_toList] at hget

theorem reaches_label (hk : P.code[k]? = some (.label label)) (c : Core) : P.Reaches ⟨k, c⟩ ⟨k + 1, c⟩ := by
  refine reaches_of_step ?_
  unfold step
  rw [hk]

theorem goto?_label (hP : P.Labelled) (hk : P.code[k]? = some (.label label)) (c : Core) :
    P.goto? label c = some ⟨k, c⟩ := by
  unfold goto?
  rw [target?_eq_some hP.nodup hk]
  rfl

theorem Labelled.ne_print (hP : P.Labelled) (hk : P.code[k]? = some (.label label)) : label ≠ Lower.printRoutine := by
  rintro rfl
  exact hP.print_not_mem (List.mem_filterMap.mpr ⟨_, List.mem_of_getElem? hk, rfl⟩)

/-- A return to a line of the program. -/
theorem reaches_ret (hk : P.code[k]? = some (.instr .ret)) (hra : c.get .ra = n) : P.Reaches ⟨k, c⟩ ⟨n, c⟩ := by
  refine reaches_of_step ?_
  rw [step_instr hk]
  unfold execute
  rw [hra, if_pos (Int.natCast_nonneg n), Int.toNat_natCast]

/-- Printing leaves the registers alone that a call keeps. -/
theorem get_print {r : Register} (hr : r.isCallerClobbered = false) (ha0 : r ≠ .a0) :
    (P.print c).get r = c.get r := by
  unfold Core.get print
  simp [hr, ha0]

end Image

end Machine

namespace Lower

open Machine

variable {P : Image} {s t : State} {p : Pool} {a : Arena} {c : Core} {r : Register} {label : String} {k : Nat}

/-- A jump goes to the line after its label. -/
theorem Does.jumps (h : Does [.jump label] p a s t) (ht : P.Holds t) (hP : P.Labelled)
    (hk : P.code[k]? = some (.label label)) (c : Core) : P.Reaches ⟨s.code.size, c⟩ ⟨k + 1, c⟩ := by
  obtain ⟨j, hj, hbefore, _⟩ := Does.exists_line [] h ht
  refine (hbefore rfl).trans (Image.Reaches.trans (Image.reaches_of_step ?_) (Image.reaches_label hk c))
  rw [Image.step_instr hj]
  exact Image.goto?_label hP hk c

/-- A test for zero, if it holds. -/
theorem Does.branches_zero (h : Does [.beqz r label] p a s t) (ht : P.Holds t) (hP : P.Labelled)
    (hk : P.code[k]? = some (.label label)) (hr : c.get r = 0) : P.Reaches ⟨s.code.size, c⟩ ⟨k + 1, c⟩ := by
  obtain ⟨j, hj, hbefore, _⟩ := Does.exists_line [] h ht
  refine (hbefore rfl).trans (Image.Reaches.trans (Image.reaches_of_step ?_) (Image.reaches_label hk c))
  rw [Image.step_instr hj]
  exact (if_pos hr).trans (Image.goto?_label hP hk c)

/-- A test for zero, if it does not hold. -/
theorem Does.passes_nonzero (h : Does [.beqz r label] p a s t) (ht : P.Holds t) (hr : c.get r ≠ 0) :
    P.Reaches ⟨s.code.size, c⟩ ⟨t.code.size, c⟩ := by
  obtain ⟨j, hj, hbefore, hafter⟩ := Does.exists_line [] h ht
  refine (hbefore rfl).trans (Image.Reaches.trans (Image.reaches_of_step ?_) (hafter c))
  rw [Image.step_instr hj]
  exact if_neg hr

/-- **A call** goes to its label, with the line to come back to in `ra`. -/
theorem Does.calls (h : Does [.call label] p a s t) (ht : P.Holds t) (hP : P.Labelled)
    (hk : P.code[k]? = some (.label label)) :
    ∃ n : Nat, (∀ c, P.Reaches ⟨s.code.size, c⟩ ⟨k, c.set .ra n⟩) ∧
      ∀ c, P.Reaches ⟨n, c⟩ ⟨t.code.size, c⟩ := by
  obtain ⟨j, hj, hbefore, hafter⟩ := Does.exists_line [] h ht
  refine ⟨j + 1, fun c => (hbefore rfl).trans (Image.reaches_of_step ?_), hafter⟩
  rw [Image.step_instr hj]
  exact (if_neg (hP.ne_print hk)).trans (Image.goto?_label hP hk _)

theorem Does.prints (h : Does [.call printRoutine] p a s t) (ht : P.Holds t) (c : Core) :
    P.Reaches ⟨s.code.size, c⟩ ⟨t.code.size, P.print c⟩ := by
  obtain ⟨j, hj, hbefore, hafter⟩ := Does.exists_line [] h ht
  refine (hbefore rfl).trans (Image.Reaches.trans (Image.reaches_of_step ?_) (hafter _))
  rw [Image.step_instr hj]
  simp [Image.execute]

/-! ## Operators -/

/-- **The operation for an operator computes it.** -/
theorem eval_aluOp (op : BinaryOp) (x y : Word) : (aluOp op).eval x y = op.eval x y := by
  cases op with
  | add => exact BitVec.eq_of_toInt_eq (by simp [aluOp, AluOp.eval, BinaryOp.eval, BitVec.toInt_add])
  | sub => exact BitVec.eq_of_toInt_eq (by simp [aluOp, AluOp.eval, BinaryOp.eval, BitVec.toInt_sub])
  | mul => exact BitVec.eq_of_toInt_eq (by simp [aluOp, AluOp.eval, BinaryOp.eval, BitVec.toInt_mul])
  | div | floorDiv =>
      show (if y = 0 then -1 else x.sdiv y) = if y = 0 then -1 else BitVec.ofInt 64 (x.toInt.tdiv y.toInt)
      split
      · rfl
      · exact BitVec.eq_of_toInt_eq (by rw [BitVec.toInt_sdiv, BitVec.toInt_ofInt])
  | mod =>
      show (if y = 0 then x else x.srem y) = if y = 0 then x else BitVec.ofInt 64 (x.toInt.tmod y.toInt)
      split
      · rfl
      · rw [← BitVec.toInt_srem, BitVec.ofInt_toInt]
  | bitAnd | bitOr | bitXor | leftShift | rightShift => rfl

theorem holds_branchTest (op : CompareOp) (x y : Word) :
    (branchTest op).holds x.toInt y.toInt = op.holds x y := by
  cases op <;> rfl

end Lower

end Offside
