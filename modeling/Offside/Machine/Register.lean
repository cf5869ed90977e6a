/-!
# `Machine.Register` — the integer registers and who may use them

The thirty-two integer registers of RV64, by their conventional names, in the order of their numbers, and
the three classes that code generation draws registers from. The registers with a fixed role (`zero`, `ra`,
`sp`, `gp`, `tp`, `fp` and the result register `a0`) belong to no class.
-/

namespace Offside.Machine

/-- An integer register. -/
inductive Register where
  | zero | ra | sp | gp | tp
  | t0 | t1 | t2
  | fp | s1
  | a0 | a1 | a2 | a3 | a4 | a5 | a6 | a7
  | s2 | s3 | s4 | s5 | s6 | s7 | s8 | s9 | s10 | s11
  | t3 | t4 | t5 | t6
deriving DecidableEq

/-- Registers that are handed out together. -/
inductive RegisterClass where
  /-- Scratch registers, which a call may overwrite. -/
  | temporary
  /-- Registers that a call keeps. -/
  | calleeSaved
  /-- One register for each parameter, which a call may overwrite. -/
  | argument
deriving DecidableEq

namespace Register

/-- Every register, in the order of their numbers. -/
def all : List Register := [
  .zero, .ra, .sp, .gp, .tp, .t0, .t1, .t2, .fp, .s1,
  .a0, .a1, .a2, .a3, .a4, .a5, .a6, .a7,
  .s2, .s3, .s4, .s5, .s6, .s7, .s8, .s9, .s10, .s11, .t3, .t4, .t5, .t6]

/-- The number of a register. -/
def ordinal (r : Register) : Nat := all.idxOf r

/-- The register with a number. -/
def ofOrdinal? (n : Nat) : Option Register := all[n]?

/-- The conventional name of a register. -/
def name : Register → String
  | .zero => "zero"
  | .ra => "ra"
  | .sp => "sp"
  | .gp => "gp"
  | .tp => "tp"
  | .t0 => "t0"
  | .t1 => "t1"
  | .t2 => "t2"
  | .fp => "fp"
  | .s1 => "s1"
  | .a0 => "a0"
  | .a1 => "a1"
  | .a2 => "a2"
  | .a3 => "a3"
  | .a4 => "a4"
  | .a5 => "a5"
  | .a6 => "a6"
  | .a7 => "a7"
  | .s2 => "s2"
  | .s3 => "s3"
  | .s4 => "s4"
  | .s5 => "s5"
  | .s6 => "s6"
  | .s7 => "s7"
  | .s8 => "s8"
  | .s9 => "s9"
  | .s10 => "s10"
  | .s11 => "s11"
  | .t3 => "t3"
  | .t4 => "t4"
  | .t5 => "t5"
  | .t6 => "t6"

/-- The register with a name. -/
def ofName? (name : String) : Option Register := all.find? fun r => r.name == name

/-- The class that a register is handed out from. -/
def classOf? : Register → Option RegisterClass
  | .t0 | .t1 | .t2 | .t3 | .t4 | .t5 | .t6 => some .temporary
  | .s1 | .s2 | .s3 | .s4 | .s5 | .s6 | .s7 | .s8 | .s9 | .s10 | .s11 => some .calleeSaved
  | .a1 | .a2 | .a3 | .a4 | .a5 | .a6 | .a7 => some .argument
  | .zero | .ra | .sp | .gp | .tp | .fp | .a0 => none

/-- A call may overwrite the register. -/
def isCallerClobbered (r : Register) : Bool :=
  r.classOf? == some .temporary || r.classOf? == some .argument

theorem mem_all (r : Register) : r ∈ all := by cases r <;> decide

theorem ofOrdinal?_ordinal (r : Register) : ofOrdinal? r.ordinal = some r := by cases r <;> decide

theorem ordinal_lt (r : Register) : r.ordinal < 32 := by cases r <;> decide

theorem ordinal_inj {r x : Register} (h : r.ordinal = x.ordinal) : r = x := by
  have hof := r.ofOrdinal?_ordinal
  rw [h, ofOrdinal?_ordinal] at hof
  exact (Option.some.inj hof).symm

end Register

namespace RegisterClass

/-- Every class. -/
def all : List RegisterClass := [.temporary, .calleeSaved, .argument]

/-- The registers of a class, in the order in which they are handed out. -/
def members : RegisterClass → List Register
  | .temporary => [.t0, .t1, .t2, .t3, .t4, .t5, .t6]
  | .calleeSaved => [.s1, .s2, .s3, .s4, .s5, .s6, .s7, .s8, .s9, .s10, .s11]
  | .argument => [.a1, .a2, .a3, .a4, .a5, .a6, .a7]

/-- The name of a class. -/
def name : RegisterClass → String
  | .temporary => "temporary"
  | .calleeSaved => "callee-saved"
  | .argument => "argument"

/-- The class with a name. -/
def ofName? (name : String) : Option RegisterClass := all.find? fun c => c.name == name

/-- The members of a class are the registers handed out from it. -/
theorem mem_members_iff {c : RegisterClass} {r : Register} : r ∈ c.members ↔ r.classOf? = some c := by
  cases c <;> cases r <;> decide

end RegisterClass

end Offside.Machine
