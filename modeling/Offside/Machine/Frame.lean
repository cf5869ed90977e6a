import Offside.Machine.Line

/-!
# `Machine.Frame` — the calling convention and the stack frame

Parameters arrive in `a1` to `a7` and results leave in `a0`. Every function has a frame, which starts where
the caller's stack ends. With `fp` pointing there, the return address stands at `fp - 8`, the caller's `fp`
at `fp - 16`, and local slot `i` at `fp - 24 - 8 * i`. The evaluation stack grows below the frame: `push`
and `pop` move eight bytes at a time.

Frames are reached through immediates of twelve bits, so a frame that exists fits (`Frame.fits`).
-/

namespace Offside.Machine

open Register

/-- The register that holds results. -/
def resultRegister : Register := .a0

/-- The largest number of parameters. -/
def maxParameters : Nat := 7

/-- Bytes of the return address and the saved frame pointer. -/
def frameHeader : Nat := 16

/-- Bytes of a slot, and of an entry of the evaluation stack. -/
def slotSize : Nat := 8

/-- The largest frame that immediates reach. -/
def maxFrame : Nat := 2047

/-- The bytes of a frame with the given number of slots. -/
def frameBytes (slots : Nat) : Nat := frameHeader + slotSize * slots

/-- Why a function has no frame. -/
inductive FrameFault where
  | tooManyParameters (count : Nat)
  | frameTooLarge (bytes : Nat)
deriving DecidableEq

/-- The text of a cause. -/
def FrameFault.message : FrameFault → String
  | .tooManyParameters count =>
      "Too many parameters: " ++ toString count ++ " (maximum: " ++ toString maxParameters ++ ")"
  | .frameTooLarge bytes =>
      "Stack frame too large: " ++ toString bytes ++ " bytes (maximum: " ++ toString maxFrame ++ ")"

/-- Every parameter has a register. -/
def checkParameters (count : Nat) : Except FrameFault Unit :=
  if count ≤ maxParameters then .ok () else .error (.tooManyParameters count)

/-- The frame of a function. -/
structure Frame where
  slots : Nat
  fits : frameBytes slots ≤ maxFrame
deriving DecidableEq

namespace Frame

/-- The frame with the given number of slots. -/
def ofSlots (slots : Nat) : Except FrameFault Frame :=
  if h : frameBytes slots ≤ maxFrame then .ok ⟨slots, h⟩ else .error (.frameTooLarge (frameBytes slots))

/-- The bytes of a frame. -/
def size (f : Frame) : Int := frameBytes f.slots

/-- Where a slot stands, from the frame pointer. -/
def slotOffset (slot : Nat) : Int := -((frameHeader + slotSize + slotSize * slot : Nat) : Int)

/-- Opens a frame: saves the return address and the caller's frame pointer. -/
def prologue (f : Frame) : List Instr :=
  [.addi sp sp (-f.size), .sd ra (f.size - 8) sp, .sd fp (f.size - 16) sp, .addi fp sp f.size]

/-- Closes a frame and returns. -/
def epilogue (f : Frame) : List Instr :=
  [.ld ra (f.size - 8) sp, .ld fp (f.size - 16) sp, .addi sp sp f.size, .ret]

end Frame

/-! ## Short sequences -/

/-- Puts a register on the evaluation stack. -/
def push (r : Register) : List Instr := [.addi sp sp (-8), .sd r 0 sp]

/-- Takes the top of the evaluation stack into a register. -/
def pop (r : Register) : List Instr := [.ld r 0 sp, .addi sp sp 8]

/-- Writes a register to a slot of the current frame. -/
def storeSlot (r : Register) (slot : Nat) : Instr := .sd r (Frame.slotOffset slot) fp

/-- Reads a slot of the current frame into a register. -/
def loadSlot (r : Register) (slot : Nat) : Instr := .ld r (Frame.slotOffset slot) fp

/-- The lines before the code of a function. -/
def functionHeader (label : String) : List Line :=
  [.directive (.align 1), .directive (.globl label), .directive (.typeFunction label), .label label]

/-- The line after the code of a function. -/
def functionFooter (label : String) : Line := .directive (.sizeFunction label)

end Offside.Machine
