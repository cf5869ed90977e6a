import Offside.Machine.Register

/-!
# `Machine.Pool` — which registers are handed out

A pool keeps one entry for every register, at the place of its number: whether the register can be handed out
now. At first these are the members of the classes, and no other register ever becomes one of them
(`Pool.free` asks for the class). Running out of registers is no error here.
-/

namespace Offside.Machine

namespace Pool

/-- The entries of a fresh pool: every member of a class can be handed out, and nothing else. -/
def unclaimed : Vector Bool 32 :=
  RegisterClass.all.foldl
    (fun entries c => c.members.foldl (fun entries r => entries.set r.ordinal true r.ordinal_lt) entries)
    (.replicate 32 false)

end Pool

/-- For every register, whether it can be handed out now. -/
structure Pool where
  available : Vector Bool 32 := Pool.unclaimed
deriving DecidableEq

namespace Pool

/-- The register can be handed out now. -/
def isAvailable (p : Pool) (r : Register) : Bool := p.available.get ⟨r.ordinal, r.ordinal_lt⟩

/-- The pool with another entry for a register. -/
def mark (p : Pool) (r : Register) (entry : Bool) : Pool := ⟨p.available.set r.ordinal entry r.ordinal_lt⟩

/-- Some register of the class can be handed out now. -/
def hasAvailable (p : Pool) (c : RegisterClass) : Bool := c.members.any p.isAvailable

/-- Hands out the first free register of a class. -/
def allocate? (p : Pool) (c : RegisterClass) : Option (Register × Pool) :=
  (c.members.find? p.isAvailable).map fun r => (r, p.mark r false)

/-- Hands out a given register, if it belongs to a class and is free. -/
def take? (p : Pool) (r : Register) : Option Pool :=
  if r.classOf?.isNone || !p.isAvailable r then none else some (p.mark r false)

/-- Takes a register back. A register that is free already stays free, and one outside every class stays
    unavailable. -/
def free (p : Pool) (r : Register) : Pool := if r.classOf?.isSome then p.mark r true else p

/-- The members of classes that are handed out, in the order of their numbers. -/
def inUse (p : Pool) : List Register := Register.all.filter fun r => r.classOf?.isSome && !p.isAvailable r

theorem isAvailable_mark (p : Pool) (r x : Register) (entry : Bool) :
    (p.mark r entry).isAvailable x = if x = r then entry else p.isAvailable x := by
  unfold isAvailable mark
  by_cases h : x = r
  · rw [if_pos h, h]
    exact Vector.getElem_set_self r.ordinal_lt
  · rw [if_neg h]
    exact Vector.getElem_set_ne r.ordinal_lt x.ordinal_lt fun heq => h (Register.ordinal_inj heq.symm)

end Pool

end Offside.Machine
