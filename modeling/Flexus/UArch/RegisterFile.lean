import Mathlib.Data.Nat.Notation

/-!
# The physical registers

A register of the register file (`components/uArch/RegisterFile.hpp`): a value, and whether it is
there yet. The operands that wait for a register belong to the actions of instructions, and it is
there that they are told when it is written or squashed.
-/

namespace Flexus

namespace UArch

/-- `eResourceStatus`. -/
inductive ResourceStatus
  | ready
  | notReady
  | unmapped
  deriving DecidableEq

/-- The bits of a `register_value`. Condition codes take eight of them. -/
abbrev RegisterBits := BitVec 64

/-- **A physical register.** -/
structure PhysicalRegister where
  theStatus : ResourceStatus
  theReg : RegisterBits
  deriving DecidableEq

namespace PhysicalRegister

variable (r : PhysicalRegister)

/-- `RegisterFile::map`. -/
def map : PhysicalRegister := { r with theStatus := .notReady }

/-- `RegisterFile::squash`. -/
def squash : PhysicalRegister :=
  { r with theStatus := if r.theStatus ≠ .unmapped then .notReady else r.theStatus }

/-- `RegisterFile::write`. -/
def write (_ : PhysicalRegister) (aValue : RegisterBits) : PhysicalRegister := ⟨.ready, aValue⟩

/-- `RegisterFile::read`, which asserts that the register is ready. -/
def read : Option RegisterBits := if r.theStatus = .ready then some r.theReg else none

theorem squash_not_ready : r.squash.theStatus ≠ .ready := by
  rw [squash]
  dsimp only
  split
  · exact fun h => nomatch h
  · rename_i h
    rw [ne_eq, Decidable.not_not] at h
    rw [h]
    exact fun h => nomatch h

end PhysicalRegister

end UArch

end Flexus
