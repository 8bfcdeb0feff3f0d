import Mathlib.Data.Int.Notation
import Mathlib.Data.List.Basic

/-!
# Register windows and the rename tables

An instruction names registers of the current window; `RegisterWindowMap`
(`components/uArch/MapTable.hpp`) turns such a name into the number of an architectural
register. The processor keeps several values of an architectural register at a time, in
physical registers: `PhysicalMap` hands physical registers out to names and takes them back.
-/

namespace Flexus

open Function

namespace UArch

/-! ### Registers -/

/-- `eRegisterType`. -/
inductive RegisterType
  | rRegisters
  | fRegisters
  | ccBits
  deriving DecidableEq

/-- `unmapped_reg`: a register by its name. -/
structure UnmappedReg where
  theType : RegisterType
  theIndex : ℕ
  deriving DecidableEq

/-- `mapped_reg`: a physical register. -/
structure MappedReg where
  theType : RegisterType
  theIndex : ℕ
  deriving DecidableEq

def kGlobalRegCount : ℕ := 8
def kGlobalRegSets : ℕ := 4
def kNumWindows : ℕ := 8
def kRegistersPerWindow : ℕ := 16
def kWindowRegCount : ℕ := 16 * kNumWindows
def kSpecialRegCount : ℕ := 3
def kFirstSpecialReg : ℕ := kGlobalRegSets * kGlobalRegCount + kWindowRegCount
def kTotalRegs : ℕ := kFirstSpecialReg + kSpecialRegCount
def kRegY : ℕ := kFirstSpecialReg
def kRegASI : ℕ := kRegY + 1
def kRegGSR : ℕ := kRegASI + 1

/-! ### The window map -/

/-- `RegisterWindowMap`. The number of the window is signed in the source, where it never
falls below zero. -/
structure RegisterWindowMap where
  theCWP : ℕ := 0
  theAG : Bool := false
  theIG : Bool := false
  theMG : Bool := false
  deriving DecidableEq

namespace RegisterWindowMap

variable (w : RegisterWindowMap)

/-- The offset of the set of global registers that is in use. -/
def globals : ℕ :=
  if w.theAG then kGlobalRegCount
  else if w.theMG then 2 * kGlobalRegCount
  else if w.theIG then 3 * kGlobalRegCount
  else 0

/-- `rotate`, for the index of an integer register. -/
def rotateIndex (i : ℕ) : ℕ :=
  if i ≥ kFirstSpecialReg then i
  else if i < kGlobalRegCount then i + w.globals
  else
    let r := i + (kNumWindows - 1 - w.theCWP) * kRegistersPerWindow +
      (kGlobalRegSets - 1) * kGlobalRegCount
    if r ≥ kFirstSpecialReg then r - kWindowRegCount else r

/-- **`rotate`**: the register a name stands for in the current window. -/
def rotate (r : UnmappedReg) : UnmappedReg :=
  if r.theType = .rRegisters then { r with theIndex := w.rotateIndex r.theIndex } else r

def setCWP (n : ℕ) : RegisterWindowMap := { w with theCWP := n }

def incrementCWP : RegisterWindowMap :=
  { w with theCWP := if w.theCWP + 1 > 7 then 0 else w.theCWP + 1 }

def decrementCWP : RegisterWindowMap :=
  { w with theCWP := if w.theCWP = 0 then 7 else w.theCWP - 1 }

end RegisterWindowMap

/-! ### Physical registers -/

/-- The assertions of a rename table, and the places where it would read an empty list. -/
inductive MapFault
  /-- `map`, `mapArchitectural` and `create`: there is no such name. -/
  | name
  /-- `create`: the free list is empty. -/
  | emptyFreeList
  /-- `create`: the register has a name already. -/
  | reverse
  /-- `free`: the register has no name. -/
  | archName
  /-- `free`: the register is not assigned to its name; `mapArchitectural`: none is. -/
  | notAssigned
  /-- `CoreImpl::restore`: the register is of another type than the name. -/
  | type
  deriving DecidableEq

/-- `PhysicalMap`. A register without a name is mapped back to -1. -/
structure PhysicalMap where
  theNameCount : ℕ
  theRegisterCount : ℕ
  theMappings : ℕ → ℕ
  theFreeList : List ℕ
  theAssignedRegisters : ℕ → List ℕ
  theReverseMappings : ℕ → ℤ

namespace PhysicalMap

/-- `PhysicalMap` and `reset`: at first every name has the register of its number. -/
def reset (aNameCount aRegisterCount : ℕ) : PhysicalMap where
  theNameCount := aNameCount
  theRegisterCount := aRegisterCount
  theMappings := fun n => n
  theFreeList := List.range' aNameCount (aRegisterCount - aNameCount)
  theAssignedRegisters := fun n => if n < aNameCount then [n] else []
  theReverseMappings := fun r => if r < aNameCount then r else -1

variable (m : PhysicalMap)

/-- `map`. -/
def map (n : ℕ) : Except MapFault ℕ :=
  if n < m.theNameCount then .ok (m.theMappings n) else .error .name

/-- `mapArchitectural`. -/
def mapArchitectural (n : ℕ) : Except MapFault ℕ :=
  if n < m.theNameCount then
    match m.theAssignedRegisters n with
    | [] => .error .notAssigned
    | r :: _ => .ok r
  else .error .name

/-- **`create`**: a free register for a name. The result has the register and the one the
name has had before. -/
def create (n : ℕ) : Except MapFault (PhysicalMap × ℕ × ℕ) :=
  if n < m.theNameCount then
    match m.theFreeList with
    | [] => .error .emptyFreeList
    | r :: rest =>
      if m.theReverseMappings r = -1 then
        .ok ({ m with
            theFreeList := rest
            theMappings := update m.theMappings n r
            theAssignedRegisters :=
              update m.theAssignedRegisters n (m.theAssignedRegisters n ++ [r])
            theReverseMappings := update m.theReverseMappings r n },
          r, m.theMappings n)
      else .error .reverse
  else .error .name

/-- **`free`**. The source asks another list than that of the name to erase the node of the
register; what is erased is the node. -/
def free (r : ℕ) : Except MapFault PhysicalMap :=
  let n := m.theReverseMappings r
  if n ≥ 0 ∧ n < m.theNameCount then
    if r ∈ m.theAssignedRegisters n.toNat then
      .ok { m with
        theFreeList := m.theFreeList ++ [r]
        theReverseMappings := update m.theReverseMappings r (-1)
        theAssignedRegisters := update m.theAssignedRegisters n.toNat
          ((m.theAssignedRegisters n.toNat).erase r) }
    else .error .notAssigned
  else .error .archName

/-- `restore`. -/
def restore (n r : ℕ) : PhysicalMap :=
  { m with theMappings := update m.theMappings n r }

end PhysicalMap

end UArch

end Flexus
