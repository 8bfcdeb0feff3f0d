import Flexus.Lib.Bytes
import Flexus.Lib.Keyed

/-!
# The value tracker

The cores of the timing simulator run ahead of the memory of the functional simulator,
Simics, which knows one value for each address. The value tracker
(`components/uArch/ValueTracker.hpp`) lets every CPU see its own stores before they are
committed: for each double-word with uncommitted stores it keeps the value that is
*globally visible*, the value each CPU sees, and which of these values the memory of
Simics holds at the moment. It changes the memory when another CPU looks.

The memory of Simics is a parameter of the code. It is kept here as a memory of bytes in
which the most significant byte comes first, and is part of the state.
-/

namespace Flexus

namespace UArch

open Lib (Bytes.Memory Bytes.read Bytes.write)

/-- `eSize`. -/
inductive Size
  | byte
  | halfWord
  | word
  | doubleWord
  deriving DecidableEq

namespace Size

/-- The number of bytes, which is the value of the enumerator. -/
def toNat : Size → ℕ
  | byte => 1
  | halfWord => 2
  | word => 4
  | doubleWord => 8

/-- `nuArch::mask`. -/
def mask : Size → BitVec 64
  | byte => 0xFF#64
  | halfWord => 0xFFFF#64
  | word => 0xFFFFFFFF#64
  | doubleWord => 0xFFFFFFFFFFFFFFFF#64

end Size

theorem getLsbD_mask (size : Size) {i : ℕ} (hi : i < 64) :
    size.mask.getLsbD i = decide (i < 8 * size.toNat) := by
  cases size <;> revert i <;> decide

/-! ### Values of a double-word -/

/-- `dwAddr`: the address of the double-word, `anAddress & ~7`. -/
def dwAddr (a : ℕ) : ℕ := a - a % 8

/-- `offset`: the distance of a value from the end of its double-word, in bytes. It is
negative when the value does not lie in it. -/
def offset (a : ℕ) (size : Size) : ℤ := (8 - size.toNat) - ((a : ℤ) - dwAddr a)

/-- `makeMask`. A shift by a negative amount has no meaning in the source. -/
def makeMask (a : ℕ) (size : Size) : BitVec 64 := size.mask <<< (offset a size * 8).toNat

/-- `align`. -/
def align (value : BitVec 64) (a : ℕ) (size : Size) : BitVec 64 :=
  value <<< (offset a size * 8).toNat

/-- **`overlay`**: a value pasted into a double-word. -/
def overlay (original : BitVec 64) (a : ℕ) (size : Size) (value : BitVec 64) : BitVec 64 :=
  let available := makeMask a size
  original &&& ~~~available ||| align value a size &&& available

/-! ### The tracker -/

/-- `LocalValue`, with the CPU that is its key. The outstanding stores are counted with
32 bits. -/
structure LocalValue where
  cpu : ℕ
  theValue : BitVec 64
  theOutstandingStores : ℕ := 1
  deriving DecidableEq

/-- `kSimicsReflectsG`. -/
def kSimicsReflectsG : ℤ := -1

/-- `kPoisonedByDMA`. -/
def kPoisonedByDMA : ℤ := -2

/-- `ValueTrack`: the values of a double-word with uncommitted stores. The CPU whose value
Simics reflects is a number of a CPU, or one of the two special values. -/
structure ValueTrack where
  theSimicsReflectsCPU : ℤ
  theGloballyVisibleValue : BitVec 64
  theLocallyVisibleValues : List LocalValue
  deriving DecidableEq

namespace ValueTrack

variable (t : ValueTrack)

/-- Simics reflects another value. -/
def reflecting (reflects : ℤ) : ValueTrack := { t with theSimicsReflectsCPU := reflects }

/-- `theLocallyVisibleValues.find`. -/
def find (cpu : ℕ) : Option LocalValue :=
  Lib.Keyed.lookup LocalValue.cpu t.theLocallyVisibleValues cpu

/-- A new value for everybody, which Simics reflects. -/
def published (x : BitVec 64) : ValueTrack :=
  { t with theGloballyVisibleValue := x, theSimicsReflectsCPU := kSimicsReflectsG }

/-- A change of the value of a CPU. -/
def setLocal (cpu : ℕ) (f : LocalValue → LocalValue) : ValueTrack :=
  { t with theLocallyVisibleValues :=
    Lib.Keyed.update LocalValue.cpu t.theLocallyVisibleValues cpu f }

/-- The value of a CPU that has none yet. -/
def addLocal (l : LocalValue) : ValueTrack :=
  { t with theLocallyVisibleValues := t.theLocallyVisibleValues ++ [l] }

/-- The value of a CPU goes. -/
def removeLocal (cpu : ℕ) : ValueTrack :=
  { t with theLocallyVisibleValues :=
    Lib.Keyed.erase LocalValue.cpu t.theLocallyVisibleValues cpu }

end ValueTrack

/-- The assertions of the tracker. -/
inductive TrackerFault
  /-- `DBG_Assert( anAddress != 0 )`. -/
  | zeroAddress
  /-- `DBG_Assert( anAddress < 0x40000000000LL )`. -/
  | addressLimit
  /-- `commitStore`: there must be a track. -/
  | noTrack
  /-- `commitStore`: the CPU must have a value in it. -/
  | noLocalValue
  deriving DecidableEq

/-- `ValueTracker`, with the memory of Simics. -/
structure ValueTracker where
  theTracker : ℕ → Option ValueTrack
  simics : Bytes.Memory

namespace ValueTracker

/-- A tracker without tracks over some memory. -/
def init (m : Bytes.Memory) : ValueTracker := ⟨fun _ => none, m⟩

variable (v : ValueTracker)

/-- The limit that is asserted of every address. -/
def limit : ℕ := 0x40000000000

/-- The track of a double-word. -/
def setTrack (d : ℕ) (t : Option ValueTrack) : ValueTracker :=
  { v with theTracker := Function.update v.theTracker d t }

/-- `writePAddr` of a double-word. -/
def writeSimics (d : ℕ) (x : BitVec 64) : ValueTracker :=
  { v with simics := Bytes.write v.simics d 8 x }

/-- A value that was changed by a DMA transfer is read again. -/
def refresh (d : ℕ) (t : ValueTrack) : ValueTrack :=
  if t.theSimicsReflectsCPU = kPoisonedByDMA then
    { t with
      theGloballyVisibleValue := Bytes.read v.simics d 8
      theSimicsReflectsCPU := kSimicsReflectsG }
  else t

/-- The value Simics shows to a CPU changes to the given one. -/
def switch (d : ℕ) (t : ValueTrack) (reflects : ℤ) (x : BitVec 64) : ValueTracker :=
  (v.writeSimics d x).setTrack d (some (t.reflecting reflects))

/-- **`access`**: before a CPU accesses Simics, the memory is made to show what it sees. -/
def access (cpu a : ℕ) : Except TrackerFault ValueTracker :=
  if ¬ a < limit then .error .addressLimit
  else
    let d := dwAddr a
    match v.theTracker d with
    | none => .ok v
    | some t =>
      let t := v.refresh d t
      match t.find cpu with
      | some l =>
        if t.theSimicsReflectsCPU = cpu then
          -- Simics may be more recent than the tracker
          let x := Bytes.read v.simics d 8
          .ok (v.setTrack d (some (t.setLocal cpu fun l => { l with theValue := x })))
        else .ok (v.switch d t cpu l.theValue)
      | none =>
        if t.theSimicsReflectsCPU = kSimicsReflectsG then .ok (v.setTrack d (some t))
        else .ok (v.switch d t kSimicsReflectsG t.theGloballyVisibleValue)

/-- **`store`**: a store becomes visible to its own CPU. -/
def store (cpu a : ℕ) (size : Size) (value : BitVec 64) : Except TrackerFault ValueTracker :=
  if a = 0 then .error .zeroAddress
  else if ¬ a < limit then .error .addressLimit
  else
    let d := dwAddr a
    match v.theTracker d with
    | none =>
      let simicsValue := Bytes.read v.simics d 8
      let updated := overlay simicsValue a size value
      .ok ((v.setTrack d (some ⟨cpu, simicsValue, [⟨cpu, updated, 1⟩]⟩)).writeSimics d updated)
    | some t =>
      let t := v.refresh d t
      match t.find cpu with
      | some l =>
        let current := if t.theSimicsReflectsCPU = cpu then Bytes.read v.simics d 8
          else l.theValue
        let updated := overlay current a size value
        let t := t.setLocal cpu fun l =>
          { l with
            theValue := updated, theOutstandingStores := (l.theOutstandingStores + 1) % 2 ^ 32 }
        .ok (v.switch d t cpu updated)
      | none =>
        let updated := overlay t.theGloballyVisibleValue a size value
        .ok (v.switch d (t.addLocal ⟨cpu, updated, 1⟩) cpu updated)

/-- The outstanding stores of a CPU are one less, and its value goes with the last. -/
def dropStore (t : ValueTrack) (cpu : ℕ) (l : LocalValue) : ValueTrack :=
  let n := (l.theOutstandingStores + (2 ^ 32 - 1)) % 2 ^ 32
  if n = 0 then t.removeLocal cpu
  else t.setLocal cpu fun l => { l with theOutstandingStores := n }

/-- **`commitStore`**: a store becomes visible to everybody. -/
def commitStore (cpu a : ℕ) (size : Size) (value : BitVec 64) :
    Except TrackerFault ValueTracker :=
  if a = 0 then .error .zeroAddress
  else if ¬ a < limit then .error .addressLimit
  else
    let d := dwAddr a
    match v.theTracker d with
    | none => .error .noTrack
    | some t =>
      match t.find cpu with
      | none => .error .noLocalValue
      | some l =>
        let t := v.refresh d t
        let updated := overlay t.theGloballyVisibleValue a size value
        let t := dropStore (t.published updated) cpu l
        let v := v.writeSimics d updated
        if t.theLocallyVisibleValues = [] then .ok (v.setTrack d none)
        else .ok (v.setTrack d (some t))

/-- **`load`**: the memory is made to show what the CPU sees, and is read. -/
def load (cpu a : ℕ) (size : Size) : Except TrackerFault (ValueTracker × BitVec 64) :=
  if a = 0 then .error .zeroAddress
  else if ¬ a < limit then .error .addressLimit
  else
    let d := dwAddr a
    let v := match v.theTracker d with
      | none => v
      | some t =>
        let t := v.refresh d t
        match t.find cpu with
        | none =>
          if t.theSimicsReflectsCPU ≠ kSimicsReflectsG then
            v.switch d t kSimicsReflectsG t.theGloballyVisibleValue
          else v.setTrack d (some t)
        | some l =>
          if t.theSimicsReflectsCPU ≠ cpu then v.switch d t cpu l.theValue
          else v.setTrack d (some t)
    .ok (v, Bytes.read v.simics a size.toNat)

/-- One turn of the loop of `invalidate`: a track of the double-word is poisoned. -/
def poison (a : ℕ) : ValueTracker :=
  match v.theTracker (dwAddr a) with
  | none => v
  | some t =>
    v.setTrack (dwAddr a) (some { t with
      theGloballyVisibleValue := 0xbaadf00d#64
      theSimicsReflectsCPU := kPoisonedByDMA })

/-- **`invalidate`**: a DMA transfer writes some bytes, whose values have to be read again. -/
def invalidate (v : ValueTracker) (a : ℕ) : ℕ → ValueTracker
  | 0 => v
  | n + 1 => (v.poison a).invalidate (a + 1) n

end ValueTracker

end UArch

end Flexus
