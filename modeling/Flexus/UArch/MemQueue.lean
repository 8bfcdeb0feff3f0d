import Flexus.UArch.ValueTracker

/-!
# Forwarding from stores to loads

Loads and stores wait in one queue, `theMemQueue`, in program order. A load takes its value
from the youngest older store that writes one of its bytes, if there is one
(`components/uArch/CoreModel/memforward.cpp`): the store *forwards* its value to the load if it
writes all of the bytes, and otherwise the load is a *partial snooper*, which gets its value
from memory when the stores before it are known.

A load searches the queue when it gets its address. When the value of a store changes or is
withdrawn, `updateDependantLoads` goes through the younger loads of the double-word and lets
those that overlap the store search again. To search once only, it hands the result of the
first search on to the loads that follow.
-/

namespace Flexus

namespace UArch

/-! ### Entries of the queue -/

/-- `endianFlip`. -/
def endianFlip (val : BitVec 64) : Size → BitVec 64
  | .byte => val
  | .halfWord => (val &&& 0xFF00) >>> 8 ||| (val &&& 0x00FF) <<< 8
  | .word => (val &&& 0xFF000000) >>> 24 ||| (val &&& 0xFF0000) >>> 8 |||
      (val &&& 0xFF00) <<< 8 ||| (val &&& 0xFF) <<< 24
  | .doubleWord =>
      (val &&& 0xFF00000000000000) >>> 56 ||| (val &&& 0xFF000000000000) >>> 40 |||
      (val &&& 0xFF0000000000) >>> 24 ||| (val &&& 0xFF00000000) >>> 8 |||
      (val &&& 0xFF) <<< 56 ||| (val &&& 0xFF00) <<< 40 |||
      (val &&& 0xFF0000) <<< 24 ||| (val &&& 0xFF000000) <<< 8

/-- `eOperation`, as far as it is found in the queue. -/
inductive MemOperation
  | kLoad
  | kStore
  | kRMW
  | kCAS
  | kMEMBARMarker
  deriving DecidableEq

def kUnresolved : BitVec 64 := -1

def kInvalid : BitVec 64 := 0

/-- `interruptASI`. -/
def interruptASI (asi : ℕ) : Bool :=
  asi == 0x48 || asi == 0x49 || asi == 0x77 || asi == 0x7F || asi == 0x4a

/-- `MemQueueEntry`, as far as the forwarding of values goes. -/
structure MemQueueEntry where
  theSequenceNum : ℕ
  thePaddr : BitVec 64
  theASI : ℕ := 0x80
  theSideEffect : Bool := false
  theInverseEndian : Bool := false
  theMMU : Bool := false
  theException : ℕ := 0
  theOperation : MemOperation
  theSize : Size
  theAnnulled : Bool := false
  thePartialSnoop : Bool := false
  theValue : Option (BitVec 64) := none
  theExtendedValue : Option (BitVec 64) := none
  deriving DecidableEq

namespace MemQueueEntry

variable (e : MemQueueEntry)

/-- `thePaddr_aligned`, which `updateVaddr` writes along with the address. -/
def thePaddrAligned : BitVec 64 :=
  if e.thePaddr = kUnresolved then kUnresolved else e.thePaddr &&& 0xFFFFFFFFFFFFFFF8

def isStore : Bool :=
  e.theOperation == .kStore || e.theOperation == .kRMW || e.theOperation == .kCAS

def isLoad : Bool :=
  e.theOperation == .kLoad || e.theOperation == .kRMW || e.theOperation == .kCAS

def isAtomic : Bool := e.theOperation == .kRMW || e.theOperation == .kCAS

def isAbnormalAccess : Bool :=
  e.theSideEffect || e.theMMU || e.theException != 0 || interruptASI e.theASI

/-- `loadValue`: an atomic keeps the value it has read apart from the one it writes. -/
def loadValue : Option (BitVec 64) := if e.isAtomic then e.theExtendedValue else e.theValue

/-- An assignment to `loadValue`. -/
def setLoadValue (v : Option (BitVec 64)) : MemQueueEntry :=
  if e.isAtomic then { e with theExtendedValue := v } else { e with theValue := v }

/-! ### Bytes of a double-word -/

/-- `offset`. An access does not cross the end of its double-word, so that the difference is
not negative. -/
def offset : ℕ := 8 - e.theSize.toNat - (e.thePaddr - e.thePaddrAligned).toNat

/-- `makeMask`: the bytes of the double-word that are accessed. -/
def makeMask : BitVec 64 := e.theSize.mask <<< (e.offset * 8)

/-- `covers`. -/
def covers (aStore aLoad : MemQueueEntry) : Bool :=
  aLoad.makeMask &&& aStore.makeMask == aLoad.makeMask

/-- `intersects`. -/
def intersects (aStore aLoad : MemQueueEntry) : Bool :=
  aLoad.makeMask &&& aStore.makeMask != 0

/-- `align`, of a value in an entry. -/
def align (v : BitVec 64) (flipEndian : Bool) : BitVec 64 :=
  (if flipEndian then endianFlip v e.theSize else v) <<< (e.offset * 8)

/-- The value that `writeAligned` writes. -/
def unalign (anAlignedValue : BitVec 64) : BitVec 64 :=
  (anAlignedValue &&& e.makeMask) >>> (e.offset * 8)

/-- What `forwardValue` makes of a load: its value, and whether it is a partial snooper. A load
of a quad-word is one always. -/
def forwarded (aStore aLoad : MemQueueEntry) : Option (BitVec 64) × Bool :=
  if covers aStore aLoad ∧ aLoad.theASI ≠ 0x24 ∧ aLoad.theASI ≠ 0x2C then
    let flip := aLoad.theInverseEndian != aStore.theInverseEndian
    if aLoad.theSize = aStore.theSize then
      (aStore.theValue.map fun v => if flip then endianFlip v aStore.theSize else v, false)
    else (aStore.theValue.map fun v => aLoad.unalign (aStore.align v flip), false)
  else (none, true)

/-- **`forwardValue`**. -/
def forwardValue (aStore aLoad : MemQueueEntry) : MemQueueEntry :=
  let r := forwarded aStore aLoad
  { aLoad with thePartialSnoop := r.2 }.setLoadValue r.1

end MemQueueEntry

/-! ### Searching the queue -/

/-- **`theMemQueue`**, in the order of the sequence numbers. -/
structure MemQueue where
  entries : List MemQueueEntry
  sorted : entries.Pairwise fun x y => x.theSequenceNum < y.theSequenceNum

/-- `aCachedSnoopState`: not set, the end of the queue, or a store, by its sequence number. -/
abbrev SnoopState := Option (Option ℕ)

/-- The entry of a sequence number. -/
def entryAt (q : List MemQueueEntry) (n : ℕ) : Option MemQueueEntry :=
  q.find? fun e => e.theSequenceNum == n

/-- An entry is written back. -/
def writeEntry (q : List MemQueueEntry) (e : MemQueueEntry) : List MemQueueEntry :=
  q.map fun x => if x.theSequenceNum = e.theSequenceNum then e else x

/-- The entries of a double-word that are older than an entry, in the order of the index
`by_paddr`. -/
def olderEntries (q : List MemQueueEntry) (l : MemQueueEntry) : List MemQueueEntry :=
  q.filter fun e =>
    e.thePaddrAligned == l.thePaddrAligned && decide (e.theSequenceNum < l.theSequenceNum)

/-- The entries of a double-word that are younger than an entry. -/
def youngerEntries (q : List MemQueueEntry) (s : MemQueueEntry) : List MemQueueEntry :=
  q.filter fun e =>
    e.thePaddrAligned == s.thePaddrAligned && decide (s.theSequenceNum < e.theSequenceNum)

/-- A store that a load finds. -/
def matchesLoad (l e : MemQueueEntry) : Bool := e.isStore && !e.theAnnulled && e.intersects l

/-- `snoopQueue`: the youngest older store that the load overlaps. -/
def snoopQueue (q : List MemQueueEntry) (l : MemQueueEntry) : Option ℕ :=
  ((olderEntries q l).reverse.find? (matchesLoad l)).map MemQueueEntry.theSequenceNum

/-- The forwarding from a store that a search has found. -/
def forwardFrom (q : List MemQueueEntry) (l : MemQueueEntry) (found : Option ℕ) :
    MemQueueEntry :=
  match found.bind (entryAt q) with
  | some st => st.forwardValue l
  | none => l

/-- **`snoopStores`**. -/
def snoopStores (q : List MemQueueEntry) (l : MemQueueEntry) (aCachedSnoopState : SnoopState) :
    MemQueueEntry × SnoopState :=
  if l.thePaddr = kUnresolved then (l, aCachedSnoopState)
  else
    let found := aCachedSnoopState.getD (snoopQueue q l)
    (forwardFrom q (l.setLoadValue none) found, some found)

/-- **`doLoad`**, as far as it changes the value and the flag of a load and the search state.
The statuses of a load that waits for memory, for a port or for its issue do not differ
here. -/
def doLoad (theSpeculativeOrder : Bool) (q : List MemQueueEntry) (l : MemQueueEntry)
    (aCachedSnoopState : SnoopState) : MemQueueEntry × SnoopState :=
  if l.isAtomic && l.thePartialSnoop then (l.setLoadValue none, aCachedSnoopState)
  else if l.theAnnulled then (l, aCachedSnoopState)
  else if l.thePaddr = kUnresolved then (l, aCachedSnoopState)
  else if l.isAbnormalAccess then (l, aCachedSnoopState)
  else if l.isAtomic && !theSpeculativeOrder then (l, aCachedSnoopState)
  else snoopStores q l aCachedSnoopState

/-- The loop of `updateDependantLoads`. -/
def updateLoop (theSpeculativeOrder : Bool) (s : MemQueueEntry) :
    List MemQueueEntry → List MemQueueEntry → SnoopState → List MemQueueEntry
  | [], q, _ => q
  | e :: es, q, cached =>
    if e.isLoad && s.intersects e then
      let r := doLoad theSpeculativeOrder q e cached
      updateLoop theSpeculativeOrder s es (writeEntry q r.1) r.2
    else if e.isStore && !e.theAnnulled && s.intersects e then q
    else updateLoop theSpeculativeOrder s es q cached

/-- **`updateDependantLoads`**, of a store that has changed: it has another value, or none, or
is annulled, as it is while its address changes. -/
def updateDependantLoads (theSpeculativeOrder : Bool) (q : List MemQueueEntry)
    (s : MemQueueEntry) : List MemQueueEntry :=
  if s.thePaddr = kUnresolved ∨ s.thePaddr = kInvalid then q
  else updateLoop theSpeculativeOrder s (youngerEntries q s) q none

/-- A load without a value and without the flag. -/
def MemQueueEntry.clear (l : MemQueueEntry) : MemQueueEntry :=
  { l with thePartialSnoop := false }.setLoadValue none

/-- **A fresh snoop**: the load is cleared, and searches without a cached state. -/
def freshSnoop (q : List MemQueueEntry) (l : MemQueueEntry) : MemQueueEntry :=
  (snoopStores q l.clear none).1

end UArch

end Flexus
