import Flexus.Cache.StdArray
import Flexus.Common.MemoryMessage
import Flexus.Lib.Keyed
import Flexus.Lib.OrderedIndex

/-!
# The buffers of a private cache

The protocol of a private cache (`components/Cache/CacheBuffers.hpp`) keeps what it is busy with in
four kinds of buffers: the miss address file, in which requests wait; the evict buffer, through
which blocks leave; the snoop buffer, in which snoops wait for the caches above; and a count of
the requests of every set.

An address is the number of a block throughout: the controller rounds the address of a
request down to its block before it uses it, and every other message is about a whole block.
Counters are signed in the source where they are integers here; an unsigned counter that
would fall below zero wraps around, see `Flexus.Cache.decrement`.
-/

namespace Flexus

open Lib

namespace Cache

/-- What a controller reads and writes of a `MemoryMessage`, with the values of a new
message. -/
structure Message where
  type : MemoryMessageType
  address : ℕ
  coreIdx : ℕ := 0
  reqSize : ℕ := 0
  ackRequired : Bool := true
  ackRequiresData : Bool := false
  evictHasData : Bool := false
  outstandingMsgs : ℤ := 0
  dstream : Bool := true
  deriving DecidableEq

/-- **The assertions of a controller.** -/
inductive ControllerFault
  /-- An assertion of the array, or a lookup result without a block that is written. -/
  | array
  /-- `allocateBlock`, `doRequest`: the block cannot be allocated. -/
  | cannotAllocate
  /-- `SnoopBuffer::allocEntry` and `addWaitingEntry`. -/
  | snoopBufferFull
  /-- `RequestTracker::endRequest`: the set has no active request. -/
  | endRequest
  /-- `handleBackMessage`: a message that is not expected. -/
  | unexpectedBackMessage
  /-- `handleBackMessage`: an invalidate of a writable block, or of one that is being read. -/
  | invalidateState
  /-- `handleBackMessage`: the miss of a block that is back-invalidated. -/
  | backInvalidateMiss
  /-- `handleBackMessage`: `DBG_Assert(from_eb)`, for an `EvictAck`. -/
  | evictAck
  /-- `handleBackMessage`: a reply without a miss. -/
  | noMiss
  /-- `handleBackMessage`: a reply that does not fit its miss. -/
  | unexpectedReply
  /-- `handleBackMessage`: a reply to a read whose block is there. -/
  | blockPresent
  /-- `handleBackMessage`: a reply whose block is in the evict buffer. -/
  | fromEvictBuffer
  /-- `handleBackMessage`: all replies are here but not the data. -/
  | noData
  /-- `handleBackMessage`: a request that does not belong to this level. -/
  | cacheLevel
  /-- `finalizeSnoop`: a snoop reply without a snoop. -/
  | noSnoop
  /-- `handleSnoopMessage`: a message that is not expected. -/
  | unexpectedSnoop
  /-- `handleSnoopMessage`: a dirty eviction of a block that is not exclusive. -/
  | evictDirtyState
  /-- `handleIprobe`: the block is not there any more. -/
  | iprobeInvalid
  /-- `handleWakeSnoop`: the block of an eviction has an outstanding snoop. -/
  | wakeEvict
  /-- `run*Process`: an action that is not expected of such a process. -/
  | unexpectedAction
  /-- `sendFront`: there is no such core. -/
  | coreIdx
  /-- `doTransmitProcess`: the type of a process that has a message for the back side. -/
  | transmitType
  /-- `doTransmitProcess`: the process still holds reservations. -/
  | reservationsHeld
  /-- `doTransmitProcess`: the entry is not completed. -/
  | notCompleted
  deriving DecidableEq

/-- One less, of an unsigned counter of 32 bits. -/
def decrement (n : ℕ) : ℕ := if n = 0 then 2 ^ 32 - 1 else n - 1

/-! ### The miss address file -/

/-- `MafStates`, without the state in which an entry waits for a region: this protocol does
not use it. -/
inductive MafState
  | waitResponse
  | waitAddress
  | waking
  | waitProbe
  | probeHit
  | probeMiss
  | completed
  | waitSnoop
  | waitEvict
  deriving DecidableEq

namespace MafState

/-- The number of a state, by which the index is ordered. -/
def toNat : MafState → ℕ
  | waitResponse => 0
  | waitAddress => 1
  | waking => 2
  | waitProbe => 3
  | probeHit => 4
  | probeMiss => 5
  | completed => 6
  | waitSnoop => 7
  | waitEvict => 8

end MafState

/-- `MafEntry`. The block of an entry is the one its request is about. Whether the request
has left the cache is not recorded by the source; nothing depends on it. -/
structure MafEntry where
  state : MafState
  transport : Message
  outstandingMsgs : ℤ := 0
  dataReceived : Bool := false
  requestSent : Bool := false
  deriving DecidableEq

namespace MafEntry

/-- `theBlockAddress`. -/
def theBlockAddress (e : MafEntry) : ℕ := e.transport.address

/-- The composite key: the block, then the state. -/
def key (e : MafEntry) : ℕ := e.theBlockAddress * 9 + e.state.toNat

end MafEntry

/-- `MissAddressFile`. -/
structure MissAddressFile where
  theMshrs : OrderedIndex MafEntry.key
  theReserve : ℤ

namespace MissAddressFile

/-- An empty file. -/
def init : MissAddressFile := ⟨.empty, 0⟩

variable (m : MissAddressFile)

/-- A change of an entry in place. -/
def modify (i : ℕ) (f : MafEntry → MafEntry) : MissAddressFile :=
  { m with theMshrs := m.theMshrs.modify i f }

/-- The first entry of a block in some state. -/
def find (a : ℕ) (st : MafState) : Option (Slot MafEntry) :=
  m.theMshrs.find fun e => e.theBlockAddress == a && e.state == st

/-- `getWaitingMAFEntry` and `getWaitingMAFEntryIter`. -/
def getWaitingMAFEntry (a : ℕ) : Option (Slot MafEntry) := m.find a .waitResponse

end MissAddressFile

/-! ### The evict buffer -/

/-- `EvictEntry`. A new entry that cannot be evicted at once has to be snooped. -/
structure EvictEntry where
  theBlockAddress : ℕ
  theType : MemoryMessageType
  theState : BasicState
  theEvictable : Bool
  thePending : Bool := false
  theSnoopRequired : Bool := !theEvictable
  theSnoopScheduled : Bool := false
  deriving DecidableEq

/-- `EvictBuffer`: the entries in the order of their insertion, with an index that is unique
by address. -/
structure EvictBuffer where
  theEvictions : List EvictEntry
  theReserve : ℕ
  theCurSize : ℕ
  unique : (theEvictions.map EvictEntry.theBlockAddress).Nodup

namespace EvictBuffer

/-- An empty buffer. -/
def init : EvictBuffer := ⟨[], 0, 0, List.nodup_nil⟩

variable (b : EvictBuffer)

/-- `find`. -/
def find (a : ℕ) : Option EvictEntry :=
  Keyed.lookup EvictEntry.theBlockAddress b.theEvictions a

/-- A change of the mutable fields of an entry. -/
def update (a : ℕ) (f : EvictEntry → EvictEntry)
    (hf : ∀ e, (f e).theBlockAddress = e.theBlockAddress := by intro _; rfl) : EvictBuffer :=
  { b with
    theEvictions := Keyed.update EvictEntry.theBlockAddress b.theEvictions a f
    unique := by rw [Keyed.keys_update hf]; exact b.unique }

/-- `allocEntry`: an entry of the block that is there already is overwritten. -/
def allocEntry (a : ℕ) (aType : MemoryMessageType) (aState : BasicState) (evictable : Bool) :
    EvictBuffer :=
  match b.find a with
  | some _ => b.update a fun e => { e with theType := aType, theState := aState }
  | none =>
    { b with
      theEvictions := Keyed.pushBack EvictEntry.theBlockAddress b.theEvictions
        { theBlockAddress := a, theType := aType, theState := aState, theEvictable := evictable }
      theCurSize := b.theCurSize + 1
      unique := Keyed.nodup_pushBack b.unique }

/-- `remove`, of an entry that is there. -/
def remove (a : ℕ) : EvictBuffer :=
  { b with
    theEvictions := Keyed.erase EvictEntry.theBlockAddress b.theEvictions a
    theCurSize := decrement b.theCurSize
    unique := Keyed.nodup_erase b.unique }

end EvictBuffer

/-! ### The snoop buffer -/

/-- `SnoopStates`. The state in which a snoop would be waking is not used. -/
inductive SnoopState
  | outstanding
  | waiting
  deriving DecidableEq

/-- `SnoopEntry`: the snoop, and the caches above that have not answered it. -/
structure SnoopEntry where
  transport : Message
  state : SnoopState
  iSnoopOutstanding : Bool := false
  dSnoopOutstanding : Bool := true
  deriving DecidableEq

namespace SnoopEntry

/-- `theBlockAddress`. -/
def theBlockAddress (e : SnoopEntry) : ℕ := e.transport.address

/-- The test of an index lookup. -/
def isAt (a : ℕ) (st : SnoopState) (e : SnoopEntry) : Bool :=
  e.theBlockAddress == a && e.state == st

end SnoopEntry

/-- `SnoopBuffer`. The entries of one block in one state are kept in the order in which they
came. -/
structure SnoopBuffer where
  theSnoops : List SnoopEntry
  theWakeList : List SnoopEntry
  theReserve : ℤ
  theCurSize : ℤ

namespace SnoopBuffer

/-- An empty buffer. -/
def init : SnoopBuffer := ⟨[], [], 0, 0⟩

variable (b : SnoopBuffer)

/-- `hasSnoopsOutstanding`. -/
def hasSnoopsOutstanding (a : ℕ) : Bool := b.theSnoops.any (SnoopEntry.isAt a .outstanding)

/-- Whether a snoop of the block waits. -/
def hasWaiting (a : ℕ) : Bool := b.theSnoops.any (SnoopEntry.isAt a .waiting)

/-- Whether a snoop of the block is in the wake list. -/
def isWaking (a : ℕ) : Bool := b.theWakeList.any fun e => e.theBlockAddress == a

/-- `hasEntry`. -/
def hasEntry (a : ℕ) : Bool := b.hasSnoopsOutstanding a || b.hasWaiting a || b.isWaking a

/-- The insertion of an entry. -/
def insert (theSize : ℕ) (e : SnoopEntry) : Except ControllerFault SnoopBuffer :=
  if b.theCurSize < theSize then
    .ok { b with theSnoops := b.theSnoops ++ [e], theCurSize := b.theCurSize + 1 }
  else .error .snoopBufferFull

/-- `allocEntry`, with the answers the entry waits for. -/
def allocEntry (theSize : ℕ) (t : Message) (i d : Bool) : Except ControllerFault SnoopBuffer :=
  b.insert theSize ⟨t, .outstanding, i, d⟩

/-- `addWaitingEntry`. -/
def addWaitingEntry (theSize : ℕ) (t : Message) : Except ControllerFault SnoopBuffer :=
  b.insert theSize { transport := t, state := .waiting }

end SnoopBuffer

/-! ### The active requests of the sets -/

/-- `RequestTracker`: a set that is not in the table has no active request. -/
structure RequestTracker where
  theRequestHash : ℕ → ℕ

namespace RequestTracker

/-- An empty tracker. -/
def init : RequestTracker := ⟨fun _ => 0⟩

variable (t : RequestTracker)

def startRequest (set : ℕ) : RequestTracker :=
  ⟨Function.update t.theRequestHash set (t.theRequestHash set + 1)⟩

def endRequest (set : ℕ) : Except ControllerFault RequestTracker :=
  if t.theRequestHash set = 0 then .error .endRequest
  else .ok ⟨Function.update t.theRequestHash set (t.theRequestHash set - 1)⟩

end RequestTracker

end Cache

end Flexus
