import Flexus.Lib.Machine
import Flexus.UArch.MemQueue

/-!
# Miss status holding registers

An entry of the memory queue that has been issued to memory waits on an MSHR, of which there is
one for each physical address (`components/uArch/CoreModel/arbiter.cpp`, `memunit.cpp` and
`memreply.cpp`). The entry points to the MSHR, and the MSHR lists the entries that wait on it,
as iterators into the queue. Other operations on the address are *blocked*: the MSHR remembers
their instructions, and they ask for a memory port again when it is removed. So do the store
prefetches it has blocked.

An MSHR is removed by the reply from memory, and otherwise with the last entry that waits on it:
when the entry is erased, when its address changes, when the core is reset, and when it aborts a
speculation.

The links are what is modelled here, and faults stand for what happens to broken ones: an
iterator of the list that no longer belongs to an entry of the queue, or to one that does not
point back; a pointer to an MSHR that is gone; and the assertions about the two. Other
assertions are left out. Loads that search the queue again, or lose their operands, on account
of a change to another entry are steps of their own, and so is a write of the values of an entry
in which no link is touched. The arbiter is left out: it may issue an entry at any time.
-/

namespace Flexus

namespace UArch

open Flexus.Lib

/-- `eQueue`. -/
inductive EQueue
  | kLSQ
  | kSSB
  | kSB
  deriving DecidableEq

/-- `eStatus`. -/
inductive EStatus
  | kComplete
  | kAnnulled
  | kIssuedToMemory
  | kAwaitingPort
  | kAwaitingIssue
  | kAwaitingValue
  | kAwaitingAddress
  deriving DecidableEq

/-- `eOperation`, as far as it is issued to memory. -/
inductive IssueOperation
  | kLoad
  | kStore
  | kRMW
  | kCAS
  | kAtomicPreload
  deriving DecidableEq

/-- `eOperation`, as far as it completes what has been issued. -/
inductive ReplyOperation
  | kLoadReply
  | kStoreReply
  | kRMWReply
  | kCASReply
  | kAtomicPreloadReply
  deriving DecidableEq

/-! ### Entries and registers -/

/-- `MemQueueEntry`, with the fields that its issue depends on. Its instruction goes by the
sequence number of the entry. -/
structure LsqEntry extends MemQueueEntry where
  theQueue : EQueue := .kLSQ
  theVaddr : BitVec 64 := kUnresolved
  /-- `theDependance` is set. -/
  theDependance : Bool := false
  theIssued : Bool := false
  theStoreComplete : Bool := false
  theSpeculatedValue : Bool := false
  theBypassSB : Bool := false
  /-- `theMSHR`, by its address. -/
  theMSHR : Option (BitVec 64) := none
  deriving DecidableEq

/-- The values of an entry, and the flags that tell how far it has come. -/
structure LsqData where
  theAnnulled : Bool
  thePartialSnoop : Bool
  theIssued : Bool
  theStoreComplete : Bool
  theSpeculatedValue : Bool
  theValue : Option (BitVec 64)
  theExtendedValue : Option (BitVec 64)
  deriving DecidableEq

/-- What the translation of an address gives. -/
structure Translation where
  thePaddr : BitVec 64
  theASI : ℕ := 0x80
  theSideEffect : Bool := false
  theInverseEndian : Bool := false
  theMMU : Bool := false
  theException : ℕ := 0
  deriving DecidableEq

namespace LsqEntry

variable (e : LsqEntry)

/-- The key of an entry. -/
def seq : ℕ := e.theSequenceNum

/-- The status of an entry that has not completed: where it stands on its way to memory. -/
def pending (otherwise : EStatus) : EStatus :=
  if e.theMSHR.isSome then .kIssuedToMemory
  else if e.theIssued then .kAwaitingPort
  else otherwise

/-- **`status`**. -/
def status : EStatus :=
  if e.theAnnulled then .kAnnulled
  else if e.theOperation = .kMEMBARMarker then .kIssuedToMemory
  else if e.thePaddr = kUnresolved then .kAwaitingAddress
  else match e.theOperation with
    | .kLoad => if e.theValue.isSome then .kComplete else e.pending .kAwaitingIssue
    | .kStore => if e.theValue.isNone then .kAwaitingValue else e.pending .kAwaitingIssue
    | .kRMW | .kCAS =>
      if e.theValue.isSome && e.theExtendedValue.isSome then .kComplete
      else e.pending <|
        if e.theExtendedValue.isSome && e.theValue.isNone then .kAwaitingValue
        else .kAwaitingIssue
    | .kMEMBARMarker => .kIssuedToMemory

def isNAW : Bool := e.theBypassSB

/-- A write of the values and the flags. -/
def write (d : LsqData) : LsqEntry :=
  { e with
    theAnnulled := d.theAnnulled, thePartialSnoop := d.thePartialSnoop
    theIssued := d.theIssued, theStoreComplete := d.theStoreComplete
    theSpeculatedValue := d.theSpeculatedValue, theValue := d.theValue
    theExtendedValue := d.theExtendedValue }

/-- An entry that has not asked for a port, or no longer. -/
def unissued : LsqEntry := { e with theIssued := false }

/-- An entry that waits on no MSHR. -/
def unlinked : LsqEntry := { e with theMSHR := none }

/-- An entry that waits on the MSHR of an address. -/
def waitingOn (a : BitVec 64) : LsqEntry := { e with theMSHR := some a }

/-- An entry whose value is withdrawn. -/
def withoutLoadValue : LsqEntry := { e with toMemQueueEntry := e.setLoadValue none }

/-- **`updateVaddr`**. The attributes of an address are those of its translation, but that a high
address always has side effects. -/
def updateVaddr (anAddr : BitVec 64) (xlat : Translation) : LsqEntry :=
  if anAddr = kUnresolved then { e with theVaddr := anAddr, thePaddr := kUnresolved }
  else
    { e with
      theVaddr := anAddr, theASI := xlat.theASI, thePaddr := xlat.thePaddr
      theSideEffect := xlat.theSideEffect || decide (0x40000000000 < xlat.thePaddr.toNat)
      theInverseEndian := xlat.theInverseEndian, theMMU := xlat.theMMU
      theException := xlat.theException }

/-- The operation that is issued for an entry: half of an atomic one, if it is speculative. -/
def issueOp (theSpeculativeOrder : Bool) : Option IssueOperation :=
  match e.theOperation with
  | .kLoad => some .kLoad
  | .kStore => some .kStore
  | .kRMW => some (atomicHalf .kRMW)
  | .kCAS => some (atomicHalf .kCAS)
  | .kMEMBARMarker => none
where
  atomicHalf (whole : IssueOperation) : IssueOperation :=
    if !theSpeculativeOrder then whole
    else if e.isAbnormalAccess then whole
    else if e.theQueue = .kLSQ then .kAtomicPreload
    else .kStore

end LsqEntry

/-- **`MSHR`**. -/
structure Mshr where
  thePaddr : BitVec 64
  theOperation : IssueOperation
  theSize : Size
  /-- `theWaitingLSQs`: entries of the queue, by their numbers. -/
  theWaitingLSQs : List ℕ
  theBlockedOps : List ℕ := []
  theBlockedPrefetches : List ℕ := []
  deriving DecidableEq

/-- The key of an MSHR. -/
def Mshr.key (m : Mshr) : ℕ := m.thePaddr.toNat

/-- `satisfies`. -/
def satisfies (theSpeculativeOrder : Bool) (aResponse : ReplyOperation) :
    IssueOperation → Bool
  | .kLoad => aResponse == .kLoadReply
  | .kStore => aResponse == .kStoreReply
  | .kRMW => aResponse == .kRMWReply || (theSpeculativeOrder &&
      (aResponse == .kAtomicPreloadReply || aResponse == .kStoreReply))
  | .kCAS => aResponse == .kCASReply || (theSpeculativeOrder &&
      (aResponse == .kAtomicPreloadReply || aResponse == .kStoreReply))
  | .kAtomicPreload => aResponse == .kAtomicPreloadReply

/-- What a broken link leads to. -/
inductive MissFault
  /-- A list of waiting entries is traversed, and an element is no entry of the queue, or one
  that does not point back. -/
  | danglingLSQ
  /-- An entry points to an MSHR that is gone. -/
  | danglingMSHR
  /-- `breakMSHRLink`: the MSHR does not list the entry. -/
  | notWaiting
  /-- `scanAndAttachMSHR`, `scanAndBlockMSHR`, `scanAndBlockPrefetch`: nothing waits on an
  MSHR. -/
  | noneWaiting
  /-- `scanAndAttachMSHR`: the entry waits on an MSHR already. -/
  | alreadyWaiting
  deriving DecidableEq

/-! ### The core -/

/-- **The memory queue and the MSHRs of a core.** -/
structure MissCore where
  theMemQueue : List LsqEntry
  /-- `theMSHRs`, in the order of the addresses. -/
  theMSHRs : List Mshr
  theMemorySequenceNum : ℕ
  /-- The port requests that have been made for blocked operations. -/
  portWakes : List ℕ
  /-- The prefetch requests that have been made for blocked prefetches. -/
  prefetchWakes : List ℕ
  deriving DecidableEq

namespace MissCore

variable (theSpeculativeOrder : Bool) (s : MissCore)

/-- The entry of an instruction. -/
def find (k : ℕ) : Option LsqEntry := Keyed.lookup LsqEntry.seq s.theMemQueue k

/-- There is an entry of an instruction. -/
def queued (k : ℕ) : Bool := (s.find k).isSome

/-- The MSHR of an address. -/
def mshr (a : BitVec 64) : Option Mshr := Keyed.lookup Mshr.key s.theMSHRs a.toNat

/-- A change of an entry. -/
def modify (k : ℕ) (f : LsqEntry → LsqEntry) : MissCore :=
  { s with theMemQueue := Keyed.update LsqEntry.seq s.theMemQueue k f }

/-- A change of an MSHR. -/
def modifyMSHR (a : BitVec 64) (f : Mshr → Mshr) : MissCore :=
  { s with theMSHRs := Keyed.update Mshr.key s.theMSHRs a.toNat f }

/-- `theMSHRs.erase`. -/
def eraseMSHR (a : BitVec 64) : MissCore :=
  { s with theMSHRs := Keyed.erase Mshr.key s.theMSHRs a.toNat }

/-- `theMSHRs.insert`, at its place in the order. -/
def insertMSHR (m : Mshr) : MissCore :=
  { s with
    theMSHRs := s.theMSHRs.takeWhile (fun x => x.key < m.key) ++
      m :: s.theMSHRs.dropWhile (fun x => x.key < m.key) }

/-- The element of a list of waiting entries is an entry that points back to the MSHR. -/
def pointsBack (a : BitVec 64) (k : ℕ) : Bool :=
  (s.find k).any fun e => e.theMSHR == some a

/-! ### Port requests -/

/-- The first entry in the order of the index `by_queue`. -/
def lsqHead : Option LsqEntry :=
  (s.theMemQueue.find? fun e => e.theQueue == .kLSQ).or <|
    (s.theMemQueue.find? fun e => e.theQueue == .kSSB).or
      (s.theMemQueue.find? fun e => e.theQueue == .kSB)

/-- An entry that may ask for a port: it waits to be issued, or is the store of an atomic
operation that has retired speculatively. -/
def mayRequestPort (e : LsqEntry) : Bool :=
  e.status == .kAwaitingIssue || e.status == .kAwaitingPort ||
    (e.isAtomic &&
      ((!e.theStoreComplete && e.status == .kComplete) || e.status == .kAwaitingValue))

/-- **`requestPort`**. The request goes to the arbiter; it shows in `theIssued`. -/
def requestPort (k : ℕ) : MissCore :=
  match s.find k with
  | none => s
  | some e =>
    if !mayRequestPort e then s
    else if e.thePartialSnoop && s.lsqHead.map LsqEntry.seq != some k then s
    else s.modify k fun e => { e with theIssued := true }

/-- The port request for an operation that was blocked. -/
def wakePort (k : ℕ) : MissCore :=
  let s := s.requestPort k
  { s with portWakes := s.portWakes ++ [k] }

/-- The blocked operations of an MSHR ask for a port again. -/
def wakePorts (ks : List ℕ) : MissCore := ks.foldl wakePort s

/-- The blocked prefetches of an MSHR are requested again, for instructions that still have an
entry. -/
def wakePrefetches (ks : List ℕ) : MissCore :=
  { s with prefetchWakes := s.prefetchWakes ++ ks.filter s.queued }

/-- An MSHR on which nothing waits any longer is removed. -/
def removeMSHR (m : Mshr) : MissCore :=
  ((s.wakePrefetches m.theBlockedPrefetches).eraseMSHR m.thePaddr).wakePorts m.theBlockedOps

/-! ### Leaving an MSHR -/

/-- The list of an MSHR is cut down; an MSHR on which nothing waits any longer is removed. -/
def shrinkMSHR (m : Mshr) (rest : List ℕ) : MissCore :=
  if rest.isEmpty then s.removeMSHR m
  else s.modifyMSHR m.thePaddr fun m => { m with theWaitingLSQs := rest }

/-- `breakMSHRLink`, for an entry that waits on an MSHR. -/
def leaveMSHR (k : ℕ) (a : BitVec 64) : Except MissFault MissCore :=
  match s.mshr a with
  | none => .error .danglingMSHR
  | some m =>
    if !m.theWaitingLSQs.all (s.pointsBack a) then .error .danglingLSQ
    else if k ∉ m.theWaitingLSQs then .error .notWaiting
    else .ok ((s.shrinkMSHR m (m.theWaitingLSQs.erase k)).modify k LsqEntry.unlinked)

/-- **`breakMSHRLink`**. -/
def breakMSHRLink (k : ℕ) : Except MissFault MissCore :=
  match s.find k with
  | none => .ok s
  | some e =>
    match e.theMSHR with
    | none => .ok (s.modify k LsqEntry.unissued)
    | some a => (s.modify k LsqEntry.unissued).leaveMSHR k a

/-- **`eraseLSQ`**. -/
def eraseLSQ (k : ℕ) : Except MissFault MissCore :=
  match s.find k with
  | none => .ok s
  | some _ => do
    let s ← s.breakMSHRLink k
    .ok { s with theMemQueue := Keyed.erase LsqEntry.seq s.theMemQueue k }

/-- **`insertLSQ`**. The numbers of the instructions increase, and need not be consecutive. -/
def insertLSQ (gap : ℕ) (anOperation : MemOperation) (aSize : Size) (aBypassSB : Bool)
    (aDependance : Bool) : MissCore :=
  let k := s.theMemorySequenceNum + gap + 1
  { s with
    theMemorySequenceNum := k
    theMemQueue := s.theMemQueue ++
      [{ theSequenceNum := k, thePaddr := kUnresolved, theOperation := anOperation
         theSize := aSize, theBypassSB := aBypassSB, theDependance := aDependance }] }

/-! ### Issue -/

/-- `scanAndBlockMSHR`, for an address with an MSHR. -/
def blockOp (m : Mshr) (k : ℕ) : Except MissFault MissCore :=
  if m.theWaitingLSQs.isEmpty then .error .noneWaiting
  else .ok <| s.modifyMSHR m.thePaddr fun m =>
    { m with theBlockedOps := m.theBlockedOps ++ [k] }

/-- `scanAndAttachMSHR`, for a load of the size of the one that the MSHR is for. -/
def attach (m : Mshr) (e : LsqEntry) : Except MissFault MissCore :=
  if m.theWaitingLSQs.isEmpty then .error .noneWaiting
  else if e.theMSHR.isSome then .error .alreadyWaiting
  else .ok <| (s.modifyMSHR m.thePaddr fun m =>
      { m with theWaitingLSQs := m.theWaitingLSQs ++ [e.seq] }).modify e.seq
    fun e => e.waitingOn m.thePaddr

/-- A new MSHR for an entry. -/
def fillMSHR (op : IssueOperation) (e : LsqEntry) : MissCore :=
  (s.insertMSHR { thePaddr := e.thePaddr, theOperation := op, theSize := e.theSize
                  theWaitingLSQs := [e.seq] }).modify e.seq
    fun e' => e'.waitingOn e.thePaddr

/-- An operation on an address that could not be translated. A load has its value at once, a
store has nothing to do. -/
def issueInvalid (e : LsqEntry) : IssueOperation → Except MissFault MissCore
  | .kLoad | .kAtomicPreload =>
    .ok (s.modify e.seq fun e => { e with theValue := some 0, theExtendedValue := some 0 })
  | .kStore | .kRMW | .kCAS => if e.theDependance then .ok s else s.eraseLSQ e.seq

/-- The part of `issue` that is reached with an operation. -/
def issueAs (op : IssueOperation) (e : LsqEntry) : Except MissFault MissCore :=
  if e.thePaddr = 0 then s.issueInvalid e op
  else match s.mshr e.thePaddr with
    | none => .ok (s.fillMSHR op e)
    | some m =>
      if op = .kLoad ∧ m.theOperation = .kLoad ∧ m.theSize = e.theSize then s.attach m e
      else s.blockOp m e.seq

/-- An entry that `issue` does not ignore. -/
def mayIssue (e : LsqEntry) : Bool :=
  e.status == .kAwaitingPort ||
    (e.isAtomic && e.status == .kComplete && !e.theStoreComplete)

/-- **`issue`**. -/
def issue (k : ℕ) : Except MissFault MissCore :=
  match s.find k with
  | none => .ok s
  | some e =>
    if !mayIssue e then .ok s
    else match e.issueOp theSpeculativeOrder with
      | none => .ok s
      | some op => s.issueAs op e

/-- **`issueStorePrefetch`**. Whether the write permission is there already is left open. -/
def issueStorePrefetch (k : ℕ) (onChip : Bool) : Except MissFault MissCore :=
  match s.find k with
  | none => .ok s
  | some e =>
    if e.isAbnormalAccess || e.isNAW || e.thePaddr == kInvalid || e.thePaddr == kUnresolved ||
        onChip then .ok s
    else match s.mshr e.thePaddr with
      | none => .ok s
      | some m =>
        if m.theWaitingLSQs.isEmpty then .error .noneWaiting
        else .ok <| s.modifyMSHR m.thePaddr fun m =>
          { m with theBlockedPrefetches := m.theBlockedPrefetches ++ [k] }

/-! ### Replies -/

/-- **`completeLSQ`**, for an entry that waits on the MSHR of an address. The values that an
entry gets from the reply are left open. A store that has committed leaves the queue. -/
def completeLSQ (op : ReplyOperation) (a : BitVec 64) (d : LsqEntry → LsqData) (s : MissCore)
    (k : ℕ) : Except MissFault MissCore :=
  match s.find k with
  | none => .error .danglingLSQ
  | some e =>
    if e.theMSHR ≠ some a then .error .danglingLSQ
    else
      let s := s.modify k fun e => (e.write (d e)).unlinked
      if op = .kStoreReply ∧ e.theQueue = .kSB then s.eraseLSQ k else .ok s

/-- **`complete`**. -/
def complete (op : ReplyOperation) (a : BitVec 64) (size : Size) (d : LsqEntry → LsqData) :
    Except MissFault MissCore :=
  match s.mshr a with
  | none => .ok s
  | some m =>
    if satisfies theSpeculativeOrder op m.theOperation && m.theSize == size then do
      let s ← m.theWaitingLSQs.foldlM (completeLSQ op a d) (s.eraseMSHR a)
      .ok ((s.wakePorts m.theBlockedOps).wakePrefetches m.theBlockedPrefetches)
    else .ok s

/-! ### Loads -/

/-- The search of a load among the stores before it. -/
def snoop (e : LsqEntry) (cached : SnoopState) : LsqEntry :=
  { e with
    toMemQueueEntry :=
      (snoopStores (s.theMemQueue.map LsqEntry.toMemQueueEntry) e.toMemQueueEntry cached).1 }

/-- The end of `doLoad`: what becomes of a load that has searched. -/
def afterSnoop (k : ℕ) (previousValue : Option (BitVec 64)) : MissCore :=
  match s.find k with
  | none => s
  | some e =>
    if e.isAtomic && e.thePartialSnoop then s
    else match e.status with
      | .kComplete | .kAwaitingValue =>
        if previousValue != e.loadValue then s.modify k LsqEntry.unissued else s
      | .kAwaitingIssue => s.requestPort k
      | _ => s

/-- `doLoad`, after the previous status of the load has been dealt with. -/
def snoopLoad (k : ℕ) (previousValue : Option (BitVec 64)) (cached : SnoopState) : MissCore :=
  match s.find k with
  | none => s
  | some e =>
    if e.isAbnormalAccess then s.modify k LsqEntry.unissued
    else if e.isAtomic && !theSpeculativeOrder then s
    else (s.modify k fun e => s.snoop e cached).afterSnoop k previousValue

/-- **`doLoad`**. -/
def doLoad (k : ℕ) (cached : SnoopState) : Except MissFault MissCore :=
  match s.find k with
  | none => .ok s
  | some e =>
    let unissued := s.modify k LsqEntry.unissued
    if !e.isLoad then .ok s
    else if e.isAtomic && e.thePartialSnoop then
      .ok (s.modify k fun e => e.withoutLoadValue.unissued)
    else match e.status with
      | .kAwaitingValue | .kComplete =>
        .ok (unissued.snoopLoad theSpeculativeOrder k e.loadValue cached)
      | .kAnnulled => .ok unissued
      | .kIssuedToMemory => do
        let s ← s.breakMSHRLink k
        .ok (s.snoopLoad theSpeculativeOrder k none cached)
      | .kAwaitingPort | .kAwaitingIssue =>
        if e.isAtomic then .ok (unissued.snoopLoad theSpeculativeOrder k e.loadValue cached)
        else .ok (s.snoopLoad theSpeculativeOrder k none cached)
      | .kAwaitingAddress => .ok s

/-- The link of an entry is broken if there is one. -/
def breakIfWaiting (k : ℕ) (e : LsqEntry) : Except MissFault MissCore :=
  if e.theMSHR.isSome then s.breakMSHRLink k else .ok s

/-- The part of `resolveVAddr` that withdraws the address of an entry. -/
def unresolve (k : ℕ) (e : LsqEntry) : Except MissFault MissCore := do
  let s :=
    if e.isLoad && e.loadValue.isSome then s.modify k LsqEntry.withoutLoadValue else s
  let s ← s.breakIfWaiting k e
  .ok (s.modify k LsqEntry.unissued)

/-- The part of `resolveVAddr` that follows the change of the address. -/
def afterResolve (k : ℕ) : Except MissFault MissCore :=
  match s.find k with
  | none => .ok s
  | some e =>
    match e.status with
    | .kComplete | .kAwaitingIssue | .kAwaitingPort | .kIssuedToMemory =>
      s.doLoad theSpeculativeOrder k none
    | .kAwaitingValue => if e.isAtomic then s.doLoad theSpeculativeOrder k none else .ok s
    | .kAnnulled | .kAwaitingAddress => .ok s

/-- **`resolveVAddr`**. -/
def resolveVAddr (k : ℕ) (anAddr : BitVec 64) (xlat : Translation) :
    Except MissFault MissCore :=
  match s.find k with
  | none => .ok s
  | some e =>
    if e.theVaddr = anAddr then .ok s
    else if anAddr = kUnresolved then do
      let s ← s.unresolve k e
      (s.modify k fun e => e.updateVaddr anAddr xlat).afterResolve theSpeculativeOrder k
    else (s.modify k fun e => e.updateVaddr anAddr xlat).afterResolve theSpeculativeOrder k

/-! ### Clearing the queues -/

/-- The entry of an element is going to be discarded. -/
def discards (aDiscardAfterSequenceNum : ℕ) (k : ℕ) : Bool :=
  (s.find k).any fun e =>
    e.theQueue == .kLSQ || (e.theQueue == .kSSB && decide (aDiscardAfterSequenceNum ≤ e.seq))

/-- `cleanMSHRS`, for one MSHR. -/
def cleanMSHR (aDiscardAfterSequenceNum : ℕ) (s : MissCore) (a : BitVec 64) :
    Except MissFault MissCore :=
  match s.mshr a with
  | none => .ok s
  | some m =>
    if !m.theWaitingLSQs.all (s.pointsBack a) then .error .danglingLSQ
    else .ok <| s.shrinkMSHR m <|
        m.theWaitingLSQs.filter fun k => !s.discards aDiscardAfterSequenceNum k

/-- **`cleanMSHRS`**. -/
def cleanMSHRS (aDiscardAfterSequenceNum : ℕ) : Except MissFault MissCore :=
  (s.theMSHRs.map Mshr.thePaddr).foldlM (cleanMSHR aDiscardAfterSequenceNum) s

/-- `clearLSQ`. -/
def clearLSQ : MissCore :=
  { s with theMemQueue := s.theMemQueue.filter fun e => e.theQueue != .kLSQ }

/-- `clearSSB`. -/
def clearSSB : MissCore :=
  { s with theMemQueue := s.theMemQueue.filter fun e => e.theQueue != .kSSB }

/-- **`clearSSB`**, from a sequence number on. If no entry has the number or a later one, the
lower bound has not moved, and the whole SSB is erased. -/
def clearSSBFrom (aLowestInsnSeq : ℕ) : MissCore :=
  let found := s.theMemQueue.any fun e => e.theQueue == .kSSB && decide (aLowestInsnSeq ≤ e.seq)
  { s with
    theMemQueue := s.theMemQueue.filter fun e =>
      !(e.theQueue == .kSSB && (!found || decide (aLowestInsnSeq ≤ e.seq))) }

/-- **`reset`**: the MSHRs are cleaned before the queues are cleared. -/
def reset : Except MissFault MissCore := do
  let s ← s.cleanMSHRS 0
  .ok s.clearLSQ.clearSSB

/-- **`doAbortSpeculation`**, to the checkpoint of an instruction. The LSQ is cleared, by
`resetv9`, before the MSHRs are cleaned. -/
def doAbortSpeculation (ckptSeqNum : ℕ) : Except MissFault MissCore := do
  let s ← s.clearLSQ.cleanMSHRS ckptSeqNum
  .ok (s.clearSSBFrom ckptSeqNum)

/-! ### Steps -/

/-- `retireMem`, of an operation that stays in the queue. -/
def retireMem (k : ℕ) : MissCore :=
  s.modify k fun e => if e.theQueue = .kLSQ then { e with theQueue := .kSSB } else e

/-- `commitStore`, and the end of the speculation of an atomic operation. -/
def commitStore (k : ℕ) : MissCore :=
  s.modify k fun e => if e.theQueue = .kSSB then { e with theQueue := .kSB } else e

end MissCore

/-- The memory operations of a core. -/
inductive MissEvent
  | insertLSQ (gap : ℕ) (op : MemOperation) (size : Size) (bypassSB dependance : Bool)
  | eraseLSQ (k : ℕ)
  | issue (k : ℕ)
  | issueStorePrefetch (k : ℕ) (onChip : Bool)
  | complete (op : ReplyOperation) (a : BitVec 64) (size : Size) (d : LsqEntry → LsqData)
  | resolveVAddr (k : ℕ) (anAddr : BitVec 64) (xlat : Translation)
  | doLoad (k : ℕ) (cached : SnoopState)
  | write (k : ℕ) (d : LsqData)
  | requestPort (k : ℕ)
  | retireMem (k : ℕ)
  | commitStore (k : ℕ)
  | reset
  | doAbortSpeculation (ckptSeqNum : ℕ)

/-- **What an operation does.** -/
def MissCore.step (theSpeculativeOrder : Bool) (s : MissCore) :
    MissEvent → Except MissFault MissCore
  | .insertLSQ gap op size bypassSB dependance =>
    .ok (s.insertLSQ gap op size bypassSB dependance)
  | .eraseLSQ k => s.eraseLSQ k
  | .issue k => s.issue theSpeculativeOrder k
  | .issueStorePrefetch k onChip => s.issueStorePrefetch k onChip
  | .complete op a size d => s.complete theSpeculativeOrder op a size d
  | .resolveVAddr k anAddr xlat => s.resolveVAddr theSpeculativeOrder k anAddr xlat
  | .doLoad k cached => s.doLoad theSpeculativeOrder k cached
  | .write k d => .ok (s.modify k fun e => e.write d)
  | .requestPort k => .ok (s.requestPort k)
  | .retireMem k => .ok (s.retireMem k)
  | .commitStore k => .ok (s.commitStore k)
  | .reset => s.reset
  | .doAbortSpeculation ckptSeqNum => s.doAbortSpeculation ckptSeqNum

/-- **The memory operations of a core**, from an empty queue on. -/
def missMachine (theSpeculativeOrder : Bool) : Machine MissCore MissEvent MissFault where
  init := ⟨[], [], 0, [], []⟩
  step := MissCore.step theSpeculativeOrder

end UArch

end Flexus
