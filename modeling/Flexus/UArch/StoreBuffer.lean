import Flexus.UArch.MissStatus

/-!
# Write permissions of the store buffer

Stores and atomic operations that have retired wait in the memory queue until they are performed
in memory: in the SSB while they are speculative, then in the SB. For every coherence block they
write, the core tracks how many of them there are, and whether it has the permission to write
the block (`theSBLines_Permission`; `components/uArch/CoreModel/cycle.cpp` and `memunit.cpp`). It
also keeps the number of tracked blocks without permission, which tells whether the store buffer
is full.

A speculation starts with a checkpoint. Under sequential consistency the blocks of all stores
that retire after it are *required* by the checkpoint, otherwise those of atomic operations; the
speculation ends when all of them are *held*, and the checkpoint is released when its instruction
commits.

One step here is one call of the core's cycle, in the order of the cycle: replies and
invalidations, then the resolution of a checkpoint, retirement, and at the end the commits, with
an abort of the speculation in front of them. Which instructions retire, which replies arrive
and which checkpoint is aborted to is left open, and so is the decision of a load to take a
checkpoint where the consistency model allows it. Only the instructions with an entry in the
queue are modelled: others commit as soon as they are the oldest.
-/

namespace Flexus

namespace UArch

open Flexus.Lib

/-- `eConsistencyModel`. -/
inductive ConsistencyModel
  | kSC
  | kTSO
  | kRMO
  deriving DecidableEq

/-- An entry of `theSBLines_Permission`. -/
structure SbLine where
  block : ℕ
  count : ℤ
  permission : Bool
  deriving DecidableEq

/-- A line with another count. -/
def SbLine.add (d : ℤ) (l : SbLine) : SbLine := { l with count := l.count + d }

/-- A line with a permission, or without. -/
def SbLine.permit (p : Bool) (l : SbLine) : SbLine := { l with permission := p }

/-- `Checkpoint`, as far as permissions go. -/
structure StoreCheckpoint where
  /-- The instruction, by its number. -/
  insn : ℕ
  /-- `theRequiredPermissions`: blocks, and the first instruction that requires each. -/
  theRequiredPermissions : List (ℕ × ℕ) := []
  theHeldPermissions : List ℕ := []
  deriving DecidableEq

/-- A block is required by a checkpoint, and held if the permission is there. -/
def StoreCheckpoint.require (c : StoreCheckpoint) (b insn : ℕ) (permission : Bool) :
    StoreCheckpoint :=
  { c with
    theRequiredPermissions :=
      if c.theRequiredPermissions.any (fun r => r.1 == b) then c.theRequiredPermissions
      else c.theRequiredPermissions ++ [(b, insn)]
    theHeldPermissions :=
      if permission && !c.theHeldPermissions.contains b then c.theHeldPermissions ++ [b]
      else c.theHeldPermissions }

/-- A permission that a checkpoint requires is held. -/
def StoreCheckpoint.acquire (c : StoreCheckpoint) (b : ℕ) : StoreCheckpoint :=
  if c.theRequiredPermissions.any (fun r => r.1 == b) && !c.theHeldPermissions.contains b then
    { c with theHeldPermissions := c.theHeldPermissions ++ [b] }
  else c

/-- A permission is lost. -/
def StoreCheckpoint.lose (c : StoreCheckpoint) (b : ℕ) : StoreCheckpoint :=
  { c with theHeldPermissions := c.theHeldPermissions.erase b }

/-- An instruction in the speculative retirement buffer. -/
structure RetiredInsn where
  seq : ℕ
  theOperation : MemOperation
  mayCommit : Bool
  deriving DecidableEq

/-- The assertions about the counters. -/
inductive SbFault
  /-- `theSBLines_Permission_falsecount` is negative or more than the number of lines. -/
  | falsecount
  /-- The count of a line is negative. -/
  | lineCount
  /-- `theLSQCount` is negative. -/
  | lsqCount
  /-- `theSBCount` is negative. -/
  | sbCount
  /-- `theSBNAWCount` is negative. -/
  | sbnawCount
  /-- The counts do not add up to the size of the queue. -/
  | queueSize
  deriving DecidableEq

/-- **The queue of a core, and what it tracks of it.** -/
structure SbCore where
  theMemQueue : List LsqEntry := []
  theMemorySequenceNum : ℕ := 0
  theLSQCount : ℤ := 0
  theSBCount : ℤ := 0
  theSBNAWCount : ℤ := 0
  /-- `theSBLines_Permission`. -/
  theLines : List SbLine := []
  /-- `theSBLines_Permission_falsecount`. -/
  theFalsecount : ℤ := 0
  theSRB : List RetiredInsn := []
  theCheckpoints : List StoreCheckpoint := []
  theOpenCheckpoint : Option ℕ := none
  /-- The cycle has come to `resolveCheckpoint`, and not to its end. -/
  resolving : Bool := false
  deriving DecidableEq

namespace SbCore

variable (theCoherenceUnit : BitVec 64) (theConsistencyModel : ConsistencyModel) (s : SbCore)

/-- The coherence block of an address. -/
def block (a : BitVec 64) : ℕ := (a &&& ~~~(theCoherenceUnit - 1)).toNat

/-- The entry of an instruction. -/
def find (k : ℕ) : Option LsqEntry := Keyed.lookup LsqEntry.seq s.theMemQueue k

/-- A change of an entry. -/
def modify (k : ℕ) (f : LsqEntry → LsqEntry) : SbCore :=
  { s with theMemQueue := Keyed.update LsqEntry.seq s.theMemQueue k f }

/-- The line of a block. -/
def line (b : ℕ) : Option SbLine := Keyed.lookup SbLine.block s.theLines b

/-- `hasCheckpoint`, of an instruction. -/
def hasCheckpoint (k : ℕ) : Bool := s.theCheckpoints.any fun c => c.insn == k

/-- The assertions about `theSBLines_Permission_falsecount`. -/
def checkFalsecount : Except SbFault SbCore :=
  if 0 ≤ s.theFalsecount ∧ s.theFalsecount ≤ s.theLines.length then .ok s
  else .error .falsecount

/-- The assertions about the counts of the queues. -/
def checkCounts : Except SbFault SbCore :=
  if s.theLSQCount < 0 then .error .lsqCount
  else if s.theSBCount < 0 then .error .sbCount
  else if s.theSBNAWCount < 0 then .error .sbnawCount
  else .ok s

/-- The assertion about the size of the queue. -/
def checkSize : Except SbFault SbCore :=
  if s.theLSQCount + s.theSBCount + s.theSBNAWCount = s.theMemQueue.length then .ok s
  else .error .queueSize

/-! ### Permissions -/

/-- The part of `requireWritePermission` about the open checkpoint. -/
def requireAtCheckpoint (e : LsqEntry) (b : ℕ) (permission : Bool) : SbCore :=
  match s.theOpenCheckpoint with
  | none => s
  | some k =>
    if theConsistencyModel = .kSC || e.isAtomic then
      { s with
        theCheckpoints := s.theCheckpoints.map fun c =>
          if c.insn = k then c.require b e.seq permission else c }
    else s

/-- There is a permission for a block. -/
def permission (b : ℕ) : Bool := (s.line b).any SbLine.permission

/-- The part of `requireWritePermission` about the line of a block. -/
def countLine (b : ℕ) : Except SbFault SbCore :=
  match s.line b with
  | none =>
    checkFalsecount { s with
      theLines := s.theLines ++ [{ block := b, count := 1, permission := false }]
      theFalsecount := s.theFalsecount + 1 }
  | some _ =>
    .ok { s with theLines := Keyed.update SbLine.block s.theLines b (SbLine.add 1) }

/-- **`requireWritePermission`**. -/
def requireWritePermission (e : LsqEntry) : Except SbFault SbCore :=
  if e.thePaddr = 0 then .ok s
  else do
    let t ← s.countLine (block theCoherenceUnit e.thePaddr)
    .ok (t.requireAtCheckpoint theConsistencyModel e (block theCoherenceUnit e.thePaddr)
      (s.permission (block theCoherenceUnit e.thePaddr)))

/-- **`unrequireWritePermission`**. -/
def unrequireWritePermission (anAddress : BitVec 64) : Except SbFault SbCore :=
  let b := block theCoherenceUnit anAddress
  match s.line b with
  | none => .ok s
  | some l =>
    if l.count - 1 < 0 then .error .lineCount
    else if l.count - 1 = 0 then
      let s := { s with theLines := Keyed.erase SbLine.block s.theLines b }
      if !l.permission then
        let n := s.theFalsecount - 1
        if n < 0 then .error .falsecount else .ok { s with theFalsecount := n }
      else .ok s
    else .ok { s with theLines := Keyed.update SbLine.block s.theLines b (SbLine.add (-1)) }

/-- **`acquireWritePermission`**. -/
def acquireWritePermission (anAddress : BitVec 64) : Except SbFault SbCore :=
  let b := block theCoherenceUnit anAddress
  match s.line b with
  | none => .ok s
  | some l =>
    let n := if !l.permission then s.theFalsecount - 1 else s.theFalsecount
    if n < 0 then .error .falsecount
    else .ok { s with
      theFalsecount := n
      theLines := Keyed.update SbLine.block s.theLines b (SbLine.permit true)
      theCheckpoints := s.theCheckpoints.map fun c => c.acquire b }

/-- The part of `loseWritePermission` about a permission that was there. -/
def countLost (l : SbLine) : Except SbFault SbCore :=
  if l.permission then checkFalsecount { s with theFalsecount := s.theFalsecount + 1 }
  else .ok s

/-- **`loseWritePermission`**. What is done about the loss – another request, or an abort – is
left open. -/
def loseWritePermission (anAddress : BitVec 64) : Except SbFault SbCore :=
  let b := block theCoherenceUnit anAddress
  match s.line b with
  | none => .ok s
  | some l => do
    let s ← s.countLost l
    .ok { s with
      theLines := Keyed.update SbLine.block s.theLines b (SbLine.permit false)
      theCheckpoints := s.theCheckpoints.map fun c => c.lose b }

/-! ### Checkpoints -/

/-- **`createCheckpoint`**. -/
def createCheckpoint (k : ℕ) : SbCore :=
  { s with theCheckpoints := s.theCheckpoints ++ [{ insn := k }], theOpenCheckpoint := some k }

/-- **`freeCheckpoint`**. -/
def freeCheckpoint (k : ℕ) : SbCore :=
  { s with
    theCheckpoints := s.theCheckpoints.filter fun c => c.insn != k
    theOpenCheckpoint := if s.theOpenCheckpoint = some k then none else s.theOpenCheckpoint }

/-! ### Entries of the queue -/

/-- **`insertLSQ`**. Only stores are decoded as ones that bypass the store buffer. -/
def insertLSQ (gap : ℕ) (anOperation : MemOperation) (aSize : Size) (aBypassSB : Bool)
    (aDependance : Bool) : Except SbFault SbCore :=
  let k := s.theMemorySequenceNum + gap + 1
  checkSize { s with
    theMemorySequenceNum := k
    theLSQCount := s.theLSQCount + 1
    theMemQueue := s.theMemQueue ++
      [{ theSequenceNum := k, thePaddr := kUnresolved, theOperation := anOperation
         theSize := aSize, theBypassSB := aBypassSB && anOperation == .kStore
         theDependance := aDependance }] }

/-- The counts without an entry. -/
def uncount (e : LsqEntry) : SbCore :=
  match e.theQueue with
  | .kLSQ => { s with theLSQCount := s.theLSQCount - 1 }
  | .kSSB | .kSB =>
    if e.theBypassSB then { s with theSBNAWCount := s.theSBNAWCount - 1 }
    else { s with theSBCount := s.theSBCount - 1 }

/-- The permission of an entry of the store buffer is not required for it any longer. -/
def release (e : LsqEntry) : Except SbFault SbCore :=
  if e.theQueue ≠ .kLSQ ∧ e.isStore then s.unrequireWritePermission theCoherenceUnit e.thePaddr
  else .ok s

/-- **`eraseLSQ`**. -/
def eraseLSQ (k : ℕ) : Except SbFault SbCore :=
  match s.find k with
  | none => .ok s
  | some e => do
    let s ← (s.uncount e).checkCounts
    let s ← s.release theCoherenceUnit e
    checkSize { s with theMemQueue := Keyed.erase LsqEntry.seq s.theMemQueue k }

/-! ### Retirement -/

/-- An instruction goes to the speculative retirement buffer. -/
def pushSRB (k : ℕ) (op : MemOperation) (mayCommit : Bool) : SbCore :=
  { s with theSRB := s.theSRB ++ [⟨k, op, mayCommit⟩] }

/-- An entry moves from the LSQ to the SSB, and is counted there. -/
def moveToSSB (k : ℕ) (naw : Bool) : SbCore :=
  { s.modify k (fun e => { e with theQueue := .kSSB }) with
    theLSQCount := s.theLSQCount - 1
    theSBCount := if naw then s.theSBCount else s.theSBCount + 1
    theSBNAWCount := if naw then s.theSBNAWCount + 1 else s.theSBNAWCount }

/-- An operation that is complete, or has nothing to do, leaves the queue as it retires. -/
def retireErased (e : LsqEntry) : Except SbFault SbCore := do
  let s ← s.eraseLSQ theCoherenceUnit e.seq
  .ok (s.pushSRB e.seq e.theOperation true)

/-- `retireMem`, of an atomic operation. -/
def retireAtomic (e : LsqEntry) : Except SbFault SbCore :=
  if e.theStoreComplete then s.retireErased theCoherenceUnit e
  else do
    let s ← (s.moveToSSB e.seq false).checkCounts
    let s ← (s.createCheckpoint e.seq).requireWritePermission theCoherenceUnit
      theConsistencyModel e
    .ok (s.pushSRB e.seq e.theOperation false)

/-- `retireMem`, of a load. -/
def retireLoad (e : LsqEntry) (speculate : Bool) : Except SbFault SbCore :=
  if speculate ∧ theConsistencyModel = .kSC ∧ !e.isAbnormalAccess ∧
      block theCoherenceUnit e.thePaddr ≠ 0 then do
    let s ← (s.moveToSSB e.seq true).checkCounts
    let s := s.modify e.seq fun e => { e with theBypassSB := true }
    .ok ((s.createCheckpoint e.seq).pushSRB e.seq e.theOperation false)
  else s.retireErased theCoherenceUnit e

/-- `retireMem`, of a store. -/
def retireStore (e : LsqEntry) (annulled : Bool) : Except SbFault SbCore :=
  if annulled || e.isAbnormalAccess then s.retireErased theCoherenceUnit e
  else do
    let s ← (s.moveToSSB e.seq e.theBypassSB).checkCounts
    let s ← s.requireWritePermission theCoherenceUnit theConsistencyModel e
    .ok (s.pushSRB e.seq e.theOperation true)

/-- A MEMBAR retires before the store buffer is empty. -/
def speculateMEMBAR (e : LsqEntry) : SbCore :=
  match theConsistencyModel with
  | .kSC =>
    if s.theCheckpoints.isEmpty then
      (s.createCheckpoint e.seq).pushSRB e.seq e.theOperation false
    else s.pushSRB e.seq e.theOperation true
  | .kTSO => (s.createCheckpoint e.seq).pushSRB e.seq e.theOperation false
  | .kRMO => s.pushSRB e.seq e.theOperation false

/-- `retireMem`, of a MEMBAR. -/
def retireMEMBAR (e : LsqEntry) : Except SbFault SbCore :=
  if s.theSBCount = 0 then s.retireErased theCoherenceUnit e
  else do
    let s ← (s.moveToSSB e.seq false).checkCounts
    .ok (s.speculateMEMBAR theConsistencyModel e)

/-- The oldest entry of the LSQ. -/
def lsqHead : Option LsqEntry := s.theMemQueue.find? fun e => e.theQueue == .kLSQ

/-- **`retireMem`**, of the oldest entry of the LSQ. -/
def retireMem (annulled speculate : Bool) : Except SbFault SbCore :=
  match s.lsqHead with
  | none => .ok s
  | some e =>
    match e.theOperation with
    | .kRMW | .kCAS => s.retireAtomic theCoherenceUnit theConsistencyModel e
    | .kLoad => s.retireLoad theCoherenceUnit theConsistencyModel e speculate
    | .kStore => s.retireStore theCoherenceUnit theConsistencyModel e annulled
    | .kMEMBARMarker => s.retireMEMBAR theCoherenceUnit theConsistencyModel e

/-! ### The end of a speculation -/

/-- `resolveSpeculation`, of an instruction. -/
def resolveSpeculation (k : ℕ) : SbCore :=
  { s with theSRB := s.theSRB.map fun x => if x.seq = k then { x with mayCommit := true } else x }

/-- An entry of the SSB goes to the SB. -/
def moveToSB (k : ℕ) : SbCore := s.modify k fun e => { e with theQueue := .kSB }

/-- The checkpoint of the oldest entry is resolved. -/
def resolveFront (e : LsqEntry) : Except SbFault SbCore :=
  let s := s.resolveSpeculation e.seq
  if e.isAtomic then .ok (s.moveToSB e.seq)
  else if e.isLoad then s.eraseLSQ theCoherenceUnit e.seq
  else .ok s

/-- **`resolveCheckpoint`**. -/
def resolveCheckpoint : Except SbFault SbCore :=
  let s := { s with resolving := true }
  match s.theMemQueue.head? with
  | none => .ok s
  | some e =>
    if e.theQueue = .kSSB ∧ !e.theSpeculatedValue then
      match s.theCheckpoints.find? fun c => c.insn == e.seq with
      | none => .ok s
      | some c =>
        if c.theHeldPermissions.length = c.theRequiredPermissions.length then
          s.resolveFront theCoherenceUnit e
        else .ok s
    else .ok s

/-- The commit effect of an instruction: `commitStore`, `accessMem` or `eraseLSQ`. -/
def commitEffect (x : RetiredInsn) : Except SbFault SbCore :=
  match x.theOperation with
  | .kStore => .ok <| s.modify x.seq fun e =>
      if e.theQueue = .kSSB then { e with theQueue := .kSB } else e
  | .kLoad | .kRMW | .kCAS => .ok <| s.modify x.seq fun e =>
      if e.isAtomic ∧ e.theQueue = .kSSB then { e with theQueue := .kSB } else e
  | .kMEMBARMarker => s.eraseLSQ theCoherenceUnit x.seq

/-- An instruction commits. -/
def commitInsn (x : RetiredInsn) : Except SbFault SbCore :=
  (if s.hasCheckpoint x.seq then s.freeCheckpoint x.seq else s).commitEffect theCoherenceUnit x

/-- The loop of `commit`, over what is left of the retirement buffer. -/
def commitLoop : SbCore → List RetiredInsn → Except SbFault SbCore
  | s, [] => .ok { s with theSRB := [] }
  | s, x :: rest =>
    if x.mayCommit then do
      let s ← s.commitInsn theCoherenceUnit x
      commitLoop s rest
    else .ok { s with theSRB := x :: rest }

/-! ### Clearing the queues -/

/-- `clearLSQ`. -/
def clearLSQ : Except SbFault SbCore :=
  checkSize { s with
    theMemQueue := s.theMemQueue.filter fun e => e.theQueue != .kLSQ
    theLSQCount := 0 }

/-- The permissions of a list of entries are not required any longer. -/
def releaseAll : SbCore → List LsqEntry → Except SbFault SbCore
  | s, [] => .ok s
  | s, e :: es => do
    let s ← s.release theCoherenceUnit e
    releaseAll s es

/-- Entries of the SSB are erased, of which some are released and counted. -/
def eraseSSB (erased : LsqEntry → Bool) (released : List LsqEntry) : Except SbFault SbCore := do
  let s ← releaseAll theCoherenceUnit s released
  let s ← checkCounts { s with
    theMemQueue := s.theMemQueue.filter fun e => !erased e
    theSBCount := s.theSBCount - released.countP fun e => !e.theBypassSB
    theSBNAWCount := s.theSBNAWCount - released.countP fun e => e.theBypassSB }
  s.checkSize

/-- **`clearSSB`**. -/
def clearSSB : Except SbFault SbCore :=
  s.eraseSSB theCoherenceUnit (fun e => e.theQueue == .kSSB)
    (s.theMemQueue.filter fun e => e.theQueue == .kSSB)

/-- **`clearSSB`**, from a sequence number on. If no entry has the number or a later one, the
lower bound has not moved: the whole SSB is erased, and nothing is released. -/
def clearSSBFrom (aLowestInsnSeq : ℕ) : Except SbFault SbCore :=
  let found := s.theMemQueue.any fun e => e.theQueue == .kSSB && decide (aLowestInsnSeq ≤ e.seq)
  s.eraseSSB theCoherenceUnit
    (fun e => e.theQueue == .kSSB && (!found || decide (aLowestInsnSeq ≤ e.seq)))
    (s.theMemQueue.filter fun e => e.theQueue == .kSSB && decide (aLowestInsnSeq ≤ e.seq))

/-- The youngest of the checkpoints. -/
def youngest (cs : List StoreCheckpoint) : Option ℕ :=
  cs.foldl (fun o c => match o with
    | none => some c.insn
    | some k => if k < c.insn then some c.insn else some k) none

/-- **`doAbortSpeculation`**, to the checkpoint of an instruction. -/
def doAbortSpeculation (ckpt : ℕ) : Except SbFault SbCore := do
  let s ← s.clearLSQ
  let s := { s with theSRB := s.theSRB.takeWhile fun x => x.seq != ckpt }
  let s ← s.clearSSBFrom theCoherenceUnit ckpt
  let cs := s.theCheckpoints.filter fun c => decide (c.insn < ckpt)
  .ok { s with theCheckpoints := cs, theOpenCheckpoint := youngest cs }

/-- An abort, if there is one to a checkpoint. -/
def abortTo (abort : Option ℕ) : Except SbFault SbCore :=
  match abort with
  | none => .ok s
  | some k => if s.hasCheckpoint k then s.doAbortSpeculation theCoherenceUnit k else .ok s

/-- **`commit`**. -/
def commit (abort : Option ℕ) : Except SbFault SbCore := do
  let s ← s.abortTo theCoherenceUnit abort
  let s ← commitLoop theCoherenceUnit s s.theSRB
  .ok { s with resolving := false }

/-- **`reset`**. -/
def reset : Except SbFault SbCore := do
  let s ← s.clearLSQ
  let s ← clearSSB theCoherenceUnit { s with theSRB := [] }
  .ok { s with theCheckpoints := [], theOpenCheckpoint := none, resolving := false }

/-! ### Steps -/

/-- The reply for a store, or the issue of one without an address, erases its entry from the SB.
Replies come before a checkpoint is resolved. -/
def completeStore (k : ℕ) : Except SbFault SbCore :=
  match s.find k with
  | none => .ok s
  | some e =>
    if e.theQueue = .kSB ∧ (!s.resolving ∨ (e.theOperation = .kStore ∧ e.thePaddr = 0)) then
      s.eraseLSQ theCoherenceUnit k
    else .ok s

/-- The squash of an instruction that has not retired. -/
def squash (k : ℕ) : Except SbFault SbCore :=
  match s.find k with
  | none => .ok s
  | some e => if e.theQueue = .kLSQ then s.eraseLSQ theCoherenceUnit k else .ok s

/-- An address is resolved, of an instruction that has not retired. -/
def resolveVAddr (k : ℕ) (anAddr : BitVec 64) (xlat : Translation) : SbCore :=
  s.modify k fun e => if e.theQueue = .kLSQ then e.updateVaddr anAddr xlat else e

end SbCore

/-- What happens to the queue of a core. -/
inductive SbEvent
  | insertLSQ (gap : ℕ) (op : MemOperation) (size : Size) (bypassSB dependance : Bool)
  | resolveVAddr (k : ℕ) (anAddr : BitVec 64) (xlat : Translation)
  | write (k : ℕ) (d : LsqData)
  | squash (k : ℕ)
  | completeStore (k : ℕ)
  | acquireWritePermission (a : BitVec 64)
  | loseWritePermission (a : BitVec 64)
  | resolveCheckpoint
  | retireMem (annulled speculate : Bool)
  | commit (abort : Option ℕ)
  | reset
  deriving DecidableEq

/-- **What an event does.** -/
def SbCore.step (theCoherenceUnit : BitVec 64) (theConsistencyModel : ConsistencyModel)
    (s : SbCore) : SbEvent → Except SbFault SbCore
  | .insertLSQ gap op size bypassSB dependance => s.insertLSQ gap op size bypassSB dependance
  | .resolveVAddr k anAddr xlat => .ok (s.resolveVAddr k anAddr xlat)
  | .write k d => .ok (s.modify k fun e => e.write d)
  | .squash k => s.squash theCoherenceUnit k
  | .completeStore k => s.completeStore theCoherenceUnit k
  | .acquireWritePermission a => s.acquireWritePermission theCoherenceUnit a
  | .loseWritePermission a => s.loseWritePermission theCoherenceUnit a
  | .resolveCheckpoint => s.resolveCheckpoint theCoherenceUnit
  | .retireMem annulled speculate =>
    s.retireMem theCoherenceUnit theConsistencyModel annulled speculate
  | .commit abort => s.commit theCoherenceUnit abort
  | .reset => s.reset theCoherenceUnit

/-- **The store buffer of a core**, from an empty queue on. -/
def sbMachine (theCoherenceUnit : BitVec 64) (theConsistencyModel : ConsistencyModel) :
    Machine SbCore SbEvent SbFault where
  init := {}
  step := SbCore.step theCoherenceUnit theConsistencyModel

end UArch

end Flexus
