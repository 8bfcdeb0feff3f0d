import Flexus.Common.MemoryMessage
import Flexus.UFetch.FetchCache
import Mathlib.Data.Finset.Basic

/-!
# The fetch unit

`components/uFetch/uFetchImpl.cpp`: what threads fetch is looked up in the instruction cache, misses
and prefetches go to the miss queue, and what a fill evicts is announced by an EvictClean message,
on the miss queue or the snoop queue. A block whose eviction has not been acknowledged is in
`theEvictSet`, and a request for it is held back.

Of a message, what is modelled is what is read of it again. The statistics, the fill levels and the
bundles of instructions are left out.
-/

namespace Flexus

namespace UFetch

open Flexus.Lib Flexus.MMU

/-- The parameters of the component. -/
structure Config where
  shape : CacheShape
  Threads : ℕ := 1
  PrefetchEnabled : Bool := true
  CleanEvict : Bool := false
  MissQueueSize : ℕ := 4
  SendAcks : Bool := false
  UseReplyChannel : Bool := false
  EvictOnSnoop : Bool := true
  deriving DecidableEq

/-- `theIndexShift`. -/
def Config.theIndexShift (cfg : Config) : ℕ := cfg.shape.theIndexShift

/-- The address of a block. -/
def Config.blockOf (cfg : Config) (addr : BitVec 64) : BitVec 64 :=
  addr &&& theBlockMask cfg.shape.theIndexShift

/-- A message, in a queue or from the memory system. -/
structure FetchMessage where
  type : MemoryMessageType
  address : BitVec 64
  vPC : BitVec 64 := 0
  ackRequired : Bool := false
  ackRequiresData : Bool := false
  deriving DecidableEq

/-- What ends a run of the component. -/
inductive FetchFault
  /-- `issueEvict`: the block is in `theEvictSet`. -/
  | evictInserted
  /-- `EvictAck`: the block is not in `theEvictSet`. -/
  | evictNotFound
  /-- `issueFetch`: the address is zero. -/
  | fetchOfZero
  /-- `icacheLookup`: a miss is outstanding. -/
  | secondMiss
  /-- A message that is not handled. -/
  | unhandled
  deriving DecidableEq

/-- The state of the component. -/
structure Component (cfg : Config) where
  unit : FetchUnit
  theI : SimCache cfg.shape
  theIcacheMiss : ℕ → Option (BitVec 64)
  theIcachePrefetch : ℕ → Option (BitVec 64)
  theLastPrefetchVTagSet : ℕ → Option (BitVec 64)
  theEvictSet : Finset (BitVec 64)
  theMissQueue : List FetchMessage
  theSnoopQueue : List FetchMessage
  theReplyQueue : List FetchMessage

namespace Component

variable {cfg : Config} (s : Component cfg)

/-! ### Fetches -/

/-- `issueFetch`. -/
def issueFetch (anAddress vPC : BitVec 64) : Except FetchFault (Component cfg) :=
  if anAddress = 0 then .error .fetchOfZero
  else .ok { s with theMissQueue := s.theMissQueue ++ [⟨.fetchReq, anAddress, vPC, false, false⟩] }

/-- Another last prefetch of a thread. -/
def setLastPrefetch (anIndex : ℕ) (tagset : Option (BitVec 64)) : Component cfg :=
  { s with
    theLastPrefetchVTagSet := Function.update s.theLastPrefetchVTagSet anIndex tagset }

/-- Another prefetch of a thread. -/
def setPrefetch (anIndex : ℕ) (paddr : Option (BitVec 64)) : Component cfg :=
  { s with theIcachePrefetch := Function.update s.theIcachePrefetch anIndex paddr }

/-- Another miss of a thread. -/
def setMiss (anIndex : ℕ) (paddr : Option (BitVec 64)) : Component cfg :=
  { s with theIcacheMiss := Function.update s.theIcacheMiss anIndex paddr }

/-- **`prefetchNext`.** -/
def prefetchNext (anIndex : ℕ) : Except FetchFault (Component cfg) :=
  if cfg.MissQueueSize ≤ s.theMissQueue.length then .ok s
  else
    match s.theLastPrefetchVTagSet anIndex with
    | none => .ok s
    | some last =>
      if cfg.PrefetchEnabled then
        let vprefetch := (last + 1) <<< cfg.theIndexShift
        let paddr := (s.unit.translate anIndex vprefetch).thePaddr
        if paddr = 0 then .ok (s.setLastPrefetch anIndex none)
        else
          let looked := { s with theI := (s.theI.lookup paddr).2 }
          if (s.theI.lookup paddr).1 then .ok (looked.setLastPrefetch anIndex none)
          else
            ((looked.setLastPrefetch anIndex (some (last + 1))).setPrefetch anIndex
              (some paddr)).issueFetch paddr vprefetch
      else .ok s

/-- What `icacheLookup` does for a hit. -/
def onHit (anIndex : ℕ) (tagset : BitVec 64) : Except FetchFault (Component cfg) :=
  if s.theLastPrefetchVTagSet anIndex = some tagset then s.prefetchNext anIndex else .ok s

/-- What `icacheLookup` does for a miss. -/
def onMiss (anIndex : ℕ) (vaddr paddr : BitVec 64) : Except FetchFault (Component cfg) :=
  if (s.theIcacheMiss anIndex).isSome then .error .secondMiss
  else
    let missed := (s.setMiss anIndex (some (cfg.blockOf paddr))).setPrefetch anIndex none
    if s.theIcachePrefetch anIndex = some (cfg.blockOf paddr) then missed.prefetchNext anIndex
    else
      match missed.issueFetch (cfg.blockOf paddr) vaddr with
      | .error fault => .error fault
      | .ok issued =>
        (issued.setLastPrefetch anIndex
          (some (vaddr >>> cfg.theIndexShift))).prefetchNext anIndex

/-- **`icacheLookup`**: whether the block may be fetched from. -/
def icacheLookup (anIndex : ℕ) (vaddr : BitVec 64) : Except FetchFault (Bool × Component cfg) :=
  let translated := s.unit.blockAddress cfg.theIndexShift anIndex vaddr
  let s := { s with unit := translated.2 }
  match translated.1 with
  | none => .ok (true, s)
  | some paddr =>
    let looked := { s with theI := (s.theI.lookup paddr).2 }
    if (s.theI.lookup paddr).1 then
      (looked.onHit anIndex (vaddr >>> cfg.theIndexShift)).map fun s => (true, s)
    else (looked.onMiss anIndex vaddr paddr).map fun s => (false, s)

/-- The lookups of a cycle: each line that is fetched from is looked up, up to the first miss. -/
def lookups (anIndex : ℕ) : Component cfg → List (BitVec 64) → Except FetchFault (Component cfg)
  | s, [] => .ok s
  | s, anAddress :: addresses =>
    match s.icacheLookup anIndex (cfg.blockOf anAddress) with
    | .error fault => .error fault
    | .ok (true, t) => lookups anIndex t addresses
    | .ok (false, t) => .ok t

/-- **`doFetch`**, of the lines that a thread fetches from in a cycle. -/
def doFetch (anIndex : ℕ) (lines : List (BitVec 64)) : Except FetchFault (Component cfg) :=
  if (s.theIcacheMiss anIndex).isSome then .ok s else lookups anIndex s lines

/-! ### Evictions and replies -/

/-- **`issueEvict`.** -/
def issueEvict (anAddress : BitVec 64) : Except FetchFault (Component cfg) :=
  if cfg.CleanEvict && anAddress != 0 then
    if anAddress ∈ s.theEvictSet then .error .evictInserted
    else
      let s := { s with theEvictSet := insert anAddress s.theEvictSet }
      let operation : FetchMessage := ⟨.evictClean, anAddress, 0, true, false⟩
      if cfg.EvictOnSnoop then .ok { s with theSnoopQueue := s.theSnoopQueue ++ [operation] }
      else .ok { s with theMissQueue := s.theMissQueue ++ [operation] }
  else .ok s

/-- `queueSnoopMessage`. -/
def queueSnoopMessage (aType : MemoryMessageType) (anAddress : BitVec 64) (aContainsData : Bool) :
    Component cfg :=
  let msg : FetchMessage := ⟨aType, anAddress, 0, false, aType == .fetchAck && aContainsData⟩
  if cfg.UseReplyChannel then { s with theReplyQueue := s.theReplyQueue ++ [msg] }
  else { s with theSnoopQueue := s.theSnoopQueue ++ [msg] }

/-- The block that arrives is that of a miss, or of a prefetch. -/
def filled (anAddress : BitVec 64) : Component cfg :=
  let clear := fun (waiting : ℕ → Option (BitVec 64)) i =>
    if i < cfg.Threads ∧ waiting i = some anAddress then none else waiting i
  { s with
    theIcacheMiss := clear s.theIcacheMiss
    theIcachePrefetch := clear s.theIcachePrefetch }

/-- `insert`: the victim, and the cache. -/
def insertBlock (anAddress : BitVec 64) : BitVec 64 × SimCache cfg.shape :=
  let looked := s.theI.lookup anAddress
  if looked.1 then (0, looked.2) else looked.2.insert anAddress

/-- The acknowledgement of a reply. -/
def acknowledge (reply : FetchMessage) : Component cfg :=
  if cfg.SendAcks && reply.ackRequired then
    if reply.type = .fwdReplyOwned then s.queueSnoopMessage .fetchAckDirty reply.address true
    else s.queueSnoopMessage .fetchAck reply.address reply.ackRequiresData
  else s

/-- The fill of `fetchReply`. -/
def fill (reply : FetchMessage) : Except FetchFault (Component cfg) :=
  let inserted := s.insertBlock reply.address
  match issueEvict { s with theI := inserted.2 } inserted.1 with
  | .error fault => .error fault
  | .ok t => .ok ((t.filled reply.address).acknowledge reply)

/-- **`fetchReply`.** -/
def fetchReply (reply : FetchMessage) : Except FetchFault (Component cfg) :=
  match reply.type with
  | .fwdReply | .fwdReplyOwned | .missReply | .fetchReply | .missReplyWritable => s.fill reply
  | .invalidate | .backInvalidate =>
    .ok (queueSnoopMessage { s with theI := (s.theI.inval reply.address).2 } .invalidateAck
      reply.address false)
  | .returnReq => .ok (s.queueSnoopMessage .returnReply reply.address false)
  | .downgrade => .ok (s.queueSnoopMessage .downgradeAck reply.address false)
  | .readFwd | .fetchFwd =>
    let looked := s.theI.lookup reply.address
    .ok (queueSnoopMessage { s with theI := looked.2 }
      (if looked.1 ∨ reply.address ∈ s.theEvictSet then .fwdReply else .fwdNAck)
      reply.address false)
  | .writeFwd =>
    let gone := s.theI.inval reply.address
    .ok (queueSnoopMessage { s with theI := gone.2 }
      (if gone.1 ∨ reply.address ∈ s.theEvictSet then .fwdReplyWritable else .fwdNAck)
      reply.address false)
  | .evictAck =>
    if reply.address ∈ s.theEvictSet then
      .ok { s with theEvictSet := s.theEvictSet.erase reply.address }
    else .error .evictNotFound
  | _ => .error .unhandled

/-! ### The queues, and the rest of the interface -/

/-- What leaves a queue, what stays, and whether the head is held back. -/
structure Sending where
  sent : List FetchMessage
  rest : List FetchMessage
  heldBack : Bool

/-- **The first loop of `sendMisses`**: a number of messages leave, as long as the channel is
available, unless the head asks for a block that is being evicted. -/
def sendRequests (cfg : Config) (theEvictSet : Finset (BitVec 64)) :
    ℕ → List FetchMessage → Sending
  | 0, queue => ⟨[], queue, false⟩
  | _ + 1, [] => ⟨[], [], false⟩
  | n + 1, msg :: queue =>
    if !msg.type.isEvictType ∧ cfg.blockOf msg.address ∈ theEvictSet then
      ⟨[], msg :: queue, true⟩
    else
      let r := sendRequests cfg theEvictSet n queue
      ⟨msg :: r.sent, r.rest, r.heldBack⟩

/-- **`sendMisses`**: how long each of the channels is available. -/
def sendMisses (misses snoops replies : ℕ) : List FetchMessage × Component cfg :=
  let r := sendRequests cfg s.theEvictSet misses s.theMissQueue
  (r.sent ++ s.theSnoopQueue.take snoops,
    { s with
      theMissQueue := r.rest
      theSnoopQueue := s.theSnoopQueue.drop snoops
      theReplyQueue :=
        if cfg.UseReplyChannel then s.theReplyQueue.drop replies else s.theReplyQueue })

/-- `push(SquashIn)`. -/
def squash (anIndex : ℕ) : Component cfg :=
  ((s.setMiss anIndex none).setPrefetch anIndex none).setLastPrefetch anIndex (some 0)

end Component

/-! ### The component and the memory system -/

/-- The component, and what the memory system has been sent and has not answered: fetches, and
evictions. -/
structure FetchSystem (cfg : Config) where
  comp : Component cfg
  fetches : List (BitVec 64)
  evictions : List (BitVec 64)

/-- What happens to a component. How long a channel is available is counted in messages. -/
inductive UFetchEvent
  | doFetch (anIndex : ℕ) (lines : List (BitVec 64))
  | sendMisses (misses snoops replies : ℕ)
  | squash (anIndex : ℕ)
  | changeCPUState (anIndex : ℕ) (aState : CPUState)
  | changeMMU (anIndex : ℕ) (mmu : Mmu)
  | reply (msg : FetchMessage)

/-- The types of fills. -/
def isFill : MemoryMessageType → Bool
  | .fwdReply | .fwdReplyOwned | .missReply | .fetchReply | .missReplyWritable => true
  | _ => false

/-- The addresses of the messages of a type. -/
def addressesOf (type : MemoryMessageType) (queue : List FetchMessage) : List (BitVec 64) :=
  (queue.filter fun m => m.type == type).map FetchMessage.address

namespace FetchSystem

variable {cfg : Config} (s : FetchSystem cfg)

/-- What an event of the unit of translations does. -/
def translate (ev : FetchEvent) : FetchSystem cfg :=
  { s with comp := { s.comp with unit := s.comp.unit.step cfg.theIndexShift ev } }

/-- **What an event does.** -/
def step : UFetchEvent → Except FetchFault (FetchSystem cfg)
  | .doFetch anIndex lines => (s.comp.doFetch anIndex lines).map fun c => { s with comp := c }
  | .sendMisses misses snoops replies =>
    let r := s.comp.sendMisses misses snoops replies
    .ok ⟨r.2, s.fetches ++ addressesOf .fetchReq r.1, s.evictions ++ addressesOf .evictClean r.1⟩
  | .squash anIndex => .ok { s with comp := s.comp.squash anIndex }
  | .changeCPUState anIndex aState => .ok (s.translate (.changeCPUState anIndex aState))
  | .changeMMU anIndex mmu => .ok (s.translate (.changeMMU anIndex mmu))
  | .reply msg =>
    (s.comp.fetchReply msg).map fun c =>
      ⟨c, if isFill msg.type then s.fetches.erase msg.address else s.fetches,
        if msg.type = .evictAck then s.evictions.erase msg.address else s.evictions⟩

/-- **The memory system answers**: a fill is for a fetch that it has been sent, an acknowledgement
for an eviction, and neither has been answered. -/
def Answers : UFetchEvent → Prop
  | .reply msg =>
    (isFill msg.type = true → msg.address ∈ s.fetches) ∧
      (msg.type = .evictAck → msg.address ∈ s.evictions)
  | _ => True

end FetchSystem

/-- The component when nothing has happened yet. The cache may hold what a checkpoint has put into
it. -/
def Component.initial (cfg : Config) (theI : SimCache cfg.shape) (unit : FetchUnit) :
    Component cfg where
  unit := { unit with theLastVTagSet := 0, theLastPhysical := 0 }
  theI := theI
  theIcacheMiss := fun _ => none
  theIcachePrefetch := fun _ => none
  theLastPrefetchVTagSet := fun _ => none
  theEvictSet := ∅
  theMissQueue := []
  theSnoopQueue := []
  theReplyQueue := []

/-- **A fetch unit and a memory system.** -/
def uFetchMachine (cfg : Config) (theI : SimCache cfg.shape) (unit : FetchUnit) :
    Machine (FetchSystem cfg) UFetchEvent FetchFault where
  init := ⟨Component.initial cfg theI unit, [], []⟩
  step := FetchSystem.step

end UFetch

end Flexus
