import Flexus.Common.Transport
import Flexus.DRAMController.Compaction
import Flexus.Lib.Machine

/-!
# The DRAM controller

A request for the memory (`DRAMController::push`) becomes a transaction of the DRAM model, and its
transport is put away, with the reply in place of the request if one is due. When the DRAM model has
completed the transaction (`read_complete`, `write_complete`) the transport is found again by the
address of the transaction, and goes into the queue of replies.

There are two lists of transports. The second one takes the request that comes while a dirty block
of the same address is still being evicted, as is seen from the type of the message that is put away
there: of an eviction that is not acknowledged, it is the eviction itself.
-/

namespace Flexus

namespace DRAMController

/-! ### Transports -/

/-- A transport, with the slice that tells it from others: its transaction tracker. -/
structure DramTransport extends Transport where
  theTracker : ℕ
  deriving DecidableEq

/-- `TimestampedTransport`. -/
structure TimestampedTransport extends DramTransport where
  cycle : ℕ
  deriving DecidableEq

/-- A new `MemoryMessage` in the transport of another one. -/
def DramTransport.set (t : DramTransport) (type : MemoryMessageType) (reqSize : ℕ) :
    DramTransport where
  type := type
  address := t.address
  reqSize := reqSize
  dest := t.dest
  theTracker := t.theTracker

/-- The assertions of the controller and of its lists. -/
inductive DramFault
  /-- `insert`: the list is full. -/
  | noSpace
  /-- `insert`: there is a transport of this address already. -/
  | sameAddress
  /-- `remove`: the list is empty. -/
  | emptyList
  /-- `remove`: there is no transport of this address. -/
  | notInList
  /-- `push`: a message that is not for the memory. -/
  | unexpectedMessage
  /-- `push`: the transport of the same address is not one of an eviction. -/
  | notEviction
  /-- A transaction has been completed that nothing is known of. -/
  | noTransaction
  /-- A transaction of the second list was one of an eviction. -/
  | eviction
  /-- The queue of replies is full. -/
  | outQueueFull
  /-- A transaction has been completed in the cycle in which it was added. -/
  | noDelay
  deriving DecidableEq

/-- The assertions that are about the sizes of lists and queues. -/
def DramFault.IsCapacity : DramFault → Prop
  | .noSpace | .outQueueFull => True
  | _ => False

/-! ### Lists of transports -/

/-- `MessageMap`. -/
structure MessageMap where
  theQueue : BitVec 64 → Option TimestampedTransport
  theSize : ℕ
  theCurrentUsage : ℕ

namespace MessageMap

variable (m : MessageMap)

/-- `MessageMap::insert`. -/
def insert (aMessage : TimestampedTransport) (address : BitVec 64) : Except DramFault MessageMap :=
  if ¬ m.theCurrentUsage < m.theSize then .error .noSpace
  else if (m.theQueue address).isSome then .error .sameAddress
  else .ok { m with
    theQueue := Function.update m.theQueue address (some aMessage)
    theCurrentUsage := m.theCurrentUsage + 1 }

/-- `MessageMap::remove`. -/
def remove (address : BitVec 64) : Except DramFault (MessageMap × TimestampedTransport) :=
  if ¬ m.theCurrentUsage > 0 then .error .emptyList
  else
    match m.theQueue address with
    | none => .error .notInList
    | some aMessage => .ok ({ m with
        theQueue := Function.update m.theQueue address none
        theCurrentUsage := m.theCurrentUsage - 1 }, aMessage)

/-- `MessageMap::isPending`, and the type of the message that is. -/
def isPending (address : BitVec 64) : Option MemoryMessageType :=
  (m.theQueue address).map fun aMessage => aMessage.type

end MessageMap

/-! ### The controller -/

/-- The parameters of the controller. -/
structure DramConfig where
  memory : MemoryConfig
  flexusIndex : ℕ
  MaxRequests : ℕ
  MaxReplies : ℕ
  UseFetchReply : Bool

/-- `TransactionType`. -/
inductive TransactionType
  | dataRead
  | dataWrite
  deriving DecidableEq

/-- `Transaction`. -/
structure Transaction where
  transactionType : TransactionType
  address : BitVec 64
  deriving DecidableEq

/-- The state of the controller. -/
structure Controller where
  pendingList : MessageMap
  evictedList : MessageMap
  outQueue : List TimestampedTransport

/-- The types that are tested for: no reply goes out for these. -/
def isDirtyEviction : MemoryMessageType → Bool
  | .evictDirty | .flushReq | .flush => true
  | _ => false

namespace DramConfig

variable (cfg : DramConfig)

/-- `theFetchReplyType`. -/
def theFetchReplyType : MemoryMessageType :=
  if cfg.UseFetchReply then .fetchReply else .missReplyWritable

/-- The `switch` of `push`: the operation, and the transport that is put away. A message for which
there is nothing to do gives none. -/
def transactionFor (t : DramTransport) :
    Except DramFault (Option (TransactionType × DramTransport)) :=
  match t.type with
  | .loadReq => .ok (some (.dataRead, t.set .loadReply 64))
  | .fetchReq => .ok (some (.dataRead, t.set cfg.theFetchReplyType 64))
  | .storeReq => .ok (some (.dataWrite, t.set .storeReply 0))
  | .storePrefetchReq => .ok (some (.dataWrite, t.set .storePrefetchReply 0))
  | .cmpxReq => .ok (some (.dataWrite, t.set .cmpxReply 64))
  | .readReq => .ok (some (.dataRead, t.set .missReplyWritable 64))
  | .writeReq | .writeAllocate => .ok (some (.dataWrite, t.set .missReplyWritable 64))
  | .nonAllocatingStoreReq => .ok (some (.dataWrite, t.set .nonAllocatingStoreReply t.reqSize))
  | .upgradeReq | .upgradeAllocate => .ok (some (.dataWrite, t.set .upgradeReply 0))
  | .flushReq | .flush | .evictDirty =>
    -- without an acknowledgement to send, the message itself is put away
    .ok (some (.dataWrite, if t.ackRequired then t.set .evictAck 0 else t))
  | .evictWritable | .evictClean => .ok none
  | .prefetchReadAllocReq | .prefetchReadNoAllocReq =>
    .ok (some (.dataRead, t.set .prefetchWritableReply 64))
  | .streamFetch => .ok (some (.dataRead, t.set .streamFetchWritableReply 64))
  | _ => .error .unexpectedMessage

/-- The address of the transaction for a transport. -/
def transactionAddress (t : DramTransport) : BitVec 64 :=
  cfg.memory.transactionAddress cfg.flexusIndex (BitVec.ofNat 64 t.address)

end DramConfig

namespace Controller

variable (c : Controller) (cfg : DramConfig)

/-- **`push`**, and the transaction that is given to the DRAM model, with the list that the
transport is in. -/
def push (cycleCount : ℕ) (t : DramTransport) :
    Except DramFault (Controller × Option (Transaction × Bool)) := do
  match ← cfg.transactionFor t with
  | none => .ok (c, none)
  | some (operation, carried) =>
    let address := cfg.transactionAddress t
    let aMessage : TimestampedTransport := ⟨carried, cycleCount⟩
    match c.pendingList.isPending address with
    | some aType =>
      if ¬ isDirtyEviction aType then .error .notEviction
      else
        let evictedList ← c.evictedList.insert aMessage address
        .ok ({ c with evictedList }, some (⟨operation, address⟩, true))
    | none =>
      let pendingList ← c.pendingList.insert aMessage address
      .ok ({ c with pendingList }, some (⟨operation, address⟩, false))

/-- **`read_complete`**, and the transport whose delay is counted. -/
def read_complete (cycleCount : ℕ) (address : BitVec 64) :
    Except DramFault (Controller × TimestampedTransport) := do
  if ¬ c.outQueue.length < cfg.MaxReplies then .error .outQueueFull
  else
    match c.pendingList.isPending address with
    | some _ =>
      let (pendingList, aMessage) ← c.pendingList.remove address
      if ¬ aMessage.cycle < cycleCount then .error .noDelay
      else .ok ({ c with pendingList, outQueue := c.outQueue ++ [aMessage] }, aMessage)
    | none =>
      match c.evictedList.isPending address with
      | some aType =>
        let (evictedList, aMessage) ← c.evictedList.remove address
        if isDirtyEviction aType then .error .eviction
        else if ¬ aMessage.cycle < cycleCount then .error .noDelay
        else .ok ({ c with evictedList, outQueue := c.outQueue ++ [aMessage] }, aMessage)
      | none => .error .noTransaction

/-- **`write_complete`**, and the transport whose delay is counted. -/
def write_complete (cycleCount : ℕ) (address : BitVec 64) :
    Except DramFault (Controller × TimestampedTransport) := do
  if ¬ c.outQueue.length < cfg.MaxReplies then .error .outQueueFull
  else
    match c.pendingList.isPending address with
    | some aType =>
      let (pendingList, aMessage) ← c.pendingList.remove address
      let outQueue := if isDirtyEviction aType then c.outQueue else c.outQueue ++ [aMessage]
      if ¬ aMessage.cycle < cycleCount then .error .noDelay
      else .ok ({ c with pendingList, outQueue }, aMessage)
    | none =>
      match c.evictedList.isPending address with
      | some aType =>
        let (evictedList, aMessage) ← c.evictedList.remove address
        if isDirtyEviction aType then .error .eviction
        else if ¬ aMessage.cycle < cycleCount then .error .noDelay
        else .ok ({ c with evictedList, outQueue := c.outQueue ++ [aMessage] }, aMessage)
      | none => .error .noTransaction

/-- The callback for a transaction. -/
def complete (cycleCount : ℕ) (t : Transaction) :
    Except DramFault (Controller × TimestampedTransport) :=
  match t.transactionType with
  | .dataRead => c.read_complete cfg cycleCount t.address
  | .dataWrite => c.write_complete cfg cycleCount t.address

end Controller

/-! ### The controller and its surroundings -/

/-- A transaction that the DRAM model has, with the request it is for, the cycle in which it was
added, and the list in which its transport is. -/
structure Submitted where
  request : DramTransport
  transaction : Transaction
  cycle : ℕ
  inEvicted : Bool
  deriving DecidableEq

/-- The controller, the cycle, and the transactions of the DRAM model, in the order in which they
were added; and what has happened: the messages that have come in, the transactions that have been
completed, the transports that were taken out for them, and those that went into the queue. -/
structure DramSystem where
  controller : Controller
  cycleCount : ℕ := 0
  outstanding : List Submitted := []
  pushed : List DramTransport := []
  completed : List Submitted := []
  removed : List TimestampedTransport := []
  replies : List TimestampedTransport := []

/-- What can happen: a message comes in; the DRAM model completes a transaction, named by its place
among those it has; a reply is sent; the next cycle begins. -/
inductive DramEvent
  | push (t : DramTransport)
  | complete (n : ℕ)
  | send
  | tick
  deriving DecidableEq

namespace DramSystem

variable (cfg : DramConfig) (s : DramSystem)

/-- A message comes in. -/
def push (t : DramTransport) : Except DramFault DramSystem := do
  let (controller, transaction) ← s.controller.push cfg s.cycleCount t
  let outstanding := match transaction with
    | some (transaction, inEvicted) => s.outstanding ++ [⟨t, transaction, s.cycleCount, inEvicted⟩]
    | none => s.outstanding
  .ok { s with controller, outstanding, pushed := s.pushed ++ [t] }

/-- A transaction is completed. What is new in the queue of replies is recorded. -/
def complete (n : ℕ) : Except DramFault DramSystem :=
  match s.outstanding[n]? with
  | none => .ok s
  | some x => do
    let (controller, aMessage) ← s.controller.complete cfg s.cycleCount x.transaction
    .ok { s with
      controller
      outstanding := s.outstanding.eraseIdx n
      completed := s.completed ++ [x]
      removed := s.removed ++ [aMessage]
      replies := s.replies ++ controller.outQueue.drop s.controller.outQueue.length }

/-- **A step.** -/
def step : DramEvent → Except DramFault DramSystem
  | .push t => s.push cfg t
  | .complete n => s.complete cfg n
  | .send => .ok { s with
      controller := { s.controller with outQueue := s.controller.outQueue.tail } }
  | .tick => .ok { s with cycleCount := s.cycleCount + 1 }

end DramSystem

/-- **The system**: nothing has come in. -/
def dram (cfg : DramConfig) : Lib.Machine DramSystem DramEvent DramFault where
  init := { controller :=
    { pendingList := ⟨fun _ => none, cfg.MaxRequests, 0⟩
      evictedList := ⟨fun _ => none, cfg.MaxRequests, 0⟩
      outQueue := [] } }
  step := fun s => s.step cfg

end DRAMController

end Flexus
