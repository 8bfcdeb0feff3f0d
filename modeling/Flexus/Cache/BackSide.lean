import Flexus.Common.MemoryMessage
import Flexus.Lib.Loop
import Flexus.Lib.Machine
import Mathlib.Logic.Function.Basic

/-!
# The back side of a cache

A cache sends what its controller has to say to the level below through four queues, one
for each channel (`components/Cache/CacheController.cpp`, `sendBack_*`). The component
(`components/Cache/CacheImpl.cpp`, `busCycle`) moves the messages from the queues to the
channels: over a bus that carries one message at a time in either direction and for
several cycles, or, without a bus, as many as the channels take in every cycle. In both
cases the queues compete by the times at which their heads were enqueued.

The front side is not modelled here: `busCycle` empties its queues independently of the
back side. Beside the state of the component we keep every message that has been
enqueued, and every message that has been sent, in the order in which that happened.
-/

namespace Flexus

namespace Cache

open MemoryMessageType

/-- The channels of the back side. -/
inductive Channel
  | request
  | prefetch
  | snoop
  | reply
  deriving DecidableEq

/-- What `busCycle` reads and writes of a message. -/
structure BusMessage where
  type : MemoryMessageType
  reqSize : ℕ
  coreIdx : ℕ
  deriving DecidableEq

/-- A message in a queue, with the cycle in which it was enqueued. The serial number tells
the messages apart. -/
structure Entry where
  serial : ℕ
  time : ℕ
  message : BusMessage
  deriving DecidableEq

/-- `eDirection`. -/
inductive Direction
  | idle
  | toBackSideInRequest
  | toBackSideInReply
  | toBackSideOut (c : Channel)
  deriving DecidableEq

/-- What the back side reads of the configuration. The bus times are asserted to be
positive. -/
structure BusConfig where
  noBus : Bool
  fastEvictClean : Bool
  useReplyChannel : Bool
  evictOnSnoop : Bool
  busTimeData : ℕ
  busTimeNoData : ℕ
  flexusIndex : ℕ
  busTimeData_pos : 0 < busTimeData
  busTimeNoData_pos : 0 < busTimeNoData

/-- The assertions of the back side, and a loop that does not end. -/
inductive BusFault
  /-- `MessageQueue::dequeue`: `DBG_Assert( ! theQueue.empty() )`. -/
  | emptyQueue
  /-- `busCycle`: `DBG_Assert( theBusDirection != kIdle )`. -/
  | idleBus
  /-- `push`: the buffer is taken. -/
  | bufferTaken
  /-- A loop goes on for ever. -/
  | diverges
  deriving DecidableEq

/-- The back side of a cache. -/
structure BackSide where
  queue : Channel → List Entry
  theBusTxCountdown : ℕ
  theBusDirection : Direction
  theBusContents : Option BusMessage
  theBackSideInRequestBuffer : Option BusMessage
  theBackSideInReplyBuffer : Option BusMessage
  theBackSideInRequestInfiniteQueue : List BusMessage
  theBackSideInReplyInfiniteQueue : List BusMessage
  /-- What has been handed to the controller. -/
  backSideInRequest : List BusMessage
  backSideInReply : List BusMessage
  cycleCount : ℕ
  /-- What has been enqueued so far. -/
  enqueued : List (Channel × Entry)
  /-- What has been sent so far. -/
  sent : List (Channel × Entry)

/-- What a call of `busCycle` finds around the component: which channels are available,
which may depend on what has been sent, how many messages the input queues of the
controller can take, and whether the simulator is in its fast mode. -/
structure Surroundings where
  available : Channel → List (Channel × Entry) → Bool
  requestRoom : ℕ
  replyRoom : ℕ
  isFastMode : Bool

namespace BackSide

/-- A back side that starts empty. -/
def init : BackSide := ⟨fun _ => [], 0, .idle, none, none, none, [], [], [], [], 0, [], []⟩

variable (cfg : BusConfig) (env : Surroundings) (s : BackSide)

/-! ### Messages from the controller -/

/-- `MessageQueue::enqueue`. -/
def enqueue (c : Channel) (m : BusMessage) : BackSide :=
  let e : Entry := ⟨s.enqueued.length, s.cycleCount, m⟩
  { s with
    queue := Function.update s.queue c (s.queue c ++ [e])
    enqueued := s.enqueued ++ [(c, e)] }

/-- The functions with which the controller sends something. -/
inductive Send
  | request
  | prefetch
  | snoop
  | evict
  deriving DecidableEq

/-- `sendBack_Request`, `sendBack_Prefetch`, `sendBack_Snoop` and `sendBack_Evict`: the
queue they use. -/
def Send.channel : Send → Channel
  | .request => .request
  | .prefetch => .prefetch
  | .snoop => if cfg.useReplyChannel then .reply else .snoop
  | .evict => if cfg.evictOnSnoop then .snoop else .request

/-! ### Messages from below -/

/-- `push` on `BackSideIn_Reply`. -/
def pushReply (m : BusMessage) : Except BusFault BackSide :=
  if cfg.noBus then
    .ok { s with
      theBackSideInReplyInfiniteQueue :=
        s.theBackSideInReplyInfiniteQueue ++ [{ m with coreIdx := 0 }] }
  else if s.theBackSideInReplyBuffer.isSome then .error .bufferTaken
  else .ok { s with theBackSideInReplyBuffer := some { m with coreIdx := 0 } }

/-- `push` on `BackSideIn_Request`. -/
def pushRequest (m : BusMessage) : Except BusFault BackSide :=
  if cfg.noBus then
    .ok { s with
      theBackSideInRequestInfiniteQueue :=
        s.theBackSideInRequestInfiniteQueue ++ [{ m with coreIdx := 0 }] }
  else if s.theBackSideInRequestBuffer.isSome then .error .bufferTaken
  else .ok { s with theBackSideInRequestBuffer := some { m with coreIdx := 0 } }

/-! ### Messages to the channels -/

/-- The head of a queue leaves on its channel. The index of the component is written to
every message but a prefetch. -/
def transmit (c : Channel) : Except BusFault BackSide :=
  match s.queue c with
  | [] => .error .emptyQueue
  | e :: rest =>
    let m := if c = .prefetch then e.message else { e.message with coreIdx := cfg.flexusIndex }
    .ok { s with
      queue := Function.update s.queue c rest
      sent := s.sent ++ [(c, { e with message := m })] }

/-- The head of queue `d`, if there is one, is younger than that of queue `c`. -/
def younger (d c : Channel) : Bool :=
  match s.queue d, s.queue c with
  | e :: _, f :: _ => decide (f.time < e.time)
  | _, _ => true

/-- There is a message for a channel that is available. -/
def ready (c : Channel) : Bool := !(s.queue c).isEmpty && env.available c s.sent

/-- A channel may be served: it is ready, and nothing that goes first is older. -/
def serves (c : Channel) : Bool :=
  s.ready env c &&
    match c with
    | .request | .prefetch => s.younger .snoop c && s.younger .reply c
    | .snoop => s.younger .reply c
    | .reply => true

/-- A loop that empties the queue of a channel, as far as it may be served. -/
def drain (c : Channel) : Except BusFault BackSide :=
  Lib.loop (fun s => s.serves env c) (fun s => s.transmit cfg c) .diverges (s.queue c).length s

/-- The last loop, which is about the replies, and sends snoops. It can go on as long as
there are snoops. -/
def drainReply : Except BusFault BackSide :=
  Lib.loop (fun s => s.serves env .reply) (fun s => s.transmit cfg .snoop) .diverges
    ((s.queue .snoop).length + 1) s

/-- The input queues are filled from the infinite queues. -/
def fillInput : BackSide :=
  { s with
    backSideInReply := s.backSideInReply ++ s.theBackSideInReplyInfiniteQueue.take env.replyRoom
    theBackSideInReplyInfiniteQueue := s.theBackSideInReplyInfiniteQueue.drop env.replyRoom
    backSideInRequest :=
      s.backSideInRequest ++ s.theBackSideInRequestInfiniteQueue.take env.requestRoom
    theBackSideInRequestInfiniteQueue := s.theBackSideInRequestInfiniteQueue.drop env.requestRoom }

/-- **`busCycle`** without a bus. -/
def busCycleNoBus : Except BusFault BackSide := do
  let s ← (s.fillInput env).drain cfg env .request
  let s ← s.drain cfg env .prefetch
  let s ← s.drain cfg env .snoop
  s.drainReply cfg env

/-! ### The bus -/

/-- `transferTime`. -/
def transferTime (m : BusMessage) : ℕ :=
  if env.isFastMode then 0
  else (if 0 < m.reqSize then cfg.busTimeData else cfg.busTimeNoData) - 1

/-- A clean eviction at the head of the snoops does not need the bus. -/
def fastEvict : Except BusFault BackSide :=
  if cfg.fastEvictClean ∧ s.theBusDirection = .idle ∧ s.ready env .snoop = true ∧
      (s.queue .snoop).head?.any (fun e =>
        e.message.type == evictClean || e.message.type == evictWritable) = true then
    s.transmit cfg .snoop
  else .ok s

/-- A transfer to a channel is started. -/
def startOut (c : Channel) : BackSide :=
  match s.queue c with
  | [] => s
  | e :: _ =>
    { s with
      theBusDirection := .toBackSideOut c
      theBusTxCountdown := transferTime cfg env e.message }

/-- The idle bus is given to one of the output queues. A prefetch has to wait for the
requests. -/
def arbitrateOut : BackSide :=
  if s.serves env .request then s.startOut cfg env .request
  else if (s.queue .request).isEmpty && s.serves env .prefetch then s.startOut cfg env .prefetch
  else if s.serves env .snoop then s.startOut cfg env .snoop
  else if s.serves env .reply then s.startOut cfg env .reply
  else s

/-- A transfer from below is started. -/
def startIn (d : Direction) (m : BusMessage) : BackSide :=
  { s with
    theBusContents := some m
    theBusDirection := d
    theBusTxCountdown := transferTime cfg env m }

/-- The idle bus is given to a request from below, or to an output queue. -/
def arbitrateRequest : BackSide :=
  match s.theBackSideInRequestBuffer with
  | none => s.arbitrateOut cfg env
  | some m =>
    if 0 < env.requestRoom then
      { s with theBackSideInRequestBuffer := none }.startIn cfg env .toBackSideInRequest m
    else s.arbitrateOut cfg env

/-- The idle bus is given to somebody, a reply from below first. -/
def arbitrate : BackSide :=
  match s.theBackSideInReplyBuffer with
  | none => s.arbitrateRequest cfg env
  | some m =>
    if 0 < env.replyRoom then
      { s with theBackSideInReplyBuffer := none }.startIn cfg env .toBackSideInReply m
    else s.arbitrateRequest cfg env

/-- A transfer goes on, or the bus is given to somebody. -/
def advanceBus : Except BusFault BackSide :=
  if 0 < s.theBusTxCountdown then
    if s.theBusDirection = .idle then .error .idleBus
    else .ok { s with theBusTxCountdown := s.theBusTxCountdown - 1 }
  else if s.theBusDirection = .idle then .ok (s.arbitrate cfg env)
  else .ok s

/-- A transfer whose time is over is finished. When the channel is not available any more,
it is given up. -/
def finishBus : Except BusFault BackSide :=
  if 0 < s.theBusTxCountdown then .ok s
  else
    match s.theBusDirection with
    | .idle => .ok s
    | .toBackSideInReply =>
      .ok (if 0 < env.replyRoom then
        { s with
          backSideInReply := s.backSideInReply ++ s.theBusContents.toList
          theBusDirection := .idle }
        else s)
    | .toBackSideInRequest =>
      .ok (if 0 < env.requestRoom then
        { s with
          backSideInRequest := s.backSideInRequest ++ s.theBusContents.toList
          theBusDirection := .idle }
        else s)
    | .toBackSideOut c =>
      if env.available c s.sent then do
        let s ← s.transmit cfg c
        return { s with theBusDirection := .idle }
      else .ok { s with theBusDirection := .idle }

/-- **`busCycle`**, with or without a bus. -/
def busCycle : Except BusFault BackSide :=
  if cfg.noBus then s.busCycleNoBus cfg env
  else do
    let s ← s.fastEvict cfg env
    let s ← s.advanceBus cfg env
    s.finishBus cfg env

/-! ### The machine -/

/-- What may happen next at the back side. -/
inductive Event
  /-- The controller sends something. -/
  | send (k : Send) (m : BusMessage)
  /-- A reply comes from below. -/
  | pushReply (m : BusMessage)
  /-- A request comes from below. -/
  | pushRequest (m : BusMessage)
  /-- The component is driven. -/
  | busCycle (env : Surroundings)
  /-- The next cycle begins. -/
  | tick

/-- One step of the back side. -/
def step (s : BackSide) : Event → Except BusFault BackSide
  | .send k m => .ok (s.enqueue (k.channel cfg) m)
  | .pushReply m => s.pushReply cfg m
  | .pushRequest m => s.pushRequest cfg m
  | .busCycle env => s.busCycle cfg env
  | .tick => .ok { s with cycleCount := s.cycleCount + 1 }

/-- The back side of a cache, from its start. -/
def machine : Lib.Machine BackSide Event BusFault := ⟨init, step cfg⟩

end BackSide

end Cache

end Flexus
