import Flexus.CMPCache.Handlers
import Flexus.Lib.Machine

/-!
# The controller of a bank

The controller (`components/CMPCache/CMPCacheController.cpp`) takes messages in, runs
them one at a time against the policy, and carries the actions of the policy out when
a process has come to the end of its pipelines.

A process is scheduled into the first pipeline, the MAF pipeline, as soon as what it
may need has been reserved. There it is run, in order; it then goes through the
directory and tag pipeline, and, if it needs data, through the data pipeline, and is
finalized at the end. The pipelines keep the order of their processes but not their
timing: a step of the machine below schedules a process or lets the head of one
pipeline advance, and any of them may come next. The latencies of the pipelines and
the room in the output queues only decide when it does. What is sent is kept, in the
order in which it is sent.
-/

namespace Flexus

namespace CMPCache

open MemoryMessageType

variable {δ γ : Type}

/-- `CMPCacheController`: a bank with its pipelines. -/
structure Controller (δ γ : Type) where
  policy : Policy δ γ
  theMAFPipeline : List Process
  theDirTagPipeline : List Process
  theDataPipeline : List Process
  theIdleWorkScheduled : Bool
  /-- What has been sent on the snoop channel. -/
  snoopOut : List Transport
  /-- What has been sent on the reply channel. -/
  replyOut : List Transport
  /-- What has been sent on the request channel. -/
  requestOut : List Transport

namespace Controller

variable (cfg : Config δ γ)

/-- A bank that starts empty. -/
def init : Controller δ γ := ⟨.init cfg, [], [], [], false, [], [], []⟩

/-! ### Reservations -/

/-- `reserveCacheEB`. -/
def reserveCacheEB (s : Policy δ γ) (p : Process) (n : ℕ) : Except Fault (Policy δ γ × Process) :=
  match s.theCacheEvictBuffer.reserve cfg.theCacheEBSize n with
  | .error f => .error f
  | .ok b => .ok ({ s with
        theCacheEvictBuffer := b
        theCache := cfg.array.reserveEvictionResource s.theCache n },
      { p with cacheEBReserved := p.cacheEBReserved + n })

/-- `reserveEB`, of both evict buffers. -/
def reserveEB (s : Policy δ γ) (p : Process) (n : ℕ) : Except Fault (Policy δ γ × Process) :=
  match s.theDirEvictBuffer.reserve cfg.theDirEBSize n with
  | .error f => .error f
  | .ok b => reserveCacheEB cfg { s with theDirEvictBuffer := b }
      { p with dirEBReserved := p.dirEBReserved + n } n

/-- `unreserveEB`: everything the process has reserved. -/
def unreserveEB (s : Policy δ γ) (p : Process) : Except Fault (Policy δ γ × Process) :=
  match s.theDirEvictBuffer.unreserve p.dirEBReserved with
  | .error f => .error f
  | .ok d =>
    match s.theCacheEvictBuffer.unreserve p.cacheEBReserved with
    | .error f => .error f
    | .ok b => .ok ({ s with
          theDirEvictBuffer := d
          theCacheEvictBuffer := b
          theCache := cfg.array.reserveEvictionResource s.theCache (-p.cacheEBReserved) },
        { p with dirEBReserved := 0, cacheEBReserved := 0 })

/-- `reserveMAF`. -/
def reserveMAF (s : Policy δ γ) (p : Process) : Except Fault (Policy δ γ × Process) :=
  match s.theMAF.reserve cfg.theMAFSize with
  | .error f => .error f
  | .ok m => .ok ({ s with theMAF := m }, { p with mafReserved := true })

/-- `unreserveMAF`. -/
def unreserveMAF (s : Policy δ γ) (p : Process) : Except Fault (Policy δ γ × Process) :=
  match s.theMAF.unreserve with
  | .error f => .error f
  | .ok m => .ok ({ s with theMAF := m }, { p with mafReserved := false })

/-! ### The end of a process -/

/-- `sendSnoops`, which needs something to send. -/
def sendSnoops (c : Controller δ γ) (p : Process) : Except Fault (Controller δ γ × Process) :=
  if p.snoopTransports.isEmpty then .error .noMessage
  else .ok ({ c with snoopOut := c.snoopOut ++ p.snoopTransports },
    { p with snoopTransports := [] })

/-- `sendReply`. -/
def sendReply (c : Controller δ γ) (p : Process) : Except Fault (Controller δ γ) :=
  match p.replyTransport with
  | none => .error .noMessage
  | some t => .ok { c with replyOut := c.replyOut ++ [t] }

/-- The entry of the process is woken, with the requests behind it. -/
def wakeEntry (c : Controller δ γ) (p : Process) : Except Fault (Controller δ γ) :=
  match p.maf with
  | none => .error .danglingMAF
  | some i =>
    match c.policy.theMAF.wakeAfterEvict i with
    | .error f => .error f
    | .ok m => .ok { c with policy := { c.policy with theMAF := m } }

/-- The entry of the process is removed. -/
def removeEntry (c : Controller δ γ) (p : Process) : Except Fault (Controller δ γ) :=
  match p.maf with
  | none => .error .danglingMAF
  | some i =>
    match c.policy.theMAF.remove i with
    | .error f => .error f
    | .ok m => .ok { c with policy := { c.policy with theMAF := m } }

/-- What an action does at the end of a process. -/
def carryOut (c : Controller δ γ) (p : Process) : Except Fault (Controller δ γ × Process) :=
  match p.action with
  | .fwdAndWaitAck | .forward => c.sendSnoops p
  | .fwdRequest => .ok ({ c with requestOut := c.requestOut ++ [p.transport] }, p)
  | .notifyAndWaitAck | .fwdAndReply => do
    let (c, p) ← c.sendSnoops p
    return (← c.sendReply p, p)
  | .fwdAndWakeEvictMAF => do
    let (c, p) ← c.sendSnoops p
    return (← c.wakeEntry p, p)
  | .wakeEvictMAF => do return (← c.wakeEntry p, p)
  | .reply => do return (← c.sendReply p, p)
  | .replyAndRemoveMAF => do
    let c ← (← c.sendReply p).removeEntry p
    return ({ c with policy := c.policy.wakeMAFs cfg p.transport.address }, p)
  | .removeMAF => do return (← c.removeEntry p, p)
  | .removeAndWakeMAF => do
    let c ← c.removeEntry p
    return ({ c with policy := c.policy.wakeMAFs cfg p.transport.address }, p)
  | .stall | .noAction => .ok (c, p)

/-- **`finalizeProcess`**: a process that ends has sent what it had to send, and holds no
reservations. -/
def finalizeProcess (c : Controller δ γ) (p : Process) : Except Fault (Controller δ γ) := do
  let (c, p) ← c.carryOut cfg p
  if p.snoopTransports.isEmpty && !p.mafReserved && p.cacheEBReserved == 0 && p.dirEBReserved == 0
  then .ok c else .error .reservationsHeld

/-! ### Running a process -/

/-- A process that needs a lookup goes on to the directory; the others end at once. -/
def advance (c : Controller δ γ) (p : Process) : Except Fault (Controller δ γ) :=
  if 0 < p.lookupsRequired then .ok { c with theDirTagPipeline := c.theDirTagPipeline ++ [p] }
  else c.finalizeProcess cfg p

/-- `runRequestProcess`. -/
def runRequestProcess (c : Controller δ γ) (p : Process) : Except Fault (Controller δ γ) := do
  let (s, p) ← c.policy.doRequest cfg p false
  match p.action with
  | .removeMAF | .removeAndWakeMAF => .error .unexpectedAction
  | _ =>
    let (s, p) ← unreserveEB cfg s p
    let (s, p) ← unreserveMAF s p
    advance cfg { c with policy := s } p

/-- `runReplyProcess`. -/
def runReplyProcess (c : Controller δ γ) (p : Process) : Except Fault (Controller δ γ) := do
  let (s, p) ← c.policy.handleReply cfg p
  match p.action with
  | .forward | .fwdAndWakeEvictMAF => advance cfg { c with policy := s } p
  | .reply | .replyAndRemoveMAF | .removeAndWakeMAF | .removeMAF | .wakeEvictMAF | .noAction =>
    let (s, p) ← unreserveEB cfg s p
    advance cfg { c with policy := s } p
  | _ => .error .unexpectedAction

/-- `runWakeMAFProcess`. An entry that is not needed any more is removed here. -/
def runWakeMAFProcess (c : Controller δ γ) (p : Process) : Except Fault (Controller δ γ) := do
  let (s, p) ← c.policy.doRequest cfg p true
  match p.action with
  | .fwdAndWaitAck | .notifyAndWaitAck | .reply | .replyAndRemoveMAF | .stall | .noAction
  | .fwdAndWakeEvictMAF | .forward =>
    let (s, p) ← unreserveEB cfg s p
    advance cfg { c with policy := s } p
  | .removeMAF =>
    let c ← { c with policy := s }.removeEntry p
    let (s, p) ← unreserveEB cfg c.policy { p with action := .noAction }
    advance cfg { c with policy := s } p
  | _ => .error .unexpectedAction

/-- `runCacheEvictProcess`. -/
def runCacheEvictProcess (c : Controller δ γ) (p : Process) : Except Fault (Controller δ γ) :=
  c.finalizeProcess cfg (Policy.handleCacheEvict p)

/-- `runDirEvictProcess`. -/
def runDirEvictProcess (c : Controller δ γ) (p : Process) : Except Fault (Controller δ γ) := do
  c.finalizeProcess cfg (← Policy.handleDirEvict p)

/-- `runIdleWorkProcess`. -/
def runIdleWorkProcess (c : Controller δ γ) (p : Process) : Except Fault (Controller δ γ) := do
  let (s, p) ← c.policy.handleIdleWork cfg p
  let (s, p) ← unreserveEB cfg s p
  match p.action with
  | .noAction | .forward =>
    advance cfg { c with policy := s, theIdleWorkScheduled := false } p
  | _ => .error .unexpectedAction

/-- `run*Process`, by the type of the process. A bank does not expect snoops. -/
def runProcess (c : Controller δ γ) (p : Process) : Except Fault (Controller δ γ) :=
  match p.type with
  | .wakeMAF => c.runWakeMAFProcess cfg p
  | .cacheEvict => c.runCacheEvictProcess cfg p
  | .dirEvict => c.runDirEvictProcess cfg p
  | .reply => c.runReplyProcess cfg p
  | .snoop => .error .unexpectedMessage
  | .request => c.runRequestProcess cfg p
  | .idleWork => c.runIdleWorkProcess cfg p

/-- `advanceMAFPipeline`: the oldest scheduled process is run. -/
def advanceMAFPipeline (c : Controller δ γ) : Except Fault (Controller δ γ) :=
  match c.theMAFPipeline with
  | [] => .ok c
  | p :: rest => runProcess cfg { c with theMAFPipeline := rest } p

/-- `advancePipeline`, for the directory and tag pipeline. -/
def advanceDirTagPipeline (c : Controller δ γ) : Except Fault (Controller δ γ) :=
  match c.theDirTagPipeline with
  | [] => .ok c
  | p :: rest => do
    let c := { c with theDirTagPipeline := rest }
    if p.requiresData then
      let c ← if p.transmitAfterTag then c.finalizeProcess cfg p else pure c
      return { c with theDataPipeline := c.theDataPipeline ++ [p] }
    else c.finalizeProcess cfg p

/-- `advancePipeline`, for the data pipeline. -/
def advanceDataPipeline (c : Controller δ γ) : Except Fault (Controller δ γ) :=
  match c.theDataPipeline with
  | [] => .ok c
  | p :: rest =>
    let c := { c with theDataPipeline := rest }
    if p.transmitAfterTag then .ok c else c.finalizeProcess cfg p

/-! ### Scheduling -/

/-- A process enters the MAF pipeline. -/
def enqueue (c : Controller δ γ) (sp : Policy δ γ × Process) : Controller δ γ :=
  { c with policy := sp.1, theMAFPipeline := c.theMAFPipeline ++ [sp.2] }

/-- A woken entry is scheduled. -/
def scheduleWakeMAF (c : Controller δ γ) : Except Fault (Controller δ γ) :=
  match c.policy.theMAF.firstWaking with
  | none => .ok c
  | some i =>
    match c.policy.theMAF.get i with
    | none => .ok c
    | some e =>
      if c.policy.ebHasSpace cfg then do
        let s := { c.policy with theMAF := c.policy.theMAF.toPipeline i }
        let sp ← reserveEB cfg s { type := .wakeMAF, maf := some i, transport := e.transport } 1
        return c.enqueue sp
      else .ok c

/-- A write-back is scheduled when the cache evict buffer is full. -/
def scheduleCacheEvict (c : Controller δ γ) : Except Fault (Controller δ γ) :=
  if !c.theIdleWorkScheduled &&
      !c.policy.theCacheEvictBuffer.freeSlotsPending cfg.theCacheEBSize &&
      decide (c.policy.theCacheEvictBuffer.theCurSize > 0) then do
    let (s, t) ← c.policy.getCacheEvictTransport cfg
    return c.enqueue (s, { type := .cacheEvict, transport := t })
  else .ok c

/-- A back-invalidation is scheduled when the evict buffer of the directory is full. -/
def scheduleDirEvict (c : Controller δ γ) : Except Fault (Controller δ γ) :=
  if !c.theIdleWorkScheduled &&
      !c.policy.theDirEvictBuffer.freeSlotsPending cfg.theDirEBSize &&
      c.policy.theDirEvictBuffer.idleWorkReady && c.policy.cacheEBHasSpace cfg then do
    let (s, t) := c.policy.getIdleWorkTransport cfg
    let sp ← reserveCacheEB cfg s { type := .dirEvict, transport := t } 1
    return c.enqueue sp
  else .ok c

/-- A reply is scheduled. -/
def scheduleReply (c : Controller δ γ) (t : Transport) : Controller δ γ :=
  c.enqueue (c.policy, { type := .reply, transport := t })

/-- A snoop is scheduled. -/
def scheduleSnoop (c : Controller δ γ) (t : Transport) : Except Fault (Controller δ γ) :=
  if c.policy.theMAF.full cfg.theMAFSize then .ok c
  else do return c.enqueue (← reserveMAF cfg c.policy { type := .snoop, transport := t })

/-- A request is scheduled. -/
def scheduleRequest (c : Controller δ γ) (t : Transport) : Except Fault (Controller δ γ) :=
  if c.policy.ebHasSpace cfg && !c.policy.theMAF.full cfg.theMAFSize then do
    let (s, p) ← reserveEB cfg c.policy { type := .request, transport := t } 1
    return c.enqueue (← reserveMAF cfg s p)
  else .ok c

/-- Idle work is scheduled, one piece at a time. -/
def scheduleIdleWork (c : Controller δ γ) : Except Fault (Controller δ γ) :=
  if c.policy.cacheEBHasSpace cfg && c.policy.hasIdleWorkAvailable cfg && !c.theIdleWorkScheduled
  then do
    let (s, t) := c.policy.getIdleWorkTransport cfg
    let sp ← reserveCacheEB cfg s { type := .idleWork, transport := t } 1
    return { c.enqueue sp with theIdleWorkScheduled := true }
  else .ok c

/-! ### The machine -/

/-- What may happen next in a bank. -/
inductive Event
  /-- The head of the request queue is scheduled. -/
  | request (t : Transport)
  /-- The head of the reply queue is scheduled. -/
  | reply (t : Transport)
  /-- The head of the snoop queue is scheduled. -/
  | snoop (t : Transport)
  | wakeMAF
  | cacheEvict
  | dirEvict
  | idleWork
  /-- The head of the MAF pipeline is run. -/
  | runMAF
  /-- The head of the directory and tag pipeline advances. -/
  | runDirTag
  /-- The head of the data pipeline advances. -/
  | runData

/-- One step of `processMessages`. -/
def step (c : Controller δ γ) : Event → Except Fault (Controller δ γ)
  | .request t => c.scheduleRequest cfg t
  | .reply t => .ok (c.scheduleReply t)
  | .snoop t => c.scheduleSnoop cfg t
  | .wakeMAF => c.scheduleWakeMAF cfg
  | .cacheEvict => c.scheduleCacheEvict cfg
  | .dirEvict => c.scheduleDirEvict cfg
  | .idleWork => c.scheduleIdleWork cfg
  | .runMAF => c.advanceMAFPipeline cfg
  | .runDirTag => c.advanceDirTagPipeline cfg
  | .runData => c.advanceDataPipeline cfg

/-- **A bank**, from its start. -/
def machine : Lib.Machine (Controller δ γ) Event Fault := ⟨init cfg, step cfg⟩

/-- The processes that have been scheduled and not been finalized. -/
def unfinished (c : Controller δ γ) : List Process :=
  c.theMAFPipeline ++ (c.theDirTagPipeline ++ c.theDataPipeline.filter fun p => !p.transmitAfterTag)

end Controller

/-- A bank for `n` caches with an infinite directory and an array of one set. -/
def smallBank (n ways : ℕ) (evictClean : Bool) : Config (List DirEntry) (ℕ → ArraySet) where
  theCores := n
  theNodeId := 0
  theBlockSize := 64
  theMAFSize := 8
  theDirEBSize := 4
  theCacheEBSize := 4
  theEvictClean := evictClean
  directory := infiniteDirectory
  array := stdArray ⟨1, ways, 64, 1, 64, 1, 64⟩

/-- A message of a cache, or of memory on its behalf. -/
def message (type : MemoryMessageType) (a requester : ℕ) : Transport :=
  { type := type, address := a, dest := { type := .directory, requester := requester } }

/-- A read that misses in the bank and gets its block from memory, from the request to the
acknowledgement. -/
def readMiss (a requester : ℕ) : List Controller.Event :=
  [.request (message readReq a requester), .runMAF, .runDirTag,
    .reply (message missReplyWritable a requester), .runMAF, .runDirTag,
    .reply (message readAck a requester), .runMAF, .runDirTag]

end CMPCache

end Flexus
