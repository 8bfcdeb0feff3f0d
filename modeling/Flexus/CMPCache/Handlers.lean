import Flexus.CMPCache.Policy

/-!
# Replies, evictions and idle work of a bank

The other half of the policy (`components/CMPCache/NonInclusiveMESIPolicy.cpp`): the
acknowledgements and replies that come back to a bank, the write-backs and
back-invalidations it sends, and what it does when it is idle.
-/

namespace Flexus

namespace CMPCache

open MemoryMessageType

variable {δ γ : Type} (cfg : Config δ γ)

namespace Policy

/-! ### Replies -/

/-- The active request of a block that comes from a given cache. -/
def matching (s : Policy δ γ) (t : Transport) : Option (Lib.Slot MAFEntry) :=
  (s.theMAF.findAll t.address .waitAck).find? fun x =>
    x.item.transport.dest.requester == t.dest.requester

/-- The process takes over the room its entry has kept in the cache evict buffer. -/
def takeReserved (s : Policy δ γ) (p : Process) (x : Lib.Slot MAFEntry) :
    Policy δ γ × Process :=
  if 0 < x.item.cacheEBReserved then
    ({ s with theMAF := s.theMAF.setCacheEBReserved x.serial 0 },
      { p with cacheEBReserved := x.item.cacheEBReserved })
  else (s, p)

/-- A block gets a place in the array if it has none. It may not be in the cache evict
buffer then. -/
def fill (s : Policy δ γ) (a : ℕ) : Except Fault (Policy δ γ) :=
  if cfg.array.state s.theCache a = .invalid then
    if (s.theCacheEvictBuffer.find a).isSome then .error .inEvictBuffer
    else s.allocateBlock cfg a
  else .ok s

/-- Dirty data that comes with the answer to a back-invalidation is written to the
array. -/
def invUpdate (s : Policy δ γ) (p : Process) : Except Fault (Policy δ γ × Process) :=
  let a := p.transport.address
  match s.fill cfg a with
  | .error f => .error f
  | .ok s =>
    let s := s.setCacheState cfg a .modified
    .ok (s.yieldRoom a,
      { p with requiresData := true, cacheEBReserved := p.cacheEBReserved + s.keptRoom a })

/-- The last answer to a back-invalidation: the block is gone from the directory, and an
entry that waits for that is woken. -/
def lastInvalidate (s : Policy δ γ) (p : Process) : Except Fault (Policy δ γ × Process) :=
  let a := p.transport.address
  match s.theDirEvictBuffer.find a with
  | none => .error .noDirEvictEntry
  | some e =>
    if e.theInvalidatesSent = 0 then
      if e.state.noSharers = false then .error .sharersLeft
      else
        let p := if 0 < e.cacheEBReserved then { p with cacheEBReserved := e.cacheEBReserved }
          else p
        match s.theDirEvictBuffer.remove a with
        | .error f => .error f
        | .ok b =>
          match s.theMAF.findFirst a .waitEvict with
          | none => .ok ({ s with theDirEvictBuffer := b }, p)
          | some x =>
            .ok ({ s with theDirEvictBuffer := b },
              { p with maf := some x.serial, action := .wakeEvictMAF })
    else .ok (s, p)

/-- `handleReply` of an `InvalidateAck` or an `InvUpdateAck`. -/
def handleInvalidateAck (s : Policy δ γ) (p : Process) : Except Fault (Policy δ γ × Process) :=
  let a := p.transport.address
  let p := { p with action := .noAction }
  match s.theDirEvictBuffer.find a with
  | none => .error .noDirEvictEntry
  | some e =>
    let sharer := p.transport.dest.other
    match (if e.state.isSharer sharer then e.state.removeSharer sharer else .ok e.state) with
    | .error f => .error f
    | .ok d =>
      let b := (s.theDirEvictBuffer.update a (fun e => { e with state := d }) fun e =>
        .refl e.address).completeInvalidate a
      let s := { s with theDirEvictBuffer := b }
      if p.transport.type = invUpdateAck then
        match s.invUpdate cfg p with
        | .error f => .error f
        | .ok (s, p) => s.lastInvalidate p
      else s.lastInvalidate p

/-- The state in which data that came with an acknowledgement is kept. -/
def ackState (type : MemoryMessageType) (c : CacheState) : CacheState :=
  match type with
  | .fetchAckDirty | .readAckDirty => .modified
  | .fetchAck => if c = .modified then c else .shared
  | .readAck => if c = .modified then c else .exclusive
  | _ => c

/-- `handleReply` of the acknowledgement of a read or a fetch. -/
def handleReadAck (s : Policy δ γ) (p : Process) : Except Fault (Policy δ γ × Process) :=
  let a := p.transport.address
  let requester := p.transport.dest.requester
  match s.matching p.transport with
  | none => .error .noMatchingMAF
  | some x =>
    let (s, p) := s.takeReserved { p with maf := some x.serial } x
    match cfg.directory.lookup s.theDirectory a with
    | none => .error .noDirectoryEntry
    | some d =>
      match (if d.isSharer requester then .ok d else d.addSharer requester) with
      | .error f => .error f
      | .ok d =>
        let s := { s with theDirectory := cfg.directory.setState s.theDirectory a d }
        let p := { p with action := .removeAndWakeMAF }
        if p.transport.ackRequiresData then
          match s.fill cfg a with
          | .error f => .error f
          | .ok s =>
            let c := cfg.array.state s.theCache a
            .ok (s.setCacheState cfg a (ackState p.transport.type c),
              { p with requiresData := true })
        else .ok (s, p)

/-- `handleReply` of the acknowledgement of a non-allocating store. -/
def handleNASAck (s : Policy δ γ) (p : Process) : Except Fault (Policy δ γ × Process) :=
  match s.theMAF.findFirst p.transport.address .waitAck with
  | none => .error .noMatchingMAF
  | some x =>
    if x.item.transport.type ≠ nonAllocatingStoreReq then .error .noMatchingMAF
    else
      let (s, p) := s.takeReserved { p with maf := some x.serial } x
      .ok (s, { p with action := .removeAndWakeMAF })

/-- The copy of a block that a cache is going to write: what is in the array is marked
exclusive; a buffered write-back turns into a clean one, or is given up. -/
def afterWrite (s : Policy δ γ) (a : ℕ) : Policy δ γ :=
  if cfg.array.state s.theCache a = .invalid then
    if (s.theCacheEvictBuffer.find a).isSome then
      if cfg.theEvictClean then
        { s with
          theCacheEvictBuffer := s.theCacheEvictBuffer.update a fun e =>
            { e with state := .exclusive, type := evictClean } }
      else { s with theCacheEvictBuffer := s.theCacheEvictBuffer.remove a }
    else s
  else s.setCacheState cfg a .exclusive

/-- `handleReply` of the acknowledgement of a write or an upgrade, which have the same
code except for the type of the request they expect. -/
def handleWriteAck (s : Policy δ γ) (p : Process) (type : MemoryMessageType) :
    Except Fault (Policy δ γ × Process) :=
  let a := p.transport.address
  match s.theMAF.findFirst a .waitAck with
  | none => .error .noMatchingMAF
  | some x =>
    if x.item.transport.type ≠ type then .error .noMatchingMAF
    else
      match cfg.directory.lookup s.theDirectory a with
      | none => .error .noDirectoryEntry
      | some d =>
        match d.setSharer p.transport.dest.requester with
        | .error f => .error f
        | .ok d =>
          let dir := cfg.directory.setProtected (cfg.directory.setState s.theDirectory a d) a false
          let s := { s with theDirectory := dir }.afterWrite cfg a
          let (s, p) := s.takeReserved { p with maf := some x.serial } x
          .ok (s, { p with action := .removeAndWakeMAF })

/-- `handleReply` of memory's answer to a non-allocating store. -/
def handleNASReply (s : Policy δ γ) (p : Process) : Except Fault (Policy δ γ × Process) :=
  match s.matching p.transport with
  | none => .error .noMatchingMAF
  | some x =>
    let t := { p.transport with ackRequired := false }
    .ok (s, { p with
      transport := t, maf := some x.serial, action := .replyAndRemoveMAF
      replyTransport := some { t with dest := { t.dest with type := .requester } } })

/-- `handleReply` of memory's answer to a request. The data of a read or a fetch is kept
in the array, and the answer goes on to the requester. -/
def handleMemoryReply (s : Policy δ γ) (p : Process) : Except Fault (Policy δ γ × Process) :=
  let a := p.transport.address
  match s.matching p.transport with
  | none => .error .noMatchingMAF
  | some x =>
    let (s, p) := s.takeReserved { p with maf := some x.serial } x
    let p := { p with
      action := .reply
      replyTransport := some { p.transport with dest := { p.transport.dest with type := .requester } } }
    let type := x.item.transport.type
    if type = readReq ∨ type = fetchReq then
      match s.fill cfg a with
      | .error f => .error f
      | .ok s =>
        let c := if type ≠ fetchReq ∧ p.transport.type = missReplyWritable then .exclusive
          else .shared
        .ok (s.setCacheState cfg a c, { p with requiresData := true, transmitAfterTag := true })
    else .ok (s, p)

/-- A block that sits in the cache evict buffer, and has not been sent, goes back to the
array. -/
def recallBlock (s : Policy δ γ) (a : ℕ) : Except Fault (Policy δ γ) :=
  if cfg.array.state s.theCache a = .invalid then
    match s.theCacheEvictBuffer.find a with
    | none => .ok s
    | some e =>
      if e.pending then .ok s
      else
        match cfg.array.allocate s.theCache a with
        | .error f => .error f
        | .ok (c, state, v) =>
          let s := { s with
            theCache := cfg.array.setState c a e.state
            theCacheEvictBuffer := s.theCacheEvictBuffer.remove a }
          .ok (evictCacheBlock cfg s state v)
  else .ok s

/-- `handleReply` of the refusal of a forwarded request: the bank answers it itself if
it has the block by now, and asks memory or another sharer otherwise. -/
def handleFwdNAck (s : Policy δ γ) (p : Process) : Except Fault (Policy δ γ × Process) :=
  let a := p.transport.address
  match cfg.directory.lookup s.theDirectory a with
  | none => .error .noDirectoryEntry
  | some d =>
    match s.matching p.transport with
    | none => .error .noMatchingMAF
    | some x =>
      let p := { p with maf := some x.serial }
      match s.recallBlock cfg a with
      | .error f => .error f
      | .ok s =>
        let c := cfg.array.state s.theCache a
        if c ≠ .invalid then
          if d.oneSharer = true ∧ c ≠ .shared then .error .unexpectedRace
          else
            let type := if d.noSharers = true ∧ c ≠ .shared then missReplyWritable else missReply
            let reply := { toRequester p type a with reqSize := cfg.theBlockSize }
            .ok ({ s with theCache := cfg.array.recordAccess s.theCache a },
              { p with action := .reply, replyTransport := some reply, requiresData := true })
        else if d.noSharers then
          let t := { x.item.transport with
            dest := { x.item.transport.dest with type := .memory, source := -1 } }
          .ok ({ s with theMAF := s.theMAF.modify x.serial fun e => { e with transport := t } },
            { p with action := .forward, snoopTransports := p.snoopTransports ++ [t] })
        else
          let u := x.item.transport
          let fwd : Transport :=
            { type := if u.type = fetchReq then fetchFwd else readFwd, address := u.address
              reqSize := u.reqSize
              dest := { u.dest with type := .source, source := pickSharer d u.dest.directory } }
          .ok (s, { p with action := .forward, snoopTransports := p.snoopTransports ++ [fwd] })

/-- `handleReply` of the acknowledgement of a write-back: the block leaves the cache
evict buffer, and an entry that waits for that is woken. -/
def handleEvictAck (s : Policy δ γ) (p : Process) : Except Fault (Policy δ γ × Process) :=
  let a := p.transport.address
  match s.theCacheEvictBuffer.find a with
  | none => .error .noWriteBack
  | some e =>
    if e.pending = false then .error .notPending
    else
      let s := { s with theCacheEvictBuffer := s.theCacheEvictBuffer.remove a }
      match s.theMAF.findFirst a .waitEvict with
      | none => .ok (s, { p with action := .noAction })
      | some x => .ok (s, { p with maf := some x.serial, action := .wakeEvictMAF })

/-- **`handleReply`**. -/
def handleReply (s : Policy δ γ) (p : Process) : Except Fault (Policy δ γ × Process) :=
  match p.transport.type with
  | .invalidateAck | .invUpdateAck => s.handleInvalidateAck cfg p
  | .fetchAckDirty | .readAckDirty | .fetchAck | .readAck => s.handleReadAck cfg p
  | .nasAck => s.handleNASAck p
  | .writeAck => s.handleWriteAck cfg p writeReq
  | .upgradeAck => s.handleWriteAck cfg p upgradeReq
  | .nonAllocatingStoreReply => s.handleNASReply p
  | .fetchReply | .missReply | .missReplyWritable => s.handleMemoryReply cfg p
  | .fwdNAck => s.handleFwdNAck cfg p
  | .evictAck => s.handleEvictAck p
  | _ => .error .unexpectedMessage

/-! ### Evictions by the bank itself -/

/-- `getCacheEvictTransport`: the write-back of the oldest block that has not been
sent. -/
def getCacheEvictTransport (s : Policy δ γ) : Except Fault (Policy δ γ × Transport) :=
  if s.theCacheEvictBuffer.theCurSize = 0 then .error .noEvictable
  else match s.theCacheEvictBuffer.firstNonPending with
  | .error f => .error f
  | .ok (b, e) => .ok ({ s with theCacheEvictBuffer := b },
      { type := e.type, address := e.address, reqSize := cfg.theBlockSize, ackRequired := true
        evictHasData := decide (e.type = evictDirty)
        dest := { type := .memory, requester := 0, directory := cfg.theNodeId } })

/-- `getIdleWorkTransport` and `getDirEvictTransport`: a back-invalidation for the oldest
block that is leaving the directory, or a message of no type. -/
def getIdleWorkTransport (s : Policy δ γ) : Policy δ γ × Transport :=
  match s.theDirEvictBuffer.oldestRequiringInvalidates with
  | none => (s, { type := numMemoryMessageTypes, address := 0
                  dest := { type := .requester, requester := 0 } })
  | some e =>
    let b := s.theDirEvictBuffer.setInvalidatesPending e.address e.state.countSharers
    ({ s with theDirEvictBuffer := b.update e.address fun e => { e with cacheEBReserved := 1 } },
      { type := backInvalidate, address := e.address
        dest := { type := .multicast, requester := 0, directory := cfg.theNodeId
                  multicastList := e.state.getSharerList } })

/-- `handleCacheEvict`. -/
def handleCacheEvict (p : Process) : Process :=
  { p with action := .forward, snoopTransports := p.snoopTransports ++ [p.transport] }

/-- `handleDirEvict`. The reserved room has been copied into the evict buffer. -/
def handleDirEvict (p : Process) : Except Fault Process :=
  if p.transport.type = backInvalidate then
    .ok { p with
      action := .forward, snoopTransports := p.snoopTransports ++ [p.transport]
      cacheEBReserved := 0 }
  else .error .unexpectedMessage

/-- `hasIdleWorkAvailable`. -/
def hasIdleWorkAvailable (s : Policy δ γ) : Bool :=
  if s.theCacheEvictBuffer.theCurSize ≠ 0 ∧ s.theCacheEvictBuffer.evictableReady = true then true
  else if s.theCacheEvictBuffer.full cfg.theCacheEBSize = false then
    cfg.directory.idleWorkReady s.theDirectory || cfg.array.evictionResourcePressure s.theCache
  else false

/-- `handleIdleWork`. -/
def handleIdleWork (s : Policy δ γ) (p : Process) : Except Fault (Policy δ γ × Process) :=
  if p.transport.type = numMemoryMessageTypes then
    let ready := cfg.directory.idleWorkReady s.theDirectory
    let pressure := cfg.array.evictionResourcePressure s.theCache
    if ready && (s.theDirIdleTurn || !pressure) then
      .ok ({ s with theDirIdleTurn := if pressure then false else s.theDirIdleTurn },
        { p with lookupsRequired := cfg.directory.doIdleWork s.theDirectory, action := .noAction })
    else if pressure then
      let s := { s with theDirIdleTurn := if ready then true else s.theDirIdleTurn }
      let p := { p with lookupsRequired := 1, action := .noAction }
      let (c, state, v) := cfg.array.getPreemptiveEviction s.theCache
      let s' := evictCacheBlock cfg { s with theCache := c } state v
      let buffered := state ≠ .invalid ∧
        (cfg.theEvictClean = true ∨ state = .modified ∨ state = .owned)
      .ok (s', { p with requiresData := p.requiresData || decide buffered })
    else if s.theCacheEvictBuffer.theCurSize ≠ 0 then
      if s.theCacheEvictBuffer.evictableReady then
        match s.getCacheEvictTransport cfg with
        | .error f => .error f
        | .ok (s, t) => .ok (s, handleCacheEvict { p with transport := t })
      else .ok (s, { p with action := .noAction })
    else .ok (s, { p with action := .noAction })
  else
    .ok (s, { p with
      action := .forward, snoopTransports := p.snoopTransports ++ [p.transport]
      cacheEBReserved := 0 })

end Policy

end CMPCache

end Flexus
