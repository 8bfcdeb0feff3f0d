import Flexus.CMPCache.Arrays

/-!
# The policy of a bank

The non-inclusive MESI policy of a shared cache bank
(`components/CMPCache/NonInclusiveMESIPolicy.cpp`), over any directory and any cache
array. The policy is given a *process* – a message the controller has taken in, or an
entry of the miss address file it has woken – and decides what is to be done about it.
It changes the miss address file, the directory, the array and the evict buffers at
once, and leaves in the process an *action* that the controller carries out when the
process comes to the end of its pipeline.
-/

namespace Flexus

namespace CMPCache

open MemoryMessageType

/-- `ProcessType`. -/
inductive ProcessType
  | wakeMAF
  | cacheEvict
  | dirEvict
  | reply
  | snoop
  | request
  | idleWork
  deriving DecidableEq

/-- `ProcessAction`. -/
inductive ProcessAction
  | fwdAndWaitAck
  | notifyAndWaitAck
  | fwdAndWakeEvictMAF
  | wakeEvictMAF
  | forward
  | fwdRequest
  | fwdAndReply
  | reply
  | replyAndRemoveMAF
  | removeMAF
  | removeAndWakeMAF
  | stall
  | noAction
  deriving DecidableEq

/-- `ProcessEntry`: a message on its way through the bank. -/
structure Process where
  type : ProcessType
  action : ProcessAction := .noAction
  /-- The iterator into the miss address file. -/
  maf : Option ℕ := none
  transport : Transport
  replyTransport : Option Transport := none
  snoopTransports : List Transport := []
  lookupsRequired : ℕ := 1
  requiresData : Bool := false
  transmitAfterTag : Bool := false
  mafReserved : Bool := false
  cacheEBReserved : ℕ := 0
  dirEBReserved : ℕ := 0
  deriving DecidableEq

/-- What the policy reads of `CMPCacheInfo`, and the two parts it is built over. -/
structure Config (δ γ : Type) where
  theCores : ℕ
  theNodeId : ℕ
  theBlockSize : ℕ
  theMAFSize : ℕ
  theDirEBSize : ℕ
  theCacheEBSize : ℕ
  theEvictClean : Bool
  directory : AbstractDirectory δ
  array : AbstractArray γ

/-- `NonInclusiveMESIPolicy`: the state of a bank. -/
structure Policy (δ γ : Type) where
  theDirectory : δ
  theCache : γ
  theDirEvictBuffer : DirEvictBuffer
  theCacheEvictBuffer : CacheEvictBuffer
  theMAF : MissAddressFile
  theDirIdleTurn : Bool

variable {δ γ : Type}

/-- A bank that starts empty. -/
def Policy.init (cfg : Config δ γ) : Policy δ γ :=
  ⟨cfg.directory.init, cfg.array.init, .init, .init, .init, false⟩

variable (cfg : Config δ γ)

namespace Policy

/-! ### Auxiliary functions -/

/-- `CacheEBHasSpace`. -/
def cacheEBHasSpace (s : Policy δ γ) : Bool :=
  !s.theCacheEvictBuffer.full cfg.theCacheEBSize && cfg.array.evictionResourcesAvailable s.theCache

/-- `EBHasSpace`. -/
def ebHasSpace (s : Policy δ γ) : Bool :=
  !s.theDirEvictBuffer.full cfg.theDirEBSize && s.cacheEBHasSpace cfg

/-- The message with which a block in some state is written back. -/
def evictType : CacheState → MemoryMessageType
  | .modified | .owned => evictDirty
  | .exclusive => evictWritable
  | _ => evictClean

/-- `evictCacheBlock`: a victim goes to the evict buffer when it is dirty, or when
clean evictions are reported. -/
def evictCacheBlock (s : Policy δ γ) (state : CacheState) (a : ℕ) : Policy δ γ :=
  if state ≠ .invalid ∧ (cfg.theEvictClean = true ∨ evictType state = evictDirty) then
    { s with theCacheEvictBuffer := s.theCacheEvictBuffer.allocEntry a (evictType state) state }
  else s

/-- The array gets a place for a block, and its victim is evicted. -/
def allocateBlock (s : Policy δ γ) (a : ℕ) : Except Fault (Policy δ γ) :=
  match cfg.array.allocate s.theCache a with
  | .error f => .error f
  | .ok (c, state, v) => .ok (evictCacheBlock cfg { s with theCache := c } state v)

/-- The state of a block of the array. -/
def setCacheState (s : Policy δ γ) (a : ℕ) (state : CacheState) : Policy δ γ :=
  { s with theCache := cfg.array.setState s.theCache a state }

/-- `pickSharer`. -/
def pickSharer (d : SimpleDirectoryState) (dir : ℕ) : ℤ :=
  if d.isSharer dir then dir else d.getFirstSharer

/-- The entry of a process gets a new state, or a process without an entry gets one.
The result names the entry. -/
def hold (s : Policy δ γ) (p : Process) (hasMaf : Bool) (a : ℕ) (st : MAFState) :
    Except Fault (Policy δ γ × ℕ) :=
  if hasMaf then
    match p.maf with
    | none => .error .danglingMAF
    | some i =>
      match s.theMAF.setState i st p.transport with
      | .error f => .error f
      | .ok m => .ok ({ s with theMAF := m }, i)
  else .ok ({ s with theMAF := s.theMAF.insert p.transport a st }, s.theMAF.theMAF.next)

/-- The process goes to sleep. -/
def stallIn (s : Policy δ γ) (p : Process) (hasMaf : Bool) (a : ℕ) (st : MAFState) :
    Except Fault (Policy δ γ × Process) :=
  match s.hold p hasMaf a st with
  | .error f => .error f
  | .ok (s, _) => .ok (s, { p with action := .stall })

/-- `wakeMAFs`: when no request of the block is active any more, those that wait for it
wake up, and with them those that wait for room in its set of the directory. -/
def wakeMAFs (s : Policy δ γ) (a : ℕ) : Policy δ γ :=
  if (s.theMAF.findFirst a .waitAck).isSome then s
  else
    { s with
      theDirectory :=
        if (cfg.directory.lookup s.theDirectory a).isSome then
          cfg.directory.setProtected s.theDirectory a false
        else s.theDirectory
      theMAF := s.theMAF.wakeEach (s.theMAF.theMAF.inOrder fun e =>
        (e.state == .waitRequest && e.address == a) ||
          (e.state == .waitSet && cfg.directory.sameSet a e.address)) }

/-- A message to the requester of a transaction. -/
def toRequester (p : Process) (type : MemoryMessageType) (a : ℕ) : Transport :=
  { type := type, address := a, dest := { p.transport.dest with type := .requester } }

/-! ### Evictions by the caches above -/

/-- The room in the cache evict buffer that is kept for a block in the evict buffer of the
directory. -/
def keptRoom (s : Policy δ γ) (a : ℕ) : ℕ :=
  match s.theDirEvictBuffer.find a with
  | some e => e.cacheEBReserved
  | none => 0

/-- That room is not kept there any more. -/
def yieldRoom (s : Policy δ γ) (a : ℕ) : Policy δ γ :=
  { s with
    theDirEvictBuffer := s.theDirEvictBuffer.update a fun e => { e with cacheEBReserved := 0 } }

/-- The data of an eviction is written to the array. The result says whether the
eviction goes on to memory instead. -/
def evictData (s : Policy δ γ) (p : Process) : Except Fault (Policy δ γ × Process × Bool) :=
  let a := p.transport.address
  if cfg.array.state s.theCache a = .invalid then
    -- room that is kept for this block in the evict buffer of the directory is taken over
    let p := { p with cacheEBReserved := p.cacheEBReserved + s.keptRoom a }
    let s := s.yieldRoom a
    if 0 < p.cacheEBReserved ∨ s.cacheEBHasSpace cfg = true then
      match cfg.array.allocate s.theCache a with
      | .error f => .error f
      | .ok (c, state, v) =>
        let c := cfg.array.setState c a
          (if p.transport.type = evictDirty then .modified else .exclusive)
        -- the block may be sitting in the evict buffer
        let s := { s with
          theCache := c
          theCacheEvictBuffer := s.theCacheEvictBuffer.remove (cfg.array.blockAddress a) }
        .ok (evictCacheBlock cfg s state v, p, false)
    else if p.transport.type = evictDirty then
      let t := { p.transport with dest := { p.transport.dest with type := .memory } }
      .ok (s, { p with transport := t, snoopTransports := p.snoopTransports ++ [t] }, true)
    else .ok (s, p, false)
  else
    .ok ({ s with theCache := cfg.array.setState (cfg.array.recordAccess s.theCache a) a .modified },
      p, false)

/-- The action of an eviction, from what is left to be done. -/
def evictAction (fwd wake : Bool) : ProcessAction :=
  match fwd, wake with
  | true, true => .fwdAndWakeEvictMAF
  | false, true => .wakeEvictMAF
  | true, false => .forward
  | false, false => .noAction

/-- The evicting cache is taken off the sharers. A block that is leaving the directory
and has no sharers left is gone, and an entry that waits for that is woken. -/
def evictSharer (s : Policy δ γ) (p : Process) (activeWrite fwd : Bool) :
    Except Fault (Policy δ γ × Process) :=
  let a := p.transport.address
  let source := p.transport.dest.requester
  match s.theDirEvictBuffer.find a with
  | some e =>
    if activeWrite then .error .activeWrite
    else
      match (if e.state.isSharer source then e.state.removeSharer source else .ok e.state) with
      | .error f => .error f
      | .ok d =>
        let s := { s with
          theDirEvictBuffer := s.theDirEvictBuffer.update a fun e => { e with state := d } }
        if e.theInvalidatesSent = 0 ∧ d.noSharers = true then
          match s.theDirEvictBuffer.remove a with
          | .error f => .error f
          | .ok b =>
            let s := { s with theDirEvictBuffer := b }
            match s.theMAF.findFirst a .waitEvict with
            | none => .ok (s, { p with action := evictAction fwd false })
            | some x =>
              if x.item.transport.address ≠ a then .error .noMatchingMAF
              else .ok (s, { p with maf := some x.serial, action := evictAction fwd true })
        else .ok (s, { p with action := evictAction fwd false })
  | none =>
    match cfg.directory.lookup s.theDirectory a with
    | none => .ok (s, { p with action := evictAction fwd false })
    | some d =>
      match d.removeSharer source with
      | .error f => .error f
      | .ok d =>
        .ok ({ s with theDirectory := cfg.directory.setState s.theDirectory a d },
          { p with action := evictAction fwd false })

/-- The cache is recorded as a sharer, in the directory or in its evict buffer. -/
def validSharer (s : Policy δ γ) (a source : ℕ) : Bool :=
  match cfg.directory.lookup s.theDirectory a with
  | some d => d.isSharer source
  | none =>
    match s.theDirEvictBuffer.find a with
    | some e => e.state.isSharer source
    | none => false

/-- The message carries data that is to be kept. -/
def carriesData (t : Transport) : Bool :=
  t.type == evictDirty || (t.type == evictWritable && t.evictHasData)

/-- The eviction comes from a cache of which an acknowledgement is outstanding. -/
def evictMustWait (s : Policy δ γ) (t : Transport) : Bool :=
  (s.theMAF.findAll t.address .waitAck).any fun x =>
    x.item.transport.address == t.address &&
      x.item.transport.dest.requester == t.dest.requester

/-- A write or an upgrade of the block is active. -/
def activeWriteReq (s : Policy δ γ) (a : ℕ) : Bool :=
  match (s.theMAF.findAll a .waitAck).head? with
  | none => false
  | some x => x.item.transport.type == writeReq || x.item.transport.type == upgradeReq

/-- The acknowledgement of an eviction, if the evicting cache wants one. -/
def acknowledge (p : Process) : Process :=
  if p.transport.ackRequired then
    { p with
      snoopTransports := p.snoopTransports ++ [toRequester p evictAck p.transport.address] }
  else p

/-- **`doEvict`**: an eviction waits while its cache still owes an acknowledgement; it is
acknowledged otherwise, its data is kept, and the cache is no sharer any more. -/
def doEvict (s : Policy δ γ) (p : Process) (hasMaf : Bool) : Except Fault (Policy δ γ × Process) :=
  let a := p.transport.address
  if s.evictMustWait p.transport then s.stallIn p hasMaf a .waitRequest
  else
    let ack := p.transport.ackRequired
    if carriesData p.transport && s.validSharer cfg a p.transport.dest.requester then
      match evictData cfg s (acknowledge p) with
      | .error f => .error f
      | .ok (s', p', fwd) => evictSharer cfg s' p' (s.activeWriteReq a) (ack || fwd)
    else evictSharer cfg s (acknowledge p) (s.activeWriteReq a) ack

/-! ### Requests -/

/-- Two requests that may not overlap: one of them writes. -/
def conflicts (t u : MemoryMessageType) : Bool :=
  [writeReq, upgradeReq, nonAllocatingStoreReq].contains t ||
    [writeReq, upgradeReq, nonAllocatingStoreReq].contains u

/-- The request is granted in some way, and its entry waits for the acknowledgement. -/
def accept (s : Policy δ γ) (p : Process) (hasMaf : Bool) (a : ℕ) (action : ProcessAction) :
    Except Fault (Policy δ γ × Process) :=
  match s.hold p hasMaf a .waitAck with
  | .error f => .error f
  | .ok (s, i) => .ok (s, { p with action := action, maf := some i })

/-- `accept`, with the room in the cache evict buffer kept in the entry: the
acknowledgement may bring data. -/
def acceptKeeping (s : Policy δ γ) (p : Process) (hasMaf : Bool) (a : ℕ)
    (action : ProcessAction) : Except Fault (Policy δ γ × Process) :=
  match s.hold p hasMaf a .waitAck with
  | .error f => .error f
  | .ok (s, i) =>
    .ok ({ s with theMAF := s.theMAF.setCacheEBReserved i p.cacheEBReserved },
      { p with action := action, maf := some i, cacheEBReserved := 0 })

/-- The request itself, sent on to memory. -/
def fwdToMemory (p : Process) : Process :=
  let t := { p.transport with dest := { p.transport.dest with type := .memory } }
  { p with transport := t, snoopTransports := p.snoopTransports ++ [t] }

/-- The answer to a non-allocating store that the bank handles itself. -/
def replyNAS (p : Process) (a : ℕ) : Process :=
  { p with
    replyTransport := some { toRequester p nonAllocatingStoreReply a with
      ackRequiresData := false, reqSize := p.transport.reqSize }
    requiresData := true }

/-- A block that is not on the chip: the request goes to memory. -/
def serveFromMemory (s : Policy δ γ) (p : Process) (hasMaf mafWaiting : Bool) (a : ℕ) :
    Except Fault (Policy δ γ × Process) :=
  if mafWaiting then s.stallIn p hasMaf a .waitRequest
  else
    let notify := { toRequester p missNotify a with outstandingMsgs := 1 }
    match p.transport.type with
    | .writeReq =>
      s.accept { fwdToMemory p with replyTransport := some notify } hasMaf a .notifyAndWaitAck
    | .nonAllocatingStoreReq => s.accept (fwdToMemory p) hasMaf a .fwdAndWaitAck
    | .readReq | .fetchReq => s.acceptKeeping (fwdToMemory p) hasMaf a .fwdAndWaitAck
    | _ => .error .unexpectedMessage

/-- The only dirty copy leaves the bank with the data of the reply that carries it. -/
def giveAway (s : Policy δ γ) (a : ℕ) (sole : Bool) (c : CacheState) : Policy δ γ :=
  if sole && c == .modified then
    { s with theCache := cfg.array.invalidateBlock (cfg.array.setState s.theCache a .invalid) a }
  else s

/-- A read or a fetch of a block that is on the chip. -/
def serveRead (s : Policy δ γ) (p : Process) (hasMaf mafWaiting : Bool) (a : ℕ)
    (d : SimpleDirectoryState) (c : CacheState) : Except Fault (Policy δ γ × Process) :=
  let fetch := p.transport.type == fetchReq
  let requester := p.transport.dest.requester
  if c = .invalid ∨ (d.oneSharer = true ∧ c = .exclusive) then
    if d.oneSharer && mafWaiting then s.stallIn p hasMaf a .waitRequest
    else
      let sharer := pickSharer d p.transport.dest.directory
      let fwd : Transport :=
        { type := if fetch then fetchFwd else readFwd, address := a
          reqSize := p.transport.reqSize, ackRequired := true
          ackRequiresData := decide (c = .invalid)
          dest := { p.transport.dest with type := .source, source := sharer } }
      let t := { p.transport with dest := { p.transport.dest with source := sharer } }
      s.acceptKeeping { p with transport := t, snoopTransports := p.snoopTransports ++ [fwd] }
        hasMaf a .fwdAndWaitAck
  else
    -- permission to write goes with the data when nobody else has the block
    let sole := d.noSharers && c != .shared && !fetch
    let s := s.giveAway cfg a sole c
    if sole && mafWaiting then s.stallIn p hasMaf a .waitRequest
    else
      let type := if fetch then fetchReply
        else if sole then (if c = .modified then missReplyDirty else missReplyWritable)
        else missReply
      match d.addSharer requester with
      | .error f => .error f
      | .ok d =>
        let s := { s with
          theDirectory := cfg.directory.setState s.theDirectory a d
          theCache := cfg.array.recordAccess s.theCache a }
        let reply := { toRequester p type a with
          reqSize := cfg.theBlockSize, ackRequired := true, ackRequiresData := false }
        s.accept { p with replyTransport := some reply, requiresData := true } hasMaf a .reply

/-- The bank gives up its own copy. -/
def dropCopy (s : Policy δ γ) (a : ℕ) (c : CacheState) : Policy δ γ :=
  if c = .invalid then s else { s with theCache := cfg.array.setState s.theCache a .invalid }

/-- A write to a block that is on the chip. -/
def serveWrite (s : Policy δ γ) (p : Process) (hasMaf : Bool) (a : ℕ)
    (d : SimpleDirectoryState) (c : CacheState) : Except Fault (Policy δ γ × Process) :=
  if d.noSharers then
    match d.addSharer p.transport.dest.requester with
    | .error f => .error f
    | .ok d =>
      let cache := if c = .invalid then s.theCache
        else cfg.array.invalidateBlock (cfg.array.setState s.theCache a .invalid) a
      let s := { s with
        theDirectory := cfg.directory.setState s.theDirectory a d
        theCache := cfg.array.recordAccess cache a }
      let reply := { toRequester p (if c = .modified then missReplyDirty else missReplyWritable) a
        with reqSize := cfg.theBlockSize, ackRequired := true, ackRequiresData := false
             outstandingMsgs := -1 }
      s.accept { p with replyTransport := some reply, requiresData := true } hasMaf a .reply
  else
    -- the data comes from a sharer when the bank has no copy, or not the latest one
    let fwds := c == .invalid || (c == .exclusive && d.oneSharer)
    let sharer := if fwds then pickSharer d p.transport.dest.directory else -1
    let fwd : Transport :=
      { type := writeFwd, address := a, reqSize := p.transport.reqSize
        dest := { p.transport.dest with type := .source, source := sharer } }
    let others := d.getOtherSharers sharer
    let invalidates := !(fwds && d.oneSharer)
    let inv : Transport :=
      { type := invalidate, address := a, reqSize := 0
        dest := { p.transport.dest with type := .multicast
                                        multicastList := p.transport.dest.multicastList ++ others } }
    if invalidates && inv.dest.multicastList.isEmpty then .error .noInvalidates
    else
      let snoops := (if fwds then [fwd] else []) ++ (if invalidates then [inv] else [])
      let reply := { toRequester p (if fwds then missNotify else missNotifyData) a with
        outstandingMsgs := d.countSharers, ackRequired := true, ackRequiresData := false
        reqSize := if fwds then 0 else cfg.theBlockSize }
      let s := if fwds then s
        else { s with theCache := cfg.array.recordAccess s.theCache a }
      let t := { p.transport with dest := { p.transport.dest with source := sharer } }
      (s.dropCopy cfg a c).accept
        { p with
          transport := t, snoopTransports := p.snoopTransports ++ snoops
          replyTransport := some reply, requiresData := p.requiresData || !fwds }
        hasMaf a .notifyAndWaitAck

/-- An upgrade by a sharer. -/
def serveUpgrade (s : Policy δ γ) (p : Process) (hasMaf : Bool) (a : ℕ)
    (d : SimpleDirectoryState) (c : CacheState) : Except Fault (Policy δ γ × Process) :=
  let requester := p.transport.dest.requester
  if d.oneSharer || d.noSharers then
    if (requester : ℤ) ≠ d.getFirstSharer then .error .upgradeSharer
    else
      let reply := { toRequester p upgradeReply a with
        outstandingMsgs := -1, ackRequired := true, ackRequiresData := false }
      (s.dropCopy cfg a c).accept { p with replyTransport := some reply } hasMaf a .reply
  else
    let inv : Transport :=
      { type := invalidate, address := a, reqSize := 0
        dest := { p.transport.dest with
          type := .multicast
          multicastList := p.transport.dest.multicastList ++ d.getOtherSharers requester } }
    let reply := { toRequester p missNotify a with
      outstandingMsgs := (d.countSharers : ℤ) - 1, ackRequired := true, ackRequiresData := false }
    let t := { p.transport with dest := { p.transport.dest with source := requester } }
    (s.dropCopy cfg a c).accept
      { p with
        transport := t, snoopTransports := p.snoopTransports ++ [inv]
        replyTransport := some reply }
      hasMaf a .notifyAndWaitAck

/-- A non-allocating store to a block that has a directory entry: the sharers are
ignored. -/
def serveNAS (s : Policy δ γ) (p : Process) (hasMaf : Bool) (a : ℕ) (c : CacheState) :
    Except Fault (Policy δ γ × Process) :=
  if c = .invalid then s.accept (fwdToMemory p) hasMaf a .fwdAndWaitAck
  else
    { s with theCache := cfg.array.recordAccess s.theCache a }.accept (replyNAS p a) hasMaf a .reply

/-- An upgrade whose block has been invalidated on the way is a write. -/
def raced (p : Process) (d : SimpleDirectoryState) : Process :=
  if p.transport.type = upgradeReq ∧ d.isSharer p.transport.dest.requester = false then
    { p with transport := { p.transport with type := writeReq } }
  else p

/-- The request is served, now that the block has its directory entry and is in the
array if the bank has a copy of it. -/
def serve (s : Policy δ γ) (p : Process) (hasMaf mafWaiting found : Bool) (a : ℕ) :
    Except Fault (Policy δ γ × Process) :=
  let c := cfg.array.state s.theCache a
  if p.transport.type = nonAllocatingStoreReq ∧ found = false then
    if c ≠ .invalid then
      { s with theCache := cfg.array.recordAccess (cfg.array.setState s.theCache a .modified) a
        }.accept (replyNAS p a) hasMaf a .reply
    else s.accept (fwdToMemory p) hasMaf a .fwdAndWaitAck
  else
    let s := if p.transport.type = nonAllocatingStoreReq then s
      else { s with theDirectory := cfg.directory.setProtected s.theDirectory a true }
    let d := (cfg.directory.lookup s.theDirectory a).getD (.reset cfg.theCores)
    let p := raced p d
    if d.noSharers = true ∧ c = .invalid then s.serveFromMemory p hasMaf mafWaiting a
    else
      match p.transport.type with
      | .readReq | .fetchReq => s.serveRead cfg p hasMaf mafWaiting a d c
      | .writeReq => s.serveWrite cfg p hasMaf a d c
      | .upgradeReq => s.serveUpgrade cfg p hasMaf a d c
      | .nonAllocatingStoreReq => s.serveNAS cfg p hasMaf a c
      | _ => .error .unexpectedMessage

/-- A block that sits in the cache evict buffer goes back to the array, unless its
write-back is on the way: then the request waits for that. -/
def withArray (s : Policy δ γ) (p : Process) (hasMaf mafWaiting found : Bool) (a : ℕ) :
    Except Fault (Policy δ γ × Process) :=
  if cfg.array.state s.theCache a = .invalid then
    match s.theCacheEvictBuffer.find a with
    | none => s.serve cfg p hasMaf mafWaiting found a
    | some e =>
      if e.pending then s.stallIn p hasMaf a .waitEvict
      else
        match cfg.array.allocate s.theCache a with
        | .error f => .error f
        | .ok (c, state, v) =>
          let s := { s with
            theCache := cfg.array.setState c a e.state
            theCacheEvictBuffer := s.theCacheEvictBuffer.remove a }
          (evictCacheBlock cfg s state v).serve cfg p hasMaf mafWaiting found a
  else s.serve cfg p hasMaf mafWaiting found a

/-- The directory gets an entry for the block: its old one, if that is in the evict
buffer, or a new one. Nothing when the set has no room. -/
def allocateEntry (s : Policy δ γ) (a : ℕ) (d : SimpleDirectoryState) :
    Option (Policy δ γ) :=
  match cfg.directory.allocate s.theDirectory a d with
  | none => none
  | some (dir, v) =>
    some { s with
      theDirectory := dir
      theDirEvictBuffer := match v with
        | none => s.theDirEvictBuffer
        | some (va, vd) => s.theDirEvictBuffer.insert va vd }

/-- The directory entry of a request, which a non-allocating store does not need. -/
def withDirectory (s : Policy δ γ) (p : Process) (hasMaf mafWaiting : Bool) (a : ℕ) :
    Except Fault (Policy δ γ × Process) :=
  if (cfg.directory.lookup s.theDirectory a).isSome then
    s.withArray cfg p hasMaf mafWaiting true a
  else
    match s.theDirEvictBuffer.find a with
    | some e =>
      match s.allocateEntry cfg a e.state with
      | none => s.stallIn p hasMaf a .waitSet
      | some s =>
        match s.theDirEvictBuffer.remove a with
        | .error f => .error f
        | .ok b => { s with theDirEvictBuffer := b }.withArray cfg p hasMaf mafWaiting
            cfg.directory.foundAfterAllocate a
    | none =>
      if p.transport.type = nonAllocatingStoreReq then s.withArray cfg p hasMaf mafWaiting false a
      else
        match s.allocateEntry cfg a (.reset cfg.theCores) with
        | none => s.stallIn p hasMaf a .waitSet
        | some s => s.withArray cfg p hasMaf mafWaiting cfg.directory.foundAfterAllocate a

/-- A fetch is redundant when its cache waits for the same block already. -/
def redundantFetch (s : Policy δ γ) (p : Process) (mafWaiting : Bool) (a : ℕ) : Bool :=
  mafWaiting && p.transport.type == fetchReq &&
    (s.theMAF.findAll a .waitAck).any fun x =>
      x.item.transport.dest.requester == p.transport.dest.requester

/-- A request that no entry of its block holds up. -/
def admitRequest (s : Policy δ γ) (p : Process) (hasMaf mafWaiting : Bool) (a : ℕ) :
    Except Fault (Policy δ γ × Process) :=
  if p.transport.type.isEvictType then s.doEvict cfg p hasMaf
  else if s.redundantFetch p mafWaiting a then
    .ok (s, { p with action := if hasMaf then .removeMAF else .noAction })
  else
    match s.theDirEvictBuffer.find a with
    | some e =>
      if e.theInvalidatesSent ≠ 0 then s.stallIn p hasMaf a .waitEvict
      else s.withDirectory cfg p hasMaf mafWaiting a
    | none => s.withDirectory cfg p hasMaf mafWaiting a

/-- **`doRequest`**: a request waits behind a request of its block that waits, and behind
an active one unless both read. -/
def doRequest (s : Policy δ γ) (p : Process) (hasMaf : Bool) :
    Except Fault (Policy δ γ × Process) :=
  let a := cfg.array.blockAddress p.transport.address
  match s.theMAF.find a with
  | none => s.admitRequest cfg p hasMaf false a
  | some x =>
    match x.item.state with
    | .waitSet =>
      if p.transport.type.isEvictType then s.doEvict cfg p hasMaf
      else s.stallIn p hasMaf a .waitSet
    | .waitEvict =>
      if p.transport.type.isEvictType then s.doEvict cfg p hasMaf
      else s.stallIn p hasMaf a .waitRequest
    | .waitRequest => s.stallIn p hasMaf a .waitRequest
    | .waitAck =>
      if conflicts p.transport.type x.item.transport.type then
        s.stallIn p hasMaf a .waitRequest
      else s.admitRequest cfg p hasMaf true a
    | .finishing | .waking | .inPipeline => s.admitRequest cfg p hasMaf false a
    | .waitRevoke => .error .invalidMAFState

end Policy

end CMPCache

end Flexus
