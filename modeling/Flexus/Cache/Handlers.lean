import Flexus.Cache.InclusiveMESI

/-!
# Snoops and replies of a private cache

What `InclusiveMESI` (`components/Cache/InclusiveMESI.cpp`) does with the messages from below.
These are snoops – a peer wants to read or to write a block, or the directory wants it back –
and the replies to its own requests. A snoop of a block that the caches above may hold is
passed on to them and waits in the snoop buffer.
-/

namespace Flexus

namespace Cache

open MemoryMessageType

variable {γ ρ : Type}

namespace InclusiveMESI

variable (cfg : Config γ ρ)

/-! ### Snoops from below -/

/-- An action that answers the level below. -/
def sendBack (msg : Message) (type : MemoryMessageType) (data : Bool) : Action :=
  { theAction := .send
    theBackMessage := some { msg with type := type }
    theRequiresData := data }

/-- A snoop that is dropped or has to wait. -/
def quiet : Action := { theAction := .noAction }

/-- A snoop of a block that has snoops under way waits for them. -/
def waitForSnoops (s : InclusiveMESI γ) (msg : Message) :
    Except ControllerFault (InclusiveMESI γ × Action) := do
  return ({ s with theSnoopBuffer := ← s.theSnoopBuffer.addWaitingEntry cfg.theSBSize msg }, quiet)

/-- A snoop is sent up, to the instruction cache, the data cache or both, and waits for the
answers of those. -/
def sendSnoop (s : InclusiveMESI γ) (msg : Message) (request : MemoryMessageType) (i d : Bool) :
    Except ControllerFault (InclusiveMESI γ × Action) := do
  let b ← s.theSnoopBuffer.allocEntry cfg.theSBSize msg i d
  return ({ s with theSnoopBuffer := b },
    { theAction := .send
      theFrontMessage :=
        some { type := request, address := msg.address, coreIdx := msg.coreIdx }
      theFrontToDCache := d
      theFrontToICache := i })

/-- A snoop is sent up unless others of the block are under way. -/
def sendOrWait (s : InclusiveMESI γ) (msg : Message) (request : MemoryMessageType) (i d : Bool) :
    Except ControllerFault (InclusiveMESI γ × Action) :=
  if s.theSnoopBuffer.hasEntry msg.address then s.waitForSnoops cfg msg
  else s.sendSnoop cfg msg request i d

/-- `handleBackMessage`, for a read or a fetch of a peer. -/
def handleReadFwd (s : InclusiveMESI γ) (msg : Message) :
    Except ControllerFault (InclusiveMESI γ × Action) :=
  match s.found cfg msg.address with
  | (.invalid, _) => .ok (s, sendBack msg fwdNAck false)
  | (.shared, _) => .ok (s, sendBack msg fwdReply true)
  | (.exclusive, _) => s.sendOrWait cfg msg downgrade false true
  | (.modified, some e) =>
    .ok ({ s with
        theEvictBuffer := s.theEvictBuffer.update e.theBlockAddress fun e =>
          { e with theState := .shared, theType := evictClean } },
      sendBack msg fwdReplyOwned true)
  | (.modified, none) => do
    let s ← s.setState cfg (cfg.array.lookup s.theArray msg.address) .shared
    return (s, sendBack msg fwdReplyOwned true)
  -- the switch falls through to the replies, which take the snoop for none of theirs
  | (.owned, _) => .error .unexpectedReply

/-- An upgrade of the block that waits for its reply becomes a write, and the block loses its
protection. -/
def demoteUpgrade (s : InclusiveMESI γ) (a : ℕ) : Except ControllerFault (InclusiveMESI γ) :=
  match s.theMaf.getWaitingMAFEntry a with
  | none => .ok s
  | some x =>
    if x.item.transport.type = upgradeReq then
      { s with
        theMaf := s.theMaf.modify x.serial fun e =>
          { e with transport := { e.transport with type := writeReq } } }.setProtected cfg
        (cfg.array.lookup s.theArray a) false
    else .ok s

/-- An instruction cache gives a block up without asking the core. An eviction that has been
sent stays in the evict buffer. -/
def dropBlock (s : InclusiveMESI γ) (a : ℕ) (evictee : Option EvictEntry) :
    Except ControllerFault (InclusiveMESI γ) :=
  match evictee with
  | none => do
    let r := cfg.array.lookup s.theArray a
    (← s.setState cfg r .invalid).makeLRU cfg r
  | some e =>
    if e.thePending then .ok s
    else .ok { s with theEvictBuffer := s.theEvictBuffer.remove e.theBlockAddress }

/-- Whether the eviction of a block has been sent. -/
def isPending (evictee : Option EvictEntry) : Bool :=
  (evictee.map EvictEntry.thePending).getD false

/-- `handleBackMessage`, for a write of a peer. -/
def handleWriteFwd (s : InclusiveMESI γ) (msg : Message) :
    Except ControllerFault (InclusiveMESI γ × Action) :=
  match s.found cfg msg.address with
  | (.invalid, _) =>
    .ok (s, if cfg.theNAckAlways then sendBack msg fwdNAck false else quiet)
  | (state, evictee) => do
    let d := !(s.arrayState cfg msg.address = .modified && cfg.snoopsI)
    let s ← s.demoteUpgrade cfg msg.address
    if cfg.theCacheLevel = .L1I then
      return (← s.dropBlock cfg msg.address evictee, sendBack msg fwdReplyWritable true)
    else if isPending evictee then
      return (s, sendBack msg (if state = .modified then fwdReplyDirty else fwdReplyWritable) true)
    else s.sendOrWait cfg msg invalidate cfg.snoopsI d

/-- `handleBackMessage`, for an invalidate. -/
def handleInvalidate (s : InclusiveMESI γ) (msg : Message) :
    Except ControllerFault (InclusiveMESI γ × Action) :=
  match s.found cfg msg.address with
  | (.invalid, _) =>
    .ok (s, if cfg.theNAckAlways then sendBack msg invalidateNAck false else quiet)
  | (state, evictee) =>
    if (state = .exclusive ∨ state = .modified) ∧ cfg.the2LevelPrivate = false then
      .error .invalidateState
    else do
      let s ← s.demoteUpgrade cfg msg.address
      if ((s.theMaf.getWaitingMAFEntry msg.address).map
          fun x => x.item.transport.type.isWrite).getD true = false then
        .error .invalidateState
      else if cfg.theCacheLevel = .L1I then
        return (← s.dropBlock cfg msg.address evictee, sendBack msg invalidateAck false)
      else
        match evictee with
        | none => s.sendOrWait cfg msg invalidate cfg.snoopsI true
        | some e =>
          if e.thePending then return (s, sendBack msg invalidateAck false)
          else if e.theEvictable then
            return ({ s with theEvictBuffer := s.theEvictBuffer.remove e.theBlockAddress },
              sendBack msg invalidateAck false)
          else s.sendOrWait cfg msg invalidate cfg.snoopsI true

/-- The miss of a block that is invalidated from below is an upgrade, or a store of the
core. -/
def checkBackInvalidate (s : InclusiveMESI γ) (a : ℕ) (state : BasicState) : Bool :=
  match s.theMaf.getWaitingMAFEntry a with
  | none => true
  | some x =>
    match x.item.transport.type with
    | upgradeReq | storeReq | storePrefetchReq | cmpxReq | rmwReq => state ≠ .modified
    | _ => false

/-- `handleBackMessage`, for an invalidation by the level below. -/
def handleBackInvalidate (s : InclusiveMESI γ) (msg : Message) :
    Except ControllerFault (InclusiveMESI γ × Action) :=
  match s.found cfg msg.address with
  | (.invalid, _) =>
    .ok (s, if cfg.theNAckAlways then sendBack msg invalidateNAck false else quiet)
  | (state, evictee) =>
    if s.checkBackInvalidate msg.address state = false then .error .backInvalidateMiss
    else do
      let s ← s.demoteUpgrade cfg msg.address
      if cfg.theCacheLevel = .L1I then
        return (← s.dropBlock cfg msg.address evictee, sendBack msg invalidateAck false)
      else if isPending evictee then return (s, sendBack msg invalidateAck false)
      else s.sendOrWait cfg msg invalidate cfg.snoopsI (!(cfg.snoopsI && state = .modified))

/-- `handleBackMessage`, for the acknowledgement of an eviction. -/
def handleEvictAck (s : InclusiveMESI γ) (msg : Message) :
    Except ControllerFault (InclusiveMESI γ × Action) :=
  match s.found cfg msg.address with
  | (_, none) => .error .evictAck
  | (_, some e) =>
    .ok ({ s with
        theEvictBuffer := s.theEvictBuffer.remove e.theBlockAddress
        thePendingEvicts := s.thePendingEvicts - 1 },
      { theAction := .noAction, theWakeEvicts := true })

/-! ### Replies from below -/

/-- `endRequest`, for the set of a message. -/
def endRequest (s : InclusiveMESI γ) (a : ℕ) : Except ControllerFault (InclusiveMESI γ) := do
  return { s with
    theRequestTracker := ← s.theRequestTracker.endRequest (cfg.array.getSet a) }

/-- A reply to the core carries what the core has asked for. -/
def restore (msg original : Message) : Message :=
  { msg with reqSize := original.reqSize, address := original.address, coreIdx := original.coreIdx }

/-- The acknowledgement of a reply, where one is required. -/
def ack (msg : Message) (a : Message) : Option Message := if msg.ackRequired then some a else none

/-- What a reply does to the block of a read: its new state, whether the data are dirty, and
the type of the reply that is passed on. A dirty reply to a read of the level above leaves the
block shared: the case falls through to the next. -/
def fill : MemoryMessageType → MemoryMessageType →
    Option (BasicState × Bool × MemoryMessageType)
  | fetchReq, fetchReply => some (.shared, false, fetchReply)
  | fetchReq, fwdReply => some (.shared, false, fetchReply)
  | fetchReq, missReply => some (.shared, false, fetchReply)
  | fetchReq, fwdReplyOwned => some (.shared, true, fetchReply)
  | loadReq, fwdReplyOwned => some (.shared, true, loadReply)
  | loadReq, missReply => some (.shared, false, loadReply)
  | loadReq, fwdReply => some (.shared, false, loadReply)
  | loadReq, missReplyWritable => some (.exclusive, false, loadReply)
  | loadReq, missReplyDirty => some (.modified, false, loadReply)
  | readReq, missReplyDirty => some (.shared, true, missReply)
  | readReq, missReply => some (.shared, false, missReply)
  | readReq, fwdReply => some (.shared, false, missReply)
  | readReq, missReplyWritable => some (.exclusive, false, missReplyWritable)
  | _, _ => none

/-- The acknowledgement of a read. -/
def readAckOf (original msg : Message) (dirty : Bool) : Message :=
  let type :=
    if original.type = fetchReq then (if dirty then fetchAckDirty else fetchAck)
    else if dirty then readAckDirty else readAck
  { type := type
    address := msg.address
    coreIdx := if original.type = fetchReq then msg.coreIdx else 0
    reqSize := cfg.theBlockSize
    ackRequiresData := msg.ackRequiresData }

/-- `handleBackMessage`, for the reply to a read or a fetch. -/
def handleReadReply (s : InclusiveMESI γ) (original msg : Message) :
    Except ControllerFault (InclusiveMESI γ × Action) :=
  if (s.found cfg msg.address).1 ≠ .invalid then .error .blockPresent
  else do
    let (s, r) ← s.allocateBlock cfg (cfg.array.lookup s.theArray msg.address) msg.address
    match fill original.type msg.type with
    | none => .error .unexpectedReply
    | some (state, dirty, reply) =>
      let s ← s.setState cfg r state
      if original.type = loadReq ∧ cfg.theCacheLevel ≠ .L1 then .error .cacheLevel
      else
        let back := ack msg (readAckOf cfg original msg dirty)
        let core := original.type = loadReq ∨
          (original.type = fetchReq ∧ cfg.theCacheLevel = .L1I)
        let msg := { (if core then restore msg original else msg) with type := reply }
        return (← s.endRequest cfg msg.address,
          { theAction := .replyAndRemoveResponseMAF
            theFrontMessage := some msg
            theBackMessage := back
            theFrontToDCache := original.type ≠ fetchReq
            theFrontToICache := original.type = fetchReq
            theRequiresData := true })

/-- Whether the data of a reply to a write are dirty, and whether it has data. -/
def writeData : MemoryMessageType → Option (Bool × Bool)
  | upgradeReply | invalidateAck | invalidateNAck => some (false, false)
  | missNotifyData | fwdReplyOwned | fwdReplyDirty | invUpdateAck | missReplyDirty =>
    some (true, true)
  | fwdReplyWritable | missReplyWritable => some (false, true)
  | _ => none

/-- The number of replies a write goes on to wait for. -/
def outstandingAfter (e : MafEntry) (msg : Message) : ℤ :=
  let miss := msg.type = missReplyWritable ∨ msg.type = missReplyDirty
  if miss ∧ (msg.ackRequired = false ∨ msg.outstandingMsgs = -1) then 0
  else if msg.type = upgradeReply then 0
  else if msg.type = missNotifyData then e.outstandingMsgs + msg.outstandingMsgs
  else e.outstandingMsgs - 1

/-- The data of a reply to a write go into the array. The result says whether the block has
been brought in by it. -/
def receiveData (s : InclusiveMESI γ) (r : ρ) (a : ℕ) (isDirty hasData : Bool) :
    Except ControllerFault (InclusiveMESI γ × ρ × Bool) :=
  if !hasData then .ok (s, r, false)
  else
    let state : BasicState := if isDirty then .modified else .exclusive
    if cfg.array.state s.theArray r = .invalid then do
      let (s, r) ← s.allocateBlock cfg r a
      let s ← s.setProtected cfg r true
      return (← s.setState cfg r state, r, true)
    else do
      return (← s.setState cfg r state, r, false)

/-- The entry of a write after a reply. -/
def recordReply (s : InclusiveMESI γ) (i : ℕ) (n : ℤ) (dataReceived : Bool) :
    InclusiveMESI γ :=
  { s with
    theMaf := s.theMaf.modify i fun e =>
      { e with outstandingMsgs := n, dataReceived := dataReceived } }

/-- The last reply to a write: the block becomes writable, and the reply is passed on. -/
def finishWrite (s : InclusiveMESI γ) (r : ρ) (original msg : Message) (sentUpgrade : Bool) :
    Except ControllerFault (InclusiveMESI γ × Action) :=
  if original.type ≠ writeReq ∧ cfg.theCacheLevel ≠ .L1 then .error .cacheLevel
  else do
    let back := ack msg
      { type := if sentUpgrade then upgradeAck else writeAck, address := msg.address }
    let msg :=
      if original.type ≠ writeReq then
        { restore msg original with type := storeReplyType original.type }
      else
        { msg with
          reqSize := cfg.theBlockSize
          type :=
            if cfg.array.state s.theArray r = .modified then missReplyDirty
            else missReplyWritable }
    let s ← s.setState cfg r (if original.type ≠ writeReq then .modified else .exclusive)
    let s ← s.setProtected cfg r false
    let s ← s.recordAccess cfg r
    return (← s.endRequest cfg msg.address,
      { theAction := .replyAndRemoveResponseMAF
        theFrontMessage := some msg
        theBackMessage := back
        theRequiresData := true })

/-- `handleBackMessage`, for a reply to a write. -/
def handleWriteReply (s : InclusiveMESI γ) (x : Lib.Slot MafEntry) (msg : Message) :
    Except ControllerFault (InclusiveMESI γ × Action) :=
  if (s.found cfg msg.address).2.isSome then .error .fromEvictBuffer
  else
    match writeData msg.type with
    | none => .error .unexpectedReply
    | some (isDirty, hasData) => do
      let r := cfg.array.lookup s.theArray msg.address
      let (s, r, filled) ← s.receiveData cfg r msg.address isDirty hasData
      let received := x.item.dataReceived || filled
      let n := outstandingAfter x.item msg
      if n = 0 then
        let sentUpgrade := !received && cfg.array.state s.theArray r ≠ .invalid
        if received || sentUpgrade then
          (s.recordReply x.serial n true).finishWrite cfg r x.item.transport msg sentUpgrade
        else .error .noData
      else
        return (s.recordReply x.serial n received,
          { theAction := .noAction, theRequiresData := hasData && (filled || isDirty) })

/-- `handleBackMessage`, for a reply to an upgrade. -/
def handleUpgradeReply (s : InclusiveMESI γ) (x : Lib.Slot MafEntry) (msg : Message) :
    Except ControllerFault (InclusiveMESI γ × Action) :=
  if (s.found cfg msg.address).2.isSome then .error .fromEvictBuffer
  else if s.arrayState cfg msg.address = .invalid then .error .unexpectedReply
  else
    let r := cfg.array.lookup s.theArray msg.address
    match msg.type with
    | upgradeReply | invalidateAck | invalidateNAck | fwdReplyOwned => do
      let n := if msg.type = upgradeReply then 0 else x.item.outstandingMsgs - 1
      let s ← if msg.type = fwdReplyOwned then s.setState cfg r .modified else pure s
      let s := s.recordReply x.serial n x.item.dataReceived
      if n = 0 then
        let s ← s.setState cfg r .exclusive
        let s ← s.setProtected cfg r false
        let s ← s.recordAccess cfg r
        let s ← s.endRequest cfg msg.address
        return (s,
          { theAction := .replyAndRemoveResponseMAF
            theFrontMessage := some
              { msg with type := upgradeReply, reqSize := cfg.theBlockSize }
            theBackMessage := ack msg { type := upgradeAck, address := msg.address } })
      else return (s, quiet)
    | _ => .error .unexpectedReply

/-- `handleBackMessage`, for a reply to a non-allocating store. -/
def handleStoreReply (s : InclusiveMESI γ) (original msg : Message) :
    Except ControllerFault (InclusiveMESI γ × Action) :=
  if msg.type ≠ nonAllocatingStoreReply then .error .unexpectedReply
  else
    .ok (s,
      { theAction := .replyAndRemoveResponseMAF
        theFrontMessage := some (restore msg original)
        theBackMessage := ack msg { type := nasAck, address := msg.address }
        theRequiresData := true })

/-- `handleBackMessage`, for a reply: what it does depends on the miss it is for. -/
def handleReply (s : InclusiveMESI γ) (msg : Message) :
    Except ControllerFault (InclusiveMESI γ × Action) :=
  match s.theMaf.getWaitingMAFEntry msg.address with
  | none => .error .noMiss
  | some x =>
    match x.item.transport.type with
    | fetchReq | loadReq | readReq => s.handleReadReply cfg x.item.transport msg
    | storeReq | storePrefetchReq | cmpxReq | rmwReq | writeReq => s.handleWriteReply cfg x msg
    | upgradeReq => s.handleUpgradeReply cfg x msg
    | nonAllocatingStoreReq => s.handleStoreReply x.item.transport msg
    | _ => .error .unexpectedReply

/-- The reply to a write that all invalidations have been answered for. -/
def notified (s : InclusiveMESI γ) (r : ρ) (original msg : Message) : Message :=
  let type :=
    match original.type with
    | storeReq | storePrefetchReq | cmpxReq | rmwReq => storeReplyType original.type
    | upgradeReq => upgradeReply
    | _ =>
      if cfg.array.state s.theArray r = .modified then missReplyDirty else missReplyWritable
  if cfg.theCacheLevel = .L1 then { restore msg original with type := type }
  else { msg with type := type, reqSize := cfg.theBlockSize }

/-- The stores of the core. -/
def isStore : MemoryMessageType → Bool
  | storeReq | storePrefetchReq | cmpxReq | rmwReq => true
  | _ => false

/-- `handleBackMessage`, for the number of invalidations a write has to wait for. -/
def handleMissNotify (s : InclusiveMESI γ) (msg : Message) :
    Except ControllerFault (InclusiveMESI γ × Action) :=
  match s.theMaf.getWaitingMAFEntry msg.address with
  | none => .error .noMiss
  | some x =>
    if !x.item.transport.type.isWrite then .error .unexpectedReply
    else
      let original := x.item.transport
      let r := cfg.array.lookup s.theArray msg.address
      let n := x.item.outstandingMsgs + msg.outstandingMsgs
      if n ≠ 0 then .ok (s.recordReply x.serial n x.item.dataReceived, quiet)
      else
        let present := !x.item.dataReceived && cfg.array.state s.theArray r ≠ .invalid
        let received := x.item.dataReceived || present
        if original.type ≠ upgradeReq ∧ received = false then .error .noData
        else if (s.found cfg msg.address).2.isSome then .error .fromEvictBuffer
        else if !isStore original.type && cfg.array.state s.theArray r = .invalid then
          .error .noData
        else do
          let s := s.recordReply x.serial n received
          let reply := s.notified cfg r original msg
          let s ← s.setProtected cfg r false
          let s ← s.setState cfg r (if isStore original.type then .modified else .exclusive)
          return (← s.endRequest cfg reply.address,
            { theAction := .replyAndRemoveResponseMAF
              theFrontMessage := some reply
              theBackMessage := some
                { type := if original.type = upgradeReq || present then upgradeAck else writeAck
                  address := msg.address }
              theRequiresData := true })

/-- `handleBackMessage`, for the reply to a non-allocating store, which a first-level cache
waits for and the others pass on. -/
def handleNonAllocatingStoreReply (s : InclusiveMESI γ) (msg : Message) :
    Except ControllerFault (InclusiveMESI γ × Action) :=
  if cfg.theCacheLevel ≠ .L1 then
    .ok (s,
      { theAction := .send
        theFrontMessage := some msg
        theBackMessage := ack msg { type := nasAck, address := msg.address } })
  else do (← s.endRequest cfg msg.address).handleReply cfg msg

/-- **`handleBackMessage`**. -/
def handleBackMessage (s : InclusiveMESI γ) (msg : Message) :
    Except ControllerFault (InclusiveMESI γ × Action) :=
  match msg.type with
  | protocolMessage => .ok (s, sendBack msg protocolMessage false)
  | readFwd | fetchFwd => s.handleReadFwd cfg msg
  | writeFwd => s.handleWriteFwd cfg msg
  | invalidate => s.handleInvalidate cfg msg
  | backInvalidate => s.handleBackInvalidate cfg msg
  | evictAck => s.handleEvictAck cfg msg
  | fwdReply | fwdReplyOwned | fwdReplyWritable | fwdReplyDirty | invalidateAck
  | invalidateNAck | invUpdateAck | missNotifyData | fetchReply | upgradeReply | missReply
  | missReplyWritable | missReplyDirty => s.handleReply cfg msg
  | prefetchReadReply | prefetchWritableReply | prefetchReadRedundant =>
    .ok (s, { theAction := .send, theFrontMessage := some msg })
  | nonAllocatingStoreReply => s.handleNonAllocatingStoreReply cfg msg
  | missNotify => s.handleMissNotify cfg msg
  | _ => .error .unexpectedBackMessage

end InclusiveMESI

end Cache

end Flexus
