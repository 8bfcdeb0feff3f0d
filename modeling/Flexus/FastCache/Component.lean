import Flexus.FastCache.Protocol

/-!
# The private functional cache

`FastCache` (`components/FastCache/FastCacheImpl.cpp`) answers requests from
above and snoops from below. The caches call each other: a request is handed down
and comes back as a reply in the same message, a snoop is handed up. So a cache is
modelled inside the state `σ` of the whole system it is wired into, and its
channels are functions on that state (`Flexus.FastCache.Ports`): what the system
has at the other end of a channel – another cache, the shared cache, nothing – is
what the function does.
-/

namespace Flexus

namespace FastCache

open MemoryMessageType

/-- A channel that is answered at once: the message goes out, and its type comes
back as the answer. -/
abbrev Channel (σ : Type) := σ → MemoryMessage → Except Fault (σ × MemoryMessageType)

/-- A channel that is not wired: the message comes back as it is. -/
def unwired {σ : Type} : Channel σ := fun s m => .ok (s, m.type)

/-- The wiring of a cache into a system: where its array is, and its channels. -/
structure Ports (g : Geometry) (σ : Type) where
  /-- The array. -/
  getCache : σ → StdCache g
  /-- Putting the array back. -/
  setCache : σ → StdCache g → σ
  /-- `RequestOut`: to the cache below. -/
  requestOut : Channel σ
  /-- `SnoopOutI`: to the instruction cache above. -/
  snoopOutI : Channel σ
  /-- `SnoopOutD`: to the data cache above. -/
  snoopOutD : Channel σ

/-- The options of a cache that its protocol depends on. `DowngradeLRU` is read,
but makes no difference. -/
structure Config where
  /-- The requests come from a trace. -/
  usingTraces : Bool
  /-- Evictions of clean blocks are reported to the cache below. -/
  cleanEvictions : Bool
  /-- A block read by a snoop becomes the least recently used. -/
  snoopLRU : Bool

section Component

variable {g : Geometry} {σ : Type} (cfg : Config) (p : Ports g σ)

/-- `changeState` of a lookup result. -/
def changeState (s : σ) (r : LookupResult g) (st : CoherenceState) (mru lru : Bool) : σ :=
  p.setCache s ((p.getCache s).changeState r st mru lru)

/-- `updateLRU` of a lookup result. -/
def updateLRU (s : σ) (r : LookupResult g) : σ := p.setCache s ((p.getCache s).updateLRU r)

/-- `sendInvalidate`: whether a cache above had the block dirty. -/
def sendInvalidate (s : σ) (addr : ℕ) (icache dcache : Bool) : Except Fault (σ × Bool) := do
  let (s, ti) ← if icache then p.snoopOutI s ⟨invalidate, addr⟩ else pure (s, invalidate)
  let (s, td) ← if dcache then p.snoopOutD s ⟨invalidate, addr⟩ else pure (s, ti)
  pure (s, (icache && ti = invUpdateAck) || td = invUpdateAck)

/-- `continueSnoop`: the snoop goes to both caches above, except that a downgrade
does not go to the instruction cache. The data cache answers; only a return
request may be answered by the instruction cache instead. -/
def continueSnoop (s : σ) (m : MemoryMessage) : Except Fault (σ × MemoryMessageType) := do
  let (s, dup) ← if m.type ≠ downgrade then p.snoopOutI s m else pure (s, m.type)
  let (s, t) ← p.snoopOutD s m
  pure (s, if t = returnNAck ∧ dup ≠ returnNAck then dup else t)

/-- `evict` of the protocol: inclusion is kept by invalidating the block above. -/
def protocolEvict (s : σ) (tagset : ℕ) (state : CoherenceState) :
    Except Fault (σ × MemoryMessageType) := do
  let (s, wasDirty) ← sendInvalidate p s tagset true true
  pure (s, if wasDirty ∨ state = .modified then evictDirty
    else if state = .exclusive then evictWritable else evictClean)

/-- `evict`: a dirty block is written back, a clean one is reported only if the
cache below wants to know. -/
def evict (s : σ) (tagset : ℕ) (state : CoherenceState) : Except Fault σ := do
  let (s, t) ← protocolEvict p s tagset state
  if t = evictDirty ∨ cfg.cleanEvictions then
    let (s, _) ← p.requestOut s ⟨t, tagset⟩
    pure s
  else
    pure s

/-- `allocate` of a lookup result. -/
def allocate (s : σ) (r : LookupResult g) (st : CoherenceState) : Except Fault σ :=
  StdCache.allocate p.getCache p.setCache (evict cfg p) s r st

/-- **`doCoherenceAction`**: the code behind an entry of the request table. There
is code for these combinations only. -/
def doCoherenceAction (s : σ) (r : LookupResult g) (m : MemoryMessage) :
    RequestAction → Except Fault (σ × MemoryMessageType)
  | .action .sendNone false .sameState false .noResponse => pure (s, m.type)
  | .action .sendNone false .sameState true .fillWritable =>
    pure (updateLRU p s r, missReplyWritable)
  | .action .sendNone false .dependState true .fillDirty =>
    if m.type = loadReq then pure (updateLRU p s r, missReplyDirty)
    else pure (changeState p s r .exclusive true false, missReplyDirty)
  | .action .sendNone false .sameState true .fillDirty => pure (updateLRU p s r, missReplyDirty)
  | .action .sendNone false .eState true .fillDirty =>
    pure (changeState p s r .exclusive true false, missReplyDirty)
  | .action .sendNone false .sameState true .fillValid => pure (updateLRU p s r, missReply)
  | .action .sendNone false .mState true .fillWritable =>
    pure (changeState p s r .modified true false, missReplyWritable)
  | .action .sendNone false .sameState true .noResponse => pure (updateLRU p s r, m.type)
  | .action .sendUpgrade false .mState true .fillWritable => do
    let (s, _) ← p.requestOut s ⟨upgradeReq, m.address⟩
    pure (changeState p s r .modified true false, missReplyWritable)
  | .action .sendUpgrade false .eState true .fillWritable => do
    let (s, _) ← p.requestOut s ⟨upgradeReq, m.address⟩
    pure (changeState p s r .exclusive true false, missReplyWritable)
  | .action .sendNone false .mState true .noResponse =>
    pure (changeState p s r .modified true false, m.type)
  | .action .sendNone false .eState true .noResponse =>
    pure (changeState p s r .exclusive true false, m.type)
  | .action .sendUpgrade false .mState true .noResponse => do
    let (s, t) ← p.requestOut s ⟨upgradeReq, m.address⟩
    pure (changeState p s r .modified true false, t)
  | .action .sendUpgrade false .eState true .noResponse => do
    let (s, t) ← p.requestOut s ⟨upgradeReq, m.address⟩
    pure (changeState p s r .exclusive true false, t)
  | .action .sendRead true .dependState true .fillDepend => do
    let (s, t) ← p.requestOut s ⟨readReq, m.address⟩
    match t with
    | missReply => pure (← allocate cfg p s r .shared, missReply)
    | missReplyWritable => pure (← allocate cfg p s r .exclusive, missReplyWritable)
    | missReplyDirty =>
      let new := if m.type = loadReq then CoherenceState.modified else .exclusive
      pure (← allocate cfg p s r new, missReplyDirty)
    | fwdReplyOwned => pure (← allocate cfg p s r .owned, missReply)
    | _ => .error .unexpectedReply
  | .action .sendWrite true .mState true .fillDepend => do
    let (s, t) ← p.requestOut s ⟨writeReq, m.address⟩
    pure (← allocate cfg p s r .modified, t)
  | .action .sendWrite true .eState true .fillDepend => do
    let (s, t) ← p.requestOut s ⟨writeReq, m.address⟩
    pure (← allocate cfg p s r .exclusive, t)
  | .action .sendFetch true .sState true .fillValid => do
    let (s, _) ← p.requestOut s ⟨fetchReq, m.address⟩
    pure (← allocate cfg p s r .shared, missReply)
  | .action .sendFetch true .dependState true .fillValid => do
    let (s, t) ← p.requestOut s ⟨fetchReq, m.address⟩
    let new := if t = fwdReplyOwned then CoherenceState.owned else .shared
    pure (← allocate cfg p s r new, missReply)
  | .action .sendNAW false .sameState false .fillDepend => p.requestOut s m
  | _ => .error .poisonRequest

/-- **`RequestIn`**: a request from above. -/
def requestIn (s : σ) (m : MemoryMessage) : Except Fault (σ × MemoryMessageType) := do
  let access ← message2access m.type
  let (c, r) := (p.getCache s).lookup m.address
  let s := p.setCache s c
  match InclusiveMESI.requestAction cfg.usingTraces (c.getState r) access with
  | none => .error .unmappedRequest
  | some a => doCoherenceAction cfg p s r m a

/-- The code behind an entry of the snoop table. -/
def doSnoopAction (s : σ) (r : LookupResult g) (m : MemoryMessage) :
    SnoopAction → Except Fault (σ × MemoryMessageType)
  | ⟨.reply t, false, .sameState, false, false⟩ => pure (s, t)
  | ⟨.reply t, false, .sState, mru, lru⟩ => pure (changeState p s r .shared mru lru, t)
  | ⟨.reply returnReply, true, .dependState, mru, lru⟩ => do
    let (s, t) ← continueSnoop p s ⟨downgrade, m.address⟩
    let new := if t = downUpdateAck then CoherenceState.owned else .shared
    pure (changeState p s r new mru lru, returnReply)
  | ⟨.reply t, true, .sState, mru, lru⟩ => do
    let (s, _) ← continueSnoop p s m
    pure (changeState p s r .shared mru lru, t)
  | ⟨.reply t, true, .iState, mru, lru⟩ => do
    let (s, _) ← continueSnoop p s m
    pure (changeState p s r .invalid mru lru, t)
  | ⟨.reply t, true, .oState, mru, lru⟩ => do
    let (s, _) ← continueSnoop p s m
    pure (changeState p s r .owned mru lru, t)
  | ⟨.snoopDepend, true, .iState, mru, lru⟩ => do
    let (s, t) ← continueSnoop p s m
    pure (changeState p s r .invalid mru lru, if t = invalidate then invalidateAck else t)
  | ⟨.snoopDepend, true, .sState, mru, lru⟩ => do
    let (s, t) ← continueSnoop p s m
    pure (changeState p s r .shared mru lru, if t = downgrade then downgradeAck else t)
  | ⟨.snoopDepend, true, .dependState, mru, lru⟩ => do
    let (s, t) ← continueSnoop p s m
    if t = downUpdateAck then pure (changeState p s r .owned mru lru, t)
    else pure (changeState p s r .shared mru lru, downgradeAck)
  | _ => .error .unmappedSnoop

/-- **`SnoopIn`**: a snoop from below. The block is looked up once more at the
end. -/
def snoopIn (s : σ) (m : MemoryMessage) : Except Fault (σ × MemoryMessageType) := do
  let (c, r) := (p.getCache s).lookup m.address
  let s := p.setCache s c
  match InclusiveMESI.snoopAction cfg.snoopLRU (c.getState r) m.type with
  | none => .error .unmappedSnoop
  | some a =>
    let (s, t) ← doSnoopAction p s r m a
    pure (p.setCache s ((p.getCache s).lookup m.address).1, t)

end Component

end FastCache

end Flexus
