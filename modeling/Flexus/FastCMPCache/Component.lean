import Flexus.FastCache.Component
import Flexus.FastCMPCache.Directory
import Flexus.Lib.Machine

/-!
# The functional chip multiprocessor

The system of the functional simulators: every core has an instruction and a data
cache, all of them above one shared cache with a directory, and the memory below
(`components/FastCMPCache/FastCMPCacheImpl.cpp`,
`components/FastMemoryLoopback/FastMemoryLoopbackImpl.cpp`). With separate
instruction and data caches the directory counts two caches for a core: the data
cache of core `c` has index `2 * c`, its instruction cache `2 * c + 1`.

Everything happens inside a request: it goes down from a private cache, snoops go
up from the shared cache to the other private caches, replies come back, and a
fill may evict a block – which is one more request, in the middle of the first.
What remains is an event-driven machine, whose events are the requests of the
cores and the snoops of the DMA side, and whose faults are the assertions of the
source.
-/

namespace Flexus

namespace FastCMPCache

open MemoryMessageType

/-- The configuration of a system: the geometries, which agree on the block size,
and the options that change what the caches do. -/
structure Config where
  /-- The number of cores. -/
  cmpWidth : ℕ
  /-- The number of address bits inside a block. -/
  blockShift : ℕ
  /-- The geometries of the private caches, by index. -/
  l1 : ℕ → Geometry
  /-- The geometry of the shared cache. -/
  l2 : Geometry
  l1_blockShift : ∀ i, (l1 i).blockShift = blockShift
  l2_blockShift : l2.blockShift = blockShift
  /-- `SnoopLRU` of the private caches. -/
  snoopLRU : ℕ → Bool
  /-- `AlwaysMulticast` of the shared cache. -/
  alwaysMulticast : Bool

variable (cfg : Config)

/-- The block of an address: `theCoherenceUnitMask` applied. -/
def Config.blockOf (a : ℕ) : ℕ := a / 2 ^ cfg.blockShift * 2 ^ cfg.blockShift

/-- The private caches are run with traces off and clean evictions on. -/
def Config.l1Config (i : ℕ) : FastCache.Config := ⟨false, true, cfg.snoopLRU i⟩

/-- **The state of the system.** The last two fields record what leaves it: the
messages sent to memory and the replies to the snoops of the DMA side, the newest
first. -/
structure System where
  /-- The arrays of the private caches, by index. -/
  l1 : (i : ℕ) → StdCache (cfg.l1 i)
  /-- The array of the shared cache. -/
  l2 : StdCache cfg.l2
  /-- The directory. -/
  theDirectory : InfiniteDirectory
  /-- The messages sent to memory. -/
  sent : List MemoryMessage
  /-- The replies of private caches to the snoops of the DMA side. -/
  dmaReplies : List MemoryMessage

/-- The system with empty caches. -/
def System.init : System cfg where
  l1 i := .empty (cfg.l1 i)
  l2 := .empty cfg.l2
  theDirectory _ := none
  sent := []
  dmaReplies := []

variable {cfg}

/-! ### The private caches in the system -/

/-- The wiring of a private cache: nothing is above it. -/
def l1Ports (requestOut : FastCache.Channel (System cfg)) (i : ℕ) :
    FastCache.Ports (cfg.l1 i) (System cfg) where
  getCache s := s.l1 i
  setCache s c := { s with l1 := Function.update s.l1 i c }
  requestOut := requestOut
  snoopOutI := FastCache.unwired
  snoopOutD := FastCache.unwired

/-- `SnoopOutI` and `SnoopOutD` of the shared cache: a snoop of the private cache
with the given index. -/
def snoopOut (i : ℕ) : FastCache.Channel (System cfg) :=
  FastCache.snoopIn (cfg.l1Config i) (l1Ports FastCache.unwired i)

/-! ### The memory -/

/-- `FromCache` of the memory. -/
def fromCache : MemoryMessageType → Except Fault MemoryMessageType
  | loadReq | fetchReq => .ok missReply
  | readReq | prefetchReadNoAllocReq | prefetchReadAllocReq => .ok missReply
  | storeReq => .ok storeReq
  | storePrefetchReq => .ok storePrefetchReq
  | rmwReq => .ok rmwReq
  | cmpxReq => .ok cmpxReq
  | writeReq => .ok writeReq
  | writeAllocate => .ok writeAllocate
  | upgradeReq | upgradeAllocate => .ok missReplyWritable
  | evictDirty => .ok evictDirty
  | evictWritable => .ok evictWritable
  | evictClean => .ok evictClean
  | nonAllocatingStoreReq => .ok nonAllocatingStoreReply
  | _ => .error .unknownMemoryRequest

/-- `RequestOut` of the shared cache. -/
def requestOut : FastCache.Channel (System cfg) := fun s m => do
  let t ← fromCache m.type
  pure ({ s with sent := m :: s.sent }, t)

/-! ### The shared cache -/

/-- `combineSnoopResponse`. -/
def combineSnoopResponse (a b : MemoryMessageType) : Except Fault MemoryMessageType :=
  if a = noRequest then .ok b
  else if b = noRequest then .ok a
  else if a = invUpdateAck ∨ b = invUpdateAck then .ok invUpdateAck
  else if a = invalidateAck ∨ b = invalidateAck then .ok invalidateAck
  else if a = invalidate ∨ b = invalidate then .ok invalidate
  else if a = returnReplyDirty ∨ b = returnReplyDirty then .ok returnReplyDirty
  else if a = returnReply ∨ b = returnReply then .ok returnReply
  else if a = returnNAck ∧ b = returnNAck then .ok returnNAck
  else .error .unknownCombination

/-- `evict`: the eviction of a block is reported to memory, dirty or not. -/
def evict (s : System cfg) (tagset : ℕ) (state : CoherenceState) : Except Fault (System cfg) := do
  let (s, _) ← requestOut s ⟨SingleCMPProtocol.evict state, tagset⟩
  pure s

/-- The state of the snooping loop: the combined response so far, our response,
and whether the second next state is to be used. -/
structure Snooping (cfg : Config) where
  /-- The system. -/
  sys : System cfg
  /-- The combined response of the private caches. -/
  response : MemoryMessageType
  /-- Our response. -/
  ourResponse : MemoryMessageType
  /-- The second next state is to be used. -/
  useNs1 : Bool

/-- The body of the snooping loop, for one sharer. -/
def snoopOne (action : PrimaryAction) (m : MemoryMessage) (addr index : ℕ)
    (l : Snooping cfg) : Except Fault (Snooping cfg) := do
  let (s, t) ← snoopOut index l.sys ⟨action.snoopType, m.address⟩
  let response ← combineSnoopResponse l.response t
  let second := response ≠ action.terminalResponse0 ∧ response = action.terminalResponse1
  let d ← s.theDirectory.processSnoopResponse index t addr
  pure ⟨{ s with theDirectory := d }, response,
    if second then action.response1 else l.ourResponse, if second then true else l.useNs1⟩

/-- Whether a response ends the snooping. -/
def isTerminal (action : PrimaryAction) (response : MemoryMessageType) : Bool :=
  response = action.terminalResponse0 ∨ response = action.terminalResponse1

/-- **The snooping loop** over the list of sharers: the requester is skipped, and
the loop ends at a terminal response unless everybody is to be snooped. -/
def snoopLoop (action : PrimaryAction) (m : MemoryMessage) (addr anIndex : ℕ)
    (everybody : Bool) : List ℕ → Snooping cfg → Except Fault (Snooping cfg)
  | [], l => .ok l
  | index :: rest, l =>
    if index = anIndex then
      snoopLoop action m addr anIndex everybody rest l
    else do
      let l ← snoopOne action m addr index l
      if ¬everybody ∧ isTerminal action l.response then
        pure l
      else
        snoopLoop action m addr anIndex everybody rest l

/-- The classification of hits and misses at the end of a request: which message
types it knows. -/
def classify (accessedMemory snoopSuccess : Bool) (type : MemoryMessageType) :
    Except Fault Unit := do
  if accessedMemory then
    match type with
    | readReq | fetchReq | writeReq | nonAllocatingStoreReq => pure ()
    | _ => throw .illegalMessage
  if snoopSuccess then
    match type with
    | readReq | fetchReq | writeReq | nonAllocatingStoreReq | upgradeReq => pure ()
    | _ => throw .illegalMessage
  if ¬snoopSuccess ∧ ¬accessedMemory then
    match type with
    | readReq | fetchReq | writeReq | nonAllocatingStoreReq => pure ()
    | evictClean | evictDirty | evictWritable | upgradeReq => pure ()
    | _ => throw .illegalMessage

/-- The update of the array at the end of a request. -/
def updateCache (action : PrimaryAction) (useNs1 : Bool) (r : LookupResult cfg.l2)
    (s : System cfg) : Except Fault (System cfg) :=
  let nstate := if useNs1 then action.nextState1 else action.nextState0
  if action.allocate then
    StdCache.allocate System.l2 (fun s c => { s with l2 := c }) evict s r nstate
  else if nstate ≠ s.l2.getState r then
    if s.l2.getState r = .invalid then .error .changeFromInvalid
    else .ok { s with l2 := s.l2.changeState r nstate action.update false }
  else if action.update ∧ s.l2.getState r ≠ .invalid then
    .ok { s with l2 := s.l2.updateLRU r }
  else
    .ok s

/-- The snooping of a request: nothing if the action asks for none. -/
def snoop (action : PrimaryAction) (m : MemoryMessage) (addr anIndex : ℕ)
    (sharers : SharingVector) (s : System cfg) : Except Fault (Snooping cfg) :=
  let l : Snooping cfg := ⟨s, noRequest, action.response0, false⟩
  if action.snoopType = noRequest then
    .ok l
  else
    let snoopList := sharers.toList
    let multipleSnoops := 1 < snoopList.length ∧ ¬(snoopList.length = 2 ∧ anIndex ∈ snoopList)
    let everybody := action.multicast ∨ (cfg.alwaysMulticast ∧ multipleSnoops)
    snoopLoop action m addr anIndex everybody snoopList l

/-- The message goes to memory if the snooping did not settle the request. -/
def forward (accessedMemory : Bool) (m : MemoryMessage) (s : System cfg) :
    Except Fault (System cfg) :=
  if accessedMemory then (requestOut s m).map Prod.fst else .ok s

/-- The second half of a request, after the snooping: the memory, the directory,
the array and the classification. -/
def finishRequest (anIndex : ℕ) (m : MemoryMessage) (addr : ℕ) (action : PrimaryAction)
    (r : LookupResult cfg.l2) (l : Snooping cfg) :
    Except Fault (System cfg × MemoryMessageType) := do
  let snoopSuccess := action.snoopType ≠ noRequest && isTerminal action l.response
  let accessedMemory := !snoopSuccess && action.forwardRequest
  let s ← forward accessedMemory m l.sys
  let d ← s.theDirectory.processRequestResponse anIndex m.type l.ourResponse addr
  let s ← updateCache action l.useNs1 r { s with theDirectory := d }
  classify accessedMemory snoopSuccess m.type
  pure (s, l.ourResponse)

/-- **`processRequest`**: a request of the private cache `anIndex`. -/
def processRequest (anIndex : ℕ) : FastCache.Channel (System cfg) := fun s m => do
  let addr := cfg.blockOf m.address
  let (sharers, state) := s.theDirectory.lookup addr
  let (c, r) := s.l2.lookup addr
  let s := { s with l2 := c }
  let action ← SingleCMPProtocol.getAction (s.l2.getState r) state m.type
  let l ← snoop action m addr anIndex sharers s
  finishRequest anIndex m addr action r l

/-- The snooping loop of a DMA access: every sharer is snooped. -/
def dmaLoop (m : MemoryMessage) (addr : ℕ) :
    List ℕ → System cfg → Except Fault (System cfg)
  | [], s => .ok s
  | index :: rest, s => do
    let (s, t) ← snoopOut index s m
    let d ← s.theDirectory.processSnoopResponse index t addr
    dmaLoop m addr rest { s with theDirectory := d, dmaReplies := ⟨t, addr⟩ :: s.dmaReplies }

/-- The state a DMA access leaves the array of the shared cache in: a downgrade
turns a modified block into an exclusive one, an invalidate drops a valid block. -/
def dmaArray (type : MemoryMessageType) (c : StdCache cfg.l2) (r : LookupResult cfg.l2) :
    StdCache cfg.l2 :=
  if type = downgrade then
    if c.getState r = .modified then c.changeState r .exclusive false false else c
  else
    if c.getState r ≠ .invalid then c.changeState r .invalid false false else c

/-- **`SnoopIn`** of the shared cache: a snoop of the DMA side. A downgrade of a
block with several sharers ends at the shared cache. The message itself is left as
it is. -/
def snoopIn (s : System cfg) (m : MemoryMessage) : Except Fault (System cfg) :=
  let addr := cfg.blockOf m.address
  let dirValid := (s.theDirectory addr).isSome
  let sharers := (s.theDirectory.lookup addr).1
  let (c, r) := s.l2.lookup addr
  if m.type ≠ downgrade ∧ m.type ≠ invalidate then
    .error .unexpectedSnoop
  else
    let s := { s with l2 := dmaArray m.type c r }
    if m.type = downgrade ∧ 1 < sharers.countSharers then .ok s
    else if ¬dirValid then .ok s
    else dmaLoop m addr sharers.toList s

/-! ### The machine -/

/-- The requests of a core. -/
inductive Op
  | load
  | store
  | rmw
  | cmpx
  | nonAllocatingStore
  | fetch
  deriving DecidableEq

/-- The message of a request. -/
def Op.type : Op → MemoryMessageType
  | load => loadReq
  | store => storeReq
  | rmw => rmwReq
  | cmpx => cmpxReq
  | nonAllocatingStore => nonAllocatingStoreReq
  | fetch => fetchReq

/-- The private cache a request of a core goes to. -/
def Op.cache (c : ℕ) : Op → ℕ
  | fetch => 2 * c + 1
  | _ => 2 * c

/-- The snoops of the DMA side. -/
inductive DmaOp
  | downgrade
  | invalidate
  deriving DecidableEq

/-- The message of a DMA snoop. -/
def DmaOp.type : DmaOp → MemoryMessageType
  | downgrade => .downgrade
  | invalidate => .invalidate

/-- The events of the system. -/
inductive Event (cfg : Config)
  | core (c : Fin cfg.cmpWidth) (op : Op) (address : ℕ)
  | dma (op : DmaOp) (address : ℕ)

/-- A request to the private cache with the given index. -/
def l1RequestIn (i : ℕ) : FastCache.Channel (System cfg) :=
  FastCache.requestIn (cfg.l1Config i) (l1Ports (processRequest i) i)

/-- The effect of an event. -/
def step (s : System cfg) : Event cfg → Except Fault (System cfg)
  | .core c op a => do
    let (s, _) ← l1RequestIn (op.cache c) s ⟨op.type, a⟩
    pure s
  | .dma op a => snoopIn s ⟨op.type, a⟩

/-- **The functional chip multiprocessor** as a machine. -/
def machine (cfg : Config) : Lib.Machine (System cfg) (Event cfg) Fault where
  init := .init cfg
  step := step

/-- A system with direct-mapped caches of one set. -/
def small (n : ℕ) : Config where
  cmpWidth := n
  blockShift := 6
  l1 _ := ⟨6, 0, 1, Nat.one_pos⟩
  l2 := ⟨6, 0, 1, Nat.one_pos⟩
  l1_blockShift _ := rfl
  l2_blockShift := rfl
  snoopLRU _ := false
  alwaysMulticast := false

end FastCMPCache

end Flexus
