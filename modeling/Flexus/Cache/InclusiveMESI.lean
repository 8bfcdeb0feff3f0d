import Flexus.Cache.Buffers

/-!
# The protocol of a private cache

`InclusiveMESI` (`components/Cache/InclusiveMESI.cpp`) with what it inherits from
`BaseCacheControllerImpl`: the decisions of a private cache about the stores of the core, and about
the snoops and replies of the level below. A decision changes the array and the buffers at once and
returns an *action* for the controller, which sends the messages of the action when the process
comes to the end of its pipelines.

The protocol is written against the abstract class of an array; what it uses of that class is
a record of operations. The trackers of transactions and the bit of a block that remembers a
prefetch are left out, and the level below is given a copy of a message where the source
hands over a pointer.
-/

namespace Flexus

namespace Cache

open MemoryMessageType

/-! ### What the protocol is built over -/

/-- `AbstractArray` and `AbstractLookupResult`, over arbitrary types of contents and of lookup
results. An operation without a result is one that asserts, or that writes to a lookup result
without a block. -/
structure AbstractArray (γ ρ : Type) where
  /-- The array of a cache that starts empty. -/
  init : γ
  /-- `operator[]`. -/
  lookup : γ → ℕ → ρ
  state : γ → ρ → BasicState
  setState : γ → ρ → BasicState → Option γ
  setProtected : γ → ρ → Bool → Option γ
  recordAccess : γ → ρ → Option γ
  invalidateBlock : γ → ρ → Option γ
  canAllocate : γ → ρ → ℕ → Bool
  /-- `allocate`: the contents, the lookup result as it is updated, and the state and the
  address of the victim. -/
  allocate : γ → ρ → ℕ → Option (γ × ρ × BasicState × ℕ)
  getSet : ℕ → ℕ
  requestsPerSet : ℕ
  evictionResourcePressure : γ → Bool := fun _ => false
  evictionResourcesAvailable : γ → Bool := fun _ => true
  reserveEvictionResource : γ → Option γ := some
  unreserveEvictionResource : γ → Option γ := some
  getPreemptiveEviction : γ → γ × BasicState × ℕ := fun c => (c, .invalid, 0)

/-- The cache levels for which a private cache can be built, of `tFillLevel`. -/
inductive CacheLevel
  | L1
  | L1I
  | L2
  deriving DecidableEq

/-- What a cache reads of its configuration. -/
structure Config (γ ρ : Type) where
  theCacheLevel : CacheLevel
  theCores : ℕ
  theBanks : ℕ
  thePorts : ℕ
  theBlockSize : ℕ
  theQueueSize : ℕ
  theMafSize : ℕ
  theEBSize : ℕ
  theSBSize : ℕ
  theEvictOnSnoop : Bool
  theUseReplyChannel : Bool
  theNAckAlways : Bool := false
  theSnoopLRU : Bool := false
  anEvictAcksRequired : Bool := true
  the2LevelPrivate : Bool := false
  theWritableEvictsHaveData : Bool := false
  array : AbstractArray γ ρ

variable {γ ρ : Type}

namespace Config

/-- Whether the instruction cache above is snooped: there is one above every level but the
first. -/
def snoopsI (cfg : Config γ ρ) : Bool := cfg.theCacheLevel ≠ .L1

end Config

/-- `enumAction`, without the actions this protocol does not return. -/
inductive ActionType
  | noAction
  | send
  | insertMAF_WaitAddress
  | insertMAF_WaitSnoop
  | insertMAF_WaitEvict
  | insertMAF_WaitResponse
  | insertMAF_WaitProbe
  | replyAndRemoveMAF
  | replyAndRemoveResponseMAF
  deriving DecidableEq

/-- `Action`. -/
structure Action where
  theAction : ActionType
  theFrontMessage : Option Message := none
  theBackMessage : Option Message := none
  theFrontToDCache : Bool := true
  theFrontToICache : Bool := false
  theRequiresData : Bool := false
  theWakeSnoops : Bool := false
  theWakeEvicts : Bool := false
  deriving DecidableEq

/-- `InclusiveMESI`, with the part of the controller it works on. -/
structure InclusiveMESI (γ : Type) where
  theArray : γ
  theEvictBuffer : EvictBuffer
  theSnoopBuffer : SnoopBuffer
  theRequestTracker : RequestTracker
  thePendingEvicts : ℤ
  theMaf : MissAddressFile

/-- An operation of the array as a step of the controller. -/
def ofArray {α : Type} : Option α → Except ControllerFault α
  | some a => .ok a
  | none => .error .array

namespace InclusiveMESI

variable (cfg : Config γ ρ)

/-- A cache that starts empty. -/
def init : InclusiveMESI γ := ⟨cfg.array.init, .init, .init, .init, 0, .init⟩

/-- The state of a block in the array. -/
def arrayState (s : InclusiveMESI γ) (a : ℕ) : BasicState :=
  cfg.array.state s.theArray (cfg.array.lookup s.theArray a)

/-- The state in which a block is found, and its entry where that is the one of the evict
buffer. -/
def found (s : InclusiveMESI γ) (a : ℕ) : BasicState × Option EvictEntry :=
  if s.arrayState cfg a = .invalid then
    match s.theEvictBuffer.find a with
    | some e => (e.theState, some e)
    | none => (.invalid, none)
  else (s.arrayState cfg a, none)

/-! ### The array and the evict buffer -/

def setState (s : InclusiveMESI γ) (r : ρ) (v : BasicState) :
    Except ControllerFault (InclusiveMESI γ) := do
  return { s with theArray := ← ofArray (cfg.array.setState s.theArray r v) }

def setProtected (s : InclusiveMESI γ) (r : ρ) (v : Bool) :
    Except ControllerFault (InclusiveMESI γ) := do
  return { s with theArray := ← ofArray (cfg.array.setProtected s.theArray r v) }

def recordAccess (s : InclusiveMESI γ) (r : ρ) : Except ControllerFault (InclusiveMESI γ) := do
  return { s with theArray := ← ofArray (cfg.array.recordAccess s.theArray r) }

/-- `invalidateBlock` of the array: the block becomes the first to be replaced. -/
def makeLRU (s : InclusiveMESI γ) (r : ρ) : Except ControllerFault (InclusiveMESI γ) := do
  return { s with theArray := ← ofArray (cfg.array.invalidateBlock s.theArray r) }

/-- The message with which a block leaves. -/
def evictType : BasicState → MemoryMessageType
  | .modified => evictDirty
  | .exclusive => evictWritable
  | _ => evictClean

/-- `evictBlock`. An instruction cache evicts without asking the core. -/
def evictBlock (s : InclusiveMESI γ) (state : BasicState) (a : ℕ) : InclusiveMESI γ :=
  if state = .invalid then s
  else
    { s with
      theEvictBuffer :=
        s.theEvictBuffer.allocEntry a (evictType state) state (cfg.theCacheLevel = .L1I) }

/-- `allocateBlock`. -/
def allocateBlock (s : InclusiveMESI γ) (r : ρ) (a : ℕ) :
    Except ControllerFault (InclusiveMESI γ × ρ) :=
  if cfg.array.canAllocate s.theArray r a then do
    let (c, r, state, v) ← ofArray (cfg.array.allocate s.theArray r a)
    return (evictBlock cfg { s with theArray := c } state v, r)
  else .error .cannotAllocate

/-! ### Requests -/

/-- The reply to a store. -/
def storeReplyType : MemoryMessageType → MemoryMessageType
  | rmwReq => rmwReply
  | cmpxReq => cmpxReply
  | storeReq => storeReply
  | _ => storePrefetchReply

end InclusiveMESI

end Cache

end Flexus
