import Mathlib.Logic.Basic

/-!
# Coherence states and faults of the functional caches

The states in which the functional caches hold a block
(`components/FastCache/CoherenceStates.hpp` and its copy under `FastCMPCache`),
and the ways in which a functional cache stops instead of answering. The source
encodes the states as bit patterns, of which only the valid bit is ever tested.
-/

namespace Flexus

/-- The coherence states of the functional caches. -/
inductive CoherenceState
  | migratory
  | modified
  | owned
  | exclusive
  | shared
  | invalid
  deriving DecidableEq

namespace CoherenceState

/-- The bit pattern of a state, as the source defines it. -/
def bits : CoherenceState → BitVec 16
  | migratory => 0x0F
  | modified => 0x07
  | owned => 0x05
  | exclusive => 0x03
  | shared => 0x01
  | invalid => 0x00

/-- `isValid`: the valid bit of the pattern is set. -/
def isValid (s : CoherenceState) : Bool := s.bits &&& 0x1 ≠ 0

@[simp]
theorem isValid_iff {s : CoherenceState} : s.isValid = true ↔ s ≠ invalid := by
  cases s <;> decide

end CoherenceState

/-- **The assertions of the functional caches**, one constructor for each place
at which the source stops. The two protocol tables are partial maps: an entry is
either absent or deliberately poisoned, and both are assertions. -/
inductive Fault
  /-- `message2access`: the message is not an access. -/
  | unexpectedAccess
  /-- `getCoherenceAction`: no entry for this state and access. -/
  | unmappedRequest
  /-- `doCoherenceAction`: the entry is poisoned. -/
  | poisonRequest
  /-- `getSnoopAction`: no entry for this state and snoop. -/
  | unmappedSnoop
  /-- `doCoherenceAction`: a read was answered by something else than a fill. -/
  | unexpectedReply
  /-- `SingleCMPProtocol::getAction`: the entry is absent or poisoned. -/
  | poisonAction
  /-- `combineSnoopResponse`: two replies that do not go together. -/
  | unknownCombination
  /-- `processSnoopResponse`: not a reply to a snoop. -/
  | unknownSnoopResponse
  /-- `processRequestResponse`: an upgrade was not answered by an upgrade reply. -/
  | upgradeResponse
  /-- `processRequestResponse`: no rule for this request and response. -/
  | unknownRequestResponse
  /-- `makeExclusive`: the index is not a sharer. -/
  | notSharer
  /-- `makeExclusive`: there are other sharers. -/
  | notOnlySharer
  /-- `SharingVector`: the index does not fit in the vector. -/
  | sharerIndex
  /-- `processRequest`: a state change of a block that is not in the cache. -/
  | changeFromInvalid
  /-- `processRequest`: the classification of hits and misses has no such case. -/
  | illegalMessage
  /-- `SnoopIn` of the shared cache: neither a downgrade nor an invalidate. -/
  | unexpectedSnoop
  /-- `FastMemoryLoopback`: the memory does not know the message. -/
  | unknownMemoryRequest
  /-- The set no longer holds the block an iterator refers to. -/
  | danglingBlock
  deriving DecidableEq

end Flexus
