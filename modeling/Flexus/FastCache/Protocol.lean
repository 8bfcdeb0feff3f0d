import Flexus.Common.MemoryMessage
import Flexus.FastCache.StdCache

/-!
# The protocol tables of the private functional caches

A private cache decides what to do by looking the state of a block and the kind
of an access up in a table (`components/FastCache/CoherenceProtocol.hpp`). An
entry of the table names five choices – what to send, whether to allocate, the
next state, the order of use and the response –, and the code behind an entry
exists for a fixed list of combinations only: every other combination is an
assertion, and so is the entry whose choices are all poison. Snoops have a table
of their own.

This file has the vocabulary of the two tables and the tables of the inclusive
MESI protocol (`components/FastCache/InclusiveMESI.hpp`).
-/

namespace Flexus

namespace FastCache

open MemoryMessageType

/-! ### Accesses -/

/-- The kinds of access (`access_t`). -/
inductive Access
  | readAccess
  | writeAccess
  | fetchAccess
  | upgrade
  | evictClean
  | evictWritable
  | evictDirty
  | storeAccess
  | nawAccess
  deriving DecidableEq

/-- `message2access`: a message that is no request of a processor or of a cache
above is an assertion. -/
def message2access : MemoryMessageType → Except Fault Access
  | readReq => .ok .readAccess
  | writeReq => .ok .writeAccess
  | fetchReq => .ok .fetchAccess
  | upgradeReq => .ok .upgrade
  | evictClean => .ok .evictClean
  | evictWritable => .ok .evictWritable
  | evictDirty => .ok .evictDirty
  | loadReq => .ok .readAccess
  | rmwReq | cmpxReq | storeReq => .ok .storeAccess
  | nonAllocatingStoreReq => .ok .nawAccess
  | _ => .error .unexpectedAccess

/-! ### Entries of the tables -/

/-- What an action sends down. -/
inductive Send
  | sendNone
  | sendUpgrade
  | sendWrite
  | sendRead
  | sendFetch
  | sendNAW
  deriving DecidableEq

/-- The next state of an action. -/
inductive NState
  | sameState
  | mState
  | oState
  | eState
  | sState
  | iState
  | dependState
  deriving DecidableEq

/-- The response of an action. -/
inductive Response
  | fillWritable
  | fillValid
  | fillDepend
  | fillDirty
  | noResponse
  deriving DecidableEq

/-- An entry of the request table: the arguments of the template
`doCoherenceAction`, with the two flags for `Allocate` and `UpdateLRU`, or poison
throughout. -/
inductive RequestAction
  | poison
  | action (send : Send) (allocate : Bool) (nstate : NState) (updateLRU : Bool)
      (response : Response)
  deriving DecidableEq

/-- The reply to a snoop: a fixed message type, or whatever the caches above
answered. -/
inductive SnoopReply
  | reply (type : MemoryMessageType)
  | snoopDepend
  deriving DecidableEq

/-- An entry of the snoop table: the arguments of the template `SnoopAction`. -/
structure SnoopAction where
  /-- The reply. -/
  resp : SnoopReply
  /-- Whether the snoop goes on to the caches above. -/
  doSnoop : Bool
  /-- The next state. -/
  nstate : NState
  /-- The block becomes the most recently used. -/
  makeMRU : Bool
  /-- The block becomes the least recently used. -/
  makeLRU : Bool
  deriving DecidableEq

/-! ### Inclusive MESI -/

namespace InclusiveMESI

open CoherenceState Access Send NState Response RequestAction

/-- **The request table of inclusive MESI.** The states the protocol does not use
have no entries. -/
def requestAction (usingTraces : Bool) : CoherenceState → Access → Option RequestAction
  | modified, readAccess => some (action sendNone false dependState true fillDirty)
  | modified, writeAccess => some (action sendNone false eState true fillDirty)
  | modified, storeAccess => some (action sendNone false sameState true fillDirty)
  | modified, nawAccess => some (action sendNone false sameState true fillDirty)
  | modified, fetchAccess => some (action sendNone false sameState true fillValid)
  | modified, upgrade => some (action sendNone false eState true fillDirty)
  | modified, .evictClean => some (action sendNone false sameState true noResponse)
  | modified, .evictWritable => some poison
  | modified, .evictDirty => some poison
  | exclusive, readAccess => some (action sendNone false sameState true fillValid)
  | exclusive, writeAccess => some (action sendNone false sameState true fillWritable)
  | exclusive, storeAccess => some (action sendNone false mState true fillWritable)
  | exclusive, nawAccess => some (action sendNone false mState true fillWritable)
  | exclusive, fetchAccess => some (action sendNone false sameState true fillValid)
  | exclusive, upgrade => some (action sendNone false sameState true fillWritable)
  | exclusive, .evictClean => some (action sendNone false sameState true noResponse)
  | exclusive, .evictWritable => some (action sendNone false sameState true noResponse)
  | exclusive, .evictDirty => some (action sendNone false mState true noResponse)
  | shared, readAccess => some (action sendNone false sameState true fillValid)
  | shared, writeAccess => some (action sendUpgrade false eState true fillWritable)
  | shared, storeAccess => some (action sendUpgrade false mState true fillWritable)
  | shared, nawAccess => some (action sendUpgrade false mState true fillWritable)
  | shared, fetchAccess => some (action sendNone false sameState true fillValid)
  | shared, upgrade => some (action sendUpgrade false eState true fillWritable)
  | shared, .evictClean => some (action sendNone false sameState true noResponse)
  | shared, .evictWritable =>
    some (if usingTraces then action sendNone false sameState true noResponse else poison)
  | shared, .evictDirty =>
    some (if usingTraces then action sendUpgrade false mState true noResponse else poison)
  | invalid, readAccess => some (action sendRead true dependState true fillDepend)
  | invalid, writeAccess => some (action sendWrite true eState true fillDepend)
  | invalid, storeAccess => some (action sendWrite true mState true fillDepend)
  | invalid, nawAccess => some (action sendNAW false sameState false fillDepend)
  | invalid, fetchAccess => some (action sendFetch true dependState true fillValid)
  | invalid, upgrade =>
    some (if usingTraces then action sendWrite true mState true fillDepend else poison)
  | invalid, .evictClean | invalid, .evictWritable | invalid, .evictDirty =>
    some (if usingTraces then action sendNone false sameState false noResponse else poison)
  | _, _ => none

/-- **The snoop table of inclusive MESI.** Whatever `DowngradeLRU` is set to, a
downgraded block becomes the least recently used: the two branches of the source
are the same. -/
def snoopAction (snoopLRU : Bool) :
    CoherenceState → MemoryMessageType → Option SnoopAction
  | modified, returnReq => some ⟨.reply returnReplyDirty, false, sState, false, snoopLRU⟩
  | exclusive, returnReq => some ⟨.reply returnReply, true, sState, false, snoopLRU⟩
  | shared, returnReq => some ⟨.reply returnReply, false, sameState, false, false⟩
  | invalid, returnReq => some ⟨.reply returnNAck, false, sameState, false, false⟩
  | modified, invalidate => some ⟨.reply invUpdateAck, true, iState, false, true⟩
  | exclusive, invalidate => some ⟨.snoopDepend, true, iState, false, true⟩
  | shared, invalidate => some ⟨.reply invalidateAck, true, iState, false, true⟩
  | invalid, invalidate => some ⟨.reply invalidate, false, sameState, false, false⟩
  | modified, downgrade => some ⟨.reply downUpdateAck, true, sState, false, true⟩
  | exclusive, downgrade => some ⟨.snoopDepend, true, sState, false, true⟩
  | shared, downgrade => some ⟨.reply downgradeAck, false, sameState, false, false⟩
  | invalid, downgrade => some ⟨.reply downgradeAck, false, sameState, false, false⟩
  | _, _ => none

end InclusiveMESI

end FastCache

end Flexus
