import Mathlib.Data.Nat.Notation

/-!
# Memory messages

The messages the components of the memory system exchange
(`components/Common/Slices/MemoryMessage.hpp`). A message carries a type and the
address it is about; a component that answers a message does so by overwriting
its type, so that the functions below return the new type of the message they
were given.
-/

namespace Flexus

/-- The types of memory messages, in the order of the source. The last one is
the number of types, which the fast caches use for “no message”. -/
inductive MemoryMessageType
  | loadReq
  | storeReq
  | storePrefetchReq
  | fetchReq
  | nonAllocatingStoreReq
  | rmwReq
  | cmpxReq
  | atomicPreloadReq
  | flushReq
  | readReq
  | writeReq
  | writeAllocate
  | upgradeReq
  | upgradeAllocate
  | flush
  | evictDirty
  | evictWritable
  | evictClean
  | svbClean
  | loadReply
  | storeReply
  | storePrefetchReply
  | fetchReply
  | rmwReply
  | cmpxReply
  | atomicPreloadReply
  | missReply
  | missReplyWritable
  | missReplyDirty
  | upgradeReply
  | nonAllocatingStoreReply
  | invalidate
  | downgrade
  | probe
  | downProbe
  | returnReq
  | invalidateAck
  | invUpdateAck
  | downgradeAck
  | downUpdateAck
  | probedNotPresent
  | probedClean
  | probedWritable
  | probedDirty
  | downProbePresent
  | downProbeNotPresent
  | returnReply
  | streamFetch
  | prefetchReadNoAllocReq
  | prefetchReadAllocReq
  | prefetchInsert
  | prefetchInsertWritable
  | prefetchReadReply
  | prefetchWritableReply
  | prefetchDirtyReply
  | prefetchReadRedundant
  | streamFetchWritableReply
  | streamFetchRejected
  | returnNAck
  | returnReplyDirty
  | fetchFwd
  | readFwd
  | writeFwd
  | fwdNAck
  | fwdReply
  | fwdReplyOwned
  | fwdReplyWritable
  | fwdReplyDirty
  | readAck
  | readAckDirty
  | fetchAck
  | fetchAckDirty
  | writeAck
  | upgradeAck
  | nasAck
  | readNAck
  | fetchNAck
  | writeNAck
  | upgradeNAck
  | nasNAck
  | missNotify
  | missNotifyData
  | backInvalidate
  | invalidateNAck
  | protocolMessage
  | evictAck
  | writeRetry
  | numMemoryMessageTypes
  deriving DecidableEq

namespace MemoryMessageType

/-- `NoRequest`, `NO_RESP`, `NO_REQ` and `NO_FWD` of the fast shared cache: all
of them are the number of message types. -/
abbrev noRequest : MemoryMessageType := numMemoryMessageTypes

/-- `MemoryMessage::isEvictType`. -/
def isEvictType : MemoryMessageType → Bool
  | evictDirty | evictWritable | evictClean => true
  | _ => false

/-- `MemoryMessage::isWrite`. -/
def isWrite : MemoryMessageType → Bool
  | storeReq | storePrefetchReq | nonAllocatingStoreReq | rmwReq | cmpxReq | writeReq
  | writeAllocate | upgradeReq | upgradeAllocate => true
  | _ => false

end MemoryMessageType

/-- A memory message: its type and the address it is about. -/
structure MemoryMessage where
  /-- The type, which an answer overwrites. -/
  type : MemoryMessageType
  /-- The address. -/
  address : ℕ
  deriving DecidableEq

end Flexus
