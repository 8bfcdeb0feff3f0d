import Flexus.Common.MemoryMessage
import Flexus.Common.CoherenceState

/-!
# The protocol table of the shared functional cache

The shared cache looks the state of a block in its own array, the number of
private caches that share the block and the kind of a request up in a table
(`components/FastCMPCache/SingleCMPProtocol.cpp`). An entry says which snoop to
send to the sharers, which replies end the snooping, what to answer, and what
becomes of the block in the array.

Exclusive means exclusive on chip: with one sharer, that sharer may hold the block
exclusive or modified. One sharer of a shared block holds it shared as well.
-/

namespace Flexus

namespace FastCMPCache

open MemoryMessageType

/-- How many private caches share a block. -/
inductive SharingState
  | zeroSharers
  | oneSharer
  | manySharers
  deriving DecidableEq

/-- `PrimaryAction`: an entry of the table. The pairs of the source – replies that
end the snooping, responses, next states – are two fields each. -/
structure PrimaryAction where
  /-- The snoop that is sent to the sharers, if any. -/
  snoopType : MemoryMessageType
  /-- The first reply that ends the snooping. -/
  terminalResponse0 : MemoryMessageType
  /-- The second reply that ends the snooping. -/
  terminalResponse1 : MemoryMessageType
  /-- The response. -/
  response0 : MemoryMessageType
  /-- The response after the second terminal reply. -/
  response1 : MemoryMessageType
  /-- The next state. -/
  nextState0 : CoherenceState
  /-- The next state after the second terminal reply. -/
  nextState1 : CoherenceState
  /-- All sharers are snooped, whatever they reply. -/
  multicast : Bool
  /-- The request goes to memory when the snooping does not end it. -/
  forwardRequest : Bool
  /-- The block gets an entry in the array. -/
  allocate : Bool
  /-- The block becomes the most recently used. -/
  update : Bool
  /-- The combination must not occur. -/
  poison : Bool
  deriving DecidableEq

/-- The entry of a combination that must not occur. -/
def poisonAction : PrimaryAction :=
  ⟨noRequest, noRequest, noRequest, noRequest, noRequest, .invalid, .invalid,
    false, false, false, false, true⟩

namespace SingleCMPProtocol

/-- **The table of the protocol**, row by row. -/
def theProtocolHash :
    MemoryMessageType → CoherenceState → SharingState → Option PrimaryAction
  | .readReq, .modified, .zeroSharers =>
    some ⟨noRequest, noRequest, noRequest, missReplyDirty, noRequest, .invalid, .invalid,
      false, false, false, true, false⟩
  | .readReq, .modified, .oneSharer =>
    some ⟨noRequest, noRequest, noRequest, missReply, noRequest, .modified, .modified,
      false, false, false, true, false⟩
  | .readReq, .modified, .manySharers =>
    some ⟨noRequest, noRequest, noRequest, missReply, noRequest, .modified, .modified,
      false, false, false, true, false⟩
  | .readReq, .exclusive, .zeroSharers =>
    some ⟨noRequest, noRequest, noRequest, missReplyWritable, noRequest, .exclusive, .exclusive,
      false, false, false, true, false⟩
  | .readReq, .exclusive, .oneSharer =>
    some ⟨returnReq, returnReply, returnReplyDirty, missReply, missReply, .exclusive, .modified,
      false, false, false, true, false⟩
  | .readReq, .exclusive, .manySharers =>
    some ⟨noRequest, noRequest, noRequest, missReply, noRequest, .exclusive, .exclusive,
      false, false, false, true, false⟩
  | .readReq, .shared, .zeroSharers =>
    some ⟨noRequest, noRequest, noRequest, missReply, noRequest, .shared, .shared,
      false, false, false, true, false⟩
  | .readReq, .shared, .oneSharer =>
    some ⟨noRequest, noRequest, noRequest, missReply, noRequest, .shared, .shared,
      false, false, false, true, false⟩
  | .readReq, .shared, .manySharers =>
    some ⟨noRequest, noRequest, noRequest, missReply, noRequest, .shared, .shared,
      false, false, false, true, false⟩
  | .readReq, .invalid, .zeroSharers =>
    some ⟨noRequest, noRequest, noRequest, missReplyWritable, noRequest, .exclusive, .exclusive,
      false, true, true, true, false⟩
  | .readReq, .invalid, .oneSharer =>
    some ⟨returnReq, returnReply, returnReplyDirty, missReply, missReply, .shared, .modified,
      false, false, true, true, false⟩
  | .readReq, .invalid, .manySharers =>
    some ⟨returnReq, returnReply, returnReplyDirty, missReply, missReply, .shared, .modified,
      false, false, true, true, false⟩
  | .fetchReq, .modified, .zeroSharers =>
    some ⟨noRequest, noRequest, noRequest, missReply, noRequest, .modified, .modified,
      false, false, false, true, false⟩
  | .fetchReq, .modified, .oneSharer =>
    some ⟨returnReq, returnReply, returnReplyDirty, missReply, missReply, .modified, .modified,
      false, false, false, true, false⟩
  | .fetchReq, .modified, .manySharers =>
    some ⟨noRequest, noRequest, noRequest, missReply, noRequest, .modified, .modified,
      false, false, false, true, false⟩
  | .fetchReq, .exclusive, .zeroSharers =>
    some ⟨noRequest, noRequest, noRequest, missReply, noRequest, .exclusive, .exclusive,
      false, false, false, true, false⟩
  | .fetchReq, .exclusive, .oneSharer =>
    some ⟨returnReq, returnReply, returnReplyDirty, missReply, missReply, .exclusive, .modified,
      false, false, false, true, false⟩
  | .fetchReq, .exclusive, .manySharers =>
    some ⟨noRequest, noRequest, noRequest, missReply, noRequest, .exclusive, .exclusive,
      false, false, false, true, false⟩
  | .fetchReq, .shared, .zeroSharers =>
    some ⟨noRequest, noRequest, noRequest, missReply, noRequest, .shared, .shared,
      false, false, false, true, false⟩
  | .fetchReq, .shared, .oneSharer =>
    some ⟨noRequest, noRequest, noRequest, missReply, noRequest, .shared, .shared,
      false, false, false, true, false⟩
  | .fetchReq, .shared, .manySharers =>
    some ⟨noRequest, noRequest, noRequest, missReply, noRequest, .shared, .shared,
      false, false, false, true, false⟩
  | .fetchReq, .invalid, .zeroSharers =>
    some ⟨noRequest, noRequest, noRequest, missReply, noRequest, .shared, .shared,
      false, true, true, true, false⟩
  | .fetchReq, .invalid, .oneSharer =>
    some ⟨returnReq, returnReply, returnReplyDirty, missReply, missReply, .shared, .modified,
      false, false, true, true, false⟩
  | .fetchReq, .invalid, .manySharers =>
    some ⟨returnReq, returnReply, returnReplyDirty, missReply, noRequest, .shared, .modified,
      false, false, true, true, false⟩
  | .upgradeReq, .modified, .zeroSharers => some poisonAction
  | .upgradeReq, .modified, .oneSharer =>
    some ⟨noRequest, noRequest, noRequest, upgradeReply, noRequest, .invalid, .invalid,
      false, false, false, true, false⟩
  | .upgradeReq, .modified, .manySharers =>
    some ⟨invalidate, invalidateAck, invUpdateAck, upgradeReply, upgradeReply, .invalid, .invalid,
      true, false, false, true, false⟩
  | .upgradeReq, .exclusive, .zeroSharers => some poisonAction
  | .upgradeReq, .exclusive, .oneSharer =>
    some ⟨noRequest, noRequest, noRequest, upgradeReply, noRequest, .invalid, .invalid,
      false, false, false, true, false⟩
  | .upgradeReq, .exclusive, .manySharers =>
    some ⟨invalidate, invalidateAck, invUpdateAck, upgradeReply, upgradeReply, .invalid, .invalid,
      true, false, false, true, false⟩
  | .upgradeReq, .shared, .zeroSharers => some poisonAction
  | .upgradeReq, .shared, .oneSharer =>
    some ⟨noRequest, noRequest, noRequest, upgradeReply, noRequest, .invalid, .invalid,
      false, false, false, true, false⟩
  | .upgradeReq, .shared, .manySharers =>
    some ⟨invalidate, invalidateAck, invUpdateAck, upgradeReply, upgradeReply, .invalid, .invalid,
      true, false, false, true, false⟩
  | .upgradeReq, .invalid, .zeroSharers => some poisonAction
  | .upgradeReq, .invalid, .oneSharer =>
    some ⟨noRequest, noRequest, noRequest, upgradeReply, noRequest, .invalid, .invalid,
      false, false, false, true, false⟩
  | .upgradeReq, .invalid, .manySharers =>
    some ⟨invalidate, invalidateAck, invUpdateAck, upgradeReply, upgradeReply, .invalid, .invalid,
      true, false, false, true, false⟩
  | .writeReq, .modified, .zeroSharers =>
    some ⟨noRequest, noRequest, noRequest, missReplyDirty, noRequest, .invalid, .invalid,
      false, false, false, true, false⟩
  | .writeReq, .modified, .oneSharer =>
    some ⟨invalidate, invalidateAck, invUpdateAck, missReplyDirty, missReplyDirty, .invalid, .invalid,
      false, false, false, true, false⟩
  | .writeReq, .modified, .manySharers =>
    some ⟨invalidate, invalidateAck, invUpdateAck, missReplyDirty, missReplyDirty, .invalid, .invalid,
      true, false, false, true, false⟩
  | .writeReq, .exclusive, .zeroSharers =>
    some ⟨noRequest, noRequest, noRequest, missReplyWritable, noRequest, .invalid, .invalid,
      false, false, false, true, false⟩
  | .writeReq, .exclusive, .oneSharer =>
    some ⟨invalidate, invalidateAck, invUpdateAck, missReply, missReplyDirty, .invalid, .invalid,
      false, false, false, true, false⟩
  | .writeReq, .exclusive, .manySharers =>
    some ⟨invalidate, invalidateAck, invUpdateAck, missReply, missReplyDirty, .invalid, .invalid,
      true, false, false, true, false⟩
  | .writeReq, .shared, .zeroSharers =>
    some ⟨noRequest, noRequest, noRequest, missReplyWritable, noRequest, .invalid, .invalid,
      false, false, false, true, false⟩
  | .writeReq, .shared, .oneSharer =>
    some ⟨invalidate, invalidateAck, invUpdateAck, missReply, missReply, .invalid, .invalid,
      false, false, false, true, false⟩
  | .writeReq, .shared, .manySharers =>
    some ⟨invalidate, invalidateAck, invUpdateAck, missReply, noRequest, .invalid, .invalid,
      true, false, false, true, false⟩
  | .writeReq, .invalid, .zeroSharers =>
    some ⟨noRequest, noRequest, noRequest, missReplyWritable, noRequest, .invalid, .invalid,
      false, true, false, true, false⟩
  | .writeReq, .invalid, .oneSharer =>
    some ⟨invalidate, invalidateAck, invUpdateAck, missReply, missReply, .invalid, .invalid,
      false, false, false, true, false⟩
  | .writeReq, .invalid, .manySharers =>
    some ⟨invalidate, invalidateAck, invUpdateAck, missReply, noRequest, .invalid, .invalid,
      true, false, false, true, false⟩
  | .nonAllocatingStoreReq, .modified, .zeroSharers =>
    some ⟨noRequest, noRequest, noRequest, nonAllocatingStoreReply, noRequest, .modified, .modified,
      false, false, false, true, false⟩
  | .nonAllocatingStoreReq, .modified, .oneSharer =>
    some ⟨invalidate, invalidateAck, invUpdateAck, nonAllocatingStoreReply, nonAllocatingStoreReply, .modified, .modified,
      false, false, false, true, false⟩
  | .nonAllocatingStoreReq, .modified, .manySharers =>
    some ⟨invalidate, invalidateAck, invUpdateAck, nonAllocatingStoreReply, nonAllocatingStoreReply, .modified, .modified,
      true, false, false, true, false⟩
  | .nonAllocatingStoreReq, .exclusive, .zeroSharers =>
    some ⟨noRequest, noRequest, noRequest, nonAllocatingStoreReply, noRequest, .modified, .modified,
      false, false, false, true, false⟩
  | .nonAllocatingStoreReq, .exclusive, .oneSharer =>
    some ⟨invalidate, invalidateAck, invUpdateAck, nonAllocatingStoreReply, nonAllocatingStoreReply, .modified, .modified,
      false, false, false, true, false⟩
  | .nonAllocatingStoreReq, .exclusive, .manySharers =>
    some ⟨invalidate, invalidateAck, invUpdateAck, nonAllocatingStoreReply, nonAllocatingStoreReply, .modified, .modified,
      true, false, false, true, false⟩
  | .nonAllocatingStoreReq, .shared, .zeroSharers =>
    some ⟨noRequest, noRequest, noRequest, nonAllocatingStoreReply, noRequest, .modified, .modified,
      false, false, false, true, false⟩
  | .nonAllocatingStoreReq, .shared, .oneSharer =>
    some ⟨invalidate, invalidateAck, invUpdateAck, nonAllocatingStoreReply, nonAllocatingStoreReply, .modified, .modified,
      false, false, false, true, false⟩
  | .nonAllocatingStoreReq, .shared, .manySharers =>
    some ⟨invalidate, invalidateAck, invUpdateAck, nonAllocatingStoreReply, noRequest, .modified, .modified,
      true, false, false, true, false⟩
  | .nonAllocatingStoreReq, .invalid, .zeroSharers =>
    some ⟨noRequest, noRequest, noRequest, nonAllocatingStoreReply, noRequest, .invalid, .invalid,
      false, true, false, true, false⟩
  | .nonAllocatingStoreReq, .invalid, .oneSharer =>
    some ⟨invalidate, noRequest, noRequest, nonAllocatingStoreReply, nonAllocatingStoreReply, .invalid, .invalid,
      false, true, false, true, false⟩
  | .nonAllocatingStoreReq, .invalid, .manySharers =>
    some ⟨invalidate, noRequest, noRequest, nonAllocatingStoreReply, noRequest, .invalid, .invalid,
      true, true, false, true, false⟩
  | .evictClean, .modified, .zeroSharers => some poisonAction
  | .evictClean, .modified, .oneSharer =>
    some ⟨noRequest, noRequest, noRequest, noRequest, noRequest, .modified, .modified,
      false, false, false, false, false⟩
  | .evictClean, .modified, .manySharers =>
    some ⟨noRequest, noRequest, noRequest, noRequest, noRequest, .modified, .modified,
      false, false, false, false, false⟩
  | .evictClean, .exclusive, .zeroSharers => some poisonAction
  | .evictClean, .exclusive, .oneSharer =>
    some ⟨noRequest, noRequest, noRequest, noRequest, noRequest, .exclusive, .exclusive,
      false, false, false, false, false⟩
  | .evictClean, .exclusive, .manySharers =>
    some ⟨noRequest, noRequest, noRequest, noRequest, noRequest, .exclusive, .exclusive,
      false, false, false, false, false⟩
  | .evictClean, .shared, .zeroSharers => some poisonAction
  | .evictClean, .shared, .oneSharer =>
    some ⟨noRequest, noRequest, noRequest, noRequest, noRequest, .shared, .shared,
      false, false, false, false, false⟩
  | .evictClean, .shared, .manySharers =>
    some ⟨noRequest, noRequest, noRequest, noRequest, noRequest, .shared, .shared,
      false, false, false, false, false⟩
  | .evictClean, .invalid, .zeroSharers => some poisonAction
  | .evictClean, .invalid, .oneSharer =>
    some ⟨noRequest, noRequest, noRequest, noRequest, noRequest, .invalid, .invalid,
      false, false, false, false, false⟩
  | .evictClean, .invalid, .manySharers =>
    some ⟨noRequest, noRequest, noRequest, noRequest, noRequest, .invalid, .invalid,
      false, false, false, false, false⟩
  | .evictWritable, .modified, .zeroSharers => some poisonAction
  | .evictWritable, .modified, .oneSharer =>
    some ⟨noRequest, noRequest, noRequest, noRequest, noRequest, .modified, .modified,
      false, false, false, false, false⟩
  | .evictWritable, .modified, .manySharers => some poisonAction
  | .evictWritable, .exclusive, .zeroSharers => some poisonAction
  | .evictWritable, .exclusive, .oneSharer =>
    some ⟨noRequest, noRequest, noRequest, noRequest, noRequest, .exclusive, .exclusive,
      false, false, false, false, false⟩
  | .evictWritable, .exclusive, .manySharers => some poisonAction
  | .evictWritable, .shared, .zeroSharers => some poisonAction
  | .evictWritable, .shared, .oneSharer => some poisonAction
  | .evictWritable, .shared, .manySharers => some poisonAction
  | .evictWritable, .invalid, .zeroSharers => some poisonAction
  | .evictWritable, .invalid, .oneSharer =>
    some ⟨noRequest, noRequest, noRequest, noRequest, noRequest, .exclusive, .exclusive,
      false, false, true, false, false⟩
  | .evictWritable, .invalid, .manySharers => some poisonAction
  | .evictDirty, .modified, .zeroSharers => some poisonAction
  | .evictDirty, .modified, .oneSharer => some poisonAction
  | .evictDirty, .modified, .manySharers => some poisonAction
  | .evictDirty, .exclusive, .zeroSharers => some poisonAction
  | .evictDirty, .exclusive, .oneSharer =>
    some ⟨noRequest, noRequest, noRequest, noRequest, noRequest, .modified, .modified,
      false, false, true, false, false⟩
  | .evictDirty, .exclusive, .manySharers => some poisonAction
  | .evictDirty, .shared, .zeroSharers => some poisonAction
  | .evictDirty, .shared, .oneSharer => some poisonAction
  | .evictDirty, .shared, .manySharers => some poisonAction
  | .evictDirty, .invalid, .zeroSharers => some poisonAction
  | .evictDirty, .invalid, .oneSharer =>
    some ⟨noRequest, noRequest, noRequest, noRequest, noRequest, .modified, .modified,
      false, false, true, false, false⟩
  | .evictDirty, .invalid, .manySharers => some poisonAction
  | _, _, _ => none

/-- `getAction`: an absent entry and a poisoned one are the same assertion. -/
def getAction (cState : CoherenceState) (dState : SharingState) (type : MemoryMessageType) :
    Except Fault PrimaryAction :=
  match theProtocolHash type cState dState with
  | none => .error .poisonAction
  | some a => if a.poison then .error .poisonAction else .ok a

/-- `evict`: only a modified block is written back. -/
def evict (state : CoherenceState) : MemoryMessageType :=
  if state = .modified then evictDirty else evictClean

end SingleCMPProtocol

end FastCMPCache

end Flexus
