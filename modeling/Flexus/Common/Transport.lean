import Flexus.Common.MemoryMessage
import Mathlib.Data.Int.Notation

/-!
# Transports

A message between two components of the timing simulator travels in a transport:
the memory message itself (`components/Common/Slices/MemoryMessage.hpp`) and where
it is to go (`components/Common/Slices/DestinationMessage.hpp`). Several transports
may share one message in the source, by pointer; the components that change a shared
message say so where they do.
-/

namespace Flexus

/-- `DestinationMessage::DestinationType`. -/
inductive DestinationType
  | requester
  | directory
  | remoteDirectory
  | source
  | memory
  | multicast
  | other
  deriving DecidableEq

/-- `DestinationMessage`: where a message goes, and who takes part in the
transaction it belongs to. -/
structure DestinationMessage where
  /-- Which of the parties the message goes to. -/
  type : DestinationType
  /-- The cache whose request started the transaction. -/
  requester : ℕ
  /-- The bank that handles the block. -/
  directory : ℕ := 0
  /-- The cache a request is forwarded to, `-1` for none. -/
  source : ℤ := -1
  /-- The destination taken off a multicast list. -/
  other : ℕ := 0
  /-- The destinations of a multicast. -/
  multicastList : List ℕ := []
  deriving DecidableEq

/-- `MemoryTransport`: a memory message with what the banks and caches read of it,
and its destination. A new message asks for an acknowledgement, without data. -/
structure Transport extends MemoryMessage where
  /-- The size of the data, in bytes. -/
  reqSize : ℕ := 0
  ackRequired : Bool := true
  ackRequiresData : Bool := false
  evictHasData : Bool := false
  /-- The number of replies a write has to wait for, `-1` where there are none. -/
  outstandingMsgs : ℤ := 0
  dest : DestinationMessage
  deriving DecidableEq

end Flexus
