import Flexus.CMPCache.MissAddressFile
import Flexus.Lib.Keyed
import Mathlib.Data.Finset.Card

/-!
# Sharers, cache states and the evict buffers of a bank

The sharing vector of a block (`SimpleDirectoryState.hpp`), the states of a cached
block (`CacheState.hpp`), and the two buffers in which a block waits after it has
left its place: the evict buffer of the directory (`EvictBuffer.hpp`), where a block
waits for the invalidations of its sharers, and the evict buffer of the cache
(`CacheBuffers.hpp`), where it waits for its write-back.

Two notions of the buffers matter to the rest of the bank: that a block of the
directory's buffer has *invalidates pending*, and that a block of the cache's buffer
is *pending*, that is, that its write-back has been sent. They are the reasons for
which a request waits for an eviction.
-/

namespace Flexus

open Lib

namespace CMPCache

/-! ### Sharers -/

/-- `SimpleDirectoryState`: a bit for each cache. -/
structure SimpleDirectoryState where
  theNumSharers : ℕ
  theSharers : Finset ℕ
  deriving DecidableEq

namespace SimpleDirectoryState

variable (d : SimpleDirectoryState)

/-- No sharers. -/
def reset (n : ℕ) : SimpleDirectoryState := ⟨n, ∅⟩

def isSharer (i : ℕ) : Bool := decide (i ∈ d.theSharers)

def noSharers : Bool := decide (d.theSharers = ∅)

def countSharers : ℕ := d.theSharers.card

def oneSharer : Bool := decide (d.theSharers.card = 1)

/-- `getSharerList`, in the order of the bits. -/
def getSharerList : List ℕ := (List.range d.theNumSharers).filter fun i => d.isSharer i

/-- `getOtherSharers`. -/
def getOtherSharers (exclude : ℤ) : List ℕ := d.getSharerList.filter fun i => (i : ℤ) ≠ exclude

/-- `getFirstSharer`, `-1` when there is none. -/
def getFirstSharer : ℤ :=
  match d.getSharerList with
  | [] => -1
  | i :: _ => i

def addSharer (i : ℕ) : Except Fault SimpleDirectoryState :=
  if i < d.theNumSharers then .ok { d with theSharers := insert i d.theSharers }
  else .error .sharerIndex

def removeSharer (i : ℕ) : Except Fault SimpleDirectoryState :=
  if i < d.theNumSharers then .ok { d with theSharers := d.theSharers.erase i }
  else .error .sharerIndex

def setSharer (i : ℕ) : Except Fault SimpleDirectoryState :=
  if i < d.theNumSharers then .ok { d with theSharers := {i} } else .error .sharerIndex

end SimpleDirectoryState

/-- `CacheState`. The prefetch, protect and lock bits are never set by a bank. -/
inductive CacheState
  | modified
  | owned
  | exclusive
  | shared
  | invalid
  | invalidPresent
  | forward
  deriving DecidableEq

/-! ### The evict buffer of the directory -/

/-- An entry of the directory's evict buffer. -/
structure DirEBEntry where
  address : ℕ
  state : SimpleDirectoryState
  /-- The invalidates that have been sent and not been answered. -/
  theInvalidatesSent : ℤ
  cacheEBReserved : ℕ
  deriving DecidableEq

/-- `DirEvictBuffer`: the entries in the order in which they came, with an index that is
unique by address. -/
structure DirEvictBuffer where
  entries : List DirEBEntry
  theReserve : ℤ
  theCurSize : ℤ
  thePendingInvalidates : ℤ
  unique : (entries.map DirEBEntry.address).Nodup

namespace DirEvictBuffer

/-- An empty buffer. -/
def init : DirEvictBuffer := ⟨[], 0, 0, 0, List.nodup_nil⟩

variable (b : DirEvictBuffer)

def find (a : ℕ) : Option DirEBEntry := Keyed.lookup DirEBEntry.address b.entries a

/-- A change of the mutable fields of an entry. -/
def update (a : ℕ) (f : DirEBEntry → DirEBEntry)
    (hf : ∀ e, (f e).address = e.address := by intro _; rfl) : DirEvictBuffer :=
  { b with
    entries := Keyed.update DirEBEntry.address b.entries a f
    unique := by rw [Keyed.keys_update hf]; exact b.unique }

def remove (a : ℕ) : Except Fault DirEvictBuffer :=
  match b.find a with
  | none => .error .dirEvictBuffer
  | some e => .ok
    { b with
      entries := Keyed.erase DirEBEntry.address b.entries a
      theCurSize := b.theCurSize - 1
      thePendingInvalidates :=
        if e.theInvalidatesSent ≠ 0 then b.thePendingInvalidates - 1
        else b.thePendingInvalidates
      unique := Keyed.nodup_erase b.unique }

/-- `insert`. The buffer is unique by address, so that the second of two entries of
one address is not kept, although it is counted. -/
def insert (a : ℕ) (state : SimpleDirectoryState) : DirEvictBuffer :=
  { b with
    entries := Keyed.pushBack DirEBEntry.address b.entries ⟨a, state, 0, 0⟩
    theCurSize := b.theCurSize + 1
    unique := Keyed.nodup_pushBack b.unique }

/-- `completeInvalidate`. -/
def completeInvalidate (a : ℕ) : DirEvictBuffer :=
  match b.find a with
  | none => b
  | some e =>
    { b.update a fun e => { e with theInvalidatesSent := e.theInvalidatesSent - 1 } with
      thePendingInvalidates :=
        if e.theInvalidatesSent - 1 = 0 then b.thePendingInvalidates - 1
        else b.thePendingInvalidates }

/-- `setInvalidatesPending`. -/
def setInvalidatesPending (a : ℕ) (count : ℤ) : DirEvictBuffer :=
  { b.update a fun e => { e with theInvalidatesSent := count } with
    thePendingInvalidates := b.thePendingInvalidates + 1 }

def full (theSize : ℕ) : Bool := decide (b.theCurSize + b.theReserve ≥ theSize)

def freeSlotsPending (theSize : ℕ) : Bool :=
  decide (b.thePendingInvalidates > 0 ∨ b.theCurSize + b.theReserve < theSize)

/-- `idleWorkReady`: the last entry requires invalidates. -/
def idleWorkReady : Bool :=
  match b.entries.getLast? with
  | none => false
  | some e => decide (e.theInvalidatesSent = 0)

def reserve (theSize : ℕ) (n : ℤ) : Except Fault DirEvictBuffer :=
  if b.theReserve + b.theCurSize + n ≤ theSize then .ok { b with theReserve := b.theReserve + n }
  else .error .evictBufferReserve

def unreserve (n : ℤ) : Except Fault DirEvictBuffer :=
  if b.theReserve ≥ n then .ok { b with theReserve := b.theReserve - n }
  else .error .evictBufferReserve

def oldestRequiringInvalidates : Option DirEBEntry :=
  b.entries.find? fun e => decide (e.theInvalidatesSent = 0)

/-- The number of invalidates of a block that are not answered yet. -/
def sent (a : ℕ) : Option ℤ := (b.find a).map DirEBEntry.theInvalidatesSent

/-- The block has invalidates that are not answered yet. -/
def invalidatesPending (a : ℕ) : Prop := ∃ e, b.find a = some e ∧ e.theInvalidatesSent ≠ 0

variable {b} {b' : DirEvictBuffer} {a c : ℕ} {f : DirEBEntry → DirEBEntry} {e : DirEBEntry}

theorem find_update {h : ∀ e, (f e).address = e.address} :
    (b.update a f h).find c = if c = a then (b.find c).map f else b.find c :=
  Keyed.lookup_update h

theorem remove_spec (h : b.remove a = .ok b') :
    (∃ e, b.find a = some e) ∧ ∀ c, b'.find c = if c = a then none else b.find c := by
  rw [remove] at h
  split at h
  · cases h
  · rename_i e he
    cases h
    exact ⟨⟨e, he⟩, fun c => Keyed.lookup_erase⟩

theorem find_insert {state : SimpleDirectoryState} : (b.insert a state).find c =
    if c = a ∧ b.find c = none then some ⟨a, state, 0, 0⟩ else b.find c :=
  Keyed.lookup_pushBack

theorem find_completeInvalidate : (b.completeInvalidate a).find c =
    if c = a then (b.find c).map fun e => { e with theInvalidatesSent := e.theInvalidatesSent - 1 }
    else b.find c := by
  rw [completeInvalidate]
  split
  · rename_i h
    split
    · rename_i hc
      rw [hc, h]
      rfl
    · rfl
  · exact find_update (h := by intro _; rfl)

theorem find_setInvalidatesPending {n : ℤ} : (b.setInvalidatesPending a n).find c =
    if c = a then (b.find c).map fun e => { e with theInvalidatesSent := n } else b.find c :=
  find_update (h := by intro _; rfl)

theorem reserve_spec {theSize : ℕ} {n : ℤ} (h : b.reserve theSize n = .ok b') :
    b' = { b with theReserve := b'.theReserve } := by
  rw [reserve] at h
  split at h
  · cases h
    rfl
  · cases h

theorem unreserve_spec {n : ℤ} (h : b.unreserve n = .ok b') :
    b' = { b with theReserve := b'.theReserve } := by
  rw [unreserve] at h
  split at h
  · cases h
    rfl
  · cases h

/-- Whether invalidates are pending depends on the entries alone. -/
theorem invalidatesPending_congr (h : b'.find a = b.find a) :
    b'.invalidatesPending a ↔ b.invalidatesPending a := by
  rw [invalidatesPending, h, invalidatesPending]

theorem invalidatesPending_iff : b.invalidatesPending a ↔ ∃ n, b.sent a = some n ∧ n ≠ 0 := by
  rw [invalidatesPending, sent]
  cases b.find a with
  | none => simp
  | some e => simp

theorem invalidatesPending_congr_sent (h : b'.sent a = b.sent a) :
    b'.invalidatesPending a ↔ b.invalidatesPending a := by
  rw [invalidatesPending_iff, h, invalidatesPending_iff]

theorem sent_update {h : ∀ e, (f e).address = e.address}
    (hs : ∀ e, (f e).theInvalidatesSent = e.theInvalidatesSent) :
    (b.update a f h).sent c = b.sent c := by
  rw [sent, find_update, sent]
  split
  · cases b.find c with
    | none => rfl
    | some e => simp [hs]
  · rfl

theorem sent_completeInvalidate : (b.completeInvalidate a).sent c =
    if c = a then (b.sent c).map (· - 1) else b.sent c := by
  rw [sent, find_completeInvalidate, sent]
  split
  · cases b.find c with
    | none => rfl
    | some e => rfl
  · rfl

/-- **A new entry has no invalidates pending**, and does not disturb an old one. -/
theorem invalidatesPending_insert {state : SimpleDirectoryState} :
    (b.insert a state).invalidatesPending c ↔ b.invalidatesPending c := by
  simp only [invalidatesPending, find_insert]
  by_cases hc : c = a ∧ b.find c = none
  · rw [if_pos hc, hc.2]
    simp
  · rw [if_neg hc]

end DirEvictBuffer

/-! ### The evict buffer of the cache -/

/-- `EvictEntry`. -/
structure EvictEntry where
  address : ℕ
  type : MemoryMessageType
  state : CacheState
  evictable : Bool
  /-- The write-back has been sent. -/
  pending : Bool
  deriving DecidableEq

/-- `CacheEvictBuffer`: the entries in the order in which they came, with an index that
is unique by address. -/
structure CacheEvictBuffer where
  theEvictions : List EvictEntry
  theReserve : ℤ
  thePendingEvicts : UInt32
  theCurSize : Int32
  unique : (theEvictions.map EvictEntry.address).Nodup

namespace CacheEvictBuffer

/-- An empty buffer. -/
def init : CacheEvictBuffer := ⟨[], 0, 0, 0, List.nodup_nil⟩

variable (b : CacheEvictBuffer)

def find (a : ℕ) : Option EvictEntry := Keyed.lookup EvictEntry.address b.theEvictions a

/-- A change of the mutable fields of an entry. -/
def update (a : ℕ) (f : EvictEntry → EvictEntry)
    (hf : ∀ e, (f e).address = e.address := by intro _; rfl) : CacheEvictBuffer :=
  { b with
    theEvictions := Keyed.update EvictEntry.address b.theEvictions a f
    unique := by rw [Keyed.keys_update hf]; exact b.unique }

/-- `remove` of the entry of an address, if there is one. -/
def remove (a : ℕ) : CacheEvictBuffer :=
  match b.find a with
  | none => b
  | some e =>
    { b with
      theEvictions := Keyed.erase EvictEntry.address b.theEvictions a
      thePendingEvicts := if e.pending then b.thePendingEvicts - 1 else b.thePendingEvicts
      theCurSize := b.theCurSize - 1
      unique := Keyed.nodup_erase b.unique }

/-- `allocEntry`: an entry that is there already gets the new type and state. -/
def allocEntry (a : ℕ) (type : MemoryMessageType) (state : CacheState) : CacheEvictBuffer :=
  match h : b.find a with
  | some _ => b.update a fun e => { e with type := type, state := state }
  | none =>
    { b with
      theEvictions := b.theEvictions ++ [⟨a, type, state, true, false⟩]
      theCurSize := b.theCurSize + 1
      unique := by exact Keyed.nodup_append_singleton b.unique h }

def full (theSize : ℕ) : Bool := decide (b.theCurSize.toInt + b.theReserve ≥ theSize)

def freeSlotsPending (theSize : ℕ) : Bool :=
  decide (b.thePendingEvicts > 0 ∨ b.theCurSize.toInt + b.theReserve < theSize)

def reserve (theSize : ℕ) (n : ℤ) : Except Fault CacheEvictBuffer :=
  if b.theCurSize.toInt + (b.theReserve + n) ≤ theSize then
    .ok { b with theReserve := b.theReserve + n }
  else .error .evictBufferReserve

def unreserve (n : ℤ) : Except Fault CacheEvictBuffer :=
  if b.theReserve - n ≥ 0 then .ok { b with theReserve := b.theReserve - n }
  else .error .evictBufferReserve

/-- The entry the search for something to evict stops at. -/
def nextEvictable : Option EvictEntry := b.theEvictions.find? fun e => !e.pending && e.evictable

/-- `evictableReady`. -/
def evictableReady : Bool := b.nextEvictable.isSome

/-- `firstNonPending`: the oldest entry that has not been sent becomes pending. -/
def firstNonPending : Except Fault (CacheEvictBuffer × EvictEntry) :=
  match b.nextEvictable with
  | none => .error .noEvictable
  | some e => .ok
    ({ b.update e.address fun e => { e with pending := true } with
        thePendingEvicts := b.thePendingEvicts + 1 }, e)

/-- The write-back of the block has been sent. -/
def isPending (a : ℕ) : Prop := ∃ e, b.find a = some e ∧ e.pending = true

variable {b} {b' : CacheEvictBuffer} {a c : ℕ} {f : EvictEntry → EvictEntry} {e : EvictEntry}

theorem find_update {h : ∀ e, (f e).address = e.address} :
    (b.update a f h).find c = if c = a then (b.find c).map f else b.find c :=
  Keyed.lookup_update h

theorem find_remove : (b.remove a).find c = if c = a then none else b.find c := by
  rw [remove]
  split
  · rename_i h
    split
    · rename_i hc
      rw [hc, h]
    · rfl
  · exact Keyed.lookup_erase

theorem find_allocEntry {type : MemoryMessageType} {state : CacheState} :
    (b.allocEntry a type state).find c = if c = a then
      some (match b.find a with
        | some e => { e with type := type, state := state }
        | none => ⟨a, type, state, true, false⟩)
    else b.find c := by
  rw [allocEntry]
  split
  · rename_i e he
    refine find_update.trans ?_
    split
    · rename_i hc
      rw [hc, he]
      rfl
    · rfl
  · rename_i he
    refine Keyed.lookup_append_singleton.trans ?_
    by_cases hc : c = a
    · subst hc
      simp only [find] at he ⊢
      simp [he]
    · have hc' : ¬ a = c := fun h => hc h.symm
      simp [hc, hc', find]

theorem reserve_spec {theSize : ℕ} {n : ℤ} (h : b.reserve theSize n = .ok b') :
    b'.theEvictions = b.theEvictions := by
  rw [reserve] at h
  split at h
  · cases h
    rfl
  · cases h

theorem unreserve_spec {n : ℤ} (h : b.unreserve n = .ok b') :
    b'.theEvictions = b.theEvictions := by
  rw [unreserve] at h
  split at h
  · cases h
    rfl
  · cases h

/-- **Adding a block does not make it pending**, nor does it make a pending one
anything else. -/
theorem isPending_allocEntry {type : MemoryMessageType} {state : CacheState} :
    (b.allocEntry a type state).isPending c ↔ b.isPending c := by
  simp only [isPending, find_allocEntry]
  by_cases hc : c = a
  · subst hc
    cases h : b.find c with
    | none => simp
    | some e => simp
  · simp [hc]

theorem isPending_remove : (b.remove a).isPending c ↔ c ≠ a ∧ b.isPending c := by
  simp only [isPending, find_remove]
  by_cases hc : c = a
  · simp [hc]
  · simp [hc]

theorem isPending_update {h : ∀ e, (f e).address = e.address}
    (hp : ∀ e, (f e).pending = e.pending) : (b.update a f h).isPending c ↔ b.isPending c := by
  simp only [isPending, find_update]
  by_cases hc : c = a
  · subst hc
    cases h : b.find c with
    | none => simp
    | some e => simp [hp]
  · simp [hc]

/-- **Sending a write-back** takes an entry that is not pending, and makes it so. -/
theorem firstNonPending_spec (h : b.firstNonPending = .ok (b', e)) :
    e ∈ b.theEvictions ∧ e.pending = false ∧
      ∀ c, b'.find c = if c = e.address then (b.find c).map fun e => { e with pending := true }
        else b.find c := by
  rw [firstNonPending] at h
  split at h
  · cases h
  · rename_i e' he
    cases h
    have hp := List.find?_some he
    simp only [Bool.and_eq_true, Bool.not_eq_true'] at hp
    exact ⟨List.mem_of_find?_eq_some he, hp.1, fun c => find_update (h := by intro _; rfl)⟩

end CacheEvictBuffer

end CMPCache

end Flexus
