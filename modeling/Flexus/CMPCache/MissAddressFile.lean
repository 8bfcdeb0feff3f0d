import Flexus.Common.Transport
import Flexus.Lib.OrderedIndex

/-!
# The miss address file of a bank

The miss address file (`components/CMPCache/MissAddressFile.hpp`) holds the requests
a bank has taken in and not yet finished. It is an index ordered by the address of a
request and its state, so that a search by address meets the states in the order in
which the source numbers them. An entry that is *waiting* sleeps until another process
wakes it; a *waking* entry is picked up by the controller, oldest first, and is *in
the pipeline* while the process that runs it has not decided about it.

What an operation does is said through the function from iterators to entries,
`Flexus.CMPCache.MissAddressFile.get`.
-/

namespace Flexus

open Lib

namespace CMPCache

/-- The assertions of a bank, and the places where it would use an iterator to
something that is gone. -/
inductive Fault
  /-- An iterator to an entry of the miss address file that has been erased, or that
  was never set. -/
  | danglingMAF
  /-- `doRequest`: a state of an entry that the policy does not know. -/
  | invalidMAFState
  /-- `MissAddressFile::reserve` and `unreserve`. -/
  | mafReserve
  /-- `reserve` and `unreserve` of the two evict buffers. -/
  | evictBufferReserve
  /-- `DirEvictBuffer::remove`: no such entry. -/
  | dirEvictBuffer
  /-- `firstNonPending`: no entry that could be evicted. -/
  | noEvictable
  /-- `SimpleDirectoryState`: a sharer that has no bit. -/
  | sharerIndex
  /-- `pickVictim`: every way of the set is protected. -/
  | noVictim
  /-- `doRequest`: an upgrade by someone else than the only sharer. -/
  | upgradeSharer
  /-- `doRequest`: there is nobody to invalidate. -/
  | noInvalidates
  /-- `doRequest`, `handleReply`, `handleSnoop`: a message of an unexpected type. -/
  | unexpectedMessage
  /-- `doEvict`: a write is active on a block that is leaving the directory. -/
  | activeWrite
  /-- `handleReply`: no entry of the directory's evict buffer. -/
  | noDirEvictEntry
  /-- `handleReply`: the last invalidate leaves sharers behind. -/
  | sharersLeft
  /-- `handleReply`: the block is in the cache evict buffer already. -/
  | inEvictBuffer
  /-- `handleReply`: no entry that waits for this acknowledgement. -/
  | noMatchingMAF
  /-- `handleReply`: the block has no directory entry. -/
  | noDirectoryEntry
  /-- `handleReply`: a negative acknowledgement races with an eviction. -/
  | unexpectedRace
  /-- `handleReply`: an `EvictAck` for a block that has no write-back. -/
  | noWriteBack
  /-- `handleReply`: an `EvictAck` for a write-back that has not been sent. -/
  | notPending
  /-- `run*Process`: an action the controller does not expect of such a process. -/
  | unexpectedAction
  /-- `finalizeProcess`: there is no message to send. -/
  | noMessage
  /-- `finalizeProcess`: the process still holds reservations. -/
  | reservationsHeld
  deriving DecidableEq

/-- `MAFState`. -/
inductive MAFState
  | waitSet
  | waitRequest
  | waitEvict
  | waitAck
  | waking
  | inPipeline
  | waitRevoke
  | finishing
  deriving DecidableEq

namespace MAFState

/-- The number of a state in the source, by which the index is ordered. -/
def toNat : MAFState → ℕ
  | waitSet => 0
  | waitRequest => 1
  | waitEvict => 2
  | waitAck => 3
  | waking => 4
  | inPipeline => 5
  | waitRevoke => 6
  | finishing => 7

/-- The states in which a message sleeps until something happens. -/
def isWaiting : MAFState → Bool
  | waitSet | waitRequest | waitEvict | waitAck => true
  | _ => false

end MAFState

/-- `MAFEntry`: the request itself, and the room in the cache evict buffer that is
kept for the data it may bring. -/
structure MAFEntry where
  address : ℕ
  state : MAFState
  cacheEBReserved : ℕ
  transport : Transport
  deriving DecidableEq

namespace MAFEntry

/-- The composite key: the address, then the state. -/
def key (e : MAFEntry) : ℕ := e.address * 8 + e.state.toNat

/-- Among the entries of one address the order is that of the states. -/
theorem toNat_le_of_key_le {e f : MAFEntry} (ha : e.address = f.address) (h : e.key ≤ f.key) :
    e.state.toNat ≤ f.state.toNat := by
  simp only [key, ha] at h
  omega

end MAFEntry

/-- `MissAddressFile`. The number of entries is counted by hand in the source. -/
structure MissAddressFile where
  theMAF : OrderedIndex MAFEntry.key
  theReserve : ℕ
  theCurSize : ℕ
  curSize_eq : theCurSize = theMAF.size

namespace MissAddressFile

/-- An empty file. -/
def init : MissAddressFile := ⟨OrderedIndex.empty, 0, 0, rfl⟩

variable (m : MissAddressFile)

/-- The entry an iterator points to. -/
def get (i : ℕ) : Option MAFEntry := m.theMAF.get i

/-- `find(address)`: the first entry of an address, whatever its state. -/
def find (a : ℕ) : Option (Slot MAFEntry) := m.theMAF.find fun e => e.address == a

/-- `findAll(address, state)`. -/
def findAll (a : ℕ) (st : MAFState) : List (Slot MAFEntry) :=
  m.theMAF.findAll fun e => e.address == a && e.state == st

/-- `findFirst(address, state)`. -/
def findFirst (a : ℕ) (st : MAFState) : Option (Slot MAFEntry) :=
  m.theMAF.find fun e => e.address == a && e.state == st

/-- `reserve`: there has to be room for a file of this size. -/
def reserve (theSize : ℕ) : Except Fault MissAddressFile :=
  if m.theCurSize + m.theReserve < theSize then .ok { m with theReserve := m.theReserve + 1 }
  else .error .mafReserve

/-- `unreserve`. -/
def unreserve : Except Fault MissAddressFile :=
  if 0 < m.theReserve then .ok { m with theReserve := m.theReserve - 1 } else .error .mafReserve

/-- `full`. -/
def full (theSize : ℕ) : Bool := decide (m.theCurSize + m.theReserve ≥ theSize)

/-- `insert`. The iterator to the new entry is `m.theMAF.next`. -/
def insert (t : Transport) (a : ℕ) (st : MAFState) : MissAddressFile where
  theMAF := m.theMAF.insert ⟨a, st, 0, t⟩
  theReserve := m.theReserve
  theCurSize := m.theCurSize + 1
  curSize_eq := by rw [OrderedIndex.size_insert, m.curSize_eq]

/-- A change of an entry in place, of which the source has one function for each
field. -/
def modify (i : ℕ) (f : MAFEntry → MAFEntry) : MissAddressFile where
  theMAF := m.theMAF.modify i f
  theReserve := m.theReserve
  theCurSize := m.theCurSize
  curSize_eq := by rw [OrderedIndex.size_modify, m.curSize_eq]

/-- `setState`. The transport of a woken process is the one of its entry, so that
what the process changed of it shows there. -/
def setState (i : ℕ) (st : MAFState) (t : Transport) : Except Fault MissAddressFile :=
  match m.get i with
  | none => .error .danglingMAF
  | some _ => .ok (m.modify i fun e => { e with state := st, transport := t })

/-- `setCacheEBReserved`. -/
def setCacheEBReserved (i n : ℕ) : MissAddressFile :=
  m.modify i fun e => { e with cacheEBReserved := n }

/-- `remove`. -/
def remove (i : ℕ) : Except Fault MissAddressFile :=
  match h : m.get i with
  | none => .error .danglingMAF
  | some _ => .ok
    { theMAF := m.theMAF.erase i
      theReserve := m.theReserve
      theCurSize := m.theCurSize - 1
      curSize_eq := by
        have := OrderedIndex.size_erase h
        rw [m.curSize_eq]
        omega }

/-- The new state of an entry that is woken. -/
def woken (e : MAFEntry) : MAFEntry := { e with state := .waking }

/-- `wake`, for each of a list of entries. -/
def wakeEach (is : List ℕ) : MissAddressFile where
  theMAF := m.theMAF.modifyEach woken is
  theReserve := m.theReserve
  theCurSize := m.theCurSize
  curSize_eq := by rw [OrderedIndex.size_modifyEach, m.curSize_eq]

/-- `wakeAfterEvict`: the entry itself, and then every request that waits behind it. -/
def wakeAfterEvict (i : ℕ) : Except Fault MissAddressFile :=
  match m.get i with
  | none => .error .danglingMAF
  | some e =>
    let m' := m.modify i woken
    .ok (m'.wakeEach ((m'.findAll e.address .waitRequest).map Slot.serial))

/-- `hasWakingEntry`, with the entry `getWakingMAF` takes: the oldest. -/
def firstWaking : Option ℕ := (m.theMAF.inOrder fun e => e.state == .waking).head?

/-- `getWakingMAF`: the entry goes into the pipeline. -/
def toPipeline (i : ℕ) : MissAddressFile := m.modify i fun e => { e with state := .inPipeline }

/-! ### What the operations do to the entries -/

variable {m} {i j a : ℕ} {e : MAFEntry} {st : MAFState} {t : Transport}
  {x : Slot MAFEntry} {m' : MissAddressFile}

theorem get_insert : (m.insert t a st).get i =
    if i = m.theMAF.next then some ⟨a, st, 0, t⟩ else m.get i := OrderedIndex.get_insert

theorem get_modify {f : MAFEntry → MAFEntry} :
    (m.modify j f).get i = if i = j then (m.get i).map f else m.get i :=
  OrderedIndex.get_modify

theorem setState_spec (h : m.setState j st t = .ok m') : ∃ e, m.get j = some e ∧
    ∀ i, m'.get i = if i = j then some { e with state := st, transport := t } else m.get i := by
  rw [setState] at h
  split at h
  · cases h
  · rename_i e he
    cases h
    refine ⟨e, he, fun i => ?_⟩
    rw [get_modify]
    split
    · rename_i hij
      rw [hij, he]
      rfl
    · rfl

theorem remove_spec (h : m.remove j = .ok m') : ∃ e, m.get j = some e ∧
    ∀ i, m'.get i = if i = j then none else m.get i := by
  rw [remove] at h
  split at h
  · cases h
  · rename_i e he
    cases h
    exact ⟨e, he, fun i => OrderedIndex.get_erase⟩

theorem get_wakeEach {is : List ℕ} (h : is.Nodup) :
    (m.wakeEach is).get i = if i ∈ is then (m.get i).map woken else m.get i :=
  OrderedIndex.get_modifyEach h

theorem nodup_findAll : ((m.findAll a st).map Slot.serial).Nodup :=
  OrderedIndex.nodup_findAll

/-- **Waking after an eviction** wakes the entry and the requests of its address. -/
theorem wakeAfterEvict_spec (h : m.wakeAfterEvict j = .ok m') : ∃ e, m.get j = some e ∧
    ∀ i, m'.get i = (m.get i).map fun f =>
      if i = j ∨ (f.address = e.address ∧ f.state = .waitRequest) then woken f else f := by
  rw [wakeAfterEvict] at h
  split at h
  · cases h
  · rename_i e he
    cases h
    refine ⟨e, he, fun i => ?_⟩
    rw [get_wakeEach nodup_findAll]
    have hmem : i ∈ ((m.modify j woken).findAll e.address .waitRequest).map Slot.serial ↔
        ∃ f, (m.modify j woken).get i = some f ∧ f.address = e.address ∧
          f.state = .waitRequest := by
      constructor
      · intro hi
        obtain ⟨x, hx, rfl⟩ := List.mem_map.mp hi
        obtain ⟨hg, hp⟩ := OrderedIndex.mem_findAll.mp hx
        exact ⟨x.item, hg, by simpa using hp⟩
      · rintro ⟨f, hf, hp⟩
        exact List.mem_map.mpr ⟨⟨i, f⟩, OrderedIndex.mem_findAll.mpr ⟨hf, by simpa using hp⟩,
          rfl⟩
    rw [get_modify] at hmem
    rw [get_modify]
    by_cases hij : i = j
    · subst hij
      rw [if_pos rfl, he] at hmem ⊢
      rw [if_neg (by rw [hmem]; rintro ⟨f, hf, -, hw⟩; cases hf; cases hw)]
      simp
    · rw [if_neg hij] at hmem ⊢
      cases hg : m.get i with
      | none =>
        rw [hg] at hmem
        rw [if_neg (by rw [hmem]; rintro ⟨f, hf, -⟩; cases hf)]
        rfl
      | some f =>
        rw [hg] at hmem
        by_cases hf : f.address = e.address ∧ f.state = .waitRequest
        · rw [if_pos (hmem.mpr ⟨f, rfl, hf⟩)]
          simp [hf]
        · rw [if_neg (by rw [hmem]; rintro ⟨f', hf', hw⟩; cases hf'; exact hf hw)]
          simp [hij, hf]

theorem firstWaking_spec (h : m.firstWaking = some i) :
    ∃ e, m.get i = some e ∧ e.state = .waking := by
  obtain ⟨e, he, hw⟩ := OrderedIndex.mem_inOrder.mp (List.mem_of_mem_head? h)
  exact ⟨e, he, by simpa using hw⟩

theorem get_toPipeline : (m.toPipeline j).get i =
    if i = j then (m.get i).map (fun e => { e with state := .inPipeline }) else m.get i :=
  get_modify

/-! ### What the searches find -/

theorem find_spec (h : m.find a = some x) : m.get x.serial = some x.item ∧ x.item.address = a ∧
    ∀ i e, m.get i = some e → e.address = a → x.item.state.toNat ≤ e.state.toNat := by
  obtain ⟨hg, hp, hmin⟩ := OrderedIndex.find_spec h
  have ha : x.item.address = a := by simpa using hp
  refine ⟨hg, ha, fun i e he hea => ?_⟩
  exact MAFEntry.toNat_le_of_key_le (ha.trans hea.symm) (hmin i e he (by simpa using hea))

theorem find_eq_none : m.find a = none ↔ ∀ i e, m.get i = some e → e.address ≠ a := by
  rw [find, OrderedIndex.find_eq_none]
  simp [get]

theorem findFirst_spec (h : m.findFirst a st = some x) :
    m.get x.serial = some x.item ∧ x.item.address = a ∧ x.item.state = st := by
  obtain ⟨hg, hp, -⟩ := OrderedIndex.find_spec h
  exact ⟨hg, by simpa using hp⟩

theorem findFirst_eq_none :
    m.findFirst a st = none ↔ ∀ i e, m.get i = some e → e.address = a → e.state ≠ st := by
  rw [findFirst, OrderedIndex.find_eq_none]
  simp [get]

theorem mem_findAll : x ∈ m.findAll a st ↔
    m.get x.serial = some x.item ∧ x.item.address = a ∧ x.item.state = st := by
  rw [findAll, OrderedIndex.mem_findAll]
  simp [get]

end MissAddressFile

end CMPCache

end Flexus
