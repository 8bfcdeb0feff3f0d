import Flexus.FastCMPCache.Protocol
import Mathlib.Data.Finset.Card

/-!
# The directory of the shared functional cache

The directory records which private caches hold a block. `SharingVector` is a bit
vector over the private caches, `InfiniteDirectoryEntry` adds the sharing state
that the protocol table is indexed by, and `InfiniteDirectory` keeps an entry for
every block that has ever been shared – until an eviction leaves it without
sharers (`components/FastCMPCache/InfiniteDirectory.cpp`, with the default
behaviour of `AbstractDirectory.hpp`).

The source hands a pointer to the entry of a block from the lookup to the updates
that follow. Nothing removes the entry in between, so the updates find it in the
map under the address of the block.
-/

namespace Flexus

open Function

namespace FastCMPCache

open MemoryMessageType SharingState

/-! ### Sharing vectors -/

/-- `MAX_NUM_SHARERS`. -/
def maxNumSharers : ℕ := 512

/-- `SharingVector`: a set of cache indices, all of which fit in the vector. -/
structure SharingVector where
  /-- The bits that are set. -/
  sharers : Finset ℕ
  bound : ∀ i ∈ sharers, i < maxNumSharers

namespace SharingVector

/-- The vector without sharers. -/
def none : SharingVector := ⟨∅, by simp⟩

/-- `addSharer`. -/
def addSharer (v : SharingVector) (index : ℕ) : Except Fault SharingVector :=
  if h : index < maxNumSharers then
    .ok ⟨insert index v.sharers, by
      intro i hi
      rcases Finset.mem_insert.mp hi with rfl | hi
      · exact h
      · exact v.bound i hi⟩
  else
    .error .sharerIndex

/-- `removeSharer`. -/
def removeSharer (v : SharingVector) (index : ℕ) : Except Fault SharingVector :=
  if index < maxNumSharers then
    .ok ⟨v.sharers.erase index, fun i hi => v.bound i (Finset.mem_of_mem_erase hi)⟩
  else
    .error .sharerIndex

/-- `isSharer`. -/
def isSharer (v : SharingVector) (index : ℕ) : Except Fault Bool :=
  if index < maxNumSharers then .ok (index ∈ v.sharers) else .error .sharerIndex

/-- `countSharers`. -/
def countSharers (v : SharingVector) : ℕ := v.sharers.card

/-- `toList`: the sharers in increasing order. -/
def toList (v : SharingVector) : List ℕ := (List.range maxNumSharers).filter (· ∈ v.sharers)

variable {v : SharingVector}

@[simp]
theorem mem_toList {i : ℕ} : i ∈ v.toList ↔ i ∈ v.sharers := by
  simp only [toList, List.mem_filter, List.mem_range, decide_eq_true_eq, and_iff_right_iff_imp]
  exact v.bound i

theorem nodup_toList : v.toList.Nodup := List.Nodup.filter _ List.nodup_range

theorem length_toList : v.toList.length = v.countSharers := by
  have h : v.toList.toFinset = v.sharers := by
    ext i
    simp
  rw [← List.toFinset_card_of_nodup nodup_toList, h, countSharers]

theorem addSharer_ok {i : ℕ} (h : i < maxNumSharers) :
    ∃ w, v.addSharer i = .ok w ∧ w.sharers = insert i v.sharers :=
  ⟨_, dif_pos h, rfl⟩

theorem addSharer_error {i : ℕ} (h : ¬i < maxNumSharers) :
    v.addSharer i = .error .sharerIndex :=
  dif_neg h

theorem removeSharer_ok {i : ℕ} (h : i < maxNumSharers) :
    ∃ w, v.removeSharer i = .ok w ∧ w.sharers = v.sharers.erase i :=
  ⟨_, if_pos h, rfl⟩

end SharingVector

/-! ### Directory entries -/

/-- `InfiniteDirectoryEntry`. -/
structure InfiniteDirectoryEntry where
  /-- The sharers. -/
  sharers : SharingVector
  /-- The sharing state, kept beside the vector. -/
  state : SharingState

namespace InfiniteDirectoryEntry

/-- A new entry. -/
def new : InfiniteDirectoryEntry := ⟨.none, zeroSharers⟩

/-- `addSharer`. -/
def addSharer (e : InfiniteDirectoryEntry) (index : ℕ) : Except Fault InfiniteDirectoryEntry := do
  let sharers ← e.sharers.addSharer index
  pure ⟨sharers, if sharers.countSharers = 1 then oneSharer else manySharers⟩

/-- `makeExclusive`: the index is the only sharer already. -/
def makeExclusive (e : InfiniteDirectoryEntry) (index : ℕ) :
    Except Fault InfiniteDirectoryEntry := do
  let b ← e.sharers.isSharer index
  if ¬b then throw .notSharer
  if e.sharers.countSharers ≠ 1 then throw .notOnlySharer
  pure { e with state := oneSharer }

/-- `removeSharer`. -/
def removeSharer (e : InfiniteDirectoryEntry) (index : ℕ) :
    Except Fault InfiniteDirectoryEntry := do
  let sharers ← e.sharers.removeSharer index
  pure ⟨sharers,
    if sharers.countSharers = 0 then zeroSharers
    else if sharers.countSharers = 1 then oneSharer
    else e.state⟩

variable {e : InfiniteDirectoryEntry} {i : ℕ}

theorem addSharer_ok (h : i < maxNumSharers) :
    ∃ e', e.addSharer i = .ok e' ∧ e'.sharers.sharers = insert i e.sharers.sharers ∧
      e'.state = if (insert i e.sharers.sharers).card = 1 then oneSharer else manySharers := by
  obtain ⟨w, hw, hws⟩ := e.sharers.addSharer_ok h
  rw [addSharer, hw]
  refine ⟨_, rfl, hws, ?_⟩
  rw [SharingVector.countSharers, hws]

theorem makeExclusive_ok (h : i < maxNumSharers) (hs : e.sharers.sharers = {i}) :
    e.makeExclusive i = .ok { e with state := oneSharer } := by
  have hmem : e.sharers.isSharer i = .ok true := by
    simp [SharingVector.isSharer, h, hs]
  have hcount : e.sharers.countSharers = 1 := by
    rw [SharingVector.countSharers, hs, Finset.card_singleton]
  rw [makeExclusive, hmem]
  simp [bind, Except.bind, pure, Except.pure, hcount]

end InfiniteDirectoryEntry

/-! ### The directory -/

/-- `InfiniteDirectory`: a map from block addresses to entries. -/
abbrev InfiniteDirectory := ℕ → Option InfiniteDirectoryEntry

namespace InfiniteDirectory

/-- The entry of a block, or the one a lookup reports for a block without an
entry. -/
def lookup (d : InfiniteDirectory) (addr : ℕ) : SharingVector × SharingState :=
  match d addr with
  | some e => (e.sharers, e.state)
  | none => (.none, zeroSharers)

/-- `findOrCreateEntry`, as far as the entry itself goes. -/
def findOrCreateEntry (d : InfiniteDirectory) (addr : ℕ) : InfiniteDirectoryEntry :=
  (d addr).getD .new

/-- Putting an updated entry back. -/
def put (d : InfiniteDirectory) (addr : ℕ) (e : InfiniteDirectoryEntry) : InfiniteDirectory :=
  update d addr (some e)

/-- `addSharer`. -/
def addSharer (d : InfiniteDirectory) (index addr : ℕ) : Except Fault InfiniteDirectory := do
  pure (d.put addr (← (d.findOrCreateEntry addr).addSharer index))

/-- `addExclusiveSharer`. -/
def addExclusiveSharer (d : InfiniteDirectory) (index addr : ℕ) :
    Except Fault InfiniteDirectory := do
  let e ← (d.findOrCreateEntry addr).addSharer index
  pure (d.put addr (← e.makeExclusive index))

/-- `removeSharer`. -/
def removeSharer (d : InfiniteDirectory) (index addr : ℕ) : Except Fault InfiniteDirectory :=
  match d addr with
  | none => pure d
  | some e => do pure (d.put addr (← e.removeSharer index))

/-- `makeSharerExclusive`. -/
def makeSharerExclusive (d : InfiniteDirectory) (index addr : ℕ) :
    Except Fault InfiniteDirectory :=
  match d addr with
  | none => pure d
  | some e => do pure (d.put addr (← e.makeExclusive index))

/-- `processSnoopResponse`. The directory is precise, so that a snoop that found
nothing removes the sharer just as one that found the block does. -/
def processSnoopResponse (d : InfiniteDirectory) (index : ℕ) (type : MemoryMessageType)
    (addr : ℕ) : Except Fault InfiniteDirectory :=
  match type with
  | invalidate | returnNAck => d.removeSharer index addr
  | invalidateAck | invUpdateAck => d.removeSharer index addr
  | returnReply | returnReplyDirty => pure d
  | downgradeAck | downUpdateAck => pure d
  | _ => .error .unknownSnoopResponse

/-- `AbstractDirectory::processRequestResponse`. -/
def processRequestResponseBase (d : InfiniteDirectory) (index : ℕ)
    (request response : MemoryMessageType) (addr : ℕ) : Except Fault InfiniteDirectory :=
  match request with
  | evictClean | evictWritable | evictDirty => d.removeSharer index addr
  | upgradeReq =>
    if response = upgradeReply then d.makeSharerExclusive index addr
    else .error .upgradeResponse
  | _ =>
    match response with
    | missReply | fwdReplyOwned => d.addSharer index addr
    | missReplyWritable | missReplyDirty => d.addExclusiveSharer index addr
    | nonAllocatingStoreReply => pure d
    | _ => .error .unknownRequestResponse

/-- `InfiniteDirectory::processRequestResponse`: an entry that an eviction leaves
without sharers goes away. -/
def processRequestResponse (d : InfiniteDirectory) (index : ℕ)
    (request response : MemoryMessageType) (addr : ℕ) : Except Fault InfiniteDirectory := do
  let d ← d.processRequestResponseBase index request response addr
  if request.isEvictType then
    match d addr with
    | some e => pure (if e.state = zeroSharers then update d addr none else d)
    | none => pure d
  else
    pure d

end InfiniteDirectory

/-! ### What the updates do to the sharers of a block -/

/-- The sharing state that agrees with a number of sharers. -/
def sharingOf : ℕ → SharingState
  | 0 => zeroSharers
  | 1 => oneSharer
  | _ => manySharers

theorem sharingOf_eq_ite (n : ℕ) :
    sharingOf n = if n = 0 then zeroSharers else if n = 1 then oneSharer else manySharers := by
  match n with
  | 0 => rfl
  | 1 => rfl
  | n + 2 => rfl

@[simp]
theorem sharingOf_eq_zero {n : ℕ} : sharingOf n = zeroSharers ↔ n = 0 := by
  match n with
  | 0 => simp [sharingOf]
  | 1 => simp [sharingOf]
  | n + 2 => simp [sharingOf]

@[simp]
theorem sharingOf_eq_one {n : ℕ} : sharingOf n = oneSharer ↔ n = 1 := by
  match n with
  | 0 => simp [sharingOf]
  | 1 => simp [sharingOf]
  | n + 2 => simp [sharingOf]

@[simp]
theorem sharingOf_eq_many {n : ℕ} : sharingOf n = manySharers ↔ 2 ≤ n := by
  match n with
  | 0 => simp [sharingOf]
  | 1 => simp [sharingOf]
  | n + 2 => simp [sharingOf]

namespace InfiniteDirectory

/-- **The sharers of a block**, with the sharing state that agrees with them. -/
structure Records (d : InfiniteDirectory) (b : ℕ) (sharers : Finset ℕ) : Prop where
  sharers_eq : (d.lookup b).1.sharers = sharers
  state_eq : (d.lookup b).2 = sharingOf sharers.card

variable {d : InfiniteDirectory} {b i : ℕ} {S : Finset ℕ}

theorem Records.bound (h : d.Records b S) (hi : i ∈ S) : i < maxNumSharers :=
  (d.lookup b).1.bound i (h.sharers_eq ▸ hi)

theorem Records.exists_entry (h : d.Records b S) (hi : i ∈ S) :
    ∃ e, d b = some e ∧ e.sharers.sharers = S ∧ e.state = sharingOf S.card := by
  cases hd : d b with
  | none =>
    have := h.sharers_eq
    rw [lookup, hd] at this
    subst this
    simp [SharingVector.none] at hi
  | some e =>
    have h1 := h.sharers_eq
    have h2 := h.state_eq
    rw [lookup, hd] at h1 h2
    exact ⟨e, rfl, h1, h2⟩

theorem Records.findOrCreateEntry (h : d.Records b S) :
    (d.findOrCreateEntry b).sharers.sharers = S := by
  have h1 := h.sharers_eq
  rw [InfiniteDirectory.findOrCreateEntry]
  rw [lookup] at h1
  cases hd : d b with
  | none =>
    rw [hd] at h1
    exact h1
  | some e =>
    rw [hd] at h1
    exact h1

theorem lookup_put (d : InfiniteDirectory) (b : ℕ) (e : InfiniteDirectoryEntry) :
    (d.put b e).lookup b = (e.sharers, e.state) := by
  simp [lookup, put]

theorem put_of_ne {b' : ℕ} (d : InfiniteDirectory) (e : InfiniteDirectoryEntry) (h : b' ≠ b) :
    d.put b e b' = d b' :=
  update_of_ne h _ _

theorem removeSharer_spec (h : d.Records b S) (hi : i ∈ S) :
    ∃ d', d.removeSharer i b = .ok d' ∧ d'.Records b (S.erase i) ∧
      ∀ b', b' ≠ b → d' b' = d b' := by
  obtain ⟨e, he, hs, hst⟩ := h.exists_entry hi
  obtain ⟨w, hw, hws⟩ := e.sharers.removeSharer_ok (h.bound hi)
  rw [hs] at hws
  simp only [removeSharer, he, InfiniteDirectoryEntry.removeSharer, hw, bind, Except.bind]
  refine ⟨_, rfl, ⟨?_, ?_⟩, fun b' hb' => put_of_ne d _ hb'⟩
  · rw [lookup_put, hws]
  · rw [lookup_put, sharingOf_eq_ite, SharingVector.countSharers, hws, hst]
    split
    · rfl
    · split
      · rfl
      · have hcard := Finset.card_erase_add_one hi
        rw [sharingOf_eq_many]
        omega

theorem addSharer_spec (h : d.Records b S) (hi : i < maxNumSharers) :
    ∃ d', d.addSharer i b = .ok d' ∧ d'.Records b (insert i S) ∧
      ∀ b', b' ≠ b → d' b' = d b' := by
  obtain ⟨e, he, hs, hst⟩ := (d.findOrCreateEntry b).addSharer_ok hi
  rw [h.findOrCreateEntry] at hs hst
  rw [addSharer, he]
  refine ⟨d.put b e, rfl, ⟨?_, ?_⟩, fun b' hb' => put_of_ne d _ hb'⟩
  · rw [lookup_put, hs]
  · rw [lookup_put, sharingOf_eq_ite, hst,
      if_neg (Finset.card_ne_zero_of_mem (Finset.mem_insert_self i S))]

theorem addSharer_error (hi : ¬i < maxNumSharers) :
    d.addSharer i b = .error .sharerIndex := by
  simp only [addSharer, InfiniteDirectoryEntry.addSharer, SharingVector.addSharer_error hi]
  rfl

theorem addExclusiveSharer_spec (h : d.Records b ∅) (hi : i < maxNumSharers) :
    ∃ d', d.addExclusiveSharer i b = .ok d' ∧ d'.Records b {i} ∧
      ∀ b', b' ≠ b → d' b' = d b' := by
  obtain ⟨e, he, hs, -⟩ := (d.findOrCreateEntry b).addSharer_ok hi
  rw [h.findOrCreateEntry] at hs
  have hs' : e.sharers.sharers = {i} := hs
  have hex := InfiniteDirectoryEntry.makeExclusive_ok hi hs'
  simp only [addExclusiveSharer, he, bind, Except.bind, hex]
  refine ⟨_, rfl, ⟨?_, ?_⟩, fun b' hb' => put_of_ne d _ hb'⟩
  · rw [lookup_put]
    exact hs'
  · rw [lookup_put]
    rfl

theorem addExclusiveSharer_error (hi : ¬i < maxNumSharers) :
    d.addExclusiveSharer i b = .error .sharerIndex := by
  simp only [addExclusiveSharer, InfiniteDirectoryEntry.addSharer, SharingVector.addSharer_error hi]
  rfl

theorem makeSharerExclusive_spec (h : d.Records b {i}) :
    ∃ d', d.makeSharerExclusive i b = .ok d' ∧ d'.Records b {i} ∧
      ∀ b', b' ≠ b → d' b' = d b' := by
  have hi : i ∈ ({i} : Finset ℕ) := Finset.mem_singleton_self i
  obtain ⟨e, he, hs, hst⟩ := h.exists_entry hi
  have hex := InfiniteDirectoryEntry.makeExclusive_ok (h.bound hi) hs
  simp only [makeSharerExclusive, he, bind, Except.bind, hex]
  refine ⟨_, rfl, ⟨?_, ?_⟩, fun b' hb' => put_of_ne d _ hb'⟩
  · rw [lookup_put]
    exact hs
  · rw [lookup_put]
    rfl

/-- An eviction removes the sharer, and the entry with the last one. -/
theorem processRequestResponse_evict {t : MemoryMessageType}
    (ht : t = evictClean ∨ t = evictWritable ∨ t = evictDirty) (resp : MemoryMessageType)
    (h : d.Records b S) (hi : i ∈ S) :
    ∃ d', d.processRequestResponse i t resp b = .ok d' ∧ d'.Records b (S.erase i) ∧
      ∀ b', b' ≠ b → d' b' = d b' := by
  obtain ⟨d', hd', hrec, hoth⟩ := removeSharer_spec h hi
  have hbase : d.processRequestResponseBase i t resp b = .ok d' := by
    rcases ht with rfl | rfl | rfl <;> exact hd'
  have hev : t.isEvictType = true := by rcases ht with rfl | rfl | rfl <;> rfl
  simp only [processRequestResponse, hbase, bind, Except.bind, hev, if_true]
  cases he : d' b with
  | none => exact ⟨d', rfl, hrec, hoth⟩
  | some e =>
    by_cases hz : e.state = zeroSharers
    · refine ⟨update d' b none, by simp [hz, pure, Except.pure], ?_, fun b' hb' => ?_⟩
      · have hst := hrec.state_eq
        rw [lookup, he] at hst
        have hcard : (S.erase i).card = 0 := by
          rw [← sharingOf_eq_zero, ← hst]
          exact hz
        constructor
        · rw [Finset.card_eq_zero.mp hcard]
          simp [lookup, SharingVector.none]
        · rw [hcard]
          simp [lookup, sharingOf]
      · rw [update_of_ne hb', hoth b' hb']
    · exact ⟨d', by simp [hz, pure, Except.pure], hrec, hoth⟩

end InfiniteDirectory

end FastCMPCache

end Flexus
