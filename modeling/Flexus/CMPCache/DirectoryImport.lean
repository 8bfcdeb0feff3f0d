import Flexus.CMPCache.Interleaving
import Flexus.FastCMPCache.DirectoryCheckpoint
import Flexus.Lib.Skew

/-!
# Importing a skewed directory into a banked one

The directory of a timing bank (`components/CMPCache/StdDirectory.hpp`) loads the checkpoint
that the functional directory has written (`saveState` of `StandardDirectory`). Both can skew
their sets, that is fold the upper digits of an address into the index. The functional directory
takes its set from the folded address, and so does the bank for a lookup. But the loader asks
which bank *the first address of a global set* selects, and folds that address once more.

So a set goes to the bank that looks its addresses up only if the second folding leaves the
bank bits alone (`Flexus.CMPCache.Placed`). For a power of two of sets and banks this is the
case for all addresses exactly when there is one bank, or the digits that are folded in end below
the bank bits (`Flexus.CMPCache.importDirectory_finds_iff`).
-/

namespace Flexus

open Lib List

namespace CMPCache

open FastCMPCache (BlockDirectoryEntry BlockEntryWrapper DirectoryArchive DirectoryConfig
  StandardDirectory StdDirEntrySerializer)

/-! ### The skewed bank -/

namespace Geometry

variable (g : Geometry)

/-- `skewShift`. -/
def skewShift : ℕ :=
  34 - (g.theNumSets.log2 + g.theBanks.log2 + g.theBlockSize.log2)

/-- No width of a field and no distance of a shift that `init` computes is negative; a shift by
a negative number has no defined result. -/
structure Defined : Prop where
  lowBits : g.theBlockSize.log2 ≤ g.theBankInterleaving.log2
  midBits : g.theBankInterleaving.log2 ≤ g.theBlockSize.log2 + g.theNumSets.log2
  skewShift : g.theNumSets.log2 + g.theBanks.log2 + g.theBlockSize.log2 ≤ 34

instance : Decidable g.Defined :=
  decidable_of_iff (_ ∧ _ ∧ _) ⟨fun h => ⟨h.1, h.2.1, h.2.2⟩, fun h => ⟨h.1, h.2, h.3⟩⟩

/-- `makeSet`, with the skew. -/
def skewedSet (a : ℕ) : ℕ := g.makeSet (fold g.skewShift a)

/-- `getBank`, with the skew. -/
def skewedBank (a : ℕ) : ℕ := g.getBank (fold g.skewShift a)

/-- `getGroup`, with the skew. -/
def skewedGroup (a : ℕ) : ℕ := g.getGroup (fold g.skewShift a)

/-- The global sets that a skewed bank of a group loads. -/
def skewedGlobalSets (b q : ℕ) : List ℕ :=
  (List.range g.theTotalSets).filter (belongs g.skewedBank g.skewedGroup g.theBlockSize b q)

end Geometry

/-- The assignment of a word: a bit for each of the caches that the vector has room for. -/
def SimpleDirectoryState.assign (d : SimpleDirectoryState) (s : ℕ) : SimpleDirectoryState :=
  { d with theSharers := (Finset.range d.theNumSharers).filter fun i => s.testBit i = true }

/-- The assignment of a serializer to a block. The lowest bit of the tag is not part of it. -/
def DirEntry.assign (e : DirEntry) (s : StdDirEntrySerializer) : DirEntry :=
  { e with tag := s.tag - s.tag % 2, state := e.state.assign s.state }

/-- `loadState` of a `Set`: what is read is assigned to the ways. -/
def loadWays : List DirEntry → Reader StdDirEntrySerializer (List DirEntry) :=
  readAll fun e => readMap fun s => some (e.assign s)

/-- **`loadState` of `StdDirectory`** with skewed sets, into the given bank of the given group.
The geometry is asserted. -/
def importDirectory (g : Geometry) (theNumSharers bank group : ℕ) (a : DirectoryArchive) :
    Option DirSets :=
  if g.Defined ∧ a.setCount = g.theTotalSets ∧ a.associativity = g.theAssociativity then
    loadSets (Geometry.belongs g.skewedBank g.skewedGroup g.theBlockSize bank group) g.theNumSets
      (fun ways bs => loadWays ways bs) (skipWays g.theAssociativity)
      (List.range g.theTotalSets) 0 (stdDirectory g theNumSharers).init a.entries
  else none

/-- `lookup`, with skewed sets. -/
def skewedLookup (g : Geometry) (d : DirSets) (a : ℕ) : Option SimpleDirectoryState :=
  (Keyed.lookup DirEntry.tag (d (g.skewedSet a)) (g.blockAddress a)).map DirEntry.state

/-! ### Where the entries of a functional directory stand -/

section Placement

variable {cfg : DirectoryConfig} {d d' : StandardDirectory cfg} {n : ℕ}

/-- The entries of a functional directory: their addresses are those of blocks that belong to
the set, or they have never been used; and the sharers are caches. -/
structure Placement (cfg : DirectoryConfig) (n i : ℕ) (e : BlockDirectoryEntry) : Prop where
  aligned : cfg.theBlockSize ∣ e.theAddress
  isHome : e.theAddress = 0 ∨ cfg.getSet e.theAddress = i
  sharers : ∀ c ∈ e.theSharers.sharers, c < n

/-- The calls that a system with `n` caches makes: the addresses of the requests are masked to
blocks, and the sharers are caches. -/
def callOf (cfg : DirectoryConfig) (n : ℕ) : StandardDirectory.Event → Prop
  | .lookup addr _ => cfg.theBlockSize ∣ addr
  | .addSharer index _ => index < n
  | .addExclusiveSharer index _ => index < n
  | _ => True

theorem Placement.of_sharers {i : ℕ} {e e' : BlockDirectoryEntry} (h : Placement cfg n i e)
    (ha : e'.theAddress = e.theAddress) (hs : ∀ c ∈ e'.theSharers.sharers, c < n) :
    Placement cfg n i e' :=
  ⟨ha ▸ h.aligned, ha ▸ h.isHome, hs⟩

theorem Placement.addSharer {i index : ℕ} {e e' : BlockDirectoryEntry}
    (h : Placement cfg n i e) (hn : index < n) (ha : e.addSharer index = .ok e') :
    Placement cfg n i e' := by
  obtain ⟨-, haddr, hs, -⟩ := BlockDirectoryEntry.addSharer_spec ha
  refine h.of_sharers haddr fun c hc => ?_
  rw [hs] at hc
  rcases Finset.mem_insert.mp hc with rfl | hc
  · exact hn
  · exact h.sharers c hc

theorem Placement.makeExclusive {i index : ℕ} {e e' : BlockDirectoryEntry}
    (h : Placement cfg n i e) (ha : e.makeExclusive index = .ok e') : Placement cfg n i e' := by
  obtain ⟨haddr, hs, -⟩ := BlockDirectoryEntry.makeExclusive_spec ha
  exact h.of_sharers haddr (hs ▸ h.sharers)

/-- **Entries stay in place**: one call. -/
theorem placement_step (hd : StandardDirectory.AllIn (Placement cfg n) d)
    {ev : StandardDirectory.Event} (hev : callOf cfg n ev) (h : d.step ev = .ok d') :
    StandardDirectory.AllIn (Placement cfg n) d' := by
  cases ev with
  | lookup addr isEvictType =>
    cases h
    exact hd.lookup addr isEvictType
      ⟨hev, .inr rfl, fun c hc => absurd hc (Finset.notMem_empty c)⟩
  | addSharer index w => exact hd.modifyEntry (fun _ _ _ hp he => hp.addSharer hev he) h
  | addExclusiveSharer index w =>
    refine hd.modifyEntry (fun i e e' hp he => ?_) h
    cases ha : e.addSharer index with
    | error f =>
      rw [ha] at he
      cases he
    | ok a =>
      rw [ha] at he
      exact (hp.addSharer hev ha).makeExclusive he
  | removeSharer index w =>
    refine hd.modifyEntry (fun i e e' hp he => ?_) h
    refine hp.of_sharers (BlockDirectoryEntry.theAddress_removeSharer he) fun c hc => ?_
    rw [BlockDirectoryEntry.sharers_removeSharer he] at hc
    exact hp.sharers c (Finset.mem_of_mem_erase hc)
  | makeSharerExclusive index w =>
    exact hd.modifyEntry (fun _ _ _ hp he => hp.makeExclusive he) h

/-- **The entries of every run of a system are in place.** -/
theorem placement_of_reachable
    (h : (StandardDirectory.machine cfg).ReachableWhen (fun _ ev => callOf cfg n ev) d) :
    StandardDirectory.AllIn (Placement cfg n) d :=
  h.invariant (I := StandardDirectory.AllIn (Placement cfg n))
    (StandardDirectory.AllIn.empty fun _ =>
      ⟨Nat.dvd_zero _, .inl rfl, fun c hc => absurd hc (Finset.notMem_empty c)⟩)
    fun _ _ _ hs hev ht => placement_step hs hev ht

/-- The functional directory holds an entry for an address: its own lookup finds it. -/
def Holds (d : StandardDirectory cfg) (a : ℕ) (e : BlockDirectoryEntry) : Prop :=
  ∃ w, d.snoopLookup a = some w ∧ d.block w = some e

/-- **The entry that is held** is the first one of its set with the address. -/
theorem holds_iff {a : ℕ} {e : BlockDirectoryEntry} : Holds d a e ↔
    (d.theDirectory (cfg.getSet a)).find? (fun e => e.theAddress = a) = some e := by
  set l := d.theDirectory (cfg.getSet a) with hl
  set way := (l.findIdx? fun e => e.theAddress = a).getD
    (FastCMPCache.DirectorySet.minWay cfg.theReplPolicy l) with hway
  -- a lookup that does not reorder the set leaves it as it is
  have hsnoop : d.snoopLookup a = l[way]?.bind fun e =>
      if e.theAddress = a then some ⟨cfg.getSet a, way⟩ else none := by
    rw [StandardDirectory.snoopLookup, StandardDirectory.findOrCreateEntry]
    simp only [FastCMPCache.DirectorySet.findOrCreateEntry, Bool.false_eq_true, if_false,
      StandardDirectory.block, StandardDirectory.theDirectory_setRow, Function.update_self, ← hl,
      ← hway]
    cases l[way]? <;> rfl
  rw [Holds, hsnoop]
  constructor
  · rintro ⟨w, hw, he⟩
    cases hget : l[way]? with
    | none =>
      rw [hget] at hw
      cases hw
    | some x =>
      simp only [hget, Option.bind_some, Option.ite_none_right_eq_some, Option.some.injEq] at hw
      obtain ⟨hx, rfl⟩ := hw
      cases hget.symm.trans he
      cases hf : l.findIdx? fun e => e.theAddress = a with
      | none =>
        have hnone := findIdx?_eq_none_iff.mp hf e (mem_of_getElem? hget)
        rw [decide_eq_true hx] at hnone
        cases hnone
      | some j =>
        rw [hf, Option.getD_some] at hway
        obtain ⟨hj, hp, hbefore⟩ := findIdx?_eq_some_iff_getElem.mp hf
        rw [hway, List.getElem?_eq_getElem hj, Option.some.injEq] at hget
        rw [find?_eq_some_iff_getElem]
        exact ⟨decide_eq_true hx, j, hj, hget, fun i hi => by simpa using hbefore i hi⟩
  · intro hf
    obtain ⟨hx, j, hj, rfl, hbefore⟩ := find?_eq_some_iff_getElem.mp hf
    have hindex : l.findIdx? (fun e => e.theAddress = a) = some j :=
      findIdx?_eq_some_iff_getElem.mpr ⟨hj, hx, fun i hi => by simpa using hbefore i hi⟩
    rw [hindex, Option.getD_some] at hway
    rw [hway, List.getElem?_eq_getElem hj]
    exact ⟨⟨cfg.getSet a, j⟩, by simp [of_decide_eq_true hx], List.getElem?_eq_getElem hj⟩

/-- A lookup leaves an entry for the address at the front of its set. -/
theorem exists_mem_lookup (d : StandardDirectory cfg) (a : ℕ) :
    ∃ e ∈ (d.lookup a false).1.theDirectory (cfg.getSet a), e.theAddress = a := by
  rw [StandardDirectory.lookup]
  set r := d.findOrCreateEntry a !false with hr
  obtain ⟨d₁, w⟩ := r
  have hw : w = ⟨cfg.getSet a, 0⟩ := (congrArg Prod.snd hr).trans rfl
  have hlen : 0 < (d₁.theDirectory (cfg.getSet a)).length := by
    rw [d₁.length_eq]
    exact cfg.assoc_pos
  have hblock : d₁.block w = some (d₁.theDirectory (cfg.getSet a))[0] := by
    rw [hw]
    exact List.getElem?_eq_getElem hlen
  dsimp only
  rw [hblock]
  dsimp only
  split
  · rename_i hx
    exact ⟨_, List.getElem_mem hlen, hx⟩
  · refine ⟨.new a, ?_, rfl⟩
    rw [hw, StandardDirectory.setEntry, StandardDirectory.theDirectory_setRow, Function.update_self]
    exact mem_set hlen _

/-- **A lookup in an empty directory leaves an entry without sharers behind.** -/
theorem exists_holds (cfg : DirectoryConfig) (a : ℕ) :
    ∃ e, Holds ((StandardDirectory.empty cfg).lookup a false).1 a e ∧
      e.theSharers.sharers = ∅ := by
  have hempty : StandardDirectory.All (fun e => e.theSharers.sharers = ∅)
      (StandardDirectory.empty cfg) := StandardDirectory.All.empty rfl
  have hall := hempty.lookup (fun _ => rfl) a false
  obtain ⟨x, hx, hxa⟩ := exists_mem_lookup (StandardDirectory.empty cfg) a
  have hsome : (((StandardDirectory.empty cfg).lookup a false).1.theDirectory
      (cfg.getSet a)).find? (fun e => e.theAddress = a) |>.isSome := by
    rw [find?_isSome]
    exact ⟨x, hx, decide_eq_true hxa⟩
  obtain ⟨e, he⟩ := Option.isSome_iff_exists.mp hsome
  exact ⟨e, holds_iff.mpr he, hall _ e (mem_of_find?_eq_some he)⟩

end Placement

/-! ### The import -/

section Import

variable {g : Geometry} {cfg : DirectoryConfig} {d : StandardDirectory cfg} {n : ℕ}

/-- A block before a checkpoint is loaded. -/
def blank (n : ℕ) : DirEntry := ⟨0, false, .reset n⟩

/-- What a functional entry is loaded as. -/
def importedEntry (n : ℕ) (e : BlockDirectoryEntry) : DirEntry := (blank n).assign e.getSerializer

/-- What is asserted by `init`. -/
structure Geometry.Accepted (g : Geometry) : Prop where
  sets_pos : 0 < g.theNumSets
  assoc_pos : 0 < g.theAssociativity
  blockSize_pos : 0 < g.theBlockSize
  blockSize : (g.theBlockSize - 1) &&& g.theBlockSize = 0
  bankInterleaving : (g.theBankInterleaving - 1) &&& g.theBankInterleaving = 0
  groupInterleaving : (g.theGroupInterleaving - 1) &&& g.theGroupInterleaving = 0
  accepted : g.theBankInterleaving * g.theBanks ≤ g.theGroupInterleaving

/-- **A functional directory and a bank over the same sets**, both with skewed sets, and with
one group. -/
structure SkewedPair (cfg : DirectoryConfig) (g : Geometry) : Prop where
  accepted : g.Accepted
  oneGroup : g.theGroups = 1
  skewSet : cfg.theSkewSet = true
  numSets : cfg.theNumSets = g.theTotalSets
  associativity : cfg.theAssociativity = g.theAssociativity
  blockSize : cfg.theBlockSize = g.theBlockSize

/-- **The bank of an address loads the set of the address where it looks it up**: the set that
the functional directory keeps the address in is the one that the bank of the address loads as
its local set of the address, and the bank has room for its sets. -/
structure Placed (cfg : DirectoryConfig) (g : Geometry) (a : ℕ) : Prop where
  globalSet : (g.skewedGlobalSets (g.skewedBank a) 0)[g.skewedSet a]? = some (cfg.getSet a)
  fits : (g.skewedGlobalSets (g.skewedBank a) 0).length ≤ g.theNumSets

/-- **The bank of an address finds the entry of the functional directory**, with the same
sharers, after it has loaded the checkpoint. -/
def Finds (g : Geometry) (n : ℕ) (d : StandardDirectory cfg) (a : ℕ) (e : BlockDirectoryEntry) :
    Prop :=
  ∃ sets, importDirectory g n (g.skewedBank a) 0 d.saveState = some sets ∧
    skewedLookup g sets a = some ⟨n, e.theSharers.sharers⟩

/-- A saved set is loaded into blocks that are as they were made. -/
theorem loadWays_replicate (x : DirEntry) (bs rest : List StdDirEntrySerializer) :
    loadWays (List.replicate bs.length x) (bs ++ rest) = some (bs.map x.assign, rest) := by
  induction bs with
  | nil => rfl
  | cons b bs ih =>
    rw [length_cons, replicate_succ, cons_append, loadWays, readAll]
    rw [loadWays] at ih
    simp only [readMap, Option.map_some, Option.bind_eq_bind, Option.bind_some, ih]
    rfl

/-- **The rows of a checkpoint** are the sets of the directory. -/
theorem entries_saveState (d : StandardDirectory cfg) :
    d.saveState.entries = ((List.range cfg.theNumSets).map fun i =>
      (d.theDirectory i).map BlockDirectoryEntry.getSerializer).flatten := by
  rw [StandardDirectory.saveState, DirectoryConfig.places]
  dsimp only
  rw [map_flatMap, flatMap_def]
  congr 2
  funext i
  rw [map_map]
  refine ext_getElem (by simp [d.length_eq]) fun way hway _ => ?_
  rw [List.getElem_map, List.getElem_range, List.getElem_map]
  have hlt : way < cfg.theAssociativity := by simpa using hway
  have hentry := StandardDirectory.block_eq_entry (d := d) (w := ⟨i, way⟩) hlt
  obtain ⟨_, h⟩ := List.getElem?_eq_some_iff.mp hentry
  exact congrArg _ h.symm

/-- The rows of a checkpoint are loaded into sets that are as they were made, or skipped. -/
theorem loadWays_row (ha : cfg.theAssociativity = g.theAssociativity) (s : ℕ)
    (ways : List DirEntry) (bs : List StdDirEntrySerializer)
    (h : ways = List.replicate g.theAssociativity (blank n)) :
    loadWays ways ((d.theDirectory s).map BlockDirectoryEntry.getSerializer ++ bs) =
      some ((d.theDirectory s).map (importedEntry n), bs) := by
  have hlen : g.theAssociativity =
      ((d.theDirectory s).map BlockDirectoryEntry.getSerializer).length := by
    rw [length_map, d.length_eq, ha]
  rw [h, hlen, loadWays_replicate, map_map]
  rfl

theorem skipWays_row (ha : cfg.theAssociativity = g.theAssociativity) (s : ℕ)
    (bs : List StdDirEntrySerializer) :
    skipWays g.theAssociativity
      ((d.theDirectory s).map BlockDirectoryEntry.getSerializer ++ bs) = some ((), bs) :=
  skipWays_append (by rw [length_map, d.length_eq, ha]) bs

/-- **What a bank has loaded**: its local sets are the sets of the functional directory that
belong to it, in their order, and the others are as they were made. -/
theorem importDirectory_spec (hp : SkewedPair cfg g) (hg : g.Defined) (d : StandardDirectory cfg)
    {b q : ℕ} (hfit : (g.skewedGlobalSets b q).length ≤ g.theNumSets) :
    ∃ sets, importDirectory g n b q d.saveState = some sets ∧
      (∀ j s, (g.skewedGlobalSets b q)[j]? = some s →
        sets j = (d.theDirectory s).map (importedEntry n)) ∧
      ∀ j, (g.skewedGlobalSets b q)[j]? = none →
        sets j = List.replicate g.theAssociativity (blank n) := by
  obtain ⟨sets, hload, hold, hnew⟩ := @loadSets_spec _ _
    (Geometry.belongs g.skewedBank g.skewedGroup g.theBlockSize b q) g.theNumSets
    (fun ways bs => loadWays ways bs) (skipWays g.theAssociativity)
    (fun s => (d.theDirectory s).map BlockDirectoryEntry.getSerializer)
    (fun s => (d.theDirectory s).map (importedEntry n)) _ (List.range g.theTotalSets)
    (fun s _ ways bs h => loadWays_row hp.associativity s ways bs h)
    (fun s _ bs => skipWays_row hp.associativity s bs) 0
    (stdDirectory g n).init (fun _ _ => rfl) (by rw [Nat.zero_add]; exact hfit)
  refine ⟨sets, ?_, fun j s hj => ?_, fun j hj => ?_⟩
  · rw [importDirectory, if_pos ⟨hg, hp.numSets, hp.associativity⟩, entries_saveState, hp.numSets]
    exact hload
  · have h := hnew j s hj
    rwa [Nat.zero_add] at h
  · refine (hold j (.inr ?_)).trans rfl
    rw [Nat.zero_add]
    exact List.getElem?_eq_none_iff.mp hj

/-- A bank without room for its sets, or with fields that are not defined, does not come to the
end of a checkpoint. -/
theorem importDirectory_eq_none (hp : SkewedPair cfg g) (d : StandardDirectory cfg) {b q : ℕ}
    (h : ¬(g.Defined ∧ (g.skewedGlobalSets b q).length ≤ g.theNumSets)) :
    importDirectory g n b q d.saveState = none := by
  rw [importDirectory]
  by_cases hg : g.Defined
  · rw [if_pos ⟨hg, hp.numSets, hp.associativity⟩, entries_saveState, hp.numSets]
    refine @loadSets_overflow _ _ _ _ _ _ _ (fun s => (d.theDirectory s).map (importedEntry n)) _ _
      (fun s _ ways bs h => loadWays_row hp.associativity s ways bs h)
      (fun s _ bs => skipWays_row hp.associativity s bs) _ _ (fun _ _ => rfl) ?_ (Nat.zero_le _)
    rw [Nat.zero_add]
    exact Nat.lt_of_not_le fun hle => h ⟨hg, hle⟩
  · rw [if_neg fun hc => hg hc.1]

/-- **Finding an entry in a loaded set.** -/
theorem lookup_importedEntry {l : List BlockDirectoryEntry}
    (h : ∀ e ∈ l, e.theAddress % 2 = 0) (a : ℕ) :
    Keyed.lookup DirEntry.tag (l.map (importedEntry n)) a =
      (l.find? fun e => e.theAddress = a).map (importedEntry n) := by
  induction l with
  | nil => rfl
  | cons e l ih =>
    have htail := ih fun x hx => h x (mem_cons_of_mem e hx)
    have htag : (importedEntry n e).tag = e.theAddress := by
      show e.theAddress - e.theAddress % 2 = e.theAddress
      rw [h e mem_cons_self, Nat.sub_zero]
    rw [Keyed.lookup] at htail ⊢
    rw [map_cons, find?_cons, find?_cons, htag, htail]
    by_cases he : e.theAddress = a
    · rw [beq_iff_eq.mpr he, decide_eq_true he]
      rfl
    · rw [beq_eq_false_iff_ne.mpr he, decide_eq_false he]

theorem state_importedEntry {e : BlockDirectoryEntry}
    (hn : ∀ c ∈ e.theSharers.sharers, c < n) (h64 : ∀ c ∈ e.theSharers.sharers, c < 64) :
    (importedEntry n e).state = ⟨n, e.theSharers.sharers⟩ := by
  have hs : ((Finset.range n).filter fun i => e.theSharers.getUInt64.testBit i = true) =
      e.theSharers.sharers := by
    ext i
    rw [Finset.mem_filter, Finset.mem_range, FastCMPCache.SharingVector.getUInt64,
      FastCMPCache.testBit_shiftIn, Bool.and_eq_true, decide_eq_true_eq, decide_eq_true_eq]
    exact ⟨fun h => h.2.2, fun h => ⟨hn i h, h64 i h, h⟩⟩
  exact congrArg (SimpleDirectoryState.mk n) hs

/-- **The address zero** is in the first set of the first bank. -/
theorem placed_zero (hp : SkewedPair cfg g)
    (hfit : (g.skewedGlobalSets (g.skewedBank 0) 0).length ≤ g.theNumSets) :
    Placed cfg g 0 := by
  refine ⟨?_, hfit⟩
  have hfold : fold g.skewShift 0 = 0 := by rw [fold, Nat.zero_shiftRight, Nat.zero_xor]
  have hbank : g.skewedBank 0 = 0 := by
    rw [Geometry.skewedBank, hfold, Geometry.getBank, Nat.zero_shiftRight, Nat.zero_and]
  have hgroup : g.skewedGroup 0 = 0 := by
    rw [Geometry.skewedGroup, hfold, Geometry.getGroup, Nat.zero_shiftRight, Nat.zero_and]
  have hset : g.skewedSet 0 = 0 := by
    rw [Geometry.skewedSet, hfold, Geometry.makeSet]
    simp
  have hget : cfg.getSet 0 = 0 := by
    rw [DirectoryConfig.getSet]
    simp
  have hpos : 0 < g.theTotalSets := by
    rw [← hp.numSets]
    exact cfg.sets_pos
  obtain ⟨t, ht⟩ := Nat.exists_eq_add_of_lt hpos
  rw [Nat.zero_add] at ht
  rw [hset, hget, hbank, Geometry.skewedGlobalSets, ht, range_succ_eq_map, filter_cons_of_pos]
  · rfl
  · rw [Geometry.belongs_iff, Nat.zero_mul]
    exact ⟨hbank, hgroup⟩

theorem theAddress_of_find? {l : List BlockDirectoryEntry} {a : ℕ} {e : BlockDirectoryEntry}
    (h : l.find? (fun e => e.theAddress = a) = some e) : e.theAddress = a := by
  simpa using find?_some h

theorem mod_two_of_dvd (hp : SkewedPair cfg g) (hsize : 1 < g.theBlockSize) {a : ℕ}
    (h : cfg.theBlockSize ∣ a) : a % 2 = 0 := by
  obtain ⟨o, ho⟩ := (Nat.and_sub_one_eq_zero_iff_isPowerOfTwo hp.accepted.blockSize_pos.ne').mp
    ((Nat.and_comm _ _).trans hp.accepted.blockSize)
  rw [hp.blockSize, ho] at h
  rw [ho] at hsize
  cases o with
  | zero => exact absurd hsize (lt_irrefl 1)
  | succ o => exact Nat.mod_eq_zero_of_dvd ((Dvd.intro_left _ (Nat.pow_succ ..).symm).trans h)

/-- **An entry is found in its bank exactly if its set was placed there.** -/
theorem finds_iff_placed (hp : SkewedPair cfg g) (hsize : 1 < g.theBlockSize)
    (hd : StandardDirectory.AllIn (Placement cfg n) d) {a : ℕ} {e : BlockDirectoryEntry}
    (he : Holds d a e) (h64 : ∀ c ∈ e.theSharers.sharers, c < 64) :
    Finds g n d a e ↔ g.Defined ∧ Placed cfg g a := by
  have hfind := holds_iff.mp he
  have hmem := mem_of_find?_eq_some hfind
  -- the addresses of blocks are even, and they are their own tags
  have heven : ∀ s, ∀ x ∈ d.theDirectory s, x.theAddress % 2 = 0 := fun s x hx =>
    mod_two_of_dvd hp hsize (hd s x hx).aligned
  have htag : g.blockAddress a = a := by
    have hdvd : g.theBlockSize ∣ a := by
      rw [← theAddress_of_find? hfind, ← hp.blockSize]
      exact (hd _ e hmem).aligned
    rw [Geometry.blockAddress, Nat.mod_eq_zero_of_dvd hdvd, Nat.sub_zero]
  constructor
  · rintro ⟨sets, hload, hlookup⟩
    have hfit : g.Defined ∧ (g.skewedGlobalSets (g.skewedBank a) 0).length ≤ g.theNumSets := by
      by_contra hc
      rw [importDirectory_eq_none hp d hc] at hload
      cases hload
    obtain ⟨sets', hload', hnew, hold⟩ := importDirectory_spec (n := n) hp hfit.1 d hfit.2
    cases hload.symm.trans hload'
    refine ⟨hfit.1, ?_⟩
    rcases Nat.eq_zero_or_pos a with rfl | hpos
    · exact placed_zero hp hfit.2
    rw [skewedLookup, htag] at hlookup
    refine ⟨?_, hfit.2⟩
    cases hget : (g.skewedGlobalSets (g.skewedBank a) 0)[g.skewedSet a]? with
    | none =>
      -- no block with another tag than zero is found in a set that was not loaded
      have hne : ((blank n).tag == a) = false := beq_eq_false_iff_ne.mpr hpos.ne
      rw [hold _ hget, Keyed.lookup, find?_replicate_of_neg (by simp [hne])] at hlookup
      cases hlookup
    | some s =>
      rw [hnew _ s hget, lookup_importedEntry (heven s)] at hlookup
      cases hx : (d.theDirectory s).find? fun x => x.theAddress = a with
      | none =>
        rw [hx] at hlookup
        cases hlookup
      | some x =>
        have hxa := theAddress_of_find? hx
        have hhome := (hd s x (mem_of_find?_eq_some hx)).isHome
        rw [hxa] at hhome
        rw [hhome.resolve_left (Nat.pos_iff_ne_zero.mp hpos)]
  · rintro ⟨hg, hplaced⟩
    obtain ⟨sets, hload, hnew, -⟩ := importDirectory_spec (n := n) hp hg d hplaced.fits
    refine ⟨sets, hload, ?_⟩
    rw [skewedLookup, htag, hnew _ _ hplaced.globalSet, lookup_importedEntry (heven _), hfind,
      Option.map_some, Option.map_some, state_importedEntry (hd _ e hmem).sharers h64]

end Import

/-! ### Powers of two -/

section Widths

/-- The widths of the fields of an address: the offset in the block, the index below the bank,
the bank, and the whole index of a bank. -/
structure SkewedWidths (cfg : DirectoryConfig) (g : Geometry) (o l k n : ℕ) : Prop where
  blockSize : g.theBlockSize = 2 ^ o
  bankInterleaving : g.theBankInterleaving.log2 = o + l
  banks : g.theBanks = 2 ^ k
  sets : g.theNumSets = 2 ^ n
  groups : g.theGroups = 2 ^ 0
  low : l ≤ n
  skew : n + k + o ≤ 34
  skewSet : cfg.theSkewSet = true
  interleaving : cfg.theSpecialInterleaving = false
  numSets : cfg.theNumSets = 2 ^ (n + k)
  cfgBlockSize : cfg.theBlockSize = 2 ^ o

variable {g : Geometry} {cfg : DirectoryConfig} {o l k n : ℕ} (hw : SkewedWidths cfg g o l k n)

include hw

theorem SkewedWidths.totalSets : g.theTotalSets = 2 ^ (n + k) := by
  rw [Geometry.theTotalSets, hw.sets, hw.banks, hw.groups, ← Nat.pow_add, ← Nat.pow_add,
    Nat.add_zero]

theorem SkewedWidths.skewShift_eq : g.skewShift = 34 - (n + k + o) := by
  rw [Geometry.skewShift, hw.sets, hw.banks, hw.blockSize, Nat.log2_two_pow, Nat.log2_two_pow,
    Nat.log2_two_pow]

theorem SkewedWidths.skewedBank_eq (x : ℕ) :
    g.skewedBank (x * 2 ^ o) = field l k (fold g.skewShift x) := by
  rw [Geometry.skewedBank, Geometry.getBank, hw.bankInterleaving, hw.banks,
    Nat.and_two_pow_sub_one_eq_mod, Nat.shiftRight_eq_div_pow, Nat.pow_add,
    ← Nat.div_div_eq_div_mul, fold_mul_two_pow_div]
  rfl

theorem SkewedWidths.skewedGroup_eq (a : ℕ) : g.skewedGroup a = 0 := by
  rw [Geometry.skewedGroup, Geometry.getGroup, hw.groups]
  exact Nat.and_zero _

theorem SkewedWidths.skewedSet_eq (x : ℕ) :
    g.skewedSet (x * 2 ^ o) = removeField l k (fold g.skewShift x) % 2 ^ n := by
  have hlow : g.lowBits = l := by
    rw [Geometry.lowBits, hw.bankInterleaving, hw.blockSize, Nat.log2_two_pow,
      Nat.add_sub_cancel_left]
  have hmid : g.midBits + l ≤ n := by
    have := hw.low
    rw [Geometry.midBits, hlow, hw.sets, Nat.log2_two_pow]
    split <;> omega
  have hhigh : l + g.midBits + g.highBits = n := by
    rw [Geometry.highBits, hlow, hw.sets, Nat.log2_two_pow]
    omega
  rw [Geometry.skewedSet, Geometry.makeSet_eq_of_bits hw.blockSize hw.banks hw.groups hlow rfl rfl,
    fold_mul_two_pow_div, hhigh, removeField_zero]

/-- **The functional set** is the folded block number. -/
theorem SkewedWidths.getSet_eq (x : ℕ) :
    cfg.getSet (x * 2 ^ o) = fold g.skewShift x % 2 ^ (n + k) := by
  have hskew := hw.skew
  rw [DirectoryConfig.getSet, hw.interleaving, hw.skewSet, DirectoryConfig.theSetMask, hw.numSets,
    Nat.and_two_pow_sub_one_eq_mod, DirectoryConfig.theSkewShift, DirectoryConfig.theSetShift,
    hw.numSets, hw.cfgBlockSize, Nat.log2_two_pow, Nat.log2_two_pow, hw.skewShift_eq]
  have hshift : (x * 2 ^ o) >>> o = x := by
    rw [Nat.shiftRight_eq_div_pow, Nat.mul_div_cancel _ (Nat.two_pow_pos o)]
  simp only [Bool.false_eq_true, if_false, if_true]
  rw [fold, show 34 - (n + k) = o + (34 - (n + k + o)) by omega, Nat.shiftRight_add, hshift]

theorem SkewedWidths.belongs_iff {b s : ℕ} :
    Geometry.belongs g.skewedBank g.skewedGroup g.theBlockSize b 0 s = true ↔
      field l k (fold g.skewShift s) = b := by
  rw [Geometry.belongs_iff, hw.skewedGroup_eq, hw.blockSize, hw.skewedBank_eq]
  exact and_iff_left rfl

/-- **If the second folding leaves the bank bits alone**, every address is placed in its
bank. -/
theorem SkewedWidths.placed (hsame : ∀ s < 2 ^ (n + k),
    field l k (fold g.skewShift s) = field l k s) (x : ℕ) :
    Placed cfg g (x * 2 ^ o) := by
  set y := fold g.skewShift x with hy
  have hsets : g.skewedGlobalSets (g.skewedBank (x * 2 ^ o)) 0 =
      (List.range (2 ^ (n + k))).filter fun s => field l k s = field l k y := by
    rw [Geometry.skewedGlobalSets, hw.totalSets]
    refine filter_congr fun s hs => ?_
    rw [Bool.eq_iff_iff, hw.belongs_iff, hw.skewedBank_eq, hsame s (mem_range.mp hs),
      decide_eq_true_eq]
  have hmap := map_filter_field (field_lt l k y) hw.low
  constructor
  · have hget := getElem?_filter_range hmap (x := y % 2 ^ (n + k))
      (Nat.mod_lt _ (Nat.two_pow_pos _))
      (decide_eq_true (field_mod (Nat.add_le_add_right hw.low k)))
    rw [hsets, hw.skewedSet_eq, hw.getSet_eq, ← removeField_mod hw.low]
    exact hget
  · have hlen := congrArg List.length hmap
    rw [length_map, length_range] at hlen
    rw [hsets, hw.sets, hlen]

/-- **Where every address is placed**: there is a single bank, or the digits that are folded
into a set number end below the bank bits. -/
theorem SkewedWidths.forall_placed_iff :
    (∀ x, Placed cfg g (x * 2 ^ o)) ↔ k = 0 ∨ 2 * (n + k + o) ≤ 34 + (o + l) := by
  have hskew := hw.skew
  have hshift := hw.skewShift_eq
  constructor
  · intro hall
    by_contra hc
    rw [not_or] at hc
    rcases Nat.eq_zero_or_pos g.skewShift with hS | hS
    · -- all addresses are folded to zero, and all sets are in the first bank
      have hzero : ∀ x, fold g.skewShift x = 0 := fun x => by
        rw [hS, fold, Nat.shiftRight_zero, Nat.xor_self]
      have hsets : g.skewedGlobalSets (g.skewedBank (0 * 2 ^ o)) 0 =
          List.range g.theTotalSets := by
        refine filter_eq_self.mpr fun s _ => ?_
        rw [hw.belongs_iff, hw.skewedBank_eq, hzero, hzero]
      have hfits := (hall 0).fits
      rw [hsets, length_range, hw.totalSets, hw.sets] at hfits
      have := (Nat.pow_le_pow_iff_right Nat.one_lt_two).mp hfits
      omega
    · -- a set number with a single digit, which is folded onto the lowest bank bit
      have hlt : 2 ^ (g.skewShift + l) < 2 ^ (n + k) :=
        Nat.pow_lt_pow_right Nat.one_lt_two (by omega)
      obtain ⟨x, hx⟩ := exists_fold_mod hS hlt
      have hmem := mem_of_getElem? (hall x).globalSet
      rw [Geometry.skewedGlobalSets, mem_filter, hw.belongs_iff, hw.getSet_eq,
        hw.skewedBank_eq, ← field_mod (x := fold _ x) (Nat.add_le_add_right hw.low k),
        hx] at hmem
      have hbit := congrArg (fun z => z.testBit 0) hmem.2
      simp only [testBit_field, decide_eq_true (Nat.pos_of_ne_zero hc.1), Bool.true_and,
        Nat.add_zero, testBit_fold, Nat.testBit_two_pow_self] at hbit
      revert hbit
      cases (2 ^ (g.skewShift + l)).testBit l <;> decide
  · rintro hor
    refine hw.placed fun s hs => ?_
    refine Nat.eq_of_testBit_eq fun j => ?_
    rw [testBit_field, testBit_field, testBit_fold]
    rcases Nat.lt_or_ge j k with hj | hj
    · have hout : s.testBit (g.skewShift + (l + j)) = false :=
        Nat.testBit_lt_two_pow (hs.trans_le (Nat.pow_le_pow_right Nat.two_pos (by omega)))
      rw [hout, Bool.xor_false]
    · rw [decide_eq_false (by omega : ¬j < k), Bool.false_and, Bool.false_and]

end Widths

/-! ### Whole directories -/

section All

variable {g : Geometry} {cfg : DirectoryConfig} {d : StandardDirectory cfg} {n : ℕ}

/-- **The import of skewed directories**: whatever a functional system with `n` caches has done,
every entry that its directory holds, with sharers that fit in the word that is saved, is found
in the bank that its address selects, with the same sharers. -/
def FindsAll (cfg : DirectoryConfig) (g : Geometry) (n : ℕ) : Prop :=
  ∀ d : StandardDirectory cfg,
    (StandardDirectory.machine cfg).ReachableWhen (fun _ ev => callOf cfg n ev) d →
    ∀ a e, Holds d a e → (∀ c ∈ e.theSharers.sharers, c < 64) → Finds g n d a e

/-- Tags are even, so only addresses whose blocks are even are found. -/
theorem mod_two_of_finds (hp : SkewedPair cfg g) {a : ℕ} {e : BlockDirectoryEntry}
    (h : Finds g n d a e) : g.blockAddress a % 2 = 0 := by
  obtain ⟨sets, hload, hlookup⟩ := h
  have hfit : g.Defined ∧ (g.skewedGlobalSets (g.skewedBank a) 0).length ≤ g.theNumSets := by
    by_contra hc
    rw [importDirectory_eq_none hp d hc] at hload
    cases hload
  obtain ⟨sets', hload', hnew, hold⟩ := importDirectory_spec (n := n) hp hfit.1 d hfit.2
  cases hload.symm.trans hload'
  rw [skewedLookup, Option.map_eq_some_iff] at hlookup
  obtain ⟨x, hx, -⟩ := hlookup
  rw [← Keyed.key_of_lookup hx]
  have hmem := Keyed.mem_of_lookup hx
  cases hget : (g.skewedGlobalSets (g.skewedBank a) 0)[g.skewedSet a]? with
  | none =>
    rw [hold _ hget] at hmem
    rw [eq_of_mem_replicate hmem]
    rfl
  | some s =>
    rw [hnew _ s hget] at hmem
    obtain ⟨y, -, rfl⟩ := mem_map.mp hmem
    show (y.theAddress - y.theAddress % 2) % 2 = 0
    omega

/-- **All entries are found exactly if all addresses are placed.** -/
theorem findsAll_iff (hp : SkewedPair cfg g) (n : ℕ) : FindsAll cfg g n ↔
    1 < g.theBlockSize ∧ g.Defined ∧ ∀ a, g.theBlockSize ∣ a → Placed cfg g a := by
  constructor
  · intro hall
    have hfinds : ∀ a, cfg.theBlockSize ∣ a → ∃ d : StandardDirectory cfg, ∃ e,
        StandardDirectory.AllIn (Placement cfg n) d ∧ Holds d a e ∧
        (∀ c ∈ e.theSharers.sharers, c < 64) ∧ Finds g n d a e := fun a ha => by
      obtain ⟨e, he, hempty⟩ := exists_holds cfg a
      have hinit : (StandardDirectory.machine cfg).ReachableWhen (fun _ ev => callOf cfg n ev)
          (StandardDirectory.empty cfg) := .init
      have hd := hinit.step (e := .lookup a false) (show callOf cfg n (.lookup a false) from ha) rfl
      have h64 : ∀ c ∈ e.theSharers.sharers, c < 64 := fun c hc => by
        rw [hempty] at hc
        exact absurd hc (Finset.notMem_empty c)
      exact ⟨_, e, placement_of_reachable hd, he, h64, hall _ hd a e he h64⟩
    have hsize : 1 < g.theBlockSize := by
      by_contra hc
      have hone : g.theBlockSize = 1 := by
        have := hp.accepted.blockSize_pos
        omega
      obtain ⟨d, e, -, -, -, hf⟩ := hfinds 1 (by rw [hp.blockSize, hone])
      have := mod_two_of_finds hp hf
      rw [Geometry.blockAddress, hone] at this
      cases this
    have hplaced : ∀ a, cfg.theBlockSize ∣ a → g.Defined ∧ Placed cfg g a := fun a ha => by
      obtain ⟨d, e, hd, he, h64, hf⟩ := hfinds a ha
      exact (finds_iff_placed hp hsize hd he h64).mp hf
    exact ⟨hsize, (hplaced 0 (Nat.dvd_zero _)).1, fun a ha =>
      (hplaced a (by rwa [hp.blockSize])).2⟩
  · rintro ⟨hsize, hg, hplaced⟩ d hd a e he h64
    have hin := placement_of_reachable hd
    have hfind := holds_iff.mp he
    refine (finds_iff_placed hp hsize hin he h64).mpr ⟨hg, hplaced a ?_⟩
    rw [← theAddress_of_find? hfind, ← hp.blockSize]
    exact (hin _ e (mem_of_find?_eq_some hfind)).aligned

/-- The widths of a pair whose numbers of sets and banks are powers of two. -/
theorem SkewedPair.widths (hp : SkewedPair cfg g) (hspecial : cfg.theSpecialInterleaving = false)
    (hsets : g.theNumSets.isPowerOfTwo) (hbanks : g.theBanks.isPowerOfTwo) (hg : g.Defined) :
    SkewedWidths cfg g g.theBlockSize.log2
      (g.theBankInterleaving.log2 - g.theBlockSize.log2) g.theBanks.log2 g.theNumSets.log2 := by
  have hlog : ∀ {m : ℕ}, m.isPowerOfTwo → m = 2 ^ m.log2 := by
    rintro m ⟨e, rfl⟩
    rw [Nat.log2_two_pow]
  have hblock := hlog ((Nat.and_sub_one_eq_zero_iff_isPowerOfTwo
    hp.accepted.blockSize_pos.ne').mp ((Nat.and_comm _ _).trans hp.accepted.blockSize))
  have hlow := hg.lowBits
  have hmid := hg.midBits
  exact {
    blockSize := hblock
    bankInterleaving := by omega
    banks := hlog hbanks
    sets := hlog hsets
    groups := hp.oneGroup
    low := by omega
    skew := hg.skewShift
    skewSet := hp.skewSet
    interleaving := hspecial
    numSets := by
      rw [hp.numSets, Geometry.theTotalSets, hp.oneGroup, Nat.mul_one, Nat.pow_add,
        ← hlog hsets, ← hlog hbanks]
    cfgBlockSize := hp.blockSize.trans hblock }

/-- **Powers of two**: all entries are found exactly if the digits that are folded in end below
the bank bits. -/
theorem findsAll_iff_of_widths (hp : SkewedPair cfg g) (n : ℕ)
    (hspecial : cfg.theSpecialInterleaving = false) (hsets : g.theNumSets.isPowerOfTwo)
    (hbanks : g.theBanks.isPowerOfTwo) : FindsAll cfg g n ↔
      1 < g.theBlockSize ∧ g.Defined ∧ (g.theBanks = 1 ∨
        2 * (g.theNumSets.log2 + g.theBanks.log2 + g.theBlockSize.log2) ≤
          34 + g.theBankInterleaving.log2) := by
  rw [findsAll_iff hp n]
  refine and_congr_right fun _ => and_congr_right fun hg => ?_
  have hw := hp.widths hspecial hsets hbanks hg
  have hone : g.theBanks = 1 ↔ g.theBanks.log2 = 0 := by
    constructor
    · intro h
      rw [h]
      rfl
    · intro h
      rw [hw.banks, h]
      rfl
  have hlow : g.theBlockSize.log2 + (g.theBankInterleaving.log2 - g.theBlockSize.log2) =
      g.theBankInterleaving.log2 := Nat.add_sub_cancel' hg.lowBits
  have hiff := hw.forall_placed_iff
  rw [hlow] at hiff
  rw [hone, ← hiff]
  constructor
  · intro h x
    refine h _ ?_
    rw [← hw.blockSize]
    exact Dvd.intro_left x rfl
  · rintro h a ⟨x, rfl⟩
    have hx := h x
    rwa [← hw.blockSize, Nat.mul_comm] at hx

/-- **When the skewed directory of the functional simulator is imported without loss.** For
every geometry, the blocks have more than one byte, the shifts of the bank are defined, and
every address is placed in its bank. If the numbers of sets and banks are powers of two, and the
functional directory has no interleaving of its own, the latter means that there is one bank, or
that twice the bits of offset, index and bank do not exceed 34 and those of the bank
interleaving. -/
theorem importDirectory_finds_iff (hp : SkewedPair cfg g) (n : ℕ) :
    (FindsAll cfg g n ↔
      1 < g.theBlockSize ∧ g.Defined ∧ ∀ a, g.theBlockSize ∣ a → Placed cfg g a) ∧
    (cfg.theSpecialInterleaving = false → g.theNumSets.isPowerOfTwo → g.theBanks.isPowerOfTwo →
      (FindsAll cfg g n ↔ 1 < g.theBlockSize ∧ g.Defined ∧ (g.theBanks = 1 ∨
        2 * (g.theNumSets.log2 + g.theBanks.log2 + g.theBlockSize.log2) ≤
          34 + g.theBankInterleaving.log2))) :=
  ⟨findsAll_iff hp n, fun hspecial hsets hbanks => findsAll_iff_of_widths hp n hspecial hsets
    hbanks⟩

/-- A bank of the geometry that the simulators are configured with by default: blocks of 64
bytes, and banks that are interleaved by the block. -/
def banked (numSets banks : ℕ) : Geometry where
  theNumSets := numSets
  theAssociativity := 1
  theBlockSize := 64
  theBanks := banks
  theBankInterleaving := 64
  theGroupInterleaving := 64 * banks

/-- The functional directory of such banks. -/
def skewedDirectory (numSets : ℕ) (h : 0 < numSets) : DirectoryConfig where
  theNumSets := numSets
  theAssociativity := 1
  theBlockSize := 64
  theSkewSet := true
  theSpecialInterleaving := false
  theReplPolicy := .lruRepl
  sets_pos := h
  assoc_pos := Nat.one_pos

theorem skewedPair_small : SkewedPair (skewedDirectory 512 (by decide)) (banked 256 2) where
  accepted := ⟨by decide, by decide, by decide, by decide, by decide, by decide, by decide⟩
  oneGroup := rfl
  skewSet := rfl
  numSets := rfl
  associativity := rfl
  blockSize := rfl

/-- A small directory is imported without loss. -/
theorem importDirectory_finds_small :
    FindsAll (skewedDirectory 512 (by decide)) (banked 256 2) 16 :=
  ((importDirectory_finds_iff skewedPair_small 16).2 rfl ⟨8, rfl⟩ ⟨1, rfl⟩).mpr
    ⟨by decide, by decide, .inr (by decide)⟩

/-- A directory whose index is too wide for two banks. -/
def wideDirectory : DirectoryConfig := skewedDirectory 32768 (by decide)

theorem skewedPair_wide : SkewedPair wideDirectory (banked 16384 2) where
  accepted := ⟨by decide, by decide, by decide, by decide, by decide, by decide, by decide⟩
  oneGroup := rfl
  skewSet := rfl
  numSets := rfl
  associativity := rfl
  blockSize := rfl

/-- **A block with a sharer that is not found.** The set of the address 524352 goes to the
second bank, although the address selects the first one. -/
theorem importDirectory_loses : ¬FindsAll wideDirectory (banked 16384 2) 16 := by
  intro hall
  obtain ⟨d, hd⟩ : ∃ d : StandardDirectory wideDirectory,
      ((StandardDirectory.empty wideDirectory).lookup 524352 false).1.addSharer 3 ⟨8192, 0⟩ =
        .ok d := ⟨_, rfl⟩
  have hlookup : callOf wideDirectory 16 (.lookup 524352 false) := show 64 ∣ 524352 by decide
  have hadd : callOf wideDirectory 16 (.addSharer 3 ⟨8192, 0⟩) := show 3 < 16 by decide
  have hinit : (StandardDirectory.machine wideDirectory).ReachableWhen
      (fun _ ev => callOf wideDirectory 16 ev) (StandardDirectory.empty wideDirectory) := .init
  have hreach := (hinit.step hlookup rfl).step hadd hd
  obtain ⟨e, he, hsharers⟩ : ∃ e, Holds d 524352 e ∧ e.theSharers.sharers = {3} := by
    cases hd
    exact ⟨_, holds_iff.mpr rfl, rfl⟩
  have h64 : ∀ c ∈ e.theSharers.sharers, c < 64 := by
    rw [hsharers]
    decide
  have hplaced := (finds_iff_placed skewedPair_wide (by decide) (placement_of_reachable hreach)
    he h64).mp (hall d hreach _ e he h64)
  -- the loader folds the number of the set once more
  have hmem := mem_of_getElem? hplaced.2.globalSet
  rw [Geometry.skewedGlobalSets, mem_filter, Geometry.belongs_iff] at hmem
  have hbank : (banked 16384 2).skewedBank (wideDirectory.getSet 524352 * 64) ≠
      (banked 16384 2).skewedBank 524352 := by decide
  exact hbank hmem.2.1

end All

end CMPCache

end Flexus
