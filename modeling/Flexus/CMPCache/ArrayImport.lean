import Flexus.Cache.Checkpoint
import Flexus.CMPCache.Interleaving

/-!
# Importing a functional checkpoint into a banked array

The array of a timing bank (`components/CMPCache/StdArray.hpp`) loads the binary checkpoint
that the functional cache has written (`saveState` of `components/FastCMPCache/StdCache.hpp`,
which is the one of the private functional caches in its binary format). A set is read from the
least recently used block on into the ways from the last one down, and the way numbers become
the order of use (`loadState` of `SetLRU`).

In a regular geometry every valid block ends up in exactly one bank, the one that its address
selects, in the set in which this bank looks it up, and the blocks of a set keep their order of
use (`Flexus.CMPCache.importArray_spec`).
-/

namespace Flexus

open List

namespace CMPCache

/-! ### Loading -/

/-- `char2State`; the source asserts on other characters. -/
def char2State : Char → Option CacheState
  | 'M' => some .modified
  | 'O' => some .owned
  | 'E' => some .exclusive
  | 'S' => some .shared
  | 'I' => some .invalid
  | 'P' => some .invalidPresent
  | 'F' => some .forward
  | _ => none

/-- A block as it is read. -/
def readBlock (b : BlockSerializer) : Option ArrayBlock :=
  (char2State b.state).map fun s => ⟨b.tag, s⟩

/-- **`loadState` of `SetLRU`**: the ways are read in descending order, and every way is put at
the place of its number in the order of use. -/
def ArraySet.loadState (n : ℕ) (_s : ArraySet) : Lib.Reader BlockSerializer ArraySet := fun bs =>
  match Lib.readAll (fun _ => Lib.readMap readBlock) (List.range n).reverse bs with
  | some (blocks, bs) => some (⟨blocks.reverse, List.range n⟩, bs)
  | none => none

/-- **`loadState` of `StdArray`**, in the given bank of the given group: the geometry is
asserted. -/
def importArray (g : Geometry) (bank group : ℕ) (sets : ℕ → ArraySet) (a : Archive) :
    Option (ℕ → ArraySet) :=
  if a.setCount = g.theTotalSets ∧ a.associativity = g.theAssociativity then
    loadSets (Geometry.belongs g.getBank g.getGroup g.theBlockSize bank group) g.theNumSets
      (ArraySet.loadState g.theAssociativity) (skipWays g.theAssociativity)
      (List.range g.theTotalSets) 0 sets a.blocks
  else none

/-! ### What a set holds -/

/-- The blocks of a set in their order of use, least recently used first. -/
def ArraySet.order (s : ArraySet) : List ArrayBlock :=
  s.theMRUOrder.reverse.filterMap fun i => s.theBlocks[i]?

/-- The valid ones. -/
def ArraySet.validOrder (s : ArraySet) : List ArrayBlock :=
  s.order.filter fun b => b.state ≠ .invalid

/-- The state a functional state is loaded as. -/
def importedState : CoherenceState → CacheState
  | .modified => .modified
  | .owned => .owned
  | .exclusive => .exclusive
  | .shared => .shared
  | _ => .invalid

/-- The valid blocks of a functional set, in the order of their use. -/
def validEntries (l : BlockSet) : List ArrayBlock :=
  (l.filter fun e => e.state ≠ .invalid).map fun e => ⟨e.tag, importedState e.state⟩

variable {f : Flexus.Geometry} {g : Geometry} {l : BlockSet} {n : ℕ}

theorem char2State_saveChar {s : CoherenceState} {k : Char} (h : StdCache.saveChar s = some k) :
    char2State k = some (importedState s) ∧ (importedState s = .invalid ↔ s = .invalid) := by
  cases s with
  | migratory => cases h
  | _ =>
    cases h
    exact ⟨rfl, by decide⟩

/-- What is loaded for a set: the entries, and invalid blocks that fill it up. -/
def loadedBlocks (n : ℕ) (l : BlockSet) : List ArrayBlock :=
  l.map (fun e => ⟨e.tag, importedState e.state⟩) ++
    List.replicate (n - l.length) ⟨0, .invalid⟩

/-- **A saved set is read back**, block by block. -/
theorem loaded_of_saveBinarySet {bs : List BlockSerializer}
    (h : StdCache.saveBinarySet f l = some bs) :
    List.Forall₂ (fun b a => readBlock b = some a) bs (loadedBlocks f.theAssoc l) ∧
      ∀ e ∈ l, importedState e.state = .invalid ↔ e.state = .invalid := by
  rw [StdCache.saveBinarySet] at h
  cases hm : l.mapM fun e => (StdCache.saveChar e.state).bind fun s =>
      some (⟨e.tag, s⟩ : BlockSerializer) with
  | none =>
    simp only [bind, pure, hm, Option.bind_none] at h
    cases h
  | some entries =>
    simp only [bind, pure, hm, Option.bind_some] at h
    cases h
    have hall := Lib.forall₂_of_mapM hm
    have hsave : ∀ {e : BlockEntry} {b : BlockSerializer},
        ((StdCache.saveChar e.state).bind fun s => some (⟨e.tag, s⟩ : BlockSerializer)) = some b →
        ∃ k, StdCache.saveChar e.state = some k ∧ b = ⟨e.tag, k⟩ := by
      intro e b hb
      obtain ⟨k, hk, hb⟩ := Option.bind_eq_some_iff.mp hb
      exact ⟨k, hk, (Option.some.inj hb).symm⟩
    constructor
    · refine rel_append ?_ ?_
      · rw [forall₂_map_right_iff]
        refine hall.flip.imp fun b e hb => ?_
        obtain ⟨k, hk, rfl⟩ := hsave hb
        rw [readBlock, (char2State_saveChar hk).1]
        rfl
      · rw [forall₂_iff_get]
        refine ⟨by simp, fun i hi hi' => ?_⟩
        simp [readBlock, char2State]
    · intro e he
      obtain ⟨i, hi, rfl⟩ := getElem_of_mem he
      obtain ⟨k, hk, -⟩ := hsave (hall.get (by simpa using hi) (by
        rw [← hall.length_eq]
        simpa using hi))
      exact (char2State_saveChar hk).2

theorem length_loadedBlocks (h : l.length ≤ n) : (loadedBlocks n l).length = n := by
  rw [loadedBlocks, length_append, length_map, length_replicate]
  omega

theorem filterMap_getElem? {α : Type} (xs : List α) :
    (List.range xs.length).filterMap (fun i => xs[i]?) = xs := by
  induction xs with
  | nil => rfl
  | cons x xs ih =>
    rw [length_cons, range_succ_eq_map, filterMap_cons, filterMap_map]
    exact congrArg (x :: ·) ih

/-- **A set after a load** holds what was saved, in the order in which it was saved. -/
theorem order_mk_reverse {blocks : List ArrayBlock} (h : blocks.length = n) :
    ArraySet.order ⟨blocks.reverse, List.range n⟩ = blocks := by
  have hlen : n = blocks.reverse.length := by rw [length_reverse, h]
  rw [ArraySet.order]
  dsimp only
  rw [filterMap_reverse, hlen, filterMap_getElem?, reverse_reverse]

theorem filter_loadedBlocks
    (h : ∀ e ∈ l, importedState e.state = .invalid ↔ e.state = .invalid) :
    (loadedBlocks n l).filter (fun b => b.state ≠ .invalid) = validEntries l := by
  have hpad : (List.replicate (n - l.length) (⟨0, .invalid⟩ : ArrayBlock)).filter
      (fun b => b.state ≠ .invalid) = [] := by
    rw [filter_eq_nil_iff]
    intro b hb
    rw [eq_of_mem_replicate hb]
    decide
  rw [loadedBlocks, filter_append, hpad, append_nil, filter_map, validEntries]
  refine congrArg _ (filter_congr fun e he => ?_)
  exact decide_eq_decide.mpr (not_congr (h e he))

/-! ### Looking a block up -/

/-- The state that a set reports for a block address. -/
def ArraySet.lookup (s : ArraySet) (a : ℕ) : CacheState :=
  match s.wayOf a with
  | none => .invalid
  | some i => s.stateAt i

theorem stdArray_state (sets : ℕ → ArraySet) (addr : ℕ) :
    (stdArray g).state sets addr = (sets (g.makeSet addr)).lookup (g.blockAddress addr) := rfl

/-- **A lookup in a set** finds a valid block with the address, if there is one. -/
theorem lookup_spec (s : ArraySet) (a : ℕ) :
    (∃ b ∈ s.theBlocks, b.tag = a ∧ b.state ≠ .invalid ∧ s.lookup a = b.state) ∨
      (s.lookup a = .invalid ∧ ∀ b ∈ s.theBlocks, b.tag = a → b.state = .invalid) := by
  rw [ArraySet.lookup, ArraySet.wayOf]
  cases hf : s.theBlocks.findIdx? fun b => b.tag == a && b.state != .invalid with
  | some i =>
    obtain ⟨hi, hp, -⟩ := findIdx?_eq_some_iff_getElem.mp hf
    rw [Bool.and_eq_true, beq_iff_eq, bne_iff_ne] at hp
    refine .inl ⟨s.theBlocks[i], getElem_mem hi, hp.1, hp.2, ?_⟩
    simp [ArraySet.stateAt, getElem?_eq_getElem hi]
  | none =>
    have hnone : ∀ b ∈ s.theBlocks, b.tag = a → b.state = .invalid := by
      intro b hb ht
      have := findIdx?_eq_none_iff.mp hf b hb
      rw [ht, beq_self_eq_true, Bool.true_and, bne_eq_false_iff_eq] at this
      exact this
    refine .inr ⟨?_, hnone⟩
    dsimp only
    split
    · rfl
    · rename_i i hi
      have hmem := mem_of_getLast? hi
      rw [mem_filter, beq_iff_eq] at hmem
      rw [ArraySet.stateAt]
      cases hb : s.theBlocks[i]? with
      | none => rfl
      | some b =>
        rw [hb] at hmem
        exact hnone b (mem_of_getElem? hb) (Option.some.inj hmem.2)

/-- **A lookup in a loaded set** finds the state the block had when it was saved. -/
theorem lookup_of_validOrder {s : ArraySet} {a : ℕ} (hs : ∀ b, b ∈ s.order ↔ b ∈ s.theBlocks)
    (hv : s.validOrder = validEntries l) (hn : (l.map BlockEntry.tag).Nodup)
    (hst : ∀ e ∈ l, importedState e.state = .invalid ↔ e.state = .invalid) :
    s.lookup a = importedState (l.stateOf a) := by
  have hvalid : ∀ b, (b ∈ s.theBlocks ∧ b.state ≠ .invalid) ↔
      ∃ e ∈ l, e.state ≠ .invalid ∧ b = ⟨e.tag, importedState e.state⟩ := by
    intro b
    have hmem : b ∈ s.validOrder ↔ b ∈ validEntries l := by rw [hv]
    rw [ArraySet.validOrder, mem_filter, hs, decide_eq_true_eq, validEntries, mem_map] at hmem
    rw [hmem]
    constructor
    · rintro ⟨e, he, rfl⟩
      rw [mem_filter, decide_eq_true_eq] at he
      exact ⟨e, he.1, he.2, rfl⟩
    · rintro ⟨e, he, hne, rfl⟩
      exact ⟨e, mem_filter.mpr ⟨he, decide_eq_true hne⟩, rfl⟩
  rcases lookup_spec s a with ⟨b, hb, ht, hne, heq⟩ | ⟨heq, hnone⟩
  · rw [heq]
    obtain ⟨e, he, -, rfl⟩ := (hvalid b).mp ⟨hb, hne⟩
    have ht : e.tag = a := ht
    rw [← ht, BlockSet.stateOf_of_mem hn he]
  · rw [heq]
    by_cases hex : ∃ e ∈ l, e.tag = a
    · obtain ⟨e, he, rfl⟩ := hex
      rw [BlockSet.stateOf_of_mem hn he]
      by_contra hc
      have hne : e.state ≠ .invalid := fun h => hc ((hst e he).mpr h).symm
      obtain ⟨hb, hb'⟩ := (hvalid ⟨e.tag, importedState e.state⟩).mpr ⟨e, he, hne, rfl⟩
      exact hb' (hnone _ hb rfl)
    · push Not at hex
      rw [BlockSet.stateOf_of_forall hex]
      rfl

/-! ### The import -/

/-- A set after the load of a functional set. -/
def loadedSet (n : ℕ) (l : BlockSet) : ArraySet := ⟨(loadedBlocks n l).reverse, List.range n⟩

/-- **A saved set is loaded**, whatever follows it. -/
theorem loadState_saveBinarySet {bs : List BlockSerializer}
    (h : StdCache.saveBinarySet f l = some bs) (hl : l.length ≤ f.theAssoc) (s : ArraySet)
    (rest : List BlockSerializer) :
    ArraySet.loadState f.theAssoc s (bs ++ rest) = some (loadedSet f.theAssoc l, rest) := by
  have hread := (loaded_of_saveBinarySet h).1
  have hlen : (List.range f.theAssoc).reverse.length = bs.length := by
    rw [length_reverse, length_range, hread.length_eq, length_loadedBlocks hl]
  rw [ArraySet.loadState, Lib.readAll_readMap hread _ hlen]
  rfl

theorem skipWays_saveBinarySet {bs : List BlockSerializer}
    (h : StdCache.saveBinarySet f l = some bs) (hl : l.length ≤ f.theAssoc)
    (rest : List BlockSerializer) : skipWays f.theAssoc (bs ++ rest) = some ((), rest) :=
  skipWays_append (by rw [(loaded_of_saveBinarySet h).1.length_eq, length_loadedBlocks hl]) rest

theorem rows_of_saveBinary {c : StdCache f} {a : Archive} (h : c.saveBinary = some a) :
    ∃ rows : ℕ → List BlockSerializer,
      a = ⟨2 ^ f.setBits, f.theAssoc, ((List.range (2 ^ f.setBits)).map rows).flatten⟩ ∧
      ∀ i < 2 ^ f.setBits, StdCache.saveBinarySet f (c.theBlocks i) = some (rows i) := by
  rw [StdCache.saveBinary] at h
  obtain ⟨saved, hm, ha⟩ := Option.bind_eq_some_iff.mp h
  cases ha
  have hall := Lib.forall₂_of_mapM hm
  have hlen : saved.length = 2 ^ f.setBits := by
    rw [← hall.length_eq, length_range]
  refine ⟨fun i => saved.getD i [], ?_, fun i hi => ?_⟩
  · congr 2
    refine ext_getElem (by rw [length_map, length_range, hlen]) fun i hi hi' => ?_
    rw [getElem_map, getElem_range, getD_eq_getElem _ _ hi]
  · have hget := hall.get (by rwa [length_range]) (by rwa [hlen])
    simp only [get_eq_getElem, getElem_range] at hget
    rw [hget]
    exact congrArg some (getD_eq_getElem _ _ (by rwa [hlen])).symm

theorem loadedSet_spec {bs : List BlockSerializer} {i : ℕ}
    (h : StdCache.saveBinarySet f l = some bs) (hl : l.WF f i) :
    (loadedSet f.theAssoc l).validOrder = validEntries l ∧
      ∀ a, (loadedSet f.theAssoc l).lookup a = importedState (l.stateOf a) := by
  have hst := (loaded_of_saveBinarySet h).2
  have horder : (loadedSet f.theAssoc l).order = loadedBlocks f.theAssoc l :=
    order_mk_reverse (length_loadedBlocks hl.length_le)
  have hvalid : (loadedSet f.theAssoc l).validOrder = validEntries l := by
    rw [ArraySet.validOrder, horder, filter_loadedBlocks hst]
  refine ⟨hvalid, fun a => lookup_of_validOrder (fun b => ?_) hvalid hl.tags_nodup hst⟩
  rw [horder, loadedSet]
  exact mem_reverse.symm

/-- **Importing a checkpoint into a bank.** Every bank of a regular geometry comes to the end
of the checkpoint. An address that selects the bank finds the blocks of its functional set in
the set that the bank looks it up in, in the order of their use, and its lookup reports the
state that the functional cache had; and the bank holds valid blocks of its own only, each in
the set in which it is looked up. -/
theorem importArray_spec (hg : g.Regular) (hblock : g.theBlockSize = 2 ^ f.blockShift)
    (hsets : g.theTotalSets = 2 ^ f.setBits) (hassoc : g.theAssociativity = f.theAssoc)
    {c : StdCache f} {a : Archive} (ha : c.saveBinary = some a) {b q : ℕ} (hb : b < g.theBanks)
    (hq : q < g.theGroups) (sets : ℕ → ArraySet) :
    ∃ sets', importArray g b q sets a = some sets' ∧
      (∀ addr, g.getBank addr = b → g.getGroup addr = q →
        (sets' (g.makeSet addr)).validOrder = validEntries (c.theBlocks (f.getSet addr)) ∧
        (stdArray g).state sets' addr = importedState (c.stateOf (f.getTag addr))) ∧
      ∀ s < g.theNumSets, ∀ x ∈ (sets' s).validOrder,
        g.getBank x.tag = b ∧ g.getGroup x.tag = q ∧ g.makeSet x.tag = s := by
  obtain ⟨rows, rfl, hrows⟩ := rows_of_saveBinary ha
  have hrow : ∀ i ∈ List.range g.theTotalSets,
      StdCache.saveBinarySet f (c.theBlocks i) = some (rows i) := fun i hi => by
    rw [mem_range, hsets] at hi
    exact hrows i hi
  have hfit : 0 + ((List.range g.theTotalSets).filter
      (Geometry.belongs g.getBank g.getGroup g.theBlockSize b q)).length ≤ g.theNumSets := by
    rw [Nat.zero_add]
    exact (hg.length_globalSets hb hq).le
  obtain ⟨sets', hload, -, hnew⟩ := @loadSets_spec _ _
    (Geometry.belongs g.getBank g.getGroup g.theBlockSize b q) g.theNumSets
    (ArraySet.loadState f.theAssoc) (skipWays f.theAssoc) rows
    (fun i => loadedSet f.theAssoc (c.theBlocks i)) (fun _ => True) (List.range g.theTotalSets)
    (fun i hi s rest _ => loadState_saveBinarySet (hrow i hi) (c.wf i).length_le s rest)
    (fun i hi rest => skipWays_saveBinarySet (hrow i hi) (c.wf i).length_le rest)
    0 sets (fun _ _ => trivial) hfit
  have hplace : ∀ j i, (g.globalSets b q)[j]? = some i →
      sets' j = loadedSet f.theAssoc (c.theBlocks i) := fun j i hi => by
    have h := hnew j i hi
    rwa [Nat.zero_add] at h
  have hglobal : ∀ addr, g.getBank addr = b → g.getGroup addr = q →
      (g.globalSets b q)[g.makeSet addr]? = some (f.getSet addr) := fun addr hbank hgroup => by
    have h := hg.getElem?_globalSets addr
    rwa [hbank, hgroup, hblock, hsets] at h
  have hspec : ∀ i < g.theTotalSets, _ := fun i hi =>
    loadedSet_spec (hrow i (mem_range.mpr hi)) (c.wf i)
  refine ⟨sets', ?_, ?_, ?_⟩
  · rw [importArray, if_pos ⟨hsets.symm, hassoc.symm⟩, hassoc, ← hsets]
    exact hload
  · intro addr hbank hgroup
    have hset := hplace _ _ (hglobal addr hbank hgroup)
    have hlt : f.getSet addr < g.theTotalSets := by
      rw [hsets]
      exact Nat.mod_lt _ (Nat.two_pow_pos _)
    obtain ⟨hvalid, hstate⟩ := hspec _ hlt
    have htag : g.blockAddress addr = f.getTag addr := by
      rw [Geometry.blockAddress, Flexus.Geometry.getTag, hblock]
      have := Nat.div_add_mod' addr (2 ^ f.blockShift)
      omega
    refine ⟨by rw [hset, hvalid], ?_⟩
    rw [StdCache.stateOf, f.getSet_getTag, ← hstate, stdArray_state, hset, htag]
  · intro s hs x hx
    have hlen : s < (g.globalSets b q).length := by
      rw [hg.length_globalSets hb hq]
      exact hs
    have hget : (g.globalSets b q)[s]? = some (g.globalSets b q)[s] :=
      getElem?_eq_getElem hlen
    set i := (g.globalSets b q)[s] with hi
    have hmem : i ∈ g.globalSets b q := getElem_mem hlen
    rw [Geometry.globalSets, mem_filter, mem_range, Geometry.belongs_iff] at hmem
    rw [hplace s i hget, (hspec i hmem.1).1, validEntries] at hx
    obtain ⟨e, he, rfl⟩ := mem_map.mp hx
    have hhome : f.getSet e.tag = i := (c.wf i).isHome e (mem_of_mem_filter he)
    -- the bank of the block is the one that its global set belongs to
    have hown := hg.getElem?_globalSets e.tag
    rw [hblock, hsets] at hown
    have hown' : (g.globalSets (g.getBank e.tag) (g.getGroup e.tag))[g.makeSet e.tag]? =
        some i := by
      rw [← hhome]
      exact hown
    have hmem' := mem_of_getElem? hown'
    rw [Geometry.globalSets, mem_filter, Geometry.belongs_iff] at hmem'
    have hbank : g.getBank e.tag = b := hmem'.2.1.symm.trans hmem.2.1
    have hgroup : g.getGroup e.tag = q := hmem'.2.2.symm.trans hmem.2.2
    refine ⟨hbank, hgroup, ?_⟩
    rw [hbank, hgroup] at hown'
    have hnodup : (g.globalSets b q).Nodup := List.Nodup.filter _ nodup_range
    exact ((getElem?_inj hlen hnodup).mp (hget.trans hown'.symm)).symm

/-- A geometry with two banks in each of two groups, and two sets in each bank. -/
def fourBanks : Geometry where
  theNumSets := 2
  theAssociativity := 2
  theBlockSize := 64
  theBanks := 2
  theBankInterleaving := 64
  theGroups := 2
  theGroupInterleaving := 256

theorem fourBanks_regular : fourBanks.Regular where
  sets := ⟨1, rfl⟩
  blockSize := ⟨6, rfl⟩
  banks := ⟨1, rfl⟩
  groups := ⟨1, rfl⟩
  bankInterleaving := ⟨6, rfl⟩
  groupInterleaving := ⟨8, rfl⟩
  accepted := by decide
  bankInside := by decide
  groupInside := by decide

/-- A functional cache with eight sets. -/
def eightSets : Flexus.Geometry := ⟨6, 3, 2, Nat.two_pos⟩

/-- The import of a functional cache with one modified block. -/
theorem importArray_fourBanks :
    ∃ c : StdCache eightSets, ∃ a, c.stateOf 320 = .modified ∧ c.saveBinary = some a ∧
      ∃ sets', importArray fourBanks 1 1 (stdArray fourBanks).init a = some sets' ∧
        (stdArray fourBanks).state sets' 320 = .modified := by
  set c : StdCache eightSets := (StdCache.empty eightSets).setBlocks 5 [⟨320, .modified, 0⟩]
    ⟨by decide, by decide, by decide, by decide, by decide, by decide⟩ with hc
  have hstate : c.stateOf 320 = .modified := rfl
  obtain ⟨a, ha⟩ : ∃ a, c.saveBinary = some a := ⟨_, rfl⟩
  obtain ⟨sets', hload, haddr, -⟩ := importArray_spec (f := eightSets) fourBanks_regular rfl rfl
    rfl ha (b := 1) (q := 1) (by decide) (by decide) (stdArray fourBanks).init
  refine ⟨c, a, hstate, ha, sets', hload, ?_⟩
  rw [(haddr 320 (by decide) (by decide)).2, show eightSets.getTag 320 = 320 from rfl, hstate]
  rfl

end CMPCache

end Flexus
