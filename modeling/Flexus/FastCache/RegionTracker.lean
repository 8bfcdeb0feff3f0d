import Flexus.FastCache.Reload
import Flexus.Lib.Keyed

/-!
# The region tracker

`RTCache` (`components/FastCache/RTCache.hpp`) is a cache that keeps the states of its blocks by
regions. A region has an entry with the state and the way of each of its blocks; the entries are
in the sets of the region vector array, and an entry that is given up there goes to the evicted
region buffer. The blocks themselves are in a table of sets, as in `StdCache`, which also has
their tags. So the state of a block is in two places, and `isConsistent` compares them.

An allocation may take a new entry for a region, then drain the buffer – the blocks of the region
that leaves it are evicted one by one –, and then replace a block, whose state is taken back in
the entry of its own region. The assertions on the way are the faults of this file.

The callbacks `evict` and `evictRegion` are the component's; they are recorded in the order of
the calls. The bits of `shared` are left out: only the snoop filter reads them.
-/

namespace Flexus

open Function Lib

/-! ### Geometry -/

/-- What is replaced in a set that is full of valid blocks. -/
inductive RTReplPolicy
  | setLRU
  | regionLRU
  deriving DecidableEq

/-- **The configuration of a region tracker**, as far as the constructor accepts it. The sizes of
blocks and regions and the number of region sets are powers of two. -/
structure RTGeometry where
  /-- The number of address bits inside a block. -/
  blockShift : ℕ
  /-- The number of address bits inside a region. -/
  regionShift : ℕ
  theNumDataSets : ℕ
  theAssociativity : ℕ
  /-- The number of address bits that select a set of regions. -/
  rtSetBits : ℕ
  theRTAssociativity : ℕ
  theERBSize : ℕ
  theSkewBlockSetIndex : Bool
  theReplPolicy : RTReplPolicy
  theBlockScout : Bool
  shift_le : blockShift ≤ regionShift
  sets_pos : 0 < theNumDataSets
  assoc_pos : 0 < theAssociativity
  rtAssoc_pos : 0 < theRTAssociativity
  erb_pos : 0 < theERBSize
  /-- With the skew the address bits of a set of blocks are among those of a set of regions: no
  shift is negative. -/
  top_le : theSkewBlockSetIndex = true →
    Nat.log2 theNumDataSets + blockShift ≤ rtSetBits + regionShift := by decide

namespace RTGeometry

variable (g : RTGeometry)

def theNumRTSets : ℕ := 2 ^ g.rtSetBits

def theBlockSize : ℕ := 2 ^ g.blockShift

def theBlocksPerRegion : ℕ := 2 ^ (g.regionShift - g.blockShift)

def blockTagShift : ℕ := Nat.log2 g.theNumDataSets + g.blockShift

def rtTopShift : ℕ := g.rtSetBits + g.regionShift - g.blockTagShift

/-- `get_rt_set`. -/
def getRtSet (a : ℕ) : ℕ := a / 2 ^ g.regionShift % g.theNumRTSets

/-- `get_rt_tag`: the address of the region. -/
def getRtTag (a : ℕ) : ℕ := a / 2 ^ g.regionShift * 2 ^ g.regionShift

/-- `get_block_offset`: the number of the block in its region. -/
def getBlockOffset (a : ℕ) : ℕ := a / g.theBlockSize % g.theBlocksPerRegion

/-- `get_block_tag`: the address of the block. -/
def getBlockTag (a : ℕ) : ℕ := a / g.theBlockSize * g.theBlockSize

/-- `get_block_set`: the set of a block, which may depend on the way of its region. -/
def getBlockSet (a way : ℕ) : ℕ :=
  if g.theSkewBlockSetIndex then
    ((a >>> g.blockShift) ^^^ ((((a >>> g.blockTagShift) &&& (2 ^ g.rtTopShift - 1)) |||
      (way <<< g.rtTopShift)) &&& (g.theBlocksPerRegion - 1))) &&& (g.theNumDataSets - 1)
  else (a >>> g.blockShift) &&& (g.theNumDataSets - 1)

/-- The address of a block of a region, by its number. -/
def blockAddr (t i : ℕ) : ℕ := t + i * g.theBlockSize

variable {g} {a t i : ℕ}

theorem blockSize_pos : 0 < g.theBlockSize := Nat.two_pow_pos _

theorem blocksPerRegion_pos : 0 < g.theBlocksPerRegion := Nat.two_pow_pos _

theorem offset_lt (a : ℕ) : g.getBlockOffset a < g.theBlocksPerRegion :=
  Nat.mod_lt _ blocksPerRegion_pos

theorem two_pow_regionShift (g : RTGeometry) :
    2 ^ g.regionShift = g.theBlockSize * g.theBlocksPerRegion := by
  rw [theBlockSize, theBlocksPerRegion, ← Nat.pow_add, Nat.add_sub_cancel' g.shift_le]

theorem getRtTag_eq (a : ℕ) : g.getRtTag a =
    a / g.theBlockSize / g.theBlocksPerRegion * g.theBlocksPerRegion * g.theBlockSize := by
  rw [getRtTag, two_pow_regionShift, ← Nat.div_div_eq_div_mul, Nat.mul_assoc,
    Nat.mul_comm g.theBlockSize]

/-- **A block is at its offset in its region.** -/
theorem blockAddr_offset (a : ℕ) :
    g.blockAddr (g.getRtTag a) (g.getBlockOffset a) = g.getBlockTag a := by
  rw [blockAddr, getRtTag_eq, getBlockOffset, ← Nat.add_mul, Nat.div_add_mod', getBlockTag]

theorem blockTag_div (a : ℕ) : g.getBlockTag a / g.theBlockSize = a / g.theBlockSize := by
  rw [getBlockTag, Nat.mul_div_cancel _ blockSize_pos]

@[simp]
theorem getBlockTag_getBlockTag (a : ℕ) : g.getBlockTag (g.getBlockTag a) = g.getBlockTag a := by
  rw [getBlockTag, blockTag_div, getBlockTag]

@[simp]
theorem getRtTag_getRtTag (a : ℕ) : g.getRtTag (g.getRtTag a) = g.getRtTag a := by
  rw [getRtTag, getRtTag, Nat.mul_div_cancel _ (Nat.two_pow_pos _)]

@[simp]
theorem getRtTag_getBlockTag (a : ℕ) : g.getRtTag (g.getBlockTag a) = g.getRtTag a := by
  rw [getRtTag_eq, getRtTag_eq, blockTag_div]

@[simp]
theorem getBlockOffset_getBlockTag (a : ℕ) :
    g.getBlockOffset (g.getBlockTag a) = g.getBlockOffset a := by
  rw [getBlockOffset, blockTag_div, getBlockOffset]

@[simp]
theorem getRtSet_getRtTag (a : ℕ) : g.getRtSet (g.getRtTag a) = g.getRtSet a := by
  rw [getRtSet, getRtTag, Nat.mul_div_cancel _ (Nat.two_pow_pos _), getRtSet]

theorem getRtSet_congr {b : ℕ} (h : g.getRtTag a = g.getRtTag b) : g.getRtSet a = g.getRtSet b := by
  rw [← getRtSet_getRtTag a, h, getRtSet_getRtTag]

@[simp]
theorem getBlockSet_getBlockTag (a w : ℕ) :
    g.getBlockSet (g.getBlockTag a) w = g.getBlockSet a w := by
  have hdiv : g.getBlockTag a >>> g.blockShift = a >>> g.blockShift := by
    rw [Nat.shiftRight_eq_div_pow, Nat.shiftRight_eq_div_pow]
    exact blockTag_div a
  have htag : g.getBlockTag a >>> g.blockTagShift = a >>> g.blockTagShift := by
    rw [blockTagShift, Nat.add_comm, Nat.shiftRight_add, hdiv, ← Nat.shiftRight_add]
  rw [getBlockSet, hdiv, htag, getBlockSet]

theorem getBlockSet_way (h : g.theSkewBlockSetIndex = false) (a w : ℕ) :
    g.getBlockSet a w = g.getBlockSet a 0 := by
  rw [getBlockSet, getBlockSet, h]
  rfl

/-- **The blocks of a region**, by their numbers. -/
theorem blockAddr_spec (ht : g.getRtTag t = t) (hi : i < g.theBlocksPerRegion) :
    g.getRtTag (g.blockAddr t i) = t ∧ g.getBlockOffset (g.blockAddr t i) = i ∧
      g.getBlockTag (g.blockAddr t i) = g.blockAddr t i := by
  obtain ⟨q, rfl⟩ : ∃ q, t = q * g.theBlocksPerRegion * g.theBlockSize :=
    ⟨_, ht.symm.trans (getRtTag_eq t)⟩
  have hdiv : g.blockAddr (q * g.theBlocksPerRegion * g.theBlockSize) i / g.theBlockSize =
      q * g.theBlocksPerRegion + i := by
    rw [blockAddr, ← Nat.add_mul, Nat.mul_div_cancel _ blockSize_pos]
  refine ⟨?_, ?_, ?_⟩
  · rw [getRtTag_eq, hdiv, Nat.mul_comm q, Nat.mul_add_div blocksPerRegion_pos,
      Nat.div_eq_of_lt hi, Nat.add_zero, Nat.mul_comm q]
  · rw [getBlockOffset, hdiv, Nat.mul_comm, Nat.mul_add_mod, Nat.mod_eq_of_lt hi]
  · rw [getBlockTag, hdiv, blockAddr, Nat.add_mul]

/-- Two blocks are the same if they are at one offset of one region. -/
theorem blockTag_eq_iff {b : ℕ} : g.getBlockTag a = g.getBlockTag b ↔
    g.getRtTag a = g.getRtTag b ∧ g.getBlockOffset a = g.getBlockOffset b := by
  constructor
  · intro h
    rw [← getRtTag_getBlockTag a, ← getBlockOffset_getBlockTag a, h, getRtTag_getBlockTag,
      getBlockOffset_getBlockTag]
    exact ⟨rfl, rfl⟩
  · rintro ⟨htag, hoff⟩
    rw [← blockAddr_offset, htag, hoff, blockAddr_offset]

end RTGeometry

/-! ### Entries -/

/-- What is known about the other holders of a region. -/
inductive RegionState
  | nonShared
  | partialShared
  | shared
  deriving DecidableEq

/-- **An entry of a region.** The vectors `state` and `ways` are functions of the number of a
block in the region. -/
structure RTEntry where
  /-- The address of the region. -/
  tag : ℕ
  way : ℕ
  regionState : RegionState
  owner : ℤ
  /-- The states of the blocks. -/
  state : ℕ → CoherenceState
  /-- The ways of the blocks in their sets. -/
  ways : ℕ → ℕ

namespace RTEntry

/-- The entry of a region without valid blocks. -/
def ofRegion (tag way : ℕ) (s : RegionState) (owner : ℤ) : RTEntry :=
  ⟨tag, way, s, owner, fun _ => .invalid, fun _ => 0⟩

/-- `ChangeRTState`, and `InvalidateRTState` for the invalid state. -/
def changeState (e : RTEntry) (offset : ℕ) (s : CoherenceState) : RTEntry :=
  { e with state := update e.state offset s }

/-- `AllocateBlock`; a way is kept in 16 bits. -/
def allocateBlock (e : RTEntry) (offset : ℕ) (s : CoherenceState) (way : ℕ) : RTEntry :=
  { e with
    state := update e.state offset s
    ways := update e.ways offset (way % 2 ^ 16) }

end RTEntry

/-- A set of regions: one of the region vector array, or the evicted region buffer. -/
inductive RTSet
  | rva (i : ℕ)
  | erb
  deriving DecidableEq

/-- The callbacks of a region tracker. -/
inductive RTCall
  | evict (tagset : ℕ) (s : CoherenceState)
  | evictRegion (tagset : ℕ) (owner : ℤ)
  deriving DecidableEq

/-- **The assertions of a region tracker.** -/
inductive RTFault
  /-- `isConsistent` fails. -/
  | inconsistent
  /-- A block that is valid in its region is not in its set. -/
  | blockNotFound
  /-- A block in the way that its region has for it is in another region. -/
  | wrongBlock
  /-- A new region is in its set already. -/
  | regionNotInserted
  /-- The region of a valid block has no entry. -/
  | regionNotFound
  /-- A block that is to be replaced is not there. -/
  | noBlock
  /-- A new block is not inserted: its way is in use. -/
  | blockNotInserted
  /-- The replacement policy is not supported. -/
  | regionLRUNotSupported
  deriving DecidableEq

/-- **The contents of a region tracker.** The entries of a set are in the order of their use,
least recently used first. -/
structure RTCache (g : RTGeometry) where
  /-- The region vector array. -/
  theRVA : ℕ → List RTEntry
  /-- The evicted region buffer. -/
  theERB : List RTEntry
  /-- The block table. -/
  theBlocks : ℕ → BlockSet
  /-- The callbacks so far. -/
  calls : List RTCall

/-- **A valid result of a lookup**: the entry of the region, by its set and its tag, and the
block, by its set and its way. -/
structure RTLookupResult where
  tagset : ℕ
  rtSet : RTSet
  region : ℕ
  offset : ℕ
  blockSet : ℕ
  block : ℕ
  deriving DecidableEq

namespace RTCache

variable {g : RTGeometry}

/-- The contents at the start. -/
def empty (g : RTGeometry) : RTCache g := ⟨fun _ => [], [], fun _ => [], []⟩

/-- The entries of a set of regions. -/
def entries (c : RTCache g) : RTSet → List RTEntry
  | .rva i => c.theRVA i
  | .erb => c.theERB

/-- The contents with other entries in a set of regions. -/
def setEntries (c : RTCache g) (l : List RTEntry) : RTSet → RTCache g
  | .rva i => { c with theRVA := update c.theRVA i l }
  | .erb => { c with theERB := l }

/-- The contents with another set of blocks. -/
def setBlocks (c : RTCache g) (i : ℕ) (l : BlockSet) : RTCache g :=
  { c with theBlocks := update c.theBlocks i l }

/-- A callback. -/
def call (c : RTCache g) (k : RTCall) : RTCache g := { c with calls := c.calls ++ [k] }

/-- `modify` of the entry of a region. -/
def modifyRegion (c : RTCache g) (p : RTSet) (tag : ℕ) (f : RTEntry → RTEntry) : RTCache g :=
  c.setEntries (Keyed.update RTEntry.tag (c.entries p) tag f) p

/-- `update_lru` of the entry of a region. -/
def updateRegionLRU (c : RTCache g) (p : RTSet) (tag : ℕ) : RTCache g :=
  c.setEntries (Keyed.toBack RTEntry.tag (c.entries p) tag) p

/-- **The entry of a region**, in the region vector array or else in the buffer. -/
def findEntry (c : RTCache g) (tagset : ℕ) : Option (RTSet × RTEntry) :=
  match Keyed.lookup RTEntry.tag (c.theRVA (g.getRtSet tagset)) (g.getRtTag tagset) with
  | some e => some (.rva (g.getRtSet tagset), e)
  | none => (Keyed.lookup RTEntry.tag c.theERB (g.getRtTag tagset)).map fun e => (.erb, e)

/-- The comparison of an entry with the block table. -/
def agrees (e : RTEntry) (offset : ℕ) : Option BlockEntry → Bool
  | none => !(e.state offset).isValid
  | some b => e.state offset = b.state && (e.ways offset = b.way || !b.state.isValid)

/-- **`isConsistent`.** The set of the block is looked up with way 0. -/
def isConsistent (c : RTCache g) (tagset : ℕ) : Bool :=
  let block := (c.theBlocks (g.getBlockSet tagset 0)).findTag (g.getBlockTag tagset)
  let erb := Keyed.lookup RTEntry.tag c.theERB (g.getRtTag tagset)
  match Keyed.lookup RTEntry.tag (c.theRVA (g.getRtSet tagset)) (g.getRtTag tagset), erb with
  | some _, some _ => false
  | some e, none => agrees e (g.getBlockOffset tagset) block
  | none, some e => agrees e (g.getBlockOffset tagset) block
  | none, none => block.all fun b => !b.state.isValid

/-- The assertion of `isConsistent`. -/
def assertConsistent (c : RTCache g) (tagset : ℕ) : Except RTFault Unit :=
  if c.isConsistent tagset then .ok () else .error .inconsistent

/-- **`lookup`**; a result that is not valid is `none`. -/
def lookup (c : RTCache g) (tagset : ℕ) : Except RTFault (Option RTLookupResult) :=
  match c.findEntry tagset with
  | none => .ok none
  | some (p, e) =>
    let i := g.getBlockSet tagset e.way
    let offset := g.getBlockOffset tagset
    if (e.state offset).isValid then
      match (c.theBlocks i).findTag (g.getBlockTag tagset) with
      | none => .error .blockNotFound
      | some b => do
        c.assertConsistent tagset
        pure (some ⟨tagset, p, e.tag, offset, i, b.way⟩)
    else .ok none

/-- `getState` of a result: the state of the block. -/
def getState (c : RTCache g) : Option RTLookupResult → CoherenceState
  | none => .invalid
  | some r => match (c.theBlocks r.blockSet).atWay r.block with
    | some b => b.state
    | none => .invalid

/-! ### Allocation -/

/-- A new entry for a region: the one at the front of a full set goes to the buffer, and its way
to the new one. -/
def pushRegion (c : RTCache g) (tagset : ℕ) : Except RTFault (RTCache g) :=
  let i := g.getRtSet tagset
  let rtTag := g.getRtTag tagset
  let (l, erb, way) := match c.theRVA i with
    | [] => ([], c.theERB, 0)
    | e :: l =>
      if g.theRTAssociativity ≤ l.length + 1 then
        (l, Keyed.pushBack RTEntry.tag c.theERB e, e.way)
      else (e :: l, c.theERB, l.length + 1)
  if (Keyed.lookup RTEntry.tag l rtTag).isSome then .error .regionNotInserted
  else .ok { c with
    theRVA := update c.theRVA i (l ++ [.ofRegion rtTag way .shared (-1)])
    theERB := erb }

/-- A block of the region at the front of the buffer is evicted. -/
def evictBlock (c : RTCache g) (i : ℕ) : Except RTFault (RTCache g) :=
  match c.theERB with
  | [] => .error .regionNotFound
  | region :: _ => do
    let addr := g.blockAddr region.tag i
    let set := g.getBlockSet addr region.way
    c.assertConsistent addr
    if (region.state i).isValid then
      match (c.theBlocks set).atWay (region.ways i) with
      | none => .error .blockNotFound
      | some b =>
        if g.getRtTag b.tag ≠ region.tag then .error .wrongBlock
        else do
          c.assertConsistent addr
          let l := (c.theBlocks set).changeBlockState b.way .invalid
          let c := (c.setBlocks set (l.toHead b.way)).call (.evict addr (region.state i))
          let c := c.modifyRegion .erb region.tag fun e => e.changeState i .invalid
          c.assertConsistent addr
          pure c
    else do
      c.assertConsistent addr
      pure c

/-- The loop over the blocks of the region. -/
def evictBlocks (c : RTCache g) : List ℕ → Except RTFault (RTCache g)
  | [] => .ok c
  | i :: is => do
    let c ← c.evictBlock i
    c.evictBlocks is

/-- The region at the front of the buffer is evicted. -/
def evictFront (c : RTCache g) : Except RTFault (RTCache g) := do
  let c ← c.evictBlocks (List.range g.theBlocksPerRegion)
  match c.theERB with
  | [] => .error .regionNotFound
  | region :: erb =>
    pure { c.call (.evictRegion region.tag region.owner) with theERB := erb }

/-- The entry of a region, or else a new one; the buffer is drained if it has grown too
large. -/
def allocateRegion (c : RTCache g) (tagset : ℕ) : Except RTFault (RTCache g × RTSet) :=
  match c.findEntry tagset with
  | some (p, _) => .ok (c, p)
  | none => do
    let c ← c.pushRegion tagset
    let c ← if g.theERBSize < c.theERB.length then c.evictFront else pure c
    pure (c, .rva (g.getRtSet tagset))

/-- `replace_lru_block`: the block at the front is evicted, if it is valid, and its entry is given
to another block. -/
def replaceLruBlock (c : RTCache g) (i tag : ℕ) (s : CoherenceState) :
    Except RTFault (RTCache g × ℕ) :=
  match c.theBlocks i with
  | [] => .error .noBlock
  | b :: l => do
    let c ← if b.state.isValid then
        match c.findEntry b.tag with
        | none => .error .regionNotFound
        | some (p, _) =>
          pure ((c.modifyRegion p (g.getRtTag b.tag) fun e =>
            e.changeState (g.getBlockOffset b.tag) .invalid).call (.evict b.tag b.state))
      else pure c
    pure (c.setBlocks i ((BlockSet.replaceBlock (b :: l) b.way tag s).toTail b.way), b.way)

/-- An entry of the block table for a block that is not valid: its own, or a new one, or that of
another block. -/
def placeBlock (c : RTCache g) (i tag : ℕ) (s : CoherenceState) :
    Except RTFault (RTCache g × ℕ) :=
  let l := c.theBlocks i
  match l.findTag tag with
  | some b => .ok (c.setBlocks i ((l.changeBlockState b.way s).toTail b.way), b.way)
  | none =>
    if l.length < g.theAssociativity then
      if l.any fun d => d.way = l.length % 2 ^ 16 then .error .blockNotInserted
      else .ok (c.setBlocks i (l ++ [⟨tag, s, l.length % 2 ^ 16⟩]), l.length)
    else if l.head?.all fun b => !b.state.isValid then c.replaceLruBlock i tag s
    else match g.theReplPolicy with
      | .setLRU => c.replaceLruBlock i tag s
      | .regionLRU => .error .regionLRUNotSupported

/-- **`allocate`.** -/
def allocate (c : RTCache g) (tagset : ℕ) (newState : CoherenceState) :
    Except RTFault (RTCache g × RTLookupResult) := do
  let (c, p) ← c.allocateRegion tagset
  match Keyed.lookup RTEntry.tag (c.entries p) (g.getRtTag tagset) with
  | none => .error .regionNotFound
  | some e =>
    let i := g.getBlockSet tagset e.way
    let offset := g.getBlockOffset tagset
    if (e.state offset).isValid then
      match (c.theBlocks i).findTag (g.getBlockTag tagset) with
      | none => .error .blockNotFound
      | some b => do
        c.assertConsistent tagset
        pure (c, ⟨tagset, p, e.tag, offset, i, b.way⟩)
    else do
      let (c, way) ← c.placeBlock i (g.getBlockTag tagset) newState
      let c := c.modifyRegion p e.tag fun e => e.allocateBlock offset newState way
      let c := c.updateRegionLRU p e.tag
      c.assertConsistent tagset
      pure (c, ⟨tagset, p, e.tag, offset, i, way % 2 ^ 16⟩)

/-! ### The operations on a result, and on a region -/

/-- `updateLRU` of a result. -/
def updateLRU (c : RTCache g) (r : RTLookupResult) : RTCache g :=
  (c.updateRegionLRU r.rtSet r.region).setBlocks r.blockSet
    ((c.theBlocks r.blockSet).toTail r.block)

/-- `updateState`, which is what `changeState` of a result calls. -/
def updateState (c : RTCache g) (r : RTLookupResult) (s : CoherenceState)
    (makeMRU makeLRU : Bool) : RTCache g :=
  let c := c.modifyRegion r.rtSet r.region fun e => e.changeState r.offset s
  let c := c.setBlocks r.blockSet ((c.theBlocks r.blockSet).changeBlockState r.block s)
  if makeMRU then c.updateLRU r
  else if makeLRU then c.setBlocks r.blockSet ((c.theBlocks r.blockSet).toHead r.block)
  else c

/-- The entry of a region is changed, if there is one. -/
def changeRegion (c : RTCache g) (tagset : ℕ) (f : RTEntry → RTEntry) : RTCache g :=
  match c.findEntry tagset with
  | none => c
  | some (p, _) => c.modifyRegion p (g.getRtTag tagset) f

/-- `updateOwner`; a result that is for the region has its entry. -/
def updateOwner (c : RTCache g) (r : Option RTLookupResult) (owner : ℤ) (tagset : ℕ)
    (isShared : Bool) : RTCache g :=
  let f (e : RTEntry) : RTEntry :=
    { e with owner := owner, regionState := if isShared then .shared else .nonShared }
  match r with
  | none => c.changeRegion tagset f
  | some r =>
    if r.region ≠ g.getRtTag tagset then c.changeRegion tagset f
    else c.modifyRegion r.rtSet r.region f

/-- `regionProbe`. -/
def regionProbe (c : RTCache g) (tagset : ℕ) : RTCache g :=
  c.changeRegion tagset fun e =>
    { e with regionState := if g.theBlockScout then .partialShared else .shared }

/-- `setNonSharedRegion`. -/
def setNonSharedRegion (c : RTCache g) (tagset : ℕ) : RTCache g :=
  c.changeRegion tagset fun e => { e with regionState := .nonShared }

/-- `setPartialSharedRegion`. -/
def setPartialSharedRegion (c : RTCache g) (tagset : ℕ) : RTCache g :=
  if g.theBlockScout then c.changeRegion tagset fun e => { e with regionState := .partialShared }
  else c

end RTCache

end Flexus
