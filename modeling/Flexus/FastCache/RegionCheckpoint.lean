import Flexus.FastCache.RegionOperations

/-!
# Checkpoints of a region tracker

`saveState` of `components/FastCache/RTCache.hpp` writes the regions of every set and those of
the buffer without the states and the ways of their blocks, and then the block table; `loadState`
takes the regions first, and puts the states and the ways back as it reads the blocks. Sets are
filled up, the sets of regions with the region at the last address and the sets of blocks with
the block at address 0, and what has a tag that is in the set already is dropped. Ways are not
written: a region gets its position in the order of use.

The two assertions that are to compare the numbers of ways compare the numbers of sets. Where
these are the same, and the position of a region leads to the set of its blocks, everything is
found again (`Flexus.RTCache.restores_iff_reloadable`).
-/

namespace Flexus

open Function Lib List

open RTGeometry
open Cache (mapM_eq_some)

/-! ### Saving -/

/-- `RTSerializer`, as far as it is serialized. -/
structure RTSerializer where
  tag : ℕ
  state : Char
  owner : ℤ
  deriving DecidableEq

/-- A value of the archive. -/
inductive RTItem
  | int (n : ℕ)
  | region (s : RTSerializer)
  | block (b : BlockSerializer)
  deriving DecidableEq

namespace RegionState

/-- The character of a region state. -/
def saveChar : RegionState → Char
  | .nonShared => 'N'
  | .shared => 'S'
  | .partialShared => 'P'

/-- The region state of a character; the source asserts on others. -/
def loadChar : Char → Option RegionState
  | 'N' => some .nonShared
  | 'S' => some .shared
  | 'P' => some .partialShared
  | _ => none

theorem loadChar_saveChar (s : RegionState) : loadChar s.saveChar = some s := by
  cases s <;> rfl

end RegionState

namespace RTEntry

/-- What is saved of an entry; the owner is kept in 8 bits. -/
def getSerializer (e : RTEntry) : RTSerializer :=
  ⟨e.tag, e.regionState.saveChar, e.owner.bmod (2 ^ 8)⟩

/-- The tag -1 of the regions that fill a set up. -/
def padTag : ℕ := 2 ^ 64 - 1

/-- A region that fills a set up. -/
def padSerializer : RTSerializer := ⟨padTag, 'S', -1⟩

end RTEntry

namespace RTCache

variable {g : RTGeometry}

/-- A set of regions. -/
def saveRegions (g : RTGeometry) (l : List RTEntry) : List RTItem :=
  l.map (fun e => .region e.getSerializer) ++
    List.replicate (g.theRTAssociativity - l.length) (.region RTEntry.padSerializer)

/-- A block; the source asserts on a migratory one, and that it is consistent. -/
def saveBlock (c : RTCache g) (b : BlockEntry) : Option RTItem := do
  let s ← StdCache.saveChar b.state
  if c.isConsistent b.tag then pure (.block ⟨b.tag, s⟩) else none

/-- A set of blocks. -/
def saveBlocks (c : RTCache g) (l : BlockSet) : Option (List RTItem) := do
  let bs ← l.mapM c.saveBlock
  pure (bs ++ List.replicate (g.theAssociativity - l.length) (.block ⟨0, 'I'⟩))

/-- **`saveState`.** -/
def saveState (c : RTCache g) : Option (List RTItem) := do
  let sets ← (List.range g.theNumDataSets).mapM fun i => c.saveBlocks (c.theBlocks i)
  pure (.int g.theNumRTSets :: .int g.theRTAssociativity ::
    (((List.range g.theNumRTSets).map fun i => saveRegions g (c.theRVA i)).flatten ++
      .int c.theERB.length :: (c.theERB.map (fun e => .region e.getSerializer) ++
        .int g.theNumDataSets :: .int g.theAssociativity :: sets.flatten)))

/-! ### Loading -/

/-- The regions of a set, for the ways that are left. -/
def loadRegions : List ℕ → List RTEntry → List RTItem → Option (List RTEntry × List RTItem)
  | [], l, bs => some (l, bs)
  | way :: ways, l, .region s :: bs => do
    let st ← RegionState.loadChar s.state
    loadRegions ways (Keyed.pushBack RTEntry.tag l (.ofRegion s.tag way st s.owner)) bs
  | _, _, _ => none

/-- The sets of the region vector array. -/
def loadRVA (g : RTGeometry) : List ℕ → (ℕ → List RTEntry) → List RTItem →
    Option ((ℕ → List RTEntry) × List RTItem)
  | [], rva, bs => some (rva, bs)
  | i :: is, rva, bs => do
    let (l, bs) ← loadRegions (List.range g.theRTAssociativity) (rva i) bs
    loadRVA g is (update rva i l) bs

/-- A block: its entry is added to the set, and its region gets its state and its way. -/
def loadBlock (c : RTCache g) (i way : ℕ) (bs : BlockSerializer) : Option (RTCache g) := do
  let s ← StdCache.loadChar bs.state
  let c := c.setBlocks i ((c.theBlocks i).pushBack ⟨bs.tag, s, way % 2 ^ 16⟩)
  let c ← if s ≠ .invalid then
      match c.findEntry bs.tag with
      | none => none
      | some (p, _) => some (c.modifyRegion p (g.getRtTag bs.tag) fun e =>
          e.allocateBlock (g.getBlockOffset bs.tag) s way)
    else some c
  if c.isConsistent bs.tag then pure c else none

/-- The blocks of a set, for the ways that are left. -/
def loadBlocks (i : ℕ) : List ℕ → RTCache g → List RTItem → Option (RTCache g × List RTItem)
  | [], c, bs => some (c, bs)
  | way :: ways, c, .block b :: bs => do
    let c ← c.loadBlock i way b
    loadBlocks i ways c bs
  | _, _, _ => none

/-- The sets of the block table. -/
def loadTable : List ℕ → RTCache g → List RTItem → Option (RTCache g)
  | [], c, _ => some c
  | i :: is, c, bs => do
    let (c, bs) ← loadBlocks i (List.range g.theAssociativity) c bs
    loadTable is c bs

/-- **`loadState`**, into a region tracker without contents. The second number of a header is the
number of ways; it is read, but the assertions compare the number of sets instead. -/
def loadState (g : RTGeometry) : List RTItem → Option (RTCache g)
  | .int setCount :: .int _ :: bs =>
    if setCount = g.theNumRTSets ∧ setCount = g.theRTAssociativity then do
      let (rva, bs) ← loadRVA g (List.range g.theNumRTSets) (empty g).theRVA bs
      match bs with
      | .int erbSize :: bs => do
        let (erb, bs) ← loadRegions (List.range erbSize) (empty g).theERB bs
        match bs with
        | .int setCount :: .int _ :: bs =>
          if setCount = g.theNumDataSets ∧ setCount = g.theAssociativity then
            loadTable (List.range g.theNumDataSets) { empty g with theRVA := rva, theERB := erb } bs
          else none
        | _ => none
      | _ => none
    else none
  | _ => none

/-! ### Regions that were loaded -/

/-- An entry that was loaded, in the way of its position. -/
def reloadedEntry (e : RTEntry) (k : ℕ) : RTEntry :=
  .ofRegion e.tag k e.regionState (e.owner.bmod (2 ^ 8))

/-- **A set of regions that was loaded**: its regions in their order, in ways that are numbered
through, and perhaps a region that has filled it up. -/
def Reloads (n : ℕ) (l l' : List RTEntry) : Prop :=
  l' = l.zipIdx.map (fun x => reloadedEntry x.1 x.2) ∨
    l.length < n ∧ RTEntry.padTag ∉ l.map RTEntry.tag ∧ ∃ w,
      l' = l.zipIdx.map (fun x => reloadedEntry x.1 x.2) ++ [.ofRegion RTEntry.padTag w .shared (-1)]

variable {l l' : List RTEntry} {n : ℕ}

theorem tags_zipIdx (l : List RTEntry) (k : ℕ) :
    (l.zipIdx k).map (RTEntry.tag ∘ fun x => reloadedEntry x.1 x.2) = l.map RTEntry.tag := by
  have h : (RTEntry.tag ∘ fun x : RTEntry × ℕ => reloadedEntry x.1 x.2) =
      RTEntry.tag ∘ Prod.fst := rfl
  rw [h, ← map_map, zipIdx_map_fst]

theorem loadRegions_map (l acc : List RTEntry) (k : ℕ) (ways : List ℕ) (rest : List RTItem)
    (h : ((acc ++ l).map RTEntry.tag).Nodup) :
    loadRegions (List.range' k l.length ++ ways) acc
      (l.map (fun e => .region e.getSerializer) ++ rest) =
    loadRegions ways (acc ++ (l.zipIdx k).map fun x => reloadedEntry x.1 x.2) rest := by
  induction l generalizing acc k with
  | nil =>
    show loadRegions ways acc rest = loadRegions ways (acc ++ []) rest
    rw [append_nil]
  | cons e l ih =>
    have hfresh : Keyed.lookup RTEntry.tag acc e.tag = none := by
      refine Keyed.lookup_eq_none.mpr fun x hx hxe => ?_
      rw [map_append, map_cons, nodup_middle, nodup_cons] at h
      exact h.1 (hxe ▸ mem_append_left _ (mem_map_of_mem hx))
    have hpush : Keyed.pushBack RTEntry.tag acc (reloadedEntry e k) =
        acc ++ [reloadedEntry e k] := by
      rw [Keyed.pushBack, show (reloadedEntry e k).tag = e.tag from rfl, hfresh]
      rfl
    have hstep : loadRegions (List.range' k (e :: l).length ++ ways) acc
        ((e :: l).map (fun e => .region e.getSerializer) ++ rest) =
        loadRegions (List.range' (k + 1) l.length ++ ways) (acc ++ [reloadedEntry e k])
          (l.map (fun e => .region e.getSerializer) ++ rest) := by
      rw [← hpush]
      show (RegionState.loadChar e.regionState.saveChar >>= _) = _
      rw [RegionState.loadChar_saveChar]
      rfl
    rw [hstep, ih, zipIdx_cons, map_cons, append_assoc]
    · rfl
    · rw [map_append, map_cons, nodup_middle] at h
      rw [append_assoc, map_append, singleton_append, map_cons, nodup_middle]
      exact h

/-- The regions that fill a set up: the first one is added, if its tag is new. -/
theorem loadRegions_pad (ways : List ℕ) (acc : List RTEntry) (rest : List RTItem) :
    ∃ l', loadRegions ways acc
        (List.replicate ways.length (.region RTEntry.padSerializer) ++ rest) = some (l', rest) ∧
      (l' = acc ∨ ways ≠ [] ∧ RTEntry.padTag ∉ acc.map RTEntry.tag ∧
        ∃ w, l' = acc ++ [.ofRegion RTEntry.padTag w .shared (-1)]) := by
  induction ways generalizing acc with
  | nil => exact ⟨acc, rfl, .inl rfl⟩
  | cons w ways ih =>
    have hstep : loadRegions (w :: ways) acc
        (List.replicate (w :: ways).length (.region RTEntry.padSerializer) ++ rest) =
        loadRegions ways (Keyed.pushBack RTEntry.tag acc
          (.ofRegion RTEntry.padTag w .shared (-1)))
          (List.replicate ways.length (.region RTEntry.padSerializer) ++ rest) := rfl
    obtain ⟨l', hl', hcase⟩ := ih (Keyed.pushBack RTEntry.tag acc
      (.ofRegion RTEntry.padTag w .shared (-1)))
    refine ⟨l', hstep.trans hl', ?_⟩
    have htag : (RTEntry.ofRegion RTEntry.padTag w .shared (-1)).tag = RTEntry.padTag := rfl
    rw [Keyed.pushBack, htag] at hcase
    by_cases hpad : (Keyed.lookup RTEntry.tag acc RTEntry.padTag).isSome = true
    · rw [if_pos hpad] at hcase
      exact hcase.imp id fun hc => ⟨cons_ne_nil w ways, hc.2⟩
    · rw [if_neg hpad] at hcase
      have hnew : RTEntry.padTag ∉ acc.map RTEntry.tag := fun hc => by
        obtain ⟨x, hx, hxt⟩ := mem_map.mp hc
        rw [Bool.not_eq_true, Option.isSome_eq_false_iff, Option.isNone_iff_eq_none] at hpad
        exact Keyed.lookup_eq_none.mp hpad x hx hxt
      rcases hcase with rfl | ⟨-, hout, -⟩
      · exact .inr ⟨cons_ne_nil w ways, hnew, w, rfl⟩
      · refine absurd ?_ hout
        rw [map_append]
        exact mem_append_right _ (mem_singleton.mpr rfl)

/-- **A set of regions is read back.** -/
theorem loadRegions_saveRegions (hl : (l.map RTEntry.tag).Nodup)
    (hlen : l.length ≤ g.theRTAssociativity) (rest : List RTItem) :
    ∃ l', loadRegions (List.range g.theRTAssociativity) [] (saveRegions g l ++ rest) =
      some (l', rest) ∧ Reloads g.theRTAssociativity l l' := by
  obtain ⟨k, hk⟩ := Nat.exists_eq_add_of_le hlen
  have hrange : List.range g.theRTAssociativity =
      List.range' 0 l.length ++ List.range' l.length k := by
    rw [hk, range_eq_range', ← range'_append_1, Nat.zero_add]
  obtain ⟨l', hl', hcase⟩ := loadRegions_pad (List.range' l.length k)
    (l.zipIdx.map fun x => reloadedEntry x.1 x.2) rest
  rw [length_range'] at hl'
  refine ⟨l', ?_, hcase.imp id fun hc => ?_⟩
  · rw [saveRegions, hk, Nat.add_sub_cancel_left, ← hk, hrange, append_assoc,
      loadRegions_map l [] 0 _ _ (by rwa [nil_append]), nil_append]
    exact hl'
  · obtain ⟨hne, hpad, hw⟩ := hc
    rw [map_map, tags_zipIdx] at hpad
    refine ⟨?_, hpad, hw⟩
    have hk0 : k ≠ 0 := fun h0 => hne (by rw [h0]; rfl)
    omega

/-- **The region vector array is read back.** -/
theorem loadRVA_saveRegions {c : RTCache g} (h : RegionsPlaced g c.rvaTags c.erbTags)
    {is : List ℕ} (his : is.Nodup) {rva : ℕ → List RTEntry} (hrva : ∀ i ∈ is, rva i = [])
    (rest : List RTItem) :
    ∃ rva', loadRVA g is rva ((is.map fun i => saveRegions g (c.theRVA i)).flatten ++ rest) =
        some (rva', rest) ∧
      (∀ i ∈ is, Reloads g.theRTAssociativity (c.theRVA i) (rva' i)) ∧
      ∀ i, i ∉ is → rva' i = rva i := by
  induction is generalizing rva with
  | nil => exact ⟨rva, rfl, fun _ hi => absurd hi not_mem_nil, fun _ _ => rfl⟩
  | cons i is ih =>
    rw [nodup_cons] at his
    have hlen : (c.theRVA i).length ≤ g.theRTAssociativity := by
      have := h.rva_le i
      rwa [rvaTags, length_map] at this
    obtain ⟨l', hl', hreload⟩ := loadRegions_saveRegions (h.rva_nodup i) hlen
      ((is.map fun i => saveRegions g (c.theRVA i)).flatten ++ rest)
    have hempty : ∀ j ∈ is, update rva i l' j = [] := fun j hj => by
      rw [update_of_ne fun hc : j = i => his.1 (hc ▸ hj)]
      exact hrva j (mem_cons_of_mem i hj)
    obtain ⟨rva', hload, hmem, hout⟩ := ih his.2 hempty
    refine ⟨rva', ?_, fun j hj => ?_, fun j hj => ?_⟩
    · rw [map_cons, flatten_cons, append_assoc, loadRVA, hrva i mem_cons_self, hl']
      exact hload
    · rcases mem_cons.mp hj with rfl | hj
      · rw [hout j his.1, update_self]
        exact hreload
      · exact hmem j hj
    · rw [mem_cons, not_or] at hj
      rw [hout j hj.2, update_of_ne hj.1]

theorem Reloads.lookup_of_getElem? (h : Reloads n l l') (hl : (l.map RTEntry.tag).Nodup)
    {k : ℕ} {e : RTEntry} (he : l[k]? = some e) :
    Keyed.lookup RTEntry.tag l' e.tag = some (reloadedEntry e k) := by
  have hmem : reloadedEntry e k ∈ l.zipIdx.map fun x => reloadedEntry x.1 x.2 :=
    mem_map.mpr ⟨(e, k), mem_zipIdx_iff_getElem?.mpr he, rfl⟩
  have hnodup : ((l.zipIdx.map fun x => reloadedEntry x.1 x.2).map RTEntry.tag).Nodup := by
    rw [map_map, tags_zipIdx]
    exact hl
  have hfind := Keyed.lookup_of_mem hnodup hmem
  rcases h with rfl | ⟨-, -, w, rfl⟩
  · exact hfind
  · rw [Keyed.lookup_append_singleton]
    exact Option.or_eq_some_iff.mpr (.inl hfind)

/-- What was loaded has been saved, or has filled the set up. -/
theorem Reloads.of_mem (h : Reloads n l l') {x : RTEntry} (hx : x ∈ l') :
    (∀ i, x.state i = .invalid) ∧ (x.tag ∈ l.map RTEntry.tag ∨
      l.length < n ∧ x.tag = RTEntry.padTag) := by
  have hsaved : ∀ x ∈ l.zipIdx.map fun x => reloadedEntry x.1 x.2,
      (∀ i, x.state i = .invalid) ∧ x.tag ∈ l.map RTEntry.tag := by
    intro x hx
    obtain ⟨q, hq, rfl⟩ := mem_map.mp hx
    refine ⟨fun _ => rfl, mem_map.mpr ⟨q.1, ?_, rfl⟩⟩
    exact mem_of_getElem? (mem_zipIdx_iff_getElem?.mp hq)
  rcases h with rfl | ⟨hlen, -, w, rfl⟩
  · exact ⟨(hsaved x hx).1, .inl (hsaved x hx).2⟩
  · rcases mem_append.mp hx with hx | hx
    · exact ⟨(hsaved x hx).1, .inl (hsaved x hx).2⟩
    · rw [mem_singleton.mp hx]
      exact ⟨fun _ => rfl, .inr ⟨hlen, rfl⟩⟩

theorem Reloads.of_length (l : List RTEntry) :
    Reloads l.length l (l.zipIdx.map fun x => reloadedEntry x.1 x.2) := .inl rfl

/-- **The regions of a region tracker that was loaded**, before its blocks. -/
structure RegionsReloaded (c c' : RTCache g) : Prop where
  rva : ∀ i < g.theNumRTSets, Reloads g.theRTAssociativity (c.theRVA i) (c'.theRVA i)
  erb : Reloads c.theERB.length c.theERB c'.theERB

variable {c c' : RTCache g} {a : ℕ} {p : RTSet} {e : RTEntry}

theorem getRtSet_lt (a : ℕ) : g.getRtSet a < g.theNumRTSets := Nat.mod_lt _ (Nat.two_pow_pos _)

/-- **A region is found again**, in the way of its position in its set. -/
theorem RegionsReloaded.findEntry (h : RegionsReloaded c c')
    (hr : RegionsPlaced g c.rvaTags c.erbTags) (he : c.findEntry a = some (p, e)) :
    ∃ k : ℕ, (c.entries p)[k]? = some e ∧ c'.findEntry a = some (p, reloadedEntry e k) := by
  obtain ⟨hl, htag, hp⟩ := lookup_of_findEntry he
  obtain ⟨k, hk⟩ := mem_iff_getElem?.mp (Keyed.mem_of_lookup hl)
  refine ⟨k, hk, ?_⟩
  have hrva := h.rva _ (getRtSet_lt a)
  rcases hp with rfl | ⟨rfl, hnone⟩
  · have hfind := hrva.lookup_of_getElem? (hr.rva_nodup _) hk
    rw [RTCache.findEntry, ← htag, hfind]
  · have hfind := h.erb.lookup_of_getElem? hr.erb_nodup hk
    have hmem : e.tag ∈ c.erbTags := mem_map.mpr ⟨e, Keyed.mem_of_lookup hl, rfl⟩
    -- the set of a region that is in the buffer is full, so that nothing has filled it up
    have hnone' : Keyed.lookup RTEntry.tag (c'.theRVA (g.getRtSet a)) (g.getRtTag a) =
        none := by
      refine Keyed.lookup_eq_none.mpr fun x hx hxa => ?_
      rcases (hrva.of_mem hx).2 with hin | ⟨hlen, -⟩
      · obtain ⟨y, hy, hyx⟩ := mem_map.mp hin
        exact Keyed.lookup_eq_none.mp hnone y hy (hyx.trans hxa)
      · have hfull := hr.erb_full e.tag hmem
        rw [htag, getRtSet_getRtTag, rvaTags, length_map] at hfull
        omega
    rw [RTCache.findEntry, hnone', ← htag, hfind]
    rfl

/-- **The regions that were loaded are consistent** with a table without blocks. -/
theorem RegionsReloaded.isConsistent (h : RegionsReloaded c c')
    (hr : RegionsPlaced g c.rvaTags c.erbTags) (hblocks : ∀ i, c'.theBlocks i = []) (a : ℕ) :
    c'.isConsistent a = true := by
  have hnone : c'.blockIn a (g.getBlockSet a 0) = none := by
    rw [blockIn, hblocks]
    rfl
  have hrva := h.rva _ (getRtSet_lt a)
  rw [isConsistent_iff]
  refine ⟨?_, ?_⟩
  · rw [Apart]
    by_contra hc
    rw [not_or, ← ne_eq, ← ne_eq, Option.ne_none_iff_exists', Option.ne_none_iff_exists'] at hc
    obtain ⟨⟨x, hx⟩, y, hy⟩ := hc
    have hxt := Keyed.key_of_lookup hx
    have hyt := Keyed.key_of_lookup hy
    have hymem : g.getRtTag a ∈ c.erbTags := by
      rcases (h.erb.of_mem (Keyed.mem_of_lookup hy)).2 with hin | ⟨hlen, -⟩
      · exact hyt ▸ hin
      · exact absurd hlen (lt_irrefl _)
    rcases (hrva.of_mem (Keyed.mem_of_lookup hx)).2 with hin | ⟨hlen, -⟩
    · refine hr.disjoint _ hymem ?_
      rw [getRtSet_getRtTag]
      exact hxt ▸ hin
    · have hfull := hr.erb_full _ hymem
      rw [getRtSet_getRtTag, rvaTags, length_map] at hfull
      omega
  · rw [Matches]
    cases he : c'.findEntry a with
    | none =>
      intro b hb
      rw [hnone] at hb
      cases hb
    | some q =>
      obtain ⟨p, x⟩ := q
      obtain ⟨hl, -, hp⟩ := lookup_of_findEntry he
      have hx : x.state (g.getBlockOffset a) = .invalid := by
        rcases hp with rfl | ⟨rfl, -⟩
        · exact (hrva.of_mem (Keyed.mem_of_lookup hl)).1 _
        · exact (h.erb.of_mem (Keyed.mem_of_lookup hl)).1 _
      dsimp only
      rw [hnone]
      exact hx

/-! ### Blocks that were loaded -/

theorem stateOf_eq_valueOf (l : BlockSet) (t : ℕ) :
    l.stateOf t = Slots.valueOf .invalid l.row t := by
  have hcomp : ((fun x : ℕ × CoherenceState => decide (x.1 = t)) ∘ fun e : BlockEntry =>
      (e.tag, e.state)) = fun e => decide (e.tag = t) := rfl
  rw [BlockSet.stateOf, BlockSet.findTag, Slots.valueOf, BlockSet.row, find?_map, hcomp]
  cases l.find? fun e => decide (e.tag = t) <;> rfl

theorem stateOf_numbered (l : BlockSet) (t : ℕ) : (StdCache.numbered l).stateOf t = l.stateOf t := by
  rw [stateOf_eq_valueOf, stateOf_eq_valueOf, BlockSet.row, BlockSet.row,
    StdCache.map_numbered _ fun _ _ => rfl]

theorem numbered_append_singleton (l : BlockSet) (b : BlockEntry) :
    StdCache.numbered (l ++ [b]) = StdCache.numbered l ++ [⟨b.tag, b.state, l.length⟩] := by
  rw [StdCache.numbered, length_append, length_singleton, range_succ,
    zipWith_append (by rw [length_range]), StdCache.numbered]
  rfl

theorem stateOf_pushBack_invalid (l : BlockSet) (u w t : ℕ) :
    (l.pushBack ⟨u, .invalid, w⟩).stateOf t = l.stateOf t := by
  rw [BlockSet.pushBack]
  split
  · rw [BlockSet.stateOf, BlockSet.stateOf, BlockSet.findTag_eq_lookup, BlockSet.findTag_eq_lookup,
      Keyed.lookup_append_singleton]
    cases Keyed.lookup BlockEntry.tag l t with
    | some b => rfl
    | none =>
      rw [Option.none_or]
      by_cases hu : u = t
      · rw [if_pos hu]
      · rw [if_neg hu]
  · rfl

/-- Where the region of an address is, and in which way. -/
def position (c : RTCache g) (a : ℕ) : Option (RTSet × ℕ) :=
  (c.findEntry a).map fun q => (q.1, q.2.way)

theorem apart_iff : c.Apart a ↔
    g.getRtTag a ∉ c.rvaTags (g.getRtSet a) ∨ g.getRtTag a ∉ c.erbTags := by
  have hmem : ∀ l : List RTEntry, Keyed.lookup RTEntry.tag l (g.getRtTag a) = none ↔
      g.getRtTag a ∉ l.map RTEntry.tag := fun l => by
    rw [Keyed.lookup_eq_none, mem_map, not_exists]
    exact forall_congr' fun x => not_and.symm
  rw [Apart, hmem, hmem, rvaTags, erbTags]

/-- **A consistent block has one state**, that of its region. -/
theorem Matches.state_eq (h : c.Matches a) : c.stateOf a =
    (c.theBlocks (g.getBlockSet a 0)).stateOf (g.getBlockTag a) := by
  rw [Matches] at h
  rw [BlockSet.stateOf]
  cases he : c.findEntry a with
  | none =>
    rw [he] at h
    rw [stateOf_of_none he]
    cases hb : (c.theBlocks (g.getBlockSet a 0)).findTag (g.getBlockTag a) with
    | none => rfl
    | some b => exact (h b hb).symm
  | some q =>
    obtain ⟨p, e⟩ := q
    rw [he] at h
    rw [stateOf_of_findEntry he]
    dsimp only at h
    cases hb : (c.theBlocks (g.getBlockSet a 0)).findTag (g.getBlockTag a) with
    | none =>
      rw [blockIn, hb] at h
      exact h
    | some b =>
      rw [blockIn, hb] at h
      exact h.1

/-- **A valid block is loaded**: its region gets the state and the way. -/
theorem isConsistent_load (hc : ∀ a, c.isConsistent a = true) {t : ℕ} (ht : g.getBlockTag t = t)
    (he : c.findEntry t = some (p, e)) (s : CoherenceState) (way : ℕ)
    (hfresh : (c.theBlocks (g.getBlockSet t 0)).findTag t = none) (a : ℕ) :
    ((c.setBlocks (g.getBlockSet t 0) (c.theBlocks (g.getBlockSet t 0) ++
      [⟨t, s, way % 2 ^ 16⟩])).modifyRegion p (g.getRtTag t) fun e =>
        e.allocateBlock (g.getBlockOffset t) s way).isConsistent a = true := by
  have hf := touches_allocateBlock (g.getBlockOffset t) s way
  obtain ⟨hrva, herb⟩ := tags_modifyRegion (c := c.setBlocks (g.getBlockSet t 0)
    (c.theBlocks (g.getBlockSet t 0) ++ [⟨t, s, way % 2 ^ 16⟩])) hf.tag p (g.getRtTag t)
  obtain ⟨hapart, hmatch⟩ := isConsistent_iff.mp (hc a)
  have hfind := findEntry_modifyRegion (c := c.setBlocks (g.getBlockSet t 0)
    (c.theBlocks (g.getBlockSet t 0) ++ [⟨t, s, way % 2 ^ 16⟩])) hf.tag he a
  have hblock : ∀ i, ((c.setBlocks (g.getBlockSet t 0) (c.theBlocks (g.getBlockSet t 0) ++
      [⟨t, s, way % 2 ^ 16⟩])).modifyRegion p (g.getRtTag t) fun e =>
        e.allocateBlock (g.getBlockOffset t) s way).blockIn a i =
      if i = g.getBlockSet t 0 ∧ g.getBlockTag a = t then some ⟨t, s, way % 2 ^ 16⟩
      else c.blockIn a i := by
    intro i
    rw [blockIn, theBlocks_modifyRegion, ← blockIn, blockIn_setBlocks]
    by_cases hi : i = g.getBlockSet t 0
    · rw [if_pos hi, BlockSet.findTag_eq_lookup, Keyed.lookup_append_singleton]
      by_cases ha : g.getBlockTag a = t
      · have hnone : Keyed.lookup BlockEntry.tag (c.theBlocks (g.getBlockSet t 0))
            (g.getBlockTag a) = none := by
          rw [ha]
          exact hfresh
        have hta : (⟨t, s, way % 2 ^ 16⟩ : BlockEntry).tag = g.getBlockTag a := ha.symm
        rw [if_pos (And.intro hi ha), hnone, Option.none_or, if_pos hta]
      · have hta : ¬(⟨t, s, way % 2 ^ 16⟩ : BlockEntry).tag = g.getBlockTag a := fun hc => ha hc.symm
        rw [if_neg hta, if_neg fun hc : i = g.getBlockSet t 0 ∧ g.getBlockTag a = t => ha hc.2,
          Option.or_none, hi]
        rfl
    · rw [if_neg hi, if_neg fun hc : i = g.getBlockSet t 0 ∧ g.getBlockTag a = t => hi hc.1]
  rw [isConsistent_iff]
  refine ⟨apart_iff.mpr (by rw [hrva, herb]; exact apart_iff.mp hapart), ?_⟩
  rw [Matches, hfind, hblock]
  by_cases ha : g.getBlockTag a = t
  · -- the block itself
    obtain ⟨htags, hoff⟩ := blockTag_eq_iff.mp (ha.trans ht.symm)
    have hset : g.getBlockSet a 0 = g.getBlockSet t 0 := by
      rw [← getBlockSet_getBlockTag a, ha]
    rw [if_pos htags, if_pos ⟨hset, ha⟩, hoff]
    exact agrees_allocateBlock e _ way rfl rfl
  · rw [if_neg fun hc : g.getBlockSet a 0 = g.getBlockSet t 0 ∧ g.getBlockTag a = t => ha hc.2]
    rw [Matches] at hmatch
    by_cases htags : g.getRtTag a = g.getRtTag t
    · have hoff : g.getBlockOffset a ≠ g.getBlockOffset t := fun hc =>
        ha ((blockTag_eq_iff.mpr ⟨htags, hc⟩).trans ht)
      rw [findEntry_congr htags, he] at hmatch
      rw [if_pos htags]
      dsimp only at hmatch ⊢
      rw [hf.state e _ hoff, hf.ways e _ hoff]
      exact hmatch
    · rw [if_neg htags]
      exact hmatch

/-- **An invalid block is loaded**, if it is loaded at all, without a change of its region. -/
theorem isConsistent_loadInvalid (hc : ∀ a, c.isConsistent a = true) (i t w a : ℕ) :
    (c.setBlocks i ((c.theBlocks i).pushBack ⟨t, .invalid, w⟩)).isConsistent a = true := by
  obtain ⟨hapart, hmatch⟩ := isConsistent_iff.mp (hc a)
  rw [isConsistent_iff]
  refine ⟨hapart, ?_⟩
  -- an entry is as it was, or new and invalid
  have hblock : (c.setBlocks i ((c.theBlocks i).pushBack ⟨t, .invalid, w⟩)).blockIn a
      (g.getBlockSet a 0) = c.blockIn a (g.getBlockSet a 0) ∨
      c.blockIn a (g.getBlockSet a 0) = none ∧ ∃ b,
        (c.setBlocks i ((c.theBlocks i).pushBack ⟨t, .invalid, w⟩)).blockIn a
          (g.getBlockSet a 0) = some b ∧ b.state = .invalid := by
    rw [blockIn_setBlocks]
    by_cases hi : g.getBlockSet a 0 = i
    · rw [if_pos hi, BlockSet.pushBack, hi]
      split
      · rw [BlockSet.findTag_eq_lookup, Keyed.lookup_append_singleton, blockIn]
        cases hl : (c.theBlocks i).findTag (g.getBlockTag a) with
        | some b =>
          rw [← BlockSet.findTag_eq_lookup, hl]
          exact .inl rfl
        | none =>
          rw [← BlockSet.findTag_eq_lookup, hl, Option.none_or]
          by_cases ht : t = g.getBlockTag a
          · exact .inr ⟨rfl, ⟨t, .invalid, w⟩, if_pos ht, rfl⟩
          · exact .inl (if_neg ht)
      · exact .inl rfl
    · exact .inl (if_neg hi)
  rw [Matches, findEntry_setBlocks]
  rw [Matches] at hmatch
  rcases hblock with hsame | ⟨hnone, b, hb, hs⟩
  · rw [hsame]
    exact hmatch
  · rw [hb]
    rw [hnone] at hmatch
    cases he : c.findEntry a with
    | none => exact fun d hd => (Option.some.inj hd) ▸ hs
    | some q =>
      obtain ⟨p, e⟩ := q
      rw [he] at hmatch
      dsimp only at hmatch ⊢
      have hinvalid : e.state (g.getBlockOffset a) = .invalid := hmatch
      exact ⟨hinvalid.trans hs.symm, fun hv => absurd hinvalid hv⟩

theorem nodup_ways_pushBack {l : BlockSet} (h : (l.map BlockEntry.way).Nodup) (b : BlockEntry) :
    ((l.pushBack b).map BlockEntry.way).Nodup := by
  rw [BlockSet.pushBack]
  split
  · rename_i hb
    rw [map_append, map_singleton, nodup_append]
    refine ⟨h, nodup_singleton _, fun x hx y hy hxy => ?_⟩
    obtain ⟨d, hd, rfl⟩ := mem_map.mp hx
    exact (hb d hd).2 (hxy.trans (mem_singleton.mp hy))
  · exact h

/-- **Loading goes on from one set of blocks to the next**: everything is consistent, and the
regions stay where they are. -/
structure Goes (i : ℕ) (c c' : RTCache g) : Prop where
  isConsistent : ∀ a, c'.isConsistent a = true
  position : ∀ a, c'.position a = c.position a
  others : ∀ j, j ≠ i → c'.theBlocks j = c.theBlocks j

theorem Goes.trans {i : ℕ} {c'' : RTCache g} (h : Goes i c c') (h' : Goes i c' c'') :
    Goes i c c'' where
  isConsistent := h'.isConsistent
  position a := (h'.position a).trans (h.position a)
  others j hj := (h'.others j hj).trans (h.others j hj)

theorem loadBlock_invalid (hc : ∀ a, c.isConsistent a = true) (i way t : ℕ) {k : Char}
    (hk : StdCache.loadChar k = some .invalid) : ∃ c', c.loadBlock i way ⟨t, k⟩ = some c' ∧
      Goes i c c' ∧ c'.theBlocks i = (c.theBlocks i).pushBack ⟨t, .invalid, way % 2 ^ 16⟩ := by
  have hload := isConsistent_loadInvalid hc i t (way % 2 ^ 16)
  refine ⟨_, ?_, ⟨hload, fun a => rfl, fun j hj => update_of_ne hj _ _⟩, update_self _ _ _⟩
  rw [loadBlock, hk]
  dsimp only [Option.bind_eq_bind, Option.bind_some]
  rw [if_neg fun hv => hv rfl, hload t]
  rfl

theorem loadBlock_valid (hc : ∀ a, c.isConsistent a = true) {t : ℕ} (ht : g.getBlockTag t = t)
    (hp : (c.position t).isSome = true) {s : CoherenceState} (hs : s ≠ .invalid) {way : ℕ}
    (hfresh : ∀ d ∈ c.theBlocks (g.getBlockSet t 0), d.tag ≠ t ∧ d.way ≠ way % 2 ^ 16) {k : Char}
    (hk : StdCache.loadChar k = some s) :
    ∃ c', c.loadBlock (g.getBlockSet t 0) way ⟨t, k⟩ = some c' ∧ Goes (g.getBlockSet t 0) c c' ∧
      c'.theBlocks (g.getBlockSet t 0) =
        c.theBlocks (g.getBlockSet t 0) ++ [⟨t, s, way % 2 ^ 16⟩] := by
  obtain ⟨⟨p, e⟩, he⟩ : ∃ q, c.findEntry t = some q := by
    rw [position, Option.isSome_map] at hp
    exact Option.isSome_iff_exists.mp hp
  have hload := isConsistent_load hc ht he s way
    (Keyed.lookup_eq_none.mpr fun d hd => (hfresh d hd).1)
  have hpush : (c.theBlocks (g.getBlockSet t 0)).pushBack ⟨t, s, way % 2 ^ 16⟩ =
      c.theBlocks (g.getBlockSet t 0) ++ [⟨t, s, way % 2 ^ 16⟩] := if_pos hfresh
  have hf := touches_allocateBlock (g.getBlockOffset t) s way
  refine ⟨_, ?_, ⟨hload, fun a => ?_, fun j hj => ?_⟩, ?_⟩
  · rw [loadBlock, hk]
    dsimp only [Option.bind_eq_bind, Option.bind_some]
    rw [if_pos hs, hpush, findEntry_setBlocks, he]
    dsimp only [Option.bind_some]
    rw [hload t]
    rfl
  · rw [position, findEntry_modifyRegion (c := c.setBlocks (g.getBlockSet t 0) _) hf.tag he,
      position, findEntry_setBlocks]
    by_cases ha : g.getRtTag a = g.getRtTag t
    · rw [if_pos ha, findEntry_congr ha, he]
      rfl
    · rw [if_neg ha]
  · rw [theBlocks_modifyRegion]
    exact update_of_ne hj _ _
  · rw [theBlocks_modifyRegion]
    exact update_self _ _ _

/-- What is saved of a block. -/
def blockItem (b : BlockEntry) : RTItem := .block ⟨b.tag, (StdCache.saveChar b.state).getD 'I'⟩

/-- **The blocks of a set are loaded one by one.** -/
theorem loadBlocks_map {i : ℕ} (l done : BlockSet) (hc : ∀ a, c.isConsistent a = true)
    (hnodup : ((done ++ l).map BlockEntry.tag).Nodup) (hlen : (done ++ l).length ≤ 2 ^ 16)
    (hdone : c.theBlocks i = StdCache.numbered done)
    (hl : ∀ b ∈ l, b.state ≠ .migratory ∧ g.getBlockTag b.tag = b.tag ∧ (b.state ≠ .invalid →
      i = g.getBlockSet b.tag 0 ∧ (c.position b.tag).isSome = true))
    (ways : List ℕ) (rest : List RTItem) :
    ∃ c', loadBlocks i (List.range' done.length l.length ++ ways) c (l.map blockItem ++ rest) =
        loadBlocks i ways c' rest ∧ Goes i c c' ∧
      c'.theBlocks i = StdCache.numbered (done ++ l) := by
  induction l generalizing c done with
  | nil =>
    rw [append_nil]
    exact ⟨c, rfl, ⟨hc, fun _ => rfl, fun _ _ => rfl⟩, hdone⟩
  | cons b l ih =>
    obtain ⟨hmig, htag, hvalid⟩ := hl b mem_cons_self
    have happend : done ++ b :: l = done ++ [b] ++ l := by rw [append_assoc]; rfl
    have hlt : done.length < 2 ^ 16 := by
      rw [length_append, length_cons] at hlen
      omega
    have hmod : done.length % 2 ^ 16 = done.length := Nat.mod_eq_of_lt hlt
    have hfresh : ∀ d ∈ c.theBlocks i, d.tag ≠ b.tag ∧ d.way ≠ done.length % 2 ^ 16 := by
      intro d hd
      rw [hdone] at hd
      refine ⟨fun hdt => ?_, fun hdw => ?_⟩
      · have hmem : d.tag ∈ done.map BlockEntry.tag := by
          rw [← StdCache.map_numbered BlockEntry.tag fun _ _ => rfl]
          exact mem_map_of_mem hd
        rw [map_append, map_cons, nodup_middle, nodup_cons] at hnodup
        exact hnodup.1 (hdt ▸ mem_append_left _ hmem)
      · have hmem : d.way ∈ (StdCache.numbered done).map BlockEntry.way := mem_map_of_mem hd
        rw [StdCache.map_way_numbered, mem_range, hdw, hmod] at hmem
        exact absurd hmem (lt_irrefl _)
    have hk := StdCache.loadChar_saveChar hmig
    obtain ⟨c₁, hload, hgoes, hblocks⟩ : ∃ c₁, c.loadBlock i done.length
        ⟨b.tag, (StdCache.saveChar b.state).getD 'I'⟩ = some c₁ ∧ Goes i c c₁ ∧
        c₁.theBlocks i = c.theBlocks i ++ [⟨b.tag, b.state, done.length % 2 ^ 16⟩] := by
      by_cases hs : b.state = .invalid
      · rw [hs] at hk ⊢
        have hpush : (c.theBlocks i).pushBack ⟨b.tag, .invalid, done.length % 2 ^ 16⟩ =
            c.theBlocks i ++ [⟨b.tag, .invalid, done.length % 2 ^ 16⟩] := if_pos hfresh
        rw [← hpush]
        exact loadBlock_invalid hc i done.length b.tag hk
      · obtain ⟨rfl, hp⟩ := hvalid hs
        exact loadBlock_valid hc htag hp hs hfresh hk
    have hdone₁ : c₁.theBlocks i = StdCache.numbered (done ++ [b]) := by
      rw [hblocks, numbered_append_singleton, hdone, hmod]
    rw [happend] at hnodup hlen
    obtain ⟨c₂, hrest, hgoes₂, hblocks₂⟩ := ih _ hgoes.isConsistent hnodup hlen hdone₁ fun d hd => by
      obtain ⟨h1, h2, h3⟩ := hl d (mem_cons_of_mem b hd)
      exact ⟨h1, h2, fun hv => ⟨(h3 hv).1, by rw [hgoes.position]; exact (h3 hv).2⟩⟩
    refine ⟨c₂, ?_, hgoes.trans hgoes₂, by rw [happend]; exact hblocks₂⟩
    rw [length_append, length_singleton] at hrest
    rw [← hrest]
    show (c.loadBlock i done.length _ >>= _) = _
    rw [hload]
    rfl

theorem loadBlocks_pad (i : ℕ) (ways : List ℕ) (hc : ∀ a, c.isConsistent a = true)
    (hnodup : ((c.theBlocks i).map BlockEntry.way).Nodup) (rest : List RTItem) :
    ∃ c', loadBlocks i ways c (List.replicate ways.length (.block ⟨0, 'I'⟩) ++ rest) =
        some (c', rest) ∧ Goes i c c' ∧
      (∀ t, (c'.theBlocks i).stateOf t = (c.theBlocks i).stateOf t) ∧
      ((c'.theBlocks i).map BlockEntry.way).Nodup := by
  induction ways generalizing c with
  | nil => exact ⟨c, rfl, ⟨hc, fun _ => rfl, fun _ _ => rfl⟩, fun _ => rfl, hnodup⟩
  | cons w ways ih =>
    obtain ⟨c₁, hload, hgoes, hblocks⟩ := loadBlock_invalid hc i w 0 (k := 'I') rfl
    have hnodup₁ : ((c₁.theBlocks i).map BlockEntry.way).Nodup := by
      rw [hblocks]
      exact nodup_ways_pushBack hnodup _
    obtain ⟨c₂, hrest, hgoes₂, hstate, hnodup₂⟩ := ih hgoes.isConsistent hnodup₁
    refine ⟨c₂, ?_, hgoes.trans hgoes₂, fun t => ?_, hnodup₂⟩
    · rw [← hrest]
      show (c.loadBlock i w ⟨0, 'I'⟩ >>= _) = _
      rw [hload]
      rfl
    · rw [hstate, hblocks, stateOf_pushBack_invalid]

/-- What is saved of a set of blocks. -/
def blockItems (g : RTGeometry) (l : BlockSet) : List RTItem :=
  l.map blockItem ++ List.replicate (g.theAssociativity - l.length) (.block ⟨0, 'I'⟩)

/-- **A set of blocks is loaded.** -/
theorem loadBlocks_blockItems {i : ℕ} {l : BlockSet} (hc : ∀ a, c.isConsistent a = true)
    (hl : l.Placed g) (hempty : c.theBlocks i = [])
    (hb : ∀ b ∈ l, b.state ≠ .migratory ∧ (b.state ≠ .invalid →
      i = g.getBlockSet b.tag 0 ∧ (c.position b.tag).isSome = true)) (rest : List RTItem) :
    ∃ c', loadBlocks i (List.range g.theAssociativity) c (blockItems g l ++ rest) =
        some (c', rest) ∧ Goes i c c' ∧ (∀ t, (c'.theBlocks i).stateOf t = l.stateOf t) ∧
      ((c'.theBlocks i).map BlockEntry.way).Nodup := by
  obtain ⟨k, hk⟩ := Nat.exists_eq_add_of_le hl.length_le
  have hrange : List.range g.theAssociativity =
      List.range' 0 l.length ++ List.range' l.length k := by
    rw [hk, range_eq_range', ← range'_append_1, Nat.zero_add]
  obtain ⟨c₁, hload, hgoes, hblocks⟩ := loadBlocks_map l [] hc
    (by rw [nil_append]; exact hl.tags_nodup)
    (by rw [nil_append]; exact hl.length_le_two_pow) hempty
    (fun b hbl => ⟨(hb b hbl).1, hl.isTag b hbl, (hb b hbl).2⟩) (List.range' l.length k)
    (List.replicate k (.block ⟨0, 'I'⟩) ++ rest)
  rw [nil_append] at hblocks
  obtain ⟨c₂, hpad, hgoes₂, hstate, hnodup⟩ := loadBlocks_pad i (List.range' l.length k)
    hgoes.isConsistent (by rw [hblocks, StdCache.map_way_numbered]; exact nodup_range) rest
  rw [length_range'] at hpad
  refine ⟨c₂, ?_, hgoes.trans hgoes₂, fun t => ?_, hnodup⟩
  · rw [blockItems, hk, Nat.add_sub_cancel_left, ← hk, hrange, append_assoc, ← hpad]
    exact hload
  · rw [hstate, hblocks, stateOf_numbered]

/-- **The block table is loaded.** -/
theorem loadTable_blockItems {l : ℕ → BlockSet} {is : List ℕ} (his : is.Nodup)
    (hc : ∀ a, c.isConsistent a = true) (hl : ∀ i, (l i).Placed g)
    (hempty : ∀ i ∈ is, c.theBlocks i = [])
    (hb : ∀ i ∈ is, ∀ b ∈ l i, b.state ≠ .migratory ∧ (b.state ≠ .invalid →
      i = g.getBlockSet b.tag 0 ∧ (c.position b.tag).isSome = true)) :
    ∃ c', loadTable is c (is.map fun i => blockItems g (l i)).flatten = some c' ∧
      (∀ a, c'.isConsistent a = true) ∧ (∀ a, c'.position a = c.position a) ∧
      (∀ i ∈ is, (∀ t, (c'.theBlocks i).stateOf t = (l i).stateOf t) ∧
        ((c'.theBlocks i).map BlockEntry.way).Nodup) ∧
      ∀ i, i ∉ is → c'.theBlocks i = c.theBlocks i := by
  induction is generalizing c with
  | nil =>
    exact ⟨c, rfl, hc, fun _ => rfl, fun _ hi => absurd hi not_mem_nil, fun _ _ => rfl⟩
  | cons i is ih =>
    rw [nodup_cons] at his
    obtain ⟨c₁, hload, hgoes, hstate, hnodup⟩ := loadBlocks_blockItems hc (hl i)
      (hempty i mem_cons_self) (hb i mem_cons_self)
      (is.map fun i => blockItems g (l i)).flatten
    have hempty₁ : ∀ j ∈ is, c₁.theBlocks j = [] := fun j hj => by
      rw [hgoes.others j fun hc => his.1 (hc ▸ hj)]
      exact hempty j (mem_cons_of_mem i hj)
    have hb₁ : ∀ j ∈ is, ∀ b ∈ l j, b.state ≠ .migratory ∧ (b.state ≠ .invalid →
        j = g.getBlockSet b.tag 0 ∧ (c₁.position b.tag).isSome = true) := fun j hj b hbl => by
      obtain ⟨hmig, hv⟩ := hb j (mem_cons_of_mem i hj) b hbl
      exact ⟨hmig, fun hs => ⟨(hv hs).1, by rw [hgoes.position]; exact (hv hs).2⟩⟩
    obtain ⟨c₂, hrest, hcons, hpos, hmem, hout⟩ := ih his.2 hgoes.isConsistent hempty₁ hb₁
    refine ⟨c₂, ?_, hcons, fun a => (hpos a).trans (hgoes.position a), fun j hj => ?_,
      fun j hj => ?_⟩
    · rw [map_cons, flatten_cons, loadTable, hload]
      exact hrest
    · rcases mem_cons.mp hj with rfl | hj
      · rw [hout j his.1]
        exact ⟨hstate, hnodup⟩
      · exact hmem j hj
    · rw [mem_cons, not_or] at hj
      rw [hout j hj.2, hgoes.others j hj.1]

/-! ### The whole checkpoint -/

/-- What is saved. -/
def savedItems (c : RTCache g) : List RTItem :=
  .int g.theNumRTSets :: .int g.theRTAssociativity ::
    (((List.range g.theNumRTSets).map fun i => saveRegions g (c.theRVA i)).flatten ++
      .int c.theERB.length :: (c.theERB.map (fun e => .region e.getSerializer) ++
        .int g.theNumDataSets :: .int g.theAssociativity ::
          ((List.range g.theNumDataSets).map fun i => blockItems g (c.theBlocks i)).flatten))

/-- The blocks of the table that can be saved. -/
def Savable (c : RTCache g) : Prop := ∀ i < g.theNumDataSets, ∀ b ∈ c.theBlocks i,
  b.state ≠ .migratory ∧ c.isConsistent b.tag = true

theorem saveState_eq (h : c.Savable) : c.saveState = some c.savedItems := by
  have hblock : ∀ i ∈ List.range g.theNumDataSets, c.saveBlocks (c.theBlocks i) =
      some (blockItems g (c.theBlocks i)) := by
    intro i hi
    have hb : ∀ b ∈ c.theBlocks i, c.saveBlock b = some (blockItem b) := by
      intro b hb
      obtain ⟨hmig, hcons⟩ := h i (mem_range.mp hi) b hb
      obtain ⟨k, hk, -⟩ := Cache.exists_saveChar hmig
      rw [saveBlock, blockItem, hk, hcons]
      rfl
    rw [saveBlocks, mapM_eq_some hb]
    rfl
  rw [saveState, mapM_eq_some hblock]
  rfl

theorem exists_of_mapM {α β : Type} {f : α → Option β} {xs : List α} {ys : List β}
    (h : xs.mapM f = some ys) : ∀ x ∈ xs, ∃ y, f x = some y := by
  have hall := forall₂_of_mapM h
  clear h
  induction hall with
  | nil => exact fun x hx => absurd hx not_mem_nil
  | cons hxy _ ih =>
    intro x hx
    rcases mem_cons.mp hx with rfl | hx
    · exact ⟨_, hxy⟩
    · exact ih x hx

theorem savable_of_saveState {bs : List RTItem} (h : c.saveState = some bs) : c.Savable := by
  obtain ⟨sets, hsets, -⟩ := Option.bind_eq_some_iff.mp h
  intro i hi b hb
  obtain ⟨items, hitems⟩ := exists_of_mapM hsets i (mem_range.mpr hi)
  obtain ⟨saved, hsaved, -⟩ := Option.bind_eq_some_iff.mp hitems
  obtain ⟨item, hitem⟩ := exists_of_mapM hsaved b hb
  obtain ⟨k, hk, hrest⟩ := Option.bind_eq_some_iff.mp hitem
  refine ⟨fun hmig => ?_, ?_⟩
  · rw [hmig] at hk
    cases hk
  · by_contra hcons
    rw [if_neg hcons] at hrest
    cases hrest

/-- **The regions of a checkpoint are read back**, and then its blocks, if the numbers that are
compared are the same. -/
theorem loadState_savedItems (h : RegionsPlaced g c.rvaTags c.erbTags) : ∃ c₁ : RTCache g,
    RegionsReloaded c c₁ ∧ (∀ i, c₁.theBlocks i = []) ∧ loadState g c.savedItems =
      if g.theNumRTSets = g.theRTAssociativity ∧ g.theNumDataSets = g.theAssociativity then
        loadTable (List.range g.theNumDataSets) c₁
          ((List.range g.theNumDataSets).map fun i => blockItems g (c.theBlocks i)).flatten
      else none := by
  have hempty : ∀ i ∈ List.range g.theNumRTSets, (empty g).theRVA i = [] := fun _ _ => rfl
  obtain ⟨rva, hrva, hreload, -⟩ := loadRVA_saveRegions h nodup_range hempty
    (.int c.theERB.length :: (c.theERB.map (fun e => .region e.getSerializer) ++
      .int g.theNumDataSets :: .int g.theAssociativity ::
        ((List.range g.theNumDataSets).map fun i => blockItems g (c.theBlocks i)).flatten))
  have herb := loadRegions_map c.theERB [] 0 [] (.int g.theNumDataSets ::
      .int g.theAssociativity ::
        ((List.range g.theNumDataSets).map fun i => blockItems g (c.theBlocks i)).flatten)
    (by rw [nil_append]; exact h.erb_nodup)
  rw [append_nil, nil_append, ← range_eq_range'] at herb
  refine ⟨{ empty g with
    theRVA := rva
    theERB := c.theERB.zipIdx.map (fun x => reloadedEntry x.1 x.2) }, ⟨fun i hi => hreload i (mem_range.mpr hi),
    Reloads.of_length c.theERB⟩, fun _ => rfl, ?_⟩
  rw [savedItems, loadState]
  by_cases hrt : g.theNumRTSets = g.theRTAssociativity
  · rw [if_pos ⟨rfl, hrt⟩, hrva]
    dsimp only [Option.bind_eq_bind, Option.bind_some]
    rw [show (empty g).theERB = [] from rfl, herb]
    dsimp only [Option.bind_some, loadRegions]
    by_cases hdata : g.theNumDataSets = g.theAssociativity
    · rw [if_pos ⟨rfl, hdata⟩, if_pos ⟨hrt, hdata⟩]
    · rw [if_neg fun hc => hdata hc.2, if_neg fun hc => hdata hc.2]
  · rw [if_neg fun hc => hrt hc.2, if_neg fun hc => hrt hc.1]

theorem getBlockSet_lt (a w : ℕ) : g.getBlockSet a w < g.theNumDataSets := by
  have hle : ∀ x, x &&& (g.theNumDataSets - 1) < g.theNumDataSets := fun x =>
    lt_of_le_of_lt Nat.and_le_right (Nat.sub_lt g.sets_pos Nat.one_pos)
  rw [getBlockSet]
  split
  · exact hle _
  · exact hle _

/-- **What a lookup finds**, if it finds a valid block in the set of its region. -/
theorem lookup_eq (hc : c.isConsistent a = true)
    (hw : ∀ i, ((c.theBlocks i).map BlockEntry.way).Nodup) (he : c.findEntry a = some (p, e))
    (hv : e.state (g.getBlockOffset a) ≠ .invalid) {s : CoherenceState}
    (h : (c.lookup a).map c.getState = .ok s) :
    s = (c.theBlocks (g.getBlockSet a e.way)).stateOf (g.getBlockTag a) := by
  rw [lookup, he] at h
  dsimp only at h
  rw [if_pos (CoherenceState.isValid_iff.mpr hv)] at h
  rw [BlockSet.stateOf]
  cases hb : (c.theBlocks (g.getBlockSet a e.way)).findTag (g.getBlockTag a) with
  | none =>
    rw [hb] at h
    cases h
  | some b =>
    rw [hb, assertConsistent, hc] at h
    have hway := BlockSet.atWay_of_mem (hw (g.getBlockSet a e.way)) (BlockSet.mem_of_findTag hb)
    have hs : c.getState (some ⟨a, p, e.tag, g.getBlockOffset a, g.getBlockSet a e.way, b.way⟩) =
        b.state := by
      rw [getState, hway]
    exact (Except.ok.inj h).symm.trans hs

/-- **A lookup finds the state of the block**, where everything is consistent and the set of a
valid block is the one for way 0. -/
theorem lookup_eq_stateOf (hc : c.isConsistent a = true)
    (hw : ∀ i, ((c.theBlocks i).map BlockEntry.way).Nodup)
    (hset : ∀ p e, c.findEntry a = some (p, e) → e.state (g.getBlockOffset a) ≠ .invalid →
      g.getBlockSet a e.way = g.getBlockSet a 0) :
    (c.lookup a).map c.getState = .ok (c.stateOf a) := by
  have hmatch := (isConsistent_iff.mp hc).2
  cases he : c.findEntry a with
  | none =>
    rw [lookup, he, stateOf_of_none he]
    rfl
  | some q =>
    obtain ⟨p, e⟩ := q
    by_cases hv : e.state (g.getBlockOffset a) = .invalid
    · rw [lookup, he, stateOf_of_findEntry he]
      dsimp only
      rw [if_neg fun hc => CoherenceState.isValid_iff.mp hc hv, hv]
      rfl
    · obtain ⟨r, hr⟩ : ∃ s, (c.lookup a).map c.getState = .ok s := by
        rw [lookup, he]
        dsimp only
        rw [if_pos (CoherenceState.isValid_iff.mpr hv), hset p e he hv]
        rw [Matches, he] at hmatch
        dsimp only at hmatch
        cases hb : (c.theBlocks (g.getBlockSet a 0)).findTag (g.getBlockTag a) with
        | none =>
          rw [blockIn, hb] at hmatch
          exact absurd hmatch hv
        | some b =>
          dsimp only
          rw [assertConsistent, hc]
          exact ⟨_, rfl⟩
      rw [hr, lookup_eq hc hw he hv hr, hset p e he hv, ← hmatch.state_eq]

/-- **The checkpoint restores the contents**: it is written, it is accepted, and afterwards every
block looks up with the same state and every block is consistent. -/
def Restores (c : RTCache g) : Prop := ∃ bs c', c.saveState = some bs ∧ loadState g bs = some c' ∧
  (∀ a, ∃ s, (c.lookup a).map c.getState = .ok s ∧ (c'.lookup a).map c'.getState = .ok s) ∧
  ∀ a, c'.isConsistent a = true

/-- **What a checkpoint relies on**: the numbers that the loader compares are the same, no block
is migratory, and the set of a valid block is the one for way 0, for the way of its region and
for the position of its region. Without the skew a block has only one set. -/
structure Reloadable (c : RTCache g) : Prop where
  rtSets : g.theNumRTSets = g.theRTAssociativity
  dataSets : g.theNumDataSets = g.theAssociativity
  savable : ∀ i < g.theNumDataSets, ∀ b ∈ c.theBlocks i, b.state ≠ .migratory
  sets : ∀ p k e, (c.entries p)[k]? = some e → ∀ i < g.theBlocksPerRegion, e.state i ≠ .invalid →
    g.getBlockSet (g.blockAddr e.tag i) e.way = g.getBlockSet (g.blockAddr e.tag i) 0 ∧
      g.getBlockSet (g.blockAddr e.tag i) k = g.getBlockSet (g.blockAddr e.tag i) 0

theorem findEntry_of_getElem? (h : RegionsPlaced g c.rvaTags c.erbTags) {k : ℕ}
    (hk : (c.entries p)[k]? = some e) (ha : g.getRtTag a = e.tag) :
    c.findEntry a = some (p, e) := by
  have hmem := mem_of_getElem? hk
  cases p with
  | rva i =>
    have htag : e.tag ∈ c.rvaTags i := mem_map.mpr ⟨e, hmem, rfl⟩
    have hset : g.getRtSet a = i := by
      rw [← getRtSet_getRtTag, ha]
      exact (h.rva_tag i _ htag).2
    have hl : Keyed.lookup RTEntry.tag (c.theRVA i) e.tag = some e :=
      Keyed.lookup_of_mem (h.rva_nodup i) hmem
    rw [findEntry, ha, hset, hl]
  | erb =>
    have htag : e.tag ∈ c.erbTags := mem_map.mpr ⟨e, hmem, rfl⟩
    have hl : Keyed.lookup RTEntry.tag c.theERB e.tag = some e :=
      Keyed.lookup_of_mem h.erb_nodup hmem
    have hnone : Keyed.lookup RTEntry.tag (c.theRVA (g.getRtSet a)) e.tag = none := by
      refine Keyed.lookup_eq_none.mpr fun x hx hxe => h.disjoint e.tag htag ?_
      rw [← ha, getRtSet_getRtTag]
      exact mem_map.mpr ⟨x, hx, hxe.trans ha.symm⟩
    rw [findEntry, ha, hnone, hl]
    rfl

theorem nodup_entries (h : RegionsPlaced g c.rvaTags c.erbTags) (p : RTSet) :
    ((c.entries p).map RTEntry.tag).Nodup := by
  cases p with
  | rva i => exact h.rva_nodup i
  | erb => exact h.erb_nodup

/-- **A checkpoint that is written and accepted**: what was loaded has the same states, and each
region is in the way of its position. -/
theorem loadState_spec (h : c.Inv n) (hsave : c.Savable)
    (hrt : g.theNumRTSets = g.theRTAssociativity) (hdata : g.theNumDataSets = g.theAssociativity) :
    ∃ c', loadState g c.savedItems = some c' ∧ (∀ a, c'.isConsistent a = true) ∧
      (∀ i, ((c'.theBlocks i).map BlockEntry.way).Nodup) ∧
      (∀ i < g.theNumDataSets, ∀ t, (c'.theBlocks i).stateOf t = (c.theBlocks i).stateOf t) ∧
      ∀ p k e, (c.entries p)[k]? = some e → ∀ a, g.getRtTag a = e.tag →
        c'.position a = some (p, k) := by
  obtain ⟨c₁, hreload, hempty, hload⟩ := loadState_savedItems h.regions
  rw [if_pos ⟨hrt, hdata⟩] at hload
  have hpos : ∀ p k e, (c.entries p)[k]? = some e → ∀ a, g.getRtTag a = e.tag →
      c₁.position a = some (p, k) := by
    intro p k e hk a ha
    obtain ⟨j, hj, hfind⟩ := hreload.findEntry h.regions (findEntry_of_getElem? h.regions hk ha)
    have hjk : j = k := by
      have hnodup := List.Nodup.of_map _ (nodup_entries h.regions p)
      have hlt : j < (c.entries p).length := (List.getElem?_eq_some_iff.mp hj).1
      exact (List.getElem?_inj hlt hnodup).mp (hj.trans hk.symm)
    rw [position, hfind, hjk]
    rfl
  have hblocks : ∀ i ∈ List.range g.theNumDataSets, ∀ b ∈ c.theBlocks i,
      b.state ≠ .migratory ∧ (b.state ≠ .invalid →
        i = g.getBlockSet b.tag 0 ∧ (c₁.position b.tag).isSome = true) := by
    intro i hi b hb
    obtain ⟨hmig, hcons⟩ := hsave i (mem_range.mp hi) b hb
    refine ⟨hmig, fun hv => ?_⟩
    have hplaced := h.blocks i
    have hin : c.blockIn b.tag i = some b := by
      rw [blockIn, hplaced.isTag b hb]
      exact Keyed.lookup_of_mem hplaced.tags_nodup hb
    obtain ⟨p, e, he, hset, hes, -⟩ := (h.linked b.tag).of_valid hin hv
    have hset0 := (isConsistent_iff_of_linked h.regions (h.linked b.tag)).mp hcons p e he (hes ▸ hv)
    obtain ⟨hl, htag, -⟩ := lookup_of_findEntry he
    obtain ⟨k, hk⟩ := mem_iff_getElem?.mp (Keyed.mem_of_lookup hl)
    refine ⟨hset.trans hset0, ?_⟩
    rw [hpos p k e hk b.tag htag.symm]
    rfl
  obtain ⟨c', htable, hcons, hposition, hmem, hout⟩ := loadTable_blockItems nodup_range
    (hreload.isConsistent h.regions hempty) h.blocks (fun i _ => hempty i) hblocks
  refine ⟨c', hload.trans htable, hcons, fun i => ?_, fun i hi => (hmem i (mem_range.mpr hi)).1,
    fun p k e hk a ha => (hposition a).trans (hpos p k e hk a ha)⟩
  by_cases hi : i ∈ List.range g.theNumDataSets
  · exact (hmem i hi).2
  · rw [hout i hi, hempty]
    exact nodup_nil

/-- **A region that was loaded has the states of its blocks again.** -/
theorem stateOf_reloaded (hc : ∀ a, c.isConsistent a = true)
    (hc' : ∀ a, c'.isConsistent a = true) (hstate : ∀ i < g.theNumDataSets, ∀ t,
      (c'.theBlocks i).stateOf t = (c.theBlocks i).stateOf t) (a : ℕ) :
    c'.stateOf a = c.stateOf a := by
  rw [(isConsistent_iff.mp (hc' a)).2.state_eq, (isConsistent_iff.mp (hc a)).2.state_eq,
    hstate _ (getBlockSet_lt a 0)]

/-- A region tracker that can be saved is consistent everywhere. -/
theorem isConsistent_of_savable (h : c.Inv n) (hsave : c.Savable) (a : ℕ) :
    c.isConsistent a = true := by
  refine (isConsistent_iff_of_linked h.regions (h.linked a)).mpr fun p e he hv => ?_
  obtain ⟨b, hb, -, -⟩ := (h.linked a).of_state he hv
  have htag := BlockSet.tag_of_findTag hb
  have hcons := (hsave _ (getBlockSet_lt a e.way) b (BlockSet.mem_of_findTag hb)).2
  rw [htag, isConsistent_iff_of_linked h.regions (h.linked _)] at hcons
  have hset := hcons p e ((findEntry_congr (getRtTag_getBlockTag a)).trans he)
    (by rwa [getBlockOffset_getBlockTag])
  rwa [getBlockSet_getBlockTag, getBlockSet_getBlockTag] at hset

/-- What a checkpoint relies on is enough for it to be written. -/
theorem Reloadable.isConsistent (hr : c.Reloadable) (h : c.Inv n) (a : ℕ) :
    c.isConsistent a = true := by
  refine (isConsistent_iff_of_linked h.regions (h.linked a)).mpr fun p e he hv => ?_
  obtain ⟨hl, htag, -⟩ := lookup_of_findEntry he
  obtain ⟨k, hk⟩ := mem_iff_getElem?.mp (Keyed.mem_of_lookup hl)
  have hset := (hr.sets p k e hk _ (offset_lt a) hv).1
  rwa [htag, blockAddr_offset, getBlockSet_getBlockTag, getBlockSet_getBlockTag] at hset

/-- **A checkpoint restores the contents exactly if what it relies on holds.** -/
theorem restores_iff_of_inv (h : c.Inv n) : c.Restores ↔ c.Reloadable := by
  constructor
  · rintro ⟨bs, c', hsaved, hload, hlookup, -⟩
    have hsave := savable_of_saveState hsaved
    have hcons := isConsistent_of_savable h hsave
    obtain rfl : c.savedItems = bs := Option.some.inj ((saveState_eq hsave).symm.trans hsaved)
    obtain ⟨hrt, hdata⟩ : g.theNumRTSets = g.theRTAssociativity ∧
        g.theNumDataSets = g.theAssociativity := by
      obtain ⟨c₁, -, -, heq⟩ := loadState_savedItems h.regions
      by_contra hne
      rw [if_neg hne, hload] at heq
      cases heq
    obtain ⟨c'', hload', hcons', hways, hstate, hpos⟩ := loadState_spec h hsave hrt hdata
    obtain rfl : c' = c'' := Option.some.inj (hload.symm.trans hload')
    refine ⟨hrt, hdata, fun i hi b hb => (hsave i hi b hb).1, fun p k e hk i hi hv => ?_⟩
    have htag : g.getRtTag e.tag = e.tag := by
      have hmem := mem_of_getElem? hk
      cases p with
      | rva j => exact (h.regions.rva_tag j _ (mem_map.mpr ⟨e, hmem, rfl⟩)).1
      | erb => exact h.regions.erb_tag _ (mem_map.mpr ⟨e, hmem, rfl⟩)
    obtain ⟨haddr, hoff, hblock⟩ := blockAddr_spec htag hi
    have he := findEntry_of_getElem? h.regions hk haddr
    have hv' : e.state (g.getBlockOffset (g.blockAddr e.tag i)) ≠ .invalid := by rwa [hoff]
    have hset := (isConsistent_iff_of_linked h.regions (h.linked _)).mp (hcons _) p e he hv'
    refine ⟨hset, ?_⟩
    by_contra hne
    -- the block is not where its region is after loading
    obtain ⟨e', he', hway⟩ : ∃ e', c'.findEntry (g.blockAddr e.tag i) = some (p, e') ∧
        e'.way = k := by
      obtain ⟨⟨q, e'⟩, he', heq⟩ := Option.map_eq_some_iff.mp (hpos p k e hk _ haddr)
      obtain ⟨rfl, hway⟩ := Prod.mk.inj heq
      exact ⟨e', he', hway⟩
    have hsame := stateOf_reloaded hcons hcons' hstate (g.blockAddr e.tag i)
    rw [stateOf_of_findEntry he', stateOf_of_findEntry he] at hsame
    obtain ⟨s, hs, hs'⟩ := hlookup (g.blockAddr e.tag i)
    have hfound := lookup_eq (hcons _) (fun j => (h.blocks j).ways_nodup) he hv' hs
    have hfound' := lookup_eq (hcons' _) hways he' (hsame ▸ hv') hs'
    rw [hway, hstate _ (getBlockSet_lt _ k), BlockSet.stateOf] at hfound'
    have hinvalid : s = .invalid := by
      rw [hfound']
      cases hb : (c.theBlocks (g.getBlockSet (g.blockAddr e.tag i) k)).findTag
          (g.getBlockTag (g.blockAddr e.tag i)) with
      | none => rfl
      | some b =>
        refine ((h.linked _).of_findEntry he).2 _ b (fun hc => hne ?_) hb
        rw [hc, hset]
    have hvalid : s = e.state (g.getBlockOffset (g.blockAddr e.tag i)) := by
      rw [hfound, hset, ← (isConsistent_iff.mp (hcons _)).2.state_eq, stateOf_of_findEntry he]
    exact hv' (hvalid.symm.trans hinvalid)
  · intro hr
    have hcons := hr.isConsistent h
    have hsave : c.Savable := fun i hi b hb => ⟨hr.savable i hi b hb, hcons b.tag⟩
    obtain ⟨c', hload, hcons', hways, hstate, hpos⟩ := loadState_spec h hsave hr.rtSets hr.dataSets
    refine ⟨c.savedItems, c', saveState_eq hsave, hload, fun a => ⟨c.stateOf a, ?_, ?_⟩, hcons'⟩
    · exact lookup_eq_stateOf (hcons a) (fun i => (h.blocks i).ways_nodup)
        ((isConsistent_iff_of_linked h.regions (h.linked a)).mp (hcons a))
    · have hsame := stateOf_reloaded hcons hcons' hstate a
      rw [← hsame]
      refine lookup_eq_stateOf (hcons' a) hways fun p e' he' hv => ?_
      -- the region has been saved, and is in the way of its position
      rw [stateOf_of_findEntry he'] at hsame
      cases he : c.findEntry a with
      | none =>
        rw [stateOf_of_none he] at hsame
        exact absurd hsame hv
      | some q =>
        obtain ⟨q, e⟩ := q
        rw [stateOf_of_findEntry he] at hsame
        obtain ⟨hl, htag, -⟩ := lookup_of_findEntry he
        obtain ⟨k, hk⟩ := mem_iff_getElem?.mp (Keyed.mem_of_lookup hl)
        have hposition := hpos q k e hk a htag.symm
        rw [position, he'] at hposition
        obtain ⟨-, hway⟩ := Prod.mk.inj (Option.some.inj hposition)
        have hset := (hr.sets q k e hk _ (offset_lt a) (hsame ▸ hv)).2
        rw [htag, blockAddr_offset, getBlockSet_getBlockTag, getBlockSet_getBlockTag] at hset
        rw [← hset]
        exact congrArg _ hway

/-- **The checkpoint of every reachable region tracker** is written and accepted and restores its
contents exactly if the numbers of sets and ways are the same, no block is migratory, and the
skew leads to the same set for the way and the position of each region. -/
theorem restores_iff_reloadable {x : Session g} (h : (machine g).ReachableWhen Session.Allows x) :
    x.cache.Restores ↔ x.cache.Reloadable :=
  restores_iff_of_inv (sound_of_reachable h).inv

/-- A region tracker with as many sets as ways, after an allocation. -/
theorem restores_iff_reloadable_oneWay : ∃ x : Session (oneWay .setLRU),
    (machine (oneWay .setLRU)).run [.allocate 64 .modified] = .ok x ∧ x.cache.Restores := by
  obtain ⟨x, hx⟩ : ∃ x, (machine (oneWay .setLRU)).step (machine (oneWay .setLRU)).init
      (.allocate 64 .modified) = .ok x := ⟨_, rfl⟩
  have hreach : (machine (oneWay .setLRU)).ReachableWhen Session.Allows x :=
    Machine.ReachableWhen.init.step (e := .allocate 64 .modified) trivial hx
  refine ⟨x, ?_, (restores_iff_reloadable hreach).mpr ⟨rfl, rfl, fun i hi b hb => ?_, ?_⟩⟩
  · rw [Machine.run, Machine.runFrom, hx]
    rfl
  · cases hx
    obtain rfl : i = 0 := Nat.lt_one_iff.mp hi
    rw [mem_singleton.mp hb]
    decide
  · exact fun p k e _ i _ _ => ⟨getBlockSet_way rfl _ _, getBlockSet_way rfl _ _⟩

/-- Two sets of regions with one way each. -/
def twoSets : RTGeometry := { oneWay .setLRU with rtSetBits := 1, top_le := by decide }

/-- **With two sets of one way nothing is accepted**, not even the checkpoint of a region tracker
without contents. -/
theorem twoSets_rejected : ¬∀ g : RTGeometry, ∀ x, (machine g).ReachableWhen Session.Allows x →
    x.cache.Restores := by
  intro h
  obtain ⟨bs, c', hsave, hload, -⟩ := h twoSets _ .init
  have hbs : bs = (empty twoSets).savedItems := (Option.some.inj hsave).symm
  rw [hbs] at hload
  cases hload

end RTCache

end Flexus
