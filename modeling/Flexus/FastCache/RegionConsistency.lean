import Flexus.FastCache.RegionTracker
import Flexus.Lib.Machine
import Flexus.Lib.Outcome

/-!
# The regions and the block table agree

What `isConsistent` compares is kept by all operations of a region tracker, with the set in which
the block is stored in place of the one for way 0: where a region has an entry, this entry has
the state and the way of each of its blocks, and where it has none, no block of it is valid
(`Flexus.RTCache.Linked`). An operation changes one block at a time, in its region and in its
set, so that one rule covers them all (`Flexus.RTCache.Inv.updateBlock`).

Without the skew the two sets are the same. Then no assertion of `lookup` and `allocate` fails,
but for those that say what is not supported: replacing a valid block by the least recently used
region, and more ways than 16 bits can tell apart.
-/

namespace Flexus

open Function Lib List

open RTGeometry

/-! ### Sets of blocks -/

namespace BlockSet

variable {l l' : BlockSet} {b : BlockEntry} {t : ℕ} {s : CoherenceState}

theorem findTag_eq_lookup (l : BlockSet) (t : ℕ) :
    l.findTag t = Keyed.lookup BlockEntry.tag l t := rfl

theorem findTag_perm (h : (l.map BlockEntry.tag).Nodup) (hp : l'.Perm l) (t : ℕ) :
    l'.findTag t = l.findTag t := Keyed.lookup_perm h hp t

theorem tag_of_findTag (h : l.findTag t = some b) : b.tag = t := Keyed.key_of_lookup h

theorem mem_of_findTag (h : l.findTag t = some b) : b ∈ l := Keyed.mem_of_lookup h

/-- **The invariant of a set of the block table**: its tags are unique and are those of blocks,
and its ways are the first ones. -/
structure Placed (g : RTGeometry) (l : BlockSet) : Prop where
  isTag : ∀ b ∈ l, g.getBlockTag b.tag = b.tag
  tags_nodup : (l.map BlockEntry.tag).Nodup
  ways : (l.map BlockEntry.way).Perm (List.range l.length)
  length_le : l.length ≤ g.theAssociativity
  length_le_two_pow : l.length ≤ 2 ^ 16

namespace Placed

variable {g : RTGeometry}

theorem ways_nodup (h : l.Placed g) : (l.map BlockEntry.way).Nodup :=
  h.ways.nodup_iff.mpr nodup_range

theorem way_lt (h : l.Placed g) (hb : b ∈ l) : b.way < l.length :=
  mem_range.mp (h.ways.mem_iff.mp (mem_map.mpr ⟨b, hb, rfl⟩))

theorem way_mod (h : l.Placed g) (hb : b ∈ l) : b.way % 2 ^ 16 = b.way :=
  Nat.mod_eq_of_lt ((h.way_lt hb).trans_le h.length_le_two_pow)

theorem perm (h : l.Placed g) (hp : l'.Perm l) : l'.Placed g where
  isTag b hb := h.isTag b (hp.mem_iff.mp hb)
  tags_nodup := (hp.map _).nodup_iff.mpr h.tags_nodup
  ways := by
    rw [hp.length_eq]
    exact (hp.map _).trans h.ways
  length_le := hp.length_eq ▸ h.length_le
  length_le_two_pow := hp.length_eq ▸ h.length_le_two_pow

theorem changeBlockState (h : l.Placed g) (w : ℕ) (s : CoherenceState) :
    (l.changeBlockState w s).Placed g where
  isTag b hb := by
    obtain ⟨d, hd, rfl⟩ := mem_map.mp hb
    have := h.isTag d hd
    split <;> exact this
  tags_nodup := by
    rw [map_changeBlockState _ fun _ _ => rfl]
    exact h.tags_nodup
  ways := by
    rw [map_changeBlockState _ fun _ _ => rfl, BlockSet.changeBlockState, length_map]
    exact h.ways
  length_le := by
    rw [BlockSet.changeBlockState, length_map]
    exact h.length_le
  length_le_two_pow := by
    rw [BlockSet.changeBlockState, length_map]
    exact h.length_le_two_pow

theorem findTag_changeBlockState (h : l.Placed g) (hb : b ∈ l) (s : CoherenceState) (t : ℕ) :
    (l.changeBlockState b.way s).findTag t =
      if t = b.tag then some { b with state := s } else l.findTag t := by
  have h' := h.changeBlockState b.way s
  have hmem : ∀ d ∈ l, (if d.way = b.way then { d with state := s } else d) ∈
      l.changeBlockState b.way s := fun d hd => mem_map.mpr ⟨d, hd, rfl⟩
  by_cases ht : t = b.tag
  · subst ht
    have hm := hmem b hb
    rw [if_pos rfl] at hm ⊢
    exact Keyed.lookup_of_mem h'.tags_nodup hm
  · rw [if_neg ht]
    cases hl : l.findTag t with
    | none =>
      refine Keyed.lookup_eq_none.mpr fun d hd hdt => ?_
      obtain ⟨d', hd', rfl⟩ := mem_map.mp hd
      refine Keyed.lookup_eq_none.mp hl d' hd' ?_
      split at hdt <;> exact hdt
    | some d =>
      have hd := mem_of_findTag hl
      have hdt := tag_of_findTag hl
      have hw : d.way ≠ b.way := fun hc =>
        ht (hdt.symm.trans (congrArg _ (eq_of_way_eq h.ways_nodup hd hb hc)))
      have hm := hmem d hd
      rw [if_neg hw] at hm
      rw [← hdt]
      exact Keyed.lookup_of_mem h'.tags_nodup hm

theorem replaceBlock (h : l.Placed g) (hb : b ∈ l) (ht : g.getBlockTag t = t)
    (hfresh : l.findTag t = none) (s : CoherenceState) :
    (l.replaceBlock b.way t s).Placed g ∧ ∀ u, (l.replaceBlock b.way t s).findTag u =
      if u = t then some ⟨t, s, b.way⟩ else if u = b.tag then none else l.findTag u := by
  have hnew : ∀ d ∈ l, d.tag ≠ t := Keyed.lookup_eq_none.mp hfresh
  have hmem : ∀ d ∈ l, (if d.way = b.way then { d with tag := t, state := s } else d) ∈
      l.replaceBlock b.way t s := fun d hd => mem_map.mpr ⟨d, hd, rfl⟩
  have hnodup : ((l.replaceBlock b.way t s).map BlockEntry.tag).Nodup := by
    rw [BlockSet.replaceBlock, map_map]
    refine List.Nodup.map_on ?_ (List.Nodup.of_map _ h.tags_nodup)
    intro x hx y hy hxy
    simp only [comp_apply] at hxy
    split at hxy <;> split at hxy
    · rename_i hxw hyw
      exact eq_of_way_eq h.ways_nodup hx hy (hxw.trans hyw.symm)
    · exact absurd hxy.symm (hnew y hy)
    · exact absurd hxy (hnew x hx)
    · exact eq_of_tag_eq h.tags_nodup hx hy hxy
  refine ⟨⟨?_, hnodup, ?_, ?_, ?_⟩, fun u => ?_⟩
  · intro d hd
    obtain ⟨d', hd', rfl⟩ := mem_map.mp hd
    have := h.isTag d' hd'
    split
    · exact ht
    · exact this
  · have hways : (l.replaceBlock b.way t s).map BlockEntry.way = l.map BlockEntry.way := by
      rw [BlockSet.replaceBlock, map_map]
      refine map_congr_left fun d _ => ?_
      rw [comp_apply]
      split <;> rfl
    rw [hways, BlockSet.replaceBlock, length_map]
    exact h.ways
  · rw [BlockSet.replaceBlock, length_map]
    exact h.length_le
  · rw [BlockSet.replaceBlock, length_map]
    exact h.length_le_two_pow
  · by_cases hu : u = t
    · have hm := hmem b hb
      rw [if_pos rfl] at hm
      rw [if_pos hu, hu]
      exact Keyed.lookup_of_mem hnodup hm
    rw [if_neg hu]
    by_cases hub : u = b.tag
    · -- the block that is replaced has no other entry
      rw [if_pos hub]
      refine Keyed.lookup_eq_none.mpr fun d hd hdu => ?_
      obtain ⟨d', hd', rfl⟩ := mem_map.mp hd
      split at hdu
      · exact hu hdu.symm
      · rename_i hw
        exact hw (congrArg _ (eq_of_tag_eq h.tags_nodup hd' hb (hdu.trans hub)))
    · rw [if_neg hub]
      cases hl : l.findTag u with
      | none =>
        refine Keyed.lookup_eq_none.mpr fun d hd hdu => ?_
        obtain ⟨d', hd', rfl⟩ := mem_map.mp hd
        split at hdu
        · exact hu hdu.symm
        · exact Keyed.lookup_eq_none.mp hl d' hd' hdu
      | some d =>
        have hd := mem_of_findTag hl
        have hdu := tag_of_findTag hl
        have hw : d.way ≠ b.way := fun hc =>
          hub (hdu.symm.trans (congrArg _ (eq_of_way_eq h.ways_nodup hd hb hc)))
        have hm := hmem d hd
        rw [if_neg hw] at hm
        rw [← hdu]
        exact Keyed.lookup_of_mem hnodup hm

theorem push (h : l.Placed g) (hl : l.length < g.theAssociativity) (ht : g.getBlockTag t = t)
    (hfresh : l.findTag t = none) (hway : ∀ d ∈ l, d.way ≠ l.length % 2 ^ 16)
    (s : CoherenceState) :
    BlockSet.Placed g (l ++ [⟨t, s, l.length % 2 ^ 16⟩]) ∧ l.length < 2 ^ 16 := by
  have hlt : l.length < 2 ^ 16 := by
    refine lt_of_le_of_ne h.length_le_two_pow fun hc => ?_
    have h0 : 0 ∈ l.map BlockEntry.way := by
      rw [h.ways.mem_iff, hc]
      exact mem_range.mpr (by decide)
    obtain ⟨d, hd, hd0⟩ := mem_map.mp h0
    have hzero : l.length % 2 ^ 16 = 0 := (congrArg (· % 2 ^ 16) hc).trans (Nat.mod_self _)
    exact hway d hd (hd0.trans hzero.symm)
  have hmod : l.length % 2 ^ 16 = l.length := Nat.mod_eq_of_lt hlt
  refine ⟨⟨?_, Keyed.nodup_append_singleton h.tags_nodup hfresh, ?_, ?_, ?_⟩, hlt⟩
  · intro d hd
    rcases mem_append.mp hd with hd | hd
    · exact h.isTag d hd
    · rw [mem_singleton.mp hd]
      exact ht
  · rw [hmod, map_append, length_append, length_singleton, range_succ]
    exact h.ways.append_right _
  · rw [length_append, length_singleton]
    exact hl
  · rw [length_append, length_singleton]
    exact hlt

theorem atWay_eq (h : l.Placed g) (hb : b ∈ l) : l.atWay b.way = some b :=
  atWay_of_mem h.ways_nodup hb

end Placed

end BlockSet

/-! ### Sets of regions -/

/-- **The invariant of the sets of regions**, as far as it is about their tags. A region is in
its own set or in the buffer, and not in both; and once a region of a set has gone to the buffer,
the set is full. -/
structure RegionsPlaced (g : RTGeometry) (rva : ℕ → List ℕ) (erb : List ℕ) : Prop where
  rva_tag : ∀ i, ∀ t ∈ rva i, g.getRtTag t = t ∧ g.getRtSet t = i
  rva_nodup : ∀ i, (rva i).Nodup
  rva_le : ∀ i, (rva i).length ≤ g.theRTAssociativity
  erb_tag : ∀ t ∈ erb, g.getRtTag t = t
  erb_nodup : erb.Nodup
  erb_full : ∀ t ∈ erb, (rva (g.getRtSet t)).length = g.theRTAssociativity
  disjoint : ∀ t ∈ erb, t ∉ rva (g.getRtSet t)

theorem RegionsPlaced.perm {g : RTGeometry} {rva rva' : ℕ → List ℕ} {erb erb' : List ℕ}
    (h : RegionsPlaced g rva erb) (hr : ∀ i, (rva' i).Perm (rva i)) (he : erb'.Perm erb) :
    RegionsPlaced g rva' erb' where
  rva_tag i t ht := h.rva_tag i t ((hr i).mem_iff.mp ht)
  rva_nodup i := (hr i).nodup_iff.mpr (h.rva_nodup i)
  rva_le i := (hr i).length_eq ▸ h.rva_le i
  erb_tag t ht := h.erb_tag t (he.mem_iff.mp ht)
  erb_nodup := he.nodup_iff.mpr h.erb_nodup
  erb_full t ht := (hr _).length_eq ▸ h.erb_full t (he.mem_iff.mp ht)
  disjoint t ht hc := h.disjoint t (he.mem_iff.mp ht) ((hr _).mem_iff.mp hc)

/-- **A new region** comes into a set with room, or the first region of the set goes to the
buffer. -/
theorem RegionsPlaced.push {g : RTGeometry} {rva : ℕ → List ℕ} {erb erb' l : List ℕ} {t : ℕ}
    (h : RegionsPlaced g rva erb) (ht : g.getRtTag t = t) (hrva : t ∉ rva (g.getRtSet t))
    (herb : t ∉ erb) (hcase : l = rva (g.getRtSet t) ∧ erb' = erb ∧
        l.length < g.theRTAssociativity ∨
      ∃ u, rva (g.getRtSet t) = u :: l ∧ g.theRTAssociativity ≤ l.length + 1 ∧
        erb' = erb ++ [u]) :
    RegionsPlaced g (update rva (g.getRtSet t) (l ++ [t])) erb' := by
  have hle := h.rva_le (g.getRtSet t)
  have hleft : l.Sublist (rva (g.getRtSet t)) := by
    rcases hcase with ⟨rfl, -, -⟩ | ⟨u, hu, -, -⟩
    · exact .refl _
    · rw [hu]
      exact sublist_cons_self u l
  -- a region of the buffer was there, or has just come from the set, which is full
  have hbuffer : ∀ u ∈ erb', (u ∈ erb ∧ (g.getRtSet u = g.getRtSet t →
      l.length + 1 = g.theRTAssociativity)) ∨ u ∈ rva (g.getRtSet t) ∧ u ∉ l ∧
        l.length + 1 = g.theRTAssociativity := by
    intro u hu
    rcases hcase with ⟨rfl, rfl, hlt⟩ | ⟨v, hv, hfull, rfl⟩
    · refine .inl ⟨hu, fun hset => ?_⟩
      have := h.erb_full u hu
      rw [hset] at this
      omega
    · have hlen : l.length + 1 = g.theRTAssociativity := by
        rw [hv, length_cons] at hle
        omega
      rcases mem_append.mp hu with hu | hu
      · exact .inl ⟨hu, fun _ => hlen⟩
      · rw [mem_singleton.mp hu]
        have hnodup := h.rva_nodup (g.getRtSet t)
        rw [hv, nodup_cons] at hnodup
        rw [hv]
        exact .inr ⟨mem_cons_self, hnodup.1, hlen⟩
  have hset : ∀ u, u ∈ rva (g.getRtSet t) → g.getRtTag u = u ∧ g.getRtSet u = g.getRtSet t :=
    h.rva_tag _
  refine ⟨fun j u hu => ?_, fun j => ?_, fun j => ?_, fun u hu => ?_, ?_, fun u hu => ?_,
    fun u hu hc => ?_⟩
  · by_cases hj : j = g.getRtSet t
    · rw [hj, update_self] at hu
      rw [hj]
      rcases mem_append.mp hu with hu | hu
      · exact hset u (hleft.subset hu)
      · rw [mem_singleton.mp hu]
        exact ⟨ht, rfl⟩
    · rw [update_of_ne hj] at hu
      exact h.rva_tag j u hu
  · by_cases hj : j = g.getRtSet t
    · rw [hj, update_self, nodup_append]
      refine ⟨(h.rva_nodup _).sublist hleft, nodup_singleton t, fun x hx y hy hxy => ?_⟩
      rw [hxy, mem_singleton.mp hy] at hx
      exact hrva (hleft.subset hx)
    · rw [update_of_ne hj]
      exact h.rva_nodup j
  · by_cases hj : j = g.getRtSet t
    · rw [hj, update_self, length_append, length_singleton]
      rcases hcase with ⟨rfl, -, hlt⟩ | ⟨u, hu, -, -⟩
      · exact hlt
      · rw [hu, length_cons] at hle
        exact hle
    · rw [update_of_ne hj]
      exact h.rva_le j
  · rcases hbuffer u hu with ⟨hu, -⟩ | ⟨hu, -, -⟩
    · exact h.erb_tag u hu
    · exact (hset u hu).1
  · rcases hcase with ⟨-, rfl, -⟩ | ⟨u, hu, -, rfl⟩
    · exact h.erb_nodup
    · refine nodup_append.mpr ⟨h.erb_nodup, nodup_singleton u, fun x hx y hy hxy => ?_⟩
      have hmem : u ∈ rva (g.getRtSet t) := by
        rw [hu]
        exact mem_cons_self
      rw [hxy, mem_singleton.mp hy] at hx
      exact h.disjoint u hx ((hset u hmem).2 ▸ hmem)
  · rcases hbuffer u hu with ⟨hu, hlen⟩ | ⟨hu, -, hlen⟩
    · by_cases hj : g.getRtSet u = g.getRtSet t
      · rw [hj, update_self, length_append, length_singleton]
        exact hlen hj
      · rw [update_of_ne hj]
        exact h.erb_full u hu
    · rw [(hset u hu).2, update_self, length_append, length_singleton]
      exact hlen
  · by_cases hj : g.getRtSet u = g.getRtSet t
    · rw [hj, update_self] at hc
      rcases mem_append.mp hc with hc | hc
      · rcases hbuffer u hu with ⟨hu, -⟩ | ⟨-, hout, -⟩
        · exact h.disjoint u hu (hj ▸ hleft.subset hc)
        · exact hout hc
      · have hut : u = t := mem_singleton.mp hc
        rcases hbuffer u hu with ⟨hu, -⟩ | ⟨hu, -, -⟩
        · exact herb (hut ▸ hu)
        · exact hrva (hut ▸ hu)
    · rw [update_of_ne hj] at hc
      rcases hbuffer u hu with ⟨hu, -⟩ | ⟨hu, -, -⟩
      · exact h.disjoint u hu hc
      · exact hj (hset u hu).2

namespace RTCache

variable {g : RTGeometry} {c c' : RTCache g} {a b t : ℕ} {p : RTSet} {e : RTEntry}

/-- The tags of a set of the region vector array. -/
def rvaTags (c : RTCache g) (i : ℕ) : List ℕ := (c.theRVA i).map RTEntry.tag

/-- The tags of the buffer. -/
def erbTags (c : RTCache g) : List ℕ := c.theERB.map RTEntry.tag

/-- The entry of the region of an address. -/
def region (c : RTCache g) (a : ℕ) : Option RTEntry := (c.findEntry a).map Prod.snd

/-- The entry of the block of an address in a set of the block table. -/
def blockIn (c : RTCache g) (a i : ℕ) : Option BlockEntry :=
  (c.theBlocks i).findTag (g.getBlockTag a)

theorem findEntry_congr (h : g.getRtTag a = g.getRtTag b) : c.findEntry a = c.findEntry b := by
  rw [findEntry, findEntry, h, getRtSet_congr h]

/-- **An entry that was found** is in its set, under the tag of the region. -/
theorem lookup_of_findEntry (h : c.findEntry a = some (p, e)) :
    Keyed.lookup RTEntry.tag (c.entries p) (g.getRtTag a) = some e ∧
      e.tag = g.getRtTag a ∧ (p = .rva (g.getRtSet a) ∨ p = .erb ∧
        Keyed.lookup RTEntry.tag (c.theRVA (g.getRtSet a)) (g.getRtTag a) = none) := by
  rw [findEntry] at h
  split at h
  · rename_i d hd
    obtain ⟨rfl, rfl⟩ := Prod.mk.inj (Option.some.inj h)
    exact ⟨hd, Keyed.key_of_lookup hd, .inl rfl⟩
  · rename_i hnone
    obtain ⟨d, hd, hpe⟩ := Option.map_eq_some_iff.mp h
    obtain ⟨rfl, rfl⟩ := Prod.mk.inj hpe
    exact ⟨hd, Keyed.key_of_lookup hd, .inr ⟨rfl, hnone⟩⟩

theorem findEntry_eq_none : c.findEntry a = none ↔
    g.getRtTag a ∉ c.rvaTags (g.getRtSet a) ∧ g.getRtTag a ∉ c.erbTags := by
  have hmem : ∀ l : List RTEntry, Keyed.lookup RTEntry.tag l (g.getRtTag a) = none ↔
      g.getRtTag a ∉ l.map RTEntry.tag := fun l => by
    rw [Keyed.lookup_eq_none, mem_map, not_exists]
    exact forall_congr' fun x => not_and.symm
  rw [rvaTags, erbTags, ← hmem, ← hmem, findEntry]
  split
  · rename_i d hd
    simp [hd]
  · rename_i hd
    simp [hd]

/-- A change of an entry that keeps its tag changes this region only. -/
theorem findEntry_modifyRegion {f : RTEntry → RTEntry} (hf : ∀ e, (f e).tag = e.tag)
    (h : c.findEntry t = some (p, e)) (a : ℕ) :
    (c.modifyRegion p (g.getRtTag t) f).findEntry a =
      if g.getRtTag a = g.getRtTag t then some (p, f e) else c.findEntry a := by
  obtain ⟨hl, -, hp⟩ := lookup_of_findEntry h
  have hlookup : ∀ (l : List RTEntry) u, Keyed.lookup RTEntry.tag
      (Keyed.update RTEntry.tag l (g.getRtTag t) f) u =
      if u = g.getRtTag t then (Keyed.lookup RTEntry.tag l u).map f
      else Keyed.lookup RTEntry.tag l u := fun l u => Keyed.lookup_update hf
  rcases hp with rfl | ⟨rfl, hnone⟩
  · by_cases ha : g.getRtTag a = g.getRtTag t
    · rw [if_pos ha, findEntry, modifyRegion, setEntries, ha, getRtSet_congr ha]
      dsimp only
      rw [update_self, hlookup, if_pos rfl, hl]
      rfl
    · rw [if_neg ha, findEntry, findEntry, modifyRegion, setEntries]
      dsimp only [entries]
      by_cases hi : g.getRtSet a = g.getRtSet t
      · rw [hi, update_self, hlookup, if_neg ha]
      · rw [update_of_ne hi]
  · by_cases ha : g.getRtTag a = g.getRtTag t
    · rw [if_pos ha, findEntry, modifyRegion, setEntries, ha, getRtSet_congr ha]
      dsimp only
      rw [hnone, hlookup, if_pos rfl, hl]
      rfl
    · rw [if_neg ha, findEntry, findEntry, modifyRegion, setEntries]
      dsimp only [entries]
      rw [hlookup, if_neg ha]

theorem tags_modifyRegion {f : RTEntry → RTEntry} (hf : ∀ e, (f e).tag = e.tag) (p : RTSet)
    (t : ℕ) : (c.modifyRegion p t f).rvaTags = c.rvaTags ∧
      (c.modifyRegion p t f).erbTags = c.erbTags := by
  cases p with
  | rva i =>
    refine ⟨funext fun j => ?_, rfl⟩
    by_cases hj : j = i
    · rw [hj, rvaTags, modifyRegion, setEntries]
      dsimp only
      rw [update_self, Keyed.keys_update hf]
      rfl
    · rw [rvaTags, modifyRegion, setEntries]
      dsimp only
      rw [update_of_ne hj, rvaTags]
  | erb => exact ⟨rfl, Keyed.keys_update hf⟩

theorem findEntry_updateRegionLRU (h : RegionsPlaced g c.rvaTags c.erbTags) (p : RTSet)
    (t a : ℕ) : (c.updateRegionLRU p t).findEntry a = c.findEntry a := by
  cases p with
  | rva i =>
    rw [findEntry, findEntry, updateRegionLRU, setEntries]
    dsimp only
    by_cases hi : g.getRtSet a = i
    · rw [hi, update_self, entries,
        Keyed.lookup_perm (h.rva_nodup i) (Keyed.toBack_perm (c.theRVA i) t)]
    · rw [update_of_ne hi]
  | erb =>
    rw [findEntry, findEntry, updateRegionLRU, setEntries]
    dsimp only
    rw [entries, Keyed.lookup_perm h.erb_nodup (Keyed.toBack_perm c.theERB t)]

theorem tags_updateRegionLRU (p : RTSet) (t : ℕ) :
    (∀ i, ((c.updateRegionLRU p t).rvaTags i).Perm (c.rvaTags i)) ∧
      (c.updateRegionLRU p t).erbTags.Perm c.erbTags := by
  cases p with
  | rva i =>
    refine ⟨fun j => ?_, .refl _⟩
    rw [rvaTags, updateRegionLRU, setEntries]
    dsimp only
    by_cases hj : j = i
    · rw [hj, update_self]
      exact (Keyed.toBack_perm _ _).map _
    · rw [update_of_ne hj]
      rfl
  | erb => exact ⟨fun j => .refl _, (Keyed.toBack_perm _ _).map _⟩

/-! ### The invariant -/

/-- A state and a way in a region agree with the entry of the block. -/
def Agrees (s : CoherenceState) (way : ℕ) : Option BlockEntry → Prop
  | none => s = .invalid
  | some b => s = b.state ∧ (s ≠ .invalid → way = b.way)

/-- **What a region knows of a block** – the way of the region, and the state and the way of the
block – **agrees with the block table**: with the entry in the set of the block, while in other
sets, and where there is no region, no entry of the block is valid. -/
def LinkedAt (g : RTGeometry) (a : ℕ) : Option (ℕ × CoherenceState × ℕ) →
    (ℕ → Option BlockEntry) → Prop
  | none, f => ∀ i b, f i = some b → b.state = .invalid
  | some (w, s, v), f => Agrees s v (f (g.getBlockSet a w)) ∧
    ∀ i b, i ≠ g.getBlockSet a w → f i = some b → b.state = .invalid

/-- What the region of a block knows of it. -/
def slot (c : RTCache g) (a : ℕ) : Option (ℕ × CoherenceState × ℕ) :=
  (c.region a).map fun e => (e.way, e.state (g.getBlockOffset a), e.ways (g.getBlockOffset a))

/-- The invariant, for one block. -/
def Linked (c : RTCache g) (a : ℕ) : Prop := LinkedAt g a (c.slot a) (c.blockIn a)

/-- **The invariant of a region tracker**, with a bound for its buffer. -/
structure Inv (n : ℕ) (c : RTCache g) : Prop where
  regions : RegionsPlaced g c.rvaTags c.erbTags
  erb_le : c.theERB.length ≤ n
  blocks : ∀ i, (c.theBlocks i).Placed g
  linked : ∀ a, c.Linked a

theorem Inv.congr {n : ℕ} (h : c.Inv n) (hrva : c'.theRVA = c.theRVA) (herb : c'.theERB = c.theERB)
    (hblocks : c'.theBlocks = c.theBlocks) : c'.Inv n := by
  obtain ⟨rva, erb, blocks, k⟩ := c
  obtain ⟨rva', erb', blocks', k'⟩ := c'
  obtain rfl : rva' = rva := hrva
  obtain rfl : erb' = erb := herb
  obtain rfl : blocks' = blocks := hblocks
  exact ⟨h.regions, h.erb_le, h.blocks, h.linked⟩

theorem inv_empty (g : RTGeometry) (n : ℕ) : (empty g).Inv n where
  regions := ⟨fun _ _ h => absurd h not_mem_nil, fun _ => nodup_nil,
    fun _ => Nat.zero_le _, fun _ h => absurd h not_mem_nil, nodup_nil,
    fun _ h => absurd h not_mem_nil, fun _ h => absurd h not_mem_nil⟩
  erb_le := Nat.zero_le _
  blocks _ := ⟨fun _ h => absurd h not_mem_nil, nodup_nil, .refl _, Nat.zero_le _,
    Nat.zero_le _⟩
  linked _ _ _ h := nomatch h

theorem slot_of_findEntry (h : c.findEntry a = some (p, e)) : c.slot a =
    some (e.way, e.state (g.getBlockOffset a), e.ways (g.getBlockOffset a)) := by
  rw [slot, region, h]
  rfl

theorem slot_of_none (h : c.findEntry a = none) : c.slot a = none := by
  rw [slot, region, h]
  rfl

/-- **Reading the invariant**, where there is a region. -/
theorem Linked.of_findEntry (h : c.Linked a) (he : c.findEntry a = some (p, e)) :
    Agrees (e.state (g.getBlockOffset a)) (e.ways (g.getBlockOffset a))
        (c.blockIn a (g.getBlockSet a e.way)) ∧
      ∀ i b, i ≠ g.getBlockSet a e.way → c.blockIn a i = some b → b.state = .invalid := by
  rw [Linked, slot_of_findEntry he] at h
  exact h

theorem Linked.of_none (h : c.Linked a) (he : c.findEntry a = none) {i : ℕ} {b : BlockEntry}
    (hb : c.blockIn a i = some b) : b.state = .invalid := by
  rw [Linked, slot_of_none he] at h
  exact h i b hb

/-- **A valid block of the table** has a region that knows its set, its state and its way. -/
theorem Linked.of_valid (h : c.Linked a) {i : ℕ} {b : BlockEntry} (hb : c.blockIn a i = some b)
    (hv : b.state ≠ .invalid) : ∃ p e, c.findEntry a = some (p, e) ∧ i = g.getBlockSet a e.way ∧
      e.state (g.getBlockOffset a) = b.state ∧ e.ways (g.getBlockOffset a) = b.way := by
  cases he : c.findEntry a with
  | none => exact absurd (h.of_none he hb) hv
  | some q =>
    obtain ⟨p, e⟩ := q
    obtain ⟨hagree, hother⟩ := h.of_findEntry he
    have hi : i = g.getBlockSet a e.way := by
      by_contra hne
      exact hv (hother i b hne hb)
    rw [← hi, hb] at hagree
    exact ⟨p, e, rfl, hi, hagree.1, hagree.2 (hagree.1 ▸ hv)⟩

/-- **A block that is valid in its region** is in its set. -/
theorem Linked.of_state (h : c.Linked a) (he : c.findEntry a = some (p, e))
    (hv : e.state (g.getBlockOffset a) ≠ .invalid) :
    ∃ b, c.blockIn a (g.getBlockSet a e.way) = some b ∧
      b.state = e.state (g.getBlockOffset a) ∧ b.way = e.ways (g.getBlockOffset a) := by
  obtain ⟨hagree, -⟩ := h.of_findEntry he
  cases hb : c.blockIn a (g.getBlockSet a e.way) with
  | none =>
    rw [hb] at hagree
    exact absurd hagree hv
  | some b =>
    rw [hb] at hagree
    exact ⟨b, rfl, hagree.1.symm, (hagree.2 hv).symm⟩

/-! ### What `isConsistent` says -/

/-- The region of an address is not in the array and in the buffer. -/
def Apart (c : RTCache g) (a : ℕ) : Prop :=
  Keyed.lookup RTEntry.tag (c.theRVA (g.getRtSet a)) (g.getRtTag a) = none ∨
    Keyed.lookup RTEntry.tag c.theERB (g.getRtTag a) = none

/-- What a region knows of a block agrees with the entry in the set for way 0. -/
def Matches (c : RTCache g) (a : ℕ) : Prop :=
  match c.findEntry a with
  | some (_, e) => Agrees (e.state (g.getBlockOffset a)) (e.ways (g.getBlockOffset a))
      (c.blockIn a (g.getBlockSet a 0))
  | none => ∀ b, c.blockIn a (g.getBlockSet a 0) = some b → b.state = .invalid

theorem agreesWith_iff (e : RTEntry) (offset : ℕ) (o : Option BlockEntry) :
    agrees e offset o = true ↔ Agrees (e.state offset) (e.ways offset) o := by
  cases o with
  | none =>
    rw [agrees, Bool.not_eq_true', Bool.eq_false_iff, ne_eq, CoherenceState.isValid_iff, not_not]
    rfl
  | some b =>
    rw [agrees, Bool.and_eq_true, Bool.or_eq_true, decide_eq_true_eq, decide_eq_true_eq,
      Bool.not_eq_true', Bool.eq_false_iff, ne_eq, CoherenceState.isValid_iff, not_not]
    constructor
    · rintro ⟨hs, hw⟩
      exact ⟨hs, fun hv => hw.resolve_right fun hc => hv (hs.trans hc)⟩
    · rintro ⟨hs, hw⟩
      refine ⟨hs, ?_⟩
      by_cases hv : b.state = .invalid
      · exact .inr hv
      · exact .inl (hw (hs ▸ hv))

theorem isConsistent_iff : c.isConsistent a = true ↔ c.Apart a ∧ c.Matches a := by
  rw [isConsistent, Apart, Matches, findEntry]
  cases Keyed.lookup RTEntry.tag (c.theRVA (g.getRtSet a)) (g.getRtTag a) with
  | some e =>
    cases Keyed.lookup RTEntry.tag c.theERB (g.getRtTag a) with
    | none => exact (agreesWith_iff e _ _).trans (and_iff_right (.inr rfl)).symm
    | some d => simp
  | none =>
    cases Keyed.lookup RTEntry.tag c.theERB (g.getRtTag a) with
    | some e => exact (agreesWith_iff e _ _).trans (and_iff_right (.inl rfl)).symm
    | none =>
      refine Iff.trans ?_ (and_iff_right (.inl rfl)).symm
      rw [Option.all_eq_true]
      refine forall₂_congr fun b _ => ?_
      rw [Bool.not_eq_true', Bool.eq_false_iff, ne_eq, CoherenceState.isValid_iff, not_not]

theorem apart_of_placed (h : RegionsPlaced g c.rvaTags c.erbTags) (a : ℕ) : c.Apart a := by
  rw [Apart]
  by_contra hc
  rw [not_or, ← ne_eq, ← ne_eq, Option.ne_none_iff_exists', Option.ne_none_iff_exists'] at hc
  obtain ⟨⟨e, he⟩, d, hd⟩ := hc
  refine h.disjoint (g.getRtTag a)
    (mem_map.mpr ⟨d, Keyed.mem_of_lookup hd, Keyed.key_of_lookup hd⟩) ?_
  rw [getRtSet_getRtTag]
  exact mem_map.mpr ⟨e, Keyed.mem_of_lookup he, Keyed.key_of_lookup he⟩

/-- **`isConsistent` by the invariant**: the set of a valid block is the one for way 0. -/
theorem isConsistent_iff_of_linked (hr : RegionsPlaced g c.rvaTags c.erbTags) (h : c.Linked a) :
    c.isConsistent a = true ↔ ∀ p e, c.findEntry a = some (p, e) →
      e.state (g.getBlockOffset a) ≠ .invalid → g.getBlockSet a e.way = g.getBlockSet a 0 := by
  rw [isConsistent_iff, and_iff_right (apart_of_placed hr a), Matches]
  cases he : c.findEntry a with
  | none => exact ⟨fun _ _ _ hc => (nomatch hc), fun _ b hb => h.of_none he hb⟩
  | some q =>
    obtain ⟨p, e⟩ := q
    obtain ⟨hagree, hother⟩ := h.of_findEntry he
    constructor
    · rintro hm q x hx hv
      cases hx
      by_contra hne
      -- a block in another set is not valid
      cases hb : c.blockIn a (g.getBlockSet a 0) with
      | none =>
        rw [hb] at hm
        exact hv hm
      | some b =>
        rw [hb] at hm
        exact hv (hm.1.trans (hother _ b (Ne.symm hne) hb))
    · intro hw
      dsimp only
      by_cases hv : e.state (g.getBlockOffset a) = .invalid
      · rw [hv] at hagree ⊢
        cases hb : c.blockIn a (g.getBlockSet a 0) with
        | none => rfl
        | some b =>
          refine ⟨?_, fun hc => absurd rfl hc⟩
          by_cases hi : g.getBlockSet a 0 = g.getBlockSet a e.way
          · rw [← hi, hb] at hagree
            exact hagree.1
          · exact (hother _ b hi hb).symm
      · rw [← hw p e rfl hv]
        exact hagree

/-! ### One block at a time -/

@[simp]
theorem findEntry_setBlocks (i : ℕ) (l : BlockSet) (a : ℕ) :
    (c.setBlocks i l).findEntry a = c.findEntry a := rfl

@[simp]
theorem theBlocks_modifyRegion (p : RTSet) (t : ℕ) (f : RTEntry → RTEntry) :
    (c.modifyRegion p t f).theBlocks = c.theBlocks := by
  cases p <;> rfl

@[simp]
theorem theBlocks_updateRegionLRU (p : RTSet) (t : ℕ) :
    (c.updateRegionLRU p t).theBlocks = c.theBlocks := by
  cases p <;> rfl

theorem length_theERB_modifyRegion (p : RTSet) (t : ℕ) (f : RTEntry → RTEntry) :
    (c.modifyRegion p t f).theERB.length = c.theERB.length := by
  cases p with
  | rva i => rfl
  | erb => exact Keyed.length_update

theorem length_theERB_updateRegionLRU (p : RTSet) (t : ℕ) :
    (c.updateRegionLRU p t).theERB.length = c.theERB.length := by
  cases p with
  | rva i => rfl
  | erb => exact (Keyed.toBack_perm _ _).length_eq

theorem blockIn_setBlocks (i : ℕ) (l : BlockSet) (a j : ℕ) : (c.setBlocks i l).blockIn a j =
    if j = i then l.findTag (g.getBlockTag a) else c.blockIn a j := by
  rw [blockIn, setBlocks]
  dsimp only
  by_cases hj : j = i
  · rw [hj, update_self, if_pos rfl]
  · rw [update_of_ne hj, if_neg hj, blockIn]

/-- A change of what an entry knows of one block. -/
structure Touches (f : RTEntry → RTEntry) (offset : ℕ) : Prop where
  tag : ∀ e, (f e).tag = e.tag
  way : ∀ e, (f e).way = e.way
  state : ∀ e i, i ≠ offset → (f e).state i = e.state i
  ways : ∀ e i, i ≠ offset → (f e).ways i = e.ways i

theorem touches_changeState (offset : ℕ) (s : CoherenceState) :
    Touches (fun e => e.changeState offset s) offset where
  tag _ := rfl
  way _ := rfl
  state _ _ hi := update_of_ne hi _ _
  ways _ _ _ := rfl

theorem touches_allocateBlock (offset : ℕ) (s : CoherenceState) (way : ℕ) :
    Touches (fun e => e.allocateBlock offset s way) offset where
  tag _ := rfl
  way _ := rfl
  state _ _ hi := update_of_ne hi _ _
  ways _ _ hi := update_of_ne hi _ _

/-- What the region of another block knows of it stays the same. -/
theorem slot_modifyRegion {f : RTEntry → RTEntry} (hf : Touches f (g.getBlockOffset t))
    (he : c.findEntry t = some (p, e)) (ha : g.getBlockTag a ≠ g.getBlockTag t) :
    (c.modifyRegion p (g.getRtTag t) f).slot a = c.slot a := by
  by_cases htag : g.getRtTag a = g.getRtTag t
  · have hoff : g.getBlockOffset a ≠ g.getBlockOffset t :=
      fun hc => ha (blockTag_eq_iff.mpr ⟨htag, hc⟩)
    have he' := findEntry_modifyRegion hf.tag he a
    rw [if_pos htag] at he'
    rw [slot_of_findEntry he', slot_of_findEntry ((findEntry_congr htag).trans he), hf.way,
      hf.state e _ hoff, hf.ways e _ hoff]
  · rw [slot, slot, region, region, findEntry_modifyRegion hf.tag he a, if_neg htag]

/-- **The rule for a change of one block**: in its region, and in its set. An entry of an invalid
block may be given up for it. -/
theorem Inv.updateBlock {n : ℕ} (h : c.Inv n) (he : c.findEntry t = some (p, e))
    {f : RTEntry → RTEntry} (hf : Touches f (g.getBlockOffset t)) {l : BlockSet}
    (hl : l.Placed g) (hother : ∀ u, u ≠ g.getBlockTag t →
      l.findTag u = (c.theBlocks (g.getBlockSet t e.way)).findTag u ∨ l.findTag u = none ∧
        ∀ b, (c.theBlocks (g.getBlockSet t e.way)).findTag u = some b → b.state = .invalid)
    (hagree : Agrees ((f e).state (g.getBlockOffset t)) ((f e).ways (g.getBlockOffset t))
      (l.findTag (g.getBlockTag t))) :
    ((c.modifyRegion p (g.getRtTag t) f).setBlocks (g.getBlockSet t e.way) l).Inv n where
  regions := by
    obtain ⟨hrva, herb⟩ := tags_modifyRegion (c := c) hf.tag p (g.getRtTag t)
    have hr := h.regions
    rw [← hrva, ← herb] at hr
    exact hr
  erb_le := (length_theERB_modifyRegion p _ f).trans_le h.erb_le
  blocks i := by
    by_cases hi : i = g.getBlockSet t e.way
    · rw [hi, setBlocks]
      dsimp only
      rw [update_self]
      exact hl
    · rw [setBlocks]
      dsimp only
      rw [update_of_ne hi, theBlocks_modifyRegion]
      exact h.blocks i
  linked a := by
    have hblock : ∀ i, i ≠ g.getBlockSet t e.way →
        ((c.modifyRegion p (g.getRtTag t) f).setBlocks (g.getBlockSet t e.way) l).blockIn a i =
          c.blockIn a i := fun i hi => by
      rw [blockIn_setBlocks, if_neg hi, blockIn, theBlocks_modifyRegion, blockIn]
    have hset : ((c.modifyRegion p (g.getRtTag t) f).setBlocks (g.getBlockSet t e.way) l).blockIn a
        (g.getBlockSet t e.way) = l.findTag (g.getBlockTag a) := by
      rw [blockIn_setBlocks, if_pos rfl]
    by_cases ha : g.getBlockTag a = g.getBlockTag t
    · -- the block itself
      obtain ⟨htag, hoff⟩ := blockTag_eq_iff.mp ha
      have hwset : g.getBlockSet a (f e).way = g.getBlockSet t e.way := by
        rw [hf.way, ← getBlockSet_getBlockTag a, ha, getBlockSet_getBlockTag]
      have he' : (c.modifyRegion p (g.getRtTag t) f).findEntry a = some (p, f e) := by
        rw [findEntry_modifyRegion hf.tag he, if_pos htag]
      rw [Linked, slot_of_findEntry ((findEntry_setBlocks _ _ _).trans he')]
      refine ⟨?_, fun i b hi hb => ?_⟩
      · rw [hwset, hset, ha, hoff]
        exact hagree
      · rw [hwset] at hi
        rw [hblock i hi, blockIn, ha] at hb
        exact ((h.linked t).of_findEntry he).2 i b hi hb
    · -- another block, whose entry may be gone
      have hslot : ((c.modifyRegion p (g.getRtTag t) f).setBlocks (g.getBlockSet t e.way) l).slot a =
          c.slot a := slot_modifyRegion hf he ha
      have hold := h.linked a
      rw [Linked, hslot]
      rw [Linked] at hold
      rcases hother _ ha with hsame | ⟨hnone, hinvalid⟩
      · have hall : ((c.modifyRegion p (g.getRtTag t) f).setBlocks (g.getBlockSet t e.way) l).blockIn
            a = c.blockIn a := by
          funext i
          by_cases hi : i = g.getBlockSet t e.way
          · rw [hi, hset, hsame, blockIn]
          · exact hblock i hi
        rw [hall]
        exact hold
      · have hsub : ∀ i b, ((c.modifyRegion p (g.getRtTag t) f).setBlocks (g.getBlockSet t e.way)
            l).blockIn a i = some b → c.blockIn a i = some b := fun i b hb => by
          by_cases hi : i = g.getBlockSet t e.way
          · rw [hi, hset, hnone] at hb
            cases hb
          · rwa [hblock i hi] at hb
        cases hs : c.slot a with
        | none =>
          rw [hs] at hold
          exact fun i b hb => hold i b (hsub i b hb)
        | some q =>
          obtain ⟨w, s, v⟩ := q
          rw [hs] at hold
          refine ⟨?_, fun i b hi hb => hold.2 i b hi (hsub i b hb)⟩
          by_cases hi : g.getBlockSet a w = g.getBlockSet t e.way
          · rw [hi, hset, hnone]
            have hagree := hold.1
            rw [hi, blockIn] at hagree
            cases hb : (c.theBlocks (g.getBlockSet t e.way)).findTag (g.getBlockTag a) with
            | none =>
              rw [hb] at hagree
              exact hagree
            | some b =>
              rw [hb] at hagree
              exact hagree.1.trans (hinvalid b hb)
          · rw [hblock _ hi]
            exact hold.1

theorem Inv.perm {n : ℕ} (h : c.Inv n) {i : ℕ} {l : BlockSet} (hl : l.Perm (c.theBlocks i)) :
    (c.setBlocks i l).Inv n where
  regions := h.regions
  erb_le := h.erb_le
  blocks j := by
    rw [setBlocks]
    dsimp only
    by_cases hj : j = i
    · rw [hj, update_self]
      exact (h.blocks i).perm hl
    · rw [update_of_ne hj]
      exact h.blocks j
  linked a := by
    have hblock : (c.setBlocks i l).blockIn a = c.blockIn a := by
      funext j
      rw [blockIn_setBlocks]
      split
      · rename_i hj
        rw [hj, BlockSet.findTag_perm (h.blocks i).tags_nodup hl, blockIn]
      · rfl
    rw [Linked, hblock]
    exact h.linked a

theorem Inv.updateRegionLRU {n : ℕ} (h : c.Inv n) (p : RTSet) (t : ℕ) :
    (c.updateRegionLRU p t).Inv n where
  regions := h.regions.perm (tags_updateRegionLRU p t).1 (tags_updateRegionLRU p t).2
  erb_le := (length_theERB_updateRegionLRU p t).trans_le h.erb_le
  blocks i := by
    rw [theBlocks_updateRegionLRU]
    exact h.blocks i
  linked a := by
    have hblock : (c.updateRegionLRU p t).blockIn a = c.blockIn a := by
      funext i
      rw [blockIn, theBlocks_updateRegionLRU, blockIn]
    rw [Linked, hblock, slot, region, findEntry_updateRegionLRU h.regions]
    exact h.linked a

end RTCache

end Flexus
