import Flexus.FastCache.RegionConsistency

/-!
# The operations of a region tracker

Every operation keeps the invariant of `Flexus.FastCache.RegionConsistency`. An allocation does
so in stages: a new region takes the place of the oldest one in its set, which goes to the buffer
(`Flexus.RTCache.pushRegion_spec`); the blocks of the region at the front of the buffer are
evicted, and when none of them is valid any more, the region can go
(`Flexus.RTCache.evictFront_ends`); and the block takes an entry, perhaps that of a block of
another region, which is evicted (`Flexus.RTCache.placeBlock_ends`).

The specifications say at the same time which assertions may fail: with the skew, the set for
way 0 may be the wrong one, and some things are not supported (`Flexus.RTCache.Tolerated`).
-/

namespace Flexus

open Function Lib List

open RTGeometry
open Lib (Ends)

namespace RTCache

variable {g : RTGeometry} {c c' : RTCache g} {a b t n : ℕ} {p : RTSet} {e : RTEntry}

/-- **The assertions that may fail**, and when. -/
def Tolerated (g : RTGeometry) : RTFault → Prop
  | .inconsistent => g.theSkewBlockSetIndex = true
  | .regionLRUNotSupported => g.theReplPolicy = .regionLRU
  | .blockNotInserted => 2 ^ 16 < g.theAssociativity
  | _ => False

theorem assertConsistent_ends (h : c.Inv n) (a : ℕ) :
    Ends (Tolerated g) (c.assertConsistent a) fun _ => True := by
  rw [assertConsistent]
  split
  · exact trivial
  · rename_i hc
    show g.theSkewBlockSetIndex = true
    by_contra hs
    refine hc ((isConsistent_iff_of_linked h.regions (h.linked a)).mpr fun _ e _ _ => ?_)
    exact getBlockSet_way (Bool.eq_false_iff.mpr hs) a e.way

/-- **A result is good**: it has the entry of the region, and the entry of the block in its set,
whose way the region knows. -/
def Resolves (c : RTCache g) (r : RTLookupResult) : Prop :=
  ∃ e b, c.findEntry r.tagset = some (r.rtSet, e) ∧ r.region = g.getRtTag r.tagset ∧
    r.offset = g.getBlockOffset r.tagset ∧ r.blockSet = g.getBlockSet r.tagset e.way ∧
    c.blockIn r.tagset r.blockSet = some b ∧ b.way = r.block ∧ e.ways r.offset = r.block

/-- **The state of a block** in its region. -/
def stateOf (c : RTCache g) (a : ℕ) : CoherenceState :=
  match c.region a with
  | some e => e.state (g.getBlockOffset a)
  | none => .invalid

theorem stateOf_of_findEntry (h : c.findEntry a = some (p, e)) :
    c.stateOf a = e.state (g.getBlockOffset a) := by
  rw [stateOf, region, h]
  rfl

theorem stateOf_of_none (h : c.findEntry a = none) : c.stateOf a = .invalid := by
  rw [stateOf, region, h]
  rfl

/-- **A lookup finds the state of the block.** -/
theorem lookup_ends (h : c.Inv n) (a : ℕ) : Ends (Tolerated g) (c.lookup a) fun r =>
    c.getState r = c.stateOf a ∧ ∀ r', r = some r' → c.Resolves r' := by
  rw [lookup]
  cases he : c.findEntry a with
  | none => exact ⟨(stateOf_of_none he).symm, fun _ hr => nomatch hr⟩
  | some q =>
    obtain ⟨p, e⟩ := q
    dsimp only
    rw [stateOf_of_findEntry he]
    split
    · rename_i hv
      obtain ⟨b, hb, hs, hw⟩ := (h.linked a).of_state he (CoherenceState.isValid_iff.mp hv)
      have hfind : (c.theBlocks (g.getBlockSet a e.way)).findTag (g.getBlockTag a) = some b := hb
      rw [hfind]
      refine (assertConsistent_ends h a).bind fun _ _ => ⟨?_, fun r' hr => ?_⟩
      · rw [getState, (h.blocks _).atWay_eq (BlockSet.mem_of_findTag hfind), ← hs]
      · cases hr
        exact ⟨e, b, he, (lookup_of_findEntry he).2.1, rfl, rfl, hb, rfl, hw.symm⟩
    · rename_i hv
      refine ⟨?_, fun _ hr => nomatch hr⟩
      rw [CoherenceState.isValid_iff, not_not] at hv
      exact hv.symm

/-! ### A new region -/

theorem region_eq_some (h : RegionsPlaced g c.rvaTags c.erbTags) : c.region a = some e ↔
    (e ∈ c.theRVA (g.getRtSet a) ∨ e ∈ c.theERB) ∧ e.tag = g.getRtTag a := by
  constructor
  · intro hr
    obtain ⟨⟨p, d⟩, hd, rfl⟩ := Option.map_eq_some_iff.mp hr
    obtain ⟨hl, htag, hp⟩ := lookup_of_findEntry hd
    refine ⟨?_, htag⟩
    rcases hp with rfl | ⟨rfl, -⟩
    · exact .inl (Keyed.mem_of_lookup hl)
    · exact .inr (Keyed.mem_of_lookup hl)
  · rintro ⟨hmem | hmem, htag⟩
    · have hl := Keyed.lookup_of_mem (h.rva_nodup _) hmem
      rw [htag] at hl
      rw [region, findEntry, hl]
      rfl
    · have hl := Keyed.lookup_of_mem h.erb_nodup hmem
      rw [htag] at hl
      have hrva : Keyed.lookup RTEntry.tag (c.theRVA (g.getRtSet a)) (g.getRtTag a) = none := by
        refine Keyed.lookup_eq_none.mpr fun d hd hdt => ?_
        refine h.disjoint e.tag (mem_map.mpr ⟨e, hmem, rfl⟩) ?_
        rw [htag, getRtSet_getRtTag]
        exact mem_map.mpr ⟨d, hd, hdt⟩
      rw [region, findEntry, hrva, hl]
      rfl

/-- What happens to the set of a new region: it has room, or its first entry goes to the
buffer. -/
theorem pushRegion_eq (c : RTCache g) (a : ℕ) : ∃ l erb way, c.pushRegion a =
      (if (Keyed.lookup RTEntry.tag l (g.getRtTag a)).isSome then .error .regionNotInserted
        else .ok { c with
          theRVA := update c.theRVA (g.getRtSet a)
            (l ++ [.ofRegion (g.getRtTag a) way .shared (-1)])
          theERB := erb }) ∧
    (l = c.theRVA (g.getRtSet a) ∧ erb = c.theERB ∧ l.length < g.theRTAssociativity ∨
      ∃ e, c.theRVA (g.getRtSet a) = e :: l ∧ g.theRTAssociativity ≤ l.length + 1 ∧
        erb = Keyed.pushBack RTEntry.tag c.theERB e) := by
  rw [pushRegion]
  cases hl : c.theRVA (g.getRtSet a) with
  | nil => exact ⟨[], c.theERB, 0, rfl, .inl ⟨rfl, rfl, g.rtAssoc_pos⟩⟩
  | cons e l =>
    by_cases hfull : g.theRTAssociativity ≤ l.length + 1
    · refine ⟨l, _, e.way, ?_, .inr ⟨e, rfl, hfull, rfl⟩⟩
      dsimp only
      rw [if_pos hfull]
    · refine ⟨e :: l, c.theERB, l.length + 1, ?_, .inl ⟨rfl, rfl, not_le.mp hfull⟩⟩
      dsimp only
      rw [if_neg hfull]

/-- **A new region** has no valid blocks, and the other regions are as they were. -/
theorem pushRegion_spec (h : c.Inv n) (hnone : c.findEntry a = none) :
    ∃ c', c.pushRegion a = .ok c' ∧ c'.Inv (n + 1) ∧
      ∃ e, c'.findEntry a = some (.rva (g.getRtSet a), e) := by
  obtain ⟨hrva, herb⟩ := findEntry_eq_none.mp hnone
  obtain ⟨l, erb, way, heq, hcase⟩ := pushRegion_eq c a
  have hr := h.regions
  have hleft : l.Sublist (c.theRVA (g.getRtSet a)) := by
    rcases hcase with ⟨rfl, -, -⟩ | ⟨e, he, -, -⟩
    · exact .refl _
    · rw [he]
      exact sublist_cons_self e l
  have hlookup : Keyed.lookup RTEntry.tag l (g.getRtTag a) = none :=
    Keyed.lookup_eq_none.mpr fun x hx hxa =>
      hrva (mem_map.mpr ⟨x, hleft.subset hx, hxa⟩)
  have hcase' : l = c.theRVA (g.getRtSet a) ∧ erb = c.theERB ∧ l.length < g.theRTAssociativity ∨
      ∃ e, c.theRVA (g.getRtSet a) = e :: l ∧ g.theRTAssociativity ≤ l.length + 1 ∧
        erb = c.theERB ++ [e] := by
    refine hcase.imp id ?_
    rintro ⟨e, he, hfull, rfl⟩
    refine ⟨e, he, hfull, if_neg ?_⟩
    have hmem : e.tag ∈ c.rvaTags (g.getRtSet a) := by
      rw [rvaTags, he]
      exact mem_map.mpr ⟨e, mem_cons_self, rfl⟩
    rw [Bool.not_eq_true, Option.isSome_eq_false_iff, Option.isNone_iff_eq_none]
    refine Keyed.lookup_eq_none.mpr fun x hx hxe => ?_
    refine hr.disjoint e.tag (mem_map.mpr ⟨x, hx, hxe⟩) ?_
    rw [(hr.rva_tag _ _ hmem).2]
    exact hmem
  rw [hlookup, Option.isSome_none, if_neg Bool.false_ne_true] at heq
  have hfound : ∀ c' : RTCache g, c'.theRVA = update c.theRVA (g.getRtSet a)
      (l ++ [.ofRegion (g.getRtTag a) way .shared (-1)]) →
      c'.findEntry a = some (.rva (g.getRtSet a), .ofRegion (g.getRtTag a) way .shared (-1)) := by
    intro c' hc'
    have htag : (RTEntry.ofRegion (g.getRtTag a) way .shared (-1)).tag = g.getRtTag a := rfl
    rw [findEntry, hc', update_self, Keyed.lookup_append_singleton, hlookup,
      Option.none_or, if_pos htag]
  have hregions : ∀ c' : RTCache g, c'.theRVA = update c.theRVA (g.getRtSet a)
      (l ++ [.ofRegion (g.getRtTag a) way .shared (-1)]) → c'.theERB = erb →
      RegionsPlaced g c'.rvaTags c'.erbTags := by
    intro c' hc' hce
    have htags : RegionsPlaced g (update c.rvaTags (g.getRtSet (g.getRtTag a))
        (l.map RTEntry.tag ++ [g.getRtTag a])) (erb.map RTEntry.tag) := by
      refine hr.push (getRtTag_getRtTag a) (by rwa [getRtSet_getRtTag]) herb ?_
      rw [getRtSet_getRtTag, rvaTags, length_map]
      rcases hcase' with ⟨hl, he, hlen⟩ | ⟨e, hl, hfull, he⟩
      · exact .inl ⟨by rw [hl], by rw [he, erbTags], hlen⟩
      · refine .inr ⟨e.tag, by rw [hl, map_cons], hfull, ?_⟩
        rw [he, map_append, erbTags, map_singleton]
    rw [erbTags, hce]
    refine htags.perm (fun j => ?_) (.refl _)
    rw [getRtSet_getRtTag, rvaTags, hc']
    by_cases hj : j = g.getRtSet a
    · rw [hj, update_self, update_self, map_append]
      exact .refl _
    · rw [update_of_ne hj, update_of_ne hj]
      exact .refl _
  refine ⟨_, heq, ⟨hregions _ rfl rfl, ?_, h.blocks, fun b => ?_⟩, _, hfound _ rfl⟩
  · dsimp only
    have hn := h.erb_le
    rcases hcase' with ⟨-, rfl, -⟩ | ⟨e, -, -, rfl⟩
    · omega
    · rw [length_append, length_singleton]
      omega
  · by_cases hb : g.getRtTag b = g.getRtTag a
    · -- no block of the new region is valid
      rw [Linked, slot_of_findEntry ((findEntry_congr hb).trans (hfound _ rfl))]
      have hinvalid : ∀ i d, c.blockIn b i = some d → d.state = .invalid := fun i d hd =>
        (h.linked b).of_none ((findEntry_congr hb).trans hnone) hd
      refine ⟨?_, fun i d _ hd => hinvalid i d hd⟩
      cases hd : c.blockIn b (g.getBlockSet b way) with
      | none =>
        show Agrees .invalid 0 (c.blockIn b (g.getBlockSet b way))
        rw [hd]
        rfl
      | some d =>
        show Agrees .invalid 0 (c.blockIn b (g.getBlockSet b way))
        rw [hd]
        exact ⟨(hinvalid _ d hd).symm, fun hc => absurd rfl hc⟩
    · have hsame : ∀ c' : RTCache g, c'.theRVA = update c.theRVA (g.getRtSet a)
          (l ++ [.ofRegion (g.getRtTag a) way .shared (-1)]) → c'.theERB = erb →
          c'.region b = c.region b := by
        intro c' hc' hce
        refine Option.ext fun x => ?_
        rw [region_eq_some (hregions c' hc' hce), region_eq_some hr, hc', hce]
        refine and_congr_left fun hx => ?_
        have hxnew : x ≠ .ofRegion (g.getRtTag a) way .shared (-1) := by
          rintro rfl
          exact hb hx.symm
        by_cases hj : g.getRtSet b = g.getRtSet a
        · rw [hj, update_self, mem_append, mem_singleton, or_iff_left hxnew]
          rcases hcase' with ⟨rfl, rfl, -⟩ | ⟨e, he, -, rfl⟩
          · rfl
          · rw [he, mem_append, mem_singleton, mem_cons]
            tauto
        · rw [update_of_ne hj]
          rcases hcase' with ⟨-, rfl, -⟩ | ⟨e, he, -, rfl⟩
          · rfl
          · -- a region that has moved is of the other set
            have hxe : x ≠ e := by
              rintro rfl
              have hmem : x.tag ∈ c.rvaTags (g.getRtSet a) := by
                rw [rvaTags, he]
                exact mem_map.mpr ⟨x, mem_cons_self, rfl⟩
              have hset := (hr.rva_tag _ _ hmem).2
              rw [hx, getRtSet_getRtTag] at hset
              exact hj hset
            rw [mem_append, mem_singleton, or_iff_left hxe]
      have hold := h.linked b
      rw [Linked, slot, hsame _ rfl rfl]
      exact hold

/-! ### Evicting a region -/

variable {r : RTEntry} {rest : List RTEntry} {i : ℕ}

/-- The region at the front of the buffer is found by its blocks. -/
theorem findEntry_front (h : RegionsPlaced g c.rvaTags c.erbTags) (hb : c.theERB = r :: rest)
    (ha : g.getRtTag a = r.tag) : c.findEntry a = some (.erb, r) := by
  have hmem : r.tag ∈ c.erbTags := by
    rw [erbTags, hb]
    exact mem_cons_self
  have hnone : Keyed.lookup RTEntry.tag (c.theRVA (g.getRtSet a)) (g.getRtTag a) = none := by
    refine Keyed.lookup_eq_none.mpr fun x hx hxa => h.disjoint r.tag hmem ?_
    rw [← ha, getRtSet_getRtTag]
    exact mem_map.mpr ⟨x, hx, hxa⟩
  have hfront : Keyed.lookup RTEntry.tag c.theERB (g.getRtTag a) = some r := by
    rw [hb, ha]
    exact find?_cons_of_pos (beq_self_eq_true r.tag)
  rw [findEntry, hnone, hfront]
  rfl

/-- **A block of the region at the front is evicted.** -/
theorem evictBlock_ends (h : c.Inv n) (hb : c.theERB = r :: rest) (hi : i < g.theBlocksPerRegion) :
    Ends (Tolerated g) (c.evictBlock i) fun c' => c'.Inv n ∧ c'.theRVA = c.theRVA ∧
      ∃ r', c'.theERB = r' :: rest ∧ r'.tag = r.tag ∧ r'.state i = .invalid ∧
        ∀ j, r.state j = .invalid → r'.state j = .invalid := by
  have htag : g.getRtTag r.tag = r.tag := by
    refine h.regions.erb_tag r.tag ?_
    rw [erbTags, hb]
    exact mem_cons_self
  obtain ⟨haddr, hoff, hblock⟩ := blockAddr_spec htag hi
  have hfind := findEntry_front h.regions hb haddr
  rw [evictBlock, hb]
  dsimp only
  refine (assertConsistent_ends h _).bind fun _ _ => ?_
  split
  · rename_i hv
    obtain ⟨b, hbin, hbs, hbw⟩ := (h.linked (g.blockAddr r.tag i)).of_state hfind
      (by rw [hoff]; exact CoherenceState.isValid_iff.mp hv)
    have hplaced := h.blocks (g.getBlockSet (g.blockAddr r.tag i) r.way)
    rw [blockIn, hblock] at hbin
    have hmem := BlockSet.mem_of_findTag hbin
    have hbtag := BlockSet.tag_of_findTag hbin
    rw [hoff] at hbw
    rw [← hbw, hplaced.atWay_eq hmem]
    dsimp only
    rw [if_neg (by rw [hbtag, haddr]; exact fun hc => hc rfl)]
    refine (assertConsistent_ends h _).bind fun _ _ => ?_
    -- the block is invalidated in its set and in its region
    have hfindTag : ∀ u,
        (((c.theBlocks (g.getBlockSet (g.blockAddr r.tag i) r.way)).changeBlockState
          b.way .invalid).toHead b.way).findTag u =
        if u = b.tag then some { b with state := .invalid }
        else (c.theBlocks (g.getBlockSet (g.blockAddr r.tag i) r.way)).findTag u := fun u => by
      rw [BlockSet.findTag_perm (hplaced.changeBlockState _ _).tags_nodup
        (BlockSet.toHead_perm _ _), hplaced.findTag_changeBlockState hmem]
    have hinv := h.updateBlock hfind (touches_changeState _ .invalid)
      ((hplaced.changeBlockState b.way .invalid).perm (BlockSet.toHead_perm _ b.way))
      (fun u hu => .inl (by rw [hfindTag, if_neg (by rwa [hbtag, ← hblock])]))
      (by
        rw [hfindTag, if_pos (by rw [hbtag, hblock]), RTEntry.changeState]
        dsimp only
        rw [update_self]
        exact ⟨rfl, fun hc => absurd rfl hc⟩)
    rw [haddr, hoff] at hinv
    refine (assertConsistent_ends (hinv.congr rfl rfl rfl) _).bind fun _ _ => ?_
    refine ⟨hinv.congr rfl rfl rfl, rfl, r.changeState i .invalid, ?_, rfl,
      update_self _ _ _, fun j hj => ?_⟩
    · show Keyed.update RTEntry.tag c.theERB r.tag _ = _
      rw [hb, Keyed.update, if_pos rfl]
    · rw [RTEntry.changeState]
      dsimp only
      rw [update_apply]
      split
      · rfl
      · exact hj
  · rename_i hv
    rw [CoherenceState.isValid_iff, not_not] at hv
    exact (assertConsistent_ends h _).bind fun _ _ =>
      ⟨h, rfl, r, hb, rfl, hv, fun _ hj => hj⟩

theorem evictBlocks_ends {is : List ℕ} (h : c.Inv n) (hb : c.theERB = r :: rest)
    (his : ∀ i ∈ is, i < g.theBlocksPerRegion) :
    Ends (Tolerated g) (c.evictBlocks is) fun c' => c'.Inv n ∧ c'.theRVA = c.theRVA ∧
      ∃ r', c'.theERB = r' :: rest ∧ r'.tag = r.tag ∧ (∀ i ∈ is, r'.state i = .invalid) ∧
        ∀ j, r.state j = .invalid → r'.state j = .invalid := by
  induction is generalizing c r with
  | nil => exact ⟨h, rfl, r, hb, rfl, fun _ hi => absurd hi not_mem_nil, fun _ hj => hj⟩
  | cons i is ih =>
    rw [evictBlocks]
    refine (evictBlock_ends h hb (his i mem_cons_self)).bind fun c₁ h₁ => ?_
    obtain ⟨hinv, hrva, r₁, hb₁, htag, hi, hkeep⟩ := h₁
    refine (ih hinv hb₁ fun j hj => his j (mem_cons_of_mem i hj)).mono fun c₂ h₂ => ?_
    obtain ⟨hinv₂, hrva₂, r₂, hb₂, htag₂, his₂, hkeep₂⟩ := h₂
    refine ⟨hinv₂, hrva₂.trans hrva, r₂, hb₂, htag₂.trans htag, fun j hj => ?_,
      fun j hj => hkeep₂ j (hkeep j hj)⟩
    rcases mem_cons.mp hj with rfl | hj
    · exact hkeep₂ j hi
    · exact his₂ j hj

theorem Inv.popFront (h : c.Inv n) (hb : c.theERB = r :: rest)
    (hr : ∀ i < g.theBlocksPerRegion, r.state i = .invalid) (hrva : c'.theRVA = c.theRVA)
    (herb : c'.theERB = rest) (hblocks : c'.theBlocks = c.theBlocks)
    (hlen : rest.length ≤ t) : c'.Inv t where
  regions := by
    have htags : c.erbTags = r.tag :: rest.map RTEntry.tag := by rw [erbTags, hb, map_cons]
    have hreg := h.regions
    have hmem : ∀ u ∈ rest.map RTEntry.tag, u ∈ c.erbTags := fun u hu => by
      rw [htags]
      exact mem_cons_of_mem _ hu
    have hnodup := hreg.erb_nodup
    rw [htags, nodup_cons] at hnodup
    rw [show c'.rvaTags = c.rvaTags from funext fun i => by rw [rvaTags, hrva, rvaTags],
      erbTags, herb]
    exact ⟨hreg.rva_tag, hreg.rva_nodup, hreg.rva_le, fun u hu => hreg.erb_tag u (hmem u hu),
      hnodup.2, fun u hu => hreg.erb_full u (hmem u hu),
      fun u hu => hreg.disjoint u (hmem u hu)⟩
  erb_le := herb ▸ hlen
  blocks i := hblocks ▸ h.blocks i
  linked a := by
    have hblock : c'.blockIn a = c.blockIn a := by
      funext i
      rw [blockIn, hblocks, blockIn]
    have hold := h.linked a
    by_cases ha : g.getRtTag a = r.tag
    · -- the region is gone, and none of its blocks was valid
      have hfind := findEntry_front h.regions hb ha
      obtain ⟨-, -, hp⟩ := lookup_of_findEntry hfind
      have hnone : c'.findEntry a = none := by
        rcases hp with hp | ⟨-, hp⟩
        · cases hp
        · have hout : Keyed.lookup RTEntry.tag rest (g.getRtTag a) = none := by
            have hnodup := h.regions.erb_nodup
            rw [erbTags, hb, map_cons, nodup_cons] at hnodup
            refine Keyed.lookup_eq_none.mpr fun x hx hxa => hnodup.1 ?_
            exact mem_map.mpr ⟨x, hx, hxa.trans ha⟩
          rw [findEntry, hrva, hp, herb, hout]
          rfl
      rw [Linked, slot_of_none hnone, hblock]
      obtain ⟨hagree, hother⟩ := hold.of_findEntry hfind
      rw [hr _ (offset_lt a)] at hagree
      intro i b hbi
      by_cases hi : i = g.getBlockSet a r.way
      · rw [← hi, hbi] at hagree
        exact hagree.1.symm
      · exact hother i b hi hbi
    · have hsame : c'.findEntry a = c.findEntry a := by
        have hrest : Keyed.lookup RTEntry.tag c.theERB (g.getRtTag a) =
            Keyed.lookup RTEntry.tag rest (g.getRtTag a) := by
          rw [hb]
          exact find?_cons_of_neg (by simpa using fun hc : r.tag = g.getRtTag a => ha hc.symm)
        rw [findEntry, findEntry, hrva, herb, hrest]
      rw [Linked, slot, region, hsame, hblock]
      exact hold

/-- **The region at the front of the buffer is evicted.** -/
theorem evictFront_ends (h : c.Inv n) (hb : c.theERB = r :: rest) (hlen : rest.length ≤ t) :
    Ends (Tolerated g) c.evictFront fun c' => c'.Inv t ∧ c'.theRVA = c.theRVA := by
  rw [evictFront]
  refine (evictBlocks_ends h hb fun i hi => mem_range.mp hi).bind fun c₁ h₁ => ?_
  obtain ⟨hinv, hrva, r₁, hb₁, -, hinvalid, -⟩ := h₁
  rw [hb₁]
  exact ⟨hinv.popFront hb₁ (fun i hi => hinvalid i (mem_range.mpr hi)) rfl rfl rfl hlen, hrva⟩

/-- **The region of an allocation.** -/
theorem allocateRegion_ends (h : c.Inv g.theERBSize) (a : ℕ) :
    Ends (Tolerated g) (c.allocateRegion a) fun r => r.1.Inv g.theERBSize ∧
      ∃ e, r.1.findEntry a = some (r.2, e) := by
  rw [allocateRegion]
  cases he : c.findEntry a with
  | some q => exact ⟨h, q.2, he⟩
  | none =>
    obtain ⟨c₁, hc₁, hinv, e, hfind⟩ := pushRegion_spec h he
    dsimp only
    rw [hc₁]
    refine Ends.bind (P := (· = c₁)) rfl ?_
    rintro _ rfl
    split
    · rename_i hfull
      obtain ⟨r, rest, hb⟩ := exists_cons_of_length_pos (Nat.zero_lt_of_lt hfull)
      have hlen := hinv.erb_le
      rw [hb, length_cons] at hlen
      refine (evictFront_ends hinv hb (Nat.le_of_succ_le_succ hlen)).bind fun c₂ h₂ => ?_
      refine ⟨h₂.1, e, ?_⟩
      have hl := (lookup_of_findEntry hfind).1
      have hrva : Keyed.lookup RTEntry.tag (c₂.theRVA (g.getRtSet a)) (g.getRtTag a) =
          some e := by
        rw [h₂.2]
        exact hl
      rw [findEntry, hrva]
    · rename_i hroom
      exact ⟨⟨hinv.regions, not_lt.mp hroom, hinv.blocks, hinv.linked⟩, e, hfind⟩

/-! ### Placing a block -/

variable {s : CoherenceState}

/-- **A block has been placed**: its region is where it was, its set has an entry for it, and the
invariant holds as soon as the region knows. -/
def Places (n : ℕ) (a : ℕ) (s : CoherenceState) (p : RTSet) (i : ℕ) (r : RTCache g × ℕ) : Prop :=
  ∃ e b, r.1.findEntry a = some (p, e) ∧ g.getBlockSet a e.way = i ∧ r.1.blockIn a i = some b ∧
    b.way = r.2 % 2 ^ 16 ∧
    (r.1.modifyRegion p (g.getRtTag a) fun e =>
      e.allocateBlock (g.getBlockOffset a) s r.2).Inv n

theorem agrees_allocateBlock (e : RTEntry) (offset w : ℕ) {b : BlockEntry} (hs : b.state = s)
    (hw : b.way = w % 2 ^ 16) : Agrees ((e.allocateBlock offset s w).state offset)
      ((e.allocateBlock offset s w).ways offset) (some b) := by
  rw [RTEntry.allocateBlock]
  dsimp only
  rw [update_self, update_self]
  exact ⟨hs.symm, fun _ => hw.symm⟩

theorem modifyRegion_setBlocks (p : RTSet) (t : ℕ) (f : RTEntry → RTEntry) (i : ℕ) (l : BlockSet) :
    (c.setBlocks i l).modifyRegion p t f = (c.modifyRegion p t f).setBlocks i l := by
  cases p <;> rfl

/-- **A block with an entry that is its own** for the state. -/
theorem places_of_set (h : c.Inv n) (he : c.findEntry a = some (p, e)) {l : BlockSet} {w : ℕ}
    (hl : l.Placed g) (hother : ∀ u, u ≠ g.getBlockTag a →
      l.findTag u = (c.theBlocks (g.getBlockSet a e.way)).findTag u ∨ l.findTag u = none ∧
        ∀ b, (c.theBlocks (g.getBlockSet a e.way)).findTag u = some b → b.state = .invalid)
    {b : BlockEntry} (hb : l.findTag (g.getBlockTag a) = some b) (hs : b.state = s)
    (hw : b.way = w % 2 ^ 16) :
    Places n a s p (g.getBlockSet a e.way) (c.setBlocks (g.getBlockSet a e.way) l, w) := by
  refine ⟨e, b, he, rfl, ?_, hw, ?_⟩
  · rw [blockIn_setBlocks, if_pos rfl]
    exact hb
  · rw [modifyRegion_setBlocks]
    refine h.updateBlock he (touches_allocateBlock _ s w) hl hother ?_
    rw [hb]
    exact agrees_allocateBlock e _ w hs hw

theorem places_of_invalid (h : c.Inv n) (he : c.findEntry a = some (p, e)) {d : BlockEntry}
    (hd : d ∈ c.theBlocks (g.getBlockSet a e.way)) (hinvalid : d.state = .invalid)
    (hfresh : (c.theBlocks (g.getBlockSet a e.way)).findTag (g.getBlockTag a) = none) :
    Places n a s p (g.getBlockSet a e.way) (c.setBlocks (g.getBlockSet a e.way)
      (((c.theBlocks (g.getBlockSet a e.way)).replaceBlock d.way (g.getBlockTag a) s).toTail
        d.way), d.way) := by
  have hplaced := h.blocks (g.getBlockSet a e.way)
  obtain ⟨hl, hfind⟩ := hplaced.replaceBlock hd (getBlockTag_getBlockTag a) hfresh s
  have hfind' := fun u =>
    (BlockSet.findTag_perm hl.tags_nodup (BlockSet.toTail_perm _ d.way) u).trans (hfind u)
  refine places_of_set h he (hl.perm (BlockSet.toTail_perm _ _)) (fun u hu => ?_)
    ((hfind' _).trans (if_pos rfl)) rfl (hplaced.way_mod hd).symm
  rw [hfind', if_neg hu]
  by_cases hud : u = d.tag
  · refine .inr ⟨if_pos hud, fun b hb => ?_⟩
    have hbd : b = d := BlockSet.eq_of_tag_eq hplaced.tags_nodup (BlockSet.mem_of_findTag hb) hd
      ((BlockSet.tag_of_findTag hb).trans hud)
    rw [hbd, hinvalid]
  · exact .inl (if_neg hud)

theorem Places.congr {i w : ℕ} (h : Places n a s p i (c, w)) (hrva : c'.theRVA = c.theRVA)
    (herb : c'.theERB = c.theERB) (hblocks : c'.theBlocks = c.theBlocks) :
    Places n a s p i (c', w) := by
  obtain ⟨rva, erb, blocks, k⟩ := c
  obtain ⟨rva', erb', blocks', k'⟩ := c'
  obtain rfl : rva' = rva := hrva
  obtain rfl : erb' = erb := herb
  obtain rfl : blocks' = blocks := hblocks
  obtain ⟨e, b, he, hi, hb, hw, hinv⟩ := h
  refine ⟨e, b, he, hi, hb, hw, ?_⟩
  cases p <;> exact hinv.congr rfl rfl rfl

/-- Changing the state of an entry before it is given away makes no difference. -/
theorem replaceBlock_changeBlockState (l : BlockSet) (w t : ℕ) (s s' : CoherenceState) :
    (l.changeBlockState w s').replaceBlock w t s = l.replaceBlock w t s := by
  rw [BlockSet.replaceBlock, BlockSet.changeBlockState, map_map, BlockSet.replaceBlock]
  refine map_congr_left fun d _ => ?_
  by_cases hd : d.way = w
  · simp [hd]
  · simp [hd]

/-- **The block at the front of a set is replaced.** If it is valid, it is evicted from its own
region first. -/
theorem replaceLruBlock_ends (h : c.Inv n) (he : c.findEntry a = some (p, e)) {d : BlockEntry}
    {l : BlockSet} (hl : c.theBlocks (g.getBlockSet a e.way) = d :: l)
    (hfresh : (c.theBlocks (g.getBlockSet a e.way)).findTag (g.getBlockTag a) = none) :
    Ends (Tolerated g) (c.replaceLruBlock (g.getBlockSet a e.way) (g.getBlockTag a) s)
      (Places n a s p (g.getBlockSet a e.way)) := by
  have hplaced := h.blocks (g.getBlockSet a e.way)
  have hd : d ∈ c.theBlocks (g.getBlockSet a e.way) := by
    rw [hl]
    exact mem_cons_self
  rw [replaceLruBlock, hl]
  dsimp only
  split
  · rename_i hv
    rw [CoherenceState.isValid_iff] at hv
    -- the region of the block that is evicted
    have htag := hplaced.isTag d hd
    have hin : c.blockIn d.tag (g.getBlockSet a e.way) = some d := by
      rw [blockIn, htag]
      exact Keyed.lookup_of_mem hplaced.tags_nodup hd
    obtain ⟨q, x, hx, hset, hxs, -⟩ := (h.linked d.tag).of_valid hin hv
    rw [hx]
    have hne : g.getBlockTag a ≠ d.tag := fun hc => by
      have := Keyed.lookup_eq_none.mp hfresh d hd
      exact this hc.symm
    have hfindTag := hplaced.findTag_changeBlockState hd .invalid
    have hinv := h.updateBlock hx (touches_changeState _ .invalid)
      (hplaced.changeBlockState d.way .invalid) (fun u hu => .inl (by
        rw [← hset, hfindTag, if_neg (by rwa [← htag])]))
      (by
        rw [hfindTag, if_pos htag, RTEntry.changeState]
        dsimp only
        rw [update_self]
        exact ⟨rfl, fun hc => absurd rfl hc⟩)
    rw [← hset] at hinv
    -- the region of the new block is still there, and the new block is not valid in it
    obtain ⟨y, hy, hyway⟩ : ∃ y, (c.modifyRegion q (g.getRtTag d.tag) fun e =>
        e.changeState (g.getBlockOffset d.tag) .invalid).findEntry a = some (p, y) ∧
        y.way = e.way := by
      rw [findEntry_modifyRegion (touches_changeState _ _).tag hx]
      by_cases htags : g.getRtTag a = g.getRtTag d.tag
      · obtain ⟨rfl, rfl⟩ := Prod.mk.inj (Option.some.inj
          (he.symm.trans ((findEntry_congr htags).trans hx)))
        exact ⟨_, if_pos htags, rfl⟩
      · exact ⟨e, (if_neg htags).trans he, rfl⟩
    have hmem : ({ d with state := .invalid } : BlockEntry) ∈
        (c.theBlocks (g.getBlockSet a e.way)).changeBlockState d.way .invalid :=
      BlockSet.mem_of_findTag ((hfindTag d.tag).trans (if_pos rfl))
    have hblocks : ((c.modifyRegion q (g.getRtTag d.tag) fun e =>
        e.changeState (g.getBlockOffset d.tag) .invalid).setBlocks (g.getBlockSet a e.way)
        ((c.theBlocks (g.getBlockSet a e.way)).changeBlockState d.way .invalid)).theBlocks
        (g.getBlockSet a e.way) =
        (c.theBlocks (g.getBlockSet a e.way)).changeBlockState d.way .invalid :=
      update_self _ _ _
    have hplaces := places_of_invalid (s := s) hinv hy (by rw [hyway, hblocks]; exact hmem) rfl
      (by rw [hyway, hblocks, hfindTag, if_neg hne]; exact hfresh)
    rw [hyway, hblocks, replaceBlock_changeBlockState, hl] at hplaces
    refine hplaces.congr rfl rfl ?_
    rw [setBlocks, setBlocks, setBlocks]
    exact (update_idem _ _ _).symm
  · rename_i hv
    rw [CoherenceState.isValid_iff, not_not] at hv
    have hplaces := places_of_invalid (s := s) h he hd hv hfresh
    rw [hl] at hplaces
    exact hplaces

/-- **A block that is not valid takes an entry.** -/
theorem placeBlock_ends (h : c.Inv n) (he : c.findEntry a = some (p, e)) (s : CoherenceState) :
    Ends (Tolerated g) (c.placeBlock (g.getBlockSet a e.way) (g.getBlockTag a) s)
      (Places n a s p (g.getBlockSet a e.way)) := by
  have hplaced := h.blocks (g.getBlockSet a e.way)
  rw [placeBlock]
  cases hfind : (c.theBlocks (g.getBlockSet a e.way)).findTag (g.getBlockTag a) with
  | some b =>
    have hb := BlockSet.mem_of_findTag hfind
    have htag := BlockSet.tag_of_findTag hfind
    have hl := hplaced.changeBlockState b.way s
    have hfind' := fun u => (BlockSet.findTag_perm hl.tags_nodup (BlockSet.toTail_perm _ b.way)
      u).trans (hplaced.findTag_changeBlockState hb s u)
    exact places_of_set h he (hl.perm (BlockSet.toTail_perm _ _))
      (fun u hu => .inl ((hfind' u).trans (if_neg (by rwa [htag]))))
      ((hfind' _).trans (if_pos htag.symm)) rfl (hplaced.way_mod hb).symm
  | none =>
    dsimp only
    split
    · rename_i hroom
      split
      · rename_i huse
        -- only a set with more ways than there are numbers for comes here
        show 2 ^ 16 < g.theAssociativity
        by_contra hle
        obtain ⟨d, hd, hdw⟩ := any_eq_true.mp huse
        have hlt := hplaced.way_lt hd
        rw [of_decide_eq_true hdw, Nat.mod_eq_of_lt (by omega)] at hlt
        exact absurd hlt (lt_irrefl _)
      · rename_i hfree
        have hway : ∀ d ∈ c.theBlocks (g.getBlockSet a e.way),
            d.way ≠ (c.theBlocks (g.getBlockSet a e.way)).length % 2 ^ 16 := fun d hd hc =>
          hfree (any_eq_true.mpr ⟨d, hd, decide_eq_true hc⟩)
        obtain ⟨hl, -⟩ := hplaced.push hroom (getBlockTag_getBlockTag a) hfind hway s
        refine places_of_set (b := ⟨g.getBlockTag a, s, _⟩) h he hl (fun u hu => .inl ?_) ?_ rfl rfl
        · rw [BlockSet.findTag_eq_lookup, Keyed.lookup_append_singleton,
            if_neg (fun hc => hu hc.symm), Option.or_none]
          rfl
        · rw [BlockSet.findTag_eq_lookup, Keyed.lookup_append_singleton, if_pos rfl,
            ← BlockSet.findTag_eq_lookup, hfind, Option.none_or]
    · rename_i hfull
      obtain ⟨d, l, hl⟩ : ∃ d l, c.theBlocks (g.getBlockSet a e.way) = d :: l := by
        refine exists_cons_of_ne_nil fun hc => hfull ?_
        rw [hc]
        exact g.assoc_pos
      split
      · exact replaceLruBlock_ends h he hl hfind
      · cases hpolicy : g.theReplPolicy with
        | setLRU => exact replaceLruBlock_ends h he hl hfind
        | regionLRU => exact hpolicy

/-- **An allocation** keeps the invariant, and its result is good. -/
theorem allocate_ends (h : c.Inv g.theERBSize) (a : ℕ) (s : CoherenceState) :
    Ends (Tolerated g) (c.allocate a s) fun r => r.1.Inv g.theERBSize ∧ r.1.Resolves r.2 := by
  rw [allocate]
  refine (allocateRegion_ends h a).bind fun r hr => ?_
  obtain ⟨c₁, p⟩ := r
  obtain ⟨hinv, e, he⟩ := hr
  obtain ⟨hl, htag, -⟩ := lookup_of_findEntry he
  dsimp only at hl htag ⊢
  rw [hl]
  dsimp only
  split
  · rename_i hv
    obtain ⟨b, hb, -, hw⟩ := (hinv.linked a).of_state he (CoherenceState.isValid_iff.mp hv)
    have hfind : (c₁.theBlocks (g.getBlockSet a e.way)).findTag (g.getBlockTag a) = some b := hb
    rw [hfind]
    exact (assertConsistent_ends hinv a).bind fun _ _ =>
      ⟨hinv, e, b, he, htag, rfl, rfl, hb, rfl, hw.symm⟩
  · refine (placeBlock_ends hinv he s).bind fun r hr => ?_
    obtain ⟨c₂, w⟩ := r
    obtain ⟨e₂, b, he₂, hi, hb, hw, hinv₂⟩ := hr
    rw [htag]
    have hinv₃ := hinv₂.updateRegionLRU p (g.getRtTag a)
    refine (assertConsistent_ends hinv₃ a).bind fun _ _ => ⟨hinv₃, ?_⟩
    refine ⟨e₂.allocateBlock (g.getBlockOffset a) s w, b, ?_, rfl, rfl, hi.symm, ?_, hw, ?_⟩
    · rw [findEntry_updateRegionLRU hinv₂.regions,
        findEntry_modifyRegion (touches_allocateBlock _ _ _).tag he₂, if_pos rfl]
    · rw [blockIn, theBlocks_updateRegionLRU, theBlocks_modifyRegion]
      exact hb
    · rw [RTEntry.allocateBlock]
      exact update_self _ _ _

/-! ### Results and regions -/

variable {r r' : RTLookupResult}

theorem Resolves.perm (hr : c.Resolves r) (h : c.Inv n) {i : ℕ} {l : BlockSet}
    (hl : l.Perm (c.theBlocks i)) : (c.setBlocks i l).Resolves r := by
  obtain ⟨e, b, he, hreg, hoff, hset, hb, hw, hway⟩ := hr
  refine ⟨e, b, he, hreg, hoff, hset, ?_, hw, hway⟩
  rw [blockIn_setBlocks]
  split
  · rename_i hi
    rw [BlockSet.findTag_perm (h.blocks i).tags_nodup hl, ← hi]
    exact hb
  · exact hb

theorem Resolves.updateRegionLRU (hr : c.Resolves r) (h : c.Inv n) (p : RTSet) (t : ℕ) :
    (c.updateRegionLRU p t).Resolves r := by
  obtain ⟨e, b, he, hreg, hoff, hset, hb, hw, hway⟩ := hr
  refine ⟨e, b, (findEntry_updateRegionLRU h.regions p t _).trans he, hreg, hoff, hset, ?_, hw,
    hway⟩
  rw [blockIn, theBlocks_updateRegionLRU]
  exact hb

/-- **`updateLRU`** keeps the invariant, and all results. -/
theorem updateLRU_spec (h : c.Inv n) (r : RTLookupResult) : (c.updateLRU r).Inv n ∧
    ∀ r', c.Resolves r' → (c.updateLRU r).Resolves r' := by
  have hinv := h.updateRegionLRU r.rtSet r.region
  have hperm : ((c.theBlocks r.blockSet).toTail r.block).Perm
      ((c.updateRegionLRU r.rtSet r.region).theBlocks r.blockSet) := by
    rw [theBlocks_updateRegionLRU]
    exact BlockSet.toTail_perm _ _
  exact ⟨hinv.perm hperm, fun r' hr' => (hr'.updateRegionLRU h _ _).perm hinv hperm⟩

/-- **A state change** keeps the invariant, and all results. -/
theorem updateState_spec (h : c.Inv n) (hr : c.Resolves r) (s : CoherenceState) (mru lru : Bool) :
    (c.updateState r s mru lru).Inv n ∧
      ∀ r', c.Resolves r' → (c.updateState r s mru lru).Resolves r' := by
  obtain ⟨e, b, he, hreg, hoff, hset, hb, hw, hway⟩ := hr
  have hplaced := h.blocks r.blockSet
  have hmem := BlockSet.mem_of_findTag hb
  have hbtag := BlockSet.tag_of_findTag hb
  have hfind := hplaced.findTag_changeBlockState hmem s
  have hinv := h.updateBlock he (touches_changeState _ s) (hset ▸ hplaced.changeBlockState b.way s)
    (fun u hu => .inl (by rw [← hset, hfind, if_neg (by rwa [hbtag])]))
    (by
      rw [← hset, hfind, if_pos hbtag.symm, RTEntry.changeState]
      dsimp only
      rw [update_self, ← hoff, hway, hw]
      exact ⟨rfl, fun _ => rfl⟩)
  rw [← hset, ← hreg, ← hoff, hw] at hinv
  -- the results are the same, as tags and ways have not changed
  have hkeep : ∀ r', c.Resolves r' → ((c.modifyRegion r.rtSet r.region fun e =>
      e.changeState r.offset s).setBlocks r.blockSet
        ((c.theBlocks r.blockSet).changeBlockState r.block s)).Resolves r' := by
    rintro r' ⟨e', b', he', hreg', hoff', hset', hb', hw', hway'⟩
    have hentry : ∃ x, (c.modifyRegion r.rtSet r.region fun e =>
        e.changeState r.offset s).findEntry r'.tagset = some (r'.rtSet, x) ∧ x.way = e'.way ∧
        x.ways = e'.ways := by
      rw [hreg, findEntry_modifyRegion (touches_changeState _ _).tag he]
      by_cases htags : g.getRtTag r'.tagset = g.getRtTag r.tagset
      · obtain ⟨hp, rfl⟩ := Prod.mk.inj (Option.some.inj
          (he'.symm.trans ((findEntry_congr htags).trans he)))
        exact ⟨e'.changeState r.offset s, (if_pos htags).trans (by rw [hp]), rfl, rfl⟩
      · exact ⟨e', (if_neg htags).trans he', rfl, rfl⟩
    obtain ⟨x, hx, hxway, hxways⟩ := hentry
    have hblock : ∃ y, ((c.modifyRegion r.rtSet r.region fun e =>
        e.changeState r.offset s).setBlocks r.blockSet
          ((c.theBlocks r.blockSet).changeBlockState r.block s)).blockIn r'.tagset r'.blockSet =
        some y ∧ y.way = b'.way := by
      rw [blockIn_setBlocks]
      split
      · rename_i hsame
        rw [← hw, hfind]
        by_cases hbb : g.getBlockTag r'.tagset = b.tag
        · refine ⟨_, if_pos hbb, ?_⟩
          rw [hsame, blockIn] at hb'
          have hbb' : b' = b := BlockSet.eq_of_tag_eq hplaced.tags_nodup
            (BlockSet.mem_of_findTag hb') hmem ((BlockSet.tag_of_findTag hb').trans hbb)
          rw [hbb']
        · rw [if_neg hbb, ← hsame]
          exact ⟨b', hb', rfl⟩
      · rw [blockIn, theBlocks_modifyRegion]
        exact ⟨b', hb', rfl⟩
    obtain ⟨y, hy, hyway⟩ := hblock
    exact ⟨x, y, hx, hreg', hoff', hxway ▸ hset', hy, hyway.trans hw', hxways ▸ hway'⟩
  rw [updateState, theBlocks_modifyRegion]
  split
  · obtain ⟨hinv', hkeep'⟩ := updateLRU_spec hinv r
    exact ⟨hinv', fun r' hr' => hkeep' r' (hkeep r' hr')⟩
  · split
    · have hperm := BlockSet.toHead_perm (((c.modifyRegion r.rtSet r.region fun e =>
        e.changeState r.offset s).setBlocks r.blockSet
          ((c.theBlocks r.blockSet).changeBlockState r.block s)).theBlocks r.blockSet) r.block
      exact ⟨hinv.perm hperm, fun r' hr' => (hkeep r' hr').perm hinv hperm⟩
    · exact ⟨hinv, hkeep⟩

/-- **A change of a region that is not about its blocks** keeps the invariant, and all results. -/
theorem modifyRegion_spec (h : c.Inv n) (he : c.findEntry t = some (p, e)) {f : RTEntry → RTEntry}
    (htag : ∀ e, (f e).tag = e.tag) (hway : ∀ e, (f e).way = e.way)
    (hstate : ∀ e, (f e).state = e.state) (hways : ∀ e, (f e).ways = e.ways) :
    (c.modifyRegion p (g.getRtTag t) f).Inv n ∧
      ∀ r', c.Resolves r' → (c.modifyRegion p (g.getRtTag t) f).Resolves r' := by
  have hentry : ∀ a q x, c.findEntry a = some (q, x) → ∃ y,
      (c.modifyRegion p (g.getRtTag t) f).findEntry a = some (q, y) ∧ y.way = x.way ∧
        y.state = x.state ∧ y.ways = x.ways := by
    intro a q x hx
    rw [findEntry_modifyRegion htag he]
    by_cases htags : g.getRtTag a = g.getRtTag t
    · obtain ⟨rfl, rfl⟩ := Prod.mk.inj (Option.some.inj
        (hx.symm.trans ((findEntry_congr htags).trans he)))
      exact ⟨f x, if_pos htags, hway x, hstate x, hways x⟩
    · exact ⟨x, (if_neg htags).trans hx, rfl, rfl, rfl⟩
  have hblock : ∀ a, (c.modifyRegion p (g.getRtTag t) f).blockIn a = c.blockIn a := fun a => by
    funext i
    rw [blockIn, theBlocks_modifyRegion, blockIn]
  refine ⟨⟨?_, (length_theERB_modifyRegion p _ f).trans_le h.erb_le, fun i => ?_, fun a => ?_⟩, ?_⟩
  · obtain ⟨hrva, herb⟩ := tags_modifyRegion (c := c) htag p (g.getRtTag t)
    rw [hrva, herb]
    exact h.regions
  · rw [theBlocks_modifyRegion]
    exact h.blocks i
  · have hslot : (c.modifyRegion p (g.getRtTag t) f).slot a = c.slot a := by
      cases ha : c.findEntry a with
      | none =>
        have hne : g.getRtTag a ≠ g.getRtTag t := fun hc => by
          rw [findEntry_congr hc, he] at ha
          cases ha
        rw [slot, slot, region, region, findEntry_modifyRegion htag he, if_neg hne]
      | some q =>
        obtain ⟨y, hy, hyw, hys, hyv⟩ := hentry a q.1 q.2 ha
        rw [slot_of_findEntry hy, slot_of_findEntry ha, hyw, hys, hyv]
    rw [Linked, hslot, hblock]
    exact h.linked a
  · rintro r' ⟨x, b, hx, hreg, hoff, hset, hb, hw, hv⟩
    obtain ⟨y, hy, hyw, -, hyv⟩ := hentry _ _ _ hx
    exact ⟨y, b, hy, hreg, hoff, hyw ▸ hset, by rw [hblock]; exact hb, hw, hyv ▸ hv⟩

theorem changeRegion_spec (h : c.Inv n) (t : ℕ) {f : RTEntry → RTEntry}
    (htag : ∀ e, (f e).tag = e.tag) (hway : ∀ e, (f e).way = e.way)
    (hstate : ∀ e, (f e).state = e.state) (hways : ∀ e, (f e).ways = e.ways) :
    (c.changeRegion t f).Inv n ∧ ∀ r', c.Resolves r' → (c.changeRegion t f).Resolves r' := by
  rw [changeRegion]
  split
  · exact ⟨h, fun _ hr' => hr'⟩
  · rename_i he
    exact modifyRegion_spec h he htag hway hstate hways

/-! ### Runs -/

/-- **The operations of a region tracker.** Those on a result are given the result. -/
inductive Op
  | lookup (tagset : ℕ)
  | allocate (tagset : ℕ) (newState : CoherenceState)
  | changeState (r : RTLookupResult) (newState : CoherenceState) (makeMRU makeLRU : Bool)
  | updateLRU (r : RTLookupResult)
  | updateOwner (r : Option RTLookupResult) (owner : ℤ) (tagset : ℕ) (isShared : Bool)
  | regionProbe (tagset : ℕ)
  | setNonSharedRegion (tagset : ℕ)
  | setPartialSharedRegion (tagset : ℕ)

/-- A region tracker, and the results that its callers may use: an allocation may erase the
entries that older results point at. -/
structure Session (g : RTGeometry) where
  cache : RTCache g
  results : List RTLookupResult

/-- **One operation.** -/
def Session.step (x : Session g) : Op → Except RTFault (Session g)
  | .lookup a => do
    let r ← x.cache.lookup a
    pure { x with results := r.toList ++ x.results }
  | .allocate a s => do
    let (c, r) ← x.cache.allocate a s
    pure ⟨c, [r]⟩
  | .changeState r s mru lru => .ok { x with cache := x.cache.updateState r s mru lru }
  | .updateLRU r => .ok { x with cache := x.cache.updateLRU r }
  | .updateOwner r owner a isShared =>
    .ok { x with cache := x.cache.updateOwner r owner a isShared }
  | .regionProbe a => .ok { x with cache := x.cache.regionProbe a }
  | .setNonSharedRegion a => .ok { x with cache := x.cache.setNonSharedRegion a }
  | .setPartialSharedRegion a => .ok { x with cache := x.cache.setPartialSharedRegion a }

/-- The operations are given results that may be used. -/
def Session.Allows (x : Session g) : Op → Prop
  | .changeState r _ _ _ => r ∈ x.results
  | .updateLRU r => r ∈ x.results
  | .updateOwner r _ _ _ => ∀ r', r = some r' → r' ∈ x.results
  | _ => True

/-- **The runs of a region tracker.** -/
def machine (g : RTGeometry) : Machine (Session g) Op RTFault where
  init := ⟨empty g, []⟩
  step := Session.step

/-- The invariant of a run. -/
structure Session.Sound (x : Session g) : Prop where
  inv : x.cache.Inv g.theERBSize
  resolves : ∀ r ∈ x.results, x.cache.Resolves r

theorem Session.Sound.keep {x : Session g} (h : x.Sound)
    (hc : c.Inv g.theERBSize ∧ ∀ r', x.cache.Resolves r' → c.Resolves r') :
    Session.Sound { x with cache := c } :=
  ⟨hc.1, fun r hr => hc.2 r (h.resolves r hr)⟩

/-- **One operation keeps the invariant**, and fails with tolerated assertions only. -/
theorem step_ends {x : Session g} (h : x.Sound) {op : Op} (hop : x.Allows op) :
    Ends (Tolerated g) (x.step op) Session.Sound := by
  cases op with
  | lookup a =>
    refine (lookup_ends h.inv a).bind fun r hr => ⟨h.inv, fun r' hr' => ?_⟩
    rcases mem_append.mp hr' with hr' | hr'
    · exact hr.2 r' (Option.mem_toList.mp hr')
    · exact h.resolves r' hr'
  | allocate a s =>
    refine (allocate_ends h.inv a s).bind fun r hr => ⟨hr.1, fun r' hr' => ?_⟩
    rw [mem_singleton.mp hr']
    exact hr.2
  | changeState r s mru lru => exact h.keep (updateState_spec h.inv (h.resolves r hop) s mru lru)
  | updateLRU r => exact h.keep (updateLRU_spec h.inv r)
  | updateOwner r owner a isShared =>
    cases r with
    | none => exact h.keep (changeRegion_spec h.inv a (fun _ => rfl) (fun _ => rfl)
        (fun _ => rfl) fun _ => rfl)
    | some r =>
      show Session.Sound { x with cache := x.cache.updateOwner (some r) owner a isShared }
      rw [updateOwner]
      split
      · exact h.keep (changeRegion_spec h.inv a (fun _ => rfl) (fun _ => rfl)
          (fun _ => rfl) fun _ => rfl)
      · rename_i htag
        obtain ⟨e, -, he, hreg, -⟩ := h.resolves r (hop r rfl)
        rw [hreg]
        exact h.keep (modifyRegion_spec h.inv he (fun _ => rfl) (fun _ => rfl)
          (fun _ => rfl) fun _ => rfl)
  | regionProbe a => exact h.keep (changeRegion_spec h.inv a (fun _ => rfl) (fun _ => rfl)
      (fun _ => rfl) fun _ => rfl)
  | setNonSharedRegion a => exact h.keep (changeRegion_spec h.inv a (fun _ => rfl) (fun _ => rfl)
      (fun _ => rfl) fun _ => rfl)
  | setPartialSharedRegion a =>
    show Session.Sound { x with cache := x.cache.setPartialSharedRegion a }
    rw [setPartialSharedRegion]
    split
    · exact h.keep (changeRegion_spec h.inv a (fun _ => rfl) (fun _ => rfl)
        (fun _ => rfl) fun _ => rfl)
    · exact h

/-- **The invariant holds in every run.** -/
theorem sound_of_reachable {x : Session g}
    (h : (machine g).ReachableWhen Session.Allows x) : x.Sound :=
  h.invariant ⟨inv_empty g _, fun _ hr => absurd hr not_mem_nil⟩
    fun _ _ _ hs hop hstep => (step_ends hs hop).of_ok hstep

/-- **The regions and the block table agree in every run without the skew**, no region is in the
array and in the buffer, and the buffer never holds more than its size. No assertion fails, but
for the replacement policy that is not supported, and for more ways than there are numbers. -/
theorem consistent_of_reachable (hskew : g.theSkewBlockSetIndex = false) {x : Session g}
    (h : (machine g).ReachableWhen Session.Allows x) :
    (∀ a, x.cache.isConsistent a = true) ∧
    (∀ i, ∀ e ∈ x.cache.theRVA i, ∀ d ∈ x.cache.theERB, e.tag ≠ d.tag) ∧
    x.cache.theERB.length ≤ g.theERBSize ∧
    ∀ op, x.Allows op → ∀ f, x.step op = .error f →
      f = .regionLRUNotSupported ∧ g.theReplPolicy = .regionLRU ∨
      f = .blockNotInserted ∧ 2 ^ 16 < g.theAssociativity := by
  have hsound := sound_of_reachable h
  have hinv := hsound.inv
  refine ⟨fun a => ?_, fun i e he d hd htag => ?_, hinv.erb_le, fun op hop f hf => ?_⟩
  · exact (isConsistent_iff_of_linked hinv.regions (hinv.linked a)).mpr fun _ e _ _ =>
      getBlockSet_way hskew a e.way
  · have hmem : e.tag ∈ x.cache.rvaTags i := mem_map.mpr ⟨e, he, rfl⟩
    refine hinv.regions.disjoint e.tag (mem_map.mpr ⟨d, hd, htag.symm⟩) ?_
    rw [(hinv.regions.rva_tag i _ hmem).2]
    exact hmem
  · have hf := (step_ends hsound hop).of_error hf
    cases f with
    | inconsistent =>
      have hs : g.theSkewBlockSetIndex = true := hf
      rw [hskew] at hs
      cases hs
    | regionLRUNotSupported => exact .inl ⟨rfl, hf⟩
    | blockNotInserted => exact .inr ⟨rfl, hf⟩
    | blockNotFound | wrongBlock | regionNotInserted | regionNotFound | noBlock => cases hf

/-- One set with one way, and a region of sixteen blocks. -/
def oneWay (policy : RTReplPolicy) : RTGeometry where
  blockShift := 6
  regionShift := 10
  theNumDataSets := 1
  theAssociativity := 1
  rtSetBits := 0
  theRTAssociativity := 1
  theERBSize := 1
  theSkewBlockSetIndex := false
  theReplPolicy := policy
  theBlockScout := false
  shift_le := by decide
  sets_pos := Nat.one_pos
  assoc_pos := Nat.one_pos
  rtAssoc_pos := Nat.one_pos
  erb_pos := Nat.one_pos

theorem reachable_of_allocations {g : RTGeometry} {ops : List Op} {x : Session g}
    (hx : (machine g).run ops = .ok x) (hops :
      (machine g).passes (fun _ op => op matches .allocate _ _) (machine g).init ops = true) :
    (machine g).ReachableWhen Session.Allows x := by
  refine Machine.reachableWhen_of_run (g := fun _ op => op matches .allocate _ _)
    (fun _ op hop => ?_) hops hx
  cases op with
  | allocate a s => trivial
  | _ => cases hop

/-- After an allocation the block is found, and everything is consistent. -/
theorem consistent_of_reachable_oneWay : ∃ x : Session (oneWay .setLRU),
    (machine (oneWay .setLRU)).run [.allocate 64 .modified, .allocate 2048 .shared] = .ok x ∧
      (∀ a, x.cache.isConsistent a = true) ∧ x.cache.theERB.length ≤ 1 := by
  obtain ⟨x, hx⟩ : ∃ x, (machine (oneWay .setLRU)).run
      [.allocate 64 .modified, .allocate 2048 .shared] = .ok x := ⟨_, rfl⟩
  obtain ⟨hc, -, hn, -⟩ := consistent_of_reachable rfl (reachable_of_allocations hx rfl)
  exact ⟨x, hx, hc, hn⟩

/-- **A second block of a set with one way** asks for a policy that is not supported. -/
theorem regionLRU_fails : ¬∀ g : RTGeometry, g.theSkewBlockSetIndex = false →
    ∀ x, (machine g).ReachableWhen Session.Allows x → ∀ op, x.Allows op →
      ∀ f, x.step op ≠ .error f := by
  intro h
  obtain ⟨x, hx⟩ : ∃ x, (machine (oneWay .regionLRU)).step (machine (oneWay .regionLRU)).init
      (.allocate 0 .shared) = .ok x := ⟨_, rfl⟩
  have hreach : (machine (oneWay .regionLRU)).ReachableWhen Session.Allows x :=
    Machine.ReachableWhen.init.step (e := .allocate 0 .shared) trivial hx
  refine h (oneWay .regionLRU) rfl x hreach (.allocate 64 .shared) trivial .regionLRUNotSupported ?_
  cases hx
  rfl

end RTCache

end Flexus
