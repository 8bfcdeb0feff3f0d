import Flexus.FastCache.RegionCheckpoint

/-!
# The skew of a region tracker

With the skew the set of a block depends on the way of its region: the way is moved to the bits
above those that select the region, and what of it falls on the bits of the number of a block in
its region is added to the index of the set (`RTCache::get_block_set`). A lookup and an allocation
take the way from the entry of the region, but `isConsistent` takes way 0. The set is the same one
for both if nothing of the way is left on these bits (`Flexus.RTGeometry.moved`); which of the bits
these are does not depend on the address.

So a valid block is found if and only if nothing is left of the way of its region. An allocation
asserts the same of the block it has allocated.
-/

namespace Flexus

namespace RTGeometry

variable {g : RTGeometry} {a w : ℕ}

/-- **What is left of a way** on the bits of the number of a block and of the index of a set. -/
def moved (g : RTGeometry) (w : ℕ) : ℕ :=
  (w <<< g.rtTopShift) &&& (g.theBlocksPerRegion - 1) &&& (g.theNumDataSets - 1)

/-- The bits of the way are apart from those of the address that it is joined with. -/
theorem testBit_getBlockSet (hskew : g.theSkewBlockSetIndex = true) (a w j : ℕ) :
    (g.getBlockSet a w).testBit j = ((g.getBlockSet a 0).testBit j ^^ (g.moved w).testBit j) := by
  simp only [getBlockSet, hskew, if_true, moved, Nat.testBit_and, Nat.testBit_xor, Nat.testBit_or,
    Nat.testBit_two_pow_sub_one, Nat.testBit_shiftLeft, Nat.zero_testBit, Bool.and_false,
    Bool.or_false]
  generalize (a >>> g.blockShift).testBit j = x, (a >>> g.blockTagShift).testBit j = t,
    w.testBit (j - g.rtTopShift) = b, (g.theBlocksPerRegion - 1).testBit j = o,
    (g.theNumDataSets - 1).testBit j = s
  by_cases hj : j < g.rtTopShift
  · rw [decide_eq_true hj, decide_eq_false (Nat.not_le.mpr hj)]
    revert x t b o s
    decide
  · rw [decide_eq_false hj, decide_eq_true (Nat.not_lt.mp hj)]
    revert x t b o s
    decide

/-- **The set for a way is the one for way 0** if and only if nothing is left of the way. -/
theorem getBlockSet_eq_iff (hskew : g.theSkewBlockSetIndex = true) :
    g.getBlockSet a w = g.getBlockSet a 0 ↔ g.moved w = 0 := by
  constructor
  · intro h
    refine Nat.eq_of_testBit_eq fun j => ?_
    have hbit := testBit_getBlockSet hskew a w j
    rw [h] at hbit
    rw [Nat.zero_testBit]
    exact (Bool.xor_right_inj.mp ((Bool.xor_false _).trans hbit)).symm
  · intro h
    refine Nat.eq_of_testBit_eq fun j => ?_
    rw [testBit_getBlockSet hskew, h, Nat.zero_testBit, Bool.xor_false]

end RTGeometry

open RTGeometry

namespace RTCache

variable {g : RTGeometry} {c c' : RTCache g} {a n : ℕ} {p : RTSet} {e : RTEntry}

/-- **A block is at home**: if it is valid in its region, nothing is left of the way of the
region. -/
def Home (c : RTCache g) (a : ℕ) : Prop :=
  ∀ p e, c.findEntry a = some (p, e) → e.state (g.getBlockOffset a) ≠ .invalid → g.moved e.way = 0

/-- **A lookup finds the block**, with the state that its region has recorded, and no assertion
fails. -/
def Finds (c : RTCache g) (a : ℕ) : Prop :=
  ∃ r, c.lookup a = .ok r ∧ c.getState r = c.stateOf a

theorem isConsistent_iff_home (hskew : g.theSkewBlockSetIndex = true) (h : c.Inv n) :
    c.isConsistent a = true ↔ c.Home a := by
  rw [isConsistent_iff_of_linked h.regions (h.linked a), Home]
  refine forall₄_congr fun p e _ _ => ?_
  exact getBlockSet_eq_iff hskew

theorem isConsistent_of_assert {u : Unit} (h : c.assertConsistent a = .ok u) :
    c.isConsistent a = true := by
  rw [assertConsistent] at h
  split at h
  · assumption
  · cases h

theorem isConsistent_of_lookup {r : Option RTLookupResult} (hr : c.lookup a = .ok r)
    (he : c.findEntry a = some (p, e)) (hv : e.state (g.getBlockOffset a) ≠ .invalid) :
    c.isConsistent a = true := by
  rw [lookup, he] at hr
  dsimp only at hr
  rw [if_pos (CoherenceState.isValid_iff.mpr hv)] at hr
  split at hr
  · cases hr
  · obtain ⟨u, hu, -⟩ := Lib.exists_of_bind_eq_ok hr
    exact isConsistent_of_assert hu

/-- **A lookup finds a block exactly if it is at home.** -/
theorem finds_iff (hskew : g.theSkewBlockSetIndex = true) (h : c.Inv n) : c.Finds a ↔ c.Home a := by
  constructor
  · rintro ⟨r, hr, -⟩ p e he hv
    exact (isConsistent_iff_home hskew h).mp (isConsistent_of_lookup hr he hv) p e he hv
  · intro hhome
    have hc := (isConsistent_iff_home hskew h).mpr hhome
    have hset := (isConsistent_iff_of_linked h.regions (h.linked a)).mp hc
    have hlook := lookup_eq_stateOf hc (fun i => (h.blocks i).ways_nodup) hset
    rcases hr : c.lookup a with f | r
    · rw [hr] at hlook
      cases hlook
    · rw [hr] at hlook
      exact ⟨r, hr, Except.ok.inj hlook⟩

/-! ### Runs -/

/-- **A lookup after any run with the skew** finds the block, with the state recorded for it, if and
only if the block is not valid or nothing is left of the way of its region. -/
theorem finds_iff_home (hskew : g.theSkewBlockSetIndex = true) {x : Session g}
    (h : (machine g).ReachableWhen Session.Allows x) (a : ℕ) : x.cache.Finds a ↔ x.cache.Home a :=
  finds_iff hskew (sound_of_reachable h).inv

/-- Two regions of sixteen blocks in a set, and as many sets of blocks. -/
def skewed : RTGeometry where
  blockShift := 6
  regionShift := 10
  theNumDataSets := 16
  theAssociativity := 1
  rtSetBits := 0
  theRTAssociativity := 2
  theERBSize := 1
  theSkewBlockSetIndex := true
  theReplPolicy := .setLRU
  theBlockScout := false
  shift_le := Nat.le_add_right 6 4
  sets_pos := by decide
  assoc_pos := Nat.one_pos
  rtAssoc_pos := Nat.two_pos
  erb_pos := Nat.one_pos

/-- A block of the first region is found. -/
theorem finds_iff_home_skewed : ∃ x : Session skewed,
    (machine skewed).run [.allocate 64 .modified] = .ok x ∧ x.cache.stateOf 64 = .modified ∧
      x.cache.Finds 64 := by
  obtain ⟨x, hx⟩ : ∃ x, (machine skewed).run [.allocate 64 .modified] = .ok x := ⟨_, rfl⟩
  have hreach := reachable_of_allocations hx rfl
  refine ⟨x, hx, ?_, (finds_iff_home rfl hreach 64).mpr ?_⟩
  · cases hx
    rfl
  · intro p e he _
    cases hx
    cases he
    rfl

/-- The first block of the second region, in the set to which way 1 leads. -/
def secondRegion : RTLookupResult where
  tagset := 1024
  rtSet := .rva 0
  region := 1024
  offset := 0
  blockSet := 1
  block := 0

/-- **A block of the second region is not found**: its entry is in the set for way 1, and the
assertion looks for it in the one for way 0. It is the assertion at which an allocation of the
block in a valid state stops. -/
theorem second_region_fails : (∃ x : Session skewed,
      (machine skewed).ReachableWhen Session.Allows x ∧ x.cache.stateOf 1024 = .shared ∧
      x.cache.lookup 1024 = .error .inconsistent) ∧
    (machine skewed).run [.allocate 0 .shared, .allocate 1024 .shared] = .error .inconsistent ∧
    ¬ ∀ g : RTGeometry, g.theSkewBlockSetIndex = true → ∀ x : Session g,
      (machine g).ReachableWhen Session.Allows x → ∀ a, x.cache.Finds a := by
  have hreach : ∃ x : Session skewed, (machine skewed).ReachableWhen Session.Allows x ∧
      x.cache.stateOf 1024 = .shared ∧ x.cache.lookup 1024 = .error .inconsistent := by
    obtain ⟨x, hx⟩ : ∃ x, (machine skewed).run
        [.allocate 0 .shared, .allocate 1024 .invalid] = .ok x := ⟨_, rfl⟩
    have hreach := reachable_of_allocations hx rfl
    have hmem : secondRegion ∈ x.results := by
      cases hx
      exact List.mem_singleton_self _
    refine ⟨_, hreach.step (e := .changeState secondRegion .shared false false) hmem rfl, ?_, ?_⟩
    · cases hx
      rfl
    · cases hx
      rfl
  refine ⟨hreach, rfl, fun h => ?_⟩
  obtain ⟨x, hx, -, hfail⟩ := hreach
  obtain ⟨r, hr, -⟩ := h skewed rfl x hx 1024
  cases hfail.symm.trans hr

end RTCache

end Flexus
