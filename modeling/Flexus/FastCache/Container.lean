import Flexus.FastCache.StdCache
import Flexus.Lib.Machine
import Flexus.Lib.UseOrder
import Mathlib.Data.List.Perm.Subperm

/-!
# The containers of the functional array

The container of a set has three indices, and two of them are unique: an entry is not inserted, and
an entry that has been modified is dropped, if there is another one of its tag or of its way. The
array never asks whether this has happened. Here the operations of `StdCache` are taken as they come
(`components/FastCache/StdCache.hpp`), on results of lookups as old as one likes, and with others of
them in between while an eviction is on its way.

A way is a number of 16 bits. If a set can get more entries than these tell apart
(`Flexus.Geometry.Narrow`), an entry is refused at last, and its lookup gives the entry of another
block; if not, the ways number the entries of a set, and the order of the container is that of
their last uses (`Flexus.Containers.sound_iff`).
-/

namespace Flexus

open List

namespace BlockSet

/-- `push_front`, unless there is an entry of the same tag or way. -/
def pushFront (l : BlockSet) (e : BlockEntry) : Option BlockSet :=
  if ∃ d ∈ l, d.tag = e.tag ∨ d.way = e.way then none else some (e :: l)

/-- The ways of the entries, in their order. -/
def ways (l : BlockSet) : List ℕ := l.map BlockEntry.way

end BlockSet

/-! ### The operations -/

/-- The containers of the sets, the results of the lookups so far, and the allocations that wait for
an eviction, the innermost one first; further, the uses of each set, the last one first, and the
number of insertions that have been refused. -/
structure Containers (g : Geometry) where
  theBlocks : ℕ → BlockSet := fun _ => []
  results : List (LookupResult g) := []
  allocating : List (LookupResult g × CoherenceState) := []
  uses : ℕ → List (Lib.Use ℕ) := fun _ => []
  refused : ℕ := 0

/-- The operations, on a result named by the number of its lookup: and the end of the eviction that
the innermost allocation waits for. -/
inductive ArrayOperation
  | lookup (tagset : BitVec 64)
  | allocate (n : ℕ) (new_state : CoherenceState)
  | evicted
  | changeState (n : ℕ) (new_state : CoherenceState) (make_MRU make_LRU : Bool)
  | updateLRU (n : ℕ)
  deriving DecidableEq

namespace Containers

variable {g : Geometry} (s : Containers g)

/-- The set of a result is exchanged, after a use of its entry. -/
def exchange (r : LookupResult g) (l : BlockSet) (uses : List (Lib.Use ℕ)) : Containers g :=
  { s with
    theBlocks := Function.update s.theBlocks r.theSet l
    uses := Function.update s.uses r.theSet (uses ++ s.uses r.theSet) }

/-- `update_lru`. -/
def update_lru (r : LookupResult g) : Containers g :=
  s.exchange r ((s.theBlocks r.theSet).toTail r.theBlock) [.back r.theBlock]

/-- `make_block_lru`. -/
def make_block_lru (r : LookupResult g) : Containers g :=
  s.exchange r ((s.theBlocks r.theSet).toHead r.theBlock) [.front r.theBlock]

/-- `modify` with `ChangeBlockState`. -/
def changeBlockState (r : LookupResult g) (new_state : CoherenceState) : Containers g :=
  s.exchange r ((s.theBlocks r.theSet).changeBlockState r.theBlock new_state) []

/-- **`updateState`**. -/
def updateState (r : LookupResult g) (new_state : CoherenceState) (make_MRU make_LRU : Bool) :
    Containers g :=
  let s := s.changeBlockState r new_state
  if make_MRU then s.update_lru r else if make_LRU then s.make_block_lru r else s

/-- `modify` with `ReplaceBlock`. If another entry has the tag, the entry is dropped, and what is
then relocated is not there. -/
def replaceBlock (r : LookupResult g) (new_state : CoherenceState) :
    Except Fault (Containers g) :=
  if ∃ d ∈ s.theBlocks r.theSet, d.tag = r.theAddress ∧ d.way ≠ r.theBlock then
    .error .danglingBlock
  else
    .ok ((s.exchange r
      ((s.theBlocks r.theSet).replaceBlock r.theBlock r.theAddress new_state) []).update_lru r)

/-- **`allocate`**, up to the eviction of a valid block. -/
def allocate (r : LookupResult g) (new_state : CoherenceState) : Except Fault (Containers g) :=
  match (s.theBlocks r.theSet).atWay r.theBlock with
  | none => .error .danglingBlock
  | some block =>
    if block.tag ≠ r.theAddress then
      if block.state.isValid then .ok { s with allocating := (r, new_state) :: s.allocating }
      else s.replaceBlock r new_state
    else .ok ((s.changeBlockState r new_state).update_lru r)

/-- The result of a lookup. -/
def resultOf (a : ℕ) : LookupResult g :=
  let l := s.theBlocks (g.getSet a)
  let result (state : CoherenceState) (block : ℕ) : LookupResult g :=
    ⟨g.getTag a, state, g.getSet a, block, g.getTag_getTag a, g.getSet_getTag a⟩
  match l.findTag (g.getTag a) with
  | some e => result e.state e.way
  | none =>
    -- if the entry of this way is refused, the iterator is the one of the entry that has it
    if l.length < g.theAssoc then result .invalid (l.length % 2 ^ 16)
    else result .invalid ((l.head?.map BlockEntry.way).getD 0)

/-- **`lookup`**. -/
def lookup (a : ℕ) : Containers g :=
  let r := s.resultOf a
  let l := s.theBlocks r.theSet
  let s := { s with results := s.results ++ [r] }
  match l.findTag (g.getTag a) with
  | some _ => s
  | none =>
    if l.length < g.theAssoc then
      match l.pushFront ⟨g.getTag a, .invalid, l.length % 2 ^ 16⟩ with
      | some l => s.exchange r l [.front r.theBlock]
      | none => { s with refused := s.refused + 1 }
    else s

/-- **A step.** -/
def step : ArrayOperation → Except Fault (Containers g)
  | .lookup tagset => .ok (s.lookup tagset.toNat)
  | .allocate n new_state =>
    match s.results[n]? with
    | some r => s.allocate r new_state
    | none => .ok s
  | .evicted =>
    match s.allocating with
    | (r, new_state) :: rest => { s with allocating := rest }.replaceBlock r new_state
    | [] => .ok s
  | .changeState n new_state make_MRU make_LRU =>
    match s.results[n]? with
    | some r => .ok (s.updateState r new_state make_MRU make_LRU)
    | none => .ok s
  | .updateLRU n =>
    match s.results[n]? with
    | some r => .ok (s.update_lru r)
    | none => .ok s

end Containers

/-- **The array**, empty at first. -/
def containers (g : Geometry) : Lib.Machine (Containers g) ArrayOperation Fault where
  init := {}
  step := Containers.step

/-! ### What is asked of it -/

/-- **Ways can be told apart**: there are not more of them than 16 bits number, or not more blocks
for a set. -/
def Geometry.Narrow (g : Geometry) : Prop :=
  g.theAssoc ≤ 2 ^ 16 ∨ 48 ≤ g.blockShift + g.setBits

namespace Containers

variable {g : Geometry} (s : Containers g)

/-- No other entry has got the block of a result since its lookup. -/
def Current (r : LookupResult g) : Prop :=
  ∀ d ∈ s.theBlocks r.theSet, d.tag = r.theAddress → d.way = r.theBlock

/-- An allocation has a valid block evicted first. -/
def evicts (r : LookupResult g) : Bool :=
  match (s.theBlocks r.theSet).atWay r.theBlock with
  | some block => block.tag ≠ r.theAddress && block.state.isValid
  | none => false

/-- **A result is up to date** when an entry is given to its block. -/
def Timely : ArrayOperation → Prop
  | .allocate n _ => ∀ r ∈ s.results[n]?, s.evicts r = false → s.Current r
  | .evicted => ∀ p ∈ s.allocating.head?, s.Current p.1
  | _ => True

/-- **The sets are sound**: no set has more entries than its ways; their tags are distinct, the ways
number them, and each of them is of a block of the set; no entry has been refused; and they are in
the order of their uses, so that what a miss in a full set is given is the entry at its front. -/
structure Sound : Prop where
  length_le : ∀ i, (s.theBlocks i).length ≤ g.theAssoc
  tags : ∀ i, ((s.theBlocks i).map BlockEntry.tag).Nodup
  ways : ∀ i, (s.theBlocks i).ways.Perm (List.range (s.theBlocks i).length)
  home : ∀ i, ∀ e ∈ s.theBlocks i, g.getSet e.tag = i
  refused : s.refused = 0
  order : ∀ i, (s.theBlocks i).ways = Lib.order (s.uses i)
  victim : ∀ a, (s.theBlocks (g.getSet a)).findTag (g.getTag a) = none →
    g.theAssoc ≤ (s.theBlocks (g.getSet a)).length →
      (Lib.order (s.uses (g.getSet a))).head? = some (s.resultOf a).theBlock

end Containers

/-! ### A set and its uses -/

/-- **The invariant of a set**: it is well formed, its order is that of its uses, and its blocks have
addresses of 64 bits. -/
structure BlockSet.Ordered (g : Geometry) (i : ℕ) (l : BlockSet) (uses : List (Lib.Use ℕ)) :
    Prop where
  wf : l.WF g i
  order : l.ways = Lib.order uses
  tag_lt : ∀ e ∈ l, e.tag < 2 ^ 64

namespace BlockSet

variable {g : Geometry} {i w t : ℕ} {l : BlockSet} {uses : List (Lib.Use ℕ)} {z : CoherenceState}

theorem exists_of_mem_ways (h : w ∈ l.ways) : ∃ e ∈ l, e.way = w := mem_map.mp h

theorem atWay_of_mem_ways (h : l.WF g i) (hw : w ∈ l.ways) :
    ∃ e ∈ l, e.way = w ∧ l.atWay w = some e := by
  obtain ⟨e, he, rfl⟩ := exists_of_mem_ways hw
  exact ⟨e, he, rfl, atWay_of_mem h.ways_nodup he⟩

/-- **The ways number the entries.** -/
theorem WF.ways_perm (h : l.WF g i) : l.ways.Perm (List.range l.length) := by
  have hlen : l.ways.length = (List.range l.length).length := by
    rw [ways, length_map, length_range]
  refine (subperm_of_subset h.ways_nodup fun w hw => ?_).perm_of_length_le
    (Nat.le_of_eq hlen.symm)
  obtain ⟨e, he, rfl⟩ := exists_of_mem_ways hw
  exact mem_range.mpr (h.way_lt e he)

theorem ways_changeBlockState : (l.changeBlockState w z).ways = l.ways :=
  map_changeBlockState _ (fun _ _ => rfl) l w z

theorem ways_replaceBlock : (l.replaceBlock w t z).ways = l.ways := by
  rw [ways, replaceBlock, map_map]
  refine map_congr_left fun d _ => ?_
  rw [Function.comp_apply]
  split <;> rfl

theorem ways_filter_eq (h : l.WF g i) (hw : w ∈ l.ways) :
    ways (l.filter fun e => e.way = w) = [w] := by
  have hmap : ways (l.filter fun e => e.way = w) = l.ways.filter fun v => v = w := by
    rw [ways, ways, filter_map]
    rfl
  have hnodup : l.ways.Nodup := h.ways_nodup
  rw [hmap, filter_eq, count_eq_one_of_mem hnodup hw]
  rfl

theorem ways_filter_ne : ways (l.filter fun e => e.way ≠ w) = l.ways.filter fun v => v ≠ w := by
  rw [ways, ways, filter_map]
  rfl

/-- **An entry becomes the most recently used.** -/
theorem Ordered.toTail (h : Ordered g i l uses) (hw : w ∈ l.ways) :
    Ordered g i (l.toTail w) (.back w :: uses) where
  wf := h.wf.perm (toTail_perm l w)
  order := by
    have hmap : (l.toTail w).ways =
        ways (l.filter fun e => e.way ≠ w) ++ ways (l.filter fun e => e.way = w) :=
      map_append
    rw [hmap, ways_filter_eq h.wf hw, ways_filter_ne, h.order]
    rfl
  tag_lt e he := h.tag_lt e ((toTail_perm l w).subset he)

/-- **An entry becomes the least recently used.** -/
theorem Ordered.toHead (h : Ordered g i l uses) (hw : w ∈ l.ways) :
    Ordered g i (l.toHead w) (.front w :: uses) where
  wf := h.wf.perm (toHead_perm l w)
  order := by
    have hmap : (l.toHead w).ways =
        ways (l.filter fun e => e.way = w) ++ ways (l.filter fun e => e.way ≠ w) :=
      map_append
    rw [hmap, ways_filter_eq h.wf hw, ways_filter_ne, h.order]
    rfl
  tag_lt e he := h.tag_lt e ((toHead_perm l w).subset he)

theorem Ordered.changeBlockState (h : Ordered g i l uses) :
    Ordered g i (l.changeBlockState w z) uses where
  wf := h.wf.changeBlockState w z
  order := ways_changeBlockState.trans h.order
  tag_lt e he := by
    obtain ⟨d, hd, rfl⟩ := mem_map.mp he
    have hlt := h.tag_lt d hd
    split <;> exact hlt

theorem replaceBlock_of_tag (h : l.WF g i) {e : BlockEntry} (he : e ∈ l) :
    l.replaceBlock e.way e.tag z = l.changeBlockState e.way z := by
  refine map_congr_left fun d hd => ?_
  by_cases hw : d.way = e.way
  · rw [if_pos hw, if_pos hw, eq_of_way_eq h.ways_nodup hd he hw]
  · rw [if_neg hw, if_neg hw]

/-- **An entry gets another block**, if no other entry has it. -/
theorem Ordered.replaceBlock (h : Ordered g i l uses) (hw : w ∈ l.ways)
    (hcur : ∀ d ∈ l, d.tag = t → d.way = w) (ht : g.getTag t = t) (hi : g.getSet t = i)
    (hlt : t < 2 ^ 64) : Ordered g i (l.replaceBlock w t z) uses := by
  obtain ⟨e, he, rfl⟩ := exists_of_mem_ways hw
  by_cases het : e.tag = t
  · rw [← het, replaceBlock_of_tag h.wf he]
    exact h.changeBlockState
  · have hfresh : ∀ d ∈ l, d.tag ≠ t := by
      intro d hd hdt
      rw [eq_of_way_eq h.wf.ways_nodup hd he (hcur d hd hdt)] at hdt
      exact het hdt
    refine ⟨h.wf.replaceBlock hfresh ht hi e.way z, ways_replaceBlock.trans h.order, ?_⟩
    intro d hd
    obtain ⟨d', hd', rfl⟩ := mem_map.mp hd
    have hlt' := h.tag_lt d' hd'
    split
    · exact hlt
    · exact hlt'

theorem Ordered.pushFront (h : Ordered g i l uses) (hl : l.length < g.theAssoc)
    (hn : l.length < 2 ^ 16) (hfresh : ∀ d ∈ l, d.tag ≠ t) (ht : g.getTag t = t)
    (hi : g.getSet t = i) (hlt : t < 2 ^ 64) :
    l.pushFront ⟨t, .invalid, l.length % 2 ^ 16⟩ = some (⟨t, .invalid, l.length⟩ :: l) ∧
      Ordered g i (⟨t, .invalid, l.length⟩ :: l) (.front l.length :: uses) := by
  have hnew : ∀ v ∈ l.ways, v ≠ l.length := by
    intro v hv
    obtain ⟨d, hd, rfl⟩ := exists_of_mem_ways hv
    exact Nat.ne_of_lt (h.wf.way_lt d hd)
  rw [Nat.mod_eq_of_lt hn]
  refine ⟨if_neg ?_, h.wf.pushFront hl hfresh ht hi, ?_, ?_⟩
  · rintro ⟨d, hd, hdt | hdw⟩
    · exact hfresh d hd hdt
    · exact hnew d.way (mem_map_of_mem hd) hdw
  · rw [Lib.order, Lib.place, ← h.order, filter_eq_self.mpr]
    · rfl
    · exact fun v hv => decide_eq_true (hnew v hv)
  · intro e he
    rcases mem_cons.mp he with rfl | he
    · exact hlt
    · exact h.tag_lt e he

end BlockSet

/-! ### The invariant -/

namespace Containers

variable {g : Geometry}

/-- The entry of a result is there. -/
def Points (s : Containers g) (r : LookupResult g) : Prop :=
  r.theBlock ∈ (s.theBlocks r.theSet).ways ∧ r.theAddress < 2 ^ 64

/-- **The invariant**: every set is in the order of its uses, and entries do not go away. -/
structure Inv (s : Containers g) : Prop where
  ordered : ∀ i, (s.theBlocks i).Ordered g i (s.uses i)
  results : ∀ r ∈ s.results, s.Points r
  allocating : ∀ p ∈ s.allocating, s.Points p.1
  refused : s.refused = 0

variable {s s' : Containers g} {r r' : LookupResult g} {l : BlockSet} {us : List (Lib.Use ℕ)}
  {z : CoherenceState} {a : ℕ}

theorem theBlocks_exchange :
    (s.exchange r l us).theBlocks = Function.update s.theBlocks r.theSet l :=
  rfl

theorem uses_exchange :
    (s.exchange r l us).uses = Function.update s.uses r.theSet (us ++ s.uses r.theSet) :=
  rfl

theorem Points.exchange (h : s.Points r') (hw : (s.theBlocks r.theSet).ways ⊆ l.ways) :
    (s.exchange r l us).Points r' := by
  refine ⟨?_, h.2⟩
  rw [theBlocks_exchange]
  by_cases hset : r'.theSet = r.theSet
  · have h1 := h.1
    rw [hset] at h1 ⊢
    rw [Function.update_self]
    exact hw h1
  · rw [Function.update_of_ne hset]
    exact h.1

theorem Inv.exchange (h : s.Inv) (hw : (s.theBlocks r.theSet).ways ⊆ l.ways)
    (hl : l.Ordered g r.theSet (us ++ s.uses r.theSet)) : (s.exchange r l us).Inv where
  ordered i := by
    rw [theBlocks_exchange, uses_exchange]
    by_cases hi : i = r.theSet
    · subst hi
      rw [Function.update_self, Function.update_self]
      exact hl
    · rw [Function.update_of_ne hi, Function.update_of_ne hi]
      exact h.ordered i
  results r' hr' := (h.results r' hr').exchange hw
  allocating p hp := (h.allocating p hp).exchange hw
  refused := h.refused

theorem ways_subset_of_perm {l l' : BlockSet} (h : l'.Perm l) : l.ways ⊆ l'.ways :=
  (h.symm.map BlockEntry.way).subset

theorem Inv.update_lru (h : s.Inv) (hr : s.Points r) : (s.update_lru r).Inv :=
  h.exchange (ways_subset_of_perm (BlockSet.toTail_perm _ _)) ((h.ordered r.theSet).toTail hr.1)

theorem Inv.make_block_lru (h : s.Inv) (hr : s.Points r) : (s.make_block_lru r).Inv :=
  h.exchange (ways_subset_of_perm (BlockSet.toHead_perm _ _)) ((h.ordered r.theSet).toHead hr.1)

theorem Inv.changeBlockState (h : s.Inv) : (s.changeBlockState r z).Inv :=
  h.exchange (fun _ hv => BlockSet.ways_changeBlockState.symm ▸ hv)
    (h.ordered r.theSet).changeBlockState

theorem Points.changeBlockState (h : s.Points r') : (s.changeBlockState r z).Points r' :=
  h.exchange fun _ hv => BlockSet.ways_changeBlockState.symm ▸ hv

theorem Inv.updateState (h : s.Inv) (hr : s.Points r) (make_MRU make_LRU : Bool) :
    (s.updateState r z make_MRU make_LRU).Inv := by
  rw [Containers.updateState]
  split
  · exact h.changeBlockState.update_lru hr.changeBlockState
  · split
    · exact h.changeBlockState.make_block_lru hr.changeBlockState
    · exact h.changeBlockState

/-- **An entry that is replaced** is not dropped, as long as no other entry has the block. -/
theorem Inv.replaceBlock (h : s.Inv) (hr : s.Points r) (hcur : s.Current r) :
    ∃ s', s.replaceBlock r z = .ok s' ∧ s'.Inv := by
  have hways : (s.theBlocks r.theSet).ways ⊆
      ((s.theBlocks r.theSet).replaceBlock r.theBlock r.theAddress z).ways :=
    fun _ hv => BlockSet.ways_replaceBlock.symm ▸ hv
  refine ⟨_, if_neg ?_, (h.exchange hways ?_).update_lru (hr.exchange hways)⟩
  · rintro ⟨d, hd, hdt, hdw⟩
    exact hdw (hcur d hd hdt)
  · exact (h.ordered r.theSet).replaceBlock hr.1 hcur r.isTag r.isHome hr.2

theorem replaceBlock_of_not_current (hcur : ¬ s.Current r) :
    s.replaceBlock r z = .error .danglingBlock := by
  refine if_pos ?_
  by_contra hno
  exact hcur fun d hd hdt => by
    by_contra hdw
    exact hno ⟨d, hd, hdt, hdw⟩

/-- **What an allocation leads to.** -/
theorem Inv.allocate (h : s.Inv) (hr : s.Points r) :
    ((s.evicts r = false → s.Current r) ∧ ∃ s', s.allocate r z = .ok s' ∧ s'.Inv) ∨
      (¬ (s.evicts r = false → s.Current r) ∧ s.allocate r z = .error .danglingBlock) := by
  obtain ⟨e, he, hew, hat⟩ := BlockSet.atWay_of_mem_ways (h.ordered r.theSet).wf hr.1
  rw [Containers.allocate, hat]
  by_cases ht : e.tag = r.theAddress
  · -- no other entry has the tag
    refine .inl ⟨fun _ d hd hdt => ?_, _, if_neg (not_not.mpr ht), ?_⟩
    · rw [BlockSet.eq_of_tag_eq (h.ordered r.theSet).wf.tags_nodup hd he (hdt.trans ht.symm), hew]
    · exact h.changeBlockState.update_lru hr.changeBlockState
  have hevicts : s.evicts r = e.state.isValid := by
    rw [evicts, hat]
    simp only [ne_eq, ht, not_false_eq_true, decide_true, Bool.true_and]
  rcases hv : e.state.isValid with _ | _
  · simp only [ne_eq, ht, not_false_eq_true, if_true, hv, Bool.false_eq_true, if_false]
    by_cases hcur : s.Current r
    · exact .inl ⟨fun _ => hcur, h.replaceBlock hr hcur⟩
    · exact .inr ⟨fun hc => hcur (hc (hevicts.trans hv)), replaceBlock_of_not_current hcur⟩
  · refine .inl ⟨fun hc => absurd (hc.symm.trans (hevicts.trans hv)) Bool.false_ne_true, _,
      (if_pos ht).trans (if_pos hv), h.ordered, h.results, ?_, h.refused⟩
    intro p hp
    rcases mem_cons.mp hp with rfl | hp
    · exact hr
    · exact h.allocating p hp

/-! ### Lookups -/

/-- A new entry has a way that is not taken. -/
def HasWay (s : Containers g) (a : ℕ) : Prop :=
  (s.theBlocks (g.getSet a)).findTag (g.getTag a) = none →
    (s.theBlocks (g.getSet a)).length < g.theAssoc →
      (s.theBlocks (g.getSet a)).length < 2 ^ 16

theorem getTag_lt (ha : a < 2 ^ 64) : g.getTag a < 2 ^ 64 :=
  Nat.lt_of_le_of_lt (Nat.div_mul_le_self _ _) ha

theorem Inv.append_result (h : s.Inv) (hr : s.Points r) :
    Inv { s with results := s.results ++ [r] } := by
  refine ⟨h.ordered, fun r' hr' => ?_, h.allocating, h.refused⟩
  rcases mem_append.mp hr' with hr' | hr'
  · exact h.results r' hr'
  · obtain rfl := mem_singleton.mp hr'
    exact hr

theorem forall_tag_ne_of_findTag {t : ℕ} (h : l.findTag t = none) : ∀ d ∈ l, d.tag ≠ t := by
  simpa [BlockSet.findTag] using h

theorem lookup_of_some {e : BlockEntry}
    (he : (s.theBlocks (g.getSet a)).findTag (g.getTag a) = some e) :
    s.resultOf a =
        ⟨g.getTag a, e.state, g.getSet a, e.way, g.getTag_getTag a, g.getSet_getTag a⟩ ∧
      s.lookup a = { s with results := s.results ++ [s.resultOf a] } := by
  have hr : s.resultOf a =
      ⟨g.getTag a, e.state, g.getSet a, e.way, g.getTag_getTag a, g.getSet_getTag a⟩ := by
    rw [resultOf]
    simp only [he]
  refine ⟨hr, ?_⟩
  rw [lookup, hr]
  simp only [he]

/-- The lookup of a block that has none, when there is no room. -/
theorem lookup_of_full (he : (s.theBlocks (g.getSet a)).findTag (g.getTag a) = none)
    (hfull : g.theAssoc ≤ (s.theBlocks (g.getSet a)).length) :
    s.resultOf a = ⟨g.getTag a, .invalid, g.getSet a,
        ((s.theBlocks (g.getSet a)).head?.map BlockEntry.way).getD 0, g.getTag_getTag a,
        g.getSet_getTag a⟩ ∧
      s.lookup a = { s with results := s.results ++ [s.resultOf a] } := by
  have hr : s.resultOf a = ⟨g.getTag a, .invalid, g.getSet a,
      ((s.theBlocks (g.getSet a)).head?.map BlockEntry.way).getD 0, g.getTag_getTag a,
      g.getSet_getTag a⟩ := by
    rw [resultOf]
    simp only [he, if_neg (Nat.not_lt.mpr hfull)]
  refine ⟨hr, ?_⟩
  rw [lookup, hr]
  simp only [he, if_neg (Nat.not_lt.mpr hfull)]

/-- The lookup of a block that has none, when there is room: the container takes the new entry, or
refuses it. -/
theorem lookup_of_room (he : (s.theBlocks (g.getSet a)).findTag (g.getTag a) = none)
    (hroom : (s.theBlocks (g.getSet a)).length < g.theAssoc) :
    s.resultOf a = ⟨g.getTag a, .invalid, g.getSet a,
        (s.theBlocks (g.getSet a)).length % 2 ^ 16, g.getTag_getTag a, g.getSet_getTag a⟩ ∧
      s.lookup a = match (s.theBlocks (g.getSet a)).pushFront
          ⟨g.getTag a, .invalid, (s.theBlocks (g.getSet a)).length % 2 ^ 16⟩ with
        | some l => { s.exchange (s.resultOf a) l [.front (s.resultOf a).theBlock] with
            results := s.results ++ [s.resultOf a] }
        | none => { s with
            results := s.results ++ [s.resultOf a]
            refused := s.refused + 1 } := by
  have hr : s.resultOf a = ⟨g.getTag a, .invalid, g.getSet a,
      (s.theBlocks (g.getSet a)).length % 2 ^ 16, g.getTag_getTag a, g.getSet_getTag a⟩ := by
    rw [resultOf]
    simp only [he, if_pos hroom]
  refine ⟨hr, ?_⟩
  rw [lookup, hr]
  simp only [he, if_pos hroom]
  rfl

theorem Inv.lookup_of_way (h : s.Inv) (ha : a < 2 ^ 64)
    (he : (s.theBlocks (g.getSet a)).findTag (g.getTag a) = none)
    (hroom : (s.theBlocks (g.getSet a)).length < g.theAssoc)
    (hn : (s.theBlocks (g.getSet a)).length < 2 ^ 16) :
    ∃ s' : Containers g, s'.Inv ∧ s'.theBlocks = Function.update s.theBlocks (g.getSet a)
        (⟨g.getTag a, .invalid, (s.theBlocks (g.getSet a)).length⟩ :: s.theBlocks (g.getSet a)) ∧
      s'.Points (s.resultOf a) ∧
      s.lookup a = { s' with results := s'.results ++ [s.resultOf a] } := by
  obtain ⟨hr, hlook⟩ := lookup_of_room he hroom
  obtain ⟨hpush, hord⟩ := (h.ordered (g.getSet a)).pushFront hroom hn (forall_tag_ne_of_findTag he)
    (g.getTag_getTag a) (g.getSet_getTag a) (getTag_lt ha)
  rw [hlook, hpush, hr, Nat.mod_eq_of_lt hn]
  have hsub : (s.theBlocks (g.getSet a)).ways ⊆ BlockSet.ways
      (⟨g.getTag a, .invalid, (s.theBlocks (g.getSet a)).length⟩ :: s.theBlocks (g.getSet a)) :=
    fun _ hv => mem_cons_of_mem _ hv
  refine ⟨_, h.exchange hsub hord, rfl, ⟨?_, getTag_lt ha⟩, rfl⟩
  rw [theBlocks_exchange, Function.update_self]
  exact mem_cons_self

/-- **A lookup** leaves an entry for its result. -/
theorem Inv.lookup (h : s.Inv) (ha : a < 2 ^ 64) (hway : s.HasWay a) : (s.lookup a).Inv := by
  rcases he : (s.theBlocks (g.getSet a)).findTag (g.getTag a) with _ | e
  · rcases Nat.lt_or_ge (s.theBlocks (g.getSet a)).length g.theAssoc with hroom | hfull
    · obtain ⟨s', hinv, -, hpoints, hlook⟩ := h.lookup_of_way ha he hroom (hway he hroom)
      rw [hlook]
      exact hinv.append_result hpoints
    · obtain ⟨hr, hlook⟩ := lookup_of_full he hfull
      rw [hlook]
      refine h.append_result ?_
      rw [hr]
      refine ⟨?_, getTag_lt ha⟩
      obtain ⟨e, l, hel⟩ : ∃ e l, s.theBlocks (g.getSet a) = e :: l := by
        refine exists_cons_of_ne_nil fun hc => ?_
        rw [hc] at hfull
        exact absurd g.assoc_pos (Nat.not_lt.mpr hfull)
      rw [hel]
      exact mem_cons_self
  · obtain ⟨hr, hlook⟩ := lookup_of_some he
    rw [hlook]
    refine h.append_result ?_
    rw [hr]
    exact ⟨mem_map_of_mem (mem_of_find?_eq_some he), getTag_lt ha⟩

/-! ### The array of well-formed sets -/

/-- The array that the containers make up, as long as the invariant holds. -/
def Inv.toStdCache (h : s.Inv) : StdCache g := ⟨s.theBlocks, fun i => (h.ordered i).wf⟩

/-- **A lookup is one of that array**, if its entry finds a way. -/
theorem Inv.toStdCache_lookup (h : s.Inv) (ha : a < 2 ^ 64) (hway : s.HasWay a) :
    (h.toStdCache.lookup a).2 = s.resultOf a ∧
      (h.toStdCache.lookup a).1.theBlocks = (s.lookup a).theBlocks := by
  rcases he : (s.theBlocks (g.getSet a)).findTag (g.getTag a) with _ | e
  · rcases Nat.lt_or_ge (s.theBlocks (g.getSet a)).length g.theAssoc with hroom | hfull
    · have hn := hway he hroom
      obtain ⟨s', -, hblocks, -, hlook⟩ := h.lookup_of_way ha he hroom hn
      rw [hlook, hblocks, (lookup_of_room he hroom).1, StdCache.lookup]
      split
      · rename_i d hd
        cases he.symm.trans hd
      · rw [dif_pos (show (h.toStdCache.theBlocks (g.getSet a)).length < g.theAssoc from hroom)]
        refine ⟨?_, rfl⟩
        simp only [Nat.mod_eq_of_lt hn]
        rfl
    · obtain ⟨hr, hlook⟩ := lookup_of_full he hfull
      rw [hlook, hr, StdCache.lookup]
      split
      · rename_i d hd
        cases he.symm.trans hd
      · rw [dif_neg (show ¬ (h.toStdCache.theBlocks (g.getSet a)).length < g.theAssoc from
          Nat.not_lt.mpr hfull)]
        exact ⟨rfl, rfl⟩
  · obtain ⟨hr, hlook⟩ := lookup_of_some he
    rw [hlook, hr, StdCache.lookup]
    split
    · rename_i d hd
      obtain rfl : e = d := Option.some.inj (he.symm.trans hd)
      exact ⟨rfl, rfl⟩
    · rename_i hd
      cases he.symm.trans hd

/-! ### Steps -/

/-- A lookup finds a way for its entry. -/
def Numbers (s : Containers g) : ArrayOperation → Prop
  | .lookup tagset => s.HasWay tagset.toNat
  | _ => True

/-- **What a step leads to**: it goes well if and only if the result it needs is up to date. -/
theorem Inv.step (h : s.Inv) {e : ArrayOperation} (hn : s.Numbers e) :
    (s.Timely e ∧ ∃ s', s.step e = .ok s' ∧ s'.Inv) ∨
      (¬ s.Timely e ∧ s.step e = .error .danglingBlock) := by
  rcases e with tagset | ⟨n, z⟩ | _ | ⟨n, z, mru, lru⟩ | n
  · exact .inl ⟨trivial, _, rfl, h.lookup tagset.isLt hn⟩
  · rw [Containers.step, Timely]
    rcases hr : s.results[n]? with _ | r
    · exact .inl ⟨nofun, s, rfl, h⟩
    · have hpoints := h.results r (mem_of_getElem? hr)
      rcases h.allocate (z := z) hpoints with ⟨hcur, hs⟩ | ⟨hcur, hs⟩
      · exact .inl ⟨fun r' hr' => Option.some.inj hr' ▸ hcur, hs⟩
      · exact .inr ⟨fun hc => hcur (hc r rfl), hs⟩
  · rw [Containers.step, Timely]
    rcases hp : s.allocating with _ | ⟨⟨r, z⟩, rest⟩
    · exact .inl ⟨nofun, s, rfl, h⟩
    · have hpoints : s.Points r := h.allocating (r, z) (hp ▸ mem_cons_self)
      have hrest : Inv { s with allocating := rest } :=
        ⟨h.ordered, h.results, fun p hmem =>
          h.allocating p (hp ▸ mem_cons_of_mem _ hmem), h.refused⟩
      by_cases hcur : s.Current r
      · refine .inl ⟨fun p hmem => Option.some.inj hmem ▸ hcur, ?_⟩
        exact hrest.replaceBlock hpoints hcur
      · refine .inr ⟨fun hc => hcur (hc (r, z) rfl), ?_⟩
        exact replaceBlock_of_not_current (s := { s with allocating := rest }) hcur
  · rw [Containers.step]
    rcases hr : s.results[n]? with _ | r
    · exact .inl ⟨trivial, s, rfl, h⟩
    · exact .inl ⟨trivial, _, rfl, h.updateState (h.results r (mem_of_getElem? hr)) mru lru⟩
  · rw [Containers.step]
    rcases hr : s.results[n]? with _ | r
    · exact .inl ⟨trivial, s, rfl, h⟩
    · exact .inl ⟨trivial, _, rfl, h.update_lru (h.results r (mem_of_getElem? hr))⟩

theorem inv_init : (containers g).init.Inv where
  ordered i := ⟨(StdCache.empty g).wf i, rfl, forall_mem_nil _⟩
  results := forall_mem_nil _
  allocating := forall_mem_nil _
  refused := rfl

/-- **The invariant says that the sets are sound.** -/
theorem Inv.sound (h : s.Inv) : s.Sound where
  length_le i := (h.ordered i).wf.length_le
  tags i := (h.ordered i).wf.tags_nodup
  ways i := (h.ordered i).wf.ways_perm
  home i := (h.ordered i).wf.isHome
  refused := h.refused
  order i := (h.ordered i).order
  victim a he hfull := by
    obtain ⟨hr, -⟩ := lookup_of_full he hfull
    obtain ⟨e, l, hel⟩ : ∃ e l, s.theBlocks (g.getSet a) = e :: l := by
      refine exists_cons_of_ne_nil fun hc => ?_
      rw [hc] at hfull
      exact absurd g.assoc_pos (Nat.not_lt.mpr hfull)
    rw [hr, ← (h.ordered (g.getSet a)).order, hel]
    rfl

/-! ### Blocks and ways -/

/-- **There are only so many blocks for a set.** -/
theorem length_le_of_wide {i : ℕ} (h : l.WF g i) (hlt : ∀ e ∈ l, e.tag < 2 ^ 64)
    (hwide : 48 ≤ g.blockShift + g.setBits) : l.length ≤ 2 ^ 16 := by
  have hquot : ∀ e ∈ l, e.tag =
      (e.tag / 2 ^ (g.blockShift + g.setBits) * 2 ^ g.setBits + i) * 2 ^ g.blockShift := by
    intro e he
    have htag := h.isTag e he
    have hset := h.isHome e he
    rw [Geometry.getTag] at htag
    rw [Geometry.getSet] at hset
    rw [Nat.pow_add, ← Nat.div_div_eq_div_mul, ← hset, Nat.div_add_mod', htag]
  have hnodup : (l.map fun e => e.tag / 2 ^ (g.blockShift + g.setBits)).Nodup := by
    refine List.Nodup.map_on (fun d hd e he hde => ?_) (List.Nodup.of_map _ h.tags_nodup)
    refine BlockSet.eq_of_tag_eq h.tags_nodup hd he ?_
    rw [hquot d hd, hquot e he, hde]
  have hsub : (l.map fun e => e.tag / 2 ^ (g.blockShift + g.setBits)) ⊆ List.range (2 ^ 16) := by
    intro q hq
    obtain ⟨e, he, rfl⟩ := mem_map.mp hq
    refine mem_range.mpr (Nat.div_lt_of_lt_mul ?_)
    calc e.tag < 2 ^ 64 := hlt e he
      _ = 2 ^ 48 * 2 ^ 16 := by decide
      _ ≤ 2 ^ (g.blockShift + g.setBits) * 2 ^ 16 :=
        Nat.mul_le_mul_right _ (Nat.pow_le_pow_right (by decide) hwide)
  have hlen := (subperm_of_subset hnodup hsub).length_le
  rwa [length_map, length_range] at hlen

/-- Where ways can be told apart, there is always one left for a new entry. -/
theorem Inv.numbers (h : s.Inv) (hg : g.Narrow) (e : ArrayOperation) : s.Numbers e := by
  rcases e with tagset | _ | _ | _ | _
  · intro he hroom
    rcases hg with hfew | hwide
    · exact Nat.lt_of_lt_of_le hroom hfew
    · have hord := h.ordered (g.getSet tagset.toNat)
      have hnew := hord.wf.pushFront hroom (forall_tag_ne_of_findTag he)
        (g.getTag_getTag tagset.toNat) (g.getSet_getTag tagset.toNat)
      refine length_le_of_wide hnew (fun d hd => ?_) hwide
      rcases mem_cons.mp hd with rfl | hd
      · exact getTag_lt tagset.isLt
      · exact hord.tag_lt d hd
  all_goals trivial

/-! ### A set with more entries than ways -/

section Refusal

variable (hroom : 2 ^ 16 < g.theAssoc) (hbits : g.blockShift + g.setBits < 48)

/-- The address of the block number `n` of the first set. -/
def blockOf (g : Geometry) (n : ℕ) : BitVec 64 :=
  BitVec.ofNat 64 (n * 2 ^ (g.blockShift + g.setBits))

include hbits in
theorem toNat_blockOf {n : ℕ} (hn : n ≤ 2 ^ 16) :
    (blockOf g n).toNat = n * 2 ^ (g.blockShift + g.setBits) := by
  refine Nat.mod_eq_of_lt ?_
  calc n * 2 ^ (g.blockShift + g.setBits) ≤ 2 ^ 16 * 2 ^ 47 :=
        Nat.mul_le_mul hn (Nat.pow_le_pow_right (by decide) (by omega))
    _ < 2 ^ 64 := by decide

theorem getTag_blockOf (n : ℕ) : g.getTag (n * 2 ^ (g.blockShift + g.setBits)) =
    n * 2 ^ (g.blockShift + g.setBits) := by
  rw [Geometry.getTag, Nat.pow_add, Nat.mul_comm (2 ^ g.blockShift), ← Nat.mul_assoc,
    Nat.mul_div_cancel _ (Nat.two_pow_pos _)]

theorem getSet_blockOf (n : ℕ) : g.getSet (n * 2 ^ (g.blockShift + g.setBits)) = 0 := by
  rw [Geometry.getSet, Nat.pow_add, Nat.mul_comm (2 ^ g.blockShift), ← Nat.mul_assoc,
    Nat.mul_div_cancel _ (Nat.two_pow_pos _), Nat.mul_mod_left]

include hroom hbits in
/-- **The first blocks of a set** have an entry each. -/
theorem exists_filled {n : ℕ} (hn : n ≤ 2 ^ 16) :
    ∃ s, (containers g).Reachable s ∧ s.Inv ∧ (s.theBlocks 0).length = n ∧
      ∀ e ∈ s.theBlocks 0, e.tag < n * 2 ^ (g.blockShift + g.setBits) := by
  induction n with
  | zero => exact ⟨_, Lib.Machine.ReachableWhen.init, inv_init, rfl, forall_mem_nil _⟩
  | succ n ih =>
    obtain ⟨s, hreach, hinv, hlen, hlt⟩ := ih (by omega)
    have ha := toNat_blockOf hbits (n := n) (by omega)
    have hset := getSet_blockOf (g := g) n
    have htag := getTag_blockOf (g := g) n
    have hmiss : (s.theBlocks 0).findTag (n * 2 ^ (g.blockShift + g.setBits)) = none := by
      refine find?_eq_none.mpr fun e he => ?_
      rw [decide_eq_true_iff]
      exact Nat.ne_of_lt (hlt e he)
    obtain ⟨s', hinv', hblocks, hpoints, hlook⟩ := hinv.lookup_of_way
      (a := n * 2 ^ (g.blockShift + g.setBits)) (ha ▸ (blockOf g n).isLt) (by rw [hset, htag, hmiss])
      (by rw [hset, hlen]; omega) (by rw [hset, hlen]; omega)
    rw [hset, htag] at hblocks
    rw [← ha] at hlook
    refine ⟨_, hreach.step (e := .lookup (blockOf g n)) trivial rfl, ?_, ?_, ?_⟩
    · rw [hlook]
      exact hinv'.append_result (ha.symm ▸ hpoints)
    · rw [hlook, hblocks, Function.update_self, length_cons, hlen]
    · rw [hlook, hblocks, Function.update_self]
      intro e he
      have hless : n * 2 ^ (g.blockShift + g.setBits) < (n + 1) * 2 ^ (g.blockShift + g.setBits) :=
        Nat.mul_lt_mul_of_pos_right (Nat.lt_succ_self n) (Nat.two_pow_pos _)
      rcases mem_cons.mp he with rfl | he
      · exact hless
      · exact Nat.lt_trans (hlt e he) hless

include hroom hbits in
/-- **The next one is refused**: its lookup gives the entry of another block. -/
theorem exists_refused : ∃ s, (containers g).Reachable s ∧ s.refused = 1 ∧
    ∃ r ∈ s.results, r.theAddress = 2 ^ 16 * 2 ^ (g.blockShift + g.setBits) ∧
      ∃ e ∈ s.theBlocks r.theSet, e.way = r.theBlock ∧ e.tag ≠ r.theAddress := by
  obtain ⟨s, hreach, hinv, hlen, hlt⟩ := exists_filled hroom hbits (Nat.le_refl _)
  have ha := toNat_blockOf hbits (Nat.le_refl _)
  have hset := getSet_blockOf (g := g) (2 ^ 16)
  have htag := getTag_blockOf (g := g) (2 ^ 16)
  generalize 2 ^ 16 * 2 ^ (g.blockShift + g.setBits) = a at *
  have hmiss : (s.theBlocks (g.getSet a)).findTag (g.getTag a) = none := by
    rw [hset, htag]
    refine find?_eq_none.mpr fun e he => ?_
    rw [decide_eq_true_iff]
    exact Nat.ne_of_lt (hlt e he)
  obtain ⟨e, he, hway, -⟩ := BlockSet.atWay_of_mem_ways (w := 0) (hinv.ordered 0).wf
    ((hinv.ordered 0).wf.ways_perm.mem_iff.mpr (mem_range.mpr (by rw [hlen]; decide)))
  obtain ⟨hr, hlook⟩ := lookup_of_room hmiss (by rw [hset, hlen]; exact hroom)
  have hwrap : (s.theBlocks (g.getSet a)).length % 2 ^ 16 = 0 := by
    rw [hset]
    exact (congrArg (· % 2 ^ 16) hlen).trans (Nat.mod_self _)
  have hrefused : (s.theBlocks (g.getSet a)).pushFront
      ⟨g.getTag a, .invalid, (s.theBlocks (g.getSet a)).length % 2 ^ 16⟩ = none := by
    exact if_pos ⟨e, hset.symm ▸ he, .inr (hway.trans hwrap.symm)⟩
  have haddress : (s.resultOf a).theAddress = a := (congrArg LookupResult.theAddress hr).trans htag
  rw [hrefused] at hlook
  have hstep : (containers g).step s (.lookup (blockOf g (2 ^ 16))) =
      .ok { s with results := s.results ++ [s.resultOf a], refused := s.refused + 1 } := by
    refine congrArg Except.ok ?_
    rw [ha, hlook]
  refine ⟨_, hreach.step trivial hstep, congrArg (· + 1) hinv.refused, s.resultOf a,
    mem_append_right _ (mem_singleton_self _), ?_, e, ?_, ?_, ?_⟩
  · exact haddress
  · rw [(congrArg LookupResult.theSet hr).trans hset]
    exact he
  · rw [hway, congrArg LookupResult.theBlock hr]
    exact hwrap.symm
  · rw [haddress]
    exact Nat.ne_of_lt (hlt e he)

end Refusal

/-! ### Runs -/

theorem Reachable.inv (hg : g.Narrow) (h : (containers g).Reachable s) : s.Inv := by
  refine h.invariant (I := Inv) inv_init fun s e t hs _ ht => ?_
  rcases hs.step (hs.numbers hg e) with ⟨-, u, hu, hinv⟩ | ⟨-, hu⟩
  · cases hu.symm.trans ht
    exact hinv
  · cases hu.symm.trans ht

/-- **The containers are sound** after every run, and an operation goes well exactly if its result is
up to date: if and only if the ways can be told apart. -/
theorem sound_iff (g : Geometry) :
    (∀ s, (containers g).Reachable s →
      s.Sound ∧ ∀ e, (∃ s', s.step e = .ok s') ↔ s.Timely e) ↔ g.Narrow := by
  constructor
  · intro h
    by_contra hg
    obtain ⟨hroom, hbits⟩ := not_or.mp hg
    obtain ⟨s, hreach, hrefused, -⟩ := exists_refused (Nat.not_le.mp hroom) (Nat.not_le.mp hbits)
    exact absurd (hrefused.symm.trans (h s hreach).1.refused) Nat.one_ne_zero
  · intro hg s hreach
    have hinv := Reachable.inv hg hreach
    refine ⟨hinv.sound, fun e => ?_⟩
    rcases hinv.step (hinv.numbers hg e) with ⟨ht, s', hs', -⟩ | ⟨ht, hs'⟩
    · exact iff_of_true ⟨s', hs'⟩ ht
    · refine iff_of_false ?_ ht
      rintro ⟨s'', hs''⟩
      cases hs'.symm.trans hs''

/-- **After every run the containers are an array of well-formed sets**, whose lookups and changes of
states and places are theirs; and what a miss in a full set is given has been used longest ago. -/
theorem array_of_reachable (hg : g.Narrow) (h : (containers g).Reachable s) :
    (∃ c : StdCache g, c.theBlocks = s.theBlocks ∧
      (∀ tagset : BitVec 64, (c.lookup tagset.toNat).2 = s.resultOf tagset.toNat ∧
        (c.lookup tagset.toNat).1.theBlocks = (s.lookup tagset.toNat).theBlocks) ∧
      (∀ r, (c.updateLRU r).theBlocks = (s.update_lru r).theBlocks) ∧
      ∀ r z mru lru, (c.changeState r z mru lru).theBlocks =
        (s.updateState r z mru lru).theBlocks) ∧
    ∀ a, ∀ w ∈ (s.theBlocks (g.getSet a)).ways,
      (s.theBlocks (g.getSet a)).findTag (g.getTag a) = none →
      g.theAssoc ≤ (s.theBlocks (g.getSet a)).length → w ≠ (s.resultOf a).theBlock →
      Lib.stamp (s.uses (g.getSet a)) (s.resultOf a).theBlock <
        Lib.stamp (s.uses (g.getSet a)) w := by
  have hinv := Reachable.inv hg h
  refine ⟨⟨hinv.toStdCache, rfl, fun tagset => ?_, fun r => rfl, fun r z mru lru => ?_⟩,
    fun a w hw he hfull hne => ?_⟩
  · exact hinv.toStdCache_lookup tagset.isLt (hinv.numbers hg (.lookup tagset))
  · cases mru <;> cases lru <;> rfl
  · exact Lib.stamp_head_lt (hinv.sound.victim a he hfull) (hinv.sound.order _ ▸ hw) hne

/-- Two blocks in a set of two ways; the first one is used again. -/
theorem array_of_twoBlocks : ∃ s, (containers ⟨6, 0, 2, Nat.two_pos⟩).run
      [.lookup 0, .lookup 64, .updateLRU 0] = .ok s ∧
    Lib.stamp (s.uses 0) (s.resultOf 128).theBlock < Lib.stamp (s.uses 0) 0 := by
  refine ⟨_, rfl, (array_of_reachable (.inl (by decide)) (@Lib.Machine.reachable_of_run _ _ _ _ _
    [.lookup 0, .lookup 64, .updateLRU 0] rfl)).2 128 0 ?_ ?_ ?_ ?_⟩ <;> decide

/-- One set for blocks of 64 bytes, with one entry more than 16 bits number. -/
def wide : Geometry where
  blockShift := 6
  setBits := 0
  theAssoc := 2 ^ 16 + 1
  assoc_pos := Nat.succ_pos _

/-- **The last entry of a wide set is refused.** -/
theorem wide_refuses : (∃ s, (containers wide).Reachable s ∧ s.refused = 1 ∧
    ∃ r ∈ s.results, r.theAddress = 2 ^ 16 * 2 ^ 6 ∧
      ∃ e ∈ s.theBlocks r.theSet, e.way = r.theBlock ∧ e.tag ≠ r.theAddress) ∧
    ¬ ∀ (g : Geometry) (s : Containers g), (containers g).Reachable s → s.Sound := by
  have hrefused := exists_refused (g := wide) (Nat.lt_succ_self _) (by decide)
  refine ⟨hrefused, fun h => ?_⟩
  obtain ⟨s, hreach, hs, -⟩ := hrefused
  exact absurd (hs.symm.trans (h wide s hreach).refused) Nat.one_ne_zero

end Containers

end Flexus
