import Flexus.Common.CoherenceState
import Mathlib.Algebra.Group.Nat.Defs
import Mathlib.Data.List.Nodup
import Mathlib.Tactic.Cases

/-!
# The set-associative array of the functional caches

`StdCache` (`components/FastCache/StdCache.hpp`, and the same class under
`FastCMPCache`) keeps, for every set, a container of block entries that is
indexed in three ways: by order of use – least recently used first –, by tag and
by way, the last two uniquely. The entry of a block is found by its tag, and an
iterator keeps pointing at an entry while the entry moves in the order or changes
its tag; what identifies an entry through all of this is its way. So a set is
modelled as the list of its entries in order of use, and an iterator as a way.

A miss in a set that is not full *creates* an entry for the missing block, in the
invalid state and at the least recently used position: looking a block up changes
the array, but not the state of any block. The state in which a cache holds a
block (`Flexus.StdCache.stateOf`) is all that a coherence protocol depends on,
and the operations are specified by what they do to it.
-/

namespace Flexus

open Function List

/-! ### Geometry -/

/-- The geometry of a cache: the block size and the number of sets are powers of
two, and there is at least one way. -/
structure Geometry where
  /-- The number of address bits inside a block. -/
  blockShift : ℕ
  /-- The number of address bits that select the set. -/
  setBits : ℕ
  /-- The number of ways. -/
  theAssoc : ℕ
  assoc_pos : 0 < theAssoc

namespace Geometry

variable (g : Geometry)

/-- `get_tag`: the address of the block, its low bits cleared. -/
def getTag (a : ℕ) : ℕ := a / 2 ^ g.blockShift * 2 ^ g.blockShift

/-- `get_set`: the low bits of the block number. -/
def getSet (a : ℕ) : ℕ := a / 2 ^ g.blockShift % 2 ^ g.setBits

@[simp]
theorem getTag_getTag (a : ℕ) : g.getTag (g.getTag a) = g.getTag a := by
  rw [getTag, getTag, Nat.mul_div_cancel _ (Nat.two_pow_pos _)]

@[simp]
theorem getSet_getTag (a : ℕ) : g.getSet (g.getTag a) = g.getSet a := by
  rw [getSet, getTag, Nat.mul_div_cancel _ (Nat.two_pow_pos _), getSet]

end Geometry

/-! ### Entries and sets -/

/-- An entry of a set. -/
structure BlockEntry where
  /-- The address of the block. -/
  tag : ℕ
  /-- The state in which the block is held. -/
  state : CoherenceState
  /-- The way, which identifies the entry: a number of 16 bits, see `Geometry.Narrow`. -/
  way : ℕ
  deriving DecidableEq

/-- The entries of a set, least recently used first. -/
abbrev BlockSet := List BlockEntry

namespace BlockSet

/-- **Well-formedness of a set**: the unique indices by tag and by way, the ways
being those of a set that only ever grows, the capacity, and the fact that every
block is in its own set. -/
structure WF (g : Geometry) (i : ℕ) (l : BlockSet) : Prop where
  tags_nodup : (l.map BlockEntry.tag).Nodup
  ways_nodup : (l.map BlockEntry.way).Nodup
  way_lt : ∀ e ∈ l, e.way < l.length
  length_le : l.length ≤ g.theAssoc
  isTag : ∀ e ∈ l, g.getTag e.tag = e.tag
  isHome : ∀ e ∈ l, g.getSet e.tag = i

/-- The indices of the container: tags and ways are unique, and the ways are those of a set that
only ever grows. -/
structure Indexed (l : BlockSet) : Prop where
  tags_nodup : (l.map BlockEntry.tag).Nodup
  ways_nodup : (l.map BlockEntry.way).Nodup
  way_lt : ∀ e ∈ l, e.way < l.length

theorem WF.indexed {g : Geometry} {i : ℕ} {l : BlockSet} (h : l.WF g i) : l.Indexed :=
  ⟨h.tags_nodup, h.ways_nodup, h.way_lt⟩

/-- The entry an iterator points at. -/
def atWay (l : BlockSet) (w : ℕ) : Option BlockEntry := l.find? fun e => e.way = w

/-- `find` in the index by tag. -/
def findTag (l : BlockSet) (t : ℕ) : Option BlockEntry := l.find? fun e => e.tag = t

/-- The state of a block in a set; a block without an entry is invalid. -/
def stateOf (l : BlockSet) (t : ℕ) : CoherenceState :=
  match l.findTag t with
  | some e => e.state
  | none => .invalid

/-- `modify` with `ChangeBlockState`. -/
def changeBlockState (l : BlockSet) (w : ℕ) (s : CoherenceState) : BlockSet :=
  l.map fun e => if e.way = w then { e with state := s } else e

/-- `modify` with `ReplaceBlock`. -/
def replaceBlock (l : BlockSet) (w t : ℕ) (s : CoherenceState) : BlockSet :=
  l.map fun e => if e.way = w then { e with tag := t, state := s } else e

/-- `relocate` to the end of the order: the entry becomes the most recently used. -/
def toTail (l : BlockSet) (w : ℕ) : BlockSet :=
  l.filter (fun e => e.way ≠ w) ++ l.filter (fun e => e.way = w)

/-- `relocate` to the start of the order: the entry becomes the least recently
used. -/
def toHead (l : BlockSet) (w : ℕ) : BlockSet :=
  l.filter (fun e => e.way = w) ++ l.filter (fun e => e.way ≠ w)

variable {g : Geometry} {i : ℕ} {l l' : BlockSet}

/-! #### States of blocks -/

theorem eq_of_tag_eq (h : (l.map BlockEntry.tag).Nodup) {d e : BlockEntry} (hd : d ∈ l)
    (he : e ∈ l) (ht : d.tag = e.tag) : d = e :=
  inj_on_of_nodup_map h hd he ht

theorem eq_of_way_eq (h : (l.map BlockEntry.way).Nodup) {d e : BlockEntry} (hd : d ∈ l)
    (he : e ∈ l) (hw : d.way = e.way) : d = e :=
  inj_on_of_nodup_map h hd he hw

theorem stateOf_of_mem (h : (l.map BlockEntry.tag).Nodup) {e : BlockEntry} (he : e ∈ l) :
    l.stateOf e.tag = e.state := by
  rw [stateOf, findTag]
  cases hf : l.find? fun d => decide (d.tag = e.tag) with
  | none => simpa using find?_eq_none.mp hf e he
  | some d =>
    have ht : d.tag = e.tag := by simpa using find?_some hf
    rw [eq_of_tag_eq h (mem_of_find?_eq_some hf) he ht]

theorem stateOf_of_forall {t : ℕ} (h : ∀ e ∈ l, e.tag ≠ t) : l.stateOf t = .invalid := by
  have hf : l.findTag t = none := by simpa [findTag, find?_eq_none] using h
  rw [stateOf, hf]

theorem exists_of_stateOf {t : ℕ} (h : l.stateOf t ≠ .invalid) : ∃ e ∈ l, e.tag = t := by
  by_contra hc
  push Not at hc
  exact h (stateOf_of_forall hc)

theorem atWay_of_mem (h : (l.map BlockEntry.way).Nodup) {e : BlockEntry} (he : e ∈ l) :
    l.atWay e.way = some e := by
  rw [atWay]
  cases hf : l.find? fun d => decide (d.way = e.way) with
  | none => simpa using find?_eq_none.mp hf e he
  | some d =>
    have hw : d.way = e.way := by simpa using find?_some hf
    rw [eq_of_way_eq h (mem_of_find?_eq_some hf) he hw]

theorem mem_of_atWay {w : ℕ} {e : BlockEntry} (h : l.atWay w = some e) : e ∈ l ∧ e.way = w :=
  ⟨mem_of_find?_eq_some h, by simpa using find?_some h⟩

/-- The states of the blocks depend on the entries only, not on their order. -/
theorem stateOf_perm (h : (l.map BlockEntry.tag).Nodup) (hp : l'.Perm l) :
    l'.stateOf = l.stateOf := by
  funext t
  have h' : (l'.map BlockEntry.tag).Nodup := (hp.map _).nodup_iff.mpr h
  by_cases hm : ∃ e ∈ l, e.tag = t
  · obtain ⟨e, he, rfl⟩ := hm
    rw [stateOf_of_mem h he, stateOf_of_mem h' (hp.mem_iff.mpr he)]
  · push Not at hm
    rw [stateOf_of_forall hm, stateOf_of_forall fun e he => hm e (hp.mem_iff.mp he)]

/-! #### Relocation -/

theorem toTail_perm (l : BlockSet) (w : ℕ) : (l.toTail w).Perm l := by
  have h := filter_append_perm (fun e : BlockEntry => decide (e.way ≠ w)) l
  simpa [toTail] using h

theorem toHead_perm (l : BlockSet) (w : ℕ) : (l.toHead w).Perm l := by
  have h := filter_append_perm (fun e : BlockEntry => decide (e.way = w)) l
  simpa [toHead] using h

theorem Indexed.perm (h : l.Indexed) (hp : l'.Perm l) : l'.Indexed where
  tags_nodup := (hp.map _).nodup_iff.mpr h.tags_nodup
  ways_nodup := (hp.map _).nodup_iff.mpr h.ways_nodup
  way_lt e he := hp.length_eq ▸ h.way_lt e (hp.mem_iff.mp he)

theorem WF.perm (h : l.WF g i) (hp : l'.Perm l) : l'.WF g i where
  __ := h.indexed.perm hp
  length_le := hp.length_eq ▸ h.length_le
  isTag e he := h.isTag e (hp.mem_iff.mp he)
  isHome e he := h.isHome e (hp.mem_iff.mp he)

/-! #### Modification of an entry -/

theorem map_changeBlockState (f : BlockEntry → ℕ) (hf : ∀ e s, f { e with state := s } = f e)
    (l : BlockSet) (w : ℕ) (s : CoherenceState) :
    (l.changeBlockState w s).map f = l.map f := by
  rw [changeBlockState, map_map]
  refine map_congr_left fun e _ => ?_
  rw [comp_apply]
  split
  · exact hf e s
  · rfl

theorem Indexed.changeBlockState (h : l.Indexed) (w : ℕ) (s : CoherenceState) :
    (l.changeBlockState w s).Indexed where
  tags_nodup := by
    rw [map_changeBlockState _ fun _ _ => rfl]
    exact h.tags_nodup
  ways_nodup := by
    rw [map_changeBlockState _ fun _ _ => rfl]
    exact h.ways_nodup
  way_lt e he := by
    obtain ⟨d, hd, rfl⟩ := mem_map.mp he
    have := h.way_lt d hd
    rw [BlockSet.changeBlockState, length_map]
    split <;> exact this

theorem WF.changeBlockState (h : l.WF g i) (w : ℕ) (s : CoherenceState) :
    (l.changeBlockState w s).WF g i where
  __ := h.indexed.changeBlockState w s
  length_le := by
    rw [BlockSet.changeBlockState, length_map]
    exact h.length_le
  isTag e he := by
    obtain ⟨d, hd, rfl⟩ := mem_map.mp he
    have := h.isTag d hd
    split <;> exact this
  isHome e he := by
    obtain ⟨d, hd, rfl⟩ := mem_map.mp he
    have := h.isHome d hd
    split <;> exact this

/-- Changing the state of an entry changes the state of its block. -/
theorem stateOf_changeBlockState (h : l.WF g i) {e : BlockEntry} (he : e ∈ l)
    (s : CoherenceState) :
    (l.changeBlockState e.way s).stateOf = update l.stateOf e.tag s := by
  have h' := h.changeBlockState e.way s
  have hmem : ∀ d ∈ l, (if d.way = e.way then { d with state := s } else d) ∈
      l.changeBlockState e.way s := fun d hd => mem_map.mpr ⟨d, hd, rfl⟩
  funext t
  by_cases ht : t = e.tag
  · subst ht
    have hm := hmem e he
    rw [if_pos rfl] at hm
    rw [update_self]
    exact stateOf_of_mem h'.tags_nodup hm
  · rw [update_of_ne ht]
    by_cases hex : ∃ d ∈ l, d.tag = t
    · obtain ⟨d, hd, rfl⟩ := hex
      have hw : d.way ≠ e.way := fun hc => ht (by rw [eq_of_way_eq h.ways_nodup hd he hc])
      have hm := hmem d hd
      rw [if_neg hw] at hm
      rw [stateOf_of_mem h'.tags_nodup hm, stateOf_of_mem h.tags_nodup hd]
    · push Not at hex
      rw [stateOf_of_forall hex]
      refine stateOf_of_forall fun d hd => ?_
      obtain ⟨d', hd', rfl⟩ := mem_map.mp hd
      have := hex d' hd'
      split <;> exact this

theorem Indexed.replaceBlock (h : l.Indexed) {t : ℕ} (hfresh : ∀ d ∈ l, d.tag ≠ t) (w : ℕ)
    (s : CoherenceState) : (l.replaceBlock w t s).Indexed where
  tags_nodup := by
    rw [BlockSet.replaceBlock, map_map]
    refine List.Nodup.map_on ?_ (List.Nodup.of_map _ h.tags_nodup)
    intro x hx y hy hxy
    simp only [comp_apply] at hxy
    split at hxy <;> split at hxy
    · rename_i hxw hyw
      exact eq_of_way_eq h.ways_nodup hx hy (hxw.trans hyw.symm)
    · exact absurd hxy.symm (hfresh y hy)
    · exact absurd hxy (hfresh x hx)
    · exact eq_of_tag_eq h.tags_nodup hx hy hxy
  ways_nodup := by
    have hw : (l.replaceBlock w t s).map BlockEntry.way = l.map BlockEntry.way := by
      rw [BlockSet.replaceBlock, map_map]
      refine map_congr_left fun d _ => ?_
      rw [comp_apply]
      split <;> rfl
    rw [hw]
    exact h.ways_nodup
  way_lt d hd := by
    obtain ⟨d', hd', rfl⟩ := mem_map.mp hd
    have := h.way_lt d' hd'
    rw [BlockSet.replaceBlock, length_map]
    split <;> exact this

/-- A set stays well formed when an entry is replaced by a block of the set that
no entry holds. -/
theorem WF.replaceBlock (h : l.WF g i) {t : ℕ} (hfresh : ∀ d ∈ l, d.tag ≠ t)
    (ht : g.getTag t = t) (hi : g.getSet t = i) (w : ℕ) (s : CoherenceState) :
    (l.replaceBlock w t s).WF g i where
  __ := h.indexed.replaceBlock hfresh w s
  length_le := by
    rw [BlockSet.replaceBlock, length_map]
    exact h.length_le
  isTag d hd := by
    obtain ⟨d', hd', rfl⟩ := mem_map.mp hd
    have := h.isTag d' hd'
    split
    · exact ht
    · exact this
  isHome d hd := by
    obtain ⟨d', hd', rfl⟩ := mem_map.mp hd
    have := h.isHome d' hd'
    split
    · exact hi
    · exact this

/-- Replacing an entry drops its block and brings in the new one. -/
theorem stateOf_replaceBlock (h : l.WF g i) {e : BlockEntry} (he : e ∈ l) {t : ℕ}
    (hfresh : ∀ d ∈ l, d.tag ≠ t) (ht : g.getTag t = t) (hi : g.getSet t = i)
    (s : CoherenceState) :
    (l.replaceBlock e.way t s).stateOf =
      update (update l.stateOf e.tag .invalid) t s := by
  have h' := h.replaceBlock hfresh ht hi e.way s
  have hmem : ∀ d ∈ l, (if d.way = e.way then { d with tag := t, state := s } else d) ∈
      l.replaceBlock e.way t s := fun d hd => mem_map.mpr ⟨d, hd, rfl⟩
  funext b
  by_cases hb : b = t
  · subst hb
    have hm := hmem e he
    rw [if_pos rfl] at hm
    rw [update_self]
    exact stateOf_of_mem h'.tags_nodup hm
  rw [update_of_ne hb]
  by_cases hbe : b = e.tag
  · subst hbe
    rw [update_self]
    refine stateOf_of_forall fun d hd => ?_
    obtain ⟨d', hd', rfl⟩ := mem_map.mp hd
    split
    · exact fun hc => hb hc.symm
    · rename_i hw
      intro hc
      exact hw (by rw [eq_of_tag_eq h.tags_nodup hd' he hc])
  · rw [update_of_ne hbe]
    by_cases hex : ∃ d ∈ l, d.tag = b
    · obtain ⟨d, hd, rfl⟩ := hex
      have hw : d.way ≠ e.way := fun hc => hbe (by rw [eq_of_way_eq h.ways_nodup hd he hc])
      have hm := hmem d hd
      rw [if_neg hw] at hm
      rw [stateOf_of_mem h'.tags_nodup hm, stateOf_of_mem h.tags_nodup hd]
    · push Not at hex
      rw [stateOf_of_forall hex]
      refine stateOf_of_forall fun d hd => ?_
      obtain ⟨d', hd', rfl⟩ := mem_map.mp hd
      split
      · exact fun hc => hb hc.symm
      · exact hex d' hd'

theorem Indexed.pushFront (h : l.Indexed) (ht : ∀ d ∈ l, d.tag ≠ t) :
    Indexed (⟨t, .invalid, l.length⟩ :: l) where
  tags_nodup := by
    rw [map_cons, nodup_cons]
    refine ⟨fun hc => ?_, h.tags_nodup⟩
    obtain ⟨d, hd, hdt⟩ := mem_map.mp hc
    exact ht d hd hdt
  ways_nodup := by
    rw [map_cons, nodup_cons]
    refine ⟨fun hc => ?_, h.ways_nodup⟩
    obtain ⟨d, hd, hdw⟩ := mem_map.mp hc
    exact absurd hdw (Nat.ne_of_lt (h.way_lt d hd))
  way_lt d hd := by
    rw [length_cons]
    rcases mem_cons.mp hd with rfl | hd
    · exact Nat.lt_succ_self _
    · exact Nat.lt_succ_of_lt (h.way_lt d hd)

/-- A new entry goes to the least recently used position, in the first way that
is not in use. -/
theorem WF.pushFront (h : l.WF g i) (hl : l.length < g.theAssoc) {t : ℕ}
    (hfresh : ∀ d ∈ l, d.tag ≠ t) (ht : g.getTag t = t) (hi : g.getSet t = i) :
    WF g i (⟨t, .invalid, l.length⟩ :: l) where
  __ := h.indexed.pushFront hfresh
  length_le := hl
  isTag d hd := by
    rcases mem_cons.mp hd with rfl | hd
    · exact ht
    · exact h.isTag d hd
  isHome d hd := by
    rcases mem_cons.mp hd with rfl | hd
    · exact hi
    · exact h.isHome d hd

theorem stateOf_pushFront (hfresh : ∀ d ∈ l, BlockEntry.tag d ≠ t) (w : ℕ) :
    stateOf (⟨t, .invalid, w⟩ :: l) = l.stateOf := by
  funext b
  by_cases hb : t = b
  · subst hb
    rw [stateOf_of_forall hfresh]
    simp [stateOf, findTag]
  · simp [stateOf, findTag, hb]

end BlockSet

/-! ### The array -/

/-- **The array of a cache**: a well-formed set for every set index. -/
structure StdCache (g : Geometry) where
  /-- The sets. -/
  theBlocks : ℕ → BlockSet
  wf : ∀ i, (theBlocks i).WF g i

/-- `StdLookupResult`: the address of the block, its state when it was looked up,
its set, and the entry the iterator points at. -/
structure LookupResult (g : Geometry) where
  /-- The address of the block. -/
  theAddress : ℕ
  /-- The state at the time of the lookup. -/
  theState : CoherenceState
  /-- The set of the block. -/
  theSet : ℕ
  /-- The way of the entry: that of the block if it has one, of the entry to be
  replaced otherwise. -/
  theBlock : ℕ
  isTag : g.getTag theAddress = theAddress
  isHome : g.getSet theAddress = theSet

namespace StdCache

variable {g : Geometry}

/-- The empty array. -/
def empty (g : Geometry) : StdCache g where
  theBlocks _ := []
  wf i := ⟨nodup_nil, nodup_nil, by simp, Nat.zero_le _, by simp, by simp⟩

/-- An array with one of its sets exchanged. -/
def setBlocks (c : StdCache g) (i : ℕ) (l : BlockSet) (h : l.WF g i) : StdCache g where
  theBlocks := update c.theBlocks i l
  wf j := by
    by_cases hj : j = i
    · subst hj
      rw [update_self]
      exact h
    · rw [update_of_ne hj]
      exact c.wf j

@[simp]
theorem theBlocks_setBlocks (c : StdCache g) (i : ℕ) (l : BlockSet) (h : l.WF g i) :
    (c.setBlocks i l h).theBlocks = update c.theBlocks i l :=
  rfl

/-- **The state in which a cache holds a block.** -/
def stateOf (c : StdCache g) (b : ℕ) : CoherenceState := (c.theBlocks (g.getSet b)).stateOf b

/-- `lookup`: the entry of the block, if there is one. Otherwise a new one at the
least recently used position – in the invalid state – while there is room, or
else the least recently used entry. -/
def lookup (c : StdCache g) (tagset : ℕ) : StdCache g × LookupResult g :=
  let tag := g.getTag tagset
  let setIndex := g.getSet tagset
  let l := c.theBlocks setIndex
  let result (s : CoherenceState) (w : ℕ) : LookupResult g :=
    ⟨tag, s, setIndex, w, g.getTag_getTag tagset, g.getSet_getTag tagset⟩
  match hf : l.findTag tag with
  | some e => (c, result e.state e.way)
  | none =>
    if hl : l.length < g.theAssoc then
      (c.setBlocks setIndex (⟨tag, .invalid, l.length⟩ :: l)
        ((c.wf setIndex).pushFront hl (by simpa [BlockSet.findTag] using hf)
          (g.getTag_getTag tagset) (g.getSet_getTag tagset)),
        result .invalid l.length)
    else
      (c, result .invalid ((l.head?.map BlockEntry.way).getD 0))

/-- The entry a lookup result points at. -/
def block (c : StdCache g) (r : LookupResult g) : Option BlockEntry :=
  (c.theBlocks r.theSet).atWay r.theBlock

/-- `getState`: the state of the entry while it holds the block, and the state at
the time of the lookup otherwise. -/
def getState (c : StdCache g) (r : LookupResult g) : CoherenceState :=
  match c.block r with
  | some e => if e.tag = r.theAddress then e.state else r.theState
  | none => r.theState

/-- `update_lru`: the entry becomes the most recently used. -/
def updateLRU (c : StdCache g) (r : LookupResult g) : StdCache g :=
  c.setBlocks r.theSet ((c.theBlocks r.theSet).toTail r.theBlock)
    ((c.wf r.theSet).perm (BlockSet.toTail_perm _ _))

/-- `make_block_lru`: the entry becomes the least recently used. -/
def makeBlockLRU (c : StdCache g) (r : LookupResult g) : StdCache g :=
  c.setBlocks r.theSet ((c.theBlocks r.theSet).toHead r.theBlock)
    ((c.wf r.theSet).perm (BlockSet.toHead_perm _ _))

/-- The state change of `updateState`. -/
def changeBlockState (c : StdCache g) (r : LookupResult g) (s : CoherenceState) : StdCache g :=
  c.setBlocks r.theSet ((c.theBlocks r.theSet).changeBlockState r.theBlock s)
    ((c.wf r.theSet).changeBlockState r.theBlock s)

/-- `updateState`, which is what `changeState` of a lookup result calls. -/
def changeState (c : StdCache g) (r : LookupResult g) (s : CoherenceState)
    (makeMRU makeLRU : Bool) : StdCache g :=
  let c := c.changeBlockState r s
  if makeMRU then c.updateLRU r else if makeLRU then c.makeBlockLRU r else c

/-- `modify` with `ReplaceBlock`. The container drops an entry whose new tag is
already in the set, and the iterator is then dangling. -/
def replaceBlock (c : StdCache g) (r : LookupResult g) (s : CoherenceState) :
    Except Fault (StdCache g) :=
  if h : ∀ d ∈ c.theBlocks r.theSet, d.tag ≠ r.theAddress then
    .ok (c.setBlocks r.theSet ((c.theBlocks r.theSet).replaceBlock r.theBlock r.theAddress s)
      ((c.wf r.theSet).replaceBlock h r.isTag r.isHome r.theBlock s))
  else
    .error .danglingBlock

/-- **`allocate`**, for an array that lives in a larger state: the entry is given
to the block, after its present block has been evicted if that is another, valid
one, and becomes the most recently used. The callback `evict` is the component's
and may change the larger state. -/
def allocate {σ : Type} (getCache : σ → StdCache g) (setCache : σ → StdCache g → σ)
    (evict : σ → ℕ → CoherenceState → Except Fault σ) (s : σ) (r : LookupResult g)
    (newState : CoherenceState) : Except Fault σ :=
  match (getCache s).block r with
  | none => .error .danglingBlock
  | some e =>
    if e.tag ≠ r.theAddress then do
      let s ← if e.state.isValid then evict s e.tag e.state else pure s
      let c ← (getCache s).replaceBlock r newState
      pure (setCache s (c.updateLRU r))
    else
      pure (setCache s (((getCache s).changeBlockState r newState).updateLRU r))

/-! ### What the operations do to the states of blocks -/

theorem getTag_of_stateOf {c : StdCache g} {b : ℕ} (h : c.stateOf b ≠ .invalid) :
    g.getTag b = b := by
  obtain ⟨e, he, rfl⟩ := BlockSet.exists_of_stateOf h
  exact (c.wf _).isTag e he

@[simp]
theorem stateOf_empty (b : ℕ) : (empty g).stateOf b = .invalid :=
  BlockSet.stateOf_of_forall (by simp [empty])

/-- Exchanging a set changes the states of the blocks of that set. -/
theorem stateOf_setBlocks (c : StdCache g) (i : ℕ) (l : BlockSet) (h : l.WF g i) (b : ℕ) :
    (c.setBlocks i l h).stateOf b = if g.getSet b = i then l.stateOf b else c.stateOf b := by
  rw [stateOf, theBlocks_setBlocks]
  by_cases hb : g.getSet b = i
  · rw [if_pos hb, hb, update_self]
  · rw [if_neg hb, update_of_ne hb, stateOf]

theorem stateOf_setBlocks_eq (c : StdCache g) {i : ℕ} {l : BlockSet} (h : l.WF g i)
    (hl : l.stateOf = (c.theBlocks i).stateOf) : (c.setBlocks i l h).stateOf = c.stateOf := by
  funext b
  rw [stateOf_setBlocks]
  split
  · rename_i hb
    rw [hl, stateOf, hb]
  · rfl

/-- An update of the states in a set is an update of the states in the array. -/
theorem stateOf_setBlocks_update (c : StdCache g) {i t : ℕ} {l : BlockSet} (h : l.WF g i)
    (ht : g.getSet t = i) (f : ℕ → CoherenceState) (hf : ∀ b, g.getSet b = i → b ≠ t →
      f b = l.stateOf b) (hf' : ∀ b, g.getSet b ≠ i → f b = c.stateOf b) :
    (c.setBlocks i l h).stateOf = update f t (l.stateOf t) := by
  funext b
  rw [stateOf_setBlocks]
  by_cases hb : b = t
  · subst hb
    rw [if_pos ht, update_self]
  · rw [update_of_ne hb]
    split
    · rename_i hs
      exact (hf b hs hb).symm
    · rename_i hs
      exact (hf' b hs).symm

theorem stateOf_updateLRU (c : StdCache g) (r : LookupResult g) :
    (c.updateLRU r).stateOf = c.stateOf :=
  stateOf_setBlocks_eq c _ (BlockSet.stateOf_perm (c.wf _).tags_nodup (BlockSet.toTail_perm _ _))

theorem stateOf_makeBlockLRU (c : StdCache g) (r : LookupResult g) :
    (c.makeBlockLRU r).stateOf = c.stateOf :=
  stateOf_setBlocks_eq c _ (BlockSet.stateOf_perm (c.wf _).tags_nodup (BlockSet.toHead_perm _ _))

/-- **A lookup result is good for an array** when it points at the entry of its
block or, if the block has none, at some entry of the set. -/
structure Resolves (c : StdCache g) (r : LookupResult g) (e : BlockEntry) : Prop where
  mem : e ∈ c.theBlocks r.theSet
  way_eq : e.way = r.theBlock
  absent : e.tag ≠ r.theAddress →
    r.theState = .invalid ∧ ∀ d ∈ c.theBlocks r.theSet, d.tag ≠ r.theAddress

theorem Resolves.block_eq {c : StdCache g} {r : LookupResult g} {e : BlockEntry}
    (h : c.Resolves r e) : c.block r = some e := by
  rw [block, ← h.way_eq]
  exact BlockSet.atWay_of_mem (c.wf _).ways_nodup h.mem

theorem Resolves.getState_eq {c : StdCache g} {r : LookupResult g} {e : BlockEntry}
    (h : c.Resolves r e) : c.getState r = c.stateOf r.theAddress := by
  rw [getState, h.block_eq, stateOf, r.isHome]
  by_cases ht : e.tag = r.theAddress
  · rw [← ht, BlockSet.stateOf_of_mem (c.wf _).tags_nodup h.mem]
    exact if_pos rfl
  · obtain ⟨hs, hd⟩ := h.absent ht
    rw [BlockSet.stateOf_of_forall hd, ← hs]
    exact if_neg ht

theorem Resolves.tag_eq {c : StdCache g} {r : LookupResult g} {e : BlockEntry}
    (h : c.Resolves r e) (hs : c.stateOf r.theAddress ≠ .invalid) : e.tag = r.theAddress := by
  by_contra ht
  apply hs
  rw [stateOf, r.isHome]
  exact BlockSet.stateOf_of_forall (h.absent ht).2

/-- **Looking a block up changes no state**, and the result is good. -/
theorem lookup_spec (c : StdCache g) (a : ℕ) :
    (c.lookup a).1.stateOf = c.stateOf ∧ (c.lookup a).2.theAddress = g.getTag a ∧
      ∃ e, (c.lookup a).1.Resolves (c.lookup a).2 e := by
  rw [lookup]
  split
  · rename_i e he
    have hm : e ∈ c.theBlocks (g.getSet a) := mem_of_find?_eq_some he
    have ht : e.tag = g.getTag a := by simpa using find?_some he
    exact ⟨rfl, rfl, e, hm, rfl, fun hc => absurd ht hc⟩
  · rename_i he
    have hfresh : ∀ d ∈ c.theBlocks (g.getSet a), d.tag ≠ g.getTag a := by
      simpa [BlockSet.findTag] using he
    split
    · rename_i hl
      have hwf := (c.wf _).pushFront hl hfresh (g.getTag_getTag a) (g.getSet_getTag a)
      refine ⟨stateOf_setBlocks_eq c hwf (BlockSet.stateOf_pushFront hfresh _), rfl,
        ⟨g.getTag a, .invalid, _⟩, ?_, rfl, fun hc => absurd rfl hc⟩
      simp
    · rename_i hl
      obtain ⟨e, l, hel⟩ : ∃ e l, c.theBlocks (g.getSet a) = e :: l := by
        refine exists_cons_of_ne_nil fun hc => hl ?_
        rw [hc]
        exact g.assoc_pos
      refine ⟨rfl, rfl, e, ?_, ?_, fun _ => ⟨rfl, hfresh⟩⟩
      · simp [hel]
      · simp [hel]

/-- **Changing the state of a block that is in the array** changes that and
nothing else. -/
theorem stateOf_changeState {c : StdCache g} {r : LookupResult g} {e : BlockEntry}
    (h : c.Resolves r e) (ht : e.tag = r.theAddress) (s : CoherenceState) (mru lru : Bool) :
    (c.changeState r s mru lru).stateOf = update c.stateOf r.theAddress s := by
  have hc : (c.changeBlockState r s).stateOf = update c.stateOf r.theAddress s := by
    have hl := BlockSet.stateOf_changeBlockState (c.wf _) h.mem s
    rw [h.way_eq, ht] at hl
    rw [changeBlockState, stateOf_setBlocks_update c _ r.isHome c.stateOf]
    · rw [hl, update_self]
    · intro b hb hne
      rw [hl, update_of_ne hne, stateOf, hb]
    · exact fun _ _ => rfl
  rw [changeState]
  split
  · rw [stateOf_updateLRU, hc]
  · split
    · rw [stateOf_makeBlockLRU, hc]
    · exact hc

/-- **Replacing a block** by one that is not in the array succeeds. -/
theorem replaceBlock_spec {c : StdCache g} {r : LookupResult g} {e : BlockEntry}
    (h : c.Resolves r e) (ht : e.tag ≠ r.theAddress) (s : CoherenceState) :
    ∃ c', c.replaceBlock r s = .ok c' ∧ c'.stateOf =
      update (update c.stateOf e.tag .invalid) r.theAddress s := by
  obtain ⟨-, hfresh⟩ := h.absent ht
  refine ⟨_, dif_pos hfresh, ?_⟩
  have hl := BlockSet.stateOf_replaceBlock (c.wf _) h.mem hfresh r.isTag r.isHome s
  rw [h.way_eq] at hl
  rw [stateOf_setBlocks_update c _ r.isHome (update c.stateOf e.tag .invalid)]
  · rw [hl, update_self]
  · intro b hb hne
    rw [hl, update_of_ne hne]
    by_cases hbe : b = e.tag
    · subst hbe
      rw [update_self, update_self]
    · rw [update_of_ne hbe, update_of_ne hbe, stateOf, hb]
  · intro b hb
    refine update_of_ne (fun hc => hb ?_) _ _
    rw [hc]
    exact (c.wf _).isHome e h.mem

end StdCache

end Flexus
