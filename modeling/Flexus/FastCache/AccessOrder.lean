import Flexus.Cache.StdArray

/-!
# The replacement order of the functional array

An access to the array of a functional cache, as the coherence actions make it
(`components/FastCache/CoherenceProtocol.hpp`): a lookup, then `updateLRU` of a block that
is valid, or `allocate` of one that is not. What the array calls `evict` for is the victim.

The entries of a set are kept in the order of their use, but a set is not full from the
start: an entry is made when there is room for it. The array is a cache in the sense of
`Flexus.Lib.Replaces` in every state.
-/

namespace Flexus

open Function List

open Cache

/-- The state of a functional cache that stands for a state of the timing caches. -/
def Cache.BasicState.toCoherenceState : BasicState → CoherenceState
  | .modified => .modified
  | .owned => .owned
  | .exclusive => .exclusive
  | .shared => .shared
  | .invalid => .invalid

theorem Cache.BasicState.toCoherenceState_ne_invalid {s : BasicState} (h : s ≠ .invalid) :
    s.toCoherenceState ≠ .invalid := by
  cases s with
  | invalid => exact absurd rfl h
  | _ => exact nofun

namespace BlockSet

/-- What the order of use tells of an entry. -/
def slot (e : BlockEntry) : ℕ × Bool := (e.tag, e.state.isValid)

/-- The order of use of a set. -/
def recency (l : BlockSet) : List (ℕ × Bool) := l.map slot

theorem toTail_map {p q : BlockSet} {e : BlockEntry} {f : BlockEntry → BlockEntry}
    (hf : ∀ d, (f d).way = d.way) (h : ((p ++ e :: q).map BlockEntry.way).Nodup) :
    toTail ((p ++ e :: q).map fun d => if d.way = e.way then f d else d) e.way =
      p ++ q ++ [f e] := by
  rw [map_append, map_cons, nodup_middle, nodup_cons, ← map_append] at h
  have hne : ∀ d ∈ p ++ q, d.way ≠ e.way := fun d hd hc =>
    h.1 (mem_map.mpr ⟨d, hd, hc⟩)
  have hmap : ∀ l : BlockSet, (∀ d ∈ l, d.way ≠ e.way) →
      l.map (fun d => if d.way = e.way then f d else d) = l := by
    intro l hl
    exact (map_congr_left fun d hd => if_neg (hl d hd)).trans (map_id' l)
  have hp : ∀ d ∈ p, d.way ≠ e.way := fun d hd => hne d (mem_append_left _ hd)
  have hq : ∀ d ∈ q, d.way ≠ e.way := fun d hd => hne d (mem_append_right _ hd)
  have hkeep : ∀ l : BlockSet, (∀ d ∈ l, d.way ≠ e.way) →
      l.filter (fun d => d.way ≠ e.way) = l ∧ l.filter (fun d => d.way = e.way) = [] := by
    intro l hl
    constructor
    · exact filter_eq_self.mpr fun d hd => by simpa using hl d hd
    · exact filter_eq_nil_iff.mpr fun d hd => by simpa using hl d hd
  rw [map_append, map_cons, hmap p hp, hmap q hq, if_pos rfl, toTail]
  simp only [filter_append]
  rw [filter_cons_of_neg (by simp [hf]), filter_cons_of_pos (by simp [hf]),
    (hkeep p hp).1, (hkeep p hp).2, (hkeep q hq).1, (hkeep q hq).2]
  simp

end BlockSet

namespace StdCache

variable {g : Geometry}

/-- **One access to the functional array**, and the block that is evicted for it. -/
def access (c : StdCache g) (x : StdArray.Access) : Option (StdCache g × Option ℕ) :=
  let (c, r) := c.lookup x.address
  if (c.getState r).isValid then some (c.updateLRU r, none)
  else
    match allocate Prod.fst (fun s c => (c, s.2)) (fun s t _ => .ok (s.1, some t)) (c, none) r
      x.state.toCoherenceState with
    | .ok s => some s
    | .error _ => none

/-- The order of use of a set. -/
def recency (c : StdCache g) (i : ℕ) : List (ℕ × Bool) := (c.theBlocks i).recency

theorem recency_setBlocks (c : StdCache g) {i : ℕ} {l : BlockSet} (h : l.WF g i) :
    (c.setBlocks i l h).recency = update c.recency i l.recency := by
  funext j
  by_cases hj : j = i
  · subst hj
    simp only [recency, theBlocks_setBlocks, update_self]
  · simp only [recency, theBlocks_setBlocks, update_of_ne hj]

theorem updateLRU_of_mem {c : StdCache g} {r : LookupResult g} {p q : BlockSet} {e : BlockEntry}
    (hl : c.theBlocks r.theSet = p ++ e :: q) (hw : r.theBlock = e.way) :
    (c.updateLRU r).recency =
      update c.recency r.theSet ((p ++ q).recency ++ [BlockSet.slot e]) := by
  have hnodup := (c.wf r.theSet).ways_nodup
  rw [hl] at hnodup
  have h := BlockSet.toTail_map (f := id) (fun _ => rfl) hnodup
  simp only [id, ite_self, map_id'] at h
  rw [updateLRU, recency_setBlocks, hl, hw, h, BlockSet.recency, map_append]
  rfl

/-- An entry that a lookup result points at gets another state and is used. -/
theorem changeBlockState_updateLRU_of_mem {c : StdCache g} {r : LookupResult g} {p q : BlockSet}
    {e : BlockEntry} (hl : c.theBlocks r.theSet = p ++ e :: q) (hw : r.theBlock = e.way)
    (z : CoherenceState) : ((c.changeBlockState r z).updateLRU r).recency =
      update c.recency r.theSet ((p ++ q).recency ++ [(e.tag, z.isValid)]) := by
  have hnodup := (c.wf r.theSet).ways_nodup
  rw [hl] at hnodup
  have h := BlockSet.toTail_map (f := fun d => { d with state := z }) (fun _ => rfl) hnodup
  rw [updateLRU, recency_setBlocks, changeBlockState, recency_setBlocks, update_idem,
    theBlocks_setBlocks, update_self, BlockSet.changeBlockState, hl, hw, h,
    BlockSet.recency, map_append]
  rfl

/-- An entry that a lookup result points at gets another block and is used. -/
theorem replaceBlock_updateLRU_of_mem {c : StdCache g} {r : LookupResult g} {p q : BlockSet}
    {e : BlockEntry} (hl : c.theBlocks r.theSet = p ++ e :: q) (hw : r.theBlock = e.way)
    (hnew : ∀ d ∈ c.theBlocks r.theSet, d.tag ≠ r.theAddress) (z : CoherenceState) :
    ∃ c', c.replaceBlock r z = .ok c' ∧ (c'.updateLRU r).recency =
      update c.recency r.theSet ((p ++ q).recency ++ [(r.theAddress, z.isValid)]) := by
  have hnodup := (c.wf r.theSet).ways_nodup
  rw [hl] at hnodup
  have h := BlockSet.toTail_map (f := fun d => { d with tag := r.theAddress, state := z })
    (fun _ => rfl) hnodup
  refine ⟨_, dif_pos hnew, ?_⟩
  rw [updateLRU, recency_setBlocks, recency_setBlocks, update_idem,
    theBlocks_setBlocks, update_self, BlockSet.replaceBlock, hl, hw, h,
    BlockSet.recency, map_append]
  rfl

/-! ### The lookup of an access -/

/-- What is known of the entry that a lookup points at. -/
structure Points (c : StdCache g) (r : LookupResult g) (a : ℕ) (p q : BlockSet) (e : BlockEntry) :
    Prop where
  theSet_eq : r.theSet = g.getSet a
  theAddress_eq : r.theAddress = g.getTag a
  theBlock_eq : r.theBlock = e.way
  split : c.theBlocks r.theSet = p ++ e :: q

theorem Points.block_eq {c : StdCache g} {r : LookupResult g} {a : ℕ} {p q : BlockSet}
    {e : BlockEntry} (h : c.Points r a p q e) : c.block r = some e := by
  rw [block, h.theBlock_eq]
  refine BlockSet.atWay_of_mem (c.wf _).ways_nodup ?_
  rw [h.split]
  simp

theorem Points.getState_eq {c : StdCache g} {r : LookupResult g} {a : ℕ} {p q : BlockSet}
    {e : BlockEntry} (h : c.Points r a p q e) :
    c.getState r = if e.tag = r.theAddress then e.state else r.theState := by
  rw [getState, h.block_eq]

theorem lookup_of_findTag {c : StdCache g} {a : ℕ} {e : BlockEntry}
    (hf : (c.theBlocks (g.getSet a)).findTag (g.getTag a) = some e) :
    ∃ r p q, c.lookup a = (c, r) ∧ c.Points r a p q e ∧ e.tag = r.theAddress := by
  obtain ⟨p, q, hpq⟩ := append_of_mem (mem_of_find?_eq_some hf)
  have ht : e.tag = g.getTag a := by simpa using find?_some hf
  refine ⟨⟨g.getTag a, e.state, g.getSet a, e.way, g.getTag_getTag a, g.getSet_getTag a⟩, p, q,
    ?_, ⟨rfl, rfl, rfl, hpq⟩, ht⟩
  rw [lookup]
  split
  · rename_i d hd
    obtain rfl : d = e := Option.some.inj (hd.symm.trans hf)
    rfl
  · rename_i hd
    cases hd.symm.trans hf

/-- The lookup of a block that has no entry, while there is room for one. -/
theorem lookup_of_lt {c : StdCache g} {a : ℕ}
    (hf : (c.theBlocks (g.getSet a)).findTag (g.getTag a) = none)
    (hl : (c.theBlocks (g.getSet a)).length < g.theAssoc) :
    ∃ c' r e, c.lookup a = (c', r) ∧ c'.Points r a [] (c.theBlocks (g.getSet a)) e ∧
      e.tag = r.theAddress ∧ e.state = .invalid ∧
      c'.recency = update c.recency (g.getSet a) (c'.recency (g.getSet a)) := by
  have hfresh : ∀ d ∈ c.theBlocks (g.getSet a), d.tag ≠ g.getTag a := by
    simpa [BlockSet.findTag] using hf
  have hwf := (c.wf _).pushFront hl hfresh (g.getTag_getTag a) (g.getSet_getTag a)
  refine ⟨c.setBlocks (g.getSet a) (⟨g.getTag a, .invalid, _⟩ :: c.theBlocks (g.getSet a)) hwf,
    ⟨g.getTag a, .invalid, g.getSet a, (c.theBlocks (g.getSet a)).length, g.getTag_getTag a,
      g.getSet_getTag a⟩, ⟨g.getTag a, .invalid, _⟩, ?_, ⟨rfl, rfl, rfl, ?_⟩, rfl, rfl, ?_⟩
  · rw [lookup]
    split
    · rename_i d hd
      cases hf.symm.trans hd
    · rw [dif_pos hl]
  · rw [theBlocks_setBlocks, update_self]
    rfl
  · rw [recency_setBlocks, update_self]

/-- The lookup of a block that has no entry when there is no room for one. -/
theorem lookup_of_le {c : StdCache g} {a : ℕ}
    (hf : (c.theBlocks (g.getSet a)).findTag (g.getTag a) = none)
    (hl : ¬ (c.theBlocks (g.getSet a)).length < g.theAssoc) :
    ∃ r e q, c.lookup a = (c, r) ∧ c.Points r a [] q e ∧ r.theState = .invalid := by
  obtain ⟨e, q, heq⟩ : ∃ e q, c.theBlocks (g.getSet a) = e :: q := by
    refine exists_cons_of_ne_nil fun hc => hl ?_
    rw [hc]
    exact g.assoc_pos
  refine ⟨⟨g.getTag a, .invalid, g.getSet a, e.way, g.getTag_getTag a, g.getSet_getTag a⟩, e, q,
    ?_, ⟨rfl, rfl, rfl, heq⟩, rfl⟩
  rw [lookup]
  split
  · rename_i d hd
    cases hf.symm.trans hd
  · rw [heq] at hl
    simp only [heq, head?_cons, Option.map_some, Option.getD_some]
    exact dif_neg hl

/-! ### Accesses -/

theorem access_of_valid {c c' : StdCache g} {r : LookupResult g} {x : StdArray.Access}
    (hlook : c.lookup x.address = (c', r)) (hv : (c'.getState r).isValid = true) :
    c.access x = some (c'.updateLRU r, none) := by
  rw [access, hlook]
  exact if_pos hv

theorem access_of_entry {c c' : StdCache g} {r : LookupResult g} {x : StdArray.Access}
    {e : BlockEntry} (hlook : c.lookup x.address = (c', r)) (hv : (c'.getState r).isValid = false)
    (hb : c'.block r = some e) (ht : e.tag = r.theAddress) :
    c.access x =
      some ((c'.changeBlockState r x.state.toCoherenceState).updateLRU r, none) := by
  rw [access, hlook]
  simp only [hv, allocate, hb, ht, ne_eq, not_true, if_false, Bool.false_eq_true]
  rfl

theorem access_of_other {c c' c'' : StdCache g} {r : LookupResult g} {x : StdArray.Access}
    {e : BlockEntry} (hlook : c.lookup x.address = (c', r)) (hv : (c'.getState r).isValid = false)
    (hb : c'.block r = some e) (ht : e.tag ≠ r.theAddress)
    (hr : c'.replaceBlock r x.state.toCoherenceState = .ok c'') :
    c.access x = some (c''.updateLRU r,
      (Lib.givenUp (· = true) (BlockSet.slot e)).map Prod.fst) := by
  rw [access, hlook, Lib.givenUp, BlockSet.slot]
  simp only [hv, allocate, hb, ht, ne_eq, not_false_iff, if_true, if_false, Bool.false_eq_true]
  by_cases he : e.state.isValid = true
  · rw [if_pos he, if_pos he]
    simp only [bind, Except.bind, pure, Except.pure, hr]
    rfl
  · rw [if_neg he, if_neg he]
    simp only [bind, Except.bind, pure, Except.pure, hr]
    rfl

theorem not_mem_recency_of_tag {c : StdCache g} {i : ℕ} {e : BlockEntry}
    (he : e ∈ c.theBlocks i) (hv : e.state.isValid = false) :
    ∀ y, y = true → (e.tag, y) ∉ c.recency i := by
  rintro y rfl hy
  obtain ⟨d, hd, hde⟩ := mem_map.mp hy
  rw [BlockSet.slot, Prod.mk.injEq] at hde
  rw [BlockSet.eq_of_tag_eq (c.wf i).tags_nodup hd he hde.1, hv] at hde
  exact absurd hde.2 nofun

/-- **The functional array replaces the least recently used.** -/
theorem replaces (g : Geometry) :
    Lib.Replaces g.theAssoc (fun x : StdArray.Access => g.getTag x.address) g.getSet
      (fun _ : StdCache g => True) recency access where
  uses c x _ := by
    have hset : g.getSet (g.getTag x.address) = g.getSet x.address := g.getSet_getTag _
    have hz : x.state.toCoherenceState.isValid = true :=
      CoherenceState.isValid_iff.mpr (BasicState.toCoherenceState_ne_invalid x.valid)
    rw [hset]
    rcases hf : (c.theBlocks (g.getSet x.address)).findTag (g.getTag x.address) with _ | e
    · have hfresh : ∀ d ∈ c.theBlocks (g.getSet x.address), d.tag ≠ g.getTag x.address := by
        simpa [BlockSet.findTag] using hf
      have hnew : g.getTag x.address ∉ (c.recency (g.getSet x.address)).map Prod.fst := by
        intro hc
        obtain ⟨y, hy, hyt⟩ := mem_map.mp hc
        obtain ⟨d, hd, rfl⟩ := mem_map.mp hy
        exact hfresh d hd hyt
      by_cases hlen : (c.theBlocks (g.getSet x.address)).length < g.theAssoc
      · -- an entry is made
        obtain ⟨c', r, e, hlook, hpt, ht, hi, hrec⟩ := lookup_of_lt hf hlen
        have hv : (c'.getState r).isValid = false := by
          rw [hpt.getState_eq, if_pos ht, hi]
          rfl
        refine ⟨_, _, none, access_of_entry hlook hv hpt.block_eq ht, trivial, .grow hnew ?_, ?_⟩
        · rw [recency, BlockSet.recency, length_map]
          exact hlen
        · rw [changeBlockState_updateLRU_of_mem hpt.split hpt.theBlock_eq, hpt.theSet_eq, ht,
            hpt.theAddress_eq, hz, hrec, update_idem]
          rfl
      · -- the least recently used block is replaced
        obtain ⟨r, e, q, hlook, hpt, hs⟩ := lookup_of_le hf hlen
        have hsplit := hpt.split
        rw [hpt.theSet_eq, nil_append] at hsplit
        have ht : e.tag ≠ r.theAddress := by
          rw [hpt.theAddress_eq]
          refine hfresh e ?_
          rw [hsplit]
          exact mem_cons_self
        have hv : (c.getState r).isValid = false := by
          rw [hpt.getState_eq, if_neg ht, hs]
          rfl
        obtain ⟨c'', hc'', hrec⟩ := replaceBlock_updateLRU_of_mem hpt.split hpt.theBlock_eq (by
          rw [hpt.theSet_eq, hpt.theAddress_eq]
          exact hfresh) x.state.toCoherenceState
        rw [hpt.theSet_eq, hpt.theAddress_eq, hz] at hrec
        have hr : c.recency (g.getSet x.address) = BlockSet.slot e :: BlockSet.recency q := by
          rw [recency, hsplit]
          rfl
        refine ⟨_, _, _, access_of_other hlook hv hpt.block_eq ht hc'', trivial, ?_, hrec⟩
        rw [hr] at hnew ⊢
        refine .replace hnew ?_
        rw [← hr, recency, BlockSet.recency, length_map]
        omega
    · -- the block has an entry
      obtain ⟨r, p, q, hlook, hpt, ht⟩ := lookup_of_findTag hf
      have htag : e.tag = g.getTag x.address := ht.trans hpt.theAddress_eq
      have hst : c.getState r = e.state := by rw [hpt.getState_eq, if_pos ht]
      have hr : c.recency (g.getSet x.address) =
          BlockSet.recency p ++ (g.getTag x.address, e.state.isValid) :: BlockSet.recency q := by
        rw [recency, ← hpt.theSet_eq, hpt.split, BlockSet.recency, map_append, ← htag]
        rfl
      cases hv : e.state.isValid with
      | true =>
        refine ⟨_, _, none, access_of_valid hlook (by rw [hst, hv]), trivial, ?_,
          (updateLRU_of_mem hpt.split hpt.theBlock_eq).trans (by rw [hpt.theSet_eq])⟩
        rw [hr, BlockSet.slot, htag, hv, BlockSet.recency, BlockSet.recency, BlockSet.recency,
          map_append]
        exact .hit rfl
      | false =>
        refine ⟨_, _, none, access_of_entry hlook (by rw [hst, hv]) hpt.block_eq ht, trivial, ?_,
          (changeBlockState_updateLRU_of_mem hpt.split hpt.theBlock_eq _).trans
            (by rw [hpt.theSet_eq])⟩
        have hmem : e ∈ c.theBlocks (g.getSet x.address) := mem_of_find?_eq_some hf
        have hno := not_mem_recency_of_tag hmem hv
        rw [htag, hr, hv] at hno
        rw [hr, htag, hz, hv, BlockSet.recency, BlockSet.recency, BlockSet.recency, map_append]
        exact .refill hno

end StdCache

end Flexus
