import Flexus.FastCache.InvalidFirst
import Flexus.FastCache.RegionConsistency

/-!
# What a miss evicts

Both arrays keep their invalid entries in front, so that the entry that they take for a miss is a
valid one only if there is no other. But the set-associative array takes the entry at the lookup,
and evicts it when the cache below has answered: a snoop that comes in between may invalidate
another. And a region tracker evicts, besides, the blocks of a region that leaves its buffer.
-/

namespace Flexus

open Function Lib

open FastCache

namespace BlockSet

/-- The sets of an array stay in order when one of them is exchanged. -/
theorem forall_update {P : BlockSet → Prop} {B : ℕ → BlockSet} (h : ∀ j, P (B j)) {i : ℕ}
    {l : BlockSet} (hl : P l) (j : ℕ) : P (update B i l j) := by
  by_cases hj : j = i
  · rw [hj, update_self]
    exact hl
  · rw [update_of_ne hj]
    exact h j

end BlockSet

/-! ### The set-associative array -/

namespace StdCache

variable {g : Geometry} {c c' t : StdCache g} {r : LookupResult g} {a : ℕ} {z : CoherenceState}

/-- The invalid entries of every set are in front. -/
def InvalidFirst (c : StdCache g) : Prop := ∀ i, (c.theBlocks i).InvalidFirst

theorem invalidFirst_empty : (empty g).InvalidFirst := fun _ => List.Pairwise.nil

/-- **A lookup** may make an invalid entry, and points at the entry of its block or else at the
entry in front. -/
theorem lookup_entry (hl : c.lookup a = (c', r)) :
    (∀ i, c'.theBlocks i = c.theBlocks i ∨
      ∃ e : BlockEntry, e.state = .invalid ∧ c'.theBlocks i = e :: c.theBlocks i) ∧
    ∃ e ∈ c'.theBlocks r.theSet, e.way = r.theBlock ∧
      (e.tag ≠ r.theAddress → r.theState = .invalid ∧ ∃ q, c'.theBlocks r.theSet = e :: q) := by
  rw [lookup] at hl
  split at hl
  · rename_i e he
    cases hl
    have ht : e.tag = g.getTag a := by simpa using List.find?_some he
    exact ⟨fun _ => .inl rfl, e, List.mem_of_find?_eq_some he, rfl, fun hc => absurd ht hc⟩
  · split at hl
    · cases hl
      refine ⟨fun i => ?_, ⟨g.getTag a, .invalid, (c.theBlocks (g.getSet a)).length⟩, ?_, rfl,
        fun hc => absurd rfl hc⟩
      · by_cases hi : i = g.getSet a
        · subst hi
          exact .inr ⟨_, rfl, by rw [theBlocks_setBlocks, update_self]⟩
        · exact .inl (by rw [theBlocks_setBlocks, update_of_ne hi])
      · rw [theBlocks_setBlocks, update_self]
        exact List.mem_cons_self
    · rename_i hlen
      cases hl
      obtain ⟨e, q, heq⟩ : ∃ e q, c.theBlocks (g.getSet a) = e :: q := by
        refine List.exists_cons_of_ne_nil fun hc => hlen ?_
        rw [hc]
        exact g.assoc_pos
      refine ⟨fun _ => .inl rfl, e, ?_, ?_, fun _ => ⟨rfl, q, heq⟩⟩
      · simp [heq]
      · simp [heq]

/-- The entry that a result for a valid block points at is valid. -/
theorem valid_of_getState (hl : c.lookup a = (c', r)) (hv : c'.getState r ≠ .invalid) :
    ∀ d ∈ c'.theBlocks r.theSet, d.way = r.theBlock → d.state ≠ .invalid := by
  obtain ⟨-, e, he, hw, habsent⟩ := lookup_entry hl
  intro d hd hdw
  obtain rfl : d = e := BlockSet.eq_of_way_eq (c'.wf _).ways_nodup hd he (hdw.trans hw.symm)
  have hb : c'.block r = some d := by
    rw [block, ← hw]
    exact BlockSet.atWay_of_mem (c'.wf _).ways_nodup hd
  rw [getState, hb] at hv
  by_cases ht : d.tag = r.theAddress
  · simpa only [ht, if_true] using hv
  · simp only [ht, if_false] at hv
    exact absurd (habsent ht).1 hv

theorem InvalidFirst.lookup (h : c.InvalidFirst) (hl : c.lookup a = (c', r)) :
    c'.InvalidFirst := by
  intro i
  rcases (lookup_entry hl).1 i with hi | ⟨e, he, hi⟩
  · rw [hi]
    exact h i
  · rw [hi]
    exact (h i).cons he

theorem InvalidFirst.setBlocks (h : c.InvalidFirst) {i : ℕ} {l : BlockSet} (hwf : l.WF g i)
    (hl : l.InvalidFirst) : (c.setBlocks i l hwf).InvalidFirst :=
  BlockSet.forall_update h hl

theorem InvalidFirst.changeBlockState_updateLRU (h : c.InvalidFirst) (hz : z ≠ .invalid) :
    ((c.changeBlockState r z).updateLRU r).InvalidFirst := by
  intro i
  rw [updateLRU, changeBlockState, theBlocks_setBlocks, theBlocks_setBlocks, update_self,
    update_idem]
  exact BlockSet.forall_update h ((h _).toTail_map (f := fun d => { d with state := z })
    (fun _ => rfl) fun _ _ _ => hz) i

theorem InvalidFirst.changeBlockState_makeBlockLRU (h : c.InvalidFirst)
    (hl : BlockSet.InvalidFirst
      (((c.theBlocks r.theSet).changeBlockState r.theBlock z).toHead r.theBlock)) :
    ((c.changeBlockState r z).makeBlockLRU r).InvalidFirst := by
  intro i
  rw [makeBlockLRU, changeBlockState, theBlocks_setBlocks, theBlocks_setBlocks,
    update_self, update_idem]
  exact BlockSet.forall_update h hl i

theorem InvalidFirst.replaceBlock_updateLRU (h : c.InvalidFirst) (hz : z ≠ .invalid)
    (hr : c.replaceBlock r z = .ok c') : (c'.updateLRU r).InvalidFirst := by
  rw [replaceBlock] at hr
  split at hr
  · cases hr
    intro i
    rw [updateLRU, theBlocks_setBlocks, theBlocks_setBlocks, update_self, update_idem]
    exact BlockSet.forall_update h ((h _).toTail_map
      (f := fun d => { d with tag := r.theAddress, state := z }) (fun _ => rfl) fun _ _ _ => hz) i
  · cases hr

theorem allocate_cases (h : (stdCache g).allocate c r z = .ok t) :
    (∃ c', c.replaceBlock r z = .ok c' ∧ t = c'.updateLRU r) ∨
      t = (c.changeBlockState r z).updateLRU r := by
  simp only [stdCache, allocate, id] at h
  split at h
  · cases h
  · split at h
    · have h : (c.replaceBlock r z >>= fun c => pure (c.updateLRU r)) = .ok t := by
        split at h <;> exact h
      obtain ⟨c', hc', h⟩ := exists_of_bind_eq_ok h
      cases h
      exact .inl ⟨c', hc', rfl⟩
    · cases h
      exact .inr rfl

/-- **The set-associative array keeps its invalid entries in front.** -/
theorem keepsInvalidFirst : (stdCache g).KeepsInvalidFirst InvalidFirst where
  lookup h hl := h.lookup (Except.ok.inj hl)
  updateLRU {c c' t r a} h hl hv ht := by
    cases ht
    have h' := h.lookup (Except.ok.inj hl)
    exact h'.setBlocks _ ((h' _).toTail (valid_of_getState (Except.ok.inj hl) hv))
  changeInPlace {c c' t r a z} h hl hv hz ht := by
    cases ht
    have h' := h.lookup (Except.ok.inj hl)
    exact h'.setBlocks ((c'.wf _).changeBlockState r.theBlock z)
      ((h' _).changeBlockState hz (valid_of_getState (Except.ok.inj hl) hv))
  makeMRU {c t r z} h hz ht := by
    cases ht
    exact h.changeBlockState_updateLRU hz
  invalidate {c t r} h ht := by
    cases ht
    exact h.changeBlockState_makeBlockLRU ((h _).toHead_map
      (f := fun d => { d with state := .invalid }) (fun _ => rfl) fun _ _ _ => rfl)
  makeLRU {c t r z} h hv hz ht := by
    cases ht
    exact h.changeBlockState_makeBlockLRU (BlockSet.InvalidFirst.toHead_valid hz hv)
  allocate {c t r z} h hz ht := by
    rcases allocate_cases ht with ⟨c', hc', rfl⟩ | rfl
    · exact h.replaceBlock_updateLRU hz hc'
    · exact h.changeBlockState_updateLRU hz

/-- **The eviction of an allocation** is what the array calls `evict` for. -/
theorem evict_calls (c₁ c : StdCache g) (r : LookupResult g) (z : CoherenceState)
    (calls : List (ℕ × CoherenceState)) :
    allocate Prod.fst (fun s c => (c, s.2)) (fun s tag st => .ok (s.1, s.2 ++ [(tag, st)]))
        (c, calls) r z =
      ((stdCache g).allocate c r z).map fun c' => (c', calls ++
        ((stdCache g).replaced c₁ c r).toList.map fun v => (v.block.tag, v.block.state)) := by
  simp only [stdCache, allocate, id]
  cases hb : c.block r with
  | none => rfl
  | some e =>
    by_cases ht : e.tag ≠ r.theAddress
    · by_cases hv : e.state.isValid = true
      · simp only [if_pos ht, if_pos hv, bind, Option.bind, if_pos (And.intro ht hv)]
        cases hr : c.replaceBlock r z <;> simp [Except.bind, Except.map, hr, pure, Except.pure]
      · simp only [if_pos ht, if_neg hv, bind, Option.bind, if_neg fun h : _ ∧ _ => hv h.2]
        cases hr : c.replaceBlock r z <;> simp [Except.bind, Except.map, hr, pure, Except.pure]
    · simp only [if_neg ht, bind, Option.bind, if_neg fun h : _ ∧ _ => ht h.1]
      simp [Except.map, pure, Except.pure]

/-! #### Snoops while a request waits -/

/-- **A state in which every valid entry has been valid before**, with the same block. -/
def Outlived (c c' : StdCache g) : Prop :=
  ∀ i, ∀ e ∈ c'.theBlocks i, e.state ≠ .invalid →
    ∃ d ∈ c.theBlocks i, d.way = e.way ∧ d.tag = e.tag ∧ d.state ≠ .invalid

theorem Outlived.refl (c : StdCache g) : c.Outlived c := fun _ e he hv => ⟨e, he, rfl, rfl, hv⟩

theorem Outlived.trans (h : c.Outlived c') (h' : c'.Outlived t) : c.Outlived t := by
  intro i e he hv
  obtain ⟨d, hd, hw, ht, hv⟩ := h' i e he hv
  obtain ⟨b, hb, hw', ht', hv⟩ := h i d hd hv
  exact ⟨b, hb, hw'.trans hw, ht'.trans ht, hv⟩

theorem outlived_lookup (hl : c.lookup a = (c', r)) : c.Outlived c' := by
  intro i e he hv
  rcases (lookup_entry hl).1 i with hi | ⟨b, hb, hi⟩
  · rw [hi] at he
    exact ⟨e, he, rfl, rfl, hv⟩
  · rw [hi] at he
    rcases List.mem_cons.mp he with rfl | he
    · exact absurd hb hv
    · exact ⟨e, he, rfl, rfl, hv⟩

theorem theBlocks_changeState (c : StdCache g) (r : LookupResult g) (z : CoherenceState)
    (makeMRU makeLRU : Bool) : ∃ l : BlockSet,
      l.Perm ((c.theBlocks r.theSet).changeBlockState r.theBlock z) ∧
      (c.changeState r z makeMRU makeLRU).theBlocks = update c.theBlocks r.theSet l := by
  have hset : ((c.changeBlockState r z).theBlocks r.theSet) =
      (c.theBlocks r.theSet).changeBlockState r.theBlock z := update_self ..
  rw [changeState]
  split
  · refine ⟨_, (BlockSet.toTail_perm _ r.theBlock).trans (.of_eq hset), ?_⟩
    rw [updateLRU, theBlocks_setBlocks, changeBlockState, theBlocks_setBlocks, update_idem]
  · split
    · refine ⟨_, (BlockSet.toHead_perm _ r.theBlock).trans (.of_eq hset), ?_⟩
      rw [makeBlockLRU, theBlocks_setBlocks, changeBlockState, theBlocks_setBlocks, update_idem]
    · exact ⟨_, .refl _, rfl⟩

theorem outlived_changeState (hv : ∀ d ∈ c.theBlocks r.theSet, d.way = r.theBlock →
    d.state ≠ .invalid) (makeMRU makeLRU : Bool) :
    c.Outlived (c.changeState r z makeMRU makeLRU) := by
  obtain ⟨l, hp, hl⟩ := theBlocks_changeState c r z makeMRU makeLRU
  intro i e he hne
  rw [hl] at he
  by_cases hi : i = r.theSet
  · subst hi
    rw [update_self] at he
    obtain ⟨d, hd, rfl⟩ := List.mem_map.mp (hp.mem_iff.mp he)
    by_cases hw : d.way = r.theBlock
    · exact ⟨d, hd, by rw [if_pos hw], by rw [if_pos hw], hv d hd hw⟩
    · rw [if_neg hw] at hne
      exact ⟨d, hd, by rw [if_neg hw], by rw [if_neg hw], hne⟩
  · rw [update_of_ne hi] at he
    exact ⟨e, he, rfl, rfl, hne⟩

theorem outlived_snoopIn {cfg : Config} {x : SnoopEvent}
    (h : (stdCache g).snoopIn cfg c x = .ok t) : c.Outlived t := by
  obtain ⟨c', r, a, effect, u, q, hl, ha, he, happly, hl'⟩ := AbstractCache.snoopIn_cases h
  refine (outlived_lookup (Except.ok.inj hl)).trans
    (.trans ?_ (outlived_lookup (Except.ok.inj hl')))
  have hchange : c'.getState r ≠ .invalid → ∀ z mru lru,
      (stdCache g).changeState c' r z mru lru = .ok u → c'.Outlived u := by
    intro hv z mru lru hu
    cases hu
    exact outlived_changeState (valid_of_getState (Except.ok.inj hl) hv) mru lru
  rcases snoopEffect_spec ha he with rfl | ⟨hv, rfl | ⟨z, hz, rfl | ⟨rfl, hm⟩⟩⟩
  · cases happly
    exact .refl c'
  all_goals exact hchange hv _ _ _ happly

theorem outlived_snoopsIn {cfg : Config} {xs : List SnoopEvent}
    (h : (stdCache g).snoopsIn cfg c xs = .ok t) : c.Outlived t := by
  induction xs generalizing c with
  | nil =>
    cases h
    exact .refl _
  | cons x xs ih =>
    obtain ⟨u, hu, h⟩ := exists_of_bind_eq_ok h
    exact (outlived_snoopIn hu).trans (ih h)

/-- **The valid block that a miss evicts** has been chosen when there was no invalid entry. -/
theorem chosen_of_evictedFor {cfg : Config} {e : CacheEvent} {v : Eviction} (h : c.InvalidFirst)
    (hx : (stdCache g).Orderly cfg c e) (hv : (stdCache g).evictedFor cfg c e = some v) :
    ∀ d ∈ v.chosenFrom, d.state ≠ .invalid := by
  obtain ⟨m, during, answer, c₁, c₂, r, a, rfl, hans, hv⟩ := AbstractCache.evictedFor_cases hv
  obtain ⟨access, -, hl, -, hsn⟩ := AbstractCache.answered_cases hans
  have h₁ : c₁.InvalidFirst := h.lookup (Except.ok.inj hl)
  obtain ⟨b, hb, hv⟩ := Option.bind_eq_some_iff.mp hv
  split at hv
  · rename_i hcond
    cases hv
    -- the entry was valid at the lookup, and that of another block
    obtain ⟨hbmem, hbw⟩ := BlockSet.mem_of_atWay hb
    obtain ⟨d, hd, hdw, hdt, hdv⟩ := outlived_snoopsIn hsn _ b hbmem
      (CoherenceState.isValid_iff.mp hcond.2)
    obtain ⟨-, e, he, hew, habsent⟩ := lookup_entry (Except.ok.inj hl)
    obtain rfl : d = e := BlockSet.eq_of_way_eq (c₁.wf _).ways_nodup hd he
      (hdw.trans (hbw.trans hew.symm))
    obtain ⟨-, q, hq⟩ := habsent (hdt.trans_ne hcond.1)
    have hfront := h₁ r.theSet
    rw [hq] at hfront
    show ∀ d ∈ c₁.theBlocks r.theSet, d.state ≠ .invalid
    rw [hq]
    exact hfront.of_front hdv
  · cases hv

end StdCache

/-! ### The region tracker -/

namespace BlockSet

/-- A set whose ways are unique, with the invalid entries in front. -/
structure Arranged (l : BlockSet) : Prop where
  nodup : (l.map BlockEntry.way).Nodup
  invalidFirst : l.InvalidFirst

variable {l : BlockSet} {w : ℕ} {z : CoherenceState}

theorem Arranged.toTail_map {f : BlockEntry → BlockEntry} (hf : ∀ d, (f d).way = d.way)
    (h : l.Arranged) (hv : ∀ d ∈ l, d.way = w → (f d).state ≠ .invalid) :
    Arranged (toTail (l.map fun d => if d.way = w then f d else d) w) where
  nodup := by
    rw [((toTail_perm _ w).map _).nodup_iff, List.map_map]
    have hway : BlockEntry.way ∘ (fun d => if d.way = w then f d else d) = BlockEntry.way := by
      funext d
      rw [comp_apply]
      split
      · exact hf d
      · rfl
    rw [hway]
    exact h.nodup
  invalidFirst := h.invalidFirst.toTail_map hf hv

theorem Arranged.changeBlockState (h : l.Arranged) (hl : InvalidFirst (l.changeBlockState w z)) :
    Arranged (l.changeBlockState w z) where
  nodup := by
    rw [map_changeBlockState _ fun _ _ => rfl]
    exact h.nodup
  invalidFirst := hl

theorem Arranged.toHead_changeBlockState (h : l.Arranged)
    (hl : InvalidFirst ((l.changeBlockState w z).toHead w)) :
    Arranged ((l.changeBlockState w z).toHead w) where
  nodup := by
    rw [((toHead_perm _ w).map _).nodup_iff, map_changeBlockState _ fun _ _ => rfl]
    exact h.nodup
  invalidFirst := hl

theorem Arranged.toTail (h : l.Arranged) (hv : ∀ d ∈ l, d.way = w → d.state ≠ .invalid) :
    Arranged (l.toTail w) where
  nodup := by
    rw [((toTail_perm _ w).map _).nodup_iff]
    exact h.nodup
  invalidFirst := h.invalidFirst.toTail hv

theorem Arranged.invalidate (h : l.Arranged) (w : ℕ) :
    Arranged ((l.changeBlockState w .invalid).toHead w) :=
  h.toHead_changeBlockState (h.invalidFirst.toHead_map (f := fun d => { d with state := .invalid })
    (fun _ => rfl) fun _ _ _ => rfl)

end BlockSet

namespace RTCache

variable {g : RTGeometry} {c c' t : RTCache g} {a : ℕ} {z : CoherenceState}

/-- The sets of blocks are arranged. -/
def Arranged (c : RTCache g) : Prop := ∀ i, (c.theBlocks i).Arranged

theorem arranged_empty : (empty g).Arranged := fun _ => ⟨List.nodup_nil, List.Pairwise.nil⟩

theorem Arranged.setBlocks (h : c.Arranged) {i : ℕ} {l : BlockSet} (hl : l.Arranged) :
    (c.setBlocks i l).Arranged :=
  BlockSet.forall_update h hl

theorem Arranged.congr (h : c.Arranged) (ht : t.theBlocks = c.theBlocks) : t.Arranged := by
  intro i
  rw [ht]
  exact h i

/-- **The eviction of a block** of the region at the front. -/
theorem evictBlock_cases {i : ℕ} (ht : c.evictBlock i = .ok t) :
    ∃ region erb, c.theERB = region :: erb ∧ (t = c ∨ ∃ set w, t =
      ((c.setBlocks set (((c.theBlocks set).changeBlockState w .invalid).toHead w)).call
        (.evict (g.blockAddr region.tag i) (region.state i))).modifyRegion .erb region.tag
          fun e => e.changeState i .invalid) := by
  rw [evictBlock] at ht
  split at ht
  · cases ht
  · rename_i region erb herb
    refine ⟨region, erb, herb, ?_⟩
    obtain ⟨_, -, ht⟩ := exists_of_bind_eq_ok ht
    split at ht
    · split at ht
      · cases ht
      · rename_i b hb
        split at ht
        · cases ht
        · obtain ⟨_, -, ht⟩ := exists_of_bind_eq_ok ht
          obtain ⟨_, -, ht⟩ := exists_of_bind_eq_ok ht
          cases ht
          exact .inr ⟨_, b.way, rfl⟩
    · obtain ⟨_, -, ht⟩ := exists_of_bind_eq_ok ht
      cases ht
      exact .inl rfl

theorem Arranged.evictBlock (h : c.Arranged) {i : ℕ} (ht : c.evictBlock i = .ok t) :
    t.Arranged := by
  obtain ⟨region, erb, -, rfl | ⟨set, w, rfl⟩⟩ := evictBlock_cases ht
  · exact h
  · exact (h.setBlocks ((h set).invalidate w)).congr (theBlocks_modifyRegion _ _ _)

theorem Arranged.evictBlocks (h : c.Arranged) {is : List ℕ} (ht : c.evictBlocks is = .ok t) :
    t.Arranged := by
  induction is generalizing c with
  | nil =>
    cases ht
    exact h
  | cons i is ih =>
    obtain ⟨u, hu, ht⟩ := exists_of_bind_eq_ok ht
    exact ih (h.evictBlock hu) ht

theorem pushRegion_keeps (ht : c.pushRegion a = .ok t) :
    t.theBlocks = c.theBlocks ∧ t.calls = c.calls := by
  simp only [pushRegion] at ht
  obtain ⟨-, ht⟩ := of_ite_error_eq_ok ht
  cases ht
  exact ⟨rfl, rfl⟩

theorem evictFront_cases (ht : c.evictFront = .ok t) : ∃ v region erb,
    c.evictBlocks (List.range g.theBlocksPerRegion) = .ok v ∧ v.theERB = region :: erb ∧
      t = { v.call (.evictRegion region.tag region.owner) with theERB := erb } := by
  obtain ⟨v, hv, ht⟩ := exists_of_bind_eq_ok ht
  cases herb : v.theERB with
  | nil =>
    simp only [herb] at ht
    cases ht
  | cons region erb =>
    simp only [herb] at ht
    cases ht
    exact ⟨v, region, erb, hv, herb, rfl⟩

/-- A region has an entry, or gets one, which may drain the buffer. -/
theorem allocateRegion_cases {p : RTSet} (ht : c.allocateRegion a = .ok (t, p)) :
    t = c ∨ ∃ u, c.pushRegion a = .ok u ∧ (t = u ∨ u.evictFront = .ok t) := by
  rw [allocateRegion] at ht
  split at ht
  · cases ht
    exact .inl rfl
  · obtain ⟨u, hu, ht⟩ := exists_of_bind_eq_ok ht
    refine .inr ⟨u, hu, ?_⟩
    dsimp only at ht
    split at ht
    · obtain ⟨v, hv, ht⟩ := exists_of_bind_eq_ok ht
      cases ht
      exact .inr hv
    · cases ht
      exact .inl rfl

theorem Arranged.allocateRegion (h : c.Arranged) {p : RTSet}
    (ht : c.allocateRegion a = .ok (t, p)) : t.Arranged := by
  rcases allocateRegion_cases ht with rfl | ⟨u, hu, rfl | hf⟩
  · exact h
  · exact h.congr (pushRegion_keeps hu).1
  · obtain ⟨v, region, erb, hv, -, rfl⟩ := evictFront_cases hf
    exact ((h.congr (pushRegion_keeps hu).1).evictBlocks hv).congr rfl

/-- **The replacement** of the block at the front. -/
theorem replaceLruBlock_cases {i tag w : ℕ} (ht : c.replaceLruBlock i tag z = .ok (t, w)) :
    ∃ b l, c.theBlocks i = b :: l ∧ t.theBlocks = update c.theBlocks i
        ((BlockSet.replaceBlock (b :: l) b.way tag z).toTail b.way) ∧
      t.calls = c.calls ++ if b.state.isValid then [.evict b.tag b.state] else [] := by
  rw [replaceLruBlock] at ht
  split at ht
  · cases ht
  · rename_i b l hl
    refine ⟨b, l, hl, ?_⟩
    dsimp only at ht
    split at ht
    · rename_i hv
      split at ht
      · cases ht
      · rename_i p _ _
        cases ht
        rw [if_pos hv]
        cases p <;> exact ⟨rfl, rfl⟩
    · rename_i hv
      cases ht
      rw [if_neg hv]
      exact ⟨rfl, (List.append_nil _).symm⟩

/-- **The entry for a block**: its own, a new one, or that at the front. -/
theorem placeBlock_cases {i tag w : ℕ} (ht : c.placeBlock i tag z = .ok (t, w)) :
    (∃ b, (c.theBlocks i).findTag tag = some b ∧
      t = c.setBlocks i (((c.theBlocks i).changeBlockState b.way z).toTail b.way)) ∨
    (c.theBlocks i).findTag tag = none ∧
      ((∃ v, (c.theBlocks i).length < g.theAssociativity ∧
        (∀ d ∈ c.theBlocks i, d.way ≠ v) ∧
        t = c.setBlocks i (c.theBlocks i ++ [⟨tag, z, v⟩])) ∨
      g.theAssociativity ≤ (c.theBlocks i).length ∧
        c.replaceLruBlock i tag z = .ok (t, w)) := by
  simp only [placeBlock] at ht
  split at ht
  · rename_i b hb
    cases ht
    exact .inl ⟨b, hb, rfl⟩
  · rename_i hb
    refine .inr ⟨hb, ?_⟩
    split at ht
    · rename_i hlen
      obtain ⟨hany, ht⟩ := of_ite_error_eq_ok ht
      cases ht
      exact .inl ⟨_, hlen, by simpa using hany, rfl⟩
    · rename_i hlen
      refine .inr ⟨Nat.le_of_not_lt hlen, ?_⟩
      split at ht
      · exact ht
      · split at ht
        · exact ht
        · cases ht

theorem Arranged.placeBlock (h : c.Arranged) {i tag w : ℕ} (hz : z ≠ .invalid)
    (ht : c.placeBlock i tag z = .ok (t, w)) : t.Arranged := by
  rcases placeBlock_cases ht with ⟨b, -, rfl⟩ | ⟨-, ⟨v, -, hv, rfl⟩ | ⟨-, ht⟩⟩
  · exact h.setBlocks ((h i).toTail_map (f := fun d => { d with state := z }) (fun _ => rfl)
      fun _ _ _ => hz)
  · refine h.setBlocks ⟨?_, (h i).invalidFirst.concat hz⟩
    rw [List.map_append, List.nodup_append]
    refine ⟨(h i).nodup, List.nodup_singleton _, fun x hx y hy hxy => ?_⟩
    obtain ⟨d, hd, rfl⟩ := List.mem_map.mp hx
    exact hv d hd (hxy.trans (List.mem_singleton.mp hy))
  · obtain ⟨b, l, hl, hblocks, -⟩ := replaceLruBlock_cases ht
    intro j
    rw [hblocks, ← hl]
    exact BlockSet.forall_update h ((h i).toTail_map
      (f := fun d => { d with tag := tag, state := z }) (fun _ => rfl) fun _ _ _ => hz) j

/-- **An allocation**: the region, and then the block if it is not valid yet. -/
theorem allocate_cases {r : RTLookupResult} (ht : c.allocate a z = .ok (t, r)) :
    ∃ u p e, c.allocateRegion a = .ok (u, p) ∧
      Keyed.lookup RTEntry.tag (u.entries p) (g.getRtTag a) = some e ∧
      ((e.state (g.getBlockOffset a)).isValid = true ∧ t = u ∨
      (e.state (g.getBlockOffset a)).isValid = false ∧
        ∃ v w, u.placeBlock (g.getBlockSet a e.way) (g.getBlockTag a) z = .ok (v, w) ∧
          t.theBlocks = v.theBlocks ∧ t.calls = v.calls) := by
  obtain ⟨⟨u, p⟩, hu, ht⟩ := exists_of_bind_eq_ok ht
  dsimp only at ht
  split at ht
  · cases ht
  · rename_i e he
    refine ⟨u, p, e, hu, he, ?_⟩
    split at ht
    · rename_i hv
      split at ht
      · cases ht
      · obtain ⟨_, -, ht⟩ := exists_of_bind_eq_ok ht
        cases ht
        exact .inl ⟨hv, rfl⟩
    · rename_i hv
      obtain ⟨⟨v, w⟩, hw, ht⟩ := exists_of_bind_eq_ok ht
      obtain ⟨_, -, ht⟩ := exists_of_bind_eq_ok ht
      cases ht
      refine .inr ⟨Bool.eq_false_iff.mpr hv, v, w, hw, ?_, ?_⟩
      · rw [theBlocks_updateRegionLRU, theBlocks_modifyRegion]
      · cases p <;> rfl

theorem Arranged.allocate (h : c.Arranged) (hz : z ≠ .invalid) {r : RTLookupResult}
    (ht : c.allocate a z = .ok (t, r)) : t.Arranged := by
  obtain ⟨u, p, e, hu, -, ⟨-, rfl⟩ | ⟨-, v, w, hw, hblocks, -⟩⟩ := allocate_cases ht
  · exact h.allocateRegion hu
  · exact ((h.allocateRegion hu).placeBlock hz hw).congr hblocks

/-- The entry that a result for a valid block points at is valid. -/
theorem Arranged.valid_of_getState (h : c.Arranged) {r : RTLookupResult}
    (hv : c.getState (some r) ≠ .invalid) :
    ∀ d ∈ c.theBlocks r.blockSet, d.way = r.block → d.state ≠ .invalid := by
  intro d hd hdw
  have hb : (c.theBlocks r.blockSet).atWay r.block = some d := by
    rw [← hdw]
    exact BlockSet.atWay_of_mem (h _).nodup hd
  simpa only [getState, hb] using hv

theorem theBlocks_updateState (c : RTCache g) (r : RTLookupResult) (z : CoherenceState)
    (makeMRU makeLRU : Bool) : (c.updateState r z makeMRU makeLRU).theBlocks =
      update c.theBlocks r.blockSet
        (if makeMRU then ((c.theBlocks r.blockSet).changeBlockState r.block z).toTail r.block
        else if makeLRU then ((c.theBlocks r.blockSet).changeBlockState r.block z).toHead r.block
        else (c.theBlocks r.blockSet).changeBlockState r.block z) := by
  have hset : ∀ (d : RTCache g) (i : ℕ) (l : BlockSet),
      (d.setBlocks i l).theBlocks = update d.theBlocks i l := fun _ _ _ => rfl
  simp only [updateState]
  split
  · rw [updateLRU, hset, theBlocks_updateRegionLRU, hset, theBlocks_modifyRegion,
      update_self, update_idem]
  · split
    · rw [hset, hset, theBlocks_modifyRegion, update_self, update_idem]
    · rw [hset, theBlocks_modifyRegion]

theorem Arranged.updateState (h : c.Arranged) {r : RTLookupResult} {makeMRU makeLRU : Bool}
    (hl : BlockSet.Arranged
      (if makeMRU then ((c.theBlocks r.blockSet).changeBlockState r.block z).toTail r.block
      else if makeLRU then ((c.theBlocks r.blockSet).changeBlockState r.block z).toHead r.block
      else (c.theBlocks r.blockSet).changeBlockState r.block z)) :
    (c.updateState r z makeMRU makeLRU).Arranged := by
  intro i
  rw [theBlocks_updateState]
  exact BlockSet.forall_update h hl i

theorem eq_of_lookup {r : ℕ × Option RTLookupResult} (hl : (rtCache g).lookup c a = .ok (c', r)) :
    c' = c := by
  obtain ⟨_, -, hl⟩ := exists_of_bind_eq_ok hl
  cases hl
  rfl

theorem result_cases {r : ℕ × Option RTLookupResult} {f : RTLookupResult → RTCache g}
    (ht : (match r.2 with
      | some r => .ok (f r)
      | none => .error (.inr .danglingBlock) : Except (RTFault ⊕ Fault) (RTCache g)) = .ok t) :
    ∃ q, r.2 = some q ∧ t = f q := by
  split at ht
  · rename_i q hq
    cases ht
    exact ⟨q, hq, rfl⟩
  · cases ht

/-- **The region tracker keeps its invalid entries in front.** -/
theorem keepsInvalidFirst : (rtCache g).KeepsInvalidFirst Arranged where
  lookup h hl := by
    rw [eq_of_lookup hl]
    exact h
  updateLRU {c c' t r a} h hl hv ht := by
    obtain ⟨q, hq, rfl⟩ := result_cases ht
    rw [eq_of_lookup hl] at hv ⊢
    refine (h.congr (theBlocks_updateRegionLRU _ _)).setBlocks
      ((h _).toTail (h.valid_of_getState ?_))
    rwa [← hq]
  changeInPlace {c c' t r a z} h hl hv hz ht := by
    obtain ⟨q, hq, rfl⟩ := result_cases ht
    rw [eq_of_lookup hl] at hv ⊢
    refine h.updateState ((h _).changeBlockState ((h _).invalidFirst.changeBlockState hz
      (h.valid_of_getState ?_)))
    rwa [← hq]
  makeMRU {c t r z} h hz ht := by
    obtain ⟨q, hq, rfl⟩ := result_cases ht
    exact h.updateState ((h _).toTail_map (f := fun d => { d with state := z }) (fun _ => rfl)
      fun _ _ _ => hz)
  invalidate {c t r} h ht := by
    obtain ⟨q, hq, rfl⟩ := result_cases ht
    exact h.updateState ((h _).invalidate q.block)
  makeLRU {c t r z} h hv hz ht := by
    obtain ⟨q, hq, rfl⟩ := result_cases ht
    simp only [rtCache, hq] at hv
    exact h.updateState ((h _).toHead_changeBlockState (BlockSet.InvalidFirst.toHead_valid hz hv))
  allocate {c t r z} h hz ht := by
    obtain ⟨x, hx, rfl⟩ := exists_of_map_eq_ok (of_mapError_eq_ok ht)
    exact h.allocate hz hx

/-- **What a miss replaces** is at the front of a full set. -/
theorem replaced_cases {r : ℕ × Option RTLookupResult} {v : Eviction}
    (hv : (rtCache g).replaced c' c r = some v) : ∃ u p e, c.allocateRegion r.1 = .ok (u, p) ∧
      Keyed.lookup RTEntry.tag (u.entries p) (g.getRtTag r.1) = some e ∧
      v.leaves = u.theBlocks (g.getBlockSet r.1 e.way) ∧ v.leaves.head? = some v.block ∧
      v.block.state ≠ .invalid := by
  simp only [rtCache] at hv
  obtain ⟨⟨u, p⟩, hu, hv⟩ := Option.bind_eq_some_iff.mp hv
  obtain ⟨e, he, hv⟩ := Option.bind_eq_some_iff.mp hv
  obtain ⟨b, hb, hv⟩ := Option.bind_eq_some_iff.mp hv
  split at hv
  · rename_i hcond
    cases hv
    refine ⟨u, p, e, ?_, he, rfl, hb, CoherenceState.isValid_iff.mp hcond.2.2.2⟩
    exact eq_ok_of_toOption hu
  · cases hv

theorem replaced_eq {u : RTCache g} {p : RTSet} {e : RTEntry}
    (hu : c.allocateRegion a = .ok (u, p))
    (he : Keyed.lookup RTEntry.tag (u.entries p) (g.getRtTag a) = some e) (c₁ : RTCache g)
    (q : Option RTLookupResult) : (rtCache g).replaced c₁ c (a, q) =
      (u.theBlocks (g.getBlockSet a e.way)).head?.bind fun b =>
        if (e.state (g.getBlockOffset a)).isValid = false ∧
            (u.theBlocks (g.getBlockSet a e.way)).findTag (g.getBlockTag a) = none ∧
            g.theAssociativity ≤ (u.theBlocks (g.getBlockSet a e.way)).length ∧
            b.state.isValid then
          some ⟨b, u.theBlocks (g.getBlockSet a e.way), u.theBlocks (g.getBlockSet a e.way)⟩
        else none := by
  simp only [rtCache, hu, Except.toOption, bind, Option.bind, he]

/-- **What an allocation evicts** is the block that it replaces, after those of a region. -/
theorem calls_allocate {r : RTLookupResult} (ht : c.allocate a z = .ok (t, r)) (c₁ : RTCache g)
    (q : Option RTLookupResult) : ∃ u p, c.allocateRegion a = .ok (u, p) ∧
      t.calls = u.calls ++ ((rtCache g).replaced c₁ c (a, q)).toList.map
        fun v => .evict v.block.tag v.block.state := by
  obtain ⟨u, p, e, hu, he, h⟩ := allocate_cases ht
  refine ⟨u, p, hu, ?_⟩
  rw [replaced_eq hu he]
  rcases h with ⟨hv, rfl⟩ | ⟨hv, v, w, hw, -, hcalls⟩
  · simp [hv]
  · rw [hcalls]
    rcases placeBlock_cases hw with ⟨b, hb, rfl⟩ | ⟨hb, ⟨_, hlen, -, rfl⟩ | ⟨hlen, hw⟩⟩
    · simp [hb, setBlocks]
    · simp [Nat.not_le_of_lt hlen, setBlocks]
    · obtain ⟨b, l, hl, -, hv'⟩ := replaceLruBlock_cases hw
      rw [hl] at hb hlen ⊢
      rw [hv', List.head?_cons, Option.bind_some]
      by_cases hbv : b.state.isValid = true
      · rw [if_pos hbv, if_pos ⟨hv, hb, hlen, hbv⟩]
        rfl
      · rw [if_neg hbv, if_neg fun h => hbv h.2.2.2]
        rfl

/-- **The valid block that a miss replaces** is in a set without invalid entries. -/
theorem leaves_of_evictedFor {cfg : Config} {e : CacheEvent} {v : Eviction} (h : c.Arranged)
    (hx : (rtCache g).Orderly cfg c e) (hv : (rtCache g).evictedFor cfg c e = some v) :
    ∀ d ∈ v.leaves, d.state ≠ .invalid := by
  obtain ⟨m, during, answer, c₁, c₂, r, a, rfl, hans, hv⟩ := AbstractCache.evictedFor_cases hv
  obtain ⟨-, h₂⟩ := keepsInvalidFirst.answered h hx hans
  obtain ⟨u, p, e, hu, -, hl, hb, hbv⟩ := replaced_cases hv
  have hset := (h₂.allocateRegion hu (g.getBlockSet r.1 e.way)).invalidFirst
  rw [← hl] at hset
  obtain ⟨q, hq⟩ := List.head?_eq_some_iff.mp hb
  rw [hq] at hset ⊢
  exact hset.of_front hbv

end RTCache

/-! ### The runs -/

namespace FastCache

open MemoryMessageType

/-- **What a miss evicts is what the callbacks hear of** when the cache below has answered; those of
a region tracker hear of the blocks of a region before. -/
theorem evictedFor_calls {cfg : Config} {m : MemoryMessage} {during : List SnoopEvent}
    {answer : MemoryMessageType} {act : RequestAction} {z : CoherenceState}
    (he : requestEffect m.type answer act = .ok (.allocate z)) :
    (∀ (g : Geometry) (c s s' : StdCache g) (r : LookupResult g) (calls : List _),
      (stdCache g).answered cfg c m during = .ok (s, s', r, act) →
      StdCache.allocate Prod.fst (fun s c => (c, s.2))
          (fun s tag st => .ok (s.1, s.2 ++ [(tag, st)])) (s', calls) r z =
        ((stdCache g).allocate s' r z).map fun c' => (c', calls ++
          ((stdCache g).evictedFor cfg c (.request m during answer)).toList.map
            fun v => (v.block.tag, v.block.state))) ∧
    ∀ (g : RTGeometry) (c s s' t : RTCache g) (r : ℕ × Option RTLookupResult) (q : RTLookupResult),
      (rtCache g).answered cfg c m during = .ok (s, s', r, act) →
      s'.allocate r.1 z = .ok (t, q) →
      ∃ u p, s'.allocateRegion r.1 = .ok (u, p) ∧ t.calls = u.calls ++
        ((rtCache g).evictedFor cfg c (.request m during answer)).toList.map
          fun v => .evict v.block.tag v.block.state := by
  refine ⟨fun g c s s' r calls hans => ?_, fun g c s s' t r q hans ht => ?_⟩
  · have hev : (stdCache g).evictedFor cfg c (.request m during answer) =
        (stdCache g).replaced s s' r := by
      simp only [AbstractCache.evictedFor, hans, he]
    rw [hev]
    exact StdCache.evict_calls s s' r z calls
  · have hev : (rtCache g).evictedFor cfg c (.request m during answer) =
        (rtCache g).replaced s s' r := by
      simp only [AbstractCache.evictedFor, hans, he]
    rw [hev]
    exact RTCache.calls_allocate ht s r.2

/-- **Invalid entries are used first**: in every run in which no snoop puts a valid block ahead of
an invalid entry of its set, a miss replaces a valid block only if its set had no invalid entry when
the block was chosen – at the lookup in the one array, at the end in the other. -/
theorem invalid_first (cfg : Config) :
    (∀ (g : Geometry) (c : StdCache g),
      ((stdCache g).machine cfg (.empty g)).ReachableWhen ((stdCache g).Orderly cfg) c →
      ∀ e v, (stdCache g).Orderly cfg c e → (stdCache g).evictedFor cfg c e = some v →
        ∀ d ∈ v.chosenFrom, d.state ≠ .invalid) ∧
    ∀ (g : RTGeometry) (c : RTCache g),
      ((rtCache g).machine cfg (.empty g)).ReachableWhen ((rtCache g).Orderly cfg) c →
      ∀ e v, (rtCache g).Orderly cfg c e → (rtCache g).evictedFor cfg c e = some v →
        ∀ d ∈ v.leaves, d.state ≠ .invalid := by
  refine ⟨fun g c hc e v he hv => ?_, fun g c hc e v he hv => ?_⟩
  · exact StdCache.chosen_of_evictedFor
      (StdCache.keepsInvalidFirst.reachable StdCache.invalidFirst_empty hc) he hv
  · exact RTCache.leaves_of_evictedFor
      (RTCache.keepsInvalidFirst.reachable RTCache.arranged_empty hc) he hv

/-- A region tracker for a set of two blocks, with two regions of two blocks. -/
def twoRegions : RTGeometry where
  blockShift := 6
  regionShift := 7
  theNumDataSets := 1
  theAssociativity := 2
  rtSetBits := 0
  theRTAssociativity := 1
  theERBSize := 1
  theSkewBlockSetIndex := false
  theReplPolicy := .setLRU
  theBlockScout := false
  shift_le := by decide
  sets_pos := Nat.one_pos
  assoc_pos := Nat.two_pos
  rtAssoc_pos := Nat.one_pos
  erb_pos := Nat.one_pos

/-- Two blocks that are read. -/
def twoReads : List CacheEvent :=
  [.request ⟨readReq, 0⟩ [] missReplyWritable, .request ⟨readReq, 64⟩ [] missReplyWritable]

/-- The second block is invalidated, and its entry is used for a third one. -/
def threeReads : List CacheEvent :=
  twoReads ++ [.snoop ⟨⟨invalidate, 64⟩, invalidateAck⟩, .request ⟨readReq, 128⟩ [] missReply]

/-- Requests without snoops in between, and invalidations. -/
def quiet : CacheEvent → Bool
  | .request _ during _ => during.isEmpty
  | .snoop x => x.message.type = invalidate

theorem orderly_of_quiet {σ ρ φ : Type} {A : AbstractCache σ ρ φ} {cfg : Config} (s : σ)
    {e : CacheEvent} (h : quiet e = true) : A.Orderly cfg s e := by
  cases e with
  | request m during answer =>
    obtain rfl : during = [] := List.isEmpty_iff.mp h
    intro access s' r a _ _ _
    rw [ite_self]
    trivial
  | snoop x =>
    rintro ⟨s', r, -, ⟨-, hm | hm⟩, -⟩
    · exact absurd ((of_decide_eq_true h).symm.trans hm) nofun
    · exact absurd ((of_decide_eq_true h).symm.trans hm.1) nofun

/-- The state after quiet events, and what a miss evicts there. -/
theorem exists_evictedFor {σ ρ φ : Type} (A : AbstractCache σ ρ φ) (cfg : Config) (init : σ)
    (es : List CacheEvent) (e : CacheEvent)
    (hquiet : (A.machine cfg init).passes (fun _ e => quiet e) init es = true)
    (h : (A.machine cfg init).endsIn (fun s => (A.evictedFor cfg s e).isSome) es = true) :
    ∃ s v, (A.machine cfg init).ReachableWhen (A.Orderly cfg) s ∧
      A.evictedFor cfg s e = some v := by
  obtain ⟨s, hs, h⟩ := Machine.exists_of_endsIn h
  obtain ⟨v, hv⟩ := Option.isSome_iff_exists.mp h
  exact ⟨s, v, Machine.reachableWhen_of_run (g := fun _ e => quiet e)
    (fun s e he => orderly_of_quiet s he) hquiet hs, hv⟩

/-- The entry of an invalid block is used first, and then that of a valid one. -/
theorem invalid_first_of_run :
    (∃ c e v, ((stdCache StdCache.twoWays).machine ⟨false, false, false⟩ (.empty _)).ReachableWhen
        ((stdCache StdCache.twoWays).Orderly ⟨false, false, false⟩) c ∧
      (stdCache StdCache.twoWays).evictedFor ⟨false, false, false⟩ c e = some v ∧
      ∀ d ∈ v.chosenFrom, d.state ≠ .invalid) ∧
    ∃ c e v, ((rtCache twoRegions).machine ⟨false, false, false⟩ (.empty _)).ReachableWhen
        ((rtCache twoRegions).Orderly ⟨false, false, false⟩) c ∧
      (rtCache twoRegions).evictedFor ⟨false, false, false⟩ c e = some v ∧
      ∀ d ∈ v.leaves, d.state ≠ .invalid := by
  constructor
  · obtain ⟨c, v, hc, hv⟩ := exists_evictedFor (stdCache StdCache.twoWays)
      ⟨false, false, false⟩ (.empty _) threeReads (.request ⟨readReq, 192⟩ [] missReply)
      (by decide) (by decide)
    exact ⟨c, _, v, hc, hv, (invalid_first _).1 _ c hc _ v (orderly_of_quiet c rfl) hv⟩
  · obtain ⟨c, v, hc, hv⟩ := exists_evictedFor (rtCache twoRegions)
      ⟨false, false, false⟩ (.empty _) threeReads (.request ⟨readReq, 192⟩ [] missReply)
      (by decide) (by decide)
    exact ⟨c, _, v, hc, hv, (invalid_first _).2 _ c hc _ v (orderly_of_quiet c rfl) hv⟩

/-- **A miss evicts a valid block of a set with an invalid entry** in some run. -/
def Wastes {σ ρ φ : Type} (A : AbstractCache σ ρ φ) (cfg : Config) (init : σ) : Prop :=
  ∃ s, (A.machine cfg init).Reachable s ∧
    ∃ e v, A.evictedFor cfg s e = some v ∧ ∃ d ∈ v.leaves, d.state = .invalid

theorem wastes_of_run {σ ρ φ : Type} {A : AbstractCache σ ρ φ} {cfg : Config} {init : σ}
    (es : List CacheEvent) (e : CacheEvent) (h : (A.machine cfg init).endsIn
      (fun s => (A.evictedFor cfg s e).any fun v => v.leaves.any fun d => d.state = .invalid) es) :
    Wastes A cfg init := by
  obtain ⟨s, hs, h⟩ := Machine.exists_of_endsIn h
  obtain ⟨v, hv, h⟩ := (Option.any_eq_true _ _).mp h
  obtain ⟨d, hd, h⟩ := List.any_eq_true.mp h
  exact ⟨s, Machine.reachable_of_run hs, e, v, hv, d, hd, of_decide_eq_true h⟩

/-- The first block is invalidated, and the second one is read by another cache. -/
def readAhead : List CacheEvent :=
  twoReads ++ [.snoop ⟨⟨invalidate, 0⟩, invalidateAck⟩, .snoop ⟨⟨returnReq, 64⟩, returnReply⟩]

/-- **Valid blocks are evicted before invalid entries are used** when a read has put one in front,
when an invalidation comes in during the miss, and when a region leaves the buffer. -/
theorem evicts_before_invalid :
    Wastes (stdCache StdCache.twoWays) ⟨false, false, true⟩ (.empty _) ∧
    Wastes (rtCache twoRegions) ⟨false, false, true⟩ (.empty _) ∧
    Wastes (stdCache StdCache.twoWays) ⟨false, false, false⟩ (.empty _) ∧
    ∃ s, ((rtCache twoRegions).machine ⟨false, false, false⟩ (.empty _)).Reachable s ∧
      (∃ d ∈ s.theBlocks 0, d.state = .invalid) ∧
      ∃ t, (rtCache twoRegions).step ⟨false, false, false⟩ s
          (.request ⟨readReq, 256⟩ [] missReplyWritable) = .ok t ∧
        t.calls = [.evict 0 .exclusive, .evictRegion 0 (-1)] := by
  refine ⟨?_, ?_, ?_, ?_⟩
  · exact wastes_of_run readAhead (.request ⟨readReq, 128⟩ [] missReply) (by decide)
  · exact wastes_of_run readAhead (.request ⟨readReq, 128⟩ [] missReply) (by decide)
  · exact wastes_of_run twoReads
      (.request ⟨readReq, 128⟩ [⟨⟨invalidate, 64⟩, invalidateAck⟩] missReply) (by decide)
  · have hrun : ((rtCache twoRegions).machine ⟨false, false, false⟩ (.empty _)).endsIn
        (fun s => (s.theBlocks 0).any (fun d => d.state = .invalid) &&
          ((rtCache twoRegions).step ⟨false, false, false⟩ s
            (.request ⟨readReq, 256⟩ [] missReplyWritable)).toOption.any fun t =>
              t.calls = [.evict 0 .exclusive, .evictRegion 0 (-1)])
        [.request ⟨readReq, 0⟩ [] missReplyWritable, .request ⟨readReq, 128⟩ [] missReplyWritable,
          .snoop ⟨⟨invalidate, 128⟩, invalidateAck⟩] = true := by decide
    obtain ⟨s, hs, h⟩ := Machine.exists_of_endsIn hrun
    rw [Bool.and_eq_true] at h
    obtain ⟨d, hd, hinvalid⟩ := List.any_eq_true.mp h.1
    obtain ⟨t, ht, hcalls⟩ := (Option.any_eq_true _ _).mp h.2
    refine ⟨s, Machine.reachable_of_run hs, ⟨d, hd, of_decide_eq_true hinvalid⟩, t, ?_,
      of_decide_eq_true hcalls⟩
    exact eq_ok_of_toOption ht

end FastCache

end Flexus
