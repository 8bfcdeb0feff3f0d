import Flexus.Cache.Checkpoint
import Flexus.FastCache.Inclusion

/-!
# The victims of a cache that was loaded from a checkpoint

The text loader and the binary loader restore the same blocks in the same states. They do
not restore the same order: the text loader fills the ways in the order of the checkpoint,
and the first way is the most recently used one; the binary loader fills them in the
opposite order, but puts the places that were not used by the functional cache behind the
most recently used block. The functional cache gives unused places away first.

So the two arrays and the functional cache choose the same victims for all accesses in two
cases only: when there is only one way, and when no block is valid
(`Flexus.Cache.agree_iff`).
-/

namespace Flexus

open Lib List

namespace Cache

variable {g : Geometry} {c : StdCache g} {t : StdArray g}

/-! ### What is found in an array that was loaded -/

/-- A way of a set holds a block in a state. -/
def StdArray.Holds (t : StdArray g) (i b : ℕ) (v : BasicState) : Prop :=
  ∃ w < g.theAssoc, (t.theSets i).theBlocks w = ⟨b, ⟨v, false⟩⟩

variable {order : List Block → List Block}

theorem Loads.exists_way_iff (h : Loads order c t) (horder : ∀ l b, b ∈ order l ↔ b ∈ l) (i : ℕ) :
    ∃ pad, ∀ b, (∃ w < g.theAssoc, (t.theSets i).theBlocks w = b) ↔
      ∃ x ∈ places g.theAssoc (c.theBlocks i), placeBlock pad x = b := by
  obtain ⟨pad, hb⟩ := h.blocks i
  refine ⟨pad, fun b => ?_⟩
  rw [← mem_map, ← horder, ← hb, mem_map]
  simp only [mem_reverse, SetLRU.mem_theMRUOrder]

/-- **The valid blocks of an array that was loaded** are those of the functional cache. -/
theorem Loads.holds_iff (h : Loads order c t) (horder : ∀ l b, b ∈ order l ↔ b ∈ l) (i b : ℕ)
    {v : BasicState} (hv : v ≠ .invalid) :
    t.Holds i b v ↔ ∃ e ∈ c.theBlocks i, e.tag = b ∧ savedState e.state = v := by
  obtain ⟨pad, hw⟩ := h.exists_way_iff horder i
  rw [StdArray.Holds, hw]
  constructor
  · rintro ⟨x, hx, hxb⟩
    rcases mem_places hx with rfl | ⟨e, he, rfl⟩
    · rw [placeBlock, Block.mk.injEq, BasicCacheState.mk.injEq] at hxb
      exact absurd hxb.2.1.symm hv
    · rw [placeBlock, Block.mk.injEq, BasicCacheState.mk.injEq] at hxb
      exact ⟨e, he, hxb.1, hxb.2.1⟩
  · rintro ⟨e, he, rfl, rfl⟩
    exact ⟨some e, mem_append_left _ (mem_map_of_mem he), rfl⟩

/-- **The state in which a lookup finds a block** is that of the functional cache. -/
theorem Loads.stateOf_eq (h : Loads order c t) (horder : ∀ l b, b ∈ order l ↔ b ∈ l)
    (a : ℕ) : t.stateOf a = savedState (c.stateOf (g.getTag a)) := by
  set i := g.getSet a with hi
  have hc : c.stateOf (g.getTag a) = (c.theBlocks i).stateOf (g.getTag a) := by
    rw [StdCache.stateOf, g.getSet_getTag]
  -- a lookup that does not hit says that no valid block has the tag
  have hmiss : (∀ w < g.theAssoc, ((t.theSets i).theBlocks w).tag = g.getTag a →
      ((t.theSets i).theBlocks w).state.isValid = false) →
      savedState (c.stateOf (g.getTag a)) = .invalid := by
    intro hno
    by_contra hv
    have hne : (c.theBlocks i).stateOf (g.getTag a) ≠ .invalid := by
      intro hinv
      rw [hc, hinv] at hv
      exact hv rfl
    obtain ⟨e, he, het⟩ := BlockSet.exists_of_stateOf hne
    have hst := BlockSet.stateOf_of_mem (c.wf i).tags_nodup he
    rw [het] at hst
    rw [hc, hst] at hv
    obtain ⟨w, hw, hwb⟩ := (h.holds_iff horder i (g.getTag a) hv).mpr ⟨e, he, het, rfl⟩
    have hinv := hno w hw (by rw [hwb])
    rw [hwb, BasicCacheState.isValid] at hinv
    exact absurd hv (by simpa using hinv)
  rcases (t.theSets i).lookupBlock_cases (g.getTag a) with
    ⟨w, hw, hl, htag, hv⟩ | ⟨w, hw, hl, -, hno⟩ | ⟨hl, hno⟩
  · have hst : t.stateOf a = ((t.theSets i).theBlocks w).state.val := by
      rw [StdArray.stateOf, StdArray.lookup, ← hi, hl]
      rfl
    have hval : ((t.theSets i).theBlocks w).state.val ≠ .invalid := by
      simpa [BasicCacheState.isValid] using hv
    have hholds : t.Holds i (g.getTag a) ((t.theSets i).theBlocks w).state.val := by
      refine ⟨w, hw, ?_⟩
      rw [← htag, ← h.unprotected i w]
    obtain ⟨e, he, het, hes⟩ := (h.holds_iff horder i _ hval).mp hholds
    rw [hst, hc, ← het, BlockSet.stateOf_of_mem (c.wf i).tags_nodup he, hes]
  · rw [hmiss hno, StdArray.stateOf, StdArray.lookup, ← hi, hl]
    rfl
  · rw [hmiss fun w hw ht => absurd ht (hno w hw), StdArray.stateOf, StdArray.lookup, ← hi, hl]
    rfl

/-! ### The order of use -/

theorem map_slot_places (hsave : Savable c) (i pad : ℕ) :
    ((places g.theAssoc (c.theBlocks i)).map (placeBlock pad)).map SetLRU.slot =
      c.recency i ++ List.replicate (g.theAssoc - (c.theBlocks i).length) (pad, false) := by
  rw [places, map_append, map_append, map_replicate, map_replicate, map_map, map_map]
  congr 1
  refine map_congr_left fun e he => ?_
  have hvalid : BasicCacheState.isValid ⟨savedState e.state, false⟩ = e.state.isValid := by
    rw [Bool.eq_iff_iff, CoherenceState.isValid_iff, BasicCacheState.isValid, decide_eq_true_iff,
      not_iff_not]
    exact savedState_eq_invalid_iff (hsave i e he)
  exact congrArg (Prod.mk e.tag) hvalid

theorem recency_of_loadText (h : Loads List.reverse c t) (hsave : Savable c) (i : ℕ) :
    ∃ pad, t.recency i = (c.recency i ++
      List.replicate (g.theAssoc - (c.theBlocks i).length) (pad, false)).reverse := by
  obtain ⟨pad, hb⟩ := h.blocks i
  refine ⟨pad, ?_⟩
  rw [← map_slot_places hsave i pad, ← map_reverse, ← hb, map_map]
  rfl

theorem recency_of_loadBinary (h : Loads id c t) (hsave : Savable c) (i : ℕ) :
    ∃ pad, t.recency i = c.recency i ++
      List.replicate (g.theAssoc - (c.theBlocks i).length) (pad, false) := by
  obtain ⟨pad, hb⟩ := h.blocks i
  refine ⟨pad, ?_⟩
  rw [← map_slot_places hsave i pad]
  rw [id] at hb
  rw [← hb, map_map]
  rfl

theorem length_recency (c : StdCache g) (i : ℕ) :
    (c.recency i).length = (c.theBlocks i).length :=
  length_map _

theorem nodup_recency (c : StdCache g) (i : ℕ) : ((c.recency i).map Prod.fst).Nodup := by
  rw [StdCache.recency, BlockSet.recency, map_map]
  exact (c.wf i).tags_nodup

/-! ### When the order does not matter -/

/-- A set with one slot at most, or without a slot in use, is in order. -/
theorem ordered_of_trivial {n : ℕ} {l : List (ℕ × Bool)} (hn : l.length ≤ n)
    (h : l.length ≤ 1 ∨ ∀ x ∈ l, x.2 = false) :
    Ordered (· = true) n l (l.filter fun x => x.2) := by
  have hvalid : ∀ x ∈ l.filter fun x => x.2, x.2 = true := fun x hx => (mem_filter.mp hx).2
  by_cases hnone : ∀ x ∈ l, x.2 = false
  · have hfilter : l.filter (fun x => x.2) = [] :=
      filter_eq_nil_iff.mpr fun x hx => by simp [hnone x hx]
    rw [hfilter]
    exact ⟨⟨l, (append_nil l).symm, fun x hx => by simp [hnone x hx]⟩, nofun,
      nodup_nil, hn⟩
  · push Not at hnone
    obtain ⟨x, hx, hxv⟩ := hnone
    have hlen : l.length ≤ 1 := h.resolve_right fun hc => hxv (hc x hx)
    obtain rfl : l = [x] := by
      cases l with
      | nil => cases hx
      | cons y l =>
        obtain rfl : l = [] := by simpa using hlen
        rw [mem_singleton.mp hx]
    have hfilter : [x].filter (fun x => x.2) = [x] :=
      filter_eq_self.mpr fun y hy => by simpa [mem_singleton.mp hy] using hxv
    rw [hfilter] at hvalid ⊢
    exact ⟨⟨[], rfl, nofun⟩, hvalid, nodup_singleton _, hn⟩

theorem filter_reverse_of_trivial {l : List (ℕ × Bool)}
    (h : l.length ≤ 1 ∨ ∀ x ∈ l, x.2 = false) :
    l.reverse.filter (fun x => x.2) = l.filter fun x => x.2 := by
  rcases h with h | h
  · match l, h with
    | [], _ => rfl
    | [x], _ => rfl
  · rw [filter_eq_nil_iff.mpr fun x hx => by simp [h x (mem_reverse.mp hx)],
      filter_eq_nil_iff.mpr fun x hx => by simp [h x hx]]

theorem filter_append_pad (l : List (ℕ × Bool)) (k pad : ℕ) :
    (l ++ List.replicate k (pad, false)).filter (fun x => x.2) = l.filter fun x => x.2 := by
  rw [filter_append, filter_replicate_of_neg (by simp), append_nil]

/-- **The condition**: there is one way only, or no valid block. -/
def Plain (c : StdCache g) : Prop := g.theAssoc = 1 ∨ ∀ b, c.stateOf b = .invalid

/-- The set of a checkpoint, filled up. -/
def filled (c : StdCache g) (i pad : ℕ) : List (ℕ × Bool) :=
  c.recency i ++ List.replicate (g.theAssoc - (c.theBlocks i).length) (pad, false)

theorem length_filled (c : StdCache g) (i pad : ℕ) : (filled c i pad).length = g.theAssoc := by
  rw [filled, length_append, length_recency, length_replicate]
  have := (c.wf i).length_le
  omega

theorem valid_of_mem_recency {i : ℕ} {x : ℕ × Bool} (hx : x ∈ c.recency i) (hv : x.2 = true) :
    c.stateOf x.1 ≠ .invalid := by
  obtain ⟨e, he, rfl⟩ := mem_map.mp hx
  have hst : c.stateOf e.tag = e.state := by
    rw [StdCache.stateOf, (c.wf i).isHome e he]
    exact BlockSet.stateOf_of_mem (c.wf i).tags_nodup he
  show c.stateOf e.tag ≠ .invalid
  rw [hst]
  exact CoherenceState.isValid_iff.mp hv

theorem Plain.trivial (h : Plain c) (i pad : ℕ) :
    (filled c i pad).length ≤ 1 ∨ ∀ x ∈ filled c i pad, x.2 = false := by
  refine h.imp (fun hn => ?_) fun hinv x hx => ?_
  · exact Nat.le_of_eq ((length_filled c i pad).trans hn)
  · rcases mem_append.mp hx with hx | hx
    · by_contra hv
      exact valid_of_mem_recency hx (by simpa using hv) (hinv x.1)
    · rw [eq_of_mem_replicate hx]

/-- **The victims of an array that was loaded**, under the condition. -/
theorem trace_of_plain (h : Plain c) (hun : t.Unprotected)
    (hrec : ∀ i, ∃ pad, t.recency i = filled c i pad ∨ t.recency i = (filled c i pad).reverse)
    (xs : List StdArray.Access) :
    trace StdArray.access t xs = trace StdCache.access c xs := by
  have hfun : ∀ i, Ordered (· = true) g.theAssoc (c.recency i)
      ((c.recency i).filter fun x => x.2) := by
    intro i
    refine ordered_of_trivial ?_ ((h.trivial i 0).imp (fun hlen => ?_) fun hinv x hx => ?_)
    · rw [length_recency]
      exact (c.wf i).length_le
    · rw [filled, length_append] at hlen
      omega
    · exact hinv x (mem_append_left _ hx)
  rw [(StdCache.replaces g).trace_of_ordered True.intro hfun xs,
    (StdArray.replaces g).trace_of_ordered hun (fun i => ?_) xs]
  obtain ⟨pad, hr⟩ := hrec i
  have hfilter : (filled c i pad).filter (fun x => x.2) = (c.recency i).filter fun x => x.2 :=
    filter_append_pad _ _ _
  have hlen : (filled c i pad).length ≤ g.theAssoc := Nat.le_of_eq (length_filled c i pad)
  rw [← hfilter]
  rcases hr with hr | hr
  · rw [hr]
    exact ordered_of_trivial hlen (h.trivial i pad)
  · rw [hr, ← filter_reverse_of_trivial (h.trivial i pad)]
    refine ordered_of_trivial (by rwa [length_reverse]) ?_
    refine (h.trivial i pad).imp (fun hlen => by rwa [length_reverse]) fun hinv x hx => ?_
    exact hinv x (mem_reverse.mp hx)

/-! ### When it does -/

/-- Blocks that were never used, in a given set. -/
def freshAccess (g : Geometry) (i k : ℕ) : StdArray.Access :=
  ⟨(k * 2 ^ g.setBits + i) * 2 ^ g.blockShift, .shared, nofun⟩

theorem getTag_freshAccess (i k : ℕ) :
    g.getTag (freshAccess g i k).address = (freshAccess g i k).address := by
  rw [freshAccess, Geometry.getTag, Nat.mul_div_cancel _ (Nat.two_pow_pos _)]

theorem getSet_freshAccess {i : ℕ} (hi : i < 2 ^ g.setBits) (k : ℕ) :
    g.getSet (freshAccess g i k).address = i := by
  rw [freshAccess, Geometry.getSet, Nat.mul_div_cancel _ (Nat.two_pow_pos _),
    Nat.mul_add_mod_self_right, Nat.mod_eq_of_lt hi]

theorem le_freshAccess (i k : ℕ) : k ≤ (freshAccess g i k).address :=
  calc k ≤ k * 2 ^ g.setBits := Nat.le_mul_of_pos_right _ (Nat.two_pow_pos _)
    _ ≤ k * 2 ^ g.setBits + i := Nat.le_add_right _ _
    _ ≤ (k * 2 ^ g.setBits + i) * 2 ^ g.blockShift :=
      Nat.le_mul_of_pos_right _ (Nat.two_pow_pos _)

theorem freshAccess_injective (i : ℕ) {k k' : ℕ}
    (h : (freshAccess g i k).address = (freshAccess g i k').address) : k = k' := by
  have h₁ := Nat.eq_of_mul_eq_mul_right (Nat.two_pow_pos _) h
  exact Nat.eq_of_mul_eq_mul_right (Nat.two_pow_pos _) (Nat.add_right_cancel h₁)

/-- **As many new blocks of a set as one likes.** -/
theorem exists_fresh {i : ℕ} (hi : i < 2 ^ g.setBits) (keys : List ℕ) (k : ℕ) :
    ∃ xs : List StdArray.Access, xs.length = k ∧
      (xs.map fun x => g.getTag x.address).Nodup ∧
      ∀ x ∈ xs, g.getSet (g.getTag x.address) = i ∧ g.getTag x.address ∉ keys := by
  obtain ⟨N, hN⟩ : ∃ N, ∀ y ∈ keys, y < N := by
    induction keys with
    | nil => exact ⟨0, nofun⟩
    | cons y keys ih =>
      obtain ⟨N, hN⟩ := ih
      refine ⟨max N (y + 1), fun z hz => ?_⟩
      rcases mem_cons.mp hz with rfl | hz
      · omega
      · have := hN z hz
        omega
  refine ⟨(List.range k).map fun j => freshAccess g i (N + j), by simp, ?_, ?_⟩
  · rw [map_map]
    refine List.Nodup.map_on (fun j _ j' _ hj => ?_) nodup_range
    simp only [Function.comp_apply, getTag_freshAccess] at hj
    have := freshAccess_injective i hj
    omega
  · intro x hx
    obtain ⟨j, -, rfl⟩ := mem_map.mp hx
    rw [getTag_freshAccess]
    refine ⟨getSet_freshAccess hi _, fun hc => ?_⟩
    have h₁ := hN _ hc
    have h₂ := le_freshAccess (g := g) i (N + j)
    omega

theorem exists_neighbours {α : Type} {l : List α} {p : α → Prop} {z : α} (hz : z ∈ l) (hp : p z)
    (hl : 2 ≤ l.length) : ∃ q x y r, l = q ++ x :: y :: r ∧ (p x ∨ p y) := by
  obtain ⟨q, r, rfl⟩ := append_of_mem hz
  cases r with
  | cons y r => exact ⟨q, z, y, r, rfl, .inl hp⟩
  | nil =>
    rcases eq_nil_or_concat q with rfl | ⟨q, x, rfl⟩
    · simp at hl
    · exact ⟨q, x, z, [], by simp, .inr hp⟩

theorem filter_neighbours {q r : List (ℕ × Bool)} {x y : ℕ × Bool}
    (h : ((q ++ x :: y :: r).map Prod.fst).Nodup) : x.1 ≠ y.1 ∧
    (q ++ x :: y :: r).filter (fun z => z.1 ∉ (q ++ r).map Prod.fst) = [x, y] := by
  have hperm : (q ++ x :: y :: r).Perm (x :: y :: (q ++ r)) :=
    perm_middle.trans (List.Perm.cons x perm_middle)
  have hnodup := (hperm.map Prod.fst).nodup_iff.mp h
  rw [map_cons, map_cons, nodup_cons, nodup_cons, mem_cons, not_or] at hnodup
  have hnil : ∀ l : List (ℕ × Bool), (∀ z ∈ l, z ∈ q ++ r) →
      l.filter (fun z => z.1 ∉ (q ++ r).map Prod.fst) = [] := by
    intro l hl
    refine filter_eq_nil_iff.mpr fun z hz => ?_
    rw [decide_eq_true_iff, not_not]
    exact mem_map_of_mem (hl z hz)
  refine ⟨hnodup.1.1, ?_⟩
  rw [filter_append, filter_cons_of_pos (by simpa using hnodup.1.2),
    filter_cons_of_pos (by simpa using hnodup.2.1),
    hnil q fun z hz => mem_append_left _ hz, hnil r fun z hz => mem_append_right _ hz]
  rfl

/-- Two slots, one of them in use, are told apart by what is given up with them. -/
theorem givenUp_ne {x y : ℕ × Bool} (hne : x.1 ≠ y.1) (hv : x.2 = true ∨ y.2 = true) :
    (givenUp (· = true) x).map Prod.fst ≠ (givenUp (· = true) y).map Prod.fst := by
  obtain ⟨k, b⟩ := x
  obtain ⟨k', b'⟩ := y
  cases b with
  | false =>
    obtain rfl : b' = true := by simpa using hv
    exact nofun
  | true =>
    cases b' with
    | false => exact nofun
    | true => exact fun hc => hne (Option.some.inj hc)

/-- An access to a block that is there. -/
def touchAccess (b : ℕ) : StdArray.Access := ⟨b, .shared, nofun⟩

theorem home_of_mem_recency {i : ℕ} {z : ℕ × Bool} (hz : z ∈ c.recency i) :
    g.getTag z.1 = z.1 ∧ g.getSet z.1 = i := by
  obtain ⟨e, he, rfl⟩ := mem_map.mp hz
  exact ⟨(c.wf i).isTag e he, (c.wf i).isHome e he⟩

/-- **A full set is loaded in the wrong order from a text checkpoint**: two neighbours of the
order change places. -/
theorem exists_trace_ne_of_full (hun : t.Unprotected) {i : ℕ}
    (hrec : t.recency i = (c.recency i).reverse) (hfull : (c.theBlocks i).length = g.theAssoc)
    (hassoc : 2 ≤ g.theAssoc) {z : ℕ × Bool} (hz : z ∈ c.recency i) (hv : z.2 = true) :
    ∃ xs, trace StdArray.access t xs ≠ trace StdCache.access c xs := by
  have hlen : (c.recency i).length = g.theAssoc := (length_recency c i).trans hfull
  have hnodup := nodup_recency c i
  obtain ⟨q, x, y, r, hl, hxy⟩ := exists_neighbours (p := fun z => z.2 = true) hz hv (by omega)
  have hi : i < 2 ^ g.setBits := by
    rw [← (home_of_mem_recency hz).2]
    exact Nat.mod_lt _ (Nat.two_pow_pos _)
  -- all other blocks are used, and then a new one comes
  obtain ⟨ys, hys, -, hnew⟩ := exists_fresh hi ((c.recency i).map Prod.fst) 1
  obtain ⟨f, rfl⟩ := length_eq_one_iff.mp hys
  obtain ⟨hf, hfnew⟩ := hnew f mem_cons_self
  set xs := (q ++ r).map fun z => touchAccess z.1 with hxs
  have hmem : ∀ z ∈ q ++ r, z ∈ c.recency i := by
    intro z hz
    rw [hl]
    simp only [mem_append, mem_cons] at hz ⊢
    tauto
  have hkeys : xs.map (fun x => g.getTag x.address) = (q ++ r).map Prod.fst := by
    rw [hxs, map_map]
    exact map_congr_left fun z hz => (home_of_mem_recency (hmem z hz)).1
  have htouch : ∀ x ∈ xs, g.getSet (g.getTag x.address) = i ∧
      g.getTag x.address ∈ (c.recency i).map Prod.fst := by
    intro x hx
    obtain ⟨z, hz, rfl⟩ := mem_map.mp hx
    obtain ⟨h₁, h₂⟩ := home_of_mem_recency (hmem z hz)
    rw [show (touchAccess z.1).address = z.1 from rfl, h₁]
    exact ⟨h₂, mem_map_of_mem (hmem z hz)⟩
  have hmap : (t.recency i).map Prod.fst = ((c.recency i).map Prod.fst).reverse := by
    rw [hrec, map_reverse]
  obtain ⟨hne, hfilter⟩ := filter_neighbours (hl ▸ hnodup)
  have hfun := (StdCache.replaces g).trace_touch_fresh (s := c) (i := i) (x := x) (q := [y])
    True.intro hnodup (Nat.le_of_eq hlen.symm) htouch hf hfnew (by rw [hkeys, hl, hfilter])
  have htext := (StdArray.replaces g).trace_touch_fresh (s := t) (i := i) (x := y) (q := [x])
    hun (by rw [hmap]; exact nodup_reverse.mpr hnodup)
    (by rw [hrec, length_reverse]; omega)
    (fun x hx => by rw [hmap, mem_reverse]; exact htouch x hx) hf
    (by rw [hmap, mem_reverse]; exact hfnew)
    (by rw [hkeys, hrec, filter_reverse, hl, hfilter]; rfl)
  refine ⟨xs ++ [f], fun hc => ?_⟩
  rw [hfun, htext, Option.some.injEq, append_cancel_left_eq, List.cons.injEq] at hc
  exact givenUp_ne hne.symm hxy.symm hc.1

theorem exists_first_valid {l : List (ℕ × Bool)} {z : ℕ × Bool} (hz : z ∈ l) (hv : z.2 = true) :
    ∃ free k q, l = free ++ (k, true) :: q ∧ ∀ x ∈ free, x.2 = false := by
  induction l with
  | nil => cases hz
  | cons y l ih =>
    obtain ⟨k, b⟩ := y
    cases b with
    | true => exact ⟨[], k, l, rfl, nofun⟩
    | false =>
      rcases mem_cons.mp hz with rfl | hz
      · cases hv
      · obtain ⟨free, k', q, rfl, hfree⟩ := ih hz
        refine ⟨(k, false) :: free, k', q, rfl, fun x hx => ?_⟩
        rcases mem_cons.mp hx with rfl | hx
        · rfl
        · exact hfree x hx

/-- **A set that is not full is loaded in the wrong order from a binary checkpoint**: the
places that fill it up are given away last, and not first. -/
theorem exists_trace_ne_of_not_full (hun : t.Unprotected) {i pad : ℕ}
    (hrec : t.recency i = filled c i pad) (hroom : (c.theBlocks i).length < g.theAssoc)
    {z : ℕ × Bool} (hz : z ∈ c.recency i) (hv : z.2 = true) :
    ∃ xs, trace StdArray.access t xs ≠ trace StdCache.access c xs := by
  obtain ⟨free, k, q, hl, hfree⟩ := exists_first_valid hz hv
  have hi : i < 2 ^ g.setBits := by
    rw [← (home_of_mem_recency hz).2]
    exact Nat.mod_lt _ (Nat.two_pow_pos _)
  have hlen := length_recency c i
  rw [hl, length_append, length_cons] at hlen
  -- the slots that are free in front are used up, and one more
  obtain ⟨xs, hxs, hnodup, hnew⟩ := exists_fresh hi
    ((c.recency i).map Prod.fst ++ (t.recency i).map Prod.fst) (free.length + 1)
  have hfun := (StdCache.replaces g).trace_fresh_none (s := c) (i := i) True.intro hl hfree xs
    (fun x hx => (hnew x hx).1) hnodup
    (fun x hx hc => (hnew x hx).2 (mem_append_left _ hc)) (by
      rw [length_cons]
      omega)
  have hsplit : t.recency i = free ++ (k, true) ::
      (q ++ List.replicate (g.theAssoc - (c.theBlocks i).length) (pad, false)) := by
    rw [hrec, filled, hl, append_assoc]
    rfl
  have hbin := (StdArray.replaces g).trace_fresh_some (s := t) (i := i) hun hsplit hfree
    (Nat.le_of_eq (by rw [hrec, length_filled])) xs (fun x hx => (hnew x hx).1) hnodup
    (fun x hx hc => (hnew x hx).2 (mem_append_right _ hc)) hxs
  refine ⟨xs, fun hc => ?_⟩
  rw [hfun, hbin, hxs, replicate_succ', Option.some.injEq, append_cancel_left_eq] at hc
  cases hc

/-! ### Text and binary checkpoints -/

/-- What a text checkpoint of a cache is loaded into. -/
def viaText (c : StdCache g) : Option (StdArray g) := do
  let ts ← c.saveText
  (StdArray.init g).loadText ts

/-- What a binary checkpoint of a cache is loaded into. -/
def viaBinary (c : StdCache g) : Option (StdArray g) := do
  let a ← c.saveBinary
  (StdArray.init g).loadBinary a

/-- **Both checkpoints of a cache load the same cache**: the same valid blocks in the same
states, which are those of the functional cache, each found by a lookup; and the same
victims, which are those of the functional cache, for every sequence of accesses. -/
structure Agree (c : StdCache g) (t b : StdArray g) : Prop where
  holds : ∀ i k v, v ≠ .invalid → (t.Holds i k v ↔ b.Holds i k v) ∧
    (b.Holds i k v ↔ ∃ e ∈ c.theBlocks i, e.tag = k ∧ savedState e.state = v)
  found : ∀ a, t.stateOf a = b.stateOf a ∧ b.stateOf a = savedState (c.stateOf (g.getTag a))
  victims : ∀ xs, trace StdArray.access t xs = trace StdArray.access b xs ∧
    trace StdArray.access b xs = trace StdCache.access c xs

theorem exists_via (hsave : Savable c) : ∃ t b, viaText c = some t ∧ viaBinary c = some b ∧
    Loads List.reverse c t ∧ Loads id c b := by
  obtain ⟨ts, t, hts, ht, hlt⟩ := loadText_saveText c hsave
  obtain ⟨a, b, ha, hb, hlb⟩ := loadBinary_saveBinary c hsave
  refine ⟨t, b, ?_, ?_, hlt, hlb⟩
  · rw [viaText, hts]
    exact ht
  · rw [viaBinary, ha]
    exact hb

/-- A cache that is not plain is loaded in the wrong order from one of its checkpoints. -/
theorem exists_victims_ne (hsave : Savable c) {b : StdArray g} (hlt : Loads List.reverse c t)
    (hlb : Loads id c b) (h : ¬ Plain c) :
    ∃ xs, trace StdArray.access t xs ≠ trace StdCache.access c xs ∨
      trace StdArray.access b xs ≠ trace StdCache.access c xs := by
  rw [Plain, not_or, not_forall] at h
  obtain ⟨hassoc, k, hk⟩ := h
  obtain ⟨e, he, rfl⟩ := BlockSet.exists_of_stateOf hk
  have hv : e.state.isValid = true := by
    rw [CoherenceState.isValid_iff, ← BlockSet.stateOf_of_mem (c.wf _).tags_nodup he]
    exact hk
  have hz : BlockSet.slot e ∈ c.recency (g.getSet e.tag) := mem_map_of_mem he
  have hpos := g.assoc_pos
  rcases Nat.lt_or_eq_of_le (c.wf (g.getSet e.tag)).length_le with hlt' | heq
  · obtain ⟨pad, hr⟩ := recency_of_loadBinary hlb hsave (g.getSet e.tag)
    obtain ⟨xs, hxs⟩ := exists_trace_ne_of_not_full hlb.unprotected hr hlt' hz hv
    exact ⟨xs, .inr hxs⟩
  · obtain ⟨pad, hr⟩ := recency_of_loadText hlt hsave (g.getSet e.tag)
    rw [heq, Nat.sub_self, replicate_zero, append_nil] at hr
    obtain ⟨xs, hxs⟩ := exists_trace_ne_of_full hlt.unprotected hr heq (by omega) hz hv
    exact ⟨xs, .inl hxs⟩

/-- **When text and binary checkpoints load the same cache**: exactly when there is one way
only, or no valid block. -/
theorem agree_iff (c : StdCache g) (hsave : Savable c) :
    (∃ t b, viaText c = some t ∧ viaBinary c = some b ∧ Agree c t b) ↔
      g.theAssoc = 1 ∨ ∀ b, c.stateOf b = .invalid := by
  obtain ⟨t, b, ht, hb, hlt, hlb⟩ := exists_via hsave
  constructor
  · rintro ⟨t', b', ht', hb', hagree⟩
    obtain rfl := Option.some.inj (ht.symm.trans ht')
    obtain rfl := Option.some.inj (hb.symm.trans hb')
    by_contra hplain
    obtain ⟨xs, hne | hne⟩ := exists_victims_ne hsave hlt hlb hplain
    · exact hne ((hagree.victims xs).1.trans (hagree.victims xs).2)
    · exact hne (hagree.victims xs).2
  · intro hplain
    refine ⟨t, b, ht, hb, fun i k v hv => ?_, fun a => ?_, fun xs => ?_⟩
    · rw [hlt.holds_iff (fun _ _ => mem_reverse) i k hv, hlb.holds_iff (fun _ _ => Iff.rfl) i k hv]
      exact ⟨Iff.rfl, Iff.rfl⟩
    · rw [hlt.stateOf_eq (fun _ _ => mem_reverse) a, hlb.stateOf_eq (fun _ _ => Iff.rfl) a]
      exact ⟨rfl, rfl⟩
    · have htext := trace_of_plain hplain hlt.unprotected (fun i => by
        obtain ⟨pad, hr⟩ := recency_of_loadText hlt hsave i
        exact ⟨pad, .inr hr⟩) xs
      have hbin := trace_of_plain hplain hlb.unprotected (fun i => by
        obtain ⟨pad, hr⟩ := recency_of_loadBinary hlb hsave i
        exact ⟨pad, .inl hr⟩) xs
      exact ⟨htext.trans hbin.symm, hbin⟩

/-! ### The caches of a stack -/

section Stacks

open FastCache FastCache.Stack

variable {k : ℕ}

/-- A property of every cache of a stack. -/
def EveryCache (P : ∀ g : Geometry, StdCache g → Prop) : (sh : Shape) → Contents k sh → Prop
  | .nothing, _ => True
  | .cache l i d, st => P (l.geometry k) st.cache ∧ EveryCache P i st.instr ∧
      EveryCache P d st.data

theorem savable_of_mesi (h : ∀ b, IsMESI (c.stateOf b)) : Savable c := by
  intro i e he hc
  have hst : c.stateOf e.tag = .migratory := by
    rw [StdCache.stateOf, (c.wf i).isHome e he, ← hc]
    exact BlockSet.stateOf_of_mem (c.wf i).tags_nodup he
  have hmesi := h e.tag
  rw [hst] at hmesi
  rcases hmesi with hmesi | hmesi | hmesi | hmesi <;> cases hmesi

/-- The caches of a stack whose blocks are covered can be saved. -/
theorem everyCache_of_under (P : ∀ g : Geometry, StdCache g → Prop)
    (hP : ∀ g (c : StdCache g), Savable c → P g c) (sh : Shape) (sd : Side)
    (x : ℕ → CoherenceState) (st : Contents k sh) (h : ∀ b, Under sd sh (x b) st b) :
    EveryCache P sh st := by
  induction sh generalizing sd x with
  | nothing => trivial
  | cache l i d ihi ihd =>
    refine ⟨hP _ _ (savable_of_mesi fun b => (h b).1.mesi), ?_, ?_⟩
    · exact ihi .instr _ st.instr fun b => (h b).2.1
    · exact ihd sd _ st.data fun b => (h b).2.2

/-- Both checkpoints of a cache load the same cache. -/
def CheckpointsAgree (g : Geometry) (c : StdCache g) : Prop :=
  ∃ t b, viaText c = some t ∧ viaBinary c = some b ∧ Agree c t b

/-- **When the checkpoints of a cache agree**: for every cache that can be saved, and so for every
cache of a stack that has run, exactly when it has one way only, or holds no valid block. -/
theorem checkpointsAgree_iff (k : ℕ) (sh : Shape) (s : Stack k sh)
    (h : (machine k sh).Reachable s) :
    EveryCache (fun g c => CheckpointsAgree g c ↔ g.theAssoc = 1 ∨ ∀ b, c.stateOf b = .invalid)
      sh s.contents ∧
    ∀ (g : Geometry) (c : StdCache g), Savable c →
      (CheckpointsAgree g c ↔ g.theAssoc = 1 ∨ ∀ b, c.stateOf b = .invalid) :=
  ⟨everyCache_of_under _ (fun _ c hc => agree_iff c hc) sh .data _ s.contents
    (inv_of_reachable h).under, fun _ c hc => agree_iff c hc⟩

/-- A cache with one way, and a store. -/
theorem checkpointsAgree_store : ∃ s : Stack 6 (.cache smallLevel .nothing .nothing),
    (machine 6 (.cache smallLevel .nothing .nothing)).run [.data .store 64 []] = .ok s ∧
      CheckpointsAgree _ (Contents.cache s.contents) := by
  have hends : (machine 6 (.cache smallLevel .nothing .nothing)).endsIn (fun _ => true)
      [.data .store 64 []] = true := by decide +kernel
  obtain ⟨s, hs, -⟩ := Machine.exists_of_endsIn hends
  exact ⟨s, hs, (checkpointsAgree_iff _ _ s (Machine.reachable_of_run hs)).1.1.mpr (.inl rfl)⟩

/-- A cache with two ways. -/
def twoWays : Level := ⟨0, 2, Nat.two_pos, ⟨false, true, false⟩⟩

/-- **The order is turned around**: two blocks are loaded, and the array that comes from the
text checkpoint gives up the second one for a third. -/
theorem textCheckpoint_reversed :
    ¬ ∀ (k : ℕ) (l : Level) (s : Stack k (.cache l .nothing .nothing)),
    (machine k (.cache l .nothing .nothing)).Reachable s →
      CheckpointsAgree _ (Contents.cache s.contents) := by
  intro h
  have hends : (machine 6 (.cache twoWays .nothing .nothing)).endsIn
      (fun s => (viaText (Contents.cache s.contents)).bind
          (fun t => trace StdArray.access t [⟨128, .shared, nofun⟩]) = some [some 64] ∧
        trace StdCache.access (Contents.cache s.contents) [⟨128, .shared, nofun⟩] =
          some [some 0])
      [.data .load 0 [], .data .load 64 []] = true := by decide +kernel
  obtain ⟨s, hs, htest⟩ := Machine.exists_of_endsIn hends
  obtain ⟨htext, hfun⟩ := of_decide_eq_true htest
  obtain ⟨t, b, ht, -, hagree⟩ := h 6 twoWays s (Machine.reachable_of_run hs)
  obtain ⟨htb, hbc⟩ := hagree.victims [⟨128, .shared, nofun⟩]
  rw [ht, Option.bind_some, htb, hbc, hfun] at htext
  exact absurd htext (by decide)

end Stacks

end Cache

end Flexus
