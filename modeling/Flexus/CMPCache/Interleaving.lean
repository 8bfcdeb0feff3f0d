import Flexus.CMPCache.Arrays
import Flexus.Lib.Archive
import Flexus.Lib.Fields

/-!
# Banks that load their part of a checkpoint

The sets of a functional cache are interleaved over the groups and banks of the timing model
(`StdArray::init` and `StdDirectory::init`):

```
  +---------+------------+-------+-----+------+-----------+-----------------+
  | Tag     | Index High | Group | Mid | Bank | Index Low |  BlockOffset    |
  +---------+------------+-------+-----+------+-----------+-----------------+
```

A bank loads a checkpoint of the whole cache by going through all *global* sets. A set whose
first address selects the bank goes into the next of its *local* sets, and the others are
skipped (`Flexus.CMPCache.loadSets`). So the local number of a global set is the number of the
global sets before it that go to the same bank; that this is the number which `makeSet`
computes from an address of the set is `Flexus.CMPCache.Geometry.Regular.getElem?_globalSets`.
-/

namespace Flexus

open Function Lib List

namespace CMPCache

/-! ### The fields of an address -/

namespace Geometry

variable (g : Geometry)

/-- `getBank`, without the skew. -/
def getBank (a : ℕ) : ℕ := (a >>> g.theBankInterleaving.log2) &&& (g.theBanks - 1)

/-- `getGroup`, without the skew. -/
def getGroup (a : ℕ) : ℕ := (a >>> g.theGroupInterleaving.log2) &&& (g.theGroups - 1)

/-- `theTotalSets`. -/
def theTotalSets : ℕ := g.theNumSets * g.theBanks * g.theGroups

/-- **A regular geometry**: all its numbers are powers of two, `init` accepts it, and the bits
that select the bank and the group are bits of the global set index. -/
structure Regular : Prop where
  sets : g.theNumSets.isPowerOfTwo
  blockSize : g.theBlockSize.isPowerOfTwo
  banks : g.theBanks.isPowerOfTwo
  groups : g.theGroups.isPowerOfTwo
  bankInterleaving : g.theBankInterleaving.isPowerOfTwo
  groupInterleaving : g.theGroupInterleaving.isPowerOfTwo
  accepted : g.theBankInterleaving * g.theBanks ≤ g.theGroupInterleaving
  bankInside : g.theBlockSize ≤ g.theBankInterleaving
  groupInside : g.theGroupInterleaving * g.theGroups ≤ g.theTotalSets * g.theBlockSize

/-- The widths of the fields of an address. -/
structure Widths (blockOffset low bank mid group high : ℕ) : Prop where
  sets : g.theNumSets = 2 ^ (low + mid + high)
  blockSize : g.theBlockSize = 2 ^ blockOffset
  banks : g.theBanks = 2 ^ bank
  groups : g.theGroups = 2 ^ group
  bankInterleaving : g.theBankInterleaving = 2 ^ (blockOffset + low)
  groupInterleaving : g.theGroupInterleaving = 2 ^ (blockOffset + low + bank + mid)

variable {g}

/-- **The fields of an address in a regular geometry.** -/
theorem Regular.widths (h : g.Regular) :
    ∃ blockOffset low bank mid group high, g.Widths blockOffset low bank mid group high := by
  obtain ⟨n, hn⟩ := h.sets
  obtain ⟨o, ho⟩ := h.blockSize
  obtain ⟨k, hk⟩ := h.banks
  obtain ⟨r, hr⟩ := h.groups
  obtain ⟨p, hp⟩ := h.bankInterleaving
  obtain ⟨q, hq⟩ := h.groupInterleaving
  have hop : o ≤ p := by
    have := h.bankInside
    rw [ho, hp] at this
    exact (Nat.pow_le_pow_iff_right Nat.one_lt_two).mp this
  have hpq : p + k ≤ q := by
    have := h.accepted
    rw [hp, hk, hq, ← Nat.pow_add] at this
    exact (Nat.pow_le_pow_iff_right Nat.one_lt_two).mp this
  have hqn : q + r ≤ n + k + r + o := by
    have := h.groupInside
    rw [theTotalSets, hq, hr, hn, hk, ho, ← Nat.pow_add, ← Nat.pow_add, ← Nat.pow_add,
      ← Nat.pow_add] at this
    exact (Nat.pow_le_pow_iff_right Nat.one_lt_two).mp this
  refine ⟨o, p - o, k, q - p - k, r, n - (p - o) - (q - p - k), ?_, ho, hk, hr, ?_, ?_⟩
  · rw [hn]
    congr 1
    omega
  · rw [hp]
    congr 1
    omega
  · rw [hq]
    congr 1
    omega

/-- **The three parts of the index**: whatever the widths are, they are cut out of the block
number without bank and group. -/
theorem makeSet_eq_of_bits {o l k m r h : ℕ} (ho : g.theBlockSize = 2 ^ o)
    (hk : g.theBanks = 2 ^ k) (hr : g.theGroups = 2 ^ r) (hl : g.lowBits = l)
    (hm : g.midBits = m) (hh : g.highBits = h) (a : ℕ) : g.makeSet a =
    removeField (l + m) r (removeField l k (a / 2 ^ o)) % 2 ^ (l + m + h) := by
  refine Nat.eq_of_testBit_eq fun j => ?_
  rw [makeSet]
  rw [hl, hm, hh, ho, hk, hr, Nat.log2_two_pow, Nat.log2_two_pow, Nat.log2_two_pow]
  simp only [Nat.testBit_or, Nat.testBit_and, Nat.testBit_shiftRight, Nat.testBit_shiftLeft,
    Nat.testBit_two_pow_sub_one, Nat.testBit_mod_two_pow, testBit_removeField,
    Nat.testBit_div_two_pow]
  -- the three masks cut the index into its parts: below, between and above
  rcases Nat.lt_or_ge j l with hl | hl
  · rw [if_pos (by omega), if_pos hl, decide_eq_true hl, decide_eq_false (by omega : ¬j ≥ l),
      decide_eq_false (by omega : ¬j ≥ m + l), decide_eq_true (by omega : j < l + m + h)]
    simp [Nat.add_comm]
  · rcases Nat.lt_or_ge j (l + m) with hm | hm
    · rw [if_pos hm, if_neg (by omega), decide_eq_false (by omega : ¬j < l),
        decide_eq_true (by omega : j ≥ l), decide_eq_true (by omega : j - l < m),
        decide_eq_false (by omega : ¬j ≥ m + l), decide_eq_true (by omega : j < l + m + h)]
      simp only [Bool.and_false, Bool.and_true, Bool.true_and, Bool.false_or, Bool.false_and,
        Bool.or_false]
      congr 1
      omega
    · rw [if_neg (by omega), if_neg (by omega), decide_eq_false (by omega : ¬j < l),
        decide_eq_false (by omega : ¬j - l < m), decide_eq_true (by omega : j ≥ m + l)]
      have hlt : decide (j - (m + l) < h) = decide (j < l + m + h) :=
        decide_eq_decide.mpr (by omega)
      rw [hlt]
      simp only [Bool.and_false, Bool.true_and, Bool.false_or]
      rw [Bool.and_comm]
      congr 2
      omega

section Widths

variable {o l k m r h : ℕ} (hw : g.Widths o l k m r h)

include hw

theorem Widths.lowBits : g.lowBits = l := by
  rw [Geometry.lowBits, hw.bankInterleaving, hw.blockSize, Nat.log2_two_pow, Nat.log2_two_pow]
  omega

theorem Widths.midBits : g.midBits = m := by
  rw [Geometry.midBits, hw.lowBits, hw.groupInterleaving, hw.bankInterleaving, hw.banks, hw.sets,
    Nat.log2_two_pow, Nat.log2_two_pow, Nat.log2_two_pow, Nat.log2_two_pow]
  rw [if_neg (by omega)]
  omega

theorem Widths.highBits : g.highBits = h := by
  rw [Geometry.highBits, hw.midBits, hw.lowBits, hw.sets, Nat.log2_two_pow]
  omega

theorem Widths.totalSets : g.theTotalSets = 2 ^ (l + m + h + r + k) := by
  rw [theTotalSets, hw.sets, hw.banks, hw.groups, ← Nat.pow_add, ← Nat.pow_add]
  congr 1
  omega

theorem Widths.getBank_eq (a : ℕ) : g.getBank a = field l k (a / 2 ^ o) := by
  rw [getBank, hw.bankInterleaving, hw.banks, Nat.log2_two_pow, Nat.and_two_pow_sub_one_eq_mod,
    Nat.shiftRight_eq_div_pow, Nat.pow_add, ← Nat.div_div_eq_div_mul]
  rfl

/-- The group of an address is a field of what is left without the bank. -/
theorem Widths.getGroup_eq (a : ℕ) :
    g.getGroup a = field (l + m) r (removeField l k (a / 2 ^ o)) := by
  refine Nat.eq_of_testBit_eq fun j => ?_
  rw [getGroup, hw.groupInterleaving, hw.groups, Nat.log2_two_pow, Nat.testBit_and,
    Nat.testBit_shiftRight, Nat.testBit_two_pow_sub_one, testBit_field,
    testBit_removeField, if_neg (by omega), Nat.testBit_div_two_pow, Bool.and_comm]
  congr 2
  omega

/-- **The set of an address** is what is left of its block number without bank and group. -/
theorem Widths.makeSet_eq (a : ℕ) : g.makeSet a =
    removeField (l + m) r (removeField l k (a / 2 ^ o)) % 2 ^ (l + m + h) :=
  makeSet_eq_of_bits hw.blockSize hw.banks hw.groups hw.lowBits hw.midBits hw.highBits a

end Widths

/-! ### The global sets of a bank -/

/-- The test of the loader: the first address of a global set selects the bank. -/
def belongs (bank group : ℕ → ℕ) (blockSize b q s : ℕ) : Bool :=
  bank (s * blockSize) == b && group (s * blockSize) == q

/-- The global sets that a bank of a group loads. -/
def globalSets (g : Geometry) (b q : ℕ) : List ℕ :=
  (List.range g.theTotalSets).filter (belongs g.getBank g.getGroup g.theBlockSize b q)

theorem belongs_iff {bank group : ℕ → ℕ} {blockSize b q s : ℕ} :
    belongs bank group blockSize b q s = true ↔
      bank (s * blockSize) = b ∧ group (s * blockSize) = q := by
  rw [belongs, Bool.and_eq_true, beq_iff_eq, beq_iff_eq]

/-- **The global sets of a bank are numbered by `makeSet`**, in their order and without
gaps. -/
theorem Regular.map_globalSets (hg : g.Regular) {b q : ℕ} (hb : b < g.theBanks)
    (hq : q < g.theGroups) :
    (g.globalSets b q).map (fun s => g.makeSet (s * g.theBlockSize)) =
      List.range g.theNumSets := by
  obtain ⟨o, l, k, m, r, h, hw⟩ := hg.widths
  have hdiv : ∀ s, s * g.theBlockSize / 2 ^ o = s := fun s => by
    rw [hw.blockSize]
    exact Nat.mul_div_cancel _ (Nat.two_pow_pos o)
  have hbelongs : ∀ s, belongs g.getBank g.getGroup g.theBlockSize b q s = true ↔
      field l k s = b ∧ field (l + m) r (removeField l k s) = q := fun s => by
    rw [belongs_iff, hw.getBank_eq, hw.getGroup_eq, hdiv]
  have hset : ∀ s < g.theTotalSets, g.makeSet (s * g.theBlockSize) =
      removeField (l + m) r (removeField l k s) := fun s hs => by
    rw [hw.totalSets] at hs
    rw [hw.makeSet_eq, hdiv]
    exact Nat.mod_eq_of_lt (removeField_lt (by omega) (removeField_lt (by omega) hs))
  rw [hw.banks] at hb
  rw [hw.groups] at hq
  refine map_filter_range ?_ ?_ ?_
  · intro s hs _
    rw [hset s hs]
    rw [hw.totalSets] at hs
    rw [hw.sets]
    exact removeField_lt (by omega) (removeField_lt (by omega) hs)
  · intro x y hxy hy hx' hy'
    obtain ⟨hbx, hqx⟩ := (hbelongs x).mp hx'
    obtain ⟨hby, hqy⟩ := (hbelongs y).mp hy'
    rw [hset x (hxy.trans hy), hset y hy]
    exact removeField_lt_of_field_eq
      (removeField_lt_of_field_eq hxy (hbx.trans hby.symm)) (hqx.trans hqy.symm)
  · intro s hs
    rw [hw.sets] at hs
    have hlt : insertField l k b (insertField (l + m) r q s) < g.theTotalSets := by
      rw [hw.totalSets]
      exact insertField_lt (by omega) hb (insertField_lt (by omega) hq hs)
    refine ⟨insertField l k b (insertField (l + m) r q s), hlt, ?_, ?_⟩
    · rw [hbelongs, field_insertField hb, removeField_insertField hb, field_insertField hq]
      exact ⟨rfl, rfl⟩
    · rw [hset _ hlt, removeField_insertField hb, removeField_insertField hq]

theorem Regular.length_globalSets (hg : g.Regular) {b q : ℕ} (hb : b < g.theBanks)
    (hq : q < g.theGroups) : (g.globalSets b q).length = g.theNumSets := by
  have hlen := congrArg List.length (hg.map_globalSets hb hq)
  rwa [length_map, length_range] at hlen

/-- **The global set of an address** stands in the place that `makeSet` computes. -/
theorem Regular.getElem?_globalSets (hg : g.Regular) (a : ℕ) :
    (g.globalSets (g.getBank a) (g.getGroup a))[g.makeSet a]? =
      some (a / g.theBlockSize % g.theTotalSets) := by
  obtain ⟨o, l, k, m, r, h, hw⟩ := hg.widths
  set s := a / g.theBlockSize % g.theTotalSets with hs
  have hs' : s = a / 2 ^ o % 2 ^ (l + m + h + r + k) := by
    rw [hs, hw.blockSize, hw.totalSets]
  have hdiv : s * g.theBlockSize / 2 ^ o = s := by
    rw [hw.blockSize]
    exact Nat.mul_div_cancel _ (Nat.two_pow_pos o)
  have hbank : g.getBank (s * g.theBlockSize) = g.getBank a := by
    rw [hw.getBank_eq, hw.getBank_eq, hdiv, hs', field_mod (by omega)]
  have hgroup : g.getGroup (s * g.theBlockSize) = g.getGroup a := by
    rw [hw.getGroup_eq, hw.getGroup_eq, hdiv, hs', removeField_mod (by omega), field_mod (by omega)]
  have hset : g.makeSet (s * g.theBlockSize) = g.makeSet a := by
    rw [hw.makeSet_eq, hw.makeSet_eq, hdiv, hs', removeField_mod (by omega),
      removeField_mod (by omega), Nat.mod_mod]
  have hb : g.getBank a < g.theBanks := by
    rw [hw.getBank_eq, hw.banks]
    exact field_lt _ _ _
  have hq : g.getGroup a < g.theGroups := by
    rw [hw.getGroup_eq, hw.groups]
    exact field_lt _ _ _
  have hlt : s < g.theTotalSets := by
    rw [hs', hw.totalSets]
    exact Nat.mod_lt _ (Nat.two_pow_pos _)
  have hget := getElem?_filter_range (hg.map_globalSets hb hq) hlt
    (belongs_iff.mpr ⟨hbank, hgroup⟩)
  rw [hset] at hget
  exact hget

end Geometry

/-! ### The loop over the global sets -/

variable {σ ω : Type}

/-- The ways of a set that belongs to another bank are read and dropped. -/
def skipWays (n : ℕ) : Reader ω Unit := fun bs =>
  match readAll (fun _ => readMap some) (List.range n) bs with
  | some (_, bs) => some ((), bs)
  | none => none

theorem skipWays_append {bs : List ω} {n : ℕ} (h : bs.length = n) (rest : List ω) :
    skipWays n (bs ++ rest) = some ((), rest) := by
  rw [skipWays, readAll_readMap (forall₂_same.mpr fun _ _ => rfl) _
    (by rw [length_range, h]) rest]

/-- The loop of `loadState` over the global sets that are left. A local set beyond the last
one would be outside the array of the sets. -/
def loadSets (belongs : ℕ → Bool) (numSets : ℕ) (loadSet : σ → Reader ω σ)
    (skip : Reader ω Unit) :
    List ℕ → ℕ → (ℕ → σ) → List ω → Option (ℕ → σ)
  | [], _, sets, _ => some sets
  | s :: ss, localSet, sets, bs =>
    if belongs s then
      if localSet < numSets then
        match loadSet (sets localSet) bs with
        | some (t, bs) => loadSets belongs numSets loadSet skip ss (localSet + 1)
            (update sets localSet t) bs
        | none => none
      else none
    else
      match skip bs with
      | some (_, bs) => loadSets belongs numSets loadSet skip ss localSet sets bs
      | none => none

variable {belongs : ℕ → Bool} {numSets : ℕ} {loadSet : σ → Reader ω σ}
  {skip : Reader ω Unit} {rows : ℕ → List ω} {value : ℕ → σ} {fresh : σ → Prop}

theorem fresh_update {localSet : ℕ} {sets : ℕ → σ} {x : σ}
    (hfresh : ∀ i, localSet ≤ i → fresh (sets i)) :
    ∀ i, localSet + 1 ≤ i → fresh (update sets localSet x i) := by
  intro i hi
  rw [update_of_ne (Nat.ne_of_gt hi)]
  exact hfresh i (Nat.le_of_succ_le hi)

/-- **What a bank has loaded**: its local sets are the global sets that belong to it, in their
order, as long as there are not too many of them; its other sets stay as they were. -/
theorem loadSets_spec {ss : List ℕ}
    (hload : ∀ s ∈ ss, ∀ t bs, fresh t → loadSet t (rows s ++ bs) = some (value s, bs))
    (hskip : ∀ s ∈ ss, ∀ bs, skip (rows s ++ bs) = some ((), bs)) {localSet : ℕ}
    (sets : ℕ → σ) (hfresh : ∀ i, localSet ≤ i → fresh (sets i))
    (hfit : localSet + (ss.filter belongs).length ≤ numSets) :
    ∃ sets', loadSets belongs numSets loadSet skip ss localSet sets (ss.map rows).flatten =
        some sets' ∧
      (∀ i, i < localSet ∨ localSet + (ss.filter belongs).length ≤ i → sets' i = sets i) ∧
      ∀ j s, (ss.filter belongs)[j]? = some s → sets' (localSet + j) = value s := by
  induction ss generalizing localSet sets with
  | nil => exact ⟨sets, rfl, fun _ _ => rfl, fun j s h => by cases h⟩
  | cons s ss ih =>
    have hload' := fun x hx => hload x (mem_cons_of_mem s hx)
    have hskip' := fun x hx => hskip x (mem_cons_of_mem s hx)
    rw [map_cons, flatten_cons, loadSets]
    by_cases hs : belongs s = true
    · rw [filter_cons_of_pos hs] at hfit ⊢
      rw [length_cons] at hfit
      rw [if_pos hs, if_pos (by omega), hload s mem_cons_self _ _ (hfresh localSet (Nat.le_refl _))]
      obtain ⟨sets', hsets, hold, hnew⟩ := ih hload' hskip'
        (update sets localSet (value s)) (fresh_update hfresh) (by omega)
      refine ⟨sets', hsets, fun i hi => ?_, fun j x hx => ?_⟩
      · rw [length_cons] at hi
        rw [hold i (by omega), update_of_ne (by omega)]
      · cases j with
        | zero =>
          cases hx
          rw [Nat.add_zero, hold localSet (.inl (Nat.lt_succ_self _)), update_self]
        | succ j =>
          rw [getElem?_cons_succ] at hx
          rw [← Nat.add_assoc, Nat.add_right_comm]
          exact hnew j x hx
    · rw [filter_cons_of_neg hs] at hfit ⊢
      rw [if_neg hs, hskip s mem_cons_self]
      exact ih hload' hskip' sets hfresh hfit

/-- **A bank with too many sets** does not come to the end of a checkpoint. -/
theorem loadSets_overflow {ss : List ℕ}
    (hload : ∀ s ∈ ss, ∀ t bs, fresh t → loadSet t (rows s ++ bs) = some (value s, bs))
    (hskip : ∀ s ∈ ss, ∀ bs, skip (rows s ++ bs) = some ((), bs)) {localSet : ℕ}
    (sets : ℕ → σ) (hfresh : ∀ i, localSet ≤ i → fresh (sets i))
    (hover : numSets < localSet + (ss.filter belongs).length) (hle : localSet ≤ numSets) :
    loadSets belongs numSets loadSet skip ss localSet sets (ss.map rows).flatten = none := by
  induction ss generalizing localSet sets with
  | nil =>
    rw [filter_nil, length_nil] at hover
    omega
  | cons s ss ih =>
    have hload' := fun x hx => hload x (mem_cons_of_mem s hx)
    have hskip' := fun x hx => hskip x (mem_cons_of_mem s hx)
    rw [map_cons, flatten_cons, loadSets]
    by_cases hs : belongs s = true
    · rw [filter_cons_of_pos hs, length_cons] at hover
      rw [if_pos hs]
      by_cases hlt : localSet < numSets
      · rw [if_pos hlt, hload s mem_cons_self _ _ (hfresh localSet (Nat.le_refl _))]
        exact ih hload' hskip' _ (fresh_update hfresh) (by omega) (by omega)
      · rw [if_neg hlt]
    · rw [filter_cons_of_neg hs] at hover
      rw [if_neg hs, hskip s mem_cons_self]
      exact ih hload' hskip' sets hfresh hover hle

end CMPCache

end Flexus
