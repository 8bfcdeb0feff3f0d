import Mathlib.Data.BitVec
import Mathlib.Tactic.IntervalCases

/-!
# Histograms of logarithms

A histogram counts its updates by their logarithms: the first bucket counts those that are zero, and
the bucket after the `k`-th those from `2 ^ k` to `2 ^ (k + 1)`. A bucket is allocated when
something is to be counted in it or above (`StatValue_Log2Histogram`,
`core/aux_/stats/histograms.hpp`).

Histograms are merged, in whatever order, and the result counts the updates of all
(`Flexus.Stat.HistogramPlan.counts`). A query reads a bucket that may not be allocated. And it
compares the key with a number of 32 bits that is shifted, so that a key from `2 ^ 31` on is never
found to be a power of two (`Flexus.Stat.answers_iff`).
-/

namespace Flexus

open List

namespace Stat

/-! ### Histograms -/

/-- What a query ends with that has no result. -/
inductive QueryFault
  | calcException (message : String)
  | bad_lexical_cast
  /-- The bucket is not allocated. -/
  | bucket
  deriving DecidableEq

/-- The loop of `log2`, with the number of rounds that are left. -/
def log2Loop : ℕ → BitVec 64 → ℕ
  | 0, _ => 0
  | rounds + 1, aVal =>
    if (1#64).slt aVal then log2Loop rounds (aVal.sshiftRight 1) + 1 else 0

/-- `log2`. A number has 64 bits. -/
def log2 (aVal : BitVec 64) : ℕ := log2Loop 64 aVal

/-- `StatValue_Log2Histogram`. -/
structure Log2Histogram where
  theBuckets : List (BitVec 64)
  deriving DecidableEq

/-- `boost::lexical_cast` to a number of 64 bits: digits, which may have a sign. -/
def lexical_cast (text : List Char) : Option (BitVec 64) :=
  let digits (l : List Char) : Option ℕ :=
    if l ≠ [] ∧ l.all Char.isDigit then some (Nat.ofDigitChars 10 l 0) else none
  match text with
  | '-' :: l => (digits l).bind fun n => if n ≤ 2 ^ 63 then some (-BitVec.ofNat 64 n) else none
  | '+' :: l => (digits l).bind fun n => if n < 2 ^ 63 then some (BitVec.ofNat 64 n) else none
  | l => (digits l).bind fun n => if n < 2 ^ 63 then some (BitVec.ofNat 64 n) else none

/-- `1 << key`. The number has 32 bits, and processors take the places of the shift modulo 32. -/
def shiftedOne (key : ℕ) : BitVec 32 := 1#32 <<< (key % 32)

namespace Log2Histogram

def create : Log2Histogram := ⟨[]⟩

variable (h : Log2Histogram)

/-- The buckets are resized if there are less. -/
def grow (n : ℕ) : List (BitVec 64) :=
  if h.theBuckets.length < n then
    h.theBuckets ++ List.replicate (n - h.theBuckets.length) 0
  else h.theBuckets

/-- **`update`.** -/
def update (anUpdate : BitVec 64) : Log2Histogram :=
  if anUpdate = 0 then ⟨(h.grow 1).modify 0 (· + 1)⟩
  else
    let log := log2 anUpdate
    ⟨(h.grow (log + 2)).modify (log + 1) (· + 1)⟩

/-- **`reduceSum`.** -/
def reduceSum (aHistogram : Log2Histogram) : Log2Histogram :=
  ⟨(h.grow aHistogram.theBuckets.length).mapIdx fun i x => x + aHistogram.theBuckets.getD i 0⟩

/-- `bucketVal`. -/
def bucketVal (i : ℕ) : Except QueryFault (BitVec 64) :=
  match h.theBuckets[i]? with
  | some x => .ok x
  | none => .error .bucket

/-- `sum`. -/
def sum : BitVec 64 := h.theBuckets.foldl (· + ·) 0

/-- **`asLongLong`.** -/
def asLongLong (options : String) : Except QueryFault (BitVec 64) :=
  let text := options.toList
  if text = [] then .ok 0
  else if text = ['b', 'u', 'c', 'k', 'e', 't', 's'] then
    .ok (BitVec.ofNat 64 h.theBuckets.length)
  else if text.take 4 = ['v', 'a', 'l', ':'] then
    match lexical_cast (text.drop 4) with
    | none => .error .bad_lexical_cast
    | some name =>
      if name = 0 then h.bucketVal 0
      else
        let key := log2 name
        if (shiftedOne key).signExtend 64 ≠ name then
          .error (.calcException "\x7bbucket must be a power of two\x7d")
        else h.bucketVal (key + 1)
  else if text.take 5 = ['c', 'o', 'u', 'n', 't'] then .ok h.sum
  else .error (.calcException ("\x7bUnable to parse options: " ++ options ++ " \x7d"))

/-- **The query has the result** that it is to have. -/
def Answers (options : String) (n : ℕ) : Prop :=
  ∃ r, h.asLongLong options = .ok r ∧ r.toInt = n

end Log2Histogram

/-- **How histograms are updated and merged.** -/
inductive HistogramPlan
  | create
  | update (aPlan : HistogramPlan) (anUpdate : BitVec 64)
  | reduceSum (aPlan other : HistogramPlan)
  deriving DecidableEq

namespace HistogramPlan

def histogram : HistogramPlan → Log2Histogram
  | create => .create
  | update p v => p.histogram.update v
  | reduceSum p q => p.histogram.reduceSum q.histogram

/-- The updates of all histograms. -/
def updates : HistogramPlan → List (BitVec 64)
  | create => []
  | update p v => v :: p.updates
  | reduceSum p q => p.updates ++ q.updates

end HistogramPlan

/-- **A query.** -/
inductive HistogramQuery
  /-- The updates from `2 ^ k` to `2 ^ (k + 1)`. -/
  | val (k : ℕ)
  | zero
  | count
  deriving DecidableEq

namespace HistogramQuery

def options : HistogramQuery → String
  | val k => "val:" ++ Nat.repr (2 ^ k)
  | zero => "val:0"
  | count => "count"

/-- The number is one of 64 bits. -/
def Fits : HistogramQuery → Prop
  | val k => k ≤ 62
  | zero | count => True

/-- What the query counts. -/
def counted : HistogramQuery → List (BitVec 64) → ℕ
  | val k, us => us.countP fun v => decide (2 ^ k ≤ v.toInt ∧ v.toInt < 2 ^ (k + 1))
  | zero, us => us.countP fun v => decide (v = 0)
  | count, us => us.length

/-- **The query has an answer**: its bucket is allocated, and its key is below `2 ^ 31`. -/
def Covered : HistogramQuery → List (BitVec 64) → Prop
  | val k, us => k ≤ 30 ∧ ∃ v ∈ us, 2 ^ k ≤ v.toInt
  | zero, us => us ≠ []
  | count, _ => True

end HistogramQuery

/-! ### Logarithms -/

variable {v : BitVec 64}

theorem toInt_eq_toNat (h : 0 ≤ v.toInt) : v.toInt = v.toNat ∧ v.toNat < 2 ^ 63 := by
  have := v.isLt
  rw [BitVec.toInt_eq_toNat_cond] at h ⊢
  split at h
  · rename_i hlt
    rw [if_pos hlt]
    exact ⟨rfl, by omega⟩
  · omega

/-- **The logarithm** is the number of the highest bit. -/
theorem log2Loop_spec {rounds : ℕ} (hpos : 0 < v.toNat) (hv : v.toNat < 2 ^ 63)
    (hrounds : v.toNat < 2 ^ (rounds + 1)) :
    2 ^ log2Loop rounds v ≤ v.toNat ∧ v.toNat < 2 ^ (log2Loop rounds v + 1) := by
  induction rounds generalizing v with
  | zero => exact ⟨hpos, hrounds⟩
  | succ rounds ih =>
    have hint : v.toInt = v.toNat := BitVec.toInt_eq_toNat_of_lt (by omega)
    have hmsb : v.msb = false := by
      rw [BitVec.msb_eq_false_iff_two_mul_lt]
      omega
    have hshift : (v.sshiftRight 1).toNat = v.toNat / 2 := by
      rw [BitVec.sshiftRight_eq_of_msb_false hmsb, BitVec.toNat_ushiftRight,
        Nat.shiftRight_eq_div_pow, pow_one]
    have hslt : (1#64).slt v = true ↔ 1 < v.toNat := by
      have hone : (1#64).toInt = 1 := rfl
      rw [BitVec.slt, decide_eq_true_eq, hint, hone]
      omega
    rw [log2Loop]
    by_cases h : 1 < v.toNat
    · rw [if_pos (hslt.mpr h)]
      rw [pow_succ] at hrounds
      obtain ⟨hlow, hhigh⟩ := ih (v := v.sshiftRight 1) (by omega) (by omega) (by omega)
      rw [hshift] at hlow hhigh
      rw [pow_succ] at hhigh
      rw [pow_succ, pow_succ]
      omega
    · rw [if_neg (mt hslt.mp h)]
      exact ⟨hpos, by omega⟩

/-- **The logarithm of a number** that is not negative. -/
theorem log2_eq_iff (h : 0 ≤ v.toInt) (hv : v ≠ 0) (k : ℕ) :
    log2 v = k ↔ 2 ^ k ≤ v.toInt ∧ v.toInt < 2 ^ (k + 1) := by
  obtain ⟨hint, hlt⟩ := toInt_eq_toNat h
  have hpos : 0 < v.toNat := Nat.pos_of_ne_zero fun hz => hv (BitVec.eq_of_toNat_eq hz)
  obtain ⟨hlow, hhigh⟩ : 2 ^ log2Loop 64 v ≤ v.toNat ∧ v.toNat < 2 ^ (log2Loop 64 v + 1) :=
    log2Loop_spec hpos hlt (by omega)
  rw [log2, hint]
  constructor
  · rintro rfl
    exact ⟨by exact_mod_cast hlow, by exact_mod_cast hhigh⟩
  · rintro ⟨hk, hk'⟩
    have hk : 2 ^ k ≤ v.toNat := by exact_mod_cast hk
    have hk' : v.toNat < 2 ^ (k + 1) := by exact_mod_cast hk'
    have hle : log2Loop 64 v < k + 1 :=
      (Nat.pow_lt_pow_iff_right (by decide)).mp (Nat.lt_of_le_of_lt hlow hk')
    have hge : k < log2Loop 64 v + 1 :=
      (Nat.pow_lt_pow_iff_right (by decide)).mp (Nat.lt_of_le_of_lt hk hhigh)
    omega

/-! ### Buckets -/

/-- The bucket that an update is counted in. -/
def bucketOf (v : BitVec 64) : ℕ := if v = 0 then 0 else log2 v + 1

theorem bucketOf_eq_zero : bucketOf v = 0 ↔ v = 0 := by
  rw [bucketOf]
  split
  · rename_i h
    exact ⟨fun _ => h, fun _ => rfl⟩
  · rename_i h
    exact ⟨nofun, fun hv => absurd hv h⟩

theorem bucketOf_eq_succ (h : 0 ≤ v.toInt) (k : ℕ) :
    bucketOf v = k + 1 ↔ 2 ^ k ≤ v.toInt ∧ v.toInt < 2 ^ (k + 1) := by
  rw [bucketOf]
  split
  · rename_i hv
    rw [hv]
    have hpos : (0 : ℤ) < 2 ^ k := by positivity
    constructor
    · nofun
    · rintro ⟨hle, -⟩
      exact absurd hle (Int.not_le.mpr hpos)
  · rename_i hv
    rw [Nat.add_right_cancel_iff]
    exact log2_eq_iff h hv k

theorem lt_bucketOf (h : 0 ≤ v.toInt) {k : ℕ} : k < bucketOf v ↔ 2 ^ k ≤ v.toInt := by
  rw [bucketOf]
  split
  · rename_i hv
    rw [hv]
    have hpos : (0 : ℤ) < 2 ^ k := by positivity
    constructor
    · nofun
    · intro hle
      exact absurd hle (Int.not_le.mpr hpos)
  · rename_i hv
    obtain ⟨hlow, hhigh⟩ := (log2_eq_iff h hv (log2 v)).mp rfl
    constructor
    · intro hk
      exact Int.le_trans (pow_le_pow_right₀ (by decide) (Nat.lt_succ_iff.mp hk)) hlow
    · intro hle
      exact (pow_lt_pow_iff_right₀ (by decide : (1 : ℤ) < 2)).mp (Int.lt_of_le_of_lt hle hhigh)

section Lists

variable {l m : List (BitVec 64)} {n i j : ℕ}

theorem getD_modify (hj : j < l.length) (f : BitVec 64 → BitVec 64) :
    (l.modify j f).getD i 0 = if j = i then f (l.getD i 0) else l.getD i 0 := by
  rw [getD_eq_getElem?_getD, getElem?_modify, getD_eq_getElem?_getD]
  split
  · rename_i h
    rw [← h, getElem?_eq_getElem hj]
    rfl
  · simp

theorem sum_modify (hj : j < l.length) : (l.modify j (· + 1)).sum = l.sum + 1 := by
  induction l generalizing j with
  | nil => exact absurd hj (Nat.not_lt_zero j)
  | cons x l ih =>
    cases j with
    | zero =>
      rw [modify_zero_cons, sum_cons, sum_cons]
      ac_rfl
    | succ j =>
      rw [modify_succ_cons, sum_cons, sum_cons, ih (Nat.lt_of_succ_lt_succ hj), BitVec.add_assoc]

theorem sum_replicate_zero (n : ℕ) : (List.replicate n (0 : BitVec 64)).sum = 0 := by
  induction n with
  | zero => rfl
  | succ n ih =>
    rw [replicate_succ, sum_cons, ih]
    rfl

theorem sum_mapIdx (h : m.length ≤ l.length) :
    (l.mapIdx fun i x => x + m.getD i 0).sum = l.sum + m.sum := by
  induction l generalizing m with
  | nil =>
    rw [length_nil, Nat.le_zero, length_eq_zero_iff] at h
    rw [h]
    rfl
  | cons x l ih =>
    rw [mapIdx_cons, sum_cons, sum_cons]
    cases m with
    | nil =>
      have hih := ih (m := []) (Nat.zero_le l.length)
      simp only [getD_nil] at hih ⊢
      rw [hih]
      simp
    | cons y m =>
      have hih := ih (Nat.le_of_succ_le_succ h)
      simp only [getD_cons_zero, getD_cons_succ, sum_cons]
      rw [hih]
      ac_rfl

end Lists

namespace Log2Histogram

variable {h h' : Log2Histogram} {us us' : List (BitVec 64)}

theorem length_grow (n : ℕ) : (h.grow n).length = max h.theBuckets.length n := by
  rw [grow]
  split
  · rw [length_append, length_replicate]
    omega
  · omega

theorem getD_grow (n i : ℕ) : (h.grow n).getD i 0 = h.theBuckets.getD i 0 := by
  rw [grow]
  split
  · rw [getD_eq_getElem?_getD, getD_eq_getElem?_getD]
    by_cases hi : i < h.theBuckets.length
    · rw [getElem?_append_left hi]
    · rw [getElem?_append_right (Nat.not_lt.mp hi), getElem?_replicate,
        getElem?_eq_none (Nat.not_lt.mp hi)]
      split <;> rfl
  · rfl

theorem sum_grow (n : ℕ) : (h.grow n).sum = h.theBuckets.sum := by
  rw [grow]
  split
  · rw [sum_append, sum_replicate_zero]
    exact BitVec.add_zero _
  · rfl

/-- **What a histogram has counted.** -/
structure Counts (h : Log2Histogram) (us : List (BitVec 64)) : Prop where
  allocated : ∀ i, i < h.theBuckets.length ↔ ∃ v ∈ us, i ≤ bucketOf v
  bucket : ∀ i, h.theBuckets.getD i 0 =
    BitVec.ofNat 64 (us.countP fun v => decide (bucketOf v = i))
  total : h.theBuckets.sum = BitVec.ofNat 64 us.length

theorem Counts.create : create.Counts [] :=
  ⟨fun i => ⟨fun hi => absurd hi (Nat.not_lt_zero i), fun ⟨_, hv, _⟩ => absurd hv not_mem_nil⟩,
    fun _ => rfl, rfl⟩

theorem update_eq (v : BitVec 64) :
    h.update v = ⟨(h.grow (bucketOf v + 1)).modify (bucketOf v) (· + 1)⟩ := by
  rw [update, bucketOf]
  split <;> rfl

/-- **An update is counted.** -/
theorem Counts.update (hc : h.Counts us) (v : BitVec 64) : (h.update v).Counts (v :: us) := by
  have hlt : bucketOf v < (h.grow (bucketOf v + 1)).length := by
    rw [length_grow]
    exact Nat.lt_of_lt_of_le (Nat.lt_succ_self _) (Nat.le_max_right _ _)
  rw [update_eq]
  refine ⟨fun i => ?_, fun i => ?_, ?_⟩
  · show i < ((h.grow (bucketOf v + 1)).modify (bucketOf v) (· + 1)).length ↔ _
    rw [length_modify, length_grow, lt_max_iff, hc.allocated i]
    simp only [mem_cons, exists_eq_or_imp, Nat.lt_succ_iff]
    exact Or.comm
  · show ((h.grow (bucketOf v + 1)).modify (bucketOf v) (· + 1)).getD i 0 = _
    rw [getD_modify hlt, getD_grow, hc.bucket i, countP_cons]
    by_cases heq : bucketOf v = i
    · rw [if_pos heq, decide_eq_true heq, if_pos rfl, BitVec.ofNat_add]
      rfl
    · rw [if_neg heq, decide_eq_false heq, if_neg Bool.false_ne_true, Nat.add_zero]
  · show ((h.grow (bucketOf v + 1)).modify (bucketOf v) (· + 1)).sum = _
    rw [sum_modify hlt, sum_grow, hc.total, length_cons, BitVec.ofNat_add]
    rfl

/-- **Two histograms are merged.** -/
theorem Counts.reduceSum (hc : h.Counts us) (hc' : h'.Counts us') :
    (h.reduceSum h').Counts (us ++ us') := by
  have hle : h'.theBuckets.length ≤ (h.grow h'.theBuckets.length).length := by
    rw [length_grow]
    exact Nat.le_max_right _ _
  refine ⟨fun i => ?_, fun i => ?_, ?_⟩
  · rw [Log2Histogram.reduceSum]
    dsimp only
    rw [length_mapIdx, length_grow, lt_max_iff, hc.allocated i, hc'.allocated i]
    simp only [mem_append, or_and_right, exists_or]
  · have hsum : (h.reduceSum h').theBuckets.getD i 0 =
        (h.grow h'.theBuckets.length).getD i 0 + h'.theBuckets.getD i 0 := by
      rw [Log2Histogram.reduceSum, getD_eq_getElem?_getD, getElem?_mapIdx]
      by_cases hi : i < (h.grow h'.theBuckets.length).length
      · rw [getD_eq_getElem?_getD (l := h.grow _), getElem?_eq_getElem hi]
        rfl
      · have hnone : h'.theBuckets.getD i 0 = 0 := by
          rw [getD_eq_getElem?_getD, getElem?_eq_none (by omega)]
          rfl
        rw [hnone, getD_eq_getElem?_getD, getElem?_eq_none (by omega)]
        rfl
    rw [hsum, getD_grow, hc.bucket i, hc'.bucket i, countP_append, BitVec.ofNat_add]
  · show ((h.grow h'.theBuckets.length).mapIdx fun i x => x + h'.theBuckets.getD i 0).sum = _
    rw [sum_mapIdx hle, sum_grow, hc.total, hc'.total, length_append, BitVec.ofNat_add]

end Log2Histogram

/-- **However histograms are updated and merged**, the result counts the updates of all. -/
theorem HistogramPlan.counts (p : HistogramPlan) : p.histogram.Counts p.updates := by
  induction p with
  | create => exact Log2Histogram.Counts.create
  | update p v ih => exact ih.update v
  | reduceSum p q ihp ihq => exact ihp.reduceSum ihq

/-! ### Queries -/

open Log2Histogram

variable {h : Log2Histogram} {us : List (BitVec 64)} {k : ℕ}

/-- **Digits are read** as the number that they are written from. -/
theorem lexical_cast_toDigits {n : ℕ} (hn : n < 2 ^ 63) :
    lexical_cast (Nat.toDigits 10 n) = some (BitVec.ofNat 64 n) := by
  obtain ⟨l, hl⟩ : ∃ l, l = Nat.toDigits 10 n := ⟨_, rfl⟩
  have hne : l ≠ [] := hl ▸ Nat.toDigits_ne_nil
  have hdigits : ∀ c ∈ l, c.isDigit = true := fun c hc =>
    Nat.isDigit_of_mem_toDigits (by decide) (by decide) (hl ▸ hc)
  have hvalue : Nat.ofDigitChars 10 l 0 = n := hl ▸ Nat.ofDigitChars_ten_toDigits
  have hall : l ≠ [] ∧ l.all Char.isDigit = true := ⟨hne, all_eq_true.mpr hdigits⟩
  rw [← hl]
  unfold lexical_cast
  split
  · exact absurd (hdigits '-' mem_cons_self) (by decide)
  · exact absurd (hdigits '+' mem_cons_self) (by decide)
  · dsimp only
    rw [if_pos hall, hvalue, Option.bind_some, if_pos hn]

/-- **A key from `2 ^ 31` on is no power of two** to the query, and a smaller one is. -/
theorem signExtend_shiftedOne (hk : k ≤ 62) :
    (shiftedOne k).signExtend 64 = BitVec.ofNat 64 (2 ^ k) ↔ k ≤ 30 := by
  revert k
  decide

theorem log2_two_pow (hk : k ≤ 62) :
    BitVec.ofNat 64 (2 ^ k) ≠ 0 ∧ log2 (BitVec.ofNat 64 (2 ^ k)) = k := by
  revert k
  decide

theorem asLongLong_val (h : Log2Histogram) (hk : k ≤ 62) :
    h.asLongLong (HistogramQuery.val k).options =
      if k ≤ 30 then h.bucketVal (k + 1)
      else .error (.calcException "\x7bbucket must be a power of two\x7d") := by
  have htext : (HistogramQuery.val k).options.toList =
      'v' :: 'a' :: 'l' :: ':' :: Nat.toDigits 10 (2 ^ k) := by
    rw [HistogramQuery.options, String.toList_append, Nat.toList_repr]
    rfl
  have hcast := lexical_cast_toDigits
    (Nat.pow_lt_pow_right (by decide) (by omega : k < 63) : 2 ^ k < 2 ^ 63)
  obtain ⟨hne, hlog⟩ := log2_two_pow hk
  have hdrop : List.drop 4 ('v' :: 'a' :: 'l' :: ':' :: Nat.toDigits 10 (2 ^ k)) =
      Nat.toDigits 10 (2 ^ k) := rfl
  rw [asLongLong, htext]
  dsimp only
  rw [if_neg (by simp), if_neg (by simp), if_pos (by rfl), hdrop, hcast]
  dsimp only
  rw [if_neg hne, hlog]
  by_cases hsmall : k ≤ 30
  · rw [if_pos hsmall, if_neg (not_not.mpr ((signExtend_shiftedOne hk).mpr hsmall))]
  · rw [if_neg hsmall, if_pos (mt (signExtend_shiftedOne hk).mp hsmall)]

theorem asLongLong_zero (h : Log2Histogram) :
    h.asLongLong HistogramQuery.zero.options = h.bucketVal 0 := by
  have htext : HistogramQuery.zero.options.toList = ['v', 'a', 'l', ':', '0'] := rfl
  have hcast : lexical_cast ['0'] = some 0 := by decide
  have hdrop : List.drop 4 ['v', 'a', 'l', ':', '0'] = ['0'] := rfl
  rw [asLongLong, htext]
  dsimp only
  rw [if_neg (by simp), if_neg (by simp), if_pos (by rfl), hdrop, hcast]
  exact if_pos rfl

theorem asLongLong_count (h : Log2Histogram) :
    h.asLongLong HistogramQuery.count.options = .ok h.sum := rfl

theorem toInt_ofNat_iff {n : ℕ} : (BitVec.ofNat 64 n).toInt = n ↔ n < 2 ^ 63 := by
  have hmod := Nat.mod_lt n (by decide : 2 ^ 64 > 0)
  rw [BitVec.toInt_eq_toNat_cond, BitVec.toNat_ofNat]
  split
  · rename_i h
    constructor
    · intro heq
      omega
    · intro hlt
      rw [Nat.mod_eq_of_lt (by omega)]
  · rename_i h
    constructor
    · intro heq
      omega
    · intro hlt
      rw [Nat.mod_eq_of_lt (by omega)] at h
      omega

/-- **A bucket is read.** -/
theorem Log2Histogram.Counts.answers (hc : h.Counts us) {options : String} {i n : ℕ}
    (hquery : h.asLongLong options = h.bucketVal i)
    (hn : (us.countP fun v => decide (bucketOf v = i)) = n) :
    h.Answers options n ↔ (∃ v ∈ us, i ≤ bucketOf v) ∧ n < 2 ^ 63 := by
  rw [Answers, hquery, bucketVal, ← hc.allocated i, ← toInt_ofNat_iff]
  have hbucket := hc.bucket i
  rw [hn, getD_eq_getElem?_getD] at hbucket
  by_cases hi : i < h.theBuckets.length
  · rw [getElem?_eq_getElem hi] at hbucket ⊢
    rw [← hbucket]
    constructor
    · rintro ⟨r, hr, hint⟩
      cases hr
      exact ⟨hi, hint⟩
    · rintro ⟨-, hint⟩
      exact ⟨_, rfl, hint⟩
  · rw [getElem?_eq_none (Nat.not_lt.mp hi)]
    constructor
    · rintro ⟨r, hr, -⟩
      cases hr
    · rintro ⟨hi', -⟩
      exact absurd hi' hi

theorem sum_eq (h : Log2Histogram) : h.sum = h.theBuckets.sum := by
  have hfold : ∀ (l : List (BitVec 64)) (x : BitVec 64), l.foldl (· + ·) x = x + l.sum := by
    intro l
    induction l with
    | nil =>
      intro x
      exact (BitVec.add_zero x).symm
    | cons y l ih =>
      intro x
      rw [foldl_cons, ih, sum_cons, BitVec.add_assoc]
  rw [Log2Histogram.sum, hfold]
  exact BitVec.zero_add _

/-- One update of `2 ^ 31`. -/
def largeUpdate : HistogramPlan := .update .create 0x80000000#64

theorem largeUpdate_not_answers : ¬∀ p : HistogramPlan, (∀ v ∈ p.updates, 0 ≤ v.toInt) →
    ∀ q : HistogramQuery, q.Fits → p.histogram.Answers q.options (q.counted p.updates) := by
  intro h
  have hupdates : ∀ v ∈ largeUpdate.updates, 0 ≤ v.toInt := by
    intro v hv
    rw [mem_singleton.mp hv]
    decide
  obtain ⟨r, hr, _⟩ := h largeUpdate hupdates (.val 31) (by decide : 31 ≤ 62)
  rw [asLongLong_val _ (by decide), if_neg (by decide)] at hr
  cases hr

/-- **A query has the result** that it is to have if its bucket is allocated, its key is below
`2 ^ 31`, and the result is a number of 64 bits. -/
theorem answers_iff (p : HistogramPlan) (hp : ∀ v ∈ p.updates, 0 ≤ v.toInt) (q : HistogramQuery)
    (hq : q.Fits) : p.histogram.Answers q.options (q.counted p.updates) ↔
      q.Covered p.updates ∧ q.counted p.updates < 2 ^ 63 := by
  have hc := p.counts
  cases q with
  | val k =>
    have hk : k ≤ 62 := hq
    have hcount : (p.updates.countP fun v => decide (bucketOf v = k + 1)) =
        (HistogramQuery.val k).counted p.updates :=
      countP_congr fun v hv => by
        rw [decide_eq_true_eq, decide_eq_true_eq]
        exact bucketOf_eq_succ (hp v hv) k
    have hexists : (∃ v ∈ p.updates, k + 1 ≤ bucketOf v) ↔ ∃ v ∈ p.updates, 2 ^ k ≤ v.toInt :=
      exists_congr fun v => and_congr_right fun hv => lt_bucketOf (hp v hv)
    by_cases hsmall : k ≤ 30
    · rw [hc.answers ((asLongLong_val _ hk).trans (if_pos hsmall)) hcount, hexists]
      exact and_congr_left fun _ => ⟨fun h => ⟨hsmall, h⟩, fun h => h.2⟩
    · constructor
      · rintro ⟨r, hr, -⟩
        rw [asLongLong_val _ hk, if_neg hsmall] at hr
        cases hr
      · rintro ⟨⟨hsmall', -⟩, -⟩
        exact absurd hsmall' hsmall
  | zero =>
    have hcount : (p.updates.countP fun v => decide (bucketOf v = 0)) =
        HistogramQuery.zero.counted p.updates :=
      countP_congr fun v _ => by
        rw [decide_eq_true_eq, decide_eq_true_eq]
        exact bucketOf_eq_zero
    rw [hc.answers (asLongLong_zero _) hcount]
    refine and_congr_left fun _ => ?_
    constructor
    · rintro ⟨v, hv, -⟩
      exact ne_nil_of_mem hv
    · intro hne
      obtain ⟨v, hv⟩ := exists_mem_of_ne_nil _ hne
      exact ⟨v, hv, Nat.zero_le _⟩
  | count =>
    rw [Answers, asLongLong_count, sum_eq, hc.total]
    constructor
    · rintro ⟨r, hr, hint⟩
      cases hr
      exact ⟨trivial, toInt_ofNat_iff.mp hint⟩
    · rintro ⟨-, hlt⟩
      exact ⟨_, rfl, toInt_ofNat_iff.mpr hlt⟩

/-- Three histograms that are merged. -/
def mergedHistograms : HistogramPlan :=
  .reduceSum (.update (.update .create 5) 0) (.reduceSum (.update .create 7) (.update .create 1))

theorem mergedHistograms_answers :
    mergedHistograms.histogram.Answers (HistogramQuery.val 2).options
      ((HistogramQuery.val 2).counted mergedHistograms.updates) := by
  have hupdates : ∀ v ∈ [0#64, 5, 7, 1], 0 ≤ v.toInt := by
    intro v hv
    simp only [mem_cons, not_mem_nil, or_false] at hv
    rcases hv with rfl | rfl | rfl | rfl <;> decide
  refine (answers_iff mergedHistograms hupdates (.val 2) (by decide : 2 ≤ 62)).mpr
    ⟨⟨?_, 5, ?_, ?_⟩, ?_⟩
  · decide
  · decide
  · decide
  · decide

end Stat

end Flexus
