import Flexus.Common.GlobalHasher
import Mathlib.Data.List.Prime
import Mathlib.Data.Nat.Prime.Basic
import Mathlib.Tactic.IntervalCases

/-!
# The table of prime numbers

`get_closest_prime` (`components/Common/Util.cpp`) is to find the largest prime number that is not
above a number, in a table of the first thousand prime numbers. The tagless directory has a copy of
it.

The table has 433 in the place of 3433, after 3413 and before 3449. So the loop stops at 3449 for
the numbers from 3413 on, and the result is 433. All other entries are right, and no prime number is
left out. The loop is bounded by 2000 and not by the length of the table: from 7919 on, which is the
last entry, it goes on behind the table (`Flexus.Common.looksUp_iff`).
-/

namespace Flexus

open List

namespace Common

/-! ### What is read -/

/-- The places of `prime_list` that the loop of `get_closest_prime` reads. -/
def primeReads (after : ℕ → BitVec 32) (num : BitVec 32) : ℕ → ℕ → List ℕ
  | 0, _ => []
  | rounds + 1, i =>
    i :: if num.slt (primeAt after i) then [] else primeReads after num rounds (i + 1)

/-- The places of `prime_list` that `get_closest_prime` reads. -/
def closestPrimeReads (after : ℕ → BitVec 32) (num : BitVec 32) : List ℕ :=
  let i := primeIndex after num 2000 0
  primeReads after num 2000 0 ++ if i = 0 then [] else [i - 1]

/-- **The number is looked up as it is to be**: only the table is read, and the result is the
largest prime number that is not above, if the number is below the last entry. -/
structure LooksUp (after : ℕ → BitVec 32) (num : BitVec 32) : Prop where
  reads : ∀ i ∈ closestPrimeReads after num, i < primeList.length
  greatest : ∀ last ∈ primeList.getLast?, num.toInt < last →
    IsGreatest {p : ℕ | p.Prime ∧ (p : ℤ) ≤ num.toInt} (closestPrime after num).toNat

/-! ### Prime numbers -/

/-- The prime numbers below 97. -/
def smallPrimes : List ℕ :=
  [2, 3, 5, 7, 11, 13, 17, 19, 23, 29, 31, 37, 41, 43, 47, 53, 59, 61, 67, 71, 73, 79, 83, 89]

/-- Their product. -/
def primorial : ℕ := 23768741896345550770650537601358310

/-- No small prime number divides a number, but for the number itself. -/
def hasNoFactor (n : ℕ) : Bool :=
  bif n.blt 97 then smallPrimes.elem n else (n.gcd primorial).beq 1

theorem mem_smallPrimes {q : ℕ} (hq : q.Prime) (hlt : q < 97) : q ∈ smallPrimes := by
  revert hq
  interval_cases q <;> decide

theorem prod_smallPrimes : smallPrimes.prod = primorial := by
  decide

/-- **A prime number has no factor**, and a small number that has none is prime. -/
theorem hasNoFactor_iff {n : ℕ} (h2 : 2 ≤ n) (h : n < 97 * 97) :
    hasNoFactor n = true ↔ n.Prime := by
  by_cases hlt : n < 97
  · rw [hasNoFactor, Nat.blt_eq.mpr hlt, cond_true, elem_iff]
    refine ⟨fun hmem => ?_, fun hn => mem_smallPrimes hn hlt⟩
    have hsmall : ∀ q ∈ smallPrimes, q.Prime := by decide
    exact hsmall n hmem
  · have hblt : n.blt 97 = false := Bool.eq_false_iff.mpr fun hc => hlt (Nat.blt_eq.mp hc)
    rw [hasNoFactor, hblt, cond_false, Nat.beq_eq, ← prod_smallPrimes]
    constructor
    · intro hgcd
      by_contra hn
      have hq : n.minFac.Prime := Nat.minFac_prime (by omega)
      have hsq : n.minFac ^ 2 ≤ n := Nat.minFac_sq_le_self (by omega) hn
      have hlt97 : n.minFac < 97 := by
        by_contra hge
        have := Nat.pow_le_pow_left (Nat.not_lt.mp hge) 2
        omega
      have hmem : n.minFac ∈ smallPrimes := mem_smallPrimes hq hlt97
      have hdvd := Nat.dvd_gcd (Nat.minFac_dvd n) (dvd_prod hmem)
      rw [hgcd] at hdvd
      exact hq.one_lt.ne' (Nat.dvd_one.mp hdvd)
    · intro hn
      refine (Nat.Prime.coprime_iff_not_dvd hn).mpr fun hdvd => ?_
      obtain ⟨q, hmem, hq⟩ := (Prime.dvd_prod_iff hn.prime).mp hdvd
      have hsmall : ∀ q ∈ smallPrimes, 0 < q ∧ q < 97 := by decide
      obtain ⟨hpos, hq97⟩ := hsmall q hmem
      exact hlt (Nat.lt_of_le_of_lt (Nat.le_of_dvd hpos hq) hq97)

/-- **Prime numbers that follow each other**: the numbers of a list are prime, and none is left out
between them. -/
def primeRun : ℕ → List ℕ → Bool
  | a, [] => hasNoFactor a
  | a, b :: l =>
    hasNoFactor a && decide (a < b) &&
      (List.range' (a + 1) (b - a - 1)).all (fun n => !hasNoFactor n) && primeRun b l

/-- **A number is between two of them**: the one before it is the largest that is not above. -/
theorem exists_of_primeRun {n : ℕ} {l : List ℕ} {a : ℕ} (h : primeRun a l = true) (h2 : 2 ≤ a)
    (hsmall : ∀ p ∈ l, p < 97 * 97) (ha : a ≤ n) (hn : ∃ p ∈ l, n < p) :
    ∃ pre p q post, a :: l = pre ++ p :: q :: post ∧ (∀ r ∈ pre ++ [p], r ≤ n) ∧ n < q ∧
      IsGreatest {r : ℕ | r.Prime ∧ r ≤ n} p := by
  induction l generalizing a with
  | nil =>
    obtain ⟨p, hp, -⟩ := hn
    cases hp
  | cons b l ih =>
    rw [primeRun, Bool.and_eq_true, Bool.and_eq_true, Bool.and_eq_true, decide_eq_true_eq,
      all_eq_true] at h
    obtain ⟨⟨⟨hprime, hab⟩, hgap⟩, hrun⟩ := h
    have hb := hsmall b mem_cons_self
    by_cases hnb : n < b
    · refine ⟨[], a, b, l, rfl, fun r hr => ?_, hnb,
        ⟨(hasNoFactor_iff h2 (by omega)).mp hprime, ha⟩, fun r hr => ?_⟩
      · rw [nil_append, mem_singleton] at hr
        rw [hr]
        exact ha
      · obtain ⟨hr, hrn⟩ := hr
        by_contra hlt
        have hmem : r ∈ List.range' (a + 1) (b - a - 1) := mem_range'_1.mpr (by omega)
        have := hgap r hmem
        rw [(hasNoFactor_iff hr.two_le (by omega)).mpr hr] at this
        cases this
    · have hn' : ∃ p ∈ l, n < p := by
        obtain ⟨p, hp, hlt⟩ := hn
        rcases mem_cons.mp hp with rfl | hp
        · exact absurd hlt hnb
        · exact ⟨p, hp, hlt⟩
      obtain ⟨pre, p, q, post, heq, hpre, hq, hgreatest⟩ := ih hrun (by omega)
        (fun p hp => hsmall p (mem_cons_of_mem b hp)) (Nat.not_lt.mp hnb) hn'
      refine ⟨a :: pre, p, q, post, by rw [heq]; rfl, fun r hr => ?_, hq, hgreatest⟩
      rcases mem_cons.mp hr with rfl | hr
      · exact ha
      · exact hpre r hr

/-! ### The table -/

/-- What comes before the entry that is wrong. -/
def primesBelow : List ℕ := primeList.take 480

/-- What comes after it. -/
def primesAbove : List ℕ := primeList.drop 481

/-- What is computed from the table, at once: its parts, that each has all prime numbers in turn,
and its bounds. -/
theorem primeList_checked : (primeList = primesBelow ++ 433 :: primesAbove ∧
      primesBelow = 2 :: primesBelow.tail ∧ primesAbove = 3449 :: primesAbove.tail) ∧
    (primeRun 2 primesBelow.tail = true ∧ primeRun 3449 primesAbove.tail = true) ∧
    (∀ p ∈ primesBelow, p ≤ 3413) ∧ (∀ p ∈ primeList, p ≤ 7919) ∧ primeList.length = 1000 := by
  decide +kernel

theorem primeList_eq : primeList = primesBelow ++ 433 :: primesAbove := primeList_checked.1.1

theorem primesBelow_eq : primesBelow = 2 :: primesBelow.tail := primeList_checked.1.2.1

theorem primesAbove_eq : primesAbove = 3449 :: primesAbove.tail := primeList_checked.1.2.2

/-- Before the entry that is wrong, the table has all prime numbers. -/
theorem primesBelow_run : primeRun 2 primesBelow.tail = true := primeList_checked.2.1.1

/-- After it, the table has all prime numbers up to the last entry. -/
theorem primesAbove_run : primeRun 3449 primesAbove.tail = true := primeList_checked.2.1.2

theorem primesBelow_le : ∀ p ∈ primesBelow, p ≤ 3413 := primeList_checked.2.2.1

theorem primeList_le : ∀ p ∈ primeList, p ≤ 7919 := primeList_checked.2.2.2.1

theorem length_primeList : primeList.length = 1000 := primeList_checked.2.2.2.2

/-! ### The loop -/

variable {after : ℕ → BitVec 32} {num : BitVec 32} {i j p rounds : ℕ}

/-- **An entry of the table is compared.** -/
theorem slt_primeAt (h : primeList[i]? = some p) :
    num.slt (primeAt after i) = decide (num.toInt < p) ∧ (primeAt after i).toNat = p := by
  have hi : i < 1000 := length_primeList ▸ (List.getElem?_eq_some_iff.mp h).1
  have hp : p ≤ 7919 := primeList_le p (mem_of_getElem? h)
  have hat : primeAt after i = BitVec.ofNat 32 p := by
    rw [primeAt, if_pos hi, getD_eq_getElem?_getD, h]
    rfl
  have hnat : (BitVec.ofNat 32 p).toNat = p := by
    rw [BitVec.toNat_ofNat]
    exact Nat.mod_eq_of_lt (by omega)
  have hint : (BitVec.ofNat 32 p).toInt = p := by
    rw [BitVec.toInt_eq_toNat_of_lt (by omega), hnat]
  rw [hat]
  refine ⟨?_, hnat⟩
  rw [BitVec.slt, hint]

/-- **The loop stops** at the first entry that is above, and reads the table up to it. -/
theorem primeIndex_eq (hij : i ≤ j) (hrounds : j < i + rounds)
    (hbelow : ∀ k, i ≤ k → k < j → num.slt (primeAt after k) = false)
    (habove : num.slt (primeAt after j) = true) :
    primeIndex after num rounds i = j ∧ ∀ k ∈ primeReads after num rounds i, k ≤ j := by
  induction rounds generalizing i with
  | zero => omega
  | succ rounds ih =>
    rw [primeIndex, primeReads]
    by_cases heq : i = j
    · rw [heq, if_pos habove, if_pos habove]
      exact ⟨rfl, fun k hk => Nat.le_of_eq (mem_singleton.mp hk)⟩
    · have hi := hbelow i (Nat.le_refl i) (Nat.lt_of_le_of_ne hij heq)
      rw [hi, if_neg Bool.false_ne_true, if_neg Bool.false_ne_true]
      obtain ⟨hindex, hreads⟩ := ih (i := i + 1) (by omega) (by omega)
        fun k hk => hbelow k (by omega)
      refine ⟨hindex, fun k hk => ?_⟩
      rcases mem_cons.mp hk with rfl | hk
      · exact hij
      · exact hreads k hk

theorem mem_primeReads (hij : i ≤ j) (hrounds : j < i + rounds)
    (hbelow : ∀ k, i ≤ k → k < j → num.slt (primeAt after k) = false) :
    j ∈ primeReads after num rounds i := by
  induction rounds generalizing i with
  | zero => omega
  | succ rounds ih =>
    rw [primeReads]
    by_cases heq : i = j
    · rw [heq]
      exact mem_cons_self
    · have hi := hbelow i (Nat.le_refl i) (Nat.lt_of_le_of_ne hij heq)
      rw [hi, if_neg Bool.false_ne_true]
      exact mem_cons_of_mem i (ih (by omega) (by omega) fun k hk => hbelow k (by omega))

/-- **The result of the loop** is the entry before the first that is above. -/
theorem closestPrime_eq {pre post : List ℕ} {p q : ℕ} (h : primeList = pre ++ p :: q :: post)
    (hpre : ∀ r ∈ pre ++ [p], (r : ℤ) ≤ num.toInt) (hq : num.toInt < q) :
    (closestPrime after num).toNat = p ∧
      ∀ i ∈ closestPrimeReads after num, i < primeList.length := by
  have hlen : pre.length + 2 ≤ primeList.length := by
    rw [h]
    simp
  have hp : primeList[pre.length]? = some p := by
    rw [h]
    simp
  have hq' : primeList[pre.length + 1]? = some q := by
    rw [h, List.getElem?_append_right (by omega)]
    simp
  have hbelow : ∀ k, 0 ≤ k → k < pre.length + 1 → num.slt (primeAt after k) = false := by
    intro k _ hk
    have hk' : k < (pre ++ [p]).length := by
      rw [length_append]
      exact hk
    have hget : primeList[k]? = some (pre ++ [p])[k] := by
      rw [h, append_cons, List.getElem?_append_left hk', List.getElem?_eq_getElem hk']
    have hle := hpre _ (List.getElem_mem hk')
    exact (slt_primeAt hget).1.trans (decide_eq_false (Int.not_lt.mpr hle))
  have hrounds : pre.length + 1 < 0 + 2000 := by
    rw [length_primeList] at hlen
    omega
  obtain ⟨hindex, hreads⟩ := primeIndex_eq (Nat.zero_le _) hrounds hbelow
    ((slt_primeAt hq').1.trans (decide_eq_true hq))
  have hne : pre.length + 1 ≠ 0 := Nat.succ_ne_zero _
  constructor
  · rw [closestPrime, hindex, if_neg hne]
    obtain ⟨-, hresult⟩ : num.slt (primeAt after _) = _ ∧ _ := slt_primeAt hp
    exact hresult
  · intro i hi
    rw [closestPrimeReads, hindex, if_neg hne] at hi
    rcases mem_append.mp hi with hi | hi
    · have := hreads i hi
      omega
    · rw [mem_singleton] at hi
      omega

/-! ### What is right -/

/-- **Where the table has no wrong entry around the number**, it is looked up as it is to be. -/
theorem looksUp_of_run {below l rest : List ℕ} {a n : ℕ}
    (htable : primeList = below ++ (a :: l ++ rest)) (hrun : primeRun a l = true) (h2 : 2 ≤ a)
    (hn : num.toInt = n) (ha : a ≤ n) (hbelow : ∀ r ∈ below, r ≤ n) (habove : ∃ p ∈ l, n < p) :
    LooksUp after num := by
  have hsmall : ∀ p ∈ l, p < 97 * 97 := by
    intro p hp
    have hmem : p ∈ primeList := by
      rw [htable]
      exact mem_append_right _ (mem_append_left _ (mem_cons_of_mem a hp))
    have := primeList_le p hmem
    omega
  obtain ⟨pre, p, q, post, heq, hpre, hq, hgreatest⟩ :=
    exists_of_primeRun hrun h2 hsmall ha habove
  have htable' : primeList = (below ++ pre) ++ p :: q :: (post ++ rest) := by
    rw [htable, heq, append_assoc, append_assoc]
    rfl
  have hnot : ∀ r ∈ (below ++ pre) ++ [p], (r : ℤ) ≤ num.toInt := by
    intro r hr
    rw [append_assoc] at hr
    rw [hn]
    rcases mem_append.mp hr with hr | hr
    · exact_mod_cast hbelow r hr
    · exact_mod_cast hpre r hr
  have hq' : num.toInt < q := by
    rw [hn]
    exact_mod_cast hq
  obtain ⟨hresult, hreads⟩ : (closestPrime after num).toNat = p ∧ _ :=
    closestPrime_eq htable' hnot hq'
  refine ⟨hreads, fun _ _ _ => ?_⟩
  rw [hresult, hn]
  simpa only [Nat.cast_le] using hgreatest

/-- From 3413 on, the loop stops behind the entry that is wrong. -/
theorem closestPrime_of_wrong (h : 3413 ≤ num.toInt) (h' : num.toInt < 3449) :
    (closestPrime after num).toNat = 433 := by
  have htable : primeList = primesBelow ++ 433 :: 3449 :: primesAbove.tail := by
    rw [← primesAbove_eq]
    exact primeList_eq
  refine (closestPrime_eq htable (fun r hr => ?_) h').1
  rcases mem_append.mp hr with hr | hr
  · have := primesBelow_le r hr
    omega
  · rw [mem_singleton] at hr
    omega

/-- From the last entry on, the loop goes on behind the table. -/
theorem mem_closestPrimeReads (h : 7919 ≤ num.toInt) :
    primeList.length ∈ closestPrimeReads after num := by
  refine mem_append_left _ (mem_primeReads (Nat.zero_le _) ?_ fun k _ hk => ?_)
  · rw [length_primeList]
    decide
  · have hget := List.getElem?_eq_getElem hk
    have hle := primeList_le _ (List.getElem_mem hk)
    exact (slt_primeAt hget).1.trans (decide_eq_false (by omega))

/-- 3413 is prime, and so the largest prime number that is not above. -/
theorem closestPrime_not_looksUp :
    ¬∀ num : BitVec 32, 2 ≤ num.toInt → LooksUp (fun _ => 0) num := by
  intro h
  have h3413 := h 3413 (by decide)
  have hgreatest := h3413.greatest 7919 (by decide +kernel) (by decide)
  have hle : 3413 ≤ _ := hgreatest.2
    ⟨(hasNoFactor_iff (by decide) (by decide)).mp (by decide), by decide⟩
  rw [closestPrime_of_wrong (by decide) (by decide)] at hle
  revert hle
  decide

/-- **A number is looked up as it is to be** if it is below the last entry, and not between 3413 and
3449. -/
theorem looksUp_iff (after : ℕ → BitVec 32) (num : BitVec 32) (h : 2 ≤ num.toInt) :
    LooksUp after num ↔ num.toInt < 7919 ∧ (num.toInt < 3413 ∨ 3449 ≤ num.toInt) := by
  obtain ⟨n, hn⟩ : ∃ n : ℕ, num.toInt = n := ⟨num.toInt.toNat, by omega⟩
  constructor
  · intro hl
    have hlt : num.toInt < 7919 := by
      by_contra hge
      exact Nat.lt_irrefl _ (hl.reads _ (mem_closestPrimeReads (by omega)))
    refine ⟨hlt, ?_⟩
    by_contra hwrong
    have hgreatest := hl.greatest 7919 (by decide +kernel) hlt
    rw [closestPrime_of_wrong (by omega) (by omega)] at hgreatest
    have hle : 3413 ≤ _ := hgreatest.2
      ⟨(hasNoFactor_iff (by decide) (by decide)).mp (by decide), by omega⟩
    omega
  · rintro ⟨hlt, hlow | hhigh⟩
    · have htable : primeList = [] ++ (2 :: primesBelow.tail ++ 433 :: primesAbove) := by
        rw [nil_append, ← primesBelow_eq]
        exact primeList_eq
      have habove : 3413 ∈ primesBelow.tail := by decide +kernel
      exact looksUp_of_run htable primesBelow_run (Nat.le_refl 2) hn (by omega)
        (fun r hr => absurd hr not_mem_nil) ⟨3413, habove, by omega⟩
    · have htable : primeList = (primesBelow ++ [433]) ++ (3449 :: primesAbove.tail ++ []) := by
        rw [append_nil, ← primesAbove_eq, append_assoc, singleton_append]
        exact primeList_eq
      have habove : 7919 ∈ primesAbove.tail := by decide +kernel
      refine looksUp_of_run htable primesAbove_run (by omega) hn (by omega) (fun r hr => ?_)
        ⟨7919, habove, by omega⟩
      rcases mem_append.mp hr with hr | hr
      · have := primesBelow_le r hr
        omega
      · rw [mem_singleton] at hr
        omega

theorem closestPrime_looksUp_3449 : LooksUp (fun _ => 0) 3449 :=
  (looksUp_iff (fun _ => 0) 3449 (by decide)).mpr (by decide)

end Common

end Flexus
