import Flexus.Lib.Bits

/-!
# Hash functions of the tagless directory

The hash functions that all tagless directories and caches share are made from a list of
configurations (`components/Common/GlobalHasher.cpp`). If the buckets are *partitioned*, every
configuration has as many buckets to itself as there are for each, and otherwise all have the same.

The functions are bound to their constants when they are made. All end in the mask, to which the
first bucket is added, but for one: the constants of *full prime* are bound in the wrong order to
the wrong function, so that a prime number is added, and the first bucket is part of the shift.

Addresses are numbers with a sign, and so their shifts keep the sign. The number of places of a
shift is taken modulo 64, as processors do.
-/

namespace Flexus

namespace Common

open Flexus.Lib

/-! ### The closest prime number -/

/-- `prime_list`. -/
def primeList : List ℕ :=
  [2, 3, 5, 7, 11, 13, 17, 19, 23, 29, 31, 37, 41, 43, 47, 53, 59, 61, 67, 71, 73, 79, 83, 89,
    97, 101, 103, 107, 109, 113, 127, 131, 137, 139, 149, 151, 157, 163, 167, 173, 179, 181, 191,
    193, 197, 199, 211, 223, 227, 229, 233, 239, 241, 251, 257, 263, 269, 271, 277, 281, 283, 293,
    307, 311, 313, 317, 331, 337, 347, 349, 353, 359, 367, 373, 379, 383, 389, 397, 401, 409, 419,
    421, 431, 433, 439, 443, 449, 457, 461, 463, 467, 479, 487, 491, 499, 503, 509, 521, 523, 541,
    547, 557, 563, 569, 571, 577, 587, 593, 599, 601, 607, 613, 617, 619, 631, 641, 643, 647, 653,
    659, 661, 673, 677, 683, 691, 701, 709, 719, 727, 733, 739, 743, 751, 757, 761, 769, 773, 787,
    797, 809, 811, 821, 823, 827, 829, 839, 853, 857, 859, 863, 877, 881, 883, 887, 907, 911, 919,
    929, 937, 941, 947, 953, 967, 971, 977, 983, 991, 997, 1009, 1013, 1019, 1021, 1031, 1033,
    1039, 1049, 1051, 1061, 1063, 1069, 1087, 1091, 1093, 1097, 1103, 1109, 1117, 1123, 1129,
    1151, 1153, 1163, 1171, 1181, 1187, 1193, 1201, 1213, 1217, 1223, 1229, 1231, 1237, 1249,
    1259, 1277, 1279, 1283, 1289, 1291, 1297, 1301, 1303, 1307, 1319, 1321, 1327, 1361, 1367,
    1373, 1381, 1399, 1409, 1423, 1427, 1429, 1433, 1439, 1447, 1451, 1453, 1459, 1471, 1481,
    1483, 1487, 1489, 1493, 1499, 1511, 1523, 1531, 1543, 1549, 1553, 1559, 1567, 1571, 1579,
    1583, 1597, 1601, 1607, 1609, 1613, 1619, 1621, 1627, 1637, 1657, 1663, 1667, 1669, 1693,
    1697, 1699, 1709, 1721, 1723, 1733, 1741, 1747, 1753, 1759, 1777, 1783, 1787, 1789, 1801,
    1811, 1823, 1831, 1847, 1861, 1867, 1871, 1873, 1877, 1879, 1889, 1901, 1907, 1913, 1931,
    1933, 1949, 1951, 1973, 1979, 1987, 1993, 1997, 1999, 2003, 2011, 2017, 2027, 2029, 2039,
    2053, 2063, 2069, 2081, 2083, 2087, 2089, 2099, 2111, 2113, 2129, 2131, 2137, 2141, 2143,
    2153, 2161, 2179, 2203, 2207, 2213, 2221, 2237, 2239, 2243, 2251, 2267, 2269, 2273, 2281,
    2287, 2293, 2297, 2309, 2311, 2333, 2339, 2341, 2347, 2351, 2357, 2371, 2377, 2381, 2383,
    2389, 2393, 2399, 2411, 2417, 2423, 2437, 2441, 2447, 2459, 2467, 2473, 2477, 2503, 2521,
    2531, 2539, 2543, 2549, 2551, 2557, 2579, 2591, 2593, 2609, 2617, 2621, 2633, 2647, 2657,
    2659, 2663, 2671, 2677, 2683, 2687, 2689, 2693, 2699, 2707, 2711, 2713, 2719, 2729, 2731,
    2741, 2749, 2753, 2767, 2777, 2789, 2791, 2797, 2801, 2803, 2819, 2833, 2837, 2843, 2851,
    2857, 2861, 2879, 2887, 2897, 2903, 2909, 2917, 2927, 2939, 2953, 2957, 2963, 2969, 2971,
    2999, 3001, 3011, 3019, 3023, 3037, 3041, 3049, 3061, 3067, 3079, 3083, 3089, 3109, 3119,
    3121, 3137, 3163, 3167, 3169, 3181, 3187, 3191, 3203, 3209, 3217, 3221, 3229, 3251, 3253,
    3257, 3259, 3271, 3299, 3301, 3307, 3313, 3319, 3323, 3329, 3331, 3343, 3347, 3359, 3361,
    3371, 3373, 3389, 3391, 3407, 3413, 433, 3449, 3457, 3461, 3463, 3467, 3469, 3491, 3499, 3511,
    3517, 3527, 3529, 3533, 3539, 3541, 3547, 3557, 3559, 3571, 3581, 3583, 3593, 3607, 3613,
    3617, 3623, 3631, 3637, 3643, 3659, 3671, 3673, 3677, 3691, 3697, 3701, 3709, 3719, 3727,
    3733, 3739, 3761, 3767, 3769, 3779, 3793, 3797, 3803, 3821, 3823, 3833, 3847, 3851, 3853,
    3863, 3877, 3881, 3889, 3907, 3911, 3917, 3919, 3923, 3929, 3931, 3943, 3947, 3967, 3989,
    4001, 4003, 4007, 4013, 4019, 4021, 4027, 4049, 4051, 4057, 4073, 4079, 4091, 4093, 4099,
    4111, 4127, 4129, 4133, 4139, 4153, 4157, 4159, 4177, 4201, 4211, 4217, 4219, 4229, 4231,
    4241, 4243, 4253, 4259, 4261, 4271, 4273, 4283, 4289, 4297, 4327, 4337, 4339, 4349, 4357,
    4363, 4373, 4391, 4397, 4409, 4421, 4423, 4441, 4447, 4451, 4457, 4463, 4481, 4483, 4493,
    4507, 4513, 4517, 4519, 4523, 4547, 4549, 4561, 4567, 4583, 4591, 4597, 4603, 4621, 4637,
    4639, 4643, 4649, 4651, 4657, 4663, 4673, 4679, 4691, 4703, 4721, 4723, 4729, 4733, 4751,
    4759, 4783, 4787, 4789, 4793, 4799, 4801, 4813, 4817, 4831, 4861, 4871, 4877, 4889, 4903,
    4909, 4919, 4931, 4933, 4937, 4943, 4951, 4957, 4967, 4969, 4973, 4987, 4993, 4999, 5003,
    5009, 5011, 5021, 5023, 5039, 5051, 5059, 5077, 5081, 5087, 5099, 5101, 5107, 5113, 5119,
    5147, 5153, 5167, 5171, 5179, 5189, 5197, 5209, 5227, 5231, 5233, 5237, 5261, 5273, 5279,
    5281, 5297, 5303, 5309, 5323, 5333, 5347, 5351, 5381, 5387, 5393, 5399, 5407, 5413, 5417,
    5419, 5431, 5437, 5441, 5443, 5449, 5471, 5477, 5479, 5483, 5501, 5503, 5507, 5519, 5521,
    5527, 5531, 5557, 5563, 5569, 5573, 5581, 5591, 5623, 5639, 5641, 5647, 5651, 5653, 5657,
    5659, 5669, 5683, 5689, 5693, 5701, 5711, 5717, 5737, 5741, 5743, 5749, 5779, 5783, 5791,
    5801, 5807, 5813, 5821, 5827, 5839, 5843, 5849, 5851, 5857, 5861, 5867, 5869, 5879, 5881,
    5897, 5903, 5923, 5927, 5939, 5953, 5981, 5987, 6007, 6011, 6029, 6037, 6043, 6047, 6053,
    6067, 6073, 6079, 6089, 6091, 6101, 6113, 6121, 6131, 6133, 6143, 6151, 6163, 6173, 6197,
    6199, 6203, 6211, 6217, 6221, 6229, 6247, 6257, 6263, 6269, 6271, 6277, 6287, 6299, 6301,
    6311, 6317, 6323, 6329, 6337, 6343, 6353, 6359, 6361, 6367, 6373, 6379, 6389, 6397, 6421,
    6427, 6449, 6451, 6469, 6473, 6481, 6491, 6521, 6529, 6547, 6551, 6553, 6563, 6569, 6571,
    6577, 6581, 6599, 6607, 6619, 6637, 6653, 6659, 6661, 6673, 6679, 6689, 6691, 6701, 6703,
    6709, 6719, 6733, 6737, 6761, 6763, 6779, 6781, 6791, 6793, 6803, 6823, 6827, 6829, 6833,
    6841, 6857, 6863, 6869, 6871, 6883, 6899, 6907, 6911, 6917, 6947, 6949, 6959, 6961, 6967,
    6971, 6977, 6983, 6991, 6997, 7001, 7013, 7019, 7027, 7039, 7043, 7057, 7069, 7079, 7103,
    7109, 7121, 7127, 7129, 7151, 7159, 7177, 7187, 7193, 7207, 7211, 7213, 7219, 7229, 7237,
    7243, 7247, 7253, 7283, 7297, 7307, 7309, 7321, 7331, 7333, 7349, 7351, 7369, 7393, 7411,
    7417, 7433, 7451, 7457, 7459, 7477, 7481, 7487, 7489, 7499, 7507, 7517, 7523, 7529, 7537,
    7541, 7547, 7549, 7559, 7561, 7573, 7577, 7583, 7589, 7591, 7603, 7607, 7621, 7639, 7643,
    7649, 7669, 7673, 7681, 7687, 7691, 7699, 7703, 7717, 7723, 7727, 7741, 7753, 7757, 7759,
    7789, 7793, 7817, 7823, 7829, 7841, 7853, 7867, 7873, 7877, 7879, 7883, 7901, 7907, 7919]

/-- What is read at a place of `prime_list`. It has a thousand elements; after them is what follows
in memory. -/
def primeAt (after : ℕ → BitVec 32) (i : ℕ) : BitVec 32 :=
  if i < 1000 then BitVec.ofNat 32 (primeList.getD i 0) else after i

/-- The loop of `get_closest_prime`, with the number of rounds that are left. -/
def primeIndex (after : ℕ → BitVec 32) (num : BitVec 32) : ℕ → ℕ → ℕ
  | 0, i => i
  | rounds + 1, i =>
    if num.slt (primeAt after i) then i else primeIndex after num rounds (i + 1)

/-- **`get_closest_prime`**. -/
def closestPrime (after : ℕ → BitVec 32) (num : BitVec 32) : BitVec 32 :=
  let i := primeIndex after num 2000 0
  if i = 0 then num else primeAt after (i - 1)

/-! ### The hash functions -/

/-- What a configuration says. The numbers of a matrix are given, or come from a random source. -/
inductive HashConfig
  | simple
  | xor (xor_shift : BitVec 32)
  | shift (shift : BitVec 32)
  | matrix (numbers : List (BitVec 32))
  | full_prime
  /-- Any other text, which makes no hash function. -/
  | unknown
  deriving DecidableEq

/-- The shift of an address. -/
def shiftAddr (addr : BitVec 64) (n : BitVec 32) : BitVec 64 := addr.sshiftRight (n.toNat % 64)

/-- The members of a `GlobalHasher` that its functions use. -/
structure GlobalHasher where
  theHashShift : BitVec 32
  theHashMask : BitVec 32
  deriving DecidableEq

namespace GlobalHasher

variable (g : GlobalHasher)

/-- The end of the hash functions. -/
def masked (x : BitVec 64) (offset : BitVec 32) : BitVec 32 :=
  ((x &&& g.theHashMask.signExtend 64) + offset.signExtend 64).setWidth 32

/-- `simple_hash`. -/
def simple_hash (offset : BitVec 32) (addr : BitVec 64) : BitVec 32 :=
  g.masked (shiftAddr addr g.theHashShift) offset

/-- `xor_hash`. -/
def xor_hash (offset xor_shift : BitVec 32) (addr : BitVec 64) : BitVec 32 :=
  g.masked (shiftAddr addr g.theHashShift ^^^ shiftAddr addr xor_shift) offset

/-- `shift_hash`. -/
def shift_hash (offset shift : BitVec 32) (addr : BitVec 64) : BitVec 32 :=
  g.masked (shiftAddr addr (g.theHashShift + shift)) offset

/-- The loop of `MatrixHash`: the numbers of the bits that are set. -/
def matrixXor : List (BitVec 32) → BitVec 64 → BitVec 32
  | [], _ => 0
  | number :: matrix, addr =>
    (if addr &&& 1 ≠ 0 then number else 0) ^^^ matrixXor matrix (addr >>> 1)

/-- **`MatrixHash`**. It is stored as a function of an `int`: of an address, 32 bits come to it. -/
def matrix_hash (matrix : List (BitVec 32)) (offset : BitVec 32) (addr : BitVec 64) : BitVec 32 :=
  let addr := (addr.setWidth 32).signExtend 64
  (matrixXor matrix (addr >>> (g.theHashShift.toNat % 64)) &&& g.theHashMask) + offset

/-- **The hash function that is made of a configuration**, with its constants. -/
def bound (after : ℕ → BitVec 32) (buckets_per_hash first_bucket : BitVec 32) :
    HashConfig → Option (BitVec 64 → BitVec 32)
  | .simple => some (g.simple_hash first_bucket)
  | .xor xor_shift => some (g.xor_hash first_bucket xor_shift)
  | .shift shift => some (g.shift_hash first_bucket shift)
  | .matrix numbers => some (g.matrix_hash numbers first_bucket)
  | .full_prime => some (g.shift_hash (closestPrime after buckets_per_hash) first_bucket)
  | .unknown => none

/-- The loop over the configurations. -/
def hashList (after : ℕ → BitVec 32) (buckets_per_hash offset : BitVec 32) :
    BitVec 32 → List HashConfig → List (BitVec 64 → BitVec 32)
  | _, [] => []
  | first_bucket, cfg :: cfgs =>
    (g.bound after buckets_per_hash first_bucket cfg).toList ++
      hashList after buckets_per_hash offset (first_bucket + offset) cfgs

end GlobalHasher

/-- What `initialize` is given, and what the closest prime number depends on besides. -/
structure HasherConfig where
  hash_configs : List HashConfig
  initial_shift : BitVec 32
  buckets_per_hash : BitVec 32
  partitioned : Bool
  after : ℕ → BitVec 32

namespace HasherConfig

variable (c : HasherConfig)

/-- The hasher, after `initialize`. -/
def hasher : GlobalHasher := ⟨c.initial_shift, c.buckets_per_hash - 1⟩

/-- **`initialize`**: `theHashList`. -/
def theHashList : List (BitVec 64 → BitVec 32) :=
  c.hasher.hashList c.after c.buckets_per_hash (if c.partitioned then c.buckets_per_hash else 0) 0
    c.hash_configs

/-- `hashAddr`, as the list of what goes into the set. -/
def hashAddr (addr : BitVec 64) : List (BitVec 32) := c.theHashList.map fun hash => hash addr

/-- `theTotalNumBuckets` of the directory: the number of buckets in its arrays. -/
def totalBuckets : ℕ :=
  c.buckets_per_hash.toNat * if c.partitioned then c.hash_configs.length else 1

/-- The first bucket of a configuration, by its place in the list. -/
def firstBucket (i : ℕ) : ℕ := if c.partitioned then i * c.buckets_per_hash.toNat else 0

end HasherConfig

/-! ### What a hash function maps to -/

namespace GlobalHasher

variable {g : GlobalHasher} {buckets first : BitVec 32}

/-- **A number of buckets from a first one on.** A negative value is above all of them. -/
def InBuckets (first buckets : ℕ) (v : BitVec 32) : Prop :=
  first ≤ v.toNat ∧ v.toNat < first + buckets

theorem toNat_mask (hpos : 0 < buckets.toNat) : (buckets - 1).toNat = buckets.toNat - 1 :=
  BitVec.toNat_sub_of_le (BitVec.le_def.mpr hpos)

/-- **What ends in the mask**, as a number. -/
theorem toNat_masked (hmask : g.theHashMask = buckets - 1) (hpos : 0 < buckets.toNat)
    (hbuckets : buckets.toNat < 2 ^ 31) (hfirst : first.toNat < 2 ^ 31) (x : BitVec 64) :
    (g.masked x first).toNat = (x.toNat &&& (buckets.toNat - 1)) + first.toNat := by
  have hm : (g.theHashMask.signExtend 64).toNat = buckets.toNat - 1 := by
    rw [hmask, toNat_signExtend_of_lt (by decide) (by rw [toNat_mask hpos]; omega), toNat_mask hpos]
  have hf : (first.signExtend 64).toNat = first.toNat :=
    toNat_signExtend_of_lt (by decide) (by omega)
  have hle : x.toNat &&& (buckets.toNat - 1) ≤ buckets.toNat - 1 := Nat.and_le_right
  rw [masked, BitVec.toNat_setWidth, BitVec.toNat_add, BitVec.toNat_and, hm, hf]
  omega

/-- **What ends in the mask is in the buckets**, whatever is masked. -/
theorem masked_inBuckets (hmask : g.theHashMask = buckets - 1) (hpos : 0 < buckets.toNat)
    (hbuckets : buckets.toNat < 2 ^ 31) (hfirst : first.toNat < 2 ^ 31) (x : BitVec 64) :
    InBuckets first.toNat buckets.toNat (g.masked x first) := by
  have hle : x.toNat &&& (buckets.toNat - 1) ≤ buckets.toNat - 1 := Nat.and_le_right
  rw [InBuckets, toNat_masked hmask hpos hbuckets hfirst]
  omega

theorem matrix_inBuckets (hmask : g.theHashMask = buckets - 1) (hpos : 0 < buckets.toNat)
    (hbuckets : buckets.toNat < 2 ^ 31) (hfirst : first.toNat < 2 ^ 31)
    (matrix : List (BitVec 32)) (addr : BitVec 64) :
    InBuckets first.toNat buckets.toNat (g.matrix_hash matrix first addr) := by
  rw [InBuckets, matrix_hash]
  generalize matrixXor matrix _ = ret
  have hle : ret.toNat &&& (buckets.toNat - 1) ≤ buckets.toNat - 1 := Nat.and_le_right
  rw [BitVec.toNat_add, BitVec.toNat_and, hmask, toNat_mask hpos]
  omega

theorem shiftAddr_zero (n : BitVec 32) : shiftAddr 0 n = 0 := BitVec.zero_sshiftRight

/-- **A shift of a negative number** keeps all bits set. -/
theorem shiftAddr_allOnes (n : BitVec 32) : shiftAddr (BitVec.allOnes 64) n = BitVec.allOnes 64 := by
  refine BitVec.eq_of_getLsbD_eq fun i hi => ?_
  have hmsb : (BitVec.allOnes 64).msb = true := by decide
  rw [shiftAddr, BitVec.getLsbD_sshiftRight, BitVec.getLsbD_allOnes, BitVec.getLsbD_allOnes, hmsb,
    decide_eq_false (Nat.not_le.mpr hi), decide_eq_true hi]
  split
  · rename_i hlt
    rw [decide_eq_true hlt]
    rfl
  · rfl

theorem masked_zero (offset : BitVec 32) : g.masked 0 offset = offset := by
  refine BitVec.eq_of_getLsbD_eq fun i hi => ?_
  have h64 : i < 64 := by omega
  have hsum : (0 &&& g.theHashMask.signExtend 64) + offset.signExtend 64 = offset.signExtend 64 := by
    simp
  rw [masked, hsum, BitVec.getLsbD_setWidth, decide_eq_true hi, Bool.true_and,
    BitVec.getLsbD_signExtend, decide_eq_true h64, if_pos hi, Bool.true_and]

/-- **The function for a prime number is right only if that is the first bucket.** -/
theorem fullPrime_inBuckets_iff (hmask : g.theHashMask = buckets - 1) (hpos : 0 < buckets.toNat)
    (hbuckets : buckets.toNat < 2 ^ 31) (hfirst : first.toNat + buckets.toNat ≤ 2 ^ 31) (p s : BitVec 32) :
    (∀ addr, InBuckets first.toNat buckets.toNat (g.shift_hash p s addr)) ↔ p = first := by
  constructor
  · intro h
    obtain ⟨hle, hlt⟩ := h 0
    rw [shift_hash, shiftAddr_zero, masked_zero] at hle hlt
    have hones := (h (BitVec.allOnes 64)).2
    have hall : (BitVec.allOnes 64).toNat &&& (buckets.toNat - 1) = buckets.toNat - 1 := by
      rw [BitVec.toNat_allOnes, Nat.and_comm]
      exact Nat.and_two_pow_sub_one_of_lt_two_pow (by omega)
    rw [shift_hash, shiftAddr_allOnes, toNat_masked hmask hpos hbuckets (by omega), hall] at hones
    exact BitVec.eq_of_toNat_eq (by omega)
  · rintro rfl
    exact fun addr => masked_inBuckets hmask hpos hbuckets (by omega) _

end GlobalHasher

/-! ### All hash functions -/

namespace HasherConfig

variable {c : HasherConfig} {i : ℕ} {cfg : HashConfig}

/-- **A hasher for a directory**: it has buckets, and their number is that of an array. -/
structure Valid (c : HasherConfig) : Prop where
  pos : 0 < c.buckets_per_hash.toNat
  fits : c.totalBuckets < 2 ^ 31

/-- The first bucket of a configuration, as the loop has it. -/
def first_bucket (c : HasherConfig) (i : ℕ) : BitVec 32 :=
  BitVec.ofNat 32 i * if c.partitioned then c.buckets_per_hash else 0

/-- **Every hash function maps to the buckets of its own**, and so into the array of buckets. -/
structure HashesRight (c : HasherConfig) : Prop where
  own : ∀ i cfg hash, c.hash_configs[i]? = some cfg →
    c.hasher.bound c.after c.buckets_per_hash (c.first_bucket i) cfg = some hash →
    ∀ addr, GlobalHasher.InBuckets (c.firstBucket i) c.buckets_per_hash.toNat (hash addr)
  inBounds : ∀ addr, ∀ v ∈ c.hashAddr addr, v.toNat < c.totalBuckets

/-- **What a hash function for a prime number needs**: that the closest prime number is the first of
its buckets. -/
def PrimesRight (c : HasherConfig) : Prop :=
  ∀ i, c.hash_configs[i]? = some .full_prime →
    closestPrime c.after c.buckets_per_hash = c.first_bucket i

theorem mem_hashList {g : GlobalHasher} {after : ℕ → BitVec 32} {buckets offset : BitVec 32}
    {hash : BitVec 64 → BitVec 32} (cfgs : List HashConfig) (first : BitVec 32) :
    hash ∈ g.hashList after buckets offset first cfgs ↔
      ∃ (i : ℕ) (cfg : HashConfig), cfgs[i]? = some cfg ∧
        g.bound after buckets (first + BitVec.ofNat 32 i * offset) cfg = some hash := by
  have hnext : ∀ (first : BitVec 32) (i : ℕ), first + offset + BitVec.ofNat 32 i * offset =
      first + BitVec.ofNat 32 (i + 1) * offset := by
    intro first i
    rw [BitVec.ofNat_add, BitVec.add_mul, BitVec.one_mul, BitVec.add_assoc, BitVec.add_comm offset]
  induction cfgs generalizing first with
  | nil => simp [GlobalHasher.hashList]
  | cons cfg cfgs ih =>
    rw [GlobalHasher.hashList, List.mem_append, Option.mem_toList]
    refine (or_congr_right (ih (first + offset))).trans ?_
    constructor
    · rintro (hhash | ⟨i, cfg', hi, hhash⟩)
      · refine ⟨0, cfg, rfl, ?_⟩
        rw [BitVec.zero_mul, BitVec.add_zero]
        exact hhash
      · refine ⟨i + 1, cfg', hi, ?_⟩
        rw [← hnext]
        exact hhash
    · rintro ⟨_ | i, cfg', hi, hhash⟩
      · cases hi
        rw [BitVec.zero_mul, BitVec.add_zero] at hhash
        exact .inl hhash
      · rw [← hnext] at hhash
        exact .inr ⟨i, cfg', hi, hhash⟩

theorem mem_theHashList {hash : BitVec 64 → BitVec 32} : hash ∈ c.theHashList ↔
    ∃ (i : ℕ) (cfg : HashConfig), c.hash_configs[i]? = some cfg ∧
      c.hasher.bound c.after c.buckets_per_hash (c.first_bucket i) cfg = some hash := by
  have hzero : ∀ x : BitVec 32, 0 + x = x := fun x => BitVec.zero_add x
  rw [theHashList, mem_hashList]
  simp only [hzero, first_bucket]

theorem firstBucket_add_le (hi : i < c.hash_configs.length) :
    c.firstBucket i + c.buckets_per_hash.toNat ≤ c.totalBuckets := by
  rw [firstBucket, totalBuckets]
  cases c.partitioned with
  | false => simp
  | true =>
    have hmul : (i + 1) * c.buckets_per_hash.toNat ≤
        c.hash_configs.length * c.buckets_per_hash.toNat := Nat.mul_le_mul_right _ hi
    rw [if_pos rfl, if_pos rfl, Nat.mul_comm c.buckets_per_hash.toNat]
    rwa [Nat.add_mul, Nat.one_mul] at hmul

/-- **The loop counts the first buckets** without an overflow. -/
theorem toNat_first_bucket (h : c.Valid) (hi : i < c.hash_configs.length) :
    (c.first_bucket i).toNat = c.firstBucket i := by
  have hle := firstBucket_add_le hi
  have hfits := h.fits
  have hpos := h.pos
  rw [firstBucket] at hle ⊢
  rw [first_bucket]
  cases hpart : c.partitioned with
  | false => simp
  | true =>
    rw [hpart, if_pos rfl] at hle
    have hlt : i < 2 ^ 32 := by
      have hle' : i ≤ i * c.buckets_per_hash.toNat := Nat.le_mul_of_pos_right _ hpos
      omega
    rw [if_pos rfl, if_pos rfl, BitVec.toNat_mul, BitVec.toNat_ofNat, Nat.mod_eq_of_lt hlt]
    exact Nat.mod_eq_of_lt (by omega)

/-- **Hash functions are right but for those of prime numbers**, which are right only where the prime
number is the first bucket. -/
theorem hashesRight_iff (h : c.Valid) : c.HashesRight ↔ c.PrimesRight := by
  have hbounds : ∀ {i cfg}, c.hash_configs[i]? = some cfg → i < c.hash_configs.length :=
    fun hi => (List.getElem?_eq_some_iff.mp hi).1
  have hmask : c.hasher.theHashMask = c.buckets_per_hash - 1 := rfl
  constructor
  · intro hright i hi
    have hlt := hbounds hi
    have hle := firstBucket_add_le hlt
    have hfits := h.fits
    have hnat := toNat_first_bucket h hlt
    refine (GlobalHasher.fullPrime_inBuckets_iff hmask h.pos (by omega) (by omega) _
      (c.first_bucket i)).mp fun addr => ?_
    rw [hnat]
    exact hright.own i .full_prime _ hi rfl addr
  · intro hprimes
    have hown : ∀ i cfg hash, c.hash_configs[i]? = some cfg →
        c.hasher.bound c.after c.buckets_per_hash (c.first_bucket i) cfg = some hash →
        ∀ addr, GlobalHasher.InBuckets (c.firstBucket i) c.buckets_per_hash.toNat (hash addr) := by
      intro i cfg hash hi hbound addr
      have hlt := hbounds hi
      have hle := firstBucket_add_le hlt
      have hfits := h.fits
      have hnat := toNat_first_bucket h hlt
      have hbuckets : c.buckets_per_hash.toNat < 2 ^ 31 := by omega
      have hfirst : (c.first_bucket i).toNat < 2 ^ 31 := by omega
      rw [← hnat]
      cases cfg with
      | simple =>
        cases hbound
        exact GlobalHasher.masked_inBuckets hmask h.pos hbuckets hfirst _
      | xor xor_shift =>
        cases hbound
        exact GlobalHasher.masked_inBuckets hmask h.pos hbuckets hfirst _
      | shift shift =>
        cases hbound
        exact GlobalHasher.masked_inBuckets hmask h.pos hbuckets hfirst _
      | matrix numbers =>
        cases hbound
        exact GlobalHasher.matrix_inBuckets hmask h.pos hbuckets hfirst numbers addr
      | full_prime =>
        cases hbound
        rw [hprimes i hi]
        exact GlobalHasher.masked_inBuckets hmask h.pos hbuckets hfirst _
      | unknown => cases hbound
    refine ⟨hown, fun addr v hv => ?_⟩
    obtain ⟨hash, hhash, rfl⟩ := List.mem_map.mp hv
    obtain ⟨i, cfg, hi, hbound⟩ := mem_theHashList.mp hhash
    exact Nat.lt_of_lt_of_le (hown i cfg hash hi hbound addr).2 (firstBucket_add_le (hbounds hi))

/-- Two functions with seven buckets each, a prime number. -/
def sevenBuckets : HasherConfig := ⟨[.simple, .full_prime], 6, 7, true, fun _ => 0⟩

theorem sevenBuckets_right : sevenBuckets.Valid ∧ sevenBuckets.HashesRight := by
  have hvalid : sevenBuckets.Valid := ⟨by decide, by decide⟩
  refine ⟨hvalid, (hashesRight_iff hvalid).mpr fun i hi => ?_⟩
  match i, hi with
  | 1, _ => decide

/-- A function for a prime number by itself, with eight buckets. -/
def eightBuckets : HasherConfig := ⟨[.full_prime], 6, 8, false, fun _ => 0⟩

/-- **The second block is mapped behind the last bucket.** -/
theorem eightBuckets_not_right : eightBuckets.Valid ∧ ¬eightBuckets.HashesRight := by
  refine ⟨⟨by decide, by decide⟩, fun h => ?_⟩
  have hlt := h.inBounds 0x40 8 (by decide)
  exact absurd hlt (by decide)

end HasherConfig

end Common

end Flexus
