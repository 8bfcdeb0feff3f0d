import Flexus.Lib.Bits
import Flexus.Lib.Bytes
import Mathlib.Logic.Basic

/-!
# Double words

A `DoubleWord` is a word of eight bytes of which some are valid
(`components/Common/DoubleWord.hpp`). Its bytes are numbered from the most significant one on, as
they lie in a memory whose words have their most significant byte first; the host has the least
significant byte first, so that a pointer into the word counts the other way.

What a double word stands for is a partial map from byte positions to bytes, in which the last
writer of each byte wins. All operations are those of that map, as long as they are naturally
aligned.
-/

namespace Flexus

namespace Common

open Lib

/-- **`DoubleWord`.** -/
structure DoubleWord where
  theDoubleWord : BitVec 64
  theValidBits : BitVec 8
  deriving DecidableEq

/-- A part of the memory of a word is overwritten: `n` bytes at the address of its byte `k`, in a
host that has the least significant byte first. -/
def overwrite (x : BitVec 64) (k n : ℕ) (v : BitVec 64) : BitVec 64 :=
  (x &&& ~~~(lowBits 64 (8 * n) <<< (8 * k))) ||| ((v &&& lowBits 64 (8 * n)) <<< (8 * k))

/-- A part of the memory of a word: `n` bytes at the address of its byte `k`. -/
def part (x : BitVec 64) (k n : ℕ) : BitVec 64 := (x >>> (8 * k)) &&& lowBits 64 (8 * n)

namespace DoubleWord

/-- `DoubleWord()`. -/
def empty : DoubleWord := ⟨0xEAEAEAEA, 0⟩

/-- `DoubleWord( aULL )`. -/
def ofValue (aULL : BitVec 64) : DoubleWord := ⟨aULL, 0xFF⟩

variable (d : DoubleWord)

/-- **`set`**. Other sizes, and other offsets of double words, fail an assertion. -/
def set (aValue : BitVec 64) (aSize anOffset : ℕ) : Option DoubleWord :=
  match aSize with
  | 1 => some
    { theDoubleWord := overwrite d.theDoubleWord (7 - anOffset) 1 aValue
      theValidBits := d.theValidBits ||| (0x1#8 <<< (7 - anOffset)) }
  | 2 => some
    { theDoubleWord := overwrite d.theDoubleWord (2 * (3 - anOffset / 2)) 2 aValue
      theValidBits := d.theValidBits ||| (0x3#8 <<< (6 - anOffset)) }
  | 4 => some
    { theDoubleWord := overwrite d.theDoubleWord (4 * (1 - anOffset / 4)) 4 aValue
      theValidBits := d.theValidBits ||| (0xF#8 <<< (4 - anOffset)) }
  | 8 => if anOffset = 0 then some ⟨aValue, 0xFF⟩ else none
  | _ => none

/-- **`isValid`**. -/
def isValid (aSize anOffset : ℕ) : Bool :=
  match aSize with
  | 1 => d.theValidBits &&& (0x1#8 <<< (7 - anOffset)) == 0x1#8 <<< (7 - anOffset)
  | 2 => d.theValidBits &&& (0x3#8 <<< (6 - anOffset)) == 0x3#8 <<< (6 - anOffset)
  | 4 => d.theValidBits &&& (0xF#8 <<< (4 - anOffset)) == 0xF#8 <<< (4 - anOffset)
  | 8 => d.theValidBits &&& 0xFF == 0xFF
  | _ => false

/-- `getByte`, `getHalfWord`, `getWord` and `getDoubleWord`, where they are read. -/
def get (aSize anOffset : ℕ) : Option (BitVec 64) :=
  match aSize with
  | 1 => some (part d.theDoubleWord (7 - anOffset) 1)
  | 2 => some (part d.theDoubleWord (2 * (3 - anOffset / 2)) 2)
  | 4 => some (part d.theDoubleWord (4 * (1 - anOffset / 4)) 4)
  | 8 => if anOffset = 0 then some d.theDoubleWord else none
  | _ => none

/-- **`isEqual`**. -/
def isEqual (aValue : BitVec 64) (aSize anOffset : ℕ) : Option Bool :=
  if d.isValid aSize anOffset then
    (d.get aSize anOffset).map fun x => x == aValue &&& lowBits 64 (8 * aSize)
  else some false

/-- The loop of `apply`, after a number of iterations: `masked_val` and the valid bits. -/
def applyLoop (aMask : DoubleWord) : ℕ → BitVec 64 × BitVec 8
  | 0 => (0, d.theValidBits)
  | n + 1 =>
    let r := applyLoop aMask n
    let masked_val := r.1 <<< 8
    let i := 7 - n
    if aMask.theValidBits &&& (1#8 <<< i) != 0 then
      (masked_val ||| ((aMask.theDoubleWord >>> (8 * i)) &&& 0xFF), r.2 ||| (1#8 <<< i))
    else (masked_val ||| ((d.theDoubleWord >>> (8 * i)) &&& 0xFF), r.2)

/-- **`apply`**. -/
def apply (aMask : DoubleWord) : DoubleWord :=
  if aMask.theValidBits ≠ 0 then
    ⟨(d.applyLoop aMask 8).1, (d.applyLoop aMask 8).2⟩
  else d

/-- `DoubleWord( aBase, anApplyVal )`. -/
def ofBase (aBase : BitVec 64) (anApplyVal : DoubleWord) : DoubleWord :=
  (ofValue aBase).apply anApplyVal

/-- `operator ==`, of a value and a double word, from an iteration on. -/
def equalsFrom (compare : BitVec 64) : ℕ → Bool
  | 0 => true
  | n + 1 =>
    let i := n
    if d.theValidBits &&& (1#8 <<< i) != 0 then
      ((d.theDoubleWord >>> (8 * i)) &&& 0xFF) == ((compare >>> (8 * i)) &&& 0xFF) &&
        equalsFrom compare n
    else equalsFrom compare n

/-- `operator ==`, of a value and a double word. -/
def equals (compare : BitVec 64) : Bool := d.equalsFrom compare 8

end DoubleWord

/-! ### Maps of bytes -/

/-- **What a double word stands for**: a map from byte positions to bytes, where there are any. -/
abbrev ByteMap : Type := Fin 8 → Option (BitVec 8)

/-- A naturally aligned access. -/
structure Access where
  size : ℕ
  offset : ℕ
  size_eq : size = 1 ∨ size = 2 ∨ size = 4 ∨ size = 8
  aligned : size ∣ offset
  offset_lt : offset < 8

namespace ByteMap

variable (m : ByteMap)

/-- The position is within an access. -/
def Within (a : Access) (o : Fin 8) : Prop := a.offset ≤ o ∧ o < a.offset + a.size

instance (a : Access) (o : Fin 8) : Decidable (Within a o) := by
  unfold Within
  infer_instance

/-- The byte of a value at a position of an access, the most significant one first. -/
def byteOf (v : BitVec 64) (a : Access) (o : ℕ) : BitVec 8 :=
  (v >>> (8 * (a.offset + a.size - 1 - o))).setWidth 8

/-- The bytes of an access are those of a value. -/
def set (a : Access) (v : BitVec 64) : ByteMap := fun o =>
  if Within a o then some (byteOf v a o) else m o

/-- There are bytes at all positions of an access. -/
def Valid (a : Access) : Prop := ∀ o, Within a o → (m o).isSome

instance (a : Access) : Decidable (m.Valid a) := by
  unfold Valid
  infer_instance

/-- **The bytes of an access**, as a value. -/
def Holds (a : Access) (v : BitVec 64) : Prop := ∀ o, Within a o → m o = some (byteOf v a o)

instance (a : Access) (v : BitVec 64) : Decidable (m.Holds a v) := by
  unfold Holds
  infer_instance

/-- The bytes of another map win. -/
def override (mask : ByteMap) : ByteMap := fun o => (mask o).or (m o)

end ByteMap

/-- The map of a double word. -/
def DoubleWord.toMap (d : DoubleWord) : ByteMap := fun o =>
  if d.theValidBits.getLsbD (7 - o.val) then some ((d.theDoubleWord >>> (8 * (7 - o.val))).setWidth 8)
  else none

/-! ### Bits -/

section Bits

variable {x v : BitVec 64} {valid : BitVec 8} {i k n o : ℕ}

/-- **The bits of a word of which a part is overwritten.** -/
theorem getLsbD_overwrite (hi : i < 64) : (overwrite x k n v).getLsbD i =
    if 8 * k ≤ i ∧ i < 8 * (k + n) then v.getLsbD (i - 8 * k) else x.getLsbD i := by
  rw [overwrite, BitVec.getLsbD_or, BitVec.getLsbD_and, BitVec.getLsbD_not,
    BitVec.getLsbD_shiftLeft, BitVec.getLsbD_shiftLeft, BitVec.getLsbD_and, getLsbD_lowBits,
    decide_eq_true hi]
  by_cases hk : i < 8 * k
  · have hout : ¬ (8 * k ≤ i ∧ i < 8 * (k + n)) := by omega
    simp [hk, hout]
  · by_cases hn : i < 8 * (k + n)
    · have hin : 8 * k ≤ i ∧ i < 8 * (k + n) := by omega
      have hlt : i - 8 * k < 64 ∧ i - 8 * k < 8 * n := by omega
      simp [hk, hin, hlt]
    · have hout : ¬ (8 * k ≤ i ∧ i < 8 * (k + n)) := by omega
      have hge : ¬ i - 8 * k < 8 * n := by omega
      simp [hk, hout, hge]

theorem getLsbD_part (hi : i < 64) :
    (part x k n).getLsbD i = (decide (i < 8 * n) && x.getLsbD (8 * k + i)) := by
  rw [part, BitVec.getLsbD_and, BitVec.getLsbD_ushiftRight, getLsbD_lowBits, decide_eq_true hi,
    Bool.true_and, Bool.and_comm]

theorem getLsbD_validBits (hi : i < 8) : (lowBits 8 n <<< k).getLsbD i =
    decide (k ≤ i ∧ i < k + n) := by
  rw [BitVec.getLsbD_shiftLeft, getLsbD_lowBits, decide_eq_true hi, Bool.true_and,
    Bool.eq_iff_iff, Bool.and_eq_true, Bool.and_eq_true, Bool.not_eq_true', decide_eq_true_iff,
    decide_eq_true_iff, decide_eq_true_iff, decide_eq_false_iff_not]
  omega

theorem and_mask_eq_iff {mask : BitVec 8} :
    (valid &&& mask == mask) = true ↔
      ∀ j < 8, mask.getLsbD j = true → valid.getLsbD j = true := by
  rw [beq_iff_eq]
  constructor
  · intro h j hj hmask
    have hbit : (valid &&& mask).getLsbD j = mask.getLsbD j := by rw [h]
    rw [BitVec.getLsbD_and, hmask, Bool.and_true] at hbit
    exact hbit
  · intro h
    refine BitVec.eq_of_getLsbD_eq fun j hj => ?_
    rw [BitVec.getLsbD_and]
    rcases hmask : mask.getLsbD j
    · rw [Bool.and_false]
    · rw [h j hj hmask, Bool.and_true]

end Bits

/-! ### Accesses -/

namespace Access

variable (a : Access)

/-- The position of an access in the memory of the host. -/
def place : ℕ := 8 - a.offset - a.size

theorem fits : a.offset + a.size ≤ 8 := by
  obtain ⟨k, hk⟩ := a.aligned
  have hlt := a.offset_lt
  rcases a.size_eq with h | h | h | h <;> rw [h] at hk ⊢ <;> omega

/-- Each size of an access, with the offsets that are aligned. -/
theorem cases : a.size = 1 ∨ (a.size = 2 ∧ 2 ∣ a.offset) ∨ (a.size = 4 ∧ 4 ∣ a.offset) ∨
    (a.size = 8 ∧ a.offset = 0) := by
  have hlt := a.offset_lt
  have haligned := a.aligned
  rcases a.size_eq with h | h | h | h
  · exact .inl h
  · exact .inr (.inl ⟨h, h ▸ haligned⟩)
  · exact .inr (.inr (.inl ⟨h, h ▸ haligned⟩))
  · rw [h] at haligned
    exact .inr (.inr (.inr ⟨h, by omega⟩))

end Access

namespace DoubleWord

variable (d : DoubleWord) (a : Access) (v : BitVec 64)

theorem overwrite_all {x : BitVec 64} : overwrite x 0 8 v = v := by
  refine BitVec.eq_of_getLsbD_eq fun i hi => ?_
  rw [getLsbD_overwrite hi, if_pos (by omega)]
  rfl

theorem part_all {x : BitVec 64} : part x 0 8 = x := by
  refine BitVec.eq_of_getLsbD_eq fun i hi => ?_
  rw [getLsbD_part hi, decide_eq_true (by omega : i < 8 * 8), Nat.mul_zero, Nat.zero_add,
    Bool.true_and]

/-- **`set`**, of all sizes. -/
theorem set_eq : d.set v a.size a.offset =
    some ⟨overwrite d.theDoubleWord a.place a.size v,
      d.theValidBits ||| (lowBits 8 a.size <<< a.place)⟩ := by
  rw [Access.place]
  rcases a.cases with h | ⟨h, hdvd⟩ | ⟨h, hdvd⟩ | ⟨h, hzero⟩
  · rw [h, set, Nat.sub_right_comm]
    rfl
  · have hplace : 2 * (3 - a.offset / 2) = 8 - a.offset - 2 := by
      have := a.offset_lt
      omega
    rw [h, set, hplace, Nat.sub_right_comm]
    rfl
  · have hplace : 4 * (1 - a.offset / 4) = 8 - a.offset - 4 := by
      have := a.offset_lt
      omega
    rw [h, set, hplace, Nat.sub_right_comm]
    rfl
  · have hall : d.theValidBits ||| (lowBits 8 8 <<< 0) = 0xFF := by
      refine BitVec.eq_of_getLsbD_eq fun i hi => ?_
      have hmask : (0xFF : BitVec 8).getLsbD i = true := by
        revert i
        decide
      rw [BitVec.getLsbD_or, getLsbD_validBits hi, hmask, decide_eq_true (by omega), Bool.or_true]
    rw [h, hzero, set, if_pos rfl, overwrite_all, hall]

/-- **`isValid`**, of all sizes. -/
theorem isValid_eq : d.isValid a.size a.offset =
    (d.theValidBits &&& (lowBits 8 a.size <<< a.place) == lowBits 8 a.size <<< a.place) := by
  rw [Access.place]
  rcases a.cases with h | ⟨h, -⟩ | ⟨h, -⟩ | ⟨h, hzero⟩
  · rw [h, isValid, Nat.sub_right_comm]
    rfl
  · rw [h, isValid, Nat.sub_right_comm]
    rfl
  · rw [h, isValid, Nat.sub_right_comm]
    rfl
  · rw [h, hzero, isValid]
    rfl

/-- **The value of a part**, of all sizes. -/
theorem get_eq : d.get a.size a.offset = some (part d.theDoubleWord a.place a.size) := by
  rw [Access.place]
  rcases a.cases with h | ⟨h, hdvd⟩ | ⟨h, hdvd⟩ | ⟨h, hzero⟩
  · rw [h, get, Nat.sub_right_comm]
  · have hplace : 2 * (3 - a.offset / 2) = 8 - a.offset - 2 := by
      have := a.offset_lt
      omega
    rw [h, get, hplace]
  · have hplace : 4 * (1 - a.offset / 4) = 8 - a.offset - 4 := by
      have := a.offset_lt
      omega
    rw [h, get, hplace]
  · rw [h, hzero, get, if_pos rfl, part_all]

/-! ### The map of a double word -/

variable {d a v}

theorem getLsbD_byte {x : BitVec 64} {k i : ℕ} (hi : i < 8) :
    ((x >>> k).setWidth 8).getLsbD i = x.getLsbD (k + i) := by
  rw [BitVec.getLsbD_setWidth, BitVec.getLsbD_ushiftRight, decide_eq_true hi, Bool.true_and]

theorem within_iff {o : Fin 8} :
    ByteMap.Within a o ↔ a.place ≤ 7 - o.val ∧ 7 - o.val < a.place + a.size := by
  have hfits := a.fits
  have ho := o.isLt
  rw [ByteMap.Within, Access.place]
  omega

/-- **`set` is what it is for a map**: the last writer of a byte wins. -/
theorem toMap_set : toMap ⟨overwrite d.theDoubleWord a.place a.size v,
    d.theValidBits ||| (lowBits 8 a.size <<< a.place)⟩ = d.toMap.set a v := by
  funext o
  have ho := o.isLt
  have hfits := a.fits
  have hplace : a.place = 8 - a.offset - a.size := rfl
  rw [toMap, ByteMap.set, BitVec.getLsbD_or, getLsbD_validBits (by omega)]
  by_cases hwithin : ByteMap.Within a o
  · have hin := within_iff.mp hwithin
    rw [decide_eq_true hin, Bool.or_true, if_pos rfl, if_pos hwithin, Option.some_inj]
    refine BitVec.eq_of_getLsbD_eq fun i hi => ?_
    rw [ByteMap.byteOf, getLsbD_byte hi, getLsbD_byte hi, getLsbD_overwrite (by omega),
      if_pos (by omega)]
    congr 1
    omega
  · have hout := mt within_iff.mpr hwithin
    rw [decide_eq_false hout, Bool.or_false, if_neg hwithin, toMap]
    congr 2
    refine BitVec.eq_of_getLsbD_eq fun i hi => ?_
    rw [getLsbD_byte hi, getLsbD_byte hi, getLsbD_overwrite (by omega), if_neg (by omega)]

theorem isSome_toMap (o : Fin 8) :
    (d.toMap o).isSome = true ↔ d.theValidBits.getLsbD (7 - o.val) = true := by
  rw [toMap]
  split
  · rename_i h
    exact iff_of_true rfl h
  · rename_i h
    exact iff_of_false Bool.false_ne_true h

/-- **`isValid`**: there are bytes at all positions. -/
theorem isValid_iff : d.isValid a.size a.offset = true ↔ d.toMap.Valid a := by
  rw [isValid_eq, and_mask_eq_iff]
  constructor
  · intro h o ho
    rw [isSome_toMap]
    refine h _ (by omega) ?_
    rw [getLsbD_validBits (by omega), decide_eq_true (within_iff.mp ho)]
  · intro h j hj hmask
    rw [getLsbD_validBits hj, decide_eq_true_iff] at hmask
    have hvalid := h ⟨7 - j, by omega⟩ (within_iff.mpr (by
      have hsub : 7 - (7 - j) = j := by omega
      rw [hsub]
      exact hmask))
    have hsub : 7 - (7 - j) = j := by omega
    rw [isSome_toMap, hsub] at hvalid
    exact hvalid

/-- **The value that is read** is that of the map, where it is valid. -/
theorem part_eq_iff (h : d.toMap.Valid a) {x : BitVec 64} :
    part d.theDoubleWord a.place a.size = x &&& lowBits 64 (8 * a.size) ↔ d.toMap.Holds a x := by
  have hfits := a.fits
  have hplace : a.place = 8 - a.offset - a.size := rfl
  have hbyte : ∀ o : Fin 8, ByteMap.Within a o →
      d.toMap o = some ((d.theDoubleWord >>> (8 * (7 - o.val))).setWidth 8) := by
    intro o ho
    have hsome := h o ho
    rw [toMap] at hsome ⊢
    split
    · rfl
    · rename_i hnone
      rw [if_neg hnone] at hsome
      exact absurd hsome Bool.false_ne_true
  constructor
  · intro heq o ho
    rw [hbyte o ho, Option.some_inj]
    refine BitVec.eq_of_getLsbD_eq fun i hi => ?_
    have hin := within_iff.mp ho
    -- The bit of the byte is a bit of the part.
    have hbit : (part d.theDoubleWord a.place a.size).getLsbD (8 * (7 - o.val - a.place) + i) =
        (x &&& lowBits 64 (8 * a.size)).getLsbD (8 * (7 - o.val - a.place) + i) := by rw [heq]
    rw [getLsbD_part (by omega), BitVec.getLsbD_and, getLsbD_lowBits, decide_eq_true (by omega),
      decide_eq_true (by omega), Bool.true_and, Bool.true_and, Bool.and_true] at hbit
    rw [ByteMap.byteOf, getLsbD_byte hi, getLsbD_byte hi]
    have hfrom : 8 * (7 - o.val) + i = 8 * a.place + (8 * (7 - o.val - a.place) + i) := by omega
    have hto : 8 * (a.offset + a.size - 1 - o.val) + i = 8 * (7 - o.val - a.place) + i := by omega
    rw [hfrom, hto]
    exact hbit
  · intro hholds
    refine BitVec.eq_of_getLsbD_eq fun i hi => ?_
    rw [getLsbD_part hi, BitVec.getLsbD_and, getLsbD_lowBits, decide_eq_true hi, Bool.true_and,
      Bool.and_comm]
    by_cases hlt : i < 8 * a.size
    · -- The bit of the part is a bit of one of the bytes.
      have ho : ByteMap.Within a ⟨7 - (a.place + i / 8), by omega⟩ := by
        rw [within_iff]
        simp only
        omega
      have hsome := hholds _ ho
      rw [hbyte _ ho, Option.some_inj] at hsome
      have hbit := congrArg (fun y : BitVec 8 => y.getLsbD (i % 8)) hsome
      rw [ByteMap.byteOf, getLsbD_byte (by omega), getLsbD_byte (by omega)] at hbit
      have hfrom : 8 * (7 - (7 - (a.place + i / 8))) + i % 8 = 8 * a.place + i := by omega
      have hto : 8 * (a.offset + a.size - 1 - (7 - (a.place + i / 8))) + i % 8 = i := by omega
      rw [hfrom, hto] at hbit
      rw [hbit]
    · rw [decide_eq_false hlt, Bool.and_false, Bool.and_false]

/-- **`isEqual`**: the bytes are there, and they are those of the value. -/
theorem isEqual_eq (x : BitVec 64) :
    d.isEqual x a.size a.offset = some (decide (d.toMap.Holds a x)) := by
  rw [isEqual]
  by_cases hvalid : d.toMap.Valid a
  · rw [if_pos (isValid_iff.mpr hvalid), get_eq, Option.map_some, Option.some_inj, Bool.eq_iff_iff,
      beq_iff_eq, decide_eq_true_iff, part_eq_iff hvalid]
  · rw [if_neg (mt isValid_iff.mp hvalid)]
    have hholds : ¬ d.toMap.Holds a x := fun h => hvalid fun o ho => by rw [h o ho]; rfl
    rw [decide_eq_false hholds]

/-! ### `apply` -/

/-- The byte that `apply` takes, at a place in the host. -/
def chosen (d aMask : DoubleWord) (i : ℕ) : BitVec 8 :=
  if aMask.theValidBits.getLsbD i then (aMask.theDoubleWord >>> (8 * i)).setWidth 8
  else (d.theDoubleWord >>> (8 * i)).setWidth 8

theorem test_valid {valid : BitVec 8} {i : ℕ} (hi : i < 8) :
    (valid &&& (1#8 <<< i) != 0) = valid.getLsbD i :=
  and_twoPow_ne_zero hi

theorem low_byte {x : BitVec 64} {k : ℕ} :
    (x >>> k) &&& 0xFF = ((x >>> k).setWidth 8).setWidth 64 := by
  refine BitVec.eq_of_getLsbD_eq fun i hi => ?_
  have hmask : (0xFF : BitVec 64).getLsbD i = (decide (i < 64) && decide (i < 8)) :=
    @getLsbD_lowBits 64 8 i
  rw [BitVec.getLsbD_and, hmask, BitVec.getLsbD_setWidth, BitVec.getLsbD_setWidth,
    decide_eq_true hi, Bool.true_and, Bool.true_and, Bool.and_comm]

theorem beq_low_byte {x y : BitVec 64} {k : ℕ} : ((x >>> k) &&& 0xFF == (y >>> k) &&& 0xFF) = true ↔
    (x >>> k).setWidth 8 = (y >>> k).setWidth 8 := by
  rw [beq_iff_eq, low_byte, low_byte]
  constructor
  · intro h
    refine BitVec.eq_of_getLsbD_eq fun i hi => ?_
    have hbit := congrArg (fun y : BitVec 64 => y.getLsbD i) h
    simpa only [BitVec.getLsbD_setWidth, (by omega : i < 64), decide_true, Bool.true_and]
      using hbit
  · intro h
    rw [h]

/-- **The loop of `apply`**: the bytes from the most significant one on, and the valid bits of both
double words. -/
theorem applyLoop_eq {aMask : DoubleWord} {n : ℕ} (hn : n ≤ 8) :
    (d.applyLoop aMask n).1 = Bytes.read (fun o => chosen d aMask (7 - o)) 0 n ∧
      ∀ i < 8, (d.applyLoop aMask n).2.getLsbD i =
        (d.theValidBits.getLsbD i || (aMask.theValidBits.getLsbD i && decide (8 - n ≤ i))) := by
  induction n with
  | zero =>
    refine ⟨rfl, fun i hi => ?_⟩
    rw [applyLoop, decide_eq_false (by omega), Bool.and_false, Bool.or_false]
  | succ n ih =>
    obtain ⟨hval, hvalid⟩ := ih (by omega)
    rw [applyLoop, Bytes.read, Nat.zero_add, chosen, test_valid (by omega)]
    by_cases hbit : aMask.theValidBits.getLsbD (7 - n) = true
    · rw [if_pos hbit, if_pos hbit]
      refine ⟨by rw [hval, low_byte], fun i hi => ?_⟩
      have hpow : 1#8 <<< (7 - n) = BitVec.twoPow 8 (7 - n) := rfl
      rw [BitVec.getLsbD_or, hvalid i hi, hpow, BitVec.getLsbD_twoPow]
      by_cases hi' : i = 7 - n
      · subst hi'
        rw [hbit, decide_eq_true (by omega : 7 - n < 8), decide_eq_true rfl,
          decide_eq_true (by omega : 8 - (n + 1) ≤ 7 - n)]
        simp
      · rw [decide_eq_false (Ne.symm hi'), Bool.and_false, Bool.or_false]
        congr 2
        rw [decide_eq_decide]
        omega
    · rw [if_neg hbit, if_neg hbit]
      refine ⟨by rw [hval, low_byte], fun i hi => ?_⟩
      rw [hvalid i hi]
      by_cases hi' : i = 7 - n
      · subst hi'
        rw [Bool.not_eq_true] at hbit
        rw [hbit, Bool.false_and, Bool.false_and]
      · congr 2
        rw [decide_eq_decide]
        omega

/-- **`apply`**: the bytes of the other double word win. -/
theorem toMap_apply (aMask : DoubleWord) :
    (d.apply aMask).toMap = d.toMap.override aMask.toMap := by
  funext o
  have ho := o.isLt
  rw [apply]
  by_cases hmask : aMask.theValidBits ≠ 0
  · obtain ⟨hval, hvalid⟩ := @applyLoop_eq d aMask 8 (Nat.le_refl 8)
    rw [if_pos hmask, hval, toMap, ByteMap.override, hvalid _ (by omega), Nat.sub_self,
      decide_eq_true (Nat.zero_le _), Bool.and_true]
    -- The byte of the new word is the one that has been chosen.
    have hbyte : (Bytes.read (fun o => chosen d aMask (7 - o)) 0 8 >>>
        (8 * (7 - o.val))).setWidth 8 = chosen d aMask (7 - o.val) := by
      refine BitVec.eq_of_getLsbD_eq fun i hi => ?_
      have hindex : 7 - (0 + (8 - 1 - (8 * (7 - o.val) + i) / 8)) = 7 - o.val := by omega
      have hrest : (8 * (7 - o.val) + i) % 8 = i := by omega
      rw [getLsbD_byte hi, Bytes.getLsbD_read (by omega), decide_eq_true (by omega), Bool.true_and,
        hindex, hrest]
    rw [hbyte, chosen, toMap, toMap]
    by_cases h : aMask.theValidBits.getLsbD (7 - o.val) = true
    · rw [if_pos h, if_pos h, h, Bool.or_true, if_pos rfl]
      rfl
    · rw [if_neg h, if_neg h]
      rw [Bool.not_eq_true] at h
      rw [h, Bool.or_false]
      rfl
  · have hnone : aMask.toMap o = none := by
      rw [not_not] at hmask
      have hnone : (0 : BitVec 8).getLsbD (7 - o.val) = false := BitVec.getLsbD_zero
      rw [toMap, hmask, hnone, if_neg Bool.false_ne_true]
    rw [if_neg hmask, ByteMap.override, hnone]
    rfl

/-- **The loop of `operator ==`** compares the bytes that are there. -/
theorem equalsFrom_iff (compare : BitVec 64) {n : ℕ} (hn : n ≤ 8) :
    d.equalsFrom compare n = true ↔ ∀ i < n, d.theValidBits.getLsbD i = true →
      (d.theDoubleWord >>> (8 * i)).setWidth 8 = (compare >>> (8 * i)).setWidth 8 := by
  induction n with
  | zero => exact iff_of_true rfl nofun
  | succ n ih =>
    rw [equalsFrom, test_valid (by omega)]
    constructor
    · intro h i hi hvalid
      rcases Nat.lt_succ_iff_lt_or_eq.mp hi with hlt | rfl
      · refine (ih (by omega)).mp ?_ i hlt hvalid
        split at h
        · exact (Bool.and_eq_true _ _ ▸ h).2
        · exact h
      · rw [if_pos hvalid, Bool.and_eq_true] at h
        exact beq_low_byte.mp h.1
    · intro h
      have hrest := (ih (by omega)).mpr fun i hi => h i (by omega)
      split
      · rename_i hvalid
        rw [Bool.and_eq_true]
        exact ⟨beq_low_byte.mpr (h n (by omega) hvalid), hrest⟩
      · exact hrest

/-- **`operator ==`**: the bytes that are there are those of the value. -/
theorem equals_iff (compare : BitVec 64) : d.equals compare = true ↔
    ∀ o b, d.toMap o = some b → b = (compare >>> (8 * (7 - o.val))).setWidth 8 := by
  rw [equals, equalsFrom_iff compare (Nat.le_refl 8)]
  constructor
  · intro h o b hb
    rw [toMap] at hb
    split at hb
    · rename_i hvalid
      cases hb
      exact h _ (by omega) hvalid
    · cases hb
  · intro h i hi hvalid
    have hsub : 7 - (7 - i) = i := by omega
    have hbyte := h ⟨7 - i, by omega⟩ ((d.theDoubleWord >>> (8 * i)).setWidth 8) (by
      rw [toMap]
      simp only
      rw [hsub, if_pos hvalid])
    simp only at hbyte
    rw [hsub] at hbyte
    exact hbyte

theorem toMap_empty : empty.toMap = fun _ => none := by
  funext o
  have hnone : (0 : BitVec 8).getLsbD (7 - o.val) = false := BitVec.getLsbD_zero
  rw [toMap, empty, hnone, if_neg Bool.false_ne_true]

theorem toMap_ofValue (x : BitVec 64) :
    (ofValue x).toMap = fun o => some ((x >>> (8 * (7 - o.val))).setWidth 8) := by
  have hall : ∀ i < 8, (0xFF : BitVec 8).getLsbD i = true := by decide
  funext o
  rw [toMap, ofValue, if_pos (hall _ (by omega))]

end DoubleWord

/-! ### Runs -/

/-- How a double word comes about. -/
inductive Origin
  | empty
  | ofValue (aULL : BitVec 64)
  | ofBase (aBase : BitVec 64) (anApplyVal : DoubleWord)

/-- The double word. -/
def Origin.toDoubleWord : Origin → DoubleWord
  | empty => .empty
  | ofValue aULL => .ofValue aULL
  | ofBase aBase anApplyVal => .ofBase aBase anApplyVal

/-- The map: it is empty, or all the bytes of a value are there, and those of another map win. -/
def Origin.toMap : Origin → ByteMap
  | empty => fun _ => none
  | ofValue aULL => fun o => some ((aULL >>> (8 * (7 - o.val))).setWidth 8)
  | ofBase aBase anApplyVal =>
    ByteMap.override (fun o => some ((aBase >>> (8 * (7 - o.val))).setWidth 8)) anApplyVal.toMap

theorem Origin.toMap_toDoubleWord (o : Origin) : o.toDoubleWord.toMap = o.toMap := by
  rcases o with _ | x | ⟨x, mask⟩
  · exact DoubleWord.toMap_empty
  · exact DoubleWord.toMap_ofValue x
  · rw [toDoubleWord, DoubleWord.ofBase, DoubleWord.toMap_apply, DoubleWord.toMap_ofValue]
    rfl

/-- The operations that change a double word. -/
inductive Change
  | set (aValue : BitVec 64) (a : Access)
  | apply (aMask : DoubleWord)

/-- One operation. -/
def Change.run (d : DoubleWord) : Change → Option DoubleWord
  | set aValue a => d.set aValue a.size a.offset
  | apply aMask => some (d.apply aMask)

/-- One operation, on the map. -/
def Change.runMap (m : ByteMap) : Change → ByteMap
  | set aValue a => m.set a aValue
  | apply aMask => m.override aMask.toMap

theorem Change.run_spec (d : DoubleWord) (c : Change) :
    ∃ d', c.run d = some d' ∧ d'.toMap = c.runMap d.toMap := by
  rcases c with ⟨v, a⟩ | mask
  · exact ⟨_, d.set_eq a v, DoubleWord.toMap_set⟩
  · exact ⟨_, rfl, DoubleWord.toMap_apply mask⟩

/-- **Double words are partial maps of bytes** in which the last writer of a byte wins: any sequence
of operations succeeds and comes to the double word of the map to which it comes; what is valid,
what is read, and what is equal, is what it is for the map. -/
theorem doubleWord_refines (o : Origin) (cs : List Change) :
    ∃ d, cs.foldlM Change.run o.toDoubleWord = some d ∧
      d.toMap = cs.foldl Change.runMap o.toMap ∧
      ∀ (a : Access) (v : BitVec 64),
        (d.isValid a.size a.offset = true ↔ d.toMap.Valid a) ∧
        (d.toMap.Valid a → ∃ x, d.get a.size a.offset = some x ∧ d.toMap.Holds a x ∧
          ∀ i, 8 * a.size ≤ i → x.getLsbD i = false) ∧
        d.isEqual v a.size a.offset = some (decide (d.toMap.Holds a v)) ∧
        (d.equals v = true ↔
          ∀ o b, d.toMap o = some b → b = (v >>> (8 * (7 - o.val))).setWidth 8) := by
  have hrun : ∀ (cs : List Change) (d : DoubleWord), ∃ d', cs.foldlM Change.run d = some d' ∧
      d'.toMap = cs.foldl Change.runMap d.toMap := by
    intro cs
    induction cs with
    | nil => exact fun d => ⟨d, rfl, rfl⟩
    | cons c cs ih =>
      intro d
      obtain ⟨d₁, hstep, hmap⟩ := c.run_spec d
      obtain ⟨d₂, hrest, hmap'⟩ := ih d₁
      refine ⟨d₂, ?_, ?_⟩
      · rw [List.foldlM_cons, hstep]
        exact hrest
      · rw [hmap', hmap, List.foldl_cons]
  obtain ⟨d, hd, hmap⟩ := hrun cs o.toDoubleWord
  rw [o.toMap_toDoubleWord] at hmap
  refine ⟨d, hd, hmap, fun a v => ⟨DoubleWord.isValid_iff, fun hvalid => ?_,
    DoubleWord.isEqual_eq v, DoubleWord.equals_iff v⟩⟩
  have hlow : part d.theDoubleWord a.place a.size =
      part d.theDoubleWord a.place a.size &&& lowBits 64 (8 * a.size) := by
    refine BitVec.eq_of_getLsbD_eq fun i hi => ?_
    rw [BitVec.getLsbD_and, getLsbD_part hi, getLsbD_lowBits, decide_eq_true hi, Bool.true_and,
      Bool.and_comm, Bool.and_assoc, Bool.and_self]
  refine ⟨_, d.get_eq a, (DoubleWord.part_eq_iff hvalid).mp hlow, fun i hi => ?_⟩
  rcases Nat.lt_or_ge i 64 with h64 | h64
  · rw [getLsbD_part h64, decide_eq_false (Nat.not_lt.mpr hi), Bool.false_and]
  · exact BitVec.getLsbD_of_ge _ i h64

end Common

end Flexus
