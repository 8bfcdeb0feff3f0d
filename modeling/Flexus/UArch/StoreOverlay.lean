import Flexus.UArch.Forwarding

/-!
# Bytes of a store in a load

A load that finds an older store takes its value from it (`forwardValue`) if the store writes all
of its bytes. Otherwise it waits for memory, and the bytes of the store are pasted over what
memory has for it (`overlay`, `components/uArch/CoreModel/memforward.cpp`). A value is stored and
loaded with the most significant byte at the least address, or the other way round if its entry is
marked `theInverseEndian`.

What a load should see is defined here by a memory of the eight bytes of its double-word: the store
writes its bytes to it, and the load reads its own. The load sees that if it is not inverse-endian,
or as large as the store (`Flexus.UArch.MemQueueEntry.applied_iff`). An inverse-endian load of
another size takes its bytes from the wrong end of the store: the source flips the whole store, or
nothing, and not the bytes of the load.
-/

namespace Flexus

namespace UArch

open Lib

/-! ### `endianFlip`, bit by bit -/

theorem getLsbD_byteMask {c i : ℕ} (hi : i < 64) :
    (0xFF#64 <<< (8 * c)).getLsbD i = (decide (8 * c ≤ i) && decide (i < 8 * c + 8)) := by
  have h255 : (0xFF : ℕ) = 2 ^ 8 - 1 := rfl
  rw [BitVec.getLsbD_shiftLeft, BitVec.getLsbD_ofNat, h255, Nat.testBit_two_pow_sub_one]
  by_cases h : 8 * c ≤ i
  · have h1 : ¬ i < 8 * c := by omega
    have h2 : i - 8 * c < 64 := by omega
    have h3 : i - 8 * c < 8 ↔ i < 8 * c + 8 := by omega
    simp [hi, h, h1, h2, h3]
  · have h1 : i < 8 * c := by omega
    simp [h, h1]

theorem getLsbD_byteUp {v : BitVec 64} {c k i : ℕ} (hi : i < 64) :
    ((v &&& 0xFF#64 <<< (8 * c)) <<< k).getLsbD i =
      (decide (8 * c + k ≤ i) && decide (i < 8 * c + 8 + k) && v.getLsbD (i - k)) := by
  rw [BitVec.getLsbD_shiftLeft, BitVec.getLsbD_and]
  by_cases h : k ≤ i
  · rw [getLsbD_byteMask (by omega)]
    have h1 : ¬ i < k := by omega
    have h2 : 8 * c ≤ i - k ↔ 8 * c + k ≤ i := by omega
    have h3 : i - k < 8 * c + 8 ↔ i < 8 * c + 8 + k := by omega
    simp only [h1, h2, h3, hi, decide_true, decide_false, Bool.not_false, Bool.true_and]
    rw [Bool.and_comm]
  · have h1 : i < k := by omega
    have h2 : ¬ 8 * c + k ≤ i := by omega
    simp [h1, h2]

theorem getLsbD_byteDown {v : BitVec 64} {c k i : ℕ} (hc : c < 8) :
    ((v &&& 0xFF#64 <<< (8 * c)) >>> k).getLsbD i =
      (decide (8 * c ≤ i + k) && decide (i + k < 8 * c + 8) && v.getLsbD (i + k)) := by
  rw [BitVec.getLsbD_ushiftRight, BitVec.getLsbD_and, Nat.add_comm k i]
  by_cases h : i + k < 64
  · rw [getLsbD_byteMask h, Bool.and_comm]
  · have h2 : ¬ i + k < 8 * c + 8 := by omega
    rw [BitVec.getLsbD_of_ge v _ (by omega)]
    simp

theorem endianFlip_halfWord (v : BitVec 64) : endianFlip v .halfWord =
    (v &&& 0xFF#64 <<< (8 * 1)) >>> 8 ||| (v &&& 0xFF#64 <<< (8 * 0)) <<< 8 := rfl

theorem endianFlip_word (v : BitVec 64) : endianFlip v .word =
    (v &&& 0xFF#64 <<< (8 * 3)) >>> 24 ||| (v &&& 0xFF#64 <<< (8 * 2)) >>> 8 |||
      (v &&& 0xFF#64 <<< (8 * 1)) <<< 8 ||| (v &&& 0xFF#64 <<< (8 * 0)) <<< 24 := rfl

theorem endianFlip_doubleWord (v : BitVec 64) : endianFlip v .doubleWord =
    (v &&& 0xFF#64 <<< (8 * 7)) >>> 56 ||| (v &&& 0xFF#64 <<< (8 * 6)) >>> 40 |||
      (v &&& 0xFF#64 <<< (8 * 5)) >>> 24 ||| (v &&& 0xFF#64 <<< (8 * 4)) >>> 8 |||
      (v &&& 0xFF#64 <<< (8 * 0)) <<< 56 ||| (v &&& 0xFF#64 <<< (8 * 1)) <<< 40 |||
      (v &&& 0xFF#64 <<< (8 * 2)) <<< 24 ||| (v &&& 0xFF#64 <<< (8 * 3)) <<< 8 := rfl

/-- **`endianFlip` turns the bytes of a value around.** -/
theorem getLsbD_endianFlip {v : BitVec 64} {i : ℕ} (s : Size) (hi : i < 8 * s.toNat) :
    (endianFlip v s).getLsbD i = v.getLsbD (8 * (s.toNat - 1 - i / 8) + i % 8) := by
  have hdiv : i = 8 * (i / 8) + i % 8 := by omega
  have hmod : i % 8 < 8 := by omega
  generalize i / 8 = b at hdiv ⊢
  generalize i % 8 = r at hdiv hmod ⊢
  subst hdiv
  cases s with
  | byte =>
    have hb : b = 0 := by simp only [Size.toNat] at hi; omega
    subst hb
    simp [endianFlip, Size.toNat]
  | halfWord =>
    simp only [Size.toNat] at hi ⊢
    have hlt : 8 * b + r < 64 := by omega
    have hb : b = 0 ∨ b = 1 := by omega
    rcases hb with rfl | rfl <;>
      simp (disch := omega) only [endianFlip_halfWord, BitVec.getLsbD_or, getLsbD_byteUp,
        getLsbD_byteDown, decide_eq_true, decide_eq_false, Bool.true_and, Bool.false_and,
        Bool.and_false, Bool.or_false, Bool.false_or] <;>
      exact congrArg v.getLsbD (by omega)
  | word =>
    simp only [Size.toNat] at hi ⊢
    have hlt : 8 * b + r < 64 := by omega
    have hb : b = 0 ∨ b = 1 ∨ b = 2 ∨ b = 3 := by omega
    rcases hb with rfl | rfl | rfl | rfl <;>
      simp (disch := omega) only [endianFlip_word, BitVec.getLsbD_or, getLsbD_byteUp,
        getLsbD_byteDown, decide_eq_true, decide_eq_false, Bool.true_and, Bool.false_and,
        Bool.and_false, Bool.or_false, Bool.false_or] <;>
      exact congrArg v.getLsbD (by omega)
  | doubleWord =>
    simp only [Size.toNat] at hi ⊢
    have hlt : 8 * b + r < 64 := by omega
    have hb : b = 0 ∨ b = 1 ∨ b = 2 ∨ b = 3 ∨ b = 4 ∨ b = 5 ∨ b = 6 ∨ b = 7 := by omega
    rcases hb with rfl | rfl | rfl | rfl | rfl | rfl | rfl | rfl <;>
      simp (disch := omega) only [endianFlip_doubleWord, BitVec.getLsbD_or, getLsbD_byteUp,
        getLsbD_byteDown, decide_eq_true, decide_eq_false, Bool.true_and, Bool.false_and,
        Bool.and_false, Bool.or_false, Bool.false_or] <;>
      exact congrArg v.getLsbD (by omega)

namespace MemQueueEntry

/-! ### Overlays -/

/-- The assertions of `overlay`, and an iterator that is read behind the end of the queue. -/
inductive OverlayFault
  /-- `DBG_Assert( anEntry.theValue )`. -/
  | noValue
  /-- `DBG_Assert( anEntry.loadValue())`. -/
  | noLoadValue
  /-- `*it`, behind the last entry. -/
  | pastEnd
  deriving DecidableEq

/-- The value of a store in the order of a load. -/
def inOrderOf (aStore aLoad : MemQueueEntry) (v : BitVec 64) : BitVec 64 :=
  if aStore.theInverseEndian != aLoad.theInverseEndian then endianFlip v aStore.theSize else v

/-- **The value that `overlay` writes**: the bytes of a store over those of a load. -/
def overlaid (aStore aLoad : MemQueueEntry) (v w : BitVec 64) : BitVec 64 :=
  let available := aStore.makeMask
  let storeAligned := aStore.align v (aStore.theInverseEndian != aLoad.theInverseEndian)
  let loadAligned := w <<< (aLoad.offset * 8)
  aLoad.unalign (loadAligned &&& ~~~available ||| storeAligned &&& available)

/-- **`overlay`**: both values must be there. The value goes to the load, or to its second half. -/
def overlay (aStore aLoad : MemQueueEntry) (useExt : Bool) :
    Except OverlayFault MemQueueEntry :=
  match aStore.theValue with
  | none => .error .noValue
  | some v =>
    match aLoad.loadValue with
    | none => .error .noLoadValue
    | some w =>
      let x := some (aStore.overlaid aLoad v w)
      .ok (if useExt then { aLoad with theExtendedValue := x } else aLoad.setLoadValue x)

/-- A store writes all bytes of a load, which is not the load of a quad-word. -/
def forwards (aStore aLoad : MemQueueEntry) : Bool :=
  covers aStore aLoad && aLoad.theASI != 0x24 && aLoad.theASI != 0x2C

/-- **The bytes of a store come to a load**: it forwards them, or they are pasted over the value
that the load has from memory. -/
def applied (aStore aLoad : MemQueueEntry) : Except OverlayFault MemQueueEntry :=
  if aStore.forwards aLoad then .ok (aStore.forwardValue aLoad) else aStore.overlay aLoad false

/-! ### What a load should see -/

/-- The place of an access in its double-word. -/
def place (e : MemQueueEntry) : ℕ := (e.thePaddr - e.thePaddrAligned).toNat

/-- An access is naturally aligned. -/
def NaturallyAligned (e : MemQueueEntry) : Prop := e.thePaddr.toNat % e.theSize.toNat = 0

/-- **The bytes of a double-word after a store.** -/
def writeBytes (e : MemQueueEntry) (m : Bytes.Memory) (v : BitVec 64) : Bytes.Memory :=
  if e.theInverseEndian then Bytes.writeLittle m e.place e.theSize.toNat v
  else Bytes.write m e.place e.theSize.toNat v

/-- **What a load reads from the bytes of a double-word.** -/
def readBytes (e : MemQueueEntry) (m : Bytes.Memory) : BitVec 64 :=
  if e.theInverseEndian then Bytes.readLittle m e.place e.theSize.toNat
  else Bytes.read m e.place e.theSize.toNat

/-! ### Places -/

variable {e st ld : MemQueueEntry} {v w x : BitVec 64} {m : Bytes.Memory} {i : ℕ}

/-- The place in a double-word is the rest of the address by eight. -/
theorem sub_and_toNat (a : BitVec 64) : (a - (a &&& 0xFFFFFFFFFFFFFFF8)).toNat = a.toNat % 8 := by
  have hsplit : a = (a &&& 7) + (a &&& 0xFFFFFFFFFFFFFFF8) := by
    have hdisjoint : (a &&& 7) &&& (a &&& 0xFFFFFFFFFFFFFFF8) = 0 := by
      have hnone : (7 : BitVec 64) &&& 0xFFFFFFFFFFFFFFF8 = 0 := by decide
      calc (a &&& 7) &&& (a &&& 0xFFFFFFFFFFFFFFF8)
          = a &&& a &&& (7 &&& 0xFFFFFFFFFFFFFFF8) := by ac_rfl
        _ = a &&& a &&& 0#64 := by rw [hnone]; rfl
        _ = 0 := BitVec.and_zero
    rw [BitVec.add_eq_or_of_and_eq_zero _ _ hdisjoint, ← BitVec.and_or_distrib_left]
    have hall : (7 : BitVec 64) ||| 0xFFFFFFFFFFFFFFF8 = BitVec.allOnes 64 := by decide
    rw [hall, BitVec.and_allOnes]
  have hseven : (7 : ℕ) = 2 ^ 3 - 1 := rfl
  have hrest : a - (a &&& 0xFFFFFFFFFFFFFFF8) = a &&& 7 := by
    have := congrArg (· - (a &&& 0xFFFFFFFFFFFFFFF8)) hsplit
    simpa only [BitVec.add_sub_cancel] using this
  rw [hrest, BitVec.toNat_and]
  show a.toNat &&& 7 = _
  rw [hseven, Nat.and_two_pow_sub_one_eq_mod]

theorem place_cases (e : MemQueueEntry) :
    (e.thePaddr = kUnresolved ∧ e.place = 0) ∨ e.place = e.thePaddr.toNat % 8 := by
  by_cases h : e.thePaddr = kUnresolved
  · refine .inl ⟨h, ?_⟩
    rw [place, thePaddrAligned, if_pos h, h]
    rfl
  · refine .inr ?_
    rw [place, thePaddrAligned, if_neg h]
    exact sub_and_toNat _

/-- **A naturally aligned access** lies at a multiple of its size in its double-word, and does not
cross its end. -/
theorem NaturallyAligned.place_bounds (h : e.NaturallyAligned) :
    e.place % e.theSize.toNat = 0 ∧ e.place + e.theSize.toNat ≤ 8 := by
  rw [NaturallyAligned] at h
  have hp : e.place = 0 ∨ e.place = e.thePaddr.toNat % 8 := e.place_cases.imp_left And.right
  cases hs : e.theSize <;> rw [hs] at h <;> simp only [Size.toNat] at h ⊢ <;> omega

theorem offset_eq (e : MemQueueEntry) : e.offset = 8 - e.theSize.toNat - e.place := rfl

theorem size_pos (s : Size) : 0 < s.toNat := by
  cases s <;> decide

/-! ### Masks -/

theorem getLsbD_makeMask (hi : i < 64) : e.makeMask.getLsbD i =
    (decide (8 * e.offset ≤ i) && decide (i < 8 * e.offset + 8 * e.theSize.toNat)) := by
  rw [makeMask, BitVec.getLsbD_shiftLeft, Nat.mul_comm]
  by_cases h : 8 * e.offset ≤ i
  · have h1 : ¬ i < 8 * e.offset := by omega
    have h2 : i - 8 * e.offset < 8 * e.theSize.toNat ↔
      i < 8 * e.offset + 8 * e.theSize.toNat := by omega
    rw [UArch.getLsbD_mask e.theSize (by omega)]
    simp [hi, h, h1, h2]
  · have h1 : i < 8 * e.offset := by omega
    simp [h, h1]

/-- **A store covers a load** whose bytes lie between its own. -/
theorem covers_iff_le (hs : st.offset + st.theSize.toNat ≤ 8) (hl : ld.offset + ld.theSize.toNat ≤ 8) :
    covers st ld = true ↔ st.offset ≤ ld.offset ∧
      ld.offset + ld.theSize.toNat ≤ st.offset + st.theSize.toNat := by
  have hpos := size_pos ld.theSize
  rw [covers, beq_iff_eq]
  constructor
  · intro h
    have hbit : ∀ i < 64, 8 * ld.offset ≤ i → i < 8 * ld.offset + 8 * ld.theSize.toNat →
        8 * st.offset ≤ i ∧ i < 8 * st.offset + 8 * st.theSize.toNat := by
      intro i hi h1 h2
      have := congrArg (fun x => x.getLsbD i) h
      simp only [BitVec.getLsbD_and, getLsbD_makeMask hi, h1, h2, decide_true, Bool.and_self,
        Bool.true_and, Bool.and_eq_true, decide_eq_true_eq] at this
      exact this
    have hfirst := hbit (8 * ld.offset) (by omega) (by omega) (by omega)
    have hlast := hbit (8 * ld.offset + 8 * ld.theSize.toNat - 1) (by omega) (by omega) (by omega)
    omega
  · rintro ⟨h1, h2⟩
    refine BitVec.eq_of_getLsbD_eq fun i hi => ?_
    rw [BitVec.getLsbD_and, getLsbD_makeMask hi, getLsbD_makeMask hi]
    by_cases hin : 8 * ld.offset ≤ i ∧ i < 8 * ld.offset + 8 * ld.theSize.toNat
    · have h3 : 8 * st.offset ≤ i := by omega
      have h4 : i < 8 * st.offset + 8 * st.theSize.toNat := by omega
      simp [h3, h4]
    · rw [not_and_or] at hin
      rcases hin with h | h <;> simp [h]

/-- **A store intersects a load** that has a byte in common with it. -/
theorem intersects_iff (hs : st.offset + st.theSize.toNat ≤ 8) :
    intersects st ld = true ↔ st.offset < ld.offset + ld.theSize.toNat ∧
      ld.offset < st.offset + st.theSize.toNat := by
  rw [intersects, bne_iff_ne]
  constructor
  · intro h
    by_contra hapart
    refine h (BitVec.eq_of_getLsbD_eq fun i hi => ?_)
    show _ = (0#64).getLsbD i
    rw [BitVec.getLsbD_and, getLsbD_makeMask hi, getLsbD_makeMask hi, BitVec.getLsbD_zero]
    by_cases hin : 8 * ld.offset ≤ i ∧ i < 8 * ld.offset + 8 * ld.theSize.toNat
    · have hout : ¬ (8 * st.offset ≤ i ∧ i < 8 * st.offset + 8 * st.theSize.toNat) := by omega
      rw [not_and_or] at hout
      rcases hout with h | h <;> simp [h]
    · rw [not_and_or] at hin
      rcases hin with h | h <;> simp [h]
  · rintro ⟨h1, h2⟩ h
    have hpos := size_pos ld.theSize
    have hpos' := size_pos st.theSize
    have hbit : (ld.makeMask &&& st.makeMask).getLsbD (8 * max st.offset ld.offset) =
        (0#64).getLsbD (8 * max st.offset ld.offset) := by rw [h]; rfl
    rw [BitVec.getLsbD_and, BitVec.getLsbD_zero, getLsbD_makeMask (by omega),
      getLsbD_makeMask (by omega)] at hbit
    simp (disch := omega) only [decide_eq_true] at hbit
    exact absurd hbit (by decide)

/-- **The bits of the value of a load**, out of those of its double-word. -/
theorem getLsbD_unalign (hl : e.offset + e.theSize.toNat ≤ 8) (i : ℕ) :
    (e.unalign x).getLsbD i =
      (decide (i < 8 * e.theSize.toNat) && x.getLsbD (8 * e.offset + i)) := by
  rw [unalign, BitVec.getLsbD_ushiftRight, BitVec.getLsbD_and, Nat.mul_comm e.offset]
  by_cases hi : i < 8 * e.theSize.toNat
  · rw [getLsbD_makeMask (by omega)]
    have h1 : 8 * e.offset ≤ 8 * e.offset + i := by omega
    have h2 : 8 * e.offset + i < 8 * e.offset + 8 * e.theSize.toNat := by omega
    simp [hi, h1, h2]
  · by_cases h64 : 8 * e.offset + i < 64
    · rw [getLsbD_makeMask h64]
      have h2 : ¬ 8 * e.offset + i < 8 * e.offset + 8 * e.theSize.toNat := by omega
      simp [hi, h2]
    · rw [BitVec.getLsbD_of_ge x _ (by omega)]
      simp [hi]

/-- **The bits of a value in its double-word.** -/
theorem getLsbD_align (flip : Bool) (hi : i < 64) : (e.align v flip).getLsbD i =
    (decide (8 * e.offset ≤ i) &&
      (if flip then endianFlip v e.theSize else v).getLsbD (i - 8 * e.offset)) := by
  rw [align, BitVec.getLsbD_shiftLeft, Nat.mul_comm e.offset]
  by_cases h : 8 * e.offset ≤ i
  · have h1 : ¬ i < 8 * e.offset := by omega
    simp [hi, h, h1]
  · have h1 : i < 8 * e.offset := by omega
    simp [h, h1]

/-- **The bits of an overlay.** -/
theorem getLsbD_overlaid (hl : ld.offset + ld.theSize.toNat ≤ 8) (i : ℕ) :
    (st.overlaid ld v w).getLsbD i = (decide (i < 8 * ld.theSize.toNat) &&
      if 8 * st.offset ≤ 8 * ld.offset + i ∧
          8 * ld.offset + i < 8 * st.offset + 8 * st.theSize.toNat then
        (st.inOrderOf ld v).getLsbD (8 * ld.offset + i - 8 * st.offset) else w.getLsbD i) := by
  rw [overlaid, getLsbD_unalign hl]
  by_cases hi : i < 8 * ld.theSize.toNat
  · have h64 : 8 * ld.offset + i < 64 := by omega
    have h1 : ¬ 8 * ld.offset + i < 8 * ld.offset := by omega
    have h2 : 8 * ld.offset + i - 8 * ld.offset = i := by omega
    rw [BitVec.getLsbD_or, BitVec.getLsbD_and, BitVec.getLsbD_and, BitVec.getLsbD_not,
      getLsbD_makeMask h64, getLsbD_align _ h64, BitVec.getLsbD_shiftLeft, Nat.mul_comm ld.offset,
      h2]
    by_cases hin : 8 * st.offset ≤ 8 * ld.offset + i ∧
        8 * ld.offset + i < 8 * st.offset + 8 * st.theSize.toNat
    · simp [hin, h64, inOrderOf]
    · rw [if_neg hin]
      rw [not_and_or] at hin
      rcases hin with h | h <;> simp [h, h64, h1]
  · simp [hi]

/-! ### The bytes a load reads -/

theorem getLsbD_writeBytes {k x : ℕ} (hk : k < 8) : (st.writeBytes m v x).getLsbD k =
    if st.place ≤ x ∧ x < st.place + st.theSize.toNat then
      v.getLsbD (8 * (if st.theInverseEndian then x - st.place
        else st.theSize.toNat - 1 - (x - st.place)) + k)
    else (m x).getLsbD k := by
  rw [writeBytes]
  split
  · exact Bytes.getLsbD_writeLittle hk
  · exact Bytes.getLsbD_write hk

/-- The byte of a double-word in which a bit of a load lies. -/
def byteOf (e : MemQueueEntry) (i : ℕ) : ℕ :=
  e.place + if e.theInverseEndian then i / 8 else e.theSize.toNat - 1 - i / 8

theorem getLsbD_readBytes (hi : i < 64) : (e.readBytes m).getLsbD i =
    (decide (i < 8 * e.theSize.toNat) && (m (e.byteOf i)).getLsbD (i % 8)) := by
  rw [readBytes, byteOf]
  split
  · exact Bytes.getLsbD_readLittle hi
  · exact Bytes.getLsbD_read hi

theorem toNat_le_eight (s : Size) : s.toNat ≤ 8 := by
  cases s <;> decide

/-- **What a load reads after a store**: the bytes of the store, in the order of the load, where it
has written, and what was there elsewhere. The bits are counted from the end of the double-word, or
from its start if the load is inverse-endian. -/
theorem getLsbD_readBytes_writeBytes (hs : st.NaturallyAligned) (hl : ld.NaturallyAligned)
    (hi : i < 8 * ld.theSize.toNat) : (ld.readBytes (st.writeBytes m v)).getLsbD i =
    let p := if ld.theInverseEndian then st.place else st.offset
    let q := if ld.theInverseEndian then ld.place else ld.offset
    if 8 * p ≤ 8 * q + i ∧ 8 * q + i < 8 * p + 8 * st.theSize.toNat then
      (st.inOrderOf ld v).getLsbD (8 * q + i - 8 * p)
    else (ld.readBytes m).getLsbD i := by
  obtain ⟨-, hs⟩ := hs.place_bounds
  obtain ⟨-, hl⟩ := hl.place_bounds
  have h8 := toNat_le_eight ld.theSize
  have hos := st.offset_eq
  have hol := ld.offset_eq
  rw [getLsbD_readBytes (by omega), getLsbD_readBytes (by omega), getLsbD_writeBytes (by omega),
    decide_eq_true hi, Bool.true_and, Bool.true_and, byteOf]
  cases hld : ld.theInverseEndian with
  | true =>
    simp only [if_true]
    have hiff : (st.place ≤ ld.place + i / 8 ∧ ld.place + i / 8 < st.place + st.theSize.toNat) ↔
        8 * st.place ≤ 8 * ld.place + i ∧
          8 * ld.place + i < 8 * st.place + 8 * st.theSize.toNat := by omega
    by_cases hin : 8 * st.place ≤ 8 * ld.place + i ∧
        8 * ld.place + i < 8 * st.place + 8 * st.theSize.toNat
    · rw [if_pos (hiff.mpr hin), if_pos hin, inOrderOf, hld]
      cases hst : st.theInverseEndian with
      | true =>
        simp only [bne_self_eq_false, Bool.false_eq_true, if_false, if_true]
        exact congrArg v.getLsbD (by omega)
      | false =>
        simp only [Bool.false_bne, Bool.false_eq_true, if_false, if_true]
        rw [getLsbD_endianFlip _ (by omega)]
        exact congrArg v.getLsbD (by omega)
    · rw [if_neg (hiff.not.mpr hin), if_neg hin]
  | false =>
    simp only [Bool.false_eq_true, if_false]
    have hiff : (st.place ≤ ld.place + (ld.theSize.toNat - 1 - i / 8) ∧
          ld.place + (ld.theSize.toNat - 1 - i / 8) < st.place + st.theSize.toNat) ↔
        8 * st.offset ≤ 8 * ld.offset + i ∧
          8 * ld.offset + i < 8 * st.offset + 8 * st.theSize.toNat := by omega
    by_cases hin : 8 * st.offset ≤ 8 * ld.offset + i ∧
        8 * ld.offset + i < 8 * st.offset + 8 * st.theSize.toNat
    · rw [if_pos (hiff.mpr hin), if_pos hin, inOrderOf, hld]
      cases hst : st.theInverseEndian with
      | true =>
        simp only [Bool.bne_false, if_true]
        rw [getLsbD_endianFlip _ (by omega)]
        exact congrArg v.getLsbD (by omega)
      | false =>
        simp only [bne_self_eq_false, Bool.false_eq_true, if_false]
        exact congrArg v.getLsbD (by omega)
    · rw [if_neg (hiff.not.mpr hin), if_neg hin]

/-- Words that are read by one load agree if their bits of the load do. -/
theorem eq_readBytes_iff (hx : ∀ i, 8 * ld.theSize.toNat ≤ i → x.getLsbD i = false) :
    x = ld.readBytes m ↔
      ∀ i < 8 * ld.theSize.toNat, x.getLsbD i = (ld.readBytes m).getLsbD i := by
  constructor
  · rintro rfl i -
    rfl
  · intro h
    refine BitVec.eq_of_getLsbD_eq fun i hi => ?_
    by_cases hlt : i < 8 * ld.theSize.toNat
    · exact h i hlt
    · rw [hx i (Nat.not_lt.mp hlt), getLsbD_readBytes hi, decide_eq_false hlt, Bool.false_and]

/-! ### Where the values agree -/

/-- The bytes of a word from a place on, counted from the least significant one. -/
def bytesAt (s : Size) (x : BitVec 64) (k : ℕ) : BitVec 64 := (x >>> (8 * k)) &&& s.mask

theorem bytesAt_eq_iff {s : Size} {x y : BitVec 64} {k l : ℕ} : bytesAt s x k = bytesAt s y l ↔
    ∀ j < 8 * s.toNat, x.getLsbD (8 * k + j) = y.getLsbD (8 * l + j) := by
  have h8 := toNat_le_eight s
  have hbit : ∀ (z : BitVec 64) (n : ℕ), ∀ j < 64, (bytesAt s z n).getLsbD j =
      (z.getLsbD (8 * n + j) && decide (j < 8 * s.toNat)) := by
    intro z n j hj
    rw [bytesAt, BitVec.getLsbD_and, BitVec.getLsbD_ushiftRight, UArch.getLsbD_mask s hj]
  constructor
  · intro h j hj
    have := congrArg (fun z => z.getLsbD j) h
    simpa only [hbit _ _ j (by omega), hj, decide_true, Bool.and_true] using this
  · intro h
    refine BitVec.eq_of_getLsbD_eq fun j hj => ?_
    rw [hbit _ _ j hj, hbit _ _ j hj]
    by_cases hlt : j < 8 * s.toNat
    · rw [h j hlt]
    · rw [decide_eq_false hlt, Bool.and_false, Bool.and_false]

/-- **Bytes are the same at both ends**: as far from the end of the larger access as they should
be from its start. If the store is larger, these are bytes of the store. If the load is, both
places hold what the store writes to one of them. -/
def SameAtBothEnds (st ld : MemQueueEntry) (v w : BitVec 64) : Prop :=
  let x := st.inOrderOf ld v
  if ld.theSize.toNat < st.theSize.toNat then
    bytesAt ld.theSize x (ld.offset - st.offset) = bytesAt ld.theSize x (ld.place - st.place)
  else
    bytesAt st.theSize w (st.offset - ld.offset) = bytesAt st.theSize x 0 ∧
      bytesAt st.theSize w (st.place - ld.place) = bytesAt st.theSize x 0

/-- **Naturally aligned accesses with a common byte** are nested. -/
theorem nested (hs : st.NaturallyAligned) (hl : ld.NaturallyAligned)
    (hi : st.intersects ld = true) :
    (ld.theSize.toNat < st.theSize.toNat → st.place ≤ ld.place ∧
      ld.place + ld.theSize.toNat ≤ st.place + st.theSize.toNat) ∧
    (st.theSize.toNat < ld.theSize.toNat → ld.place ≤ st.place ∧
      st.place + st.theSize.toNat ≤ ld.place + ld.theSize.toNat ∧
      (st.place - ld.place + st.theSize.toNat ≤ st.offset - ld.offset ∨
        st.offset - ld.offset + st.theSize.toNat ≤ st.place - ld.place)) ∧
    (st.theSize.toNat = ld.theSize.toNat → st.place = ld.place) := by
  obtain ⟨hs0, hs8⟩ := hs.place_bounds
  obtain ⟨hl0, hl8⟩ := hl.place_bounds
  have hos := st.offset_eq
  have hol := ld.offset_eq
  obtain ⟨h1, h2⟩ := (intersects_iff (by omega)).mp hi
  cases hst : st.theSize <;> cases hld : ld.theSize <;>
    simp only [hst, hld, Size.toNat] at hs0 hs8 hl0 hl8 hos hol h1 h2 ⊢ <;> omega

/-- **An overlay is what the load should see**, unless the load is inverse-endian and of another
size. -/
theorem overlaid_eq_iff (hs : st.NaturallyAligned) (hl : ld.NaturallyAligned)
    (hi : st.intersects ld = true) :
    st.overlaid ld v (ld.readBytes m) = ld.readBytes (st.writeBytes m v) ↔
      (ld.theInverseEndian = true → ld.theSize ≠ st.theSize →
        SameAtBothEnds st ld v (ld.readBytes m)) := by
  obtain ⟨-, hs8⟩ := hs.place_bounds
  obtain ⟨-, hl8⟩ := hl.place_bounds
  have hos := st.offset_eq
  have hol := ld.offset_eq
  have hwithin : ld.offset + ld.theSize.toNat ≤ 8 := by omega
  obtain ⟨hlarge, hsmall, hsame⟩ := nested hs hl hi
  rw [eq_readBytes_iff fun i hi => by
    rw [getLsbD_overlaid hwithin, decide_eq_false (Nat.not_lt.mpr hi), Bool.false_and]]
  have hbits : (∀ i < 8 * ld.theSize.toNat, (st.overlaid ld v (ld.readBytes m)).getLsbD i =
      (ld.readBytes (st.writeBytes m v)).getLsbD i) ↔ ∀ i < 8 * ld.theSize.toNat,
      (if 8 * st.offset ≤ 8 * ld.offset + i ∧
          8 * ld.offset + i < 8 * st.offset + 8 * st.theSize.toNat then
        (st.inOrderOf ld v).getLsbD (8 * ld.offset + i - 8 * st.offset)
        else (ld.readBytes m).getLsbD i) =
      let p := if ld.theInverseEndian then st.place else st.offset
      let q := if ld.theInverseEndian then ld.place else ld.offset
      if 8 * p ≤ 8 * q + i ∧ 8 * q + i < 8 * p + 8 * st.theSize.toNat then
        (st.inOrderOf ld v).getLsbD (8 * q + i - 8 * p)
      else (ld.readBytes m).getLsbD i :=
    forall₂_congr fun i hi => by
      rw [getLsbD_overlaid hwithin, decide_eq_true hi, Bool.true_and,
        getLsbD_readBytes_writeBytes hs hl hi]
  rw [hbits]
  simp only [SameAtBothEnds, bytesAt_eq_iff]
  generalize st.inOrderOf ld v = x
  generalize ld.readBytes m = w
  cases hinv : ld.theInverseEndian with
  | false => simp
  | true =>
    simp only [if_true, forall_const]
    rcases Nat.lt_trichotomy ld.theSize.toNat st.theSize.toNat with hlt | heq | hgt
    · obtain ⟨hle, hend⟩ := hlarge hlt
      have hne : ld.theSize ≠ st.theSize := fun hc => absurd hlt (by rw [hc]; omega)
      simp only [hne, ne_eq, not_false_eq_true, forall_const, if_pos hlt]
      refine forall₂_congr fun i hi => ?_
      have h1 : 8 * ld.offset + i - 8 * st.offset = 8 * (ld.offset - st.offset) + i := by omega
      have h2 : 8 * ld.place + i - 8 * st.place = 8 * (ld.place - st.place) + i := by omega
      rw [if_pos (by omega), if_pos (by omega), h1, h2]
    · have hplace := hsame heq.symm
      have hoffset : st.offset = ld.offset := by omega
      have hsize : ld.theSize = st.theSize := by
        revert heq
        cases ld.theSize <;> cases st.theSize <;> simp [Size.toNat]
      simp only [hsize, ne_eq, not_true_eq_false, false_implies, iff_true]
      intro i hi
      rw [hplace, hoffset, if_pos (by omega), if_pos (by omega)]
      exact congrArg x.getLsbD (by omega)
    · obtain ⟨hle, hend, hapart⟩ := hsmall hgt
      have hne : ld.theSize ≠ st.theSize := fun hc => absurd hgt (by rw [hc]; omega)
      simp only [hne, ne_eq, not_false_eq_true, forall_const, if_neg (Nat.lt_asymm hgt)]
      have hoff : ld.offset ≤ st.offset := by omega
      constructor
      · intro h
        constructor
        · -- what the overlay has written is in the load already
          intro j hj
          have hj' := h (8 * (st.offset - ld.offset) + j) (by omega)
          rw [if_pos (by omega), if_neg (by omega)] at hj'
          rw [← hj']
          exact congrArg x.getLsbD (by omega)
        · -- and so is what it should have written
          intro j hj
          have hj' := h (8 * (st.place - ld.place) + j) (by omega)
          rw [if_neg (by omega), if_pos (by omega)] at hj'
          rw [hj']
          exact congrArg x.getLsbD (by omega)
      · rintro ⟨h1, h2⟩ i hi
        by_cases hin : 8 * st.offset ≤ 8 * ld.offset + i ∧
            8 * ld.offset + i < 8 * st.offset + 8 * st.theSize.toNat
        · have hbit := h1 (8 * ld.offset + i - 8 * st.offset) (by omega)
          have hpos : 8 * (st.offset - ld.offset) + (8 * ld.offset + i - 8 * st.offset) = i := by
            omega
          rw [hpos, Nat.mul_zero, Nat.zero_add] at hbit
          rw [if_pos hin, if_neg (by omega), hbit]
        · rw [if_neg hin]
          by_cases hin' : 8 * st.place ≤ 8 * ld.place + i ∧
              8 * ld.place + i < 8 * st.place + 8 * st.theSize.toNat
          · have hbit := h2 (8 * ld.place + i - 8 * st.place) (by omega)
            have hpos : 8 * (st.place - ld.place) + (8 * ld.place + i - 8 * st.place) = i := by
              omega
            rw [hpos, Nat.mul_zero, Nat.zero_add] at hbit
            rw [if_pos hin', hbit]
          · rw [if_neg hin']

theorem inOrderOf_comm (st ld : MemQueueEntry) (v : BitVec 64) : st.inOrderOf ld v =
    if ld.theInverseEndian != st.theInverseEndian then endianFlip v st.theSize else v := by
  rw [inOrderOf, bne_comm]

/-- **What a load forwards** from a larger store are the bytes of an overlay that covers it. -/
theorem unalign_align (hs : st.NaturallyAligned) (hl : ld.NaturallyAligned)
    (hc : covers st ld = true) (w : BitVec 64) :
    ld.unalign (st.align v (ld.theInverseEndian != st.theInverseEndian)) = st.overlaid ld v w := by
  obtain ⟨-, hs8⟩ := hs.place_bounds
  obtain ⟨-, hl8⟩ := hl.place_bounds
  have hos := st.offset_eq
  have hol := ld.offset_eq
  obtain ⟨h1, h2⟩ := (covers_iff_le (by omega) (by omega)).mp hc
  refine BitVec.eq_of_getLsbD_eq fun i hi => ?_
  rw [getLsbD_unalign (by omega), getLsbD_overlaid (by omega), inOrderOf_comm]
  by_cases hlt : i < 8 * ld.theSize.toNat
  · have hin : 8 * st.offset ≤ 8 * ld.offset + i ∧
        8 * ld.offset + i < 8 * st.offset + 8 * st.theSize.toNat := by omega
    have h64 : 8 * ld.offset + i < 64 := by
      have := toNat_le_eight ld.theSize
      omega
    rw [getLsbD_align _ h64, if_pos hin, decide_eq_true hin.1, Bool.true_and]
  · rw [decide_eq_false hlt, Bool.false_and, Bool.false_and]

/-- An overlay by a store of the same size is the whole value of the store, as far as it has bytes
of that size. -/
theorem overlaid_eq_bytesAt (hl : ld.NaturallyAligned) (hplace : st.place = ld.place)
    (hsize : ld.theSize = st.theSize) (w : BitVec 64) :
    st.overlaid ld v w = bytesAt st.theSize (st.inOrderOf ld v) 0 := by
  obtain ⟨-, hl8⟩ := hl.place_bounds
  have hol := ld.offset_eq
  have hoffset : st.offset = ld.offset := by rw [st.offset_eq, hol, hplace, hsize]
  refine BitVec.eq_of_getLsbD_eq fun i hi => ?_
  rw [getLsbD_overlaid (by omega), hoffset, hsize, bytesAt, BitVec.getLsbD_and,
    BitVec.getLsbD_ushiftRight, UArch.getLsbD_mask _ hi, Nat.add_sub_cancel_left]
  by_cases hlt : i < 8 * st.theSize.toNat
  · rw [if_pos (by omega), Bool.and_comm, Nat.mul_zero, Nat.zero_add]
  · rw [decide_eq_false hlt, Bool.false_and, Bool.and_false]

/-- **A load sees what the store has written** to the bytes of its double-word: if it is as large
as the store, and the value of the store – which it takes over as it is, if it forwards it – has no
more bytes than it; and otherwise if it is not inverse-endian, or the bytes at both ends happen to
be the same. -/
theorem applied_iff (st ld : MemQueueEntry) (v : BitVec 64) (m : Bytes.Memory)
    (hs : st.NaturallyAligned) (hl : ld.NaturallyAligned) (hi : st.intersects ld = true)
    (hv : st.theValue = some v)
    (hm : st.forwards ld = false → ld.loadValue = some (ld.readBytes m)) :
    (st.applied ld).map loadValue = .ok (some (ld.readBytes (st.writeBytes m v))) ↔
      if ld.theSize = st.theSize then
        st.forwards ld = true → st.inOrderOf ld v = bytesAt st.theSize (st.inOrderOf ld v) 0
      else ld.theInverseEndian = true → SameAtBothEnds st ld v (ld.readBytes m) := by
  have hoverlaid := overlaid_eq_iff (v := v) (m := m) hs hl hi
  obtain ⟨-, -, hsame⟩ := nested hs hl hi
  cases hf : st.forwards ld with
  | true =>
    rw [applied, if_pos hf]
    show Except.ok _ = Except.ok _ ↔ _
    rw [Except.ok.injEq, forwardValue_loadValue]
    have hforwards := hf
    rw [forwards, Bool.and_eq_true, Bool.and_eq_true, bne_iff_ne, bne_iff_ne, and_assoc]
      at hforwards
    rw [forwarded, if_pos hforwards, hv]
    by_cases hsize : ld.theSize = st.theSize
    · have hplace := hsame (by rw [hsize])
      have hall : bytesAt st.theSize (st.inOrderOf ld v) 0 =
          ld.readBytes (st.writeBytes m v) := by
        rw [← overlaid_eq_bytesAt hl hplace hsize (ld.readBytes m), hoverlaid]
        exact fun _ hne => absurd hsize hne
      simp only [hsize, if_true, forall_const, Option.map_some, Option.some.injEq,
        ← inOrderOf_comm, hall]
    · simp only [if_neg hsize, Option.map_some, Option.some.injEq]
      rw [unalign_align hs hl hforwards.1 (ld.readBytes m), hoverlaid]
      exact forall_congr' fun _ => ⟨fun h => h hsize, fun h _ => h⟩
  | false =>
    rw [applied, if_neg (by rw [hf]; exact Bool.false_ne_true), overlay, hv, hm hf]
    show Except.ok (loadValue (setLoadValue _ _)) = Except.ok _ ↔ _
    rw [setLoadValue_loadValue, Except.ok.injEq, Option.some.injEq, hoverlaid]
    by_cases hsize : ld.theSize = st.theSize
    · simp [hsize]
    · simp only [if_neg hsize]
      exact forall_congr' fun _ => ⟨fun h => h hsize, fun h _ => h⟩

end MemQueueEntry

/-! ### A load from the wrong end -/

/-- A store of eight bytes, the least significant one first. -/
def inverseStore : MemQueueEntry :=
  { theSequenceNum := 0, thePaddr := 0x1000, theOperation := .kStore, theSize := .doubleWord
    theInverseEndian := true, theValue := some 0x0102030405060708 }

/-- A load of the first of these bytes. -/
def byteLoad (inverse : Bool) : MemQueueEntry :=
  { theSequenceNum := 1, thePaddr := 0x1000, theOperation := .kLoad, theSize := .byte
    theInverseEndian := inverse }

/-- **An inverse-endian load gets the most significant byte**, which is the last in memory. -/
theorem inverseStore_not_applied :
    inverseStore.NaturallyAligned ∧ (byteLoad true).NaturallyAligned ∧
      inverseStore.forwards (byteLoad true) = true ∧
      (inverseStore.applied (byteLoad true)).map MemQueueEntry.loadValue = .ok (some 0x01) ∧
      (byteLoad true).readBytes (inverseStore.writeBytes (fun _ => 0) 0x0102030405060708) = 0x08 ∧
      (inverseStore.applied (byteLoad true)).map MemQueueEntry.loadValue ≠
        .ok (some ((byteLoad true).readBytes
          (inverseStore.writeBytes (fun _ => 0) 0x0102030405060708))) := by
  refine ⟨by rw [MemQueueEntry.NaturallyAligned]; rfl, by rw [MemQueueEntry.NaturallyAligned]; rfl,
    ?_, ?_, ?_, ?_⟩ <;> decide

/-- The same load sees what has been written if it is not inverse-endian. -/
theorem inverseStore_applied :
    (inverseStore.applied (byteLoad false)).map MemQueueEntry.loadValue =
      .ok (some ((byteLoad false).readBytes
        (inverseStore.writeBytes (fun _ => 0) 0x0102030405060708))) := by
  have hstore : inverseStore.NaturallyAligned := by
    rw [MemQueueEntry.NaturallyAligned]
    rfl
  have hload : (byteLoad false).NaturallyAligned := by
    rw [MemQueueEntry.NaturallyAligned]
    rfl
  refine (MemQueueEntry.applied_iff inverseStore (byteLoad false) _ (fun _ => 0) hstore hload
    (by decide) rfl ?_).mpr ?_
  · intro h
    exact absurd h (by decide)
  · rw [if_neg (by decide)]
    intro h
    exact absurd h (by decide)

end UArch

end Flexus
