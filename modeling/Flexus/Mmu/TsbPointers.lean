import Flexus.Mmu.Locked
import Flexus.Mmu.Lookup
import Mathlib.Data.Nat.Bitwise

/-!
# Pointers into the translation storage buffer

Where the handler of a miss looks first: the tables of translations that software keeps in memory
have 512 entries of 16 bytes, or a power of two times as many, and one of them, or each half of a
table that is *split*, is for pages of 8 Kbytes or of 64. The hardware makes the two addresses
(`core/simics/sparcmmu.cpp`, `mmu_generate_tsb_ptr`) from the page and the base of the table.

All sizes are powers of two, so that a pointer is a word of two parts: the base above, and the place
in the table below (`Flexus.Lib.toNat_above_or_and`).
-/

namespace Flexus

namespace MMU

open Flexus.Lib

/-! ### The table -/

section

variable (base : BitVec 64) (split : Bool) (size : BitVec 3)

/-- The number of entries of a table, or of each half of a split one. -/
def tsbEntries : ℕ := 512 * 2 ^ size.toNat

/-- The number of bytes of a table, with both halves. -/
def tsbBytes : ℕ := 16 * (if split then 2 * tsbEntries size else tsbEntries size)

/-- The aligned base of a table. -/
def tsbStart : ℕ := tsbBytes split size * (base.toNat / tsbBytes split size)

/-- The number of a page of 8 Kbytes, or of 64. -/
def pageNumber (va : BitVec 64) (is8k : Bool) : ℕ := va.toNat / 2 ^ (if is8k then 13 else 16)

/-- **A right pointer into a table**: it points to an entry, and without an extension to the one of
the page. -/
structure TsbPointer (va ext : BitVec 64) (is8k : Bool) (p : BitVec 64) : Prop where
  aligned : p.toNat % 16 = 0
  start_le : tsbStart base split size ≤ p.toNat
  lt_end : p.toNat < tsbStart base split size + tsbBytes split size
  entry : ext = 0 → p.toNat = tsbStart base split size +
    16 * ((if split && !is8k then tsbEntries size else 0) + pageNumber va is8k % tsbEntries size)
  lower : split = true → is8k = true → p.toNat < tsbStart base split size + 16 * tsbEntries size
  upper : split = true → is8k = false → tsbStart base split size + 16 * tsbEntries size ≤ p.toNat

end

/-! ### The place in the table -/

variable {va ext base : BitVec 64} {is8k split : Bool} {size : BitVec 3}

/-- The page, at the place of the entry, with the extension. -/
def vaPortion (va ext : BitVec 64) (is8k : Bool) : BitVec 64 :=
  (((va >>> (if is8k then 9 else 12)) &&& (0xFFFFFFFFFFFFFFF0 : BitVec 64)) ^^^
    ((ext <<< 1) &&& 0x1FF0)) ^^^ (ext &&& 0x1FE000)

/-- The bit that tells the two halves apart. -/
def splitBit (size : BitVec 3) : ℕ := 13 + size.toNat

/-- The place in the table. -/
def tsbOffset (va ext : BitVec 64) (is8k split : Bool) (size : BitVec 3) : BitVec 64 :=
  if split then
    if is8k then vaPortion va ext is8k &&& ~~~BitVec.twoPow 64 (splitBit size)
    else vaPortion va ext is8k ||| BitVec.twoPow 64 (splitBit size)
  else vaPortion va ext is8k

/-- The number of bits that number the bytes of a table. -/
def tsbBits (split : Bool) (size : BitVec 3) : ℕ := if split then splitBit size + 1 else splitBit size

theorem tsbBits_le : tsbBits split size ≤ 64 := by
  have hlt := size.isLt
  rw [tsbBits, splitBit]
  split <;> omega

theorem tsbBytes_eq : tsbBytes split size = 2 ^ tsbBits split size := by
  rw [tsbBytes, tsbBits, splitBit, tsbEntries]
  cases split with
  | false =>
    rw [if_neg Bool.false_ne_true, if_neg Bool.false_ne_true, pow_add]
    omega
  | true =>
    rw [if_pos rfl, if_pos rfl, pow_add, pow_add]
    omega

/-- **A pointer is a word of two parts.** -/
theorem mmuGenerateTsbPtr_eq : mmuGenerateTsbPtr va is8k base split size.toNat ext =
    (base &&& ~~~lowBits 64 (tsbBits split size)) |||
      (tsbOffset va ext is8k split size &&& lowBits 64 (tsbBits split size)) := by
  have hmask : ∀ s ≤ 8, (0xFFFFFFFFFFFFE000 : BitVec 64) <<< s = ~~~lowBits 64 (13 + s) := by
    decide
  have hlt := size.isLt
  have hbits : (0xFFFFFFFFFFFFE000 : BitVec 64) <<<
      (if split then size.toNat + 1 else size.toNat) = ~~~lowBits 64 (tsbBits split size) := by
    rw [hmask _ (by split <;> omega), tsbBits, splitBit]
    split <;> rfl
  have hportion : (if split then
      if is8k then vaPortion va ext is8k &&& ~~~((1 : BitVec 64) <<< (13 + size.toNat))
      else vaPortion va ext is8k ||| (1 : BitVec 64) <<< (13 + size.toNat)
      else vaPortion va ext is8k) = tsbOffset va ext is8k split size := rfl
  simp only [mmuGenerateTsbPtr, hbits, BitVec.not_not]
  rw [← hportion]
  rfl

/-! ### Its low bits -/

/-- **A place is a multiple of 16.** -/
theorem tsbOffset_low {i : ℕ} (hi : i < 4) : (tsbOffset va ext is8k split size).getLsbD i = false := by
  have hva : ∀ i < 4, (0xFFFFFFFFFFFFFFF0 : BitVec 64).getLsbD i = false := by decide
  have hext : ∀ i < 4, (0x1FF0 : BitVec 64).getLsbD i = false := by decide
  have hext' : ∀ i < 4, (0x1FE000 : BitVec 64).getLsbD i = false := by decide
  have hportion : (vaPortion va ext is8k).getLsbD i = false := by
    rw [vaPortion, BitVec.getLsbD_xor, BitVec.getLsbD_xor, BitVec.getLsbD_and, BitVec.getLsbD_and,
      BitVec.getLsbD_and, hva i hi, hext i hi, hext' i hi]
    simp
  have hne : i ≠ splitBit size := by
    rw [splitBit]
    omega
  rw [tsbOffset]
  split
  · split
    · rw [getLsbD_and_not_twoPow hne, hportion]
    · rw [getLsbD_or_twoPow hne, hportion]
  · exact hportion

theorem tsbOffset_mod : (tsbOffset va ext is8k split size).toNat % 16 = 0 := by
  have hzero : tsbOffset va ext is8k split size &&& lowBits 64 4 = 0#64 := by
    refine BitVec.eq_of_getLsbD_eq fun i hi => ?_
    rw [BitVec.getLsbD_and, getLsbD_lowBits, BitVec.getLsbD_zero]
    rcases Nat.lt_or_ge i 4 with h4 | h4
    · rw [tsbOffset_low h4, Bool.false_and]
    · rw [decide_eq_false (Nat.not_lt.mpr h4), Bool.and_false, Bool.and_false]
  have hnat := congrArg BitVec.toNat hzero
  rwa [toNat_and_lowBits (by decide)] at hnat

/-- **In a split table the highest bit of the place is the half.** -/
theorem tsbOffset_split : (tsbOffset va ext is8k true size).toNat % 2 ^ (splitBit size + 1) =
    (if is8k then 0 else 2 ^ splitBit size) +
      (vaPortion va ext is8k).toNat % 2 ^ splitBit size := by
  have hlt : splitBit size < 64 := by
    have := size.isLt
    rw [splitBit]
    omega
  have hlow : (tsbOffset va ext is8k true size).toNat % 2 ^ splitBit size =
      (vaPortion va ext is8k).toNat % 2 ^ splitBit size := by
    refine Nat.eq_of_testBit_eq fun i => ?_
    rw [Nat.testBit_mod_two_pow, Nat.testBit_mod_two_pow]
    by_cases hi : i < splitBit size
    · have hbit : (tsbOffset va ext is8k true size).getLsbD i = (vaPortion va ext is8k).getLsbD i := by
        rw [tsbOffset, if_pos rfl]
        split
        · exact getLsbD_and_not_twoPow hi.ne
        · exact getLsbD_or_twoPow hi.ne
      exact congrArg _ hbit
    · rw [decide_eq_false hi, Bool.false_and, Bool.false_and]
  have hhigh : (tsbOffset va ext is8k true size).toNat.testBit (splitBit size) = !is8k := by
    have hbit : (tsbOffset va ext is8k true size).getLsbD (splitBit size) = !is8k := by
      rw [tsbOffset, if_pos rfl]
      cases is8k with
      | true => simp
      | false => simp [hlt]
    exact hbit
  rw [Nat.mod_pow_succ, ← Nat.toNat_testBit, hlow, hhigh]
  cases is8k with
  | true => simp
  | false => simp [Nat.add_comm]

/-- **Without an extension the place is that of the page.** -/
theorem toNat_vaPortion (va : BitVec 64) (is8k : Bool) :
    (vaPortion va 0 is8k).toNat = 16 * pageNumber va is8k := by
  have hmask : (0xFFFFFFFFFFFFFFF0 : BitVec 64) = ~~~lowBits 64 4 := by decide
  have hportion : vaPortion va 0 is8k = (va >>> (if is8k then 9 else 12)) &&& ~~~lowBits 64 4 := by
    rw [vaPortion, hmask]
    simp
  rw [hportion, toNat_above, BitVec.toNat_ushiftRight, Nat.shiftRight_eq_div_pow,
    Nat.div_div_eq_div_mul, ← pow_add, pageNumber]
  cases is8k <;> rfl

theorem two_pow_splitBit (size : BitVec 3) : 2 ^ splitBit size = 16 * tsbEntries size := by
  rw [splitBit, tsbEntries, pow_add]
  omega

/-! ### The pointers -/

/-- **A pointer that is generated is a right one**, whatever the address, the base, the size, the
split and the extension. -/
theorem tsbPointer_generated (va base ext : BitVec 64) (is8k split : Bool) (size : BitVec 3) :
    TsbPointer base split size va ext is8k
      (mmuGenerateTsbPtr va is8k base split size.toNat ext) := by
  have hnat : (mmuGenerateTsbPtr va is8k base split size.toNat ext).toNat =
      tsbStart base split size +
        (tsbOffset va ext is8k split size).toNat % 2 ^ tsbBits split size := by
    rw [mmuGenerateTsbPtr_eq, toNat_above_or_and tsbBits_le, tsbStart, tsbBytes_eq]
  have hsplit : split = true →
      (tsbOffset va ext is8k split size).toNat % 2 ^ tsbBits split size =
        (if is8k then 0 else 16 * tsbEntries size) +
          (vaPortion va ext is8k).toNat % (16 * tsbEntries size) := by
    rintro rfl
    rw [← two_pow_splitBit]
    exact tsbOffset_split
  have hpos : 0 < 16 * tsbEntries size := by
    rw [← two_pow_splitBit]
    exact Nat.two_pow_pos _
  refine ⟨?_, ?_, ?_, ?_, ?_, ?_⟩
  · have hdvd : 16 ∣ 2 ^ tsbBits split size := by
      rw [← tsbBytes_eq, tsbBytes]
      exact Nat.dvd_mul_right _ _
    have hoffset : 16 ∣ (tsbOffset va ext is8k split size).toNat % 2 ^ tsbBits split size :=
      (Nat.dvd_mod_iff hdvd).mpr (Nat.dvd_of_mod_eq_zero tsbOffset_mod)
    have hstart : 16 ∣ tsbStart base split size := by
      rw [tsbStart, tsbBytes_eq]
      exact hdvd.mul_right _
    rw [hnat]
    exact Nat.mod_eq_zero_of_dvd (Nat.dvd_add hstart hoffset)
  · rw [hnat]
    exact Nat.le_add_right _ _
  · rw [hnat, tsbBytes_eq]
    exact Nat.add_lt_add_left (Nat.mod_lt _ (Nat.two_pow_pos _)) _
  · rintro rfl
    rw [hnat]
    cases split with
    | true =>
      rw [hsplit rfl, toNat_vaPortion, Nat.mul_mod_mul_left, Nat.mul_add]
      cases is8k <;> rfl
    | false =>
      have hoffset : tsbOffset va 0 is8k false size = vaPortion va 0 is8k := rfl
      have hbits : tsbBits false size = splitBit size := rfl
      rw [hoffset, hbits, two_pow_splitBit, toNat_vaPortion, Nat.mul_mod_mul_left, Bool.false_and,
        if_neg Bool.false_ne_true, Nat.zero_add]
  · rintro hs rfl
    rw [hnat, hsplit hs, if_pos rfl, Nat.zero_add]
    exact Nat.add_lt_add_left (Nat.mod_lt _ hpos) _
  · rintro hs rfl
    rw [hnat, hsplit hs, if_neg Bool.false_ne_true]
    omega

/-- The register that holds base, split and size, with the extension of a class. -/
def TlbRegs.tsbReg (r : TlbRegs) (klass : AsiClass) : BitVec 64 := r.tsb ^^^ r.tsbExt klass

/-- The registers of a handler hold right pointers into the table that the register says. -/
structure TlbRegs.PointsInto (r : TlbRegs) (reg va ext : BitVec 64) : Prop where
  tsbp8k : TsbPointer (reg &&& ~~~0x1FFF) (reg.getLsbD 12) (reg.setWidth 3) va ext true r.tsbp8k
  tsbp64k : TsbPointer (reg &&& ~~~0x1FFF) (reg.getLsbD 12) (reg.setWidth 3) va ext false r.tsbp64k

theorem generate_pointsInto (r : TlbRegs) (ctxt va ext : BitVec 64) :
    (r.generate ctxt va ext).PointsInto (r.tsb ^^^ ext) va ext := by
  have hsplit : ((r.tsb ^^^ ext) &&& 0x1000 != 0) = (r.tsb ^^^ ext).getLsbD 12 :=
    @and_twoPow_ne_zero 64 12 _ (by decide)
  have hsize : ((r.tsb ^^^ ext) &&& 0x7).toNat = ((r.tsb ^^^ ext).setWidth 3).toNat := by
    rw [BitVec.toNat_setWidth]
    exact @toNat_and_lowBits 64 3 (by decide) _
  have h8k := tsbPointer_generated va ((r.tsb ^^^ ext) &&& ~~~0x1FFF) ext true
    ((r.tsb ^^^ ext).getLsbD 12) ((r.tsb ^^^ ext).setWidth 3)
  have h64k := tsbPointer_generated va ((r.tsb ^^^ ext) &&& ~~~0x1FFF) ext false
    ((r.tsb ^^^ ext).getLsbD 12) ((r.tsb ^^^ ext).setWidth 3)
  rw [← hsplit, ← hsize] at h8k h64k
  refine ⟨?_, ?_⟩
  · rw [← hsplit]
    exact h8k
  · rw [← hsplit]
    exact h64k

/-- **The pointers are right**, of whatever they are generated, and so are those in the registers
after a miss. -/
theorem tsbPointers_right (m : Mmu) (q : Request) :
    (∀ va base ext is8k split (size : BitVec 3), TsbPointer base split size va ext is8k
      (mmuGenerateTsbPtr va is8k base split size.toNat ext)) ∧
    (m.find q = none → ((m.lookup q .MMU_TRANSLATE).2.2.side q.isFetch).regs.PointsInto
      ((m.side q.isFetch).regs.tsbReg q.klass) q.va ((m.side q.isFetch).regs.tsbExt q.klass)) := by
  refine ⟨tsbPointer_generated, fun hfind => ?_⟩
  have hgen := generate_pointsInto (m.side q.isFetch).regs (m.context q.klass) q.va
    ((m.side q.isFetch).regs.tsbExt q.klass)
  rw [Mmu.lookup, searched_eq (by decide), hfind]
  obtain ⟨isFetch, va, klass, asi, nofault, priv, accessType⟩ := q
  cases isFetch with
  | false => exact ⟨hgen.tsbp8k, hgen.tsbp64k⟩
  | true => exact ⟨hgen.tsbp8k, hgen.tsbp64k⟩

/-- A split table of 4096 entries a half at 0x40000, and no pages. -/
def splitMmu : Mmu :=
  { emptyMmu with dSide := { emptyMmu.dSide with regs := { tsb := 0x41003 } } }

/-- A page that is not there. -/
def missing : Request := { isFetch := false, va := 0x12346000, klass := .CLASS_ASI_PRIMARY }

theorem missing_pointsInto :
    ((splitMmu.lookup missing .MMU_TRANSLATE).2.2.side false).regs.PointsInto
        0x41003 0x12346000 0 ∧
      ((splitMmu.lookup missing .MMU_TRANSLATE).2.2.side false).regs.tsbp64k = 0x52340 := by
  refine ⟨(tsbPointers_right splitMmu missing).2 (by decide), ?_⟩
  decide

end MMU

end Flexus
