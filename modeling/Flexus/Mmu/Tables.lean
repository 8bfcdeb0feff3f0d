import Flexus.Lib.Bits
import Flexus.Mmu.SparcMmu
import Mathlib.Data.List.Find

/-!
# Entries, and the places they are in

What a lookup sees of an entry is its tag and the size field of its data; the valid bit is not
among it. So what changes only the used bit changes no lookup
(`Flexus.MMU.TlbEntry.SameButUsed`), and the addresses of a page of eight Kbytes, the smallest
there is, are looked up alike (`Flexus.MMU.TlbSide.find_congr`).
-/

namespace Flexus

namespace MMU

open Flexus.Lib

variable {m t : Mmu} {s : TlbSide} {e e' : TlbEntry} {va va' ctxt data val : BitVec 64}
  {isFetch f : Bool} {k k' : Slot} {q : Request}

/-! ### Bits -/

/-- The number of bits of an address within a page. -/
def pageBits (size : ℕ) : ℕ := 13 + 3 * min size 3

theorem pageMask_eq (size : ℕ) : pageMask size = lowBits 64 (pageBits size) := by
  match size with
  | 0 => rfl
  | 1 => rfl
  | 2 => rfl
  | n + 3 =>
    have hbits : pageBits (n + 3) = 22 := by simp [pageBits]
    rw [hbits]
    rfl

theorem thirteen_le_pageBits (size : ℕ) : 13 ≤ pageBits size := Nat.le_add_right 13 _

theorem ctxtMask_eq : ctxtMask = lowBits 64 13 := rfl

theorem isSet_twoPow {n : ℕ} (hn : n < 64) : isSet (BitVec.twoPow 64 n) data = data.getLsbD n :=
  and_twoPow_ne_zero hn

theorem sizeOf_congr (h61 : data.getLsbD 61 = val.getLsbD 61)
    (h62 : data.getLsbD 62 = val.getLsbD 62) : MMU.sizeOf data = MMU.sizeOf val := by
  have hbits : (data >>> 61) &&& (3 : BitVec 64) = (val >>> 61) &&& (3 : BitVec 64) := by
    refine BitVec.eq_of_getLsbD_eq fun i hi => ?_
    rw [BitVec.getLsbD_and, BitVec.getLsbD_and, BitVec.getLsbD_ushiftRight,
      BitVec.getLsbD_ushiftRight]
    have hthree : (3 : BitVec 64) = lowBits 64 2 := rfl
    rw [hthree, getLsbD_lowBits]
    obtain rfl | rfl | htwo : i = 0 ∨ i = 1 ∨ 2 ≤ i := by omega
    · rw [h61]
    · rw [h62]
    · rw [decide_eq_false (Nat.not_lt.mpr htwo), Bool.and_false, Bool.and_false, Bool.and_false]
  rw [MMU.sizeOf, MMU.sizeOf, hbits]

theorem isSet_lBit : isSet lBit data = data.getLsbD 6 := isSet_twoPow (by decide)

theorem isSet_vBit : isSet vBit data = data.getLsbD 63 := isSet_twoPow (by decide)

theorem getLsbD_or_uBit {n : ℕ} (hn : n ≠ 43) : (data ||| uBit).getLsbD n = data.getLsbD n :=
  getLsbD_or_twoPow hn

@[simp]
theorem sizeOf_or_uBit (data : BitVec 64) : MMU.sizeOf (data ||| uBit) = MMU.sizeOf data :=
  sizeOf_congr (getLsbD_or_uBit (by decide)) (getLsbD_or_uBit (by decide))

@[simp]
theorem isSet_vBit_or_uBit (data : BitVec 64) : isSet vBit (data ||| uBit) = isSet vBit data := by
  rw [isSet_vBit, isSet_vBit, getLsbD_or_uBit (by decide)]

@[simp]
theorem isSet_lBit_or_uBit (data : BitVec 64) : isSet lBit (data ||| uBit) = isSet lBit data := by
  rw [isSet_lBit, isSet_lBit, getLsbD_or_uBit (by decide)]

/-! ### Entries that differ in the used bit -/

namespace TlbEntry

/-- **Nothing but the used bit has changed.** -/
def SameButUsed (e e' : TlbEntry) : Prop := e.use = e'.use

instance : DecidableRel SameButUsed := fun e e' => inferInstanceAs (Decidable (e.use = e'.use))

theorem SameButUsed.refl (e : TlbEntry) : e.SameButUsed e := rfl

theorem SameButUsed.symm (h : e.SameButUsed e') : e'.SameButUsed e := Eq.symm h

theorem SameButUsed.trans {e'' : TlbEntry} (h : e.SameButUsed e') (h' : e'.SameButUsed e'') :
    e.SameButUsed e'' := Eq.trans h h'

theorem sameButUsed_use (e : TlbEntry) : e.SameButUsed e.use := by
  have hdata : e.data ||| uBit ||| uBit = e.data ||| uBit := by
    rw [BitVec.or_assoc, BitVec.or_self]
  rw [SameButUsed, use, use, hdata]

theorem sameButUsed_unuse (e : TlbEntry) : e.SameButUsed e.unuse := by
  have hdata : e.data &&& ~~~uBit ||| uBit = e.data ||| uBit := by
    refine BitVec.eq_of_getLsbD_eq fun i hi => ?_
    rw [BitVec.getLsbD_or, BitVec.getLsbD_or, BitVec.getLsbD_and, BitVec.getLsbD_not]
    cases e.data.getLsbD i <;> simp [hi]
  rw [SameButUsed, use, use, unuse, hdata]

theorem SameButUsed.tag_eq (h : e.SameButUsed e') : e.tag = e'.tag := by
  have huse : e.use.tag = e'.use.tag := by rw [h]
  exact huse

theorem SameButUsed.data_eq (h : e.SameButUsed e') : e.data ||| uBit = e'.data ||| uBit := by
  have huse : e.use.data = e'.use.data := by rw [h]
  exact huse

theorem SameButUsed.sizeOf_eq (h : e.SameButUsed e') : MMU.sizeOf e.data = MMU.sizeOf e'.data := by
  rw [← sizeOf_or_uBit e.data, h.data_eq, sizeOf_or_uBit]

theorem SameButUsed.valid_eq (h : e.SameButUsed e') : e.valid = e'.valid := by
  rw [TlbEntry.valid, TlbEntry.valid, ← isSet_vBit_or_uBit e.data, h.data_eq, isSet_vBit_or_uBit]

theorem SameButUsed.locked_eq (h : e.SameButUsed e') : e.locked = e'.locked := by
  rw [TlbEntry.locked, TlbEntry.locked, ← isSet_lBit_or_uBit e.data, h.data_eq, isSet_lBit_or_uBit]

/-- **The used bit makes no difference to lookups.** -/
theorem SameButUsed.hits_eq (h : e.SameButUsed e') : e.hits ctxt va = e'.hits ctxt va := by
  rw [TlbEntry.hits, TlbEntry.hits, h.tag_eq, h.sizeOf_eq]

theorem SameButUsed.paddr_eq (h : e.SameButUsed e') :
    mmuMakePaddr e.data va = mmuMakePaddr e'.data va := by
  have hfield : e.data &&& ~~~0xFFFFF80000000000 = e'.data &&& ~~~0xFFFFF80000000000 := by
    have hmask : uBit &&& ~~~0xFFFFF80000000000 = 0 := rfl
    have hor : ∀ d : BitVec 64,
        (d ||| uBit) &&& ~~~0xFFFFF80000000000 = d &&& ~~~0xFFFFF80000000000 := by
      intro d
      rw [BitVec.and_comm, BitVec.and_or_distrib_left, BitVec.and_comm _ uBit, hmask]
      exact BitVec.or_zero.trans (BitVec.and_comm _ _)
    rw [← hor e.data, h.data_eq, hor]
  rw [mmuMakePaddr, mmuMakePaddr, hfield, h.sizeOf_eq]

/-- An address is looked up with the others of its page, of the size of the entry. -/
theorem hits_congr
    (h : va &&& ~~~pageMask (MMU.sizeOf e.data) = va' &&& ~~~pageMask (MMU.sizeOf e.data)) :
    e.hits ctxt va = e.hits ctxt va' := by
  rw [hits, hits, h]

/-- **An entry without a page**: what a demap leaves is invalid, and has no tag. -/
theorem demapped_valid (e : TlbEntry) : e.demapped.valid = false := by
  have hbit : (e.data &&& ~~~vBit).getLsbD 63 = false := by
    rw [BitVec.getLsbD_and, BitVec.getLsbD_not]
    have hv : vBit.getLsbD 63 = true := rfl
    rw [hv, Bool.not_true, Bool.and_false, Bool.and_false]
  rw [valid, demapped, isSet_vBit, hbit]

end TlbEntry

/-- Addresses of a page of eight Kbytes are on a page of any size. -/
theorem page_eq_of_8k (h : va &&& ~~~0x1FFF = va' &&& ~~~0x1FFF) (size : ℕ) :
    va &&& ~~~pageMask size = va' &&& ~~~pageMask size := by
  have hmask : (0x1FFF : BitVec 64) = lowBits 64 13 := rfl
  rw [pageMask_eq]
  rw [hmask] at h
  exact above_eq_of_le (thirteen_le_pageBits size) h

/-! ### Places -/

theorem mem_slots : k ∈ slots isFetch va ↔
    k = .twoWay (index2w isFetch 0 va) ∨ k = .twoWay (index2w isFetch 1 va) ∨
      ∃ way < waysFa, k = .fa way := by
  rw [slots]
  simp only [List.mem_append, List.mem_cons, List.not_mem_nil, or_false, List.mem_map,
    List.mem_range, or_assoc]
  constructor
  · rintro (h | h | ⟨way, hway, rfl⟩)
    · exact Or.inl h
    · exact Or.inr (Or.inl h)
    · exact Or.inr (Or.inr ⟨way, hway, rfl⟩)
  · rintro (h | h | ⟨way, hway, rfl⟩)
    · exact Or.inl h
    · exact Or.inr (Or.inl h)
    · exact Or.inr (Or.inr ⟨way, hway, rfl⟩)

/-- The addresses of a page of eight Kbytes are searched for in the same places. -/
theorem slots_congr (h : va &&& ~~~0x1FFF = va' &&& ~~~0x1FFF) :
    slots isFetch va = slots isFetch va' := by
  have hmask : (0x1FFF : BitVec 64) = lowBits 64 13 := rfl
  have hshift : va >>> 13 = va' >>> 13 := by
    rw [hmask] at h
    exact ushiftRight_eq_of_above h
  rw [slots, slots, index2w, index2w, index2w, index2w, hshift]

namespace TlbSide

theorem get_set (s : TlbSide) (k k' : Slot) (e : TlbEntry) :
    (s.set k e).get k' = if k' = k then e else s.get k' := by
  cases k <;> cases k' <;> simp [set, get, Function.update_apply]

/-- **A search depends on what the entries that are searched hit.** -/
theorem find_eq_of_hits {s' : TlbSide} (hslots : slots isFetch va = slots isFetch va')
    (h : ∀ k ∈ slots isFetch va, (s.get k).hits ctxt va = (s'.get k).hits ctxt va') :
    s.find isFetch ctxt va = s'.find isFetch ctxt va' := by
  rw [find, find, ← hslots]
  exact List.find?_congr h

/-- **The addresses of a page of eight Kbytes are looked up alike.** -/
theorem find_congr (h : va &&& ~~~0x1FFF = va' &&& ~~~0x1FFF) :
    s.find isFetch ctxt va = s.find isFetch ctxt va' :=
  find_eq_of_hits (slots_congr h) fun _ _ => TlbEntry.hits_congr (page_eq_of_8k h _)

theorem find_eq_none : s.find isFetch ctxt va = none ↔
    ∀ k ∈ slots isFetch va, (s.get k).hits ctxt va = false := by
  rw [find, List.find?_eq_none]
  exact forall₂_congr fun k _ => Bool.not_eq_true _ ▸ Iff.rfl

theorem find_some (h : s.find isFetch ctxt va = some k) :
    k ∈ slots isFetch va ∧ (s.get k).hits ctxt va = true := by
  rw [find] at h
  exact ⟨List.mem_of_find?_eq_some h, by simpa using List.find?_some h⟩

end TlbSide

end MMU

end Flexus
