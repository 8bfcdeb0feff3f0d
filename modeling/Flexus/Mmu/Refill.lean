import Flexus.Mmu.Invalid

/-!
# Refills

After a miss, software stores a translation to the data in register of the side, and the access is
tried again. For data, the place and the tag go by the size of the page. For instructions they do
not: whatever its size, a translation goes to one of the two ways of the set of the address that
missed, under the tag of that address, and of a large page no address in another set is found.

Which refills are found, at all the addresses of their page, is `Flexus.MMU.refill_answers`. A page
of data may share addresses with entries that are there already, and what is searched first wins.
-/

namespace Flexus

namespace MMU

open Flexus.Lib

variable {m s t : Mmu} {isFetch f : Bool} {k : Slot} {e : TlbEntry}
  {va va' ctxt val : BitVec 64} {q q' : Request} {way : ℕ} {fa : ℕ → TlbEntry}

/-! ### Misses -/

/-- What is missed is reported, and it is reported of nothing else. -/
theorem Mmu.mmuLookup_miss : m.find q = none ↔
    (m.mmuLookup q .MMU_TRANSLATE).2.1 =
      if q.isFetch then .fastInstructionAccessMMUMiss else .fastDataAccessMMUMiss := by
  cases hfind : m.find q with
  | none => simp [mmuLookup, hfind]
  | some k =>
    simp only [mmuLookup, hfind, reduceCtorEq, false_iff]
    split <;> split <;> simp

theorem Mmu.mmuLookup_missed (h : m.find q = none) :
    (m.mmuLookup q .MMU_TRANSLATE).2.2 = m.missed q := by
  simp only [mmuLookup, h]

/-- A miss leaves the page and the context in the tag access register. -/
theorem Mmu.tagAccess_missed (m : Mmu) (q : Request) :
    ((m.missed q).side q.isFetch).regs.tagAccess =
      (q.va &&& ~~~0x1FFF) ||| m.context q.klass := by
  cases hq : q.isFetch <;> simp [missed, hq, side] <;> rfl

theorem Mmu.mmuLookup_hit (h : m.find q = some k) (b : Bool) :
    (m.mmuLookup q (translating b)).1 = ((m.side q.isFetch).get k).data := by
  cases b with
  | false => simp only [mmuLookup, translating, Bool.false_eq_true, if_false, h]
  | true =>
    simp only [mmuLookup, translating, if_true, h]
    split <;> rfl

/-! ### Tags -/

/-- **An entry with the tag of a page** hits at its addresses. -/
theorem hits_of_tag (htag : e.tag = ctxt ||| (va &&& ~~~pageMask (MMU.sizeOf e.data)))
    (hpage : va' &&& ~~~pageMask (MMU.sizeOf e.data) = va &&& ~~~pageMask (MMU.sizeOf e.data)) :
    e.hits ctxt va' = true := by
  rw [TlbEntry.hits, hpage, htag, beq_self_eq_true, Bool.true_or]

/-- **The tag of a page**, from what a miss leaves. -/
theorem maskedTag_missed {size : ℕ} (hctxt : ctxt &&& ~~~ctxtMask = 0) :
    Mmu.maskedTag ((va &&& ~~~0x1FFF) ||| ctxt) size = ctxt ||| (va &&& ~~~pageMask size) := by
  have hmask : (0x1FFF : BitVec 64) = lowBits 64 13 := rfl
  rw [Mmu.maskedTag, pageMask_eq, ctxtMask_eq, hmask]
  rw [ctxtMask_eq] at hctxt
  exact above_or_and (thirteen_le_pageBits size) hctxt

/-! ### Searches -/

theorem TlbSide.find_of_unique {s : TlbSide} (hk : k ∈ slots isFetch va)
    (hhits : (s.get k).hits ctxt va = true)
    (hrest : ∀ k' ∈ slots isFetch va, k' ≠ k → (s.get k').hits ctxt va = false) :
    s.find isFetch ctxt va = some k := by
  cases hfind : s.find isFetch ctxt va with
  | none =>
    rw [TlbSide.find_eq_none] at hfind
    rw [hfind k hk] at hhits
    cases hhits
  | some k' =>
    obtain ⟨hk', hhits'⟩ := TlbSide.find_some hfind
    by_contra hne
    rw [hrest k' hk' fun h => hne (h ▸ rfl)] at hhits'
    cases hhits'

/-- **What is searched before a place in the fully associative table does not hit.** -/
def TlbSide.MissesBefore (s : TlbSide) (isFetch : Bool) (ctxt va : BitVec 64) (way : ℕ) : Prop :=
  (∀ w < 2, (s.get (.twoWay (index2w isFetch w va))).hits ctxt va = false) ∧
    ∀ i < way, (s.get (.fa i)).hits ctxt va = false

/-- Nothing but the used bits of what is searched before a place matters. -/
theorem TlbSide.MissesBefore.congr {s s' : TlbSide} (h : s.MissesBefore isFetch ctxt va way)
    (hsame : ∀ k ≠ Slot.fa way, (s.get k).SameButUsed (s'.get k)) :
    s'.MissesBefore isFetch ctxt va way := by
  refine ⟨fun w hw => ?_, fun i hi => ?_⟩
  · rw [← (hsame (.twoWay _) (by simp)).hits_eq]
    exact h.1 w hw
  · have hne : Slot.fa i ≠ Slot.fa way := by
      intro heq
      cases heq
      exact Nat.lt_irrefl _ hi
    rw [← (hsame (.fa i) hne).hits_eq]
    exact h.2 i hi

/-- An entry of the fully associative table is found if nothing before it hits. -/
theorem TlbSide.find_fa {s : TlbSide} (hway : way < waysFa) :
    s.find isFetch ctxt va = some (.fa way) ↔
      (s.get (.fa way)).hits ctxt va = true ∧ s.MissesBefore isFetch ctxt va way := by
  rw [find, slots, List.find?_append, List.find?_map]
  constructor
  · intro h
    rw [Option.or_eq_some_iff] at h
    rcases h with h | ⟨hnone, h⟩
    · have hmem := List.mem_of_find?_eq_some h
      simp at hmem
    · rw [Option.map_eq_some_iff] at h
      obtain ⟨i, hi, heq⟩ := h
      cases heq
      rw [List.find?_range_eq_some] at hi
      rw [List.find?_eq_none] at hnone
      refine ⟨hi.1, fun w hw => ?_, fun i' hi' => ?_⟩
      · have hmem : Slot.twoWay (index2w isFetch w va) ∈
            [Slot.twoWay (index2w isFetch 0 va), Slot.twoWay (index2w isFetch 1 va)] := by
          obtain rfl | rfl : w = 0 ∨ w = 1 := by omega
          · exact List.mem_cons_self
          · exact List.mem_cons_of_mem _ List.mem_cons_self
        exact Bool.not_eq_true _ ▸ hnone _ hmem
      · have hbefore := hi.2.2 i' hi'
        rw [Bool.not_eq_true'] at hbefore
        exact hbefore
  · rintro ⟨hhits, htwo, hbefore⟩
    have hnone : List.find? (fun k => (s.get k).hits ctxt va)
        [Slot.twoWay (index2w isFetch 0 va), Slot.twoWay (index2w isFetch 1 va)] = none := by
      rw [List.find?_eq_none]
      intro k hk
      rw [List.mem_cons, List.mem_singleton] at hk
      rcases hk with rfl | rfl
      · rw [htwo 0 (by decide)]
        decide
      · rw [htwo 1 (by decide)]
        decide
    have hrange : List.find? ((fun k => (s.get k).hits ctxt va) ∘ Slot.fa) (List.range waysFa) =
        some way := by
      rw [List.find?_range_eq_some]
      refine ⟨hhits, List.mem_range.mpr hway, fun i hi => ?_⟩
      rw [Function.comp_apply, hbefore i hi]
      rfl
    rw [hnone, hrange]
    rfl

/-! ### What is found after a refill -/

/-- The physical page of a translation. -/
def ttePage (val : BitVec 64) : BitVec 64 :=
  (val &&& ~~~0xFFFFF80000000000) &&& ~~~pageMask (MMU.sizeOf val)

/-- **A lookup is answered by a translation**, in a place: it hits the place, and the physical
address is the page of the translation with the offset of the address. -/
structure Mmu.AnsweredBy (t : Mmu) (k : Slot) (val : BitVec 64) (q : Request) : Prop where
  find : t.find q = some k
  data : ∀ b, (t.mmuLookup q (translating b)).1 ||| uBit = val ||| uBit
  paddr : ∀ b, mmuMakePaddr (t.mmuLookup q (translating b)).1 q.va =
    ttePage val ||| (q.va &&& pageMask (MMU.sizeOf val))

theorem Mmu.answeredBy_iff (hdata : ((t.side q.isFetch).get k).data ||| uBit = val ||| uBit) :
    t.AnsweredBy k val q ↔ t.find q = some k := by
  constructor
  · exact AnsweredBy.find
  · intro hfind
    have hval : ∀ b, (t.mmuLookup q (translating b)).1 ||| uBit = val ||| uBit := by
      intro b
      rw [Mmu.mmuLookup_hit hfind b, hdata]
    refine ⟨hfind, hval, fun b => ?_⟩
    have hsame : TlbEntry.SameButUsed ⟨0, (t.mmuLookup q (translating b)).1⟩ ⟨0, val⟩ := by
      rw [TlbEntry.SameButUsed, TlbEntry.use, TlbEntry.use, hval b]
    exact hsame.paddr_eq

/-- **A refill is found at the addresses of its page**: lookups on its side, in its context, of
the addresses that share its page are answered by it. -/
def Mmu.RefillAnswers (t : Mmu) (k : Slot) (q : Request) (ctxt val : BitVec 64) : Prop :=
  ∀ q' : Request, q'.isFetch = q.isFetch → t.context q'.klass = ctxt →
    q'.va &&& ~~~pageMask (MMU.sizeOf val) = q.va &&& ~~~pageMask (MMU.sizeOf val) →
    t.AnsweredBy k val q'

/-- **No other entry is in the way** of a page of data, in a context: what is searched before the
victim in the fully associative table hits at none of its addresses. -/
def Mmu.NoneInTheWay (m : Mmu) (ctxt va val : BitVec 64) : Prop :=
  ∀ way fa, mmuFaChoose m.dSide.fa = some (way, fa) →
    ∀ va', va' &&& ~~~pageMask (MMU.sizeOf val) = va &&& ~~~pageMask (MMU.sizeOf val) →
      m.dSide.MissesBefore false ctxt va' way

section Refill

/-- Of a page of eight Kbytes, everything missed before the refill, and the refill is all that
hits after it. -/
theorem find_refill_8k (t : Mmu) (e : TlbEntry) (va : BitVec 64) (hmiss : m.find q = none)
    (hk : k ∈ slots q.isFetch q.va)
    (htag : e.tag = m.context q.klass ||| (q.va &&& ~~~pageMask (MMU.sizeOf e.data)))
    (hget : (t.side q.isFetch).get k = e)
    (hrest : ∀ k' ≠ k, ((m.side q.isFetch).get k').SameButUsed ((t.side q.isFetch).get k'))
    (hva : va &&& ~~~0x1FFF = q.va &&& ~~~0x1FFF) :
    (t.side q.isFetch).find q.isFetch (m.context q.klass) va = some k := by
  rw [TlbSide.find_congr hva]
  refine TlbSide.find_of_unique hk ?_ fun k' hk' hne => ?_
  · rw [hget]
    exact hits_of_tag htag rfl
  · rw [← (hrest k' hne).hits_eq]
    exact TlbSide.find_eq_none.mp hmiss k' hk'

/-- **Of a large page for instructions**, the address in the neighbouring set is not found. -/
theorem index2w_flip (w w' : ℕ) (va : BitVec 64) :
    index2w true w (va ^^^ 0x2000) ≠ index2w true w' va := by
  have hparity : ∀ x : BitVec 64, decide ((x >>> 13).toNat % 2 = 1) = x.getLsbD 13 := by
    intro x
    rw [← Nat.testBit_zero, ← BitVec.getLsbD, BitVec.getLsbD_ushiftRight]
  have hflip : (va ^^^ 0x2000).getLsbD 13 = !va.getLsbD 13 := by
    have hbit : (0x2000 : BitVec 64).getLsbD 13 = true := rfl
    rw [BitVec.getLsbD_xor, hbit, Bool.xor_true]
  intro h
  have hsets : sets2w true = 64 := rfl
  rw [index2w, index2w, hsets] at h
  have hmod : ((va ^^^ 0x2000) >>> 13).toNat % 2 = (va >>> 13).toNat % 2 := by omega
  have heq : (va ^^^ 0x2000).getLsbD 13 = va.getLsbD 13 := by
    rw [← hparity, ← hparity, hmod]
  rw [hflip] at heq
  exact absurd heq (Bool.not_ne_self _)

theorem page_flip {size : ℕ} (hsize : size ≠ 0) (va : BitVec 64) :
    (va ^^^ 0x2000) &&& ~~~pageMask size = va &&& ~~~pageMask size := by
  rw [pageMask_eq]
  refine above_eq_iff.mpr fun i hi => ?_
  have hlarge : 14 ≤ pageBits size := by
    rw [pageBits]
    omega
  have hpow : (0x2000 : BitVec 64) = BitVec.twoPow 64 13 := rfl
  have hi13 : 13 ≠ i := by omega
  rw [BitVec.getLsbD_xor, hpow, BitVec.getLsbD_twoPow, decide_eq_false hi13, Bool.and_false,
    Bool.xor_false]

/-- The set of an address is that of its page of eight Kbytes. -/
theorem index2w_congr (h : va &&& ~~~0x1FFF = va' &&& ~~~0x1FFF) (w : ℕ) :
    index2w isFetch w va = index2w isFetch w va' := by
  have hmask : (0x1FFF : BitVec 64) = lowBits 64 13 := rfl
  rw [hmask] at h
  rw [index2w, index2w, ushiftRight_eq_of_above h]

/-- The tag access register that a miss leaves is on the page that missed. -/
theorem page_tagAccess (hctxt : ctxt &&& ~~~ctxtMask = 0) :
    ((va &&& ~~~0x1FFF) ||| ctxt) &&& ~~~0x1FFF = va &&& ~~~0x1FFF := by
  have hmask : (0x1FFF : BitVec 64) = lowBits 64 13 := rfl
  rw [ctxtMask_eq] at hctxt
  rw [BitVec.or_comm, hmask, or_above hctxt, above_above (Nat.le_refl 13)]

/-- The two ways are among the places that are searched for the page that missed. -/
theorem twoWay_mem_slots (hctxt : ctxt &&& ~~~ctxtMask = 0) (t : ℕ → TlbEntry) (lfsr : BitVec 64) :
    Slot.twoWay (twoWayChoose t isFetch ((va &&& ~~~0x1FFF) ||| ctxt) lfsr).1 ∈
      slots isFetch va := by
  have hindex : ∀ w, index2w isFetch w ((va &&& ~~~0x1FFF) ||| ctxt) = index2w isFetch w va :=
    index2w_congr (page_tagAccess hctxt)
  rw [mem_slots, twoWayChoose_fst, hindex, hindex, hindex]
  split
  · exact Or.inl rfl
  · split
    · exact Or.inr (Or.inl rfl)
    · rw [nextWay]
      split
      · exact Or.inr (Or.inl rfl)
      · exact Or.inl rfl

/-- The contexts have thirteen bits. -/
def Mmu.ContextsFit (m : Mmu) : Prop :=
  m.primaryContext &&& ~~~ctxtMask = 0 ∧ m.secondaryContext &&& ~~~ctxtMask = 0

theorem Mmu.ContextsFit.context (h : m.ContextsFit) (klass : AsiClass) :
    m.context klass &&& ~~~ctxtMask = 0 := by
  cases klass with
  | CLASS_ASI_PRIMARY => exact h.1
  | CLASS_ASI_SECONDARY => exact h.2
  | CLASS_ASI_NUCLEUS => exact BitVec.zero_and
  | CLASS_ASI_NONTRANSLATING => exact BitVec.zero_and

/-- **What is filled in for data after a miss** has the tag of the page, of its own size. -/
theorem Mmu.Fills.tag_missed (hfit : m.ContextsFit) (hq : q.isFetch = false)
    (h : (m.missed q).Fills (.store 0x5C 0 val) false k e) :
    e.tag = m.context q.klass ||| (q.va &&& ~~~pageMask (MMU.sizeOf e.data)) ∧
      e.data ||| uBit = val ||| uBit := by
  have htag : (m.missed q).dSide.regs.tagAccess = (q.va &&& ~~~0x1FFF) ||| m.context q.klass := by
    have hside := m.tagAccess_missed q
    rw [hq] at hside
    exact hside
  generalize hev : MmuEvent.store 0x5C 0 val = ev at h
  cases h with
  | dtlbFa hkind hway =>
    cases hev
    rw [htag, maskedTag_missed (hfit.context q.klass), Mmu.sizeOf_dataInValue]
    exact ⟨rfl, dataInValue_or_uBit val⟩
  | dtlb2w hl hs =>
    cases hev
    rw [htag, maskedTag_missed (hfit.context q.klass), Mmu.sizeOf_dataInValue]
    exact ⟨rfl, dataInValue_or_uBit val⟩
  | dtlbAccess => cases hev

/-- It is in a place that is searched for the address that missed. -/
theorem Mmu.Fills.mem_slots_missed (hfit : m.ContextsFit) (hq : q.isFetch = false)
    (h : (m.missed q).Fills (.store 0x5C 0 val) false k e) : k ∈ slots false q.va := by
  have htag : (m.missed q).dSide.regs.tagAccess = (q.va &&& ~~~0x1FFF) ||| m.context q.klass := by
    have hside := m.tagAccess_missed q
    rw [hq] at hside
    exact hside
  generalize hev : MmuEvent.store 0x5C 0 val = ev at h
  cases h with
  | dtlbFa hkind hway => exact mem_slots.mpr (Or.inr (Or.inr ⟨_, (mmuFaChoose_some hway).1, rfl⟩))
  | dtlb2w hl hs =>
    cases hev
    rw [htag]
    exact twoWay_mem_slots (hfit.context q.klass) _ _
  | dtlbAccess => cases hev

/-- A refill of data goes through, unless everything is locked. -/
theorem Mmu.dtlbDataIn_isOk (val : BitVec 64)
    (hfa : ∃ way < waysFa, (m.dSide.fa way).locked = false) :
    ∃ t, m.dtlbDataIn val = .ok t := by
  obtain ⟨way, hway, hunlocked⟩ := hfa
  rw [dtlbDataIn]
  simp only
  split
  · obtain ⟨r, hr⟩ := Option.isSome_iff_exists.mp (mmuFaChoose_isSome hway fun _ => hunlocked)
    rw [hr]
    exact ⟨_, rfl⟩
  · exact ⟨_, rfl⟩

/-- **A refill of data** is found at the addresses of its page, if the page has eight Kbytes, or
no other entry is in the way. -/
theorem refill_data (hfit : m.ContextsFit) (hq : q.isFetch = false) (hmiss : m.find q = none)
    (ht : (m.missed q).dtlbDataIn val = .ok t) :
    ∃ k, (m.missed q).Fills (.store 0x5C 0 val) false k ((t.side false).get k) ∧
      (t.RefillAnswers k q (m.context q.klass) val ↔
        MMU.sizeOf val = 0 ∨ m.NoneInTheWay (m.context q.klass) q.va val) := by
  obtain ⟨-, -, hcontext, k, e, hfill, hget, hrest⟩ := Mmu.dtlbDataIn_ok ht
  obtain ⟨htag, hdata⟩ := hfill.tag_missed hfit hq
  have hside : (t.side false).get k = e := hget
  have hsize : MMU.sizeOf e.data = MMU.sizeOf val := by
    rw [← sizeOf_or_uBit, hdata, sizeOf_or_uBit]
  have hsame : ∀ k' ≠ k, (m.dSide.get k').SameButUsed (t.dSide.get k') := by
    intro k' hk'
    have hm := Mmu.get_missed m q false k'
    exact hm ▸ hrest k' hk'
  refine ⟨k, hside.symm ▸ hfill, ?_⟩
  have hanswer : ∀ q' : Request, q'.isFetch = q.isFetch →
      (t.AnsweredBy k val q' ↔ t.find q' = some k) := by
    intro q' hq'
    refine Mmu.answeredBy_iff ?_
    rw [hq', hq, hside, hdata]
  by_cases hzero : MMU.sizeOf val = 0
  · refine iff_of_true (fun q' hq' hctxt hpage => (hanswer q' hq').mpr ?_) (Or.inl hzero)
    rw [hzero] at hpage
    have hfound := find_refill_8k t e q'.va hmiss
      (by rw [hq]; exact hfill.mem_slots_missed hfit hq) htag (by rw [hq]; exact hside)
      (by rw [hq]; exact hsame) hpage
    rw [Mmu.find, hq', hctxt]
    exact hfound
  · obtain ⟨way, fa, hk, hchoose⟩ : ∃ way fa, k = .fa way ∧
        mmuFaChoose m.dSide.fa = some (way, fa) := by
      have hfa : (m.missed q).dSide.fa = m.dSide.fa := by
        simp [Mmu.missed, hq]
      generalize hev : MmuEvent.store 0x5C 0 val = ev at hfill
      cases hfill with
      | dtlbFa hkind hway => exact ⟨_, _, rfl, hfa ▸ hway⟩
      | dtlb2w hl hs =>
        cases hev
        exact absurd hs hzero
      | dtlbAccess => cases hev
    subst hk
    have hway := (mmuFaChoose_some hchoose).1
    rw [or_iff_right hzero]
    constructor
    · intro h way' fa' hchoose' va' hpage
      cases hchoose.symm.trans hchoose'
      have hctxt : t.context q.klass = m.context q.klass :=
        (hcontext q.klass).trans (Mmu.context_missed m q q.klass)
      have hfind : (t.side q.isFetch).find q.isFetch (t.context q.klass) va' = some (.fa way) :=
        (h { q with va := va' } rfl hctxt hpage).find
      rw [hq, hctxt] at hfind
      exact ((TlbSide.find_fa hway).mp hfind).2.congr fun k' hk' => (hsame k' hk').symm
    · intro h q' hq' hctxt hpage
      refine (hanswer q' hq').mpr ?_
      rw [Mmu.find, hq', hq, hctxt]
      refine (TlbSide.find_fa hway).mpr ⟨?_, (h way fa hchoose q'.va hpage).congr hsame⟩
      rw [hside]
      exact hits_of_tag htag (hsize.symm ▸ hpage)

/-- **A refill of instructions** is found at the addresses of its page, if and only if the page has
eight Kbytes. -/
theorem refill_instructions (hfit : m.ContextsFit) (hq : q.isFetch = true)
    (hmiss : m.find q = none) (ht : (m.missed q).itlbDataIn val = .ok t) :
    ∃ k, (m.missed q).Fills (.store 0x54 0 val) true k ((t.side true).get k) ∧
      (t.RefillAnswers k q (m.context q.klass) val ↔ MMU.sizeOf val = 0) := by
  have htagAccess : (m.missed q).iSide.regs.tagAccess =
      (q.va &&& ~~~0x1FFF) ||| m.context q.klass := by
    have hside := m.tagAccess_missed q
    rw [hq] at hside
    exact hside
  have hcontext : ∀ klass, t.context klass = m.context klass := fun klass =>
    ((Mmu.itlbDataIn_ok ht).2.2.1 klass).trans (Mmu.context_missed m q klass)
  have hget := Mmu.get_itlbDataIn ht
  rw [htagAccess] at hget
  have hfill := @Mmu.Fills.itlb2w (m.missed q) val
  rw [htagAccess] at hfill
  have hmem : Slot.twoWay (twoWayChoose (m.missed q).iSide.twoWay true
      ((q.va &&& ~~~0x1FFF) ||| m.context q.klass) (m.missed q).lfsr).1 ∈ slots true q.va :=
    twoWay_mem_slots (hfit.context q.klass) _ _
  generalize (twoWayChoose (m.missed q).iSide.twoWay true
    ((q.va &&& ~~~0x1FFF) ||| m.context q.klass) (m.missed q).lfsr).1 = idx at hget hfill hmem
  have hside : (t.side true).get (.twoWay idx) =
      ⟨(q.va &&& ~~~0x1FFF) ||| m.context q.klass, val ||| uBit⟩ := (hget _).trans (if_pos rfl)
  have hsame : ∀ k' ≠ Slot.twoWay idx,
      ((m.side true).get k').SameButUsed ((t.side true).get k') := by
    intro k' hk'
    have hk : (t.side true).get k' = ((m.missed q).side true).get k' :=
      (hget k').trans (if_neg hk')
    rw [hk, Mmu.get_missed]
    exact TlbEntry.SameButUsed.refl _
  refine ⟨.twoWay idx, ?_, ?_⟩
  · rw [hside]
    exact hfill
  constructor
  · intro h
    by_contra hsize
    have hfind := (h { q with va := q.va ^^^ 0x2000 } rfl (hcontext q.klass)
      (page_flip hsize q.va)).find
    have hslot := (TlbSide.find_some hfind).1
    rw [show ({ q with va := q.va ^^^ 0x2000 } : Request).isFetch = true from hq,
      mem_slots] at hslot
    rcases mem_slots.mp hmem with h0 | h1 | ⟨way, -, hway⟩
    · rw [h0] at hslot
      rcases hslot with h' | h' | ⟨_, -, h'⟩
      · exact index2w_flip 0 0 q.va (Slot.twoWay.inj h').symm
      · exact index2w_flip 1 0 q.va (Slot.twoWay.inj h').symm
      · cases h'
    · rw [h1] at hslot
      rcases hslot with h' | h' | ⟨_, -, h'⟩
      · exact index2w_flip 0 1 q.va (Slot.twoWay.inj h').symm
      · exact index2w_flip 1 1 q.va (Slot.twoWay.inj h').symm
      · cases h'
    · cases hway
  · intro hsize q' hq' hctxt hpage
    have hdata : ((t.side q'.isFetch).get (.twoWay idx)).data ||| uBit = val ||| uBit := by
      rw [hq', hq, hside, BitVec.or_assoc, BitVec.or_self]
    refine (Mmu.answeredBy_iff hdata).mpr ?_
    rw [hsize] at hpage
    have htag : (q.va &&& ~~~0x1FFF) ||| m.context q.klass =
        m.context q.klass ||| (q.va &&& ~~~pageMask (MMU.sizeOf (val ||| uBit))) := by
      rw [sizeOf_or_uBit, hsize, BitVec.or_comm]
      rfl
    have hfound := find_refill_8k t ⟨(q.va &&& ~~~0x1FFF) ||| m.context q.klass, val ||| uBit⟩
      q'.va hmiss (by rw [hq]; exact hmem) htag
      (by rw [hq]; exact hside) (by rw [hq]; exact hsame) hpage
    rw [Mmu.find, hq', hctxt]
    exact hfound

/-- **Which refills make the retried access hit.** After a miss, with contexts that fit and not all
entries locked, what is stored to the data in register of the side is put in a place, and it
answers the lookups of all addresses of its page in its context, if and only if the page has eight
Kbytes, or it is a page of data and no other entry is in the way. -/
theorem refill_answers (hfit : m.ContextsFit)
    (hfa : ∃ way < waysFa, (m.dSide.fa way).locked = false)
    (hmiss : (m.mmuLookup q .MMU_TRANSLATE).2.1 =
      if q.isFetch then .fastInstructionAccessMMUMiss else .fastDataAccessMMUMiss)
    (val : BitVec 64) :
    ∃ t, (m.mmuLookup q .MMU_TRANSLATE).2.2.step (.store (dataInAsi q.isFetch) 0 val) = .ok t ∧
      ∃ k, (m.mmuLookup q .MMU_TRANSLATE).2.2.Fills (.store (dataInAsi q.isFetch) 0 val)
          q.isFetch k ((t.side q.isFetch).get k) ∧
        (t.RefillAnswers k q (m.context q.klass) val ↔
          MMU.sizeOf val = 0 ∨
            (q.isFetch = false ∧ m.NoneInTheWay (m.context q.klass) q.va val)) := by
  have hnone := Mmu.mmuLookup_miss.mpr hmiss
  rw [Mmu.mmuLookup_missed hnone]
  cases hq : q.isFetch with
  | false =>
    have hlock : ∃ way < waysFa, ((m.missed q).dSide.fa way).locked = false := by
      simpa [Mmu.missed, hq] using hfa
    obtain ⟨t, ht⟩ := Mmu.dtlbDataIn_isOk val hlock
    obtain ⟨k, hfill, hiff⟩ := refill_data hfit hq hnone ht
    refine ⟨t, ht, k, hfill, hiff.trans ?_⟩
    simp only [true_and]
  | true =>
    obtain ⟨t, ht⟩ : ∃ t, (m.missed q).itlbDataIn val = .ok t := ⟨_, rfl⟩
    obtain ⟨k, hfill, hiff⟩ := refill_instructions hfit hq hnone ht
    refine ⟨t, ht, k, hfill, hiff.trans ?_⟩
    simp only [Bool.true_eq_false, false_and, or_false]

end Refill

/-- An access to an address, in context zero. -/
def accessTo (isFetch : Bool) (va : BitVec 64) : Request :=
  { isFetch := isFetch, va := va, klass := .CLASS_ASI_NUCLEUS }

theorem mappedMmu_fits : (mappedMmu 0).ContextsFit := ⟨rfl, rfl⟩

theorem mappedMmu_unlocked : ∃ way < waysFa, ((mappedMmu 0).dSide.fa way).locked = false :=
  ⟨1, by decide, by decide⟩

/-- A page of eight Kbytes of data is found. -/
theorem refill_answers_mapped :
    ∃ t, ((mappedMmu 0).mmuLookup (accessTo false 0x22000) .MMU_TRANSLATE).2.2.step
        (.store (dataInAsi false) 0 vBit) = .ok t ∧
      ∃ k, t.RefillAnswers k (accessTo false 0x22000) 0 vBit := by
  obtain ⟨t, ht, k, -, hiff⟩ := refill_answers (q := accessTo false 0x22000) mappedMmu_fits
    mappedMmu_unlocked (by decide +kernel) vBit
  exact ⟨t, ht, k, hiff.mpr (Or.inl (by decide))⟩

/-- **A page of 64 Kbytes of instructions is not found**, not even at the address that missed. -/
theorem retried_misses :
    (mappedMmu 0).ContextsFit ∧
      (∃ way < waysFa, ((mappedMmu 0).dSide.fa way).locked = false) ∧
      ((mappedMmu 0).mmuLookup (accessTo true 0x22000) .MMU_TRANSLATE).2.1 =
        .fastInstructionAccessMMUMiss ∧
      ∃ t, ((mappedMmu 0).mmuLookup (accessTo true 0x22000) .MMU_TRANSLATE).2.2.step
          (.store (dataInAsi true) 0 (vBit ||| (1 <<< 61))) = .ok t ∧
        (t.mmuLookup (accessTo true 0x22000) .MMU_TRANSLATE).2.1 =
          .fastInstructionAccessMMUMiss :=
  ⟨mappedMmu_fits, mappedMmu_unlocked, by decide +kernel, _, rfl, by decide +kernel⟩

end MMU

end Flexus
