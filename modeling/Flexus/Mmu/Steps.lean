import Flexus.Mmu.Tables

/-!
# What a step does to an entry

Of an entry, a step leaves everything but the used bit alone, or it demaps the entry, or it puts
another one in its place (`Flexus.MMU.Mmu.step_entry`). Which entry is put where is said once, for
each of the three registers through which it is done (`Flexus.MMU.Mmu.Fills`).
-/

namespace Flexus

open Function

namespace MMU

open Flexus.Lib

variable {m t : Mmu} {s : TlbSide} {e e' : TlbEntry} {va va' ctxt data val asi : BitVec 64}
  {isFetch f : Bool} {k k' : Slot} {q : Request} {ev : MmuEvent}

namespace Mmu

@[simp]
theorem side_setSide_self (m : Mmu) (f : Bool) (s : TlbSide) : (m.setSide f s).side f = s := by
  cases f <;> rfl

theorem side_setSide_of_ne (h : f ≠ isFetch) (m : Mmu) (s : TlbSide) :
    (m.setSide isFetch s).side f = m.side f := by
  cases f <;> cases isFetch <;> first | rfl | exact absurd rfl h

end Mmu

/-! ### Lookups -/

namespace Mmu

@[simp]
theorem get_missed (m : Mmu) (q : Request) (f : Bool) (k : Slot) :
    ((m.missed q).side f).get k = (m.side f).get k := by
  cases hq : q.isFetch <;> cases f <;> cases k <;> simp [missed, hq, side, TlbSide.get]

@[simp]
theorem context_missed (m : Mmu) (q : Request) (klass : AsiClass) :
    (m.missed q).context klass = m.context klass := by
  cases hq : q.isFetch <;> cases klass <;> simp [missed, hq, context]

@[simp]
theorem get_violated (m : Mmu) (q : Request) (f : Bool) (k : Slot) :
    ((m.violated q).side f).get k = (m.side f).get k := by
  cases f <;> cases k <;> rfl

theorem get_used (m : Mmu) (q : Request) (k : Slot) (f : Bool) (k' : Slot) :
    ((m.side f).get k').SameButUsed (((m.used q k).side f).get k') := by
  rw [used]
  by_cases hf : f = q.isFetch
  · subst hf
    rw [side_setSide_self, TlbSide.get_set]
    split
    · rename_i hk
      rw [hk]
      exact TlbEntry.sameButUsed_use _
    · exact TlbEntry.SameButUsed.refl _
  · rw [side_setSide_of_ne hf]
    exact TlbEntry.SameButUsed.refl _

/-- **Lookups that translate** change used bits only. -/
theorem get_mmuLookup (m : Mmu) (q : Request) (b : Bool) (f : Bool) (k : Slot) :
    ((m.side f).get k).SameButUsed (((m.mmuLookup q (translating b)).2.2.side f).get k) := by
  cases b with
  | false =>
    cases hfind : m.find q <;> simp only [mmuLookup, translating, hfind] <;>
      exact TlbEntry.SameButUsed.refl _
  | true =>
    cases hfind : m.find q with
    | none =>
      simp only [mmuLookup, translating, if_true, hfind, get_missed]
      exact TlbEntry.SameButUsed.refl _
    | some k' =>
      simp only [mmuLookup, translating, if_true, hfind]
      split
      · rw [get_violated]
        exact get_used m q k' f k
      · exact get_used m q k' f k

end Mmu

/-! ### Victims -/

theorem firstWay_some {p : ℕ → Bool} {way : ℕ} (h : firstWay p = some way) :
    way < waysFa ∧ p way = true :=
  ⟨List.mem_range.mp (List.mem_of_find?_eq_some h), List.find?_some h⟩

theorem firstWay_none {p : ℕ → Bool} (h : firstWay p = none) {way : ℕ} (hway : way < waysFa) :
    p way = false := by
  rw [firstWay, List.find?_eq_none] at h
  exact Bool.not_eq_true _ ▸ h way (List.mem_range.mpr hway)

/-- **The victim** in the fully associative table is not both valid and locked, and apart from it
used bits are cleared at most. -/
theorem mmuFaChoose_some {fa fa' : ℕ → TlbEntry} {way : ℕ} (h : mmuFaChoose fa = some (way, fa')) :
    way < waysFa ∧ ((fa way).valid = true → (fa way).locked = false) ∧
      ∀ i, (fa i).SameButUsed (fa' i) := by
  rw [mmuFaChoose] at h
  split at h
  · rename_i i hi
    cases h
    obtain ⟨hway, hp⟩ := firstWay_some hi
    refine ⟨hway, fun hv => ?_, fun i => TlbEntry.SameButUsed.refl _⟩
    rw [hv] at hp
    exact Bool.noConfusion hp
  · split at h
    · rename_i i hi
      cases h
      obtain ⟨hway, hp⟩ := firstWay_some hi
      rw [Bool.and_eq_true, Bool.not_eq_true'] at hp
      exact ⟨hway, fun _ => hp.1, fun i => TlbEntry.SameButUsed.refl _⟩
    · rw [Option.map_eq_some_iff] at h
      obtain ⟨i, hi, heq⟩ := h
      cases heq
      obtain ⟨hway, hp⟩ := firstWay_some hi
      rw [Bool.not_eq_true'] at hp
      exact ⟨hway, fun _ => (TlbEntry.sameButUsed_unuse _).locked_eq.trans hp,
        fun i => TlbEntry.sameButUsed_unuse _⟩

/-- There is a victim unless all entries are valid and locked. -/
theorem mmuFaChoose_isSome {fa : ℕ → TlbEntry} {way : ℕ} (hway : way < waysFa)
    (h : (fa way).valid = true → (fa way).locked = false) :
    (mmuFaChoose fa).isSome = true := by
  cases hchoose : mmuFaChoose fa with
  | some r => rfl
  | none =>
    rw [mmuFaChoose] at hchoose
    split at hchoose
    · cases hchoose
    · rename_i hinvalid
      split at hchoose
      · cases hchoose
      · rw [Option.map_eq_none_iff] at hchoose
        have hvalid := firstWay_none hinvalid hway
        have hlocked := firstWay_none hchoose hway
        rw [Bool.not_eq_false'] at hvalid hlocked
        rw [← (TlbEntry.sameButUsed_unuse _).locked_eq, h hvalid] at hlocked
        cases hlocked

/-- Which of the two ways is the victim when both are valid: the counter alternates. -/
def nextWay (lfsr : BitVec 64) : ℕ := if lfsr &&& 1 = 0 then 1 else 0

theorem twoWayChoose_fst (t : ℕ → TlbEntry) (isFetch : Bool) (tagAccess lfsr : BitVec 64) :
    (twoWayChoose t isFetch tagAccess lfsr).1 =
      if (t (index2w isFetch 0 tagAccess)).valid = false then index2w isFetch 0 tagAccess
      else if (t (index2w isFetch 1 tagAccess)).valid = false then index2w isFetch 1 tagAccess
      else index2w isFetch (nextWay lfsr) tagAccess := by
  have hparity : ((lfsr + 1) % 4) &&& 1 ≠ 0 ↔ lfsr &&& 1 = 0 := by
    have hone : (1 : BitVec 64).toNat = 1 := rfl
    have hfour : (4 : BitVec 64).toNat = 4 := rfl
    have hzero : (0 : BitVec 64).toNat = 0 := rfl
    rw [Ne, ← BitVec.toNat_inj, ← BitVec.toNat_inj]
    simp only [BitVec.toNat_and, BitVec.toNat_umod, BitVec.toNat_add, hone, hfour, hzero,
      Nat.and_one_is_mod]
    omega
  rw [twoWayChoose]
  simp only [Bool.not_eq_true', hparity, nextWay]
  split
  · rfl
  · split
    · rfl
    · split <;> rfl

/-! ### Demaps -/

namespace TlbEntry

theorem demapped_demapped (e : TlbEntry) : e.demapped.demapped = e.demapped := by
  have hdata : e.data &&& ~~~vBit &&& ~~~vBit = e.data &&& ~~~vBit := by
    rw [BitVec.and_assoc, BitVec.and_self]
  rw [demapped, demapped, hdata]

end TlbEntry

namespace TlbSide

theorem get_demapSlot (s : TlbSide) (ctxt va : BitVec 64) (k k' : Slot) :
    (s.demapSlot ctxt va k).get k' =
      if k' = k ∧ (s.get k').hits ctxt va then (s.get k').demapped else s.get k' := by
  rw [demapSlot]
  by_cases hhits : (s.get k).hits ctxt va = true
  · rw [if_pos hhits, get_set]
    by_cases hk : k' = k
    · rw [if_pos hk, hk, if_pos ⟨rfl, hhits⟩]
    · rw [if_neg hk, if_neg fun h => hk h.1]
  · have hnot : ¬(k' = k ∧ (s.get k').hits ctxt va = true) := by
      rintro ⟨rfl, h⟩
      exact hhits h
    rw [if_neg hhits, if_neg hnot]

theorem get_foldl_demapSlot (ctxt va : BitVec 64) (l : List Slot) (s : TlbSide) (k : Slot) :
    (l.foldl (fun s k => s.demapSlot ctxt va k) s).get k =
      if k ∈ l ∧ (s.get k).hits ctxt va then (s.get k).demapped else s.get k := by
  induction l generalizing s with
  | nil => simp
  | cons a l ih =>
    rw [List.foldl_cons, ih, get_demapSlot]
    by_cases hhits : (s.get k).hits ctxt va = true
    · by_cases hk : k = a
      · -- what comes later in the list finds the entry demapped already
        simp only [hk] at hhits ⊢
        simp only [hhits, and_self, if_true, List.mem_cons, true_or, TlbEntry.demapped_demapped,
          ite_self]
      · simp only [hk, if_false, hhits, and_true, List.mem_cons, false_or]
    · simp only [hhits, and_false, if_false, Bool.false_eq_true]

/-- **A demap of a page** demaps the entries that it finds and that hit. -/
theorem get_demapPage (s : TlbSide) (isFetch : Bool) (ctxt va : BitVec 64) (k : Slot) :
    (s.demapPage isFetch ctxt va).get k =
      if k ∈ slots isFetch va ∧ (s.get k).hits ctxt va then (s.get k).demapped else s.get k :=
  get_foldl_demapSlot ctxt va _ s k

theorem get_demapContext (s : TlbSide) (context : BitVec 32) (k : Slot) :
    (s.demapContext context).get k =
      if (s.get k).tag &&& 0x1FFF = context.setWidth 64 then (s.get k).demapped else s.get k := by
  cases k <;> rfl

end TlbSide

/-- The kind of a demap. -/
def demapType (va : BitVec 64) : BitVec 64 := (va >>> 6) &&& 0x3

/-- The class of a demap. -/
def demapClass (va : BitVec 64) : AsiClass := AsiClass.ofBits ((va >>> 4) &&& 0x3)

namespace Mmu

/-- **A demap of a page.** -/
theorem demap_page (m : Mmu) (isFetch : Bool) (h : demapType va = 0) :
    m.demap isFetch va = m.setSide isFetch
      ((m.side isFetch).demapPage isFetch (m.context (demapClass va)) (va &&& ~~~0x1FFF)) := by
  rw [demapType] at h
  rw [demap, if_pos h]
  rfl

theorem get_demap (m : Mmu) (isFetch : Bool) (va : BitVec 64) (f : Bool) (k : Slot) :
    ((m.demap isFetch va).side f).get k = (m.side f).get k ∨
      ((m.demap isFetch va).side f).get k = ((m.side f).get k).demapped := by
  by_cases hf : f = isFetch
  · subst hf
    by_cases hpage : demapType va = 0
    · rw [demap_page m f hpage, side_setSide_self, TlbSide.get_demapPage]
      split
      · exact Or.inr rfl
      · exact Or.inl rfl
    · rw [demap]
      rw [demapType] at hpage
      rw [if_neg hpage]
      split
      · rw [side_setSide_self, TlbSide.get_demapContext]
        split
        · exact Or.inr rfl
        · exact Or.inl rfl
      · exact Or.inl rfl
  · refine Or.inl ?_
    by_cases hpage : demapType va = 0
    · rw [demap_page m isFetch hpage, side_setSide_of_ne hf]
    · rw [demap]
      rw [demapType] at hpage
      rw [if_neg hpage]
      split
      · rw [side_setSide_of_ne hf]
      · rfl

end Mmu

/-! ### Fills -/

/-- What is stored in the data TLB differs from the value at most in the used bit. -/
theorem dataInValue_or_uBit (val : BitVec 64) :
    Mmu.dataInValue val ||| uBit = val ||| uBit := by
  rw [Mmu.dataInValue]
  split
  · rw [BitVec.or_assoc, BitVec.or_self]
  · rfl

/-- **A step puts an entry in a place.** -/
inductive Mmu.Fills (m : Mmu) : MmuEvent → Bool → Slot → TlbEntry → Prop
  /-- A locked translation, or one of a large page, goes to the fully associative table of data. -/
  | dtlbFa {val : BitVec 64} {way : ℕ} {fa : ℕ → TlbEntry}
      (hkind : isSet lBit val = true ∨ MMU.sizeOf val ≠ 0)
      (hway : mmuFaChoose m.dSide.fa = some (way, fa)) :
      Fills m (.store 0x5C 0 val) false (.fa way)
        ⟨Mmu.maskedTag m.dSide.regs.tagAccess (MMU.sizeOf val), Mmu.dataInValue val⟩
  /-- Any other goes to one of the two ways for data. -/
  | dtlb2w {val : BitVec 64} (hlock : isSet lBit val = false) (hsize : MMU.sizeOf val = 0) :
      Fills m (.store 0x5C 0 val) false
        (.twoWay (twoWayChoose m.dSide.twoWay false m.dSide.regs.tagAccess m.lfsr).1)
        ⟨Mmu.maskedTag m.dSide.regs.tagAccess (MMU.sizeOf val), Mmu.dataInValue val⟩
  /-- Every translation for instructions goes to one of the two ways. -/
  | itlb2w {val : BitVec 64} :
      Fills m (.store 0x54 0 val) true
        (.twoWay (twoWayChoose m.iSide.twoWay true m.iSide.regs.tagAccess m.lfsr).1)
        ⟨m.iSide.regs.tagAccess, val ||| uBit⟩
  /-- Software may write to the fully associative table of data itself. -/
  | dtlbAccess {va val : BitVec 64} {way : ℕ} :
      Fills m (.store 0x5D va val) false (.fa way)
        ⟨Mmu.maskedTag m.dSide.regs.tagAccess (MMU.sizeOf val), val⟩

/-- The event is a demap. -/
def MmuEvent.Demaps : MmuEvent → Prop
  | .lookup _ _ => False
  | .store asi _ _ => asi = 0x5F ∨ asi = 0x57

namespace Mmu

theorem isSet_lBit_dataInValue (val : BitVec 64) :
    isSet lBit (dataInValue val) = isSet lBit val := by
  rw [← isSet_lBit_or_uBit, dataInValue_or_uBit, isSet_lBit_or_uBit]

theorem isSet_vBit_dataInValue (val : BitVec 64) :
    isSet vBit (dataInValue val) = isSet vBit val := by
  rw [← isSet_vBit_or_uBit, dataInValue_or_uBit, isSet_vBit_or_uBit]

theorem sizeOf_dataInValue (val : BitVec 64) :
    MMU.sizeOf (dataInValue val) = MMU.sizeOf val := by
  rw [← sizeOf_or_uBit, dataInValue_or_uBit, sizeOf_or_uBit]

/-- **A store to the data in register for data** fills a place, and leaves the rest alone. -/
theorem dtlbDataIn_ok (h : m.dtlbDataIn val = .ok t) :
    t.iSide = m.iSide ∧ t.dSide.regs = m.dSide.regs ∧ (∀ klass, t.context klass = m.context klass) ∧
      ∃ k e, m.Fills (.store 0x5C 0 val) false k e ∧ t.dSide.get k = e ∧
        ∀ k' ≠ k, (m.dSide.get k').SameButUsed (t.dSide.get k') := by
  rw [dtlbDataIn] at h
  simp only [isSet_lBit_dataInValue] at h
  split at h
  · rename_i hkind
    simp only [Bool.or_eq_true, bne_iff_ne] at hkind
    cases hchoose : mmuFaChoose m.dSide.fa with
    | none =>
      rw [hchoose] at h
      cases h
    | some r =>
      obtain ⟨way, fa⟩ := r
      rw [hchoose] at h
      cases h
      refine ⟨rfl, rfl, fun klass => by cases klass <;> rfl, .fa way, _,
        .dtlbFa hkind hchoose, ?_, fun k' hk' => ?_⟩
      · simp [TlbSide.get]
      · cases k' with
        | twoWay idx => exact TlbEntry.SameButUsed.refl _
        | fa i =>
          have hi : i ≠ way := fun hi => hk' (hi ▸ rfl)
          simp only [TlbSide.get, update_of_ne hi]
          exact (mmuFaChoose_some hchoose).2.2 i
  · rename_i hkind
    simp only [Bool.or_eq_true, bne_iff_ne, not_or, not_not, Bool.not_eq_true] at hkind
    cases h
    refine ⟨rfl, rfl, fun klass => by cases klass <;> rfl, .twoWay _, _,
      .dtlb2w hkind.1 hkind.2, ?_, fun k' hk' => ?_⟩
    · simp [TlbSide.get]
    · cases k' with
      | fa i => exact TlbEntry.SameButUsed.refl _
      | twoWay idx =>
        have hidx : idx ≠ (twoWayChoose m.dSide.twoWay false m.dSide.regs.tagAccess m.lfsr).1 :=
          fun hidx => hk' (hidx ▸ rfl)
        simp only [TlbSide.get, update_of_ne hidx]
        exact TlbEntry.SameButUsed.refl _

/-- **A store to the data in register for instructions** fills one of two ways, whatever it is
that is stored. -/
theorem itlbDataIn_ok (h : m.itlbDataIn val = .ok t) :
    t.dSide = m.dSide ∧ t.iSide.regs = m.iSide.regs ∧ (∀ klass, t.context klass = m.context klass) ∧
      t.iSide.fa = m.iSide.fa ∧ t.iSide.twoWay =
        update m.iSide.twoWay
          (twoWayChoose m.iSide.twoWay true m.iSide.regs.tagAccess m.lfsr).1
          ⟨m.iSide.regs.tagAccess, val ||| uBit⟩ := by
  rw [itlbDataIn, itlbDataInSized, if_neg (not_not.mpr rfl)] at h
  cases h
  exact ⟨rfl, rfl, fun klass => by cases klass <;> rfl, rfl, rfl⟩

theorem get_itlbDataIn (h : m.itlbDataIn val = .ok t) (k : Slot) :
    t.iSide.get k =
      if k = .twoWay (twoWayChoose m.iSide.twoWay true m.iSide.regs.tagAccess m.lfsr).1 then
        ⟨m.iSide.regs.tagAccess, val ||| uBit⟩
      else m.iSide.get k := by
  obtain ⟨-, -, -, hfa, htwo⟩ := itlbDataIn_ok h
  cases k with
  | fa way => simp [TlbSide.get, hfa]
  | twoWay idx => simp [TlbSide.get, htwo, update_apply]

theorem dtlbDataAccess_ok (h : m.dtlbDataAccess va val = .ok t) :
    t.iSide = m.iSide ∧ ∃ way, t.dSide.get (.fa way) =
        ⟨maskedTag m.dSide.regs.tagAccess (MMU.sizeOf val), val⟩ ∧
      ∀ k' ≠ Slot.fa way, t.dSide.get k' = m.dSide.get k' := by
  rw [dtlbDataAccess] at h
  split at h
  · cases h
    refine ⟨rfl, ((va >>> 3) &&& 0x1FF).toNat, ?_, fun k' hk' => ?_⟩
    · simp [TlbSide.get]
    · cases k' with
      | twoWay idx => rfl
      | fa i =>
        have hi : i ≠ ((va >>> 3) &&& 0x1FF).toNat := fun hi => hk' (hi ▸ rfl)
        simp only [TlbSide.get, update_of_ne hi]
  · cases h

/-- **What a step does to an entry**: nothing but to the used bit, or a demap, or another entry. -/
theorem step_entry (h : m.step ev = .ok t) (f : Bool) (k : Slot) :
    ((m.side f).get k).SameButUsed ((t.side f).get k) ∨
      (ev.Demaps ∧ (t.side f).get k = ((m.side f).get k).demapped) ∨
      m.Fills ev f k ((t.side f).get k) := by
  have hsame : ∀ {s s' : TlbSide}, s = s' → (s.get k).SameButUsed (s'.get k) :=
    fun hs => hs ▸ TlbEntry.SameButUsed.refl _
  cases ev with
  | lookup q b =>
    cases h
    exact Or.inl (get_mmuLookup m q b f k)
  | store asi va val =>
    rw [step, mmuStore] at h
    split at h
    · split at h <;> cases h <;> refine Or.inl ?_ <;> cases f <;> cases k <;>
        exact TlbEntry.SameButUsed.refl _
    · split at h <;> cases h <;> refine Or.inl ?_ <;> cases f <;> cases k <;>
        exact TlbEntry.SameButUsed.refl _
    · rename_i hasi
      split at h
      · rename_i hva
        obtain ⟨hi, -, -, k', e, hfill, hget, hrest⟩ := dtlbDataIn_ok h
        cases f with
        | true => exact Or.inl (hsame hi.symm)
        | false =>
          by_cases hk : k = k'
          · refine Or.inr (Or.inr ?_)
            have hev : MmuEvent.store asi va val = .store 0x5C 0 val := by
              have hasi' : asi = 0x5C := BitVec.toNat_inj.mp hasi
              rw [hva, hasi']
            rw [hev, hk]
            exact hget.symm ▸ hfill
          · exact Or.inl (hrest k hk)
      · cases h
    · rename_i hasi
      obtain ⟨hi, way, hget, hrest⟩ := dtlbDataAccess_ok h
      cases f with
      | true => exact Or.inl (hsame hi.symm)
      | false =>
        by_cases hk : k = .fa way
        · refine Or.inr (Or.inr ?_)
          have hasi' : asi = 0x5D := BitVec.toNat_inj.mp hasi
          rw [hasi', hk]
          exact hget.symm ▸ Fills.dtlbAccess
        · exact Or.inl (hrest k hk ▸ TlbEntry.SameButUsed.refl _)
    · rename_i hasi
      split at h
      · rename_i hva
        cases f with
        | false => exact Or.inl (hsame (itlbDataIn_ok h).1.symm)
        | true =>
          have hget := get_itlbDataIn h k
          split at hget
          · rename_i hk
            refine Or.inr (Or.inr ?_)
            have hev : MmuEvent.store asi va val = .store 0x54 0 val := by
              have hasi' : asi = 0x54 := BitVec.toNat_inj.mp hasi
              rw [hva, hasi']
            rw [hev, hk]
            rw [hk] at hget
            exact hget.symm ▸ Fills.itlb2w
          · exact Or.inl (hget.symm ▸ TlbEntry.SameButUsed.refl _)
      · cases h
    · rename_i hasi
      cases h
      rcases get_demap m false va f k with hk | hk
      · exact Or.inl (hk ▸ TlbEntry.SameButUsed.refl _)
      · exact Or.inr (Or.inl ⟨Or.inl (BitVec.toNat_inj.mp hasi), hk⟩)
    · rename_i hasi
      cases h
      rcases get_demap m true va f k with hk | hk
      · exact Or.inl (hk ▸ TlbEntry.SameButUsed.refl _)
      · exact Or.inr (Or.inl ⟨Or.inr (BitVec.toNat_inj.mp hasi), hk⟩)
    · cases h
      exact Or.inl (TlbEntry.SameButUsed.refl _)

end Mmu

end MMU

end Flexus
