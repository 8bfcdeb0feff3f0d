import Flexus.Mmu.Locked

/-!
# Invalid entries

A lookup compares tags and asks for no valid bit, so it may find an entry that is invalid. What a
demap leaves has the tag zero, which is that of the lowest page of context zero, of the size that
the entry keeps. A lookup finds valid entries only, if the tag of its address is not that of an
invalid entry it searches (`Flexus.MMU.Mmu.Clear`); where all that is invalid has been demapped,
this is to say that its context is not zero, or that its address is not low
(`Flexus.MMU.clear_iff`).

With the same condition, a page that has been demapped is not found until it is filled again
(`Flexus.MMU.demapped_missed`).
-/

namespace Flexus

namespace MMU

open Flexus.Lib

variable {m m₀ s t u : Mmu} {isFetch f : Bool} {k : Slot} {e : TlbEntry}
  {va va' ctxt asi val : BitVec 64} {q : Request} {ev : MmuEvent}

/-! ### The condition -/

/-- **The tag of an address is not that of an invalid entry**, among those that are searched. -/
def Mmu.Clear (m : Mmu) (q : Request) : Prop :=
  ∀ k ∈ slots q.isFetch q.va, ((m.side q.isFetch).get k).valid = false →
    ((m.side q.isFetch).get k).tag ≠ m.context q.klass |||
        (q.va &&& ~~~pageMask (MMU.sizeOf ((m.side q.isFetch).get k).data)) ∧
      ((m.side q.isFetch).get k).tag ≠ vBit |||
        (q.va &&& ~~~pageMask (MMU.sizeOf ((m.side q.isFetch).get k).data))

instance (m : Mmu) (q : Request) : Decidable (m.Clear q) :=
  inferInstanceAs (Decidable (∀ k ∈ slots q.isFetch q.va, _ = false → _ ≠ _ ∧ _ ≠ _))

theorem TlbEntry.hits_eq_false : e.hits ctxt va = false ↔
    e.tag ≠ ctxt ||| (va &&& ~~~pageMask (MMU.sizeOf e.data)) ∧
      e.tag ≠ vBit ||| (va &&& ~~~pageMask (MMU.sizeOf e.data)) := by
  rw [TlbEntry.hits, Bool.or_eq_false_iff, beq_eq_false_iff_ne, beq_eq_false_iff_ne]

/-- **A clear lookup hits valid entries only.** -/
theorem Mmu.Clear.valid (h : m.Clear q) (hfind : m.find q = some k) :
    ((m.side q.isFetch).get k).valid = true := by
  obtain ⟨hk, hhits⟩ := TlbSide.find_some hfind
  by_contra hvalid
  rw [Bool.not_eq_true] at hvalid
  rw [TlbEntry.hits_eq_false.mpr (h k hk hvalid)] at hhits
  cases hhits

/-! ### What has been demapped -/

/-- **All that is invalid has been demapped**: it has the tag zero. -/
def Mmu.Erased (m : Mmu) : Prop :=
  ∀ f k, ((m.side f).get k).valid = false → ((m.side f).get k).tag = 0

/-- What is stored to a data in register, or to an entry, is valid. -/
def Mmu.FillsValid (_ : Mmu) : MmuEvent → Prop
  | .lookup _ _ => True
  | .store asi _ val => asi = 0x5C ∨ asi = 0x54 ∨ asi = 0x5D → isSet vBit val = true

theorem Mmu.Fills.valid_of (h : m.Fills ev f k e) (hev : m.FillsValid ev) : e.valid = true := by
  cases h with
  | dtlbFa hkind hway =>
    rw [TlbEntry.valid, Mmu.isSet_vBit_dataInValue]
    exact hev (Or.inl rfl)
  | dtlb2w hl hs =>
    rw [TlbEntry.valid, Mmu.isSet_vBit_dataInValue]
    exact hev (Or.inl rfl)
  | itlb2w =>
    rw [TlbEntry.valid, isSet_vBit_or_uBit]
    exact hev (Or.inr (Or.inl rfl))
  | dtlbAccess => exact hev (Or.inr (Or.inr rfl))

/-- A step keeps it that all that is invalid has been demapped. -/
theorem Mmu.Erased.step (h : m.Erased) (hev : m.FillsValid ev) (ht : m.step ev = .ok t) :
    t.Erased := by
  intro f k hvalid
  rcases Mmu.step_entry ht f k with hsame | ⟨-, hdemap⟩ | hfill
  · rw [← hsame.tag_eq]
    exact h f k (hsame.valid_eq.trans hvalid)
  · rw [hdemap]
    rfl
  · rw [hfill.valid_of hev] at hvalid
    cases hvalid

theorem erased_of_reachable (h0 : m₀.Erased)
    (hs : (mmuMachine m₀).ReachableWhen Mmu.FillsValid s) : s.Erased :=
  Machine.ReachableWhen.invariant (I := Mmu.Erased) h0 (fun _ _ _ h hev ht => h.step hev ht) hs

/-- **A high lookup**: its context is not zero, or its address is above the lowest page of the size
of every invalid entry that it searches. -/
def Mmu.High (m : Mmu) (q : Request) : Prop :=
  m.context q.klass ≠ 0 ∨ ∀ k ∈ slots q.isFetch q.va, ((m.side q.isFetch).get k).valid = false →
    q.va &&& ~~~pageMask (MMU.sizeOf ((m.side q.isFetch).get k).data) ≠ 0

/-- **Where all that is invalid has been demapped**, the lookups that are clear are the high ones. -/
theorem clear_iff (h : m.Erased) : m.Clear q ↔ m.High q := by
  constructor
  · intro hclear
    by_cases hctxt : m.context q.klass = 0
    · refine Or.inr fun k hk hvalid hlow => (hclear k hk hvalid).1 ?_
      rw [h q.isFetch k hvalid, hctxt, hlow]
      rfl
    · exact Or.inl hctxt
  · intro hor k hk hvalid
    rw [h q.isFetch k hvalid]
    constructor
    · intro hzero
      have hboth := BitVec.or_eq_zero_iff.mp hzero.symm
      rcases hor with hctxt | hhigh
      · exact hctxt hboth.1
      · exact hhigh k hk hvalid hboth.2
    · intro hzero
      have hboth := BitVec.or_eq_zero_iff.mp hzero.symm
      exact absurd hboth.1 (by decide)

/-! ### A page that has been demapped -/

/-- **An address is on the page of another**: what a lookup of it may find, in a context, a demap of
the other finds too. -/
def TlbSide.OnPage (s : TlbSide) (isFetch : Bool) (ctxt va va' : BitVec 64) : Prop :=
  ∀ k ∈ slots isFetch va', (s.get k).valid = true → (s.get k).hits ctxt va' = true →
    k ∈ slots isFetch va ∧ (s.get k).hits ctxt va = true

instance (s : TlbSide) (isFetch : Bool) (ctxt va va' : BitVec 64) :
    Decidable (s.OnPage isFetch ctxt va va') :=
  inferInstanceAs (Decidable (∀ k ∈ slots isFetch va', _ = true → _ = true →
    k ∈ slots isFetch va ∧ _ = true))

/-- Nothing valid is found for an address in a context. -/
def TlbSide.Absent (s : TlbSide) (isFetch : Bool) (ctxt va : BitVec 64) : Prop :=
  ∀ k ∈ slots isFetch va, (s.get k).valid = true → (s.get k).hits ctxt va = false

/-- **The page of an address is not filled** in a context: what is put in a place that a lookup of
it searches is not found by it. -/
def Mmu.NoRefill (isFetch : Bool) (ctxt va : BitVec 64) (m : Mmu) (ev : MmuEvent) : Prop :=
  ∀ k ∈ slots isFetch va, ∀ e, m.Fills ev isFetch k e → e.hits ctxt va = false

/-- **A demap of a page** leaves nothing valid for its addresses. -/
theorem absent_of_demap (htype : demapType va = 0)
    (hpage : (m.side isFetch).OnPage isFetch (m.context (demapClass va)) (va &&& ~~~0x1FFF) va') :
    ((m.demap isFetch va).side isFetch).Absent isFetch (m.context (demapClass va)) va' := by
  intro k hk hvalid
  rw [Mmu.demap_page m isFetch htype, Mmu.side_setSide_self, TlbSide.get_demapPage] at hvalid ⊢
  split at hvalid
  · rw [TlbEntry.demapped_valid] at hvalid
    cases hvalid
  · rename_i hnot
    rw [if_neg hnot, ← Bool.not_eq_true]
    exact fun hhits => hnot (hpage k hk hvalid hhits)

theorem Mmu.step_absent (h : (m.side isFetch).Absent isFetch ctxt va')
    (hev : Mmu.NoRefill isFetch ctxt va' m ev) (ht : m.step ev = .ok t) :
    (t.side isFetch).Absent isFetch ctxt va' := by
  intro k hk hvalid
  rcases Mmu.step_entry ht isFetch k with hsame | ⟨-, hdemap⟩ | hfill
  · rw [← hsame.hits_eq]
    exact h k hk (hsame.valid_eq.trans hvalid)
  · rw [hdemap, TlbEntry.demapped_valid] at hvalid
    cases hvalid
  · exact hev k hk _ hfill

/-- **A page that has been demapped is missed** until it is filled, by lookups that are clear. -/
theorem demapped_missed (htype : demapType va = 0)
    (hpage : (m.side isFetch).OnPage isFetch (m.context (demapClass va)) (va &&& ~~~0x1FFF) va')
    (hu : (mmuMachine (m.demap isFetch va)).ReachableWhen
      (Mmu.NoRefill isFetch (m.context (demapClass va)) va') u)
    (hq : q.isFetch = isFetch) (hva : q.va = va')
    (hctxt : u.context q.klass = m.context (demapClass va)) (hclear : u.Clear q) :
    u.find q = none := by
  have habsent : (u.side isFetch).Absent isFetch (m.context (demapClass va)) va' :=
    Machine.ReachableWhen.invariant
      (I := fun s => (s.side isFetch).Absent isFetch (m.context (demapClass va)) va')
      (absent_of_demap htype hpage) (fun _ _ _ h hev ht => Mmu.step_absent h hev ht) hu
  subst hq hva
  refine TlbSide.find_eq_none.mpr fun k hk => ?_
  cases hvalid : ((u.side q.isFetch).get k).valid with
  | true =>
    rw [hctxt]
    exact habsent k hk hvalid
  | false => exact TlbEntry.hits_eq_false.mpr (hclear k hk hvalid)

/-- The demap register of a side. -/
def demapAsi (isFetch : Bool) : BitVec 64 := if isFetch then 0x57 else 0x5F

theorem Mmu.step_demap (m : Mmu) (isFetch : Bool) (va val : BitVec 64) :
    m.step (.store (demapAsi isFetch) va val) = .ok (m.demap isFetch va) := by
  cases isFetch <;> rfl

/-- An MMU whose entries are all valid, and the first of which, in the fully associative table of
data, is for a page of 64 Kbytes in context zero. -/
def mappedMmu (page : BitVec 64) : Mmu where
  primaryContext := 0
  secondaryContext := 0
  dSide := ⟨fun _ => ⟨0x8001, vBit⟩,
    Function.update (fun _ => ⟨0x8001, vBit⟩) 0 ⟨page, vBit ||| (1 <<< 61)⟩, {}⟩
  iSide := ⟨fun _ => ⟨0x8001, vBit⟩, fun _ => ⟨0x8001, vBit⟩, {}⟩
  lfsr := 0

/-- A demap of an address in the page. -/
def demapPageOf (page : BitVec 64) : MmuEvent := .store (demapAsi false) (page ||| 0x20) 0

/-- A lookup of an address in the page. -/
def requestOf (page : BitVec 64) : Request :=
  { isFetch := false, va := page ||| 0x10, klass := .CLASS_ASI_NUCLEUS }

end MMU

end Flexus
