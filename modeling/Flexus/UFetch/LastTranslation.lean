import Flexus.Mmu.Refill

/-!
# The last translation of the fetch unit

The fetch unit keeps the last translation that it made, by the tag and set of the block, and does
not ask the processor again for the same block (`components/uFetch/uFetchImpl.cpp`). There is one
register for all threads, and it is told of nothing: not of a thread that changes its state, nor of
an MMU that is written to, nor of a squash.

So a lookup uses the address that a translation would give now, if and only if the block would have
been translated alike by whoever translated it last (`Flexus.UFetch.agrees_iff`). Before anything
is translated the register holds the block at address zero, whose translation is taken to have
failed; and a physical address of zero is taken for a failure at any time.
-/

namespace Flexus

namespace UFetch

open Flexus.Lib Flexus.MMU

/-! ### Translations -/

/-- `CPUState`. -/
structure CPUState where
  theTL : BitVec 32 := 0
  thePSTATE : BitVec 32 := 0
  deriving DecidableEq

/-- What a translation is asked for: `thePaddr` and `theException`. -/
structure Translation where
  thePaddr : BitVec 64
  theException : MmuException
  deriving DecidableEq

/-- What a fetch looks up. -/
def fetchRequest (aState : CPUState) (vaddr : BitVec 64) : Request where
  isFetch := true
  va := if aState.thePSTATE &&& 0x8 ≠ 0 then vaddr &&& 0xFFFFFFFF else vaddr
  klass := if aState.theTL = 0 then .CLASS_ASI_PRIMARY else .CLASS_ASI_NUCLEUS
  asi := 0x80
  priv := aState.thePSTATE &&& 0x4
  accessType := .load

/-- **`translate_MMUImpl`**, of a fetch that takes no exceptions. -/
def translate (mmu : Mmu) (aState : CPUState) (vaddr : BitVec 64) : Translation :=
  let r := mmu.mmuTranslate (fetchRequest aState vaddr) .MMU_TRANSLATE_PF
  ⟨r.1, r.2.1⟩

/-- The address that a translation gives, unless it fails. -/
def Translation.address (x : Translation) : Option (BitVec 64) :=
  if x.theException = .noException then some x.thePaddr else none

theorem Translation.address_eq_none {x : Translation} :
    x.address = none ↔ x.theException ≠ .noException := by
  rw [address, ite_eq_right_iff]
  simp

theorem Translation.address_eq_some {x : Translation} {a : BitVec 64} :
    x.address = some a ↔ x = ⟨a, .noException⟩ := by
  cases x with
  | mk thePaddr theException =>
    rw [address]
    split
    · rename_i hok
      rw [Option.some_inj, Translation.mk.injEq]
      exact (and_iff_left hok).symm
    · rename_i hfail
      refine iff_of_false (fun h => ?_) fun h => hfail (congrArg Translation.theException h)
      cases h

/-! ### The register -/

/-- The register of the fetch unit, and what translations depend on: the state and the MMU of each
thread. -/
structure FetchUnit where
  theLastVTagSet : BitVec 64 := 0
  theLastPhysical : BitVec 64 := 0
  theCPUState : ℕ → CPUState
  theMMUs : ℕ → Mmu

namespace FetchUnit

variable (s : FetchUnit)

/-- A translation for a thread. -/
def translate (anIndex : ℕ) (vaddr : BitVec 64) : Translation :=
  UFetch.translate (s.theMMUs anIndex) (s.theCPUState anIndex) vaddr

/-- **The address that `icacheLookup` uses** for a block, and the unit after it. There is none if
the translation is taken to have failed. -/
def blockAddress (theIndexShift anIndex : ℕ) (vaddr : BitVec 64) :
    Option (BitVec 64) × FetchUnit :=
  let tagset := vaddr >>> theIndexShift
  if tagset = s.theLastVTagSet then
    (if s.theLastPhysical = 0 then none else some s.theLastPhysical, s)
  else
    let paddr := (s.translate anIndex vaddr).thePaddr
    if paddr = 0 then (none, s)
    else (some paddr, { s with theLastPhysical := paddr, theLastVTagSet := tagset })

end FetchUnit

/-- `theBlockMask`. -/
def theBlockMask (theIndexShift : ℕ) : BitVec 64 := ~~~lowBits 64 theIndexShift

/-- What happens to a fetch unit, as far as translations go. An MMU changes by stores to its
registers, and when it is put back to a checkpoint, or to what it is in the simulator. -/
inductive FetchEvent
  | lookup (anIndex : ℕ) (anAddress : BitVec 64)
  | squash (anIndex : ℕ)
  | changeCPUState (anIndex : ℕ) (aState : CPUState)
  | changeMMU (anIndex : ℕ) (mmu : Mmu)

/-- What a lookup uses for the block of an address. -/
def FetchUnit.lookup (theIndexShift : ℕ) (s : FetchUnit) (anIndex : ℕ) (anAddress : BitVec 64) :
    Option (BitVec 64) × FetchUnit :=
  s.blockAddress theIndexShift anIndex (anAddress &&& theBlockMask theIndexShift)

/-- What an event does. -/
def FetchUnit.step (theIndexShift : ℕ) (s : FetchUnit) : FetchEvent → FetchUnit
  | .lookup anIndex anAddress => (s.lookup theIndexShift anIndex anAddress).2
  | .squash _ => s
  | .changeCPUState anIndex aState =>
    { s with theCPUState := Function.update s.theCPUState anIndex aState }
  | .changeMMU anIndex mmu => { s with theMMUs := Function.update s.theMMUs anIndex mmu }

/-! ### Its history -/

/-- A translation that has been made: of which block, by which state and MMU. -/
structure Load where
  block : BitVec 64
  state : CPUState
  mmu : Mmu

/-- What it gave. -/
def Load.translation (l : Load) : Translation := translate l.mmu l.state l.block

/-- **The last translation that was kept**, after an event: that of a lookup of another block,
unless it gave no address. -/
def FetchUnit.loadAfter (theIndexShift : ℕ) (s : FetchUnit) (l : Option Load) :
    FetchEvent → Option Load
  | .lookup anIndex anAddress =>
    let block := anAddress &&& theBlockMask theIndexShift
    if block = (l.elim 0 Load.block) ∨ (s.translate anIndex block).thePaddr = 0 then l
    else some ⟨block, s.theCPUState anIndex, s.theMMUs anIndex⟩
  | .squash _ | .changeCPUState _ _ | .changeMMU _ _ => l

/-- A fetch unit, with the last translation that was kept. -/
def fetchMachine (theIndexShift : ℕ) (s₀ : FetchUnit) :
    Machine (FetchUnit × Option Load) FetchEvent Empty where
  init := ({ s₀ with theLastVTagSet := 0, theLastPhysical := 0 }, none)
  step s ev := .ok (s.1.step theIndexShift ev, s.1.loadAfter theIndexShift s.2 ev)

variable {theIndexShift i : ℕ} {s s₀ : FetchUnit} {l : Option Load} {va block : BitVec 64}

theorem block_eq_iff (h : va &&& theBlockMask theIndexShift = va)
    (h' : block &&& theBlockMask theIndexShift = block) :
    va >>> theIndexShift = block >>> theIndexShift ↔ va = block := by
  constructor
  · intro hshift
    have habove := above_eq_of_ushiftRight hshift
    rw [theBlockMask] at h h'
    rw [← h, ← h', habove]
  · intro heq
    rw [heq]

theorem block_block (k : ℕ) (va : BitVec 64) :
    va &&& theBlockMask k &&& theBlockMask k = va &&& theBlockMask k := by
  rw [BitVec.and_assoc, BitVec.and_self]

theorem exception_of_thePaddr {mmu : Mmu} {aState : CPUState}
    (h : (translate mmu aState va).thePaddr ≠ 0) :
    (translate mmu aState va).theException = .noException := by
  rw [translate, Mmu.mmuTranslate] at h ⊢
  by_contra hexception
  exact h (if_neg hexception)

/-- **What the register holds**: the last translation that was kept, or the block zero. -/
structure Holds (theIndexShift : ℕ) (s : FetchUnit) (l : Option Load) : Prop where
  tagset : s.theLastVTagSet = (l.elim 0 Load.block) >>> theIndexShift
  physical : s.theLastPhysical = l.elim 0 fun l => l.translation.thePaddr
  aligned : (l.elim 0 Load.block) &&& theBlockMask theIndexShift = l.elim 0 Load.block
  kept : ∀ l' ∈ l, l'.translation.thePaddr ≠ 0

theorem Holds.hit_iff (h : Holds theIndexShift s l)
    (hva : va &&& theBlockMask theIndexShift = va) :
    va >>> theIndexShift = s.theLastVTagSet ↔ va = l.elim 0 Load.block := by
  rw [h.tagset]
  exact block_eq_iff hva h.aligned

theorem Holds.step (h : Holds theIndexShift s l) (ev : FetchEvent) :
    Holds theIndexShift (s.step theIndexShift ev) (s.loadAfter theIndexShift l ev) := by
  cases ev with
  | squash i => exact h
  | changeCPUState i aState => exact ⟨h.tagset, h.physical, h.aligned, h.kept⟩
  | changeMMU i mmu => exact ⟨h.tagset, h.physical, h.aligned, h.kept⟩
  | lookup i a =>
    rw [FetchUnit.step, FetchUnit.lookup, FetchUnit.blockAddress, FetchUnit.loadAfter]
    simp only [h.hit_iff (block_block theIndexShift a)]
    by_cases hhit : a &&& theBlockMask theIndexShift = l.elim 0 Load.block
    · rw [if_pos hhit, if_pos (Or.inl hhit)]
      exact h
    · rw [if_neg hhit]
      by_cases hzero : (s.translate i (a &&& theBlockMask theIndexShift)).thePaddr = 0
      · rw [if_pos hzero, if_pos (Or.inr hzero)]
        exact h
      · rw [if_neg hzero, if_neg fun hor => hor.elim hhit hzero]
        refine ⟨rfl, rfl, block_block theIndexShift a, ?_⟩
        intro l' hl'
        cases hl'
        exact hzero

theorem holds_of_reachable (h : (fetchMachine theIndexShift s₀).Reachable (s, l)) :
    Holds theIndexShift s l := by
  refine Machine.ReachableWhen.invariant
    (I := fun s : FetchUnit × Option Load => Holds theIndexShift s.1 s.2) ?_ ?_ h
  · refine ⟨?_, rfl, BitVec.zero_and, fun l' hl' => ?_⟩
    · exact (BitVec.zero_ushiftRight).symm
    · cases hl'
  · intro s ev t hs _ ht
    cases ht
    exact hs.step ev

/-! ### Agreement -/

/-- **The translation that was kept is still right**: the block is another one, and its address is
not zero; or whoever translated it would have been given then what is given now. At the block zero
nothing has been kept at first, and the translation fails. -/
def StillRight (theIndexShift : ℕ) (s : FetchUnit) (l : Option Load) (anIndex : ℕ)
    (anAddress : BitVec 64) : Prop :=
  let block := anAddress &&& theBlockMask theIndexShift
  if block = l.elim 0 Load.block then
    l.elim ((s.translate anIndex block).theException ≠ .noException) fun l =>
      l.translation = s.translate anIndex block
  else s.translate anIndex block ≠ ⟨0, .noException⟩

/-- **When the kept translation agrees with the MMU.** In every state of every run, a lookup uses
the address that translating its block for its thread gives at that moment, and takes the
translation to have failed if and only if it fails, exactly if the translation that was kept is
still right. -/
theorem agrees_iff (h : (fetchMachine theIndexShift s₀).Reachable (s, l)) (anIndex : ℕ)
    (anAddress : BitVec 64) :
    (s.lookup theIndexShift anIndex anAddress).1 =
        (s.translate anIndex (anAddress &&& theBlockMask theIndexShift)).address ↔
      StillRight theIndexShift s l anIndex anAddress := by
  have hholds := holds_of_reachable h
  rw [FetchUnit.lookup, FetchUnit.blockAddress, StillRight]
  simp only [hholds.hit_iff (block_block theIndexShift anAddress)]
  generalize anAddress &&& theBlockMask theIndexShift = block
  by_cases hhit : block = l.elim 0 Load.block
  · rw [if_pos hhit, if_pos hhit]
    cases l with
    | none =>
      have hfailed : s.theLastPhysical = 0 := hholds.physical
      rw [if_pos hfailed]
      exact eq_comm.trans Translation.address_eq_none
    | some l =>
      have hne : l.translation.thePaddr ≠ 0 := hholds.kept l rfl
      have hkept : s.theLastPhysical = l.translation.thePaddr := hholds.physical
      have hl : l.translation = ⟨l.translation.thePaddr, .noException⟩ :=
        Translation.address_eq_some.mp (if_pos (exception_of_thePaddr hne))
      rw [hkept, if_neg hne, eq_comm, Translation.address_eq_some, ← hl]
      exact eq_comm
  · rw [if_neg hhit, if_neg hhit]
    by_cases hzero : (s.translate anIndex block).thePaddr = 0
    · rw [if_pos hzero]
      refine eq_comm.trans (Translation.address_eq_none.trans (not_congr ?_))
      constructor
      · intro hok
        rw [← hzero, ← hok]
      · intro hx
        rw [hx]
    · rw [if_neg hzero]
      refine iff_of_true ?_ fun hx => hzero (by rw [hx])
      exact (if_pos (exception_of_thePaddr hzero)).symm

/-- A translation depends on the state of a thread only by whether its trap level is zero, and by
whether it masks addresses. -/
theorem translate_congr {mmu : Mmu} {aState aState' : CPUState}
    (hTL : aState.theTL = 0 ↔ aState'.theTL = 0)
    (hPSTATE : aState.thePSTATE &&& 0x8 ≠ 0 ↔ aState'.thePSTATE &&& 0x8 ≠ 0) :
    translate mmu aState va = translate mmu aState' va := by
  have hva : (fetchRequest aState va).va = (fetchRequest aState' va).va :=
    if_congr hPSTATE rfl rfl
  have hklass : (fetchRequest aState va).klass = (fetchRequest aState' va).klass :=
    if_congr hTL rfl rfl
  have hfind : mmu.find (fetchRequest aState va) = mmu.find (fetchRequest aState' va) := by
    rw [Mmu.find, Mmu.find, hva, hklass]
    rfl
  rw [translate, translate, Mmu.mmuTranslate, Mmu.mmuTranslate, Mmu.mmuLookup, Mmu.mmuLookup,
    hfind, hva]
  cases mmu.find (fetchRequest aState' va) <;> rfl

/-- **A thread may go on** in the block that it has translated, as long as its trap level stays
zero or not zero, its addresses stay masked or not masked, and its MMU stays as it is. -/
theorem stillRight_of_unchanged {l : Load} {anIndex : ℕ} {anAddress : BitVec 64}
    (hblock : anAddress &&& theBlockMask theIndexShift = l.block)
    (hTL : l.state.theTL = 0 ↔ (s.theCPUState anIndex).theTL = 0)
    (hPSTATE : l.state.thePSTATE &&& 0x8 ≠ 0 ↔ (s.theCPUState anIndex).thePSTATE &&& 0x8 ≠ 0)
    (hmmu : l.mmu = s.theMMUs anIndex) :
    StillRight theIndexShift s (some l) anIndex anAddress := by
  rw [StillRight]
  refine (if_pos hblock).mpr ?_
  have hsame : l.translation = s.translate anIndex (anAddress &&& theBlockMask theIndexShift) := by
    rw [Load.translation, FetchUnit.translate, hblock, hmmu]
    exact translate_congr hTL hPSTATE
  exact hsame

/-- An MMU that maps one page of instructions, in context zero. -/
def onePageMmu : Mmu :=
  { emptyMmu with
    iSide := { emptyMmu.iSide with
      twoWay := Function.update emptyMmu.iSide.twoWay 1 ⟨0x2000, vBit ||| 0x4000⟩ } }

/-- A fetch unit with one thread, which has looked up a block of the page. -/
def oneBlockUnit : FetchUnit where
  theLastVTagSet := 0x2000 >>> 6
  theLastPhysical := 0x4000
  theCPUState := fun _ => {}
  theMMUs := fun _ => onePageMmu

/-- The block that it has looked up. -/
def oneBlock : Load where
  block := 0x2000
  state := {}
  mmu := onePageMmu

theorem oneBlock_reachable :
    (fetchMachine 6 oneBlockUnit).Reachable (oneBlockUnit, some oneBlock) :=
  Machine.ReachableWhen.init.step (e := .lookup 0 0x2008) trivial rfl

/-- The block may be looked up again. -/
theorem oneBlock_agrees :
    (oneBlockUnit.lookup 6 0 0x2010).1 =
      (oneBlockUnit.translate 0 (0x2010 &&& theBlockMask 6)).address :=
  (agrees_iff oneBlock_reachable 0 0x2010).mpr
    (stillRight_of_unchanged (by decide) Iff.rfl Iff.rfl rfl)

/-- **The page has been demapped**: the block is still looked up under its old address. -/
theorem oneBlock_stale :
    ∃ mmu s l, onePageMmu.step (.store (demapAsi true) 0x2020 0) = .ok mmu ∧
      (fetchMachine 6 oneBlockUnit).Reachable (s, l) ∧ s.theMMUs 0 = mmu ∧
      (s.lookup 6 0 0x2010).1 = some 0x4000 ∧
      (s.translate 0 (0x2010 &&& theBlockMask 6)).theException = .fastInstructionAccessMMUMiss :=
  ⟨_, _, _, rfl, oneBlock_reachable.step (e := .changeMMU 0 _) trivial rfl, rfl,
    by decide +kernel, by decide +kernel⟩

end UFetch

end Flexus
