import Flexus.UArch.V9State

/-!
# What a failed speculation gives back

A checkpoint is taken of one state of a core; the core runs on, and whatever has become of it,
the registers are cleared and the checkpoint is read back. This module compares what the core
answers afterwards with what it answered when the checkpoint was taken.

Most of it comes back: every register of the file but the four floating-point condition codes,
the trap stack, the windows and the other privileged registers, and the program counters. Three
things do not. `%ver` is cleared and never saved; the number of the window that `readPR`
answers is that of the youngest instruction, while the saved one is that of the oldest; and the
floating-point condition codes are taken from `%fsr`, where a compare leaves them unwritten.
-/

namespace Flexus

namespace UArch

/-! ### Architectural values -/

namespace RegisterCore

variable (c : RegisterCore)

/-- The value of a register for the oldest instruction in flight. -/
def architecturalValue (t : RegisterType) (n : ℕ) : RegisterValue :=
  c.theRegisters t (((c.theMapTables t).theAssignedRegisters n).headD 0)

/-- The value of a register for the youngest instruction in flight. -/
def speculativeValue (t : RegisterType) (n : ℕ) : RegisterValue :=
  c.theRegisters t ((c.theMapTables t).theMappings n)

end RegisterCore

/-- `boost::get<uint64_t>`, of a value of which it is known that there is one. -/
def RegisterValue.toWord : RegisterValue → BitVec 64
  | .word v => v
  | .bits _ => 0

/-- `boost::get<std::bitset<8> >`, of a value of which it is known that there is one. -/
def RegisterValue.toBits : RegisterValue → BitVec 8
  | .word _ => 0
  | .bits v => v

/-- **A core as it is between cycles**: every name has a register, whose value is of the type of
the register, and the sets of global registers are those that `%pstate` selects. -/
structure SoundCore extends RegisterCore where
  names : ∀ t, (theMapTables t).theNameCount = nameCount t
  assigned : ∀ t n, n < nameCount t → (theMapTables t).theAssignedRegisters n ≠ []
  words : ∀ t n, t ≠ .ccBits → n < nameCount t →
    toRegisterCore.architecturalValue t n =
      .word (toRegisterCore.architecturalValue t n).toWord
  bits : ∀ n, n < nameCount .ccBits →
    toRegisterCore.architecturalValue .ccBits n =
      .bits (toRegisterCore.architecturalValue .ccBits n).toBits
  window : theWindowMap.theCWP < 8
  architecturalWindow : theArchitecturalWindowMap.theCWP < 8
  alternateGlobals : theArchitecturalWindowMap.theAG = decide (thePSTATE &&& 0x1 ≠ 0)
  interruptGlobals : theArchitecturalWindowMap.theIG = decide (thePSTATE &&& 0x800 ≠ 0)
  mmuGlobals : theArchitecturalWindowMap.theMG = decide (thePSTATE &&& 0x400 ≠ 0)

/-! ### The registers of the file -/

open RegisterCore

theorem poke_apply (f : RegisterType → ℕ → RegisterValue) (r : MappedReg) (v : RegisterValue)
    (t : RegisterType) (n : ℕ) :
    poke f r v t n = if t = r.theType ∧ n = r.theIndex then v else f t n := by
  unfold poke
  by_cases ht : t = r.theType
  · subst ht
    by_cases hn : n = r.theIndex
    · simp [hn]
    · simp [hn]
  · simp [ht]

theorem pokeAll_apply (t : RegisterType) (vs : List (BitVec 64)) :
    ∀ (i : ℕ) (f : RegisterType → ℕ → RegisterValue) (t' : RegisterType) (n : ℕ),
      pokeAll t i vs f t' n =
        if t' = t ∧ i ≤ n ∧ n < i + vs.length then .word (vs.getD (n - i) 0) else f t' n := by
  induction vs with
  | nil =>
    intro i f t' n
    have hno : ¬ (t' = t ∧ i ≤ n ∧ n < i + ([] : List (BitVec 64)).length) := by
      simp only [List.length_nil]
      omega
    rw [if_neg hno]
    rfl
  | cons v vs ih =>
    intro i f t' n
    rw [pokeAll, ih, poke_apply]
    by_cases ht : t' = t
    · rcases lt_trichotomy n i with hn | hn | hn
      · have h₁ : ¬ i + 1 ≤ n := by omega
        have h₂ : ¬ i ≤ n := by omega
        simp [h₁, h₂, hn.ne]
      · subst hn
        simp [ht]
      · obtain ⟨k, rfl⟩ : ∃ k, n = i + 1 + k := ⟨n - (i + 1), by omega⟩
        have hk : i + 1 + k - i = k + 1 := by omega
        have hlen : (i + 1 + k < i + 1 + vs.length) = (i + 1 + k < i + (v :: vs).length) := by
          simp only [List.length_cons, eq_iff_iff]
          omega
        have hle : i ≤ i + 1 + k := by omega
        have hne : i + 1 + k ≠ i := by omega
        simp [ht, hlen, hk, hle, hne]
    · simp [ht]

/-- A loop whose steps all succeed gives the list of what they give. -/
theorem mapM_eq_ok {ε α β : Type} {f : α → Except ε β} {g : α → β} :
    ∀ {l : List α}, (∀ a ∈ l, f a = .ok (g a)) → l.mapM f = .ok (l.map g)
  | [], _ => rfl
  | a :: l, h => by
    have ih : l.mapM f = .ok (l.map g) :=
      mapM_eq_ok fun b hb => h b (List.mem_cons_of_mem a hb)
    rw [List.mapM_cons, h a List.mem_cons_self, ih]
    rfl

namespace SoundCore

variable (c : SoundCore)

theorem mapArchitectural_eq (t : RegisterType) (n : ℕ) :
    (c.theMapTables t).mapArchitectural n =
      if n < nameCount t then .ok (((c.theMapTables t).theAssignedRegisters n).headD 0)
      else .error .name := by
  unfold PhysicalMap.mapArchitectural
  rw [c.names t]
  by_cases hn : n < nameCount t
  · obtain ⟨r, rest, hr⟩ := List.exists_cons_of_ne_nil (c.assigned t n hn)
    rw [if_pos hn, if_pos hn, hr]
    rfl
  · rw [if_neg hn, if_neg hn]

/-- A register of a number is read in the register that the oldest instruction has for it. -/
theorem readArchitecturalRegister_eq (t : RegisterType) (n : ℕ) :
    c.readArchitecturalRegister ⟨t, n⟩ false =
      if n < nameCount t then .ok (c.architecturalValue t n) else .error .name := by
  change (c.theMapTables t).mapArchitectural n >>= _ = _
  rw [c.mapArchitectural_eq]
  by_cases hn : n < nameCount t
  · rw [if_pos hn, if_pos hn]
    rfl
  · rw [if_neg hn, if_neg hn]
    rfl

theorem readWord_eq {t : RegisterType} {n : ℕ} (ht : t ≠ .ccBits) (hn : n < nameCount t) :
    c.readWord t n = .ok (c.architecturalValue t n).toWord := by
  unfold RegisterCore.readWord
  rw [c.readArchitecturalRegister_eq, if_pos hn, c.words t n ht hn]
  rfl

theorem getCCRArchitectural_eq :
    c.getCCRArchitectural = .ok ((c.architecturalValue .ccBits 0).toBits.setWidth 32) := by
  have hn : 0 < nameCount .ccBits := by decide
  have hval := c.bits 0 hn
  unfold RegisterCore.getCCRArchitectural
  rw [c.mapArchitectural_eq, if_pos hn]
  dsimp only
  rw [show c.peek ⟨.ccBits, ((c.theMapTables .ccBits).theAssignedRegisters 0).headD 0⟩ = _
    from hval]

/-- **What is saved.** -/
def saved : V9State where
  theGlobalRegs := (List.range 32).map fun i => (c.architecturalValue .rRegisters i).toWord
  theWindowRegs :=
    (List.range (8 * 16)).map fun i => (c.architecturalValue .rRegisters (i + 32)).toWord
  theFPRegs := (List.range 64).map fun i => (c.architecturalValue .fRegisters i).toWord
  thePC := c.pc
  theNPC := c.npc
  theTBA := c.theTBA
  theCWP := BitVec.ofNat 64 c.theArchitecturalWindowMap.theCWP
  theCCR := ((c.architecturalValue .ccBits 0).toBits.setWidth 32).setWidth 64
  theFPRS := c.theFPRS
  theFSR := c.theFSR
  thePSTATE := c.thePSTATE
  theASI := (c.architecturalValue .rRegisters kRegASI).toWord
  theGSR := (c.architecturalValue .rRegisters kRegGSR).toWord
  theTL := c.theTL.setWidth 64
  thePIL := c.thePIL.setWidth 64
  theCANSAVE := c.theCANSAVE.setWidth 64
  theCANRESTORE := c.theCANRESTORE.setWidth 64
  theCLEANWIN := c.theCLEANWIN.setWidth 64
  theOTHERWIN := c.theOTHERWIN.setWidth 64
  theWSTATE := c.theWSTATE.setWidth 64
  theY := (c.architecturalValue .rRegisters kRegY).toWord
  theTTE := fun i =>
    { theTPC := c.getTPC (BitVec.ofNat 32 (i + 1))
      theTNPC := c.getTNPC (BitVec.ofNat 32 (i + 1))
      theTSTATE := c.getTSTATE (BitVec.ofNat 32 (i + 1))
      theTT := (c.getTT (BitVec.ofNat 32 (i + 1))).setWidth 64 }

theorem getv9State_eq : c.getv9State = .ok c.saved := by
  have hr : nameCount .rRegisters = 163 := rfl
  have hf : nameCount .fRegisters = 64 := rfl
  have hread : ∀ i < 163,
      c.readWord .rRegisters i = .ok (c.architecturalValue .rRegisters i).toWord :=
    fun i hi => c.readWord_eq (by decide) (hr ▸ hi)
  have hglobals := mapM_eq_ok (l := List.range 32) fun i hi =>
    hread i (by have := List.mem_range.1 hi; omega)
  have hwindows := mapM_eq_ok (l := List.range (8 * 16)) fun i hi =>
    hread (i + 32) (by have := List.mem_range.1 hi; omega)
  have hfloats := mapM_eq_ok (l := List.range 64) fun i hi =>
    c.readWord_eq (t := .fRegisters) (by decide) (hf ▸ List.mem_range.1 hi)
  unfold RegisterCore.getv9State
  rw [hglobals, hwindows, hfloats, c.getCCRArchitectural_eq, hread kRegASI (by decide),
    hread kRegGSR (by decide), hread kRegY (by decide)]
  rfl

end SoundCore

/-! ### The condition codes in `%fsr` -/

/-- The condition codes that were put into `%fsr` are found there. -/
theorem fccOf_mergeFcc (fsr : BitVec 64) (f : Fin 4 → BitVec 8) (k : Fin 4) :
    fccOf (mergeFcc fsr (f 0) (f 1) (f 2) (f 3)) k = f k &&& 3 := by
  apply BitVec.eq_of_getLsbD_eq
  intro i hi
  match k with
  | 0 => interval_cases i <;> simp [fccOf, mergeFcc, fccShift]
  | 1 => interval_cases i <;> simp [fccOf, mergeFcc, fccShift]
  | 2 => interval_cases i <;> simp [fccOf, mergeFcc, fccShift]
  | 3 => interval_cases i <;> simp [fccOf, mergeFcc, fccShift]

/-- To put into `%fsr` the condition codes that are there changes nothing. -/
theorem mergeFcc_fccOf (fsr : BitVec 64) :
    mergeFcc fsr (fccOf fsr 0) (fccOf fsr 1) (fccOf fsr 2) (fccOf fsr 3) = fsr := by
  apply BitVec.eq_of_getLsbD_eq
  intro i hi
  interval_cases i <;> simp [fccOf, mergeFcc, fccShift]

theorem setWidth_and_three (v : BitVec 8) :
    (v &&& 3).setWidth 64 &&& 3 = v.setWidth 64 &&& 3 := by
  apply BitVec.eq_of_getLsbD_eq
  intro i hi
  by_cases h : i < 2
  · interval_cases i <;> simp
  · have h3 : (3 : BitVec 64).getLsbD i = false := by
      rw [show (3 : BitVec 64) = BitVec.ofNat 64 3 from rfl, BitVec.getLsbD_ofNat]
      have hbit : Nat.testBit 3 i = false := Nat.testBit_lt_two_pow (by
        have := Nat.pow_le_pow_right (n := 2) (by decide) (show 2 ≤ i by omega)
        omega)
      simp [hbit]
    rw [BitVec.getLsbD_and, BitVec.getLsbD_and, h3, Bool.and_false, Bool.and_false]

/-- The condition codes put into `%fsr` leave it as it is if they are those it has. -/
theorem mergeFcc_eq_iff (fsr : BitVec 64) (f : Fin 4 → BitVec 8) :
    mergeFcc fsr (f 0) (f 1) (f 2) (f 3) = fsr ↔ ∀ k, f k &&& 3 = fccOf fsr k := by
  constructor
  · intro h k
    have hk := fccOf_mergeFcc fsr f k
    rw [h] at hk
    exact hk.symm
  · intro h
    have hmask : mergeFcc fsr (f 0) (f 1) (f 2) (f 3) =
        mergeFcc fsr (f 0 &&& 3) (f 1 &&& 3) (f 2 &&& 3) (f 3 &&& 3) := by
      simp only [mergeFcc, setWidth_and_three]
    rw [hmask, h 0, h 1, h 2, h 3, mergeFcc_fccOf]

/-! ### The restored core -/

/-- The registers of `doAbortSpeculation`: the core is cleared and a checkpoint read back. -/
def RegisterCore.abortSpeculation (c : RegisterCore) (v : V9State) : RegisterCore :=
  c.resetv9.restorev9State v

/-- The register file that `restorev9State` makes of a cleared one. -/
def V9State.fileOf (v : V9State) (f : RegisterType → ℕ → RegisterValue) :
    RegisterType → ℕ → RegisterValue :=
  let f := pokeAll .rRegisters 0 v.theGlobalRegs f
  let f := pokeAll .rRegisters 32 v.theWindowRegs f
  let f := pokeAll .fRegisters 0 v.theFPRegs f
  let f := poke f (ccReg 0) (.bits (v.theCCR.setWidth 8))
  let f := poke f (ccReg 1) (.bits (fccOf v.theFSR 0))
  let f := poke f (ccReg 2) (.bits (fccOf v.theFSR 1))
  let f := poke f (ccReg 3) (.bits (fccOf v.theFSR 2))
  let f := poke f (ccReg 4) (.bits (fccOf v.theFSR 3))
  let f := poke f (rReg kRegASI) (.word v.theASI)
  let f := poke f (rReg kRegGSR) (.word v.theGSR)
  poke f (rReg kRegY) (.word v.theY)

theorem RegisterCore.restorev9State_theRegisters (c : RegisterCore) (v : V9State) :
    (c.restorev9State v).theRegisters = v.fileOf c.theRegisters :=
  rfl

theorem trapEntry_restored {w : ℕ} (a : ℕ → BitVec w) (aTL : BitVec 32) :
    trapEntry (setTrapEntry (setTrapEntry (setTrapEntry (setTrapEntry (setTrapEntry
      (fun _ => 0) (trapEntry a 1) 1) (trapEntry a 2) 2) (trapEntry a 3) 3) (trapEntry a 4) 4)
      (trapEntry a 5) 5) aTL = trapEntry a aTL := by
  by_cases h : aTL = 0 ∨ aTL > 5
  · simp only [trapEntry, h, if_true]
  · have hcases : aTL = 1 ∨ aTL = 2 ∨ aTL = 3 ∨ aTL = 4 ∨ aTL = 5 := by
      push Not at h
      bv_omega
    rcases hcases with rfl | rfl | rfl | rfl | rfl <;>
      simp [trapEntry, setTrapEntry]

/-- The globals of a restored core are those that `%pstate` selects. -/
theorem selectGlobals_zero (new : BitVec 64) (n : ℕ) :
    selectGlobals 0 new (RegisterWindowMap.setCWP {} n) =
      { theCWP := n
        theAG := decide (new &&& 0x1 ≠ 0)
        theIG := decide (new &&& 0x800 ≠ 0)
        theMG := decide (new &&& 0x400 ≠ 0) } := by
  have hflag : ∀ m : BitVec 64, (if new &&& m ≠ 0 &&& m then decide (new &&& m ≠ 0) else false) =
      decide (new &&& m ≠ 0) := by
    intro m
    have hzero : (0 : BitVec 64) &&& m = 0 := BitVec.zero_and
    rw [hzero]
    by_cases h : new &&& m ≠ 0
    · rw [if_pos h]
    · rw [if_neg h]
      exact (decide_eq_false h).symm
  simp only [selectGlobals, RegisterWindowMap.setCWP, RegisterWindowMap.mk.injEq, true_and]
  exact ⟨hflag _, hflag _, hflag _⟩

/-- A rotated read is a read of the register with the rotated number. -/
theorem RegisterCore.readArchitecturalRegister_rotate (c : RegisterCore) (r : UnmappedReg) :
    c.readArchitecturalRegister r true =
      c.readArchitecturalRegister (c.theArchitecturalWindowMap.rotate r) false :=
  rfl

theorem fcc_lt_nameCount (k : Fin 4) : k.val + 1 < nameCount .ccBits := by
  have hk := k.isLt
  change k.val + 1 < 5
  omega

theorem ofNat_fcc (k : Fin 4) : Fin.ofNat 4 (k.val + 1 - 1) = k :=
  Fin.ext (Nat.mod_eq_of_lt k.isLt)

namespace SoundCore

variable (c c' : SoundCore)

/-- The core after a failed speculation, which began in the first core and has come to the
second one. -/
abbrev restored : RegisterCore := c'.abortSpeculation c.saved

theorem restored_theMapTables (t : RegisterType) :
    (c.restored c').theMapTables t =
      .reset (nameCount t) (c'.theMapTables t).theRegisterCount := by
  rw [← c'.names t]
  rfl

theorem setWidth_theCWP :
    (c.saved.theCWP.setWidth 32).toNat = c.theArchitecturalWindowMap.theCWP := by
  have h := c.architecturalWindow
  simp only [saved, BitVec.toNat_setWidth, BitVec.toNat_ofNat]
  omega

theorem restored_theArchitecturalWindowMap :
    (c.restored c').theArchitecturalWindowMap = c.theArchitecturalWindowMap := by
  refine (selectGlobals_zero c.thePSTATE _).trans ?_
  rw [c.setWidth_theCWP, ← c.alternateGlobals, ← c.interruptGlobals, ← c.mmuGlobals]

theorem restored_theWindowMap :
    (c.restored c').theWindowMap = c.theArchitecturalWindowMap :=
  c.restored_theArchitecturalWindowMap c'

/-- **Every register comes back but the floating-point condition codes**, which become what
`%fsr` has for them. -/
theorem restored_theRegisters {t : RegisterType} {n : ℕ} (hn : n < nameCount t) :
    (c.restored c').theRegisters t n =
      if t = .ccBits ∧ n ≠ 0 then .bits (fccOf c.theFSR (Fin.ofNat 4 (n - 1)))
      else c.architecturalValue t n := by
  have hvalue : t ≠ .ccBits →
      RegisterValue.word (c.architecturalValue t n).toWord = c.architecturalValue t n :=
    fun ht => (c.words t n ht hn).symm
  unfold restored RegisterCore.abortSpeculation
  rw [RegisterCore.restorev9State_theRegisters]
  simp only [V9State.fileOf, poke_apply, pokeAll_apply]
  cases t with
  | rRegisters =>
    have hlt : n < 163 := hn
    have hY : kRegY = 160 := rfl
    have hASI : kRegASI = 161 := rfl
    have hGSR : kRegGSR = 162 := rfl
    have hcases : n < 32 ∨ (∃ k < 128, n = k + 32) ∨ n = 160 ∨ n = 161 ∨ n = 162 := by
      by_cases h : n < 32
      · exact .inl h
      · by_cases h' : n < 160
        · exact .inr (.inl ⟨n - 32, by omega, by omega⟩)
        · omega
    rcases hcases with h | ⟨k, hk, rfl⟩ | rfl | rfl | rfl
    · have h32 : ¬ 32 ≤ n := by omega
      have hne : n ≠ 160 ∧ n ≠ 161 ∧ n ≠ 162 := by omega
      simp [rReg, ccReg, saved, hY, hASI, hGSR, h, h32, hne, hvalue]
    · have hne : k ≠ 128 ∧ k ≠ 129 ∧ k ≠ 130 := by omega
      have h160 : k + 32 < 160 := by omega
      simp [rReg, ccReg, saved, hY, hASI, hGSR, hk, hne, h160, hvalue]
    all_goals simp [rReg, saved, hY, hASI, hGSR, hvalue]
  | fRegisters =>
    have hlt : n < 64 := hn
    simp [rReg, ccReg, saved, hlt, hvalue]
  | ccBits =>
    have hlt : n < 5 := hn
    interval_cases n
    · simp only [rReg, ccReg, reduceCtorEq, false_and, if_false, true_and,
        ne_eq, not_true_eq_false, and_false, if_true]
      simpa [saved] using (c.bits 0 hn).symm
    · rfl
    · rfl
    · rfl
    · rfl

/-- A register by its number, as it is read after the speculation. -/
theorem readArchitecturalRegister_restored (t : RegisterType) (n : ℕ) :
    (c.restored c').readArchitecturalRegister ⟨t, n⟩ false =
      if n < nameCount t then .ok ((c.restored c').theRegisters t n) else .error .name := by
  change ((c.restored c').theMapTables t).mapArchitectural n >>= _ = _
  rw [c.restored_theMapTables]
  unfold PhysicalMap.mapArchitectural PhysicalMap.reset
  by_cases hn : n < nameCount t
  · simp only [hn, if_true]
    rfl
  · simp only [hn, if_false]
    rfl

theorem fcc_restored (k : Fin 4) : (c.restored c').fcc k = .ok (fccOf c.theFSR k) := by
  have hk := fcc_lt_nameCount k
  have hmap : (c.restored c').map ⟨.ccBits, k + 1⟩ = .ok ⟨.ccBits, k + 1⟩ := by
    change ((c.restored c').theMapTables .ccBits).map (k + 1) >>= _ = _
    rw [c.restored_theMapTables]
    unfold PhysicalMap.map PhysicalMap.reset
    simp only [hk, if_true]
    rfl
  have hpeek : (c.restored c').peek ⟨.ccBits, k + 1⟩ = .bits (fccOf c.theFSR k) := by
    refine (c.restored_theRegisters c' hk).trans ?_
    rw [if_pos ⟨rfl, Nat.succ_ne_zero _⟩, ofNat_fcc]
  unfold RegisterCore.fcc
  simp only [hmap, hpeek]

theorem readFSR_restored : (c.restored c').readFSR = c.theFSR := by
  unfold RegisterCore.readFSR
  rw [c.fcc_restored c' 0, c.fcc_restored c' 1, c.fcc_restored c' 2, c.fcc_restored c' 3]
  exact mergeFcc_fccOf c.theFSR

theorem getCCRArchitectural_restored :
    (c.restored c').getCCRArchitectural = c.getCCRArchitectural := by
  have hn : 0 < nameCount .ccBits := by decide
  have hmap : ((c.restored c').theMapTables .ccBits).mapArchitectural 0 = .ok 0 := by
    rw [c.restored_theMapTables]
    rfl
  have hpeek : (c.restored c').peek ⟨.ccBits, 0⟩ =
      .bits (c.architecturalValue .ccBits 0).toBits := by
    refine (c.restored_theRegisters c' hn).trans ?_
    rw [if_neg (by simp)]
    exact c.bits 0 hn
  rw [c.getCCRArchitectural_eq]
  unfold RegisterCore.getCCRArchitectural
  simp only [hmap, hpeek]

/-- The privileged registers come back, but for the window and `%ver`. -/
theorem readPR_restored (n : ℕ) (h9 : n ≠ 9) (h31 : n ≠ 31) :
    (c.restored c').readPR n = c.readPR n := by
  have hwidth : ∀ v : BitVec 32, (v.setWidth 64).setWidth 32 = v := by simp
  have hTL : (c.restored c').theTL = c.theTL := hwidth c.theTL
  unfold RegisterCore.readPR
  split
  · rw [hTL]
    exact trapEntry_restored c.theTPC c.theTL
  · rw [hTL]
    exact trapEntry_restored c.theTNPC c.theTL
  · rw [hTL]
    exact trapEntry_restored c.theTSTATE c.theTL
  · have hTT := trapEntry_restored c.theTT c.theTL
    rw [← hwidth (trapEntry c.theTT 1), ← hwidth (trapEntry c.theTT 2),
      ← hwidth (trapEntry c.theTT 3), ← hwidth (trapEntry c.theTT 4),
      ← hwidth (trapEntry c.theTT 5)] at hTT
    rw [hTL]
    exact congrArg _ hTT
  · rfl
  · rfl
  · rw [hTL]
  · exact congrArg _ (hwidth c.thePIL)
  · exact absurd rfl h9
  · exact congrArg _ (hwidth c.theCANSAVE)
  · exact congrArg _ (hwidth c.theCANRESTORE)
  · exact congrArg _ (hwidth c.theCLEANWIN)
  · exact congrArg _ (hwidth c.theOTHERWIN)
  · exact congrArg _ (hwidth c.theWSTATE)
  · exact absurd rfl h31
  · rfl

/-- The program counters are saved as they are answered, and answered as they are saved once
the reorder buffer is empty. -/
theorem pc_restored : (c.restored c').pc = c.pc :=
  rfl

theorem npc_restored : (c.restored c').npc = c.npc :=
  rfl

end SoundCore

/-! ### What comes back -/

/-- Two cores answer every read of a register alike. -/
structure RegisterCore.SameReads (c d : RegisterCore) : Prop where
  readPR : ∀ n, d.readPR n = c.readPR n
  readFSR : d.readFSR = c.readFSR
  readArchitecturalRegister : ∀ r rotated,
    d.readArchitecturalRegister r rotated = c.readArchitecturalRegister r rotated
  getCCRArchitectural : d.getCCRArchitectural = c.getCCRArchitectural
  pc : d.pc = c.pc
  npc : d.npc = c.npc

/-- A checkpoint is taken of the first core and restored in the second, and every register is
answered as when the checkpoint was taken. -/
def RegisterCore.Restores (c c' : RegisterCore) : Prop :=
  ∃ v, c.getv9State = .ok v ∧ c.SameReads (c'.abortSpeculation v)

/-- **What has to hold of a core for its registers to come back**: `%ver` is zero; no window
has been opened or closed by an instruction in flight; and the floating-point condition codes
are those in `%fsr`, those of the oldest instruction and, unless one of them has not been
written yet, those of the youngest. -/
structure RegisterCore.Restorable (c : RegisterCore) : Prop where
  ver : c.theVER = 0
  window : c.theWindowMap.theCWP = c.theArchitecturalWindowMap.theCWP
  architecturalFcc : ∀ k : Fin 4,
    c.architecturalValue .ccBits (k + 1) = .bits (fccOf c.theFSR k)
  speculativeFcc : ∀ f : Fin 4 → BitVec 8,
    (∀ k : Fin 4, c.speculativeValue .ccBits (k + 1) = .bits (f k)) →
      ∀ k, f k &&& 3 = fccOf c.theFSR k

namespace SoundCore

variable (c c' : SoundCore)

theorem fcc_eq (k : Fin 4) :
    c.fcc k = match c.speculativeValue .ccBits (k + 1) with
      | .bits v => .ok v
      | .word _ => .error .badGet := by
  have hk := fcc_lt_nameCount k
  have hmap : c.map ⟨.ccBits, k + 1⟩ =
      .ok ⟨.ccBits, (c.theMapTables .ccBits).theMappings (k + 1)⟩ := by
    change (c.theMapTables .ccBits).map (k + 1) >>= _ = _
    unfold PhysicalMap.map
    rw [c.names, if_pos hk]
    rfl
  unfold RegisterCore.fcc
  rw [hmap]
  rfl

theorem speculativeValue_of_fcc {k : Fin 4} {v : BitVec 8} (h : c.fcc k = .ok v) :
    c.speculativeValue .ccBits (k + 1) = .bits v := by
  rw [c.fcc_eq] at h
  cases hs : c.speculativeValue .ccBits (k + 1) with
  | word w =>
    rw [hs] at h
    cases h
  | bits w =>
    rw [hs] at h
    injection h with h
    rw [h]

/-- `%fsr` is answered as it is held if the condition codes agree with it. -/
theorem readFSR_eq_iff :
    c.readFSR = c.theFSR ↔ ∀ f : Fin 4 → BitVec 8,
      (∀ k : Fin 4, c.speculativeValue .ccBits (k + 1) = .bits (f k)) →
        ∀ k, f k &&& 3 = fccOf c.theFSR k := by
  by_cases hall : ∃ f : Fin 4 → BitVec 8,
      ∀ k : Fin 4, c.speculativeValue .ccBits (k + 1) = .bits (f k)
  · obtain ⟨f, hf⟩ := hall
    have hfcc : ∀ k, c.fcc k = .ok (f k) := by
      intro k
      rw [c.fcc_eq, hf]
    have hread : c.readFSR = mergeFcc c.theFSR (f 0) (f 1) (f 2) (f 3) := by
      unfold RegisterCore.readFSR
      rw [hfcc 0, hfcc 1, hfcc 2, hfcc 3]
      rfl
    rw [hread, mergeFcc_eq_iff]
    constructor
    · intro h g hg k
      have hk := (hf k).symm.trans (hg k)
      injection hk with hk
      rw [← hk]
      exact h k
    · intro h
      exact h f hf
  · -- One of the registers holds no condition code: the exception is caught.
    have hread : c.readFSR = c.theFSR := by
      unfold RegisterCore.readFSR
      cases h0 : c.fcc 0 with
      | error => rfl
      | ok f0 =>
      cases h1 : c.fcc 1 with
      | error => rfl
      | ok f1 =>
      cases h2 : c.fcc 2 with
      | error => rfl
      | ok f2 =>
      cases h3 : c.fcc 3 with
      | error => rfl
      | ok f3 =>
        have hbits : ∀ k : Fin 4, ∃ v, c.speculativeValue .ccBits (k + 1) = .bits v := by
          intro k
          obtain rfl | rfl | rfl | rfl : k = 0 ∨ k = 1 ∨ k = 2 ∨ k = 3 := by
            revert k
            decide
          · exact ⟨f0, c.speculativeValue_of_fcc h0⟩
          · exact ⟨f1, c.speculativeValue_of_fcc h1⟩
          · exact ⟨f2, c.speculativeValue_of_fcc h2⟩
          · exact ⟨f3, c.speculativeValue_of_fcc h3⟩
        exact absurd (Classical.skolem.mp hbits) hall
    refine iff_of_true hread fun f hf => absurd ⟨f, hf⟩ hall

theorem readPR_window_iff :
    (c.restored c').readPR 9 = c.readPR 9 ↔
      c.theWindowMap.theCWP = c.theArchitecturalWindowMap.theCWP := by
  have hw := c.window
  have ha := c.architecturalWindow
  change (BitVec.ofNat 32 (c.restored c').theWindowMap.theCWP).setWidth 64 =
    (BitVec.ofNat 32 c.theWindowMap.theCWP).setWidth 64 ↔ _
  rw [c.restored_theWindowMap, ← BitVec.toNat_inj]
  simp only [BitVec.toNat_setWidth, BitVec.toNat_ofNat]
  omega

/-- A register comes back unless it is a condition code that `%fsr` does not have. -/
theorem readArchitecturalRegister_restored_eq
    (h : ∀ k : Fin 4, c.architecturalValue .ccBits (k + 1) = .bits (fccOf c.theFSR k))
    (r : UnmappedReg) (rotated : Bool) :
    (c.restored c').readArchitecturalRegister r rotated =
      c.readArchitecturalRegister r rotated := by
  have hplain : ∀ t n, (c.restored c').readArchitecturalRegister ⟨t, n⟩ false =
      c.readArchitecturalRegister ⟨t, n⟩ false := by
    intro t n
    rw [c.readArchitecturalRegister_restored, c.readArchitecturalRegister_eq]
    by_cases hn : n < nameCount t
    · rw [if_pos hn, if_pos hn, c.restored_theRegisters c' hn]
      by_cases hcc : t = .ccBits ∧ n ≠ 0
      · obtain ⟨rfl, h0⟩ := hcc
        have hn5 : n < 5 := hn
        obtain ⟨k, rfl⟩ : ∃ k : Fin 4, n = k.val + 1 := ⟨⟨n - 1, by omega⟩, by simp; omega⟩
        rw [if_pos ⟨rfl, h0⟩, ofNat_fcc, h k]
      · rw [if_neg hcc]
    · rw [if_neg hn, if_neg hn]
  cases rotated with
  | false => exact hplain r.theType r.theIndex
  | true =>
    rw [RegisterCore.readArchitecturalRegister_rotate,
      RegisterCore.readArchitecturalRegister_rotate, c.restored_theArchitecturalWindowMap]
    exact hplain _ _

variable {c c'}

theorem restorable_of_restores (h : c.Restores c'.toRegisterCore) : c.Restorable := by
  obtain ⟨v, hv, hsame⟩ := h
  obtain rfl : c.saved = v := by
    rw [c.getv9State_eq] at hv
    injection hv
  refine ⟨?_, ?_, ?_, ?_⟩
  · exact (hsame.readPR 31).symm
  · exact (c.readPR_window_iff c').1 (hsame.readPR 9)
  · intro k
    have hk := fcc_lt_nameCount k
    have hread := hsame.readArchitecturalRegister ⟨.ccBits, k + 1⟩ false
    rw [c.readArchitecturalRegister_restored, c.readArchitecturalRegister_eq, if_pos hk,
      if_pos hk, c.restored_theRegisters c' hk, if_pos ⟨rfl, Nat.succ_ne_zero _⟩,
      ofNat_fcc] at hread
    injection hread with hread
    exact hread.symm
  · exact c.readFSR_eq_iff.1 (hsame.readFSR.symm.trans (c.readFSR_restored c'))

theorem restores_of_restorable (h : c.Restorable) : c.Restores c'.toRegisterCore := by
  refine ⟨c.saved, c.getv9State_eq, ?_, ?_,
    c.readArchitecturalRegister_restored_eq c' h.architecturalFcc,
    c.getCCRArchitectural_restored c', c.pc_restored c', c.npc_restored c'⟩
  · intro n
    by_cases h9 : n = 9
    · subst h9
      exact (c.readPR_window_iff c').2 h.window
    by_cases h31 : n = 31
    · subst h31
      exact h.ver.symm
    exact c.readPR_restored c' n h9 h31
  · rw [c.readFSR_restored]
    exact (c.readFSR_eq_iff.2 h.speculativeFcc).symm

/-- **When aborting speculation restores the registers**: whatever the core has come to since
the checkpoint, every register is answered as when the checkpoint was taken if and only if the
core was restorable at that time. -/
theorem restores_iff_restorable (c c' : SoundCore) :
    c.Restores c'.toRegisterCore ↔ c.Restorable :=
  ⟨restorable_of_restores, restores_of_restorable⟩

end SoundCore

/-! ### A compare before the checkpoint -/

/-- A rename table of condition codes after the first compare has retired: `%fcc0` is in the
first register that was free. -/
def comparedTable : PhysicalMap :=
  { PhysicalMap.reset 5 9 with
    theMappings := Function.update (fun n => n) 1 5
    theFreeList := [6, 7, 8, 1]
    theAssignedRegisters := fun n => if n = 1 then [5] else if n < 5 then [n] else []
    theReverseMappings := fun r => if r = 1 then -1 else if r = 5 then 1 else
      if r < 5 then r else -1 }

/-- A core in which a floating-point compare has retired and nothing is in flight. -/
def comparedCore (fcc0 : BitVec 8) : SoundCore where
  theWindowMap := {}
  theArchitecturalWindowMap := {}
  theMapTables := fun t =>
    if t = .ccBits then comparedTable else .reset (nameCount t) (regFileSize 4 t)
  theRegisters := fun t n =>
    if t = .ccBits then .bits (if n = 5 then fcc0 else 0) else .word 0
  theRoundingMode := 0
  theTPC := fun _ => 0
  theTNPC := fun _ => 0
  theTSTATE := fun _ => 0
  theTT := fun _ => 0
  theTBA := 0
  thePSTATE := 0
  theTL := 0
  thePIL := 0
  theCANSAVE := 0
  theCANRESTORE := 0
  theCLEANWIN := 0
  theOTHERWIN := 0
  theWSTATE := 0
  theVER := 0
  theFPRS := 0
  theFSR := 0
  thePC := 0
  theNPC := none
  theROB := []
  theDispatchInteractions := []
  names := by
    intro t
    cases t <;> rfl
  assigned := by
    intro t n hn
    cases t with
    | rRegisters => simp [PhysicalMap.reset, hn]
    | fRegisters => simp [PhysicalMap.reset, hn]
    | ccBits =>
      have hn5 : n < 5 := hn
      interval_cases n <;> simp [comparedTable]
  words := by
    intro t n ht _
    simp [RegisterCore.architecturalValue, ht, RegisterValue.toWord]
  bits := by
    intro n _
    simp [RegisterCore.architecturalValue, RegisterValue.toBits]
  window := by decide
  architecturalWindow := by decide
  alternateGlobals := rfl
  interruptGlobals := rfl
  mmuGlobals := rfl

/-- A compare that found equality leaves nothing to forget. -/
example : (comparedCore 0).Restores (comparedCore 1).toRegisterCore := by
  refine SoundCore.restores_of_restorable ⟨rfl, rfl, by decide, ?_⟩
  have hfields : ∀ k, (0 : BitVec 8) &&& 3 = fccOf 0 k := by decide
  intro f hf k
  have hzero : (comparedCore 0).speculativeValue .ccBits (k + 1) = .bits 0 := by
    simp [RegisterCore.speculativeValue, comparedCore]
  have hk := (hf k).symm.trans hzero
  injection hk with hk
  rw [hk]
  exact hfields k

/-- **A compare that found less is forgotten**: the checkpoint is taken, nothing else is done,
and the speculation aborted. -/
theorem comparedCore_not_restored :
    ¬ (comparedCore 1).Restores (comparedCore 1).toRegisterCore := by
  intro h
  have hfcc := (SoundCore.restorable_of_restores h).architecturalFcc 0
  revert hfcc
  decide

end UArch

end Flexus
