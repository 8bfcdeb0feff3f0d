import Flexus.Lib.Bits
import Flexus.UArch.V9State

/-!
# Traps and returns from traps

A trap is taken in the cycle after which nothing is left in flight (`CoreImpl::handleTrap`): a level
is added to the trap stack, the state of the core is saved there, and the core goes on in privileged
mode at the vector of the trap. A return takes the level away again and restores what it says
(`CoreImpl::handlePopTL`). Four registers are packed into one word on the way there and unpacked on
the way back.

What a trap has saved is still there when its return comes, whatever has happened in between and
however many traps have been taken and returned from, as long as these were nested. That follows
from what such a run leaves alone: the trap level and the entries of the stack below it.

The endianness of the trap handler is only ever switched on, never off, and the base address of the
vectors is cut off to 32 bits, with one bit too many at its lower end.
-/

namespace Flexus

open Lib

namespace UArch

/-! ### The core between two instructions -/

/-- The window maps of a core with nothing in flight: what the youngest instruction sees is what
has been retired. -/
structure SettledWindows where
  theWindowMap : RegisterWindowMap
  theArchitecturalWindowMap : RegisterWindowMap
  settled : theArchitecturalWindowMap.theCWP = theWindowMap.theCWP
  lt : theWindowMap.theCWP < kNumWindows

namespace SettledWindows

variable (w : SettledWindows)

/-- `setCWP`. -/
def setCWP (n : ℕ) (hn : n < kNumWindows) : SettledWindows where
  theWindowMap := w.theWindowMap.setCWP n
  theArchitecturalWindowMap := w.theArchitecturalWindowMap.setCWP n
  settled := rfl
  lt := hn

/-- `incrementCWP`, of both maps. -/
def incrementCWP : SettledWindows where
  theWindowMap := w.theWindowMap.incrementCWP
  theArchitecturalWindowMap := w.theArchitecturalWindowMap.incrementCWP
  settled := by simp only [RegisterWindowMap.incrementCWP, w.settled]
  lt := by
    simp only [RegisterWindowMap.incrementCWP, kNumWindows]
    split <;> omega

/-- `decrementCWP`, of both maps. -/
def decrementCWP : SettledWindows where
  theWindowMap := w.theWindowMap.decrementCWP
  theArchitecturalWindowMap := w.theArchitecturalWindowMap.decrementCWP
  settled := by simp only [RegisterWindowMap.decrementCWP, w.settled]
  lt := by
    have hlt := w.lt
    simp only [RegisterWindowMap.decrementCWP, kNumWindows] at hlt ⊢
    split <;> omega

/-- The globals that `setPSTATE` selects. -/
def selectGlobals (old new : BitVec 64) : SettledWindows where
  theWindowMap := RegisterCore.selectGlobals old new w.theWindowMap
  theArchitecturalWindowMap := RegisterCore.selectGlobals old new w.theArchitecturalWindowMap
  settled := w.settled
  lt := w.lt

end SettledWindows

/-- The program counters of the instruction that traps. -/
structure TrapInsn where
  pc : BitVec 64
  npc : BitVec 64
  deriving DecidableEq

/-- `CoreImpl` with nothing in flight, as far as traps go. Its registers are ready then, so that
those for the condition codes and for the address space can be read and written. -/
structure TrapCore where
  theWindows : SettledWindows
  theCCR : BitVec 8
  theASI : BitVec 64
  theTPC : ℕ → BitVec 64
  theTNPC : ℕ → BitVec 64
  theTSTATE : ℕ → BitVec 64
  theTT : ℕ → BitVec 32
  theTBA : BitVec 64
  thePSTATE : BitVec 64
  theTL : BitVec 32
  theCANSAVE : BitVec 32
  thePendingTrap : BitVec 32 := 0
  theTrapInstruction : Option TrapInsn := none
  thePopTLRequested : Bool := false
  theRedirectPC : Option (BitVec 64) := none

/-- What can go wrong when a trap is handled: the assertion about the trap level, and a trap that
no instruction has raised. -/
inductive TrapFault
  | redState
  | noInstruction
  deriving DecidableEq

namespace TrapCore

variable (c : TrapCore)

def getTPC : BitVec 64 := trapEntry c.theTPC c.theTL
def getTNPC : BitVec 64 := trapEntry c.theTNPC c.theTL
def getTSTATE : BitVec 64 := trapEntry c.theTSTATE c.theTL
def getTT : BitVec 32 := trapEntry c.theTT c.theTL

/-- `getCWP`. -/
def getCWP : BitVec 32 := BitVec.ofNat 32 c.theWindows.theWindowMap.theCWP

/-- `setPSTATE`. -/
def setPSTATE (aPSTATE : BitVec 64) : TrapCore :=
  { c with
    theWindows := c.theWindows.selectGlobals c.thePSTATE aPSTATE
    thePSTATE := aPSTATE }

/-- `takeTrap`, and the squash of all there is in flight that it asks for. -/
def takeTrap (x : TrapInsn) (aTrapNum : BitVec 32) : TrapCore :=
  { c with
    thePendingTrap := aTrapNum
    theTrapInstruction := some x }

/-- The four registers in one word. -/
def tstate : BitVec 64 :=
  c.theCCR.setWidth 64 <<< 32 ||| c.theASI <<< 24 ||| c.thePSTATE <<< 8 ||| c.getCWP.setWidth 64

/-- The level is added, and the state saved there. -/
def saveState (x : TrapInsn) : TrapCore :=
  let tl := c.theTL + 1
  { c with
    theTL := tl
    theTSTATE := setTrapEntry c.theTSTATE c.tstate tl
    theTPC := setTrapEntry c.theTPC
      (if c.thePSTATE &&& 8 ≠ 0 then x.pc &&& 0xFFFFFFFF else x.pc) tl
    theTNPC := setTrapEntry c.theTNPC
      (if c.thePSTATE &&& 8 ≠ 0 then x.npc &&& 0xFFFFFFFF else x.npc) tl
    theTT := setTrapEntry c.theTT c.thePendingTrap tl }

/-- The bits of the state of the processor that are the same for the handlers of all traps. -/
def maskedPSTATE (pstate : BitVec 64) : BitVec 64 :=
  let pstate := pstate &&& ~~~0x2A#64
  let pstate := pstate ||| 0x14
  let pstate := pstate ||| (pstate <<< 1 &&& 0x200)
  pstate &&& ~~~0xC01#64

/-- The state of the processor for the handler of a trap. -/
def trapPSTATE (pstate : BitVec 64) (thePendingTrap : BitVec 32) : BitVec 64 :=
  if thePendingTrap ≥ 0x64 ∧ thePendingTrap ≤ 0x6F then maskedPSTATE pstate ||| 0x400
  else if thePendingTrap = 0x60 then maskedPSTATE pstate ||| 0x800
  else maskedPSTATE pstate ||| 1

/-- The windows for the handler of a trap. -/
def trapWindows : SettledWindows :=
  if c.thePendingTrap = 0x24 then c.theWindows.incrementCWP
  else if c.thePendingTrap ≥ 0x80 ∧ c.thePendingTrap ≤ 0xBF then
    c.theWindows.setCWP ((c.getCWP + c.theCANSAVE + 2) &&& 0x7).toNat
      (by rw [BitVec.toNat_and]; exact Nat.lt_of_le_of_lt Nat.and_le_right (by decide))
  else if c.thePendingTrap ≥ 0xC0 ∧ c.thePendingTrap ≤ 0xFF then c.theWindows.decrementCWP
  else c.theWindows

/-- The address of the handler. -/
def vectorAddress : BitVec 64 :=
  c.theTBA &&& 0xFFFFC000#64 |||
    ((if c.theTL > 1 then 0x4000#32 else 0#32) ||| c.thePendingTrap <<< 5).setWidth 64

/-- **`handleTrap`**. -/
def handleTrap : Except TrapFault TrapCore :=
  if c.thePendingTrap = 0 then .ok c
  else if ¬ c.theTL + 1 < 5 then .error .redState
  else
    match c.theTrapInstruction with
    | none => .error .noInstruction
    | some x =>
      let c := c.saveState x
      let c := c.setPSTATE (trapPSTATE c.thePSTATE c.thePendingTrap)
      let c := { c with theWindows := c.trapWindows }
      .ok { c with
        theRedirectPC := some c.vectorAddress
        thePendingTrap := 0
        theTrapInstruction := none }

/-- `popTL`. -/
def popTL : TrapCore := { c with thePopTLRequested := true }

/-- The level is taken away, and what it says restored. -/
def restoreState : TrapCore :=
  let tstate := c.getTSTATE
  let cwp := (tstate &&& 0x7).setWidth 32
  let asi := (tstate >>> 24) &&& 0xFF
  let ccr := (tstate >>> 32) &&& 0xFF
  let pstate := (tstate >>> 8) &&& 0xFFF
  let c := { c with theTL := c.theTL - 1 }
  let c := c.setPSTATE pstate
  { c with
    theASI := asi
    theWindows := c.theWindows.setCWP cwp.toNat (by
      rw [BitVec.toNat_setWidth, BitVec.toNat_and]
      exact Nat.lt_of_le_of_lt (Nat.mod_le _ _)
        (Nat.lt_of_le_of_lt Nat.and_le_right (by decide)))
    theCCR := ccr.setWidth 8 }

/-- **`handlePopTL`**. -/
def handlePopTL : TrapCore :=
  if ¬ c.thePopTLRequested then c
  else
    let c := { c with thePopTLRequested := false }
    if c.theTL.toInt ≤ 0 ∨ c.theTL.toInt > 5 then c else c.restoreState

/-! ### What traps and returns are to do -/

/-- The state of the processor that SPARC V9 has for the handler of a trap, bit by bit: it runs
privileged, with the endianness that there is for traps, and with globals of its own for interrupts,
for misses of the MMU and for all others. -/
def entryBit (pstate : BitVec 64) (tt : BitVec 9) : ℕ → Bool
  | 0 => decide (tt ≠ 0x60 ∧ ¬ (0x64 ≤ tt ∧ tt ≤ 0x6F))
  | 1 => false
  | 2 => true
  | 3 => false
  | 4 => true
  | 5 => false
  | 9 => pstate.getLsbD 8
  | 10 => decide (0x64 ≤ tt ∧ tt ≤ 0x6F)
  | 11 => decide (tt = 0x60)
  | i => pstate.getLsbD i

/-- The window for the handler of a trap: the next one for a window that is not clean, the one to
spill, or the one to fill. -/
def entryCWP (cwp cansave : ℕ) (tt : BitVec 9) : ℕ :=
  if tt = 0x24 then (cwp + 1) % kNumWindows
  else if 0x80 ≤ tt ∧ tt ≤ 0xBF then (cwp + cansave + 2) % kNumWindows
  else if 0xC0 ≤ tt ∧ tt ≤ 0xFF then (cwp + kNumWindows - 1) % kNumWindows
  else cwp

/-- An address as it is saved: of 32 bits, if addresses are masked. -/
def maskedAddress (x : BitVec 64) : BitVec 64 :=
  if c.thePSTATE.getLsbD 3 then (x.setWidth 32).setWidth 64 else x

/-- The four registers are in the fields of a word that V9 has for them. -/
structure Saved (t : BitVec 64) : Prop where
  ccr : t.extractLsb' 32 8 = c.theCCR
  asi : (t.extractLsb' 24 8).setWidth 64 = c.theASI
  pstate : (t.extractLsb' 8 12).setWidth 64 = c.thePSTATE
  cwp : (t.extractLsb' 0 5).toNat = c.theWindows.theWindowMap.theCWP

/-- **The trap-entry state of SPARC V9.** -/
structure Enters (x : TrapInsn) (tt : BitVec 9) (d : TrapCore) : Prop where
  level : d.theTL.toNat = c.theTL.toNat + 1
  saved : c.Saved d.getTSTATE
  tpc : d.getTPC = c.maskedAddress x.pc
  tnpc : d.getTNPC = c.maskedAddress x.npc
  type : d.getTT = tt.setWidth 32
  others : ∀ i, i ≠ c.theTL.toNat → d.theTSTATE i = c.theTSTATE i ∧ d.theTPC i = c.theTPC i ∧
    d.theTNPC i = c.theTNPC i ∧ d.theTT i = c.theTT i
  pstate : ∀ i < 64, d.thePSTATE.getLsbD i = entryBit c.thePSTATE tt i
  cwp : d.theWindows.theWindowMap.theCWP =
    entryCWP c.theWindows.theWindowMap.theCWP c.theCANSAVE.toNat tt
  pc : d.theRedirectPC =
    some (c.theTBA.extractLsb' 15 49 ++ BitVec.ofBool (decide (0 < c.theTL)) ++ tt ++ 0#5)
  kept : d.theCCR = c.theCCR ∧ d.theASI = c.theASI ∧ d.theTBA = c.theTBA ∧
    d.theCANSAVE = c.theCANSAVE

/-- **What a return restores.** -/
structure Restored (d : TrapCore) : Prop where
  ccr : d.theCCR = c.theCCR
  asi : d.theASI = c.theASI
  pstate : d.thePSTATE = c.thePSTATE
  cwp : d.theWindows.theWindowMap.theCWP = c.theWindows.theWindowMap.theCWP
  level : d.theTL = c.theTL

/-- **What happens in the handler of a trap**: anything at all, but that the trap level and the
entries for it and the levels below are left alone; and traps, each of which is handled in the same
way and returned from. -/
inductive Handled : TrapCore → TrapCore → Prop
  | start (c : TrapCore) : Handled c c
  | other {c d e : TrapCore} (h : Handled c d) (hlevel : e.theTL = d.theTL)
      (hsaved : ∀ i < d.theTL.toNat, e.theTSTATE i = d.theTSTATE i) : Handled c e
  | trap {c d e f : TrapCore} {x : TrapInsn} {tt : BitVec 9} (h : Handled c d) (htt : tt ≠ 0)
      (htrap : (d.takeTrap x (tt.setWidth 32)).handleTrap = .ok e) (hbody : Handled e f) :
      Handled c f.popTL.handlePopTL

/-- The trap level is not the last one, and the registers fit into their fields. -/
def Fits : Prop := c.theTL.toNat < 4 ∧ c.thePSTATE.toNat < 2 ^ 12 ∧ c.theASI.toNat < 2 ^ 8

/-- **When a trap is entered as it is to be**: moreover, the handler is to be little-endian if the
core is, the vectors are within the first 32 bits, and the lowest bit that is kept of their base is
the one for the trap level. -/
def EntersRight : Prop :=
  c.Fits ∧ (c.thePSTATE.getLsbD 9 = true → c.thePSTATE.getLsbD 8 = true) ∧
    c.theTBA.toNat < 2 ^ 32 ∧ (c.theTBA.getLsbD 14 = true → 0 < c.theTL)

instance : Decidable c.Fits := inferInstanceAs (Decidable (_ ∧ _))

instance : Decidable c.EntersRight := inferInstanceAs (Decidable (_ ∧ _))

/-! ### The word with the four registers -/

section Fields

variable {c} {t x : BitVec 64}

theorem ushiftRight_and_lowBits (k n : ℕ) :
    (t >>> k) &&& lowBits 64 n = (t.extractLsb' k n).setWidth 64 := by
  refine BitVec.eq_of_getLsbD_eq fun i hi => ?_
  rw [BitVec.getLsbD_and, getLsbD_lowBits, BitVec.getLsbD_setWidth, BitVec.getLsbD_extractLsb',
    BitVec.getLsbD_ushiftRight, decide_eq_true hi, Bool.true_and, Bool.true_and, Bool.and_comm]

theorem getLsbD_of_lt {n i : ℕ} (h : x.toNat < 2 ^ n) (hi : n ≤ i) : x.getLsbD i = false :=
  Nat.testBit_lt_two_pow (Nat.lt_of_lt_of_le h (Nat.pow_le_pow_right (by decide) hi))

theorem toNat_getCWP : c.getCWP.toNat = c.theWindows.theWindowMap.theCWP := by
  have hlt := c.theWindows.lt
  rw [kNumWindows] at hlt
  rw [getCWP, BitVec.toNat_ofNat, Nat.mod_eq_of_lt (by omega)]

theorem getLsbD_tstate {i : ℕ} (hi : i < 64) : c.tstate.getLsbD i =
    (((!decide (i < 32) && c.theCCR.getLsbD (i - 32)) ||
      (!decide (i < 24) && c.theASI.getLsbD (i - 24))) ||
      (!decide (i < 8) && c.thePSTATE.getLsbD (i - 8)) || c.getCWP.getLsbD i) := by
  rw [tstate, BitVec.getLsbD_or, BitVec.getLsbD_or, BitVec.getLsbD_or, BitVec.getLsbD_shiftLeft,
    BitVec.getLsbD_shiftLeft, BitVec.getLsbD_shiftLeft, BitVec.getLsbD_setWidth,
    BitVec.getLsbD_setWidth, decide_eq_true hi, Bool.true_and, Bool.true_and, Bool.true_and,
    Bool.true_and, decide_eq_true (by omega : i - 32 < 64), Bool.true_and]

theorem getLsbD_getCWP {i : ℕ} (hi : 3 ≤ i) : c.getCWP.getLsbD i = false := by
  have hlt : c.getCWP.toNat < 2 ^ 3 := by
    rw [toNat_getCWP]
    exact c.theWindows.lt
  exact Nat.testBit_lt_two_pow (Nat.lt_of_lt_of_le hlt (Nat.pow_le_pow_right (by decide) hi))

theorem tstate_cwp {n : ℕ} (hn : 3 ≤ n) (hn8 : n ≤ 8) :
    (c.tstate.extractLsb' 0 n).toNat = c.theWindows.theWindowMap.theCWP := by
  have hfield : c.tstate.extractLsb' 0 n = c.getCWP.setWidth n := by
    refine BitVec.eq_of_getLsbD_eq fun i hi => ?_
    rw [BitVec.getLsbD_extractLsb', BitVec.getLsbD_setWidth, decide_eq_true hi, Nat.zero_add,
      getLsbD_tstate (by omega), decide_eq_true (by omega : i < 32),
      decide_eq_true (by omega : i < 24), decide_eq_true (by omega : i < 8)]
    rfl
  have hlt := c.theWindows.lt
  have hpow : 2 ^ 3 ≤ 2 ^ n := Nat.pow_le_pow_right (by decide) hn
  rw [hfield, BitVec.toNat_setWidth, toNat_getCWP, Nat.mod_eq_of_lt]
  exact Nat.lt_of_lt_of_le hlt hpow

theorem tstate_pstate : c.tstate.extractLsb' 8 12 = c.thePSTATE.setWidth 12 := by
  refine BitVec.eq_of_getLsbD_eq fun i hi => ?_
  rw [BitVec.getLsbD_extractLsb', BitVec.getLsbD_setWidth, decide_eq_true hi,
    getLsbD_tstate (by omega), decide_eq_true (by omega : 8 + i < 32),
    decide_eq_true (by omega : 8 + i < 24), decide_eq_false (by omega : ¬ 8 + i < 8),
    getLsbD_getCWP (by omega), Nat.add_sub_cancel_left, Bool.or_false]
  rfl

/-- The field of the address space has its lowest bits, if the processor state fits into its
own. -/
theorem tstate_asi (h : c.thePSTATE.toNat < 2 ^ 12) :
    c.tstate.extractLsb' 24 8 = c.theASI.setWidth 8 := by
  refine BitVec.eq_of_getLsbD_eq fun i hi => ?_
  rw [BitVec.getLsbD_extractLsb', BitVec.getLsbD_setWidth, decide_eq_true hi,
    getLsbD_tstate (by omega), decide_eq_true (by omega : 24 + i < 32),
    decide_eq_false (by omega : ¬ 24 + i < 24), getLsbD_of_lt h (by omega),
    getLsbD_getCWP (by omega), Nat.add_sub_cancel_left, Bool.and_false, Bool.or_false,
    Bool.or_false]
  rfl

/-- The field of the condition codes, if the others fit into their own. -/
theorem tstate_ccr (hp : c.thePSTATE.toNat < 2 ^ 12) (ha : c.theASI.toNat < 2 ^ 8) :
    c.tstate.extractLsb' 32 8 = c.theCCR := by
  refine BitVec.eq_of_getLsbD_eq fun i hi => ?_
  rw [BitVec.getLsbD_extractLsb', decide_eq_true hi, getLsbD_tstate (by omega),
    decide_eq_false (by omega : ¬ 32 + i < 32), getLsbD_of_lt ha (by omega),
    getLsbD_of_lt hp (by omega), getLsbD_getCWP (by omega), Nat.add_sub_cancel_left,
    Bool.and_false, Bool.and_false, Bool.or_false, Bool.or_false, Bool.or_false]
  rfl

/-- A word is what its low bits say if and only if it has no others. -/
theorem setWidth_setWidth_eq_iff {n : ℕ} :
    (x.setWidth n).setWidth 64 = x ↔ x.toNat < 2 ^ n := by
  have hlt : x.toNat % 2 ^ n < 2 ^ 64 :=
    Nat.lt_of_le_of_lt (Nat.mod_le _ _) x.isLt
  rw [← BitVec.toNat_inj, BitVec.toNat_setWidth, BitVec.toNat_setWidth, Nat.mod_eq_of_lt hlt]
  constructor
  · intro h
    rw [← h]
    exact Nat.mod_lt _ (Nat.two_pow_pos n)
  · exact Nat.mod_eq_of_lt

/-- **The word has the four registers** if and only if they fit into their fields. -/
theorem saved_tstate_iff :
    c.Saved c.tstate ↔ c.thePSTATE.toNat < 2 ^ 12 ∧ c.theASI.toNat < 2 ^ 8 := by
  constructor
  · intro h
    have hp : c.thePSTATE.toNat < 2 ^ 12 := by
      have hpstate := h.pstate
      rw [tstate_pstate] at hpstate
      exact setWidth_setWidth_eq_iff.mp hpstate
    have hasi := h.asi
    rw [tstate_asi hp] at hasi
    exact ⟨hp, setWidth_setWidth_eq_iff.mp hasi⟩
  · rintro ⟨hp, ha⟩
    refine ⟨tstate_ccr hp ha, ?_, ?_, tstate_cwp (by decide) (by decide)⟩
    · rw [tstate_asi hp]
      exact setWidth_setWidth_eq_iff.mpr ha
    · rw [tstate_pstate]
      exact setWidth_setWidth_eq_iff.mpr hp

theorem getLsbD_maskedPSTATE_of_ge {i : ℕ} (hi : 12 ≤ i) (hi64 : i < 64) :
    (maskedPSTATE x).getLsbD i = x.getLsbD i := by
  have hmask : ∀ mask : BitVec 64, mask.toNat < 2 ^ 12 → mask.getLsbD i = false :=
    fun _ h => getLsbD_of_lt h hi
  rw [maskedPSTATE, BitVec.getLsbD_and, BitVec.getLsbD_or, BitVec.getLsbD_or, BitVec.getLsbD_and,
    BitVec.getLsbD_and, BitVec.getLsbD_not, BitVec.getLsbD_not, hmask 0x2A#64 (by decide),
    hmask 0x14 (by decide), hmask 0x200 (by decide), hmask 0xC01#64 (by decide),
    decide_eq_true hi64, Bool.and_false, Bool.or_false, Bool.or_false, Bool.not_false,
    Bool.and_true, Bool.and_true, Bool.and_true]

theorem setWidth_le_iff {k tt : BitVec 9} : k.setWidth 32 ≤ tt.setWidth 32 ↔ k ≤ tt := by
  have hk := k.isLt
  have htt := tt.isLt
  rw [BitVec.le_def, BitVec.le_def, BitVec.toNat_setWidth, BitVec.toNat_setWidth,
    Nat.mod_eq_of_lt (by omega), Nat.mod_eq_of_lt (by omega)]

theorem setWidth_eq_iff {k tt : BitVec 9} : tt.setWidth 32 = k.setWidth 32 ↔ tt = k := by
  have hk := k.isLt
  have htt := tt.isLt
  rw [← BitVec.toNat_inj, ← BitVec.toNat_inj, BitVec.toNat_setWidth, BitVec.toNat_setWidth,
    Nat.mod_eq_of_lt (by omega), Nat.mod_eq_of_lt (by omega)]

theorem trapPSTATE_eq (tt : BitVec 9) : trapPSTATE x (tt.setWidth 32) =
    if 0x64 ≤ tt ∧ tt ≤ 0x6F then maskedPSTATE x ||| 0x400
    else if tt = 0x60 then maskedPSTATE x ||| 0x800
    else maskedPSTATE x ||| 1 := by
  have h64 : tt.setWidth 32 ≥ 0x64 ↔ 0x64 ≤ tt := @setWidth_le_iff 0x64 tt
  have h6F : tt.setWidth 32 ≤ 0x6F ↔ tt ≤ 0x6F := @setWidth_le_iff tt 0x6F
  have h60 : tt.setWidth 32 = 0x60 ↔ tt = 0x60 := @setWidth_eq_iff 0x60 tt
  rw [trapPSTATE]
  simp only [h64, h6F, h60]

theorem getLsbD_select (tt : BitVec 9) (i : ℕ) :
    (trapPSTATE x (tt.setWidth 32)).getLsbD i =
      ((maskedPSTATE x).getLsbD i || ((decide (i = 10) && decide (0x64 ≤ tt ∧ tt ≤ 0x6F)) ||
        (decide (i = 11) && decide (tt = 0x60)) ||
        (decide (i = 0) && decide (tt ≠ 0x60 ∧ ¬ (0x64 ≤ tt ∧ tt ≤ 0x6F))))) := by
  have hsel : ∀ k < 64, (BitVec.twoPow 64 k).getLsbD i = decide (i = k) := by
    intro k hk
    rw [BitVec.getLsbD_twoPow, decide_eq_true hk, Bool.true_and]
    exact decide_eq_decide.mpr eq_comm
  have h400 : (0x400 : BitVec 64) = BitVec.twoPow 64 10 := by decide
  have h800 : (0x800 : BitVec 64) = BitVec.twoPow 64 11 := by decide
  have h1 : (1 : BitVec 64) = BitVec.twoPow 64 0 := by decide
  rw [trapPSTATE_eq]
  by_cases hmmu : 0x64 ≤ tt ∧ tt ≤ 0x6F
  · have h60 : tt ≠ 0x60 := by
      rintro rfl
      exact absurd hmmu (by decide)
    have hnone : ¬ (tt ≠ 0x60 ∧ ¬ (0x64 ≤ tt ∧ tt ≤ 0x6F)) := fun h => h.2 hmmu
    rw [if_pos hmmu, BitVec.getLsbD_or, h400, hsel 10 (by decide), decide_eq_true hmmu,
      decide_eq_false h60, decide_eq_false hnone, Bool.and_true, Bool.and_false, Bool.and_false,
      Bool.or_false, Bool.or_false]
  · rw [if_neg hmmu, decide_eq_false hmmu, Bool.and_false, Bool.false_or]
    by_cases h60 : tt = 0x60
    · have hnone : ¬ (tt ≠ 0x60 ∧ ¬ (0x64 ≤ tt ∧ tt ≤ 0x6F)) := fun h => h.1 h60
      rw [if_pos h60, BitVec.getLsbD_or, h800, hsel 11 (by decide), decide_eq_true h60,
        decide_eq_false hnone, Bool.and_true, Bool.and_false, Bool.or_false]
    · rw [if_neg h60, BitVec.getLsbD_or, h1, hsel 0 (by decide), decide_eq_false h60,
        decide_eq_true (⟨h60, hmmu⟩ : tt ≠ 0x60 ∧ _), Bool.and_false, Bool.and_true,
        Bool.false_or]

/-- **The state of the processor** has the bits it is to have, but for the endianness. -/
theorem getLsbD_trapPSTATE (tt : BitVec 9) {i : ℕ} (hi : i < 64) :
    (trapPSTATE x (tt.setWidth 32)).getLsbD i =
      ((decide (i = 9) && x.getLsbD 9) || entryBit x tt i) := by
  rw [getLsbD_select tt i]
  rcases Nat.lt_or_ge i 12 with h12 | h12
  · rw [maskedPSTATE]
    interval_cases i <;> simp [entryBit]
  · have hbit : entryBit x tt i = x.getLsbD i := by
      rw [entryBit]
      all_goals omega
    rw [getLsbD_maskedPSTATE_of_ge h12 hi, hbit, decide_eq_false (by omega : i ≠ 9),
      decide_eq_false (by omega : i ≠ 10), decide_eq_false (by omega : i ≠ 11),
      decide_eq_false (by omega : i ≠ 0)]
    exact Bool.or_false _

/-- **It is what it is to be** if and only if the handler need not be made big-endian. -/
theorem trapPSTATE_iff (tt : BitVec 9) :
    (∀ i < 64, (trapPSTATE x (tt.setWidth 32)).getLsbD i = entryBit x tt i) ↔
      (x.getLsbD 9 = true → x.getLsbD 8 = true) := by
  constructor
  · intro h h9
    have hbit := h 9 (by decide)
    rw [getLsbD_trapPSTATE tt (by decide), h9] at hbit
    exact hbit.symm
  · intro h i hi
    rw [getLsbD_trapPSTATE tt hi]
    by_cases h9 : i = 9
    · subst h9
      rcases Bool.eq_false_or_eq_true (x.getLsbD 9) with hx | hx
      · rw [hx, entryBit, h hx]
        rfl
      · rw [hx]
        rfl
    · rw [decide_eq_false h9]
      rfl

theorem trapWindows_theCWP (tt : BitVec 9) (h : c.thePendingTrap = tt.setWidth 32) :
    c.trapWindows.theWindowMap.theCWP =
      entryCWP c.theWindows.theWindowMap.theCWP c.theCANSAVE.toNat tt := by
  have hlt := c.theWindows.lt
  rw [kNumWindows] at hlt
  have hmask : ∀ x : BitVec 32, (x &&& 0x7).toNat = x.toNat % 8 := by
    intro x
    rw [BitVec.toNat_and]
    exact Nat.and_two_pow_sub_one_eq_mod x.toNat 3
  have h24 : c.thePendingTrap = 0x24 ↔ tt = 0x24 := h ▸ @setWidth_eq_iff 0x24 tt
  have h80 : c.thePendingTrap ≥ 0x80 ↔ 0x80 ≤ tt := h ▸ @setWidth_le_iff 0x80 tt
  have hBF : c.thePendingTrap ≤ 0xBF ↔ tt ≤ 0xBF := h ▸ @setWidth_le_iff tt 0xBF
  have hC0 : c.thePendingTrap ≥ 0xC0 ↔ 0xC0 ≤ tt := h ▸ @setWidth_le_iff 0xC0 tt
  have hFF : c.thePendingTrap ≤ 0xFF ↔ tt ≤ 0xFF := h ▸ @setWidth_le_iff tt 0xFF
  rw [trapWindows, entryCWP]
  simp only [h24, h80, hBF, hC0, hFF, kNumWindows]
  split
  · simp only [SettledWindows.incrementCWP, RegisterWindowMap.incrementCWP]
    split <;> omega
  · split
    · simp only [SettledWindows.setCWP, RegisterWindowMap.setCWP]
      rw [hmask, BitVec.toNat_add, BitVec.toNat_add, toNat_getCWP]
      have htwo : (2 : BitVec 32).toNat = 2 := rfl
      rw [htwo]
      omega
    · split
      · simp only [SettledWindows.decrementCWP, RegisterWindowMap.decrementCWP]
        split <;> omega
      · rfl

theorem getLsbD_vectorAddress {tt : BitVec 9} (h : c.thePendingTrap = tt.setWidth 32) {i : ℕ}
    (hi : i < 64) : c.vectorAddress.getLsbD i =
      ((c.theTBA.getLsbD i && (decide (i < 32) && !decide (i < 14))) ||
        ((decide (c.theTL > 1) && decide (i = 14)) || (!decide (i < 5) && tt.getLsbD (i - 5)))) := by
  have hmask : 0xFFFFC000#64 = lowBits 64 32 &&& ~~~lowBits 64 14 := by decide
  have hlevel : (if c.theTL > 1 then 0x4000#32 else 0#32).getLsbD i =
      (decide (c.theTL > 1) && decide (i = 14)) := by
    have h4000 : 0x4000#32 = BitVec.twoPow 32 14 := by decide
    split
    · rename_i htl
      rw [h4000, BitVec.getLsbD_twoPow, decide_eq_true htl, decide_eq_decide.mpr eq_comm]
      rfl
    · rename_i htl
      rw [decide_eq_false htl, BitVec.getLsbD_zero, Bool.false_and]
  rw [vectorAddress, BitVec.getLsbD_or, BitVec.getLsbD_and, hmask, getLsbD_above,
    getLsbD_lowBits, BitVec.getLsbD_setWidth, BitVec.getLsbD_or, hlevel,
    BitVec.getLsbD_shiftLeft, h, BitVec.getLsbD_setWidth, decide_eq_true hi, Bool.true_and,
    Bool.true_and]
  rcases Nat.lt_or_ge i 32 with h32 | h32
  · rw [decide_eq_true h32, decide_eq_true (by omega : i - 5 < 32), Bool.true_and, Bool.true_and,
      Bool.true_and]
  · rw [decide_eq_false (by omega : ¬ i < 32), BitVec.getLsbD_of_ge tt (i - 5) (by omega),
      Bool.and_false, Bool.and_false, Bool.and_false]

theorem getLsbD_entryAddress {tba : BitVec 64} {tt : BitVec 9} {above : Bool} {i : ℕ}
    (hi : i < 64) : (tba.extractLsb' 15 49 ++ BitVec.ofBool above ++ tt ++ 0#5).getLsbD i =
      ((tba.getLsbD i && !decide (i < 15)) ||
        ((above && decide (i = 14)) || (!decide (i < 5) && tt.getLsbD (i - 5)))) := by
  rw [BitVec.getLsbD_append, BitVec.getLsbD_append, BitVec.getLsbD_append,
    BitVec.getLsbD_extractLsb', BitVec.getLsbD_ofBool, BitVec.getLsbD_zero]
  rcases Nat.lt_or_ge i 5 with h5 | h5
  · rw [if_pos h5, decide_eq_true (by omega : i < 15), decide_eq_false (by omega : i ≠ 14),
      decide_eq_true h5, Bool.not_true, Bool.and_false, Bool.and_false, Bool.false_and]
    rfl
  · rw [if_neg (by omega), decide_eq_false (by omega : ¬ i < 5)]
    rcases Nat.lt_or_ge (i - 5) 9 with h9 | h9
    · rw [if_pos h9, decide_eq_true (by omega : i < 15), decide_eq_false (by omega : i ≠ 14),
        Bool.not_true, Bool.and_false, Bool.and_false]
      rfl
    · rw [if_neg (by omega), BitVec.getLsbD_of_ge tt (i - 5) h9, Bool.and_false, Bool.or_false]
      rcases Nat.eq_or_lt_of_le (by omega : 14 ≤ i) with h14 | h14
      · subst h14
        rw [if_pos (by decide), decide_eq_true (by decide), decide_eq_true (by decide),
          decide_eq_true (by decide), Bool.true_and, Bool.not_true, Bool.and_false, Bool.false_or,
          Bool.and_true]
      · have hpos : 15 + (i - 5 - 9 - 1) = i := by omega
        rw [if_neg (by omega), decide_eq_true (by omega : i - 5 - 9 - 1 < 49), hpos,
          decide_eq_false (by omega : ¬ i < 15), decide_eq_false (by omega : i ≠ 14),
          Bool.true_and, Bool.not_false, Bool.and_true, Bool.and_false, Bool.or_false]

/-- **The handler is found** if and only if its vector is within the first 32 bits and the base has
nothing where the bit for the trap level goes, or that bit is set. -/
theorem vectorAddress_eq_iff {tt : BitVec 9} (h : c.thePendingTrap = tt.setWidth 32) :
    c.vectorAddress =
        c.theTBA.extractLsb' 15 49 ++ BitVec.ofBool (decide (c.theTL > 1)) ++ tt ++ 0#5 ↔
      c.theTBA.toNat < 2 ^ 32 ∧ (c.theTBA.getLsbD 14 = true → c.theTL > 1) := by
  constructor
  · intro heq
    have hbit : ∀ i < 64, c.vectorAddress.getLsbD i = _ := fun i hi => by
      rw [heq, getLsbD_entryAddress hi]
    refine ⟨Nat.lt_pow_two_of_testBit _ fun i hi => ?_, fun h14 => ?_⟩
    · rcases Nat.lt_or_ge i 64 with h64 | h64
      · have hi' := hbit i h64
        rw [getLsbD_vectorAddress h h64, decide_eq_false (by omega : ¬ i < 32),
          decide_eq_false (by omega : i ≠ 14), decide_eq_false (by omega : ¬ i < 15),
          BitVec.getLsbD_of_ge tt (i - 5) (by omega)] at hi'
        have hclear : c.theTBA.getLsbD i = false := by simpa using hi'.symm
        exact hclear
      · exact BitVec.getLsbD_of_ge _ _ h64
    · have h14' := hbit 14 (by decide)
      rw [getLsbD_vectorAddress h (by decide), h14, BitVec.getLsbD_of_ge tt 9 (by decide)] at h14'
      simpa using h14'.symm
  · rintro ⟨hlt, hlevel⟩
    refine BitVec.eq_of_getLsbD_eq fun i hi => ?_
    rw [getLsbD_vectorAddress h hi, getLsbD_entryAddress hi]
    rcases Nat.lt_trichotomy i 14 with h14 | h14 | h14
    · rw [decide_eq_true h14, decide_eq_true (by omega : i < 15), Bool.not_true, Bool.and_false]
    · subst h14
      rcases Bool.eq_false_or_eq_true (c.theTBA.getLsbD 14) with h1 | h1
      · rw [decide_eq_true (hlevel h1), h1]
        rfl
      · rw [h1]
        rfl
    · rw [decide_eq_false (by omega : ¬ i < 14), decide_eq_false (by omega : ¬ i < 15)]
      rcases Nat.lt_or_ge i 32 with h32 | h32
      · rw [decide_eq_true h32]
        rfl
      · rw [getLsbD_of_lt hlt h32]
        rfl

end Fields

/-! ### A trap -/

section Entry

variable {c} {d : TrapCore} {x : TrapInsn} {tt : BitVec 9}

theorem trapEntry_set {w : ℕ} {a : ℕ → BitVec w} {v : BitVec w} {tl : BitVec 32} (h0 : 0 < tl.toNat)
    (h5 : tl.toNat ≤ 5) : trapEntry (setTrapEntry a v tl) tl = v := by
  have hout : ¬ (tl = 0 ∨ tl > 5) := by
    rintro (h | h)
    · rw [h] at h0
      exact absurd h0 (by decide)
    · rw [gt_iff_lt, BitVec.lt_def] at h
      exact absurd h (by simpa using h5)
  rw [trapEntry, setTrapEntry, if_neg hout, if_neg hout, Function.update_self]

theorem setTrapEntry_of_ne {w : ℕ} {a : ℕ → BitVec w} {v : BitVec w} {tl : BitVec 32} {i : ℕ}
    (h : i ≠ tl.toNat - 1) : setTrapEntry a v tl i = a i := by
  rw [setTrapEntry]
  split
  · rfl
  · exact Function.update_of_ne h _ _

/-- The core once a trap has been handled. -/
def entered (c : TrapCore) (x : TrapInsn) (tt : BitVec 9) : TrapCore :=
  let d := (c.takeTrap x (tt.setWidth 32)).saveState x
  let d := d.setPSTATE (trapPSTATE d.thePSTATE d.thePendingTrap)
  let d := { d with theWindows := d.trapWindows }
  { d with
    theRedirectPC := some d.vectorAddress
    thePendingTrap := 0
    theTrapInstruction := none }

theorem setWidth_ne_zero (htt : tt ≠ 0) : tt.setWidth 32 ≠ 0 := by
  have hzero : tt.setWidth 32 = 0 ↔ tt = 0 := @setWidth_eq_iff 0 tt
  exact mt hzero.mp htt

/-- **A trap is handled** unless there is no level left for it. -/
theorem handleTrap_takeTrap (htt : tt ≠ 0) : (c.takeTrap x (tt.setWidth 32)).handleTrap =
    if c.theTL + 1 < 5 then .ok (c.entered x tt) else .error .redState := by
  rw [handleTrap, takeTrap]
  simp only [if_neg (setWidth_ne_zero htt)]
  by_cases h : c.theTL + 1 < 5
  · rw [if_neg (not_not.mpr h), if_pos h]
    rfl
  · rw [if_pos h, if_neg h]

/-- The level of a trap that is handled, and of one above which there is none. -/
theorem toNat_level (h : c.theTL.toNat < 4) : (c.theTL + 1).toNat = c.theTL.toNat + 1 := by
  have h1 : (1 : BitVec 32).toNat = 1 := rfl
  rw [BitVec.toNat_add, h1, Nat.mod_eq_of_lt (by omega)]

theorem level_lt_iff : c.theTL + 1 < 5 ↔ c.theTL.toNat < 4 ∨ c.theTL.toNat + 1 = 2 ^ 32 := by
  have hlt := c.theTL.isLt
  have h1 : (1 : BitVec 32).toNat = 1 := rfl
  have h5 : (5 : BitVec 32).toNat = 5 := rfl
  rw [BitVec.lt_def, BitVec.toNat_add, h1, h5]
  omega

theorem masked_eq (y : BitVec 64) :
    (if c.thePSTATE &&& 8 ≠ 0 then y &&& 0xFFFFFFFF else y) = c.maskedAddress y := by
  have hbit : c.thePSTATE &&& 8 ≠ 0 ↔ c.thePSTATE.getLsbD 3 = true := by
    rw [← and_twoPow_ne_zero (by decide), bne_iff_ne]
    exact Iff.rfl
  have hlow : y &&& 0xFFFFFFFF = (y.setWidth 32).setWidth 64 := by
    refine BitVec.eq_of_getLsbD_eq fun i hi => ?_
    have hmask : (0xFFFFFFFF : BitVec 64) = lowBits 64 32 := by decide
    rw [hmask, BitVec.getLsbD_and, getLsbD_lowBits, BitVec.getLsbD_setWidth,
      BitVec.getLsbD_setWidth, decide_eq_true hi, Bool.true_and, Bool.true_and, Bool.and_comm]
  rw [maskedAddress, hlow]
  simp only [hbit]

/-- **The state for the handler** of a trap is the one of SPARC V9 if and only if the condition for
it holds. -/
theorem enters_entered_iff (hlevel : c.theTL.toNat < 4) :
    c.Enters x tt (c.entered x tt) ↔ c.EntersRight := by
  have htl : (c.entered x tt).theTL.toNat = c.theTL.toNat + 1 := toNat_level hlevel
  have hpos : 0 < (c.entered x tt).theTL.toNat := by omega
  have hle : (c.entered x tt).theTL.toNat ≤ 5 := by omega
  have hsaved : (c.entered x tt).getTSTATE = c.tstate := trapEntry_set hpos hle
  have habove : (c.entered x tt).theTL > 1 ↔ 0 < c.theTL := by
    have h1 : (1 : BitVec 32).toNat = 1 := rfl
    have h0 : (0 : BitVec 32).toNat = 0 := rfl
    rw [gt_iff_lt, BitVec.lt_def, BitVec.lt_def, htl, h1, h0]
    omega
  have hothers : ∀ {w : ℕ} (a : ℕ → BitVec w) v i, i ≠ c.theTL.toNat →
      setTrapEntry a v (c.entered x tt).theTL i = a i := by
    intro w a v i hi
    refine setTrapEntry_of_ne ?_
    rw [htl]
    exact hi
  -- the core just before the handler is looked up
  let d := (c.takeTrap x (tt.setWidth 32)).saveState x
  let e := d.setPSTATE (trapPSTATE d.thePSTATE d.thePendingTrap)
  have hvector := @vectorAddress_eq_iff { e with theWindows := e.trapWindows } tt rfl
  have hbit : BitVec.ofBool (decide ((c.entered x tt).theTL > 1)) =
      BitVec.ofBool (decide (0 < c.theTL)) :=
    congrArg BitVec.ofBool (decide_eq_decide.mpr habove)
  constructor
  · intro h
    obtain ⟨hp, ha⟩ := saved_tstate_iff.mp (hsaved ▸ h.saved)
    have hpc := h.pc
    rw [← hbit] at hpc
    obtain ⟨hbase, h14⟩ := hvector.mp (Option.some.inj hpc)
    exact ⟨⟨hlevel, hp, ha⟩, (trapPSTATE_iff tt).mp h.pstate, hbase, fun h => habove.mp (h14 h)⟩
  · rintro ⟨⟨-, hp, ha⟩, hendian, hbase, h14⟩
    refine ⟨htl, hsaved ▸ saved_tstate_iff.mpr ⟨hp, ha⟩, ?_, ?_, trapEntry_set hpos hle, ?_,
      (trapPSTATE_iff tt).mpr hendian, trapWindows_theCWP tt rfl, ?_, rfl, rfl, rfl, rfl⟩
    · exact (trapEntry_set hpos hle).trans (masked_eq x.pc)
    · exact (trapEntry_set hpos hle).trans (masked_eq x.npc)
    · intro i hi
      exact ⟨hothers _ _ i hi, hothers _ _ i hi, hothers _ _ i hi, hothers _ _ i hi⟩
    · rw [← hbit]
      exact congrArg some (hvector.mpr ⟨hbase, fun h => habove.mpr (h14 h)⟩)

end Entry

/-! ### A return -/

section Return

variable {c d e f : TrapCore} {x : TrapInsn} {tt : BitVec 9}

theorem handlePopTL_popTL : d.popTL.handlePopTL =
    if d.theTL.toInt ≤ 0 ∨ d.theTL.toInt > 5 then { d with thePopTLRequested := false }
    else { d with thePopTLRequested := false }.restoreState :=
  if_neg fun h => h rfl

/-- **A return** at a level at which there can be one takes the level away and reads the registers
from its entry; it leaves the entries alone. -/
theorem handlePopTL_spec (h0 : 0 < d.theTL.toNat) (h5 : d.theTL.toNat ≤ 5) :
    d.popTL.handlePopTL.theTL.toNat = d.theTL.toNat - 1 ∧
      d.popTL.handlePopTL.theTSTATE = d.theTSTATE ∧
      d.popTL.handlePopTL.theCCR = d.getTSTATE.extractLsb' 32 8 ∧
      d.popTL.handlePopTL.theASI = (d.getTSTATE.extractLsb' 24 8).setWidth 64 ∧
      d.popTL.handlePopTL.thePSTATE = (d.getTSTATE.extractLsb' 8 12).setWidth 64 ∧
      d.popTL.handlePopTL.theWindows.theWindowMap.theCWP = (d.getTSTATE.extractLsb' 0 3).toNat := by
  have hint : d.theTL.toInt = d.theTL.toNat := BitVec.toInt_eq_toNat_of_lt (by omega)
  have hpop : d.popTL.handlePopTL = { d with thePopTLRequested := false }.restoreState := by
    rw [handlePopTL_popTL, if_neg]
    rw [hint]
    omega
  have h1 : (1 : BitVec 32).toNat = 1 := rfl
  have hle : (1 : BitVec 32) ≤ d.theTL := by
    rw [BitVec.le_def, h1]
    exact h0
  have h8 := @ushiftRight_and_lowBits d.getTSTATE 32 8
  have hlow : ((d.getTSTATE &&& 0x7).setWidth 32).toNat = (d.getTSTATE.extractLsb' 0 3).toNat := by
    have h3 := @ushiftRight_and_lowBits d.getTSTATE 0 3
    have hmask : (0x7 : BitVec 64) = lowBits 64 3 := by decide
    have hlt := (d.getTSTATE.extractLsb' 0 3).isLt
    rw [BitVec.ushiftRight_zero] at h3
    rw [hmask, h3, BitVec.toNat_setWidth, BitVec.toNat_setWidth, Nat.mod_eq_of_lt (by omega),
      Nat.mod_eq_of_lt (by omega)]
  rw [hpop]
  refine ⟨?_, rfl, ?_, ushiftRight_and_lowBits 24 8, ushiftRight_and_lowBits 8 12, hlow⟩
  · exact (BitVec.toNat_sub_of_le hle).trans (by rw [h1])
  · refine (congrArg (BitVec.setWidth 8) h8).trans ?_
    rw [BitVec.setWidth_setWidth_of_le _ (by decide), BitVec.setWidth_eq]

theorem entered_spec (h : c.theTL.toNat < 4) : (c.entered x tt).theTL.toNat = c.theTL.toNat + 1 ∧
    (c.entered x tt).getTSTATE = c.tstate ∧
    ∀ i < c.theTL.toNat, (c.entered x tt).theTSTATE i = c.theTSTATE i := by
  have htl : (c.entered x tt).theTL.toNat = c.theTL.toNat + 1 := toNat_level h
  have hpos : 0 < (c.entered x tt).theTL.toNat := by omega
  have hle : (c.entered x tt).theTL.toNat ≤ 5 := by omega
  refine ⟨htl, trapEntry_set hpos hle, fun i hi => setTrapEntry_of_ne ?_⟩
  have hlast : (c.takeTrap x (tt.setWidth 32)).theTL.toNat = c.theTL.toNat := rfl
  rw [show ((c.takeTrap x (tt.setWidth 32)).theTL + 1).toNat = c.theTL.toNat + 1 from htl]
  omega

/-- **In the handler of a trap** the level and the entries below it stay, up to the last level. -/
theorem Handled.level_and_saved (h : Handled d e) (hlevel : d.theTL.toNat ≤ 4) :
    e.theTL = d.theTL ∧ ∀ i < d.theTL.toNat, e.theTSTATE i = d.theTSTATE i := by
  induction h with
  | start c => exact ⟨rfl, fun _ _ => rfl⟩
  | other h hlevel' hsaved ih =>
    obtain ⟨htl, hentries⟩ := ih hlevel
    refine ⟨hlevel'.trans htl, fun i hi => ?_⟩
    rw [hsaved i (htl ▸ hi), hentries i hi]
  | @trap c d e f x tt h htt htrap hbody ih ih' =>
    obtain ⟨htl, hentries⟩ := ih hlevel
    rw [handleTrap_takeTrap htt] at htrap
    split at htrap
    · rename_i hroom
      cases htrap
      -- the trap is handled one level up, and the return takes that level away again
      have hlt : d.theTL.toNat < 4 := by
        rcases level_lt_iff.mp hroom with h4 | h4
        · exact h4
        · rw [htl] at h4
          omega
      obtain ⟨hup, -, hkept⟩ := @entered_spec d x tt hlt
      obtain ⟨htl', hentries'⟩ := ih' (by omega)
      obtain ⟨hdown, hsame, -⟩ := @handlePopTL_spec f (by rw [htl']; omega) (by rw [htl']; omega)
      refine ⟨BitVec.eq_of_toNat_eq ?_, fun i hi => ?_⟩
      · rw [hdown, htl', hup, htl, Nat.add_sub_cancel]
      · have hi' : i < d.theTL.toNat := htl ▸ hi
        rw [hsame, hentries' i (by omega), hkept i hi', hentries i hi]
    · cases htrap

/-- **A return restores** what held before its trap if and only if that fits where it is saved. -/
theorem restored_iff (htt : tt ≠ 0) (htrap : (c.takeTrap x (tt.setWidth 32)).handleTrap = .ok d)
    (h : Handled d e) : c.Restored e.popTL.handlePopTL ↔ c.Fits := by
  rw [handleTrap_takeTrap htt] at htrap
  split at htrap
  · rename_i hroom
    cases htrap
    rcases level_lt_iff.mp hroom with hlt | hlast
    · obtain ⟨hup, hsaved, -⟩ := @entered_spec c x tt hlt
      obtain ⟨htl, hentries⟩ := h.level_and_saved (by omega)
      have hread : e.getTSTATE = c.tstate := by
        rw [← hsaved, getTSTATE, getTSTATE, htl, trapEntry, trapEntry,
          hentries _ (by omega : (c.entered x tt).theTL.toNat - 1 < _)]
      obtain ⟨hdown, -, hccr, hasi, hpstate, hcwp⟩ :=
        @handlePopTL_spec e (by rw [htl]; omega) (by rw [htl]; omega)
      rw [hread] at hccr hasi hpstate hcwp
      rw [Fits, and_iff_right hlt, ← saved_tstate_iff]
      constructor
      · intro hr
        exact ⟨hccr.symm.trans hr.ccr, hasi.symm.trans hr.asi, hpstate.symm.trans hr.pstate,
          tstate_cwp (by decide) (by decide)⟩
      · intro hs
        refine ⟨hccr.trans hs.ccr, hasi.trans hs.asi, hpstate.trans hs.pstate,
          hcwp.trans (tstate_cwp (by decide) (by decide)), BitVec.eq_of_toNat_eq ?_⟩
        rw [hdown, htl, hup, Nat.add_sub_cancel]
    · -- the level is the largest number there is: the next one is 0, at which there is no return
      have h1 : (1 : BitVec 32).toNat = 1 := rfl
      have hzero : (c.entered x tt).theTL = 0 := by
        refine BitVec.eq_of_toNat_eq ((BitVec.toNat_add _ _).trans ?_)
        rw [h1]
        exact (congrArg (· % 2 ^ 32) hlast).trans (Nat.mod_self _)
      obtain ⟨htl, -⟩ := h.level_and_saved (by rw [hzero]; decide)
      refine iff_of_false (fun hr => ?_) fun hf => ?_
      · have hnone : e.theTL.toInt ≤ 0 ∨ e.theTL.toInt > 5 := by
          rw [htl, hzero]
          decide
        have hstays : e.popTL.handlePopTL.theTL = e.theTL := by
          rw [handlePopTL_popTL, if_pos hnone]
        have hlevel := congrArg BitVec.toNat (hr.level.symm.trans (hstays.trans (htl.trans hzero)))
        rw [show (0 : BitVec 32).toNat = 0 from rfl] at hlevel
        omega
      · have := hf.1
        omega
  · cases htrap

end Return

/-! ### Traps and returns -/

/-- **Traps and returns do what they are to do** if and only if the condition holds in the state in
which the trap is taken: the handler is entered as in SPARC V9, and whatever is done in it, its
return restores the registers. The latter alone is a matter of their widths. -/
theorem trap_iff (c : TrapCore) (x : TrapInsn) (tt : BitVec 9) (htt : tt ≠ 0) :
    ((∃ d, (c.takeTrap x (tt.setWidth 32)).handleTrap = .ok d ∧ c.Enters x tt d ∧
        ∀ e, Handled d e → c.Restored e.popTL.handlePopTL) ↔ c.EntersRight) ∧
      ∀ d e, (c.takeTrap x (tt.setWidth 32)).handleTrap = .ok d → Handled d e →
        (c.Restored e.popTL.handlePopTL ↔ c.Fits) := by
  refine ⟨⟨?_, fun h => ?_⟩, fun d e => restored_iff htt⟩
  · rintro ⟨d, htrap, henters, hrestored⟩
    have hfits := (restored_iff htt htrap (.start d)).mp (hrestored d (.start d))
    rw [handleTrap_takeTrap htt, if_pos (level_lt_iff.mpr (.inl hfits.1))] at htrap
    cases htrap
    exact (enters_entered_iff hfits.1).mp henters
  · have hok : (c.takeTrap x (tt.setWidth 32)).handleTrap = .ok (c.entered x tt) := by
      rw [handleTrap_takeTrap htt, if_pos (level_lt_iff.mpr (.inl h.1.1))]
    exact ⟨_, hok, (enters_entered_iff h.1.1).mpr h, fun e he => (restored_iff htt hok he).mpr h.1⟩

/-- A core outside of any trap. -/
def outside (thePSTATE theTBA : BitVec 64) : TrapCore where
  theWindows := ⟨{}, {}, rfl, by decide⟩
  theCCR := 0
  theASI := 0x80
  theTPC := fun _ => 0
  theTNPC := fun _ => 0
  theTSTATE := fun _ => 0
  theTT := fun _ => 0
  theTBA := theTBA
  thePSTATE := thePSTATE
  theTL := 0
  theCANSAVE := 6

/-- A miss of the MMU, in user mode, is handled as it is to be. -/
theorem trap_of_miss :
    ∃ d, ((outside 0x12 0x10000000).takeTrap ⟨0x1000, 0x1004⟩
        ((0x68 : BitVec 9).setWidth 32)).handleTrap = .ok d ∧
      (outside 0x12 0x10000000).Enters ⟨0x1000, 0x1004⟩ 0x68 d ∧
      ∀ e, Handled d e → (outside 0x12 0x10000000).Restored e.popTL.handlePopTL :=
  (trap_iff (outside 0x12 0x10000000) ⟨0x1000, 0x1004⟩ 0x68 (by decide)).1.mpr (by decide)

/-- **Traps that go wrong**: a little-endian core with big-endian traps stays little-endian, and
vectors at `0x100000000` are looked for at 0. -/
theorem traps_fail :
    ((outside 0x212 0).takeTrap ⟨0x1000, 0x1004⟩ 0x68).handleTrap.toOption.map thePSTATE =
        some 0x614 ∧
      ((outside 0x12 0x100000000).takeTrap ⟨0x1000, 0x1004⟩ 0x68).handleTrap.toOption.map
        theRedirectPC = some (some 0xD00) ∧
      ¬ ∀ (c : TrapCore) x tt, tt ≠ 0 → c.theTL.toNat < 4 →
        ∃ d, (c.takeTrap x (tt.setWidth 32)).handleTrap = .ok d ∧ c.Enters x tt d := by
  refine ⟨by decide, by decide, fun h => ?_⟩
  obtain ⟨d, htrap, henters⟩ := h (outside 0x212 0) ⟨0x1000, 0x1004⟩ 0x68 (by decide) (by decide)
  rw [handleTrap_takeTrap (by decide), if_pos (by decide)] at htrap
  cases htrap
  exact absurd ((enters_entered_iff (by decide)).mp henters) (by decide)

end TrapCore

end UArch

end Flexus
