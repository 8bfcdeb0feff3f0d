import Mathlib.Tactic.IntervalCases
import Flexus.UArch.Windows

/-!
# The registers of a checkpoint

When the core begins to speculate it writes its registers into a `v9State`
(`CoreImpl::getv9State`), and when the speculation fails it clears all it has
(`CoreImpl::resetv9`) and reads them back (`CoreImpl::restorev9State`). The registers live in
four places: in the register file, behind the rename tables; in the window maps; in fields of
the core; and, as the program counters, in the instructions in flight.

The condition codes of the floating-point compares are held twice, in a field of `%fsr` and in
registers of their own. What is saved is the field, which a compare does not write.
-/

namespace Flexus

namespace UArch

/-! ### The core -/

/-- `register_value`. -/
inductive RegisterValue
  | word (v : BitVec 64)
  | bits (v : BitVec 8)
  deriving DecidableEq

/-- What can go wrong with a read of the register file: an assertion of the rename table, or
the exception of `boost::get`. -/
inductive ReadFault
  | map (f : MapFault)
  | badGet
  deriving DecidableEq

/-- The oldest instruction in flight, as far as its program counters go. -/
structure CounterInsn where
  thePC : BitVec 64
  theNPC : BitVec 64
  theNPCReg : Option (BitVec 64)
  isAnnulled : Bool
  isMicroOp : Bool
  deriving DecidableEq

/-- `Instruction::npcReg`. -/
def CounterInsn.npcReg (x : CounterInsn) : BitVec 64 := x.theNPCReg.getD x.theNPC

/-- `Interaction`: what it says about the next program counter, and whether it annuls. -/
structure CounterInteraction where
  npc : Option (BitVec 64)
  annuls : Bool
  deriving DecidableEq

/-- `CoreImpl`, as far as the registers go. The register file has a value for every physical
register of a type. -/
structure RegisterCore where
  theWindowMap : RegisterWindowMap
  theArchitecturalWindowMap : RegisterWindowMap
  theMapTables : RegisterType → PhysicalMap
  theRegisters : RegisterType → ℕ → RegisterValue
  theRoundingMode : BitVec 32
  theTPC : ℕ → BitVec 64
  theTNPC : ℕ → BitVec 64
  theTSTATE : ℕ → BitVec 64
  theTT : ℕ → BitVec 32
  theTBA : BitVec 64
  thePSTATE : BitVec 64
  theTL : BitVec 32
  thePIL : BitVec 32
  theCANSAVE : BitVec 32
  theCANRESTORE : BitVec 32
  theCLEANWIN : BitVec 32
  theOTHERWIN : BitVec 32
  theWSTATE : BitVec 32
  theVER : BitVec 64
  theFPRS : BitVec 64
  theFSR : BitVec 64
  thePC : BitVec 64
  theNPC : Option (BitVec 64)
  theROB : List CounterInsn
  theDispatchInteractions : List CounterInteraction

/-- An entry of the trap stack in a `v9State`. -/
structure Tte where
  theTPC : BitVec 64
  theTNPC : BitVec 64
  theTSTATE : BitVec 64
  theTT : BitVec 64

/-- `v9State`, without the fields that are never restored. -/
structure V9State where
  theGlobalRegs : List (BitVec 64)
  theWindowRegs : List (BitVec 64)
  theFPRegs : List (BitVec 64)
  thePC : BitVec 64
  theNPC : BitVec 64
  theTBA : BitVec 64
  theCWP : BitVec 64
  theCCR : BitVec 64
  theFPRS : BitVec 64
  theFSR : BitVec 64
  thePSTATE : BitVec 64
  theASI : BitVec 64
  theGSR : BitVec 64
  theTL : BitVec 64
  thePIL : BitVec 64
  theCANSAVE : BitVec 64
  theCANRESTORE : BitVec 64
  theCLEANWIN : BitVec 64
  theOTHERWIN : BitVec 64
  theWSTATE : BitVec 64
  theY : BitVec 64
  theTTE : ℕ → Tte

/-- `rReg` and `ccReg`. -/
def rReg (i : ℕ) : MappedReg := ⟨.rRegisters, i⟩

@[inherit_doc rReg]
def ccReg (i : ℕ) : MappedReg := ⟨.ccBits, i⟩

/-- The place of the condition codes `%fcc0` to `%fcc3` in `%fsr`. -/
def fccShift : Fin 4 → ℕ
  | 0 => 10
  | 1 => 32
  | 2 => 34
  | 3 => 36

/-- A condition code as `writeFSR` and `restorev9State` read it in `%fsr`. -/
def fccOf (fsr : BitVec 64) (k : Fin 4) : BitVec 8 := ((fsr >>> fccShift k) &&& 3).setWidth 8

/-- The end of `readFSR`: the condition codes are masked out and put back in. -/
def mergeFcc (fsr : BitVec 64) (fcc0 fcc1 fcc2 fcc3 : BitVec 8) : BitVec 64 :=
  fsr &&& 0xFFFFFFC0FFFFF3FF ||| ((fcc0.setWidth 64 &&& 3) <<< 10 |||
    (fcc1.setWidth 64 &&& 3) <<< 32 ||| (fcc2.setWidth 64 &&& 3) <<< 34 |||
    (fcc3.setWidth 64 &&& 3) <<< 36)

namespace RegisterCore

variable (c : RegisterCore)

/-! ### Reads -/

/-- `RegisterFile::peek`. -/
def peek (r : MappedReg) : RegisterValue := c.theRegisters r.theType r.theIndex

/-- `readArchitecturalRegister`. -/
def readArchitecturalRegister (r : UnmappedReg) (aRotate : Bool) :
    Except MapFault RegisterValue := do
  let reg := if aRotate then c.theArchitecturalWindowMap.rotate r else r
  let i ← (c.theMapTables reg.theType).mapArchitectural reg.theIndex
  .ok (c.peek ⟨reg.theType, i⟩)

/-- `readArchitecturalRegister`, not rotated, and `boost::get<uint64_t>`. -/
def readWord (t : RegisterType) (i : ℕ) : Except ReadFault (BitVec 64) :=
  match c.readArchitecturalRegister ⟨t, i⟩ false with
  | .ok (.word v) => .ok v
  | .ok (.bits _) => .error .badGet
  | .error f => .error (.map f)

/-- `getCCRArchitectural`. -/
def getCCRArchitectural : Except ReadFault (BitVec 32) :=
  match (c.theMapTables .ccBits).mapArchitectural 0 with
  | .error f => .error (.map f)
  | .ok i =>
    match c.peek ⟨.ccBits, i⟩ with
    | .bits v => .ok (v.setWidth 32)
    | .word _ => .error .badGet

/-- `map`. -/
def map (r : UnmappedReg) : Except MapFault MappedReg := do
  let reg := c.theWindowMap.rotate r
  let i ← (c.theMapTables reg.theType).map reg.theIndex
  .ok ⟨reg.theType, i⟩

instance : NeZero 4 := ⟨by decide⟩

/-- The register `%fcc` of a number, in the mapping of the youngest instruction. -/
def fcc (k : Fin 4) : Except ReadFault (BitVec 8) :=
  match c.map ⟨.ccBits, k + 1⟩ with
  | .error f => .error (.map f)
  | .ok r =>
    match c.peek r with
    | .bits v => .ok v
    | .word _ => .error .badGet

/-- **`readFSR`**: the condition codes come from their registers. Where one of these holds no
condition code, the exception is caught and the field stays what it is. -/
def readFSR : BitVec 64 :=
  let merged : Except ReadFault (BitVec 64) := do
    let fcc0 ← c.fcc 0
    let fcc1 ← c.fcc 1
    let fcc2 ← c.fcc 2
    let fcc3 ← c.fcc 3
    .ok (mergeFcc c.theFSR fcc0 fcc1 fcc2 fcc3)
  match merged with
  | .ok fsr => fsr
  | .error _ => c.theFSR

end RegisterCore

/-- `getTPC`, `getTNPC`, `getTSTATE` and `getTT`: an entry of a part of the trap stack. -/
def trapEntry {w : ℕ} (a : ℕ → BitVec w) (aTL : BitVec 32) : BitVec w :=
  if aTL = 0 ∨ aTL > 5 then 0 else a (aTL.toNat - 1)

/-- `setTPC`, `setTNPC`, `setTSTATE` and `setTT`. -/
def setTrapEntry {w : ℕ} (a : ℕ → BitVec w) (v : BitVec w) (aTL : BitVec 32) : ℕ → BitVec w :=
  if aTL = 0 ∨ aTL > 5 then a else Function.update a (aTL.toNat - 1) v

namespace RegisterCore

variable (c : RegisterCore)

def getTPC (aTL : BitVec 32) : BitVec 64 := trapEntry c.theTPC aTL
def getTNPC (aTL : BitVec 32) : BitVec 64 := trapEntry c.theTNPC aTL
def getTSTATE (aTL : BitVec 32) : BitVec 64 := trapEntry c.theTSTATE aTL
def getTT (aTL : BitVec 32) : BitVec 32 := trapEntry c.theTT aTL

/-- `getCWP`, of the window map of the youngest instruction. -/
def getCWP : BitVec 32 := BitVec.ofNat 32 c.theWindowMap.theCWP

/-- **`readPR`**. -/
def readPR (aPR : ℕ) : BitVec 64 :=
  match aPR with
  | 0 => c.getTPC c.theTL
  | 1 => c.getTNPC c.theTL
  | 2 => c.getTSTATE c.theTL
  | 3 => (c.getTT c.theTL).setWidth 64
  | 5 => c.theTBA
  | 6 => c.thePSTATE
  | 7 => c.theTL.setWidth 64
  | 8 => c.thePIL.setWidth 64
  | 9 => c.getCWP.setWidth 64
  | 10 => c.theCANSAVE.setWidth 64
  | 11 => c.theCANRESTORE.setWidth 64
  | 12 => c.theCLEANWIN.setWidth 64
  | 13 => c.theOTHERWIN.setWidth 64
  | 14 => c.theWSTATE.setWidth 64
  | 31 => c.theVER
  | _ => 0

/-- `pc`. -/
def pc : BitVec 64 :=
  match c.theROB with
  | x :: _ => if x.isAnnulled || x.isMicroOp then x.theNPC else x.thePC
  | [] => c.thePC

/-- The loop of `npc` over the dispatch interactions: the last program counter named before
an interaction that annuls, which forgets them all. -/
def interactionNpc : Option (BitVec 64) → List CounterInteraction → Option (BitVec 64)
  | found, [] => found
  | found, i :: is =>
    match i.npc with
    | some npc => interactionNpc (some npc) is
    | none => if i.annuls then none else interactionNpc found is

/-- `npc`. -/
def npc : BitVec 64 :=
  match c.theROB with
  | x :: _ => if x.isAnnulled || x.isMicroOp then x.theNPC + 4 else x.npcReg
  | [] =>
    match c.theNPC with
    | some npc => npc
    | none => (interactionNpc none c.theDispatchInteractions).getD (c.thePC + 4)

/-! ### Saving -/

/-- **`getv9State`**. -/
def getv9State : Except ReadFault V9State := do
  let globalRegs ← (List.range 32).mapM fun i => c.readWord .rRegisters i
  let windowRegs ← (List.range (8 * 16)).mapM fun i => c.readWord .rRegisters (i + 32)
  let fpRegs ← (List.range 64).mapM fun i => c.readWord .fRegisters i
  let ccr ← c.getCCRArchitectural
  let asi ← c.readWord .rRegisters kRegASI
  let gsr ← c.readWord .rRegisters kRegGSR
  let y ← c.readWord .rRegisters kRegY
  .ok {
    theGlobalRegs := globalRegs
    theWindowRegs := windowRegs
    theFPRegs := fpRegs
    thePC := c.pc
    theNPC := c.npc
    theTBA := c.theTBA
    theCWP := BitVec.ofNat 64 c.theArchitecturalWindowMap.theCWP
    theCCR := ccr.setWidth 64
    theFPRS := c.theFPRS
    theFSR := c.theFSR
    thePSTATE := c.thePSTATE
    theASI := asi
    theGSR := gsr
    theTL := c.theTL.setWidth 64
    thePIL := c.thePIL.setWidth 64
    theCANSAVE := c.theCANSAVE.setWidth 64
    theCANRESTORE := c.theCANRESTORE.setWidth 64
    theCLEANWIN := c.theCLEANWIN.setWidth 64
    theOTHERWIN := c.theOTHERWIN.setWidth 64
    theWSTATE := c.theWSTATE.setWidth 64
    theY := y
    theTTE := fun i =>
      { theTPC := c.getTPC (BitVec.ofNat 32 (i + 1))
        theTNPC := c.getTNPC (BitVec.ofNat 32 (i + 1))
        theTSTATE := c.getTSTATE (BitVec.ofNat 32 (i + 1))
        theTT := (c.getTT (BitVec.ofNat 32 (i + 1))).setWidth 64 } }

/-! ### Restoring -/

/-- **`resetv9`**. -/
def resetv9 : RegisterCore :=
  { c with
    theWindowMap := {}
    theArchitecturalWindowMap := {}
    theMapTables := fun t =>
      .reset (c.theMapTables t).theNameCount (c.theMapTables t).theRegisterCount
    theRegisters := fun _ _ => .word 0
    theRoundingMode := 0
    theTBA := 0
    thePSTATE := 0
    theTL := 0
    thePIL := 0
    theCANSAVE := 0
    theCANRESTORE := 0
    theCLEANWIN := 0
    theOTHERWIN := 0
    theWSTATE := 0
    theVER := 0
    theTPC := fun _ => 0
    theTNPC := fun _ => 0
    theTSTATE := fun _ => 0
    theTT := fun _ => 0
    theDispatchInteractions := []
    theROB := [] }

/-- `RegisterFile::poke`. -/
def poke (f : RegisterType → ℕ → RegisterValue) (r : MappedReg) (v : RegisterValue) :
    RegisterType → ℕ → RegisterValue :=
  Function.update f r.theType (Function.update (f r.theType) r.theIndex v)

/-- `poke`, of registers of a type from a first one on. -/
def pokeAll (t : RegisterType) : ℕ → List (BitVec 64) → (RegisterType → ℕ → RegisterValue) →
    RegisterType → ℕ → RegisterValue
  | _, [], f => f
  | i, v :: vs, f => pokeAll t (i + 1) vs (poke f ⟨t, i⟩ (.word v))

/-- `initializeRegister`. -/
def initializeRegister (r : MappedReg) (v : RegisterValue) : RegisterCore :=
  { c with theRegisters := poke c.theRegisters r v }

/-- The loops of `restorev9State` over registers of a type, from a first one on. -/
def initializeRegisters (t : RegisterType) (i : ℕ) (vs : List (BitVec 64)) : RegisterCore :=
  { c with theRegisters := pokeAll t i vs c.theRegisters }

/-- `setCWP`. -/
def setCWP (aCWP : BitVec 32) : RegisterCore :=
  { c with
    theWindowMap := c.theWindowMap.setCWP aCWP.toNat
    theArchitecturalWindowMap := c.theArchitecturalWindowMap.setCWP aCWP.toNat }

/-- The sets of global registers that `setPSTATE` selects, in one of the window maps. -/
def selectGlobals (old new : BitVec 64) (w : RegisterWindowMap) : RegisterWindowMap :=
  { w with
    theAG := if new &&& 0x1 ≠ old &&& 0x1 then new &&& 0x1 ≠ 0 else w.theAG
    theIG := if new &&& 0x800 ≠ old &&& 0x800 then new &&& 0x800 ≠ 0 else w.theIG
    theMG := if new &&& 0x400 ≠ old &&& 0x400 then new &&& 0x400 ≠ 0 else w.theMG }

/-- `setPSTATE`. -/
def setPSTATE (aPSTATE : BitVec 64) : RegisterCore :=
  { c with
    theWindowMap := selectGlobals c.thePSTATE aPSTATE c.theWindowMap
    theArchitecturalWindowMap := selectGlobals c.thePSTATE aPSTATE c.theArchitecturalWindowMap
    thePSTATE := aPSTATE }

/-- An entry of the trap stack is restored. -/
def setTTE (e : Tte) (aTL : BitVec 32) : RegisterCore :=
  { c with
    theTPC := setTrapEntry c.theTPC e.theTPC aTL
    theTNPC := setTrapEntry c.theTNPC e.theTNPC aTL
    theTSTATE := setTrapEntry c.theTSTATE e.theTSTATE aTL
    theTT := setTrapEntry c.theTT (e.theTT.setWidth 32) aTL }

/-- **`restorev9State`**. -/
def restorev9State (v : V9State) : RegisterCore :=
  let c := c.initializeRegisters .rRegisters 0 v.theGlobalRegs
  let c := c.initializeRegisters .rRegisters 32 v.theWindowRegs
  let c := c.initializeRegisters .fRegisters 0 v.theFPRegs
  let c := { c with thePC := v.thePC, theNPC := some v.theNPC, theTBA := v.theTBA }
  let c := c.setCWP (v.theCWP.setWidth 32)
  let c := c.initializeRegister (ccReg 0) (.bits (v.theCCR.setWidth 8))
  let c := c.initializeRegister (ccReg 1) (.bits (fccOf v.theFSR 0))
  let c := c.initializeRegister (ccReg 2) (.bits (fccOf v.theFSR 1))
  let c := c.initializeRegister (ccReg 3) (.bits (fccOf v.theFSR 2))
  let c := c.initializeRegister (ccReg 4) (.bits (fccOf v.theFSR 3))
  let c := { c with
    theFPRS := v.theFPRS
    theRoundingMode := ((v.theFSR >>> 30) &&& 3).setWidth 32
    theFSR := v.theFSR }
  let c := c.setPSTATE v.thePSTATE
  let c := c.initializeRegister (rReg kRegASI) (.word v.theASI)
  let c := c.initializeRegister (rReg kRegGSR) (.word v.theGSR)
  let c := { c with
    theTL := v.theTL.setWidth 32
    thePIL := v.thePIL.setWidth 32
    theCANSAVE := v.theCANSAVE.setWidth 32
    theCANRESTORE := v.theCANRESTORE.setWidth 32
    theCLEANWIN := v.theCLEANWIN.setWidth 32
    theOTHERWIN := v.theOTHERWIN.setWidth 32
    theWSTATE := v.theWSTATE.setWidth 32 }
  let c := c.initializeRegister (rReg kRegY) (.word v.theY)
  (List.range 5).foldl (fun c i => c.setTTE (v.theTTE i) (BitVec.ofNat 32 (i + 1))) c

end RegisterCore

end UArch

end Flexus
