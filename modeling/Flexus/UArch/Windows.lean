import Flexus.Lib.Machine
import Flexus.UArch.MapTable

/-!
# Register windows and effect chains

What an instruction does to the register windows and to the rename tables is written down, by
the decoder, in chains of *effects* (`components/v9Decoder/Effects.cpp`): those of its
dispatch, of its retirement and of its squash. The effects of a chain are invoked in the order
in which they were added; mapping a destination adds, as it is invoked, the effects that free
the old register at retirement, and those that undo the mapping.

An effect that undoes a mapping names the register as the instruction does, and this name is
rotated again when the effect is invoked: it finds the right register only if the window map is
what it was at dispatch.
-/

namespace Flexus

namespace UArch

/-! ### Instructions -/

/-- The destinations an instruction may have: the operands `kRD`, `kRD1`, `kXTRAr` and `kCCd`,
each with the operands for its new register and for the one before. -/
inductive Dest
  | rd
  | rd1
  | xtra
  | ccd
  deriving DecidableEq

/-- The effects that concern windows and mappings. -/
inductive Effect
  | saveWindow
  | restoreWindow
  | saveWindowPriv
  | restoreWindowPriv
  /-- `MapDestinationEffect`; the flag is `theSquashEffects`. -/
  | mapDestination (d : Dest) (theSquashEffects : Bool)
  /-- `FreeMappingEffect` of the new register. -/
  | freeMapping (d : Dest)
  /-- `FreeMappingEffect` of the register before. -/
  | freePrevious (d : Dest)
  /-- `RestoreMappingEffect`. -/
  | restoreMapping (d : Dest)
  deriving DecidableEq

/-- What an instruction does to the window. -/
inductive WindowMove
  | stay
  | save
  | restore
  deriving DecidableEq

/-- `SemanticInstruction`, as far as windows and mappings go. -/
structure SemanticInstruction where
  theMove : WindowMove
  /-- The destination operands that are set. -/
  theDestinations : List Dest
  theName : Dest → UnmappedReg
  theMapping : Dest → MappedReg := fun _ => ⟨.rRegisters, 0⟩
  thePreviousMapping : Dest → MappedReg := fun _ => ⟨.rRegisters, 0⟩
  theDispatchEffects : List Effect
  theSquashEffects : List Effect
  theRetirementEffects : List Effect

namespace SemanticInstruction

variable (x : SemanticInstruction)

def setMapping (d : Dest) (m p : MappedReg) : SemanticInstruction :=
  { x with
    theMapping := Function.update x.theMapping d m
    thePreviousMapping := Function.update x.thePreviousMapping d p }

def addRetirementEffect (e : Effect) : SemanticInstruction :=
  { x with theRetirementEffects := x.theRetirementEffects ++ [e] }

def addSquashEffect (e : Effect) : SemanticInstruction :=
  { x with theSquashEffects := x.theSquashEffects ++ [e] }

end SemanticInstruction

/-- The names an instruction can write: the integer registers of the current window and the
special ones, and the condition codes. -/
def UnmappedReg.IsName (r : UnmappedReg) : Prop :=
  match r.theType with
  | .rRegisters => r.theIndex < 32 ∨ kFirstSpecialReg ≤ r.theIndex ∧ r.theIndex < kTotalRegs
  | .fRegisters => False
  | .ccBits => r.theIndex < 5

instance (r : UnmappedReg) : Decidable r.IsName :=
  match r with
  | ⟨.rRegisters, i⟩ =>
    inferInstanceAs (Decidable (i < 32 ∨ kFirstSpecialReg ≤ i ∧ i < kTotalRegs))
  | ⟨.fRegisters, _⟩ => inferInstanceAs (Decidable False)
  | ⟨.ccBits, i⟩ => inferInstanceAs (Decidable (i < 5))

/-- The destinations of a type. -/
def destinationsOf (name : Dest → UnmappedReg) (l : List Dest) (t : RegisterType) : List Dest :=
  l.filter fun d => (name d).theType == t

/-- The destinations of an instruction that leaves the windows alone, in the order in which the
decoder maps them: at most two integer registers and one condition code, all of them
different – a result and `%y` or `%gsr`, or the two registers of an LDD. -/
structure Writes where
  operands : List Dest
  name : Dest → UnmappedReg
  nodup : operands.Nodup
  distinct : (operands.map name).Nodup
  names : ∀ d ∈ operands, (name d).IsName
  integers : (destinationsOf name operands .rRegisters).length ≤ 2
  conditionCodes : (destinationsOf name operands .ccBits).length ≤ 1

/-- `save_and_restore`. The effects that undo the mapping of the destination are those of
`restorePreviousDestination` and `unmapDestination`; the one that maps it is
`mapDestination_NoSquashEffects`. -/
def saveAndRestore (isRestore : Bool) (rd : Fin 32) : SemanticInstruction :=
  let dests : List Dest := if rd.val ≠ 0 then [.rd] else []
  { theMove := if isRestore then .restore else .save
    theDestinations := dests
    theName := fun _ => ⟨.rRegisters, rd⟩
    theSquashEffects := dests.flatMap (fun d => [.restoreMapping d, .freeMapping d]) ++
      [if isRestore then .saveWindow else .restoreWindow]
    theDispatchEffects := [if isRestore then .restoreWindow else .saveWindow] ++
      dests.map fun d => .mapDestination d false
    theRetirementEffects := [if isRestore then .restoreWindowPriv else .saveWindowPriv] }

/-- `return_`. -/
def returnInstruction : SemanticInstruction where
  theMove := .restore
  theDestinations := []
  theName := fun _ => ⟨.rRegisters, 0⟩
  theDispatchEffects := [.restoreWindow]
  theSquashEffects := [.saveWindow]
  theRetirementEffects := [.restoreWindowPriv]

/-- Other instructions: `addWriteback`, `addRD1Writeback` and `addXTRA` map the destinations. -/
def computation (w : Writes) : SemanticInstruction where
  theMove := .stay
  theDestinations := w.operands
  theName := w.name
  theDispatchEffects := w.operands.map fun d => .mapDestination d true
  theSquashEffects := []
  theRetirementEffects := []

/-- The instructions. -/
inductive Insn
  | saveAndRestore (isRestore : Bool) (rd : Fin 32)
  | returnInstruction
  | computation (w : Writes)

def Insn.decode : Insn → SemanticInstruction
  | .saveAndRestore isRestore rd => UArch.saveAndRestore isRestore rd
  | .returnInstruction => UArch.returnInstruction
  | .computation w => UArch.computation w

/-! ### The core -/

/-- `CoreImpl`, as far as windows and mappings go. -/
structure WindowCore where
  theROBSize : ℕ
  theWindowMap : RegisterWindowMap
  theArchitecturalWindowMap : RegisterWindowMap
  theMapTables : RegisterType → PhysicalMap
  theROB : List SemanticInstruction
  theCANSAVE : ℕ
  theCANRESTORE : ℕ
  theCLEANWIN : ℕ
  theOTHERWIN : ℕ
  theWSTATE : ℕ

def kfRegs : ℕ := 64

/-- The names of the rename tables. -/
def nameCount : RegisterType → ℕ
  | .rRegisters => kTotalRegs
  | .fRegisters => kfRegs
  | .ccBits => 5

/-- `reg_file_sizes`. -/
def regFileSize (aROBSize : ℕ) : RegisterType → ℕ
  | .rRegisters => kTotalRegs + 2 * aROBSize
  | .fRegisters => kfRegs + 4 * aROBSize
  | .ccBits => 5 + aROBSize

namespace WindowCore

variable (c : WindowCore)

def setTable (t : RegisterType) (m : PhysicalMap) : WindowCore :=
  { c with theMapTables := Function.update c.theMapTables t m }

/-- `map`. -/
def map (r : UnmappedReg) : Except MapFault MappedReg := do
  let reg := c.theWindowMap.rotate r
  let i ← (c.theMapTables reg.theType).map reg.theIndex
  .ok ⟨reg.theType, i⟩

/-- `create`: the new register and the one before. -/
def create (r : UnmappedReg) : Except MapFault (WindowCore × MappedReg × MappedReg) := do
  let reg := c.theWindowMap.rotate r
  let (m, new, previous) ← (c.theMapTables reg.theType).create reg.theIndex
  .ok (c.setTable reg.theType m, ⟨r.theType, new⟩, ⟨r.theType, previous⟩)

/-- `free`. -/
def free (r : MappedReg) : Except MapFault WindowCore := do
  let m ← (c.theMapTables r.theType).free r.theIndex
  .ok (c.setTable r.theType m)

/-- `restore`. -/
def restore (name : UnmappedReg) (r : MappedReg) : Except MapFault WindowCore :=
  if name.theType = r.theType then
    .ok (c.setTable name.theType
      ((c.theMapTables name.theType).restore (c.theWindowMap.rotate name).theIndex r.theIndex))
  else .error .type

def decMod8 (n : ℕ) : ℕ := if n = 0 then 7 else n - 1

def incMod8 (n : ℕ) : ℕ := if n + 1 ≥ 8 then 0 else n + 1

def saveWindow : WindowCore := { c with theWindowMap := c.theWindowMap.incrementCWP }

def restoreWindow : WindowCore := { c with theWindowMap := c.theWindowMap.decrementCWP }

def saveWindowPriv : WindowCore :=
  let c' := { c with theArchitecturalWindowMap := c.theArchitecturalWindowMap.incrementCWP }
  if c.theCANSAVE = 0 then c'
  else if c.theCLEANWIN = c.theCANRESTORE then c'
  else { c' with theCANRESTORE := incMod8 c.theCANRESTORE, theCANSAVE := decMod8 c.theCANSAVE }

def restoreWindowPriv : WindowCore :=
  let c' := { c with theArchitecturalWindowMap := c.theArchitecturalWindowMap.decrementCWP }
  if c.theCANRESTORE = 0 then c'
  else { c' with theCANRESTORE := decMod8 c.theCANRESTORE, theCANSAVE := incMod8 c.theCANSAVE }

/-- `Effect::invoke`. -/
def invoke (p : WindowCore × SemanticInstruction) :
    Effect → Except MapFault (WindowCore × SemanticInstruction)
  | .saveWindow => .ok (p.1.saveWindow, p.2)
  | .restoreWindow => .ok (p.1.restoreWindow, p.2)
  | .saveWindowPriv => .ok (p.1.saveWindowPriv, p.2)
  | .restoreWindowPriv => .ok (p.1.restoreWindowPriv, p.2)
  | .mapDestination d squashEffects => do
    let (c, m, previous) ← p.1.create (p.2.theName d)
    let x := (p.2.setMapping d m previous).addRetirementEffect (.freePrevious d)
    .ok (c, if squashEffects then
        (x.addSquashEffect (.restoreMapping d)).addSquashEffect (.freeMapping d)
      else x)
  | .freeMapping d => do
    let c ← p.1.free (p.2.theMapping d)
    .ok (c, p.2)
  | .freePrevious d => do
    let c ← p.1.free (p.2.thePreviousMapping d)
    .ok (c, p.2)
  | .restoreMapping d => do
    let c ← p.1.restore (p.2.theName d) (p.2.thePreviousMapping d)
    .ok (c, p.2)

/-- `EffectChain::invoke`. -/
def invokeChain : List Effect → WindowCore × SemanticInstruction →
    Except MapFault (WindowCore × SemanticInstruction)
  | [], p => .ok p
  | e :: es, p => do
    let p ← invoke p e
    invokeChain es p

/-- `dispatch`, of which there is none while the reorder buffer is full. -/
def dispatch (i : Insn) : Except MapFault WindowCore :=
  if c.theROB.length < c.theROBSize then do
    let x := i.decode
    let (c', x') ← invokeChain x.theDispatchEffects (c, x)
    .ok { c' with theROB := c.theROB ++ [x'] }
  else .ok c

/-- The youngest instruction is squashed, and leaves the reorder buffer. -/
def squashYoungest : Except MapFault WindowCore :=
  match c.theROB.getLast? with
  | none => .ok c
  | some x => do
    let (c', _) ← invokeChain x.theSquashEffects (c, x)
    .ok { c' with theROB := c.theROB.dropLast }

/-- `doSquash`, of the `k` youngest instructions, from the youngest on. -/
def doSquash : ℕ → WindowCore → Except MapFault WindowCore
  | 0, c => .ok c
  | k + 1, c => do
    let c ← c.squashYoungest
    doSquash k c

/-- `regWinTrapType`. -/
def regWinTrapType (isFill : Bool) : ℕ :=
  let tt := if isFill then 0xC0 else 0x80
  if c.theOTHERWIN ≠ 0 then tt ||| 0x20 ||| (((c.theWSTATE >>> 3) &&& 0x7) <<< 2)
  else tt ||| ((c.theWSTATE &&& 0x7) <<< 2)

/-- `checkTraps`: `SaveTrapEffect` and `RestoreTrapEffect`. -/
def checkTraps (x : SemanticInstruction) : Option ℕ :=
  match x.theMove with
  | .stay => none
  | .save =>
    if c.theCANSAVE = 0 then some (c.regWinTrapType false)
    else if c.theCLEANWIN = c.theCANRESTORE then some 0x24
    else none
  | .restore => if c.theCANRESTORE = 0 then some (c.regWinTrapType true) else none

def setCWP (n : ℕ) : WindowCore :=
  { c with
    theWindowMap := c.theWindowMap.setCWP n
    theArchitecturalWindowMap := c.theArchitecturalWindowMap.setCWP n }

/-- `setPSTATE`, as far as the sets of global registers go. -/
def setGlobals (ag ig mg : Bool) : WindowCore :=
  { c with
    theWindowMap := { c.theWindowMap with theAG := ag, theIG := ig, theMG := mg }
    theArchitecturalWindowMap :=
      { c.theArchitecturalWindowMap with theAG := ag, theIG := ig, theMG := mg } }

/-- `handleTrap`. -/
def handleTrap (tt : ℕ) : WindowCore :=
  let mmu : Bool := 0x64 ≤ tt && tt ≤ 0x6F
  let c := c.setGlobals (!mmu && tt != 0x60) (!mmu && tt == 0x60) mmu
  if tt = 0x24 then
    { c with
      theWindowMap := c.theWindowMap.incrementCWP
      theArchitecturalWindowMap := c.theArchitecturalWindowMap.incrementCWP }
  else if 0x80 ≤ tt ∧ tt ≤ 0xBF then
    c.setCWP ((c.theWindowMap.theCWP + c.theCANSAVE + 2) % 8)
  else if 0xC0 ≤ tt ∧ tt ≤ 0xFF then
    { c with
      theWindowMap := c.theWindowMap.decrementCWP
      theArchitecturalWindowMap := c.theArchitecturalWindowMap.decrementCWP }
  else c

/-- A trap of the oldest instruction: the reorder buffer is squashed and the trap handled. -/
def takeTrap (tt : ℕ) : Except MapFault WindowCore := do
  let c ← doSquash c.theROB.length c
  .ok (c.handleTrap tt)

/-- `retire`, of the oldest instruction. -/
def retire : Except MapFault WindowCore :=
  match c.theROB with
  | [] => .ok c
  | x :: rest =>
    match c.checkTraps x with
    | some tt => c.takeTrap tt
    | none => do
      let (c', _) ← invokeChain x.theRetirementEffects (c, x)
      .ok { c' with theROB := rest }

end WindowCore

/-- What happens to the windows of a core. -/
inductive WindowEvent
  | dispatch (i : Insn)
  | retire
  /-- The youngest instructions are squashed. -/
  | squash (k : ℕ)
  /-- Another trap of the oldest instruction, or an interrupt. -/
  | trap (tt : ℕ)
  /-- The window and the register set are changed while nothing is in flight. -/
  | setWindow (cwp : Fin 8) (ag ig mg : Bool)
  /-- The counters of windows are written. -/
  | setCounters (cansave canrestore cleanwin otherwin wstate : ℕ)

namespace WindowCore

/-- A core after its construction. -/
def initial (aROBSize : ℕ) : WindowCore where
  theROBSize := aROBSize
  theWindowMap := {}
  theArchitecturalWindowMap := {}
  theMapTables := fun t => .reset (nameCount t) (regFileSize aROBSize t)
  theROB := []
  theCANSAVE := 0
  theCANRESTORE := 0
  theCLEANWIN := 0
  theOTHERWIN := 0
  theWSTATE := 0

variable (c : WindowCore)

def step : WindowEvent → Except MapFault WindowCore
  | .dispatch i => c.dispatch i
  | .retire => c.retire
  | .squash k => doSquash k c
  | .trap tt => if c.theROB = [] then .ok c else c.takeTrap tt
  | .setWindow cwp ag ig mg =>
    .ok (if c.theROB = [] then (c.setCWP cwp).setGlobals ag ig mg else c)
  | .setCounters cansave canrestore cleanwin otherwin wstate =>
    .ok { c with
      theCANSAVE := cansave, theCANRESTORE := canrestore, theCLEANWIN := cleanwin
      theOTHERWIN := otherwin, theWSTATE := wstate }

end WindowCore

/-- A core with a reorder buffer of a size, from its construction on. -/
def windowMachine (aROBSize : ℕ) : Lib.Machine WindowCore WindowEvent MapFault where
  init := .initial aROBSize
  step := WindowCore.step

/-! ### What the windows are for -/

/-- The sets of global registers. -/
inductive GlobalSet
  | normal
  | alternate
  | mmu
  | interrupt
  deriving DecidableEq

/-- **The registers of SPARC V9**. The outs of a window are the ins of the next one, so that a
window has its locals and its outs, and the ins are those of the window before. -/
inductive ArchReg
  | global (set : GlobalSet) (i : ℕ)
  | out (window i : ℕ)
  | loc (window i : ℕ)
  | special (i : ℕ)
  | floating (i : ℕ)
  | conditionCode (i : ℕ)
  deriving DecidableEq

namespace RegisterWindowMap

variable (w : RegisterWindowMap)

def globalSet : GlobalSet :=
  if w.theAG then .alternate
  else if w.theMG then .mmu
  else if w.theIG then .interrupt
  else .normal

/-- The register a name means in a window. -/
def location (r : UnmappedReg) : ArchReg :=
  match r.theType with
  | .fRegisters => .floating r.theIndex
  | .ccBits => .conditionCode r.theIndex
  | .rRegisters =>
    if r.theIndex ≥ kFirstSpecialReg then .special r.theIndex
    else if r.theIndex < 8 then .global w.globalSet r.theIndex
    else if r.theIndex < 16 then .out w.theCWP (r.theIndex - 8)
    else if r.theIndex < 24 then .loc w.theCWP (r.theIndex - 16)
    else .out ((w.theCWP + 7) % 8) (r.theIndex - 24)

end RegisterWindowMap

/-- The window after a move. -/
def WindowMove.apply : WindowMove → RegisterWindowMap → RegisterWindowMap
  | .stay, w => w
  | .save, w => w.incrementCWP
  | .restore, w => w.decrementCWP

/-- **The registers that instructions write**, from the oldest on, and the physical register
each of them has got. The window is that before the first of them. -/
def writers : RegisterWindowMap → List SemanticInstruction → List (ArchReg × ℕ)
  | _, [] => []
  | w, x :: xs =>
    let w := x.theMove.apply w
    x.theDestinations.map (fun d => (w.location (x.theName d), (x.theMapping d).theIndex)) ++
      writers w xs

/-- What the youngest instruction that writes a register has got for it. -/
def youngestWriter (w : RegisterWindowMap) (l : List SemanticInstruction) (a : ArchReg) :
    Option ℕ :=
  ((writers w l).filter fun p => p.1 == a).getLast?.map Prod.snd

end UArch

end Flexus
