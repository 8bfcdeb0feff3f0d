import Flexus.Decoder.BaseAction
import Flexus.UArch.RegisterFile
import Flexus.UArch.ValueTracker

/-!
# Annulled instructions

The delay slot of a branch may be *annulled*: it goes on as an instruction that leaves the registers
as they were. So every destination register is written by an action that is fed twice
(`components/v9Decoder/v9Instruction.cpp`): by the action that produces the result, and by one that
copies the previous register. Their predicates say which of the two counts, and the effects of an
annulment and of a *reinstatement* turn them over.

Loads differ from the other producing actions. They do nothing when they are evaluated, but signal
as soon as their value is there and their predicate is on – which may be in the middle of the
effects of a reinstatement.

The instruction here is live: it is dispatched, and neither squashed nor retired. Bypassed values
go to other instructions and are left out, as are `theExecuted` and the effects of annulments that
do not concern the destinations.
-/

namespace Flexus

open Function

namespace Decoder

open UArch (RegisterBits PhysicalRegister)

/-- The operands that hold results. The register of each (`kPD`, `kCCpd`, `kPD1`, `kXTRApd`,
`kPFD0`, `kPFD1`) and the previous one (`kPPD`, `kPCCpd`, `kPPD1`, `kXTRAppd`, `kPPFD0`,
`kPPFD1`) belong to it. -/
inductive ResultCode
  | kResult
  | kResultCC
  | kResult1
  | kXTRAout
  | kfResult0
  | kfResult1
  deriving DecidableEq

/-! ### Producing actions -/

/-- `Operation`. -/
structure Operation where
  /-- `operator()`. -/
  eval : List RegisterBits → RegisterBits
  evalExtra : List RegisterBits → RegisterBits

/-- **The predicated actions that produce a result**, with what they were constructed with. -/
inductive ProducingAction
  | executeAction (numOperands : ℕ) (theResult : ResultCode) (theOperation : Operation)
  | executeAction_WithXTRA (numOperands : ℕ) (theOperation : Operation)
  | fpExecuteAction (numOperands : ℕ) (theOperation : Operation) (theSize : UArch.Size)
  | loadAction (theSize : UArch.Size) (theSignExtend theLoadExtended : Bool)
  | lddAction
  | loadFloatingAction (theSize : UArch.Size)

/-- What a producing action reads: operands of its instruction, and the values of the entry of the
load queue. -/
structure Inputs where
  theOperands : Fin 5 → RegisterBits
  loadValue : RegisterBits
  extendedLoadValue : RegisterBits

/-- The value of a load, as `LoadAction::doLoad` cuts and extends it. -/
def sizedValue (theSize : UArch.Size) (theSignExtend : Bool) (value : RegisterBits) :
    RegisterBits :=
  match theSize with
  | .byte =>
    let value := value &&& 0xFF#64
    if theSignExtend && value &&& 0x80#64 != 0 then value ||| 0xFFFFFFFFFFFFFF00#64 else value
  | .halfWord =>
    let value := value &&& 0xFFFF#64
    if theSignExtend && value &&& 0x8000#64 != 0 then value ||| 0xFFFFFFFFFFFF0000#64 else value
  | .word =>
    let value := value &&& 0xFFFFFFFF#64
    if theSignExtend && value &&& 0x80000000#64 != 0 then value ||| 0xFFFFFFFF00000000#64
    else value
  | .doubleWord => value

namespace ProducingAction

/-- `numOperands`. -/
def numOperands : ProducingAction → ℕ
  | executeAction n _ _ => n
  | executeAction_WithXTRA n _ => n
  | fpExecuteAction n _ _ => n
  | loadAction _ _ _ => 1
  | lddAction => 1
  | loadFloatingAction _ => 1

/-- The actions that have a `doLoad`, which their `satisfy` and `predicate_on` call. -/
def hasDoLoad : ProducingAction → Bool
  | executeAction _ _ _ => false
  | executeAction_WithXTRA _ _ => false
  | fpExecuteAction _ _ _ => false
  | loadAction _ _ _ => true
  | lddAction => true
  | loadFloatingAction _ => true

/-- **The operands that an action sets**, in `doEvaluate` or in `doLoad`. -/
def results (x : Inputs) : ProducingAction → List (ResultCode × RegisterBits)
  | executeAction n theResult theOperation =>
    [(theResult, theOperation.eval ((List.ofFn x.theOperands).take n))]
  | executeAction_WithXTRA n theOperation =>
    [(.kResult, theOperation.eval ((List.ofFn x.theOperands).take n)),
      (.kXTRAout, theOperation.evalExtra ((List.ofFn x.theOperands).take n))]
  | fpExecuteAction n theOperation theSize =>
    let val := theOperation.eval ((List.ofFn x.theOperands).take n)
    match theSize with
    | .doubleWord => [(.kfResult0, val >>> 32), (.kfResult1, val &&& 0xFFFFFFFF#64)]
    | .word => [(.kfResult0, val)]
    | .byte => [(.kResultCC, val)]
    | .halfWord => []
  | loadAction theSize theSignExtend theLoadExtended =>
    let value := if theLoadExtended then x.extendedLoadValue else x.loadValue
    [(.kResult, sizedValue theSize theSignExtend value)]
  | lddAction =>
    -- `kOperand3` holds the ASI, and `0x24` and `0x34` are those of quad loads
    let asi := (x.theOperands 2).truncate 32
    let isQuad := asi = 0x24#32 ∨ asi = 0x34#32
    [(.kResult, if isQuad then x.loadValue else x.loadValue >>> 32),
      (.kResult1, if isQuad then x.extendedLoadValue else x.loadValue &&& 0xFFFFFFFF#64)]
  | loadFloatingAction theSize =>
    match theSize with
    | .word => [(.kfResult0, x.loadValue &&& 0xFFFFFFFF#64)]
    | .doubleWord =>
      [(.kfResult1, x.loadValue &&& 0xFFFFFFFF#64), (.kfResult0, x.loadValue >>> 32)]
    | .byte => []
    | .halfWord => []

/-- The operands that an action sets, whatever it reads. -/
def resultCodes : ProducingAction → List ResultCode
  | executeAction _ theResult _ => [theResult]
  | executeAction_WithXTRA _ _ => [.kResult, .kXTRAout]
  | fpExecuteAction _ _ .doubleWord => [.kfResult0, .kfResult1]
  | fpExecuteAction _ _ .word => [.kfResult0]
  | fpExecuteAction _ _ .byte => [.kResultCC]
  | fpExecuteAction _ _ .halfWord => []
  | loadAction _ _ _ => [.kResult]
  | lddAction => [.kResult, .kResult1]
  | loadFloatingAction .word => [.kfResult0]
  | loadFloatingAction .doubleWord => [.kfResult1, .kfResult0]
  | loadFloatingAction .byte => []
  | loadFloatingAction .halfWord => []

theorem results_fst (x : Inputs) (a : ProducingAction) :
    (a.results x).map Prod.fst = a.resultCodes := by
  cases a with
  | fpExecuteAction n theOperation theSize => cases theSize <;> rfl
  | loadFloatingAction theSize => cases theSize <;> rfl
  | _ => rfl

end ProducingAction

/-! ### How an instruction is put together -/

variable {π : Type}

/-- The actions of an instruction that has producing actions `π`. -/
inductive InsnAction (π : Type)
  | exec (p : π)
  | annul (d : ResultCode)
  | writeback (d : ResultCode)
  deriving DecidableEq

/-- The effects that turn predicates over: `SatisfyDependanceEffect` and
`SquashDependanceEffect`, for the predicate of an action. -/
inductive PredicateEffect (π : Type)
  | satisfy (a : InsnAction π)
  | squash (a : InsnAction π)
  deriving DecidableEq

/-- What `addWriteback` and the like make of an instruction. -/
structure SemanticInstruction (π : Type) where
  /-- The results whose `WritebackAction` waits for a producing action. The retirement waits for
  the `WritebackAction`. -/
  theDependances : π → List ResultCode
  /-- The producing actions that the retirement itself waits for. -/
  feedsRetirement : π → Bool
  theDispatchActions : List (InsnAction π)
  theAnnulmentEffects : List (PredicateEffect π)
  theReinstatementEffects : List (PredicateEffect π)

namespace SemanticInstruction

variable [DecidableEq π] (inst : SemanticInstruction π)

/-- `connectDependance( wb.dependance, exec )` and
`connectDependance( inst->retirementDependance(), wb )`. -/
def connect (exec : π) (d : ResultCode) : SemanticInstruction π :=
  { inst with
    theDependances :=
      update inst.theDependances exec (inst.theDependances exec ++ [d]) }

/-- The effects that `addAnnulment` and its siblings add. -/
def annulWith (exec : π) (d : ResultCode) : SemanticInstruction π :=
  { inst with
    theAnnulmentEffects :=
      inst.theAnnulmentEffects ++ [.satisfy (.annul d), .squash (.exec exec)]
    theReinstatementEffects :=
      inst.theReinstatementEffects ++ [.squash (.annul d), .satisfy (.exec exec)] }

/-- `addWriteback`, for `rRegisters` or for `ccBits`. -/
def addWriteback (isCC : Bool) (exec : π) : SemanticInstruction π :=
  let d := if isCC then ResultCode.kResultCC else .kResult
  (inst.annulWith exec d).connect exec d

/-- **`addDestination`**: where there is nothing to write back, the retirement waits for the
producing action. -/
def addDestination (rd : BitVec 5) (exec : π) : SemanticInstruction π :=
  if rd ≠ 0 then inst.addWriteback false exec
  else { inst with feedsRetirement := update inst.feedsRetirement exec true }

/-- `addRD1Writeback`: `addRD1Annulment` has the annulling action dispatched. -/
def addRD1Writeback (exec : π) : SemanticInstruction π :=
  { (inst.annulWith exec .kResult1).connect exec .kResult1 with
    theDispatchActions := inst.theDispatchActions ++ [.annul .kResult1] }

/-- `addFloatingWriteback`, whose index is 0 wherever it is called. -/
def addFloatingWriteback (exec : π) : SemanticInstruction π :=
  (inst.annulWith exec .kfResult0).connect exec .kfResult0

/-- **`addDoubleFloatingWriteback`**, with effects of its own. -/
def addDoubleFloatingWriteback (exec : π) : SemanticInstruction π :=
  (({ inst with
      theAnnulmentEffects := inst.theAnnulmentEffects ++
        [.satisfy (.annul .kfResult0), .satisfy (.annul .kfResult1), .squash (.exec exec)]
      theReinstatementEffects := inst.theReinstatementEffects ++
        [.squash (.annul .kfResult0), .squash (.annul .kfResult1), .satisfy (.exec exec)] } :
    SemanticInstruction π).connect exec .kfResult0).connect exec .kfResult1

/-- `addXTRA`. -/
def addXTRA (exec : π) : SemanticInstruction π :=
  (inst.annulWith exec .kXTRAout).connect exec .kXTRAout

end SemanticInstruction

/-- A call of one of these functions. -/
inductive DestinationCall (π : Type)
  | addWriteback (isCC : Bool) (exec : π)
  | addDestination (rd : BitVec 5) (exec : π)
  | addRD1Writeback (exec : π)
  | addFloatingWriteback (exec : π)
  | addDoubleFloatingWriteback (exec : π)
  | addXTRA (exec : π)

namespace DestinationCall

/-- The producing action that the call is given. -/
def exec : DestinationCall π → π
  | addWriteback _ p => p
  | addDestination _ p => p
  | addRD1Writeback p => p
  | addFloatingWriteback p => p
  | addDoubleFloatingWriteback p => p
  | addXTRA p => p

/-- The results that are written back. -/
def results : DestinationCall π → List ResultCode
  | addWriteback isCC _ => [if isCC then .kResultCC else .kResult]
  | addDestination rd _ => if rd ≠ 0 then [.kResult] else []
  | addRD1Writeback _ => [.kResult1]
  | addFloatingWriteback _ => [.kfResult0]
  | addDoubleFloatingWriteback _ => [.kfResult0, .kfResult1]
  | addXTRA _ => [.kXTRAout]

variable [DecidableEq π]

def run (inst : SemanticInstruction π) : DestinationCall π → SemanticInstruction π
  | addWriteback isCC p => inst.addWriteback isCC p
  | addDestination rd p => inst.addDestination rd p
  | addRD1Writeback p => inst.addRD1Writeback p
  | addFloatingWriteback p => inst.addFloatingWriteback p
  | addDoubleFloatingWriteback p => inst.addDoubleFloatingWriteback p
  | addXTRA p => inst.addXTRA p

end DestinationCall

/-- **A decoded instruction.** Each result has one destination register, and one producing action
that sets it. -/
structure Decoded (π : Type) where
  producer : π → ProducingAction
  /-- The producing actions that are dispatch actions. -/
  dispatched : π → Bool
  calls : List (DestinationCall π)
  nodup : (calls.flatMap DestinationCall.results).Nodup
  sets : ∀ c ∈ calls, ∀ d ∈ c.results, ∀ p, d ∈ (producer p).resultCodes ↔ p = c.exec
  /-- An action that waits for nothing is a dispatch action. -/
  created : ∀ p, (producer p).numOperands = 0 → dispatched p = true

/-- The instruction that the calls make. -/
def Decoded.instruction [DecidableEq π] (g : Decoded π) : SemanticInstruction π :=
  g.calls.foldl DestinationCall.run
    { theDependances := fun _ => []
      feedsRetirement := fun _ => false
      theDispatchActions := []
      theAnnulmentEffects := []
      theReinstatementEffects := [] }

/-! ### A destination -/

/-- **One destination of an instruction**, with the actions that write it back or annul it. -/
structure Destination where
  annul : SemanticAction
  theMOVConnected : Bool
  writeback : SemanticAction
  /-- Its bit in `theRetirementDepends`. -/
  mayRetire : Bool
  theRegister : PhysicalRegister
  thePrevious : PhysicalRegister
  theResult : RegisterBits

namespace Destination

variable (x : Destination)

/-- **`WritebackAction::squash`**. -/
def squashWriteback : Destination :=
  let x := { x with
    theRegister := x.theRegister.squash
    writeback := x.writeback.setReady 0 false }
  if x.writeback.theSquashed then x
  else { x with mayRetire := false, writeback := x.writeback.markSquashed }

/-- `satisfy` of the `WritebackAction`. -/
def satisfyWriteback : Destination := { x with writeback := x.writeback.satisfy 0 }

/-- **`WritebackAction::doEvaluate`**. -/
def evaluateWriteback : Destination :=
  let x := { x with writeback := x.writeback.take }
  if x.writeback.ready then
    let x := { x with theRegister := x.theRegister.write x.theResult }
    if x.writeback.theSignalled then x
    else { x with mayRetire := true, writeback := x.writeback.signal }
  else x

/-- `squashDependants` of the `AnnulAction`. -/
def squashAnnulDependants : Destination :=
  if x.annul.theSquashed then x
  else { x.squashWriteback with annul := x.annul.markSquashed }

/-- `predicate_on` of the `AnnulAction`. -/
def annulOn : Destination :=
  if x.annul.thePredicate then x
  else squashAnnulDependants { x with
    annul := { x.annul.reschedule with thePredicate := true } }

/-- `predicate_off` of the `AnnulAction`. -/
def annulOff : Destination :=
  if x.annul.thePredicate then
    squashAnnulDependants { x with
      annul := { x.annul.reschedule with thePredicate := false } }
  else x

/-- `PredicatedSemanticAction::squash` of the `AnnulAction`. -/
def squashAnnul : Destination :=
  let x := { x with annul := x.annul.setReady 0 false }
  if x.annul.thePredicate then x.squashAnnulDependants else x

/-- The previous register is squashed, and so is what depends on it. -/
def squashPrevious : Destination :=
  let x := { x with thePrevious := x.thePrevious.squash }
  if x.theMOVConnected then x.squashAnnul else x

/-- The previous register is written, and what depends on it is satisfied. -/
def writePrevious (aValue : RegisterBits) : Destination :=
  let x := { x with thePrevious := x.thePrevious.write aValue }
  if x.theMOVConnected then { x with annul := x.annul.satisfy 0 } else x

/-- **`AnnulAction::doEvaluate`**. It comes to nothing only where `RegisterFile::read` asserts. -/
def evaluateAnnul : Option Destination :=
  let x := { x with annul := x.annul.take }
  if x.annul.thePredicate then
    let x := { x with theMOVConnected := true }
    let x := if x.thePrevious.theStatus = .ready then
      { x with annul := x.annul.setReady 0 true } else x
    if x.annul.ready then do
      let aValue ← x.thePrevious.read
      let x := { x with theResult := aValue }
      if x.annul.theSignalled then some x
      else some { x.satisfyWriteback with annul := x.annul.signal }
    else some x
  else some x

end Destination

/-! ### A live instruction -/

/-- **The state of an instruction.** -/
structure InsnState (π : Type) where
  theAnnulled : Bool
  exec : π → SemanticAction
  theInputs : π → Inputs
  /-- The bits in `theRetirementDepends` of the producing actions that have one. -/
  mayRetire : π → Bool
  destination : ResultCode → Destination

namespace InsnState

variable [DecidableEq π] (s : InsnState π)

def setExec (p : π) (a : SemanticAction) : InsnState π :=
  { s with exec := update s.exec p a }

def setMayRetire (p : π) (b : Bool) : InsnState π :=
  { s with mayRetire := update s.mayRetire p b }

/-- What is done to one destination. -/
def modify (f : Destination → Destination) (d : ResultCode) : InsnState π :=
  { s with destination := update s.destination d (f (s.destination d)) }

/-- `setOperand`, for each of the results that an action sets. -/
def setOperands (l : List (ResultCode × RegisterBits)) : InsnState π :=
  { s with destination := fun d =>
      { s.destination d with theResult := (l.lookup d).getD (s.destination d).theResult } }

end InsnState

namespace Decoded

variable [DecidableEq π] (g : Decoded π) (s : InsnState π) (p : π)

/-- `satisfyDependants` of a producing action. -/
def satisfyDependants : InsnState π :=
  if (s.exec p).theSignalled then s
  else
    let s := (g.instruction.theDependances p).foldl
      (InsnState.modify · Destination.satisfyWriteback) s
    let s := if g.instruction.feedsRetirement p then s.setMayRetire p true else s
    s.setExec p (s.exec p).signal

/-- `squashDependants` of a producing action. -/
def squashDependants : InsnState π :=
  if (s.exec p).theSquashed then s
  else
    let s := (g.instruction.theDependances p).foldl
      (InsnState.modify · Destination.squashWriteback) s
    let s := if g.instruction.feedsRetirement p then s.setMayRetire p false else s
    s.setExec p (s.exec p).markSquashed

/-- The results are set, and the dependants satisfied. -/
def produce : InsnState π :=
  g.satisfyDependants (s.setOperands ((g.producer p).results (s.theInputs p))) p

/-- The end of `LoadAction::satisfy` and `LoadAction::predicate_on`, and of those of the other
loads: `doLoad` if the value is there and the predicate is on. -/
def doLoadIfReady : InsnState π :=
  if (g.producer p).hasDoLoad && (s.exec p).ready && (s.exec p).thePredicate then g.produce s p
  else s

/-- `predicate_on` of a producing action. -/
def predicateOn : InsnState π :=
  let s := if (s.exec p).thePredicate then s
    else g.squashDependants
      (s.setExec p { (s.exec p).reschedule with thePredicate := true }) p
  g.doLoadIfReady s p

/-- `predicate_off` of a producing action. -/
def predicateOff : InsnState π :=
  if (s.exec p).thePredicate then
    g.squashDependants (s.setExec p { (s.exec p).reschedule with thePredicate := false }) p
  else s

/-- `satisfy` of a producing action, with what it reads from then on. -/
def satisfyExec (i : Fin 5) (x : Inputs) : InsnState π :=
  let s := { s with theInputs := update s.theInputs p x }
  g.doLoadIfReady (s.setExec p ((s.exec p).satisfy i)) p

/-- `squash` of a producing action. -/
def squashExec (i : Fin 5) : InsnState π :=
  let s := s.setExec p ((s.exec p).setReady i false)
  if (s.exec p).thePredicate then g.squashDependants s p else s

/-- `evaluate` of a producing action. A load does nothing; the others wait for earlier
instructions. -/
def evaluateExec (hasPredecessorExecuted : Bool) : InsnState π :=
  let s := s.setExec p (s.exec p).take
  if (s.exec p).thePredicate && (s.exec p).ready && !(g.producer p).hasDoLoad then
    if hasPredecessorExecuted then g.produce s p else s.setExec p (s.exec p).reschedule
  else s

/-- An effect of an annulment or a reinstatement. -/
def invoke (s : InsnState π) : PredicateEffect π → InsnState π
  | .satisfy (.exec p) => g.predicateOn s p
  | .satisfy (.annul d) => s.modify Destination.annulOn d
  | .squash (.exec p) => g.predicateOff s p
  | .squash (.annul d) => s.modify Destination.annulOff d
  -- a `WritebackAction` has no predicate
  | .satisfy (.writeback _) => s
  | .squash (.writeback _) => s

/-- **`annul`**. -/
def annul : InsnState π :=
  if s.theAnnulled then s
  else g.instruction.theAnnulmentEffects.foldl g.invoke { s with theAnnulled := true }

/-- **`reinstate`**. -/
def reinstate : InsnState π :=
  if s.theAnnulled then
    g.instruction.theReinstatementEffects.foldl g.invoke { s with theAnnulled := false }
  else s

end Decoded

/-! ### Runs -/

/-- What happens to an instruction. -/
inductive InsnEvent (π : Type)
  | annul
  | reinstate
  /-- An operand of a producing action is satisfied. -/
  | satisfy (p : π) (i : Fin 5) (x : Inputs)
  | squash (p : π) (i : Fin 5)
  | writePrevious (d : ResultCode) (aValue : RegisterBits)
  | squashPrevious (d : ResultCode)
  | evaluate (a : InsnAction π) (hasPredecessorExecuted : Bool)

/-- An assertion that fires. -/
inductive InsnFault
  | readNotReady
  deriving DecidableEq

/-- What an instruction finds as it is dispatched. -/
structure Dispatched (π : Type) where
  theInputs : π → Inputs
  theRegister : ResultCode → RegisterBits
  thePrevious : ResultCode → PhysicalRegister
  theResult : ResultCode → RegisterBits

namespace InsnState

/-- How often an action stands in the lists of the core. -/
def pending (s : InsnState π) : InsnAction π → ℕ
  | .exec p => (s.exec p).pending
  | .annul d => (s.destination d).annul.pending
  | .writeback d => (s.destination d).writeback.pending

end InsnState

namespace Decoded

variable [DecidableEq π] (g : Decoded π)

/-- **The core evaluates an action.** -/
def evaluate (s : InsnState π) (hasPredecessorExecuted : Bool) :
    InsnAction π → Except InsnFault (InsnState π)
  | .exec p => .ok (g.evaluateExec s p hasPredecessorExecuted)
  | .writeback d => .ok (s.modify Destination.evaluateWriteback d)
  | .annul d =>
    match (s.destination d).evaluateAnnul with
    | some x => .ok { s with destination := update s.destination d x }
    | none => .error .readNotReady

def step (s : InsnState π) : InsnEvent π → Except InsnFault (InsnState π)
  | .annul => .ok (g.annul s)
  | .reinstate => .ok (g.reinstate s)
  | .satisfy p i x => .ok (g.satisfyExec s p i x)
  | .squash p i => .ok (g.squashExec s p i)
  | .writePrevious d aValue => .ok (s.modify (Destination.writePrevious · aValue) d)
  | .squashPrevious d => .ok (s.modify Destination.squashPrevious d)
  | .evaluate a hasPredecessorExecuted => g.evaluate s hasPredecessorExecuted a

/-- The instruction as it is dispatched. -/
def initial (i : Dispatched π) : InsnState π where
  theAnnulled := false
  exec p := .create (g.producer p).numOperands true (g.dispatched p)
  theInputs := i.theInputs
  mayRetire p := !g.instruction.feedsRetirement p
  destination d :=
    { annul := .create 1 false (g.instruction.theDispatchActions.contains (.annul d))
      theMOVConnected := false
      writeback := .create 1 true false
      mayRetire := false
      theRegister := ⟨.notReady, i.theRegister d⟩
      thePrevious := i.thePrevious d
      theResult := i.theResult d }

def machine (i : Dispatched π) : Lib.Machine (InsnState π) (InsnEvent π) InsnFault where
  init := g.initial i
  step := g.step

/-- The results that are written back. -/
def written (g : Decoded π) : List ResultCode := g.calls.flatMap DestinationCall.results

/-- The actions that the instruction has. -/
def Has (g : Decoded π) : InsnAction π → Prop
  | .exec _ => True
  | .annul d => d ∈ g.written
  | .writeback d => d ∈ g.written

/-- The core evaluates what stands in its lists; what a producing action reads stays as it is
while all of it is there; and a register is not written again before it is squashed. -/
def Allowed (s : InsnState π) : InsnEvent π → Prop
  | .annul => True
  | .reinstate => True
  | .satisfy p i x =>
    i.val < (g.producer p).numOperands ∧ ((s.exec p).ready = true → x = s.theInputs p)
  | .squash p i => i.val < (g.producer p).numOperands
  | .writePrevious d _ => d ∈ g.written ∧ (s.destination d).thePrevious.theStatus ≠ .ready
  | .squashPrevious d => d ∈ g.written
  | .evaluate a _ => g.Has a ∧ 0 < s.pending a

end Decoded

end Decoder

end Flexus
