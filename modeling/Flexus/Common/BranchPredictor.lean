import Flexus.Lib.Keyed

/-!
# The combining branch predictor

A branch target buffer says which instructions are branches, and two predictors, one by address
and one by history, say which way conditional branches go; a third table says which of the two
to believe (`components/Common/BranchPredictor.cpp`). The history is a shift register, which is
updated as branches are predicted and put right when they turn out otherwise.

The state of a predictor can be saved and loaded. For every part of it one function, `serialize`,
does both: it names the fields in turn, and the archive writes or reads them.

The statistics are left out: nothing that is predicted depends on them.
-/

namespace Flexus

namespace BPred

open Flexus.Lib

/-! ### Directions -/

/-- `eBranchType`. -/
inductive EBranchType
  | kNonBranch
  | kConditional
  | kUnconditional
  | kCall
  | kReturn
  deriving DecidableEq

/-- `eDirection`: a counter of two bits. -/
inductive EDirection
  | kStronglyTaken
  | kTaken
  | kNotTaken
  | kStronglyNotTaken
  deriving DecidableEq

namespace EDirection

/-- The test `d >= kNotTaken`. -/
def notTaken : EDirection → Bool
  | kStronglyTaken | kTaken => false
  | kNotTaken | kStronglyNotTaken => true

/-- `moreTaken`. -/
def moreTaken : EDirection → EDirection
  | kStronglyTaken | kTaken => kStronglyTaken
  | kNotTaken => kTaken
  | kStronglyNotTaken => kNotTaken

/-- `moreNotTaken`. -/
def moreNotTaken : EDirection → EDirection
  | kStronglyTaken => kTaken
  | kTaken => kNotTaken
  | kNotTaken | kStronglyNotTaken => kStronglyNotTaken

/-- `apply`: a counter moves in a direction. -/
def apply (aDirection aState : EDirection) : EDirection :=
  if aDirection.notTaken then aState.moreNotTaken else aState.moreTaken

/-- `reverse`. -/
def reverse (direction : EDirection) : EDirection :=
  if direction.notTaken then kTaken else kNotTaken

end EDirection

open EDirection

/-- A vector of counters, by index. The masks keep indices below the size of a vector. -/
abbrev Table := ℕ → EDirection

/-- What `reset` leaves in a table: not taken and taken in turn. -/
def resetTable : Table
  | 0 => kNotTaken
  | i + 1 => (resetTable i).reverse

/-! ### The predictor by history -/

/-- `gShare`. -/
structure GShare where
  thePatternTable : Table
  theShiftReg : BitVec 32
  theShiftRegSize : BitVec 32
  thePatternMask : BitVec 32

namespace GShare

/-- The constructor, for a history of a number of bits. -/
def ofSize (aSize : BitVec 32) : GShare where
  thePatternTable := resetTable
  theShiftReg := 0
  theShiftRegSize := aSize
  thePatternMask := ((1 : BitVec 32) <<< aSize) - 1

variable (g : GShare) (anAddress : BitVec 64)

/-- `index`, with a shift register. -/
def index (aShiftReg : BitVec 32) : ℕ :=
  ((aShiftReg.setWidth 64 ^^^ (anAddress >>> 2)) &&& g.thePatternMask.setWidth 64).toNat

/-- `shiftIn`. -/
def shiftIn (aDirection : EDirection) : GShare :=
  { g with
    theShiftReg :=
      if aDirection.notTaken then ((g.theShiftReg <<< 1) &&& g.thePatternMask) ||| 1
      else (g.theShiftReg <<< 1) &&& g.thePatternMask }

/-- `setShiftReg`. -/
def setShiftReg (aPreviousShiftRegState : BitVec 32) : GShare :=
  { g with theShiftReg := aPreviousShiftRegState &&& g.thePatternMask }

/-- `direction`, with a shift register. -/
def direction (aShiftRegState : BitVec 32) : EDirection :=
  g.thePatternTable (g.index anAddress aShiftRegState)

/-- `update`, with a shift register. -/
def update (aShiftRegState : BitVec 32) (aDirection : EDirection) : GShare :=
  { g with
    thePatternTable :=
      Function.update g.thePatternTable (g.index anAddress aShiftRegState) aDirection }

/-- What `serialize` puts on an archive, or takes from it. -/
structure Archived where
  thePatternTable : Table
  theShiftRegSize : BitVec 32
  thePatternMask : BitVec 32
  shift_reg : BitVec 32

/-- The last statement of `serialize`, in either direction. The local copy `shift_reg` that went
through the archive is not used: what is masked is the register, with the size of the history. -/
def maskShiftReg : GShare := { g with theShiftReg := g.theShiftReg &&& g.theShiftRegSize }

/-- `serialize`, with an archive that is written. -/
def save : Archived × GShare :=
  (⟨g.thePatternTable, g.theShiftRegSize, g.thePatternMask, g.theShiftReg⟩, g.maskShiftReg)

/-- `serialize`, with an archive that is read. -/
def load (ar : Archived) : GShare :=
  maskShiftReg { g with
    thePatternTable := ar.thePatternTable
    theShiftRegSize := ar.theShiftRegSize
    thePatternMask := ar.thePatternMask }

end GShare

/-! ### The predictor by address -/

/-- `Bimodal`. -/
structure Bimodal where
  theTable : Table
  theSize : BitVec 32
  theIndexMask : BitVec 64

namespace Bimodal

/-- The constructor. -/
def ofSize (aSize : BitVec 32) : Bimodal where
  theTable := resetTable
  theSize := aSize
  theIndexMask := (aSize - 1).signExtend 64

variable (m : Bimodal) (anAddress : BitVec 64)

/-- `index`. -/
def index : ℕ := (((anAddress >>> 19) ^^^ (anAddress >>> 2)) &&& m.theIndexMask).toNat

/-- `direction`. -/
def direction : EDirection := m.theTable (m.index anAddress)

/-- `update`. -/
def update (aDirection : EDirection) : Bimodal :=
  { m with theTable := Function.update m.theTable (m.index anAddress) aDirection }

/-- `serialize`, with an archive that is written: all of it goes there, and nothing changes. -/
def save : Bimodal × Bimodal := (m, m)

/-- `serialize`, with an archive that is read. -/
def load (m ar : Bimodal) : Bimodal :=
  { m with theTable := ar.theTable, theSize := ar.theSize, theIndexMask := ar.theIndexMask }

end Bimodal

/-! ### The branch target buffer -/

/-- `BTBEntry`. -/
structure BTBEntry where
  thePC : BitVec 64
  theBranchType : EBranchType
  theTarget : BitVec 64
  deriving DecidableEq

/-- The key of an entry. -/
def BTBEntry.key (e : BTBEntry) : ℕ := e.thePC.toNat

/-- **`btb_set_t`**: a sequence of entries, the oldest first, with an index by address that is
unique. -/
structure BtbSet where
  entries : List BTBEntry
  unique : (entries.map BTBEntry.key).Nodup

namespace BtbSet

/-- A set without entries. -/
def empty : BtbSet := ⟨[], List.nodup_nil⟩

variable (s : BtbSet)

/-- `find`, by address. -/
def find (anAddress : BitVec 64) : Option BTBEntry :=
  Keyed.lookup BTBEntry.key s.entries anAddress.toNat

/-- `push_back`: it does nothing if the address is there. -/
def pushBack (e : BTBEntry) : BtbSet :=
  ⟨Keyed.pushBack BTBEntry.key s.entries e, Keyed.nodup_pushBack s.unique⟩

/-- `pop_front`. -/
def popFront : BtbSet :=
  ⟨s.entries.tail, s.unique.sublist ((List.tail_sublist s.entries).map _)⟩

/-- `erase`. -/
def erase (aPC : BitVec 64) : BtbSet :=
  ⟨Keyed.erase BTBEntry.key s.entries aPC.toNat, Keyed.nodup_erase s.unique⟩

/-- An entry is changed, and goes to the end (`relocate`). -/
def moveBack (e : BTBEntry) : BtbSet := (s.erase e.thePC).pushBack e

/-- `save` of a set: a list of its entries. -/
def save : List BTBEntry := s.entries

/-- `load` of a set: every entry of the list is put at the end. -/
def load (btb : List BTBEntry) : BtbSet := btb.foldl pushBack s

end BtbSet

/-- `BTB`. -/
structure BTB where
  theBTB : ℕ → BtbSet
  theBTBSets : BitVec 32
  theBTBAssoc : BitVec 32
  theIndexMask : BitVec 64

namespace BTB

/-- The constructor. -/
def ofSize (aBTBSets aBTBAssoc : BitVec 32) : BTB where
  theBTB _ := BtbSet.empty
  theBTBSets := aBTBSets
  theBTBAssoc := aBTBAssoc
  theIndexMask := (aBTBSets - 1).signExtend 64

variable (b : BTB) (anAddress : BitVec 64)

/-- `index`. -/
def index : ℕ := ((anAddress >>> 2) &&& b.theIndexMask).toNat

/-- The set of an address. -/
def set : BtbSet := b.theBTB (b.index anAddress)

/-- `type`. -/
def type : EBranchType := ((b.set anAddress).find anAddress).elim .kNonBranch BTBEntry.theBranchType

/-- `target`. -/
def target : Option (BitVec 64) := ((b.set anAddress).find anAddress).map BTBEntry.theTarget

/-- The set of an address is replaced. -/
def setSet (s : BtbSet) : BTB := { b with theBTB := Function.update b.theBTB (b.index anAddress) s }

/-- **`update`**: the new buffer, and whether there is a new entry. -/
def update (aPC : BitVec 64) (aType : EBranchType) (aTarget : BitVec 64) : BTB × Bool :=
  match (b.set aPC).find aPC with
  | some e =>
    if aType = .kNonBranch then (b.setSet aPC ((b.set aPC).erase aPC), false)
    else
      let target := if aTarget ≠ 0 then aTarget else e.theTarget
      (b.setSet aPC ((b.set aPC).moveBack ⟨aPC, aType, target⟩), false)
  | none =>
    if aType = .kNonBranch then (b, false)
    else
      let s := if b.theBTBAssoc.toNat ≤ (b.set aPC).entries.length then (b.set aPC).popFront
        else b.set aPC
      (b.setSet aPC (s.pushBack ⟨aPC, aType, aTarget⟩), true)

/-- What `serialize` puts on an archive, or takes from it. -/
structure Archived where
  theBTB : ℕ → List BTBEntry
  theBTBSets : BitVec 32
  theBTBAssoc : BitVec 32
  theIndexMask : BitVec 64

/-- `serialize`, with an archive that is written. -/
def save : Archived × BTB :=
  (⟨fun i => (b.theBTB i).save, b.theBTBSets, b.theBTBAssoc, b.theIndexMask⟩, b)

/-- `serialize`, with an archive that is read. -/
def load (ar : Archived) : BTB where
  theBTB i := (b.theBTB i).load (ar.theBTB i)
  theBTBSets := ar.theBTBSets
  theBTBAssoc := ar.theBTBAssoc
  theIndexMask := ar.theIndexMask

end BTB

/-! ### The combination -/

/-- `BPredState`: what is remembered of a prediction. -/
structure BPredState where
  thePredictedType : EBranchType
  thePredictedTarget : BitVec 64
  thePrediction : EDirection
  theBimodalPrediction : EDirection
  theMetaPrediction : EDirection
  theGSharePrediction : EDirection
  theGShareShiftReg : BitVec 32
  theSerial : BitVec 32
  deriving DecidableEq

/-- `BranchFeedback`. -/
structure BranchFeedback where
  thePC : BitVec 64
  theActualType : EBranchType
  theActualDirection : EDirection
  theActualTarget : BitVec 64
  theBPState : Option BPredState
  deriving DecidableEq

/-- **`CombiningImpl`**. -/
structure CombiningImpl where
  theSerial : BitVec 32
  theBTB : BTB
  theBimodal : Bimodal
  theMeta : Bimodal
  theGShare : GShare

namespace CombiningImpl

/-- The constructor. -/
def fresh : CombiningImpl where
  theSerial := 0
  theBTB := BTB.ofSize 2048 16
  theBimodal := Bimodal.ofSize 16384
  theMeta := Bimodal.ofSize 16384
  theGShare := GShare.ofSize 13

variable (p : CombiningImpl) (anAddress : BitVec 64)

/-- The state of a prediction before it is made. -/
def noPrediction : BPredState where
  thePredictedType := p.theBTB.type anAddress
  thePredictedTarget := 0
  thePrediction := kStronglyTaken
  theBimodalPrediction := kStronglyTaken
  theMetaPrediction := kStronglyTaken
  theGSharePrediction := kStronglyTaken
  theGShareShiftReg := 0
  theSerial := p.theSerial

/-- `predictConditional`. -/
def predictConditional : BPredState × CombiningImpl :=
  let bimodal := p.theBimodal.direction anAddress
  let gshare := p.theGShare.direction anAddress p.theGShare.theShiftReg
  let chosen := p.theMeta.direction anAddress
  let prediction := if chosen.notTaken then gshare else bimodal
  ({ p.noPrediction anAddress with
      thePredictedTarget :=
        if prediction.notTaken then 0 else (p.theBTB.target anAddress).getD 0
      thePrediction := prediction
      theBimodalPrediction := bimodal
      theMetaPrediction := chosen
      theGSharePrediction := gshare
      theGShareShiftReg := p.theGShare.theShiftReg },
    { p with theGShare := p.theGShare.shiftIn gshare })

/-- The prediction of an unconditional branch, or of a call. -/
def predictUnconditional : BPredState :=
  { p.noPrediction anAddress with
    thePredictedTarget := (p.theBTB.target anAddress).getD 0
    theGShareShiftReg := p.theGShare.theShiftReg }

/-- **`predict`**. The address that is returned is `thePredictedTarget`. -/
def predict : BPredState × CombiningImpl :=
  let next := { p with theSerial := p.theSerial + 1 }
  match p.theBTB.type anAddress with
  | .kNonBranch | .kReturn => (p.noPrediction anAddress, next)
  | .kConditional =>
    ((p.predictConditional anAddress).1,
      { (p.predictConditional anAddress).2 with theSerial := p.theSerial + 1 })
  | .kUnconditional | .kCall => (p.predictUnconditional anAddress, next)

/-- `feedback` about a conditional branch that was predicted: the history is put right, and the
counters are moved that made the prediction. -/
def learn (aFeedback : BranchFeedback) (aBPState : BPredState) : CombiningImpl :=
  let g :=
    if aBPState.theGSharePrediction.notTaken ≠ aFeedback.theActualDirection.notTaken then
      (p.theGShare.setShiftReg aBPState.theGShareShiftReg).shiftIn aFeedback.theActualDirection
    else p.theGShare
  let bimodal := p.theBimodal.direction aFeedback.thePC
  let gshare := g.direction aFeedback.thePC aBPState.theGShareShiftReg
  let chosen := p.theMeta.direction aFeedback.thePC
  { p with
    theBimodal := p.theBimodal.update aFeedback.thePC (aFeedback.theActualDirection.apply bimodal)
    theGShare := g.update aFeedback.thePC aBPState.theGShareShiftReg
      (aFeedback.theActualDirection.apply gshare)
    theMeta :=
      if gshare.notTaken ≠ bimodal.notTaken then
        if aFeedback.theActualDirection.notTaken = gshare.notTaken then
          p.theMeta.update aFeedback.thePC chosen.moreNotTaken
        else p.theMeta.update aFeedback.thePC chosen.moreTaken
      else p.theMeta }

/-- **`feedback`**. -/
def feedback (aFeedback : BranchFeedback) : CombiningImpl :=
  let r := p.theBTB.update aFeedback.thePC aFeedback.theActualType aFeedback.theActualTarget
  let q := { p with theBTB := r.1 }
  if aFeedback.theActualType = .kConditional then
    if r.2 then
      { q with
        theBimodal := q.theBimodal.update aFeedback.thePC aFeedback.theActualDirection
        theGShare := q.theGShare.shiftIn aFeedback.theActualDirection }
    else
      match aFeedback.theBPState with
      | some aBPState => q.learn aFeedback aBPState
      | none => q
  else
    match aFeedback.theBPState with
    | some aBPState =>
      if aBPState.thePredictedTarget ≠ aFeedback.theActualTarget ∧ !r.2 then
        { q with theGShare := q.theGShare.setShiftReg aBPState.theGShareShiftReg }
      else q
    | none => q

/-- What a predictor puts on an archive, or takes from it. -/
structure Archived where
  theBTB : BTB.Archived
  theBimodal : Bimodal
  theMeta : Bimodal
  theGShare : GShare.Archived

/-- **`saveState`**: the archive, and the predictor after it. -/
def saveState : Archived × CombiningImpl :=
  (⟨p.theBTB.save.1, p.theBimodal.save.1, p.theMeta.save.1, p.theGShare.save.1⟩,
    { p with
      theBTB := p.theBTB.save.2
      theBimodal := p.theBimodal.save.2
      theMeta := p.theMeta.save.2
      theGShare := p.theGShare.save.2 })

/-- **`loadState`**. -/
def loadState (ar : Archived) : CombiningImpl :=
  { p with
    theBTB := p.theBTB.load ar.theBTB
    theBimodal := p.theBimodal.load ar.theBimodal
    theMeta := p.theMeta.load ar.theMeta
    theGShare := p.theGShare.load ar.theGShare }

end CombiningImpl

/-- A call of a predictor. -/
inductive Call
  | predict (anAddress : BitVec 64)
  | feedback (aFeedback : BranchFeedback)
  deriving DecidableEq

namespace CombiningImpl

/-- What a call does, and the address that it returns if it is a prediction. -/
def call (p : CombiningImpl) : Call → Option (BitVec 64) × CombiningImpl
  | .predict anAddress =>
    (some (p.predict anAddress).1.thePredictedTarget, (p.predict anAddress).2)
  | .feedback aFeedback => (none, p.feedback aFeedback)

/-- **What a predictor returns** for a sequence of calls. -/
def predictions (p : CombiningImpl) : List Call → List (Option (BitVec 64))
  | [] => []
  | c :: cs => (p.call c).1 :: predictions (p.call c).2 cs

/-- The predictor after a sequence of calls. -/
def after (p : CombiningImpl) : List Call → CombiningImpl
  | [] => p
  | c :: cs => after (p.call c).2 cs

/-- **The predictors that can be reached**, by calls, and by saving and loading. -/
inductive Reachable : CombiningImpl → Prop
  | fresh : Reachable fresh
  | call {p : CombiningImpl} (c : Call) : Reachable p → Reachable (p.call c).2
  | saved {p : CombiningImpl} : Reachable p → Reachable p.saveState.2
  | loaded {p q : CombiningImpl} : Reachable p → Reachable q →
      Reachable (q.loadState p.saveState.1)

end CombiningImpl

end BPred

end Flexus
