import Flexus.Common.BranchPredictor

/-!
# The predictor that is warmed

While the simulation is fast, branches are predicted by another class, `FastCombiningImpl`
(`components/Common/BranchPredictor.cpp`). It has the same tables, of other sizes, and it is asked
about every branch: the record of a prediction is the caller's, and where the record of the timing
predictor is missing, that of this one says that no branch was predicted.

The two classes are separate copies of one text. They are modelled as such.
-/

namespace Flexus

namespace BPred

open EDirection

/-- **The sizes of the tables** that a predictor is constructed with. -/
structure Sizes where
  btbSets : BitVec 32
  btbAssoc : BitVec 32
  bimodal : BitVec 32
  choice : BitVec 32
  gshare : BitVec 32
  /-- A set has room for an entry. Otherwise there would be nothing to evict for the first. -/
  btbAssoc_pos : 0 < btbAssoc

/-- A branch, or another instruction, as it turns out. -/
structure Branch where
  thePC : BitVec 64
  theType : EBranchType
  theDirection : EDirection
  theTarget : BitVec 64
  deriving DecidableEq

/-- `contains`. -/
def BTB.contains (b : BTB) (anAddress : BitVec 64) : Bool :=
  ((b.set anAddress).find anAddress).isSome

/-- **`FastCombiningImpl`**. -/
structure FastCombiningImpl where
  theSerial : BitVec 32
  theBTB : BTB
  theBimodal : Bimodal
  theMeta : Bimodal
  theGShare : GShare

namespace FastCombiningImpl

/-- The constructor, for tables of any size. -/
def ofSizes (n : Sizes) : FastCombiningImpl where
  theSerial := 0
  theBTB := BTB.ofSize n.btbSets n.btbAssoc
  theBimodal := Bimodal.ofSize n.bimodal
  theMeta := Bimodal.ofSize n.choice
  theGShare := GShare.ofSize n.gshare

/-- The constructor. -/
def fresh : FastCombiningImpl := ofSizes ⟨1024, 16, 32768, 8192, 13, by decide⟩

variable (q : FastCombiningImpl) (anAddress : BitVec 64)

/-- The record of a prediction before it is made. -/
def noPrediction : BPredState where
  thePredictedType := q.theBTB.type anAddress
  thePredictedTarget := 0
  thePrediction := kStronglyTaken
  theBimodalPrediction := kStronglyTaken
  theMetaPrediction := kStronglyTaken
  theGSharePrediction := kStronglyTaken
  theGShareShiftReg := 0
  theSerial := q.theSerial

/-- `predictConditional`. -/
def predictConditional : BPredState × FastCombiningImpl :=
  let bimodal := q.theBimodal.direction anAddress
  let gshare := q.theGShare.direction anAddress q.theGShare.theShiftReg
  let chosen := q.theMeta.direction anAddress
  let prediction := if chosen.notTaken then gshare else bimodal
  ({ q.noPrediction anAddress with
      thePredictedTarget :=
        if prediction.notTaken then 0 else (q.theBTB.target anAddress).getD 0
      thePrediction := prediction
      theBimodalPrediction := bimodal
      theMetaPrediction := chosen
      theGSharePrediction := gshare
      theGShareShiftReg := q.theGShare.theShiftReg },
    { q with theGShare := q.theGShare.shiftIn gshare })

/-- The prediction of an unconditional branch, or of a call. -/
def predictUnconditional : BPredState :=
  { q.noPrediction anAddress with
    thePredictedTarget := (q.theBTB.target anAddress).getD 0
    theGShareShiftReg := q.theGShare.theShiftReg }

/-- **`predict`**. All fields of the caller's record are written. -/
def predict : BPredState × FastCombiningImpl :=
  let next := { q with theSerial := q.theSerial + 1 }
  match q.theBTB.type anAddress with
  | .kNonBranch | .kReturn => (q.noPrediction anAddress, next)
  | .kConditional =>
    ((q.predictConditional anAddress).1,
      { (q.predictConditional anAddress).2 with theSerial := q.theSerial + 1 })
  | .kUnconditional | .kCall => (q.predictUnconditional anAddress, next)

/-- `feedback` about a conditional branch that was predicted. -/
def learn (anActualDirection : EDirection) (aBPState : BPredState) : FastCombiningImpl :=
  let g :=
    if aBPState.theGSharePrediction.notTaken ≠ anActualDirection.notTaken then
      (q.theGShare.setShiftReg aBPState.theGShareShiftReg).shiftIn anActualDirection
    else q.theGShare
  let bimodal := q.theBimodal.direction anAddress
  let gshare := g.direction anAddress aBPState.theGShareShiftReg
  let chosen := q.theMeta.direction anAddress
  { q with
    theBimodal := q.theBimodal.update anAddress (anActualDirection.apply bimodal)
    theGShare := g.update anAddress aBPState.theGShareShiftReg (anActualDirection.apply gshare)
    theMeta :=
      if gshare.notTaken ≠ bimodal.notTaken then
        if anActualDirection.notTaken = gshare.notTaken then
          q.theMeta.update anAddress chosen.moreNotTaken
        else q.theMeta.update anAddress chosen.moreTaken
      else q.theMeta }

/-- **`feedback`**, about a branch and with the record of its prediction. -/
def feedback (b : Branch) (aBPState : BPredState) : FastCombiningImpl :=
  let r := q.theBTB.update b.thePC b.theType b.theTarget
  let q := { q with theBTB := r.1 }
  if b.theType = .kConditional then
    if r.2 then
      { q with
        theBimodal := q.theBimodal.update b.thePC b.theDirection
        theGShare := q.theGShare.shiftIn b.theDirection }
    else if aBPState.thePredictedType ≠ .kNonBranch then
      q.learn b.thePC b.theDirection aBPState
    else q
  else if aBPState.thePredictedType ≠ .kNonBranch ∧ aBPState.thePredictedTarget ≠ b.theTarget then
    if !r.2 then { q with theGShare := q.theGShare.setShiftReg aBPState.theGShareShiftReg }
    else q
  else q

/-- **A branch is predicted and then resolved.** -/
def resolve (b : Branch) : FastCombiningImpl :=
  (q.predict b.thePC).2.feedback b (q.predict b.thePC).1

/-- A sequence of branches. -/
def resolveAll (bs : List Branch) : FastCombiningImpl := bs.foldl resolve q

/-- `saveState`: the archive, and the predictor after it. -/
def saveState : CombiningImpl.Archived × FastCombiningImpl :=
  (⟨q.theBTB.save.1, q.theBimodal.save.1, q.theMeta.save.1, q.theGShare.save.1⟩,
    { q with
      theBTB := q.theBTB.save.2
      theBimodal := q.theBimodal.save.2
      theMeta := q.theMeta.save.2
      theGShare := q.theGShare.save.2 })

/-- `loadState`. -/
def loadState (ar : CombiningImpl.Archived) : FastCombiningImpl :=
  { q with
    theBTB := q.theBTB.load ar.theBTB
    theBimodal := q.theBimodal.load ar.theBimodal
    theMeta := q.theMeta.load ar.theMeta
    theGShare := q.theGShare.load ar.theGShare }

end FastCombiningImpl

/-- `BranchFeedback` about a branch. -/
def Branch.toFeedback (b : Branch) (theBPState : Option BPredState) : BranchFeedback :=
  ⟨b.thePC, b.theType, b.theDirection, b.theTarget, theBPState⟩

namespace CombiningImpl

/-- The constructor, for tables of any size. -/
def ofSizes (n : Sizes) : CombiningImpl where
  theSerial := 0
  theBTB := BTB.ofSize n.btbSets n.btbAssoc
  theBimodal := Bimodal.ofSize n.bimodal
  theMeta := Bimodal.ofSize n.choice
  theGShare := GShare.ofSize n.gshare

variable (p : CombiningImpl)

/-- **`doAddressGen`** asks for a prediction if `isBranch` says that there is a branch. Otherwise
there is no record. -/
def consult (anAddress : BitVec 64) : Option BPredState × CombiningImpl :=
  if p.theBTB.contains anAddress then
    (some (p.predict anAddress).1, (p.predict anAddress).2)
  else (none, p)

/-- A branch is predicted if the buffer has it, and then resolved. -/
def resolveFetched (b : Branch) : CombiningImpl :=
  (p.consult b.thePC).2.feedback (b.toFeedback (p.consult b.thePC).1)

/-- A sequence of branches. -/
def resolveAllFetched (bs : List Branch) : CombiningImpl := bs.foldl resolveFetched p

/-- **A branch is predicted and then resolved**, whether the buffer has it or not. -/
def resolve (b : Branch) : CombiningImpl :=
  (p.predict b.thePC).2.feedback (b.toFeedback (some (p.predict b.thePC).1))

end CombiningImpl

end BPred

end Flexus
