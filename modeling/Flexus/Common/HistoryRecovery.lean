import Flexus.Common.PredictorAgreement
import Flexus.Common.PredictorCheckpoint
import Flexus.Lib.Bits

/-!
# What becomes of the history when a branch is resolved

The history of a combining predictor is updated when a conditional branch is predicted, and is put
right when the branch is resolved. For this the record of a prediction holds the history of before.
`predict` writes it into the record of a conditional branch, of an unconditional one and of a call;
the record of a return holds the history zero.

When a branch is resolved as soon as it was predicted, the history should have gone on by the
direction of the branch if it is conditional, and else be what it was. It is not so after a return,
whose target is never the predicted one: the history that is restored is zero. Nor is it so where
the branch has turned out to be of another kind than the buffer said. When it is so is
`Flexus.BPred.recovers_iff`, for either class of predictor.
-/

namespace Flexus

namespace BPred

open Flexus.Lib EDirection

/-! ### The two classes -/

/-- A predictor of either class. -/
inductive Predictor
  | timing (p : CombiningImpl)
  | warming (q : FastCombiningImpl)

/-- The tables of a predictor that is warmed. -/
def FastCombiningImpl.tables (q : FastCombiningImpl) : CombiningImpl :=
  ⟨q.theSerial, q.theBTB, q.theBimodal, q.theMeta, q.theGShare⟩

theorem FastCombiningImpl.agree_tables (q : FastCombiningImpl) : Agree q.tables q :=
  ⟨rfl, rfl, rfl, rfl⟩

namespace Predictor

/-- The tables of a predictor. -/
def tables : Predictor → CombiningImpl
  | .timing p => p
  | .warming q => q.tables

/-- **The history.** -/
def history (x : Predictor) : BitVec 32 := x.tables.theGShare.theShiftReg

/-- `predict`. -/
def predict : Predictor → BitVec 64 → Predictor
  | .timing p, anAddress => .timing (p.predict anAddress).2
  | .warming q, anAddress => .warming (q.predict anAddress).2

/-- **A branch is predicted and then resolved.** -/
def resolve : Predictor → Branch → Predictor
  | .timing p, b => .timing (p.resolve b)
  | .warming q, b => .warming (q.resolve b)

/-- The archive that `saveState` writes. -/
def archive : Predictor → CombiningImpl.Archived
  | .timing p => p.saveState.1
  | .warming q => q.saveState.1

/-- A predictor after `saveState`. -/
def saved : Predictor → Predictor
  | .timing p => .timing p.saveState.2
  | .warming q => .warming q.saveState.2

/-- `loadState`. The archive may be that of a predictor of the other class. -/
def loadState : Predictor → CombiningImpl.Archived → Predictor
  | .timing p, ar => .timing (p.loadState ar)
  | .warming q, ar => .warming (q.loadState ar)

/-- **The predictors that can be reached**, by predictions and feedback in any order, and by saving
and loading. -/
inductive Reached : Predictor → Prop
  | timing : Reached (.timing CombiningImpl.fresh)
  | warming : Reached (.warming FastCombiningImpl.fresh)
  | predict {x : Predictor} (anAddress : BitVec 64) : Reached x → Reached (x.predict anAddress)
  | feedback {p : CombiningImpl} (aFeedback : BranchFeedback) : Reached (.timing p) →
      Reached (.timing (p.feedback aFeedback))
  | fastFeedback {q : FastCombiningImpl} (b : Branch) (aBPState : BPredState) :
      Reached (.warming q) → Reached (.warming (q.feedback b aBPState))
  | saved {x : Predictor} : Reached x → Reached x.saved
  | loaded {x y : Predictor} : Reached x → Reached y → Reached (y.loadState x.archive)

end Predictor

/-! ### What holds of the tables -/

/-- **What holds of the tables**: the history fits its mask, and the entries of the target buffer
are branches. -/
structure CombiningImpl.Sound (p : CombiningImpl) : Prop where
  masked : p.Masked
  typed : p.theBTB.Typed

namespace CombiningImpl

variable {p : CombiningImpl}

theorem predict_theBTB (p : CombiningImpl) (anAddress : BitVec 64) :
    (p.predict anAddress).2.theBTB = p.theBTB := by
  rw [predict]
  cases p.theBTB.type anAddress <;> rfl

theorem feedback_theBTB (p : CombiningImpl) (f : BranchFeedback) :
    (p.feedback f).theBTB =
      (p.theBTB.update f.thePC f.theActualType f.theActualTarget).1 := by
  rw [feedback]
  split
  · split
    · rfl
    · split <;> rfl
  · split
    · split <;> rfl
    · rfl

namespace Sound

theorem predict (h : p.Sound) (anAddress : BitVec 64) : (p.predict anAddress).2.Sound :=
  ⟨h.masked.call (.predict anAddress), by rw [p.predict_theBTB]; exact h.typed⟩

theorem feedback (h : p.Sound) (f : BranchFeedback) : (p.feedback f).Sound :=
  ⟨h.masked.call (.feedback f), by rw [p.feedback_theBTB]; exact h.typed.update _ _ _⟩

theorem of_agree (h : p.Sound) {q : FastCombiningImpl} (ha : Agree p q) : q.tables.Sound := by
  have hmasked := h.masked
  have hgshare : p.theGShare = q.tables.theGShare := ha.gshare
  have hbtb : p.theBTB = q.tables.theBTB := ha.btb
  exact ⟨⟨hgshare ▸ hmasked.mask, hgshare ▸ hmasked.size, hgshare ▸ hmasked.shiftReg⟩,
    hbtb ▸ h.typed⟩

end Sound

end CombiningImpl

/-- What is loaded into a set was there, or is on the archive. -/
theorem BtbSet.mem_load {s : BtbSet} {l : List BTBEntry} {e : BTBEntry}
    (h : e ∈ (s.load l).entries) : e ∈ s.entries ∨ e ∈ l := by
  induction l generalizing s with
  | nil => exact .inl h
  | cons x l ih =>
    rcases ih h with hs | hl
    · rcases BtbSet.mem_pushBack hs with hs | rfl
      · exact .inl hs
      · exact .inr List.mem_cons_self
    · exact .inr (List.mem_cons_of_mem x hl)

namespace CombiningImpl.Sound

variable {p q : CombiningImpl}

theorem saved (h : p.Sound) : p.saveState.2.Sound := ⟨h.masked.saved, h.typed⟩

theorem loaded (hp : p.Sound) (hq : q.Sound) : (q.loadState p.saveState.1).Sound := by
  refine ⟨hp.masked.loaded hq.masked, fun i e he => ?_⟩
  rcases BtbSet.mem_load he with he | he
  · exact hq.typed i e he
  · exact hp.typed i e he

end CombiningImpl.Sound

theorem Predictor.Reached.sound {x : Predictor} (h : x.Reached) : x.tables.Sound := by
  induction h with
  | timing => exact ⟨⟨rfl, rfl, rfl⟩, BTB.typed_ofSize _ _⟩
  | warming => exact ⟨⟨rfl, rfl, rfl⟩, BTB.typed_ofSize _ _⟩
  | @predict x anAddress _ ih =>
    cases x with
    | timing p => exact ih.predict anAddress
    | warming q => exact (ih.predict anAddress).of_agree (q.agree_tables.predict anAddress).2
  | feedback f _ ih => exact ih.feedback f
  | @fastFeedback q b s _ ih =>
    by_cases htype : s.thePredictedType = .kNonBranch
    · exact (ih.feedback _).of_agree (q.agree_tables.feedback_none b htype)
    · exact (ih.feedback _).of_agree (q.agree_tables.feedback_some b rfl htype)
  | @saved x _ ih =>
    cases x with
    | timing p => exact ih.saved
    | warming q => exact ih.saved
  | @loaded x y _ _ ihx ihy =>
    have harchive : x.archive = x.tables.saveState.1 := by cases x <;> rfl
    rw [harchive]
    cases y with
    | timing p => exact ihx.loaded ihy
    | warming q => exact ihx.loaded ihy

/-! ### The history of a resolved branch -/

theorem toNat_shifted (r : BitVec 32) : ((r <<< 1) &&& 0x1FFF).toNat = 2 * r.toNat % 8192 := by
  have hmask : (0x1FFF : BitVec 32) = lowBits 32 13 := by decide
  rw [hmask, toNat_and_lowBits (by decide), BitVec.toNat_shiftLeft, Nat.shiftLeft_eq]
  omega

theorem toNat_shifted_one (r : BitVec 32) :
    (((r <<< 1) &&& 0x1FFF) ||| 1).toNat = 2 * r.toNat % 8192 + 1 := by
  have hdisjoint : ((r <<< 1) &&& 0x1FFF) &&& 1 = 0#32 := by
    have hone : (1 : BitVec 32) = lowBits 32 1 := by decide
    refine BitVec.eq_of_toNat_eq ?_
    rw [hone, toNat_and_lowBits (by decide), toNat_shifted]
    show 2 * r.toNat % 8192 % 2 = 0
    omega
  rw [← BitVec.add_eq_or_of_and_eq_zero _ _ hdisjoint, BitVec.toNat_add, toNat_shifted]
  show (2 * r.toNat % 8192 + 1) % 2 ^ 32 = _
  omega

theorem toNat_lt_of_fits {r : BitVec 32} (h : r &&& 0x1FFF = r) : r.toNat < 8192 := by
  have hmask : (0x1FFF : BitVec 32) = lowBits 32 13 := by decide
  rw [← h, hmask, toNat_and_lowBits (by decide)]
  exact Nat.mod_lt _ (by decide)

namespace GShare

variable (g : GShare)

/-- A history that is all of one direction. -/
def constant (d : EDirection) : BitVec 32 := if d.notTaken then g.thePatternMask else 0

/-- **A history that does not change** when a direction is shifted in. -/
theorem shiftIn_eq_iff (hm : g.thePatternMask = 0x1FFF)
    (hr : g.theShiftReg &&& 0x1FFF = g.theShiftReg) (d : EDirection) :
    (g.shiftIn d).theShiftReg = g.theShiftReg ↔ g.theShiftReg = g.constant d := by
  have hlt := toNat_lt_of_fits hr
  have hshifted := toNat_shifted g.theShiftReg
  have hshifted' := toNat_shifted_one g.theShiftReg
  rw [shiftIn, constant, hm]
  cases d.notTaken with
  | true =>
    rw [if_pos rfl, if_pos rfl, BitVec.toNat_eq, BitVec.toNat_eq, hshifted']
    show 2 * g.theShiftReg.toNat % 8192 + 1 = g.theShiftReg.toNat ↔ g.theShiftReg.toNat = 8191
    omega
  | false =>
    rw [if_neg Bool.false_ne_true, if_neg Bool.false_ne_true, BitVec.toNat_eq, BitVec.toNat_eq,
      hshifted]
    show 2 * g.theShiftReg.toNat % 8192 = g.theShiftReg.toNat ↔ g.theShiftReg.toNat = 0
    omega

theorem shiftIn_congr {d d' : EDirection} (h : d.notTaken = d'.notTaken) :
    g.shiftIn d = g.shiftIn d' := by
  rw [shiftIn, shiftIn, h]

/-- The history of a mispredicted branch, restored and put right. -/
theorem shiftIn_restored (h : g.theShiftReg &&& g.thePatternMask = g.theShiftReg)
    (d d' : EDirection) :
    (((g.shiftIn d).setShiftReg g.theShiftReg).shiftIn d').theShiftReg =
      (g.shiftIn d').theShiftReg := by
  show (if d'.notTaken then (((g.theShiftReg &&& g.thePatternMask) <<< 1) &&& g.thePatternMask) ||| 1
    else ((g.theShiftReg &&& g.thePatternMask) <<< 1) &&& g.thePatternMask) = _
  rw [h]
  rfl

end GShare

namespace CombiningImpl

variable (p : CombiningImpl)

/-- The direction that the tables choose for a branch, were it conditional. -/
def chosenDirection (anAddress : BitVec 64) : EDirection :=
  if (p.theMeta.direction anAddress).notTaken then
    p.theGShare.direction anAddress p.theGShare.theShiftReg
  else p.theBimodal.direction anAddress

/-- Where the tables send a conditional branch. -/
def chosenTarget (anAddress : BitVec 64) : BitVec 64 :=
  if (p.chosenDirection anAddress).notTaken then 0 else (p.theBTB.target anAddress).getD 0

/-- The direction of a branch by its history. -/
def historyDirection (anAddress : BitVec 64) : EDirection :=
  p.theGShare.direction anAddress p.theGShare.theShiftReg

/-- **What the history should be** after a branch. -/
def properHistory (b : Branch) : BitVec 32 :=
  if b.theType = .kConditional then (p.theGShare.shiftIn b.theDirection).theShiftReg
  else p.theGShare.theShiftReg

/-- **What the history is** after a branch, by what the buffer has for its address. -/
def resolvedHistory (b : Branch) : BitVec 32 :=
  match p.theBTB.type b.thePC with
  | .kNonBranch => p.properHistory b
  | .kConditional =>
    if b.theType ≠ .kConditional ∧ p.chosenTarget b.thePC = b.theTarget then
      (p.theGShare.shiftIn (p.historyDirection b.thePC)).theShiftReg
    else p.properHistory b
  | .kUnconditional | .kCall =>
    if b.theType = .kConditional ∧ !b.theDirection.notTaken then p.theGShare.theShiftReg
    else p.properHistory b
  | .kReturn =>
    if b.theType = .kConditional then
      if b.theDirection.notTaken then 1 else p.theGShare.theShiftReg
    else if b.theTarget = 0 then p.theGShare.theShiftReg else 0

/-- **Feedback about a branch that is new** extends the history, or leaves it. -/
theorem feedback_new {b : Branch} (hb : b.theType ≠ .kNonBranch)
    (hnew : p.theBTB.contains b.thePC = false) (s : Option BPredState) :
    (p.feedback (b.toFeedback s)).theGShare.theShiftReg = p.properHistory b := by
  have hupdate : (p.theBTB.update b.thePC b.theType b.theTarget).2 = true := by
    rw [BTB.update_new _ _ _ hb, hnew]
    rfl
  rw [properHistory]
  by_cases hcond : b.theType = .kConditional
  · rw [hcond] at hupdate
    simp only [feedback, Branch.toFeedback, hcond, hupdate, if_true]
  · simp only [feedback, Branch.toFeedback, hcond, hupdate, if_false]
    cases s with
    | none => rfl
    | some s => simp only [Bool.not_true, Bool.false_eq_true, and_false, if_false]

/-- **Feedback about a branch that the buffer has** goes by the record. -/
theorem feedback_known {b : Branch} (hb : b.theType ≠ .kNonBranch)
    (hold : p.theBTB.contains b.thePC = true) (s : BPredState) :
    (p.feedback (b.toFeedback (some s))).theGShare.theShiftReg =
      if b.theType = .kConditional then
        if s.theGSharePrediction.notTaken ≠ b.theDirection.notTaken then
          ((p.theGShare.setShiftReg s.theGShareShiftReg).shiftIn b.theDirection).theShiftReg
        else p.theGShare.theShiftReg
      else if s.thePredictedTarget ≠ b.theTarget then
        (p.theGShare.setShiftReg s.theGShareShiftReg).theShiftReg
      else p.theGShare.theShiftReg := by
  have hupdate : (p.theBTB.update b.thePC b.theType b.theTarget).2 = false := by
    rw [BTB.update_new _ _ _ hb, hold]
    rfl
  by_cases hcond : b.theType = .kConditional
  · rw [hcond] at hupdate
    simp only [feedback, Branch.toFeedback, hcond, hupdate, if_true, Bool.false_eq_true, if_false,
      learn, GShare.update]
    split <;> rfl
  · simp only [feedback, Branch.toFeedback, hcond, hupdate, if_false, Bool.not_false, and_true]
    split <;> rfl

/-- The history after a branch that was predicted as an unconditional one, or as a call. The record
says that it is taken by the history. -/
theorem resolved_unconditional
    (hfits : p.theGShare.theShiftReg &&& p.theGShare.thePatternMask = p.theGShare.theShiftReg)
    (b : Branch) :
    (if b.theType = .kConditional then
        if kStronglyTaken.notTaken ≠ b.theDirection.notTaken then
          ((p.theGShare.setShiftReg p.theGShare.theShiftReg).shiftIn b.theDirection).theShiftReg
        else p.theGShare.theShiftReg
      else if (p.predictUnconditional b.thePC).thePredictedTarget ≠ b.theTarget then
        (p.theGShare.setShiftReg p.theGShare.theShiftReg).theShiftReg
      else p.theGShare.theShiftReg) =
    if b.theType = .kConditional ∧ !b.theDirection.notTaken then p.theGShare.theShiftReg
    else p.properHistory b := by
  have hset : p.theGShare.setShiftReg p.theGShare.theShiftReg = p.theGShare := by
    rw [GShare.setShiftReg, hfits]
  rw [hset, properHistory]
  by_cases hcond : b.theType = .kConditional
  · simp only [hcond, if_true, true_and]
    cases b.theDirection.notTaken with
    | false => rfl
    | true => rfl
  · simp only [hcond, if_false, false_and]
    split <;> rfl

/-- **The history of a resolved branch.** -/
theorem history_resolve {p : CombiningImpl} (h : p.Sound) {b : Branch}
    (hb : b.theType ≠ .kNonBranch) :
    (p.resolve b).theGShare.theShiftReg = p.resolvedHistory b := by
  have hfits : p.theGShare.theShiftReg &&& p.theGShare.thePatternMask = p.theGShare.theShiftReg := by
    rw [h.masked.mask]
    exact h.masked.shiftReg
  have hbtb := p.predict_theBTB b.thePC
  have hknown : p.theBTB.type b.thePC ≠ .kNonBranch →
      (p.predict b.thePC).2.theBTB.contains b.thePC = true := by
    intro htype
    rw [hbtb, ← Bool.not_eq_false, ← h.typed.type_eq_kNonBranch]
    exact htype
  rw [resolve, resolvedHistory]
  cases htype : p.theBTB.type b.thePC with
  | kNonBranch =>
    have hnew : (p.predict b.thePC).2.theBTB.contains b.thePC = false := by
      rw [hbtb]
      exact h.typed.type_eq_kNonBranch.mp htype
    rw [feedback_new _ hb hnew, predict, htype]
    rfl
  | kConditional =>
    rw [feedback_known _ hb (hknown (by rw [htype]; decide)), predict, htype]
    show (if b.theType = .kConditional then
        if (p.historyDirection b.thePC).notTaken ≠ b.theDirection.notTaken then
          (((p.theGShare.shiftIn (p.historyDirection b.thePC)).setShiftReg
            p.theGShare.theShiftReg).shiftIn b.theDirection).theShiftReg
        else (p.theGShare.shiftIn (p.historyDirection b.thePC)).theShiftReg
      else if p.chosenTarget b.thePC ≠ b.theTarget then
        p.theGShare.theShiftReg &&& p.theGShare.thePatternMask
      else (p.theGShare.shiftIn (p.historyDirection b.thePC)).theShiftReg) = _
    rw [p.theGShare.shiftIn_restored hfits, hfits, properHistory]
    by_cases hcond : b.theType = .kConditional
    · simp only [hcond, if_true, ne_eq, not_true_eq_false, false_and, if_false]
      split
      · rfl
      · rename_i hsame
        rw [p.theGShare.shiftIn_congr (not_not.mp hsame)]
    · simp only [hcond, if_false, ne_eq, not_false_eq_true, true_and]
      by_cases htarget : p.chosenTarget b.thePC = b.theTarget
      · rw [if_neg (not_not_intro htarget), if_pos htarget]
      · rw [if_pos htarget, if_neg htarget]
  | kUnconditional =>
    rw [feedback_known _ hb (hknown (by rw [htype]; decide)), predict, htype]
    exact p.resolved_unconditional hfits b
  | kCall =>
    rw [feedback_known _ hb (hknown (by rw [htype]; decide)), predict, htype]
    exact p.resolved_unconditional hfits b
  | kReturn =>
    rw [feedback_known _ hb (hknown (by rw [htype]; decide)), predict, htype]
    -- the record of a return has the history zero, and the target zero
    show (if b.theType = .kConditional then
        if false ≠ b.theDirection.notTaken then
          ((p.theGShare.setShiftReg 0).shiftIn b.theDirection).theShiftReg
        else p.theGShare.theShiftReg
      else if 0 ≠ b.theTarget then 0 &&& p.theGShare.thePatternMask
      else p.theGShare.theShiftReg) = _
    have hzero : (0 : BitVec 32) &&& p.theGShare.thePatternMask = 0 := BitVec.zero_and
    rw [hzero]
    by_cases hcond : b.theType = .kConditional
    · rw [if_pos hcond, if_pos hcond]
      cases hdir : b.theDirection.notTaken with
      | false => rfl
      | true =>
        show (if b.theDirection.notTaken then
          (((0 &&& p.theGShare.thePatternMask) <<< 1) &&& p.theGShare.thePatternMask) ||| 1
          else ((0 &&& p.theGShare.thePatternMask) <<< 1) &&& p.theGShare.thePatternMask) = 1
        rw [if_pos hdir, hzero]
        show ((0 : BitVec 32) &&& p.theGShare.thePatternMask) ||| 1 = 1
        rw [hzero]
        rfl
    · rw [if_neg hcond, if_neg hcond]
      by_cases htarget : b.theTarget = 0
      · rw [if_pos htarget, if_neg (not_not_intro htarget.symm)]
      · rw [if_neg htarget, if_pos (Ne.symm htarget)]

end CombiningImpl

/-- **The history of a resolved branch**, for either class. -/
theorem Predictor.history_resolve {x : Predictor} (h : x.tables.Sound) {b : Branch}
    (hb : b.theType ≠ .kNonBranch) : (x.resolve b).history = x.tables.resolvedHistory b := by
  cases x with
  | timing p => exact CombiningImpl.history_resolve h hb
  | warming q =>
    obtain ⟨hrecord, hnext⟩ := q.agree_tables.predict b.thePC
    have htype := q.predict_type b.thePC
    by_cases hnone : q.theBTB.type b.thePC = .kNonBranch
    · -- the feedback is that of a timing predictor without a record
      have hagree : Agree (q.tables.feedback (b.toFeedback none)) (q.resolve b) := by
        refine Agree.feedback_none ?_ b (htype.trans hnone)
        rw [q.predict_of_kNonBranch hnone]
        exact ⟨rfl, rfl, rfl, rfl⟩
      have hnew : q.tables.theBTB.contains b.thePC = false := h.typed.type_eq_kNonBranch.mp hnone
      have hhistory := q.tables.feedback_new hb hnew none
      rw [hagree.gshare] at hhistory
      have htables : q.tables.theBTB.type b.thePC = .kNonBranch := hnone
      show (q.resolve b).theGShare.theShiftReg = q.tables.resolvedHistory b
      rw [hhistory, CombiningImpl.resolvedHistory, htables]
    · have hagree : Agree (q.tables.resolve b) (q.resolve b) := by
        refine hnext.feedback_some b (by rw [hrecord]) ?_
        have hsame : (q.tables.predict b.thePC).1.thePredictedType =
            (q.predict b.thePC).1.thePredictedType := by rw [hrecord]
        rw [hsame, htype]
        exact hnone
      have hhistory : (q.tables.resolve b).theGShare.theShiftReg = q.tables.resolvedHistory b :=
        CombiningImpl.history_resolve h hb
      rw [hagree.gshare] at hhistory
      exact hhistory

/-! ### When the history is recovered -/

/-- **The history is recovered** when a branch is resolved. -/
def Predictor.Recovers (x : Predictor) (b : Branch) : Prop :=
  b.theType ≠ .kNonBranch → (x.resolve b).history = x.tables.properHistory b

/-- **Whether the history can be recovered**, by what the buffer has for the branch: a conditional
branch must not turn out to be another one with the target it would have had, an unconditional one
or a call must not turn out to be conditional and taken, and a return must not go anywhere. These
do no harm where the history does not tell. -/
def CombiningImpl.Recoverable (p : CombiningImpl) (b : Branch) : Prop :=
  match p.theBTB.type b.thePC with
  | .kNonBranch => True
  | .kConditional =>
    b.theType = .kConditional ∨ p.chosenTarget b.thePC ≠ b.theTarget ∨
      p.theGShare.theShiftReg = p.theGShare.constant (p.historyDirection b.thePC)
  | .kUnconditional | .kCall =>
    b.theType ≠ .kConditional ∨ b.theDirection.notTaken = true ∨ p.theGShare.theShiftReg = 0
  | .kReturn =>
    if b.theType = .kConditional then
      if b.theDirection.notTaken then
        (p.theGShare.theShiftReg <<< 1) &&& p.theGShare.thePatternMask = 0
      else p.theGShare.theShiftReg = 0
    else b.theTarget = 0 ∨ p.theGShare.theShiftReg = 0

namespace CombiningImpl

variable {p : CombiningImpl}

/-- The history of a branch that is taken should stay as it is if it is zero. -/
theorem eq_properHistory_iff (h : p.Masked) {b : Branch} (hcond : b.theType = .kConditional)
    (hdir : b.theDirection.notTaken = false) :
    p.theGShare.theShiftReg = p.properHistory b ↔ p.theGShare.theShiftReg = 0 := by
  have hiff := p.theGShare.shiftIn_eq_iff h.mask h.shiftReg b.theDirection
  rw [GShare.constant, hdir] at hiff
  rw [properHistory, if_pos hcond]
  exact eq_comm.trans hiff

/-- **The condition is exact**, whatever the buffer has. -/
theorem resolvedHistory_iff (h : p.Masked) {b : Branch} :
    p.resolvedHistory b = p.properHistory b ↔ p.Recoverable b := by
  rw [resolvedHistory, Recoverable]
  have hunconditional : (if b.theType = .kConditional ∧ !b.theDirection.notTaken then
      p.theGShare.theShiftReg else p.properHistory b) = p.properHistory b ↔
      b.theType ≠ .kConditional ∨ b.theDirection.notTaken = true ∨
        p.theGShare.theShiftReg = 0 := by
    by_cases hcond : b.theType = .kConditional
    · cases hdir : b.theDirection.notTaken with
      | true => simp [hcond]
      | false =>
        rw [if_pos ⟨hcond, rfl⟩, eq_properHistory_iff h hcond hdir]
        simp [hcond]
    · simp [hcond]
  cases p.theBTB.type b.thePC with
  | kNonBranch => exact ⟨fun _ => trivial, fun _ => rfl⟩
  | kConditional =>
    by_cases hcond : b.theType = .kConditional
    · simp [hcond]
    · by_cases htarget : p.chosenTarget b.thePC = b.theTarget
      · have hproper : p.properHistory b = p.theGShare.theShiftReg := if_neg hcond
        simp only [hcond, htarget, ne_eq, not_false_eq_true, not_true_eq_false, true_and, if_true,
          false_or, hproper]
        exact p.theGShare.shiftIn_eq_iff h.mask h.shiftReg _
      · simp [htarget]
  | kUnconditional => exact hunconditional
  | kCall => exact hunconditional
  | kReturn =>
    by_cases hcond : b.theType = .kConditional
    · simp only [if_pos hcond]
      cases hdir : b.theDirection.notTaken with
      | true =>
        have hproper : p.properHistory b =
            ((p.theGShare.theShiftReg <<< 1) &&& p.theGShare.thePatternMask) ||| 1 := by
          rw [properHistory, if_pos hcond]
          exact if_pos hdir
        simp only [if_true, hproper]
        rw [h.mask, BitVec.toNat_eq, BitVec.toNat_eq, toNat_shifted_one, toNat_shifted]
        show 1 = 2 * p.theGShare.theShiftReg.toNat % 8192 + 1 ↔
          2 * p.theGShare.theShiftReg.toNat % 8192 = 0
        omega
      | false =>
        simp only [Bool.false_eq_true, if_false]
        exact eq_properHistory_iff h hcond hdir
    · have hproper : p.properHistory b = p.theGShare.theShiftReg := if_neg hcond
      simp only [if_neg hcond, hproper]
      by_cases htarget : b.theTarget = 0
      · simp [htarget]
      · rw [if_neg htarget]
        simp only [htarget, false_or]
        exact eq_comm

end CombiningImpl

namespace Predictor

/-- **The history is recovered all along** a sequence of branches, each of which is predicted and
then resolved. -/
def RecoversAll : Predictor → List Branch → Prop
  | _, [] => True
  | x, b :: bs => x.Recovers b ∧ (x.resolve b).RecoversAll bs

/-- It can be recovered all along. Nothing is asked of an instruction that is not a branch. -/
def RecoverableAll : Predictor → List Branch → Prop
  | _, [] => True
  | x, b :: bs =>
    (b.theType ≠ .kNonBranch → x.tables.Recoverable b) ∧ (x.resolve b).RecoverableAll bs

theorem Reached.resolve {x : Predictor} (h : x.Reached) (b : Branch) : (x.resolve b).Reached := by
  cases x with
  | timing p => exact (h.predict b.thePC).feedback _
  | warming q => exact (h.predict b.thePC).fastFeedback b _

theorem Reached.recovers_iff {x : Predictor} (h : x.Reached) (b : Branch) :
    x.Recovers b ↔ (b.theType ≠ .kNonBranch → x.tables.Recoverable b) := by
  refine forall_congr' fun hb => ?_
  rw [history_resolve h.sound hb]
  exact CombiningImpl.resolvedHistory_iff h.sound.masked

end Predictor

/-- A branch that is not taken, and a return that is seen twice. -/
def returnTwice : List Branch :=
  [⟨8, .kConditional, kNotTaken, 12⟩, ⟨0, .kReturn, kTaken, 16⟩, ⟨0, .kReturn, kTaken, 16⟩]

/-- **The second return clears the history**, with either class. -/
theorem returnTwice_not_recovered :
    ¬(Predictor.timing CombiningImpl.fresh).RecoversAll returnTwice ∧
      ¬(Predictor.warming FastCombiningImpl.fresh).RecoversAll returnTwice := by
  refine ⟨?_, ?_⟩
  · rintro ⟨-, -, hlast, -⟩
    have heq := hlast (by decide)
    revert heq
    decide +kernel
  · rintro ⟨-, -, hlast, -⟩
    have heq := hlast (by decide)
    revert heq
    decide +kernel

/-- **When the history is recovered**: from every state of a predictor of either class, the history
is what it should be after each branch of a sequence if and only if every branch meets the condition
in the state in which it is predicted. -/
theorem recoversAll_iff {x : Predictor} (h : x.Reached) (bs : List Branch) :
    x.RecoversAll bs ↔ x.RecoverableAll bs := by
  induction bs generalizing x with
  | nil => exact Iff.rfl
  | cons b bs ih => exact and_congr (h.recovers_iff b) (ih (h.resolve b))

/-- A branch that is new. -/
theorem newBranch_recovered :
    (Predictor.timing CombiningImpl.fresh).RecoversAll [⟨0, .kConditional, kTaken, 16⟩] := by
  refine (recoversAll_iff .timing _).mpr ⟨fun _ => ?_, trivial⟩
  have htype : CombiningImpl.fresh.theBTB.type 0 = .kNonBranch := by decide
  show CombiningImpl.Recoverable CombiningImpl.fresh _
  rw [CombiningImpl.Recoverable, htype]
  trivial

end BPred

end Flexus
