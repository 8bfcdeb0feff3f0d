import Flexus.Common.BranchPredictor
import Flexus.Decoder.BaseAction
import Flexus.Decoder.Conditions

/-!
# What the branch predictor is told

A conditional branch makes a record of how it went when it is evaluated, and keeps it
(`components/v9Decoder/SemanticActions/BranchAction.cpp`). It may be evaluated more than once, with
other outcomes: what it reads may be squashed and read again. When it retires an effect,
`updateConditional`, hands the record to the core, which sends it to the predictor at the end of the
cycle.

The effect is added by the function that makes the branch. `branch_cc` and `branch_fcc` add it;
`bpr` does not, and the predictor never hears of a branch on the contents of a register
(`Flexus.Decoder.reported_iff`).

The instructions here are those of the reorder buffer. What else they do, and what makes them be
squashed, is left open.
-/

namespace Flexus

namespace Decoder

open BPred (BPredState BranchFeedback)

/-! ### Conditional branches -/

/-- What a conditional branch tests in its first operand. -/
inductive BranchTest
  /-- `BranchCCAction`, of integer condition codes. -/
  | cc (theCondition : BitVec 32)
  /-- `BranchCCAction`, of the condition codes of floating-point numbers. -/
  | fcc (theCondition : BitVec 32)
  /-- `BranchRegAction`. -/
  | reg (theCondition : BitVec 32)
  deriving DecidableEq

/-- The result of the test. -/
def BranchTest.result (kOperand1 : BitVec 64) : BranchTest → Bool
  | cc theCondition => (condition theCondition).holds (kOperand1.setWidth 8)
  | fcc theCondition => (fcondition theCondition).theTest (kOperand1.setWidth 8)
  | reg theCondition => (rcondition theCondition).holds kOperand1

/-- **A conditional branch**, as it is put together. -/
structure ConditionalBranch where
  theTest : BranchTest
  theTarget : BitVec 64
  /-- There is a `ReadRegisterAction` for the operand. A branch on register 0 has none, and its
  operand is satisfied at dispatch. -/
  readsRegister : Bool
  /-- `updateConditional` is a retirement effect. -/
  updatesPredictor : Bool
  deriving DecidableEq

/-- **The conditional branches**: those that `branch_cc`, `branch_fcc` and `bpr` make. -/
def Instruction.conditional : Instruction → Option ConditionalBranch
  | .branch_cc _ useXcc cond target =>
    some ⟨.cc (packCondition false useXcc cond), target, true, true⟩
  | .branch_fcc _ _ cond target => some ⟨.fcc cond, target, true, true⟩
  | .branch_reg _ cond rs1 target => some ⟨.reg cond, target, rs1 != 0, false⟩
  | _ => none

/-- A branch that `bpr` makes. -/
def ConditionalBranch.isBpr (b : ConditionalBranch) : Bool :=
  match b.theTest with
  | .reg _ => true
  | .cc _ | .fcc _ => false

theorem Instruction.updatesPredictor_eq {i : Instruction} {b : ConditionalBranch}
    (h : i.conditional = some b) : b.updatesPredictor = !b.isBpr := by
  cases i with
  | branch_cc _ _ _ _ => cases h; rfl
  | branch_fcc _ _ _ _ => cases h; rfl
  | branch_reg _ _ _ _ => cases h; rfl
  | _ => cases h

/-! ### An instruction of the reorder buffer -/

/-- **An instruction of the reorder buffer**, with the actions of a conditional branch. -/
structure RobInsn where
  thePC : BitVec 64
  theBPState : Option BPredState
  theBranch : Option ConditionalBranch
  read : SemanticAction
  branch : SemanticAction
  kOperand1 : BitVec 64
  /-- Its bit in `theRetirementDepends`. -/
  mayRetire : Bool
  theBranchFeedback : Option BranchFeedback

/-- What happens to the actions of an instruction. -/
inductive InsnStep
  /-- The register that it reads becomes ready. -/
  | satisfyRead
  /-- The register is bypassed. -/
  | bypass (aValue : BitVec 64)
  /-- The `ReadRegisterAction` is evaluated. The register is ready if it has a value. -/
  | evaluateRead (aValue : Option (BitVec 64))
  /-- The register is squashed. -/
  | squashRead
  /-- The action of the branch is evaluated. -/
  | evaluate (hasPredecessorExecuted : Bool)
  deriving DecidableEq

namespace RobInsn

/-- An instruction that is dispatched. One that is not a conditional branch may retire at any
time. -/
def dispatched (f : FetchedOpcode) (theBPState : Option BPredState) : RobInsn :=
  let theBranch := (decode f).conditional
  let branch := SemanticAction.create 1 true false
  { thePC := f.thePC
    theBPState := theBPState
    theBranch := theBranch
    read := SemanticAction.create 1 true true
    branch := if theBranch.any fun b => !b.readsRegister then branch.satisfy 0 else branch
    kOperand1 := 0
    mayRetire := theBranch.isNone
    theBranchFeedback := none }

variable (x : RobInsn) (b : ConditionalBranch)

/-- **The record of a branch**, by what its operand is. -/
def feedback : BranchFeedback where
  thePC := x.thePC
  theActualType := .kConditional
  theActualDirection := if b.theTest.result x.kOperand1 then .kTaken else .kNotTaken
  theActualTarget := b.theTarget
  theBPState := x.theBPState

/-- The operand is set, and the action of the branch is told. -/
def readOperand (aValue : BitVec 64) : RobInsn :=
  { x with
    kOperand1 := aValue
    branch := x.branch.satisfy 0
    read := (x.read.setReady 0 true).signal }

/-- `squash` of the action of the branch. The retirement waits for it again. -/
def squashBranch : RobInsn :=
  let x := { x with branch := x.branch.setReady 0 false }
  if x.branch.theSquashed then x
  else { x with mayRetire := false, branch := x.branch.markSquashed }

/-- `squash` of the `ReadRegisterAction`. -/
def squashRead : RobInsn :=
  let x := { x with read := x.read.setReady 0 false }
  if x.read.theSquashed then x else { x.squashBranch with read := x.read.markSquashed }

/-- **`doEvaluate`**, of a `BranchCCAction` or a `BranchRegAction`. -/
def evaluate (hasPredecessorExecuted : Bool) : RobInsn :=
  let x := { x with branch := x.branch.take }
  if x.branch.ready then
    if hasPredecessorExecuted then
      let x := { x with theBranchFeedback := some (x.feedback b) }
      if x.branch.theSignalled then x
      else { x with mayRetire := true, branch := x.branch.signal }
    else { x with branch := x.branch.reschedule }
  else x

/-- The actions of a conditional branch. -/
def stepBranch : InsnStep → RobInsn
  | .satisfyRead => if b.readsRegister then { x with read := x.read.satisfy 0 } else x
  | .bypass aValue =>
    if b.readsRegister && !x.read.theSignalled then x.readOperand aValue else x
  | .evaluateRead aValue =>
    if b.readsRegister && !x.read.theSignalled then
      match aValue with
      | some aValue => x.readOperand aValue
      | none => { x with read := x.read.setReady 0 false }
    else x
  | .squashRead => if b.readsRegister then x.squashRead else x
  | .evaluate hasPredecessorExecuted => x.evaluate b hasPredecessorExecuted

/-- What happens to an instruction. -/
def step (e : InsnStep) : RobInsn :=
  match x.theBranch with
  | some b => x.stepBranch b e
  | none => x

end RobInsn

/-! ### The core -/

/-- What instructions that are not conditional branches tell the predictor. -/
abbrev OtherFeedback := { f : BranchFeedback // f.theActualType ≠ .kConditional }

/-- **A core that tells the predictor about branches.** -/
structure FeedbackCore where
  /-- The oldest instruction first. -/
  theROB : List RobInsn
  theBranchFeedback : List BranchFeedback
  /-- What the predictor was told. -/
  sent : List BranchFeedback
  /-- The conditional branches that have retired, with their outcomes. -/
  retired : List BranchFeedback

/-- What happens in a core. What other instructions tell the predictor as they are dispatched or
retire is left open. -/
inductive FeedbackEvent
  | dispatch (f : FetchedOpcode) (theBPState : Option BPredState) (others : List OtherFeedback)
  | insn (n : ℕ) (e : InsnStep)
  | retire (others : List OtherFeedback)
  /-- The instructions from a place on are squashed. -/
  | squash (n : ℕ)
  /-- The end of a cycle. -/
  | send

namespace FeedbackCore

variable (s : FeedbackCore)

/-- `retire`, of the oldest instruction. -/
def retire (others : List OtherFeedback) : FeedbackCore :=
  match s.theROB with
  | [] => s
  | x :: rest =>
    if x.mayRetire then
      match x.theBranch with
      | some b =>
        { s with
          theROB := rest
          theBranchFeedback := s.theBranchFeedback ++
            if b.updatesPredictor then x.theBranchFeedback.toList else []
          retired := s.retired ++ [x.feedback b] }
      | none =>
        { s with
          theROB := rest
          theBranchFeedback := s.theBranchFeedback ++ others.map Subtype.val }
    else s

def step : FeedbackEvent → FeedbackCore
  | .dispatch f theBPState others =>
    { s with
      theROB := s.theROB ++ [RobInsn.dispatched f theBPState]
      theBranchFeedback := s.theBranchFeedback ++
        if (decode f).conditional.isSome then [] else others.map Subtype.val }
  | .insn n e => { s with theROB := s.theROB.modify n fun x => x.step e }
  | .retire others => s.retire others
  | .squash n => { s with theROB := s.theROB.take n }
  | .send => { s with sent := s.sent ++ s.theBranchFeedback, theBranchFeedback := [] }

/-- **The predictor is told about every conditional branch that retires**, once and in order: what
it was told, and what is going to be sent at the end of the cycle. -/
def Reported : Prop :=
  (s.sent ++ s.theBranchFeedback).filter (fun f => f.theActualType = .kConditional) = s.retired

/-- **What retires is not a branch on the contents of a register.** -/
def RetiresNoBpr : FeedbackEvent → Prop
  | .retire _ => ∀ x ∈ s.theROB.head?, x.mayRetire = true → ∀ b ∈ x.theBranch, b.isBpr = false
  | _ => True

end FeedbackCore

/-- A core without instructions. No event fails. -/
def feedbackMachine : Lib.Machine FeedbackCore FeedbackEvent Empty where
  init := ⟨[], [], [], []⟩
  step s e := .ok (s.step e)

/-! ### What holds of an instruction -/

namespace RobInsn

/-- **What holds of an instruction of the reorder buffer**: a conditional branch that may retire has
signalled, one that has signalled has the record for its operand, and the operand stays as it is
until the register is squashed. -/
structure Sound (x : RobInsn) : Prop where
  decoded : ∃ i : Instruction, x.theBranch = i.conditional
  retires : x.theBranch.isSome = true → x.mayRetire = true → x.branch.theSignalled = true
  record : ∀ b ∈ x.theBranch, x.branch.theSignalled = true →
    x.theBranchFeedback = some (x.feedback b)
  signalled : ∀ b ∈ x.theBranch, b.readsRegister = true → x.branch.theSignalled = true →
    x.read.theSignalled = true
  ready : ∀ b ∈ x.theBranch, b.readsRegister = true → x.branch.theReady 0 = true →
    x.read.theSignalled = true
  branchSquashed : x.branch.theSquashed = true → x.branch.theSignalled = false
  readSquashed : x.read.theSquashed = true → x.read.theSignalled = false

namespace Sound

variable {x : RobInsn} {b : ConditionalBranch}

/-- Nothing has been signalled when an instruction is dispatched. -/
theorem dispatched (f : FetchedOpcode) (theBPState : Option BPredState) :
    (RobInsn.dispatched f theBPState).Sound := by
  have hbranch : ∀ d : SemanticAction, d.theSignalled = false →
      (if (decode f).conditional.any fun b => !b.readsRegister then d.satisfy 0
        else d).theSignalled = false := by
    intro d hd
    split
    · rw [SemanticAction.satisfy_theSignalled, hd]
    · exact hd
  have hsignalled : (RobInsn.dispatched f theBPState).branch.theSignalled = false := hbranch _ rfl
  refine ⟨⟨decode f, rfl⟩, fun hsome hretire => ?_, fun b _ h => ?_, fun b _ _ h => ?_,
    fun b hb hreads h => ?_, fun _ => hsignalled, fun _ => rfl⟩
  · have hnone : (decode f).conditional.isNone = true := hretire
    have hsome' : (decode f).conditional.isSome = true := hsome
    rw [Option.isNone_iff_eq_none] at hnone
    rw [hnone] at hsome'
    cases hsome'
  · rw [hsignalled] at h
    cases h
  · rw [hsignalled] at h
    cases h
  · -- the operand of a branch that reads a register is not ready
    have hcond : (decode f).conditional = some b := hb
    have hready : (RobInsn.dispatched f theBPState).branch.theReady 0 = false := by
      show (if (decode f).conditional.any fun b => !b.readsRegister then _ else _ :
        SemanticAction).theReady 0 = false
      rw [hcond, Option.any_some, hreads]
      rfl
    rw [hready] at h
    cases h

/-- Where the operand has not been read, the action of the branch has not signalled. -/
theorem not_signalled (h : x.Sound) (hb : x.theBranch = some b) (hreads : b.readsRegister = true)
    (hread : x.read.theSignalled = false) : x.branch.theSignalled = false := by
  rw [Bool.eq_false_iff]
  intro hs
  have := h.signalled b hb hreads hs
  rw [hread] at this
  cases this

/-- **The operand is set** only when nothing depends on what it was. -/
theorem readOperand (h : x.Sound) (hb : x.theBranch = some b) (hreads : b.readsRegister = true)
    (hread : x.read.theSignalled = false) (aValue : BitVec 64) : (x.readOperand aValue).Sound := by
  have hbranch := h.not_signalled hb hreads hread
  have hsatisfy : (x.branch.satisfy 0).theSignalled = false := by
    rw [SemanticAction.satisfy_theSignalled, hbranch]
  refine ⟨h.decoded, fun hsome hretire => ?_, fun b' _ hs => ?_, fun _ _ _ _ => rfl,
    fun _ _ _ _ => rfl, fun _ => hsatisfy, fun hs => ?_⟩
  · have := h.retires hsome hretire
    rw [hbranch] at this
    cases this
  · have hs' : (x.branch.satisfy 0).theSignalled = true := hs
    rw [hsatisfy] at hs'
    cases hs'
  · cases hs

/-- **After the action of the branch is squashed** the retirement waits for it. -/
theorem squashBranch (h : x.Sound) :
    x.squashBranch.branch.theSignalled = false ∧ x.squashBranch.branch.theReady 0 = false ∧
      (x.theBranch.isSome = true → x.squashBranch.mayRetire = false) ∧
      x.squashBranch.theBranch = x.theBranch := by
  have hready : (x.branch.setReady 0 false).theReady 0 = false := SemanticAction.setReady_self
  rw [RobInsn.squashBranch]
  dsimp only
  by_cases hsquashed : x.branch.theSquashed = true
  · have hsquashed' : (x.branch.setReady 0 false).theSquashed = true := hsquashed
    rw [if_pos hsquashed']
    refine ⟨h.branchSquashed hsquashed, hready, fun hsome => ?_, rfl⟩
    rw [Bool.eq_false_iff]
    intro hretire
    have hs := h.retires hsome hretire
    rw [h.branchSquashed hsquashed] at hs
    cases hs
  · have hsquashed' : ¬(x.branch.setReady 0 false).theSquashed = true := hsquashed
    rw [if_neg hsquashed']
    exact ⟨rfl, hready, fun _ => rfl, rfl⟩

theorem squashRead (h : x.Sound) : x.squashRead.Sound := by
  obtain ⟨hsignalled, hready, hretire, hbranch⟩ := h.squashBranch
  rw [RobInsn.squashRead]
  dsimp only
  by_cases hsquashed : x.read.theSquashed = true
  · have hsquashed' : (x.read.setReady 0 false).theSquashed = true := hsquashed
    rw [if_pos hsquashed']
    exact ⟨h.decoded, h.retires, h.record, h.signalled, h.ready, h.branchSquashed, h.readSquashed⟩
  · have hsquashed' : ¬(x.read.setReady 0 false).theSquashed = true := hsquashed
    rw [if_neg hsquashed']
    have hread : ∀ r : SemanticAction, ({ x with read := r } : RobInsn).squashBranch =
        { x.squashBranch with read := r } := by
      intro r
      rw [RobInsn.squashBranch, RobInsn.squashBranch]
      dsimp only
      split <;> rfl
    rw [hread]
    refine ⟨?_, fun hsome hr => ?_, fun b _ hs => ?_, fun b _ _ hs => ?_, fun b _ _ hr => ?_,
      fun _ => hsignalled, fun _ => rfl⟩
    · obtain ⟨i, hi⟩ := h.decoded
      exact ⟨i, hbranch.trans hi⟩
    · have hsome' : x.squashBranch.theBranch.isSome = true := hsome
      rw [hbranch] at hsome'
      have hr' : x.squashBranch.mayRetire = true := hr
      rw [hretire hsome'] at hr'
      cases hr'
    · have hs' : x.squashBranch.branch.theSignalled = true := hs
      rw [hsignalled] at hs'
      cases hs'
    · have hs' : x.squashBranch.branch.theSignalled = true := hs
      rw [hsignalled] at hs'
      cases hs'
    · have hr' : x.squashBranch.branch.theReady 0 = true := hr
      rw [hready] at hr'
      cases hr'

/-- **The record is made** for the operand as it is. -/
theorem evaluate (h : x.Sound) (hb : x.theBranch = some b) (hasPredecessorExecuted : Bool) :
    (x.evaluate b hasPredecessorExecuted).Sound := by
  have hsame : ∀ b' ∈ x.theBranch, b' = b := fun b' hb' => by
    rw [hb] at hb'
    exact (Option.some.inj hb').symm
  rw [RobInsn.evaluate]
  dsimp only
  by_cases hready : x.branch.take.ready = true
  · have hready0 : x.branch.theReady 0 = true := SemanticAction.ready_iff.mp hready 0
    rw [if_pos hready]
    cases hasPredecessorExecuted with
    | true =>
      rw [if_pos rfl]
      by_cases hsignalled : x.branch.theSignalled = true
      · have hsignalled' : x.branch.take.theSignalled = true := hsignalled
        rw [if_pos hsignalled']
        refine ⟨h.decoded, h.retires, fun b' hb' _ => ?_, h.signalled, h.ready, h.branchSquashed,
          h.readSquashed⟩
        rw [hsame b' hb']
        rfl
      · have hsignalled' : ¬x.branch.take.theSignalled = true := hsignalled
        rw [if_neg hsignalled']
        refine ⟨h.decoded, fun _ _ => rfl, fun b' hb' _ => ?_,
          fun b' hb' hreads _ => h.ready b' hb' hreads hready0, h.ready, fun hs => ?_,
          h.readSquashed⟩
        · rw [hsame b' hb']
          rfl
        · cases hs
    | false =>
      rw [if_neg Bool.false_ne_true]
      have htheReady : x.branch.take.reschedule.theReady = x.branch.theReady := by
        rw [SemanticAction.reschedule_theReady]
        rfl
      have htheSignalled : x.branch.take.reschedule.theSignalled = x.branch.theSignalled := by
        rw [SemanticAction.reschedule_theSignalled]
        rfl
      have htheSquashed : x.branch.take.reschedule.theSquashed = x.branch.theSquashed := by
        rw [SemanticAction.reschedule_theSquashed]
        rfl
      refine ⟨h.decoded, fun hsome hretire => ?_, fun b' hb' hs => ?_, fun b' hb' hreads hs => ?_,
        fun b' hb' hreads hr => ?_, fun hs => ?_, h.readSquashed⟩
      · exact htheSignalled.trans (h.retires hsome hretire)
      · exact h.record b' hb' (htheSignalled.symm.trans hs)
      · exact h.signalled b' hb' hreads (htheSignalled.symm.trans hs)
      · exact h.ready b' hb' hreads ((congrFun htheReady 0).symm.trans hr)
      · exact htheSignalled.trans (h.branchSquashed (htheSquashed.symm.trans hs))
  · rw [if_neg hready]
    exact ⟨h.decoded, h.retires, h.record, h.signalled, h.ready, h.branchSquashed, h.readSquashed⟩

/-- **Whatever happens to an instruction** keeps it so. -/
theorem step (h : x.Sound) (e : InsnStep) : (x.step e).Sound := by
  rw [RobInsn.step]
  cases hb : x.theBranch with
  | none => exact h
  | some b =>
    dsimp only
    cases e with
    | satisfyRead =>
      rw [stepBranch]
      split
      · refine ⟨h.decoded, h.retires, h.record, fun b' hb' hreads hs => ?_,
          fun b' hb' hreads hr => ?_, h.branchSquashed, fun hs => ?_⟩
        · rw [SemanticAction.satisfy_theSignalled]
          exact h.signalled b' hb' hreads hs
        · rw [SemanticAction.satisfy_theSignalled]
          exact h.ready b' hb' hreads hr
        · rw [SemanticAction.satisfy_theSquashed] at hs
          cases hs
      · exact h
    | bypass aValue =>
      rw [stepBranch]
      split
      · rename_i hcond
        rw [Bool.and_eq_true, Bool.not_eq_true'] at hcond
        exact h.readOperand hb hcond.1 hcond.2 aValue
      · exact h
    | evaluateRead aValue =>
      cases aValue with
      | some aValue =>
        rw [stepBranch]
        split
        · rename_i hcond
          rw [Bool.and_eq_true, Bool.not_eq_true'] at hcond
          exact h.readOperand hb hcond.1 hcond.2 aValue
        · exact h
      | none =>
        rw [stepBranch]
        split
        · exact ⟨h.decoded, h.retires, h.record, h.signalled, h.ready, h.branchSquashed,
            h.readSquashed⟩
        · exact h
    | squashRead =>
      rw [stepBranch]
      split
      · exact h.squashRead
      · exact h
    | evaluate hasPredecessorExecuted => exact h.evaluate hb hasPredecessorExecuted

end Sound

end RobInsn

/-! ### What holds of the core -/

namespace FeedbackCore

variable {s : FeedbackCore}

/-- **What holds of a core**: it holds of each of its instructions. -/
def Sound (s : FeedbackCore) : Prop := ∀ x ∈ s.theROB, x.Sound

theorem Sound.step (h : s.Sound) (e : FeedbackEvent) : (s.step e).Sound := by
  cases e with
  | dispatch f theBPState others =>
    intro x hx
    rcases List.mem_append.mp hx with hx | hx
    · exact h x hx
    · rw [List.mem_singleton.mp hx]
      exact RobInsn.Sound.dispatched f theBPState
  | insn n e =>
    intro x hx
    have hx' : x ∈ s.theROB.modify n fun x => x.step e := hx
    rw [List.mem_iff_getElem?] at hx'
    obtain ⟨k, hk⟩ := hx'
    rw [List.getElem?_modify, Option.map_eq_map, Option.map_eq_some_iff] at hk
    obtain ⟨y, hy, rfl⟩ := hk
    have hsound := h y (List.mem_of_getElem? hy)
    split
    · exact hsound.step e
    · exact hsound
  | retire others =>
    intro x hx
    have hsub : (s.retire others).theROB.Sublist s.theROB := by
      rw [FeedbackCore.retire]
      split
      · exact List.Sublist.refl _
      · rename_i y rest hrob
        rw [hrob]
        split
        · split
          · exact List.sublist_cons_self y rest
          · exact List.sublist_cons_self y rest
        · exact hrob ▸ List.Sublist.refl _
    exact h x (hsub.subset hx)
  | squash n => exact fun x hx => h x (List.mem_of_mem_take hx)
  | send => exact h

/-- Other instructions tell nothing about conditional branches. -/
theorem filter_others (others : List OtherFeedback) :
    (others.map Subtype.val).filter (fun f => f.theActualType = .kConditional) = [] := by
  rw [List.filter_eq_nil_iff]
  intro f hf
  obtain ⟨g, -, rfl⟩ := List.mem_map.mp hf
  rw [decide_eq_true_eq]
  exact g.2

/-- **Something more is handed to the core**, and something more has retired. -/
theorem Reported.append_iff (h : s.Reported) {t : FeedbackCore} {fs rs : List BranchFeedback}
    (hsent : t.sent = s.sent) (hfeedback : t.theBranchFeedback = s.theBranchFeedback ++ fs)
    (hretired : t.retired = s.retired ++ rs) :
    t.Reported ↔ fs.filter (fun f => f.theActualType = .kConditional) = rs := by
  have h' : (s.sent ++ s.theBranchFeedback).filter
      (fun f => f.theActualType = .kConditional) = s.retired := h
  rw [Reported, hsent, hfeedback, hretired, ← List.append_assoc, List.filter_append, h']
  exact List.append_right_inj s.retired

/-- **The step that matters is a retirement**: the predictor is told about what retires if and only
if it is not a branch on the contents of a register. -/
theorem Reported.step_iff (h : s.Reported) (hs : s.Sound) (e : FeedbackEvent) :
    (s.step e).Reported ↔ s.RetiresNoBpr e := by
  cases e with
  | dispatch f theBPState others =>
    have hiff := h.append_iff (t := s.step (.dispatch f theBPState others)) rfl rfl
      (List.append_nil s.retired).symm
    refine hiff.trans ⟨fun _ => trivial, fun _ => ?_⟩
    split
    · rfl
    · exact filter_others others
  | insn n e => exact ⟨fun _ => trivial, fun _ => h⟩
  | squash n => exact ⟨fun _ => trivial, fun _ => h⟩
  | send =>
    refine ⟨fun _ => trivial, fun _ => ?_⟩
    show ((s.sent ++ s.theBranchFeedback) ++ []).filter _ = s.retired
    rw [List.append_nil]
    exact h
  | retire others =>
    show (s.retire others).Reported ↔ ∀ x ∈ s.theROB.head?, x.mayRetire = true →
      ∀ b ∈ x.theBranch, b.isBpr = false
    rw [retire]
    cases hrob : s.theROB with
    | nil => exact ⟨fun _ x hx => absurd hx (by simp), fun _ => h⟩
    | cons x rest =>
      have hx : x.Sound := hs x (by rw [hrob]; exact List.mem_cons_self)
      have hhead : (∀ y ∈ (x :: rest).head?, y.mayRetire = true →
          ∀ b ∈ y.theBranch, b.isBpr = false) ↔
          (x.mayRetire = true → ∀ b ∈ x.theBranch, b.isBpr = false) := by
        simp
      rw [hhead]
      dsimp only
      by_cases hretire : x.mayRetire = true
      · rw [if_pos hretire]
        cases hb : x.theBranch with
        | none =>
          have hiff := h.append_iff (t := { s with
            theROB := rest
            theBranchFeedback := s.theBranchFeedback ++ others.map Subtype.val }) rfl rfl
            (List.append_nil s.retired).symm
          refine hiff.trans ⟨fun _ _ b hb => ?_, fun _ => filter_others others⟩
          cases hb
        | some b =>
          -- the record is there, and the effect hands it over if it was added
          have hrecord := hx.record b hb (hx.retires (by rw [hb]; rfl) hretire)
          obtain ⟨i, hi⟩ := hx.decoded
          have hupdates := Instruction.updatesPredictor_eq (hi.symm.trans hb)
          have hiff := h.append_iff (t := { s with
            theROB := rest
            theBranchFeedback := s.theBranchFeedback ++
              if b.updatesPredictor then x.theBranchFeedback.toList else []
            retired := s.retired ++ [x.feedback b] }) rfl rfl rfl
          refine hiff.trans ?_
          rw [hrecord, hupdates]
          cases hbpr : b.isBpr with
          | false =>
            refine ⟨fun _ _ b' hb' => ?_, fun _ => ?_⟩
            · rw [← Option.some.inj hb']
              exact hbpr
            · rfl
          | true =>
            refine ⟨fun hnil => ?_, fun hno => ?_⟩
            · cases hnil
            · have := hno hretire b rfl
              rw [hbpr] at this
              cases this
      · rw [if_neg hretire]
        exact ⟨fun _ hr => absurd hr hretire, fun _ => h⟩

end FeedbackCore

/-- `BRZ`, on register 0. -/
def brz : FetchedOpcode := ⟨0, 0x02C00004⟩

/-- It is dispatched and evaluated, and retires. -/
def brzRetires : List FeedbackEvent :=
  [.dispatch brz none [], .insn 0 (.evaluate true), .retire [], .send]

/-- **The predictor is not told about it.** -/
theorem brzRetires_not_reported : ¬∀ es, feedbackMachine.AlwaysFrom FeedbackCore.Reported
    feedbackMachine.init es := by
  intro h
  have hrun := h brzRetires
  obtain ⟨-, h1⟩ := hrun
  obtain ⟨-, h2⟩ := h1 _ rfl
  obtain ⟨-, h3⟩ := h2 _ rfl
  obtain ⟨hr, -⟩ := h3 _ rfl
  revert hr
  rw [FeedbackCore.Reported]
  decide

/-- **When the predictor is told about every conditional branch that retires**: in every run, with
any squashes and replays, what it is told is what has retired, in every state the run leads through,
if and only if no branch on the contents of a register retires. -/
theorem reported_iff (es : List FeedbackEvent) :
    feedbackMachine.AlwaysFrom FeedbackCore.Reported feedbackMachine.init es ↔
      feedbackMachine.AllowedFrom FeedbackCore.RetiresNoBpr feedbackMachine.init es := by
  refine Lib.Machine.alwaysFrom_iff (I := FeedbackCore.Sound) (fun s e t hs ht => ?_)
    (fun s e t hs hP ht => ?_) (fun s e f _ hf => ?_) (fun x hx => absurd hx List.not_mem_nil) rfl
  · cases ht
    exact hs.step e
  · cases ht
    exact hP.step_iff hs e
  · cases hf

end Decoder

end Flexus
