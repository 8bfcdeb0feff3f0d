import Flexus.Decoder.Branches
import Flexus.Lib.Machine

/-!
# Where the control goes

The core finds out where the control goes from three things: the next address of an instruction, as
it was fetched; the *interactions* that an instruction applies to the one after it, which send it
elsewhere, annul it or reinstate it; and the effects by which some control transfers redirect
themselves (`components/v9Decoder/Effects.cpp`, `SemanticActions/BranchAction.cpp`,
`components/uArch/CoreModel/dispatch.cpp` and `cycle.cpp`). An interaction waits where the
instruction it is for has not been dispatched. A next address that changes is a misprediction: what
comes after is squashed at the end of the cycle, and fetch is redirected.

Annulment does not stop any of them: an annulled instruction applies its interactions and redirects
itself as one that is not annulled does. RETURN, SAVE, RESTORE and block transfers force a
resynchronisation with Simics when they are annulled. The other control transfers do not.

The outcomes of branches and the addresses that are predicted, computed or read from registers are
left open, and so is when an instruction is evaluated, retires or raises an exception. What is
fetched is dispatched at once, and nothing is quiesced.
-/

namespace Flexus

namespace Decoder

/-! ### Control transfers -/

/-- **What an instruction is to the control.** -/
inductive Transfer
  | annul_next
  | branch_always (annul : Bool) (target : BitVec 64)
  /-- A `BranchCCAction`, or a `BranchRegAction`. -/
  | conditional (annul isReg : Bool) (target : BitVec 64)
  | call (target : BitVec 64)
  /-- A `BranchToCalcAddressAction`, of `jmpl` or `return_`. -/
  | toCalcAddress
  /-- DONE or RETRY. -/
  | retry (isRetry : Bool)
  /-- The instruction is no control transfer. -/
  | other
  deriving DecidableEq

/-- `op3`, of the instructions of the third format. -/
def op3Of (opcode : BitVec 32) : BitVec 32 := (opcode >>> 19) &&& 0x3F

/-- What `decode` makes of an instruction. -/
def Transfer.of (aFetchedOpcode : FetchedOpcode) : Transfer :=
  let opcode := aFetchedOpcode.theOpcode
  match decode aFetchedOpcode with
  | .annul_next => .annul_next
  | .branch_always annul target => .branch_always annul target
  | .branch_cc annul _ _ target | .branch_fcc annul _ _ target => .conditional annul false target
  | .branch_reg annul _ _ target => .conditional annul true target
  | .call target => .call target
  | .format_3 =>
    if opOf opcode = 2 then
      if op3Of opcode = 0x38 ∨ op3Of opcode = 0x39 then .toCalcAddress
      else if op3Of opcode = 0x3E then .retry (opcode &&& 0x2000000 != 0)
      else .other
    else .other
  | _ => .other

/-- Its class is `clsBranch`. -/
def Transfer.isBranch : Transfer → Bool
  | annul_next | other => false
  | _ => true

/-- It is one of those that may annul the instruction after it. -/
def Transfer.annuls : Transfer → Bool
  | annul_next => true
  | conditional annul _ _ => annul
  | _ => false

theorem Transfer.annuls_iff {t : Transfer} : t.annuls = true ↔
    t = .annul_next ∨ ∃ isReg target, t = .conditional true isReg target := by
  cases t <;> simp [annuls]

/-- **A block transfer**, which is decoded into eight micro-ops. -/
def isBlock (opcode : BitVec 32) : Bool :=
  opOf opcode = 3 ∧ (op3Of opcode = 0x33 ∨ op3Of opcode = 0x37) ∧ opcode.getLsbD 13 = false ∧
    (opcode >>> 5) &&& 0xFF ∈
      [0x70, 0x71, 0x78, 0x79, 0xF0, 0xF1, 0xF8, 0xF9, 0xE0, 0xE1#32]

/-- The annulment effect of the instruction is `forceResync`. -/
def resyncsWhenAnnulled (opcode : BitVec 32) : Bool :=
  isBlock opcode ||
    opOf opcode = 2 ∧ (op3Of opcode = 0x39 ∨ op3Of opcode = 0x3C ∨ op3Of opcode = 0x3D)

/-! ### Instructions -/

/-- **An instruction of the core**, or one of its micro-ops. -/
structure FlowInsn where
  thePC : BitVec 64
  theNPC : BitVec 64
  theTransfer : Transfer
  /-- It has a `BPState`: it was predicted as a branch. -/
  predicted : Bool
  resyncsWhenAnnulled : Bool
  isMicroOp : Bool
  lastUop : Bool
  theAnnulled : Bool
  theResync : Bool
  theRaised : Bool
  /-- The address that is fetched after it. The source keeps no record of it. -/
  theSuccessor : BitVec 64
  deriving DecidableEq

/-- What an instruction does to the one after it. -/
inductive Interaction
  | branch (theTarget : BitVec 64)
  | annul
  | reinstate
  deriving DecidableEq

namespace FlowInsn

/-- An instruction as it is decoded. -/
def create (aFetchedOpcode : FetchedOpcode) (theNextPC : BitVec 64) (predicted theResync : Bool)
    (isMicroOp lastUop : Bool) : FlowInsn where
  thePC := aFetchedOpcode.thePC
  theNPC :=
    if Transfer.of aFetchedOpcode = .annul_next then aFetchedOpcode.thePC + 8 else theNextPC
  theTransfer := Transfer.of aFetchedOpcode
  predicted := predicted
  resyncsWhenAnnulled := Decoder.resyncsWhenAnnulled aFetchedOpcode.theOpcode
  isMicroOp := isMicroOp
  lastUop := lastUop
  theAnnulled := false
  theResync := theResync
  theRaised := false
  theSuccessor := if lastUop then theNextPC else aFetchedOpcode.thePC

variable (x : FlowInsn)

/-- `redirectNPC`. Where it changes the next address, fetch goes there. -/
def redirectNPC (anNPC : BitVec 64) : FlowInsn :=
  if anNPC = x.theNPC then x else { x with theNPC := anNPC, theSuccessor := anNPC }

/-- **An interaction is applied to an instruction.** The target 0 stands for the address after that
of the instruction. -/
def interact : Interaction → FlowInsn
  | .branch theTarget => x.redirectNPC (if theTarget = 0 then x.thePC + 4 else theTarget)
  | .annul =>
    { x with
      theAnnulled := true
      theResync := x.theResync || !x.theAnnulled && x.resyncsWhenAnnulled }
  | .reinstate => { x with theAnnulled := false }

/-- `BranchEffect`, of BA,A: it redirects itself as it is dispatched. -/
def redirected : FlowInsn :=
  match x.theTransfer with
  | .branch_always true target => x.redirectNPC target
  | _ => x

/-- The interactions of `doDispatchEffects`: of an instruction that was predicted as a branch and is
none, of `AnnulNextEffect` and of `BranchAfterNext`. -/
def dispatchInteractions : List Interaction :=
  (if x.predicted && !x.theTransfer.isBranch then [.branch 0] else []) ++
    match x.theTransfer with
    | .annul_next => [.annul]
    | .branch_always false target | .call target => [.branch target]
    | _ => []

/-- **The interactions of `doEvaluate`**, by the result of the condition or the address that was
calculated. -/
def interactions (result : Bool) (anAddress : BitVec 64) : List Interaction :=
  match x.theTransfer with
  | .conditional annul isReg target =>
    if result then .branch target :: if annul then [.reinstate] else []
    else if isReg then .branch 0 :: if annul then [.annul] else []
    else (if annul then [.annul] else []) ++ [.branch (x.thePC + 8)]
  | .toCalcAddress => [.branch anAddress]
  | _ => []

/-- A conditional branch with the annul bit sets its own next address as it is evaluated, and
squashes nothing. -/
def evaluated (result : Bool) : FlowInsn :=
  match x.theTransfer with
  | .conditional true _ _ => { x with theNPC := x.thePC + if result then 4 else 8 }
  | _ => x

end FlowInsn

/-! ### The core -/

/-- **A squash that was requested**: how many instructions are kept, and where fetch is
redirected. -/
structure Squash where
  theKept : ℕ
  theRedirectPC : BitVec 64
  deriving DecidableEq

/-- A squash is requested. A request for an older instruction goes before. -/
def Squash.request (q : Option Squash) (n : ℕ) (anAddress : BitVec 64) : Option Squash :=
  if q.all fun q => n + 1 ≤ q.theKept then some ⟨n + 1, anAddress⟩ else q

/-- **A core**, with what decides where the control goes. -/
structure FlowCore where
  /-- The address that is fetched next. -/
  thePC : BitVec 64
  theNextPC : BitVec 64
  /-- The instructions since execution was started, in the order of the program. Those that have
  retired come first, and the others are in the reorder buffer. -/
  theInsns : List FlowInsn
  theRetired : ℕ
  theDispatchInteractions : List Interaction
  thePreserveInteractions : Bool
  theSquash : Option Squash
  deriving DecidableEq

/-- What happens in a core. -/
inductive FlowEvent
  /-- An instruction is fetched and dispatched. The predictor may take it for a branch. -/
  | dispatch (theOpcode : BitVec 32) (thePrediction : Option (BitVec 64)) (theResync : Bool)
  /-- The action of a branch is evaluated. -/
  | evaluate (n : ℕ) (result : Bool) (anAddress : BitVec 64)
  /-- The oldest instruction retires. -/
  | retire (aTPC aTNPC : BitVec 64)
  /-- The oldest instruction raises an exception, or is interrupted. -/
  | trap (aVector : BitVec 64)
  | endCycle
  /-- Speculation fails, and execution goes back to the checkpoint of an instruction. -/
  | rollback (n : ℕ)
  /-- Execution is started again from Simics. -/
  | resync (aPC aNPC : BitVec 64)
  deriving DecidableEq

namespace FlowCore

/-- Execution is started. -/
def start (aPC aNPC : BitVec 64) : FlowCore := ⟨aPC, aNPC, [], 0, [], false, none⟩

variable (s : FlowCore)

/-- `squashAfter` and `redirectFetch`. -/
def squashAfter (n : ℕ) (anAddress : BitVec 64) : FlowCore :=
  { s with theSquash := Squash.request s.theSquash n anAddress }

/-- An instruction changes. If its next address does, what comes after is squashed. -/
def replace (n : ℕ) (x y : FlowInsn) : FlowCore :=
  let s := { s with theInsns := s.theInsns.set n y }
  if y.theNPC = x.theNPC then s else s.squashAfter n y.theNPC

/-- An interaction is applied. -/
def apply (n : ℕ) (anInteraction : Interaction) : FlowCore :=
  match s.theInsns[n]? with
  | some x => s.replace n x (x.interact anInteraction)
  | none => s

def applyAll (n : ℕ) (l : List Interaction) : FlowCore := l.foldl (fun s a => s.apply n a) s

/-- **`applyToNext`**. Where the next instruction has not been dispatched, the interactions wait. -/
def applyToNext (n : ℕ) (l : List Interaction) : FlowCore :=
  if n + 1 < s.theInsns.length then s.applyAll (n + 1) l
  else { s with theDispatchInteractions := s.theDispatchInteractions ++ l }

/-- The next address is generated, with the prediction for the instruction that is fetched. -/
def fetched (thePrediction : Option (BitVec 64)) : FlowCore :=
  { s with
    thePC := s.theNextPC
    theNextPC :=
      match thePrediction with
      | some t => if t = 0 then s.theNextPC + 4 else t
      | none => s.theNextPC + 4 }

/-- The next address is generated once for all micro-ops of an instruction. -/
def fetchedFor (thePrediction : Option (BitVec 64)) (x : FlowInsn) : FlowCore :=
  if x.lastUop then s.fetched thePrediction else s

/-- **`dispatch`**. What an instruction does as it is dispatched comes first, and then what has
waited for it. -/
def dispatchUop (thePrediction : Option (BitVec 64)) (x : FlowInsn) : FlowCore :=
  let n := s.theInsns.length
  let dispatch_interactions := s.theDispatchInteractions
  let s := s.fetchedFor thePrediction x
  let s := { s with theInsns := s.theInsns ++ [x], theDispatchInteractions := [] }
  let s := s.applyToNext n x.dispatchInteractions
  let s := s.replace n x x.redirected
  s.applyAll n dispatch_interactions

/-- The micro-ops of an instruction: whether each is one after the first, and whether it is the
last. -/
def uops (opcode : BitVec 32) : List (Bool × Bool) :=
  if isBlock opcode then (false, false) :: List.replicate 6 (true, false) ++ [(true, true)]
  else [(false, true)]

def dispatch (theOpcode : BitVec 32) (thePrediction : Option (BitVec 64)) (theResync : Bool) :
    FlowCore :=
  let create := FlowInsn.create ⟨s.thePC, theOpcode⟩ s.theNextPC thePrediction.isSome theResync
  (uops theOpcode).foldl (fun s u => s.dispatchUop thePrediction (create u.1 u.2)) s

/-- The action of a branch is evaluated, of an instruction of the reorder buffer. -/
def evaluate (n : ℕ) (result : Bool) (anAddress : BitVec 64) : FlowCore :=
  match s.theInsns[n]? with
  | some x =>
    if s.theRetired ≤ n then
      let s := s.applyToNext n (x.interactions result anAddress)
      { s with theInsns := s.theInsns.set n (x.evaluated result) }
    else s
  | none => s

/-- `ReturnFromTrapEffect`, of DONE and RETRY. -/
def returnFromTrap (x : FlowInsn) (isRetry : Bool) (aTPC aTNPC : BitVec 64) : FlowCore :=
  let s :=
    if isRetry ∧ aTNPC ≠ aTPC + 4 then
      { s with
        thePreserveInteractions := true
        theDispatchInteractions := s.theDispatchInteractions ++ [.branch aTNPC] }
    else s
  s.replace s.theRetired x (x.redirectNPC (if isRetry then aTPC else aTNPC))

/-- The oldest instruction, unless it is going to be squashed. -/
def head? : Option FlowInsn :=
  match s.theSquash with
  | some q => if s.theRetired < q.theKept then s.theInsns[s.theRetired]? else none
  | none => s.theInsns[s.theRetired]?

/-- **`retire`**, of the oldest instruction. Its retirement effects are the same if it is
annulled. -/
def retire (aTPC aTNPC : BitVec 64) : FlowCore :=
  match s.head? with
  | some x =>
    let s :=
      match x.theTransfer with
      | .retry isRetry => s.returnFromTrap x isRetry aTPC aTNPC
      | _ => s
    { s with theRetired := s.theRetired + 1 }
  | none => s

/-- `takeTrap`, and `handleTrap` at the end of the cycle. -/
def trap (aVector : BitVec 64) : FlowCore :=
  match s.head? with
  | some x =>
    { thePC := aVector
      theNextPC := aVector + 4
      theInsns :=
        s.theInsns.take s.theRetired ++ [{ x with theRaised := true, theSuccessor := aVector }]
      theRetired := s.theRetired + 1
      theDispatchInteractions :=
        if s.thePreserveInteractions then s.theDispatchInteractions else []
      thePreserveInteractions := s.thePreserveInteractions
      theSquash := none }
  | none => s

/-- **The end of a cycle**: `doSquash`, and fetch is redirected. -/
def endCycle : FlowCore :=
  match s.theSquash with
  | some q =>
    { thePC := q.theRedirectPC
      theNextPC := q.theRedirectPC + 4
      theInsns := s.theInsns.take q.theKept
      theRetired := s.theRetired
      theDispatchInteractions :=
        if s.theRetired < s.theInsns.length ∧ s.thePreserveInteractions = false then []
        else s.theDispatchInteractions
      thePreserveInteractions := false
      theSquash := none }
  | none => { s with thePreserveInteractions := false }

/-- `doAbortSpeculation`. Execution goes on from the instruction of the checkpoint, or after it if
that is annulled or a micro-op. -/
def rollback (n : ℕ) : FlowCore :=
  match s.theInsns[n]? with
  | some x =>
    if n < s.theRetired ∧ x.theTransfer = .other ∧ x.theRaised = false then
      if x.theAnnulled || x.isMicroOp then
        { start x.theNPC (x.theNPC + 4) with
          theInsns := s.theInsns.take n ++ [{ x with theSuccessor := x.theNPC }]
          theRetired := n + 1 }
      else
        { start x.thePC x.theNPC with
          theInsns := s.theInsns.take n
          theRetired := n }
    else s
  | none => s

def step : FlowEvent → FlowCore
  | .dispatch theOpcode thePrediction theResync => s.dispatch theOpcode thePrediction theResync
  | .evaluate n result anAddress => s.evaluate n result anAddress
  | .retire aTPC aTNPC => s.retire aTPC aTNPC
  | .trap aVector => s.trap aVector
  | .endCycle => s.endCycle
  | .rollback n => s.rollback n
  | .resync aPC aNPC => start aPC aNPC

end FlowCore

/-- A core that starts at an address. No event fails. -/
def flowMachine (aPC aNPC : BitVec 64) : Lib.Machine FlowCore FlowEvent Empty where
  init := .start aPC aNPC
  step s e := .ok (s.step e)

/-! ### What interactions change -/

namespace FlowInsn

/-- **What never changes of an instruction** that is in the reorder buffer. -/
structure Same (x y : FlowInsn) : Prop where
  pc : y.thePC = x.thePC
  transfer : y.theTransfer = x.theTransfer
  predicted : y.predicted = x.predicted
  isMicroOp : y.isMicroOp = x.isMicroOp
  lastUop : y.lastUop = x.lastUop
  raised : y.theRaised = x.theRaised

variable {x y z : FlowInsn}

theorem Same.refl (x : FlowInsn) : Same x x := ⟨rfl, rfl, rfl, rfl, rfl, rfl⟩

theorem Same.trans (h : Same x y) (h' : Same y z) : Same x z :=
  ⟨h'.pc.trans h.pc, h'.transfer.trans h.transfer, h'.predicted.trans h.predicted,
    h'.isMicroOp.trans h.isMicroOp, h'.lastUop.trans h.lastUop, h'.raised.trans h.raised⟩

theorem redirectNPC_same (t : BitVec 64) : Same x (x.redirectNPC t) := by
  rw [redirectNPC]
  split
  · exact Same.refl x
  · exact ⟨rfl, rfl, rfl, rfl, rfl, rfl⟩

theorem redirectNPC_theNPC (t : BitVec 64) : (x.redirectNPC t).theNPC = t := by
  rw [redirectNPC]
  split
  · rename_i h
    exact h.symm
  · rfl

/-- **Fetch goes to the next address** where that changes, and else stays. -/
theorem redirectNPC_theSuccessor (t : BitVec 64) :
    ((x.redirectNPC t).theNPC = x.theNPC ∧ (x.redirectNPC t).theSuccessor = x.theSuccessor) ∨
      ((x.redirectNPC t).theNPC ≠ x.theNPC ∧
        (x.redirectNPC t).theSuccessor = (x.redirectNPC t).theNPC) := by
  rw [redirectNPC]
  split
  · exact Or.inl ⟨rfl, rfl⟩
  · rename_i h
    exact Or.inr ⟨h, rfl⟩

theorem redirected_theSuccessor (x : FlowInsn) :
    (x.redirected.theNPC = x.theNPC ∧ x.redirected.theSuccessor = x.theSuccessor) ∨
      (x.redirected.theNPC ≠ x.theNPC ∧ x.redirected.theSuccessor = x.redirected.theNPC) := by
  rw [redirected]
  split
  · exact redirectNPC_theSuccessor _
  · exact Or.inl ⟨rfl, rfl⟩

theorem redirected_same (x : FlowInsn) : Same x x.redirected := by
  rw [redirected]
  split
  · exact redirectNPC_same _
  · exact Same.refl x

theorem interact_same (a : Interaction) : Same x (x.interact a) := by
  cases a with
  | branch theTarget => exact redirectNPC_same _
  | annul => exact ⟨rfl, rfl, rfl, rfl, rfl, rfl⟩
  | reinstate => exact ⟨rfl, rfl, rfl, rfl, rfl, rfl⟩

theorem interact_theSuccessor (a : Interaction) :
    ((x.interact a).theNPC = x.theNPC ∧ (x.interact a).theSuccessor = x.theSuccessor) ∨
      ((x.interact a).theNPC ≠ x.theNPC ∧ (x.interact a).theSuccessor = (x.interact a).theNPC) := by
  cases a with
  | branch theTarget => exact redirectNPC_theSuccessor _
  | annul => exact Or.inl ⟨rfl, rfl⟩
  | reinstate => exact Or.inl ⟨rfl, rfl⟩

/-- Interactions are applied in their order. -/
def interactAll (x : FlowInsn) (l : List Interaction) : FlowInsn := l.foldl interact x

theorem interactAll_same (l : List Interaction) : Same x (x.interactAll l) := by
  induction l generalizing x with
  | nil => exact Same.refl x
  | cons a l ih => exact (interact_same a).trans ih

theorem evaluated_same (result : Bool) : Same x (x.evaluated result) := by
  rw [evaluated]
  split <;> exact ⟨rfl, rfl, rfl, rfl, rfl, rfl⟩

theorem evaluated_theSuccessor (result : Bool) :
    (x.evaluated result).theSuccessor = x.theSuccessor := by
  rw [evaluated]
  split <;> rfl

end FlowInsn

/-! ### What the operations do to the core -/

namespace Squash

variable {q q' q'' : Option Squash} {n : ℕ} {x y z : FlowInsn}

theorem request_request (t t' : BitVec 64) :
    request (request q n t) n t' = request q n t' := by
  by_cases h : (q.all fun q => n + 1 ≤ q.theKept) = true
  · rw [request, request, if_pos h, request, if_pos h]
    exact if_pos (by simp)
  · rw [request, request, if_neg h, request, if_neg h]

/-- **The squash that a change of an instruction leads to**: none where fetch goes on as before, and
else one after the instruction. -/
def Moved (q : Option Squash) (n : ℕ) (x y : FlowInsn) (q' : Option Squash) : Prop :=
  (y.theSuccessor = x.theSuccessor ∧ q' = q) ∨ q' = request q n y.theSuccessor

theorem Moved.trans (h : Moved q n x y q') (h' : Moved q' n y z q'') : Moved q n x z q'' := by
  rcases h' with ⟨hz, rfl⟩ | rfl
  · rcases h with ⟨hy, rfl⟩ | rfl
    · exact Or.inl ⟨hz.trans hy, rfl⟩
    · exact Or.inr (by rw [hz])
  · rcases h with ⟨-, rfl⟩ | rfl
    · exact Or.inr rfl
    · exact Or.inr (request_request _ _)

end Squash

namespace FlowCore

variable {s : FlowCore} {n : ℕ} {x y : FlowInsn}

theorem replace_eq (h : (y.theNPC = x.theNPC ∧ y.theSuccessor = x.theSuccessor) ∨
      (y.theNPC ≠ x.theNPC ∧ y.theSuccessor = y.theNPC)) :
    ∃ q, Squash.Moved s.theSquash n x y q ∧
      s.replace n x y = { s with theInsns := s.theInsns.set n y, theSquash := q } := by
  rcases h with ⟨hnpc, hsucc⟩ | ⟨hnpc, hsucc⟩
  · exact ⟨s.theSquash, Or.inl ⟨hsucc, rfl⟩, if_pos hnpc⟩
  · refine ⟨_, Or.inr rfl, ?_⟩
    rw [hsucc]
    exact if_neg hnpc

theorem returnFromTrap_theRetired {isRetry : Bool} {aTPC aTNPC : BitVec 64} :
    (s.returnFromTrap x isRetry aTPC aTNPC).theRetired = s.theRetired := by
  have hreplace : ∀ (s : FlowCore) n y, (s.replace n x y).theRetired = s.theRetired := by
    intro s n y
    rw [replace]
    split <;> rfl
  rw [returnFromTrap, hreplace]
  split <;> rfl

/-- **Interactions are applied**: the instruction changes, and a squash may be requested. -/
theorem applyAll_eq (l : List Interaction) (hx : s.theInsns[n]? = some x) :
    ∃ q, Squash.Moved s.theSquash n x (x.interactAll l) q ∧
      s.applyAll n l =
        { s with theInsns := s.theInsns.set n (x.interactAll l), theSquash := q } := by
  have hn : n < s.theInsns.length := (List.getElem?_eq_some_iff.mp hx).1
  induction l generalizing s x with
  | nil =>
    refine ⟨s.theSquash, Or.inl ⟨rfl, rfl⟩, ?_⟩
    have hset : s.theInsns.set n x = s.theInsns := by
      obtain ⟨h, hget⟩ := List.getElem?_eq_some_iff.mp hx
      rw [← hget]
      exact List.set_getElem_self h
    show s = { s with theInsns := s.theInsns.set n x }
    rw [hset]
  | cons a l ih =>
    obtain ⟨q, hq, heq⟩ := replace_eq (s := s) (n := n) (x.interact_theSuccessor a)
    have happly : s.apply n a =
        { s with theInsns := s.theInsns.set n (x.interact a), theSquash := q } := by
      rw [apply, hx]
      exact heq
    obtain ⟨q', hq', heq'⟩ := ih (s := s.apply n a) (x := x.interact a)
      (by rw [happly]; exact List.getElem?_set_self hn) (by rw [happly]; simpa using hn)
    refine ⟨q', hq.trans ?_, heq'.trans ?_⟩
    · rw [happly] at hq'
      exact hq'
    · rw [happly]
      simp only [List.set_set]
      rfl

/-- The last instruction of a core has nothing to apply its interactions to. -/
theorem applyToNext_last (l : List Interaction) (h : s.theInsns.length ≤ n + 1) :
    s.applyToNext n l =
      { s with theDispatchInteractions := s.theDispatchInteractions ++ l } :=
  if_neg (Nat.not_lt.mpr h)

/-- **An instruction is dispatched**: it may redirect itself, and then what has waited for it is
applied to it. What it does to the one after it waits. -/
theorem dispatchUop_eq (thePrediction : Option (BitVec 64)) (x : FlowInsn) :
    ∃ q, Squash.Moved s.theSquash s.theInsns.length x
        (x.redirected.interactAll s.theDispatchInteractions) q ∧
      s.dispatchUop thePrediction x =
        { thePC := (s.fetchedFor thePrediction x).thePC
          theNextPC := (s.fetchedFor thePrediction x).theNextPC
          theInsns := s.theInsns ++ [x.redirected.interactAll s.theDispatchInteractions]
          theRetired := s.theRetired
          theDispatchInteractions := x.dispatchInteractions
          thePreserveInteractions := s.thePreserveInteractions
          theSquash := q } := by
  obtain ⟨f, hf⟩ : ∃ f, f = s.fetchedFor thePrediction x := ⟨_, rfl⟩
  have hinsns : f.theInsns = s.theInsns := by
    rw [hf, fetchedFor]
    split <;> rfl
  have hsquash : f.theSquash = s.theSquash := by
    rw [hf, fetchedFor]
    split <;> rfl
  have hretired : f.theRetired = s.theRetired := by
    rw [hf, fetchedFor]
    split <;> rfl
  have hpreserve : f.thePreserveInteractions = s.thePreserveInteractions := by
    rw [hf, fetchedFor]
    split <;> rfl
  obtain ⟨q, hq, heq⟩ := replace_eq (n := s.theInsns.length)
    (s := { f with
      theInsns := s.theInsns ++ [x]
      theDispatchInteractions := x.dispatchInteractions }) x.redirected_theSuccessor
  have hset : (s.theInsns ++ [x]).set s.theInsns.length x.redirected =
      s.theInsns ++ [x.redirected] := by
    rw [List.set_append_right _ _ (Nat.le_refl _), Nat.sub_self]
    rfl
  obtain ⟨q', hq', heq'⟩ := applyAll_eq (n := s.theInsns.length) (x := x.redirected)
    (s := { f with
      theInsns := s.theInsns ++ [x.redirected]
      theDispatchInteractions := x.dispatchInteractions
      theSquash := q }) s.theDispatchInteractions List.getElem?_concat_length
  have hset' : (s.theInsns ++ [x.redirected]).set s.theInsns.length
      (x.redirected.interactAll s.theDispatchInteractions) =
      s.theInsns ++ [x.redirected.interactAll s.theDispatchInteractions] := by
    rw [List.set_append_right _ _ (Nat.le_refl _), Nat.sub_self]
    rfl
  have hlen : (f.theInsns ++ [x]).length ≤ s.theInsns.length + 1 := by
    rw [hinsns, List.length_append]
    exact Nat.le_refl _
  refine ⟨q', (hsquash ▸ hq).trans hq', ?_⟩
  rw [dispatchUop, ← hf, applyToNext_last _ hlen]
  dsimp only at hset heq heq' ⊢
  rw [List.nil_append, hinsns, heq, hset, heq', hset', hretired, hpreserve]

end FlowCore

end Decoder

end Flexus
