import Flexus.Decoder.ControlFlow

/-!
# Annulled control transfers

A branch that annuls the instruction after it goes on with the one after that. What the annulled
instruction would do to the control is not to happen. But nothing stops it: where an annulled BA,
CALL or JMPL has applied its interaction, or an annulled BA,A, DONE or RETRY has redirected itself,
the control goes to the target of the annulled instruction. The same holds of the exceptions that an
annulled instruction raises, and of the correction by which an instruction that was predicted as a
branch, and is none, sends the one after it on.

Where no annulled instruction has done any of this to the one after it, the control goes where it is
to go, in whatever order instructions are dispatched and evaluated
(`Flexus.Decoder.goesOn_of_ignoresAnnulled`). The invariant is about pairs of instructions that
follow each other: what the first has done to the second so far.
-/

namespace Flexus

open List

namespace Decoder

/-! ### What annulment is for -/

namespace FlowInsn

variable (x : FlowInsn)

/-- **The address after an instruction**, by what it is. A branch has a delay slot there. -/
def successor : BitVec 64 :=
  if x.lastUop then
    match x.theTransfer with
    | .branch_always true target => target
    | .retry _ => x.theNPC
    | _ => x.thePC + 4
  else x.thePC

/-- **An instruction that does nothing to the control**: it is no control transfer and was not
predicted as one, and it is a single micro-op. -/
def isQuiet : Bool :=
  decide (x.theTransfer = .other) && !x.predicted && !x.isMicroOp && x.lastUop

/-- **An instruction that sets its own next address**: as it is created, dispatched, evaluated or
retired. -/
def readdresses : Bool :=
  match x.theTransfer with
  | .annul_next | .branch_always true _ | .conditional true _ _ | .retry _ => true
  | _ => false

/-- Where fetch goes after an instruction, once it has retired. -/
def leadsTo (aTPC aTNPC : BitVec 64) : BitVec 64 :=
  match x.theTransfer with
  | .retry isRetry => if isRetry then aTPC else aTNPC
  | _ => x.theSuccessor

/-- **An annulled instruction that may act on the control**: it has not forced a
resynchronisation. -/
def lingers : Bool := x.theAnnulled && !x.theResync && !x.isQuiet

/-- **An instruction that is left alone**: it is not annulled, and fetch goes from it to its own
successor. -/
def LeftAlone : Prop := x.theAnnulled = false ∧ x.theSuccessor = x.successor

instance : Decidable x.LeftAlone := inferInstanceAs (Decidable (_ ∧ _))

end FlowInsn

namespace FlowCore

variable (s : FlowCore)

/-- **A branch that has retired annulled the instruction in its delay slot.** -/
structure Annulled (n : ℕ) (b d : FlowInsn) : Prop where
  branch : s.theInsns[n]? = some b
  delaySlot : s.theInsns[n + 1]? = some d
  retired : n + 1 < s.theRetired
  annuls : b.theTransfer.annuls = true
  executed : b.theAnnulled = false
  annulled : d.theAnnulled = true
  pc : d.thePC = b.thePC + 4

/-- **Execution goes on after what is annulled**: where no instruction that has retired forces a
resynchronisation with Simics, the next one to retire after an annulled instruction is the one after
the delay slot, and the one after that is its own successor, if it raises no exception. -/
def GoesOn : Prop :=
  (∀ x ∈ s.theInsns.take s.theRetired, x.theResync = false) →
    ∀ n b d, s.Annulled n b d → ∀ x, n + 2 < s.theRetired → s.theInsns[n + 2]? = some x →
      x.thePC = b.thePC + 8 ∧ x.theAnnulled = false ∧
        (x.theRaised = false → ∀ y, n + 3 < s.theRetired → s.theInsns[n + 3]? = some y →
          y.thePC = x.successor)

/-- How many instructions are not going to be squashed. -/
def kept : ℕ :=
  match s.theSquash with
  | some q => q.theKept
  | none => s.theInsns.length

/-- **The instruction that is dispatched next**, or its first micro-op: what has waited for it is
applied to it. -/
def dispatched (theOpcode : BitVec 32) (thePrediction : Option (BitVec 64)) (theResync : Bool) :
    FlowInsn :=
  (FlowInsn.create ⟨s.thePC, theOpcode⟩ s.theNextPC thePrediction.isSome theResync false
    (!isBlock theOpcode)).redirected.interactAll s.theDispatchInteractions

/-- **The oldest instruction has not acted on the control**: if it sets its own next address, it
leads to the instruction after it, and that is left alone, unless it is still to be dispatched. -/
def Spares (d : FlowInsn) (aTPC aTNPC : BitVec 64) : Prop :=
  d.lastUop = true ∧ (d.readdresses = true → d.leadsTo aTPC aTNPC = d.thePC + 4) ∧
    (s.theRetired + 1 < s.kept → ∀ w ∈ s.theInsns[s.theRetired + 1]?, w.LeftAlone)

instance (d : FlowInsn) (aTPC aTNPC : BitVec 64) : Decidable (s.Spares d aTPC aTNPC) :=
  inferInstanceAs (Decidable (_ ∧ _ ∧ _))

/-- **No annulled instruction acts on the control**: not on the instruction after it, whether that
was dispatched before it retires or is dispatched then, and not by an exception, unless it has
forced a resynchronisation. A RETRY that is to go on at an address apart is not predicted to be
where it goes. -/
def IgnoresAnnulled : FlowEvent → Prop
  | .dispatch theOpcode thePrediction theResync =>
    s.theSquash = none → s.theRetired = s.theInsns.length → ∀ d ∈ s.theInsns.getLast?,
      d.lingers = true → (s.dispatched theOpcode thePrediction theResync).LeftAlone
  | .retire aTPC aTNPC => ∀ x ∈ s.head?, (x.lingers = true → s.Spares x aTPC aTNPC) ∧
      (x.theTransfer = .retry true → aTNPC ≠ aTPC + 4 → aTPC ≠ x.theNPC)
  | .trap _ => ∀ x ∈ s.head?, x.theAnnulled = true → x.theResync = true
  | _ => True

instance : (e : FlowEvent) → Decidable (s.IgnoresAnnulled e)
  | .dispatch theOpcode thePrediction theResync => inferInstanceAs (Decidable
    (s.theSquash = none → s.theRetired = s.theInsns.length → ∀ d ∈ s.theInsns.getLast?,
      d.lingers = true → (s.dispatched theOpcode thePrediction theResync).LeftAlone))
  | .retire aTPC aTNPC => inferInstanceAs (Decidable (∀ x ∈ s.head?,
    (x.lingers = true → s.Spares x aTPC aTNPC) ∧
      (x.theTransfer = .retry true → aTNPC ≠ aTPC + 4 → aTPC ≠ x.theNPC)))
  | .trap _ => inferInstanceAs (Decidable (∀ x ∈ s.head?,
    x.theAnnulled = true → x.theResync = true))
  | .evaluate .. | .endCycle | .rollback _ | .resync .. => isTrue trivial

end FlowCore

/-! ### What holds of one instruction -/

namespace FlowInsn

variable {x y v w : FlowInsn}

theorem isQuiet_iff : x.isQuiet = true ↔
    x.theTransfer = .other ∧ x.predicted = false ∧ x.isMicroOp = false ∧ x.lastUop = true := by
  simp [isQuiet, and_assoc]

theorem Same.isQuiet (h : Same x y) : y.isQuiet = x.isQuiet := by
  rw [FlowInsn.isQuiet, FlowInsn.isQuiet, h.transfer, h.predicted, h.isMicroOp, h.lastUop]

theorem lingers_iff : x.lingers = true ↔
    x.theAnnulled = true ∧ x.theResync = false ∧ x.isQuiet = false := by
  simp [lingers, and_assoc]

theorem Same.readdresses (h : Same x y) : y.readdresses = x.readdresses := by
  rw [FlowInsn.readdresses, FlowInsn.readdresses, h.transfer]

theorem readdresses_of_other (h : x.theTransfer = .other) : x.readdresses = false := by
  rw [readdresses, h]

/-- Those that may annul the instruction after them set their own next address. -/
theorem annuls_eq_false (h : x.readdresses = false) : x.theTransfer.annuls = false := by
  rw [readdresses] at h
  cases ht : x.theTransfer with
  | conditional annul _ _ =>
    rw [ht] at h
    cases annul with
    | false => rfl
    | true => cases h
  | annul_next =>
    rw [ht] at h
    cases h
  | _ => rfl

theorem redirected_eq (h : x.readdresses = false) : x.redirected = x := by
  rw [redirected]
  split
  · rename_i ht
    rw [readdresses, ht] at h
    cases h
  · rfl

theorem evaluated_eq (h : x.readdresses = false) (result : Bool) : x.evaluated result = x := by
  rw [evaluated]
  split
  · rename_i ht
    rw [readdresses, ht] at h
    cases h
  · rfl

/-- **What holds of an instruction**: only one that is no control transfer is followed by micro-ops
of its own, and fetch goes to its next address, unless it may annul the one after it or has raised
an exception. -/
structure Linked (x : FlowInsn) : Prop where
  uop : x.lastUop = false → x.theTransfer = .other
  next : x.lastUop = true → x.theTransfer.annuls = false → x.theRaised = false →
    x.theSuccessor = x.theNPC

/-- A change of the next address that sends fetch there keeps the two together. -/
theorem Linked.change (h : x.Linked) (hsame : Same x y)
    (hmoved : (y.theNPC = x.theNPC ∧ y.theSuccessor = x.theSuccessor) ∨
      (y.theNPC ≠ x.theNPC ∧ y.theSuccessor = y.theNPC)) : y.Linked := by
  refine ⟨fun hlast => ?_, fun hlast hannuls hraised => ?_⟩
  · rw [hsame.lastUop] at hlast
    exact hsame.transfer.trans (h.uop hlast)
  · rcases hmoved with ⟨hnpc, hsucc⟩ | ⟨-, hsucc⟩
    · rw [hsame.lastUop] at hlast
      rw [hsame.transfer] at hannuls
      rw [hsame.raised] at hraised
      rw [hsucc, hnpc]
      exact h.next hlast hannuls hraised
    · exact hsucc

theorem Linked.interactAll (h : x.Linked) (l : List Interaction) : (x.interactAll l).Linked := by
  induction l generalizing x with
  | nil => exact h
  | cons a l ih => exact ih (h.change (interact_same a) (interact_theSuccessor a))

theorem Linked.evaluated (h : x.Linked) (result : Bool) : (x.evaluated result).Linked := by
  rw [FlowInsn.evaluated]
  split
  · rename_i ht
    refine ⟨h.uop, fun _ hannuls => ?_⟩
    have hannuls' : x.theTransfer.annuls = false := hannuls
    rw [ht] at hannuls'
    cases hannuls'
  · exact h

/-- **An instruction that nothing has been done to** by the one before it. -/
structure Untouched (w : FlowInsn) : Prop where
  annulled : w.theAnnulled = false
  successor : w.theRaised = false → w.theSuccessor = w.successor

theorem LeftAlone.untouched (h : w.LeftAlone) : w.Untouched := ⟨h.1, fun _ => h.2⟩

theorem Untouched.evaluated (h : w.Untouched) (result : Bool) : (w.evaluated result).Untouched := by
  rw [FlowInsn.evaluated]
  split
  · rename_i ht
    refine ⟨h.annulled, fun hraised => ?_⟩
    have hsucc : FlowInsn.successor { w with theNPC := w.thePC + if result then 4 else 8 } =
        w.successor := by
      rw [FlowInsn.successor, FlowInsn.successor]
      simp only [ht]
    rw [hsucc]
    exact h.successor hraised
  · exact h

theorem Untouched.raise (h : w.Untouched) (t : BitVec 64) :
    Untouched { w with theRaised := true, theSuccessor := t } :=
  ⟨h.annulled, fun hraised => absurd hraised.symm Bool.false_ne_true⟩

/-- **DONE and RETRY** redirect themselves as they retire. -/
theorem Untouched.redirectNPC (h : w.Untouched) (hlinked : w.Linked) {isRetry : Bool}
    (hw : w.theTransfer = .retry isRetry) (t : BitVec 64) : (w.redirectNPC t).Untouched := by
  have hsame := redirectNPC_same (x := w) t
  refine ⟨?_, fun hraised => ?_⟩
  · rw [FlowInsn.redirectNPC]
    split
    · exact h.annulled
    · exact h.annulled
  · have hlinked' := hlinked.change hsame (redirectNPC_theSuccessor t)
    have htransfer : (w.redirectNPC t).theTransfer = .retry isRetry := hsame.transfer.trans hw
    have hlast : (w.redirectNPC t).lastUop = true := by
      cases hlast : (w.redirectNPC t).lastUop with
      | true => rfl
      | false =>
        have hother := hlinked'.uop hlast
        rw [htransfer] at hother
        cases hother
    rw [FlowInsn.successor, if_pos hlast, htransfer]
    exact hlinked'.next hlast (by rw [htransfer]; rfl) hraised

/-- **What a branch with the annul bit has done to the instruction in its delay slot**: if that is
annulled, its next address is the one after it, unless it sets that itself. After BN,A it always
is. -/
def AnnulledBy (w v : FlowInsn) : Prop :=
  w.readdresses = false → w.thePC = v.thePC + 4 →
    w.theAnnulled = true ∨ v.theTransfer = .annul_next ∧ v.predicted = false →
      w.theNPC = v.thePC + 8

/-! ### What holds of two instructions that follow each other -/

/-- **An instruction and the one after it.** -/
structure Follows (v w : FlowInsn) : Prop where
  pc : w.thePC = v.theSuccessor
  micro : w.isMicroOp = true → v.lastUop = false
  untouched : v.isQuiet = true → w.Untouched
  npc : v.isQuiet = true → w.theTransfer = .other → w.theNPC = w.thePC + 4
  annulled : v.theTransfer.annuls = true → w.AnnulledBy v

/-- **An instruction and what is fetched after it.** -/
structure Precedes (v : FlowInsn) (thePC theNextPC : BitVec 64) : Prop where
  pc : thePC = v.theSuccessor
  quiet : v.isQuiet = true → theNextPC = thePC + 4
  annul_next : v.theTransfer = .annul_next → v.predicted = false → thePC = v.thePC + 4 →
    theNextPC = v.thePC + 8

/-- **An instruction and the interactions that wait** for the one after it. -/
structure Defers (v : FlowInsn) (l : List Interaction) : Prop where
  quiet : v.isQuiet = true → l = []
  annuls : v.theTransfer.annuls = true → ∀ w : FlowInsn, w.theAnnulled = false → w.AnnulledBy v →
    (w.interactAll l).AnnulledBy v

theorem Defers.nil (v : FlowInsn) : v.Defers [] := ⟨fun _ => rfl, fun _ _ _ h => h⟩

theorem Defers.of_retry {r : Bool} (h : v.theTransfer = .retry r) (l : List Interaction) :
    v.Defers l := by
  refine ⟨fun hquiet => ?_, fun hannuls => ?_⟩
  · have := (isQuiet_iff.mp hquiet).1
    rw [h] at this
    cases this
  · rw [h] at hannuls
    cases hannuls

/-- **Fetch was redirected** to where it goes after an instruction. -/
theorem Precedes.of_redirect (v : FlowInsn) : v.Precedes v.theSuccessor (v.theSuccessor + 4) := by
  refine ⟨rfl, fun _ => rfl, fun _ _ hpc => ?_⟩
  rw [hpc, BitVec.add_assoc]
  rfl

theorem AnnulledBy.left (h : w.AnnulledBy v) (hsame : Same v x) : w.AnnulledBy x := by
  rw [AnnulledBy, hsame.pc, hsame.transfer, hsame.predicted]
  exact h

theorem Follows.left (h : Follows v w) (hsame : Same v x)
    (hsucc : x.theSuccessor = v.theSuccessor) : Follows x w := by
  refine ⟨h.pc.trans hsucc.symm, fun hm => hsame.lastUop.trans (h.micro hm), fun hquiet => ?_,
    fun hquiet => ?_, fun hannuls => ?_⟩
  · rw [hsame.isQuiet] at hquiet
    exact h.untouched hquiet
  · rw [hsame.isQuiet] at hquiet
    exact h.npc hquiet
  · rw [hsame.transfer] at hannuls
    exact (h.annulled hannuls).left hsame

theorem Precedes.left {thePC theNextPC : BitVec 64} (h : v.Precedes thePC theNextPC)
    (hsame : Same v x) (hsucc : x.theSuccessor = v.theSuccessor) : x.Precedes thePC theNextPC := by
  refine ⟨h.pc.trans hsucc.symm, fun hquiet => ?_, fun ht hp hpc => ?_⟩
  · rw [hsame.isQuiet] at hquiet
    exact h.quiet hquiet
  · rw [hsame.transfer] at ht
    rw [hsame.predicted] at hp
    rw [hsame.pc] at hpc ⊢
    exact h.annul_next ht hp hpc

theorem Defers.left {l : List Interaction} (h : v.Defers l) (hsame : Same v x) : x.Defers l := by
  refine ⟨fun hquiet => ?_, fun hannuls w hw hv => ?_⟩
  · rw [hsame.isQuiet] at hquiet
    exact h.quiet hquiet
  · rw [hsame.transfer] at hannuls
    have hback : Same x v := ⟨hsame.pc.symm, hsame.transfer.symm, hsame.predicted.symm,
      hsame.isMicroOp.symm, hsame.lastUop.symm, hsame.raised.symm⟩
    exact (h.annuls hannuls w hw (hv.left hback)).left hsame

/-! ### What a branch does to its delay slot -/

theorem interactions_eq_nil (h : v.theTransfer = .other) (result : Bool) (t : BitVec 64) :
    v.interactions result t = [] := by
  rw [interactions, h]

/-- **A branch is evaluated**, with whatever result. If it annuls the instruction in its delay slot,
it also sets the next address of that; and if it does not, the instruction is reinstated. -/
theorem AnnulledBy.interactions (h : w.AnnulledBy v) (hannuls : v.theTransfer.annuls = true)
    (result : Bool) (t : BitVec 64) : (w.interactAll (v.interactions result t)).AnnulledBy v := by
  rcases Transfer.annuls_iff.mp hannuls with hv | ⟨isReg, target, hv⟩
  · have hnil : v.interactions result t = [] := by rw [FlowInsn.interactions, hv]
    rw [hnil]
    exact h
  · intro _ hpc hor
    rw [(interactAll_same _).pc] at hpc
    have hzero : w.thePC + 4 = v.thePC + 8 := by
      rw [hpc, BitVec.add_assoc]
      rfl
    rcases hor with hann | ⟨hnext, -⟩
    · rw [FlowInsn.interactions, hv] at hann ⊢
      cases result with
      | true =>
        -- the last interaction reinstates the instruction
        cases hann
      | false =>
        cases isReg with
        | true =>
          show (w.redirectNPC (w.thePC + 4)).theNPC = _
          rw [redirectNPC_theNPC, hzero]
        | false =>
          show ((w.interact .annul).redirectNPC
            (if v.thePC + 8 = 0 then w.thePC + 4 else v.thePC + 8)).theNPC = _
          rw [redirectNPC_theNPC]
          split
          · exact hzero
          · rfl
    · rw [hv] at hnext
      cases hnext

/-- **A branch is evaluated**: what holds of it and the instruction after it stays. -/
theorem Follows.interactions (h : Follows v w) (result : Bool) (t : BitVec 64) :
    Follows v (w.interactAll (v.interactions result t)) := by
  have hsame := interactAll_same (x := w) (v.interactions result t)
  refine ⟨hsame.pc.trans h.pc, fun hm => h.micro (hsame.isMicroOp.symm.trans hm),
    fun hquiet => ?_, fun hquiet => ?_, fun hannuls => ?_⟩
  · rw [interactions_eq_nil (isQuiet_iff.mp hquiet).1]
    exact h.untouched hquiet
  · rw [interactions_eq_nil (isQuiet_iff.mp hquiet).1]
    exact h.npc hquiet
  · exact (h.annulled hannuls).interactions hannuls result t

/-- **A branch is evaluated before the instruction in its delay slot is dispatched.** -/
theorem Defers.append {l : List Interaction} (h : v.Defers l) (result : Bool) (t : BitVec 64) :
    v.Defers (l ++ v.interactions result t) := by
  refine ⟨fun hquiet => ?_, fun hannuls w hw hv => ?_⟩
  · rw [h.quiet hquiet, interactions_eq_nil (isQuiet_iff.mp hquiet).1]
    rfl
  · have happend : w.interactAll (l ++ v.interactions result t) =
        (w.interactAll l).interactAll (v.interactions result t) := foldl_append
    rw [happend]
    exact (h.annuls hannuls w hw hv).interactions hannuls result t

/-- What a branch does to itself as it is evaluated leaves the pair with the one before. -/
theorem Follows.evaluated (h : Follows v w) (result : Bool) : Follows v (w.evaluated result) := by
  have hsame := evaluated_same (x := w) result
  refine ⟨hsame.pc.trans h.pc, fun hm => h.micro (hsame.isMicroOp.symm.trans hm),
    fun hquiet => (h.untouched hquiet).evaluated result, fun hquiet hother => ?_,
    fun hannuls hread => ?_⟩
  · rw [hsame.transfer] at hother
    rw [evaluated_eq (readdresses_of_other hother)]
    exact h.npc hquiet hother
  · rw [hsame.readdresses] at hread
    rw [evaluated_eq hread]
    exact h.annulled hannuls hread

theorem Follows.redirectNPC (h : Follows v w) (hlinked : w.Linked) {isRetry : Bool}
    (hw : w.theTransfer = .retry isRetry) (t : BitVec 64) : Follows v (w.redirectNPC t) := by
  have hsame := redirectNPC_same (x := w) t
  refine ⟨hsame.pc.trans h.pc, fun hm => h.micro (hsame.isMicroOp.symm.trans hm),
    fun hquiet => (h.untouched hquiet).redirectNPC hlinked hw t, fun _ hother => ?_,
    fun _ hread => ?_⟩
  · rw [hsame.transfer, hw] at hother
    cases hother
  · rw [hsame.readdresses, FlowInsn.readdresses, hw] at hread
    cases hread

/-! ### What is dispatched -/

/-- **An instruction as it was fetched**, from an address and with another to come next. -/
structure Fetched (x : FlowInsn) (thePC theNextPC : BitVec 64) : Prop where
  pc : x.thePC = thePC
  npc : x.theTransfer ≠ .annul_next → x.theNPC = theNextPC
  successor : x.theSuccessor = if x.lastUop then theNextPC else thePC
  annulled : x.theAnnulled = false
  raised : x.theRaised = false
  uop : x.lastUop = false → x.theTransfer = .other

variable {thePC theNextPC : BitVec 64} {l : List Interaction}

theorem Fetched.linked (h : x.Fetched thePC theNextPC) : x.Linked := by
  refine ⟨h.uop, fun hlast hannuls _ => ?_⟩
  have hne : x.theTransfer ≠ .annul_next := by
    intro ht
    rw [ht] at hannuls
    cases hannuls
  rw [h.successor, if_pos hlast, h.npc hne]

theorem redirected_theAnnulled (x : FlowInsn) : x.redirected.theAnnulled = x.theAnnulled := by
  rw [redirected]
  split
  · rw [FlowInsn.redirectNPC]
    split <;> rfl
  · rfl

/-- After an instruction that does nothing, what is fetched is where it is to be. -/
theorem Fetched.untouched (hx : x.Fetched thePC (thePC + 4)) : x.redirected.Untouched := by
  have hsame := redirected_same x
  refine ⟨(redirected_theAnnulled x).trans hx.annulled, fun _ => ?_⟩
  · have hlinked := hx.linked.change hsame (redirected_theSuccessor x)
    have hraised := hsame.raised.trans hx.raised
    have hlast := hsame.lastUop
    rw [FlowInsn.successor]
    split
    · rename_i hlast'
      have hnext := hlinked.next hlast'
      split
      · rename_i target ht
        have heq : x.redirected = x.redirectNPC target := by
          rw [redirected, hsame.transfer.symm.trans ht]
        rw [hnext (by rw [ht]; rfl) hraised, heq, redirectNPC_theNPC]
      · rename_i ht
        exact hnext (by rw [ht]; rfl) hraised
      · rename_i hnot _
        have heq : x.redirected = x := by
          rw [redirected]
          split
          · rename_i target ht
            exact absurd (hsame.transfer.trans ht) (hnot target)
          · rfl
        rw [hlast] at hlast'
        rw [heq, hx.successor, if_pos hlast', hx.pc]
    · rename_i hlast'
      rw [hlast] at hlast'
      have hother := hx.uop (Bool.eq_false_iff.mpr hlast')
      rw [redirected_eq (readdresses_of_other hother), hx.successor, if_neg hlast', hx.pc]

/-- **An instruction is dispatched**: it and the one before it are as they are to be. -/
theorem Precedes.dispatched (hv : v.Precedes thePC theNextPC) (hl : v.Defers l)
    (hx : x.Fetched thePC theNextPC) (hmicro : x.isMicroOp = true → v.lastUop = false) :
    Follows v (x.redirected.interactAll l) := by
  have hsame := (redirected_same x).trans (interactAll_same l)
  refine ⟨?_, fun hm => hmicro (hsame.isMicroOp.symm.trans hm), fun hquiet => ?_,
    fun hquiet hother => ?_, fun hannuls => ?_⟩
  · rw [hsame.pc, hx.pc, hv.pc]
  · rw [hl.quiet hquiet]
    rw [hv.quiet hquiet] at hx
    exact hx.untouched
  · rw [hsame.transfer] at hother
    rw [hl.quiet hquiet]
    show x.redirected.theNPC = x.redirected.thePC + 4
    rw [redirected_eq (readdresses_of_other hother), hx.npc (by rw [hother]; nofun),
      hv.quiet hquiet, hx.pc]
  · refine hl.annuls hannuls _ ((redirected_theAnnulled x).trans hx.annulled) ?_
    intro hread hpc hor
    rw [(redirected_same x).readdresses] at hread
    rw [redirected_eq hread] at hpc hor ⊢
    rcases hor with hann | ⟨hnext, hpred⟩
    · rw [hx.annulled] at hann
      cases hann
    · have hne : x.theTransfer ≠ .annul_next := by
        intro ht
        rw [readdresses, ht] at hread
        cases hread
      rw [hx.npc hne]
      exact hv.annul_next hnext hpred (hx.pc ▸ hpc)

/-- **What waits after an instruction is dispatched** is what it does to the one after it. -/
theorem dispatchInteractions_defers (x : FlowInsn) : x.Defers x.dispatchInteractions := by
  refine ⟨fun hquiet => ?_, fun hannuls w hw hv => ?_⟩
  · obtain ⟨ht, hp, -, -⟩ := isQuiet_iff.mp hquiet
    rw [dispatchInteractions, ht, hp]
    rfl
  · rcases Transfer.annuls_iff.mp hannuls with ht | ⟨isReg, target, ht⟩
    · intro hread hpc hor
      rw [(interactAll_same _).readdresses] at hread
      rw [(interactAll_same _).pc] at hpc
      cases hp : x.predicted with
      | true =>
        -- the correction of the prediction comes before the annulment
        have heq : x.dispatchInteractions = [.branch 0, .annul] := by
          rw [dispatchInteractions, ht, hp]
          rfl
        rw [heq]
        show (w.redirectNPC (w.thePC + 4)).theNPC = _
        rw [redirectNPC_theNPC, hpc, BitVec.add_assoc]
        rfl
      | false =>
        have heq : x.dispatchInteractions = [.annul] := by
          rw [dispatchInteractions, ht, hp]
          rfl
        rw [heq]
        exact hv hread hpc (Or.inr ⟨ht, hp⟩)
    · have hbranch : (x.predicted && !x.theTransfer.isBranch) = false := by
        rw [ht]
        exact Bool.and_false _
      have heq : x.dispatchInteractions = [] := by
        rw [dispatchInteractions, hbranch, ht]
        rfl
      rw [heq]
      exact hv

/-- **What is fetched next** after an instruction, if fetch goes on as it was. -/
theorem Fetched.precedes (hx : x.Fetched thePC theNextPC) (hsame : Same x y)
    (hsucc : y.theSuccessor = x.theSuccessor) {aPC aNPC : BitVec 64}
    (hpc : aPC = if x.lastUop then theNextPC else thePC)
    (hnpc : x.lastUop = true → x.predicted = false → aNPC = aPC + 4) : y.Precedes aPC aNPC := by
  refine ⟨?_, fun hquiet => ?_, fun ht hp hslot => ?_⟩
  · rw [hsucc, hx.successor, hpc]
  · rw [hsame.isQuiet] at hquiet
    obtain ⟨-, hp, -, hlast⟩ := isQuiet_iff.mp hquiet
    exact hnpc hlast hp
  · rw [hsame.transfer] at ht
    rw [hsame.predicted] at hp
    have hlast : x.lastUop = true := by
      cases hlast : x.lastUop with
      | true => rfl
      | false =>
        have := hx.uop hlast
        rw [ht] at this
        cases this
    rw [hnpc hlast hp, hslot, BitVec.add_assoc]
    rfl

end FlowInsn

/-! ### What holds of the core -/

namespace FlowCore

open FlowInsn

variable (s : FlowCore)

/-- **An annulled instruction that has retired**, and the one after it. -/
structure Rests (theKept : ℕ) (theInsns : List FlowInsn) (i : ℕ) (d : FlowInsn) : Prop where
  raised : d.theRaised = false
  lastUop : d.lastUop = true
  successor : d.readdresses = true → d.theSuccessor = d.thePC + 4
  next : ∀ w, i + 1 < theKept → theInsns[i + 1]? = some w → w.Untouched

/-- **What holds of a core.** Nothing is said of the instructions that are going to be squashed, and
of what waits for an instruction after one of them. -/
structure Flows : Prop where
  retired_le : s.theRetired ≤ s.kept
  kept_le : s.kept ≤ s.theInsns.length
  linked : ∀ i x, i < s.kept → s.theInsns[i]? = some x → x.Linked
  follows : ∀ i v w, i + 1 < s.kept → s.theInsns[i]? = some v → s.theInsns[i + 1]? = some w →
    Follows v w
  precedes : s.theSquash = none → ∀ v, s.theInsns.getLast? = some v →
    v.Precedes s.thePC s.theNextPC
  redirects : ∀ q, s.theSquash = some q → ∀ i v, i + 1 = q.theKept → s.theInsns[i]? = some v →
    v.theSuccessor = q.theRedirectPC
  defers : s.kept = s.theInsns.length → ∀ v, s.theInsns.getLast? = some v →
    v.Defers s.theDispatchInteractions
  preserves : s.thePreserveInteractions = true → s.kept = s.theRetired ∧ s.theSquash ≠ none ∧
    ∀ i v, i + 1 = s.theRetired → s.theInsns[i]? = some v → ∃ r, v.theTransfer = .retry r
  raised : ∀ i x, s.theRetired ≤ i → s.theInsns[i]? = some x → x.theRaised = false
  rests : ∀ i x, i < s.theRetired → s.theInsns[i]? = some x → x.theAnnulled = true →
    x.theResync = false → Rests s.kept s.theInsns i x

variable {s}

theorem Flows.start (aPC aNPC : BitVec 64) : (start aPC aNPC).Flows := by
  have hempty : ∀ (i : ℕ) (x : FlowInsn), (FlowCore.start aPC aNPC).theInsns[i]? ≠ some x :=
    fun i x h => by cases h
  refine ⟨Nat.le_refl 0, Nat.le_refl 0, fun i x _ hx => absurd hx (hempty i x),
    fun i v _ _ hv => absurd hv (hempty i v), fun _ v hv => ?_, fun q hq => ?_, fun _ v hv => ?_,
    fun hp => ?_, fun i x _ hx => absurd hx (hempty i x), fun i x _ hx => absurd hx (hempty i x)⟩
  · cases hv
  · cases hq
  · cases hv
  · cases hp

/-- **The property holds** where the invariant does. -/
theorem Flows.goesOn (h : s.Flows) : s.GoesOn := by
  intro hresync n b d ha x hn hx
  have hlt : ∀ i, i < s.theRetired → i < s.kept := fun i hi =>
    Nat.lt_of_lt_of_le hi h.retired_le
  have hd : d.theResync = false := by
    refine hresync d ?_
    rw [mem_take_iff_getElem]
    obtain ⟨hlen, hget⟩ := List.getElem?_eq_some_iff.mp ha.delaySlot
    exact ⟨n + 1, by have := ha.retired; omega, hget⟩
  have hrests := h.rests (n + 1) d ha.retired ha.delaySlot ha.annulled hd
  -- the branch and its delay slot
  have hbd := h.follows n b d (hlt _ ha.retired) ha.branch ha.delaySlot
  have hdpc : d.thePC + 4 = b.thePC + 8 := by
    rw [ha.pc, BitVec.add_assoc]
    rfl
  have hsucc : d.theSuccessor = b.thePC + 8 := by
    cases hread : d.readdresses with
    | true => rw [hrests.successor hread, hdpc]
    | false =>
      have hnext := (h.linked (n + 1) d (hlt _ ha.retired) ha.delaySlot).next hrests.lastUop
        (annuls_eq_false hread) hrests.raised
      rw [hnext, hbd.annulled ha.annuls hread ha.pc (Or.inl ha.annulled)]
  -- the delay slot and the instruction after it
  have hdx := h.follows (n + 1) d x (hlt _ hn) ha.delaySlot hx
  have hux := hrests.next x (hlt _ hn) hx
  refine ⟨hdx.pc.trans hsucc, hux.annulled, fun hxraised y hy hyget => ?_⟩
  rw [(h.follows (n + 2) x y (hlt _ hy) hx hyget).pc]
  exact hux.successor hxraised

/-! ### A change of an instruction -/

section Lists

variable {α : Type*} {l : List α} {n i : ℕ} {y v : α}

theorem getElem?_set_cases (h : (l.set n y)[i]? = some v) :
    (i = n ∧ v = y) ∨ (i ≠ n ∧ l[i]? = some v) := by
  rw [List.getElem?_set] at h
  split at h
  · rename_i hni
    split at h
    · exact Or.inl ⟨hni.symm, (Option.some.inj h).symm⟩
    · cases h
  · rename_i hni
    exact Or.inr ⟨fun hin => hni hin.symm, h⟩

theorem getLast?_iff : l.getLast? = some v ↔ ∃ i, i + 1 = l.length ∧ l[i]? = some v := by
  rw [getLast?_eq_getElem?]
  constructor
  · intro h
    have hlt := (List.getElem?_eq_some_iff.mp h).1
    exact ⟨l.length - 1, by omega, h⟩
  · rintro ⟨i, hi, h⟩
    rw [← hi, Nat.add_sub_cancel]
    exact h

end Lists

variable {n : ℕ} {x y : FlowInsn} {q : Option Squash}

/-- **What a change leads to**: if it sends fetch elsewhere, the instructions after it are not going
to be kept; else what is kept stays. -/
theorem moved_cases (hq : Squash.Moved s.theSquash n x y q) (hn : n < s.theInsns.length) :
    (q = s.theSquash ∧ (n < s.kept → y.theSuccessor = x.theSuccessor)) ∨
      (n < s.kept ∧ q = some ⟨n + 1, y.theSuccessor⟩) := by
  rcases hq with ⟨hsucc, rfl⟩ | rfl
  · exact Or.inl ⟨rfl, fun _ => hsucc⟩
  · rw [Squash.request, kept]
    cases s.theSquash with
    | none => exact Or.inr ⟨hn, rfl⟩
    | some p =>
      by_cases hp : n + 1 ≤ p.theKept
      · exact Or.inr ⟨hp, if_pos (by simpa using hp)⟩
      · refine Or.inl ⟨if_neg (by simpa using hp), fun hlt => absurd hlt hp⟩

theorem kept_set (s : FlowCore) (n : ℕ) (y : FlowInsn) :
    FlowCore.kept { s with theInsns := s.theInsns.set n y } = s.kept := by
  rw [kept, kept]
  dsimp only
  rw [length_set]

/-- **A change of an instruction** that has not retired: what holds of it and the one before it is
to be shown. -/
structure Changed (s : FlowCore) (n : ℕ) (x y : FlowInsn) : Prop where
  was : s.theInsns[n]? = some x
  retired_le : s.theRetired ≤ n
  same : Same x y
  linked : x.Linked → y.Linked
  follows : ∀ i v, i + 1 = n → s.theInsns[i]? = some v → Follows v x → Follows v y
  untouched : n = s.theRetired → x.Untouched → y.Untouched

namespace Changed

theorem lt_length (hc : s.Changed n x y) : n < s.theInsns.length :=
  (List.getElem?_eq_some_iff.mp hc.was).1

theorem linked_of_lt (hc : s.Changed n x y) (h : s.Flows) {i : ℕ} {z : FlowInsn} (hi : i < s.kept)
    (hz : (s.theInsns.set n y)[i]? = some z) : z.Linked := by
  rcases getElem?_set_cases hz with ⟨rfl, rfl⟩ | ⟨-, hz⟩
  · exact hc.linked (h.linked _ x hi hc.was)
  · exact h.linked i z hi hz

/-- Two that follow each other, where the second may have changed. -/
theorem follows_of_ne (hc : s.Changed n x y) (h : s.Flows) {i : ℕ} {v w : FlowInsn} (hin : i ≠ n)
    (hi : i + 1 < s.kept) (hv : (s.theInsns.set n y)[i]? = some v)
    (hw : (s.theInsns.set n y)[i + 1]? = some w) : Follows v w := by
  rcases getElem?_set_cases hv with ⟨rfl, -⟩ | ⟨-, hv'⟩
  · exact absurd rfl hin
  · rcases getElem?_set_cases hw with ⟨hi', rfl⟩ | ⟨-, hw'⟩
    · exact hc.follows i v hi' hv' (h.follows i v x hi hv' (hi' ▸ hc.was))
    · exact h.follows i v w hi hv' hw'

theorem raised (hc : s.Changed n x y) (h : s.Flows) {i : ℕ} {z : FlowInsn} (hi : s.theRetired ≤ i)
    (hz : (s.theInsns.set n y)[i]? = some z) : z.theRaised = false := by
  rcases getElem?_set_cases hz with ⟨rfl, rfl⟩ | ⟨-, hz⟩
  · rw [hc.same.raised]
    exact h.raised i x hi hc.was
  · exact h.raised i z hi hz

/-- What has retired is as it was. -/
theorem old (hc : s.Changed n x y) {i : ℕ} {z : FlowInsn} (hi : i < s.theRetired)
    (hz : (s.theInsns.set n y)[i]? = some z) : s.theInsns[i]? = some z := by
  rcases getElem?_set_cases hz with ⟨rfl, -⟩ | ⟨-, hz⟩
  · exact absurd hc.retired_le (Nat.not_le.mpr hi)
  · exact hz

theorem rests (hc : s.Changed n x y) (h : s.Flows) {k i : ℕ} {z : FlowInsn} (hk : k ≤ s.kept)
    (hi : i < s.theRetired) (hz : (s.theInsns.set n y)[i]? = some z) (hann : z.theAnnulled = true)
    (hresync : z.theResync = false) : Rests k (s.theInsns.set n y) i z := by
  have hrests := h.rests i z hi (hc.old hi hz) hann hresync
  refine { hrests with next := fun w hw hget => ?_ }
  rcases getElem?_set_cases hget with ⟨hin, rfl⟩ | ⟨-, hget⟩
  · exact hc.untouched (by have := hc.retired_le; omega)
      (hrests.next x (Nat.lt_of_lt_of_le hw hk) (hin ▸ hc.was))
  · exact hrests.next w (Nat.lt_of_lt_of_le hw hk) hget

theorem last (hc : s.Changed n x y) {z : FlowInsn} (hz : (s.theInsns.set n y).getLast? = some z) :
    (n + 1 = s.theInsns.length ∧ z = y ∧ s.theInsns.getLast? = some x) ∨
      (n + 1 ≠ s.theInsns.length ∧ s.theInsns.getLast? = some z) := by
  obtain ⟨i, hi, hget⟩ := getLast?_iff.mp hz
  rw [length_set] at hi
  rcases getElem?_set_cases hget with ⟨rfl, rfl⟩ | ⟨hne, hget⟩
  · exact Or.inl ⟨hi, rfl, getLast?_iff.mpr ⟨i, hi, hc.was⟩⟩
  · exact Or.inr ⟨by omega, getLast?_iff.mpr ⟨i, hi, hget⟩⟩

/-- If fetch goes on as before, the pair with the one after it is as it was. -/
theorem flows_of_kept (hc : s.Changed n x y) (h : s.Flows)
    (hsucc : n < s.kept → y.theSuccessor = x.theSuccessor) :
    Flows { s with theInsns := s.theInsns.set n y } := by
  have hkept := kept_set s n y
  refine ⟨hkept ▸ h.retired_le, ?_, fun i z hi hz => hc.linked_of_lt h (hkept ▸ hi) hz,
    fun i v w hi hv hw => ?_, fun hnone v hv => ?_, fun q hq i v hi hv => ?_,
    fun hall v hv => ?_, fun hp => ?_, fun i z => hc.raised h,
    fun i z => hc.rests h (Nat.le_of_eq hkept)⟩
  · rw [hkept]
    show s.kept ≤ (s.theInsns.set n y).length
    rw [length_set]
    exact h.kept_le
  · -- two that follow each other, the first of which may have changed
    rw [hkept] at hi
    by_cases hin : i = n
    · cases hin
      rcases getElem?_set_cases hv with ⟨-, rfl⟩ | ⟨hne, -⟩
      · rcases getElem?_set_cases hw with ⟨hne, -⟩ | ⟨-, hw⟩
        · exact absurd hne (Nat.succ_ne_self n)
        · exact (h.follows n x w hi hc.was hw).left hc.same (hsucc (Nat.lt_of_succ_lt hi))
      · exact absurd rfl hne
    · exact hc.follows_of_ne h hin hi hv hw
  · -- fetch goes on after the last one
    have hnone' : s.theSquash = none := hnone
    rcases hc.last hv with ⟨-, rfl, hx⟩ | ⟨-, hv⟩
    · have hlt : n < s.kept := by
        rw [kept, hnone']
        exact hc.lt_length
      exact (h.precedes hnone x hx).left hc.same (hsucc hlt)
    · exact h.precedes hnone v hv
  · -- fetch goes elsewhere after the last one that is kept
    rcases getElem?_set_cases hv with ⟨rfl, rfl⟩ | ⟨-, hv⟩
    · have hq' : s.theSquash = some q := hq
      have hlt : i < s.kept := by
        rw [kept, hq']
        exact Nat.lt_of_succ_le (Nat.le_of_eq hi)
      rw [hsucc hlt]
      exact h.redirects q hq i x hi hc.was
    · exact h.redirects q hq i v hi hv
  · -- what waits for the next one
    rw [hkept, length_set] at hall
    rcases hc.last hv with ⟨-, rfl, hx⟩ | ⟨-, hv⟩
    · exact (h.defers hall x hx).left hc.same
    · exact h.defers hall v hv
  · obtain ⟨hk, hne, hretry⟩ := h.preserves hp
    exact ⟨hkept.trans hk, hne, fun i v hi hv => hretry i v hi
      (hc.old (Nat.lt_of_succ_le (Nat.le_of_eq hi)) hv)⟩

/-- If it sends fetch elsewhere, nothing after it is kept. -/
theorem flows_of_squash (hc : s.Changed n x y) (h : s.Flows) (hkept : n < s.kept) :
    Flows { s with
      theInsns := s.theInsns.set n y
      theSquash := some ⟨n + 1, y.theSuccessor⟩ } := by
  refine ⟨Nat.le_succ_of_le hc.retired_le, ?_,
    fun i z hi hz => hc.linked_of_lt h (Nat.lt_of_lt_of_le hi hkept) hz,
    fun i v w hi hv hw => ?_, nofun, fun p hp i v hi hv => ?_, fun hall v hv => ?_,
    fun hp => ?_, fun i z => hc.raised h, fun i z => hc.rests h hkept⟩
  · show n + 1 ≤ (s.theInsns.set n y).length
    rw [length_set]
    exact hc.lt_length
  · have hi' : i + 1 < n + 1 := hi
    exact hc.follows_of_ne h (by omega) (Nat.lt_of_lt_of_le hi hkept) hv hw
  · cases hp
    have hin : i = n := Nat.succ.inj hi
    rcases getElem?_set_cases hv with ⟨-, rfl⟩ | ⟨hne, -⟩
    · rfl
    · exact absurd hin hne
  · -- what waits: only if the last one has changed is all of it kept
    have hall' : n + 1 = (s.theInsns.set n y).length := hall
    rw [length_set] at hall'
    rcases hc.last hv with ⟨-, rfl, hx⟩ | ⟨hne, -⟩
    · exact (h.defers (by have := h.kept_le; omega) x hx).left hc.same
    · exact absurd hall' hne
  · -- RETRY keeps nothing that has not retired
    obtain ⟨hk, -, -⟩ := h.preserves hp
    exact absurd hkept (by rw [hk]; exact Nat.not_lt.mpr hc.retired_le)

end Changed

/-- **An instruction of the reorder buffer changes.** What holds of it and the one before it is to
be shown. If it sends fetch elsewhere, nothing more is kept, and else the pair with the one after it
is as it was. -/
theorem Flows.change (h : s.Flows) (hc : s.Changed n x y)
    (hq : Squash.Moved s.theSquash n x y q) :
    Flows { s with theInsns := s.theInsns.set n y, theSquash := q } := by
  rcases moved_cases hq hc.lt_length with ⟨rfl, hsucc⟩ | ⟨hkept, rfl⟩
  · exact hc.flows_of_kept h hsucc
  · exact hc.flows_of_squash h hkept

/-! ### Branches are evaluated -/

theorem Flows.defer (h : s.Flows) (hx : s.theInsns.getLast? = some x) (result : Bool)
    (t : BitVec 64) :
    Flows { s with
      theDispatchInteractions := s.theDispatchInteractions ++ x.interactions result t } := by
  refine ⟨h.retired_le, h.kept_le, h.linked, h.follows, h.precedes, h.redirects,
    fun hall v hv => ?_, h.preserves, h.raised, h.rests⟩
  have hvx : x = v := Option.some.inj (hx.symm.trans hv)
  rw [← hvx]
  exact (h.defers hall x hx).append result t

/-- **A branch is evaluated**, for the first time or again. -/
theorem Flows.evaluate (h : s.Flows) (n : ℕ) (result : Bool) (t : BitVec 64) :
    (s.evaluate n result t).Flows := by
  rw [FlowCore.evaluate]
  split
  · rename_i x hx
    split
    · rename_i hn
      -- what it does to the one after it
      obtain ⟨u, hu, hflows, hux, hret⟩ : ∃ u, s.applyToNext n (x.interactions result t) = u ∧
          u.Flows ∧ u.theInsns[n]? = some x ∧ u.theRetired = s.theRetired := by
        refine ⟨_, rfl, ?_⟩
        by_cases hlen : n + 1 < s.theInsns.length
        · rw [applyToNext, if_pos hlen]
          have hw : s.theInsns[n + 1]? = some s.theInsns[n + 1] := List.getElem?_eq_getElem hlen
          obtain ⟨q, hq, heq⟩ := applyAll_eq (x.interactions result t) hw
          rw [heq]
          refine ⟨h.change ⟨hw, Nat.le_succ_of_le hn, interactAll_same _,
            fun hlinked => hlinked.interactAll _, fun i v hi hv hfollows => ?_,
            fun heq => absurd hn (by omega)⟩ hq, ?_, rfl⟩
          · cases Nat.succ.inj hi
            cases Option.some.inj (hv.symm.trans hx)
            exact hfollows.interactions result t
          · exact (List.getElem?_set_ne (Nat.succ_ne_self n)).trans hx
        · rw [applyToNext_last _ (Nat.not_lt.mp hlen)]
          have hlast : s.theInsns.getLast? = some x := by
            have := (List.getElem?_eq_some_iff.mp hx).1
            exact getLast?_iff.mpr ⟨n, by omega, hx⟩
          exact ⟨h.defer hlast result t, hx, rfl⟩
      -- what it does to itself
      dsimp only
      rw [hu]
      exact hflows.change ⟨hux, hret ▸ hn, evaluated_same result,
        fun hlinked => hlinked.evaluated result,
        fun _ _ _ _ hfollows => hfollows.evaluated result,
        fun _ hu => hu.evaluated result⟩ (Or.inl ⟨evaluated_theSuccessor result, rfl⟩)
    · exact h
  · exact h

/-! ### Instructions are dispatched -/

theorem getElem?_concat_cases {α : Type*} {l : List α} {i : ℕ} {y z : α}
    (h : (l ++ [y])[i]? = some z) : (i < l.length ∧ l[i]? = some z) ∨ (i = l.length ∧ z = y) := by
  by_cases hi : i < l.length
  · rw [List.getElem?_append_left hi] at h
    exact Or.inl ⟨hi, h⟩
  · rw [List.getElem?_append_right (Nat.not_lt.mp hi), List.getElem?_singleton] at h
    split at h
    · exact Or.inr ⟨by omega, (Option.some.inj h).symm⟩
    · cases h

theorem getElem?_concat_of_lt {α : Type*} {l : List α} {i : ℕ} {y z : α} (hi : i < l.length)
    (h : (l ++ [y])[i]? = some z) : l[i]? = some z := by
  rcases getElem?_concat_cases h with ⟨-, h⟩ | ⟨hlen, -⟩
  · exact h
  · exact absurd hlen (Nat.ne_of_lt hi)

/-- An instruction that is dispatched has not raised an exception. -/
theorem Flows.raised_concat (h : s.Flows) (hy : y.theRaised = false) (i : ℕ) (z : FlowInsn)
    (hi : s.theRetired ≤ i) (hz : (s.theInsns ++ [y])[i]? = some z) : z.theRaised = false := by
  rcases getElem?_concat_cases hz with ⟨-, hz⟩ | ⟨-, rfl⟩
  · exact h.raised i z hi hz
  · exact hy

theorem Flows.rests_concat (h : s.Flows) {k i : ℕ} {z : FlowInsn} (hi : i < s.theRetired)
    (hz : (s.theInsns ++ [y])[i]? = some z) (hann : z.theAnnulled = true)
    (hresync : z.theResync = false) (hk : ∀ j, j < s.theInsns.length → j < k → j < s.kept)
    (hy : i + 1 = s.theInsns.length → s.theInsns.length < k → s.theInsns.getLast? = some z →
      y.Untouched) : Rests k (s.theInsns ++ [y]) i z := by
  have hlen : i < s.theInsns.length :=
    Nat.lt_of_lt_of_le hi (Nat.le_trans h.retired_le h.kept_le)
  have hold := getElem?_concat_of_lt hlen hz
  have hz' := h.rests i z hi hold hann hresync
  refine { hz' with next := fun w hw hget => ?_ }
  rcases getElem?_concat_cases hget with ⟨hlt, hget⟩ | ⟨hi', rfl⟩
  · exact hz'.next w (hk _ hlt hw) hget
  · exact hy hi' (hi' ▸ hw) (getLast?_iff.mpr ⟨i, hi', hold⟩)

/-- **An instruction is dispatched that is going to be squashed.** Nothing is said of it. -/
theorem Flows.concat_of_squash (h : s.Flows) {p : Squash} (hs : s.theSquash = some p)
    (hy : y.theRaised = false) (aPC aNPC : BitVec 64) (l : List Interaction) :
    Flows
      { thePC := aPC
        theNextPC := aNPC
        theInsns := s.theInsns ++ [y]
        theRetired := s.theRetired
        theDispatchInteractions := l
        thePreserveInteractions := s.thePreserveInteractions
        theSquash := some p } := by
  have hkept : s.kept = p.theKept := by rw [kept, hs]
  have hle : p.theKept ≤ s.theInsns.length := hkept ▸ h.kept_le
  have hret : s.theRetired ≤ p.theKept := hkept ▸ h.retired_le
  refine ⟨hret, ?_, fun i z hi hz => ?_, fun i v w hi hv hw => ?_, nofun,
    fun q hq i v hi hv => ?_, fun hall => ?_, fun hp => ?_, h.raised_concat hy,
    fun i z hi hz hann hresync => h.rests_concat hi hz hann hresync
      (fun j _ hj => Nat.lt_of_lt_of_eq hj hkept.symm)
      fun _ hlt => absurd hle (Nat.not_le.mpr hlt)⟩
  · show p.theKept ≤ (s.theInsns ++ [y]).length
    rw [length_append]
    exact Nat.le_add_right_of_le hle
  · have hi' : i < p.theKept := hi
    exact h.linked i z (hkept ▸ hi) (getElem?_concat_of_lt (by omega) hz)
  · have hi' : i + 1 < p.theKept := hi
    exact h.follows i v w (hkept ▸ hi) (getElem?_concat_of_lt (by omega) hv)
      (getElem?_concat_of_lt (by omega) hw)
  · cases hq
    exact h.redirects p hs i v hi (getElem?_concat_of_lt (by omega) hv)
  · have hall' : p.theKept = (s.theInsns ++ [y]).length := hall
    rw [length_append, length_singleton] at hall'
    omega
  · obtain ⟨hk, -, hretry⟩ := h.preserves hp
    refine ⟨hkept.symm.trans hk, nofun, fun i v hi hv => hretry i v hi ?_⟩
    have hi' : i + 1 = s.theRetired := hi
    exact getElem?_concat_of_lt (by omega) hv

/-- **An instruction is dispatched where fetch is to be.** It is kept, whether or not it sends fetch
elsewhere. -/
theorem Flows.concat (h : s.Flows) (hs : s.theSquash = none)
    (hq : (q = none ∧ y.theSuccessor = x.theSuccessor) ∨
      q = some ⟨s.theInsns.length + 1, y.theSuccessor⟩) (hlinked : y.Linked)
    (hy : y.theRaised = false) {aPC aNPC : BitVec 64} {l : List Interaction}
    (hfollows : ∀ v, s.theInsns.getLast? = some v → Follows v y)
    (huntouched : ∀ d, s.theInsns.getLast? = some d → s.theRetired = s.theInsns.length →
      d.theAnnulled = true → d.theResync = false → y.Untouched)
    (hprecedes : y.theSuccessor = x.theSuccessor → y.Precedes aPC aNPC) (hdefers : y.Defers l) :
    Flows
      { thePC := aPC
        theNextPC := aNPC
        theInsns := s.theInsns ++ [y]
        theRetired := s.theRetired
        theDispatchInteractions := l
        thePreserveInteractions := s.thePreserveInteractions
        theSquash := q } := by
  have hkept : s.kept = s.theInsns.length := by rw [kept, hs]
  have hret : s.theRetired ≤ s.theInsns.length := Nat.le_trans h.retired_le h.kept_le
  have hlast : ∀ v, (s.theInsns ++ [y]).getLast? = some v → v = y := by
    intro v hv
    rw [getLast?_append, getLast?_singleton] at hv
    exact (Option.some.inj hv).symm
  have hlen : (s.theInsns ++ [y]).length = s.theInsns.length + 1 := by
    rw [length_append, length_singleton]
  have hk : FlowCore.kept
      { thePC := aPC
        theNextPC := aNPC
        theInsns := s.theInsns ++ [y]
        theRetired := s.theRetired
        theDispatchInteractions := l
        thePreserveInteractions := s.thePreserveInteractions
        theSquash := q } = s.theInsns.length + 1 := by
    rw [kept]
    rcases hq with ⟨rfl, -⟩ | rfl
    · exact hlen
    · rfl
  refine ⟨?_, ?_, fun i z hi hz => ?_, fun i v w hi hv hw => ?_, fun hnone v hv => ?_,
    fun q' hsome i v hi hv => ?_, fun _ v hv => ?_, fun hp => ?_, h.raised_concat hy,
    fun i z hi hz hann hresync => h.rests_concat hi hz hann hresync (fun j hj _ => hkept ▸ hj)
      fun hlast' _ hget => huntouched z hget ?_ hann hresync⟩
  · rw [hk]
    exact Nat.le_succ_of_le hret
  · rw [hk]
    exact Nat.le_of_eq hlen.symm
  · rw [hk] at hi
    rcases getElem?_concat_cases hz with ⟨hi', hz⟩ | ⟨-, rfl⟩
    · exact h.linked i z (hkept ▸ hi') hz
    · exact hlinked
  · -- the new one follows the last one
    rw [hk] at hi
    have hv' : s.theInsns[i]? = some v := getElem?_concat_of_lt (by omega) hv
    rcases getElem?_concat_cases hw with ⟨hi', hw⟩ | ⟨hi', rfl⟩
    · exact h.follows i v w (hkept ▸ hi') hv' hw
    · exact hfollows v (getLast?_iff.mpr ⟨i, hi', hv'⟩)
  · -- fetch goes on after it, unless it sends fetch elsewhere
    rw [hlast v hv]
    rcases hq with ⟨-, hsucc⟩ | rfl
    · exact hprecedes hsucc
    · cases hnone
  · rcases hq with ⟨rfl, -⟩ | rfl
    · cases hsome
    · cases hsome
      rcases getElem?_concat_cases hv with ⟨hi', -⟩ | ⟨-, rfl⟩
      · exact absurd (Nat.succ.inj hi) (Nat.ne_of_lt hi')
      · rfl
  · rw [hlast v hv]
    exact hdefers
  · exact absurd hs (h.preserves hp).2.1
  · have hi' : i < s.theRetired := hi
    omega

variable {thePrediction : Option (BitVec 64)}

/-- **An instruction is dispatched** that was fetched where fetch is, or is going to be squashed. -/
theorem Flows.dispatchUop (h : s.Flows) (hx : x.Fetched s.thePC s.theNextPC)
    (hpred : x.predicted = thePrediction.isSome)
    (hmicro : x.isMicroOp = true → s.theSquash = none → ∀ v, s.theInsns.getLast? = some v →
      v.lastUop = false)
    (hspares : s.theSquash = none → s.theRetired = s.theInsns.length → ∀ d,
      s.theInsns.getLast? = some d → d.lingers = true →
        (x.redirected.interactAll s.theDispatchInteractions).Untouched) :
    (s.dispatchUop thePrediction x).Flows := by
  obtain ⟨q, hq, heq⟩ := dispatchUop_eq (s := s) thePrediction x
  rw [heq]
  obtain ⟨y, hy⟩ : ∃ y, y = x.redirected.interactAll s.theDispatchInteractions := ⟨_, rfl⟩
  rw [← hy] at hq ⊢
  have hsame : Same x y := hy ▸ (redirected_same x).trans (interactAll_same _)
  have hraised : y.theRaised = false := hsame.raised.trans hx.raised
  cases hs : s.theSquash with
  | some p =>
    -- what comes after a squash is squashed with it
    have hle : p.theKept ≤ s.theInsns.length := by
      have hle := h.kept_le
      rw [kept, hs] at hle
      exact hle
    have hqp : q = some p := by
      rcases hq with ⟨-, rfl⟩ | rfl
      · exact hs
      · rw [Squash.request, hs]
        exact if_neg (by simpa using Nat.lt_succ_of_le hle)
    rw [hqp]
    exact h.concat_of_squash hs hraised _ _ _
  | none =>
    have hkept : s.kept = s.theInsns.length := by rw [kept, hs]
    have hq' : (q = none ∧ y.theSuccessor = x.theSuccessor) ∨
        q = some ⟨s.theInsns.length + 1, y.theSuccessor⟩ := by
      rcases hq with ⟨hsucc, rfl⟩ | rfl
      · exact Or.inl ⟨hs, hsucc⟩
      · rw [Squash.request, hs]
        exact Or.inr rfl
    have hlinked : y.Linked := by
      rw [hy]
      exact (hx.linked.change (redirected_same x) (redirected_theSuccessor x)).interactAll _
    have hfollows : ∀ v, s.theInsns.getLast? = some v → Follows v y := by
      intro v hlast
      rw [hy]
      exact (h.precedes hs v hlast).dispatched (h.defers hkept v hlast) hx
        fun hm => hmicro hm hs v hlast
    refine h.concat hs hq' hlinked hraised hfollows (fun d hlast hall hann hresync => ?_)
      (fun hsucc => ?_) ((dispatchInteractions_defers x).left hsame)
    · cases hquiet : d.isQuiet with
      | true => exact (hfollows d hlast).untouched hquiet
      | false =>
        rw [hy]
        exact hspares hs hall d hlast (by rw [lingers, hann, hresync, hquiet]; rfl)
    · refine hx.precedes hsame hsucc ?_ fun huop hp => ?_
      · rw [fetchedFor]
        split <;> rfl
      · rw [hpred, Option.isSome_eq_false_iff, Option.isNone_iff_eq_none] at hp
        rw [fetchedFor, if_pos huop, hp]
        rfl

theorem of_isBlock {f : FetchedOpcode} (h : isBlock f.theOpcode = true) :
    Transfer.of f = .other := by
  have hop : opOf f.theOpcode = 3 := (of_decide_eq_true h).1
  have hdecode : decode f = .format_3 := by
    rw [decode]
    simp [hop]
  rw [Transfer.of, hdecode]
  simp [hop]

theorem create_fetched {f : FetchedOpcode} {theNextPC : BitVec 64}
    {predicted theResync micro last : Bool} (h : last = false → isBlock f.theOpcode = true) :
    (create f theNextPC predicted theResync micro last).Fetched f.thePC theNextPC :=
  ⟨rfl, fun hne => if_neg hne, rfl, rfl, rfl, fun hlast => of_isBlock (h hlast)⟩

/-- **Some of the micro-ops of an instruction have been dispatched**, and there are others. -/
structure Decoding (s : FlowCore) (f : FetchedOpcode) (theNextPC : BitVec 64) : Prop where
  flows : s.Flows
  pc : s.thePC = f.thePC
  nextPC : s.theNextPC = theNextPC
  last : s.theSquash = none → ∀ v, s.theInsns.getLast? = some v → v.lastUop = false

/-- What is annulled and has retired is no micro-op that others come after. -/
theorem Decoding.spares {f : FetchedOpcode} {theNextPC : BitVec 64} (h : s.Decoding f theNextPC)
    {P : Prop} (hs : s.theSquash = none) (hall : s.theRetired = s.theInsns.length) (d : FlowInsn)
    (hd : s.theInsns.getLast? = some d) (hl : d.lingers = true) : P := by
  obtain ⟨i, hi, hget⟩ := getLast?_iff.mp hd
  obtain ⟨hann, hresync⟩ := lingers_iff.mp hl
  have hlast := (h.flows.rests i d (by omega) hget hann hresync.1).lastUop
  rw [h.last hs d hd] at hlast
  cases hlast

variable {f : FetchedOpcode} {theNextPC : BitVec 64} {theResync : Bool}

/-- A micro-op is dispatched that is not the last. Fetch stays where it is. -/
theorem Flows.decoding (h : s.Flows) (hpc : s.thePC = f.thePC) (hnextPC : s.theNextPC = theNextPC)
    (hblock : isBlock f.theOpcode = true) (thePrediction : Option (BitVec 64)) (theResync : Bool)
    {micro : Bool} (hmicro : micro = true → s.theSquash = none → ∀ v, s.theInsns.getLast? = some v →
      v.lastUop = false)
    (hspares : s.theSquash = none → s.theRetired = s.theInsns.length → ∀ d,
      s.theInsns.getLast? = some d → d.lingers = true →
        ((create f theNextPC thePrediction.isSome theResync micro false).redirected.interactAll
          s.theDispatchInteractions).Untouched) :
    (s.dispatchUop thePrediction
      (create f theNextPC thePrediction.isSome theResync micro false)).Decoding f theNextPC := by
  have hfetched : (create f theNextPC thePrediction.isSome theResync micro false).Fetched
      s.thePC s.theNextPC := by
    rw [hpc, hnextPC]
    exact create_fetched fun _ => hblock
  have hflows := h.dispatchUop hfetched rfl hmicro hspares
  obtain ⟨q, -, heq⟩ := dispatchUop_eq (s := s) thePrediction
    (create f theNextPC thePrediction.isSome theResync micro false)
  refine ⟨hflows, ?_, ?_, fun _ v hv => ?_⟩
  · rw [heq]
    exact hpc
  · rw [heq]
    exact hnextPC
  · rw [heq] at hv
    dsimp only at hv
    rw [getLast?_append, getLast?_singleton] at hv
    rw [← Option.some.inj hv]
    exact ((redirected_same _).trans (interactAll_same _)).lastUop

theorem Decoding.replicate (h : s.Decoding f theNextPC) (hblock : isBlock f.theOpcode = true)
    (thePrediction : Option (BitVec 64)) (theResync : Bool) (k : ℕ) :
    ((List.replicate k (true, false)).foldl (fun s u => s.dispatchUop thePrediction
      (create f theNextPC thePrediction.isSome theResync u.1 u.2)) s).Decoding f theNextPC := by
  induction k generalizing s with
  | zero => exact h
  | succ k ih =>
    exact ih (h.flows.decoding h.pc h.nextPC hblock thePrediction theResync (fun _ => h.last)
      h.spares)

theorem Decoding.finish (h : s.Decoding f theNextPC) (thePrediction : Option (BitVec 64))
    (theResync : Bool) : (s.dispatchUop thePrediction
      (create f theNextPC thePrediction.isSome theResync true true)).Flows := by
  refine h.flows.dispatchUop ?_ rfl (fun _ => h.last) h.spares
  rw [h.pc, h.nextPC]
  exact create_fetched fun hl => absurd hl.symm Bool.false_ne_true

/-- **An instruction is dispatched**, in one micro-op or in eight. -/
theorem Flows.dispatch (h : s.Flows) (theOpcode : BitVec 32)
    (thePrediction : Option (BitVec 64)) (theResync : Bool)
    (hcond : s.IgnoresAnnulled (.dispatch theOpcode thePrediction theResync)) :
    (s.dispatch theOpcode thePrediction theResync).Flows := by
  have hspares : s.theSquash = none → s.theRetired = s.theInsns.length → ∀ d,
      s.theInsns.getLast? = some d → d.lingers = true →
        (s.dispatched theOpcode thePrediction theResync).Untouched :=
    fun hs hall d hd hl => (hcond hs hall d hd hl).untouched
  rw [dispatched] at hspares
  rw [FlowCore.dispatch, uops]
  by_cases hblock : isBlock theOpcode = true
  · simp only [if_pos hblock, cons_append, foldl_append, foldl_cons, foldl_nil]
    rw [hblock] at hspares
    have hfirst := h.decoding (f := ⟨s.thePC, theOpcode⟩) rfl rfl hblock thePrediction theResync
      (fun hm => absurd hm Bool.false_ne_true) hspares
    have hmid := hfirst.replicate hblock thePrediction theResync 6
    exact hmid.finish thePrediction theResync
  · rw [if_neg hblock]
    rw [Bool.eq_false_iff.mpr hblock] at hspares
    refine h.dispatchUop (create_fetched fun hl => absurd hl.symm Bool.false_ne_true) rfl
      (fun hm => absurd hm Bool.false_ne_true) hspares

/-! ### Instructions retire -/

theorem head?_eq (hx : s.head? = some x) :
    s.theInsns[s.theRetired]? = some x ∧ s.theRetired < s.kept := by
  rw [head?] at hx
  rw [kept]
  cases hs : s.theSquash with
  | some q =>
    rw [hs] at hx
    dsimp only at hx ⊢
    split at hx
    · rename_i hlt
      exact ⟨hx, hlt⟩
    · cases hx
  | none =>
    rw [hs] at hx
    exact ⟨hx, (List.getElem?_eq_some_iff.mp hx).1⟩

/-- **The oldest instruction retires.** -/
theorem Flows.succ_retired (h : s.Flows) (hx : s.theInsns[s.theRetired]? = some x)
    (hk : s.theRetired < s.kept)
    (hrests : x.theAnnulled = true → x.theResync = false →
      Rests s.kept s.theInsns s.theRetired x) :
    Flows { s with theRetired := s.theRetired + 1 } := by
  refine ⟨hk, h.kept_le, h.linked, h.follows, h.precedes, h.redirects, h.defers, fun hp => ?_,
    fun i z hi hz => h.raised i z (Nat.le_of_succ_le hi) hz, fun i z hi hz hann hresync => ?_⟩
  · exact absurd hk (by rw [(h.preserves hp).1]; exact Nat.lt_irrefl _)
  · rcases Nat.lt_succ_iff_lt_or_eq.mp hi with hi | rfl
    · exact h.rests i z hi hz hann hresync
    · cases Option.some.inj (hz.symm.trans hx)
      exact hrests hann hresync

/-- RETRY keeps what waits, for the instruction that it goes to. -/
theorem Flows.preserve (h : s.Flows) (hk : s.kept = s.theRetired) (hs : s.theSquash ≠ none)
    (hretry : ∀ i v, i + 1 = s.theRetired → s.theInsns[i]? = some v → ∃ r, v.theTransfer = .retry r)
    (l : List Interaction) :
    Flows { s with thePreserveInteractions := true, theDispatchInteractions := l } := by
  refine ⟨h.retired_le, h.kept_le, h.linked, h.follows, h.precedes, h.redirects,
    fun hall v hv => ?_, fun _ => ⟨hk, hs, hretry⟩, h.raised, h.rests⟩
  have hall' : s.kept = s.theInsns.length := hall
  obtain ⟨i, hi, hget⟩ := getLast?_iff.mp hv
  obtain ⟨r, hr⟩ := hretry i v (by rw [← hk, hall']; exact hi) hget
  exact Defers.of_retry hr l

/-- A change of the reorder buffer leaves what is kept, or keeps what has retired and it. -/
theorem lt_kept_of_moved {n : ℕ} (hn : n < s.kept) (hle : s.kept ≤ s.theInsns.length)
    (hq : Squash.Moved s.theSquash n x y q) :
    n < FlowCore.kept { s with theInsns := s.theInsns.set n y, theSquash := q } ∧
      FlowCore.kept { s with theInsns := s.theInsns.set n y, theSquash := q } ≤ s.kept := by
  rcases moved_cases hq (Nat.lt_of_lt_of_le hn hle) with ⟨rfl, -⟩ | ⟨-, rfl⟩
  · have hkept := kept_set s n y
    exact ⟨Nat.lt_of_lt_of_eq hn hkept.symm, Nat.le_of_eq hkept⟩
  · exact ⟨Nat.lt_succ_self n, hn⟩

theorem request_of_lt {n : ℕ} (hn : n < s.kept) (t : BitVec 64) :
    Squash.request s.theSquash n t = some ⟨n + 1, t⟩ := by
  rw [kept] at hn
  rw [Squash.request]
  cases hs : s.theSquash with
  | none => rfl
  | some q =>
    rw [hs] at hn
    exact if_pos (decide_eq_true (Nat.succ_le_of_lt hn))

theorem redirectNPC_theAnnulled (t : BitVec 64) :
    (x.redirectNPC t).theAnnulled = x.theAnnulled ∧ (x.redirectNPC t).theResync = x.theResync := by
  rw [FlowInsn.redirectNPC]
  split <;> exact ⟨rfl, rfl⟩

/-- **DONE or RETRY retires.** If it keeps what waits, it squashes what comes after it. -/
theorem Flows.returnFromTrap (h : s.Flows) (hx : s.theInsns[s.theRetired]? = some x)
    (hk : s.theRetired < s.kept) {isRetry : Bool} (ht : x.theTransfer = .retry isRetry)
    {aTPC aTNPC : BitVec 64} (hspares : x.lingers = true → s.Spares x aTPC aTNPC)
    (hredirects : x.theTransfer = .retry true → aTNPC ≠ aTPC + 4 → aTPC ≠ x.theNPC) :
    Flows { s.returnFromTrap x isRetry aTPC aTNPC with theRetired := s.theRetired + 1 } := by
  obtain ⟨t, htarget⟩ : ∃ t, t = if isRetry then aTPC else aTNPC := ⟨_, rfl⟩
  have hlen : s.theRetired < s.theInsns.length := Nat.lt_of_lt_of_le hk h.kept_le
  have hlinked := h.linked _ x hk hx
  have hsame := redirectNPC_same (x := x) t
  obtain ⟨hann, hresync⟩ := redirectNPC_theAnnulled (x := x) t
  have hretired : ∀ q, Squash.Moved s.theSquash s.theRetired x (x.redirectNPC t) q →
      Flows { s with
        theInsns := s.theInsns.set s.theRetired (x.redirectNPC t)
        theSquash := q
        theRetired := s.theRetired + 1 } := by
    intro q hq
    have hflows := h.change ⟨hx, Nat.le_refl _, hsame,
      fun hl => hl.change hsame (redirectNPC_theSuccessor t),
      fun i v _ _ hfollows => hfollows.redirectNPC hlinked ht t,
      fun _ hu => hu.redirectNPC hlinked ht t⟩ hq
    obtain ⟨hkept, hle⟩ := lt_kept_of_moved hk h.kept_le hq
    refine hflows.succ_retired (List.getElem?_set_self hlen) hkept fun hann' hresync' => ?_
    rw [hann] at hann'
    rw [hresync] at hresync'
    have hquiet : x.isQuiet = false := by
      rw [FlowInsn.isQuiet, ht]
      rfl
    obtain ⟨hlast, hleads, hnext⟩ := hspares (lingers_iff.mpr ⟨hann', hresync', hquiet⟩)
    have hraised := h.raised _ x (Nat.le_refl _) hx
    refine ⟨hsame.raised.trans hraised, hsame.lastUop.trans hlast, fun _ => ?_, fun w hw hget => ?_⟩
    · have hreturns : t = x.thePC + 4 := by
        rw [htarget, ← hleads (by rw [readdresses, ht]), leadsTo, ht]
      have hsucc := (hlinked.change hsame (redirectNPC_theSuccessor t)).next
        (hsame.lastUop.trans hlast) (by rw [hsame.transfer, ht]; rfl) (hsame.raised.trans hraised)
      rw [hsucc, redirectNPC_theNPC, hsame.pc, hreturns]
    · rw [List.getElem?_set_ne (Nat.succ_ne_self _).symm] at hget
      exact (hnext (Nat.lt_of_lt_of_le hw hle) w hget).untouched
  rw [FlowCore.returnFromTrap]
  by_cases hdefers : isRetry = true ∧ aTNPC ≠ aTPC + 4
  · -- RETRY to a TNPC that is no successor: what comes after it is squashed
    rw [if_pos hdefers]
    obtain ⟨rfl, htnpc⟩ := hdefers
    have hne : (x.redirectNPC t).theNPC ≠ x.theNPC := by
      rw [redirectNPC_theNPC, htarget, if_pos rfl]
      exact hredirects ht htnpc
    have hsucc : (x.redirectNPC t).theSuccessor = (x.redirectNPC t).theNPC := by
      rcases redirectNPC_theSuccessor (x := x) t with ⟨heq, -⟩ | ⟨-, hsucc⟩
      · exact absurd heq hne
      · exact hsucc
    have hrequest := request_of_lt hk (x.redirectNPC t).theNPC
    have hflows := hretired (some ⟨s.theRetired + 1, (x.redirectNPC t).theNPC⟩)
      (Or.inr (by rw [hsucc, hrequest]))
    have hpreserve := hflows.preserve rfl (Option.some_ne_none _) (fun i v hi hv => ?_)
      (s.theDispatchInteractions ++ [.branch aTNPC])
    · rw [← htarget]
      dsimp only
      rw [replace, if_neg hne, squashAfter]
      dsimp only
      rw [hrequest]
      exact hpreserve
    · have hir : i = s.theRetired := Nat.succ.inj hi
      rcases getElem?_set_cases hv with ⟨-, rfl⟩ | ⟨hi', -⟩
      · exact ⟨true, hsame.transfer.trans ht⟩
      · exact absurd hir hi'
  · rw [if_neg hdefers]
    obtain ⟨q, hq, heq⟩ := replace_eq (s := s) (n := s.theRetired)
      (redirectNPC_theSuccessor (x := x) t)
    dsimp only
    rw [← htarget, heq]
    exact hretired q hq

theorem Flows.retire (h : s.Flows) (aTPC aTNPC : BitVec 64)
    (hcond : s.IgnoresAnnulled (.retire aTPC aTNPC)) : (s.retire aTPC aTNPC).Flows := by
  rw [FlowCore.retire]
  split
  · rename_i x hhead
    obtain ⟨hx, hk⟩ := head?_eq hhead
    obtain ⟨hspares, hredirects⟩ := hcond x hhead
    dsimp only
    split
    · rename_i isRetry ht
      rw [returnFromTrap_theRetired]
      exact h.returnFromTrap hx hk ht hspares hredirects
    · rename_i hnot
      refine h.succ_retired hx hk fun hann hresync => ?_
      have hraised := h.raised _ x (Nat.le_refl _) hx
      cases hquiet : x.isQuiet with
      | true =>
        obtain ⟨hother, -, -, hlast⟩ := isQuiet_iff.mp hquiet
        refine ⟨hraised, hlast, fun hread => ?_, fun w hw hget => ?_⟩
        · rw [readdresses_of_other hother] at hread
          cases hread
        · exact (h.follows _ x w hw hx hget).untouched hquiet
      | false =>
        obtain ⟨hlast, hleads, hnext⟩ := hspares (lingers_iff.mpr ⟨hann, hresync, hquiet⟩)
        refine ⟨hraised, hlast, fun hread => ?_, fun w hw hget => (hnext hw w hget).untouched⟩
        have hleads' : x.leadsTo aTPC aTNPC = x.theSuccessor := by
          rw [leadsTo]
          split
          · rename_i ht
            exact absurd ht (hnot _)
          · rfl
        rw [← hleads', hleads hread]
  · exact h

/-! ### Execution goes elsewhere -/

theorem getElem?_take_cases {α : Type*} {l : List α} {n i : ℕ} {z : α}
    (h : (l.take n)[i]? = some z) : i < n ∧ l[i]? = some z := by
  rw [List.getElem?_take] at h
  split at h
  · rename_i hi
    exact ⟨hi, h⟩
  · cases h

/-- **Execution goes on elsewhere after an instruction**, and what comes after it is dropped. -/
theorem Flows.leave (h : s.Flows) {n : ℕ} (hx : s.theInsns[n]? = some x) (hn : n < s.kept)
    (hret : n ≤ s.theRetired) (hlinked : x.Linked → y.Linked)
    (hfollows : ∀ v, Follows v x → Follows v y)
    (huntouched : ∀ v, v.lastUop = true → Follows v x → x.Untouched → y.Untouched)
    (hann : y.theAnnulled = true → y.theResync = false → y.theRaised = false ∧ y.lastUop = true ∧
      (y.readdresses = true → y.theSuccessor = y.thePC + 4)) :
    Flows { FlowCore.start y.theSuccessor (y.theSuccessor + 4) with
      theInsns := s.theInsns.take n ++ [y]
      theRetired := n + 1 } := by
  have hlen : (s.theInsns.take n).length = n :=
    length_take_of_le (Nat.le_of_lt (Nat.lt_of_lt_of_le hn h.kept_le))
  have hcases : ∀ {i z}, (s.theInsns.take n ++ [y])[i]? = some z →
      (i < n ∧ s.theInsns[i]? = some z) ∨ (i = n ∧ z = y) := by
    intro i z hz
    rcases getElem?_concat_cases hz with ⟨-, hz⟩ | ⟨hi, rfl⟩
    · exact Or.inl (getElem?_take_cases hz)
    · exact Or.inr ⟨hi.trans hlen, rfl⟩
  have hkept : (s.theInsns.take n ++ [y]).length = n + 1 := by
    rw [length_append, hlen, length_singleton]
  have hlast : ∀ v, (s.theInsns.take n ++ [y]).getLast? = some v → v = y := by
    intro v hv
    rw [getLast?_append, getLast?_singleton] at hv
    exact (Option.some.inj hv).symm
  refine ⟨Nat.le_of_eq hkept.symm, Nat.le_refl _, fun i z _ hz => ?_, fun i v w _ hv hw => ?_,
    fun _ v hv => ?_, nofun, fun _ v hv => ?_, fun hp => absurd hp Bool.false_ne_true,
    fun i z hi hz => ?_, fun i z _ hz hza hzr => ?_⟩
  · rcases hcases hz with ⟨hi, hz⟩ | ⟨rfl, rfl⟩
    · exact h.linked i z (Nat.lt_trans hi hn) hz
    · exact hlinked (h.linked i x hn hx)
  · -- the pair in front of the last one is the only one that changes
    rcases hcases hv with ⟨-, hv'⟩ | ⟨rfl, rfl⟩
    · rcases hcases hw with ⟨hi', hw'⟩ | ⟨hi', rfl⟩
      · exact h.follows i v w (Nat.lt_trans hi' hn) hv' hw'
      · exact hfollows v (h.follows i v x (hi' ▸ hn) hv' (hi' ▸ hx))
    · rcases hcases hw with ⟨hi', -⟩ | ⟨hi', -⟩
      · exact absurd hi' (Nat.not_lt.mpr (Nat.le_succ _))
      · exact absurd hi' (Nat.succ_ne_self _)
  · rw [hlast v hv]
    exact Precedes.of_redirect y
  · exact Defers.nil v
  · have hi' : n + 1 ≤ i := hi
    rcases hcases hz with ⟨hin, -⟩ | ⟨hin, -⟩
    · omega
    · omega
  · rcases hcases hz with ⟨hi, hzi⟩ | ⟨rfl, rfl⟩
    · have hz' := h.rests i z (Nat.lt_of_lt_of_le hi hret) hzi hza hzr
      refine { hz' with next := fun w _ hw => ?_ }
      rcases hcases hw with ⟨hi', hw'⟩ | ⟨hi', rfl⟩
      · exact hz'.next w (Nat.lt_trans hi' hn) hw'
      · have hx' := hi' ▸ hx
        exact huntouched z hz'.lastUop (h.follows i z x (hi' ▸ hn) hzi hx')
          (hz'.next x (hi' ▸ hn) hx')
    · obtain ⟨hraised, hlastUop, hsucc⟩ := hann hza hzr
      refine ⟨hraised, hlastUop, hsucc, fun w hw => ?_⟩
      have hw' : i + 1 < (s.theInsns.take i ++ [z]).length := hw
      omega

theorem Flows.trap (h : s.Flows) (aVector : BitVec 64)
    (hcond : s.IgnoresAnnulled (.trap aVector)) :
    (s.trap aVector).Flows := by
  rw [FlowCore.trap]
  split
  · rename_i x hhead
    obtain ⟨hx, hk⟩ := head?_eq hhead
    have hpreserve : s.thePreserveInteractions = false := by
      cases hp : s.thePreserveInteractions with
      | false => rfl
      | true => exact absurd hk (by rw [(h.preserves hp).1]; exact Nat.lt_irrefl _)
    rw [hpreserve, if_neg Bool.false_ne_true]
    refine h.leave (y := { x with theRaised := true, theSuccessor := aVector }) hx hk
      (Nat.le_refl _) (fun hl => ⟨hl.uop, fun _ _ hraised => ?_⟩)
      (fun v hv => ⟨hv.pc, hv.micro, fun hquiet => (hv.untouched hquiet).raise aVector, hv.npc,
        hv.annulled⟩) (fun _ _ _ hu => hu.raise aVector) (fun hann hresync => ?_)
    · exact absurd hraised.symm Bool.false_ne_true
    · have hann' : x.theAnnulled = true := hann
      have hresync' : x.theResync = false := hresync
      rw [hcond x hhead hann'] at hresync'
      cases hresync'
  · exact h

/-- **The end of a cycle**: what is not kept is dropped. -/
theorem Flows.endCycle (h : s.Flows) : s.endCycle.Flows := by
  rw [FlowCore.endCycle]
  split
  · rename_i q hs
    have hkept : s.kept = q.theKept := by rw [kept, hs]
    have hle := h.kept_le
    have hret := h.retired_le
    rw [hkept] at hle hret
    have hlen : (s.theInsns.take q.theKept).length = q.theKept := length_take_of_le hle
    have htake : ∀ {i z}, (s.theInsns.take q.theKept)[i]? = some z →
        i < s.kept ∧ s.theInsns[i]? = some z := by
      intro i z hz
      rw [hkept]
      exact getElem?_take_cases hz
    refine ⟨Nat.le_trans hret (Nat.le_of_eq hlen.symm), Nat.le_refl _, fun i z _ hz => ?_,
      fun i v w _ hv hw => ?_, fun _ v hv => ?_, nofun, fun _ v hv => ?_,
      fun hp => absurd hp Bool.false_ne_true, fun i z hi hz => h.raised i z hi (htake hz).2,
      fun i z hi hz hann hresync => ?_⟩
    · exact h.linked i z (htake hz).1 (htake hz).2
    · exact h.follows i v w (htake hw).1 (htake hv).2 (htake hw).2
    · -- fetch has been sent to the successor of the last one
      obtain ⟨i, hi, hget⟩ := getLast?_iff.mp hv
      rw [← h.redirects q hs i v (hi.trans hlen) (htake hget).2]
      exact Precedes.of_redirect v
    · obtain ⟨i, hi, hget⟩ := getLast?_iff.mp hv
      have hi' := hi.trans hlen
      dsimp only
      split
      · exact Defers.nil v
      · rename_i hnot
        by_cases hp : s.thePreserveInteractions = true
        · obtain ⟨hk, -, hretry⟩ := h.preserves hp
          obtain ⟨r, hr⟩ := hretry i v (by omega) (htake hget).2
          exact Defers.of_retry hr _
        · have hp' : s.thePreserveInteractions = false := Bool.eq_false_iff.mpr hp
          -- nothing is in the reorder buffer
          have hall : s.theInsns.length ≤ s.theRetired :=
            Nat.not_lt.mp fun hlt => hnot ⟨hlt, hp'⟩
          exact h.defers (by omega) v (getLast?_iff.mpr ⟨i, by omega, (htake hget).2⟩)
    · have hz' := h.rests i z hi (htake hz).2 hann hresync
      exact { hz' with next := fun w _ hw => hz'.next w (htake hw).1 (htake hw).2 }
  · exact ⟨h.retired_le, h.kept_le, h.linked, h.follows, h.precedes, h.redirects, h.defers,
      fun hp => absurd hp Bool.false_ne_true, h.raised, h.rests⟩

/-- **Execution goes back to an instruction.** -/
theorem Flows.back (h : s.Flows) {n : ℕ} (hx : s.theInsns[n]? = some x) (hn : n < s.theRetired)
    (hother : x.theTransfer = .other) :
    Flows { FlowCore.start x.thePC x.theNPC with
      theInsns := s.theInsns.take n
      theRetired := n } := by
  have hk : n < s.kept := Nat.lt_of_lt_of_le hn h.retired_le
  have hlen : (s.theInsns.take n).length = n :=
    length_take_of_le (Nat.le_of_lt (Nat.lt_of_lt_of_le hk h.kept_le))
  refine ⟨Nat.le_of_eq hlen.symm, Nat.le_refl _, fun i z _ hz => ?_, fun i v w _ hv hw => ?_,
    fun _ v hv => ?_, nofun, fun _ v hv => Defers.nil v, fun hp => absurd hp Bool.false_ne_true,
    fun i z hi hz => ?_, fun i z _ hz hann hresync => ?_⟩
  · obtain ⟨hi, hz⟩ := getElem?_take_cases hz
    exact h.linked i z (Nat.lt_trans hi hk) hz
  · obtain ⟨hi, hw⟩ := getElem?_take_cases hw
    exact h.follows i v w (Nat.lt_trans hi hk) (getElem?_take_cases hv).2 hw
  · -- the last one that is left was followed by the one that is fetched again
    obtain ⟨i, hi, hget⟩ := getLast?_iff.mp hv
    obtain ⟨-, hget⟩ := getElem?_take_cases hget
    have hi' : i + 1 = n := hi.trans hlen
    have hvx := h.follows i v x (hi' ▸ hk) hget (hi' ▸ hx)
    refine ⟨hvx.pc, fun hquiet => hvx.npc hquiet hother, fun ht hp hpc => ?_⟩
    exact hvx.annulled (by rw [ht]; rfl) (readdresses_of_other hother) hpc (Or.inr ⟨ht, hp⟩)
  · exact absurd (getElem?_take_cases hz).1 (Nat.not_lt.mpr hi)
  · obtain ⟨hi, hz⟩ := getElem?_take_cases hz
    have hz' := h.rests i z (Nat.lt_trans hi hn) hz hann hresync
    refine { hz' with next := fun w _ hw => ?_ }
    obtain ⟨hi', hw⟩ := getElem?_take_cases hw
    exact hz'.next w (Nat.lt_trans hi' hk) hw

theorem Flows.rollback (h : s.Flows) (n : ℕ) : (s.rollback n).Flows := by
  rw [FlowCore.rollback]
  split
  · rename_i x hx
    split
    · rename_i hcond
      obtain ⟨hn, hother, hraised⟩ := hcond
      split
      · rename_i hskip
        -- it is annulled or a micro-op, and so the one before it did something
        have hnot : ∀ {P : Prop} (v : FlowInsn), v.lastUop = true → Follows v x → x.Untouched →
            P := by
          intro P v hlast hv hu
          rw [hu.annulled] at hskip
          rw [hv.micro hskip] at hlast
          cases hlast
        refine h.leave (y := { x with theSuccessor := x.theNPC }) hx
          (Nat.lt_of_lt_of_le hn h.retired_le) (Nat.le_of_lt hn)
          (fun hl => ⟨hl.uop, fun _ _ _ => rfl⟩)
          (fun v hv => ⟨hv.pc, hv.micro, fun hquiet => ?_, hv.npc, hv.annulled⟩)
          (fun v hlast hv hu => hnot v hlast hv hu) (fun hann hresync => ?_)
        · exact hnot v (isQuiet_iff.mp hquiet).2.2.2 hv (hv.untouched hquiet)
        · refine ⟨hraised, (h.rests n x hn hx hann hresync).lastUop, fun hread => ?_⟩
          have hread' : x.readdresses = true := hread
          rw [readdresses_of_other hother] at hread'
          cases hread'
      · exact h.back hx hn hother
    · exact h
  · exact h

/-- **Whatever happens in a core** keeps it so, unless an annulled instruction acts on the
control. -/
theorem Flows.step (h : s.Flows) (e : FlowEvent) (hcond : s.IgnoresAnnulled e) :
    (s.step e).Flows := by
  cases e with
  | dispatch theOpcode thePrediction theResync =>
    exact h.dispatch theOpcode thePrediction theResync hcond
  | evaluate n result anAddress => exact h.evaluate n result anAddress
  | retire aTPC aTNPC => exact h.retire aTPC aTNPC hcond
  | trap aVector => exact h.trap aVector hcond
  | endCycle => exact h.endCycle
  | rollback n => exact h.rollback n
  | resync aPC aNPC => exact Flows.start aPC aNPC

end FlowCore

/-! ### Runs -/

/-- A load, BN,A and BA,A. While the load misses, BA,A sends fetch to its target, and then all of
them retire. -/
def annulledBranch : List FlowEvent :=
  [.dispatch 0xC4004000 none false, .dispatch 0x20800000 none false,
    .dispatch 0x30800040 none false, .endCycle, .dispatch 0x01000000 none false, .retire 0 0,
    .retire 0 0, .retire 0 0, .retire 0 0]

/-- **The control goes to the target of the branch that is annulled.** -/
theorem annulledBranch_not_goesOn : ¬∀ es,
    (flowMachine 0 4).AlwaysFrom FlowCore.GoesOn (flowMachine 0 4).init es := by
  intro h
  have hrun : (flowMachine 0 4).run annulledBranch =
      .ok (annulledBranch.foldl FlowCore.step (.start 0 4)) := rfl
  obtain ⟨t, ht⟩ : ∃ t, t = annulledBranch.foldl FlowCore.step (.start 0 4) := ⟨_, rfl⟩
  have hgoes := (h annulledBranch).of_runFrom hrun
  have hpc := (hgoes (by decide) 1 _ _ ⟨rfl, rfl, by decide, rfl, rfl, rfl, rfl⟩ _ (by decide)
    rfl).1
  revert hpc
  decide

/-- BE,A that is not taken, twice: with a BNE in its delay slot that is not taken either, and has
been evaluated before it is annulled, and with an instruction that was predicted as a branch. The
second time both retire before the instruction after them is dispatched. -/
def annulledDelaySlot : List FlowEvent :=
  [.dispatch 0x22800040 none false, .dispatch 0x12800040 none false,
    .dispatch 0x01000000 none false, .dispatch 0x01000000 none false, .evaluate 1 false 0,
    .evaluate 0 false 0, .endCycle, .retire 0 0, .retire 0 0, .retire 0 0, .retire 0 0,
    .dispatch 0x22800040 none false, .dispatch 0x01000000 (some 0x200) false, .evaluate 4 false 0,
    .retire 0 0, .retire 0 0, .dispatch 0x01000000 none false, .endCycle,
    .dispatch 0x01000000 none false, .retire 0 0, .retire 0 0]

/-- **Where no annulled instruction acts on the control**, execution goes on after what is annulled:
in every run, whatever is annulled, with any predictions, and in whatever order instructions are
dispatched, evaluated and evaluated again. -/
theorem goesOn_of_ignoresAnnulled (aPC aNPC : BitVec 64) (es : List FlowEvent)
    (h : (flowMachine aPC aNPC).AllowedFrom FlowCore.IgnoresAnnulled (flowMachine aPC aNPC).init
      es) :
    (flowMachine aPC aNPC).AlwaysFrom FlowCore.GoesOn (flowMachine aPC aNPC).init es := by
  refine Lib.Machine.alwaysFrom_of_allowedFrom (I := FlowCore.Flows) (fun s e t hs hg ht => ?_)
    (fun s hs => hs.goesOn) (FlowCore.Flows.start aPC aNPC) h
  cases ht
  exact hs.step e hg

theorem annulledDelaySlot_goesOn :
    (flowMachine 0 4).AlwaysFrom FlowCore.GoesOn (flowMachine 0 4).init annulledDelaySlot :=
  goesOn_of_ignoresAnnulled 0 4 annulledDelaySlot
    (Lib.Machine.allowedFrom_of_passes (g := fun s e => decide (s.IgnoresAnnulled e))
      (fun _ _ h => of_decide_eq_true h) (by decide))

end Decoder

end Flexus
