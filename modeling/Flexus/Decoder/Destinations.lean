import Flexus.Decoder.Annulment

/-!
# The destinations of an instruction

What the functions that add destinations connect, whatever the order of their calls, and what holds
of a single destination whatever happens to it. A write-back has two sources and one ready bit: it
is ready only if one of them has signalled (`Flexus.Decoder.Destination.Sound.fed`). The other
direction does not hold in the middle of a reinstatement, and is left to the whole instruction.
-/

namespace Flexus

namespace Decoder

open UArch (RegisterBits PhysicalRegister)

/-! ### What the calls make -/

section Wiring

variable {π : Type} [DecidableEq π]

/-- **How the calls connect an instruction.** -/
structure Wired (inst : SemanticInstruction π) (calls : List (DestinationCall π)) : Prop where
  dependances : ∀ p d, d ∈ inst.theDependances p ↔ ∃ c ∈ calls, c.exec = p ∧ d ∈ c.results
  sublist : ∀ p, (inst.theDependances p).Sublist (calls.flatMap DestinationCall.results)
  annulments : ∀ e, e ∈ inst.theAnnulmentEffects ↔
    ∃ c ∈ calls, ∃ d ∈ c.results, e = .satisfy (.annul d) ∨ e = .squash (.exec c.exec)
  reinstatements : ∀ e, e ∈ inst.theReinstatementEffects ↔
    ∃ c ∈ calls, ∃ d ∈ c.results, e = .squash (.annul d) ∨ e = .satisfy (.exec c.exec)

variable {inst : SemanticInstruction π} {calls : List (DestinationCall π)}

/-- What a call adds to an instruction. -/
structure Adds (c : DestinationCall π) (inst inst' : SemanticInstruction π) : Prop where
  dependances : ∀ p, inst'.theDependances p =
    inst.theDependances p ++ if c.exec = p then c.results else []
  annulments : ∃ l, inst'.theAnnulmentEffects = inst.theAnnulmentEffects ++ l ∧
    ∀ e, e ∈ l ↔ ∃ d ∈ c.results, e = .satisfy (.annul d) ∨ e = .squash (.exec c.exec)
  reinstatements : ∃ l, inst'.theReinstatementEffects = inst.theReinstatementEffects ++ l ∧
    ∀ e, e ∈ l ↔ ∃ d ∈ c.results, e = .squash (.annul d) ∨ e = .satisfy (.exec c.exec)

theorem connect_theDependances (exec p : π) (d : ResultCode) :
    (inst.connect exec d).theDependances p =
      inst.theDependances p ++ if exec = p then [d] else [] := by
  rw [SemanticInstruction.connect]
  dsimp only
  by_cases h : exec = p
  · rw [if_pos h, h, Function.update_self]
  · rw [if_neg h, Function.update_of_ne (Ne.symm h), List.append_nil]

theorem adds_one {c : DestinationCall π} {d : ResultCode} (h : c.results = [d]) :
    Adds c inst ((inst.annulWith c.exec d).connect c.exec d) := by
  refine ⟨fun p => ?_, ⟨_, rfl, fun e => ?_⟩, ⟨_, rfl, fun e => ?_⟩⟩
  · rw [connect_theDependances, h]
    rfl
  · rw [h]
    simp
  · rw [h]
    simp

theorem adds_run (inst : SemanticInstruction π) (c : DestinationCall π) : Adds c inst (c.run inst) := by
  cases c with
  | addWriteback isCC p => exact adds_one rfl
  | addDestination rd p =>
    by_cases h : rd ≠ 0
    · have hrun : (DestinationCall.addDestination rd p).run inst =
          (inst.annulWith p .kResult).connect p .kResult := if_pos h
      rw [hrun]
      exact adds_one (if_pos h)
    · have hnone : (DestinationCall.addDestination rd p).results = [] := if_neg h
      have hrun : (DestinationCall.addDestination rd p).run inst = { inst with
          feedsRetirement := Function.update inst.feedsRetirement p true } := if_neg h
      rw [hrun]
      refine ⟨fun q => ?_, ⟨[], (List.append_nil _).symm, ?_⟩, ⟨[], (List.append_nil _).symm, ?_⟩⟩
      · rw [hnone, ite_self, List.append_nil]
      · rw [hnone]
        simp
      · rw [hnone]
        simp
  | addRD1Writeback p =>
    have hone : Adds (.addRD1Writeback p) inst
        ((inst.annulWith p .kResult1).connect p .kResult1) := adds_one rfl
    exact ⟨hone.dependances, hone.annulments, hone.reinstatements⟩
  | addFloatingWriteback p => exact adds_one rfl
  | addDoubleFloatingWriteback p =>
    refine ⟨fun q => ?_, ⟨_, rfl, fun e => ?_⟩, ⟨_, rfl, fun e => ?_⟩⟩
    · have hrun : (DestinationCall.addDoubleFloatingWriteback p).run inst =
          inst.addDoubleFloatingWriteback p := rfl
      rw [hrun, SemanticInstruction.addDoubleFloatingWriteback, connect_theDependances,
        connect_theDependances, List.append_assoc]
      by_cases h : p = q
      · subst h
        simp [DestinationCall.exec, DestinationCall.results]
      · simp [DestinationCall.exec, h]
    · simp [DestinationCall.results, DestinationCall.exec]
      tauto
    · simp [DestinationCall.results, DestinationCall.exec]
      tauto
  | addXTRA p => exact adds_one rfl

theorem Wired.run (h : Wired inst calls) (c : DestinationCall π) :
    Wired (c.run inst) (calls ++ [c]) := by
  obtain ⟨hdeps, ⟨la, hla, hma⟩, ⟨lr, hlr, hmr⟩⟩ := adds_run inst c
  refine ⟨fun p d => ?_, fun p => ?_, fun e => ?_, fun e => ?_⟩
  · rw [hdeps, List.mem_append, h.dependances]
    by_cases hp : c.exec = p
    · simp [hp, or_and_right, exists_or]
    · simp [hp, or_and_right, exists_or]
  · rw [hdeps, List.flatMap_append]
    refine (h.sublist p).append ?_
    by_cases hp : c.exec = p
    · simp [hp]
    · simp [hp]
  · rw [hla, List.mem_append, h.annulments, hma]
    simp [or_and_right, exists_or]
  · rw [hlr, List.mem_append, h.reinstatements, hmr]
    simp [or_and_right, exists_or]

theorem Wired.runs (h : Wired inst calls) (more : List (DestinationCall π)) :
    Wired (more.foldl DestinationCall.run inst) (calls ++ more) := by
  induction more generalizing inst calls with
  | nil =>
    rw [List.append_nil]
    exact h
  | cons c more ih =>
    have hrest := ih (h.run c)
    rwa [List.append_assoc] at hrest

end Wiring

/-! ### What holds of a destination -/

namespace Destination

/-- **What holds of a destination**, whether or not its producing action has signalled. -/
structure Sound (signalled : Bool) (x : Destination) : Prop where
  unary_annul : x.annul.Unary
  unary_writeback : x.writeback.Unary
  queued_annul : x.annul.Queued
  queued_writeback : x.writeback.Queued
  fed : x.writeback.ready = true → signalled = true ∨ x.annul.theSignalled = true
  pending_writeback : x.writeback.ready = true →
    x.writeback.theSignalled = true ∨ 0 < x.writeback.pending
  written : x.writeback.theSignalled = true → x.writeback.ready = true ∧
    x.writeback.theSquashed = false ∧ x.theRegister = ⟨.ready, x.theResult⟩
  retire : x.mayRetire = x.writeback.theSignalled
  annul_signalled : x.annul.theSignalled = true →
    x.annul.ready = true ∧ x.annul.thePredicate = true ∧ x.annul.theSquashed = false
  previous_ready : x.annul.ready = true →
    x.theMOVConnected = true ∧ x.thePrevious.theStatus = .ready
  ready_of_previous : x.theMOVConnected = true → x.thePrevious.theStatus = .ready →
    x.annul.ready = true
  pending_annul : x.annul.thePredicate = true → x.annul.theSignalled = true ∨
    0 < x.annul.pending ∨ (x.theMOVConnected = true ∧ x.thePrevious.theStatus ≠ .ready)

/-- What was copied from the previous register is what is there. -/
def Copied (x : Destination) : Prop :=
  x.annul.theSignalled = true → x.writeback.ready = true ∧ x.theResult = x.thePrevious.theReg

variable {x : Destination} {b b' : Bool}

namespace Sound

theorem not_ready (h : Sound b x) (hb : b = false) (ha : x.annul.theSignalled = false) :
    x.writeback.ready = false := by
  rw [Bool.eq_false_iff]
  intro hr
  rcases h.fed hr with hs | hs
  · rw [hb] at hs
    cases hs
  · rw [ha] at hs
    cases hs

theorem not_signalled (h : Sound b x) (hr : x.writeback.ready = false) :
    x.writeback.theSignalled = false := by
  rw [Bool.eq_false_iff]
  intro hs
  rw [(h.written hs).1] at hr
  cases hr

theorem annul_not_signalled (h : Sound b x) (hs : x.annul.theSquashed = true) :
    x.annul.theSignalled = false := by
  rw [Bool.eq_false_iff]
  intro ha
  rw [(h.annul_signalled ha).2.2] at hs
  cases hs

/-- Another result is harmless while nothing is written back. -/
theorem setResult (h : Sound b x) (hr : x.writeback.ready = false) (aValue : RegisterBits) :
    Sound b { x with theResult := aValue } := by
  refine { h with written := fun hs => ?_ }
  rw [h.not_signalled hr] at hs
  cases hs

end Sound

/-! ### The write-back -/

theorem squashWriteback_annul : x.squashWriteback.annul = x.annul := by
  rw [squashWriteback]
  dsimp only
  split <;> rfl

theorem squashWriteback_theMOVConnected :
    x.squashWriteback.theMOVConnected = x.theMOVConnected := by
  rw [squashWriteback]
  dsimp only
  split <;> rfl

theorem squashWriteback_thePrevious : x.squashWriteback.thePrevious = x.thePrevious := by
  rw [squashWriteback]
  dsimp only
  split <;> rfl

theorem squashWriteback_theReady :
    x.squashWriteback.writeback.theReady = (x.writeback.setReady 0 false).theReady := by
  rw [squashWriteback]
  dsimp only
  split <;> rfl

theorem squashWriteback_ready : x.squashWriteback.writeback.ready = false := by
  rw [SemanticAction.ready, squashWriteback_theReady]
  exact SemanticAction.ready_setReady_false

theorem squashWriteback_queue :
    x.squashWriteback.writeback.theScheduled = x.writeback.theScheduled ∧
      x.squashWriteback.writeback.pending = x.writeback.pending := by
  rw [squashWriteback]
  dsimp only
  split <;> exact ⟨rfl, rfl⟩

namespace Sound

theorem squashWriteback_signalled (h : Sound b x) :
    x.squashWriteback.writeback.theSignalled = false ∧ x.squashWriteback.mayRetire = false := by
  rw [squashWriteback]
  dsimp only
  split
  · rename_i hsq
    have hs : x.writeback.theSignalled = false := by
      rw [Bool.eq_false_iff]
      intro hs
      have hsq' : x.writeback.theSquashed = true := hsq
      rw [(h.written hs).2.1] at hsq'
      cases hsq'
    exact ⟨hs, h.retire.trans hs⟩
  · exact ⟨rfl, rfl⟩

theorem squashWriteback (h : Sound b x) : Sound b' x.squashWriteback := by
  obtain ⟨hs, hretire⟩ := h.squashWriteback_signalled
  obtain ⟨hsched, hpend⟩ := squashWriteback_queue (x := x)
  have hready := squashWriteback_ready (x := x)
  constructor
  · rw [squashWriteback_annul]
    exact h.unary_annul
  · intro j hj
    rw [squashWriteback_theReady]
    exact h.unary_writeback.setReady j hj
  · rw [squashWriteback_annul]
    exact h.queued_annul
  · rw [SemanticAction.Queued, hsched, hpend]
    exact h.queued_writeback
  · intro hr
    rw [hready] at hr
    cases hr
  · intro hr
    rw [hready] at hr
    cases hr
  · intro hs'
    rw [hs] at hs'
    cases hs'
  · rw [hs, hretire]
  · rw [squashWriteback_annul]
    exact h.annul_signalled
  · rw [squashWriteback_annul, squashWriteback_theMOVConnected, squashWriteback_thePrevious]
    exact h.previous_ready
  · rw [squashWriteback_annul, squashWriteback_theMOVConnected, squashWriteback_thePrevious]
    exact h.ready_of_previous
  · rw [squashWriteback_annul, squashWriteback_theMOVConnected, squashWriteback_thePrevious]
    exact h.pending_annul

theorem satisfyWriteback_ready (h : Sound b x) : x.satisfyWriteback.writeback.ready = true :=
  h.unary_writeback.satisfy_ready

/-- **The write-back is told of a result.** -/
theorem satisfyWriteback (h : Sound b x)
    (hb : b' = true ∨ x.annul.theSignalled = true) : Sound b' x.satisfyWriteback := by
  refine { h with
    unary_writeback := h.unary_writeback.satisfy
    queued_writeback := h.queued_writeback.satisfy
    fed := fun _ => hb
    pending_writeback := fun hnow => ?_
    written := fun hs => ?_
    retire := ?_ }
  · by_cases hr : x.writeback.ready = true
    · rcases h.pending_writeback hr with hs | hp
      · refine Or.inl ?_
        rw [Destination.satisfyWriteback, SemanticAction.satisfy_theSignalled]
        exact hs
      · exact Or.inr (hp.trans_le SemanticAction.le_satisfy_pending)
    · exact Or.inr (h.queued_writeback.satisfy_pending (Bool.eq_false_iff.mpr hr) hnow)
  · have hs' : x.writeback.theSignalled = true := by
      rw [Destination.satisfyWriteback, SemanticAction.satisfy_theSignalled] at hs
      exact hs
    exact ⟨h.satisfyWriteback_ready, SemanticAction.satisfy_theSquashed, (h.written hs').2.2⟩
  · rw [Destination.satisfyWriteback, SemanticAction.satisfy_theSignalled]
    exact h.retire

/-- **A write-back writes the register**, and the instruction may retire as far as it goes. -/
theorem evaluateWriteback (h : Sound b x) : Sound b x.evaluateWriteback := by
  have hready : x.writeback.take.ready = x.writeback.ready := rfl
  rw [Destination.evaluateWriteback]
  dsimp only
  by_cases hr : x.writeback.take.ready = true
  · rw [if_pos hr]
    by_cases hs : x.writeback.take.theSignalled = true
    · rw [if_pos hs]
      exact { h with
        unary_writeback := h.unary_writeback
        queued_writeback := fun hsched => nomatch hsched
        pending_writeback := fun _ => Or.inl hs
        written := fun _ => ⟨hr, (h.written hs).2.1, rfl⟩ }
    · rw [if_neg hs]
      exact { h with
        unary_writeback := h.unary_writeback
        queued_writeback := fun hsched => nomatch hsched
        pending_writeback := fun _ => Or.inl rfl
        written := fun _ => ⟨hr, rfl, rfl⟩
        retire := rfl }
  · rw [if_neg hr]
    refine { h with
      unary_writeback := h.unary_writeback
      queued_writeback := fun hsched => nomatch hsched
      pending_writeback := fun hr' => absurd hr' hr
      written := fun hs => ?_ }
    exact absurd (hready.trans (h.written hs).1) hr

end Sound

theorem evaluateWriteback_writeback_ready :
    x.evaluateWriteback.writeback.ready = x.writeback.ready := by
  rw [evaluateWriteback]
  dsimp only
  split
  · split <;> rfl
  · rfl

theorem evaluateWriteback_annul : x.evaluateWriteback.annul = x.annul := by
  rw [evaluateWriteback]
  dsimp only
  split
  · split <;> rfl
  · rfl

theorem evaluateWriteback_theResult : x.evaluateWriteback.theResult = x.theResult := by
  rw [evaluateWriteback]
  dsimp only
  split
  · split <;> rfl
  · rfl

theorem evaluateWriteback_thePrevious : x.evaluateWriteback.thePrevious = x.thePrevious := by
  rw [evaluateWriteback]
  dsimp only
  split
  · split <;> rfl
  · rfl

/-! ### The annulling action -/

/-- **Another annulling action that has not signalled**, and another previous register. -/
theorem Sound.replace (h : Sound b x)
    (hw : x.writeback.ready = false ∨ x.annul.theSignalled = false) {a : SemanticAction}
    {r : PhysicalRegister} (hunary : a.Unary) (hqueued : a.Queued) (hs : a.theSignalled = false)
    (hready : a.ready = true ↔ x.theMOVConnected = true ∧ r.theStatus = .ready)
    (hpend : a.thePredicate = true →
      0 < a.pending ∨ (x.theMOVConnected = true ∧ r.theStatus ≠ .ready)) :
    Sound b { x with annul := a, thePrevious := r } := by
  refine { h with
    unary_annul := hunary
    queued_annul := hqueued
    fed := fun hr => ?_
    annul_signalled := fun ha => ?_
    previous_ready := hready.mp
    ready_of_previous := fun hc hp => hready.mpr ⟨hc, hp⟩
    pending_annul := fun hp => Or.inr (hpend hp) }
  · have hr' : x.writeback.ready = true := hr
    rcases hw with hw | hw
    · rw [hw] at hr'
      cases hr'
    · rcases h.fed hr' with hb | ha
      · exact Or.inl hb
      · rw [hw] at ha
        cases ha
  · have ha' : a.theSignalled = true := ha
    rw [hs] at ha'
    cases ha'

theorem Sound.annul_ready_iff (h : Sound b x) :
    x.annul.ready = true ↔ x.theMOVConnected = true ∧ x.thePrevious.theStatus = .ready :=
  ⟨h.previous_ready, fun hp => h.ready_of_previous hp.1 hp.2⟩

/-- A squash of the write-back does not look at the annulling action. -/
theorem squashWriteback_with (a : SemanticAction) (r : PhysicalRegister) :
    squashWriteback { x with annul := a, thePrevious := r } =
      { x.squashWriteback with annul := a, thePrevious := r } := by
  rw [squashWriteback, squashWriteback]
  dsimp only
  split <;> rfl

/-- **The dependants of an annulling action are squashed** after its flags have changed. -/
theorem Sound.squashAnnulDependants_with (h : Sound b x) {a : SemanticAction}
    {r : PhysicalRegister} (hunary : a.Unary) (hqueued : a.Queued)
    (hsignalled : a.theSignalled = x.annul.theSignalled)
    (hsquashed : a.theSquashed = x.annul.theSquashed)
    (hready : a.ready = true ↔ x.theMOVConnected = true ∧ r.theStatus = .ready)
    (hpend : a.thePredicate = true →
      0 < a.pending ∨ (x.theMOVConnected = true ∧ r.theStatus ≠ .ready)) :
    Sound b (squashAnnulDependants { x with annul := a, thePrevious := r }) := by
  rw [squashAnnulDependants]
  dsimp only
  by_cases hsq : a.theSquashed = true
  · have hs : x.annul.theSignalled = false := h.annul_not_signalled (hsquashed.symm.trans hsq)
    rw [if_pos hsq]
    exact h.replace (Or.inr hs) hunary hqueued (hsignalled.trans hs) hready hpend
  · rw [if_neg hsq, squashWriteback_with]
    have hconnected : x.squashWriteback.theMOVConnected = x.theMOVConnected :=
      squashWriteback_theMOVConnected
    rw [← hconnected] at hready hpend
    exact h.squashWriteback.replace (Or.inl squashWriteback_ready) (a := a.markSquashed) hunary
      hqueued rfl hready hpend

/-- The predicate of the annulling action is turned over, and what it signalled taken back. -/
theorem Sound.turn (h : Sound b x) (p : Bool) :
    Sound b (squashAnnulDependants { x with
      annul := { x.annul.reschedule with thePredicate := p } }) := by
  have hready : SemanticAction.ready { x.annul.reschedule with thePredicate := p } =
      x.annul.ready := SemanticAction.reschedule_ready
  refine h.squashAnnulDependants_with h.unary_annul.reschedule h.queued_annul.reschedule
    SemanticAction.reschedule_theSignalled SemanticAction.reschedule_theSquashed ?_
    fun _ => Or.inl h.queued_annul.reschedule_pending
  rw [hready]
  exact h.annul_ready_iff

theorem Sound.annulOn (h : Sound b x) : Sound b x.annulOn := by
  rw [Destination.annulOn]
  split
  · exact h
  · exact h.turn true

theorem Sound.annulOff (h : Sound b x) : Sound b x.annulOff := by
  rw [Destination.annulOff]
  split
  · exact h.turn false
  · exact h

/-- **The previous register is squashed.** -/
theorem Sound.squashPrevious (h : Sound b x) : Sound b x.squashPrevious := by
  have hnot := PhysicalRegister.squash_not_ready x.thePrevious
  rw [Destination.squashPrevious]
  dsimp only
  by_cases hc : x.theMOVConnected = true
  · rw [if_pos hc, squashAnnul]
    dsimp only
    have hready : (x.annul.setReady 0 false).ready = true ↔
        x.theMOVConnected = true ∧ x.thePrevious.squash.theStatus = .ready := by
      rw [SemanticAction.ready_setReady_false]
      exact ⟨fun hr => (nomatch hr), fun hr => absurd hr.2 hnot⟩
    by_cases hp : (x.annul.setReady 0 false).thePredicate = true
    · rw [if_pos hp]
      exact h.squashAnnulDependants_with h.unary_annul.setReady h.queued_annul rfl rfl hready
        fun _ => Or.inr ⟨hc, hnot⟩
    · rw [if_neg hp]
      have hs : x.annul.theSignalled = false := by
        rw [Bool.eq_false_iff]
        exact fun hs => hp (h.annul_signalled hs).2.1
      exact h.replace (Or.inr hs) h.unary_annul.setReady h.queued_annul hs hready
        fun hp' => absurd hp' hp
  · rw [if_neg hc]
    have hr : x.annul.ready ≠ true := fun hr => hc (h.previous_ready hr).1
    have hs : x.annul.theSignalled = false := by
      rw [Bool.eq_false_iff]
      exact fun hs => hr (h.annul_signalled hs).1
    refine h.replace (Or.inr hs) h.unary_annul h.queued_annul hs
      ⟨fun hr' => absurd hr' hr, fun hr' => absurd hr'.1 hc⟩ fun hp => ?_
    rcases h.pending_annul hp with hs' | hpend | ⟨hc', -⟩
    · rw [hs] at hs'
      cases hs'
    · exact Or.inl hpend
    · exact absurd hc' hc

/-- **The previous register is written.** -/
theorem Sound.writePrevious (h : Sound b x) (hprev : x.thePrevious.theStatus ≠ .ready)
    (aValue : RegisterBits) : Sound b (x.writePrevious aValue) := by
  have hr : x.annul.ready = false := by
    rw [Bool.eq_false_iff]
    exact fun hr => hprev (h.previous_ready hr).2
  have hs : x.annul.theSignalled = false := by
    rw [Bool.eq_false_iff]
    intro hs
    rw [(h.annul_signalled hs).1] at hr
    cases hr
  rw [Destination.writePrevious]
  dsimp only
  by_cases hc : x.theMOVConnected = true
  · rw [if_pos hc]
    have hnow : (x.annul.satisfy 0).ready = true := h.unary_annul.satisfy_ready
    exact h.replace (Or.inr hs) h.unary_annul.satisfy h.queued_annul.satisfy
      (SemanticAction.satisfy_theSignalled.trans hs) ⟨fun _ => ⟨hc, rfl⟩, fun _ => hnow⟩
      fun _ => Or.inl (h.queued_annul.satisfy_pending hr hnow)
  · rw [if_neg hc]
    refine h.replace (Or.inr hs) h.unary_annul h.queued_annul hs
      ⟨fun hr' => ?_, fun hr' => absurd hr'.1 hc⟩ fun hp => ?_
    · rw [hr] at hr'
      cases hr'
    · rcases h.pending_annul hp with hs' | hpend | ⟨hc', -⟩
      · rw [hs] at hs'
        cases hs'
      · exact Or.inl hpend
      · exact absurd hc' hc

/-- **What the annulling action does when it is evaluated**: it never reads a register that is not
ready. -/
theorem Sound.evaluateAnnul (h : Sound b x) (hcopied : x.Copied)
    (hb : x.annul.thePredicate = true → b = false) :
    ∃ y, x.evaluateAnnul = some y ∧ Sound b y ∧ y.Copied ∧
      y.annul.thePredicate = x.annul.thePredicate := by
  have hqueued : x.annul.take.Queued := fun hsched => nomatch hsched
  rw [Destination.evaluateAnnul]
  dsimp only
  by_cases hp : x.annul.take.thePredicate = true
  · rw [if_pos hp]
    by_cases hr : x.thePrevious.theStatus = .ready
    · have hnow : (x.annul.take.setReady 0 true).ready = true := h.unary_annul.ready_setReady
      have hread : x.thePrevious.read = some x.thePrevious.theReg := if_pos hr
      rw [if_pos hr, if_pos hnow, hread]
      by_cases hs : x.annul.take.theSignalled = true
      · -- it has signalled, and what it copies is what it has copied
        obtain ⟨hw, hresult⟩ := hcopied hs
        have hs' : (x.annul.take.setReady 0 true).theSignalled = true := hs
        refine ⟨{ x with
          annul := x.annul.take.setReady 0 true
          theMOVConnected := true
          theResult := x.thePrevious.theReg }, if_pos hs', ?_, fun _ => ⟨hw, rfl⟩, rfl⟩
        exact { h with
          unary_annul := h.unary_annul.setReady
          queued_annul := hqueued
          written := fun hsw => hresult ▸ h.written hsw
          annul_signalled := fun _ => ⟨hnow, h.annul_signalled hs |>.2⟩
          previous_ready := fun _ => ⟨rfl, hr⟩
          ready_of_previous := fun _ _ => hnow
          pending_annul := fun _ => Or.inl hs }
      · -- nothing is written back, and the write-back is told
        have hs' : ¬(x.annul.take.setReady 0 true).theSignalled = true := hs
        have hw : x.writeback.ready = false :=
          h.not_ready (hb hp) (Bool.eq_false_iff.mpr hs)
        obtain ⟨y, hy⟩ : ∃ y : Destination, y = { x with
          annul := (x.annul.take.setReady 0 true).signal
          theMOVConnected := true
          theResult := x.thePrevious.theReg } := ⟨_, rfl⟩
        have hsound : Sound b y := by
          rw [hy]
          exact { h.setResult hw x.thePrevious.theReg with
            unary_annul := h.unary_annul.setReady
            queued_annul := hqueued
            fed := fun _ => Or.inr rfl
            annul_signalled := fun _ => ⟨hnow, hp, rfl⟩
            previous_ready := fun _ => ⟨rfl, hr⟩
            ready_of_previous := fun _ _ => hnow
            pending_annul := fun _ => Or.inl rfl }
        have hy' : y.annul.theSignalled = true := by rw [hy]; rfl
        have hysat : y.satisfyWriteback.theResult = y.thePrevious.theReg := by rw [hy]; rfl
        refine ⟨y.satisfyWriteback, ?_, hsound.satisfyWriteback (Or.inr hy'),
          fun _ => ⟨hsound.satisfyWriteback_ready, hysat⟩, ?_⟩
        · rw [hy]
          exact if_neg hs'
        · rw [hy]
          rfl
    · have hnot : ¬x.annul.take.ready = true := fun hready => hr (h.previous_ready hready).2
      have hs : x.annul.theSignalled = false := by
        rw [Bool.eq_false_iff]
        exact fun hs => hnot (h.annul_signalled hs).1
      have hs' : ¬x.annul.theSignalled = true := Bool.eq_false_iff.mp hs
      rw [if_neg hr, if_neg hnot]
      refine ⟨_, rfl, ?_, fun hs'' => absurd hs'' hs', rfl⟩
      exact { h with
        unary_annul := h.unary_annul
        queued_annul := hqueued
        annul_signalled := fun hs'' => absurd hs'' hs'
        previous_ready := fun hready => absurd hready hnot
        ready_of_previous := fun _ hr' => absurd hr' hr
        pending_annul := fun _ => Or.inr (Or.inr ⟨rfl, hr⟩) }
  · rw [if_neg hp]
    have hs : x.annul.theSignalled = false := by
      rw [Bool.eq_false_iff]
      exact fun hs => hp (h.annul_signalled hs).2.1
    refine ⟨_, rfl, h.replace (Or.inr hs) h.unary_annul hqueued hs h.annul_ready_iff
      fun hp' => absurd hp' hp, fun hs' => ?_, rfl⟩
    exact absurd hs' (Bool.eq_false_iff.mp hs)

/-! ### What was copied -/

theorem squashPrevious_thePrevious : x.squashPrevious.thePrevious = x.thePrevious.squash := by
  rw [squashPrevious]
  dsimp only
  split
  · rw [squashAnnul]
    dsimp only
    split
    · rw [squashAnnulDependants]
      dsimp only
      split
      · rfl
      · exact squashWriteback_thePrevious
    · rfl
  · rfl

theorem squashAnnulDependants_annul_thePredicate :
    x.squashAnnulDependants.annul.thePredicate = x.annul.thePredicate := by
  rw [squashAnnulDependants]
  split <;> rfl

theorem squashPrevious_annul_thePredicate :
    x.squashPrevious.annul.thePredicate = x.annul.thePredicate := by
  rw [squashPrevious]
  dsimp only
  split
  · rw [squashAnnul]
    dsimp only
    split
    · exact squashAnnulDependants_annul_thePredicate
    · rfl
  · rfl

/-- Where the annulling action is off, the previous register does not matter. -/
theorem squashPrevious_off (h : x.annul.thePredicate = false) :
    x.squashPrevious.writeback.ready = x.writeback.ready ∧
      x.squashPrevious.theResult = x.theResult := by
  rw [squashPrevious]
  dsimp only
  split
  · rw [squashAnnul]
    dsimp only
    have hoff : ¬(x.annul.setReady 0 false).thePredicate = true := Bool.eq_false_iff.mp h
    rw [if_neg hoff]
    exact ⟨rfl, rfl⟩
  · exact ⟨rfl, rfl⟩

theorem evaluateAnnul_off (h : x.annul.thePredicate = false) {y : Destination}
    (hy : x.evaluateAnnul = some y) :
    y.writeback.ready = x.writeback.ready ∧ y.theResult = x.theResult := by
  have hoff : ¬x.annul.take.thePredicate = true := Bool.eq_false_iff.mp h
  rw [evaluateAnnul] at hy
  dsimp only at hy
  rw [if_neg hoff] at hy
  cases hy
  exact ⟨rfl, rfl⟩

theorem writePrevious_writeback (aValue : RegisterBits) :
    (x.writePrevious aValue).writeback.ready = x.writeback.ready ∧
      (x.writePrevious aValue).theResult = x.theResult := by
  rw [writePrevious]
  dsimp only
  split <;> exact ⟨rfl, rfl⟩

theorem writePrevious_annul (aValue : RegisterBits) :
    (x.writePrevious aValue).annul.thePredicate = x.annul.thePredicate ∧
      (x.writePrevious aValue).annul.theSignalled = x.annul.theSignalled := by
  rw [writePrevious]
  dsimp only
  split
  · exact ⟨SemanticAction.satisfy_thePredicate, SemanticAction.satisfy_theSignalled⟩
  · exact ⟨rfl, rfl⟩

namespace Copied

theorem of_not_signalled (h : x.annul.theSignalled = false) : x.Copied := fun hs => by
  rw [h] at hs
  cases hs

theorem evaluateWriteback (h : x.Copied) : x.evaluateWriteback.Copied := fun hs => by
  rw [evaluateWriteback_annul] at hs
  rw [evaluateWriteback_writeback_ready, evaluateWriteback_theResult, evaluateWriteback_thePrevious]
  exact h hs

/-- After the previous register is squashed there is no copy of it. -/
theorem squashPrevious (h : Sound b x) : x.squashPrevious.Copied := fun hs => by
  have hready := (h.squashPrevious.previous_ready (h.squashPrevious.annul_signalled hs).1).2
  rw [squashPrevious_thePrevious] at hready
  exact absurd hready (PhysicalRegister.squash_not_ready _)

theorem writePrevious (h : Sound b x) (hprev : x.thePrevious.theStatus ≠ .ready)
    (aValue : RegisterBits) : (x.writePrevious aValue).Copied := fun hs => by
  rw [(writePrevious_annul aValue).2] at hs
  exact absurd (h.previous_ready (h.annul_signalled hs).1).2 hprev

end Copied

end Destination

end Decoder

end Flexus
