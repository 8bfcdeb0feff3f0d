import Flexus.Decoder.SemanticActions

/-!
# One semantic action

The methods of `BaseSemanticAction` on the flags of a single action, apart from what they do to
the actions that depend on it. The state of many actions (`Flexus.Decoder.ActionState`) is one of
these for each of them: `satisfy` and `reschedule` there are `satisfy` and `reschedule` here, at
the action they are called for.
-/

namespace Flexus

namespace Decoder

/-- **The flags of an action.** -/
structure SemanticAction where
  theReady : Fin 5 → Bool
  theSignalled : Bool
  theSquashed : Bool
  theScheduled : Bool
  thePredicate : Bool
  /-- How often it stands in `theRescheduledActions` and `theActiveActions`. -/
  pending : ℕ

namespace SemanticAction

variable (a : SemanticAction) (i : Fin 5)

/-- An action of an instruction that is dispatched. -/
def create (numOperands : ℕ) (initialPredicate isDispatchAction : Bool) : SemanticAction where
  theReady j := numOperands ≤ j.val
  theSignalled := false
  theSquashed := false
  theScheduled := false
  thePredicate := initialPredicate
  pending := if isDispatchAction then 1 else 0

/-- `ready`. -/
def ready : Bool :=
  a.theReady 0 && a.theReady 1 && a.theReady 2 && a.theReady 3 && a.theReady 4

def setReady (b : Bool) : SemanticAction :=
  { a with theReady := Function.update a.theReady i b }

/-- `reschedule`. -/
def reschedule : SemanticAction :=
  if a.theScheduled then a else { a with theScheduled := true, pending := a.pending + 1 }

/-- **`satisfy`**. -/
def satisfy : SemanticAction :=
  let wasReady := a.ready
  let a := { a.setReady i true with theSquashed := false }
  if !wasReady && a.ready then a.reschedule else a

/-- The end of `satisfyDependants`. -/
def signal : SemanticAction := { a with theSignalled := true, theSquashed := false }

/-- The end of `squashDependants`. -/
def markSquashed : SemanticAction := { a with theSignalled := false, theSquashed := true }

/-- The core takes the action from its list, and `evaluate` begins. -/
def take : SemanticAction := { a with theScheduled := false, pending := a.pending - 1 }

/-- A scheduled action stands in a list. -/
def Queued : Prop := a.theScheduled = true → 0 < a.pending

/-! ### Operands -/

variable {a i}

theorem ready_iff : a.ready = true ↔ ∀ j, a.theReady j = true := by
  rw [ready]
  simp only [Bool.and_eq_true]
  constructor
  · rintro ⟨⟨⟨⟨h0, h1⟩, h2⟩, h3⟩, h4⟩ j
    match j with
    | 0 => exact h0
    | 1 => exact h1
    | 2 => exact h2
    | 3 => exact h3
    | 4 => exact h4
  · intro h
    exact ⟨⟨⟨⟨h 0, h 1⟩, h 2⟩, h 3⟩, h 4⟩

theorem setReady_self {b : Bool} : (a.setReady i b).theReady i = b := Function.update_self ..

theorem setReady_of_ne {b : Bool} {j : Fin 5} (h : j ≠ i) :
    (a.setReady i b).theReady j = a.theReady j := Function.update_of_ne h ..

theorem ready_setReady_false : (a.setReady i false).ready = false := by
  rw [Bool.eq_false_iff]
  intro h
  have hi := ready_iff.mp h i
  rw [setReady_self] at hi
  cases hi

theorem not_ready_of {j : Fin 5} (h : a.theReady j = false) : a.ready = false := by
  rw [Bool.eq_false_iff]
  intro hr
  rw [ready_iff.mp hr j] at h
  cases h

/-- An action with one operand. -/
def Unary (a : SemanticAction) : Prop := ∀ j, j ≠ 0 → a.theReady j = true

theorem Unary.ready_eq (h : a.Unary) : a.ready = a.theReady 0 := by
  rw [Bool.eq_iff_iff, ready_iff]
  refine ⟨fun hr => hr 0, fun h0 j => ?_⟩
  by_cases hj : j = 0
  · rw [hj, h0]
  · exact h j hj

theorem Unary.setReady {b : Bool} (h : a.Unary) : (a.setReady 0 b).Unary := fun j hj => by
  rw [setReady_of_ne hj]
  exact h j hj

theorem Unary.ready_setReady {b : Bool} (h : a.Unary) : (a.setReady 0 b).ready = b := by
  rw [h.setReady.ready_eq, setReady_self]

/-! ### Being scheduled -/

@[simp] theorem reschedule_theReady : a.reschedule.theReady = a.theReady := by
  rw [reschedule]
  split <;> rfl

@[simp] theorem reschedule_theSignalled : a.reschedule.theSignalled = a.theSignalled := by
  rw [reschedule]
  split <;> rfl

@[simp] theorem reschedule_theSquashed : a.reschedule.theSquashed = a.theSquashed := by
  rw [reschedule]
  split <;> rfl

@[simp] theorem reschedule_thePredicate : a.reschedule.thePredicate = a.thePredicate := by
  rw [reschedule]
  split <;> rfl

@[simp] theorem reschedule_ready : a.reschedule.ready = a.ready := by
  rw [ready, reschedule_theReady, ready]

theorem le_reschedule_pending : a.pending ≤ a.reschedule.pending := by
  rw [reschedule]
  split
  · exact le_rfl
  · exact Nat.le_succ _

theorem Queued.reschedule_pending (h : a.Queued) : 0 < a.reschedule.pending := by
  rw [reschedule]
  split
  · rename_i hs
    exact h hs
  · exact Nat.succ_pos _

theorem Queued.reschedule (h : a.Queued) : a.reschedule.Queued := fun _ => h.reschedule_pending

/-! ### An operand that arrives -/

@[simp] theorem satisfy_theSignalled : (a.satisfy i).theSignalled = a.theSignalled := by
  rw [satisfy]
  dsimp only
  split
  · rw [reschedule_theSignalled]
    rfl
  · rfl

@[simp] theorem satisfy_theSquashed : (a.satisfy i).theSquashed = false := by
  rw [satisfy]
  dsimp only
  split
  · rw [reschedule_theSquashed]
  · rfl

@[simp] theorem satisfy_thePredicate : (a.satisfy i).thePredicate = a.thePredicate := by
  rw [satisfy]
  dsimp only
  split
  · rw [reschedule_thePredicate]
    rfl
  · rfl

theorem satisfy_theReady : (a.satisfy i).theReady = (a.setReady i true).theReady := by
  rw [satisfy]
  dsimp only
  split
  · rw [reschedule_theReady]
  · rfl

theorem satisfy_ready : (a.satisfy i).ready = (a.setReady i true).ready := by
  rw [ready, satisfy_theReady, ready]

theorem le_satisfy_pending : a.pending ≤ (a.satisfy i).pending := by
  have hset : a.pending =
      SemanticAction.pending { a.setReady i true with theSquashed := false } := rfl
  rw [satisfy]
  dsimp only
  split
  · exact hset.trans_le le_reschedule_pending
  · exact hset.le

theorem Queued.satisfy (h : a.Queued) : (a.satisfy i).Queued := by
  have hset : SemanticAction.Queued { a.setReady i true with theSquashed := false } := h
  rw [SemanticAction.satisfy]
  dsimp only
  split
  · exact hset.reschedule
  · exact hset

/-- **An action that becomes ready is scheduled.** -/
theorem Queued.satisfy_pending (h : a.Queued) (hready : a.ready = false)
    (hnow : (a.satisfy i).ready = true) : 0 < (a.satisfy i).pending := by
  have hset : SemanticAction.Queued { a.setReady i true with theSquashed := false } := h
  rw [satisfy_ready] at hnow
  rw [SemanticAction.satisfy]
  dsimp only
  rw [if_pos]
  · exact hset.reschedule_pending
  · rw [hready]
    exact hnow

theorem Unary.satisfy (h : a.Unary) : (a.satisfy 0).Unary := fun j hj => by
  rw [satisfy_theReady, setReady_of_ne hj]
  exact h j hj

theorem Unary.satisfy_ready (h : a.Unary) : (a.satisfy 0).ready = true := by
  rw [SemanticAction.satisfy_ready, h.ready_setReady]

theorem Unary.reschedule (h : a.Unary) : a.reschedule.Unary := fun j hj => by
  rw [reschedule_theReady]
  exact h j hj

end SemanticAction

end Decoder

end Flexus
