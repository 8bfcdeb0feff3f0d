import Flexus.Lib.Machine
import Mathlib.Algebra.GroupWithZero.Nat
import Mathlib.Data.Fintype.Card

/-!
# Semantic actions

An instruction is carried out by *semantic actions* (`components/v9Decoder/SemanticActions`)
that wait for each other: an action is ready once all its operands are, and signals the
operands of its dependants when it is evaluated. What was signalled can be taken back: an
operand that is squashed squashes the dependants of its action, and so on.

Three flags keep this from being done again and again. An action that has signalled does not
signal a second time; one whose dependants are squashed does not squash them a second time;
and one that is scheduled is not scheduled a second time.

The actions here are those of live, dispatched instructions: none is cancelled and all of them
have a core. `BaseSemanticAction` is a `PredicatedSemanticAction` whose predicate stays on.
-/

namespace Flexus

open Function

namespace Decoder

/-- **The actions of instructions and their dependances.** An operand is fed by one action at
most, and by something outside otherwise. -/
structure ActionGraph (ν : Type) where
  theNumOperands : ν → ℕ
  theDependances : ν → List (ν × Fin 5)
  /-- The actions that are a `PredicatedSemanticAction`. -/
  predicated : ν → Bool
  initialPredicate : ν → Bool
  /-- `theDispatchActions`, which are handed to the core as the instruction is dispatched. -/
  theDispatchActions : ν → Bool
  operand_lt : ∀ n m i, (m, i) ∈ theDependances n → i.val < theNumOperands m
  one_source : ∀ n n' m i, (m, i) ∈ theDependances n → (m, i) ∈ theDependances n' → n = n'
  acyclic : ∀ n, ¬Relation.TransGen (fun a b => ∃ i, (b, i) ∈ theDependances a) n n
  base_predicate : ∀ n, predicated n = false → initialPredicate n = true
  /-- An action that waits for nothing is a dispatch action. -/
  created : ∀ n, theNumOperands n = 0 → initialPredicate n = true → theDispatchActions n = true

/-- The state of actions. -/
structure ActionState (ν : Type) where
  theReady : ν → Fin 5 → Bool
  theSignalled : ν → Bool
  theSquashed : ν → Bool
  theScheduled : ν → Bool
  thePredicate : ν → Bool
  /-- How often an action stands in `theRescheduledActions` and `theActiveActions`. -/
  pending : ν → ℕ

namespace ActionState

variable {ν : Type} [DecidableEq ν] (s : ActionState ν)

instance : NeZero 5 := ⟨by decide⟩

/-- `ready`. -/
def ready (n : ν) : Bool :=
  s.theReady n 0 && s.theReady n 1 && s.theReady n 2 && s.theReady n 3 && s.theReady n 4

def setReady (n : ν) (i : Fin 5) (b : Bool) : ActionState ν :=
  { s with
    theReady := update s.theReady n (update (s.theReady n) i b) }

/-- `reschedule`. -/
def reschedule (n : ν) : ActionState ν :=
  if s.theScheduled n then s
  else { s with
    theScheduled := update s.theScheduled n true
    pending := update s.pending n (s.pending n + 1) }

/-- **`satisfy`**. -/
def satisfy (n : ν) (i : Fin 5) : ActionState ν :=
  let wasReady := s.ready n
  let s := s.setReady n i true
  let s := { s with theSquashed := update s.theSquashed n false }
  if !wasReady && s.ready n then s.reschedule n else s

/-- `satisfyDependants`. -/
def satisfyDependants (deps : List (ν × Fin 5)) (n : ν) : ActionState ν :=
  if s.theSignalled n then s
  else
    let s := deps.foldl (fun s d => s.satisfy d.1 d.2) s
    { s with
      theSignalled := update s.theSignalled n true
      theSquashed := update s.theSquashed n false }

/-- The end of `squashDependants`: what was signalled is taken back. -/
def markSquashed (n : ν) : ActionState ν :=
  { s with
    theSignalled := update s.theSignalled n false
    theSquashed := update s.theSquashed n true }

end ActionState

namespace ActionGraph

variable {ν : Type} [DecidableEq ν] (g : ActionGraph ν)

/-- `squashDependants`, given what squashes an operand. -/
def squashDependantsWith (squash : ActionState ν → ν → Fin 5 → Option (ActionState ν))
    (s : ActionState ν) (n : ν) : Option (ActionState ν) :=
  if s.theSquashed n then some s
  else do
    let s ← (g.theDependances n).foldlM (fun s d => squash s d.1 d.2) s
    some (s.markSquashed n)

/-- **`squash`**, which goes on to the dependants. The first argument bounds the depth of the
recursion, which the source does not. -/
def squash : ℕ → ActionState ν → ν → Fin 5 → Option (ActionState ν)
  | 0, _, _, _ => none
  | depth + 1, s, n, i =>
    let s := s.setReady n i false
    if s.thePredicate n then g.squashDependantsWith (squash depth) s n else some s

/-- `squashDependants`. -/
def squashDependants (depth : ℕ) (s : ActionState ν) (n : ν) : Option (ActionState ν) :=
  g.squashDependantsWith (g.squash depth) s n

/-- `predicate_off`. -/
def predicateOff (depth : ℕ) (s : ActionState ν) (n : ν) : Option (ActionState ν) :=
  if s.thePredicate n then
    let s := s.reschedule n
    let s := { s with thePredicate := update s.thePredicate n false }
    g.squashDependants depth s n
  else some s

/-- `predicate_on`. -/
def predicateOn (depth : ℕ) (s : ActionState ν) (n : ν) : Option (ActionState ν) :=
  if s.thePredicate n then some s
  else
    let s := s.reschedule n
    let s := { s with thePredicate := update s.thePredicate n true }
    g.squashDependants depth s n

/-- `evaluate`, and `ExecuteAction::doEvaluate`: an action that must wait for an earlier
instruction is scheduled again. -/
def evaluate (s : ActionState ν) (n : ν) (hasPredecessorExecuted : Bool) : ActionState ν :=
  let s := { s with theScheduled := update s.theScheduled n false }
  if s.thePredicate n && s.ready n then
    if hasPredecessorExecuted then s.satisfyDependants (g.theDependances n) n
    else s.reschedule n
  else s

/-- The core takes an action from its list and evaluates it. -/
def evaluateNext (s : ActionState ν) (n : ν) (hasPredecessorExecuted : Bool) : ActionState ν :=
  g.evaluate { s with pending := update s.pending n (s.pending n - 1) } n
    hasPredecessorExecuted

/-- An action feeds another one. -/
def Feeds (a b : ν) : Prop := ∃ i, (b, i) ∈ g.theDependances a

/-- The actions as they are dispatched. -/
def initial : ActionState ν where
  theReady := fun n i => g.theNumOperands n ≤ i.val
  theSignalled := fun _ => false
  theSquashed := fun _ => false
  theScheduled := fun _ => false
  thePredicate := g.initialPredicate
  pending := fun n => if g.theDispatchActions n then 1 else 0

end ActionGraph

/-- What happens to actions. -/
inductive ActionEvent (ν : Type)
  /-- Something outside satisfies an operand. -/
  | satisfy (n : ν) (i : Fin 5)
  /-- Something outside squashes an operand. -/
  | squash (n : ν) (i : Fin 5)
  | predicateOn (n : ν)
  | predicateOff (n : ν)
  | evaluate (n : ν) (hasPredecessorExecuted : Bool)

/-- A squash that does not come to an end. -/
inductive ActionFault
  | depth
  deriving DecidableEq

namespace ActionGraph

variable {ν : Type} [DecidableEq ν] [Fintype ν] (g : ActionGraph ν)

/-- Operands that an action feeds are left to it; only actions with a predicate have it changed;
and the core evaluates what stands in its lists. -/
def Allowed (s : ActionState ν) : ActionEvent ν → Prop
  | .satisfy n i => i.val < g.theNumOperands n ∧ ∀ m, (n, i) ∉ g.theDependances m
  | .squash n i => i.val < g.theNumOperands n ∧ ∀ m, (n, i) ∉ g.theDependances m
  | .predicateOn n => g.predicated n = true
  | .predicateOff n => g.predicated n = true
  | .evaluate n _ => 0 < s.pending n

instance (s : ActionState ν) (e : ActionEvent ν) : Decidable (g.Allowed s e) :=
  match e with
  | .satisfy n i =>
    inferInstanceAs (Decidable (i.val < g.theNumOperands n ∧ ∀ m, (n, i) ∉ g.theDependances m))
  | .squash n i =>
    inferInstanceAs (Decidable (i.val < g.theNumOperands n ∧ ∀ m, (n, i) ∉ g.theDependances m))
  | .predicateOn n => inferInstanceAs (Decidable (g.predicated n = true))
  | .predicateOff n => inferInstanceAs (Decidable (g.predicated n = true))
  | .evaluate n _ => inferInstanceAs (Decidable (0 < s.pending n))

/-- A result of a squash of some depth. -/
def ofOption : Option (ActionState ν) → Except ActionFault (ActionState ν)
  | some s => .ok s
  | none => .error .depth

/-- One event. No squash is given more depth than there are actions. -/
def step (s : ActionState ν) : ActionEvent ν → Except ActionFault (ActionState ν)
  | .satisfy n i => .ok (s.satisfy n i)
  | .squash n i => ofOption (g.squash (Fintype.card ν) s n i)
  | .predicateOn n => ofOption (g.predicateOn (Fintype.card ν) s n)
  | .predicateOff n => ofOption (g.predicateOff (Fintype.card ν) s n)
  | .evaluate n hasPredecessorExecuted => .ok (g.evaluateNext s n hasPredecessorExecuted)

def machine : Lib.Machine (ActionState ν) (ActionEvent ν) ActionFault where
  init := g.initial
  step := g.step

end ActionGraph

end Decoder

end Flexus
