import Mathlib.Logic.Relation
import Mathlib.Control.Basic
import Mathlib.Data.Nat.Notation

/-!
# Machines that run on a list of events

A machine is an initial state and a fallible step: an event either leads to a
new state or *faults*, and a fault ends the run. Faults stand for everything a
program does instead of going on: an assertion that fires, a table entry that
is missing, an iterator that points nowhere.

A safety property of such a machine is a property of every state a run can
reach. Since a run may be constrained – every event is taken in a state in
which a *guard* allows it – reachability is relative to a guard
(`Flexus.Lib.Machine.ReachableWhen`), and the unconstrained notion is the one
with the trivial guard. The invariant rules are stated once for both.
-/

namespace Flexus

namespace Lib

variable {σ ε φ : Type*}

/-- A machine: the state a run starts in, and what an event does. -/
structure Machine (σ ε φ : Type*) where
  /-- The state a run starts in. -/
  init : σ
  /-- The effect of an event: a new state, or a fault that ends the run. -/
  step : σ → ε → Except φ σ

namespace Machine

variable (m : Machine σ ε φ)

/-- Running a list of events from a state. -/
def runFrom : σ → List ε → Except φ σ
  | s, [] => .ok s
  | s, e :: es =>
    match m.step s e with
    | .ok t => runFrom t es
    | .error f => .error f

/-- Running a list of events from the initial state. -/
def run (es : List ε) : Except φ σ := m.runFrom m.init es

/-- One step that the guard allows. -/
def Next (guard : σ → ε → Prop) (s t : σ) : Prop := ∃ e, guard s e ∧ m.step s e = .ok t

/-- **The states of the guarded runs**: those a run reaches when the guard
allows every event in the state in which it is taken. -/
def ReachableWhen (guard : σ → ε → Prop) : σ → Prop :=
  Relation.ReflTransGen (m.Next guard) m.init

/-- The states of all runs. -/
def Reachable : σ → Prop := m.ReachableWhen fun _ _ => True

variable {m} {guard : σ → ε → Prop} {I : σ → Prop}

theorem ReachableWhen.init : m.ReachableWhen guard m.init := Relation.ReflTransGen.refl

theorem ReachableWhen.step {s t : σ} {e : ε} (h : m.ReachableWhen guard s) (hg : guard s e)
    (hs : m.step s e = .ok t) : m.ReachableWhen guard t :=
  Relation.ReflTransGen.tail h ⟨e, hg, hs⟩

/-- **The invariant rule**: what holds at the start and survives every allowed
step holds in every state of a guarded run. -/
theorem ReachableWhen.invariant (h0 : I m.init)
    (hstep : ∀ s e t, I s → guard s e → m.step s e = .ok t → I t) {s : σ}
    (h : m.ReachableWhen guard s) : I s := by
  induction h with
  | refl => exact h0
  | tail _ hn ih =>
    obtain ⟨e, hg, hs⟩ := hn
    exact hstep _ e _ ih hg hs

theorem reachable_of_runFrom {s t : σ} {es : List ε} (hs : m.Reachable s)
    (h : m.runFrom s es = .ok t) : m.Reachable t := by
  induction es generalizing s with
  | nil =>
    cases h
    exact hs
  | cons e es ih =>
    rw [runFrom] at h
    split at h
    · rename_i u hu
      exact ih (hs.step trivial hu) h
    · cases h

/-- A run that comes to an end without a fault ends in a reachable state. -/
theorem reachable_of_run {t : σ} {es : List ε} (h : m.run es = .ok t) : m.Reachable t :=
  reachable_of_runFrom ReachableWhen.init h

variable (m) in
/-- A test of the state in which a run comes to its end. -/
def endsIn (test : σ → Bool) (es : List ε) : Bool :=
  match m.run es with
  | .ok t => test t
  | .error _ => false

theorem exists_of_endsIn {test : σ → Bool} {es : List ε} (h : m.endsIn test es = true) :
    ∃ t, m.run es = .ok t ∧ test t = true := by
  rw [endsIn] at h
  split at h
  · rename_i t ht
    exact ⟨t, ht, h⟩
  · cases h

variable (m) in
/-- A test of every event of a run, in the state in which it is taken. -/
def passes (test : σ → ε → Bool) : σ → List ε → Bool
  | _, [] => true
  | s, e :: es =>
    test s e && match m.step s e with
      | .ok t => passes test t es
      | .error _ => false

theorem reachableWhen_of_runFrom {g : σ → ε → Bool} (hg : ∀ s e, g s e = true → guard s e)
    {s t : σ} {es : List ε} (hs : m.ReachableWhen guard s) (hp : m.passes g s es = true)
    (h : m.runFrom s es = .ok t) : m.ReachableWhen guard t := by
  induction es generalizing s with
  | nil =>
    cases h
    exact hs
  | cons e es ih =>
    rw [runFrom] at h
    rw [passes, Bool.and_eq_true] at hp
    split at h
    · rename_i u hu
      rw [hu] at hp
      exact ih (hs.step (hg s e hp.1) hu) hp.2 h
    · cases h

/-- A run whose events pass a test that is enough for the guard is a guarded run. -/
theorem reachableWhen_of_run {g : σ → ε → Bool} (hg : ∀ s e, g s e = true → guard s e)
    {t : σ} {es : List ε} (hp : m.passes g m.init es = true) (h : m.run es = .ok t) :
    m.ReachableWhen guard t :=
  reachableWhen_of_runFrom hg ReachableWhen.init hp h

/-! ### Two runs side by side -/

variable (m) in
/-- The guard allows every event of a list, in the state in which it is taken. -/
def AllowedFrom (guard : σ → ε → Prop) : σ → List ε → Prop
  | _, [] => True
  | s, e :: es => guard s e ∧ ∀ t, m.step s e = .ok t → AllowedFrom guard t es

variable (m) in
/-- **What a run adds up to**, of a number that every event has in the state in which it is
taken. -/
def total (f : σ → ε → ℕ) : σ → List ε → ℕ
  | _, [] => 0
  | s, e :: es =>
    f s e + match m.step s e with
      | .ok t => total f t es
      | .error _ => 0

theorem runFrom_append {s t : σ} {es fs : List ε} (h : m.runFrom s es = .ok t) :
    m.runFrom s (es ++ fs) = m.runFrom t fs := by
  induction es generalizing s with
  | nil =>
    cases h
    rfl
  | cons e es ih =>
    rw [runFrom] at h
    rw [List.cons_append, runFrom]
    split at h
    · exact ih h
    · cases h

theorem exists_of_runFrom_append {s t : σ} {es fs : List ε}
    (h : m.runFrom s (es ++ fs) = .ok t) :
    ∃ u, m.runFrom s es = .ok u ∧ m.runFrom u fs = .ok t := by
  cases hu : m.runFrom s es with
  | ok u => exact ⟨u, rfl, (runFrom_append hu).symm.trans h⟩
  | error f =>
    exfalso
    induction es generalizing s with
    | nil => cases hu
    | cons e es ih =>
      rw [runFrom] at hu
      rw [List.cons_append, runFrom] at h
      split at hu
      · rename_i v hv
        rw [hv] at h
        exact ih h hu
      · rename_i g hg
        rw [hg] at h
        cases h

/-- **The lockstep rule**: a relation between two states that survives every allowed event
survives a run of allowed events. -/
theorem runFrom_lockstep {R : σ → σ → Prop}
    (hstep : ∀ s s' e t, R s s' → guard s e → m.step s e = .ok t →
      ∃ t', m.step s' e = .ok t' ∧ R t t') {s s' t : σ} {es : List ε} (hR : R s s')
    (ha : m.AllowedFrom guard s es) (h : m.runFrom s es = .ok t) :
    ∃ t', m.runFrom s' es = .ok t' ∧ R t t' := by
  induction es generalizing s s' with
  | nil =>
    cases h
    exact ⟨s', rfl, hR⟩
  | cons e es ih =>
    rw [runFrom] at h
    split at h
    · rename_i u hu
      obtain ⟨u', hu', hRu⟩ := hstep s s' e u hR ha.1 hu
      rw [runFrom, hu']
      exact ih hRu (ha.2 u hu) h
    · cases h

variable (m) in
/-- A property holds in every state that a list of events leads through. -/
def AlwaysFrom (P : σ → Prop) : σ → List ε → Prop
  | s, [] => P s
  | s, e :: es => P s ∧ ∀ t, m.step s e = .ok t → AlwaysFrom P t es

/-- **The rule of the exact condition**: where every step of a good state leads to a good state if
and only if the guard allows it, a run leads through good states only if and only if the guard
allows all of its events. -/
theorem alwaysFrom_iff {P : σ → Prop} (hI : ∀ s e t, I s → m.step s e = .ok t → I t)
    (hstep : ∀ s e t, I s → P s → m.step s e = .ok t → (P t ↔ guard s e))
    (hfault : ∀ s e f, I s → m.step s e = .error f → guard s e) {s : σ} {es : List ε}
    (hs : I s) (hP : P s) : m.AlwaysFrom P s es ↔ m.AllowedFrom guard s es := by
  induction es generalizing s with
  | nil => exact ⟨fun _ => trivial, fun _ => hP⟩
  | cons e es ih =>
    cases he : m.step s e with
    | ok t =>
      constructor
      · rintro ⟨-, hnext⟩
        have ht := hnext t he
        have hPt : P t := by
          cases es with
          | nil => exact ht
          | cons e' es => exact ht.1
        refine ⟨(hstep s e t hs hP he).mp hPt, fun u hu => ?_⟩
        rw [he] at hu
        cases hu
        exact (ih (hI s e t hs he) hPt).mp ht
      · rintro ⟨hg, hnext⟩
        refine ⟨hP, fun u hu => ?_⟩
        rw [he] at hu
        cases hu
        exact (ih (hI s e t hs he) ((hstep s e t hs hP he).mpr hg)).mpr (hnext t he)
    | error f =>
      constructor
      · rintro -
        refine ⟨hfault s e f hs he, fun u hu => ?_⟩
        rw [he] at hu
        cases hu
      · rintro -
        refine ⟨hP, fun u hu => ?_⟩
        rw [he] at hu
        cases hu

/-- **The rule of the balance**: where every allowed event of a good state changes the difference of
two numbers by what it has on either side, a run of allowed events changes it by the totals. -/
theorem balance_of_runFrom {f g : σ → ε → ℕ} {P Q : σ → ℕ}
    (hI : ∀ s e t, I s → guard s e → m.step s e = .ok t → I t)
    (hstep : ∀ s e t, I s → guard s e → m.step s e = .ok t → P t + g s e + Q s = P s + f s e + Q t)
    {s t : σ} {es : List ε} (hs : I s) (ha : m.AllowedFrom guard s es)
    (h : m.runFrom s es = .ok t) : I t ∧ P t + m.total g s es + Q s = P s + m.total f s es + Q t := by
  induction es generalizing s with
  | nil =>
    cases h
    exact ⟨hs, rfl⟩
  | cons e es ih =>
    rw [runFrom] at h
    split at h
    · rename_i u hu
      obtain ⟨ht, hbalance⟩ := ih (hI s e u hs ha.1 hu) (ha.2 u hu) h
      have hfirst := hstep s e u hs ha.1 hu
      simp only [total, hu]
      exact ⟨ht, by omega⟩
    · cases h

/-- **The rule of a condition that is enough**: where an invariant survives every event that the
guard allows, what follows from it holds wherever a run of such events leads. -/
theorem alwaysFrom_of_allowedFrom {P : σ → Prop}
    (hstep : ∀ s e t, I s → guard s e → m.step s e = .ok t → I t) (hP : ∀ s, I s → P s) {s : σ}
    {es : List ε} (hs : I s) (h : m.AllowedFrom guard s es) : m.AlwaysFrom P s es := by
  induction es generalizing s with
  | nil => exact hP s hs
  | cons e es ih =>
    exact ⟨hP s hs, fun t ht => ih (hstep s e t hs h.1 ht) (h.2 t ht)⟩

theorem AlwaysFrom.of_runFrom {P : σ → Prop} {s t : σ} {es : List ε} (h : m.AlwaysFrom P s es)
    (hrun : m.runFrom s es = .ok t) : P t := by
  induction es generalizing s with
  | nil =>
    cases hrun
    exact h
  | cons e es ih =>
    rw [runFrom] at hrun
    split at hrun
    · rename_i u hu
      exact ih (h.2 u hu) hrun
    · cases hrun

/-- Events that pass a test that is enough for the guard are allowed. -/
theorem allowedFrom_of_passes {g : σ → ε → Bool} (hg : ∀ s e, g s e = true → guard s e) {s : σ}
    {es : List ε} (hp : m.passes g s es = true) : m.AllowedFrom guard s es := by
  induction es generalizing s with
  | nil => trivial
  | cons e es ih =>
    rw [passes, Bool.and_eq_true] at hp
    refine ⟨hg s e hp.1, fun t ht => ?_⟩
    rw [ht] at hp
    exact ih hp.2

/-- **The fault rule**: where an invariant confines the faults of a single step,
it confines those of a whole run. -/
theorem fault_of_runFrom {B : φ → Prop}
    (hstep : ∀ s e t, I s → m.step s e = .ok t → I t)
    (hbad : ∀ s e f, I s → m.step s e = .error f → B f) {s : σ} {es : List ε} {f : φ}
    (hs : I s) (h : m.runFrom s es = .error f) : B f := by
  induction es generalizing s with
  | nil => cases h
  | cons e es ih =>
    rw [runFrom] at h
    split at h
    · rename_i u hu
      exact ih (hstep s e u hs hu) h
    · rename_i g hg
      cases h
      exact hbad s e _ hs hg

end Machine

end Lib

end Flexus
