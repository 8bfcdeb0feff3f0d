import Flexus.Decoder.Destinations

/-!
# The producing actions of an instruction

An event concerns one producing action and the destinations it feeds, and leaves the others alone
(`Flexus.Decoder.Decoded.Local`). Between events an action that has signalled has had its results
taken up by every write-back it feeds, and a result that was copied from the previous register is
what is there (`Flexus.Decoder.Decoded.Inv`).
-/

namespace Flexus

open Function

namespace Decoder

open UArch (RegisterBits PhysicalRegister)

variable {π : Type} [DecidableEq π] {g : Decoded π} {s t u : InsnState π} {p q : π}
  {d : ResultCode}

namespace Decoded

/-- The results whose write-back a producing action feeds. -/
def fed (g : Decoded π) (p : π) : List ResultCode := g.instruction.theDependances p

theorem wired (g : Decoded π) : Wired g.instruction g.calls := by
  have hnone : Wired (π := π)
      { theDependances := fun _ => []
        feedsRetirement := fun _ => false
        theDispatchActions := []
        theAnnulmentEffects := []
        theReinstatementEffects := [] } [] := by
    constructor <;> simp
  exact hnone.runs g.calls

theorem fed_nodup (g : Decoded π) (p : π) : (g.fed p).Nodup := g.nodup.sublist (g.wired.sublist p)

/-- **An action feeds the results that it sets.** -/
theorem mem_fed : d ∈ g.fed p ↔ d ∈ g.written ∧ d ∈ (g.producer p).resultCodes := by
  rw [fed, g.wired.dependances]
  constructor
  · rintro ⟨c, hc, rfl, hd⟩
    exact ⟨List.mem_flatMap.mpr ⟨c, hc, hd⟩, (g.sets c hc d hd c.exec).mpr rfl⟩
  · rintro ⟨hd, hcode⟩
    obtain ⟨c, hc, hd⟩ := List.mem_flatMap.mp hd
    exact ⟨c, hc, ((g.sets c hc d hd p).mp hcode).symm, hd⟩

theorem exists_fed (h : d ∈ g.written) : ∃ p, d ∈ g.fed p := by
  obtain ⟨c, hc, hd⟩ := List.mem_flatMap.mp h
  exact ⟨c.exec, mem_fed.mpr ⟨h, (g.sets c hc d hd c.exec).mpr rfl⟩⟩

theorem eq_of_mem_fed (h : d ∈ g.fed p) (hcode : d ∈ (g.producer q).resultCodes) : q = p := by
  obtain ⟨c, hc, hd⟩ := List.mem_flatMap.mp (mem_fed.mp h).1
  rw [(g.sets c hc d hd q).mp hcode, (g.sets c hc d hd p).mp (mem_fed.mp h).2]

theorem mem_annulments {e : PredicateEffect π} : e ∈ g.instruction.theAnnulmentEffects ↔
    ∃ p, ∃ d ∈ g.fed p, e = .satisfy (.annul d) ∨ e = .squash (.exec p) := by
  rw [g.wired.annulments]
  constructor
  · rintro ⟨c, hc, d, hd, he⟩
    exact ⟨c.exec, d, (g.wired.dependances c.exec d).mpr ⟨c, hc, rfl, hd⟩, he⟩
  · rintro ⟨p, d, hd, he⟩
    obtain ⟨c, hc, rfl, hd'⟩ := (g.wired.dependances p d).mp hd
    exact ⟨c, hc, d, hd', he⟩

theorem mem_reinstatements {e : PredicateEffect π} :
    e ∈ g.instruction.theReinstatementEffects ↔
      ∃ p, ∃ d ∈ g.fed p, e = .squash (.annul d) ∨ e = .satisfy (.exec p) := by
  rw [g.wired.reinstatements]
  constructor
  · rintro ⟨c, hc, d, hd, he⟩
    exact ⟨c.exec, d, (g.wired.dependances c.exec d).mpr ⟨c, hc, rfl, hd⟩, he⟩
  · rintro ⟨p, d, hd, he⟩
    obtain ⟨c, hc, rfl, hd'⟩ := (g.wired.dependances p d).mp hd
    exact ⟨c, hc, d, hd', he⟩

omit [DecidableEq π] in
/-- What an action sets is looked up under the code of the result. -/
theorem exists_lookup (h : d ∈ (g.producer p).resultCodes) (x : Inputs) :
    ∃ aValue, ((g.producer p).results x).lookup d = some aValue := by
  rw [← ProducingAction.results_fst x] at h
  obtain ⟨⟨c, aValue⟩, hmem, rfl⟩ := List.mem_map.mp h
  cases hl : ((g.producer p).results x).lookup c with
  | some v => exact ⟨v, rfl⟩
  | none =>
    rw [List.lookup_eq_none_iff] at hl
    have hne := hl (c, aValue) hmem
    simp at hne

omit [DecidableEq π] in
theorem lookup_eq_none (h : d ∉ (g.producer p).resultCodes) (x : Inputs) :
    ((g.producer p).results x).lookup d = none := by
  rw [List.lookup_eq_none_iff]
  intro e he
  rw [← ProducingAction.results_fst x] at h
  have hne : d ≠ e.1 := fun heq => h (heq ▸ List.mem_map_of_mem he)
  simpa using hne

/-! ### What one producing action does -/

/-- **A change that concerns one producing action** and the destinations it feeds. -/
structure Local (g : Decoded π) (p : π) (s t : InsnState π) : Prop where
  annulled : t.theAnnulled = s.theAnnulled
  exec : ∀ q, q ≠ p → t.exec q = s.exec q
  inputs : ∀ q, q ≠ p → t.theInputs q = s.theInputs q
  mayRetire : ∀ q, q ≠ p → t.mayRetire q = s.mayRetire q
  destination : ∀ q d, q ≠ p → d ∈ g.fed q → t.destination d = s.destination d

namespace Local

theorem refl : Local g p s s :=
  ⟨rfl, fun _ _ => rfl, fun _ _ => rfl, fun _ _ => rfl, fun _ _ _ _ => rfl⟩

theorem trans (h : Local g p s t) (h' : Local g p t u) : Local g p s u :=
  ⟨h'.annulled.trans h.annulled, fun q hq => (h'.exec q hq).trans (h.exec q hq),
    fun q hq => (h'.inputs q hq).trans (h.inputs q hq),
    fun q hq => (h'.mayRetire q hq).trans (h.mayRetire q hq),
    fun q d hq hd => (h'.destination q d hq hd).trans (h.destination q d hq hd)⟩

theorem setExec (e : SemanticAction) : Local g p s (s.setExec p e) :=
  ⟨rfl, fun _ hq => update_of_ne hq .., fun _ _ => rfl, fun _ _ => rfl,
    fun _ _ _ _ => rfl⟩

/-- A change of a destination concerns the action that feeds it. -/
theorem modify (hd : d ∈ g.fed p) (f : Destination → Destination) :
    Local g p s (s.modify f d) := by
  refine ⟨rfl, fun _ _ => rfl, fun _ _ => rfl, fun _ _ => rfl, fun q d' hq hd' => ?_⟩
  refine update_of_ne ?_ ..
  rintro rfl
  exact hq (eq_of_mem_fed hd (mem_fed.mp hd').2)

end Local

/-- **What holds of a producing action** and the destinations it feeds. -/
structure At (g : Decoded π) (s : InsnState π) (p : π) : Prop where
  signalled : (s.exec p).theSignalled = true → (s.exec p).ready = true ∧
    (s.exec p).thePredicate = true ∧ (s.exec p).theSquashed = false
  queued : (s.exec p).Queued
  retire : g.instruction.feedsRetirement p = true → s.mayRetire p = (s.exec p).theSignalled
  destination : ∀ d ∈ g.fed p, (s.destination d).Sound (s.exec p).theSignalled

/-- An action that has signalled has had its results taken up. -/
def Taken (g : Decoded π) (s : InsnState π) (p : π) : Prop :=
  (s.exec p).theSignalled = true → ∀ d ∈ g.fed p, (s.destination d).writeback.ready = true ∧
    ((g.producer p).results (s.theInputs p)).lookup d = some (s.destination d).theResult

/-- An action that can go on has signalled, or is about to: a load does not wait. -/
def Enabled (g : Decoded π) (s : InsnState π) (p : π) : Prop :=
  (s.exec p).ready = true → (s.exec p).thePredicate = true → (s.exec p).theSignalled = true ∨
    ((g.producer p).hasDoLoad = false ∧ 0 < (s.exec p).pending)

/-- Two states that agree where an action and its destinations are concerned. -/
structure Same (g : Decoded π) (p : π) (s t : InsnState π) : Prop where
  exec : t.exec p = s.exec p
  inputs : t.theInputs p = s.theInputs p
  mayRetire : t.mayRetire p = s.mayRetire p
  destination : ∀ d ∈ g.fed p, t.destination d = s.destination d

theorem Local.same (h : Local g p s t) (hq : q ≠ p) : Same g q s t :=
  ⟨h.exec q hq, h.inputs q hq, h.mayRetire q hq, fun d hd => h.destination q d hq hd⟩

theorem Same.at (h : Same g p s t) (hat : At g s p) : At g t p := by
  refine ⟨?_, ?_, ?_, fun d hd => ?_⟩
  · rw [h.exec]
    exact hat.signalled
  · rw [h.exec]
    exact hat.queued
  · rw [h.exec, h.mayRetire]
    exact hat.retire
  · rw [h.exec, h.destination d hd]
    exact hat.destination d hd

theorem Same.taken (h : Same g p s t) (htaken : Taken g s p) : Taken g t p := by
  intro hs d hd
  rw [h.exec] at hs
  rw [h.destination d hd, h.inputs]
  exact htaken hs d hd

theorem Same.enabled (h : Same g p s t) (henabled : Enabled g s p) : Enabled g t p := by
  rw [Enabled, h.exec]
  exact henabled

omit [DecidableEq π] in
theorem foldl_modify (f : Destination → Destination) {l : List ResultCode} (h : l.Nodup) :
    l.foldl (InsnState.modify · f) s = { s with
      destination := fun d => if d ∈ l then f (s.destination d) else s.destination d } := by
  induction l generalizing s with
  | nil => simp
  | cons c l ih =>
    rw [List.foldl_cons, ih h.of_cons]
    have hc : c ∉ l := (List.nodup_cons.mp h).1
    rw [InsnState.modify]
    congr 1
    funext d
    by_cases hd : d = c
    · subst hd
      simp [hc]
    · simp [hd]

/-- All dependants of an action are told the same, and its flags change. -/
def spread (g : Decoded π) (s : InsnState π) (p : π) (e : SemanticAction) (b : Bool)
    (f : Destination → Destination) : InsnState π where
  theAnnulled := s.theAnnulled
  exec := update s.exec p e
  theInputs := s.theInputs
  mayRetire := if g.instruction.feedsRetirement p then update s.mayRetire p b
    else s.mayRetire
  destination d := if d ∈ g.fed p then f (s.destination d) else s.destination d

section Spread

variable {e : SemanticAction} {b : Bool} {f : Destination → Destination}

theorem spread_eq : (if g.instruction.feedsRetirement p then
      ((g.fed p).foldl (InsnState.modify · f) s).setMayRetire p b
      else (g.fed p).foldl (InsnState.modify · f) s).setExec p e = g.spread s p e b f := by
  rw [foldl_modify f (g.fed_nodup p), spread]
  split <;> rfl

theorem spread_exec : (g.spread s p e b f).exec p = e := update_self ..

theorem spread_mayRetire (h : g.instruction.feedsRetirement p = true) :
    (g.spread s p e b f).mayRetire p = b := by
  rw [spread, if_pos h]
  exact update_self ..

theorem spread_destination (h : d ∈ g.fed p) :
    (g.spread s p e b f).destination d = f (s.destination d) := if_pos h

theorem local_spread : Local g p s (g.spread s p e b f) := by
  refine ⟨rfl, fun _ hq => update_of_ne hq .., fun _ _ => rfl, fun q hq => ?_,
    fun q d hq hd => if_neg fun hd' => hq (eq_of_mem_fed hd' (mem_fed.mp hd).2)⟩
  rw [spread]
  split
  · exact update_of_ne hq ..
  · rfl

end Spread

theorem squashDependants_eq (h : (s.exec p).theSquashed = false) :
    g.squashDependants s p =
      g.spread s p (s.exec p).markSquashed false Destination.squashWriteback := by
  have hexec : ∀ f : Destination → Destination,
      ((g.fed p).foldl (InsnState.modify · f) s).exec p = s.exec p := fun f => by
    rw [foldl_modify f (g.fed_nodup p)]
  rw [Decoded.squashDependants, if_neg (Bool.eq_false_iff.mp h), ← spread_eq, fed]
  split
  · exact congrArg (InsnState.setExec _ p) (congrArg SemanticAction.markSquashed (hexec _))
  · exact congrArg (InsnState.setExec _ p) (congrArg SemanticAction.markSquashed (hexec _))

theorem satisfyDependants_eq (h : (s.exec p).theSignalled = false) :
    g.satisfyDependants s p =
      g.spread s p (s.exec p).signal true Destination.satisfyWriteback := by
  have hexec : ∀ f : Destination → Destination,
      ((g.fed p).foldl (InsnState.modify · f) s).exec p = s.exec p := fun f => by
    rw [foldl_modify f (g.fed_nodup p)]
  rw [Decoded.satisfyDependants, if_neg (Bool.eq_false_iff.mp h), ← spread_eq, fed]
  split
  · exact congrArg (InsnState.setExec _ p) (congrArg SemanticAction.signal (hexec _))
  · exact congrArg (InsnState.setExec _ p) (congrArg SemanticAction.signal (hexec _))

/-- **What is left once the dependants of an action are squashed.** -/
structure SquashedTo (g : Decoded π) (p : π) (e : SemanticAction) (s t : InsnState π) : Prop where
  changes : Local g p s t
  at_self : At g t p
  signalled : (t.exec p).theSignalled = false
  ready : (t.exec p).ready = e.ready
  predicate : (t.exec p).thePredicate = e.thePredicate
  pending : (t.exec p).pending = e.pending
  inputs : t.theInputs p = s.theInputs p
  annul : ∀ d ∈ g.fed p, (t.destination d).annul = (s.destination d).annul

/-- **The dependants of an action are squashed** after its other flags have changed. -/
theorem At.squashDependants (h : At g s p) {e : SemanticAction} (hqueued : e.Queued)
    (hsignalled : e.theSignalled = (s.exec p).theSignalled)
    (hsquashed : e.theSquashed = (s.exec p).theSquashed) :
    SquashedTo g p e s (g.squashDependants (s.setExec p e) p) := by
  have hself : (s.setExec p e).exec p = e := update_self ..
  by_cases hsq : e.theSquashed = true
  · have hs : (s.exec p).theSignalled = false := by
      rw [Bool.eq_false_iff]
      intro hs
      rw [hsquashed, (h.signalled hs).2.2] at hsq
      cases hsq
    have hes : e.theSignalled = false := hsignalled.trans hs
    have heq : g.squashDependants (s.setExec p e) p = s.setExec p e := by
      rw [Decoded.squashDependants, hself]
      exact if_pos hsq
    rw [heq]
    refine ⟨Local.setExec e, ⟨fun hs' => ?_, ?_, fun hf => ?_, fun d hd => ?_⟩, ?_, ?_, ?_, ?_, rfl,
      fun d hd => rfl⟩
    · rw [hself, hes] at hs'
      cases hs'
    · rw [hself]
      exact hqueued
    · rw [hself, hes, ← hs]
      exact h.retire hf
    · rw [hself, hes, ← hs]
      exact h.destination d hd
    · rw [hself, hes]
    · rw [hself]
    · rw [hself]
    · rw [hself]
  · have hsq' : ((s.setExec p e).exec p).theSquashed = false := by
      rw [hself]
      exact Bool.eq_false_iff.mpr hsq
    rw [squashDependants_eq hsq', hself]
    refine ⟨(Local.setExec e).trans local_spread, ⟨fun hs' => ?_, ?_, fun hf => ?_,
      fun d hd => ?_⟩, ?_, ?_, ?_, ?_, rfl, fun d hd => ?_⟩
    · rw [spread_exec] at hs'
      cases hs'
    · rw [spread_exec]
      exact hqueued
    · rw [spread_mayRetire hf, spread_exec]
      rfl
    · rw [spread_destination hd]
      exact (h.destination d hd).squashWriteback
    · rw [spread_exec]
      rfl
    · rw [spread_exec]
      rfl
    · rw [spread_exec]
      rfl
    · rw [spread_exec]
      rfl
    · rw [spread_destination hd]
      exact Destination.squashWriteback_annul

/-- **What is left once an action has set its results** and told its dependants. -/
structure Produced (g : Decoded π) (p : π) (s t : InsnState π) : Prop where
  changes : Local g p s t
  at_self : At g t p
  taken : Taken g t p
  signalled : (t.exec p).theSignalled = true
  ready : (t.exec p).ready = (s.exec p).ready
  predicate : (t.exec p).thePredicate = (s.exec p).thePredicate
  annul : ∀ d ∈ g.fed p, (t.destination d).annul = (s.destination d).annul

omit [DecidableEq π] in
theorem setOperands_of_some {l : List (ResultCode × RegisterBits)} {aValue : RegisterBits}
    (h : l.lookup d = some aValue) :
    (s.setOperands l).destination d = { s.destination d with theResult := aValue } := by
  simp only [InsnState.setOperands, h, Option.getD_some]

omit [DecidableEq π] in
theorem setOperands_of_none {l : List (ResultCode × RegisterBits)} (h : l.lookup d = none) :
    (s.setOperands l).destination d = s.destination d := by
  simp only [InsnState.setOperands, h, Option.getD_none]

theorem local_setOperands (x : Inputs) :
    Local g p s (s.setOperands ((g.producer p).results x)) := by
  refine ⟨rfl, fun _ _ => rfl, fun _ _ => rfl, fun _ _ => rfl, fun q d hq hd => ?_⟩
  have hcode : d ∉ (g.producer p).resultCodes := fun hcode => hq (eq_of_mem_fed hd hcode).symm
  exact setOperands_of_none (lookup_eq_none hcode x)

/-- **An action sets its results.** Unless it has signalled, nothing is written back meanwhile. -/
theorem At.produce (h : At g s p) (htaken : Taken g s p) (hready : (s.exec p).ready = true)
    (hpred : (s.exec p).thePredicate = true)
    (hannul : (s.exec p).theSignalled = false →
      ∀ d ∈ g.fed p, (s.destination d).annul.theSignalled = false) :
    Produced g p s (g.produce s p) := by
  by_cases hs : (s.exec p).theSignalled = true
  · have heq : g.produce s p = s.setOperands ((g.producer p).results (s.theInputs p)) :=
      if_pos hs
    have hsame : Same g p s (g.produce s p) := by
      rw [heq]
      exact ⟨rfl, rfl, rfl, fun d hd => setOperands_of_some (htaken hs d hd).2⟩
    refine ⟨heq ▸ local_setOperands _, hsame.at h, hsame.taken htaken, ?_, ?_, ?_, fun d hd => ?_⟩
    · rw [hsame.exec, hs]
    · rw [hsame.exec]
    · rw [hsame.exec]
    · rw [hsame.destination d hd]
  · rw [Bool.not_eq_true] at hs
    obtain ⟨u, hu⟩ : ∃ u, u = s.setOperands ((g.producer p).results (s.theInputs p)) := ⟨_, rfl⟩
    have hloc : Local g p s u := hu ▸ local_setOperands _
    have hexec : u.exec p = s.exec p := by rw [hu]; rfl
    have hinputs : u.theInputs p = s.theInputs p := by rw [hu]; rfl
    have hres : ∀ d ∈ g.fed p, ∃ aValue,
        ((g.producer p).results (s.theInputs p)).lookup d = some aValue ∧
          u.destination d = { s.destination d with theResult := aValue } := by
      intro d hd
      obtain ⟨aValue, hl⟩ := exists_lookup (mem_fed.mp hd).2 (s.theInputs p)
      rw [hu]
      exact ⟨aValue, hl, setOperands_of_some hl⟩
    have heq : g.produce s p =
        g.spread u p (s.exec p).signal true Destination.satisfyWriteback := by
      rw [← hexec, ← satisfyDependants_eq (by rw [hexec, hs]), hu]
      rfl
    have hsound : ∀ d ∈ g.fed p, (u.destination d).Sound false := by
      intro d hd
      obtain ⟨aValue, -, hdest⟩ := hres d hd
      rw [hdest]
      have hx := h.destination d hd
      rw [hs] at hx
      exact hx.setResult (hx.not_ready rfl (hannul hs d hd)) aValue
    rw [heq]
    refine ⟨hloc.trans local_spread, ⟨fun _ => ?_, ?_, fun hf => ?_, fun d hd => ?_⟩,
      fun _ d hd => ?_, ?_, ?_, ?_, fun d hd => ?_⟩
    · rw [spread_exec]
      exact ⟨hready, hpred, rfl⟩
    · rw [spread_exec]
      exact h.queued
    · rw [spread_mayRetire hf, spread_exec]
      rfl
    · rw [spread_exec, spread_destination hd]
      exact (hsound d hd).satisfyWriteback (Or.inl rfl)
    · obtain ⟨aValue, hl, hdest⟩ := hres d hd
      rw [spread_destination hd]
      refine ⟨(hsound d hd).satisfyWriteback_ready, ?_⟩
      have hinputs' : (g.spread u p (s.exec p).signal true
          Destination.satisfyWriteback).theInputs p = s.theInputs p := hinputs
      rw [hinputs', hl, Destination.satisfyWriteback, hdest]
    · rw [spread_exec]
      rfl
    · rw [spread_exec]
      rfl
    · rw [spread_exec]
      rfl
    · obtain ⟨aValue, -, hdest⟩ := hres d hd
      rw [spread_destination hd, Destination.satisfyWriteback, hdest]

/-! ### What holds between events -/

/-- **What holds of a producing action between events.** Which of the two sources of a write-back
counts is settled by the predicates. -/
structure Inv (g : Decoded π) (s : InsnState π) (p : π) : Prop extends At g s p where
  taken : Taken g s p
  enabled : Enabled g s p
  copied : ∀ d ∈ g.fed p, (s.destination d).Copied
  predicate : (s.exec p).thePredicate = (!s.theAnnulled || (g.fed p).isEmpty)
  annul : ∀ d ∈ g.fed p, (s.destination d).annul.thePredicate = s.theAnnulled

theorem Same.inv (h : Same g p s t) (hannulled : t.theAnnulled = s.theAnnulled)
    (hinv : Inv g s p) : Inv g t p := by
  refine ⟨h.at hinv.toAt, h.taken hinv.taken, h.enabled hinv.enabled, fun d hd => ?_, ?_,
    fun d hd => ?_⟩
  · rw [h.destination d hd]
    exact hinv.copied d hd
  · rw [h.exec, hannulled]
    exact hinv.predicate
  · rw [h.destination d hd, hannulled]
    exact hinv.annul d hd

/-- **A change that concerns one action** leaves the others to what held of them. -/
theorem Local.inv (h : Local g p s t) (hinv : ∀ q, Inv g s q) (hp : Inv g t p) :
    ∀ q, Inv g t q := by
  intro q
  by_cases hq : q = p
  · rw [hq]
    exact hp
  · exact (h.same hq).inv h.annulled (hinv q)

/-- Where the predicate of an action is on, its results are not annulled. -/
theorem Inv.annul_not_signalled (h : Inv g s p) (hp : (s.exec p).thePredicate = true)
    (hd : d ∈ g.fed p) : (s.destination d).annul.theSignalled = false := by
  rw [Bool.eq_false_iff]
  intro hs
  have hpred := ((h.destination d hd).annul_signalled hs).2.1
  have hempty : (g.fed p).isEmpty = false := by
    rw [List.isEmpty_eq_false_iff]
    exact List.ne_nil_of_mem hd
  rw [h.annul d hd] at hpred
  rw [h.predicate, hpred, hempty] at hp
  cases hp

theorem Inv.of_keeps (h : Inv g s p) (hloc : Local g p s t) (hat : At g t p)
    (htaken : Taken g t p) (henabled : Enabled g t p)
    (hpred : (t.exec p).thePredicate = (s.exec p).thePredicate)
    (hannul : ∀ d ∈ g.fed p, (t.destination d).annul = (s.destination d).annul)
    (hidle : (s.exec p).thePredicate = false →
      ∀ d ∈ g.fed p, t.destination d = s.destination d) : Inv g t p := by
  refine ⟨hat, htaken, henabled, fun d hd => ?_, ?_, fun d hd => ?_⟩
  · by_cases hp : (s.exec p).thePredicate = true
    · refine .of_not_signalled ?_
      rw [hannul d hd]
      exact h.annul_not_signalled hp hd
    · rw [hidle (Bool.eq_false_iff.mpr hp) d hd]
      exact h.copied d hd
  · rw [hpred, hloc.annulled]
    exact h.predicate
  · rw [hannul d hd, hloc.annulled]
    exact h.annul d hd

/-! ### Events of a producing action -/

/-- What is left where the results are set, or are not yet there. -/
structure Loaded (g : Decoded π) (p : π) (s t : InsnState π) : Prop where
  changes : Local g p s t
  at_self : At g t p
  taken : Taken g t p
  enabled : Enabled g t p
  ready : (t.exec p).ready = (s.exec p).ready
  predicate : (t.exec p).thePredicate = (s.exec p).thePredicate
  annul : ∀ d ∈ g.fed p, (t.destination d).annul = (s.destination d).annul
  idle : (s.exec p).thePredicate = false → t.destination = s.destination

theorem Produced.loaded (h : Produced g p s t) (hp : (s.exec p).thePredicate = true) :
    Loaded g p s t := by
  refine ⟨h.changes, h.at_self, h.taken, fun _ _ => Or.inl h.signalled, h.ready, h.predicate,
    h.annul, fun hp' => ?_⟩
  rw [hp] at hp'
  cases hp'

/-- **A load that has its value signals.** -/
theorem At.doLoadIfReady (h : At g s p) (htaken : Taken g s p)
    (henabled : (g.producer p).hasDoLoad = false → Enabled g s p)
    (hannul : (g.producer p).hasDoLoad = true → (s.exec p).ready = true →
      (s.exec p).thePredicate = true → (s.exec p).theSignalled = false →
      ∀ d ∈ g.fed p, (s.destination d).annul.theSignalled = false) :
    Loaded g p s (g.doLoadIfReady s p) := by
  rw [Decoded.doLoadIfReady]
  split
  · rename_i hload
    rw [Bool.and_eq_true, Bool.and_eq_true] at hload
    obtain ⟨⟨hl, hr⟩, hp⟩ := hload
    exact (h.produce htaken hr hp (hannul hl hr hp)).loaded hp
  · rename_i hload
    refine ⟨.refl, h, htaken, fun hr hp => ?_, rfl, rfl, fun _ _ => rfl, fun _ => rfl⟩
    by_cases hl : (g.producer p).hasDoLoad = true
    · rw [hl, hr, hp] at hload
      exact absurd rfl hload
    · exact henabled (Bool.eq_false_iff.mpr hl) hr hp

/-- A state in which only the flags of an action have changed. -/
theorem At.setExec (h : At g s p) {e : SemanticAction} (hqueued : e.Queued)
    (hsignalled : e.theSignalled = (s.exec p).theSignalled)
    (hflags : e.theSignalled = true → e.ready = true ∧ e.thePredicate = true ∧
      e.theSquashed = false) : At g (s.setExec p e) p := by
  have hself : (s.setExec p e).exec p = e := update_self ..
  refine ⟨?_, ?_, fun hf => ?_, fun d hd => ?_⟩
  · rw [hself]
    exact hflags
  · rw [hself]
    exact hqueued
  · rw [hself, hsignalled]
    exact h.retire hf
  · rw [hself, hsignalled]
    exact h.destination d hd

theorem Taken.setExec (h : Taken g s p) {e : SemanticAction}
    (hsignalled : e.theSignalled = (s.exec p).theSignalled) : Taken g (s.setExec p e) p := by
  have hself : (s.setExec p e).exec p = e := update_self ..
  rw [Taken, hself, hsignalled]
  exact h

/-- **An operand of a producing action is satisfied.** -/
theorem Inv.satisfyExec (h : Inv g s p) {i : Fin 5} {x : Inputs}
    (hx : (s.exec p).ready = true → x = s.theInputs p) :
    Local g p s (g.satisfyExec s p i x) ∧ Inv g (g.satisfyExec s p i x) p := by
  obtain ⟨u, hu⟩ : ∃ u : InsnState π, u = { s with
    theInputs := update s.theInputs p x } := ⟨_, rfl⟩
  have hloc : Local g p s u := by
    rw [hu]
    exact ⟨rfl, fun _ _ => rfl, fun _ hq => update_of_ne hq .., fun _ _ => rfl, fun _ _ _ _ => rfl⟩
  have hexec : u.exec p = s.exec p := by rw [hu]
  have hdest : u.destination = s.destination := by rw [hu]
  have hat : At g u p := by
    rw [hu]
    exact ⟨h.signalled, h.queued, h.retire, h.destination⟩
  have htaken : Taken g u p := by
    intro hs d hd
    rw [hexec] at hs
    have hinputs : u.theInputs p = s.theInputs p := by
      rw [hu]
      exact (update_self ..).trans (hx (h.signalled hs).1)
    rw [hinputs, hdest]
    exact h.taken hs d hd
  have hsignalled : ((s.exec p).satisfy i).theSignalled = (u.exec p).theSignalled := by
    rw [hexec, SemanticAction.satisfy_theSignalled]
  have hself : (u.setExec p ((s.exec p).satisfy i)).exec p = (s.exec p).satisfy i :=
    update_self ..
  have hmono : (s.exec p).ready = true → ((s.exec p).satisfy i).ready = true := by
    intro hr
    rw [SemanticAction.satisfy_ready, SemanticAction.ready_iff]
    intro j
    by_cases hj : j = i
    · rw [hj, SemanticAction.setReady_self]
    · rw [SemanticAction.setReady_of_ne hj]
      exact SemanticAction.ready_iff.mp hr j
  have hstep : g.satisfyExec s p i x =
      g.doLoadIfReady (u.setExec p ((s.exec p).satisfy i)) p := by
    rw [hu]
    rfl
  have hload : Loaded g p (u.setExec p ((s.exec p).satisfy i)) (g.satisfyExec s p i x) := by
    rw [hstep]
    refine At.doLoadIfReady (hat.setExec h.queued.satisfy hsignalled fun hs => ?_)
      (htaken.setExec hsignalled) (fun hl hr hp => ?_) fun hl hr hp hs d hd => ?_
    · rw [SemanticAction.satisfy_theSignalled] at hs
      obtain ⟨hr, hp, -⟩ := h.signalled hs
      exact ⟨hmono hr, SemanticAction.satisfy_thePredicate.trans hp,
        SemanticAction.satisfy_theSquashed⟩
    · rw [hself] at hr hp ⊢
      rw [SemanticAction.satisfy_thePredicate] at hp
      rw [SemanticAction.satisfy_theSignalled]
      by_cases hwas : (s.exec p).ready = true
      · rcases h.enabled hwas hp with hs | ⟨-, hpend⟩
        · exact Or.inl hs
        · exact Or.inr ⟨hl, hpend.trans_le SemanticAction.le_satisfy_pending⟩
      · exact Or.inr ⟨hl, h.queued.satisfy_pending (Bool.eq_false_iff.mpr hwas) hr⟩
    · rw [hself, SemanticAction.satisfy_thePredicate] at hp
      have hd' : (s.destination d).annul.theSignalled = false := h.annul_not_signalled hp hd
      rw [← hdest] at hd'
      exact hd'
  have hall := (hloc.trans (Local.setExec ((s.exec p).satisfy i))).trans hload.changes
  have hannul : ∀ d ∈ g.fed p,
      ((g.satisfyExec s p i x).destination d).annul = (s.destination d).annul := by
    intro d hd
    rw [hload.annul d hd, ← hdest]
    rfl
  have hpred : ((u.setExec p ((s.exec p).satisfy i)).exec p).thePredicate =
      (s.exec p).thePredicate := by
    rw [hself, SemanticAction.satisfy_thePredicate]
  refine ⟨hall, h.of_keeps hall hload.at_self hload.taken hload.enabled
    (hload.predicate.trans hpred) hannul fun hp d hd => ?_⟩
  rw [hload.idle (hpred.trans hp), ← hdest]
  rfl

/-- **An operand of a producing action is squashed.** -/
theorem Inv.squashExec (h : Inv g s p) {i : Fin 5} :
    Local g p s (g.squashExec s p i) ∧ Inv g (g.squashExec s p i) p := by
  have hself : (s.setExec p ((s.exec p).setReady i false)).exec p =
      (s.exec p).setReady i false := update_self ..
  have hready : ((s.exec p).setReady i false).ready = false :=
    SemanticAction.ready_setReady_false
  rw [Decoded.squashExec]
  by_cases hp : ((s.setExec p ((s.exec p).setReady i false)).exec p).thePredicate = true
  · rw [if_pos hp]
    rw [hself] at hp
    have hsq := h.squashDependants (e := (s.exec p).setReady i false) h.queued rfl rfl
    refine ⟨hsq.changes, h.of_keeps hsq.changes hsq.at_self (fun hs => ?_) (fun hr => ?_)
      hsq.predicate hsq.annul fun hp' => ?_⟩
    · rw [hsq.signalled] at hs
      cases hs
    · rw [hsq.ready, hready] at hr
      cases hr
    · have hp'' : (s.exec p).thePredicate = true := hp
      rw [hp'] at hp''
      cases hp''
  · rw [if_neg hp]
    rw [hself] at hp
    have hs : ¬(s.exec p).theSignalled = true := fun hs => hp (h.signalled hs).2.1
    have hloc : Local g p s (s.setExec p ((s.exec p).setReady i false)) := Local.setExec _
    refine ⟨hloc, h.of_keeps hloc (h.setExec h.queued rfl fun hs' => absurd hs' hs)
      (h.taken.setExec rfl) (fun hr => ?_) ?_ (fun _ _ => rfl) fun _ _ _ => rfl⟩
    · rw [hself, hready] at hr
      cases hr
    · rw [hself]
      rfl

/-- **A producing action is evaluated.** -/
theorem Inv.evaluateExec (h : Inv g s p) (hasPredecessorExecuted : Bool) :
    Local g p s (g.evaluateExec s p hasPredecessorExecuted) ∧
      Inv g (g.evaluateExec s p hasPredecessorExecuted) p := by
  obtain ⟨u, hu⟩ : ∃ u : InsnState π, u = s.setExec p (s.exec p).take := ⟨_, rfl⟩
  have hself : u.exec p = (s.exec p).take := by
    rw [hu]
    exact update_self ..
  have hdest : u.destination = s.destination := by rw [hu]; rfl
  have hloc : Local g p s u := hu ▸ Local.setExec _
  have hqueued : (s.exec p).take.Queued := fun hs => nomatch hs
  have hat : At g u p := hu ▸ h.setExec hqueued rfl h.signalled
  have htaken : Taken g u p := hu ▸ h.taken.setExec rfl
  have hpredu : (u.exec p).thePredicate = (s.exec p).thePredicate := by rw [hself]; rfl
  have hannulu : ∀ d ∈ g.fed p, (u.destination d).annul = (s.destination d).annul :=
    fun d _ => by rw [hdest]
  rw [Decoded.evaluateExec, ← hu]
  by_cases hgo : ((u.exec p).thePredicate && (u.exec p).ready &&
      !(g.producer p).hasDoLoad) = true
  · rw [Bool.and_eq_true, Bool.and_eq_true, Bool.not_eq_true'] at hgo
    obtain ⟨⟨hp, hr⟩, hl⟩ := hgo
    rw [if_pos (by rw [hp, hr, hl]; rfl)]
    by_cases hb : hasPredecessorExecuted = true
    · rw [if_pos hb]
      have hprod : Produced g p u (g.produce u p) := by
        refine hat.produce htaken hr hp fun _ d hd => ?_
        rw [hdest]
        exact h.annul_not_signalled (hpredu ▸ hp) hd
      have hall := hloc.trans hprod.changes
      refine ⟨hall, h.of_keeps hall hprod.at_self hprod.taken
        (fun _ _ => Or.inl hprod.signalled) (hprod.predicate.trans hpredu)
        (fun d hd => (hprod.annul d hd).trans (hannulu d hd)) fun hp' => ?_⟩
      rw [← hpredu, hp] at hp'
      cases hp'
    · rw [if_neg hb]
      have hself' : (u.setExec p (u.exec p).reschedule).exec p = (u.exec p).reschedule :=
        update_self ..
      have hloc' := hloc.trans (Local.setExec (g := g) (u.exec p).reschedule)
      refine ⟨hloc', h.of_keeps hloc' (hat.setExec hat.queued.reschedule
        SemanticAction.reschedule_theSignalled fun hs => ?_)
        (htaken.setExec SemanticAction.reschedule_theSignalled) (fun _ _ => Or.inr ⟨hl, ?_⟩) ?_
        hannulu fun _ d _ => ?_⟩
      · rw [SemanticAction.reschedule_theSignalled] at hs
        rw [SemanticAction.reschedule_ready, SemanticAction.reschedule_thePredicate,
          SemanticAction.reschedule_theSquashed]
        exact hat.signalled hs
      · rw [hself']
        exact hat.queued.reschedule_pending
      · rw [hself', SemanticAction.reschedule_thePredicate, hpredu]
      · exact congrFun hdest d
  · rw [if_neg hgo]
    refine ⟨hloc, h.of_keeps hloc hat htaken (fun hr hp => ?_) hpredu hannulu
      fun _ d _ => congrFun hdest d⟩
    have hl : (g.producer p).hasDoLoad = true := by
      by_contra hl
      rw [Bool.not_eq_true] at hl
      exact hgo (by rw [hr, hp, hl]; rfl)
    rw [hself] at hr hp ⊢
    rcases h.enabled hr hp with hs | ⟨hl', -⟩
    · exact Or.inl hs
    · rw [hl] at hl'
      cases hl'

/-! ### Events of a destination -/

omit [DecidableEq π] in
theorem modify_destination (f : Destination → Destination) :
    (s.modify f d).destination d = f (s.destination d) := update_self ..

omit [DecidableEq π] in
theorem modify_destination_of_ne (f : Destination → Destination) {d' : ResultCode} (h : d' ≠ d) :
    (s.modify f d).destination d' = s.destination d' := update_of_ne h ..

/-- **A change of a destination** that leaves a write-back to its producing action. -/
theorem Inv.modify (h : Inv g s p) (hd : d ∈ g.fed p) {f : Destination → Destination}
    (hsound : (f (s.destination d)).Sound (s.exec p).theSignalled)
    (hcopied : (f (s.destination d)).Copied)
    (hpred : (f (s.destination d)).annul.thePredicate =
      (s.destination d).annul.thePredicate)
    (htaken : (s.destination d).annul.thePredicate = false →
      (f (s.destination d)).writeback.ready = (s.destination d).writeback.ready ∧
        (f (s.destination d)).theResult = (s.destination d).theResult) :
    Inv g (s.modify f d) p := by
  have hdest : ∀ d' ∈ g.fed p, d' ≠ d →
      (s.modify f d).destination d' = s.destination d' := fun d' _ hne =>
    modify_destination_of_ne f hne
  refine ⟨⟨h.signalled, h.queued, h.retire, fun d' hd' => ?_⟩, fun hs d' hd' => ?_, h.enabled,
    fun d' hd' => ?_, h.predicate, fun d' hd' => ?_⟩
  · by_cases hne : d' = d
    · rw [hne, modify_destination]
      exact hsound
    · rw [hdest d' hd' hne]
      exact h.destination d' hd'
  · have hs' : (s.exec p).theSignalled = true := hs
    by_cases hne : d' = d
    · have hoff : (s.destination d).annul.thePredicate = false := by
        have hon := (h.signalled hs').2.1
        have hempty : (g.fed p).isEmpty = false := by
          rw [List.isEmpty_eq_false_iff]
          exact List.ne_nil_of_mem hd
        rw [h.predicate, hempty, Bool.or_false, Bool.not_eq_true'] at hon
        rw [h.annul d hd, hon]
      rw [hne, modify_destination, (htaken hoff).1, (htaken hoff).2]
      exact h.taken hs' d hd
    · rw [hdest d' hd' hne]
      exact h.taken hs' d' hd'
  · by_cases hne : d' = d
    · rw [hne, modify_destination]
      exact hcopied
    · rw [hdest d' hd' hne]
      exact h.copied d' hd'
  · by_cases hne : d' = d
    · rw [hne, modify_destination, hpred]
      exact h.annul d hd
    · rw [hdest d' hd' hne]
      exact h.annul d' hd'

theorem Inv.evaluateWriteback (h : Inv g s p) (hd : d ∈ g.fed p) :
    Inv g (s.modify Destination.evaluateWriteback d) p :=
  h.modify hd (h.destination d hd).evaluateWriteback (h.copied d hd).evaluateWriteback
    (congrArg _ Destination.evaluateWriteback_annul) fun _ =>
      ⟨Destination.evaluateWriteback_writeback_ready, Destination.evaluateWriteback_theResult⟩

theorem Inv.squashPrevious (h : Inv g s p) (hd : d ∈ g.fed p) :
    Inv g (s.modify Destination.squashPrevious d) p :=
  h.modify hd (h.destination d hd).squashPrevious
    (.squashPrevious (h.destination d hd)) Destination.squashPrevious_annul_thePredicate
    Destination.squashPrevious_off

theorem Inv.writePrevious (h : Inv g s p) (hd : d ∈ g.fed p)
    (hprev : (s.destination d).thePrevious.theStatus ≠ .ready) (aValue : RegisterBits) :
    Inv g (s.modify (Destination.writePrevious · aValue) d) p :=
  h.modify hd ((h.destination d hd).writePrevious hprev aValue)
    (.writePrevious (h.destination d hd) hprev aValue)
    (Destination.writePrevious_annul aValue).1 fun _ => Destination.writePrevious_writeback aValue

end Decoded

end Decoder

end Flexus
