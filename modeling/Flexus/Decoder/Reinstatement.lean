import Flexus.Decoder.Producing

/-!
# Annulment and reinstatement

An annulment turns the producing actions off and the annulling ones on, one effect after the other,
and a reinstatement does the opposite. In the middle of it both sources of a write-back may be on,
and a load signals there and then. What it signals is taken back by the squash of an annulling
action that comes later, and an action signals only once: the write-back waits for ever. This
happens where a load feeds two destinations that were added one after the other, as `LDD` does, and
the second of them was completed as annulled. `addDoubleFloatingWriteback` has its effects in
another order, for this very reason.

The other way to wait for ever is a producing action that feeds both a write-back and the
retirement itself, as that of `UMUL` to `%g0` does: it is off while the instruction is annulled.

Where neither happens an instruction that has settled may retire, and its registers hold what they
should (`Flexus.Decoder.Decoded.settled_right`).
-/

namespace Flexus

open List

namespace Decoder

open Lib UArch

variable {π : Type} [DecidableEq π] {g : Decoded π} {s t u : InsnState π} {p q : π}
  {d : ResultCode} {es : List (PredicateEffect π)}

namespace Destination

variable {x : Destination}

theorem squashAnnulDependants_annul :
    x.squashAnnulDependants.annul.theSquashed = true ∧
      (x.annul.theSignalled = false → x.squashAnnulDependants.annul.theSignalled = false) := by
  rw [squashAnnulDependants]
  split
  · rename_i h
    exact ⟨h, id⟩
  · exact ⟨rfl, fun _ => rfl⟩

theorem annulOn_annul (h : x.annul.theSignalled = false) :
    x.annulOn.annul.thePredicate = true ∧ x.annulOn.annul.theSignalled = false := by
  rw [annulOn]
  split
  · rename_i hp
    exact ⟨hp, h⟩
  · exact ⟨squashAnnulDependants_annul_thePredicate,
      squashAnnulDependants_annul.2 (SemanticAction.reschedule_theSignalled.trans h)⟩

theorem annulOff_thePredicate : x.annulOff.annul.thePredicate = false := by
  rw [annulOff]
  split
  · exact squashAnnulDependants_annul_thePredicate
  · rename_i hp
    exact Bool.eq_false_iff.mpr hp

theorem annulOff_theSquashed (h : x.annul.theSquashed = true) :
    x.annulOff.annul.theSquashed = true := by
  rw [annulOff]
  split
  · exact squashAnnulDependants_annul.1
  · exact h

/-- An annulling action that is squashed has nothing to take back. -/
theorem annulOff_writeback (h : x.annul.thePredicate = true → x.annul.theSquashed = true) :
    x.annulOff.writeback = x.writeback ∧ x.annulOff.theResult = x.theResult := by
  rw [annulOff]
  split
  · rename_i hp
    have hsq : ({ x.annul.reschedule with thePredicate := false } :
        SemanticAction).theSquashed = true :=
      SemanticAction.reschedule_theSquashed.trans (h hp)
    rw [squashAnnulDependants, if_pos hsq]
    exact ⟨rfl, rfl⟩
  · exact ⟨rfl, rfl⟩

end Destination

namespace Decoded

/-! ### A predicate is turned over -/

/-- **The predicate of a producing action is turned off.** -/
theorem At.predicateOff (h : At g s p) :
    Local g p s (g.predicateOff s p) ∧ At g (g.predicateOff s p) p ∧
      ((g.predicateOff s p).exec p).thePredicate = false ∧
      ∀ d ∈ g.fed p, ((g.predicateOff s p).destination d).annul = (s.destination d).annul := by
  rw [Decoded.predicateOff]
  split
  · have hsq := h.squashDependants
      (e := { (s.exec p).reschedule with thePredicate := false }) h.queued.reschedule
      SemanticAction.reschedule_theSignalled SemanticAction.reschedule_theSquashed
    exact ⟨hsq.changes, hsq.at_self, hsq.predicate, hsq.annul⟩
  · rename_i hp
    exact ⟨.refl, h, Bool.eq_false_iff.mpr hp, fun _ _ => rfl⟩

/-- What is left once the predicate of a producing action is on. -/
structure TurnedOn (g : Decoded π) (p : π) (s t : InsnState π) : Prop where
  changes : Local g p s t
  at_self : At g t p
  taken : Taken g t p
  enabled : Enabled g t p
  ready : (t.exec p).ready = (s.exec p).ready
  predicate : (t.exec p).thePredicate = true
  annul : ∀ d ∈ g.fed p, (t.destination d).annul = (s.destination d).annul
  signalled : (t.exec p).theSignalled = true → (s.exec p).theSignalled = true ∨
    ((g.producer p).hasDoLoad = true ∧ (s.exec p).ready = true)

/-- **The predicate of a producing action is turned on.** -/
theorem At.predicateOn (h : At g s p) (htaken : Taken g s p) (henabled : Enabled g s p)
    (hannul : (g.producer p).hasDoLoad = true → (s.exec p).ready = true →
      (s.exec p).thePredicate = false →
      ∀ d ∈ g.fed p, (s.destination d).annul.theSignalled = false) :
    TurnedOn g p s (g.predicateOn s p) := by
  rw [Decoded.predicateOn]
  by_cases hp : (s.exec p).thePredicate = true
  · rw [if_pos hp]
    have hload := h.doLoadIfReady htaken (fun _ => henabled) fun hl hr _ hs => by
      rcases henabled hr hp with hs' | ⟨hl', -⟩
      · rw [hs] at hs'
        cases hs'
      · rw [hl] at hl'
        cases hl'
    refine ⟨hload.changes, hload.at_self, hload.taken, hload.enabled, hload.ready,
      hload.predicate.trans hp, hload.annul, fun hs => ?_⟩
    obtain ⟨hr, -, -⟩ := hload.at_self.signalled hs
    rw [hload.ready] at hr
    by_cases hl : (g.producer p).hasDoLoad = true
    · exact Or.inr ⟨hl, hr⟩
    · have hsame : g.doLoadIfReady s p = s := by
        rw [Decoded.doLoadIfReady, if_neg (by simp [hl])]
      rw [hsame] at hs
      exact Or.inl hs
  · rw [if_neg hp]
    obtain ⟨u, hu⟩ : ∃ u, u = g.squashDependants
      (s.setExec p { (s.exec p).reschedule with thePredicate := true }) p := ⟨_, rfl⟩
    have hsq : SquashedTo g p { (s.exec p).reschedule with thePredicate := true } s u :=
      hu ▸ h.squashDependants h.queued.reschedule SemanticAction.reschedule_theSignalled
        SemanticAction.reschedule_theSquashed
    have hready : (u.exec p).ready = (s.exec p).ready :=
      hsq.ready.trans SemanticAction.reschedule_ready
    have hns : ¬(u.exec p).theSignalled = true := Bool.eq_false_iff.mp hsq.signalled
    rw [← hu]
    have hload := hsq.at_self.doLoadIfReady (fun hs => absurd hs hns)
      (fun hl _ _ => Or.inr ⟨hl, by
        rw [hsq.pending]
        exact h.queued.reschedule_pending⟩) fun hl hr _ _ d hd => by
        rw [hsq.annul d hd]
        exact hannul hl (hready ▸ hr) (Bool.eq_false_iff.mpr hp) d hd
    refine ⟨hsq.changes.trans hload.changes, hload.at_self, hload.taken, hload.enabled,
      hload.ready.trans hready, hload.predicate.trans hsq.predicate,
      fun d hd => (hload.annul d hd).trans (hsq.annul d hd), fun hs => Or.inr ?_⟩
    obtain ⟨hr, -, -⟩ := hload.at_self.signalled hs
    rw [hload.ready, hready] at hr
    by_cases hl : (g.producer p).hasDoLoad = true
    · exact ⟨hl, hr⟩
    · have hsame : g.doLoadIfReady u p = u := by
        rw [Decoded.doLoadIfReady, if_neg (by simp [hl])]
      rw [hsame] at hs
      exact absurd hs hns

/-! ### In the middle of an annulment -/

/-- **The effects of an annulment that are still to come.** -/
structure Annulling (g : Decoded π) (s : InsnState π) (es : List (PredicateEffect π)) : Prop where
  at_each : ∀ p, At g s p
  enabled : ∀ p, Enabled g s p
  annulled : s.theAnnulled = true
  exec : ∀ p, g.fed p ≠ [] → (s.exec p).thePredicate = true → .squash (.exec p) ∈ es
  idle : ∀ p, g.fed p = [] → (s.exec p).thePredicate = true
  fresh : ∀ p, ∀ d ∈ g.fed p, (s.destination d).annul.theSignalled = false
  annul : ∀ p, ∀ d ∈ g.fed p, (s.destination d).annul.thePredicate = false →
    .satisfy (.annul d) ∈ es

theorem Annulling.step {e : PredicateEffect π} (h : Annulling g s (e :: es))
    (he : e ∈ g.instruction.theAnnulmentEffects) : Annulling g (g.invoke s e) es := by
  obtain ⟨p, d, hd, rfl | rfl⟩ := mem_annulments.mp he
  · obtain ⟨hpred, hsignalled⟩ := Destination.annulOn_annul (h.fresh p d hd)
    have hloc : Local g p s (s.modify Destination.annulOn d) := Local.modify hd _
    refine ⟨fun q => ?_, h.enabled, h.annulled, fun q hq hq' => ?_, h.idle, fun q d' hd' => ?_,
      fun q d' hd' hp => ?_⟩
    · by_cases hq : q = p
      · subst hq
        refine ⟨(h.at_each q).signalled, (h.at_each q).queued, (h.at_each q).retire,
          fun d' hd' => ?_⟩
        by_cases hne : d' = d
        · rw [hne, invoke, modify_destination]
          exact ((h.at_each q).destination d hd).annulOn
        · rw [invoke, modify_destination_of_ne _ hne]
          exact (h.at_each q).destination d' hd'
      · exact (hloc.same hq).at (h.at_each q)
    · exact (mem_cons.mp (h.exec q hq hq')).resolve_left (fun heq => nomatch heq)
    · by_cases hne : d' = d
      · rw [hne, invoke, modify_destination]
        exact hsignalled
      · rw [invoke, modify_destination_of_ne _ hne]
        exact h.fresh q d' hd'
    · by_cases hne : d' = d
      · rw [hne, invoke, modify_destination, hpred] at hp
        cases hp
      · rw [invoke, modify_destination_of_ne _ hne] at hp
        refine (mem_cons.mp (h.annul q d' hd' hp)).resolve_left fun heq => hne ?_
        cases heq
        rfl
  · obtain ⟨hloc, hat, hpred, hannul⟩ := (h.at_each p).predicateOff
    have hannul' : ∀ q, ∀ d' ∈ g.fed q,
        ((g.predicateOff s p).destination d').annul = (s.destination d').annul := by
      intro q d' hd'
      by_cases hq : q = p
      · exact hannul d' (hq ▸ hd')
      · rw [hloc.destination q d' hq hd']
    refine ⟨fun q => ?_, fun q => ?_, hloc.annulled.trans h.annulled, fun q hq hq' => ?_,
      fun q hq => ?_, fun q d' hd' => ?_, fun q d' hd' hp => ?_⟩
    · by_cases hq : q = p
      · exact hq ▸ hat
      · exact (hloc.same hq).at (h.at_each q)
    · by_cases hq : q = p
      · subst hq
        intro _ hon
        have hon' : ((g.predicateOff s q).exec q).thePredicate = true := hon
        rw [hpred] at hon'
        cases hon'
      · exact (hloc.same hq).enabled (h.enabled q)
    · by_cases hqp : q = p
      · subst hqp
        have hon : ((g.predicateOff s q).exec q).thePredicate = true := hq'
        rw [hpred] at hon
        cases hon
      · rw [invoke, hloc.exec q hqp] at hq'
        refine (mem_cons.mp (h.exec q hq hq')).resolve_left fun heq => hqp ?_
        cases heq
        rfl
    · have hqp : q ≠ p := by
        rintro rfl
        rw [hq] at hd
        exact absurd hd not_mem_nil
      rw [invoke, hloc.exec q hqp]
      exact h.idle q hq
    · rw [invoke, hannul' q d' hd']
      exact h.fresh q d' hd'
    · rw [invoke, hannul' q d' hd'] at hp
      exact (mem_cons.mp (h.annul q d' hd' hp)).resolve_left (fun heq => nomatch heq)

theorem Annulling.run (h : Annulling g s es)
    (hes : ∀ e ∈ es, e ∈ g.instruction.theAnnulmentEffects) :
    Annulling g (es.foldl g.invoke s) [] := by
  induction es generalizing s with
  | nil => exact h
  | cons e es ih =>
    exact ih (h.step (hes e mem_cons_self)) fun e' he' => hes e' (mem_cons_of_mem e he')

/-- **An annulment.** -/
theorem annul_inv (h : ∀ p, Inv g s p) (p : π) : Inv g (g.annul s) p := by
  rw [Decoded.annul]
  split
  · exact h p
  · rename_i hann
    rw [Bool.not_eq_true] at hann
    have hstart : Annulling g { s with theAnnulled := true }
        g.instruction.theAnnulmentEffects := by
      refine ⟨fun q => ⟨(h q).signalled, (h q).queued, (h q).retire, (h q).destination⟩,
        fun q => (h q).enabled, rfl, fun q hq _ => ?_, fun q hq => ?_, fun q d hd => ?_,
        fun q d hd _ => mem_annulments.mpr ⟨q, d, hd, Or.inl rfl⟩⟩
      · obtain ⟨d, hd⟩ := exists_mem_of_ne_nil _ hq
        exact mem_annulments.mpr ⟨q, d, hd, Or.inr rfl⟩
      · have hpred := (h q).predicate
        rw [hq, isEmpty_nil, Bool.or_true] at hpred
        exact hpred
      · rw [Bool.eq_false_iff]
        intro hs
        have hpred := (((h q).destination d hd).annul_signalled hs).2.1
        rw [(h q).annul d hd, hann] at hpred
        cases hpred
    have hend := hstart.run fun e he => he
    have hoff : ∀ q, g.fed q ≠ [] → ((g.instruction.theAnnulmentEffects.foldl g.invoke
        { s with theAnnulled := true }).exec q).thePredicate = false := by
      intro q hq
      rw [Bool.eq_false_iff]
      exact fun hon => absurd (hend.exec q hq hon) not_mem_nil
    refine ⟨hend.at_each p, fun hs d hd => ?_, hend.enabled p,
      fun d hd => .of_not_signalled (hend.fresh p d hd), ?_, fun d hd => ?_⟩
    · have hon := ((hend.at_each p).signalled hs).2.1
      rw [hoff p (ne_nil_of_mem hd)] at hon
      cases hon
    · rw [hend.annulled]
      by_cases hp : g.fed p = []
      · rw [hend.idle p hp, hp]
        rfl
      · rw [hoff p hp, isEmpty_eq_false_iff.mpr hp]
        rfl
    · rw [hend.annulled]
      by_contra hp
      rw [Bool.not_eq_true] at hp
      exact absurd (hend.annul p d hd hp) not_mem_nil

/-! ### In the middle of a reinstatement -/

/-- **Some of these effects strand a write-back**: a load that has its value is turned on, and an
annulling action of one of its destinations, which is not squashed, is turned off later. -/
def StrandedBy (g : Decoded π) (s : InsnState π) : List (PredicateEffect π) → Prop
  | [] => False
  | e :: es => (∃ p, e = .satisfy (.exec p) ∧ (g.producer p).hasDoLoad = true ∧
      (s.exec p).ready = true ∧ ∃ d ∈ g.fed p, .squash (.annul d) ∈ es ∧
        (s.destination d).annul.theSquashed = false) ∨ g.StrandedBy s es

/-- What was not stranded is not stranded by effects that keep what is squashed. -/
theorem StrandedBy.mono (h : g.StrandedBy t es)
    (hready : ∀ p, (t.exec p).ready = (s.exec p).ready)
    (hsq : ∀ p, ∀ d ∈ g.fed p, (s.destination d).annul.theSquashed = true →
      (t.destination d).annul.theSquashed = true) : g.StrandedBy s es := by
  induction es with
  | nil => exact h
  | cons e es ih =>
    rcases h with ⟨p, he, hl, hr, d, hd, hmem, hns⟩ | hrest
    · refine Or.inl ⟨p, he, hl, hready p ▸ hr, d, hd, hmem, ?_⟩
      rw [Bool.eq_false_iff]
      intro hs
      rw [hsq p d hd hs] at hns
      cases hns
    · exact Or.inr (ih hrest)

/-- **The effects of a reinstatement that are still to come.** -/
structure Reinstating (g : Decoded π) (s : InsnState π) (es : List (PredicateEffect π)) :
    Prop where
  at_each : ∀ p, At g s p
  taken : ∀ p, Taken g s p
  enabled : ∀ p, Enabled g s p
  annulled : s.theAnnulled = false
  exec : ∀ p, (s.exec p).thePredicate = false → .satisfy (.exec p) ∈ es
  annul : ∀ p, ∀ d ∈ g.fed p, (s.destination d).annul.thePredicate = true →
    .squash (.annul d) ∈ es
  squashed : ∀ p, ∀ d ∈ g.fed p, (s.exec p).theSignalled = true → .squash (.annul d) ∈ es →
    (s.destination d).annul.theSquashed = true
  spared : ¬g.StrandedBy s es

theorem Reinstating.annulOff (h : Reinstating g s (.squash (.annul d) :: es)) (hd : d ∈ g.fed p) :
    Reinstating g (s.modify Destination.annulOff d) es := by
  have hloc : Local g p s (s.modify Destination.annulOff d) := Local.modify hd _
  have hsq : ∀ q, ∀ d' ∈ g.fed q, (s.destination d').annul.theSquashed = true →
      ((s.modify Destination.annulOff d).destination d').annul.theSquashed = true := by
    intro q d' hd' hs
    by_cases hne : d' = d
    · rw [hne, modify_destination]
      exact Destination.annulOff_theSquashed (hne ▸ hs)
    · rw [modify_destination_of_ne _ hne]
      exact hs
  refine ⟨fun q => ?_, fun q => ?_, h.enabled, h.annulled, fun q hq => ?_,
    fun q d' hd' hp => ?_, fun q d' hd' hs hmem => ?_, fun hstranded => h.spared (Or.inr ?_)⟩
  · by_cases hq : q = p
    · subst hq
      refine ⟨(h.at_each q).signalled, (h.at_each q).queued, (h.at_each q).retire, fun d' hd' => ?_⟩
      by_cases hne : d' = d
      · rw [hne, modify_destination]
        exact ((h.at_each q).destination d hd).annulOff
      · rw [modify_destination_of_ne _ hne]
        exact (h.at_each q).destination d' hd'
    · exact (hloc.same hq).at (h.at_each q)
  · by_cases hq : q = p
    · subst hq
      intro hs d' hd'
      by_cases hne : d' = d
      · -- what has signalled is not taken back, since the annulling action is squashed
        obtain ⟨hw, hres⟩ := Destination.annulOff_writeback
          fun _ => h.squashed q d hd hs mem_cons_self
        rw [hne, modify_destination, hw, hres]
        exact h.taken q hs d hd
      · rw [modify_destination_of_ne _ hne]
        exact h.taken q hs d' hd'
    · exact (hloc.same hq).taken (h.taken q)
  · exact (mem_cons.mp (h.exec q hq)).resolve_left (fun heq => nomatch heq)
  · by_cases hne : d' = d
    · rw [hne, modify_destination, Destination.annulOff_thePredicate] at hp
      cases hp
    · rw [modify_destination_of_ne _ hne] at hp
      refine (mem_cons.mp (h.annul q d' hd' hp)).resolve_left fun heq => hne ?_
      cases heq
      rfl
  · exact hsq q d' hd' (h.squashed q d' hd' hs (mem_cons_of_mem _ hmem))
  · exact hstranded.mono (fun _ => rfl) hsq

theorem Reinstating.predicateOn (h : Reinstating g s (.satisfy (.exec p) :: es)) :
    Reinstating g (g.predicateOn s p) es := by
  have hstranded : (g.producer p).hasDoLoad = true → (s.exec p).ready = true →
      ∀ d ∈ g.fed p, .squash (.annul d) ∈ es →
        (s.destination d).annul.theSquashed = true := by
    intro hl hr d hd hmem
    by_contra hs
    rw [Bool.not_eq_true] at hs
    exact h.spared (Or.inl ⟨p, rfl, hl, hr, d, hd, hmem, hs⟩)
  have hon := (h.at_each p).predicateOn (h.taken p) (h.enabled p) fun hl hr _ d hd => by
    rw [Bool.eq_false_iff]
    intro hs
    obtain ⟨-, hp, hsq⟩ := ((h.at_each p).destination d hd).annul_signalled hs
    have hmem := (mem_cons.mp (h.annul p d hd hp)).resolve_left (fun heq => nomatch heq)
    rw [hstranded hl hr d hd hmem] at hsq
    cases hsq
  have hannul : ∀ q, ∀ d ∈ g.fed q,
      ((g.predicateOn s p).destination d).annul = (s.destination d).annul := by
    intro q d hd
    by_cases hq : q = p
    · exact hon.annul d (hq ▸ hd)
    · rw [hon.changes.destination q d hq hd]
  refine ⟨fun q => ?_, fun q => ?_, fun q => ?_, hon.changes.annulled.trans h.annulled,
    fun q hq => ?_, fun q d hd hp => ?_, fun q d hd hs hmem => ?_,
    fun hstr => h.spared (Or.inr ?_)⟩
  · by_cases hq : q = p
    · exact hq ▸ hon.at_self
    · exact (hon.changes.same hq).at (h.at_each q)
  · by_cases hq : q = p
    · exact hq ▸ hon.taken
    · exact (hon.changes.same hq).taken (h.taken q)
  · by_cases hq : q = p
    · exact hq ▸ hon.enabled
    · exact (hon.changes.same hq).enabled (h.enabled q)
  · by_cases hqp : q = p
    · rw [hqp, hon.predicate] at hq
      cases hq
    · rw [hon.changes.exec q hqp] at hq
      refine (mem_cons.mp (h.exec q hq)).resolve_left fun heq => hqp ?_
      cases heq
      rfl
  · rw [hannul q d hd] at hp
    exact (mem_cons.mp (h.annul q d hd hp)).resolve_left (fun heq => nomatch heq)
  · rw [hannul q d hd]
    by_cases hqp : q = p
    · subst hqp
      rcases hon.signalled hs with hs' | ⟨hl, hr⟩
      · exact h.squashed q d hd hs' (mem_cons_of_mem _ hmem)
      · exact hstranded hl hr d hd hmem
    · rw [hon.changes.exec q hqp] at hs
      exact h.squashed q d hd hs (mem_cons_of_mem _ hmem)
  · refine hstr.mono (fun q => ?_) fun q d hd hs => ?_
    · by_cases hq : q = p
      · rw [hq, hon.ready]
      · rw [hon.changes.exec q hq]
    · rw [hannul q d hd]
      exact hs

theorem Reinstating.run (h : Reinstating g s es)
    (hes : ∀ e ∈ es, e ∈ g.instruction.theReinstatementEffects) :
    Reinstating g (es.foldl g.invoke s) [] := by
  induction es generalizing s with
  | nil => exact h
  | cons e es ih =>
    have hrest : ∀ e' ∈ es, e' ∈ g.instruction.theReinstatementEffects :=
      fun e' he' => hes e' (mem_cons_of_mem e he')
    obtain ⟨p, d, hd, rfl | rfl⟩ := mem_reinstatements.mp (hes e mem_cons_self)
    · exact ih (h.annulOff hd) hrest
    · exact ih h.predicateOn hrest

/-- **A reinstatement** that strands nothing. -/
theorem reinstate_inv (h : ∀ p, Inv g s p)
    (hspared : s.theAnnulled = true →
      ¬g.StrandedBy s g.instruction.theReinstatementEffects) (p : π) :
    Inv g (g.reinstate s) p := by
  rw [Decoded.reinstate]
  split
  · rename_i hann
    have hoff : ∀ q, g.fed q ≠ [] → (s.exec q).thePredicate = false := by
      intro q hq
      rw [(h q).predicate, hann, isEmpty_eq_false_iff.mpr hq]
      rfl
    have hstart : Reinstating g { s with theAnnulled := false }
        g.instruction.theReinstatementEffects := by
      refine ⟨fun q => ⟨(h q).signalled, (h q).queued, (h q).retire, (h q).destination⟩,
        fun q => (h q).taken, fun q => (h q).enabled, rfl, fun q hq => ?_,
        fun q d hd _ => mem_reinstatements.mpr ⟨q, d, hd, Or.inl rfl⟩, fun q d hd hs _ => ?_,
        fun hstr => hspared hann (hstr.mono (fun _ => rfl) fun _ _ _ => id)⟩
      · by_cases hfed : g.fed q = []
        · have hpred := (h q).predicate
          have hq' : (s.exec q).thePredicate = false := hq
          rw [hfed, isEmpty_nil, Bool.or_true, hq'] at hpred
          cases hpred
        · obtain ⟨d, hd⟩ := exists_mem_of_ne_nil _ hfed
          exact mem_reinstatements.mpr ⟨q, d, hd, Or.inr rfl⟩
      · have hon := ((h q).signalled hs).2.1
        rw [hoff q (ne_nil_of_mem hd)] at hon
        cases hon
    have hend := hstart.run fun e he => he
    have hfresh : ∀ d ∈ g.fed p, ((g.instruction.theReinstatementEffects.foldl g.invoke
        { s with theAnnulled := false }).destination d).annul.thePredicate = false := by
      intro d hd
      rw [Bool.eq_false_iff]
      exact fun hp => absurd (hend.annul p d hd hp) not_mem_nil
    refine ⟨hend.at_each p, hend.taken p, hend.enabled p, fun d hd => .of_not_signalled ?_, ?_,
      fun d hd => ?_⟩
    · rw [Bool.eq_false_iff]
      intro hs
      have hp := (((hend.at_each p).destination d hd).annul_signalled hs).2.1
      rw [hfresh d hd] at hp
      cases hp
    · rw [hend.annulled]
      by_contra hp
      have hp' : ((g.instruction.theReinstatementEffects.foldl g.invoke
          { s with theAnnulled := false }).exec p).thePredicate = false := by
        simpa using hp
      exact absurd (hend.exec p hp') not_mem_nil
    · rw [hend.annulled, hfresh d hd]
  · exact h p

/-! ### Runs -/

/-- **An event that leaves no write-back waiting for ever**: no annulment turns off what the
retirement waits for, and no reinstatement strands a write-back. -/
def Spares (g : Decoded π) (s : InsnState π) : InsnEvent π → Prop
  | .annul => s.theAnnulled = false →
    ∀ p, g.instruction.feedsRetirement p = true → g.fed p = []
  | .reinstate => s.theAnnulled = true →
    ¬g.StrandedBy s g.instruction.theReinstatementEffects
  | _ => True

/-- Only what the retirement does not wait for is annulled. -/
def Retirable (g : Decoded π) (s : InsnState π) : Prop :=
  s.theAnnulled = true → ∀ p, g.instruction.feedsRetirement p = true → g.fed p = []

theorem initial_inv (i : Dispatched π) (p : π) : Inv g (g.initial i) p := by
  refine ⟨⟨fun hs => ?_, fun hs => ?_, fun hf => ?_, fun d _ => ?_⟩, fun hs => ?_,
    fun hr _ => ?_, fun d _ => .of_not_signalled rfl, rfl, fun d _ => rfl⟩
  · cases hs
  · cases hs
  · have hbit : (g.initial i).mayRetire p = !g.instruction.feedsRetirement p := rfl
    rw [hbit, hf]
    rfl
  · have hunary : ∀ b b', (SemanticAction.create 1 b b').Unary := by
      intro b b' j hj
      have hpos : 1 ≤ j.val := Nat.one_le_iff_ne_zero.mpr fun h0 => hj (Fin.ext h0)
      exact decide_eq_true hpos
    have hready : ∀ b b', ¬(SemanticAction.create 1 b b').ready = true := by
      intro b b'
      exact Bool.eq_false_iff.mp (SemanticAction.not_ready_of (j := 0) rfl)
    exact {
      unary_annul := hunary _ _
      unary_writeback := hunary _ _
      queued_annul := fun hs => nomatch hs
      queued_writeback := fun hs => nomatch hs
      fed := fun hr => absurd hr (hready _ _)
      pending_writeback := fun hr => absurd hr (hready _ _)
      written := fun hs => nomatch hs
      retire := rfl
      annul_signalled := fun hs => nomatch hs
      previous_ready := fun hr => absurd hr (hready _ _)
      ready_of_previous := fun hc => nomatch hc
      pending_annul := fun hp => nomatch hp }
  · cases hs
  · -- what is ready from the start waits for nothing, and was dispatched
    have hnum : (g.producer p).numOperands = 0 := by
      have h0 := SemanticAction.ready_iff.mp hr 0
      have hle : (g.producer p).numOperands ≤ 0 := of_decide_eq_true h0
      exact Nat.le_zero.mp hle
    have hpend : ((g.initial i).exec p).pending = 1 := if_pos (g.created p hnum)
    refine Or.inr ⟨?_, by rw [hpend]; exact Nat.one_pos⟩
    cases hprod : g.producer p with
    | loadAction => rw [hprod] at hnum; cases hnum
    | lddAction => rw [hprod] at hnum; cases hnum
    | loadFloatingAction => rw [hprod] at hnum; cases hnum
    | _ => rfl

/-- **One event**: it fires no assertion, and what held of every producing action holds. -/
theorem step_inv {e : InsnEvent π} (h : ∀ p, Inv g s p) (hr : g.Retirable s)
    (he : g.Allowed s e) (hspares : g.Spares s e) :
    ∃ t, g.step s e = .ok t ∧ (∀ p, Inv g t p) ∧ g.Retirable t := by
  have hsame : ∀ {p t}, Local g p s t → g.Retirable t := fun hloc => by
    rw [Retirable, hloc.annulled]
    exact hr
  cases e with
  | annul =>
    refine ⟨g.annul s, rfl, annul_inv h, fun _ => ?_⟩
    by_cases hann : s.theAnnulled = true
    · exact hr hann
    · exact hspares (Bool.eq_false_iff.mpr hann)
  | reinstate =>
    refine ⟨g.reinstate s, rfl, reinstate_inv h hspares, fun hann p => ?_⟩
    by_cases hann' : s.theAnnulled = true
    · exact hr hann' p
    · have hsame' : g.reinstate s = s := if_neg hann'
      rw [hsame'] at hann
      exact absurd hann hann'
  | satisfy p i x =>
    obtain ⟨hloc, hinv⟩ := (h p).satisfyExec (i := i) he.2
    exact ⟨_, rfl, hloc.inv h hinv, hsame hloc⟩
  | squash p i =>
    obtain ⟨hloc, hinv⟩ := (h p).squashExec (i := i)
    exact ⟨_, rfl, hloc.inv h hinv, hsame hloc⟩
  | writePrevious d aValue =>
    obtain ⟨p, hd⟩ := exists_fed he.1
    have hloc : Local g p s (s.modify (Destination.writePrevious · aValue) d) :=
      Local.modify hd _
    exact ⟨_, rfl, hloc.inv h ((h p).writePrevious hd he.2 aValue), hsame hloc⟩
  | squashPrevious d =>
    obtain ⟨p, hd⟩ := exists_fed he
    have hloc : Local g p s (s.modify Destination.squashPrevious d) := Local.modify hd _
    exact ⟨_, rfl, hloc.inv h ((h p).squashPrevious hd), hsame hloc⟩
  | evaluate a hasPredecessorExecuted =>
    cases a with
    | exec p =>
      obtain ⟨hloc, hinv⟩ := (h p).evaluateExec hasPredecessorExecuted
      exact ⟨_, rfl, hloc.inv h hinv, hsame hloc⟩
    | writeback d =>
      obtain ⟨p, hd⟩ := exists_fed he.1
      have hloc : Local g p s (s.modify Destination.evaluateWriteback d) := Local.modify hd _
      exact ⟨_, rfl, hloc.inv h ((h p).evaluateWriteback hd), hsame hloc⟩
    | annul d =>
      obtain ⟨p, hd⟩ := exists_fed he.1
      obtain ⟨y, hy, hsound, hcopied, hpred⟩ :=
        ((h p).destination d hd).evaluateAnnul ((h p).copied d hd) fun hon => by
          rw [Bool.eq_false_iff]
          intro hs
          have hon' := ((h p).signalled hs).2.1
          have hann : s.theAnnulled = true := ((h p).annul d hd).symm.trans hon
          rw [(h p).predicate, hann, isEmpty_eq_false_iff.mpr (ne_nil_of_mem hd)]
            at hon'
          cases hon'
      have hstep : g.step s (.evaluate (.annul d) hasPredecessorExecuted) =
          .ok (s.modify (fun _ => y) d) := by
        rw [Decoded.step, evaluate, hy]
        rfl
      have hloc : Local g p s (s.modify (fun _ => y) d) := Local.modify hd _
      exact ⟨_, hstep, hloc.inv h ((h p).modify hd hsound hcopied hpred
        fun hoff => Destination.evaluateAnnul_off hoff hy), hsame hloc⟩

/-- **Nothing is scheduled**, all operands are there and so are the previous registers. -/
def Settled (g : Decoded π) (s : InsnState π) : Prop :=
  ∀ p, (s.exec p).pending = 0 ∧ (s.exec p).ready = true ∧
    ∀ d ∈ g.fed p, (s.destination d).annul.pending = 0 ∧
      (s.destination d).writeback.pending = 0 ∧
      (s.destination d).thePrevious.theStatus = .ready

/-- **The instruction may retire, and its registers hold what they should**: the previous value if
it is annulled, and its own result otherwise. -/
def Right (g : Decoded π) (s : InsnState π) : Prop :=
  ∀ p, (g.instruction.feedsRetirement p = true → s.mayRetire p = true) ∧
    ∀ d ∈ g.fed p, (s.destination d).mayRetire = true ∧
      (s.destination d).theRegister.theStatus = .ready ∧
      if s.theAnnulled then
        (s.destination d).theRegister.theReg = (s.destination d).thePrevious.theReg
      else ((g.producer p).results (s.theInputs p)).lookup d =
        some (s.destination d).theRegister.theReg

/-- What holds between events is enough once nothing is scheduled. -/
theorem Settled.right (hs : g.Settled s) (h : ∀ p, Inv g s p) (hr : g.Retirable s) :
    g.Right s := by
  intro p
  obtain ⟨hpend, hready, hdests⟩ := hs p
  have hgo : (s.exec p).thePredicate = true → (s.exec p).theSignalled = true := by
    intro hp
    rcases (h p).enabled hready hp with hsig | ⟨-, hpos⟩
    · exact hsig
    · rw [hpend] at hpos
      exact absurd hpos (Nat.lt_irrefl 0)
  refine ⟨fun hf => ?_, fun d hd => ?_⟩
  · rw [(h p).retire hf]
    refine hgo ?_
    rw [(h p).predicate]
    by_cases hann : s.theAnnulled = true
    · rw [hr hann p hf]
      exact Bool.or_true _
    · rw [Bool.eq_false_iff.mpr hann]
      rfl
  · obtain ⟨hpa, hpw, hprev⟩ := hdests d hd
    have hsound := (h p).destination d hd
    have hwrote : (s.destination d).writeback.ready = true →
        (s.destination d).mayRetire = true ∧
          (s.destination d).theRegister = ⟨.ready, (s.destination d).theResult⟩ := by
      intro hrw
      rcases hsound.pending_writeback hrw with hsig | hpos
      · exact ⟨hsound.retire.trans hsig, (hsound.written hsig).2.2⟩
      · rw [hpw] at hpos
        exact absurd hpos (Nat.lt_irrefl 0)
    by_cases hann : s.theAnnulled = true
    · have hsig : (s.destination d).annul.theSignalled = true := by
        rcases hsound.pending_annul (((h p).annul d hd).trans hann) with
          hsig | hpos | ⟨-, hnot⟩
        · exact hsig
        · rw [hpa] at hpos
          exact absurd hpos (Nat.lt_irrefl 0)
        · exact absurd hprev hnot
      obtain ⟨hrw, hcopy⟩ := (h p).copied d hd hsig
      obtain ⟨hretire, hreg⟩ := hwrote hrw
      rw [if_pos hann, hreg]
      exact ⟨hretire, rfl, hcopy⟩
    · have hp : (s.exec p).thePredicate = true := by
        rw [(h p).predicate, Bool.eq_false_iff.mpr hann]
        rfl
      obtain ⟨hrw, hres⟩ := (h p).taken (hgo hp) d hd
      obtain ⟨hretire, hreg⟩ := hwrote hrw
      rw [if_neg hann, hreg]
      exact ⟨hretire, rfl, hres⟩

theorem reachable_inv {i : Dispatched π} (h : (g.machine i).ReachableWhen
    (fun s e => g.Allowed s e ∧ g.Spares s e) s) : (∀ p, Inv g s p) ∧ g.Retirable s := by
  refine Machine.ReachableWhen.invariant
    (I := fun s => (∀ p, Inv g s p) ∧ g.Retirable s)
    ⟨initial_inv i, fun hann => absurd hann Bool.false_ne_true⟩ (fun s e t hI hg hstep => ?_) h
  obtain ⟨u, hu, hinv⟩ := step_inv hI.1 hI.2 hg.1 hg.2
  have heq : (Except.ok u : Except InsnFault (InsnState π)) = .ok t := hu.symm.trans hstep
  cases heq
  exact hinv

/-- **No register is read before it is ready.** -/
theorem step_not_error {i : Dispatched π} {e : InsnEvent π} (h : (g.machine i).ReachableWhen
    (fun s e => g.Allowed s e ∧ g.Spares s e) s) (he : g.Allowed s e)
    (hspares : g.Spares s e) : ∃ t, g.step s e = .ok t := by
  obtain ⟨hinv, hr⟩ := reachable_inv h
  obtain ⟨t, ht, -⟩ := step_inv hinv hr he hspares
  exact ⟨t, ht⟩

/-- **An instruction that has settled may retire, and its registers hold what they should**, after
any run in which nothing is left to wait for ever. -/
theorem settled_right {i : Dispatched π} (h : (g.machine i).ReachableWhen
    (fun s e => g.Allowed s e ∧ g.Spares s e) s) (hs : g.Settled s) : g.Right s :=
  hs.right (reachable_inv h).1 (reachable_inv h).2

/-! ### Runs on given inputs -/

section Decidable

variable [Fintype π]

instance (g : Decoded π) (a : InsnAction π) : Decidable (g.Has a) :=
  match a with
  | .exec _ => isTrue trivial
  | .annul d => inferInstanceAs (Decidable (d ∈ g.written))
  | .writeback d => inferInstanceAs (Decidable (d ∈ g.written))

instance (g : Decoded π) (s : InsnState π) : Decidable (g.Settled s) :=
  inferInstanceAs (Decidable (∀ p, (s.exec p).pending = 0 ∧ (s.exec p).ready = true ∧
    ∀ d ∈ g.fed p, (s.destination d).annul.pending = 0 ∧
      (s.destination d).writeback.pending = 0 ∧
      (s.destination d).thePrevious.theStatus = .ready))

instance (g : Decoded π) (s : InsnState π) : Decidable (g.Right s) :=
  inferInstanceAs (Decidable (∀ p, (g.instruction.feedsRetirement p = true →
    s.mayRetire p = true) ∧ ∀ d ∈ g.fed p, (s.destination d).mayRetire = true ∧
      (s.destination d).theRegister.theStatus = .ready ∧
      if s.theAnnulled then
        (s.destination d).theRegister.theReg = (s.destination d).thePrevious.theReg
      else ((g.producer p).results (s.theInputs p)).lookup d =
        some (s.destination d).theRegister.theReg))

def decidableStrandedBy (g : Decoded π) (s : InsnState π) :
    (es : List (PredicateEffect π)) → Decidable (g.StrandedBy s es)
  | [] => isFalse id
  | e :: es =>
    have := g.decidableStrandedBy s es
    inferInstanceAs (Decidable ((∃ p, e = .satisfy (.exec p) ∧
      (g.producer p).hasDoLoad = true ∧ (s.exec p).ready = true ∧ ∃ d ∈ g.fed p,
        .squash (.annul d) ∈ es ∧ (s.destination d).annul.theSquashed = false) ∨
      g.StrandedBy s es))

instance (g : Decoded π) (s : InsnState π) (es : List (PredicateEffect π)) :
    Decidable (g.StrandedBy s es) := g.decidableStrandedBy s es

instance (g : Decoded π) (s : InsnState π) (e : InsnEvent π) : Decidable (g.Spares s e) :=
  match e with
  | .annul => inferInstanceAs (Decidable (s.theAnnulled = false →
      ∀ p, g.instruction.feedsRetirement p = true → g.fed p = []))
  | .reinstate => inferInstanceAs (Decidable (s.theAnnulled = true →
      ¬g.StrandedBy s g.instruction.theReinstatementEffects))
  | .satisfy _ _ _ => isTrue trivial
  | .squash _ _ => isTrue trivial
  | .writePrevious _ _ => isTrue trivial
  | .squashPrevious _ => isTrue trivial
  | .evaluate _ _ => isTrue trivial

/-- A test that is enough for an event to be allowed: operands arrive while not all are there. -/
def allows (g : Decoded π) (s : InsnState π) : InsnEvent π → Bool
  | .annul => true
  | .reinstate => true
  | .satisfy p i _ => i.val < (g.producer p).numOperands && !(s.exec p).ready
  | .squash p i => i.val < (g.producer p).numOperands
  | .writePrevious d _ =>
    g.written.contains d && (s.destination d).thePrevious.theStatus != .ready
  | .squashPrevious d => g.written.contains d
  | .evaluate a _ => decide (g.Has a) && decide (0 < s.pending a)

omit [DecidableEq π] [Fintype π] in
theorem allowed_of_allows {e : InsnEvent π} (h : g.allows s e = true) : g.Allowed s e := by
  cases e with
  | annul => trivial
  | reinstate => trivial
  | satisfy p i x =>
    rw [allows, Bool.and_eq_true, decide_eq_true_eq, Bool.not_eq_true'] at h
    refine ⟨h.1, fun hr => ?_⟩
    rw [h.2] at hr
    cases hr
  | squash p i =>
    rw [allows, decide_eq_true_eq] at h
    exact h
  | writePrevious d aValue =>
    rw [allows, Bool.and_eq_true, bne_iff_ne, contains_iff_mem] at h
    exact h
  | squashPrevious d => exact contains_iff_mem.mp h
  | evaluate a hasPredecessorExecuted =>
    rw [allows, Bool.and_eq_true, decide_eq_true_eq, decide_eq_true_eq] at h
    exact h

end Decidable

/-- What is found by an instruction whose previous registers hold 7. -/
def sevens : Dispatched Unit where
  theInputs _ := ⟨fun _ => 0, 0, 0⟩
  theRegister _ := 0
  thePrevious _ := ⟨.ready, 7⟩
  theResult _ := 0

/-- A shift, which has one operand and writes one register. -/
def shiftBySimm : Decoded Unit where
  producer _ := .executeAction 1 .kResult ⟨fun l => l.headD 0 <<< 1, fun _ => 0⟩
  dispatched _ := false
  calls := [.addDestination 1 ()]
  nodup := by decide
  sets := by decide
  created := by decide

/-- It is annulled and completed as annulled, and reinstated and completed. -/
def shiftReinstated : List (InsnEvent Unit) :=
  [.satisfy () 0 ⟨fun _ => 3, 0, 0⟩, .annul, .evaluate (.exec ()) true,
    .evaluate (.annul .kResult) true, .evaluate (.writeback .kResult) true, .reinstate,
    .evaluate (.annul .kResult) true, .evaluate (.exec ()) true,
    .evaluate (.writeback .kResult) true]

theorem reachable_of_shift {es : List (InsnEvent Unit)} {s : InsnState Unit}
    (hs : (shiftBySimm.machine sevens).run es = .ok s)
    (hp : (shiftBySimm.machine sevens).passes (fun s e => shiftBySimm.allows s e &&
      decide (shiftBySimm.Spares s e)) (shiftBySimm.machine sevens).init es = true) :
    (shiftBySimm.machine sevens).ReachableWhen
      (fun s e => shiftBySimm.Allowed s e ∧ shiftBySimm.Spares s e) s := by
  refine Machine.reachableWhen_of_run (fun t e h => ?_) hp hs
  rw [Bool.and_eq_true, decide_eq_true_eq] at h
  exact ⟨allowed_of_allows h.1, h.2⟩

theorem shiftReinstated_right :
    ∃ s, (shiftBySimm.machine sevens).run shiftReinstated = .ok s ∧ shiftBySimm.Right s := by
  have hends : (shiftBySimm.machine sevens).endsIn (fun s => decide (shiftBySimm.Settled s))
      shiftReinstated = true := by decide
  obtain ⟨s, hs, hsettled⟩ := Machine.exists_of_endsIn hends
  exact ⟨s, hs, settled_right (reachable_of_shift hs (by decide)) (of_decide_eq_true hsettled)⟩

/-- The `AnnulAction` of the shift reads the register of the mapping before. -/
theorem shiftBySimm_annulled :
    ∃ s t, (shiftBySimm.machine sevens).run (shiftReinstated.take 3) = .ok s ∧
      (s.destination .kResult).theResult = 0 ∧
      shiftBySimm.step s (.evaluate (.annul .kResult) true) = .ok t ∧
      (t.destination .kResult).theResult = 7 := by
  have hends : (shiftBySimm.machine sevens).endsIn
      (fun s => decide ((s.destination .kResult).theResult = 0) &&
        (shiftBySimm.allows s (.evaluate (.annul .kResult) true) &&
          (shiftBySimm.step s (.evaluate (.annul .kResult) true)).toOption.all fun t =>
            decide ((t.destination .kResult).theResult = 7)))
      (shiftReinstated.take 3) = true := by decide
  obtain ⟨s, hs, htest⟩ := Machine.exists_of_endsIn hends
  rw [Bool.and_eq_true, Bool.and_eq_true, decide_eq_true_eq] at htest
  obtain ⟨hzero, hallows, hseven⟩ := htest
  obtain ⟨t, ht⟩ := step_not_error (reachable_of_shift hs (by decide))
    (allowed_of_allows hallows) trivial
  rw [ht] at hseven
  exact ⟨s, t, hs, hzero, ht, of_decide_eq_true hseven⟩

/-- `LDD`, with `%o2` and `%o3` say. -/
def ldd : Decoded Unit where
  producer _ := .lddAction
  dispatched _ := false
  calls := [.addWriteback false (), .addRD1Writeback ()]
  nodup := by decide
  sets := by decide
  created := by decide

/-- `LDD` is annulled and completed as annulled, its value arrives, and it is reinstated. -/
def lddReinstated : List (InsnEvent Unit) :=
  [.evaluate (.annul .kResult1) true, .annul, .evaluate (.annul .kResult) true,
    .evaluate (.annul .kResult1) true, .evaluate (.writeback .kResult) true,
    .evaluate (.writeback .kResult1) true, .satisfy () 0 ⟨fun _ => 0, 5, 0⟩,
    .evaluate (.exec ()) true, .reinstate, .evaluate (.annul .kResult) true,
    .evaluate (.annul .kResult1) true, .evaluate (.writeback .kResult) true,
    .evaluate (.writeback .kResult1) true, .evaluate (.exec ()) true]

/-- **A reinstated `LDD` waits for ever** for its second register. -/
theorem lddReinstated_waits : ∃ s, (ldd.machine sevens).ReachableWhen ldd.Allowed s ∧
    ldd.Settled s ∧ ¬ldd.Right s := by
  have hends : (ldd.machine sevens).endsIn (fun s => decide (ldd.Settled s ∧ ¬ldd.Right s))
      lddReinstated = true := by decide
  obtain ⟨s, hs, htest⟩ := Machine.exists_of_endsIn hends
  exact ⟨s, Machine.reachableWhen_of_run (g := ldd.allows) (fun _ _ => allowed_of_allows)
    (by decide) hs, of_decide_eq_true htest⟩

end Decoded

end Decoder

end Flexus
