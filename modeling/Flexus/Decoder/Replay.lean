import Flexus.Decoder.SemanticActions
import Mathlib.Data.Set.Card

/-!
# Selective replay

An action signals its dependants once and takes the signal back once, so that an operand is
ready exactly when the action that feeds it has signalled. Between the first and the last of
the dependants that a squash reaches this does not hold: the invariant is relaxed for the
actions whose dependants are being squashed, which all come before the one the squash has
reached. Since no action comes before itself, the relaxed ones are not touched meanwhile.

A squash ends because the actions that come after an action are fewer for its dependants.
-/

namespace Flexus

open Function

namespace Decoder

variable {ν : Type} [DecidableEq ν]

namespace ActionState

variable {s t : ActionState ν} {n m : ν} {i j : Fin 5} {b : Bool}

omit [DecidableEq ν] in
theorem ready_iff : s.ready n = true ↔ ∀ i, s.theReady n i = true := by
  rw [ready]
  simp only [Bool.and_eq_true]
  constructor
  · rintro ⟨⟨⟨⟨h0, h1⟩, h2⟩, h3⟩, h4⟩ i
    match i with
    | 0 => exact h0
    | 1 => exact h1
    | 2 => exact h2
    | 3 => exact h3
    | 4 => exact h4
  · intro h
    exact ⟨⟨⟨⟨h 0, h 1⟩, h 2⟩, h 3⟩, h 4⟩

theorem setReady_self : (s.setReady n i b).theReady n i = b := by
  rw [setReady]
  dsimp only
  rw [update_self, update_self]

theorem setReady_of_ne (h : (m, j) ≠ (n, i)) :
    (s.setReady n i b).theReady m j = s.theReady m j := by
  rw [setReady]
  dsimp only
  by_cases hm : m = n
  · subst hm
    have hj : j ≠ i := fun hj => h (by rw [hj])
    rw [update_self, update_of_ne hj]
  · rw [update_of_ne hm]

omit [DecidableEq ν] in
theorem ready_mono (h : ∀ m j, t.theReady m j = true → s.theReady m j = true)
    (hr : t.ready n = true) : s.ready n = true := by
  rw [ready_iff] at hr ⊢
  exact fun i => h n i (hr i)

end ActionState

open ActionState

namespace ActionGraph

variable (g : ActionGraph ν)

/-- **What holds of actions**, apart from those whose dependants are being squashed. -/
structure Inv (s : ActionState ν) (X : Set ν) : Prop where
  signalled_of_ready : ∀ n m i, (m, i) ∈ g.theDependances n → s.theReady m i = true →
    s.theSignalled n = true
  ready_of_signalled : ∀ n, n ∉ X → s.theSignalled n = true →
    ∀ m i, (m, i) ∈ g.theDependances n → s.theReady m i = true
  enabled : ∀ n, n ∉ X → s.theSignalled n = true → s.ready n = true ∧ s.thePredicate n = true
  not_squashed : ∀ n, s.theSignalled n = true → s.theSquashed n = false
  pending : ∀ n, s.ready n = true → s.thePredicate n = true → s.theSignalled n = false →
    0 < s.pending n
  scheduled : ∀ n, s.theScheduled n = true → 0 < s.pending n

/-- What a squash changes at most: ready bits are cleared. -/
structure Cleared (s t : ActionState ν) : Prop where
  ready : ∀ m j, t.theReady m j = true → s.theReady m j = true
  pending : t.pending = s.pending
  predicate : t.thePredicate = s.thePredicate

namespace Cleared

variable {s t u : ActionState ν}

omit [DecidableEq ν] in
theorem refl : Cleared s s := ⟨fun _ _ h => h, rfl, rfl⟩

omit [DecidableEq ν] in
theorem trans (h : Cleared s t) (h' : Cleared t u) : Cleared s u :=
  ⟨fun m j hr => h.ready m j (h'.ready m j hr), h'.pending.trans h.pending,
    h'.predicate.trans h.predicate⟩

omit [DecidableEq ν] in
theorem unready (h : Cleared s t) {m : ν} {j : Fin 5} (hr : s.theReady m j = false) :
    t.theReady m j = false := by
  rw [Bool.eq_false_iff] at hr ⊢
  exact fun ht => hr (h.ready m j ht)

theorem setReady (n : ν) (i : Fin 5) : Cleared s (s.setReady n i false) := by
  refine ⟨fun m j hr => ?_, rfl, rfl⟩
  by_cases heq : (m, j) = (n, i)
  · cases heq
    rw [setReady_self] at hr
    cases hr
  · rwa [setReady_of_ne heq] at hr

theorem markSquashed (n : ν) : Cleared s (s.markSquashed n) := ⟨fun _ _ h => h, rfl, rfl⟩

end Cleared

variable {g} {s t : ActionState ν} {X : Set ν} {n : ν} {i : Fin 5}

namespace Inv

omit [DecidableEq ν] in
theorem of_not_signalled (h : g.Inv s (insert n X)) (hn : s.theSignalled n = false) :
    g.Inv s X := by
  refine ⟨h.signalled_of_ready, fun m hm hs => ?_, fun m hm hs => ?_, h.not_squashed, h.pending,
    h.scheduled⟩
  · have hne : m ≠ n := by
      rintro rfl
      rw [hn] at hs
      cases hs
    exact h.ready_of_signalled m (fun hin => (Set.mem_insert_iff.mp hin).elim hne hm) hs
  · have hne : m ≠ n := by
      rintro rfl
      rw [hn] at hs
      cases hs
    exact h.enabled m (fun hin => (Set.mem_insert_iff.mp hin).elim hne hm) hs

theorem setReady (h : g.Inv s X) (hsource : ∀ p, (n, i) ∈ g.theDependances p → p ∈ X) :
    g.Inv (s.setReady n i false) (insert n X) := by
  have hclear := Cleared.setReady (s := s) n i
  refine ⟨fun p m j hp hr => h.signalled_of_ready p m j hp (hclear.ready m j hr),
    fun p hp hs m j hd => ?_, fun p hp hs => ?_, h.not_squashed,
    fun p hr => h.pending p (ready_mono hclear.ready hr), h.scheduled⟩
  · have hpX : p ∉ X := fun hin => hp (Set.mem_insert_of_mem n hin)
    have hne : (m, j) ≠ (n, i) := by
      intro heq
      exact hpX (hsource p (heq ▸ hd))
    rw [setReady_of_ne hne]
    exact h.ready_of_signalled p hpX hs m j hd
  · have hpX : p ∉ X := fun hin => hp (Set.mem_insert_of_mem n hin)
    have hpn : p ≠ n := fun heq => hp (heq ▸ Set.mem_insert p X)
    obtain ⟨hr, hpred⟩ := h.enabled p hpX hs
    refine ⟨?_, hpred⟩
    rw [ready_iff] at hr ⊢
    intro j
    rw [setReady_of_ne (fun heq => hpn (Prod.mk.inj heq).1)]
    exact hr j

theorem markSquashed (h : g.Inv s (insert n X))
    (hdeps : ∀ d ∈ g.theDependances n, s.theReady d.1 d.2 = false)
    (hpend : s.ready n = true → s.thePredicate n = true → 0 < s.pending n) :
    g.Inv (s.markSquashed n) X := by
  have hself : (s.markSquashed n).theSignalled n = false := update_self ..
  have hother : ∀ m, m ≠ n → (s.markSquashed n).theSignalled m = s.theSignalled m :=
    fun m hm => update_of_ne hm _ _
  have hsignalled : ∀ m, (s.markSquashed n).theSignalled m = true →
      m ≠ n ∧ s.theSignalled m = true := by
    intro m hm
    have hne : m ≠ n := by
      rintro rfl
      rw [hself] at hm
      cases hm
    exact ⟨hne, hother m hne ▸ hm⟩
  have hmarked : g.Inv (s.markSquashed n) (insert n X) := by
    refine ⟨fun p m j hp hr => ?_, fun p hp hs => ?_, fun p hp hs => ?_, fun p hs => ?_,
      fun p hr hpred hs => ?_, h.scheduled⟩
    · by_cases hpn : p = n
      · have hfalse := hdeps (m, j) (hpn ▸ hp)
        rw [show (s.markSquashed n).theReady m j = s.theReady m j from rfl, hfalse] at hr
        cases hr
      · rw [hother p hpn]
        exact h.signalled_of_ready p m j hp hr
    · exact h.ready_of_signalled p hp (hsignalled p hs).2
    · exact h.enabled p hp (hsignalled p hs).2
    · obtain ⟨hne, hs'⟩ := hsignalled p hs
      rw [show (s.markSquashed n).theSquashed p = s.theSquashed p from
        update_of_ne hne _ _]
      exact h.not_squashed p hs'
    · by_cases hpn : p = n
      · subst hpn
        exact hpend hr hpred
      · exact h.pending p hr hpred (hother p hpn ▸ hs)
  exact hmarked.of_not_signalled hself

end Inv

/-! ### A squash -/

omit [DecidableEq ν] in
theorem not_mem_of_before (hX : ∀ x ∈ X, Relation.TransGen g.Feeds x n) : n ∉ X :=
  fun hn => g.acyclic n (hX n hn)

/-- What `squash` does, for some depth. -/
def SquashSpec (g : ActionGraph ν) (f : ActionState ν → ν → Fin 5 → Option (ActionState ν)) :
    Prop :=
  ∀ s X n i t, f s n i = some t → g.Inv s X → (∀ x ∈ X, Relation.TransGen g.Feeds x n) →
    (∀ p, (n, i) ∈ g.theDependances p → p ∈ X) →
    g.Inv t X ∧ t.theReady n i = false ∧ Cleared s t

omit [DecidableEq ν] in
theorem squashLoop {f : ActionState ν → ν → Fin 5 → Option (ActionState ν)}
    (hf : g.SquashSpec f) (hX : ∀ x ∈ X, Relation.TransGen g.Feeds x n)
    {l : List (ν × Fin 5)} (hl : ∀ d ∈ l, d ∈ g.theDependances n)
    (h : g.Inv s (insert n X))
    (ht : l.foldlM (fun s d => f s d.1 d.2) s = some t) :
    g.Inv t (insert n X) ∧ (∀ d ∈ l, t.theReady d.1 d.2 = false) ∧ Cleared s t := by
  induction l generalizing s with
  | nil =>
    cases ht
    exact ⟨h, fun d hd => absurd hd List.not_mem_nil, .refl⟩
  | cons d l ih =>
    rw [List.foldlM_cons] at ht
    obtain ⟨u, hu, ht'⟩ := Option.bind_eq_some_iff.mp ht
    have hd := hl d List.mem_cons_self
    have hfeeds : g.Feeds n d.1 := ⟨d.2, hd⟩
    have hbefore : ∀ x ∈ insert n X, Relation.TransGen g.Feeds x d.1 := by
      intro x hx
      rcases Set.mem_insert_iff.mp hx with rfl | hx
      · exact .single hfeeds
      · exact (hX x hx).tail hfeeds
    have hsource : ∀ p, (d.1, d.2) ∈ g.theDependances p → p ∈ insert n X := fun p hp =>
      g.one_source p n d.1 d.2 hp hd ▸ Set.mem_insert p X
    obtain ⟨hinv, hready, hclear⟩ := hf s _ d.1 d.2 u hu h hbefore hsource
    obtain ⟨hinv', hrest, hclear'⟩ := ih (fun e he => hl e (List.mem_cons_of_mem d he)) hinv ht'
    refine ⟨hinv', fun e he => ?_, hclear.trans hclear'⟩
    rcases List.mem_cons.mp he with rfl | he
    · exact hclear'.unready hready
    · exact hrest e he

theorem squashDependantsWith_spec {f : ActionState ν → ν → Fin 5 → Option (ActionState ν)}
    (hf : g.SquashSpec f) (hX : ∀ x ∈ X, Relation.TransGen g.Feeds x n)
    (h : g.Inv s (insert n X))
    (hpend : s.ready n = true → s.thePredicate n = true → 0 < s.pending n)
    (ht : g.squashDependantsWith f s n = some t) : g.Inv t X ∧ Cleared s t := by
  rw [squashDependantsWith] at ht
  by_cases hsq : s.theSquashed n = true
  · rw [if_pos hsq] at ht
    cases ht
    have hns : s.theSignalled n = false := by
      rw [Bool.eq_false_iff]
      intro hs
      rw [h.not_squashed n hs] at hsq
      cases hsq
    exact ⟨h.of_not_signalled hns, .refl⟩
  · rw [if_neg hsq] at ht
    obtain ⟨u, hu, ht'⟩ := Option.bind_eq_some_iff.mp ht
    cases ht'
    obtain ⟨hinv, hdeps, hclear⟩ := squashLoop hf hX (fun d hd => hd) h hu
    refine ⟨hinv.markSquashed hdeps fun hr hp => ?_, hclear.trans (.markSquashed n)⟩
    rw [hclear.pending]
    exact hpend (ready_mono hclear.ready hr) (hclear.predicate ▸ hp)

/-- **A squash keeps the invariant**, by induction over the depth. -/
theorem squash_spec (depth : ℕ) : g.SquashSpec (g.squash depth) := by
  induction depth with
  | zero =>
    intro s X n i t ht
    cases ht
  | succ depth ih =>
    intro s X n i t ht h hX hsource
    rw [squash] at ht
    have hset := h.setReady hsource
    have hself : (s.setReady n i false).theReady n i = false := setReady_self
    have hnotready : (s.setReady n i false).ready n ≠ true := fun hr => by
      rw [ready_iff.mp hr i] at hself
      cases hself
    by_cases hpred : (s.setReady n i false).thePredicate n = true
    · rw [if_pos hpred] at ht
      obtain ⟨hinv, hclear⟩ := squashDependantsWith_spec ih hX hset
        (fun hr => absurd hr hnotready) ht
      exact ⟨hinv, hclear.unready hself, (Cleared.setReady n i).trans hclear⟩
    · rw [if_neg hpred] at ht
      cases ht
      refine ⟨hset.of_not_signalled ?_, hself, .setReady n i⟩
      rw [Bool.eq_false_iff]
      exact fun hs => hpred (h.enabled n (not_mem_of_before hX) hs).2

/-! ### A squash ends -/

omit [DecidableEq ν] in
/-- The actions that come after an action. -/
def after (g : ActionGraph ν) (n : ν) : Set ν := {m | Relation.TransGen g.Feeds n m}

omit [DecidableEq ν] in
theorem after_card_lt [Finite ν] {m : ν} (h : g.Feeds n m) :
    (g.after m).ncard < (g.after n).ncard := by
  refine Set.ncard_lt_ncard ⟨fun p hp => Relation.TransGen.head h hp, fun hsub => ?_⟩
  have hm : m ∈ g.after n := .single h
  exact g.acyclic m (hsub hm)

omit [DecidableEq ν] in
theorem after_card_lt_card [Fintype ν] (n : ν) : (g.after n).ncard < Fintype.card ν := by
  rw [← Nat.card_eq_fintype_card, ← Set.ncard_univ]
  refine Set.ncard_lt_ncard ⟨Set.subset_univ _, fun hsub => ?_⟩
  exact g.acyclic n (hsub (Set.mem_univ n))

/-- The loop ends if every squash in it does, and ends in the same way with more depth. -/
theorem squashLoop_ends {depth : ℕ} {l : List (ν × Fin 5)}
    (h : ∀ d ∈ l, ∀ s, ∃ t, ∀ k, depth ≤ k → g.squash k s d.1 d.2 = some t)
    (s : ActionState ν) :
    ∃ t, ∀ k, depth ≤ k → l.foldlM (fun s d => g.squash k s d.1 d.2) s = some t := by
  induction l generalizing s with
  | nil => exact ⟨s, fun k _ => rfl⟩
  | cons d l ih =>
    obtain ⟨u, hu⟩ := h d List.mem_cons_self s
    obtain ⟨t, ht⟩ := ih (fun e he => h e (List.mem_cons_of_mem d he)) u
    refine ⟨t, fun k hk => ?_⟩
    rw [List.foldlM_cons, hu k hk]
    exact ht k hk

theorem squashDependants_ends {depth : ℕ}
    (h : ∀ d ∈ g.theDependances n, ∀ s, ∃ t, ∀ k, depth ≤ k → g.squash k s d.1 d.2 = some t)
    (s : ActionState ν) : ∃ t, ∀ k, depth ≤ k → g.squashDependants k s n = some t := by
  by_cases hsq : s.theSquashed n = true
  · refine ⟨s, fun k _ => ?_⟩
    rw [squashDependants, squashDependantsWith, if_pos hsq]
  · obtain ⟨u, hu⟩ := squashLoop_ends h s
    refine ⟨u.markSquashed n, fun k hk => ?_⟩
    rw [squashDependants, squashDependantsWith, if_neg hsq, hu k hk]
    rfl

/-- **Every squash comes to an end**, from any state: a depth of one more than the number of
actions that come after is enough, and more depth does not change the result. -/
theorem squash_ends [Finite ν] (depth : ℕ) (s : ActionState ν) (n : ν) (i : Fin 5)
    (h : (g.after n).ncard < depth) : ∃ t, ∀ k, depth ≤ k → g.squash k s n i = some t := by
  induction depth generalizing s n i with
  | zero => exact absurd h (Nat.not_lt_zero _)
  | succ depth ih =>
    have hdeps : ∀ d ∈ g.theDependances n, ∀ s, ∃ t, ∀ k, depth ≤ k →
        g.squash k s d.1 d.2 = some t := by
      intro d hd s
      have hlt := after_card_lt (g := g) (show g.Feeds n d.1 from ⟨d.2, hd⟩)
      exact ih s d.1 d.2 (by omega)
    by_cases hpred : (s.setReady n i false).thePredicate n = true
    · obtain ⟨t, ht⟩ := squashDependants_ends hdeps (s.setReady n i false)
      refine ⟨t, fun k hk => ?_⟩
      obtain ⟨k, rfl⟩ : ∃ k', k = k' + 1 := ⟨k - 1, by omega⟩
      rw [squash, if_pos hpred]
      exact ht k (by omega)
    · refine ⟨s.setReady n i false, fun k hk => ?_⟩
      obtain ⟨k, rfl⟩ : ∃ k', k = k' + 1 := ⟨k - 1, by omega⟩
      rw [squash, if_neg hpred]

/-! ### Signals -/

/-- What the signals to some operands do. -/
structure Raised (l : List (ν × Fin 5)) (s t : ActionState ν) : Prop where
  ready : ∀ m j, t.theReady m j = true ↔ s.theReady m j = true ∨ (m, j) ∈ l
  signalled : t.theSignalled = s.theSignalled
  predicate : t.thePredicate = s.thePredicate
  squashed : ∀ p, t.theSquashed p = true → s.theSquashed p = true
  pending : ∀ p, s.pending p ≤ t.pending p
  scheduled : (∀ p, s.theScheduled p = true → 0 < s.pending p) →
    ∀ p, t.theScheduled p = true → 0 < t.pending p
  /-- Whoever has become ready is scheduled. -/
  woken : (∀ p, s.theScheduled p = true → 0 < s.pending p) →
    ∀ p, t.ready p = true → s.ready p = false → 0 < t.pending p

theorem reschedule_spec (s : ActionState ν) (n : ν) :
    (s.reschedule n).theReady = s.theReady ∧ (s.reschedule n).theSignalled = s.theSignalled ∧
    (s.reschedule n).thePredicate = s.thePredicate ∧
    (s.reschedule n).theSquashed = s.theSquashed ∧
    (∀ p, s.pending p ≤ (s.reschedule n).pending p) ∧
    ((∀ p, s.theScheduled p = true → 0 < s.pending p) →
      (∀ p, (s.reschedule n).theScheduled p = true → 0 < (s.reschedule n).pending p) ∧
      0 < (s.reschedule n).pending n) := by
  rw [reschedule]
  by_cases hn : s.theScheduled n = true
  · rw [if_pos hn]
    exact ⟨rfl, rfl, rfl, rfl, fun p => le_refl _, fun h => ⟨h, h n hn⟩⟩
  · rw [if_neg hn]
    have hself : update s.pending n (s.pending n + 1) n = s.pending n + 1 :=
      update_self ..
    refine ⟨rfl, rfl, rfl, rfl, fun p => ?_, fun h => ⟨fun p hp => ?_, ?_⟩⟩
    · dsimp only
      by_cases hp : p = n
      · rw [hp, hself]
        omega
      · rw [update_of_ne hp]
    · dsimp only at hp ⊢
      by_cases hpn : p = n
      · rw [hpn, hself]
        omega
      · rw [update_of_ne hpn] at hp ⊢
        exact h p hp
    · dsimp only
      rw [hself]
      omega

/-- The operand is set and the mark of a squash taken away. -/
def raise (s : ActionState ν) (n : ν) (i : Fin 5) : ActionState ν :=
  { s.setReady n i true with theSquashed := update s.theSquashed n false }

theorem raise_ready (s : ActionState ν) (n : ν) (i : Fin 5) (m : ν) (j : Fin 5) :
    (raise s n i).theReady m j = true ↔ s.theReady m j = true ∨ (m, j) ∈ [(n, i)] := by
  rw [List.mem_singleton, show (raise s n i).theReady m j = (s.setReady n i true).theReady m j
    from rfl]
  by_cases heq : (m, j) = (n, i)
  · cases heq
    rw [setReady_self]
    simp
  · rw [setReady_of_ne heq]
    simp [heq]

theorem raise_squashed (s : ActionState ν) (n : ν) (i : Fin 5) (p : ν)
    (h : (raise s n i).theSquashed p = true) : s.theSquashed p = true := by
  by_cases hp : p = n
  · rw [hp, show (raise s n i).theSquashed n = false from update_self ..] at h
    cases h
  · rwa [show (raise s n i).theSquashed p = s.theSquashed p from
      update_of_ne hp _ _] at h

theorem raise_woken (s : ActionState ν) (n : ν) (i : Fin 5) (p : ν)
    (h : (raise s n i).ready p = true) (hs : s.ready p = false) : p = n := by
  by_contra hp
  rw [Bool.eq_false_iff] at hs
  refine hs ?_
  rw [ready_iff] at h ⊢
  intro j
  rcases (raise_ready s n i p j).mp (h j) with hj | hj
  · exact hj
  · exact absurd (Prod.mk.inj (List.mem_singleton.mp hj)).1 hp

theorem satisfy_eq (s : ActionState ν) (n : ν) (i : Fin 5) : s.satisfy n i =
    if !s.ready n && (raise s n i).ready n then (raise s n i).reschedule n else raise s n i := rfl

/-- **A signal** to an operand. -/
theorem raised_satisfy (s : ActionState ν) (n : ν) (i : Fin 5) :
    Raised [(n, i)] s (s.satisfy n i) := by
  rw [satisfy_eq]
  by_cases hwoken : (!s.ready n && (raise s n i).ready n) = true
  · rw [if_pos hwoken]
    obtain ⟨hready, hsig, hpred, hsq, hpend, hsched⟩ := reschedule_spec (raise s n i) n
    refine ⟨fun m j => ?_, hsig, hpred, fun p hp => ?_, hpend, fun h => (hsched h).1,
      fun h p hr hf => ?_⟩
    · rw [hready]
      exact raise_ready s n i m j
    · rw [hsq] at hp
      exact raise_squashed s n i p hp
    · have hr' : (raise s n i).ready p = true := by
        rw [ready_iff] at hr ⊢
        rwa [hready] at hr
      rw [raise_woken s n i p hr' hf]
      exact (hsched h).2
  · rw [if_neg hwoken]
    refine ⟨raise_ready s n i, rfl, rfl, raise_squashed s n i, fun p => le_refl _, fun h => h,
      fun h p hr hf => ?_⟩
    have hp := raise_woken s n i p hr hf
    subst hp
    rw [hr, hf] at hwoken
    exact absurd rfl hwoken

omit [DecidableEq ν] in
theorem Raised.trans {l k : List (ν × Fin 5)} {u : ActionState ν} (h : Raised l s t)
    (h' : Raised k t u) : Raised (l ++ k) s u := by
  refine ⟨fun m j => ?_, h'.signalled.trans h.signalled, h'.predicate.trans h.predicate,
    fun p hp => h.squashed p (h'.squashed p hp), fun p => le_trans (h.pending p) (h'.pending p),
    fun hs => h'.scheduled (h.scheduled hs), fun hs p hu hsp => ?_⟩
  · rw [h'.ready, h.ready, List.mem_append, or_assoc]
  · by_cases htp : t.ready p = true
    · exact lt_of_lt_of_le (h.woken hs p htp hsp) (h'.pending p)
    · exact h'.woken (h.scheduled hs) p hu (Bool.eq_false_iff.mpr htp)

theorem raised_foldl (l : List (ν × Fin 5)) (s : ActionState ν) :
    Raised l s (l.foldl (fun s d => s.satisfy d.1 d.2) s) := by
  induction l generalizing s with
  | nil =>
    refine ⟨fun m j => ?_, rfl, rfl, fun _ h => h, fun _ => le_refl _, fun h => h,
      fun _ p hr hf => ?_⟩
    · simp
    · rw [List.foldl_nil, hf] at hr
      cases hr
  | cons d l ih => exact (raised_satisfy s d.1 d.2).trans (ih _)

namespace Inv

theorem satisfy (h : g.Inv s ∅) (hfree : ∀ m, (n, i) ∉ g.theDependances m) :
    g.Inv (s.satisfy n i) ∅ := by
  have hr := raised_satisfy s n i
  refine ⟨fun p m j hp hj => ?_, fun p hp hs m j hd => ?_, fun p hp hs => ?_, fun p hs => ?_,
    fun p hrp hpred hs => ?_, hr.scheduled h.scheduled⟩
  · rw [hr.signalled]
    rcases (hr.ready m j).mp hj with hj | hj
    · exact h.signalled_of_ready p m j hp hj
    · exact absurd (List.mem_singleton.mp hj ▸ hp) (hfree p)
  · rw [hr.signalled] at hs
    exact (hr.ready m j).mpr (.inl (h.ready_of_signalled p hp hs m j hd))
  · rw [hr.signalled] at hs
    obtain ⟨hready, hpred⟩ := h.enabled p hp hs
    rw [hr.predicate]
    refine ⟨?_, hpred⟩
    rw [ready_iff] at hready ⊢
    exact fun j => (hr.ready p j).mpr (.inl (hready j))
  · rw [hr.signalled] at hs
    rw [Bool.eq_false_iff]
    intro hsq
    have := hr.squashed p hsq
    rw [h.not_squashed p hs] at this
    cases this
  · rw [hr.predicate] at hpred
    rw [hr.signalled] at hs
    by_cases hsp : s.ready p = true
    · exact lt_of_lt_of_le (h.pending p hsp hpred hs) (hr.pending p)
    · exact hr.woken h.scheduled p hrp (Bool.eq_false_iff.mpr hsp)

/-- What is left to show of an action that is evaluated: it may no longer be pending. -/
structure Apart (g : ActionGraph ν) (s : ActionState ν) (n : ν) : Prop where
  signalled_of_ready : ∀ n m i, (m, i) ∈ g.theDependances n → s.theReady m i = true →
    s.theSignalled n = true
  ready_of_signalled : ∀ n, s.theSignalled n = true →
    ∀ m i, (m, i) ∈ g.theDependances n → s.theReady m i = true
  enabled : ∀ n, s.theSignalled n = true → s.ready n = true ∧ s.thePredicate n = true
  not_squashed : ∀ n, s.theSignalled n = true → s.theSquashed n = false
  pending : ∀ p, p ≠ n → s.ready p = true → s.thePredicate p = true →
    s.theSignalled p = false → 0 < s.pending p
  scheduled : ∀ p, s.theScheduled p = true → 0 < s.pending p

/-- The action that the core has taken is no longer scheduled. -/
theorem apart (h : g.Inv s ∅) : Apart g { s with
    pending := update s.pending n (s.pending n - 1)
    theScheduled := update s.theScheduled n false } n := by
  refine ⟨h.signalled_of_ready, fun p => h.ready_of_signalled p (Set.notMem_empty p),
    fun p => h.enabled p (Set.notMem_empty p), h.not_squashed, fun p hp hr hpred hs => ?_,
    fun p hp => ?_⟩
  · dsimp only
    rw [update_of_ne hp]
    exact h.pending p hr hpred hs
  · dsimp only at hp ⊢
    have hpn : p ≠ n := by
      rintro rfl
      rw [update_self] at hp
      cases hp
    rw [update_of_ne hpn] at hp ⊢
    exact h.scheduled p hp

theorem Apart.inv (h : Apart g s n) (hn : s.ready n = true → s.thePredicate n = true →
    s.theSignalled n = false → 0 < s.pending n) : g.Inv s ∅ := by
  refine ⟨h.signalled_of_ready, fun p _ => h.ready_of_signalled p, fun p _ => h.enabled p,
    h.not_squashed, fun p hr hpred hs => ?_, h.scheduled⟩
  by_cases hp : p = n
  · subst hp
    exact hn hr hpred hs
  · exact h.pending p hp hr hpred hs

/-- **The action signals its dependants.** -/
theorem Apart.signal (h : Apart g s n) (hready : s.ready n = true)
    (hpred : s.thePredicate n = true) :
    g.Inv (let u := (g.theDependances n).foldl (fun s d => s.satisfy d.1 d.2) s
      { u with
        theSignalled := update u.theSignalled n true
        theSquashed := update u.theSquashed n false }) ∅ := by
  have hr := raised_foldl (g.theDependances n) s
  dsimp only
  set u := (g.theDependances n).foldl (fun s d => s.satisfy d.1 d.2) s with hu
  have hmono : ∀ p, s.ready p = true → u.ready p = true := by
    intro p hp
    rw [ready_iff] at hp ⊢
    exact fun j => (hr.ready p j).mpr (.inl (hp j))
  refine ⟨fun p m j hp hj => ?_, fun p _ hs m j hd => ?_, fun p _ hs => ?_, fun p hs => ?_,
    fun p hrp hpr hs => ?_, hr.scheduled h.scheduled⟩
  · dsimp only at hj ⊢
    by_cases hpn : p = n
    · rw [hpn, update_self]
    · rw [update_of_ne hpn, hr.signalled]
      rcases (hr.ready m j).mp hj with hj | hj
      · exact h.signalled_of_ready p m j hp hj
      · exact absurd (g.one_source p n m j hp hj) hpn
  · dsimp only at hs ⊢
    by_cases hpn : p = n
    · exact (hr.ready m j).mpr (.inr (hpn ▸ hd))
    · rw [update_of_ne hpn, hr.signalled] at hs
      exact (hr.ready m j).mpr (.inl (h.ready_of_signalled p hs m j hd))
  · by_cases hpn : p = n
    · rw [hpn]
      exact ⟨hmono n hready, hr.predicate ▸ hpred⟩
    · dsimp only at hs
      rw [update_of_ne hpn, hr.signalled] at hs
      obtain ⟨hrp, hpr⟩ := h.enabled p hs
      exact ⟨hmono p hrp, hr.predicate ▸ hpr⟩
  · dsimp only at hs ⊢
    by_cases hpn : p = n
    · rw [hpn, update_self]
    · rw [update_of_ne hpn, hr.signalled] at hs
      rw [update_of_ne hpn, Bool.eq_false_iff]
      intro hsq
      have hsq' := hr.squashed p hsq
      rw [h.not_squashed p hs] at hsq'
      cases hsq'
  · dsimp only at hs hpr ⊢
    have hpn : p ≠ n := by
      rintro rfl
      rw [update_self] at hs
      cases hs
    rw [update_of_ne hpn, hr.signalled] at hs
    rw [hr.predicate] at hpr
    by_cases hsp : s.ready p = true
    · exact lt_of_lt_of_le (h.pending p hpn hsp hpr hs) (hr.pending p)
    · exact hr.woken h.scheduled p hrp (Bool.eq_false_iff.mpr hsp)

/-- **An evaluation**: the action signals its dependants, or waits. -/
theorem evaluateNext (h : g.Inv s ∅) (b : Bool) : g.Inv (g.evaluateNext s n b) ∅ := by
  have hapart := h.apart (n := n)
  rw [ActionGraph.evaluateNext, ActionGraph.evaluate]
  dsimp only
  set u : ActionState ν := { s with
    pending := update s.pending n (s.pending n - 1)
    theScheduled := update s.theScheduled n false } with hu
  by_cases hgo : (u.thePredicate n && u.ready n) = true
  · rw [if_pos hgo]
    rw [Bool.and_eq_true] at hgo
    cases b with
    | false =>
      rw [if_neg (by decide)]
      obtain ⟨hready, hsig, hpred, hsq, hpend, hsched⟩ := reschedule_spec u n
      have hready' : ∀ p, (u.reschedule n).ready p = u.ready p := fun p => by
        rw [ready, ready, hready]
      refine Apart.inv (n := n) ⟨?_, ?_, fun p => ?_, ?_, fun p hp => ?_,
        (hsched hapart.scheduled).1⟩ fun _ _ _ => (hsched hapart.scheduled).2
      · rw [hready, hsig]
        exact hapart.signalled_of_ready
      · rw [hready, hsig]
        exact hapart.ready_of_signalled
      · rw [hready', hsig, hpred]
        exact hapart.enabled p
      · rw [hsig, hsq]
        exact hapart.not_squashed
      · rw [hready', hsig, hpred]
        exact fun hr hpr hs => lt_of_lt_of_le (hapart.pending p hp hr hpr hs) (hpend p)
    | true =>
      rw [if_pos rfl, satisfyDependants]
      by_cases hs : u.theSignalled n = true
      · rw [if_pos hs]
        refine hapart.inv fun _ _ hns => ?_
        rw [hs] at hns
        cases hns
      · rw [if_neg hs]
        exact hapart.signal hgo.2 hgo.1
  · rw [if_neg hgo]
    refine hapart.inv fun hr hp _ => ?_
    exact absurd (by rw [hp, hr]; rfl) hgo

/-- The predicate of an action is changed, and the action is scheduled. -/
theorem setPredicate (h : g.Inv s ∅) (b : Bool) :
    g.Inv { s.reschedule n with
      thePredicate := update (s.reschedule n).thePredicate n b } (insert n ∅) ∧
    0 < (s.reschedule n).pending n := by
  obtain ⟨hready, hsig, hpred, hsq, hpend, hsched⟩ := reschedule_spec s n
  have hready' : ∀ p, (s.reschedule n).ready p = s.ready p := fun p => by
    rw [ready, ready, hready]
  refine ⟨⟨?_, fun p hp => ?_, fun p hp hs => ?_, ?_, fun p hr hpr hs => ?_,
    (hsched h.scheduled).1⟩, (hsched h.scheduled).2⟩
  · dsimp only
    rw [hready, hsig]
    exact h.signalled_of_ready
  · dsimp only
    rw [hready, hsig]
    exact h.ready_of_signalled p (Set.notMem_empty p)
  · have hpn : p ≠ n := fun heq => hp (heq ▸ Set.mem_insert p ∅)
    dsimp only at hs ⊢
    rw [hsig] at hs
    obtain ⟨hrp, hpr⟩ := h.enabled p (Set.notMem_empty p) hs
    refine ⟨(hready' p).trans hrp, ?_⟩
    rw [update_of_ne hpn, hpred]
    exact hpr
  · dsimp only
    rw [hsig, hsq]
    exact h.not_squashed
  · dsimp only at hpr hs ⊢
    by_cases hpn : p = n
    · subst hpn
      exact (hsched h.scheduled).2
    · rw [update_of_ne hpn, hpred] at hpr
      rw [hsig] at hs
      exact lt_of_lt_of_le (h.pending p ((hready' p).symm.trans hr) hpr hs) (hpend p)

end Inv

/-! ### Whole runs -/

section Runs

variable [Fintype ν]

omit [DecidableEq ν] [Fintype ν] in
theorem inv_initial : g.Inv g.initial ∅ := by
  refine ⟨fun n m i hd hr => ?_, fun n _ hs => ?_, fun n _ hs => ?_, fun n hs => ?_,
    fun n hr hpred _ => ?_, fun n hs => ?_⟩
  · have hlt := g.operand_lt n m i hd
    have hle : g.theNumOperands m ≤ i.val := of_decide_eq_true hr
    omega
  · cases hs
  · cases hs
  · cases hs
  · have hzero : g.theNumOperands n ≤ 0 := of_decide_eq_true (ready_iff.mp hr 0)
    have hcreated := g.created n (Nat.le_zero.mp hzero) hpred
    rw [show g.initial.pending n = if g.theDispatchActions n then 1 else 0 from rfl,
      if_pos hcreated]
    exact Nat.one_pos
  · cases hs

theorem setPredicate_ends (h : g.Inv s ∅) (b : Bool) :
    ∃ t, (∀ k, Fintype.card ν ≤ k → g.squashDependants k { s.reschedule n with
      thePredicate := update (s.reschedule n).thePredicate n b } n = some t) ∧
      g.Inv t ∅ := by
  obtain ⟨hinv, hpend⟩ := h.setPredicate (n := n) b
  have hends : ∀ d ∈ g.theDependances n, ∀ s, ∃ t, ∀ k, Fintype.card ν ≤ k →
      g.squash k s d.1 d.2 = some t := fun d _ s =>
    squash_ends (Fintype.card ν) s d.1 d.2 (after_card_lt_card d.1)
  obtain ⟨t, ht⟩ := squashDependants_ends hends { s.reschedule n with
    thePredicate := update (s.reschedule n).thePredicate n b }
  refine ⟨t, ht, ?_⟩
  have hbefore : ∀ x ∈ (∅ : Set ν), Relation.TransGen g.Feeds x n := fun x hx =>
    absurd hx (Set.notMem_empty x)
  exact (squashDependantsWith_spec (squash_spec (Fintype.card ν)) hbefore hinv
    (fun _ _ => hpend) (ht (Fintype.card ν) (le_refl _))).1

/-- **Every event that is allowed ends, and keeps the invariant.** -/
theorem Inv.step (h : g.Inv s ∅) {e : ActionEvent ν} (he : g.Allowed s e) :
    ∃ t, g.step s e = .ok t ∧ g.Inv t ∅ := by
  cases e with
  | satisfy n i => exact ⟨_, rfl, h.satisfy he.2⟩
  | squash n i =>
    obtain ⟨t, ht⟩ := squash_ends (Fintype.card ν) s n i (after_card_lt_card n)
    have ht' := ht (Fintype.card ν) (le_refl _)
    have hspec := squash_spec (Fintype.card ν) s ∅ n i t ht' h
      (fun x hx => absurd hx (Set.notMem_empty x)) fun p hp => absurd hp (he.2 p)
    refine ⟨t, ?_, hspec.1⟩
    rw [ActionGraph.step, ht', ofOption]
  | predicateOn n =>
    rw [ActionGraph.step, predicateOn]
    by_cases hp : s.thePredicate n = true
    · rw [if_pos hp]
      exact ⟨s, rfl, h⟩
    · rw [if_neg hp]
      obtain ⟨t, ht, hinv⟩ := setPredicate_ends (n := n) h true
      refine ⟨t, ?_, hinv⟩
      dsimp only
      rw [ht _ (le_refl _), ofOption]
  | predicateOff n =>
    rw [ActionGraph.step, predicateOff]
    by_cases hp : s.thePredicate n = true
    · rw [if_pos hp]
      obtain ⟨t, ht, hinv⟩ := setPredicate_ends (n := n) h false
      refine ⟨t, ?_, hinv⟩
      dsimp only
      rw [ht _ (le_refl _), ofOption]
    · rw [if_neg hp]
      exact ⟨s, rfl, h⟩
  | evaluate n b => exact ⟨_, rfl, h.evaluateNext b⟩

/-- **Selective replay in every run**: an operand is ready exactly when the action that feeds it
has signalled; an action that has signalled is ready, predicated on and not squashed; an action
that is ready and predicated on but has not signalled is scheduled; and every squash comes to
an end. -/
theorem replay_correct {s : ActionState ν} (hs : g.machine.ReachableWhen g.Allowed s) :
    (∀ n m i, (m, i) ∈ g.theDependances n → s.theReady m i = s.theSignalled n) ∧
    (∀ n, s.theSignalled n = true →
      s.ready n = true ∧ s.thePredicate n = true ∧ s.theSquashed n = false) ∧
    (∀ n, s.ready n = true → s.thePredicate n = true → s.theSignalled n = false →
      0 < s.pending n) ∧
    (∀ n i, ∃ t, ∀ depth, Fintype.card ν ≤ depth → g.squash depth s n i = some t) ∧
    ∀ e, g.Allowed s e → ∃ t, g.machine.step s e = .ok t := by
  have hinv : g.Inv s ∅ := by
    refine hs.invariant (I := fun s => g.Inv s ∅) inv_initial fun s e t hi he ht => ?_
    obtain ⟨t', ht', hinv⟩ := hi.step he
    have heq : g.step s e = .ok t := ht
    rw [ht'] at heq
    cases heq
    exact hinv
  refine ⟨fun n m i hd => ?_, fun n hn => ?_, hinv.pending, fun n i => ?_, fun e he => ?_⟩
  · rw [Bool.eq_iff_iff]
    exact ⟨hinv.signalled_of_ready n m i hd,
      fun hn => hinv.ready_of_signalled n (Set.notMem_empty n) hn m i hd⟩
  · obtain ⟨hr, hp⟩ := hinv.enabled n (Set.notMem_empty n) hn
    exact ⟨hr, hp, hinv.not_squashed n hn⟩
  · exact squash_ends (Fintype.card ν) s n i (after_card_lt_card n)
  · obtain ⟨t, ht, -⟩ := hinv.step he
    exact ⟨t, ht⟩

end Runs

end ActionGraph

/-- The dependances of two actions, of which the first feeds the second. -/
def firstFeedsSecond (n : Fin 2) : List (Fin 2 × Fin 5) := if n = 0 then [(1, 0)] else []

theorem lt_of_firstFeedsSecond : ∀ a b : Fin 2, (∃ i, (b, i) ∈ firstFeedsSecond a) → a < b := by
  decide

/-- Two actions, of which the first feeds the second. -/
def twoActions : ActionGraph (Fin 2) where
  theNumOperands := fun _ => 1
  theDependances := firstFeedsSecond
  predicated := fun _ => true
  initialPredicate := fun _ => true
  theDispatchActions := fun _ => false
  operand_lt := by decide
  one_source := by decide
  acyclic := fun n h => by
    have hlt : ∀ a b, Relation.TransGen (fun a b => ∃ i, (b, i) ∈ firstFeedsSecond a) a b →
        a < b := by
      intro a b h
      induction h with
      | single h => exact lt_of_firstFeedsSecond _ _ h
      | tail _ h ih => exact lt_trans ih (lt_of_firstFeedsSecond _ _ h)
    exact lt_irrefl n (hlt n n h)
  base_predicate := by decide
  created := by decide

/-- A signal is sent, taken back and sent again. -/
def resend : List (ActionEvent (Fin 2)) :=
  [.satisfy 0 0, .evaluate 0 true, .squash 0 0, .satisfy 0 0, .evaluate 0 true]

/-- After `resend` the second action is ready and scheduled. -/
theorem resend_correct : ∃ s, twoActions.machine.ReachableWhen twoActions.Allowed s ∧
    s.theReady 1 0 = true ∧ 0 < s.pending 1 := by
  have hend : twoActions.machine.endsIn (fun s => s.theSignalled 0 && !s.theSignalled 1 &&
      s.ready 1 && s.thePredicate 1) resend = true := by decide
  obtain ⟨s, hs, htest⟩ := Lib.Machine.exists_of_endsIn hend
  have hreach := Lib.Machine.reachableWhen_of_run (g := fun s e => decide (twoActions.Allowed s e))
    (fun s e h => of_decide_eq_true h) (by decide) hs
  simp only [Bool.and_eq_true, Bool.not_eq_true'] at htest
  obtain ⟨⟨⟨h0, h1⟩, hready⟩, hpred⟩ := htest
  obtain ⟨hedge, -, hpend, -⟩ := ActionGraph.replay_correct hreach
  exact ⟨s, hreach, (hedge 0 1 0 (by decide)).trans h0, hpend 1 hready hpred h1⟩

end Decoder

end Flexus
