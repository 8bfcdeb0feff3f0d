import Flexus.CMPCache.Waits

/-!
# What the processes of a bank have still to do

A process decides about an entry of the miss address file when it is run, and what it
decided is carried out when it leaves its pipelines. In between, other processes are
run. The invariant `Flexus.CMPCache.Orderly` ties the two together. It speaks of the
table of waits, of the processes that are *queued*, that is, scheduled and not yet run,
and of those that are *in flight*, that is, run and not yet finalized:

* a queued process that runs a woken entry has that entry to itself;
* a process in flight that is going to wake an entry finds it there, still waiting for
  its eviction, and no other process is going to wake it;
* a process in flight that is going to remove an entry finds a request that waits for its
  acknowledgement, if it finds anything;
* every request that waits behind another one has an entry ahead of it that will wake it.

Each thing a bank may do to its table and its processes has one lemma here that says
that the invariant survives it.
-/

namespace Flexus

open List

namespace CMPCache

/-- The entry a process is going to wake. -/
def Process.wakes (p : Process) : Option ℕ := if p.action.wakes then p.maf else none

theorem Process.wakes_eq_some {p : Process} {i : ℕ} :
    p.wakes = some i ↔ p.action.wakes = true ∧ p.maf = some i := by
  rw [Process.wakes]
  split
  · simp [*]
  · simp [*]

/-- **The invariant of the wake-ups**, for a table of waits, the queued processes and
those in flight. -/
structure Orderly (block : ℕ → ℕ) (W : Waits) (queue flight : List Process) : Prop where
  /-- An entry is kept under the block of its message. -/
  aligned : ∀ i w, W.entry i = some w → w.address = block w.msg
  /-- A queued process has not decided anything. -/
  undecided : ∀ p ∈ queue, p.action = .noAction
  /-- A queued process that runs an entry has it, -/
  holds : ∀ p ∈ queue, p.type = .wakeMAF → ∃ i w, p.maf = some i ∧ W.entry i = some w ∧
    w.state = .inPipeline ∧ w.msg = p.transport.address
  /-- and no other one has. -/
  apart : queue.Pairwise fun p q => p.type = .wakeMAF → q.type = .wakeMAF → p.maf ≠ q.maf
  /-- What is to be woken waits for an eviction, -/
  wakers : ∀ p ∈ flight, p.action.wakes = true →
    ∃ i w, p.maf = some i ∧ W.entry i = some w ∧ w.state = .waitEvict
  /-- and is woken once. -/
  once : (flight.filterMap Process.wakes).Nodup
  /-- What is to be removed waits for an acknowledgement of the block. -/
  removers : ∀ p ∈ flight, p.action.removes = true → ∃ i, p.maf = some i ∧ i < W.next ∧
    ∀ w, W.entry i = some w → w.state = .waitAck ∧ w.address = p.transport.address
  /-- Redundant entries are removed at once. -/
  kept : ∀ p ∈ flight, p.action ≠ .removeMAF
  /-- A request that waits for another one has one ahead of it. -/
  behind : ∀ i w, W.entry i = some w → w.state = .waitRequest → ∃ j v, W.entry j = some v ∧
    v.address = w.address ∧ (v.state = .waitAck ∨ v.state = .waitEvict)
  /-- Only one entry of a block waits for an eviction. -/
  single : ∀ i j w v, W.entry i = some w → W.entry j = some v → w.address = v.address →
    w.state = .waitEvict → v.state = .waitEvict → i = j

namespace Orderly

variable {block : ℕ → ℕ} {W W' : Waits} {Q F F' : List Process} {p q : Process} {i : ℕ} {w : Wait}

theorem init : Orderly block ⟨fun _ => none, 0⟩ [] [] where
  aligned := by intro i w h; cases h
  undecided := by intro p hp; cases hp
  holds := by intro p hp; cases hp
  apart := List.Pairwise.nil
  wakers := by intro p hp; cases hp
  once := nodup_nil
  removers := by intro p hp; cases hp
  kept := by intro p hp; cases hp
  behind := by intro i w h; cases h
  single := by intro i j w v h; cases h

theorem perm (h : Orderly block W Q F) (hF : F.Perm F') : Orderly block W Q F' :=
  { h with
    wakers := fun p hp => h.wakers p (hF.mem_iff.mpr hp)
    once := ((hF.filterMap Process.wakes).nodup_iff).mp h.once
    removers := fun p hp => h.removers p (hF.mem_iff.mpr hp)
    kept := fun p hp => h.kept p (hF.mem_iff.mpr hp) }

theorem forget (h : Orderly block W Q (p :: F)) : Orderly block W Q F :=
  { h with
    wakers := fun q hq => h.wakers q (mem_cons_of_mem p hq)
    once := h.once.sublist ((sublist_cons_self p F).filterMap Process.wakes)
    removers := fun q hq => h.removers q (mem_cons_of_mem p hq)
    kept := fun q hq => h.kept q (mem_cons_of_mem p hq) }

theorem dequeue (h : Orderly block W (p :: Q) F) : Orderly block W Q F :=
  { h with
    undecided := fun q hq => h.undecided q (mem_cons_of_mem p hq)
    holds := fun q hq => h.holds q (mem_cons_of_mem p hq)
    apart := (pairwise_cons.mp h.apart).2 }

theorem alone (h : Orderly block W (p :: Q) F) (hp : p.type = .wakeMAF) :
    ∀ q ∈ Q, q.type = .wakeMAF → q.maf ≠ p.maf :=
  fun q hq hqt => ((pairwise_cons.mp h.apart).1 q hq hp hqt).symm

theorem enqueue (h : Orderly block W Q F) (hp : p.type ≠ .wakeMAF) (ha : p.action = .noAction) :
    Orderly block W (Q ++ [p]) F :=
  { h with
    undecided := by
      intro q hq
      rcases mem_append.mp hq with hq | hq
      · exact h.undecided q hq
      · rw [mem_singleton.mp hq]
        exact ha
    holds := by
      intro q hq ht
      rcases mem_append.mp hq with hq | hq
      · exact h.holds q hq ht
      · rw [mem_singleton.mp hq] at ht
        exact absurd ht hp
    apart := by
      refine pairwise_append.mpr ⟨h.apart, pairwise_singleton _ _, ?_⟩
      intro q _ r hr _ hrt
      rw [mem_singleton.mp hr] at hrt
      exact absurd hrt hp }

/-- A process in flight that neither wakes nor removes anything. -/
theorem addIdle (h : Orderly block W Q F) (hw : p.action.wakes = false)
    (hr : p.action.removes = false) (hk : p.action ≠ .removeMAF) :
    Orderly block W Q (p :: F) where
  aligned := h.aligned
  undecided := h.undecided
  holds := h.holds
  apart := h.apart
  wakers := by
    intro q hq ha
    rcases mem_cons.mp hq with rfl | hq
    · rw [hw] at ha
      cases ha
    · exact h.wakers q hq ha
  once := by
    have hnone : p.wakes = none := by rw [Process.wakes, hw]; rfl
    rw [filterMap_cons_none hnone]
    exact h.once
  removers := by
    intro q hq ha
    rcases mem_cons.mp hq with rfl | hq
    · rw [hr] at ha
      cases ha
    · exact h.removers q hq ha
  kept := by
    intro q hq
    rcases mem_cons.mp hq with rfl | hq
    · exact hk
    · exact h.kept q hq
  behind := h.behind
  single := h.single

/-- A process in flight that is going to wake an entry nobody else is going to wake. -/
theorem addWaker (h : Orderly block W Q F) (hw : p.action.wakes = true) (hmaf : p.maf = some i)
    (hi : W.entry i = some w) (hst : w.state = .waitEvict) (hone : ∀ q ∈ F, q.wakes ≠ some i) :
    Orderly block W Q (p :: F) where
  aligned := h.aligned
  undecided := h.undecided
  holds := h.holds
  apart := h.apart
  wakers := by
    intro q hq ha
    rcases mem_cons.mp hq with rfl | hq
    · exact ⟨i, w, hmaf, hi, hst⟩
    · exact h.wakers q hq ha
  once := by
    rw [filterMap_cons_some (Process.wakes_eq_some.mpr ⟨hw, hmaf⟩), nodup_cons]
    refine ⟨fun hc => ?_, h.once⟩
    obtain ⟨q, hq, hqi⟩ := mem_filterMap.mp hc
    exact hone q hq hqi
  removers := by
    intro q hq ha
    rcases mem_cons.mp hq with rfl | hq
    · rw [ProcessAction.removes_of_wakes hw] at ha
      cases ha
    · exact h.removers q hq ha
  kept := by
    intro q hq ha
    rcases mem_cons.mp hq with rfl | hq
    · rw [ha] at hw
      cases hw
    · exact h.kept q hq ha
  behind := h.behind
  single := h.single

theorem addRemover (h : Orderly block W Q F) (hr : p.action.removes = true)
    (hmaf : p.maf = some i) (hlt : i < W.next) (hi : W.entry i = some w)
    (hst : w.state = .waitAck) (ha : w.address = p.transport.address) :
    Orderly block W Q (p :: F) where
  aligned := h.aligned
  undecided := h.undecided
  holds := h.holds
  apart := h.apart
  wakers := by
    intro q hq hw
    rcases mem_cons.mp hq with rfl | hq
    · rw [ProcessAction.removes_of_wakes hw] at hr
      cases hr
    · exact h.wakers q hq hw
  once := by
    have hnone : p.wakes = none := by
      rw [Process.wakes, if_neg]
      intro hw
      rw [ProcessAction.removes_of_wakes hw] at hr
      cases hr
    rw [filterMap_cons_none hnone]
    exact h.once
  removers := by
    intro q hq hqr
    rcases mem_cons.mp hq with rfl | hq
    · refine ⟨i, hmaf, hlt, fun v hv => ?_⟩
      rw [hi] at hv
      cases hv
      exact ⟨hst, ha⟩
    · exact h.removers q hq hqr
  kept := by
    intro q hq hk
    rcases mem_cons.mp hq with rfl | hq
    · rw [hk] at hr
      cases hr
    · exact h.kept q hq hk
  behind := h.behind
  single := h.single

/-! ### Changes of the table -/

/-- **An entry is put**: a new one, or one that a process had taken out of the queue. -/
structure Puts (W : Waits) (queue : List Process) (i : ℕ) (w : Wait) (W' : Waits) : Prop where
  entry : ∀ j, W'.entry j = if j = i then some w else W.entry j
  next : W.next ≤ W'.next
  lt_next : i < W'.next
  fresh : W.entry i = none → W.next ≤ i
  held : ∀ v, W.entry i = some v → v.state = .inPipeline
  free : ∀ q ∈ queue, q.type = .wakeMAF → q.maf ≠ some i

theorem Puts.of_ne (h : Puts W Q i w W') {j : ℕ} {v : Wait} (hj : W.entry j = some v)
    (hv : v.state ≠ .inPipeline) : W'.entry j = some v := by
  rw [h.entry, if_neg, hj]
  rintro rfl
  exact hv (h.held v hj)

/-- The invariant survives that an entry is put, if it waits for a reason. -/
theorem put (h : Orderly block W Q F) (hp : Puts W Q i w W') (hal : w.address = block w.msg)
    (hreq : w.state = .waitRequest → ∃ j v, W.entry j = some v ∧ v.address = w.address ∧
      (v.state = .waitRequest ∨ v.state = .waitEvict ∨ v.state = .waitAck))
    (hev : w.state = .waitEvict → ∀ j v, W.entry j = some v → v.address = w.address →
      v.state ≠ .waitEvict) : Orderly block W' Q F where
  aligned := by
    intro j v hj
    rw [hp.entry] at hj
    split at hj
    · cases hj
      exact hal
    · exact h.aligned j v hj
  undecided := h.undecided
  holds := by
    intro q hq ht
    obtain ⟨j, v, hm, hj, hst, hmsg⟩ := h.holds q hq ht
    refine ⟨j, v, hm, ?_, hst, hmsg⟩
    rw [hp.entry, if_neg, hj]
    rintro rfl
    exact hp.free q hq ht hm
  apart := h.apart
  wakers := by
    intro q hq hw
    obtain ⟨j, v, hm, hj, hst⟩ := h.wakers q hq hw
    exact ⟨j, v, hm, hp.of_ne hj (by rw [hst]; decide), hst⟩
  once := h.once
  removers := by
    intro q hq hr
    obtain ⟨j, hm, hlt, hj⟩ := h.removers q hq hr
    refine ⟨j, hm, Nat.lt_of_lt_of_le hlt hp.next, fun v hv => ?_⟩
    rw [hp.entry] at hv
    split at hv
    · -- the entry of a remover is neither new nor in the pipeline
      rename_i hji
      subst hji
      cases hW : W.entry j with
      | none => exact absurd (hp.fresh hW) (Nat.not_le.mpr hlt)
      | some u =>
        have hu := (hj u hW).1
        rw [hp.held u hW] at hu
        cases hu
    · exact hj v hv
  kept := h.kept
  behind := by
    have hold : ∀ j v, W.entry j = some v → v.state = .waitRequest →
        ∃ k u, W'.entry k = some u ∧ u.address = v.address ∧
          (u.state = .waitAck ∨ u.state = .waitEvict) := by
      intro j v hj hst
      obtain ⟨k, u, hk, hu, hust⟩ := h.behind j v hj hst
      refine ⟨k, u, hp.of_ne hk ?_, hu, hust⟩
      rcases hust with hust | hust
      · rw [hust]
        decide
      · rw [hust]
        decide
    intro j v hj hst
    rw [hp.entry] at hj
    split at hj
    · cases hj
      obtain ⟨k, u, hk, hu, hust⟩ := hreq hst
      rcases hust with hust | hust | hust
      · obtain ⟨k', u', hk', hu', hust'⟩ := hold k u hk hust
        exact ⟨k', u', hk', hu'.trans hu, hust'⟩
      · exact ⟨k, u, hp.of_ne hk (by rw [hust]; decide), hu, .inr hust⟩
      · exact ⟨k, u, hp.of_ne hk (by rw [hust]; decide), hu, .inl hust⟩
    · exact hold j v hj hst
  single := by
    intro j k v u hj hk ha hv hu
    rw [hp.entry] at hj hk
    split at hj
    · split at hk
      · rename_i hji hki
        exact hji.trans hki.symm
      · cases hj
        exact absurd hu (hev hv k u hk ha.symm)
    · split at hk
      · cases hk
        exact absurd hv (hev hu j v hj ha)
      · exact h.single j k v u hj hk ha hv hu

theorem schedule (h : Orderly block W Q F) (hi : W.entry i = some w) (hst : w.state = .waking)
    (ha : p.action = .noAction) (hm : p.maf = some i)
    (hmsg : w.msg = p.transport.address) :
    Orderly block (W.set i { w with state := .inPipeline }) (Q ++ [p]) F := by
  have hne : ∀ {j v}, W.entry j = some v → v.state ≠ .waking →
      (W.set i { w with state := .inPipeline }).entry j = some v := by
    intro j v hj hv
    rw [Waits.entry_set, if_neg, hj]
    rintro rfl
    rw [hi] at hj
    cases hj
    exact hv hst
  have hcases : ∀ {j v}, (W.set i { w with state := .inPipeline }).entry j = some v →
      v.state ≠ .inPipeline → W.entry j = some v := by
    intro j v hj hv
    rw [Waits.entry_set] at hj
    split at hj
    · cases hj
      exact absurd rfl hv
    · exact hj
  constructor
  · intro j v hj
    rw [Waits.entry_set] at hj
    split at hj
    · cases hj
      exact h.aligned i w hi
    · exact h.aligned j v hj
  · intro q hq
    rcases mem_append.mp hq with hq | hq
    · exact h.undecided q hq
    · rw [mem_singleton.mp hq]
      exact ha
  · intro q hq ht
    rcases mem_append.mp hq with hq | hq
    · obtain ⟨j, v, hqm, hj, hv, hvm⟩ := h.holds q hq ht
      exact ⟨j, v, hqm, hne hj (by rw [hv]; decide), hv, hvm⟩
    · rw [mem_singleton.mp hq]
      exact ⟨i, { w with state := .inPipeline }, hm, if_pos rfl, rfl, hmsg⟩
  · refine pairwise_append.mpr ⟨h.apart, pairwise_singleton _ _, ?_⟩
    intro q hq r hr hqt _ hqr
    rw [mem_singleton.mp hr, hm] at hqr
    obtain ⟨j, v, hqm, hj, hv, -⟩ := h.holds q hq hqt
    rw [hqr] at hqm
    cases hqm
    rw [hi] at hj
    cases hj
    rw [hst] at hv
    cases hv
  · intro q hq hw
    obtain ⟨j, v, hqm, hj, hv⟩ := h.wakers q hq hw
    exact ⟨j, v, hqm, hne hj (by rw [hv]; decide), hv⟩
  · exact h.once
  · intro q hq hr
    obtain ⟨j, hqm, hlt, hj⟩ := h.removers q hq hr
    refine ⟨j, hqm, hlt, fun v hv => ?_⟩
    rw [Waits.entry_set] at hv
    split at hv
    · rename_i hji
      subst hji
      have := (hj w hi).1
      rw [hst] at this
      cases this
    · exact hj v hv
  · exact h.kept
  · intro j v hj hv
    obtain ⟨k, u, hk, hu, hust⟩ := h.behind j v (hcases hj (by rw [hv]; decide)) hv
    refine ⟨k, u, hne hk ?_, hu, hust⟩
    rcases hust with hust | hust
    · rw [hust]
      decide
    · rw [hust]
      decide
  · intro j k v u hj hk ha' hv hu
    exact h.single j k v u (hcases hj (by rw [hv]; decide)) (hcases hk (by rw [hu]; decide)) ha'
      hv hu

/-- What may be woken: requests that wait for another one or for room, and an entry that
waits for an eviction if nobody else is going to wake it and the requests behind it are
woken too. -/
def Wakeable (W : Waits) (flight : List Process) (P : ℕ → Wait → Bool) : Prop :=
  ∀ j w, W.entry j = some w → P j w = true → w.state = .waitRequest ∨ w.state = .waitSet ∨
    (w.state = .waitEvict ∧ (∀ q ∈ flight, q.wakes ≠ some j) ∧
      ∀ k v, W.entry k = some v → v.address = w.address → v.state = .waitRequest → P k v = true)

/-- An entry of the table after a waking was there before, and has been woken or not. -/
theorem of_wake {P : ℕ → Wait → Bool} {j : ℕ} {v : Wait} (h : (W.wake P).entry j = some v) :
    ∃ u, W.entry j = some u ∧ v.address = u.address ∧ v.msg = u.msg ∧
      ((P j u = true ∧ v.state = .waking) ∨ (P j u = false ∧ v = u)) := by
  rw [Waits.entry_wake, Option.map_eq_some_iff] at h
  obtain ⟨u, hu, rfl⟩ := h
  by_cases hP : P j u = true
  · rw [if_pos hP]
    exact ⟨u, hu, rfl, rfl, .inl ⟨hP, rfl⟩⟩
  · rw [if_neg hP]
    exact ⟨u, hu, rfl, rfl, .inr ⟨by simpa using hP, rfl⟩⟩

theorem wake_of_not {P : ℕ → Wait → Bool} {j : ℕ} {v : Wait} (h : W.entry j = some v)
    (hP : ¬ P j v = true) : (W.wake P).entry j = some v := by
  rw [Waits.entry_wake, h, Option.map_some, if_neg hP]

theorem wake (h : Orderly block W Q F) {P : ℕ → Wait → Bool} (hP : Wakeable W F P) :
    Orderly block (W.wake P) Q F := by
  have hstay : ∀ {j v}, W.entry j = some v → v.state = .inPipeline ∨ v.state = .waitAck →
      (W.wake P).entry j = some v := by
    intro j v hj hv
    refine wake_of_not hj fun hw => ?_
    rcases hP j v hj hw with hs | hs | ⟨hs, -⟩
    all_goals
      rw [hs] at hv
      rcases hv with hv | hv <;> cases hv
  constructor
  · intro j v hj
    obtain ⟨u, hu, ha, hm, -⟩ := of_wake hj
    rw [ha, hm]
    exact h.aligned j u hu
  · exact h.undecided
  · intro q hq ht
    obtain ⟨j, v, hm, hj, hv, hmsg⟩ := h.holds q hq ht
    exact ⟨j, v, hm, hstay hj (.inl hv), hv, hmsg⟩
  · exact h.apart
  · intro q hq hw
    obtain ⟨j, v, hm, hj, hv⟩ := h.wakers q hq hw
    refine ⟨j, v, hm, wake_of_not hj fun hPv => ?_, hv⟩
    rcases hP j v hj hPv with hs | hs | ⟨-, hnone, -⟩
    · rw [hv] at hs
      cases hs
    · rw [hv] at hs
      cases hs
    · exact hnone q hq (Process.wakes_eq_some.mpr ⟨hw, hm⟩)
  · exact h.once
  · intro q hq hr
    obtain ⟨j, hm, hlt, hj⟩ := h.removers q hq hr
    refine ⟨j, hm, hlt, fun v hv => ?_⟩
    obtain ⟨u, hu, -⟩ := of_wake hv
    have hv' := hstay hu (.inr (hj u hu).1)
    rw [hv] at hv'
    cases hv'
    exact hj v hu
  · exact h.kept
  · intro j v hj hv
    obtain ⟨u, hu, ha, -, ⟨-, hwk⟩ | ⟨hPu, rfl⟩⟩ := of_wake hj
    · rw [hv] at hwk
      cases hwk
    · -- the entry ahead stays, or takes the request with it
      obtain ⟨k, x, hk, hx, hxs⟩ := h.behind j v hu hv
      by_cases hPx : P k x = true
      · rcases hP k x hk hPx with hs | hs | ⟨-, -, hall⟩
        · rcases hxs with hxs | hxs <;> rw [hs] at hxs <;> cases hxs
        · rcases hxs with hxs | hxs <;> rw [hs] at hxs <;> cases hxs
        · rw [hall j v hu hx.symm hv] at hPu
          cases hPu
      · exact ⟨k, x, wake_of_not hk hPx, hx, hxs⟩
  · intro j k v u hj hk ha hv hu
    obtain ⟨v', hj', -, -, ⟨-, hwk⟩ | ⟨-, rfl⟩⟩ := of_wake hj
    · rw [hv] at hwk
      cases hwk
    · obtain ⟨u', hk', -, -, ⟨-, hwk⟩ | ⟨-, rfl⟩⟩ := of_wake hk
      · rw [hu] at hwk
        cases hwk
      · exact h.single j k v u hj' hk' ha hv hu

/-- An entry is removed that nobody is going to run or wake, and that no request waits
behind. -/
theorem erase (h : Orderly block W Q F) (hi : W.entry i = some w) (hst : w.state ≠ .waitEvict)
    (hfree : ∀ q ∈ Q, q.type = .wakeMAF → q.maf ≠ some i)
    (hbehind : w.state = .waitAck → ∀ j v, W.entry j = some v → v.address = w.address →
      v.state = .waitRequest → ∃ k u, k ≠ i ∧ W.entry k = some u ∧ u.address = w.address ∧
        (u.state = .waitAck ∨ u.state = .waitEvict)) : Orderly block (W.erase i) Q F := by
  have hold : ∀ {j v}, (W.erase i).entry j = some v → W.entry j = some v := by
    intro j v hj
    rw [Waits.entry_erase] at hj
    split at hj
    · cases hj
    · exact hj
  have hnew : ∀ {j v}, W.entry j = some v → j ≠ i → (W.erase i).entry j = some v := by
    intro j v hj hji
    rw [Waits.entry_erase, if_neg hji, hj]
  constructor
  · exact fun j v hj => h.aligned j v (hold hj)
  · exact h.undecided
  · intro q hq ht
    obtain ⟨j, v, hm, hj, hv, hmsg⟩ := h.holds q hq ht
    refine ⟨j, v, hm, hnew hj ?_, hv, hmsg⟩
    rintro rfl
    exact hfree q hq ht hm
  · exact h.apart
  · intro q hq hw
    obtain ⟨j, v, hm, hj, hv⟩ := h.wakers q hq hw
    refine ⟨j, v, hm, hnew hj ?_, hv⟩
    rintro rfl
    rw [hi] at hj
    cases hj
    exact hst hv
  · exact h.once
  · intro q hq hr
    obtain ⟨j, hm, hlt, hj⟩ := h.removers q hq hr
    exact ⟨j, hm, hlt, fun v hv => hj v (hold hv)⟩
  · exact h.kept
  · intro j v hj hv
    obtain ⟨k, u, hk, hu, hust⟩ := h.behind j v (hold hj) hv
    by_cases hki : k = i
    · subst hki
      rw [hi] at hk
      cases hk
      rcases hust with hack | hev
      · obtain ⟨k', u', hne, hk', hu', hust'⟩ := hbehind hack j v (hold hj) hu.symm hv
        exact ⟨k', u', hnew hk' hne, hu'.trans hu, hust'⟩
      · exact absurd hev hst
    · exact ⟨k, u, hnew hk hki, hu, hust⟩
  · exact fun j k v u hj hk ha hv hu => h.single j k v u (hold hj) (hold hk) ha hv hu

/-! ### Running and finalizing a process -/

/-- The entry a decision makes is put under the block of the message. -/
theorem puts_of_enters {a : ℕ} {st : MAFState} {hasMaf : Bool} (h : Orderly block W (p :: Q) F)
    (hpast : ∀ i w, W.entry i = some w → i < W.next) (hhas : hasMaf = true → p.type = .wakeMAF)
    (ha : a = block p.transport.address)
    (he : Enters W p.maf p.transport.address a st hasMaf W' i) :
    Puts W Q i ⟨block p.transport.address, st, p.transport.address⟩ W' := by
  cases he with
  | own hmaf hi =>
    rename_i v
    obtain ⟨j, u, hj, hu, hst, hmsg⟩ := h.holds p mem_cons_self (hhas rfl)
    rw [hmaf] at hj
    cases hj
    rw [hi] at hu
    cases hu
    have hv : v.address = block p.transport.address := by rw [h.aligned i v hi, hmsg]
    rw [← hv]
    refine ⟨fun j => Waits.entry_set, Nat.le_refl _, hpast i v hi, fun hn => ?_, fun u hu => ?_, ?_⟩
    · rw [hi] at hn
      cases hn
    · rw [hi] at hu
      cases hu
      exact hst
    · rw [← hmaf]
      exact h.alone (hhas rfl)
  | new =>
    refine ⟨fun j => ?_, Nat.le_succ _, Nat.lt_succ_self _, fun _ => Nat.le_refl _, fun v hv => ?_,
      fun q hq ht => ?_⟩
    · rw [Waits.entry_add, ha]
    · exact absurd (hpast _ v hv) (Nat.lt_irrefl _)
    · intro hm
      obtain ⟨j, v, hj, hv, -⟩ := h.dequeue.holds q hq ht
      rw [hm] at hj
      cases hj
      exact absurd (hpast _ v hv) (Nat.lt_irrefl _)

/-- A message goes to sleep at the address of its block. An eviction sleeps at the address
of its message, which is then that of a block, since there is an entry of it. -/
theorem block_of_sleep {owes : ℕ → Prop} {a : ℕ} {st : MAFState} (h : Orderly block W Q F)
    (hidem : ∀ a, block (block a) = block a) {msg : ℕ}
    (ha : a = block msg ∨ (a = msg ∧ st = .waitRequest)) (hfor : SleepsFor owes W a st) :
    a = block msg := by
  rcases ha with ha | ⟨ha, rfl⟩
  · exact ha
  · obtain ⟨j, v, hj, hv, -⟩ := hfor
    rw [← ha, ← hv, h.aligned j v hj, hidem]

/-- **Running a process.** It must not pick an entry of a block of which another entry is
about to be woken. -/
theorem decide {owes : ℕ → Prop} {hasMaf : Bool} (h : Orderly block W (p :: Q) F)
    (hidem : ∀ a, block (block a) = block a) (hpast : ∀ i w, W.entry i = some w → i < W.next)
    (hhas : hasMaf = true → p.type = .wakeMAF)
    (hd : Settles block owes W p.type p.maf p.transport.address hasMaf W' q)
    (hk : q.action ≠ .removeMAF)
    (hone : q.action.wakes = true → ∀ r ∈ F, ∀ i w, r.wakes = some i → W.entry i = some w →
      w.address ≠ p.transport.address) : Orderly block W' Q (q :: F) := by
  cases hd.decision with
  | sleep haction hmaf ha henters hfor =>
    rename_i a i st
    have hidle : ∀ W, Orderly block W Q F → Orderly block W Q (q :: F) := by
      intro W hW
      exact hW.addIdle (by rw [haction]; rfl) (by rw [haction]; rfl) hk
    have ha' := h.block_of_sleep hidem ha hfor
    have hput := h.puts_of_enters hpast hhas ha' henters
    refine hidle W' (h.dequeue.put hput rfl (fun hst => ?_) fun hst => ?_)
    · change st = _ at hst
      subst hst
      rw [← ha']
      exact hfor
    · change st = _ at hst
      subst hst
      rw [← ha']
      exact hfor.2
  | activate haction hmaf henters =>
    have hput := h.puts_of_enters hpast hhas rfl henters
    obtain ⟨hw, hr⟩ := ProcessAction.inert_of_granted haction
    exact (h.dequeue.put hput rfl nofun nofun).addIdle hw hr hk
  | redundant haction hmaf hW =>
    rw [hW]
    cases hasMaf with
    | true => exact absurd haction hk
    | false => exact h.dequeue.addIdle (by rw [haction]; rfl) (by rw [haction]; rfl) hk
  | pick haction hmaf hi hst ha hW =>
    rw [hW]
    refine h.dequeue.addWaker haction hmaf hi hst fun r hr hri => ?_
    exact hone haction r hr _ _ hri hi ha
  | finish haction hmaf hi hst ha hW =>
    rw [hW]
    exact h.dequeue.addRemover haction hmaf (hpast _ _ hi) hi hst (ha.trans hd.address.symm)
  | pass haction _ hW =>
    rw [hW]
    obtain ⟨hw, hr⟩ := ProcessAction.inert_of_idle haction
    exact h.dequeue.addIdle hw hr hk

/-- **A redundant request** gives its entry up at once. -/
theorem discard (h : Orderly block W (p :: Q) F) (hp : p.type = .wakeMAF) (hi : p.maf = some i)
    (hq : q.action = .noAction) : Orderly block (W.erase i) Q (q :: F) := by
  obtain ⟨j, v, hj, hv, hst, -⟩ := h.holds p mem_cons_self hp
  rw [hi] at hj
  cases hj
  refine (h.dequeue.erase hv (by rw [hst]; decide) ?_ ?_).addIdle ?_ ?_ ?_
  · rw [← hi]
    exact h.alone hp
  · intro hack
    rw [hst] at hack
    cases hack
  · rw [hq]
    rfl
  · rw [hq]
    rfl
  · rw [hq]
    decide

/-- **Finalizing a process.** -/
theorem finalize {sameSet : ℕ → ℕ → Bool} (h : Orderly block W Q (p :: F))
    (hf : Finalizes sameSet W p W') : Orderly block W' Q F := by
  -- what is removed is not held by a queued process
  have hfree : ∀ i w, W.entry i = some w → w.state = .waitAck → ∀ q ∈ Q, q.type = .wakeMAF →
      q.maf ≠ some i := by
    intro i w hi hst q hq ht hm
    obtain ⟨j, v, hj, hv, hvst, -⟩ := h.holds q hq ht
    rw [hm] at hj
    cases hj
    rw [hi] at hv
    cases hv
    rw [hst] at hvst
    cases hvst
  cases hf with
  | wake haction hmaf hi =>
    rename_i i w
    refine h.forget.wake fun j v hj hP => ?_
    rcases of_decide_eq_true hP with rfl | ⟨-, hst⟩
    · rw [hi] at hj
      cases hj
      obtain ⟨j, v, hm, hv, hst⟩ := h.wakers p mem_cons_self haction
      rw [hmaf] at hm
      cases hm
      rw [hi] at hv
      cases hv
      refine .inr (.inr ⟨hst, fun q hq hqi => ?_, fun k u _ ha hu => ?_⟩)
      · have honce := h.once
        rw [filterMap_cons_some (Process.wakes_eq_some.mpr ⟨haction, hmaf⟩), nodup_cons] at honce
        exact honce.1 (mem_filterMap.mpr ⟨q, hq, hqi⟩)
      · exact decide_eq_true (.inr ⟨ha, hu⟩)
    · exact .inl hst
  | remove haction hmaf hi hj ha hst =>
    rename_i i j w v
    obtain ⟨i', hm, -, hw⟩ := h.removers p mem_cons_self haction
    rw [hmaf] at hm
    cases hm
    obtain ⟨hack, haddr⟩ := hw w hi
    rw [Waits.entry_erase] at hj
    split at hj
    · cases hj
    · rename_i hji
      refine h.forget.erase hi (by rw [hack]; decide) (hfree i w hi hack) ?_
      exact fun _ _ _ _ _ _ => ⟨j, v, hji, hj, ha.trans haddr.symm, .inl hst⟩
  | removeAndWake haction hmaf hi =>
    rename_i i w
    obtain ⟨i', hm, -, hw⟩ := h.removers p mem_cons_self haction
    rw [hmaf] at hm
    cases hm
    obtain ⟨hack, haddr⟩ := hw w hi
    generalize hP : (fun (_ : ℕ) (v : Wait) =>
      (v.state == .waitRequest && v.address == p.transport.address) ||
        (v.state == .waitSet && sameSet p.transport.address v.address)) = P
    have hcomm : (W.erase i).wake P = (W.wake P).erase i := by
      refine Waits.ext (fun j => ?_) rfl
      simp only [Waits.entry_wake, Waits.entry_erase]
      split
      · rfl
      · rfl
    have hwake : Orderly block (W.wake P) Q F := by
      refine h.forget.wake fun j v _ hPv => ?_
      rw [← hP] at hPv
      simp only [Bool.or_eq_true, Bool.and_eq_true, beq_iff_eq] at hPv
      rcases hPv with ⟨hst, -⟩ | ⟨hst, -⟩
      · exact .inl hst
      · exact .inr (.inl hst)
    have hiw : (W.wake P).entry i = some w := by
      refine wake_of_not hi ?_
      rw [← hP]
      simp [hack]
    rw [hcomm]
    refine hwake.erase hiw (by rw [hack]; decide) (hfree i w hi hack) ?_
    intro _ j v hj hv hst
    -- no request of the block sleeps any more
    obtain ⟨u, hu, hua, -, ⟨-, hwk⟩ | ⟨hPu, rfl⟩⟩ := of_wake hj
    · rw [hst] at hwk
      cases hwk
    · rw [← hP] at hPu
      simp [hst, hv, haddr] at hPu
  | drop haction hmaf hi => exact absurd haction (h.kept p mem_cons_self)
  | idle hwakes hremoves => exact h.forget

end Orderly

/-! ### Why an entry waits for an eviction -/

/-- **Every entry that waits for an eviction will be woken**: the eviction is on its way,
or a process in flight has picked the entry. -/
def Reasoned (owes : ℕ → Prop) (W : Waits) (flight : List Process) : Prop :=
  ∀ i w, W.entry i = some w → w.state = .waitEvict →
    owes w.address ∨ ∃ p ∈ flight, p.wakes = some i

namespace Reasoned

variable {block : ℕ → ℕ} {owes owes' : ℕ → Prop} {W W' : Waits} {Q F F' : List Process}
  {p q : Process} {i : ℕ} {w : Wait}

theorem init : Reasoned owes ⟨fun _ => none, 0⟩ [] := by
  intro i w h
  cases h

theorem mono (h : Reasoned owes W F) (ho : ∀ a, owes a → owes' a) : Reasoned owes' W F :=
  fun i w hi hst => (h i w hi hst).imp_left (ho w.address)

theorem perm (h : Reasoned owes W F) (hF : F.Perm F') : Reasoned owes W F' := by
  intro i w hi hst
  refine (h i w hi hst).imp_right ?_
  rintro ⟨p, hp, hpi⟩
  exact ⟨p, hF.mem_iff.mp hp, hpi⟩

/-- The entries that wait for an eviction are the same, or fewer. -/
theorem sub (h : Reasoned owes W F)
    (hW : ∀ i w, W'.entry i = some w → w.state = .waitEvict → W.entry i = some w) :
    Reasoned owes W' F := fun i w hi hst => h i w (hW i w hi hst) hst

/-- **Finalizing a process** wakes what it has picked, and nothing else that waits for an
eviction. -/
theorem finalize {sameSet : ℕ → ℕ → Bool} (h : Reasoned owes W (p :: F))
    (hf : Finalizes sameSet W p W') : Reasoned owes W' F := by
  have htail : ∀ i w, W.entry i = some w → w.state = .waitEvict → p.wakes ≠ some i →
      owes w.address ∨ ∃ q ∈ F, q.wakes = some i := by
    intro i w hi hst hne
    refine (h i w hi hst).imp_right ?_
    rintro ⟨q, hq, hqi⟩
    rcases mem_cons.mp hq with rfl | hq
    · exact absurd hqi hne
    · exact ⟨q, hq, hqi⟩
  have hidle : p.action.wakes = false → ∀ i, p.wakes ≠ some i := by
    intro hw i hi
    rw [(Process.wakes_eq_some.mp hi).1] at hw
    cases hw
  have hremoves : p.action.removes = true → p.action.wakes = false := by
    intro hr
    cases hw : p.action.wakes with
    | false => rfl
    | true =>
      rw [ProcessAction.removes_of_wakes hw] at hr
      cases hr
  have herase : ∀ j i w, (W.erase j).entry i = some w → W.entry i = some w := by
    intro j i w hi
    rw [Waits.entry_erase] at hi
    split at hi
    · cases hi
    · exact hi
  intro i w hi hst
  cases hf with
  | wake haction hmaf hj =>
    obtain ⟨u, hu, -, -, ⟨-, hwk⟩ | ⟨hP, rfl⟩⟩ := Orderly.of_wake hi
    · rw [hst] at hwk
      cases hwk
    · refine htail i w hu hst fun hpi => ?_
      have hm := (Process.wakes_eq_some.mp hpi).2
      rw [hmaf] at hm
      cases hm
      simp at hP
  | remove haction hmaf hj => exact htail i w (herase _ i w hi) hst (hidle (hremoves haction) i)
  | removeAndWake haction hmaf hj =>
    obtain ⟨u, hu, -, -, ⟨-, hwk⟩ | ⟨-, rfl⟩⟩ := Orderly.of_wake hi
    · rw [hst] at hwk
      cases hwk
    · exact htail i w (herase _ i w hu) hst (hidle (hremoves haction) i)
  | drop haction hmaf hj =>
    exact htail i w (herase _ i w hi) hst (hidle (by rw [haction]; rfl) i)
  | idle hwakes => exact htail i w hi hst (hidle hwakes i)

/-- **Running a process.** What it ends must not be what an entry waits for, unless it
picks that entry or another process has picked it. -/
theorem decide {hasMaf : Bool} (h : Reasoned owes W F) (ho : Orderly block W (p :: Q) F)
    (hidem : ∀ a, block (block a) = block a) (hpast : ∀ i w, W.entry i = some w → i < W.next)
    (hhas : hasMaf = true → p.type = .wakeMAF)
    (hd : Settles block owes' W p.type p.maf p.transport.address hasMaf W' q)
    (hstill : ∀ i w, W.entry i = some w → w.state = .waitEvict → owes w.address →
      owes' w.address ∨ q.wakes = some i ∨ ∃ r ∈ F, r.wakes = some i) :
    Reasoned owes' W' (q :: F) := by
  have hold : ∀ i w, W.entry i = some w → w.state = .waitEvict →
      owes' w.address ∨ ∃ r ∈ q :: F, r.wakes = some i := by
    intro i w hi hst
    have hflight : (∃ r ∈ F, r.wakes = some i) → ∃ r ∈ q :: F, r.wakes = some i := by
      rintro ⟨r, hr, hri⟩
      exact ⟨r, mem_cons_of_mem q hr, hri⟩
    rcases h i w hi hst with hw | hw
    · rcases hstill i w hi hst hw with hw | hw | hw
      · exact .inl hw
      · exact .inr ⟨q, mem_cons_self, hw⟩
      · exact .inr (hflight hw)
    · exact .inr (hflight hw)
  intro i w hi hst
  cases hd.decision with
  | sleep haction hmaf ha henters hfor =>
    rename_i a k st
    have ha' := ho.block_of_sleep hidem ha hfor
    have hput := ho.puts_of_enters hpast hhas ha' henters
    rw [hput.entry] at hi
    split at hi
    · cases hi
      change st = _ at hst
      subst hst
      rw [← ha']
      exact .inl hfor.1
    · exact hold i w hi hst
  | activate haction hmaf henters =>
    have hput := ho.puts_of_enters hpast hhas rfl henters
    rw [hput.entry] at hi
    split at hi
    · cases hi
      cases hst
    · exact hold i w hi hst
  | redundant haction hmaf hW =>
    rw [hW] at hi
    exact hold i w hi hst
  | pick haction hmaf hj hjst ha hW =>
    rw [hW] at hi
    exact hold i w hi hst
  | finish haction hmaf hj hjst ha hW =>
    rw [hW] at hi
    exact hold i w hi hst
  | pass haction _ hW =>
    rw [hW] at hi
    exact hold i w hi hst

end Reasoned

end CMPCache

end Flexus
