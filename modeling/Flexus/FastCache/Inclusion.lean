import Flexus.FastCache.StackRequests

/-!
# Inclusion, and what snoops report

The shared level keeps the contract that the caches of a stack pass up: it lets itself be
asked anything, and what it does to the stack meanwhile is snoops. So the order of the
states holds between the caches of every stack, after any run and whenever a snoop
arrives, and no request and no snoop ever meets an entry of the tables that is poisoned or
missing (`Flexus.FastCache.Stack.step_ok`). For two first-level caches over a second-level
one this is inclusion (`Flexus.FastCache.Stack.inclusion`).

A snoop is meant to find out whether the stack held the block dirty. It does, with one
exception: a return request that finds the block exclusive goes on to the caches above,
and what they answer is thrown away (`Flexus.FastCache.Stack.snoop_reports_dirty_iff`).
-/

namespace Flexus

namespace FastCache

open MemoryMessageType

variable {k : ℕ} {sh : Shape}

/-- **A dirty block that a return request overlooks**: the lowest cache holds the block
exclusive, and a cache above holds it modified. -/
def Overlooks (q : SnoopKind) (sh : Shape) (st : Contents k sh) (b : ℕ) : Prop :=
  q = .returnReq ∧ lowest sh st b = .exclusive ∧ HeldModified sh st b

/-- A modified block is modified or exclusive in the lowest cache. -/
theorem Under.lowest_of_heldModified {sd : Side} {x : CoherenceState} {st : Contents k sh} {b : ℕ}
    (h : Under sd sh x st b) (hm : HeldModified sh st b) :
    lowest sh st b = .modified ∨ lowest sh st b = .exclusive := by
  cases sh with
  | nothing => cases hm
  | cache l i d =>
    rcases hm with hm | hm
    · exact .inl hm
    · right
      by_contra hne
      exact h.2.2.not_heldModified hne hm

/-- **When a reply tells the truth.** -/
theorem Replies.truthful_iff {sd : Side} {x : CoherenceState} {q : SnoopKind} {st : Contents k sh}
    {b : ℕ} {reply : MemoryMessageType} (h : Replies q sh st b reply) (hu : Under sd sh x st b) :
    (reply = q.dirtyReply ↔ HeldModified sh st b) ↔ ¬ Overlooks q sh st b := by
  rw [h.dirty]
  constructor
  · rintro hiff ⟨rfl, hex, hm⟩
    rcases hiff.mpr hm with hl | ⟨hq, -⟩
    · rw [hex] at hl
      cases hl
    · exact hq rfl
  · intro hov
    constructor
    · rintro (hl | ⟨-, hm⟩)
      · exact heldModified_of_lowest hl
      · exact hm
    · intro hm
      rcases hu.lowest_of_heldModified hm with hl | hl
      · exact .inl hl
      · exact .inr ⟨fun hq => hov ⟨hq, hl, hm⟩, hm⟩

namespace Stack

/-! ### The shared level -/

/-- What is known about a snoop that has been answered. -/
structure Recorded (e : Snooped k sh) : Prop where
  under : ∀ b, Under .data sh .exclusive e.contents b
  replies : Replies e.kind sh e.contents (blockOf k e.address) e.reply

/-- A stack over the shared level, which holds everything for writing. -/
def site (k : ℕ) (sh : Shape) : Site k sh (Stack k sh) where
  side := .data
  get := contents
  set s c := { s with contents := c }
  floor _ _ := .exclusive
  Rest s := ∀ e ∈ s.snooped, Recorded e
  get_set _ _ := rfl
  set_set _ _ _ := rfl
  floor_set _ _ := rfl
  rest_set h := h

/-- **A snoop of the shared level.** -/
theorem snoopFromBelow_spec {s : Stack k sh} (h : (site k sh).Inv s) (q : SnoopKind) (a : ℕ) :
    ∃ s', s.snoopFromBelow q a = .ok s' ∧ (site k sh).Inv s' ∧
      Lowered sh s.contents s'.contents := by
  obtain ⟨c, t, hs, hp, hrep⟩ := snoop_spec (h.under (blockOf k a)) q
  refine ⟨{ s with contents := c, snooped := s.snooped ++ [⟨s.contents, q, a, t⟩] }, ?_, ⟨?_, ?_⟩,
    lowered_of_passedBy hp⟩
  · rw [snoopFromBelow]
    show (snoop sh s.contents ⟨q.type, a⟩ >>= _) = _
    rw [show snoop sh s.contents ⟨q.type, a⟩ = _ from hs]
    rfl
  · intro e he
    rcases List.mem_append.mp he with he | he
    · exact h.rest e he
    · rw [List.mem_singleton.mp he]
      exact ⟨h.under, hrep⟩
  · intro b
    exact (Under.passedBy h.under hp b).mono fun y hy => covers_of_mesi hy.mesi

theorem snoopsFromBelow_spec (qs : List (SnoopKind × ℕ)) {s : Stack k sh}
    (h : (site k sh).Inv s) : ∃ s', s.snoopsFromBelow qs = .ok s' ∧ (site k sh).Inv s' ∧
      Lowered sh s.contents s'.contents := by
  induction qs generalizing s with
  | nil => exact ⟨s, rfl, h, .refl _⟩
  | cons q qs ih =>
    obtain ⟨s₁, hs₁, hinv₁, hlow₁⟩ := snoopFromBelow_spec h q.1 q.2
    obtain ⟨s₂, hs₂, hinv₂, hlow₂⟩ := ih hinv₁
    refine ⟨s₂, ?_, hinv₂, hlow₁.trans hlow₂⟩
    rw [snoopsFromBelow, hs₁]
    exact hs₂

theorem below_spec {s : Stack k sh} (h : (site k sh).Inv s) (m : MemoryMessage) :
    ∃ s' f, below s m = .ok (s', Fill.type f) ∧ (site k sh).Inv s' ∧
      Lowered sh s.contents s'.contents := by
  rw [below]
  split
  · exact ⟨s, .valid, rfl, h, .refl _⟩
  · rename_i a rest _
    have h' : (site k sh).Inv { s with script := rest } := ⟨h.rest, h.under⟩
    obtain ⟨s', hs', hinv, hlow⟩ := snoopsFromBelow_spec a.snoops h'
    refine ⟨s', a.reply, ?_, hinv, hlow⟩
    rw [hs']
    rfl

theorem granted_fill (t : MemoryMessageType) (f : Fill) : Granted t f.type .exclusive := by
  refine ⟨fun _ => ⟨?_, nofun, fun _ => rfl⟩, fun _ => rfl, fun _ => ⟨?_, nofun⟩⟩
  · cases f with
    | valid => exact .inl rfl
    | writable => exact .inr (.inl rfl)
    | dirty => exact .inr (.inr rfl)
  · cases f <;> decide

/-- **The shared level keeps the contract.** -/
theorem serves_below : Serves (site k sh) below where
  request s t a h _ := by
    obtain ⟨s', f, hs', hinv, hlow⟩ := below_spec h ⟨t, a⟩
    exact ⟨s', f.type, hs', hinv, hlow, granted_fill t f⟩
  evict s t v h _ _ := by
    obtain ⟨s', f, hs', hinv, hlow⟩ := below_spec h ⟨t, v⟩
    exact ⟨s', f.type, hs', hinv.rest, hinv.under, fun _ _ => rfl, hlow⟩

/-! ### Every run -/

theorem under_empty (sd : Side) (sh : Shape) (x : CoherenceState) (b : ℕ) :
    Under sd sh x (Contents.empty sh : Contents k sh) b := by
  induction sh generalizing sd x with
  | nothing => trivial
  | cache l i d ihi ihd =>
    refine ⟨?_, ihi _ _, ihd _ _⟩
    show Covers sd x ((StdCache.empty _).stateOf b)
    rw [StdCache.stateOf_empty]
    exact covers_invalid

/-- **Every event is taken**, and keeps the order of the states. -/
theorem step_ok {s : Stack k sh} (h : (site k sh).Inv s) (ev : Event) :
    ∃ s', step s ev = .ok s' ∧ (site k sh).Inv s' := by
  cases ev with
  | data q a script =>
    have h' : (site k sh).Inv { s with script := script } := ⟨h.rest, h.under⟩
    obtain ⟨s', reply, hs', hinv⟩ := request_data serves_below rfl h' q a
    refine ⟨s', ?_, hinv⟩
    show (requestFromAbove sh.spine { s with script := script } ⟨q.type, a⟩ >>= _) = _
    rw [show requestFromAbove sh.spine { s with script := script } ⟨q.type, a⟩ = _ from hs']
    rfl
  | fetch path a script =>
    have h' : (site k sh).Inv { s with script := script } := ⟨h.rest, h.under⟩
    obtain ⟨s', reply, hs', hinv⟩ := request_fetch serves_below path h' a
    refine ⟨s', ?_, hinv⟩
    show (requestFromAbove path { s with script := script } ⟨fetchReq, a⟩ >>= _) = _
    rw [show requestFromAbove path { s with script := script } ⟨fetchReq, a⟩ = _ from hs']
    rfl
  | snoop q a =>
    obtain ⟨s', hs', hinv, -⟩ := snoopFromBelow_spec h q a
    exact ⟨s', hs', hinv⟩

theorem inv_of_reachable {s : Stack k sh} (h : (machine k sh).Reachable s) :
    (site k sh).Inv s := by
  refine h.invariant ?_ fun s ev s' hs _ hstep => ?_
  · refine ⟨fun e he => ?_, fun b => under_empty _ _ _ b⟩
    cases he
  · obtain ⟨t, ht, hinv⟩ := step_ok hs ev
    have heq : t = s' := Except.ok.inj (ht.symm.trans hstep)
    rwa [← heq]

/-! ### Two first-level caches over a second-level cache -/

/-- The states in which a block may be written. -/
def IsWritable (x : CoherenceState) : Prop := x = .modified ∨ x = .exclusive

/-- An instruction cache and a data cache over a second-level cache. -/
def twoLevels (l2 l1i l1d : Level) : Shape :=
  .cache l2 (.cache l1i .nothing .nothing) (.cache l1d .nothing .nothing)

section TwoLevels

variable {l2 l1i l1d : Level}

/-- The state in which the second-level cache holds a block. -/
def stateL2 (s : Stack k (twoLevels l2 l1i l1d)) : ℕ → CoherenceState :=
  (Contents.cache s.contents).stateOf

/-- The state in which the instruction cache holds a block. -/
def stateL1I (s : Stack k (twoLevels l2 l1i l1d)) : ℕ → CoherenceState :=
  (Contents.cache (Contents.instr s.contents)).stateOf

/-- The state in which the data cache holds a block. -/
def stateL1D (s : Stack k (twoLevels l2 l1i l1d)) : ℕ → CoherenceState :=
  (Contents.cache (Contents.data s.contents)).stateOf

end TwoLevels

/-- **Inclusion of the private hierarchy**: after any run, what is valid in a first-level
cache is valid in the second-level cache, what is writable there is writable here, and no
event meets an entry that is poisoned. -/
theorem inclusion {l2 l1i l1d : Level} {s : Stack k (twoLevels l2 l1i l1d)}
    (h : (machine k (twoLevels l2 l1i l1d)).Reachable s) :
    (∀ b, stateL1I s b ≠ .invalid ∨ stateL1D s b ≠ .invalid → stateL2 s b ≠ .invalid) ∧
      (∀ b, IsWritable (stateL1I s b) ∨ IsWritable (stateL1D s b) → IsWritable (stateL2 s b)) ∧
      ∀ ev, ∃ s', step s ev = .ok s' := by
  have hinv := inv_of_reachable h
  refine ⟨?_, ?_, fun ev => ?_⟩
  · rintro b (hv | hv)
    · exact (hinv.under b).2.1.1.valid hv
    · exact (hinv.under b).2.2.1.valid hv
  · rintro b (hw | hw)
    · exact .inr ((hinv.under b).2.1.1.writable hw).2
    · exact .inr ((hinv.under b).2.2.1.writable hw).2
  · obtain ⟨s', hs', -⟩ := step_ok hinv ev
    exact ⟨s', hs'⟩

/-- A small cache. -/
def smallLevel : Level := ⟨0, 1, Nat.one_pos, ⟨false, true, false⟩⟩

/-- A store, and a load that evicts the block; the block is downgraded before that. -/
def storeThenLoad : List Event :=
  [.data .store 0 [], .data .load 64 [⟨[(.downgrade, 0)], .writable⟩]]

theorem inclusion_storeThenLoad : ∃ s : Stack 6 (twoLevels smallLevel smallLevel smallLevel),
    (machine 6 (twoLevels smallLevel smallLevel smallLevel)).run storeThenLoad = .ok s ∧
      stateL1D s 64 = .exclusive ∧ IsWritable (stateL2 s 64) := by
  have hends : (machine 6 (twoLevels smallLevel smallLevel smallLevel)).endsIn
      (fun s => stateL1D s 64 = .exclusive) storeThenLoad = true := by decide +kernel
  obtain ⟨s, hs, hex⟩ := Lib.Machine.exists_of_endsIn hends
  have hex : stateL1D s 64 = .exclusive := of_decide_eq_true hex
  exact ⟨s, hs, hex, (inclusion (Lib.Machine.reachable_of_run hs)).2.1 64 (.inr (.inr hex))⟩

/-! ### What snoops report -/

/-- **A snoop reports that the block was dirty exactly when a data-side cache held it
modified**, unless it is a return request that overlooks it: for every snoop that was sent
in a run, also in the middle of a request, and for every snoop that may come next. -/
theorem snoop_reports_dirty_iff {s : Stack k sh} (h : (machine k sh).Reachable s) :
    (∀ e ∈ s.snooped,
      (e.reply = e.kind.dirtyReply ↔ HeldModified sh e.contents (blockOf k e.address)) ↔
        ¬ Overlooks e.kind sh e.contents (blockOf k e.address)) ∧
      ∀ (q : SnoopKind) (a : ℕ), ∃ c reply, snoop sh s.contents ⟨q.type, a⟩ = .ok (c, reply) ∧
        ((reply = q.dirtyReply ↔ HeldModified sh s.contents (blockOf k a)) ↔
          ¬ Overlooks q sh s.contents (blockOf k a)) := by
  have hinv := inv_of_reachable h
  refine ⟨fun e he => ?_, fun q a => ?_⟩
  · obtain ⟨hunder, hrep⟩ := hinv.rest e he
    exact hrep.truthful_iff (hunder _)
  · obtain ⟨c, reply, hs, -, hrep⟩ := snoop_spec (hinv.under (blockOf k a)) q
    exact ⟨c, reply, hs, hrep.truthful_iff (hinv.under _)⟩

/-- After a store, an invalidation reports the dirty block. -/
theorem snoop_reports_store : ∃ s : Stack 6 (twoLevels smallLevel smallLevel smallLevel),
    (machine 6 (twoLevels smallLevel smallLevel smallLevel)).Reachable s ∧
      HeldModified _ s.contents 0 ∧
      ∃ c, snoop _ s.contents ⟨invalidate, 0⟩ = .ok (c, invUpdateAck) := by
  have hends : (machine 6 (twoLevels smallLevel smallLevel smallLevel)).endsIn
      (fun s => stateL1D s 0 = .modified) [.data .store 0 []] = true := by decide +kernel
  obtain ⟨s, hs, hm⟩ := Lib.Machine.exists_of_endsIn hends
  have hheld : HeldModified _ s.contents 0 := .inr (.inl (of_decide_eq_true hm))
  have hreach := Lib.Machine.reachable_of_run hs
  obtain ⟨c, reply, hsnoop, hiff⟩ := (snoop_reports_dirty_iff hreach).2 .invalidate 0
  have hreply : reply = invUpdateAck := (hiff.mpr fun ho => nomatch ho.1).mpr hheld
  rw [hreply] at hsnoop
  exact ⟨s, hreach, hheld, c, hsnoop⟩

/-- **A return request overlooks a store**: the second-level cache holds the block
exclusive, asks the data cache, which answers that the block was dirty, and replies that
it was clean. -/
theorem returnReq_overlooks_store : ¬ ∀ (k : ℕ) (sh : Shape) (s : Stack k sh),
    (machine k sh).Reachable s → ∀ (q : SnoopKind) (a : ℕ), ∃ c reply,
      snoop sh s.contents ⟨q.type, a⟩ = .ok (c, reply) ∧
        (reply = q.dirtyReply ↔ HeldModified sh s.contents (blockOf k a)) := by
  intro h
  have hends : (machine 6 (twoLevels smallLevel smallLevel smallLevel)).endsIn
      (fun s => stateL1D s 0 = .modified ∧
        (snoop _ s.contents ⟨returnReq, 0⟩).toOption.map Prod.snd = some returnReply)
      [.data .store 0 []] = true := by decide +kernel
  obtain ⟨s, hs, htest⟩ := Lib.Machine.exists_of_endsIn hends
  obtain ⟨hm, hclean⟩ := of_decide_eq_true htest
  obtain ⟨c, reply, hsnoop, hiff⟩ := h 6 _ s (Lib.Machine.reachable_of_run hs) .returnReq 0
  have hheld : HeldModified _ s.contents 0 := .inr (.inl hm)
  have hreply : reply = returnReply := by
    rw [show snoop _ s.contents ⟨returnReq, 0⟩ = _ from hsnoop] at hclean
    exact Option.some.inj hclean
  have hdirty := hiff.mpr hheld
  rw [hreply] at hdirty
  cases hdirty

end Stack

end FastCache

end Flexus
