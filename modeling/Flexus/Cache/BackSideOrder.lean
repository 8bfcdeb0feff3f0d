import Flexus.Cache.BackSide
import Flexus.Lib.Outcome
import Mathlib.Data.List.Basic

/-!
# What leaves the back side of a cache

A message that the controller has put into one of the queues of the back side leaves
once, on the channel of its queue and in the order of its queue; and no request or
prefetch overtakes a snoop or a reply that was enqueued before it
(`Flexus.Cache.BackSide.Faithful`). Both hold for every call of `busCycle` with a bus.
Without a bus they hold as long as no reply is there to be sent: the loop for the replies
takes its messages from the queue of the snoops
(`Flexus.Cache.BackSide.SendsNoReply`), and the last section shows what comes of it.

The order rests on the times of the heads. A head that is younger than another one was
enqueued later, and everything behind it later still
(`Flexus.Cache.BackSide.Ahead`); once the bus has been given to a request, whatever is
enqueued comes after it.
-/

namespace Flexus

open Function List

namespace Cache

/-- The channels that have to wait for what was enqueued before on the others. -/
def Channel.waits : Channel → Bool
  | request | prefetch => true
  | snoop | reply => false

/-- The messages of a channel among those of all, by their serial numbers. -/
def serials (c : Channel) (l : List (Channel × Entry)) : List ℕ :=
  (l.filter fun x => x.1 == c).map fun x => x.2.serial

theorem serials_append {c : Channel} {l l' : List (Channel × Entry)} :
    serials c (l ++ l') = serials c l ++ serials c l' := by
  rw [serials, filter_append, map_append, serials, serials]

theorem serials_singleton {c d : Channel} {e : Entry} :
    serials c [(d, e)] = if d = c then [e.serial] else [] := by
  by_cases h : d = c
  · simp [serials, h]
  · simp [serials, h]

theorem mem_serials {c : Channel} {l : List (Channel × Entry)} {n : ℕ} :
    n ∈ serials c l ↔ ∃ e, (c, e) ∈ l ∧ e.serial = n := by
  simp [serials]

namespace BackSide

variable {cfg : BusConfig} {env : Surroundings} {s s' : BackSide} {c d : Channel} {e f : Entry}
  {rest : List Entry}

/-- **What leaves the back side is what has been enqueued.** -/
structure Faithful (s : BackSide) : Prop where
  /-- What has left on a channel and what is in its queue is what has been enqueued there,
  in this order. -/
  exact : ∀ c, serials c s.sent ++ (s.queue c).map Entry.serial = serials c s.enqueued
  /-- What has left is what was enqueued under its number, but for the index of the
  component. -/
  same : ∀ x ∈ s.sent, ∃ m, (x.1, { x.2 with message := m }) ∈ s.enqueued ∧
    m.type = x.2.message.type ∧ m.reqSize = x.2.message.reqSize
  /-- When a request or a prefetch has left, the snoops and replies that were enqueued
  before it had left before it. -/
  inOrder : ∀ pre x post, s.sent = pre ++ x :: post → x.1.waits = true →
    ∀ y ∈ s.enqueued, y.1.waits = false → y.2.serial < x.2.serial → y.2.serial ∈ serials y.1 pre

/-- A call of `busCycle` that comes to its end, and dequeues nothing from an empty queue. -/
def Returns (cfg : BusConfig) (s : BackSide) (env : Surroundings) : Prop :=
  ∃ s', s.busCycle cfg env = .ok s'

/-- **Without a bus there is no reply to be sent**: its queue is empty, or its channel is
not available during the call, whatever is sent in it. -/
def SendsNoReply (cfg : BusConfig) (s : BackSide) : Event → Prop
  | .busCycle env => cfg.noBus = true →
    s.queue .reply = [] ∨ ∀ l, env.available .reply (s.sent ++ l) = false
  | _ => True

/-- **The bus has something to send**, and nothing to bring from below. -/
def Laden (s : BackSide) : Prop :=
  s.theBackSideInReplyBuffer = none ∧ s.theBackSideInRequestBuffer = none ∧
    (∃ c, s.queue c ≠ []) ∧
    (s.theBusDirection = .idle ∨ ∃ c, s.theBusDirection = .toBackSideOut c)

/-- **A call does its work.** Without a bus the snoops leave, and everything else if there are
none. With a bus a message leaves, or the bus is given to one or goes on with it. -/
structure Works (cfg : BusConfig) (s s' : BackSide) : Prop where
  noBus : cfg.noBus = true → s'.queue .snoop = [] ∧ (s.queue .snoop = [] → ∀ c, s'.queue c = [])
  bus : cfg.noBus = false → s.Laden → s.sent.length < s'.sent.length ∨
    (∃ c, s'.theBusDirection = .toBackSideOut c) ∧
      (s.theBusDirection = .idle ∨ s'.theBusTxCountdown < s.theBusTxCountdown)

/-! ### The order of the queues -/

/-- The head of a queue was enqueued before everything that does not have to wait. -/
def Ahead (s : BackSide) (c : Channel) : Prop :=
  ∀ e, (s.queue c).head? = some e → ∀ d, d.waits = false → ∀ f ∈ s.queue d, e.serial < f.serial

/-- **The invariant of the queues** and of what has been sent. -/
structure Core (s : BackSide) : Prop where
  exact : ∀ c, serials c s.sent ++ (s.queue c).map Entry.serial = serials c s.enqueued
  same : ∀ x ∈ s.sent, ∃ m, (x.1, { x.2 with message := m }) ∈ s.enqueued ∧
    m.type = x.2.message.type ∧ m.reqSize = x.2.message.reqSize
  queued : ∀ c, ∀ e ∈ s.queue c, (c, e) ∈ s.enqueued
  sorted : ∀ c, (s.queue c).Pairwise fun e f => e.serial < f.serial
  past : ∀ x ∈ s.enqueued, x.2.serial < s.enqueued.length ∧ x.2.time ≤ s.cycleCount
  /-- What was enqueued before has no later time. -/
  times : ∀ x ∈ s.enqueued, ∀ y ∈ s.enqueued, x.2.serial ≤ y.2.serial → x.2.time ≤ y.2.time
  sent : s.sent.Pairwise fun x y => x.1.waits = true → y.1.waits = false →
    x.2.serial < y.2.serial
  behind : ∀ x ∈ s.sent, x.1.waits = true → ∀ d, d.waits = false → ∀ f ∈ s.queue d,
    x.2.serial < f.serial

theorem core_init : Core init where
  exact := by intro c; rfl
  same := by intro x hx; cases hx
  queued := by intro c e he; cases he
  sorted := by intro c; exact List.Pairwise.nil
  past := by intro x hx; cases hx
  times := by intro x hx; cases hx
  sent := List.Pairwise.nil
  behind := by intro x hx; cases hx

/-- The invariant is about the queues and the messages alone. -/
theorem Core.congr (h : Core s) (hq : s'.queue = s.queue) (he : s'.enqueued = s.enqueued)
    (hs : s'.sent = s.sent) (hc : s.cycleCount ≤ s'.cycleCount) : Core s' := by
  refine ⟨?_, ?_, ?_, ?_, fun x hx => ?_, ?_, ?_, ?_⟩
  · rw [hq, he, hs]
    exact h.exact
  · rw [he, hs]
    exact h.same
  · rw [hq, he]
    exact h.queued
  · rw [hq]
    exact h.sorted
  · rw [he] at hx ⊢
    exact ⟨(h.past x hx).1, Nat.le_trans (h.past x hx).2 hc⟩
  · rw [he]
    exact h.times
  · rw [hs]
    exact h.sent
  · rw [hq, hs]
    exact h.behind

theorem Core.serial_lt (h : Core s) (he : (c, e) ∈ s.enqueued) (hf : (d, f) ∈ s.enqueued)
    (ht : e.time < f.time) : e.serial < f.serial := by
  by_contra hle
  have hfe : f.serial ≤ e.serial := by omega
  exact absurd (h.times (d, f) hf (c, e) he hfe) (Nat.not_le.mpr ht)

theorem Core.lt_of_younger (h : Core s) (hy : s.younger d c = true)
    (he : (s.queue c).head? = some e) : ∀ f ∈ s.queue d, e.serial < f.serial := by
  obtain ⟨rest, hc⟩ := head?_eq_some_iff.mp he
  intro f hf
  cases hd : s.queue d with
  | nil =>
    rw [hd] at hf
    cases hf
  | cons g q =>
    rw [younger, hd, hc] at hy
    have hg : (d, g) ∈ s.enqueued := h.queued d g (by rw [hd]; exact mem_cons_self)
    have he' : (c, e) ∈ s.enqueued := h.queued c e (by rw [hc]; exact mem_cons_self)
    have hlt := h.serial_lt he' hg (of_decide_eq_true hy)
    rw [hd] at hf
    rcases mem_cons.mp hf with rfl | hf
    · exact hlt
    · have hsort := h.sorted d
      rw [hd] at hsort
      exact Nat.lt_trans hlt ((pairwise_cons.mp hsort).1 f hf)

/-- **A request or a prefetch is served only when it is ahead.** -/
theorem Core.ahead_of_serves (h : Core s) (hs : s.serves env c = true) (hc : c.waits = true) :
    s.Ahead c := by
  have hboth : s.younger .snoop c = true ∧ s.younger .reply c = true := by
    rw [serves.eq_def, Bool.and_eq_true] at hs
    cases c with
    | request => exact Bool.and_eq_true_iff.mp hs.2
    | prefetch => exact Bool.and_eq_true_iff.mp hs.2
    | snoop => cases hc
    | reply => cases hc
  intro e he d hd
  cases d with
  | request => cases hd
  | prefetch => cases hd
  | snoop => exact h.lt_of_younger hboth.1 he
  | reply => exact h.lt_of_younger hboth.2 he

theorem nonempty_of_serves (hs : s.serves env c = true) : ∃ e rest, s.queue c = e :: rest := by
  rw [serves.eq_def, Bool.and_eq_true, ready, Bool.and_eq_true] at hs
  cases hq : s.queue c with
  | nil =>
    rw [hq] at hs
    cases hs.1.1
  | cons e rest => exact ⟨e, rest, rfl⟩

/-- A message is served when nothing else is there that could go first. -/
theorem serves_of_alone (hav : ∀ l, env.available c l = true) (hq : s.queue c ≠ [])
    (hsnoop : c.waits = true → s.queue .snoop = []) (hreply : c ≠ .reply → s.queue .reply = []) :
    s.serves env c = true := by
  rw [serves.eq_def, ready, hav, isEmpty_eq_false_iff.mpr hq]
  cases c with
  | request => simp [younger, hsnoop rfl, hreply nofun]
  | prefetch => simp [younger, hsnoop rfl, hreply nofun]
  | snoop => simp [younger, hreply nofun]
  | reply => rfl

/-! ### Enqueueing and sending -/

/-- What has been sent was enqueued before anything that is enqueued from now on. -/
theorem Core.sent_lt (h : Core s) {x : Channel × Entry} (hx : x ∈ s.sent) :
    x.2.serial < s.enqueued.length := by
  obtain ⟨m, hm, -⟩ := h.same x hx
  exact (h.past _ hm).1

theorem Core.queued_lt (h : Core s) (he : e ∈ s.queue c) : e.serial < s.enqueued.length :=
  (h.past _ (h.queued c e he)).1

theorem queue_enqueue (s : BackSide) (c : Channel) (m : BusMessage) (d : Channel) :
    (s.enqueue c m).queue d = s.queue d ++
      if d = c then [⟨s.enqueued.length, s.cycleCount, m⟩] else [] := by
  by_cases hd : d = c
  · rw [hd, if_pos rfl]
    simp [BackSide.enqueue]
  · rw [if_neg hd, append_nil]
    simp [BackSide.enqueue, hd]

theorem mem_queue_enqueue {m : BusMessage} (hf : f ∈ (s.enqueue c m).queue d) :
    f ∈ s.queue d ∨ (d = c ∧ f = ⟨s.enqueued.length, s.cycleCount, m⟩) := by
  rw [queue_enqueue] at hf
  rcases mem_append.mp hf with hf | hf
  · exact .inl hf
  · split at hf
    · rename_i hd
      exact .inr ⟨hd, mem_singleton.mp hf⟩
    · cases hf

/-- **The controller may enqueue** at any time. -/
theorem Core.enqueue (h : Core s) (c : Channel) (m : BusMessage) : Core (s.enqueue c m) := by
  refine ⟨fun d => ?_, fun x hx => ?_, fun d f hf => ?_, fun d => ?_, ?_, ?_, h.sent,
    fun x hx hw d hd f hf => ?_⟩
  · -- its serial is the last one of the channel
    rw [queue_enqueue, map_append, ← append_assoc]
    show _ = serials d (s.enqueued ++ [(c, _)])
    rw [show (s.enqueue c m).sent = s.sent from rfl, h.exact, serials_append, serials_singleton]
    by_cases hd : d = c
    · rw [if_pos hd, if_pos hd.symm]
      rfl
    · rw [if_neg hd, if_neg fun h => hd h.symm]
      rfl
  · obtain ⟨n, hn, htype⟩ := h.same x hx
    exact ⟨n, mem_append_left _ hn, htype⟩
  · rcases mem_queue_enqueue hf with hf | ⟨rfl, rfl⟩
    · exact mem_append_left _ (h.queued d f hf)
    · exact mem_append_right _ (mem_singleton.mpr rfl)
  · -- it is behind all that is in the queue
    rw [queue_enqueue, pairwise_append]
    refine ⟨h.sorted d, ?_, fun x hx y hy => ?_⟩
    · split
      · exact pairwise_singleton _ _
      · exact List.Pairwise.nil
    · split at hy
      · rw [mem_singleton.mp hy]
        exact h.queued_lt hx
      · cases hy
  · -- serials and times are in the past
    intro x hx
    show _ < (s.enqueued ++ [_]).length ∧ _ ≤ s.cycleCount
    rw [length_append, length_singleton]
    rcases mem_append.mp hx with hx | hx
    · exact ⟨Nat.lt_succ_of_lt (h.past x hx).1, (h.past x hx).2⟩
    · rw [mem_singleton.mp hx]
      exact ⟨Nat.lt_succ_self _, Nat.le_refl _⟩
  · intro x hx y hy hle
    rcases mem_append.mp hx with hx | hx
    · rcases mem_append.mp hy with hy | hy
      · exact h.times x hx y hy hle
      · rw [mem_singleton.mp hy]
        exact (h.past x hx).2
    · rw [mem_singleton.mp hx] at hle ⊢
      rcases mem_append.mp hy with hy | hy
      · have := (h.past y hy).1
        dsimp only at hle
        omega
      · obtain rfl := mem_singleton.mp hy
        exact Nat.le_refl _
  · rcases mem_queue_enqueue hf with hf | ⟨-, rfl⟩
    · exact h.behind x hx hw d hd f hf
    · exact h.sent_lt hx

/-- **Sending the head of a queue**, if nothing that goes first was enqueued before it. -/
theorem Core.transmit (h : Core s) (cfg : BusConfig) (hq : s.queue c = e :: rest)
    (ha : c.waits = true → s.Ahead c) : ∃ s', s.transmit cfg c = .ok s' ∧ Core s' ∧
      s'.queue = update s.queue c rest ∧ s'.theBusDirection = s.theBusDirection ∧
      s'.theBusTxCountdown = s.theBusTxCountdown ∧ ∃ x, s'.sent = s.sent ++ [x] := by
  rw [BackSide.transmit, hq]
  refine ⟨_, rfl, ?_, rfl, rfl, rfl, _, rfl⟩
  have hhead : (s.queue c).head? = some e := by rw [hq]; rfl
  have hsort := h.sorted c
  rw [hq, pairwise_cons] at hsort
  have hin : ∀ d, ∀ g ∈ update s.queue c rest d, g ∈ s.queue d := by
    intro d g hg
    by_cases hd : d = c
    · rw [hd, update_self] at hg
      rw [hd, hq]
      exact mem_cons_of_mem _ hg
    · rwa [update_of_ne hd] at hg
  refine ⟨fun d => ?_, fun x hx => ?_, fun d g hg => h.queued d g (hin d g hg), fun d => ?_,
    h.past, h.times, ?_, fun x hx hw d hd g hg => ?_⟩
  · dsimp only
    rw [serials_append, serials_singleton, ← h.exact d]
    by_cases hd : d = c
    · rw [if_pos hd.symm, hd, update_self, hq, append_assoc]
      rfl
    · rw [if_neg fun h => hd h.symm, update_of_ne hd, append_nil]
  · rcases mem_append.mp hx with hx | hx
    · exact h.same x hx
    · -- the index of the component is all that is written
      rw [mem_singleton.mp hx]
      refine ⟨e.message, h.queued c e (by rw [hq]; exact mem_cons_self), ?_⟩
      dsimp only
      split
      · exact ⟨rfl, rfl⟩
      · exact ⟨rfl, rfl⟩
  · dsimp only
    by_cases hd : d = c
    · rw [hd, update_self]
      exact hsort.2
    · rw [update_of_ne hd]
      exact h.sorted d
  · -- what was sent before goes first
    refine pairwise_append.mpr ⟨h.sent, pairwise_singleton _ _, fun x hx y hy hw hd => ?_⟩
    rw [mem_singleton.mp hy] at hd ⊢
    exact h.behind x hx hw c hd e (by rw [hq]; exact mem_cons_self)
  · rcases mem_append.mp hx with hx | hx
    · exact h.behind x hx hw d hd g (hin d g hg)
    · rw [mem_singleton.mp hx] at hw ⊢
      exact ha hw e hhead d hd g (hin d g hg)

/-! ### Without a bus -/

/-- **A loop that empties a queue** comes to its end, and touches no other queue. -/
theorem Core.drain (h : Core s) (cfg : BusConfig) (env : Surroundings) (c : Channel) :
    ∃ s', s.drain cfg env c = .ok s' ∧ Core s' ∧ (∀ d, d ≠ c → s'.queue d = s.queue d) ∧
      (∃ l, s'.sent = s.sent ++ l) ∧ s'.serves env c = false := by
  have hbody : ∀ t : BackSide, (Core t ∧ (∀ d, d ≠ c → t.queue d = s.queue d) ∧
      ∃ l, t.sent = s.sent ++ l) → t.serves env c = true → ∃ u, t.transmit cfg c = .ok u ∧
        (Core u ∧ (∀ d, d ≠ c → u.queue d = s.queue d) ∧ ∃ l, u.sent = s.sent ++ l) ∧
        (u.queue c).length < (t.queue c).length := by
    rintro t ⟨ht, hother, l, hl⟩ hserves
    obtain ⟨e, rest, hq⟩ := nonempty_of_serves hserves
    obtain ⟨u, hu, hcore, hqueue, -, -, x, hx⟩ := ht.transmit cfg hq (ht.ahead_of_serves hserves)
    refine ⟨u, hu, ⟨hcore, fun d hd => ?_, l ++ [x], ?_⟩, ?_⟩
    · rw [hqueue, update_of_ne hd]
      exact hother d hd
    · rw [hx, hl, append_assoc]
    · rw [hqueue, update_self, hq]
      exact Nat.lt_succ_self _
  obtain ⟨s', hs', ⟨hq, hother, hl⟩, hend⟩ := Lib.loop_spec hbody
    ⟨h, fun _ _ => rfl, [], (append_nil _).symm⟩ (Nat.le_refl (s.queue c).length)
  exact ⟨s', hs', hq, hother, hl, hend⟩

/-- **A call without a bus**, when there is no reply to be sent. -/
theorem Core.busCycleNoBus (h : Core s) (cfg : BusConfig)
    (hr : s.queue .reply = [] ∨ ∀ l, env.available .reply (s.sent ++ l) = false) :
    ∃ s', s.busCycleNoBus cfg env = .ok s' ∧ Core s' ∧ ((∀ c l, env.available c l = true) →
      s'.queue .snoop = [] ∧ (s.queue .snoop = [] → ∀ c, s'.queue c = [])) := by
  have h₀ : Core (s.fillInput env) := h.congr rfl rfl rfl (Nat.le_refl _)
  obtain ⟨s₁, hs₁, h₁, ho₁, ⟨l₁, hl₁⟩, he₁⟩ := h₀.drain cfg env .request
  obtain ⟨s₂, hs₂, h₂, ho₂, ⟨l₂, hl₂⟩, he₂⟩ := h₁.drain cfg env .prefetch
  obtain ⟨s₃, hs₃, h₃, ho₃, ⟨l₃, hl₃⟩, he₃⟩ := h₂.drain cfg env .snoop
  -- the first loops leave the queue of the replies alone
  have hreply₁ : s₁.queue .reply = s.queue .reply := ho₁ .reply (by decide)
  have hreply₂ : s₂.queue .reply = s.queue .reply := (ho₂ .reply (by decide)).trans hreply₁
  have hreply : s₃.queue .reply = s.queue .reply := (ho₃ .reply (by decide)).trans hreply₂
  have hsent : s₃.sent = s.sent ++ (l₁ ++ l₂ ++ l₃) := by
    rw [hl₃, hl₂, hl₁, append_assoc, append_assoc, append_assoc]
    rfl
  have hnot : s₃.serves env .reply = false := by
    rw [serves.eq_def, ready, hreply]
    rcases hr with hr | hr
    · rw [hr]
      rfl
    · rw [hsent, hr]
      simp
  refine ⟨s₃, ?_, h₃, fun hav => ?_⟩
  · rw [BackSide.busCycleNoBus, hs₁]
    show (s₁.drain cfg env .prefetch >>= _) = _
    rw [hs₂]
    show (s₂.drain cfg env .snoop >>= _) = _
    rw [hs₃]
    show s₃.drainReply cfg env = _
    rw [drainReply, Lib.loop_of_not]
    exact hnot
  · have hnone : s.queue .reply = [] := hr.resolve_right fun hno => by
      have := hno []
      rw [hav] at this
      cases this
    -- a loop ends with an empty queue unless something else goes first
    have hempty : ∀ (t : BackSide) c, t.serves env c = false → t.queue .reply = [] →
        (c.waits = true → t.queue .snoop = []) → t.queue c = [] := by
      intro t c ht hre hsn
      by_contra hq
      rw [serves_of_alone (hav c) hq hsn fun _ => hre] at ht
      cases ht
    refine ⟨hempty s₃ .snoop he₃ (hreply.trans hnone) nofun, fun hsn c => ?_⟩
    have hsn₁ : s₁.queue .snoop = [] := (ho₁ .snoop (by decide)).trans hsn
    have hsn₂ : s₂.queue .snoop = [] := (ho₂ .snoop (by decide)).trans hsn₁
    have hreq := hempty s₁ .request he₁ (hreply₁.trans hnone) fun _ => hsn₁
    have hpre := hempty s₂ .prefetch he₂ (hreply₂.trans hnone) fun _ => hsn₂
    cases c with
    | request => exact (ho₃ _ (by decide)).trans ((ho₂ _ (by decide)).trans hreq)
    | prefetch => exact (ho₃ _ (by decide)).trans hpre
    | snoop => exact hempty s₃ .snoop he₃ (hreply.trans hnone) nofun
    | reply => exact hreply.trans hnone

/-! ### With a bus -/

/-- **The invariant of a back side with a bus**: a transfer is of a message that is still
there, and ahead. -/
structure Bus (s : BackSide) : Prop where
  core : Core s
  transfer : ∀ c, s.theBusDirection = .toBackSideOut c →
    s.queue c ≠ [] ∧ (c.waits = true → s.Ahead c)
  busy : 0 < s.theBusTxCountdown → s.theBusDirection ≠ .idle

theorem Bus.fastEvict (h : Bus s) (cfg : BusConfig) (env : Surroundings) :
    ∃ s', s.fastEvict cfg env = .ok s' ∧ Bus s' ∧ (s' = s ∨ s.sent.length < s'.sent.length) := by
  rw [BackSide.fastEvict]
  split
  · rename_i hc
    obtain ⟨-, hidle, hready, -⟩ := hc
    rw [ready, Bool.and_eq_true] at hready
    cases hq : s.queue .snoop with
    | nil =>
      rw [hq] at hready
      cases hready.1
    | cons e rest =>
      obtain ⟨u, hu, hcore, -, hdir, hcount, x, hx⟩ := h.core.transmit cfg hq nofun
      refine ⟨u, hu, ⟨hcore, fun c hc => ?_, fun hb => ?_⟩, .inr ?_⟩
      · rw [hdir, hidle] at hc
        cases hc
      · rw [hcount] at hb
        exact absurd hidle (h.busy hb)
      · rw [hx, length_append]
        exact Nat.lt_succ_self _
  · exact ⟨s, rfl, h, .inl rfl⟩

theorem Bus.startOut (h : Bus s) (hs : s.serves env c = true) : Bus (s.startOut cfg env c) := by
  obtain ⟨e, rest, hq⟩ := nonempty_of_serves hs
  have hahead := h.core.ahead_of_serves hs
  rw [BackSide.startOut, hq]
  refine ⟨h.core.congr rfl rfl rfl (Nat.le_refl _), fun d hd => ?_, fun _ => nofun⟩
  cases hd
  refine ⟨?_, hahead⟩
  show s.queue c ≠ []
  rw [hq]
  exact nofun

theorem Bus.arbitrateOut (h : Bus s) : Bus (s.arbitrateOut cfg env) := by
  rw [BackSide.arbitrateOut]
  split
  · exact h.startOut ‹_›
  · split
    · rename_i hp
      exact h.startOut (Bool.and_eq_true_iff.mp hp).2
    · split
      · exact h.startOut ‹_›
      · split
        · exact h.startOut ‹_›
        · exact h

theorem Bus.startIn (h : Bus s) (cfg : BusConfig) (env : Surroundings) {d : Direction}
    (hd : ∀ c, d ≠ .toBackSideOut c) (hi : d ≠ .idle) (m : BusMessage) :
    Bus (s.startIn cfg env d m) :=
  ⟨h.core.congr rfl rfl rfl (Nat.le_refl _), fun c hc => absurd hc (hd c), fun _ => hi⟩

theorem Bus.arbitrateRequest (h : Bus s) : Bus (s.arbitrateRequest cfg env) := by
  rw [BackSide.arbitrateRequest]
  split
  · exact h.arbitrateOut
  · split
    · have hb : Bus { s with theBackSideInRequestBuffer := none } :=
        ⟨h.core.congr rfl rfl rfl (Nat.le_refl _), h.transfer, h.busy⟩
      exact hb.startIn cfg env (d := .toBackSideInRequest) nofun nofun _
    · exact h.arbitrateOut

theorem Bus.arbitrate (h : Bus s) : Bus (s.arbitrate cfg env) := by
  rw [BackSide.arbitrate]
  split
  · exact h.arbitrateRequest
  · split
    · have hb : Bus { s with theBackSideInReplyBuffer := none } :=
        ⟨h.core.congr rfl rfl rfl (Nat.le_refl _), h.transfer, h.busy⟩
      exact hb.startIn cfg env (d := .toBackSideInReply) nofun nofun _
    · exact h.arbitrateRequest

theorem sent_arbitrate (cfg : BusConfig) (env : Surroundings) (s : BackSide) :
    (s.arbitrate cfg env).sent = s.sent := by
  simp only [arbitrate, arbitrateRequest, arbitrateOut, startOut, startIn]
  repeat' split
  all_goals rfl

/-- **An idle bus is given to a message** if there is one, and nothing from below. -/
theorem arbitrate_gives (cfg : BusConfig) (hav : ∀ c l, env.available c l = true)
    (h : s.Laden) : ∃ c, (s.arbitrate cfg env).theBusDirection = .toBackSideOut c := by
  obtain ⟨hreply, hrequest, ⟨c, hc⟩, -⟩ := h
  have hstart : ∀ {c}, s.serves env c = true →
      (s.startOut cfg env c).theBusDirection = .toBackSideOut c := by
    intro c hc
    obtain ⟨e, rest, hq⟩ := nonempty_of_serves hc
    rw [startOut, hq]
  rw [arbitrate, hreply]
  show ∃ c, (s.arbitrateRequest cfg env).theBusDirection = _
  rw [arbitrateRequest, hrequest]
  show ∃ c, (s.arbitrateOut cfg env).theBusDirection = _
  rw [arbitrateOut]
  split
  · exact ⟨_, hstart ‹_›⟩
  · split
    · exact ⟨_, hstart (Bool.and_eq_true_iff.mp ‹_›).2⟩
    · split
      · exact ⟨_, hstart ‹_›⟩
      · split
        · exact ⟨_, hstart ‹_›⟩
        · -- if no queue is served all are empty, replies and snoops first
          rename_i hreq hpre hsn hre
          have hqre : s.queue .reply = [] := by
            by_contra hq
            exact hre (serves_of_alone (hav _) hq nofun fun h => absurd rfl h)
          have hqsn : s.queue .snoop = [] := by
            by_contra hq
            exact hsn (serves_of_alone (hav _) hq nofun fun _ => hqre)
          have hqreq : s.queue .request = [] := by
            by_contra hq
            exact hreq (serves_of_alone (hav _) hq (fun _ => hqsn) fun _ => hqre)
          have hqpre : s.queue .prefetch = [] := by
            by_contra hq
            refine hpre (Bool.and_eq_true_iff.mpr ⟨by rw [hqreq]; rfl, ?_⟩)
            exact serves_of_alone (hav _) hq (fun _ => hqsn) fun _ => hqre
          cases c <;> contradiction

theorem Bus.advanceBus (h : Bus s) (cfg : BusConfig) (env : Surroundings) :
    ∃ s', s.advanceBus cfg env = .ok s' ∧ Bus s' ∧ s'.sent = s.sent ∧
      ((∀ c l, env.available c l = true) → s.Laden →
        (∃ c, s'.theBusDirection = .toBackSideOut c) ∧ (s.theBusDirection = .idle ∨
          s'.theBusTxCountdown = 0 ∨ s'.theBusTxCountdown < s.theBusTxCountdown)) := by
  rw [BackSide.advanceBus]
  split
  · rename_i hb
    rw [if_neg (h.busy hb)]
    exact ⟨_, rfl, ⟨h.core.congr rfl rfl rfl (Nat.le_refl _), h.transfer, fun _ => h.busy hb⟩, rfl,
      fun _ hl => ⟨hl.2.2.2.resolve_left (h.busy hb), .inr (.inr (Nat.sub_lt hb Nat.one_pos))⟩⟩
  · rename_i hb
    split
    · rename_i hidle
      exact ⟨_, rfl, h.arbitrate, sent_arbitrate cfg env s, fun hav hl =>
        ⟨arbitrate_gives cfg hav hl, .inl hidle⟩⟩
    · rename_i hidle
      exact ⟨s, rfl, h, rfl, fun _ hl => ⟨hl.2.2.2.resolve_left hidle, .inr (.inl (by omega))⟩⟩

theorem bus_of_idle (h : Core s) (hd : s.theBusDirection = .idle)
    (hc : s.theBusTxCountdown = 0) : Bus s := by
  refine ⟨h, fun c h => ?_, fun h => ?_⟩
  · rw [hd] at h
    cases h
  · omega

theorem Bus.finishBus (h : Bus s) (cfg : BusConfig) (env : Surroundings) :
    ∃ s', s.finishBus cfg env = .ok s' ∧ Bus s' ∧ s.sent.length ≤ s'.sent.length ∧
      ((∀ c l, env.available c l = true) → (∃ c, s.theBusDirection = .toBackSideOut c) →
        s.sent.length < s'.sent.length ∨ s' = s ∧ 0 < s.theBusTxCountdown) := by
  rw [BackSide.finishBus]
  split
  · rename_i hb
    exact ⟨s, rfl, h, Nat.le_refl _, fun _ _ => .inr ⟨rfl, hb⟩⟩
  · rename_i hb
    have hzero : s.theBusTxCountdown = 0 := by omega
    split
    · rename_i hdir
      exact ⟨s, rfl, h, Nat.le_refl _, fun _ ⟨c, hc⟩ => by cases hdir.symm.trans hc⟩
    · rename_i hdir
      refine ⟨_, rfl, ?_, ?_, fun _ ⟨c, hc⟩ => by cases hdir.symm.trans hc⟩
      · split
        · exact bus_of_idle (h.core.congr rfl rfl rfl (Nat.le_refl _)) rfl hzero
        · exact h
      · split <;> exact Nat.le_refl _
    · rename_i hdir
      refine ⟨_, rfl, ?_, ?_, fun _ ⟨c, hc⟩ => by cases hdir.symm.trans hc⟩
      · split
        · exact bus_of_idle (h.core.congr rfl rfl rfl (Nat.le_refl _)) rfl hzero
        · exact h
      · split <;> exact Nat.le_refl _
    · rename_i c hdir
      -- the message the bus was given to is sent, if its channel can take it
      obtain ⟨hne, hahead⟩ := h.transfer c hdir
      split
      · obtain ⟨e, rest, hq⟩ := exists_cons_of_ne_nil hne
        obtain ⟨u, hu, hcore, -, -, hcount, x, hx⟩ := h.core.transmit cfg hq hahead
        have hlt : s.sent.length < u.sent.length := by
          rw [hx, length_append]
          exact Nat.lt_succ_self _
        refine ⟨{ u with theBusDirection := .idle }, ?_, ?_, Nat.le_of_lt hlt, fun _ _ => .inl hlt⟩
        · rw [hu]
          rfl
        · exact bus_of_idle (hcore.congr rfl rfl rfl (Nat.le_refl _)) rfl (hcount.trans hzero)
      · rename_i hno
        exact ⟨_, rfl, bus_of_idle (h.core.congr rfl rfl rfl (Nat.le_refl _)) rfl hzero,
          Nat.le_refl _, fun hav _ => absurd (hav c s.sent) hno⟩

theorem Bus.enqueue (h : Bus s) (c : Channel) (m : BusMessage) : Bus (s.enqueue c m) := by
  refine ⟨h.core.enqueue c m, fun d hd => ?_, h.busy⟩
  obtain ⟨hne, hahead⟩ := h.transfer d hd
  obtain ⟨e, rest, hq⟩ := exists_cons_of_ne_nil hne
  have hhead : ((s.enqueue c m).queue d).head? = some e := by rw [queue_enqueue, hq]; rfl
  refine ⟨fun hnil => ?_, fun hw g hg k hk f hf => ?_⟩
  · rw [hnil] at hhead
    cases hhead
  · -- the head is the one the bus was given to
    rw [hhead] at hg
    cases hg
    rcases mem_queue_enqueue hf with hf | ⟨-, rfl⟩
    · exact hahead hw e (by rw [hq]; rfl) k hk f hf
    · exact h.core.queued_lt (c := d) (by rw [hq]; exact mem_cons_self)

/-! ### Every run -/

/-- **The invariant**, with or without a bus. -/
structure Sound (cfg : BusConfig) (s : BackSide) : Prop where
  core : Core s
  bus : cfg.noBus = false → Bus s

theorem sound_init (cfg : BusConfig) : Sound cfg init :=
  ⟨core_init, fun _ => bus_of_idle core_init rfl rfl⟩

/-- What changes neither the queues nor the bus keeps the invariant. -/
theorem Sound.congr (h : Sound cfg s) (hq : s'.queue = s.queue) (he : s'.enqueued = s.enqueued)
    (hs : s'.sent = s.sent) (hc : s.cycleCount ≤ s'.cycleCount)
    (hd : s'.theBusDirection = s.theBusDirection)
    (ht : s'.theBusTxCountdown = s.theBusTxCountdown) : Sound cfg s' := by
  refine ⟨h.core.congr hq he hs hc, fun hbus => ⟨h.core.congr hq he hs hc, ?_, ?_⟩⟩
  · intro c hdir
    rw [hd] at hdir
    rw [Ahead, hq]
    exact (h.bus hbus).transfer c hdir
  · rw [ht, hd]
    exact (h.bus hbus).busy

theorem Sound.enqueue (h : Sound cfg s) (c : Channel) (m : BusMessage) :
    Sound cfg (s.enqueue c m) :=
  ⟨h.core.enqueue c m, fun hbus => (h.bus hbus).enqueue c m⟩

/-- **A call of `busCycle`** returns, keeps the invariant and does its work, unless there is no
bus and a reply to be sent. -/
theorem Sound.busCycle (h : Sound cfg s) (hg : SendsNoReply cfg s (.busCycle env)) :
    ∃ s', s.busCycle cfg env = .ok s' ∧ Sound cfg s' ∧
      ((∀ c l, env.available c l = true) → Works cfg s s') := by
  rw [BackSide.busCycle]
  cases hbus : cfg.noBus with
  | true =>
    obtain ⟨s', hs', hcore, hwork⟩ := h.core.busCycleNoBus cfg (hg hbus)
    have hnot : cfg.noBus ≠ false := by rw [hbus]; decide
    exact ⟨s', hs', ⟨hcore, fun h => absurd h hnot⟩,
      fun hav => ⟨fun _ => hwork hav, fun h => absurd h hnot⟩⟩
  | false =>
    obtain ⟨s₁, hs₁, h₁, hsent₁⟩ := (h.bus hbus).fastEvict cfg env
    obtain ⟨s₂, hs₂, h₂, hsent₂, hgo⟩ := h₁.advanceBus cfg env
    obtain ⟨s₃, hs₃, h₃, hle, hfinish⟩ := h₂.finishBus cfg env
    refine ⟨s₃, ?_, ⟨h₃.core, fun _ => h₃⟩, fun hav => ⟨fun h => ?_,
      fun _ hl => ?_⟩⟩
    · rw [if_neg Bool.false_ne_true, hs₁]
      show (s₁.advanceBus cfg env >>= _) = _
      rw [hs₂]
      exact hs₃
    · rw [hbus] at h
      cases h
    · -- either a clean eviction has been sent, or the bus is given away and counts down
      rw [hsent₂] at hle hfinish
      rcases hsent₁ with rfl | hlt
      · obtain ⟨hout, hhow⟩ := hgo hav hl
        rcases hfinish hav hout with hlt | ⟨rfl, hpos⟩
        · exact .inl hlt
        · exact .inr ⟨hout, hhow.imp_right fun h => h.resolve_left (Nat.ne_of_gt hpos)⟩
      · exact .inl (Nat.lt_of_lt_of_le hlt hle)

theorem Sound.pushReply (h : Sound cfg s) {m : BusMessage} (hs : s.pushReply cfg m = .ok s') :
    Sound cfg s' := by
  rw [BackSide.pushReply] at hs
  split at hs
  · cases hs
    exact h.congr rfl rfl rfl (Nat.le_refl _) rfl rfl
  · split at hs
    · cases hs
    · cases hs
      exact h.congr rfl rfl rfl (Nat.le_refl _) rfl rfl

theorem Sound.pushRequest (h : Sound cfg s) {m : BusMessage} (hs : s.pushRequest cfg m = .ok s') :
    Sound cfg s' := by
  rw [BackSide.pushRequest] at hs
  split at hs
  · cases hs
    exact h.congr rfl rfl rfl (Nat.le_refl _) rfl rfl
  · split at hs
    · cases hs
    · cases hs
      exact h.congr rfl rfl rfl (Nat.le_refl _) rfl rfl

/-- **One step** keeps the invariant. -/
theorem Sound.step (h : Sound cfg s) {ev : Event} (hg : SendsNoReply cfg s ev)
    (hs : BackSide.step cfg s ev = .ok s') : Sound cfg s' := by
  cases ev with
  | send k m =>
    cases hs
    exact h.enqueue _ m
  | pushReply m => exact h.pushReply hs
  | pushRequest m => exact h.pushRequest hs
  | busCycle env =>
    obtain ⟨t, ht, hsound, -⟩ := h.busCycle hg
    have heq : t = s' := Except.ok.inj (ht.symm.trans hs)
    rwa [← heq]
  | tick =>
    cases hs
    exact h.congr rfl rfl rfl (Nat.le_succ _) rfl rfl

theorem Core.faithful (h : Core s) : Faithful s := by
  refine ⟨h.exact, h.same, fun pre x post hsent hx y hy hwait hlt => ?_⟩
  have hmem : y.2.serial ∈ serials y.1 s.sent ++ (s.queue y.1).map Entry.serial := by
    rw [h.exact]
    exact mem_serials.mpr ⟨y.2, hy, rfl⟩
  have hxs : x ∈ s.sent := by
    rw [hsent]
    exact mem_append_right _ mem_cons_self
  rcases mem_append.mp hmem with hgone | hqueued
  · -- it is not behind the request, since what is behind was enqueued later
    rw [hsent, serials_append, mem_append] at hgone
    refine hgone.resolve_right fun hpost => ?_
    obtain ⟨z, hz, hzs⟩ := mem_serials.mp hpost
    have hpair := h.sent
    rw [hsent, pairwise_append, pairwise_cons] at hpair
    rcases mem_cons.mp hz with hz | hz
    · rw [← hz] at hx
      rw [hwait] at hx
      cases hx
    · have := hpair.2.1.1 _ hz hx hwait
      dsimp only at this
      omega
  · -- nor is it still in its queue
    obtain ⟨f, hf, hfs⟩ := mem_map.mp hqueued
    have := h.behind x hxs hx y.1 hwait f hf
    omega

/-- **Every message leaves once**, on its channel and in the order of its queue, no
request or prefetch overtakes an older snoop or reply, and `busCycle` always returns and, with the
channels available, does its work, in all runs in which nothing is to be sent as a reply without a
bus. -/
theorem faithful_of_sendsNoReply {cfg : BusConfig} {s : BackSide}
    (h : (machine cfg).ReachableWhen (SendsNoReply cfg) s) :
    Faithful s ∧ (∀ env, SendsNoReply cfg s (.busCycle env) → Returns cfg s env) ∧
      ∀ env s', SendsNoReply cfg s (.busCycle env) → (∀ c l, env.available c l = true) →
        s.busCycle cfg env = .ok s' → Works cfg s s' := by
  have hsound : Sound cfg s :=
    Lib.Machine.ReachableWhen.invariant (sound_init cfg) (fun _ _ _ hi hg hs => hi.step hg hs) h
  refine ⟨hsound.core.faithful, fun env hg => ?_, fun env s' hg hav hs' => ?_⟩
  · obtain ⟨s', hs', -⟩ := hsound.busCycle hg
    exact ⟨s', hs'⟩
  · obtain ⟨t, ht, -, hwork⟩ := hsound.busCycle hg
    obtain rfl : t = s' := Except.ok.inj (ht.symm.trans hs')
    exact hwork hav

/-- A cache with a reply channel, with or without a bus. -/
def replyConfig (noBus : Bool) : BusConfig where
  noBus := noBus
  fastEvictClean := false
  useReplyChannel := true
  evictOnSnoop := true
  busTimeData := 2
  busTimeNoData := 1
  flexusIndex := 3
  busTimeData_pos := Nat.two_pos
  busTimeNoData_pos := Nat.one_pos

/-- Surroundings in which everything is available. -/
def allAvailable : Surroundings := ⟨fun _ _ => true, 1, 1, false⟩

/-- The answer to a snoop, and a request one cycle later, then five calls of `busCycle`. -/
def replyThenRequest : List Event :=
  [.send .snoop ⟨.invUpdateAck, 64, 0⟩, .tick, .send .request ⟨.readReq, 0, 0⟩] ++
    List.replicate 5 (.busCycle allAvailable)

theorem faithful_replyThenRequest : ∃ s,
    (machine (replyConfig false)).ReachableWhen (SendsNoReply (replyConfig false)) s ∧
      s.sent.map Prod.fst = [.reply, .request] ∧ Faithful s ∧
      Returns (replyConfig false) s allAvailable := by
  have hrun : ∃ s, (machine (replyConfig false)).run replyThenRequest = .ok s ∧
      s.sent.map Prod.fst = [.reply, .request] := ⟨_, rfl, rfl⟩
  obtain ⟨s, hs, hsent⟩ := hrun
  have hguard : ∀ (s : BackSide) (ev : Event), true = true →
      SendsNoReply (replyConfig false) s ev := by
    intro s ev _
    cases ev <;> first | exact trivial | exact nofun
  have hreach : (machine (replyConfig false)).ReachableWhen (SendsNoReply (replyConfig false)) s :=
    Lib.Machine.reachableWhen_of_run (g := fun _ _ => true) hguard rfl hs
  obtain ⟨hfaithful, hreturns, -⟩ := faithful_of_sendsNoReply hreach
  exact ⟨s, hreach, hsent, hfaithful, hreturns _ nofun⟩

/-- **Without a bus, the first reply stops the simulation**: the loop for the replies
dequeues a snoop, and there is none. -/
theorem reply_without_bus_faults : ¬ ∀ (cfg : BusConfig) (s : BackSide),
    (machine cfg).Reachable s → Faithful s ∧ ∀ env, Returns cfg s env := by
  intro h
  have hrun : ∃ s, (machine (replyConfig true)).run [.send .snoop ⟨.invUpdateAck, 64, 0⟩] = .ok s ∧
      s.busCycle (replyConfig true) allAvailable = .error .emptyQueue := ⟨_, rfl, rfl⟩
  obtain ⟨s, hs, hfault⟩ := hrun
  obtain ⟨-, hreturns⟩ := h _ s (Lib.Machine.reachable_of_run hs)
  obtain ⟨s', hs'⟩ := hreturns allAvailable
  rw [hfault] at hs'
  cases hs'

end BackSide

end Cache

end Flexus
