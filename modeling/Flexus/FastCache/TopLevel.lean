import Flexus.FastCache.Component
import Flexus.Lib.Outcome

/-!
# A private cache with nothing above it

What a first-level cache does, in terms of the states of its blocks. Nothing is
wired to its snoop channels, so that a snoop ends there: the next state and the
reply are functions of the state of the block
(`Flexus.FastCache.snoopNext`, `Flexus.FastCache.snoopReply`). A request either
hits, or asks for permission to write, or is handed down and followed by a fill –
and a fill may evict another block first.
-/

namespace Flexus

open Function Lib

namespace FastCache

open MemoryMessageType

/-! ### The states of the protocol -/

/-- The states inclusive MESI uses. -/
def IsMESI (x : CoherenceState) : Prop :=
  x = .modified ∨ x = .exclusive ∨ x = .shared ∨ x = .invalid

/-- The snoops a private cache understands. -/
def IsSnoop (t : MemoryMessageType) : Prop := t = returnReq ∨ t = invalidate ∨ t = downgrade

/-- The state of a block after a snoop. -/
def snoopNext (x : CoherenceState) (t : MemoryMessageType) : CoherenceState :=
  if t = invalidate ∨ x = .invalid then .invalid else .shared

/-- The reply to a snoop. -/
def snoopReply (x : CoherenceState) (t : MemoryMessageType) : MemoryMessageType :=
  if t = invalidate then
    if x = .modified then invUpdateAck else if x = .invalid then invalidate else invalidateAck
  else if t = returnReq then
    if x = .modified then returnReplyDirty else if x = .invalid then returnNAck else returnReply
  else
    if x = .modified then downUpdateAck else downgradeAck

/-- The message that reports the eviction of a block held in the given state. -/
def evictMessage (x : CoherenceState) : MemoryMessageType :=
  if x = .modified then evictDirty else if x = .exclusive then evictWritable else evictClean

/-- The state in which a load that missed leaves the block, by the reply. -/
def loadFill : MemoryMessageType → CoherenceState
  | missReplyDirty => .modified
  | missReplyWritable => .exclusive
  | _ => .shared

/-- The requests of a core that write. -/
def IsWrite (t : MemoryMessageType) : Prop :=
  t = storeReq ∨ t = rmwReq ∨ t = cmpxReq ∨ t = nonAllocatingStoreReq

section Top

variable {g : Geometry} {σ : Type}

/-- **A cache with nothing above it**: the snoop channels are not wired, and its
array is a field of the state like any other. -/
structure Ports.Top (p : Ports g σ) : Prop where
  snoopOutI : p.snoopOutI = unwired
  snoopOutD : p.snoopOutD = unwired
  get_set : ∀ s c, p.getCache (p.setCache s c) = c
  set_set : ∀ s c c', p.setCache (p.setCache s c) c' = p.setCache s c'

variable {cfg : Config} {p : Ports g σ} (hp : p.Top)

include hp

theorem continueSnoop_top (s : σ) (m : MemoryMessage) :
    continueSnoop p s m = .ok (s, m.type) := by
  rw [continueSnoop, hp.snoopOutI, hp.snoopOutD]
  by_cases h : m.type ≠ downgrade
  · simp [h, unwired, bind, Except.bind, pure, Except.pure]
  · simp [h, unwired, bind, Except.bind, pure, Except.pure]

/-- The eviction of a valid block is reported below by a message that says how
the block was held. -/
theorem evict_top (hc : cfg.cleanEvictions = true) (s : σ) (b : ℕ) (x : CoherenceState) :
    evict cfg p s b x = (p.requestOut s ⟨evictMessage x, b⟩).map Prod.fst := by
  have hs : protocolEvict p s b x = .ok (s, evictMessage x) := by
    rw [protocolEvict, sendInvalidate, hp.snoopOutI, hp.snoopOutD]
    simp [unwired, bind, Except.bind, pure, Except.pure, evictMessage]
  rw [evict, hs]
  simp only [bind, Except.bind, hc, or_true, if_true]
  cases p.requestOut s _ <;> rfl

/-- The code behind the snoop table either leaves the block alone or changes its
state, and only a block that is there changes its state. -/
theorem doSnoopAction_top {x : CoherenceState} (hx : IsMESI x) {t : MemoryMessageType}
    (ht : IsSnoop t) (snoopLRU : Bool) (s : σ) (r : LookupResult g) (a : ℕ) :
    ∃ act, InclusiveMESI.snoopAction snoopLRU x t = some act ∧
      (snoopNext x t = x ∧ doSnoopAction p s r ⟨t, a⟩ act = .ok (s, snoopReply x t) ∨
      x ≠ .invalid ∧ ∃ mru lru, doSnoopAction p s r ⟨t, a⟩ act =
        .ok (changeState p s r (snoopNext x t) mru lru, snoopReply x t)) := by
  have hcont := continueSnoop_top hp s
  rcases ht with rfl | rfl | rfl
  · rcases hx with rfl | rfl | rfl | rfl
    · exact ⟨_, rfl, .inr ⟨nofun, false, snoopLRU, rfl⟩⟩
    · refine ⟨_, rfl, .inr ⟨nofun, false, snoopLRU, ?_⟩⟩
      simp only [doSnoopAction, hcont]
      rfl
    · exact ⟨_, rfl, .inl ⟨rfl, rfl⟩⟩
    · exact ⟨_, rfl, .inl ⟨rfl, rfl⟩⟩
  · rcases hx with rfl | rfl | rfl | rfl
    · refine ⟨_, rfl, .inr ⟨nofun, false, true, ?_⟩⟩
      simp only [doSnoopAction, hcont]
      rfl
    · refine ⟨_, rfl, .inr ⟨nofun, false, true, ?_⟩⟩
      simp only [doSnoopAction, hcont]
      rfl
    · refine ⟨_, rfl, .inr ⟨nofun, false, true, ?_⟩⟩
      simp only [doSnoopAction, hcont]
      rfl
    · exact ⟨_, rfl, .inl ⟨rfl, rfl⟩⟩
  · rcases hx with rfl | rfl | rfl | rfl
    · refine ⟨_, rfl, .inr ⟨nofun, false, true, ?_⟩⟩
      simp only [doSnoopAction, hcont]
      rfl
    · refine ⟨_, rfl, .inr ⟨nofun, false, true, ?_⟩⟩
      simp only [doSnoopAction, hcont]
      rfl
    · exact ⟨_, rfl, .inl ⟨rfl, rfl⟩⟩
    · exact ⟨_, rfl, .inl ⟨rfl, rfl⟩⟩

/-- **A snoop ends at a first-level cache**: the state of the block changes as the
protocol says, and nothing else in the system does. -/
theorem snoopIn_top (s : σ) {t : MemoryMessageType} (ht : IsSnoop t) (a : ℕ)
    (hx : IsMESI ((p.getCache s).stateOf (g.getTag a))) :
    ∃ c, snoopIn cfg p s ⟨t, a⟩ =
        .ok (p.setCache s c, snoopReply ((p.getCache s).stateOf (g.getTag a)) t) ∧
      c.stateOf = update (p.getCache s).stateOf (g.getTag a)
        (snoopNext ((p.getCache s).stateOf (g.getTag a)) t) := by
  obtain ⟨hst, haddr, e, hres⟩ := (p.getCache s).lookup_spec a
  have hget : ((p.getCache s).lookup a).1.getState ((p.getCache s).lookup a).2 =
      (p.getCache s).stateOf (g.getTag a) := by
    rw [hres.getState_eq, hst, haddr]
  obtain ⟨act, hact, hdo⟩ := doSnoopAction_top hp hx ht cfg.snoopLRU
    (p.setCache s ((p.getCache s).lookup a).1) ((p.getCache s).lookup a).2 a
  simp only [snoopIn, hget, hact]
  rcases hdo with ⟨hsame, hdo⟩ | ⟨hv, mru, lru, hdo⟩
  · simp only [hdo, bind, Except.bind, hp.get_set, hp.set_set]
    refine ⟨_, rfl, ?_⟩
    rw [(StdCache.lookup_spec _ a).1, hst, hsame, update_eq_self]
  · simp only [hdo, bind, Except.bind, changeState, hp.get_set, hp.set_set]
    refine ⟨_, rfl, ?_⟩
    have htag := hres.tag_eq (by rwa [hst, haddr])
    rw [(StdCache.lookup_spec _ a).1, StdCache.stateOf_changeState hres htag, hst, haddr]

/-! ### Fills -/

/-- **What a fill has to establish**: the block comes in, and where a valid block
has to leave for it, its eviction is answered first – without a change to the
array. -/
structure Fills (allowed : Fault → Prop) (p : Ports g σ) (s : σ) (b : ℕ)
    (new : CoherenceState) (P : σ → Prop) : Prop where
  direct : ∀ c, c.stateOf = update (p.getCache s).stateOf b new → P (p.setCache s c)
  evicting : ∀ v, v ≠ b → g.getTag v = v → (p.getCache s).stateOf v ≠ .invalid →
    Ends allowed (p.requestOut s ⟨evictMessage ((p.getCache s).stateOf v), v⟩) fun r =>
      p.getCache r.1 = p.getCache s ∧
        ∀ c, c.stateOf = update (update (p.getCache s).stateOf v .invalid)
          b new → P (p.setCache r.1 c)

omit hp in
theorem Fills.mono {allowed : Fault → Prop} {s : σ} {b : ℕ} {new : CoherenceState}
    {P Q : σ → Prop} (h : Fills allowed p s b new P) (hPQ : ∀ s, P s → Q s) :
    Fills allowed p s b new Q :=
  ⟨fun c hc => hPQ _ (h.direct c hc), fun v hv ht hx => (h.evicting v hv ht hx).mono
    fun _ ⟨hget, hP⟩ => ⟨hget, fun c hc => hPQ _ (hP c hc)⟩⟩

theorem allocate_top {allowed : Fault → Prop} (hc : cfg.cleanEvictions = true) {s : σ}
    {r : LookupResult g} {e : BlockEntry} (hres : (p.getCache s).Resolves r e)
    {new : CoherenceState} {P : σ → Prop} (h : Fills allowed p s r.theAddress new P) :
    Ends allowed (allocate cfg p s r new) P := by
  simp only [allocate, StdCache.allocate, hres.block_eq]
  by_cases ht : e.tag = r.theAddress
  · rw [if_neg (not_not.mpr ht), ends_pure]
    refine h.direct _ ?_
    have hch := StdCache.stateOf_changeState hres ht new true false
    simpa [StdCache.changeState] using hch
  rw [if_pos ht]
  have hstate : (p.getCache s).stateOf e.tag = e.state := by
    rw [StdCache.stateOf, ((p.getCache s).wf _).isHome e hres.mem]
    exact BlockSet.stateOf_of_mem ((p.getCache s).wf _).tags_nodup hres.mem
  obtain ⟨c, hrep, hcs⟩ := StdCache.replaceBlock_spec hres ht new
  by_cases hv : e.state = .invalid
  · -- the entry to be replaced holds no block
    have hval : ¬e.state.isValid = true := by simp [hv]
    rw [if_neg hval]
    simp only [pure, Except.pure, bind, Except.bind, hrep, ends_ok]
    refine h.direct _ ?_
    rw [StdCache.stateOf_updateLRU, hcs, ← hv, ← hstate, update_eq_self]
  · have hval : e.state.isValid = true := by simp [hv]
    rw [if_pos hval, evict_top hp hc, ← hstate]
    have hev := h.evicting e.tag ht (((p.getCache s).wf _).isTag e hres.mem) (by rwa [hstate])
    cases hq : p.requestOut s ⟨evictMessage ((p.getCache s).stateOf e.tag), e.tag⟩ with
    | error f =>
      rw [hq] at hev
      exact hev
    | ok q =>
      rw [hq] at hev
      obtain ⟨hget, hP⟩ := hev
      simp only [Except.map, bind, Except.bind, hget, hrep]
      refine hP _ ?_
      rw [StdCache.stateOf_updateLRU, hcs]

/-! ### Requests -/

omit hp in
/-- A request is the code behind the entry for the state of the block. -/
theorem requestIn_eq (ht : cfg.usingTraces = false) (s : σ) (a : ℕ) :
    ∃ c r e, c.stateOf = (p.getCache s).stateOf ∧ r.theAddress = g.getTag a ∧
      c.Resolves r e ∧ ∀ t access act, message2access t = .ok access →
        InclusiveMESI.requestAction false ((p.getCache s).stateOf (g.getTag a)) access =
          some act →
        requestIn cfg p s ⟨t, a⟩ = doCoherenceAction cfg p (p.setCache s c) r ⟨t, a⟩ act := by
  obtain ⟨hst, haddr, e, hres⟩ := (p.getCache s).lookup_spec a
  refine ⟨_, _, e, hst, haddr, hres, fun t access act hacc hact => ?_⟩
  have hget := hres.getState_eq
  rw [hst, haddr] at hget
  simp only [requestIn, hacc, bind, Except.bind, hget, ht, hact]

/-- **A read hit** leaves all blocks as they are. -/
theorem requestIn_readHit (hu : cfg.usingTraces = false) (s : σ) (a : ℕ)
    {t : MemoryMessageType} (ht : t = loadReq ∨ t = fetchReq)
    (hx : IsMESI ((p.getCache s).stateOf (g.getTag a)))
    (hv : (p.getCache s).stateOf (g.getTag a) ≠ .invalid) :
    ∃ c resp, requestIn cfg p s ⟨t, a⟩ = .ok (p.setCache s c, resp) ∧
      c.stateOf = (p.getCache s).stateOf := by
  obtain ⟨c, r, e, hst, -, -, heq⟩ := requestIn_eq (p := p) hu s a
  have hlru : updateLRU p (p.setCache s c) r = p.setCache s (c.updateLRU r) := by
    rw [updateLRU, hp.get_set, hp.set_set]
  have hdo : ∃ resp, requestIn cfg p s ⟨t, a⟩ = .ok (updateLRU p (p.setCache s c) r, resp) := by
    rcases ht with rfl | rfl
    · rcases hx with h | h | h | h
      · exact ⟨_, (heq _ _ _ rfl (by rw [h]; rfl)).trans rfl⟩
      · exact ⟨_, (heq _ _ _ rfl (by rw [h]; rfl)).trans rfl⟩
      · exact ⟨_, (heq _ _ _ rfl (by rw [h]; rfl)).trans rfl⟩
      · exact absurd h hv
    · rcases hx with h | h | h | h
      · exact ⟨_, (heq _ _ _ rfl (by rw [h]; rfl)).trans rfl⟩
      · exact ⟨_, (heq _ _ _ rfl (by rw [h]; rfl)).trans rfl⟩
      · exact ⟨_, (heq _ _ _ rfl (by rw [h]; rfl)).trans rfl⟩
      · exact absurd h hv
  obtain ⟨resp, hdo⟩ := hdo
  refine ⟨c.updateLRU r, resp, ?_, ?_⟩
  · rw [hdo, hlru]
  · rw [StdCache.stateOf_updateLRU, hst]

/-- **A write hit** makes the block modified. -/
theorem requestIn_writeHit (hu : cfg.usingTraces = false) (s : σ) (a : ℕ)
    {t : MemoryMessageType} (ht : IsWrite t)
    (hx : (p.getCache s).stateOf (g.getTag a) = .modified ∨
      (p.getCache s).stateOf (g.getTag a) = .exclusive) :
    ∃ c resp, requestIn cfg p s ⟨t, a⟩ = .ok (p.setCache s c, resp) ∧
      c.stateOf = update (p.getCache s).stateOf (g.getTag a) .modified := by
  obtain ⟨c, r, e, hst, haddr, hres, heq⟩ := requestIn_eq (p := p) hu s a
  rcases hx with h | h
  · have hdo : requestIn cfg p s ⟨t, a⟩ =
        .ok (updateLRU p (p.setCache s c) r, missReplyDirty) := by
      rcases ht with rfl | rfl | rfl | rfl <;> exact (heq _ _ _ rfl (by rw [h]; rfl)).trans rfl
    refine ⟨c.updateLRU r, missReplyDirty, ?_, ?_⟩
    · rw [hdo, updateLRU, hp.get_set, hp.set_set]
    · rw [StdCache.stateOf_updateLRU, hst, ← h, update_eq_self]
  · have hdo : requestIn cfg p s ⟨t, a⟩ =
        .ok (changeState p (p.setCache s c) r .modified true false, missReplyWritable) := by
      rcases ht with rfl | rfl | rfl | rfl <;> exact (heq _ _ _ rfl (by rw [h]; rfl)).trans rfl
    refine ⟨c.changeState r .modified true false, missReplyWritable, ?_, ?_⟩
    · rw [hdo, changeState, hp.get_set, hp.set_set]
    · have htag := hres.tag_eq (by rw [hst, haddr, h]; nofun)
      rw [StdCache.stateOf_changeState hres htag, hst, haddr]

variable {allowed : Fault → Prop}

omit hp in
/-- **A write to a shared block** asks for permission first. -/
theorem requestIn_upgrade (hu : cfg.usingTraces = false) (s : σ) (a : ℕ)
    {t : MemoryMessageType} (ht : IsWrite t)
    (hx : (p.getCache s).stateOf (g.getTag a) = .shared) {P : σ → Prop}
    (h : ∀ c, c.stateOf = (p.getCache s).stateOf →
      Ends allowed (p.requestOut (p.setCache s c) ⟨upgradeReq, a⟩) fun q =>
        p.getCache q.1 = c ∧ ∀ c', c'.stateOf =
          update (p.getCache s).stateOf (g.getTag a) .modified →
            P (p.setCache q.1 c')) :
    Ends allowed (requestIn cfg p s ⟨t, a⟩) fun q => P q.1 := by
  obtain ⟨c, r, e, hst, haddr, hres, heq⟩ := requestIn_eq (p := p) hu s a
  have hdo : requestIn cfg p s ⟨t, a⟩ =
      (p.requestOut (p.setCache s c) ⟨upgradeReq, a⟩ >>= fun q =>
        pure (changeState p q.1 r .modified true false, missReplyWritable)) := by
    rcases ht with rfl | rfl | rfl | rfl <;> exact (heq _ _ _ rfl (by rw [hx]; rfl)).trans rfl
  rw [hdo]
  refine (h c hst).bind fun q ⟨hget, hP⟩ => ?_
  rw [ends_pure, changeState, hget]
  refine hP _ ?_
  have htag := hres.tag_eq (by rw [hst, haddr, hx]; nofun)
  rw [StdCache.stateOf_changeState hres htag, hst, haddr]

omit hp in
/-- **A non-allocating store that misses** is handed down, and that is all. -/
theorem requestIn_nonAllocatingStoreMiss (hu : cfg.usingTraces = false) (s : σ) (a : ℕ)
    (hx : (p.getCache s).stateOf (g.getTag a) = .invalid) {P : σ → Prop}
    (h : ∀ c, c.stateOf = (p.getCache s).stateOf →
      Ends allowed (p.requestOut (p.setCache s c) ⟨nonAllocatingStoreReq, a⟩) fun q =>
        P q.1) :
    Ends allowed (requestIn cfg p s ⟨nonAllocatingStoreReq, a⟩) fun q => P q.1 := by
  obtain ⟨c, r, e, hst, haddr, hres, heq⟩ := requestIn_eq (p := p) hu s a
  rw [heq _ _ _ rfl (by rw [hx]; rfl)]
  exact h c hst

section Miss

variable (hc : cfg.cleanEvictions = true) (hu : cfg.usingTraces = false) (s : σ) (a : ℕ)
  (hx : (p.getCache s).stateOf (g.getTag a) = .invalid) {P : σ → Prop}

include hc hu hx

/-- **A load that misses** is a read, and a fill that depends on the reply. -/
theorem requestIn_loadMiss (h : ∀ c, c.stateOf = (p.getCache s).stateOf →
      Ends allowed (p.requestOut (p.setCache s c) ⟨readReq, a⟩) fun q =>
        p.getCache q.1 = c ∧
          (q.2 = missReply ∨ q.2 = missReplyWritable ∨ q.2 = missReplyDirty) ∧
          Fills allowed p q.1 (g.getTag a) (loadFill q.2) P) :
    Ends allowed (requestIn cfg p s ⟨loadReq, a⟩) fun q => P q.1 := by
  obtain ⟨c, r, e, hst, haddr, hres, heq⟩ := requestIn_eq (p := p) hu s a
  rw [heq _ _ _ rfl (by rw [hx]; rfl)]
  refine (h c hst).bind fun q ⟨hget, hreply, hfill⟩ => ?_
  rw [← haddr] at hfill
  obtain ⟨s', reply⟩ := q
  have hall := allocate_top hp hc (hget ▸ hres) hfill
  rcases hreply with rfl | rfl | rfl
  · exact hall.bind fun _ hP => hP
  · exact hall.bind fun _ hP => hP
  · exact hall.bind fun _ hP => hP

/-- **A store that misses** is a write, and a fill in the modified state. -/
theorem requestIn_storeMiss {t : MemoryMessageType}
    (ht : t = storeReq ∨ t = rmwReq ∨ t = cmpxReq)
    (h : ∀ c, c.stateOf = (p.getCache s).stateOf →
      Ends allowed (p.requestOut (p.setCache s c) ⟨writeReq, a⟩) fun q =>
        p.getCache q.1 = c ∧ Fills allowed p q.1 (g.getTag a) .modified P) :
    Ends allowed (requestIn cfg p s ⟨t, a⟩) fun q => P q.1 := by
  obtain ⟨c, r, e, hst, haddr, hres, heq⟩ := requestIn_eq (p := p) hu s a
  have hdo : requestIn cfg p s ⟨t, a⟩ =
      (p.requestOut (p.setCache s c) ⟨writeReq, a⟩ >>= fun q =>
        allocate cfg p q.1 r .modified >>= fun s' => pure (s', q.2)) := by
    rcases ht with rfl | rfl | rfl <;> exact (heq _ _ _ rfl (by rw [hx]; rfl)).trans rfl
  rw [hdo]
  refine (h c hst).bind fun q ⟨hget, hfill⟩ => ?_
  rw [← haddr] at hfill
  exact (allocate_top hp hc (hget ▸ hres) hfill).bind fun _ hP => hP

/-- **A fetch that misses** is handed down, and the fill is shared. -/
theorem requestIn_fetchMiss (h : ∀ c, c.stateOf = (p.getCache s).stateOf →
      Ends allowed (p.requestOut (p.setCache s c) ⟨fetchReq, a⟩) fun q =>
        p.getCache q.1 = c ∧ q.2 ≠ fwdReplyOwned ∧
          Fills allowed p q.1 (g.getTag a) .shared P) :
    Ends allowed (requestIn cfg p s ⟨fetchReq, a⟩) fun q => P q.1 := by
  obtain ⟨c, r, e, hst, haddr, hres, heq⟩ := requestIn_eq (p := p) hu s a
  rw [heq _ _ _ rfl (by rw [hx]; rfl)]
  refine (h c hst).bind fun q ⟨hget, hreply, hfill⟩ => ?_
  rw [← haddr] at hfill
  obtain ⟨s', reply⟩ := q
  have hnew : (if reply = fwdReplyOwned then CoherenceState.owned else .shared) = .shared :=
    if_neg hreply
  simp only [hnew]
  exact (allocate_top hp hc (hget ▸ hres) hfill).bind fun _ hP => hP

end Miss

end Top

end FastCache

end Flexus
