import Flexus.FastCMPCache.Rows

/-!
# Coherence of the functional chip multiprocessor

The invariant of all blocks, event by event. A request of a core is a hit, an
upgrade, a non-allocating store or a miss; a miss is a request to the shared cache
followed by a fill, and the fill may evict another block – a second request to the
shared cache while the first one is half done: at that point the requested block
is recorded for a cache that does not hold it yet. So what is carried from the
request to the fill is that the requested block *will* satisfy the invariant once
it is filled in (`Flexus.FastCMPCache.Granted`).

The main results are single-writer/multiple-reader and exactness of the directory
in every reachable state, and the absence of failing assertions.
-/

namespace Flexus

open Function Lib

namespace FastCMPCache

open MemoryMessageType FastCache CoherenceState

variable {cfg : Config}

/-- **The invariant of the system**: every block satisfies its invariant. -/
def System.Ok (s : System cfg) : Prop := ∀ b, ∃ v, s.Shows b v ∧ v.Ok (2 * cfg.cmpWidth)

/-! ### The block seen from the arrays -/

variable {s s' : System cfg} {v w : Block} {b i : ℕ}

theorem System.Shows.unique (h : s.Shows b v) (h' : s.Shows b w) : v = w := by
  obtain ⟨l1, l2, S⟩ := v
  obtain ⟨l1', l2', S'⟩ := w
  obtain rfl : l1 = l1' := funext fun i => (h.l1 i).symm.trans (h'.l1 i)
  obtain rfl : l2 = l2' := h.l2.symm.trans h'.l2
  obtain rfl : S = S' := h.dir.sharers_eq.symm.trans h'.dir.sharers_eq
  rfl

theorem System.Shows.setCache (h : s.Shows b v) {c : StdCache (cfg.l1 i)} {x : CoherenceState}
    (hc : c.stateOf b = x) :
    System.Shows { s with l1 := update s.l1 i c } b (v.setL1 i x) where
  l1 j := by
    by_cases hj : j = i
    · subst hj
      simp only [update_self, Block.setL1]
      exact hc
    · simp only [update_of_ne hj, Block.setL1, h.l1]
  l2 := h.l2
  dir := h.dir

/-- Exchanging the array of a private cache for one with the same states. -/
theorem System.Shows.setCache_same (h : s.Shows b v) {c : StdCache (cfg.l1 i)}
    (hc : c.stateOf = (s.l1 i).stateOf) :
    System.Shows { s with l1 := update s.l1 i c } b v := by
  have h' := h.setCache (i := i) (c := c) ((congrFun hc b).trans (h.l1 i))
  rwa [Block.setL1, update_eq_self] at h'

/-! ### What an event does to the blocks -/

/-- **What an event does to all blocks**: the invariant survives, and a block that
was dirty still is, or has been written back, or is one of the exceptions. -/
structure Evolves (s s' : System cfg) (ext : List MemoryMessage)
    (exc : ℕ → Block → Prop) : Prop where
  dma : s'.dmaReplies = s.dmaReplies
  sent : s'.sent = ext ++ s.sent
  block : ∀ b v, s.Shows b v → v.Ok (2 * cfg.cmpWidth) → ∃ v', s'.Shows b v' ∧
    v'.Ok (2 * cfg.cmpWidth) ∧ (v.Dirty → v'.Dirty ∨ ⟨evictDirty, b⟩ ∈ ext ∨ exc b v)

/-- **Between a request and its fill**: the requested block satisfies the
invariant as soon as the requester holds it in the state it was granted. -/
structure Granted (i b : ℕ) (new : CoherenceState) (s s' : System cfg)
    (ext : List MemoryMessage) : Prop where
  dma : s'.dmaReplies = s.dmaReplies
  sent : s'.sent = ext ++ s.sent
  self : (s'.l1 i).stateOf = (s.l1 i).stateOf
  granted : ∀ v, s.Shows b v → ∃ v', s'.Shows b v' ∧
    (v'.setL1 i new).Ok (2 * cfg.cmpWidth) ∧ (v.Dirty → (v'.setL1 i new).Dirty)
  other : ∀ b', b' ≠ b → ∀ v, s.Shows b' v → s'.Shows b' v ∨
    s'.Shows b' (v.setL2 invalid) ∧ (v.l2 = modified → ⟨evictDirty, b'⟩ ∈ ext)

/-- When the shared cache loses a block, the block stays dirty above or is written
back. -/
theorem Block.dirty_of_lost {ext : List MemoryMessage}
    (h : v.l2 = modified → ⟨evictDirty, b⟩ ∈ ext) (hd : v.Dirty) :
    (v.setL2 invalid).Dirty ∨ ⟨evictDirty, b⟩ ∈ ext := by
  rcases hd with hd | hd
  · exact .inl (.inl hd)
  · exact .inr (h hd)

theorem granted_of_answers {m : MemoryMessage} (new : CoherenceState)
    {q : System cfg × MemoryMessageType} {c : StdCache (cfg.l1 i)}
    (hc : c.stateOf = (s.l1 i).stateOf) (hs : s.Shows (cfg.blockOf m.address) v)
    (h : Answers i m { s with l1 := update s.l1 i c } (fun _ v' _ =>
      (v'.setL1 i new).Ok (2 * cfg.cmpWidth) ∧ (v.Dirty → (v'.setL1 i new).Dirty)) q) :
    (q.1.l1 i) = c ∧ ∃ ext, Granted i (cfg.blockOf m.address) new s q.1 ext := by
  obtain ⟨ext, v', hsrv, hsh, hok, hd⟩ := h
  have hl1 : q.1.l1 i = c := hsrv.l1.trans (update_self ..)
  refine ⟨hl1, ext, hsrv.dma, hsrv.sent, by rw [hl1, hc], fun u hu => ?_, fun b' hb' u hu => ?_⟩
  · obtain rfl := hs.unique hu
    exact ⟨v', hsh, hok, hd⟩
  · exact hsrv.other b' hb' u (hu.setCache_same hc)

/-- **A fill**: the requester takes the block, after evicting another one if it
has to. -/
theorem fills_of_granted {new : CoherenceState} {ext : List MemoryMessage} (hok : s.Ok)
    (hg : Granted i b new s s' ext) :
    Fills (IndexFault cfg) (l1Ports (processRequest i) i) s' b new fun s'' =>
      (∃ ext', Evolves s s'' ext' fun _ _ => False) ∧ (s''.l1 i).stateOf b = new := by
  constructor
  · intro c hc
    change c.stateOf = update (s'.l1 i).stateOf b new at hc
    refine ⟨⟨ext, hg.dma, hg.sent, fun b' v hv hvok => ?_⟩, ?_⟩
    · by_cases hb : b' = b
      · subst hb
        obtain ⟨v', hv', hok', hd⟩ := hg.granted v hv
        refine ⟨_, hv'.setCache (x := new) ?_, hok', fun hvd => .inl (hd hvd)⟩
        rw [hc, update_self]
      · have hcb : c.stateOf b' = (s'.l1 i).stateOf b' := by rw [hc, update_of_ne hb]
        have hset : ∀ u, s'.Shows b' u →
            System.Shows { s' with l1 := update s'.l1 i c } b' u := by
          intro u hu
          have := hu.setCache (i := i) (c := c) (hcb.trans (hu.l1 i))
          rwa [Block.setL1, update_eq_self] at this
        rcases hg.other b' hb v hv with h | ⟨h, hw⟩
        · exact ⟨v, hset v h, hvok, fun hvd => .inl hvd⟩
        · exact ⟨_, hset _ h, hvok.lose, fun hvd => (Block.dirty_of_lost hw hvd).imp id .inl⟩
    · simp only [l1Ports, update_self, hc]
  · intro u hub _ huv
    change (s'.l1 i).stateOf u ≠ invalid at huv
    -- the block to be evicted satisfies the invariant
    obtain ⟨vu, hvu, hvuok⟩ := hok u
    obtain ⟨vu', hvu', hvuok', hlost⟩ : ∃ vu', s'.Shows u vu' ∧ vu'.Ok (2 * cfg.cmpWidth) ∧
        (vu.Dirty → vu'.Dirty ∨ ⟨evictDirty, u⟩ ∈ ext) := by
      rcases hg.other u hub vu hvu with h | ⟨h, hw⟩
      · exact ⟨vu, h, hvuok, .inl⟩
      · exact ⟨_, h, hvuok.lose, Block.dirty_of_lost hw⟩
    have hux : (s'.l1 i).stateOf u = vu'.l1 i := hvu'.l1 i
    have hblock : cfg.blockOf u = u := by
      rw [← getTag_l1 i]
      exact StdCache.getTag_of_stateOf huv
    have hspec := evict_spec (a := u) (i := i) hvuok' (by rwa [hblock]) (by rwa [← hux])
    change Ends (IndexFault cfg)
      (processRequest i s' ⟨evictMessage ((s'.l1 i).stateOf u), u⟩) _
    rw [hux]
    refine hspec.mono ?_
    rintro q ⟨ext2, v2, hsrv, hv2, hrel⟩
    simp only [hblock] at hsrv hv2
    refine ⟨hsrv.l1, fun c hc => ?_⟩
    change c.stateOf = update (update (s'.l1 i).stateOf u invalid) b new at hc
    refine ⟨⟨ext2 ++ ext, hsrv.dma.trans hg.dma, ?_, fun b' v hv hvok => ?_⟩, ?_⟩
    · exact hsrv.sent.trans (by rw [hg.sent, List.append_assoc])
    · by_cases hbu : b' = u
      · -- the evicted block
        subst hbu
        obtain rfl := hv.unique hvu
        refine ⟨_, hv2.setCache (x := invalid) ?_, hrel.ok, fun hvd => ?_⟩
        · rw [hc, update_of_ne hub, update_self]
        · rcases hlost hvd with h | h
          · exact .inl (hrel.dirty h)
          · exact .inr (.inl (List.mem_append_right _ h))
      by_cases hbb : b' = b
      · -- the requested block
        subst hbb
        have hcb : c.stateOf b' = new := by rw [hc, update_self]
        obtain ⟨v', hv', hok', hd⟩ := hg.granted v hv
        rcases hsrv.other b' hbu v' hv' with h | ⟨h, hw⟩
        · exact ⟨_, h.setCache hcb, hok', fun hvd => .inl (hd hvd)⟩
        · refine ⟨_, h.setCache hcb, hok'.lose, fun hvd => ?_⟩
          rcases Block.dirty_of_lost (v := v'.setL1 i new) hw (hd hvd) with h | h
          · exact .inl h
          · exact .inr (.inl (List.mem_append_left _ h))
      · -- any other block, which the shared cache may lose twice
        have hcb : c.stateOf b' = (s'.l1 i).stateOf b' := by
          rw [hc, update_of_ne hbb, update_of_ne hbu]
        have hset : ∀ x, q.1.Shows b' x →
            System.Shows { q.1 with l1 := update q.1.l1 i c } b' x := by
          intro x hx
          have := hx.setCache (i := i) (c := c) (by rw [hcb, ← hsrv.l1, hx.l1 i])
          rwa [Block.setL1, update_eq_self] at this
        rcases hg.other b' hbb v hv with h | ⟨h, hw⟩
        · rcases hsrv.other b' hbu v h with h' | ⟨h', hw'⟩
          · exact ⟨v, hset v h', hvok, fun hvd => .inl hvd⟩
          · refine ⟨_, hset _ h', hvok.lose, fun hvd => ?_⟩
            rcases Block.dirty_of_lost hw' hvd with h | h
            · exact .inl h
            · exact .inr (.inl (List.mem_append_left _ h))
        · have hlose : (v.setL2 invalid).setL2 invalid = v.setL2 invalid := rfl
          refine ⟨v.setL2 invalid, hset _ ?_, hvok.lose, fun hvd => ?_⟩
          · rcases hsrv.other b' hbu _ h with h' | ⟨h', -⟩
            · exact h'
            · exact hlose ▸ h'
          · rcases Block.dirty_of_lost hw hvd with h | h
            · exact .inl h
            · exact .inr (.inl (List.mem_append_right _ h))
    · simp only [l1Ports, update_self, hc]

/-! ### Requests of the cores -/

theorem evolves_of_hit {c : StdCache (cfg.l1 i)} (hc : c.stateOf = (s.l1 i).stateOf) :
    Evolves s { s with l1 := update s.l1 i c } [] fun _ _ => False :=
  ⟨rfl, rfl, fun _ v hv hvok => ⟨v, hv.setCache_same hc, hvok, .inl⟩⟩

theorem evolves_of_writeHit {c : StdCache (cfg.l1 i)}
    (hx : (s.l1 i).stateOf b = modified ∨ (s.l1 i).stateOf b = exclusive)
    (hc : c.stateOf = update (s.l1 i).stateOf b modified) :
    Evolves s { s with l1 := update s.l1 i c } [] fun _ _ => False := by
  refine ⟨rfl, rfl, fun b' v hv hvok => ?_⟩
  by_cases hb : b' = b
  · subst hb
    refine ⟨_, hv.setCache (x := modified) (by rw [hc, update_self]),
      hvok.write (hv.l1 i ▸ hx), fun _ => .inl (.inl ⟨i, update_self ..⟩)⟩
  · have := hv.setCache (i := i) (c := c) (x := v.l1 i)
      (by rw [hc, update_of_ne hb, hv.l1])
    rw [Block.setL1, update_eq_self] at this
    exact ⟨v, this, hvok, .inl⟩

/-- **What a request of a core does**: the blocks evolve, except that a
non-allocating store may lose dirty data; and a request that writes leaves the
block dirty, unless it is a store that went to memory. -/
def Completes (s : System cfg) (i a : ℕ) (op : Op) (s' : System cfg) : Prop :=
  ∃ ext, Evolves s s' ext (fun b v => op = .nonAllocatingStore ∧ b = cfg.blockOf a ∧
      v.l1 i = invalid ∧ v.l2 = invalid ∧ v.DirtyAbove) ∧
    (IsWrite op.type → (∃ v, s'.Shows (cfg.blockOf a) v ∧ v.Dirty) ∨
      op = .nonAllocatingStore ∧ ⟨nonAllocatingStoreReq, a⟩ ∈ ext)

theorem Evolves.mono {ext : List MemoryMessage} {exc exc' : ℕ → Block → Prop}
    (h : Evolves s s' ext exc) (hexc : ∀ b v, exc b v → exc' b v) : Evolves s s' ext exc' :=
  ⟨h.dma, h.sent, fun b v hv hvok => by
    obtain ⟨v', hv', hok', hd⟩ := h.block b v hv hvok
    exact ⟨v', hv', hok', fun hvd => (hd hvd).imp id (Or.imp id (hexc b v))⟩⟩

theorem completes_of_evolves {a : ℕ} {op : Op} (hok : s.Ok) {new : CoherenceState}
    (h : (∃ ext, Evolves s s' ext fun _ _ => False) ∧
      (s'.l1 i).stateOf (cfg.blockOf a) = new)
    (hw : IsWrite op.type → new = modified) : Completes s i a op s' := by
  obtain ⟨⟨ext, hev⟩, hnew⟩ := h
  refine ⟨ext, hev.mono fun _ _ hf => hf.elim, fun hwr => .inl ?_⟩
  obtain ⟨v, hv, hvok⟩ := hok (cfg.blockOf a)
  obtain ⟨v', hv', -⟩ := hev.block _ v hv hvok
  exact ⟨v', hv', .inl ⟨i, by rw [← hv'.l1, hnew, hw hwr]⟩⟩

/-- The exception of a non-allocating store, as an evolution. -/
theorem completes_of_stores {a : ℕ} {c : StdCache (cfg.l1 i)} {resp : MemoryMessageType}
    (hc : c.stateOf = (s.l1 i).stateOf) (hs : s.Shows (cfg.blockOf a) v)
    (hx : v.l1 i = invalid)
    (h : Answers i ⟨nonAllocatingStoreReq, a⟩ { s with l1 := update s.l1 i c }
      (fun _ v' ext => Stores cfg a v v' ext) (s', resp)) :
    Completes s i a .nonAllocatingStore s' := by
  obtain ⟨ext, v', hsrv, hsh, hst⟩ := h
  refine ⟨ext, ⟨hsrv.dma, hsrv.sent, fun b u hu huok => ?_⟩, fun _ => ?_⟩
  · by_cases hb : b = cfg.blockOf a
    · subst hb
      obtain rfl := hs.unique hu
      refine ⟨v', hsh, hst.ok, fun hd => ?_⟩
      by_cases hl2 : v.l2 = invalid
      · rcases hd with hd | hd
        · exact .inr (.inr ⟨rfl, rfl, hx, hl2, hd⟩)
        · rw [hl2] at hd
          cases hd
      · exact .inl (.inr (hst.dirty hl2))
    · rcases hsrv.other b hb u (hu.setCache_same hc) with h | ⟨h, hw⟩
      · exact ⟨u, h, huok, .inl⟩
      · exact ⟨_, h, huok.lose, fun hd => (Block.dirty_of_lost hw hd).imp id .inl⟩
  · rcases hst.written with h | h
    · exact .inl ⟨v', hsh, .inr h⟩
    · exact .inr ⟨rfl, h⟩

/-- **A read that hits** changes the order of the blocks at most. -/
theorem readHit_spec (a : ℕ) (op : Op) (hop : op.type = loadReq ∨ op.type = fetchReq)
    (hv : s.Shows (cfg.blockOf a) v) (hvok : v.Ok (2 * cfg.cmpWidth)) (hx : v.l1 i ≠ invalid) :
    Ends (IndexFault cfg) (l1RequestIn i s ⟨op.type, a⟩) fun q => Completes s i a op q.1 := by
  obtain ⟨c, resp, hreq, hc⟩ := requestIn_readHit (@l1Ports_top cfg (processRequest i) i)
    (rfl : (cfg.l1Config i).usingTraces = false) s a hop
    (by rw [getTag_l1]; exact hv.l1 i ▸ hvok.mesi i)
    (by rw [getTag_l1]; exact fun h => hx ((hv.l1 i).symm.trans h))
  rw [l1RequestIn, hreq]
  refine ⟨[], (evolves_of_hit hc).mono fun _ _ hf => hf.elim, fun hwrite => ?_⟩
  rcases hop with hop | hop <;> rw [hop] at hwrite <;> rcases hwrite with h | h | h | h <;> cases h

section Core

variable (hok : s.Ok) (hi : i < 2 * cfg.cmpWidth) (a : ℕ)

include hok hi

theorem load_spec (heven : i % 2 = 0) :
    Ends (IndexFault cfg) (l1RequestIn i s ⟨loadReq, a⟩) fun q =>
      Completes s i a .load q.1 := by
  have htop := @l1Ports_top cfg (processRequest i) i
  obtain ⟨v, hv, hvok⟩ := hok (cfg.blockOf a)
  by_cases hx : v.l1 i = invalid
  · refine requestIn_loadMiss htop rfl rfl s a (by rw [getTag_l1]; exact (hv.l1 i).trans hx)
      fun c hc => ?_
    refine (read_spec hvok (hv.setCache_same hc) hi heven hx).mono ?_
    rintro q ⟨ext, v', hsrv, hsh, hfill, hgok, hgd⟩
    obtain ⟨hl1, ext', hg⟩ := granted_of_answers (loadFill q.2) hc hv
      ⟨ext, v', hsrv, hsh, hgok, hgd⟩
    rw [getTag_l1]
    exact ⟨hl1, hfill, (fills_of_granted hok hg).mono fun _ hs =>
      completes_of_evolves hok hs (by rintro (h | h | h | h) <;> cases h)⟩
  · exact readHit_spec a .load (.inl rfl) hv hvok hx

theorem fetchIn_spec :
    Ends (IndexFault cfg) (l1RequestIn i s ⟨fetchReq, a⟩) fun q =>
      Completes s i a .fetch q.1 := by
  have htop := @l1Ports_top cfg (processRequest i) i
  obtain ⟨v, hv, hvok⟩ := hok (cfg.blockOf a)
  by_cases hx : v.l1 i = invalid
  · refine requestIn_fetchMiss htop rfl rfl s a (by rw [getTag_l1]; exact (hv.l1 i).trans hx)
      fun c hc => ?_
    refine (fetch_spec hvok (hv.setCache_same hc) hi hx).mono ?_
    rintro q ⟨ext, v', hsrv, hsh, hgs⟩
    obtain ⟨hl1, ext', hg⟩ := granted_of_answers shared hc hv
      ⟨ext, v', hsrv, hsh, hgs.ok, hgs.dirty⟩
    rw [getTag_l1]
    exact ⟨hl1, by rw [hgs.resp_eq]; nofun, (fills_of_granted hok hg).mono fun _ hs =>
      completes_of_evolves hok hs (by rintro (h | h | h | h) <;> cases h)⟩
  · exact readHit_spec a .fetch (.inr rfl) hv hvok hx

theorem writeIn_spec (heven : i % 2 = 0) (op : Op) (hop : IsWrite op.type) :
    Ends (IndexFault cfg) (l1RequestIn i s ⟨op.type, a⟩) fun q =>
      Completes s i a op q.1 := by
  have htop := @l1Ports_top cfg (processRequest i) i
  obtain ⟨v, hv, hvok⟩ := hok (cfg.blockOf a)
  have hhit : (s.l1 i).stateOf (cfg.blockOf a) = modified ∨
      (s.l1 i).stateOf (cfg.blockOf a) = exclusive →
      Ends (IndexFault cfg) (l1RequestIn i s ⟨op.type, a⟩) fun q =>
        Completes s i a op q.1 := by
    intro hx
    obtain ⟨c, resp, hreq, hc⟩ := requestIn_writeHit htop
      (rfl : (cfg.l1Config i).usingTraces = false) s a hop (by rw [getTag_l1]; exact hx)
    rw [getTag_l1] at hc
    rw [l1RequestIn, hreq]
    refine completes_of_evolves hok
      ⟨⟨[], evolves_of_writeHit hx hc⟩, (?_ : _ = modified)⟩ fun _ => rfl
    simp only [l1Ports, update_self]
    rw [hc, update_self]
  rcases hvok.mesi i with hx | hx | hx | hx
  · exact hhit (.inl ((hv.l1 i).trans hx))
  · exact hhit (.inr ((hv.l1 i).trans hx))
  · refine requestIn_upgrade rfl s a hop (by rw [getTag_l1]; exact (hv.l1 i).trans hx)
      fun c hc => ?_
    refine (upgrade_spec hvok (hv.setCache_same hc) hi heven hx).mono ?_
    rintro q ⟨ext, v', hsrv, hsh, hgok⟩
    obtain ⟨hl1, ext', hg⟩ := granted_of_answers modified hc hv
      ⟨ext, v', hsrv, hsh, hgok, fun _ => .inl ⟨i, update_self ..⟩⟩
    refine ⟨hl1, fun c' hc' => ?_⟩
    rw [getTag_l1] at hc'
    refine completes_of_evolves hok ((fills_of_granted hok hg).direct c' ?_) fun _ => rfl
    rw [hc']
    exact congrArg (fun f => update f _ _) hg.self.symm
  · by_cases hnas : op = .nonAllocatingStore
    · subst hnas
      refine requestIn_nonAllocatingStoreMiss rfl s a
        (by rw [getTag_l1]; exact (hv.l1 i).trans hx) fun c hc => ?_
      refine (nonAllocatingStore_spec hvok (hv.setCache_same hc) hx).mono fun q hq => ?_
      exact completes_of_stores hc hv hx hq
    · have hop' : op.type = storeReq ∨ op.type = rmwReq ∨ op.type = cmpxReq := by
        cases op with
        | store => exact .inl rfl
        | rmw => exact .inr (.inl rfl)
        | cmpx => exact .inr (.inr rfl)
        | nonAllocatingStore => exact absurd rfl hnas
        | load => rcases hop with h | h | h | h <;> cases h
        | fetch => rcases hop with h | h | h | h <;> cases h
      refine requestIn_storeMiss htop rfl rfl s a
        (by rw [getTag_l1]; exact (hv.l1 i).trans hx) hop' fun c hc => ?_
      refine (write_spec hvok (hv.setCache_same hc) hi heven hx).mono ?_
      rintro q ⟨ext, v', hsrv, hsh, hgok⟩
      obtain ⟨hl1, ext', hg⟩ := granted_of_answers modified hc hv
        ⟨ext, v', hsrv, hsh, hgok, fun _ => .inl ⟨i, update_self ..⟩⟩
      rw [getTag_l1]
      exact ⟨hl1, (fills_of_granted hok hg).mono fun _ hs =>
        completes_of_evolves hok hs fun _ => rfl⟩

end Core

/-! ### Snoops of the DMA side -/

/-- The block after a sweep over some of its sharers. -/
def Block.swept (v : Block) (t : MemoryMessageType) (L : List ℕ) : Block where
  l1 := fun j => if j ∈ L then snoopNext (v.l1 j) t else v.l1 j
  l2 := v.l2
  sharers := if t = invalidate then v.sharers.filter (· ∉ L) else v.sharers

/-- **The sweep over the sharers** of a block: every one of them is snooped, and a
dirty one says so. -/
theorem dmaLoop_spec {m : MemoryMessage} (ht : IsSnoop m.type) (L : List ℕ) (hnd : L.Nodup)
    (hL : ∀ j ∈ L, j ∈ v.sharers ∧ IsMESI (v.l1 j) ∧ v.l1 j ≠ invalid)
    (hs : s.Shows (cfg.blockOf m.address) v) :
    ∃ s' reps, dmaLoop m (cfg.blockOf m.address) L s = .ok s' ∧
      s'.Shows (cfg.blockOf m.address) (v.swept m.type L) ∧
      s'.sent = s.sent ∧ s'.dmaReplies = reps ++ s.dmaReplies ∧
      (∀ j ∈ L, v.l1 j = modified →
        ⟨snoopReply modified m.type, cfg.blockOf m.address⟩ ∈ reps) ∧
      ∀ b', b' ≠ cfg.blockOf m.address → ∀ w, s.Shows b' w → s'.Shows b' w := by
  induction L generalizing s v with
  | nil =>
    refine ⟨s, [], rfl, hs.congr (by simp [Block.swept]) rfl ?_, rfl, rfl, by simp,
      fun _ _ _ h => h⟩
    simp [Block.swept]
  | cons j L ih =>
    obtain ⟨hjL, hnd'⟩ := List.nodup_cons.mp hnd
    obtain ⟨hj, hjm, hjv⟩ := hL j (List.mem_cons_self ..)
    obtain ⟨s1, d, hso, hd, hsh, hfr⟩ := snoop_sharer hs hj hjm hjv ht
    have hfr := hfr (j + 1) (by omega)
    have hL' : ∀ k ∈ L, k ∈ (v.snooped j m.type).sharers ∧
        IsMESI ((v.snooped j m.type).l1 k) ∧ (v.snooped j m.type).l1 k ≠ invalid := by
      intro k hk
      have hkj : k ≠ j := fun hc => hjL (hc ▸ hk)
      obtain ⟨hks, hkm, hkv⟩ := hL k (List.mem_cons_of_mem _ hk)
      simp only [Block.snooped, update_of_ne hkj]
      refine ⟨?_, hkm, hkv⟩
      split
      · exact Finset.mem_erase.mpr ⟨hkj, hks⟩
      · exact hks
    obtain ⟨s', reps, hloop, hsh', hsent, hdma, hreps, hoth⟩ := ih hnd' hL'
      (s := { s1 with
        theDirectory := d
        dmaReplies := ⟨snoopReply (v.l1 j) m.type, cfg.blockOf m.address⟩ :: s1.dmaReplies })
      ⟨hsh.l1, hsh.l2, hsh.dir⟩
    refine ⟨s', reps ++ [⟨snoopReply (v.l1 j) m.type, cfg.blockOf m.address⟩], ?_,
      hsh'.congr (fun k => ?_) rfl ?_, hsent.trans hfr.sent, ?_, fun k hk hkm => ?_,
      fun b' hb' w hw => ?_⟩
    · simp only [dmaLoop, hso, bind, Except.bind, hd]
      exact hloop
    · simp only [Block.swept, Block.snooped, List.mem_cons]
      by_cases hkj : k = j
      · subst hkj
        simp [hjL]
      · simp [hkj]
    · simp only [Block.swept, Block.snooped]
      split
      · ext k
        simp only [Finset.mem_filter, Finset.mem_erase, List.mem_cons, not_or]
        exact ⟨fun h => ⟨h.1.2, h.1.1, h.2⟩, fun h => ⟨⟨h.2.1, h.1⟩, h.2.2⟩⟩
      · rfl
    · have hd1 : s1.dmaReplies = s.dmaReplies := hfr.dma
      rw [hdma, hd1, List.append_assoc]
      rfl
    · rcases List.mem_cons.mp hk with rfl | hk
      · rw [hkm]
        simp
      · have hkj : k ≠ j := fun hc => hjL (hc ▸ hk)
        refine List.mem_append_left _ (hreps k hk ?_)
        simp only [Block.snooped, update_of_ne hkj, hkm]
    · have hw' := hfr.other b' hb' w hw
      exact hoth b' hb' w ⟨hw'.l1, hw'.l2, hw'.dir⟩

/-- The replies by which a private cache gives dirty data away. -/
def isDirtyReply (t : MemoryMessageType) : Prop := t = invUpdateAck ∨ t = downUpdateAck

/-- **What a snoop of the DMA side does**: the blocks evolve, and dirty data is
handed over to the DMA side – except that of the shared cache. -/
structure Swept (s s' : System cfg) (b : ℕ) (reps : List MemoryMessage) : Prop where
  sent : s'.sent = s.sent
  dma : s'.dmaReplies = reps ++ s.dmaReplies
  block : ∀ b' v, s.Shows b' v → v.Ok (2 * cfg.cmpWidth) → ∃ v', s'.Shows b' v' ∧
    v'.Ok (2 * cfg.cmpWidth) ∧ (v.Dirty → v'.Dirty ∨ (∃ r ∈ reps, isDirtyReply r.type ∧
      r.address = b') ∨ b' = b ∧ v.l2 = modified)

theorem records_of_none {d : InfiniteDirectory} {S : Finset ℕ} (h : d.Records b S)
    (hn : d b = none) : S = ∅ := by
  have := h.sharers_eq
  rw [InfiniteDirectory.lookup, hn] at this
  exact this.symm

theorem System.Shows.setL2 {c : StdCache cfg.l2} {x : CoherenceState} (h : s.Shows b v)
    (hc : c.stateOf b = x) : System.Shows { s with l2 := c } b (v.setL2 x) :=
  ⟨h.l1, hc, h.dir⟩

/-- The state of a block in the shared cache after a DMA access. -/
def dmaNext (t : MemoryMessageType) (x : CoherenceState) : CoherenceState :=
  if t = downgrade then (if x = modified then exclusive else x) else invalid

theorem stateOf_dmaArray {c : StdCache cfg.l2} {r : LookupResult cfg.l2} {e : BlockEntry}
    (hres : c.Resolves r e) (t : MemoryMessageType) :
    (dmaArray t c r).stateOf =
      update c.stateOf r.theAddress (dmaNext t (c.stateOf r.theAddress)) := by
  have hch : ∀ x, c.stateOf r.theAddress ≠ invalid → (c.changeState r x false false).stateOf =
      update c.stateOf r.theAddress x :=
    fun x hv => StdCache.stateOf_changeState hres (hres.tag_eq hv) x false false
  rw [dmaArray, dmaNext, hres.getState_eq]
  split
  · by_cases hm : c.stateOf r.theAddress = modified
    · rw [if_pos hm, if_pos hm, hch _ (by rw [hm]; nofun)]
    · rw [if_neg hm, if_neg hm, update_eq_self]
  · by_cases hv : c.stateOf r.theAddress = invalid
    · rw [if_neg (not_not.mpr hv), ← hv, update_eq_self]
    · rw [if_pos hv, hch _ hv]

/-- After a sweep with a downgrade every copy that was swept is shared. -/
theorem swept_downgrade_ok (h : v.Ok (2 * cfg.cmpWidth)) {y : CoherenceState} (hy : IsMESI y)
    (hyl : y = modified ∨ y = shared → v.l2 = modified ∨ v.l2 = shared) {L : List ℕ}
    (hL : ∀ j, j ∈ L ↔ j ∈ v.sharers) :
    ((v.setL2 y).swept downgrade L).Ok (2 * cfg.cmpWidth) := by
  have heq : (v.setL2 y).swept downgrade L = v.share.setL2 y := by
    have hl1 : ((v.setL2 y).swept downgrade L).l1 = v.share.l1 := by
      funext j
      simp only [Block.swept, Block.setL2, Block.share, snoopNext, hL, h.mem_sharers]
      by_cases hj : v.l1 j = invalid <;> simp [hj]
    simp only [Block.swept, Block.setL2, Block.share] at hl1 ⊢
    rw [hl1]
    rfl
  rw [heq]
  exact h.share.setL2 hy hyl

theorem swept_invalidate_ok (h : v.Ok (2 * cfg.cmpWidth)) {L : List ℕ}
    (hL : ∀ j, j ∈ L ↔ j ∈ v.sharers) :
    ((v.setL2 invalid).swept invalidate L).Ok (2 * cfg.cmpWidth) := by
  have hall : ∀ j, ((v.setL2 invalid).swept invalidate L).l1 j = invalid := by
    intro j
    simp only [Block.swept, Block.setL2, snoopNext, hL, h.mem_sharers]
    by_cases hj : v.l1 j = invalid <;> simp [hj]
  have hsh : ((v.setL2 invalid).swept invalidate L).sharers = ∅ := by
    refine Finset.eq_empty_of_forall_notMem fun j hj => ?_
    simp only [Block.swept, if_true, Block.setL2, Finset.mem_filter, hL] at hj
    exact hj.2 hj.1
  have := Block.Ok.clear (n := 2 * cfg.cmpWidth) hall (.inr (.inr (.inr rfl)) : IsMESI invalid)
  rwa [Block.setSharers, ← hsh] at this

/-- **A snoop of the DMA side never fails.** -/
theorem dma_spec (hok : s.Ok) (op : DmaOp) (a : ℕ) :
    ∃ s' reps, snoopIn s ⟨op.type, a⟩ = .ok s' ∧ Swept s s' (cfg.blockOf a) reps := by
  obtain ⟨v, hv, hvok⟩ := hok (cfg.blockOf a)
  obtain ⟨hst, haddr, e, hres⟩ := s.l2.lookup_spec (cfg.blockOf a)
  rw [getTag_l2, blockOf_blockOf] at haddr
  have hop : ¬(op.type ≠ downgrade ∧ op.type ≠ invalidate) := by
    cases op
    · exact fun h => h.1 rfl
    · exact fun h => h.2 rfl
  have hsnoop : IsSnoop op.type := by
    cases op
    · exact .inr (.inr rfl)
    · exact .inr (.inl rfl)
  -- the array of the shared cache
  have harr := stateOf_dmaArray hres op.type
  rw [hst, haddr, hv.l2] at harr
  set c := dmaArray op.type (s.l2.lookup (cfg.blockOf a)).1 (s.l2.lookup (cfg.blockOf a)).2
  have hs1 : System.Shows { s with l2 := c } (cfg.blockOf a)
      (v.setL2 (dmaNext op.type v.l2)) := hv.setL2 (by rw [harr, update_self])
  have hoth1 : ∀ b', b' ≠ cfg.blockOf a → ∀ w, s.Shows b' w →
      System.Shows { s with l2 := c } b' w := fun b' hb' w hw =>
    ⟨hw.l1, by rw [harr, update_of_ne hb', hw.l2], hw.dir⟩
  have hnext : IsMESI (dmaNext op.type v.l2) ∧ (dmaNext op.type v.l2 = modified ∨
      dmaNext op.type v.l2 = shared → v.l2 = modified ∨ v.l2 = shared) := by
    rcases hvok.mesi_l2 with h | h | h | h <;> cases op <;> simp [h, dmaNext, DmaOp.type, IsMESI]
  -- the block when the sweep is not needed
  have hstop : (∀ j, v.l1 j = invalid ∨ v.l1 j = shared) →
      Swept s { s with l2 := c } (cfg.blockOf a) [] := by
    refine fun hall => ⟨rfl, rfl, fun b' u hu huok => ?_⟩
    by_cases hb : b' = cfg.blockOf a
    · subst hb
      obtain rfl := hv.unique hu
      refine ⟨_, hs1, hvok.setL2 hnext.1 hnext.2, fun hd => ?_⟩
      rcases hd with hd | hd
      · exact absurd hd (Block.not_dirtyAbove hall)
      · exact .inr (.inr ⟨rfl, hd⟩)
    · exact ⟨u, hoth1 b' hb u hu, huok, .inl⟩
  simp only [snoopIn, if_neg hop]
  by_cases hmany : op.type = downgrade ∧ 1 < (s.theDirectory.lookup (cfg.blockOf a)).1.countSharers
  · rw [if_pos hmany]
    have hc := hmany.2
    rw [SharingVector.countSharers, hv.dir.sharers_eq] at hc
    exact ⟨_, [], rfl, hstop (hvok.invalid_or_shared hc)⟩
  rw [if_neg hmany]
  by_cases hval : (s.theDirectory (cfg.blockOf a)).isSome = true
  · rw [if_neg (not_not.mpr hval)]
    have hL : ∀ j, j ∈ (s.theDirectory.lookup (cfg.blockOf a)).1.toList ↔ j ∈ v.sharers := by
      intro j
      rw [SharingVector.mem_toList, hv.dir.sharers_eq]
    obtain ⟨s', reps, hloop, hsh, hsent, hdma, hreps, hoth⟩ := dmaLoop_spec
      (m := ⟨op.type, a⟩) (v := v.setL2 (dmaNext op.type v.l2)) hsnoop _
      SharingVector.nodup_toList
      (fun j hj => ⟨(hL j).mp hj, hvok.mesi j, (hvok.mem_sharers j).mp ((hL j).mp hj)⟩) hs1
    refine ⟨s', reps, hloop, hsent, hdma, fun b' u hu huok => ?_⟩
    by_cases hb : b' = cfg.blockOf a
    · subst hb
      obtain rfl := hv.unique hu
      refine ⟨_, hsh, ?_, fun hd => ?_⟩
      · cases op
        · exact swept_downgrade_ok hvok hnext.1 hnext.2 hL
        · exact swept_invalidate_ok hvok hL
      · rcases hd with ⟨j, hj⟩ | hd
        · refine .inr (.inl ⟨_, hreps j ((hL j).mpr ((hvok.mem_sharers j).mpr ?_)) hj, ?_, rfl⟩)
          · rw [hj]
            decide
          · cases op
            · exact .inr rfl
            · exact .inl rfl
        · exact .inr (.inr ⟨rfl, hd⟩)
    · exact ⟨u, hoth b' hb u (hoth1 b' hb u hu), huok, .inl⟩
  · rw [if_pos hval]
    refine ⟨_, [], rfl, hstop fun j => .inl ?_⟩
    have hn : s.theDirectory (cfg.blockOf a) = none := by simpa using hval
    refine hvok.invalid_of_card ?_ j
    rw [records_of_none hv.dir hn, Finset.card_empty]

/-! ### The machine -/

theorem System.init_ok : (System.init cfg).Ok := by
  refine fun b => ⟨⟨fun _ => invalid, invalid, ∅⟩, ⟨fun i => ?_, ?_, ⟨rfl, rfl⟩⟩, ?_⟩
  · exact StdCache.stateOf_empty b
  · exact StdCache.stateOf_empty b
  · exact Block.Ok.clear (v := ⟨fun _ => invalid, invalid, ∅⟩) (fun _ => rfl)
      (.inr (.inr (.inr rfl)))

theorem Completes.ok {a : ℕ} {op : Op} (hok : s.Ok) (h : Completes s i a op s') : s'.Ok := by
  obtain ⟨ext, hev, -⟩ := h
  intro b
  obtain ⟨v, hv, hvok⟩ := hok b
  obtain ⟨v', hv', hok', -⟩ := hev.block b v hv hvok
  exact ⟨v', hv', hok'⟩

theorem Swept.ok {reps : List MemoryMessage} (hok : s.Ok) (h : Swept s s' b reps) : s'.Ok := by
  intro b'
  obtain ⟨v, hv, hvok⟩ := hok b'
  obtain ⟨v', hv', hok', -⟩ := h.block b' v hv hvok
  exact ⟨v', hv', hok'⟩

/-- **A request of a core**, of any kind. -/
theorem core_spec (hok : s.Ok) (c : Fin cfg.cmpWidth) (op : Op) (a : ℕ) :
    Ends (IndexFault cfg) (step s (.core c op a)) fun s' =>
      Completes s (op.cache c) a op s' := by
  have hc := c.isLt
  have hdata : (2 * (c : ℕ)) % 2 = 0 := by omega
  have hreq : Ends (IndexFault cfg) (l1RequestIn (op.cache c) s ⟨op.type, a⟩) fun q =>
      Completes s (op.cache c) a op q.1 := by
    have hi : 2 * (c : ℕ) < 2 * cfg.cmpWidth := by omega
    cases op with
    | load => exact load_spec hok hi a hdata
    | fetch => exact fetchIn_spec (i := 2 * (c : ℕ) + 1) hok (by omega) a
    | store => exact writeIn_spec hok hi a hdata .store (.inl rfl)
    | rmw => exact writeIn_spec hok hi a hdata .rmw (.inr (.inl rfl))
    | cmpx => exact writeIn_spec hok hi a hdata .cmpx (.inr (.inr (.inl rfl)))
    | nonAllocatingStore =>
      exact writeIn_spec hok hi a hdata .nonAllocatingStore (.inr (.inr (.inr rfl)))
  exact hreq.bind fun q hq => hq

/-- **Every event keeps the invariant**, and can only fail for want of room in the
sharing vector. -/
theorem step_ok (hok : s.Ok) (e : Event cfg) :
    Ends (IndexFault cfg) (step s e) System.Ok := by
  cases e with
  | core c op a => exact (core_spec hok c op a).mono fun _ h => h.ok hok
  | dma op a =>
    obtain ⟨s', reps, hs', hsw⟩ := dma_spec hok op a
    rw [step, hs']
    exact hsw.ok hok

theorem reachable_ok (h : (machine cfg).Reachable s) : s.Ok :=
  Machine.ReachableWhen.invariant (I := System.Ok) System.init_ok
    (fun _ e _ hok _ hstep => (step_ok hok e).of_ok hstep) h

/-- The sharing state a directory entry should be in. -/
def AgreesWith (state : SharingState) (count : ℕ) : Prop :=
  (state = .zeroSharers ↔ count = 0) ∧ (state = .oneSharer ↔ count = 1) ∧
    (state = .manySharers ↔ 2 ≤ count)

/-- **Single writer, multiple readers, and an exact directory**: in every reachable
state and for every block, a modified or exclusive private copy is the only one,
and the recorded sharers are exactly the private caches that hold the block. -/
theorem swmr_and_directory_exact (cfg : Config) (s : System cfg)
    (h : (machine cfg).Reachable s) (b : ℕ) :
    (∀ i j, i < 2 * cfg.cmpWidth → j < 2 * cfg.cmpWidth → i ≠ j →
      (s.l1 i).stateOf b = modified ∨ (s.l1 i).stateOf b = exclusive →
        (s.l1 j).stateOf b = invalid) ∧
    (∀ i, i ∈ (s.theDirectory.lookup b).1.sharers ↔
      i < 2 * cfg.cmpWidth ∧ ((s.l1 i).stateOf b).isValid = true) ∧
    AgreesWith (s.theDirectory.lookup b).2 (s.theDirectory.lookup b).1.countSharers := by
  obtain ⟨v, hv, hok⟩ := reachable_ok h b
  refine ⟨fun i j _ _ hij hi => ?_, fun i => ?_, ?_⟩
  · rw [hv.l1] at hi ⊢
    exact hok.single i j hij hi
  · rw [hv.dir.sharers_eq, hok.mem_sharers, hv.l1, CoherenceState.isValid_iff]
    exact ⟨fun hi => ⟨hok.lt i hi, hi⟩, fun hi => hi.2⟩
  · rw [SharingVector.countSharers, hv.dir.sharers_eq, hv.dir.state_eq]
    exact ⟨sharingOf_eq_zero, sharingOf_eq_one, sharingOf_eq_many⟩

/-- After a store the writer has the only copy, and is the only sharer. -/
theorem swmr_and_directory_exact_after_store : ∃ s : System (small 2),
    (machine (small 2)).Reachable s ∧ (s.l1 0).stateOf 0 = modified ∧
      (s.l1 2).stateOf 0 = invalid ∧ 0 ∈ (s.theDirectory.lookup 0).1.sharers := by
  obtain ⟨s, hs, h0⟩ : ∃ s, (machine (small 2)).run [.core ⟨0, by decide⟩ .store 0] = .ok s ∧
      (s.l1 0).stateOf 0 = modified := ⟨_, rfl, rfl⟩
  have hr := Machine.reachable_of_run hs
  obtain ⟨hsw, hdir, -⟩ := swmr_and_directory_exact (small 2) s hr 0
  refine ⟨s, hr, h0, hsw 0 2 (by decide) (by decide) (by decide) (.inl h0), ?_⟩
  rw [hdir, h0]
  decide

/-- **No assertion fails**: whatever the cores and the DMA side do, a run can only
stop because a private cache has an index that does not fit in the sharing vector –
and that takes more private caches than the vector has bits. No lookup meets a
poisoned or missing entry of a protocol table, no combination of snoop replies is
unknown, no request or response is unexpected, and every exclusive sharer is the
only one. -/
theorem fault_only_sharerIndex (cfg : Config) (es : List (Event cfg)) (f : Fault)
    (h : (machine cfg).run es = .error f) :
    f = .sharerIndex ∧ maxNumSharers < 2 * cfg.cmpWidth :=
  Machine.fault_of_runFrom (I := System.Ok) (B := IndexFault cfg)
    (fun _ e _ hok hs => (step_ok hok e).of_ok hs)
    (fun _ e _ hok hs => (step_ok hok e).of_error hs) System.init_ok h

/-- With 257 cores the last data cache has index 512. -/
theorem fault_only_sharerIndex_257 :
    (machine (small 257)).run [.core ⟨256, by decide⟩ .load 0] = .error .sharerIndex ∧
      maxNumSharers < 2 * (small 257).cmpWidth :=
  have h : (machine (small 257)).run [.core ⟨256, by decide⟩ .load 0] =
    .error .sharerIndex := rfl
  ⟨h, (fault_only_sharerIndex (small 257) _ _ h).2⟩

end FastCMPCache

end Flexus
