import Flexus.FastCMPCache.Snooping

/-!
# Requests to the shared functional cache

What a request of a private cache does to the system, one kind of request at a
time. A request changes the block it is about as one row of the protocol table
says; of the other blocks it can only make the shared cache lose one – the entry
it needs may have held a valid block, which is then reported to memory. The array
of the requester itself is not touched: it is up to the requester to do something
with the reply.

The one thing that can go wrong is that the requester has an index that does not
fit in the sharing vector.
-/

namespace Flexus

open Function Lib

namespace FastCMPCache

open MemoryMessageType FastCache

variable {cfg : Config}

/-- The faults of a request: the index of the requester does not fit in the
sharing vector – which takes more private caches than the vector has bits. -/
def IndexFault (cfg : Config) (f : Fault) : Prop :=
  f = .sharerIndex ∧ maxNumSharers < 2 * cfg.cmpWidth

/-- **What a request leaves alone**: the requester's array, and every other block
– except that the shared cache may lose one, after writing it back if it was
modified. The list has the messages sent to memory, the newest first. -/
structure Serves (i b : ℕ) (s s' : System cfg) (ext : List MemoryMessage) : Prop where
  l1 : s'.l1 i = s.l1 i
  dma : s'.dmaReplies = s.dmaReplies
  sent : s'.sent = ext ++ s.sent
  other : ∀ b', b' ≠ b → ∀ w, s.Shows b' w → s'.Shows b' w ∨
    s'.Shows b' (w.setL2 .invalid) ∧ (w.l2 = .modified → ⟨evictDirty, b'⟩ ∈ ext)

/-! ### The end of a request -/

/-- **The update of the array**: the block gets its next state, and another block
may have to go for it. -/
theorem updateCache_spec {action : PrimaryAction} {useNs1 : Bool} {r : LookupResult cfg.l2}
    {s : System cfg} {e : BlockEntry} (hres : s.l2.Resolves r e) {ns : CoherenceState}
    (hns : (if useNs1 then action.nextState1 else action.nextState0) = ns)
    (hok : action.allocate = true ∨ ns = s.l2.stateOf r.theAddress ∨
      s.l2.stateOf r.theAddress ≠ .invalid) :
    ∃ c evs w, updateCache action useNs1 r s = .ok { s with l2 := c, sent := evs ++ s.sent } ∧
      c.stateOf = update (update s.l2.stateOf w .invalid) r.theAddress ns ∧
      (∀ m ∈ evs, m.type.isEvictType = true) ∧
      (w ≠ r.theAddress → s.l2.stateOf w = .modified → ⟨evictDirty, w⟩ ∈ evs) := by
  have hself : ∀ x : CoherenceState, update (update s.l2.stateOf r.theAddress
      .invalid) r.theAddress x = update s.l2.stateOf r.theAddress x :=
    fun x => update_idem ..
  simp only [updateCache, hns, hres.getState_eq]
  by_cases ha : action.allocate = true
  · rw [if_pos ha, StdCache.allocate, hres.block_eq]
    by_cases ht : e.tag = r.theAddress
    · -- the block has an entry already
      refine ⟨_, [], r.theAddress, by simp [ht]; rfl, ?_, by simp, fun hc => absurd rfl hc⟩
      have hch := StdCache.stateOf_changeState hres ht ns true false
      rw [hself]
      simpa [StdCache.changeState] using hch
    · obtain ⟨c, hrep, hcs⟩ := StdCache.replaceBlock_spec hres ht ns
      have hstate : s.l2.stateOf e.tag = e.state := by
        rw [StdCache.stateOf, (s.l2.wf _).isHome e hres.mem]
        exact BlockSet.stateOf_of_mem (s.l2.wf _).tags_nodup hres.mem
      by_cases hv : e.state = .invalid
      · refine ⟨c.updateLRU r, [], e.tag, ?_, ?_, by simp, fun _ hm => ?_⟩
        · simp [ht, hv, hrep, bind, Except.bind, pure, Except.pure]
        · rw [StdCache.stateOf_updateLRU, hcs]
        · rw [hstate, hv] at hm
          cases hm
      · refine ⟨c.updateLRU r, [⟨SingleCMPProtocol.evict e.state, e.tag⟩], e.tag, ?_, ?_, ?_,
          fun _ hm => ?_⟩
        · have hmem : fromCache (SingleCMPProtocol.evict e.state) =
              .ok (SingleCMPProtocol.evict e.state) := by
            rw [SingleCMPProtocol.evict]
            split <;> rfl
          simp [ht, hv, evict, requestOut, hmem, hrep, bind, Except.bind, pure, Except.pure]
        · rw [StdCache.stateOf_updateLRU, hcs]
        · intro m hm
          rw [List.mem_singleton] at hm
          rw [hm, SingleCMPProtocol.evict]
          split <;> rfl
        · rw [hstate] at hm
          simp [SingleCMPProtocol.evict, hm]
  · rw [if_neg ha]
    have hok := hok.resolve_left ha
    by_cases hsame : ns = s.l2.stateOf r.theAddress
    · rw [if_neg (not_not.mpr hsame)]
      have hup : s.l2.stateOf = update (update s.l2.stateOf r.theAddress
          .invalid) r.theAddress ns := by
        rw [hself, hsame, update_eq_self]
      split
      · exact ⟨_, [], r.theAddress, rfl, (StdCache.stateOf_updateLRU _ _).trans hup, by simp,
          fun hc => absurd rfl hc⟩
      · exact ⟨_, [], r.theAddress, rfl, hup, by simp, fun hc => absurd rfl hc⟩
    · have hv := hok.resolve_left hsame
      rw [if_pos hsame, if_neg hv]
      refine ⟨_, [], r.theAddress, rfl, ?_, by simp, fun hc => absurd rfl hc⟩
      rw [StdCache.stateOf_changeState hres (hres.tag_eq hv), hself]

theorem blockOf_blockOf (a : ℕ) : cfg.blockOf (cfg.blockOf a) = cfg.blockOf a := by
  rw [← getTag_l2, ← getTag_l2, Geometry.getTag_getTag]

/-- **What a row of the table needs**, and what it does: the snooping leads to the
block `v1`, the array gets the state `ns`, the directory the sharers `S'`. -/
structure Row (cfg : Config) (i : ℕ) (m : MemoryMessage) (action : PrimaryAction)
    (v v1 : Block) (resp : MemoryMessageType) (ns : CoherenceState) (S' : Finset ℕ)
    (success : Bool) : Prop where
  snoop_ok : ∀ (s : System cfg) (S : SharingVector), s.Shows (cfg.blockOf m.address) v →
    S.sharers = v.sharers →
    ∃ l, snoop action m (cfg.blockOf m.address) i S s = .ok l ∧
      l.sys.Shows (cfg.blockOf m.address) v1 ∧
      Frame i (cfg.blockOf m.address) s l.sys ∧ l.ourResponse = resp ∧
      (if l.useNs1 then action.nextState1 else action.nextState0) = ns ∧
      (action.snoopType ≠ noRequest && isTerminal action l.response) = success
  memory_ok : (!success && action.forwardRequest) = true → ∃ t, fromCache m.type = .ok t
  classify_ok : classify (!success && action.forwardRequest) success m.type = .ok ()
  directory_ok : ∀ d : InfiniteDirectory, d.Records (cfg.blockOf m.address) v1.sharers →
    Ends (IndexFault cfg)
      (d.processRequestResponse i m.type resp (cfg.blockOf m.address)) fun d' =>
      d'.Records (cfg.blockOf m.address) S' ∧ ∀ b', b' ≠ cfg.blockOf m.address → d' b' = d b'
  array_ok : action.allocate = true ∨ ns = v1.l2 ∨ v1.l2 ≠ .invalid

section Row

variable {i : ℕ} {m : MemoryMessage} {action : PrimaryAction} {v v1 : Block}
  {resp : MemoryMessageType} {ns : CoherenceState} {S' : Finset ℕ} {success : Bool}

theorem forward_spec (row : Row cfg i m action v v1 resp ns S' success) (s : System cfg) :
    forward (!success && action.forwardRequest) m s = .ok { s with
      sent := (if !success && action.forwardRequest then [m] else []) ++ s.sent } := by
  by_cases hacc : (!success && action.forwardRequest) = true
  · obtain ⟨t, ht⟩ := row.memory_ok hacc
    rw [forward, if_pos hacc, if_pos hacc, requestOut, ht]
    rfl
  · rw [forward, if_neg hacc, if_neg hacc]
    rfl

theorem finishRequest_spec (row : Row cfg i m action v v1 resp ns S' success)
    {l : Snooping cfg} (hsh : l.sys.Shows (cfg.blockOf m.address) v1)
    (hour : l.ourResponse = resp)
    (hns : (if l.useNs1 then action.nextState1 else action.nextState0) = ns)
    (hsucc : (action.snoopType ≠ noRequest && isTerminal action l.response) = success)
    {r : LookupResult cfg.l2} {e : BlockEntry} (hres : l.sys.l2.Resolves r e)
    (haddr : r.theAddress = cfg.blockOf m.address) :
    Ends (IndexFault cfg)
      (finishRequest i m (cfg.blockOf m.address) action r l) fun q => q.2 = resp ∧
      ∃ evs, (∀ x ∈ evs, x.type.isEvictType = true) ∧
        Serves i (cfg.blockOf m.address) l.sys q.1
          (evs ++ if !success && action.forwardRequest then [m] else []) ∧
        q.1.Shows (cfg.blockOf m.address) ((v1.setL2 ns).setSharers S') := by
  simp only [finishRequest, hsucc, forward_spec row, hour]
  refine (row.directory_ok _ hsh.dir).bind fun d ⟨hrec, hoth⟩ => ?_
  obtain ⟨c, evs, w, hup, hcs, hevs, hw⟩ := updateCache_spec
    (s := ⟨l.sys.l1, l.sys.l2, d,
      (if !success && action.forwardRequest then [m] else []) ++ l.sys.sent, l.sys.dmaReplies⟩)
    hres hns (by rw [haddr, hsh.l2]; exact row.array_ok)
  simp only [hup, row.classify_ok, bind, Except.bind]
  rw [haddr] at hcs hw
  refine ⟨rfl, evs, hevs, ⟨rfl, rfl, (List.append_assoc ..).symm, fun b' hb' x hx => ?_⟩,
    ⟨hsh.l1, ?_, hrec⟩⟩
  · have hl2 : c.stateOf b' = update l.sys.l2.stateOf w .invalid b' := by
      rw [hcs, update_of_ne hb']
    by_cases hwb : b' = w
    · subst hwb
      rw [update_self] at hl2
      refine .inr ⟨⟨hx.l1, hl2, records_congr (hoth b' hb') hx.dir⟩, fun hm => ?_⟩
      exact List.mem_append_left _ (hw hb' (hx.l2.trans hm))
    · rw [update_of_ne hwb] at hl2
      exact .inl ⟨hx.l1, hl2.trans hx.l2, records_congr (hoth b' hb') hx.dir⟩
  · exact (congrFun hcs _).trans (update_self ..)

/-- **A request follows its row.** -/
theorem processRequest_of_row {s : System cfg} (hs : s.Shows (cfg.blockOf m.address) v)
    (hact : SingleCMPProtocol.getAction v.l2 (sharingOf v.sharers.card) m.type = .ok action)
    (row : Row cfg i m action v v1 resp ns S' success) :
    Ends (IndexFault cfg) (processRequest i s m) fun q => q.2 = resp ∧
      ∃ evs, (∀ x ∈ evs, x.type.isEvictType = true) ∧
        Serves i (cfg.blockOf m.address) s q.1
          (evs ++ if !success && action.forwardRequest then [m] else []) ∧
        q.1.Shows (cfg.blockOf m.address) ((v1.setL2 ns).setSharers S') := by
  obtain ⟨hst, haddr, e, hres⟩ := s.l2.lookup_spec (cfg.blockOf m.address)
  rw [getTag_l2, blockOf_blockOf] at haddr
  have hget : (s.l2.lookup (cfg.blockOf m.address)).1.getState
      (s.l2.lookup (cfg.blockOf m.address)).2 = v.l2 := by
    rw [hres.getState_eq, hst, haddr, hs.l2]
  have hother : ∀ b' w, s.Shows b' w →
      System.Shows { s with l2 := (s.l2.lookup (cfg.blockOf m.address)).1 } b' w :=
    fun b' w hw => ⟨hw.l1, (congrFun hst b').trans hw.l2, hw.dir⟩
  obtain ⟨l, hl, hsh, hfr, hour, hns, hsucc⟩ :=
    row.snoop_ok _ _ (hother _ _ hs) hs.dir.sharers_eq
  simp only [processRequest, hget, hs.dir.state_eq, hact, bind, Except.bind, hl]
  have hres' : l.sys.l2.Resolves (s.l2.lookup (cfg.blockOf m.address)).2 e := by
    rw [hfr.l2]
    exact hres
  refine (finishRequest_spec row hsh hour hns hsucc hres' haddr).mono ?_
  rintro q ⟨hq, evs, hevs, hsrv, hq'⟩
  refine ⟨hq, evs, hevs, ⟨hsrv.l1.trans hfr.l1, hsrv.dma.trans hfr.dma, ?_, ?_⟩, hq'⟩
  · rw [hsrv.sent, hfr.sent]
  · exact fun b' hb' w hw => hsrv.other b' hb' w (hfr.other b' hb' w (hother b' w hw))

/-! ### Rows without and with snooping -/

theorem Row.quiet (ht : action.snoopType = noRequest)
    (hmem : action.forwardRequest = true → ∃ t, fromCache m.type = .ok t)
    (hcl : classify action.forwardRequest false m.type = .ok ())
    (hdir : ∀ d : InfiniteDirectory, d.Records (cfg.blockOf m.address) v.sharers →
      Ends (IndexFault cfg)
        (d.processRequestResponse i m.type action.response0 (cfg.blockOf m.address)) fun d' =>
        d'.Records (cfg.blockOf m.address) S' ∧
          ∀ b', b' ≠ cfg.blockOf m.address → d' b' = d b')
    (harr : action.allocate = true ∨ action.nextState0 = v.l2 ∨ v.l2 ≠ .invalid) :
    Row cfg i m action v v action.response0 action.nextState0 S' false where
  snoop_ok s S hs _ := by
    refine ⟨⟨s, noRequest, action.response0, false⟩, ?_, hs, Frame.refl _ _ _, rfl, rfl, ?_⟩
    · rw [snoop, if_pos ht]
    · simp [ht]
  memory_ok := by simpa using hmem
  classify_ok := by simpa using hcl
  directory_ok := hdir
  array_ok := harr

theorem Row.snooping {r : MemoryMessageType}
    (hsn : ∀ (s : System cfg) (S : SharingVector), s.Shows (cfg.blockOf m.address) v →
      S.sharers = v.sharers → ∃ l, snoop action m (cfg.blockOf m.address) i S s = .ok l ∧
        l.sys.Shows (cfg.blockOf m.address) v1 ∧
        Frame i (cfg.blockOf m.address) s l.sys ∧ Snooped action r l)
    (hresp : (if isSecond action r then action.response1 else action.response0) = resp)
    (hns : (if isSecond action r then action.nextState1 else action.nextState0) = ns)
    (hsucc : (action.snoopType ≠ noRequest && isTerminal action r) = success)
    (hmem : (!success && action.forwardRequest) = true → ∃ t, fromCache m.type = .ok t)
    (hcl : classify (!success && action.forwardRequest) success m.type = .ok ())
    (hdir : ∀ d : InfiniteDirectory, d.Records (cfg.blockOf m.address) v1.sharers →
      Ends (IndexFault cfg)
        (d.processRequestResponse i m.type resp (cfg.blockOf m.address)) fun d' =>
        d'.Records (cfg.blockOf m.address) S' ∧
          ∀ b', b' ≠ cfg.blockOf m.address → d' b' = d b')
    (harr : action.allocate = true ∨ ns = v1.l2 ∨ v1.l2 ≠ .invalid) :
    Row cfg i m action v v1 resp ns S' success where
  snoop_ok s S hs hS := by
    obtain ⟨l, hl, hsh, hfr, hr⟩ := hsn s S hs hS
    refine ⟨l, hl, hsh, hfr, hr.ourResponse_eq.trans hresp, ?_, ?_⟩
    · rw [hr.useNs1_eq, ← hns]
      by_cases hsec : isSecond action r <;> simp [hsec]
    · rw [hr.response_eq, ← hsucc]
  memory_ok := hmem
  classify_ok := hcl
  directory_ok := hdir
  array_ok := harr

end Row

/-! ### The directory after a request -/

section Directory

variable {d : InfiniteDirectory} {b i : ℕ} {S : Finset ℕ} {t : MemoryMessageType}

/-- The requests that are answered with the block. -/
def IsFetching (t : MemoryMessageType) : Prop := t = readReq ∨ t = writeReq ∨ t = fetchReq

theorem processRequestResponse_add (hi : i < 2 * cfg.cmpWidth) (ht : IsFetching t)
    (hr : d.Records b S) :
    Ends (IndexFault cfg) (d.processRequestResponse i t missReply b) fun d' =>
      d'.Records b (insert i S) ∧ ∀ b', b' ≠ b → d' b' = d b' := by
  have heq : d.processRequestResponse i t missReply b = d.addSharer i b := by
    rcases ht with rfl | rfl | rfl <;>
      simp only [InfiniteDirectory.processRequestResponse,
        InfiniteDirectory.processRequestResponseBase] <;>
      cases d.addSharer i b <;> rfl
  rw [heq]
  by_cases hb : i < maxNumSharers
  · obtain ⟨d', hd', h⟩ := InfiniteDirectory.addSharer_spec hr hb
    rw [hd']
    exact h
  · rw [InfiniteDirectory.addSharer_error hb]
    exact ⟨rfl, by omega⟩

theorem processRequestResponse_addExclusive (hi : i < 2 * cfg.cmpWidth) (ht : IsFetching t)
    {resp : MemoryMessageType} (hresp : resp = missReplyWritable ∨ resp = missReplyDirty)
    (hr : d.Records b ∅) :
    Ends (IndexFault cfg) (d.processRequestResponse i t resp b) fun d' =>
      d'.Records b {i} ∧ ∀ b', b' ≠ b → d' b' = d b' := by
  have heq : d.processRequestResponse i t resp b = d.addExclusiveSharer i b := by
    rcases ht with rfl | rfl | rfl <;> rcases hresp with rfl | rfl <;>
      simp only [InfiniteDirectory.processRequestResponse,
        InfiniteDirectory.processRequestResponseBase] <;>
      cases d.addExclusiveSharer i b <;> rfl
  rw [heq]
  by_cases hb : i < maxNumSharers
  · obtain ⟨d', hd', h⟩ := InfiniteDirectory.addExclusiveSharer_spec hr hb
    rw [hd']
    exact h
  · rw [InfiniteDirectory.addExclusiveSharer_error hb]
    exact ⟨rfl, by omega⟩

theorem processRequestResponse_upgrade (hr : d.Records b {i}) :
    Ends (IndexFault cfg)
      (d.processRequestResponse i upgradeReq upgradeReply b) fun d' =>
      d'.Records b {i} ∧ ∀ b', b' ≠ b → d' b' = d b' := by
  obtain ⟨d', hd', h⟩ := InfiniteDirectory.makeSharerExclusive_spec hr
  have heq : d.processRequestResponse i upgradeReq upgradeReply b = .ok d' := by
    simp only [InfiniteDirectory.processRequestResponse,
      InfiniteDirectory.processRequestResponseBase, hd']
    rfl
  rw [heq]
  exact h

theorem processRequestResponse_nonAllocatingStore (hr : d.Records b S) :
    Ends (IndexFault cfg)
      (d.processRequestResponse i nonAllocatingStoreReq nonAllocatingStoreReply b) fun d' =>
      d'.Records b S ∧ ∀ b', b' ≠ b → d' b' = d b' :=
  ⟨hr, fun _ _ => rfl⟩

/-- The messages that report an eviction. -/
def IsEvict (t : MemoryMessageType) : Prop := t = evictClean ∨ t = evictWritable ∨ t = evictDirty

theorem processRequestResponse_release (ht : IsEvict t) {resp : MemoryMessageType}
    (hi : i ∈ S) (hr : d.Records b S) :
    Ends (IndexFault cfg) (d.processRequestResponse i t resp b) fun d' =>
      d'.Records b (S.erase i) ∧ ∀ b', b' ≠ b → d' b' = d b' := by
  obtain ⟨d', hd', h⟩ := InfiniteDirectory.processRequestResponse_evict ht resp hr hi
  rw [hd']
  exact h

end Directory

end FastCMPCache

end Flexus
