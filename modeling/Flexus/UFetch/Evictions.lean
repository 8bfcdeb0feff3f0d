import Flexus.UFetch.Component

/-!
# Evictions of the fetch unit

A block is in `theEvictSet` from the fill that evicts it to the acknowledgement, and all that time
its EvictClean message is in a queue or with the memory system, once
(`Flexus.UFetch.Disciplined`). What undoes this is a second request for a block: by a thread that
has been squashed, by another thread, or by a prefetch. If its fill arrives while the block is
being evicted, the block is in the cache and in `theEvictSet`; and if it waits in the miss queue
when the block is evicted, it is ahead of the message that it is held back for.

The discipline holds in all runs without such a fill, and such an eviction
(`Flexus.UFetch.evictions_disciplined`).
-/

namespace Flexus

open List

namespace UFetch

open Flexus.Lib

variable {cfg : Config} {c c' : Component cfg} {s t : FetchSystem cfg} {a : BitVec 64}
  {msg : FetchMessage} {l l' : List FetchMessage}

/-! ### Messages of a type -/

theorem addressesOf_append (type : MemoryMessageType) (l l' : List FetchMessage) :
    addressesOf type (l ++ l') = addressesOf type l ++ addressesOf type l' := by
  rw [addressesOf, addressesOf, addressesOf, filter_append, map_append]

theorem mem_addressesOf {type : MemoryMessageType} :
    a ∈ addressesOf type l ↔ ∃ m ∈ l, m.type = type ∧ m.address = a := by
  rw [addressesOf, mem_map]
  constructor
  · rintro ⟨m, hm, rfl⟩
    obtain ⟨hmem, htype⟩ := mem_filter.mp hm
    exact ⟨m, hmem, by simpa using htype, rfl⟩
  · rintro ⟨m, hm, htype, rfl⟩
    exact ⟨m, mem_filter.mpr ⟨hm, by simp [htype]⟩, rfl⟩

theorem addressesOf_eq_nil {type : MemoryMessageType} (h : ∀ m ∈ l, m.type ≠ type) :
    addressesOf type l = [] := by
  rw [eq_nil_iff_forall_not_mem]
  intro a ha
  obtain ⟨m, hm, htype, -⟩ := mem_addressesOf.mp ha
  exact h m hm htype

/-! ### Steps that evict nothing -/

/-- **Nothing is evicted**: requests are put at the end of the miss queue, other messages at the end
of the snoop queue, and nothing is put into the cache. -/
structure Calm (c c' : Component cfg) : Prop where
  evictSet : c'.theEvictSet = c.theEvictSet
  snoopQueue : ∃ l, c'.theSnoopQueue = c.theSnoopQueue ++ l ∧ ∀ m ∈ l, m.type ≠ .evictClean
  missQueue : ∃ l, c'.theMissQueue = c.theMissQueue ++ l ∧ ∀ m ∈ l, m.type = .fetchReq
  contains : ∀ a, c'.theI.Contains a → c.theI.Contains a

namespace Calm

theorem of_eq (hset : c'.theEvictSet = c.theEvictSet) (hsnoop : c'.theSnoopQueue = c.theSnoopQueue)
    (hmiss : c'.theMissQueue = c.theMissQueue)
    (hcontains : ∀ a, c'.theI.Contains a → c.theI.Contains a) : Calm c c' :=
  ⟨hset, ⟨[], by rw [hsnoop, append_nil], by simp⟩,
    ⟨[], by rw [hmiss, append_nil], by simp⟩, hcontains⟩

theorem refl (c : Component cfg) : Calm c c := of_eq rfl rfl rfl fun _ => id

theorem trans {c'' : Component cfg} (h : Calm c c') (h' : Calm c' c'') : Calm c c'' := by
  obtain ⟨l, hl, htypes⟩ := h.missQueue
  obtain ⟨l', hl', htypes'⟩ := h'.missQueue
  obtain ⟨r, hr, hother⟩ := h.snoopQueue
  obtain ⟨r', hr', hother'⟩ := h'.snoopQueue
  refine ⟨h'.evictSet.trans h.evictSet, ⟨r ++ r', ?_, ?_⟩, ⟨l ++ l', ?_, ?_⟩,
    fun a ha => h.contains a (h'.contains a ha)⟩
  · rw [hr', hr, append_assoc]
  · intro m hm
    exact (mem_append.mp hm).elim (hother m) (hother' m)
  · rw [hl', hl, append_assoc]
  · intro m hm
    exact (mem_append.mp hm).elim (htypes m) (htypes' m)

end Calm

/-- What ends a run is one of the assertions about evictions. -/
def FetchFault.ofEviction : FetchFault → Bool
  | .evictInserted | .evictNotFound => true
  | _ => false

/-- **A function evicts nothing**, or it ends the run by an assertion that is not about
evictions. -/
def EvictsNothing (c : Component cfg) : Except FetchFault (Component cfg) → Prop
  | .ok c' => Calm c c'
  | .error fault => fault.ofEviction = false

theorem Calm.evictsNothing {r : Except FetchFault (Component cfg)} (h : Calm c c')
    (h' : EvictsNothing c' r) : EvictsNothing c r := by
  cases r with
  | ok d => exact h.trans h'
  | error fault => exact h'

namespace Component

theorem issueFetch_evictsNothing (c : Component cfg) (anAddress vPC : BitVec 64) :
    EvictsNothing c (c.issueFetch anAddress vPC) := by
  rw [issueFetch]
  split
  · rfl
  · exact ⟨rfl, ⟨[], by simp, by simp⟩, ⟨_, rfl, by simp⟩, fun _ => id⟩

theorem prefetchNext_evictsNothing (c : Component cfg) (i : ℕ) :
    EvictsNothing c (c.prefetchNext i) := by
  have hlook : ∀ a a', (c.theI.lookup a').2.Contains a → c.theI.Contains a :=
    fun a a' => (c.theI.contains_lookup a').mp
  rw [prefetchNext]
  split
  · exact Calm.refl c
  · split
    · exact Calm.refl c
    · split
      · simp only
        split
        · exact Calm.of_eq rfl rfl rfl fun _ => id
        · split
          · exact Calm.of_eq rfl rfl rfl fun a => hlook a _
          · refine Calm.evictsNothing ?_ (issueFetch_evictsNothing _ _ _)
            exact Calm.of_eq rfl rfl rfl fun a => hlook a _
      · exact Calm.refl c

theorem onHit_evictsNothing (c : Component cfg) (i : ℕ) (tagset : BitVec 64) :
    EvictsNothing c (c.onHit i tagset) := by
  rw [onHit]
  split
  · exact prefetchNext_evictsNothing c i
  · exact Calm.refl c

theorem onMiss_evictsNothing (c : Component cfg) (i : ℕ) (vaddr paddr : BitVec 64) :
    EvictsNothing c (c.onMiss i vaddr paddr) := by
  rw [onMiss]
  split
  · rfl
  · simp only
    have hmissed : Calm c ((c.setMiss i (some (cfg.blockOf paddr))).setPrefetch i none) :=
      Calm.of_eq rfl rfl rfl fun _ => id
    split
    · exact hmissed.evictsNothing (prefetchNext_evictsNothing _ i)
    · have hissue := hmissed.evictsNothing
        (issueFetch_evictsNothing _ (cfg.blockOf paddr) vaddr)
      split
      · rename_i fault hfault
        rw [hfault] at hissue
        exact hissue
      · rename_i issued hissued
        rw [hissued] at hissue
        refine Calm.evictsNothing ?_ (prefetchNext_evictsNothing _ i)
        exact hissue.trans (Calm.of_eq rfl rfl rfl fun _ => id)

theorem icacheLookup_evictsNothing (c : Component cfg) (i : ℕ) (vaddr : BitVec 64) :
    EvictsNothing c ((c.icacheLookup i vaddr).map Prod.snd) := by
  have hmap : ∀ (b : Bool) (r : Except FetchFault (Component cfg)),
      (r.map fun s => (b, s)).map Prod.snd = r := by
    intro b r
    cases r <;> rfl
  rw [icacheLookup]
  simp only
  split
  · exact Calm.of_eq rfl rfl rfl fun _ => id
  · rename_i paddr hpaddr
    split
    · rw [hmap]
      refine Calm.evictsNothing ?_ (onHit_evictsNothing _ i _)
      exact Calm.of_eq rfl rfl rfl fun a => (c.theI.contains_lookup paddr).mp
    · rw [hmap]
      refine Calm.evictsNothing ?_ (onMiss_evictsNothing _ i vaddr paddr)
      exact Calm.of_eq rfl rfl rfl fun a => (c.theI.contains_lookup paddr).mp

theorem lookups_evictsNothing (i : ℕ) (lines : List (BitVec 64)) (c : Component cfg) :
    EvictsNothing c (lookups i c lines) := by
  induction lines generalizing c with
  | nil => exact Calm.refl c
  | cons anAddress lines ih =>
    have hlookup := icacheLookup_evictsNothing c i (cfg.blockOf anAddress)
    rw [lookups]
    split
    · rename_i fault hfault
      rw [hfault] at hlookup
      exact hlookup
    · rename_i d hd
      rw [hd] at hlookup
      exact Calm.evictsNothing hlookup (ih d)
    · rename_i d hd
      rw [hd] at hlookup
      exact hlookup

/-- **A cycle of fetching** evicts nothing. -/
theorem doFetch_evictsNothing (c : Component cfg) (i : ℕ) (lines : List (BitVec 64)) :
    EvictsNothing c (c.doFetch i lines) := by
  rw [doFetch]
  split
  · exact Calm.refl c
  · exact lookups_evictsNothing i lines c

end Component

/-! ### The discipline -/

/-- **The evictions that have not been acknowledged**: those in the queues, and those that the
memory system has been sent. -/
def FetchSystem.evicting (s : FetchSystem cfg) : List (BitVec 64) :=
  addressesOf .evictClean s.comp.theMissQueue ++ addressesOf .evictClean s.comp.theSnoopQueue ++
    s.evictions

/-- No request for a block is ahead of the message of its eviction. -/
def NoneAhead (cfg : Config) (queue : List FetchMessage) : Prop :=
  queue.Pairwise fun m m' => m.type = .fetchReq → m'.type = .evictClean →
    m'.address ≠ cfg.blockOf m.address

/-- **The discipline of evictions.** -/
structure Disciplined (s : FetchSystem cfg) : Prop where
  /-- An eviction is under way once. -/
  nodup : s.evicting.Nodup
  /-- What is under way is what is in `theEvictSet`. -/
  mem_evicting : ∀ a, a ∈ s.evicting ↔ a ∈ s.comp.theEvictSet
  /-- A block that is being evicted is not in the cache. -/
  absent : ∀ a ∈ s.comp.theEvictSet, ¬s.comp.theI.Contains a
  /-- It is a block. -/
  aligned : ∀ a ∈ s.comp.theEvictSet, cfg.blockOf a = a
  /-- In the miss queue are requests and evictions. -/
  types : ∀ m ∈ s.comp.theMissQueue, m.type = .fetchReq ∨ m.type = .evictClean
  /-- Evictions are on one of the two queues. -/
  channel : addressesOf .evictClean
    (if cfg.EvictOnSnoop then s.comp.theMissQueue else s.comp.theSnoopQueue) = []
  /-- The message of an eviction is not behind a request for its block. -/
  ahead : NoneAhead cfg s.comp.theMissQueue

/-- **Where the discipline is kept**: the memory system answers what it has been sent; a fill is
not for a block that is being evicted, and evicts no block for which a request is in the miss
queue, if this is where its eviction goes; and a request does not come to the head of the miss
queue while the eviction of its block is still in the snoop queue. -/
def FetchSystem.Allowed (s : FetchSystem cfg) (ev : UFetchEvent) : Prop :=
  s.Answers ev ∧
    match ev with
    | .reply msg => isFill msg.type = true →
        cfg.blockOf msg.address ∉ s.comp.theEvictSet ∧
          (cfg.EvictOnSnoop = false → ¬s.comp.theI.Contains msg.address →
            ∀ v ∈ s.comp.theI.victim msg.address, ∀ m ∈ s.comp.theMissQueue, m.type = .fetchReq →
              cfg.shape.address v ≠ cfg.blockOf m.address)
    | .sendMisses misses _ _ =>
        ∀ m ∈ s.comp.theMissQueue.take misses, m.type = .fetchReq →
          cfg.blockOf m.address ∉ addressesOf .evictClean s.comp.theSnoopQueue
    | _ => True

theorem disciplined_initial (cfg : Config) (theI : SimCache cfg.shape) (unit : FetchUnit) :
    Disciplined (uFetchMachine cfg theI unit).init where
  nodup := nodup_nil
  mem_evicting a := by simp [uFetchMachine, FetchSystem.evicting, Component.initial, addressesOf]
  absent a ha := absurd ha (Finset.notMem_empty a)
  aligned a ha := absurd ha (Finset.notMem_empty a)
  types m hm := absurd hm not_mem_nil
  channel := by simp [uFetchMachine, Component.initial, addressesOf]
  ahead := List.Pairwise.nil

/-! ### Steps -/

/-- **Where nothing is evicted**, the discipline is kept. -/
theorem Disciplined.calm (h : Disciplined s) (hc : Calm s.comp c') :
    Disciplined { s with comp := c' } := by
  obtain ⟨hset, ⟨r, hsnoop, hother⟩, ⟨l, hmiss, htypes⟩, hcontains⟩ := hc
  have hl : addressesOf .evictClean l = [] := by
    refine addressesOf_eq_nil fun m hm htype => ?_
    rw [htypes m hm] at htype
    cases htype
  have hr : addressesOf .evictClean r = [] := addressesOf_eq_nil hother
  have hevicting : FetchSystem.evicting { s with comp := c' } = s.evicting := by
    simp only [FetchSystem.evicting, hmiss, hsnoop, addressesOf_append, hl, hr, append_nil]
  refine ⟨?_, ?_, ?_, ?_, ?_, ?_, ?_⟩
  · rw [hevicting]
    exact h.nodup
  · intro a
    rw [hevicting]
    simp only [hset]
    exact h.mem_evicting a
  · intro a ha hcontained
    simp only [hset] at ha
    exact h.absent a ha (hcontains a hcontained)
  · simp only [hset]
    exact h.aligned
  · intro m hm
    rw [hmiss] at hm
    exact (mem_append.mp hm).elim (h.types m) fun hm => Or.inl (htypes m hm)
  · have hchannel := h.channel
    simp only [hmiss, hsnoop]
    split at hchannel
    · rename_i hon
      rw [if_pos hon, addressesOf_append, hchannel, hl, append_nil]
    · rename_i hon
      rw [if_neg hon, addressesOf_append, hchannel, hr, append_nil]
  · -- what is new in the miss queue is no eviction
    have hnew : ∀ m' ∈ l, m'.type ≠ .evictClean := by
      intro m' hm' htype
      rw [htypes m' hm'] at htype
      cases htype
    rw [NoneAhead, hmiss]
    refine pairwise_append.mpr ⟨h.ahead, ?_, ?_⟩
    · exact pairwise_of_forall_mem_list fun m _ m' hm' _ htype => absurd htype (hnew m' hm')
    · exact fun m _ m' hm' _ htype => absurd htype (hnew m' hm')

/-! #### Messages that leave -/

theorem sendRequests_append (cfg : Config) (theEvictSet : Finset (BitVec 64)) (n : ℕ)
    (queue : List FetchMessage) :
    (Component.sendRequests cfg theEvictSet n queue).sent ++
      (Component.sendRequests cfg theEvictSet n queue).rest = queue := by
  induction queue generalizing n with
  | nil => cases n <;> rfl
  | cons m queue ih =>
    cases n with
    | zero => rfl
    | succ n =>
      rw [Component.sendRequests]
      split
      · rfl
      · rw [cons_append, ih]

/-- **What is held back** is a request for a block that is being evicted, and it was among the
messages for which the channel was available. -/
theorem sendRequests_heldBack {theEvictSet : Finset (BitVec 64)} {n : ℕ}
    {queue : List FetchMessage}
    (h : (Component.sendRequests cfg theEvictSet n queue).heldBack = true) :
    ∃ m rest, (Component.sendRequests cfg theEvictSet n queue).rest = m :: rest ∧
      m ∈ queue.take n ∧ m.type.isEvictType = false ∧ cfg.blockOf m.address ∈ theEvictSet := by
  induction queue generalizing n with
  | nil => cases n <;> cases h
  | cons m queue ih =>
    cases n with
    | zero => cases h
    | succ n =>
      rw [Component.sendRequests] at h ⊢
      split
      · rename_i hheld
        exact ⟨m, queue, rfl, mem_cons_self, by simpa using hheld.1, hheld.2⟩
      · rename_i hheld
        rw [if_neg hheld] at h
        obtain ⟨m', rest, hrest, hmem, htype, hblock⟩ := ih h
        exact ⟨m', rest, hrest, mem_cons_of_mem m hmem, htype, hblock⟩

/-- **Sending keeps it**: what leaves a queue is with the memory system. -/
theorem Disciplined.sendMisses (h : Disciplined s) (misses snoops replies : ℕ)
    (ht : s.step (.sendMisses misses snoops replies) = .ok t) : Disciplined t := by
  cases ht
  have hmiss := sendRequests_append cfg s.comp.theEvictSet misses s.comp.theMissQueue
  have hsnoop := take_append_drop snoops s.comp.theSnoopQueue
  generalize hr : Component.sendRequests cfg s.comp.theEvictSet misses s.comp.theMissQueue = r
    at hmiss
  have hsends : s.comp.sendMisses misses snoops replies =
      (r.sent ++ s.comp.theSnoopQueue.take snoops, { s.comp with
        theMissQueue := r.rest
        theSnoopQueue := s.comp.theSnoopQueue.drop snoops
        theReplyQueue := if cfg.UseReplyChannel then s.comp.theReplyQueue.drop replies
          else s.comp.theReplyQueue }) := by
    rw [Component.sendMisses, hr]
  rw [hsends]
  have hsub : r.rest.Sublist s.comp.theMissQueue := by
    rw [← hmiss]
    exact sublist_append_right _ _
  have hperm : (addressesOf .evictClean r.rest ++
      addressesOf .evictClean (s.comp.theSnoopQueue.drop snoops) ++
      (s.evictions ++ addressesOf .evictClean
        (r.sent ++ s.comp.theSnoopQueue.take snoops))).Perm s.evicting := by
    rw [FetchSystem.evicting]
    conv => enter [2]; rw [← hmiss, ← hsnoop]
    refine perm_iff_count.mpr fun a => ?_
    simp only [addressesOf_append, count_append]
    omega
  refine ⟨hperm.nodup_iff.mpr h.nodup, fun a => hperm.mem_iff.trans (h.mem_evicting a), h.absent,
    h.aligned, fun m hm => h.types m (hsub.subset hm), ?_, h.ahead.sublist hsub⟩
  have hchannel := h.channel
  split at hchannel
  · rename_i hon
    rw [if_pos hon]
    refine addressesOf_eq_nil fun m hm htype => ?_
    have hmem := mem_addressesOf.mpr ⟨m, hsub.subset hm, htype, rfl⟩
    rw [hchannel] at hmem
    cases hmem
  · rename_i hon
    rw [if_neg hon]
    refine addressesOf_eq_nil fun m hm htype => ?_
    have hmem := mem_addressesOf.mpr ⟨m, mem_of_mem_drop hm, htype, rfl⟩
    rw [hchannel] at hmem
    cases hmem

/-! #### Acknowledgements -/

/-- **An acknowledgement** ends an eviction that is under way. -/
theorem Disciplined.evictAck (h : Disciplined s) (ha : a ∈ s.evictions) :
    a ∈ s.comp.theEvictSet ∧
      Disciplined (⟨{ s.comp with theEvictSet := s.comp.theEvictSet.erase a }, s.fetches,
        s.evictions.erase a⟩ : FetchSystem cfg) := by
  have hmem : a ∈ s.evicting := mem_append_right _ ha
  refine ⟨(h.mem_evicting a).mp hmem, ?_⟩
  have hnodup := h.nodup
  rw [FetchSystem.evicting] at hnodup
  obtain ⟨hqueues, hsent, hdisjoint⟩ := nodup_append.mp hnodup
  have hevicting : ∀ b, b ∈ addressesOf .evictClean s.comp.theMissQueue ++
      addressesOf .evictClean s.comp.theSnoopQueue ++ s.evictions.erase a ↔
        b ≠ a ∧ b ∈ s.evicting := by
    intro b
    constructor
    · intro hb
      rcases mem_append.mp hb with hb | hb
      · exact ⟨hdisjoint b hb a ha, mem_append_left _ hb⟩
      · obtain ⟨hne, hb⟩ := hsent.mem_erase_iff.mp hb
        exact ⟨hne, mem_append_right _ hb⟩
    · rintro ⟨hne, hb⟩
      rcases mem_append.mp hb with hb | hb
      · exact mem_append_left _ hb
      · exact mem_append_right _ (hsent.mem_erase_iff.mpr ⟨hne, hb⟩)
  refine ⟨?_, fun b => ?_, fun b hb => h.absent b (Finset.mem_of_mem_erase hb),
    fun b hb => h.aligned b (Finset.mem_of_mem_erase hb), h.types, h.channel, h.ahead⟩
  · exact nodup_append.mpr ⟨hqueues, hsent.erase a,
      fun b hb b' hb' => hdisjoint b hb b' (mem_of_mem_erase hb')⟩
  · rw [Finset.mem_erase, ← h.mem_evicting b]
    exact hevicting b

/-! #### Fills -/

/-- **What an insertion into the cache does**: it puts in the block, and either there is no victim
that is announced, or the victim was in the cache and is no longer there. -/
theorem insertBlock_cases (c : Component cfg) (addr : BitVec 64) :
    (∀ a, (c.insertBlock addr).2.Contains a →
      c.theI.Contains a ∨ cfg.blockOf a = cfg.blockOf addr) ∧
    ((c.insertBlock addr).1 = 0 ∨
      ¬c.theI.Contains addr ∧ ∃ v, c.theI.victim addr = some v ∧
        (c.insertBlock addr).1 = cfg.shape.address v ∧ c.theI.Contains (cfg.shape.address v) ∧
        ¬(c.insertBlock addr).2.Contains (cfg.shape.address v)) := by
  by_cases hthere : c.theI.Contains addr
  · have hlookup : c.insertBlock addr = (0, (c.theI.lookup addr).2) := by
      rw [Component.insertBlock, SimCache.lookup, if_pos hthere]
      rfl
    rw [hlookup]
    exact ⟨fun a ha => Or.inl ((c.theI.contains_lookup addr).mp ha), Or.inl rfl⟩
  · have hinsert : c.insertBlock addr = c.theI.insert addr := by
      rw [Component.insertBlock, SimCache.lookup, if_neg hthere]
      rfl
    rw [hinsert]
    refine ⟨fun a ha => (c.theI.contains_of_insert ha).imp_right fun hkey => ?_, ?_⟩
    · rw [Config.blockOf, Config.blockOf, ← CacheShape.address_of, ← CacheShape.address_of, hkey]
    · cases hvictim : c.theI.victim addr with
      | none =>
        refine Or.inl ?_
        rw [SimCache.insert, dif_neg hthere, hvictim]
        rfl
      | some v =>
        refine Or.inr ⟨hthere, v, rfl, ?_, c.theI.contains_victim hvictim,
          c.theI.not_contains_victim hvictim hthere⟩
        rw [SimCache.insert, dif_neg hthere, hvictim]
        rfl

/-- What is in the cache after an insertion, of what is being evicted. -/
theorem Disciplined.absent_insertBlock (h : Disciplined s) {addr : BitVec 64}
    (hfree : cfg.blockOf addr ∉ s.comp.theEvictSet) :
    ∀ a ∈ s.comp.theEvictSet, ¬(s.comp.insertBlock addr).2.Contains a := by
  intro a ha hcontained
  rcases (insertBlock_cases s.comp addr).1 a hcontained with hold | hblock
  · exact h.absent a ha hold
  · rw [h.aligned a ha] at hblock
    rw [hblock] at ha
    exact hfree ha

theorem Disciplined.withCache (h : Disciplined s) {theI : SimCache cfg.shape}
    (habsent : ∀ a ∈ s.comp.theEvictSet, ¬theI.Contains a) :
    Disciplined { s with comp := { s.comp with theI := theI } } :=
  ⟨h.nodup, h.mem_evicting, habsent, h.aligned, h.types, h.channel, h.ahead⟩

/-- **An eviction** of a block that is not in the cache, and that no request is waiting for if this
is the queue on which it is announced. -/
theorem Disciplined.issueEvict (h : Disciplined s) (hnew : a ∉ s.comp.theEvictSet)
    (hgone : ¬s.comp.theI.Contains a) (haligned : cfg.blockOf a = a)
    (hahead : cfg.EvictOnSnoop = false → ∀ m ∈ s.comp.theMissQueue, m.type = .fetchReq →
      a ≠ cfg.blockOf m.address) :
    ∃ c, s.comp.issueEvict a = .ok c ∧ Disciplined { s with comp := c } := by
  rw [Component.issueEvict, if_neg hnew]
  split
  · have hevict : addressesOf .evictClean [⟨.evictClean, a, 0, true, false⟩] = [a] := rfl
    have hmem : ∀ b, b = a ∨ b ∈ s.evicting ↔ b ∈ insert a s.comp.theEvictSet := by
      intro b
      rw [Finset.mem_insert, h.mem_evicting b]
    have hnodup : (a :: s.evicting).Nodup :=
      nodup_cons.mpr ⟨fun ha => hnew ((h.mem_evicting a).mp ha), h.nodup⟩
    have habsent : ∀ b ∈ insert a s.comp.theEvictSet, ¬s.comp.theI.Contains b := by
      intro b hb
      rcases Finset.mem_insert.mp hb with rfl | hb
      · exact hgone
      · exact h.absent b hb
    have haligneds : ∀ b ∈ insert a s.comp.theEvictSet, cfg.blockOf b = b := by
      intro b hb
      rcases Finset.mem_insert.mp hb with rfl | hb
      · exact haligned
      · exact h.aligned b hb
    have hchannel := h.channel
    simp only
    split
    · rename_i hon
      rw [if_pos hon] at hchannel
      have hperm : (FetchSystem.evicting (⟨{ s.comp with
          theEvictSet := insert a s.comp.theEvictSet
          theSnoopQueue := s.comp.theSnoopQueue ++ [⟨.evictClean, a, 0, true, false⟩] },
          s.fetches, s.evictions⟩ : FetchSystem cfg)).Perm (a :: s.evicting) := by
        refine perm_iff_count.mpr fun b => ?_
        simp only [FetchSystem.evicting, addressesOf_append, hevict, count_append,
          count_cons, count_nil]
        omega
      refine ⟨_, rfl, hperm.nodup_iff.mpr hnodup, fun b => ?_, habsent, haligneds, h.types, ?_,
        h.ahead⟩
      · rw [hperm.mem_iff, mem_cons]
        exact hmem b
      · rw [if_pos hon]
        exact hchannel
    · rename_i hon
      rw [if_neg hon] at hchannel
      have hperm : (FetchSystem.evicting (⟨{ s.comp with
          theEvictSet := insert a s.comp.theEvictSet
          theMissQueue := s.comp.theMissQueue ++ [⟨.evictClean, a, 0, true, false⟩] },
          s.fetches, s.evictions⟩ : FetchSystem cfg)).Perm (a :: s.evicting) := by
        refine perm_iff_count.mpr fun b => ?_
        simp only [FetchSystem.evicting, addressesOf_append, hevict, count_append,
          count_cons, count_nil]
        omega
      refine ⟨_, rfl, hperm.nodup_iff.mpr hnodup, fun b => ?_, habsent, haligneds, ?_, ?_, ?_⟩
      · rw [hperm.mem_iff, mem_cons]
        exact hmem b
      · intro m hm
        rcases mem_append.mp hm with hm | hm
        · exact h.types m hm
        · rw [mem_singleton.mp hm]
          exact Or.inr rfl
      · rw [if_neg hon]
        exact hchannel
      · refine pairwise_append.mpr ⟨h.ahead, pairwise_singleton _ _, ?_⟩
        intro m hm m' hm' htype _
        rw [mem_singleton.mp hm']
        exact hahead (Bool.not_eq_true _ ▸ hon) m hm htype
  · exact ⟨s.comp, rfl, h⟩

theorem queueSnoopMessage_calm (c : Component cfg) {type : MemoryMessageType}
    (htype : type ≠ .evictClean) (anAddress : BitVec 64) (b : Bool) :
    Calm c (c.queueSnoopMessage type anAddress b) := by
  rw [Component.queueSnoopMessage]
  split
  · exact Calm.of_eq rfl rfl rfl fun _ => id
  · exact ⟨rfl, ⟨_, rfl, by simpa using htype⟩, ⟨[], by simp, by simp⟩, fun _ => id⟩

/-- After a fill there are acknowledgements, and nothing is evicted. -/
theorem filled_acknowledge_calm (c : Component cfg) (addr : BitVec 64) (reply : FetchMessage) :
    Calm c ((c.filled addr).acknowledge reply) := by
  have hfilled : Calm c (c.filled addr) := Calm.of_eq rfl rfl rfl fun _ => id
  rw [Component.acknowledge]
  split
  · split
    · exact hfilled.trans (queueSnoopMessage_calm _ (by decide) _ _)
    · exact hfilled.trans (queueSnoopMessage_calm _ (by decide) _ _)
  · exact hfilled

/-- **A fill** for a block that is not being evicted goes through. -/
theorem Disciplined.fill (h : Disciplined s) (reply : FetchMessage)
    (hfree : cfg.blockOf reply.address ∉ s.comp.theEvictSet)
    (hahead : cfg.EvictOnSnoop = false → ¬s.comp.theI.Contains reply.address →
      ∀ v ∈ s.comp.theI.victim reply.address, ∀ m ∈ s.comp.theMissQueue, m.type = .fetchReq →
        cfg.shape.address v ≠ cfg.blockOf m.address) :
    ∃ c, s.comp.fill reply = .ok c ∧ Disciplined { s with comp := c } := by
  have hcache := h.withCache (h.absent_insertBlock hfree)
  obtain ⟨c, hevict, hc⟩ : ∃ c, Component.issueEvict
      { s.comp with theI := (s.comp.insertBlock reply.address).2 }
      (s.comp.insertBlock reply.address).1 = .ok c ∧ Disciplined { s with comp := c } := by
    rcases (insertBlock_cases s.comp reply.address).2 with
      hzero | ⟨hnew, v, hvictim, hv, hthere, hgone⟩
    · refine ⟨{ s.comp with theI := (s.comp.insertBlock reply.address).2 }, ?_, hcache⟩
      rw [hzero, Component.issueEvict]
      simp
    · rw [hv]
      refine hcache.issueEvict (fun hmem => h.absent _ hmem hthere) hgone
        (cfg.shape.address_and_theBlockMask v) fun hoff => ?_
      exact hahead hoff hnew v hvictim
  refine ⟨(c.filled reply.address).acknowledge reply, ?_,
    hc.calm (filled_acknowledge_calm c reply.address reply)⟩
  rw [Component.fill]
  simp only [hevict]

/-- Messages that are neither fills nor acknowledgements of evictions evict nothing. -/
theorem fetchReply_evictsNothing (c : Component cfg) (reply : FetchMessage)
    (hfill : isFill reply.type = false) (hack : reply.type ≠ .evictAck) :
    EvictsNothing c (c.fetchReply reply) := by
  have hqueue : ∀ (d : Component cfg) (type : MemoryMessageType) (b : Bool),
      Calm c d → type ≠ .evictClean →
      EvictsNothing c (.ok (d.queueSnoopMessage type reply.address b)) :=
    fun d type b hd htype => hd.trans (queueSnoopMessage_calm d htype reply.address b)
  have hinval : Calm c { c with theI := (c.theI.inval reply.address).2 } :=
    Calm.of_eq rfl rfl rfl fun a => c.theI.contains_of_inval
  have hlook : Calm c { c with theI := (c.theI.lookup reply.address).2 } :=
    Calm.of_eq rfl rfl rfl fun a => (c.theI.contains_lookup reply.address).mp
  rw [Component.fetchReply]
  split
  all_goals first
    | exact hqueue _ _ _ (Calm.refl c) (by decide)
    | exact hqueue _ _ _ hinval (by decide)
    | exact hqueue _ _ _ hlook (by split <;> decide)
    | exact hqueue _ _ _ hinval (by split <;> decide)
    | rfl
    | simp_all [isFill]

/-! ### Runs -/

/-- **A step keeps the discipline**, or it ends the run by an assertion that is not about
evictions. -/
def KeepsDiscipline : Except FetchFault (FetchSystem cfg) → Prop
  | .ok t => Disciplined t
  | .error fault => fault.ofEviction = false

theorem Disciplined.keeps (h : Disciplined s) {r : Except FetchFault (Component cfg)}
    (hr : EvictsNothing s.comp r) (fetches evictions : List (BitVec 64))
    (hsame : evictions = s.evictions) :
    KeepsDiscipline (r.map fun c => (⟨c, fetches, evictions⟩ : FetchSystem cfg)) := by
  subst hsame
  cases r with
  | error fault => exact hr
  | ok c =>
    have hc : Disciplined { s with comp := c } := h.calm hr
    exact ⟨hc.nodup, hc.mem_evicting, hc.absent, hc.aligned, hc.types, hc.channel, hc.ahead⟩

theorem fetchReply_of_isFill (c : Component cfg) {reply : FetchMessage}
    (h : isFill reply.type = true) : c.fetchReply reply = c.fill reply := by
  rw [Component.fetchReply]
  cases htype : reply.type <;> first | rfl | simp [isFill, htype] at h

/-- **Allowed steps keep the discipline.** -/
theorem Disciplined.step (h : Disciplined s) {ev : UFetchEvent} (hev : s.Allowed ev) :
    KeepsDiscipline (s.step ev) := by
  cases ev with
  | doFetch i lines =>
    exact h.keeps (Component.doFetch_evictsNothing s.comp i lines) s.fetches s.evictions rfl
  | sendMisses misses snoops replies => exact h.sendMisses misses snoops replies rfl
  | squash i =>
    have hcalm : Calm s.comp (s.comp.squash i) := Calm.of_eq rfl rfl rfl fun _ => id
    exact h.calm hcalm
  | changeCPUState i aState => exact h.calm (Calm.of_eq rfl rfl rfl fun _ => id)
  | changeMMU i mmu => exact h.calm (Calm.of_eq rfl rfl rfl fun _ => id)
  | reply msg =>
    rw [FetchSystem.step]
    by_cases hfill : isFill msg.type = true
    · obtain ⟨c, hc, hdisciplined⟩ := h.fill msg (hev.2 hfill).1 (hev.2 hfill).2
      have hack : msg.type ≠ .evictAck := by
        intro hack
        rw [hack] at hfill
        cases hfill
      rw [fetchReply_of_isFill s.comp hfill, hc, if_neg hack]
      exact ⟨hdisciplined.nodup, hdisciplined.mem_evicting, hdisciplined.absent,
        hdisciplined.aligned, hdisciplined.types, hdisciplined.channel, hdisciplined.ahead⟩
    · rw [Bool.not_eq_true] at hfill
      by_cases hack : msg.type = .evictAck
      · obtain ⟨hmem, hdisciplined⟩ := h.evictAck (hev.1.2 hack)
        have hreply : s.comp.fetchReply msg =
            .ok { s.comp with theEvictSet := s.comp.theEvictSet.erase msg.address } := by
          rw [Component.fetchReply, hack]
          exact if_pos hmem
        rw [hreply, if_pos hack, hfill]
        exact hdisciplined
      · rw [if_neg hack]
        exact h.keeps (fetchReply_evictsNothing s.comp msg hfill hack) _ _ rfl

/-- The discipline holds in every run whose steps are allowed. -/
theorem disciplined_of_reachable {theI : SimCache cfg.shape} {unit : FetchUnit}
    (hs : (uFetchMachine cfg theI unit).ReachableWhen FetchSystem.Allowed s) : Disciplined s := by
  refine Machine.ReachableWhen.invariant (I := Disciplined) (disciplined_initial cfg theI unit)
    (fun s ev t h hev ht => ?_) hs
  have hkeeps := h.step hev
  have hok : s.step ev = .ok t := ht
  rw [hok] at hkeeps
  exact hkeeps

/-- **What holds back the head of the miss queue has left the component.** -/
theorem Disciplined.heldBack (h : Disciplined s) {misses snoops replies : ℕ}
    (hev : s.Allowed (.sendMisses misses snoops replies))
    (hheld : (Component.sendRequests cfg s.comp.theEvictSet misses s.comp.theMissQueue).heldBack =
      true) :
    ∃ m rest,
      (Component.sendRequests cfg s.comp.theEvictSet misses s.comp.theMissQueue).rest = m :: rest ∧
      cfg.blockOf m.address ∈ s.evictions ++ addressesOf .evictClean
        (Component.sendRequests cfg s.comp.theEvictSet misses s.comp.theMissQueue).sent := by
  obtain ⟨m, rest, hrest, htake, hrequest, hblock⟩ := sendRequests_heldBack hheld
  refine ⟨m, rest, hrest, ?_⟩
  have hmiss := sendRequests_append cfg s.comp.theEvictSet misses s.comp.theMissQueue
  rw [hrest] at hmiss
  have hmem : m ∈ s.comp.theMissQueue := mem_of_mem_take htake
  have hfetch : m.type = .fetchReq := by
    rcases h.types m hmem with hfetch | hevict
    · exact hfetch
    · rw [hevict] at hrequest
      cases hrequest
  -- the eviction is under way: it is in front of the request, behind it, on the other queue, or out
  rcases mem_append.mp ((h.mem_evicting _).mpr hblock) with hqueues | hout
  · rcases mem_append.mp hqueues with hqueue | hsnoop
    · obtain ⟨m', hm', htype', haddr⟩ := mem_addressesOf.mp hqueue
      rw [← hmiss] at hm'
      rcases mem_append.mp hm' with hsent | hbehind
      · exact mem_append_right _ (mem_addressesOf.mpr ⟨m', hsent, htype', haddr⟩)
      · rcases mem_cons.mp hbehind with rfl | hbehind
        · rw [hfetch] at htype'
          cases htype'
        · have hahead := h.ahead
          rw [NoneAhead, ← hmiss] at hahead
          have hrel := (pairwise_cons.mp (pairwise_append.mp hahead).2.1).1 m' hbehind
          exact absurd haddr (hrel hfetch htype')
    · exact absurd hsnoop (hev.2 m htake hfetch)
  · exact mem_append_left _ hout

/-- **The eviction discipline**, in every run whose steps are allowed: no block is in the cache and
in `theEvictSet`, the assertions about evictions do not fail, and what is held back is held back
for an eviction that has left the component. -/
theorem evictions_disciplined {theI : SimCache cfg.shape} {unit : FetchUnit}
    (hs : (uFetchMachine cfg theI unit).ReachableWhen FetchSystem.Allowed s) :
    (∀ a ∈ s.comp.theEvictSet, ¬s.comp.theI.Contains a) ∧
      (∀ ev, s.Allowed ev →
        s.step ev ≠ .error .evictInserted ∧ s.step ev ≠ .error .evictNotFound) ∧
      ∀ misses snoops replies, s.Allowed (.sendMisses misses snoops replies) →
        (Component.sendRequests cfg s.comp.theEvictSet misses s.comp.theMissQueue).heldBack = true →
        ∃ m rest, (Component.sendRequests cfg s.comp.theEvictSet misses s.comp.theMissQueue).rest =
            m :: rest ∧
          cfg.blockOf m.address ∈ s.evictions ++ addressesOf .evictClean
            (Component.sendRequests cfg s.comp.theEvictSet misses s.comp.theMissQueue).sent := by
  have h := disciplined_of_reachable hs
  refine ⟨h.absent, fun ev hev => ?_, fun misses snoops replies hev hheld => h.heldBack hev hheld⟩
  have hkeeps := h.step hev
  constructor
  · intro hfault
    rw [hfault] at hkeeps
    cases hkeeps
  · intro hfault
    rw [hfault] at hkeeps
    cases hkeeps

/-! ### A block that is fetched twice -/

instance (s : FetchSystem cfg) : (ev : UFetchEvent) → Decidable (s.Answers ev)
  | .reply msg => inferInstanceAs (Decidable ((isFill msg.type = true → msg.address ∈ s.fetches) ∧
      (msg.type = .evictAck → msg.address ∈ s.evictions)))
  | .doFetch _ _ | .sendMisses _ _ _ | .squash _ | .changeCPUState _ _ | .changeMMU _ _ =>
    isTrue trivial

instance (s : FetchSystem cfg) : (ev : UFetchEvent) → Decidable (s.Allowed ev)
  | .reply msg => inferInstanceAs (Decidable (s.Answers (.reply msg) ∧
      (isFill msg.type = true → cfg.blockOf msg.address ∉ s.comp.theEvictSet ∧
        (cfg.EvictOnSnoop = false → ¬s.comp.theI.Contains msg.address →
          ∀ v ∈ s.comp.theI.victim msg.address, ∀ m ∈ s.comp.theMissQueue, m.type = .fetchReq →
            cfg.shape.address v ≠ cfg.blockOf m.address))))
  | .sendMisses misses _ _ => inferInstanceAs (Decidable (True ∧
      ∀ m ∈ s.comp.theMissQueue.take misses, m.type = .fetchReq →
        cfg.blockOf m.address ∉ addressesOf .evictClean s.comp.theSnoopQueue))
  | .doFetch _ _ | .squash _ | .changeCPUState _ _ | .changeMMU _ _ => isTrue ⟨trivial, trivial⟩

/-- A fetch unit of two threads, and a cache for one block. -/
def oneBlockConfig : Config where
  shape := ⟨6, 0, 1⟩
  Threads := 2
  PrefetchEnabled := false
  CleanEvict := true

/-- A cache in which there is nothing. -/
def SimCache.empty (c : CacheShape) : SimCache c where
  theTable := fun _ => []
  nodup _ := nodup_nil
  placed _ _ h := absurd h not_mem_nil
  isBlock _ _ h := absurd h not_mem_nil

/-- The two threads, in the page of one MMU. -/
def twoThreads : Machine (FetchSystem oneBlockConfig) UFetchEvent FetchFault :=
  uFetchMachine oneBlockConfig (SimCache.empty _) oneBlockUnit

/-- A fill. -/
def fillOf (anAddress : BitVec 64) : UFetchEvent := .reply ⟨.missReply, anAddress, 0, false, false⟩

/-- A block is fetched by both threads, filled, and evicted by the next one. -/
def evictedRun : List UFetchEvent :=
  [.doFetch 0 [0x2000], .doFetch 1 [0x2000], .sendMisses 2 2 0, fillOf 0x4000,
    .doFetch 0 [0x2040], .sendMisses 2 2 0, fillOf 0x4040, .sendMisses 2 2 0]

/-- Until then the discipline is kept. -/
theorem evictedRun_disciplined :
    ∃ s, twoThreads.run evictedRun = .ok s ∧ 0x4000 ∈ s.comp.theEvictSet ∧
      ¬s.comp.theI.Contains 0x4000 := by
  have hends : twoThreads.endsIn (fun s => decide (0x4000 ∈ s.comp.theEvictSet)) evictedRun =
      true := by decide +kernel
  obtain ⟨s, hs, hmem⟩ := Machine.exists_of_endsIn hends
  have hreach : twoThreads.ReachableWhen FetchSystem.Allowed s :=
    Machine.reachableWhen_of_run (g := fun s ev => decide (s.Allowed ev))
      (fun s ev => of_decide_eq_true) (by decide +kernel) hs
  exact ⟨s, hs, of_decide_eq_true hmem, (evictions_disciplined hreach).1 _ (of_decide_eq_true hmem)⟩

/-- **The second fill of the block** puts it into the cache while it is being evicted, and the fill
that evicts it again does not get through. -/
theorem secondFill_faults :
    twoThreads.endsIn (fun s => decide (0x4000 ∈ s.comp.theEvictSet ∧ s.comp.theI.Contains 0x4000))
        (evictedRun ++ [fillOf 0x4000]) = true ∧
      twoThreads.passes (fun s ev => decide (s.Answers ev)) twoThreads.init
        (evictedRun ++ [fillOf 0x4000, .doFetch 1 [0x2080], .sendMisses 2 2 0]) = true ∧
      twoThreads.endsIn (fun s => decide (s.Answers (fillOf 0x4080)))
        (evictedRun ++ [fillOf 0x4000, .doFetch 1 [0x2080], .sendMisses 2 2 0]) = true ∧
      twoThreads.run (evictedRun ++ [fillOf 0x4000, .doFetch 1 [0x2080], .sendMisses 2 2 0,
        fillOf 0x4080]) = .error .evictInserted := by
  exact ⟨by decide +kernel, by decide +kernel, by decide +kernel, rfl⟩

end UFetch

end Flexus
