import Flexus.FastCMPCache.Block
import Flexus.FastCMPCache.Component

/-!
# Snooping in the functional chip multiprocessor

What the snooping of a request does to the block it is about. The block is looked
at through `Flexus.FastCMPCache.System.Shows`, which ties the arrays and the
directory to one block of the abstract protocol. A snoop of one sharer changes
that sharer's copy and, if it invalidates, the recorded sharers; the loop over all
sharers comes to one of two things, since a block with several sharers has only
shared copies: every copy is shared, or every copy but the requester's is gone.
-/

namespace Flexus

open Function

namespace FastCMPCache

open MemoryMessageType FastCache

variable {cfg : Config}

/-! ### Blocks of a system -/

/-- **A system shows a block**: the arrays hold it as the block says, and the
directory records its sharers. -/
structure System.Shows (s : System cfg) (b : ℕ) (v : Block) : Prop where
  l1 : ∀ i, (s.l1 i).stateOf b = v.l1 i
  l2 : s.l2.stateOf b = v.l2
  dir : s.theDirectory.Records b v.sharers

/-- What the snooping of a request leaves alone: the requester, the shared cache,
the outside, and every other block. -/
structure Frame (i b : ℕ) (s s' : System cfg) : Prop where
  l1 : s'.l1 i = s.l1 i
  l2 : s'.l2 = s.l2
  sent : s'.sent = s.sent
  dma : s'.dmaReplies = s.dmaReplies
  other : ∀ b', b' ≠ b → ∀ w, s.Shows b' w → s'.Shows b' w

theorem Frame.refl (i b : ℕ) (s : System cfg) : Frame i b s s :=
  ⟨rfl, rfl, rfl, rfl, fun _ _ _ h => h⟩

theorem Frame.trans {i b : ℕ} {s s' s'' : System cfg} (h : Frame i b s s')
    (h' : Frame i b s' s'') : Frame i b s s'' :=
  ⟨h'.l1.trans h.l1, h'.l2.trans h.l2, h'.sent.trans h.sent, h'.dma.trans h.dma,
    fun b' hb' w hw => h'.other b' hb' w (h.other b' hb' w hw)⟩

theorem records_congr {d d' : InfiniteDirectory} {b : ℕ} {S : Finset ℕ} (h : d' b = d b)
    (hr : d.Records b S) : d'.Records b S := by
  have hl : d'.lookup b = d.lookup b := by rw [InfiniteDirectory.lookup, h]; rfl
  exact ⟨hl ▸ hr.sharers_eq, hl ▸ hr.state_eq⟩

theorem getTag_l1 (i a : ℕ) : (cfg.l1 i).getTag a = cfg.blockOf a := by
  rw [Geometry.getTag, cfg.l1_blockShift, Config.blockOf]

theorem getTag_l2 (a : ℕ) : cfg.l2.getTag a = cfg.blockOf a := by
  rw [Geometry.getTag, cfg.l2_blockShift, Config.blockOf]

theorem l1Ports_top (req : Channel (System cfg)) (i : ℕ) : (l1Ports req i).Top where
  snoopOutI := rfl
  snoopOutD := rfl
  get_set s c := update_self ..
  set_set s c c' := by simp [l1Ports]

/-! ### One snoop -/

/-- The block after a snoop of one of its sharers. -/
def Block.snooped (v : Block) (j : ℕ) (t : MemoryMessageType) : Block where
  l1 := update v.l1 j (snoopNext (v.l1 j) t)
  l2 := v.l2
  sharers := if t = invalidate then v.sharers.erase j else v.sharers

/-- The directory after the reply of a cache that had the block. -/
theorem processSnoopResponse_spec {d : InfiniteDirectory} {b j : ℕ} {S : Finset ℕ}
    (h : d.Records b S) (hj : j ∈ S) {x : CoherenceState} (hx : IsMESI x) (hv : x ≠ .invalid)
    {t : MemoryMessageType} (ht : IsSnoop t) :
    ∃ d', d.processSnoopResponse j (snoopReply x t) b = .ok d' ∧
      d'.Records b (if t = invalidate then S.erase j else S) ∧ ∀ b', b' ≠ b → d' b' = d b' := by
  rcases ht with rfl | rfl | rfl
  · refine ⟨d, ?_, h, fun _ _ => rfl⟩
    rcases hx with rfl | rfl | rfl | rfl
    · rfl
    · rfl
    · rfl
    · exact absurd rfl hv
  · obtain ⟨d', hd', hr, ho⟩ := InfiniteDirectory.removeSharer_spec h hj
    refine ⟨d', ?_, hr, ho⟩
    rcases hx with rfl | rfl | rfl | rfl
    · exact hd'
    · exact hd'
    · exact hd'
    · exact absurd rfl hv
  · refine ⟨d, ?_, h, fun _ _ => rfl⟩
    rcases hx with rfl | rfl | rfl | rfl
    · rfl
    · rfl
    · rfl
    · exact absurd rfl hv

/-- **A snoop of one private cache**, in the system. -/
theorem snoopOut_spec (s : System cfg) (j a : ℕ) {t : MemoryMessageType} (ht : IsSnoop t)
    (hx : IsMESI ((s.l1 j).stateOf (cfg.blockOf a))) :
    ∃ c, snoopOut j s ⟨t, a⟩ = .ok ({ s with l1 := update s.l1 j c },
        snoopReply ((s.l1 j).stateOf (cfg.blockOf a)) t) ∧
      c.stateOf = update (s.l1 j).stateOf (cfg.blockOf a)
        (snoopNext ((s.l1 j).stateOf (cfg.blockOf a)) t) := by
  rw [← getTag_l1 j] at hx ⊢
  exact snoopIn_top (l1Ports_top unwired j) s ht a hx

/-- A snoop of a sharer and the update of the directory after it. -/
theorem snoop_sharer {s : System cfg} {v : Block} {a j : ℕ} (hs : s.Shows (cfg.blockOf a) v)
    (hj : j ∈ v.sharers) (hx : IsMESI (v.l1 j)) (hv : v.l1 j ≠ .invalid)
    {t : MemoryMessageType} (ht : IsSnoop t) :
    ∃ s' d, snoopOut j s ⟨t, a⟩ = .ok (s', snoopReply (v.l1 j) t) ∧
      s'.theDirectory.processSnoopResponse j (snoopReply (v.l1 j) t) (cfg.blockOf a) = .ok d ∧
      System.Shows { s' with theDirectory := d } (cfg.blockOf a) (v.snooped j t) ∧
      ∀ i, i ≠ j → Frame i (cfg.blockOf a) s { s' with theDirectory := d } := by
  obtain ⟨c, hc, hcs⟩ := snoopOut_spec s j a ht (by rwa [hs.l1])
  rw [hs.l1] at hc hcs
  obtain ⟨d, hd, hr, ho⟩ := processSnoopResponse_spec hs.dir hj hx hv ht
  refine ⟨_, d, hc, hd, ⟨fun i => ?_, hs.l2, hr⟩, fun i hi => ⟨?_, rfl, rfl, rfl, ?_⟩⟩
  · simp only [Block.snooped]
    by_cases hij : i = j
    · subst hij
      rw [update_self, update_self, hcs, update_self]
    · rw [update_of_ne hij, update_of_ne hij, hs.l1]
  · exact update_of_ne hi _ _
  · refine fun b' hb' w hw => ⟨fun k => ?_, hw.l2, records_congr (ho b' hb') hw.dir⟩
    by_cases hkj : k = j
    · subst hkj
      simp only [update_self, hcs]
      rw [update_of_ne hb', hw.l1]
    · simp only [update_of_ne hkj, hw.l1]

/-! ### The loop -/

section Loop

variable {action : PrimaryAction} {m : MemoryMessage} {i : ℕ}

/-- Whether a response is the second terminal one, which selects the second
response and the second next state. -/
def isSecond (action : PrimaryAction) (response : MemoryMessageType) : Prop :=
  response ≠ action.terminalResponse0 ∧ response = action.terminalResponse1

instance (action : PrimaryAction) (response : MemoryMessageType) :
    Decidable (isSecond action response) :=
  inferInstanceAs (Decidable (_ ∧ _))

theorem snoopOne_spec {l : Snooping cfg} {v : Block} {j : ℕ}
    (hs : l.sys.Shows (cfg.blockOf m.address) v) (hj : j ∈ v.sharers) (hx : IsMESI (v.l1 j))
    (hv : v.l1 j ≠ .invalid) (ht : IsSnoop action.snoopType) {resp : MemoryMessageType}
    (hr : combineSnoopResponse l.response (snoopReply (v.l1 j) action.snoopType) = .ok resp) :
    ∃ l', snoopOne action m (cfg.blockOf m.address) j l = .ok l' ∧
      l'.sys.Shows (cfg.blockOf m.address) (v.snooped j action.snoopType) ∧
      (∀ i, i ≠ j → Frame i (cfg.blockOf m.address) l.sys l'.sys) ∧
      l'.response = resp ∧
      l'.ourResponse = (if isSecond action resp then action.response1 else l.ourResponse) ∧
      l'.useNs1 = if isSecond action resp then true else l.useNs1 := by
  obtain ⟨s', d, hso, hd, hsh, hfr⟩ := snoop_sharer hs hj hx hv ht
  refine ⟨⟨{ s' with theDirectory := d }, resp,
    if isSecond action resp then action.response1 else l.ourResponse,
    if isSecond action resp then true else l.useNs1⟩, ?_, hsh, hfr, rfl, rfl, rfl⟩
  simp only [snoopOne, hso, bind, Except.bind, hr, hd]
  rfl

theorem snoopLoop_single {j addr : ℕ} (hji : j ≠ i) (everybody : Bool) (l : Snooping cfg) :
    snoopLoop action m addr i everybody [j] l = snoopOne action m addr j l := by
  rw [snoopLoop, if_neg hji]
  cases snoopOne action m addr j l with
  | error f => rfl
  | ok l' =>
    simp only [bind, Except.bind, snoopLoop]
    split <;> rfl

/-- **Reading from shared copies**: whoever is asked, nothing changes. -/
theorem snoopLoop_return {v : Block} (ht : action.snoopType = returnReq)
    (h0 : action.terminalResponse0 = returnReply) (everybody : Bool) (L : List ℕ)
    (hL : ∀ j ∈ L, j ∈ v.sharers ∧ v.l1 j = .shared ∧ j ≠ i) (l : Snooping cfg)
    (hs : l.sys.Shows (cfg.blockOf m.address) v)
    (hr : l.response = noRequest ∨ l.response = returnReply) :
    ∃ l', snoopLoop action m (cfg.blockOf m.address) i everybody L l = .ok l' ∧
      l'.sys.Shows (cfg.blockOf m.address) v ∧
      Frame i (cfg.blockOf m.address) l.sys l'.sys ∧
      l'.response = (if L = [] then l.response else returnReply) ∧
      l'.ourResponse = l.ourResponse ∧ l'.useNs1 = l.useNs1 := by
  induction L generalizing l with
  | nil => exact ⟨l, rfl, hs, Frame.refl _ _ _, rfl, rfl, rfl⟩
  | cons j L ih =>
    obtain ⟨hj, hjs, hji⟩ := hL j (List.mem_cons_self ..)
    have hreply : snoopReply (v.l1 j) action.snoopType = returnReply := by rw [hjs, ht]; rfl
    have hcomb : combineSnoopResponse l.response (snoopReply (v.l1 j) action.snoopType) =
        .ok returnReply := by
      rw [hreply]
      rcases hr with hr | hr <;> rw [hr] <;> rfl
    obtain ⟨l', hl', hsh, hfr, hresp, hour, hns⟩ := snoopOne_spec hs hj
      (by rw [hjs]; exact .inr (.inr (.inl rfl))) (by rw [hjs]; nofun)
      (by rw [ht]; exact .inl rfl) hcomb
    have hsec : ¬isSecond action returnReply := by
      rw [isSecond, h0]
      exact fun hc => hc.1 rfl
    rw [if_neg hsec] at hour hns
    have hsame : v.snooped j action.snoopType = v := by
      have hn : snoopNext (v.l1 j) action.snoopType = v.l1 j := by rw [hjs, ht]; rfl
      rw [Block.snooped, hn, update_eq_self, ht]
      rfl
    rw [hsame] at hsh
    rw [snoopLoop, if_neg hji, hl']
    simp only [bind, Except.bind]
    split
    · exact ⟨l', rfl, hsh, hfr i hji.symm, by simpa using hresp, hour, hns⟩
    · obtain ⟨l'', hl'', hsh', hfr', hresp', hour', hns'⟩ :=
        ih (fun k hk => hL k (List.mem_cons_of_mem _ hk)) l' hsh (.inr hresp)
      refine ⟨l'', hl'', hsh', (hfr i hji.symm).trans hfr', ?_, hour'.trans hour, hns'.trans hns⟩
      rw [hresp', hresp]
      simp

/-- The block after some of the private copies have been invalidated. -/
def Block.invalidated (v : Block) (i : ℕ) (L : List ℕ) : Block where
  l1 := fun j => if j ∈ L ∧ j ≠ i then .invalid else v.l1 j
  l2 := v.l2
  sharers := v.sharers.filter fun j => ¬(j ∈ L ∧ j ≠ i)

theorem System.Shows.congr {s : System cfg} {b : ℕ} {v w : Block} (h : s.Shows b v)
    (h1 : ∀ i, v.l1 i = w.l1 i) (h2 : v.l2 = w.l2) (h3 : v.sharers = w.sharers) :
    s.Shows b w :=
  ⟨fun i => (h.l1 i).trans (h1 i), h.l2.trans h2, h3 ▸ h.dir⟩

/-- **Invalidating shared copies**: all of them go, except the requester's. -/
theorem snoopLoop_invalidate (ht : action.snoopType = invalidate)
    (h0 : ¬isSecond action invalidateAck) (L : List ℕ) (hnd : L.Nodup) {v : Block}
    (hL : ∀ j ∈ L, j ∈ v.sharers ∧ (j ≠ i → v.l1 j = .shared)) (l : Snooping cfg)
    (hs : l.sys.Shows (cfg.blockOf m.address) v)
    (hr : l.response = noRequest ∨ l.response = invalidateAck) :
    ∃ l', snoopLoop action m (cfg.blockOf m.address) i true L l = .ok l' ∧
      l'.sys.Shows (cfg.blockOf m.address) (v.invalidated i L) ∧
      Frame i (cfg.blockOf m.address) l.sys l'.sys ∧
      ((∃ j ∈ L, j ≠ i) → l'.response = invalidateAck) ∧
      ((∀ j ∈ L, j = i) → l'.response = l.response) ∧
      l'.ourResponse = l.ourResponse ∧ l'.useNs1 = l.useNs1 := by
  induction L generalizing l v with
  | nil =>
    exact ⟨l, rfl, hs.congr (by simp [Block.invalidated]) rfl (by simp [Block.invalidated]),
      Frame.refl _ _ _, by simp, by simp, rfl, rfl⟩
  | cons j L ih =>
    obtain ⟨hjL, hnd'⟩ := List.nodup_cons.mp hnd
    by_cases hji : j = i
    · subst hji
      rw [snoopLoop, if_pos rfl]
      obtain ⟨l', hl', hsh, hfr, hresp, hresp', hrest⟩ :=
        ih hnd' (fun k hk => hL k (List.mem_cons_of_mem _ hk)) l hs hr
      refine ⟨l', hl', hsh.congr (fun k => ?_) rfl (Finset.filter_congr fun k _ => ?_), hfr,
        ?_, ?_, hrest⟩
      · simp only [Block.invalidated, List.mem_cons]
        by_cases hk : k = j <;> simp [hk]
      · by_cases hk : k = j <;> simp [hk]
      · rintro ⟨k, hk, hkj⟩
        exact hresp ⟨k, (List.mem_cons.mp hk).resolve_left hkj, hkj⟩
      · exact fun hall => hresp' fun k hk => hall k (List.mem_cons_of_mem _ hk)
    · obtain ⟨hj, hjs⟩ := hL j (List.mem_cons_self ..)
      have hjs := hjs hji
      have hcomb : combineSnoopResponse l.response (snoopReply (v.l1 j) action.snoopType) =
          .ok invalidateAck := by
        rw [hjs, ht]
        rcases hr with hr | hr <;> rw [hr] <;> rfl
      obtain ⟨l', hl', hsh, hfr, hresp, hour, hns⟩ := snoopOne_spec hs hj
        (by rw [hjs]; exact .inr (.inr (.inl rfl))) (by rw [hjs]; nofun)
        (by rw [ht]; exact .inr (.inl rfl)) hcomb
      rw [if_neg h0] at hour hns
      rw [snoopLoop, if_neg hji, hl']
      simp only [bind, Except.bind]
      rw [if_neg (by simp)]
      have hL' : ∀ k ∈ L, k ∈ (v.snooped j action.snoopType).sharers ∧
          (k ≠ i → (v.snooped j action.snoopType).l1 k = .shared) := by
        intro k hk
        have hkj : k ≠ j := fun hc => hjL (hc ▸ hk)
        obtain ⟨hks, hki⟩ := hL k (List.mem_cons_of_mem _ hk)
        simp only [Block.snooped, ht, if_true, update_of_ne hkj]
        exact ⟨Finset.mem_erase.mpr ⟨hkj, hks⟩, hki⟩
      obtain ⟨l'', hl'', hsh', hfr', hresp', hresp'', hour', hns'⟩ := ih hnd' hL' l' hsh (.inr hresp)
      refine ⟨l'', hl'', hsh'.congr (fun k => ?_) rfl ?_, (hfr i (Ne.symm hji)).trans hfr',
        fun _ => ?_, fun hall => absurd (hall j (List.mem_cons_self ..)) hji,
        hour'.trans hour, hns'.trans hns⟩
      · simp only [Block.invalidated, Block.snooped, List.mem_cons]
        by_cases hkj : k = j
        · subst hkj
          simp [hji, snoopNext, ht]
        · simp [hkj]
      · ext k
        simp only [Block.invalidated, Block.snooped, ht, if_true, Finset.mem_filter,
          Finset.mem_erase, List.mem_cons]
        by_cases hkj : k = j <;> simp [hkj, hji]
      · by_cases hex : ∃ k ∈ L, k ≠ i
        · exact hresp' hex
        · push Not at hex
          rw [hresp'' hex, hresp]

/-! ### The snooping of a request -/

theorem toList_of_single {S : SharingVector} {j : ℕ} (h : S.sharers = {j}) :
    S.toList = [j] := by
  have hlen : S.toList.length = 1 := by
    rw [SharingVector.length_toList, SharingVector.countSharers, h, Finset.card_singleton]
  obtain ⟨k, hk⟩ := List.length_eq_one_iff.mp hlen
  have hkj : k ∈ S.toList := by rw [hk]; exact List.mem_singleton_self k
  rw [SharingVector.mem_toList, h, Finset.mem_singleton] at hkj
  rw [hk, hkj]

/-- A private cache has the block modified. -/
def Block.DirtyAbove (v : Block) : Prop := ∃ j, v.l1 j = .modified

/-- The outcome of snooping: the response, and what follows from it. -/
structure Snooped (action : PrimaryAction) (response : MemoryMessageType) (l : Snooping cfg) :
    Prop where
  response_eq : l.response = response
  ourResponse_eq : l.ourResponse =
    if isSecond action response then action.response1 else action.response0
  useNs1_eq : l.useNs1 = if isSecond action response then true else false

theorem Block.not_dirtyAbove {v : Block} (hall : ∀ j, v.l1 j = .invalid ∨ v.l1 j = .shared) :
    ¬v.DirtyAbove := by
  rintro ⟨j, hj⟩
  rcases hall j with h | h <;> rw [hj] at h <;> cases h

/-- **The only sharer** is snooped, and its reply is the outcome. -/
theorem snoopLoop_of_single {n j : ℕ} {everybody : Bool} {v : Block} (h : v.Ok n) {s : System cfg}
    (hs : s.Shows (cfg.blockOf m.address) v) (hj : v.sharers = {j}) (hji : j ≠ i)
    (ht : IsSnoop action.snoopType) {S : SharingVector} (hS : S.sharers = v.sharers) :
    (∀ k, k ≠ j → v.l1 k = .invalid) ∧ (v.DirtyAbove ↔ v.l1 j = .modified) ∧
      v.l1 j ≠ .invalid ∧ ∃ l, snoopLoop action m (cfg.blockOf m.address) i everybody S.toList
        ⟨s, noRequest, action.response0, false⟩ = .ok l ∧
        l.sys.Shows (cfg.blockOf m.address) (v.snooped j action.snoopType) ∧
        Frame i (cfg.blockOf m.address) s l.sys ∧
        Snooped action (snoopReply (v.l1 j) action.snoopType) l := by
  have hjs : j ∈ v.sharers := by rw [hj]; exact Finset.mem_singleton_self j
  have hjv := (h.mem_sharers j).mp hjs
  have hothers : ∀ k, k ≠ j → v.l1 k = .invalid := by
    intro k hk
    by_contra hkv
    have := (h.mem_sharers k).mpr hkv
    rw [hj, Finset.mem_singleton] at this
    exact hk this
  refine ⟨hothers, ⟨?_, fun hm => ⟨j, hm⟩⟩, hjv, ?_⟩
  · rintro ⟨k, hk⟩
    by_cases hkj : k = j
    · exact hkj ▸ hk
    · rw [hothers k hkj] at hk
      cases hk
  · have hcomb : combineSnoopResponse noRequest (snoopReply (v.l1 j) action.snoopType) =
        .ok (snoopReply (v.l1 j) action.snoopType) := rfl
    rw [toList_of_single (hS.trans hj), snoopLoop_single hji]
    obtain ⟨l, hl, hsh, hfr, hresp, hour, hns⟩ := snoopOne_spec (m := m)
      (l := ⟨s, noRequest, action.response0, false⟩) hs hjs (h.mesi j) hjv ht hcomb
    exact ⟨l, hl, hsh, hfr i hji.symm, hresp, hour, hns⟩

/-- **Reading from the private caches**: every copy is shared afterwards, and the
reply says whether one was dirty. -/
theorem snoop_return {n : ℕ} {v : Block} (h : v.Ok n) {s : System cfg}
    (hs : s.Shows (cfg.blockOf m.address) v) (hi : i ∉ v.sharers) (hne : v.sharers.Nonempty)
    {S : SharingVector} (hS : S.sharers = v.sharers) (ht : action.snoopType = returnReq)
    (h0 : action.terminalResponse0 = returnReply) :
    ∃ l, snoop action m (cfg.blockOf m.address) i S s = .ok l ∧
      l.sys.Shows (cfg.blockOf m.address) v.share ∧
      Frame i (cfg.blockOf m.address) s l.sys ∧
      (v.DirtyAbove ∧ Snooped action returnReplyDirty l ∨
        ¬v.DirtyAbove ∧ Snooped action returnReply l) := by
  have hno : action.snoopType ≠ noRequest := by rw [ht]; nofun
  simp only [snoop, if_neg hno]
  have hsec : ¬isSecond action returnReply := by
    rw [isSecond, h0]
    exact fun hc => hc.1 rfl
  rcases Nat.lt_or_ge v.sharers.card 2 with hc | hc
  · -- one sharer, in any state
    obtain ⟨j, hj⟩ := Finset.card_eq_one.mp
      (Nat.le_antisymm (Nat.le_of_lt_succ hc) hne.card_pos)
    have hji : j ≠ i := fun hc => hi (hc ▸ hj ▸ Finset.mem_singleton_self j)
    have hsnoop : IsSnoop action.snoopType := by rw [ht]; exact .inl rfl
    obtain ⟨hothers, hdirty, hjv, l, hl, hsh, hfr, hsn⟩ :=
      snoopLoop_of_single (m := m) h hs hj hji hsnoop hS
    refine ⟨l, hl, hsh.congr (fun k => ?_) rfl (by simp [Block.snooped, ht, Block.share]), hfr, ?_⟩
    · simp only [Block.snooped, Block.share]
      by_cases hk : k = j
      · subst hk
        rw [update_self, if_neg hjv, snoopNext, ht, if_neg (by simp [hjv])]
      · rw [update_of_ne hk, hothers k hk, if_pos rfl]
    · by_cases hm : v.l1 j = .modified
      · rw [hm, ht] at hsn
        exact .inl ⟨hdirty.mpr hm, hsn⟩
      · have hrep : snoopReply (v.l1 j) action.snoopType = returnReply := by
          simp [snoopReply, ht, hm, hjv]
        rw [hrep] at hsn
        exact .inr ⟨mt hdirty.mp hm, hsn⟩
  · -- several sharers, all of them shared
    have hsh : ∀ j ∈ v.sharers, v.l1 j = .shared := fun j hj => h.shared_of_two hc hj
    have hL : ∀ j ∈ S.toList, j ∈ v.sharers ∧ v.l1 j = .shared ∧ j ≠ i := by
      intro j hj
      rw [SharingVector.mem_toList, hS] at hj
      exact ⟨hj, hsh j hj, fun hji => hi (hji ▸ hj)⟩
    have hnil : S.toList ≠ [] := by
      obtain ⟨j, hj⟩ := hne
      exact List.ne_nil_of_mem (SharingVector.mem_toList.mpr (hS ▸ hj))
    obtain ⟨l, hl, hsh', hfr, hresp, hour, hns⟩ := snoopLoop_return (v := v) (i := i) ht h0 _
      S.toList hL (⟨s, noRequest, action.response0, false⟩ : Snooping cfg) hs (.inl rfl)
    refine ⟨l, hl, hsh'.congr (fun k => ?_) rfl rfl, hfr,
      .inr ⟨Block.not_dirtyAbove (h.invalid_or_shared hc), ?_, ?_, ?_⟩⟩
    · simp only [Block.share]
      by_cases hk : v.l1 k = .invalid
      · rw [if_pos hk, hk]
      · rw [if_neg hk, hsh k ((h.mem_sharers k).mpr hk)]
    · rw [hresp, if_neg hnil]
    · rw [hour, if_neg hsec]
    · rw [hns, if_neg hsec]

/-- **Invalidating the private caches**: every copy but the requester's is gone
afterwards, and the reply says whether one was dirty. -/
theorem snoop_invalidate {n : ℕ} {v : Block} (h : v.Ok n) {s : System cfg}
    (hs : s.Shows (cfg.blockOf m.address) v) (hne : ∃ j ∈ v.sharers, j ≠ i)
    (hmulti : 2 ≤ v.sharers.card → action.multicast = true)
    {S : SharingVector} (hS : S.sharers = v.sharers) (ht : action.snoopType = invalidate)
    (h0 : ¬isSecond action invalidateAck) :
    ∃ l, snoop action m (cfg.blockOf m.address) i S s = .ok l ∧
      l.sys.Shows (cfg.blockOf m.address) (v.keepOnly i) ∧
      Frame i (cfg.blockOf m.address) s l.sys ∧
      (v.DirtyAbove ∧ Snooped action invUpdateAck l ∨
        ¬v.DirtyAbove ∧ Snooped action invalidateAck l) := by
  have hno : action.snoopType ≠ noRequest := by rw [ht]; nofun
  simp only [snoop, if_neg hno]
  obtain ⟨j, hjs, hji⟩ := hne
  rcases Nat.lt_or_ge v.sharers.card 2 with hc | hc
  · have hj : v.sharers = {j} := by
      obtain ⟨k, hk⟩ := Finset.card_eq_one.mp
        (Nat.le_antisymm (Nat.le_of_lt_succ hc) (Finset.card_pos.mpr ⟨j, hjs⟩))
      rw [hk, Finset.mem_singleton] at hjs
      rw [hk, hjs]
    have hsnoop : IsSnoop action.snoopType := by rw [ht]; exact .inr (.inl rfl)
    obtain ⟨hothers, hdirty, hjv, l, hl, hsh, hfr, hsn⟩ :=
      snoopLoop_of_single (m := m) h hs hj hji hsnoop hS
    refine ⟨l, hl, hsh.congr (fun k => ?_) rfl ?_, hfr, ?_⟩
    · simp only [Block.snooped, Block.keepOnly, snoopNext, ht, true_or, if_true]
      by_cases hk : k = j
      · subst hk
        rw [update_self, if_neg hji]
      · rw [update_of_ne hk, hothers k hk, ite_self]
    · ext k
      simp only [Block.snooped, ht, if_true, Block.keepOnly, hj, Finset.erase_singleton,
        Finset.mem_filter, Finset.mem_singleton, Finset.notMem_empty, false_iff, not_and]
      rintro rfl
      exact hji
    · by_cases hm : v.l1 j = .modified
      · rw [hm, ht] at hsn
        exact .inl ⟨hdirty.mpr hm, hsn⟩
      · have hrep : snoopReply (v.l1 j) action.snoopType = invalidateAck := by
          simp [snoopReply, ht, hm, hjv]
        rw [hrep] at hsn
        exact .inr ⟨mt hdirty.mp hm, hsn⟩
  · have hsh : ∀ k ∈ v.sharers, v.l1 k = .shared := fun k hk => h.shared_of_two hc hk
    have hL : ∀ k ∈ S.toList, k ∈ v.sharers ∧ (k ≠ i → v.l1 k = .shared) := by
      intro k hk
      rw [SharingVector.mem_toList, hS] at hk
      exact ⟨hk, fun _ => hsh k hk⟩
    obtain ⟨l, hl, hsh', hfr, hresp, -, hour, hns⟩ := snoopLoop_invalidate (v := v) (i := i) ht
      h0 S.toList SharingVector.nodup_toList hL
      (⟨s, noRequest, action.response0, false⟩ : Snooping cfg) hs (.inl rfl)
    have hmem : ∀ k, k ∈ S.toList ↔ v.l1 k ≠ .invalid := by
      intro k
      rw [SharingVector.mem_toList, hS, h.mem_sharers]
    refine ⟨l, ?_, hsh'.congr (fun k => ?_) rfl ?_, hfr,
      .inr ⟨Block.not_dirtyAbove (h.invalid_or_shared hc), ?_, ?_, ?_⟩⟩
    · simp only [hmulti hc, true_or, decide_true]
      exact hl
    · simp only [Block.invalidated, Block.keepOnly, hmem]
      by_cases hk : k = i
      · simp [hk]
      · by_cases hkv : v.l1 k = .invalid <;> simp [hk, hkv]
    · ext k
      simp only [Block.invalidated, Block.keepOnly, hmem, Finset.mem_filter, h.mem_sharers]
      by_cases hk : k = i
      · simp [hk]
      · by_cases hkv : v.l1 k = .invalid <;> simp [hk, hkv]
    · exact hresp ⟨j, SharingVector.mem_toList.mpr (hS ▸ hjs), hji⟩
    · rw [hour, if_neg h0]
    · rw [hns, if_neg h0]

end Loop

end FastCMPCache

end Flexus
