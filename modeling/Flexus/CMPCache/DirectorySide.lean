import Flexus.CMPCache.Departures

/-!
# What a bank does to its directory

The policy of a bank (`components/CMPCache/NonInclusiveMESIPolicy.cpp`) changes the directory and
the evict buffer of the directory in a few places. A request gets its block a way, which may push a
victim into the buffer or take the block out of it. An eviction or an answer to a back-invalidation
takes a sharer away. Everything else at most writes sharers, and the protection of a way.

The invariant (`Flexus.CMPCache.Policy.Leaving`) is that both are in order, and that a block in the
buffer has no way in the directory; a victim is therefore never in the buffer already.
-/

namespace Flexus

open Lib

namespace CMPCache

open MemoryMessageType

variable {γ : Type}

/-- **A bank over a set-associative directory**, the blocks of which are those of the array. -/
structure OverSets (g : Geometry) (skewShift : Option ℕ) (cfg : Config DirSets γ) : Prop where
  directory : ∃ start, start.Tame g skewShift ∧
    cfg.directory = directoryOf g skewShift cfg.theCores start
  blockAddress : cfg.array.blockAddress = g.blockAddress
  blockSize : ∃ k, g.theBlockSize = 2 ^ k

section Directory

variable {g : Geometry} {skewShift : Option ℕ} {cfg : Config DirSets γ} {d d' : DirSets} {a : ℕ}
  {x : SimpleDirectoryState}

theorem OverSets.quiet_setState (h : OverSets g skewShift cfg)
    (hx : d.Tame g skewShift → x.Fits) :
    DirSets.Quiet g skewShift d (cfg.directory.setState d a x) := by
  obtain ⟨start, -, heq⟩ := h.directory
  rw [heq]
  exact DirSets.quiet_setState h.blockSize hx

theorem OverSets.quiet_setProtected (h : OverSets g skewShift cfg) {p : Bool} :
    DirSets.Quiet g skewShift d (cfg.directory.setProtected d a p) := by
  obtain ⟨start, -, heq⟩ := h.directory
  rw [heq]
  exact DirSets.quiet_setProtected h.blockSize

theorem OverSets.fits_lookup (h : OverSets g skewShift cfg) (hd : d.Tame g skewShift)
    (hx : cfg.directory.lookup d a = some x) : x.Fits := by
  obtain ⟨start, -, heq⟩ := h.directory
  rw [heq] at hx
  exact hd.fits_lookup hx

end Directory

namespace Policy

/-- **The directory side of a bank is in order**, when the given numbers of answers are still to
come. -/
structure Leaving (g : Geometry) (skewShift : Option ℕ) (w : ℕ → ℕ) (s : Policy DirSets γ) :
    Prop where
  directory : s.theDirectory.Tame g skewShift
  buffer : s.theDirEvictBuffer.Sound w
  apart : ∀ e ∈ s.theDirEvictBuffer.entries, s.theDirectory.Absent g skewShift e.address

variable {g : Geometry} {skewShift : Option ℕ} {cfg : Config DirSets γ} {w w' : ℕ → ℕ}
  {s s' t : Policy DirSets γ} {p p' : Process} {hasMaf mafWaiting found fwd : Bool} {a : ℕ}
  {st : MAFState} {action : ProcessAction}

theorem Leaving.frame (h : s.Leaving g skewShift w)
    (hd : DirSets.Quiet g skewShift s.theDirectory s'.theDirectory)
    (hb : s'.theDirEvictBuffer = s.theDirEvictBuffer) : s'.Leaving g skewShift w where
  directory := hd.tame h.directory
  buffer := hb ▸ h.buffer
  apart e he := hd.absent (h.apart e (hb ▸ he))

theorem Leaving.congr (h : s.Leaving g skewShift w) (hd : s'.theDirectory = s.theDirectory)
    (hb : s'.theDirEvictBuffer = s.theDirEvictBuffer) : s'.Leaving g skewShift w :=
  h.frame (hd ▸ .refl) hb

theorem Leaving.rests (h : s.Leaving g skewShift w) (hr : Rests s s') :
    s'.Leaving g skewShift w where
  directory := hr.theDirectory ▸ h.directory
  buffer := by
    rw [hr.dirEB]
    exact h.buffer.congr rfl rfl rfl
  apart e he := by
    rw [hr.dirEB] at he
    rw [hr.theDirectory]
    exact h.apart e he

/-- A change of the buffer alone, in which no block comes in. -/
theorem Leaving.change (h : s.Leaving g skewShift w) (hd : s'.theDirectory = s.theDirectory)
    (hb : s'.theDirEvictBuffer.Sound w') (haddress : ∀ c, s'.theDirEvictBuffer.find c ≠ none →
      s.theDirEvictBuffer.find c ≠ none) : s'.Leaving g skewShift w' where
  directory := hd ▸ h.directory
  buffer := hb
  apart e he := by
    have hfind : s'.theDirEvictBuffer.find e.address = some e :=
      Keyed.lookup_of_mem s'.theDirEvictBuffer.unique he
    have hold := haddress e.address (by rw [hfind]; exact nofun)
    obtain ⟨x, hx⟩ := Option.ne_none_iff_exists'.mp hold
    rw [hd, ← Keyed.key_of_lookup hx]
    exact h.apart x (Keyed.mem_of_lookup hx)

theorem Leaving.absent (h : s.Leaving g skewShift w) (ha : s.theDirEvictBuffer.find a ≠ none) :
    s.theDirectory.Absent g skewShift a := by
  obtain ⟨x, hx⟩ := Option.ne_none_iff_exists'.mp ha
  rw [← Keyed.key_of_lookup hx]
  exact h.apart x (Keyed.mem_of_lookup hx)

/-! ### A request is served -/

theorem quiet_serveRead (hcfg : OverSets g skewShift cfg) {d : SimpleDirectoryState}
    {c : CacheState} (hd : s.theDirectory.Tame g skewShift → d.Fits)
    (h : s.serveRead cfg p hasMaf mafWaiting a d c = .ok (s', p')) :
    DirSets.Quiet g skewShift s.theDirectory s'.theDirectory := by
  simp only [serveRead] at h
  split at h
  · split at h
    · rw [(served_stallIn h).theDirectory]
      exact .refl
    · rw [(served_acceptKeeping h rfl).theDirectory]
      exact .refl
  · split at h
    · rw [(served_stallIn h).theDirectory, (giveAway_frame cfg s a _ c).2.2]
      exact .refl
    · split at h
      · cases h
      · rename_i d' hadd
        rw [(served_accept h rfl).theDirectory]
        simp only [(giveAway_frame cfg s a _ c).2.2]
        exact hcfg.quiet_setState fun hs => (hd hs).addSharer hadd

theorem quiet_serveWrite (hcfg : OverSets g skewShift cfg) {d : SimpleDirectoryState}
    {c : CacheState} (hd : s.theDirectory.Tame g skewShift → d.Fits)
    (h : s.serveWrite cfg p hasMaf a d c = .ok (s', p')) :
    DirSets.Quiet g skewShift s.theDirectory s'.theDirectory := by
  simp only [serveWrite] at h
  by_cases hn : d.noSharers = true
  · rw [if_pos hn] at h
    split at h
    · cases h
    · rename_i d' hadd
      rw [(served_accept h rfl).theDirectory]
      exact hcfg.quiet_setState fun hs => (hd hs).addSharer hadd
  · rw [if_neg hn] at h
    obtain ⟨-, h⟩ := of_ite_error_eq_ok h
    rw [(served_accept h rfl).theDirectory, dropCopy_frame.2.2]
    split
    · exact .refl
    · exact .refl

/-- **A request that is served** writes sharers and a protection. -/
theorem quiet_serve (hcfg : OverSets g skewShift cfg)
    (h : s.serve cfg p hasMaf mafWaiting found a = .ok (s', p')) :
    DirSets.Quiet g skewShift s.theDirectory s'.theDirectory := by
  simp only [serve] at h
  split at h
  · split at h
    · rw [(served_accept h rfl).theDirectory]
      exact .refl
    · rw [(served_accept h rfl).theDirectory]
      exact .refl
  · generalize ht : (if p.transport.type = nonAllocatingStoreReq then s else _) = t at h
    have hquiet : DirSets.Quiet g skewShift s.theDirectory t.theDirectory := by
      rw [← ht]
      split
      · exact .refl
      · exact hcfg.quiet_setProtected
    have hfits : t.theDirectory.Tame g skewShift →
        ((cfg.directory.lookup t.theDirectory a).getD (.reset cfg.theCores)).Fits := by
      intro htame
      cases hlookup : cfg.directory.lookup t.theDirectory a with
      | none => exact SimpleDirectoryState.fits_reset
      | some x => exact hcfg.fits_lookup htame hlookup
    refine hquiet.trans ?_
    split at h
    · rw [(served_serveFromMemory h).theDirectory]
      exact .refl
    · split at h
      · exact quiet_serveRead hcfg hfits h
      · exact quiet_serveRead hcfg hfits h
      · exact quiet_serveWrite hcfg hfits h
      · rw [(served_serveUpgrade h).theDirectory]
        exact .refl
      · rw [(served_serveNAS h).theDirectory]
        exact .refl
      · cases h

theorem Leaving.serve (h : s.Leaving g skewShift w) (hcfg : OverSets g skewShift cfg)
    (hserve : s.serve cfg p hasMaf mafWaiting found a = .ok (s', p')) :
    s'.Leaving g skewShift w :=
  h.frame (quiet_serve hcfg hserve) (served_serve hserve).dirEB

theorem Leaving.stallIn (h : s.Leaving g skewShift w)
    (hstall : s.stallIn p hasMaf a st = .ok (s', p')) : s'.Leaving g skewShift w :=
  h.congr (served_stallIn hstall).theDirectory (served_stallIn hstall).dirEB

theorem Leaving.withArray (h : s.Leaving g skewShift w) (hcfg : OverSets g skewShift cfg)
    (harray : s.withArray cfg p hasMaf mafWaiting found a = .ok (s', p')) :
    s'.Leaving g skewShift w := by
  rcases withArray_cases harray with ⟨e, -, -, -, hstall⟩ | ⟨t, ht, hserve⟩
  · exact h.stallIn hstall
  · exact (h.congr ht.directory.1 ht.directory.2).serve hcfg hserve

/-! ### A block gets a way -/

/-- **An allocation**: the victim goes to the buffer, where it was not. If the block was there, it
still is. -/
theorem Leaving.allocateEntry (h : s.Leaving g skewShift w) (hcfg : OverSets g skewShift cfg)
    (ha : cfg.array.blockAddress a = a) (hnone : cfg.directory.lookup s.theDirectory a = none)
    {d : SimpleDirectoryState} (hd : d.Fits) (halloc : s.allocateEntry cfg a d = some t) :
    t.theDirectory.Tame g skewShift ∧ t.theDirEvictBuffer.Sound w ∧
      (∀ e ∈ t.theDirEvictBuffer.entries, e.address ≠ a →
        t.theDirectory.Absent g skewShift e.address) ∧
      t.theDirEvictBuffer.find a = s.theDirEvictBuffer.find a := by
  obtain ⟨start, -, heq⟩ := hcfg.directory
  rw [hcfg.blockAddress] at ha
  rw [heq] at hnone
  rw [Policy.allocateEntry, heq] at halloc
  split at halloc
  · cases halloc
  · rename_i dir v hv
    cases halloc
    obtain ⟨htame, hother, hvictim⟩ :=
      h.directory.allocate hd (DirSets.absent_of_lookup ha hnone) hv
    rcases v with - | ⟨va, vd⟩
    · exact ⟨htame, h.buffer, fun e he hne => hother _ hne (h.apart e he), rfl⟩
    · obtain ⟨hsharers, hfits, hne, hpresent, habsent⟩ := hvictim va vd rfl
      have hfree : s.theDirEvictBuffer.find va = none := by
        by_contra hc
        exact hpresent (h.absent hc)
      refine ⟨htame, h.buffer.insert hfree hsharers hfits, fun e he hea => ?_, ?_⟩
      · by_cases hev : e.address = va
        · rw [hev]
          exact habsent
        · refine hother _ hea (h.absent ?_)
          have hfind : (s.theDirEvictBuffer.insert va vd).find e.address = some e :=
            Keyed.lookup_of_mem (s.theDirEvictBuffer.insert va vd).unique he
          rw [DirEvictBuffer.find_insert, if_neg fun hc => hev hc.1] at hfind
          rw [hfind]
          exact Option.some_ne_none _
      · exact DirEvictBuffer.find_insert.trans (if_neg fun hc => hne hc.1.symm)

/-- **A block moves back** into the directory. -/
theorem Leaving.moved (h : s.Leaving g skewShift w) (hcfg : OverSets g skewShift cfg)
    (ha : cfg.array.blockAddress a = a) (hnone : cfg.directory.lookup s.theDirectory a = none)
    {e : DirEBEntry} (he : s.theDirEvictBuffer.find a = some e) (hidle : e.theInvalidatesSent = 0)
    (halloc : s.allocateEntry cfg a e.state = some t) {b : DirEvictBuffer}
    (hremove : t.theDirEvictBuffer.remove a = .ok b) :
    { t with theDirEvictBuffer := b }.Leaving g skewShift w := by
  have hfits : e.state.Fits := h.buffer.fits e (Keyed.mem_of_lookup he)
  obtain ⟨htame, hsound, hapart, hfind⟩ := h.allocateEntry hcfg ha hnone hfits halloc
  refine ⟨htame, hsound.remove (hfind.trans he) (DirEBEntry.pending_eq_false.mpr hidle) hremove,
    fun x hx => ?_⟩
  obtain ⟨-, -, hentries, -⟩ := DirEvictBuffer.remove_entries hremove
  have hx : x ∈ b.entries := hx
  rw [hentries, Keyed.erase, List.mem_filter, bne_iff_ne] at hx
  exact hapart x hx.1 hx.2

theorem Leaving.fresh (h : s.Leaving g skewShift w) (hcfg : OverSets g skewShift cfg)
    (ha : cfg.array.blockAddress a = a) (hnone : cfg.directory.lookup s.theDirectory a = none)
    (he : s.theDirEvictBuffer.find a = none)
    (halloc : s.allocateEntry cfg a (.reset cfg.theCores) = some t) :
    t.Leaving g skewShift w := by
  obtain ⟨htame, hsound, hapart, hfind⟩ :=
    h.allocateEntry hcfg ha hnone SimpleDirectoryState.fits_reset halloc
  refine ⟨htame, hsound, fun x hx => hapart x hx ?_⟩
  rintro rfl
  have hx : t.theDirEvictBuffer.find x.address = some x :=
    Keyed.lookup_of_mem t.theDirEvictBuffer.unique hx
  rw [hfind, he] at hx
  cases hx

theorem Leaving.withDirectory (h : s.Leaving g skewShift w) (hcfg : OverSets g skewShift cfg)
    (ha : cfg.array.blockAddress a = a) (hsettled : s.settled a)
    (hdirectory : s.withDirectory cfg p hasMaf mafWaiting a = .ok (s', p')) :
    s'.Leaving g skewShift w := by
  rcases withDirectory_cases hdirectory with ⟨-, -, hstall⟩ | ⟨t, found, ht, harray⟩
  · exact h.stallIn hstall
  · refine Leaving.withArray ?_ hcfg harray
    cases ht with
    | found _ => exact h
    | moved hnone he halloc hremove =>
      exact h.moved hcfg ha hnone he (hsettled _ he) halloc hremove
    | fresh hnone he halloc => exact h.fresh hcfg ha hnone he halloc
    | none _ _ _ => exact h

/-! ### Evictions by the caches above -/

theorem theDirectory_evictCacheBlock {state : CacheState} :
    (evictCacheBlock cfg s state a).theDirectory = s.theDirectory :=
  theCache_evictCacheBlock.2

theorem find_of_update {b : DirEvictBuffer} {f : DirEBEntry → DirEBEntry} {c : ℕ}
    (hf : ∀ e, (f e).address = e.address) (h : (b.update a f hf).find c ≠ none) :
    b.find c ≠ none := by
  intro hnone
  refine h (DirEvictBuffer.find_update.trans ?_)
  rw [hnone]
  exact ite_self _

theorem Leaving.yieldRoom (h : s.Leaving g skewShift w) :
    (s.yieldRoom a).Leaving g skewShift w := by
  refine h.change rfl ?_ fun c =>
    find_of_update (f := fun e => { e with cacheEBReserved := 0 }) fun _ => rfl
  cases he : s.theDirEvictBuffer.find a with
  | none =>
    have hsame : (s.yieldRoom a).theDirEvictBuffer.entries = s.theDirEvictBuffer.entries :=
      Keyed.update_of_lookup_none he
    exact h.buffer.congr hsame rfl rfl
  | some e =>
    obtain ⟨rfl, l₁, l₂, hl⟩ := Keyed.exists_split he
    have hmem := Keyed.mem_of_lookup he
    refine h.buffer.change (f := fun e => { e with cacheEBReserved := 0 }) hl (fun _ => rfl) rfl rfl
      ?_ (.inl rfl) (fun hp => h.buffer.sharers e hmem hp) (h.buffer.fits e hmem) ?_ fun _ _ => rfl
    · exact (Int.add_sub_cancel _ _).symm
    · have hawaited := h.buffer.awaited e.address
      rwa [DirEvictBuffer.sent, he] at hawaited

theorem Leaving.evictData (h : s.Leaving g skewShift w)
    (hdata : evictData cfg s p = .ok (s', p', fwd)) : s'.Leaving g skewShift w := by
  simp only [Policy.evictData] at hdata
  split at hdata
  · split at hdata
    · split at hdata
      · cases hdata
      · cases hdata
        exact h.yieldRoom.congr theDirectory_evictCacheBlock theDirEvictBuffer_evictCacheBlock
    · split at hdata
      · cases hdata
        exact h.yieldRoom
      · cases hdata
        exact h.yieldRoom
  · cases hdata
    exact h.congr rfl rfl

/-- **A sharer is taken away.** A block without invalidates outstanding leaves the buffer with its
last sharer. -/
theorem Leaving.evictSharer (h : s.Leaving g skewShift w) (hcfg : OverSets g skewShift cfg)
    {activeWrite : Bool} (hevict : evictSharer cfg s p activeWrite fwd = .ok (s', p')) :
    s'.Leaving g skewShift w := by
  simp only [Policy.evictSharer] at hevict
  split at hevict
  · rename_i e he
    obtain ⟨-, hevict⟩ := of_ite_error_eq_ok hevict
    have hmem := Keyed.mem_of_lookup he
    split at hevict
    · cases hevict
    · rename_i d hd
      have hfits : d.Fits := by
        split at hd
        · exact (h.buffer.fits e hmem).removeSharer hd
        · cases hd
          exact h.buffer.fits e hmem
      split at hevict
      · rename_i hgone
        have hidle : e.pending = false := DirEBEntry.pending_eq_false.mpr hgone.1
        split at hevict
        · cases hevict
        · rename_i b hremove
          have hleft : { s with theDirEvictBuffer := b }.Leaving g skewShift w := by
            have hsound : b.Sound w := h.buffer.remove_update (f := fun e => { e with state := d })
              he hidle (fun _ => rfl) (fun _ => rfl) hremove
            refine h.change rfl hsound fun c hc => find_of_update (a := p.transport.address)
              (f := fun e => { e with state := d }) (fun _ => rfl) fun hnone => hc ?_
            exact ((DirEvictBuffer.remove_spec hremove).2 c).trans (by rw [hnone, ite_self])
          split at hevict
          · cases hevict
            exact hleft
          · obtain ⟨-, hevict⟩ := of_ite_error_eq_ok hevict
            cases hevict
            exact hleft
      · rename_i hkept
        cases hevict
        refine h.change rfl ?_ fun c =>
          find_of_update (f := fun e => { e with state := d }) fun _ => rfl
        obtain ⟨haddress, l₁, l₂, hl⟩ := Keyed.exists_split he
        rw [← haddress] at he ⊢
        refine h.buffer.change (f := fun e => { e with state := d }) hl (fun _ => rfl) rfl rfl
          (Int.add_sub_cancel _ _).symm (.inl rfl) (fun hp hempty => ?_) hfits ?_ fun _ _ => rfl
        · exact hkept ⟨DirEBEntry.pending_eq_false.mp hp, decide_eq_true hempty⟩
        · have hawaited := h.buffer.awaited e.address
          rwa [DirEvictBuffer.sent, he] at hawaited
  · split at hevict
    · cases hevict
      exact h
    · rename_i d hlookup
      split at hevict
      · cases hevict
      · rename_i d' hd'
        cases hevict
        refine h.frame (hcfg.quiet_setState fun htame => ?_) rfl
        exact (hcfg.fits_lookup htame hlookup).removeSharer hd'

theorem Leaving.doEvict (h : s.Leaving g skewShift w) (hcfg : OverSets g skewShift cfg)
    (hevict : s.doEvict cfg p hasMaf = .ok (s', p')) : s'.Leaving g skewShift w := by
  simp only [Policy.doEvict] at hevict
  split at hevict
  · exact h.stallIn hevict
  · split at hevict
    · split at hevict
      · cases hevict
      · rename_i hdata
        exact (h.evictData hdata).evictSharer hcfg hevict
    · exact h.evictSharer hcfg hevict

/-! ### Requests -/

theorem Leaving.admitRequest (h : s.Leaving g skewShift w) (hcfg : OverSets g skewShift cfg)
    (ha : cfg.array.blockAddress a = a)
    (hreq : s.admitRequest cfg p hasMaf mafWaiting a = .ok (s', p')) :
    s'.Leaving g skewShift w := by
  rw [Policy.admitRequest] at hreq
  split at hreq
  · exact h.doEvict hcfg hreq
  · split at hreq
    · cases hreq
      exact h
    · split at hreq
      · rename_i e he
        split at hreq
        · exact h.stallIn hreq
        · rename_i hidle
          refine h.withDirectory hcfg ha (fun x hx => ?_) hreq
          obtain rfl := Option.some.inj (he.symm.trans hx)
          exact not_not.mp hidle
      · rename_i hnone
        refine h.withDirectory hcfg ha (fun x hx => ?_) hreq
        rw [hnone] at hx
        cases hx

/-- **A request** leaves the directory side in order. -/
theorem Leaving.doRequest (h : s.Leaving g skewShift w) (hcfg : OverSets g skewShift cfg)
    (hrequest : s.doRequest cfg p hasMaf = .ok (s', p')) : s'.Leaving g skewShift w := by
  have ha := cfg.array.blockAddress_idem p.transport.address
  simp only [Policy.doRequest] at hrequest
  split at hrequest
  · exact h.admitRequest hcfg ha hrequest
  · split at hrequest
    · split at hrequest
      · exact h.doEvict hcfg hrequest
      · exact h.stallIn hrequest
    · split at hrequest
      · exact h.doEvict hcfg hrequest
      · exact h.stallIn hrequest
    · exact h.stallIn hrequest
    · split at hrequest
      · exact h.stallIn hrequest
      · exact h.admitRequest hcfg ha hrequest
    · exact h.admitRequest hcfg ha hrequest
    · exact h.admitRequest hcfg ha hrequest
    · exact h.admitRequest hcfg ha hrequest
    · cases hrequest

/-! ### Replies -/

theorem Leaving.handleReadAck (h : s.Leaving g skewShift w) (hcfg : OverSets g skewShift cfg)
    (hreply : s.handleReadAck cfg p = .ok (s', p')) : s'.Leaving g skewShift w := by
  rw [Policy.handleReadAck] at hreply
  split at hreply
  · cases hreply
  · rename_i x hx
    generalize htake : s.takeReserved { p with maf := some x.serial } x = r at hreply
    obtain ⟨t, q⟩ := r
    have ht := h.rests (rests_takeReserved htake)
    dsimp only at hreply
    split at hreply
    · cases hreply
    · rename_i d hlookup
      split at hreply
      · cases hreply
      · rename_i d' hd'
        have hset : Policy.Leaving g skewShift w { t with
            theDirectory := cfg.directory.setState t.theDirectory p.transport.address d' } := by
          refine ht.frame (hcfg.quiet_setState fun htame => ?_) rfl
          have hfits := hcfg.fits_lookup htame hlookup
          split at hd'
          · cases hd'
            exact hfits
          · exact hfits.addSharer hd'
        split at hreply
        · split at hreply
          · cases hreply
          · rename_i u hu
            cases hreply
            exact (hset.rests (rests_fill hu).1).congr rfl rfl
        · cases hreply
          exact hset

theorem side_afterWrite : (s.afterWrite cfg a).theDirectory = s.theDirectory ∧
    (s.afterWrite cfg a).theDirEvictBuffer = s.theDirEvictBuffer := by
  rw [afterWrite]
  split
  · split
    · split
      · exact ⟨rfl, rfl⟩
      · exact ⟨rfl, rfl⟩
    · exact ⟨rfl, rfl⟩
  · exact ⟨rfl, rfl⟩

theorem Leaving.handleWriteAck (h : s.Leaving g skewShift w) (hcfg : OverSets g skewShift cfg)
    {type : MemoryMessageType} (hreply : s.handleWriteAck cfg p type = .ok (s', p')) :
    s'.Leaving g skewShift w := by
  rw [Policy.handleWriteAck] at hreply
  split at hreply
  · cases hreply
  · rename_i x hx
    obtain ⟨-, hreply⟩ := of_ite_error_eq_ok hreply
    split at hreply
    · cases hreply
    · split at hreply
      · cases hreply
      · rename_i d hset
        dsimp only at hreply
        generalize htake : Policy.takeReserved _ _ x = r at hreply
        obtain ⟨t, q⟩ := r
        cases hreply
        refine Leaving.rests (Leaving.congr (h.frame ?_ ?_) side_afterWrite.1
          side_afterWrite.2) (rests_takeReserved htake)
        · exact (hcfg.quiet_setState fun _ => SimpleDirectoryState.fits_setSharer hset).trans
            hcfg.quiet_setProtected
        · rfl

theorem Leaving.handleEvictAck (h : s.Leaving g skewShift w)
    (hreply : s.handleEvictAck p = .ok (s', p')) : s'.Leaving g skewShift w := by
  simp only [Policy.handleEvictAck] at hreply
  split at hreply
  · cases hreply
  · obtain ⟨-, hreply⟩ := of_ite_error_eq_ok hreply
    split at hreply
    · cases hreply
      exact h.congr rfl rfl
    · cases hreply
      exact h.congr rfl rfl

/-- The message answers a back-invalidation. -/
def isInvalidateAck (type : MemoryMessageType) : Bool :=
  type == invalidateAck || type == invUpdateAck

theorem handleReply_of_ack (htype : isInvalidateAck p.transport.type = true) :
    s.handleReply cfg p = s.handleInvalidateAck cfg p := by
  rw [isInvalidateAck, Bool.or_eq_true, beq_iff_eq, beq_iff_eq] at htype
  rcases htype with htype | htype <;> rw [Policy.handleReply, htype]

/-- **A reply that answers no back-invalidation** leaves the directory side in order. -/
theorem Leaving.handleReply (h : s.Leaving g skewShift w) (hcfg : OverSets g skewShift cfg)
    (hreply : s.handleReply cfg p = .ok (s', p'))
    (htype : isInvalidateAck p.transport.type = false) : s'.Leaving g skewShift w := by
  rw [Policy.handleReply] at hreply
  split at hreply
  · rename_i hack
    rw [hack] at htype
    cases htype
  · rename_i hack
    rw [hack] at htype
    cases htype
  · exact h.handleReadAck hcfg hreply
  · exact h.handleReadAck hcfg hreply
  · exact h.handleReadAck hcfg hreply
  · exact h.handleReadAck hcfg hreply
  · exact h.rests (rests_handleNASAck hreply).1
  · exact h.handleWriteAck hcfg hreply
  · exact h.handleWriteAck hcfg hreply
  · exact h.rests (rests_handleNASReply hreply).1
  · exact h.rests (rests_handleMemoryReply hreply).1
  · exact h.rests (rests_handleMemoryReply hreply).1
  · exact h.rests (rests_handleMemoryReply hreply).1
  · exact h.rests (rests_handleFwdNAck hreply).1
  · exact h.handleEvictAck hreply
  · cases hreply

/-! ### Back-invalidations -/

theorem find_of_answered {b b' : DirEvictBuffer} {e : DirEBEntry} {d : SimpleDirectoryState} {c : ℕ}
    (h : b.Answered a e d b') (hc : b'.find c ≠ none) : b.find c ≠ none := by
  obtain ⟨⟨f, hf, hentries, -, -⟩, -, -⟩ := h
  intro hnone
  have hnone' : Keyed.lookup DirEBEntry.address b.entries c = none := hnone
  refine hc ?_
  rw [DirEvictBuffer.find, hentries, Keyed.lookup_update hf, hnone']
  exact ite_self _

/-- **After an answer** the block leaves the buffer if that was the last one. -/
theorem Leaving.lastInvalidate (h : s.Leaving g skewShift w) {e : DirEBEntry}
    {d : SimpleDirectoryState} (ha : p.transport.address = a)
    (he : s.theDirEvictBuffer.find a = some e) (hfits : d.Fits) (hw : w a = w' a + 1)
    (hother : ∀ c, c ≠ a → w' c = w c) (hdir : t.theDirectory = s.theDirectory)
    (hanswered : s.theDirEvictBuffer.Answered a e d t.theDirEvictBuffer)
    (hlast : t.lastInvalidate p = .ok (s', p')) : s'.Leaving g skewShift w' := by
  obtain ⟨e', he', hstate, hsent⟩ := hanswered.find he
  have hawaited : e.theInvalidatesSent = w a := by
    have := h.buffer.awaited a
    rwa [DirEvictBuffer.sent, he] at this
  simp only [Policy.lastInvalidate, ha, he'] at hlast
  by_cases h0 : e'.theInvalidatesSent = 0
  · rw [if_pos h0] at hlast
    obtain ⟨-, hlast⟩ := of_ite_error_eq_ok hlast
    split at hlast
    · cases hlast
    · rename_i b hremove
      have hsound : b.Sound w' :=
        hanswered.sound_remove h.buffer he hremove (by omega) (by omega) hother
      have hleft : { t with theDirEvictBuffer := b }.Leaving g skewShift w' := by
        refine h.change hdir hsound fun c hc => find_of_answered hanswered fun hnone => hc ?_
        exact ((DirEvictBuffer.remove_spec hremove).2 c).trans (by rw [hnone, ite_self])
      split at hlast
      · cases hlast
        exact hleft
      · cases hlast
        exact hleft
  · rw [if_neg h0] at hlast
    cases hlast
    exact h.change hdir (hanswered.sound h.buffer he hfits hw (by omega) hother) fun c =>
      find_of_answered hanswered

/-- **An answer to a back-invalidation** leaves the directory side in order, with one answer less to
come. -/
theorem Leaving.handleInvalidateAck (h : s.Leaving g skewShift w)
    (hw : w p.transport.address = w' p.transport.address + 1)
    (hother : ∀ c, c ≠ p.transport.address → w' c = w c)
    (hreply : s.handleInvalidateAck cfg p = .ok (s', p')) : s'.Leaving g skewShift w' := by
  simp only [Policy.handleInvalidateAck] at hreply
  split at hreply
  · cases hreply
  · rename_i e he
    have hmem := Keyed.mem_of_lookup he
    split at hreply
    · cases hreply
    · rename_i d hd
      have hfits : d.Fits := by
        split at hd
        · exact (h.buffer.fits e hmem).removeSharer hd
        · cases hd
          exact h.buffer.fits e hmem
      have hanswered : s.theDirEvictBuffer.Answered p.transport.address e d _ :=
        DirEvictBuffer.answered_completeInvalidate he
      split at hreply
      · split at hreply
        · cases hreply
        · rename_i t q hupdate
          simp only [invUpdate] at hupdate
          split at hupdate
          · cases hupdate
          · rename_i u hfill
            cases hupdate
            have hfilled : s.theDirEvictBuffer.Answered p.transport.address e d
                u.theDirEvictBuffer := by
              rw [(rests_fill hfill).2]
              exact hanswered
            refine h.lastInvalidate ?_ he hfits hw hother ?_ ?_ hreply
            · rfl
            · exact ((rests_fill hfill).1.theDirectory : u.theDirectory = _)
            · exact hfilled.update (g := fun e => { e with cacheEBReserved := 0 })
                (fun _ => rfl) (fun _ => rfl) fun _ => rfl
      · refine h.lastInvalidate ?_ he hfits hw hother ?_ ?_ hreply
        · rfl
        · rfl
        · exact hanswered

/-- **A back-invalidation is sent**: to all sharers of the oldest block that requires it. -/
theorem Leaving.getIdleWorkTransport (h : s.Leaving g skewShift w) {e : DirEBEntry}
    (he : s.theDirEvictBuffer.oldestRequiringInvalidates = some e)
    (hw : w' e.address = w e.address + e.state.getSharerList.length)
    (hother : ∀ c, c ≠ e.address → w' c = w c) :
    (s.getIdleWorkTransport cfg).1.Leaving g skewShift w' := by
  have hmem : e ∈ s.theDirEvictBuffer.entries := List.mem_of_find?_eq_some he
  have hzero := h.buffer.awaited_of_idle hmem (DirEvictBuffer.oldest_spec he).1
  have hcount := (h.buffer.fits e hmem).length_getSharerList
  have hsent : (s.getIdleWorkTransport cfg).1.theDirEvictBuffer.Sound w' := by
    simp only [Policy.getIdleWorkTransport, he]
    refine h.buffer.send (f := fun x =>
      { x with theInvalidatesSent := e.state.countSharers, cacheEBReserved := 1 }) he (fun _ => rfl)
      (Keyed.update_update fun _ => rfl) rfl rfl rfl rfl (by omega) hother
  refine h.change ?_ hsent fun c => ?_
  · simp only [Policy.getIdleWorkTransport, he]
  · simp only [Policy.getIdleWorkTransport, he]
    intro hc
    exact find_of_update (f := fun x => { x with theInvalidatesSent := e.state.countSharers })
      (fun _ => rfl) (find_of_update (f := fun x => { x with cacheEBReserved := 1 })
        (fun _ => rfl) hc)

theorem getIdleWorkTransport_of_some (cfg : Config DirSets γ) {e : DirEBEntry}
    (he : s.theDirEvictBuffer.oldestRequiringInvalidates = some e) :
    (s.getIdleWorkTransport cfg).2.type = backInvalidate ∧
      (s.getIdleWorkTransport cfg).2.address = e.address ∧
      (s.getIdleWorkTransport cfg).2.dest.multicastList = e.state.getSharerList := by
  simp only [Policy.getIdleWorkTransport, he]
  exact ⟨trivial, trivial, trivial⟩

theorem getIdleWorkTransport_of_none (cfg : Config DirSets γ)
    (he : s.theDirEvictBuffer.oldestRequiringInvalidates = none) :
    (s.getIdleWorkTransport cfg).1 = s ∧
      (s.getIdleWorkTransport cfg).2.type = numMemoryMessageTypes := by
  simp only [Policy.getIdleWorkTransport, he]
  exact ⟨trivial, trivial⟩

end Policy

end CMPCache

end Flexus
