import Flexus.CMPCache.Waits

/-!
# When an eviction is over

An eviction is on its way while back-invalidates of its block are not answered, or its
write-back is not acknowledged. A process that is run may end it, and then it has to
pick the entry that waits for it: `Flexus.CMPCache.Policy.Discharges` says that it
does, for every process but one kind. The exception is a process that gives up a
write-back that has been sent, because the block comes back from a cache above
(`Flexus.CMPCache.Policy.dropsWriteBack`): nobody is picked then.
-/

namespace Flexus

open Lib

namespace CMPCache

open MemoryMessageType

variable {δ γ : Type} (cfg : Config δ γ)

namespace Policy

/-! ### What a process is about to do -/

/-- An eviction is held up by another message of its block. -/
def holdsEvict (s : Policy δ γ) (t : Transport) : Bool :=
  match s.theMAF.find (cfg.array.blockAddress t.address) with
  | none => s.evictMustWait t
  | some x =>
    match x.item.state with
    | .waitRequest => true
    | .waitAck => conflicts t.type x.item.transport.type || s.evictMustWait t
    | _ => s.evictMustWait t

/-- An eviction by a cache above that is not held up. -/
def evicts (s : Policy δ γ) (p : Process) : Bool :=
  (p.type == .request || p.type == .wakeMAF) && p.transport.type.isEvictType &&
    !s.holdsEvict cfg p.transport

/-- The sender of an eviction is the last sharer of a block that is leaving the directory,
and no invalidates of it have been sent. -/
def leaving (s : Policy δ γ) (p : Process) : Bool :=
  (s.theDirEvictBuffer.find p.transport.address).any fun e =>
    decide (e.theInvalidatesSent = 0) &&
      decide (e.state.theSharers.erase p.transport.dest.requester = ∅)

/-- **The process ends an eviction of its block**: it is the last answer to a
back-invalidation, the acknowledgement of a write-back, or an eviction by the last
sharer of a block that is leaving the directory. -/
def completes (s : Policy δ γ) (p : Process) : Bool :=
  match p.type with
  | .request | .wakeMAF => s.evicts cfg p && s.leaving p
  | .reply =>
    match p.transport.type with
    | .evictAck => true
    | .invalidateAck | .invUpdateAck =>
      (s.theDirEvictBuffer.find p.transport.address).any fun e =>
        decide (e.theInvalidatesSent = 1)
    | _ => false
  | _ => false

/-- **The process is done with its request when it is run**: it is redundant, or an eviction that
is let through. -/
def settles (s : Policy δ γ) (p : Process) : Bool :=
  match s.doRequest cfg p (p.type == .wakeMAF) with
  | .ok (_, q) => !q.action.entered
  | .error _ => false

/-- **The process gives up the write-back of a block**, which has been sent: the block
comes back with an eviction by a cache above, or is going to be written while clean
evictions are not reported. -/
def dropsWriteBack (s : Policy δ γ) (p : Process) (A : ℕ) : Prop :=
  let a := p.transport.address
  cfg.array.state s.theCache a = .invalid ∧ s.theCacheEvictBuffer.isPending A ∧
    ((s.evicts cfg p = true ∧ carriesData p.transport = true ∧
        s.validSharer cfg a p.transport.dest.requester = true ∧ A = cfg.array.blockAddress a) ∨
      (p.type = .reply ∧ (p.transport.type = writeAck ∨ p.transport.type = upgradeAck) ∧
        cfg.theEvictClean = false ∧ A = a))

variable {cfg} {s s' t : Policy δ γ} {p p' q : Process} {hasMaf mafWaiting found fwd : Bool}
  {a A i : ℕ} {st : MAFState} {action : ProcessAction}

/-! ### Requests keep every eviction -/

/-- What is on its way stays on its way. -/
structure Keeps (s s' : Policy δ γ) : Prop where
  invalidates : ∀ A, s.theDirEvictBuffer.invalidatesPending A →
    s'.theDirEvictBuffer.invalidatesPending A
  writeBack : ∀ A, s.theCacheEvictBuffer.isPending A → s'.theCacheEvictBuffer.isPending A

theorem Keeps.of_eq (hd : s'.theDirEvictBuffer = s.theDirEvictBuffer)
    (hc : s'.theCacheEvictBuffer = s.theCacheEvictBuffer) : Keeps s s' :=
  ⟨fun _ h => hd ▸ h, fun _ h => hc ▸ h⟩

theorem Keeps.refl : Keeps s s := .of_eq rfl rfl

theorem Keeps.trans (h : Keeps s t) (h' : Keeps t s') : Keeps s s' :=
  ⟨fun A hA => h'.invalidates A (h.invalidates A hA),
    fun A hA => h'.writeBack A (h.writeBack A hA)⟩

theorem Keeps.frame (h : Keeps t s') (hd : t.theDirEvictBuffer = s.theDirEvictBuffer)
    (hc : t.theCacheEvictBuffer = s.theCacheEvictBuffer) : Keeps s s' :=
  (Keeps.of_eq hd hc).trans h

theorem Keeps.owes (h : Keeps s s') : s.Owes A → s'.Owes A
  | .inl hd => .inl (h.invalidates A hd)
  | .inr hc => .inr (h.writeBack A hc)

/-- **The directory side rests**: of it only the reservations change, and every eviction is still
on its way. -/
structure Rests (s s' : Policy δ γ) : Prop where
  theDirectory : s'.theDirectory = s.theDirectory
  dirEB : s'.theDirEvictBuffer =
    { s.theDirEvictBuffer with theReserve := s'.theDirEvictBuffer.theReserve }
  writeBack : ∀ A, s.theCacheEvictBuffer.isPending A → s'.theCacheEvictBuffer.isPending A

theorem Rests.of_eq (hd : s'.theDirectory = s.theDirectory)
    (hb : s'.theDirEvictBuffer = s.theDirEvictBuffer)
    (hc : s'.theCacheEvictBuffer = s.theCacheEvictBuffer) : Rests s s' :=
  ⟨hd, by rw [hb], fun _ h => hc ▸ h⟩

theorem Rests.refl : Rests s s := .of_eq rfl rfl rfl

theorem Rests.trans (h : Rests s t) (h' : Rests t s') : Rests s s' :=
  ⟨h'.theDirectory.trans h.theDirectory, by rw [h'.dirEB, h.dirEB],
    fun A hA => h'.writeBack A (h.writeBack A hA)⟩

theorem Rests.keeps (h : Rests s s') : Keeps s s' := by
  refine ⟨fun A hA => ?_, h.writeBack⟩
  rw [h.dirEB]
  exact hA

/-- A request that has been served touches no evict buffer, and is in the miss address
file. -/
structure Served (s s' : Policy δ γ) (p' : Process) : Prop where
  dirEB : s'.theDirEvictBuffer = s.theDirEvictBuffer
  cacheEB : s'.theCacheEvictBuffer = s.theCacheEvictBuffer
  action : p'.action.entered = true

theorem Served.frame (h : Served t s' p') (hd : t.theDirEvictBuffer = s.theDirEvictBuffer)
    (hc : t.theCacheEvictBuffer = s.theCacheEvictBuffer) : Served s s' p' :=
  ⟨h.dirEB.trans hd, h.cacheEB.trans hc, h.action⟩

theorem Served.keeps (h : Served s s' p') : Keeps s s' := .of_eq h.dirEB h.cacheEB

/-- A request that has been served and leaves the directory alone. -/
structure ServedInPlace (s s' : Policy δ γ) (p' : Process) : Prop extends Served s s' p' where
  theDirectory : s'.theDirectory = s.theDirectory

theorem served_stallIn (h : s.stallIn p hasMaf a st = .ok (s', p')) : ServedInPlace s s' p' := by
  obtain ⟨hs, rfl, -⟩ := stallIn_spec h
  rw [hs]
  exact ⟨⟨rfl, rfl, rfl⟩, rfl⟩

theorem served_accept (h : s.accept p hasMaf a action = .ok (s', p'))
    (hact : action.granted = true) : ServedInPlace s s' p' := by
  rw [accept] at h
  split at h
  · cases h
  · rename_i s₁ k hk
    cases h
    rw [(hold_spec hk).1]
    exact ⟨⟨rfl, rfl, ProcessAction.entered_of_granted hact⟩, rfl⟩

theorem served_acceptKeeping (h : s.acceptKeeping p hasMaf a action = .ok (s', p'))
    (hact : action.granted = true) : ServedInPlace s s' p' := by
  rw [acceptKeeping] at h
  split at h
  · cases h
  · rename_i s₁ k hk
    cases h
    rw [(hold_spec hk).1]
    exact ⟨⟨rfl, rfl, ProcessAction.entered_of_granted hact⟩, rfl⟩

theorem served_serveFromMemory (h : s.serveFromMemory p hasMaf mafWaiting a = .ok (s', p')) :
    ServedInPlace s s' p' := by
  simp only [serveFromMemory] at h
  split at h
  · exact served_stallIn h
  · split at h
    · exact served_accept h rfl
    · exact served_accept h rfl
    · exact served_acceptKeeping h rfl
    · exact served_acceptKeeping h rfl
    · cases h

theorem giveAway_frame (cfg : Config δ γ) (s : Policy δ γ) (a : ℕ) (sole : Bool)
    (c : CacheState) :
    (s.giveAway cfg a sole c).theDirEvictBuffer = s.theDirEvictBuffer ∧
      (s.giveAway cfg a sole c).theCacheEvictBuffer = s.theCacheEvictBuffer ∧
      (s.giveAway cfg a sole c).theDirectory = s.theDirectory := by
  rw [giveAway]
  split
  · exact ⟨rfl, rfl, rfl⟩
  · exact ⟨rfl, rfl, rfl⟩

theorem served_serveRead {d : SimpleDirectoryState} {c : CacheState}
    (h : s.serveRead cfg p hasMaf mafWaiting a d c = .ok (s', p')) : Served s s' p' := by
  simp only [serveRead] at h
  split at h
  · split at h
    · exact (served_stallIn h).toServed
    · exact (served_acceptKeeping h rfl).toServed
  · have hb := giveAway_frame cfg s a
      (d.noSharers && c != .shared && !(p.transport.type == fetchReq)) c
    split at h
    · exact (served_stallIn h).frame hb.1 hb.2.1
    · split at h
      · cases h
      · exact (served_accept h rfl).frame hb.1 hb.2.1

theorem dropCopy_frame {c : CacheState} :
    (s.dropCopy cfg a c).theDirEvictBuffer = s.theDirEvictBuffer ∧
      (s.dropCopy cfg a c).theCacheEvictBuffer = s.theCacheEvictBuffer ∧
      (s.dropCopy cfg a c).theDirectory = s.theDirectory := by
  rw [dropCopy]
  split
  · exact ⟨rfl, rfl, rfl⟩
  · exact ⟨rfl, rfl, rfl⟩

theorem served_serveWrite {d : SimpleDirectoryState} {c : CacheState}
    (h : s.serveWrite cfg p hasMaf a d c = .ok (s', p')) : Served s s' p' := by
  simp only [serveWrite] at h
  by_cases hn : d.noSharers = true
  · rw [if_pos hn] at h
    split at h
    · cases h
    · exact (served_accept h rfl).frame rfl rfl
  · rw [if_neg hn] at h
    obtain ⟨-, h⟩ := of_ite_error_eq_ok h
    refine (served_accept h rfl).frame ?_ ?_
    · rw [dropCopy_frame.1]
      split
      · rfl
      · rfl
    · rw [dropCopy_frame.2.1]
      split
      · rfl
      · rfl

theorem served_serveUpgrade {d : SimpleDirectoryState} {c : CacheState}
    (h : s.serveUpgrade cfg p hasMaf a d c = .ok (s', p')) : ServedInPlace s s' p' := by
  have hframe : ServedInPlace (s.dropCopy cfg a c) s' p' → ServedInPlace s s' p' := fun h =>
    ⟨h.frame dropCopy_frame.1 dropCopy_frame.2.1, h.theDirectory.trans dropCopy_frame.2.2⟩
  simp only [serveUpgrade] at h
  split at h
  · obtain ⟨-, h⟩ := of_ite_error_eq_ok h
    exact hframe (served_accept h rfl)
  · exact hframe (served_accept h rfl)

theorem served_serveNAS {c : CacheState} (h : s.serveNAS cfg p hasMaf a c = .ok (s', p')) :
    ServedInPlace s s' p' := by
  rw [serveNAS] at h
  split at h
  · exact served_accept h rfl
  · exact ⟨(served_accept h rfl).frame rfl rfl, (served_accept h rfl).theDirectory⟩

theorem served_serve (h : s.serve cfg p hasMaf mafWaiting found a = .ok (s', p')) :
    Served s s' p' := by
  simp only [serve] at h
  split at h
  · split at h
    · exact (served_accept h rfl).frame rfl rfl
    · exact (served_accept h rfl).toServed
  · generalize hs : (if p.transport.type = nonAllocatingStoreReq then s else _) = t at h
    have hb : t.theDirEvictBuffer = s.theDirEvictBuffer ∧
        t.theCacheEvictBuffer = s.theCacheEvictBuffer := by
      rw [← hs]
      split
      · exact ⟨rfl, rfl⟩
      · exact ⟨rfl, rfl⟩
    refine Served.frame (t := t) ?_ hb.1 hb.2
    split at h
    · exact (served_serveFromMemory h).toServed
    · split at h
      · exact served_serveRead h
      · exact served_serveRead h
      · exact served_serveWrite h
      · exact (served_serveUpgrade h).toServed
      · exact (served_serveNAS h).toServed
      · cases h

/-! ### Blocks that change their place -/

theorem theDirEvictBuffer_evictCacheBlock {state : CacheState} :
    (evictCacheBlock cfg s state a).theDirEvictBuffer = s.theDirEvictBuffer := by
  rw [evictCacheBlock]
  split
  · rfl
  · rfl

theorem rests_evictCacheBlock {state : CacheState} : Rests s (evictCacheBlock cfg s state a) := by
  rw [evictCacheBlock]
  split
  · exact ⟨rfl, rfl, fun _ h => CacheEvictBuffer.isPending_allocEntry.mpr h⟩
  · exact .refl

/-- Taking a block out of the cache evict buffer that has not been sent. -/
theorem isPending_remove_of_not {b : CacheEvictBuffer} {e : EvictEntry} (h : b.find a = some e)
    (hp : ¬ e.pending = true) (hA : b.isPending A) : (b.remove a).isPending A := by
  refine CacheEvictBuffer.isPending_remove.mpr ⟨?_, hA⟩
  rintro rfl
  obtain ⟨e', he', hp'⟩ := hA
  rw [h] at he'
  cases he'
  exact hp hp'

theorem keeps_withArray (h : s.withArray cfg p hasMaf mafWaiting found a = .ok (s', p')) :
    Keeps s s' ∧ p'.action.entered = true := by
  rw [withArray] at h
  split at h
  · split at h
    · exact ⟨(served_serve h).keeps, (served_serve h).action⟩
    · rename_i e he
      split at h
      · exact ⟨(served_stallIn h).keeps, (served_stallIn h).action⟩
      · rename_i hp
        split at h
        · cases h
        · refine ⟨Keeps.trans (Keeps.trans ?_ rests_evictCacheBlock.keeps) (served_serve h).keeps,
            (served_serve h).action⟩
          exact ⟨fun _ h => h, fun _ hA => isPending_remove_of_not he hp hA⟩
  · exact ⟨(served_serve h).keeps, (served_serve h).action⟩

theorem allocateEntry_frame {d : SimpleDirectoryState} (h : s.allocateEntry cfg a d = some s') :
    s'.theCacheEvictBuffer = s.theCacheEvictBuffer ∧ ∀ A,
      s'.theDirEvictBuffer.invalidatesPending A ↔ s.theDirEvictBuffer.invalidatesPending A := by
  rw [allocateEntry] at h
  split at h
  · cases h
  · cases h
    refine ⟨rfl, fun A => ?_⟩
    split
    · exact Iff.rfl
    · exact DirEvictBuffer.invalidatesPending_insert

theorem keeps_allocateEntry {d : SimpleDirectoryState} (h : s.allocateEntry cfg a d = some s') :
    Keeps s s' := by
  obtain ⟨hc, hd⟩ := allocateEntry_frame h
  exact ⟨fun A => (hd A).mpr, fun _ hA => hc ▸ hA⟩

/-- An entry of the directory's evict buffer that requires no invalidates may be taken
out of it. -/
theorem invalidatesPending_remove {b b' : DirEvictBuffer} (h : b.remove a = .ok b')
    (h0 : ¬ b.invalidatesPending a) (hA : b.invalidatesPending A) : b'.invalidatesPending A := by
  refine (DirEvictBuffer.invalidatesPending_congr ?_).mpr hA
  rw [(DirEvictBuffer.remove_spec h).2, if_neg]
  rintro rfl
  exact h0 hA

theorem keeps_withDirectory (h : s.withDirectory cfg p hasMaf mafWaiting a = .ok (s', p'))
    (h0 : ¬ s.theDirEvictBuffer.invalidatesPending a) :
    Keeps s s' ∧ p'.action.entered = true := by
  rw [withDirectory] at h
  split at h
  · exact keeps_withArray h
  · split at h
    · split at h
      · exact ⟨(served_stallIn h).keeps, (served_stallIn h).action⟩
      · rename_i t ht
        split at h
        · cases h
        · rename_i b hb
          have hk : Keeps t { t with theDirEvictBuffer := b } := by
            refine ⟨fun A hA => invalidatesPending_remove hb ?_ hA, fun _ h => h⟩
            rwa [(allocateEntry_frame ht).2]
          exact ⟨((keeps_allocateEntry ht).trans hk).trans (keeps_withArray h).1,
            (keeps_withArray h).2⟩
    · split at h
      · exact keeps_withArray h
      · split at h
        · exact ⟨(served_stallIn h).keeps, (served_stallIn h).action⟩
        · rename_i t ht
          exact ⟨(keeps_allocateEntry ht).trans (keeps_withArray h).1, (keeps_withArray h).2⟩

/-! ### What a process discharges -/

/-- **What a process does to the evictions that are on their way**: it ends one only if
it completes it, or gives it up, and when it completes one it picks the entry that
waits for it. -/
structure Discharges (cfg : Config δ γ) (s : Policy δ γ) (p : Process) (s' : Policy δ γ)
    (p' : Process) : Prop where
  invalidates : ∀ A, s.theDirEvictBuffer.invalidatesPending A →
    s'.theDirEvictBuffer.invalidatesPending A ∨
      (s.completes cfg p = true ∧ A = p.transport.address)
  writeBack : ∀ A, s.theCacheEvictBuffer.isPending A → s'.theCacheEvictBuffer.isPending A ∨
    (s.completes cfg p = true ∧ A = p.transport.address) ∨ s.dropsWriteBack cfg p A
  completes_of_wakes : p'.action.wakes = true → s.completes cfg p = true
  wakes_of_completes : s.completes cfg p = true → p'.action.wakes = true ∨
    ∀ i w, s.waits.entry i = some w → w.address = p.transport.address → w.state ≠ .waitEvict

/-- A process that keeps everything, when it completes nothing. -/
theorem Keeps.discharges (h : Keeps s s') (hp : p'.action.wakes = false)
    (hc : s.completes cfg p = false) : Discharges cfg s p s' p' := by
  refine ⟨fun A hA => .inl (h.invalidates A hA), fun A hA => .inl (h.writeBack A hA), ?_, ?_⟩
  · intro hw
    rw [hp] at hw
    cases hw
  · intro hcs
    rw [hc] at hcs
    cases hcs

theorem Discharges.keeps (h : Discharges cfg s p t q) (hk : Keeps t s')
    (ha : p'.action = q.action) : Discharges cfg s p s' p' := by
  refine ⟨fun A hA => (h.invalidates A hA).imp_left (hk.invalidates A),
    fun A hA => (h.writeBack A hA).imp_left (hk.writeBack A), ?_, ?_⟩
  · rw [ha]
    exact h.completes_of_wakes
  · rw [ha]
    exact h.wakes_of_completes

/-! ### Evictions by the caches above -/

theorem sent_yieldRoom :
    (s.yieldRoom a).theDirEvictBuffer.sent A = s.theDirEvictBuffer.sent A :=
  DirEvictBuffer.sent_update (h := by intro _; rfl) (by intro _; rfl)

theorem invalidatesPending_yieldRoom :
    (s.yieldRoom a).theDirEvictBuffer.invalidatesPending A ↔
      s.theDirEvictBuffer.invalidatesPending A :=
  DirEvictBuffer.invalidatesPending_congr_sent sent_yieldRoom

theorem leaving_yieldRoom : (s.yieldRoom a).leaving p = s.leaving p := by
  simp only [leaving, yieldRoom, DirEvictBuffer.find_update]
  by_cases ha : p.transport.address = a
  · cases h : s.theDirEvictBuffer.find p.transport.address with
    | none => simp
    | some e => simp [ha]
  · simp [ha]

/-- The data of an eviction does not disturb the directory, and gives up no write-back but
that of its own block. -/
theorem evictData_spec (h : evictData cfg s p = .ok (s', p', fwd)) :
    (∀ A, s'.theDirEvictBuffer.invalidatesPending A ↔ s.theDirEvictBuffer.invalidatesPending A) ∧
    (∀ q, s'.leaving q = s.leaving q) ∧
    ∀ A, s.theCacheEvictBuffer.isPending A → s'.theCacheEvictBuffer.isPending A ∨
      (cfg.array.state s.theCache p.transport.address = .invalid ∧
        A = cfg.array.blockAddress p.transport.address) := by
  simp only [evictData] at h
  split at h
  · rename_i hinv
    split at h
    · split at h
      · cases h
      · cases h
        refine ⟨fun A => ?_, fun q => ?_, fun A hA => ?_⟩
        · rw [theDirEvictBuffer_evictCacheBlock]
          exact invalidatesPending_yieldRoom
        · rw [leaving, theDirEvictBuffer_evictCacheBlock]
          exact leaving_yieldRoom
        · by_cases ha : A = cfg.array.blockAddress p.transport.address
          · exact .inr ⟨hinv, ha⟩
          · refine .inl (rests_evictCacheBlock.writeBack A ?_)
            exact CacheEvictBuffer.isPending_remove.mpr ⟨ha, hA⟩
    · split at h
      · cases h
        exact ⟨fun A => invalidatesPending_yieldRoom, fun q => leaving_yieldRoom,
          fun A hA => .inl hA⟩
      · cases h
        exact ⟨fun A => invalidatesPending_yieldRoom, fun q => leaving_yieldRoom,
          fun A hA => .inl hA⟩
  · cases h
    exact ⟨fun A => Iff.rfl, fun q => rfl, fun A hA => .inl hA⟩

theorem theSharers_removeSharer {d d' : SimpleDirectoryState} {n : ℕ}
    (h : (if d.isSharer n then d.removeSharer n else .ok d) = .ok d') :
    d'.theSharers = d.theSharers.erase n := by
  split at h
  · rw [SimpleDirectoryState.removeSharer] at h
    split at h
    · cases h
      rfl
    · cases h
  · rename_i hn
    cases h
    rw [Finset.erase_eq_of_notMem]
    simpa [SimpleDirectoryState.isSharer] using hn

/-- **Taking the evicting cache off the sharers** ends no eviction that is on its way, and
picks an entry exactly when the block leaves the directory with it. -/
theorem evictSharer_spec {activeWrite : Bool}
    (h : evictSharer cfg s p activeWrite fwd = .ok (s', p')) :
    (∀ A, s.theDirEvictBuffer.invalidatesPending A → s'.theDirEvictBuffer.invalidatesPending A) ∧
    s'.theCacheEvictBuffer = s.theCacheEvictBuffer ∧
    (p'.action.wakes = true → s.leaving p = true) ∧
    (s.leaving p = true → p'.action.wakes = true ∨ ∀ i w, s.waits.entry i = some w →
      w.address = p.transport.address → w.state ≠ .waitEvict) := by
  have hidle : ¬ (evictAction fwd false).wakes = true := by cases fwd <;> decide
  simp only [evictSharer] at h
  split at h
  · rename_i e he
    obtain ⟨-, h⟩ := of_ite_error_eq_ok h
    split at h
    · cases h
    · rename_i d hd
      have hsh := theSharers_removeSharer hd
      have hleave : s.leaving p = true ↔ e.theInvalidatesSent = 0 ∧ d.noSharers = true := by
        rw [leaving, he]
        simp [SimpleDirectoryState.noSharers, hsh]
      -- a change of the sharers does not show in the invalidates
      have hup : ∀ A, s.theDirEvictBuffer.invalidatesPending A → (s.theDirEvictBuffer.update
          p.transport.address fun e => { e with state := d }).invalidatesPending A := by
        rintro A ⟨e', he', hp⟩
        rw [DirEvictBuffer.invalidatesPending, DirEvictBuffer.find_update, he']
        split
        · exact ⟨_, rfl, hp⟩
        · exact ⟨_, rfl, hp⟩
      split at h
      · rename_i hl
        split at h
        · cases h
        · rename_i b hb
          have hdir : ∀ A, s.theDirEvictBuffer.invalidatesPending A → b.invalidatesPending A := by
            intro A hA
            refine invalidatesPending_remove hb ?_ (hup A hA)
            rintro ⟨e', he', hp⟩
            rw [DirEvictBuffer.find_update, if_pos rfl, he] at he'
            cases he'
            exact hp hl.1
          split at h
          · rename_i hnone
            cases h
            refine ⟨hdir, rfl, fun hw => absurd hw hidle, fun _ => .inr ?_⟩
            intro i w hi ha
            obtain ⟨x, hx, rfl⟩ := MissAddressFile.waits_entry.mp hi
            exact MissAddressFile.findFirst_eq_none.mp hnone i x hx ha
          · obtain ⟨-, h⟩ := of_ite_error_eq_ok h
            cases h
            exact ⟨hdir, rfl, fun _ => hleave.mpr hl, fun _ => .inl wakes_evictAction⟩
      · rename_i hl
        cases h
        exact ⟨hup, rfl, fun hw => absurd hw hidle, fun hc => absurd (hleave.mp hc) hl⟩
  · rename_i hnone
    have hleave : ¬ s.leaving p = true := by
      rw [leaving, hnone]
      exact Bool.false_ne_true
    split at h
    · cases h
      exact ⟨fun _ hA => hA, rfl, fun hw => absurd hw hidle, fun hc => absurd hc hleave⟩
    · split at h
      · cases h
      · cases h
        exact ⟨fun _ hA => hA, rfl, fun hw => absurd hw hidle, fun hc => absurd hc hleave⟩

theorem leaving_congr (ha : q.transport.address = p.transport.address)
    (hr : q.transport.dest.requester = p.transport.dest.requester) :
    s.leaving q = s.leaving p := by
  rw [leaving, ha, hr, leaving]

theorem completes_of_request (h : p.type = .request ∨ p.type = .wakeMAF) :
    s.completes cfg p = (s.evicts cfg p && s.leaving p) := by
  rcases h with h | h
  · rw [completes, h]
  · rw [completes, h]

theorem doEvict_discharges (h : s.doEvict cfg p hasMaf = .ok (s', p'))
    (htype : p.type = .request ∨ p.type = .wakeMAF)
    (hev : s.evicts cfg p = !s.evictMustWait p.transport) : Discharges cfg s p s' p' := by
  have hcomp : s.completes cfg p = _ := completes_of_request htype
  have htr := (acknowledge_frame (p := p)).2.1
  simp only [doEvict] at h
  split at h
  · rename_i hw
    refine (served_stallIn h).keeps.discharges
      (ProcessAction.inert_of_entered (served_stallIn h).action).1 ?_
    rw [hcomp, hev, hw]
    rfl
  · rename_i hw
    have hev' : s.evicts cfg p = true := by
      rw [hev]
      simpa using hw
    rw [hev', Bool.true_and] at hcomp
    split at h
    · rename_i hdata
      rw [Bool.and_eq_true_iff] at hdata
      split at h
      · cases h
      · rename_i s₁ p₁ fwd hd
        obtain ⟨hdir, hleave, hcache⟩ := evictData_spec hd
        obtain ⟨hwaits, -, haddr, -, hreq⟩ := evictData_frame hd
        obtain ⟨hdir', hcache', hwk, hcm⟩ := evictSharer_spec h
        rw [htr] at haddr hreq
        have hl : s₁.leaving p₁ = s.leaving p := (hleave p₁).trans (leaving_congr haddr hreq)
        refine ⟨fun A hA => .inl (hdir' A ((hdir A).mpr hA)), fun A hA => ?_, ?_, ?_⟩
        · rw [hcache']
          rcases hcache A hA with hA' | ⟨hinv, ha⟩
          · exact .inl hA'
          · rw [htr] at hinv ha
            exact .inr (.inr ⟨hinv, hA, .inl ⟨hev', hdata.1, hdata.2, ha⟩⟩)
        · rw [hcomp, ← hl]
          exact hwk
        · rw [hcomp, ← hl, ← hwaits, ← haddr]
          exact hcm
    · obtain ⟨hdir', hcache', hwk, hcm⟩ := evictSharer_spec h
      have hl : s.leaving (acknowledge p) = s.leaving p :=
        leaving_congr (by rw [htr]) (by rw [htr])
      refine ⟨fun A hA => .inl (hdir' A hA), fun A hA => .inl ?_, ?_, ?_⟩
      · rw [hcache']
        exact hA
      · rw [hcomp, ← hl]
        exact hwk
      · rw [hcomp, ← hl]
        rw [htr] at hcm
        exact hcm

/-! ### Requests -/

/-- What becomes of a request that is no eviction, or of one that is held up: it is in the
miss address file, or redundant. -/
def Held (hasMaf : Bool) (a : ProcessAction) : Prop :=
  a.entered = true ∨ a = if hasMaf then .removeMAF else .noAction

theorem Held.wakes (h : Held hasMaf action) : action.wakes = false := by
  rcases h with h | h
  · exact (ProcessAction.inert_of_entered h).1
  · rw [h]
    cases hasMaf <;> rfl

theorem keeps_admitRequest (h : s.admitRequest cfg p hasMaf mafWaiting a = .ok (s', p'))
    (he : p.transport.type.isEvictType = false) : Keeps s s' ∧ Held hasMaf p'.action := by
  rw [admitRequest, if_neg (by rw [he]; decide)] at h
  split at h
  · cases h
    exact ⟨.refl, .inr rfl⟩
  · have hwith : ¬ s.theDirEvictBuffer.invalidatesPending a →
        s.withDirectory cfg p hasMaf mafWaiting a = .ok (s', p') →
        Keeps s s' ∧ Held hasMaf p'.action := fun h0 h =>
      ⟨(keeps_withDirectory h h0).1, .inl (keeps_withDirectory h h0).2⟩
    split at h
    · rename_i e hfind
      split at h
      · exact ⟨(served_stallIn h).keeps, .inl (served_stallIn h).action⟩
      · rename_i h0
        refine hwith ?_ h
        rintro ⟨e', he', hp⟩
        rw [hfind] at he'
        cases he'
        exact h0 hp
    · rename_i hfind
      refine hwith ?_ h
      rintro ⟨e', he', -⟩
      rw [hfind] at he'
      cases he'

theorem admitRequest_discharges (h : s.admitRequest cfg p hasMaf mafWaiting a = .ok (s', p'))
    (htype : p.type = .request ∨ p.type = .wakeMAF)
    (hev : p.transport.type.isEvictType = true →
      s.evicts cfg p = !s.evictMustWait p.transport) : Discharges cfg s p s' p' := by
  cases he : p.transport.type.isEvictType with
  | true =>
    rw [admitRequest, if_pos he] at h
    exact doEvict_discharges h htype (hev he)
  | false =>
    obtain ⟨hk, hheld⟩ := keeps_admitRequest h he
    refine hk.discharges hheld.wakes ?_
    rw [completes_of_request htype, evicts, he]
    simp

/-- **What `doRequest` may do**: the message goes to sleep, and then it is no eviction that
is let through; or it is admitted; or it is an eviction that overtakes what waits. -/
theorem doRequest_cases (h : s.doRequest cfg p hasMaf = .ok (s', p'))
    (htype : p.type = .request ∨ p.type = .wakeMAF) :
    (s.evicts cfg p = false ∧ ∃ st, s.stallIn p hasMaf
      (cfg.array.blockAddress p.transport.address) st = .ok (s', p')) ∨
    (∃ mafWaiting, s.admitRequest cfg p hasMaf mafWaiting
        (cfg.array.blockAddress p.transport.address) = .ok (s', p') ∧
      (p.transport.type.isEvictType = true → s.evicts cfg p = !s.evictMustWait p.transport)) ∨
    (s.doEvict cfg p hasMaf = .ok (s', p') ∧ s.evicts cfg p = !s.evictMustWait p.transport) := by
  have hev : p.transport.type.isEvictType = true →
      s.evicts cfg p = !s.holdsEvict cfg p.transport := by
    intro he
    rw [evicts, he]
    rcases htype with ht | ht
    · rw [ht]
      rfl
    · rw [ht]
      rfl
  have hno : ¬ p.transport.type.isEvictType = true → s.evicts cfg p = false := by
    intro he
    rw [Bool.not_eq_true] at he
    rw [evicts, he]
    simp
  have hheld : (p.transport.type.isEvictType = true → s.evicts cfg p = false) →
      s.evicts cfg p = false := by
    intro he
    by_cases ht : p.transport.type.isEvictType = true
    · exact he ht
    · exact hno ht
  rw [holdsEvict] at hev
  simp only [doRequest] at h
  split at h
  · rename_i hnone
    simp only [hnone] at hev
    exact .inr (.inl ⟨_, h, hev⟩)
  · rename_i x hx
    simp only [hx] at hev
    split at h
    all_goals
      rename_i hst
      simp only [hst] at hev
    · split at h
      · rename_i he
        exact .inr (.inr ⟨h, hev he⟩)
      · rename_i he
        exact .inl ⟨hno he, _, h⟩
    · split at h
      · rename_i he
        exact .inr (.inr ⟨h, hev he⟩)
      · rename_i he
        exact .inl ⟨hno he, _, h⟩
    · exact .inl ⟨hheld hev, _, h⟩
    · split at h
      · rename_i hconf
        rw [hconf] at hev
        exact .inl ⟨hheld hev, _, h⟩
      · rename_i hconf
        rw [Bool.not_eq_true] at hconf
        rw [hconf] at hev
        exact .inr (.inl ⟨_, h, hev⟩)
    · exact .inr (.inl ⟨_, h, hev⟩)
    · exact .inr (.inl ⟨_, h, hev⟩)
    · exact .inr (.inl ⟨_, h, hev⟩)
    · cases h

/-- **What a request discharges.** -/
theorem doRequest_discharges (h : s.doRequest cfg p hasMaf = .ok (s', p'))
    (htype : p.type = .request ∨ p.type = .wakeMAF) : Discharges cfg s p s' p' := by
  rcases doRequest_cases h htype with ⟨hev, st, h⟩ | ⟨mafWaiting, h, hev⟩ | ⟨h, hev⟩
  · refine (served_stallIn h).keeps.discharges
      (ProcessAction.inert_of_entered (served_stallIn h).action).1 ?_
    rw [completes_of_request htype, hev]
    rfl
  · exact admitRequest_discharges h htype hev
  · exact doEvict_discharges h htype hev

theorem doEvict_held (h : s.doEvict cfg p hasMaf = .ok (s', p'))
    (hw : s.evictMustWait p.transport = true) : Held hasMaf p'.action := by
  rw [doEvict, if_pos hw] at h
  exact .inl (served_stallIn h).action

/-- A message that is no eviction, or one that is held up, is in the miss address file
afterwards, or it was redundant. -/
theorem doRequest_held (h : s.doRequest cfg p hasMaf = .ok (s', p'))
    (htype : p.type = .request ∨ p.type = .wakeMAF) (hno : s.evicts cfg p = false) :
    Held hasMaf p'.action := by
  have hwait : s.evicts cfg p = !s.evictMustWait p.transport →
      s.evictMustWait p.transport = true := by
    intro hev
    rw [hno] at hev
    simpa using hev.symm
  rcases doRequest_cases h htype with ⟨-, st, h⟩ | ⟨mafWaiting, h, hev⟩ | ⟨h, hev⟩
  · exact .inl (served_stallIn h).action
  · cases he : p.transport.type.isEvictType with
    | true =>
      rw [admitRequest, if_pos he] at h
      exact doEvict_held h (hwait (hev he))
    | false => exact (keeps_admitRequest h he).2
  · exact doEvict_held h (hwait hev)

theorem doEvict_removes (h : s.doEvict cfg p hasMaf = .ok (s', p')) :
    p'.action.removes = false := by
  have hevict : ∀ {s p fwd activeWrite}, evictSharer cfg s p activeWrite fwd = .ok (s', p') →
      p'.action.removes = false := by
    intro s p fwd activeWrite h
    obtain ⟨b, hb⟩ := evictSharer_action h
    rw [hb]
    cases fwd <;> cases b <;> rfl
  simp only [doEvict] at h
  split at h
  · exact (ProcessAction.inert_of_entered (served_stallIn h).action).2
  · split at h
    · split at h
      · cases h
      · exact hevict h
    · exact hevict h

/-- A request is not going to remove what waits for an acknowledgement. -/
theorem doRequest_removes (h : s.doRequest cfg p hasMaf = .ok (s', p'))
    (htype : p.type = .request ∨ p.type = .wakeMAF) : p'.action.removes = false := by
  rcases doRequest_cases h htype with ⟨-, st, h⟩ | ⟨mafWaiting, h, -⟩ | ⟨h, -⟩
  · exact (ProcessAction.inert_of_entered (served_stallIn h).action).2
  · cases he : p.transport.type.isEvictType with
    | true =>
      rw [admitRequest, if_pos he] at h
      exact doEvict_removes h
    | false =>
      rcases (keeps_admitRequest h he).2 with hent | hred
      · exact (ProcessAction.inert_of_entered hent).2
      · rw [hred]
        cases hasMaf <;> rfl
  · exact doEvict_removes h

/-! ### Replies -/

theorem rests_fill (h : s.fill cfg a = .ok s') :
    Rests s s' ∧ s'.theDirEvictBuffer = s.theDirEvictBuffer := by
  rw [fill] at h
  split at h
  · obtain ⟨-, h⟩ := of_ite_error_eq_ok h
    rw [allocateBlock] at h
    split at h
    · cases h
    · cases h
      refine ⟨Rests.trans ?_ rests_evictCacheBlock, theDirEvictBuffer_evictCacheBlock⟩
      exact .of_eq rfl rfl rfl
  · cases h
    exact ⟨.refl, rfl⟩

theorem rests_takeReserved {x : Slot MAFEntry} (h : s.takeReserved p x = (s', p')) :
    Rests s s' := by
  rw [takeReserved] at h
  split at h
  · cases h
    exact .of_eq rfl rfl rfl
  · cases h
    exact .refl

theorem rests_recallBlock (h : s.recallBlock cfg a = .ok s') : Rests s s' := by
  rw [recallBlock] at h
  split at h
  · split at h
    · cases h
      exact .refl
    · rename_i e he
      split at h
      · cases h
        exact .refl
      · rename_i hp
        split at h
        · cases h
        · cases h
          refine Rests.trans ?_ rests_evictCacheBlock
          exact ⟨rfl, rfl, fun _ hA => isPending_remove_of_not he hp hA⟩
  · cases h
    exact .refl

/-- The last answer takes its block out of the evict buffer of the directory, and picks the
entry that waits for that. -/
theorem lastInvalidate_spec (h : s.lastInvalidate p = .ok (s', p'))
    (hp : p.action.wakes = false) : Keeps s s' ∧
    (p'.action.wakes = true → s.theDirEvictBuffer.sent p.transport.address = some 0) ∧
    (s.theDirEvictBuffer.sent p.transport.address = some 0 → p'.action.wakes = true ∨ ∀ i w,
      s.waits.entry i = some w → w.address = p.transport.address → w.state ≠ .waitEvict) := by
  simp only [lastInvalidate] at h
  split at h
  · cases h
  · rename_i e he
    have hsent : s.theDirEvictBuffer.sent p.transport.address = some e.theInvalidatesSent := by
      rw [DirEvictBuffer.sent, he]
      rfl
    by_cases h0 : e.theInvalidatesSent = 0
    · rw [if_pos h0] at h
      obtain ⟨-, h⟩ := of_ite_error_eq_ok h
      rw [h0] at hsent
      split at h
      · cases h
      · rename_i b hb
        have hk : Keeps s { s with theDirEvictBuffer := b } := by
          refine ⟨fun A hA => invalidatesPending_remove hb ?_ hA, fun _ h => h⟩
          rintro ⟨e', he', hne⟩
          rw [he] at he'
          cases he'
          exact hne h0
        split at h
        · rename_i hnone
          cases h
          refine ⟨hk, fun _ => hsent, fun _ => .inr ?_⟩
          intro i w hi ha
          obtain ⟨x, hx, rfl⟩ := MissAddressFile.waits_entry.mp hi
          exact MissAddressFile.findFirst_eq_none.mp hnone i x hx ha
        · cases h
          exact ⟨hk, fun _ => hsent, fun _ => .inl rfl⟩
    · rw [if_neg h0] at h
      cases h
      refine ⟨.refl, fun hw => absurd hw (by rw [hp]; decide), fun h => ?_⟩
      rw [hsent] at h
      exact absurd (Option.some.inj h) h0

theorem invUpdate_spec (h : s.invUpdate cfg p = .ok (s', p')) :
    Keeps s s' ∧ ∀ a, s'.theDirEvictBuffer.sent a = s.theDirEvictBuffer.sent a := by
  simp only [invUpdate] at h
  split at h
  · cases h
  · rename_i t ht
    obtain ⟨hr, hd⟩ := rests_fill ht
    have hk := hr.keeps
    cases h
    constructor
    · exact ⟨fun A hA => invalidatesPending_yieldRoom.mpr (hk.invalidates A hA), hk.writeBack⟩
    · intro a
      rw [← hd]
      exact sent_yieldRoom

theorem handleInvalidateAck_discharges (h : s.handleInvalidateAck cfg p = .ok (s', p'))
    (hc : s.completes cfg p = true ↔ s.theDirEvictBuffer.sent p.transport.address = some 1) :
    Discharges cfg s p s' p' := by
  simp only [handleInvalidateAck] at h
  split at h
  · cases h
  · split at h
    · cases h
    · rename_i d _
      -- the answer is counted first, whatever it brings
      generalize hb : DirEvictBuffer.completeInvalidate _ p.transport.address = b at h
      have hsent : ∀ A, b.sent A = if A = p.transport.address then
          (s.theDirEvictBuffer.sent A).map (· - 1) else s.theDirEvictBuffer.sent A := by
        intro A
        rw [← hb, DirEvictBuffer.sent_completeInvalidate,
          DirEvictBuffer.sent_update (by intro _; rfl)]
      have hpend : ∀ A, s.theDirEvictBuffer.invalidatesPending A → b.invalidatesPending A ∨
          (s.completes cfg p = true ∧ A = p.transport.address) := by
        intro A hA
        rw [DirEvictBuffer.invalidatesPending_iff, hsent]
        obtain ⟨n, hn, hne⟩ := DirEvictBuffer.invalidatesPending_iff.mp hA
        split
        · rename_i hAa
          by_cases h1 : n = 1
          · subst h1 hAa
            exact .inr ⟨hc.mpr hn, rfl⟩
          · rw [hn]
            exact .inl ⟨n - 1, rfl, by omega⟩
        · exact .inl ⟨n, hn, hne⟩
      have hzero : b.sent p.transport.address = some 0 ↔ s.completes cfg p = true := by
        rw [hc, hsent, if_pos rfl]
        cases s.theDirEvictBuffer.sent p.transport.address with
        | none => simp
        | some n =>
          simp only [Option.map_some, Option.some.injEq]
          omega
      -- and then the last answer is acted upon
      have hlast : ∀ (t : Policy δ γ) (q : Process), Keeps { s with theDirEvictBuffer := b } t →
          (∀ A, t.theDirEvictBuffer.sent A = b.sent A) → t.waits = s.waits →
          q.action.wakes = false → q.transport = p.transport →
          t.lastInvalidate q = .ok (s', p') → Discharges cfg s p s' p' := by
        intro t q hk hst hw hq htr hl
        obtain ⟨hk', hwk, hcm⟩ := lastInvalidate_spec hl hq
        rw [hst, htr, hzero] at hwk
        rw [hst, htr, hzero, hw] at hcm
        refine ⟨fun A hA => ?_, fun A hA => .inl (hk'.writeBack A (hk.writeBack A hA)), hwk, hcm⟩
        exact (hpend A hA).imp_left fun h => hk'.invalidates A (hk.invalidates A h)
      by_cases hu : p.transport.type = invUpdateAck
      · rw [if_pos hu] at h
        split at h
        · cases h
        · rename_i t q hd
          obtain ⟨hw, hact, -, ht, -⟩ := invUpdate_frame hd
          obtain ⟨hk, hst⟩ := invUpdate_spec hd
          exact hlast t q hk hst hw (by rw [hact]; rfl) ht h
      · rw [if_neg hu] at h
        exact hlast _ { p with action := .noAction } .refl (fun _ => rfl) rfl rfl rfl h

theorem keeps_handleReadAck (h : s.handleReadAck cfg p = .ok (s', p')) :
    Keeps s s' ∧ p'.action.wakes = false := by
  simp only [handleReadAck] at h
  split at h
  · cases h
  · rename_i x hx
    generalize hr : s.takeReserved _ x = r at h
    obtain ⟨s₁, p₁⟩ := r
    have hk := (rests_takeReserved hr).keeps
    split at h
    · cases h
    · split at h
      · cases h
      · split at h
        · split at h
          · cases h
          · rename_i t hfill
            have hk₂ := hk.trans ((rests_fill hfill).1.keeps.frame rfl rfl)
            cases h
            exact ⟨hk₂.trans (.of_eq rfl rfl), rfl⟩
        · cases h
          exact ⟨hk.trans (.of_eq rfl rfl), rfl⟩

theorem rests_handleNASAck (h : s.handleNASAck p = .ok (s', p')) :
    Rests s s' ∧ p'.action.wakes = false := by
  simp only [handleNASAck] at h
  split at h
  · cases h
  · rename_i x hx
    obtain ⟨-, h⟩ := of_ite_error_eq_ok h
    generalize hr : s.takeReserved _ x = r at h
    obtain ⟨s₁, p₁⟩ := r
    have hk := rests_takeReserved hr
    cases h
    exact ⟨hk, rfl⟩

theorem rests_handleNASReply (h : s.handleNASReply p = .ok (s', p')) :
    Rests s s' ∧ p'.action.wakes = false := by
  simp only [handleNASReply] at h
  split at h
  · cases h
  · cases h
    exact ⟨.refl, rfl⟩

theorem rests_handleMemoryReply (h : s.handleMemoryReply cfg p = .ok (s', p')) :
    Rests s s' ∧ p'.action.wakes = false := by
  simp only [handleMemoryReply] at h
  split at h
  · cases h
  · rename_i x hx
    generalize hr : s.takeReserved _ x = r at h
    obtain ⟨s₁, p₁⟩ := r
    have hk := rests_takeReserved hr
    split at h
    · split at h
      · cases h
      · rename_i t hfill
        have hk₂ := hk.trans (rests_fill hfill).1
        cases h
        exact ⟨hk₂.trans (.of_eq rfl rfl rfl), rfl⟩
    · cases h
      exact ⟨hk, rfl⟩

theorem rests_handleFwdNAck (h : s.handleFwdNAck cfg p = .ok (s', p')) :
    Rests s s' ∧ p'.action.wakes = false := by
  simp only [handleFwdNAck] at h
  split at h
  · cases h
  · split at h
    · cases h
    · split at h
      · cases h
      · rename_i t hrec
        have hk := rests_recallBlock hrec
        split at h
        · obtain ⟨-, h⟩ := of_ite_error_eq_ok h
          cases h
          exact ⟨hk.trans (.of_eq rfl rfl rfl), rfl⟩
        · split at h
          · cases h
            exact ⟨hk.trans (.of_eq rfl rfl rfl), rfl⟩
          · cases h
            exact ⟨hk, rfl⟩

/-- After a write nothing is given up but the write-back of the block itself, and that only
when clean evictions are not reported. -/
theorem afterWrite_spec (cfg : Config δ γ) (s : Policy δ γ) (a : ℕ) :
    (s.afterWrite cfg a).theDirEvictBuffer = s.theDirEvictBuffer ∧
    ∀ A, s.theCacheEvictBuffer.isPending A → (s.afterWrite cfg a).theCacheEvictBuffer.isPending A ∨
      (cfg.array.state s.theCache a = .invalid ∧ cfg.theEvictClean = false ∧ A = a) := by
  rw [afterWrite]
  split
  · rename_i hinv
    split
    · split
      · refine ⟨rfl, fun A hA => .inl ?_⟩
        exact (CacheEvictBuffer.isPending_update (h := by intro _; rfl) (by intro _; rfl)).mpr hA
      · rename_i hclean
        refine ⟨rfl, fun A hA => ?_⟩
        by_cases ha : A = a
        · exact .inr ⟨hinv, by simpa using hclean, ha⟩
        · exact .inl (CacheEvictBuffer.isPending_remove.mpr ⟨ha, hA⟩)
    · exact ⟨rfl, fun A hA => .inl hA⟩
  · exact ⟨rfl, fun A hA => .inl hA⟩

theorem handleWriteAck_discharges {type : MemoryMessageType}
    (h : s.handleWriteAck cfg p type = .ok (s', p')) (hp : p.type = .reply)
    (ht : p.transport.type = writeAck ∨ p.transport.type = upgradeAck)
    (hc : s.completes cfg p = false) : Discharges cfg s p s' p' := by
  simp only [handleWriteAck] at h
  split at h
  · cases h
  · rename_i x hx
    obtain ⟨-, h⟩ := of_ite_error_eq_ok h
    split at h
    · cases h
    · split at h
      · cases h
      · generalize hs : ({ s with theDirectory := _ } : Policy δ γ) = t at h
        have hd : t.theDirEvictBuffer = s.theDirEvictBuffer := by rw [← hs]
        have hb : t.theCacheEvictBuffer = s.theCacheEvictBuffer := by rw [← hs]
        have hcache : t.theCache = s.theCache := by rw [← hs]
        generalize hr : takeReserved _ _ x = r at h
        obtain ⟨s₁, p₁⟩ := r
        have hk := (rests_takeReserved hr).keeps
        obtain ⟨hdir, hpend⟩ := afterWrite_spec cfg t p.transport.address
        rw [hb, hcache] at hpend
        cases h
        refine ⟨fun A hA => .inl (hk.invalidates A ?_), fun A hA => ?_,
          fun hc => (by cases hc), fun h => ?_⟩
        · rw [hdir, hd]
          exact hA
        · rcases hpend A hA with hA' | ⟨hinv, hclean, ha⟩
          · exact .inl (hk.writeBack A hA')
          · exact .inr (.inr ⟨hinv, hA, .inr ⟨hp, ht, hclean, ha⟩⟩)
        · rw [hc] at h
          cases h

theorem handleEvictAck_discharges (h : s.handleEvictAck p = .ok (s', p'))
    (hc : s.completes cfg p = true) : Discharges cfg s p s' p' := by
  simp only [handleEvictAck] at h
  split at h
  · cases h
  · obtain ⟨-, h⟩ := of_ite_error_eq_ok h
    have hcache : ∀ A, s.theCacheEvictBuffer.isPending A →
        (s.theCacheEvictBuffer.remove p.transport.address).isPending A ∨
          (s.completes cfg p = true ∧ A = p.transport.address) ∨ s.dropsWriteBack cfg p A := by
      intro A hA
      by_cases ha : A = p.transport.address
      · exact .inr (.inl ⟨hc, ha⟩)
      · exact .inl (CacheEvictBuffer.isPending_remove.mpr ⟨ha, hA⟩)
    split at h
    · rename_i hnone
      cases h
      refine ⟨fun A hA => .inl hA, hcache, fun _ => hc, fun _ => .inr ?_⟩
      intro i w hi ha
      obtain ⟨x, hx, rfl⟩ := MissAddressFile.waits_entry.mp hi
      exact MissAddressFile.findFirst_eq_none.mp hnone i x hx ha
    · cases h
      exact ⟨fun A hA => .inl hA, hcache, fun _ => hc, fun _ => .inl rfl⟩

/-- **What a reply discharges.** -/
theorem handleReply_discharges (h : s.handleReply cfg p = .ok (s', p')) (hp : p.type = .reply) :
    Discharges cfg s p s' p' := by
  have hcomp : s.completes cfg p = match p.transport.type with
      | .evictAck => true
      | .invalidateAck | .invUpdateAck =>
        (s.theDirEvictBuffer.find p.transport.address).any fun e =>
          decide (e.theInvalidatesSent = 1)
      | _ => false := by
    rw [completes, hp]
  have hone : ((s.theDirEvictBuffer.find p.transport.address).any fun e =>
      decide (e.theInvalidatesSent = 1)) = true ↔
        s.theDirEvictBuffer.sent p.transport.address = some 1 := by
    rw [DirEvictBuffer.sent]
    cases s.theDirEvictBuffer.find p.transport.address with
    | none => simp
    | some e => simp
  have hkeep : Keeps s s' ∧ p'.action.wakes = false → s.completes cfg p = false →
      Discharges cfg s p s' p' := fun hk hc => hk.1.discharges hk.2 hc
  have hrest : Rests s s' ∧ p'.action.wakes = false → s.completes cfg p = false →
      Discharges cfg s p s' p' := fun hr hc => hr.1.keeps.discharges hr.2 hc
  rw [handleReply] at h
  split at h
  all_goals rename_i ht; simp only [ht] at hcomp
  · exact handleInvalidateAck_discharges h (by rw [hcomp]; exact hone)
  · exact handleInvalidateAck_discharges h (by rw [hcomp]; exact hone)
  · exact hkeep (keeps_handleReadAck h) hcomp
  · exact hkeep (keeps_handleReadAck h) hcomp
  · exact hkeep (keeps_handleReadAck h) hcomp
  · exact hkeep (keeps_handleReadAck h) hcomp
  · exact hrest (rests_handleNASAck h) hcomp
  · exact handleWriteAck_discharges h hp (.inl ht) hcomp
  · exact handleWriteAck_discharges h hp (.inr ht) hcomp
  · exact hrest (rests_handleNASReply h) hcomp
  · exact hrest (rests_handleMemoryReply h) hcomp
  · exact hrest (rests_handleMemoryReply h) hcomp
  · exact hrest (rests_handleMemoryReply h) hcomp
  · exact hrest (rests_handleFwdNAck h) hcomp
  · exact handleEvictAck_discharges h hcomp
  · cases h

end Policy

end CMPCache

end Flexus
