import Flexus.CMPCache.Laws
import Flexus.CMPCache.Owing

/-!
# The way of a request through a bank

Before a request is served (`components/CMPCache/NonInclusiveMESIPolicy.cpp`) its block gets an
entry in the directory, and comes back from the evict buffer of the cache if it is there. On the
way it may have to wait. What is recorded of a block – its sharers, and the state in which the
bank has it – stays the same on that way, but for a clean block that is lost.
-/

namespace Flexus

namespace CMPCache

open MemoryMessageType

variable {δ γ : Type}

namespace Policy

/-! ### What is recorded of a block -/

variable (cfg : Config δ γ)

/-- **What is recorded of the sharers of a block**, in the directory or in its evict buffer. -/
def recorded (s : Policy δ γ) (a : ℕ) : SimpleDirectoryState :=
  match cfg.directory.lookup s.theDirectory a with
  | some d => d
  | none =>
    match s.theDirEvictBuffer.find a with
    | some e => e.state
    | none => .reset cfg.theCores

/-- **The state of a block in a bank**, in the array or in the evict buffer. -/
def cached (s : Policy δ γ) (a : ℕ) : CacheState :=
  if cfg.array.state s.theCache a = .invalid then
    ((s.theCacheEvictBuffer.find a).map EvictEntry.state).getD .invalid
  else cfg.array.state s.theCache a

/-- The addresses of blocks. -/
def IsBlock (a : ℕ) : Prop := cfg.array.blockAddress a = a

/-- **A bank in order**: its directory and its array are, and a block is not at once there and in an
evict buffer. -/
structure InOrder (validDir : δ → Prop) (validArray : γ → Prop) (s : Policy δ γ) : Prop where
  directory : validDir s.theDirectory
  array : validArray s.theCache
  dirApart : ∀ a, IsBlock cfg a → (cfg.directory.lookup s.theDirectory a).isSome →
    s.theDirEvictBuffer.find a = none
  cacheApart : ∀ a, IsBlock cfg a → cfg.array.state s.theCache a ≠ .invalid →
    s.theCacheEvictBuffer.find a = none

/-! ### The steps of the way -/

/-- **The block has its directory entry**: its old one, or a new one, or none if it needs none. -/
inductive HasEntry (s : Policy δ γ) (type : MemoryMessageType) (a : ℕ) : Policy δ γ → Prop
  | found (h : (cfg.directory.lookup s.theDirectory a).isSome) : HasEntry s type a s
  | moved {e t b} (hnone : cfg.directory.lookup s.theDirectory a = none)
      (he : s.theDirEvictBuffer.find a = some e) (ht : s.allocateEntry cfg a e.state = some t)
      (hb : t.theDirEvictBuffer.remove a = .ok b) :
      HasEntry s type a { t with theDirEvictBuffer := b }
  | fresh {t} (hnone : cfg.directory.lookup s.theDirectory a = none)
      (he : s.theDirEvictBuffer.find a = none)
      (ht : s.allocateEntry cfg a (.reset cfg.theCores) = some t) : HasEntry s type a t
  | none (hnone : cfg.directory.lookup s.theDirectory a = none)
      (he : s.theDirEvictBuffer.find a = none) (htype : type = nonAllocatingStoreReq) :
      HasEntry s type a s

/-- **The block is in the array** if the bank has it. -/
inductive Recalled (s : Policy δ γ) (a : ℕ) : Policy δ γ → Prop
  | here (h : cfg.array.state s.theCache a = .invalid → s.theCacheEvictBuffer.find a = none) :
      Recalled s a s
  | back {e c state v} (hstate : cfg.array.state s.theCache a = .invalid)
      (he : s.theCacheEvictBuffer.find a = some e) (hpending : e.pending = false)
      (halloc : cfg.array.allocate s.theCache a = .ok (c, state, v)) :
      Recalled s a (evictCacheBlock cfg { s with
        theCache := cfg.array.setState c a e.state
        theCacheEvictBuffer := s.theCacheEvictBuffer.remove a } state v)

/-- **A clean block is lost** when the block comes back to the array: its way is needed, and clean
blocks are not kept. -/
def DropsVictim (s : Policy δ γ) (a : ℕ) : Prop :=
  cfg.array.state s.theCache a = .invalid ∧ ∃ e c state v, s.theCacheEvictBuffer.find a = some e ∧
    cfg.array.allocate s.theCache a = .ok (c, state, v) ∧ state ≠ .invalid ∧
      cfg.theEvictClean = false ∧ evictType state ≠ evictDirty

variable {cfg} {s s' t : Policy δ γ} {p p' : Process} {hasMaf mafWaiting found : Bool} {a : ℕ}

theorem withArray_cases (h : s.withArray cfg p hasMaf mafWaiting found a = .ok (s', p')) :
    (∃ e, cfg.array.state s.theCache a = .invalid ∧ s.theCacheEvictBuffer.find a = some e ∧
        e.pending = true ∧ s.stallIn p hasMaf a .waitEvict = .ok (s', p')) ∨
      ∃ t, Recalled cfg s a t ∧ t.serve cfg p hasMaf mafWaiting found a = .ok (s', p') := by
  rw [withArray] at h
  split at h
  · rename_i hstate
    split at h
    · rename_i he
      exact .inr ⟨s, .here fun _ => he, h⟩
    · rename_i e he
      split at h
      · rename_i hpending
        exact .inl ⟨e, hstate, he, hpending, h⟩
      · rename_i hpending
        split at h
        · cases h
        · rename_i c state v halloc
          exact .inr ⟨_, .back hstate he (Bool.eq_false_iff.mpr hpending) halloc, h⟩
  · rename_i hstate
    exact .inr ⟨s, .here fun hc => absurd hc hstate, h⟩

theorem withDirectory_cases (h : s.withDirectory cfg p hasMaf mafWaiting a = .ok (s', p')) :
    (cfg.directory.lookup s.theDirectory a = none ∧
        s.allocateEntry cfg a (s.recorded cfg a) = none ∧
        s.stallIn p hasMaf a .waitSet = .ok (s', p')) ∨
      ∃ t found, HasEntry cfg s p.transport.type a t ∧
        t.withArray cfg p hasMaf mafWaiting found a = .ok (s', p') := by
  rw [withDirectory] at h
  split at h
  · rename_i hsome
    exact .inr ⟨s, true, .found hsome, h⟩
  · rename_i hsome
    have hnone := Option.not_isSome_iff_eq_none.mp hsome
    split at h
    · rename_i e he
      split at h
      · rename_i halloc
        refine .inl ⟨hnone, ?_, h⟩
        simpa only [recorded, hnone, he] using halloc
      · rename_i t ht
        split at h
        · cases h
        · rename_i b hb
          exact .inr ⟨_, _, .moved hnone he ht hb, h⟩
    · rename_i he
      split at h
      · rename_i htype
        exact .inr ⟨s, false, .none hnone he htype, h⟩
      · split at h
        · rename_i halloc
          refine .inl ⟨hnone, ?_, h⟩
          simpa only [recorded, hnone, he] using halloc
        · rename_i t ht
          exact .inr ⟨t, _, .fresh hnone he ht, h⟩

/-- **A request waits for an acknowledgement of another one** that it does not conflict with. -/
def overlaps (s : Policy δ γ) (type : MemoryMessageType) (a : ℕ) : Bool :=
  match s.theMAF.find a with
  | none => false
  | some x => x.item.state == .waitAck && !conflicts type x.item.transport.type

/-- The block has no invalidates that are not answered. -/
def settled (s : Policy δ γ) (a : ℕ) : Prop :=
  ∀ e, s.theDirEvictBuffer.find a = some e → e.theInvalidatesSent = 0

/-- **How a request of a cache ends**: it waits before anything is done about it; or it is
redundant; or its write-back is on the way; or it is served. -/
inductive Passes (cfg : Config δ γ) (s : Policy δ γ) (p : Process) (hasMaf : Bool) (a : ℕ)
    (s' : Policy δ γ) (p' : Process) : Prop
  | waits {st} (hwait : s.overlaps p.transport.type a = false ∨ ¬ s.settled a ∨
        cfg.directory.lookup s.theDirectory a = none ∧
          s.allocateEntry cfg a (s.recorded cfg a) = none)
      (h : s.stallIn p hasMaf a st = .ok (s', p'))
  | redundant (hs : s' = s) (hp : p'.action ≠ .stall ∧ p'.action ≠ .notifyAndWaitAck)
  | writtenBack {t e} (ht : HasEntry cfg s p.transport.type a t)
      (hstate : cfg.array.state t.theCache a = .invalid)
      (he : t.theCacheEvictBuffer.find a = some e) (hpending : e.pending = true)
      (h : t.stallIn p hasMaf a .waitEvict = .ok (s', p'))
  | serves {t u found} (ht : HasEntry cfg s p.transport.type a t) (hu : Recalled cfg t a u)
      (hsettled : s.settled a)
      (h : u.serve cfg p hasMaf (s.overlaps p.transport.type a) found a = .ok (s', p'))

theorem admitRequest_passes
    (h : s.admitRequest cfg p hasMaf (s.overlaps p.transport.type a) a = .ok (s', p'))
    (htype : p.transport.type.isEvictType = false) : Passes cfg s p hasMaf a s' p' := by
  have hdirectory : s.settled a →
      s.withDirectory cfg p hasMaf (s.overlaps p.transport.type a) a = .ok (s', p') →
        Passes cfg s p hasMaf a s' p' := by
    intro hsettled h
    rcases withDirectory_cases h with ⟨hnone, halloc, h⟩ | ⟨t, found, ht, h⟩
    · exact .waits (.inr (.inr ⟨hnone, halloc⟩)) h
    · rcases withArray_cases h with ⟨e, hstate, he, hpending, h⟩ | ⟨u, hu, h⟩
      · exact .writtenBack ht hstate he hpending h
      · exact .serves ht hu hsettled h
  rw [admitRequest, if_neg (by rw [htype]; decide)] at h
  split at h
  · cases h
    refine .redundant rfl ?_
    cases hasMaf <;> simp
  · split at h
    · rename_i e he
      split at h
      · rename_i hsent
        exact .waits (.inr (.inl fun hsettled => hsent (hsettled e he))) h
      · rename_i hsent
        refine hdirectory (fun e' he' => ?_) h
        obtain rfl := Option.some.inj (he.symm.trans he')
        exact not_not.mp hsent
    · rename_i hnone
      exact hdirectory (fun e he => by cases hnone.symm.trans he) h

/-- **What `doRequest` does with a request of a cache.** -/
theorem doRequest_passes (h : s.doRequest cfg p hasMaf = .ok (s', p'))
    (htype : p.transport.type.isEvictType = false) :
    Passes cfg s p hasMaf (cfg.array.blockAddress p.transport.address) s' p' := by
  simp only [doRequest] at h
  split at h
  · rename_i hfind
    have hoverlaps : s.overlaps p.transport.type
        (cfg.array.blockAddress p.transport.address) = false := by rw [overlaps, hfind]
    rw [← hoverlaps] at h
    exact admitRequest_passes h htype
  · rename_i x hx
    have hoverlaps : s.overlaps p.transport.type (cfg.array.blockAddress p.transport.address) =
        (x.item.state == .waitAck && !conflicts p.transport.type x.item.transport.type) := by
      rw [overlaps, hx]
    split at h
    all_goals
      rename_i hst
      rw [hst] at hoverlaps
    · rw [if_neg (by rw [htype]; decide)] at h
      exact .waits (.inl hoverlaps) h
    · rw [if_neg (by rw [htype]; decide)] at h
      exact .waits (.inl hoverlaps) h
    · exact .waits (.inl hoverlaps) h
    · split at h
      · rename_i hconf
        rw [hconf] at hoverlaps
        exact .waits (.inl hoverlaps) h
      · rename_i hconf
        rw [Bool.not_eq_true] at hconf
        rw [hconf] at hoverlaps
        rw [← hoverlaps.trans (by rfl : _ = true)] at h
        exact admitRequest_passes h htype
    · rw [← hoverlaps.trans (by rfl : _ = false)] at h
      exact admitRequest_passes h htype
    · rw [← hoverlaps.trans (by rfl : _ = false)] at h
      exact admitRequest_passes h htype
    · rw [← hoverlaps.trans (by rfl : _ = false)] at h
      exact admitRequest_passes h htype
    · cases h

/-! ### What the way leaves as it is -/

section Records

variable {validDir : δ → Prop} {validArray : γ → Prop} {type : MemoryMessageType} {b : ℕ}

theorem allocateEntry_lookup (hdir : DirectoryLaws cfg.directory (IsBlock cfg) validDir)
    (hs : validDir s.theDirectory) (ha : IsBlock cfg a)
    (hnone : cfg.directory.lookup s.theDirectory a = none) {d : SimpleDirectoryState}
    (h : s.allocateEntry cfg a d = some t) : cfg.directory.lookup t.theDirectory a = some d := by
  rw [allocateEntry] at h
  split at h
  · cases h
  · rename_i halloc
    cases h
    exact hdir.allocate_self hs ha hnone halloc

/-- **The records of other blocks** stay when a block gets a new entry. -/
theorem allocateEntry_spec (hdir : DirectoryLaws cfg.directory (IsBlock cfg) validDir)
    (hs : s.InOrder cfg validDir validArray) (ha : IsBlock cfg a)
    (hnone : cfg.directory.lookup s.theDirectory a = none) {d : SimpleDirectoryState}
    (h : s.allocateEntry cfg a d = some t) :
    (t.theCache = s.theCache ∧ t.theCacheEvictBuffer = s.theCacheEvictBuffer) ∧
      ∀ b, IsBlock cfg b → b ≠ a →
        (t.recorded cfg b).theSharers = (s.recorded cfg b).theSharers := by
  rw [allocateEntry] at h
  split at h
  · cases h
  · rename_i dir v halloc
    -- the evict buffer, for the victim and for all others
    obtain ⟨hframe, rfl, hkept, hvictim⟩ : (t.theCache = s.theCache ∧
        t.theCacheEvictBuffer = s.theCacheEvictBuffer) ∧ t.theDirectory = dir ∧
        (∀ b, (∀ vd, v ≠ some (b, vd)) →
          t.theDirEvictBuffer.find b = s.theDirEvictBuffer.find b) ∧
        ∀ b vd, v = some (b, vd) → s.theDirEvictBuffer.find b = none →
          t.theDirEvictBuffer.find b = some ⟨b, vd, 0, 0⟩ := by
      cases h
      refine ⟨⟨rfl, rfl⟩, rfl, fun b hb => ?_, ?_⟩
      · rcases v with - | ⟨va, vd⟩
        · rfl
        · exact DirEvictBuffer.find_insert.trans (if_neg fun hc => hb vd (by rw [hc.1]))
      · rintro b vd rfl hb
        exact DirEvictBuffer.find_insert.trans (if_pos ⟨rfl, hb⟩)
    have hapart : ∀ {b d}, IsBlock cfg b → cfg.directory.lookup s.theDirectory b = some d →
        s.theDirEvictBuffer.find b = none := fun hb hd => hs.dirApart _ hb (hd ▸ rfl)
    refine ⟨hframe, fun b hb hne => ?_⟩
    by_cases hv : ∃ vd, v = some (b, vd)
    · obtain ⟨vd, rfl⟩ := hv
      obtain ⟨hfound, hlost⟩ := hdir.allocate_victim hs.directory ha hnone halloc hb
      simp only [recorded, hfound, hlost, hvictim b vd rfl (hapart hb hfound)]
    · rw [not_exists] at hv
      rcases hdir.allocate_other hs.directory ha hnone halloc hb hne with
        hsame | ⟨hlost, vd, hfound, hvd⟩
      · rcases hold : cfg.directory.lookup s.theDirectory b with - | d
        · rw [hold, Option.map_none, Option.map_eq_none_iff] at hsame
          simp only [recorded, hold, hsame, hkept b hv]
        · rw [hold, Option.map_some, Option.map_eq_some_iff] at hsame
          obtain ⟨d', hd', heq⟩ := hsame
          simp only [recorded, hold, hd', heq]
      · have hempty := hvd.resolve_left (hv vd)
        simp only [recorded, hfound, hlost, hkept b hv, hapart hb hfound, hempty]
        rfl

/-- **The directory entry of a block** is what is recorded of it. -/
theorem HasEntry.lookup (hdir : DirectoryLaws cfg.directory (IsBlock cfg) validDir)
    (hs : validDir s.theDirectory) (ha : IsBlock cfg a) (h : HasEntry cfg s type a t) :
    type = nonAllocatingStoreReq ∨
      cfg.directory.lookup t.theDirectory a = some (s.recorded cfg a) := by
  cases h with
  | found h =>
    obtain ⟨d, hd⟩ := Option.isSome_iff_exists.mp h
    refine .inr ?_
    rw [recorded, hd]
  | moved hnone he ht hb =>
    refine .inr ((allocateEntry_lookup hdir hs ha hnone ht).trans ?_)
    simp only [recorded, hnone, he]
  | fresh hnone he ht =>
    refine .inr ((allocateEntry_lookup hdir hs ha hnone ht).trans ?_)
    simp only [recorded, hnone, he]
  | none hnone he htype => exact .inl htype

/-- **The records of all blocks stay** when a block gets its entry. -/
theorem HasEntry.spec (hdir : DirectoryLaws cfg.directory (IsBlock cfg) validDir)
    (hs : s.InOrder cfg validDir validArray) (ha : IsBlock cfg a) (h : HasEntry cfg s type a t) :
    (t.theCache = s.theCache ∧ t.theCacheEvictBuffer = s.theCacheEvictBuffer) ∧
      ∀ b, IsBlock cfg b → (t.recorded cfg b).theSharers = (s.recorded cfg b).theSharers := by
  have hall : ∀ {t : Policy δ γ}, cfg.directory.lookup t.theDirectory a = some (s.recorded cfg a) →
      (∀ b, IsBlock cfg b → b ≠ a →
        (t.recorded cfg b).theSharers = (s.recorded cfg b).theSharers) →
      ∀ b, IsBlock cfg b → (t.recorded cfg b).theSharers = (s.recorded cfg b).theSharers := by
    intro t hself hother b hb
    by_cases hba : b = a
    · subst hba
      rw [recorded, hself]
    · exact hother b hb hba
  cases h with
  | found h => exact ⟨⟨rfl, rfl⟩, fun b _ => rfl⟩
  | moved hnone he ht hb =>
    rename_i e t b
    obtain ⟨hframe, hother⟩ := allocateEntry_spec hdir hs ha hnone ht
    have hself := allocateEntry_lookup hdir hs.directory ha hnone ht
    have hrec : s.recorded cfg a = e.state := by simp only [recorded, hnone, he]
    refine ⟨hframe, hall (hself.trans (congrArg some hrec.symm)) fun c hc hne => ?_⟩
    have hfind : b.find c = t.theDirEvictBuffer.find c :=
      ((DirEvictBuffer.remove_spec hb).2 c).trans (if_neg hne)
    rw [← hother c hc hne, recorded, recorded, hfind]
  | fresh hnone he ht =>
    obtain ⟨hframe, hother⟩ := allocateEntry_spec hdir hs ha hnone ht
    have hself := allocateEntry_lookup hdir hs.directory ha hnone ht
    have hrec : s.recorded cfg a = .reset cfg.theCores := by simp only [recorded, hnone, he]
    exact ⟨hframe, hall (hself.trans (congrArg some hrec.symm)) hother⟩
  | none hnone he htype => exact ⟨⟨rfl, rfl⟩, fun b _ => rfl⟩

/-- The state of a victim is in the evict buffer, unless it is a clean one that is not kept. -/
theorem find_evictCacheBlock {state : CacheState} {v : ℕ} :
    ((evictCacheBlock cfg s state v).theCacheEvictBuffer.find b).map EvictEntry.state =
      if state ≠ .invalid ∧ (cfg.theEvictClean = true ∨ evictType state = evictDirty) ∧ b = v then
        some state
      else (s.theCacheEvictBuffer.find b).map EvictEntry.state := by
  rw [evictCacheBlock]
  split
  · rename_i hkept
    rw [CacheEvictBuffer.find_allocEntry]
    by_cases hb : b = v
    · rw [if_pos hb, if_pos ⟨hkept.1, hkept.2, hb⟩]
      cases s.theCacheEvictBuffer.find v <;> rfl
    · rw [if_neg hb, if_neg fun hc => hb hc.2.2]
  · rename_i hkept
    rw [if_neg fun hc => hkept ⟨hc.1, hc.2.1⟩]

theorem theCache_evictCacheBlock {state : CacheState} {v : ℕ} :
    (evictCacheBlock cfg s state v).theCache = s.theCache ∧
      (evictCacheBlock cfg s state v).theDirectory = s.theDirectory := by
  rw [evictCacheBlock]
  split
  · exact ⟨rfl, rfl⟩
  · exact ⟨rfl, rfl⟩

theorem Recalled.directory (h : Recalled cfg s a t) :
    t.theDirectory = s.theDirectory ∧ t.theDirEvictBuffer = s.theDirEvictBuffer := by
  cases h with
  | here h => exact ⟨rfl, rfl⟩
  | back hstate he hpending halloc =>
    exact ⟨theCache_evictCacheBlock.2, theDirEvictBuffer_evictCacheBlock⟩

/-- **A block that comes back** is in the array then, in its state, and the bank has all other
blocks as before unless a clean one is lost. -/
theorem Recalled.spec (harr : ArrayLaws cfg.array validArray) (hs : validArray s.theCache)
    (hapart : ∀ b, IsBlock cfg b → cfg.array.state s.theCache b ≠ .invalid →
      s.theCacheEvictBuffer.find b = none)
    (ha : IsBlock cfg a) (h : Recalled cfg s a t) :
    validArray t.theCache ∧ cfg.array.state t.theCache a = s.cached cfg a ∧
      (cfg.array.state t.theCache a ≠ .invalid → t.theCacheEvictBuffer.find a = none) ∧
      (¬ DropsVictim cfg s a → ∀ b, IsBlock cfg b → t.cached cfg b = s.cached cfg b) ∧
      (DropsVictim cfg s a → ∃ b, IsBlock cfg b ∧ b ≠ a ∧ t.cached cfg b ≠ s.cached cfg b) := by
  cases h with
  | here h =>
    refine ⟨hs, ?_, hapart a ha, fun _ _ _ => rfl, ?_⟩
    · rw [cached]
      split
      · rename_i hstate
        rw [h hstate]
        exact hstate
      · rfl
    · rintro ⟨hstate, e, c, state, v, he, -⟩
      exact absurd ((h hstate).symm.trans he) nofun
  | back hstate he hpending halloc =>
    rename_i e c state v
    have hvictim : state ≠ .invalid → IsBlock cfg v ∧ v ≠ a ∧
        cfg.array.state s.theCache v = state := harr.victim hs ha hstate halloc
    have hnew : ∀ {b}, IsBlock cfg b → cfg.array.state (cfg.array.setState c a e.state) b =
        if b = a then e.state else if b = v ∧ state ≠ .invalid then .invalid
          else cfg.array.state s.theCache b := fun hb =>
      harr.state_allocate hs ha hstate halloc hb
    have hfind : (evictCacheBlock cfg { s with
        theCache := cfg.array.setState c a e.state
        theCacheEvictBuffer := s.theCacheEvictBuffer.remove a } state v).theCacheEvictBuffer.find
          a = none := by
      rw [← Option.map_eq_none_iff (f := EvictEntry.state), find_evictCacheBlock,
        if_neg fun hc => (hvictim hc.1).2.1 hc.2.2.symm, Option.map_eq_none_iff]
      exact CacheEvictBuffer.find_remove.trans (if_pos rfl)
    have hold : s.cached cfg a = e.state := by
      rw [cached, if_pos hstate, he]
      rfl
    have hcached : ∀ {b}, IsBlock cfg b → (b = v → state ≠ .invalid →
        cfg.theEvictClean = true ∨ evictType state = evictDirty) →
        (evictCacheBlock cfg { s with
          theCache := cfg.array.setState c a e.state
          theCacheEvictBuffer := s.theCacheEvictBuffer.remove a } state v).cached cfg b =
            s.cached cfg b := by
      intro b hb hkept
      rw [cached, theCache_evictCacheBlock.1, hnew hb]
      by_cases hba : b = a
      · subst hba
        rw [hfind, hold, if_pos rfl]
        split
        · rename_i hinvalid
          exact hinvalid.symm
        · rfl
      · rw [if_neg hba, find_evictCacheBlock]
        by_cases hbv : b = v ∧ state ≠ .invalid
        · have hsame : s.cached cfg b = state := by
            rw [cached, hbv.1, (hvictim hbv.2).2.2, if_neg hbv.2]
          rw [if_pos hbv, if_pos rfl, if_pos ⟨hbv.2, hkept hbv.1 hbv.2, hbv.1⟩, hsame]
          rfl
        · have hother : ¬(state ≠ .invalid ∧
              (cfg.theEvictClean = true ∨ evictType state = evictDirty) ∧ b = v) :=
            fun hc => hbv ⟨hc.2.2, hc.1⟩
          have hremove : (s.theCacheEvictBuffer.remove a).find b = s.theCacheEvictBuffer.find b :=
            CacheEvictBuffer.find_remove.trans (if_neg hba)
          rw [if_neg hbv, if_neg hother, hremove]
          rfl
    refine ⟨?_, ?_, fun _ => hfind, ?_, ?_⟩
    · rw [theCache_evictCacheBlock.1]
      exact harr.allocate hs ha hstate halloc
    · rw [theCache_evictCacheBlock.1, hnew ha, if_pos rfl, hold]
    · intro hkept b hb
      refine hcached hb fun hbv hvalid => ?_
      by_contra hc
      rw [not_or, Bool.not_eq_true] at hc
      exact hkept ⟨hstate, e, c, state, v, he, halloc, hvalid, hc.1, hc.2⟩
    · rintro ⟨-, e', c', state', v', he', halloc', hvalid, hclean, hdirty⟩
      obtain ⟨rfl, rfl, rfl⟩ : c = c' ∧ state = state' ∧ v = v' := by
        simpa using halloc.symm.trans halloc'
      obtain ⟨hblock, hva, hvstate⟩ := hvictim hvalid
      refine ⟨v, hblock, hva, ?_⟩
      have hsame : s.cached cfg v = state := by rw [cached, hvstate, if_neg hvalid]
      have hgone : s.theCacheEvictBuffer.find v = none :=
        hapart v hblock (by rw [hvstate]; exact hvalid)
      have hlost : v = v ∧ state ≠ .invalid := ⟨rfl, hvalid⟩
      rw [hsame, cached, theCache_evictCacheBlock.1, hnew hblock, if_neg hva,
        if_pos hlost, if_pos rfl, find_evictCacheBlock, if_neg]
      · have hremove : (s.theCacheEvictBuffer.remove a).find v = none :=
          CacheEvictBuffer.find_remove.trans ((if_neg hva).trans hgone)
        simp only [hremove]
        exact hvalid.symm
      · rw [hclean]
        exact fun hc => hdirty (hc.2.1.resolve_left nofun)

end Records

end Policy

end CMPCache

end Flexus
