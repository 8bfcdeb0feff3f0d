import Flexus.FastCMPCache.TaglessCoverage
import Flexus.FastCMPCache.DirectoryCheckpoint

/-!
# Checkpoints of the tagless directory

`saveState` of `TaglessDirectory` writes, set by set, the tagless entries of the first
`theNumBuckets` buckets, and `loadState` reads as many back. A partitioned directory has that
many buckets for *every* hash function, so the buckets of all hash functions but the first are
not saved; and the sharers pass through a word of 64 bits, as those of the set-associative
directory do.

A lookup intersects the buckets of the address. So a sharer that a lookup found is found again
after a load if it fits in the word and is listed, in the directory that was loaded into, by
the buckets that were not saved
(`Flexus.FastCMPCache.TaglessDirectory.remembers_iff`); in a new directory they list nobody.
-/

namespace Flexus

open Function

namespace FastCMPCache

/-- A checkpoint of a tagless directory. -/
structure TaglessArchive where
  sets : ℕ
  buckets : ℕ
  entries : List StdDirEntrySerializer
  deriving DecidableEq

/-- The saved buckets, in the order of the loops over sets and buckets. -/
def TaglessConfig.saved (cfg : TaglessConfig) : List BlockEntryWrapper :=
  (List.range cfg.theNumSets).flatMap fun set =>
    (List.range cfg.theNumBuckets).map fun bucket => ⟨set, bucket⟩

namespace TaglessDirectory

variable {cfg : TaglessConfig}

/-- **`saveState`.** -/
def saveState (d : TaglessDirectory cfg) : TaglessArchive where
  sets := cfg.theNumSets
  buckets := cfg.theNumBuckets
  entries := cfg.saved.map fun w => (d.theDirectory w.set w.way).getSerializer

/-- The assignment of a serializer to a bucket. -/
def setBucket (d : TaglessDirectory cfg) (w : BlockEntryWrapper) (e : BlockDirectoryEntry) :
    TaglessDirectory cfg :=
  { d with
    theDirectory := update d.theDirectory w.set
      (update (d.theDirectory w.set) w.way e) }

/-- The loops of `loadState`, for the buckets that are left. -/
def loadBuckets : List BlockEntryWrapper → TaglessDirectory cfg → List StdDirEntrySerializer →
    Option (TaglessDirectory cfg)
  | [], d, _ => some d
  | _ :: _, _, [] => none
  | w :: ws, d, s :: ss => loadBuckets ws (d.setBucket w (.ofSerializer s)) ss

/-- **`loadState`**: the numbers of sets and buckets are asserted. -/
def loadState (d : TaglessDirectory cfg) (a : TaglessArchive) : Option (TaglessDirectory cfg) :=
  if a.sets = cfg.theNumSets ∧ a.buckets = cfg.theNumBuckets then
    loadBuckets cfg.saved d a.entries
  else none

variable {d d' d₀ : TaglessDirectory cfg} {w : BlockEntryWrapper} {i a : ℕ}

theorem mem_saved :
    w ∈ cfg.saved ↔ w.set < cfg.theNumSets ∧ w.way < cfg.theNumBuckets := by
  rw [TaglessConfig.saved, List.mem_flatMap]
  constructor
  · rintro ⟨set, hset, hw⟩
    obtain ⟨bucket, hbucket, rfl⟩ := List.mem_map.mp hw
    exact ⟨List.mem_range.mp hset, List.mem_range.mp hbucket⟩
  · rintro ⟨hset, hway⟩
    exact ⟨w.set, List.mem_range.mpr hset, List.mem_map.mpr ⟨w.way, List.mem_range.mpr hway, rfl⟩⟩

theorem setBucket_self (e : BlockDirectoryEntry) :
    (d.setBucket w e).theDirectory w.set w.way = e := by
  rw [setBucket]
  dsimp only
  rw [update_self, update_self]

theorem setBucket_of_ne {e : BlockDirectoryEntry} {u : BlockEntryWrapper} (h : u ≠ w) :
    (d.setBucket w e).theDirectory u.set u.way = d.theDirectory u.set u.way := by
  rw [setBucket]
  dsimp only
  by_cases hset : u.set = w.set
  · have hway : u.way ≠ w.way := by
      intro hway
      rcases u with ⟨us, uw⟩
      rcases w with ⟨ws, ww⟩
      cases hset
      cases hway
      exact h rfl
    rw [hset, update_self, update_of_ne hway]
  · rw [update_of_ne hset]

/-- **What the loops read back.** A bucket that is read twice gets the same both times. -/
theorem loadBuckets_spec (ws : List BlockEntryWrapper)
    (value : BlockEntryWrapper → StdDirEntrySerializer) (d₀ : TaglessDirectory cfg) :
    ∃ d', loadBuckets ws d₀ (ws.map value) = some d' ∧ ∀ w : BlockEntryWrapper,
      d'.theDirectory w.set w.way =
        if w ∈ ws then .ofSerializer (value w) else d₀.theDirectory w.set w.way := by
  induction ws generalizing d₀ with
  | nil => exact ⟨d₀, rfl, fun w => (if_neg List.not_mem_nil).symm⟩
  | cons u ws ih =>
    obtain ⟨d', hd', hspec⟩ := ih (d₀.setBucket u (.ofSerializer (value u)))
    refine ⟨d', hd', fun w => ?_⟩
    rw [hspec w]
    by_cases hw : w ∈ ws
    · rw [if_pos hw, if_pos (List.mem_cons_of_mem u hw)]
    · rw [if_neg hw]
      by_cases hu : w = u
      · subst hu
        rw [if_pos List.mem_cons_self, setBucket_self]
      · have hnot : w ∉ u :: ws := fun h => (List.mem_cons.mp h).elim hu hw
        rw [if_neg hnot, setBucket_of_ne hu]

theorem getSet_lt (a : ℕ) : cfg.getSet a < cfg.theNumSets :=
  Nat.mod_lt _ (Nat.two_pow_pos _)

/-- **What a bucket lists after a load**: the saved sharers that fit, or what it listed in the
directory that was loaded into. -/
theorem loadState_saveState (d d₀ : TaglessDirectory cfg) :
    ∃ d', d₀.loadState d.saveState = some d' ∧ ∀ a b i,
      (i ∈ d'.sharersIn (cfg.getSet a) b ↔
        if b < cfg.theNumBuckets then i ∈ d.sharersIn (cfg.getSet a) b ∧ i < 64
        else i ∈ d₀.sharersIn (cfg.getSet a) b) := by
  obtain ⟨d', hd', hspec⟩ := loadBuckets_spec cfg.saved
    (fun w => (d.theDirectory w.set w.way).getSerializer) d₀
  refine ⟨d', ?_, fun a b i => ?_⟩
  · rw [loadState, if_pos ⟨rfl, rfl⟩]
    exact hd'
  · have hbucket : d'.theDirectory (cfg.getSet a) b = _ := hspec ⟨cfg.getSet a, b⟩
    rw [sharersIn, hbucket]
    by_cases hb : b < cfg.theNumBuckets
    · rw [if_pos (mem_saved.mpr ⟨getSet_lt a, hb⟩), if_pos hb]
      exact SharingVector.mem_setSharers_getUInt64 _ i
    · rw [if_neg fun h => hb (mem_saved.mp h).2, if_neg hb]
      exact Iff.rfl

/-- **No sharer is forgotten**: what a lookup of an address found is found after the load. -/
def Remembers (d d' : TaglessDirectory cfg) : Prop :=
  ∀ a, checkBuckets cfg a = .ok () → ∀ i ∈ (d.taglessState a).theSharers.sharers,
    i ∈ (d'.taglessState a).theSharers.sharers

/-- Every sharer that a lookup finds fits in the word that is saved, and the buckets of the
address that are not saved list it in the directory that is loaded into. -/
def Survives (d d₀ : TaglessDirectory cfg) : Prop :=
  ∀ a, checkBuckets cfg a = .ok () → ∀ i ∈ (d.taglessState a).theSharers.sharers,
    ∀ b ∈ cfg.buckets a,
      if b < cfg.theNumBuckets then i < 64 else i ∈ d₀.sharersIn (cfg.getSet a) b

/-- **A checkpoint forgets no sharer exactly when all of them survive.** -/
theorem remembers_iff (d d₀ : TaglessDirectory cfg) :
    (∃ d', d₀.loadState d.saveState = some d' ∧ Remembers d d') ↔ Survives d d₀ := by
  obtain ⟨d', hload, hspec⟩ := loadState_saveState d d₀
  constructor
  · rintro ⟨d'', hload', hrem⟩ a hc i hi b hb
    cases hload.symm.trans hload'
    have hafter := (mem_taglessState (checkBuckets_spec hc).1).mp (hrem a hc i hi) b hb
    rw [hspec] at hafter
    by_cases hlt : b < cfg.theNumBuckets
    · rw [if_pos hlt] at hafter ⊢
      exact hafter.2
    · rw [if_neg hlt] at hafter ⊢
      exact hafter
  · intro hsur
    refine ⟨d', hload, fun a hc i hi => (mem_taglessState (checkBuckets_spec hc).1).mpr ?_⟩
    intro b hb
    have hbefore := (mem_taglessState (checkBuckets_spec hc).1).mp hi b hb
    have hs := hsur a hc i hi b hb
    rw [hspec]
    by_cases hlt : b < cfg.theNumBuckets
    · rw [if_pos hlt] at hs ⊢
      exact ⟨hbefore, hs⟩
    · rw [if_neg hlt] at hs ⊢
      exact hs

/-! ### Runs whose sharers survive -/

/-- The call adds sharers below 64 only, and to saved buckets only. -/
def Call.fits (cfg : TaglessConfig) : Call → Bool
  | .addSharer i a => decide (i < 64) && (cfg.buckets a).all (· < cfg.theNumBuckets)
  | .addExclusiveSharer i a => decide (i < 64) && (cfg.buckets a).all (· < cfg.theNumBuckets)
  | _ => true

/-- Only saved buckets list sharers, and only such as fit. -/
def Fits (d : TaglessDirectory cfg) : Prop :=
  ∀ s b, ∀ i ∈ d.sharersIn s b, i < 64 ∧ b < cfg.theNumBuckets

theorem Fits.of_buckets (h : Fits d) (hd : d'.theDirectory = d.theDirectory) : Fits d' := by
  intro s b i hi
  rw [sharersIn, hd] at hi
  exact h s b i hi

theorem Fits.add (h : Fits d) (hi : i < 64) {bs : List ℕ} {set : ℕ}
    (hall : ∀ b ∈ bs, b < cfg.theNumBuckets) (hd : addToBuckets i set bs d = .ok d') :
    Fits d' := by
  intro s b j hj
  rw [(addToBuckets_spec hd).2] at hj
  split at hj
  · rename_i hsb
    rcases Finset.mem_insert.mp hj with rfl | hj
    · exact ⟨hi, hall b hsb.2⟩
    · exact h s b j hj
  · exact h s b j hj

theorem Fits.remove (h : Fits d) {tags : List ℕ} (hd : d.removeSharer i a tags = .ok d') :
    Fits d' := by
  obtain ⟨d₁, ht, hd⟩ := Lib.exists_of_bind_eq_ok hd
  have h₁ : Fits d₁ := h.of_buckets (modifyTrueState_buckets ht)
  split at hd
  · intro s b j hj
    rw [clearBuckets_spec hd] at hj
    split at hj
    · exact h₁ s b j (Finset.mem_of_mem_erase hj)
    · exact h₁ s b j hj
  · cases hd
    exact h₁

/-- **A call that fits keeps everything fitting.** -/
theorem fits_call {caches : ℕ → Geometry} {s t : Tracked cfg} (h : Fits s.directory) {c : Call}
    (hfit : c.fits cfg = true) (hs : s.step caches c = .ok t) : Fits t.directory := by
  obtain ⟨d, hd, hstep⟩ := step_spec hs
  have hl : Fits d := h.of_buckets (findOrCreateEntry_spec hd).2.1
  cases c with
  | addSharer i a | addExclusiveSharer i a =>
    obtain ⟨d₁, d', hb, heq, rfl⟩ := hstep
    obtain ⟨hi, hall⟩ := Bool.and_eq_true_iff.mp hfit
    exact (hl.add (of_decide_eq_true hi)
      (fun b hb => of_decide_eq_true (List.all_eq_true.mp hall b hb)) hb).of_buckets heq
  | removeSharer i a | failedSnoop i a =>
    obtain ⟨d', ha, rfl⟩ := hstep
    exact hl.remove ha
  | makeSharerExclusive i a =>
    obtain ⟨d', heq, rfl⟩ := hstep
    exact hl.of_buckets heq

theorem fits_of_reachable {caches : ℕ → Geometry} {s : Tracked cfg}
    (h : (tracking cfg caches).ReachableWhen (fun _ c => c.fits cfg = true) s) :
    Fits s.directory := by
  refine h.invariant (I := fun s => Fits s.directory) ?_ fun _ _ _ hs hc ht => fits_call hs hc ht
  intro s b i hi
  exact absurd hi (Finset.notMem_empty i)

theorem Fits.survives (h : Fits d) (d₀ : TaglessDirectory cfg) : Survives d d₀ := by
  intro a hc i hi b hb
  obtain ⟨hlt, hbucket⟩ :=
    h _ b i ((mem_taglessState (checkBuckets_spec hc).1).mp hi b hb)
  rw [if_pos hbucket]
  exact hlt

/-- **Checkpoints of reachable directories.** A checkpoint forgets no sharer exactly when all
of them survive, and in a run that shares blocks of saved buckets with caches below 64 only,
it forgets none. -/
theorem checkpoint_remembers_iff (cfg : TaglessConfig) (caches : ℕ → Geometry) :
    (∀ s, (tracking cfg caches).Reachable s → ∀ d₀ : TaglessDirectory cfg,
      ((∃ d', d₀.loadState s.directory.saveState = some d' ∧ Remembers s.directory d') ↔
        Survives s.directory d₀)) ∧
    ∀ s, (tracking cfg caches).ReachableWhen (fun _ c => c.fits cfg = true) s →
      ∀ d₀ : TaglessDirectory cfg,
        ∃ d', d₀.loadState s.directory.saveState = some d' ∧ Remembers s.directory d' := by
  constructor
  · intro s _ d₀
    exact remembers_iff s.directory d₀
  · intro s hs d₀
    exact (remembers_iff s.directory d₀).mpr ((fits_of_reachable hs).survives d₀)

/-- A directory with two hash functions and one bucket for each of them. -/
def twoHashes (partitioned : Bool) : TaglessConfig where
  theSetShift := 6
  setBits := 0
  theNumBuckets := 1
  theTotalNumBuckets := 2
  thePartitioned := partitioned
  theUpdateOnSnoop := false
  hashFns := [fun _ => 0, fun _ => 0]

/-- A directory after a block was shared with a cache. -/
def sharedWith (partitioned : Bool) (index : ℕ) :
    Except TaglessFault (Tracked (twoHashes partitioned)) :=
  (tracking (twoHashes partitioned) twoSets).run [.addSharer index 0]

/-- A directory that is not partitioned does not forget a cache with a small index. -/
theorem checkpoint_remembers_iff_sharedWith : ∃ s, sharedWith false 3 = .ok s ∧
    ∃ d', (empty _).loadState s.directory.saveState = some d' ∧ Remembers s.directory d' := by
  obtain ⟨s, hs⟩ : ∃ s, sharedWith false 3 = .ok s := ⟨_, rfl⟩
  refine ⟨s, hs, (checkpoint_remembers_iff _ twoSets).2 s ?_ _⟩
  exact Lib.Machine.reachableWhen_of_run (g := fun _ c => c.fits (twoHashes false))
    (fun _ _ h => h)
    (by decide) hs

/-- **A partitioned directory forgets the only sharer of a block.** -/
theorem sharedWith_forgotten : ∃ s, sharedWith true 3 = .ok s ∧
    ¬∃ d', (empty _).loadState s.directory.saveState = some d' ∧ Remembers s.directory d' := by
  obtain ⟨s, hs, hmem⟩ : ∃ s, sharedWith true 3 = .ok s ∧
      3 ∈ (s.directory.taglessState 0).theSharers.sharers := ⟨_, rfl, by decide⟩
  refine ⟨s, hs, fun h => ?_⟩
  have hsur := (remembers_iff s.directory (empty _)).mp h 0 (by decide) 3 hmem 1 (by decide)
  rw [if_neg (by decide)] at hsur
  exact absurd hsur (by decide)

end TaglessDirectory

end FastCMPCache

end Flexus
