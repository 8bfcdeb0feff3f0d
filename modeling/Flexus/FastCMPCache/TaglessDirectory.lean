import Flexus.FastCMPCache.StandardDirectory
import Flexus.FastCache.StdCache
import Flexus.Lib.Outcome

/-!
# The tagless directory of the shared functional cache

`TaglessDirectory` (`components/FastCMPCache/TaglessDirectory.cpp`) has no tags. Every set has
a number of buckets, each with a sharing vector, and hash functions select some of the buckets
for an address: the sharers of a block are the caches that all of its buckets list. So the
blocks that fall into a bucket share its bits, and a bit may be cleared only if no other block
of the cache needs it. To find out, the directory asks the cache for the tags of its own set of
the address (`eSetTagProbe`).

A *partitioned* directory gives every hash function buckets of its own. What the hash
functions compute is a parameter, and so is the number of buckets there are: the configuration
is that after `initialize`, which allocates the buckets before the hash functions are created.

Beside the buckets the directory keeps a precise entry for every block, in a map of each of
the buckets of the block. The buckets of a block share its entry, and it is put into and
removed from all of their maps together; the model keeps one map.
-/

namespace Flexus

open Function List

namespace FastCMPCache

open SharingState

/-- The assertions of the tagless directory, beside those of its entries. -/
inductive TaglessFault
  /-- A hash function selects a bucket that does not exist. -/
  | invalidBucket
  /-- There is no hash function. -/
  | noBuckets
  /-- There is no precise entry to update. -/
  | noTrueState
  /-- The update of an entry fails. -/
  | entry (f : Fault)
  deriving DecidableEq

/-- The sharing state that is computed with new sharers. -/
def BlockDirectoryEntry.withSharers (e : BlockDirectoryEntry) (v : SharingVector) :
    BlockDirectoryEntry :=
  { e with
    theSharers := v
    theState :=
      if v.countSharers = 1 then oneSharer
      else if v.countSharers = 0 then zeroSharers
      else manySharers }

/-- `operator&` of sharing vectors. -/
def SharingVector.inter (v w : SharingVector) : SharingVector where
  sharers := v.sharers ∩ w.sharers
  bound i hi := v.bound i (Finset.mem_inter.mp hi).1

/-- `operator&=` of entries. -/
def BlockDirectoryEntry.inter (e f : BlockDirectoryEntry) : BlockDirectoryEntry :=
  e.withSharers (e.theSharers.inter f.theSharers)

/-- The configuration of a tagless directory. -/
structure TaglessConfig where
  /-- `theSetShift`. -/
  theSetShift : ℕ
  /-- The number of sets is a power of two. -/
  setBits : ℕ
  /-- `theNumBuckets`, as the creation of the hash functions leaves it. -/
  theNumBuckets : ℕ
  /-- `theTotalNumBuckets`. -/
  theTotalNumBuckets : ℕ
  thePartitioned : Bool
  theUpdateOnSnoop : Bool
  /-- `hash_fns`. -/
  hashFns : List (ℕ → ℕ)

namespace TaglessConfig

variable (cfg : TaglessConfig)

/-- `theNumSets`. -/
def theNumSets : ℕ := 2 ^ cfg.setBits

/-- `get_set`. -/
def getSet (addr : ℕ) : ℕ := addr / 2 ^ cfg.theSetShift % cfg.theNumSets

/-- `first_bucket`, when the loop has come to the given hash function. -/
def firstBucket (k : ℕ) : ℕ := if cfg.thePartitioned then k * cfg.theNumBuckets else 0

/-- The bucket that a hash function selects. -/
def bucketOf (addr : ℕ) (h : (ℕ → ℕ) × ℕ) : ℕ := h.1 addr + cfg.firstBucket h.2

/-- The buckets of an address, one for each hash function. -/
def buckets (addr : ℕ) : List ℕ := cfg.hashFns.zipIdx.map (cfg.bucketOf addr)

/-- The loops over the probed tags: another block of the cache keeps the bucket that the hash
function selects for the address. In a directory that is not partitioned any of the hash
functions may select it for the other block. -/
def keptBy (tags : List ℕ) (addr : ℕ) (h : (ℕ → ℕ) × ℕ) : Bool :=
  tags.any fun tag => tag != addr &&
    if cfg.thePartitioned then cfg.bucketOf tag h == cfg.bucketOf addr h
    else cfg.hashFns.any fun test => test tag == cfg.bucketOf addr h

end TaglessConfig

/-- `TaglessDirectory`. -/
structure TaglessDirectory (cfg : TaglessConfig) where
  /-- `theTaglessEntry` of the buckets of a set. -/
  theDirectory : ℕ → ℕ → BlockDirectoryEntry
  /-- `thePreciseDirectory`. -/
  thePreciseDirectory : ℕ → Option BlockDirectoryEntry

namespace TaglessDirectory

variable {cfg : TaglessConfig}

/-- A directory after `initialize`. -/
def empty (cfg : TaglessConfig) : TaglessDirectory cfg where
  theDirectory _ _ := .new 0
  thePreciseDirectory _ := none

/-- The sharers that a bucket lists. -/
def sharersIn (d : TaglessDirectory cfg) (set bucket : ℕ) : Finset ℕ :=
  (d.theDirectory set bucket).theSharers.sharers

/-- `theTaglessState` of a lookup. -/
def taglessState (d : TaglessDirectory cfg) (addr : ℕ) : BlockDirectoryEntry :=
  match (cfg.buckets addr).map (d.theDirectory (cfg.getSet addr)) with
  | [] => .new 0
  | e :: es => es.foldl BlockDirectoryEntry.inter e

/-- The assertions of a lookup on the buckets of the address. -/
def checkBuckets (cfg : TaglessConfig) (addr : ℕ) : Except TaglessFault Unit :=
  if (cfg.buckets addr).all (· < cfg.theTotalNumBuckets) then
    if (cfg.buckets addr).isEmpty then .error .noBuckets else .ok ()
  else .error .invalidBucket

/-- `findOrCreateEntry`: the directory with a precise entry for the address. -/
def findOrCreateEntry (d : TaglessDirectory cfg) (addr : ℕ) :
    Except TaglessFault (TaglessDirectory cfg) := do
  checkBuckets cfg addr
  match d.thePreciseDirectory addr with
  | some _ => pure d
  | none => pure { d with
      thePreciseDirectory := update d.thePreciseDirectory addr (some (.new addr)) }

/-- An update of the tagless entry of a bucket. -/
def modifyBucket (d : TaglessDirectory cfg) (set bucket : ℕ)
    (f : BlockDirectoryEntry → Except Fault BlockDirectoryEntry) :
    Except TaglessFault (TaglessDirectory cfg) :=
  match f (d.theDirectory set bucket) with
  | .ok e => .ok { d with
      theDirectory := update d.theDirectory set
        (update (d.theDirectory set) bucket e) }
  | .error f => .error (.entry f)

/-- An update of `theTrueState`. -/
def modifyTrueState (d : TaglessDirectory cfg) (addr : ℕ)
    (f : BlockDirectoryEntry → Except Fault BlockDirectoryEntry) :
    Except TaglessFault (TaglessDirectory cfg) :=
  match d.thePreciseDirectory addr with
  | none => .error .noTrueState
  | some e =>
    match f e with
    | .ok e => .ok { d with
        thePreciseDirectory := update d.thePreciseDirectory addr (some e) }
    | .error f => .error (.entry f)

/-- The loop of `addSharer` over the buckets. -/
def addToBuckets (index set : ℕ) : List ℕ → TaglessDirectory cfg →
    Except TaglessFault (TaglessDirectory cfg)
  | [], d => .ok d
  | b :: bs, d => do
    let d ← d.modifyBucket set b fun e => e.addSharer index
    addToBuckets index set bs d

/-- `addSharer`. -/
def addSharer (d : TaglessDirectory cfg) (index addr : ℕ) :
    Except TaglessFault (TaglessDirectory cfg) := do
  let d ← addToBuckets index (cfg.getSet addr) (cfg.buckets addr) d
  d.modifyTrueState addr fun e => e.addSharer index

/-- `addExclusiveSharer`. -/
def addExclusiveSharer (d : TaglessDirectory cfg) (index addr : ℕ) :
    Except TaglessFault (TaglessDirectory cfg) := do
  let d ← addToBuckets index (cfg.getSet addr) (cfg.buckets addr) d
  let d ← d.modifyTrueState addr fun e => e.addSharer index
  d.modifyTrueState addr fun e => e.makeExclusive index

/-- The loop over the hash functions that clears the bit of a cache in the buckets which none
of its other blocks keeps. -/
def clearBuckets (index addr : ℕ) (tags : List ℕ) : List ((ℕ → ℕ) × ℕ) → TaglessDirectory cfg →
    Except TaglessFault (TaglessDirectory cfg)
  | [], d => .ok d
  | h :: hs, d => do
    let d ← if cfg.keptBy tags addr h then .ok d
      else d.modifyBucket (cfg.getSet addr) (cfg.bucketOf addr h) fun e => e.removeSharer index
    clearBuckets index addr tags hs d

/-- `removeSharer`, with the tags that the probe of the cache returns. -/
def removeSharer (d : TaglessDirectory cfg) (index addr : ℕ) (tags : List ℕ) :
    Except TaglessFault (TaglessDirectory cfg) := do
  let d ← d.modifyTrueState addr fun e => e.removeSharer index
  if cfg.theUpdateOnSnoop then clearBuckets index addr tags cfg.hashFns.zipIdx d else pure d

/-- `failedSnoop`. -/
def failedSnoop (d : TaglessDirectory cfg) (index addr : ℕ) (tags : List ℕ) :
    Except TaglessFault (TaglessDirectory cfg) := d.removeSharer index addr tags

/-- `makeSharerExclusive`. -/
def makeSharerExclusive (d : TaglessDirectory cfg) (index addr : ℕ) :
    Except TaglessFault (TaglessDirectory cfg) :=
  d.modifyTrueState addr fun e => e.makeExclusive index

/-! ### What the buckets list -/

variable {d d' : TaglessDirectory cfg} {i index addr set bucket : ℕ}

theorem mem_foldl_inter (es : List BlockDirectoryEntry) (e : BlockDirectoryEntry) :
    i ∈ (es.foldl BlockDirectoryEntry.inter e).theSharers.sharers ↔
      ∀ f ∈ e :: es, i ∈ f.theSharers.sharers := by
  induction es generalizing e with
  | nil => simp
  | cons f es ih =>
    rw [foldl_cons, ih]
    constructor
    · intro h g hg
      have hef : i ∈ e.theSharers.sharers ∩ f.theSharers.sharers := h _ mem_cons_self
      rcases mem_cons.mp hg with rfl | hg
      · exact (Finset.mem_inter.mp hef).1
      · rcases mem_cons.mp hg with rfl | hg
        · exact (Finset.mem_inter.mp hef).2
        · exact h g (mem_cons_of_mem _ hg)
    · intro h g hg
      rcases mem_cons.mp hg with rfl | hg
      · exact Finset.mem_inter.mpr ⟨h e mem_cons_self, h f (mem_cons_of_mem _ mem_cons_self)⟩
      · exact h g (mem_cons_of_mem _ (mem_cons_of_mem _ hg))

/-- **The sharers that a lookup finds** are the caches that all buckets of the address list. -/
theorem mem_taglessState (hne : cfg.buckets addr ≠ []) :
    i ∈ (d.taglessState addr).theSharers.sharers ↔
      ∀ b ∈ cfg.buckets addr, i ∈ d.sharersIn (cfg.getSet addr) b := by
  rw [taglessState]
  cases hb : cfg.buckets addr with
  | nil => exact absurd hb hne
  | cons b bs =>
    rw [map_cons, mem_foldl_inter, ← map_cons, forall_mem_map]
    exact Iff.rfl

theorem checkBuckets_spec (h : checkBuckets cfg addr = .ok ()) :
    cfg.buckets addr ≠ [] ∧ ∀ b ∈ cfg.buckets addr, b < cfg.theTotalNumBuckets := by
  rw [checkBuckets] at h
  by_cases hall : (cfg.buckets addr).all (· < cfg.theTotalNumBuckets) = true
  · rw [if_pos hall] at h
    by_cases he : (cfg.buckets addr).isEmpty = true
    · rw [if_pos he] at h
      cases h
    · refine ⟨fun hn => he (isEmpty_iff.mpr hn), fun b hb => ?_⟩
      exact of_decide_eq_true (all_eq_true.mp hall b hb)
  · rw [if_neg hall] at h
    cases h

theorem findOrCreateEntry_spec (h : d.findOrCreateEntry addr = .ok d') :
    checkBuckets cfg addr = .ok () ∧ d'.theDirectory = d.theDirectory ∧
      ∃ e, d'.thePreciseDirectory addr = some e := by
  obtain ⟨u, hc, h⟩ := Lib.exists_of_bind_eq_ok h
  refine ⟨hc, ?_⟩
  split at h
  · rename_i e hp
    cases h
    exact ⟨rfl, e, hp⟩
  · cases h
    exact ⟨rfl, .new addr, update_self ..⟩

theorem modifyTrueState_buckets {f : BlockDirectoryEntry → Except Fault BlockDirectoryEntry}
    (h : d.modifyTrueState addr f = .ok d') : d'.theDirectory = d.theDirectory := by
  rw [modifyTrueState] at h
  split at h
  · cases h
  · split at h
    · cases h
      rfl
    · cases h

/-- **An update of a bucket** changes what this bucket lists and nothing else. -/
theorem modifyBucket_spec {f : BlockDirectoryEntry → Except Fault BlockDirectoryEntry}
    (h : d.modifyBucket set bucket f = .ok d') :
    ∃ e, f (d.theDirectory set bucket) = .ok e ∧
      d'.sharersIn set bucket = e.theSharers.sharers ∧
      ∀ s b, (s ≠ set ∨ b ≠ bucket) → d'.sharersIn s b = d.sharersIn s b := by
  rw [modifyBucket] at h
  split at h
  · rename_i e he
    cases h
    refine ⟨e, he, ?_, fun s b hsb => ?_⟩
    · rw [sharersIn]
      dsimp only
      rw [update_self, update_self]
    · rw [sharersIn, sharersIn]
      dsimp only
      by_cases hs : s = set
      · subst hs
        rw [update_self, update_of_ne (hsb.resolve_left (not_not.mpr rfl))]
      · rw [update_of_ne hs]
  · cases h

/-- **What the buckets list after a sharer was added** to some of them. -/
theorem addToBuckets_spec {bs : List ℕ} (h : addToBuckets index set bs d = .ok d') :
    (bs ≠ [] → index < maxNumSharers) ∧ ∀ s b, d'.sharersIn s b =
      if s = set ∧ b ∈ bs then insert index (d.sharersIn s b) else d.sharersIn s b := by
  induction bs generalizing d with
  | nil =>
    cases h
    exact ⟨fun hn => absurd rfl hn, fun s b => by simp⟩
  | cons c bs ih =>
    obtain ⟨d₁, hm, h⟩ := Lib.exists_of_bind_eq_ok h
    obtain ⟨e, he, hself, hother⟩ := modifyBucket_spec hm
    obtain ⟨hlt, -, hins, -⟩ := BlockDirectoryEntry.addSharer_spec he
    refine ⟨fun _ => hlt, fun s b => ?_⟩
    rw [(ih h).2 s b]
    by_cases hsc : s = set ∧ b = c
    · obtain ⟨rfl, rfl⟩ := hsc
      have hin : d₁.sharersIn s b = insert index (d.sharersIn s b) := hself.trans hins
      refine Eq.trans ?_ (if_pos ⟨rfl, mem_cons_self⟩).symm
      rw [hin]
      split
      · exact Finset.insert_idem _ _
      · rfl
    · rw [hother s b (not_and_or.mp hsc)]
      refine if_congr ?_ rfl rfl
      rw [mem_cons]
      constructor
      · rintro ⟨hs, hb⟩
        exact ⟨hs, .inr hb⟩
      · rintro ⟨hs, hb | hb⟩
        · exact absurd ⟨hs, hb⟩ hsc
        · exact ⟨hs, hb⟩

theorem addToBuckets_ok (hi : index < maxNumSharers) (bs : List ℕ) (d : TaglessDirectory cfg) :
    ∃ d', addToBuckets index set bs d = .ok d' ∧
      d'.thePreciseDirectory = d.thePreciseDirectory := by
  induction bs generalizing d with
  | nil => exact ⟨d, rfl, rfl⟩
  | cons b bs ih =>
    obtain ⟨w, hw, -⟩ := (d.theDirectory set b).theSharers.addSharer_ok hi
    rw [addToBuckets, modifyBucket, BlockDirectoryEntry.addSharer, hw]
    obtain ⟨d', hd', hp⟩ := ih _
    exact ⟨d', hd', hp⟩

/-- **What the buckets list after a clearing**: nothing new, and every cache that is not
listed any more is the given one, in a bucket that none of the probed blocks keeps. -/
theorem clearBuckets_spec {tags : List ℕ} {hs : List ((ℕ → ℕ) × ℕ)}
    (h : clearBuckets index addr tags hs d = .ok d') (s b : ℕ) :
    d'.sharersIn s b = if s = cfg.getSet addr ∧
      ∃ h ∈ hs, cfg.bucketOf addr h = b ∧ cfg.keptBy tags addr h = false
      then (d.sharersIn s b).erase index else d.sharersIn s b := by
  induction hs generalizing d with
  | nil =>
    cases h
    simp
  | cons c hs ih =>
    rw [clearBuckets] at h
    cases hk : cfg.keptBy tags addr c with
    | true =>
      rw [hk] at h
      rw [ih h]
      refine if_congr (and_congr_right fun _ => ?_) rfl rfl
      constructor
      · rintro ⟨x, hx, hb⟩
        exact ⟨x, mem_cons_of_mem _ hx, hb⟩
      · rintro ⟨x, hx, hb⟩
        rcases mem_cons.mp hx with rfl | hx
        · rw [hk] at hb
          exact absurd hb.2 (by decide)
        · exact ⟨x, hx, hb⟩
    | false =>
      rw [hk] at h
      obtain ⟨d₁, hm, h⟩ := Lib.exists_of_bind_eq_ok h
      obtain ⟨e, he, hself, hother⟩ := modifyBucket_spec hm
      have herase : e.theSharers.sharers =
          (d.sharersIn (cfg.getSet addr) (cfg.bucketOf addr c)).erase index :=
        BlockDirectoryEntry.sharers_removeSharer he
      rw [ih h]
      by_cases hsc : s = cfg.getSet addr ∧ b = cfg.bucketOf addr c
      · obtain ⟨rfl, rfl⟩ := hsc
        refine Eq.trans ?_ (if_pos ⟨rfl, c, mem_cons_self, rfl, hk⟩).symm
        rw [hself, herase]
        split
        · exact Finset.erase_idem
        · rfl
      · rw [hother s b (not_and_or.mp hsc)]
        refine if_congr (and_congr_right fun hs => ?_) rfl rfl
        constructor
        · rintro ⟨x, hx, hb⟩
          exact ⟨x, mem_cons_of_mem _ hx, hb⟩
        · rintro ⟨x, hx, hb⟩
          rcases mem_cons.mp hx with rfl | hx
          · exact absurd ⟨hs, hb.1.symm⟩ hsc
          · exact ⟨x, hx, hb⟩

theorem clearBuckets_ok (hi : index < maxNumSharers) (tags : List ℕ)
    (hs : List ((ℕ → ℕ) × ℕ)) (d : TaglessDirectory cfg) :
    ∃ d', clearBuckets index addr tags hs d = .ok d' := by
  induction hs generalizing d with
  | nil => exact ⟨d, rfl⟩
  | cons c hs ih =>
    rw [clearBuckets]
    cases cfg.keptBy tags addr c with
    | true => exact ih d
    | false =>
      obtain ⟨w, hw, -⟩ := (d.theDirectory (cfg.getSet addr)
        (cfg.bucketOf addr c)).theSharers.removeSharer_ok hi
      rw [modifyBucket, BlockDirectoryEntry.removeSharer, hw]
      exact ih _

end TaglessDirectory

end FastCMPCache

end Flexus
