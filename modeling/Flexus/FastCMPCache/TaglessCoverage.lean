import Flexus.FastCMPCache.TaglessDirectory

/-!
# What the tagless directory covers

A directory is of use only if the sharers that a lookup finds include every cache that holds
the block. The tagless directory clears the bit of a cache in a bucket when none of the blocks
that the cache reports keeps the bucket, and the cache reports the blocks of its own set of the
address. So what matters is how the sets of the caches, the sets of the directory and the
buckets are related: `Flexus.FastCMPCache.TaglessDirectory.Keeps` says that two blocks which
share a bucket are in the same set of every cache, and – with partitions – under the same hash
function. If the directory clears bits at all, this is exactly when the lookups cover the
caches (`Flexus.FastCMPCache.TaglessDirectory.covers_iff`); a directory with fewer sets than a
cache fails (`Flexus.FastCMPCache.TaglessDirectory.narrow_not_covered`).
-/

namespace Flexus

open Function Lib List

namespace FastCMPCache

namespace TaglessDirectory

variable {cfg : TaglessConfig}

/-! ### The caches and the calls -/

/-- A directory, and the blocks that each of the caches holds. -/
structure Tracked (cfg : TaglessConfig) where
  directory : TaglessDirectory cfg
  holds : ℕ → List ℕ

/-- The calls that the directory takes: a block of a cache is shared, or given up. -/
inductive Call
  | addSharer (index addr : ℕ)
  | addExclusiveSharer (index addr : ℕ)
  | removeSharer (index addr : ℕ)
  | failedSnoop (index addr : ℕ)
  | makeSharerExclusive (index addr : ℕ)
  deriving DecidableEq

/-- The address that a call is about. -/
def Call.addr : Call → ℕ
  | .addSharer _ a => a
  | .addExclusiveSharer _ a => a
  | .removeSharer _ a => a
  | .failedSnoop _ a => a
  | .makeSharerExclusive _ a => a

namespace Tracked

/-- A cache gets a block. -/
def gain (s : Tracked cfg) (index addr : ℕ) : ℕ → List ℕ :=
  update s.holds index ((s.holds index).insert addr)

/-- A cache gives a block up. -/
def giveUp (s : Tracked cfg) (index addr : ℕ) : ℕ → List ℕ :=
  update s.holds index ((s.holds index).filter (· ≠ addr))

/-- `getSetTags`, which answers the probe: the blocks that a cache holds in its set of the
address. -/
def setTags (caches : ℕ → Geometry) (holds : ℕ → List ℕ) (index addr : ℕ) : List ℕ :=
  (holds index).filter fun t => (caches index).getSet t = (caches index).getSet addr

/-- What a call does. Every call comes with the result of a lookup of the address. -/
def step (caches : ℕ → Geometry) (s : Tracked cfg) : Call → Except TaglessFault (Tracked cfg)
  | .addSharer i a => do
    let d ← s.directory.findOrCreateEntry a
    let d ← d.addSharer i a
    pure ⟨d, s.gain i a⟩
  | .addExclusiveSharer i a => do
    let d ← s.directory.findOrCreateEntry a
    let d ← d.addExclusiveSharer i a
    pure ⟨d, s.gain i a⟩
  | .removeSharer i a => do
    let d ← s.directory.findOrCreateEntry a
    let d ← d.removeSharer i a (setTags caches (s.giveUp i a) i a)
    pure ⟨d, s.giveUp i a⟩
  | .failedSnoop i a => do
    let d ← s.directory.findOrCreateEntry a
    let d ← d.failedSnoop i a (setTags caches (s.giveUp i a) i a)
    pure ⟨d, s.giveUp i a⟩
  | .makeSharerExclusive i a => do
    let d ← s.directory.findOrCreateEntry a
    let d ← d.makeSharerExclusive i a
    pure ⟨d, s.holds⟩

/-- **The lookups cover the caches**: every cache that holds a block is among the sharers that
a lookup of the block finds. -/
def Covers (s : Tracked cfg) : Prop :=
  ∀ i, ∀ a ∈ s.holds i, i ∈ (s.directory.taglessState a).theSharers.sharers

end Tracked

/-- A directory and its caches, under any sequence of calls. -/
def tracking (cfg : TaglessConfig) (caches : ℕ → Geometry) :
    Machine (Tracked cfg) Call TaglessFault where
  init := ⟨empty cfg, fun _ => []⟩
  step := Tracked.step caches

/-- The address of a block. -/
def IsBlock (cfg : TaglessConfig) (a : ℕ) : Prop := 2 ^ cfg.theSetShift ∣ a

/-- **A block keeps the buckets that it shares**: two blocks of a set of the directory that
share a bucket are in the same set of every cache, and the partition of the bucket, if there
are any, belongs to one hash function. -/
def Keeps (cfg : TaglessConfig) (caches : ℕ → Geometry) : Prop :=
  ∀ i < maxNumSharers, ∀ a b, IsBlock cfg a → IsBlock cfg b → a ≠ b →
    checkBuckets cfg a = .ok () → checkBuckets cfg b = .ok () → cfg.getSet a = cfg.getSet b →
    ∀ h ∈ cfg.hashFns.zipIdx, cfg.bucketOf a h ∈ cfg.buckets b →
      (caches i).getSet a = (caches i).getSet b ∧
        (cfg.thePartitioned = true → cfg.bucketOf b h = cfg.bucketOf a h)

variable {caches : ℕ → Geometry} {d d' d₁ d₂ : TaglessDirectory cfg} {i a b : ℕ}

/-! ### One call -/

/-- **The invariant**: every bucket of a block lists the caches that hold the block. -/
structure Listed (caches : ℕ → Geometry) (d : TaglessDirectory cfg) (holds : ℕ → List ℕ) :
    Prop where
  isBlock : ∀ i, ∀ a ∈ holds i, IsBlock cfg a
  index_lt : ∀ i, ∀ a ∈ holds i, i < maxNumSharers
  checked : ∀ i, ∀ a ∈ holds i, checkBuckets cfg a = .ok ()
  listed : ∀ i, ∀ a ∈ holds i, ∀ b ∈ cfg.buckets a, i ∈ d.sharersIn (cfg.getSet a) b

theorem Listed.covers {s : Tracked cfg} (h : Listed caches s.directory s.holds) : s.Covers :=
  fun i a ha => (mem_taglessState (checkBuckets_spec (h.checked i a ha)).1).mpr (h.listed i a ha)

theorem Listed.of_buckets {holds : ℕ → List ℕ} (h : Listed caches d holds)
    (hd : d'.theDirectory = d.theDirectory) : Listed caches d' holds where
  isBlock := h.isBlock
  index_lt := h.index_lt
  checked := h.checked
  listed i a ha b hb := by
    rw [sharersIn, hd]
    exact h.listed i a ha b hb

/-- **A cache that gets a block** is listed in all of its buckets. -/
theorem Listed.gain {s : Tracked cfg} (h : Listed caches s.directory s.holds)
    (hblock : IsBlock cfg a) (hc : checkBuckets cfg a = .ok ())
    (hd : addToBuckets i (cfg.getSet a) (cfg.buckets a) s.directory = .ok d') :
    Listed caches d' (s.gain i a) := by
  obtain ⟨hlt, hmem⟩ := addToBuckets_spec hd
  have hcases : ∀ j x, x ∈ s.gain i a j → (j = i ∧ x = a) ∨ x ∈ s.holds j := by
    intro j x hx
    rw [Tracked.gain] at hx
    by_cases hj : j = i
    · subst hj
      rw [update_self, mem_insert_iff] at hx
      exact hx.imp (fun hx => ⟨rfl, hx⟩) id
    · rw [update_of_ne hj] at hx
      exact .inr hx
  constructor
  · intro j x hx
    rcases hcases j x hx with ⟨-, rfl⟩ | hx
    · exact hblock
    · exact h.isBlock j x hx
  · intro j x hx
    rcases hcases j x hx with ⟨rfl, -⟩ | hx
    · exact hlt (checkBuckets_spec hc).1
    · exact h.index_lt j x hx
  · intro j x hx
    rcases hcases j x hx with ⟨-, rfl⟩ | hx
    · exact hc
    · exact h.checked j x hx
  · intro j x hx c hcx
    rw [hmem]
    rcases hcases j x hx with ⟨rfl, rfl⟩ | hx
    · rw [if_pos ⟨rfl, hcx⟩]
      exact Finset.mem_insert_self _ _
    · have hold := h.listed j x hx c hcx
      split
      · exact Finset.mem_insert_of_mem hold
      · exact hold

theorem mem_giveUp {s : Tracked cfg} {j x : ℕ} (hx : x ∈ s.giveUp i a j) :
    x ∈ s.holds j ∧ ¬(j = i ∧ x = a) := by
  rw [Tracked.giveUp] at hx
  by_cases hj : j = i
  · subst hj
    rw [update_self, mem_filter, decide_eq_true_eq] at hx
    exact ⟨hx.1, fun h => hx.2 h.2⟩
  · rw [update_of_ne hj] at hx
    exact ⟨hx, fun h => hj h.1⟩

theorem Listed.giveUp {s : Tracked cfg} (h : Listed caches s.directory s.holds) :
    Listed caches s.directory (s.giveUp i a) where
  isBlock j x hx := h.isBlock j x (mem_giveUp hx).1
  index_lt j x hx := h.index_lt j x (mem_giveUp hx).1
  checked j x hx := h.checked j x (mem_giveUp hx).1
  listed j x hx := h.listed j x (mem_giveUp hx).1

theorem Keeps.keptBy (h : Keeps cfg caches) {holds : ℕ → List ℕ} (hi : i < maxNumSharers)
    (ha : IsBlock cfg a) (hb : IsBlock cfg b) (hab : a ≠ b) (hca : checkBuckets cfg a = .ok ())
    (hcb : checkBuckets cfg b = .ok ()) (hset : cfg.getSet a = cfg.getSet b)
    {f : (ℕ → ℕ) × ℕ} (hf : f ∈ cfg.hashFns.zipIdx) (hmem : cfg.bucketOf a f ∈ cfg.buckets b)
    (hheld : b ∈ holds i) : cfg.keptBy (Tracked.setTags caches holds i a) a f = true := by
  obtain ⟨hcache, hpart⟩ := h i hi a b ha hb hab hca hcb hset f hf hmem
  refine any_eq_true.mpr ⟨b, mem_filter.mpr ⟨hheld, by simpa using hcache.symm⟩, ?_⟩
  rw [Bool.and_eq_true, bne_iff_ne]
  refine ⟨hab.symm, ?_⟩
  by_cases hp : cfg.thePartitioned = true
  · rw [if_pos hp, beq_iff_eq]
    exact hpart hp
  · rw [if_neg hp, any_eq_true]
    obtain ⟨g, hg, heq⟩ := mem_map.mp hmem
    refine ⟨g.1, fst_mem_of_mem_zipIdx hg, ?_⟩
    rw [beq_iff_eq, ← heq, TaglessConfig.bucketOf, TaglessConfig.firstBucket, if_neg hp,
      Nat.add_zero]

/-- **A clearing takes nothing from the blocks that the caches still hold.** -/
theorem Listed.clear {holds : ℕ → List ℕ} (h : Listed caches d holds) (hk : Keeps cfg caches)
    (hblock : IsBlock cfg a) (hc : checkBuckets cfg a = .ok ()) (hgone : a ∉ holds i)
    (hd : clearBuckets i a (Tracked.setTags caches holds i a) cfg.hashFns.zipIdx d = .ok d') :
    Listed caches d' holds := by
  refine ⟨h.isBlock, h.index_lt, h.checked, fun j x hx c hcx => ?_⟩
  have hold := h.listed j x hx c hcx
  rw [clearBuckets_spec hd]
  split
  · rename_i hcl
    refine Finset.mem_erase.mpr ⟨?_, hold⟩
    rintro rfl
    obtain ⟨hset, f, hf, rfl, hkept⟩ := hcl
    have hax : a ≠ x := fun hax => hgone (hax ▸ hx)
    rw [hk.keptBy (h.index_lt j x hx) hblock (h.isBlock j x hx) hax hc (h.checked j x hx)
      hset.symm hf hcx hx] at hkept
    cases hkept
  · exact hold

theorem removeSharer_listed {holds : ℕ → List ℕ} (h : Listed caches d holds)
    (hk : cfg.theUpdateOnSnoop = true → Keeps cfg caches) (hblock : IsBlock cfg a)
    (hc : checkBuckets cfg a = .ok ()) (hgone : a ∉ holds i)
    (hd : d.removeSharer i a (Tracked.setTags caches holds i a) = .ok d') :
    Listed caches d' holds := by
  obtain ⟨d₁, ht, hd⟩ := exists_of_bind_eq_ok hd
  have h₁ : Listed caches d₁ holds := h.of_buckets (modifyTrueState_buckets ht)
  split at hd
  · rename_i hu
    exact h₁.clear (hk hu) hblock hc hgone hd
  · cases hd
    exact h₁

theorem not_mem_giveUp (s : Tracked cfg) : a ∉ s.giveUp i a i := fun h =>
  (mem_giveUp h).2 ⟨rfl, rfl⟩

/-- The buckets after a sharer was added, whatever becomes of the precise entry. -/
theorem addSharer_buckets (h : d.addSharer i a = .ok d') :
    ∃ d₁, addToBuckets i (cfg.getSet a) (cfg.buckets a) d = .ok d₁ ∧
      d'.theDirectory = d₁.theDirectory := by
  obtain ⟨d₁, hb, h⟩ := exists_of_bind_eq_ok h
  exact ⟨d₁, hb, modifyTrueState_buckets h⟩

theorem addExclusiveSharer_buckets (h : d.addExclusiveSharer i a = .ok d') :
    ∃ d₁, addToBuckets i (cfg.getSet a) (cfg.buckets a) d = .ok d₁ ∧
      d'.theDirectory = d₁.theDirectory := by
  obtain ⟨d₁, hb, h⟩ := exists_of_bind_eq_ok h
  obtain ⟨d₂, ht, h⟩ := exists_of_bind_eq_ok h
  exact ⟨d₁, hb, (modifyTrueState_buckets h).trans (modifyTrueState_buckets ht)⟩

/-- **What a call does**: a lookup, which checks the buckets of the address, and a change. -/
theorem step_spec {s t : Tracked cfg} {c : Call} (h : s.step caches c = .ok t) :
    ∃ d, s.directory.findOrCreateEntry c.addr = .ok d ∧
      match c with
      | .addSharer i a | .addExclusiveSharer i a => ∃ d₁ d',
        addToBuckets i (cfg.getSet a) (cfg.buckets a) d = .ok d₁ ∧
          d'.theDirectory = d₁.theDirectory ∧ t = ⟨d', s.gain i a⟩
      | .removeSharer i a | .failedSnoop i a => ∃ d',
        d.removeSharer i a (Tracked.setTags caches (s.giveUp i a) i a) = .ok d' ∧
          t = ⟨d', s.giveUp i a⟩
      | .makeSharerExclusive _ _ => ∃ d', d'.theDirectory = d.theDirectory ∧ t = ⟨d', s.holds⟩ := by
  cases c
  all_goals
    obtain ⟨d, hd, h⟩ := exists_of_bind_eq_ok h
    obtain ⟨d', ha, h⟩ := exists_of_bind_eq_ok h
    cases h
    refine ⟨d, hd, ?_⟩
  case addSharer =>
    obtain ⟨d₁, hb, heq⟩ := addSharer_buckets ha
    exact ⟨d₁, d', hb, heq, rfl⟩
  case addExclusiveSharer =>
    obtain ⟨d₁, hb, heq⟩ := addExclusiveSharer_buckets ha
    exact ⟨d₁, d', hb, heq, rfl⟩
  case removeSharer => exact ⟨d', ha, rfl⟩
  case failedSnoop => exact ⟨d', ha, rfl⟩
  case makeSharerExclusive => exact ⟨d', modifyTrueState_buckets ha, rfl⟩

/-- **A call keeps the caches listed.** -/
theorem listed_step {s t : Tracked cfg} (hk : cfg.theUpdateOnSnoop = true → Keeps cfg caches)
    (h : Listed caches s.directory s.holds) {c : Call} (hblock : IsBlock cfg c.addr)
    (hs : s.step caches c = .ok t) : Listed caches t.directory t.holds := by
  obtain ⟨d, hd, hstep⟩ := step_spec hs
  obtain ⟨hc, hsame, -⟩ := findOrCreateEntry_spec hd
  have hl : Listed caches d s.holds := h.of_buckets hsame
  cases c with
  | addSharer i a | addExclusiveSharer i a =>
    obtain ⟨d₁, d', hb, heq, rfl⟩ := hstep
    exact (Listed.gain (s := ⟨d, s.holds⟩) hl hblock hc hb).of_buckets heq
  | removeSharer i a | failedSnoop i a =>
    obtain ⟨d', ha, rfl⟩ := hstep
    exact removeSharer_listed (Listed.giveUp (s := ⟨d, s.holds⟩) hl) hk hblock hc
      (not_mem_giveUp s) ha
  | makeSharerExclusive i a =>
    obtain ⟨d', heq, rfl⟩ := hstep
    exact hl.of_buckets heq

/-- **In a run of calls about blocks**, the caches stay listed. -/
theorem listed_of_reachable {s : Tracked cfg}
    (hk : cfg.theUpdateOnSnoop = true → Keeps cfg caches)
    (h : (tracking cfg caches).ReachableWhen (fun _ c => IsBlock cfg c.addr) s) :
    Listed caches s.directory s.holds := by
  refine h.invariant (I := fun s => Listed caches s.directory s.holds) ?_
    fun _ _ _ hs hc ht => listed_step hk hs hc ht
  exact ⟨fun _ _ h => absurd h not_mem_nil, fun _ _ h => absurd h not_mem_nil,
    fun _ _ h => absurd h not_mem_nil, fun _ _ h => absurd h not_mem_nil⟩

/-! ### Three calls that uncover a cache -/

theorem findOrCreateEntry_ok (d : TaglessDirectory cfg) (hc : checkBuckets cfg a = .ok ()) :
    ∃ d', d.findOrCreateEntry a = .ok d' := by
  rw [findOrCreateEntry, hc]
  simp only [bind, Except.bind]
  split
  · exact ⟨_, rfl⟩
  · exact ⟨_, rfl⟩

variable (caches) in
theorem step_addSharer (s : Tracked cfg) (hi : i < maxNumSharers)
    (hc : checkBuckets cfg a = .ok ()) :
    ∃ t, s.step caches (.addSharer i a) = .ok t ∧ t.holds = s.gain i a := by
  obtain ⟨d, hd⟩ := findOrCreateEntry_ok s.directory hc
  obtain ⟨-, -, e, he⟩ := findOrCreateEntry_spec hd
  obtain ⟨d₁, hd₁, hp⟩ : ∃ d₁, addToBuckets i (cfg.getSet a) (cfg.buckets a) d = .ok d₁ ∧
      d₁.thePreciseDirectory = d.thePreciseDirectory := addToBuckets_ok hi (cfg.buckets a) d
  obtain ⟨w, hw, -⟩ := e.theSharers.addSharer_ok hi
  rw [Tracked.step, hd]
  simp only [bind, Except.bind, addSharer, hd₁, modifyTrueState, hp, he,
    BlockDirectoryEntry.addSharer, hw]
  exact ⟨_, rfl, rfl⟩

variable (caches) in
/-- A cache may always be removed, and then its bit is cleared where no block keeps it. -/
theorem step_removeSharer (s : Tracked cfg) (hu : cfg.theUpdateOnSnoop = true)
    (hi : i < maxNumSharers) (hc : checkBuckets cfg a = .ok ()) :
    ∃ t d, s.step caches (.removeSharer i a) = .ok t ∧ t.holds = s.giveUp i a ∧
      clearBuckets i a (Tracked.setTags caches (s.giveUp i a) i a) cfg.hashFns.zipIdx d =
        .ok t.directory := by
  obtain ⟨d, hd⟩ := findOrCreateEntry_ok s.directory hc
  obtain ⟨-, -, e, he⟩ := findOrCreateEntry_spec hd
  obtain ⟨w, hw, -⟩ := e.theSharers.removeSharer_ok hi
  obtain ⟨d₁, hd₁⟩ : ∃ d₁, (d.modifyTrueState a fun e => e.removeSharer i) = .ok d₁ := by
    rw [modifyTrueState, he]
    simp only [BlockDirectoryEntry.removeSharer, hw, bind, Except.bind]
    exact ⟨_, rfl⟩
  obtain ⟨d₂, hd₂⟩ : ∃ d₂, clearBuckets i a (Tracked.setTags caches (s.giveUp i a) i a)
      cfg.hashFns.zipIdx d₁ = .ok d₂ := clearBuckets_ok hi _ _ d₁
  rw [Tracked.step, hd]
  simp only [bind, Except.bind, removeSharer, hd₁, hu, if_true, hd₂]
  exact ⟨_, d₁, rfl, rfl, hd₂⟩

/-- **A directory that covers its caches keeps the shared buckets**: a cache gets two blocks
that share a bucket, and gives the first one up again. -/
theorem keeps_of_covers (hu : cfg.theUpdateOnSnoop = true)
    (h : ∀ s, (tracking cfg caches).ReachableWhen (fun _ c => IsBlock cfg c.addr) s →
      s.Covers) : Keeps cfg caches := by
  intro i hi a b ha hb hab hca hcb hset f hf hmem
  obtain ⟨s₁, hs₁, hh₁⟩ := step_addSharer caches
    (tracking cfg caches).init hi hca
  obtain ⟨s₂, hs₂, hh₂⟩ := step_addSharer caches s₁ hi hcb
  obtain ⟨s₃, d, hs₃, hh₃, hclear⟩ := step_removeSharer caches s₂ hu hi hca
  have hreach : (tracking cfg caches).ReachableWhen (fun _ c => IsBlock cfg c.addr) s₃ :=
    ((Machine.ReachableWhen.init.step (e := .addSharer i a) ha hs₁).step
      (e := .addSharer i b) hb hs₂).step (e := .removeSharer i a) ha hs₃
  have hheld : s₃.holds i = [b] := by
    rw [hh₃, Tracked.giveUp, update_self, hh₂, Tracked.gain, update_self, hh₁,
      Tracked.gain, update_self]
    have hnotin : b ∉ ([a] : List ℕ) := fun hm => hab (mem_singleton.mp hm).symm
    show (List.insert b (List.insert a [])).filter (· ≠ a) = [b]
    rw [insert_nil, insert_of_not_mem hnotin]
    simp [hab.symm]
  have hcover := h s₃ hreach i b (by
    rw [hheld]
    exact mem_singleton_self b)
  have hbit := (mem_taglessState (checkBuckets_spec hcb).1).mp hcover _ hmem
  -- the bit of the shared bucket is still there, so the block that is left keeps it
  have hkept : cfg.keptBy (Tracked.setTags caches (s₂.giveUp i a) i a) a f = true := by
    by_contra hkept
    rw [clearBuckets_spec hclear, if_pos ⟨hset.symm, f, hf, rfl, Bool.eq_false_iff.mpr hkept⟩]
      at hbit
    exact absurd rfl (Finset.mem_erase.mp hbit).1
  rw [← hh₃] at hkept
  obtain ⟨x, hx, hshare⟩ := any_eq_true.mp hkept
  rw [Tracked.setTags, hheld, mem_filter, mem_singleton, decide_eq_true_eq] at hx
  obtain ⟨rfl, hcache⟩ := hx
  refine ⟨hcache.symm, fun hp => ?_⟩
  rw [if_pos hp, Bool.and_eq_true, beq_iff_eq] at hshare
  exact hshare.2

/-- **When the lookups cover the caches.** -/
theorem covers_iff (cfg : TaglessConfig) (caches : ℕ → Geometry) :
    (∀ s, (tracking cfg caches).ReachableWhen (fun _ c => IsBlock cfg c.addr) s → s.Covers) ↔
      (cfg.theUpdateOnSnoop = true → Keeps cfg caches) := by
  constructor
  · intro h hu
    exact keeps_of_covers hu h
  · intro hk s hs
    exact (listed_of_reachable hk hs).covers

/-! ### Numbers of sets -/

/-- **A directory with at least as many sets as the caches** keeps the shared buckets, if the
partitions do not overlap. -/
theorem keeps_of_setBits (hshift : ∀ i, (caches i).blockShift = cfg.theSetShift)
    (hbits : ∀ i, (caches i).setBits ≤ cfg.setBits)
    (hpart : cfg.thePartitioned = true → ∀ f ∈ cfg.hashFns, ∀ a, f a < cfg.theNumBuckets) :
    Keeps cfg caches := by
  intro i _ a b _ _ _ _ _ hset f hf hmem
  constructor
  · have hmod : a / 2 ^ cfg.theSetShift % 2 ^ cfg.setBits =
        b / 2 ^ cfg.theSetShift % 2 ^ cfg.setBits := hset
    rw [Geometry.getSet, Geometry.getSet, hshift,
      ← Nat.mod_mod_of_dvd _ (Nat.pow_dvd_pow 2 (hbits i)), hmod,
      Nat.mod_mod_of_dvd _ (Nat.pow_dvd_pow 2 (hbits i))]
  · intro hp
    obtain ⟨g, hg, heq⟩ := mem_map.mp hmem
    have hf1 := hpart hp f.1 (fst_mem_of_mem_zipIdx hf) a
    have hg1 := hpart hp g.1 (fst_mem_of_mem_zipIdx hg) b
    have hsum : g.1 b + g.2 * cfg.theNumBuckets = f.1 a + f.2 * cfg.theNumBuckets := by
      simpa only [TaglessConfig.bucketOf, TaglessConfig.firstBucket, if_pos hp] using heq
    have hidx : g.2 = f.2 := by
      have hpos : 0 < cfg.theNumBuckets := Nat.lt_of_le_of_lt (Nat.zero_le _) hf1
      have hdiv := congrArg (· / cfg.theNumBuckets) hsum
      simpa only [Nat.add_mul_div_right _ _ hpos, Nat.div_eq_of_lt hf1, Nat.div_eq_of_lt hg1,
        Nat.zero_add] using hdiv
    have hgf : g = f := by
      have hg' := mem_zipIdx_iff_getElem?.mp hg
      have hf' := mem_zipIdx_iff_getElem?.mp hf
      rw [hidx, hf'] at hg'
      exact Prod.ext (Option.some.inj hg'.symm) hidx
    rw [← heq, hgf]

/-- A directory with one set and one bucket. -/
def narrow : TaglessConfig where
  theSetShift := 6
  setBits := 0
  theNumBuckets := 1
  theTotalNumBuckets := 1
  thePartitioned := true
  theUpdateOnSnoop := true
  hashFns := [fun _ => 0]

/-- Caches with two sets. -/
def twoSets : ℕ → Geometry := fun _ => ⟨6, 1, 1, Nat.one_pos⟩

/-- Two sets in the directory are enough for caches with two sets. -/
theorem covers_iff_wide : ∀ s, (tracking { narrow with setBits := 1 } twoSets).ReachableWhen
    (fun _ c => IsBlock { narrow with setBits := 1 } c.addr) s → s.Covers :=
  (covers_iff { narrow with setBits := 1 } twoSets).mpr fun _ =>
    keeps_of_setBits (fun _ => rfl) (fun _ => Nat.le_refl 1) fun _ f hf a => by
      rw [mem_singleton.mp hf]
      exact Nat.one_pos

/-- **A directory with fewer sets than the caches does not cover them**: a cache holds two
blocks of different sets, gives the first one up, and is no sharer of the other one any
more. -/
theorem narrow_not_covered : ∃ s, (tracking narrow twoSets).run
      [.addSharer 0 0, .addSharer 0 64, .removeSharer 0 0] = .ok s ∧
    64 ∈ s.holds 0 ∧ 0 ∉ (s.directory.taglessState 64).theSharers.sharers :=
  ⟨_, rfl, by decide, by decide⟩

end TaglessDirectory

end FastCMPCache

end Flexus
