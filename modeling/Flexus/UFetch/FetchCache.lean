import Flexus.UFetch.LastTranslation
import Mathlib.Data.List.Nodup

/-!
# The instruction cache of the fetch unit

`SimCache` of `components/uFetch/uFetchImpl.cpp`: sets of block numbers, least recently used first.
A block number is in the set of its low bits, and once only
(`components/Common/seq_map.hpp`).
-/

namespace Flexus

open Function List

namespace UFetch

open Flexus.Lib

/-- The shape of the cache: the number of bits of an address within a block, the mask of the number
of sets, and how many blocks there are in a set. -/
structure CacheShape where
  theIndexShift : ℕ
  theIndexMask : BitVec 64
  theCacheAssoc : ℕ
  deriving DecidableEq

/-- The block of a number. -/
def CacheShape.address (c : CacheShape) (key : BitVec 64) : BitVec 64 := key <<< c.theIndexShift

/-- **`SimCache`.** -/
structure SimCache (c : CacheShape) where
  theTable : BitVec 64 → List (BitVec 64)
  nodup : ∀ idx, (theTable idx).Nodup
  placed : ∀ idx, ∀ key ∈ theTable idx, key &&& c.theIndexMask = idx
  isBlock : ∀ idx, ∀ key ∈ theTable idx, c.address key >>> c.theIndexShift = key

variable {c : CacheShape} {k k' idx addr : BitVec 64}

theorem CacheShape.address_ushiftRight (c : CacheShape) (addr : BitVec 64) :
    c.address (addr >>> c.theIndexShift) >>> c.theIndexShift = addr >>> c.theIndexShift := by
  refine BitVec.eq_of_getLsbD_eq fun i hi => ?_
  rw [BitVec.getLsbD_ushiftRight, CacheShape.address, BitVec.getLsbD_shiftLeft,
    BitVec.getLsbD_ushiftRight]
  rcases Nat.lt_or_ge (c.theIndexShift + i) 64 with hlt | hge
  · simp [hlt, BitVec.getLsbD_ushiftRight]
  · simp [BitVec.getLsbD_ushiftRight, BitVec.getLsbD_of_ge addr _ hge, Nat.not_lt.mpr hge]

theorem CacheShape.address_and_theBlockMask (c : CacheShape) (k : BitVec 64) :
    c.address k &&& theBlockMask c.theIndexShift = c.address k := by
  refine BitVec.eq_of_getLsbD_eq fun i hi => ?_
  rw [theBlockMask, getLsbD_above, CacheShape.address, BitVec.getLsbD_shiftLeft]
  rcases Nat.lt_or_ge i c.theIndexShift with hlt | hge
  · simp [hlt]
  · simp [Nat.not_lt.mpr hge]

theorem CacheShape.address_of (c : CacheShape) (addr : BitVec 64) :
    c.address (addr >>> c.theIndexShift) = addr &&& theBlockMask c.theIndexShift := by
  refine BitVec.eq_of_getLsbD_eq fun i hi => ?_
  rw [theBlockMask, getLsbD_above, CacheShape.address, BitVec.getLsbD_shiftLeft,
    BitVec.getLsbD_ushiftRight]
  rcases Nat.lt_or_ge i c.theIndexShift with hlt | hge
  · simp [hlt]
  · rw [Nat.add_sub_cancel' hge]
    simp [Nat.not_lt.mpr hge, hi]

namespace SimCache

variable (s : SimCache c)

/-- The set of a block number. -/
def blocks (key : BitVec 64) : List (BitVec 64) := s.theTable (key &&& c.theIndexMask)

theorem blocks_congr (h : k &&& c.theIndexMask = k' &&& c.theIndexMask) :
    s.blocks k = s.blocks k' := by
  rw [blocks, blocks, h]

/-- The block of an address is in the cache. -/
def Contains (addr : BitVec 64) : Prop :=
  addr >>> c.theIndexShift ∈ s.blocks (addr >>> c.theIndexShift)

instance (addr : BitVec 64) : Decidable (s.Contains addr) :=
  inferInstanceAs (Decidable (_ ∈ s.blocks _))

/-- Another set for a block number, in which there is at most this one more. -/
def withBlocks (key : BitVec 64) (l : List (BitVec 64)) (hnodup : l.Nodup)
    (hmem : ∀ k ∈ l, k ∈ s.blocks key ∨ k = key)
    (hkey : c.address key >>> c.theIndexShift = key) : SimCache c where
  theTable := update s.theTable (key &&& c.theIndexMask) l
  nodup idx := by
    rw [update_apply]
    split
    · exact hnodup
    · exact s.nodup idx
  placed idx k hk := by
    rw [update_apply] at hk
    split at hk
    · rename_i hidx
      rcases hmem k hk with hold | rfl
      · rw [hidx]
        exact s.placed _ k hold
      · exact hidx.symm
    · exact s.placed idx k hk
  isBlock idx k hk := by
    rw [update_apply] at hk
    split at hk
    · rcases hmem k hk with hold | rfl
      · exact s.isBlock _ k hold
      · exact hkey
    · exact s.isBlock idx k hk

theorem contains_withBlocks {key : BitVec 64} {l : List (BitVec 64)} {hnodup : l.Nodup}
    {hmem : ∀ k ∈ l, k ∈ s.blocks key ∨ k = key}
    {hkey : c.address key >>> c.theIndexShift = key} :
    (s.withBlocks key l hnodup hmem hkey).Contains addr ↔
      if addr >>> c.theIndexShift &&& c.theIndexMask = key &&& c.theIndexMask then
        addr >>> c.theIndexShift ∈ l
      else s.Contains addr := by
  have htable : (s.withBlocks key l hnodup hmem hkey).blocks (addr >>> c.theIndexShift) =
      if addr >>> c.theIndexShift &&& c.theIndexMask = key &&& c.theIndexMask then l
      else s.blocks (addr >>> c.theIndexShift) := update_apply _ _ _ _
  rw [Contains, Contains, htable]
  split <;> rfl

theorem nodup_blocks (key : BitVec 64) : (s.blocks key).Nodup := s.nodup _

/-- `move_back`. -/
def moveBack (key : BitVec 64)
    (hkey : c.address key >>> c.theIndexShift = key) : SimCache c :=
  s.withBlocks key ((s.blocks key).erase key ++ [key])
    (by
      refine nodup_append.mpr ⟨(s.nodup_blocks key).erase key, nodup_singleton key, ?_⟩
      rintro x hx y hy rfl
      rw [mem_singleton.mp hy] at hx
      exact List.Nodup.not_mem_erase (s.nodup_blocks key) hx)
    (fun k hk => (mem_append.mp hk).elim (fun hk => Or.inl (mem_of_mem_erase hk))
      fun hk => Or.inr (mem_singleton.mp hk))
    hkey

theorem contains_moveBack {addr' : BitVec 64} (h : s.Contains addr') :
    (s.moveBack (addr' >>> c.theIndexShift) (c.address_ushiftRight addr')).Contains addr ↔
      s.Contains addr := by
  rw [moveBack, contains_withBlocks]
  split
  · rename_i hidx
    have hblocks := s.blocks_congr hidx
    rw [mem_append, mem_singleton]
    constructor
    · rintro (hk | hk)
      · rw [Contains, hblocks]
        exact mem_of_mem_erase hk
      · rw [Contains, hk]
        exact h
    · intro hk
      rw [Contains, hblocks] at hk
      by_cases heq : addr >>> c.theIndexShift = addr' >>> c.theIndexShift
      · exact Or.inr heq
      · exact Or.inl ((mem_erase_of_ne heq).mpr hk)
  · rfl

/-- **`SimCache::lookup`**: a block that is found becomes the most recently used one. -/
def lookup (addr : BitVec 64) : Bool × SimCache c :=
  if s.Contains addr then
    (true, s.moveBack (addr >>> c.theIndexShift) (c.address_ushiftRight addr))
  else (false, s)

theorem contains_lookup (addr' : BitVec 64) :
    (s.lookup addr').2.Contains addr ↔ s.Contains addr := by
  rw [lookup]
  split
  · rename_i h
    exact s.contains_moveBack h
  · rfl

/-- **The victim** of a new block: the block at the front of a set that is full. -/
def victim (addr : BitVec 64) : Option (BitVec 64) :=
  if c.theCacheAssoc ≤ (s.blocks (addr >>> c.theIndexShift)).length then
    (s.blocks (addr >>> c.theIndexShift)).head?
  else none

/-- A new block, at the back of its set, from which the front is taken if it is full. -/
def pushBack (addr : BitVec 64) (h : ¬s.Contains addr) : SimCache c :=
  let key := addr >>> c.theIndexShift
  let rest := if c.theCacheAssoc ≤ (s.blocks key).length then (s.blocks key).tail else s.blocks key
  have hrest : rest.Sublist (s.blocks key) := by
    unfold rest
    split
    · exact tail_sublist _
    · exact List.Sublist.refl _
  s.withBlocks key (rest ++ [key])
    (by
      refine nodup_append.mpr
        ⟨(s.nodup_blocks key).sublist hrest, nodup_singleton key, ?_⟩
      rintro x hx y hy rfl
      rw [mem_singleton.mp hy] at hx
      exact h (hrest.subset hx))
    (fun k hk => (mem_append.mp hk).elim (fun hk => Or.inl (hrest.subset hk))
      fun hk => Or.inr (mem_singleton.mp hk))
    (c.address_ushiftRight addr)

/-- **`SimCache::insert`**: the address of the victim, and zero if there is none. -/
def insert (addr : BitVec 64) : BitVec 64 × SimCache c :=
  if h : s.Contains addr then
    (0, s.moveBack (addr >>> c.theIndexShift) (c.address_ushiftRight addr))
  else ((s.victim addr).elim 0 c.address, s.pushBack addr h)

/-- `erase`. -/
def erase (key : BitVec 64) (hkey : c.address key >>> c.theIndexShift = key) : SimCache c :=
  s.withBlocks key ((s.blocks key).erase key) ((s.nodup_blocks key).erase key)
    (fun _ hk => Or.inl (mem_of_mem_erase hk)) hkey

/-- **`SimCache::inval`.** -/
def inval (addr : BitVec 64) : Bool × SimCache c :=
  if s.Contains addr then
    (true, s.erase (addr >>> c.theIndexShift) (c.address_ushiftRight addr))
  else (false, s)

theorem contains_of_inval {addr' : BitVec 64} (h : (s.inval addr').2.Contains addr) :
    s.Contains addr := by
  rw [inval] at h
  split at h
  · rw [erase, contains_withBlocks] at h
    split at h
    · rename_i hidx
      have hblocks := s.blocks_congr hidx
      rw [← hblocks] at h
      exact mem_of_mem_erase h
    · exact h
  · exact h

/-! ### What an insertion does -/

/-- What is in the cache after an insertion was there, or is the new block. -/
theorem contains_of_insert {addr' : BitVec 64} (h : (s.insert addr').2.Contains addr) :
    s.Contains addr ∨ addr >>> c.theIndexShift = addr' >>> c.theIndexShift := by
  rw [insert] at h
  split at h
  · rename_i hthere
    exact Or.inl ((s.contains_moveBack hthere).mp h)
  · rw [pushBack, contains_withBlocks] at h
    split at h
    · rename_i hidx
      have hblocks := s.blocks_congr hidx
      rcases mem_append.mp h with hk | hk
      · refine Or.inl ?_
        rw [Contains, hblocks]
        split at hk
        · exact mem_of_mem_tail hk
        · exact hk
      · exact Or.inr (mem_singleton.mp hk)
    · exact Or.inl h

theorem victim_mem {v : BitVec 64} (h : s.victim addr = some v) :
    v ∈ s.blocks (addr >>> c.theIndexShift) := by
  rw [victim] at h
  split at h
  · exact mem_of_head? h
  · cases h

theorem contains_victim {v : BitVec 64} (h : s.victim addr = some v) :
    s.Contains (c.address v) := by
  have hv := s.victim_mem h
  rw [Contains, s.isBlock _ v hv, blocks, s.placed _ v hv]
  exact hv

/-- **A victim is no longer in the cache.** -/
theorem not_contains_victim {v : BitVec 64} (h : s.victim addr = some v) (hnew : ¬s.Contains addr) :
    ¬(s.insert addr).2.Contains (c.address v) := by
  have hv := s.victim_mem h
  have hplaced := s.placed _ v hv
  rw [insert, dif_neg hnew, pushBack, contains_withBlocks, s.isBlock _ v hv, if_pos hplaced,
    mem_append, mem_singleton]
  rw [victim] at h
  split at h
  · rename_i hfull
    rw [if_pos hfull]
    have hnodup := s.nodup_blocks (addr >>> c.theIndexShift)
    rintro (hmem | heq)
    · cases hblocks : s.blocks (addr >>> c.theIndexShift) with
      | nil =>
        rw [hblocks] at h
        cases h
      | cons x rest =>
        rw [hblocks] at h hmem hnodup
        cases h
        exact (nodup_cons.mp hnodup).1 hmem
    · rw [heq] at hv
      exact hnew hv
  · cases h

end SimCache

end UFetch

end Flexus
