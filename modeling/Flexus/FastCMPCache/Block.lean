import Flexus.FastCache.TopLevel
import Flexus.FastCMPCache.Directory

/-!
# One block in the functional chip multiprocessor

The coherence of the system is a statement about one block at a time: who holds
it, in which state, and what the directory says. This file is the protocol seen
from there. A *block* is the state of one block in every private cache and in the
shared one, with its recorded sharers (`Flexus.FastCMPCache.Block`), and
`Flexus.FastCMPCache.Block.Ok` is the invariant: the directory is exact, a
writable copy is the only one, and above a modified or a shared copy in the shared
cache there are only shared copies. The changes a block can undergo – a grant, a
release, a loss – keep it.
-/

namespace Flexus

open Function

namespace FastCMPCache

open CoherenceState FastCache

/-- **One block of the system.** -/
structure Block where
  /-- The state in every private cache. -/
  l1 : ℕ → CoherenceState
  /-- The state in the shared cache. -/
  l2 : CoherenceState
  /-- The recorded sharers. -/
  sharers : Finset ℕ

namespace Block

/-- **The invariant of a block**, for a given number of private caches. The
instruction caches have the odd indices and never hold a writable copy. -/
structure Ok (n : ℕ) (v : Block) : Prop where
  mesi : ∀ i, IsMESI (v.l1 i)
  mesi_l2 : IsMESI v.l2
  mem_sharers : ∀ i, i ∈ v.sharers ↔ v.l1 i ≠ invalid
  lt : ∀ i, v.l1 i ≠ invalid → i < n
  single : ∀ i j, i ≠ j → v.l1 i = modified ∨ v.l1 i = exclusive → v.l1 j = invalid
  below : v.l2 = modified ∨ v.l2 = shared → ∀ i, v.l1 i = invalid ∨ v.l1 i = shared
  instr : ∀ i, i % 2 = 1 → v.l1 i = invalid ∨ v.l1 i = shared

/-- The block is dirty somewhere on chip: in a data cache or in the shared
cache. -/
def Dirty (v : Block) : Prop := (∃ i, v.l1 i = modified) ∨ v.l2 = modified

/-- The state in one private cache set. -/
def setL1 (v : Block) (i : ℕ) (x : CoherenceState) : Block :=
  { v with l1 := update v.l1 i x }

/-- The state in the shared cache set. -/
def setL2 (v : Block) (x : CoherenceState) : Block := { v with l2 := x }

/-- All private copies made shared. -/
def share (v : Block) : Block :=
  { v with l1 := fun j => if v.l1 j = invalid then invalid else shared }

/-- All private copies but one gone. -/
def keepOnly (v : Block) (i : ℕ) : Block :=
  { v with
    l1 := fun j => if j = i then v.l1 j else invalid
    sharers := v.sharers.filter (· = i) }

/-- The recorded sharers set. -/
def setSharers (v : Block) (S : Finset ℕ) : Block := { v with sharers := S }

variable {n : ℕ} {v : Block} {i : ℕ}

/-! ### Consequences of the invariant -/

theorem eq_shared_of_not (hx : IsMESI x) (hm : x ≠ modified) (he : x ≠ exclusive)
    (hi : x ≠ invalid) : x = shared := by
  rcases hx with h | h | h | h
  · exact absurd h hm
  · exact absurd h he
  · exact h
  · exact absurd h hi

theorem Ok.shared_of_two (h : v.Ok n) (hc : 2 ≤ v.sharers.card) (hi : i ∈ v.sharers) :
    v.l1 i = shared := by
  obtain ⟨j, hj, hij⟩ : ∃ j ∈ v.sharers, j ≠ i := Finset.exists_mem_ne hc i
  have hjv := (h.mem_sharers j).mp hj
  refine eq_shared_of_not (h.mesi i) (fun hm => ?_) (fun he => ?_) ((h.mem_sharers i).mp hi)
  · exact hjv (h.single i j hij.symm (.inl hm))
  · exact hjv (h.single i j hij.symm (.inr he))

theorem Ok.invalid_or_shared (h : v.Ok n) (hc : 2 ≤ v.sharers.card) (j : ℕ) :
    v.l1 j = invalid ∨ v.l1 j = shared := by
  by_cases hj : j ∈ v.sharers
  · exact .inr (h.shared_of_two hc hj)
  · exact .inl (not_not.mp (mt (h.mem_sharers j).mpr hj))

/-- A copy that is neither invalid nor shared is the only sharer. -/
theorem Ok.sharers_eq (h : v.Ok n) (hi : v.l1 i = modified ∨ v.l1 i = exclusive) :
    v.sharers = {i} := by
  ext j
  rw [h.mem_sharers, Finset.mem_singleton]
  constructor
  · intro hj
    by_contra hji
    exact hj (h.single i j (Ne.symm hji) hi)
  · rintro rfl
    rcases hi with hi | hi <;> rw [hi] <;> nofun

theorem Ok.invalid_of_card (h : v.Ok n) (hc : v.sharers.card = 0) (j : ℕ) :
    v.l1 j = invalid := by
  by_contra hj
  have := (h.mem_sharers j).mpr hj
  rw [Finset.card_eq_zero.mp hc] at this
  simp at this

/-- Where all copies are shared, making them shared changes nothing. -/
theorem share_eq (h : ∀ j, v.l1 j = invalid ∨ v.l1 j = shared) : v.share = v := by
  have hl : (fun j => if v.l1 j = invalid then invalid else shared) = v.l1 := by
    funext j
    rcases h j with hj | hj <;> simp [hj]
  rw [share, hl]

/-! ### Changes that keep the invariant -/

/-- **The only copy**: one private cache holds the block, in any state that the
shared cache allows. -/
theorem Ok.grantSole (hoth : ∀ j, j ≠ i → v.l1 j = invalid) (hi : i < n) {x y : CoherenceState}
    (hx : IsMESI x) (hv : x ≠ invalid) (hy : IsMESI y)
    (hxy : y = modified ∨ y = shared → x = shared) (hodd : i % 2 = 1 → x = shared) :
    Ok n (((v.setL2 y).setSharers {i}).setL1 i x) := by
  have hself : (((v.setL2 y).setSharers {i}).setL1 i x).l1 i = x := update_self ..
  have hof : ∀ j, j ≠ i → (((v.setL2 y).setSharers {i}).setL1 i x).l1 j = invalid :=
    fun j hj => (update_of_ne hj _ _).trans (hoth j hj)
  refine ⟨fun j => ?_, hy, fun j => ?_, fun j hj => ?_, fun j k hjk hj => ?_,
    fun hl j => ?_, fun j hj => ?_⟩
  · by_cases hj : j = i
    · subst hj
      rwa [hself]
    · rw [hof j hj]
      exact .inr (.inr (.inr rfl))
  · by_cases hj : j = i
    · subst hj
      simp [hv, setL1, setSharers]
    · rw [hof j hj]
      simp [hj, setL1, setSharers]
  · by_cases hji : j = i
    · exact hji ▸ hi
    · exact absurd (hof j hji) hj
  · by_cases hji : j = i
    · exact hof k fun hki => hjk (hji.trans hki.symm)
    · rw [hof j hji] at hj
      rcases hj with hj | hj <;> cases hj
  · by_cases hj : j = i
    · subst hj
      exact .inr (hself.trans (hxy hl))
    · exact .inl (hof j hj)
  · by_cases hji : j = i
    · subst hji
      exact .inr (hself.trans (hodd hj))
    · exact .inl (hof j hji)

/-- **A shared grant**: every copy is shared, and one more cache has one. -/
theorem Ok.grantShared (h : v.Ok n) (hi : i < n) {y : CoherenceState} (hy : IsMESI y) :
    Ok n (((v.share.setL2 y).setSharers (insert i v.sharers)).setL1 i shared) := by
  have hval : ∀ j, update (fun j => if v.l1 j = invalid then invalid else shared) i
      shared j = invalid ∨ update (fun j => if v.l1 j = invalid then invalid
        else shared) i shared j = shared := by
    intro j
    by_cases hj : j = i
    · subst hj
      exact .inr (update_self ..)
    · rw [update_of_ne hj]
      split
      · exact .inl rfl
      · exact .inr rfl
  refine ⟨fun j => ?_, hy, fun j => ?_, fun j hj => ?_, fun j k _ hj => ?_, fun _ => hval,
    fun j _ => hval j⟩
  · rcases hval j with hj | hj
    · exact .inr (.inr (.inr hj))
    · exact .inr (.inr (.inl hj))
  · by_cases hj : j = i
    · subst hj
      simp [setL1, setSharers]
    · have := h.mem_sharers j
      simp [setL1, setSharers, setL2, share, hj, this]
  · by_cases hji : j = i
    · exact hji ▸ hi
    · refine h.lt j fun hc => hj ?_
      simp [setL1, setSharers, setL2, share, hji, hc]
  · rcases hval j with hj' | hj'
    · simp only [setL1, setSharers, setL2, share, hj'] at hj
      rcases hj with hj | hj <;> cases hj
    · simp only [setL1, setSharers, setL2, share, hj'] at hj
      rcases hj with hj | hj <;> cases hj

/-- **A copy released**: the cache is no longer a sharer. -/
theorem Ok.release (h : v.Ok n) {y : CoherenceState} (hy : IsMESI y)
    (hl : y = modified ∨ y = shared → ∀ j, j ≠ i → v.l1 j = invalid ∨ v.l1 j = shared) :
    Ok n (((v.setL2 y).setSharers (v.sharers.erase i)).setL1 i invalid) := by
  have hof : ∀ j, j ≠ i → update v.l1 i invalid j = v.l1 j :=
    fun j hj => update_of_ne hj _ _
  have hself : update v.l1 i invalid i = invalid := update_self ..
  refine ⟨fun j => ?_, hy, fun j => ?_, fun j hj => ?_, fun j k hjk hj => ?_,
    fun hyl j => ?_, fun j hodd => ?_⟩
  · by_cases hj : j = i
    · subst hj
      exact .inr (.inr (.inr hself))
    · rw [show (((v.setL2 y).setSharers (v.sharers.erase i)).setL1 i invalid).l1 j = v.l1 j
        from hof j hj]
      exact h.mesi j
  · by_cases hj : j = i
    · subst hj
      simp [setL1, setSharers, setL2]
    · have := h.mem_sharers j
      simp [setL1, setSharers, setL2, hj, this]
  · by_cases hji : j = i
    · subst hji
      exact absurd hself hj
    · exact h.lt j fun hc => hj ((hof j hji).trans hc)
  · by_cases hji : j = i
    · subst hji
      simp [setL1, setSharers, setL2] at hj
    · have hj' : v.l1 j = modified ∨ v.l1 j = exclusive := by
        simpa [setL1, setSharers, setL2, hji] using hj
      by_cases hki : k = i
      · subst hki
        exact hself
      · exact (hof k hki).trans (h.single j k hjk hj')
  · by_cases hj : j = i
    · subst hj
      exact .inl hself
    · rcases hl hyl j hj with h' | h'
      · exact .inl ((hof j hj).trans h')
      · exact .inr ((hof j hj).trans h')
  · by_cases hj : j = i
    · subst hj
      exact .inl hself
    · rcases h.instr j hodd with h' | h'
      · exact .inl ((hof j hj).trans h')
      · exact .inr ((hof j hj).trans h')

/-- **No private copy.** -/
theorem Ok.clear (hall : ∀ j, v.l1 j = invalid) {y : CoherenceState} (hy : IsMESI y) :
    Ok n ((v.setL2 y).setSharers ∅) :=
  ⟨fun j => .inr (.inr (.inr (hall j))), hy, fun j => by simp [setSharers, setL2, hall j],
    fun j hj => absurd (hall j) hj, fun _ k _ _ => hall k, fun _ j => .inl (hall j),
    fun j _ => .inl (hall j)⟩

/-- **A change in the shared cache** that does not claim more about the private
copies than before. -/
theorem Ok.setL2 (h : v.Ok n) {y : CoherenceState} (hy : IsMESI y)
    (hl : y = modified ∨ y = shared → v.l2 = modified ∨ v.l2 = shared) :
    (v.setL2 y).Ok n :=
  ⟨h.mesi, hy, h.mem_sharers, h.lt, h.single, fun hyl => h.below (hl hyl), h.instr⟩

theorem Ok.lose (h : v.Ok n) : (v.setL2 invalid).Ok n :=
  h.setL2 (.inr (.inr (.inr rfl))) (by rintro (hc | hc) <;> cases hc)

/-- **A silent write**: an exclusive copy becomes modified. -/
theorem Ok.write (h : v.Ok n) (hi : v.l1 i = modified ∨ v.l1 i = exclusive) :
    (v.setL1 i modified).Ok n := by
  have hof : ∀ j, j ≠ i → update v.l1 i modified j = v.l1 j :=
    fun j hj => update_of_ne hj _ _
  have hself : update v.l1 i modified i = modified := update_self ..
  have hiv : v.l1 i ≠ invalid := by rcases hi with hi | hi <;> rw [hi] <;> nofun
  have his : v.l1 i ≠ shared := by rcases hi with hi | hi <;> rw [hi] <;> nofun
  refine ⟨fun j => ?_, h.mesi_l2, fun j => ?_, fun j hj => ?_, fun j k hjk hj => ?_,
    fun hyl => ?_, fun j hodd => ?_⟩
  · by_cases hj : j = i
    · subst hj
      exact .inl hself
    · rw [show (v.setL1 i modified).l1 j = v.l1 j from hof j hj]
      exact h.mesi j
  · by_cases hj : j = i
    · subst hj
      have := h.mem_sharers j
      simp [setL1, this, hiv]
    · have := h.mem_sharers j
      simp [setL1, hj, this]
  · by_cases hji : j = i
    · subst hji
      exact h.lt j hiv
    · exact h.lt j fun hc => hj ((hof j hji).trans hc)
  · by_cases hji : j = i
    · subst hji
      exact (hof k hjk.symm).trans (h.single j k hjk hi)
    · have hj' : v.l1 j = modified ∨ v.l1 j = exclusive := by simpa [setL1, hji] using hj
      exact absurd (h.single j i hji hj') hiv
  · rcases h.below hyl i with h' | h'
    · exact absurd h' hiv
    · exact absurd h' his
  · by_cases hj : j = i
    · subst hj
      rcases h.instr j hodd with h' | h'
      · exact absurd h' hiv
      · exact absurd h' his
    · rcases h.instr j hodd with h' | h'
      · exact .inl ((hof j hj).trans h')
      · exact .inr ((hof j hj).trans h')

/-- **All copies made shared.** -/
theorem Ok.share (h : v.Ok n) : v.share.Ok n := by
  have hval : ∀ j, v.share.l1 j = invalid ∨ v.share.l1 j = shared := by
    intro j
    simp only [Block.share]
    split
    · exact .inl rfl
    · exact .inr rfl
  have hinv : ∀ j, v.share.l1 j = invalid ↔ v.l1 j = invalid := by
    intro j
    simp only [Block.share]
    split <;> simp [*]
  refine ⟨fun j => ?_, h.mesi_l2, fun j => ?_, fun j hj => ?_, fun j k _ hj => ?_,
    fun _ => hval, fun j _ => hval j⟩
  · rcases hval j with hj | hj
    · exact .inr (.inr (.inr hj))
    · exact .inr (.inr (.inl hj))
  · rw [ne_eq, hinv]
    exact h.mem_sharers j
  · exact h.lt j fun hc => hj ((hinv j).mpr hc)
  · rcases hval j with hj' | hj' <;> rw [hj'] at hj <;> rcases hj with hj | hj <;> cases hj

end Block

end FastCMPCache

end Flexus
