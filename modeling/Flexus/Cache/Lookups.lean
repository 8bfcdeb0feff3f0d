import Flexus.Cache.InclusiveMESI

/-!
# What a private cache relies on of its array

The protocol of a private cache is written against the abstract class of an array
(`components/Cache/AbstractArray.hpp`): it looks a block up, and goes on to work with what it has
found. What it relies on is said here by a relation between contents, results of a lookup, addresses
and blocks: by such a result the block of an address can be read and written. The array of
`components/Cache/StdArray.hpp` does what is relied on.
-/

namespace Flexus

open Function

namespace Cache

variable {γ ρ : Type}

/-- **What a cache relies on of an array**: a block that is found is held by its lookup, and stays
held when it is written; and a block that can be allocated is held afterwards. -/
structure ArrayLaws (arr : AbstractArray γ ρ) (Held : γ → ρ → ℕ → BasicCacheState → Prop) :
    Prop where
  held_lookup : ∀ {c a}, arr.state c (arr.lookup c a) ≠ .invalid →
    ∃ p, Held c (arr.lookup c a) a ⟨arr.state c (arr.lookup c a), p⟩
  /-- A valid block is found again. -/
  lookup_of_held : ∀ {c r a b}, Held c r a b → b.val ≠ .invalid → Held c (arr.lookup c a) a b
  state : ∀ {c r a b}, Held c r a b → arr.state c r = b.val
  setState : ∀ {c r a b} (v), Held c r a b →
    ∃ c', arr.setState c r v = some c' ∧ Held c' r a (b.assign v)
  setProtected : ∀ {c r a b} (p), Held c r a b →
    ∃ c', arr.setProtected c r p = some c' ∧ Held c' r a { b with isProtected := p }
  recordAccess : ∀ {c r a b}, Held c r a b →
    ∃ c', arr.recordAccess c r = some c' ∧ Held c' r a b
  allocate : ∀ {c a}, arr.state c (arr.lookup c a) = .invalid →
    arr.canAllocate c (arr.lookup c a) a = true → ∃ c' r' st v p,
      arr.allocate c (arr.lookup c a) a = some (c', r', st, v) ∧ Held c' r' a ⟨.invalid, p⟩

/-! ### The array with sets -/

namespace SetLRU

variable {n : ℕ}

/-- `moveToTail`: the ways behind the given one move up by one. -/
def moveToTail (s : SetLRU n) (w : ℕ) (hw : w < n) : SetLRU n where
  theBlocks := s.theBlocks
  theMRUOrder := s.theMRUOrder.erase w ++ [w]
  perm := by
    have hmem : w ∈ s.theMRUOrder := s.perm.mem_iff.mpr (List.mem_range.mpr hw)
    exact (List.perm_append_singleton _ _).trans ((List.perm_cons_erase hmem).symm.trans s.perm)

/-- `invalidateBlock`. -/
def invalidateBlock (s : SetLRU n) (w : ℕ) : SetLRU n :=
  if hw : w < n then s.moveToTail w hw else s

/-- `victimAvailable`. -/
def victimAvailable (s : SetLRU n) : Bool := s.theMRUOrder.reverse.any s.replaceable

end SetLRU

namespace StdArray

variable {g : Geometry}

/-- A change of the block a lookup has found, if it has found one. -/
def atBlock (c : StdArray g) (r : StdLookupResult)
    (f : SetLRU g.theAssoc → ℕ → SetLRU g.theAssoc) : Option (StdArray g) :=
  r.theBlock.map fun w => c.setSet r.theSet (f (c.theSets r.theSet) w)

/-- The state of a block is written. -/
def writeState (f : BasicCacheState → BasicCacheState) (s : SetLRU g.theAssoc) (w : ℕ) :
    SetLRU g.theAssoc :=
  s.setBlock w { s.theBlocks w with state := f (s.theBlocks w).state }

/-- `canAllocate`. -/
def canAllocate (c : StdArray g) (r : StdLookupResult) : Bool :=
  r.theBlock.isSome || (c.theSets r.theSet).victimAvailable

end StdArray

/-- `StdArray` as an array of a cache. -/
def stdArray (g : Geometry) : AbstractArray (StdArray g) StdLookupResult where
  init := .init g
  lookup := StdArray.lookup
  state := StdArray.state
  setState c r v := c.atBlock r (StdArray.writeState fun b => b.assign v)
  setProtected c r p := c.atBlock r (StdArray.writeState fun b => { b with isProtected := p })
  recordAccess c r := c.atBlock r SetLRU.recordAccess
  invalidateBlock c r := c.atBlock r SetLRU.invalidateBlock
  canAllocate c r _ := c.canAllocate r
  allocate c r a :=
    (c.allocate r a).map fun x => (x.1, x.2.1, x.2.2.theOrigState, x.2.2.theBlockAddress)
  getSet := g.getSet
  requestsPerSet := g.theAssoc

namespace SetLRU

variable {n : ℕ} {s : SetLRU n} {a w : ℕ}

theorem lookupLoop_hit (theBlocks : ℕ → Block) (ways : List ℕ) (t : Option ℕ) :
    lookupLoop theBlocks a ways t = some (w, true) ↔
      ways.find? (fun i => (theBlocks i).tag == a && (theBlocks i).state.isValid) = some w := by
  induction ways generalizing t with
  | nil => cases t <;> simp [lookupLoop]
  | cons i ways ih =>
    rw [lookupLoop, List.find?_cons]
    by_cases htag : (theBlocks i).tag = a
    · by_cases hv : (theBlocks i).state.isValid = true
      · simp [htag, hv]
      · simp [htag, hv, ih]
    · simp [htag, ih, beq_false_of_ne htag]

/-- **A block is found** that is valid, and no way in front of it has its tag and is valid. -/
theorem lookupBlock_hit : s.lookupBlock a = some (w, true) ↔
    w < n ∧ (s.theBlocks w).tag = a ∧ (s.theBlocks w).state.isValid = true ∧
      ∀ w' < w, (s.theBlocks w').tag = a → (s.theBlocks w').state.isValid = false := by
  rw [lookupBlock, lookupLoop_hit, List.find?_range_eq_some]
  simp only [Bool.and_eq_true, beq_iff_eq, List.mem_range, Bool.not_eq_true', Bool.and_eq_false_iff,
    beq_eq_false_iff_ne]
  constructor
  · rintro ⟨⟨htag, hv⟩, hw, hfirst⟩
    exact ⟨hw, htag, hv, fun w' hw' htag' => (hfirst w' hw').resolve_left fun hc => hc htag'⟩
  · rintro ⟨hw, htag, hv, hfirst⟩
    refine ⟨⟨htag, hv⟩, hw, fun w' hw' => ?_⟩
    by_cases htag' : (s.theBlocks w').tag = a
    · exact .inr (hfirst w' hw' htag')
    · exact .inl htag'

theorem pickVictim_of_available (h : s.victimAvailable = true) :
    ∃ s' w, s.pickVictim = some (s', w) ∧ w < n ∧ ∀ w' ≠ w, s'.theBlocks w' = s.theBlocks w' := by
  obtain ⟨w, hw⟩ : ∃ w, s.theMRUOrder.reverse.find? s.replaceable = some w := by
    rw [← Option.isSome_iff_exists, List.find?_isSome]
    simpa [victimAvailable] using h
  have hlt : w < n := by
    have hmem := List.mem_of_find?_eq_some hw
    rwa [List.mem_reverse, mem_theMRUOrder] at hmem
  rw [pickVictim, hw]
  dsimp only
  split
  · exact ⟨_, w, rfl, hlt, fun w' hne => update_of_ne hne _ _⟩
  · exact ⟨s, w, rfl, hlt, fun _ _ => rfl⟩

end SetLRU

namespace StdArray

variable {g : Geometry} {c : StdArray g} {r : StdLookupResult} {a : ℕ} {b : BasicCacheState}

/-- **A block is held** by the result of a lookup that has hit the first way with its tag that may
be valid. -/
def Held (c : StdArray g) (r : StdLookupResult) (a : ℕ) (b : BasicCacheState) : Prop :=
  r.isHit = true ∧ r.theSet = g.getSet a ∧ ∃ w < g.theAssoc, r.theBlock = some w ∧
    (c.theSets (g.getSet a)).theBlocks w = ⟨g.getTag a, b⟩ ∧
    ∀ w' < w, ((c.theSets (g.getSet a)).theBlocks w').tag = g.getTag a →
      ((c.theSets (g.getSet a)).theBlocks w').state.isValid = false

/-- The contents of a set after a change of the block that is held. -/
theorem Held.atBlock (h : c.Held r a b) {f : SetLRU g.theAssoc → ℕ → SetLRU g.theAssoc}
    {b' : BasicCacheState}
    (hf : ∀ s w, s.theBlocks w = ⟨g.getTag a, b⟩ →
      (f s w).theBlocks = update s.theBlocks w ⟨g.getTag a, b'⟩) :
    ∃ c', c.atBlock r f = some c' ∧ c'.Held r a b' := by
  obtain ⟨hhit, hset, w, hw, hblock, hb, hfirst⟩ := h
  refine ⟨_, by rw [StdArray.atBlock, hblock]; rfl, hhit, hset, w, hw, hblock, ?_, ?_⟩
  · rw [hset, theSets_setSet_self, hf _ _ hb, update_self]
  · intro w' hw' htag
    rw [hset, theSets_setSet_self, hf _ _ hb, update_of_ne (Nat.ne_of_lt hw')] at htag ⊢
    exact hfirst w' hw' htag

end StdArray

/-- **`StdArray` does what a cache relies on.** -/
theorem stdArray_laws (g : Geometry) : ArrayLaws (stdArray g) StdArray.Held where
  held_lookup := by
    intro c a h
    simp only [stdArray, StdArray.lookup] at h ⊢
    split at h
    · rename_i w hit hl
      cases hit with
      | false => exact absurd rfl h
      | true =>
        obtain ⟨hw, htag, hv, hfirst⟩ := SetLRU.lookupBlock_hit.mp hl
        refine ⟨((c.theSets (g.getSet a)).theBlocks w).state.isProtected, rfl, rfl, w, hw, rfl, ?_,
          hfirst⟩
        rw [← htag]
        rfl
    · exact absurd rfl h
  lookup_of_held := by
    rintro c r a b ⟨hhit, hset, w, hw, hblock, hb, hfirst⟩ hvalid
    have hl : (c.theSets (g.getSet a)).lookupBlock (g.getTag a) = some (w, true) := by
      refine SetLRU.lookupBlock_hit.mpr ⟨hw, ?_, ?_, hfirst⟩
      · rw [hb]
      · rw [hb]
        exact decide_eq_true hvalid
    simp only [stdArray, StdArray.lookup, hl]
    exact ⟨rfl, rfl, w, hw, rfl, hb, hfirst⟩
  state := by
    rintro c r a b ⟨hhit, hset, w, hw, hblock, hb, hfirst⟩
    simp only [stdArray, StdArray.state, hhit, hblock, hset, hb]
  setState := by
    intro c r a b v h
    exact h.atBlock fun s w hb => by rw [StdArray.writeState, SetLRU.theBlocks_setBlock, hb]
  setProtected := by
    intro c r a b p h
    exact h.atBlock fun s w hb => by rw [StdArray.writeState, SetLRU.theBlocks_setBlock, hb]
  recordAccess := by
    intro c r a b h
    refine h.atBlock fun s w hb => ?_
    rw [SetLRU.theBlocks_recordAccess, ← hb, update_eq_self]
  allocate := by
    intro c a h halloc
    simp only [stdArray, StdArray.lookup] at h halloc ⊢
    rcases (c.theSets (g.getSet a)).lookupBlock_cases (g.getTag a) with
      ⟨w, hw, hl, htag, hv⟩ | ⟨w, hw, hl, ⟨htag, hv⟩, hno⟩ | ⟨hl, hno⟩
    · -- a block that is found is not invalid
      simp only [hl, StdArray.state] at h
      rw [BasicCacheState.isValid, h] at hv
      cases hv
    · -- the block is there, and invalid
      have hstate : ((c.theSets (g.getSet a)).theBlocks w).state.val = .invalid := by
        simpa [BasicCacheState.isValid] using hv
      simp only [hl, StdArray.allocate, SetLRU.allocate, htag, if_true, Option.bind_eq_bind,
        Option.bind_some, Option.pure_def, Option.map_some]
      refine ⟨_, _, _, _, ((c.theSets (g.getSet a)).theBlocks w).state.isProtected, rfl, rfl, rfl,
        w, hw, rfl, ?_, fun w' hw' htag' => ?_⟩
      · rw [StdArray.theSets_setSet_self, SetLRU.theBlocks_recordAccess, ← htag, ← hstate]
      · rw [StdArray.theSets_setSet_self, SetLRU.theBlocks_recordAccess] at htag' ⊢
        exact hno w' (hw'.trans hw) htag'
    · -- a victim
      simp only [hl, StdArray.canAllocate, Option.isSome_none, Bool.false_or] at halloc
      obtain ⟨s', w, hpick, hw, hother⟩ := SetLRU.pickVictim_of_available halloc
      simp only [hl, StdArray.allocate, SetLRU.allocate, hpick, Option.bind_eq_bind,
        Option.bind_some, Option.pure_def, Option.map_some]
      refine ⟨_, _, _, _, (s'.theBlocks w).state.isProtected, rfl, rfl, rfl, w, hw, rfl, ?_,
        fun w' hw' htag' => ?_⟩
      · rw [StdArray.theSets_setSet_self, SetLRU.theBlocks_recordAccess, SetLRU.theBlocks_setBlock,
          update_self]
        rfl
      · rw [StdArray.theSets_setSet_self, SetLRU.theBlocks_recordAccess, SetLRU.theBlocks_setBlock,
          update_of_ne (Nat.ne_of_lt hw'), hother w' (Nat.ne_of_lt hw')] at htag'
        exact absurd htag' (hno w' (hw'.trans hw))

end Cache

end Flexus
