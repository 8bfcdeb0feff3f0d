import Flexus.FastCache.StdCache
import Flexus.Lib.Recency

/-!
# The set-associative array of the timing caches

`StdArray` with `SetLRU` (`components/Cache/StdArray.hpp`): a set is an array of blocks and
an array of way numbers, `theMRUOrder`, the most recently used way first. A lookup goes
through the ways and ends at the first valid block with the tag; an invalid block with the
tag is remembered, and reused by an allocation. A victim is the last way in the order that
is not protected, whether its block is valid or not.

The order is a permutation of the ways, which is a field of the set. Read from the back, the
order is what `Flexus.Lib.Replaces` calls the order of use, and the array is a cache in the
sense of that structure while none of its blocks is protected.
-/

namespace Flexus

open Function List

namespace Cache

/-! ### Blocks -/

/-- The stable states of `BasicCacheState`. -/
inductive BasicState
  | modified
  | owned
  | exclusive
  | shared
  | invalid
  deriving DecidableEq

/-- `BasicCacheState`: the state and the bit that protects the block from replacement. -/
structure BasicCacheState where
  val : BasicState
  isProtected : Bool
  deriving DecidableEq

namespace BasicCacheState

/-- `operator=`: the protection stays. -/
def assign (s : BasicCacheState) (v : BasicState) : BasicCacheState := { s with val := v }

/-- `isValid`. -/
def isValid (s : BasicCacheState) : Bool := s.val ≠ .invalid

end BasicCacheState

/-- `Block`. -/
structure Block where
  tag : ℕ
  state : BasicCacheState
  deriving DecidableEq

/-- A block as it is constructed. -/
def Block.default : Block := ⟨0, ⟨.invalid, false⟩⟩

/-- `StdLookupResult`. The set is given by its index and the block by its way. -/
structure StdLookupResult where
  theSet : ℕ
  theBlock : Option ℕ
  theBlockAddress : ℕ
  isHit : Bool
  theOrigState : BasicState
  deriving DecidableEq

/-! ### Sets -/

/-- `SetLRU`: the blocks of the ways, and the ways in the order of their use, most recently
used first. -/
structure SetLRU (n : ℕ) where
  theBlocks : ℕ → Block
  theMRUOrder : List ℕ
  perm : theMRUOrder.Perm (List.range n)

namespace SetLRU

variable {n : ℕ}

/-- The set as it is constructed. -/
def default (n : ℕ) : SetLRU n := ⟨fun _ => .default, List.range n, List.Perm.refl _⟩

/-- One of the blocks is written. -/
def setBlock (s : SetLRU n) (w : ℕ) (b : Block) : SetLRU n :=
  { s with theBlocks := update s.theBlocks w b }

/-- The loop of `lookupBlock`, over the ways that are left and the invalid way found so far. -/
def lookupLoop (theBlocks : ℕ → Block) (anAddress : ℕ) :
    List ℕ → Option ℕ → Option (ℕ × Bool)
  | [], t => t.map (·, false)
  | i :: ways, t =>
    if (theBlocks i).tag = anAddress then
      if (theBlocks i).state.isValid then some (i, true)
      else lookupLoop theBlocks anAddress ways (some i)
    else lookupLoop theBlocks anAddress ways t

/-- `lookupBlock`: the way that is found, and whether it is a hit. -/
def lookupBlock (s : SetLRU n) (anAddress : ℕ) : Option (ℕ × Bool) :=
  lookupLoop s.theBlocks anAddress (List.range n) none

/-- `moveToHead`: the ways in front of the given one move back by one. -/
def moveToHead (s : SetLRU n) (w : ℕ) (hw : w < n) : SetLRU n where
  theBlocks := s.theBlocks
  theMRUOrder := w :: s.theMRUOrder.erase w
  perm := (perm_cons_erase (s.perm.mem_iff.mpr (mem_range.mpr hw))).symm.trans s.perm

/-- `recordAccess`. -/
def recordAccess (s : SetLRU n) (w : ℕ) : SetLRU n :=
  if hw : w < n then s.moveToHead w hw else s

/-- The test of `pickVictim`. -/
def replaceable (s : SetLRU n) (w : ℕ) : Bool :=
  !(s.theBlocks w).state.isProtected || (s.theBlocks w).state.val = .invalid

/-- `pickVictim`: the least recently used way that can be replaced; a protected block that is
invalid loses its protection. Without such a way the source asserts. -/
def pickVictim (s : SetLRU n) : Option (SetLRU n × ℕ) :=
  match s.theMRUOrder.reverse.find? s.replaceable with
  | none => none
  | some w =>
    if (s.theBlocks w).state.isProtected then
      some (s.setBlock w { s.theBlocks w with
        state := { (s.theBlocks w).state with isProtected := false } }, w)
    else some (s, w)

/-- `Set::allocate`: the set, the lookup as it is updated, and the lookup of the victim. The
index of the set is that of the lookup. -/
def allocate (s : SetLRU n) (lookup : StdLookupResult) (anAddress : ℕ) :
    Option (SetLRU n × StdLookupResult × StdLookupResult) :=
  match lookup.theBlock with
  | some w =>
    if (s.theBlocks w).tag = anAddress then
      some (s.recordAccess w, { lookup with isHit := true },
        ⟨lookup.theSet, none, anAddress, false, .invalid⟩)
    else none
  | none => do
    let (s, victim) ← s.pickVictim
    let b := s.theBlocks victim
    let s := s.setBlock victim ⟨anAddress, b.state.assign .invalid⟩
    pure (s.recordAccess victim,
      { lookup with isHit := true, theOrigState := .invalid, theBlock := some victim },
      ⟨lookup.theSet, some victim, b.tag, false, b.state.val⟩)

end SetLRU

/-! ### The array -/

/-- `StdArray`, of a given geometry. -/
structure StdArray (g : Geometry) where
  theSets : ℕ → SetLRU g.theAssoc

namespace StdArray

variable {g : Geometry}

/-- The array as it is constructed. -/
def init (g : Geometry) : StdArray g := ⟨fun _ => SetLRU.default _⟩

/-- One of the sets is written. -/
def setSet (c : StdArray g) (i : ℕ) (s : SetLRU g.theAssoc) : StdArray g :=
  ⟨update c.theSets i s⟩

/-- `operator[]`. -/
def lookup (c : StdArray g) (anAddress : ℕ) : StdLookupResult :=
  let i := g.getSet anAddress
  match (c.theSets i).lookupBlock (g.getTag anAddress) with
  | some (w, hit) => ⟨i, some w, g.getTag anAddress, hit,
      if hit then ((c.theSets i).theBlocks w).state.val else .invalid⟩
  | none => ⟨i, none, g.getTag anAddress, false, .invalid⟩

/-- `state` of a lookup result. -/
def state (c : StdArray g) (r : StdLookupResult) : BasicState :=
  match r.isHit, r.theBlock with
  | true, some w => ((c.theSets r.theSet).theBlocks w).state.val
  | _, _ => r.theOrigState

/-- `setState` of a lookup result. -/
def setState (c : StdArray g) (r : StdLookupResult) (v : BasicState) : StdArray g :=
  match r.theBlock with
  | some w =>
    let s := c.theSets r.theSet
    c.setSet r.theSet (s.setBlock w { s.theBlocks w with state := (s.theBlocks w).state.assign v })
  | none => c

/-- `recordAccess` of a lookup result. -/
def recordAccess (c : StdArray g) (r : StdLookupResult) : StdArray g :=
  match r.theBlock with
  | some w => c.setSet r.theSet ((c.theSets r.theSet).recordAccess w)
  | none => c

/-- `allocate`. -/
def allocate (c : StdArray g) (r : StdLookupResult) (anAddress : ℕ) :
    Option (StdArray g × StdLookupResult × StdLookupResult) := do
  let (s, r', v) ← (c.theSets r.theSet).allocate r (g.getTag anAddress)
  pure (c.setSet r.theSet s, r', v)

/-- An access: an address, and the state in which a miss brings the block in. -/
structure Access where
  address : ℕ
  state : BasicState
  valid : state ≠ .invalid

/-- **One access to the array**: a hit is recorded; a miss allocates and sets the state, and
the block that is lost is the victim of the allocation, if that is valid. -/
def access (c : StdArray g) (x : Access) : Option (StdArray g × Option ℕ) :=
  let r := c.lookup x.address
  if r.isHit then some (c.recordAccess r, none)
  else do
    let (c, r, v) ← c.allocate r x.address
    pure (c.setState r x.state,
      if v.theBlock.isSome && v.theOrigState ≠ .invalid then some v.theBlockAddress else none)

/-- The state in which a lookup finds a block. -/
def stateOf (c : StdArray g) (anAddress : ℕ) : BasicState := c.state (c.lookup anAddress)

end StdArray

/-! ### Looking a block up -/

namespace SetLRU

variable {n : ℕ} {s : SetLRU n} {a : ℕ}

/-- An invalid way with a tag. -/
def Stale (theBlocks : ℕ → Block) (a w : ℕ) : Prop :=
  (theBlocks w).tag = a ∧ (theBlocks w).state.isValid = false

/-- **The loop of a lookup**: what it finds, and what it has seen then. -/
theorem lookupLoop_spec (theBlocks : ℕ → Block) (a : ℕ) (ways : List ℕ) (t : Option ℕ)
    (P : ℕ → Prop) (hways : ∀ w ∈ ways, P w) (ht : ∀ w, t = some w → P w ∧ Stale theBlocks a w) :
    match lookupLoop theBlocks a ways t with
    | some (w, true) => P w ∧ (theBlocks w).tag = a ∧ (theBlocks w).state.isValid = true
    | some (w, false) => P w ∧ Stale theBlocks a w ∧
        ∀ w' ∈ ways, (theBlocks w').tag = a → (theBlocks w').state.isValid = false
    | none => t = none ∧ ∀ w' ∈ ways, (theBlocks w').tag ≠ a := by
  induction ways generalizing t with
  | nil =>
    cases t with
    | none => exact ⟨rfl, nofun⟩
    | some w => exact ⟨(ht w rfl).1, (ht w rfl).2, nofun⟩
  | cons i ways ih =>
    have hrest : ∀ w ∈ ways, P w := fun w hw => hways w (mem_cons_of_mem _ hw)
    rw [lookupLoop]
    by_cases htag : (theBlocks i).tag = a
    · rw [if_pos htag]
      by_cases hv : (theBlocks i).state.isValid = true
      · rw [if_pos hv]
        exact ⟨hways i mem_cons_self, htag, hv⟩
      · rw [if_neg hv]
        have hstale : Stale theBlocks a i := ⟨htag, by simpa using hv⟩
        have := ih (some i) hrest (by
          rintro w ⟨rfl⟩
          exact ⟨hways _ mem_cons_self, hstale⟩)
        split at this
        · exact this
        · refine ⟨this.1, this.2.1, fun w' hw' htag' => ?_⟩
          rcases mem_cons.mp hw' with rfl | hw'
          · exact hstale.2
          · exact this.2.2 w' hw' htag'
        · exact absurd this.1 nofun
    · rw [if_neg htag]
      have := ih t hrest ht
      split at this
      · exact this
      · refine ⟨this.1, this.2.1, fun w' hw' htag' => ?_⟩
        rcases mem_cons.mp hw' with rfl | hw'
        · exact absurd htag' htag
        · exact this.2.2 w' hw' htag'
      · refine ⟨this.1, fun w' hw' => ?_⟩
        rcases mem_cons.mp hw' with rfl | hw'
        · exact htag
        · exact this.2 w' hw'

/-- **A lookup**: a valid block with the tag; or an invalid one, and then no valid one; or
none at all. -/
theorem lookupBlock_cases (s : SetLRU n) (a : ℕ) :
    (∃ w < n, s.lookupBlock a = some (w, true) ∧ (s.theBlocks w).tag = a ∧
        (s.theBlocks w).state.isValid = true) ∨
      (∃ w < n, s.lookupBlock a = some (w, false) ∧ Stale s.theBlocks a w ∧
        ∀ w' < n, (s.theBlocks w').tag = a → (s.theBlocks w').state.isValid = false) ∨
      (s.lookupBlock a = none ∧ ∀ w < n, (s.theBlocks w).tag ≠ a) := by
  have h := lookupLoop_spec s.theBlocks a (List.range n) none (· < n)
    (fun w hw => mem_range.mp hw) nofun
  rw [lookupBlock]
  split at h
  · rename_i w heq
    exact .inl ⟨w, h.1, heq, h.2⟩
  · rename_i w heq
    exact .inr (.inl ⟨w, h.1, heq, h.2.1, fun w' hw' => h.2.2 w' (mem_range.mpr hw')⟩)
  · rename_i heq
    exact .inr (.inr ⟨heq, fun w hw => h.2 w (mem_range.mpr hw)⟩)

/-! ### Writing blocks -/

@[simp]
theorem theBlocks_setBlock (s : SetLRU n) (w : ℕ) (b : Block) :
    (s.setBlock w b).theBlocks = update s.theBlocks w b :=
  rfl

@[simp]
theorem theBlocks_recordAccess (s : SetLRU n) (w : ℕ) :
    (s.recordAccess w).theBlocks = s.theBlocks := by
  rw [recordAccess]
  split
  · rfl
  · rfl

theorem setBlock_self (s : SetLRU n) (w : ℕ) : s.setBlock w (s.theBlocks w) = s := by
  rw [setBlock, update_eq_self]

theorem setBlock_setBlock (s : SetLRU n) (w : ℕ) (b b' : Block) :
    (s.setBlock w b).setBlock w b' = s.setBlock w b' := by
  simp only [setBlock, update_idem]

theorem setBlock_recordAccess (s : SetLRU n) (w : ℕ) (b : Block) :
    (s.recordAccess w).setBlock w b = (s.setBlock w b).recordAccess w := by
  rw [recordAccess, recordAccess]
  split
  · rfl
  · rfl

/-- **The victim of a set without protection** is the last in the order. -/
theorem pickVictim_eq (h : ∀ w, (s.theBlocks w).state.isProtected = false) (hn : 0 < n) :
    ∃ w < n, s.pickVictim = some (s, w) ∧ s.theMRUOrder.getLast? = some w := by
  obtain ⟨w, q, hq⟩ : ∃ w q, s.theMRUOrder.reverse = w :: q := by
    refine exists_cons_of_ne_nil fun hc => ?_
    have hlen := s.perm.length_eq
    rw [← length_reverse, hc, length_range] at hlen
    exact absurd hlen (Nat.ne_of_lt hn)
  have hw : w ∈ s.theMRUOrder := by
    rw [← mem_reverse, hq]
    exact mem_cons_self
  refine ⟨w, ?_, ?_, ?_⟩
  · rwa [s.perm.mem_iff, mem_range] at hw
  · have hr : s.replaceable w = true := by simp [replaceable, h w]
    rw [pickVictim, hq, find?_cons_of_pos hr]
    exact if_neg (by simp [h w])
  · rw [← head?_reverse, hq]
    rfl

/-! ### The order of use -/

/-- What the order of use tells of a block. -/
def slot (b : Block) : ℕ × Bool := (b.tag, b.state.isValid)

/-- **The order of use**: least recently used first. -/
def recency (s : SetLRU n) : List (ℕ × Bool) :=
  s.theMRUOrder.reverse.map fun w => slot (s.theBlocks w)

theorem mem_theMRUOrder {w : ℕ} : w ∈ s.theMRUOrder ↔ w < n := by
  rw [s.perm.mem_iff, mem_range]

theorem nodup_theMRUOrder (s : SetLRU n) : s.theMRUOrder.Nodup :=
  s.perm.nodup_iff.mpr nodup_range

theorem length_recency (s : SetLRU n) : s.recency.length = n := by
  rw [recency, length_map, length_reverse, s.perm.length_eq, length_range]

theorem mem_recency {x : ℕ × Bool} :
    x ∈ s.recency ↔ ∃ w < n, slot (s.theBlocks w) = x := by
  simp only [recency, mem_map, mem_reverse, mem_theMRUOrder]

/-- A block is written and its way becomes the most recently used. -/
theorem recency_setBlock_recordAccess {w : ℕ} (hw : w < n) (b : Block) :
    ∃ p q, s.recency = p ++ slot (s.theBlocks w) :: q ∧
      ((s.setBlock w b).recordAccess w).recency = p ++ q ++ [slot b] ∧
      (s.theMRUOrder.getLast? = some w → p = []) := by
  obtain ⟨p, q, hpq⟩ := append_of_mem (mem_theMRUOrder.mpr hw)
  have hnodup := s.nodup_theMRUOrder
  rw [hpq, nodup_middle, nodup_cons, mem_append] at hnodup
  have herase : (p ++ w :: q).erase w = p ++ q := by
    rw [erase_append_right _ fun hc => hnodup.1 (.inl hc), erase_cons_head]
  have hother : ∀ l : List ℕ, w ∉ l →
      l.map (fun w' => slot (update s.theBlocks w b w')) =
        l.map fun w' => slot (s.theBlocks w') := by
    intro l hl
    refine map_congr_left fun w' hw' => ?_
    have hne : w' ≠ w := fun hc => hl (hc ▸ hw')
    rw [update_of_ne hne]
  refine ⟨(q.reverse.map fun w' => slot (s.theBlocks w')),
    (p.reverse.map fun w' => slot (s.theBlocks w')), ?_, ?_, ?_⟩
  · rw [recency, hpq]
    simp
  · rw [recordAccess, dif_pos hw, recency, moveToHead]
    simp only [setBlock, hpq, herase, reverse_cons, reverse_append, map_append,
      map_cons, map_nil, update_self]
    rw [hother q.reverse (fun hc => hnodup.1 (.inr (mem_reverse.mp hc))),
      hother p.reverse (fun hc => hnodup.1 (.inl (mem_reverse.mp hc)))]
  · intro hlast
    rw [hpq, getLast?_append_cons] at hlast
    cases q with
    | nil => rfl
    | cons x q =>
      rw [getLast?_cons_cons] at hlast
      exact absurd (.inr (mem_of_getLast? hlast)) hnodup.1

end SetLRU

namespace StdArray

variable {g : Geometry} {c : StdArray g}

/-- The order of use of a set. -/
def recency (c : StdArray g) (i : ℕ) : List (ℕ × Bool) := (c.theSets i).recency

/-- No block is protected. -/
def Unprotected (c : StdArray g) : Prop :=
  ∀ i w, ((c.theSets i).theBlocks w).state.isProtected = false

theorem recency_setSet (c : StdArray g) (i : ℕ) (s : SetLRU g.theAssoc) :
    (c.setSet i s).recency = update c.recency i s.recency := by
  funext j
  by_cases hj : j = i
  · subst hj
    simp only [recency, setSet, update_self]
  · simp only [recency, setSet, update_of_ne hj]

theorem Unprotected.setSet (h : c.Unprotected) {i : ℕ} {s : SetLRU g.theAssoc}
    (hs : ∀ w, (s.theBlocks w).state.isProtected = false) : (c.setSet i s).Unprotected := by
  intro j w
  by_cases hj : j = i
  · subst hj
    simp only [StdArray.setSet, update_self]
    exact hs w
  · simp only [StdArray.setSet, update_of_ne hj]
    exact h j w

theorem uses_of_setBlock {i w : ℕ} {b : Block} (hw : w < g.theAssoc)
    (h : c.Unprotected) (hb : b.state.isProtected = false) :
    ∃ c' p q, c' = c.setSet i (((c.theSets i).setBlock w b).recordAccess w) ∧ c'.Unprotected ∧
      c.recency i = p ++ SetLRU.slot ((c.theSets i).theBlocks w) :: q ∧
      c'.recency = update c.recency i (p ++ q ++ [SetLRU.slot b]) ∧
      ((c.theSets i).theMRUOrder.getLast? = some w → p = []) := by
  obtain ⟨p, q, hpq, hpq', hlast⟩ := SetLRU.recency_setBlock_recordAccess (s := c.theSets i) hw b
  refine ⟨_, p, q, rfl, h.setSet fun w' => ?_, hpq, ?_, hlast⟩
  · rw [SetLRU.theBlocks_recordAccess, SetLRU.theBlocks_setBlock]
    by_cases hw' : w' = w
    · subst hw'
      rw [update_self]
      exact hb
    · rw [update_of_ne hw']
      exact h i w'
  · rw [recency_setSet, hpq']

theorem setSet_setSet (c : StdArray g) (i : ℕ) (s s' : SetLRU g.theAssoc) :
    (c.setSet i s).setSet i s' = c.setSet i s' := by
  simp only [setSet, update_idem]

@[simp]
theorem theSets_setSet_self (c : StdArray g) (i : ℕ) (s : SetLRU g.theAssoc) :
    (c.setSet i s).theSets i = s :=
  update_self _ _ _

theorem access_of_hit {x : Access} {w : ℕ}
    (hl : (c.theSets (g.getSet x.address)).lookupBlock (g.getTag x.address) = some (w, true)) :
    c.access x = some (c.setSet (g.getSet x.address)
      ((c.theSets (g.getSet x.address)).recordAccess w), none) := by
  rw [access, lookup, hl]
  rfl

theorem access_of_stale {x : Access} {w : ℕ}
    (hl : (c.theSets (g.getSet x.address)).lookupBlock (g.getTag x.address) = some (w, false))
    (ht : ((c.theSets (g.getSet x.address)).theBlocks w).tag = g.getTag x.address) :
    c.access x = some (c.setSet (g.getSet x.address)
      (((c.theSets (g.getSet x.address)).setBlock w ⟨g.getTag x.address,
        ((c.theSets (g.getSet x.address)).theBlocks w).state.assign x.state⟩).recordAccess w),
      none) := by
  rw [access, lookup, hl]
  simp only [allocate, SetLRU.allocate, ht, if_true, Bool.false_eq_true, if_false,
    Option.bind_eq_bind, Option.bind_some, Option.pure_def, setState, setSet_setSet,
    theSets_setSet_self, SetLRU.theBlocks_recordAccess, SetLRU.setBlock_recordAccess]
  rfl

theorem access_of_none {x : Access} {w : ℕ}
    (hl : (c.theSets (g.getSet x.address)).lookupBlock (g.getTag x.address) = none)
    (hp : (c.theSets (g.getSet x.address)).pickVictim =
      some (c.theSets (g.getSet x.address), w)) :
    c.access x = some (c.setSet (g.getSet x.address)
      (((c.theSets (g.getSet x.address)).setBlock w ⟨g.getTag x.address,
        ((c.theSets (g.getSet x.address)).theBlocks w).state.assign x.state⟩).recordAccess w),
      (Lib.givenUp (· = true)
        (SetLRU.slot ((c.theSets (g.getSet x.address)).theBlocks w))).map Prod.fst) := by
  rw [access, lookup, hl]
  simp only [allocate, SetLRU.allocate, hp, Bool.false_eq_true, if_false, Option.bind_eq_bind,
    Option.bind_some, Option.pure_def, setState, setSet_setSet, theSets_setSet_self,
    SetLRU.theBlocks_recordAccess, SetLRU.setBlock_recordAccess, SetLRU.theBlocks_setBlock,
    SetLRU.setBlock_setBlock, update_self]
  congr 2
  rw [Lib.givenUp, SetLRU.slot, BasicCacheState.isValid, apply_ite (Option.map Prod.fst)]
  rfl

/-- **Without protection the array replaces the least recently used.** -/
theorem replaces (g : Geometry) :
    Lib.Replaces g.theAssoc (fun x : Access => g.getTag x.address) g.getSet
      (Unprotected (g := g)) recency access where
  uses c x h := by
    have hset : g.getSet (g.getTag x.address) = g.getSet x.address := g.getSet_getTag _
    have hz : x.state ≠ .invalid := x.valid
    rw [hset]
    set i := g.getSet x.address with hi
    rcases (c.theSets i).lookupBlock_cases (g.getTag x.address) with
      ⟨w, hw, hl, htag, hv⟩ | ⟨w, hw, hl, ⟨htag, hv⟩, hno⟩ | ⟨hl, hno⟩
    · -- a hit
      obtain ⟨c', p, q, hc', hun, hr, hr', -⟩ :=
        uses_of_setBlock (i := i) (b := (c.theSets i).theBlocks w) hw h (h i w)
      refine ⟨c', _, none, ?_, hun, ?_, hr'⟩
      · rw [access_of_hit hl, hc', SetLRU.setBlock_self]
        rfl
      · rw [hr, SetLRU.slot, htag, hv]
        exact .hit rfl
    · -- an invalid block with the tag
      set b : Block := ⟨g.getTag x.address, ((c.theSets i).theBlocks w).state.assign x.state⟩
        with hb
      obtain ⟨c', p, q, hc', hun, hr, hr', -⟩ :=
        uses_of_setBlock (i := i) (b := b) hw h (h i w)
      refine ⟨c', _, none, ?_, hun, ?_, hr'⟩
      · rw [access_of_stale hl htag, hc']
        rfl
      · have hmem : ∀ y, y = true → (g.getTag x.address, y) ∉ c.recency i := by
          rintro y rfl hy
          obtain ⟨w', hw', hs⟩ := SetLRU.mem_recency.mp hy
          rw [SetLRU.slot, Prod.mk.injEq] at hs
          rw [hno w' hw' hs.1] at hs
          exact absurd hs.2 nofun
        rw [hr, SetLRU.slot, htag, hv] at hmem ⊢
        have hslot : SetLRU.slot b = (g.getTag x.address, true) := by
          simp [SetLRU.slot, hb, BasicCacheState.assign, BasicCacheState.isValid, hz]
        rw [hslot]
        exact .refill hmem
    · -- a victim
      obtain ⟨w, hw, hpick, hlast⟩ :=
        SetLRU.pickVictim_eq (s := c.theSets i) (h i) g.assoc_pos
      set b : Block := ⟨g.getTag x.address, ((c.theSets i).theBlocks w).state.assign x.state⟩
        with hb
      obtain ⟨c', p, q, hc', hun, hr, hr', hp⟩ :=
        uses_of_setBlock (i := i) (b := b) hw h (h i w)
      obtain rfl := hp hlast
      refine ⟨c', _, Lib.givenUp (· = true) (SetLRU.slot ((c.theSets i).theBlocks w)), ?_, hun,
        ?_, hr'⟩
      · rw [access_of_none hl hpick, hc']
      · have hnew : g.getTag x.address ∉ (c.recency i).map Prod.fst := by
          intro hc
          obtain ⟨y, hy, hyt⟩ := mem_map.mp hc
          obtain ⟨w', hw', rfl⟩ := SetLRU.mem_recency.mp hy
          exact hno w' hw' hyt
        have hlen : g.theAssoc ≤ (c.recency i).length :=
          Nat.le_of_eq (c.theSets i).length_recency.symm
        rw [hr, nil_append] at hnew hlen ⊢
        have hslot : SetLRU.slot b = (g.getTag x.address, true) := by
          simp [SetLRU.slot, hb, BasicCacheState.assign, BasicCacheState.isValid, hz]
        rw [hslot, nil_append]
        exact .replace hnew hlen

end StdArray

end Cache

end Flexus
