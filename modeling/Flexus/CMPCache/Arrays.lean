import Flexus.CMPCache.Buffers
import Mathlib.Algebra.Group.Nat.Defs
import Mathlib.Data.Nat.Bits

/-!
# Directories and cache arrays of a bank

A bank is written against two abstract classes, a directory
(`AbstractDirectory.hpp`) and a cache array (`AbstractArray.hpp`). What it uses of
them is kept here as a record of operations, so that the bank can be built over any
of their implementations: those that the configurations of the simulators choose are
the infinite directory (`InfiniteDirectory.hpp`), the set-associative one
(`StdDirectory.hpp`) and the set-associative array with LRU replacement
(`StdArray.hpp`).

A lookup of the source returns a pointer to the place of a block. The operations
below take the address instead, and find the same place by it.
-/

namespace Flexus

open Function Lib

namespace CMPCache

/-- `AbstractDirectory`, over an arbitrary type of contents. -/
structure AbstractDirectory (δ : Type) where
  /-- The directory of a bank that starts empty. -/
  init : δ
  /-- The sharers of a block that has an entry. -/
  lookup : δ → ℕ → Option SimpleDirectoryState
  /-- `setState`, to which adding, removing and setting a sharer come down. -/
  setState : δ → ℕ → SimpleDirectoryState → δ
  setProtected : δ → ℕ → Bool → δ
  /-- `allocate`: the new contents, and the victim that has to go to the evict buffer;
  nothing when the set has no room. -/
  allocate : δ → ℕ → SimpleDirectoryState → Option (δ × Option (ℕ × SimpleDirectoryState))
  /-- Whether a lookup result counts as found once its block has been allocated. -/
  foundAfterAllocate : Bool
  sameSet : ℕ → ℕ → Bool
  idleWorkReady : δ → Bool := fun _ => false
  doIdleWork : δ → ℕ := fun _ => 0

/-- `AbstractArray`, over an arbitrary type of contents. -/
structure AbstractArray (γ : Type) where
  /-- The array of a bank that starts empty. -/
  init : γ
  blockAddress : ℕ → ℕ
  /-- The address of a block is the address of a block. -/
  blockAddress_idem : ∀ a, blockAddress (blockAddress a) = blockAddress a
  /-- The state a lookup of an address reports. -/
  state : γ → ℕ → CacheState
  /-- `setState` of the block a lookup has found or allocated. -/
  setState : γ → ℕ → CacheState → γ
  recordAccess : γ → ℕ → γ
  invalidateBlock : γ → ℕ → γ
  /-- `allocate`: the new contents, in which the block has a place in the default
  state, and the state and address of its victim. -/
  allocate : γ → ℕ → Except Fault (γ × CacheState × ℕ)
  evictionResourcePressure : γ → Bool := fun _ => false
  evictionResourcesAvailable : γ → Bool := fun _ => true
  reserveEvictionResource : γ → ℤ → γ := fun c _ => c
  getPreemptiveEviction : γ → γ × CacheState × ℕ := fun c => (c, .invalid, 0)

/-! ### The infinite directory -/

/-- An entry of a directory: the sharers, and whether it may be replaced. -/
structure DirEntry where
  tag : ℕ
  isProtected : Bool
  state : SimpleDirectoryState
  deriving DecidableEq

/-- **`InfiniteDirectory`**: an entry for every block that has been asked for. A
lookup that allocates its block goes on not to count as found. -/
def infiniteDirectory : AbstractDirectory (List DirEntry) where
  init := []
  lookup l a := (Keyed.lookup DirEntry.tag l a).map DirEntry.state
  setState l a d := Keyed.update DirEntry.tag l a fun e => { e with state := d }
  setProtected l a p := Keyed.update DirEntry.tag l a fun e => { e with isProtected := p }
  allocate l a d :=
    if (Keyed.lookup DirEntry.tag l a).isSome then none
    else some (l ++ [⟨a, false, d⟩], none)
  foundAfterAllocate := false
  sameSet _ _ := false

/-! ### Where a set-associative structure keeps an address -/

/-- The geometry of a bank, as `init` of `StdArray` and `StdDirectory` computes it. -/
structure Geometry where
  theNumSets : ℕ
  theAssociativity : ℕ
  theBlockSize : ℕ
  theBanks : ℕ := 1
  theBankInterleaving : ℕ
  theGroups : ℕ := 1
  theGroupInterleaving : ℕ

namespace Geometry

variable (g : Geometry)

def lowBits : ℕ := g.theBankInterleaving.log2 - g.theBlockSize.log2

/-- The bits between the bank and the group, as far as the index reaches. -/
def midBits : ℕ :=
  let midBits := g.theGroupInterleaving.log2 - g.theBankInterleaving.log2 - g.theBanks.log2
  if midBits + g.lowBits > g.theNumSets.log2 then g.theNumSets.log2 - g.lowBits else midBits

def highBits : ℕ := g.theNumSets.log2 - g.midBits - g.lowBits

/-- `blockAddress`, and `makeTag` of the directory. -/
def blockAddress (a : ℕ) : ℕ := a - a % g.theBlockSize

theorem blockAddress_blockAddress (a : ℕ) :
    g.blockAddress (g.blockAddress a) = g.blockAddress a := by
  have h : (a - a % g.theBlockSize) % g.theBlockSize = 0 :=
    Nat.mod_eq_zero_of_dvd (Nat.dvd_sub_mod a)
  rw [blockAddress, blockAddress, h, Nat.sub_zero]

/-- `makeSet`, without the skew. -/
def makeSet (a : ℕ) : ℕ :=
  let setLowMask := 2 ^ g.lowBits - 1
  let setMidMask := (2 ^ g.midBits - 1) <<< g.lowBits
  let setHighMask := (2 ^ g.highBits - 1) <<< (g.midBits + g.lowBits)
  let setLowShift := g.theBlockSize.log2
  let setMidShift := g.theBanks.log2 + g.theBlockSize.log2
  let setHighShift := g.theGroups.log2 + g.theBanks.log2 + g.theBlockSize.log2
  ((a >>> setLowShift) &&& setLowMask) ||| ((a >>> setMidShift) &&& setMidMask) |||
    ((a >>> setHighShift) &&& setHighMask)

end Geometry

/-! ### The set-associative directory -/

/-- The sets of a directory. -/
abbrev DirSets := ℕ → List DirEntry

/-- `Set::pickVictim`: the unprotected way with the fewest sharers, the first of
them. -/
def pickDirVictim (ways : List DirEntry) : Option ℕ :=
  (ways.zipIdx.foldl (fun best (e, i) =>
    if e.isProtected then best
    else match best with
      | none => some (i, e.state.countSharers)
      | some (j, n) => if e.state.countSharers < n then some (i, e.state.countSharers)
        else some (j, n)) none).map Prod.fst

/-- **`StdDirectory`**: the ways of a set all start with the tag zero. -/
def stdDirectory (g : Geometry) (theNumSharers : ℕ) : AbstractDirectory DirSets where
  init _ := List.replicate g.theAssociativity ⟨0, false, .reset theNumSharers⟩
  lookup d a :=
    (Keyed.lookup DirEntry.tag (d (g.makeSet a)) (g.blockAddress a)).map DirEntry.state
  setState d a s := update d (g.makeSet a)
    (Keyed.update DirEntry.tag (d (g.makeSet a)) (g.blockAddress a)
      fun e => { e with state := s })
  setProtected d a p := update d (g.makeSet a)
    (Keyed.update DirEntry.tag (d (g.makeSet a)) (g.blockAddress a)
      fun e => { e with isProtected := p })
  allocate d a s :=
    let ways := d (g.makeSet a)
    match pickDirVictim ways with
    | none => none
    | some i =>
      let v := ways.getD i ⟨0, false, .reset theNumSharers⟩
      some (update d (g.makeSet a) (ways.set i { v with tag := a, state := s }),
        if v.state.noSharers then none else some (v.tag, v.state))
  foundAfterAllocate := true
  sameSet a b := g.makeSet a == g.makeSet b

/-! ### The set-associative array -/

/-- `Block`. -/
structure ArrayBlock where
  tag : ℕ
  state : CacheState
  deriving DecidableEq

/-- `SetLRU`: the ways, and their numbers from the most to the least recently used. -/
structure ArraySet where
  theBlocks : List ArrayBlock
  theMRUOrder : List ℕ
  deriving DecidableEq

namespace ArraySet

variable (s : ArraySet)

/-- `lookupBlock`: the way that holds the block, or else the last one with its tag. -/
def wayOf (a : ℕ) : Option ℕ :=
  match s.theBlocks.findIdx? fun b => b.tag == a && b.state != .invalid with
  | some i => some i
  | none => ((List.range s.theBlocks.length).filter fun i =>
      (s.theBlocks[i]?.map ArrayBlock.tag) == some a).getLast?

/-- The state of a way, the default one where there is no such way. -/
def stateAt (i : ℕ) : CacheState := (s.theBlocks[i]?.map ArrayBlock.state).getD .invalid

/-- `moveToHead`. -/
def moveToHead (i : ℕ) : ArraySet := { s with theMRUOrder := i :: s.theMRUOrder.erase i }

/-- `moveToTail`. -/
def moveToTail (i : ℕ) : ArraySet := { s with theMRUOrder := s.theMRUOrder.erase i ++ [i] }

/-- `Set::allocate`: an invalid way with the right tag is taken as it is; otherwise
the least recently used way gives up its block. -/
def allocate (a : ℕ) : Except Fault (ArraySet × CacheState × ℕ) :=
  match s.wayOf a with
  | some i => .ok (s.moveToHead i, .invalid, a)
  | none =>
    match s.theMRUOrder.getLast? with
    | none => .error .noVictim
    | some i =>
      match s.theBlocks[i]? with
      | none => .error .noVictim
      | some v =>
        .ok ({ s with theBlocks := s.theBlocks.set i ⟨a, .invalid⟩ }.moveToHead i, v.state, v.tag)

/-- A change of the set at the way of a block. -/
def atWay (a : ℕ) (f : ArraySet → ℕ → ArraySet) : ArraySet :=
  match s.wayOf a with
  | none => s
  | some i => f s i

end ArraySet

/-- **`StdArray`** with LRU replacement. -/
def stdArray (g : Geometry) : AbstractArray (ℕ → ArraySet) where
  init _ := ⟨List.replicate g.theAssociativity ⟨0, .invalid⟩, List.range g.theAssociativity⟩
  blockAddress := g.blockAddress
  blockAddress_idem := g.blockAddress_blockAddress
  state c a :=
    let s := c (g.makeSet a)
    match s.wayOf (g.blockAddress a) with
    | none => .invalid
    | some i => s.stateAt i
  setState c a st := update c (g.makeSet a)
    ((c (g.makeSet a)).atWay (g.blockAddress a) fun s i =>
      { s with theBlocks := s.theBlocks.set i ⟨g.blockAddress a, st⟩ })
  recordAccess c a := update c (g.makeSet a)
    ((c (g.makeSet a)).atWay (g.blockAddress a) ArraySet.moveToHead)
  invalidateBlock c a := update c (g.makeSet a)
    ((c (g.makeSet a)).atWay (g.blockAddress a) ArraySet.moveToTail)
  allocate c a :=
    match (c (g.makeSet a)).allocate (g.blockAddress a) with
    | .error f => .error f
    | .ok (s, v) => .ok (update c (g.makeSet a) s, v)

end CMPCache

end Flexus
