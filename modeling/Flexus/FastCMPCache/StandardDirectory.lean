import Flexus.FastCMPCache.Directory
import Flexus.Lib.Machine
import Mathlib.Data.Nat.Log

/-!
# The set-associative directory of the shared functional cache

`StandardDirectory` (`components/FastCMPCache/StandardDirectory.cpp`) keeps its entries in sets
of a fixed number of ways. The order of the ways is the order of use: an entry that is looked
up moves to the front of its set. A lookup that finds no entry for the address gives the entry
of a victim away, and reports the address and the sharers that the victim had.

An entry (`components/FastCMPCache/BlockDirectoryEntry.hpp`) has an address, a sharing vector
and the sharing state. The updates of an entry go through a wrapper that refers to it by its
place, a set and a way; what stands in that place when an update comes is what the update
changes.
-/

namespace Flexus

open Function

namespace FastCMPCache

open SharingState

/-! ### Entries -/

/-- `BlockDirectoryEntry`. -/
structure BlockDirectoryEntry where
  /-- The address of the block. -/
  theAddress : ℕ
  /-- The sharers. -/
  theSharers : SharingVector
  /-- The sharing state, kept beside the vector. -/
  theState : SharingState

namespace BlockDirectoryEntry

/-- The entry of an address before it has sharers. -/
def new (addr : ℕ) : BlockDirectoryEntry := ⟨addr, .none, zeroSharers⟩

/-- `addSharer`. -/
def addSharer (e : BlockDirectoryEntry) (index : ℕ) : Except Fault BlockDirectoryEntry := do
  let sharers ← e.theSharers.addSharer index
  pure { e with
    theSharers := sharers
    theState := if sharers.countSharers = 1 then oneSharer else manySharers }

/-- `makeExclusive`: the index is the only sharer already. -/
def makeExclusive (e : BlockDirectoryEntry) (index : ℕ) : Except Fault BlockDirectoryEntry := do
  let b ← e.theSharers.isSharer index
  if ¬b then throw .notSharer
  if e.theSharers.countSharers ≠ 1 then throw .notOnlySharer
  pure { e with theState := oneSharer }

/-- `removeSharer`. -/
def removeSharer (e : BlockDirectoryEntry) (index : ℕ) : Except Fault BlockDirectoryEntry := do
  let sharers ← e.theSharers.removeSharer index
  pure { e with
    theSharers := sharers
    theState :=
      if sharers.countSharers = 0 then zeroSharers
      else if sharers.countSharers = 1 then oneSharer
      else e.theState }

/-- `reset`. -/
def reset (_e : BlockDirectoryEntry) (addr : ℕ) : BlockDirectoryEntry := new addr

/-- **The state of an entry agrees with the number of its sharers.** -/
def Agrees (e : BlockDirectoryEntry) : Prop := e.theState = sharingOf e.theSharers.countSharers

variable {e e' : BlockDirectoryEntry} {index : ℕ}

theorem new_agrees (addr : ℕ) : (new addr).Agrees := rfl

theorem addSharer_spec (h : e.addSharer index = .ok e') : index < maxNumSharers ∧
    e'.theAddress = e.theAddress ∧
    e'.theSharers.sharers = insert index e.theSharers.sharers ∧ e'.Agrees := by
  rw [addSharer] at h
  by_cases hi : index < maxNumSharers
  · obtain ⟨w, hw, hws⟩ := e.theSharers.addSharer_ok hi
    rw [hw] at h
    cases h
    refine ⟨hi, rfl, hws, ?_⟩
    have hne : w.countSharers ≠ 0 := by
      rw [SharingVector.countSharers, hws]
      exact Finset.card_ne_zero_of_mem (Finset.mem_insert_self _ _)
    rw [Agrees, sharingOf_eq_ite, if_neg hne]
  · rw [SharingVector.addSharer_error hi] at h
    cases h

theorem makeExclusive_spec (h : e.makeExclusive index = .ok e') :
    e'.theAddress = e.theAddress ∧ e'.theSharers = e.theSharers ∧ e'.Agrees := by
  simp only [makeExclusive, bind, Except.bind] at h
  split at h
  · cases h
  · split at h
    · cases h
    · split at h
      · cases h
      · rename_i hcount
        cases h
        refine ⟨rfl, rfl, ?_⟩
        rw [Agrees, not_not.mp hcount]
        rfl

theorem sharers_removeSharer (h : e.removeSharer index = .ok e') :
    e'.theSharers.sharers = e.theSharers.sharers.erase index := by
  rw [removeSharer] at h
  by_cases hi : index < maxNumSharers
  · obtain ⟨w, hw, hws⟩ := e.theSharers.removeSharer_ok hi
    rw [hw] at h
    cases h
    exact hws
  · rw [SharingVector.removeSharer, if_neg hi] at h
    cases h

theorem theAddress_removeSharer (h : e.removeSharer index = .ok e') :
    e'.theAddress = e.theAddress := by
  simp only [removeSharer, bind, Except.bind] at h
  split at h
  · cases h
  · cases h
    rfl

theorem removeSharer_spec (hag : e.Agrees) (h : e.removeSharer index = .ok e') :
    e'.theAddress = e.theAddress ∧
    e'.theSharers.sharers = e.theSharers.sharers.erase index ∧ e'.Agrees := by
  rw [removeSharer] at h
  by_cases hi : index < maxNumSharers
  · obtain ⟨w, hw, hws⟩ := e.theSharers.removeSharer_ok hi
    rw [hw] at h
    cases h
    refine ⟨rfl, hws, ?_⟩
    have hle : w.countSharers ≤ e.theSharers.countSharers := by
      rw [SharingVector.countSharers, hws]
      exact Finset.card_le_card (Finset.erase_subset _ _)
    have hst : e.theState = sharingOf e.theSharers.countSharers := hag
    show (if w.countSharers = 0 then zeroSharers else if w.countSharers = 1 then oneSharer
      else e.theState) = sharingOf w.countSharers
    rw [sharingOf_eq_ite w.countSharers]
    split
    · rfl
    · split
      · rfl
      · rw [hst, sharingOf_eq_many]
        omega
  · rw [SharingVector.removeSharer, if_neg hi] at h
    cases h

end BlockDirectoryEntry

/-! ### Sets -/

/-- `theReplPolicy`. -/
inductive ReplPolicy
  | lruRepl
  | minSharers
  deriving DecidableEq

/-- The configuration of a directory. -/
structure DirectoryConfig where
  theNumSets : ℕ
  theAssociativity : ℕ
  theBlockSize : ℕ
  theSkewSet : Bool
  theSpecialInterleaving : Bool
  theReplPolicy : ReplPolicy
  sets_pos : 0 < theNumSets
  assoc_pos : 0 < theAssociativity

namespace DirectoryConfig

variable (cfg : DirectoryConfig)

/-- `theSetShift`. -/
def theSetShift : ℕ := Nat.log2 cfg.theBlockSize

/-- `theSetMask`. -/
def theSetMask : ℕ := cfg.theNumSets - 1

/-- `theSkewShift`: a physical address has 34 usable bits. -/
def theSkewShift : ℕ := 34 - Nat.log2 cfg.theNumSets

/-- `get_set`. -/
def getSet (addr : ℕ) : ℕ :=
  if cfg.theSpecialInterleaving then
    let index := addr >>> cfg.theSetShift
    let bank := (index &&& 3) ||| ((index &&& 4) <<< 1) ||| ((index &&& 64) >>> 4) |||
      ((index &&& 0x180) >>> 3)
    let set := ((index >>> 9) <<< 9) ||| ((index &&& 0x38) <<< 3)
    if cfg.theSkewSet then
      ((set ^^^ (((addr >>> cfg.theSkewShift) >>> 6) <<< 6)) ||| bank) &&& cfg.theSetMask
    else (set ||| bank) &&& cfg.theSetMask
  else if cfg.theSkewSet then
    ((addr >>> cfg.theSetShift) ^^^ (addr >>> cfg.theSkewShift)) &&& cfg.theSetMask
  else (addr >>> cfg.theSetShift) &&& cfg.theSetMask

variable {cfg}

end DirectoryConfig

/-- The entries of a set, in the order of their ways. -/
abbrev DirectorySet := List BlockDirectoryEntry

namespace DirectorySet

/-- `std::rotate` of the ways up to the given one: its entry moves to the front. -/
def moveToFront (l : DirectorySet) (way : ℕ) : DirectorySet :=
  match l[way]? with
  | some e => e :: l.eraseIdx way
  | none => l

/-- The victim that the loop of `findOrCreateEntry` prefers, with the number of its sharers:
the last entry without sharers, or the first one with the fewest. -/
def preferred (policy : ReplPolicy) (best : Option (ℕ × ℕ)) (x : BlockDirectoryEntry × ℕ) :
    Option (ℕ × ℕ) :=
  match policy with
  | .lruRepl => if x.1.theState = zeroSharers then some (x.2, 0) else best
  | .minSharers =>
    match best with
    | none => some (x.2, x.1.theSharers.countSharers)
    | some b =>
      if x.1.theSharers.countSharers < b.2 then some (x.2, x.1.theSharers.countSharers)
      else best

/-- `min_way`: the last way, if the loop prefers none. -/
def minWay (policy : ReplPolicy) (l : DirectorySet) : ℕ :=
  match l.zipIdx.foldl (preferred policy) none with
  | some b => b.1
  | none => l.length - 1

/-- `findOrCreateEntry`: the set and the way of the entry, which is the entry of the address
or that of a victim. -/
def findOrCreateEntry (policy : ReplPolicy) (l : DirectorySet) (addr : ℕ) (makeLru : Bool) :
    DirectorySet × ℕ :=
  let way := (l.findIdx? fun e => e.theAddress = addr).getD (minWay policy l)
  if makeLru then (moveToFront l way, 0) else (l, way)

variable {l : DirectorySet} {policy : ReplPolicy} {way : ℕ}

theorem moveToFront_perm (l : DirectorySet) (way : ℕ) : (moveToFront l way).Perm l := by
  rw [moveToFront]
  split
  · rename_i e he
    obtain ⟨hlt, rfl⟩ := List.getElem?_eq_some_iff.mp he
    exact List.getElem_cons_eraseIdx_perm hlt
  · exact .refl _

theorem findOrCreateEntry_perm (addr : ℕ) (makeLru : Bool) :
    (findOrCreateEntry policy l addr makeLru).1.Perm l := by
  rw [findOrCreateEntry]
  split
  · exact moveToFront_perm l _
  · exact .refl _

end DirectorySet

/-! ### The directory -/

/-- `StandardDirectory`: `theDirectory`, every set of which has all its ways. -/
structure StandardDirectory (cfg : DirectoryConfig) where
  theDirectory : ℕ → DirectorySet
  length_eq : ∀ i, (theDirectory i).length = cfg.theAssociativity

/-- `BlockEntryWrapper`: the place of an entry. -/
structure BlockEntryWrapper where
  set : ℕ
  way : ℕ
  deriving DecidableEq

namespace StandardDirectory

variable {cfg : DirectoryConfig}

/-- A directory after `initialize`. -/
def empty (cfg : DirectoryConfig) : StandardDirectory cfg where
  theDirectory _ := List.replicate cfg.theAssociativity (.new 0)
  length_eq _ := List.length_replicate

/-- The directory with the entries of a set in another order. -/
def setRow (d : StandardDirectory cfg) (i : ℕ) (l : DirectorySet)
    (h : l.length = cfg.theAssociativity) : StandardDirectory cfg where
  theDirectory := update d.theDirectory i l
  length_eq j := by
    by_cases hj : j = i
    · subst hj
      rw [update_self]
      exact h
    · rw [update_of_ne hj]
      exact d.length_eq j

@[simp]
theorem theDirectory_setRow (d : StandardDirectory cfg) (i : ℕ) (l : DirectorySet)
    (h : l.length = cfg.theAssociativity) :
    (d.setRow i l h).theDirectory = update d.theDirectory i l := rfl

/-- The directory with another entry in a place. -/
def setEntry (d : StandardDirectory cfg) (w : BlockEntryWrapper) (e : BlockDirectoryEntry) :
    StandardDirectory cfg :=
  d.setRow w.set ((d.theDirectory w.set).set w.way e) (by
    rw [List.length_set]
    exact d.length_eq w.set)

/-- The entry in a place. -/
def block (d : StandardDirectory cfg) (w : BlockEntryWrapper) : Option BlockDirectoryEntry :=
  (d.theDirectory w.set)[w.way]?

/-- `findOrCreateEntry`. -/
def findOrCreateEntry (d : StandardDirectory cfg) (addr : ℕ) (makeLru : Bool) :
    StandardDirectory cfg × BlockEntryWrapper :=
  let r := DirectorySet.findOrCreateEntry cfg.theReplPolicy
    (d.theDirectory (cfg.getSet addr)) addr makeLru
  (d.setRow (cfg.getSet addr) r.1 (by
    rw [(DirectorySet.findOrCreateEntry_perm addr makeLru).length_eq]
    exact d.length_eq _), ⟨cfg.getSet addr, r.2⟩)

/-- `lookup`: the entry of the address, and the address and the sharers of the victim whose
entry was given away, which `theInvalidateAction` is bound to. -/
def lookup (d : StandardDirectory cfg) (addr : ℕ) (isEvictType : Bool) :
    StandardDirectory cfg × BlockEntryWrapper × Option (ℕ × SharingVector) :=
  let (d, w) := d.findOrCreateEntry addr !isEvictType
  match d.block w with
  | some e =>
    if e.theAddress = addr then (d, w, none)
    else (d.setEntry w (e.reset addr), w, some (e.theAddress, e.theSharers))
  | none => (d, w, none)

/-- `snoopLookup`: the entry of the address, if there is one. -/
def snoopLookup (d : StandardDirectory cfg) (addr : ℕ) : Option BlockEntryWrapper :=
  let (d, w) := d.findOrCreateEntry addr false
  match d.block w with
  | some e => if e.theAddress = addr then some w else none
  | none => none

/-- An update of the entry in a place. -/
def modifyEntry (d : StandardDirectory cfg) (w : BlockEntryWrapper)
    (f : BlockDirectoryEntry → Except Fault BlockDirectoryEntry) :
    Except Fault (StandardDirectory cfg) :=
  match d.block w with
  | some e =>
    match f e with
    | .ok e => .ok (d.setEntry w e)
    | .error f => .error f
  | none => .error .danglingBlock

/-- `addSharer`. -/
def addSharer (d : StandardDirectory cfg) (index : ℕ) (w : BlockEntryWrapper) :
    Except Fault (StandardDirectory cfg) :=
  d.modifyEntry w fun e => e.addSharer index

/-- `addExclusiveSharer`. -/
def addExclusiveSharer (d : StandardDirectory cfg) (index : ℕ) (w : BlockEntryWrapper) :
    Except Fault (StandardDirectory cfg) :=
  d.modifyEntry w fun e => e.addSharer index >>= fun e => e.makeExclusive index

/-- `removeSharer`, which is `failedSnoop` as well. -/
def removeSharer (d : StandardDirectory cfg) (index : ℕ) (w : BlockEntryWrapper) :
    Except Fault (StandardDirectory cfg) :=
  d.modifyEntry w fun e => e.removeSharer index

/-- `makeSharerExclusive`. -/
def makeSharerExclusive (d : StandardDirectory cfg) (index : ℕ) (w : BlockEntryWrapper) :
    Except Fault (StandardDirectory cfg) :=
  d.modifyEntry w fun e => e.makeExclusive index

/-! ### Runs -/

/-- The calls that a directory takes. -/
inductive Event
  | lookup (addr : ℕ) (isEvictType : Bool)
  | addSharer (index : ℕ) (w : BlockEntryWrapper)
  | addExclusiveSharer (index : ℕ) (w : BlockEntryWrapper)
  | removeSharer (index : ℕ) (w : BlockEntryWrapper)
  | makeSharerExclusive (index : ℕ) (w : BlockEntryWrapper)
  deriving DecidableEq

/-- What a call does to the directory. -/
def step (d : StandardDirectory cfg) : Event → Except Fault (StandardDirectory cfg)
  | .lookup addr isEvictType => .ok (d.lookup addr isEvictType).1
  | .addSharer index w => d.addSharer index w
  | .addExclusiveSharer index w => d.addExclusiveSharer index w
  | .removeSharer index w => d.removeSharer index w
  | .makeSharerExclusive index w => d.makeSharerExclusive index w

/-- A directory and the calls that it takes. -/
def machine (cfg : DirectoryConfig) : Lib.Machine (StandardDirectory cfg) Event Fault where
  init := empty cfg
  step := step

/-- Every entry of the directory satisfies a predicate, which may depend on its set. -/
def AllIn (P : ℕ → BlockDirectoryEntry → Prop) (d : StandardDirectory cfg) : Prop :=
  ∀ i, ∀ e ∈ d.theDirectory i, P i e

/-- Every entry of the directory satisfies a predicate. -/
def All (P : BlockDirectoryEntry → Prop) (d : StandardDirectory cfg) : Prop :=
  ∀ i, ∀ e ∈ d.theDirectory i, P e

section AllIn

variable {d d' : StandardDirectory cfg} {P : ℕ → BlockDirectoryEntry → Prop}
  {w : BlockEntryWrapper}

theorem AllIn.empty (h : ∀ i, P i (.new 0)) : AllIn P (empty cfg) := by
  intro i e he
  rw [List.eq_of_mem_replicate he]
  exact h i

theorem AllIn.setRow (hd : AllIn P d) {i : ℕ} {l : DirectorySet}
    (hl : l.length = cfg.theAssociativity) (h : ∀ e ∈ l, P i e) : AllIn P (d.setRow i l hl) := by
  intro j e he
  by_cases hj : j = i
  · subst hj
    rw [theDirectory_setRow, update_self] at he
    exact h e he
  · rw [theDirectory_setRow, update_of_ne hj] at he
    exact hd j e he

theorem AllIn.setEntry (hd : AllIn P d) {e : BlockDirectoryEntry} (h : P w.set e) :
    AllIn P (d.setEntry w e) :=
  hd.setRow _ fun x hx => by
    rcases List.mem_or_eq_of_mem_set hx with hx | rfl
    · exact hd _ x hx
    · exact h

theorem AllIn.block (hd : AllIn P d) {e : BlockDirectoryEntry} (h : d.block w = some e) :
    P w.set e :=
  hd _ e (List.mem_of_getElem? h)

/-- **A lookup keeps what holds of every entry**, if it holds of a new one. -/
theorem AllIn.lookup (hd : AllIn P d) (addr : ℕ) (ev : Bool)
    (hnew : P (cfg.getSet addr) (.new addr)) : AllIn P (d.lookup addr ev).1 := by
  have hfind : AllIn P (d.findOrCreateEntry addr !ev).1 := by
    have hperm : (DirectorySet.findOrCreateEntry cfg.theReplPolicy
        (d.theDirectory (cfg.getSet addr)) addr !ev).1.Perm (d.theDirectory (cfg.getSet addr)) :=
      DirectorySet.findOrCreateEntry_perm addr !ev
    exact hd.setRow (hperm.length_eq.trans (d.length_eq _)) fun e he =>
      hd _ e (hperm.mem_iff.mp he)
  rw [StandardDirectory.lookup]
  dsimp only
  split
  · split
    · exact hfind
    · exact hfind.setEntry hnew
  · exact hfind

/-- An update keeps what holds of every entry, if it does so of a single one. -/
theorem AllIn.modifyEntry (hd : AllIn P d)
    {f : BlockDirectoryEntry → Except Fault BlockDirectoryEntry}
    (hf : ∀ i e e', P i e → f e = .ok e' → P i e') (h : d.modifyEntry w f = .ok d') :
    AllIn P d' := by
  rw [StandardDirectory.modifyEntry] at h
  split at h
  · rename_i e he
    split at h
    · rename_i e' he'
      cases h
      exact hd.setEntry (hf _ e e' (hd.block he) he')
    · cases h
  · cases h

end AllIn

variable {d d' : StandardDirectory cfg} {P : BlockDirectoryEntry → Prop} {w : BlockEntryWrapper}

theorem All.empty (h : P (.new 0)) : All P (empty cfg) := AllIn.empty fun _ => h

theorem All.lookup (hd : All P d) (hnew : ∀ addr, P (.new addr)) (addr : ℕ) (ev : Bool) :
    All P (d.lookup addr ev).1 :=
  AllIn.lookup (P := fun _ => P) hd addr ev (hnew addr)

theorem All.modifyEntry (hd : All P d)
    {f : BlockDirectoryEntry → Except Fault BlockDirectoryEntry}
    (hf : ∀ e e', P e → f e = .ok e' → P e') (h : d.modifyEntry w f = .ok d') : All P d' :=
  AllIn.modifyEntry (P := fun _ => P) hd (fun _ => hf) h

/-- **Every entry of a reachable directory agrees with its sharers**: one call. -/
theorem agrees_step {d d' : StandardDirectory cfg} (hd : All BlockDirectoryEntry.Agrees d)
    {ev : Event} (h : d.step ev = .ok d') : All BlockDirectoryEntry.Agrees d' := by
  cases ev with
  | lookup addr isEvictType =>
    cases h
    exact hd.lookup BlockDirectoryEntry.new_agrees addr isEvictType
  | addSharer index w =>
    exact hd.modifyEntry (fun e e' _ he => (BlockDirectoryEntry.addSharer_spec he).2.2.2) h
  | addExclusiveSharer index w =>
    refine hd.modifyEntry (fun e e' _ he => ?_) h
    cases ha : e.addSharer index with
    | error f =>
      rw [ha] at he
      cases he
    | ok a =>
      rw [ha] at he
      exact (BlockDirectoryEntry.makeExclusive_spec he).2.2
  | removeSharer index w =>
    exact hd.modifyEntry (fun e e' hag he => (BlockDirectoryEntry.removeSharer_spec hag he).2.2) h
  | makeSharerExclusive index w =>
    exact hd.modifyEntry (fun e e' _ he => (BlockDirectoryEntry.makeExclusive_spec he).2.2) h

/-- **Every entry of a reachable directory agrees with its sharers.** -/
theorem agrees_of_reachable (h : (machine cfg).Reachable d) : All BlockDirectoryEntry.Agrees d :=
  h.invariant (All.empty (BlockDirectoryEntry.new_agrees 0)) fun _ _ _ hs _ ht => by
    exact agrees_step hs ht

end StandardDirectory

end FastCMPCache

end Flexus
