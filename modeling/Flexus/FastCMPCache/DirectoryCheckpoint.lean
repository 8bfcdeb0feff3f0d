import Flexus.FastCMPCache.StandardDirectory

/-!
# Checkpoints of the set-associative directory

`saveState` of `StandardDirectory` writes the number of sets, the number of ways, and for every
place of the directory the tag and the sharers of its entry; `loadState` reads them back into a
directory of the same configuration
(`components/FastCMPCache/StandardDirectory.cpp`, with `getSerializer` and the assignment of
`BlockDirectoryEntry`).

The sharers pass through a word of 64 bits (`getUInt64` of `SharingVector`), although the vector
has room for `MAX_NUM_SHARERS` of them: what comes back are the sharers below 64
(`Flexus.FastCMPCache.BlockDirectoryEntry.ofSerializer_getSerializer`). So a reachable directory
is restored exactly when none of its entries has a sharer from 64 on
(`Flexus.FastCMPCache.StandardDirectory.loadState_restores_iff`).
-/

namespace Flexus

open List

namespace FastCMPCache

open SharingState

/-! ### Sharers in a word -/

/-- A word whose bits are given, the most significant one first to be shifted in. -/
def shiftIn (bit : ℕ → Bool) (n : ℕ) : ℕ :=
  (List.range n).foldr (fun i ret => (ret <<< 1) ||| (bit i).toNat) 0

theorem testBit_shiftIn_aux (bit : ℕ → Bool) (k n i : ℕ) :
    ((List.range' k n).foldr (fun i ret => (ret <<< 1) ||| (bit i).toNat) 0).testBit i =
      (decide (i < n) && bit (k + i)) := by
  induction n generalizing k i with
  | zero => simp
  | succ n ih =>
    rw [range'_succ, foldr_cons, Nat.testBit_or, Nat.testBit_shiftLeft]
    cases i with
    | zero => cases bit k <;> simp
    | succ i =>
      rw [Nat.add_sub_cancel, ih (k + 1) i, Nat.add_right_comm k 1 i]
      cases bit k <;> simp [Nat.testBit_succ, Nat.add_assoc]

/-- **The bits of a word that was shifted in.** -/
theorem testBit_shiftIn (bit : ℕ → Bool) (n i : ℕ) :
    (shiftIn bit n).testBit i = (decide (i < n) && bit i) := by
  rw [shiftIn, range_eq_range', testBit_shiftIn_aux, Nat.zero_add]

namespace SharingVector

/-- `getUInt64`: the lowest 64 bits of the vector. -/
def getUInt64 (v : SharingVector) : ℕ := shiftIn (fun i => decide (i ∈ v.sharers)) 64

/-- `setSharers`, of the vector that a word is converted to. -/
def setSharers (s : ℕ) : SharingVector where
  sharers := (Finset.range maxNumSharers).filter fun i => s.testBit i = true
  bound _ hi := Finset.mem_range.mp (Finset.mem_filter.mp hi).1

/-- **What comes back of a vector**: its sharers below 64. -/
theorem mem_setSharers_getUInt64 (v : SharingVector) (i : ℕ) :
    i ∈ (setSharers v.getUInt64).sharers ↔ i ∈ v.sharers ∧ i < 64 := by
  rw [setSharers, Finset.mem_filter, Finset.mem_range, getUInt64, testBit_shiftIn]
  constructor
  · rintro ⟨-, h⟩
    rw [Bool.and_eq_true, decide_eq_true_eq, decide_eq_true_eq] at h
    exact ⟨h.2, h.1⟩
  · rintro ⟨hi, hlt⟩
    exact ⟨v.bound i hi, by simp [hi, hlt]⟩

theorem setSharers_getUInt64_of_lt {v : SharingVector} (h : ∀ i ∈ v.sharers, i < 64) :
    setSharers v.getUInt64 = v := by
  have hs : (setSharers v.getUInt64).sharers = v.sharers := by
    ext i
    rw [mem_setSharers_getUInt64, and_iff_left_of_imp (h i)]
  rcases v with ⟨s, hb⟩
  rcases hw : setSharers (getUInt64 ⟨s, hb⟩) with ⟨s', hb'⟩
  rw [hw] at hs
  cases hs
  rfl

end SharingVector

/-- `StdDirEntrySerializer`. -/
structure StdDirEntrySerializer where
  tag : ℕ
  state : ℕ
  deriving DecidableEq

namespace BlockDirectoryEntry

/-- `getSerializer`. -/
def getSerializer (e : BlockDirectoryEntry) : StdDirEntrySerializer :=
  ⟨e.theAddress, e.theSharers.getUInt64⟩

/-- The assignment of a serializer: the sharing state is computed again. -/
def ofSerializer (s : StdDirEntrySerializer) : BlockDirectoryEntry :=
  let sharers := SharingVector.setSharers s.state
  { theAddress := s.tag
    theSharers := sharers
    theState :=
      if sharers.countSharers = 1 then oneSharer
      else if sharers.countSharers = 0 then zeroSharers
      else manySharers }

theorem ofSerializer_agrees (s : StdDirEntrySerializer) : (ofSerializer s).Agrees := by
  rw [Agrees, ofSerializer, sharingOf_eq_ite]
  dsimp only
  by_cases h0 : (SharingVector.setSharers s.state).countSharers = 0
  · rw [h0]
    rfl
  · rw [if_neg h0, if_neg h0]

/-- **An entry that is saved and loaded is the same if and only if all its sharers are
below 64.** -/
theorem ofSerializer_getSerializer {e : BlockDirectoryEntry} (h : e.Agrees) :
    ofSerializer e.getSerializer = e ↔ ∀ i ∈ e.theSharers.sharers, i < 64 := by
  constructor
  · intro heq i hi
    have hback : (ofSerializer e.getSerializer).theSharers = e.theSharers := by rw [heq]
    have hmem : i ∈ (SharingVector.setSharers e.theSharers.getUInt64).sharers := by
      rw [show SharingVector.setSharers e.theSharers.getUInt64 = e.theSharers from hback]
      exact hi
    exact ((e.theSharers.mem_setSharers_getUInt64 i).mp hmem).2
  · intro hlt
    have hsharers : (ofSerializer e.getSerializer).theSharers = e.theSharers :=
      SharingVector.setSharers_getUInt64_of_lt hlt
    have hstate : (ofSerializer e.getSerializer).theState = e.theState := by
      rw [ofSerializer_agrees e.getSerializer, hsharers]
      exact h.symm
    rcases e with ⟨a, v, s⟩
    rcases hw : ofSerializer (getSerializer ⟨a, v, s⟩) with ⟨a', v', s'⟩
    rw [hw] at hsharers hstate
    have ha : a' = a := congrArg theAddress hw.symm
    cases ha
    cases hsharers
    cases hstate
    rfl

end BlockDirectoryEntry

/-! ### Saving and loading -/

/-- A checkpoint of a directory. -/
structure DirectoryArchive where
  setCount : ℕ
  associativity : ℕ
  entries : List StdDirEntrySerializer
  deriving DecidableEq

/-- The places of a directory, in the order of the loops over sets and ways. -/
def DirectoryConfig.places (cfg : DirectoryConfig) : List BlockEntryWrapper :=
  (List.range cfg.theNumSets).flatMap fun set =>
    (List.range cfg.theAssociativity).map fun way => ⟨set, way⟩

theorem DirectoryConfig.mem_places {cfg : DirectoryConfig} {w : BlockEntryWrapper} :
    w ∈ cfg.places ↔ w.set < cfg.theNumSets ∧ w.way < cfg.theAssociativity := by
  rw [places, mem_flatMap]
  constructor
  · rintro ⟨set, hset, hw⟩
    obtain ⟨way, hway, rfl⟩ := mem_map.mp hw
    exact ⟨mem_range.mp hset, mem_range.mp hway⟩
  · rintro ⟨hset, hway⟩
    exact ⟨w.set, mem_range.mpr hset, mem_map.mpr ⟨w.way, mem_range.mpr hway, rfl⟩⟩

theorem DirectoryConfig.nodup_places (cfg : DirectoryConfig) : cfg.places.Nodup := by
  rw [places, nodup_flatMap]
  constructor
  · intro set _
    refine List.Nodup.map ?_ nodup_range
    intro a b hab
    exact congrArg BlockEntryWrapper.way hab
  · refine nodup_range.imp fun {i j} hij => ?_
    intro w hi hj
    obtain ⟨a, -, rfl⟩ := mem_map.mp hi
    obtain ⟨b, -, hb⟩ := mem_map.mp hj
    exact hij (congrArg BlockEntryWrapper.set hb).symm

namespace StandardDirectory

variable {cfg : DirectoryConfig}

/-- The entry in a place; every place has one. -/
def entry (d : StandardDirectory cfg) (w : BlockEntryWrapper) : BlockDirectoryEntry :=
  (d.block w).getD (.new 0)

/-- **`saveState`.** -/
def saveState (d : StandardDirectory cfg) : DirectoryArchive where
  setCount := cfg.theNumSets
  associativity := cfg.theAssociativity
  entries := cfg.places.map fun w => (d.entry w).getSerializer

/-- The loops of `loadState`, for the places that are left. -/
def loadEntries : List BlockEntryWrapper → StandardDirectory cfg → List StdDirEntrySerializer →
    Option (StandardDirectory cfg)
  | [], d, _ => some d
  | _ :: _, _, [] => none
  | w :: ws, d, s :: ss => loadEntries ws (d.setEntry w (.ofSerializer s)) ss

/-- **`loadState`**: the numbers of sets and ways are asserted. -/
def loadState (d : StandardDirectory cfg) (a : DirectoryArchive) :
    Option (StandardDirectory cfg) :=
  if a.setCount = cfg.theNumSets ∧ a.associativity = cfg.theAssociativity then
    loadEntries cfg.places d a.entries
  else none

variable {d d' d₀ : StandardDirectory cfg} {w : BlockEntryWrapper}

theorem block_eq_entry (hw : w.way < cfg.theAssociativity) : d.block w = some (d.entry w) := by
  have hlt : w.way < (d.theDirectory w.set).length := by
    rw [d.length_eq]
    exact hw
  rw [entry, block, getElem?_eq_getElem hlt, Option.getD_some]

theorem entry_mem (hw : w.way < cfg.theAssociativity) : d.entry w ∈ d.theDirectory w.set :=
  mem_of_getElem? (block_eq_entry hw)

theorem exists_entry {i : ℕ} {e : BlockDirectoryEntry} (h : e ∈ d.theDirectory i) :
    ∃ way < cfg.theAssociativity, d.entry ⟨i, way⟩ = e := by
  obtain ⟨way, hway, rfl⟩ := getElem_of_mem h
  refine ⟨way, d.length_eq i ▸ hway, ?_⟩
  rw [entry, block, getElem?_eq_getElem hway, Option.getD_some]

theorem entry_setEntry_self {e : BlockDirectoryEntry} (hw : w.way < cfg.theAssociativity) :
    (d.setEntry w e).entry w = e := by
  have hlt : w.way < (d.theDirectory w.set).length := by
    rw [d.length_eq]
    exact hw
  rw [entry, block, setEntry, theDirectory_setRow, Function.update_self,
    getElem?_set_self hlt, Option.getD_some]

theorem entry_setEntry_of_ne {e : BlockDirectoryEntry} {u : BlockEntryWrapper} (h : u ≠ w) :
    (d.setEntry w e).entry u = d.entry u := by
  rw [entry, block, setEntry, theDirectory_setRow, entry, block]
  by_cases hset : u.set = w.set
  · have hway : w.way ≠ u.way := by
      intro hway
      rcases u with ⟨us, uw⟩
      rcases w with ⟨ws, ww⟩
      cases hset
      cases hway
      exact h rfl
    rw [hset, Function.update_self, getElem?_set_ne hway]
  · rw [Function.update_of_ne hset]

/-- **What the loops read back**: every place that was written has what was written for it,
and the others have what they had. -/
theorem loadEntries_spec {ws : List BlockEntryWrapper} (hn : ws.Nodup)
    (hlt : ∀ w ∈ ws, w.way < cfg.theAssociativity)
    (value : BlockEntryWrapper → StdDirEntrySerializer) (d₀ : StandardDirectory cfg) :
    ∃ d', loadEntries ws d₀ (ws.map value) = some d' ∧
      (∀ w ∈ ws, d'.entry w = .ofSerializer (value w)) ∧ ∀ w ∉ ws, d'.entry w = d₀.entry w := by
  induction ws generalizing d₀ with
  | nil => exact ⟨d₀, rfl, fun _ hw => absurd hw not_mem_nil, fun _ _ => rfl⟩
  | cons w ws ih =>
    rw [nodup_cons] at hn
    obtain ⟨d', hd', hin, hout⟩ := ih hn.2 (fun u hu => hlt u (mem_cons_of_mem w hu))
      (d₀.setEntry w (.ofSerializer (value w)))
    refine ⟨d', hd', fun u hu => ?_, fun u hu => ?_⟩
    · rcases mem_cons.mp hu with rfl | hu
      · rw [hout u hn.1, entry_setEntry_self (hlt u mem_cons_self)]
      · exact hin u hu
    · rw [mem_cons, not_or] at hu
      rw [hout u hu.2, entry_setEntry_of_ne hu.1]

/-- **What `loadState` makes of a checkpoint that `saveState` wrote.** -/
theorem loadState_saveState (d d₀ : StandardDirectory cfg) :
    ∃ d', d₀.loadState d.saveState = some d' ∧ ∀ w, w.set < cfg.theNumSets →
      w.way < cfg.theAssociativity →
      d'.entry w = .ofSerializer (d.entry w).getSerializer := by
  obtain ⟨d', hd', hin, -⟩ := loadEntries_spec cfg.nodup_places
    (fun w hw => (DirectoryConfig.mem_places.mp hw).2)
    (fun w => (d.entry w).getSerializer) d₀
  refine ⟨d', ?_, fun w hs hw => hin w (DirectoryConfig.mem_places.mpr ⟨hs, hw⟩)⟩
  rw [loadState, if_pos ⟨rfl, rfl⟩]
  exact hd'

/-- Two directories have the same entries: the same tag, sharers and sharing state in every
place. -/
def SameEntries (d d' : StandardDirectory cfg) : Prop :=
  ∀ w : BlockEntryWrapper, w.set < cfg.theNumSets → w.way < cfg.theAssociativity →
    d'.entry w = d.entry w

/-- Every sharer of every entry fits in the word that is saved. -/
def SharersFit (d : StandardDirectory cfg) : Prop :=
  ∀ set < cfg.theNumSets, ∀ e ∈ d.theDirectory set, ∀ i ∈ e.theSharers.sharers, i < 64

/-- **A directory that agrees with its sharers is restored exactly when they fit.** -/
theorem restores_iff_fits (hd : All BlockDirectoryEntry.Agrees d) (d₀ : StandardDirectory cfg) :
    (∃ d', d₀.loadState d.saveState = some d' ∧ SameEntries d d') ↔ SharersFit d := by
  obtain ⟨d', hload, hentry⟩ := loadState_saveState d d₀
  have hplace : ∀ w : BlockEntryWrapper, w.way < cfg.theAssociativity → (d.entry w).Agrees :=
    fun w hw => hd _ _ (entry_mem hw)
  constructor
  · rintro ⟨d'', hload', hsame⟩ set hset e he
    cases hload.symm.trans hload'
    obtain ⟨way, hway, rfl⟩ := exists_entry he
    refine (BlockDirectoryEntry.ofSerializer_getSerializer (hplace ⟨set, way⟩ hway)).mp ?_
    exact (hentry ⟨set, way⟩ hset hway).symm.trans (hsame ⟨set, way⟩ hset hway)
  · intro hfit
    refine ⟨d', hload, fun w hset hway => ?_⟩
    rw [hentry w hset hway]
    exact (BlockDirectoryEntry.ofSerializer_getSerializer (hplace w hway)).mpr
      (hfit w.set hset _ (entry_mem hway))

/-- The call does not add a sharer from 64 on. -/
def Event.fits : Event → Bool
  | .addSharer index _ => index < 64
  | .addExclusiveSharer index _ => index < 64
  | _ => true

/-- **Calls that add sharers below 64 only** keep all sharers below 64. -/
theorem fits_step {d d' : StandardDirectory cfg}
    (hd : All (fun e => ∀ i ∈ e.theSharers.sharers, i < 64) d) {ev : Event} (hev : ev.fits = true)
    (hag : All BlockDirectoryEntry.Agrees d) (h : d.step ev = .ok d') :
    All (fun e => ∀ i ∈ e.theSharers.sharers, i < 64) d' := by
  have hadd : ∀ {index : ℕ} {e e' : BlockDirectoryEntry}, index < 64 →
      (∀ i ∈ e.theSharers.sharers, i < 64) → e.addSharer index = .ok e' →
      ∀ i ∈ e'.theSharers.sharers, i < 64 := by
    intro index e e' hindex he ha i hi
    rw [(BlockDirectoryEntry.addSharer_spec ha).2.2.1] at hi
    rcases Finset.mem_insert.mp hi with rfl | hi
    · exact hindex
    · exact he i hi
  cases ev with
  | lookup addr isEvictType =>
    cases h
    exact hd.lookup (fun addr i hi => absurd hi (Finset.notMem_empty i)) addr isEvictType
  | addSharer index w => exact hd.modifyEntry (fun e e' he ha => hadd (of_decide_eq_true hev) he ha) h
  | addExclusiveSharer index w =>
    refine hd.modifyEntry (fun e e' he ha => ?_) h
    cases hb : e.addSharer index with
    | error f =>
      rw [hb] at ha
      cases ha
    | ok b =>
      rw [hb] at ha
      rw [(BlockDirectoryEntry.makeExclusive_spec ha).2.1]
      exact hadd (of_decide_eq_true hev) he hb
  | removeSharer index w =>
    have hboth : All (fun e => e.Agrees ∧ ∀ i ∈ e.theSharers.sharers, i < 64) d :=
      fun i e he => ⟨hag i e he, hd i e he⟩
    intro i e he
    refine (hboth.modifyEntry (fun e e' he ha => ?_) h i e he).2
    obtain ⟨-, hs, hag'⟩ := BlockDirectoryEntry.removeSharer_spec he.1 ha
    refine ⟨hag', fun i hi => he.2 i ?_⟩
    rw [hs] at hi
    exact Finset.mem_of_mem_erase hi
  | makeSharerExclusive index w =>
    refine hd.modifyEntry (fun e e' he ha => ?_) h
    rw [(BlockDirectoryEntry.makeExclusive_spec ha).2.1]
    exact he

/-- **The sharers of a directory whose calls fit all fit.** -/
theorem sharersFit_of_reachable
    (h : (machine cfg).ReachableWhen (fun _ ev => ev.fits = true) d) :
    All BlockDirectoryEntry.Agrees d ∧ SharersFit d := by
  have hinv : All BlockDirectoryEntry.Agrees d ∧
      All (fun e => ∀ i ∈ e.theSharers.sharers, i < 64) d := by
    refine h.invariant (I := fun d => All BlockDirectoryEntry.Agrees d ∧
      All (fun e => ∀ i ∈ e.theSharers.sharers, i < 64) d)
      ⟨All.empty (BlockDirectoryEntry.new_agrees 0),
      All.empty fun i hi => absurd hi (Finset.notMem_empty i)⟩ fun s ev t hs hev ht => ?_
    exact ⟨agrees_step hs.1 ht, fits_step hs.2 hev hs.1 ht⟩
  exact ⟨hinv.1, fun set _ => hinv.2 set⟩

/-- **A checkpoint restores a reachable directory exactly when no entry has a sharer from 64
on**, and it restores the directory of every run that adds sharers below 64 only. -/
theorem loadState_restores_iff (cfg : DirectoryConfig) :
    (∀ d : StandardDirectory cfg, (machine cfg).Reachable d → ∀ d₀ : StandardDirectory cfg,
      ((∃ d', d₀.loadState d.saveState = some d' ∧ SameEntries d d') ↔ SharersFit d)) ∧
    ∀ d : StandardDirectory cfg, (machine cfg).ReachableWhen (fun _ ev => ev.fits = true) d →
      ∀ d₀ : StandardDirectory cfg,
        ∃ d', d₀.loadState d.saveState = some d' ∧ SameEntries d d' := by
  constructor
  · intro d hd d₀
    exact restores_iff_fits (agrees_of_reachable hd) d₀
  · intro d hd d₀
    obtain ⟨hag, hfit⟩ := sharersFit_of_reachable hd
    exact (restores_iff_fits hag d₀).mpr hfit

/-- A directory with one entry. -/
def single : DirectoryConfig where
  theNumSets := 1
  theAssociativity := 1
  theBlockSize := 64
  theSkewSet := false
  theSpecialInterleaving := false
  theReplPolicy := .lruRepl
  sets_pos := Nat.one_pos
  assoc_pos := Nat.one_pos

/-- The directory after a block has been looked up and a cache has been added to its sharers. -/
def sharedBy (index : ℕ) : Except Fault (StandardDirectory single) :=
  (machine single).run [.lookup 128 false, .addSharer index ⟨0, 0⟩]

/-- A small directory whose only sharer has a small index is restored. -/
theorem loadState_restores_iff_sharedBy : ∃ d, sharedBy 3 = .ok d ∧
    ∃ d', (empty single).loadState d.saveState = some d' ∧ SameEntries d d' := by
  obtain ⟨d, hd⟩ : ∃ d, sharedBy 3 = .ok d := ⟨_, rfl⟩
  refine ⟨d, hd, (loadState_restores_iff single).2 d ?_ (empty single)⟩
  exact Lib.Machine.reachableWhen_of_run (g := fun _ ev => ev.fits) (fun _ _ h => h)
    (by decide) hd

/-- **A directory whose only sharer has the index 64 is not restored.** -/
theorem sharedBy_not_restored : ∃ d, sharedBy 64 = .ok d ∧
    ¬∃ d', (empty single).loadState d.saveState = some d' ∧ SameEntries d d' := by
  obtain ⟨d, hd, hmem⟩ : ∃ d, sharedBy 64 = .ok d ∧
      ∃ e ∈ d.theDirectory 0, 64 ∈ e.theSharers.sharers :=
    ⟨_, rfl, _, mem_cons_self, by decide⟩
  refine ⟨d, hd, fun h => ?_⟩
  obtain ⟨e, he, hi⟩ := hmem
  have hag := agrees_of_reachable (Lib.Machine.reachable_of_run hd)
  exact absurd ((restores_iff_fits hag (empty single)).mp h 0 Nat.one_pos e he 64 hi) (by decide)

end StandardDirectory

end FastCMPCache

end Flexus
