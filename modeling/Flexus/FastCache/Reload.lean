import Flexus.Cache.Checkpoint
import Flexus.FastCache.SetRequests
import Flexus.Lib.Archive

/-!
# Loading a functional checkpoint back

A functional cache can be loaded from its own checkpoint, in the text and in the binary format
(`loadState` of `components/FastCache/StdCache.hpp`). Saving fills every set up with invalid
entries, and loading appends what it reads to the container of the set, in the order of use;
the container drops an entry whose tag it has already. So of the entries that fill a set up the
first one stays, behind all others, unless a block of the set has the same tag
(`Flexus.StdCache.row_reloaded`).

Such an entry takes a way, and it is the most recently used. A cache that was loaded answers
later requests as the one that was saved exactly when, in every set, there is no such entry or
there is only one way (`Flexus.StdCache.restores_iff`).
-/

namespace Flexus

open Function List

open Cache (places placeInt placeTag placeRecord Savable SavableSet)

/-! ### Loading -/

namespace BlockSet

/-- `push_back` into the container of a set: an entry is not added if its tag or its way is
there already. -/
def pushBack (l : BlockSet) (e : BlockEntry) : BlockSet :=
  if ∀ d ∈ l, d.tag ≠ e.tag ∧ d.way ≠ e.way then l ++ [e] else l

end BlockSet

namespace StdCache

/-- The state of an entry of the text format; the source asserts on other numbers. -/
def loadInt : ℕ → Option CoherenceState
  | 7 => some .modified
  | 3 => some .owned
  | 5 => some .exclusive
  | 1 => some .shared
  | 0 => some .invalid
  | _ => none

/-- The state of an entry of the binary format. -/
def loadChar : Char → Option CoherenceState
  | 'M' => some .modified
  | 'O' => some .owned
  | 'E' => some .exclusive
  | 'S' => some .shared
  | 'I' => some .invalid
  | _ => none

/-- The entries of a set in the text format, for the ways that are left. The brackets are read,
but not checked. -/
def loadTextEntries (g : Geometry) (set : ℕ) :
    List ℕ → BlockSet → List Token → Option (BlockSet × List Token)
  | [], l, ts => some (l, ts)
  | j :: ways, l, .paren _ :: .num state :: .num tag :: .paren _ :: ts => do
    let s ← loadInt state
    loadTextEntries g set ways
      (l.pushBack ⟨(tag <<< (g.blockShift + g.setBits)) ||| (set <<< g.blockShift), s, j⟩) ts
  | _, _, _ => none

/-- A set in the text format. -/
def loadTextSet (g : Geometry) (set : ℕ) (l : BlockSet) :
    List Token → Option (BlockSet × List Token)
  | .paren .openBrace :: ts => do
    let (l, ts) ← loadTextEntries g set (List.range g.theAssoc) l ts
    match ts with
    | .paren .closeBrace :: .paren .less :: ts => do
      let ts ← Cache.SetLRU.dropNums g.theAssoc ts
      match ts with
      | .paren .greater :: ts => pure (l, ts)
      | _ => none
    | _ => none
  | _ => none

/-- A set in the binary format, for the ways that are left. -/
def loadBinaryEntries : List ℕ → BlockSet → List BlockSerializer →
    Option (BlockSet × List BlockSerializer)
  | [], l, bs => some (l, bs)
  | j :: ways, l, b :: bs => do
    let s ← loadChar b.state
    loadBinaryEntries ways (l.pushBack ⟨b.tag, s, j⟩) bs
  | _, _, [] => none

/-- The loop over the sets. -/
def loadSets {τ : Type} (load : ℕ → BlockSet → τ → Option (BlockSet × τ)) :
    List ℕ → (ℕ → BlockSet) → τ → Option (ℕ → BlockSet)
  | [], c, _ => some c
  | i :: is, c, t => do
    let (l, t) ← load i (c i) t
    loadSets load is (update c i l) t

/-- **`loadState`, text format.** -/
def loadText (g : Geometry) (c : ℕ → BlockSet) (ts : List Token) : Option (ℕ → BlockSet) :=
  loadSets (loadTextSet g) (List.range (2 ^ g.setBits)) c ts

/-- **`loadState`, binary format**: the geometry is asserted. -/
def loadBinary (g : Geometry) (c : ℕ → BlockSet) (a : Archive) : Option (ℕ → BlockSet) :=
  if a.setCount = 2 ^ g.setBits ∧ a.associativity = g.theAssoc then
    loadSets (fun _ => loadBinaryEntries (List.range g.theAssoc)) (List.range (2 ^ g.setBits)) c
      a.blocks
  else none

/-! ### What is loaded -/

/-- What is read at a place of a checkpoint: an entry, or an invalid block with the given tag. -/
def placeEntry (pad : ℕ) (x : Option BlockEntry) (j : ℕ) : BlockEntry :=
  match x with
  | some e => ⟨e.tag, e.state, j⟩
  | none => ⟨pad, .invalid, j⟩

/-- The container of a set after all places have been read. -/
def reloaded (n pad : ℕ) (l : BlockSet) : BlockSet :=
  (List.zipWith (placeEntry pad) (places n l) (List.range n)).foldl BlockSet.pushBack []

variable {g : Geometry} {n pad i : ℕ} {l m : BlockSet} {e : BlockEntry}

theorem foldl_pushBack (es : BlockSet) (htags : ((m ++ es).map BlockEntry.tag).Nodup)
    (hways : ((m ++ es).map BlockEntry.way).Nodup) : es.foldl BlockSet.pushBack m = m ++ es := by
  induction es generalizing m with
  | nil => exact (append_nil m).symm
  | cons e es ih =>
    have hpush : m.pushBack e = m ++ [e] := by
      refine if_pos fun d hd => ⟨fun hc => ?_, fun hc => ?_⟩
      · rw [map_append, map_cons, nodup_middle, nodup_cons, ← map_append] at htags
        exact htags.1 (hc ▸ mem_map_of_mem (mem_append_left _ hd))
      · rw [map_append, map_cons, nodup_middle, nodup_cons, ← map_append] at hways
        exact hways.1 (hc ▸ mem_map_of_mem (mem_append_left _ hd))
    have happ : m ++ e :: es = m ++ [e] ++ es := by rw [append_assoc]; rfl
    rw [happ] at htags hways ⊢
    rw [foldl_cons, hpush, ih htags hways]

theorem foldl_pushBack_of_mem (es : BlockSet) (hes : ∀ e ∈ es, ∃ d ∈ m, d.tag = e.tag) :
    es.foldl BlockSet.pushBack m = m := by
  induction es with
  | nil => rfl
  | cons e es ih =>
    have hpush : m.pushBack e = m := by
      obtain ⟨d, hd, ht⟩ := hes e mem_cons_self
      exact if_neg fun hc => (hc d hd).1 ht
    rw [foldl_cons, hpush, ih fun x hx => hes x (mem_cons_of_mem e hx)]

/-- The entries of a set, in ways that are numbered through. -/
def numbered (l : BlockSet) : BlockSet :=
  List.zipWith (fun e j => ⟨e.tag, e.state, j⟩) l (List.range l.length)

theorem map_numbered {β : Type} (f : BlockEntry → β)
    (hf : ∀ e j, f { e with way := j } = f e) : (numbered l).map f = l.map f := by
  rw [numbered, map_zipWith]
  refine ext_getElem (by simp) fun j hj hj' => ?_
  rw [getElem_zipWith, getElem_map]
  exact hf _ _

theorem map_way_numbered : (numbered l).map BlockEntry.way = List.range l.length := by
  rw [numbered, map_zipWith]
  refine ext_getElem (by simp) fun j hj hj' => ?_
  rw [getElem_zipWith]

/-- **What a set holds after it was loaded**: its entries in their order, in ways that are
numbered through, and one more entry if there was room, unless its tag is in the set. -/
theorem reloaded_eq (hl : l.Indexed) (hlen : l.length ≤ n) :
    reloaded n pad l = numbered l ++
      if l.length < n ∧ pad ∉ l.map BlockEntry.tag then [⟨pad, .invalid, l.length⟩] else [] := by
  obtain ⟨k, rfl⟩ := Nat.exists_eq_add_of_le hlen
  have hplaces : List.zipWith (placeEntry pad) (places (l.length + k) l)
      (List.range (l.length + k)) =
      numbered l ++ (List.range k).map fun j => ⟨pad, .invalid, l.length + j⟩ := by
    rw [places, range_add, zipWith_append (by simp), Nat.add_sub_cancel_left,
      zipWith_map_left, zipWith_map_right]
    congr 1
    refine ext_getElem (by simp) fun j hj hj' => ?_
    simp [placeEntry]
  have htags : (numbered l).map BlockEntry.tag = l.map BlockEntry.tag :=
    map_numbered _ fun _ _ => rfl
  have hnumbered : (numbered l).foldl BlockSet.pushBack [] = numbered l :=
    foldl_pushBack (m := []) _ (by rw [nil_append, htags]; exact hl.tags_nodup)
      (by rw [nil_append, map_way_numbered]; exact nodup_range)
  rw [reloaded, hplaces, foldl_append, hnumbered]
  by_cases hpad : pad ∈ l.map BlockEntry.tag
  · rw [if_neg fun hc => hc.2 hpad, append_nil]
    refine foldl_pushBack_of_mem _ fun e he => ?_
    obtain ⟨j, -, rfl⟩ := mem_map.mp he
    rw [← htags] at hpad
    exact mem_map.mp hpad
  · cases k with
    | zero => rw [if_neg (by omega)]; exact (append_nil _).symm
    | succ k =>
      -- the first entry is added, and the others have its tag
      have hpush : (numbered l).pushBack ⟨pad, .invalid, l.length + 0⟩ =
          numbered l ++ [⟨pad, .invalid, l.length⟩] := by
        refine if_pos fun d hd => ⟨fun hc => hpad ?_, fun hc => ?_⟩
        · rw [← htags, ← show d.tag = pad from hc]
          exact mem_map_of_mem hd
        · have hway : d.way ∈ (numbered l).map BlockEntry.way := mem_map_of_mem hd
          rw [map_way_numbered, mem_range] at hway
          exact absurd hc hway.ne
      rw [if_pos ⟨by omega, hpad⟩, range_succ_eq_map, map_cons, foldl_cons, hpush]
      refine foldl_pushBack_of_mem _ fun e he => ?_
      obtain ⟨j, -, rfl⟩ := mem_map.mp he
      exact ⟨_, mem_append_right _ mem_cons_self, rfl⟩

theorem row_reloaded (hl : l.Indexed) (hlen : l.length ≤ n) :
    (reloaded n pad l).row = l.row ++
      if l.length < n ∧ pad ∉ l.map BlockEntry.tag then [(pad, .invalid)] else [] := by
  rw [reloaded_eq hl hlen, BlockSet.row, map_append, map_numbered _ fun _ _ => rfl]
  congr 1
  split <;> rfl

theorem indexed_reloaded (hl : l.Indexed) (hlen : l.length ≤ n) :
    (reloaded n pad l).Indexed := by
  have htags := map_numbered (l := l) BlockEntry.tag fun _ _ => rfl
  have hlength : (numbered l).length = l.length := by simp [numbered]
  rw [reloaded_eq hl hlen]
  split
  · rename_i hpad
    refine ⟨?_, ?_, fun e he => ?_⟩
    · rw [map_append, htags, map_singleton, nodup_append]
      refine ⟨hl.tags_nodup, nodup_singleton _, fun a ha b hb => ?_⟩
      rw [mem_singleton.mp hb]
      exact fun hc => hpad.2 ((show a = pad from hc) ▸ ha)
    · rw [map_append, map_way_numbered, map_singleton, ← range_succ]
      exact nodup_range
    · rw [length_append, hlength, length_singleton]
      have hway : e.way ∈ (numbered l ++ [(⟨pad, .invalid, l.length⟩ : BlockEntry)]).map
          BlockEntry.way :=
        mem_map_of_mem he
      rw [map_append, map_way_numbered, map_singleton, ← range_succ, mem_range] at hway
      exact hway
  · rw [append_nil]
    refine ⟨?_, ?_, fun e he => ?_⟩
    · rw [htags]
      exact hl.tags_nodup
    · rw [map_way_numbered]
      exact nodup_range
    · have hway : e.way ∈ (numbered l).map BlockEntry.way := mem_map_of_mem he
      rw [map_way_numbered, mem_range] at hway
      rw [hlength]
      exact hway

/-! ### Checkpoints that are loaded -/

theorem loadInt_saveInt {s : CoherenceState} (h : s ≠ .migratory) :
    loadInt ((saveInt s).getD 0) = some s := by
  cases s with
  | migratory => exact absurd rfl h
  | _ => rfl

theorem loadChar_saveChar {s : CoherenceState} (h : s ≠ .migratory) :
    loadChar ((saveChar s).getD 'I') = some s := by
  cases s with
  | migratory => exact absurd rfl h
  | _ => rfl

theorem loadInt_placeInt (hsave : SavableSet l) : ∀ x ∈ places n l,
    loadInt (placeInt x) = some ((x.map BlockEntry.state).getD .invalid) := by
  intro x hx
  rcases Cache.mem_places hx with rfl | ⟨e, he, rfl⟩
  · rfl
  · exact loadInt_saveInt (hsave e he)

theorem loadChar_placeRecord (hsave : SavableSet l) : ∀ x ∈ places n l,
    loadChar (placeRecord x).state = some ((x.map BlockEntry.state).getD .invalid) := by
  intro x hx
  rcases Cache.mem_places hx with rfl | ⟨e, he, rfl⟩
  · rfl
  · exact loadChar_saveChar (hsave e he)

theorem tag_placeEntry (hl : l.WF g i) (j : ℕ) : ∀ x ∈ places n l,
    (⟨(placeTag g x <<< (g.blockShift + g.setBits)) ||| (i <<< g.blockShift),
      (x.map BlockEntry.state).getD .invalid, j⟩ : BlockEntry) =
        placeEntry (i <<< g.blockShift) x j := by
  intro x hx
  rcases Cache.mem_places hx with rfl | ⟨e, he, rfl⟩
  · rw [placeTag, Option.map_none, Option.getD_none, Nat.zero_shiftLeft, Nat.zero_or]
    rfl
  · rw [placeTag, Option.map_some, Option.getD_some,
      Cache.or_of_shiftRight (hl.isTag e he) (hl.isHome e he)]
    rfl

theorem loadTextEntries_spec (xs : List (Option BlockEntry)) (pad : ℕ)
    (hstate : ∀ x ∈ xs, loadInt (placeInt x) = some ((x.map BlockEntry.state).getD .invalid))
    (htag : ∀ x ∈ xs, ∀ j, (⟨(placeTag g x <<< (g.blockShift + g.setBits)) |||
      (i <<< g.blockShift), (x.map BlockEntry.state).getD .invalid, j⟩ : BlockEntry) =
        placeEntry pad x j)
    (ways : List ℕ) (hlen : ways.length = xs.length) (ts : List Token) :
    loadTextEntries g i ways m
        ((xs.map fun x => textEntry (placeInt x) (placeTag g x)).flatten ++ ts) =
      some ((List.zipWith (placeEntry pad) xs ways).foldl BlockSet.pushBack m, ts) := by
  induction xs generalizing ways m with
  | nil =>
    obtain rfl : ways = [] := by simpa using hlen
    rfl
  | cons x xs ih =>
    obtain ⟨j, ways, rfl⟩ : ∃ j ways', ways = j :: ways' :=
      exists_cons_of_length_eq_add_one hlen
    have htail := ih (m := m.pushBack (placeEntry pad x j))
      (fun y hy => hstate y (mem_cons_of_mem x hy))
      (fun y hy => htag y (mem_cons_of_mem x hy)) ways (by simpa using hlen)
    rw [map_cons, flatten_cons, textEntry, append_assoc]
    simp only [cons_append, nil_append, loadTextEntries,
      hstate x mem_cons_self, htag x mem_cons_self, Option.bind_eq_bind,
      Option.bind_some, zipWith_cons_cons, foldl_cons]
    exact htail

theorem loadBinaryEntries_spec (xs : List (Option BlockEntry))
    (hstate : ∀ x ∈ xs, loadChar (placeRecord x).state =
      some ((x.map BlockEntry.state).getD .invalid))
    (ways : List ℕ) (hlen : ways.length = xs.length) (bs : List BlockSerializer) :
    loadBinaryEntries ways m (xs.map placeRecord ++ bs) =
      some ((List.zipWith (placeEntry 0) xs ways).foldl BlockSet.pushBack m, bs) := by
  induction xs generalizing ways m with
  | nil =>
    obtain rfl : ways = [] := by simpa using hlen
    rfl
  | cons x xs ih =>
    obtain ⟨j, ways, rfl⟩ : ∃ j ways', ways = j :: ways' :=
      exists_cons_of_length_eq_add_one hlen
    have htail := ih (m := m.pushBack (placeEntry 0 x j))
      (fun y hy => hstate y (mem_cons_of_mem x hy)) ways (by simpa using hlen)
    have hentry : (⟨(placeRecord x).tag, (x.map BlockEntry.state).getD .invalid, j⟩ :
        BlockEntry) = placeEntry 0 x j := by
      cases x with
      | none => rfl
      | some e => rfl
    simp only [map_cons, cons_append, loadBinaryEntries, hstate x mem_cons_self,
      hentry, Option.bind_eq_bind, Option.bind_some, zipWith_cons_cons, foldl_cons]
    exact htail

/-- **A set that was saved as text is loaded.** -/
theorem loadTextSet_saveTextSet (hl : l.WF g i) (hsave : SavableSet l) :
    ∃ t, saveTextSet g l = some t ∧ ∀ ts, loadTextSet g i [] (t ++ ts) =
      some (reloaded g.theAssoc (i <<< g.blockShift) l, ts) := by
  refine ⟨_, Cache.saveTextSet_eq hsave, fun ts => ?_⟩
  have hload := loadTextEntries_spec (g := g) (i := i) (m := []) (places g.theAssoc l)
    (i <<< g.blockShift) (loadInt_placeInt hsave) (fun x hx j => tag_placeEntry hl j x hx)
    (List.range g.theAssoc) (by rw [Cache.length_places hl.length_le, length_range])
    (.paren .closeBrace :: .paren .less ::
      ((List.range g.theAssoc).map Token.num ++ (.paren .greater :: ts)))
  have hdrop := Cache.SetLRU.dropNums_map (List.range g.theAssoc) (.paren .greater :: ts)
  rw [length_range] at hdrop
  simp only [cons_append, append_assoc, nil_append, loadTextSet, hload,
    Option.bind_eq_bind, Option.bind_some, hdrop, Option.pure_def]
  rfl

/-- **A set that was saved in binary is loaded.** -/
theorem loadBinary_saveBinarySet (hl : l.WF g i) (hsave : SavableSet l) :
    ∃ t, saveBinarySet g l = some t ∧ ∀ bs,
      loadBinaryEntries (List.range g.theAssoc) [] (t ++ bs) =
        some (reloaded g.theAssoc 0 l, bs) := by
  refine ⟨_, Cache.saveBinarySet_eq hsave, fun bs => ?_⟩
  exact loadBinaryEntries_spec (places g.theAssoc l) (loadChar_placeRecord hsave) _
    (by rw [Cache.length_places hl.length_le, length_range]) bs

/-- The loop over the sets, when the input is that of one set after another. -/
theorem loadSets_spec {α : Type} (load : ℕ → BlockSet → List α → Option (BlockSet × List α))
    (pieces : ℕ → List α) (value : ℕ → BlockSet) (sets : List ℕ) (hsets : sets.Nodup)
    {c : ℕ → BlockSet} (hc : ∀ i ∈ sets, c i = [])
    (hload : ∀ i ∈ sets, ∀ ts, load i [] (pieces i ++ ts) = some (value i, ts)) (ts : List α) :
    ∃ c', loadSets load sets c ((sets.map pieces).flatten ++ ts) = some c' ∧
      (∀ i ∈ sets, c' i = value i) ∧ ∀ i ∉ sets, c' i = c i := by
  induction sets generalizing c with
  | nil => exact ⟨c, rfl, nofun, fun _ _ => rfl⟩
  | cons i sets ih =>
    obtain ⟨hi, hsets⟩ := nodup_cons.mp hsets
    have hother : ∀ j ≠ i, update c i (value i) j = c j := fun j hj =>
      update_of_ne hj _ _
    obtain ⟨c', hc', hin, hout⟩ := ih (c := update c i (value i)) hsets
      (fun j hj => by
        rw [hother j fun h => hi (h ▸ hj)]
        exact hc j (mem_cons_of_mem i hj))
      fun j hj => hload j (mem_cons_of_mem i hj)
    refine ⟨c', ?_, ?_, ?_⟩
    · rw [map_cons, flatten_cons, append_assoc, loadSets, hc i mem_cons_self, hload i mem_cons_self]
      exact hc'
    · intro j hj
      rcases mem_cons.mp hj with rfl | hj
      · rw [hout j hi, update_self]
      · exact hin j hj
    · intro j hj
      rw [mem_cons, not_or] at hj
      rw [hout j hj.2, hother j hj.1]

/-! ### Caches that were saved and loaded -/

/-- **A cache is restored** by its text checkpoint: a cache that was loaded from it answers all
sequences of requests in the same way. -/
def TextRestores (c : StdCache g) : Prop :=
  ∃ ts c', c.saveText = some ts ∧ loadText g (fun _ => []) ts = some c' ∧
    ∀ xs, answers g c' xs = answers g c.theBlocks xs

/-- The same of the binary checkpoint. -/
def BinaryRestores (c : StdCache g) : Prop :=
  ∃ a c', c.saveBinary = some a ∧ loadBinary g (fun _ => []) a = some c' ∧
    ∀ xs, answers g c' xs = answers g c.theBlocks xs

/-- **Nothing is added to a set**: it is full, or one of its blocks has the tag that fills it up.
A set with a single way does not tell. -/
def Fills (n pad : ℕ) (l : BlockSet) : Prop :=
  n = 1 ∨ l.length = n ∨ pad ∈ l.map BlockEntry.tag

/-- **A set that was loaded answers alike exactly if nothing was added to it.** -/
theorem alike_reloaded_iff (hl : l.WF g i) (hi : i < 2 ^ g.setBits) :
    Lib.Slots.Alike CoherenceState.isValid .invalid g.theAssoc (isHome g i)
      (reloaded g.theAssoc pad l).row l.row ↔ Fills g.theAssoc pad l := by
  rw [row_reloaded hl.indexed hl.length_le]
  have hlen := hl.length_le
  by_cases hadd : l.length < g.theAssoc ∧ pad ∉ l.map BlockEntry.tag
  · have hiff := @Lib.Slots.alike_append_iff _ _ _ CoherenceState.isValid .invalid g.theAssoc
      (isHome g i) l.row pad .shared (exists_isHome hi) (by decide) (by decide)
      (by rw [BlockSet.row, length_map]; exact hadd.1)
      (fun x hx => by
        obtain ⟨e, he, rfl⟩ := mem_map.mp hx
        exact ⟨hl.isTag e he, hl.isHome e he⟩)
      (by rw [BlockSet.map_fst_row]; exact hl.tags_nodup)
      (by rw [BlockSet.map_fst_row]; exact hadd.2)
    rw [if_pos hadd]
    constructor
    · exact fun h => .inl (hiff.mp (Lib.Slots.Alike.symm h))
    · rintro (h | h | h)
      · exact Lib.Slots.Alike.symm (hiff.mpr h)
      · exact absurd h hadd.1.ne
      · exact absurd h hadd.2
  · rw [if_neg hadd, append_nil]
    refine ⟨fun _ => ?_, fun _ => .refl⟩
    rw [not_and_or, not_not] at hadd
    rcases hadd with h | h
    · exact .inr (.inl (by omega))
    · exact .inr (.inr h)

/-- A cache that was loaded set by set answers alike exactly if nothing was added to its
sets. -/
theorem answers_reloaded_iff (c : StdCache g) {c' : ℕ → BlockSet} {pad : ℕ → ℕ}
    (hin : ∀ i < 2 ^ g.setBits, c' i = reloaded g.theAssoc (pad i) (c.theBlocks i))
    (hout : ∀ i, ¬i < 2 ^ g.setBits → c' i = []) :
    (∀ xs, answers g c' xs = answers g c.theBlocks xs) ↔
      ∀ i < 2 ^ g.setBits, Fills g.theAssoc (pad i) (c.theBlocks i) := by
  rw [answers_eq_iff (fun i => ?_) fun i => (c.wf i).indexed]
  · refine forall₂_congr fun i hi => ?_
    rw [hin i hi]
    exact alike_reloaded_iff (c.wf i) hi
  · by_cases hi : i < 2 ^ g.setBits
    · rw [hin i hi]
      exact indexed_reloaded (c.wf i).indexed (c.wf i).length_le
    · rw [hout i hi]
      exact ⟨nodup_nil, nodup_nil, nofun⟩

theorem savableSet_of_mapM {β : Type} {f : BlockEntry → Option β}
    (hf : ∀ e b, f e = some b → e.state ≠ .migratory) {bs : List β} (h : l.mapM f = some bs) :
    SavableSet l := by
  have hall := Lib.forall₂_of_mapM h
  intro e he
  obtain ⟨j, hj, rfl⟩ := getElem_of_mem he
  exact hf _ _ (hall.get hj (hall.length_eq ▸ hj))

theorem savable_of_mapM {β : Type} {c : StdCache g} {f : BlockSet → Option β}
    (hf : ∀ l b, f l = some b → SavableSet l) {bs : List β}
    (h : (List.range (2 ^ g.setBits)).mapM (fun i => f (c.theBlocks i)) = some bs) :
    Savable c := by
  have hall := Lib.forall₂_of_mapM h
  intro i
  by_cases hi : i < 2 ^ g.setBits
  · have hj : i < (List.range (2 ^ g.setBits)).length := by rwa [length_range]
    have hget := hall.get hj (hall.length_eq ▸ hj)
    simp only [get_eq_getElem, getElem_range] at hget
    exact hf _ _ hget
  · rw [Cache.theBlocks_eq_nil c (Nat.le_of_not_lt hi)]
    exact nofun

theorem savableSet_of_saveTextSet {ts : List Token} (h : saveTextSet g l = some ts) :
    SavableSet l := by
  rw [saveTextSet] at h
  obtain ⟨entries, hm, -⟩ := Option.bind_eq_some_iff.mp h
  refine savableSet_of_mapM (fun e b hb hs => ?_) hm
  rw [hs] at hb
  cases hb

theorem savableSet_of_saveBinarySet {bs : List BlockSerializer}
    (h : saveBinarySet g l = some bs) : SavableSet l := by
  rw [saveBinarySet] at h
  obtain ⟨entries, hm, -⟩ := Option.bind_eq_some_iff.mp h
  refine savableSet_of_mapM (fun e b hb hs => ?_) hm
  rw [hs] at hb
  cases hb

/-- **A round trip** that is there if something can be saved at all, and is faithful under a
condition. -/
theorem exists_roundTrip_iff {α β : Type*} {save : Option α} {load : α → Option β}
    {Same : β → Prop} {CanSave Faithful : Prop} (hsave : ∀ a, save = some a → CanSave)
    (htrip : CanSave → ∃ a c, save = some a ∧ load a = some c ∧ (Same c ↔ Faithful)) :
    (∃ a c, save = some a ∧ load a = some c ∧ Same c) ↔ CanSave ∧ Faithful := by
  constructor
  · rintro ⟨a, c, hs, hl, hsame⟩
    obtain ⟨a', c', hs', hl', hiff⟩ := htrip (hsave a hs)
    cases hs.symm.trans hs'
    cases hl.symm.trans hl'
    exact ⟨hsave a hs, hiff.mp hsame⟩
  · rintro ⟨hcan, hfaithful⟩
    obtain ⟨a, c, hs, hl, hiff⟩ := htrip hcan
    exact ⟨a, c, hs, hl, hiff.mpr hfaithful⟩

/-- **When a cache is restored by its text checkpoint.** -/
theorem textRestores_iff (c : StdCache g) : c.TextRestores ↔ Savable c ∧
    ∀ i < 2 ^ g.setBits, Fills g.theAssoc (i <<< g.blockShift) (c.theBlocks i) := by
  refine exists_roundTrip_iff (fun ts hts => ?_) fun hsave => ?_
  · obtain ⟨sets, hm, -⟩ := Option.bind_eq_some_iff.mp hts
    exact savable_of_mapM (fun l b hb => savableSet_of_saveTextSet (g := g) hb) hm
  · choose piece hpiece hload using fun i => loadTextSet_saveTextSet (c.wf i) (hsave i)
    obtain ⟨c', hc', hin, hout⟩ := loadSets_spec (loadTextSet g) piece _
      (List.range (2 ^ g.setBits)) nodup_range (c := fun _ => []) (fun _ _ => rfl)
      (fun i _ => hload i) []
    rw [append_nil] at hc'
    refine ⟨((List.range (2 ^ g.setBits)).map piece).flatten, c', ?_, hc', ?_⟩
    · rw [saveText, Cache.mapM_eq_some fun i _ => hpiece i]
      rfl
    · exact c.answers_reloaded_iff (fun i hi => hin i (mem_range.mpr hi))
        fun i hi => hout i fun hc => hi (mem_range.mp hc)

/-- **When a cache is restored by its binary checkpoint.** -/
theorem binaryRestores_iff (c : StdCache g) : c.BinaryRestores ↔ Savable c ∧
    ∀ i < 2 ^ g.setBits, Fills g.theAssoc 0 (c.theBlocks i) := by
  refine exists_roundTrip_iff (fun a ha => ?_) fun hsave => ?_
  · obtain ⟨sets, hm, -⟩ := Option.bind_eq_some_iff.mp ha
    exact savable_of_mapM (fun l b hb => savableSet_of_saveBinarySet (g := g) hb) hm
  · choose piece hpiece hload using fun i => loadBinary_saveBinarySet (c.wf i) (hsave i)
    obtain ⟨c', hc', hin, hout⟩ := loadSets_spec
      (fun _ => loadBinaryEntries (List.range g.theAssoc)) piece _
      (List.range (2 ^ g.setBits)) nodup_range (c := fun _ => []) (fun _ _ => rfl)
      (fun i _ => hload i) []
    rw [append_nil] at hc'
    refine ⟨⟨2 ^ g.setBits, g.theAssoc, ((List.range (2 ^ g.setBits)).map piece).flatten⟩, c', ?_,
      ?_, ?_⟩
    · rw [saveBinary, Cache.mapM_eq_some fun i _ => hpiece i]
      rfl
    · exact (if_pos ⟨rfl, rfl⟩).trans hc'
    · exact c.answers_reloaded_iff (fun i hi => hin i (mem_range.mpr hi))
        fun i hi => hout i fun hc => hi (mem_range.mp hc)

/-- **When a cache is restored by its own checkpoints**: no block is migratory, and in every set
nothing is added. The text format fills a set up with the tag of its first block, and the binary
format with the tag zero. -/
theorem restores_iff (c : StdCache g) :
    (c.TextRestores ↔ Savable c ∧
      ∀ i < 2 ^ g.setBits, Fills g.theAssoc (i <<< g.blockShift) (c.theBlocks i)) ∧
    (c.BinaryRestores ↔ Savable c ∧
      ∀ i < 2 ^ g.setBits, Fills g.theAssoc 0 (c.theBlocks i)) :=
  ⟨c.textRestores_iff, c.binaryRestores_iff⟩

/-- A cache with one set of two ways. -/
def twoWays : Geometry := ⟨6, 0, 2, Nat.two_pos⟩

/-- **A block that is evicted for nothing.** A cache that holds one block in one of two ways has
room for a second one; after it was saved and loaded it evicts the first block for it. -/
theorem restores_twoWays : ∃ c : StdCache twoWays,
    (empty twoWays).respond 64 (.fill .modified) = .ok (c, .invalid, none) ∧
    answers twoWays c.theBlocks [(128, .fill .shared)] = [(.invalid, none)] ∧
    (∃ ts c', c.saveText = some ts ∧ loadText twoWays (fun _ => []) ts = some c' ∧
      answers twoWays c' [(128, .fill .shared)] = [(.invalid, some (64, .modified))]) ∧
    (∃ a c', c.saveBinary = some a ∧ loadBinary twoWays (fun _ => []) a = some c' ∧
      answers twoWays c' [(128, .fill .shared)] = [(.invalid, some (64, .modified))]) ∧
    ¬c.TextRestores ∧ ¬c.BinaryRestores := by
  obtain ⟨c, hc, hblocks⟩ := respond_eq (empty twoWays) 64 (.fill .modified)
  have horiginal : answers twoWays c.theBlocks [(128, .fill .shared)] = [(.invalid, none)] := by
    rw [hblocks]
    rfl
  have htext : ∃ ts c', c.saveText = some ts ∧ loadText twoWays (fun _ => []) ts = some c' ∧
      answers twoWays c' [(128, .fill .shared)] = [(.invalid, some (64, .modified))] := by
    rw [saveText, hblocks]
    exact ⟨_, _, rfl, rfl, rfl⟩
  have hbinary : ∃ a c', c.saveBinary = some a ∧ loadBinary twoWays (fun _ => []) a = some c' ∧
      answers twoWays c' [(128, .fill .shared)] = [(.invalid, some (64, .modified))] := by
    rw [saveBinary, hblocks]
    exact ⟨_, _, rfl, rfl, rfl⟩
  refine ⟨c, hc, horiginal, htext, hbinary, ?_, ?_⟩
  · rintro ⟨ts, c', hsave, hload, hans⟩
    obtain ⟨ts', c'', hsave', hload', hans'⟩ := htext
    cases hsave.symm.trans hsave'
    cases hload.symm.trans hload'
    have hsame := hans [(128, .fill .shared)]
    rw [hans', horiginal] at hsame
    cases hsame
  · rintro ⟨a, c', hsave, hload, hans⟩
    obtain ⟨a', c'', hsave', hload', hans'⟩ := hbinary
    cases hsave.symm.trans hsave'
    cases hload.symm.trans hload'
    have hsame := hans [(128, .fill .shared)]
    rw [hans', horiginal] at hsame
    cases hsame

end StdCache

end Flexus
