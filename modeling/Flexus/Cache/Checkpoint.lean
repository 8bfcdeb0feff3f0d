import Flexus.FastCache.AccessOrder

/-!
# Checkpoints of private caches

A functional cache writes its contents in one of two formats
(`components/FastCache/StdCache.hpp`, `saveState`), and the array of a timing cache reads
them (`components/Cache/StdArray.hpp`, `loadState`, with `loadTextState` and `loadState` of
`SetLRU`). Both formats list the entries of a set in their order of use, least recently used
first, and fill up with invalid entries.

The text format is modelled by the tokens that the stream extractors deliver: a character
that is not white space, or a number. A number where the loader wants a character, or the
other way round, cannot be in a checkpoint that was saved, and the model stops there. Of the
binary format the archive delivers its values in the order in which they were written; the
way of an entry is not among them.
-/

namespace Flexus

open Function List

open Cache

/-! ### The two formats -/

/-- The punctuation of the text format: braces around the entries of a set, brackets around
an entry, and angles around the list that follows. -/
inductive Paren
  | openBrace
  | closeBrace
  | openBracket
  | closeBracket
  | less
  | greater
  deriving DecidableEq

/-- What an extractor delivers. -/
inductive Token
  | paren (p : Paren)
  | num (n : ℕ)
  deriving DecidableEq

/-- `BlockSerializer`, as far as it is serialized. -/
structure BlockSerializer where
  tag : ℕ
  state : Char
  deriving DecidableEq

/-- A binary checkpoint. -/
structure Archive where
  setCount : ℕ
  associativity : ℕ
  blocks : List BlockSerializer
  deriving DecidableEq

/-! ### Saving -/

namespace StdCache

variable {g : Geometry}

/-- `kSave_ValidBit`. -/
def kSaveValidBit : ℕ := 1

/-- `kSave_DirtyBit`. -/
def kSaveDirtyBit : ℕ := 2

/-- `kSave_ModifiableBit`. -/
def kSaveModifiableBit : ℕ := 4

/-- The state of an entry in the text format; the source asserts on a migratory one. -/
def saveInt : CoherenceState → Option ℕ
  | .modified => some (kSaveValidBit ||| kSaveDirtyBit ||| kSaveModifiableBit)
  | .owned => some (kSaveValidBit ||| kSaveDirtyBit)
  | .exclusive => some (kSaveValidBit ||| kSaveModifiableBit)
  | .shared => some kSaveValidBit
  | .invalid => some 0
  | .migratory => none

/-- The state of an entry in the binary format. -/
def saveChar : CoherenceState → Option Char
  | .modified => some 'M'
  | .owned => some 'O'
  | .exclusive => some 'E'
  | .shared => some 'S'
  | .invalid => some 'I'
  | .migratory => none

/-- An entry of the text format. -/
def textEntry (state tag : ℕ) : List Token :=
  [.paren .openBracket, .num state, .num tag, .paren .closeBracket]

/-- A set in the text format. -/
def saveTextSet (g : Geometry) (l : BlockSet) : Option (List Token) := do
  let entries ← l.mapM fun e => do
    let s ← saveInt e.state
    pure (textEntry s (e.tag >>> (g.blockShift + g.setBits)))
  pure (.paren .openBrace :: (entries ++
    List.replicate (g.theAssoc - l.length) (textEntry 0 0)).flatten ++
      (.paren .closeBrace :: .paren .less ::
        ((List.range g.theAssoc).map Token.num ++ [.paren .greater])))

/-- **`saveState`, text format.** -/
def saveText (c : StdCache g) : Option (List Token) := do
  let sets ← (List.range (2 ^ g.setBits)).mapM fun i => saveTextSet g (c.theBlocks i)
  pure sets.flatten

/-- A set in the binary format. -/
def saveBinarySet (g : Geometry) (l : BlockSet) : Option (List BlockSerializer) := do
  let entries ← l.mapM fun e => do
    let s ← saveChar e.state
    pure ⟨e.tag, s⟩
  pure (entries ++ List.replicate (g.theAssoc - l.length) ⟨0, 'I'⟩)

/-- **`saveState`, binary format.** -/
def saveBinary (c : StdCache g) : Option Archive := do
  let sets ← (List.range (2 ^ g.setBits)).mapM fun i => saveBinarySet g (c.theBlocks i)
  pure ⟨2 ^ g.setBits, g.theAssoc, sets.flatten⟩

end StdCache

/-! ### Loading -/

namespace Cache

/-- `int2State`. -/
def int2State : ℕ → Option BasicState
  | 7 => some .modified
  | 3 => some .owned
  | 5 => some .exclusive
  | 1 => some .shared
  | 0 => some .invalid
  | _ => none

/-- `char2State`. -/
def char2State : Char → Option BasicState
  | 'M' => some .modified
  | 'O' => some .owned
  | 'E' => some .exclusive
  | 'S' => some .shared
  | 'I' => some .invalid
  | _ => none

namespace SetLRU

variable {n : ℕ}

/-- A block is read: the assignment of the state leaves the protection alone. -/
def readBlock (s : SetLRU n) (w tag : ℕ) (v : BasicState) : SetLRU n :=
  s.setBlock w ⟨tag, (s.theBlocks w).state.assign v⟩

/-- The entries of `loadTextState`, for the ways that are left. The brackets are read, but
not checked. -/
def loadTextEntries (theSet theTagShift theSetShift : ℕ) :
    List ℕ → SetLRU n → List Token → Option (SetLRU n × List Token)
  | [], s, ts => some (s, ts)
  | w :: ways, s, .paren _ :: .num state :: .num tag :: .paren _ :: ts => do
    let v ← int2State state
    loadTextEntries theSet theTagShift theSetShift ways
      (s.readBlock w ((tag <<< theTagShift) ||| (theSet <<< theSetShift)) v) ts
  | _, _, _ => none

/-- The numbers that `loadTextState` reads and drops. -/
def dropNums : ℕ → List Token → Option (List Token)
  | 0, ts => some ts
  | k + 1, .num _ :: ts => dropNums k ts
  | _, _ => none

/-- **`loadTextState`**: the ways are filled in ascending order. Wrong braces are an error; at
a wrong angle the source stops reading the set, but reports no error. -/
def loadTextState (s : SetLRU n) (theSet theTagShift theSetShift : ℕ) :
    List Token → Option (SetLRU n × List Token)
  | .paren .openBrace :: ts => do
    let (s, ts) ← loadTextEntries theSet theTagShift theSetShift (List.range n) s ts
    match ts with
    | .paren .closeBrace :: .paren .less :: ts => do
      let ts ← dropNums n ts
      match ts with
      | .paren _ :: ts => pure (s, ts)
      | _ => none
    | .paren .closeBrace :: .paren _ :: ts => pure (s, ts)
    | _ => none
  | _ => none

/-- The loop of `loadState`, for the ways that are left. -/
def loadBlocks : List ℕ → SetLRU n → List BlockSerializer →
    Option (SetLRU n × List BlockSerializer)
  | [], s, bs => some (s, bs)
  | w :: ways, s, b :: bs => do
    let v ← char2State b.state
    loadBlocks ways (s.readBlock w b.tag v) bs
  | _, _, [] => none

/-- **`loadState`**: the ways are filled in descending order, and every way is put at the
place of its number in the order. -/
def loadState (s : SetLRU n) (bs : List BlockSerializer) :
    Option (SetLRU n × List BlockSerializer) := do
  let (s, bs) ← loadBlocks (List.range n).reverse s bs
  pure (⟨s.theBlocks, List.range n, (default n).perm⟩, bs)

end SetLRU

namespace StdArray

variable {g : Geometry}

/-- The loop over the sets of an array, each of which takes its part of the input. -/
def loadSets {τ : Type} (load : ℕ → SetLRU g.theAssoc → τ → Option (SetLRU g.theAssoc × τ)) :
    List ℕ → StdArray g → τ → Option (StdArray g)
  | [], c, _ => some c
  | i :: sets, c, t => do
    let (s, t) ← load i (c.theSets i) t
    loadSets load sets (c.setSet i s) t

/-- **`loadState`, text format.** -/
def loadText (c : StdArray g) (ts : List Token) : Option (StdArray g) :=
  loadSets (fun i s => s.loadTextState i (g.blockShift + g.setBits) g.blockShift)
    (List.range (2 ^ g.setBits)) c ts

/-- **`loadState`, binary format**: the geometry is asserted. -/
def loadBinary (c : StdArray g) (a : Archive) : Option (StdArray g) :=
  if a.setCount = 2 ^ g.setBits ∧ a.associativity = g.theAssoc then
    loadSets (fun _ s => s.loadState) (List.range (2 ^ g.setBits)) c a.blocks
  else none

end StdArray

/-! ### What is loaded -/

/-- A state after it has been saved and loaded. -/
def savedState : CoherenceState → BasicState
  | .modified => .modified
  | .owned => .owned
  | .exclusive => .exclusive
  | .shared => .shared
  | _ => .invalid

theorem exists_saveInt {s : CoherenceState} (h : s ≠ .migratory) :
    ∃ k, StdCache.saveInt s = some k ∧ int2State k = some (savedState s) := by
  cases s with
  | migratory => exact absurd rfl h
  | _ => exact ⟨_, rfl, rfl⟩

theorem exists_saveChar {s : CoherenceState} (h : s ≠ .migratory) :
    ∃ k, StdCache.saveChar s = some k ∧ char2State k = some (savedState s) := by
  cases s with
  | migratory => exact absurd rfl h
  | _ => exact ⟨_, rfl, rfl⟩

theorem savedState_eq_invalid_iff {s : CoherenceState} (h : s ≠ .migratory) :
    savedState s = .invalid ↔ s = .invalid := by
  cases s with
  | migratory => exact absurd rfl h
  | _ => decide

/-- **A tag is put together again** from what is saved of it and the number of the set. -/
theorem or_of_shiftRight {g : Geometry} {t i : ℕ} (ht : g.getTag t = t) (hi : g.getSet t = i) :
    ((t >>> (g.blockShift + g.setBits)) <<< (g.blockShift + g.setBits)) |||
      (i <<< g.blockShift) = t := by
  subst hi
  set u := t / 2 ^ g.blockShift with hu
  have hset : g.getSet t = u % 2 ^ g.setBits := rfl
  have hhigh : t >>> (g.blockShift + g.setBits) = u >>> g.setBits := by
    rw [Nat.shiftRight_add, Nat.shiftRight_eq_div_pow t]
  have hor : ((u >>> g.setBits) <<< g.setBits) ||| (u % 2 ^ g.setBits) = u := by
    rw [← Nat.shiftLeft_add_eq_or_of_lt (Nat.mod_lt _ (Nat.two_pow_pos _)), Nat.shiftLeft_eq,
      Nat.shiftRight_eq_div_pow]
    exact Nat.div_add_mod' u _
  rw [hhigh, hset, Nat.add_comm, Nat.shiftLeft_add, ← Nat.shiftLeft_or_distrib, hor,
    Nat.shiftLeft_eq]
  exact ht

/-- The places of a set in a checkpoint: the entries, and what fills the set up. -/
def places (n : ℕ) (l : BlockSet) : List (Option BlockEntry) :=
  l.map some ++ List.replicate (n - l.length) none

theorem length_places {n : ℕ} {l : BlockSet} (h : l.length ≤ n) : (places n l).length = n := by
  rw [places, length_append, length_map, length_replicate]
  omega

/-- What is loaded from a place: an entry, or a block with the given tag that is invalid. -/
def placeBlock (pad : ℕ) : Option BlockEntry → Block
  | some e => ⟨e.tag, ⟨savedState e.state, false⟩⟩
  | none => ⟨pad, ⟨.invalid, false⟩⟩

namespace SetLRU

variable {n : ℕ} {s : SetLRU n}

/-- **The blocks of a set after a load**, in the order of the given ways. -/
structure Loaded (s s' : SetLRU n) (ways : List ℕ) (row : List Block) : Prop where
  order : s'.theMRUOrder = s.theMRUOrder
  blocks : ways.map s'.theBlocks = row
  others : ∀ w ∉ ways, s'.theBlocks w = s.theBlocks w

theorem Loaded.nil (s : SetLRU n) : Loaded s s [] [] := ⟨rfl, rfl, fun _ _ => rfl⟩

theorem Loaded.cons {s' : SetLRU n} {w tag : ℕ} {v : BasicState} {ways : List ℕ}
    {row : List Block} (hw : w ∉ ways) (hs : (s.theBlocks w).state.isProtected = false)
    (h : Loaded (s.readBlock w tag v) s' ways row) :
    Loaded s s' (w :: ways) (⟨tag, ⟨v, false⟩⟩ :: row) where
  order := h.order
  blocks := by
    rw [map_cons, h.others w hw, h.blocks, readBlock, theBlocks_setBlock,
      update_self, BasicCacheState.assign, hs]
  others w' hw' := by
    rw [mem_cons, not_or] at hw'
    rw [h.others w' hw'.2, readBlock, theBlocks_setBlock, update_of_ne hw'.1]

theorem readBlock_unprotected (w tag : ℕ) (v : BasicState)
    (h : ∀ w, (s.theBlocks w).state.isProtected = false) (w' : ℕ) :
    ((s.readBlock w tag v).theBlocks w').state.isProtected = false := by
  rw [readBlock, theBlocks_setBlock]
  by_cases hw : w' = w
  · subst hw
    rw [update_self]
    exact h w'
  · rw [update_of_ne hw]
    exact h w'

/-- **The entries of a text checkpoint.** -/
theorem loadTextEntries_spec {α : Type} (theSet theTagShift theSetShift : ℕ) (state tag : α → ℕ)
    (v : α → BasicState) (block : α → Block) (xs : List α)
    (hstate : ∀ x ∈ xs, int2State (state x) = some (v x))
    (hblock : ∀ x ∈ xs, block x =
      ⟨(tag x <<< theTagShift) ||| (theSet <<< theSetShift), ⟨v x, false⟩⟩)
    (ways : List ℕ) (hways : ways.Nodup) (hlen : ways.length = xs.length)
    (hs : ∀ w, (s.theBlocks w).state.isProtected = false) (ts : List Token) :
    ∃ s', loadTextEntries theSet theTagShift theSetShift ways s
        ((xs.map fun x => StdCache.textEntry (state x) (tag x)).flatten ++ ts) = some (s', ts) ∧
      Loaded s s' ways (xs.map block) := by
  induction xs generalizing ways s with
  | nil =>
    obtain rfl : ways = [] := by simpa using hlen
    exact ⟨s, rfl, Loaded.nil s⟩
  | cons x xs ih =>
    obtain ⟨w, ways, rfl⟩ : ∃ w ways', ways = w :: ways' :=
      exists_cons_of_length_eq_add_one hlen
    obtain ⟨hw, hways⟩ := nodup_cons.mp hways
    obtain ⟨s', hload, hrow⟩ := ih (fun x hx => hstate x (mem_cons_of_mem _ hx))
      (fun x hx => hblock x (mem_cons_of_mem _ hx)) ways hways (by simpa using hlen)
      (readBlock_unprotected w ((tag x <<< theTagShift) ||| (theSet <<< theSetShift)) (v x) hs)
    refine ⟨s', ?_, ?_⟩
    · simp only [map_cons, flatten_cons, StdCache.textEntry, cons_append,
        nil_append, loadTextEntries, hstate x mem_cons_self, Option.bind_eq_bind,
        Option.bind_some]
      exact hload
    · rw [map_cons, hblock x mem_cons_self]
      exact hrow.cons hw (hs w)

/-- **The entries of a binary checkpoint.** -/
theorem loadBlocks_spec {α : Type} (record : α → BlockSerializer) (block : α → Block)
    (xs : List α) (hblock : ∀ x ∈ xs, ∃ v, char2State (record x).state = some v ∧
      block x = ⟨(record x).tag, ⟨v, false⟩⟩)
    (ways : List ℕ) (hways : ways.Nodup) (hlen : ways.length = xs.length)
    (hs : ∀ w, (s.theBlocks w).state.isProtected = false) (bs : List BlockSerializer) :
    ∃ s', loadBlocks ways s (xs.map record ++ bs) = some (s', bs) ∧
      Loaded s s' ways (xs.map block) := by
  induction xs generalizing ways s with
  | nil =>
    obtain rfl : ways = [] := by simpa using hlen
    exact ⟨s, rfl, Loaded.nil s⟩
  | cons x xs ih =>
    obtain ⟨w, ways, rfl⟩ : ∃ w ways', ways = w :: ways' :=
      exists_cons_of_length_eq_add_one hlen
    obtain ⟨hw, hways⟩ := nodup_cons.mp hways
    obtain ⟨v, hv, hb⟩ := hblock x mem_cons_self
    obtain ⟨s', hload, hrow⟩ := ih (fun x hx => hblock x (mem_cons_of_mem _ hx)) ways hways
      (by simpa using hlen) (readBlock_unprotected w (record x).tag v hs)
    refine ⟨s', ?_, ?_⟩
    · simp only [map_cons, cons_append, loadBlocks, hv, Option.bind_eq_bind, Option.bind_some]
      exact hload
    · rw [map_cons, hb]
      exact hrow.cons hw (hs w)

theorem dropNums_map (ks : List ℕ) (ts : List Token) :
    dropNums ks.length (ks.map Token.num ++ ts) = some ts := by
  induction ks with
  | nil => rfl
  | cons k ks ih => exact ih

end SetLRU

/-! ### Round trips of a set -/

/-- All blocks of a set can be saved. -/
def SavableSet (l : BlockSet) : Prop := ∀ e ∈ l, e.state ≠ .migratory

theorem mapM_eq_some {α β : Type} {f : α → Option β} {h : α → β} {l : List α}
    (hl : ∀ x ∈ l, f x = some (h x)) : l.mapM f = some (l.map h) := by
  induction l with
  | nil => rfl
  | cons x l ih =>
    rw [mapM_cons, hl x mem_cons_self, ih fun y hy => hl y (mem_cons_of_mem _ hy)]
    rfl

theorem mem_places {n : ℕ} {l : BlockSet} {x : Option BlockEntry} (h : x ∈ places n l) :
    x = none ∨ ∃ e ∈ l, x = some e := by
  rcases mem_append.mp h with h | h
  · obtain ⟨e, he, rfl⟩ := mem_map.mp h
    exact .inr ⟨e, he, rfl⟩
  · exact .inl (eq_of_mem_replicate h)

variable {g : Geometry} {i : ℕ} {l : BlockSet}

/-- What the text format has at a place: the number for the state. -/
def placeInt (x : Option BlockEntry) : ℕ := (x.bind fun e => StdCache.saveInt e.state).getD 0

/-- What the text format has at a place: the high bits of the tag. -/
def placeTag (g : Geometry) (x : Option BlockEntry) : ℕ :=
  (x.map fun e => e.tag >>> (g.blockShift + g.setBits)).getD 0

/-- What the binary format has at a place. -/
def placeRecord (x : Option BlockEntry) : BlockSerializer :=
  ⟨(x.map BlockEntry.tag).getD 0, (x.bind fun e => StdCache.saveChar e.state).getD 'I'⟩

theorem int2State_placeInt {n pad : ℕ} (hsave : SavableSet l) :
    ∀ x ∈ places n l, int2State (placeInt x) = some (placeBlock pad x).state.val := by
  intro x hx
  rcases mem_places hx with rfl | ⟨e, he, rfl⟩
  · rfl
  · obtain ⟨k, hk, hk'⟩ := exists_saveInt (hsave e he)
    rw [placeInt, Option.bind_some, hk, Option.getD_some, hk', placeBlock]

theorem placeBlock_placeTag (hl : l.WF g i) {n : ℕ} :
    ∀ x ∈ places n l, placeBlock (i <<< g.blockShift) x =
      ⟨(placeTag g x <<< (g.blockShift + g.setBits)) ||| (i <<< g.blockShift),
        ⟨(placeBlock (i <<< g.blockShift) x).state.val, false⟩⟩ := by
  intro x hx
  rcases mem_places hx with rfl | ⟨e, he, rfl⟩
  · rw [placeTag, Option.map_none, Option.getD_none, Nat.zero_shiftLeft, Nat.zero_or, placeBlock]
  · rw [placeTag, Option.map_some, Option.getD_some,
      or_of_shiftRight (hl.isTag e he) (hl.isHome e he), placeBlock]

theorem char2State_placeRecord {n : ℕ} (hsave : SavableSet l) :
    ∀ x ∈ places n l, ∃ v, char2State (placeRecord x).state = some v ∧
      placeBlock 0 x = ⟨(placeRecord x).tag, ⟨v, false⟩⟩ := by
  intro x hx
  rcases mem_places hx with rfl | ⟨e, he, rfl⟩
  · exact ⟨_, rfl, rfl⟩
  · obtain ⟨k, hk, hk'⟩ := exists_saveChar (hsave e he)
    refine ⟨savedState e.state, ?_, rfl⟩
    rw [placeRecord, Option.bind_some, hk, Option.getD_some, hk']

theorem saveTextSet_eq (hsave : SavableSet l) : StdCache.saveTextSet g l =
    some (.paren .openBrace :: ((places g.theAssoc l).map fun x =>
      StdCache.textEntry (placeInt x) (placeTag g x)).flatten ++
        (.paren .closeBrace :: .paren .less ::
          ((List.range g.theAssoc).map Token.num ++ [.paren .greater]))) := by
  have hentries : l.mapM (fun e => do
      let s ← StdCache.saveInt e.state
      pure (StdCache.textEntry s (e.tag >>> (g.blockShift + g.setBits)))) =
      some (l.map fun e => StdCache.textEntry (placeInt (some e)) (placeTag g (some e))) := by
    refine mapM_eq_some fun e he => ?_
    obtain ⟨k, hk, -⟩ := exists_saveInt (hsave e he)
    simp only [placeInt, placeTag, hk, Option.bind_eq_bind, Option.bind_some, Option.getD_some,
      Option.map_some, Option.pure_def]
  rw [StdCache.saveTextSet, hentries, places, map_append, map_map, map_replicate]
  rfl

theorem saveBinarySet_eq (hsave : SavableSet l) : StdCache.saveBinarySet g l =
    some ((places g.theAssoc l).map placeRecord) := by
  have hentries : l.mapM (fun e => do
      let s ← StdCache.saveChar e.state
      pure (⟨e.tag, s⟩ : BlockSerializer)) =
      some (l.map fun e => placeRecord (some e)) := by
    refine mapM_eq_some fun e he => ?_
    obtain ⟨k, hk, -⟩ := exists_saveChar (hsave e he)
    simp only [placeRecord, hk, Option.bind_eq_bind, Option.bind_some, Option.getD_some,
      Option.map_some, Option.pure_def]
  rw [StdCache.saveBinarySet, hentries, places, map_append, map_map, map_replicate]
  rfl

/-- **A set that was saved as text is loaded**: its places fill the ways in ascending order. -/
theorem loadTextState_saveTextSet (hl : l.WF g i) (hsave : SavableSet l) :
    ∃ t, StdCache.saveTextSet g l = some t ∧ ∀ (s : SetLRU g.theAssoc) (ts : List Token),
      (∀ w, (s.theBlocks w).state.isProtected = false) → ∃ s',
        s.loadTextState i (g.blockShift + g.setBits) g.blockShift (t ++ ts) = some (s', ts) ∧
        SetLRU.Loaded s s' (List.range g.theAssoc)
          ((places g.theAssoc l).map (placeBlock (i <<< g.blockShift))) := by
  refine ⟨_, saveTextSet_eq hsave, fun s ts hs => ?_⟩
  obtain ⟨s', hload, hrow⟩ := SetLRU.loadTextEntries_spec i (g.blockShift + g.setBits)
    g.blockShift placeInt (placeTag g) (fun x => (placeBlock (i <<< g.blockShift) x).state.val)
    (placeBlock (i <<< g.blockShift)) (places g.theAssoc l) (int2State_placeInt hsave)
    (placeBlock_placeTag hl) (List.range g.theAssoc) nodup_range
    (by rw [length_places hl.length_le, length_range]) hs
    (.paren .closeBrace :: .paren .less ::
      ((List.range g.theAssoc).map Token.num ++ (.paren .greater :: ts)))
  refine ⟨s', ?_, hrow⟩
  have hdrop := SetLRU.dropNums_map (List.range g.theAssoc) (.paren .greater :: ts)
  rw [length_range] at hdrop
  simp only [cons_append, append_assoc, nil_append, SetLRU.loadTextState, hload,
    Option.bind_eq_bind, Option.bind_some, hdrop, Option.pure_def]

/-- **A set that was saved in binary is loaded**: its places fill the ways in descending
order. -/
theorem loadState_saveBinarySet (hl : l.WF g i) (hsave : SavableSet l) :
    ∃ t, StdCache.saveBinarySet g l = some t ∧
      ∀ (s : SetLRU g.theAssoc) (ts : List BlockSerializer),
      s.theMRUOrder = List.range g.theAssoc →
      (∀ w, (s.theBlocks w).state.isProtected = false) → ∃ s',
        s.loadState (t ++ ts) = some (s', ts) ∧
        SetLRU.Loaded s s' (List.range g.theAssoc).reverse
          ((places g.theAssoc l).map (placeBlock 0)) := by
  refine ⟨_, saveBinarySet_eq hsave, fun s ts hord hs => ?_⟩
  obtain ⟨s', hload, hrow⟩ := SetLRU.loadBlocks_spec placeRecord (placeBlock 0)
    (places g.theAssoc l) (char2State_placeRecord hsave) (List.range g.theAssoc).reverse
    (nodup_reverse.mpr nodup_range)
    (by rw [length_places hl.length_le, length_reverse, length_range]) hs ts
  refine ⟨⟨s'.theBlocks, List.range g.theAssoc, List.Perm.refl _⟩, ?_,
    ⟨hord.symm, hrow.blocks, hrow.others⟩⟩
  rw [SetLRU.loadState, hload]
  rfl

/-! ### Round trips of an array -/

namespace StdArray

/-- The loop over the sets, when the input is that of one set after another. -/
theorem loadSets_spec {α : Type}
    (load : ℕ → SetLRU g.theAssoc → List α → Option (SetLRU g.theAssoc × List α))
    (pieces : ℕ → List α) (post : ℕ → SetLRU g.theAssoc → Prop) (sets : List ℕ)
    (hsets : sets.Nodup) {c : StdArray g}
    (hload : ∀ i ∈ sets, ∀ ts, ∃ s', load i (c.theSets i) (pieces i ++ ts) = some (s', ts) ∧
      post i s') (ts : List α) :
    ∃ c', loadSets load sets c ((sets.map pieces).flatten ++ ts) = some c' ∧
      (∀ i ∈ sets, post i (c'.theSets i)) ∧ ∀ i ∉ sets, c'.theSets i = c.theSets i := by
  induction sets generalizing c with
  | nil => exact ⟨c, rfl, nofun, fun _ _ => rfl⟩
  | cons i sets ih =>
    obtain ⟨hi, hsets⟩ := nodup_cons.mp hsets
    obtain ⟨s', hs', hpost⟩ := hload i mem_cons_self ((sets.map pieces).flatten ++ ts)
    have hother : ∀ j, j ≠ i → (c.setSet i s').theSets j = c.theSets j := fun j hj =>
      update_of_ne hj _ _
    obtain ⟨c', hc', hin, hout⟩ := ih (c := c.setSet i s') hsets (by
      intro j hj ts
      rw [hother j fun hc => hi (hc ▸ hj)]
      exact hload j (mem_cons_of_mem _ hj) ts)
    refine ⟨c', ?_, ?_, ?_⟩
    · rw [map_cons, flatten_cons, append_assoc, loadSets, hs']
      exact hc'
    · intro j hj
      rcases mem_cons.mp hj with rfl | hj
      · rw [hout j hi, theSets_setSet_self]
        exact hpost
      · exact hin j hj
    · intro j hj
      rw [mem_cons, not_or] at hj
      rw [hout j hj.2, hother j hj.1]

end StdArray

/-- All blocks of a cache can be saved. -/
def Savable (c : StdCache g) : Prop := ∀ i, SavableSet (c.theBlocks i)

/-- **What is in an array after a load**: from the least recently used way on, the places of
the checkpoint in the given order. -/
structure Loads (order : List Block → List Block) (c : StdCache g) (t : StdArray g) : Prop where
  blocks : ∀ i, ∃ pad, (t.theSets i).theMRUOrder.reverse.map (t.theSets i).theBlocks =
    order ((places g.theAssoc (c.theBlocks i)).map (placeBlock pad))
  unprotected : t.Unprotected

theorem theBlocks_eq_nil (c : StdCache g) {i : ℕ} (hi : 2 ^ g.setBits ≤ i) :
    c.theBlocks i = [] := by
  refine eq_nil_iff_forall_not_mem.mpr fun e he => ?_
  have hlt : g.getSet e.tag < 2 ^ g.setBits := Nat.mod_lt _ (Nat.two_pow_pos _)
  rw [(c.wf i).isHome e he] at hlt
  omega

theorem map_theBlocks_default (n : ℕ) (l : List ℕ) (hl : l.length = n) :
    l.map (SetLRU.default n).theBlocks = (places n []).map (placeBlock 0) := by
  rw [places, map_nil, nil_append, map_replicate, length_nil, Nat.sub_zero, ← hl]
  exact map_const'

theorem unprotected_of_loaded {n : ℕ} {s : SetLRU n} {ways : List ℕ} {pad : ℕ} {l : BlockSet}
    (h : SetLRU.Loaded (SetLRU.default n) s ways ((places n l).map (placeBlock pad))) (w : ℕ) :
    (s.theBlocks w).state.isProtected = false := by
  by_cases hw : w ∈ ways
  · have hmem : s.theBlocks w ∈ ways.map s.theBlocks := mem_map_of_mem hw
    rw [h.blocks] at hmem
    obtain ⟨x, -, hx⟩ := mem_map.mp hmem
    rw [← hx]
    cases x with
    | none => rfl
    | some e => rfl
  · rw [h.others w hw]
    rfl

/-- **Round trip of a text checkpoint.** The order of use is reversed. -/
theorem loadText_saveText (c : StdCache g) (h : Savable c) :
    ∃ ts t, c.saveText = some ts ∧ (StdArray.init g).loadText ts = some t ∧
      Loads List.reverse c t := by
  choose piece hpiece hload using fun i => loadTextState_saveTextSet (c.wf i) (h i)
  obtain ⟨t, ht, hin, hout⟩ := StdArray.loadSets_spec (c := StdArray.init g)
    (fun i s => s.loadTextState i (g.blockShift + g.setBits) g.blockShift) piece
    (fun i s => SetLRU.Loaded (SetLRU.default _) s (List.range g.theAssoc)
      ((places g.theAssoc (c.theBlocks i)).map (placeBlock (i <<< g.blockShift))))
    (List.range (2 ^ g.setBits)) nodup_range (fun i _ ts => hload i _ ts fun _ => rfl) []
  refine ⟨((List.range (2 ^ g.setBits)).map piece).flatten, t, ?_, ?_, ⟨fun i => ?_, fun i w => ?_⟩⟩
  · rw [StdCache.saveText, mapM_eq_some fun i _ => hpiece i]
    rfl
  · rw [append_nil] at ht
    exact ht
  · by_cases hi : i < 2 ^ g.setBits
    · have hl := hin i (mem_range.mpr hi)
      refine ⟨i <<< g.blockShift, ?_⟩
      rw [← hl.blocks, hl.order, map_reverse]
      rfl
    · refine ⟨0, ?_⟩
      rw [hout i (fun hc => hi (mem_range.mp hc)), theBlocks_eq_nil c (by omega),
        ← map_theBlocks_default g.theAssoc (List.range g.theAssoc) length_range,
        ← map_reverse]
      rfl
  · by_cases hi : i < 2 ^ g.setBits
    · exact unprotected_of_loaded (hin i (mem_range.mpr hi)) w
    · rw [hout i fun hc => hi (mem_range.mp hc)]
      rfl

/-- **Round trip of a binary checkpoint.** The order of use is kept. -/
theorem loadBinary_saveBinary (c : StdCache g) (h : Savable c) :
    ∃ a t, c.saveBinary = some a ∧ (StdArray.init g).loadBinary a = some t ∧ Loads id c t := by
  choose piece hpiece hload using fun i => loadState_saveBinarySet (c.wf i) (h i)
  obtain ⟨t, ht, hin, hout⟩ := StdArray.loadSets_spec (c := StdArray.init g)
    (fun _ s => s.loadState) piece
    (fun i s => SetLRU.Loaded (SetLRU.default _) s (List.range g.theAssoc).reverse
      ((places g.theAssoc (c.theBlocks i)).map (placeBlock 0)))
    (List.range (2 ^ g.setBits)) nodup_range (fun i _ ts => hload i _ ts rfl fun _ => rfl) []
  refine ⟨⟨2 ^ g.setBits, g.theAssoc, ((List.range (2 ^ g.setBits)).map piece).flatten⟩, t, ?_, ?_,
    ⟨fun i => ⟨0, ?_⟩, fun i w => ?_⟩⟩
  · rw [StdCache.saveBinary, mapM_eq_some fun i _ => hpiece i]
    rfl
  · rw [append_nil] at ht
    exact (if_pos ⟨rfl, rfl⟩).trans ht
  · by_cases hi : i < 2 ^ g.setBits
    · have hl := hin i (mem_range.mpr hi)
      rw [hl.order]
      exact hl.blocks
    · rw [hout i (fun hc => hi (mem_range.mp hc)), theBlocks_eq_nil c (by omega)]
      exact map_theBlocks_default g.theAssoc _ (by
        rw [length_reverse]
        exact length_range)
  · by_cases hi : i < 2 ^ g.setBits
    · exact unprotected_of_loaded (hin i (mem_range.mpr hi)) w
    · rw [hout i fun hc => hi (mem_range.mp hc)]
      rfl

end Cache

end Flexus
