import Flexus.FastCache.AccessOrder
import Flexus.Lib.Slots

/-!
# Requests to a functional cache

A cache above `StdCache` (`components/FastCache/StdCache.hpp`) looks a block up and then uses the
result of the lookup: it makes the block the most recently used, changes its state or allocates
it. What such a request is answered – the state that was found, and the block that was
evicted – depends on the tags and the states of the set in their order of use only, not on the
ways: a set answers as a set of slots (`Flexus.BlockSet.respond_row`).

The requests are written for the container of a set here, whatever is in it, and they are those
that the operations of the array make (`Flexus.StdCache.respond_eq`). So two arrays answer all
requests alike exactly if all their sets do (`Flexus.answers_eq_iff`).
-/

namespace Flexus

open Function Lib List

open Lib (Slots.Op)

namespace BlockSet

/-! ### Requests to a set -/

/-- `lookup` in a set: the entry, or else a new one at the front while there is room, or the one
at the front. -/
def lookup (n : ℕ) (l : BlockSet) (tag : ℕ) : BlockSet × CoherenceState × ℕ :=
  match l.findTag tag with
  | some e => (l, e.state, e.way)
  | none =>
    if l.length < n then (⟨tag, .invalid, l.length⟩ :: l, .invalid, l.length)
    else (l, .invalid, (l.head?.map BlockEntry.way).getD 0)

/-- `allocate`: the entry is given to the block and becomes the most recently used; what was in
it is evicted, if it was valid. -/
def allocate (l : BlockSet) (tag w : ℕ) (s : CoherenceState) :
    BlockSet × Option (ℕ × CoherenceState) :=
  match l.atWay w with
  | none => (l, none)
  | some e =>
    if e.tag ≠ tag then
      ((l.replaceBlock w tag s).toTail w, if e.state.isValid then some (e.tag, e.state) else none)
    else ((l.changeBlockState w s).toTail w, none)

/-- **A request to a set**: a lookup, and what the protocol does with its result. A valid block
can be made the most recently used (`updateLRU`) or change its state (`changeState`), and every
block can be allocated. The answer is the state that the lookup found, and the block that was
evicted. -/
def respond (n : ℕ) (l : BlockSet) (tag : ℕ) (op : Slots.Op CoherenceState) :
    BlockSet × CoherenceState × Option (ℕ × CoherenceState) :=
  let r := l.lookup n tag
  match op with
  | .look => (r.1, r.2.1, none)
  | .touch => (if r.2.1.isValid then r.1.toTail r.2.2 else r.1, r.2.1, none)
  | .change s mru lru =>
    (if r.2.1.isValid then
      let l := r.1.changeBlockState r.2.2 s
      if mru then l.toTail r.2.2 else if lru then l.toHead r.2.2 else l
    else r.1, r.2.1, none)
  | .fill s => ((r.1.allocate tag r.2.2 s).1, r.2.1, (r.1.allocate tag r.2.2 s).2)

/-- What a set answers depends on tags and states in their order. -/
def row (l : BlockSet) : List (ℕ × CoherenceState) := l.map fun e => (e.tag, e.state)

variable {n t : ℕ} {l : BlockSet} {e : BlockEntry}

theorem map_fst_row (l : BlockSet) : l.row.map Prod.fst = l.map BlockEntry.tag := by
  rw [row, map_map]
  rfl

theorem Indexed.way_eq_iff (h : l.Indexed) (he : e ∈ l) {d : BlockEntry} (hd : d ∈ l) :
    d.way = e.way ↔ d.tag = e.tag := by
  constructor
  · intro hw
    rw [eq_of_way_eq h.ways_nodup hd he hw]
  · intro ht
    rw [eq_of_tag_eq h.tags_nodup hd he ht]

theorem row_filter (h : l.Indexed) (he : e ∈ l) :
    row (l.filter fun d => d.way = e.way) = l.row.filter (fun x => x.1 = e.tag) ∧
      row (l.filter fun d => d.way ≠ e.way) = l.row.filter (fun x => x.1 ≠ e.tag) := by
  rw [row, row, row, filter_map, filter_map]
  constructor
  · refine congrArg _ (filter_congr fun d hd => ?_)
    exact decide_eq_decide.mpr (h.way_eq_iff he hd)
  · refine congrArg _ (filter_congr fun d hd => ?_)
    exact decide_eq_decide.mpr (not_congr (h.way_eq_iff he hd))

theorem row_toTail (h : l.Indexed) (he : e ∈ l) :
    (l.toTail e.way).row = Slots.toBack l.row e.tag := by
  obtain ⟨heq, hne⟩ := row_filter h he
  rw [toTail, row, map_append]
  exact congrArg₂ _ hne heq

theorem row_toHead (h : l.Indexed) (he : e ∈ l) :
    (l.toHead e.way).row = Slots.toFront l.row e.tag := by
  obtain ⟨heq, hne⟩ := row_filter h he
  rw [toHead, row, map_append]
  exact congrArg₂ _ heq hne

theorem row_changeBlockState (h : l.Indexed) (he : e ∈ l) (s : CoherenceState) :
    (l.changeBlockState e.way s).row = Slots.setValue l.row e.tag s := by
  rw [changeBlockState, row, row, Slots.setValue, map_map, map_map]
  refine map_congr_left fun d hd => ?_
  simp only [comp_apply, h.way_eq_iff he hd]
  split <;> rfl

theorem toTail_replaceBlock_cons (h : Indexed (e :: l)) (s : CoherenceState) :
    toTail (replaceBlock (e :: l) e.way t s) e.way = l ++ [⟨t, s, e.way⟩] := by
  rw [replaceBlock]
  exact toTail_map (p := []) (f := fun d => { d with tag := t, state := s }) (fun _ => rfl)
    h.ways_nodup

theorem Indexed.replace_cons (h : Indexed (e :: l)) (ht : ∀ d ∈ e :: l, d.tag ≠ t)
    (s : CoherenceState) : Indexed (l ++ [⟨t, s, e.way⟩]) := by
  rw [← toTail_replaceBlock_cons h s]
  exact (h.replaceBlock ht e.way s).perm (toTail_perm _ _)

/-- **What a lookup in a set finds**: the entry of the block, or nothing in a full set. -/
theorem lookup_row (h : l.Indexed) (n t : ℕ) :
    (l.lookup n t).1.Indexed ∧ (l.lookup n t).1.row = Slots.enter .invalid n l.row t ∧
      (l.lookup n t).2.1 = Slots.valueOf .invalid l.row t ∧
      ((∃ e ∈ (l.lookup n t).1, e.tag = t ∧ e.way = (l.lookup n t).2.2) ∨
        ((l.lookup n t).1 = l ∧ (∀ d ∈ l, d.tag ≠ t) ∧ n ≤ l.length ∧
          (l.lookup n t).2 = (.invalid, (l.head?.map BlockEntry.way).getD 0))) := by
  have hfind : l.row.find? (fun x => x.1 = t) = (l.findTag t).map fun e => (e.tag, e.state) := by
    rw [row, findTag, find?_map]
    rfl
  rw [lookup]
  cases hf : l.findTag t with
  | some e =>
    have he : e ∈ l := mem_of_find?_eq_some hf
    have ht : e.tag = t := by simpa using find?_some hf
    have hmem : t ∈ l.row.map Prod.fst := by
      rw [map_fst_row, ← ht]
      exact mem_map_of_mem he
    refine ⟨h, ?_, ?_, .inl ⟨e, he, ht, rfl⟩⟩
    · rw [Slots.enter, if_pos hmem]
    · rw [Slots.valueOf, hfind, hf]
      rfl
  | none =>
    have hfresh : ∀ d ∈ l, d.tag ≠ t := by simpa [findTag] using hf
    have hmem : t ∉ l.row.map Prod.fst := by
      rw [map_fst_row]
      intro hc
      obtain ⟨d, hd, hdt⟩ := mem_map.mp hc
      exact hfresh d hd hdt
    have hlen : l.row.length = l.length := length_map _
    have hvalue : Slots.valueOf .invalid l.row t = CoherenceState.invalid := by
      rw [Slots.valueOf, hfind, hf]
      rfl
    rw [hvalue, Slots.enter, if_neg hmem, hlen]
    dsimp only
    by_cases hl : l.length < n
    · rw [if_pos hl, if_pos hl]
      exact ⟨h.pushFront hfresh, rfl, rfl, .inl ⟨_, mem_cons_self, rfl, rfl⟩⟩
    · rw [if_neg hl, if_neg hl]
      exact ⟨h, rfl, rfl, .inr ⟨rfl, hfresh, Nat.le_of_not_lt hl, rfl⟩⟩

theorem allocate_of_tag_eq (h : l.Indexed) (he : e ∈ l) (ht : e.tag = t) (s : CoherenceState) :
    (l.allocate t e.way s).1.Indexed ∧ (row (l.allocate t e.way s).1, (l.allocate t e.way s).2) =
      Slots.fill CoherenceState.isValid l.row t s := by
  have hmem : t ∈ l.row.map Prod.fst := by
    rw [map_fst_row, ← ht]
    exact mem_map_of_mem he
  have hchange := h.changeBlockState e.way s
  have he' : { e with state := s } ∈ l.changeBlockState e.way s :=
    mem_map.mpr ⟨e, he, if_pos rfl⟩
  have hrow := row_toTail hchange he'
  rw [row_changeBlockState h he s] at hrow
  rw [allocate, atWay_of_mem h.ways_nodup he]
  dsimp only
  rw [if_neg (not_not.mpr ht), Slots.fill.eq_def, if_pos hmem, ← ht]
  exact ⟨hchange.perm (toTail_perm _ _), congrArg₂ Prod.mk hrow rfl⟩

theorem allocate_head (h : Indexed (e :: l)) (ht : ∀ d ∈ e :: l, d.tag ≠ t)
    (s : CoherenceState) : (allocate (e :: l) t e.way s).1.Indexed ∧
      (row (allocate (e :: l) t e.way s).1, (allocate (e :: l) t e.way s).2) =
        Slots.fill CoherenceState.isValid (row (e :: l)) t s := by
  have hmem : t ∉ (row (e :: l)).map Prod.fst := by
    rw [map_fst_row]
    intro hc
    obtain ⟨d, hd, hdt⟩ := mem_map.mp hc
    exact ht d hd hdt
  have hne := ht e mem_cons_self
  rw [allocate, atWay_of_mem h.ways_nodup mem_cons_self]
  dsimp only
  rw [if_pos hne, toTail_replaceBlock_cons h, Slots.fill.eq_def, if_neg hmem]
  refine ⟨h.replace_cons ht s, ?_⟩
  rw [row, map_append]
  rfl

/-- **A set is a set of slots**: what it answers to a request, and what it is afterwards. -/
theorem respond_row (h : l.Indexed) (n t : ℕ) (op : Slots.Op CoherenceState) :
    (l.respond n t op).1.Indexed ∧
      (row (l.respond n t op).1, (l.respond n t op).2) =
        Slots.apply CoherenceState.isValid .invalid n l.row t op := by
  obtain ⟨hidx, hrow, hvalue, hcase⟩ := lookup_row h n t
  rw [respond.eq_def, Slots.apply.eq_def, ← hrow, ← hvalue]
  set r := l.lookup n t with hr
  -- only the block of an entry is valid
  have hentry : r.2.1.isValid = true → ∃ e ∈ r.1, e.tag = t ∧ e.way = r.2.2 := by
    intro hv
    rcases hcase with he | ⟨-, -, -, hinv⟩
    · exact he
    · rw [hinv] at hv
      exact absurd rfl (CoherenceState.isValid_iff.mp hv)
  cases op with
  | look => exact ⟨hidx, rfl⟩
  | touch =>
    dsimp only
    by_cases hv : r.2.1.isValid = true
    · obtain ⟨e, he, ht, hw⟩ := hentry hv
      rw [if_pos hv, if_pos hv, ← hw, row_toTail hidx he, ht]
      exact ⟨hidx.perm (toTail_perm _ _), rfl⟩
    · rw [if_neg hv, if_neg hv]
      exact ⟨hidx, rfl⟩
  | change s mru lru =>
    dsimp only
    by_cases hv : r.2.1.isValid = true
    · obtain ⟨e, he, ht, hw⟩ := hentry hv
      have hchange := hidx.changeBlockState e.way s
      have he' : { e with state := s } ∈ changeBlockState r.1 e.way s :=
        mem_map.mpr ⟨e, he, if_pos rfl⟩
      have hset := row_changeBlockState hidx he s
      have htail := row_toTail hchange he'
      have hhead := row_toHead hchange he'
      rw [hset] at htail hhead
      rw [if_pos hv, if_pos hv, ← hw, ← ht]
      by_cases hmru : mru = true
      · rw [if_pos hmru, if_pos hmru]
        exact ⟨hchange.perm (toTail_perm _ _), congrArg (·, _, none) htail⟩
      · rw [if_neg hmru, if_neg hmru]
        by_cases hlru : lru = true
        · rw [if_pos hlru, if_pos hlru]
          exact ⟨hchange.perm (toHead_perm _ _), congrArg (·, _, none) hhead⟩
        · rw [if_neg hlru, if_neg hlru]
          exact ⟨hchange, congrArg (·, _, none) hset⟩
    · rw [if_neg hv, if_neg hv]
      exact ⟨hidx, rfl⟩
  | fill s =>
    dsimp only
    rcases hcase with ⟨e, he, ht, hw⟩ | ⟨hl, hfresh, -, hlast⟩
    · obtain ⟨hindexed, hfill⟩ := allocate_of_tag_eq hidx he ht s
      rw [← hw]
      refine ⟨hindexed, ?_⟩
      rw [← hfill]
    · have hw : r.2.2 = (l.head?.map BlockEntry.way).getD 0 := by rw [hlast]
      rw [hl, hw]
      cases hlist : l with
      | nil => exact ⟨⟨nodup_nil, nodup_nil, nofun⟩, rfl⟩
      | cons x rest =>
        rw [hlist] at hfresh h
        obtain ⟨hindexed, hfill⟩ := allocate_head h hfresh s
        refine ⟨hindexed, ?_⟩
        rw [← hfill]
        rfl

end BlockSet

/-! ### Requests to an array -/

/-- A request to an array is one to the set of its address. -/
def respondAt (g : Geometry) (c : ℕ → BlockSet) (a : ℕ) (op : Slots.Op CoherenceState) :
    (ℕ → BlockSet) × CoherenceState × Option (ℕ × CoherenceState) :=
  let r := (c (g.getSet a)).respond g.theAssoc (g.getTag a) op
  (update c (g.getSet a) r.1, r.2)

/-- The answers to a sequence of requests: hits and states, and evictions in their order. -/
def answers (g : Geometry) (c : ℕ → BlockSet) :
    List (ℕ × Slots.Op CoherenceState) → List (CoherenceState × Option (ℕ × CoherenceState))
  | [] => []
  | x :: xs => (respondAt g c x.1 x.2).2 :: answers g (respondAt g c x.1 x.2).1 xs

namespace StdCache

variable {g : Geometry}

/-- The same request, as the operations of the array make it. -/
def respond (c : StdCache g) (a : ℕ) (op : Slots.Op CoherenceState) :
    Except Fault (StdCache g × CoherenceState × Option (ℕ × CoherenceState)) :=
  let (c, r) := c.lookup a
  let s := c.getState r
  match op with
  | .look => .ok (c, s, none)
  | .touch => .ok (if s.isValid then c.updateLRU r else c, s, none)
  | .change s' mru lru => .ok (if s.isValid then c.changeState r s' mru lru else c, s, none)
  | .fill s' =>
    match allocate Prod.fst (fun x c => (c, x.2)) (fun x t v => .ok (x.1, some (t, v)))
      (c, none) r s' with
    | .ok x => .ok (x.1, s, x.2)
    | .error f => .error f

theorem lookup_eq (c : StdCache g) (a : ℕ) :
    (c.lookup a).1.theBlocks = update c.theBlocks (g.getSet a)
        ((c.theBlocks (g.getSet a)).lookup g.theAssoc (g.getTag a)).1 ∧
      (c.lookup a).2.theSet = g.getSet a ∧ (c.lookup a).2.theAddress = g.getTag a ∧
      ((c.lookup a).2.theState, (c.lookup a).2.theBlock) =
        ((c.theBlocks (g.getSet a)).lookup g.theAssoc (g.getTag a)).2 := by
  rw [lookup]
  split
  · rename_i e he
    rw [BlockSet.lookup, he]
    exact ⟨(update_eq_self _ _).symm, rfl, rfl, rfl⟩
  · rename_i he
    have hlookup : (c.theBlocks (g.getSet a)).lookup g.theAssoc (g.getTag a) =
        if (c.theBlocks (g.getSet a)).length < g.theAssoc then
          (⟨g.getTag a, .invalid, (c.theBlocks (g.getSet a)).length⟩ :: c.theBlocks (g.getSet a),
            .invalid, (c.theBlocks (g.getSet a)).length)
        else (c.theBlocks (g.getSet a), .invalid,
          ((c.theBlocks (g.getSet a)).head?.map BlockEntry.way).getD 0) := by
      rw [BlockSet.lookup, he]
    rw [hlookup]
    split
    · exact ⟨rfl, rfl, rfl, rfl⟩
    · exact ⟨(update_eq_self _ _).symm, rfl, rfl, rfl⟩

theorem getState_lookup (c : StdCache g) (a : ℕ) :
    (c.lookup a).1.getState (c.lookup a).2 = (c.lookup a).2.theState := by
  obtain ⟨hstate, haddr, e, hres⟩ := c.lookup_spec a
  obtain ⟨-, hset, -, hresult⟩ := c.lookup_eq a
  rw [hres.getState_eq, haddr, hstate, stateOf, Geometry.getSet_getTag,
    show (c.lookup a).2.theState = _ from congrArg Prod.fst hresult, BlockSet.lookup,
    BlockSet.stateOf]
  cases (c.theBlocks (g.getSet a)).findTag (g.getTag a) with
  | some e => rfl
  | none =>
    dsimp only
    split <;> rfl

/-- An exchange of the set that a lookup has changed already. -/
theorem theBlocks_setBlocks_lookup (c : StdCache g) (a : ℕ) {l : BlockSet}
    (h : l.WF g (c.lookup a).2.theSet) :
    ((c.lookup a).1.setBlocks (c.lookup a).2.theSet l h).theBlocks =
      update c.theBlocks (g.getSet a) l := by
  obtain ⟨hblocks, hset, -, -⟩ := c.lookup_eq a
  rw [theBlocks_setBlocks, hblocks, hset, update_idem]

/-- **The operations of the array answer as its sets do.** -/
theorem respond_eq (c : StdCache g) (a : ℕ) (op : Slots.Op CoherenceState) :
    ∃ c', c.respond a op = .ok (c', (respondAt g c.theBlocks a op).2) ∧
      c'.theBlocks = (respondAt g c.theBlocks a op).1 := by
  obtain ⟨hblocks, hset, haddr, hresult⟩ := c.lookup_eq a
  obtain ⟨-, -, e, hres⟩ := c.lookup_spec a
  have hstate := c.getState_lookup a
  have hexchange := fun (l : BlockSet) h => c.theBlocks_setBlocks_lookup a (l := l) h
  set d := (c.lookup a).1 with hd
  set r := (c.lookup a).2 with hr
  set l := c.theBlocks (g.getSet a) with hl
  have hrow : d.theBlocks r.theSet = (l.lookup g.theAssoc (g.getTag a)).1 := by
    rw [hblocks, hset, update_self]
  have hs : d.getState r = (l.lookup g.theAssoc (g.getTag a)).2.1 :=
    hstate.trans (congrArg Prod.fst hresult)
  have hw : r.theBlock = (l.lookup g.theAssoc (g.getTag a)).2.2 := congrArg Prod.snd hresult
  cases op with
  | look => exact ⟨d, congrArg (fun s => Except.ok (d, s, none)) hs, hblocks⟩
  | touch =>
    refine ⟨if (d.getState r).isValid then d.updateLRU r else d,
      congrArg (fun s => Except.ok (_, s, none)) hs, ?_⟩
    rw [hs]
    dsimp only [respondAt, BlockSet.respond]
    by_cases hv : (l.lookup g.theAssoc (g.getTag a)).2.1.isValid = true
    · rw [if_pos hv, if_pos hv]
      refine (hexchange _ _).trans ?_
      rw [hrow, hw]
    · rw [if_neg hv, if_neg hv]
      exact hblocks
  | change s mru lru =>
    refine ⟨if (d.getState r).isValid then d.changeState r s mru lru else d,
      congrArg (fun s => Except.ok (_, s, none)) hs, ?_⟩
    rw [hs]
    dsimp only [respondAt, BlockSet.respond]
    by_cases hv : (l.lookup g.theAssoc (g.getTag a)).2.1.isValid = true
    · have hchange : (d.changeBlockState r s).theBlocks r.theSet =
          (l.lookup g.theAssoc (g.getTag a)).1.changeBlockState r.theBlock s := by
        rw [changeBlockState, theBlocks_setBlocks, update_self, hrow]
      have htwice : ∀ (l : BlockSet) h, ((d.changeBlockState r s).setBlocks r.theSet l h).theBlocks =
          update c.theBlocks (g.getSet a) l := fun l h => by
        rw [← hexchange l h]
        exact update_idem _ _ _
      rw [if_pos hv, if_pos hv, ← hw, changeState]
      split
      · refine (htwice _ _).trans ?_
        rw [hchange]
      · split
        · refine (htwice _ _).trans ?_
          rw [hchange]
        · refine (hexchange _ _).trans ?_
          rw [hrow]
    · rw [if_neg hv, if_neg hv]
      exact hblocks
  | fill s =>
    have hblock : d.block r = ((l.lookup g.theAssoc (g.getTag a)).1.atWay r.theBlock) := by
      rw [block, hrow]
    have he : (l.lookup g.theAssoc (g.getTag a)).1.atWay r.theBlock = some e :=
      hblock.symm.trans hres.block_eq
    have hdef : c.respond a (.fill s) =
        match allocate Prod.fst (fun x c => (c, x.2)) (fun x t v => .ok (x.1, some (t, v)))
          (d, none) r s with
        | .ok x => .ok (x.1, d.getState r, x.2)
        | .error f => .error f := rfl
    have hraw : respondAt g c.theBlocks a (.fill s) =
        (update c.theBlocks (g.getSet a)
          ((l.lookup g.theAssoc (g.getTag a)).1.allocate r.theAddress r.theBlock s).1,
          d.getState r,
          ((l.lookup g.theAssoc (g.getTag a)).1.allocate r.theAddress r.theBlock s).2) := by
      rw [hs, hw, haddr]
      rfl
    have hlast : ∀ (l₁ : BlockSet) h₁, ((d.setBlocks r.theSet l₁ h₁).updateLRU r).theBlocks =
        update c.theBlocks (g.getSet a) (l₁.toTail r.theBlock) := fun l₁ h₁ => by
      rw [← hexchange _ (h₁.perm (BlockSet.toTail_perm _ r.theBlock)), updateLRU,
        theBlocks_setBlocks, theBlocks_setBlocks, theBlocks_setBlocks, update_self,
        update_idem]
    rw [hraw, hdef, allocate, BlockSet.allocate, he, hres.block_eq]
    dsimp only
    by_cases ht : e.tag = r.theAddress
    · rw [if_neg (not_not.mpr ht), if_neg (not_not.mpr ht)]
      refine ⟨_, rfl, (hlast _ ((d.wf _).changeBlockState _ _)).trans ?_⟩
      rw [hrow]
    · have hreplace : d.replaceBlock r s = .ok (d.setBlocks r.theSet
          ((d.theBlocks r.theSet).replaceBlock r.theBlock r.theAddress s)
          ((d.wf r.theSet).replaceBlock (hres.absent ht).2 r.isTag r.isHome r.theBlock s)) :=
        dif_pos (hres.absent ht).2
      rw [if_pos ht, if_pos ht]
      by_cases hv : e.state.isValid = true
      · simp only [if_pos hv, bind, Except.bind, pure, Except.pure, hreplace]
        refine ⟨_, rfl, (hlast _ _).trans ?_⟩
        rw [hrow]
      · simp only [if_neg hv, bind, Except.bind, pure, Except.pure, hreplace]
        refine ⟨_, rfl, (hlast _ _).trans ?_⟩
        rw [hrow]

end StdCache

/-! ### Arrays that answer alike -/

section Alike

variable {g : Geometry} {c c' : ℕ → BlockSet} {i : ℕ}

/-- A block address of a set. -/
def isHome (g : Geometry) (i a : ℕ) : Prop := g.getTag a = a ∧ g.getSet a = i

theorem respondAt_self (c : ℕ → BlockSet) (a : ℕ) (op : Slots.Op CoherenceState) :
    (respondAt g c a op).1 (g.getSet a) =
      ((c (g.getSet a)).respond g.theAssoc (g.getTag a) op).1 :=
  update_self _ _ _

theorem respondAt_of_ne (c : ℕ → BlockSet) {a j : ℕ} (op : Slots.Op CoherenceState)
    (hj : j ≠ g.getSet a) : (respondAt g c a op).1 j = c j :=
  update_of_ne hj _ _

theorem indexed_respondAt (h : ∀ i, (c i).Indexed) (a : ℕ) (op : Slots.Op CoherenceState)
    (j : ℕ) : ((respondAt g c a op).1 j).Indexed := by
  by_cases hj : j = g.getSet a
  · rw [hj, respondAt_self]
    exact (BlockSet.respond_row (h _) _ _ _).1
  · rw [respondAt_of_ne c op hj]
    exact h j

/-- **The requests to a single set** are answered by its slots. -/
theorem answers_home (h : ∀ i, (c i).Indexed) (xs : List (ℕ × Slots.Op CoherenceState))
    (hxs : ∀ x ∈ xs, isHome g i x.1) :
    answers g c xs =
      Slots.answers CoherenceState.isValid .invalid g.theAssoc (c i).row xs := by
  induction xs generalizing c with
  | nil => rfl
  | cons x xs ih =>
    obtain ⟨htag, rfl⟩ := hxs x mem_cons_self
    have hrow := (BlockSet.respond_row (h (g.getSet x.1)) g.theAssoc (g.getTag x.1) x.2).2
    rw [answers, Slots.answers,
      ih (indexed_respondAt h x.1 x.2) fun y hy => hxs y (mem_cons_of_mem x hy),
      respondAt_self]
    rw [htag] at hrow ⊢
    rw [← hrow, respondAt, htag]

/-- **Arrays answer alike if and only if their sets do.** -/
theorem answers_eq_iff (h : ∀ i, (c i).Indexed) (h' : ∀ i, (c' i).Indexed) :
    (∀ xs, answers g c xs = answers g c' xs) ↔ ∀ i < 2 ^ g.setBits,
      Slots.Alike CoherenceState.isValid .invalid g.theAssoc (isHome g i) (c i).row
        (c' i).row := by
  constructor
  · intro hall i _ xs hxs
    rw [← answers_home h xs hxs, ← answers_home h' xs hxs, hall xs]
  · intro hall xs
    induction xs generalizing c c' with
    | nil => rfl
    | cons x xs ih =>
      have hlt : g.getSet x.1 < 2 ^ g.setBits := Nat.mod_lt _ (Nat.two_pow_pos _)
      have hhome : isHome g (g.getSet x.1) (g.getTag x.1) :=
        ⟨g.getTag_getTag x.1, g.getSet_getTag x.1⟩
      have hans := (hall _ hlt).answer hhome x.2
      have hnext := (hall _ hlt).step hhome x.2
      rw [← (BlockSet.respond_row (h (g.getSet x.1)) g.theAssoc (g.getTag x.1) x.2).2,
        ← (BlockSet.respond_row (h' (g.getSet x.1)) g.theAssoc (g.getTag x.1) x.2).2] at hans hnext
      rw [answers, answers, show (respondAt g c x.1 x.2).2 = (respondAt g c' x.1 x.2).2 from hans]
      congr 1
      refine ih (indexed_respondAt h x.1 x.2) (indexed_respondAt h' x.1 x.2) fun j hj => ?_
      by_cases hij : j = g.getSet x.1
      · rw [hij, respondAt_self, respondAt_self]
        exact hnext
      · rw [respondAt_of_ne c x.2 hij, respondAt_of_ne c' x.2 hij]
        exact hall j hj

theorem exists_isHome (hi : i < 2 ^ g.setBits) (l : List ℕ) : ∃ a, isHome g i a ∧ a ∉ l := by
  obtain ⟨k, hk⟩ : ∃ k, ∀ x ∈ l, x < k := by
    induction l with
    | nil => exact ⟨0, nofun⟩
    | cons y l ih =>
      obtain ⟨k, hk⟩ := ih
      refine ⟨max k (y + 1), fun x hx => ?_⟩
      rcases mem_cons.mp hx with rfl | hx
      · omega
      · have := hk x hx
        omega
  have hdiv : (i + 2 ^ g.setBits * k) * 2 ^ g.blockShift / 2 ^ g.blockShift =
      i + 2 ^ g.setBits * k := Nat.mul_div_cancel _ (Nat.two_pow_pos _)
  refine ⟨(i + 2 ^ g.setBits * k) * 2 ^ g.blockShift, ⟨?_, ?_⟩, fun hc => ?_⟩
  · rw [Geometry.getTag, hdiv]
  · rw [Geometry.getSet, hdiv, Nat.add_mul_mod_self_left, Nat.mod_eq_of_lt hi]
  · have hlt := hk _ hc
    have h1 : k ≤ 2 ^ g.setBits * k := Nat.le_mul_of_pos_left k (Nat.two_pow_pos _)
    have h2 : i + 2 ^ g.setBits * k ≤ (i + 2 ^ g.setBits * k) * 2 ^ g.blockShift :=
      Nat.le_mul_of_pos_right _ (Nat.two_pow_pos _)
    omega

end Alike

end Flexus
