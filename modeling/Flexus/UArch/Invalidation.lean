import Flexus.UArch.MissStatus
import Flexus.UArch.PartialSnoops

/-!
# Loads of an invalidated block

When a block is invalidated, the loads of it that have a value already are looked at again
(`CoreImpl::invalidate`, `components/uArch/CoreModel/memreply.cpp`). Those behind the first access
that is not complete have to get their value again; this is `doLoad`. It may reorder the index that
the loop goes through, since an instruction that loses its operand loses its address with it. So
the loop writes down the address and the sequence number of the entry that comes next, and searches
for them afterwards.

`Flexus.UArch.Invalidation.Sweeps` says what should come of it: each time, the next completed load
of the block is visited, in the order of the index. The sequence number is a 64-bit one, but it is
written down in 32 bits. The loop visits what it should if, after each load it has handled, the
number it searches for separates the completed loads in the same way as the load does
(`Flexus.UArch.Invalidation.visitsOnce_iff`). A number from 2³¹ on is taken for a huge one, and
the loads from there on are skipped; one from 2³² on may be taken for a number that the loop has
passed long ago.
-/

namespace Flexus

namespace UArch

open Lib List

/-! ### The loop -/

/-- The core, as far as the invalidation of a block reads it. -/
structure InvalidateCore where
  theMemQueue : List LsqEntry
  /-- `theInstruction->isAnnulled()`, by the sequence number of the entry. -/
  isAnnulled : ℕ → Bool
  sorted : theMemQueue.Pairwise fun x y => x.seq < y.seq
  /-- `theSequenceNum` is a 64-bit number. -/
  bounded : ∀ e ∈ theMemQueue, e.seq < 2 ^ 64

/-- `static_cast<int32_t>`, and back to 64 bits when it is compared. -/
def narrowed (theSequenceNum : ℕ) : ℕ := ((BitVec.ofNat 32 theSequenceNum).signExtend 64).toNat

namespace InvalidateCore

variable (s : InvalidateCore)

/-- `theMemQueue.get<by_paddr>()`. -/
def byPaddr : List LsqEntry := Walk.sortBy (fun e => e.paddrKey) s.theMemQueue

/-- `lower_bound`. -/
def lowerBound (k : ℕ ×ₗ ℕ) : List LsqEntry :=
  Walk.bound (fun e => decide (e.paddrKey < k)) s.byPaddr

/-- `upper_bound` of an address. -/
def upperBound (a : BitVec 64) : List LsqEntry :=
  Walk.bound (fun e => decide (e.thePaddrAligned ≤ a)) s.byPaddr

/-- A load that has got its value. -/
def isCompletedLoad (e : LsqEntry) : Bool :=
  e.isLoad && e.theQueue != .kSB && e.status == .kComplete && !e.theSpeculatedValue &&
    !s.isAnnulled e.seq

end InvalidateCore

/-- `temp->theSequenceNum >= *first_incomplete`. -/
def mustReplay (firstIncomplete : Option ℕ) (e : LsqEntry) : Bool :=
  match firstIncomplete with
  | some n => decide (n ≤ e.seq)
  | none => false

/-- The place for which the index is searched, after a load has been handled. -/
def restartKey (e : LsqEntry) : ℕ ×ₗ ℕ := toLex (e.thePaddrAligned.toNat, narrowed e.seq)

/-- An invalidation: what `doLoad` does to the core, the first incomplete access, and the block,
which the source asserts to be aligned. -/
structure Invalidation where
  doLoad : InvalidateCore → LsqEntry → InvalidateCore
  firstIncomplete : Option ℕ
  anAddress : BitVec 64
  theCoherenceUnit : BitVec 64
  aligned : anAddress = anAddress &&& ~~~(theCoherenceUnit - 1)

namespace Invalidation

variable (inv : Invalidation)

/-- The last address of the block. -/
def last : BitVec 64 := inv.anAddress + (inv.theCoherenceUnit - 1)

/-- **The loop of `invalidate`**, with a bound on the number of its iterations: the places of the
loads that it visits. The two iterators are `start`, as what is behind it, and `end`, as how many
entries are. -/
def loop : ℕ → InvalidateCore → List LsqEntry → ℕ → Option (List (ℕ ×ₗ ℕ))
  | 0, _, _, _ => none
  | _ + 1, _, [], stop => if stop = 0 then some [] else none
  | n + 1, s, temp :: start, stop =>
    if stop = start.length + 1 then some []
    else if s.isCompletedLoad temp then
      if mustReplay inv.firstIncomplete temp then
        let s' := inv.doLoad s temp
        match if stop = start.length then none else start.head? with
        | some next =>
          (loop n s' (s'.lowerBound (restartKey next)) (s'.upperBound inv.last).length).map
            (temp.paddrKey :: ·)
        | none => some [temp.paddrKey]
      else (loop n s start stop).map (temp.paddrKey :: ·)
    else loop n s start stop

/-- The loop comes to its end, and has visited the loads at these places. -/
def Ends (s : InvalidateCore) (start : List LsqEntry) (visited : List (ℕ ×ₗ ℕ)) : Prop :=
  ∃ n, inv.loop n s start (s.upperBound inv.last).length = some visited

/-! ### What it should visit -/

/-- An entry of the block. -/
def InBlock (e : LsqEntry) : Prop :=
  inv.anAddress ≤ e.thePaddrAligned ∧ e.thePaddrAligned ≤ inv.last

/-- **A completed load** to the block. -/
def Completed (s : InvalidateCore) (e : LsqEntry) : Prop :=
  e ∈ s.theMemQueue ∧ s.isCompletedLoad e = true ∧ inv.InBlock e

/-- An entry is behind a place of the index, if one is given. -/
def Behind (k : Option (ℕ ×ₗ ℕ)) (e : LsqEntry) : Prop := ∀ k' ∈ k, k' < e.paddrKey

/-- **The next completed load** of those that are behind something. -/
structure IsNext (s : InvalidateCore) (P : LsqEntry → Prop) (e : LsqEntry) : Prop where
  completed : inv.Completed s e
  behind : P e
  least : ∀ x, inv.Completed s x → P x → e.paddrKey ≤ x.paddrKey

/-- The core after a visit. -/
def after (s : InvalidateCore) (e : LsqEntry) : InvalidateCore :=
  if mustReplay inv.firstIncomplete e then inv.doLoad s e else s

/-- **One sweep over the block**: each time, the next completed load is visited, until there is
none behind the last one. -/
inductive Sweeps : InvalidateCore → Option (ℕ ×ₗ ℕ) → List (ℕ ×ₗ ℕ) → Prop
  | done {s : InvalidateCore} {k : Option (ℕ ×ₗ ℕ)}
      (h : ∀ e, inv.Completed s e → ¬ Behind k e) : Sweeps s k []
  | visit {s : InvalidateCore} {k : Option (ℕ ×ₗ ℕ)} {e : LsqEntry} {visited : List (ℕ ×ₗ ℕ)}
      (hnext : inv.IsNext s (Behind k) e) (h : Sweeps (inv.after s e) (some e.paddrKey) visited) :
      Sweeps s k (e.paddrKey :: visited)

/-- **`invalidate` visits every completed load of the block once**, and ends. -/
def VisitsOnce (s : InvalidateCore) : Prop :=
  ∃ visited, inv.Ends s (s.lowerBound (toLex (inv.anAddress.toNat, 0))) visited ∧
    inv.Sweeps s none visited

/-- The states and places a sweep comes to. -/
inductive Reaches (t : InvalidateCore) (k' : Option (ℕ ×ₗ ℕ)) :
    InvalidateCore → Option (ℕ ×ₗ ℕ) → Prop
  | here : Reaches t k' t k'
  | visit {s : InvalidateCore} {k : Option (ℕ ×ₗ ℕ)} {e : LsqEntry}
      (hnext : inv.IsNext s (Behind k) e)
       (h : Reaches t k' (inv.after s e) (some e.paddrKey)) : Reaches t k' s k

/-- The entry of the block that comes behind another one. -/
def nextEntry (s : InvalidateCore) (e : LsqEntry) : Option LsqEntry :=
  (s.byPaddr.filter fun x =>
    decide (e.paddrKey < x.paddrKey) && decide (x.thePaddrAligned ≤ inv.last)).head?

/-- **A restart finds its way**: of the loads that are completed when a load has been handled,
those behind the place the index is searched for – none, if the range was at its end – are those
behind the load. -/
def RestartsWell (s : InvalidateCore) (e : LsqEntry) : Prop :=
  ∀ x, inv.Completed (inv.doLoad s e) x →
    (e.paddrKey < x.paddrKey ↔ ∃ next ∈ inv.nextEntry s e, restartKey next ≤ x.paddrKey)

/-- **Every restart finds its way**, in a sweep that has come to a place. -/
def AllRestartWell (s : InvalidateCore) (k : Option (ℕ ×ₗ ℕ)) : Prop :=
  ∀ t k' e, inv.Reaches t k' s k → inv.IsNext t (Behind k') e →
    mustReplay inv.firstIncomplete e = true → inv.RestartsWell t e

/-! ### The index -/

variable {inv} {s t : InvalidateCore} {k : Option (ℕ ×ₗ ℕ)} {e x y : LsqEntry}

theorem anAddress_le_last (inv : Invalidation) : inv.anAddress ≤ inv.last := by
  have hdisjoint : inv.anAddress &&& (inv.theCoherenceUnit - 1) = 0 := by
    calc inv.anAddress &&& (inv.theCoherenceUnit - 1)
        = inv.anAddress &&& ~~~(inv.theCoherenceUnit - 1) &&& (inv.theCoherenceUnit - 1) := by
          rw [← inv.aligned]
      _ = inv.anAddress &&& ((inv.theCoherenceUnit - 1) &&& ~~~(inv.theCoherenceUnit - 1)) := by
          ac_rfl
      _ = 0 := by simp
  rw [last, BitVec.add_eq_or_of_and_eq_zero _ _ hdisjoint, BitVec.le_def, BitVec.toNat_or]
  exact Nat.left_le_or

theorem mem_byPaddr : x ∈ s.byPaddr ↔ x ∈ s.theMemQueue := Walk.sortBy_perm.mem_iff

theorem eq_of_paddrKey (hx : x ∈ s.theMemQueue) (hy : y ∈ s.theMemQueue)
    (h : x.paddrKey = y.paddrKey) : x = y := by
  have hnodup : (s.theMemQueue.map LsqEntry.seq).Nodup :=
    pairwise_map.mpr (s.sorted.imp Nat.ne_of_lt)
  exact inj_on_of_nodup_map hnodup hx hy (congrArg (fun k => (ofLex k).2) h)

theorem byPaddr_nodup : s.byPaddr.Nodup := by
  have hnodup : (s.theMemQueue.map LsqEntry.seq).Nodup :=
    pairwise_map.mpr (s.sorted.imp Nat.ne_of_lt)
  exact Walk.sortBy_perm.nodup_iff.mpr hnodup.of_map

/-- **The index is in the order of the places**, which are distinct. -/
theorem byPaddr_sorted : s.byPaddr.Pairwise fun x y => x.paddrKey < y.paddrKey := by
  have hle : s.byPaddr.Pairwise fun x y => x.paddrKey ≤ y.paddrKey := Walk.sortBy_sorted
  refine List.Pairwise.imp_of_mem (fun {x y} hx hy h => ?_) (hle.and byPaddr_nodup)
  exact lt_of_le_of_ne h.1 fun hk => h.2 (eq_of_paddrKey (mem_byPaddr.mp hx) (mem_byPaddr.mp hy) hk)

theorem isCut_key (k : ℕ ×ₗ ℕ) :
    Walk.IsCut (fun e : LsqEntry => decide (e.paddrKey < k)) s.byPaddr :=
  byPaddr_sorted.imp fun {x y} hxy hy => by
    rw [decide_eq_true_eq] at hy ⊢
    exact hxy.trans hy

theorem thePaddrAligned_mono (h : x.paddrKey < y.paddrKey) :
    x.thePaddrAligned ≤ y.thePaddrAligned := by
  rw [MemQueueEntry.paddrKey, MemQueueEntry.paddrKey, Prod.Lex.toLex_lt_toLex] at h
  rw [BitVec.le_def]
  rcases h with h | ⟨h, -⟩ <;> omega

theorem isCut_le (a : BitVec 64) :
    Walk.IsCut (fun e : LsqEntry => decide (e.thePaddrAligned ≤ a)) s.byPaddr :=
  byPaddr_sorted.imp fun {x y} hxy hy => by
    rw [decide_eq_true_eq] at hy ⊢
    exact BitVec.le_trans (thePaddrAligned_mono hxy) hy

/-! ### A position of the loop -/

variable {range : List LsqEntry}

/-- **A position of the loop**: the entries of the block from there on. Those of them that are
completed loads are the ones behind something. -/
structure IsAt (inv : Invalidation) (s : InvalidateCore) (P : LsqEntry → Prop)
    (range : List LsqEntry) : Prop where
  suffix : ∃ pre, s.byPaddr = pre ++ (range ++ s.upperBound inv.last)
  inBlock : ∀ x ∈ range, inv.InBlock x
  behind : ∀ x, inv.Completed s x → (P x ↔ x ∈ range)

/-- **A search leads to a position** if it is for a place of the block. -/
theorem isAt_lowerBound {k₀ : ℕ ×ₗ ℕ} (hfirst : inv.anAddress.toNat ≤ (ofLex k₀).1)
    (hlast : (ofLex k₀).1 ≤ inv.last.toNat) :
    ∃ range, s.lowerBound k₀ = range ++ s.upperBound inv.last ∧
      inv.IsAt s (fun x => k₀ ≤ x.paddrKey) range := by
  have hsplit : s.lowerBound k₀ = (s.byPaddr.filter fun e =>
      !decide (e.paddrKey < k₀) && decide (e.thePaddrAligned ≤ inv.last)) ++
        s.upperBound inv.last := by
    refine Walk.bound_eq_append (isCut_key k₀) (isCut_le inv.last) fun x _ hx => ?_
    rw [decide_eq_true_eq] at hx ⊢
    rw [MemQueueEntry.paddrKey, Prod.Lex.lt_iff] at hx
    rw [BitVec.le_def]
    rcases hx with hx | ⟨hx, -⟩ <;> simp only [ofLex_toLex] at hx <;> omega
  have hmem : ∀ x ∈ s.byPaddr, (x ∈ s.byPaddr.filter fun e =>
      !decide (e.paddrKey < k₀) && decide (e.thePaddrAligned ≤ inv.last)) ↔
        k₀ ≤ x.paddrKey ∧ x.thePaddrAligned ≤ inv.last := fun x hx => by
    rw [mem_filter, and_iff_right hx, Bool.and_eq_true, Bool.not_eq_true',
      decide_eq_false_iff_not, decide_eq_true_eq, not_lt]
  refine ⟨_, hsplit, ⟨?_, fun x hx => ?_, fun x hx => ?_⟩⟩
  · refine ⟨s.byPaddr.takeWhile fun e => decide (e.paddrKey < k₀), ?_⟩
    rw [← hsplit]
    exact takeWhile_append_dropWhile.symm
  · obtain ⟨hk, hle⟩ := (hmem x (mem_filter.mp hx).1).mp hx
    refine ⟨?_, hle⟩
    rw [MemQueueEntry.paddrKey, Prod.Lex.le_iff] at hk
    rw [BitVec.le_def]
    rcases hk with hk | ⟨hk, -⟩ <;> simp only [ofLex_toLex] at hk <;> omega
  · rw [hmem x (mem_byPaddr.mpr hx.1), and_iff_left hx.2.2.2]

/-! ### The loop, from a position -/

variable {v : List (ℕ ×ₗ ℕ)}

theorem ends_nil : inv.Ends s (s.upperBound inv.last) v ↔ v = [] := by
  have hloop : ∀ n, inv.loop (n + 1) s (s.upperBound inv.last) (s.upperBound inv.last).length =
      some [] := fun n => by
    cases s.upperBound inv.last with
    | nil => rfl
    | cons x l => rw [loop, if_pos (length_cons ..)]
  constructor
  · rintro ⟨n, hn⟩
    cases n with
    | zero => exact absurd hn nofun
    | succ n => exact (Option.some.inj ((hloop n).symm.trans hn)).symm
  · rintro rfl
    exact ⟨1, hloop 0⟩

theorem exists_loop_succ {start : List LsqEntry} {stop : ℕ} :
    (∃ n, inv.loop n s start stop = some v) ↔ ∃ n, inv.loop (n + 1) s start stop = some v := by
  constructor
  · rintro ⟨n, hn⟩
    cases n with
    | zero => exact absurd hn nofun
    | succ n => exact ⟨n, hn⟩
  · rintro ⟨n, hn⟩
    exact ⟨n + 1, hn⟩

theorem loop_cons (n : ℕ) : inv.loop (n + 1) s (x :: (range ++ s.upperBound inv.last))
      (s.upperBound inv.last).length =
    if s.isCompletedLoad x then
      if mustReplay inv.firstIncomplete x then
        match range.head? with
        | some next =>
          (inv.loop n (inv.doLoad s x) ((inv.doLoad s x).lowerBound (restartKey next))
            ((inv.doLoad s x).upperBound inv.last).length).map (x.paddrKey :: ·)
        | none => some [x.paddrKey]
      else (inv.loop n s (range ++ s.upperBound inv.last) (s.upperBound inv.last).length).map
        (x.paddrKey :: ·)
    else inv.loop n s (range ++ s.upperBound inv.last) (s.upperBound inv.last).length := by
  have hne : (s.upperBound inv.last).length ≠ (range ++ s.upperBound inv.last).length + 1 := by
    rw [length_append]
    omega
  have hhead : (if (s.upperBound inv.last).length = (range ++ s.upperBound inv.last).length
      then none else (range ++ s.upperBound inv.last).head?) = range.head? := by
    cases range with
    | nil => exact if_pos rfl
    | cons y range =>
      rw [if_neg]
      · rfl
      · rw [length_append, length_cons]
        omega
  rw [loop, if_neg hne, hhead]

theorem ends_skip (hx : s.isCompletedLoad x = false) :
    inv.Ends s (x :: (range ++ s.upperBound inv.last)) v ↔
      inv.Ends s (range ++ s.upperBound inv.last) v := by
  rw [Ends, exists_loop_succ]
  refine exists_congr fun n => ?_
  rw [loop_cons, if_neg (by rw [hx]; decide)]

theorem ends_append {pre : List LsqEntry} (hpre : ∀ y ∈ pre, s.isCompletedLoad y = false) :
    inv.Ends s (pre ++ range ++ s.upperBound inv.last) v ↔
      inv.Ends s (range ++ s.upperBound inv.last) v := by
  induction pre with
  | nil => rfl
  | cons y pre ih =>
    rw [forall_mem_cons] at hpre
    exact (ends_skip hpre.1).trans (ih hpre.2)

theorem ends_visit (hx : s.isCompletedLoad x = true)
    (hreplay : mustReplay inv.firstIncomplete x = false) :
    inv.Ends s (x :: (range ++ s.upperBound inv.last)) v ↔
      ∃ v', v = x.paddrKey :: v' ∧ inv.Ends s (range ++ s.upperBound inv.last) v' := by
  rw [Ends, exists_loop_succ]
  simp only [loop_cons, if_pos hx, hreplay, Bool.false_eq_true, if_false, Option.map_eq_some_iff]
  constructor
  · rintro ⟨n, v', hv', rfl⟩
    exact ⟨v', rfl, n, hv'⟩
  · rintro ⟨v', rfl, n, hv'⟩
    exact ⟨n, v', hv', rfl⟩

/-- A load that is replayed is visited, and the loop goes on where the search leads to. -/
theorem ends_replay {next : LsqEntry} (hx : s.isCompletedLoad x = true)
    (hreplay : mustReplay inv.firstIncomplete x = true) (hnext : range.head? = some next) :
    inv.Ends s (x :: (range ++ s.upperBound inv.last)) v ↔ ∃ v', v = x.paddrKey :: v' ∧
      inv.Ends (inv.doLoad s x) ((inv.doLoad s x).lowerBound (restartKey next)) v' := by
  rw [Ends, exists_loop_succ]
  simp only [loop_cons, if_pos hx, if_pos hreplay, hnext, Option.map_eq_some_iff]
  constructor
  · rintro ⟨n, v', hv', rfl⟩
    exact ⟨v', rfl, n, hv'⟩
  · rintro ⟨v', rfl, n, hv'⟩
    exact ⟨n, v', hv', rfl⟩

theorem ends_last (hx : s.isCompletedLoad x = true)
    (hreplay : mustReplay inv.firstIncomplete x = true) :
    inv.Ends s (x :: s.upperBound inv.last) v ↔ v = [x.paddrKey] := by
  have hloop : ∀ n, inv.loop (n + 1) s (x :: s.upperBound inv.last)
      (s.upperBound inv.last).length = some [x.paddrKey] := fun n => by
    have hcons := @loop_cons inv s x [] n
    rw [if_pos hx, if_pos hreplay] at hcons
    exact hcons
  rw [Ends, exists_loop_succ]
  constructor
  · rintro ⟨n, hn⟩
    exact (Option.some.inj ((hloop n).symm.trans hn)).symm
  · rintro rfl
    exact ⟨0, hloop 0⟩

/-! ### What is next -/

variable {P Q : LsqEntry → Prop}

theorem IsNext.eq (hx : inv.IsNext s P x) (hy : inv.IsNext s P y) : x = y :=
  eq_of_paddrKey hx.completed.1 hy.completed.1
    (le_antisymm (hx.least y hy.completed hy.behind) (hy.least x hx.completed hx.behind))

theorem behind_some {k : ℕ ×ₗ ℕ} : Behind (some k) x ↔ k < x.paddrKey :=
  ⟨fun h => h k rfl, fun h _ hk' => Option.some.inj hk' ▸ h⟩

theorem not_inBlock_of_mem_upperBound (h : x ∈ s.upperBound inv.last) :
    ¬ x.thePaddrAligned ≤ inv.last := by
  rw [InvalidateCore.upperBound, Walk.bound_eq_filter (isCut_le _), mem_filter,
    Bool.not_eq_true', decide_eq_false_iff_not] at h
  exact h.2

/-- The entry behind one that is in the block is the next one in the index. -/
theorem nextEntry_eq {pre rest : List LsqEntry}
    (hindex : s.byPaddr = pre ++ x :: (rest ++ s.upperBound inv.last))
    (hrest : ∀ y ∈ rest, y.thePaddrAligned ≤ inv.last) : inv.nextEntry s x = rest.head? := by
  have hsorted := byPaddr_sorted (s := s)
  rw [hindex, pairwise_append, pairwise_cons] at hsorted
  obtain ⟨-, ⟨hbehind, -⟩, hbefore⟩ := hsorted
  generalize hp : (fun y : LsqEntry => decide (x.paddrKey < y.paddrKey) &&
    decide (y.thePaddrAligned ≤ inv.last)) = p
  have hiff : ∀ y, p y = true ↔ x.paddrKey < y.paddrKey ∧ y.thePaddrAligned ≤ inv.last := by
    intro y
    rw [← hp, Bool.and_eq_true, decide_eq_true_eq, decide_eq_true_eq]
  have hpre : ∀ y ∈ pre, ¬ p y = true := fun y hy hc =>
    lt_asymm (hbefore y hy x mem_cons_self) ((hiff y).mp hc).1
  have hself : ¬ p x = true := fun hc => lt_irrefl _ ((hiff x).mp hc).1
  have hmid : ∀ y ∈ rest, p y = true := fun y hy =>
    (hiff y).mpr ⟨hbehind y (mem_append_left _ hy), hrest y hy⟩
  have hend : ∀ y ∈ s.upperBound inv.last, ¬ p y = true := fun y hy hc =>
    not_inBlock_of_mem_upperBound hy ((hiff y).mp hc).2
  rw [nextEntry, hp, hindex, filter_append, filter_eq_nil_iff.mpr hpre, nil_append,
    filter_cons_of_neg hself, filter_append, filter_eq_self.mpr hmid,
    filter_eq_nil_iff.mpr hend, append_nil]

/-- **At a position** there is no completed load any more, or the next one, with what is behind
it. -/
theorem IsAt.cases (h : inv.IsAt s P range) :
    ((∀ e, inv.Completed s e → ¬ P e) ∧
      ∀ v, inv.Ends s (range ++ s.upperBound inv.last) v ↔ v = []) ∨
    ∃ x rest, inv.IsNext s P x ∧ inv.IsAt s (Behind (some x.paddrKey)) rest ∧
      inv.nextEntry s x = rest.head? ∧
      ∀ v, inv.Ends s (range ++ s.upperBound inv.last) v ↔
        inv.Ends s (x :: (rest ++ s.upperBound inv.last)) v := by
  cases hfind : range.find? s.isCompletedLoad with
  | none =>
    rw [find?_eq_none] at hfind
    have hnone : ∀ y ∈ range, s.isCompletedLoad y = false := fun y hy =>
      Bool.eq_false_iff.mpr (hfind y hy)
    refine .inl ⟨fun e he hbehind => ?_, fun v => ?_⟩
    · exact hfind e ((h.behind e he).mp hbehind) he.2.1
    · have happend := @ends_append inv s [] v _ hnone
      rw [append_nil, nil_append] at happend
      exact happend.trans ends_nil
  | some x =>
    obtain ⟨hx, pre, rest, hrange, hpre⟩ := find?_eq_some_iff_append.mp hfind
    have hpre : ∀ y ∈ pre, s.isCompletedLoad y = false := fun y hy => by
      have := hpre y hy
      rwa [Bool.not_eq_true'] at this
    obtain ⟨before, hsuffix⟩ := h.suffix
    have hindex : s.byPaddr = (before ++ pre) ++ x :: (rest ++ s.upperBound inv.last) := by
      rw [hsuffix, hrange]
      simp only [append_assoc, cons_append]
    have hsorted := byPaddr_sorted (s := s)
    rw [hindex, pairwise_append, pairwise_cons] at hsorted
    obtain ⟨-, ⟨hbehind, -⟩, hbefore⟩ := hsorted
    have hxrange : x ∈ range := by
      rw [hrange]
      exact mem_append_right _ mem_cons_self
    have hxmem : x ∈ s.theMemQueue := by
      rw [← mem_byPaddr, hindex]
      exact mem_append_right _ mem_cons_self
    have hcompleted : inv.Completed s x := ⟨hxmem, hx, h.inBlock x hxrange⟩
    refine .inr ⟨x, rest, ⟨hcompleted, (h.behind x hcompleted).mpr hxrange, fun y hy hk => ?_⟩,
      ⟨⟨before ++ pre ++ [x], ?_⟩, fun y hy => ?_, fun y hy => ?_⟩, ?_, fun v => ?_⟩
    · have hyrange := (h.behind y hy).mp hk
      rw [hrange, mem_append, mem_cons] at hyrange
      rcases hyrange with hyrange | rfl | hyrange
      · exact absurd hy.2.1 (Bool.eq_false_iff.mp (hpre y hyrange))
      · exact le_refl _
      · exact le_of_lt (hbehind y (mem_append_left _ hyrange))
    · rw [hindex]
      simp only [append_assoc, cons_append, nil_append]
    · refine h.inBlock y ?_
      rw [hrange]
      exact mem_append_right _ (mem_cons_of_mem _ hy)
    · rw [behind_some]
      constructor
      · intro hk
        have hymem := mem_byPaddr.mpr hy.1
        simp only [hindex, mem_append (s := before ++ pre), mem_cons,
          mem_append (s := rest)] at hymem
        rcases hymem with hymem | rfl | hymem | hymem
        · exact absurd hk (lt_asymm (hbefore y hymem x mem_cons_self))
        · exact absurd hk (lt_irrefl _)
        · exact hymem
        · exact absurd hy.2.2.2 (not_inBlock_of_mem_upperBound hymem)
      · exact fun hymem => hbehind y (mem_append_left _ hymem)
    · refine nextEntry_eq hindex fun y hy => (h.inBlock y ?_).2
      rw [hrange]
      exact mem_append_right _ (mem_cons_of_mem _ hy)
    · rw [hrange, append_assoc]
      exact (append_assoc .. ▸ @ends_append inv s (x :: rest) _ _ hpre)

theorem IsAt.congr (h : inv.IsAt s P range) (hPQ : ∀ x, inv.Completed s x → (P x ↔ Q x)) :
    inv.IsAt s Q range :=
  ⟨h.suffix, h.inBlock, fun x hx => (hPQ x hx).symm.trans (h.behind x hx)⟩

theorem IsAt.head (h : inv.IsAt s P range) (hv : inv.Ends s (range ++ s.upperBound inv.last) v) :
    (v = [] ∧ ∀ e, inv.Completed s e → ¬ P e) ∨
      ∃ y v', inv.IsNext s P y ∧ v = y.paddrKey :: v' := by
  rcases h.cases with ⟨hnone, hends⟩ | ⟨x, rest, hx, -, -, hends⟩
  · exact .inl ⟨(hends v).mp hv, hnone⟩
  · have hv := (hends v).mp hv
    refine .inr ⟨x, ?_⟩
    cases hreplay : mustReplay inv.firstIncomplete x with
    | false =>
      obtain ⟨v', rfl, -⟩ := (ends_visit hx.completed.2.1 hreplay).mp hv
      exact ⟨v', hx, rfl⟩
    | true =>
      cases rest with
      | nil =>
        obtain rfl := (ends_last hx.completed.2.1 hreplay).mp hv
        exact ⟨[], hx, rfl⟩
      | cons next rest =>
        obtain ⟨v', rfl, -⟩ := (ends_replay hx.completed.2.1 hreplay rfl).mp hv
        exact ⟨v', hx, rfl⟩

/-! ### Sweeps -/

theorem sweeps_next (hx : inv.IsNext s (Behind k) x) :
    inv.Sweeps s k v ↔
      ∃ v', v = x.paddrKey :: v' ∧ inv.Sweeps (inv.after s x) (some x.paddrKey) v' := by
  constructor
  · intro hv
    cases hv with
    | done h => exact absurd hx.behind (h x hx.completed)
    | visit hnext h =>
      obtain rfl := hx.eq hnext
      exact ⟨_, rfl, h⟩
  · rintro ⟨v', rfl, h⟩
    exact .visit hx h

theorem allRestartWell_none (h : ∀ e, inv.Completed s e → ¬ Behind k e) :
    inv.AllRestartWell s k := by
  intro t k' e hreaches hnext _
  cases hreaches with
  | here => exact absurd hnext.behind (h e hnext.completed)
  | visit hnext' => exact absurd hnext'.behind (h _ hnext'.completed)

theorem allRestartWell_next (hx : inv.IsNext s (Behind k) x) :
    inv.AllRestartWell s k ↔
      (mustReplay inv.firstIncomplete x = true → inv.RestartsWell s x) ∧
        inv.AllRestartWell (inv.after s x) (some x.paddrKey) := by
  constructor
  · intro h
    exact ⟨h s k x .here hx, fun t k' e hreaches => h t k' e (.visit hx hreaches)⟩
  · rintro ⟨hwell, hrest⟩ t k' e hreaches hnext hreplay
    cases hreaches with
    | here =>
      obtain rfl := hx.eq hnext
      exact hwell hreplay
    | visit hnext' h =>
      obtain rfl := hx.eq hnext'
      exact hrest t k' e h hnext hreplay

theorem Sweeps.head (h : inv.Sweeps s k v) : (v = [] ∧ ∀ e, inv.Completed s e → ¬ Behind k e) ∨
    ∃ y v', inv.IsNext s (Behind k) y ∧ v = y.paddrKey :: v' := by
  cases h with
  | done h => exact .inl ⟨rfl, h⟩
  | visit hnext => exact .inr ⟨_, _, hnext, rfl⟩

/-- What is behind something is what comes from the next load on. -/
theorem IsNext.iff (hy : inv.IsNext s P y)
    (hmono : ∀ a b : LsqEntry, P a → a.paddrKey ≤ b.paddrKey → P b) (hx : inv.Completed s x) :
    P x ↔ y.paddrKey ≤ x.paddrKey :=
  ⟨hy.least x hx, hmono y x hy.behind⟩

/-- **A restart that goes on like the sweep** finds its way. -/
theorem restartsWell_of_head {next : LsqEntry} (hnext : inv.nextEntry s x = some next)
    {range : List LsqEntry}
    (hat : inv.IsAt (inv.doLoad s x) (fun y => restartKey next ≤ y.paddrKey) range)
    (hends : inv.Ends (inv.doLoad s x) (range ++ (inv.doLoad s x).upperBound inv.last) v)
    (hsweeps : inv.Sweeps (inv.doLoad s x) (some x.paddrKey) v) : inv.RestartsWell s x := by
  intro y hy
  have hiff : (∃ n ∈ inv.nextEntry s x, restartKey n ≤ y.paddrKey) ↔
      restartKey next ≤ y.paddrKey := by
    rw [hnext]
    simp
  rw [hiff]
  rcases hat.head hends with ⟨rfl, hnone⟩ | ⟨z, v', hz, rfl⟩ <;>
    rcases hsweeps.head with ⟨hv, hnone'⟩ | ⟨z', v'', hz', hv⟩
  · -- there is nothing behind either of them
    exact iff_of_false (fun h => hnone' y hy (behind_some.mpr h)) (hnone y hy)
  · exact absurd hv nofun
  · exact absurd hv nofun
  · rw [List.cons.injEq] at hv
    have hfirst : restartKey next ≤ y.paddrKey ↔ z.paddrKey ≤ y.paddrKey :=
      hz.iff (fun _ _ => le_trans) hy
    have hsecond : Behind (some x.paddrKey) y ↔ z'.paddrKey ≤ y.paddrKey :=
      hz'.iff (fun a b ha hab => behind_some.mpr (lt_of_lt_of_le (behind_some.mp ha) hab)) hy
    rw [← behind_some, hfirst, hsecond, hv.1]

/-! ### The loop and the sweep -/

/-- How many places are behind one. -/
def left (k : Option (ℕ ×ₗ ℕ)) : ℕ :=
  match k with
  | some k => 2 ^ 128 - ((ofLex k).1 * 2 ^ 64 + (ofLex k).2)
  | none => 2 ^ 128 + 1

/-- **A sweep comes to its end**: the next place is behind the last one. -/
theorem IsNext.left_lt (hx : inv.IsNext s (Behind k) x) (hk : ∀ k' ∈ k, (ofLex k').2 < 2 ^ 64) :
    left (some x.paddrKey) < left k := by
  have hseq : x.seq < 2 ^ 64 := s.bounded x hx.completed.1
  have haddr : x.thePaddrAligned.toNat < 2 ^ 64 := x.thePaddrAligned.isLt
  have hleft : left (some x.paddrKey) =
    2 ^ 128 - (x.thePaddrAligned.toNat * 2 ^ 64 + x.seq) := rfl
  rw [hleft]
  cases k with
  | none =>
    show _ < 2 ^ 128 + 1
    omega
  | some k =>
    have hlt := behind_some.mp hx.behind
    rw [MemQueueEntry.paddrKey, Prod.Lex.lt_iff] at hlt
    simp only [ofLex_toLex] at hlt
    have hk := hk k rfl
    show _ < 2 ^ 128 - ((ofLex k).1 * 2 ^ 64 + (ofLex k).2)
    rw [LsqEntry.seq] at hseq ⊢
    omega

theorem exists_cons_and {a : ℕ ×ₗ ℕ} {p q : List (ℕ ×ₗ ℕ) → Prop} :
    (∃ v, (∃ v', v = a :: v' ∧ p v') ∧ ∃ v', v = a :: v' ∧ q v') ↔ ∃ v, p v ∧ q v := by
  constructor
  · rintro ⟨-, ⟨v, rfl, hp⟩, v', hv, hq⟩
    obtain rfl := (List.cons.inj hv).2
    exact ⟨v, hp, hq⟩
  · rintro ⟨v, hp, hq⟩
    exact ⟨a :: v, ⟨v, rfl, hp⟩, v, rfl, hq⟩

/-- At the end of the range there must be nothing left to visit. -/
theorem ends_last_iff (hnext : inv.nextEntry s x = none) :
    (∃ v, v = [x.paddrKey] ∧ ∃ v', v = x.paddrKey :: v' ∧
      inv.Sweeps (inv.doLoad s x) (some x.paddrKey) v') ↔
      inv.RestartsWell s x ∧ inv.AllRestartWell (inv.doLoad s x) (some x.paddrKey) := by
  have hwell : inv.RestartsWell s x ↔
      ∀ y, inv.Completed (inv.doLoad s x) y → ¬ Behind (some x.paddrKey) y := by
    simp [RestartsWell, hnext, behind_some]
  constructor
  · rintro ⟨-, rfl, v', hv', hsweeps⟩
    obtain rfl := (List.cons.inj hv').2
    rcases hsweeps.head with ⟨-, hnone⟩ | ⟨y, v'', -, hv⟩
    · exact ⟨hwell.mpr hnone, allRestartWell_none hnone⟩
    · exact absurd hv nofun
  · rintro ⟨h, -⟩
    exact ⟨_, rfl, [], rfl, .done (hwell.mp h)⟩

/-- **From a position on**, the loop does what the sweep does, and ends, if and only if every
restart of the sweep finds its way. -/
theorem ends_sweeps_iff (h : inv.IsAt s (Behind k) range)
    (hk : ∀ k' ∈ k, (ofLex k').2 < 2 ^ 64) :
    (∃ v, inv.Ends s (range ++ s.upperBound inv.last) v ∧ inv.Sweeps s k v) ↔
      inv.AllRestartWell s k := by
  generalize hn : left k = n
  induction n using Nat.strong_induction_on generalizing s k range with
  | _ n ih =>
    rcases h.cases with ⟨hnone, hends⟩ | ⟨x, rest, hx, hrest, hnext, hends⟩
    · exact iff_of_true ⟨[], (hends []).mpr rfl, .done hnone⟩ (allRestartWell_none hnone)
    · have hlt : left (some x.paddrKey) < n := hn ▸ hx.left_lt hk
      have hbound : ∀ k' ∈ some x.paddrKey, (ofLex k').2 < 2 ^ 64 := fun k' hk' => by
        rw [← Option.some.inj hk']
        exact s.bounded x hx.completed.1
      simp only [hends, sweeps_next hx]
      rw [allRestartWell_next hx]
      cases hreplay : mustReplay inv.firstIncomplete x with
      | false =>
        have hafter : inv.after s x = s := if_neg (by rw [hreplay]; decide)
        simp only [ends_visit hx.completed.2.1 hreplay, exists_cons_and, hafter,
          Bool.false_eq_true, false_implies, true_and]
        exact ih _ hlt hrest hbound rfl
      | true =>
        have hafter : inv.after s x = inv.doLoad s x := if_pos hreplay
        simp only [hafter, forall_const]
        cases rest with
        | nil =>
          simp only [nil_append, ends_last hx.completed.2.1 hreplay]
          exact ends_last_iff hnext
        | cons next rest =>
          have hhead : (next :: rest).head? = some next := rfl
          simp only [ends_replay hx.completed.2.1 hreplay hhead, exists_cons_and]
          have hmem : next ∈ next :: rest := mem_cons_self
          obtain ⟨hfirst, hlast⟩ := hrest.inBlock next hmem
          obtain ⟨range', hlower, hat⟩ := @isAt_lowerBound inv (inv.doLoad s x)
            (restartKey next) (BitVec.le_def.mp hfirst) (BitVec.le_def.mp hlast)
          rw [hlower]
          have hgood : inv.RestartsWell s x →
              inv.IsAt (inv.doLoad s x) (Behind (some x.paddrKey)) range' := fun hwell =>
            hat.congr fun y hy => by
              rw [behind_some, hwell y hy, hnext]
              simp
          constructor
          · rintro ⟨v, hends, hsweeps⟩
            have hwell := restartsWell_of_head hnext hat hends hsweeps
            exact ⟨hwell, (ih _ hlt (hgood hwell) hbound rfl).mp ⟨v, hends, hsweeps⟩⟩
          · rintro ⟨hwell, hall⟩
            exact (ih _ hlt (hgood hwell) hbound rfl).mpr hall

/-- **`invalidate` visits every completed load of the block once**, and ends, if and only if every
restart of a sweep over the block finds its way. -/
theorem visitsOnce_iff (inv : Invalidation) (s : InvalidateCore) :
    inv.VisitsOnce s ↔ inv.AllRestartWell s none := by
  obtain ⟨range, hlower, hat⟩ := @isAt_lowerBound inv s
    (toLex (inv.anAddress.toNat, 0)) (Nat.le_refl _)
    (BitVec.le_def.mp inv.anAddress_le_last)
  rw [VisitsOnce, hlower]
  refine ends_sweeps_iff (hat.congr fun x hx => ?_) nofun
  refine iff_of_true ?_ nofun
  rw [MemQueueEntry.paddrKey, Prod.Lex.toLex_le_toLex]
  have := BitVec.le_def.mp hx.2.2.1
  omega

/-! ### Restarts that find their way -/

/-- **A number that is not changed by being written down** finds its way, if the loads that are
completed after the load has been handled are in places that entries have had before. -/
theorem restartsWell_of_narrowed {e : LsqEntry}
    (hnarrowed : ∀ next ∈ inv.nextEntry s e, narrowed next.seq = next.seq)
    (hplaces : ∀ x, inv.Completed (inv.doLoad s e) x →
      ∃ y ∈ s.theMemQueue, y.paddrKey = x.paddrKey) : inv.RestartsWell s e := by
  intro x hx
  obtain ⟨y, hy, hkey⟩ := hplaces x hx
  have haddr : y.thePaddrAligned = x.thePaddrAligned :=
    BitVec.eq_of_toNat_eq (congrArg (fun k => (ofLex k).1) hkey)
  constructor
  · intro hlt
    have hmem : y ∈ s.byPaddr.filter fun z =>
        decide (e.paddrKey < z.paddrKey) && decide (z.thePaddrAligned ≤ inv.last) := by
      rw [mem_filter, mem_byPaddr, Bool.and_eq_true, decide_eq_true_eq, decide_eq_true_eq,
        hkey, haddr]
      exact ⟨hy, hlt, hx.2.2.2⟩
    have hsorted := byPaddr_sorted (s := s).filter fun z =>
      decide (e.paddrKey < z.paddrKey) && decide (z.thePaddrAligned ≤ inv.last)
    cases hfilter : s.byPaddr.filter fun z =>
        decide (e.paddrKey < z.paddrKey) && decide (z.thePaddrAligned ≤ inv.last) with
    | nil =>
      rw [hfilter] at hmem
      exact absurd hmem not_mem_nil
    | cons next rest =>
      have hnext : inv.nextEntry s e = some next := by
        rw [nextEntry, hfilter]
        rfl
      refine ⟨next, hnext, ?_⟩
      rw [restartKey, hnarrowed next hnext, ← hkey]
      rw [hfilter] at hmem hsorted
      rcases mem_cons.mp hmem with rfl | hmem
      · exact le_refl _
      · exact le_of_lt ((pairwise_cons.mp hsorted).1 y hmem)
  · rintro ⟨next, hnext, hle⟩
    rw [restartKey, hnarrowed next hnext] at hle
    have hmem := mem_of_mem_head? hnext
    rw [mem_filter, Bool.and_eq_true, decide_eq_true_eq] at hmem
    exact lt_of_lt_of_le hmem.2.1 hle

end Invalidation

/-! ### A load that is skipped -/

/-- `doLoad`, as far as it changes the load itself. -/
def replay (theSpeculativeOrder : Bool) (s : InvalidateCore) (e : LsqEntry) : InvalidateCore where
  theMemQueue := s.theMemQueue.map fun x =>
    if x.seq = e.seq then
      let l := (doLoad theSpeculativeOrder (s.theMemQueue.map LsqEntry.toMemQueueEntry)
        x.toMemQueueEntry none).1
      { x with
        theValue := l.theValue, theExtendedValue := l.theExtendedValue
        thePartialSnoop := l.thePartialSnoop }
    else x
  isAnnulled := s.isAnnulled
  sorted := by
    refine pairwise_map.mpr (s.sorted.imp fun {x y} h => ?_)
    split <;> split <;> exact h
  bounded := by
    intro x hx
    obtain ⟨y, hy, rfl⟩ := mem_map.mp hx
    split <;> exact s.bounded y hy

/-- A load of eight bytes, with a value. -/
def completedLoad (n : ℕ) : LsqEntry :=
  { theSequenceNum := n, thePaddr := 0x1000, theOperation := .kLoad, theSize := .doubleWord
    theValue := some 1, theDependance := true }

/-- Two completed loads, after 2³¹ accesses to memory. -/
def lateCore : InvalidateCore where
  theMemQueue := [completedLoad 0x80000000, completedLoad 0x80000001]
  isAnnulled := fun _ => false
  sorted := by decide
  bounded := by decide

/-- The invalidation of their block, when all of the queue is to be replayed. -/
def lateInvalidation : Invalidation where
  doLoad := replay true
  firstIncomplete := some 0x80000000
  anAddress := 0x1000
  theCoherenceUnit := 64
  aligned := by decide

/-- **The second load is skipped.** -/
theorem lateInvalidation_not_visitsOnce : ¬ lateInvalidation.VisitsOnce lateCore := by
  rintro ⟨v, ⟨n, hn⟩, hsweeps⟩
  have hloop : ∀ n, lateInvalidation.loop (n + 2) lateCore
      (lateCore.lowerBound (toLex (lateInvalidation.anAddress.toNat, 0)))
      (lateCore.upperBound lateInvalidation.last).length =
        some [(completedLoad 0x80000000).paddrKey] := fun n => rfl
  match n with
  | 0 => exact absurd hn nofun
  | 1 => exact absurd hn nofun
  | n + 2 =>
    obtain rfl := Option.some.inj ((hloop n).symm.trans hn)
    have hfirst : lateInvalidation.IsNext lateCore (Invalidation.Behind none)
        (completedLoad 0x80000000) := by
      refine ⟨⟨mem_cons_self, rfl, by decide, by decide⟩, nofun, fun x hx _ => ?_⟩
      have hmem : x ∈ [completedLoad 0x80000000, completedLoad 0x80000001] := hx.1
      rw [mem_pair] at hmem
      rcases hmem with rfl | rfl <;> decide
    obtain ⟨v', hv', hrest⟩ := (Invalidation.sweeps_next hfirst).mp hsweeps
    obtain rfl := (List.cons.inj hv').2
    rcases hrest.head with ⟨-, hnone⟩ | ⟨y, v', -, hv⟩
    · -- the second load is completed still
      refine hnone (completedLoad 0x80000001) ⟨?_, rfl, by decide, by decide⟩ ?_
      · exact mem_cons_of_mem _ mem_cons_self
      · exact Invalidation.behind_some.mpr (by decide)
    · exact absurd hv nofun

end UArch

end Flexus
