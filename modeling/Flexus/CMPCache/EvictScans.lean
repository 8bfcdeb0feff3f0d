import Mathlib.Algebra.Group.Int.Defs
import Mathlib.Algebra.Group.Nat.Defs
import Flexus.CMPCache.Buffers
import Flexus.Lib.Machine

/-!
# The searches and the counters of the cache's evict buffer

Two methods of `CacheEvictBuffer` (`components/CMPCache/CacheBuffers.hpp`) look for the oldest
entry that may be evicted and has not been sent: `evictableReady` asks whether there is one, and
`firstNonPending` sends it. Their loop looks at an entry before it asks whether the end has been
reached, where `getOldestRequiringSnoops` and `headEvictable` ask first. So a place behind the last
entry is looked at whenever there is nothing to be found. `evictableReady` asks at least whether
the buffer is empty, but it need not be: an entry whose write-back has been sent stays in it until
that is acknowledged.

The buffer counts its entries, and those that are pending, in 32 bits. `firstNonPending` counts the
entry that it makes pending, but the `pop` of an index does not, and the `pop` of the oldest entry does not
count it off if it was pending.

* `Flexus.CMPCache.CacheEvictBuffer.scan_eq`: what the loop stops at, and what it looks at.
* `Flexus.CMPCache.CacheEvictBuffer.scans_and_counts_iff`: exactly when the searches stay among the
  entries, and exactly which runs keep the counters right.
-/

namespace Flexus

open Lib List

namespace CMPCache

/-- The entry may be evicted, and its write-back has not been sent. -/
def EvictEntry.ready (e : EvictEntry) : Bool := !e.pending && e.evictable

namespace CacheEvictBuffer

/-! ### The searches -/

/-- **The loop of the searches**: `while ((iter->pending() || !iter->evictable()) && iter != end)`.
The result is the place at which it stops, and the places that are looked at. -/
def scan : ℕ → List EvictEntry → ℕ × List ℕ
  -- whatever is found behind the last entry, the loop ends there
  | i, [] => (i, [i])
  | i, e :: rest =>
    if e.pending || !e.evictable then
      let (stop, examined) := scan (i + 1) rest
      (stop, i :: examined)
    else (i, [i])

variable (b : CacheEvictBuffer)

def empty : Bool := decide (b.theCurSize = 0)

/-- `evictableReady`, and the places that it looks at. -/
def evictableReadyScan : Bool × List ℕ :=
  if b.empty then (false, [])
  else
    let (i, examined) := scan 0 b.theEvictions
    (i != b.theEvictions.length, examined)

/-- `firstNonPending`, and the places that it looks at. -/
def firstNonPendingScan : Except Fault (CacheEvictBuffer × EvictEntry) × List ℕ :=
  let (i, examined) := scan 0 b.theEvictions
  (match b.theEvictions[i]? with
    | none => .error .noEvictable
    | some e => .ok
      ({ b.update e.address (fun e => { e with pending := true }) fun e => .refl e.address with
          thePendingEvicts := b.thePendingEvicts + 1 }, e), examined)

/-- **`evictableReady` is right**: it tells whether there is an entry that is ready, and looks at
nothing but entries. -/
structure ReadyRight : Prop where
  answer : b.evictableReadyScan.1 = true ↔ ∃ e ∈ b.theEvictions, e.ready = true
  within : ∀ i ∈ b.evictableReadyScan.2, i < b.theEvictions.length

/-- **`firstNonPending` is right**: it returns the oldest entry that is ready, if there is one, and
looks at nothing but entries. -/
structure FirstRight : Prop where
  oldest : ∀ older e younger, b.theEvictions = older ++ e :: younger →
    (∀ x ∈ older, x.ready = false) → e.ready = true → ∃ b', b.firstNonPendingScan.1 = .ok (b', e)
  within : ∀ i ∈ b.firstNonPendingScan.2, i < b.theEvictions.length

/-- **The counters are right.** -/
structure Counted : Prop where
  theCurSize : b.theCurSize.toInt = b.theEvictions.length
  thePendingEvicts : b.thePendingEvicts.toNat = b.theEvictions.countP EvictEntry.pending

variable {b} {b' : CacheEvictBuffer} {e : EvictEntry} {l : List EvictEntry} {a i : ℕ}

theorem ready_eq : e.ready = !(e.pending || !e.evictable) := by
  rw [EvictEntry.ready, Bool.not_or, Bool.not_not]

/-- **The loop** stops at the first entry that is ready, and looks at all places up to there. -/
theorem scan_eq : (scan i l).1 = i + l.findIdx EvictEntry.ready ∧
    ∀ j, j ∈ (scan i l).2 ↔ i ≤ j ∧ j ≤ i + l.findIdx EvictEntry.ready := by
  induction l generalizing i with
  | nil =>
    refine ⟨rfl, fun j => ?_⟩
    rw [scan, mem_singleton, findIdx_nil]
    omega
  | cons e rest ih =>
    rw [scan, findIdx_cons, ready_eq]
    cases he : (e.pending || !e.evictable) with
    | true =>
      obtain ⟨hstop, hexamined⟩ := ih (i := i + 1)
      refine ⟨hstop.trans (by rw [Bool.not_true, cond_false]; omega), fun j => ?_⟩
      refine mem_cons.trans ?_
      rw [hexamined j, Bool.not_true, cond_false]
      omega
    | false =>
      refine ⟨rfl, fun j => ?_⟩
      refine mem_singleton.trans ?_
      rw [Bool.not_false, cond_true]
      omega

/-- The loop looks at nothing but entries if and only if it finds what it looks for. -/
theorem scan_within : (∀ j ∈ (scan 0 l).2, j < l.length) ↔ ∃ e ∈ l, e.ready = true := by
  obtain ⟨-, hexamined⟩ := scan_eq (i := 0) (l := l)
  rw [← findIdx_lt_length]
  constructor
  · intro h
    exact h _ ((hexamined _).mpr ⟨Nat.zero_le _, by omega⟩)
  · intro h j hj
    have := ((hexamined j).mp hj).2
    omega

/-- What the loop stops at is what the bank takes as its next block. -/
theorem scan_getElem : b.theEvictions[(scan 0 b.theEvictions).1]? = b.nextEvictable := by
  rw [nextEvictable, find?_eq_getElem?_findIdx, scan_eq.1, Nat.zero_add]
  rfl

theorem nextEvictable_isSome :
    b.nextEvictable.isSome = true ↔ ∃ e ∈ b.theEvictions, e.ready = true := by
  rw [nextEvictable, find?_isSome]
  rfl

theorem empty_eq (h : b.theCurSize.toInt = b.theEvictions.length) :
    b.empty = decide (b.theEvictions = []) := by
  rw [empty, decide_eq_decide, ← Int32.toInt_inj, h, Int32.toInt_zero, Int.natCast_eq_zero,
    length_eq_zero_iff]

/-- **`evictableReady` tells what the bank takes it to tell**, as long as the size is right. -/
theorem evictableReadyScan_eq (h : b.theCurSize.toInt = b.theEvictions.length) :
    b.evictableReadyScan.1 = b.evictableReady := by
  rw [Bool.eq_iff_iff, evictableReady, nextEvictable_isSome, evictableReadyScan, empty_eq h]
  by_cases hnil : b.theEvictions = []
  · simp [hnil]
  · rw [decide_eq_false hnil, if_neg Bool.false_ne_true, ← findIdx_lt_length]
    have hle : b.theEvictions.findIdx EvictEntry.ready ≤ b.theEvictions.length :=
      findIdx_le_length
    simp only [scan_eq.1, Nat.zero_add, bne_iff_ne, ne_eq]
    omega

/-- **`firstNonPending` does what the bank takes it to do.** -/
theorem firstNonPendingScan_eq : b.firstNonPendingScan.1 = b.firstNonPending := by
  rw [firstNonPending, ← scan_getElem]
  rfl

/-- **`evictableReady` is right** on an empty buffer, and on one with an entry that is ready. -/
theorem readyRight_iff (h : b.theCurSize.toInt = b.theEvictions.length) :
    b.ReadyRight ↔ b.theEvictions = [] ∨ ∃ e ∈ b.theEvictions, e.ready = true := by
  have hanswer : b.evictableReadyScan.1 = true ↔ ∃ e ∈ b.theEvictions, e.ready = true := by
    rw [evictableReadyScan_eq h, evictableReady, nextEvictable_isSome]
  have hwithin : (∀ i ∈ b.evictableReadyScan.2, i < b.theEvictions.length) ↔
      b.theEvictions = [] ∨ ∃ e ∈ b.theEvictions, e.ready = true := by
    rw [evictableReadyScan, empty_eq h]
    by_cases hnil : b.theEvictions = []
    · simp [hnil]
    · rw [decide_eq_false hnil, if_neg Bool.false_ne_true, or_iff_right hnil]
      exact scan_within
  exact ⟨fun hr => hwithin.mp hr.within, fun hr => ⟨hanswer, hwithin.mpr hr⟩⟩

/-- **`firstNonPending` is right** if and only if there is an entry that is ready. -/
theorem firstRight_iff : b.FirstRight ↔ ∃ e ∈ b.theEvictions, e.ready = true := by
  constructor
  · intro h
    exact scan_within.mp h.within
  · intro h
    refine ⟨fun older e younger heq hold he => ?_, scan_within.mpr h⟩
    have hnext : b.nextEvictable = some e := by
      have hnone : older.find? EvictEntry.ready = none :=
        find?_eq_none.mpr fun x hx => Bool.eq_false_iff.mp (hold x hx)
      have hfind : (older ++ e :: younger).find? EvictEntry.ready = some e := by
        rw [find?_append, hnone, Option.none_or, find?_cons_of_pos he]
      rw [nextEvictable, heq]
      exact hfind
    rw [firstNonPendingScan_eq, firstNonPending, hnext]
    exact ⟨_, rfl⟩

/-! ### The other methods -/

variable (b)

/-- `allocEntry` of an entry that need not be evictable at once. -/
def allocEntryAs (a : ℕ) (type : MemoryMessageType) (state : CacheState) (evictable : Bool) :
    CacheEvictBuffer :=
  match h : b.find a with
  | some _ => b.update a (fun e => { e with type := type, state := state }) fun e => .refl e.address
  | none =>
    { b with
      theEvictions := b.theEvictions ++ [⟨a, type, state, evictable, false⟩]
      theCurSize := b.theCurSize + 1
      unique := by exact Keyed.nodup_append_singleton b.unique h }

def setEvictable (a : ℕ) (val : Bool) : CacheEvictBuffer :=
  b.update a fun e => { e with evictable := val }

def setEvictType (a : ℕ) (val : MemoryMessageType) : CacheEvictBuffer :=
  b.update a fun e => { e with type := val }

/-- The assertions of the buffer. -/
inductive EvictFault
  /-- `reserve` and `unreserve`. -/
  | room
  /-- There is no such entry. -/
  | noEntry
  /-- The entry may not be evicted. -/
  | notEvictable
  deriving DecidableEq

/-- `pop` of the oldest entry. -/
def pop : Except EvictFault CacheEvictBuffer :=
  match h : b.theEvictions with
  | [] => .error .noEntry
  | e :: rest =>
    if e.evictable then .ok
      { b with
        theEvictions := rest
        theCurSize := b.theCurSize - 1
        unique := by
          have := b.unique
          rw [h, map_cons] at this
          exact this.of_cons }
    else .error .notEvictable

/-- The entry of an index. A negative one is as good as 0. -/
def entryAt (index : ℤ) : Except EvictFault EvictEntry :=
  if b.theCurSize.toInt > index then
    match b.theEvictions[index.toNat]? with
    | none => .error .noEntry
    | some e => if e.evictable then .ok e else .error .notEvictable
  else .error .noEntry

/-- `pop` of an index: the entry stays, and is pending. -/
def popAt (index : ℤ) : Except EvictFault CacheEvictBuffer :=
  (b.entryAt index).map fun e =>
    b.update e.address (fun e => { e with pending := true }) fun e => .refl e.address

/-- `remove` of an index. -/
def removeAt (index : ℤ) : Except EvictFault CacheEvictBuffer :=
  (b.entryAt index).map fun e => b.remove e.address

/-- `loadState`: what is in the archive is not read. -/
def loadState : CacheEvictBuffer := { b with theEvictions := [], unique := nodup_nil }

/-- A call of a method that changes the buffer. -/
inductive EvictCall
  | allocEntry (a : ℕ) (type : MemoryMessageType) (state : CacheState) (evictable : Bool)
  | pop
  | popAt (index : ℤ)
  | firstNonPending
  | removeAt (index : ℤ)
  | remove (a : ℕ)
  | setEvictable (a : ℕ) (val : Bool)
  | setEvictType (a : ℕ) (val : MemoryMessageType)
  | reserve (n : ℤ)
  | unreserve (n : ℤ)
  | loadState
  deriving DecidableEq

def call (theSize : ℕ) : EvictCall → Except EvictFault CacheEvictBuffer
  | .allocEntry a type state evictable => .ok (b.allocEntryAs a type state evictable)
  | .pop => b.pop
  | .popAt index => b.popAt index
  | .firstNonPending =>
    match b.firstNonPendingScan.1 with
    | .ok (b', _) => .ok b'
    | .error _ => .error .noEntry
  | .removeAt index => b.removeAt index
  | .remove a => .ok (b.remove a)
  | .setEvictable a val => .ok (b.setEvictable a val)
  | .setEvictType a val => .ok (b.setEvictType a val)
  | .reserve n => (b.reserve theSize n).mapError fun _ => .room
  | .unreserve n => (b.unreserve n).mapError fun _ => .room
  | .loadState => .ok b.loadState

/-- **The calls that the counters survive**: there is room for the number of entries in 32 bits, the
oldest entry is not taken out while it is pending, an entry is made pending by its index only if it
is pending already, and nothing is loaded over entries. -/
def KeepsCount : EvictCall → Prop
  | .allocEntry a _ _ _ => b.find a = none → b.theEvictions.length + 1 < 2 ^ 31
  | .pop => ∀ e rest, b.theEvictions = e :: rest → e.evictable = true → e.pending = false
  | .popAt index => ∀ e, b.entryAt index = .ok e → e.pending = true
  | .loadState => b.theEvictions = []
  | _ => True

variable {b}

/-! ### The counters -/

/-- **A change in place** of an entry leaves the counters right if it does not make the entry
pending, or if that is counted. -/
theorem Counted.update {f : EvictEntry → EvictEntry} {hf : ∀ e, (f e).address = e.address}
    (h : b.Counted) (hp : ∀ e, (f e).pending = e.pending) : (b.update a f hf).Counted := by
  refine ⟨h.theCurSize.trans ?_, h.thePendingEvicts.trans ?_⟩
  · exact congrArg Nat.cast Keyed.length_update.symm
  · have hmap : (Keyed.update EvictEntry.address b.theEvictions a f).map EvictEntry.pending =
        b.theEvictions.map EvictEntry.pending := Keyed.map_update fun x _ => hp x
    have hcount := congrArg (List.countP id) hmap
    rw [countP_map, countP_map] at hcount
    exact congrArg Nat.cast hcount.symm

/-- A number of 32 bits can be raised unless it is the largest one. -/
theorem toInt_add_one_iff {x : Int32} : (x + 1).toInt = x.toInt + 1 ↔ x.toInt + 1 < 2 ^ 31 := by
  have hle := x.le_toInt
  constructor
  · intro h
    have := (x + 1).toInt_lt
    omega
  · intro h
    rw [Int32.toInt_add, Int32.toInt_one]
    exact Int.bmod_eq_of_le (by omega) (by omega)

theorem toInt_sub_one {x : Int32} (h : 0 < x.toInt) : (x - 1).toInt = x.toInt - 1 := by
  have := x.toInt_lt
  rw [Int32.toInt_sub, Int32.toInt_one]
  exact Int.bmod_eq_of_le (by omega) (by omega)

theorem counted_allocEntryAs {type : MemoryMessageType} {state : CacheState} {evictable : Bool}
    (h : b.Counted) : (b.allocEntryAs a type state evictable).Counted ↔
      b.KeepsCount (.allocEntry a type state evictable) := by
  rw [CacheEvictBuffer.allocEntryAs]
  split
  · rename_i e he
    exact iff_of_true (h.update fun _ => rfl) fun hnone => by cases he.symm.trans hnone
  · rename_i hnone
    have hfits : b.KeepsCount (.allocEntry a type state evictable) ↔
        b.theCurSize.toInt + 1 < 2 ^ 31 := by
      rw [h.theCurSize]
      constructor
      · intro hk
        exact_mod_cast hk hnone
      · intro hk _
        exact_mod_cast hk
    rw [hfits, ← toInt_add_one_iff]
    constructor
    · intro hc
      refine hc.theCurSize.trans ?_
      rw [length_append, length_singleton, h.theCurSize]
      rfl
    · intro hsize
      refine ⟨hsize.trans ?_, h.thePendingEvicts.trans ?_⟩
      · rw [length_append, length_singleton, h.theCurSize]
        rfl
      · rw [countP_append, countP_singleton]
        rfl

theorem Counted.remove (h : b.Counted) : (b.remove a).Counted := by
  rw [CacheEvictBuffer.remove]
  split
  · exact h
  · rename_i e he
    have hlen := (Keyed.perm_erase b.unique he).length_eq
    have hcount := Keyed.countP_erase b.unique he EvictEntry.pending
    rw [length_cons] at hlen
    have hsize := h.theCurSize
    have hpending := h.thePendingEvicts
    have hlt := b.thePendingEvicts.toNat_lt
    rw [hlen] at hsize
    constructor
    · refine (toInt_sub_one (by omega)).trans ?_
      rw [hsize]
      push_cast
      omega
    · rw [hcount] at hpending
      cases hp : e.pending with
      | true =>
        rw [hp, if_pos rfl] at hpending
        show (b.thePendingEvicts - 1).toNat =
          (Keyed.erase EvictEntry.address b.theEvictions a).countP EvictEntry.pending
        rw [UInt32.toNat_sub, UInt32.toNat_one]
        omega
      | false =>
        rw [hp, if_neg Bool.false_ne_true] at hpending
        exact hpending

/-- An entry that becomes pending is counted if it was not pending before. -/
theorem countP_setPending (h : e ∈ b.theEvictions) :
    (b.update e.address fun e => { e with pending := true }).theEvictions.countP
        EvictEntry.pending = b.theEvictions.countP EvictEntry.pending +
      if e.pending then 0 else 1 := by
  have hfind := Keyed.lookup_of_mem b.unique h
  have hcount : (b.update e.address fun e => { e with pending := true }).theEvictions.countP
      EvictEntry.pending + (if e.pending then 1 else 0) =
        b.theEvictions.countP EvictEntry.pending + if true = true then 1 else 0 :=
    Keyed.countP_update b.unique hfind EvictEntry.pending
  cases hp : e.pending with
  | true =>
    simp only [hp, if_true] at hcount ⊢
    omega
  | false =>
    simp only [hp, if_true, Bool.false_eq_true, if_false] at hcount ⊢
    omega

theorem entryAt_spec {index : ℤ} (h : b.entryAt index = .ok e) : e ∈ b.theEvictions := by
  rw [entryAt] at h
  split at h
  · split at h
    · cases h
    · rename_i e' he
      split at h
      · cases h
        exact mem_of_getElem? he
      · cases h
  · cases h

theorem Counted.firstNonPending (h : b.Counted) (hcall : b.firstNonPendingScan.1 = .ok (b', e)) :
    b'.Counted := by
  rw [firstNonPendingScan_eq, CacheEvictBuffer.firstNonPending] at hcall
  split at hcall
  · cases hcall
  · rename_i x hx
    cases hcall
    have hready := find?_some hx
    simp only [Bool.and_eq_true, Bool.not_eq_true'] at hready
    have hcount := countP_setPending (mem_of_find?_eq_some hx)
    rw [hready.1, if_neg Bool.false_ne_true] at hcount
    have hsize : b.theCurSize.toInt =
        (b.update e.address fun e => { e with pending := true }).theEvictions.length :=
      h.theCurSize.trans (congrArg Nat.cast Keyed.length_update.symm)
    refine ⟨hsize, ?_⟩
    -- no more entries are pending than there are
    have hle := countP_le_length (p := EvictEntry.pending)
      (l := (b.update e.address fun e => { e with pending := true }).theEvictions)
    have hlt := b.theCurSize.toInt_lt
    show (b.thePendingEvicts + 1).toNat = _
    rw [UInt32.toNat_add, UInt32.toNat_one, h.thePendingEvicts]
    rw [hcount] at hle ⊢
    omega

/-- **`pop` of an index** makes an entry pending that is not counted. -/
theorem counted_popAt {index : ℤ} (h : b.Counted) (hcall : b.popAt index = .ok b') :
    b'.Counted ↔ b.KeepsCount (.popAt index) := by
  rw [popAt] at hcall
  cases he : b.entryAt index with
  | error f =>
    rw [he] at hcall
    cases hcall
  | ok e =>
    rw [he] at hcall
    cases hcall
    have hcount := countP_setPending (entryAt_spec he)
    have hkeeps : b.KeepsCount (.popAt index) ↔ e.pending = true := by
      constructor
      · intro hk
        exact hk e he
      · intro hp x hx
        rw [he] at hx
        cases hx
        exact hp
    rw [hkeeps]
    constructor
    · intro hc
      have hpending := hc.thePendingEvicts.symm.trans h.thePendingEvicts
      rw [hcount] at hpending
      cases hp : e.pending with
      | true => rfl
      | false =>
        rw [hp, if_neg Bool.false_ne_true] at hpending
        omega
    · intro hp
      refine ⟨h.theCurSize.trans (congrArg Nat.cast Keyed.length_update.symm), ?_⟩
      rw [hcount, hp]
      exact h.thePendingEvicts

/-- **`pop` of the oldest entry** takes it out without counting it off. -/
theorem counted_pop (h : b.Counted) (hcall : b.pop = .ok b') :
    b'.Counted ↔ b.KeepsCount .pop := by
  rw [pop] at hcall
  split at hcall
  · cases hcall
  · rename_i e rest heq
    split at hcall
    · rename_i hevictable
      cases hcall
      have hlen := h.theCurSize
      have hcount := h.thePendingEvicts
      rw [heq, length_cons] at hlen
      rw [heq, countP_cons] at hcount
      have hkeeps : b.KeepsCount .pop ↔ e.pending = false := by
        constructor
        · intro hk
          exact hk e rest heq hevictable
        · intro hp x tail hx _
          rw [heq] at hx
          cases hx
          exact hp
      rw [hkeeps]
      constructor
      · intro hc
        have hpending : b.thePendingEvicts.toNat = rest.countP EvictEntry.pending := hc.thePendingEvicts
        cases hp : e.pending with
        | false => rfl
        | true =>
          rw [hp, if_pos rfl] at hcount
          omega
      · intro hp
        rw [hp, if_neg Bool.false_ne_true] at hcount
        refine ⟨(toInt_sub_one (by omega)).trans ?_, hcount⟩
        rw [hlen]
        push_cast
        omega
    · cases hcall

/-- **What a call does to the counters**: they stay right if and only if it is one of those that
they survive. -/
theorem counted_call {theSize : ℕ} {c : EvictCall} (h : b.Counted)
    (hcall : b.call theSize c = .ok b') : b'.Counted ↔ b.KeepsCount c := by
  cases c with
  | allocEntry a type state evictable =>
    cases hcall
    exact counted_allocEntryAs h
  | pop => exact counted_pop h hcall
  | popAt index => exact counted_popAt h hcall
  | firstNonPending =>
    rw [call] at hcall
    split at hcall
    · rename_i e he
      cases hcall
      exact iff_of_true (h.firstNonPending he) trivial
    · cases hcall
  | removeAt index =>
    have hcall' : (b.entryAt index).map (fun e => b.remove e.address) = .ok b' := hcall
    cases he : b.entryAt index with
    | error f =>
      rw [he] at hcall'
      cases hcall'
    | ok e =>
      rw [he] at hcall'
      cases hcall'
      exact iff_of_true h.remove trivial
  | remove a =>
    cases hcall
    exact iff_of_true h.remove trivial
  | setEvictable a val =>
    cases hcall
    exact iff_of_true (h.update fun _ => rfl) trivial
  | setEvictType a val =>
    cases hcall
    exact iff_of_true (h.update fun _ => rfl) trivial
  | reserve n =>
    -- places are taken and given back in a counter of their own
    rw [call, reserve] at hcall
    split at hcall
    · cases hcall
      exact iff_of_true ⟨h.theCurSize, h.thePendingEvicts⟩ trivial
    · cases hcall
  | unreserve n =>
    rw [call, unreserve] at hcall
    split at hcall
    · cases hcall
      exact iff_of_true ⟨h.theCurSize, h.thePendingEvicts⟩ trivial
    · cases hcall
  | loadState =>
    -- the list is cleared, and the counters are not
    cases hcall
    constructor
    · intro hc
      have hsize : b.theCurSize.toInt = 0 := hc.theCurSize
      rw [h.theCurSize, Int.natCast_eq_zero, length_eq_zero_iff] at hsize
      exact hsize
    · intro hnil
      have hnil : b.theEvictions = [] := hnil
      have hlen := h.theCurSize
      have hcount := h.thePendingEvicts
      rw [hnil] at hlen hcount
      exact ⟨hlen, hcount⟩

theorem keepsCount_of_error {theSize : ℕ} {c : EvictCall} {f : EvictFault}
    (hcall : b.call theSize c = .error f) : b.KeepsCount c := by
  cases c with
  | pop =>
    intro e rest heq hevictable
    have hcall' : b.pop = .error f := hcall
    rw [pop] at hcall'
    split at hcall'
    · rename_i hnil
      rw [hnil] at heq
      cases heq
    · rename_i x tail hx
      rw [hx] at heq
      cases heq
      rw [if_pos hevictable] at hcall'
      cases hcall'
  | popAt index =>
    intro e he
    have hcall' : (b.entryAt index).map _ = .error f := hcall
    rw [he] at hcall'
    cases hcall'
  | loadState => cases hcall
  | _ => trivial

end CacheEvictBuffer

/-- The buffer of a cache. -/
def evictBufferMachine (theSize : ℕ) :
    Machine CacheEvictBuffer CacheEvictBuffer.EvictCall CacheEvictBuffer.EvictFault where
  init := .init
  step b c := b.call theSize c

namespace CacheEvictBuffer

theorem counted_init : init.Counted := ⟨rfl, rfl⟩

/-- A block whose write-back is sent. -/
def sendOnly : List EvictCall := [.allocEntry 64 .evictDirty .modified true, .firstNonPending]

/-- The only block in the buffer is pending. -/
def sentOnly : CacheEvictBuffer :=
  ⟨[⟨64, .evictDirty, .modified, true, true⟩], 0, 1, 1, nodup_singleton _⟩

/-- A block that is popped by its index. -/
def popOnly : List EvictCall := [.allocEntry 64 .evictDirty .modified true, .popAt 0]

/-- Both searches look behind the only entry, which is pending, and an entry that is popped by its
index is pending without being counted. -/
theorem sentOnly_not_right :
    (evictBufferMachine 8).run sendOnly = .ok sentOnly ∧ sentOnly.Counted ∧
    ¬sentOnly.ReadyRight ∧ ¬sentOnly.FirstRight ∧
    ¬(evictBufferMachine 8).AlwaysFrom Counted .init popOnly := by
  refine ⟨rfl, ⟨rfl, rfl⟩, fun h => ?_, fun h => ?_, fun h => ?_⟩
  · exact absurd (h.within 1 (by decide)) (by decide)
  · exact absurd (h.within 1 (by decide)) (by decide)
  · have hrun : (evictBufferMachine 8).runFrom .init popOnly = .ok _ := rfl
    exact absurd (h.of_runFrom hrun).thePendingEvicts (by decide)

/-- **Where the searches and the counters are right.** -/
theorem scans_and_counts_iff (theSize : ℕ) :
    (∀ b : CacheEvictBuffer, b.Counted →
      (b.ReadyRight ↔ b.theEvictions = [] ∨ ∃ e ∈ b.theEvictions, e.ready = true) ∧
      (b.FirstRight ↔ ∃ e ∈ b.theEvictions, e.ready = true)) ∧
    ∀ es, (evictBufferMachine theSize).AlwaysFrom Counted .init es ↔
      (evictBufferMachine theSize).AllowedFrom KeepsCount .init es := by
  refine ⟨fun b h => ⟨readyRight_iff h.theCurSize, firstRight_iff⟩, fun es => ?_⟩
  exact Machine.alwaysFrom_iff (I := fun _ => True) (fun _ _ _ _ _ => trivial)
    (fun b c b' _ h hcall => counted_call h hcall) (fun b c f _ hcall => keepsCount_of_error hcall)
    trivial counted_init

/-- A block that waits for its write-back. -/
def waitingOnly : CacheEvictBuffer :=
  ⟨[⟨64, .evictDirty, .modified, true, false⟩], 0, 0, 1, nodup_singleton _⟩

theorem waitingOnly_right : waitingOnly.ReadyRight ∧ waitingOnly.FirstRight ∧
    (evictBufferMachine 8).AlwaysFrom Counted .init sendOnly := by
  obtain ⟨hscans, hcounts⟩ := scans_and_counts_iff 8
  obtain ⟨hready, hfirst⟩ := hscans waitingOnly ⟨rfl, rfl⟩
  have hexists : ∃ e ∈ waitingOnly.theEvictions, e.ready = true :=
    ⟨_, mem_singleton_self _, rfl⟩
  refine ⟨hready.mpr (.inr hexists), hfirst.mpr hexists, (hcounts _).mpr ?_⟩
  exact ⟨fun _ => by decide, fun _ _ => ⟨trivial, fun _ _ => trivial⟩⟩

end CacheEvictBuffer

end CMPCache

end Flexus
