import Flexus.Lib.Walk
import Flexus.UArch.StoreOverlay
import Mathlib.Data.Prod.Lex

/-!
# Stores applied to a partial snooper

A load that overlaps an older store without being covered by it waits for memory. When memory has
answered, `applyAllStores` pastes the bytes of the stores before it over what it has got
(`components/uArch/CoreModel/memforward.cpp`). It goes through the index `by_paddr`, in which the
entries of a double-word stand in program order, from the first of them to the load itself. The
load of a quad-word has a second double-word, `theExtendedValue`, for which there is a second walk.

The first walk is right. The second takes no notice of what the entries are that it comes to, and
pastes each of them over the *first* double-word; and it reads an entry before it looks whether
there is one (`Flexus.UArch.applyAllStores_iff`).
-/

namespace Flexus

namespace UArch

open Lib List

namespace MemQueueEntry

/-- The key of an entry in the index `by_paddr`. -/
def paddrKey (e : MemQueueEntry) : ℕ ×ₗ ℕ := toLex (e.thePaddrAligned.toNat, e.theSequenceNum)

/-- A store with a known value that is not annulled. -/
def isKnownStore (e : MemQueueEntry) : Bool := e.isStore && e.theValue.isSome && !e.theAnnulled

/-- The body of `applyStores`. -/
def applyStore (aLoad aStore : MemQueueEntry) : Except OverlayFault MemQueueEntry :=
  if aStore.isKnownStore then
    if aStore.intersects aLoad then aStore.overlay aLoad false else .ok aLoad
  else .ok aLoad

end MemQueueEntry

open MemQueueEntry

/-! ### `applyAllStores` -/

/-- `theMemQueue.get<by_paddr>()`. -/
def byPaddr (q : List MemQueueEntry) : List MemQueueEntry := Walk.sortBy paddrKey q

/-- `lower_bound( boost::make_tuple( anAddress ) )`. -/
def lowerBound (q : List MemQueueEntry) (anAddress : BitVec 64) : List MemQueueEntry :=
  Walk.bound (fun e => decide (e.thePaddrAligned < anAddress)) (byPaddr q)

/-- `upper_bound( boost::make_tuple( anAddress ) )`. -/
def upperBound (q : List MemQueueEntry) (anAddress : BitVec 64) : List MemQueueEntry :=
  Walk.bound (fun e => decide (e.thePaddrAligned ≤ anAddress)) (byPaddr q)

/-- `theMemQueue.project< by_paddr >`. -/
def project (q : List MemQueueEntry) (e : MemQueueEntry) : List MemQueueEntry :=
  Walk.bound (fun x => x.theSequenceNum != e.theSequenceNum) (byPaddr q)

/-- `applyStores`. -/
def applyStores (aFirstStore aLastStore : List MemQueueEntry) (aLoad : MemQueueEntry) :
    Except OverlayFault MemQueueEntry :=
  Walk.walk .pastEnd applyStore aLastStore.length aFirstStore aLoad

/-- The second walk, over the entries of the second double-word. -/
def applyQuad (q : List MemQueueEntry) (aLoad : MemQueueEntry) :
    Except OverlayFault MemQueueEntry :=
  let stop := upperBound q (aLoad.thePaddrAligned + 8)
  let it := lowerBound q (aLoad.thePaddrAligned + 8)
  Walk.doWalk .pastEnd (fun l e => e.overlay l true) stop.length it aLoad

/-- **`applyAllStores`**. -/
def applyAllStores (q : List MemQueueEntry) (aLoad : MemQueueEntry) :
    Except OverlayFault MemQueueEntry :=
  match applyStores (lowerBound q aLoad.thePaddrAligned) (project q aLoad) aLoad with
  | .error f => .error f
  | .ok l => if l.theASI = 0x24 ∨ l.theASI = 0x2C then applyQuad q l else .ok l

/-! ### What a load should get -/

/-- The known stores to a double-word that are older than a load, in program order. -/
def olderStores (q : List MemQueueEntry) (l : MemQueueEntry) (a : BitVec 64) :
    List MemQueueEntry :=
  q.filter fun e =>
    e.isKnownStore && (e.thePaddrAligned == a && decide (e.theSequenceNum < l.theSequenceNum))

/-- **A value with the bytes of stores over it**, one after the other. -/
def withStores (l : MemQueueEntry) (stores : List MemQueueEntry) (w : BitVec 64) : BitVec 64 :=
  stores.foldl (fun w e => e.overlaid l (e.theValue.getD 0) w) w

/-- What a load should get for the value `w` that memory has for it. -/
def firstHalf (q : List MemQueueEntry) (l : MemQueueEntry) (w : BitVec 64) : BitVec 64 :=
  withStores l ((olderStores q l l.thePaddrAligned).filter fun e => e.intersects l) w

/-- What it should get for the value `x` that memory has for its second double-word. -/
def secondHalf (q : List MemQueueEntry) (l : MemQueueEntry) (x : BitVec 64) : BitVec 64 :=
  withStores l (olderStores q l (l.thePaddrAligned + 8)) x

/-- The load of a quad-word. -/
def MemQueueEntry.isQuad (l : MemQueueEntry) : Bool :=
  l.theOperation == .kLoad && (l.theASI == 0x24 || l.theASI == 0x2C)

/-- **`applyAllStores` does what it should**: it ends, and the load gets what it should get. -/
def AppliesAllStores (q : List MemQueueEntry) (l : MemQueueEntry) (w x : BitVec 64) : Prop :=
  ∃ l', applyAllStores q l = .ok l' ∧ l'.loadValue = some (firstHalf q l w) ∧
    (l.isQuad = true → l'.theExtendedValue = some (secondHalf q l x))

/-! ### Ranges of the index -/

section Ranges

variable {q : List MemQueueEntry} {l : MemQueueEntry}

theorem isCut_lt (a : BitVec 64) :
    Walk.IsCut (fun e : MemQueueEntry => decide (e.thePaddrAligned < a)) (byPaddr q) := by
  refine Walk.sortBy_sorted.imp fun {x y} hxy hy => ?_
  rw [decide_eq_true_eq, BitVec.lt_def] at hy ⊢
  rw [paddrKey, paddrKey, Prod.Lex.toLex_le_toLex] at hxy
  rcases hxy with hlt | ⟨heq, -⟩ <;> omega

theorem isCut_le (a : BitVec 64) :
    Walk.IsCut (fun e : MemQueueEntry => decide (e.thePaddrAligned ≤ a)) (byPaddr q) := by
  refine Walk.sortBy_sorted.imp fun {x y} hxy hy => ?_
  rw [decide_eq_true_eq, BitVec.le_def] at hy ⊢
  rw [paddrKey, paddrKey, Prod.Lex.toLex_le_toLex] at hxy
  rcases hxy with hlt | ⟨heq, -⟩ <;> omega

theorem isCut_key (k : ℕ ×ₗ ℕ) :
    Walk.IsCut (fun e : MemQueueEntry => decide (e.paddrKey < k)) (byPaddr q) := by
  refine Walk.sortBy_sorted.imp fun {x y} hxy hy => ?_
  rw [decide_eq_true_eq] at hy ⊢
  exact lt_of_le_of_lt hxy hy

/-- Entries of one double-word are in program order in the index, too. -/
theorem filter_byPaddr (hq : q.Pairwise fun x y => x.theSequenceNum < y.theSequenceNum)
    {p : MemQueueEntry → Bool} {a : BitVec 64} (hp : ∀ e, p e = true → e.thePaddrAligned = a) :
    (byPaddr q).filter p = q.filter p := by
  refine Walk.filter_sortBy ?_
  refine List.Pairwise.imp_of_mem (fun {x y} hx hy hxy => ?_) (hq.filter p)
  rw [paddrKey, paddrKey, Prod.Lex.toLex_lt_toLex, hp x (mem_filter.mp hx).2,
    hp y (mem_filter.mp hy).2]
  exact .inr ⟨rfl, hxy⟩

/-- **The range of a double-word** holds its entries in program order. -/
theorem lowerBound_eq (hq : q.Pairwise fun x y => x.theSequenceNum < y.theSequenceNum)
    (a : BitVec 64) :
    lowerBound q a = (q.filter fun e => e.thePaddrAligned == a) ++ upperBound q a := by
  rw [lowerBound, upperBound, Walk.bound_eq_append (isCut_lt a) (isCut_le a)]
  · have hiff : (fun e : MemQueueEntry => !decide (e.thePaddrAligned < a) &&
        decide (e.thePaddrAligned ≤ a)) = fun e => e.thePaddrAligned == a := by
      funext e
      rw [Bool.eq_iff_iff, Bool.and_eq_true, Bool.not_eq_true', decide_eq_false_iff_not,
        decide_eq_true_eq, beq_iff_eq, BitVec.lt_def, BitVec.le_def, ← BitVec.toNat_inj]
      omega
    rw [hiff, filter_byPaddr hq fun e he => beq_iff_eq.mp he]
  · intro e _ he
    rw [decide_eq_true_eq, BitVec.lt_def] at he
    rw [decide_eq_true_eq, BitVec.le_def]
    exact le_of_lt he

/-- **The range of the first walk** holds the entries of the double-word that are older than the
load. -/
theorem lowerBound_project (hq : q.Pairwise fun x y => x.theSequenceNum < y.theSequenceNum)
    (hl : l ∈ q) : lowerBound q l.thePaddrAligned = olderEntries q l ++ project q l := by
  have hnodup : (q.map theSequenceNum).Nodup := pairwise_map.mpr (hq.imp Nat.ne_of_lt)
  have hseq : ∀ x ∈ byPaddr q, x.theSequenceNum = l.theSequenceNum → x = l := fun x hx h =>
    inj_on_of_nodup_map hnodup (Walk.sortBy_perm.mem_iff.mp hx) hl h
  have hproject : project q l = Walk.bound (fun e => decide (e.paddrKey < l.paddrKey))
      (byPaddr q) := by
    refine Walk.bound_of_mem (Walk.sortBy_perm.mem_iff.mpr hl) Walk.sortBy_sorted
      (fun x hx h => hseq x hx ?_) fun x hx => ?_
    · have := congrArg (fun k => (ofLex k).2) h
      exact this
    · rw [bne_iff_ne]
      exact not_congr ⟨hseq x hx, fun h => by rw [h]⟩
  rw [hproject, lowerBound, Walk.bound_eq_append (isCut_lt _) (isCut_key _)]
  · have hiff : (fun e : MemQueueEntry => !decide (e.thePaddrAligned < l.thePaddrAligned) &&
        decide (e.paddrKey < l.paddrKey)) = fun e => e.thePaddrAligned == l.thePaddrAligned &&
        decide (e.theSequenceNum < l.theSequenceNum) := by
      funext e
      rw [Bool.eq_iff_iff, Bool.and_eq_true, Bool.and_eq_true, Bool.not_eq_true',
        decide_eq_false_iff_not, decide_eq_true_eq, decide_eq_true_eq, beq_iff_eq, BitVec.lt_def,
        ← BitVec.toNat_inj, paddrKey, paddrKey, Prod.Lex.toLex_lt_toLex]
      omega
    rw [hiff, filter_byPaddr hq fun e he => beq_iff_eq.mp (Bool.and_eq_true _ _ ▸ he).1]
    rfl
  · intro e _ he
    rw [decide_eq_true_eq, BitVec.lt_def] at he
    rw [decide_eq_true_eq, paddrKey, paddrKey, Prod.Lex.toLex_lt_toLex]
    exact .inl he

end Ranges

/-! ### The walks -/

section Walks

variable {q es : List MemQueueEntry} {l m e : MemQueueEntry} {u v w x : BitVec 64}

theorem setLoadValue_self (h : l.loadValue = some w) : l.setLoadValue (some w) = l := by
  rw [setLoadValue]
  rw [loadValue] at h
  split <;> rename_i hatomic
  · rw [if_pos hatomic] at h
    rw [← h]
  · rw [if_neg hatomic] at h
    rw [← h]

theorem setLoadValue_setLoadValue (a b : Option (BitVec 64)) :
    (l.setLoadValue a).setLoadValue b = l.setLoadValue b := by
  rw [setLoadValue, setLoadValue, setLoadValue]
  by_cases h : l.isAtomic = true
  · rw [if_pos h, if_pos (by exact h), if_pos h]
  · rw [if_neg h, if_neg (by exact h), if_neg h]

theorem intersects_setLoadValue (a : Option (BitVec 64)) :
    e.intersects (l.setLoadValue a) = e.intersects l := by
  rw [setLoadValue]
  split <;> rfl

theorem overlaid_setLoadValue (a : Option (BitVec 64)) :
    e.overlaid (l.setLoadValue a) v w = e.overlaid l v w := by
  rw [setLoadValue]
  split <;> rfl

theorem applyStore_eq : applyStore (l.setLoadValue (some w)) e =
    .ok (l.setLoadValue (some (if e.isKnownStore && e.intersects l then
      e.overlaid l (e.theValue.getD 0) w else w))) := by
  rw [applyStore, intersects_setLoadValue]
  cases hknown : e.isKnownStore with
  | false => rfl
  | true =>
    cases hint : e.intersects l with
    | false => rfl
    | true =>
      obtain ⟨v, hv⟩ : ∃ v, e.theValue = some v := by
        rw [isKnownStore, Bool.and_eq_true, Bool.and_eq_true] at hknown
        exact Option.isSome_iff_exists.mp hknown.1.2
      have hoverlay : e.overlay (l.setLoadValue (some w)) false =
          .ok (l.setLoadValue (some (e.overlaid l v w))) := by
        unfold MemQueueEntry.overlay
        simp only [hv, setLoadValue_loadValue, Bool.false_eq_true, if_false,
          setLoadValue_setLoadValue, overlaid_setLoadValue]
      rw [if_pos rfl, if_pos rfl, hoverlay, hv]
      rfl

/-- **The first walk** pastes the known stores among the entries that overlap the load. -/
theorem foldlM_applyStore : es.foldlM applyStore (l.setLoadValue (some w)) =
    .ok (l.setLoadValue (some
      (withStores l (es.filter fun e => e.isKnownStore && e.intersects l) w))) := by
  induction es generalizing w with
  | nil => rfl
  | cons e es ih =>
    rw [foldlM_cons, applyStore_eq]
    refine ih.trans ?_
    cases h : e.isKnownStore && e.intersects l with
    | true =>
      rw [filter_cons_of_pos
        (p := fun e : MemQueueEntry => e.isKnownStore && e.intersects l) h, if_pos rfl]
      rfl
    | false =>
      rw [filter_cons_of_neg (p := fun e : MemQueueEntry => e.isKnownStore && e.intersects l)
        (by rw [h]; decide), if_neg (by decide)]

/-- The first walk, from the lower bound of the double-word to the load. -/
theorem applyStores_eq (hq : q.Pairwise fun x y => x.theSequenceNum < y.theSequenceNum)
    (hl : l ∈ q) (hw : l.loadValue = some w) :
    applyStores (lowerBound q l.thePaddrAligned) (project q l) l =
      .ok (l.setLoadValue (some (firstHalf q l w))) := by
  have hfilter : (olderEntries q l).filter (fun e => e.isKnownStore && e.intersects l) =
      (olderStores q l l.thePaddrAligned).filter fun e => e.intersects l := by
    rw [olderEntries, olderStores, filter_filter, filter_filter]
    congr 1
    funext e
    ac_rfl
  rw [applyStores, lowerBound_project hq hl, Walk.walk_append, firstHalf, ← hfilter,
    ← foldlM_applyStore, setLoadValue_self hw]

theorem overlay_ext_eq (hm : m.loadValue = some w) : e.overlay m true =
    match e.theValue with
    | none => .error .noValue
    | some v => .ok { m with theExtendedValue := some (e.overlaid m v w) } := by
  unfold MemQueueEntry.overlay
  cases e.theValue with
  | none => rfl
  | some v => simp only [hm, if_true]

theorem loadValue_extended (hatomic : m.isAtomic = false) {a : Option (BitVec 64)} :
    { m with theExtendedValue := a }.loadValue = m.loadValue := by
  have hnot : ¬ m.isAtomic = true := by
    rw [hatomic]
    decide
  rw [loadValue, loadValue, if_neg hnot]
  exact if_neg hnot

/-- **The second walk leaves what the last entry writes**, over the first half. -/
theorem foldlM_overlay (hatomic : m.isAtomic = false) (hm : m.loadValue = some w) :
    es.foldlM (fun l e => e.overlay l true) m =
      if es.all (fun e => e.theValue.isSome) then
        .ok (match es.getLast? with
          | none => m
          | some last => { m with
              theExtendedValue := some (last.overlaid m (last.theValue.getD 0) w) })
      else .error .noValue := by
  induction es generalizing m with
  | nil => rfl
  | cons e es ih =>
    rw [foldlM_cons, overlay_ext_eq hm, all_cons]
    cases hv : e.theValue with
    | none => rfl
    | some v =>
      refine (ih (m := { m with theExtendedValue := some (e.overlaid m v w) }) hatomic
        ((loadValue_extended hatomic).trans hm)).trans ?_
      cases es with
      | nil =>
        show _ = Except.ok { m with theExtendedValue := some (e.overlaid m (e.theValue.getD 0) w) }
        rw [hv]
        rfl
      | cons e' es => rfl

/-- An atomic has the value it has read in the place of a second half. -/
theorem setLoadValue_of_isAtomic (hatomic : l.isAtomic = true) (a b : Option (BitVec 64)) :
    { l.setLoadValue a with theExtendedValue := b } = l.setLoadValue b := by
  rw [setLoadValue, setLoadValue, if_pos hatomic, if_pos hatomic]

theorem foldlM_overlay_atomic (hatomic : l.isAtomic = true) :
    es.foldlM (fun l e => e.overlay l true) (l.setLoadValue (some w)) =
      if es.all (fun e => e.theValue.isSome) then
        .ok (l.setLoadValue (some (withStores l es w)))
      else .error .noValue := by
  induction es generalizing w with
  | nil => rfl
  | cons e es ih =>
    rw [foldlM_cons, overlay_ext_eq setLoadValue_loadValue, all_cons]
    cases hv : e.theValue with
    | none => rfl
    | some v =>
      simp only [setLoadValue_of_isAtomic hatomic, overlaid_setLoadValue]
      refine ih.trans ?_
      rw [withStores, withStores, foldl_cons, hv]
      rfl

/-! ### Overlays twice -/

/-- Bits outside the bytes of an entry are not used of an overlay. -/
theorem unalign_shift (l : MemQueueEntry) (y : BitVec 64) :
    l.unalign y <<< (l.offset * 8) = y &&& l.makeMask := by
  refine BitVec.eq_of_getLsbD_eq fun i hi => ?_
  rw [BitVec.getLsbD_shiftLeft, unalign, BitVec.getLsbD_ushiftRight, BitVec.getLsbD_and,
    BitVec.getLsbD_and]
  by_cases h : i < l.offset * 8
  · have hnone : l.makeMask.getLsbD i = false := by
      rw [MemQueueEntry.makeMask, BitVec.getLsbD_shiftLeft]
      simp [h]
    rw [hnone]
    simp [h]
  · have hpos : l.offset * 8 + (i - l.offset * 8) = i := by omega
    simp [hi, h, hpos]

/-- **A store over itself**: what was there of it before is not seen. -/
theorem overlaid_overlaid : e.overlaid l u (e.overlaid l v w) = e.overlaid l u w := by
  simp only [MemQueueEntry.overlaid, unalign_shift]
  rw [unalign, unalign]
  congr 1
  refine BitVec.eq_of_getLsbD_eq fun i hi => ?_
  simp only [BitVec.getLsbD_and, BitVec.getLsbD_or, BitVec.getLsbD_not]
  cases e.makeMask.getLsbD i <;> cases l.makeMask.getLsbD i <;> simp [hi]

end Walks

/-! ### The second half -/

/-- **The second walk happens to be right**: the double-word has entries, they all have values,
and the last of them is a store the load should see – or writes what is there – and the two halves
agree outside its bytes. (An atomic has no second half. Its entries must leave the first as it is.)
-/
def QuadRight (q : List MemQueueEntry) (l : MemQueueEntry) (w x : BitVec 64) : Prop :=
  let range := q.filter fun e => e.thePaddrAligned == l.thePaddrAligned + 8
  ∃ last ∈ range.getLast?, (∀ e ∈ range, e.theValue.isSome = true) ∧
    if l.isAtomic then withStores l range (firstHalf q l w) = firstHalf q l w
    else l.isQuad = true →
      (last ∈ olderStores q l (l.thePaddrAligned + 8) ∨
        last.overlaid l (last.theValue.getD 0) (secondHalf q l x) = secondHalf q l x) ∧
      last.overlaid l 0 (firstHalf q l w) = last.overlaid l 0 (secondHalf q l x)

section Quads

variable {q : List MemQueueEntry} {l last : MemQueueEntry} {u v w x y : BitVec 64}

/-- **What a store writes over two values** agrees if they agree outside its bytes. -/
theorem overlaid_eq_iff_zero :
    last.overlaid l v x = last.overlaid l v y ↔ last.overlaid l 0 x = last.overlaid l 0 y := by
  have himp : ∀ {a b : BitVec 64}, last.overlaid l a x = last.overlaid l a y →
      last.overlaid l b x = last.overlaid l b y := fun {a b} h => by
    calc last.overlaid l b x = last.overlaid l b (last.overlaid l a x) := overlaid_overlaid.symm
      _ = last.overlaid l b (last.overlaid l a y) := by rw [h]
      _ = last.overlaid l b y := overlaid_overlaid
  exact ⟨himp, himp⟩

/-- A store that the load should see, and that is the last entry, is the last one that is pasted
over the second half. -/
theorem overlaid_secondHalf
    (hlast : (q.filter fun e => e.thePaddrAligned == l.thePaddrAligned + 8).getLast? = some last)
    (hmem : last ∈ olderStores q l (l.thePaddrAligned + 8)) :
    last.overlaid l (last.theValue.getD 0) (secondHalf q l x) = secondHalf q l x := by
  obtain ⟨before, hbefore⟩ := getLast?_eq_some_iff.mp hlast
  have holder : olderStores q l (l.thePaddrAligned + 8) =
      (before.filter fun e => e.isKnownStore && decide (e.theSequenceNum < l.theSequenceNum)) ++
        [last] := by
    have hsplit : olderStores q l (l.thePaddrAligned + 8) =
        (q.filter fun e => e.thePaddrAligned == l.thePaddrAligned + 8).filter
          fun e => e.isKnownStore && decide (e.theSequenceNum < l.theSequenceNum) := by
      rw [olderStores, filter_filter]
      congr 1
      funext e
      ac_rfl
    have hkeep : (last.isKnownStore && decide (last.theSequenceNum < l.theSequenceNum)) = true := by
      rw [olderStores, mem_filter, Bool.and_eq_true, Bool.and_eq_true] at hmem
      rw [hmem.2.1, hmem.2.2.2]
      rfl
    rw [hsplit, hbefore, filter_append, filter_singleton, hkeep]
    rfl
  rw [secondHalf, withStores, holder, foldl_append, foldl_cons, foldl_nil, overlaid_overlaid]

theorem isQuad_of_isAtomic (hatomic : l.isAtomic = true) : l.isQuad = false := by
  rw [isAtomic] at hatomic
  rw [isQuad]
  cases hop : l.theOperation <;> rw [hop] at hatomic <;>
    first | rfl | exact absurd hatomic (by decide)

/-- What the last entry writes over the first half is the second half. -/
theorem overlaid_eq_secondHalf_iff
    (hlast : (q.filter fun e => e.thePaddrAligned == l.thePaddrAligned + 8).getLast? = some last) :
    last.overlaid l (last.theValue.getD 0) w = secondHalf q l x ↔
      (last ∈ olderStores q l (l.thePaddrAligned + 8) ∨
        last.overlaid l (last.theValue.getD 0) (secondHalf q l x) = secondHalf q l x) ∧
      last.overlaid l 0 w = last.overlaid l 0 (secondHalf q l x) := by
  rw [← overlaid_eq_iff_zero (v := last.theValue.getD 0), or_iff_right_of_imp
    (overlaid_secondHalf hlast)]
  constructor
  · intro h
    have hself : last.overlaid l (last.theValue.getD 0) (secondHalf q l x) = secondHalf q l x := by
      rw [← h, overlaid_overlaid]
    exact ⟨hself, h.trans hself.symm⟩
  · rintro ⟨hself, h⟩
    exact h.trans hself

end Quads

/-- **A partial snooper gets what it should get** if it is not the load of a quad-word; and if it
is one, when the second walk happens to be right. -/
theorem applyAllStores_iff (q : MemQueue) (l : MemQueueEntry) (w x : BitVec 64)
    (hl : l ∈ q.entries) (hw : l.loadValue = some w) :
    AppliesAllStores q.entries l w x ↔
      (l.theASI = 0x24 ∨ l.theASI = 0x2C → QuadRight q.entries l w x) := by
  obtain ⟨q, hq⟩ := q
  simp only at hl ⊢
  have hset : ∀ a, (l.setLoadValue a).theASI = l.theASI ∧
      (l.setLoadValue a).thePaddrAligned = l.thePaddrAligned ∧
      (l.setLoadValue a).isAtomic = l.isAtomic := fun a => by
    rw [setLoadValue]
    split <;> exact ⟨rfl, rfl, rfl⟩
  obtain ⟨hasi, haddr, hatomic⟩ := hset (some (firstHalf q l w))
  rw [AppliesAllStores, applyAllStores, applyStores_eq hq hl hw]
  simp only [hasi]
  by_cases hquad : l.theASI = 0x24 ∨ l.theASI = 0x2C
  · rw [if_pos hquad, applyQuad, haddr, lowerBound_eq hq]
    simp only [hquad, forall_const, QuadRight]
    generalize hrange : (q.filter fun e => e.thePaddrAligned == l.thePaddrAligned + 8) = range
    cases hlast : range.getLast? with
    | none =>
      -- there is no entry, and one is read
      rw [getLast?_eq_none_iff] at hlast
      subst hlast
      simp only [nil_append, Option.mem_def, reduceCtorEq, false_and, exists_false, iff_false]
      rintro ⟨l', hl', -⟩
      exact Walk.doWalk_empty l' hl'
    | some last =>
      have hne : range ≠ [] := by
        rintro rfl
        exact absurd hlast nofun
      rw [Walk.doWalk_append hne]
      simp only [Option.mem_def, Option.some.injEq, exists_eq_left']
      by_cases hall : ∀ e ∈ range, e.theValue.isSome = true
      · have hall' : (range.all fun e => e.theValue.isSome) = true := all_eq_true.mpr hall
        rw [and_iff_right hall]
        cases hat : l.isAtomic with
        | true =>
          rw [foldlM_overlay_atomic hat, if_pos hall', if_pos rfl]
          simp only [Except.ok.injEq, exists_eq_left', setLoadValue_loadValue, Option.some.injEq,
            isQuad_of_isAtomic hat, Bool.false_eq_true, false_implies, and_true]
        | false =>
          rw [foldlM_overlay (hatomic.trans hat) setLoadValue_loadValue, if_pos hall', hlast,
            if_neg (by decide)]
          simp only [Except.ok.injEq, exists_eq_left', Option.some.injEq, overlaid_setLoadValue]
          rw [overlaid_eq_secondHalf_iff (hrange ▸ hlast)]
          refine and_iff_right ?_
          rw [loadValue_extended (hatomic.trans hat), setLoadValue_loadValue]
      · have hall' : ¬ (range.all fun e => e.theValue.isSome) = true := by
          rw [all_eq_true]
          exact hall
        have hfault : range.foldlM (fun l e => e.overlay l true)
            (l.setLoadValue (some (firstHalf q l w))) = .error .noValue := by
          cases hat : l.isAtomic with
          | true => rw [foldlM_overlay_atomic hat, if_neg hall']
          | false =>
            rw [foldlM_overlay (hatomic.trans hat) setLoadValue_loadValue, if_neg hall']
        rw [hfault]
        refine ⟨?_, fun h => absurd h.1 hall⟩
        rintro ⟨l', hl', -⟩
        exact absurd hl' nofun
  · rw [if_neg hquad]
    refine ⟨fun _ h => absurd h hquad, fun _ => ⟨_, rfl, setLoadValue_loadValue, fun h => ?_⟩⟩
    rw [isQuad, Bool.and_eq_true, Bool.or_eq_true, beq_iff_eq, beq_iff_eq, beq_iff_eq] at h
    exact absurd h.2 hquad

/-! ### Two quad-words -/

/-- A store of eight bytes. -/
def wordStore (n : ℕ) (a v : BitVec 64) : MemQueueEntry :=
  { theSequenceNum := n, thePaddr := a, theOperation := .kStore, theSize := .doubleWord
    theValue := some v }

/-- The load of a quad-word, with the value that memory has for its first half. -/
def quadLoad : MemQueueEntry :=
  { theSequenceNum := 2, thePaddr := 0x1000, theASI := 0x24, theOperation := .kLoad
    theSize := .doubleWord, thePartialSnoop := true
    theValue := some 1, theExtendedValue := some 2 }

/-- A load of a quad-word of whose second half no access is in the queue. -/
def halfQuad : MemQueue where
  entries := [wordStore 0 0x1000 7, quadLoad]
  sorted := by decide

/-- The same with a store to the second half, before the load. -/
def wholeQuad : MemQueue where
  entries := [wordStore 0 0x1000 7, wordStore 1 0x1008 8, quadLoad]
  sorted := by decide

/-- **The walk does not end** at the end of an empty range. -/
theorem halfQuad_not_applied : quadLoad ∈ halfQuad.entries ∧ quadLoad.loadValue = some 1 ∧
    applyAllStores halfQuad.entries quadLoad = .error .pastEnd ∧
    ¬ AppliesAllStores halfQuad.entries quadLoad 1 2 := by
  have hfault : applyAllStores halfQuad.entries quadLoad = .error .pastEnd := by decide
  refine ⟨by decide, rfl, hfault, ?_⟩
  rintro ⟨l', hl', -⟩
  rw [hfault] at hl'
  exact absurd hl' nofun

/-- The load gets both halves if the last access of the second half is a store to all of it. -/
theorem wholeQuad_applied : AppliesAllStores wholeQuad.entries quadLoad 1 2 := by
  refine (applyAllStores_iff wholeQuad quadLoad 1 2 (by decide) rfl).mpr fun _ => ?_
  refine ⟨wordStore 1 0x1008 8, by decide, by decide, ?_⟩
  rw [if_neg (by decide)]
  intro _
  exact ⟨.inl (by decide), by decide⟩

end UArch

end Flexus
