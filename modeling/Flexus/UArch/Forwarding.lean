import Flexus.UArch.MemQueue

/-!
# Searching again after a store has changed

`updateDependantLoads` saves work twice: it hands the result of one search on to the loads that
follow, and it stops at a store that overlaps the one that has changed. This module says for
which loads the outcome is that of a search of their own.

Every load that is reached ends up with what its own search gives, as long as the search handed
on has found the store its own search finds. A load that is not reached stays as it is; unless
its own search comes to the changed store, it has nothing to learn from it.
-/

namespace Flexus

open List

namespace UArch

namespace MemQueueEntry

/-! ### What a search reads -/

/-- What a search and a forwarding read of an entry as of a store. A load changes nothing
of it when it searches. -/
def storeView (e : MemQueueEntry) : MemQueueEntry :=
  { e with
    thePartialSnoop := false
    theValue := if e.theOperation = .kLoad then none else e.theValue
    theExtendedValue := none }

/-- What a search and a forwarding read of an entry as of a load. -/
def loadView (e : MemQueueEntry) : MemQueueEntry :=
  { e with
    thePartialSnoop := false
    theValue := none
    theExtendedValue := none }

variable {s t l m : MemQueueEntry} {v : Option (BitVec 64)}

theorem setLoadValue_loadValue : (l.setLoadValue v).loadValue = v := by
  unfold setLoadValue loadValue
  by_cases h : l.isAtomic = true
  · rw [if_pos h, if_pos (by exact h)]
  · rw [if_neg h, if_neg (by exact h)]

theorem setLoadValue_thePartialSnoop : (l.setLoadValue v).thePartialSnoop = l.thePartialSnoop := by
  unfold setLoadValue
  split <;> rfl

theorem setLoadValue_loadView : (l.setLoadValue v).loadView = l.loadView := by
  unfold setLoadValue
  split <;> rfl

theorem setLoadValue_theSequenceNum :
    (l.setLoadValue v).theSequenceNum = l.theSequenceNum := by
  unfold setLoadValue
  split <;> rfl

theorem setLoadValue_storeView (h : l.isLoad) : (l.setLoadValue v).storeView = l.storeView := by
  unfold setLoadValue
  split
  · rfl
  · rename_i hatomic
    have hload : l.theOperation = .kLoad := by
      revert h hatomic
      unfold isLoad isAtomic
      cases l.theOperation <;> decide
    simp only [storeView, hload, if_true]

theorem forwardValue_loadValue : (forwardValue s l).loadValue = (forwarded s l).1 :=
  setLoadValue_loadValue

theorem forwardValue_thePartialSnoop :
    (forwardValue s l).thePartialSnoop = (forwarded s l).2 :=
  setLoadValue_thePartialSnoop

theorem forwardValue_loadView : (forwardValue s l).loadView = l.loadView :=
  setLoadValue_loadView

theorem forwardValue_storeView (h : l.isLoad) : (forwardValue s l).storeView = l.storeView :=
  setLoadValue_storeView h

/-- A forwarding is determined by the views of the store and of the load. -/
theorem forwarded_congr (hs : s.isStore) (ht : t.isStore) (hst : s.storeView = t.storeView)
    (hlm : l.loadView = m.loadView) : forwarded s l = forwarded t m := by
  have hview : ∀ {u : MemQueueEntry}, u.isStore → forwarded u l = forwarded u.storeView l := by
    intro u hu
    have hop : u.theOperation ≠ .kLoad := by
      intro hop
      simp [isStore, hop] at hu
    have hval : u.storeView.theValue = u.theValue := if_neg hop
    unfold forwarded
    rw [hval]
    rfl
  calc forwarded s l = forwarded s.storeView l := hview hs
    _ = forwarded t.storeView l := by rw [hst]
    _ = forwarded t l := (hview ht).symm
    _ = forwarded t l.loadView := rfl
    _ = forwarded t m.loadView := by rw [hlm]
    _ = forwarded t m := rfl

end MemQueueEntry

open MemQueueEntry

/-! ### Queues with the same stores -/

/-- Two queues that differ in the values and flags of loads only. -/
def SameStores (q q' : List MemQueueEntry) : Prop := q'.map storeView = q.map storeView

section Queues

variable {q q' : List MemQueueEntry} {e l l' s : MemQueueEntry} {n : ℕ}

theorem snoopQueue_view : snoopQueue q l = snoopQueue (q.map storeView) l.loadView := by
  have holder : olderEntries (q.map storeView) l.loadView = (olderEntries q l).map storeView := by
    unfold olderEntries
    rw [filter_map]
    rfl
  unfold snoopQueue
  rw [holder, ← map_reverse, find?_map, Option.map_map]
  rfl

theorem SameStores.snoopQueue_eq (h : SameStores q q') (hl : l'.loadView = l.loadView) :
    snoopQueue q' l' = snoopQueue q l := by
  rw [snoopQueue_view, snoopQueue_view (q := q), h, hl]

theorem entryAt_view : (entryAt q n).map storeView = entryAt (q.map storeView) n := by
  unfold entryAt
  rw [find?_map]
  rfl

theorem SameStores.entryAt_view_eq (h : SameStores q q') :
    (entryAt q' n).map storeView = (entryAt q n).map storeView := by
  rw [entryAt_view, entryAt_view, h]

/-- The entries of a queue are found by their sequence numbers. -/
theorem entryAt_of_mem (hq : q.Pairwise fun x y => x.theSequenceNum < y.theSequenceNum)
    (he : e ∈ q) : entryAt q e.theSequenceNum = some e := by
  unfold entryAt
  induction q with
  | nil => cases he
  | cons x q ih =>
    rw [pairwise_cons] at hq
    rcases mem_cons.1 he with rfl | he
    · simp
    · have hlt := hq.1 e he
      rw [find?_cons_of_neg (by simp; omega)]
      exact ih hq.2 he

theorem exists_store_of_snoopQueue
    (hq : q.Pairwise fun x y => x.theSequenceNum < y.theSequenceNum)
    (h : snoopQueue q l = some n) : ∃ st, entryAt q n = some st ∧ st.isStore := by
  unfold snoopQueue at h
  rw [Option.map_eq_some_iff] at h
  obtain ⟨st, hst, rfl⟩ := h
  have hmem : st ∈ olderEntries q l := mem_reverse.1 (mem_of_find?_eq_some hst)
  have hmatch := find?_some hst
  simp only [matchesLoad, Bool.and_eq_true] at hmatch
  exact ⟨st, entryAt_of_mem hq (mem_filter.1 hmem).1, hmatch.1.1⟩

theorem entryAt_writeEntry :
    entryAt (writeEntry q e) n =
      if n = e.theSequenceNum then (entryAt q n).map fun _ => e else entryAt q n := by
  unfold entryAt writeEntry
  induction q with
  | nil => simp
  | cons x q ih =>
    by_cases hx : x.theSequenceNum = n
    · subst hx
      by_cases he : x.theSequenceNum = e.theSequenceNum
      · simp [he]
      · simp [he]
    · have hno : ((if x.theSequenceNum = e.theSequenceNum then e else x).theSequenceNum == n)
          = false := by
        split
        · rename_i h
          simpa [← h] using hx
        · simpa using hx
      rw [map_cons, find?_cons_of_neg (by simp [hno]), find?_cons_of_neg (by simpa using hx), ih]

theorem SameStores.writeEntry (h : SameStores q q')
    (he : ∀ x ∈ q', x.theSequenceNum = e.theSequenceNum → x.storeView = e.storeView) :
    SameStores q (writeEntry q' e) := by
  refine Eq.trans ?_ h
  unfold UArch.writeEntry
  rw [map_map]
  refine map_congr_left fun x hx => ?_
  simp only [Function.comp_apply]
  split
  · rename_i hseq
    exact (he x hx hseq).symm
  · rfl

theorem SameStores.seq_eq (h : SameStores q q') :
    q'.map MemQueueEntry.theSequenceNum = q.map MemQueueEntry.theSequenceNum := by
  have hcomp : ∀ l : List MemQueueEntry, l.map MemQueueEntry.theSequenceNum =
      (l.map storeView).map MemQueueEntry.theSequenceNum := by
    intro l
    rw [map_map]
    rfl
  rw [hcomp q', hcomp q, h]

theorem SameStores.sorted (h : SameStores q q')
    (hq : q.Pairwise fun x y => x.theSequenceNum < y.theSequenceNum) :
    q'.Pairwise fun x y => x.theSequenceNum < y.theSequenceNum := by
  rw [← pairwise_map (f := MemQueueEntry.theSequenceNum) (R := (· < ·))] at hq ⊢
  rwa [h.seq_eq]

end Queues

/-! ### One load -/

/-- The loads that search the queue: normal accesses with an address that are not annulled; of
the atomics, under speculative order, those that are no partial snoopers yet. -/
def MemQueueEntry.Snoops (theSpeculativeOrder : Bool) (l : MemQueueEntry) : Bool :=
  !(l.isAtomic && l.thePartialSnoop) && !l.theAnnulled && l.thePaddr != kUnresolved &&
    !l.isAbnormalAccess && !(l.isAtomic && !theSpeculativeOrder)

/-- The loads that the loop lets search again, if it comes to them. -/
def resnooped (spec : Bool) (s e : MemQueueEntry) : Bool :=
  e.isLoad && s.intersects e && e.Snoops spec

section Loads

variable {spec : Bool} {q q' : List MemQueueEntry} {l l' s : MemQueueEntry} {c : SnoopState}

theorem doLoad_of_snoops (h : l.Snoops spec) :
    doLoad spec q l c =
      (forwardFrom q (l.setLoadValue none) (c.getD (snoopQueue q l)),
        some (c.getD (snoopQueue q l))) := by
  simp only [MemQueueEntry.Snoops, Bool.and_eq_true, Bool.not_eq_true', bne_iff_ne] at h
  obtain ⟨⟨⟨⟨h₁, h₂⟩, h₃⟩, h₄⟩, h₅⟩ := h
  unfold doLoad snoopStores
  simp only [h₁, h₂, h₃, h₄, h₅, Bool.false_eq_true, if_false]

theorem doLoad_state_of_not_snoops (h : ¬ l.Snoops spec) : (doLoad spec q l c).2 = c := by
  simp only [MemQueueEntry.Snoops, Bool.and_eq_true, Bool.not_eq_true', bne_iff_ne] at h
  unfold doLoad
  split_ifs with h₁ h₂ h₃ h₄ h₅
  · rfl
  · rfl
  · rfl
  · rfl
  · rfl
  · simp_all

theorem forwardFrom_storeView (h : l.isLoad) (found : Option ℕ) :
    (forwardFrom q l found).storeView = l.storeView := by
  unfold forwardFrom
  split
  · exact forwardValue_storeView h
  · rfl

theorem forwardFrom_loadView (found : Option ℕ) :
    (forwardFrom q l found).loadView = l.loadView := by
  unfold forwardFrom
  split
  · exact forwardValue_loadView
  · rfl

theorem isLoad_setLoadValue {v : Option (BitVec 64)} :
    (l.setLoadValue v).isLoad = l.isLoad := by
  unfold setLoadValue
  split <;> rfl

/-- A load that searches again stays the same for the searches of others. -/
theorem doLoad_storeView (h : l.isLoad) : (doLoad spec q l c).1.storeView = l.storeView := by
  by_cases hs : l.Snoops spec
  · rw [doLoad_of_snoops hs]
    exact (forwardFrom_storeView (isLoad_setLoadValue.trans h) _).trans
      (setLoadValue_storeView h)
  · simp only [MemQueueEntry.Snoops, Bool.and_eq_true, Bool.not_eq_true', bne_iff_ne] at hs
    unfold doLoad
    split_ifs with h₁ h₂ h₃ h₄ h₅
    · exact setLoadValue_storeView h
    · rfl
    · rfl
    · rfl
    · rfl
    · simp_all

theorem doLoad_theSequenceNum (h : l.isLoad) :
    (doLoad spec q l c).1.theSequenceNum = l.theSequenceNum := by
  have hview : (doLoad spec q l c).1.storeView = l.storeView := doLoad_storeView h
  calc (doLoad spec q l c).1.theSequenceNum
      = (doLoad spec q l c).1.storeView.theSequenceNum := rfl
    _ = l.storeView.theSequenceNum := by rw [hview]
    _ = l.theSequenceNum := rfl

theorem doLoad_state (spec : Bool) (c : SnoopState) (h : SameStores q q')
    (hl : l.isLoad && s.intersects l) :
    (doLoad spec q' l c).2 =
      if resnooped spec s l then some (c.getD (snoopQueue q l)) else c := by
  by_cases hs : l.Snoops spec
  · rw [doLoad_of_snoops hs, h.snoopQueue_eq rfl, if_pos]
    simp only [resnooped, hl, hs, Bool.and_self]
  · rw [doLoad_state_of_not_snoops hs, if_neg]
    simp [resnooped, hs]

/-- **What a load gets does not depend on what other loads have got.** -/
theorem forwardFrom_agree (hq : q.Pairwise fun x y => x.theSequenceNum < y.theSequenceNum)
    (h : SameStores q q') (hl : l'.loadView = l.loadView) {m : MemQueueEntry} {n : ℕ}
    (hn : snoopQueue q m = some n) :
    (forwardFrom q' l' (some n)).loadValue = (forwardFrom q l (some n)).loadValue ∧
      (forwardFrom q' l' (some n)).thePartialSnoop =
        (forwardFrom q l (some n)).thePartialSnoop := by
  obtain ⟨st, hst, hstore⟩ := exists_store_of_snoopQueue hq hn
  have hview := h.entryAt_view_eq (n := n)
  rw [hst, Option.map_some, Option.map_eq_some_iff] at hview
  obtain ⟨st', hst', hview⟩ := hview
  have hstore' : st'.isStore := by
    have : st'.storeView.isStore = st.storeView.isStore := by rw [hview]
    exact this.trans hstore
  have hforward := forwarded_congr hstore' hstore hview hl
  simp only [forwardFrom, Option.bind_some, hst, hst', forwardValue_loadValue,
    forwardValue_thePartialSnoop, hforward, and_self]

end Loads

/-! ### The loop -/

/-- The stores the loop stops at. An atomic is none of them: it is taken for a load. -/
def stopsAt (s e : MemQueueEntry) : Bool :=
  !(e.isLoad && s.intersects e) && (e.isStore && !e.theAnnulled && s.intersects e)

/-- The search state after some entries. -/
def carried (spec : Bool) (q : List MemQueueEntry) (s : MemQueueEntry) :
    List MemQueueEntry → SnoopState → SnoopState
  | [], c => c
  | e :: es, c =>
    carried spec q s es
      (if resnooped spec s e then some (c.getD (snoopQueue q e)) else c)

/-- **The search that is carried on is the first one.** -/
theorem carried_none (spec : Bool) (q : List MemQueueEntry) (s : MemQueueEntry)
    (es : List MemQueueEntry) :
    carried spec q s es none = (es.find? (resnooped spec s)).map (snoopQueue q) := by
  have hsome : ∀ (es : List MemQueueEntry) (f : Option ℕ),
      carried spec q s es (some f) = some f := by
    intro es f
    induction es with
    | nil => rfl
    | cons e es ih =>
      simp only [carried, Option.getD_some, ite_self]
      exact ih
  induction es with
  | nil => rfl
  | cons e es ih =>
    by_cases he : resnooped spec s e = true
    · simp only [carried, he, if_true, Option.getD_none, hsome, find?_cons_of_pos, Option.map_some]
    · rw [find?_cons_of_neg he, ← ih, carried, if_neg he]

section Loop

variable {spec : Bool} {q : List MemQueueEntry} {s : MemQueueEntry}

/-- One load searches again: the stores stay the same, and so do the other entries. -/
theorem resnoop_step (hq : q.Pairwise fun x y => x.theSequenceNum < y.theSequenceNum)
    {q' : List MemQueueEntry} {e : MemQueueEntry} (c : SnoopState) (hsame : SameStores q q')
    (he : entryAt q' e.theSequenceNum = some e) (hload : e.isLoad) :
    SameStores q (writeEntry q' (doLoad spec q' e c).1) ∧
      (∀ n ≠ e.theSequenceNum,
        entryAt (writeEntry q' (doLoad spec q' e c).1) n = entryAt q' n) ∧
      entryAt (writeEntry q' (doLoad spec q' e c).1) e.theSequenceNum =
        some (doLoad spec q' e c).1 := by
  have hseq : (doLoad spec q' e c).1.theSequenceNum = e.theSequenceNum :=
    doLoad_theSequenceNum hload
  refine ⟨?_, ?_, ?_⟩
  · refine hsame.writeEntry fun x hx hxe => ?_
    have hx' := entryAt_of_mem (hsame.sorted hq) hx
    rw [hxe, hseq, he] at hx'
    injection hx' with hx'
    rw [← hx']
    exact (doLoad_storeView hload).symm
  · intro n hn
    rw [entryAt_writeEntry, if_neg (by rw [hseq]; exact hn)]
  · rw [entryAt_writeEntry, if_pos hseq.symm, he]
    rfl

/-- What the loop has to leave behind in an entry `l`, with the entries `pre` before it: the
entry itself, if the loop stops before or the store does not concern it; and else what it gets
from the search that is carried on, in a queue with the same stores. -/
def LoopLeaves (spec : Bool) (q : List MemQueueEntry) (s : MemQueueEntry) (c : SnoopState)
    (result pre : List MemQueueEntry) (l : MemQueueEntry) : Prop :=
  ((∃ e ∈ pre, stopsAt s e) ∨ ¬ (l.isLoad && s.intersects l) →
    entryAt result l.theSequenceNum = some l) ∧
  ((∀ e ∈ pre, ¬ stopsAt s e) → (l.isLoad && s.intersects l) →
    ∃ q', SameStores q q' ∧ entryAt result l.theSequenceNum =
      some (doLoad spec q' l (carried spec q s pre c)).1)

/-- An entry that the loop passes by leaves the rest to the rest of the loop. -/
theorem LoopLeaves.cons {c : SnoopState} {result pre : List MemQueueEntry}
    {e l : MemQueueEntry} (hstop : ¬ stopsAt s e)
    (h : LoopLeaves spec q s
      (if resnooped spec s e then some (c.getD (snoopQueue q e)) else c) result pre l) :
    LoopLeaves spec q s c result (e :: pre) l := by
  obtain ⟨hkeep, hsearch⟩ := h
  refine ⟨?_, ?_⟩
  · rintro (⟨x, hx, hxs⟩ | hno)
    · rcases mem_cons.1 hx with rfl | hx
      · exact absurd hxs hstop
      · exact hkeep (.inl ⟨x, hx, hxs⟩)
    · exact hkeep (.inr hno)
  · intro hpre hl
    exact hsearch (fun x hx => hpre x (mem_cons_of_mem _ hx)) hl

/-- **What the loop does**: it keeps the stores, it changes no other entry, and it leaves in
every entry what it has to. -/
theorem updateLoop_spec (spec : Bool) (s : MemQueueEntry)
    (hq : q.Pairwise fun x y => x.theSequenceNum < y.theSequenceNum) :
    ∀ (es q' : List MemQueueEntry) (c : SnoopState), SameStores q q' →
      (es.map MemQueueEntry.theSequenceNum).Nodup →
      (∀ e ∈ es, entryAt q' e.theSequenceNum = some e) →
      SameStores q (updateLoop spec s es q' c) ∧
      (∀ n ∉ es.map MemQueueEntry.theSequenceNum,
        entryAt (updateLoop spec s es q' c) n = entryAt q' n) ∧
      ∀ pre l post, es = pre ++ l :: post →
        LoopLeaves spec q s c (updateLoop spec s es q' c) pre l := by
  intro es
  induction es with
  | nil =>
    intro q' c hsame _ _
    refine ⟨hsame, fun n _ => rfl, ?_⟩
    intro pre l post h
    cases pre <;> cases h
  | cons e es ih =>
    intro q' c hsame hnodup hin
    rw [map_cons, nodup_cons] at hnodup
    obtain ⟨hne, hnodup⟩ := hnodup
    have hine : entryAt q' e.theSequenceNum = some e := hin e mem_cons_self
    have hines : ∀ x ∈ es, entryAt q' x.theSequenceNum = some x :=
      fun x hx => hin x (mem_cons_of_mem e hx)
    rw [updateLoop]
    by_cases hload : (e.isLoad && s.intersects e) = true
    · -- a load searches again
      rw [if_pos hload]
      obtain ⟨hsame₁, hat, hate⟩ := resnoop_step hq c hsame hine (Bool.and_eq_true _ _ ▸ hload).1
      have hines₁ : ∀ x ∈ es,
          entryAt (writeEntry q' (doLoad spec q' e c).1) x.theSequenceNum = some x := by
        intro x hx
        rw [hat, hines x hx]
        intro hxe
        exact hne (hxe ▸ mem_map_of_mem hx)
      obtain ⟨ih₁, ih₂, ih₃⟩ := ih _ (doLoad spec q' e c).2 hsame₁ hnodup hines₁
      refine ⟨ih₁, ?_, ?_⟩
      · intro n hn
        rw [map_cons, mem_cons, not_or] at hn
        rw [ih₂ n hn.2, hat n hn.1]
      · intro pre l post hsplit
        cases pre with
        | nil =>
          injection hsplit with hel _
          subst hel
          refine ⟨?_, fun _ _ => ⟨q', hsame, (ih₂ _ hne).trans hate⟩⟩
          rintro (⟨x, hx, -⟩ | hno)
          · cases hx
          · exact absurd hload hno
        | cons x pre =>
          injection hsplit with hel hsplit
          subst hel
          refine LoopLeaves.cons (by simp [stopsAt, hload]) ?_
          rw [← doLoad_state spec c hsame hload]
          exact ih₃ pre l post hsplit
    · rw [if_neg hload]
      by_cases hstore : (e.isStore && !e.theAnnulled && s.intersects e) = true
      · -- the loop stops
        rw [if_pos hstore]
        have hstop : stopsAt s e = true := by
          simp only [stopsAt, hload, hstore]
          rfl
        refine ⟨hsame, fun n _ => rfl, ?_⟩
        intro pre l post hsplit
        have hl : l ∈ e :: es := by
          rw [hsplit]
          simp
        refine ⟨fun _ => hin l hl, ?_⟩
        intro hpre hlload
        cases pre with
        | nil =>
          injection hsplit with hel _
          subst hel
          exact absurd hlload hload
        | cons x pre =>
          injection hsplit with hel _
          subst hel
          exact absurd hstop (hpre e mem_cons_self)
      · -- an entry that the store does not concern
        rw [if_neg hstore]
        obtain ⟨ih₁, ih₂, ih₃⟩ := ih q' c hsame hnodup hines
        refine ⟨ih₁, ?_, ?_⟩
        · intro n hn
          rw [map_cons, mem_cons, not_or] at hn
          exact ih₂ n hn.2
        · intro pre l post hsplit
          cases pre with
          | nil =>
            injection hsplit with hel _
            subst hel
            exact ⟨fun _ => (ih₂ _ hne).trans hine, fun _ hl => absurd hl hload⟩
          | cons x pre =>
            injection hsplit with hel hsplit
            subst hel
            refine LoopLeaves.cons (by simp [stopsAt, hstore]) ?_
            rw [if_neg (by simp [resnooped, hload])]
            exact ih₃ pre l post hsplit

end Loop

/-! ### A search that does not come to a store -/

/-- The search of a load comes to a store: they overlap, and no younger store before the load is
found first. -/
def SearchReaches (q : List MemQueueEntry) (s l : MemQueueEntry) : Prop :=
  s.intersects l ∧ ∀ e ∈ olderEntries q l, s.theSequenceNum < e.theSequenceNum →
    ¬ matchesLoad l e

section Unreached

variable {q : List MemQueueEntry} {s s' l : MemQueueEntry}

/-- The search of a load, with one of the older entries set apart. -/
theorem olderEntries_split (hq : q.Pairwise fun x y => x.theSequenceNum < y.theSequenceNum)
    (hs : s ∈ olderEntries q l) :
    ∃ pre post, olderEntries q l = pre ++ s :: post ∧
      (∀ x ∈ pre, x.theSequenceNum < s.theSequenceNum) ∧
      ∀ x ∈ post, s.theSequenceNum < x.theSequenceNum := by
  obtain ⟨pre, post, hsplit⟩ := append_of_mem hs
  have hsorted : (olderEntries q l).Pairwise fun x y => x.theSequenceNum < y.theSequenceNum :=
    hq.sublist filter_sublist
  rw [hsplit, pairwise_append, pairwise_cons] at hsorted
  exact ⟨pre, post, hsplit, fun x hx => hsorted.2.2 x hx s mem_cons_self, hsorted.2.1.1⟩

/-- A store that changes keeps its place among the older entries. -/
theorem olderEntries_writeEntry {pre post : List MemQueueEntry}
    (hseq : s'.theSequenceNum = s.theSequenceNum)
    (haligned : s'.thePaddrAligned = s.thePaddrAligned)
    (hunique : ∀ x ∈ q, x.theSequenceNum = s.theSequenceNum → x = s)
    (hsplit : olderEntries q l = pre ++ s :: post)
    (hpre : ∀ x ∈ pre, x.theSequenceNum < s.theSequenceNum)
    (hpost : ∀ x ∈ post, s.theSequenceNum < x.theSequenceNum) :
    olderEntries (writeEntry q s') l = pre ++ s' :: post := by
  have hfilter : olderEntries (writeEntry q s') l =
      (olderEntries q l).map fun x =>
        if x.theSequenceNum = s'.theSequenceNum then s' else x := by
    unfold olderEntries writeEntry
    rw [filter_map]
    congr 1
    refine filter_congr fun x hx => ?_
    simp only [Function.comp_apply]
    split
    · rename_i hx'
      rw [hunique x hx (hx'.trans hseq), hseq, haligned]
    · rfl
  have hid : ∀ xs : List MemQueueEntry, (∀ x ∈ xs, x.theSequenceNum ≠ s.theSequenceNum) →
      xs.map (fun x => if x.theSequenceNum = s'.theSequenceNum then s' else x) = xs := by
    intro xs hxs
    refine (map_congr_left fun x hx => ?_).trans (map_id xs)
    rw [if_neg (by rw [hseq]; exact hxs x hx)]
    rfl
  rw [hfilter, hsplit, map_append, map_cons, if_pos hseq.symm,
    hid pre fun x hx => Nat.ne_of_lt (hpre x hx),
    hid post fun x hx => Nat.ne_of_gt (hpost x hx)]

theorem find?_of_not_reaches {pre post : List MemQueueEntry}
    (hmask : s'.makeMask = s.makeMask)
    (h : s.intersects l → ∃ m ∈ post, matchesLoad l m) :
    (pre ++ s' :: post).reverse.find? (matchesLoad l) =
      (post.reverse ++ pre.reverse).find? (matchesLoad l) := by
  rw [reverse_append, reverse_cons, append_assoc, singleton_append, find?_append, find?_append]
  by_cases hs : s.intersects l = true
  · -- an entry after the store is found
    obtain ⟨m, hm, hmatch⟩ := h hs
    have hsome : (post.reverse.find? (matchesLoad l)).isSome :=
      find?_isSome.2 ⟨m, mem_reverse.2 hm, hmatch⟩
    obtain ⟨st, hst⟩ := Option.isSome_iff_exists.1 hsome
    rw [hst, Option.some_or, Option.some_or]
  · have hno : ¬ matchesLoad l s' = true := by
      have hinter : s'.intersects l = s.intersects l := by
        unfold intersects
        rw [hmask]
      simp [matchesLoad, hinter, hs]
    rw [find?_cons_of_neg hno]

/-- **A load whose search does not come to a store has nothing to learn from a change of it.** -/
theorem snoopStores_writeEntry (hq : q.Pairwise fun x y => x.theSequenceNum < y.theSequenceNum)
    (hs : s ∈ olderEntries q l) (h : ¬ SearchReaches q s l)
    (hseq : s'.theSequenceNum = s.theSequenceNum) (hpaddr : s'.thePaddr = s.thePaddr)
    (hsize : s'.theSize = s.theSize) :
    (snoopStores (writeEntry q s') l none).1 = (snoopStores q l none).1 := by
  have haligned : s'.thePaddrAligned = s.thePaddrAligned := by
    unfold thePaddrAligned
    rw [hpaddr]
  have hmask : s'.makeMask = s.makeMask := by
    unfold MemQueueEntry.makeMask MemQueueEntry.offset
    rw [hsize, hpaddr, haligned]
  have hsq : s ∈ q := (mem_filter.1 hs).1
  have hunique : ∀ x ∈ q, x.theSequenceNum = s.theSequenceNum → x = s := by
    intro x hx hxs
    have hx' := entryAt_of_mem hq hx
    rw [hxs, entryAt_of_mem hq hsq] at hx'
    injection hx' with hx'
    exact hx'.symm
  obtain ⟨pre, post, hsplit, hpre, hpost⟩ := olderEntries_split hq hs
  have hfirst : s.intersects l → ∃ m ∈ post, matchesLoad l m := by
    intro hinter
    by_contra hno
    refine h ⟨hinter, fun e he hlt hmatch => hno ⟨e, ?_, hmatch⟩⟩
    rw [hsplit, mem_append, mem_cons] at he
    rcases he with he | rfl | he
    · exact absurd (hpre e he) (by omega)
    · omega
    · exact he
  have hfind : ((olderEntries q l).reverse.find? (matchesLoad l)) =
      (post.reverse ++ pre.reverse).find? (matchesLoad l) := by
    rw [hsplit]
    exact find?_of_not_reaches rfl hfirst
  have hfind' : ((olderEntries (writeEntry q s') l).reverse.find? (matchesLoad l)) =
      (post.reverse ++ pre.reverse).find? (matchesLoad l) := by
    rw [olderEntries_writeEntry hseq haligned hunique hsplit hpre hpost]
    exact find?_of_not_reaches hmask hfirst
  have hforward : ∀ n, snoopQueue q l = some n →
      entryAt (writeEntry q s') n = entryAt q n := by
    intro n hn
    rw [entryAt_writeEntry, if_neg]
    intro hns
    unfold snoopQueue at hn
    rw [hfind, Option.map_eq_some_iff] at hn
    obtain ⟨st, hst, rfl⟩ := hn
    have hmem := mem_of_find?_eq_some hst
    rw [mem_append, mem_reverse, mem_reverse] at hmem
    rcases hmem with hmem | hmem
    · have := hpost st hmem
      omega
    · have := hpre st hmem
      omega
  have hsnoop : snoopQueue (writeEntry q s') l = snoopQueue q l := by
    unfold snoopQueue
    rw [hfind', hfind]
  unfold snoopStores
  split
  · rfl
  · dsimp only [Option.getD_none]
    rw [hsnoop]
    unfold forwardFrom
    cases hn : snoopQueue q l with
    | none => rfl
    | some n => rw [Option.bind_some, Option.bind_some, hforward n hn]

end Unreached

/-! ### The loads that are reached -/

/-- The loop comes to a load and lets it search again: the load overlaps the store that has
changed, and no store in between does. -/
def Reached (q : List MemQueueEntry) (s l : MemQueueEntry) : Prop :=
  s.intersects l ∧ ∀ e ∈ youngerEntries q s, e.theSequenceNum < l.theSequenceNum →
    ¬ stopsAt s e

/-- The first load that searches again, if there is one before a load. -/
def firstResnooped (spec : Bool) (q : List MemQueueEntry) (s l : MemQueueEntry) :
    Option MemQueueEntry :=
  ((youngerEntries q s).filter fun e => e.theSequenceNum < l.theSequenceNum).find?
    (resnooped spec s)

section Update

variable {spec : Bool} {q q' : List MemQueueEntry} {s l l' : MemQueueEntry}

theorem youngerEntries_split (hq : q.Pairwise fun x y => x.theSequenceNum < y.theSequenceNum)
    (hl : l ∈ youngerEntries q s) :
    ∃ post, youngerEntries q s =
      ((youngerEntries q s).filter fun e => e.theSequenceNum < l.theSequenceNum) ++
        l :: post := by
  obtain ⟨pre, post, hsplit⟩ := append_of_mem hl
  have hsorted : (youngerEntries q s).Pairwise fun x y => x.theSequenceNum < y.theSequenceNum :=
    hq.sublist filter_sublist
  rw [hsplit, pairwise_append, pairwise_cons] at hsorted
  refine ⟨post, ?_⟩
  have hpre : pre.filter (fun e => e.theSequenceNum < l.theSequenceNum) = pre := by
    rw [filter_eq_self]
    intro x hx
    exact decide_eq_true (hsorted.2.2 x hx l mem_cons_self)
  have hpost : post.filter (fun e => e.theSequenceNum < l.theSequenceNum) = [] := by
    rw [filter_eq_nil_iff]
    intro x hx
    have := hsorted.2.1.1 x hx
    simp only [decide_eq_true_eq]
    omega
  rw [hsplit, filter_append, filter_cons_of_neg (by simp), hpre, hpost, append_nil]

theorem clear_loadView : l.clear.loadView = l.loadView :=
  setLoadValue_loadView

theorem clear_thePartialSnoop : l.clear.thePartialSnoop = false :=
  setLoadValue_thePartialSnoop

theorem olderEntries_clear : olderEntries q l.clear = olderEntries q l := by
  unfold MemQueueEntry.clear MemQueueEntry.setLoadValue
  split <;> rfl

theorem Snoops.resolved (h : l.Snoops spec) : l.thePaddr ≠ kUnresolved := by
  simp only [MemQueueEntry.Snoops, Bool.and_eq_true, bne_iff_ne] at h
  exact h.1.1.2

/-- **A load that searches with the right state gets what a fresh snoop gives.** -/
theorem doLoad_agrees (hq : q.Pairwise fun x y => x.theSequenceNum < y.theSequenceNum)
    {q'' : List MemQueueEntry} {c : SnoopState} (hsame : SameStores q q')
    (hsame' : SameStores q q'') (hsnoops : l.Snoops spec)
    (hc : c.getD (snoopQueue q l) = snoopQueue q l) (hl' : l' = (doLoad spec q' l c).1) :
    l'.loadValue = (freshSnoop q'' l').loadValue ∧
      ((snoopQueue q l).isSome ∨ l.thePartialSnoop = false →
        l'.thePartialSnoop = (freshSnoop q'' l').thePartialSnoop) := by
  rw [doLoad_of_snoops hsnoops, hsame.snoopQueue_eq rfl, hc] at hl'
  dsimp only at hl'
  have hview : l'.loadView = l.loadView := by
    rw [hl', forwardFrom_loadView, setLoadValue_loadView]
  have hclear : (l'.clear.setLoadValue none).loadView = (l.setLoadValue none).loadView := by
    rw [setLoadValue_loadView, setLoadValue_loadView, clear_loadView, hview]
  have hpaddr : l'.clear.thePaddr ≠ kUnresolved := by
    have h₁ : l'.clear.loadView.thePaddr = l.loadView.thePaddr := by
      rw [clear_loadView, hview]
    exact fun h => Snoops.resolved hsnoops (h₁.symm.trans h)
  have hfresh : freshSnoop q'' l' =
      forwardFrom q'' (l'.clear.setLoadValue none) (snoopQueue q l) := by
    have hsearch : snoopQueue q'' l'.clear = snoopQueue q l :=
      hsame'.snoopQueue_eq (clear_loadView.trans hview)
    unfold freshSnoop snoopStores
    rw [if_neg hpaddr]
    dsimp only [Option.getD_none]
    rw [hsearch]
  have hvalue := congrArg MemQueueEntry.loadValue hl'
  have hflag := congrArg MemQueueEntry.thePartialSnoop hl'
  rw [hfresh]
  cases hn : snoopQueue q l with
  | none =>
    have hnone : ∀ (p : List MemQueueEntry) (m : MemQueueEntry), forwardFrom p m none = m :=
      fun _ _ => rfl
    rw [hn, hnone, setLoadValue_loadValue] at hvalue
    rw [hn, hnone, setLoadValue_thePartialSnoop] at hflag
    rw [hnone, setLoadValue_loadValue, setLoadValue_thePartialSnoop]
    refine ⟨hvalue, ?_⟩
    rintro (h | h)
    · cases h
    · rw [hflag, h]
      exact clear_thePartialSnoop.symm
  | some n =>
    have hin := forwardFrom_agree hq hsame (rfl : (l.setLoadValue none).loadView = _) hn
    have hout := forwardFrom_agree hq hsame' hclear hn
    rw [hn, hin.1] at hvalue
    rw [hn, hin.2] at hflag
    exact ⟨hvalue.trans hout.1.symm, fun _ => hflag.trans hout.2.symm⟩

theorem updateDependantLoads_leaves (spec : Bool)
    (hq : q.Pairwise fun x y => x.theSequenceNum < y.theSequenceNum)
    (haddr : s.thePaddr ≠ kUnresolved ∧ s.thePaddr ≠ kInvalid)
    (hl : l ∈ youngerEntries q s) :
    SameStores q (updateDependantLoads spec q s) ∧
      LoopLeaves spec q s none (updateDependantLoads spec q s)
        ((youngerEntries q s).filter fun e => e.theSequenceNum < l.theSequenceNum) l := by
  have hsorted : (youngerEntries q s).Pairwise fun x y => x.theSequenceNum < y.theSequenceNum :=
    hq.sublist filter_sublist
  have hnodup : ((youngerEntries q s).map MemQueueEntry.theSequenceNum).Nodup := by
    rw [nodup_iff_pairwise_ne, pairwise_map]
    exact hsorted.imp fun h => Nat.ne_of_lt h
  obtain ⟨post, hsplit⟩ := youngerEntries_split hq hl
  have hspec := updateLoop_spec spec s hq (youngerEntries q s) q none rfl hnodup
    fun e he => entryAt_of_mem hq (mem_filter.1 he).1
  unfold updateDependantLoads
  rw [if_neg (by simp [haddr])]
  exact ⟨hspec.1, hspec.2.2 _ l post hsplit⟩

theorem searchReaches_clear : SearchReaches q s l.clear ↔ SearchReaches q s l := by
  unfold MemQueueEntry.clear MemQueueEntry.setLoadValue
  split <;> exact Iff.rfl

end Update

/-- **The update against a fresh snoop**, for a younger load of the double-word that searches
the queue. If the loop comes to the load, it has the value that a fresh snoop gives, and the
flag if this finds a store or there was no flag before – as long as the search that is carried
on has found the store of its own search. If the loop does not come to the load, it stays as it
is; and unless its own search comes to the store that has changed, a fresh snoop gives the same
whatever the value of the store is and whether it is annulled. -/
theorem updateDependantLoads_agrees (theSpeculativeOrder : Bool) (q : MemQueue)
    (s l : MemQueueEntry) (hs : s ∈ q.entries)
    (haddr : s.thePaddr ≠ kUnresolved ∧ s.thePaddr ≠ kInvalid)
    (hl : l ∈ youngerEntries q.entries s) (hload : l.isLoad)
    (hsnoops : l.Snoops theSpeculativeOrder) :
    ∃ l', entryAt (updateDependantLoads theSpeculativeOrder q.entries s) l.theSequenceNum =
        some l' ∧
      (Reached q.entries s l →
        (∀ e ∈ firstResnooped theSpeculativeOrder q.entries s l,
          snoopQueue q.entries e = snoopQueue q.entries l) →
        l'.loadValue = (freshSnoop (updateDependantLoads theSpeculativeOrder q.entries s)
            l').loadValue ∧
          ((snoopQueue q.entries l).isSome ∨ l.thePartialSnoop = false →
            l'.thePartialSnoop = (freshSnoop (updateDependantLoads theSpeculativeOrder
              q.entries s) l').thePartialSnoop)) ∧
      (¬ Reached q.entries s l → l' = l ∧
        (¬ SearchReaches q.entries s l → ∀ (annulled : Bool) (v : Option (BitVec 64)),
          freshSnoop (writeEntry q.entries { s with theAnnulled := annulled, theValue := v }) l =
            freshSnoop q.entries l)) := by
  obtain ⟨hsame, hkeep, hsearch⟩ := updateDependantLoads_leaves theSpeculativeOrder
    q.sorted haddr hl
  by_cases hreached : Reached q.entries s l
  · have hpre : ∀ e ∈ (youngerEntries q.entries s).filter fun e =>
        e.theSequenceNum < l.theSequenceNum, ¬ stopsAt s e := by
      intro e he
      rw [mem_filter, decide_eq_true_eq] at he
      exact hreached.2 e he.1 he.2
    obtain ⟨q', hsame', hat⟩ := hsearch hpre (by rw [hload, hreached.1]; rfl)
    refine ⟨_, hat, fun _ hfirst => ?_, fun h => absurd hreached h⟩
    refine doLoad_agrees q.sorted hsame' hsame hsnoops ?_ rfl
    rw [carried_none]
    cases hfind : firstResnooped theSpeculativeOrder q.entries s l with
    | none =>
      unfold firstResnooped at hfind
      rw [hfind]
      rfl
    | some e =>
      have he := hfirst e hfind
      unfold firstResnooped at hfind
      rw [hfind]
      exact he
  · refine ⟨l, hkeep ?_, fun h => absurd h hreached, fun _ => ⟨rfl, ?_⟩⟩
    · by_contra hno
      rw [not_or, not_not, Bool.and_eq_true] at hno
      refine hreached ⟨hno.2.2, fun e he hlt hstop => hno.1 ⟨e, ?_, hstop⟩⟩
      rw [mem_filter]
      exact ⟨he, decide_eq_true hlt⟩
    · intro hsearch annulled v
      have hold : s ∈ olderEntries q.entries l.clear := by
        have hl' := (mem_filter.1 hl).2
        rw [Bool.and_eq_true, beq_iff_eq] at hl'
        rw [olderEntries_clear]
        refine mem_filter.2 ⟨hs, ?_⟩
        rw [Bool.and_eq_true, beq_iff_eq]
        exact ⟨hl'.1.symm, hl'.2⟩
      exact snoopStores_writeEntry q.sorted hold (fun h => hsearch (searchReaches_clear.1 h))
        rfl rfl rfl

/-! ### Two queues -/

/-- A store of a double-word. -/
def wholeStore : MemQueueEntry where
  theSequenceNum := 1
  thePaddr := 0x100
  theOperation := .kStore
  theSize := .doubleWord
  theValue := some 0x1122334455667788

/-- A load of the second half of it. -/
def halfLoad : MemQueueEntry where
  theSequenceNum := 2
  thePaddr := 0x104
  theOperation := .kLoad
  theSize := .word

/-- A later load of the same bytes. -/
def laterLoad : MemQueueEntry := { halfLoad with theSequenceNum := 3 }

def halfQueue : MemQueue where
  entries := [wholeStore, halfLoad, laterLoad]
  sorted := by decide

/-- The later load gets its half of the value from the search of the first one. -/
theorem halfQueue_agrees :
    ∃ l', entryAt (updateDependantLoads true halfQueue.entries wholeStore) 3 = some l' ∧
      l'.loadValue = some 0x55667788 ∧
      l'.loadValue =
        (freshSnoop (updateDependantLoads true halfQueue.entries wholeStore) l').loadValue := by
  obtain ⟨l', hat, hreached, -⟩ := updateDependantLoads_agrees true halfQueue wholeStore laterLoad
    (by decide) (by decide) (by decide) (by decide) (by decide)
  have hvalue : (entryAt (updateDependantLoads true halfQueue.entries wholeStore)
      laterLoad.theSequenceNum).map MemQueueEntry.loadValue = some (some 0x55667788) := by
    decide
  rw [hat] at hvalue
  injection hvalue with hvalue
  have hfirst : firstResnooped true halfQueue.entries wholeStore laterLoad = some halfLoad := by
    decide
  refine ⟨l', hat, hvalue, (hreached ⟨by decide, by decide⟩ ?_).1⟩
  rw [hfirst]
  intro e he
  obtain rfl := Option.mem_some.mp he
  decide

/-- A store of a byte. -/
def byteStore : MemQueueEntry where
  theSequenceNum := 1
  thePaddr := 0x100
  theOperation := .kStore
  theSize := .byte
  theValue := some 1

/-- A load of another byte, which has its value from memory. -/
def otherByteLoad : MemQueueEntry where
  theSequenceNum := 2
  thePaddr := 0x104
  theOperation := .kLoad
  theSize := .byte
  theValue := some 7

def otherByteQueue : MemQueue where
  entries := [byteStore, otherByteLoad]
  sorted := by decide

/-- **A load that the store does not concern keeps its value from memory**, where a fresh snoop
leaves it without one. -/
theorem otherByteQueue_not_agrees :
    byteStore ∈ otherByteQueue.entries ∧ byteStore.isStore ∧
      otherByteLoad ∈ youngerEntries otherByteQueue.entries byteStore ∧ otherByteLoad.isLoad ∧
      otherByteLoad.isAbnormalAccess = false ∧
      ¬ ∃ l', entryAt (updateDependantLoads true otherByteQueue.entries byteStore) 2 = some l' ∧
        l'.loadValue = (freshSnoop (updateDependantLoads true otherByteQueue.entries byteStore)
          l').loadValue ∧
        l'.thePartialSnoop = (freshSnoop (updateDependantLoads true otherByteQueue.entries
          byteStore) l').thePartialSnoop := by
  refine ⟨by decide, by decide, by decide, by decide, by decide, ?_⟩
  rintro ⟨l', hat, hvalue, -⟩
  have hkeep : entryAt (updateDependantLoads true otherByteQueue.entries byteStore) 2 =
      some otherByteLoad := by decide
  have hfresh : (freshSnoop (updateDependantLoads true otherByteQueue.entries byteStore)
      otherByteLoad).loadValue = none := by decide
  rw [hkeep] at hat
  injection hat with hat
  subst hat
  rw [hfresh] at hvalue
  cases hvalue

end UArch

end Flexus
