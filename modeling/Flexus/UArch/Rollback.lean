import Flexus.UArch.StoreAborts

/-!
# Rolling the speculative store buffer back

When a speculation fails, `doAbortSpeculation` takes the stores after the checkpoint out of the
SSB. It calls `clearSSB` with the number of the instruction of the checkpoint
(`components/uArch/CoreModel/memunit.cpp`). One loop of it finds the first entry to go, counts the
entries of both kinds that go with it, releases their write permissions, and counts those that are
left; the range from that entry on is erased then.

The loop is embedded as it is written, and is compared with what it is to do: the entries with the
number or a later one go, and nothing else does. It does so only if there is one such entry, or the
SSB is empty (`Flexus.UArch.SbCore.rollsBack_iff`):

* an entry that goes counts as one that is left, unless it is the first;
* the erased range starts with the SSB if no entry goes.
-/

namespace Flexus

namespace UArch

open Lib List

namespace SbCore

/-! ### The loop -/

/-- The assertions that `clearSSB` may fail. -/
inductive RollbackFault
  /-- `DBG_Assert( (static_cast<int64_t> (aLowestInsnSeq)) >= 0)`. -/
  | negativeSeq
  | core (f : SbFault)
  deriving DecidableEq

/-- The local variables of `clearSSB`; `lb` is kept as a distance from the first entry. -/
structure SSBScan where
  lb : ℕ := 0
  first_found : Bool := false
  sb_count : ℕ := 0
  sbnaw_count : ℕ := 0
  remaining_ssb_count : ℕ := 0
  deriving DecidableEq

namespace SSBScan

variable (c : SSBScan)

/-- The first part of a turn: the entry is the first to go, or it is counted as one that is
left. -/
def look (aLowestInsnSeq pos seq : ℕ) : SSBScan :=
  if !c.first_found && decide (aLowestInsnSeq ≤ seq) then { c with lb := pos, first_found := true }
  else { c with remaining_ssb_count := c.remaining_ssb_count + 1 }

/-- An entry that goes is counted. -/
def count (bypassSB : Bool) : SSBScan :=
  if bypassSB then { c with sbnaw_count := c.sbnaw_count + 1 }
  else { c with sb_count := c.sb_count + 1 }

end SSBScan

/-- A fault of the core, among those of `clearSSB`. -/
def asRollback {α : Type} : Except SbFault α → Except RollbackFault α
  | .ok a => .ok a
  | .error f => .error (.core f)

variable (theCoherenceUnit : BitVec 64)

/-- **The loop of `clearSSB`**, over the entries of the SSB from some position on. -/
def scanSSB (aLowestInsnSeq : ℕ) : ℕ → SSBScan → SbCore → List LsqEntry →
    Except RollbackFault (SSBScan × SbCore)
  | _, c, s, [] => .ok (c, s)
  | pos, c, s, e :: es =>
    -- the number is passed without a sign, and compared with one
    if 2 ^ 63 ≤ aLowestInsnSeq then .error .negativeSeq
    else
      let c := c.look aLowestInsnSeq pos e.seq
      if c.first_found then
        match s.release theCoherenceUnit e with
        | .error f => .error (.core f)
        | .ok s => scanSSB aLowestInsnSeq (pos + 1) (c.count e.theBypassSB) s es
      else scanSSB aLowestInsnSeq (pos + 1) c s es

/-- An entry of the SSB. -/
def inSSB (e : LsqEntry) : Bool := e.theQueue == .kSSB

/-- The queue without the entries of the SSB from some position on. -/
def eraseFrom : ℕ → List LsqEntry → List LsqEntry
  | _, [] => []
  | 0, e :: es => if inSSB e then eraseFrom 0 es else e :: eraseFrom 0 es
  | k + 1, e :: es => if inSSB e then e :: eraseFrom k es else e :: eraseFrom (k + 1) es

/-- The core without the entries that the loop has found, and without what they counted for. -/
def withoutFound (s : SbCore) (c : SSBScan) : SbCore :=
  { s with
    theMemQueue := eraseFrom c.lb s.theMemQueue
    theSBCount := s.theSBCount - c.sb_count
    theSBNAWCount := s.theSBNAWCount - c.sbnaw_count }

/-- The part of `clearSSB` after the loop. -/
def eraseFound (s : SbCore) (c : SSBScan) : Except SbFault SbCore := do
  let s ← (s.withoutFound c).checkCounts
  s.checkSize

/-- **`clearSSB`**, from the number of an instruction on, with the number it returns. -/
def rollSSB (s : SbCore) (aLowestInsnSeq : ℕ) : Except RollbackFault (SbCore × ℕ) :=
  match scanSSB theCoherenceUnit aLowestInsnSeq 0 {} s (s.theMemQueue.filter inSSB) with
  | .error f => .error f
  | .ok (c, s) => asRollback ((s.eraseFound c).map fun s => (s, c.remaining_ssb_count))

/-! ### What the loop does -/

/-- An entry that is to go. -/
def rolled (n : ℕ) (e : LsqEntry) : Bool := inSSB e && decide (n ≤ e.seq)

variable {u : BitVec 64} {s t : SbCore} {n pos k : ℕ} {e : LsqEntry}
  {es kept : List LsqEntry}

/-- Entries before the first that goes are counted, and no more. -/
theorem scanSSB_kept {m : ℕ} (hn : n < 2 ^ 63) (hk : ∀ e ∈ kept, e.seq < n) :
    scanSSB u n pos { remaining_ssb_count := m } s (kept ++ es) =
      scanSSB u n (pos + kept.length) { remaining_ssb_count := m + kept.length } s es := by
  induction kept generalizing pos m with
  | nil => rfl
  | cons e kept ih =>
    have he : ¬ n ≤ e.seq := Nat.not_le.mpr (hk e mem_cons_self)
    have hlook : SSBScan.look { remaining_ssb_count := m } n pos e.seq =
        { remaining_ssb_count := m + 1 } := by
      simp [SSBScan.look, he]
    rw [cons_append, scanSSB, if_neg (Nat.not_le.mpr hn), hlook]
    simp only [Bool.false_eq_true, if_false]
    rw [ih fun e he => hk e (mem_cons_of_mem _ he), length_cons]
    simp only [Nat.add_assoc, Nat.add_comm 1]

/-- **Entries after the first that goes** are released and counted, and are counted as left. -/
theorem scanSSB_found {lb sb naw m : ℕ} (hn : n < 2 ^ 63) :
    scanSSB u n pos ⟨lb, true, sb, naw, m⟩ s es = asRollback ((releaseAll u s es).map fun t =>
      (⟨lb, true, sb + es.countP fun e => !e.theBypassSB, naw + es.countP fun e => e.theBypassSB,
        m + es.length⟩, t)) := by
  induction es generalizing pos sb naw m s with
  | nil => rfl
  | cons e es ih =>
    rw [scanSSB, if_neg (Nat.not_le.mpr hn), releaseAll]
    cases s.release u e with
    | error f => rfl
    | ok s =>
      cases hb : e.theBypassSB with
      | true =>
        refine (@ih s _ sb (naw + 1) (m + 1)).trans ?_
        simp [hb, bind, Except.bind, Nat.add_assoc, Nat.add_comm 1]
      | false =>
        refine (@ih s _ (sb + 1) naw (m + 1)).trans ?_
        simp [hb, bind, Except.bind, Nat.add_assoc, Nat.add_comm 1]

/-- **The whole loop**, over entries in the order of their instructions. -/
theorem scanSSB_spec (hn : n < 2 ^ 63) (hk : ∀ e ∈ kept, e.seq < n) (he : n ≤ e.seq) :
    scanSSB u n 0 {} s (kept ++ e :: es) =
      asRollback ((releaseAll u s (e :: es)).map fun t =>
        (⟨kept.length, true, (e :: es).countP fun e => !e.theBypassSB,
          (e :: es).countP fun e => e.theBypassSB, kept.length + es.length⟩, t)) := by
  refine (scanSSB_kept (m := 0) hn hk).trans ?_
  rw [scanSSB, if_neg (Nat.not_le.mpr hn), releaseAll]
  simp only [SSBScan.look, he, decide_true, Bool.not_false, Bool.and_self, if_true]
  cases s.release u e with
  | error f => rfl
  | ok s =>
    cases hb : e.theBypassSB with
    | true =>
      refine (scanSSB_found hn).trans ?_
      simp [hb, bind, Except.bind, Nat.add_comm 1]
    | false =>
      refine (scanSSB_found hn).trans ?_
      simp [hb, bind, Except.bind, Nat.add_comm 1]

/-! ### The range that is erased -/

/-- The entries of the SSB are in the order of their instructions. -/
def SSBOrdered (s : SbCore) : Prop :=
  (s.theMemQueue.filter inSSB).Pairwise fun x y => x.seq ≤ y.seq

/-- Entries in order are those before a number, and then the others. -/
theorem split_of_pairwise {l : List LsqEntry} (h : l.Pairwise fun x y => x.seq ≤ y.seq) (n : ℕ) :
    l = (l.filter fun e => decide (e.seq < n)) ++ l.filter fun e => decide (n ≤ e.seq) := by
  induction l with
  | nil => rfl
  | cons e l ih =>
    obtain ⟨hle, hl⟩ := pairwise_cons.mp h
    by_cases he : e.seq < n
    · have he' : ¬ n ≤ e.seq := Nat.not_le.mpr he
      rw [filter_cons_of_pos (by simpa using he), filter_cons_of_neg (by simpa using he'),
        cons_append, ← ih hl]
    · have he' : n ≤ e.seq := Nat.not_lt.mp he
      have hnone : (l.filter fun e => decide (e.seq < n)) = [] := by
        rw [filter_eq_nil_iff]
        intro x hx
        have := hle x hx
        simp only [decide_eq_true_eq]
        omega
      have hall : (l.filter fun e => decide (n ≤ e.seq)) = l := by
        rw [filter_eq_self]
        intro x hx
        have := hle x hx
        simp only [decide_eq_true_eq]
        omega
      rw [filter_cons_of_neg (by simpa using he), filter_cons_of_pos (by simpa using he'),
        hnone, hall]
      rfl

/-- **The erased range is the entries that are to go**, if it starts with the first of them. -/
theorem eraseFrom_eq {l : List LsqEntry}
    (h : (l.filter inSSB).Pairwise fun x y => x.seq ≤ y.seq) (n : ℕ) :
    eraseFrom (((l.filter inSSB).filter fun e => decide (e.seq < n)).length) l =
      l.filter fun e => !rolled n e := by
  induction l with
  | nil => rfl
  | cons e l ih =>
    by_cases hq : inSSB e = true
    · rw [filter_cons_of_pos hq] at h ⊢
      obtain ⟨hle, hl⟩ := pairwise_cons.mp h
      by_cases he : e.seq < n
      · have hr : rolled n e = false := by simp [rolled, he]
        rw [filter_cons_of_pos (by simpa using he), length_cons, eraseFrom, if_pos hq,
          ih hl, filter_cons_of_pos (by simp [hr])]
      · -- the first entry that goes: none before it is left to be skipped
        have hr : rolled n e = true := by simp [rolled, hq, Nat.not_lt.mp he]
        have hnone : ((l.filter inSSB).filter fun e => decide (e.seq < n)) = [] := by
          rw [filter_eq_nil_iff]
          intro x hx
          have := hle x hx
          simp only [decide_eq_true_eq]
          omega
        have htail := ih hl
        rw [hnone] at htail
        rw [filter_cons_of_neg (by simpa using he), hnone, length_nil, eraseFrom,
          if_pos hq, filter_cons_of_neg (by simp [hr])]
        exact htail
    · have hr : rolled n e = false := by simp [rolled, hq]
      rw [filter_cons_of_neg hq] at h ⊢
      have hcons : ∀ k, eraseFrom k (e :: l) = e :: eraseFrom k l := by
        intro k
        cases k <;> rw [eraseFrom, if_neg hq]
      rw [hcons, ih h, filter_cons_of_pos (by simp [hr])]

/-! ### Rolling back -/

/-- The entries that are to go. -/
def rolledEntries (s : SbCore) (n : ℕ) : List LsqEntry := s.theMemQueue.filter (rolled n)

/-- The number of write permissions that are required on a block. -/
def lineCount (s : SbCore) (b : ℕ) : ℤ := ((s.line b).map SbLine.count).getD 0

theorem lineCount_eq {w : ℕ → ℕ} (h : LinesFor s.theLines s.theFalsecount w) (b : ℕ) :
    s.lineCount b = w b := by
  rw [lineCount, line, h.counts b]
  split
  · rename_i hw
    rw [hw]
    rfl
  · rfl

/-- **The SSB is rolled back**: the entries with the number or a later one are gone, and nothing
else is; the counters and the permissions are less by what those entries count for, and the number
of entries that the SSB still has is returned. -/
def RollsBack (u : BitVec 64) (s : SbCore) (n : ℕ) : Prop :=
  ∃ t r, rollSSB u s n = .ok (t, r) ∧
    t.theMemQueue = s.theMemQueue.filter (fun e => !rolled n e) ∧
    t.theLSQCount = s.theLSQCount ∧
    t.theSBCount = s.theSBCount - (s.rolledEntries n).countP (fun e => !e.theBypassSB) ∧
    t.theSBNAWCount = s.theSBNAWCount - (s.rolledEntries n).countP (fun e => e.theBypassSB) ∧
    (∀ b, t.lineCount b = s.lineCount b - writers u (s.rolledEntries n) b) ∧
    t.theLSQCount + t.theSBCount + t.theSBNAWCount = t.theMemQueue.length ∧
    r = (t.theMemQueue.filter inSSB).length ∧
    t.theMemorySequenceNum = s.theMemorySequenceNum ∧ t.theSRB = s.theSRB ∧
    t.theCheckpoints = s.theCheckpoints ∧ t.theOpenCheckpoint = s.theOpenCheckpoint

theorem rolled_inSSB (he : rolled n e = true) : e.theQueue = .kSSB := by
  rw [rolled, Bool.and_eq_true, inSSB, beq_iff_eq] at he
  exact he.1

theorem rolledEntries_eq (s : SbCore) (n : ℕ) :
    s.rolledEntries n = (s.theMemQueue.filter inSSB).filter fun e => decide (n ≤ e.seq) := by
  rw [filter_filter, rolledEntries]
  exact filter_congr fun e _ => Bool.and_comm _ _

theorem filter_inSSB_kept (s : SbCore) (n : ℕ) :
    (s.theMemQueue.filter fun e => !rolled n e).filter inSSB =
      (s.theMemQueue.filter inSSB).filter fun e => decide (e.seq < n) := by
  rw [filter_filter, filter_filter]
  refine filter_congr fun e _ => ?_
  by_cases hq : inSSB e = true <;> by_cases hn : n ≤ e.seq <;> simp [rolled, hq, hn]
  omega

theorem Counted.size (h : Counted u s) :
    s.theLSQCount + s.theSBCount + s.theSBNAWCount = s.theMemQueue.length := by
  have hsum := countP_queues s.theMemQueue
  rw [h.lsq, h.sb, h.sbnaw]
  omega

/-- The assertions hold if the counters are those of the entries that stay. -/
theorem eraseFound_ok {c : SSBScan}
    (hl : s.theLSQCount = (s.withoutFound c).theMemQueue.countP inLSQ)
    (hs : s.theSBCount - c.sb_count = (s.withoutFound c).theMemQueue.countP inSB)
    (hn : s.theSBNAWCount - c.sbnaw_count = (s.withoutFound c).theMemQueue.countP inSBNAW) :
    s.eraseFound c = .ok (s.withoutFound c) := by
  have hcounts : (s.withoutFound c).checkCounts = .ok (s.withoutFound c) := by
    refine checkCounts_eq ?_ ?_ ?_
    · show 0 ≤ s.theLSQCount
      omega
    · show 0 ≤ s.theSBCount - c.sb_count
      omega
    · show 0 ≤ s.theSBNAWCount - c.sbnaw_count
      omega
  rw [eraseFound, hcounts]
  exact checkSize_eq hl hs hn

theorem rollSSB_nil (h : Counted u s) (hs : s.theMemQueue.filter inSSB = []) (n : ℕ) :
    rollSSB u s n = .ok (s, 0) := by
  have herase : ∀ l : List LsqEntry, l.filter inSSB = [] → eraseFrom 0 l = l := by
    intro l hl
    induction l with
    | nil => rfl
    | cons e l ih =>
      rw [filter_eq_nil_iff] at hl
      have he : ¬ inSSB e = true := hl e mem_cons_self
      rw [eraseFrom, if_neg he, ih]
      exact filter_eq_nil_iff.mpr fun x hx => hl x (mem_cons_of_mem _ hx)
  have hsame : s.withoutFound {} = s := by
    simp [withoutFound, herase _ hs]
  have hok : s.eraseFound {} = .ok s := by
    refine (eraseFound_ok ?_ ?_ ?_).trans (congrArg _ hsame)
    · rw [hsame]
      exact h.lsq
    · rw [hsame, ← h.sb]
      simp
    · rw [hsame, ← h.sbnaw]
      simp
  rw [rollSSB, hs]
  simp only [scanSSB, hok]
  rfl

/-- A number that is negative when it is taken with a sign fails the assertion. -/
theorem rollSSB_negative (hs : s.theMemQueue.filter inSSB ≠ []) (hn : ¬ n < 2 ^ 63) :
    rollSSB u s n = .error .negativeSeq := by
  obtain ⟨e, es, hcons⟩ := exists_cons_of_ne_nil hs
  rw [rollSSB, hcons, scanSSB, if_pos (Nat.not_lt.mp hn)]

/-- **With nothing to remove, the whole SSB is erased**, and the counters say otherwise. -/
theorem rollSSB_none (h : Counted u s) (hs : s.theMemQueue.filter inSSB ≠ []) (hn : n < 2 ^ 63)
    (hnone : s.rolledEntries n = []) : rollSSB u s n = .error (.core .queueSize) := by
  have hbefore : ∀ e ∈ s.theMemQueue.filter inSSB, e.seq < n := by
    intro e he
    rw [rolledEntries_eq, filter_eq_nil_iff] at hnone
    have := hnone e he
    simp only [decide_eq_true_eq] at this
    omega
  obtain ⟨c, hscan, hc⟩ : ∃ c : SSBScan,
      scanSSB u n 0 {} s (s.theMemQueue.filter inSSB) = .ok (c, s) ∧
        c.lb = 0 ∧ c.sb_count = 0 ∧ c.sbnaw_count = 0 := by
    rw [← append_nil (s.theMemQueue.filter inSSB)]
    exact ⟨_, scanSSB_kept (m := 0) hn hbefore, rfl, rfl, rfl⟩
  have herase : ∀ l : List LsqEntry, eraseFrom 0 l = l.filter fun e => !inSSB e := by
    intro l
    induction l with
    | nil => rfl
    | cons e l ih =>
      rw [eraseFrom, ih]
      by_cases hq : inSSB e = true <;> simp [hq]
  have hlen : (s.theMemQueue.filter inSSB).length +
      (s.theMemQueue.filter fun e => !inSSB e).length = s.theMemQueue.length := by
    rw [← countP_eq_length_filter, ← countP_eq_length_filter,
      length_eq_countP_add_countP inSSB (l := s.theMemQueue)]
    simp
  have hpos := length_pos_of_ne_nil hs
  have hsize := h.size
  have hl := h.lsq
  have hb := h.sb
  have hw := h.sbnaw
  have hcounts : (s.withoutFound c).checkCounts = .ok (s.withoutFound c) := by
    refine checkCounts_eq ?_ ?_ ?_
    · show 0 ≤ s.theLSQCount
      omega
    · show 0 ≤ s.theSBCount - c.sb_count
      omega
    · show 0 ≤ s.theSBNAWCount - c.sbnaw_count
      omega
  have hfail : (s.withoutFound c).checkSize = .error .queueSize := by
    rw [checkSize, if_neg]
    show ¬ s.theLSQCount + (s.theSBCount - c.sb_count) + (s.theSBNAWCount - c.sbnaw_count) =
      ((eraseFrom c.lb s.theMemQueue).length : ℤ)
    rw [hc.1, herase]
    omega
  rw [rollSSB, hscan]
  show asRollback ((s.eraseFound c).map _) = _
  rw [eraseFound, hcounts]
  show asRollback (((s.withoutFound c).checkSize).map _) = _
  rw [hfail]
  rfl

/-- **What `clearSSB` leaves** when there is something to remove: the entries that are removed,
except for the first, are counted among those that are left. -/
theorem rollSSB_some (h : Counted u s) (ho : SSBOrdered s) (hn : n < 2 ^ 63)
    (hsome : s.rolledEntries n ≠ []) :
    ∃ ls f, rollSSB u s n = .ok ({ s with
        theMemQueue := s.theMemQueue.filter fun e => !rolled n e
        theSBCount := s.theSBCount - (s.rolledEntries n).countP fun e => !e.theBypassSB
        theSBNAWCount := s.theSBNAWCount - (s.rolledEntries n).countP fun e => e.theBypassSB
        theLines := ls, theFalsecount := f },
        ((s.theMemQueue.filter inSSB).filter fun e => decide (e.seq < n)).length +
          ((s.rolledEntries n).length - 1)) ∧
      LinesFor ls f fun b =>
        writers u s.theMemQueue b - (s.rolledEntries n).countP (releases u b) := by
  obtain ⟨ls, f, hok, hlines, -⟩ := releaseAll_spec (u := u) (s.rolledEntries n) h.lines
  obtain ⟨hlsq, hsb, hsbnaw⟩ := h.without (p := rolled n) fun e _ => rolled_inSSB
  refine ⟨ls, f, ?_, hlines⟩
  obtain ⟨e, es, hcons⟩ := exists_cons_of_ne_nil hsome
  have hsplit := split_of_pairwise ho n
  rw [← rolledEntries_eq] at hsplit
  have he : n ≤ e.seq := by
    have hmem : e ∈ s.rolledEntries n := hcons ▸ mem_cons_self
    rw [rolledEntries_eq, mem_filter, decide_eq_true_eq] at hmem
    exact hmem.2
  have hkept : ∀ x ∈ (s.theMemQueue.filter inSSB).filter fun e => decide (e.seq < n),
      x.seq < n := fun x hx => of_decide_eq_true (mem_filter.mp hx).2
  have hscan := @scanSSB_spec u s _ _ es _ hn hkept he
  rw [← hcons, ← hsplit, hok] at hscan
  rw [rollSSB, hscan]
  show asRollback ((eraseFound _ _).map _) = _
  have hqueue := eraseFrom_eq ho n
  rw [eraseFound_ok]
  · show Except.ok (withoutFound _ _, _) = _
    simp only [withoutFound, hqueue]
    rw [hcons, length_cons, Nat.add_sub_cancel]
  · simp only [withoutFound, hqueue]
    exact hlsq
  · simp only [withoutFound, hqueue]
    exact hsb
  · simp only [withoutFound, hqueue]
    exact hsbnaw

theorem writers_rolledEntries_le (s : SbCore) (n b : ℕ) :
    writers u (s.rolledEntries n) b ≤ writers u s.theMemQueue b :=
  List.Sublist.countP_le filter_sublist

/-- An entry of the SSB at the address zero releases the line of block zero. -/
theorem releases_zero (hq : e.theQueue = .kSSB) (hs : e.isStore = true) (ha : e.thePaddr = 0) :
    releases u 0 e = true ∧ writes u 0 e = false := by
  have hb : block u e.thePaddr = 0 := by
    rw [ha]
    exact block_zero u
  constructor
  · simp [releases, hq, hs, hb]
  · simp [writes, ha]

theorem rollsBack_of_empty (h : Counted u s) (hs : s.theMemQueue.filter inSSB = []) :
    RollsBack u s n := by
  have hnone : ∀ e ∈ s.theMemQueue, rolled n e = false := by
    intro e he
    rw [filter_eq_nil_iff] at hs
    simp [rolled, hs e he]
  have hzero : s.rolledEntries n = [] := by
    rw [rolledEntries, filter_eq_nil_iff]
    intro e he
    simp [hnone e he]
  refine ⟨s, 0, rollSSB_nil h hs n, ?_, rfl, ?_, ?_, ?_, h.size, ?_, rfl, rfl, rfl, rfl⟩
  · symm
    rw [filter_eq_self]
    intro e he
    rw [hnone e he]
    rfl
  · simp [hzero]
  · simp [hzero]
  · simp [hzero, writers]
  · rw [hs]
    rfl

/-- **`clearSSB` rolls the SSB back** only if it is empty, or if there is one entry to go. An entry
at the address zero, which has no permission to give back, must not take that of another entry of
block zero. -/
theorem rollsBack_iff (h : Counted u s) (ho : SSBOrdered s) (n : ℕ) :
    RollsBack u s n ↔ (∀ e ∈ s.theMemQueue, e.theQueue ≠ .kSSB) ∨
      (n < 2 ^ 63 ∧ ∃ e, s.rolledEntries n = [e] ∧
        (e.isStore = true → e.thePaddr = 0 → writers u s.theMemQueue 0 = 0)) := by
  have hempty : s.theMemQueue.filter inSSB = [] ↔ ∀ e ∈ s.theMemQueue, e.theQueue ≠ .kSSB := by
    simp [filter_eq_nil_iff, inSSB]
  rw [← hempty]
  constructor
  · rintro ⟨t, r, hok, hqueue, -, -, -, hcount, -, hr, -⟩
    by_cases hs : s.theMemQueue.filter inSSB = []
    · exact .inl hs
    by_cases hn : n < 2 ^ 63
    swap
    · rw [rollSSB_negative hs hn] at hok
      cases hok
    by_cases hnone : s.rolledEntries n = []
    · rw [rollSSB_none h hs hn hnone] at hok
      cases hok
    obtain ⟨ls, f, hroll, hlines⟩ := rollSSB_some h ho hn hnone
    obtain ⟨rfl, rfl⟩ := Prod.mk.inj (Except.ok.inj (hroll.symm.trans hok))
    -- the number that is returned is too large by the entries after the first
    have hone : (s.rolledEntries n).length = 1 := by
      have hkept := congrArg List.length (filter_inSSB_kept s n)
      have hpos := length_pos_of_ne_nil hnone
      simp only at hr
      omega
    obtain ⟨e, he⟩ := length_eq_one_iff.mp hone
    refine .inr ⟨hn, e, he, fun hstore haddr => ?_⟩
    have hmem : e ∈ s.rolledEntries n := he ▸ mem_cons_self
    obtain ⟨hrel, hwr⟩ := releases_zero (u := u) (rolled_inSSB (mem_filter.mp hmem).2)
      hstore haddr
    have hzero := hcount 0
    have hreleased : (s.rolledEntries n).countP (releases u 0) = 1 := by simp [he, hrel]
    have hwritten : writers u (s.rolledEntries n) 0 = 0 := by simp [he, writers, hwr]
    rw [lineCount_eq hlines, lineCount_eq h.lines, hreleased, hwritten] at hzero
    omega
  · rintro (hs | ⟨hn, e, he, hz⟩)
    · exact rollsBack_of_empty h hs
    · have hsome : s.rolledEntries n ≠ [] := by
        rw [he]
        exact cons_ne_nil _ _
      obtain ⟨ls, f, hroll, hlines⟩ := rollSSB_some h ho hn hsome
      obtain ⟨hlsq, hsb, hsbnaw⟩ := h.without (p := rolled n) fun e _ => rolled_inSSB
      refine ⟨_, _, hroll, rfl, rfl, rfl, rfl, ?_, ?_, ?_, rfl, rfl, rfl, rfl⟩
      · intro b
        have hle := writers_rolledEntries_le (u := u) s n b
        have hzero : (∃ x ∈ s.rolledEntries n, zeroStore x = true) →
            writers u s.theMemQueue 0 ≤ writers u (s.rolledEntries n) 0 := by
          rintro ⟨x, hx, hzero⟩
          rw [he, mem_singleton] at hx
          rw [hx, zeroStore, Bool.and_eq_true, Bool.and_eq_true, beq_iff_eq] at hzero
          rw [hz hzero.1.2 hzero.2]
          exact Nat.zero_le _
        have hsame := countP_releases hzero b
        rw [lineCount_eq hlines, lineCount_eq h.lines]
        omega
      · have hsum := countP_queues (s.theMemQueue.filter fun e => !rolled n e)
        simp only [rolledEntries]
        rw [hlsq, hsb, hsbnaw]
        show _ = ((s.theMemQueue.filter fun e => !rolled n e).length : ℤ)
        omega
      · show _ = List.length ((s.theMemQueue.filter fun e => !rolled n e).filter inSSB)
        rw [filter_inSSB_kept, he]
        rfl

theorem Accounted.ssbOrdered (h : Accounted u s) : SSBOrdered s :=
  ((pairwise_map.mp h.ids).imp Nat.le_of_lt).filter _

end SbCore

open SbCore

/-- **From the last store on**, the SSB of the run that holds a permission is rolled back. -/
theorem heldRun_rollsBack : ∃ s, (sbMachine 64 .kSC).run heldRun = .ok s ∧ RollsBack 64 s 3 := by
  have hends : (sbMachine 64 .kSC).endsIn (fun s =>
      decide ((s.rolledEntries 3).length = 1) && decide (writers 64 s.theMemQueue 0 = 1) &&
        (s.rolledEntries 3).all fun e => e.thePaddr != 0) heldRun = true := by decide +kernel
  obtain ⟨s, hs, htest⟩ := Machine.exists_of_endsIn hends
  rw [Bool.and_eq_true, Bool.and_eq_true, decide_eq_true_eq, decide_eq_true_eq,
    all_eq_true] at htest
  have hreach : (sbMachine 64 .kSC).ReachableWhen (Allowed 64) s :=
    Machine.reachableWhen_of_run (g := fun s ev => decide (Allowed 64 s ev))
      (fun _ _ => of_decide_eq_true) (by decide +kernel) hs
  have ha := (sound_of_reachable hreach).accounted
  obtain ⟨e, he⟩ := length_eq_one_iff.mp htest.1.1
  refine ⟨s, hs, (rollsBack_iff ha.counted ha.ssbOrdered 3).mpr (.inr ⟨by decide, e, he, ?_⟩)⟩
  intro _ hzero
  have hne := htest.2 e (he ▸ mem_cons_self)
  rw [bne_iff_ne] at hne
  exact absurd hzero hne

/-- **From the load on**, with the checkpoint it has taken, it is not: both entries leave, and one
is reported to be left. -/
theorem heldRun_not_rollsBack : ∃ s, (sbMachine 64 .kSC).run heldRun = .ok s ∧
    Counted 64 s ∧ SSBOrdered s ∧ ¬ RollsBack 64 s 2 := by
  have hends : (sbMachine 64 .kSC).endsIn (fun s =>
      match rollSSB 64 s 2 with
      | .ok (t, r) => decide (t.theMemQueue.filter inSSB = []) && decide (r = 1)
      | .error _ => false) heldRun = true := by decide +kernel
  obtain ⟨s, hs, htest⟩ := Machine.exists_of_endsIn hends
  have hreach : (sbMachine 64 .kSC).ReachableWhen (Allowed 64) s :=
    Machine.reachableWhen_of_run (g := fun s ev => decide (Allowed 64 s ev))
      (fun _ _ => of_decide_eq_true) (by decide +kernel) hs
  have ha := (sound_of_reachable hreach).accounted
  refine ⟨s, hs, ha.counted, ha.ssbOrdered, ?_⟩
  rintro ⟨t, r, hok, -, -, -, -, -, -, hr, -⟩
  rw [hok] at htest
  simp only [Bool.and_eq_true, decide_eq_true_eq] at htest
  rw [htest.1, htest.2] at hr
  exact absurd hr (by decide)

end UArch

end Flexus
