import Flexus.UArch.StoreBuffer

/-!
# Counting the lines of the store buffer

The counters of a store buffer are redundant: they can all be read off the memory queue, and the
lines. This is `Flexus.UArch.SbCore.Accounted`, and what is shown here is that the operations on
the lines and on single entries keep it, and that none of their assertions fails.

One of them does so under a condition only. A store to the physical address zero is not tracked
when it enters the store buffer, but block zero is released when it leaves, so that it must not
leave while block zero is tracked on account of other stores.
-/

namespace Flexus

open List

namespace UArch

open Flexus.Lib

namespace SbCore

variable {u : BitVec 64} {cm : ConsistencyModel} {s t : SbCore} {k b : ℕ} {e : LsqEntry}
  {l : SbLine} {ls : List SbLine} {n : ℤ} {w : ℕ → ℕ}

/-! ### Lines -/

theorem block_add (d : ℤ) (l : SbLine) : (l.add d).block = l.block := rfl

theorem permission_add (d : ℤ) (l : SbLine) : (l.add d).permission = l.permission := rfl

theorem block_permit (p : Bool) (l : SbLine) : (l.permit p).block = l.block := rfl

/-- The permission of a block, in a list of lines. -/
def permOf (ls : List SbLine) (b : ℕ) : Bool :=
  (Keyed.lookup SbLine.block ls b).any SbLine.permission

/-- **The lines count what they should**: a block is tracked if it is written, the count of its
line says by how many entries, and the blocks without permission are counted. -/
structure LinesFor (ls : List SbLine) (n : ℤ) (w : ℕ → ℕ) : Prop where
  keys : (ls.map SbLine.block).Nodup
  counts : ∀ b, (Keyed.lookup SbLine.block ls b).map SbLine.count =
    if w b = 0 then none else some (w b : ℤ)
  falsecount : n = ls.countP fun l => !l.permission

theorem LinesFor.eq_zero (h : LinesFor ls n w) (hb : Keyed.lookup SbLine.block ls b = none) :
    w b = 0 := by
  have := h.counts b
  rw [hb, Option.map_none] at this
  split at this
  · assumption
  · cases this

theorem LinesFor.count_eq (h : LinesFor ls n w) (hb : Keyed.lookup SbLine.block ls b = some l) :
    w b ≠ 0 ∧ l.count = w b := by
  have := h.counts b
  rw [hb, Option.map_some] at this
  split at this
  · cases this
  · rename_i hne
    exact ⟨hne, Option.some.inj this⟩

theorem LinesFor.falsecount_range (h : LinesFor ls n w) : 0 ≤ n ∧ n ≤ ls.length := by
  have hle := countP_le_length (p := fun l : SbLine => !l.permission) (l := ls)
  rw [h.falsecount]
  omega

theorem LinesFor.falsecount_pos (h : LinesFor ls n w)
    (hb : Keyed.lookup SbLine.block ls b = some l) (hl : l.permission = false) : 1 ≤ n := by
  have hpos : 0 < ls.countP fun l => !l.permission := by
    rw [countP_pos_iff]
    exact ⟨l, Keyed.mem_of_lookup hb, by simp [hl]⟩
  rw [h.falsecount]
  omega

theorem LinesFor.congr {w' : ℕ → ℕ} (h : LinesFor ls n w) (hw : ∀ b, w' b = w b) :
    LinesFor ls n w' := by
  have heq : w' = w := funext hw
  rw [heq]
  exact h

theorem LinesFor.update {f : SbLine → SbLine} {c : ℕ} (h : LinesFor ls n w)
    (hb : Keyed.lookup SbLine.block ls b = some l) (hf : ∀ l, (f l).block = l.block)
    (hc : c ≠ 0) (hcount : (f l).count = c) {n' : ℤ}
    (hn : n' + (if l.permission then 0 else 1) = n + if (f l).permission then 0 else 1) :
    LinesFor (Keyed.update SbLine.block ls b f) n' (Function.update w b c) where
  keys := by
    rw [Keyed.keys_update hf]
    exact h.keys
  counts b' := by
    rw [Keyed.lookup_update hf]
    by_cases hb' : b' = b
    · rw [if_pos hb', hb', hb, Function.update_self, if_neg hc]
      simp [hcount]
    · rw [if_neg hb', Function.update_of_ne hb']
      exact h.counts b'
  falsecount := by
    have hcp := Keyed.countP_update (f := f) h.keys hb fun l => !l.permission
    have hf := h.falsecount
    cases hp : l.permission with
    | true =>
      cases hq : (f l).permission with
      | true => simp_all
      | false =>
        simp only [hp, hq, if_true, Bool.false_eq_true, if_false, Bool.not_true,
          Bool.not_false] at hcp hn
        omega
    | false =>
      cases hq : (f l).permission with
      | true =>
        simp only [hp, hq, if_true, Bool.false_eq_true, if_false, Bool.not_true,
          Bool.not_false] at hcp hn
        omega
      | false => simp_all

theorem permOf_update {f : SbLine → SbLine} (hf : ∀ l, (f l).block = l.block) (b' : ℕ) :
    permOf (Keyed.update SbLine.block ls b f) b' =
      if b' = b then ((Keyed.lookup SbLine.block ls b').any fun l => (f l).permission)
      else permOf ls b' := by
  rw [permOf, Keyed.lookup_update hf]
  split
  · cases Keyed.lookup SbLine.block ls b' with
    | none => rfl
    | some l => rfl
  · rfl

theorem permOf_update_eq {f : SbLine → SbLine} (hf : ∀ l, (f l).block = l.block)
    (hp : ∀ l, (f l).permission = l.permission) :
    permOf (Keyed.update SbLine.block ls b f) = permOf ls := by
  funext b'
  rw [permOf_update hf]
  simp only [hp]
  split
  · rfl
  · rfl

/-- **A block gets another writer.** -/
theorem countLine_spec (h : LinesFor s.theLines s.theFalsecount w) (b : ℕ) :
    ∃ ls n, s.countLine b = .ok { s with theLines := ls, theFalsecount := n } ∧
      LinesFor ls n (Function.update w b (w b + 1)) ∧ permOf ls = permOf s.theLines := by
  cases hb : s.line b with
  | none =>
    have hz : w b = 0 := h.eq_zero hb
    have hfresh : Keyed.lookup SbLine.block s.theLines b = none := hb
    have hlines : LinesFor (s.theLines ++ [{ block := b, count := 1, permission := false }])
        (s.theFalsecount + 1) (Function.update w b (w b + 1)) := by
      refine ⟨Keyed.nodup_append_singleton h.keys hfresh, ?_, ?_⟩
      · intro b'
        rw [Keyed.lookup_append_singleton]
        by_cases hb' : b' = b
        · subst hb'
          rw [hfresh, Function.update_self, hz]
          simp
        · rw [Function.update_of_ne hb', ← h.counts b']
          have hne : ¬ b = b' := fun hc => hb' hc.symm
          simp [hne]
      · have := h.falsecount
        rw [countP_append, countP_singleton]
        simp only [Bool.not_false, if_true]
        omega
    refine ⟨_, _, ?_, hlines, ?_⟩
    · have hrange := hlines.falsecount_range
      simp only [countLine, hb, checkFalsecount]
      rw [if_pos hrange]
    · funext b'
      rw [permOf, permOf, Keyed.lookup_append_singleton]
      by_cases hb' : b = b'
      · subst hb'
        rw [hfresh]
        simp
      · simp [hb']
  | some l =>
    obtain ⟨hne, hcount⟩ := h.count_eq hb
    refine ⟨Keyed.update SbLine.block s.theLines b (SbLine.add 1), s.theFalsecount,
      by simp only [countLine, hb], ?_, permOf_update_eq (block_add 1) (permission_add 1)⟩
    refine h.update hb (block_add 1) (Nat.succ_ne_zero _) ?_ rfl
    show l.count + 1 = _
    omega

/-- **A block loses a writer**, if it has one. With the last one its line goes away; other lines
keep their permissions. -/
theorem unrequireWritePermission_spec (h : LinesFor s.theLines s.theFalsecount w)
    (a : BitVec 64) :
    ∃ ls n, s.unrequireWritePermission u a = .ok { s with theLines := ls, theFalsecount := n } ∧
      LinesFor ls n (Function.update w (block u a) (w (block u a) - 1)) ∧
      ∀ b, Function.update w (block u a) (w (block u a) - 1) b ≠ 0 →
        permOf ls b = permOf s.theLines b := by
  generalize hb : block u a = b
  cases hl : s.line b with
  | none =>
    have hz : w b = 0 := h.eq_zero hl
    refine ⟨s.theLines, s.theFalsecount, ?_, h.congr ?_, fun _ _ => rfl⟩
    · simp only [unrequireWritePermission, hb, hl]
    · intro b'
      by_cases hb' : b' = b
      · rw [hb', Function.update_self, hz]
      · rw [Function.update_of_ne hb']
  | some l =>
    obtain ⟨hne, hcount⟩ := h.count_eq hl
    by_cases hone : w b = 1
    · -- The line goes away.
      have hlines : LinesFor (Keyed.erase SbLine.block s.theLines b)
          (if l.permission then s.theFalsecount else s.theFalsecount - 1)
          (Function.update w b (w b - 1)) := by
        refine ⟨Keyed.nodup_erase h.keys, ?_, ?_⟩
        · intro b'
          rw [Keyed.lookup_erase]
          by_cases hb' : b' = b
          · rw [if_pos hb', hb', Function.update_self, hone]
            rfl
          · rw [if_neg hb', Function.update_of_ne hb']
            exact h.counts b'
        · have hcp := Keyed.countP_erase h.keys hl fun l => !l.permission
          have hf := h.falsecount
          cases hp : l.permission with
          | true =>
            simp only [hp, Bool.not_true, Bool.false_eq_true, if_false, if_true] at hcp ⊢
            omega
          | false =>
            simp only [hp, Bool.not_false, Bool.false_eq_true, if_false, if_true] at hcp ⊢
            omega
      refine ⟨_, _, ?_, hlines, ?_⟩
      · have hrange := hlines.falsecount_range.1
        have hc0 : ¬ l.count - 1 < 0 := by omega
        have hc1 : l.count - 1 = 0 := by omega
        simp only [unrequireWritePermission, hb, hl, if_neg hc0, if_pos hc1]
        cases hp : l.permission with
        | true => simp
        | false =>
          have hpos := h.falsecount_pos hl hp
          have hn : ¬ s.theFalsecount - 1 < 0 := by omega
          simp [hn]
      · intro b' hb'
        have hne' : b' ≠ b := by
          rintro rfl
          rw [Function.update_self, hone] at hb'
          exact hb' rfl
        rw [permOf, Keyed.lookup_erase, if_neg hne', permOf]
    · have hc0 : ¬ l.count - 1 < 0 := by omega
      have hc1 : ¬ l.count - 1 = 0 := by omega
      refine ⟨Keyed.update SbLine.block s.theLines b (SbLine.add (-1)), s.theFalsecount, ?_, ?_,
        fun b' _ => ?_⟩
      · simp only [unrequireWritePermission, hb, hl, if_neg hc0, if_neg hc1]
      · have hc2 : w b - 1 ≠ 0 := by omega
        refine h.update hl (block_add (-1)) hc2 ?_ rfl
        show l.count + -1 = _
        omega
      · rw [permOf_update_eq (block_add (-1)) (permission_add (-1))]

/-- **A permission arrives.** -/
theorem acquire_lines (h : LinesFor s.theLines s.theFalsecount w)
    (hl : Keyed.lookup SbLine.block s.theLines b = some l) :
    LinesFor (Keyed.update SbLine.block s.theLines b (SbLine.permit true))
      (if !l.permission then s.theFalsecount - 1 else s.theFalsecount) w := by
  obtain ⟨hne, hcount⟩ := h.count_eq hl
  have hself : Function.update w b (w b) = w := Function.update_eq_self b w
  rw [← hself]
  refine h.update hl (block_permit true) hne hcount ?_
  cases hp : l.permission with
  | true => simp [SbLine.permit]
  | false => simp [SbLine.permit]

/-- **A permission is lost.** -/
theorem lose_lines (h : LinesFor s.theLines s.theFalsecount w)
    (hl : Keyed.lookup SbLine.block s.theLines b = some l) :
    LinesFor (Keyed.update SbLine.block s.theLines b (SbLine.permit false))
      (if l.permission then s.theFalsecount + 1 else s.theFalsecount) w := by
  obtain ⟨hne, hcount⟩ := h.count_eq hl
  have hself : Function.update w b (w b) = w := Function.update_eq_self b w
  rw [← hself]
  refine h.update hl (block_permit false) hne hcount ?_
  cases hp : l.permission with
  | true => simp [SbLine.permit]
  | false => simp [SbLine.permit]

/-! ### Writers -/

/-- **An entry of the store buffer that writes a block**, and not at the address zero. -/
def writes (u : BitVec 64) (b : ℕ) (e : LsqEntry) : Bool :=
  e.theQueue != .kLSQ && e.isStore && e.thePaddr != 0 && block u e.thePaddr == b

/-- A store of the store buffer at the address zero. -/
def zeroStore (e : LsqEntry) : Bool := e.theQueue != .kLSQ && e.isStore && e.thePaddr == 0

/-- The number of entries that write a block. -/
def writers (u : BitVec 64) (q : List LsqEntry) (b : ℕ) : ℕ := q.countP (writes u b)

theorem block_zero (u : BitVec 64) : block u 0 = 0 := by
  have h : (0 : BitVec 64) &&& ~~~(u - 1) = 0 := BitVec.zero_and
  rw [block, h]
  rfl

/-- An entry whose block is released as it leaves: at the address zero this is block zero, which
the entry does not count for. -/
def releases (u : BitVec 64) (b : ℕ) (e : LsqEntry) : Bool :=
  e.theQueue != .kLSQ && e.isStore && block u e.thePaddr == b

theorem releases_of_writes (h : writes u b e = true) : releases u b e = true := by
  simp only [writes, Bool.and_eq_true] at h
  simp only [releases, Bool.and_eq_true]
  exact ⟨h.1.1, h.2⟩

/-- Other blocks, and other entries, are released as they are counted. -/
theorem writes_of_releases (h : releases u b e = true) (hz : zeroStore e = true → b ≠ 0) :
    writes u b e = true := by
  simp only [releases, Bool.and_eq_true, beq_iff_eq] at h
  obtain ⟨hs, hb⟩ := h
  have haddr : e.thePaddr ≠ 0 := by
    intro hc
    refine hz (by simp [zeroStore, hs.1, hs.2, hc]) ?_
    rw [← hb, hc, block_zero]
  simpa [writes, hs.1, hs.2, hb] using haddr

/-- **What is released is what was counted**, if no store to the address zero is released while
there are other writers of block zero. -/
theorem countP_releases {es : List LsqEntry}
    (hz : (∃ e ∈ es, zeroStore e = true) → w 0 ≤ writers u es 0) (b : ℕ) :
    w b - es.countP (releases u b) = w b - writers u es b := by
  have hle : writers u es b ≤ es.countP (releases u b) :=
    countP_mono_left fun e _ => releases_of_writes
  by_cases hb : (∃ e ∈ es, zeroStore e = true) ∧ b = 0
  · obtain ⟨hex, rfl⟩ := hb
    have := hz hex
    omega
  · have hge : es.countP (releases u b) ≤ writers u es b := by
      refine countP_mono_left fun e he hrel => writes_of_releases hrel ?_
      intro hzero hb0
      exact hb ⟨⟨e, he, hzero⟩, hb0⟩
    rw [Nat.le_antisymm hge hle]

/-- **An entry leaves the store buffer**: its block has a writer less. -/
theorem release_spec (h : LinesFor s.theLines s.theFalsecount w) (e : LsqEntry) :
    ∃ ls n, s.release u e = .ok { s with theLines := ls, theFalsecount := n } ∧
      LinesFor ls n (fun b => w b - if releases u b e then 1 else 0) ∧
      ∀ b, (w b - if releases u b e then 1 else 0) ≠ 0 → permOf ls b = permOf s.theLines b := by
  by_cases hs : e.theQueue ≠ .kLSQ ∧ e.isStore = true
  · obtain ⟨ls, n, hok, hlines, hperm⟩ := unrequireWritePermission_spec h (u := u) e.thePaddr
    have hw : ∀ b, (w b - if releases u b e then 1 else 0) =
        Function.update w (block u e.thePaddr) (w (block u e.thePaddr) - 1) b := by
      intro b
      by_cases hb : b = block u e.thePaddr
      · subst hb
        have hyes : releases u (block u e.thePaddr) e = true := by simp [releases, hs.1, hs.2]
        rw [hyes, Function.update_self]
        rfl
      · have hne : ¬ block u e.thePaddr = b := fun hc => hb hc.symm
        have hno : releases u b e = false := by simp [releases, hne]
        rw [hno, Function.update_of_ne hb]
        rfl
    refine ⟨ls, n, by rw [release, if_pos hs, hok], hlines.congr hw, ?_⟩
    intro b hb
    exact hperm b ((hw b).symm ▸ hb)
  · have hno : ∀ b, releases u b e = false := by
      intro b
      by_contra hc
      simp only [releases, Bool.not_eq_false, Bool.and_eq_true, bne_iff_ne] at hc
      exact hs hc.1
    refine ⟨s.theLines, s.theFalsecount, by rw [release, if_neg hs], h.congr ?_, fun _ _ => rfl⟩
    intro b
    rw [hno]
    rfl

/-- **Entries leave the store buffer**, one after the other. -/
theorem releaseAll_spec (es : List LsqEntry) (h : LinesFor s.theLines s.theFalsecount w) :
    ∃ ls n, releaseAll u s es = .ok { s with theLines := ls, theFalsecount := n } ∧
      LinesFor ls n (fun b => w b - es.countP (releases u b)) ∧
      ∀ b, w b - es.countP (releases u b) ≠ 0 → permOf ls b = permOf s.theLines b := by
  induction es generalizing s w with
  | nil => exact ⟨_, _, rfl, h, fun _ _ => rfl⟩
  | cons e es ih =>
    obtain ⟨ls, n, hok, hlines, hperm⟩ := release_spec (u := u) h e
    obtain ⟨ls', n', hok', hlines', hperm'⟩ :=
      ih (s := { s with theLines := ls, theFalsecount := n }) hlines
    have hw : ∀ b, w b - (e :: es).countP (releases u b) =
        (w b - if releases u b e then 1 else 0) - es.countP (releases u b) := by
      intro b
      rw [countP_cons]
      omega
    refine ⟨ls', n', ?_, hlines'.congr hw, ?_⟩
    · rw [releaseAll, hok]
      exact hok'
    · intro b hb
      have hb' := (hw b).symm ▸ hb
      rw [hperm' b hb']
      refine hperm b ?_
      omega

/-! ### Counters -/

/-- An entry of the LSQ. -/
def inLSQ (e : LsqEntry) : Bool := e.theQueue == .kLSQ

/-- An entry that counts for `theSBCount`. -/
def inSB (e : LsqEntry) : Bool := e.theQueue != .kLSQ && !e.theBypassSB

/-- An entry that counts for `theSBNAWCount`. -/
def inSBNAW (e : LsqEntry) : Bool := e.theQueue != .kLSQ && e.theBypassSB

/-- **The counters of a core are those of its queue.** -/
structure Accounted (u : BitVec 64) (s : SbCore) : Prop where
  ids : (s.theMemQueue.map LsqEntry.seq).Pairwise (· < ·)
  bound : ∀ e ∈ s.theMemQueue, e.seq ≤ s.theMemorySequenceNum
  plain : ∀ e ∈ s.theMemQueue, e.theQueue = .kLSQ → e.theOperation ≠ .kStore →
    e.theBypassSB = false
  lsq : s.theLSQCount = s.theMemQueue.countP inLSQ
  sb : s.theSBCount = s.theMemQueue.countP inSB
  sbnaw : s.theSBNAWCount = s.theMemQueue.countP inSBNAW
  lines : LinesFor s.theLines s.theFalsecount (writers u s.theMemQueue)

theorem Accounted.nodup (h : Accounted u s) : (s.theMemQueue.map LsqEntry.seq).Nodup :=
  h.ids.imp fun hlt => Nat.ne_of_lt hlt

theorem countP_queues (q : List LsqEntry) :
    q.countP inLSQ + q.countP inSB + q.countP inSBNAW = q.length := by
  induction q with
  | nil => rfl
  | cons e q ih =>
    rw [countP_cons, countP_cons, countP_cons, length_cons]
    have hone : (if inLSQ e then 1 else 0) + (if inSB e then 1 else 0) +
        (if inSBNAW e then 1 else 0) = 1 := by
      cases hq : e.theQueue <;> cases hb : e.theBypassSB <;> simp [inLSQ, inSB, inSBNAW, hq, hb]
    omega

theorem checkSize_eq (hl : s.theLSQCount = s.theMemQueue.countP inLSQ)
    (hs : s.theSBCount = s.theMemQueue.countP inSB)
    (hn : s.theSBNAWCount = s.theMemQueue.countP inSBNAW) : s.checkSize = .ok s := by
  have hsum := countP_queues s.theMemQueue
  rw [checkSize, if_pos]
  rw [hl, hs, hn]
  omega

theorem checkCounts_eq (hl : 0 ≤ s.theLSQCount) (hs : 0 ≤ s.theSBCount)
    (hn : 0 ≤ s.theSBNAWCount) : s.checkCounts = .ok s := by
  rw [checkCounts, if_neg (by omega), if_neg (by omega), if_neg (by omega)]

theorem seq_of_find (h : s.find k = some e) : e.seq = k := Keyed.key_of_lookup h

theorem mem_of_find (h : s.find k = some e) : e ∈ s.theMemQueue := Keyed.mem_of_lookup h

theorem Accounted.find_of_mem (h : Accounted u s) (he : e ∈ s.theMemQueue) :
    s.find e.seq = some e :=
  Keyed.lookup_of_mem h.nodup he

theorem Accounted.eq_of_seq (h : Accounted u s) {e' : LsqEntry} (he : e ∈ s.theMemQueue)
    (he' : e' ∈ s.theMemQueue) (hs : e.seq = e'.seq) : e = e' :=
  inj_on_of_nodup_map h.nodup he he' hs

/-- What the counters leave alone. -/
structure SameOrder (s t : SbCore) : Prop where
  num : t.theMemorySequenceNum = s.theMemorySequenceNum
  srb : t.theSRB = s.theSRB
  checkpoints : t.theCheckpoints = s.theCheckpoints
  opened : t.theOpenCheckpoint = s.theOpenCheckpoint
  resolving : t.resolving = s.resolving

theorem SameOrder.refl (s : SbCore) : SameOrder s s := ⟨rfl, rfl, rfl, rfl, rfl⟩

/-- The counts without an entry are those of the queue without it. -/
theorem uncount_spec (h : Accounted u s) (hk : s.find k = some e) :
    ∃ n₁ n₂ n₃ : ℤ, s.uncount e =
        { s with theLSQCount := n₁, theSBCount := n₂, theSBNAWCount := n₃ } ∧
      n₁ = (Keyed.erase LsqEntry.seq s.theMemQueue k).countP inLSQ ∧
      n₂ = (Keyed.erase LsqEntry.seq s.theMemQueue k).countP inSB ∧
      n₃ = (Keyed.erase LsqEntry.seq s.theMemQueue k).countP inSBNAW := by
  have h1 := Keyed.countP_erase h.nodup hk inLSQ
  have h2 := Keyed.countP_erase h.nodup hk inSB
  have h3 := Keyed.countP_erase h.nodup hk inSBNAW
  have hl := h.lsq
  have hs := h.sb
  have hn := h.sbnaw
  cases hq : e.theQueue with
  | kLSQ =>
    refine ⟨s.theLSQCount - 1, s.theSBCount, s.theSBNAWCount, by rw [uncount, hq], ?_, ?_, ?_⟩
    · simp only [inLSQ, hq, beq_self_eq_true, if_true] at h1
      omega
    · simp only [inSB, hq, bne_self_eq_false, Bool.false_and, Bool.false_eq_true, if_false] at h2
      omega
    · simp only [inSBNAW, hq, bne_self_eq_false, Bool.false_and, Bool.false_eq_true, if_false] at h3
      omega
  | kSSB | kSB =>
    cases hb : e.theBypassSB with
    | true =>
      refine ⟨s.theLSQCount, s.theSBCount, s.theSBNAWCount - 1, by simp [uncount, hq, hb],
        ?_, ?_, ?_⟩
      · simp [inLSQ, hq] at h1
        omega
      · simp [inSB, hq, hb] at h2
        omega
      · simp [inSBNAW, hq, hb] at h3
        omega
    | false =>
      refine ⟨s.theLSQCount, s.theSBCount - 1, s.theSBNAWCount, by simp [uncount, hq, hb],
        ?_, ?_, ?_⟩
      · simp [inLSQ, hq] at h1
        omega
      · simp [inSB, hq, hb] at h2
        omega
      · simp [inSBNAW, hq, hb] at h3
        omega

theorem pairwise_filter_seq {q : List LsqEntry} (h : (q.map LsqEntry.seq).Pairwise (· < ·))
    (p : LsqEntry → Bool) : ((q.filter p).map LsqEntry.seq).Pairwise (· < ·) :=
  h.sublist (filter_sublist.map _)

/-- **`eraseLSQ`**: the counters follow the queue, unless a store to the address zero leaves
while block zero is tracked. -/
theorem eraseLSQ_spec (h : Accounted u s)
    (hz : ∀ e, s.find k = some e → zeroStore e = true → writers u s.theMemQueue 0 = 0) :
    ∃ t, s.eraseLSQ u k = .ok t ∧ Accounted u t ∧ SameOrder s t ∧
      t.theMemQueue = Keyed.erase LsqEntry.seq s.theMemQueue k ∧
      ∀ b, writers u t.theMemQueue b ≠ 0 → permOf t.theLines b = permOf s.theLines b := by
  cases hk : s.find k with
  | none =>
    refine ⟨s, by rw [eraseLSQ, hk], h, SameOrder.refl s, ?_, fun _ _ => rfl⟩
    rw [Keyed.erase, filter_eq_self.mpr]
    intro e he
    simpa using Keyed.lookup_eq_none.mp hk e he
  | some e =>
    obtain ⟨n₁, n₂, n₃, hun, h₁, h₂, h₃⟩ := uncount_spec h hk
    have hzero : (∃ e' ∈ [e], zeroStore e' = true) →
        writers u s.theMemQueue 0 ≤ writers u [e] 0 := by
      rintro ⟨e', he', hze⟩
      rw [mem_singleton] at he'
      subst he'
      rw [hz e' hk hze]
      exact Nat.zero_le _
    have hw : ∀ b, writers u (Keyed.erase LsqEntry.seq s.theMemQueue k) b =
        writers u s.theMemQueue b - if releases u b e then 1 else 0 := by
      intro b
      have hcp := Keyed.countP_erase h.nodup hk (writes u b)
      have hrel := countP_releases hzero b
      rw [countP_singleton, writers, writers, countP_singleton] at hrel
      rw [writers, writers, hrel, hcp]
      omega
    obtain ⟨ls, n, hok, hlines, hperm⟩ := release_spec (u := u)
      (s := { s with theLSQCount := n₁, theSBCount := n₂, theSBNAWCount := n₃ }) h.lines e
    refine ⟨{ s with
      theLSQCount := n₁, theSBCount := n₂, theSBNAWCount := n₃, theLines := ls, theFalsecount := n
      theMemQueue := Keyed.erase LsqEntry.seq s.theMemQueue k }, ?_,
      ⟨?_, ?_, ?_, h₁, h₂, h₃, hlines.congr hw⟩, ⟨rfl, rfl, rfl, rfl, rfl⟩, rfl, ?_⟩
    · have hcheck : (s.uncount e).checkCounts = .ok (s.uncount e) := by
        have hp₁ : 0 ≤ n₁ := by omega
        have hp₂ : 0 ≤ n₂ := by omega
        have hp₃ : 0 ≤ n₃ := by omega
        rw [hun]
        exact checkCounts_eq hp₁ hp₂ hp₃
      simp only [eraseLSQ, hk, hcheck]
      rw [hun]
      simp only [hok, bind, Except.bind]
      exact checkSize_eq h₁ h₂ h₃
    · exact pairwise_filter_seq h.ids _
    · intro e' he'
      exact h.bound e' (mem_of_mem_filter he')
    · intro e' he'
      exact h.plain e' (mem_of_mem_filter he')
    · intro b hb
      exact hperm b ((hw b) ▸ hb)

/-! ### Changes of entries -/

/-- Entries that count alike. -/
structure Alike (e e' : LsqEntry) : Prop where
  seq : e'.seq = e.seq
  queue : e'.theQueue = .kLSQ ↔ e.theQueue = .kLSQ
  op : e'.theOperation = e.theOperation
  bypass : e'.theBypassSB = e.theBypassSB
  paddr : e.theQueue ≠ .kLSQ → e'.thePaddr = e.thePaddr

variable {e' : LsqEntry} {f : LsqEntry → LsqEntry}

theorem Alike.inLSQ_eq (h : Alike e e') : inLSQ e' = inLSQ e := by
  rw [Bool.eq_iff_iff, inLSQ, inLSQ, beq_iff_eq, beq_iff_eq]
  exact h.queue

theorem Alike.bne_eq (h : Alike e e') : (e'.theQueue != .kLSQ) = (e.theQueue != .kLSQ) := by
  rw [Bool.eq_iff_iff, bne_iff_ne, bne_iff_ne]
  exact not_congr h.queue

theorem Alike.inSB_eq (h : Alike e e') : inSB e' = inSB e := by
  rw [inSB, inSB, h.bne_eq, h.bypass]

theorem Alike.inSBNAW_eq (h : Alike e e') : inSBNAW e' = inSBNAW e := by
  rw [inSBNAW, inSBNAW, h.bne_eq, h.bypass]

theorem Alike.isStore_eq (h : Alike e e') : e'.isStore = e.isStore := by
  rw [MemQueueEntry.isStore, MemQueueEntry.isStore, h.op]

theorem Alike.writes_eq (h : Alike e e') (b : ℕ) : writes u b e' = writes u b e := by
  rw [writes, writes, h.bne_eq, h.isStore_eq]
  by_cases hq : e.theQueue = .kLSQ
  · simp [hq]
  · rw [h.paddr hq]

/-- A change of an entry does not change a count of entries that it leaves alike. -/
theorem countP_modify {p : LsqEntry → Bool} (h : (s.theMemQueue.map LsqEntry.seq).Nodup)
    (hp : ∀ e, s.find k = some e → p (f e) = p e) :
    (s.modify k f).theMemQueue.countP p = s.theMemQueue.countP p := by
  cases hk : s.find k with
  | none =>
    rw [modify, Keyed.update_of_lookup_none hk]
  | some e =>
    have := Keyed.countP_update (f := f) h hk p
    rw [hp e hk] at this
    exact Nat.add_right_cancel this

theorem mem_modify (h : Accounted u s) :
    e' ∈ (s.modify k f).theMemQueue ↔
      (e' ∈ s.theMemQueue ∧ e'.seq ≠ k) ∨ ∃ e ∈ s.theMemQueue, e.seq = k ∧ e' = f e :=
  Keyed.mem_update h.nodup

/-- **A change that leaves an entry alike** keeps the counters. -/
theorem Accounted.modify (h : Accounted u s) (hf : ∀ e, (f e).seq = e.seq)
    (ha : ∀ e, s.find k = some e → Alike e (f e)) : Accounted u (s.modify k f) := by
  have ha' : ∀ e ∈ s.theMemQueue, e.seq = k → Alike e (f e) := by
    intro e he hek
    exact ha e (hek ▸ h.find_of_mem he)
  refine ⟨?_, ?_, ?_, ?_, ?_, ?_, ?_⟩
  · rw [SbCore.modify, Keyed.keys_update hf]
    exact h.ids
  · intro e' he'
    rcases (mem_modify h).mp he' with ⟨he, _⟩ | ⟨e, he, hek, rfl⟩
    · exact h.bound e' he
    · rw [hf]
      exact h.bound e he
  · intro e' he'
    rcases (mem_modify h).mp he' with ⟨he, _⟩ | ⟨e, he, hek, rfl⟩
    · exact h.plain e' he
    · have hal := ha' e he hek
      rw [hal.queue, hal.op, hal.bypass]
      exact h.plain e he
  · rw [countP_modify h.nodup fun e he => (ha e he).inLSQ_eq]
    exact h.lsq
  · rw [countP_modify h.nodup fun e he => (ha e he).inSB_eq]
    exact h.sb
  · rw [countP_modify h.nodup fun e he => (ha e he).inSBNAW_eq]
    exact h.sbnaw
  · refine h.lines.congr ?_
    intro b
    exact countP_modify h.nodup fun e he => (ha e he).writes_eq b

theorem writers_append (q : List LsqEntry) (hq : e.theQueue = .kLSQ) (b : ℕ) :
    writers u (q ++ [e]) b = writers u q b := by
  simp [writers, countP_append, writes, hq]

/-- **A new entry** counts for the LSQ. -/
theorem Accounted.append (h : Accounted u s) (hq : e.theQueue = .kLSQ)
    (hnum : s.theMemorySequenceNum < e.seq)
    (hplain : e.theOperation ≠ .kStore → e.theBypassSB = false) :
    Accounted u { s with
      theMemorySequenceNum := e.seq
      theLSQCount := s.theLSQCount + 1
      theMemQueue := s.theMemQueue ++ [e] } := by
  have hl := h.lsq
  refine ⟨?_, ?_, ?_, ?_, ?_, ?_, h.lines.congr (writers_append s.theMemQueue hq)⟩
  · rw [map_append, pairwise_append]
    refine ⟨h.ids, pairwise_singleton _ _, ?_⟩
    intro x hx y hy
    obtain ⟨e', he', rfl⟩ := mem_map.mp hx
    rw [map_singleton, mem_singleton] at hy
    have hb := h.bound e' he'
    omega
  · intro e' he'
    rcases mem_append.mp he' with he' | he'
    · exact Nat.le_trans (h.bound e' he') (Nat.le_of_lt hnum)
    · exact Nat.le_of_eq (congrArg LsqEntry.seq (mem_singleton.mp he'))
  · intro e' he' hq' hop
    rcases mem_append.mp he' with he' | he'
    · exact h.plain e' he' hq' hop
    · rw [mem_singleton.mp he'] at hop ⊢
      exact hplain hop
  · have hone : inLSQ e = true := by simp [inLSQ, hq]
    rw [countP_append, countP_singleton, if_pos hone]
    show s.theLSQCount + 1 = _
    omega
  · have hnone : inSB e = false := by simp [inSB, hq]
    simpa [countP_append, countP_singleton, hnone] using h.sb
  · have hnone : inSBNAW e = false := by simp [inSBNAW, hq]
    simpa [countP_append, countP_singleton, hnone] using h.sbnaw

theorem Accounted.checkSize (h : Accounted u s) : s.checkSize = .ok s :=
  checkSize_eq h.lsq h.sb h.sbnaw

theorem Accounted.checkCounts (h : Accounted u s) : s.checkCounts = .ok s := by
  have hl := h.lsq
  have hs := h.sb
  have hn := h.sbnaw
  refine checkCounts_eq ?_ ?_ ?_ <;> omega

theorem insertLSQ_spec (h : Accounted u s) (gap : ℕ) (op : MemOperation) (size : Size)
    (bypassSB dependance : Bool) :
    ∃ e : LsqEntry, e.theQueue = .kLSQ ∧ s.theMemorySequenceNum < e.seq ∧
      s.insertLSQ gap op size bypassSB dependance = .ok { s with
        theMemorySequenceNum := e.seq
        theLSQCount := s.theLSQCount + 1
        theMemQueue := s.theMemQueue ++ [e] } ∧
      Accounted u { s with
        theMemorySequenceNum := e.seq
        theLSQCount := s.theLSQCount + 1
        theMemQueue := s.theMemQueue ++ [e] } := by
  have hnum : s.theMemorySequenceNum < s.theMemorySequenceNum + gap + 1 := by omega
  have hacc := h.append (e :=
    { theSequenceNum := s.theMemorySequenceNum + gap + 1, thePaddr := kUnresolved
      theOperation := op, theSize := size, theBypassSB := bypassSB && op == .kStore
      theDependance := dependance }) rfl hnum (by intro hop; simpa using fun _ => hop)
  refine ⟨_, ?_, ?_, hacc.checkSize, hacc⟩
  · rfl
  · exact hnum

/-! ### Retirement -/

/-- A core with an entry that has moved to the SSB. -/
def moved (s : SbCore) (k : ℕ) (f : LsqEntry → LsqEntry) (naw : Bool) : SbCore :=
  { s.modify k f with
    theLSQCount := s.theLSQCount - 1
    theSBCount := if naw then s.theSBCount else s.theSBCount + 1
    theSBNAWCount := if naw then s.theSBNAWCount + 1 else s.theSBNAWCount }

/-- What happens to an entry as it moves to the SSB. -/
structure Moves (f : LsqEntry → LsqEntry) (e : LsqEntry) (naw : Bool) : Prop where
  seq : ∀ e, (f e).seq = e.seq
  queue : (f e).theQueue = .kSSB
  bypass : (f e).theBypassSB = naw
  op : (f e).theOperation = e.theOperation
  paddr : (f e).thePaddr = e.thePaddr

variable {naw : Bool}

theorem writers_moved (h : Accounted u s) (hk : s.find k = some e) (hq : e.theQueue = .kLSQ)
    (b : ℕ) : writers u (s.moved k f naw).theMemQueue b =
      writers u s.theMemQueue b + if writes u b (f e) then 1 else 0 := by
  have hcp := Keyed.countP_update (f := f) h.nodup hk (writes u b)
  have hno : writes u b e = false := by simp [writes, hq]
  rw [hno] at hcp
  exact hcp

/-- **An entry that moves to the SSB counts there**, and the counters are right as soon as the
lines are. -/
theorem Accounted.moved (h : Accounted u s) (hk : s.find k = some e) (hq : e.theQueue = .kLSQ)
    (hf : Moves f e naw) (hl : LinesFor ls n (writers u (s.moved k f naw).theMemQueue)) :
    Accounted u { s.moved k f naw with theLines := ls, theFalsecount := n } := by
  have hlsq := h.lsq
  have hsb := h.sb
  have hnaw := h.sbnaw
  have h1 := Keyed.countP_update (f := f) h.nodup hk inLSQ
  have h2 := Keyed.countP_update (f := f) h.nodup hk inSB
  have h3 := Keyed.countP_update (f := f) h.nodup hk inSBNAW
  simp only [inLSQ, inSB, inSBNAW, hf.queue, hf.bypass, hq] at h1 h2 h3
  refine ⟨?_, ?_, ?_, ?_, ?_, ?_, hl⟩
  · show ((s.modify k f).theMemQueue.map LsqEntry.seq).Pairwise (· < ·)
    rw [SbCore.modify, Keyed.keys_update hf.seq]
    exact h.ids
  · intro e' he'
    rcases (mem_modify h).mp he' with ⟨he, _⟩ | ⟨e, he, hek, rfl⟩
    · exact h.bound e' he
    · rw [hf.seq]
      exact h.bound e he
  · intro e' he' hq'
    rcases (mem_modify h).mp he' with ⟨he, _⟩ | ⟨e₁, he, hek, rfl⟩
    · exact h.plain e' he hq'
    · have heq := h.eq_of_seq he (mem_of_find hk) (hek.trans (seq_of_find hk).symm)
      rw [heq, hf.queue] at hq'
      cases hq'
  · show s.theLSQCount - 1 = ((s.modify k f).theMemQueue.countP inLSQ : ℕ)
    have h1' : (s.modify k f).theMemQueue.countP inLSQ + 1 = s.theMemQueue.countP inLSQ := h1
    omega
  · show (if naw then s.theSBCount else s.theSBCount + 1) =
      ((s.modify k f).theMemQueue.countP inSB : ℕ)
    cases naw with
    | true =>
      have h2' : (s.modify k f).theMemQueue.countP inSB = s.theMemQueue.countP inSB := h2
      rw [if_pos rfl, h2', hsb]
    | false =>
      have h2' : (s.modify k f).theMemQueue.countP inSB = s.theMemQueue.countP inSB + 1 := h2
      rw [if_neg Bool.false_ne_true, h2']
      omega
  · show (if naw then s.theSBNAWCount + 1 else s.theSBNAWCount) =
      ((s.modify k f).theMemQueue.countP inSBNAW : ℕ)
    cases naw with
    | true =>
      have h3' : (s.modify k f).theMemQueue.countP inSBNAW =
        s.theMemQueue.countP inSBNAW + 1 := h3
      rw [if_pos rfl, h3']
      omega
    | false =>
      have h3' : (s.modify k f).theMemQueue.countP inSBNAW =
        s.theMemQueue.countP inSBNAW := h3
      rw [if_neg Bool.false_ne_true, h3', hnaw]

/-- No assertion about the counts fails as an entry moves to the SSB. -/
theorem checkCounts_moveToSSB (h : Accounted u s) (hk : s.find k = some e)
    (hq : e.theQueue = .kLSQ) (naw : Bool) :
    (s.moveToSSB k naw).checkCounts = .ok (s.moveToSSB k naw) := by
  have hpos : 0 < s.theMemQueue.countP inLSQ := by
    rw [countP_pos_iff]
    exact ⟨e, mem_of_find hk, by simp [inLSQ, hq]⟩
  have hlsq := h.lsq
  have hsb := h.sb
  have hnaw := h.sbnaw
  refine checkCounts_eq ?_ ?_ ?_
  · show 0 ≤ s.theLSQCount - 1
    omega
  · show 0 ≤ if naw then s.theSBCount else s.theSBCount + 1
    split <;> omega
  · show 0 ≤ if naw then s.theSBNAWCount + 1 else s.theSBNAWCount
    split <;> omega

/-! ### Clearing -/

/-- **The counters are those of the queue**, in whatever order it is. -/
structure Counted (u : BitVec 64) (s : SbCore) : Prop where
  lsq : s.theLSQCount = s.theMemQueue.countP inLSQ
  sb : s.theSBCount = s.theMemQueue.countP inSB
  sbnaw : s.theSBNAWCount = s.theMemQueue.countP inSBNAW
  lines : LinesFor s.theLines s.theFalsecount (writers u s.theMemQueue)

theorem Accounted.counted (h : Accounted u s) : Counted u s := ⟨h.lsq, h.sb, h.sbnaw, h.lines⟩

/-- The counters without some entries of the SSB. -/
structure CountedWithout (s : SbCore) (p : LsqEntry → Bool) : Prop where
  lsq : s.theLSQCount = (s.theMemQueue.filter fun e => !p e).countP inLSQ
  sb : s.theSBCount - ((s.theMemQueue.filter p).countP fun e => !e.theBypassSB : ℕ) =
    (s.theMemQueue.filter fun e => !p e).countP inSB
  sbnaw : s.theSBNAWCount - ((s.theMemQueue.filter p).countP fun e => e.theBypassSB : ℕ) =
    (s.theMemQueue.filter fun e => !p e).countP inSBNAW

theorem Counted.without (h : Counted u s) {p : LsqEntry → Bool}
    (hp : ∀ e ∈ s.theMemQueue, p e = true → e.theQueue = .kSSB) : CountedWithout s p := by
  have hsplit := fun q : LsqEntry → Bool => countP_eq_countP_filter_add s.theMemQueue q p
  have hmemp : ∀ e ∈ s.theMemQueue.filter p, e.theQueue = .kSSB := by
    intro e he
    exact hp e (mem_filter.mp he).1 (mem_filter.mp he).2
  constructor
  · have hcongr : (s.theMemQueue.filter p).countP inLSQ = 0 :=
      countP_eq_zero.mpr fun e he => by simp [inLSQ, hmemp e he]
    have hs := h.lsq
    have hsum := hsplit inLSQ
    omega
  · have hcongr : (s.theMemQueue.filter p).countP inSB =
        (s.theMemQueue.filter p).countP fun e => !e.theBypassSB :=
      countP_congr fun e he => by simp [inSB, hmemp e he]
    have hs := h.sb
    have hsum := hsplit inSB
    omega
  · have hcongr : (s.theMemQueue.filter p).countP inSBNAW =
        (s.theMemQueue.filter p).countP fun e => e.theBypassSB :=
      countP_congr fun e he => by simp [inSBNAW, hmemp e he]
    have hs := h.sbnaw
    have hsum := hsplit inSBNAW
    omega

/-- **Entries of the SSB are erased**, those that are released. -/
theorem eraseSSB_spec (h : Accounted u s) {p q : LsqEntry → Bool}
    (hp : ∀ e ∈ s.theMemQueue, p e = true → e.theQueue = .kSSB)
    (hq : ∀ e ∈ s.theMemQueue, q e = p e)
    (hz : (∃ e ∈ s.theMemQueue, p e = true ∧ zeroStore e = true) →
      ∀ e ∈ s.theMemQueue, writes u 0 e = true → p e = true) :
    ∃ t, s.eraseSSB u q (s.theMemQueue.filter p) = .ok t ∧ Accounted u t ∧ SameOrder s t ∧
      t.theMemQueue = s.theMemQueue.filter (fun e => !p e) ∧
      ∀ b, writers u t.theMemQueue b ≠ 0 → permOf t.theLines b = permOf s.theLines b := by
  have hsplit := fun q : LsqEntry → Bool => countP_eq_countP_filter_add s.theMemQueue q p
  obtain ⟨ls, n, hok, hlines, hperm⟩ :=
    releaseAll_spec (u := u) (s.theMemQueue.filter p) h.lines
  have hzero : (∃ e ∈ s.theMemQueue.filter p, zeroStore e = true) →
      writers u s.theMemQueue 0 ≤ writers u (s.theMemQueue.filter p) 0 := by
    rintro ⟨e, he, hze⟩
    obtain ⟨hmem, hpe⟩ := mem_filter.mp he
    have hall := hz ⟨e, hmem, hpe, hze⟩
    rw [writers, writers, countP_filter]
    refine countP_mono_left ?_
    intro e' he' hw
    rw [hw, hall e' he' hw]
    rfl
  have hw : ∀ b, writers u (s.theMemQueue.filter fun e => !p e) b =
      writers u s.theMemQueue b - (s.theMemQueue.filter p).countP (releases u b) := by
    intro b
    rw [countP_releases hzero b, writers, writers, writers, hsplit (writes u b)]
    omega
  obtain ⟨hlsq, hsb, hsbnaw⟩ := h.counted.without hp
  have hacc : Accounted u { s with
      theMemQueue := s.theMemQueue.filter fun e => !p e
      theSBCount := s.theSBCount - (s.theMemQueue.filter p).countP fun e => !e.theBypassSB
      theSBNAWCount := s.theSBNAWCount - (s.theMemQueue.filter p).countP fun e => e.theBypassSB
      theLines := ls, theFalsecount := n } := by
    refine ⟨pairwise_filter_seq h.ids _, ?_, ?_, hlsq, hsb, hsbnaw, hlines.congr hw⟩
    · intro e he
      exact h.bound e (mem_of_mem_filter he)
    · intro e he
      exact h.plain e (mem_of_mem_filter he)
  refine ⟨_, ?_, hacc, ⟨rfl, rfl, rfl, rfl, rfl⟩, rfl, ?_⟩
  · have hsame : (s.theMemQueue.filter fun e => !q e) = s.theMemQueue.filter fun e => !p e :=
      filter_congr fun e he => by rw [hq e he]
    simp only [eraseSSB, hok, bind, Except.bind, hsame]
    rw [hacc.checkCounts]
    exact hacc.checkSize
  · intro b hb
    exact hperm b ((hw b) ▸ hb)

/-- **`clearLSQ`**. -/
theorem clearLSQ_spec (h : Accounted u s) :
    ∃ t, s.clearLSQ = .ok t ∧ Accounted u t ∧ SameOrder s t ∧
      t.theMemQueue = s.theMemQueue.filter (fun e => e.theQueue != .kLSQ) ∧
      t.theLines = s.theLines := by
  have hkeep : ∀ q : LsqEntry → Bool, (∀ e, q e = true → e.theQueue ≠ .kLSQ) →
      (s.theMemQueue.filter fun e => e.theQueue != .kLSQ).countP q = s.theMemQueue.countP q := by
    intro q hq
    rw [countP_filter]
    refine countP_congr fun e _ => ?_
    rw [Bool.and_eq_true, bne_iff_ne]
    exact ⟨And.left, fun h => ⟨h, hq e h⟩⟩
  have hacc : Accounted u { s with
      theMemQueue := s.theMemQueue.filter fun e => e.theQueue != .kLSQ
      theLSQCount := 0 } := by
    refine ⟨pairwise_filter_seq h.ids _, ?_, ?_, ?_, ?_, ?_, h.lines.congr ?_⟩
    · intro e he
      exact h.bound e (mem_of_mem_filter he)
    · intro e he
      exact h.plain e (mem_of_mem_filter he)
    · have hnone : (s.theMemQueue.filter fun e => e.theQueue != .kLSQ).countP inLSQ = 0 := by
        rw [countP_eq_zero]
        intro e he
        have hne := (mem_filter.mp he).2
        rw [bne_iff_ne] at hne
        simp [inLSQ, hne]
      rw [hnone]
      rfl
    · rw [hkeep inSB fun e he => by simp [inSB] at he; exact he.1]
      exact h.sb
    · rw [hkeep inSBNAW fun e he => by simp [inSBNAW] at he; exact he.1]
      exact h.sbnaw
    · intro b
      exact hkeep (writes u b) fun e he => by simp [writes] at he; exact he.1.1.1
  exact ⟨_, hacc.checkSize, hacc, ⟨rfl, rfl, rfl, rfl, rfl⟩, rfl, rfl⟩

end SbCore

end UArch

end Flexus
