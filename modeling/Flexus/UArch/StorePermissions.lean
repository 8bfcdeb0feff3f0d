import Flexus.UArch.StoreLines

/-!
# What checkpoints hold of the store buffer

A checkpoint may hold a permission only while the line of the block is there. The lines follow
the queue (`Flexus.UArch.SbCore.Accounted`), so the entry that made the checkpoint require the
permission has to outlive the checkpoint. It does so because instructions commit in order: the
instruction of the checkpoint comes first, and the checkpoint goes with it.

Two invariants say this. `Flexus.UArch.SbCore.Ordered` relates the retired instructions to their
entries, and `Flexus.UArch.SbCore.Covered` says of a checkpoint that the blocks it requires are
written by entries of instructions that have retired since. This module is about the steps that
take no instruction into or out of the retirement buffer.
-/

namespace Flexus

namespace UArch

open Flexus.Lib

namespace SbCore

variable {u : BitVec 64} {cm : ConsistencyModel} {s t : SbCore} {k b : ℕ} {e e' : LsqEntry}
  {c : StoreCheckpoint}

/-! ### The invariants -/

/-- **An instruction has retired**, and not committed. -/
def Retired (s : SbCore) (k : ℕ) : Prop := ∃ x ∈ s.theSRB, x.seq = k

/-- **Retired instructions and their entries.** Instructions retire in order. One that may not
commit has its entry in the SSB; an entry that is in the SB already is that of an atomic
operation whose checkpoint has been resolved in this cycle, and which will commit in it. -/
structure Ordered (s : SbCore) : Prop where
  sorted : (s.theSRB.map RetiredInsn.seq).Pairwise (· < ·)
  known : ∀ x ∈ s.theSRB, x.seq ≤ s.theMemorySequenceNum
  lsq : ∀ x ∈ s.theSRB, ∀ e ∈ s.theMemQueue, e.theQueue = .kLSQ → x.seq < e.seq
  ops : ∀ x ∈ s.theSRB, ∀ e ∈ s.theMemQueue, e.seq = x.seq → e.theOperation = x.theOperation
  blocked : ∀ x ∈ s.theSRB, x.mayCommit = false →
    ∃ e ∈ s.theMemQueue, e.seq = x.seq ∧ e.theQueue = .kSSB
  performed : ∀ e ∈ s.theMemQueue, e.theQueue = .kSB → ∀ x ∈ s.theSRB, x.seq = e.seq →
    s.resolving = true ∧ e.isAtomic = true ∧ ∀ y ∈ s.theSRB, y.seq ≤ e.seq → y.mayCommit = true

/-- **An instruction has retired under a checkpoint**: it is the one of the checkpoint or a later
one, and older than those of later checkpoints. -/
def Under (s : SbCore) (c : StoreCheckpoint) (i : ℕ) : Prop :=
  c.insn ≤ i ∧ s.Retired i ∧ ∀ c' ∈ s.theCheckpoints, c.insn < c'.insn → i < c'.insn

/-- **What a checkpoint requires is written**, by the entries of instructions that have retired
under it; what it holds is required, and the permission is there. -/
structure Covered (u : BitVec 64) (s : SbCore) (c : StoreCheckpoint) : Prop where
  retired : s.Retired c.insn
  own : (∃ e ∈ s.theMemQueue, e.seq = c.insn ∧ e.theQueue = .kSSB) ∨
    ∀ e ∈ s.theMemQueue, c.insn ≤ e.seq
  opened : ∀ k, s.theOpenCheckpoint = some k → c.insn ≤ k
  required : ∀ r ∈ c.theRequiredPermissions,
    s.Under c r.2 ∧ ∃ e ∈ s.theMemQueue, e.seq = r.2 ∧ writes u r.1 e = true
  distinct : c.theHeldPermissions.Nodup
  held : ∀ b ∈ c.theHeldPermissions, (∃ r ∈ c.theRequiredPermissions, r.1 = b) ∧
    permOf s.theLines b = true

/-- **The invariant.** -/
structure Sound (u : BitVec 64) (s : SbCore) : Prop where
  accounted : Accounted u s
  ordered : Ordered s
  covered : ∀ c ∈ s.theCheckpoints, Covered u s c

theorem Ordered.ne_lsq (h : Ordered s) (he : e ∈ s.theMemQueue) (hr : s.Retired e.seq) :
    e.theQueue ≠ .kLSQ := by
  intro hq
  obtain ⟨x, hx, hxe⟩ := hr
  have := h.lsq x hx e he hq
  omega

theorem Ordered.known_of_retired (h : Ordered s) (hr : s.Retired k) :
    k ≤ s.theMemorySequenceNum := by
  obtain ⟨x, hx, rfl⟩ := hr
  exact h.known x hx

theorem writers_ne_zero (he : e ∈ s.theMemQueue) (hw : writes u b e = true) :
    writers u s.theMemQueue b ≠ 0 := by
  have hpos : 0 < writers u s.theMemQueue b := List.countP_pos_iff.mpr ⟨e, he, hw⟩
  omega

theorem isStore_of_writes (h : writes u b e = true) : e.isStore = true := by
  simp only [writes, Bool.and_eq_true] at h
  exact h.1.1.2

theorem Covered.under_self (h : Covered u s c) : s.Under c c.insn :=
  ⟨Nat.le_refl _, h.retired, fun _ _ hlt => hlt⟩

/-- **A checkpoint stays covered** if what has retired under it does, with its entries in the
store buffer, and if blocks with a writer keep their permission. -/
theorem Covered.of (h : Covered u s c) (hunder : ∀ i, s.Under c i → t.Under c i)
    (hstays : ∀ e ∈ s.theMemQueue, s.Under c e.seq → e.isStore = true →
      ∃ e' ∈ t.theMemQueue, Alike e e')
    (hown : ∀ e ∈ s.theMemQueue, e.seq = c.insn → e.theQueue = .kSSB →
      (∃ e' ∈ t.theMemQueue, e'.seq = c.insn ∧ e'.theQueue = .kSSB) ∨
        ∀ e' ∈ t.theMemQueue, c.insn ≤ e'.seq)
    (hsource : ∀ e' ∈ t.theMemQueue,
      (∃ e ∈ s.theMemQueue, e'.seq = e.seq) ∨ c.insn ≤ e'.seq)
    (hopened : ∀ k, t.theOpenCheckpoint = some k → c.insn ≤ k)
    (hperm : ∀ b, writers u t.theMemQueue b ≠ 0 → permOf t.theLines b = permOf s.theLines b) :
    Covered u t c where
  retired := (hunder c.insn h.under_self).2.1
  own := by
    rcases h.own with ⟨e, he, hseq, hq⟩ | hall
    · exact hown e he hseq hq
    · refine Or.inr fun e' he' => ?_
      rcases hsource e' he' with ⟨e, he, hseq⟩ | hle
      · rw [hseq]
        exact hall e he
      · exact hle
  opened := hopened
  required r hr := by
    obtain ⟨hu, e, he, hseq, hw⟩ := h.required r hr
    obtain ⟨e', he', hk⟩ := hstays e he (hseq ▸ hu) (isStore_of_writes hw)
    exact ⟨hunder _ hu, e', he', hk.seq.trans hseq, (hk.writes_eq r.1).trans hw⟩
  distinct := h.distinct
  held b hb := by
    obtain ⟨⟨r, hr, rfl⟩, hp⟩ := h.held b hb
    obtain ⟨hu, e, he, hseq, hw⟩ := h.required r hr
    obtain ⟨e', he', hk⟩ := hstays e he (hseq ▸ hu) (isStore_of_writes hw)
    have hne := writers_ne_zero he' ((hk.writes_eq r.1).trans hw)
    exact ⟨⟨r, hr, rfl⟩, (hperm r.1 hne).trans hp⟩

/-! ### Steps besides retirement -/

/-- An entry that stays in its queue. -/
structure Kept (e e' : LsqEntry) : Prop where
  alike : Alike e e'
  queue : e'.theQueue = e.theQueue

theorem Alike.refl (e : LsqEntry) : Alike e e := ⟨rfl, Iff.rfl, rfl, rfl, fun _ => rfl⟩

theorem Kept.refl (e : LsqEntry) : Kept e e := ⟨Alike.refl e, rfl⟩

theorem Alike.isAtomic_eq (h : Alike e e') : e'.isAtomic = e.isAtomic := by
  rw [MemQueueEntry.isAtomic, MemQueueEntry.isAtomic, h.op]

/-- **What a step leaves alone** that takes no instruction into or out of the retirement buffer:
entries of the SSB and of retired instructions stay, new ones are in the LSQ, and blocks with a
writer keep their permission. -/
structure Frame (u : BitVec 64) (s t : SbCore) : Prop where
  num : s.theMemorySequenceNum ≤ t.theMemorySequenceNum
  srb : t.theSRB = s.theSRB
  checkpoints : t.theCheckpoints = s.theCheckpoints
  opened : t.theOpenCheckpoint = s.theOpenCheckpoint
  resolving : t.resolving = s.resolving
  source : ∀ e' ∈ t.theMemQueue, (∃ e ∈ s.theMemQueue, Kept e e') ∨
    (s.theMemorySequenceNum < e'.seq ∧ e'.theQueue = .kLSQ)
  stays : ∀ e ∈ s.theMemQueue, e.theQueue = .kSSB ∨ s.Retired e.seq →
    ∃ e' ∈ t.theMemQueue, Kept e e'
  permissions : ∀ b, writers u t.theMemQueue b ≠ 0 → permOf t.theLines b = permOf s.theLines b

theorem Frame.retired (h : Frame u s t) (hk : s.Retired k) : t.Retired k := by
  obtain ⟨x, hx, hxk⟩ := hk
  exact ⟨x, h.srb ▸ hx, hxk⟩

theorem Ordered.frame (h : Ordered s) (hf : Frame u s t) : Ordered t where
  sorted := by
    rw [hf.srb]
    exact h.sorted
  known x hx := by
    rw [hf.srb] at hx
    exact Nat.le_trans (h.known x hx) hf.num
  lsq x hx e' he' hq := by
    rw [hf.srb] at hx
    rcases hf.source e' he' with ⟨e, he, hk⟩ | ⟨hnew, _⟩
    · rw [hk.alike.seq]
      exact h.lsq x hx e he (hk.queue ▸ hq)
    · have := h.known x hx
      omega
  ops x hx e' he' hseq := by
    rw [hf.srb] at hx
    rcases hf.source e' he' with ⟨e, he, hk⟩ | ⟨hnew, _⟩
    · rw [hk.alike.op]
      exact h.ops x hx e he (hk.alike.seq ▸ hseq)
    · have := h.known x hx
      omega
  blocked x hx hm := by
    rw [hf.srb] at hx
    obtain ⟨e, he, hseq, hq⟩ := h.blocked x hx hm
    obtain ⟨e', he', hk⟩ := hf.stays e he (Or.inl hq)
    exact ⟨e', he', hk.alike.seq.trans hseq, hk.queue.trans hq⟩
  performed e' he' hq x hx hxe := by
    rw [hf.srb] at hx ⊢
    rcases hf.source e' he' with ⟨e, he, hk⟩ | ⟨_, hlsq⟩
    · rw [hk.alike.isAtomic_eq, hf.resolving, hk.alike.seq]
      exact h.performed e he (hk.queue ▸ hq) x hx (hk.alike.seq ▸ hxe)
    · rw [hlsq] at hq
      cases hq

theorem Covered.frame (h : Covered u s c) (ho : Ordered s) (hf : Frame u s t) :
    Covered u t c := by
  refine h.of ?_ ?_ ?_ ?_ ?_ hf.permissions
  · rintro i ⟨hle, hret, hlater⟩
    refine ⟨hle, hf.retired hret, ?_⟩
    rw [hf.checkpoints]
    exact hlater
  · intro e he hu _
    obtain ⟨e', he', hk⟩ := hf.stays e he (Or.inr hu.2.1)
    exact ⟨e', he', hk.alike⟩
  · intro e he hseq hq
    obtain ⟨e', he', hk⟩ := hf.stays e he (Or.inl hq)
    exact Or.inl ⟨e', he', hk.alike.seq.trans hseq, hk.queue.trans hq⟩
  · intro e' he'
    rcases hf.source e' he' with ⟨e, he, hk⟩ | ⟨hnew, _⟩
    · exact Or.inl ⟨e, he, hk.alike.seq⟩
    · have := ho.known_of_retired h.retired
      omega
  · rw [hf.opened]
    exact h.opened

theorem Sound.frame (h : Sound u s) (hf : Frame u s t) (ht : Accounted u t) : Sound u t := by
  refine ⟨ht, h.ordered.frame hf, ?_⟩
  intro c hc
  rw [hf.checkpoints] at hc
  exact (h.covered c hc).frame h.ordered hf

theorem Frame.modify {f : LsqEntry → LsqEntry} (h : Accounted u s)
    (hk : ∀ e, s.find k = some e → Kept e (f e)) : Frame u s (s.modify k f) := by
  have hk' : ∀ e ∈ s.theMemQueue, e.seq = k → Kept e (f e) := by
    intro e he hek
    exact hk e (hek ▸ h.find_of_mem he)
  refine ⟨Nat.le_refl _, rfl, rfl, rfl, rfl, ?_, ?_, fun _ _ => rfl⟩
  · intro e' he'
    left
    rcases (mem_modify h).mp he' with ⟨he, _⟩ | ⟨e, he, hek, rfl⟩
    · exact ⟨e', he, Kept.refl e'⟩
    · exact ⟨e, he, hk' e he hek⟩
  · intro e he _
    by_cases hek : e.seq = k
    · exact ⟨f e, (mem_modify h).mpr (Or.inr ⟨e, he, hek, rfl⟩), hk' e he hek⟩
    · exact ⟨e, (mem_modify h).mpr (Or.inl ⟨he, hek⟩), Kept.refl e⟩

theorem Sound.modify {f : LsqEntry → LsqEntry} (h : Sound u s) (hf : ∀ e, (f e).seq = e.seq)
    (hk : ∀ e, s.find k = some e → Kept e (f e)) : Sound u (s.modify k f) :=
  h.frame (Frame.modify h.accounted hk) (h.accounted.modify hf fun e he => (hk e he).alike)

/-- **An entry leaves the queue** that is not in the SSB, and whose instruction has not retired
or has committed. -/
theorem Frame.erase (ho : SameOrder s t)
    (hq : t.theMemQueue = Keyed.erase LsqEntry.seq s.theMemQueue k)
    (hp : ∀ b, writers u t.theMemQueue b ≠ 0 → permOf t.theLines b = permOf s.theLines b)
    (hk : ∀ e ∈ s.theMemQueue, e.seq = k → e.theQueue ≠ .kSSB ∧ ¬s.Retired e.seq) :
    Frame u s t := by
  refine ⟨Nat.le_of_eq ho.num.symm, ho.srb, ho.checkpoints, ho.opened, ho.resolving, ?_, ?_, hp⟩
  · intro e he
    rw [hq] at he
    exact Or.inl ⟨e, List.mem_of_mem_filter he, Kept.refl e⟩
  · intro e he hcase
    refine ⟨e, ?_, Kept.refl e⟩
    rw [hq, Keyed.erase, List.mem_filter, bne_iff_ne]
    refine ⟨he, ?_⟩
    intro hek
    obtain ⟨hssb, hret⟩ := hk e he hek
    rcases hcase with hc | hc
    · exact hssb hc
    · exact hret hc

theorem Sound.erase (h : Sound u s)
    (hz : ∀ e, s.find k = some e → zeroStore e = true → writers u s.theMemQueue 0 = 0)
    (hk : ∀ e ∈ s.theMemQueue, e.seq = k → e.theQueue ≠ .kSSB ∧ ¬s.Retired e.seq) :
    ∃ t, s.eraseLSQ u k = .ok t ∧ Sound u t := by
  obtain ⟨t, ht, hacc, ho, hq, hp⟩ := eraseLSQ_spec h.accounted hz
  exact ⟨t, ht, h.frame (Frame.erase ho hq hp hk) hacc⟩

theorem Sound.insertLSQ (h : Sound u s) (gap : ℕ) (op : MemOperation) (size : Size)
    (bypassSB dependance : Bool) :
    ∃ t, s.insertLSQ gap op size bypassSB dependance = .ok t ∧ Sound u t := by
  obtain ⟨e, hq, hnum, hok, hacc⟩ :=
    insertLSQ_spec h.accounted gap op size bypassSB dependance
  refine ⟨_, hok, h.frame ?_ hacc⟩
  refine ⟨Nat.le_of_lt hnum, rfl, rfl, rfl, rfl, ?_, ?_, fun _ _ => rfl⟩
  · intro e' he'
    rcases List.mem_append.mp he' with he' | he'
    · exact Or.inl ⟨e', he', Kept.refl e'⟩
    · rw [List.mem_singleton.mp he']
      exact Or.inr ⟨hnum, hq⟩
  · intro e' he' _
    exact ⟨e', List.mem_append_left _ he', Kept.refl e'⟩

theorem seq_updateVaddr (anAddr : BitVec 64) (xlat : Translation) (e : LsqEntry) :
    (e.updateVaddr anAddr xlat).seq = e.seq := by
  rw [LsqEntry.updateVaddr]
  split <;> rfl

theorem kept_updateVaddr (hq : e.theQueue = .kLSQ) (anAddr : BitVec 64) (xlat : Translation) :
    Kept e (e.updateVaddr anAddr xlat) := by
  rw [LsqEntry.updateVaddr]
  split
  · exact ⟨⟨rfl, Iff.rfl, rfl, rfl, fun hne => absurd hq hne⟩, rfl⟩
  · exact ⟨⟨rfl, Iff.rfl, rfl, rfl, fun hne => absurd hq hne⟩, rfl⟩

theorem Sound.resolveVAddr (h : Sound u s) (k : ℕ) (anAddr : BitVec 64) (xlat : Translation) :
    Sound u (s.resolveVAddr k anAddr xlat) := by
  refine h.modify ?_ ?_
  · intro e
    split
    · exact seq_updateVaddr anAddr xlat e
    · rfl
  · intro e _
    by_cases hq : e.theQueue = .kLSQ
    · rw [if_pos hq]
      exact kept_updateVaddr hq anAddr xlat
    · rw [if_neg hq]
      exact Kept.refl e

theorem Sound.squash (h : Sound u s) (k : ℕ) : ∃ t, s.squash u k = .ok t ∧ Sound u t := by
  rw [SbCore.squash]
  cases hk : s.find k with
  | none => exact ⟨s, rfl, h⟩
  | some e =>
    by_cases hq : e.theQueue = .kLSQ
    · simp only [if_pos hq]
      refine h.erase ?_ ?_
      · intro e' he' hzero
        rw [hk, Option.some.injEq] at he'
        simp [zeroStore, ← he', hq] at hzero
      · intro e' he' hek
        have heq := h.accounted.eq_of_seq he' (mem_of_find hk) (hek.trans (seq_of_find hk).symm)
        rw [heq]
        refine ⟨by simp [hq], ?_⟩
        intro hret
        exact h.ordered.ne_lsq (mem_of_find hk) hret hq
    · simp only [if_neg hq]
      exact ⟨s, rfl, h⟩

/-- **The reply for a store**, unless the store is to the address zero and others write block
zero. -/
theorem Sound.completeStore (h : Sound u s) (k : ℕ)
    (hz : ∀ e, s.find k = some e →
      e.theQueue = .kSB ∧ (!s.resolving ∨ (e.theOperation = .kStore ∧ e.thePaddr = 0)) →
      zeroStore e = true → writers u s.theMemQueue 0 = 0) :
    ∃ t, s.completeStore u k = .ok t ∧ Sound u t := by
  rw [SbCore.completeStore]
  cases hk : s.find k with
  | none => exact ⟨s, rfl, h⟩
  | some e =>
    by_cases hq : e.theQueue = .kSB ∧ (!s.resolving ∨ (e.theOperation = .kStore ∧ e.thePaddr = 0))
    · simp only [if_pos hq]
      refine h.erase ?_ ?_
      · intro e' he' hzero
        rw [hk, Option.some.injEq] at he'
        subst he'
        exact hz e hk hq hzero
      · intro e' he' hek
        have heq := h.accounted.eq_of_seq he' (mem_of_find hk) (hek.trans (seq_of_find hk).symm)
        rw [heq]
        refine ⟨by simp [hq.1], ?_⟩
        rintro ⟨x, hx, hxe⟩
        obtain ⟨hres, hat, _⟩ := h.ordered.performed e (mem_of_find hk) hq.1 x hx hxe
        rcases hq.2 with hn | ⟨hst, _⟩
        · simp [hres] at hn
        · simp [MemQueueEntry.isAtomic, hst] at hat
    · simp only [if_neg hq]
      exact ⟨s, rfl, h⟩

/-! ### Permissions come and go -/

theorem acquire_insn (c : StoreCheckpoint) (b : ℕ) : (c.acquire b).insn = c.insn := by
  rw [StoreCheckpoint.acquire]
  split <;> rfl

theorem acquire_required (c : StoreCheckpoint) (b : ℕ) :
    (c.acquire b).theRequiredPermissions = c.theRequiredPermissions := by
  rw [StoreCheckpoint.acquire]
  split <;> rfl

/-- **What a checkpoint holds changes, and the lines do.** -/
theorem Covered.reheld {f : StoreCheckpoint → StoreCheckpoint} {ls : List SbLine} {n : ℤ}
    (h : Covered u s c) (hinsn : ∀ c, (f c).insn = c.insn)
    (hreq : ∀ c, (f c).theRequiredPermissions = c.theRequiredPermissions)
    (hdistinct : (f c).theHeldPermissions.Nodup)
    (hheld : ∀ b ∈ (f c).theHeldPermissions, (∃ r ∈ c.theRequiredPermissions, r.1 = b) ∧
      permOf ls b = true) :
    Covered u { s with
      theLines := ls, theFalsecount := n, theCheckpoints := s.theCheckpoints.map f } (f c) where
  retired := by
    rw [hinsn]
    exact h.retired
  own := by
    rw [hinsn]
    exact h.own
  opened := by
    rw [hinsn]
    exact h.opened
  required r hr := by
    rw [hreq] at hr
    obtain ⟨⟨hle, hret, hlater⟩, he⟩ := h.required r hr
    refine ⟨⟨?_, hret, ?_⟩, he⟩
    · rw [hinsn]
      exact hle
    · intro c' hc' hlt
      obtain ⟨c₀, hc₀, rfl⟩ := List.mem_map.mp hc'
      rw [hinsn] at hlt ⊢
      rw [hinsn] at hlt
      exact hlater c₀ hc₀ hlt
  distinct := hdistinct
  held b hb := by
    rw [hreq]
    exact hheld b hb

theorem Sound.reheld {f : StoreCheckpoint → StoreCheckpoint} {ls : List SbLine} {n : ℤ}
    (h : Sound u s) (hl : LinesFor ls n (writers u s.theMemQueue))
    (hinsn : ∀ c, (f c).insn = c.insn)
    (hreq : ∀ c, (f c).theRequiredPermissions = c.theRequiredPermissions)
    (hdistinct : ∀ c, Covered u s c → (f c).theHeldPermissions.Nodup)
    (hheld : ∀ c, Covered u s c → ∀ b ∈ (f c).theHeldPermissions,
      (∃ r ∈ c.theRequiredPermissions, r.1 = b) ∧ permOf ls b = true) :
    Sound u { s with
      theLines := ls, theFalsecount := n, theCheckpoints := s.theCheckpoints.map f } := by
  have ha := h.accounted
  refine ⟨⟨ha.ids, ha.bound, ha.plain, ha.lsq, ha.sb, ha.sbnaw, hl⟩, ?_, ?_⟩
  · exact ⟨h.ordered.sorted, h.ordered.known, h.ordered.lsq, h.ordered.ops, h.ordered.blocked,
      h.ordered.performed⟩
  · intro c' hc'
    obtain ⟨c, hc, rfl⟩ := List.mem_map.mp hc'
    have hcov := h.covered c hc
    exact hcov.reheld hinsn hreq (hdistinct c hcov) (hheld c hcov)

/-- **`acquireWritePermission`**. -/
theorem Sound.acquireWritePermission (h : Sound u s) (a : BitVec 64) :
    ∃ t, s.acquireWritePermission u a = .ok t ∧ Sound u t := by
  rw [SbCore.acquireWritePermission]
  generalize hb : block u a = b
  cases hl : s.line b with
  | none => exact ⟨s, rfl, h⟩
  | some l =>
    have hlines := acquire_lines h.accounted.lines hl
    have hn : ¬ (if !l.permission then s.theFalsecount - 1 else s.theFalsecount) < 0 := by
      have := hlines.falsecount_range.1
      omega
    simp only [if_neg hn]
    refine ⟨_, rfl, h.reheld hlines (fun c => acquire_insn c b) (fun c => acquire_required c b)
      ?_ ?_⟩
    · intro c hc
      rw [StoreCheckpoint.acquire]
      split
      · rename_i hnew
        rw [Bool.and_eq_true, Bool.not_eq_true', List.contains_eq_mem, decide_eq_false_iff_not]
          at hnew
        exact List.nodup_append_comm.mp (List.nodup_cons.mpr ⟨hnew.2, hc.distinct⟩)
      · exact hc.distinct
    · intro c hc b' hb'
      rw [permOf_update (block_permit true)]
      have hline : Keyed.lookup SbLine.block s.theLines b = some l := hl
      have hold : b' ∈ c.theHeldPermissions →
          (∃ r ∈ c.theRequiredPermissions, r.1 = b') ∧
            (if b' = b then (Keyed.lookup SbLine.block s.theLines b').any fun l =>
              (l.permit true).permission else permOf s.theLines b') = true := by
        intro hmem
        obtain ⟨hr, hp⟩ := hc.held b' hmem
        refine ⟨hr, ?_⟩
        split
        · rename_i heq
          rw [heq, hline]
          rfl
        · exact hp
      rw [StoreCheckpoint.acquire] at hb'
      split at hb'
      · rename_i hnew
        rcases List.mem_append.mp hb' with hmem | hmem
        · exact hold hmem
        · rw [Bool.and_eq_true, List.any_eq_true] at hnew
          obtain ⟨⟨r, hr, hrb⟩, _⟩ := hnew
          rw [List.mem_singleton] at hmem
          subst hmem
          refine ⟨⟨r, hr, beq_iff_eq.mp hrb⟩, ?_⟩
          rw [if_pos rfl, hline]
          rfl
      · exact hold hb'

/-- **`loseWritePermission`**: the checkpoints lose the permission along with the line. -/
theorem Sound.loseWritePermission (h : Sound u s) (a : BitVec 64) :
    ∃ t, s.loseWritePermission u a = .ok t ∧ Sound u t := by
  rw [SbCore.loseWritePermission]
  generalize hb : block u a = b
  cases hl : s.line b with
  | none => exact ⟨s, rfl, h⟩
  | some l =>
    have hlines := lose_lines h.accounted.lines hl
    have hlost : s.countLost l =
        .ok { s with theFalsecount := if l.permission then s.theFalsecount + 1
          else s.theFalsecount } := by
      have hrange := hlines.falsecount_range
      rw [Keyed.length_update] at hrange
      rw [countLost]
      split
      · rename_i hp
        rw [if_pos hp] at hrange
        rw [checkFalsecount, if_pos hrange]
      · rfl
    simp only [hlost, bind, Except.bind]
    refine ⟨_, rfl, h.reheld (f := fun c => c.lose b) hlines (fun _ => rfl) (fun _ => rfl) ?_ ?_⟩
    · intro c hc
      exact hc.distinct.erase b
    · intro c hc b' hb'
      obtain ⟨hne, hmem⟩ := (hc.distinct.mem_erase_iff).mp hb'
      rw [permOf_update (block_permit false), if_neg hne]
      exact hc.held b' hmem

end SbCore

end UArch

end Flexus
