import Flexus.UArch.StorePermissions

/-!
# Retirement and commit of stores

Instructions go into the retirement buffer one at a time, with their entries moving to the SSB,
and leave it in the same order. The resolution of a checkpoint, the retirement of an instruction
and the commit of the oldest one change the retirement buffer and the queue in step; this module
shows that each keeps the invariant `Flexus.UArch.SbCore.Sound`.
-/

namespace Flexus

open List

namespace UArch

open Flexus.Lib

namespace SbCore

variable {u : BitVec 64} {cm : ConsistencyModel} {s t : SbCore} {k b : ℕ} {e e' : LsqEntry}
  {c : StoreCheckpoint} {x : RetiredInsn} {rest : List RetiredInsn}

/-! ### The end of a speculation -/

/-- What the resolution of a speculation does to an instruction. -/
def resolved (k : ℕ) (x : RetiredInsn) : RetiredInsn :=
  if x.seq = k then { x with mayCommit := true } else x

theorem resolved_seq (k : ℕ) (x : RetiredInsn) : (resolved k x).seq = x.seq := by
  rw [resolved]
  split <;> rfl

theorem resolved_op (k : ℕ) (x : RetiredInsn) :
    (resolved k x).theOperation = x.theOperation := by
  rw [resolved]
  split <;> rfl

theorem mayCommit_of_resolved (h : (resolved k x).mayCommit = false) :
    x.seq ≠ k ∧ x.mayCommit = false := by
  rw [resolved] at h
  split at h
  · cases h
  · rename_i hne
    exact ⟨hne, h⟩

/-- **The speculation of the oldest entry ends**: its instruction may commit, and the entry is
moved to the SB, or goes. -/
structure Resolves (u : BitVec 64) (k : ℕ) (s t : SbCore) : Prop where
  num : t.theMemorySequenceNum = s.theMemorySequenceNum
  srb : t.theSRB = s.theSRB.map (resolved k)
  checkpoints : t.theCheckpoints = s.theCheckpoints
  opened : t.theOpenCheckpoint = s.theOpenCheckpoint
  resolving : t.resolving = true
  source : ∀ e' ∈ t.theMemQueue, ∃ e ∈ s.theMemQueue, Alike e e' ∧
    (e'.theQueue = e.theQueue ∨ (e.seq = k ∧ e'.isAtomic = true))
  stays : ∀ e ∈ s.theMemQueue, e.seq ≠ k ∨ e.isStore = true →
    ∃ e' ∈ t.theMemQueue, Alike e e' ∧ (e.seq ≠ k → e'.theQueue = e.theQueue)
  permissions : ∀ b, writers u t.theMemQueue b ≠ 0 → permOf t.theLines b = permOf s.theLines b

theorem Resolves.retired (h : Resolves u k s t) {i : ℕ} (hi : s.Retired i) : t.Retired i := by
  obtain ⟨x, hx, rfl⟩ := hi
  refine ⟨resolved k x, ?_, resolved_seq k x⟩
  rw [h.srb]
  exact mem_map_of_mem hx

theorem Ordered.resolve (h : Ordered s) (hr : Resolves u k s t)
    (hfront : ∀ e ∈ s.theMemQueue, k ≤ e.seq) : Ordered t where
  sorted := by
    rw [hr.srb, map_map]
    have heq : RetiredInsn.seq ∘ resolved k = RetiredInsn.seq := funext (resolved_seq k)
    rw [heq]
    exact h.sorted
  known x hx := by
    rw [hr.srb] at hx
    obtain ⟨y, hy, rfl⟩ := mem_map.mp hx
    rw [resolved_seq, hr.num]
    exact h.known y hy
  lsq x hx e' he' hq := by
    rw [hr.srb] at hx
    obtain ⟨y, hy, rfl⟩ := mem_map.mp hx
    obtain ⟨e, he, hal, _⟩ := hr.source e' he'
    rw [resolved_seq, hal.seq]
    exact h.lsq y hy e he (hal.queue.mp hq)
  ops x hx e' he' hseq := by
    rw [hr.srb] at hx
    obtain ⟨y, hy, rfl⟩ := mem_map.mp hx
    obtain ⟨e, he, hal, _⟩ := hr.source e' he'
    rw [resolved_seq, hal.seq] at hseq
    rw [resolved_op, hal.op]
    exact h.ops y hy e he hseq
  blocked x hx hm := by
    rw [hr.srb] at hx
    obtain ⟨y, hy, rfl⟩ := mem_map.mp hx
    obtain ⟨hne, hmay⟩ := mayCommit_of_resolved hm
    obtain ⟨e, he, hseq, hq⟩ := h.blocked y hy hmay
    have hek : e.seq ≠ k := hseq ▸ hne
    obtain ⟨e', he', hal, hqueue⟩ := hr.stays e he (Or.inl hek)
    refine ⟨e', he', ?_, (hqueue hek).trans hq⟩
    rw [resolved_seq, hal.seq, hseq]
  performed e' he' hq x hx hxe := by
    rw [hr.srb] at hx ⊢
    obtain ⟨y, hy, rfl⟩ := mem_map.mp hx
    obtain ⟨e, he, hal, hcase⟩ := hr.source e' he'
    rw [resolved_seq, hal.seq] at hxe
    -- An instruction that must not commit has an entry in the SSB, behind the oldest one.
    have hold : e.seq = k ∨ ∀ z ∈ s.theSRB, z.seq ≤ e.seq → z.mayCommit = true := by
      rcases hcase with hsame | ⟨hek, _⟩
      · exact Or.inr (h.performed e he (hsame ▸ hq) y hy hxe).2.2
      · exact Or.inl hek
    refine ⟨hr.resolving, ?_, ?_⟩
    · rcases hcase with hsame | ⟨_, hat⟩
      · rw [hal.isAtomic_eq]
        exact (h.performed e he (hsame ▸ hq) y hy hxe).2.1
      · exact hat
    · intro z' hz' hle
      obtain ⟨z, hz, rfl⟩ := mem_map.mp hz'
      rw [resolved_seq, hal.seq] at hle
      by_contra hc
      obtain ⟨hne, hmay⟩ := mayCommit_of_resolved (Bool.eq_false_iff.mpr hc)
      rcases hold with hek | hall
      · obtain ⟨e₀, he₀, hseq₀, _⟩ := h.blocked z hz hmay
        have := hfront e₀ he₀
        omega
      · rw [hall z hz hle] at hmay
        cases hmay

theorem Covered.resolve (h : Covered u s c) (hr : Resolves u k s t)
    (hfront : ∀ e ∈ s.theMemQueue, k ≤ e.seq) : Covered u t c := by
  refine h.of ?_ ?_ ?_ ?_ ?_ hr.permissions
  · rintro i ⟨hle, hret, hlater⟩
    refine ⟨hle, hr.retired hret, ?_⟩
    rw [hr.checkpoints]
    exact hlater
  · intro e he _ hst
    obtain ⟨e', he', hal, _⟩ := hr.stays e he (Or.inr hst)
    exact ⟨e', he', hal⟩
  · intro e he hseq hq
    by_cases hek : e.seq = k
    · refine Or.inr fun e' he' => ?_
      obtain ⟨e₀, he₀, hal, _⟩ := hr.source e' he'
      rw [hal.seq, ← hseq, hek]
      exact hfront e₀ he₀
    · obtain ⟨e', he', hal, hqueue⟩ := hr.stays e he (Or.inl hek)
      exact Or.inl ⟨e', he', hal.seq.trans hseq, (hqueue hek).trans hq⟩
  · intro e' he'
    obtain ⟨e, he, hal, _⟩ := hr.source e' he'
    exact Or.inl ⟨e, he, hal.seq⟩
  · rw [hr.opened]
    exact h.opened

theorem Sound.resolve (h : Sound u s) (hr : Resolves u k s t)
    (hfront : ∀ e ∈ s.theMemQueue, k ≤ e.seq) (ht : Accounted u t) : Sound u t := by
  refine ⟨ht, h.ordered.resolve hr hfront, ?_⟩
  intro c hc
  rw [hr.checkpoints] at hc
  exact (h.covered c hc).resolve hr hfront

theorem Accounted.congr (h : Accounted u s) (hq : t.theMemQueue = s.theMemQueue)
    (hnum : t.theMemorySequenceNum = s.theMemorySequenceNum)
    (hl : t.theLSQCount = s.theLSQCount) (hs : t.theSBCount = s.theSBCount)
    (hn : t.theSBNAWCount = s.theSBNAWCount) (hlines : t.theLines = s.theLines)
    (hf : t.theFalsecount = s.theFalsecount) : Accounted u t := by
  refine ⟨?_, ?_, ?_, ?_, ?_, ?_, ?_⟩
  · rw [hq]
    exact h.ids
  · rw [hq, hnum]
    exact h.bound
  · rw [hq]
    exact h.plain
  · rw [hq, hl]
    exact h.lsq
  · rw [hq, hs]
    exact h.sb
  · rw [hq, hn]
    exact h.sbnaw
  · rw [hq, hlines, hf]
    exact h.lines

theorem alike_moveToSB (hq : e.theQueue ≠ .kLSQ) : Alike e { e with theQueue := .kSB } :=
  ⟨rfl, ⟨fun hc => (nomatch hc), fun hc => absurd hc hq⟩, rfl, rfl, fun _ => rfl⟩

theorem head_le (h : Accounted u s) (he : s.theMemQueue.head? = some e) :
    e ∈ s.theMemQueue ∧ ∀ e' ∈ s.theMemQueue, e.seq ≤ e'.seq := by
  have hids := h.ids
  cases hq : s.theMemQueue with
  | nil =>
    rw [hq] at he
    cases he
  | cons e₀ q =>
    rw [hq, head?_cons, Option.some.injEq] at he
    subst he
    rw [hq, map_cons, pairwise_cons] at hids
    refine ⟨mem_cons_self, ?_⟩
    intro e' he'
    rcases mem_cons.mp he' with rfl | he'
    · exact Nat.le_refl _
    · exact Nat.le_of_lt (hids.1 _ (mem_map_of_mem he'))

theorem resolveFront_spec (h : Sound u s) (he : s.theMemQueue.head? = some e)
    (hq : e.theQueue = .kSSB) (hres : s.resolving = true) :
    ∃ t, s.resolveFront u e = .ok t ∧ Sound u t := by
  obtain ⟨hmem, hfront⟩ := head_le h.accounted he
  have hacc : Accounted u (s.resolveSpeculation e.seq) :=
    h.accounted.congr rfl rfl rfl rfl rfl rfl rfl
  have hfind : (s.resolveSpeculation e.seq).find e.seq = some e := hacc.find_of_mem hmem
  have hne : e.theQueue ≠ .kLSQ := by simp [hq]
  have halike : ∀ e', (s.resolveSpeculation e.seq).find e.seq = some e' →
      Alike e' { e' with theQueue := .kSB } := by
    intro e' he'
    rw [hfind, Option.some.injEq] at he'
    rw [← he']
    exact alike_moveToSB hne
  rw [resolveFront]
  by_cases hat : e.isAtomic = true
  · rw [if_pos hat]
    refine ⟨_, rfl, h.resolve (k := e.seq) ⟨rfl, rfl, rfl, rfl, hres, ?_, ?_, fun _ _ => rfl⟩
      hfront (hacc.modify (fun _ => rfl) halike)⟩
    · intro e' he'
      rcases (mem_modify hacc).mp he' with ⟨he', _⟩ | ⟨e₀, he₀, hek, rfl⟩
      · exact ⟨e', he', Alike.refl e', Or.inl rfl⟩
      · have heq := h.accounted.eq_of_seq he₀ hmem hek
        subst heq
        exact ⟨e₀, he₀, alike_moveToSB hne, Or.inr ⟨rfl, hat⟩⟩
    · intro e₀ he₀ _
      by_cases hek : e₀.seq = e.seq
      · have heq := h.accounted.eq_of_seq he₀ hmem hek
        subst heq
        exact ⟨_, (mem_modify hacc).mpr (Or.inr ⟨e₀, hmem, rfl, rfl⟩), alike_moveToSB hne,
          fun hc => absurd rfl hc⟩
      · exact ⟨e₀, (mem_modify hacc).mpr (Or.inl ⟨he₀, hek⟩), Alike.refl e₀, fun _ => rfl⟩
  · rw [if_neg hat]
    by_cases hload : e.isLoad = true
    · rw [if_pos hload]
      have hst : e.isStore = false := by
        cases hop : e.theOperation <;>
          simp_all [MemQueueEntry.isLoad, MemQueueEntry.isAtomic, MemQueueEntry.isStore]
      obtain ⟨t, ht, hacct, ho, hqueue, hp⟩ := eraseLSQ_spec (k := e.seq) hacc (by
        intro e' he' hzero
        rw [hfind, Option.some.injEq] at he'
        simp [zeroStore, ← he', hst] at hzero)
      refine ⟨t, ht, h.resolve (k := e.seq) ⟨ho.num, ho.srb, ho.checkpoints, ho.opened,
        ho.resolving.trans hres, ?_, ?_, hp⟩ hfront hacct⟩
      · intro e' he'
        rw [hqueue] at he'
        exact ⟨e', mem_of_mem_filter he', Alike.refl e', Or.inl rfl⟩
      · intro e₀ he₀ hcase
        refine ⟨e₀, ?_, Alike.refl e₀, fun _ => rfl⟩
        rw [hqueue, Keyed.erase, mem_filter, bne_iff_ne]
        refine ⟨he₀, ?_⟩
        intro hek
        rcases hcase with hc | hc
        · exact hc hek
        · rw [h.accounted.eq_of_seq he₀ hmem hek, hst] at hc
          cases hc
    · rw [if_neg hload]
      refine ⟨_, rfl, h.resolve (k := e.seq) ⟨rfl, rfl, rfl, rfl, hres, ?_, ?_, fun _ _ => rfl⟩
        hfront hacc⟩
      · intro e' he'
        exact ⟨e', he', Alike.refl e', Or.inl rfl⟩
      · intro e₀ he₀ _
        exact ⟨e₀, he₀, Alike.refl e₀, fun _ => rfl⟩

/-- **`resolveCheckpoint`**. -/
theorem Sound.resolveCheckpoint (h : Sound u s) :
    ∃ t, s.resolveCheckpoint u = .ok t ∧ Sound u t := by
  have hs : Sound u { s with resolving := true } := by
    refine ⟨h.accounted.congr rfl rfl rfl rfl rfl rfl rfl, ?_, ?_⟩
    · refine ⟨h.ordered.sorted, h.ordered.known, h.ordered.lsq, h.ordered.ops,
        h.ordered.blocked, ?_⟩
      intro e he hq x hx hxe
      exact ⟨rfl, (h.ordered.performed e he hq x hx hxe).2⟩
    · intro c hc
      have hcov := h.covered c hc
      exact ⟨hcov.retired, hcov.own, hcov.opened, hcov.required, hcov.distinct, hcov.held⟩
  rw [SbCore.resolveCheckpoint]
  cases he : s.theMemQueue.head? with
  | none => exact ⟨_, rfl, hs⟩
  | some e =>
    by_cases hq : e.theQueue = .kSSB ∧ !e.theSpeculatedValue
    · simp only [if_pos hq]
      cases hc : s.theCheckpoints.find? fun c => c.insn == e.seq with
      | none => exact ⟨_, rfl, hs⟩
      | some c =>
        simp only
        split
        · exact resolveFront_spec hs he hq.1 rfl
        · exact ⟨_, rfl, hs⟩
    · simp only [if_neg hq]
      exact ⟨_, rfl, hs⟩

/-! ### Retirement -/

/-- **An instruction retires**: it is the youngest in the retirement buffer, and its entry goes
to the SSB, or away if it may commit. -/
structure Retires (u : BitVec 64) (x : RetiredInsn) (s t : SbCore) : Prop where
  num : t.theMemorySequenceNum = s.theMemorySequenceNum
  srb : t.theSRB = s.theSRB ++ [x]
  checkpoints : t.theCheckpoints = s.theCheckpoints
  opened : t.theOpenCheckpoint = s.theOpenCheckpoint
  resolving : t.resolving = s.resolving
  source : ∀ e ∈ t.theMemQueue, (e.seq ≠ x.seq ∧ e ∈ s.theMemQueue) ∨
    (e.seq = x.seq ∧ e.theQueue = .kSSB ∧ e.theOperation = x.theOperation)
  stays : ∀ e ∈ s.theMemQueue, e.seq ≠ x.seq → e ∈ t.theMemQueue
  blocked : x.mayCommit = false → ∃ e ∈ t.theMemQueue, e.seq = x.seq ∧ e.theQueue = .kSSB
  permissions : ∀ b, writers u t.theMemQueue b ≠ 0 → permOf t.theLines b = permOf s.theLines b

/-- The oldest entry of the LSQ is younger than what has retired. -/
def Oldest (s : SbCore) (e : LsqEntry) : Prop :=
  e ∈ s.theMemQueue ∧ e.theQueue = .kLSQ ∧
    ∀ e' ∈ s.theMemQueue, e'.theQueue = .kLSQ → e.seq ≤ e'.seq

theorem Accounted.oldest (h : Accounted u s) (he : s.lsqHead = some e) : Oldest s e := by
  have hids := h.ids
  rw [lsqHead, find?_eq_some_iff_append] at he
  obtain ⟨hq, l, r, hlr, hno⟩ := he
  refine ⟨?_, beq_iff_eq.mp hq, ?_⟩
  · rw [hlr]
    exact mem_append_right _ mem_cons_self
  · intro e' he' hq'
    rw [hlr, map_append, map_cons, pairwise_append] at hids
    rw [hlr] at he'
    rcases mem_append.mp he' with hl | hr
    · have := hno e' hl
      simp [hq'] at this
    · rcases mem_cons.mp hr with rfl | hr
      · exact Nat.le_refl _
      · have hlt := (pairwise_cons.mp hids.2.1).1 e'.seq (mem_map_of_mem hr)
        exact Nat.le_of_lt hlt

theorem Ordered.lt_of_retired (h : Ordered s) (he : Oldest s e) (hk : s.Retired k) :
    k < e.seq := by
  obtain ⟨x, hx, rfl⟩ := hk
  exact h.lsq x hx e he.1 he.2.1

theorem Ordered.retire (h : Ordered s) (he : Oldest s e) (hx : x.seq = e.seq)
    (hb : e.seq ≤ s.theMemorySequenceNum) (hr : Retires u x s t) : Ordered t := by
  have hlt : ∀ y ∈ s.theSRB, y.seq < x.seq := by
    intro y hy
    rw [hx]
    exact h.lsq y hy e he.1 he.2.1
  have hmem : ∀ y ∈ t.theSRB, y ∈ s.theSRB ∨ y = x := by
    intro y hy
    rw [hr.srb, mem_append, mem_singleton] at hy
    exact hy
  refine ⟨?_, ?_, ?_, ?_, ?_, ?_⟩
  · rw [hr.srb, map_append, pairwise_append]
    refine ⟨h.sorted, pairwise_singleton _ _, ?_⟩
    intro i hi j hj
    obtain ⟨y, hy, rfl⟩ := mem_map.mp hi
    rw [map_singleton, mem_singleton] at hj
    rw [hj]
    exact hlt y hy
  · intro y hy
    rw [hr.num]
    rcases hmem y hy with hold | rfl
    · exact h.known y hold
    · omega
  · intro y hy e' he' hq
    rcases hr.source e' he' with ⟨hne, hold⟩ | ⟨_, hssb, _⟩
    · have hle := he.2.2 e' hold hq
      rcases hmem y hy with hy | rfl
      · exact h.lsq y hy e' hold hq
      · omega
    · rw [hssb] at hq
      cases hq
  · intro y hy e' he' hseq
    rcases hmem y hy with hy | rfl
    · rcases hr.source e' he' with ⟨_, hold⟩ | ⟨heq, _⟩
      · exact h.ops y hy e' hold hseq
      · have := hlt y hy
        omega
    · rcases hr.source e' he' with ⟨hne, _⟩ | ⟨_, _, hop⟩
      · exact absurd hseq hne
      · exact hop
  · intro y hy hm
    rcases hmem y hy with hy | rfl
    · obtain ⟨e', he', hseq, hq⟩ := h.blocked y hy hm
      have := hlt y hy
      exact ⟨e', hr.stays e' he' (by omega), hseq, hq⟩
    · exact hr.blocked hm
  · intro e' he' hq y hy hye
    rcases hr.source e' he' with ⟨hne, hold⟩ | ⟨_, hssb, _⟩
    · rcases hmem y hy with hy | rfl
      · obtain ⟨hres, hat, hall⟩ := h.performed e' hold hq y hy hye
        refine ⟨hr.resolving.trans hres, hat, ?_⟩
        intro z hz hle
        rcases hmem z hz with hz | rfl
        · exact hall z hz hle
        · have := hlt y hy
          omega
      · exact absurd hye.symm hne
    · rw [hssb] at hq
      cases hq

theorem Covered.retire (h : Covered u s c) (ho : Ordered s) (he : Oldest s e)
    (hx : x.seq = e.seq) (hr : Retires u x s t) : Covered u t c := by
  refine h.of ?_ ?_ ?_ ?_ ?_ hr.permissions
  · rintro i ⟨hle, ⟨y, hy, hyi⟩, hlater⟩
    refine ⟨hle, ⟨y, ?_, hyi⟩, ?_⟩
    · rw [hr.srb]
      exact mem_append_left _ hy
    · rw [hr.checkpoints]
      exact hlater
  · intro e' he' hu _
    have := ho.lt_of_retired he hu.2.1
    exact ⟨e', hr.stays e' he' (by omega), Alike.refl e'⟩
  · intro e' he' hseq hq
    have := ho.lt_of_retired he h.retired
    exact Or.inl ⟨e', hr.stays e' he' (by omega), hseq, hq⟩
  · intro e' he'
    rcases hr.source e' he' with ⟨_, hold⟩ | ⟨heq, _⟩
    · exact Or.inl ⟨e', hold, rfl⟩
    · have := ho.lt_of_retired he h.retired
      omega
  · rw [hr.opened]
    exact h.opened

theorem Sound.retire (h : Sound u s) (he : Oldest s e) (hx : x.seq = e.seq)
    (hr : Retires u x s t) (ht : Accounted u t) : Sound u t := by
  refine ⟨ht, h.ordered.retire he hx (h.accounted.bound e he.1) hr, ?_⟩
  intro c hc
  rw [hr.checkpoints] at hc
  exact (h.covered c hc).retire h.ordered he hx hr

/-- **A checkpoint is taken** at an instruction that has just retired. -/
theorem Sound.createCheckpoint (h : Sound u s) (hk : s.Retired k)
    (hown : ∃ e ∈ s.theMemQueue, e.seq = k ∧ e.theQueue = .kSSB)
    (hlt : ∀ c ∈ s.theCheckpoints, ∀ i, (i = c.insn ∨ ∃ r ∈ c.theRequiredPermissions, r.2 = i) →
      i < k) : Sound u (s.createCheckpoint k) := by
  refine ⟨h.accounted.congr rfl rfl rfl rfl rfl rfl rfl, ?_, ?_⟩
  · exact ⟨h.ordered.sorted, h.ordered.known, h.ordered.lsq, h.ordered.ops, h.ordered.blocked,
      h.ordered.performed⟩
  · intro c hc
    rcases mem_append.mp hc with hc | hc
    · have hcov := h.covered c hc
      refine ⟨hcov.retired, hcov.own, ?_, ?_, hcov.distinct, hcov.held⟩
      · intro k' hk'
        cases hk'
        exact Nat.le_of_lt (hlt c hc c.insn (Or.inl rfl))
      · intro r hr
        obtain ⟨⟨hle, hret, hlater⟩, he⟩ := hcov.required r hr
        refine ⟨⟨hle, hret, ?_⟩, he⟩
        intro c' hc' hcc'
        rcases mem_append.mp hc' with hc' | hc'
        · exact hlater c' hc' hcc'
        · rw [mem_singleton.mp hc']
          exact hlt c hc r.2 (Or.inr ⟨r, hr, rfl⟩)
    · rw [mem_singleton.mp hc]
      refine ⟨hk, Or.inl hown, ?_, ?_, nodup_nil, ?_⟩
      · intro k' hk'
        cases hk'
        exact Nat.le_refl _
      · intro r hr
        cases hr
      · intro b hb
        cases hb

/-! ### Permissions that are required -/

/-- A core with what an entry requires of the open checkpoint. -/
def required (u : BitVec 64) (cm : ConsistencyModel) (e : LsqEntry) (s : SbCore) : SbCore :=
  if e.thePaddr = 0 then s
  else s.requireAtCheckpoint cm e (block u e.thePaddr) (permOf s.theLines (block u e.thePaddr))

variable (cm) in
/-- **`requireWritePermission`** counts the entry, and tells the open checkpoint. -/
theorem requireWritePermission_spec {w : ℕ → ℕ} (h : LinesFor s.theLines s.theFalsecount w)
    (e : LsqEntry) :
    ∃ ls n, LinesFor ls n
        (fun b => w b + if e.thePaddr ≠ 0 ∧ block u e.thePaddr = b then 1 else 0) ∧
      permOf ls = permOf s.theLines ∧ s.requireWritePermission u cm e =
        .ok (required u cm e { s with theLines := ls, theFalsecount := n }) := by
  by_cases haddr : e.thePaddr = 0
  · refine ⟨s.theLines, s.theFalsecount, h.congr ?_, rfl, ?_⟩
    · intro b
      simp [haddr]
    · rw [requireWritePermission, if_pos haddr, required, if_pos haddr]
  · obtain ⟨ls, n, hok, hlines, hperm⟩ := countLine_spec h (block u e.thePaddr)
    refine ⟨ls, n, hlines.congr ?_, hperm, ?_⟩
    · intro b
      by_cases hb : b = block u e.thePaddr
      · rw [hb, Function.update_self, if_pos ⟨haddr, rfl⟩]
      · rw [Function.update_of_ne hb, if_neg fun hc => hb hc.2.symm]
        rfl
    · rw [requireWritePermission, if_neg haddr, hok, required, if_neg haddr]
      simp only [bind, Except.bind, hperm]
      rfl

theorem pushSRB_required (op : MemOperation) (m : Bool) :
    (required u cm e s).pushSRB k op m = required u cm e (s.pushSRB k op m) := by
  simp only [required, requireAtCheckpoint, pushSRB]
  split
  · rfl
  · split
    · rfl
    · split
      · rfl
      · rfl

theorem mem_required {r : ℕ × ℕ} {p : Bool}
    (h : r ∈ (c.require b k p).theRequiredPermissions) :
    r ∈ c.theRequiredPermissions ∨ r = (b, k) := by
  simp only [StoreCheckpoint.require] at h
  split at h
  · exact Or.inl h
  · rcases mem_append.mp h with h | h
    · exact Or.inl h
    · exact Or.inr (mem_singleton.mp h)

theorem exists_required (c : StoreCheckpoint) (b k : ℕ) (p : Bool) {b' : ℕ}
    (h : (∃ r ∈ c.theRequiredPermissions, r.1 = b') ∨ b' = b) :
    ∃ r ∈ (c.require b k p).theRequiredPermissions, r.1 = b' := by
  simp only [StoreCheckpoint.require]
  split
  · rename_i hany
    rcases h with h | rfl
    · exact h
    · obtain ⟨r, hr, hrb⟩ := any_eq_true.mp hany
      exact ⟨r, hr, beq_iff_eq.mp hrb⟩
  · rcases h with ⟨r, hr, hrb⟩ | rfl
    · exact ⟨r, mem_append_left _ hr, hrb⟩
    · exact ⟨(b', k), mem_append_right _ (mem_singleton_self _), rfl⟩

variable (cm) in
/-- **The open checkpoint requires a block**, which an entry of an instruction writes that has
just retired. -/
theorem Sound.required (h : Sound u s) (hk : s.Retired e.seq)
    (hw : e.thePaddr ≠ 0 →
      ∃ e' ∈ s.theMemQueue, e'.seq = e.seq ∧ writes u (block u e.thePaddr) e' = true)
    (hle : ∀ c ∈ s.theCheckpoints, c.insn ≤ e.seq) : Sound u (required u cm e s) := by
  rw [SbCore.required]
  split
  · exact h
  · rename_i haddr
    rw [requireAtCheckpoint]
    split
    · exact h
    · rename_i k₀ hopen
      split
      · generalize hp : permOf s.theLines (block u e.thePaddr) = p
        generalize hb : block u e.thePaddr = b at hp hw
        refine ⟨h.accounted.congr rfl rfl rfl rfl rfl rfl rfl, ?_, ?_⟩
        · exact ⟨h.ordered.sorted, h.ordered.known, h.ordered.lsq, h.ordered.ops,
            h.ordered.blocked, h.ordered.performed⟩
        · -- Later checkpoints are those of old.
          have hunder : ∀ c i, s.Under c i → Under { s with
              theCheckpoints := s.theCheckpoints.map fun c =>
                if c.insn = k₀ then c.require b e.seq p else c } c i := by
            rintro c i ⟨hle', hret, hlater⟩
            refine ⟨hle', hret, ?_⟩
            intro c' hc' hlt
            obtain ⟨c₀, hc₀, rfl⟩ := mem_map.mp hc'
            have hinsn : (if c₀.insn = k₀ then c₀.require b e.seq p else c₀).insn = c₀.insn := by
              split <;> rfl
            rw [hinsn] at hlt ⊢
            exact hlater c₀ hc₀ hlt
          intro c' hc'
          obtain ⟨c, hc, rfl⟩ := mem_map.mp hc'
          have hcov := h.covered c hc
          split
          · rename_i hck
            refine ⟨hcov.retired, hcov.own, hcov.opened, ?_, ?_, ?_⟩
            · intro r hr
              rcases mem_required hr with hr | rfl
              · obtain ⟨hu, he⟩ := hcov.required r hr
                exact ⟨hunder c _ hu, he⟩
              · refine ⟨hunder c _ ⟨hle c hc, hk, ?_⟩, hw haddr⟩
                intro c' hc' hlt
                have := (h.covered c' hc').opened k₀ hopen
                omega
            · simp only [StoreCheckpoint.require]
              split
              · rename_i hnew
                rw [Bool.and_eq_true, Bool.not_eq_true', contains_eq_mem,
                  decide_eq_false_iff_not] at hnew
                exact nodup_append_comm.mp (nodup_cons.mpr ⟨hnew.2, hcov.distinct⟩)
              · exact hcov.distinct
            · intro b' hb'
              have hcase : b' ∈ c.theHeldPermissions ∨ (p = true ∧ b' = b) := by
                simp only [StoreCheckpoint.require] at hb'
                split at hb'
                · rename_i hnew
                  rw [Bool.and_eq_true] at hnew
                  rcases mem_append.mp hb' with hb' | hb'
                  · exact Or.inl hb'
                  · exact Or.inr ⟨hnew.1, mem_singleton.mp hb'⟩
                · exact Or.inl hb'
              rcases hcase with hold | ⟨rfl, rfl⟩
              · obtain ⟨hr, hperm⟩ := hcov.held b' hold
                exact ⟨exists_required c b e.seq p (Or.inl hr), hperm⟩
              · exact ⟨exists_required c b' e.seq true (Or.inr rfl), hp⟩
          · refine ⟨hcov.retired, hcov.own, hcov.opened, ?_, hcov.distinct, hcov.held⟩
            intro r hr
            obtain ⟨hu, he⟩ := hcov.required r hr
            exact ⟨hunder c _ hu, he⟩
      · exact h

/-! ### `retireMem` -/

theorem oldest_find (h : Accounted u s) (he : Oldest s e) : s.find e.seq = some e :=
  h.find_of_mem he.1

/-- Instructions under a checkpoint have retired before the next one. -/
theorem Sound.older (h : Sound u s) (he : Oldest s e) :
    ∀ c ∈ s.theCheckpoints, ∀ i, (i = c.insn ∨ ∃ r ∈ c.theRequiredPermissions, r.2 = i) →
      i < e.seq := by
  rintro c hc i (rfl | ⟨r, hr, rfl⟩)
  · exact h.ordered.lt_of_retired he (h.covered c hc).retired
  · exact h.ordered.lt_of_retired he ((h.covered c hc).required r hr).1.2.1

/-- **An operation leaves the queue as it retires.** -/
theorem retireErased_spec (h : Sound u s) (he : Oldest s e) :
    ∃ t, s.retireErased u e = .ok t ∧ Sound u t := by
  obtain ⟨t, ht, hacc, ho, hq, hp⟩ := eraseLSQ_spec (k := e.seq) h.accounted (by
    intro e' he' hzero
    rw [oldest_find h.accounted he, Option.some.injEq] at he'
    simp [zeroStore, ← he', he.2.1] at hzero)
  have hmem : ∀ e', e' ∈ t.theMemQueue ↔ e' ∈ s.theMemQueue ∧ e'.seq ≠ e.seq := by
    intro e'
    rw [hq, Keyed.erase, mem_filter, bne_iff_ne]
  refine ⟨t.pushSRB e.seq e.theOperation true, ?_, ?_⟩
  · rw [retireErased, ht]
    rfl
  · refine h.retire (x := ⟨e.seq, e.theOperation, true⟩) he rfl
      ⟨ho.num, ?_, ho.checkpoints, ho.opened, ho.resolving, ?_, ?_, ?_, hp⟩
      (hacc.congr rfl rfl rfl rfl rfl rfl rfl)
    · rw [pushSRB, ho.srb]
    · intro e' he'
      obtain ⟨hold, hne⟩ := (hmem e').mp he'
      exact Or.inl ⟨hne, hold⟩
    · intro e' he' hne
      exact (hmem e').mpr ⟨he', hne⟩
    · intro hc
      cases hc

/-- **An entry moves to the SSB as its instruction retires**, and the lines are brought up to
date. -/
theorem Sound.moved {f : LsqEntry → LsqEntry} {naw m : Bool} {ls : List SbLine} {n : ℤ}
    (h : Sound u s) (he : Oldest s e) (hf : Moves f e naw)
    (hl : LinesFor ls n (writers u (s.moved e.seq f naw).theMemQueue))
    (hp : permOf ls = permOf s.theLines) :
    Sound u ({ s.moved e.seq f naw with theLines := ls, theFalsecount := n }.pushSRB e.seq
      e.theOperation m) := by
  have hfind := oldest_find h.accounted he
  have hnew : f e ∈ (s.moved e.seq f naw).theMemQueue :=
    (mem_modify h.accounted).mpr (Or.inr ⟨e, he.1, rfl, rfl⟩)
  have hacc := h.accounted.moved hfind he.2.1 hf hl
  refine h.retire (x := ⟨e.seq, e.theOperation, m⟩) he rfl
    ⟨rfl, rfl, rfl, rfl, rfl, ?_, ?_, ?_, ?_⟩ (hacc.congr rfl rfl rfl rfl rfl rfl rfl)
  · intro e' he'
    rcases (mem_modify h.accounted).mp he' with ⟨hold, hne⟩ | ⟨e₀, he₀, hek, rfl⟩
    · exact Or.inl ⟨hne, hold⟩
    · have heq := h.accounted.eq_of_seq he₀ he.1 hek
      subst heq
      exact Or.inr ⟨hf.seq e₀, hf.queue, hf.op⟩
  · intro e' he' hne
    exact (mem_modify h.accounted).mpr (Or.inl ⟨he', hne⟩)
  · intro _
    exact ⟨f e, hnew, hf.seq e, hf.queue⟩
  · intro b _
    exact congrFun hp b

theorem moves_moveToSSB (e : LsqEntry) :
    Moves (fun e : LsqEntry => { e with theQueue := .kSSB }) e e.theBypassSB :=
  ⟨fun _ => rfl, rfl, rfl, rfl, rfl⟩

theorem retired_moved {f : LsqEntry → LsqEntry} {naw m : Bool} (ls : List SbLine) (n : ℤ)
    (h : Accounted u s) (he : Oldest s e) (hf : Moves f e naw) :
    let t := { s.moved e.seq f naw with theLines := ls, theFalsecount := n }.pushSRB e.seq
      e.theOperation m
    t.Retired e.seq ∧ ∃ e' ∈ t.theMemQueue, e'.seq = e.seq ∧ e'.theQueue = .kSSB ∧
      (e.isStore = true → e.thePaddr ≠ 0 → writes u (block u e.thePaddr) e' = true) := by
  refine ⟨⟨_, mem_append_right _ (mem_singleton_self _), rfl⟩, f e, ?_, hf.seq e, hf.queue, ?_⟩
  · exact (mem_modify h).mpr (Or.inr ⟨e, he.1, rfl, rfl⟩)
  · intro hst haddr
    have hst' : (f e).isStore = true := by
      rw [MemQueueEntry.isStore, hf.op]
      exact hst
    simpa [writes, hf.queue, hst', hf.paddr] using haddr

/-- The lines for the queue after the move, if what the entry writes is counted. -/
theorem lines_moved {f : LsqEntry → LsqEntry} {naw : Bool} {ls : List SbLine} {n : ℤ}
    (h : Accounted u s) (he : Oldest s e) (hf : Moves f e naw) (hst : e.isStore = true)
    (hl : LinesFor ls n fun b => writers u s.theMemQueue b +
      if e.thePaddr ≠ 0 ∧ block u e.thePaddr = b then 1 else 0) :
    LinesFor ls n (writers u (s.moved e.seq f naw).theMemQueue) := by
  refine hl.congr ?_
  intro b
  rw [writers_moved h (oldest_find h he) he.2.1]
  have hst' : (f e).isStore = true := by
    rw [MemQueueEntry.isStore, hf.op]
    exact hst
  by_cases hb : e.thePaddr ≠ 0 ∧ block u e.thePaddr = b
  · have hyes : writes u b (f e) = true := by
      simpa [writes, hf.queue, hst', hf.paddr, hb.2] using hb.1
    rw [if_pos hb, if_pos hyes]
  · have hno : writes u b (f e) = false := by
      by_contra hc
      simp only [writes, hf.paddr, Bool.not_eq_false, Bool.and_eq_true, bne_iff_ne,
        beq_iff_eq] at hc
      exact hb ⟨hc.1.2, hc.2⟩
    rw [if_neg hb, hno]
    rfl

theorem lines_moved_of_load {f : LsqEntry → LsqEntry} {naw : Bool} (h : Accounted u s)
    (he : Oldest s e) (hf : Moves f e naw) (hst : e.isStore = false) :
    LinesFor s.theLines s.theFalsecount (writers u (s.moved e.seq f naw).theMemQueue) := by
  refine h.lines.congr ?_
  intro b
  have hst' : (f e).isStore = false := by
    rw [MemQueueEntry.isStore, hf.op]
    exact hst
  rw [writers_moved h (oldest_find h he) he.2.1]
  simp [writes, hst']

/-- **An atomic operation retires**, with a checkpoint. -/
theorem retireAtomic_spec (h : Sound u s) (he : Oldest s e) (hat : e.isAtomic = true) :
    ∃ t, s.retireAtomic u cm e = .ok t ∧ Sound u t := by
  rw [retireAtomic]
  by_cases hdone : e.theStoreComplete = true
  · rw [if_pos hdone]
    exact retireErased_spec h he
  · rw [if_neg hdone]
    have hop : e.theOperation ≠ .kStore := by
      intro hc
      simp [MemQueueEntry.isAtomic, hc] at hat
    have hst : e.isStore = true := by
      rw [MemQueueEntry.isAtomic, Bool.or_eq_true] at hat
      rw [MemQueueEntry.isStore, Bool.or_assoc, Bool.or_eq_true, Bool.or_eq_true]
      exact Or.inr hat
    have hf : Moves (fun e : LsqEntry => { e with theQueue := .kSSB }) e false := by
      rw [← h.accounted.plain e he.1 he.2.1 hop]
      exact moves_moveToSSB e
    have hcheck := checkCounts_moveToSSB h.accounted (oldest_find h.accounted he) he.2.1 false
    obtain ⟨ls, n, hl, hp, hreq⟩ := requireWritePermission_spec cm (u := u)
      (s := (s.moveToSSB e.seq false).createCheckpoint e.seq) h.accounted.lines e
    have hs := h.moved (m := false) he hf (lines_moved h.accounted he hf hst hl) hp
    obtain ⟨hret, e', he', hseq', hq', hw'⟩ :=
      retired_moved (m := false) ls n h.accounted he hf
    have hck := hs.createCheckpoint hret ⟨e', he', hseq', hq'⟩ (h.older he)
    refine ⟨_, ?_, hck.required cm (e := e) hret ?_ ?_⟩
    · simp only [hcheck, hreq, bind, Except.bind, pushSRB_required]
      rfl
    · intro haddr
      exact ⟨e', he', hseq', hw' hst haddr⟩
    · intro c hc
      rcases mem_append.mp hc with hc | hc
      · exact Nat.le_of_lt (h.older he c hc c.insn (Or.inl rfl))
      · exact Nat.le_of_eq (congrArg StoreCheckpoint.insn (mem_singleton.mp hc))

/-- A load that moves to the SSB bypasses the store buffer from then on. -/
theorem modify_moveToSSB (s : SbCore) (k : ℕ) :
    (s.moveToSSB k true).modify k (fun e => { e with theBypassSB := true }) =
      s.moved k (fun e => { e with theQueue := .kSSB, theBypassSB := true }) true := by
  simp only [moveToSSB, SbCore.modify, SbCore.moved]
  rw [Keyed.update_update (f := fun e : LsqEntry => { e with theQueue := .kSSB }) fun _ => rfl]

/-- **A load retires**, perhaps with a checkpoint. -/
theorem retireLoad_spec (h : Sound u s) (he : Oldest s e) (hop : e.theOperation = .kLoad)
    (speculate : Bool) : ∃ t, s.retireLoad u cm e speculate = .ok t ∧ Sound u t := by
  rw [retireLoad]
  split
  · have hst : e.isStore = false := by simp [MemQueueEntry.isStore, hop]
    have hf : Moves (fun e : LsqEntry => { e with theQueue := .kSSB, theBypassSB := true }) e
        true := ⟨fun _ => rfl, rfl, rfl, rfl, rfl⟩
    have hcheck := checkCounts_moveToSSB h.accounted (oldest_find h.accounted he) he.2.1 true
    have hs := h.moved (m := false) he hf (lines_moved_of_load h.accounted he hf hst) rfl
    obtain ⟨hret, e', he', hseq', hq', _⟩ := retired_moved (m := false) s.theLines
      s.theFalsecount h.accounted he hf
    refine ⟨_, ?_, hs.createCheckpoint hret ⟨e', he', hseq', hq'⟩ (h.older he)⟩
    simp only [hcheck, bind, Except.bind]
    rw [modify_moveToSSB]
    rfl
  · exact retireErased_spec h he

/-- **A store retires.** -/
theorem retireStore_spec (h : Sound u s) (he : Oldest s e) (hop : e.theOperation = .kStore)
    (annulled : Bool) : ∃ t, s.retireStore u cm e annulled = .ok t ∧ Sound u t := by
  rw [retireStore]
  split
  · exact retireErased_spec h he
  · have hst : e.isStore = true := by simp [MemQueueEntry.isStore, hop]
    have hf := moves_moveToSSB e
    have hcheck := checkCounts_moveToSSB h.accounted (oldest_find h.accounted he) he.2.1
      e.theBypassSB
    obtain ⟨ls, n, hl, hp, hreq⟩ := requireWritePermission_spec cm (u := u)
      (s := s.moveToSSB e.seq e.theBypassSB) h.accounted.lines e
    have hs := h.moved (m := true) he hf (lines_moved h.accounted he hf hst hl) hp
    obtain ⟨hret, e', he', hseq', hq', hw'⟩ :=
      retired_moved (m := true) ls n h.accounted he hf
    refine ⟨_, ?_, hs.required cm (e := e) hret ?_ ?_⟩
    · simp only [hcheck, hreq, bind, Except.bind, pushSRB_required]
      rfl
    · intro haddr
      exact ⟨e', he', hseq', hw' hst haddr⟩
    · intro c hc
      exact Nat.le_of_lt (h.older he c hc c.insn (Or.inl rfl))

/-- **A MEMBAR retires**, perhaps with a checkpoint. -/
theorem retireMEMBAR_spec (h : Sound u s) (he : Oldest s e)
    (hop : e.theOperation = .kMEMBARMarker) :
    ∃ t, s.retireMEMBAR u cm e = .ok t ∧ Sound u t := by
  rw [retireMEMBAR]
  split
  · exact retireErased_spec h he
  · have hst : e.isStore = false := by simp [MemQueueEntry.isStore, hop]
    have hne : e.theOperation ≠ .kStore := by simp [hop]
    have hf : Moves (fun e : LsqEntry => { e with theQueue := .kSSB }) e false := by
      rw [← h.accounted.plain e he.1 he.2.1 hne]
      exact moves_moveToSSB e
    have hcheck := checkCounts_moveToSSB h.accounted (oldest_find h.accounted he) he.2.1 false
    have hs := fun m : Bool =>
      h.moved (m := m) he hf (lines_moved_of_load h.accounted he hf hst) rfl
    obtain ⟨hret, e', he', hseq', hq', _⟩ := retired_moved (m := false) s.theLines
      s.theFalsecount h.accounted he hf
    have hck := (hs false).createCheckpoint hret ⟨e', he', hseq', hq'⟩ (h.older he)
    simp only [hcheck, bind, Except.bind]
    refine ⟨_, rfl, ?_⟩
    cases cm with
    | kSC =>
      simp only [speculateMEMBAR]
      split
      · exact hck
      · exact hs true
    | kTSO => exact hck
    | kRMO => exact hs false

/-- **`retireMem`**. -/
theorem Sound.retireMem (h : Sound u s) (annulled speculate : Bool) :
    ∃ t, s.retireMem u cm annulled speculate = .ok t ∧ Sound u t := by
  rw [SbCore.retireMem]
  cases he : s.lsqHead with
  | none => exact ⟨s, rfl, h⟩
  | some e =>
    have hold := h.accounted.oldest he
    cases hop : e.theOperation with
    | kLoad =>
      simp only [hop]
      exact retireLoad_spec h hold hop speculate
    | kStore =>
      simp only [hop]
      exact retireStore_spec h hold hop annulled
    | kRMW | kCAS =>
      simp only [hop]
      exact retireAtomic_spec h hold (by simp [MemQueueEntry.isAtomic, hop])
    | kMEMBARMarker =>
      simp only [hop]
      exact retireMEMBAR_spec h hold hop

/-! ### Commit -/

/-- **The oldest instruction commits**: its checkpoint goes, and its entry goes to the SB, or
away. -/
structure Commits (u : BitVec 64) (x : RetiredInsn) (s t : SbCore) : Prop where
  num : t.theMemorySequenceNum = s.theMemorySequenceNum
  checkpoints : ∀ c ∈ t.theCheckpoints, c ∈ s.theCheckpoints ∧ c.insn ≠ x.seq
  opened : ∀ k, t.theOpenCheckpoint = some k → s.theOpenCheckpoint = some k
  resolving : t.resolving = s.resolving
  source : ∀ e' ∈ t.theMemQueue, ∃ e ∈ s.theMemQueue, Alike e e' ∧
    (e'.theQueue = e.theQueue ∨ (e.seq = x.seq ∧ e'.theQueue = .kSB))
  stays : ∀ e ∈ s.theMemQueue, e.seq ≠ x.seq → e ∈ t.theMemQueue
  permissions : ∀ b, writers u t.theMemQueue b ≠ 0 → permOf t.theLines b = permOf s.theLines b

theorem Ordered.lt_rest (h : Ordered { s with theSRB := x :: rest }) :
    ∀ y ∈ rest, x.seq < y.seq := by
  intro y hy
  have hsorted := h.sorted
  rw [map_cons, pairwise_cons] at hsorted
  exact hsorted.1 y.seq (mem_map_of_mem hy)

theorem Ordered.commit (h : Ordered { s with theSRB := x :: rest }) (hc : Commits u x s t) :
    Ordered { t with theSRB := rest } := by
  have hlt := h.lt_rest
  have hsorted := h.sorted
  rw [map_cons, pairwise_cons] at hsorted
  refine ⟨hsorted.2, ?_, ?_, ?_, ?_, ?_⟩
  · intro y hy
    have hle := h.known y (mem_cons_of_mem x hy)
    show y.seq ≤ t.theMemorySequenceNum
    rw [hc.num]
    exact hle
  · intro y hy e' he' hq
    obtain ⟨e, he, hal, _⟩ := hc.source e' he'
    rw [hal.seq]
    exact h.lsq y (mem_cons_of_mem x hy) e he (hal.queue.mp hq)
  · intro y hy e' he' hseq
    obtain ⟨e, he, hal, _⟩ := hc.source e' he'
    rw [hal.op]
    exact h.ops y (mem_cons_of_mem x hy) e he (hal.seq ▸ hseq)
  · intro y hy hm
    obtain ⟨e, he, hseq, hq⟩ := h.blocked y (mem_cons_of_mem x hy) hm
    have := hlt y hy
    exact ⟨e, hc.stays e he (by omega), hseq, hq⟩
  · intro e' he' hq y hy hye
    obtain ⟨e, he, hal, hcase⟩ := hc.source e' he'
    rw [hal.seq] at hye
    rcases hcase with hsame | ⟨hex, _⟩
    · obtain ⟨hres, hat, hall⟩ :=
        h.performed e he (hsame ▸ hq) y (mem_cons_of_mem x hy) hye
      refine ⟨hc.resolving.trans hres, hal.isAtomic_eq.trans hat, ?_⟩
      intro z hz hle
      rw [hal.seq] at hle
      exact hall z (mem_cons_of_mem x hz) hle
    · have := hlt y hy
      omega

theorem Covered.commit (h : Covered u { s with theSRB := x :: rest } c)
    (ho : Ordered { s with theSRB := x :: rest }) (hc : Commits u x s t)
    (hne : c.insn ≠ x.seq) : Covered u { t with theSRB := rest } c := by
  have hlt := ho.lt_rest
  have hxc : x.seq < c.insn := by
    obtain ⟨y, hy, hyc⟩ := h.retired
    rcases mem_cons.mp hy with rfl | hy
    · exact absurd hyc.symm hne
    · rw [← hyc]
      exact hlt y hy
  refine h.of ?_ ?_ ?_ ?_ ?_ hc.permissions
  · rintro i ⟨hle, ⟨y, hy, hyi⟩, hlater⟩
    refine ⟨hle, ⟨y, ?_, hyi⟩, fun c' hc' => hlater c' (hc.checkpoints c' hc').1⟩
    rcases mem_cons.mp hy with rfl | hy
    · omega
    · exact hy
  · intro e he hu _
    have hle := hu.1
    exact ⟨e, hc.stays e he (by omega), Alike.refl e⟩
  · intro e he hseq hq
    exact Or.inl ⟨e, hc.stays e he (by omega), hseq, hq⟩
  · intro e' he'
    obtain ⟨e, he, hal, _⟩ := hc.source e' he'
    exact Or.inl ⟨e, he, hal.seq⟩
  · intro k hk
    exact h.opened k (hc.opened k hk)

theorem Sound.commits (h : Sound u { s with theSRB := x :: rest }) (hc : Commits u x s t)
    (ht : Accounted u t) : Sound u { t with theSRB := rest } := by
  refine ⟨ht.congr rfl rfl rfl rfl rfl rfl rfl, h.ordered.commit hc, ?_⟩
  intro c hct
  obtain ⟨hcs, hne⟩ := hc.checkpoints c hct
  exact (h.covered c hcs).commit h.ordered hc hne

/-- A core whose oldest instruction commits, without its checkpoint. -/
theorem freed_spec (s : SbCore) (k : ℕ) :
    ∃ cs o, (if s.hasCheckpoint k then s.freeCheckpoint k else s) =
        { s with theCheckpoints := cs, theOpenCheckpoint := o } ∧
      (∀ c ∈ cs, c ∈ s.theCheckpoints ∧ c.insn ≠ k) ∧
      ∀ i, o = some i → s.theOpenCheckpoint = some i := by
  split
  · refine ⟨_, _, rfl, ?_, ?_⟩
    · intro c hc
      obtain ⟨hmem, hne⟩ := mem_filter.mp hc
      exact ⟨hmem, bne_iff_ne.mp hne⟩
    · intro i hi
      split at hi
      · cases hi
      · exact hi
  · rename_i hno
    refine ⟨s.theCheckpoints, s.theOpenCheckpoint, rfl, ?_, fun _ hi => hi⟩
    intro c hc
    refine ⟨hc, ?_⟩
    intro heq
    exact hno (any_eq_true.mpr ⟨c, hc, beq_iff_eq.mpr heq⟩)

/-- What a commit does to an entry that goes from the SSB to the SB. -/
theorem performed_spec (e : LsqEntry) (p : Prop) [Decidable p] (hp : p → e.theQueue = .kSSB) :
    Alike e (if p then { e with theQueue := .kSB } else e) ∧
      ((if p then { e with theQueue := .kSB } else e).theQueue = e.theQueue ∨
        (if p then { e with theQueue := .kSB } else e).theQueue = .kSB) := by
  split
  · rename_i hpp
    refine ⟨alike_moveToSB ?_, Or.inr rfl⟩
    rw [hp hpp]
    intro hc
    cases hc
  · exact ⟨Alike.refl e, Or.inl rfl⟩

theorem commits_modify {f : LsqEntry → LsqEntry} {cs : List StoreCheckpoint} {o : Option ℕ}
    (h : Accounted u s) (hcs : ∀ c ∈ cs, c ∈ s.theCheckpoints ∧ c.insn ≠ x.seq)
    (ho : ∀ i, o = some i → s.theOpenCheckpoint = some i)
    (hf : ∀ e, Alike e (f e) ∧ ((f e).theQueue = e.theQueue ∨ (f e).theQueue = .kSB)) :
    Commits u x s
      ({ s with theCheckpoints := cs, theOpenCheckpoint := o }.modify x.seq f) := by
  refine ⟨rfl, hcs, ho, rfl, ?_, ?_, fun _ _ => rfl⟩
  · intro e' he'
    rcases (mem_modify h).mp he' with ⟨he, _⟩ | ⟨e, he, hek, rfl⟩
    · exact ⟨e', he, Alike.refl e', Or.inl rfl⟩
    · refine ⟨e, he, (hf e).1, ?_⟩
      rcases (hf e).2 with hq | hq
      · exact Or.inl hq
      · exact Or.inr ⟨hek, hq⟩
  · intro e he hne
    exact (mem_modify h).mpr (Or.inl ⟨he, hne⟩)

/-- **The commit of an instruction.** -/
theorem commitInsn_spec (h : Sound u { s with theSRB := x :: rest }) :
    ∃ t, s.commitInsn u x = .ok t ∧ Sound u { t with theSRB := rest } := by
  have hacc : Accounted u s := h.accounted.congr rfl rfl rfl rfl rfl rfl rfl
  obtain ⟨cs, o, hfree, hcs, ho⟩ := freed_spec s x.seq
  have hacc' : Accounted u { s with theCheckpoints := cs, theOpenCheckpoint := o } :=
    hacc.congr rfl rfl rfl rfl rfl rfl rfl
  have hmodify : ∀ f : LsqEntry → LsqEntry,
      (∀ e, Alike e (f e) ∧ ((f e).theQueue = e.theQueue ∨ (f e).theQueue = .kSB)) →
      ∃ t, (Except.ok ({ s with theCheckpoints := cs, theOpenCheckpoint := o }.modify x.seq f) :
        Except SbFault SbCore) = .ok t ∧ Sound u { t with theSRB := rest } := by
    intro f hf
    refine ⟨_, rfl, h.commits (commits_modify hacc hcs ho hf) ?_⟩
    exact hacc'.modify (fun e => (hf e).1.seq) fun e _ => (hf e).1
  rw [commitInsn, hfree, commitEffect]
  cases hop : x.theOperation with
  | kStore => exact hmodify _ fun e => performed_spec e _ id
  | kLoad | kRMW | kCAS => exact hmodify _ fun e => performed_spec e _ And.right
  | kMEMBARMarker =>
    obtain ⟨t, ht, hacct, hso, hq, hp⟩ := eraseLSQ_spec (k := x.seq) hacc' (by
      intro e he hzero
      have hopx := h.ordered.ops x mem_cons_self e (mem_of_find he) (seq_of_find he)
      simp [zeroStore, MemQueueEntry.isStore, hopx, hop] at hzero)
    refine ⟨t, ht, h.commits (t := t) ⟨hso.num, ?_, ?_, hso.resolving, ?_, ?_, hp⟩ hacct⟩
    · rw [hso.checkpoints]
      exact hcs
    · rw [hso.opened]
      exact ho
    · intro e' he'
      rw [hq] at he'
      exact ⟨e', mem_of_mem_filter he', Alike.refl e', Or.inl rfl⟩
    · intro e he hne
      rw [hq, Keyed.erase, mem_filter, bne_iff_ne]
      exact ⟨he, hne⟩

/-- **The loop of `commit`** stops at an instruction that must not commit. -/
theorem commitLoop_spec (l : List RetiredInsn) (h : Sound u { s with theSRB := l }) :
    ∃ t, commitLoop u s l = .ok t ∧ Sound u t ∧
      ∀ x, t.theSRB.head? = some x → x.mayCommit = false := by
  induction l generalizing s with
  | nil =>
    refine ⟨_, rfl, h, ?_⟩
    intro x hx
    cases hx
  | cons x rest ih =>
    rw [commitLoop]
    by_cases hm : x.mayCommit = true
    · obtain ⟨t, ht, hs⟩ := commitInsn_spec h
      simp only [if_pos hm, ht, bind, Except.bind]
      exact ih hs
    · rw [if_neg hm]
      refine ⟨_, rfl, h, ?_⟩
      intro y hy
      cases hy
      exact Bool.eq_false_iff.mpr hm

/-- At the end of the cycle no entry of the SB belongs to an instruction that has not
committed. -/
theorem Sound.endCycle (h : Sound u s)
    (hhead : ∀ x, s.theSRB.head? = some x → x.mayCommit = false) :
    Sound u { s with resolving := false } := by
  refine ⟨h.accounted.congr rfl rfl rfl rfl rfl rfl rfl, ?_, ?_⟩
  · refine ⟨h.ordered.sorted, h.ordered.known, h.ordered.lsq, h.ordered.ops, h.ordered.blocked, ?_⟩
    intro e he hq x hx hxe
    obtain ⟨_, _, hall⟩ := h.ordered.performed e he hq x hx hxe
    have hsorted := h.ordered.sorted
    have hx' : x ∈ s.theSRB := hx
    cases hsrb : s.theSRB with
    | nil =>
      rw [hsrb] at hx'
      cases hx'
    | cons y rest =>
      rw [hsrb] at hx' hsorted
      have hle : y.seq ≤ x.seq := by
        rcases mem_cons.mp hx' with rfl | hr
        · exact Nat.le_refl _
        · rw [map_cons, pairwise_cons] at hsorted
          exact Nat.le_of_lt (hsorted.1 x.seq (mem_map_of_mem hr))
      have hno := hhead y (by rw [hsrb, head?_cons])
      have hyes := hall y (by rw [hsrb]; exact mem_cons_self) (hxe ▸ hle)
      rw [hno] at hyes
      cases hyes
  · intro c hc
    have hcov := h.covered c hc
    exact ⟨hcov.retired, hcov.own, hcov.opened, hcov.required, hcov.distinct, hcov.held⟩

end SbCore

end UArch

end Flexus
