import Flexus.UArch.StoreRetirement

/-!
# Aborts, and all runs of the store buffer

An abort of a speculation takes the youngest instructions off the retirement buffer, and their
stores off the queue. With it, all steps of a store buffer are covered.

The one way to lose the invariant is a store at the physical address zero. It is not counted as
it enters the store buffer, and block zero is released as it leaves: while no other store to
block zero is left behind this does no harm, and the invariant holds in every run of such steps
(`Flexus.UArch.permissions_follow_stores`). Otherwise the line of block zero is gone too early,
and with it a permission that a checkpoint still holds (`Flexus.UArch.zeroStoreRun_loses`).
-/

namespace Flexus

open List

namespace UArch

open Flexus.Lib

namespace SbCore

variable {u : BitVec 64} {cm : ConsistencyModel} {s t : SbCore} {k b : ℕ} {e e' : LsqEntry}
  {c : StoreCheckpoint} {x : RetiredInsn}

/-! ### Aborts -/

theorem youngest_le {cs : List StoreCheckpoint} (h : youngest cs = some k) :
    ∀ c ∈ cs, c.insn ≤ k := by
  have haux : ∀ {f : Option ℕ → StoreCheckpoint → Option ℕ} (cs : List StoreCheckpoint)
      (o : Option ℕ), cs.foldl f o = some k → (∀ c, f none c = some c.insn) →
      (∀ j c, f (some j) c = if j < c.insn then some c.insn else some j) →
      (∀ i, o = some i → i ≤ k) ∧ ∀ c ∈ cs, c.insn ≤ k := by
    intro f cs
    induction cs with
    | nil =>
      intro o ho hnone hsome
      refine ⟨?_, fun c hc => absurd hc not_mem_nil⟩
      rintro i rfl
      exact Nat.le_of_eq (Option.some.inj ho)
    | cons c cs ih =>
      intro o ho hnone hsome
      rw [foldl_cons] at ho
      obtain ⟨hacc, hall⟩ := ih _ ho hnone hsome
      cases o with
      | none =>
        refine ⟨fun i hi => (by cases hi), ?_⟩
        intro c' hc'
        rcases mem_cons.mp hc' with rfl | hc'
        · exact hacc c'.insn (hnone c')
        · exact hall c' hc'
      | some j =>
        have hboth : j ≤ k ∧ c.insn ≤ k := by
          by_cases hlt : j < c.insn
          · have := hacc c.insn ((hsome j c).trans (if_pos hlt))
            omega
          · have := hacc j ((hsome j c).trans (if_neg hlt))
            omega
        refine ⟨?_, ?_⟩
        · rintro i hi
          cases hi
          exact hboth.1
        · intro c' hc'
          rcases mem_cons.mp hc' with rfl | hc'
          · exact hboth.2
          · exact hall c' hc'
  exact (haux cs none h (fun _ => rfl) fun _ _ => rfl).2

/-- **The instructions before a retired one** are the older ones. -/
theorem mem_takeWhile_srb {l : List RetiredInsn}
    (h : (l.map RetiredInsn.seq).Pairwise (· < ·)) (hk : ∃ x ∈ l, x.seq = k)
    {y : RetiredInsn} : y ∈ l.takeWhile (fun x => x.seq != k) ↔ y ∈ l ∧ y.seq < k := by
  induction l with
  | nil =>
    obtain ⟨x, hx, _⟩ := hk
    cases hx
  | cons x l ih =>
    rw [map_cons, pairwise_cons] at h
    have hlt : ∀ z ∈ l, x.seq < z.seq := fun z hz => h.1 z.seq (mem_map_of_mem hz)
    by_cases hx : x.seq = k
    · rw [takeWhile_cons_of_neg (by simp [hx])]
      constructor
      · intro hy
        cases hy
      · rintro ⟨hy, hyk⟩
        rcases mem_cons.mp hy with rfl | hy
        · omega
        · have := hlt y hy
          omega
    · rw [takeWhile_cons_of_pos (by simpa using hx), mem_cons, mem_cons]
      have hk' : ∃ z ∈ l, z.seq = k := by
        obtain ⟨z, hz, hzk⟩ := hk
        rcases mem_cons.mp hz with rfl | hz
        · exact absurd hzk hx
        · exact ⟨z, hz, hzk⟩
      rw [ih h.2 hk']
      constructor
      · rintro (rfl | ⟨hy, hyk⟩)
        · obtain ⟨z, hz, hzk⟩ := hk'
          have := hlt z hz
          exact ⟨Or.inl rfl, by omega⟩
        · exact ⟨Or.inr hy, hyk⟩
      · rintro ⟨rfl | hy, hyk⟩
        · exact Or.inl rfl
        · exact Or.inr ⟨hy, hyk⟩

/-- **An abort to a checkpoint**: what has retired before it stays, and the entries of the SB
do. -/
structure Aborts (u : BitVec 64) (k : ℕ) (s t : SbCore) : Prop where
  num : t.theMemorySequenceNum = s.theMemorySequenceNum
  srb : t.theSRB = s.theSRB.takeWhile fun x => x.seq != k
  checkpoints : t.theCheckpoints = s.theCheckpoints.filter fun c => decide (c.insn < k)
  opened : t.theOpenCheckpoint = youngest t.theCheckpoints
  resolving : t.resolving = s.resolving
  queue : ∀ e, e ∈ t.theMemQueue ↔ e ∈ s.theMemQueue ∧ e.theQueue ≠ .kLSQ ∧
    (e.theQueue = .kSSB → e.seq < k)
  permissions : ∀ b, writers u t.theMemQueue b ≠ 0 → permOf t.theLines b = permOf s.theLines b

theorem Aborts.mem_srb (ha : Aborts u k s t) (h : Ordered s) (hk : s.Retired k)
    {y : RetiredInsn} : y ∈ t.theSRB ↔ y ∈ s.theSRB ∧ y.seq < k := by
  rw [ha.srb]
  exact mem_takeWhile_srb h.sorted hk

theorem Ordered.abort (h : Ordered s) (hk : s.Retired k) (ha : Aborts u k s t) : Ordered t where
  sorted := by
    rw [ha.srb]
    exact h.sorted.sublist ((takeWhile_sublist _).map _)
  known x hx := by
    rw [ha.num]
    exact h.known x ((ha.mem_srb h hk).mp hx).1
  lsq x _ e he hq := absurd hq ((ha.queue e).mp he).2.1
  ops x hx e he hseq := h.ops x ((ha.mem_srb h hk).mp hx).1 e ((ha.queue e).mp he).1 hseq
  blocked x hx hm := by
    obtain ⟨hold, hlt⟩ := (ha.mem_srb h hk).mp hx
    obtain ⟨e, he, hseq, hq⟩ := h.blocked x hold hm
    refine ⟨e, (ha.queue e).mpr ⟨he, ?_, ?_⟩, hseq, hq⟩
    · rw [hq]
      intro hc
      cases hc
    · intro _
      omega
  performed e he hq x hx hxe := by
    obtain ⟨hres, hat, hall⟩ := h.performed e ((ha.queue e).mp he).1 hq x
      ((ha.mem_srb h hk).mp hx).1 hxe
    refine ⟨ha.resolving.trans hres, hat, ?_⟩
    intro y hy hle
    exact hall y ((ha.mem_srb h hk).mp hy).1 hle

theorem Covered.abort (h : Covered u s c) (ho : Ordered s) (hk : s.hasCheckpoint k = true)
    (hret : s.Retired k) (hct : c ∈ t.theCheckpoints) (ha : Aborts u k s t) : Covered u t c := by
  have hc : c.insn < k := by
    rw [ha.checkpoints, mem_filter, decide_eq_true_eq] at hct
    exact hct.2
  obtain ⟨c₀, hc₀, hc₀k⟩ := any_eq_true.mp hk
  rw [beq_iff_eq] at hc₀k
  refine h.of ?_ ?_ ?_ ?_ ?_ ha.permissions
  · rintro i ⟨hle, ⟨y, hy, hyi⟩, hlater⟩
    have hik := hlater c₀ hc₀ (by omega)
    refine ⟨hle, ⟨y, (ha.mem_srb ho hret).mpr ⟨hy, by omega⟩, hyi⟩, ?_⟩
    intro c' hc'
    rw [ha.checkpoints] at hc'
    exact hlater c' (mem_of_mem_filter hc')
  · intro e he hu _
    have hek := hu.2.2 c₀ hc₀ (by omega)
    exact ⟨e, (ha.queue e).mpr ⟨he, ho.ne_lsq he hu.2.1, fun _ => by omega⟩, Alike.refl e⟩
  · intro e he hseq hq
    refine Or.inl ⟨e, (ha.queue e).mpr ⟨he, ?_, fun _ => by omega⟩, hseq, hq⟩
    rw [hq]
    intro hcq
    cases hcq
  · intro e he
    exact Or.inl ⟨e, ((ha.queue e).mp he).1, rfl⟩
  · intro i hi
    rw [ha.opened] at hi
    exact youngest_le hi c hct

/-- The entries of the SSB that an abort erases. -/
def younger (k : ℕ) (e : LsqEntry) : Bool := e.theQueue == .kSSB && decide (k ≤ e.seq)

theorem younger_iff : younger k e = true ↔ e.theQueue = .kSSB ∧ k ≤ e.seq := by
  rw [younger, Bool.and_eq_true, beq_iff_eq, decide_eq_true_eq]

/-- **`doAbortSpeculation`**, to a checkpoint, unless a store to the address zero goes while
others write block zero. The oldest entry of the SSB may be gone already, and then the SSB is
empty. -/
theorem doAbortSpeculation_spec (h : Sound u s) (hk : s.hasCheckpoint k = true)
    (hz : (∃ e ∈ s.theMemQueue, younger k e = true ∧ zeroStore e = true) →
      ∀ e ∈ s.theMemQueue, writes u 0 e = true → younger k e = true) :
    ∃ t, s.doAbortSpeculation u k = .ok t ∧ Sound u t := by
  obtain ⟨c₀, hc₀, hc₀k⟩ := any_eq_true.mp hk
  rw [beq_iff_eq] at hc₀k
  have hcov := h.covered c₀ hc₀
  have hret : s.Retired k := hc₀k ▸ hcov.retired
  obtain ⟨s₁, hs₁, hacc₁, ho₁, hq₁, hl₁⟩ := clearLSQ_spec h.accounted
  have hmem₁ : ∀ e, e ∈ s₁.theMemQueue ↔ e ∈ s.theMemQueue ∧ e.theQueue ≠ .kLSQ := by
    intro e
    rw [hq₁, mem_filter, bne_iff_ne]
  -- All of the SSB that is there is from the checkpoint on, if nothing is found.
  have hfound : ∀ e ∈ s₁.theMemQueue,
      (e.theQueue == .kSSB && (!(s₁.theMemQueue.any fun e => e.theQueue == .kSSB &&
        decide (k ≤ e.seq)) || decide (k ≤ e.seq))) = younger k e := by
    intro e he
    cases hany : s₁.theMemQueue.any fun e => e.theQueue == .kSSB && decide (k ≤ e.seq) with
    | true => rfl
    | false =>
      have hnone := any_eq_false.mp hany
      have hle : e.theQueue = .kSSB → k ≤ e.seq := by
        intro hq
        rcases hcov.own with ⟨e₀, he₀, hseq, hq₀⟩ | hall
        · exact absurd (by simp [hq₀, hseq, hc₀k])
            (hnone e₀ ((hmem₁ e₀).mpr ⟨he₀, by simp [hq₀]⟩))
        · exact hc₀k ▸ hall e ((hmem₁ e).mp he).1
      rw [Bool.eq_iff_iff, younger_iff]
      simp only [Bool.not_false, Bool.true_or, Bool.and_true, beq_iff_eq]
      exact ⟨fun hq => ⟨hq, hle hq⟩, And.left⟩
  obtain ⟨t, ht, hacct, hot, hqt, hpt⟩ := eraseSSB_spec
    (s := { s₁ with theSRB := s₁.theSRB.takeWhile fun x => x.seq != k }) (p := younger k)
    (hacc₁.congr rfl rfl rfl rfl rfl rfl rfl) (fun e _ he => (younger_iff.mp he).1) hfound (by
      rintro ⟨e, he, hy, hzero⟩ e' he' hw
      exact hz ⟨e, ((hmem₁ e).mp he).1, hy, hzero⟩ e' ((hmem₁ e').mp he').1 hw)
  have ha : Aborts u k s { t with
      theCheckpoints := t.theCheckpoints.filter fun c => decide (c.insn < k)
      theOpenCheckpoint := youngest (t.theCheckpoints.filter fun c => decide (c.insn < k)) } := by
    refine ⟨hot.num.trans ho₁.num, ?_, ?_, rfl, hot.resolving.trans ho₁.resolving, ?_, ?_⟩
    · rw [← ho₁.srb]
      exact hot.srb
    · rw [← ho₁.checkpoints]
      show t.theCheckpoints.filter _ = _
      rw [hot.checkpoints]
    · intro e
      show e ∈ t.theMemQueue ↔ _
      rw [hqt, mem_filter]
      show e ∈ s₁.theMemQueue ∧ _ ↔ _
      rw [hmem₁, Bool.not_eq_true', ← Bool.not_eq_true, younger_iff, and_assoc]
      refine and_congr_right fun _ => and_congr_right fun _ => ?_
      constructor
      · intro hno hq
        exact Nat.lt_of_not_le fun hle => hno ⟨hq, hle⟩
      · rintro hlt ⟨hq, hle⟩
        have := hlt hq
        omega
    · intro b hb
      have hpb := hpt b hb
      rw [← hl₁]
      exact hpb
  refine ⟨{ t with
    theCheckpoints := t.theCheckpoints.filter fun c => decide (c.insn < k)
    theOpenCheckpoint := youngest (t.theCheckpoints.filter fun c => decide (c.insn < k)) }, ?_,
    ⟨hacct.congr rfl rfl rfl rfl rfl rfl rfl, h.ordered.abort hret ha, ?_⟩⟩
  · have hclear : clearSSBFrom u { s₁ with theSRB := s₁.theSRB.takeWhile fun x => x.seq != k } k =
        .ok t := ht
    simp only [doAbortSpeculation, hs₁, hclear, bind, Except.bind]
  · intro c hc
    have hcs : c ∈ s.theCheckpoints := by
      have hmem := hc
      rw [ha.checkpoints] at hmem
      exact mem_of_mem_filter hmem
    exact (h.covered c hcs).abort h.ordered hk hret hc ha

/-- **`reset`**, unless a store to the address zero goes while others write block zero. -/
theorem reset_spec (h : Sound u s)
    (hz : (∃ e ∈ s.theMemQueue, e.theQueue = .kSSB ∧ zeroStore e = true) →
      ∀ e ∈ s.theMemQueue, writes u 0 e = true → e.theQueue = .kSSB) :
    ∃ t, s.reset u = .ok t ∧ Sound u t := by
  obtain ⟨s₁, hs₁, hacc₁, ho₁, hq₁, hl₁⟩ := clearLSQ_spec h.accounted
  have hmem₁ : ∀ e, e ∈ s₁.theMemQueue → e ∈ s.theMemQueue := by
    intro e he
    rw [hq₁] at he
    exact mem_of_mem_filter he
  obtain ⟨t, ht, hacct, hot, hqt, hpt⟩ := eraseSSB_spec (s := { s₁ with theSRB := [] })
    (p := fun e => e.theQueue == .kSSB) (hacc₁.congr rfl rfl rfl rfl rfl rfl rfl)
    (fun e _ he => beq_iff_eq.mp he) (fun _ _ => rfl) (by
      rintro ⟨e, he, hq, hzero⟩ e' he' hw
      exact beq_iff_eq.mpr (hz ⟨e, hmem₁ e he, beq_iff_eq.mp hq, hzero⟩ e' (hmem₁ e' he') hw))
  have hsrb : t.theSRB = [] := hot.srb
  refine ⟨{ t with theCheckpoints := [], theOpenCheckpoint := none, resolving := false }, ?_,
    ⟨hacct.congr rfl rfl rfl rfl rfl rfl rfl, ?_, ?_⟩⟩
  · have hclear : clearSSB u { s₁ with theSRB := [] } = .ok t := ht
    simp only [SbCore.reset, hs₁, hclear, bind, Except.bind]
  · have hno : ∀ x, x ∉ t.theSRB := by
      intro x hx
      rw [hsrb] at hx
      cases hx
    refine ⟨?_, fun x hx => absurd hx (hno x), fun x hx => absurd hx (hno x),
      fun x hx => absurd hx (hno x), fun x hx => absurd hx (hno x),
      fun _ _ _ x hx => absurd hx (hno x)⟩
    show (t.theSRB.map RetiredInsn.seq).Pairwise (· < ·)
    rw [hsrb]
    exact List.Pairwise.nil
  · intro c hc
    cases hc

/-! ### All steps -/

/-- The entries of the store buffer that a step erases, but for MEMBARs and loads. -/
def leaving (s : SbCore) (ev : SbEvent) (e : LsqEntry) : Bool :=
  match ev with
  | .completeStore k => e.seq == k && (e.theQueue == .kSB &&
      (!s.resolving || (e.theOperation == .kStore && e.thePaddr == 0)))
  | .commit (some k) => s.hasCheckpoint k && younger k e
  | .reset => e.theQueue == .kSSB
  | _ => false

/-- **What has to be avoided**: that a store to the physical address zero leaves the store
buffer, and leaves an entry behind that writes block zero at another address. -/
def Allowed (u : BitVec 64) (s : SbCore) (ev : SbEvent) : Prop :=
  (∃ e ∈ s.theMemQueue, s.leaving ev e = true ∧ zeroStore e = true) →
    ∀ e ∈ s.theMemQueue, writes u 0 e = true → s.leaving ev e = true

instance (u : BitVec 64) (s : SbCore) (ev : SbEvent) : Decidable (Allowed u s ev) :=
  inferInstanceAs (Decidable (_ → _))

/-- **`commit`**, with an abort in front of it or without. -/
theorem commit_spec (h : Sound u s) (abort : Option ℕ) (ha : Allowed u s (.commit abort)) :
    ∃ t, s.commit u abort = .ok t ∧ Sound u t := by
  obtain ⟨s₁, hs₁, hsound₁⟩ : ∃ s₁, s.abortTo u abort = .ok s₁ ∧ Sound u s₁ := by
    cases abort with
    | none => exact ⟨s, rfl, h⟩
    | some k =>
      by_cases hk : s.hasCheckpoint k = true
      · rw [abortTo]
        simp only [if_pos hk]
        refine doAbortSpeculation_spec h hk ?_
        rintro ⟨e, he, hy, hzero⟩ e' he' hw
        have hleave := ha ⟨e, he, by rw [leaving, hk, hy]; rfl, hzero⟩ e' he' hw
        rw [leaving, hk, Bool.true_and] at hleave
        exact hleave
      · exact ⟨s, if_neg hk, h⟩
  obtain ⟨t, ht, hsound, hhead⟩ := commitLoop_spec s₁.theSRB hsound₁
  refine ⟨{ t with resolving := false }, ?_, hsound.endCycle hhead⟩
  simp only [SbCore.commit, hs₁, ht, bind, Except.bind]

variable (cm) in
/-- **Every allowed step** keeps the invariant, and no assertion fails in it. -/
theorem step_spec (h : Sound u s) (ev : SbEvent) (ha : Allowed u s ev) :
    ∃ t, s.step u cm ev = .ok t ∧ Sound u t := by
  cases ev with
  | insertLSQ gap op size bypassSB dependance => exact h.insertLSQ gap op size bypassSB dependance
  | resolveVAddr k anAddr xlat => exact ⟨_, rfl, h.resolveVAddr k anAddr xlat⟩
  | write k d =>
    exact ⟨_, rfl, h.modify (fun _ => rfl) fun e _ =>
      ⟨⟨rfl, Iff.rfl, rfl, rfl, fun _ => rfl⟩, rfl⟩⟩
  | squash k => exact h.squash k
  | completeStore k =>
    refine h.completeStore k ?_
    rintro e he ⟨hq, hcase⟩ hzero
    have hleave : ∀ e', s.leaving (.completeStore k) e' = true → e'.seq = k := by
      intro e' he'
      simp only [leaving, Bool.and_eq_true, beq_iff_eq] at he'
      exact he'.1
    have hthis : s.leaving (.completeStore k) e = true := by
      simp only [leaving, Bool.and_eq_true, Bool.or_eq_true, beq_iff_eq]
      exact ⟨seq_of_find he, hq, hcase⟩
    rw [writers, countP_eq_zero]
    intro e' he' hw
    have hseq := hleave e' (ha ⟨e, mem_of_find he, hthis, hzero⟩ e' he' hw)
    have heq := h.accounted.eq_of_seq he' (mem_of_find he) (hseq.trans (seq_of_find he).symm)
    subst heq
    simp only [zeroStore, Bool.and_eq_true, beq_iff_eq] at hzero
    simp [writes, hzero.2] at hw
  | acquireWritePermission a => exact h.acquireWritePermission a
  | loseWritePermission a => exact h.loseWritePermission a
  | resolveCheckpoint => exact h.resolveCheckpoint
  | retireMem annulled speculate => exact h.retireMem annulled speculate
  | commit abort => exact commit_spec h abort ha
  | reset =>
    refine reset_spec h ?_
    rintro ⟨e, he, hq, hzero⟩ e' he' hw
    exact beq_iff_eq.mp (ha ⟨e, he, beq_iff_eq.mpr hq, hzero⟩ e' he' hw)

theorem sound_init (u : BitVec 64) (cm : ConsistencyModel) : Sound u (sbMachine u cm).init := by
  refine ⟨⟨List.Pairwise.nil, fun e he => (nomatch he), fun e he => (nomatch he), rfl, rfl, rfl,
    ⟨nodup_nil, fun _ => rfl, rfl⟩⟩, ⟨List.Pairwise.nil, fun x hx => (nomatch hx),
    fun x hx => (nomatch hx), fun x hx => (nomatch hx), fun x hx => (nomatch hx),
    fun e he => (nomatch he)⟩, fun c hc => (nomatch hc)⟩

/-- The invariant holds in every state that a run of allowed steps reaches. -/
theorem sound_of_reachable (h : (sbMachine u cm).ReachableWhen (Allowed u) s) : Sound u s := by
  refine Machine.ReachableWhen.invariant (sound_init u cm) ?_ h
  intro s ev t hs ha hstep
  obtain ⟨t', ht', hs'⟩ := step_spec cm hs ev ha
  have heq : (sbMachine u cm).step s ev = .ok t' := ht'
  rw [hstep] at heq
  cases heq
  exact hs'

end SbCore

open SbCore

/-- **In a run of allowed steps the permissions follow the stores.** In every state that is
reached, the line of a block counts the stores and atomic operations of the SSB and the SB that
write the block, and is there if there are any; the lines without permission are counted; and
what a checkpoint holds it requires, and has the permission for. In the allowed steps that may
follow no assertion about a counter fails. -/
theorem permissions_follow_stores (theCoherenceUnit : BitVec 64)
    (theConsistencyModel : ConsistencyModel) (s : SbCore)
    (h : (sbMachine theCoherenceUnit theConsistencyModel).ReachableWhen
      (Allowed theCoherenceUnit) s) :
    (∀ b, (s.line b).map SbLine.count = if writers theCoherenceUnit s.theMemQueue b = 0 then none
      else some (writers theCoherenceUnit s.theMemQueue b : ℤ)) ∧
    s.theFalsecount = (s.theLines.countP fun l => !l.permission) ∧
    (∀ c ∈ s.theCheckpoints, ∀ b ∈ c.theHeldPermissions,
      (∃ r ∈ c.theRequiredPermissions, r.1 = b) ∧ ∃ l, s.line b = some l ∧ l.permission = true) ∧
    ∀ ev, Allowed theCoherenceUnit s ev →
      ∃ t, (sbMachine theCoherenceUnit theConsistencyModel).step s ev = .ok t := by
  have hs := sound_of_reachable h
  refine ⟨hs.accounted.lines.counts, hs.accounted.lines.falsecount, ?_, ?_⟩
  · intro c hc b hb
    obtain ⟨hr, hp⟩ := (hs.covered c hc).held b hb
    exact ⟨hr, Option.any_eq_true _ _ |>.mp hp⟩
  · intro ev ha
    obtain ⟨t, ht, _⟩ := step_spec theConsistencyModel hs ev ha
    exact ⟨t, ht⟩

/-- Under sequential consistency a store is waiting in the SB, a load has taken a checkpoint, and
a store to another block has retired after it, for which the permission has arrived. -/
def heldRun : List SbEvent :=
  [.insertLSQ 0 .kStore .word false false, .resolveVAddr 1 0x1000 { thePaddr := 0x100 },
    .retireMem false false, .commit none,
    .insertLSQ 0 .kLoad .word false true, .resolveVAddr 2 0x1000 { thePaddr := 0x200 },
    .retireMem false true,
    .insertLSQ 0 .kStore .word false false, .resolveVAddr 3 0x1000 { thePaddr := 0x10 },
    .retireMem false false, .acquireWritePermission 0]

theorem heldRun_follows : ∃ s, (sbMachine 64 .kSC).run heldRun = .ok s ∧
    s.theCheckpoints = [⟨2, [(0, 3)], [0]⟩] ∧
    (∀ c ∈ s.theCheckpoints, ∀ b ∈ c.theHeldPermissions,
      (∃ r ∈ c.theRequiredPermissions, r.1 = b) ∧
        ∃ l, s.line b = some l ∧ l.permission = true) ∧
    ∃ t, (sbMachine 64 .kSC).step s (.commit (some 2)) = .ok t := by
  have hends : (sbMachine 64 .kSC).endsIn (fun s =>
      decide (s.theCheckpoints = [⟨2, [(0, 3)], [0]⟩]) &&
        decide (Allowed 64 s (.commit (some 2)))) heldRun = true := by decide +kernel
  obtain ⟨s, hs, htest⟩ := Machine.exists_of_endsIn hends
  rw [Bool.and_eq_true, decide_eq_true_eq, decide_eq_true_eq] at htest
  have hreach : (sbMachine 64 .kSC).ReachableWhen (Allowed 64) s :=
    Machine.reachableWhen_of_run (g := fun s ev => decide (Allowed 64 s ev))
      (fun _ _ => of_decide_eq_true) (by decide +kernel) hs
  obtain ⟨_, _, hheld, hstep⟩ := permissions_follow_stores 64 .kSC s hreach
  exact ⟨s, hs, htest.1, hheld, hstep _ htest.2⟩

/-- Another load takes a checkpoint, and a store to the physical address zero retires. -/
def zeroStoreRun : List SbEvent :=
  heldRun ++ [.insertLSQ 0 .kLoad .word false true, .resolveVAddr 4 0x1000 { thePaddr := 0x240 },
    .retireMem false true,
    .insertLSQ 0 .kStore .word false false, .resolveVAddr 5 0x1000 { thePaddr := 0 },
    .retireMem false false]

/-- **A held permission is lost.** The speculation is aborted to the later checkpoint: the store
to the address zero leaves, and block zero is not tracked any longer, though the store before it
still writes the block, and the earlier checkpoint holds the permission. -/
theorem zeroStoreRun_loses :
    ∃ s, (sbMachine 64 .kSC).run (zeroStoreRun ++ [.commit (some 4)]) = .ok s ∧
      s.theCheckpoints = [⟨2, [(0, 3)], [0]⟩] ∧ s.line 0 = none ∧
      writers 64 s.theMemQueue 0 = 1 := by
  have hends : (sbMachine 64 .kSC).endsIn (fun s =>
      decide (s.theCheckpoints = [⟨2, [(0, 3)], [0]⟩]) && (decide (s.line 0 = none) &&
        decide (writers 64 s.theMemQueue 0 = 1))) (zeroStoreRun ++ [.commit (some 4)]) = true := by
    decide +kernel
  obtain ⟨s, hs, htest⟩ := Machine.exists_of_endsIn hends
  rw [Bool.and_eq_true, Bool.and_eq_true, decide_eq_true_eq, decide_eq_true_eq,
    decide_eq_true_eq] at htest
  exact ⟨s, hs, htest.1, htest.2.1, htest.2.2⟩

end UArch

end Flexus
