import Flexus.Lib.Machine
import Mathlib.Data.List.Nodup
import Mathlib.Data.List.TakeWhile

/-!
# Checkpoints of the core and of the MMU

A core that speculates keeps a checkpoint of its registers for some of the instructions in the
speculative retirement buffer. The MMU is saved with every such checkpoint, but elsewhere: in a
queue of the processor, to which a saved MMU is added at the back, from which one is released at
the front when a checkpoint is freed, and which is rolled back by a *number* of entries
(`core/simics/sparcmmu.cpp`). This number is counted in a walk over the retirement buffer.

A reset of the core forgets its checkpoints and leaves the queue of the MMU as it is. Saved MMUs
of before the reset then stand in front of those of after it, and it is one of the old ones that
is released when a checkpoint is freed. Nothing is lost by that: what matters is that the last
entries of the queue are those of the checkpoints.
-/

namespace Flexus

open List

namespace UArch

/-- An instruction in the speculative retirement buffer. -/
structure SrbEntry where
  theSequenceNo : ℕ
  theHasCheckpoint : Bool
  deriving DecidableEq

/-- The assertions about checkpoints. -/
inductive SpecFault
  /-- `doAbortSpeculation`: the violating instruction is not in the retirement buffer. -/
  | notInSRB
  /-- `doAbortSpeculation`: `required >= 0`. -/
  | required
  /-- `doAbortSpeculation`: there is no checkpoint at or before the violating instruction. -/
  | checkpoint
  /-- `freeCheckpoint`: the instruction has no checkpoint. -/
  | free
  /-- `releaseMMUCkpt`: there is nothing to release. -/
  | release
  /-- `rollbackMMUCkpts`: there are too few saved MMUs. -/
  | rollback
  deriving DecidableEq

/-- The checkpoints of a core and of its MMU. -/
structure SpecCore (μ : Type) where
  theSRB : List SrbEntry
  /-- `theCheckpoints`: the instructions that have one. Beside each stands the MMU of the moment
  when the checkpoint was created, which no function reads. -/
  theCheckpoints : List (ℕ × μ)
  theMMU : μ
  /-- `theMMUckpts`, from the front to the back. -/
  theMMUckpts : List μ
  /-- The number that the next instruction is going to have at least. -/
  nextSequenceNo : ℕ

namespace SpecCore

variable {μ : Type} (s : SpecCore μ)

/-- `ckptMMU`. -/
def ckptMMU : SpecCore μ := { s with theMMUckpts := s.theMMUckpts ++ [s.theMMU] }

/-- `releaseMMUCkpt`. -/
def releaseMMUCkpt : Except SpecFault (SpecCore μ) :=
  match s.theMMUckpts with
  | [] => .error .release
  | _ :: rest => .ok { s with theMMUckpts := rest }

/-- **`rollbackMMUCkpts`**. A negative number does not pass the assertion, where it is taken for
an unsigned one. -/
def rollbackMMUCkpts (n : ℤ) : Except SpecFault (SpecCore μ) :=
  if 0 ≤ n ∧ n < s.theMMUckpts.length then
    let rest := s.theMMUckpts.take (s.theMMUckpts.length - n.toNat)
    match rest.getLast? with
    | none => .error .rollback
    | some m => .ok { s with theMMU := m, theMMUckpts := rest.dropLast }
  else .error .rollback

/-- `createCheckpoint`. -/
def createCheckpoint (insn : ℕ) : SpecCore μ :=
  { s with theCheckpoints := s.theCheckpoints ++ [(insn, s.theMMU)] }.ckptMMU

/-- `freeCheckpoint`. -/
def freeCheckpoint (insn : ℕ) : Except SpecFault (SpecCore μ) :=
  if s.theCheckpoints.any fun c => c.1 == insn then
    { s with theCheckpoints := s.theCheckpoints.filter fun c => c.1 != insn }.releaseMMUCkpt
  else .error .free

/-- An instruction retires, and may get a checkpoint as it does. -/
def retire (gap : ℕ) (checkpoint : Bool) : SpecCore μ :=
  let insn := s.nextSequenceNo + gap
  let s := if checkpoint then s.createCheckpoint insn else s
  { s with theSRB := s.theSRB ++ [⟨insn, checkpoint⟩], nextSequenceNo := insn + 1 }

/-- `commit`, of the oldest instruction. -/
def commit : Except SpecFault (SpecCore μ) :=
  match s.theSRB with
  | [] => .ok s
  | x :: rest => do
    let s ← if x.theHasCheckpoint then s.freeCheckpoint x.theSequenceNo else .ok s
    .ok { s with theSRB := rest }

/-- What the walk over the retirement buffer has found: the nearest checkpoint, if it has been
reached, and what it has counted. -/
structure Walk where
  srbCkpt : Option ℕ := none
  savedDiscardCount : ℕ := 0
  ckptDiscardCount : ℕ := 0
  remainingCheckpoints : ℕ := 0
  deriving DecidableEq

/-- One turn of the loop of `doAbortSpeculation`. -/
def Walk.step (w : Walk) (x : SrbEntry) : Walk :=
  match w.srbCkpt with
  | none =>
    if x.theHasCheckpoint then { w with srbCkpt := some x.theSequenceNo }
    else { w with ckptDiscardCount := w.ckptDiscardCount + 1 }
  | some _ =>
    { w with
      savedDiscardCount := w.savedDiscardCount + 1
      remainingCheckpoints := w.remainingCheckpoints + if x.theHasCheckpoint then 1 else 0 }

/-- **`doAbortSpeculation`**, for a violating instruction. If the walk finds no checkpoint, the
oldest instruction is taken for one. -/
def doAbortSpeculation (violating : ℕ) : Except SpecFault (SpecCore μ) :=
  let older := s.theSRB.takeWhile fun x => x.theSequenceNo != violating
  match s.theSRB.dropWhile fun x => x.theSequenceNo != violating with
  | [] => .error .notInSRB
  | x :: _ =>
    let w := (x :: older.reverse).foldl Walk.step {}
    let ckpt := w.srbCkpt.getD ((older ++ [x]).head?.elim 0 SrbEntry.theSequenceNo)
    if (s.theSRB.length : ℤ) - w.savedDiscardCount - w.ckptDiscardCount ≥ 0 then
      let numCkptsDiscarded : ℤ := s.theCheckpoints.length - w.remainingCheckpoints
      if s.theCheckpoints.any fun c => c.1 == ckpt then do
        let s ← s.rollbackMMUCkpts (numCkptsDiscarded - 1)
        .ok { s with
          theSRB := s.theSRB.takeWhile fun x => x.theSequenceNo != ckpt
          theCheckpoints := s.theCheckpoints.filter fun c => c.1 < ckpt }
      else .error .checkpoint
    else .error .required

/-- `CoreImpl::reset`, after which the MMU is read anew. -/
def reset (mmu : μ) : SpecCore μ :=
  { s with theSRB := [], theCheckpoints := [], theMMU := mmu }

end SpecCore

/-- What happens to checkpoints. -/
inductive SpecEvent (μ : Type)
  | retire (gap : ℕ) (checkpoint : Bool)
  | commit
  /-- A register of the MMU is written, or an entry of a TLB is. -/
  | writeMMU (mmu : μ)
  | abort (violating : ℕ)
  | reset (mmu : μ)

namespace SpecCore

variable {μ : Type}

def step (s : SpecCore μ) : SpecEvent μ → Except SpecFault (SpecCore μ)
  | .retire gap checkpoint => .ok (s.retire gap checkpoint)
  | .commit => s.commit
  | .writeMMU mmu => .ok { s with theMMU := mmu }
  | .abort violating => s.doAbortSpeculation violating
  | .reset mmu => .ok (s.reset mmu)

/-- **The youngest checkpoint at or before an instruction**, with the MMU it was created with. -/
def youngestCheckpoint (s : SpecCore μ) (violating : ℕ) : Option (ℕ × μ) :=
  (s.theCheckpoints.filter fun c => c.1 ≤ violating).getLast?

end SpecCore

/-- A core that starts with an MMU and no checkpoint. -/
def specMachine {μ : Type} (mmu : μ) : Lib.Machine (SpecCore μ) (SpecEvent μ) SpecFault where
  init := ⟨[], [], mmu, [], 0⟩
  step := SpecCore.step

namespace SpecCore

variable {μ : Type} {s : SpecCore μ}

/-- **What holds of the checkpoints**: they are those of the instructions that say so, and the
MMUs saved for them are the last ones of the queue. -/
structure Sound (s : SpecCore μ) : Prop where
  sorted : s.theSRB.Pairwise fun x y => x.theSequenceNo < y.theSequenceNo
  fresh : ∀ x ∈ s.theSRB, x.theSequenceNo < s.nextSequenceNo
  keys : s.theCheckpoints.map Prod.fst =
    (s.theSRB.filter SrbEntry.theHasCheckpoint).map SrbEntry.theSequenceNo
  saved : s.theCheckpoints.map Prod.snd <:+ s.theMMUckpts

namespace Sound

theorem retire (h : s.Sound) (gap : ℕ) (checkpoint : Bool) :
    (s.retire gap checkpoint).Sound := by
  have hsorted : (s.theSRB ++ [SrbEntry.mk (s.nextSequenceNo + gap) checkpoint]).Pairwise
      fun x y => x.theSequenceNo < y.theSequenceNo := by
    refine pairwise_append.mpr ⟨h.sorted, pairwise_singleton _ _, fun x hx y hy => ?_⟩
    rw [mem_singleton.mp hy]
    have := h.fresh x hx
    dsimp only
    omega
  have hfresh : ∀ x ∈ s.theSRB ++ [SrbEntry.mk (s.nextSequenceNo + gap) checkpoint],
      x.theSequenceNo < s.nextSequenceNo + gap + 1 := by
    intro x hx
    rcases mem_append.mp hx with hx | hx
    · have := h.fresh x hx
      omega
    · rw [mem_singleton.mp hx]
      exact Nat.lt_succ_self _
  cases checkpoint with
  | false =>
    refine ⟨hsorted, hfresh, ?_, h.saved⟩
    rw [show (s.retire gap false).theSRB = s.theSRB ++ [⟨s.nextSequenceNo + gap, false⟩] from rfl,
      filter_append, map_append]
    exact h.keys.trans (append_nil _).symm
  | true =>
    refine ⟨hsorted, hfresh, ?_, ?_⟩
    · rw [show (s.retire gap true).theSRB = s.theSRB ++ [⟨s.nextSequenceNo + gap, true⟩] from rfl,
        show (s.retire gap true).theCheckpoints =
          s.theCheckpoints ++ [(s.nextSequenceNo + gap, s.theMMU)] from rfl,
        filter_append, map_append, map_append, h.keys]
      rfl
    · rw [show (s.retire gap true).theCheckpoints =
          s.theCheckpoints ++ [(s.nextSequenceNo + gap, s.theMMU)] from rfl,
        show (s.retire gap true).theMMUckpts = s.theMMUckpts ++ [s.theMMU] from rfl,
        map_append]
      obtain ⟨stale, hstale⟩ := h.saved
      exact ⟨stale, by rw [← hstale, append_assoc]; rfl⟩

/-- The checkpoints of the instructions of two parts of the retirement buffer. -/
theorem split {l k : List SrbEntry} (h : s.Sound) (hsrb : s.theSRB = l ++ k) :
    ∃ cl ck, s.theCheckpoints = cl ++ ck ∧
      cl.map Prod.fst = (l.filter SrbEntry.theHasCheckpoint).map SrbEntry.theSequenceNo ∧
      ck.map Prod.fst = (k.filter SrbEntry.theHasCheckpoint).map SrbEntry.theSequenceNo := by
  have hkeys := h.keys
  rw [hsrb, filter_append, map_append] at hkeys
  obtain ⟨cl, ck, hck, hl, hk⟩ := map_eq_append_iff.mp hkeys
  exact ⟨cl, ck, hck, hl, hk⟩

theorem exists_entry {c : List (ℕ × μ)} {l : List SrbEntry} {p : ℕ × μ}
    (h : c.map Prod.fst = (l.filter SrbEntry.theHasCheckpoint).map SrbEntry.theSequenceNo)
    (hp : p ∈ c) : ∃ x ∈ l, x.theHasCheckpoint = true ∧ x.theSequenceNo = p.1 := by
  have hmem : p.1 ∈ c.map Prod.fst := mem_map_of_mem hp
  rw [h] at hmem
  obtain ⟨x, hx, hxp⟩ := mem_map.mp hmem
  obtain ⟨hxl, hxc⟩ := mem_filter.mp hx
  exact ⟨x, hxl, hxc, hxp⟩

/-- **A commit** releases the oldest saved MMU, which need not be that of the checkpoint. -/
theorem commit (h : s.Sound) : ∃ t, s.commit = .ok t ∧ t.Sound := by
  rw [SpecCore.commit]
  cases hsrb : s.theSRB with
  | nil => exact ⟨s, rfl, h⟩
  | cons x rest =>
    dsimp only
    have hsorted := h.sorted
    rw [hsrb, pairwise_cons] at hsorted
    have hfresh : ∀ y ∈ rest, y.theSequenceNo < s.nextSequenceNo := fun y hy =>
      h.fresh y (by rw [hsrb]; exact mem_cons_of_mem x hy)
    have hkeys := h.keys
    rw [hsrb, filter_cons] at hkeys
    by_cases hx : x.theHasCheckpoint = true
    · rw [if_pos hx] at hkeys ⊢
      rw [map_cons] at hkeys
      obtain ⟨p, cs, hcs, hp, hrest⟩ := map_eq_cons_iff.mp hkeys
      have hany : (s.theCheckpoints.any fun c => c.1 == x.theSequenceNo) = true := by
        rw [hcs, any_cons, hp, beq_self_eq_true, Bool.true_or]
      have hfilter : (s.theCheckpoints.filter fun c => c.1 != x.theSequenceNo) = cs := by
        rw [hcs, filter_cons, if_neg (by rw [hp, bne_self_eq_false]; decide)]
        refine filter_eq_self.mpr fun q hq => ?_
        obtain ⟨y, hy, -, hyq⟩ := exists_entry hrest hq
        have := hsorted.1 y hy
        rw [bne_iff_ne]
        omega
      obtain ⟨stale, hstale⟩ := h.saved
      rw [hcs, map_cons] at hstale
      rw [freeCheckpoint, if_pos hany, hfilter, releaseMMUCkpt]
      dsimp only
      cases hq : s.theMMUckpts with
      | nil =>
        rw [hq] at hstale
        exact absurd hstale (by simp)
      | cons m ms =>
        refine ⟨_, rfl, hsorted.2, hfresh, hrest, ?_⟩
        rw [hq] at hstale
        cases stale with
        | nil =>
          rw [nil_append, List.cons.injEq] at hstale
          exact ⟨[], hstale.2⟩
        | cons m' stale =>
          rw [cons_append, List.cons.injEq] at hstale
          exact ⟨stale ++ [p.2], by rw [append_assoc]; exact hstale.2⟩
    · rw [if_neg hx] at hkeys ⊢
      exact ⟨_, rfl, hsorted.2, hfresh, hkeys, h.saved⟩

end Sound

/-! ### The walk over the retirement buffer -/

namespace Walk

theorem foldl_none {l : List SrbEntry} (h : ∀ x ∈ l, x.theHasCheckpoint = false) (w : Walk)
    (hw : w.srbCkpt = none) : l.foldl step w =
      { w with ckptDiscardCount := w.ckptDiscardCount + l.length } := by
  induction l generalizing w with
  | nil => rfl
  | cons x l ih =>
    have hstep : step w x = { w with ckptDiscardCount := w.ckptDiscardCount + 1 } := by
      rw [step, hw]
      dsimp only
      rw [if_neg (by rw [h x mem_cons_self]; decide)]
    rw [foldl_cons, hstep, ih (fun y hy => h y (mem_cons_of_mem x hy))
      { w with ckptDiscardCount := w.ckptDiscardCount + 1 } hw, length_cons,
      Nat.add_assoc, Nat.add_comm 1]

theorem foldl_some (l : List SrbEntry) (w : Walk) {c : ℕ} (hw : w.srbCkpt = some c) :
    l.foldl step w = { w with
      savedDiscardCount := w.savedDiscardCount + l.length
      remainingCheckpoints := w.remainingCheckpoints + l.countP SrbEntry.theHasCheckpoint } := by
  induction l generalizing w with
  | nil => rfl
  | cons x l ih =>
    have hstep : step w x = { w with
        savedDiscardCount := w.savedDiscardCount + 1
        remainingCheckpoints :=
          w.remainingCheckpoints + if x.theHasCheckpoint then 1 else 0 } := by
      rw [step, hw]
    rw [foldl_cons, hstep, ih { w with
      savedDiscardCount := w.savedDiscardCount + 1
      remainingCheckpoints := w.remainingCheckpoints + if x.theHasCheckpoint then 1 else 0 } hw,
      countP_cons, length_cons]
    simp only [Walk.mk.injEq, true_and]
    omega

theorem step_found {w : Walk} {c : SrbEntry} (hc : c.theHasCheckpoint = true)
    (hw : w.srbCkpt = none) : step w c = { w with srbCkpt := some c.theSequenceNo } := by
  rw [step, hw]
  exact if_pos hc

/-- **What the walk finds**: the nearest checkpoint, and how many there are before it. -/
theorem foldl_eq {a b : List SrbEntry} {c : SrbEntry} (hc : c.theHasCheckpoint = true)
    (hb : ∀ x ∈ b, x.theHasCheckpoint = false) :
    (a ++ c :: b).reverse.foldl step {} =
      ⟨some c.theSequenceNo, a.length, b.length, a.countP SrbEntry.theHasCheckpoint⟩ := by
  have hb' : ∀ x ∈ b.reverse, x.theHasCheckpoint = false := fun x hx =>
    hb x (mem_reverse.mp hx)
  rw [reverse_append, reverse_cons, append_assoc, foldl_append,
    foldl_none hb' _ rfl, singleton_append, foldl_cons]
  rw [step_found hc rfl, foldl_some _ _ rfl]
  simp only [length_reverse, countP_reverse, Nat.zero_add]

/-- A list has a last instruction with a checkpoint, or none has one. -/
theorem exists_nearest (l : List SrbEntry) : (∀ x ∈ l, x.theHasCheckpoint = false) ∨
    ∃ a c b, l = a ++ c :: b ∧ c.theHasCheckpoint = true ∧
      ∀ x ∈ b, x.theHasCheckpoint = false := by
  induction l with
  | nil => exact .inl fun x hx => absurd hx not_mem_nil
  | cons y l ih =>
    rcases ih with hnone | ⟨a, c, b, rfl, hc, hb⟩
    · by_cases hy : y.theHasCheckpoint = true
      · exact .inr ⟨[], y, l, rfl, hy, hnone⟩
      · refine .inl fun x hx => ?_
        rcases mem_cons.mp hx with rfl | hx
        · exact Bool.eq_false_iff.mpr hy
        · exact hnone x hx
    · exact .inr ⟨y :: a, c, b, rfl, hc, hb⟩

end Walk

theorem rollbackMMUCkpts_eq {front back : List μ} {m : μ}
    (h : s.theMMUckpts = front ++ m :: back) {n : ℤ} (hn : n = back.length) :
    s.rollbackMMUCkpts n = .ok { s with theMMU := m, theMMUckpts := front } := by
  have hlen : s.theMMUckpts.length = front.length + 1 + back.length := by
    rw [h, length_append, length_cons]
    omega
  have htake : s.theMMUckpts.take (s.theMMUckpts.length - n.toNat) = front ++ [m] := by
    rw [hlen, hn, Int.toNat_natCast, Nat.add_sub_cancel, h]
    have happ : front ++ m :: back = (front ++ [m]) ++ back := by simp
    rw [happ, show front.length + 1 = (front ++ [m]).length by simp, take_left]
  rw [rollbackMMUCkpts, if_pos (by omega), htake]
  simp

namespace Sound

variable {violating : ℕ}

/-- An instruction of the retirement buffer, and those before and after it. -/
theorem exists_violating (h : s.Sound)
    (hv : violating ∈ s.theSRB.map SrbEntry.theSequenceNo) :
    ∃ older x younger, s.theSRB = older ++ x :: younger ∧ x.theSequenceNo = violating ∧
      (∀ y ∈ older, y.theSequenceNo < violating) ∧
      ∀ y ∈ younger, violating < y.theSequenceNo := by
  obtain ⟨x, hx, rfl⟩ := mem_map.mp hv
  obtain ⟨older, younger, hsrb⟩ := append_of_mem hx
  have hsorted := h.sorted
  rw [hsrb, pairwise_append, pairwise_cons] at hsorted
  exact ⟨older, x, younger, hsrb, rfl, fun y hy => hsorted.2.2 y hy x mem_cons_self, hsorted.2.1.1⟩

theorem doAbort_eq {older younger : List SrbEntry} {x : SrbEntry}
    (hsrb : s.theSRB = older ++ x :: younger) (hx : x.theSequenceNo = violating)
    (holder : ∀ y ∈ older, y.theSequenceNo < violating) :
    (s.theSRB.takeWhile fun x => x.theSequenceNo != violating) = older ∧
    (s.theSRB.dropWhile fun x => x.theSequenceNo != violating) = x :: younger := by
  have hne : ∀ y ∈ older, (y.theSequenceNo != violating) = true := fun y hy => by
    have := holder y hy
    rw [bne_iff_ne]
    omega
  have hself : (x.theSequenceNo != violating) = false := by
    rw [hx, bne_self_eq_false]
  rw [hsrb]
  constructor
  · rw [takeWhile_append_of_pos hne, takeWhile_cons, hself]
    exact append_nil _
  · rw [dropWhile_append_of_pos hne, dropWhile_cons, hself]
    rfl

theorem eq_of_sequenceNo (h : s.Sound) {x y : SrbEntry} (hx : x ∈ s.theSRB) (hy : y ∈ s.theSRB)
    (hxy : x.theSequenceNo = y.theSequenceNo) : x = y := by
  have hnodup : (s.theSRB.map SrbEntry.theSequenceNo).Nodup := by
    rw [List.Nodup, pairwise_map]
    exact h.sorted.imp fun hlt => Nat.ne_of_lt hlt
  exact inj_on_of_nodup_map hnodup hx hy hxy

/-- **The nearest checkpoint in the retirement buffer is the youngest one** at or before the
violating instruction, and the checkpoints after it are those of younger instructions. -/
theorem nearest (h : s.Sound) {older younger : List SrbEntry} {x : SrbEntry}
    (hsrb : s.theSRB = older ++ x :: younger) (hx : x.theSequenceNo = violating)
    (holder : ∀ y ∈ older, y.theSequenceNo < violating)
    (hyounger : ∀ y ∈ younger, violating < y.theSequenceNo) :
    (∀ y ∈ older ++ [x], y.theHasCheckpoint = false) ∧ s.youngestCheckpoint violating = none ∨
    ∃ a c b cl m ck, older ++ [x] = a ++ c :: b ∧ c.theHasCheckpoint = true ∧
      (∀ y ∈ b, y.theHasCheckpoint = false) ∧
      s.theCheckpoints = cl ++ (c.theSequenceNo, m) :: ck ∧
      cl.map Prod.fst = (a.filter SrbEntry.theHasCheckpoint).map SrbEntry.theSequenceNo ∧
      ck.map Prod.fst = (younger.filter SrbEntry.theHasCheckpoint).map SrbEntry.theSequenceNo ∧
      s.youngestCheckpoint violating = some (c.theSequenceNo, m) := by
  have hsrb' : s.theSRB = (older ++ [x]) ++ younger := by rw [hsrb]; simp
  have hle : ∀ y ∈ older ++ [x], y.theSequenceNo ≤ violating := by
    intro y hy
    rcases mem_append.mp hy with hy | hy
    · exact le_of_lt (holder y hy)
    · rw [mem_singleton.mp hy, hx]
  have hlater : ∀ {ck : List (ℕ × μ)}, ck.map Prod.fst =
      (younger.filter SrbEntry.theHasCheckpoint).map SrbEntry.theSequenceNo →
      (ck.filter fun c => c.1 ≤ violating) = [] := by
    intro ck hck
    rw [filter_eq_nil_iff]
    intro q hq
    obtain ⟨y, hy, -, hyq⟩ := exists_entry hck hq
    have := hyounger y hy
    rw [decide_eq_true_eq]
    omega
  obtain ⟨cl, ck, hcs, hcl, hck⟩ := h.split hsrb'
  rcases Walk.exists_nearest (older ++ [x]) with hnone | ⟨a, c, b, hab, hc, hb⟩
  · refine .inl ⟨hnone, ?_⟩
    have hnil : (older ++ [x]).filter SrbEntry.theHasCheckpoint = [] := by
      rw [filter_eq_nil_iff]
      intro y hy
      rw [hnone y hy]
      decide
    rw [hnil, map_nil, map_eq_nil_iff] at hcl
    rw [youngestCheckpoint, hcs, hcl, nil_append, hlater hck]
    rfl
  · have hbnil : b.filter SrbEntry.theHasCheckpoint = [] := by
      rw [filter_eq_nil_iff]
      intro y hy
      rw [hb y hy]
      decide
    rw [hab, filter_append, filter_cons, if_pos hc, hbnil, map_append, map_singleton] at hcl
    obtain ⟨ca, cc, rfl, hca, hcc⟩ := map_eq_append_iff.mp hcl
    obtain ⟨⟨k, m⟩, rfl, hk⟩ := map_eq_singleton_iff.mp hcc
    have hk' : k = c.theSequenceNo := hk
    subst hk'
    refine .inr ⟨a, c, b, ca, m, ck, hab, hc, hb, ?_, hca, hck, ?_⟩
    · rw [hcs, append_assoc]
      rfl
    · have hall : ((ca ++ [(c.theSequenceNo, m)]).filter fun p => p.1 ≤ violating) =
          ca ++ [(c.theSequenceNo, m)] := by
        refine filter_eq_self.mpr fun p hp => ?_
        rw [decide_eq_true_eq]
        rcases mem_append.mp hp with hp | hp
        · obtain ⟨y, hy, -, hyp⟩ := exists_entry hca hp
          rw [← hyp]
          exact hle y (by rw [hab]; exact mem_append_left _ hy)
        · rw [mem_singleton.mp hp]
          exact hle c (by rw [hab]; simp)
      rw [youngestCheckpoint, hcs, filter_append, hall, hlater hck, append_nil, getLast?_concat]

/-- **An abort without a checkpoint** at or before the violating instruction fails. -/
theorem abort_none (h : s.Sound) (hv : violating ∈ s.theSRB.map SrbEntry.theSequenceNo)
    (hnone : s.youngestCheckpoint violating = none) :
    s.doAbortSpeculation violating = .error .checkpoint := by
  obtain ⟨older, x, younger, hsrb, hx, holder, hyounger⟩ := h.exists_violating hv
  obtain ⟨htake, hdrop⟩ := doAbort_eq hsrb hx holder
  rcases h.nearest hsrb hx holder hyounger with ⟨hno, -⟩ | ⟨a, c, b, cl, m, ck, -, -, -, -, -, -, hs⟩
  · have hno' : ∀ y ∈ x :: older.reverse, y.theHasCheckpoint = false := by
      intro y hy
      refine hno y ?_
      rcases mem_cons.mp hy with rfl | hy
      · simp
      · exact mem_append_left _ (mem_reverse.mp hy)
    have hwalk := Walk.foldl_none hno' {} rfl
    rw [doAbortSpeculation, htake, hdrop]
    dsimp only
    rw [hwalk]
    dsimp only
    rw [if_pos ?_, if_neg ?_]
    · -- the oldest instruction has no checkpoint
      intro hany
      obtain ⟨p, hp, hpe⟩ := any_eq_true.mp hany
      obtain ⟨y, hy, hyc, hyp⟩ := exists_entry h.keys hp
      obtain ⟨e, he⟩ : ∃ e, (older ++ [x]).head? = some e := by cases older <;> exact ⟨_, rfl⟩
      have hmem := mem_of_head? he
      have hsame : y = e := by
        refine h.eq_of_sequenceNo hy ?_ ?_
        · rw [hsrb]
          rcases mem_append.mp hmem with hm | hm
          · exact mem_append_left _ hm
          · rw [mem_singleton.mp hm]
            simp
        · rw [he, beq_iff_eq] at hpe
          exact hyp.trans hpe
      rw [hsame, hno e hmem] at hyc
      cases hyc
    · rw [hsrb]
      simp only [length_cons, length_reverse, length_append]
      omega
  · rw [hnone] at hs
    cases hs

/-- **An abort** rolls back to the nearest checkpoint, and to the MMU saved with it. As many saved
MMUs go as checkpoints do. -/
theorem abort_some (h : s.Sound) (hv : violating ∈ s.theSRB.map SrbEntry.theSequenceNo)
    {c : ℕ} {m : μ} (hsome : s.youngestCheckpoint violating = some (c, m)) :
    ∃ t, s.doAbortSpeculation violating = .ok t ∧ t.Sound ∧
      t.theMMUckpts.length + s.theCheckpoints.length =
        s.theMMUckpts.length + t.theCheckpoints.length ∧
      t.theMMU = m ∧ t.theSRB = s.theSRB.filter (fun x => x.theSequenceNo < c) ∧
      t.theCheckpoints = s.theCheckpoints.filter fun p => p.1 < c := by
  obtain ⟨older, x, younger, hsrb, hx, holder, hyounger⟩ := h.exists_violating hv
  obtain ⟨htake, hdrop⟩ := doAbort_eq hsrb hx holder
  rcases h.nearest hsrb hx holder hyounger with
    ⟨-, hn⟩ | ⟨a, e, b, cl, m', ck, hab, he, hb, hcs, hcl, hck, hs⟩
  · rw [hn] at hsome
    cases hsome
  rw [hs, Option.some.injEq, Prod.mk.injEq] at hsome
  obtain ⟨rfl, rfl⟩ := hsome
  have hsrb' : s.theSRB = a ++ e :: (b ++ younger) := by
    rw [hsrb, show older ++ x :: younger = (older ++ [x]) ++ younger by simp, hab]
    simp
  have hsorted := h.sorted
  rw [hsrb', pairwise_append, pairwise_cons] at hsorted
  have hbefore : ∀ y ∈ a, y.theSequenceNo < e.theSequenceNo := fun y hy =>
    hsorted.2.2 y hy e mem_cons_self
  have hafter : ∀ y ∈ b ++ younger, e.theSequenceNo < y.theSequenceNo := hsorted.2.1.1
  have hwalk : (x :: older.reverse).foldl Walk.step {} =
      ⟨some e.theSequenceNo, a.length, b.length, a.countP SrbEntry.theHasCheckpoint⟩ := by
    rw [← Walk.foldl_eq he hb, ← hab]
    simp
  have hlen : cl.length = a.countP SrbEntry.theHasCheckpoint := by
    have := congrArg List.length hcl
    rwa [length_map, length_map, ← countP_eq_length_filter] at this
  obtain ⟨stale, hstale⟩ := h.saved
  have hqueue : s.theMMUckpts =
      (stale ++ cl.map Prod.snd) ++ m' :: ck.map Prod.snd := by
    rw [← hstale, hcs]
    simp
  have hroll := rollbackMMUCkpts_eq hqueue
    (n := (s.theCheckpoints.length : ℤ) - a.countP SrbEntry.theHasCheckpoint - 1) (by
      rw [hcs, length_append, length_cons, length_map, ← hlen]
      omega)
  have hany : (s.theCheckpoints.any fun p => p.1 == e.theSequenceNo) = true := by
    rw [any_eq_true]
    exact ⟨(e.theSequenceNo, m'), by rw [hcs]; simp, beq_self_eq_true _⟩
  -- what is left are the instructions and checkpoints before
  obtain ⟨hsrbtake, -⟩ := doAbort_eq hsrb' rfl hbefore
  have hsrbfilter : (s.theSRB.filter fun y => y.theSequenceNo < e.theSequenceNo) = a := by
    rw [hsrb', filter_append, filter_cons, if_neg (by simp),
      filter_eq_self.mpr fun y hy => decide_eq_true (hbefore y hy),
      filter_eq_nil_iff.mpr fun y hy => by
        have := hafter y hy
        rw [decide_eq_true_eq]
        omega, append_nil]
  have hckfilter : (s.theCheckpoints.filter fun p => p.1 < e.theSequenceNo) = cl := by
    rw [hcs, filter_append, filter_cons, if_neg (by simp), filter_eq_self.mpr fun p hp => by
        obtain ⟨y, hy, -, hyp⟩ := exists_entry hcl hp
        exact decide_eq_true (hyp ▸ hbefore y hy),
      filter_eq_nil_iff.mpr fun p hp => by
        obtain ⟨y, hy, -, hyp⟩ := exists_entry hck hp
        have := hafter y (mem_append_right b hy)
        rw [decide_eq_true_eq]
        omega, append_nil]
  refine ⟨{ s with
    theMMU := m'
    theMMUckpts := stale ++ cl.map Prod.snd
    theSRB := a
    theCheckpoints := cl }, ?_, ⟨hsorted.1, fun y hy => ?_, hcl, stale, rfl⟩, ?_, rfl,
    hsrbfilter.symm, hckfilter.symm⟩
  · rw [doAbortSpeculation, htake, hdrop]
    dsimp only
    rw [hwalk]
    simp only [Option.getD_some]
    rw [if_pos ?_, if_pos hany, hroll]
    · simp only [bind, Except.bind]
      rw [hsrbtake, hckfilter]
    · rw [hsrb']
      simp only [length_cons, length_append]
      omega
  · exact h.fresh y (by rw [hsrb']; exact mem_append_left _ hy)
  · rw [hqueue, hcs]
    simp only [length_append, length_cons, length_map]
    omega

/-- An instruction that is not there cannot be the violating one. -/
theorem abort_of_not_mem (hv : violating ∉ s.theSRB.map SrbEntry.theSequenceNo) :
    s.doAbortSpeculation violating = .error .notInSRB := by
  have hdrop : (s.theSRB.dropWhile fun x => x.theSequenceNo != violating) = [] := by
    rw [dropWhile_eq_nil_iff]
    intro x hx
    rw [bne_iff_ne]
    exact fun heq => hv (heq ▸ mem_map_of_mem hx)
  rw [doAbortSpeculation, hdrop]

/-- **What a step can do**: it keeps the checkpoints in order, or is an abort that has no
violating instruction or no checkpoint to go back to. -/
theorem step (h : s.Sound) (e : SpecEvent μ) : (∃ t, s.step e = .ok t ∧ t.Sound) ∨
    ∃ violating, e = .abort violating ∧
      (violating ∉ s.theSRB.map SrbEntry.theSequenceNo ∧ s.step e = .error .notInSRB ∨
        s.youngestCheckpoint violating = none ∧ s.step e = .error .checkpoint) := by
  cases e with
  | retire gap checkpoint => exact .inl ⟨_, rfl, h.retire gap checkpoint⟩
  | commit => exact .inl h.commit
  | writeMMU mmu => exact .inl ⟨_, rfl, ⟨h.sorted, h.fresh, h.keys, h.saved⟩⟩
  | reset mmu =>
    exact .inl ⟨_, rfl, ⟨List.Pairwise.nil, fun x hx => absurd hx not_mem_nil, rfl, nil_suffix⟩⟩
  | abort violating =>
    by_cases hv : violating ∈ s.theSRB.map SrbEntry.theSequenceNo
    · cases hy : s.youngestCheckpoint violating with
      | none => exact .inr ⟨violating, rfl, .inr ⟨hy, h.abort_none hv hy⟩⟩
      | some p =>
        obtain ⟨t, ht, hs, -⟩ := h.abort_some hv hy
        exact .inl ⟨t, ht, hs⟩
    · exact .inr ⟨violating, rfl, .inl ⟨hv, abort_of_not_mem hv⟩⟩

end Sound

end SpecCore

theorem specMachine_sound {μ : Type} {mmu : μ} {s : SpecCore μ}
    (hs : (specMachine mmu).Reachable s) : s.Sound := by
  have hinit : (specMachine mmu).init.Sound :=
    ⟨List.Pairwise.nil, fun x hx => absurd hx not_mem_nil, rfl, nil_suffix⟩
  refine hs.invariant hinit fun s e t hi _ ht => ?_
  have hstep : s.step e = .ok t := ht
  rcases hi.step e with ⟨t', ht', hsound⟩ | ⟨v, -, ⟨-, herr⟩ | ⟨-, herr⟩⟩
  · rw [ht'] at hstep
    cases hstep
    exact hsound
  · rw [herr] at hstep
    cases hstep
  · rw [herr] at hstep
    cases hstep

/-- **Aborting speculation restores the MMU, in every run**: an abort for an instruction of the
retirement buffer goes back to the youngest checkpoint at or before it, and installs the MMU
saved when that checkpoint was created; if there is no such checkpoint, `doAbortSpeculation`
says so before it touches the MMU. The assertions on the saved MMUs never fail. -/
theorem specMachine_correct {μ : Type} {mmu : μ} {s : SpecCore μ}
    (hs : (specMachine mmu).Reachable s) :
    (∀ violating ∈ s.theSRB.map SrbEntry.theSequenceNo,
      match s.youngestCheckpoint violating with
      | some (c, m) => ∃ t, s.doAbortSpeculation violating = .ok t ∧ t.theMMU = m ∧
          t.theSRB = s.theSRB.filter (fun x => x.theSequenceNo < c) ∧
          t.theCheckpoints = s.theCheckpoints.filter (fun p => p.1 < c)
      | none => s.doAbortSpeculation violating = .error .checkpoint) ∧
    ∀ e f, (specMachine mmu).step s e = .error f → f = .notInSRB ∨ f = .checkpoint := by
  have hsound := specMachine_sound hs
  refine ⟨fun v hv => ?_, fun e f hf => ?_⟩
  · cases hy : s.youngestCheckpoint v with
    | none => exact hsound.abort_none hv hy
    | some p =>
      obtain ⟨t, ht, -, -, hrest⟩ := hsound.abort_some hv hy
      exact ⟨t, ht, hrest⟩
  · have hstep : s.step e = .error f := hf
    rcases hsound.step e with ⟨t, ht, -⟩ | ⟨v, -, ⟨-, herr⟩ | ⟨-, herr⟩⟩
    · rw [ht] at hstep
      cases hstep
    · rw [herr] at hstep
      cases hstep
      exact .inl rfl
    · rw [herr] at hstep
      cases hstep
      exact .inr rfl

/-- A checkpoint is left behind by a reset, a second one is freed in its place, and two more are
created, each with another MMU. -/
def staleCheckpoint : List (SpecEvent ℕ) :=
  [.retire 0 true, .reset 10, .retire 0 true, .commit, .retire 0 true, .writeMMU 11,
    .retire 0 false, .retire 0 true, .writeMMU 12, .retire 0 false]

/-- An abort then finds the MMU of the first of the two. -/
theorem staleCheckpoint_correct : ∃ s, (specMachine 9).run staleCheckpoint = .ok s ∧
    ∃ t, s.doAbortSpeculation 3 = .ok t ∧ t.theMMU = 10 := by
  have hend : (specMachine 9).endsIn (fun s => (s.youngestCheckpoint 3 == some (2, 10)) &&
      s.theSRB.any fun x => x.theSequenceNo == 3) staleCheckpoint = true := by decide
  obtain ⟨s, hs, htest⟩ := Lib.Machine.exists_of_endsIn hend
  rw [Bool.and_eq_true, beq_iff_eq, any_eq_true] at htest
  obtain ⟨hyoungest, x, hx, hx3⟩ := htest
  have hmem : 3 ∈ s.theSRB.map SrbEntry.theSequenceNo :=
    mem_map.mpr ⟨x, hx, beq_iff_eq.mp hx3⟩
  have habort := (specMachine_correct (Lib.Machine.reachable_of_run hs)).1 3 hmem
  rw [hyoungest] at habort
  obtain ⟨t, ht, hmmu, -⟩ := habort
  exact ⟨s, hs, t, ht, hmmu⟩

end UArch

end Flexus
