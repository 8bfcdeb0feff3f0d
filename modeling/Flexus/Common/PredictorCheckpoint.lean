import Flexus.Common.BranchPredictor

/-!
# Checkpoints of the branch predictor

A predictor that is saved and loaded is the predictor that it was, but for its history: the shift
register does not survive, and it does not survive in the predictor that was saved either. So a
checkpoint is faithful if and only if the history is empty when it is taken
(`Flexus.BPred.faithful_iff`).

That nothing else is lost is a matter of the order of the sets of the target buffer. That the
history matters is shown by training: two counters of the pattern table, which the two histories
select for the same branch, are driven apart by feedback.
-/

namespace Flexus

namespace BPred

open Flexus.Lib EDirection

variable {p q : CombiningImpl} {n : BitVec 32}

/-! ### What survives -/

/-- Entries go to the end of a set one after the other, as long as they are not there. -/
theorem BtbSet.foldl_pushBack (l : List BTBEntry) (s : BtbSet)
    (h : ((s.entries ++ l).map BTBEntry.key).Nodup) :
    (l.foldl BtbSet.pushBack s).entries = s.entries ++ l := by
  induction l generalizing s with
  | nil => rw [List.foldl_nil, List.append_nil]
  | cons e l ih =>
    have hnew : Keyed.lookup BTBEntry.key s.entries e.key = none := by
      rw [Keyed.lookup_eq_none]
      intro e' he' hkey
      rw [List.map_append, List.nodup_append] at h
      exact h.2.2 e'.key (List.mem_map_of_mem he') e.key (List.mem_map_of_mem List.mem_cons_self)
        hkey
    have hpush : (s.pushBack e).entries = s.entries ++ [e] := by
      simp [BtbSet.pushBack, Keyed.pushBack, hnew]
    have happend : (s.pushBack e).entries ++ l = s.entries ++ e :: l := by
      rw [hpush, List.append_assoc]
      rfl
    rw [List.foldl_cons, ih (s.pushBack e) (happend ▸ h), happend]

/-- **A set keeps its order.** -/
theorem BtbSet.load_save (s : BtbSet) : BtbSet.empty.load s.save = s := by
  have hentries : (BtbSet.empty.load s.save).entries = s.entries :=
    foldl_pushBack s.entries BtbSet.empty s.unique
  cases hl : BtbSet.empty.load s.save with
  | mk entries unique =>
    rw [hl] at hentries
    cases s
    cases hentries
    rfl

/-- A predictor with another history. -/
def CombiningImpl.withHistory (p : CombiningImpl) (aShiftReg : BitVec 32) : CombiningImpl :=
  { p with theGShare := { p.theGShare with theShiftReg := aShiftReg } }

/-- **What is loaded** is what was saved, with an empty history. -/
theorem CombiningImpl.loadState_fresh (p : CombiningImpl) :
    CombiningImpl.fresh.loadState p.saveState.1 = { p.withHistory 0 with theSerial := 0 } := by
  have hbtb : (BTB.ofSize 2048 16).load p.theBTB.save.1 = p.theBTB := by
    have hsets : (fun i => BtbSet.empty.load (p.theBTB.theBTB i).save) = p.theBTB.theBTB :=
      funext fun i => (p.theBTB.theBTB i).load_save
    rw [BTB.load, BTB.save, BTB.ofSize, hsets]
  have hreg : (0 : BitVec 32) &&& p.theGShare.theShiftRegSize = 0 := BitVec.zero_and
  have hshare : (GShare.ofSize 13).load p.theGShare.save.1 =
      { p.theGShare with theShiftReg := 0 } := by
    rw [GShare.load, GShare.maskShiftReg, GShare.save, GShare.ofSize, hreg]
  rw [CombiningImpl.loadState, CombiningImpl.saveState, CombiningImpl.withHistory,
    CombiningImpl.fresh, hbtb, hshare]
  rfl

theorem CombiningImpl.predictions_serial (cs : List Call) (p : CombiningImpl) (n : BitVec 32) :
    CombiningImpl.predictions { p with theSerial := n } cs = p.predictions cs := by
  induction cs generalizing p n with
  | nil => rfl
  | cons c cs ih =>
    have hcall : ∃ k, (CombiningImpl.call { p with theSerial := n } c) =
        ((p.call c).1, { (p.call c).2 with theSerial := k }) := by
      cases c with
      | predict anAddress =>
        refine ⟨n + 1, ?_⟩
        simp only [call, predict]
        cases p.theBTB.type anAddress <;> rfl
      | feedback f =>
        refine ⟨n, ?_⟩
        simp only [call, feedback]
        split
        · split
          · rfl
          · split <;> rfl
        · split
          · split <;> rfl
          · rfl
    obtain ⟨k, hk⟩ := hcall
    rw [predictions, predictions, hk, ih]

/-! ### The history -/

/-- **The history fits the mask.** -/
structure CombiningImpl.Masked (p : CombiningImpl) : Prop where
  mask : p.theGShare.thePatternMask = 0x1FFF
  size : p.theGShare.theShiftRegSize = 13
  shiftReg : p.theGShare.theShiftReg &&& 0x1FFF = p.theGShare.theShiftReg

theorem GShare.shiftIn_masked (g : GShare) (hm : g.thePatternMask = 0x1FFF) (d : EDirection) :
    (g.shiftIn d).theShiftReg &&& 0x1FFF = (g.shiftIn d).theShiftReg := by
  rw [GShare.shiftIn, hm]
  have hone : (1 : BitVec 32) &&& 0x1FFF = 1 := rfl
  split
  · rw [BitVec.and_or_distrib_right, BitVec.and_assoc, BitVec.and_self, hone]
  · rw [BitVec.and_assoc, BitVec.and_self]

theorem GShare.setShiftReg_masked (g : GShare) (hm : g.thePatternMask = 0x1FFF)
    (r : BitVec 32) : (g.setShiftReg r).theShiftReg &&& 0x1FFF = (g.setShiftReg r).theShiftReg := by
  rw [GShare.setShiftReg, hm, BitVec.and_assoc, BitVec.and_self]

theorem CombiningImpl.Masked.call (h : p.Masked) (c : Call) : (p.call c).2.Masked := by
  have hshift := fun d => p.theGShare.shiftIn_masked h.mask d
  have hset := fun r => p.theGShare.setShiftReg_masked h.mask r
  cases c with
  | predict anAddress =>
    simp only [CombiningImpl.call, predict]
    cases p.theBTB.type anAddress with
    | kConditional => exact ⟨h.mask, h.size, hshift _⟩
    | _ => exact ⟨h.mask, h.size, h.shiftReg⟩
  | feedback f =>
    simp only [CombiningImpl.call, feedback]
    split
    · split
      · exact ⟨h.mask, h.size, hshift _⟩
      · split
        · simp only [learn]
          split
          · exact ⟨h.mask, h.size, (p.theGShare.setShiftReg _).shiftIn_masked h.mask _⟩
          · exact ⟨h.mask, h.size, h.shiftReg⟩
        · exact ⟨h.mask, h.size, h.shiftReg⟩
    · split
      · split
        · exact ⟨h.mask, h.size, hset _⟩
        · exact ⟨h.mask, h.size, h.shiftReg⟩
      · exact ⟨h.mask, h.size, h.shiftReg⟩

theorem CombiningImpl.Masked.saved (h : p.Masked) : p.saveState.2.Masked := by
  refine ⟨h.mask, h.size, ?_⟩
  show (p.theGShare.theShiftReg &&& _) &&& _ = p.theGShare.theShiftReg &&& _
  rw [BitVec.and_assoc, BitVec.and_comm p.theGShare.theShiftRegSize, ← BitVec.and_assoc, h.shiftReg]

theorem CombiningImpl.Masked.loaded (hp : p.Masked) (hq : q.Masked) :
    (q.loadState p.saveState.1).Masked := by
  refine ⟨hp.mask, hp.size, ?_⟩
  show (q.theGShare.theShiftReg &&& p.theGShare.theShiftRegSize) &&& _ =
    q.theGShare.theShiftReg &&& p.theGShare.theShiftRegSize
  rw [BitVec.and_assoc, BitVec.and_comm p.theGShare.theShiftRegSize, ← BitVec.and_assoc,
    hq.shiftReg]

theorem CombiningImpl.masked_of_reachable (h : Reachable p) : p.Masked := by
  induction h with
  | fresh => exact ⟨rfl, rfl, rfl⟩
  | call c _ ih => exact ih.call c
  | saved _ ih => exact ih.saved
  | loaded _ _ ihp ihq => exact ihp.loaded ihq

/-! ### Training -/

/-- The entry of an address in the target buffer. -/
def BTB.find (b : BTB) (anAddress : BitVec 64) : Option BTBEntry := (b.set anAddress).find anAddress

/-- **The entry of a branch** after feedback about it. -/
theorem BTB.find_update (b : BTB) (aPC : BitVec 64) (aType : EBranchType) (aTarget : BitVec 64)
    (htype : aType ≠ .kNonBranch) (htarget : aTarget ≠ 0) :
    (b.update aPC aType aTarget).1.find aPC = some ⟨aPC, aType, aTarget⟩ ∧
      ((b.update aPC aType aTarget).2 = true ↔ b.find aPC = none) := by
  have hset : ∀ s : BtbSet, (b.setSet aPC s).find aPC = s.find aPC := by
    intro s
    show (Function.update b.theBTB (b.index aPC) s (b.index aPC)).find aPC = s.find aPC
    rw [Function.update_self]
  have hpush : ∀ s : BtbSet, s.find aPC = none →
      (s.pushBack ⟨aPC, aType, aTarget⟩).find aPC = some ⟨aPC, aType, aTarget⟩ := by
    intro s hs
    have hs' : Keyed.lookup BTBEntry.key s.entries (BTBEntry.key ⟨aPC, aType, aTarget⟩) = none := hs
    simp only [BtbSet.find, BtbSet.pushBack, Keyed.pushBack, hs', Option.isSome_none,
      Bool.false_eq_true, if_false]
    rw [Keyed.lookup_append_singleton]
    have hnone : Keyed.lookup BTBEntry.key s.entries aPC.toNat = none := hs
    rw [hnone]
    simp [BTBEntry.key]
  rw [BTB.update]
  cases hfind : (b.set aPC).find aPC with
  | some e =>
    simp only [if_neg htype, if_pos htarget]
    refine ⟨?_, ?_⟩
    · rw [hset]
      refine hpush _ ?_
      show Keyed.lookup BTBEntry.key (Keyed.erase BTBEntry.key _ aPC.toNat) aPC.toNat = none
      rw [Keyed.lookup_erase, if_pos rfl]
    · simp [BTB.find, hfind]
  | none =>
    simp only [if_neg htype]
    refine ⟨?_, ?_⟩
    · rw [hset]
      refine hpush _ ?_
      split
      · have hnone := Keyed.lookup_eq_none.mp hfind
        exact Keyed.lookup_eq_none.mpr fun e he => hnone e (List.mem_of_mem_tail he)
      · exact hfind
    · simp [BTB.find, hfind]

/-- Feedback about a branch at the address zero that goes to the next instruction, to introduce
it. -/
def introduction : BranchFeedback := ⟨0, .kUnconditional, kTaken, 4, none⟩

/-- Feedback about the branch, as a conditional one that was predicted right with a history. -/
def lesson (aShiftReg : BitVec 32) (d : EDirection) : BranchFeedback :=
  ⟨0, .kConditional, d, 4, some ⟨.kConditional, 4, d, d, d, d, aShiftReg, 0⟩⟩

/-- The counters that matter for the branch: by address, by either history, and the choice. -/
structure Counters where
  bimodal : EDirection
  first : EDirection
  second : EDirection
  choice : EDirection
  deriving DecidableEq

/-- What a lesson does to the counter of the history, the one by address, and the choice. -/
def trained (d gshare bimodal choice : EDirection) : EDirection :=
  if gshare.notTaken ≠ bimodal.notTaken then
    if d.notTaken = gshare.notTaken then choice.moreNotTaken else choice.moreTaken
  else choice

/-- What a lesson does, with the first history or the second. -/
def Counters.step (c : Counters) (l : Bool × EDirection) : Counters :=
  if l.1 then ⟨l.2.apply c.bimodal, l.2.apply c.first, c.second,
    trained l.2 c.first c.bimodal c.choice⟩
  else ⟨l.2.apply c.bimodal, c.first, l.2.apply c.second,
    trained l.2 c.second c.bimodal c.choice⟩

/-- **The lessons**: the branch is taken with the first history, and not with the second. Each
time the two disagree the predictor by history is right. -/
def plan : List (Bool × EDirection) :=
  List.replicate 4 (true, kStronglyTaken) ++ List.replicate 4 (false, kStronglyNotTaken) ++
    [(true, kStronglyTaken), (true, kStronglyTaken), (false, kStronglyNotTaken)]

/-- All directions. -/
def directions : List EDirection := [kStronglyTaken, kTaken, kNotTaken, kStronglyNotTaken]

theorem mem_directions (d : EDirection) : d ∈ directions := by cases d <;> decide

/-- **The lessons work**, whatever the counters are. -/
theorem plan_works (c : Counters) :
    (plan.foldl Counters.step c).first.notTaken = false ∧
      (plan.foldl Counters.step c).second.notTaken = true ∧
      (plan.foldl Counters.step c).choice.notTaken = true := by
  have hall : ∀ b ∈ directions, ∀ f ∈ directions, ∀ s ∈ directions, ∀ m ∈ directions,
      (plan.foldl Counters.step ⟨b, f, s, m⟩).first.notTaken = false ∧
      (plan.foldl Counters.step ⟨b, f, s, m⟩).second.notTaken = true ∧
      (plan.foldl Counters.step ⟨b, f, s, m⟩).choice.notTaken = true := by
    decide +kernel
  exact hall c.bimodal (mem_directions _) c.first (mem_directions _) c.second (mem_directions _)
    c.choice (mem_directions _)

/-- The counters for the branch, with a history and with the empty one. -/
def CombiningImpl.counters (p : CombiningImpl) (r : BitVec 32) : Counters :=
  ⟨p.theBimodal.direction 0, p.theGShare.direction 0 r, p.theGShare.direction 0 0,
    p.theMeta.direction 0⟩

theorem GShare.index_zero (g : GShare) (hm : g.thePatternMask = 0x1FFF) {r : BitVec 32}
    (hr : r &&& 0x1FFF = r) : g.index 0 r = r.toNat := by
  have hzero : r.setWidth 64 ^^^ ((0 : BitVec 64) >>> 2) = r.setWidth 64 := BitVec.xor_zero
  rw [GShare.index, hm, hzero, ← BitVec.setWidth_and, hr, BitVec.toNat_setWidth]
  exact Nat.mod_eq_of_lt (Nat.lt_trans r.isLt (by decide))

theorem Bimodal.direction_update (m : Bimodal) (a : BitVec 64) (d : EDirection) :
    (m.update a d).direction a = d := by
  show Function.update m.theTable (m.index a) d (m.index a) = d
  rw [Function.update_self]

theorem GShare.direction_update (g : GShare) (a : BitVec 64) (r : BitVec 32) (d : EDirection) :
    (g.update a r d).direction a r = d := by
  show Function.update g.thePatternTable (g.index a r) d (g.index a r) = d
  rw [Function.update_self]

theorem GShare.direction_update_of_ne (g : GShare) (a : BitVec 64) {r r' : BitVec 32}
    (d : EDirection) (h : g.index a r' ≠ g.index a r) :
    (g.update a r d).direction a r' = g.direction a r' := by
  show Function.update g.thePatternTable (g.index a r) d (g.index a r') = _
  rw [Function.update_of_ne h]
  rfl

theorem CombiningImpl.meta_learn (m : Bimodal) (a : BitVec 64) (d gshare bimodal : EDirection) :
    (if gshare.notTaken ≠ bimodal.notTaken then
        if d.notTaken = gshare.notTaken then m.update a (m.direction a).moreNotTaken
        else m.update a (m.direction a).moreTaken
      else m).direction a = trained d gshare bimodal (m.direction a) := by
  rw [trained]
  split
  · split
    · exact m.direction_update a _
    · exact m.direction_update a _
  · rfl

/-- **One lesson.** -/
theorem CombiningImpl.feedback_lesson {r : BitVec 32} {type : EBranchType}
    (hm : p.theGShare.thePatternMask = 0x1FFF) (hr : r &&& 0x1FFF = r) (hr0 : r ≠ 0)
    (hb : p.theBTB.find 0 = some ⟨0, type, 4⟩) (l : Bool × EDirection) :
    let t := p.feedback (lesson (if l.1 then r else 0) l.2)
    t.counters r = (p.counters r).step l ∧ t.theBTB.find 0 = some ⟨0, .kConditional, 4⟩ ∧
      t.theGShare.theShiftReg = p.theGShare.theShiftReg ∧
      t.theGShare.thePatternMask = 0x1FFF := by
  obtain ⟨hfind, hnew⟩ := p.theBTB.find_update 0 .kConditional 4 (by decide) (by decide)
  have hold : (p.theBTB.update 0 .kConditional 4).2 = false := by
    rw [Bool.eq_false_iff, ne_eq, hnew, hb]
    exact Option.some_ne_none _
  have hzero : (0 : BitVec 32) &&& 0x1FFF = 0 := rfl
  have hfirst : p.theGShare.index 0 r = r.toNat := p.theGShare.index_zero hm hr
  have hsecond : p.theGShare.index 0 0 = 0 := p.theGShare.index_zero hm hzero
  have hne : r.toNat ≠ 0 := fun hc => hr0 (BitVec.eq_of_toNat_eq hc)
  have hlearn : ∀ q d, p.feedback (lesson q d) =
      ({ p with theBTB := (p.theBTB.update 0 .kConditional 4).1 }).learn (lesson q d)
        ⟨.kConditional, 4, d, d, d, d, q, 0⟩ := by
    intro q d
    simp only [CombiningImpl.feedback, lesson, hold, Bool.false_eq_true, if_false, if_true]
  rw [hlearn]
  refine ⟨?_, hfind, ?_, ?_⟩
  · obtain ⟨sel, d⟩ := l
    cases sel with
    | true =>
      have hother : p.theGShare.index 0 0 ≠ p.theGShare.index 0 r := by omega
      simp only [counters, learn, lesson, Counters.step, if_true, ne_eq, not_true_eq_false,
        if_false, Bimodal.direction_update, GShare.direction_update,
        GShare.direction_update_of_ne _ _ _ hother]
      congr 1
      exact meta_learn p.theMeta 0 d _ _
    | false =>
      have hother : p.theGShare.index 0 r ≠ p.theGShare.index 0 0 := by omega
      simp only [counters, learn, lesson, Counters.step, Bool.false_eq_true, ne_eq,
        not_true_eq_false, if_false, Bimodal.direction_update, GShare.direction_update,
        GShare.direction_update_of_ne _ _ _ hother]
      congr 1
      exact meta_learn p.theMeta 0 d _ _
  · simp [learn, lesson, GShare.update]
  · simp [learn, lesson, GShare.update, hm]

/-- **All lessons**, one after the other. -/
theorem CombiningImpl.after_lessons {r : BitVec 32} (hr : r &&& 0x1FFF = r) (hr0 : r ≠ 0)
    (ls : List (Bool × EDirection)) {type : EBranchType}
    (hm : p.theGShare.thePatternMask = 0x1FFF) (hb : p.theBTB.find 0 = some ⟨0, type, 4⟩) :
    let t := p.after (ls.map fun l => .feedback (lesson (if l.1 then r else 0) l.2))
    t.counters r = ls.foldl Counters.step (p.counters r) ∧
      t.theGShare.theShiftReg = p.theGShare.theShiftReg ∧
      (ls ≠ [] → t.theBTB.find 0 = some ⟨0, .kConditional, 4⟩) := by
  induction ls generalizing p type with
  | nil => exact ⟨rfl, rfl, fun h => absurd rfl h⟩
  | cons l ls ih =>
    obtain ⟨hc, hfind, hreg, hmask⟩ := feedback_lesson hm hr hr0 hb l
    obtain ⟨hcs, hregs, hfinds⟩ := ih hmask hfind
    refine ⟨?_, ?_, ?_⟩
    · rw [List.foldl_cons, ← hc]
      exact hcs
    · exact hregs.trans hreg
    · intro _
      cases ls with
      | nil => exact hfind
      | cons l' ls' => exact hfinds (List.cons_ne_nil _ _)

/-- **The calls that tell a history from the empty one.** -/
def course (r : BitVec 32) : List Call :=
  .feedback introduction ::
    plan.map fun l => .feedback (lesson (if l.1 then r else 0) l.2)

/-- **The last prediction** after the course: with the history the branch is taken, without it
is not. -/
theorem CombiningImpl.course_spec {r : BitVec 32} (hm : p.theGShare.thePatternMask = 0x1FFF)
    (hr : r &&& 0x1FFF = r) (hr0 : r ≠ 0) :
    (p.theGShare.theShiftReg = r →
      ((p.after (course r)).call (.predict 0)).1 = some 4) ∧
    (p.theGShare.theShiftReg = 0 →
      ((p.after (course r)).call (.predict 0)).1 = some 0) := by
  obtain ⟨hfind, _⟩ := p.theBTB.find_update 0 .kUnconditional 4 (by decide) (by decide)
  have hintro : p.feedback introduction =
      { p with theBTB := (p.theBTB.update 0 .kUnconditional 4).1 } := by
    simp [feedback, introduction]
  obtain ⟨hc, hreg, hentry⟩ := after_lessons (p := p.feedback introduction) hr hr0 plan
    (by rw [hintro]; exact hm) (by rw [hintro]; exact hfind)
  have hreg' : (p.feedback introduction).theGShare.theShiftReg = p.theGShare.theShiftReg := by
    rw [hintro]
  obtain ⟨hfirst, hsecond, hchoice⟩ := plan_works ((p.feedback introduction).counters r)
  rw [← hc] at hfirst hsecond hchoice
  rw [hreg'] at hreg
  have hbtb := hentry (by decide)
  have hafter : p.after (course r) = (p.feedback introduction).after
      (plan.map fun l => .feedback (lesson (if l.1 then r else 0) l.2)) := by
    rw [course, CombiningImpl.after, call]
  rw [hafter]
  generalize (p.feedback introduction).after
    (plan.map fun l => .feedback (lesson (if l.1 then r else 0) l.2)) = t at *
  have htype : t.theBTB.type 0 = .kConditional := by
    have hset : (t.theBTB.set 0).find 0 = some ⟨0, .kConditional, 4⟩ := hbtb
    rw [BTB.type, hset]
    rfl
  have htarget : t.theBTB.target 0 = some 4 := by
    have hset : (t.theBTB.set 0).find 0 = some ⟨0, .kConditional, 4⟩ := hbtb
    rw [BTB.target, hset]
    rfl
  have hpredict : (t.call (.predict 0)).1 = some
      (if (t.theGShare.direction 0 t.theGShare.theShiftReg).notTaken then 0 else 4) := by
    have hchosen : (t.theMeta.direction 0).notTaken = true := hchoice
    simp only [call, predict, htype, predictConditional, hchosen, if_true, htarget,
      Option.getD_some]
  refine ⟨?_, ?_⟩
  · intro hp
    have htaken : (t.theGShare.direction 0 r).notTaken = false := hfirst
    rw [hpredict, hreg, hp, htaken]
    rfl
  · intro hp
    have hnot : (t.theGShare.direction 0 0).notTaken = true := hsecond
    rw [hpredict, hreg, hp, hnot]
    rfl

/-! ### Checkpoints -/

/-- **A checkpoint is faithful**: saving leaves the predictor as it is, and the one that is
loaded from it returns the same for every sequence of calls. -/
def CombiningImpl.Faithful (p : CombiningImpl) : Prop :=
  p.saveState.2 = p ∧
    ∀ cs : List Call, (fresh.loadState p.saveState.1).predictions cs = p.predictions cs

theorem CombiningImpl.predictions_append (p : CombiningImpl) (cs ds : List Call) :
    p.predictions (cs ++ ds) = p.predictions cs ++ (p.after cs).predictions ds := by
  induction cs generalizing p with
  | nil => rfl
  | cons c cs ih =>
    rw [List.cons_append, predictions, predictions, ih, after, List.cons_append]

theorem CombiningImpl.length_predictions (p : CombiningImpl) (cs : List Call) :
    (p.predictions cs).length = cs.length := by
  induction cs generalizing p with
  | nil => rfl
  | cons c cs ih => rw [predictions, List.length_cons, List.length_cons, ih]

/-- **With a history the loaded predictor is told from the other.** -/
theorem CombiningImpl.predictions_ne (h : p.Masked) (hr : p.theGShare.theShiftReg ≠ 0) :
    (p.withHistory 0).predictions (course p.theGShare.theShiftReg ++ [.predict 0]) ≠
      p.predictions (course p.theGShare.theShiftReg ++ [.predict 0]) := by
  intro heq
  rw [predictions_append, predictions_append] at heq
  have hlast := (List.append_inj heq (by rw [length_predictions, length_predictions])).2
  obtain ⟨htaken, _⟩ := course_spec (p := p) h.mask h.shiftReg hr
  obtain ⟨_, hnot⟩ := course_spec (p := p.withHistory 0) h.mask h.shiftReg hr
  rw [predictions, predictions, predictions, predictions, htaken rfl, hnot rfl] at hlast
  cases hlast

/-- **A checkpoint is faithful if and only if the history is empty** when it is taken. -/
theorem faithful_iff (p : CombiningImpl) (h : CombiningImpl.Reachable p) :
    p.Faithful ↔ p.theGShare.theShiftReg = 0 := by
  have hm := CombiningImpl.masked_of_reachable h
  constructor
  · rintro ⟨_, hall⟩
    by_contra hr
    have hcs := hall (course p.theGShare.theShiftReg ++ [.predict 0])
    rw [CombiningImpl.loadState_fresh, CombiningImpl.predictions_serial] at hcs
    exact CombiningImpl.predictions_ne hm hr hcs
  · intro hr
    have hzero : (0 : BitVec 32) &&& p.theGShare.theShiftRegSize = 0 := BitVec.zero_and
    have hempty : p.withHistory 0 = p := by
      rw [CombiningImpl.withHistory, ← hr]
    refine ⟨?_, ?_⟩
    · have hmask : p.theGShare.maskShiftReg = p.theGShare := by
        rw [GShare.maskShiftReg, hr, hzero, ← hr]
      show { p with theGShare := p.theGShare.maskShiftReg } = p
      rw [hmask]
    · intro cs
      rw [CombiningImpl.loadState_fresh, CombiningImpl.predictions_serial, hempty]

/-- A predictor that has seen an unconditional branch has no history. -/
theorem faithful_introduced :
    (CombiningImpl.fresh.feedback introduction).theGShare.theShiftReg = 0 ∧
      (CombiningImpl.fresh.feedback introduction).Faithful := by
  have hreach : CombiningImpl.Reachable (CombiningImpl.fresh.feedback introduction) :=
    CombiningImpl.Reachable.call (.feedback introduction) CombiningImpl.Reachable.fresh
  have hreg : (CombiningImpl.fresh.feedback introduction).theGShare.theShiftReg = 0 := by
    decide +kernel
  exact ⟨hreg, (faithful_iff _ hreach).mpr hreg⟩

/-- Two branches that are not taken, seen for the first time. -/
def notTakenTwice : List Call :=
  [.feedback ⟨0x1000, .kConditional, kStronglyNotTaken, 0x2000, none⟩,
    .feedback ⟨0x1004, .kConditional, kStronglyNotTaken, 0x3000, none⟩]

/-- **The history is lost**: saving cuts it down, and what is loaded predicts the first of the
branches as not taken, where the predictor that was saved predicts it as taken. -/
theorem notTakenTwice_lost :
    (CombiningImpl.fresh.after notTakenTwice).saveState.2 ≠
      CombiningImpl.fresh.after notTakenTwice ∧
    (CombiningImpl.fresh.after notTakenTwice).predictions [.predict 0x1000] = [some 0x2000] ∧
    (CombiningImpl.fresh.loadState
      (CombiningImpl.fresh.after notTakenTwice).saveState.1).predictions [.predict 0x1000] =
        [some 0] := by
  refine ⟨?_, by decide +kernel, by decide +kernel⟩
  intro heq
  have hreg : (CombiningImpl.fresh.after notTakenTwice).saveState.2.theGShare.theShiftReg =
      (CombiningImpl.fresh.after notTakenTwice).theGShare.theShiftReg := by rw [heq]
  revert hreg
  decide +kernel

end BPred

end Flexus
