import Flexus.Common.FastPredictor
import Flexus.Lib.UseOrder
import Mathlib.Data.List.Induction

/-!
# The warming and the timing predictor agree

The predictor that is warmed is asked about every branch, the one of the timing simulation only
about those that its target buffer has. The two nevertheless go through the same states, when they
see the same branches and have tables of the same sizes (`Flexus.BPred.warming_agrees`).

What carries this is an invariant of the target buffer: it holds no entry for an instruction that is
not a branch. A record that says that no branch was predicted therefore means that the buffer had no
entry, which is when the timing predictor has no record.
-/

namespace Flexus

namespace BPred

open Flexus.Lib EDirection

/-! ### The sets of the target buffer -/

/-- **All entries of a target buffer are branches.** -/
def BTB.Typed (b : BTB) : Prop := ∀ i, ∀ e ∈ (b.theBTB i).entries, e.theBranchType ≠ .kNonBranch

/-- **What else holds of a target buffer** after a history of updates: its sets are no larger than
they may be, their entries are of their own index, and they are in order of last update. -/
structure BTB.Ordered (h : List (Use (BitVec 64))) (b : BTB) : Prop where
  room : ∀ i, (b.theBTB i).entries.length ≤ b.theBTBAssoc.toNat
  index : ∀ i, ∀ e ∈ (b.theBTB i).entries, b.index e.thePC = i
  order : ∀ i, InOrder BTBEntry.thePC h (b.theBTB i).entries

theorem BTBEntry.key_eq_iff {e : BTBEntry} {aPC : BitVec 64} :
    e.key = aPC.toNat ↔ e.thePC = aPC := BitVec.toNat_inj

namespace BtbSet

variable {s : BtbSet} {aPC : BitVec 64} {e : BTBEntry}

theorem mem_of_find (h : s.find aPC = some e) : e ∈ s.entries ∧ e.thePC = aPC :=
  ⟨Keyed.mem_of_lookup h, BTBEntry.key_eq_iff.mp (Keyed.key_of_lookup h)⟩

theorem ne_of_find (h : s.find aPC = none) : ∀ e ∈ s.entries, e.thePC ≠ aPC := fun e he hpc =>
  Keyed.lookup_eq_none.mp h e he (BTBEntry.key_eq_iff.mpr hpc)

theorem find_of_ne (h : ∀ e ∈ s.entries, e.thePC ≠ aPC) : s.find aPC = none :=
  Keyed.lookup_eq_none.mpr fun e he hkey => h e he (BTBEntry.key_eq_iff.mp hkey)

theorem nodup_pcs (s : BtbSet) : (s.entries.map BTBEntry.thePC).Nodup := by
  have hkeys : (s.entries.map BTBEntry.key) =
      (s.entries.map BTBEntry.thePC).map BitVec.toNat := by
    rw [List.map_map]
    rfl
  have hunique := s.unique
  rw [hkeys] at hunique
  exact hunique.of_map _

theorem pushBack_entries (h : s.find e.thePC = none) :
    (s.pushBack e).entries = s.entries ++ [e] := by
  have hnone : Keyed.lookup BTBEntry.key s.entries e.key = none := h
  show Keyed.pushBack BTBEntry.key s.entries e = s.entries ++ [e]
  simp only [Keyed.pushBack, hnone, Option.isSome_none, Bool.false_eq_true, if_false]

theorem mem_pushBack {e' : BTBEntry} (h : e' ∈ (s.pushBack e).entries) :
    e' ∈ s.entries ∨ e' = e := by
  have h' : e' ∈ Keyed.pushBack BTBEntry.key s.entries e := h
  rw [Keyed.pushBack] at h'
  split at h'
  · exact .inl h'
  · rwa [List.mem_append, List.mem_singleton] at h'

theorem mem_erase {e' : BTBEntry} (h : e' ∈ (s.erase aPC).entries) :
    e' ∈ s.entries ∧ e'.thePC ≠ aPC := by
  obtain ⟨hmem, hkey⟩ := List.mem_filter.mp h
  exact ⟨hmem, fun hpc => (bne_iff_ne.mp hkey) (BTBEntry.key_eq_iff.mpr hpc)⟩

theorem erase_sublist (s : BtbSet) (aPC : BitVec 64) :
    (s.erase aPC).entries.Sublist s.entries := List.filter_sublist

theorem length_erase_lt (h : s.find aPC = some e) :
    (s.erase aPC).entries.length < s.entries.length := by
  have hlength := (Keyed.perm_erase s.unique h).length_eq
  rw [List.length_cons] at hlength
  rw [hlength]
  exact Nat.lt_succ_self _

end BtbSet

namespace BTB

variable {b : BTB} {h : List (Use (BitVec 64))} {aPC : BitVec 64}

theorem setSet_of_ne {s : BtbSet} {i : ℕ} (hi : i ≠ b.index aPC) :
    (b.setSet aPC s).theBTB i = b.theBTB i := Function.update_of_ne hi _ _

theorem setSet_self (b : BTB) (aPC : BitVec 64) (s : BtbSet) :
    (b.setSet aPC s).theBTB (b.index aPC) = s := Function.update_self _ _ _

/-- **What an update leaves in a set**: entries that were there, and that of the branch. -/
theorem mem_update {aType : EBranchType} {aTarget : BitVec 64} {i : ℕ} {e : BTBEntry}
    (he : e ∈ ((b.update aPC aType aTarget).1.theBTB i).entries) :
    e ∈ (b.theBTB i).entries ∨ e.theBranchType = aType ∧ aType ≠ .kNonBranch := by
  have hset : ∀ {s : BtbSet}, e ∈ ((b.setSet aPC s).theBTB i).entries →
      (∀ e' ∈ s.entries, e' ∈ (b.set aPC).entries ∨
        e'.theBranchType = aType ∧ aType ≠ .kNonBranch) →
      e ∈ (b.theBTB i).entries ∨ e.theBranchType = aType ∧ aType ≠ .kNonBranch := by
    intro s he hs
    by_cases hi : i = b.index aPC
    · rw [hi, b.setSet_self] at he
      rw [hi]
      exact hs e he
    · rw [setSet_of_ne hi] at he
      exact .inl he
  have hpush : ∀ {s : BtbSet} {target : BitVec 64}, s.entries ⊆ (b.set aPC).entries →
      aType ≠ .kNonBranch → ∀ e' ∈ (s.pushBack ⟨aPC, aType, target⟩).entries,
        e' ∈ (b.set aPC).entries ∨ e'.theBranchType = aType ∧ aType ≠ .kNonBranch := by
    intro s target hsub htype e' he'
    rcases BtbSet.mem_pushBack he' with he' | rfl
    · exact .inl (hsub he')
    · exact .inr ⟨rfl, htype⟩
  rw [BTB.update] at he
  split at he
  · split at he
    · exact hset he fun e' he' => .inl (BtbSet.mem_erase he').1
    · rename_i htype
      exact hset he (hpush ((b.set aPC).erase_sublist aPC).subset htype)
  · split at he
    · exact .inl he
    · rename_i htype
      refine hset he (hpush ?_ htype)
      split
      · exact (List.tail_sublist _).subset
      · exact List.Subset.refl _

theorem Typed.update (ht : b.Typed) (aPC : BitVec 64) (aType : EBranchType)
    (aTarget : BitVec 64) : (b.update aPC aType aTarget).1.Typed := by
  intro i e he
  rcases mem_update he with he | ⟨htype, hne⟩
  · exact ht i e he
  · exact htype ▸ hne

theorem typed_ofSize (aBTBSets aBTBAssoc : BitVec 32) : (BTB.ofSize aBTBSets aBTBAssoc).Typed :=
  fun _ _ he => absurd he List.not_mem_nil

namespace Ordered

theorem ofSize (aBTBSets aBTBAssoc : BitVec 32) : (BTB.ofSize aBTBSets aBTBAssoc).Ordered [] where
  room _ := Nat.zero_le _
  index _ _ he := absurd he List.not_mem_nil
  order _ := InOrder.nil

theorem ne_of_index (ho : b.Ordered h) {i : ℕ} (hi : i ≠ b.index aPC) :
    ∀ e ∈ (b.theBTB i).entries, e.thePC ≠ aPC := by
  rintro e he rfl
  exact hi (ho.index i e he).symm

/-- **One set is replaced.** -/
theorem setSet (ho : b.Ordered h) {s : BtbSet} (hroom : s.entries.length ≤ b.theBTBAssoc.toNat)
    (hs : ∀ e ∈ s.entries, b.index e.thePC = b.index aPC)
    (horder : InOrder BTBEntry.thePC (.back aPC :: h) s.entries) :
    (b.setSet aPC s).Ordered (.back aPC :: h) := by
  refine ⟨fun i => ?_, fun i e he => ?_, fun i => ?_⟩
  all_goals by_cases hi : i = b.index aPC
  · rw [hi, b.setSet_self]
    exact hroom
  · rw [setSet_of_ne hi]
    exact ho.room i
  · rw [hi, b.setSet_self] at he
    rw [hi]
    exact hs e he
  · rw [setSet_of_ne hi] at he
    exact ho.index i e he
  · rw [hi, b.setSet_self]
    exact horder
  · rw [setSet_of_ne hi]
    exact (ho.order i).other (ho.ne_of_index hi)

theorem setSet_pushBack (ho : b.Ordered h) {s : BtbSet} {aType : EBranchType}
    {aTarget : BitVec 64} (hs : s.entries.Sublist (b.set aPC).entries)
    (hne : ∀ e ∈ s.entries, e.thePC ≠ aPC) (hlt : s.entries.length < b.theBTBAssoc.toNat) :
    (b.setSet aPC (s.pushBack ⟨aPC, aType, aTarget⟩)).Ordered (.back aPC :: h) := by
  have hentries := BtbSet.pushBack_entries (e := ⟨aPC, aType, aTarget⟩) (BtbSet.find_of_ne hne)
  refine ho.setSet ?_ (fun e he => ?_) ?_
  · rw [hentries, List.length_append, List.length_singleton]
    exact hlt
  · rw [hentries] at he
    rcases List.mem_append.mp he with he | he
    · exact ho.index _ e (hs.subset he)
    · rw [List.mem_singleton.mp he]
  · rw [hentries]
    exact ((ho.order _).sublist hs).concat rfl hne

/-- **An update keeps a buffer in order.** -/
theorem update (ho : b.Ordered h) (hpos : 0 < b.theBTBAssoc.toNat) (aPC : BitVec 64)
    (aType : EBranchType) (aTarget : BitVec 64) :
    (b.update aPC aType aTarget).1.Ordered (.back aPC :: h) := by
  have hroom := ho.room (b.index aPC)
  rw [BTB.update]
  cases hfind : (b.set aPC).find aPC with
  | some e =>
    have hlt := Nat.lt_of_lt_of_le (BtbSet.length_erase_lt hfind) hroom
    have hsub := (b.set aPC).erase_sublist aPC
    have hne : ∀ e ∈ ((b.set aPC).erase aPC).entries, e.thePC ≠ aPC := fun e he =>
      (BtbSet.mem_erase he).2
    by_cases htype : aType = .kNonBranch
    · simp only [if_pos htype]
      exact ho.setSet (Nat.le_of_lt hlt) (fun e he => ho.index _ e (hsub.subset he))
        (((ho.order _).sublist hsub).other hne)
    · simp only [if_neg htype]
      exact ho.setSet_pushBack hsub hne hlt
  | none =>
    have hne := BtbSet.ne_of_find hfind
    by_cases htype : aType = .kNonBranch
    · -- the history goes on, and no entry has the address
      simp only [if_pos htype]
      refine ⟨ho.room, ho.index, fun i => (ho.order i).other ?_⟩
      by_cases hi : i = b.index aPC
      · rw [hi]
        exact hne
      · exact ho.ne_of_index hi
    · simp only [if_neg htype]
      split
      · -- the oldest entry makes room
        have hsub : (b.set aPC).popFront.entries.Sublist (b.set aPC).entries := List.tail_sublist _
        refine ho.setSet_pushBack hsub (fun e he => hne e (hsub.subset he)) ?_
        show (b.set aPC).entries.tail.length < _
        rw [List.length_tail]
        have : (b.set aPC).entries.length ≤ b.theBTBAssoc.toNat := hroom
        omega
      · rename_i hfull
        exact ho.setSet_pushBack (List.Sublist.refl _) hne (Nat.lt_of_not_le hfull)

end Ordered

theorem update_assoc (b : BTB) (aPC : BitVec 64) (aType : EBranchType) (aTarget : BitVec 64) :
    (b.update aPC aType aTarget).1.theBTBAssoc = b.theBTBAssoc := by
  rw [BTB.update]
  split
  · split <;> rfl
  · split <;> rfl

theorem update_new (b : BTB) (aPC : BitVec 64) {aType : EBranchType} (aTarget : BitVec 64)
    (htype : aType ≠ .kNonBranch) : (b.update aPC aType aTarget).2 = !b.contains aPC := by
  rw [BTB.update, BTB.contains]
  cases (b.set aPC).find aPC with
  | none =>
    simp only [if_neg htype]
    rfl
  | some e =>
    simp only [if_neg htype]
    rfl

/-- **A record that says that no branch was predicted** means that there is no entry. -/
theorem Typed.type_eq_kNonBranch (ht : b.Typed) {anAddress : BitVec 64} :
    b.type anAddress = .kNonBranch ↔ b.contains anAddress = false := by
  rw [type, contains]
  cases hfind : (b.set anAddress).find anAddress with
  | none => exact ⟨fun _ => rfl, fun _ => rfl⟩
  | some e =>
    refine ⟨fun htype => ?_, fun hnone => ?_⟩
    · exact absurd htype (ht _ e (BtbSet.mem_of_find hfind).1)
    · cases hnone

end BTB

/-! ### The two predictors side by side -/

namespace FastCombiningImpl

variable (q : FastCombiningImpl)

theorem predict_type (anAddress : BitVec 64) :
    (q.predict anAddress).1.thePredictedType = q.theBTB.type anAddress := by
  rw [predict]
  cases htype : q.theBTB.type anAddress <;> exact htype

theorem predict_theBTB (anAddress : BitVec 64) : (q.predict anAddress).2.theBTB = q.theBTB := by
  rw [predict]
  cases q.theBTB.type anAddress <;> rfl

/-- Where no branch is predicted, only the serial number goes on. -/
theorem predict_of_kNonBranch {anAddress : BitVec 64} (h : q.theBTB.type anAddress = .kNonBranch) :
    (q.predict anAddress).2 = { q with theSerial := q.theSerial + 1 } := by
  rw [predict, h]

theorem feedback_theBTB (b : Branch) (s : BPredState) :
    (q.feedback b s).theBTB = (q.theBTB.update b.thePC b.theType b.theTarget).1 := by
  rw [feedback]
  split
  · split
    · rfl
    · split <;> rfl
  · split
    · split <;> rfl
    · rfl

theorem resolve_theBTB (b : Branch) :
    (q.resolve b).theBTB = (q.theBTB.update b.thePC b.theType b.theTarget).1 := by
  rw [resolve, feedback_theBTB, predict_theBTB]

end FastCombiningImpl

/-- **Two predictors agree**: they have the same tables. -/
structure Agree (p : CombiningImpl) (q : FastCombiningImpl) : Prop where
  btb : p.theBTB = q.theBTB
  bimodal : p.theBimodal = q.theBimodal
  choice : p.theMeta = q.theMeta
  gshare : p.theGShare = q.theGShare

namespace Agree

variable {p : CombiningImpl} {q : FastCombiningImpl}

/-- **Predictions are the same**, but for their serial numbers. -/
theorem predict (h : Agree p q) (anAddress : BitVec 64) :
    (q.predict anAddress).1 = { (p.predict anAddress).1 with theSerial := q.theSerial } ∧
      Agree (p.predict anAddress).2 (q.predict anAddress).2 := by
  obtain ⟨serial, btb, bimodal, choice, gshare⟩ := p
  obtain ⟨serial', btb', bimodal', choice', gshare'⟩ := q
  obtain ⟨rfl, rfl, rfl, rfl⟩ := h
  rw [CombiningImpl.predict, FastCombiningImpl.predict]
  cases htype : btb.type anAddress with
  | kNonBranch => exact ⟨rfl, rfl, rfl, rfl, rfl⟩
  | kConditional => exact ⟨rfl, rfl, rfl, rfl, rfl⟩
  | kUnconditional => exact ⟨rfl, rfl, rfl, rfl, rfl⟩
  | kCall => exact ⟨rfl, rfl, rfl, rfl, rfl⟩
  | kReturn => exact ⟨rfl, rfl, rfl, rfl, rfl⟩

/-- **Feedback about a branch that was predicted** has the same effect. -/
theorem feedback_some (h : Agree p q) (b : Branch) {s s' : BPredState}
    (hs : s' = { s with theSerial := s'.theSerial }) (htype : s.thePredictedType ≠ .kNonBranch) :
    Agree (p.feedback (b.toFeedback (some s))) (q.feedback b s') := by
  obtain ⟨serial, btb, bimodal, choice, gshare⟩ := p
  obtain ⟨serial', btb', bimodal', choice', gshare'⟩ := q
  obtain ⟨rfl, rfl, rfl, rfl⟩ := h
  rw [hs, CombiningImpl.feedback, FastCombiningImpl.feedback]
  by_cases hcond : b.theType = .kConditional
  · by_cases hnew : (btb.update b.thePC .kConditional b.theTarget).2 = true
    · simp only [Branch.toFeedback, hcond, hnew, if_true]
      exact ⟨rfl, rfl, rfl, rfl⟩
    · simp only [Branch.toFeedback, hcond, hnew, htype, if_true, ne_eq, not_false_eq_true]
      exact ⟨rfl, rfl, rfl, rfl⟩
  · by_cases htarget : s.thePredictedTarget = b.theTarget
    · simp only [Branch.toFeedback, hcond, htarget, if_false, ne_eq, not_true_eq_false, false_and,
        and_false]
      exact ⟨rfl, rfl, rfl, rfl⟩
    · simp only [Branch.toFeedback, hcond, htarget, htype, if_false, ne_eq, not_false_eq_true,
        true_and, if_true]
      split
      · exact ⟨rfl, rfl, rfl, rfl⟩
      · exact ⟨rfl, rfl, rfl, rfl⟩

/-- **Feedback about a branch that was not predicted** has the same effect. -/
theorem feedback_none (h : Agree p q) (b : Branch) {s' : BPredState}
    (htype : s'.thePredictedType = .kNonBranch) :
    Agree (p.feedback (b.toFeedback none)) (q.feedback b s') := by
  obtain ⟨serial, btb, bimodal, choice, gshare⟩ := p
  obtain ⟨serial', btb', bimodal', choice', gshare'⟩ := q
  obtain ⟨rfl, rfl, rfl, rfl⟩ := h
  rw [CombiningImpl.feedback, FastCombiningImpl.feedback]
  by_cases hcond : b.theType = .kConditional
  · by_cases hnew : (btb.update b.thePC .kConditional b.theTarget).2 = true
    · simp only [Branch.toFeedback, hcond, hnew, if_true]
      exact ⟨rfl, rfl, rfl, rfl⟩
    · simp only [Branch.toFeedback, hcond, hnew, htype, if_true, if_false, ne_eq, not_true_eq_false]
      exact ⟨rfl, rfl, rfl, rfl⟩
  · simp only [Branch.toFeedback, hcond, htype, if_false, ne_eq, not_true_eq_false, false_and]
    exact ⟨rfl, rfl, rfl, rfl⟩

/-- **One branch**, predicted and resolved. -/
theorem resolve (h : Agree p q) (ht : p.theBTB.Typed) (b : Branch) :
    Agree (p.resolveFetched b) (q.resolve b) := by
  obtain ⟨hrecord, hnext⟩ := h.predict b.thePC
  rw [CombiningImpl.resolveFetched, CombiningImpl.consult, FastCombiningImpl.resolve]
  have htype : (q.predict b.thePC).1.thePredictedType = q.theBTB.type b.thePC :=
    q.predict_type b.thePC
  cases hcontains : p.theBTB.contains b.thePC with
  | true =>
    refine hnext.feedback_some b (by rw [hrecord]) ?_
    have hsame : (p.predict b.thePC).1.thePredictedType =
        (q.predict b.thePC).1.thePredictedType := by rw [hrecord]
    rw [hsame, htype, ← h.btb, ne_eq, ht.type_eq_kNonBranch, hcontains]
    decide
  | false =>
    -- the record of the warming predictor says that there was no branch
    have hnone : q.theBTB.type b.thePC = .kNonBranch := by
      rw [← h.btb, ht.type_eq_kNonBranch]
      exact hcontains
    refine Agree.feedback_none ?_ b (htype.trans hnone)
    rw [q.predict_of_kNonBranch hnone]
    exact ⟨h.btb, h.bimodal, h.choice, h.gshare⟩

end Agree

/-- The updates of a target buffer for a sequence of branches, the last one first. -/
def updates (bs : List Branch) : List (Use (BitVec 64)) := bs.reverse.map fun b => .back b.thePC

theorem updates_concat (bs : List Branch) (b : Branch) :
    updates (bs ++ [b]) = .back b.thePC :: updates bs := by
  rw [updates, List.reverse_append]
  rfl

/-- **The invariant of the two runs.** -/
theorem agree_resolveAll (n : Sizes) (bs : List Branch) :
    Agree ((CombiningImpl.ofSizes n).resolveAllFetched bs)
      ((FastCombiningImpl.ofSizes n).resolveAll bs) ∧
    ((FastCombiningImpl.ofSizes n).resolveAll bs).theBTB.Typed ∧
    ((FastCombiningImpl.ofSizes n).resolveAll bs).theBTB.Ordered (updates bs) ∧
    ((FastCombiningImpl.ofSizes n).resolveAll bs).theBTB.theBTBAssoc = n.btbAssoc := by
  induction bs using List.reverseRecOn with
  | nil => exact ⟨⟨rfl, rfl, rfl, rfl⟩, BTB.typed_ofSize _ _, BTB.Ordered.ofSize _ _, rfl⟩
  | append_singleton bs b ih =>
    obtain ⟨hagree, htyped, hordered, hassoc⟩ := ih
    have hpos : 0 < ((FastCombiningImpl.ofSizes n).resolveAll bs).theBTB.theBTBAssoc.toNat := by
      rw [hassoc]
      exact n.btbAssoc_pos
    rw [CombiningImpl.resolveAllFetched, FastCombiningImpl.resolveAll, List.foldl_concat,
      List.foldl_concat, updates_concat]
    refine ⟨hagree.resolve (hagree.btb ▸ htyped) b, ?_, ?_, ?_⟩
    · rw [FastCombiningImpl.resolve_theBTB]
      exact htyped.update _ _ _
    · rw [FastCombiningImpl.resolve_theBTB]
      exact hordered.update hpos _ _ _
    · rw [FastCombiningImpl.resolve_theBTB, BTB.update_assoc]
      exact hassoc

/-- **The warming and the timing predictor agree.** With tables of the same sizes and after the same
branches they have the same tables, and make the same prediction for every branch that the target
buffer has. The sets of the buffer are no larger than they may be, hold distinct addresses of their
own index, and are in order of last update. -/
theorem warming_agrees (n : Sizes) (bs : List Branch) :
    let p := (CombiningImpl.ofSizes n).resolveAllFetched bs
    let q := (FastCombiningImpl.ofSizes n).resolveAll bs
    Agree p q ∧
    (∀ anAddress, p.theBTB.contains anAddress = true →
      ∃ s, (p.consult anAddress).1 = some s ∧
        s.thePredictedType = (q.predict anAddress).1.thePredictedType ∧
        s.thePrediction = (q.predict anAddress).1.thePrediction ∧
        s.thePredictedTarget = (q.predict anAddress).1.thePredictedTarget) ∧
    ∀ i, (p.theBTB.theBTB i).entries.length ≤ n.btbAssoc.toNat ∧
      ((p.theBTB.theBTB i).entries.map BTBEntry.thePC).Nodup ∧
      (∀ e ∈ (p.theBTB.theBTB i).entries, p.theBTB.index e.thePC = i) ∧
      InOrder BTBEntry.thePC (updates bs) (p.theBTB.theBTB i).entries := by
  intro p q
  obtain ⟨hagree, -, hordered, hassoc⟩ := agree_resolveAll n bs
  refine ⟨hagree, fun anAddress hcontains => ?_, fun i => ?_⟩
  · obtain ⟨hrecord, -⟩ := hagree.predict anAddress
    refine ⟨(p.predict anAddress).1, ?_, ?_, ?_, ?_⟩
    · rw [CombiningImpl.consult, if_pos hcontains]
    · rw [hrecord]
    · rw [hrecord]
    · rw [hrecord]
  · have hp : p.theBTB.Ordered (updates bs) := hagree.btb ▸ hordered
    have hpassoc : p.theBTB.theBTBAssoc = n.btbAssoc :=
      (congrArg BTB.theBTBAssoc hagree.btb).trans hassoc
    refine ⟨?_, (p.theBTB.theBTB i).nodup_pcs, hp.index i, hp.order i⟩
    rw [← hpassoc]
    exact hp.room i

end BPred

end Flexus
