import Flexus.UArch.Forwarding
import Flexus.UArch.MissLinks

/-!
# What the memory operations do to the links

The issue of an entry, a load that searches the queue, a change of an address and a reply from
memory: each of them keeps the links between the queue and the MSHRs in order, in whatever state
it is called. Of a change of address this is true under a condition. An entry that waits on the
MSHR of its old address has to leave it, and this is left to `doLoad`, which looks at the status
of the entry; where the status is not that of an entry that waits for memory, the link stays.
-/

namespace Flexus

open Function

namespace UArch

open Flexus.Lib

namespace MissCore

variable {s t u : MissCore} {k j : ℕ} {a b : BitVec 64} {e : LsqEntry} {m : Mshr}
  {f : LsqEntry → LsqEntry} {g : Mshr → Mshr}

/-! ### Issue -/

theorem theMSHR_of_status (h : e.status = .kAwaitingPort) : e.theMSHR = none := by
  have hpend : ∀ o, e.pending o = .kAwaitingPort → e.theMSHR = none := by
    intro o ho
    rw [LsqEntry.pending] at ho
    split at ho
    · cases ho
    · rename_i hn
      simpa using hn
  rw [LsqEntry.status] at h
  split at h
  · cases h
  split at h
  · cases h
  split at h
  · cases h
  split at h
  · split at h
    · cases h
    · exact hpend _ h
  · split at h
    · cases h
    · exact hpend _ h
  · split at h
    · cases h
    · exact hpend _ h
  · split at h
    · cases h
    · exact hpend _ h
  · cases h

theorem theMSHR_of_load {spec : Bool} (hi : mayIssue e = true)
    (ho : e.issueOp spec = some .kLoad) : e.theMSHR = none := by
  have hop : e.theOperation = .kLoad := by
    rw [LsqEntry.issueOp] at ho
    split at ho
    · assumption
    · cases ho
    all_goals
      first
      | cases ho
      | (rw [Option.some.injEq, LsqEntry.issueOp.atomicHalf] at ho
         split_ifs at ho)
  have hat : e.isAtomic = false := by rw [MemQueueEntry.isAtomic, hop]; rfl
  rw [mayIssue, hat, Bool.false_and, Bool.false_and, Bool.or_false, beq_iff_eq] at hi
  exact theMSHR_of_status hi

theorem Sound.theMSHR_eq_none (h : Sound s) (hk : s.find k = some e)
    (ha : s.mshr e.thePaddr = none) : e.theMSHR = none := by
  cases he : e.theMSHR with
  | none => rfl
  | some a =>
    obtain ⟨l, hl, _⟩ := (h.linked.links.agree k a).mp (up_eq_some.mpr ⟨e, hk, he⟩)
    rw [← h.placed k e hk not_false a he, down, ha] at hl
    cases hl

theorem up_modify_some (hk : s.find k = some e) :
    (s.modify k fun e => e.waitingOn a).up = update s.up k (some a) := by
  funext j
  rw [up_modify (seq_waitingOn a)]
  by_cases hj : j = k
  · rw [if_pos hj, hj, update_self, hk]
    rfl
  · rw [if_neg hj, update_of_ne hj]

/-- **An entry joins an MSHR**, a new one or one that is there: the pointer is set, and the
list extended. -/
theorem Sound.join (h : Sound s) (hk : s.find k = some e) (hnone : e.theMSHR = none)
    (hq : t.theMemQueue = s.theMemQueue) (hn : t.theMemorySequenceNum = s.theMemorySequenceNum)
    (hkeys : (t.theMSHRs.map Mshr.key).Nodup)
    (hdown : t.down = update s.down e.thePaddr
      (some ((s.down e.thePaddr).getD [] ++ [k]))) :
    Sound (t.modify k fun e' => e'.waitingOn e.thePaddr) := by
  have hfind : ∀ j, t.find j = s.find j := fun j => by rw [find, hq]; rfl
  have hup : t.up = s.up := funext fun j => by rw [up, hfind]; rfl
  have hupk : s.up k = none := by
    rw [up, hk]
    exact hnone
  refine ⟨⟨?_, ?_, hkeys, ?_⟩, ?_⟩
  · rw [MissCore.modify, Keyed.keys_update (seq_waitingOn _), hq]
    exact h.linked.ids
  · rw [MissCore.modify, Keyed.keys_update (seq_waitingOn _), hq]
    intro n hmem
    exact Nat.le_trans (h.linked.bound n hmem) (Nat.le_of_eq hn.symm)
  · rw [up_modify_some ((hfind k).trans hk), hup]
    exact hdown ▸ h.linked.links.join hupk
  · intro j e' hj _ a ha
    rw [find_modify (seq_waitingOn _), hfind] at hj
    split at hj
    · rename_i hjk
      rw [hjk, hk] at hj
      cases hj
      exact Option.some.inj ha
    · exact h.placed j e' hj not_false a ha

theorem mshr_insertMSHR (hk : (s.theMSHRs.map Mshr.key).Nodup) (hm : s.mshr m.thePaddr = none) :
    ((s.insertMSHR m).theMSHRs.map Mshr.key).Nodup ∧
      ∀ b, (s.insertMSHR m).mshr b = if b = m.thePaddr then some m else s.mshr b := by
  have hnone : ∀ x ∈ s.theMSHRs, x.key ≠ m.key := Keyed.lookup_eq_none.mp hm
  have hkeys : ((s.insertMSHR m).theMSHRs.map Mshr.key).Nodup := by
    rw [(perm_insertMSHR.map Mshr.key).nodup_iff, List.map_cons, List.nodup_cons]
    refine ⟨?_, hk⟩
    intro hmem
    obtain ⟨x, hx, hxm⟩ := List.mem_map.mp hmem
    exact hnone x hx hxm
  refine ⟨hkeys, ?_⟩
  intro b
  by_cases hb : b = m.thePaddr
  · rw [if_pos hb, hb]
    exact Keyed.lookup_of_mem hkeys (perm_insertMSHR.mem_iff.mpr List.mem_cons_self)
  · rw [if_neg hb]
    cases hs : s.mshr b with
    | none =>
      refine Keyed.lookup_eq_none.mpr ?_
      intro x hx
      rcases List.mem_cons.mp (perm_insertMSHR.mem_iff.mp hx) with rfl | hx
      · intro hxb
        exact hb (BitVec.eq_of_toNat_eq hxb).symm
      · exact Keyed.lookup_eq_none.mp hs x hx
    | some x =>
      have hxb : x.key = b.toNat := Keyed.key_of_lookup hs
      rw [mshr, ← hxb]
      exact Keyed.lookup_of_mem hkeys
        (perm_insertMSHR.mem_iff.mpr (List.mem_cons_of_mem m (Keyed.mem_of_lookup hs)))

theorem isSome_mshr_of_mem (hk : (s.theMSHRs.map Mshr.key).Nodup) (hm : m ∈ s.theMSHRs) :
    s.mshr m.thePaddr = some m :=
  Keyed.lookup_of_mem hk hm

/-- **A new MSHR.** -/
theorem fillMSHR_spec (h : Sound s) (hk : s.find k = some e) (ha : s.mshr e.thePaddr = none)
    (op : IssueOperation) : Sound (s.fillMSHR op e) ∧ WakesOnce s (s.fillMSHR op e) := by
  have hek := seq_of_find hk
  rw [fillMSHR, hek]
  obtain ⟨hkeys, hmshr⟩ :=
    mshr_insertMSHR (m := ⟨e.thePaddr, op, e.theSize, [k], [], []⟩) h.linked.keys ha
  refine ⟨h.join hk (h.theMSHR_eq_none hk ha) rfl rfl hkeys ?_, ?_⟩
  · funext b
    rw [down, hmshr]
    by_cases hb : b = e.thePaddr
    · subst hb
      rw [if_pos rfl, update_self, down, ha]
      rfl
    · rw [if_neg hb, update_of_ne hb, down]
  · refine WakesOnce.of_grows ?_ rfl rfl
    intro m hm
    have hfound := isSome_mshr_of_mem h.linked.keys hm
    have := hmshr m.thePaddr
    split at this
    · exact Option.isSome_iff_exists.mpr ⟨_, this⟩
    · exact Option.isSome_iff_exists.mpr ⟨_, this.trans hfound⟩

theorem isSome_modifyMSHR (hk : (s.theMSHRs.map Mshr.key).Nodup)
    (hg : ∀ m, (g m).key = m.key) (hm : m ∈ s.theMSHRs) :
    ((s.modifyMSHR a g).mshr m.thePaddr).isSome = true := by
  rw [mshr_modifyMSHR hg, isSome_mshr_of_mem hk hm]
  split
  · rfl
  · rfl

/-- **A load joins the MSHR of its address.** -/
theorem attach_spec (h : Sound s) (hk : s.find k = some e) (hnone : e.theMSHR = none)
    (hm : s.mshr e.thePaddr = some m) :
    ∃ t, s.attach m e = .ok t ∧ Sound t ∧ WakesOnce s t := by
  have hek := seq_of_find hk
  have ha := thePaddr_of_mshr hm
  have hkey : ∀ m : Mshr,
    ({ m with theWaitingLSQs := m.theWaitingLSQs ++ [k] } : Mshr).key = m.key := fun _ => rfl
  refine ⟨_, ?_, h.join (t := s.modifyMSHR e.thePaddr fun m =>
    { m with theWaitingLSQs := m.theWaitingLSQs ++ [k] }) hk hnone rfl rfl ?_ ?_,
    WakesOnce.of_grows ?_ rfl rfl⟩
  · simp [attach, hnone, h.linked.waiting_ne_nil hm, ha, hek]
  · rw [modifyMSHR, Keyed.keys_update hkey]
    exact h.linked.keys
  · funext b
    rw [down_modifyMSHR hkey]
    by_cases hb : b = e.thePaddr
    · subst hb
      rw [if_pos rfl, update_self, down, hm]
      rfl
    · rw [if_neg hb, update_of_ne hb]
  · intro m' hm'
    exact isSome_modifyMSHR h.linked.keys hkey hm'

/-- **An operation or a prefetch is put on a list of an MSHR.** -/
theorem Sound.block (h : Sound s) (hg : ∀ m, waitView (g m) = waitView m) :
    Sound (s.modifyMSHR a g) ∧ WakesOnce s (s.modifyMSHR a g) := by
  have hkey : ∀ m, (g m).key = m.key := fun m => by
    have := congrArg (fun x : BitVec 64 × List ℕ => x.1.toNat) (hg m)
    exact this
  refine ⟨⟨h.linked.congr rfl (Keyed.map_update fun m _ => hg m) rfl, h.placed⟩, ?_⟩
  exact WakesOnce.of_grows (fun m hm => isSome_modifyMSHR h.linked.keys hkey hm) rfl rfl

theorem issueInvalid_spec (h : Sound s) (e : LsqEntry) (op : IssueOperation) :
    ∃ t, s.issueInvalid e op = .ok t ∧ Sound t ∧ Drains s t := by
  have hload : Sound (s.modify e.seq fun e =>
      { e with theValue := some 0, theExtendedValue := some 0 }) :=
    h.modify (fun _ => rfl) fun _ => rfl
  have hstore : ∃ t, (if e.theDependance then .ok s else s.eraseLSQ e.seq) = Except.ok t ∧
      Sound t ∧ Drains s t := by
    split
    · exact ⟨s, rfl, h, Drains.refl s⟩
    · exact eraseLSQ_spec h e.seq
  cases op with
  | kLoad => exact ⟨_, rfl, hload, drains_modify fun _ => rfl⟩
  | kAtomicPreload => exact ⟨_, rfl, hload, drains_modify fun _ => rfl⟩
  | kStore => exact hstore
  | kRMW => exact hstore
  | kCAS => exact hstore

/-- **`issue`**. -/
theorem issue_spec (spec : Bool) (h : Sound s) (k : ℕ) :
    ∃ t, s.issue spec k = .ok t ∧ Sound t ∧ WakesOnce s t := by
  have hidle : WakesOnce s s := (Drains.refl s).wakesOnce h.linked.keys
  rw [issue]
  split
  · exact ⟨s, rfl, h, hidle⟩
  · rename_i e hk
    split
    · exact ⟨s, rfl, h, hidle⟩
    · rename_i hi
      have hi' : mayIssue e = true := by simpa using hi
      split
      · exact ⟨s, rfl, h, hidle⟩
      · rename_i op hop
        rw [issueAs]
        split
        · obtain ⟨t, ht, hs, hd⟩ := issueInvalid_spec h e op
          exact ⟨t, ht, hs, hd.wakesOnce h.linked.keys⟩
        · split
          · rename_i hm
            obtain ⟨hs, hw⟩ := fillMSHR_spec h hk hm op
            exact ⟨_, rfl, hs, hw⟩
          · rename_i m hm
            split
            · rename_i hload
              rw [hload.1] at hop
              exact attach_spec h hk (theMSHR_of_load hi' hop) hm
            · obtain ⟨hs, hw⟩ := h.block (a := m.thePaddr)
                (g := fun m => { m with theBlockedOps := m.theBlockedOps ++ [e.seq] }) fun _ => rfl
              refine ⟨_, ?_, hs, hw⟩
              simp [blockOp, h.linked.waiting_ne_nil hm]

/-- **`issueStorePrefetch`**. -/
theorem issueStorePrefetch_spec (h : Sound s) (k : ℕ) (onChip : Bool) :
    ∃ t, s.issueStorePrefetch k onChip = .ok t ∧ Sound t ∧ WakesOnce s t := by
  have hidle : WakesOnce s s := (Drains.refl s).wakesOnce h.linked.keys
  rw [issueStorePrefetch]
  split
  · exact ⟨s, rfl, h, hidle⟩
  · split
    · exact ⟨s, rfl, h, hidle⟩
    · split
      · exact ⟨s, rfl, h, hidle⟩
      · rename_i m hm
        rw [if_neg (by simpa using h.linked.waiting_ne_nil hm)]
        obtain ⟨hs, hw⟩ := h.block (a := m.thePaddr) (g := fun m =>
          { m with theBlockedPrefetches := m.theBlockedPrefetches ++ [k] }) fun _ => rfl
        exact ⟨_, rfl, hs, hw⟩

/-! ### Loads -/

theorem requestPort_spec (h : Sound s) (k : ℕ) :
    Sound (s.requestPort k) ∧ Drains s (s.requestPort k) := by
  obtain ⟨hf, hp⟩ := requestPort_frame s k
  refine ⟨⟨hf.linked h.linked, hf.placed h.placed⟩, ?_⟩
  refine Drains.of_eq (by rw [hf.mshrs]) ?_ hp hf.prefetchWakes
  intro j hj
  exact (hf.queued_eq j).symm.trans hj

theorem snoop_loadView (s : MissCore) (e : LsqEntry) (c : SnoopState) :
    (s.snoop e c).toMemQueueEntry.loadView = e.toMemQueueEntry.loadView := by
  rw [snoop, snoopStores]
  split
  · rfl
  · exact (forwardFrom_loadView _).trans MemQueueEntry.setLoadValue_loadView

theorem snoop_linkView (s : MissCore) (e : LsqEntry) (c : SnoopState) :
    linkView (s.snoop e c) = linkView e := by
  have hseq : (s.snoop e c).toMemQueueEntry.loadView.theSequenceNum =
      e.toMemQueueEntry.loadView.theSequenceNum := by rw [snoop_loadView]
  exact Prod.ext hseq rfl

theorem snoop_thePaddr (s : MissCore) (e : LsqEntry) (c : SnoopState) :
    (s.snoop e c).thePaddr = e.thePaddr := by
  have haddr : (s.snoop e c).toMemQueueEntry.loadView.thePaddr =
      e.toMemQueueEntry.loadView.thePaddr := by rw [snoop_loadView]
  exact haddr

/-- A change of an entry that touches neither its pointer nor its address, as a step. -/
theorem Sound.modify_spec (h : Sound s) (hf : ∀ e, linkView (f e) = linkView e)
    (ha : ∀ e, (f e).thePaddr = e.thePaddr) :
    Sound (s.modify k f) ∧ Drains s (s.modify k f) :=
  ⟨h.modify hf ha, drains_modify fun e => congrArg Prod.fst (hf e)⟩

theorem Sound.unissue (h : Sound s) (k : ℕ) :
    Sound (s.modify k LsqEntry.unissued) ∧ Drains s (s.modify k LsqEntry.unissued) :=
  h.modify_spec (fun _ => rfl) fun _ => rfl

theorem afterSnoop_spec (h : Sound s) (k : ℕ) (v : Option (BitVec 64)) :
    Sound (s.afterSnoop k v) ∧ Drains s (s.afterSnoop k v) := by
  have hidle : Sound s ∧ Drains s s := ⟨h, Drains.refl s⟩
  rw [afterSnoop]
  split
  · exact hidle
  split
  · exact hidle
  split
  · split
    · exact h.unissue k
    · exact hidle
  · split
    · exact h.unissue k
    · exact hidle
  · exact requestPort_spec h k
  · exact hidle

theorem snoopLoad_spec (spec : Bool) (h : Sound s) (k : ℕ) (v : Option (BitVec 64))
    (c : SnoopState) :
    Sound (s.snoopLoad spec k v c) ∧ Drains s (s.snoopLoad spec k v c) := by
  have hidle : Sound s ∧ Drains s s := ⟨h, Drains.refl s⟩
  rw [snoopLoad]
  split
  · exact hidle
  split
  · exact h.unissue k
  split
  · exact hidle
  · obtain ⟨h₁, hd₁⟩ := h.modify_spec (k := k) (f := fun e => s.snoop e c)
      (fun e => snoop_linkView s e c) fun e => snoop_thePaddr s e c
    obtain ⟨h₂, hd₂⟩ := afterSnoop_spec h₁ k v
    exact ⟨h₂, hd₁.trans hd₂⟩

/-- **`doLoad`, of a load that waits for memory**: it leaves its MSHR first, whatever address
it has now. -/
theorem doLoad_issued (spec : Bool) (hl : Linked s) (hp : s.AllPlaced (· = k))
    (hk : s.find k = some e) (hload : e.isLoad = true)
    (hpart : (e.isAtomic && e.thePartialSnoop) = false) (hst : e.status = .kIssuedToMemory)
    (c : SnoopState) :
    ∃ t, s.doLoad spec k c = .ok t ∧ Sound t ∧ Drains s t := by
  obtain ⟨t, ht, hs, hd, _⟩ := breakMSHRLink_spec hl hp
  obtain ⟨hs', hd'⟩ := snoopLoad_spec spec hs k none c
  refine ⟨_, ?_, hs', hd.trans hd'⟩
  simp only [doLoad, hk, hload, hpart, hst, ht, Bool.not_true, Bool.false_eq_true, if_false]
  rfl

/-- **`doLoad`**. -/
theorem doLoad_spec (spec : Bool) (h : Sound s) (k : ℕ) (c : SnoopState) :
    ∃ t, s.doLoad spec k c = .ok t ∧ Sound t ∧ Drains s t := by
  have hunissued : ∀ v, Sound ((s.modify k LsqEntry.unissued).snoopLoad spec k v c) ∧
      Drains s ((s.modify k LsqEntry.unissued).snoopLoad spec k v c) := by
    intro v
    obtain ⟨h₁, hd₁⟩ := h.unissue k
    obtain ⟨h₂, hd₂⟩ := snoopLoad_spec spec h₁ k v c
    exact ⟨h₂, hd₁.trans hd₂⟩
  cases hk : s.find k with
  | none => exact ⟨s, by rw [doLoad, hk], h, Drains.refl s⟩
  | some e =>
    by_cases hload : e.isLoad = true
    · by_cases hpart : (e.isAtomic && e.thePartialSnoop) = true
      · obtain ⟨hs, hd⟩ := h.modify_spec (k := k) (f := fun e => e.withoutLoadValue.unissued)
          (fun e => Prod.ext MemQueueEntry.setLoadValue_theSequenceNum rfl) fun e => by
            have := congrArg (fun x => x.thePaddr)
              (MemQueueEntry.setLoadValue_loadView (l := e.toMemQueueEntry) (v := none))
            exact this
        refine ⟨_, ?_, hs, hd⟩
        simp only [doLoad, hk, hload, hpart, Bool.not_true, Bool.false_eq_true, if_false, if_true]
      · rw [Bool.not_eq_true] at hpart
        cases hst : e.status with
        | kIssuedToMemory =>
          exact doLoad_issued spec h.linked (h.placed.mono fun _ hf => hf.elim) hk hload hpart
            hst c
        | kAwaitingValue | kComplete =>
          exact ⟨_, by simp [doLoad, hk, hload, hpart, hst], hunissued e.loadValue⟩
        | kAnnulled =>
          obtain ⟨hs, hd⟩ := h.unissue k
          exact ⟨_, by simp [doLoad, hk, hload, hpart, hst], hs, hd⟩
        | kAwaitingPort | kAwaitingIssue =>
          by_cases hat : e.isAtomic = true
          · have hpart' : e.thePartialSnoop = false := by simpa [hat] using hpart
            exact ⟨_, by simp [doLoad, hk, hload, hpart', hst, hat], hunissued e.loadValue⟩
          · obtain ⟨hs, hd⟩ := snoopLoad_spec spec h k none c
            exact ⟨_, by simp [doLoad, hk, hload, hst, hat], hs, hd⟩
        | kAwaitingAddress =>
          exact ⟨s, by simp [doLoad, hk, hload, hpart, hst], h, Drains.refl s⟩
    · exact ⟨s, by simp [doLoad, hk, hload], h, Drains.refl s⟩

/-! ### Addresses -/

theorem linkView_withoutLoadValue (e : LsqEntry) :
    linkView e.withoutLoadValue = linkView e :=
  Prod.ext MemQueueEntry.setLoadValue_theSequenceNum rfl

theorem thePaddr_withoutLoadValue (e : LsqEntry) : e.withoutLoadValue.thePaddr = e.thePaddr := by
  have hview : e.withoutLoadValue.toMemQueueEntry.loadView.thePaddr =
      e.toMemQueueEntry.loadView.thePaddr := by
    rw [LsqEntry.withoutLoadValue, MemQueueEntry.setLoadValue_loadView]
  exact hview

theorem linkView_updateVaddr (anAddr : BitVec 64) (xlat : Translation) (e : LsqEntry) :
    linkView (e.updateVaddr anAddr xlat) = linkView e := by
  rw [LsqEntry.updateVaddr]
  split
  · rfl
  · rfl

theorem theOperation_updateVaddr (anAddr : BitVec 64) (xlat : Translation) (e : LsqEntry) :
    (e.updateVaddr anAddr xlat).theOperation = e.theOperation ∧
      (e.updateVaddr anAddr xlat).thePartialSnoop = e.thePartialSnoop := by
  rw [LsqEntry.updateVaddr]
  split
  · exact ⟨rfl, rfl⟩
  · exact ⟨rfl, rfl⟩

theorem up_modify_eq (hf : ∀ e, linkView (f e) = linkView e) : (s.modify k f).up = s.up :=
  up_congr (Keyed.map_update fun x _ => hf x)

/-- An address that is withdrawn takes the entry out of its MSHR. -/
theorem unresolve_spec (h : Sound s) (hk : s.find k = some e) :
    ∃ t, s.unresolve k e = .ok t ∧ Sound t ∧ Drains s t ∧ t.up k = none := by
  have hval : ∃ s₁, (if e.isLoad && e.loadValue.isSome then
      s.modify k LsqEntry.withoutLoadValue else s) = s₁ ∧ Sound s₁ ∧ Drains s s₁ ∧
        s₁.up = s.up := by
    split
    · obtain ⟨hs, hd⟩ := h.modify_spec (k := k) linkView_withoutLoadValue
        thePaddr_withoutLoadValue
      exact ⟨_, rfl, hs, hd, up_modify_eq linkView_withoutLoadValue⟩
    · exact ⟨s, rfl, h, Drains.refl s, rfl⟩
  obtain ⟨s₁, hs₁, h₁, hd₁, hup₁⟩ := hval
  have hlink : ∃ s₂, s₁.breakIfWaiting k e = .ok s₂ ∧ Sound s₂ ∧ Drains s₁ s₂ ∧
      s₂.up k = none := by
    rw [breakIfWaiting]
    split
    · exact breakMSHRLink_spec h₁.linked (h₁.placed.mono fun _ hf => hf.elim)
    · rename_i hnone
      refine ⟨s₁, rfl, h₁, Drains.refl s₁, ?_⟩
      rw [hup₁, up, hk]
      simpa using hnone
  obtain ⟨s₂, hs₂, h₂, hd₂, hup₂⟩ := hlink
  obtain ⟨h₃, hd₃⟩ := h₂.unissue k
  refine ⟨_, ?_, h₃, (hd₁.trans hd₂).trans hd₃, ?_⟩
  · simp only [unresolve, hs₁, hs₂]
    rfl
  · have hup₃ : (s₂.modify k LsqEntry.unissued).up = s₂.up := up_modify_eq fun _ => rfl
    rw [hup₃]
    exact hup₂

/-- **The address of an entry may be changed in place.** The entry waits on nothing, or it is a
load whose status is that of one that waits for memory, which `doLoad` acts on; this does not
hold of an atomic operation that is complete with its store under way, of one that is a partial
snooper, and of an annulled operation. -/
def MayMove (s : MissCore) (k : ℕ) (anAddr : BitVec 64) (xlat : Translation) : Prop :=
  ∀ e, s.find k = some e → anAddr ≠ kUnresolved → e.theVaddr ≠ anAddr → e.theMSHR ≠ none →
    e.isLoad = true ∧ (e.isAtomic && e.thePartialSnoop) = false ∧
      (e.updateVaddr anAddr xlat).status = .kIssuedToMemory

theorem afterResolve_spec (spec : Bool) (h : Sound s) (k : ℕ) :
    ∃ t, s.afterResolve spec k = .ok t ∧ Sound t ∧ Drains s t := by
  have hidle : ∃ t, (Except.ok s : Except MissFault MissCore) = .ok t ∧ Sound t ∧ Drains s t :=
    ⟨s, rfl, h, Drains.refl s⟩
  have hload := doLoad_spec spec h k none
  rw [afterResolve]
  split
  · exact hidle
  split
  · exact hload
  · exact hload
  · exact hload
  · exact hload
  · split
    · exact hload
    · exact hidle
  · exact hidle
  · exact hidle

/-- The address of an entry that waits on nothing is changed. -/
theorem Sound.updateVaddr (h : Sound s) (hup : s.up k = none) (anAddr : BitVec 64)
    (xlat : Translation) : Sound (s.modify k fun e => e.updateVaddr anAddr xlat) := by
  have hview := linkView_updateVaddr anAddr xlat
  refine ⟨h.linked.modify hview, h.placed.modify (fun e => congrArg Prod.fst (hview e)) ?_⟩
  intro e hk _ _ a ha
  rw [up, hk, Option.bind_some] at hup
  have hm : (e.updateVaddr anAddr xlat).theMSHR = e.theMSHR := congrArg Prod.snd (hview e)
  rw [hm, hup] at ha
  cases ha

/-- **`resolveVAddr`**. -/
theorem resolveVAddr_spec (spec : Bool) (h : Sound s) (k : ℕ) (anAddr : BitVec 64)
    (xlat : Translation) (hmove : s.MayMove k anAddr xlat) :
    ∃ t, s.resolveVAddr spec k anAddr xlat = .ok t ∧ Sound t ∧ Drains s t := by
  have hview := linkView_updateVaddr anAddr xlat
  have hseq : ∀ e : LsqEntry, (e.updateVaddr anAddr xlat).seq = e.seq :=
    fun e => congrArg Prod.fst (hview e)
  cases hk : s.find k with
  | none => exact ⟨s, by rw [resolveVAddr, hk], h, Drains.refl s⟩
  | some e =>
    by_cases hsame : e.theVaddr = anAddr
    · exact ⟨s, by simp only [resolveVAddr, hk, if_pos hsame], h, Drains.refl s⟩
    · by_cases hun : anAddr = kUnresolved
      · obtain ⟨s₁, hs₁, h₁, hd₁, hup₁⟩ := unresolve_spec h hk
        obtain ⟨t, ht, hst, hdt⟩ := afterResolve_spec spec (h₁.updateVaddr hup₁ anAddr xlat) k
        refine ⟨t, ?_, hst, (hd₁.trans (drains_modify hseq)).trans hdt⟩
        simp only [resolveVAddr, hk, if_neg hsame, if_pos hun, hs₁]
        exact ht
      · have hresolve : s.resolveVAddr spec k anAddr xlat =
            (s.modify k fun e => e.updateVaddr anAddr xlat).afterResolve spec k := by
          simp only [resolveVAddr, hk, if_neg hsame, if_neg hun]
        rw [hresolve]
        have hd₁ : Drains s (s.modify k fun e => e.updateVaddr anAddr xlat) := drains_modify hseq
        by_cases hnone : e.theMSHR = none
        · have hup : s.up k = none := by rw [up, hk]; exact hnone
          obtain ⟨t, ht, hst, hdt⟩ := afterResolve_spec spec (h.updateVaddr hup anAddr xlat) k
          exact ⟨t, ht, hst, hd₁.trans hdt⟩
        · -- The entry points to the MSHR of its old address until `doLoad` breaks the link.
          obtain ⟨hload, hpart, hst⟩ := hmove e hk hun hsame hnone
          have hfind : (s.modify k fun e => e.updateVaddr anAddr xlat).find k =
              some (e.updateVaddr anAddr xlat) := by
            rw [find_modify hseq, if_pos rfl, hk]
            rfl
          obtain ⟨hop, hps⟩ := theOperation_updateVaddr anAddr xlat e
          obtain ⟨t, ht, hsound, hdt⟩ := doLoad_issued spec (h.linked.modify hview)
            ((h.placed.mono fun _ hf => hf.elim).modify hseq fun _ _ hne => absurd rfl hne) hfind
            (by rw [MemQueueEntry.isLoad, hop]; exact hload)
            (by rw [MemQueueEntry.isAtomic, hop, hps]; exact hpart) hst none
          refine ⟨t, ?_, hsound, hd₁.trans hdt⟩
          rw [← ht]
          simp only [afterResolve, hfind, hst]

/-! ### Replies -/

/-- **In the middle of a completion**: some of the entries that waited on an MSHR, which is gone
already, still point to it. Without their pointers the links are in order. -/
structure Completing (a : BitVec 64) (ks : List ℕ) (s : MissCore) : Prop where
  ids : (s.theMemQueue.map LsqEntry.seq).Nodup
  bound : ∀ n ∈ s.theMemQueue.map LsqEntry.seq, n ≤ s.theMemorySequenceNum
  keys : (s.theMSHRs.map Mshr.key).Nodup
  links : TwoSided (fun k => if k ∈ ks then none else s.up k) s.down
  waiting : ∀ k ∈ ks, s.up k = some a
  placed : s.AllPlaced fun _ => False

theorem Completing.sound (h : Completing a [] s) : Sound s := by
  refine ⟨⟨h.ids, h.bound, h.keys, ?_⟩, h.placed⟩
  have hl := h.links
  simpa using hl

theorem Sound.completing (h : Sound s) (hm : s.mshr a = some m) :
    Completing a m.theWaitingLSQs (s.eraseMSHR a) := by
  have hdown : s.down a = some m.theWaitingLSQs := by rw [down, hm]; rfl
  refine ⟨h.linked.ids, h.linked.bound, Keyed.nodup_erase h.linked.keys, ?_, ?_, h.placed⟩
  · refine h.linked.links.leave (fun k => decide (k ∈ m.theWaitingLSQs)) ?_ ?_
    · intro k
      simp only [decide_eq_true_eq]
      rfl
    · intro b
      rw [down_eraseMSHR]
      by_cases hb : b = a
      · subst hb
        rw [if_pos rfl, hdown, Option.bind_some, survivors]
        have hnil : (m.theWaitingLSQs.filter fun k => !decide (k ∈ m.theWaitingLSQs)) = [] := by
          rw [List.filter_eq_nil_iff]
          intro k hk
          simpa using hk
        rw [hnil]
        rfl
      · rw [if_neg hb]
        cases hd : s.down b with
        | none => rfl
        | some l =>
          refine (survivors_eq_self (h.linked.links.nonempty b l hd) ?_).symm
          intro k hk
          rw [decide_eq_false_iff_not]
          intro hka
          have hb' := h.linked.links.up_of_mem hd hk
          rw [h.linked.links.up_of_mem hdown hka] at hb'
          exact hb (Option.some.inj hb').symm
  · intro k hk
    exact h.linked.links.up_of_mem hdown hk

/-- What a completion leaves alone. -/
structure CompleteFrame (s t : MissCore) : Prop where
  mshrs : t.theMSHRs = s.theMSHRs
  portWakes : t.portWakes = s.portWakes
  prefetchWakes : t.prefetchWakes = s.prefetchWakes
  queued : ∀ k, t.queued k = true → s.queued k = true

theorem CompleteFrame.trans (h : CompleteFrame s t) (h' : CompleteFrame t u) :
    CompleteFrame s u :=
  ⟨h'.mshrs.trans h.mshrs, h'.portWakes.trans h.portWakes,
    h'.prefetchWakes.trans h.prefetchWakes, fun k hk => h.queued k (h'.queued k hk)⟩

theorem Completing.unlink {ks : List ℕ} (h : Completing a (k :: ks) s) (hn : k ∉ ks)
    (hf : ∀ e, (f e).seq = e.seq) (hm : ∀ e, (f e).theMSHR = none) :
    Completing a ks (s.modify k f) := by
  have hup : ∀ j, (s.modify k f).up j = if j = k then none else s.up j := by
    intro j
    rw [up_modify hf]
    split
    · cases s.find j with
      | none => rfl
      | some e => exact hm e
    · rfl
  refine ⟨?_, ?_, h.keys, ?_, ?_, ?_⟩
  · rw [modify, Keyed.keys_update hf]
    exact h.ids
  · rw [modify, Keyed.keys_update hf]
    exact h.bound
  · have hsame : (fun j => if j ∈ ks then none else (s.modify k f).up j) =
        fun j => if j ∈ k :: ks then none else s.up j := by
      funext j
      rw [hup]
      by_cases hjk : j = k
      · simp [hjk]
      · simp [hjk]
    rw [hsame]
    exact h.links
  · intro j hj
    rw [hup, if_neg]
    · exact h.waiting j (List.mem_cons_of_mem k hj)
    · rintro rfl
      exact hn hj
  · refine h.placed.modify hf ?_
    intro e _ _ _ b hb
    rw [hm] at hb
    cases hb

theorem Completing.erase {ks : List ℕ} (h : Completing a ks s) (hk : s.up k = none) :
    ∃ t, s.eraseLSQ k = .ok t ∧ Completing a ks t ∧ CompleteFrame s t := by
  cases hf : s.find k with
  | none => exact ⟨s, by rw [eraseLSQ, hf], h, rfl, rfl, rfl, fun _ hj => hj⟩
  | some e =>
    have hnone : e.theMSHR = none := by
      rw [up, hf] at hk
      exact hk
    -- The entry is first marked as not issued, which no link sees.
    have hseqs : (s.modify k LsqEntry.unissued).theMemQueue.map LsqEntry.seq =
        s.theMemQueue.map LsqEntry.seq := Keyed.keys_update seq_unissued
    have hids : ((s.modify k LsqEntry.unissued).theMemQueue.map LsqEntry.seq).Nodup := by
      rw [hseqs]
      exact h.ids
    have hup : (s.modify k LsqEntry.unissued).up = s.up := up_modify_eq fun _ => rfl
    have hfree : ∀ e ∈ (s.modify k LsqEntry.unissued).theMemQueue, (e.seq != k) = false →
        e.theMSHR = none := by
      intro e' he' hek
      have hek' : e'.seq = k := by simpa using hek
      have hfind : (s.modify k LsqEntry.unissued).find k = some e' := by
        have := Keyed.lookup_of_mem hids he'
        rwa [hek'] at this
      rw [← hup, up, hfind] at hk
      exact hk
    refine ⟨{ s.modify k LsqEntry.unissued with
      theMemQueue := (s.modify k LsqEntry.unissued).theMemQueue.filter fun e => e.seq != k },
      ?_, ⟨?_, ?_, h.keys, ?_, ?_, ?_⟩, rfl, rfl, rfl, ?_⟩
    · simp only [eraseLSQ, hf, breakMSHRLink, hnone]
      rfl
    · exact hids.sublist (List.filter_sublist.map _)
    · intro n hn
      refine h.bound n ?_
      rw [← hseqs]
      exact (List.filter_sublist.map _).subset hn
    · rw [up_filter hids hfree, hup]
      exact h.links
    · rw [up_filter hids hfree, hup]
      exact h.waiting
    · refine AllPlaced.filter ?_ hids _
      exact h.placed.modify seq_unissued fun _ _ _ hp => hp
    · intro j hj
      have hj' := (drains_filter hids fun e => e.seq != k).queued j hj
      rwa [queued_modify seq_unissued] at hj'

theorem seq_write_unlinked (d : LsqEntry → LsqData) (e : LsqEntry) :
    (e.write (d e)).unlinked.seq = e.seq := rfl

theorem completeLSQ_spec {ks : List ℕ} (op : ReplyOperation) (d : LsqEntry → LsqData)
    (h : Completing a (k :: ks) s) (hn : k ∉ ks) :
    ∃ t, completeLSQ op a d s k = .ok t ∧ Completing a ks t ∧ CompleteFrame s t := by
  obtain ⟨e, hk, hea⟩ := up_eq_some.mp (h.waiting k List.mem_cons_self)
  have h₁ := h.unlink hn (seq_write_unlinked d) fun _ => rfl
  have hf₁ : CompleteFrame s (s.modify k fun e => (e.write (d e)).unlinked) :=
    ⟨rfl, rfl, rfl, fun j hj => by rwa [queued_modify (seq_write_unlinked d)] at hj⟩
  have hup : (s.modify k fun e => (e.write (d e)).unlinked).up k = none := by
    rw [up_modify (seq_write_unlinked d), if_pos rfl, hk]
    rfl
  simp only [completeLSQ, hk, hea, ne_eq, not_true_eq_false, if_false]
  split
  · obtain ⟨t, ht, hc, hf⟩ := h₁.erase hup
    exact ⟨t, ht, hc, hf₁.trans hf⟩
  · exact ⟨_, rfl, h₁, hf₁⟩

theorem completeAll_spec (op : ReplyOperation) (d : LsqEntry → LsqData) (ks : List ℕ)
    (hnd : ks.Nodup) (h : Completing a ks s) :
    ∃ t, ks.foldlM (completeLSQ op a d) s = .ok t ∧ Sound t ∧ CompleteFrame s t := by
  induction ks generalizing s with
  | nil => exact ⟨s, rfl, h.sound, rfl, rfl, rfl, fun _ hj => hj⟩
  | cons k ks ih =>
    rw [List.nodup_cons] at hnd
    obtain ⟨t, ht, hc, hf⟩ := completeLSQ_spec op d h hnd.1
    obtain ⟨u, hu, hs, hf'⟩ := ih hnd.2 hc
    refine ⟨u, ?_, hs, hf.trans hf'⟩
    rw [List.foldlM_cons, ht]
    exact hu

/-- **`complete`**. -/
theorem complete_spec (spec : Bool) (h : Sound s) (op : ReplyOperation) (a : BitVec 64)
    (size : Size) (d : LsqEntry → LsqData) :
    ∃ t, s.complete spec op a size d = .ok t ∧ Sound t ∧ Drains s t := by
  cases hm : s.mshr a with
  | none => exact ⟨s, by rw [complete, hm], h, Drains.refl s⟩
  | some m =>
    by_cases hsat : (satisfies spec op m.theOperation && m.theSize == size) = true
    · have hnd := h.linked.links.nodup a m.theWaitingLSQs (by rw [down, hm]; rfl)
      obtain ⟨t, ht, hs, hf⟩ := completeAll_spec op d _ hnd (h.completing hm)
      have hw := wakePorts_frame t m.theBlockedOps
      have hsound : Sound ((t.wakePorts m.theBlockedOps).wakePrefetches m.theBlockedPrefetches) :=
        ⟨(hw.linked hs.linked).congr rfl rfl rfl, hw.placed hs.placed⟩
      refine ⟨_, ?_, hsound, ?_⟩
      · simp only [complete, hm, hsat, if_true, ht]
        rfl
      · refine drains_of_erase h.linked.keys hm (hw.mshrs.trans hf.mshrs) ?_ ?_
          (fun k hk => hk) ?_
        · intro k hk
          exact hf.queued k ((hw.queued_eq k).symm.trans hk)
        · refine (portWakes_wakePorts t m.theBlockedOps).trans ?_
          rw [hf.portWakes]
          rfl
        · show (t.wakePorts m.theBlockedOps).prefetchWakes ++ _ = _
          rw [hw.prefetchWakes, hf.prefetchWakes]
          rfl
    · exact ⟨s, by simp only [complete, hm, hsat]; rfl, h, Drains.refl s⟩

end MissCore

end UArch

end Flexus
