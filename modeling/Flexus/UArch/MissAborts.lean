import Flexus.UArch.MissSteps

/-!
# Resets and aborts

The MSHRs are cleaned when the queues of a core are cleared: the entries that are about to be
discarded are taken off the lists, and an MSHR on which nothing waits any longer is removed. A
reset does this before it clears the queues. The abort of a speculation clears the LSQ *before*
it goes through the lists of the MSHRs, so that a load of the LSQ that waits for memory is looked
at after it has been freed.
-/

namespace Flexus

open List

namespace UArch

open Flexus.Lib

namespace MissCore

variable {s t : MissCore} {a : BitVec 64}

/-! ### Clearing the queues -/

/-- **In the middle of a cleaning**: the lists of the MSHRs that have been visited are without
the entries that are going to be discarded, and no pointer has been touched. -/
structure Cleaning (s : MissCore) (leaves : ℕ → Bool) (todo : List (BitVec 64)) (t : MissCore) :
    Prop where
  queue : t.theMemQueue.map LsqEntry.unissued = s.theMemQueue.map LsqEntry.unissued
  num : t.theMemorySequenceNum = s.theMemorySequenceNum
  keys : (t.theMSHRs.map Mshr.key).Sublist (s.theMSHRs.map Mshr.key)
  visited : ∀ a, a ∉ todo → t.down a = (s.down a).bind (survivors leaves)
  ahead : ∀ a ∈ todo, t.mshr a = s.mshr a
  drains : Drains s t

theorem Cleaning.frame {leaves : ℕ → Bool} {todo : List (BitVec 64)}
    (h : Cleaning s leaves todo t) :
    WakeFrame s { t with theMSHRs := s.theMSHRs, prefetchWakes := s.prefetchWakes } :=
  ⟨h.queue, rfl, h.num, rfl⟩

theorem Cleaning.discards_eq {leaves : ℕ → Bool} {todo : List (BitVec 64)}
    (h : Cleaning s leaves todo t) (n : ℕ) : t.discards n = s.discards n := by
  funext k
  have hview : ∀ r : MissCore, r.discards n k = ((r.find k).map LsqEntry.unissued).any fun e =>
      e.theQueue == .kLSQ || (e.theQueue == .kSSB && decide (n ≤ e.seq)) := by
    intro r
    rw [discards]
    cases r.find k with
    | none => rfl
    | some e => rfl
  have hfind : (t.find k).map LsqEntry.unissued = (s.find k).map LsqEntry.unissued :=
    h.frame.find_eq k
  rw [hview, hview, hfind]

theorem cleanMSHR_spec {n : ℕ} {todo : List (BitVec 64)} (hl : Linked s) (hn : a ∉ todo)
    (h : Cleaning s (s.discards n) (a :: todo) t) :
    ∃ u, cleanMSHR n t a = .ok u ∧ Cleaning s (s.discards n) todo u := by
  have hahead := h.ahead a mem_cons_self
  cases hm : s.mshr a with
  | none =>
    rw [hm] at hahead
    refine ⟨t, by rw [cleanMSHR, hahead], h.queue, h.num, h.keys, ?_, ?_, h.drains⟩
    · intro b hb
      by_cases hba : b = a
      · subst hba
        rw [down, hahead, down, hm]
        rfl
      · exact h.visited b (by simp [hb, hba])
    · intro b hb
      exact h.ahead b (mem_cons_of_mem a hb)
  | some m =>
    rw [hm] at hahead
    have hup : t.up = s.up := h.frame.up_eq
    have hall : m.theWaitingLSQs.all (t.pointsBack a) = true := by
      rw [all_eq_true]
      intro k hk
      rw [pointsBack_iff, hup]
      exact hl.links.up_of_mem (by rw [down, hm]; rfl) hk
    have hs := shrinkMSHR_spec (hl.keys.sublist h.keys) hahead
      (m.theWaitingLSQs.filter fun k => !s.discards n k)
    refine ⟨t.shrinkMSHR m (m.theWaitingLSQs.filter fun k => !s.discards n k), ?_,
      hs.queue.trans h.queue, hs.num.trans h.num, hs.keys.trans h.keys, ?_, ?_,
      h.drains.trans hs.drains⟩
    · simp [cleanMSHR, hahead, hall, h.discards_eq n]
    · intro b hb
      by_cases hba : b = a
      · subst hba
        have hdown : s.down b = some m.theWaitingLSQs := by rw [down, hm]; rfl
        rw [hs.down, hdown]
        rfl
      · rw [down, hs.other b hba]
        exact h.visited b (by simp [hb, hba])
    · intro b hb
      have hba : b ≠ a := by
        rintro rfl
        exact hn hb
      rw [hs.other b hba]
      exact h.ahead b (mem_cons_of_mem a hb)

theorem cleanAll_spec {n : ℕ} (hl : Linked s) (todo : List (BitVec 64)) (hnd : todo.Nodup)
    (h : Cleaning s (s.discards n) todo t) :
    ∃ u, todo.foldlM (cleanMSHR n) t = .ok u ∧ Cleaning s (s.discards n) [] u := by
  induction todo generalizing t with
  | nil => exact ⟨t, rfl, h⟩
  | cons a todo ih =>
    rw [nodup_cons] at hnd
    obtain ⟨t', ht', h'⟩ := cleanMSHR_spec hl hnd.1 h
    obtain ⟨u, hu, hu'⟩ := ih hnd.2 h'
    refine ⟨u, ?_, hu'⟩
    rw [foldlM_cons, ht']
    exact hu

/-- **`cleanMSHRS`**: every list is without the entries that are going to be discarded, and no
list is traversed that has a dangling element. -/
theorem cleanMSHRS_spec (hl : Linked s) (n : ℕ) :
    ∃ t, s.cleanMSHRS n = .ok t ∧ Cleaning s (s.discards n) [] t := by
  have hnd : (s.theMSHRs.map Mshr.thePaddr).Nodup := by
    refine List.Nodup.of_map BitVec.toNat ?_
    rw [map_map]
    exact hl.keys
  refine cleanAll_spec hl _ hnd ⟨rfl, rfl, List.Sublist.refl _, ?_, fun _ _ => rfl, Drains.refl s⟩
  intro a ha
  have hnone : s.mshr a = none := by
    refine Keyed.lookup_eq_none.mpr ?_
    intro m hm hma
    exact ha (mem_map.mpr ⟨m, hm, BitVec.eq_of_toNat_eq hma⟩)
  rw [down, hnone]
  rfl

/-- **The queues are cleared after the lists have been cleaned.** An entry that stays in the
queue with its pointer is one that has not been taken off the lists. -/
theorem Cleaning.filter {leaves : ℕ → Bool} (hs : Sound s) (h : Cleaning s leaves [] t)
    {p : LsqEntry → Bool} (hp : ∀ e, p e.unissued = p e)
    (hleaves : ∀ k e, s.find k = some e →
      (if p e then e.theMSHR else none) = if leaves k then none else e.theMSHR) :
    Sound { t with theMemQueue := t.theMemQueue.filter p } ∧
      Drains s { t with theMemQueue := t.theMemQueue.filter p } := by
  have hseqs : t.theMemQueue.map LsqEntry.seq = s.theMemQueue.map LsqEntry.seq :=
    h.frame.map_eq fun _ => rfl
  have hids : (t.theMemQueue.map LsqEntry.seq).Nodup := by
    rw [hseqs]
    exact hs.linked.ids
  have hup : ∀ k, MissCore.up { t with theMemQueue := t.theMemQueue.filter p } k =
      if leaves k then none else s.up k := by
    intro k
    have hfind : (t.find k).map LsqEntry.unissued = (s.find k).map LsqEntry.unissued :=
      h.frame.find_eq k
    rw [up, find, Keyed.lookup_filter hids, up]
    cases hk : s.find k with
    | none =>
      rw [hk, Option.map_none, Option.map_eq_none_iff] at hfind
      rw [find] at hfind
      rw [hfind]
      simp
    | some e =>
      rw [hk, Option.map_some] at hfind
      obtain ⟨e', he', heq⟩ := Option.map_eq_some_iff.mp hfind
      rw [find] at he'
      have hm : e'.unissued.theMSHR = e.unissued.theMSHR := by rw [heq]
      have hpe : p e' = p e := by rw [← hp e', heq, hp e]
      rw [he', Option.filter_some, Option.bind_some, ← hleaves k e hk, hpe]
      split
      · exact hm
      · rfl
  refine ⟨⟨hs.linked.leave leaves ?_ h.keys h.num hup fun a => h.visited a not_mem_nil, ?_⟩,
    h.drains.trans (drains_filter hids p)⟩
  · rw [← hseqs]
    exact filter_sublist.map _
  · exact AllPlaced.filter (h.frame.placed hs.placed) hids p

/-- **`reset`**. -/
theorem reset_spec (h : Sound s) : ∃ t, s.reset = .ok t ∧ Sound t ∧ Drains s t := by
  obtain ⟨t, ht, hc⟩ := cleanMSHRS_spec h.linked 0
  obtain ⟨hs, hd⟩ := hc.filter h
    (p := fun e => e.theQueue != .kSSB && e.theQueue != .kLSQ) (fun _ => rfl) (by
      intro k e hk
      rw [discards, hk]
      cases hq : e.theQueue with
      | kLSQ => simp [hq]
      | kSSB => simp [hq]
      | kSB => simp [hq])
  refine ⟨_, ?_, hs, hd⟩
  simp only [reset, ht, clearLSQ, clearSSB, filter_filter]
  rfl

/-! ### Aborts -/

/-- **The MSHRs can be cleaned after the LSQ has been cleared**: nothing in the LSQ waits on one,
and if the SSB has no entry from the checkpoint on, so that it is erased as a whole, nothing
there does either. -/
def MayAbort (s : MissCore) (n : ℕ) : Prop :=
  (∀ e ∈ s.theMemQueue, e.theQueue = .kLSQ → e.theMSHR = none) ∧
    ((∃ e ∈ s.theMemQueue, e.theQueue = .kSSB ∧ n ≤ e.seq) ∨
      ∀ e ∈ s.theMemQueue, e.theQueue = .kSSB → e.theMSHR = none)

/-- An entry of the SSB from a sequence number on. -/
def inTail (n : ℕ) (e : LsqEntry) : Bool := e.theQueue == .kSSB && decide (n ≤ e.seq)

theorem Cleaning.any_inTail {leaves : ℕ → Bool} {todo : List (BitVec 64)}
    (h : Cleaning s leaves todo t) (n : ℕ) :
    t.theMemQueue.any (inTail n) = s.theMemQueue.any (inTail n) := by
  have hview : ∀ l : List LsqEntry,
      l.any (inTail n) = (l.map LsqEntry.unissued).any (inTail n) := by
    intro l
    rw [any_map]
    rfl
  rw [hview, h.queue, ← hview]

/-- **`doAbortSpeculation`**, if the LSQ waits for nothing. -/
theorem doAbortSpeculation_spec {n : ℕ} (h : Sound s) (hn : s.MayAbort n) :
    ∃ t, s.doAbortSpeculation n = .ok t ∧ Sound t ∧ Drains s t := by
  have h₀ : Sound s.clearLSQ := by
    refine ⟨h.linked.filter ?_, h.placed.filter h.linked.ids _⟩
    intro e he hq
    exact hn.1 e he (by simpa using hq)
  have hd₀ : Drains s s.clearLSQ := drains_filter h.linked.ids _
  obtain ⟨t, ht, hc⟩ := cleanMSHRS_spec h₀.linked n
  -- The entries that are erased are those that have been taken off the lists.
  obtain ⟨hs, hd⟩ := hc.filter h₀ (p := fun e =>
      !(e.theQueue == .kSSB && (!t.theMemQueue.any (inTail n) || decide (n ≤ e.seq))))
    (fun _ => rfl) (by
      intro k e hk
      have hmem : e ∈ s.clearLSQ.theMemQueue := Keyed.mem_of_lookup hk
      obtain ⟨hmem', hlsq⟩ := mem_filter.mp hmem
      rw [hc.any_inTail, discards, hk]
      by_cases hq : e.theQueue = .kSSB
      · by_cases hle : n ≤ e.seq
        · simp [hq, hle]
        · by_cases hfound : s.clearLSQ.theMemQueue.any (inTail n) = true
          · simp [hq, hle, hfound]
          · -- Nothing is found, and the whole SSB is erased.
            rcases hn.2 with ⟨e', he', hq', hle'⟩ | hnone
            · refine absurd (any_eq_true.mpr ⟨e', ?_, ?_⟩) hfound
              · exact mem_filter.mpr ⟨he', by simp [hq']⟩
              · simp [inTail, hq', hle']
            · simp [hq, hnone e hmem' hq]
      · have hq' : e.theQueue ≠ .kLSQ := by simpa using hlsq
        simp [hq, hq'])
  refine ⟨_, ?_, hs, hd₀.trans hd⟩
  simp only [doAbortSpeculation, ht]
  rfl

/-! ### Runs -/

theorem insertLSQ_spec (h : Sound s) (gap : ℕ) (op : MemOperation) (size : Size)
    (bypassSB dependance : Bool) :
    Sound (s.insertLSQ gap op size bypassSB dependance) := by
  have hfresh : ∀ n ∈ s.theMemQueue.map LsqEntry.seq, n < s.theMemorySequenceNum + gap + 1 :=
    fun n hn => Nat.lt_of_le_of_lt (h.linked.bound n hn) (by omega)
  have hnone : s.find (s.theMemorySequenceNum + gap + 1) = none := by
    refine Keyed.lookup_eq_none.mpr ?_
    intro e he heq
    have := hfresh e.seq (mem_map_of_mem he)
    omega
  have hfind : ∀ k e, (s.insertLSQ gap op size bypassSB dependance).find k = some e →
      s.find k = some e ∨ e.theMSHR = none := by
    intro k e hk
    rw [insertLSQ, find, Keyed.lookup_append_singleton, Option.or_eq_some_iff] at hk
    rcases hk with hk | ⟨_, hk⟩
    · exact Or.inl hk
    · right
      split at hk
      · cases hk
        rfl
      · cases hk
  have hup : (s.insertLSQ gap op size bypassSB dependance).up = s.up := by
    funext k
    rw [up, insertLSQ, find, Keyed.lookup_append_singleton, up]
    cases hk : s.find k with
    | none =>
      rw [find] at hk
      rw [hk, Option.none_or]
      split
      · rfl
      · rfl
    | some e =>
      rw [find] at hk
      rw [hk]
      rfl
  refine ⟨⟨?_, ?_, h.linked.keys, ?_⟩, ?_⟩
  · exact Keyed.nodup_append_singleton h.linked.ids hnone
  · intro n hn
    rw [insertLSQ] at hn
    rw [map_append, mem_append] at hn
    rcases hn with hn | hn
    · exact Nat.le_of_lt (hfresh n hn)
    · rw [map_singleton, mem_singleton] at hn
      exact Nat.le_of_eq hn
  · rw [hup]
    exact h.linked.links
  · intro k e hk hf a ha
    rcases hfind k e hk with hk | hnone
    · exact h.placed k e hk hf a ha
    · rw [hnone] at ha
      cases ha

/-- **The steps that keep the links**: an address is changed in place only where `doLoad` breaks
the link, and a speculation is aborted only while the LSQ waits for nothing. -/
def Allowed (s : MissCore) : MissEvent → Prop
  | .resolveVAddr k anAddr xlat => s.MayMove k anAddr xlat
  | .doAbortSpeculation n => s.MayAbort n
  | _ => True

theorem retireMem_spec (h : Sound s) (k : ℕ) :
    Sound (s.retireMem k) ∧ Drains s (s.retireMem k) := by
  refine h.modify_spec ?_ ?_
  · intro e
    split <;> rfl
  · intro e
    split <;> rfl

theorem commitStore_spec (h : Sound s) (k : ℕ) :
    Sound (s.commitStore k) ∧ Drains s (s.commitStore k) := by
  refine h.modify_spec ?_ ?_
  · intro e
    split <;> rfl
  · intro e
    split <;> rfl

/-- **A step that is allowed meets no dangling link**, keeps the links, and wakes what the
removed MSHRs have blocked. -/
theorem step_spec (spec : Bool) (h : Sound s) (ev : MissEvent) (ha : s.Allowed ev) :
    ∃ t, s.step spec ev = .ok t ∧ Sound t ∧ WakesOnce s t := by
  have hdrain : ∀ {r : Except MissFault MissCore}, (∃ t, r = .ok t ∧ Sound t ∧ Drains s t) →
      ∃ t, r = .ok t ∧ Sound t ∧ WakesOnce s t := by
    rintro r ⟨t, ht, hs, hd⟩
    exact ⟨t, ht, hs, hd.wakesOnce h.linked.keys⟩
  have hquiet : ∀ {t : MissCore}, Sound t ∧ Drains s t →
      ∃ t', (Except.ok t : Except MissFault MissCore) = .ok t' ∧ Sound t' ∧ WakesOnce s t' :=
    fun ht => hdrain ⟨_, rfl, ht.1, ht.2⟩
  cases ev with
  | insertLSQ gap op size bypassSB dependance =>
    refine ⟨_, rfl, insertLSQ_spec h gap op size bypassSB dependance, ?_⟩
    refine WakesOnce.of_grows ?_ rfl rfl
    intro m hm
    exact Option.isSome_iff_exists.mpr ⟨m, isSome_mshr_of_mem h.linked.keys hm⟩
  | eraseLSQ k => exact hdrain (eraseLSQ_spec h k)
  | issue k => exact issue_spec spec h k
  | issueStorePrefetch k onChip => exact issueStorePrefetch_spec h k onChip
  | complete op a size d => exact hdrain (complete_spec spec h op a size d)
  | resolveVAddr k anAddr xlat => exact hdrain (resolveVAddr_spec spec h k anAddr xlat ha)
  | doLoad k c => exact hdrain (doLoad_spec spec h k c)
  | write k d => exact hquiet (h.modify_spec (fun _ => rfl) fun _ => rfl)
  | requestPort k => exact hquiet (requestPort_spec h k)
  | retireMem k => exact hquiet (retireMem_spec h k)
  | commitStore k => exact hquiet (commitStore_spec h k)
  | reset => exact hdrain (reset_spec h)
  | doAbortSpeculation n => exact hdrain (doAbortSpeculation_spec h ha)

theorem sound_init (spec : Bool) : Sound (missMachine spec).init := by
  refine ⟨⟨nodup_nil, ?_, nodup_nil, ?_, ?_, ?_⟩, ?_⟩
  · intro n hn
    cases hn
  · intro a l hl
    cases hl
  · intro a l hl
    cases hl
  · intro k a
    constructor
    · intro hk
      cases hk
    · rintro ⟨l, hl, _⟩
      cases hl
  · intro k e hk
    cases hk

/-- The invariant holds in every state that a run of allowed steps reaches. -/
theorem sound_of_reachable {spec : Bool} (h : (missMachine spec).ReachableWhen Allowed s) :
    Sound s := by
  refine Machine.ReachableWhen.invariant (sound_init spec) ?_ h
  intro s ev t hs ha hstep
  obtain ⟨t', ht', hs', _⟩ := step_spec spec hs ev ha
  have heq : (missMachine spec).step s ev = .ok t' := ht'
  rw [hstep] at heq
  cases heq
  exact hs'

end MissCore

open MissCore

/-- **In a run of allowed steps no link dangles.** In every state that is reached, something
waits on every MSHR, and all that its list names are entries of the queue that point back to it.
Whatever allowed step comes next meets no dangling element and no other broken link, and wakes
each request that the MSHRs it removes have blocked, as often as it is on their lists. -/
theorem links_never_dangle (theSpeculativeOrder : Bool) (s : MissCore)
    (h : (missMachine theSpeculativeOrder).ReachableWhen Allowed s) :
    (∀ m ∈ s.theMSHRs, m.theWaitingLSQs ≠ [] ∧ ∀ k ∈ m.theWaitingLSQs,
      ∃ e ∈ s.theMemQueue, e.theSequenceNum = k ∧ e.theMSHR = some m.thePaddr) ∧
    ∀ ev, s.Allowed ev →
      ∃ t, (missMachine theSpeculativeOrder).step s ev = .ok t ∧ WakesOnce s t := by
  have hs := sound_of_reachable h
  refine ⟨?_, ?_⟩
  · intro m hm
    have hfound := isSome_mshr_of_mem hs.linked.keys hm
    refine ⟨hs.linked.waiting_ne_nil hfound, ?_⟩
    intro k hk
    have hup := hs.linked.links.up_of_mem (by rw [down, hfound]; rfl) hk
    obtain ⟨e, he, hem⟩ := up_eq_some.mp hup
    exact ⟨e, Keyed.mem_of_lookup he, seq_of_find he, hem⟩
  · intro ev ha
    obtain ⟨t, ht, _, hw⟩ := step_spec theSpeculativeOrder hs ev ha
    exact ⟨t, ht, hw⟩

/-- A test that is enough for a step to be allowed. -/
def MissCore.quiet (s : MissCore) : MissEvent → Bool
  | .resolveVAddr k _ _ => (s.find k).all fun e => e.theMSHR == none
  | .doAbortSpeculation n =>
    (s.theMemQueue.all fun e => e.theQueue != .kLSQ || e.theMSHR == none) &&
      s.theMemQueue.any (inTail n)
  | _ => true

theorem MissCore.allowed_of_quiet (s : MissCore) (ev : MissEvent) (h : s.quiet ev = true) :
    s.Allowed ev := by
  cases ev with
  | resolveVAddr k anAddr xlat =>
    intro e hk _ _ hne
    rw [quiet, hk, Option.all_some, beq_iff_eq] at h
    exact absurd h hne
  | doAbortSpeculation n =>
    rw [quiet, Bool.and_eq_true, all_eq_true, any_eq_true] at h
    obtain ⟨hlsq, e, he, htail⟩ := h
    rw [inTail, Bool.and_eq_true, beq_iff_eq, decide_eq_true_eq] at htail
    refine ⟨?_, Or.inl ⟨e, he, htail⟩⟩
    intro e' he' hq
    simpa [hq] using hlsq e' he'
  | _ => trivial

/-- An atomic operation retires with a predicted value, while its load is under way and a load of
the same address is blocked. The load then leaves the queue, and the speculation is aborted. -/
def predictedRun : List MissEvent :=
  [.insertLSQ 0 .kRMW .word false true, .resolveVAddr 1 0x100 { thePaddr := 0x200 }, .issue 1,
    .insertLSQ 0 .kLoad .word false true, .resolveVAddr 2 0x100 { thePaddr := 0x200 }, .issue 2,
    .write 1 ⟨false, false, true, false, true, some 1, some 0⟩, .retireMem 1, .eraseLSQ 2]

theorem predictedRun_links : ∃ s, (missMachine true).run predictedRun = .ok s ∧
    (s.theMSHRs.any fun m => m.theWaitingLSQs == [1] && m.theBlockedOps == [2]) = true ∧
    ∃ t, (missMachine true).step s (.doAbortSpeculation 1) = .ok t ∧ WakesOnce s t := by
  have hends : (missMachine true).endsIn (fun s =>
      (s.theMSHRs.any fun m => m.theWaitingLSQs == [1] && m.theBlockedOps == [2]) &&
        s.quiet (.doAbortSpeculation 1)) predictedRun = true := by decide
  obtain ⟨s, hs, htest⟩ := Machine.exists_of_endsIn hends
  rw [Bool.and_eq_true] at htest
  have hreach : (missMachine true).ReachableWhen Allowed s :=
    Machine.reachableWhen_of_run MissCore.allowed_of_quiet (by decide) hs
  obtain ⟨_, hstep⟩ := links_never_dangle true s hreach
  exact ⟨s, hs, htest.1, hstep _ (MissCore.allowed_of_quiet s _ htest.2)⟩

/-- An atomic operation has retired speculatively, and a load behind it waits for memory. -/
def waitingLoadRun : List MissEvent :=
  [.insertLSQ 0 .kRMW .word false true, .resolveVAddr 1 0x100 { thePaddr := 0x200 }, .issue 1,
    .complete .kAtomicPreloadReply 0x200 .word
      (fun _ => ⟨false, false, true, false, false, some 1, some 0⟩),
    .retireMem 1,
    .insertLSQ 0 .kLoad .word false true, .resolveVAddr 2 0x140 { thePaddr := 0x240 }, .issue 2]

/-- **An abort looks at entries that have been freed.** The speculation is aborted to the
checkpoint of the atomic operation: the LSQ is cleared, and the MSHR of the load still lists it. -/
theorem waitingLoadRun_dangles :
    (∃ s, (missMachine true).run waitingLoadRun = .ok s) ∧
      (missMachine true).run (waitingLoadRun ++ [.doAbortSpeculation 1]) =
        .error .danglingLSQ := by
  refine ⟨?_, by decide⟩
  have h : (missMachine true).endsIn (fun _ => true) waitingLoadRun = true := by decide
  obtain ⟨s, hs, _⟩ := Machine.exists_of_endsIn h
  exact ⟨s, hs⟩

end UArch

end Flexus
