import Flexus.Lib.Links
import Flexus.UArch.MissStatus

/-!
# Links between the queue and the MSHRs

An entry of the memory queue that points to an MSHR is on the list of the MSHR, and the other
way around; this is `Flexus.Lib.TwoSided` for the pointers and the lists of a core, and with it
`Flexus.UArch.MissCore.Sound` says that an entry waits for its own address.

What a removed MSHR owes to the operations it has blocked is a matter of counting. Requests that
have been made and instructions that are still on a list are counted together, and this sum is
not changed by the removal of an MSHR (`Flexus.UArch.MissCore.Drains`).
-/

namespace Flexus

open List

namespace UArch

open Flexus.Lib

namespace MissCore

variable {s t u : MissCore} {k j : ℕ} {a b : BitVec 64} {e : LsqEntry} {m : Mshr}
  {f : LsqEntry → LsqEntry} {g : Mshr → Mshr}

/-! ### Finding entries and registers -/

theorem seq_of_find (h : s.find k = some e) : e.seq = k := Keyed.key_of_lookup h

theorem thePaddr_of_mshr (h : s.mshr a = some m) : m.thePaddr = a := by
  have hk : m.key = a.toNat := Keyed.key_of_lookup h
  exact BitVec.eq_of_toNat_eq hk

theorem find_modify (hf : ∀ e, (f e).seq = e.seq) :
    (s.modify k f).find j = if j = k then (s.find j).map f else s.find j :=
  Keyed.lookup_update hf

theorem mshr_modifyMSHR (hg : ∀ m, (g m).key = m.key) :
    (s.modifyMSHR a g).mshr b = if b = a then (s.mshr b).map g else s.mshr b := by
  rw [mshr, modifyMSHR, Keyed.lookup_update hg]
  simp only [BitVec.toNat_inj, mshr]

theorem mshr_eraseMSHR : (s.eraseMSHR a).mshr b = if b = a then none else s.mshr b := by
  rw [mshr, eraseMSHR, Keyed.lookup_erase]
  simp only [BitVec.toNat_inj, mshr]

theorem perm_insertMSHR : (s.insertMSHR m).theMSHRs.Perm (m :: s.theMSHRs) := by
  have h : (s.insertMSHR m).theMSHRs.Perm
      (m :: (s.theMSHRs.takeWhile (fun x => x.key < m.key) ++
        s.theMSHRs.dropWhile (fun x => x.key < m.key))) := perm_middle
  rwa [takeWhile_append_dropWhile] at h

/-! ### The two sides -/

/-- Where an entry points to. -/
def up (s : MissCore) (k : ℕ) : Option (BitVec 64) := (s.find k).bind LsqEntry.theMSHR

/-- The list of an MSHR. -/
def down (s : MissCore) (a : BitVec 64) : Option (List ℕ) :=
  (s.mshr a).map Mshr.theWaitingLSQs

/-- **The links of a core are in order.** -/
structure Linked (s : MissCore) : Prop where
  ids : (s.theMemQueue.map LsqEntry.seq).Nodup
  bound : ∀ n ∈ s.theMemQueue.map LsqEntry.seq, n ≤ s.theMemorySequenceNum
  keys : (s.theMSHRs.map Mshr.key).Nodup
  links : TwoSided s.up s.down

/-- An entry waits for its own address. -/
def Placed (e : LsqEntry) : Prop := ∀ a, e.theMSHR = some a → e.thePaddr = a

/-- All entries wait for their own addresses, but for some that are left out. -/
def AllPlaced (s : MissCore) (excused : ℕ → Prop) : Prop :=
  ∀ k e, s.find k = some e → ¬ excused k → Placed e

/-- **The invariant.** -/
structure Sound (s : MissCore) : Prop where
  linked : Linked s
  placed : s.AllPlaced fun _ => False

theorem AllPlaced.mono {P Q : ℕ → Prop} (h : s.AllPlaced P) (hPQ : ∀ k, P k → Q k) :
    s.AllPlaced Q :=
  fun k e hk hQ => h k e hk fun hP => hQ (hPQ k hP)

theorem up_eq_some : s.up k = some a ↔ ∃ e, s.find k = some e ∧ e.theMSHR = some a := by
  rw [up, Option.bind_eq_some_iff]

theorem pointsBack_iff : s.pointsBack a k = true ↔ s.up k = some a := by
  rw [pointsBack, up]
  cases s.find k with
  | none => simp
  | some e => simp

theorem up_modify (hf : ∀ e, (f e).seq = e.seq) :
    (s.modify k f).up j = if j = k then (s.find j).bind fun e => (f e).theMSHR else s.up j := by
  rw [up, find_modify hf]
  by_cases hj : j = k
  · rw [if_pos hj, if_pos hj]
    cases s.find j with
    | none => rfl
    | some e => rfl
  · rw [if_neg hj, if_neg hj, up]

theorem down_modifyMSHR (hg : ∀ m, (g m).key = m.key) :
    (s.modifyMSHR a g).down b =
      if b = a then (s.mshr b).map fun m => (g m).theWaitingLSQs else s.down b := by
  rw [down, mshr_modifyMSHR hg]
  by_cases hb : b = a
  · rw [if_pos hb, if_pos hb, Option.map_map]
    rfl
  · rw [if_neg hb, if_neg hb, down]

theorem down_eraseMSHR : (s.eraseMSHR a).down b = if b = a then none else s.down b := by
  rw [down, mshr_eraseMSHR]
  by_cases hb : b = a
  · rw [if_pos hb, if_pos hb]
    rfl
  · rw [if_neg hb, if_neg hb, down]

/-- Every element of a list points back, so that a traversal meets no dangling one. -/
theorem Linked.all_pointsBack (h : Linked s) (hm : s.mshr a = some m) :
    m.theWaitingLSQs.all (s.pointsBack a) = true := by
  rw [all_eq_true]
  intro k hk
  rw [pointsBack_iff]
  exact h.links.up_of_mem (by rw [down, hm]; rfl) hk

theorem Linked.waiting_ne_nil (h : Linked s) (hm : s.mshr a = some m) :
    m.theWaitingLSQs ≠ [] :=
  h.links.nonempty a _ (by rw [down, hm]; rfl)

/-! ### Changes that touch no link -/

/-- What the links depend on, of an entry. -/
def linkView (e : LsqEntry) : ℕ × Option (BitVec 64) := (e.seq, e.theMSHR)

/-- What the links depend on, of an MSHR. -/
def waitView (m : Mshr) : BitVec 64 × List ℕ := (m.thePaddr, m.theWaitingLSQs)

theorem up_congr (hq : t.theMemQueue.map linkView = s.theMemQueue.map linkView) :
    t.up = s.up := by
  have hview : ∀ r : MissCore, ∀ k, r.up k =
      ((r.theMemQueue.map linkView).find? fun x => x.1 == k).bind Prod.snd := by
    intro r k
    rw [find?_map, up, find, Keyed.lookup]
    cases hr : r.theMemQueue.find? ((fun x => x.1 == k) ∘ linkView) with
    | none =>
      have hr' : r.theMemQueue.find? (fun x => x.seq == k) = none := hr
      rw [hr']
      rfl
    | some e =>
      have hr' : r.theMemQueue.find? (fun x => x.seq == k) = some e := hr
      rw [hr']
      rfl
  funext k
  rw [hview t, hview s, hq]

theorem down_congr (hm : t.theMSHRs.map waitView = s.theMSHRs.map waitView) :
    t.down = s.down := by
  have hview : ∀ r : MissCore, ∀ a, r.down a =
      ((r.theMSHRs.map waitView).find? fun x => x.1.toNat == a.toNat).map Prod.snd := by
    intro r a
    rw [find?_map, Option.map_map]
    rfl
  funext a
  rw [hview t, hview s, hm]

/-- **A change that no link sees** keeps the links. -/
theorem Linked.congr (h : Linked s)
    (hq : t.theMemQueue.map linkView = s.theMemQueue.map linkView)
    (hm : t.theMSHRs.map waitView = s.theMSHRs.map waitView)
    (hn : t.theMemorySequenceNum = s.theMemorySequenceNum) : Linked t := by
  have hids : t.theMemQueue.map LsqEntry.seq = s.theMemQueue.map LsqEntry.seq := by
    have := congrArg (List.map Prod.fst) hq
    rwa [map_map, map_map] at this
  have hkeys : t.theMSHRs.map Mshr.key = s.theMSHRs.map Mshr.key := by
    have := congrArg (List.map fun x : BitVec 64 × List ℕ => x.1.toNat) hm
    rwa [map_map, map_map] at this
  refine ⟨?_, ?_, ?_, ?_⟩
  · rw [hids]
    exact h.ids
  · rw [hids, hn]
    exact h.bound
  · rw [hkeys]
    exact h.keys
  · rw [up_congr hq, down_congr hm]
    exact h.links

theorem Linked.modify (h : Linked s) (hf : ∀ e, linkView (f e) = linkView e) :
    Linked (s.modify k f) :=
  h.congr (Keyed.map_update fun x _ => hf x) rfl rfl

theorem AllPlaced.modify {P : ℕ → Prop} (h : s.AllPlaced P) (hf : ∀ e, (f e).seq = e.seq)
    (hp : ∀ e, s.find k = some e → ¬ P k → Placed e → Placed (f e)) :
    (s.modify k f).AllPlaced P := by
  intro j e hj hP
  rw [find_modify hf] at hj
  split at hj
  · rename_i hjk
    obtain ⟨e₀, he₀, rfl⟩ := Option.map_eq_some_iff.mp hj
    subst hjk
    exact hp e₀ he₀ hP (h j e₀ he₀ hP)
  · exact h j e hj hP

/-- A change of an entry that leaves its pointer and its address alone. -/
theorem Sound.modify (h : Sound s) (hf : ∀ e, linkView (f e) = linkView e)
    (ha : ∀ e, (f e).thePaddr = e.thePaddr) : Sound (s.modify k f) := by
  refine ⟨h.linked.modify hf, h.placed.modify (fun e => congrArg Prod.fst (hf e)) ?_⟩
  intro e _ _ hp a hea
  rw [ha]
  exact hp a ((congrArg Prod.snd (hf e)).symm.trans hea)

/-! ### Requests that are owed -/

/-- The operations that are blocked, with as many occurrences as there are on the lists. -/
def blockedOps (s : MissCore) : List ℕ := s.theMSHRs.flatMap Mshr.theBlockedOps

/-- The prefetches that are blocked. -/
def blockedPrefetches (s : MissCore) : List ℕ := s.theMSHRs.flatMap Mshr.theBlockedPrefetches

/-- What an MSHR owes, and for which address. -/
def owes (m : Mshr) : BitVec 64 × List ℕ × List ℕ :=
  (m.thePaddr, m.theBlockedOps, m.theBlockedPrefetches)

/-- **MSHRs are removed, and what they owe is paid**: requests that have been made and those
that are still owed keep their sum. A prefetch of an instruction that has left the queue need
not be requested. -/
structure Drains (s t : MissCore) : Prop where
  kept : (t.theMSHRs.map owes).Sublist (s.theMSHRs.map owes)
  queued : ∀ k, t.queued k = true → s.queued k = true
  ports : ∀ k, t.portWakes.count k + t.blockedOps.count k =
    s.portWakes.count k + s.blockedOps.count k
  prefetches : ∀ k, t.queued k = true →
    t.prefetchWakes.count k + t.blockedPrefetches.count k =
      s.prefetchWakes.count k + s.blockedPrefetches.count k
  prefetches_le : ∀ k, t.prefetchWakes.count k + t.blockedPrefetches.count k ≤
    s.prefetchWakes.count k + s.blockedPrefetches.count k

theorem blockedOps_eq : s.blockedOps = (s.theMSHRs.map owes).flatMap fun x => x.2.1 := by
  rw [flatMap_map]
  rfl

theorem blockedPrefetches_eq :
    s.blockedPrefetches = (s.theMSHRs.map owes).flatMap fun x => x.2.2 := by
  rw [flatMap_map]
  rfl

theorem Drains.refl (s : MissCore) : Drains s s :=
  ⟨List.Sublist.refl _, fun _ h => h, fun _ => rfl, fun _ _ => rfl, fun _ => Nat.le_refl _⟩

theorem Drains.trans (h : Drains s t) (h' : Drains t u) : Drains s u where
  kept := h'.kept.trans h.kept
  queued k hk := h.queued k (h'.queued k hk)
  ports k := (h'.ports k).trans (h.ports k)
  prefetches k hk := (h'.prefetches k hk).trans (h.prefetches k (h'.queued k hk))
  prefetches_le k := Nat.le_trans (h'.prefetches_le k) (h.prefetches_le k)

theorem Drains.of_eq (hm : t.theMSHRs.map owes = s.theMSHRs.map owes)
    (hq : ∀ k, t.queued k = true → s.queued k = true) (hp : t.portWakes = s.portWakes)
    (hf : t.prefetchWakes = s.prefetchWakes) : Drains s t where
  kept := by rw [hm]
  queued := hq
  ports k := by rw [blockedOps_eq, blockedOps_eq, hm, hp]
  prefetches k _ := by rw [blockedPrefetches_eq, blockedPrefetches_eq, hm, hf]
  prefetches_le k := Nat.le_of_eq (by rw [blockedPrefetches_eq, blockedPrefetches_eq, hm, hf])

theorem queued_modify (hf : ∀ e, (f e).seq = e.seq) : (s.modify k f).queued j = s.queued j := by
  rw [queued, find_modify hf, queued]
  split
  · rw [Option.isSome_map]
  · rfl

theorem drains_modify (hf : ∀ e, (f e).seq = e.seq) : Drains s (s.modify k f) :=
  Drains.of_eq rfl (fun j hj => by rwa [queued_modify hf] at hj) rfl rfl

theorem drains_modifyMSHR (hg : ∀ m, owes (g m) = owes m) : Drains s (s.modifyMSHR a g) :=
  Drains.of_eq (Keyed.map_update fun m _ => hg m) (fun _ h => h) rfl rfl

/-! ### Port requests -/

theorem requestPort_cases (s : MissCore) (k : ℕ) :
    s.requestPort k = s ∨
      s.requestPort k = s.modify k fun e => { e with theIssued := true } := by
  rw [requestPort]
  split
  · exact Or.inl rfl
  · split
    · exact Or.inl rfl
    · split
      · exact Or.inl rfl
      · exact Or.inr rfl

/-- What the wakening of blocked operations leaves unchanged. -/
structure WakeFrame (s t : MissCore) : Prop where
  queue : t.theMemQueue.map LsqEntry.unissued = s.theMemQueue.map LsqEntry.unissued
  mshrs : t.theMSHRs = s.theMSHRs
  num : t.theMemorySequenceNum = s.theMemorySequenceNum
  prefetchWakes : t.prefetchWakes = s.prefetchWakes

theorem WakeFrame.refl (s : MissCore) : WakeFrame s s := ⟨rfl, rfl, rfl, rfl⟩

theorem WakeFrame.trans (h : WakeFrame s t) (h' : WakeFrame t u) : WakeFrame s u :=
  ⟨h'.queue.trans h.queue, h'.mshrs.trans h.mshrs, h'.num.trans h.num,
    h'.prefetchWakes.trans h.prefetchWakes⟩

theorem requestPort_frame (s : MissCore) (k : ℕ) :
    WakeFrame s (s.requestPort k) ∧ (s.requestPort k).portWakes = s.portWakes := by
  rcases requestPort_cases s k with h | h
  · rw [h]
    exact ⟨WakeFrame.refl s, rfl⟩
  · rw [h]
    exact ⟨⟨Keyed.map_update fun x _ => rfl, rfl, rfl, rfl⟩, rfl⟩

theorem wakePorts_frame (s : MissCore) (ks : List ℕ) : WakeFrame s (s.wakePorts ks) := by
  induction ks generalizing s with
  | nil => exact WakeFrame.refl s
  | cons k ks ih =>
    have h := (requestPort_frame s k).1
    have h' : WakeFrame s (s.wakePort k) := ⟨h.queue, h.mshrs, h.num, h.prefetchWakes⟩
    exact h'.trans (ih (s.wakePort k))

theorem portWakes_wakePorts (s : MissCore) (ks : List ℕ) :
    (s.wakePorts ks).portWakes = s.portWakes ++ ks := by
  induction ks generalizing s with
  | nil => rw [append_nil]; rfl
  | cons k ks ih =>
    rw [wakePorts, foldl_cons, ← wakePorts, ih, wakePort]
    simp only [(requestPort_frame s k).2, append_assoc, singleton_append]

/-- Anything that does not depend on `theIssued` is seen alike. -/
theorem WakeFrame.map_eq {β : Type*} (h : WakeFrame s t) {v : LsqEntry → β}
    (hv : ∀ e, v e.unissued = v e) : t.theMemQueue.map v = s.theMemQueue.map v := by
  have hmap : ∀ l : List LsqEntry, (l.map LsqEntry.unissued).map v = l.map v := by
    intro l
    rw [map_map]
    exact map_congr_left fun e _ => hv e
  rw [← hmap, h.queue, hmap]

theorem WakeFrame.find_eq (h : WakeFrame s t) (k : ℕ) :
    (t.find k).map LsqEntry.unissued = (s.find k).map LsqEntry.unissued := by
  have hview : ∀ r : MissCore, (r.find k).map LsqEntry.unissued =
      (r.theMemQueue.map LsqEntry.unissued).find? fun x => x.seq == k := by
    intro r
    rw [find?_map]
    rfl
  rw [hview, hview, h.queue]

theorem WakeFrame.queued_eq (h : WakeFrame s t) (k : ℕ) : t.queued k = s.queued k := by
  have := congrArg Option.isSome (h.find_eq k)
  rwa [Option.isSome_map, Option.isSome_map] at this

theorem WakeFrame.up_eq (h : WakeFrame s t) : t.up = s.up :=
  up_congr (h.map_eq fun _ => rfl)

theorem WakeFrame.placed {P : ℕ → Prop} (h : WakeFrame s t) (hp : s.AllPlaced P) :
    t.AllPlaced P := by
  intro k e hk hP
  have hfind := h.find_eq k
  rw [hk, Option.map_some] at hfind
  obtain ⟨e', he', heq⟩ := Option.map_eq_some_iff.mp hfind.symm
  intro a ha
  have hm : e'.unissued.theMSHR = e.unissued.theMSHR := by rw [heq]
  have hpa : e'.unissued.thePaddr = e.unissued.thePaddr := by rw [heq]
  exact hpa.symm.trans (hp k e' he' hP a (hm.trans ha))

theorem WakeFrame.linked (h : WakeFrame s t) (hl : Linked s) : Linked t :=
  hl.congr (h.map_eq fun _ => rfl) (by rw [h.mshrs]) h.num

/-! ### Removing an MSHR -/

theorem removeMSHR_frame (s : MissCore) (m : Mshr) :
    WakeFrame ((s.wakePrefetches m.theBlockedPrefetches).eraseMSHR m.thePaddr)
      (s.removeMSHR m) :=
  wakePorts_frame _ _

theorem perm_eraseMSHR (hk : (s.theMSHRs.map Mshr.key).Nodup) (hm : s.mshr a = some m) :
    s.theMSHRs.Perm (m :: (s.eraseMSHR a).theMSHRs) :=
  Keyed.perm_erase hk hm

theorem count_blockedOps_erase (hk : (s.theMSHRs.map Mshr.key).Nodup) (hm : s.mshr a = some m)
    (k : ℕ) : s.blockedOps.count k = m.theBlockedOps.count k +
      (s.eraseMSHR a).blockedOps.count k := by
  rw [blockedOps, ((perm_eraseMSHR hk hm).flatMap_right _).count_eq k, flatMap_cons,
    count_append, blockedOps]

theorem count_blockedPrefetches_erase (hk : (s.theMSHRs.map Mshr.key).Nodup)
    (hm : s.mshr a = some m) (k : ℕ) : s.blockedPrefetches.count k =
      m.theBlockedPrefetches.count k + (s.eraseMSHR a).blockedPrefetches.count k := by
  rw [blockedPrefetches, ((perm_eraseMSHR hk hm).flatMap_right _).count_eq k, flatMap_cons,
    count_append, blockedPrefetches]

/-- **A removed MSHR pays what it owes.** Between its erasure and the requests the queue may
lose entries; the prefetches are requested at the one moment or at the other. -/
theorem drains_of_erase (hk : (s.theMSHRs.map Mshr.key).Nodup) (hm : s.mshr a = some m)
    (hmshrs : t.theMSHRs = (s.eraseMSHR a).theMSHRs)
    (hq : ∀ k, t.queued k = true → s.queued k = true)
    (hports : t.portWakes = s.portWakes ++ m.theBlockedOps)
    {live : ℕ → Bool} (hlive : ∀ k, t.queued k = true → live k = true)
    (hpre : t.prefetchWakes = s.prefetchWakes ++ m.theBlockedPrefetches.filter live) :
    Drains s t where
  kept := by
    rw [hmshrs]
    exact filter_sublist.map owes
  queued := hq
  ports k := by
    have hb : t.blockedOps = (s.eraseMSHR a).blockedOps := by rw [blockedOps, hmshrs]; rfl
    rw [hports, count_append, count_blockedOps_erase hk hm k, hb]
    omega
  prefetches k hkq := by
    have hb : t.blockedPrefetches = (s.eraseMSHR a).blockedPrefetches := by
      rw [blockedPrefetches, hmshrs]
      rfl
    rw [hpre, count_append, count_blockedPrefetches_erase hk hm k, hb, count_filter (hlive k hkq)]
    omega
  prefetches_le k := by
    have hb : t.blockedPrefetches = (s.eraseMSHR a).blockedPrefetches := by
      rw [blockedPrefetches, hmshrs]
      rfl
    have hle : (m.theBlockedPrefetches.filter live).count k ≤ m.theBlockedPrefetches.count k :=
      filter_sublist.count_le k
    rw [hpre, count_append, count_blockedPrefetches_erase hk hm k, hb]
    omega

theorem drains_removeMSHR (hk : (s.theMSHRs.map Mshr.key).Nodup) (hm : s.mshr a = some m) :
    Drains s (s.removeMSHR m) := by
  have hf := removeMSHR_frame s m
  have hq : ∀ k, (s.removeMSHR m).queued k = s.queued k := fun k => hf.queued_eq k
  refine drains_of_erase hk hm ?_ (fun k h => (hq k).symm.trans h) ?_
    (fun k h => (hq k).symm.trans h) ?_
  · rw [hf.mshrs, thePaddr_of_mshr hm]
    rfl
  · exact portWakes_wakePorts _ _
  · exact hf.prefetchWakes

/-! ### Leaving an MSHR -/

/-- **Entries leave their MSHRs**: the two sides still agree. -/
theorem Linked.leave (h : Linked s) (leaves : ℕ → Bool)
    (hq : (t.theMemQueue.map LsqEntry.seq).Sublist (s.theMemQueue.map LsqEntry.seq))
    (hk : (t.theMSHRs.map Mshr.key).Sublist (s.theMSHRs.map Mshr.key))
    (hn : t.theMemorySequenceNum = s.theMemorySequenceNum)
    (hup : ∀ k, t.up k = if leaves k then none else s.up k)
    (hdown : ∀ a, t.down a = (s.down a).bind (survivors leaves)) : Linked t where
  ids := h.ids.sublist hq
  bound n hmem := by
    rw [hn]
    exact h.bound n (hq.subset hmem)
  keys := h.keys.sublist hk
  links := h.links.leave leaves hup hdown

/-- **What is left when the list of an MSHR is cut down.** -/
structure Shrunk (s t : MissCore) (a : BitVec 64) (rest : List ℕ) : Prop where
  queue : t.theMemQueue.map LsqEntry.unissued = s.theMemQueue.map LsqEntry.unissued
  num : t.theMemorySequenceNum = s.theMemorySequenceNum
  keys : (t.theMSHRs.map Mshr.key).Sublist (s.theMSHRs.map Mshr.key)
  other : ∀ b, b ≠ a → t.mshr b = s.mshr b
  down : t.down a = if rest.isEmpty then none else some rest
  drains : Drains s t

theorem shrinkMSHR_spec (hk : (s.theMSHRs.map Mshr.key).Nodup) (hm : s.mshr a = some m)
    (rest : List ℕ) : Shrunk s (s.shrinkMSHR m rest) a rest := by
  have ha := thePaddr_of_mshr hm
  rw [shrinkMSHR]
  split
  · rename_i hrest
    have hf := removeMSHR_frame s m
    have hmshr : ∀ b, (s.removeMSHR m).mshr b = (s.eraseMSHR a).mshr b := by
      intro b
      rw [mshr, hf.mshrs, ha]
      rfl
    refine ⟨hf.queue, hf.num, ?_, ?_, ?_, drains_removeMSHR hk hm⟩
    · rw [hf.mshrs]
      exact filter_sublist.map Mshr.key
    · intro b hb
      rw [hmshr, mshr_eraseMSHR, if_neg hb]
    · rw [MissCore.down, hmshr, mshr_eraseMSHR, if_pos rfl, if_pos hrest]
      rfl
  · rename_i hrest
    have hkey : ∀ m : Mshr, ({ m with theWaitingLSQs := rest } : Mshr).key = m.key := fun _ => rfl
    rw [ha]
    refine ⟨rfl, rfl, ?_, ?_, ?_, drains_modifyMSHR fun _ => rfl⟩
    · rw [modifyMSHR, Keyed.keys_update hkey]
    · intro b hb
      rw [mshr_modifyMSHR hkey, if_neg hb]
    · rw [down_modifyMSHR hkey, if_pos rfl, hm, if_neg hrest]
      rfl

theorem Shrunk.frame {rest : List ℕ} (h : Shrunk s t a rest) :
    WakeFrame s { t with theMSHRs := s.theMSHRs, prefetchWakes := s.prefetchWakes } :=
  ⟨h.queue, rfl, h.num, rfl⟩

theorem Shrunk.up_eq {rest : List ℕ} (h : Shrunk s t a rest) : t.up = s.up := h.frame.up_eq

theorem Shrunk.placed {rest : List ℕ} {P : ℕ → Prop} (h : Shrunk s t a rest)
    (hp : s.AllPlaced P) : t.AllPlaced P := h.frame.placed hp

theorem Shrunk.seqs {rest : List ℕ} (h : Shrunk s t a rest) :
    t.theMemQueue.map LsqEntry.seq = s.theMemQueue.map LsqEntry.seq :=
  h.frame.map_eq fun _ => rfl

theorem seq_unissued (e : LsqEntry) : e.unissued.seq = e.seq := rfl

theorem seq_unlinked (e : LsqEntry) : e.unlinked.seq = e.seq := rfl

theorem seq_waitingOn (a : BitVec 64) (e : LsqEntry) : (e.waitingOn a).seq = e.seq := rfl

/-- The list of an MSHR without an entry, as what is left when the entry leaves. -/
theorem Linked.bind_survivors (h : Linked s) (hk : s.up k = some a) (hm : s.mshr a = some m)
    (hs : Shrunk s t a (m.theWaitingLSQs.erase k)) (b : BitVec 64) :
    t.down b = (s.down b).bind (survivors fun j => decide (j = k)) := by
  have hdown : s.down a = some m.theWaitingLSQs := by rw [down, hm]; rfl
  by_cases hb : b = a
  · subst hb
    rw [hs.down, hdown, Option.bind_some, h.links.survivors_erase hdown]
  · rw [h.links.survivors_of_ne hk hb, down, down, hs.other b hb]

theorem leaveMSHR_spec (hl : Linked s) (hp : s.AllPlaced (· = k)) (hk : s.up k = some a) :
    ∃ t, s.leaveMSHR k a = .ok t ∧ Sound t ∧ Drains s t ∧ t.up k = none := by
  obtain ⟨l, hdl, hkl⟩ := (hl.links.agree k a).mp hk
  obtain ⟨m, hm, rfl⟩ := Option.map_eq_some_iff.mp hdl
  have hs := shrinkMSHR_spec hl.keys hm (m.theWaitingLSQs.erase k)
  have hall := hl.all_pointsBack hm
  have hok : s.leaveMSHR k a =
      .ok ((s.shrinkMSHR m (m.theWaitingLSQs.erase k)).modify k LsqEntry.unlinked) := by
    simp [leaveMSHR, hm, hall, hkl]
  have hup : ∀ j, ((s.shrinkMSHR m (m.theWaitingLSQs.erase k)).modify k LsqEntry.unlinked).up j =
      if decide (j = k) then none else s.up j := by
    intro j
    rw [up_modify seq_unlinked, hs.up_eq]
    by_cases hj : j = k
    · rw [if_pos hj, if_pos (by simpa using hj)]
      cases (s.shrinkMSHR m (m.theWaitingLSQs.erase k)).find j with
      | none => rfl
      | some e => rfl
    · rw [if_neg hj, if_neg (by simpa using hj)]
  refine ⟨_, hok, ⟨?_, ?_⟩, hs.drains.trans (drains_modify seq_unlinked), ?_⟩
  · refine hl.leave (fun j => decide (j = k)) ?_ hs.keys hs.num hup
      fun b => hl.bind_survivors hk hm hs b
    rw [modify, Keyed.keys_update seq_unlinked, hs.seqs]
  · intro j e hj _ b hb
    by_cases hjk : j = k
    · -- The entry itself waits on nothing any more.
      have hnone := hup j
      rw [if_pos (by simpa using hjk), up, hj, Option.bind_some, hb] at hnone
      cases hnone
    · refine (hs.placed hp).modify seq_unlinked ?_ j e hj hjk b hb
      intro _ _ hne
      exact absurd rfl hne
  · rw [hup, if_pos (by simp)]

/-- **`breakMSHRLink`**: the entry leaves its MSHR, which is removed if it was the last one. -/
theorem breakMSHRLink_spec (hl : Linked s) (hp : s.AllPlaced (· = k)) :
    ∃ t, s.breakMSHRLink k = .ok t ∧ Sound t ∧ Drains s t ∧ t.up k = none := by
  cases hk : s.find k with
  | none =>
    refine ⟨s, by rw [breakMSHRLink, hk], ⟨hl, ?_⟩, Drains.refl s, by rw [up, hk]; rfl⟩
    intro j e hj _
    refine hp j e hj ?_
    rintro rfl
    rw [hk] at hj
    cases hj
  | some e =>
    have hl₁ : Linked (s.modify k LsqEntry.unissued) := hl.modify fun _ => rfl
    have hp₁ : (s.modify k LsqEntry.unissued).AllPlaced (· = k) :=
      hp.modify seq_unissued fun _ _ hne => absurd rfl hne
    have hd₁ : Drains s (s.modify k LsqEntry.unissued) := drains_modify seq_unissued
    have hup₁ : (s.modify k LsqEntry.unissued).up k = e.theMSHR := by
      rw [up_modify seq_unissued, if_pos rfl, hk]
      rfl
    cases he : e.theMSHR with
    | none =>
      rw [he] at hup₁
      refine ⟨_, by simp only [breakMSHRLink, hk, he], ⟨hl₁, ?_⟩, hd₁, hup₁⟩
      intro j e' hj _ a ha
      by_cases hjk : j = k
      · subst hjk
        rw [up, hj, Option.bind_some, ha] at hup₁
        cases hup₁
      · exact hp₁ j e' hj hjk a ha
    | some a =>
      rw [he] at hup₁
      obtain ⟨t, ht, hsound, hd, hnone⟩ := leaveMSHR_spec hl₁ hp₁ hup₁
      refine ⟨t, ?_, hsound, hd₁.trans hd, hnone⟩
      simp only [breakMSHRLink, hk, he, ht]

/-! ### Entries that leave the queue -/

theorem up_filter (hids : (s.theMemQueue.map LsqEntry.seq).Nodup) {p : LsqEntry → Bool}
    (hp : ∀ e ∈ s.theMemQueue, p e = false → e.theMSHR = none) :
    MissCore.up { s with theMemQueue := s.theMemQueue.filter p } = s.up := by
  funext k
  rw [up, find, Keyed.lookup_filter hids, up, find]
  cases hk : Keyed.lookup LsqEntry.seq s.theMemQueue k with
  | none => rfl
  | some e =>
    rw [Option.filter_some]
    split
    · rfl
    · rename_i hpe
      rw [Option.bind_none, Option.bind_some]
      exact (hp e (Keyed.mem_of_lookup hk) (by simpa using hpe)).symm

/-- **Entries that wait on nothing may be taken out of the queue.** -/
theorem Linked.filter (h : Linked s) {p : LsqEntry → Bool}
    (hp : ∀ e ∈ s.theMemQueue, p e = false → e.theMSHR = none) :
    Linked { s with theMemQueue := s.theMemQueue.filter p } where
  ids := h.ids.sublist (filter_sublist.map _)
  bound n hn := h.bound n ((filter_sublist.map _).subset hn)
  keys := h.keys
  links := by
    rw [up_filter h.ids hp]
    exact h.links

theorem AllPlaced.filter {P : ℕ → Prop} (h : s.AllPlaced P)
    (hids : (s.theMemQueue.map LsqEntry.seq).Nodup) (p : LsqEntry → Bool) :
    AllPlaced { s with theMemQueue := s.theMemQueue.filter p } P := by
  intro k e hk hP
  rw [find, Keyed.lookup_filter hids, Option.filter_eq_some_iff] at hk
  exact h k e hk.1 hP

theorem drains_filter (hids : (s.theMemQueue.map LsqEntry.seq).Nodup) (p : LsqEntry → Bool) :
    Drains s { s with theMemQueue := s.theMemQueue.filter p } := by
  refine Drains.of_eq rfl ?_ rfl rfl
  intro k hk
  rw [queued, find, Keyed.lookup_filter hids, Option.isSome_iff_exists] at hk
  obtain ⟨e, he⟩ := hk
  rw [Option.filter_eq_some_iff] at he
  rw [queued, find, he.1]
  rfl

theorem find_of_mem (h : Linked s) (he : e ∈ s.theMemQueue) : s.find e.seq = some e :=
  Keyed.lookup_of_mem h.ids he

/-- **`eraseLSQ`**. -/
theorem eraseLSQ_spec (h : Sound s) (k : ℕ) :
    ∃ t, s.eraseLSQ k = .ok t ∧ Sound t ∧ Drains s t := by
  cases hk : s.find k with
  | none => exact ⟨s, by rw [eraseLSQ, hk], h, Drains.refl s⟩
  | some e =>
    obtain ⟨t, ht, hs, hd, hnone⟩ :=
      breakMSHRLink_spec (k := k) h.linked (h.placed.mono fun _ hf => hf.elim)
    have hfree : ∀ e ∈ t.theMemQueue, (e.seq != k) = false → e.theMSHR = none := by
      intro e he hek
      have hek' : e.seq = k := by simpa using hek
      rw [up, ← hek', find_of_mem hs.linked he] at hnone
      exact hnone
    refine ⟨{ t with theMemQueue := Keyed.erase LsqEntry.seq t.theMemQueue k }, ?_,
      ⟨hs.linked.filter hfree, hs.placed.filter hs.linked.ids _⟩,
      hd.trans (drains_filter hs.linked.ids _)⟩
    simp only [eraseLSQ, hk, ht]
    rfl

/-! ### Each blocked request once -/

/-- The MSHRs that a step has removed. -/
def removed (s t : MissCore) : List Mshr :=
  s.theMSHRs.filter fun m => (t.mshr m.thePaddr).isNone

/-- **Every operation on the list of a removed MSHR is requested once more**, as often as it is
on the list, and so is every prefetch whose instruction is still in the queue. Nothing else is
woken. -/
structure WakesOnce (s t : MissCore) : Prop where
  ports : ∀ k, t.portWakes.count k =
    s.portWakes.count k + ((removed s t).flatMap Mshr.theBlockedOps).count k
  prefetches : ∀ k, t.queued k = true → t.prefetchWakes.count k =
    s.prefetchWakes.count k + ((removed s t).flatMap Mshr.theBlockedPrefetches).count k
  prefetches_le : ∀ k, t.prefetchWakes.count k ≤
    s.prefetchWakes.count k + ((removed s t).flatMap Mshr.theBlockedPrefetches).count k

/-- What is on the lists of the removed MSHRs, and what is on the others. -/
theorem Drains.count_split (h : Drains s t) (hk : (s.theMSHRs.map Mshr.key).Nodup)
    (p : BitVec 64 × List ℕ × List ℕ → List ℕ) (k : ℕ) :
    (s.theMSHRs.flatMap fun m => p (owes m)).count k =
      ((removed s t).flatMap fun m => p (owes m)).count k +
        (t.theMSHRs.flatMap fun m => p (owes m)).count k := by
  -- The MSHRs that are left owe what they owed before, and are those that are still found.
  have hkeys : ((s.theMSHRs.map owes).map fun x => x.1.toNat).Nodup := by
    rw [map_map]
    exact hk
  have hleft := Keyed.eq_filter_of_sublist hkeys h.kept
  have hfound : ∀ m : Mshr, (Keyed.lookup (fun x : BitVec 64 × List ℕ × List ℕ => x.1.toNat)
      (t.theMSHRs.map owes) (owes m).1.toNat).isSome = !(t.mshr m.thePaddr).isNone := by
    intro m
    rw [Keyed.lookup, find?_map, Option.isSome_map, Option.not_isNone]
    rfl
  have hleft' : t.theMSHRs.map owes =
      (s.theMSHRs.filter fun m => !(t.mshr m.thePaddr).isNone).map owes := by
    rw [hleft, filter_map]
    refine congrArg (List.map owes) (filter_congr ?_)
    intro m _
    exact hfound m
  have hperm := (filter_append_perm (fun m => (t.mshr m.thePaddr).isNone) s.theMSHRs)
  have hflat : ∀ l : List Mshr, (l.flatMap fun m => p (owes m)) = (l.map owes).flatMap p :=
    fun l => (flatMap_map ..).symm
  rw [← (hperm.flatMap_right _).count_eq k, flatMap_append, count_append,
    hflat t.theMSHRs, hleft', ← hflat]
  rfl

/-- MSHRs that pay what they owe wake each blocked request once. -/
theorem Drains.wakesOnce (h : Drains s t) (hk : (s.theMSHRs.map Mshr.key).Nodup) :
    WakesOnce s t := by
  have hops : ∀ k, s.blockedOps.count k =
      ((removed s t).flatMap Mshr.theBlockedOps).count k + t.blockedOps.count k :=
    h.count_split hk fun x => x.2.1
  have hpre : ∀ k, s.blockedPrefetches.count k =
      ((removed s t).flatMap Mshr.theBlockedPrefetches).count k + t.blockedPrefetches.count k :=
    h.count_split hk fun x => x.2.2
  refine ⟨?_, ?_, ?_⟩
  · intro k
    have h1 := hops k
    have h2 := h.ports k
    omega
  · intro k hq
    have h1 := hpre k
    have h2 := h.prefetches k hq
    omega
  · intro k
    have h1 := hpre k
    have h2 := h.prefetches_le k
    omega

theorem WakesOnce.of_grows (hm : ∀ m ∈ s.theMSHRs, (t.mshr m.thePaddr).isSome = true)
    (hp : t.portWakes = s.portWakes) (hf : t.prefetchWakes = s.prefetchWakes) :
    WakesOnce s t := by
  have hnil : removed s t = [] := by
    rw [removed, filter_eq_nil_iff]
    intro m hms
    rw [Option.isNone_iff_eq_none]
    exact Option.isSome_iff_ne_none.mp (hm m hms)
  refine ⟨?_, ?_, ?_⟩
  · intro k
    rw [hnil, hp]
    rfl
  · intro k _
    rw [hnil, hf]
    rfl
  · intro k
    rw [hnil, hf]
    exact Nat.le_refl _

end MissCore

end UArch

end Flexus
