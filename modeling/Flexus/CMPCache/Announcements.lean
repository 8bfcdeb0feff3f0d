import Flexus.CMPCache.Controller
import Flexus.CMPCache.Passage

/-!
# How many answers a write is told to wait for

A write or an upgrade that others have to know of (`doRequest` of
`components/CMPCache/NonInclusiveMESIPolicy.cpp`) is answered by a notification, which tells the
requester how many messages it has to wait for. They come from those to whom the bank sends snoops
at the same time: a sharer or memory that is to forward the data, and the sharers that have to give
the block up. The notification is counted over the sharers, and the snoops are sent to a list of
them; that the two agree is shown here.
-/

namespace Flexus

namespace CMPCache

open MemoryMessageType

variable {δ γ : Type}

/-! ### Sharers as lists -/

namespace SimpleDirectoryState

variable {d : SimpleDirectoryState} {i : ℕ}

/-- The sharers are bits of the vector. -/
def IsBitset (d : SimpleDirectoryState) : Prop := ∀ i ∈ d.theSharers, i < d.theNumSharers

theorem mem_getSharerList (h : d.IsBitset) : i ∈ d.getSharerList ↔ i ∈ d.theSharers := by
  rw [getSharerList, List.mem_filter, List.mem_range, isSharer, decide_eq_true_eq]
  exact ⟨And.right, fun hi => ⟨h i hi, hi⟩⟩

theorem nodup_getSharerList (d : SimpleDirectoryState) : d.getSharerList.Nodup :=
  List.nodup_range.filter _

/-- **The sharers are counted** as they are listed. -/
theorem length_getSharerList (h : d.IsBitset) : d.getSharerList.length = d.countSharers := by
  rw [countSharers, ← List.toFinset_card_of_nodup d.nodup_getSharerList]
  congr 1
  ext i
  rw [List.mem_toFinset, mem_getSharerList h]

/-- **All but one sharer** are the others. -/
theorem getOtherSharers_perm (h : d.IsBitset) (hi : i ∈ d.theSharers) :
    d.getSharerList.Perm (i :: d.getOtherSharers i) := by
  have hmem := (mem_getSharerList h).mpr hi
  have hothers : d.getOtherSharers i = d.getSharerList.erase i := by
    rw [d.nodup_getSharerList.erase_eq_filter]
    refine List.filter_congr fun j _ => ?_
    rw [Bool.eq_iff_iff, decide_eq_true_eq, bne_iff_ne, ne_eq, ne_eq, Int.natCast_inj]
  rw [hothers]
  exact List.perm_cons_erase hmem

theorem getOtherSharers_neg_one (d : SimpleDirectoryState) :
    d.getOtherSharers (-1) = d.getSharerList :=
  List.filter_eq_self.mpr fun i _ => decide_eq_true (by omega)

theorem getFirstSharer_mem (h : d.IsBitset) (hne : d.theSharers ≠ ∅) :
    ∃ i ∈ d.theSharers, d.getFirstSharer = i := by
  rw [getFirstSharer]
  split
  · rename_i hnil
    refine absurd (Finset.eq_empty_of_forall_notMem fun i hi => ?_) hne
    have := (mem_getSharerList h).mpr hi
    rw [hnil] at this
    exact absurd this List.not_mem_nil
  · rename_i i l hcons
    exact ⟨i, (mem_getSharerList h).mp (hcons ▸ List.mem_cons_self), rfl⟩

end SimpleDirectoryState

/-! ### Whom snoops go to -/

/-- A party that a snoop may go to. -/
inductive Party
  | cache (i : ℤ)
  | memory
  deriving DecidableEq

/-- **The destinations of a snoop**: a source, memory, or those of a multicast. -/
def Party.ofSnoop (t : Transport) : List Party :=
  match t.dest.type with
  | .source => [.cache t.dest.source]
  | .memory => [.memory]
  | .multicast => t.dest.multicastList.map fun i : ℕ => .cache i
  | _ => []

/-- **A notification counts the snoops** that go with it: each destination is there once, and each
sharer but the one that asks for an upgrade is a destination. -/
def Announces (d : SimpleDirectoryState) (p p' : Process) : Prop :=
  ∃ snoops reply, p'.snoopTransports = p.snoopTransports ++ snoops ∧
    p'.replyTransport = some reply ∧ (reply.type = missNotify ∨ reply.type = missNotifyData) ∧
    reply.outstandingMsgs = (snoops.flatMap Party.ofSnoop).length ∧
    (snoops.flatMap Party.ofSnoop).Nodup ∧
    ∀ i ∈ d.theSharers,
      (p.transport.type = upgradeReq → i ≠ p.transport.dest.requester) →
        .cache i ∈ snoops.flatMap Party.ofSnoop

namespace Policy

variable {cfg : Config δ γ} {s s' t : Policy δ γ} {p p' : Process}
  {hasMaf mafWaiting found : Bool} {a : ℕ} {d : SimpleDirectoryState} {c : CacheState}
  {action : ProcessAction}

theorem announces_of_perm {snoops : List Transport} {reply : Transport} {l : List ℕ}
    (hsnoops : p'.snoopTransports = p.snoopTransports ++ snoops)
    (hreply : p'.replyTransport = some reply)
    (htype : reply.type = missNotify ∨ reply.type = missNotifyData)
    (hcount : reply.outstandingMsgs = l.length) (hl : l.Nodup)
    (hparties : (snoops.flatMap Party.ofSnoop).Perm (l.map fun i : ℕ => .cache i))
    (hall : ∀ i ∈ d.theSharers,
      (p.transport.type = upgradeReq → i ≠ p.transport.dest.requester) → i ∈ l) :
    Announces d p p' := by
  have hinj : Function.Injective fun i : ℕ => Party.cache i := fun i j hij =>
    Int.natCast_inj.mp (Party.cache.inj hij)
  refine ⟨snoops, reply, hsnoops, hreply, htype, ?_, ?_, fun i hi hup => ?_⟩
  · rw [hcount, hparties.length_eq, List.length_map]
  · exact hparties.nodup_iff.mpr (hl.map hinj)
  · exact hparties.mem_iff.mpr (List.mem_map_of_mem (hall i hi hup))

theorem accept_process (h : s.accept p hasMaf a action = .ok (s', p')) :
    p' = { p with action := action, maf := p'.maf } := by
  rw [accept] at h
  split at h
  · cases h
  · cases h
    rfl

theorem acceptKeeping_action (h : s.acceptKeeping p hasMaf a action = .ok (s', p')) :
    p'.action = action := by
  rw [acceptKeeping] at h
  split at h
  · cases h
  · cases h
    rfl

theorem accept_action (h : s.accept p hasMaf a action = .ok (s', p')) : p'.action = action := by
  rw [accept_process h]

theorem pickSharer_mem (hbits : d.IsBitset) (hne : d.theSharers ≠ ∅) (dir : ℕ) :
    ∃ i ∈ d.theSharers, pickSharer d dir = i := by
  rw [pickSharer]
  split
  · rename_i hdir
    exact ⟨dir, of_decide_eq_true hdir, rfl⟩
  · exact d.getFirstSharer_mem hbits hne

/-- **A write from memory.** -/
theorem serveFromMemory_announces
    (h : s.serveFromMemory p hasMaf mafWaiting a = .ok (s', p'))
    (hact : p'.action = .notifyAndWaitAck) (hd : d.theSharers = ∅) : Announces d p p' := by
  simp only [serveFromMemory] at h
  split at h
  · obtain ⟨-, rfl, -⟩ := stallIn_spec h
    cases hact
  · split at h
    · have hp := accept_process h
      refine ⟨[{ p.transport with dest := { p.transport.dest with type := .memory } }], _,
        (by rw [hp]; rfl), (by rw [hp]), .inl rfl, rfl, List.nodup_singleton _, fun i hi => ?_⟩
      rw [hd] at hi
      exact absurd hi (Finset.notMem_empty i)
    · cases (accept_action h).symm.trans hact
    · cases (acceptKeeping_action h).symm.trans hact
    · cases (acceptKeeping_action h).symm.trans hact
    · cases h

/-- **The snoops of a write** go to each sharer once, to one of them for the data if that is to be
forwarded. -/
theorem writeSnoops_perm (hbits : d.IsBitset) {fwds : Bool} {sharer : ℤ} {fwd inv : Transport}
    (hfwds : fwds = true → ∃ i ∈ d.theSharers, sharer = i) (hnone : fwds = false → sharer = -1)
    (hfwd : Party.ofSnoop fwd = [.cache sharer])
    (hinv : Party.ofSnoop inv = (d.getOtherSharers sharer).map fun i : ℕ => .cache i) :
    (((if fwds then [fwd] else []) ++ if !(fwds && d.oneSharer) then [inv] else []).flatMap
      Party.ofSnoop).Perm (d.getSharerList.map fun i : ℕ => .cache i) := by
  rcases hf : fwds with - | -
  · obtain rfl := hnone hf
    rw [d.getOtherSharers_neg_one] at hinv
    simp [hinv]
  · obtain ⟨i, hi, rfl⟩ := hfwds hf
    have hperm := d.getOtherSharers_perm hbits hi
    refine List.Perm.trans ?_ (hperm.map fun i : ℕ => Party.cache i).symm
    by_cases hone : d.oneSharer = true
    · -- the only sharer is the one that forwards
      have hlen := hperm.length_eq
      rw [d.length_getSharerList hbits, SimpleDirectoryState.countSharers,
        of_decide_eq_true hone, List.length_cons] at hlen
      rw [List.eq_nil_of_length_eq_zero (by omega : (d.getOtherSharers i).length = 0)]
      simp [hone, hfwd]
    · simp [hone, hfwd, hinv]

/-- **A write to a block that others share**. -/
theorem serveWrite_announces (h : s.serveWrite cfg p hasMaf a d c = .ok (s', p'))
    (hact : p'.action = .notifyAndWaitAck) (hbits : d.IsBitset)
    (hlist : p.transport.dest.multicastList = []) : Announces d p p' := by
  simp only [serveWrite] at h
  by_cases hn : d.noSharers = true
  · rw [if_pos hn] at h
    split at h
    · cases h
    · cases (accept_action h).symm.trans hact
  · rw [if_neg hn] at h
    have hne : d.theSharers ≠ ∅ := fun hc => hn (decide_eq_true hc)
    obtain ⟨-, h⟩ := Lib.of_ite_error_eq_ok h
    generalize (c == .invalid || (c == .exclusive && d.oneSharer)) = fwds at h
    have hp := accept_process h
    have hcount := d.length_getSharerList hbits
    refine announces_of_perm (by rw [hp]) (by rw [hp]) ?_ (congrArg Nat.cast hcount.symm)
      d.nodup_getSharerList ?_ fun i hi _ => (d.mem_getSharerList hbits).mpr hi
    · split
      · exact .inl rfl
      · exact .inr rfl
    · refine writeSnoops_perm hbits (fun hf => ?_) (fun hf => ?_) rfl ?_
      · rw [if_pos hf]
        exact pickSharer_mem hbits hne _
      · rw [hf]
        rfl
      · simp only [Party.ofSnoop, hlist, List.nil_append]

/-- **An upgrade of a block that others share**. -/
theorem serveUpgrade_announces (h : s.serveUpgrade cfg p hasMaf a d c = .ok (s', p'))
    (hact : p'.action = .notifyAndWaitAck) (hbits : d.IsBitset)
    (htype : p.transport.type = upgradeReq)
    (hsharer : d.isSharer p.transport.dest.requester = true)
    (hlist : p.transport.dest.multicastList = []) : Announces d p p' := by
  simp only [serveUpgrade] at h
  split at h
  · obtain ⟨-, h⟩ := Lib.of_ite_error_eq_ok h
    cases (accept_action h).symm.trans hact
  · have hp := accept_process h
    have hperm := d.getOtherSharers_perm hbits (of_decide_eq_true hsharer)
    have hlen := hperm.length_eq
    rw [d.length_getSharerList hbits, List.length_cons] at hlen
    have hnodup : (d.getOtherSharers p.transport.dest.requester).Nodup :=
      d.nodup_getSharerList.filter _
    refine announces_of_perm (by rw [hp]) (by rw [hp]) (.inl rfl) ?_ hnodup (.of_eq ?_)
      fun i hi hup => ?_
    · simp only [hlen]
      omega
    · simp [Party.ofSnoop, hlist]
    · have hmem := hperm.mem_iff.mp ((d.mem_getSharerList hbits).mpr hi)
      exact (List.mem_cons.mp hmem).resolve_left (hup htype)

/-- **What is announced to a write or an upgrade.** -/
theorem serve_announces (hdir : cfg.directory.lookup
      (cfg.directory.setProtected s.theDirectory a true) a = some d)
    (h : s.serve cfg p hasMaf mafWaiting found a = .ok (s', p'))
    (hact : p'.action = .notifyAndWaitAck) (hbits : d.IsBitset)
    (hlist : p.transport.dest.multicastList = [])
    (htype : p.transport.type = writeReq ∨ p.transport.type = upgradeReq) : Announces d p p' := by
  have hnas : p.transport.type ≠ nonAllocatingStoreReq := by
    rcases htype with h | h <;> rw [h] <;> decide
  simp only [serve] at h
  rw [if_neg fun hc => hnas hc.1] at h
  simp only [if_neg hnas, hdir, Option.getD_some] at h
  by_cases hrace : p.transport.type = upgradeReq ∧ d.isSharer p.transport.dest.requester = false
  · -- the upgrade has become a write, and its requester is none of the sharers
    have hraced : raced p d = { p with transport := { p.transport with type := writeReq } } :=
      if_pos hrace
    rw [hraced] at h
    have hwrite : Announces d { p with transport := { p.transport with type := writeReq } } p' := by
      split at h
      · rename_i hnone
        exact serveFromMemory_announces h hact (of_decide_eq_true hnone.1)
      · exact serveWrite_announces h hact hbits hlist
    obtain ⟨snoops, reply, hsnoops, hreply, hkind, hcount, hnodup, hall⟩ := hwrite
    exact ⟨snoops, reply, hsnoops, hreply, hkind, hcount, hnodup, fun i hi _ => hall i hi (by simp)⟩
  · have hraced : raced p d = p := if_neg hrace
    rw [hraced] at h
    split at h
    · rename_i hnone
      exact serveFromMemory_announces h hact (of_decide_eq_true hnone.1)
    · rcases htype with htype | htype
      · simp only [htype] at h
        exact serveWrite_announces h hact hbits hlist
      · have hsharer : d.isSharer p.transport.dest.requester = true := by
          rw [not_and, Bool.not_eq_false] at hrace
          exact hrace htype
        simp only [htype] at h
        exact serveUpgrade_announces h hact hbits htype hsharer hlist

/-- **The answers a write or an upgrade is told to wait for** are those of the snoops that are sent
with the notification, one for each destination. -/
theorem doRequest_announces {validDir : δ → Prop}
    (hdir : DirectoryLaws cfg.directory (IsBlock cfg) validDir) (hs : validDir s.theDirectory)
    (hbits : (s.recorded cfg (cfg.array.blockAddress p.transport.address)).IsBitset)
    (hlist : p.transport.dest.multicastList = [])
    (htype : p.transport.type = writeReq ∨ p.transport.type = upgradeReq)
    (h : s.doRequest cfg p hasMaf = .ok (s', p')) (hact : p'.action = .notifyAndWaitAck) :
    Announces (s.recorded cfg (cfg.array.blockAddress p.transport.address)) p p' := by
  have ha : IsBlock cfg (cfg.array.blockAddress p.transport.address) :=
    cfg.array.blockAddress_idem _
  have hevict : p.transport.type.isEvictType = false := by
    rcases htype with h | h <;> rw [h] <;> rfl
  have hnostall : ∀ {t : Policy δ γ} {a st},
      t.stallIn p hasMaf a st = .ok (s', p') → False := by
    intro t a st h
    obtain ⟨-, rfl, -⟩ := stallIn_spec h
    exact absurd hact nofun
  cases doRequest_passes h hevict with
  | waits _ h => exact (hnostall h).elim
  | redundant _ hp => exact absurd hact hp.2
  | writtenBack _ _ _ _ h => exact (hnostall h).elim
  | serves ht hu hsettled h =>
    refine serve_announces ?_ h hact hbits hlist htype
    rw [hdir.lookup_setProtected ha ha, hu.directory.1]
    refine (ht.lookup hdir hs ha).resolve_left ?_
    rcases htype with h | h <;> rw [h] <;> exact nofun

end Policy

/-- A bank with a block that two of three caches share. -/
def sharedByTwo : Policy (List DirEntry) (ℕ → ArraySet) :=
  { Policy.init (smallBank 3 1 true) with theDirectory := [⟨64, false, ⟨3, {0, 1}⟩⟩] }

/-- The third cache writes to the block: it is told to wait for two messages. -/
theorem sharedByTwo_announces : ∃ s' p',
    sharedByTwo.doRequest (smallBank 3 1 true)
      { type := .request, transport := message writeReq 64 2 } false = .ok (s', p') ∧
    (p'.replyTransport.map Transport.outstandingMsgs) = some 2 ∧
    Announces ⟨3, {0, 1}⟩ { type := .request, transport := message writeReq 64 2 } p' := by
  obtain ⟨s', p', h, hact, hcount⟩ : ∃ s' p', sharedByTwo.doRequest (smallBank 3 1 true)
      { type := .request, transport := message writeReq 64 2 } false = .ok (s', p') ∧
      p'.action = .notifyAndWaitAck ∧
      (p'.replyTransport.map Transport.outstandingMsgs) = some 2 := ⟨_, _, rfl, rfl, rfl⟩
  have hbits : (sharedByTwo.recorded (smallBank 3 1 true)
      ((smallBank 3 1 true).array.blockAddress (message writeReq 64 2).address)).IsBitset :=
    show ∀ i ∈ ({0, 1} : Finset ℕ), i < 3 by decide
  exact ⟨s', p', h, hcount, Policy.doRequest_announces (infiniteDirectory_laws _) trivial hbits rfl
    (.inl rfl) h hact⟩

end CMPCache

end Flexus
