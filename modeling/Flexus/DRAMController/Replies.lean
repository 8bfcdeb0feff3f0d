import Flexus.DRAMController.Controller
import Flexus.Lib.Outcome
import Mathlib.Data.List.Nodup

/-!
# Replies of the DRAM controller

A transport is found again by the address of its transaction, so what matters is which transactions
of one address there are at a time. As long as a message comes in for an address only while nothing
is outstanding there, or while the eviction of a dirty block is that will not be acknowledged, all
is well: the two lists of the controller then hold exactly the transports of the transactions that
the DRAM model has, in each list one for an address, and of two the first one is in the first list
(`Flexus.DRAMController.Inv`).

A request that comes in while the eviction of its block is still to be acknowledged is not put away:
the type that is looked at is that of the acknowledgement.
-/

namespace Flexus

open Function Lib List

namespace DRAMController

/-! ### What is asked of the surroundings -/

/-- Evictions that are not reported to the DRAM model. -/
def isCleanEviction : MemoryMessageType → Bool
  | .evictWritable | .evictClean => true
  | _ => false

/-- The block of a message. -/
def DramTransport.block (t : DramTransport) : BitVec 64 := BitVec.ofNat 64 t.address >>> 6

/-- A dirty block is evicted, and nobody waits for it. -/
def DramTransport.unacknowledged (t : DramTransport) : Bool :=
  isDirtyEviction t.type && !t.ackRequired

/-- **A reply is needed**: to all but evictions, and to an eviction that asks for one. -/
def DramTransport.needsReply (t : DramTransport) : Bool :=
  !(isDirtyEviction t.type || isCleanEviction t.type) || t.ackRequired

/-- **The surroundings**: there is at most one request for a block at a time, other than evictions,
and a dirty block is evicted when nothing of it is outstanding; the DRAM model completes the
transactions of an address in their order, in later cycles than they were added in; and then there
is room for a reply. -/
def Allows (cfg : DramConfig) (s : DramSystem) : DramEvent → Prop
  | .push t =>
    (isDirtyEviction t.type = true → ∀ x ∈ s.outstanding, x.request.block ≠ t.block) ∧
      (isDirtyEviction t.type = false → isCleanEviction t.type = false →
        ∀ x ∈ s.outstanding, x.request.block = t.block → isDirtyEviction x.request.type = true)
  | .complete n =>
    s.controller.outQueue.length < cfg.MaxReplies ∧
      ∃ x ∈ s.outstanding[n]?, x.cycle < s.cycleCount ∧
        ∀ y ∈ s.outstanding.take n, y.transaction.address ≠ x.transaction.address
  | .send | .tick => True

/-- **When all is well**: a message is of a type that is meant for the memory; a clean eviction does
not ask for an acknowledgement; and what is outstanding at the address of a transaction that is
added are evictions of dirty blocks that are not acknowledged, and it is not such an eviction
itself. -/
def Orderly (cfg : DramConfig) (s : DramSystem) : DramEvent → Prop
  | .push t =>
    (cfg.transactionFor t).isOk = true ∧
      (isCleanEviction t.type = true → t.ackRequired = false) ∧
      (isCleanEviction t.type = false → ∀ x ∈ s.outstanding,
        x.transaction.address = cfg.transactionAddress t →
          x.request.unacknowledged = true ∧ t.unacknowledged = false)
  | _ => True

instance (cfg : DramConfig) (s : DramSystem) (e : DramEvent) : Decidable (Allows cfg s e) :=
  match e with
  | .push _ | .complete _ => inferInstanceAs (Decidable (_ ∧ _))
  | .send | .tick => .isTrue trivial

instance (cfg : DramConfig) (s : DramSystem) (e : DramEvent) : Decidable (Orderly cfg s e) :=
  match e with
  | .push _ => inferInstanceAs (Decidable (_ ∧ _))
  | .complete _ | .send | .tick => .isTrue trivial

/-! ### What is put away for a message -/

/-- The transport that is put away for a message. -/
def DramConfig.carriedFor (cfg : DramConfig) (t : DramTransport) : DramTransport :=
  match cfg.transactionFor t with
  | .ok (some (_, r)) => r
  | _ => t

/-- The transport that is put away for a transaction. -/
def Submitted.carried (cfg : DramConfig) (x : Submitted) : TimestampedTransport :=
  ⟨cfg.carriedFor x.request, x.cycle⟩

section Messages

variable {cfg : DramConfig} {t r : DramTransport} {op : TransactionType}

theorem not_isDirtyEviction_fetchReply : isDirtyEviction cfg.theFetchReplyType = false := by
  rw [DramConfig.theFetchReplyType]
  split <;> rfl

theorem request_spec {type reply : MemoryMessageType} {n : ℕ} (ht : t.type = type)
    (hclean : isCleanEviction type = false) (hdirty : isDirtyEviction type = false)
    (hreply : isDirtyEviction reply = false) : isCleanEviction t.type = false ∧
      (t.set reply n).theTracker = t.theTracker ∧ (t.set reply n).dest = t.dest ∧
      isDirtyEviction (t.set reply n).type = t.unacknowledged ∧
      t.needsReply = !t.unacknowledged ∧ (op = .dataRead → t.unacknowledged = false) := by
  have hun : t.unacknowledged = false := by
    rw [DramTransport.unacknowledged, ht, hdirty, Bool.false_and]
  refine ⟨ht ▸ hclean, rfl, rfl, hreply.trans hun.symm, ?_, fun _ => hun⟩
  rw [hun, DramTransport.needsReply, ht, hdirty, hclean]
  rfl

theorem eviction_spec {type : MemoryMessageType} (ht : t.type = type)
    (hclean : isCleanEviction type = false) (hdirty : isDirtyEviction type = true)
    (hr : r = if t.ackRequired then t.set .evictAck 0 else t) :
    isCleanEviction t.type = false ∧ r.theTracker = t.theTracker ∧ r.dest = t.dest ∧
      isDirtyEviction r.type = t.unacknowledged ∧ t.needsReply = !t.unacknowledged ∧
      (TransactionType.dataWrite = .dataRead → t.unacknowledged = false) := by
  have hun : t.unacknowledged = !t.ackRequired := by
    rw [DramTransport.unacknowledged, ht, hdirty, Bool.true_and]
  have hneeds : t.needsReply = !t.unacknowledged := by
    rw [hun, DramTransport.needsReply, ht, hdirty, Bool.not_not]
    rfl
  rw [hr]
  rcases Bool.eq_false_or_eq_true t.ackRequired with hack | hack
  · rw [if_pos hack]
    exact ⟨ht ▸ hclean, rfl, rfl, by rw [hun, hack]; rfl, hneeds, nofun⟩
  · rw [if_neg (by rw [hack]; exact Bool.false_ne_true)]
    exact ⟨ht ▸ hclean, rfl, rfl, by rw [hun, hack, ht, hdirty]; rfl, hneeds, nofun⟩

/-- **A transaction for a message**: it is not a clean eviction; what is put away is on the same
transport, and of the type of an eviction if and only if no reply is needed. -/
theorem transactionFor_spec (h : cfg.transactionFor t = .ok (some (op, r))) :
    isCleanEviction t.type = false ∧ r.theTracker = t.theTracker ∧ r.dest = t.dest ∧
      isDirtyEviction r.type = t.unacknowledged ∧ t.needsReply = !t.unacknowledged ∧
      (op = .dataRead → t.unacknowledged = false) := by
  rw [DramConfig.transactionFor] at h
  split at h
  case h_2 heq =>
    cases h
    exact request_spec heq rfl rfl not_isDirtyEviction_fetchReply
  all_goals cases h
  all_goals
    rename_i heq
    first
    | exact request_spec heq rfl rfl rfl
    | exact eviction_spec heq rfl rfl rfl

theorem isCleanEviction_of_none (h : cfg.transactionFor t = .ok none) :
    isCleanEviction t.type = true := by
  rw [DramConfig.transactionFor] at h
  split at h
  all_goals cases h
  all_goals
    rename_i heq
    rw [heq]
    rfl

end Messages

/-! ### The lists -/

section Lists

variable {cfg : DramConfig} {m : MessageMap} {x y : TimestampedTransport} {a b : BitVec 64}

/-- **`insert`** stops if the list is full, and goes well if the address is free otherwise. -/
theorem insert_spec (h : m.theQueue a = none) :
    m.insert x a = .error .noSpace ∨ m.insert x a = .ok { m with
      theQueue := update m.theQueue a (some x)
      theCurrentUsage := m.theCurrentUsage + 1 } := by
  rw [MessageMap.insert, h]
  split
  · exact .inl rfl
  · exact .inr rfl

/-- **`remove`** gives what is there, and leaves the other addresses alone. -/
theorem remove_spec (h : m.theQueue a = some x) (hpos : 0 < m.theCurrentUsage) :
    m.remove a = .ok ({ m with
      theQueue := update m.theQueue a none
      theCurrentUsage := m.theCurrentUsage - 1 }, x) := by
  rw [MessageMap.remove, if_neg (not_not.mpr hpos), h]

/-- **A list holds the transports of some transactions**: there is one for each of them, and no
other, and as many as are counted. -/
structure Holds (cfg : DramConfig) (m : MessageMap) (xs : List Submitted) : Prop where
  usage : m.theCurrentUsage = xs.length
  nodup : (xs.map fun x => x.transaction.address).Nodup
  filed : ∀ x ∈ xs, m.theQueue x.transaction.address = some (x.carried cfg)
  only : ∀ a, (∀ x ∈ xs, x.transaction.address ≠ a) → m.theQueue a = none

variable {xs ys : List Submitted} {z : Submitted}

theorem Holds.insert (h : Holds cfg m xs) (hfree : m.theQueue z.transaction.address = none) :
    Holds cfg { m with
      theQueue := update m.theQueue z.transaction.address (some (z.carried cfg))
      theCurrentUsage := m.theCurrentUsage + 1 } (xs ++ [z]) := by
  have hne : ∀ w ∈ xs, w.transaction.address ≠ z.transaction.address := by
    intro w hw heq
    rw [← heq, h.filed w hw] at hfree
    cases hfree
  constructor
  · rw [length_append, h.usage]
    rfl
  · rw [map_append, nodup_append]
    refine ⟨h.nodup, nodup_singleton _, ?_⟩
    intro u hu v hv
    obtain ⟨w, hw, rfl⟩ := mem_map.mp hu
    obtain rfl := mem_singleton.mp hv
    exact hne w hw
  · intro w hw
    rcases mem_append.mp hw with hw | hw
    · exact (update_of_ne (hne w hw) _ _).trans (h.filed w hw)
    · obtain rfl := mem_singleton.mp hw
      exact update_self ..
  · intro a ha
    have haz : a ≠ z.transaction.address :=
      (ha z (mem_append_right _ (mem_singleton_self z))).symm
    exact (update_of_ne haz _ _).trans
      (h.only a fun w hw => ha w (mem_append_left _ hw))

theorem Holds.remove (h : Holds cfg m (xs ++ z :: ys)) :
    Holds cfg { m with
      theQueue := update m.theQueue z.transaction.address none
      theCurrentUsage := m.theCurrentUsage - 1 } (xs ++ ys) := by
  have hsub : List.Sublist (xs ++ ys) (xs ++ z :: ys) :=
    (List.Sublist.refl xs).append (sublist_cons_self z ys)
  have hperm : (xs ++ z :: ys).Perm (z :: (xs ++ ys)) := perm_middle
  have hnodup := (hperm.map fun x => x.transaction.address).nodup h.nodup
  rw [map_cons, nodup_cons] at hnodup
  have hne : ∀ w ∈ xs ++ ys, w.transaction.address ≠ z.transaction.address := by
    intro w hw heq
    exact hnodup.1 (mem_map.mpr ⟨w, hw, heq⟩)
  constructor
  · rw [h.usage, hperm.length_eq, length_cons, Nat.add_sub_cancel]
  · exact hnodup.2
  · intro w hw
    exact (update_of_ne (hne w hw) _ _).trans (h.filed w (hsub.subset hw))
  · intro a ha
    by_cases haz : a = z.transaction.address
    · rw [haz]
      exact update_self ..
    · refine (update_of_ne haz _ _).trans (h.only a fun w hw => ?_)
      rcases mem_cons.mp (hperm.subset hw) with rfl | hw
      · exact Ne.symm haz
      · exact ha w hw

end Lists

/-! ### The invariant -/

/-- **The invariant**: each of the two lists holds the transports of its transactions; of two
transactions for an address, the first one is in the first list, and the other one in the second; an
eviction that is not acknowledged is in the first list. -/
structure Inv (cfg : DramConfig) (s : DramSystem) : Prop where
  pending : Holds cfg s.controller.pendingList (s.outstanding.filter fun x => !x.inEvicted)
  evicted : Holds cfg s.controller.evictedList (s.outstanding.filter fun x => x.inEvicted)
  order : s.outstanding.Pairwise fun x y => x.transaction.address = y.transaction.address →
    x.inEvicted = false ∧ y.inEvicted = true
  first : ∀ x ∈ s.outstanding, x.request.unacknowledged = true → x.inEvicted = false
  submitted : ∀ x ∈ s.outstanding,
    cfg.transactionFor x.request =
      .ok (some (x.transaction.transactionType, cfg.carriedFor x.request))
  placed : ∀ x ∈ s.outstanding, x.transaction.address = cfg.transactionAddress x.request

/-- **What has happened**: every message that is not a clean eviction has had one transaction, which
is completed or outstanding; for each that is completed its own transport has been taken out; and
those that need a reply have had one, in this order. -/
structure Answered (cfg : DramConfig) (s : DramSystem) : Prop where
  once : ((s.completed ++ s.outstanding).map Submitted.request).Perm
    (s.pushed.filter fun t => !isCleanEviction t.type)
  needed : (((s.completed ++ s.outstanding).map Submitted.request).filter
    DramTransport.needsReply).Perm (s.pushed.filter DramTransport.needsReply)
  removed : s.removed = s.completed.map (Submitted.carried cfg)
  replies : s.replies =
    (s.completed.filter fun x => x.request.needsReply).map (Submitted.carried cfg)
  own : ∀ x ∈ s.completed, (x.carried cfg).theTracker = x.request.theTracker ∧
    (x.carried cfg).dest = x.request.dest

section Steps

variable {cfg : DramConfig} {s s' : DramSystem} {t : DramTransport} {n : ℕ}

theorem carriedFor_eq {op : TransactionType} {r : DramTransport}
    (h : cfg.transactionFor t = .ok (some (op, r))) : cfg.carriedFor t = r := by
  rw [DramConfig.carriedFor, h]

theorem Inv.submit (h : Inv cfg s) {c : Controller} {x : Submitted} {pushed : List DramTransport}
    (hpending : Holds cfg c.pendingList ((s.outstanding ++ [x]).filter fun x => !x.inEvicted))
    (hevicted : Holds cfg c.evictedList ((s.outstanding ++ [x]).filter fun x => x.inEvicted))
    (horder : ∀ y ∈ s.outstanding, y.transaction.address = x.transaction.address →
      y.inEvicted = false ∧ x.inEvicted = true)
    (hfirst : x.request.unacknowledged = true → x.inEvicted = false)
    (hsubmitted : cfg.transactionFor x.request =
      .ok (some (x.transaction.transactionType, cfg.carriedFor x.request)))
    (hplaced : x.transaction.address = cfg.transactionAddress x.request) :
    Inv cfg { s with controller := c, outstanding := s.outstanding ++ [x], pushed } := by
  refine ⟨hpending, hevicted, ?_, ?_, ?_, ?_⟩
  · rw [pairwise_append]
    refine ⟨h.order, pairwise_singleton _ _, ?_⟩
    intro y hy z hz
    obtain rfl := mem_singleton.mp hz
    exact horder y hy
  · intro y hy
    rcases mem_append.mp hy with hy | hy
    · exact h.first y hy
    · obtain rfl := mem_singleton.mp hy
      exact hfirst
  · intro y hy
    rcases mem_append.mp hy with hy | hy
    · exact h.submitted y hy
    · obtain rfl := mem_singleton.mp hy
      exact hsubmitted
  · intro y hy
    rcases mem_append.mp hy with hy | hy
    · exact h.placed y hy
    · obtain rfl := mem_singleton.mp hy
      exact hplaced

theorem Holds.exists_of_some {m : MessageMap} {xs : List Submitted} (h : Holds cfg m xs)
    {a : BitVec 64} {y : TimestampedTransport} (hy : m.theQueue a = some y) :
    ∃ x ∈ xs, x.transaction.address = a ∧ x.carried cfg = y := by
  by_contra hno
  have hnone := h.only a fun x hx ha => hno ⟨x, hx, ha, by
    have hfiled := h.filed x hx
    rw [ha, hy] at hfiled
    exact (Option.some.inj hfiled).symm⟩
  rw [hnone] at hy
  cases hy

/-- The type of the message that is put away for a transaction. -/
theorem Inv.isDirtyEviction_carried (h : Inv cfg s) {x : Submitted} (hx : x ∈ s.outstanding) :
    isDirtyEviction (x.carried cfg).type = x.request.unacknowledged :=
  (transactionFor_spec (h.submitted x hx)).2.2.2.1

/-- **What a message leads to**: nothing, if it is a clean eviction; otherwise a transaction is
added, and its transport put away in a list in which its address is free. -/
theorem Inv.push (h : Inv cfg s) (ho : Orderly cfg s (.push t)) :
    (isCleanEviction t.type = true ∧ s.push cfg t = .ok { s with pushed := s.pushed ++ [t] }) ∨
      s.push cfg t = .error .noSpace ∨
      ∃ (c : Controller) (x : Submitted), x.request = t ∧ isCleanEviction t.type = false ∧
        s.push cfg t = .ok { s with
          controller := c, outstanding := s.outstanding ++ [x], pushed := s.pushed ++ [t] } ∧
        Inv cfg { s with
          controller := c, outstanding := s.outstanding ++ [x], pushed := s.pushed ++ [t] } := by
  obtain ⟨hknown, -, hsame⟩ := ho
  rw [DramSystem.push, Controller.push]
  rcases htrans : cfg.transactionFor t with f | _ | ⟨op, r⟩
  · rw [htrans] at hknown
    cases hknown
  · exact .inl ⟨isCleanEviction_of_none htrans, rfl⟩
  refine .inr ?_
  have hclean := (transactionFor_spec htrans).1
  replace hsame := hsame hclean
  have hcarried := carriedFor_eq htrans
  rcases hpend : s.controller.pendingList.isPending (cfg.transactionAddress t) with _ | aType
  · -- nothing is outstanding at the address: the transport goes into the first list
    have hfree : s.controller.pendingList.theQueue (cfg.transactionAddress t) = none :=
      Option.map_eq_none_iff.mp hpend
    let x : Submitted := ⟨t, ⟨op, cfg.transactionAddress t⟩, s.cycleCount, false⟩
    have hx : x.carried cfg = ⟨r, s.cycleCount⟩ := by rw [Submitted.carried, hcarried]
    have hholds := Holds.insert h.pending (z := x) hfree
    simp only [bind, Except.bind, hpend]
    rcases insert_spec hfree with hinsert | hinsert
    · rw [hinsert]
      exact .inl rfl
    · rw [hinsert]
      refine .inr ⟨_, x, rfl, hclean, rfl, h.submit ?_ ?_ ?_ (fun _ => rfl) (hcarried ▸ htrans) rfl⟩
      · rw [filter_append]
        exact hx ▸ hholds
      · rw [filter_append]
        exact (append_nil _).symm ▸ h.evicted
      · intro y hy ha
        have hy0 := h.first y hy (hsame y hy ha).1
        have hfiled := h.pending.filed y (mem_filter.mpr ⟨hy, by rw [hy0]; rfl⟩)
        rw [show y.transaction.address = cfg.transactionAddress t from ha, hfree] at hfiled
        cases hfiled
  · -- what is outstanding there is an eviction: the transport goes into the second list
    obtain ⟨m, hm, rfl⟩ := Option.map_eq_some_iff.mp hpend
    obtain ⟨y, hy, hya, rfl⟩ := h.pending.exists_of_some hm
    have hymem := mem_of_mem_filter hy
    obtain ⟨hyun, htun⟩ := hsame y hymem hya
    have hdirty : isDirtyEviction (y.carried cfg).type = true :=
      (h.isDirtyEviction_carried hymem).trans hyun
    have hfree : s.controller.evictedList.theQueue (cfg.transactionAddress t) = none := by
      refine h.evicted.only _ fun z hz hza => ?_
      obtain ⟨hzmem, hz1⟩ := mem_filter.mp hz
      rw [h.first z hzmem (hsame z hzmem hza).1] at hz1
      cases hz1
    let x : Submitted := ⟨t, ⟨op, cfg.transactionAddress t⟩, s.cycleCount, true⟩
    have hx : x.carried cfg = ⟨r, s.cycleCount⟩ := by rw [Submitted.carried, hcarried]
    have hholds := Holds.insert h.evicted (z := x) hfree
    simp only [bind, Except.bind, hpend, hdirty, not_true_eq_false, if_false]
    rcases insert_spec hfree with hinsert | hinsert
    · rw [hinsert]
      exact .inl rfl
    · rw [hinsert]
      refine .inr ⟨_, x, rfl, hclean, rfl, h.submit ?_ ?_ ?_ ?_ (hcarried ▸ htrans) rfl⟩
      · rw [filter_append]
        exact (append_nil _).symm ▸ h.pending
      · rw [filter_append]
        exact hx ▸ hholds
      · intro z hz ha
        exact ⟨h.first z hz (hsame z hz ha).1, rfl⟩
      · intro hun
        rw [htun] at hun
        cases hun

/-- **A completion** of which the transport is in the first list. -/
theorem complete_first {c : Controller} {now : ℕ} {tr : Transaction} {m : TimestampedTransport}
    (hroom : c.outQueue.length < cfg.MaxReplies)
    (hm : c.pendingList.theQueue tr.address = some m) (hpos : 0 < c.pendingList.theCurrentUsage)
    (hcycle : m.cycle < now)
    (hread : tr.transactionType = .dataRead → isDirtyEviction m.type = false) :
    c.complete cfg now tr = .ok ({ c with
      pendingList := { c.pendingList with
        theQueue := update c.pendingList.theQueue tr.address none
        theCurrentUsage := c.pendingList.theCurrentUsage - 1 }
      outQueue := c.outQueue ++ if isDirtyEviction m.type then [] else [m] }, m) := by
  have hpend : c.pendingList.isPending tr.address = some m.type := by
    rw [MessageMap.isPending, hm]
    rfl
  have hremove := remove_spec hm hpos
  rw [Controller.complete]
  rcases htype : tr.transactionType with _ | _
  · simp only [Controller.read_complete, hroom, hpend, hremove, hcycle, hread htype,
      not_true_eq_false, if_false, bind, Except.bind, Bool.false_eq_true]
  · simp only [Controller.write_complete, hroom, hpend, hremove, hcycle, not_true_eq_false,
      if_false, bind, Except.bind]
    split
    · rw [append_nil]
    · rfl

/-- A completion of which the transport is in the second list. -/
theorem complete_second {c : Controller} {now : ℕ} {tr : Transaction} {m : TimestampedTransport}
    (hroom : c.outQueue.length < cfg.MaxReplies)
    (hfree : c.pendingList.theQueue tr.address = none)
    (hm : c.evictedList.theQueue tr.address = some m) (hpos : 0 < c.evictedList.theCurrentUsage)
    (hcycle : m.cycle < now) (hdirty : isDirtyEviction m.type = false) :
    c.complete cfg now tr = .ok ({ c with
      evictedList := { c.evictedList with
        theQueue := update c.evictedList.theQueue tr.address none
        theCurrentUsage := c.evictedList.theCurrentUsage - 1 }
      outQueue := c.outQueue ++ [m] }, m) := by
  have hnone : c.pendingList.isPending tr.address = none := by
    rw [MessageMap.isPending, hfree]
    rfl
  have hpend : c.evictedList.isPending tr.address = some m.type := by
    rw [MessageMap.isPending, hm]
    rfl
  have hremove := remove_spec hm hpos
  rw [Controller.complete]
  rcases tr.transactionType with _ | _
  · simp only [Controller.read_complete, hroom, hnone, hpend, hremove, hcycle, hdirty,
      not_true_eq_false, if_false, bind, Except.bind, Bool.false_eq_true]
  · simp only [Controller.write_complete, hroom, hnone, hpend, hremove, hcycle, hdirty,
      not_true_eq_false, if_false, bind, Except.bind, Bool.false_eq_true]

/-- **What a completion leads to**: the transport of the transaction is taken out, and put into the
queue if it needs a reply. -/
theorem Inv.complete (h : Inv cfg s) (ha : Allows cfg s (.complete n)) :
    ∃ (c : Controller) (x : Submitted) (l₁ l₂ : List Submitted),
      s.outstanding = l₁ ++ x :: l₂ ∧ c.outQueue = s.controller.outQueue ++
        (if x.request.needsReply then [x.carried cfg] else []) ∧
      s.complete cfg n = .ok { s with
        controller := c, outstanding := l₁ ++ l₂, completed := s.completed ++ [x]
        removed := s.removed ++ [x.carried cfg]
        replies := s.replies ++ c.outQueue.drop s.controller.outQueue.length } ∧
      Holds cfg c.pendingList ((l₁ ++ l₂).filter fun x => !x.inEvicted) ∧
      Holds cfg c.evictedList ((l₁ ++ l₂).filter fun x => x.inEvicted) := by
  obtain ⟨hroom, x, hget, hcycle, hfirst⟩ := ha
  rw [Option.mem_def] at hget
  obtain ⟨hn, hxn⟩ := List.getElem?_eq_some_iff.mp hget
  have hsplit : s.outstanding = s.outstanding.take n ++ x :: s.outstanding.drop (n + 1) := by
    rw [← hxn, List.getElem_cons_drop, take_append_drop]
  have hmem : x ∈ s.outstanding := hxn ▸ List.getElem_mem hn
  have herase := eraseIdx_eq_take_drop_succ s.outstanding n
  have hdirty := h.isDirtyEviction_carried hmem
  obtain ⟨-, -, -, -, hneeds, hread⟩ := transactionFor_spec (h.submitted x hmem)
  have horder := h.order
  rw [hsplit, pairwise_append, pairwise_cons] at horder
  rw [DramSystem.complete, hget]
  have hpending := h.pending
  have hevicted := h.evicted
  rw [hsplit, filter_append, filter_cons] at hpending hevicted
  rcases hin : x.inEvicted with _ | _
  · rw [if_pos (by rw [hin]; rfl)] at hpending
    rw [if_neg (by rw [hin]; exact Bool.false_ne_true)] at hevicted
    have hpos : 0 < s.controller.pendingList.theCurrentUsage := by
      rw [hpending.usage, length_append, length_cons]
      omega
    have hm := hpending.filed x (mem_append_right _ mem_cons_self)
    have hcomplete := complete_first hroom hm hpos hcycle fun ht => hdirty.trans (hread ht)
    simp only [hcomplete, bind, Except.bind]
    refine ⟨_, x, _, _, hsplit, ?_, by rw [herase], ?_, ?_⟩
    · rw [hdirty, hneeds]
      cases x.request.unacknowledged <;> rfl
    · rw [filter_append]
      exact hpending.remove
    · rw [filter_append]
      exact hevicted
  · rw [if_neg (by rw [hin]; exact Bool.false_ne_true)] at hpending
    rw [if_pos hin] at hevicted
    have hpos : 0 < s.controller.evictedList.theCurrentUsage := by
      rw [hevicted.usage, length_append, length_cons]
      omega
    have hm := hevicted.filed x (mem_append_right _ mem_cons_self)
    -- the eviction that was there before it has been completed
    have hfree : s.controller.pendingList.theQueue x.transaction.address = none := by
      refine hpending.only _ fun y hy hya => ?_
      rcases mem_append.mp hy with hy | hy
      · exact hfirst y (mem_of_mem_filter hy) hya
      · have hx0 := (horder.2.1.1 y (mem_of_mem_filter hy) hya.symm).1
        rw [hin] at hx0
        cases hx0
    have hun : x.request.unacknowledged = false := by
      rcases hun : x.request.unacknowledged with _ | _
      · rfl
      · have hx0 := h.first x hmem hun
        rw [hin] at hx0
        cases hx0
    have hcomplete := complete_second hroom hfree hm hpos hcycle (hdirty.trans hun)
    simp only [hcomplete, bind, Except.bind]
    refine ⟨_, x, _, _, hsplit, ?_, by rw [herase], ?_, ?_⟩
    · rw [hneeds, hun]
      rfl
    · rw [filter_append]
      exact hpending
    · rw [filter_append]
      exact hevicted.remove

/-- The invariant is about the two lists and the transactions only. -/
theorem Inv.of_same (h : Inv cfg s) (hp : s'.controller.pendingList = s.controller.pendingList)
    (he : s'.controller.evictedList = s.controller.evictedList)
    (hl : s'.outstanding = s.outstanding) : Inv cfg s' := by
  constructor
  · rw [hp, hl]
    exact h.pending
  · rw [he, hl]
    exact h.evicted
  · exact hl ▸ h.order
  · exact hl ▸ h.first
  · exact hl ▸ h.submitted
  · exact hl ▸ h.placed

theorem Inv.of_removed (h : Inv cfg s) {l₁ l₂ : List Submitted} {x : Submitted}
    (hsplit : s.outstanding = l₁ ++ x :: l₂) {c : Controller}
    (hpending : Holds cfg c.pendingList ((l₁ ++ l₂).filter fun x => !x.inEvicted))
    (hevicted : Holds cfg c.evictedList ((l₁ ++ l₂).filter fun x => x.inEvicted))
    (hc : s'.controller = c) (hl : s'.outstanding = l₁ ++ l₂) : Inv cfg s' := by
  have hsub : List.Sublist s'.outstanding s.outstanding := by
    rw [hl, hsplit]
    exact (List.Sublist.refl l₁).append (sublist_cons_self x l₂)
  refine ⟨?_, ?_, h.order.sublist hsub, fun y hy => h.first y (hsub.subset hy),
    fun y hy => h.submitted y (hsub.subset hy), fun y hy => h.placed y (hsub.subset hy)⟩
  · rw [hc, hl]
    exact hpending
  · rw [hc, hl]
    exact hevicted

/-- A message that leads to a transaction has not been answered yet. -/
theorem Answered.submit (h : Answered cfg s) {c : Controller} {x : Submitted}
    (hx : x.request = t) (hclean : isCleanEviction t.type = false) :
    Answered cfg { s with
      controller := c, outstanding := s.outstanding ++ [x], pushed := s.pushed ++ [t] } := by
  subst hx
  refine ⟨?_, ?_, h.removed, h.replies, h.own⟩
  · rw [← append_assoc, map_append, filter_append, filter_cons_of_pos (by rw [hclean]; rfl)]
    exact h.once.append_right _
  · rw [← append_assoc, map_append, filter_append, filter_append]
    exact h.needed.append_right _

theorem Answered.ignore (h : Answered cfg s) (hclean : isCleanEviction t.type = true)
    (hack : t.ackRequired = false) : Answered cfg { s with pushed := s.pushed ++ [t] } := by
  have hneeds : t.needsReply = false := by
    rw [DramTransport.needsReply, hclean, hack, Bool.or_true]
    rfl
  refine ⟨?_, ?_, h.removed, h.replies, h.own⟩
  · rw [filter_append, filter_cons_of_neg (by rw [hclean]; exact Bool.false_ne_true),
      filter_nil, append_nil]
    exact h.once
  · rw [filter_append, filter_cons_of_neg (by rw [hneeds]; exact Bool.false_ne_true),
      filter_nil, append_nil]
    exact h.needed

/-- **A transaction is answered** with its own transport. -/
theorem Answered.answer (h : Answered cfg s) {l₁ l₂ : List Submitted} {x : Submitted}
    (hsplit : s.outstanding = l₁ ++ x :: l₂) {c : Controller}
    (hsubmitted : cfg.transactionFor x.request =
      .ok (some (x.transaction.transactionType, cfg.carriedFor x.request)))
    (hqueue : c.outQueue = s.controller.outQueue ++
      if x.request.needsReply then [x.carried cfg] else []) :
    Answered cfg { s with
      controller := c, outstanding := l₁ ++ l₂, completed := s.completed ++ [x]
      removed := s.removed ++ [x.carried cfg]
      replies := s.replies ++ c.outQueue.drop s.controller.outQueue.length } := by
  have hperm : (s.completed ++ [x] ++ (l₁ ++ l₂)).Perm (s.completed ++ s.outstanding) := by
    rw [hsplit, append_assoc, singleton_append]
    exact perm_middle.symm.append_left s.completed
  obtain ⟨-, htracker, hdest, -⟩ := transactionFor_spec hsubmitted
  refine ⟨(hperm.map _).trans h.once, ((hperm.map _).filter _).trans h.needed, ?_, ?_, ?_⟩
  · rw [map_append, h.removed]
    rfl
  · rw [hqueue, drop_left, h.replies, filter_append, map_append, filter_cons]
    split <;> rfl
  · intro y hy
    rcases mem_append.mp hy with hy | hy
    · exact h.own y hy
    · obtain rfl := mem_singleton.mp hy
      exact ⟨htracker, hdest⟩

/-- **What a step preserves**, and how it can fail. -/
theorem step_preserves {e : DramEvent} (hi : Inv cfg s) (hans : Answered cfg s)
    (ha : Allows cfg s e) (ho : Orderly cfg s e) :
    s.step cfg e = .error .noSpace ∨
      ∃ s', s.step cfg e = .ok s' ∧ Inv cfg s' ∧ Answered cfg s' := by
  rcases e with t | n | _ | _
  · rcases hi.push ho with ⟨hclean, hpush⟩ | hpush | ⟨c, x, hx, hclean, hpush, hi'⟩
    · exact .inr ⟨_, hpush, hi.of_same rfl rfl rfl, hans.ignore hclean (ho.2.1 hclean)⟩
    · exact .inl hpush
    · exact .inr ⟨_, hpush, hi', hans.submit hx hclean⟩
  · obtain ⟨c, x, l₁, l₂, hsplit, hqueue, hcomplete, hpending, hevicted⟩ := hi.complete ha
    have hmem : x ∈ s.outstanding := by
      rw [hsplit]
      exact mem_append_right _ mem_cons_self
    exact .inr ⟨_, hcomplete, hi.of_removed hsplit hpending hevicted rfl rfl,
      hans.answer hsplit (hi.submitted x hmem) hqueue⟩
  · exact .inr ⟨_, rfl, hi.of_same rfl rfl rfl,
      ⟨hans.once, hans.needed, hans.removed, hans.replies, hans.own⟩⟩
  · exact .inr ⟨_, rfl, hi.of_same rfl rfl rfl,
      ⟨hans.once, hans.needed, hans.removed, hans.replies, hans.own⟩⟩

end Steps

/-! ### Runs -/

section Runs

variable {cfg : DramConfig} {s : DramSystem}

theorem holds_nil {n : ℕ} : Holds cfg ⟨fun _ => none, n, 0⟩ [] where
  usage := rfl
  nodup := nodup_nil
  filed := forall_mem_nil _
  only := fun _ _ => rfl

theorem inv_init : Inv cfg (dram cfg).init where
  pending := holds_nil
  evicted := holds_nil
  order := .nil
  first := forall_mem_nil _
  submitted := forall_mem_nil _
  placed := forall_mem_nil _

theorem answered_init : Answered cfg (dram cfg).init where
  once := .nil
  needed := .nil
  removed := rfl
  replies := rfl
  own := forall_mem_nil _

theorem ReachableWhen.inv
    (h : (dram cfg).ReachableWhen (fun s e => Allows cfg s e ∧ Orderly cfg s e) s) :
    Inv cfg s ∧ Answered cfg s := by
  refine h.invariant (I := fun s => Inv cfg s ∧ Answered cfg s) ⟨inv_init, answered_init⟩ ?_
  rintro s e t ⟨hi, hans⟩ ⟨ha, ho⟩ hs
  rcases step_preserves hi hans ha ho with hfail | ⟨u, hu, hinv⟩
  · cases hfail.symm.trans hs
  · cases hu.symm.trans hs
    exact hinv

/-- **Every reply goes to its own request**, as long as what comes in for an address comes after all
that was there before, other than evictions that are not acknowledged: and then only the size of a
list makes a step fail. -/
theorem replies_own
    (h : (dram cfg).ReachableWhen (fun s e => Allows cfg s e ∧ Orderly cfg s e) s) :
    Answered cfg s ∧ ∀ e f, Allows cfg s e → Orderly cfg s e → s.step cfg e = .error f →
      f.IsCapacity := by
  obtain ⟨hi, hans⟩ := ReachableWhen.inv h
  refine ⟨hans, fun e f ha ho hs => ?_⟩
  rcases step_preserves hi hans ha ho with hfail | ⟨u, hu, -⟩
  · cases hfail.symm.trans hs
    trivial
  · cases hu.symm.trans hs

/-! ### Behind the mapper -/

/-- **What the mapper sends to a controller**: a message that is meant for the memory, with an
address of the controller; and nobody asks for a block before an eviction of it that is going to be
acknowledged has been. -/
def Routed (cfg : DramConfig) (s : DramSystem) : DramEvent → Prop
  | .push t =>
    cfg.memory.SentTo cfg.flexusIndex (BitVec.ofNat 64 t.address) ∧
      (cfg.transactionFor t).isOk = true ∧
      (isCleanEviction t.type = true → t.ackRequired = false) ∧
      (isCleanEviction t.type = false → ∀ x ∈ s.outstanding, x.request.block = t.block →
        isDirtyEviction x.request.type = true → x.request.ackRequired = false)
  | _ => True

instance (cfg : DramConfig) (s : DramSystem) (e : DramEvent) : Decidable (Routed cfg s e) :=
  match e with
  | .push _ => inferInstanceAs (Decidable (_ ∧ _))
  | .complete _ | .send | .tick => .isTrue trivial

/-- Everything that has come in has an address of the controller. -/
def AllSent (cfg : DramConfig) (s : DramSystem) : Prop :=
  ∀ t ∈ s.pushed, cfg.memory.SentTo cfg.flexusIndex (BitVec.ofNat 64 t.address)

/-- Where addresses are compacted, no two blocks meet at one. -/
theorem Inv.orderly {e : DramEvent} (h : Inv cfg s) (hans : Answered cfg s)
    (hagree : cfg.memory.Agrees) (hsent : AllSent cfg s) (ha : Allows cfg s e)
    (he : Routed cfg s e) : Orderly cfg s e := by
  cases e with
  | push t =>
    obtain ⟨ht, hknown, hclean, hack⟩ := he
    refine ⟨hknown, hclean, fun hnot x hx haddr => ?_⟩
    have hx' := hsent _ (mem_of_mem_filter (hans.once.subset
      (mem_map_of_mem (mem_append_right _ hx))))
    have hblock : x.request.block = t.block :=
      hagree.compacts.injective _ _ hx' ht ((h.placed x hx).symm.trans haddr)
    have hnd : isDirtyEviction t.type = false := by
      by_contra hd
      exact ha.1 (Bool.eq_true_of_not_eq_false hd) x hx hblock
    have hxd := ha.2 hnd hnot x hx hblock
    constructor
    · rw [DramTransport.unacknowledged, hxd, hack hnot x hx hblock hxd]
      rfl
    · rw [DramTransport.unacknowledged, hnd, Bool.false_and]
  | complete n => trivial
  | send => trivial
  | tick => trivial

theorem allSent_step {e : DramEvent} {t : DramSystem} (hsent : AllSent cfg s)
    (he : Routed cfg s e) (h : s.step cfg e = .ok t) : AllSent cfg t := by
  cases e with
  | push r =>
    obtain ⟨u, -, ht⟩ := exists_of_bind_eq_ok h
    cases ht
    intro q hq
    rcases mem_append.mp hq with hq | hq
    · exact hsent q hq
    · exact mem_singleton.mp hq ▸ he.1
  | complete n =>
    rw [DramSystem.step, DramSystem.complete] at h
    split at h
    · cases h
      exact hsent
    · obtain ⟨u, -, ht⟩ := exists_of_bind_eq_ok h
      cases ht
      exact hsent
  | send =>
    cases h
    exact hsent
  | tick =>
    cases h
    exact hsent

/-- **Behind a mapper that compacts addresses, every reply goes to its own request.** -/
theorem answered_of_routed (hagree : cfg.memory.Agrees)
    (h : (dram cfg).ReachableWhen (fun s e => Allows cfg s e ∧ Routed cfg s e) s) :
    Answered cfg s ∧ ∀ e f, Allows cfg s e → Routed cfg s e → s.step cfg e = .error f →
      f.IsCapacity := by
  obtain ⟨hi, hans, hsent⟩ := h.invariant
    (I := fun s => Inv cfg s ∧ Answered cfg s ∧ AllSent cfg s)
    ⟨inv_init, answered_init, forall_mem_nil _⟩ (by
      rintro s e t ⟨hi, hans, hsent⟩ ⟨ha, he⟩ hs
      rcases step_preserves hi hans ha (hi.orderly hans hagree hsent ha he) with
        hfail | ⟨u, hu, hinv⟩
      · cases hfail.symm.trans hs
      · cases hu.symm.trans hs
        exact ⟨hinv.1, hinv.2, allSent_step hsent he hs⟩)
  refine ⟨hans, fun e f ha he hs => ?_⟩
  rcases step_preserves hi hans ha (hi.orderly hans hagree hsent ha he) with hfail | ⟨u, hu, -⟩
  · cases hfail.symm.trans hs
    trivial
  · cases hu.symm.trans hs

end Runs

/-- One memory controller, with two places in its lists. -/
def single : DramConfig where
  memory :=
    { MemControllers := 1
      MemInterleaving := 4096
      MemXORShift := 0
      controllers := ⟨0, rfl⟩
      controllers_lt := by decide
      interleaving := hashed.interleaving
      interleaving_lt := hashed.interleaving_lt
      transaction_le := hashed.transaction_le
      xorShift := by decide }
  flexusIndex := 0
  MaxRequests := 2
  MaxReplies := 2
  UseFetchReply := false

/-- The eviction of a dirty block, and a request for it. -/
def evict (ackRequired : Bool) : DramTransport where
  type := .evictDirty
  address := 0x1000
  reqSize := 64
  ackRequired := ackRequired
  dest := { type := .memory, requester := 0 }
  theTracker := 1

@[inherit_doc evict]
def request : DramTransport where
  type := .readReq
  address := 0x1000
  reqSize := 64
  dest := { type := .memory, requester := 0 }
  theTracker := 2

/-- A dirty block is evicted, without an acknowledgement, and asked for; both transactions are
completed. -/
def events : List DramEvent := [.push (evict false), .push request, .tick, .complete 0, .complete 0]

/-- The request alone is answered. -/
theorem replies_own_of_run : ∃ s, (dram single).run events = .ok s ∧
    (s.replies.map fun y => (y.theTracker, y.type)) = [(2, .missReplyWritable)] ∧
    Answered single s ∧ ∀ e f, Allows single s e → Orderly single s e →
      s.step single e = .error f → f.IsCapacity := by
  obtain ⟨s, hs, htest⟩ : ∃ s, (dram single).run events = .ok s ∧
      decide ((s.replies.map fun y => (y.theTracker, y.type)) = [(2, .missReplyWritable)]) = true :=
    Machine.exists_of_endsIn (by decide +kernel)
  have hreach : (dram single).ReachableWhen
      (fun s e => Allows single s e ∧ Orderly single s e) s :=
    Machine.reachableWhen_of_run
      (g := fun s e => decide (Allows single s e ∧ Orderly single s e))
      (fun s e h => of_decide_eq_true h) (by decide +kernel) hs
  exact ⟨s, hs, of_decide_eq_true htest, replies_own hreach⟩

theorem answered_of_routed_of_run :
    ∃ s, (dram single).run events = .ok s ∧ s.replies.length = 1 ∧ Answered single s := by
  obtain ⟨s, hs, htest⟩ : ∃ s, (dram single).run events = .ok s ∧
      decide (s.replies.length = 1) = true :=
    Machine.exists_of_endsIn (by decide +kernel)
  have hreach : (dram single).ReachableWhen
      (fun s e => Allows single s e ∧ Routed single s e) s :=
    Machine.reachableWhen_of_run
      (g := fun s e => decide (Allows single s e ∧ Routed single s e))
      (fun s e h => of_decide_eq_true h) (by decide +kernel) hs
  exact ⟨s, hs, of_decide_eq_true htest, (answered_of_routed (.inl rfl) hreach).1⟩

/-- **A request overtakes the acknowledgement** of the eviction of its block: an assertion fails. -/
theorem request_overtakes : ∃ s, (dram single).ReachableWhen (Allows single) s ∧
    Allows single s (.push request) ∧ s.step single (.push request) = .error .notEviction ∧
    ¬ ∀ (cfg : DramConfig) (s : DramSystem), (dram cfg).ReachableWhen (Allows cfg) s →
      Answered cfg s ∧ ∀ e f, Allows cfg s e → s.step cfg e = .error f → f.IsCapacity := by
  obtain ⟨s, hs, htest⟩ : ∃ s, (dram single).run [.push (evict true)] = .ok s ∧
      decide (Allows single s (.push request) ∧
        s.step single (.push request) matches .error .notEviction) = true :=
    Machine.exists_of_endsIn (by decide +kernel)
  have hreach : (dram single).ReachableWhen (Allows single) s :=
    Machine.reachableWhen_of_run (g := fun s e => decide (Allows single s e))
      (fun s e h => of_decide_eq_true h) (by decide +kernel) hs
  obtain ⟨hallows, hfail⟩ := of_decide_eq_true htest
  have hstep : s.step single (.push request) = .error .notEviction := by
    split at hfail
    · assumption
    · cases hfail
  refine ⟨s, hreach, hallows, hstep, fun h => ?_⟩
  exact (h single s hreach).2 _ _ hallows hstep

end DRAMController

end Flexus
