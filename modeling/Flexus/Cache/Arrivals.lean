import Flexus.Cache.Handlers
import Flexus.Cache.Lookups
import Flexus.Lib.Outcome

/-!
# The replies to a store that misses

A store that misses in a first-level cache is answered by several messages: the directory notifies
the cache of the number of replies, and those come from the other caches
(`handleBackMessage` of `components/Cache/InclusiveMESI.cpp`). They arrive in any order. What the
cache has counted after some of them is determined by those that are still to come, and so is
whether the data are there; so the store is completed by the last message, whichever that is.
-/

namespace Flexus

open Lib List

namespace Cache

open MemoryMessageType

variable {γ ρ : Type}

/-- An action of which nothing comes. -/
structure Action.IsQuiet (y : Action) : Prop where
  action : y.theAction = .noAction
  front : y.theFrontMessage = none
  back : y.theBackMessage = none

/-- **The action that completes a store**: its reply, and an acknowledgement. -/
structure Action.Completes (y : Action) (type ackType : MemoryMessageType) (a : ℕ) : Prop where
  action : y.theAction = .replyAndRemoveResponseMAF
  front : y.theFrontMessage.map Message.type = some (InclusiveMESI.storeReplyType type)
  back : y.theBackMessage = some { type := ackType, address := a }

namespace InclusiveMESI

variable (cfg : Config γ ρ)

/-- Messages from below, one after the other, and the actions that come of them. -/
def handleBackMessages (s : InclusiveMESI γ) :
    List Message → Except ControllerFault (InclusiveMESI γ × List Action)
  | [] => .ok (s, [])
  | m :: ms => do
    let (s, y) ← s.handleBackMessage cfg m
    let (s, ys) ← s.handleBackMessages ms
    return (s, y :: ys)

/-! ### The messages -/

/-- The message that says how many replies there are. -/
def isNotification (m : Message) : Bool := m.type == missNotify || m.type == missNotifyData

/-- The message brings the block. -/
def bringsData (m : Message) : Bool :=
  m.type == missNotifyData || m.type == fwdReplyOwned || m.type == fwdReplyWritable ||
    m.type == fwdReplyDirty

/-- **A message about a store that misses**: a notification of a number of replies, or one of
those. It is to be acknowledged, as all messages are that the source constructs for it. -/
structure IsArrival (a k : ℕ) (m : Message) : Prop where
  address : m.address = a
  ackRequired : m.ackRequired = true
  kind : (isNotification m = true ∧ m.outstandingMsgs = k) ∨
    m.type ∈ [invalidateAck, invalidateNAck, fwdReplyOwned, fwdReplyWritable, fwdReplyDirty]

/-! ### The store -/

/-- Where the data of a store are: they have not come yet; they have come with a message; or the
cache has a shared copy. -/
inductive Data
  | missing
  | received
  | copied
  deriving DecidableEq

/-- The cache does not have a block, and room can be made for it. -/
structure HasRoom (s : InclusiveMESI γ) (a : ℕ) : Prop where
  state : s.arrayState cfg a = .invalid
  find : s.theEvictBuffer.find a = none
  canAllocate : cfg.array.canAllocate s.theArray (cfg.array.lookup s.theArray a) a = true

variable (Held : γ → ρ → ℕ → BasicCacheState → Prop)

/-- The block is where the data say it is, or there is room for one that is missing. -/
def Data.Is (s : InclusiveMESI γ) (a : ℕ) : Data → Prop
  | .missing => s.HasRoom cfg a
  | _ => ∃ b, Held s.theArray (cfg.array.lookup s.theArray a) a b ∧ b.val ≠ .invalid

/-- **A store waits** for messages, having counted some of them. -/
structure Waits (s : InclusiveMESI γ) (a : ℕ) (x : Slot MafEntry) (d : Data) : Prop where
  entry : s.theMaf.getWaitingMAFEntry a = some x
  store : isStore x.item.transport.type = true
  active : s.theRequestTracker.theRequestHash (cfg.array.getSet a) ≠ 0
  received : x.item.dataReceived = true ↔ d = .received
  block : d.Is cfg Held s a

variable {cfg Held} {s s' : InclusiveMESI γ} {a k : ℕ} {x : Slot MafEntry} {d : Data}
  {m : Message} {r : ρ} {b : BasicCacheState}

/-! ### The array -/

/-- **The block is held** by the result of a lookup, and what is known of the misses is as before. -/
structure Holds (Held : γ → ρ → ℕ → BasicCacheState → Prop) (s : InclusiveMESI γ) (r : ρ) (a : ℕ)
    (b : BasicCacheState) (t : InclusiveMESI γ) : Prop where
  maf : t.theMaf = s.theMaf
  tracker : t.theRequestTracker = s.theRequestTracker
  held : Held t.theArray r a b

theorem Holds.trans {t u : InclusiveMESI γ} {b' : BasicCacheState} (h : Holds Held s r a b t)
    (h' : Holds Held t r a b' u) : Holds Held s r a b' u :=
  ⟨h'.maf.trans h.maf, h'.tracker.trans h.tracker, h'.held⟩

theorem returns_setState (hlaws : ArrayLaws cfg.array Held) (h : Held s.theArray r a b)
    (v : BasicState) : Returns (s.setState cfg r v) (Holds Held s r a (b.assign v)) := by
  obtain ⟨c, hc, hheld⟩ := hlaws.setState v h
  rw [setState, hc]
  exact ⟨rfl, rfl, hheld⟩

theorem returns_setProtected (hlaws : ArrayLaws cfg.array Held) (h : Held s.theArray r a b)
    (p : Bool) : Returns (s.setProtected cfg r p)
      (Holds Held s r a { b with isProtected := p }) := by
  obtain ⟨c, hc, hheld⟩ := hlaws.setProtected p h
  rw [setProtected, hc]
  exact ⟨rfl, rfl, hheld⟩

theorem returns_recordAccess (hlaws : ArrayLaws cfg.array Held) (h : Held s.theArray r a b) :
    Returns (s.recordAccess cfg r) (Holds Held s r a b) := by
  obtain ⟨c, hc, hheld⟩ := hlaws.recordAccess h
  rw [recordAccess, hc]
  exact ⟨rfl, rfl, hheld⟩

theorem evictBlock_frame (cfg : Config γ ρ) (s : InclusiveMESI γ) (st : BasicState) (v : ℕ) :
    (evictBlock cfg s st v).theMaf = s.theMaf ∧
      (evictBlock cfg s st v).theRequestTracker = s.theRequestTracker ∧
      (evictBlock cfg s st v).theArray = s.theArray := by
  rw [evictBlock]
  split
  · exact ⟨rfl, rfl, rfl⟩
  · exact ⟨rfl, rfl, rfl⟩

theorem returns_allocateBlock (hlaws : ArrayLaws cfg.array Held)
    (h : Data.missing.Is cfg Held s a) :
    Returns (s.allocateBlock cfg (cfg.array.lookup s.theArray a) a)
      fun z => ∃ p, Holds Held s z.2 a ⟨.invalid, p⟩ z.1 := by
  obtain ⟨hstate, -, hroom⟩ := h
  obtain ⟨c, r, st, v, p, halloc, hheld⟩ := hlaws.allocate hstate hroom
  rw [allocateBlock, if_pos hroom, halloc]
  obtain ⟨hmaf, htracker, harray⟩ := evictBlock_frame cfg { s with theArray := c } st v
  exact ⟨p, hmaf, htracker, harray ▸ hheld⟩

theorem found_of_is (hlaws : ArrayLaws cfg.array Held) (h : d.Is cfg Held s a) :
    (s.found cfg a).2.isSome = false := by
  have hheld : (∃ b, Held s.theArray (cfg.array.lookup s.theArray a) a b ∧ b.val ≠ .invalid) →
      (s.found cfg a).2.isSome = false := by
    rintro ⟨b, hb, hvalid⟩
    have hstate : s.arrayState cfg a ≠ .invalid := by
      rw [arrayState, hlaws.state hb]
      exact hvalid
    rw [found, if_neg hstate]
    rfl
  cases d with
  | missing =>
    obtain ⟨hstate, hnone, -⟩ := h
    rw [found, if_pos hstate, hnone]
    rfl
  | received => exact hheld h
  | copied => exact hheld h

/-! ### A reply -/

theorem Waits.address (h : Waits cfg Held s a x d) : x.item.transport.address = a := by
  have hfind : s.theMaf.theMshrs.find
      (fun e => e.theBlockAddress == a && e.state == .waitResponse) = some x := h.entry
  have hx := (OrderedIndex.find_spec hfind).2.1
  rw [Bool.and_eq_true, beq_iff_eq] at hx
  exact hx.1

theorem returns_endRequest (h : s.theRequestTracker.theRequestHash (cfg.array.getSet a) ≠ 0) :
    Returns (s.endRequest cfg a) fun t => t.theArray = s.theArray ∧ t.theMaf = s.theMaf := by
  rw [endRequest, RequestTracker.endRequest, if_neg h]
  exact ⟨rfl, rfl⟩

/-- **The last reply**: the block is there, gets modified, and is not protected any more. -/
theorem returns_finishWrite (hlaws : ArrayLaws cfg.array Held) (hlevel : cfg.theCacheLevel = .L1)
    (hheld : Held s.theArray r a b)
    (hactive : s.theRequestTracker.theRequestHash (cfg.array.getSet a) ≠ 0) {original : Message}
    (hstore : isStore original.type = true) (horiginal : original.address = a)
    (ha : m.address = a) (hack : m.ackRequired = true) (sentUpgrade : Bool) :
    Returns (s.finishWrite cfg r original m sentUpgrade) fun z =>
      z.2.Completes original.type (if sentUpgrade then upgradeAck else writeAck) a ∧
        Held z.1.theArray (cfg.array.lookup z.1.theArray a) a ⟨.modified, false⟩ := by
  have hwrite : original.type ≠ writeReq := by
    intro hc
    rw [hc] at hstore
    exact absurd hstore nofun
  rw [finishWrite, if_neg fun hc => hc.2 hlevel]
  simp only [if_pos hwrite, ne_eq]
  refine (returns_setState hlaws hheld _).bind fun t ht => ?_
  refine (returns_setProtected hlaws ht.held false).bind fun u hu => ?_
  refine (returns_recordAccess hlaws hu.held).bind fun v hv => ?_
  have hsame := (ht.trans hu).trans hv
  refine (returns_endRequest (by rw [hsame.tracker]; exact horiginal ▸ hactive)).bind fun w hw => ?_
  refine ends_pure.mpr ⟨⟨rfl, rfl, ?_⟩, ?_⟩
  · change ack m _ = _
    rw [ack, if_pos hack, ha]
  · rw [hw.1]
    exact hlaws.lookup_of_held hv.held nofun

/-- The data of a reply: the block is there afterwards, if it was missing and the reply brings it.
-/
theorem returns_receiveData (hlaws : ArrayLaws cfg.array Held) (h : d.Is cfg Held s a)
    {isDirty hasData : Bool} (hdata : hasData = true → d = .missing) :
    Returns (s.receiveData cfg (cfg.array.lookup s.theArray a) a isDirty hasData) fun z =>
      z.2.2 = hasData ∧ z.1.theMaf = s.theMaf ∧ z.1.theRequestTracker = s.theRequestTracker ∧
        if hasData = true then ∃ b, Held z.1.theArray z.2.1 a b ∧ b.val ≠ .invalid
        else z.1 = s ∧ z.2.1 = cfg.array.lookup s.theArray a := by
  rw [receiveData]
  cases hasData with
  | false => exact ⟨rfl, rfl, rfl, rfl, rfl⟩
  | true =>
    obtain rfl := hdata rfl
    have hstate : cfg.array.state s.theArray (cfg.array.lookup s.theArray a) = .invalid := h.1
    simp only [Bool.not_true, Bool.false_eq_true, if_false, hstate, if_true]
    refine (returns_allocateBlock hlaws h).bind fun z hz => ?_
    obtain ⟨p, hz⟩ := hz
    refine (returns_setProtected hlaws hz.held true).bind fun t ht => ?_
    refine (returns_setState hlaws ht.held _).bind fun u hu => ?_
    have hsame := (hz.trans ht).trans hu
    refine ⟨rfl, hsame.maf, hsame.tracker, _, hsame.held, ?_⟩
    cases isDirty <;> exact nofun

/-- The entry of a store after a message. -/
def counted (x : Slot MafEntry) (n : ℤ) (received : Bool) : Slot MafEntry :=
  ⟨x.serial, { x.item with outstandingMsgs := n, dataReceived := received }⟩

theorem getWaitingMAFEntry_recordReply {n : ℤ} {received : Bool}
    (h : s.theMaf.getWaitingMAFEntry a = some x) :
    (s.recordReply x.serial n received).theMaf.getWaitingMAFEntry a =
      some (counted x n received) := by
  have hfind : s.theMaf.theMshrs.find
      (fun e => e.theBlockAddress == a && e.state == .waitResponse) = some x := h
  have hmodify := OrderedIndex.find_modify (m := s.theMaf.theMshrs) (i := x.serial)
    (f := fun e : MafEntry => { e with outstandingMsgs := n, dataReceived := received })
    (p := fun e : MafEntry => e.theBlockAddress == a && e.state == .waitResponse)
    (fun _ => rfl) fun _ => rfl
  rw [hfind, Option.map_some, if_pos rfl] at hmodify
  exact hmodify


/-- Where the data are after a message. -/
def Data.after (d : Data) (m : Message) : Data := if bringsData m then .received else d

/-- The number of messages that are still outstanding after one more. -/
def countAfter (x : Slot MafEntry) (m : Message) : ℤ :=
  if isNotification m then x.item.outstandingMsgs + m.outstandingMsgs
  else x.item.outstandingMsgs - 1

/-- The acknowledgement of a store, by where its data have come from. -/
def Data.ackType (d : Data) : MemoryMessageType := if d = .copied then upgradeAck else writeAck

/-- **One more message**: the store waits on, or it is completed. -/
def Progress (cfg : Config γ ρ) (Held : γ → ρ → ℕ → BasicCacheState → Prop) (a : ℕ)
    (x : Slot MafEntry) (m : Message) (d : Data) (z : InclusiveMESI γ × Action) : Prop :=
  if countAfter x m = 0 then
    z.2.Completes x.item.transport.type (d.after m).ackType a ∧
      Held z.1.theArray (cfg.array.lookup z.1.theArray a) a ⟨.modified, false⟩
  else
    z.2.IsQuiet ∧
      Waits cfg Held z.1 a (counted x (countAfter x m) (d.after m = .received)) (d.after m)

/-- A message that is no notification, or brings the data with it. -/
theorem IsArrival.type_mem (h : IsArrival a k m) (hnotify : m.type ≠ missNotify) :
    m.type ∈ [missNotifyData, invalidateAck, invalidateNAck, fwdReplyOwned, fwdReplyWritable,
      fwdReplyDirty] := by
  rcases h.kind with ⟨hkind, -⟩ | hkind
  · rw [isNotification, Bool.or_eq_true, beq_iff_eq, beq_iff_eq] at hkind
    rw [hkind.resolve_left hnotify]
    exact mem_cons_self
  · exact mem_cons_of_mem _ hkind

/-- **A reply to a store** is known to it, with the data it brings and what it counts. -/
theorem IsArrival.reply (h : IsArrival a k m) (hnotify : m.type ≠ missNotify) :
    (∃ isDirty, InclusiveMESI.writeData m.type = some (isDirty, bringsData m)) ∧
      outstandingAfter x.item m = countAfter x m := by
  have htype := h.type_mem hnotify
  simp only [mem_cons, not_mem_nil, or_false] at htype
  rcases htype with htype | htype | htype | htype | htype | htype
  all_goals
    refine ⟨?_, ?_⟩
    · rw [bringsData, htype]
      exact ⟨_, rfl⟩
    · simp [outstandingAfter, countAfter, isNotification, htype]

theorem IsArrival.handleBackMessage_eq (h : IsArrival a k m) (hnotify : m.type ≠ missNotify) :
    s.handleBackMessage cfg m = s.handleReply cfg m := by
  have htype := h.type_mem hnotify
  simp only [mem_cons, not_mem_nil, or_false] at htype
  rcases htype with htype | htype | htype | htype | htype | htype
  all_goals rw [handleBackMessage, htype]

theorem Data.Is.held (h : d.Is cfg Held s a) (hd : d ≠ .missing) :
    ∃ b, Held s.theArray (cfg.array.lookup s.theArray a) a b ∧ b.val ≠ .invalid := by
  cases d with
  | missing => exact absurd rfl hd
  | received => exact h
  | copied => exact h

theorem Data.is_of_held (hd : d ≠ .missing)
    (h : ∃ b, Held s.theArray (cfg.array.lookup s.theArray a) a b ∧ b.val ≠ .invalid) :
    d.Is cfg Held s a := by
  cases d with
  | missing => exact absurd rfl hd
  | received => exact h
  | copied => exact h

/-- What is known of the data is known by the array and the evict buffer. -/
theorem Data.Is.congr {t : InclusiveMESI γ} (h : d.Is cfg Held s a)
    (harray : t.theArray = s.theArray) (hbuffer : t.theEvictBuffer = s.theEvictBuffer) :
    d.Is cfg Held t a := by
  by_cases hd : d = .missing
  · subst hd
    obtain ⟨hstate, hnone, hroom⟩ := h
    refine ⟨?_, hbuffer ▸ hnone, harray ▸ hroom⟩
    rwa [arrayState, harray]
  · refine Data.is_of_held hd ?_
    rw [harray]
    exact h.held hd

/-- **A store waits on** when a message has been counted. -/
theorem Waits.recordReply {t : InclusiveMESI γ} {d' : Data} {n : ℤ}
    (h : Waits cfg Held s a x d) (hmaf : t.theMaf = s.theMaf)
    (htracker : t.theRequestTracker = s.theRequestTracker) (hblock : d'.Is cfg Held t a) :
    Waits cfg Held (t.recordReply x.serial n (d' = .received)) a
      (counted x n (d' = .received)) d' where
  entry := getWaitingMAFEntry_recordReply (hmaf ▸ h.entry)
  store := h.store
  active := htracker ▸ h.active
  received := decide_eq_true_iff
  block := hblock.congr rfl rfl

theorem Waits.dataReceived (h : Waits cfg Held s a x d) :
    x.item.dataReceived = decide (d = .received) :=
  Bool.eq_iff_iff.mpr (h.received.trans decide_eq_true_iff.symm)

/-- The data have been received with this message or before it. -/
theorem Waits.received_or (h : Waits cfg Held s a x d) :
    (x.item.dataReceived || bringsData m) = decide (d.after m = .received) := by
  rw [Data.after]
  cases bringsData m with
  | true => simp
  | false =>
    simp only [Bool.false_eq_true, if_false, Bool.or_false]
    exact h.dataReceived

/-- Data that are there have been received or are those of the shared copy. -/
theorem Data.copied_of_ne_missing (hd : d ≠ .missing) :
    (!decide (d = .received)) = decide (d = .copied) ∧
      (decide (d = .received) || decide (d = .copied)) = true := by
  cases d with
  | missing => exact absurd rfl hd
  | received => exact ⟨rfl, rfl⟩
  | copied => exact ⟨rfl, rfl⟩

/-- **A store goes on** with a reply. -/
theorem returns_handleWriteReply (hlaws : ArrayLaws cfg.array Held)
    (hlevel : cfg.theCacheLevel = .L1) (hw : Waits cfg Held s a x d) (hm : IsArrival a k m)
    (hnotify : m.type ≠ missNotify) (hdata : bringsData m = true → d = .missing)
    (hlast : countAfter x m = 0 → d.after m ≠ .missing) :
    Returns (s.handleWriteReply cfg x m) (Progress cfg Held a x m d) := by
  obtain ⟨⟨isDirty, hdirty⟩, hcount⟩ := hm.reply (x := x) hnotify
  rw [handleWriteReply, hm.address, found_of_is hlaws hw.block, if_neg (by exact nofun), hdirty]
  simp only
  refine (returns_receiveData hlaws hw.block hdata).bind ?_
  rintro ⟨t, r, filled⟩ ⟨hfilled, hmaf, htracker, hblock⟩
  simp only at hfilled hmaf htracker hblock ⊢
  subst hfilled
  rw [hcount, hw.received_or]
  -- the block is where the data after this message say
  have hheld : d.after m ≠ .missing → ∃ b, Held t.theArray r a b ∧ b.val ≠ .invalid := by
    intro hd
    by_cases hbrings : bringsData m = true
    · rwa [if_pos hbrings] at hblock
    · rw [if_neg hbrings] at hblock
      rw [Data.after, if_neg hbrings] at hd
      rw [hblock.1, hblock.2]
      exact hw.block.held hd
  by_cases hzero : countAfter x m = 0
  · obtain ⟨b, hb, hvalid⟩ := hheld (hlast hzero)
    have hstate : cfg.array.state t.theArray r ≠ .invalid := by rwa [hlaws.state hb]
    obtain ⟨hupgrade, hor⟩ := Data.copied_of_ne_missing (hlast hzero)
    rw [if_pos hzero, decide_eq_true hstate, Bool.and_true, hupgrade, if_pos hor]
    refine (returns_finishWrite (s := t.recordReply x.serial (countAfter x m) true) hlaws hlevel hb
      (htracker ▸ hw.active) hw.store hw.address hm.address hm.ackRequired _).mono ?_
    intro z hz
    rw [Progress, if_pos hzero, Data.ackType]
    simpa only [decide_eq_true_eq] using hz
  · rw [if_neg hzero]
    refine ends_pure.mpr ?_
    rw [Progress, if_neg hzero]
    refine ⟨⟨rfl, rfl, rfl⟩, hw.recordReply hmaf htracker ?_⟩
    by_cases hd : d.after m = .missing
    · have hbrings : bringsData m = false := by
        rw [Bool.eq_false_iff]
        intro hc
        rw [Data.after, if_pos hc] at hd
        exact absurd hd nofun
      rw [Data.after, if_neg (by rw [hbrings]; exact nofun)] at hd ⊢
      rw [if_neg (by rw [hbrings]; exact nofun)] at hblock
      rw [hblock.1]
      exact hw.block
    · obtain ⟨b, hb, hvalid⟩ := hheld hd
      exact Data.is_of_held hd ⟨b, hlaws.lookup_of_held hb hvalid, hvalid⟩

/-- The reply to a store that all invalidations have been answered for. -/
theorem notified_of_isStore {original : Message} (hlevel : cfg.theCacheLevel = .L1)
    (hstore : isStore original.type = true) :
    (s.notified cfg r original m).type = storeReplyType original.type ∧
      (s.notified cfg r original m).address = original.address := by
  rw [notified, if_pos hlevel]
  generalize original.type = type at hstore
  refine ⟨?_, rfl⟩
  cases type <;> first | rfl | exact absurd hstore nofun

/-- **A store goes on** with the notification of a number of replies. -/
theorem returns_handleMissNotify (hlaws : ArrayLaws cfg.array Held)
    (hlevel : cfg.theCacheLevel = .L1) (hw : Waits cfg Held s a x d) (hm : IsArrival a k m)
    (hnotify : m.type = missNotify) (hlast : countAfter x m = 0 → d.after m ≠ .missing) :
    Returns (s.handleMissNotify cfg m) (Progress cfg Held a x m d) := by
  have hwrite : x.item.transport.type.isWrite = true := by
    have hstore := hw.store
    generalize x.item.transport.type = type at hstore
    cases type <;> first | rfl | exact absurd hstore nofun
  have hupgrade : x.item.transport.type ≠ upgradeReq := by
    intro hc
    have hstore := hw.store
    rw [hc] at hstore
    exact absurd hstore nofun
  have hcount : x.item.outstandingMsgs + m.outstandingMsgs = countAfter x m := by
    rw [countAfter, isNotification, hnotify]
    rfl
  have hafter : d.after m = d := by
    rw [Data.after, bringsData, hnotify]
    rfl
  rw [handleMissNotify, hm.address, hw.entry]
  simp only [hwrite, hcount, Bool.not_true, Bool.false_eq_true, if_false, ne_eq, ite_not,
    hw.dataReceived]
  by_cases hzero : countAfter x m = 0
  · have hd : d ≠ .missing := hafter ▸ hlast hzero
    obtain ⟨b, hb, hvalid⟩ := hw.block.held hd
    have hstate : cfg.array.state s.theArray (cfg.array.lookup s.theArray a) ≠ .invalid := by
      rwa [hlaws.state hb]
    obtain ⟨hcopied, hor⟩ := Data.copied_of_ne_missing hd
    simp only [if_pos hzero, decide_eq_true hstate, Bool.and_true, hcopied, hor, hw.store,
      found_of_is hlaws hw.block, Bool.true_eq_false, and_false, if_false, Bool.false_eq_true,
      Bool.not_true, Bool.false_and, if_true]
    refine (returns_setProtected hlaws
      (s := s.recordReply x.serial (countAfter x m) true) hb false).bind fun t ht => ?_
    refine (returns_setState hlaws ht.held .modified).bind fun u hu => ?_
    have hsame := ht.trans hu
    obtain ⟨htype, haddress⟩ := notified_of_isStore (r := cfg.array.lookup s.theArray a) (m := m)
      (s := s.recordReply x.serial (countAfter x m) true) hlevel hw.store
    refine (returns_endRequest ?_).bind fun v hv => ?_
    · rw [hsame.tracker, haddress, hw.address]
      exact hw.active
    · refine ends_pure.mpr ?_
      rw [Progress, if_pos hzero, hafter, Data.ackType]
      refine ⟨⟨rfl, congrArg some htype, ?_⟩, ?_⟩
      · simp only [hupgrade, decide_false, Bool.false_or, decide_eq_true_eq]
      · rw [hv.1]
        exact hlaws.lookup_of_held hu.held nofun
  · rw [if_neg hzero]
    refine ends_ok.mpr ?_
    rw [Progress, if_neg hzero, hafter]
    exact ⟨⟨rfl, rfl, rfl⟩, hw.recordReply rfl rfl hw.block⟩

/-- **One more message** about a store. -/
theorem returns_handleBackMessage (hlaws : ArrayLaws cfg.array Held)
    (hlevel : cfg.theCacheLevel = .L1) (hw : Waits cfg Held s a x d) (hm : IsArrival a k m)
    (hdata : bringsData m = true → d = .missing)
    (hlast : countAfter x m = 0 → d.after m ≠ .missing) :
    Returns (s.handleBackMessage cfg m) (Progress cfg Held a x m d) := by
  by_cases hnotify : m.type = missNotify
  · rw [handleBackMessage, hnotify]
    exact returns_handleMissNotify hlaws hlevel hw hm hnotify hlast
  · rw [hm.handleBackMessage_eq hnotify, handleReply, hm.address, hw.entry]
    have hreturns := returns_handleWriteReply hlaws hlevel hw hm hnotify hdata hlast
    have hstore := hw.store
    simp only
    generalize x.item.transport.type = type at hstore ⊢
    cases type <;> first | exact hreturns | exact absurd hstore nofun

/-! ### All messages -/

/-- **What a store has counted** and what it has of its data, in terms of the messages that are still
to come. -/
structure Expects (x : Slot MafEntry) (d : Data) (a k : ℕ) (ms : List Message) : Prop where
  arrivals : ∀ m ∈ ms, IsArrival a k m
  once : ms.countP isNotification ≤ 1
  bound : ms.countP isNotification = 1 → ms.length ≤ k + 1
  count : x.item.outstandingMsgs + ms.countP isNotification * (k + 1) = ms.length
  data : ms.countP bringsData = if d = .missing then 1 else 0

section Expected

variable {ms : List Message}

theorem not_isNotification_of_mem
    (h : m.type ∈ [invalidateAck, invalidateNAck, fwdReplyOwned, fwdReplyWritable, fwdReplyDirty]) :
    isNotification m = false := by
  rw [isNotification]
  simp only [mem_cons, not_mem_nil, or_false] at h
  rcases h with h | h | h | h | h <;> rw [h] <;> rfl

/-- **The messages after the next one**: its count is theirs, and no more than `k` are left of which
one is the notification. -/
theorem Expects.next (h : Expects x d a k (m :: ms)) :
    countAfter x m + ms.countP isNotification * (k + 1) = ms.length ∧
      (ms.countP isNotification = 0 ∨ ms.countP isNotification = 1 ∧ ms.length ≤ k) := by
  have honce := h.once
  have hcount := h.count
  have hbound := h.bound
  rw [countP_cons] at honce hcount hbound
  rw [length_cons] at hcount hbound
  rw [countAfter]
  by_cases hm : isNotification m = true
  · have hk : m.outstandingMsgs = k := by
      rcases (h.arrivals m (mem_cons_self ..)).kind with ⟨-, hk⟩ | htype
      · exact hk
      · rw [not_isNotification_of_mem htype] at hm
        exact absurd hm nofun
    rw [if_pos hm] at honce hcount ⊢
    have hzero : ms.countP isNotification = 0 := by omega
    refine ⟨?_, .inl hzero⟩
    rw [hzero] at hcount ⊢
    push_cast at hcount ⊢
    omega
  · rw [if_neg hm] at honce hcount hbound ⊢
    rcases Nat.le_one_iff_eq_zero_or_eq_one.mp honce with hc | hc
    · have hzero : ms.countP isNotification = 0 := hc
      refine ⟨?_, .inl hzero⟩
      rw [hzero] at hcount ⊢
      push_cast at hcount ⊢
      omega
    · have hone : ms.countP isNotification = 1 := hc
      have hlen := hbound hc
      refine ⟨?_, .inr ⟨hone, by omega⟩⟩
      rw [hone] at hcount ⊢
      push_cast at hcount ⊢
      omega

/-- **The count is at zero after the last message**, and only then. -/
theorem Expects.countAfter_eq_zero (h : Expects x d a k (m :: ms)) :
    countAfter x m = 0 ↔ ms = [] := by
  obtain ⟨hcount, hc⟩ := h.next
  rw [← length_eq_zero_iff]
  rcases hc with hc | ⟨hc, hlen⟩
  · rw [hc] at hcount
    push_cast at hcount
    omega
  · have hpos : 0 < ms.length := by
      have hle := countP_le_length (p := isNotification) (l := ms)
      omega
    rw [hc] at hcount
    push_cast at hcount
    omega

/-- The data are missing as long as a message is to bring them. -/
theorem Expects.brings (h : Expects x d a k (m :: ms)) :
    (bringsData m = true → d = .missing) ∧
      ms.countP bringsData = if d.after m = .missing then 1 else 0 := by
  have hdata := h.data
  rw [countP_cons] at hdata
  rw [Data.after]
  by_cases hm : bringsData m = true
  · rw [if_pos hm] at hdata
    by_cases hd : d = .missing
    · rw [if_pos hd] at hdata
      rw [if_pos hm, if_neg nofun]
      exact ⟨fun _ => hd, by omega⟩
    · rw [if_neg hd] at hdata
      exact absurd hdata (Nat.succ_ne_zero _)
  · rw [if_neg hm] at hdata ⊢
    exact ⟨fun hc => absurd hc hm, hdata⟩

theorem Expects.tail (h : Expects x d a k (m :: ms)) :
    Expects (counted x (countAfter x m) (d.after m = .received)) (d.after m) a k ms where
  arrivals m' hm' := h.arrivals m' (mem_cons_of_mem _ hm')
  once := by
    rcases h.next.2 with hc | hc <;> omega
  bound hc := by
    rcases h.next.2 with hc' | hc' <;> omega
  count := h.next.1
  data := h.brings.2

/-- The acknowledgement does not depend on when the data come. -/
theorem Data.ackType_after (hm : bringsData m = true → d = .missing) :
    (d.after m).ackType = d.ackType := by
  rw [Data.after]
  split
  · rename_i h
    rw [hm h]
    rfl
  · rfl

/-- **A store is completed by the last message** that is expected about it, and by none before. -/
theorem returns_handleBackMessages (hlaws : ArrayLaws cfg.array Held)
    (hlevel : cfg.theCacheLevel = .L1) (hw : Waits cfg Held s a x d)
    (he : Expects x d a k (m :: ms)) :
    Returns (s.handleBackMessages cfg (m :: ms)) fun z =>
      ∃ ys y, z.2 = ys ++ [y] ∧ ys.length = ms.length ∧ (∀ w ∈ ys, w.IsQuiet) ∧
        y.Completes x.item.transport.type d.ackType a ∧
        Held z.1.theArray (cfg.array.lookup z.1.theArray a) a ⟨.modified, false⟩ := by
  induction ms generalizing s x d m with
  | nil =>
    have hzero := he.countAfter_eq_zero.mpr rfl
    obtain ⟨hdata, hall⟩ := he.brings
    have hlast : d.after m ≠ .missing := by
      intro hc
      rw [if_pos hc] at hall
      exact absurd hall nofun
    rw [handleBackMessages]
    refine (returns_handleBackMessage hlaws hlevel hw (he.arrivals m (mem_cons_self ..)) hdata
      fun _ => hlast).bind ?_
    rintro ⟨t, y⟩ hprogress
    rw [Progress, if_pos hzero, Data.ackType_after hdata] at hprogress
    refine ends_pure.mpr ?_
    exact ⟨[], y, rfl, rfl, fun w hw => absurd hw not_mem_nil, hprogress⟩
  | cons m' ms ih =>
    have hmore : countAfter x m ≠ 0 := fun hc => absurd (he.countAfter_eq_zero.mp hc) nofun
    obtain ⟨hdata, -⟩ := he.brings
    rw [handleBackMessages]
    refine (returns_handleBackMessage hlaws hlevel hw (he.arrivals m (mem_cons_self ..)) hdata
      fun hc => absurd hc hmore).bind ?_
    rintro ⟨t, y⟩ hprogress
    rw [Progress, if_neg hmore] at hprogress
    refine (ih hprogress.2 he.tail).bind ?_
    rintro ⟨u, zs⟩ ⟨ys, z, rfl, hlen, hquiet, hcompletes, hheld⟩
    rw [Data.ackType_after hdata] at hcompletes
    refine ⟨y :: ys, z, rfl, congrArg Nat.succ hlen, ?_, hcompletes, hheld⟩
    intro w hw
    rcases mem_cons.mp hw with rfl | hw
    · exact hprogress.1
    · exact hquiet w hw

/-! ### A store that misses -/

/-- **A store has missed**: its entry waits, nothing is counted yet, and either the cache has a
shared copy of the block, for which an upgrade is under way, or there is room for the block. -/
structure Misses (cfg : Config γ ρ) (s : InclusiveMESI γ) (a : ℕ) (x : Slot MafEntry) :
    Prop where
  entry : s.theMaf.getWaitingMAFEntry a = some x
  store : isStore x.item.transport.type = true
  fresh : x.item.outstandingMsgs = 0 ∧ x.item.dataReceived = false
  active : s.theRequestTracker.theRequestHash (cfg.array.getSet a) ≠ 0
  block : s.arrayState cfg a = .shared ∨ s.HasRoom cfg a

/-- The data of a store that has missed. -/
def dataOf (cfg : Config γ ρ) (s : InclusiveMESI γ) (a : ℕ) : Data :=
  if s.arrayState cfg a = .shared then .copied else .missing

variable {notify : Message} {replies : List Message}

/-- **The completion of a store does not depend on the order** in which the notification and the
replies arrive: the last of them completes it, whichever it is. -/
theorem handleBackMessages_completes (hlaws : ArrayLaws cfg.array Held)
    (hlevel : cfg.theCacheLevel = .L1) (hs : s.Misses cfg a x)
    (hnotify : IsArrival a k notify ∧ isNotification notify = true)
    (hreplies : ∀ m ∈ replies, IsArrival a k m ∧ isNotification m = false)
    (hk : replies.length = k)
    (hdata : (notify :: replies).countP bringsData +
      (if s.arrayState cfg a = .shared then 1 else 0) = 1)
    (horder : ms.Perm (notify :: replies)) :
    ∃ s' ys y, s.handleBackMessages cfg ms = .ok (s', ys ++ [y]) ∧ ys.length = k ∧
      (∀ w ∈ ys, w.IsQuiet) ∧
      y.Completes x.item.transport.type
        (if s.arrayState cfg a = .shared then upgradeAck else writeAck) a ∧
      Held s'.theArray (cfg.array.lookup s'.theArray a) a ⟨.modified, false⟩ := by
  obtain ⟨m, ms, rfl⟩ : ∃ m ms', ms = m :: ms' := by
    cases ms with
    | nil => exact absurd horder.symm not_perm_cons_nil
    | cons m ms => exact ⟨m, ms, rfl⟩
  have hwaits : Waits cfg Held s a x (dataOf cfg s a) := by
    refine ⟨hs.entry, hs.store, hs.active, ?_, ?_⟩
    · rw [hs.fresh.2, dataOf]
      split <;> exact iff_of_false nofun nofun
    · rw [dataOf]
      split
      · rename_i hshared
        have hvalid : cfg.array.state s.theArray (cfg.array.lookup s.theArray a) ≠ .invalid := by
          intro hc
          rw [arrayState, hc] at hshared
          exact absurd hshared nofun
        obtain ⟨p, hp⟩ := hlaws.held_lookup hvalid
        exact ⟨_, hp, hvalid⟩
      · rename_i hshared
        exact hs.block.resolve_left hshared
  have hnone : replies.countP isNotification = 0 :=
    countP_eq_zero.mpr fun m hm => by
      rw [(hreplies m hm).2]
      exact nofun
  have hcount : (m :: ms).countP isNotification = 1 := by
    rw [horder.countP_eq, countP_cons, hnone, if_pos hnotify.2]
  have hlen : (m :: ms).length = k + 1 := by
    rw [horder.length_eq, length_cons, hk]
  have hexpects : Expects x (dataOf cfg s a) a k (m :: ms) := by
    refine ⟨fun m' hm' => ?_, hcount.le, fun _ => hlen.le, ?_, ?_⟩
    · rcases mem_cons.mp (horder.mem_iff.mp hm') with rfl | hm'
      · exact hnotify.1
      · exact (hreplies m' hm').1
    · rw [hs.fresh.1, hcount, hlen]
      push_cast
      omega
    · rw [horder.countP_eq, dataOf]
      split at hdata <;> rename_i hshared
      · rw [if_pos hshared]
        exact Nat.succ.inj hdata
      · rw [if_neg hshared]
        exact hdata
  obtain ⟨⟨t, zs⟩, hz, ys, y, rfl, hys, hquiet, hcompletes, hheld⟩ :=
    (returns_handleBackMessages hlaws hlevel hwaits hexpects).exists_ok
  refine ⟨t, ys, y, hz, hys.trans (Nat.succ.inj hlen), hquiet, ?_, hheld⟩
  rw [Data.ackType, dataOf] at hcompletes
  split <;> rename_i hshared
  · rwa [if_pos hshared] at hcompletes
  · rwa [if_neg hshared] at hcompletes

end Expected

end InclusiveMESI

/-! ### One order of arrival -/

/-- A first-level cache with one set of two ways. -/
def smallL1 : Config (StdArray ⟨6, 0, 2, Nat.two_pos⟩) StdLookupResult where
  theCacheLevel := .L1
  theCores := 1
  theBanks := 1
  thePorts := 1
  theBlockSize := 64
  theQueueSize := 4
  theMafSize := 4
  theEBSize := 4
  theSBSize := 4
  theEvictOnSnoop := false
  theUseReplyChannel := false
  array := stdArray ⟨6, 0, 2, Nat.two_pos⟩

/-- A store that has missed in an empty cache. -/
def storeMiss : InclusiveMESI (StdArray ⟨6, 0, 2, Nat.two_pos⟩) :=
  { InclusiveMESI.init smallL1 with
    theRequestTracker := RequestTracker.init.startRequest 0
    theMaf := { MissAddressFile.init with
      theMshrs := MissAddressFile.init.theMshrs.insert
        { state := .waitResponse, transport := { type := storeReq, address := 64 } } } }

/-- One of two replies comes before the notification, and the other one, with the data, after it. -/
theorem storeMiss_completes : ∃ s' ys y, storeMiss.handleBackMessages smallL1
      [{ type := invalidateAck, address := 64 },
        { type := missNotify, address := 64, outstandingMsgs := 2 },
        { type := fwdReplyDirty, address := 64 }] = .ok (s', ys ++ [y]) ∧ ys.length = 2 ∧
    y.theBackMessage = some { type := writeAck, address := 64 } := by
  have hmisses : storeMiss.Misses smallL1 64
      ⟨0, { state := .waitResponse, transport := { type := storeReq, address := 64 } }⟩ :=
    ⟨rfl, rfl, ⟨rfl, rfl⟩, nofun, .inr ⟨rfl, rfl, rfl⟩⟩
  have hnotify : InclusiveMESI.IsArrival 64 2
        { type := missNotify, address := 64, outstandingMsgs := 2 } ∧
      InclusiveMESI.isNotification
        { type := missNotify, address := 64, outstandingMsgs := 2 } = true :=
    ⟨⟨rfl, rfl, .inl ⟨rfl, rfl⟩⟩, rfl⟩
  have hreplies : ∀ m ∈ [({ type := invalidateAck, address := 64 } : Message),
      { type := fwdReplyDirty, address := 64 }],
      InclusiveMESI.IsArrival 64 2 m ∧ InclusiveMESI.isNotification m = false := by
    intro m hm
    simp only [mem_cons, not_mem_nil, or_false] at hm
    rcases hm with rfl | rfl
    · exact ⟨⟨rfl, rfl, .inr (by decide)⟩, rfl⟩
    · exact ⟨⟨rfl, rfl, .inr (by decide)⟩, rfl⟩
  obtain ⟨s', ys, y, h, hlen, -, hy, -⟩ := InclusiveMESI.handleBackMessages_completes
    (stdArray_laws _) rfl hmisses hnotify hreplies rfl rfl (.swap _ _ _)
  exact ⟨s', ys, y, h, hlen, hy.back⟩

end Cache

end Flexus
