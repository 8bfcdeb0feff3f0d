import Flexus.CMPCache.Handlers
import Flexus.Lib.Outcome

/-!
# Who waits for what

What a bank does is followed here as far as waiting and waking are concerned. Of the
miss address file only the address and the state of an entry matter, and the address
of its message: that is a table of waits (`Flexus.CMPCache.Waits`). Of the evict buffers
it matters whether an eviction of a block is on its way
(`Flexus.CMPCache.Policy.Owes`). Of a process it matters what it has decided about an
entry, which `Flexus.CMPCache.Decision` lists: it goes to sleep, is granted something
and waits for the acknowledgement, is found to be redundant, picks an entry to be woken
or one to be removed, or leaves the file alone.

The main results say that `doRequest` and `handleReply` always take one of these
decisions (`Flexus.CMPCache.Policy.doRequest_decides`,
`Flexus.CMPCache.Policy.handleReply_answers`). Nothing else of the two functions
matters to the wake-ups of a bank.
-/

namespace Flexus

open Lib

namespace CMPCache

open MemoryMessageType

/-! ### The table of waits -/

/-- What matters of an entry of the miss address file. -/
structure Wait where
  address : ℕ
  state : MAFState
  /-- The address of the message that waits. -/
  msg : ℕ
  deriving DecidableEq

/-- What matters of an entry. -/
def MAFEntry.wait (e : MAFEntry) : Wait := ⟨e.address, e.state, e.transport.address⟩

/-- What matters of the miss address file: its entries by their iterators, and the next
iterator. -/
structure Waits where
  entry : ℕ → Option Wait
  next : ℕ

namespace Waits

variable (W : Waits)

/-- A new entry. -/
def add (w : Wait) : Waits := ⟨fun j => if j = W.next then some w else W.entry j, W.next + 1⟩

/-- A change of an entry. -/
def set (i : ℕ) (w : Wait) : Waits := ⟨fun j => if j = i then some w else W.entry j, W.next⟩

/-- The table without an entry. -/
def erase (i : ℕ) : Waits := ⟨fun j => if j = i then none else W.entry j, W.next⟩

/-- The entries of which something holds are woken. -/
def wake (P : ℕ → Wait → Bool) : Waits :=
  ⟨fun j => (W.entry j).map fun w => if P j w then { w with state := .waking } else w, W.next⟩

variable {W} {w v : Wait} {i j : ℕ} {P : ℕ → Wait → Bool}

theorem entry_add : (W.add w).entry j = if j = W.next then some w else W.entry j := rfl

theorem entry_set : (W.set i w).entry j = if j = i then some w else W.entry j := rfl

theorem entry_erase : (W.erase i).entry j = if j = i then none else W.entry j := rfl

theorem entry_wake : (W.wake P).entry j =
    (W.entry j).map fun w => if P j w then { w with state := .waking } else w := rfl

@[simp]
theorem next_add : (W.add w).next = W.next + 1 := rfl

@[simp]
theorem next_set : (W.set i w).next = W.next := rfl

@[simp]
theorem next_erase : (W.erase i).next = W.next := rfl

@[simp]
theorem next_wake : (W.wake P).next = W.next := rfl

variable (W) in
/-- The number of the entries. -/
def size : ℕ := ((Finset.range W.next).filter fun i => (W.entry i).isSome).card

/-- **The entries have iterators that have been given out.** -/
def Past (W : Waits) : Prop := ∀ i w, W.entry i = some w → i < W.next

theorem size_add : (W.add w).size = W.size + 1 := by
  have hold : ∀ j ∈ Finset.range W.next,
      (((W.add w).entry j).isSome = true ↔ (W.entry j).isSome = true) := by
    intro j hj
    rw [entry_add, if_neg (Nat.ne_of_lt (Finset.mem_range.mp hj))]
  rw [size, size, next_add, Finset.range_add_one, Finset.filter_insert, if_pos, Finset.filter_congr hold,
    Finset.card_insert_of_notMem]
  · exact fun hc => Finset.notMem_range_self (Finset.mem_of_mem_filter _ hc)
  · rw [entry_add, if_pos rfl]
    rfl

theorem size_congr {W V : Waits} (hn : W.next = V.next)
    (h : ∀ i, (W.entry i).isSome = (V.entry i).isSome) : W.size = V.size := by
  rw [size, size, hn]
  simp only [h]

theorem size_set (hi : W.entry i = some v) : (W.set i w).size = W.size := by
  refine size_congr rfl fun j => ?_
  rw [entry_set]
  split
  · rename_i hj
    rw [hj, hi]
    rfl
  · rfl

theorem size_wake : (W.wake P).size = W.size :=
  size_congr rfl fun j => by rw [entry_wake, Option.isSome_map]

theorem size_erase (h : W.Past) (hi : W.entry i = some w) : (W.erase i).size + 1 = W.size := by
  have hfilter : (Finset.range W.next).filter (fun j => ((W.erase i).entry j).isSome) =
      ((Finset.range W.next).filter fun j => (W.entry j).isSome).erase i := by
    ext j
    rw [Finset.mem_erase, Finset.mem_filter, Finset.mem_filter, entry_erase]
    split
    · rename_i hj
      exact iff_of_false (fun hc => Bool.false_ne_true hc.2) fun hc => hc.1 hj
    · rename_i hj
      exact ⟨fun hc => ⟨hj, hc⟩, And.right⟩
  rw [size, next_erase, hfilter]
  refine Finset.card_erase_add_one (Finset.mem_filter.mpr ⟨?_, ?_⟩)
  · exact Finset.mem_range.mpr (h i w hi)
  · rw [hi]
    rfl

theorem ext {W V : Waits} (h : ∀ i, W.entry i = V.entry i) (hn : W.next = V.next) : W = V := by
  cases W
  cases V
  cases hn
  cases funext h
  rfl

end Waits

namespace MissAddressFile

variable {m m' : MissAddressFile} {i : ℕ} {w : Wait}

/-- The table of waits of a miss address file. -/
def waits (m : MissAddressFile) : Waits := ⟨fun i => (m.get i).map MAFEntry.wait, m.theMAF.next⟩

theorem waits_entry : m.waits.entry i = some w ↔ ∃ e, m.get i = some e ∧ e.wait = w :=
  Option.map_eq_some_iff

theorem lt_next (h : m.waits.entry i = some w) : i < m.waits.next := by
  obtain ⟨e, he, -⟩ := waits_entry.mp h
  exact OrderedIndex.lt_next_of_get he

theorem size_waits (m : MissAddressFile) : m.waits.size = m.theCurSize := by
  have hserials : (Finset.range m.theMAF.next).filter (fun i => (m.waits.entry i).isSome) =
      (m.theMAF.slots.map Slot.serial).toFinset := by
    ext i
    rw [Finset.mem_filter, Finset.mem_range, List.mem_toFinset, List.mem_map]
    constructor
    · rintro ⟨-, hi⟩
      obtain ⟨w, hw⟩ := Option.isSome_iff_exists.mp hi
      obtain ⟨e, he, -⟩ := waits_entry.mp hw
      exact ⟨⟨i, e⟩, OrderedIndex.get_eq_some.mp he, rfl⟩
    · rintro ⟨x, hx, rfl⟩
      have hget := OrderedIndex.mem_slots.mp hx
      exact ⟨OrderedIndex.lt_next_of_get hget,
        Option.isSome_iff_exists.mpr ⟨_, waits_entry.mpr ⟨_, hget, rfl⟩⟩⟩
  rw [Waits.size, show m.waits.next = m.theMAF.next from rfl, hserials,
    List.toFinset_card_of_nodup m.theMAF.nodup, List.length_map, m.curSize_eq, OrderedIndex.size]

theorem waits_insert {t : Transport} {a : ℕ} {st : MAFState} :
    (m.insert t a st).waits = m.waits.add ⟨a, st, t.address⟩ := by
  refine Waits.ext (fun j => ?_) rfl
  simp only [waits, get_insert, Waits.entry_add]
  split
  · rfl
  · rfl

theorem waits_modify {f : MAFEntry → MAFEntry} (h : ∀ e, m.get i = some e → (f e).wait = e.wait) :
    (m.modify i f).waits = m.waits := by
  refine Waits.ext (fun j => ?_) rfl
  simp only [waits, get_modify]
  split
  · rename_i hj
    subst hj
    cases he : m.get j with
    | none => rfl
    | some e => simp [h e he]
  · rfl

theorem waits_setCacheEBReserved {n : ℕ} : (m.setCacheEBReserved i n).waits = m.waits :=
  waits_modify (by intro _ _; rfl)

theorem waits_setState {st : MAFState} {t : Transport} (h : m.setState i st t = .ok m') :
    ∃ w, m.waits.entry i = some w ∧ m'.waits = m.waits.set i ⟨w.address, st, t.address⟩ := by
  have hn : m'.theMAF.next = m.theMAF.next := by
    rw [setState] at h
    split at h
    · cases h
    · cases h
      rfl
  obtain ⟨e, he, hget⟩ := setState_spec h
  refine ⟨e.wait, waits_entry.mpr ⟨e, he, rfl⟩, Waits.ext (fun j => ?_) hn⟩
  simp only [waits, hget, Waits.entry_set]
  split
  · rfl
  · rfl

theorem waits_remove (h : m.remove i = .ok m') :
    (∃ w, m.waits.entry i = some w) ∧ m'.waits = m.waits.erase i := by
  have hn : m'.theMAF.next = m.theMAF.next := by
    rw [remove] at h
    split at h
    · cases h
    · cases h
      rfl
  obtain ⟨e, he, hget⟩ := remove_spec h
  refine ⟨⟨e.wait, waits_entry.mpr ⟨e, he, rfl⟩⟩, Waits.ext (fun j => ?_) hn⟩
  simp only [waits, hget, Waits.entry_erase]
  split
  · rfl
  · rfl

/-- **Waking after an eviction** wakes the entry and the requests behind it. -/
theorem waits_wakeAfterEvict (h : m.wakeAfterEvict i = .ok m') :
    ∃ w, m.waits.entry i = some w ∧ m'.waits = m.waits.wake fun j v =>
      decide (j = i ∨ (v.address = w.address ∧ v.state = .waitRequest)) := by
  have hn : m'.theMAF.next = m.theMAF.next := by
    rw [wakeAfterEvict] at h
    split at h
    · cases h
    · cases h
      exact OrderedIndex.next_modifyEach
  obtain ⟨e, he, hget⟩ := wakeAfterEvict_spec h
  refine ⟨e.wait, waits_entry.mpr ⟨e, he, rfl⟩, Waits.ext (fun j => ?_) hn⟩
  simp only [waits, hget, Waits.entry_wake]
  cases m.get j with
  | none => rfl
  | some f =>
    have hb : decide (j = i ∨ (f.wait.address = e.wait.address ∧ f.wait.state = .waitRequest)) =
        true ↔ j = i ∨ (f.address = e.address ∧ f.state = .waitRequest) := decide_eq_true_iff
    simp only [Option.map_some, hb]
    split
    · rfl
    · rfl

theorem waits_wakeEach {p : MAFEntry → Bool} {P : Wait → Bool} (hP : ∀ e, p e = P e.wait) :
    (m.wakeEach (m.theMAF.inOrder p)).waits = m.waits.wake fun _ v => P v := by
  refine Waits.ext (fun j => ?_) OrderedIndex.next_modifyEach
  simp only [waits, get_wakeEach OrderedIndex.nodup_inOrder, Waits.entry_wake]
  cases hj : m.get j with
  | none => split <;> rfl
  | some e =>
    have hmem : j ∈ m.theMAF.inOrder p ↔ P e.wait = true := by
      rw [OrderedIndex.mem_inOrder, ← hP]
      constructor
      · rintro ⟨e', he', hp⟩
        cases hj.symm.trans he'
        exact hp
      · exact fun hp => ⟨e, hj, hp⟩
    simp only [hmem, Option.map_some]
    split
    · rfl
    · rfl

end MissAddressFile

/-! ### Decisions -/

namespace ProcessAction

/-- The request has been granted in some way, and will be acknowledged. -/
def granted : ProcessAction → Bool
  | reply | fwdAndWaitAck | notifyAndWaitAck => true
  | _ => false

/-- An entry that waits for an eviction will be woken. -/
def wakes : ProcessAction → Bool
  | wakeEvictMAF | fwdAndWakeEvictMAF => true
  | _ => false

/-- An entry that waits for an acknowledgement will be removed, and those behind it
woken. -/
def removes : ProcessAction → Bool
  | removeAndWakeMAF | replyAndRemoveMAF => true
  | _ => false

/-- The message has been put into the miss address file. -/
def entered : ProcessAction → Bool
  | stall => true
  | a => a.granted

/-- Nothing will be done to the miss address file. -/
def idle : ProcessAction → Bool
  | forward | noAction | reply => true
  | _ => false

variable {a : ProcessAction}

theorem inert_of_granted (h : a.granted = true) : a.wakes = false ∧ a.removes = false := by
  cases a <;> first | exact ⟨rfl, rfl⟩ | cases h

theorem inert_of_entered (h : a.entered = true) : a.wakes = false ∧ a.removes = false := by
  cases a <;> first | exact ⟨rfl, rfl⟩ | cases h

theorem entered_of_granted (h : a.granted = true) : a.entered = true := by
  cases a <;> first | rfl | cases h

theorem inert_of_idle (h : a.idle = true) : a.wakes = false ∧ a.removes = false := by
  cases a <;> first | exact ⟨rfl, rfl⟩ | cases h

theorem removes_of_wakes (h : a.wakes = true) : a.removes = false := by
  cases a <;> first | rfl | cases h

end ProcessAction

/-- **A message enters the miss address file** in some state: its own entry is changed,
if it has one, or a new one is made. -/
inductive Enters (W : Waits) (maf : Option ℕ) (msg a : ℕ) (st : MAFState) :
    Bool → Waits → ℕ → Prop
  | own {i : ℕ} {w : Wait} (hmaf : maf = some i) (hi : W.entry i = some w) :
      Enters W maf msg a st true (W.set i ⟨w.address, st, msg⟩) i
  | new : Enters W maf msg a st false (W.add ⟨a, st, msg⟩) W.next

/-- Why a message may go to sleep at an address. -/
def SleepsFor (owes : ℕ → Prop) (W : Waits) (a : ℕ) : MAFState → Prop
  | .waitSet => True
  | .waitRequest => ∃ j w, W.entry j = some w ∧ w.address = a ∧
      (w.state = .waitRequest ∨ w.state = .waitEvict ∨ w.state = .waitAck)
  | .waitEvict => owes a ∧ ∀ j w, W.entry j = some w → w.address = a → w.state ≠ .waitEvict
  | _ => False

/-- **What a process decides about the miss address file.** The message has the address
`msg`, and the process has the iterator `maf`; `W` and `W'` are the tables before and
after, and `p` is the process with its action. -/
inductive Decision (block : ℕ → ℕ) (owes : ℕ → Prop) (W : Waits) (maf : Option ℕ) (msg : ℕ)
    (hasMaf : Bool) (W' : Waits) (p : Process) : Prop
  /-- The message goes to sleep. -/
  | sleep {a i : ℕ} {st : MAFState} (haction : p.action = .stall) (hmaf : p.maf = maf)
      (ha : a = block msg ∨ (a = msg ∧ st = .waitRequest)) (henters : Enters W maf msg a st hasMaf W' i)
      (hfor : SleepsFor owes W a st)
  /-- The request is active. -/
  | activate {i : ℕ} (haction : p.action.granted = true) (hmaf : p.maf = some i)
      (henters : Enters W maf msg (block msg) .waitAck hasMaf W' i)
  /-- The request is not needed any more. -/
  | redundant (haction : p.action = if hasMaf then .removeMAF else .noAction)
      (hmaf : p.maf = maf) (hW : W' = W)
  /-- An entry is picked that waits for an eviction. -/
  | pick {i : ℕ} {w : Wait} (haction : p.action.wakes = true) (hmaf : p.maf = some i)
      (hi : W.entry i = some w) (hst : w.state = .waitEvict) (ha : w.address = msg) (hW : W' = W)
  /-- An entry is picked whose request is finished. -/
  | finish {i : ℕ} {w : Wait} (haction : p.action.removes = true) (hmaf : p.maf = some i)
      (hi : W.entry i = some w) (hst : w.state = .waitAck) (ha : w.address = msg) (hW : W' = W)
  /-- The file is left alone. A request is not answered without an entry. -/
  | pass (haction : p.action.idle = true) (hanswer : p.type ≠ .reply → p.action ≠ .reply)
      (hW : W' = W)

/-- **What the end of a process does to the miss address file.** The requests that wait for
room in a set of the directory are woken with those of the block. -/
inductive Finalizes (sameSet : ℕ → ℕ → Bool) (W : Waits) (p : Process) : Waits → Prop
  /-- An entry is woken with the requests behind it. -/
  | wake {i : ℕ} {w : Wait} (haction : p.action.wakes = true) (hmaf : p.maf = some i)
      (hi : W.entry i = some w) :
      Finalizes sameSet W p (W.wake fun j v =>
        decide (j = i ∨ (v.address = w.address ∧ v.state = .waitRequest)))
  /-- An entry is removed, and another request of the block is still active. -/
  | remove {i j : ℕ} {w v : Wait} (haction : p.action.removes = true) (hmaf : p.maf = some i)
      (hi : W.entry i = some w) (hj : (W.erase i).entry j = some v)
      (ha : v.address = p.transport.address) (hst : v.state = .waitAck) :
      Finalizes sameSet W p (W.erase i)
  /-- An entry is removed, and the requests that waited for it are woken. -/
  | removeAndWake {i : ℕ} {w : Wait} (haction : p.action.removes = true)
      (hmaf : p.maf = some i) (hi : W.entry i = some w) :
      Finalizes sameSet W p ((W.erase i).wake fun _ v =>
        (v.state == .waitRequest && v.address == p.transport.address) ||
          (v.state == .waitSet && sameSet p.transport.address v.address))
  /-- An entry is removed that was not needed. -/
  | drop {i : ℕ} {w : Wait} (haction : p.action = .removeMAF) (hmaf : p.maf = some i)
      (hi : W.entry i = some w) : Finalizes sameSet W p (W.erase i)
  /-- The file is left alone. -/
  | idle (hwakes : p.action.wakes = false) (hremoves : p.action.removes = false) :
      Finalizes sameSet W p W

theorem Enters.size {W W' : Waits} {maf : Option ℕ} {msg a i : ℕ} {st : MAFState} {hasMaf : Bool}
    (h : Enters W maf msg a st hasMaf W' i) :
    W'.size = W.size + (!hasMaf).toNat := by
  cases h with
  | own hmaf hi => exact Waits.size_set hi
  | new => exact Waits.size_add

/-- **A request gets an entry** when it is put to sleep or granted, if it has none, and never
otherwise. -/
theorem Decision.size {block : ℕ → ℕ} {owes : ℕ → Prop} {W W' : Waits} {maf : Option ℕ} {msg : ℕ}
    {hasMaf : Bool} {p : Process} (h : Decision block owes W maf msg hasMaf W' p)
    (hp : p.type ≠ .reply) :
    W'.size = W.size + (p.action.entered && !hasMaf).toNat := by
  have hleft : W' = W → p.action.entered = false →
      W'.size = W.size + (p.action.entered && !hasMaf).toNat := by
    intro hW hent
    rw [hW, hent]
    rfl
  have hinert : p.action.wakes = true ∨ p.action.removes = true → p.action.entered = false := by
    intro hact
    rw [Bool.eq_false_iff]
    intro hent
    obtain ⟨hw, hr⟩ := ProcessAction.inert_of_entered hent
    rw [hw, hr] at hact
    exact hact.elim nofun nofun
  cases h with
  | sleep haction hmaf ha henters hfor =>
    rw [haction]
    exact henters.size
  | activate haction hmaf henters =>
    rw [ProcessAction.entered_of_granted haction]
    exact henters.size
  | redundant haction hmaf hW =>
    refine hleft hW ?_
    rw [haction]
    cases hasMaf <;> rfl
  | pick haction hmaf hi hst ha hW => exact hleft hW (hinert (.inl haction))
  | finish haction hmaf hi hst ha hW => exact hleft hW (hinert (.inr haction))
  | pass haction hanswer hW =>
    refine hleft hW ?_
    have hne := hanswer hp
    revert haction hne
    cases p.action <;> simp [ProcessAction.idle, ProcessAction.entered, ProcessAction.granted]

/-- **Finalizing a process** takes away the entry that it removes, and no other. -/
theorem Finalizes.size {sameSet : ℕ → ℕ → Bool} {W W' : Waits} {p : Process}
    (h : Finalizes sameSet W p W') (hpast : W.Past) (hk : p.action ≠ .removeMAF) :
    W'.size + p.action.removes.toNat = W.size := by
  cases h with
  | wake haction =>
    rw [ProcessAction.removes_of_wakes haction]
    exact Waits.size_wake
  | remove haction hmaf hi =>
    rw [haction]
    exact Waits.size_erase hpast hi
  | removeAndWake haction hmaf hi =>
    rw [haction, Waits.size_wake]
    exact Waits.size_erase hpast hi
  | drop haction => exact absurd haction hk
  | idle hwakes hremoves => rw [hremoves]; rfl

/-- **A process that removes an entry** finds it in the file, and leaves the file without it. -/
theorem Finalizes.of_removes {sameSet : ℕ → ℕ → Bool} {W W' : Waits} {p : Process}
    (h : Finalizes sameSet W p W') (hr : p.action.removes = true) :
    ∃ i w, p.maf = some i ∧ W.entry i = some w ∧ W'.entry i = none := by
  cases h with
  | wake haction =>
    rw [ProcessAction.removes_of_wakes haction] at hr
    cases hr
  | remove haction hmaf hi => exact ⟨_, _, hmaf, hi, by rw [Waits.entry_erase, if_pos rfl]⟩
  | removeAndWake haction hmaf hi =>
    exact ⟨_, _, hmaf, hi, by rw [Waits.entry_wake, Waits.entry_erase, if_pos rfl]; rfl⟩
  | drop haction hmaf hi => exact ⟨_, _, hmaf, hi, by rw [Waits.entry_erase, if_pos rfl]⟩
  | idle hwakes hremoves =>
    rw [hremoves] at hr
    cases hr

/-- A process that wakes and removes nothing leaves the file alone. -/
theorem Finalizes.eq_of_inert {sameSet : ℕ → ℕ → Bool} {W W' : Waits} {p : Process}
    (h : Finalizes sameSet W p W') (hw : p.action.wakes = false) (hr : p.action.removes = false)
    (hk : p.action ≠ .removeMAF) : W' = W := by
  cases h with
  | wake haction => rw [haction] at hw; cases hw
  | remove haction => rw [haction] at hr; cases hr
  | removeAndWake haction => rw [haction] at hr; cases hr
  | drop haction => exact absurd haction hk
  | idle => rfl

theorem Finalizes.congr {sameSet : ℕ → ℕ → Bool} {W W' : Waits} {p q : Process}
    (h : Finalizes sameSet W q W') (ha : q.action = p.action) (hm : q.maf = p.maf)
    (ht : q.transport = p.transport) : Finalizes sameSet W p W' := by
  cases h with
  | wake haction hmaf hi => exact .wake (ha ▸ haction) (hm ▸ hmaf) hi
  | remove haction hmaf hi hj haddr hst =>
    exact .remove (ha ▸ haction) (hm ▸ hmaf) hi hj (ht ▸ haddr) hst
  | removeAndWake haction hmaf hi =>
    rw [ht]
    exact .removeAndWake (ha ▸ haction) (hm ▸ hmaf) hi
  | drop haction hmaf hi => exact .drop (ha ▸ haction) (hm ▸ hmaf) hi
  | idle hw hr => exact .idle (ha ▸ hw) (ha ▸ hr)

/-- A decision of a process of some type, which keeps its type and the address of its
message. -/
structure Settles (block : ℕ → ℕ) (owes : ℕ → Prop) (W : Waits) (type : ProcessType)
    (maf : Option ℕ) (msg : ℕ) (hasMaf : Bool) (W' : Waits) (p : Process) : Prop where
  decision : Decision block owes W maf msg hasMaf W' p
  address : p.transport.address = msg
  type : p.type = type

theorem SleepsFor.mono {owes owes' : ℕ → Prop} {W : Waits} {a : ℕ} {st : MAFState}
    (h : SleepsFor owes W a st) (ho : ∀ a, owes a → owes' a) : SleepsFor owes' W a st := by
  cases st with
  | waitEvict => exact ⟨ho a h.1, h.2⟩
  | _ => exact h

/-- A decision is the same when more evictions are on their way, and for a process that has
the same entry and action. -/
theorem Settles.mono {block : ℕ → ℕ} {owes owes' : ℕ → Prop} {W W' : Waits} {type : ProcessType}
    {maf : Option ℕ} {msg : ℕ} {hasMaf : Bool} {p q : Process}
    (h : Settles block owes W type maf msg hasMaf W' p) (ho : ∀ a, owes a → owes' a)
    (ha : q.action = p.action) (hm : q.maf = p.maf) (ht : q.transport = p.transport)
    (hty : q.type = p.type) : Settles block owes' W type maf msg hasMaf W' q := by
  refine ⟨?_, by rw [ht, h.address], by rw [hty, h.type]⟩
  cases h.decision with
  | sleep haction hmaf haddr henters hfor =>
    exact .sleep (ha.trans haction) (hm.trans hmaf) haddr henters (hfor.mono ho)
  | activate haction hmaf henters => exact .activate (ha ▸ haction) (hm.trans hmaf) henters
  | redundant haction hmaf hW => exact .redundant (ha.trans haction) (hm.trans hmaf) hW
  | pick haction hmaf hi hst haddr hW =>
    exact .pick (ha ▸ haction) (hm.trans hmaf) hi hst haddr hW
  | finish haction hmaf hi hst haddr hW =>
    exact .finish (ha ▸ haction) (hm.trans hmaf) hi hst haddr hW
  | pass haction hanswer hW =>
    rw [← ha, ← hty] at hanswer
    exact .pass (ha ▸ haction) hanswer hW

variable {δ γ : Type} {cfg : Config δ γ}

namespace Policy

/-- The table of waits of a bank. -/
def waits (s : Policy δ γ) : Waits := s.theMAF.waits

/-- An eviction of the block is on its way: its back-invalidates are not all answered,
or its write-back is not acknowledged. -/
def Owes (s : Policy δ γ) (a : ℕ) : Prop :=
  s.theDirEvictBuffer.invalidatesPending a ∨ s.theCacheEvictBuffer.isPending a

/-- A process that is run takes a decision. -/
def Decides (cfg : Config δ γ) (s : Policy δ γ) (p : Process) (hasMaf : Bool)
    (s' : Policy δ γ) (p' : Process) : Prop :=
  Settles cfg.array.blockAddress s'.Owes s.waits p.type p.maf p.transport.address hasMaf
    s'.waits p'

variable {s s' : Policy δ γ} {p p' : Process} {b hasMaf mafWaiting found fwd : Bool}
  {a i : ℕ} {st : MAFState} {w : Wait} {action : ProcessAction}

theorem hold_spec (h : s.hold p hasMaf a st = .ok (s', i)) :
    s' = { s with theMAF := s'.theMAF } ∧
      Enters s.waits p.maf p.transport.address a st hasMaf s'.waits i := by
  rw [hold] at h
  cases hasMaf with
  | true =>
    simp only [if_true] at h
    split at h
    · cases h
    · rename_i k hk
      split at h
      · cases h
      · rename_i m hm
        cases h
        obtain ⟨w, hw, hset⟩ := MissAddressFile.waits_setState hm
        refine ⟨rfl, ?_⟩
        simp only [waits, hset]
        exact .own hk hw
  | false =>
    cases h
    refine ⟨rfl, ?_⟩
    simp only [waits, MissAddressFile.waits_insert]
    exact .new

/-- **Going to sleep** changes nothing but the miss address file. -/
theorem stallIn_spec (h : s.stallIn p hasMaf a st = .ok (s', p')) :
    s' = { s with theMAF := s'.theMAF } ∧ p' = { p with action := .stall } ∧
      ∃ i, Enters s.waits p.maf p.transport.address a st hasMaf s'.waits i := by
  rw [stallIn] at h
  split at h
  · cases h
  · rename_i s'' k hk
    cases h
    obtain ⟨hs, he⟩ := hold_spec hk
    exact ⟨hs, rfl, k, he⟩

theorem stallIn_decides (h : s.stallIn p hasMaf a st = .ok (s', p'))
    (ha : a = cfg.array.blockAddress p.transport.address ∨
      (a = p.transport.address ∧ st = .waitRequest))
    (hfor : SleepsFor s.Owes s.waits a st) : Decides cfg s p hasMaf s' p' := by
  obtain ⟨hs, rfl, i, he⟩ := stallIn_spec h
  have howes : s'.Owes = s.Owes := by
    rw [hs]
    rfl
  refine ⟨.sleep rfl rfl ha he ?_, rfl, rfl⟩
  rw [howes]
  exact hfor

theorem accept_decides (h : s.accept p hasMaf a action = .ok (s', p'))
    (ha : a = cfg.array.blockAddress p.transport.address) (hact : action.granted = true) :
    Decides cfg s p hasMaf s' p' := by
  rw [accept] at h
  split at h
  · cases h
  · rename_i s'' k hk
    cases h
    subst ha
    exact ⟨.activate hact rfl (hold_spec hk).2, rfl, rfl⟩

theorem acceptKeeping_decides (h : s.acceptKeeping p hasMaf a action = .ok (s', p'))
    (ha : a = cfg.array.blockAddress p.transport.address) (hact : action.granted = true) :
    Decides cfg s p hasMaf s' p' := by
  rw [acceptKeeping] at h
  split at h
  · cases h
  · rename_i s'' k hk
    cases h
    subst ha
    refine ⟨.activate hact rfl ?_, rfl, rfl⟩
    simp only [waits, MissAddressFile.waits_setCacheEBReserved]
    exact (hold_spec hk).2

/-! ### Requests -/

/-- Nothing of the block waits for an eviction, and a request of it is active if the
new one is to take that into account. -/
structure Admitted (W : Waits) (a : ℕ) (mafWaiting : Bool) : Prop where
  noEvict : ∀ j w, W.entry j = some w → w.address = a → w.state ≠ .waitEvict
  active : mafWaiting = true → ∃ j w, W.entry j = some w ∧ w.address = a ∧ w.state = .waitAck

theorem Admitted.sleepsFor {owes : ℕ → Prop} {W : Waits} (h : Admitted W a mafWaiting)
    (hw : mafWaiting = true) : SleepsFor owes W a .waitRequest := by
  obtain ⟨j, w, hj, ha, hst⟩ := h.active hw
  exact ⟨j, w, hj, ha, .inr (.inr hst)⟩

/-- A decision is the same for another process that has the same entry and message, and
for another bank with the same table. -/
theorem Decides.frame {t : Policy δ γ} {q : Process} (h : Decides cfg t q hasMaf s' p')
    (hw : t.waits = s.waits) (hm : q.maf = p.maf)
    (ha : q.transport.address = p.transport.address) (ht : q.type = p.type) :
    Decides cfg s p hasMaf s' p' := by
  rwa [Decides, hw, hm, ha, ht] at h

theorem serveFromMemory_decides (h : s.serveFromMemory p hasMaf mafWaiting a = .ok (s', p'))
    (ha : a = cfg.array.blockAddress p.transport.address)
    (hadm : Admitted s.waits a mafWaiting) : Decides cfg s p hasMaf s' p' := by
  simp only [serveFromMemory] at h
  split at h
  · rename_i hw
    exact stallIn_decides h (.inl ha) (hadm.sleepsFor hw)
  · split at h
    · exact (accept_decides h ha rfl).frame rfl rfl rfl rfl
    · exact (accept_decides h ha rfl).frame rfl rfl rfl rfl
    · exact (acceptKeeping_decides h ha rfl).frame rfl rfl rfl rfl
    · exact (acceptKeeping_decides h ha rfl).frame rfl rfl rfl rfl
    · cases h

theorem waits_giveAway (cfg : Config δ γ) (s : Policy δ γ) (a : ℕ) (sole : Bool)
    (c : CacheState) : (s.giveAway cfg a sole c).waits = s.waits := by
  rw [giveAway]
  split
  · rfl
  · rfl

theorem serveRead_decides {d : SimpleDirectoryState} {c : CacheState}
    (h : s.serveRead cfg p hasMaf mafWaiting a d c = .ok (s', p'))
    (ha : a = cfg.array.blockAddress p.transport.address)
    (hadm : Admitted s.waits a mafWaiting) : Decides cfg s p hasMaf s' p' := by
  simp only [serveRead] at h
  split at h
  · split at h
    · rename_i hw
      exact stallIn_decides h (.inl ha) (hadm.sleepsFor (Bool.and_eq_true_iff.mp hw).2)
    · exact (acceptKeeping_decides h ha rfl).frame rfl rfl rfl rfl
  · have hw := waits_giveAway cfg s a
      (d.noSharers && c != .shared && !(p.transport.type == fetchReq)) c
    split at h
    · rename_i hb
      refine (stallIn_decides h (.inl ha) ?_).frame hw rfl rfl rfl
      rw [hw]
      exact hadm.sleepsFor (Bool.and_eq_true_iff.mp hb).2
    · split at h
      · cases h
      · exact (accept_decides h ha rfl).frame hw rfl rfl rfl

theorem waits_dropCopy {c : CacheState} : (s.dropCopy cfg a c).waits = s.waits := by
  rw [dropCopy]
  split
  · rfl
  · rfl

theorem serveWrite_decides {d : SimpleDirectoryState} {c : CacheState}
    (h : s.serveWrite cfg p hasMaf a d c = .ok (s', p'))
    (ha : a = cfg.array.blockAddress p.transport.address) : Decides cfg s p hasMaf s' p' := by
  simp only [serveWrite] at h
  by_cases hn : d.noSharers = true
  · rw [if_pos hn] at h
    split at h
    · cases h
    · exact (accept_decides h ha rfl).frame rfl rfl rfl rfl
  · rw [if_neg hn] at h
    obtain ⟨-, h⟩ := of_ite_error_eq_ok h
    refine (accept_decides h ha rfl).frame ?_ rfl rfl rfl
    rw [waits_dropCopy]
    split
    · rfl
    · rfl

theorem serveUpgrade_decides {d : SimpleDirectoryState} {c : CacheState}
    (h : s.serveUpgrade cfg p hasMaf a d c = .ok (s', p'))
    (ha : a = cfg.array.blockAddress p.transport.address) : Decides cfg s p hasMaf s' p' := by
  simp only [serveUpgrade] at h
  split at h
  · obtain ⟨-, h⟩ := of_ite_error_eq_ok h
    exact (accept_decides h ha rfl).frame waits_dropCopy rfl rfl rfl
  · exact (accept_decides h ha rfl).frame waits_dropCopy rfl rfl rfl

theorem serveNAS_decides {c : CacheState} (h : s.serveNAS cfg p hasMaf a c = .ok (s', p'))
    (ha : a = cfg.array.blockAddress p.transport.address) : Decides cfg s p hasMaf s' p' := by
  rw [serveNAS] at h
  split at h
  · exact (accept_decides h ha rfl).frame rfl rfl rfl rfl
  · exact (accept_decides h ha rfl).frame rfl rfl rfl rfl

@[simp]
theorem raced_maf {d : SimpleDirectoryState} : (raced p d).maf = p.maf := by
  rw [raced]
  split
  · rfl
  · rfl

@[simp]
theorem raced_address {d : SimpleDirectoryState} :
    (raced p d).transport.address = p.transport.address := by
  rw [raced]
  split
  · rfl
  · rfl

@[simp]
theorem raced_type {d : SimpleDirectoryState} : (raced p d).type = p.type := by
  rw [raced]
  split
  · rfl
  · rfl

theorem serve_decides (h : s.serve cfg p hasMaf mafWaiting found a = .ok (s', p'))
    (ha : a = cfg.array.blockAddress p.transport.address)
    (hadm : Admitted s.waits a mafWaiting) : Decides cfg s p hasMaf s' p' := by
  simp only [serve] at h
  split at h
  · split at h
    · exact (accept_decides h ha rfl).frame rfl rfl rfl rfl
    · exact (accept_decides h ha rfl).frame rfl rfl rfl rfl
  · generalize hs : (if p.transport.type = nonAllocatingStoreReq then s else _) = t at h
    have hw : t.waits = s.waits := by
      rw [← hs]
      split
      · rfl
      · rfl
    generalize hd : (cfg.directory.lookup t.theDirectory a).getD _ = d at h
    have ha' : a = cfg.array.blockAddress (raced p d).transport.address := by
      rw [raced_address]
      exact ha
    have hadm' : Admitted t.waits a mafWaiting := hw ▸ hadm
    refine Decides.frame (q := raced p d) (t := t) ?_ hw raced_maf raced_address raced_type
    split at h
    · exact serveFromMemory_decides h ha' hadm'
    · split at h
      · exact serveRead_decides h ha' hadm'
      · exact serveRead_decides h ha' hadm'
      · exact serveWrite_decides h ha'
      · exact serveUpgrade_decides h ha'
      · exact serveNAS_decides h ha'
      · cases h

theorem theMAF_evictCacheBlock {state : CacheState} :
    (evictCacheBlock cfg s state a).theMAF = s.theMAF := by
  rw [evictCacheBlock]
  split
  · rfl
  · rfl

theorem waits_evictCacheBlock {state : CacheState} :
    (evictCacheBlock cfg s state a).waits = s.waits :=
  congrArg MissAddressFile.waits theMAF_evictCacheBlock

/-- A request whose write-back is on the way sleeps until that is acknowledged. -/
theorem withArray_decides (h : s.withArray cfg p hasMaf mafWaiting found a = .ok (s', p'))
    (ha : a = cfg.array.blockAddress p.transport.address)
    (hadm : Admitted s.waits a mafWaiting) : Decides cfg s p hasMaf s' p' := by
  rw [withArray] at h
  split at h
  · split at h
    · exact serve_decides h ha hadm
    · rename_i e he
      split at h
      · rename_i hp
        exact stallIn_decides h (.inl ha) ⟨.inr ⟨e, he, hp⟩, hadm.noEvict⟩
      · split at h
        · cases h
        · refine (serve_decides h ha ?_).frame waits_evictCacheBlock rfl rfl rfl
          rw [waits_evictCacheBlock]
          exact hadm
  · exact serve_decides h ha hadm

theorem waits_allocateEntry {d : SimpleDirectoryState} (h : s.allocateEntry cfg a d = some s') :
    s'.waits = s.waits := by
  rw [allocateEntry] at h
  split at h
  · cases h
  · cases h
    rfl

theorem withDirectory_decides (h : s.withDirectory cfg p hasMaf mafWaiting a = .ok (s', p'))
    (ha : a = cfg.array.blockAddress p.transport.address)
    (hadm : Admitted s.waits a mafWaiting) : Decides cfg s p hasMaf s' p' := by
  rw [withDirectory] at h
  split at h
  · exact withArray_decides h ha hadm
  · split at h
    · split at h
      · exact stallIn_decides h (.inl ha) trivial
      · rename_i t ht
        split at h
        · cases h
        · have hw := waits_allocateEntry ht
          refine (withArray_decides h ha ?_).frame hw rfl rfl rfl
          exact hw.symm ▸ hadm
    · split at h
      · exact withArray_decides h ha hadm
      · split at h
        · exact stallIn_decides h (.inl ha) trivial
        · rename_i t ht
          have hw := waits_allocateEntry ht
          refine (withArray_decides h ha ?_).frame hw rfl rfl rfl
          exact hw.symm ▸ hadm

/-! ### Evictions -/

theorem entry_of_get {e : MAFEntry} (h : s.theMAF.get i = some e) :
    s.waits.entry i = some e.wait := MissAddressFile.waits_entry.mpr ⟨e, h, rfl⟩

theorem evictData_frame (h : evictData cfg s p = .ok (s', p', fwd)) : s'.waits = s.waits ∧
    p'.maf = p.maf ∧ p'.transport.address = p.transport.address ∧ p'.type = p.type ∧
    p'.transport.dest.requester = p.transport.dest.requester := by
  simp only [evictData] at h
  split at h
  · split at h
    · split at h
      · cases h
      · cases h
        exact ⟨waits_evictCacheBlock, rfl, rfl, rfl, rfl⟩
    · split at h
      · cases h
        exact ⟨rfl, rfl, rfl, rfl, rfl⟩
      · cases h
        exact ⟨rfl, rfl, rfl, rfl, rfl⟩
  · cases h
    exact ⟨rfl, rfl, rfl, rfl, rfl⟩

theorem idle_evictAction : (evictAction fwd false).idle = true := by cases fwd <;> rfl

theorem evictAction_ne_reply : evictAction fwd false ≠ .reply := by cases fwd <;> decide

theorem wakes_evictAction : (evictAction fwd true).wakes = true := by cases fwd <;> rfl

theorem evictSharer_action {activeWrite : Bool}
    (h : evictSharer cfg s p activeWrite fwd = .ok (s', p')) : ∃ b, p'.action = evictAction fwd b := by
  simp only [evictSharer] at h
  split at h
  · obtain ⟨-, h⟩ := of_ite_error_eq_ok h
    split at h
    · cases h
    · split at h
      · split at h
        · cases h
        · split at h
          · cases h
            exact ⟨_, rfl⟩
          · obtain ⟨-, h⟩ := of_ite_error_eq_ok h
            cases h
            exact ⟨_, rfl⟩
      · cases h
        exact ⟨_, rfl⟩
  · split at h
    · cases h
      exact ⟨_, rfl⟩
    · split at h
      · cases h
      · cases h
        exact ⟨_, rfl⟩

/-- An eviction picks the entry that waits for its block to leave the directory, if the
block has left it. -/
theorem evictSharer_decides {activeWrite : Bool}
    (h : evictSharer cfg s p activeWrite fwd = .ok (s', p')) : Decides cfg s p hasMaf s' p' := by
  simp only [evictSharer] at h
  split at h
  · obtain ⟨-, h⟩ := of_ite_error_eq_ok h
    split at h
    · cases h
    · split at h
      · split at h
        · cases h
        · split at h
          · cases h
            exact ⟨.pass idle_evictAction (fun _ => evictAction_ne_reply) rfl, rfl, rfl⟩
          · rename_i x hx
            obtain ⟨-, h⟩ := of_ite_error_eq_ok h
            cases h
            obtain ⟨hg, ha, hst⟩ := MissAddressFile.findFirst_spec hx
            exact ⟨.pick wakes_evictAction rfl (entry_of_get hg) hst ha rfl, rfl, rfl⟩
      · cases h
        exact ⟨.pass idle_evictAction (fun _ => evictAction_ne_reply) rfl, rfl, rfl⟩
  · split at h
    · cases h
      exact ⟨.pass idle_evictAction (fun _ => evictAction_ne_reply) rfl, rfl, rfl⟩
    · split at h
      · cases h
      · cases h
        exact ⟨.pass idle_evictAction (fun _ => evictAction_ne_reply) rfl, rfl, rfl⟩

theorem acknowledge_frame : (acknowledge p).maf = p.maf ∧
    (acknowledge p).transport = p.transport ∧ (acknowledge p).type = p.type := by
  rw [acknowledge]
  split
  · exact ⟨rfl, rfl, rfl⟩
  · exact ⟨rfl, rfl, rfl⟩

theorem evictMustWait_spec {t : Transport} (h : s.evictMustWait t = true) :
    ∃ j w, s.waits.entry j = some w ∧ w.address = t.address ∧ w.msg = t.address ∧
      w.state = .waitAck := by
  obtain ⟨x, hx, hp⟩ := List.any_eq_true.mp h
  obtain ⟨hg, ha, hst⟩ := MissAddressFile.mem_findAll.mp hx
  exact ⟨x.serial, x.item.wait, entry_of_get hg, ha, beq_iff_eq.mp (Bool.and_eq_true_iff.mp hp).1,
    hst⟩

theorem doEvict_decides (h : s.doEvict cfg p hasMaf = .ok (s', p')) :
    Decides cfg s p hasMaf s' p' := by
  obtain ⟨hm, ht, htype⟩ := acknowledge_frame (p := p)
  simp only [doEvict] at h
  split at h
  · rename_i hw
    obtain ⟨j, w, hj, ha, -, hst⟩ := evictMustWait_spec hw
    exact stallIn_decides h (.inr ⟨rfl, rfl⟩) ⟨j, w, hj, ha, .inr (.inr hst)⟩
  · split at h
    · split at h
      · cases h
      · rename_i s₁ p₁ fwd hd
        obtain ⟨hw₁, hm₁, ha₁, ht₁, -⟩ := evictData_frame hd
        exact (evictSharer_decides h).frame hw₁ (hm₁.trans hm)
          (ha₁.trans (congrArg (fun t => t.address) ht)) (ht₁.trans htype)
    · exact (evictSharer_decides h).frame rfl hm (congrArg (fun t => t.address) ht) htype

/-! ### All requests -/

theorem admitRequest_decides (h : s.admitRequest cfg p hasMaf mafWaiting a = .ok (s', p'))
    (ha : a = cfg.array.blockAddress p.transport.address)
    (hadm : Admitted s.waits a mafWaiting) : Decides cfg s p hasMaf s' p' := by
  rw [admitRequest] at h
  split at h
  · exact doEvict_decides h
  · split at h
    · cases h
      exact ⟨.redundant rfl rfl rfl, rfl, rfl⟩
    · split at h
      · rename_i e he
        split at h
        · rename_i hp
          exact stallIn_decides h (.inl ha) ⟨.inl ⟨e, he, hp⟩, hadm.noEvict⟩
        · exact withDirectory_decides h ha hadm
      · exact withDirectory_decides h ha hadm

/-- The state of the first entry of an address bounds the states of the others. -/
theorem admitted_of_find {x : Slot MAFEntry} (h : s.theMAF.find a = some x)
    (hst : 3 ≤ x.item.state.toNat) (hw : mafWaiting = true → x.item.state = .waitAck) :
    Admitted s.waits a mafWaiting := by
  obtain ⟨hg, ha, hmin⟩ := MissAddressFile.find_spec h
  constructor
  · intro j w hj hja hjst
    obtain ⟨e, he, rfl⟩ := MissAddressFile.waits_entry.mp hj
    have := hmin j e he hja
    rw [show e.state = .waitEvict from hjst, MAFState.toNat] at this
    omega
  · exact fun hb => ⟨x.serial, x.item.wait, entry_of_get hg, ha, hw hb⟩

/-- **`doRequest` takes a decision.** -/
theorem doRequest_decides (h : s.doRequest cfg p hasMaf = .ok (s', p')) :
    Decides cfg s p hasMaf s' p' := by
  simp only [doRequest] at h
  split at h
  · rename_i hnone
    refine admitRequest_decides h rfl ⟨fun j w hj ha => ?_, nofun⟩
    obtain ⟨e, he, rfl⟩ := MissAddressFile.waits_entry.mp hj
    exact absurd ha (MissAddressFile.find_eq_none.mp hnone j e he)
  · rename_i x hx
    obtain ⟨hg, ha, -⟩ := MissAddressFile.find_spec hx
    split at h
    · split at h
      · exact doEvict_decides h
      · exact stallIn_decides h (.inl rfl) trivial
    · rename_i hst
      split at h
      · exact doEvict_decides h
      · exact stallIn_decides h (.inl rfl)
          ⟨x.serial, x.item.wait, entry_of_get hg, ha, .inr (.inl hst)⟩
    · rename_i hst
      exact stallIn_decides h (.inl rfl) ⟨x.serial, x.item.wait, entry_of_get hg, ha, .inl hst⟩
    · rename_i hst
      split at h
      · exact stallIn_decides h (.inl rfl)
          ⟨x.serial, x.item.wait, entry_of_get hg, ha, .inr (.inr hst)⟩
      · exact admitRequest_decides h rfl (admitted_of_find hx (by rw [hst]; decide) fun _ => hst)
    · rename_i hst
      exact admitRequest_decides h rfl (admitted_of_find hx (by rw [hst]; decide) nofun)
    · rename_i hst
      exact admitRequest_decides h rfl (admitted_of_find hx (by rw [hst]; decide) nofun)
    · rename_i hst
      exact admitRequest_decides h rfl (admitted_of_find hx (by rw [hst]; decide) nofun)
    · cases h

/-! ### Replies -/

theorem matching_spec {t : Transport} {x : Slot MAFEntry} (h : s.matching t = some x) :
    s.theMAF.get x.serial = some x.item ∧ x.item.address = t.address ∧
      x.item.state = .waitAck :=
  MissAddressFile.mem_findAll.mp (List.mem_of_find?_eq_some h)

theorem takeReserved_frame {x : Slot MAFEntry} (h : s.takeReserved p x = (s', p')) :
    s'.waits = s.waits ∧ p'.maf = p.maf ∧ p'.transport = p.transport ∧ p'.type = p.type := by
  rw [takeReserved] at h
  split at h
  · cases h
    exact ⟨MissAddressFile.waits_setCacheEBReserved, rfl, rfl, rfl⟩
  · cases h
    exact ⟨rfl, rfl, rfl, rfl⟩

theorem waits_fill (h : s.fill cfg a = .ok s') : s'.waits = s.waits := by
  rw [fill] at h
  split at h
  · obtain ⟨-, h⟩ := of_ite_error_eq_ok h
    rw [allocateBlock] at h
    split at h
    · cases h
    · cases h
      exact waits_evictCacheBlock
  · cases h
    rfl

theorem waits_afterWrite : (s.afterWrite cfg a).waits = s.waits := by
  rw [afterWrite]
  split
  · split
    · split
      · rfl
      · rfl
    · rfl
  · rfl

theorem theMAF_recallBlock (h : s.recallBlock cfg a = .ok s') : s'.theMAF = s.theMAF := by
  rw [recallBlock] at h
  split at h
  · split at h
    · cases h
      rfl
    · split at h
      · cases h
        rfl
      · split at h
        · cases h
        · cases h
          exact theMAF_evictCacheBlock
  · cases h
    rfl

/-- **What a reply does**: it takes a decision, leaves the file alone for now, and is going to
remove an entry if it is one of the messages that finish a request. -/
structure Answers (cfg : Config δ γ) (s : Policy δ γ) (p : Process) (finishes : Bool)
    (s' : Policy δ γ) (p' : Process) : Prop where
  decides : Decides cfg s p false s' p'
  waits : s'.waits = s.waits
  message : p'.transport.type = p.transport.type
  removes : p'.action.removes = finishes

theorem Answers.frame {t : Policy δ γ} {q : Process} (h : Answers cfg t q b s' p')
    (hw : t.waits = s.waits) (hm : q.maf = p.maf) (ht : q.transport = p.transport)
    (hty : q.type = p.type) : Answers cfg s p b s' p' :=
  ⟨h.decides.frame hw hm (congrArg (·.address) ht) hty, h.waits.trans hw,
    h.message.trans (congrArg (·.type) ht), h.removes⟩

theorem Answers.of_pass (haction : p'.action.idle = true)
    (hanswer : p'.type ≠ .reply → p'.action ≠ .reply) (hw : s'.waits = s.waits)
    (ht : p'.transport = p.transport) (hty : p'.type = p.type) : Answers cfg s p false s' p' :=
  ⟨⟨.pass haction hanswer hw, congrArg (·.address) ht, hty⟩, hw, congrArg (·.type) ht,
    (ProcessAction.inert_of_idle haction).2⟩

theorem Answers.of_pick {x : Slot MAFEntry} (haction : p'.action.wakes = true)
    (hmaf : p'.maf = some x.serial)
    (hx : s.theMAF.findFirst p.transport.address .waitEvict = some x) (hw : s'.waits = s.waits)
    (ht : p'.transport = p.transport) (hty : p'.type = p.type) : Answers cfg s p false s' p' := by
  obtain ⟨hg, ha, hst⟩ := MissAddressFile.findFirst_spec hx
  exact ⟨⟨.pick haction hmaf (entry_of_get hg) hst ha hw, congrArg (·.address) ht, hty⟩, hw,
    congrArg (·.type) ht, ProcessAction.removes_of_wakes haction⟩

theorem Answers.of_finish {x : Slot MAFEntry} (haction : p'.action.removes = true)
    (hmaf : p'.maf = some x.serial)
    (hx : s.theMAF.get x.serial = some x.item ∧ x.item.address = p.transport.address ∧
      x.item.state = .waitAck) (hw : s'.waits = s.waits)
    (ha : p'.transport.address = p.transport.address)
    (ht : p'.transport.type = p.transport.type) (hty : p'.type = p.type) :
    Answers cfg s p true s' p' :=
  ⟨⟨.finish haction hmaf (entry_of_get hx.1) hx.2.2 hx.2.1 hw, ha, hty⟩, hw, ht, haction⟩

/-- The last answer picks the entry that waits for the block to leave the directory. -/
theorem lastInvalidate_answers (h : s.lastInvalidate p = .ok (s', p'))
    (hp : p.action.idle = true) (hne : p.action ≠ .reply) : Answers cfg s p false s' p' := by
  simp only [lastInvalidate] at h
  split at h
  · cases h
  · rename_i e he
    by_cases h0 : e.theInvalidatesSent = 0
    · rw [if_pos h0] at h
      obtain ⟨-, h⟩ := of_ite_error_eq_ok h
      generalize hq : (if 0 < e.cacheEBReserved then _ else p) = q at h
      have hframe : q.action = p.action ∧ q.transport = p.transport ∧ q.type = p.type := by
        rw [← hq]
        split
        · exact ⟨rfl, rfl, rfl⟩
        · exact ⟨rfl, rfl, rfl⟩
      obtain ⟨hact, htr, hty⟩ := hframe
      split at h
      · cases h
      · split at h
        · cases h
          exact .of_pass (hact ▸ hp) (fun _ => hact ▸ hne) rfl htr hty
        · rename_i x hx
          cases h
          exact .of_pick rfl rfl hx rfl htr hty
    · rw [if_neg h0] at h
      cases h
      exact .of_pass hp (fun _ => hne) rfl rfl rfl

theorem invUpdate_frame (h : s.invUpdate cfg p = .ok (s', p')) : s'.waits = s.waits ∧
    p'.action = p.action ∧ p'.maf = p.maf ∧ p'.transport = p.transport ∧ p'.type = p.type := by
  simp only [invUpdate] at h
  split at h
  · cases h
  · rename_i t ht
    have hw := waits_fill ht
    cases h
    exact ⟨hw, rfl, rfl, rfl, rfl⟩

theorem handleInvalidateAck_answers (h : s.handleInvalidateAck cfg p = .ok (s', p')) :
    Answers cfg s p false s' p' := by
  simp only [handleInvalidateAck] at h
  split at h
  · cases h
  · split at h
    · cases h
    · by_cases hu : p.transport.type = invUpdateAck
      · rw [if_pos hu] at h
        split at h
        · cases h
        · rename_i s₁ p₁ hd
          obtain ⟨hw, hact, hm, ht, hty⟩ := invUpdate_frame hd
          refine (lastInvalidate_answers h (hact ▸ rfl) ?_).frame hw hm ht hty
          rw [hact]
          exact nofun
      · rw [if_neg hu] at h
        exact (lastInvalidate_answers h rfl nofun).frame rfl rfl rfl rfl

theorem handleReadAck_answers (h : s.handleReadAck cfg p = .ok (s', p')) :
    Answers cfg s p true s' p' := by
  simp only [handleReadAck] at h
  split at h
  · cases h
  · rename_i x hx
    generalize hr : s.takeReserved _ x = r at h
    obtain ⟨s₁, p₁⟩ := r
    obtain ⟨hw, hm, ht, hty⟩ := takeReserved_frame hr
    have haddr : p₁.transport.address = p.transport.address := congrArg (·.address) ht
    have htype : p₁.transport.type = p.transport.type := congrArg (·.type) ht
    split at h
    · cases h
    · split at h
      · cases h
      · split at h
        · split at h
          · cases h
          · rename_i t hfill
            have hw₂ := (waits_fill hfill).trans hw
            cases h
            exact .of_finish rfl hm (matching_spec hx) hw₂ haddr htype hty
        · cases h
          exact .of_finish rfl hm (matching_spec hx) hw haddr htype hty

theorem handleNASAck_answers (h : s.handleNASAck p = .ok (s', p')) :
    Answers cfg s p true s' p' := by
  simp only [handleNASAck] at h
  split at h
  · cases h
  · rename_i x hx
    obtain ⟨-, h⟩ := of_ite_error_eq_ok h
    generalize hr : s.takeReserved _ x = r at h
    obtain ⟨s₁, p₁⟩ := r
    obtain ⟨hw, hm, ht, hty⟩ := takeReserved_frame hr
    cases h
    exact .of_finish rfl hm (MissAddressFile.findFirst_spec hx) hw (congrArg (·.address) ht)
      (congrArg (·.type) ht) hty

theorem handleWriteAck_answers {type : MemoryMessageType}
    (h : s.handleWriteAck cfg p type = .ok (s', p')) : Answers cfg s p true s' p' := by
  simp only [handleWriteAck] at h
  split at h
  · cases h
  · rename_i x hx
    obtain ⟨-, h⟩ := of_ite_error_eq_ok h
    split at h
    · cases h
    · split at h
      · cases h
      · generalize hr : takeReserved _ _ x = r at h
        obtain ⟨s₁, p₁⟩ := r
        obtain ⟨hw, hm, ht, hty⟩ := takeReserved_frame hr
        rw [waits_afterWrite] at hw
        cases h
        exact .of_finish rfl hm (MissAddressFile.findFirst_spec hx) hw
          (congrArg (·.address) ht) (congrArg (·.type) ht) hty

theorem handleNASReply_answers (h : s.handleNASReply p = .ok (s', p')) :
    Answers cfg s p true s' p' := by
  simp only [handleNASReply] at h
  split at h
  · cases h
  · rename_i x hx
    cases h
    exact .of_finish rfl rfl (matching_spec hx) rfl rfl rfl rfl

theorem handleMemoryReply_answers (h : s.handleMemoryReply cfg p = .ok (s', p'))
    (hp : p.type = .reply) : Answers cfg s p false s' p' := by
  simp only [handleMemoryReply] at h
  split at h
  · cases h
  · rename_i x hx
    generalize hr : s.takeReserved _ x = r at h
    obtain ⟨s₁, p₁⟩ := r
    obtain ⟨hw, hm, ht, hty⟩ := takeReserved_frame hr
    have hreply : p₁.type = .reply := hty.trans hp
    split at h
    · split at h
      · cases h
      · rename_i t hfill
        have hw₂ := (waits_fill hfill).trans hw
        cases h
        exact .of_pass rfl (absurd hreply) hw₂ ht hty
    · cases h
      exact .of_pass rfl (absurd hreply) hw ht hty

theorem handleFwdNAck_answers (h : s.handleFwdNAck cfg p = .ok (s', p'))
    (hp : p.type = .reply) : Answers cfg s p false s' p' := by
  simp only [handleFwdNAck] at h
  split at h
  · cases h
  · split at h
    · cases h
    · rename_i x hx
      split at h
      · cases h
      · rename_i t hrec
        have hmaf := theMAF_recallBlock hrec
        have hw : t.waits = s.waits := congrArg MissAddressFile.waits hmaf
        split at h
        · obtain ⟨-, h⟩ := of_ite_error_eq_ok h
          cases h
          exact .of_pass rfl (absurd hp) hw rfl rfl
        · split at h
          · cases h
            -- the message of the entry gets a new destination only
            refine .of_pass rfl (fun _ => nofun) (Eq.trans ?_ hw) rfl rfl
            refine MissAddressFile.waits_modify fun e he => ?_
            rw [hmaf, (matching_spec hx).1] at he
            cases he
            rfl
          · cases h
            exact .of_pass rfl (fun _ => nofun) hw rfl rfl

/-- The acknowledgement of a write-back picks the entry that waits for it. -/
theorem handleEvictAck_answers (h : s.handleEvictAck p = .ok (s', p')) :
    Answers cfg s p false s' p' := by
  simp only [handleEvictAck] at h
  split at h
  · cases h
  · obtain ⟨-, h⟩ := of_ite_error_eq_ok h
    split at h
    · cases h
      exact .of_pass rfl (fun _ => nofun) rfl rfl rfl
    · rename_i x hx
      cases h
      exact .of_pick rfl rfl hx rfl rfl rfl

/-- **The messages that finish a request**: an acknowledgement by the requester, or memory's answer
to a non-allocating store. -/
def finishes : MemoryMessageType → Bool
  | .fetchAckDirty | .readAckDirty | .fetchAck | .readAck | .nasAck | .writeAck | .upgradeAck
  | .nonAllocatingStoreReply => true
  | _ => false

/-- **`handleReply` takes a decision.** -/
theorem handleReply_answers (h : s.handleReply cfg p = .ok (s', p')) (hp : p.type = .reply) :
    Answers cfg s p (finishes p.transport.type) s' p' := by
  rw [handleReply] at h
  split at h
  all_goals first
    | (rename_i ht; rw [ht])
    | skip
  all_goals first
    | exact handleInvalidateAck_answers h
    | exact handleReadAck_answers h
    | exact handleNASAck_answers h
    | exact handleWriteAck_answers h
    | exact handleNASReply_answers h
    | exact handleMemoryReply_answers h hp
    | exact handleFwdNAck_answers h hp
    | exact handleEvictAck_answers h
    | cases h

end Policy

end CMPCache

end Flexus
