import Flexus.FastCMPCache.Coherence
import Mathlib.Tactic.IntervalCases

/-!
# Dirty data in the functional chip multiprocessor

A block that a core has written must stay dirty on chip until it is written back.
Whether it has been written since the last write-back is not in the state of the
system, but follows from what happens: a monitor beside the machine sets a flag
when a core writes a block, and clears it when the shared cache sends the block to
memory as dirty or a private cache gives it to the DMA side as dirty. A
non-allocating store that goes to memory writes the memory itself and sets no
flag.

The flag then means what it should, as long as two things do not happen. A
non-allocating store to a block that neither the requester nor the shared cache
holds, while another data cache has it modified, invalidates that copy and goes to
memory; and a DMA access to a block that the shared cache holds modified makes it
exclusive, or drops it, without a word. In both cases the dirty data is gone.
-/

namespace Flexus

namespace FastCMPCache

open MemoryMessageType FastCache CoherenceState

variable {cfg : Config}

/-- What was put in front of a list. -/
def newest (old new : List MemoryMessage) : List MemoryMessage :=
  new.take (new.length - old.length)

theorem newest_append (ext old : List MemoryMessage) : newest old (ext ++ old) = ext := by
  simp [newest]

/-- The messages that carry dirty data out of the chip. -/
def isWriteBack (m : MemoryMessage) (b : ℕ) : Bool :=
  (m.type = evictDirty ∨ m.type = invUpdateAck ∨ m.type = downUpdateAck) ∧ m.address = b

/-- **Write-backs**: an event writes a block back if the shared cache sends a dirty
eviction of it to memory, or a private cache answers a DMA access with dirty
data. -/
def writesBack (s s' : System cfg) (b : ℕ) : Bool :=
  (newest s.sent s'.sent ++ newest s.dmaReplies s'.dmaReplies).any fun m => isWriteBack m b

/-- The event sends a non-allocating store of the block to memory. -/
def storesThrough (s s' : System cfg) (b : ℕ) : Bool :=
  (newest s.sent s'.sent).any fun m =>
    m.type = nonAllocatingStoreReq ∧ cfg.blockOf m.address = b

/-- **Writes**: an event writes a block on chip if it is a writing request of a
core for that block, other than a store that goes to memory. -/
def writes (s s' : System cfg) (e : Event cfg) (b : ℕ) : Bool :=
  match e with
  | .core _ op a => cfg.blockOf a = b ∧
      (op = .store ∨ op = .rmw ∨ op = .cmpx ∨
        op = .nonAllocatingStore ∧ storesThrough s s' b = false)
  | .dma _ _ => false

/-- The system with the flags of the monitor. -/
structure Monitored (cfg : Config) where
  /-- The system. -/
  sys : System cfg
  /-- The blocks written by a core since they were last written back. -/
  unwritten : ℕ → Bool

/-- **The monitored machine.** -/
def monitored (cfg : Config) : Lib.Machine (Monitored cfg) (Event cfg) Fault where
  init := ⟨.init cfg, fun _ => false⟩
  step m e := do
    let s' ← step m.sys e
    pure ⟨s', fun b => writes m.sys s' e b || (m.unwritten b && !writesBack m.sys s' b)⟩

/-- Dirty data of a block is somewhere on chip: in a data cache or in the shared
cache. -/
def HoldsDirty (s : System cfg) (b : ℕ) : Prop :=
  (∃ c, c < cfg.cmpWidth ∧ (s.l1 (2 * c)).stateOf b = modified) ∨ s.l2.stateOf b = modified

/-- **The events that lose nothing**: a non-allocating store does not hit a block
that only another data cache holds, modified, and a DMA access does not hit a block
that the shared cache holds modified. -/
def Harmless (m : Monitored cfg) : Event cfg → Prop
  | .core c op a => op = .nonAllocatingStore →
      (m.sys.l1 (2 * c)).stateOf (cfg.blockOf a) = invalid →
      m.sys.l2.stateOf (cfg.blockOf a) = invalid →
      ∀ c' < cfg.cmpWidth, (m.sys.l1 (2 * c')).stateOf (cfg.blockOf a) ≠ modified
  | .dma _ a => m.sys.l2.stateOf (cfg.blockOf a) ≠ modified

/-- The invariant of the monitored machine. -/
structure Monitored.Ok (m : Monitored cfg) : Prop where
  sys : m.sys.Ok
  dirty : ∀ b, m.unwritten b = true → ∃ v, m.sys.Shows b v ∧ v.Dirty

/-- Under the invariant a modified private copy is in a data cache. -/
theorem exists_data_of_modified {v : Block} (h : v.Ok (2 * cfg.cmpWidth)) {i : ℕ}
    (hi : v.l1 i = modified) : ∃ c, c < cfg.cmpWidth ∧ i = 2 * c := by
  have hlt := h.lt i (by rw [hi]; nofun)
  have heven : i % 2 = 0 := by
    by_contra hodd
    rcases h.instr i (by omega) with hc | hc <;> rw [hi] at hc <;> cases hc
  exact ⟨i / 2, by omega, by omega⟩

variable {m : Monitored cfg} {s' : System cfg} {b : ℕ}

theorem dirty_of_core (hm : m.Ok) {c : Fin cfg.cmpWidth} {op : Op} {a : ℕ}
    (hsafe : Harmless m (.core c op a)) (h : Completes m.sys (op.cache c) a op s')
    (hb : (writes m.sys s' (.core c op a) b ||
      (m.unwritten b && !writesBack m.sys s' b)) = true) :
    ∃ v, s'.Shows b v ∧ v.Dirty := by
  obtain ⟨ext, hev, hwr⟩ := h
  have hsent : newest m.sys.sent s'.sent = ext := by rw [hev.sent, newest_append]
  rcases Bool.or_eq_true _ _ ▸ hb with hb | hb
  · -- the event writes the block
    simp only [writes, decide_eq_true_eq] at hb
    obtain ⟨rfl, hop⟩ := hb
    rcases hop with rfl | rfl | rfl | ⟨rfl, hst⟩
    · exact (hwr (.inl rfl)).resolve_right (by rintro ⟨hc, -⟩; cases hc)
    · exact (hwr (.inr (.inl rfl))).resolve_right (by rintro ⟨hc, -⟩; cases hc)
    · exact (hwr (.inr (.inr (.inl rfl)))).resolve_right (by rintro ⟨hc, -⟩; cases hc)
    · refine (hwr (.inr (.inr (.inr rfl)))).resolve_right ?_
      rintro ⟨-, hmem⟩
      rw [storesThrough, hsent, List.any_eq_false] at hst
      exact hst _ hmem (by simp)
  · -- the block was dirty before
    obtain ⟨hu, hwb⟩ := Bool.and_eq_true _ _ ▸ hb
    obtain ⟨v, hv, hvd⟩ := hm.dirty b hu
    obtain ⟨u, hu', huok⟩ := hm.sys b
    obtain rfl := hv.unique hu'
    obtain ⟨v', hv', -, hd⟩ := hev.block b v hv huok
    rcases hd hvd with hd | hd | ⟨rfl, rfl, hx, hl2, j, hj⟩
    · exact ⟨v', hv', hd⟩
    · rw [Bool.not_eq_true', writesBack, hsent, List.any_eq_false] at hwb
      exact absurd (by simp [isWriteBack]) (hwb _ (List.mem_append_left _ hd))
    · obtain ⟨c', hc', rfl⟩ := exists_data_of_modified huok hj
      exact absurd ((hv.l1 _).trans hj)
        (hsafe rfl ((hv.l1 _).trans hx) (hv.l2.trans hl2) c' hc')

theorem dirty_of_dma (hm : m.Ok) {op : DmaOp} {a : ℕ} (hsafe : Harmless m (.dma op a))
    {reps : List MemoryMessage} (h : Swept m.sys s' (cfg.blockOf a) reps)
    (hb : (writes m.sys s' (.dma op a) b ||
      (m.unwritten b && !writesBack m.sys s' b)) = true) :
    ∃ v, s'.Shows b v ∧ v.Dirty := by
  have hdma : newest m.sys.dmaReplies s'.dmaReplies = reps := by rw [h.dma, newest_append]
  simp only [writes, Bool.false_or, Bool.and_eq_true, Bool.not_eq_true'] at hb
  obtain ⟨hu, hwb⟩ := hb
  obtain ⟨v, hv, hvd⟩ := hm.dirty b hu
  obtain ⟨u, hu', huok⟩ := hm.sys b
  obtain rfl := hv.unique hu'
  obtain ⟨v', hv', -, hd⟩ := h.block b v hv huok
  rcases hd hvd with hd | ⟨r, hr, hrt, hrb⟩ | ⟨rfl, hl2⟩
  · exact ⟨v', hv', hd⟩
  · rw [writesBack, hdma, List.any_eq_false] at hwb
    refine absurd ?_ (hwb r (List.mem_append_right _ hr))
    simp only [isWriteBack, decide_eq_true_eq]
    exact ⟨.inr hrt, hrb⟩
  · exact absurd (hv.l2.trans hl2) hsafe

theorem monitored_step_ok (hm : m.Ok) {e : Event cfg} (hsafe : Harmless m e)
    {m' : Monitored cfg} (h : (monitored cfg).step m e = .ok m') : m'.Ok := by
  have hstep : ∃ s', step m.sys e = .ok s' ∧ m' = ⟨s', fun b => writes m.sys s' e b ||
      (m.unwritten b && !writesBack m.sys s' b)⟩ := by
    simp only [monitored, bind, Except.bind] at h
    split at h
    · cases h
    · rename_i s' hs'
      cases h
      exact ⟨s', hs', rfl⟩
  obtain ⟨s', hs', rfl⟩ := hstep
  refine ⟨(step_ok hm.sys e).of_ok hs', fun b hb => ?_⟩
  cases e with
  | core c op a => exact dirty_of_core hm hsafe ((core_spec hm.sys c op a).of_ok hs') hb
  | dma op a =>
    obtain ⟨s'', reps, hs'', hsw⟩ := dma_spec hm.sys op a
    rw [step, hs''] at hs'
    cases hs'
    exact dirty_of_dma hm hsafe hsw hb

/-- **Dirty data is not dropped by harmless events**: in every state of a run whose
events are all harmless, a block that a core has written since it was last written
back is held modified by a data cache or by the shared cache. -/
theorem dirty_never_dropped_of_harmless (cfg : Config) (m : Monitored cfg)
    (h : (monitored cfg).ReachableWhen Harmless m) (b : ℕ) (hb : m.unwritten b = true) :
    HoldsDirty m.sys b := by
  have hm : m.Ok := Lib.Machine.ReachableWhen.invariant (I := Monitored.Ok)
    ⟨System.init_ok, fun _ hc => by cases hc⟩
    (fun _ _ _ hok hsafe hstep => monitored_step_ok hok hsafe hstep) h
  obtain ⟨v, hv, hd⟩ := hm.dirty b hb
  obtain ⟨u, hu, huok⟩ := hm.sys b
  obtain rfl := hv.unique hu
  rcases hd with ⟨i, hi⟩ | hd
  · obtain ⟨c, hc, rfl⟩ := exists_data_of_modified huok hi
    exact .inl ⟨c, hc, (hv.l1 _).trans hi⟩
  · exact .inr (hv.l2.trans hd)

/-- One store, after which the block is dirty. -/
theorem dirty_never_dropped_after_store : ∃ m : Monitored (small 2),
    (monitored (small 2)).ReachableWhen Harmless m ∧ m.unwritten 0 = true ∧
      HoldsDirty m.sys 0 := by
  obtain ⟨m, hm, hu⟩ : ∃ m, (monitored (small 2)).step (monitored (small 2)).init
      (.core ⟨0, by decide⟩ .store 0) = .ok m ∧ m.unwritten 0 = true := ⟨_, rfl, rfl⟩
  have hr : (monitored (small 2)).ReachableWhen Harmless m :=
    Lib.Machine.ReachableWhen.init.step (by rintro ⟨⟩) hm
  exact ⟨m, hr, hu, dirty_never_dropped_of_harmless (small 2) m hr 0 hu⟩

set_option maxRecDepth 8000 in
/-- **A non-allocating store drops dirty data**: one core writes a block, another
one stores to it without allocating. The written copy is invalidated, the shared
cache does not hold the block, and nothing dirty has gone to memory. -/
theorem dirty_dropped_by_nonAllocatingStore :
    ¬∀ m : Monitored (small 2), (monitored (small 2)).Reachable m →
      ∀ b, m.unwritten b = true → HoldsDirty m.sys b := by
  intro h
  obtain ⟨m, hrun, hu, h0, h1, h2⟩ : ∃ m : Monitored (small 2), (monitored (small 2)).run
      [.core ⟨0, by decide⟩ .store 0, .core ⟨1, by decide⟩ .nonAllocatingStore 0] = .ok m ∧
      m.unwritten 0 = true ∧ (m.sys.l1 0).stateOf 0 = invalid ∧
      (m.sys.l1 2).stateOf 0 = invalid ∧ m.sys.l2.stateOf 0 = invalid :=
    ⟨_, rfl, rfl, rfl, rfl, rfl⟩
  rcases h m (Lib.Machine.reachable_of_run hrun) 0 hu with ⟨c, hc, hm⟩ | hm
  · have hc' : c < 2 := hc
    interval_cases c
    · rw [h0] at hm
      cases hm
    · rw [h1] at hm
      cases hm
  · rw [h2] at hm
    cases hm

end FastCMPCache

end Flexus
