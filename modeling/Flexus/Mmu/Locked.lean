import Flexus.Mmu.Steps

/-!
# Locked translations

A locked translation for data goes to the fully associative table, whose victims are never both
valid and locked. A locked translation for instructions goes to one of two ways, as any other does,
and the third translation for its set may put it out. It stays as long as no store to the data in
register for instructions finds it where the counter points (`Flexus.MMU.locked_survives`), and no
longer (`Flexus.MMU.Mmu.locked_lost`).
-/

namespace Flexus

namespace MMU

open Flexus.Lib

variable {m t u : Mmu} {isFetch f : Bool} {k : Slot} {e : TlbEntry} {va val : BitVec 64}
  {ev : MmuEvent}

/-- The data in register of a side. -/
def dataInAsi (isFetch : Bool) : BitVec 64 := if isFetch then 0x54 else 0x5C

/-- The entry for instructions that the counter points to, in the set of the tag access register. -/
def Mmu.pointed (m : Mmu) : Slot :=
  .twoWay (index2w true (nextWay m.lfsr) m.iSide.regs.tagAccess)

/-- Both ways for instructions are taken, in the set of the tag access register. -/
def Mmu.SetFull (m : Mmu) : Prop :=
  ∀ way < 2, (m.iSide.get (.twoWay (index2w true way m.iSide.regs.tagAccess))).valid = true

/-- **No locked translation is put out**: there is no demap and no direct write to a table, and
what is stored for instructions in a full set does not find a locked translation where the counter
points, unless it is the same once more. -/
def Mmu.SparesLocked (m : Mmu) : MmuEvent → Prop
  | .lookup _ _ => True
  | .store asi _ val =>
    asi ≠ 0x5F ∧ asi ≠ 0x57 ∧ asi ≠ 0x5D ∧
      (asi = 0x54 → m.SetFull → (m.iSide.get m.pointed).locked = true →
        (m.iSide.get m.pointed).SameButUsed ⟨m.iSide.regs.tagAccess, val ||| uBit⟩)

instance (m : Mmu) : Decidable m.SetFull :=
  inferInstanceAs (Decidable (∀ way < 2, _ = true))

instance : (m : Mmu) → (ev : MmuEvent) → Decidable (m.SparesLocked ev)
  | _, .lookup _ _ => isTrue trivial
  | m, .store asi _ val => inferInstanceAs (Decidable (asi ≠ 0x5F ∧ asi ≠ 0x57 ∧ asi ≠ 0x5D ∧
      (asi = 0x54 → m.SetFull → (m.iSide.get m.pointed).locked = true →
        (m.iSide.get m.pointed).SameButUsed ⟨m.iSide.regs.tagAccess, val ||| uBit⟩)))

/-- The place that is filled for instructions is the one that the counter points to, or what is
there is invalid. -/
theorem twoWayChoose_pointed
    (h : k = .twoWay (twoWayChoose m.iSide.twoWay true m.iSide.regs.tagAccess m.lfsr).1)
    (hvalid : (m.iSide.get k).valid = true) : m.SetFull ∧ k = m.pointed := by
  rw [twoWayChoose_fst] at h
  split at h
  · rename_i h0
    subst h
    rw [TlbSide.get, h0] at hvalid
    cases hvalid
  · rename_i h0
    split at h
    · rename_i h1
      subst h
      rw [TlbSide.get, h1] at hvalid
      cases hvalid
    · rename_i h1
      rw [Bool.not_eq_false] at h0 h1
      refine ⟨fun way hway => ?_, h⟩
      obtain rfl | rfl : way = 0 ∨ way = 1 := by omega
      · exact h0
      · exact h1

/-- **What is put somewhere does not replace a locked translation**, for data in the fully
associative table and for instructions in the ways. -/
theorem Mmu.Fills.spares (h : m.Fills ev f k e) (hspares : m.SparesLocked ev)
    (hvalid : ((m.side f).get k).valid = true) (hlock : ((m.side f).get k).locked = true)
    (hplace : f = false → ∃ way, k = .fa way) : ((m.side f).get k).SameButUsed e := by
  cases h with
  | dtlbFa hkind hway =>
    have hunlocked := (mmuFaChoose_some hway).2.1 hvalid
    have hboth : true = false := hlock.symm.trans hunlocked
    cases hboth
  | dtlb2w hl hs =>
    obtain ⟨way, hway⟩ := hplace rfl
    cases hway
  | itlb2w =>
    obtain ⟨hfull, hk⟩ := twoWayChoose_pointed rfl hvalid
    have hpointed := hspares.2.2.2 rfl hfull
    rw [← hk] at hpointed
    exact hpointed hlock
  | dtlbAccess => exact absurd rfl hspares.2.2.1

/-- **A valid and locked translation survives a step** that spares it. -/
theorem Mmu.step_locked (h : m.step ev = .ok t) (hspares : m.SparesLocked ev)
    (hvalid : ((m.side f).get k).valid = true) (hlock : ((m.side f).get k).locked = true)
    (hplace : f = false → ∃ way, k = .fa way) :
    ((m.side f).get k).SameButUsed ((t.side f).get k) := by
  rcases Mmu.step_entry h f k with hsame | ⟨hdemap, -⟩ | hfill
  · exact hsame
  · cases ev with
    | lookup q b => exact absurd hdemap id
    | store asi va val =>
      rcases hdemap with h5f | h57
      · exact absurd h5f hspares.1
      · exact absurd h57 hspares.2.1
  · exact hfill.spares hspares hvalid hlock hplace

/-- A valid and locked translation survives a run that spares it. -/
theorem run_locked (hu : (mmuMachine t).ReachableWhen Mmu.SparesLocked u)
    (hvalid : ((t.side f).get k).valid = true) (hlock : ((t.side f).get k).locked = true)
    (hplace : f = false → ∃ way, k = .fa way) :
    ((t.side f).get k).SameButUsed ((u.side f).get k) := by
  refine Machine.ReachableWhen.invariant
    (I := fun s => ((t.side f).get k).SameButUsed ((s.side f).get k))
    (TlbEntry.SameButUsed.refl _) (fun s ev s' hsame hspares hstep => ?_) hu
  exact hsame.trans (Mmu.step_locked hstep hspares (hsame.valid_eq ▸ hvalid)
    (hsame.locked_eq ▸ hlock) hplace)

/-- **What is stored to a data in register** is put in a place, and a locked translation for data
in the fully associative table. -/
theorem Mmu.exists_fills (h : m.step (.store (dataInAsi isFetch) 0 val) = .ok t) :
    ∃ k, m.Fills (.store (dataInAsi isFetch) 0 val) isFetch k ((t.side isFetch).get k) := by
  cases isFetch with
  | false =>
    obtain ⟨-, -, -, k, e, hfill, hget, -⟩ := Mmu.dtlbDataIn_ok h
    refine ⟨k, ?_⟩
    have hside : (t.side false).get k = e := hget
    rw [hside]
    exact hfill
  | true =>
    refine ⟨.twoWay (twoWayChoose m.iSide.twoWay true m.iSide.regs.tagAccess m.lfsr).1, ?_⟩
    have hget := Mmu.get_itlbDataIn h
      (.twoWay (twoWayChoose m.iSide.twoWay true m.iSide.regs.tagAccess m.lfsr).1)
    rw [if_pos rfl] at hget
    have hside : (t.side true).get
        (.twoWay (twoWayChoose m.iSide.twoWay true m.iSide.regs.tagAccess m.lfsr).1) =
          ⟨m.iSide.regs.tagAccess, val ||| uBit⟩ := hget
    rw [hside]
    exact Mmu.Fills.itlb2w

/-- What is put in a place is the value, but for the used bit. -/
theorem Mmu.Fills.data (h : m.Fills (.store (dataInAsi isFetch) 0 val) f k e) :
    e.data ||| uBit = val ||| uBit := by
  have hwrite : ∀ {v : BitVec 64}, Mmu.dataInValue v ||| uBit = v ||| uBit :=
    fun {v} => dataInValue_or_uBit v
  have hused : val ||| uBit ||| uBit = val ||| uBit := by rw [BitVec.or_assoc, BitVec.or_self]
  cases isFetch with
  | false =>
    generalize hev : MmuEvent.store (dataInAsi false) 0 val = ev at h
    cases h with
    | dtlbFa hkind hway =>
      cases hev
      exact hwrite
    | dtlb2w hl hs =>
      cases hev
      exact hwrite
    | itlb2w => cases hev
    | dtlbAccess => cases hev
  | true =>
    generalize hev : MmuEvent.store (dataInAsi true) 0 val = ev at h
    cases h with
    | itlb2w =>
      cases hev
      exact hused
    | dtlbFa hkind hway => cases hev
    | dtlb2w hl hs => cases hev
    | dtlbAccess => cases hev

/-- A locked translation for data is put in the fully associative table. -/
theorem Mmu.Fills.fa_of_locked (h : m.Fills (.store (dataInAsi isFetch) 0 val) isFetch k e)
    (hlock : isSet lBit val = true) : isFetch = false → ∃ way, k = .fa way := by
  rintro rfl
  generalize hev : MmuEvent.store (dataInAsi false) 0 val = ev at h
  cases h with
  | dtlbFa hkind hway => exact ⟨_, rfl⟩
  | dtlb2w hl hs =>
    cases hev
    rw [hlock] at hl
    cases hl
  | dtlbAccess => exact ⟨_, rfl⟩

/-- **Locked translations survive refills.** A valid and locked translation that has been stored to
a data in register is in a place of its side, and in every run that spares locked translations it
stays there, unchanged but for the used bit. -/
theorem locked_survives (hvalid : isSet vBit val = true) (hlock : isSet lBit val = true)
    (ht : m.step (.store (dataInAsi isFetch) 0 val) = .ok t)
    (hu : (mmuMachine t).ReachableWhen Mmu.SparesLocked u) :
    ∃ k, m.Fills (.store (dataInAsi isFetch) 0 val) isFetch k ((t.side isFetch).get k) ∧
      ((t.side isFetch).get k).data ||| uBit = val ||| uBit ∧
      ((t.side isFetch).get k).SameButUsed ((u.side isFetch).get k) := by
  obtain ⟨k, hfill⟩ := Mmu.exists_fills ht
  have hdata := hfill.data
  have hv : ((t.side isFetch).get k).valid = true := by
    rw [TlbEntry.valid, ← isSet_vBit_or_uBit, hdata, isSet_vBit_or_uBit, hvalid]
  have hl : ((t.side isFetch).get k).locked = true := by
    rw [TlbEntry.locked, ← isSet_lBit_or_uBit, hdata, isSet_lBit_or_uBit, hlock]
  exact ⟨k, hfill, hdata, run_locked hu hv hl (hfill.fa_of_locked hlock)⟩

/-- **A store that does not spare** the translation the counter points to puts it out. -/
theorem Mmu.locked_lost (h : m.step (.store 0x54 0 val) = .ok t)
    (hfull : m.SetFull)
    (hother : ¬(m.iSide.get m.pointed).SameButUsed ⟨m.iSide.regs.tagAccess, val ||| uBit⟩) :
    ¬(m.iSide.get m.pointed).SameButUsed (t.iSide.get m.pointed) := by
  have hchoice : m.pointed =
      .twoWay (twoWayChoose m.iSide.twoWay true m.iSide.regs.tagAccess m.lfsr).1 := by
    have h0 := hfull 0 (by decide)
    have h1 := hfull 1 (by decide)
    rw [TlbSide.get] at h0 h1
    rw [Mmu.pointed, twoWayChoose_fst, h0, h1, if_neg (by decide), if_neg (by decide)]
  rw [Mmu.get_itlbDataIn h, if_pos hchoice]
  exact hother

/-- An MMU in which there is nothing. -/
def emptyMmu : Mmu where
  primaryContext := 0
  secondaryContext := 0
  dSide := ⟨fun _ => ⟨0, 0⟩, fun _ => ⟨0, 0⟩, {}⟩
  iSide := ⟨fun _ => ⟨0, 0⟩, fun _ => ⟨0, 0⟩, {}⟩
  lfsr := 0

/-- A translation for instructions is stored, under a tag. -/
def refill (tag val : BitVec 64) : List MmuEvent :=
  [.store 0x50 0x30 tag, .store 0x54 0 val]

/-- A translation that is valid and locked, and one that is valid. -/
def lockedTte : BitVec 64 := vBit ||| lBit

/-- No entry for instructions is locked. -/
def Mmu.noneLocked (m : Mmu) : Bool :=
  ((List.range 128).all fun idx => !(m.iSide.get (.twoWay idx)).locked) &&
    (List.range waysFa).all fun way => !(m.iSide.get (.fa way)).locked

/-- The MMU with a locked translation for instructions. -/
def lockedMmu : Mmu :=
  { emptyMmu with
    iSide := { emptyMmu.iSide with
      twoWay := Function.update emptyMmu.iSide.twoWay 0 ⟨0, lockedTte ||| uBit⟩ } }

/-- A locked translation survives another one for its set. -/
theorem locked_survives_next :
    emptyMmu.step (.store (dataInAsi true) 0 lockedTte) = .ok lockedMmu ∧
      ∃ u k, (mmuMachine lockedMmu).run (refill (1 <<< 19) vBit) = .ok u ∧
        ((lockedMmu.side true).get k).SameButUsed ((u.side true).get k) := by
  have ht : emptyMmu.step (.store (dataInAsi true) 0 lockedTte) = .ok lockedMmu := rfl
  obtain ⟨u, hu⟩ : ∃ u, (mmuMachine lockedMmu).run (refill (1 <<< 19) vBit) = .ok u := ⟨_, rfl⟩
  have hreach : (mmuMachine lockedMmu).ReachableWhen Mmu.SparesLocked u :=
    Machine.reachableWhen_of_run (g := fun s ev => decide (Mmu.SparesLocked s ev))
      (fun s ev => of_decide_eq_true) (by decide) hu
  obtain ⟨k, -, -, hsame⟩ := locked_survives (by decide) (by decide) ht hreach
  exact ⟨ht, u, k, hu, hsame⟩

/-- **The third translation after it** puts a locked translation out. -/
theorem lockedRun_lost :
    (mmuMachine emptyMmu).endsIn
        (fun t => (t.iSide.get (.twoWay 0)).valid && (t.iSide.get (.twoWay 0)).locked)
        (refill 0 lockedTte) = true ∧
      (mmuMachine emptyMmu).endsIn Mmu.noneLocked
        (refill 0 lockedTte ++ refill (1 <<< 19) vBit ++ refill (2 <<< 19) vBit ++
          refill (3 <<< 19) vBit) = true := by
  decide

end MMU

end Flexus
