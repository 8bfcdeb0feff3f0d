import Flexus.Mmu.Steps

/-!
# The lookup, step by step

`mmu_lookup` is one function for translations, for probes and for demaps (`core/simics/sparcmmu.cpp`).
It loops over the ways of the two tables, changes the entries that it hits as the mode asks, and
then has three branches that report an exception and set the registers of a handler – each of them
with its own test of the mode. Here it is as the source has it, with its loops and its flags.

A probe takes the same way through all that as a translation, and leaves everything as it was
(`Flexus.MMU.Mmu.lookup_probe`).
-/

namespace Flexus

namespace MMU

/-! ### The function -/

/-- What the loops of a lookup change: the tables, `hit_flag` and `hit_data`. -/
structure Search where
  tables : TlbSide
  hitFlag : Bool
  hitData : BitVec 64

/-- **A loop over the ways of a table.** A translation ends it with the first hit; a demap goes
on. -/
def searchWays (ctxt va : BitVec 64) (transType : TranslationType) : List Slot → Search → Search
  | [], s => s
  | k :: ks, s =>
    let e := s.tables.get k
    if e.hits ctxt va then
      let s := { s with hitFlag := true, hitData := e.data }
      if transType = .MMU_DEMAP_PAGE then
        searchWays ctxt va transType ks { s with tables := s.tables.set k e.demapped }
      else if transType = .MMU_TRANSLATE then { s with tables := s.tables.set k e.use }
      else s
    else searchWays ctxt va transType ks s

/-- The tag target, the tag access register and the pointers, with an extension that has been read
before. -/
def TlbRegs.generate (r : TlbRegs) (ctxt va tsbExt : BitVec 64) : TlbRegs :=
  let tsbReg := r.tsb ^^^ tsbExt
  let tsbBase := tsbReg &&& ~~~0x1FFF
  let tsbSplit := tsbReg &&& 0x1000 != 0
  let tsbSize := (tsbReg &&& 0x7).toNat
  { r with
    tsbTagTarget := (ctxt <<< 48) ||| (va >>> 22)
    tagAccess := (va &&& ~~~0x1FFF) ||| ctxt
    tsbp8k := mmuGenerateTsbPtr va true tsbBase tsbSplit tsbSize tsbExt
    tsbp64k := mmuGenerateTsbPtr va false tsbBase tsbSplit tsbSize tsbExt }

namespace Mmu

variable (m : Mmu) (q : Request) (transType : TranslationType)

/-- The two loops: the second is for what the first has not found, and for demaps. -/
def searched : Search :=
  let ctxt := m.context q.klass
  let ways2w := [Slot.twoWay (index2w q.isFetch 0 q.va), .twoWay (index2w q.isFetch 1 q.va)]
  let s := searchWays ctxt q.va transType ways2w ⟨m.side q.isFetch, false, 0⟩
  if !s.hitFlag || transType = .MMU_DEMAP_PAGE then
    searchWays ctxt q.va transType ((List.range waysFa).map .fa) s
  else s

/-- **`mmu_lookup`**. -/
def lookup : BitVec 64 × MmuException × Mmu :=
  let ctxt := m.context q.klass
  let tsbExt := (m.side q.isFetch).regs.tsbExt q.klass
  let s := m.searched q transType
  let m := m.setSide q.isFetch s.tables
  if !s.hitFlag then
    if transType = .MMU_TRANSLATE || transType = .MMU_TRANSLATE_PF then
      if q.isFetch then
        (s.hitData, .fastInstructionAccessMMUMiss,
          if transType = .MMU_TRANSLATE then
            { m with iSide := { m.iSide with
                regs := { m.iSide.regs.generate ctxt q.va tsbExt with
                  sfsr := m.iSide.regs.status q ||| bitIf q.isFetch 15 } } }
          else m)
      else
        (s.hitData, .fastDataAccessMMUMiss,
          if transType = .MMU_TRANSLATE then
            { m with dSide := { m.dSide with
                regs := { m.dSide.regs.generate ctxt q.va tsbExt with
                  sfar := q.va
                  sfsr := m.dSide.regs.status q ||| bitIf (!q.isFetch) 15 |||
                    bitIf (q.accessType != .load) 2 ||| 1 } } }
          else m)
    else (s.hitData, .noException, m)
  else if q.accessType == .store && !isSet wBit s.hitData then
    (s.hitData, .fastDataAccessProtection,
      if transType = .MMU_TRANSLATE then
        { m with dSide := { m.dSide with
            regs := { m.dSide.regs.generate ctxt q.va tsbExt with
              sfar := q.va
              sfsr := m.dSide.regs.status q ||| bitIf (!q.isFetch) 15 |||
                bitIf (q.accessType != .load) 2 ||| 1 } } }
      else m)
  else (s.hitData, .noException, m)

end Mmu

/-! ### The loops -/

variable {m : Mmu} {q : Request} {transType : TranslationType}

/-- What a hit leaves of the tables. -/
def TlbSide.touched (s : TlbSide) (transType : TranslationType) (k : Slot) : TlbSide :=
  if transType = .MMU_TRANSLATE then s.set k (s.get k).use else s

/-- **A loop that is not a demap** ends with the first entry that hits. -/
theorem searchWays_eq {ctxt va : BitVec 64} (h : transType ≠ .MMU_DEMAP_PAGE) (ks : List Slot)
    (s : Search) : searchWays ctxt va transType ks s =
      match ks.find? fun k => (s.tables.get k).hits ctxt va with
      | none => s
      | some k => ⟨s.tables.touched transType k, true, (s.tables.get k).data⟩ := by
  induction ks with
  | nil => rfl
  | cons k ks ih =>
    rw [searchWays, List.find?_cons]
    by_cases hk : (s.tables.get k).hits ctxt va = true
    · simp only [hk, if_true, if_neg h, TlbSide.touched]
      split <;> rfl
    · simp only [hk, Bool.false_eq_true, if_false, ih]

/-- **The two loops of a translation or a probe.** -/
theorem searched_eq (h : transType ≠ .MMU_DEMAP_PAGE) : m.searched q transType =
    match m.find q with
    | none => ⟨m.side q.isFetch, false, 0⟩
    | some k => ⟨(m.side q.isFetch).touched transType k, true, ((m.side q.isFetch).get k).data⟩ := by
  rw [Mmu.searched, Mmu.find, TlbSide.find, slots, List.find?_append]
  simp only [searchWays_eq h]
  cases h2w : [Slot.twoWay (index2w q.isFetch 0 q.va), .twoWay (index2w q.isFetch 1 q.va)].find?
      fun k => ((m.side q.isFetch).get k).hits (m.context q.klass) q.va with
  | none => simp
  | some k => simp [h]

/-! ### Probes and translations -/

namespace Mmu

/-- The exception of a request. -/
def exception (m : Mmu) (q : Request) : MmuException :=
  match m.find q with
  | none => if q.isFetch then .fastInstructionAccessMMUMiss else .fastDataAccessMMUMiss
  | some k =>
    if violates q ((m.side q.isFetch).get k).data then .fastDataAccessProtection else .noException

/-- The data of the entry that a request hits. -/
def foundData (m : Mmu) (q : Request) : BitVec 64 :=
  match m.find q with
  | none => 0
  | some k => ((m.side q.isFetch).get k).data

theorem violates_eq (q : Request) (data : BitVec 64) :
    (q.accessType == .store && !isSet wBit data) = violates q data := rfl

@[simp]
theorem setSide_side (m : Mmu) (f : Bool) : m.setSide f (m.side f) = m := by
  cases f <;> rfl

/-- **A probe** answers as it should and leaves everything as it is. -/
theorem lookup_probe (m : Mmu) (q : Request) :
    m.lookup q .MMU_TRANSLATE_PF = (m.foundData q, m.exception q, m) := by
  have hne : TranslationType.MMU_TRANSLATE_PF ≠ .MMU_TRANSLATE := by decide
  rw [lookup, searched_eq (by decide), foundData, exception]
  cases hfind : m.find q with
  | none => cases hq : q.isFetch <;> simp [hne]
  | some k =>
    simp only [TlbSide.touched, if_neg hne, setSide_side, Bool.not_true, Bool.false_eq_true, if_false,
      violates_eq]
    split
    · rfl
    · rfl

/-- The tables, and all registers but those of handlers, after a translation. -/
def touched (m : Mmu) (q : Request) : Mmu :=
  match m.find q with
  | none => m
  | some k => m.used q k

/-- The side whose registers a request sets if it reports an exception. -/
def faulting (m : Mmu) (q : Request) : Bool := (m.find q).isNone && q.isFetch

/-- **A translation** answers the same. What it leaves are the entries that have been touched, and
other registers of a side if it reports an exception. -/
theorem lookup_translate (m : Mmu) (q : Request) :
    ∃ regs, m.lookup q .MMU_TRANSLATE = (m.foundData q, m.exception q,
        (m.touched q).setSide (m.faulting q) { (m.touched q).side (m.faulting q) with regs := regs }) ∧
      (m.exception q = .noException → regs = ((m.touched q).side (m.faulting q)).regs) := by
  rw [lookup, searched_eq (by decide), foundData, exception, touched, faulting]
  cases hfind : m.find q with
  | none =>
    cases hq : q.isFetch with
    | false => exact ⟨_, rfl, fun h => nomatch h⟩
    | true => exact ⟨_, rfl, fun h => nomatch h⟩
  | some k =>
    have hused : (m.side q.isFetch).touched .MMU_TRANSLATE k =
        (m.side q.isFetch).set k ((m.side q.isFetch).get k).use := rfl
    simp only [hused, Bool.not_true, Bool.false_eq_true, if_false, violates_eq, if_true]
    by_cases hviolates : violates q ((m.side q.isFetch).get k).data = true
    · simp only [if_pos hviolates]
      exact ⟨_, rfl, fun h => nomatch h⟩
    · simp only [if_neg hviolates]
      exact ⟨((m.used q k).side false).regs, rfl, fun _ => rfl⟩

/-- **What a translation may change**: the used bit of the entry it hits, and, if it reports an
exception, registers of a side. -/
structure OnlyTouches (m t : Mmu) (q : Request) (exception : MmuException) : Prop where
  tag : ∀ f k, ((t.side f).get k).tag = ((m.side f).get k).tag
  data : ∀ f k, ((t.side f).get k).data =
    if f = q.isFetch ∧ m.find q = some k then ((m.side f).get k).data ||| uBit
    else ((m.side f).get k).data
  regs : exception = .noException → ∀ f, (t.side f).regs = (m.side f).regs
  primaryContext : t.primaryContext = m.primaryContext
  secondaryContext : t.secondaryContext = m.secondaryContext
  lfsr : t.lfsr = m.lfsr

theorem touched_onlyTouches (m : Mmu) (q : Request) :
    OnlyTouches m (m.touched q) q .noException := by
  rw [touched]
  cases hfind : m.find q with
  | none =>
    refine ⟨fun _ _ => rfl, fun f k => ?_, fun _ _ => rfl, rfl, rfl, rfl⟩
    rw [hfind, if_neg]
    exact fun h => nomatch h.2
  | some k₀ =>
    have hget : ∀ f k, ((m.used q k₀).side f).get k =
        if f = q.isFetch ∧ k = k₀ then ((m.side f).get k).use else (m.side f).get k := by
      intro f k
      rw [used]
      by_cases hf : f = q.isFetch
      · subst hf
        rw [side_setSide_self, TlbSide.get_set]
        by_cases hk : k = k₀
        · subst hk
          rw [if_pos rfl, if_pos ⟨rfl, rfl⟩]
        · rw [if_neg hk, if_neg fun h => hk h.2]
      · rw [side_setSide_of_ne hf, if_neg fun h => hf h.1]
    refine ⟨fun f k => ?_, fun f k => ?_, fun _ f => ?_, ?_, ?_, ?_⟩
    · rw [hget]
      split <;> rfl
    · rw [hget, hfind]
      by_cases h : f = q.isFetch ∧ k = k₀
      · rw [if_pos h, if_pos ⟨h.1, congrArg some h.2.symm⟩]
        rfl
      · rw [if_neg h, if_neg fun h' => h ⟨h'.1, (Option.some_inj.mp h'.2).symm⟩]
    · cases hq : q.isFetch <;> cases f <;> cases k₀ <;> simp only [used, hq] <;> rfl
    all_goals cases hq : q.isFetch <;> simp only [used, hq] <;> rfl

theorem get_setSide_regs (m : Mmu) (f g : Bool) (regs : TlbRegs) (k : Slot) :
    ((m.setSide f { m.side f with regs := regs }).side g).get k = (m.side g).get k := by
  cases f <;> cases g <;> cases k <;> rfl

theorem context_setSide_regs (m : Mmu) (f : Bool) (s : TlbSide) :
    (m.setSide f s).primaryContext = m.primaryContext ∧
      (m.setSide f s).secondaryContext = m.secondaryContext ∧ (m.setSide f s).lfsr = m.lfsr := by
  cases f <;> exact ⟨rfl, rfl, rfl⟩

/-- **Probes have no effect and tell the truth, and translations have no other effect** than on the
used bit of what they hit, and on registers if they report an exception. -/
theorem lookup_truthful (m : Mmu) (q : Request) :
    (m.lookup q .MMU_TRANSLATE_PF).2.2 = m ∧
      (m.lookup q .MMU_TRANSLATE_PF).1 = (m.lookup q .MMU_TRANSLATE).1 ∧
      (m.lookup q .MMU_TRANSLATE_PF).2.1 = (m.lookup q .MMU_TRANSLATE).2.1 ∧
      OnlyTouches m (m.lookup q .MMU_TRANSLATE).2.2 q (m.lookup q .MMU_TRANSLATE).2.1 := by
  obtain ⟨regs, htranslate, hregs⟩ := lookup_translate m q
  rw [htranslate, lookup_probe]
  refine ⟨rfl, rfl, rfl, ?_⟩
  have h := touched_onlyTouches m q
  refine ⟨fun f k => ?_, fun f k => ?_, fun hno f => ?_, ?_, ?_, ?_⟩
  · rw [get_setSide_regs]
    exact h.tag f k
  · rw [get_setSide_regs]
    exact h.data f k
  · rw [hregs hno, setSide_side]
    exact h.regs rfl f
  · exact (context_setSide_regs _ _ _).1.trans h.primaryContext
  · exact (context_setSide_regs _ _ _).2.1.trans h.secondaryContext
  · exact (context_setSide_regs _ _ _).2.2.trans h.lfsr

/-- **The lookup, step by step, is that of the model of the MMU**, of all that is asked for: no
instruction is fetched by a store. -/
theorem lookup_eq_mmuLookup (h : q.isFetch = true → q.accessType ≠ .store) (b : Bool) :
    m.lookup q (translating b) = m.mmuLookup q (translating b) := by
  cases b with
  | false =>
    rw [translating, if_neg Bool.false_ne_true, lookup_probe, mmuLookup, foundData, exception]
    cases hfind : m.find q <;> rfl
  | true =>
    rw [translating, if_pos rfl, lookup, searched_eq (by decide), mmuLookup]
    cases hfind : m.find q with
    | none =>
      obtain ⟨isFetch, va, klass, asi, nofault, priv, accessType⟩ := q
      cases isFetch with
      | false => rfl
      | true => rfl
    | some k =>
      have hused : (m.side q.isFetch).touched .MMU_TRANSLATE k =
          (m.side q.isFetch).set k ((m.side q.isFetch).get k).use := rfl
      simp only [hused, Bool.not_true, Bool.false_eq_true, if_false, violates_eq, if_true]
      by_cases hviolates : violates q ((m.side q.isFetch).get k).data = true
      · have hdata : q.isFetch = false := by
          rw [Bool.eq_false_iff]
          intro hq
          rw [violates, Bool.and_eq_true, beq_iff_eq] at hviolates
          exact h hq hviolates.1
        simp only [if_pos hviolates]
        obtain ⟨isFetch, va, klass, asi, nofault, priv, accessType⟩ := q
        cases hdata
        cases k with
        | twoWay idx => rfl
        | fa way => rfl
      · simp only [if_neg hviolates]
        rfl

end Mmu

end MMU

end Flexus
