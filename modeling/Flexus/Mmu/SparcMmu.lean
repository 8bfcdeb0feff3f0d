import Flexus.Lib.Machine
import Mathlib.Logic.Function.Basic

/-!
# The memory management unit

The translation lookaside buffers of a processor, and the registers with which software refills
them (`core/simics/sparcmmu.cpp`). Instructions and data have a side each: a table with two ways,
which is searched first and is for pages of 8 Kbytes, and a fully associative one. A miss leaves
the page and the context in the *tag access* register, and what is stored to the *data in*
register goes into a table under that tag.

An entry is found by its tag alone. The tag holds the context in its low bits, and the address
down to the page size that the data of the entry says.

Stores to the registers are modelled as far as they change the state; loads only read it.
-/

namespace Flexus

open Function

namespace MMU

open Flexus.Lib

/-! ### Entries -/

/-- `page_mask`, by the size field of an entry. -/
def pageMask : ℕ → BitVec 64
  | 0 => 0x1FFF
  | 1 => 0xFFFF
  | 2 => 0x7FFFF
  | _ => 0x3FFFFF

/-- `CTXT_MASK`. -/
def ctxtMask : BitVec 64 := 0x1FFF

/-- `W_BIT`. -/
def wBit : BitVec 64 := 1 <<< 1

/-- `L_BIT`. -/
def lBit : BitVec 64 := 1 <<< 6

/-- `U_BIT`, and `U_BIT_MASK`. -/
def uBit : BitVec 64 := 1 <<< 43

/-- `V_BIT`. -/
def vBit : BitVec 64 := 1 <<< 63

/-- The size field of the data of an entry. -/
def sizeOf (data : BitVec 64) : ℕ := ((data >>> 61) &&& 3).toNat

/-- A bit of the data of an entry is set. -/
def isSet (bit data : BitVec 64) : Bool := data &&& bit != 0

/-- `mmu_make_paddr`. -/
def mmuMakePaddr (data va : BitVec 64) : BitVec 64 :=
  ((data &&& ~~~0xFFFFF80000000000) &&& ~~~pageMask (sizeOf data)) |||
    (va &&& pageMask (sizeOf data))

/-- An entry of a translation lookaside buffer. -/
structure TlbEntry where
  tag : BitVec 64
  data : BitVec 64
  deriving DecidableEq

namespace TlbEntry

variable (e : TlbEntry)

/-- The entry is valid. -/
def valid : Bool := isSet vBit e.data

/-- The entry is locked. -/
def locked : Bool := isSet lBit e.data

/-- **The test for a hit**: the tag is the context with the page, or that of a global page. -/
def hits (ctxt va : BitVec 64) : Bool :=
  e.tag == ctxt ||| (va &&& ~~~pageMask (sizeOf e.data)) ||
    e.tag == vBit ||| (va &&& ~~~pageMask (sizeOf e.data))

/-- The entry has been used. -/
def use : TlbEntry := { e with data := e.data ||| uBit }

/-- The used bit is cleared. -/
def unuse : TlbEntry := { e with data := e.data &&& ~~~uBit }

/-- What a demap leaves of an entry. -/
def demapped : TlbEntry := ⟨0, e.data &&& ~~~vBit⟩

end TlbEntry

/-! ### Tables -/

/-- The registers of a side. -/
structure TlbRegs where
  tsbTagTarget : BitVec 64 := 0
  sfsr : BitVec 64 := 0
  sfar : BitVec 64 := 0
  tsb : BitVec 64 := 0
  tagAccess : BitVec 64 := 0
  tsbPx : BitVec 64 := 0
  tsbSx : BitVec 64 := 0
  tsbNx : BitVec 64 := 0
  tsbp8k : BitVec 64 := 0
  tsbp64k : BitVec 64 := 0
  deriving DecidableEq

/-- The tables of a side, and its registers: `it128`, `it16` and `i_regs`, or `dt512`, `dt16` and
`d_regs`. -/
structure TlbSide where
  twoWay : ℕ → TlbEntry
  fa : ℕ → TlbEntry
  regs : TlbRegs

/-- A place in the tables of a side. -/
inductive Slot
  | twoWay (idx : ℕ)
  | fa (way : ℕ)
  deriving DecidableEq

/-- The number of sets of the table with two ways. -/
def sets2w (isFetch : Bool) : ℕ := if isFetch then 64 else 256

/-- The number of ways of the fully associative table. -/
def waysFa : ℕ := 16

/-- The index in the table with two ways. -/
def index2w (isFetch : Bool) (way : ℕ) (va : BitVec 64) : ℕ :=
  sets2w isFetch * way + (va >>> 13).toNat % sets2w isFetch

/-- **The places that are searched for an address**, in order. -/
def slots (isFetch : Bool) (va : BitVec 64) : List Slot :=
  [.twoWay (index2w isFetch 0 va), .twoWay (index2w isFetch 1 va)] ++
    (List.range waysFa).map .fa

namespace TlbSide

variable (s : TlbSide)

/-- The entry in a place. -/
def get : Slot → TlbEntry
  | .twoWay idx => s.twoWay idx
  | .fa way => s.fa way

/-- Another entry in a place. -/
def set (k : Slot) (e : TlbEntry) : TlbSide :=
  match k with
  | .twoWay idx => { s with twoWay := update s.twoWay idx e }
  | .fa way => { s with fa := update s.fa way e }

/-- **The search**: the first entry that hits. -/
def find (isFetch : Bool) (ctxt va : BitVec 64) : Option Slot :=
  (slots isFetch va).find? fun k => (s.get k).hits ctxt va

/-- The search of a demap: an entry that hits is demapped, and the search goes on. -/
def demapSlot (ctxt va : BitVec 64) (k : Slot) : TlbSide :=
  if (s.get k).hits ctxt va then s.set k (s.get k).demapped else s

/-- What a demap of a page leaves of a side. -/
def demapPage (isFetch : Bool) (ctxt va : BitVec 64) : TlbSide :=
  (slots isFetch va).foldl (fun s k => s.demapSlot ctxt va k) s

/-- What a demap of a context leaves of a side. -/
def demapContext (context : BitVec 32) : TlbSide :=
  let demap := fun e : TlbEntry =>
    if e.tag &&& 0x1FFF = context.setWidth 64 then e.demapped else e
  { s with twoWay := fun idx => demap (s.twoWay idx), fa := fun way => demap (s.fa way) }

end TlbSide

/-- `asi_class_t`. -/
inductive AsiClass
  | CLASS_ASI_PRIMARY
  | CLASS_ASI_SECONDARY
  | CLASS_ASI_NUCLEUS
  | CLASS_ASI_NONTRANSLATING
  deriving DecidableEq

/-- The number of a class. -/
def AsiClass.bits : AsiClass → BitVec 64
  | .CLASS_ASI_PRIMARY => 0
  | .CLASS_ASI_SECONDARY => 1
  | .CLASS_ASI_NUCLEUS => 2
  | .CLASS_ASI_NONTRANSLATING => 4

/-- The class in the address of a demap. The number three is none of the classes. -/
def AsiClass.ofBits (n : BitVec 64) : AsiClass :=
  if n = 0 then .CLASS_ASI_PRIMARY
  else if n = 1 then .CLASS_ASI_SECONDARY
  else if n = 2 then .CLASS_ASI_NUCLEUS
  else .CLASS_ASI_NONTRANSLATING

/-- `mmu_t`. -/
structure Mmu where
  primaryContext : BitVec 64
  secondaryContext : BitVec 64
  dSide : TlbSide
  iSide : TlbSide
  lfsr : BitVec 64

namespace Mmu

variable (m : Mmu)

/-- The side of instructions, or of data. -/
def side (isFetch : Bool) : TlbSide := if isFetch then m.iSide else m.dSide

/-- Another side. -/
def setSide (isFetch : Bool) (s : TlbSide) : Mmu :=
  if isFetch then { m with iSide := s } else { m with dSide := s }

/-- The context of a class. -/
def context : AsiClass → BitVec 64
  | .CLASS_ASI_PRIMARY => m.primaryContext
  | .CLASS_ASI_SECONDARY => m.secondaryContext
  | .CLASS_ASI_NUCLEUS | .CLASS_ASI_NONTRANSLATING => 0

end Mmu

/-- The extension of the base of the translation table, by class. -/
def TlbRegs.tsbExt (r : TlbRegs) : AsiClass → BitVec 64
  | .CLASS_ASI_PRIMARY => r.tsbPx
  | .CLASS_ASI_SECONDARY => r.tsbSx
  | .CLASS_ASI_NUCLEUS => r.tsbNx
  | .CLASS_ASI_NONTRANSLATING => 0

/-! ### Lookups -/

/-- `mmu_access_type_t`, where it is given. -/
inductive AccessType
  | none
  | load
  | store
  deriving DecidableEq

/-- `mmu_translation_type_t`. -/
inductive TranslationType
  | MMU_TRANSLATE
  | MMU_TRANSLATE_PF
  | MMU_DEMAP_PAGE
  deriving DecidableEq

/-- `mmu_exception_t`, as far as lookups report it. -/
inductive MmuException
  | noException
  | fastInstructionAccessMMUMiss
  | fastDataAccessMMUMiss
  | fastDataAccessProtection
  deriving DecidableEq

/-- What is looked up. -/
structure Request where
  isFetch : Bool
  va : BitVec 64
  klass : AsiClass
  asi : BitVec 32 := 0
  nofault : BitVec 32 := 0
  priv : BitVec 32 := 0
  accessType : AccessType := .none
  deriving DecidableEq

/-- `mmu_generate_tsb_ptr`, for 8 Kbytes or for 64. -/
def mmuGenerateTsbPtr (va : BitVec 64) (is8k : Bool) (tsbBase : BitVec 64) (tsbSplit : Bool)
    (tsbSize : ℕ) (tsbExt : BitVec 64) : BitVec 64 :=
  let portion := (va >>> (if is8k then 9 else 12)) &&& 0xFFFFFFFFFFFFFFF0
  let portion := (portion ^^^ ((tsbExt <<< 1) &&& 0x1FF0)) ^^^ (tsbExt &&& 0x1FE000)
  let mask := (0xFFFFFFFFFFFFE000 : BitVec 64) <<< (if tsbSplit then tsbSize + 1 else tsbSize)
  let split := (1 : BitVec 64) <<< (13 + tsbSize)
  let portion :=
    if tsbSplit then if is8k then portion &&& ~~~split else portion ||| split else portion
  (tsbBase &&& mask) ||| (portion &&& ~~~mask)

/-- A bit of a word, if a condition holds. -/
def bitIf (b : Bool) (n : ℕ) : BitVec 64 := if b then 1 <<< n else 0

/-- The registers for a handler: the page and the context, and where the handler looks first. -/
def TlbRegs.forHandler (r : TlbRegs) (ctxt : BitVec 64) (q : Request) : TlbRegs :=
  let reg := r.tsb ^^^ r.tsbExt q.klass
  let base := reg &&& ~~~0x1FFF
  let split := reg &&& 0x1000 != 0
  let size := (reg &&& 0x7).toNat
  { r with
    tsbTagTarget := (ctxt <<< 48) ||| (q.va >>> 22)
    tagAccess := (q.va &&& ~~~0x1FFF) ||| ctxt
    tsbp8k := mmuGenerateTsbPtr q.va true base split size (r.tsbExt q.klass)
    tsbp64k := mmuGenerateTsbPtr q.va false base split size (r.tsbExt q.klass) }

/-- What the fault status registers of the two sides have in common. -/
def TlbRegs.status (r : TlbRegs) (q : Request) : BitVec 64 :=
  (((q.nofault <<< 24) ||| (q.asi <<< 16)).setWidth 64 ||| (q.klass.bits <<< 4) |||
    (q.priv <<< 3).setWidth 64) ||| (((r.sfsr &&& 0x2) >>> 1) <<< 1)

/-- The registers after a miss of an instruction. -/
def TlbRegs.instructionMiss (r : TlbRegs) (ctxt : BitVec 64) (q : Request) : TlbRegs :=
  { r.forHandler ctxt q with sfsr := r.status q ||| bitIf q.isFetch 15 }

/-- The registers after a miss of data, or a protection violation. -/
def TlbRegs.dataFault (r : TlbRegs) (ctxt : BitVec 64) (q : Request) : TlbRegs :=
  { r.forHandler ctxt q with
    sfar := q.va
    sfsr := r.status q ||| bitIf (!q.isFetch) 15 ||| bitIf (q.accessType != .load) 2 ||| 1 }

namespace Mmu

variable (m : Mmu)

/-- The entry that a request hits. -/
def find (q : Request) : Option Slot :=
  (m.side q.isFetch).find q.isFetch (m.context q.klass) q.va

/-- The state after a request that misses. -/
def missed (q : Request) : Mmu :=
  if q.isFetch then
    { m with iSide := { m.iSide with
        regs := m.iSide.regs.instructionMiss (m.context q.klass) q } }
  else
    { m with dSide := { m.dSide with
        regs := m.dSide.regs.dataFault (m.context q.klass) q } }

/-- The state after a request that hits, but for a protection violation. -/
def used (q : Request) (k : Slot) : Mmu :=
  m.setSide q.isFetch ((m.side q.isFetch).set k ((m.side q.isFetch).get k).use)

/-- A request is a store, and what it hits may not be written. -/
def violates (q : Request) (data : BitVec 64) : Bool :=
  q.accessType == .store && !isSet wBit data

/-- The state after a protection violation. -/
def violated (q : Request) : Mmu :=
  { m with dSide := { m.dSide with
      regs := m.dSide.regs.dataFault (m.context q.klass) q } }

/-- **`mmu_lookup`**: the data of what is hit, the exception, and the state after it. -/
def mmuLookup (q : Request) (transType : TranslationType) : BitVec 64 × MmuException × Mmu :=
  match transType with
  | .MMU_DEMAP_PAGE =>
    let hits := (slots q.isFetch q.va).filter fun k =>
      ((m.side q.isFetch).get k).hits (m.context q.klass) q.va
    let data := hits.getLast?.elim 0 fun k => ((m.side q.isFetch).get k).data
    (data, if !hits.isEmpty && violates q data then .fastDataAccessProtection else .noException,
      m.setSide q.isFetch
        ((m.side q.isFetch).demapPage q.isFetch (m.context q.klass) q.va))
  | .MMU_TRANSLATE =>
    match m.find q with
    | none =>
      (0, if q.isFetch then .fastInstructionAccessMMUMiss else .fastDataAccessMMUMiss, m.missed q)
    | some k =>
      let data := ((m.side q.isFetch).get k).data
      if violates q data then (data, .fastDataAccessProtection, (m.used q k).violated q)
      else (data, .noException, m.used q k)
  | .MMU_TRANSLATE_PF =>
    match m.find q with
    | none =>
      (0, if q.isFetch then .fastInstructionAccessMMUMiss else .fastDataAccessMMUMiss, m)
    | some k =>
      let data := ((m.side q.isFetch).get k).data
      (data, if violates q data then .fastDataAccessProtection else .noException, m)

/-- `mmu_translate`. -/
def mmuTranslate (q : Request) (transType : TranslationType) : BitVec 64 × MmuException × Mmu :=
  let r := m.mmuLookup q transType
  (if r.2.1 = .noException then mmuMakePaddr r.1 q.va else 0, r.2)

end Mmu

/-! ### Stores to the registers -/

/-- The assertions of a store. -/
inductive MmuFault
  /-- All entries of the fully associative table are locked. -/
  | allLocked
  /-- The address of the data in register is not zero. -/
  | badAddress
  /-- The tag target registers are for loads only. -/
  | readOnly
  /-- The data access register reaches the sixteen fully associative entries of data, and no other
  entry. -/
  | outOfRange
  deriving DecidableEq

/-- The first of the ways that pass a test. -/
def firstWay (p : ℕ → Bool) : Option ℕ := (List.range waysFa).find? p

/-- **`mmu_fa_choose`**: a place in the fully associative table, and the table, in which the used
bits may have been cleared. Whichever side asks, the table is that of data. -/
def mmuFaChoose (dt16 : ℕ → TlbEntry) : Option (ℕ × (ℕ → TlbEntry)) :=
  match firstWay fun i => !(dt16 i).valid with
  | some i => some (i, dt16)
  | none =>
    match firstWay fun i => !(dt16 i).locked && !isSet uBit (dt16 i).data with
    | some i => some (i, dt16)
    | none =>
      let cleared := fun i => (dt16 i).unuse
      (firstWay fun i => !(cleared i).locked).map fun i => (i, cleared)

/-- The choice between the two ways, and the counter after it. -/
def twoWayChoose (t : ℕ → TlbEntry) (isFetch : Bool) (tagAccess lfsr : BitVec 64) :
    ℕ × BitVec 64 :=
  let idx0 := index2w isFetch 0 tagAccess
  let idx1 := index2w isFetch 1 tagAccess
  if !(t idx0).valid then (idx0, lfsr)
  else if !(t idx1).valid then (idx1, lfsr)
  else
    let next := (lfsr + 1) % 4
    (if next &&& 1 ≠ 0 then idx1 else idx0, next)

namespace Mmu

variable (m : Mmu)

/-- The tag of a page of a size, from the tag access register. -/
def maskedTag (tagAccess : BitVec 64) (size : ℕ) : BitVec 64 :=
  tagAccess &&& (~~~pageMask size ||| ctxtMask)

/-- What is stored in the data TLB: pages of 8 Kbytes that are ordinary memory are taken to have
been used. -/
def dataInValue (val : BitVec 64) : BitVec 64 :=
  if isSet vBit val && isSet (1 <<< 5) val && !isSet (1 <<< 59) val && !isSet (1 <<< 60) val &&
      sizeOf val == 0 then val ||| uBit
  else val

/-- A store to `DTLB_DATA_IN_REG`. -/
def dtlbDataIn (val : BitVec 64) : Except MmuFault Mmu :=
  let entry : TlbEntry := ⟨maskedTag m.dSide.regs.tagAccess (sizeOf val), dataInValue val⟩
  if isSet lBit (dataInValue val) || sizeOf val != 0 then
    match mmuFaChoose m.dSide.fa with
    | none => .error .allLocked
    | some (way, fa) =>
      .ok { m with dSide := { m.dSide with fa := update fa way entry } }
  else
    let c := twoWayChoose m.dSide.twoWay false m.dSide.regs.tagAccess m.lfsr
    .ok { m with
      lfsr := c.2
      dSide := { m.dSide with twoWay := update m.dSide.twoWay c.1 entry } }

/-- A store to `ITLB_DATA_IN_REG`, with the variable `size`. -/
def itlbDataInSized (size : ℕ) (val : BitVec 64) : Except MmuFault Mmu :=
  if size ≠ 0 then
    match mmuFaChoose m.dSide.fa with
    | none => .error .allLocked
    | some (way, fa) =>
      .ok { m with
        dSide := { m.dSide with fa := fa }
        iSide := { m.iSide with
          fa := update m.iSide.fa way
            ⟨maskedTag m.iSide.regs.tagAccess size, val ||| uBit⟩ } }
  else
    let c := twoWayChoose m.iSide.twoWay true m.iSide.regs.tagAccess m.lfsr
    .ok { m with
      lfsr := c.2
      iSide := { m.iSide with
        twoWay := update m.iSide.twoWay c.1 ⟨m.iSide.regs.tagAccess, val ||| uBit⟩ } }

/-- A store to `ITLB_DATA_IN_REG`. The variable `size` is not set in this case, and is zero. -/
def itlbDataIn (val : BitVec 64) : Except MmuFault Mmu := m.itlbDataInSized 0 val

/-- A store to `DTLB_DATA_ACCESS_REG`. -/
def dtlbDataAccess (va val : BitVec 64) : Except MmuFault Mmu :=
  let i := ((va >>> 3) &&& 0x1FF).toNat
  if (va >>> 16) &&& 0x3 = 0 ∧ i < waysFa then
    .ok { m with dSide := { m.dSide with
      fa := update m.dSide.fa i ⟨maskedTag m.dSide.regs.tagAccess (sizeOf val), val⟩ } }
  else .error .outOfRange

/-- A store to a demap register. -/
def demap (isFetch : Bool) (va : BitVec 64) : Mmu :=
  let klass := AsiClass.ofBits ((va >>> 4) &&& 0x3)
  let type := (va >>> 6) &&& 0x3
  if type = 0 then
    (m.mmuTranslate { isFetch := isFetch, va := va &&& ~~~0x1FFF, klass := klass }
      .MMU_DEMAP_PAGE).2.2
  else if type = 1 then
    m.setSide isFetch
      ((m.side isFetch).demapContext ((m.context klass).setWidth 32))
  else m

/-- **`mmu_access`**, of a store. -/
def mmuStore (asi va val : BitVec 64) : Except MmuFault Mmu :=
  match asi.toNat with
  | 0x58 =>
    match va.toNat with
    | 0x0 => .error .readOnly
    | 0x8 => .ok { m with primaryContext := val }
    | 0x10 => .ok { m with secondaryContext := val }
    | 0x28 => .ok { m with dSide := { m.dSide with regs := { m.dSide.regs with tsb := val } } }
    | 0x30 =>
      .ok { m with dSide := { m.dSide with regs := { m.dSide.regs with tagAccess := val } } }
    | _ => .ok m
  | 0x50 =>
    match va.toNat with
    | 0x0 => .error .readOnly
    | 0x28 => .ok { m with iSide := { m.iSide with regs := { m.iSide.regs with tsb := val } } }
    | 0x30 =>
      .ok { m with iSide := { m.iSide with regs := { m.iSide.regs with tagAccess := val } } }
    | _ => .ok m
  | 0x5C => if va = 0 then m.dtlbDataIn val else .error .badAddress
  | 0x5D => m.dtlbDataAccess va val
  | 0x54 => if va = 0 then m.itlbDataIn val else .error .badAddress
  | 0x5F => .ok (m.demap false va)
  | 0x57 => .ok (m.demap true va)
  | _ => .ok m

end Mmu

/-- What software and translations do to an MMU. -/
inductive MmuEvent
  | lookup (q : Request) (takeException : Bool)
  | store (asi va val : BitVec 64)
  deriving DecidableEq

/-- The mode of a lookup that translates. -/
def translating (takeException : Bool) : TranslationType :=
  if takeException then .MMU_TRANSLATE else .MMU_TRANSLATE_PF

/-- What an event does. -/
def Mmu.step (m : Mmu) : MmuEvent → Except MmuFault Mmu
  | .lookup q takeException => .ok (m.mmuLookup q (translating takeException)).2.2
  | .store asi va val => m.mmuStore asi va val

/-- **An MMU**, from a state on. -/
def mmuMachine (m₀ : Mmu) : Machine Mmu MmuEvent MmuFault where
  init := m₀
  step := Mmu.step

end MMU

end Flexus
