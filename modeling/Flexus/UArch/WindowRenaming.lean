import Flexus.UArch.Renaming
import Flexus.UArch.Windows
import Mathlib.Tactic.IntervalCases

/-!
# Register windows and renaming under squashes

The mappings that are in flight in a rename table are those of the instructions in the reorder
buffer, each under the name it has in the window in which the instruction was dispatched. The
window of an instruction follows from the architectural one by the moves of the instructions
up to it, and so the last one is the current window.

A squash takes the mappings of the youngest instruction back, from its first destination to
its last. Since the destinations of one instruction are different registers, each of them is
the youngest mapping of its name then; and the move of the window is undone after that. What
was dispatched is taken back in this way, instruction by instruction.
-/

namespace Flexus

namespace UArch

/-! ### Names and registers -/

/-- The number of the first register of a set. -/
def GlobalSet.offset : GlobalSet → ℕ
  | .normal => 0
  | .alternate => 8
  | .mmu => 16
  | .interrupt => 24

namespace ArchReg

/-- The number of a register in the rename table. -/
def index : ArchReg → ℕ
  | .global set i => i + set.offset
  | .out window i => 32 + i + (7 - window) * 16
  | .loc window i => 40 + i + (7 - window) * 16
  | .special i => i
  | .floating i => i
  | .conditionCode i => i

/-- The integer registers. -/
def IsInteger : ArchReg → Prop
  | .global _ i => i < 8
  | .out window i => window < 8 ∧ i < 8
  | .loc window i => window < 8 ∧ i < 8
  | .special i => 160 ≤ i ∧ i < 163
  | .floating _ => False
  | .conditionCode _ => False

theorem index_lt {a : ArchReg} (h : a.IsInteger) : a.index < kTotalRegs := by
  have hmax : kTotalRegs = 163 := rfl
  cases a with
  | global s i =>
    have : i < 8 := h
    cases s <;> simp only [index, GlobalSet.offset] <;> omega
  | out w i =>
    obtain ⟨hw, hi⟩ := h
    simp only [index]
    omega
  | loc w i =>
    obtain ⟨hw, hi⟩ := h
    simp only [index]
    omega
  | special i => exact h.2
  | floating i => exact h.elim
  | conditionCode i => exact h.elim

theorem index_range {a : ArchReg} (h : a.IsInteger) :
    match a with
    | .global _ _ => a.index < 32
    | .out _ _ => 32 ≤ a.index ∧ a.index < 160 ∧ a.index % 16 < 8
    | .loc _ _ => 32 ≤ a.index ∧ a.index < 160 ∧ 8 ≤ a.index % 16
    | _ => 160 ≤ a.index := by
  cases a with
  | global s i =>
    have : i < 8 := h
    cases s <;> simp only [index, GlobalSet.offset] <;> omega
  | out w i =>
    obtain ⟨hw, hi⟩ := h
    simp only [index]
    omega
  | loc w i =>
    obtain ⟨hw, hi⟩ := h
    simp only [index]
    omega
  | special i => exact h.1
  | floating i => exact h.elim
  | conditionCode i => exact h.elim

/-- **Different registers have different numbers.** -/
theorem index_inj {a b : ArchReg} (ha : a.IsInteger) (hb : b.IsInteger)
    (h : a.index = b.index) : a = b := by
  have hra := index_range ha
  have hrb := index_range hb
  cases a <;> cases b <;> first
    | exact ha.elim
    | exact hb.elim
    | (simp only at hra hrb; omega)
    | skip
  case global.global s i t j =>
    have hi : i < 8 := ha
    have hj : j < 8 := hb
    cases s <;> cases t <;> simp only [index, GlobalSet.offset] at h <;>
      first
        | omega
        | (obtain rfl : i = j := by omega
           rfl)
  case out.out w i v j =>
    obtain ⟨hw, hi⟩ := ha
    obtain ⟨hv, hj⟩ := hb
    simp only [index] at h
    obtain ⟨rfl, rfl⟩ : w = v ∧ i = j := by omega
    rfl
  case loc.loc w i v j =>
    obtain ⟨hw, hi⟩ := ha
    obtain ⟨hv, hj⟩ := hb
    simp only [index] at h
    obtain ⟨rfl, rfl⟩ : w = v ∧ i = j := by omega
    rfl
  case special.special i j => exact congrArg _ h

end ArchReg

namespace RegisterWindowMap

variable {w v : RegisterWindowMap} {r q : UnmappedReg}

theorem rotate_type : (w.rotate r).theType = r.theType := by
  rw [rotate]
  split <;> rfl

theorem globals_eq : w.globals = w.globalSet.offset := by
  rw [globals, globalSet]
  cases w.theAG <;> cases w.theMG <;> cases w.theIG <;> rfl

theorem location_isInteger {i : ℕ} (hw : w.theCWP < 8)
    (hr : (UnmappedReg.mk .rRegisters i).IsName) :
    (w.location ⟨.rRegisters, i⟩).IsInteger := by
  have hi : i < 32 ∨ 160 ≤ i ∧ i < 163 := hr
  have hfirst : kFirstSpecialReg = 160 := rfl
  simp only [location, hfirst]
  by_cases h1 : i ≥ 160
  · rw [if_pos h1]
    exact ⟨h1, by omega⟩
  rw [if_neg h1]
  by_cases h2 : i < 8
  · rw [if_pos h2]
    exact h2
  rw [if_neg h2]
  by_cases h3 : i < 16
  · rw [if_pos h3]
    exact ⟨hw, by omega⟩
  rw [if_neg h3]
  by_cases h4 : i < 24
  · rw [if_pos h4]
    exact ⟨hw, by omega⟩
  rw [if_neg h4]
  exact ⟨by omega, by omega⟩

theorem rotateIndex_eq {i : ℕ} (hw : w.theCWP < 8)
    (hr : (UnmappedReg.mk .rRegisters i).IsName) :
    w.rotateIndex i = (w.location ⟨.rRegisters, i⟩).index := by
  have hi : i < 32 ∨ 160 ≤ i ∧ i < 163 := hr
  have hfirst : kFirstSpecialReg = 160 := rfl
  have hcount : kGlobalRegCount = 8 := rfl
  have hsets : (kGlobalRegSets - 1) * 8 = 24 := rfl
  have hwindows : kNumWindows - 1 = 7 := rfl
  have hper : kRegistersPerWindow = 16 := rfl
  have hall : kWindowRegCount = 128 := rfl
  simp only [location, rotateIndex, hfirst, hcount, hsets, hwindows, hper, hall]
  by_cases h1 : i ≥ 160
  · rw [if_pos h1, if_pos h1]
    rfl
  rw [if_neg h1, if_neg h1]
  by_cases h2 : i < 8
  · rw [if_pos h2, if_pos h2, globals_eq]
    rfl
  rw [if_neg h2, if_neg h2]
  by_cases h3 : i < 16
  · rw [if_pos h3, if_neg (by omega)]
    simp only [ArchReg.index]
    omega
  rw [if_neg h3]
  by_cases h4 : i < 24
  · rw [if_pos h4, if_neg (by omega)]
    simp only [ArchReg.index]
    omega
  rw [if_neg h4]
  -- the ins of window 0 are the outs of window 7
  by_cases h0 : w.theCWP = 0
  · rw [if_pos (by omega), h0]
    simp only [ArchReg.index]
    omega
  · rw [if_neg (by omega)]
    simp only [ArchReg.index]
    omega

/-- A name is rotated to the number of the register it means. -/
theorem rotate_index (hw : w.theCWP < 8) (hr : r.IsName) :
    (w.rotate r).theIndex = (w.location r).index := by
  obtain ⟨t, i⟩ := r
  cases t with
  | rRegisters => exact rotateIndex_eq hw hr
  | fRegisters => rfl
  | ccBits => rfl

theorem rotate_lt (hw : w.theCWP < 8) (hr : r.IsName) :
    (w.rotate r).theIndex < nameCount r.theType := by
  rw [rotate_index hw hr]
  obtain ⟨t, i⟩ := r
  cases t with
  | rRegisters => exact ArchReg.index_lt (location_isInteger hw hr)
  | fRegisters => exact hr.elim
  | ccBits => exact hr

/-- **The overlap of the windows**: two names are rotated to the same number, each in its
window, if and only if they mean the same register. -/
theorem rotate_eq_iff (hw : w.theCWP < 8) (hv : v.theCWP < 8) (hr : r.IsName) (hq : q.IsName)
    (ht : r.theType = q.theType) :
    (w.rotate r).theIndex = (v.rotate q).theIndex ↔ w.location r = v.location q := by
  rw [rotate_index hw hr, rotate_index hv hq]
  refine ⟨fun h => ?_, congrArg _⟩
  obtain ⟨t, i⟩ := r
  obtain ⟨u, j⟩ := q
  cases ht
  cases t with
  | rRegisters =>
    exact ArchReg.index_inj (location_isInteger hw hr) (location_isInteger hv hq) h
  | fRegisters => exact hr.elim
  | ccBits => exact congrArg _ h

theorem location_ne (h : r.theType ≠ q.theType) : w.location r ≠ v.location q := by
  obtain ⟨t, i⟩ := r
  obtain ⟨u, j⟩ := q
  intro heq
  cases t <;> cases u <;> simp only [location] at heq <;>
    first
      | exact h rfl
      | cases heq
      | (split_ifs at heq)

theorem location_inj (hr : r.IsName) (hq : q.IsName)
    (ht : r.theType = q.theType) (h : w.location r = w.location q) : r = q := by
  obtain ⟨t, i⟩ := r
  obtain ⟨u, j⟩ := q
  cases ht
  cases t with
  | fRegisters => exact hr.elim
  | ccBits => exact congrArg _ (ArchReg.conditionCode.inj h)
  | rRegisters =>
    have hi : i < 32 ∨ 160 ≤ i ∧ i < 163 := hr
    have hj : j < 32 ∨ 160 ≤ j ∧ j < 163 := hq
    have hfirst : kFirstSpecialReg = 160 := rfl
    simp only [location, hfirst] at h
    obtain rfl : i = j := by
      split_ifs at h <;> simp only [ArchReg.out.injEq, ArchReg.loc.injEq, ArchReg.global.injEq,
        ArchReg.special.injEq] at h <;> omega
    rfl

theorem incrementCWP_lt : w.incrementCWP.theCWP < 8 := by
  rw [incrementCWP]
  dsimp only
  split <;> omega

theorem decrementCWP_lt (hw : w.theCWP < 8) : w.decrementCWP.theCWP < 8 := by
  rw [decrementCWP]
  dsimp only
  split <;> omega

theorem decrement_increment (hw : w.theCWP < 8) : w.incrementCWP.decrementCWP = w := by
  obtain ⟨n, ag, ig, mg⟩ := w
  have hn : n < 8 := hw
  interval_cases n <;> rfl

theorem increment_decrement (hw : w.theCWP < 8) : w.decrementCWP.incrementCWP = w := by
  obtain ⟨n, ag, ig, mg⟩ := w
  have hn : n < 8 := hw
  interval_cases n <;> rfl

end RegisterWindowMap

/-! ### The windows of the instructions in flight -/

namespace WindowMove

variable {w : RegisterWindowMap}

theorem apply_lt (k : WindowMove) (hw : w.theCWP < 8) : (k.apply w).theCWP < 8 := by
  cases k with
  | stay => exact hw
  | save => exact RegisterWindowMap.incrementCWP_lt
  | restore => exact RegisterWindowMap.decrementCWP_lt hw

/-- The effect of a dispatch on the window. -/
def effects : WindowMove → List Effect
  | .stay => []
  | .save => [.saveWindow]
  | .restore => [.restoreWindow]

/-- The effect that undoes it. -/
def undo : WindowMove → List Effect
  | .stay => []
  | .save => [.restoreWindow]
  | .restore => [.saveWindow]

/-- The effect of a retirement on the architectural window. -/
def priv : WindowMove → List Effect
  | .stay => []
  | .save => [.saveWindowPriv]
  | .restore => [.restoreWindowPriv]

end WindowMove

/-- The window after instructions. -/
def windowAfter : RegisterWindowMap → List SemanticInstruction → RegisterWindowMap
  | w, [] => w
  | w, x :: xs => windowAfter (x.theMove.apply w) xs

section WindowAfter

variable {w : RegisterWindowMap} {l k : List SemanticInstruction} {x : SemanticInstruction}

theorem windowAfter_append : windowAfter w (l ++ k) = windowAfter (windowAfter w l) k := by
  induction l generalizing w with
  | nil => rfl
  | cons x l ih => exact ih

theorem windowAfter_concat :
    windowAfter w (l ++ [x]) = x.theMove.apply (windowAfter w l) := windowAfter_append

theorem windowAfter_lt (hw : w.theCWP < 8) : (windowAfter w l).theCWP < 8 := by
  induction l generalizing w with
  | nil => exact hw
  | cons x l ih => exact ih (x.theMove.apply_lt hw)

end WindowAfter

/-- The mapping of a destination, under its name in a window. -/
def SemanticInstruction.mapping (w : RegisterWindowMap) (x : SemanticInstruction) (d : Dest) :
    Mapping :=
  ⟨(w.rotate (x.theName d)).theIndex, (x.theMapping d).theIndex,
    (x.thePreviousMapping d).theIndex⟩

/-- The mappings of destinations in the table of a type. -/
def mappingsOf (w : RegisterWindowMap) (x : SemanticInstruction) (l : List Dest)
    (t : RegisterType) : List Mapping :=
  (destinationsOf x.theName l t).map (x.mapping w)

/-- **The mappings in flight** in the table of a type. -/
def inFlight : RegisterWindowMap → List SemanticInstruction → RegisterType → List Mapping
  | _, [], _ => []
  | w, x :: xs, t =>
    mappingsOf (x.theMove.apply w) x x.theDestinations t ++ inFlight (x.theMove.apply w) xs t

section InFlight

variable {w : RegisterWindowMap} {l k : List SemanticInstruction} {x : SemanticInstruction}
  {t : RegisterType}

theorem inFlight_append :
    inFlight w (l ++ k) t = inFlight w l t ++ inFlight (windowAfter w l) k t := by
  induction l generalizing w with
  | nil => rfl
  | cons x l ih =>
    rw [List.cons_append, inFlight, inFlight, ih, List.append_assoc]
    rfl

theorem inFlight_concat : inFlight w (l ++ [x]) t =
    inFlight w l t ++ mappingsOf (windowAfter w (l ++ [x])) x x.theDestinations t := by
  rw [inFlight_append, windowAfter_concat, inFlight, inFlight, List.append_nil]

end InFlight

section MappingsOf

variable {w : RegisterWindowMap} {x : SemanticInstruction} {d : Dest} {l : List Dest}
  {t : RegisterType}

theorem destinationsOf_cons {name : Dest → UnmappedReg} : destinationsOf name (d :: l) t =
    if (name d).theType = t then d :: destinationsOf name l t else destinationsOf name l t := by
  rw [destinationsOf, List.filter_cons]
  simp [destinationsOf]

theorem mappingsOf_cons_self :
    mappingsOf w x (d :: l) (x.theName d).theType =
      x.mapping w d :: mappingsOf w x l (x.theName d).theType := by
  rw [mappingsOf, destinationsOf_cons, if_pos rfl]
  rfl

theorem mappingsOf_cons_of_ne (h : t ≠ (x.theName d).theType) :
    mappingsOf w x (d :: l) t = mappingsOf w x l t := by
  rw [mappingsOf, destinationsOf_cons, if_neg (Ne.symm h)]
  rfl

theorem mem_destinationsOf {name : Dest → UnmappedReg} (h : d ∈ destinationsOf name l t) :
    d ∈ l ∧ (name d).theType = t := by
  rw [destinationsOf, List.mem_filter, beq_iff_eq] at h
  exact h

end MappingsOf

/-! ### The rename tables under the effects -/

open RenameState (Consistent)

/-- **The rename tables hold mappings in flight** and committed ones. -/
def Tables (n : ℕ) (m : RegisterType → PhysicalMap) (l : RegisterType → List Mapping)
    (committed : RegisterType → ℕ → ℕ) : Prop :=
  ∀ t, Consistent (nameCount t) (regFileSize n t) ⟨m t, l t, committed t⟩

namespace Tables

variable {n : ℕ} {m : RegisterType → PhysicalMap} {l p : RegisterType → List Mapping}
  {committed : RegisterType → ℕ → ℕ} {t : RegisterType} {m' : PhysicalMap} {k : List Mapping}
  {f : ℕ → ℕ}

theorem update (h : Tables n m l committed)
    (hm : Consistent (nameCount t) (regFileSize n t) ⟨m', k, f⟩) (hk : p t = k)
    (hne : ∀ u, u ≠ t → p u = l u) :
    Tables n (Function.update m t m') p (Function.update committed t f) := by
  intro u
  by_cases hu : u = t
  · rw [hu, Function.update_self, Function.update_self, hk]
    exact hm
  · rw [Function.update_of_ne hu, Function.update_of_ne hu, hne u hu]
    exact h u

end Tables

/-- What an instruction must be, for its destinations to be mapped and unmapped. -/
structure SemanticInstruction.WellFormed (x : SemanticInstruction) : Prop where
  nodup : x.theDestinations.Nodup
  distinct : (x.theDestinations.map x.theName).Nodup
  names : ∀ d ∈ x.theDestinations, (x.theName d).IsName
  integers : (destinationsOf x.theName x.theDestinations .rRegisters).length ≤ 2
  conditionCodes : (destinationsOf x.theName x.theDestinations .ccBits).length ≤ 1

/-- The effects that undo the mapping of destinations. -/
def undoMappings (l : List Dest) : List Effect :=
  l.flatMap fun d => [.restoreMapping d, .freeMapping d]

/-- An instruction whose destinations are mapped, with the effects it has then. -/
structure SemanticInstruction.Dispatched (x : SemanticInstruction) : Prop
    extends x.WellFormed where
  squash_eq : x.theSquashEffects = undoMappings x.theDestinations ++ x.theMove.undo
  retirement_eq : x.theRetirementEffects =
    x.theMove.priv ++ x.theDestinations.map Effect.freePrevious
  mapping_type : ∀ d ∈ x.theDestinations, (x.theMapping d).theType = (x.theName d).theType
  previous_type : ∀ d ∈ x.theDestinations,
    (x.thePreviousMapping d).theType = (x.theName d).theType

namespace WindowCore

variable {n : ℕ} {c : WindowCore} {x : SemanticInstruction} {l : List Dest}
  {k : RegisterType → List Mapping} {committed : RegisterType → ℕ → ℕ} {es fs : List Effect}

theorem invokeChain_append (p : WindowCore × SemanticInstruction) :
    invokeChain (es ++ fs) p = invokeChain es p >>= invokeChain fs := by
  induction es generalizing p with
  | nil => rfl
  | cons e es ih =>
    simp only [List.cons_append, invokeChain]
    cases invoke p e with
    | error f => rfl
    | ok q => exact ih q

@[simp]
theorem setTable_self (t : RegisterType) (m : PhysicalMap) :
    (c.setTable t m).theMapTables t = m := Function.update_self ..

@[simp]
theorem setTable_setTable (t : RegisterType) (m m' : PhysicalMap) :
    (c.setTable t m).setTable t m' = c.setTable t m' := by
  simp only [setTable, Function.update_idem]

theorem invokeChain_undo {d : Dest} {m' : PhysicalMap} (hm : (x.theMapping d).theType =
      (x.theName d).theType)
    (hp : (x.thePreviousMapping d).theType = (x.theName d).theType)
    (h : ((c.theMapTables (x.theName d).theType).restore (x.mapping c.theWindowMap d).name
      (x.mapping c.theWindowMap d).previous).free (x.mapping c.theWindowMap d).register =
        .ok m') :
    invokeChain [.restoreMapping d, .freeMapping d] (c, x) =
      .ok (c.setTable (x.theName d).theType m', x) := by
  rw [invokeChain, invoke, restore, if_pos hp.symm]
  simp only [invokeChain, invoke, free, bind, Except.bind, hm, setTable_self]
  simp only [SemanticInstruction.mapping] at h
  rw [h]
  simp only [setTable_setTable]

/-- **The mappings of an instruction are undone**, from its first destination to its last. -/
theorem invokeChain_undoMappings (hw : c.theWindowMap.theCWP < 8)
    (hd : (l.map x.theName).Nodup) (hn : ∀ d ∈ l, (x.theName d).IsName)
    (hm : ∀ d ∈ l, (x.theMapping d).theType = (x.theName d).theType)
    (hp : ∀ d ∈ l, (x.thePreviousMapping d).theType = (x.theName d).theType)
    (h : Tables n c.theMapTables (fun t => k t ++ mappingsOf c.theWindowMap x l t) committed) :
    ∃ m, invokeChain (undoMappings l) (c, x) = .ok ({ c with theMapTables := m }, x) ∧
      Tables n m k committed := by
  induction l generalizing c with
  | nil =>
    refine ⟨c.theMapTables, rfl, fun t => ?_⟩
    have ht := h t
    dsimp only at ht
    rw [show mappingsOf c.theWindowMap x [] t = [] from rfl, List.append_nil] at ht
    exact ht
  | cons d l ih =>
    have hhead := h (x.theName d).theType
    dsimp only at hhead
    rw [mappingsOf_cons_self] at hhead
    -- the other destinations are other registers
    have hother : ∀ y ∈ mappingsOf c.theWindowMap x l (x.theName d).theType,
        y.name ≠ (x.mapping c.theWindowMap d).name := by
      intro y hy heq
      obtain ⟨e, he, rfl⟩ := List.mem_map.mp hy
      obtain ⟨hel, het⟩ := mem_destinationsOf he
      have hne := hn e (List.mem_cons_of_mem d hel)
      have hnd := hn d List.mem_cons_self
      have hloc := (RegisterWindowMap.rotate_eq_iff hw hw hne hnd het).mp heq
      have hsame := RegisterWindowMap.location_inj hne hnd het hloc
      rw [List.map_cons, List.nodup_cons] at hd
      exact hd.1 (hsame ▸ List.mem_map_of_mem hel)
    obtain ⟨m', hm', hc'⟩ := hhead.undo hother
    have hfirst := invokeChain_undo (hm d List.mem_cons_self) (hp d List.mem_cons_self) hm'
    have htables : Tables n (c.setTable (x.theName d).theType m').theMapTables
        (fun t => k t ++ mappingsOf c.theWindowMap x l t) committed := by
      have hupd := h.update (p := fun t => k t ++ mappingsOf c.theWindowMap x l t) hc' rfl
        fun u hu => by rw [mappingsOf_cons_of_ne hu]
      rw [Function.update_eq_self] at hupd
      exact hupd
    obtain ⟨m'', hrest, hdone⟩ := ih (c := c.setTable (x.theName d).theType m') hw
      (List.nodup_cons.mp (List.map_cons ▸ hd)).2 (fun e he => hn e (List.mem_cons_of_mem d he))
      (fun e he => hm e (List.mem_cons_of_mem d he))
      (fun e he => hp e (List.mem_cons_of_mem d he)) htables
    refine ⟨m'', ?_, hdone⟩
    rw [show undoMappings (d :: l) = [.restoreMapping d, .freeMapping d] ++ undoMappings l from
      List.flatMap_cons, invokeChain_append, hfirst]
    exact hrest

/-- **The mappings of the oldest instruction commit.** -/
theorem invokeChain_freePrevious {w : RegisterWindowMap}
    (hp : ∀ d ∈ l, (x.thePreviousMapping d).theType = (x.theName d).theType)
    (h : Tables n c.theMapTables (fun t => mappingsOf w x l t ++ k t) committed) :
    ∃ m committed', invokeChain (l.map Effect.freePrevious) (c, x) =
        .ok ({ c with theMapTables := m }, x) ∧ Tables n m k committed' := by
  induction l generalizing c committed with
  | nil => exact ⟨c.theMapTables, committed, rfl, h⟩
  | cons d l ih =>
    have hhead := h (x.theName d).theType
    dsimp only at hhead
    rw [mappingsOf_cons_self, List.cons_append, ← List.nil_append (x.mapping w d :: _)] at hhead
    have hoverall : ∀ y ∈ ([] : List Mapping), y.name ≠ (x.mapping w d).name := fun y hy =>
      absurd hy List.not_mem_nil
    obtain ⟨m', hm', hc'⟩ := hhead.free_previous hoverall
    have hfirst : invoke (c, x) (.freePrevious d) =
        .ok (c.setTable (x.theName d).theType m', x) := by
      have hm'' : (c.theMapTables (x.theName d).theType).free
          (x.thePreviousMapping d).theIndex = .ok m' := hm'
      simp only [invoke, free, bind, Except.bind, hp d List.mem_cons_self, hm'']
    have htables := h.update (p := fun t => mappingsOf w x l t ++ k t) hc' rfl
        fun u hu => by rw [mappingsOf_cons_of_ne hu]
    obtain ⟨m'', committed', hrest, hdone⟩ := ih (c := c.setTable (x.theName d).theType m')
      (fun e he => hp e (List.mem_cons_of_mem d he)) htables
    refine ⟨m'', committed', ?_, hdone⟩
    rw [List.map_cons, invokeChain, hfirst]
    exact hrest

/-- What the mapping of destinations leaves of an instruction. -/
structure MapsTo (l : List Dest) (squashEffects : Bool) (x y : SemanticInstruction) : Prop where
  move_eq : y.theMove = x.theMove
  destinations_eq : y.theDestinations = x.theDestinations
  name_eq : y.theName = x.theName
  mapping_eq : ∀ d, d ∉ l → y.theMapping d = x.theMapping d
  previous_eq : ∀ d, d ∉ l → y.thePreviousMapping d = x.thePreviousMapping d
  squash_eq : y.theSquashEffects =
    x.theSquashEffects ++ if squashEffects then undoMappings l else []
  retirement_eq : y.theRetirementEffects = x.theRetirementEffects ++ l.map Effect.freePrevious
  mapping_type : ∀ d ∈ l, (y.theMapping d).theType = (y.theName d).theType
  previous_type : ∀ d ∈ l, (y.thePreviousMapping d).theType = (y.theName d).theType

/-- What one `MapDestinationEffect` does to an instruction. -/
def mapped (x : SemanticInstruction) (d : Dest) (r p : ℕ) (squashEffects : Bool) :
    SemanticInstruction :=
  let x' := (x.setMapping d ⟨(x.theName d).theType, r⟩
    ⟨(x.theName d).theType, p⟩).addRetirementEffect (.freePrevious d)
  if squashEffects then
    (x'.addSquashEffect (.restoreMapping d)).addSquashEffect (.freeMapping d)
  else x'

theorem mapped_mapping (d : Dest) (r p : ℕ) (b : Bool) :
    (mapped x d r p b).theMapping d = ⟨(x.theName d).theType, r⟩ ∧
      (mapped x d r p b).thePreviousMapping d = ⟨(x.theName d).theType, p⟩ := by
  cases b with
  | false => exact ⟨Function.update_self .., Function.update_self ..⟩
  | true => exact ⟨Function.update_self .., Function.update_self ..⟩

theorem mapsTo_mapped (d : Dest) (r p : ℕ) (b : Bool) : MapsTo [d] b x (mapped x d r p b) := by
  have hm := mapped_mapping (x := x) d r p b
  have hname : (mapped x d r p b).theName = x.theName := by cases b <;> rfl
  refine ⟨?_, ?_, hname, fun e he => ?_, fun e he => ?_, ?_, ?_, fun e he => ?_, fun e he => ?_⟩
  · cases b <;> rfl
  · cases b <;> rfl
  · have hne : e ≠ d := fun h => he (List.mem_singleton.mpr h)
    cases b <;> exact Function.update_of_ne hne _ _
  · have hne : e ≠ d := fun h => he (List.mem_singleton.mpr h)
    cases b <;> exact Function.update_of_ne hne _ _
  · cases b with
    | false => exact (List.append_nil _).symm
    | true => exact List.append_assoc ..
  · cases b <;> rfl
  · rw [List.mem_singleton.mp he, hm.1, hname]
  · rw [List.mem_singleton.mp he, hm.2, hname]

theorem MapsTo.cons {d : Dest} {b : Bool} {y z : SemanticInstruction} (h : MapsTo [d] b x y)
    (hrest : MapsTo l b y z) (hd : d ∉ l) : MapsTo (d :: l) b x z := by
  refine ⟨hrest.move_eq.trans h.move_eq, hrest.destinations_eq.trans h.destinations_eq,
    hrest.name_eq.trans h.name_eq, fun e he => ?_, fun e he => ?_, ?_, ?_, fun e he => ?_,
    fun e he => ?_⟩
  · obtain ⟨hed, hel⟩ := List.ne_and_not_mem_of_not_mem_cons he
    rw [hrest.mapping_eq e hel, h.mapping_eq e (fun h => hed (List.mem_singleton.mp h))]
  · obtain ⟨hed, hel⟩ := List.ne_and_not_mem_of_not_mem_cons he
    rw [hrest.previous_eq e hel, h.previous_eq e (fun h => hed (List.mem_singleton.mp h))]
  · rw [hrest.squash_eq, h.squash_eq, List.append_assoc]
    cases b with
    | false => rfl
    | true => rfl
  · rw [hrest.retirement_eq, h.retirement_eq, List.append_assoc]
    rfl
  · rcases List.mem_cons.mp he with rfl | he
    · rw [hrest.mapping_eq e hd, hrest.name_eq]
      exact h.mapping_type e (List.mem_singleton.mpr rfl)
    · exact hrest.mapping_type e he
  · rcases List.mem_cons.mp he with rfl | he
    · rw [hrest.previous_eq e hd, hrest.name_eq]
      exact h.previous_type e (List.mem_singleton.mpr rfl)
    · exact hrest.previous_type e he

theorem invoke_mapDestination {d : Dest} {b : Bool} {m' : PhysicalMap} {r p : ℕ}
    (h : (c.theMapTables (x.theName d).theType).create
      (c.theWindowMap.rotate (x.theName d)).theIndex = .ok (m', r, p)) :
    invoke (c, x) (.mapDestination d b) =
      .ok (c.setTable (x.theName d).theType m', mapped x d r p b) := by
  simp only [invoke, create, RegisterWindowMap.rotate_type, h, bind, Except.bind]
  cases b with
  | false => rfl
  | true => rfl

/-- **The destinations of an instruction are mapped.** -/
theorem invokeChain_mapDestinations {b : Bool} (hw : c.theWindowMap.theCWP < 8) (hd : l.Nodup)
    (hn : ∀ d ∈ l, (x.theName d).IsName)
    (hroom : ∀ t, nameCount t + (k t).length + (destinationsOf x.theName l t).length ≤
      regFileSize n t)
    (h : Tables n c.theMapTables k committed) :
    ∃ m y, invokeChain (l.map fun d => Effect.mapDestination d b) (c, x) =
        .ok ({ c with theMapTables := m }, y) ∧ MapsTo l b x y ∧
      Tables n m (fun t => k t ++ mappingsOf c.theWindowMap y l t) committed := by
  induction l generalizing c x k with
  | nil =>
    refine ⟨c.theMapTables, x, rfl, ⟨rfl, rfl, rfl, fun _ _ => rfl, fun _ _ => rfl, ?_, ?_,
      fun d hd => absurd hd List.not_mem_nil, fun d hd => absurd hd List.not_mem_nil⟩, ?_⟩
    · cases b <;> exact (List.append_nil _).symm
    · exact (List.append_nil _).symm
    · intro t
      have ht := h t
      rw [← List.append_nil (k t)] at ht
      exact ht
  | cons d l ih =>
    obtain ⟨hdl, hl⟩ := List.nodup_cons.mp hd
    have hname := hn d List.mem_cons_self
    have hspace := hroom (x.theName d).theType
    rw [destinationsOf_cons, if_pos rfl, List.length_cons] at hspace
    obtain ⟨m', r, p, hm', hc'⟩ := (h (x.theName d).theType).create
      (RegisterWindowMap.rotate_lt hw hname) (by omega)
    have hfirst := invoke_mapDestination (b := b) hm'
    have hone := mapsTo_mapped (x := x) d r p b
    set y := mapped x d r p b with hy
    set c' := c.setTable (x.theName d).theType m' with hcore
    -- the table of the destination has one mapping more
    have htables := h.update (p := Function.update k (x.theName d).theType (k _ ++ [_])) hc'
      (Function.update_self ..) fun u hu => Function.update_of_ne hu _ _
    rw [Function.update_eq_self] at htables
    have hroom' : ∀ t, nameCount t +
        (Function.update k (x.theName d).theType
          (k (x.theName d).theType ++ [⟨(c.theWindowMap.rotate (x.theName d)).theIndex, r, p⟩])
          t).length + (destinationsOf y.theName l t).length ≤ regFileSize n t := by
      intro t
      have hspace := hroom t
      rw [hone.name_eq]
      by_cases ht : t = (x.theName d).theType
      · rw [ht, destinationsOf_cons, if_pos rfl, List.length_cons] at hspace
        rw [ht, Function.update_self, List.length_append, List.length_singleton]
        omega
      · rw [destinationsOf_cons, if_neg (Ne.symm ht)] at hspace
        rw [Function.update_of_ne ht]
        exact hspace
    obtain ⟨m'', z, hrest, hmaps, hdone⟩ := ih (c := c') (x := y) hw hl
      (fun e he => by rw [hone.name_eq]; exact hn e (List.mem_cons_of_mem d he)) hroom' htables
    refine ⟨m'', z, ?_, hone.cons hmaps hdl, fun t => ?_⟩
    · rw [List.map_cons, invokeChain, hfirst]
      exact hrest
    · have ht := hdone t
      have hzname : z.theName = x.theName := hmaps.name_eq.trans hone.name_eq
      by_cases htd : t = (x.theName d).theType
      · subst htd
        have hcons := mappingsOf_cons_self (w := c.theWindowMap) (x := z) (d := d) (l := l)
        rw [hzname] at hcons
        have hmapping : z.mapping c.theWindowMap d =
            ⟨(c.theWindowMap.rotate (x.theName d)).theIndex, r, p⟩ := by
          have hm := mapped_mapping (x := x) d r p b
          rw [SemanticInstruction.mapping, hzname, hmaps.mapping_eq d hdl,
            hmaps.previous_eq d hdl, hm.1, hm.2]
        dsimp only at ht ⊢
        rw [Function.update_self, List.append_assoc] at ht
        rw [hcons, hmapping]
        exact ht
      · dsimp only at ht ⊢
        rw [Function.update_of_ne htd] at ht
        rw [mappingsOf_cons_of_ne (by rw [hzname]; exact htd)]
        exact ht

end WindowCore

/-! ### Room in the tables -/

/-- The registers of a type that the tables have for each place in the reorder buffer. -/
def perInstruction : RegisterType → ℕ
  | .rRegisters => 2
  | .fRegisters => 4
  | .ccBits => 1

theorem regFileSize_eq (n : ℕ) (t : RegisterType) :
    regFileSize n t = nameCount t + perInstruction t * n := by
  cases t with
  | rRegisters => rfl
  | fRegisters => rfl
  | ccBits => rw [perInstruction, Nat.one_mul]; rfl

theorem SemanticInstruction.WellFormed.length_le {x : SemanticInstruction} (h : x.WellFormed)
    (t : RegisterType) :
    (destinationsOf x.theName x.theDestinations t).length ≤ perInstruction t := by
  cases t with
  | rRegisters => exact h.integers
  | ccBits => exact h.conditionCodes
  | fRegisters =>
    have hnil : destinationsOf x.theName x.theDestinations .fRegisters = [] := by
      rw [List.eq_nil_iff_forall_not_mem]
      intro d hd
      obtain ⟨hdx, htype⟩ := mem_destinationsOf hd
      have hname := h.names d hdx
      rw [UnmappedReg.IsName, htype] at hname
      exact hname
    rw [hnil]
    exact Nat.zero_le _

theorem inFlight_length_le {w : RegisterWindowMap} {l : List SemanticInstruction}
    (h : ∀ x ∈ l, x.Dispatched) (t : RegisterType) :
    (inFlight w l t).length ≤ perInstruction t * l.length := by
  induction l generalizing w with
  | nil => exact Nat.zero_le _
  | cons x l ih =>
    have hhead := (h x List.mem_cons_self).toWellFormed.length_le t
    have hrest := ih (w := x.theMove.apply w) fun y hy => h y (List.mem_cons_of_mem x hy)
    rw [inFlight, List.length_append, mappingsOf, List.length_map, List.length_cons, Nat.mul_succ]
    omega

/-! ### Steps of the core -/

/-- An instruction as the decoder makes it. The flag says whether the effects that undo its
mappings are added as they are made. -/
structure SemanticInstruction.Decoded (x : SemanticInstruction) (b : Bool) : Prop
    extends x.WellFormed where
  dispatch_eq : x.theDispatchEffects =
    x.theMove.effects ++ x.theDestinations.map fun d => .mapDestination d b
  squash_eq : x.theSquashEffects ++ (if b then undoMappings x.theDestinations else []) =
    undoMappings x.theDestinations ++ x.theMove.undo
  retirement_eq : x.theRetirementEffects = x.theMove.priv

theorem decoded_saveAndRestore (isRestore : Bool) (rd : Fin 32) :
    (saveAndRestore isRestore rd).Decoded false := by
  by_cases hrd : rd.val = 0
  · have hd : (saveAndRestore isRestore rd).theDestinations = [] := if_neg (not_not.mpr hrd)
    refine ⟨⟨?_, ?_, ?_, ?_, ?_⟩, ?_, ?_, ?_⟩
    · rw [hd]
      exact List.nodup_nil
    · rw [hd]
      exact List.nodup_nil
    · rw [hd]
      exact fun d hmem => absurd hmem List.not_mem_nil
    · rw [hd]
      exact Nat.zero_le _
    · rw [hd]
      exact Nat.zero_le _
    · cases isRestore <;> simp [saveAndRestore, hrd, WindowMove.effects]
    · cases isRestore <;> simp [saveAndRestore, hrd, WindowMove.undo, undoMappings]
    · cases isRestore <;> rfl
  · have hd : (saveAndRestore isRestore rd).theDestinations = [.rd] := if_pos hrd
    refine ⟨⟨?_, ?_, ?_, ?_, ?_⟩, ?_, ?_, ?_⟩
    · rw [hd]
      exact List.nodup_singleton _
    · rw [hd]
      exact List.nodup_singleton _
    · rw [hd]
      exact fun d _ => .inl rd.isLt
    · rw [hd]
      exact Nat.le_succ 1
    · rw [hd]
      exact Nat.zero_le _
    · cases isRestore <;> simp [saveAndRestore, hrd, WindowMove.effects]
    · cases isRestore <;> simp [saveAndRestore, hrd, WindowMove.undo, undoMappings]
    · cases isRestore <;> rfl

/-- **Every instruction is decoded to one whose effects fit together.** -/
theorem Insn.decode_decoded (i : Insn) : ∃ b, i.decode.Decoded b := by
  cases i with
  | saveAndRestore isRestore rd => exact ⟨false, decoded_saveAndRestore isRestore rd⟩
  | returnInstruction =>
    exact ⟨false, ⟨List.nodup_nil, List.nodup_nil, fun d hd => absurd hd List.not_mem_nil,
      Nat.zero_le _, Nat.zero_le _⟩, rfl, rfl, rfl⟩
  | computation w =>
    exact ⟨true, ⟨w.nodup, w.distinct, w.names, w.integers, w.conditionCodes⟩, rfl,
      (List.append_nil _).symm, rfl⟩

namespace WindowCore

/-- **What holds of the windows and the tables of a core.** -/
structure Sound (c : WindowCore) : Prop where
  tables : ∃ committed, Tables c.theROBSize c.theMapTables
    (inFlight c.theArchitecturalWindowMap c.theROB) committed
  window : c.theWindowMap = windowAfter c.theArchitecturalWindowMap c.theROB
  cwp_lt : c.theArchitecturalWindowMap.theCWP < 8
  dispatched : ∀ x ∈ c.theROB, x.Dispatched
  length_le : c.theROB.length ≤ c.theROBSize

variable {c : WindowCore} {x : SemanticInstruction}

theorem Sound.window_lt (h : c.Sound) : c.theWindowMap.theCWP < 8 := by
  rw [h.window]
  exact windowAfter_lt h.cwp_lt

theorem invokeChain_effects (k : WindowMove) : invokeChain k.effects (c, x) =
    .ok ({ c with theWindowMap := k.apply c.theWindowMap }, x) := by
  cases k <;> rfl

theorem invokeChain_undoMove (k : WindowMove) {w : RegisterWindowMap} (hw : w.theCWP < 8)
    (h : c.theWindowMap = k.apply w) :
    invokeChain k.undo (c, x) = .ok ({ c with theWindowMap := w }, x) := by
  cases k with
  | stay =>
    have h' : c.theWindowMap = w := h
    subst h'
    rfl
  | save =>
    have hback : c.theWindowMap.decrementCWP = w := by
      rw [h]
      exact RegisterWindowMap.decrement_increment hw
    subst hback
    rfl
  | restore =>
    have hback : c.theWindowMap.incrementCWP = w := by
      rw [h]
      exact RegisterWindowMap.increment_decrement hw
    subst hback
    rfl

/-- A retirement moves the architectural window, and may change the counters. -/
theorem invokeChain_priv (k : WindowMove) : ∃ c', invokeChain k.priv (c, x) = .ok (c', x) ∧
    c'.theArchitecturalWindowMap = k.apply c.theArchitecturalWindowMap ∧
    c'.theWindowMap = c.theWindowMap ∧ c'.theMapTables = c.theMapTables ∧
    c'.theROBSize = c.theROBSize := by
  cases k with
  | stay => exact ⟨c, rfl, rfl, rfl, rfl, rfl⟩
  | save =>
    refine ⟨c.saveWindowPriv, rfl, ?_, ?_, ?_, ?_⟩ <;> rw [saveWindowPriv] <;> dsimp only <;>
      split_ifs <;> rfl
  | restore =>
    refine ⟨c.restoreWindowPriv, rfl, ?_, ?_, ?_, ?_⟩ <;> rw [restoreWindowPriv] <;>
      dsimp only <;> split_ifs <;> rfl

namespace Sound

theorem room (h : c.Sound) (hx : x.WellFormed) (hlen : c.theROB.length < c.theROBSize)
    (t : RegisterType) :
    nameCount t + (inFlight c.theArchitecturalWindowMap c.theROB t).length +
      (destinationsOf x.theName x.theDestinations t).length ≤ regFileSize c.theROBSize t := by
  have hone := hx.length_le t
  have hall := inFlight_length_le (w := c.theArchitecturalWindowMap) h.dispatched t
  have hmul := Nat.mul_le_mul_left (perInstruction t) (Nat.succ_le_of_lt hlen)
  rw [Nat.mul_succ] at hmul
  rw [regFileSize_eq]
  omega

/-- **A dispatch** finds a register for every destination. -/
theorem dispatch (h : c.Sound) (i : Insn) : ∃ c', c.dispatch i = .ok c' ∧ c'.Sound := by
  rw [WindowCore.dispatch]
  by_cases hlen : c.theROB.length < c.theROBSize
  · obtain ⟨b, hx⟩ := i.decode_decoded
    set x := i.decode with hdef
    obtain ⟨committed, htables⟩ := h.tables
    have hw := x.theMove.apply_lt h.window_lt
    obtain ⟨m, y, hchain, hmaps, hdone⟩ := invokeChain_mapDestinations (b := b)
      (c := { c with theWindowMap := x.theMove.apply c.theWindowMap }) hw hx.nodup hx.names
      (h.room hx.toWellFormed hlen) htables
    have hwindow : x.theMove.apply c.theWindowMap =
        windowAfter c.theArchitecturalWindowMap (c.theROB ++ [y]) := by
      rw [windowAfter_concat, hmaps.move_eq, h.window]
    refine ⟨{ c with
        theWindowMap := x.theMove.apply c.theWindowMap
        theMapTables := m
        theROB := c.theROB ++ [y] }, ?_, ⟨committed, fun t => ?_⟩, hwindow, h.cwp_lt,
      fun z hz => ?_, ?_⟩
    · rw [if_pos hlen]
      dsimp only
      rw [hx.dispatch_eq, invokeChain_append, invokeChain_effects]
      simp only [bind, Except.bind] at hchain ⊢
      rw [hchain]
    · dsimp only
      rw [inFlight_concat, ← hwindow, hmaps.destinations_eq]
      exact hdone t
    · rcases List.mem_append.mp hz with hz | hz
      · exact h.dispatched z hz
      · rw [List.mem_singleton.mp hz]
        refine ⟨⟨?_, ?_, ?_, ?_, ?_⟩, ?_, ?_, ?_, ?_⟩
        · rw [hmaps.destinations_eq]
          exact hx.nodup
        · rw [hmaps.destinations_eq, hmaps.name_eq]
          exact hx.distinct
        · rw [hmaps.destinations_eq, hmaps.name_eq]
          exact hx.names
        · rw [hmaps.destinations_eq, hmaps.name_eq]
          exact hx.integers
        · rw [hmaps.destinations_eq, hmaps.name_eq]
          exact hx.conditionCodes
        · rw [hmaps.squash_eq, hmaps.destinations_eq, hmaps.move_eq]
          exact hx.squash_eq
        · rw [hmaps.retirement_eq, hmaps.destinations_eq, hmaps.move_eq, hx.retirement_eq]
        · rw [hmaps.destinations_eq]
          exact hmaps.mapping_type
        · rw [hmaps.destinations_eq]
          exact hmaps.previous_type
    · rw [List.length_append, List.length_singleton]
      exact hlen
  · rw [if_neg hlen]
    exact ⟨c, rfl, h⟩

/-- **A squash** takes the dispatch of the youngest instruction back. -/
theorem squashYoungest (h : c.Sound) : ∃ c', c.squashYoungest = .ok c' ∧ c'.Sound ∧
    c'.theROB = c.theROB.dropLast := by
  rw [WindowCore.squashYoungest]
  rcases List.eq_nil_or_concat' c.theROB with hnil | ⟨rest, x, hrob⟩
  · rw [hnil]
    exact ⟨c, rfl, h, hnil⟩
  · rw [hrob, List.getLast?_concat, List.dropLast_concat]
    obtain ⟨committed, htables⟩ := h.tables
    have hx := h.dispatched x (by rw [hrob]; simp)
    have hwindow := h.window
    rw [hrob] at hwindow
    have htables' : Tables c.theROBSize c.theMapTables
        (fun t => inFlight c.theArchitecturalWindowMap rest t ++
          mappingsOf c.theWindowMap x x.theDestinations t) committed := by
      intro t
      have ht := htables t
      rw [hrob, inFlight_concat, ← hwindow] at ht
      exact ht
    obtain ⟨m, hchain, hdone⟩ := invokeChain_undoMappings h.window_lt hx.distinct hx.names
      hx.mapping_type hx.previous_type htables'
    rw [windowAfter_concat] at hwindow
    have hmove := invokeChain_undoMove (c := { c with theMapTables := m }) (x := x) x.theMove
      (windowAfter_lt h.cwp_lt) hwindow
    refine ⟨{ c with
        theWindowMap := windowAfter c.theArchitecturalWindowMap rest
        theMapTables := m
        theROB := rest }, ?_, ⟨⟨committed, hdone⟩, rfl, h.cwp_lt, fun z hz => ?_, ?_⟩, rfl⟩
    · dsimp only
      rw [hx.squash_eq, invokeChain_append, hchain]
      simp only [bind, Except.bind]
      rw [hmove]
    · exact h.dispatched z (by rw [hrob]; exact List.mem_append_left _ hz)
    · have hlen := h.length_le
      rw [hrob, List.length_append] at hlen
      dsimp only
      omega

theorem doSquash (h : c.Sound) (k : ℕ) : ∃ c', WindowCore.doSquash k c = .ok c' ∧ c'.Sound ∧
    c'.theROB.length = c.theROB.length - k := by
  induction k generalizing c with
  | zero => exact ⟨c, rfl, h, rfl⟩
  | succ k ih =>
    obtain ⟨c₁, h₁, hs₁, hrob₁⟩ := h.squashYoungest
    obtain ⟨c₂, h₂, hs₂, hrob₂⟩ := ih hs₁
    refine ⟨c₂, ?_, hs₂, ?_⟩
    · rw [WindowCore.doSquash, h₁]
      exact h₂
    · rw [hrob₂, hrob₁, List.length_dropLast]
      omega

/-- While nothing is in flight the windows may change, if both do. -/
theorem of_empty (h : c.Sound) (hrob : c.theROB = []) {c' : WindowCore}
    (hsize : c'.theROBSize = c.theROBSize) (htables : c'.theMapTables = c.theMapTables)
    (hrob' : c'.theROB = []) (hwindow : c'.theWindowMap = c'.theArchitecturalWindowMap)
    (hlt : c'.theWindowMap.theCWP < 8) : c'.Sound := by
  obtain ⟨committed, ht⟩ := h.tables
  refine ⟨⟨committed, fun t => ?_⟩, ?_, hwindow ▸ hlt, fun z hz => ?_, ?_⟩
  · have := ht t
    rw [hrob] at this
    rw [hsize, htables, hrob']
    exact this
  · rw [hrob']
    exact hwindow
  · rw [hrob'] at hz
    exact absurd hz List.not_mem_nil
  · rw [hrob']
    exact Nat.zero_le _

theorem handleTrap (h : c.Sound) (hrob : c.theROB = []) (tt : ℕ) :
    (c.handleTrap tt).Sound ∧ (c.handleTrap tt).theROB = [] := by
  have hwindow := h.window
  rw [hrob] at hwindow
  have hwindow' : c.theWindowMap = c.theArchitecturalWindowMap := hwindow
  have hlt := h.window_lt
  rw [WindowCore.handleTrap]
  split_ifs
  · refine ⟨h.of_empty hrob rfl rfl hrob ?_ RegisterWindowMap.incrementCWP_lt, hrob⟩
    simp only [setGlobals, RegisterWindowMap.incrementCWP, hwindow']
  · refine ⟨h.of_empty hrob rfl rfl hrob ?_ (Nat.mod_lt _ (by decide)), hrob⟩
    simp only [setGlobals, setCWP, RegisterWindowMap.setCWP, hwindow']
  · refine ⟨h.of_empty hrob rfl rfl hrob ?_ (RegisterWindowMap.decrementCWP_lt hlt), hrob⟩
    simp only [setGlobals, RegisterWindowMap.decrementCWP, hwindow']
  · refine ⟨h.of_empty hrob rfl rfl hrob ?_ hlt, hrob⟩
    simp only [setGlobals, hwindow']

/-- **A trap** squashes everything that is in flight. -/
theorem takeTrap (h : c.Sound) (tt : ℕ) : ∃ c', c.takeTrap tt = .ok c' ∧ c'.Sound := by
  obtain ⟨c₁, h₁, hs₁, hlen⟩ := h.doSquash c.theROB.length
  rw [Nat.sub_self, List.length_eq_zero_iff] at hlen
  refine ⟨c₁.handleTrap tt, ?_, (hs₁.handleTrap hlen tt).1⟩
  rw [WindowCore.takeTrap, h₁]
  rfl

/-- **A retirement** frees the registers that the oldest instruction has replaced. -/
theorem retire (h : c.Sound) : ∃ c', c.retire = .ok c' ∧ c'.Sound := by
  rw [WindowCore.retire]
  cases hrob : c.theROB with
  | nil => exact ⟨c, rfl, h⟩
  | cons x rest =>
    dsimp only
    cases htrap : c.checkTraps x with
    | some tt => exact h.takeTrap tt
    | none =>
      dsimp only
      obtain ⟨committed, htables⟩ := h.tables
      have hx := h.dispatched x (by rw [hrob]; exact List.mem_cons_self)
      obtain ⟨c₁, hpriv, harch₁, hwindow₁, htables₁, hsize₁⟩ :=
        invokeChain_priv (c := c) (x := x) x.theMove
      rw [hrob, ← htables₁, ← hsize₁] at htables
      obtain ⟨m, committed', hchain, hdone⟩ := invokeChain_freePrevious
        (w := x.theMove.apply c.theArchitecturalWindowMap) hx.previous_type htables
      refine ⟨{ c₁ with theMapTables := m, theROB := rest }, ?_, ⟨committed', fun t => ?_⟩, ?_, ?_,
        fun z hz => ?_, ?_⟩
      · rw [hx.retirement_eq, invokeChain_append, hpriv]
        simp only [bind, Except.bind] at hchain ⊢
        rw [hchain]
      · dsimp only
        rw [harch₁]
        exact hdone t
      · dsimp only
        rw [hwindow₁, harch₁, h.window, hrob]
        rfl
      · dsimp only
        rw [harch₁]
        exact x.theMove.apply_lt h.cwp_lt
      · exact h.dispatched z (by rw [hrob]; exact List.mem_cons_of_mem x hz)
      · have hlen := h.length_le
        rw [hrob, List.length_cons] at hlen
        dsimp only
        rw [hsize₁]
        omega

/-- **Every step succeeds, and the windows and tables stay sound.** -/
theorem step (h : c.Sound) (e : WindowEvent) : ∃ c', c.step e = .ok c' ∧ c'.Sound := by
  cases e with
  | dispatch i => exact h.dispatch i
  | retire => exact h.retire
  | squash k =>
    obtain ⟨c', hc', hs, -⟩ := h.doSquash k
    exact ⟨c', hc', hs⟩
  | trap tt =>
    rw [WindowCore.step]
    split_ifs
    · exact ⟨c, rfl, h⟩
    · exact h.takeTrap tt
  | setWindow cwp ag ig mg =>
    refine ⟨_, rfl, ?_⟩
    split_ifs with hrob
    · have hwindow := h.window
      rw [hrob] at hwindow
      have hwindow' : c.theWindowMap = c.theArchitecturalWindowMap := hwindow
      refine h.of_empty hrob rfl rfl hrob ?_ cwp.isLt
      simp only [setGlobals, setCWP, RegisterWindowMap.setCWP, hwindow']
    · exact h
  | setCounters cansave canrestore cleanwin otherwin wstate =>
    exact ⟨_, rfl, ⟨h.tables, h.window, h.cwp_lt, h.dispatched, h.length_le⟩⟩

end Sound

end WindowCore

/-! ### The window and the youngest writer -/

/-- The SAVEs among instructions. -/
def saves (l : List SemanticInstruction) : ℕ := l.countP fun x => x.theMove == .save

/-- The RESTOREs and RETURNs among instructions. -/
def restores (l : List SemanticInstruction) : ℕ := l.countP fun x => x.theMove == .restore

theorem saves_cons {x : SemanticInstruction} {l : List SemanticInstruction} :
    saves (x :: l) = saves l + if x.theMove = .save then 1 else 0 := by
  simp [saves, List.countP_cons]

theorem restores_cons {x : SemanticInstruction} {l : List SemanticInstruction} :
    restores (x :: l) = restores l + if x.theMove = .restore then 1 else 0 := by
  simp [restores, List.countP_cons]

theorem windowAfter_cwp {w : RegisterWindowMap} {l : List SemanticInstruction}
    (hw : w.theCWP < 8) : ((windowAfter w l).theCWP : ℤ) =
      (w.theCWP + saves l - restores l) % 8 := by
  induction l generalizing w with
  | nil =>
    simp only [windowAfter, saves, restores, List.countP_nil]
    omega
  | cons x l ih =>
    have hx := x.theMove.apply_lt hw
    rw [windowAfter, ih hx, saves_cons, restores_cons]
    cases x.theMove with
    | stay => rfl
    | save =>
      rw [if_pos rfl, if_neg (by decide), WindowMove.apply, RegisterWindowMap.incrementCWP]
      dsimp only
      split_ifs <;> omega
    | restore =>
      rw [if_neg (by decide), if_pos rfl, WindowMove.apply, RegisterWindowMap.decrementCWP]
      dsimp only
      split_ifs <;> omega

section Writers

variable {w v : RegisterWindowMap} {x : SemanticInstruction} {r : UnmappedReg}

theorem ofName_mappingsOf (hw : w.theCWP < 8) (hv : v.theCWP < 8) (hr : r.IsName)
    {l : List Dest} (hn : ∀ d ∈ l, (x.theName d).IsName) :
    (Mapping.ofName (mappingsOf w x l r.theType) (v.rotate r).theIndex).map Mapping.register =
      ((l.map fun d => (w.location (x.theName d), (x.theMapping d).theIndex)).filter
        fun p => p.1 == v.location r).map Prod.snd := by
  induction l with
  | nil => rfl
  | cons d l ih =>
    have ih' := ih fun e he => hn e (List.mem_cons_of_mem d he)
    have hname := hn d List.mem_cons_self
    rw [List.map_cons, List.filter_cons]
    by_cases ht : r.theType = (x.theName d).theType
    · have hiff := RegisterWindowMap.rotate_eq_iff hw hv hname hr ht.symm
      rw [mappingsOf, destinationsOf_cons, if_pos ht.symm, List.map_cons, Mapping.ofName_cons]
      by_cases hloc : w.location (x.theName d) = v.location r
      · rw [if_pos (show (x.mapping w d).name = _ from hiff.mpr hloc),
          if_pos (beq_iff_eq.mpr hloc), List.map_cons, List.map_cons]
        exact congrArg _ ih'
      · rw [if_neg (fun h : (x.mapping w d).name = _ => hloc (hiff.mp h)),
          if_neg (fun h => hloc (beq_iff_eq.mp h))]
        exact ih'
    · have hloc : w.location (x.theName d) ≠ v.location r :=
        RegisterWindowMap.location_ne (Ne.symm ht)
      rw [mappingsOf_cons_of_ne ht, if_neg (fun h => hloc (beq_iff_eq.mp h))]
      exact ih'

/-- **The mappings in flight of a register** are what the instructions that write it have got. -/
theorem ofName_inFlight (hw : w.theCWP < 8) (hv : v.theCWP < 8) (hr : r.IsName)
    {l : List SemanticInstruction} (hl : ∀ x ∈ l, x.Dispatched) :
    (Mapping.ofName (inFlight w l r.theType) (v.rotate r).theIndex).map Mapping.register =
      ((writers w l).filter fun p => p.1 == v.location r).map Prod.snd := by
  induction l generalizing w with
  | nil => rfl
  | cons x l ih =>
    have hx := hl x List.mem_cons_self
    have hwx := x.theMove.apply_lt hw
    rw [inFlight, writers, Mapping.ofName_append, List.map_append, List.filter_append,
      List.map_append, ofName_mappingsOf hwx hv hr hx.names,
      ih hwx fun y hy => hl y (List.mem_cons_of_mem x hy)]

end Writers

theorem windowMachine_sound (n : ℕ) {c : WindowCore} (hc : (windowMachine n).Reachable c) :
    c.Sound := by
  refine hc.invariant (I := WindowCore.Sound) ⟨⟨fun _ n => n, fun t => ?_⟩, rfl, Nat.succ_pos 7,
    fun z hz => absurd hz List.not_mem_nil, Nat.zero_le _⟩ fun c e c' hi _ hstep => ?_
  · have hle : nameCount t ≤ regFileSize n t := by
      rw [regFileSize_eq]
      omega
    refine ⟨.reset hle, rfl, rfl, ?_⟩
    simp only [windowMachine, WindowCore.initial, PhysicalMap.reset, List.length_range',
      inFlight, List.length_nil]
    omega
  · obtain ⟨c'', hc'', hs⟩ := hi.step e
    have heq : c.step e = .ok c' := hstep
    rw [hc''] at heq
    cases heq
    exact hs

/-- **Register windows and renaming in every run**: the window is the architectural one, moved
by the instructions in flight; in every window, a name is mapped to what the youngest
instruction that writes the register has got, or else to the committed register; and no
instruction is left without a register, whatever happens next. -/
theorem windowMachine_correct (n : ℕ) {c : WindowCore} (hc : (windowMachine n).Reachable c) :
    (c.theWindowMap.theCWP : ℤ) =
      (c.theArchitecturalWindowMap.theCWP + saves c.theROB - restores c.theROB) % 8 ∧
    (∀ window < 8, ∀ r : UnmappedReg, r.IsName →
      let v := c.theWindowMap.setCWP window
      (c.theMapTables r.theType).map (v.rotate r).theIndex =
        match youngestWriter c.theArchitecturalWindowMap c.theROB (v.location r) with
        | some p => .ok p
        | none => (c.theMapTables r.theType).mapArchitectural (v.rotate r).theIndex) ∧
    ∀ e, ∃ c', (windowMachine n).step c e = .ok c' := by
  have hs := windowMachine_sound n hc
  refine ⟨?_, fun window hwindow r hr => ?_, fun e => ?_⟩
  · rw [hs.window]
    exact windowAfter_cwp hs.cwp_lt
  · obtain ⟨committed, htables⟩ := hs.tables
    have hv : (c.theWindowMap.setCWP window).theCWP < 8 := hwindow
    have ht := htables r.theType
    have hlt : ((c.theWindowMap.setCWP window).rotate r).theIndex <
        (c.theMapTables r.theType).theNameCount := by
      rw [ht.names_eq]
      exact RegisterWindowMap.rotate_lt hv hr
    obtain ⟨hmap, harch⟩ := ht.renames.map_eq hlt
    dsimp only
    rw [hmap, harch, Mapping.youngest, youngestWriter, ← List.getLast?_map, ← List.getLast?_map,
      ofName_inFlight hs.cwp_lt hv hr hs.dispatched]
    cases (List.map Prod.snd _).getLast? with
    | none => rfl
    | some p => rfl
  · obtain ⟨c', hc', -⟩ := hs.step e
    exact ⟨c', hc'⟩

/-- A SAVE and a RESTORE, of which the RESTORE is squashed. -/
def saveThenRestore : List WindowEvent :=
  [.dispatch (.saveAndRestore false 9), .dispatch (.saveAndRestore true 10), .squash 1]

/-- After `saveThenRestore` the core is in the window of the SAVE, and finds its result there. -/
theorem saveThenRestore_correct : ∃ c, (windowMachine 2).run saveThenRestore = .ok c ∧
    c.theWindowMap.theCWP = 1 ∧
    (c.theMapTables .rRegisters).map
      ((c.theWindowMap.setCWP 1).rotate ⟨.rRegisters, 9⟩).theIndex = .ok 163 := by
  have hend : (windowMachine 2).endsIn (fun c =>
      c.theArchitecturalWindowMap.theCWP == 0 && saves c.theROB == 1 && restores c.theROB == 0 &&
      youngestWriter c.theArchitecturalWindowMap c.theROB
        ((c.theWindowMap.setCWP 1).location ⟨.rRegisters, 9⟩) == some 163)
      saveThenRestore = true := by decide
  obtain ⟨c, hc, htest⟩ := Lib.Machine.exists_of_endsIn hend
  simp only [Bool.and_eq_true, beq_iff_eq] at htest
  obtain ⟨⟨⟨harch, hsaves⟩, hrestores⟩, hyoungest⟩ := htest
  obtain ⟨hcwp, hmap, -⟩ := windowMachine_correct 2 (Lib.Machine.reachable_of_run hc)
  have hone := hmap 1 (by decide) ⟨.rRegisters, 9⟩ (by decide)
  dsimp only at hone
  rw [hyoungest] at hone
  rw [harch, hsaves, hrestores] at hcwp
  exact ⟨c, hc, by omega, hone⟩

end UArch

end Flexus
