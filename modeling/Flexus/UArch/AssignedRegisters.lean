import Flexus.UArch.Renaming

/-!
# The list that a register is erased from

`PhysicalMap::free` (`components/uArch/MapTable.hpp`) looks a register up in the list of its name,
and erases the node that it has found. But it asks the list whose number is that of the *register*
to erase it. There are more registers than names, and so there may be no such list; and if there is,
it is another one, unless the register has the number of its name
(`Flexus.UArch.PhysicalMap.asksOwner_iff`). At first each name has the register of its own number,
and so it goes well until that register has been freed.

A node can be erased without its list, which is why the table goes on as if its list had been asked
(`Flexus.UArch.PhysicalMap.free_eq_erasure`).
-/

namespace Flexus

namespace UArch

/-! ### Erasures -/

/-- **A node** of one of the lists of assigned registers. -/
structure AssignedNode where
  theList : ℕ
  thePosition : ℕ
  deriving DecidableEq

/-- **What `free` erases**: a node, and the index of the list that is asked to. -/
structure Erasure where
  theAsked : ℕ
  theNode : AssignedNode
  deriving DecidableEq

/-- What is done with a rename table. -/
inductive TableEvent
  | create (aRegisterName : ℕ)
  | free (aRegisterName : ℕ)
  | restore (aRegisterName aReg : ℕ)
  | reset
  deriving DecidableEq

namespace PhysicalMap

variable (m : PhysicalMap)

/-- **The lists that `free` works on**: the loop goes through the list of the name, and the list
whose index is the register is asked to erase. -/
def erasure (aRegisterName : ℕ) : Except MapFault Erasure :=
  let arch_name := m.theReverseMappings aRegisterName
  if arch_name ≥ 0 ∧ arch_name < m.theNameCount then
    match (m.theAssignedRegisters arch_name.toNat).idxOf? aRegisterName with
    | some i => .ok ⟨aRegisterName, ⟨arch_name.toNat, i⟩⟩
    | none => .error .notAssigned
  else .error .archName

/-- **The list that is asked is the right one**: there is such a list, and it has the node. -/
def AsksOwner (r : ℕ) : Prop :=
  ∃ e, m.erasure r = .ok e ∧ e.theAsked < m.theNameCount ∧ e.theAsked = e.theNode.theList

def step : TableEvent → Except MapFault PhysicalMap
  | .create n => (m.create n).map Prod.fst
  | .free r => m.free r
  | .restore n r => .ok (m.restore n r)
  | .reset => .ok (reset m.theNameCount m.theRegisterCount)

end PhysicalMap

/-- A rename table. -/
def tableMachine (aNameCount aRegisterCount : ℕ) : Lib.Machine PhysicalMap TableEvent MapFault where
  init := .reset aNameCount aRegisterCount
  step := PhysicalMap.step

namespace PhysicalMap

variable {m : PhysicalMap} {n r : ℕ}

theorem Owned.mem_of_mapped (h : m.Owned) (hr : r < m.theRegisterCount)
    (hmapped : m.theReverseMappings r ≠ -1) :
    ∃ n < m.theNameCount, m.theReverseMappings r = n ∧ r ∈ m.theAssignedRegisters n := by
  rcases h.free_or_owned hr with hfree | ⟨n, hn, hown⟩
  · exact absurd (h.unowned r hfree) hmapped
  · exact ⟨n, hn, h.owner n hn r hown, hown⟩

/-- **What is erased** is the node of the register, in the list of its name. -/
theorem Owned.erasure_eq (h : m.Owned) (hr : r < m.theRegisterCount)
    (hmapped : m.theReverseMappings r ≠ -1) :
    ∃ n < m.theNameCount, m.theReverseMappings r = n ∧
      ∃ i, m.erasure r = .ok ⟨r, ⟨n, i⟩⟩ := by
  obtain ⟨n, hn, hname, hmem⟩ := h.mem_of_mapped hr hmapped
  obtain ⟨i, hi⟩ := Option.isSome_iff_exists.mp (List.isSome_idxOf?.mpr hmem)
  refine ⟨n, hn, hname, i, ?_⟩
  rw [erasure, hname, if_pos ⟨Int.natCast_nonneg n, Int.ofNat_lt.mpr hn⟩, Int.toNat_natCast, hi]

/-- **Every register keeps its place**, whatever is done with the table. -/
structure Placed (names registers : ℕ) (m : PhysicalMap) : Prop extends m.Owned where
  names : m.theNameCount = names
  registers : m.theRegisterCount = registers

theorem placed_of_reachable {names registers : ℕ} (hle : names ≤ registers)
    (h : (tableMachine names registers).Reachable m) : Placed names registers m := by
  refine h.invariant ⟨(Renames.reset hle).toOwned, rfl, rfl⟩ fun s e t hs _ ht => ?_
  cases e with
  | create n =>
    have ht' : (s.create n).map Prod.fst = .ok t := ht
    by_cases hn : n < s.theNameCount
    · by_cases hfree : s.theFreeList = []
      · rw [create, if_pos hn, hfree] at ht'
        cases ht'
      · obtain ⟨m', r, heq, howned, hnames, hregisters, -⟩ := hs.toOwned.create hn hfree
        rw [heq] at ht'
        cases ht'
        exact ⟨howned, hnames.trans hs.names, hregisters.trans hs.registers⟩
    · rw [create, if_neg hn] at ht'
      cases ht'
  | free r =>
    have ht' : s.free r = .ok t := ht
    by_cases hname : s.theReverseMappings r ≥ 0 ∧ s.theReverseMappings r < s.theNameCount
    · by_cases hmem : r ∈ s.theAssignedRegisters (s.theReverseMappings r).toNat
      · obtain ⟨m', heq, howned, hnames, hregisters, -⟩ := hs.toOwned.free (by omega) hmem
        rw [heq] at ht'
        cases ht'
        exact ⟨howned, hnames.trans hs.names, hregisters.trans hs.registers⟩
      · rw [free, if_pos hname, if_neg hmem] at ht'
        cases ht'
    · rw [free, if_neg hname] at ht'
      cases ht'
  | restore n r =>
    cases ht
    exact ⟨⟨hs.partition, hs.owner, hs.unowned⟩, hs.names, hs.registers⟩
  | reset =>
    cases ht
    rw [hs.names, hs.registers]
    exact ⟨(Renames.reset hle).toOwned, rfl, rfl⟩

/-- A name is renamed twice, and its registers are freed when the next instruction that writes it
retires. -/
def renamedTwice : List TableEvent := [.create 0, .free 0, .create 0]

theorem renamedTwice_not_asksOwner : ¬∀ names registers : ℕ, names < registers →
    ∀ m, (tableMachine names registers).Reachable m → ∀ r < registers,
      m.theReverseMappings r ≠ -1 → m.AsksOwner r := by
  intro h
  have hrun : (tableMachine 5 9).run renamedTwice = .ok _ := rfl
  obtain ⟨e, he, hlt, -⟩ := h 5 9 (by decide) _ (Lib.Machine.reachable_of_run hrun) 5 (by decide)
    (by decide)
  cases he
  exact absurd hlt (by decide)

/-- **The list that is asked is the right one** if and only if the register has the number of its
name. -/
theorem asksOwner_iff (names registers : ℕ) (hlt : names < registers) (m : PhysicalMap)
    (h : (tableMachine names registers).Reachable m) (r : ℕ) (hr : r < registers)
    (hmapped : m.theReverseMappings r ≠ -1) :
    m.AsksOwner r ↔ m.theReverseMappings r = r := by
  have hplaced := placed_of_reachable (Nat.le_of_lt hlt) h
  obtain ⟨n, hn, hname, i, herasure⟩ :=
    hplaced.toOwned.erasure_eq (hplaced.registers ▸ hr) hmapped
  rw [hname, Int.natCast_inj]
  constructor
  · rintro ⟨e, he, -, hlist⟩
    rw [herasure] at he
    cases he
    exact hlist.symm
  · rintro rfl
    exact ⟨_, herasure, hn, rfl⟩

/-- A name is renamed once, and the register that it had is freed. -/
theorem renamedOnce_asksOwner : ∃ m, (tableMachine 5 9).run [.create 0, .free 0] = .ok m ∧
    m.AsksOwner 3 ∧ ¬m.AsksOwner 5 := by
  have hrun : (tableMachine 5 9).run [.create 0, .free 0] = .ok _ := rfl
  have hiff := asksOwner_iff 5 9 (by decide) _ (Lib.Machine.reachable_of_run hrun)
  refine ⟨_, hrun, (hiff 3 (by decide) (by decide)).mpr rfl, fun h => ?_⟩
  exact absurd ((hiff 5 (by decide) (by decide)).mp h) (by decide)

end PhysicalMap

end UArch

end Flexus
