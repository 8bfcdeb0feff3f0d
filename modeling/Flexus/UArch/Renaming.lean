import Flexus.Lib.Machine
import Flexus.UArch.MapTable
import Mathlib.Data.List.Nodup
import Mathlib.Data.List.Perm.Basic
import Mathlib.Data.List.Range

/-!
# The rename table over whole runs

An instruction that is dispatched gets a new register for the name it writes, and remembers
the one the name has had before. When it commits, the earlier register is freed; when it is
squashed, the earlier register is restored and the new one is freed. Instructions commit from
the oldest on and are squashed from the youngest on.

The instructions in flight thus form, for every name, a chain from the register that is
committed to the one that is mapped, and this chain is the list of the registers that are
assigned to the name. All the rest – who owns a register, which registers are free, why no
assertion fails – follows from that.

The facts about one step are stated for an instruction anywhere in the pipeline: it may
commit when it is the oldest that writes *its name*, and it may be squashed when it is the
youngest (`Flexus.UArch.PhysicalMap.Renames.commit`, `Flexus.UArch.PhysicalMap.Renames.squash`).
-/

namespace Flexus

open Function List

namespace UArch

/-- A mapping in flight: a name, its new register and the one it has had before. -/
structure Mapping where
  name : ℕ
  register : ℕ
  previous : ℕ
  deriving DecidableEq

namespace Mapping

/-- The mappings of a name, from the oldest on. -/
def ofName (l : List Mapping) (n : ℕ) : List Mapping := l.filter fun x => x.name == n

/-- The youngest mapping of a name, if one is in flight, and the committed one otherwise. -/
def youngest (l : List Mapping) (committed : ℕ → ℕ) (n : ℕ) : ℕ :=
  ((ofName l n).getLast?.map Mapping.register).getD (committed n)

variable {l k : List Mapping} {x : Mapping} {n : ℕ}

theorem ofName_append : ofName (l ++ k) n = ofName l n ++ ofName k n := filter_append ..

theorem ofName_cons : ofName (x :: l) n = if x.name = n then x :: ofName l n else ofName l n := by
  rw [ofName, filter_cons]
  simp [ofName]

theorem ofName_concat (h : x.name = n) : ofName (l ++ [x]) n = ofName l n ++ [x] := by
  rw [ofName_append, ofName_cons, if_pos h]
  rfl

theorem ofName_concat_of_ne (h : x.name ≠ n) : ofName (l ++ [x]) n = ofName l n := by
  rw [ofName_append, ofName_cons, if_neg h]
  exact append_nil _

theorem ofName_eq_nil (h : ∀ y ∈ l, y.name ≠ n) : ofName l n = [] := by
  rw [ofName, filter_eq_nil_iff]
  intro y hy
  simpa using h y hy

end Mapping

open Mapping

/-! ### Lists of registers by name -/

section Owned

variable {f : ℕ → List ℕ} {l v : List ℕ} {n r : ℕ}

theorem flatMap_perm_cons (hn : n ∈ l) : (l.flatMap f).Perm (f n ++ (l.erase n).flatMap f) :=
  ((perm_cons_erase hn).flatMap_right f).trans (by rw [flatMap_cons])

theorem flatMap_update (hl : l.Nodup) (hn : n ∈ l) :
    (l.flatMap (update f n v)).Perm (v ++ (l.erase n).flatMap f) := by
  refine (flatMap_perm_cons hn).trans ?_
  rw [update_self]
  have hsame : (l.erase n).flatMap (update f n v) = (l.erase n).flatMap f := by
    refine flatMap_congr fun k hk => ?_
    have hne : k ≠ n := by
      rintro rfl
      exact hl.not_mem_erase hk
    exact update_of_ne hne _ _
  rw [hsame]

theorem owned_push (hl : l.Nodup) (hn : n ∈ l) (free : List ℕ) :
    (free ++ l.flatMap (update f n (f n ++ [r]))).Perm (r :: free ++ l.flatMap f) := by
  have hpush : (l.flatMap (update f n (f n ++ [r]))).Perm (r :: l.flatMap f) := by
    refine (flatMap_update hl hn).trans ?_
    rw [append_assoc]
    refine perm_middle.trans (List.Perm.cons r ?_)
    exact (flatMap_perm_cons hn).symm
  exact (hpush.append_left free).trans perm_middle

theorem owned_pop (hl : l.Nodup) (hn : n ∈ l) (hr : r ∈ f n) (free : List ℕ) :
    (free ++ [r] ++ l.flatMap (update f n ((f n).erase r))).Perm
      (free ++ l.flatMap f) := by
  rw [append_assoc, singleton_append]
  refine List.Perm.append_left free ?_
  refine ((flatMap_update hl hn).cons r).trans ?_
  rw [← cons_append]
  exact ((perm_cons_erase hr).symm.append_right _).trans (flatMap_perm_cons hn).symm

end Owned

namespace PhysicalMap

/-- **A rename table in which every register has its place.** -/
structure Owned (m : PhysicalMap) : Prop where
  /-- A register is free or assigned to one name. -/
  partition : (m.theFreeList ++
    (List.range m.theNameCount).flatMap m.theAssignedRegisters).Perm
      (List.range m.theRegisterCount)
  /-- The names of registers are those to which they are assigned. -/
  owner : ∀ n < m.theNameCount, ∀ r ∈ m.theAssignedRegisters n, m.theReverseMappings r = n
  /-- A free register has no name. -/
  unowned : ∀ r ∈ m.theFreeList, m.theReverseMappings r = -1

/-- **A rename table that agrees with the mappings in flight** and the committed ones. -/
structure Renames (m : PhysicalMap) (l : List Mapping) (committed : ℕ → ℕ) : Prop
    extends m.Owned where
  /-- A name is mapped to its youngest mapping. -/
  mapping : ∀ n < m.theNameCount, m.theMappings n = youngest l committed n
  /-- The registers of a name are the committed one and those in flight, in their order. -/
  assigned : ∀ n < m.theNameCount,
    m.theAssignedRegisters n = committed n :: (ofName l n).map Mapping.register
  /-- Each mapping remembers the one before it. -/
  previous : ∀ n < m.theNameCount,
    (ofName l n).map Mapping.previous = (m.theAssignedRegisters n).dropLast
  /-- Mappings have names. -/
  named : ∀ x ∈ l, x.name < m.theNameCount

variable {m : PhysicalMap} {n r : ℕ}

namespace Owned

theorem nodup (h : m.Owned) : (m.theFreeList ++
    (List.range m.theNameCount).flatMap m.theAssignedRegisters).Nodup :=
  h.partition.nodup_iff.mpr nodup_range

theorem nodup_assigned (h : m.Owned) (hn : n < m.theNameCount) :
    (m.theAssignedRegisters n).Nodup :=
  (nodup_flatMap.mp (nodup_append.mp h.nodup).2.1).1 n (mem_range.mpr hn)

theorem not_free (h : m.Owned) (hn : n < m.theNameCount)
    (hr : r ∈ m.theAssignedRegisters n) : r ∉ m.theFreeList := by
  intro hfree
  have hown := h.owner n hn r hr
  rw [h.unowned r hfree] at hown
  omega

theorem free_or_owned (h : m.Owned) (hr : r < m.theRegisterCount) :
    r ∈ m.theFreeList ∨ ∃ n < m.theNameCount, r ∈ m.theAssignedRegisters n := by
  have hmem := h.partition.mem_iff.mpr (mem_range.mpr hr)
  rcases mem_append.mp hmem with hfree | hown
  · exact .inl hfree
  · obtain ⟨n, hn, hr⟩ := mem_flatMap.mp hown
    exact .inr ⟨n, mem_range.mp hn, hr⟩

theorem owner_unique (h : m.Owned) {k : ℕ} (hn : n < m.theNameCount)
    (hk : k < m.theNameCount) (hr : r ∈ m.theAssignedRegisters n)
    (hr' : r ∈ m.theAssignedRegisters k) : n = k := by
  have := h.owner n hn r hr
  rw [h.owner k hk r hr'] at this
  omega

/-- **A register of a name can be freed**, and has its place then. -/
theorem free (h : m.Owned) (hn : n < m.theNameCount) (hr : r ∈ m.theAssignedRegisters n) :
    ∃ m', m.free r = .ok m' ∧ m'.Owned ∧ m'.theNameCount = m.theNameCount ∧
      m'.theRegisterCount = m.theRegisterCount ∧ m'.theMappings = m.theMappings ∧
      m'.theAssignedRegisters = update m.theAssignedRegisters n
        ((m.theAssignedRegisters n).erase r) ∧
      m'.theFreeList.length = m.theFreeList.length + 1 := by
  have hown := h.owner n hn r hr
  have hrange : m.theReverseMappings r ≥ 0 ∧ m.theReverseMappings r < m.theNameCount := by
    rw [hown]
    omega
  have hnat : (m.theReverseMappings r).toNat = n := by rw [hown, Int.toNat_natCast]
  rw [PhysicalMap.free]
  rw [if_pos hrange, hnat, if_pos hr]
  refine ⟨_, rfl, ⟨?_, fun k hk p hp => ?_, fun p hp => ?_⟩, rfl, rfl, rfl, rfl, by simp⟩
  · exact (owned_pop nodup_range (mem_range.mpr hn) hr m.theFreeList).trans h.partition
  · dsimp only at hk hp ⊢
    have hp' : p ∈ m.theAssignedRegisters k ∧ p ≠ r := by
      by_cases hkn : k = n
      · rw [hkn, update_self] at hp
        rw [hkn]
        exact ((h.nodup_assigned hn).mem_erase_iff.mp hp).symm
      · rw [update_of_ne hkn] at hp
        refine ⟨hp, ?_⟩
        rintro rfl
        exact hkn (h.owner_unique hk hn hp hr)
    rw [update_of_ne hp'.2]
    exact h.owner k hk p hp'.1
  · dsimp only at hp ⊢
    by_cases hpr : p = r
    · rw [hpr, update_self]
    · rw [update_of_ne hpr]
      rcases mem_append.mp hp with hp | hp
      · exact h.unowned p hp
      · exact absurd (mem_singleton.mp hp) hpr

/-- **A free register is given to a name**, and has its place then. -/
theorem create (h : m.Owned) (hn : n < m.theNameCount) (hfree : m.theFreeList ≠ []) :
    ∃ m' r, m.create n = .ok (m', r, m.theMappings n) ∧ m'.Owned ∧
      m'.theNameCount = m.theNameCount ∧ m'.theRegisterCount = m.theRegisterCount ∧
      m'.theFreeList.length + 1 = m.theFreeList.length ∧
      m'.theMappings = update m.theMappings n r ∧
      m'.theAssignedRegisters =
        update m.theAssignedRegisters n (m.theAssignedRegisters n ++ [r]) := by
  obtain ⟨r, rest, hrest⟩ := exists_cons_of_ne_nil hfree
  have hunowned := h.unowned r (hrest ▸ mem_cons_self)
  have hnotin : ∀ k < m.theNameCount, r ∉ m.theAssignedRegisters k := fun k hk hr =>
    h.not_free hk hr (hrest ▸ mem_cons_self)
  have hrange : n ∈ List.range m.theNameCount := mem_range.mpr hn
  rw [PhysicalMap.create, if_pos hn, hrest]
  simp only
  rw [if_pos hunowned]
  refine ⟨_, r, rfl, ⟨?_, fun k hk p hp => ?_, fun p hp => ?_⟩, rfl, rfl, by simp, rfl, rfl⟩
  · refine (owned_push nodup_range hrange rest).trans ?_
    rw [← hrest]
    exact h.partition
  · dsimp only at hk hp ⊢
    by_cases hpr : p = r
    · by_cases hkn : k = n
      · rw [hpr, hkn, update_self]
      · rw [update_of_ne hkn] at hp
        exact absurd (hpr ▸ hp) (hnotin k hk)
    · rw [update_of_ne hpr]
      by_cases hkn : k = n
      · rw [hkn, update_self] at hp
        rcases mem_append.mp hp with hp | hp
        · rw [hkn]
          exact h.owner n hn p hp
        · exact absurd (mem_singleton.mp hp) hpr
      · rw [update_of_ne hkn] at hp
        exact h.owner k hk p hp
  · have hnodup : (r :: rest).Nodup := by
      rw [← hrest]
      exact (nodup_append.mp h.nodup).1
    have hpr : p ≠ r := by
      rintro rfl
      exact (nodup_cons.mp hnodup).1 hp
    dsimp only
    rw [update_of_ne hpr]
    exact h.unowned p (hrest ▸ mem_cons_of_mem r hp)

end Owned

namespace Renames

variable {l pre post : List Mapping} {committed : ℕ → ℕ} {x : Mapping}

theorem mapping_eq_getLast (h : m.Renames l committed) (hn : n < m.theNameCount) :
    (m.theAssignedRegisters n).getLast? = some (m.theMappings n) := by
  rw [h.assigned n hn, h.mapping n hn, youngest]
  cases hl : ofName l n using List.reverseRecOn with
  | nil => rfl
  | append_singleton k y =>
    rw [map_append, ← cons_append, map_singleton, getLast?_concat, getLast?_concat]
    rfl

/-- **A dispatch** gets a free register. -/
theorem create (h : m.Renames l committed) (hn : n < m.theNameCount) (hfree : m.theFreeList ≠ []) :
    ∃ m' r, m.create n = .ok (m', r, m.theMappings n) ∧
      m'.Renames (l ++ [⟨n, r, m.theMappings n⟩]) committed ∧
      m'.theNameCount = m.theNameCount ∧ m'.theRegisterCount = m.theRegisterCount ∧
      m'.theFreeList.length + 1 = m.theFreeList.length ∧
      m'.theMappings = update m.theMappings n r := by
  obtain ⟨m', r, heq, howned, hnames, hregisters, hlen, hmappings, hassigned⟩ :=
    h.toOwned.create hn hfree
  refine ⟨m', r, heq, ⟨howned, fun k hk => ?_, fun k hk => ?_, fun k hk => ?_, fun x hx => ?_⟩,
    hnames, hregisters, hlen, hmappings⟩
  · rw [hnames] at hk
    rw [youngest, hmappings]
    by_cases hkn : k = n
    · rw [hkn, update_self, ofName_concat rfl, getLast?_concat]
      rfl
    · rw [update_of_ne hkn, ofName_concat_of_ne (Ne.symm hkn)]
      exact h.mapping k hk
  · rw [hnames] at hk
    rw [hassigned]
    by_cases hkn : k = n
    · rw [hkn, update_self, h.assigned n hn, ofName_concat rfl, map_append]
      rfl
    · rw [update_of_ne hkn, h.assigned k hk, ofName_concat_of_ne (Ne.symm hkn)]
  · rw [hnames] at hk
    rw [hassigned]
    by_cases hkn : k = n
    · -- the new mapping remembers the last register of the name
      rw [hkn, update_self, dropLast_concat, ofName_concat rfl, map_append, h.previous n hn]
      exact dropLast_append_getLast? _ (h.mapping_eq_getLast hn)
    · rw [update_of_ne hkn, ofName_concat_of_ne (Ne.symm hkn), h.previous k hk]
  · rw [hnames]
    rcases mem_append.mp hx with hx | hx
    · exact h.named x hx
    · rw [mem_singleton.mp hx]
      exact hn

theorem ofName_remove {k : ℕ} (hk : x.name ≠ k) : ofName (pre ++ x :: post) k =
    ofName (pre ++ post) k := by
  rw [ofName_append, ofName_append, ofName_cons, if_neg hk]

theorem ofName_oldest (h : ∀ y ∈ pre, y.name ≠ x.name) :
    ofName (pre ++ x :: post) x.name = x :: ofName (pre ++ post) x.name := by
  rw [ofName_append, ofName_append, ofName_cons, if_pos rfl, ofName_eq_nil h]
  rfl

theorem ofName_youngest (h : ∀ y ∈ post, y.name ≠ x.name) :
    ofName (pre ++ x :: post) x.name = ofName (pre ++ post) x.name ++ [x] := by
  rw [ofName_append, ofName_append, ofName_cons, if_pos rfl, ofName_eq_nil h, append_nil]

theorem mem_remove {y : Mapping} (h : y ∈ pre ++ post) : y ∈ pre ++ x :: post := by
  rw [mem_append, mem_cons]
  rcases mem_append.mp h with h | h
  · exact .inl h
  · exact .inr (.inr h)

/-- **A commit** of the oldest mapping of a name frees the register that was committed. -/
theorem commit (h : m.Renames (pre ++ x :: post) committed)
    (hx : ∀ y ∈ pre, y.name ≠ x.name) :
    ∃ m', m.free x.previous = .ok m' ∧
      m'.Renames (pre ++ post) (update committed x.name x.register) ∧
      m'.theNameCount = m.theNameCount ∧ m'.theRegisterCount = m.theRegisterCount ∧
      m'.theFreeList.length = m.theFreeList.length + 1 ∧ m'.theMappings = m.theMappings := by
  have hn := h.named x (mem_append_right _ mem_cons_self)
  have hassigned := h.assigned x.name hn
  have hprevious := h.previous x.name hn
  rw [ofName_oldest hx, map_cons] at hassigned
  rw [ofName_oldest hx, map_cons, hassigned, dropLast_cons_cons, List.cons.injEq] at hprevious
  obtain ⟨hprev, hrest⟩ := hprevious
  obtain ⟨m', hm', howned, hnames, hregs, hmaps, hass, hlen⟩ := h.toOwned.free hn
    (r := x.previous) (by rw [hassigned, hprev]; exact mem_cons_self)
  refine ⟨m', hm', ⟨howned, fun k hk => ?_, fun k hk => ?_, fun k hk => ?_, fun y hy => ?_⟩,
    hnames, hregs, hlen, hmaps⟩
  · rw [hnames] at hk
    rw [hmaps, h.mapping k hk, youngest, youngest]
    by_cases hkn : k = x.name
    · rw [hkn, ofName_oldest hx, update_self, getLast?_cons]
      cases (ofName (pre ++ post) x.name).getLast? with
      | none => rfl
      | some y => rfl
    · rw [ofName_remove (Ne.symm hkn), update_of_ne hkn]
  · rw [hnames] at hk
    rw [hass]
    by_cases hkn : k = x.name
    · rw [hkn, update_self, update_self, hassigned, hprev, erase_cons_head]
    · rw [update_of_ne hkn, update_of_ne hkn, h.assigned k hk, ofName_remove (Ne.symm hkn)]
  · rw [hnames] at hk
    rw [hass]
    by_cases hkn : k = x.name
    · rw [hkn, update_self, hassigned, hprev, erase_cons_head]
      exact hrest
    · rw [update_of_ne hkn, ← h.previous k hk, ofName_remove (Ne.symm hkn)]
  · rw [hnames]
    exact h.named y (mem_remove hy)

/-- **A squash** of the youngest mapping of a name restores the register before it. -/
theorem squash (h : m.Renames (pre ++ x :: post) committed)
    (hx : ∀ y ∈ post, y.name ≠ x.name) :
    ∃ m', (m.restore x.name x.previous).free x.register = .ok m' ∧
      m'.Renames (pre ++ post) committed ∧
      m'.theNameCount = m.theNameCount ∧ m'.theRegisterCount = m.theRegisterCount ∧
      m'.theFreeList.length = m.theFreeList.length + 1 := by
  have hn := h.named x (mem_append_right _ mem_cons_self)
  have hassigned := h.assigned x.name hn
  have hprevious := h.previous x.name hn
  rw [ofName_youngest hx, map_append, ← cons_append, map_singleton] at hassigned
  rw [ofName_youngest hx, map_append, map_singleton, hassigned, dropLast_concat] at hprevious
  -- the register is the last of its name, and is there only once
  have herase : (m.theAssignedRegisters x.name).erase x.register =
      committed x.name :: (ofName (pre ++ post) x.name).map Mapping.register := by
    have hnodup := h.nodup_assigned hn
    rw [hassigned] at hnodup ⊢
    rw [erase_append_right, erase_cons_head, append_nil]
    exact fun hin => (nodup_append.mp hnodup).2.2 _ hin _ (mem_singleton.mpr rfl) rfl
  have howned : (m.restore x.name x.previous).Owned := ⟨h.partition, h.owner, h.unowned⟩
  obtain ⟨m', hm', howned, hnames, hregs, hmaps, hass, hlen⟩ := howned.free hn
    (r := x.register) (show x.register ∈ m.theAssignedRegisters x.name by rw [hassigned]; simp)
  have hass' : m'.theAssignedRegisters = update m.theAssignedRegisters x.name
      ((m.theAssignedRegisters x.name).erase x.register) := hass
  have hmaps' : m'.theMappings = update m.theMappings x.name x.previous := hmaps
  refine ⟨m', hm', ⟨howned, fun k hk => ?_, fun k hk => ?_, fun k hk => ?_, fun y hy => ?_⟩,
    hnames, hregs, hlen⟩
  · rw [hnames] at hk
    rw [hmaps']
    by_cases hkn : k = x.name
    · -- what the mapping remembers is the end of the chain without it
      have hlast : (committed x.name :: (ofName (pre ++ post) x.name).map
          Mapping.register).getLast? = some x.previous := by
        rw [← hprevious, getLast?_concat]
      rw [hkn, update_self, youngest]
      rw [getLast?_cons, getLast?_map] at hlast
      exact (Option.some.inj hlast).symm
    · rw [update_of_ne hkn, youngest, ← ofName_remove (Ne.symm hkn)]
      exact h.mapping k hk
  · rw [hnames] at hk
    rw [hass']
    by_cases hkn : k = x.name
    · rw [hkn, update_self, herase]
    · rw [update_of_ne hkn, h.assigned k hk, ofName_remove (Ne.symm hkn)]
  · rw [hnames] at hk
    rw [hass']
    by_cases hkn : k = x.name
    · rw [hkn, update_self, herase, ← hprevious, dropLast_concat]
    · rw [update_of_ne hkn, ← h.previous k hk, ofName_remove (Ne.symm hkn)]
  · rw [hnames]
    exact h.named y (mem_remove hy)

/-- **A new table** has no mapping in flight. -/
theorem reset {names registers : ℕ} (h : names ≤ registers) :
    (PhysicalMap.reset names registers).Renames [] fun n => n := by
  have hlt : ∀ n < names,
      (PhysicalMap.reset names registers).theAssignedRegisters n = [n] := fun n hn => if_pos hn
  refine ⟨⟨?_, fun n hn r hr => ?_, fun r hr => ?_⟩, fun n hn => rfl, hlt, fun n hn => ?_,
    fun x hx => absurd hx not_mem_nil⟩
  · have hown : (List.range names).flatMap
        (PhysicalMap.reset names registers).theAssignedRegisters = List.range names := by
      rw [flatMap_congr fun n hn => hlt n (mem_range.mp hn)]
      exact flatMap_pure_eq_map _ _ |>.trans (map_id _)
    have hall : List.range names ++ List.range' names (registers - names) =
        List.range registers := by
      have hsplit := range'_append_1 (s := 0) (m := names) (n := registers - names)
      rw [Nat.zero_add, Nat.add_sub_cancel' h] at hsplit
      rw [range_eq_range', range_eq_range', hsplit]
    dsimp only [PhysicalMap.reset] at hown ⊢
    rw [hown, ← hall]
    exact perm_append_comm
  · rw [hlt n hn, mem_singleton] at hr
    rw [hr]
    exact if_pos hn
  · have hle : names ≤ r := (mem_range'_1.mp hr).1
    exact if_neg (Nat.not_lt.mpr hle)
  · rw [hlt n hn]
    rfl

theorem map_eq (h : m.Renames l committed) (hn : n < m.theNameCount) :
    m.map n = .ok (youngest l committed n) ∧ m.mapArchitectural n = .ok (committed n) := by
  constructor
  · rw [PhysicalMap.map, if_pos hn, h.mapping n hn]
  · rw [PhysicalMap.mapArchitectural, if_pos hn, h.assigned n hn]

end Renames

/-- **Ownership is what the reverse map says.** -/
theorem Owned.reverse_iff (h : m.Owned) (hr : r < m.theRegisterCount) :
    (m.theReverseMappings r = -1 ↔ r ∈ m.theFreeList) ∧
    ∀ n < m.theNameCount, m.theReverseMappings r = n ↔ r ∈ m.theAssignedRegisters n := by
  refine ⟨⟨fun hrev => ?_, h.unowned r⟩, fun n hn => ⟨fun hrev => ?_, h.owner n hn r⟩⟩
  · rcases h.free_or_owned hr with hfree | ⟨k, hk, hown⟩
    · exact hfree
    · rw [h.owner k hk r hown] at hrev
      omega
  · rcases h.free_or_owned hr with hfree | ⟨k, hk, hown⟩
    · rw [h.unowned r hfree] at hrev
      omega
    · rw [h.owner k hk r hown, Int.natCast_inj] at hrev
      rwa [← hrev]

end PhysicalMap

/-! ### Whole runs -/

/-- What happens to a rename table: an instruction that writes a name is dispatched, the
oldest instruction commits, or the youngest is squashed. -/
inductive RenameEvent
  | dispatch (n : ℕ)
  | commit
  | squash
  deriving DecidableEq

/-- A rename table, the mappings in flight from the oldest on, and the mapping of each name
that was committed last. -/
structure RenameState where
  table : PhysicalMap
  inFlight : List Mapping
  committed : ℕ → ℕ

namespace RenameState

variable (s : RenameState)

/-- A commit frees what the mapping has replaced. -/
def commit : Except MapFault RenameState :=
  match s.inFlight with
  | [] => .ok s
  | x :: rest => do
    let table ← s.table.free x.previous
    .ok ⟨table, rest, update s.committed x.name x.register⟩

/-- A squash restores what the mapping has replaced, and frees its register. -/
def squash : Except MapFault RenameState :=
  match s.inFlight.getLast? with
  | none => .ok s
  | some x => do
    let table ← (s.table.restore x.name x.previous).free x.register
    .ok ⟨table, s.inFlight.dropLast, s.committed⟩

/-- A dispatch maps the name to a free register. -/
def dispatch (n : ℕ) : Except MapFault RenameState := do
  let (table, register, previous) ← s.table.create n
  .ok ⟨table, s.inFlight ++ [⟨n, register, previous⟩], s.committed⟩

def step : RenameEvent → Except MapFault RenameState
  | .dispatch n => s.dispatch n
  | .commit => s.commit
  | .squash => s.squash

/-- The table agrees with what is in flight, and every register is counted. -/
structure Consistent (names registers : ℕ) (s : RenameState) : Prop where
  renames : s.table.Renames s.inFlight s.committed
  names_eq : s.table.theNameCount = names
  registers_eq : s.table.theRegisterCount = registers
  count : s.table.theFreeList.length + names + s.inFlight.length = registers

namespace Consistent

variable {names registers : ℕ} {s : RenameState}

section Steps

variable {m : PhysicalMap} {l pre post : List Mapping} {committed : ℕ → ℕ} {x : Mapping} {n : ℕ}

theorem create (h : Consistent names registers ⟨m, l, committed⟩) (hn : n < names)
    (hroom : names + l.length < registers) :
    ∃ m' r p, m.create n = .ok (m', r, p) ∧
      Consistent names registers ⟨m', l ++ [⟨n, r, p⟩], committed⟩ := by
  have hn' : n < m.theNameCount := h.names_eq.symm ▸ hn
  have hcount := h.count
  dsimp only at hcount
  have hfree : m.theFreeList ≠ [] := by
    intro hnil
    rw [hnil, length_nil] at hcount
    omega
  have hr : m.Renames l committed := h.renames
  obtain ⟨m', r, hm', hr', hnames, hregs, hlen, -⟩ := hr.create hn' hfree
  refine ⟨m', r, _, hm', hr', hnames.trans h.names_eq, hregs.trans h.registers_eq, ?_⟩
  simp only [length_append, length_singleton]
  omega

theorem free_previous (h : Consistent names registers ⟨m, pre ++ x :: post, committed⟩)
    (hx : ∀ y ∈ pre, y.name ≠ x.name) :
    ∃ m', m.free x.previous = .ok m' ∧ Consistent names registers
      ⟨m', pre ++ post, update committed x.name x.register⟩ := by
  have hr : m.Renames (pre ++ x :: post) committed := h.renames
  obtain ⟨m', hm', hr', hnames, hregs, hlen, -⟩ := hr.commit hx
  refine ⟨m', hm', hr', hnames.trans h.names_eq, hregs.trans h.registers_eq, ?_⟩
  have hcount := h.count
  simp only [length_append, length_cons] at hcount ⊢
  omega

theorem undo (h : Consistent names registers ⟨m, pre ++ x :: post, committed⟩)
    (hx : ∀ y ∈ post, y.name ≠ x.name) :
    ∃ m', (m.restore x.name x.previous).free x.register = .ok m' ∧
      Consistent names registers ⟨m', pre ++ post, committed⟩ := by
  have hr : m.Renames (pre ++ x :: post) committed := h.renames
  obtain ⟨m', hm', hr', hnames, hregs, hlen⟩ := hr.squash hx
  refine ⟨m', hm', hr', hnames.trans h.names_eq, hregs.trans h.registers_eq, ?_⟩
  have hcount := h.count
  simp only [length_append, length_cons] at hcount ⊢
  omega

end Steps

theorem commit (h : s.Consistent names registers) :
    ∃ t, s.commit = .ok t ∧ t.Consistent names registers := by
  obtain ⟨m, l, committed⟩ := s
  cases l with
  | nil => exact ⟨_, rfl, h⟩
  | cons x rest =>
    have hfirst : ∀ y ∈ ([] : List Mapping), y.name ≠ x.name := fun y hy =>
      absurd hy not_mem_nil
    obtain ⟨m', hm', hc'⟩ := free_previous (nil_append (x :: rest) ▸ h) hfirst
    refine ⟨⟨m', rest, _⟩, ?_, hc'⟩
    rw [RenameState.commit]
    dsimp only
    rw [hm']
    rfl

theorem squash (h : s.Consistent names registers) :
    ∃ t, s.squash = .ok t ∧ t.Consistent names registers := by
  obtain ⟨m, l, committed⟩ := s
  rw [RenameState.squash]
  rcases eq_nil_or_concat' l with rfl | ⟨rest, x, rfl⟩
  · exact ⟨_, rfl, h⟩
  · have hlast : ∀ y ∈ ([] : List Mapping), y.name ≠ x.name := fun y hy =>
      absurd hy not_mem_nil
    obtain ⟨m', hm', hc'⟩ := h.undo hlast
    rw [append_nil] at hc'
    refine ⟨⟨m', rest, committed⟩, ?_, hc'⟩
    rw [getLast?_concat, dropLast_concat]
    dsimp only
    rw [hm']
    rfl

theorem dispatch (h : s.Consistent names registers) {n : ℕ} (hn : n < names)
    (hfree : s.table.theFreeList ≠ []) :
    ∃ t, s.dispatch n = .ok t ∧ t.Consistent names registers := by
  have hcount := h.count
  have hpos := length_pos_of_ne_nil hfree
  obtain ⟨m', r, p, hm', hc'⟩ := h.create hn (by omega)
  refine ⟨_, ?_, hc'⟩
  rw [RenameState.dispatch, hm']
  rfl

/-- **What a step can do**: it succeeds, unless a name is dispatched that does not exist or
for which there is no register left. -/
theorem step (h : s.Consistent names registers) (e : RenameEvent) :
    (∃ t, s.step e = .ok t ∧ t.Consistent names registers) ∨
    (∃ n, e = .dispatch n ∧ names ≤ n ∧ s.step e = .error .name) ∨
    ∃ n, e = .dispatch n ∧ n < names ∧ s.table.theFreeList = [] ∧
      s.step e = .error .emptyFreeList := by
  cases e with
  | commit => exact .inl h.commit
  | squash => exact .inl h.squash
  | dispatch n =>
    by_cases hn : n < names
    · by_cases hfree : s.table.theFreeList = []
      · refine .inr (.inr ⟨n, rfl, hn, hfree, ?_⟩)
        rw [← h.names_eq] at hn
        rw [RenameState.step, RenameState.dispatch, PhysicalMap.create, if_pos hn, hfree]
        rfl
      · exact .inl (h.dispatch hn hfree)
    · refine .inr (.inl ⟨n, rfl, Nat.not_lt.mp hn, ?_⟩)
      rw [← h.names_eq] at hn
      rw [RenameState.step, RenameState.dispatch, PhysicalMap.create, if_neg hn]
      rfl

end Consistent

end RenameState

/-- A rename table that is used from its construction on. -/
def renameMachine (names registers : ℕ) : Lib.Machine RenameState RenameEvent MapFault where
  init := ⟨.reset names registers, [], fun n => n⟩
  step := RenameState.step

variable {names registers : ℕ}

theorem renameMachine_consistent (h : names ≤ registers) {s : RenameState}
    (hs : (renameMachine names registers).Reachable s) : s.Consistent names registers := by
  refine hs.invariant (I := RenameState.Consistent names registers) ⟨.reset h, rfl, rfl, ?_⟩
    fun s e t hi _ ht => ?_
  · simp only [renameMachine, PhysicalMap.reset, length_range', length_nil]
    omega
  · have hstep : s.step e = .ok t := ht
    rcases hi.step e with ⟨t', ht', hi'⟩ | ⟨n, -, -, herr⟩ | ⟨n, -, -, -, herr⟩
    · rw [ht'] at hstep
      cases hstep
      exact hi'
    · rw [herr] at hstep
      cases hstep
    · rw [herr] at hstep
      cases hstep

/-- **The rename table in every run**: a register is free or belongs to one name; a name is
mapped to its youngest mapping, and architecturally to the one committed last; the reverse map
says who owns a register; the free registers are those that are left; and no assertion fails
for a name that exists. -/
theorem renameMachine_correct (h : names ≤ registers) {s : RenameState}
    (hs : (renameMachine names registers).Reachable s) :
    (s.table.theFreeList ++ (List.range names).flatMap s.table.theAssignedRegisters).Perm
      (List.range registers) ∧
    (∀ n < names, s.table.map n = .ok (youngest s.inFlight s.committed n) ∧
      s.table.mapArchitectural n = .ok (s.committed n)) ∧
    (∀ r < registers, (s.table.theReverseMappings r = -1 ↔ r ∈ s.table.theFreeList) ∧
      ∀ n < names, s.table.theReverseMappings r = n ↔ r ∈ s.table.theAssignedRegisters n) ∧
    s.table.theFreeList.length = registers - names - s.inFlight.length ∧
    (∀ e f, (renameMachine names registers).step s e = .error f →
      ∃ n, e = .dispatch n ∧ (names ≤ n ∧ f = .name ∨
        n < names ∧ s.inFlight.length = registers - names ∧ f = .emptyFreeList)) := by
  have hc := renameMachine_consistent h hs
  have hr := hc.renames
  have hn := hc.names_eq
  have hregs := hc.registers_eq
  have hcount := hc.count
  refine ⟨?_, fun n hlt => hr.map_eq (hn ▸ hlt), fun r hlt => ?_, by omega, fun e f hf => ?_⟩
  · rw [← hn, ← hregs]
    exact hr.partition
  · rw [← hn]
    exact hr.toOwned.reverse_iff (hregs ▸ hlt)
  · have hf' : s.step e = .error f := hf
    rcases hc.step e with ⟨t, ht, -⟩ | ⟨n, rfl, hle, herr⟩ | ⟨n, rfl, hlt, hfree, herr⟩
    · rw [ht] at hf'
      cases hf'
    · rw [herr] at hf'
      cases hf'
      exact ⟨n, rfl, .inl ⟨hle, rfl⟩⟩
    · rw [herr] at hf'
      cases hf'
      rw [hfree, length_nil] at hcount
      exact ⟨n, rfl, .inr ⟨hlt, by omega, rfl⟩⟩

/-- Two mappings of a name, of which one commits and the other is squashed. -/
def mapTwice : List RenameEvent :=
  [.dispatch 1, .dispatch 1, .dispatch 0, .commit, .squash, .squash]

/-- After `mapTwice` the name has the register of its first mapping. -/
theorem mapTwice_correct : 2 ≤ 5 ∧ ∃ s, (renameMachine 2 5).run mapTwice = .ok s ∧
    s.table.map 1 = .ok 2 ∧ s.table.mapArchitectural 1 = .ok 2 ∧
    s.table.theFreeList.length = 3 := by
  have hend : (renameMachine 2 5).endsIn
      (fun s => s.inFlight.isEmpty && s.committed 1 == 2) mapTwice = true := by decide
  obtain ⟨s, hs, htest⟩ := Lib.Machine.exists_of_endsIn hend
  rw [Bool.and_eq_true, List.isEmpty_iff, beq_iff_eq] at htest
  obtain ⟨hl, hcommitted⟩ := htest
  obtain ⟨-, hmap, -, hlen, -⟩ := renameMachine_correct (show 2 ≤ 5 by decide)
    (Lib.Machine.reachable_of_run hs)
  have hone := hmap 1 (by decide)
  rw [hl, hcommitted, youngest, hcommitted] at hone
  rw [hl] at hlen
  exact ⟨by decide, s, hs, hone.1, hone.2, hlen⟩

end UArch

end Flexus
