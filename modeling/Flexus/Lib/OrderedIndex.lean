import Mathlib.Data.List.Perm.Basic
import Mathlib.Data.List.Sort
import Mathlib.Data.List.TakeWhile

/-!
# Ordered indices with iterators

A non-unique ordered index keeps its elements sorted by a key and lets several of
them have the same key. Its elements are referred to by *iterators*, which stay
valid when an element is modified and moves, and until it is erased. The index is
kept here as the sorted list of its slots: a slot is an item with the *serial*
under which it was inserted, and the serial stands for the iterator. Serials grow,
so that the order of the serials is the order of insertion.

An element is inserted behind the elements of the same key. When it is modified it
stays where it is as long as its neighbours still allow it, and is linked again,
behind the elements of its new key, when they do not.

What the index holds is said by one function, `Flexus.Lib.OrderedIndex.get`, from
serials to items: every operation has an equation for it, and every search is
specified by it.
-/

namespace Flexus

open List

namespace Lib

/-- An item, and the serial that stands for the iterators to it. -/
structure Slot (α : Type*) where
  /-- The order of insertion. -/
  serial : ℕ
  /-- The element. -/
  item : α
  deriving DecidableEq

variable {α : Type*}

/-- **A non-unique ordered index**: slots in the order of their keys, with
distinct serials that are all in the past. -/
structure OrderedIndex (k : α → ℕ) where
  /-- The elements in the order of the index. -/
  slots : List (Slot α)
  /-- The serial of the next insertion. -/
  next : ℕ
  sorted : slots.Pairwise fun x y => k x.item ≤ k y.item
  nodup : (slots.map Slot.serial).Nodup
  fresh : ∀ x ∈ slots, x.serial < next

namespace OrderedIndex

variable {k : α → ℕ}

/-! ### Linking an element -/

/-- The list with an element linked at the upper bound of its key. -/
def link (k : α → ℕ) (x : Slot α) : List (Slot α) → List (Slot α)
  | [] => [x]
  | y :: l => if k y.item ≤ k x.item then y :: link k x l else x :: y :: l

theorem link_perm (x : Slot α) (l : List (Slot α)) : (link k x l).Perm (x :: l) := by
  induction l with
  | nil => exact List.Perm.refl _
  | cons y l ih =>
    rw [link]
    split
    · exact (ih.cons y).trans (List.Perm.swap x y l)
    · exact List.Perm.refl _

theorem sorted_link {x : Slot α} {l : List (Slot α)}
    (h : l.Pairwise fun x y => k x.item ≤ k y.item) :
    (link k x l).Pairwise fun x y => k x.item ≤ k y.item := by
  induction l with
  | nil => exact pairwise_singleton _ _
  | cons y l ih =>
    rw [pairwise_cons] at h
    rw [link]
    split
    · rename_i hyx
      refine pairwise_cons.mpr ⟨fun z hz => ?_, ih h.2⟩
      rcases mem_cons.mp ((link_perm x l).mem_iff.mp hz) with rfl | hz
      · exact hyx
      · exact h.1 z hz
    · rename_i hyx
      refine pairwise_cons.mpr ⟨fun z hz => ?_, pairwise_cons.mpr h⟩
      rcases mem_cons.mp hz with rfl | hz
      · omega
      · have := h.1 z hz
        omega

/-! ### The operations -/

/-- The index without elements. -/
def empty : OrderedIndex k where
  slots := []
  next := 0
  sorted := List.Pairwise.nil
  nodup := nodup_nil
  fresh := by simp

variable (m : OrderedIndex k)

/-- The item a serial refers to, if it has not been erased. -/
def get (i : ℕ) : Option α := (m.slots.find? fun x => x.serial == i).map Slot.item

/-- **Insertion**, behind the elements of the same key. The new element has the
serial `next`. -/
def insert (a : α) : OrderedIndex k where
  slots := link k ⟨m.next, a⟩ m.slots
  next := m.next + 1
  sorted := sorted_link m.sorted
  nodup := by
    rw [((link_perm (k := k) ⟨m.next, a⟩ m.slots).map Slot.serial).nodup_iff, map_cons, nodup_cons]
    refine ⟨fun hc => ?_, m.nodup⟩
    obtain ⟨x, hx, he⟩ := mem_map.mp hc
    have := m.fresh x hx
    simp only at he
    omega
  fresh := fun x hx => by
    rcases mem_cons.mp ((link_perm _ _).mem_iff.mp hx) with rfl | hx
    · exact Nat.lt_succ_self _
    · exact Nat.lt_succ_of_lt (m.fresh x hx)

/-- The list without an element. -/
def eraseSlot (i : ℕ) (l : List (Slot α)) : List (Slot α) := l.filter fun x => x.serial != i

/-- **Erasure** of the element an iterator refers to. -/
def erase (i : ℕ) : OrderedIndex k where
  slots := eraseSlot i m.slots
  next := m.next
  sorted := m.sorted.filter _
  nodup := m.nodup.sublist (filter_sublist.map _)
  fresh := fun x hx => m.fresh x (mem_of_mem_filter hx)

/-- The slots before and behind an element still allow it a new item. -/
def inPlace (k : α → ℕ) (a : α) (pre post : List (Slot α)) : Bool :=
  pre.all (fun x => k x.item ≤ k a) && post.all (fun x => k a ≤ k x.item)

/-- The list with the item of an element replaced: in its place where its
neighbours allow it, linked again otherwise. -/
def modifySlots (k : α → ℕ) (i : ℕ) (f : α → α) (l : List (Slot α)) : List (Slot α) :=
  let pre := l.takeWhile fun x => x.serial != i
  match l.dropWhile fun x => x.serial != i with
  | [] => l
  | x :: post =>
    if inPlace k (f x.item) pre post then pre ++ ⟨i, f x.item⟩ :: post
    else link k ⟨i, f x.item⟩ (pre ++ post)

theorem modifySlots_cases (i : ℕ) (f : α → α) (l : List (Slot α)) :
    (modifySlots k i f l = l ∧ ∀ x ∈ l, x.serial ≠ i) ∨
    ∃ pre x post, l = pre ++ x :: post ∧ x.serial = i ∧
      ((modifySlots k i f l = pre ++ ⟨i, f x.item⟩ :: post ∧
          inPlace k (f x.item) pre post = true) ∨
        modifySlots k i f l = link k ⟨i, f x.item⟩ (pre ++ post)) := by
  have hl := takeWhile_append_dropWhile (p := fun x : Slot α => x.serial != i) (l := l)
  rw [modifySlots]
  cases hd : l.dropWhile fun x => x.serial != i with
  | nil =>
    refine .inl ⟨rfl, fun x hx => ?_⟩
    have := dropWhile_eq_nil_iff.mp hd x hx
    simpa using this
  | cons x post =>
    refine .inr ⟨l.takeWhile fun x => x.serial != i, x, post, ?_, ?_, ?_⟩
    · rw [← hd]
      exact hl.symm
    · have := head_dropWhile_not (fun x : Slot α => x.serial != i) (l := l) (by rw [hd]; simp)
      simpa [hd] using this
    · simp only
      split
      · exact .inl ⟨rfl, by assumption⟩
      · exact .inr rfl

/-- Replacing an element that is not there. -/
theorem map_replace_eq {i : ℕ} {f : α → α} {l : List (Slot α)} (h : ∀ x ∈ l, x.serial ≠ i) :
    l.map (fun x => if x.serial = i then ⟨i, f x.item⟩ else x) = l := by
  induction l with
  | nil => rfl
  | cons x l ih =>
    rw [map_cons, if_neg (h x (mem_cons_self ..)), ih fun y hy => h y (mem_cons_of_mem _ hy)]

/-- Modifying an element is replacing it, up to the order. -/
theorem modifySlots_perm (i : ℕ) (f : α → α) {l : List (Slot α)}
    (h : (l.map Slot.serial).Nodup) :
    (modifySlots k i f l).Perm
      (l.map fun x => if x.serial = i then ⟨i, f x.item⟩ else x) := by
  rcases modifySlots_cases (k := k) i f l with ⟨he, hne⟩ | ⟨pre, x, post, rfl, hx, hm⟩
  · rw [he, map_replace_eq hne]
  · rw [map_append, map_cons, nodup_append] at h
    obtain ⟨-, h2, h3⟩ := h
    have hpre : ∀ y ∈ pre, y.serial ≠ i := fun y hy hc =>
      h3 _ (mem_map_of_mem hy) _ (mem_cons_self ..) (hc.trans hx.symm)
    have hpost : ∀ y ∈ post, y.serial ≠ i := fun y hy hc =>
      (nodup_cons.mp h2).1 (mem_map.mpr ⟨y, hy, hc.trans hx.symm⟩)
    rw [map_append, map_cons, map_replace_eq hpre, map_replace_eq hpost, if_pos hx]
    rcases hm with ⟨hm, -⟩ | hm <;> rw [hm]
    exact (link_perm _ _).trans perm_middle.symm

theorem sorted_modifySlots (i : ℕ) (f : α → α) {l : List (Slot α)}
    (h : l.Pairwise fun x y => k x.item ≤ k y.item) :
    (modifySlots k i f l).Pairwise fun x y => k x.item ≤ k y.item := by
  rcases modifySlots_cases (k := k) i f l with ⟨he, -⟩ | ⟨pre, x, post, rfl, hx, ⟨hm, hp⟩ | hm⟩
  · rwa [he]
  · rw [hm]
    rw [pairwise_append, pairwise_cons] at h ⊢
    simp only [inPlace, Bool.and_eq_true, all_eq_true, decide_eq_true_eq] at hp
    refine ⟨h.1, ⟨hp.2, h.2.1.2⟩, fun y hy z hz => ?_⟩
    rcases mem_cons.mp hz with rfl | hz
    · exact hp.1 y hy
    · exact h.2.2 y hy z (mem_cons_of_mem _ hz)
  · rw [hm]
    refine sorted_link (h.sublist ?_)
    exact List.Sublist.append_left (sublist_cons_self x post) pre

theorem serial_modifySlots (i : ℕ) (f : α → α) {l : List (Slot α)}
    (h : (l.map Slot.serial).Nodup) :
    ((modifySlots k i f l).map Slot.serial).Perm (l.map Slot.serial) := by
  refine ((modifySlots_perm i f h).map _).trans ?_
  rw [map_map]
  refine (map_congr_left fun x _ => ?_) ▸ List.Perm.refl _
  simp only [Function.comp]
  split
  · rename_i hx
    exact hx.symm ▸ rfl
  · rfl

/-- **Modification** of the element an iterator refers to. -/
def modify (i : ℕ) (f : α → α) : OrderedIndex k where
  slots := modifySlots k i f m.slots
  next := m.next
  sorted := sorted_modifySlots i f m.sorted
  nodup := (serial_modifySlots i f m.nodup).nodup_iff.mpr m.nodup
  fresh := fun x hx => by
    have hs := (serial_modifySlots (k := k) i f m.nodup).mem_iff.mp (mem_map_of_mem hx)
    obtain ⟨y, hy, he⟩ := mem_map.mp hs
    exact he ▸ m.fresh y hy

/-- The first element in the order of the index with a property. -/
def find (p : α → Bool) : Option (Slot α) := m.slots.find? fun x => p x.item

/-- The elements with a property, in the order of the index. -/
def findAll (p : α → Bool) : List (Slot α) := m.slots.filter fun x => p x.item

/-- The number of elements. -/
def size : ℕ := m.slots.length

/-- The iterators to the elements with a property, in the order of insertion. -/
def inOrder (p : α → Bool) : List ℕ := ((m.findAll p).map Slot.serial).insertionSort (· ≤ ·)

/-- Modification of several elements, one after the other. -/
def modifyEach (f : α → α) (is : List ℕ) : OrderedIndex k :=
  is.foldl (fun m i => m.modify i f) m

/-! ### What the index holds -/

variable {m} {i j : ℕ} {a : α} {f : α → α} {p : α → Bool} {x : Slot α}

/-- The function from serials to items is another presentation of the slots. -/
theorem get_eq_some : m.get i = some a ↔ ⟨i, a⟩ ∈ m.slots := by
  rw [get, Option.map_eq_some_iff]
  refine ⟨fun h => ?_, fun h => ⟨⟨i, a⟩, ?_, rfl⟩⟩
  · obtain ⟨⟨j, b⟩, hf, rfl⟩ := h
    have hj := find?_some hf
    rw [beq_iff_eq] at hj
    cases hj
    exact mem_of_find?_eq_some hf
  · cases hf : m.slots.find? fun x => x.serial == i with
    | none => exact absurd (find?_eq_none.mp hf _ h) (by simp)
    | some y =>
      have hy := find?_some hf
      rw [beq_iff_eq] at hy
      -- serials are distinct, so that there is no other slot of this serial
      have := inj_on_of_nodup_map m.nodup (mem_of_find?_eq_some hf) h hy
      rw [this]

theorem mem_slots : x ∈ m.slots ↔ m.get x.serial = some x.item := get_eq_some.symm

theorem lt_next_of_get (h : m.get i = some a) : i < m.next := m.fresh _ (get_eq_some.mp h)

theorem get_insert : (m.insert a).get i = if i = m.next then some a else m.get i := by
  refine Option.ext fun b => ?_
  have hmem : ⟨i, b⟩ ∈ (m.insert a).slots ↔ (⟨i, b⟩ : Slot α) = ⟨m.next, a⟩ ∨ ⟨i, b⟩ ∈ m.slots :=
    (link_perm _ _).mem_iff.trans mem_cons
  rw [get_eq_some, hmem]
  split
  · rename_i hi
    subst hi
    have hn : (⟨m.next, b⟩ : Slot α) ∉ m.slots := fun hc => absurd (m.fresh _ hc) (lt_irrefl _)
    simp [hn, eq_comm]
  · rename_i hi
    simp [hi, get_eq_some]

theorem get_erase : (m.erase j).get i = if i = j then none else m.get i := by
  refine Option.ext fun b => ?_
  have hmem : (⟨i, b⟩ : Slot α) ∈ (m.erase j).slots ↔ ⟨i, b⟩ ∈ m.slots ∧ i ≠ j := by
    simp [erase, eraseSlot]
  rw [get_eq_some, hmem]
  split
  · rename_i hi
    simp [hi]
  · rename_i hi
    simp [hi, get_eq_some]

theorem get_modify : (m.modify j f).get i = if i = j then (m.get i).map f else m.get i := by
  refine Option.ext fun b => ?_
  have hmem : (⟨i, b⟩ : Slot α) ∈ (m.modify j f).slots ↔
      ∃ x ∈ m.slots, (if x.serial = j then ⟨j, f x.item⟩ else x) = (⟨i, b⟩ : Slot α) :=
    (modifySlots_perm j f m.nodup).mem_iff.trans mem_map
  rw [get_eq_some, hmem]
  constructor
  · rintro ⟨x, hx, he⟩
    by_cases hj : x.serial = j
    · rw [if_pos hj] at he
      cases he
      rw [if_pos rfl, ← hj, mem_slots.mp hx]
      rfl
    · rw [if_neg hj] at he
      subst he
      rw [if_neg hj]
      exact mem_slots.mp hx
  · intro h
    split at h
    · rename_i hi
      obtain ⟨c, hc, rfl⟩ := Option.map_eq_some_iff.mp h
      refine ⟨⟨i, c⟩, get_eq_some.mp hc, ?_⟩
      rw [if_pos hi, hi]
    · rename_i hi
      exact ⟨⟨i, b⟩, get_eq_some.mp h, if_neg hi⟩

/-! ### Searching -/

/-- **A search finds the least element with its property.** -/
theorem find_spec (h : m.find p = some x) : m.get x.serial = some x.item ∧ p x.item = true ∧
    ∀ i a, m.get i = some a → p a = true → k x.item ≤ k a := by
  rw [find, find?_eq_some_iff_append] at h
  obtain ⟨hp, pre, post, hl, hpre⟩ := h
  refine ⟨mem_slots.mp (by simp [hl]), hp, fun i a ha hpa => ?_⟩
  have hmem := get_eq_some.mp ha
  have hs := m.sorted
  rw [hl, pairwise_append, pairwise_cons] at hs
  rw [hl] at hmem
  rcases mem_append.mp hmem with hm | hm
  · have := hpre _ hm
    simp [hpa] at this
  · rcases mem_cons.mp hm with rfl | hm
    · exact le_rfl
    · exact hs.2.1.1 _ hm

theorem find_eq_none : m.find p = none ↔ ∀ i a, m.get i = some a → p a = false := by
  rw [find, find?_eq_none]
  constructor
  · intro h i a ha
    simpa using h _ (get_eq_some.mp ha)
  · intro h x hx
    simpa using h _ _ (mem_slots.mp hx)

/-- **An element stays in its place** when its key stays. -/
theorem slots_modify (hf : ∀ b, k (f b) = k b) : (m.modify i f).slots =
    m.slots.map fun x => if x.serial = i then ⟨i, f x.item⟩ else x := by
  have hnodup := m.nodup
  have hsorted := m.sorted
  change modifySlots k i f m.slots = _
  generalize m.slots = l at hnodup hsorted ⊢
  have hl := takeWhile_append_dropWhile (p := fun x : Slot α => x.serial != i) (l := l)
  rw [modifySlots]
  cases hd : l.dropWhile fun x => x.serial != i with
  | nil =>
    refine (map_replace_eq fun x hx => ?_).symm
    simpa using dropWhile_eq_nil_iff.mp hd x hx
  | cons x post =>
    rw [hd] at hl
    have hx : x.serial = i := by
      have := head_dropWhile_not (fun x : Slot α => x.serial != i) (l := l) (by rw [hd]; simp)
      simpa [hd] using this
    generalize l.takeWhile (fun x => x.serial != i) = pre at hl
    subst hl
    rw [map_append, map_cons, nodup_append, nodup_cons] at hnodup
    rw [pairwise_append, pairwise_cons] at hsorted
    have hpre : ∀ y ∈ pre, y.serial ≠ i := fun y hy hc => hnodup.2.2 _ (mem_map_of_mem hy)
      _ (mem_cons_self ..) (hc.trans hx.symm)
    have hpost : ∀ y ∈ post, y.serial ≠ i := fun y hy hc =>
      hnodup.2.1.1 (mem_map.mpr ⟨y, hy, hc.trans hx.symm⟩)
    have hplace : inPlace k (f x.item) pre post = true := by
      simp only [inPlace, Bool.and_eq_true, all_eq_true, decide_eq_true_eq, hf]
      exact ⟨fun y hy => hsorted.2.2 y hy x (mem_cons_self ..), hsorted.2.1.1⟩
    dsimp only
    rw [if_pos hplace, map_append, map_cons, map_replace_eq hpre, map_replace_eq hpost, if_pos hx]

/-- **A search after a change** that it does not see. -/
theorem find_modify (hf : ∀ b, k (f b) = k b) (hp : ∀ b, p (f b) = p b) : (m.modify i f).find p =
    (m.find p).map fun x => if x.serial = i then ⟨i, f x.item⟩ else x := by
  rw [find, slots_modify hf, find?_map, find]
  congr 2
  funext x
  rw [Function.comp_apply]
  split
  · exact hp x.item
  · rfl

theorem mem_findAll : x ∈ m.findAll p ↔ m.get x.serial = some x.item ∧ p x.item = true := by
  rw [findAll, mem_filter, mem_slots]

theorem mem_inOrder : i ∈ m.inOrder p ↔ ∃ a, m.get i = some a ∧ p a = true := by
  rw [inOrder, (perm_insertionSort _ _).mem_iff, mem_map]
  constructor
  · rintro ⟨x, hx, rfl⟩
    exact ⟨x.item, mem_findAll.mp hx⟩
  · rintro ⟨a, ha⟩
    exact ⟨⟨i, a⟩, mem_findAll.mpr ha, rfl⟩

theorem nodup_findAll : ((m.findAll p).map Slot.serial).Nodup :=
  m.nodup.sublist (filter_sublist.map _)

theorem nodup_inOrder : (m.inOrder p).Nodup :=
  (perm_insertionSort _ _).nodup_iff.mpr nodup_findAll

theorem get_modifyEach {is : List ℕ} (h : is.Nodup) :
    (m.modifyEach f is).get i = if i ∈ is then (m.get i).map f else m.get i := by
  induction is generalizing m with
  | nil => rfl
  | cons j is ih =>
    rw [nodup_cons] at h
    rw [modifyEach, foldl_cons]
    refine (ih h.2).trans ?_
    rw [get_modify]
    by_cases hij : i = j
    · subst hij
      rw [if_neg h.1, if_pos rfl, if_pos (mem_cons_self ..)]
    · simp only [mem_cons, hij, false_or, if_false]

/-! ### The number of elements -/

theorem size_insert : (m.insert a).size = m.size + 1 := (link_perm _ _).length_eq

theorem size_modify : (m.modify j f).size = m.size := by
  have := (modifySlots_perm (k := k) j f m.nodup).length_eq
  rwa [length_map] at this

theorem next_modifyEach {is : List ℕ} : (m.modifyEach f is).next = m.next := by
  induction is generalizing m with
  | nil => rfl
  | cons j is ih => exact ih

theorem size_modifyEach {is : List ℕ} : (m.modifyEach f is).size = m.size := by
  induction is generalizing m with
  | nil => rfl
  | cons j is ih => exact ih.trans size_modify

/-- An element that is there, in front of the others. -/
theorem perm_erase (h : m.get j = some a) : m.slots.Perm (⟨j, a⟩ :: (m.erase j).slots) := by
  obtain ⟨pre, post, hl⟩ := append_of_mem (get_eq_some.mp h)
  have hn := m.nodup
  rw [hl, map_append, map_cons, nodup_append, nodup_cons] at hn
  have hpre : pre.filter (fun x => x.serial != j) = pre := filter_eq_self.mpr fun x hx => by
    simpa using hn.2.2 _ (mem_map_of_mem hx) _ (mem_cons_self ..)
  have hpost : post.filter (fun x => x.serial != j) = post := filter_eq_self.mpr fun x hx => by
    have hne : x.serial ≠ j := fun hc => hn.2.1.1 (mem_map.mpr ⟨x, hx, hc⟩)
    simpa using hne
  have he : (m.erase j).slots = pre ++ post := by
    simp only [erase, eraseSlot]
    rw [hl, filter_append, filter_cons_of_neg (by simp), hpre, hpost]
  rw [he, hl]
  exact perm_middle

/-- Erasing an element that is there. -/
theorem size_erase (h : m.get j = some a) : (m.erase j).size + 1 = m.size :=
  (perm_erase h).length_eq.symm

end OrderedIndex

end Lib

end Flexus
