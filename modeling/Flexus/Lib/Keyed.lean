import Mathlib.Data.List.Nodup

/-!
# Lists with one element for each key

A buffer that is searched by a key and also remembers the order in which its
elements came is kept as a list. The operations on it – look an element up,
change it in place, take it out, put a new one at the end unless its key is taken,
move an element to the end – are specified by what a lookup finds afterwards.
-/

namespace Flexus

open List

namespace Lib

namespace Keyed

variable {α : Type*} (k : α → ℕ)

/-- The element of a key. -/
def lookup (l : List α) (a : ℕ) : Option α := l.find? fun x => k x == a

/-- A change of the element of a key. -/
def update (l : List α) (a : ℕ) (f : α → α) : List α :=
  match l with
  | [] => []
  | x :: l => if k x = a then f x :: l else x :: update l a f

/-- The list without the element of a key. -/
def erase (l : List α) (a : ℕ) : List α := l.filter fun x => k x != a

/-- The list with a new element at its end, unless its key is taken. -/
def pushBack (l : List α) (x : α) : List α := if (lookup k l (k x)).isSome then l else l ++ [x]

/-- The element of a key is moved to the end. -/
def toBack (l : List α) (a : ℕ) : List α :=
  l.filter (fun x => k x != a) ++ l.filter (fun x => k x == a)

variable {k} {l : List α} {a b : ℕ} {x : α} {f : α → α}

theorem key_of_lookup (h : lookup k l a = some x) : k x = a := by
  simpa using find?_some h

theorem mem_of_lookup (h : lookup k l a = some x) : x ∈ l := mem_of_find?_eq_some h

theorem lookup_update (hf : ∀ x, k (f x) = k x) :
    lookup k (update k l a f) b = if b = a then (lookup k l b).map f else lookup k l b := by
  induction l with
  | nil => simp [lookup, update]
  | cons y l ih =>
    rw [update]
    by_cases hy : k y = a
    · rw [if_pos hy]
      simp only [lookup, find?_cons, hf, hy]
      by_cases hb : b = a
      · simp [hb]
      · have hne : (a == b) = false := by simpa using fun h : a = b => hb h.symm
        simp [hb, hne]
    · simp only [lookup, if_neg hy, find?_cons] at ih ⊢
      by_cases hb : k y = b
      · have hba : ¬ b = a := fun h => hy (hb.trans h)
        simp [hb, hba]
      · simp only [beq_eq_false_iff_ne.mpr hb, ih]

/-- An element after a change in place is one of before, or a changed one. -/
theorem mem_or_image_of_mem_update {y : α} (h : y ∈ update k l a f) :
    y ∈ l ∨ ∃ x ∈ l, k x = a ∧ y = f x := by
  induction l with
  | nil => exact .inl h
  | cons z l ih =>
    rw [update] at h
    split at h
    · rename_i hz
      rcases mem_cons.mp h with rfl | h
      · exact .inr ⟨z, mem_cons_self, hz, rfl⟩
      · exact .inl (mem_cons_of_mem _ h)
    · rcases mem_cons.mp h with rfl | h
      · exact .inl mem_cons_self
      · rcases ih h with hy | ⟨x, hx, hxa, rfl⟩
        · exact .inl (mem_cons_of_mem _ hy)
        · exact .inr ⟨x, mem_cons_of_mem _ hx, hxa, rfl⟩

/-- An element after a change is one of before, or it has the key that is changed. -/
theorem mem_or_key_of_mem_update (hf : ∀ x, k (f x) = k x) (h : x ∈ update k l a f) :
    x ∈ l ∨ k x = a := by
  rcases mem_or_image_of_mem_update h with h | ⟨y, -, hy, rfl⟩
  · exact .inl h
  · exact .inr ((hf y).trans hy)

/-- What a change leaves unchanged is found as before. -/
theorem map_lookup_update {β : Type*} {g : α → β} (hf : ∀ x, k (f x) = k x)
    (hg : ∀ x, g (f x) = g x) : (lookup k (update k l a f) b).map g = (lookup k l b).map g := by
  rw [lookup_update hf]
  split
  · rw [Option.map_map]
    exact congrArg (Option.map · _) (funext hg)
  · rfl

theorem lookup_erase : lookup k (erase k l a) b = if b = a then none else lookup k l b := by
  induction l with
  | nil => simp [lookup, erase]
  | cons y l ih =>
    simp only [lookup, erase, filter_cons, find?_cons] at ih ⊢
    by_cases hy : k y = a
    · simp only [hy, bne_self_eq_false, Bool.false_eq_true, if_false, ih]
      by_cases hb : b = a
      · simp [hb]
      · have hne : (a == b) = false := by simpa using fun h : a = b => hb h.symm
        simp [hb, hne]
    · have hne : (k y != a) = true := by simpa using hy
      simp only [hne, if_true, find?_cons]
      by_cases hb : k y = b
      · have hba : ¬ b = a := fun h => hy (hb.trans h)
        simp [hb, hba]
      · simp only [beq_eq_false_iff_ne.mpr hb, ih]

theorem lookup_append_singleton :
    lookup k (l ++ [x]) b = (lookup k l b).or (if k x = b then some x else none) := by
  rw [lookup, find?_append]
  by_cases hb : k x = b
  · simp [lookup, hb]
  · simp [lookup, hb]

/-- A new element is found when its key was free. -/
theorem lookup_pushBack : lookup k (pushBack k l x) b =
    if b = k x ∧ lookup k l b = none then some x else lookup k l b := by
  rw [pushBack]
  by_cases hs : (lookup k l (k x)).isSome
  · rw [if_pos hs, if_neg]
    rintro ⟨rfl, hn⟩
    rw [hn] at hs
    cases hs
  · rw [if_neg hs, lookup_append_singleton]
    rw [Option.not_isSome_iff_eq_none] at hs
    by_cases hb : b = k x
    · subst hb
      simp [hs]
    · have hb' : ¬ k x = b := fun h => hb h.symm
      simp [hb, hb']

/-! ### One element for each key -/

/-- A change in place is not seen by what it leaves unchanged. -/
theorem map_update {β : Type*} {g : α → β} (hf : ∀ x, k x = a → g (f x) = g x) :
    (update k l a f).map g = l.map g := by
  induction l with
  | nil => rfl
  | cons y l ih =>
    rw [update]
    split
    · rename_i hy
      rw [map_cons, map_cons, hf y hy]
    · rw [map_cons, map_cons, ih]

theorem keys_update (hf : ∀ x, k (f x) = k x) : (update k l a f).map k = l.map k :=
  map_update fun x _ => hf x

theorem length_update : (update k l a f).length = l.length := by
  induction l with
  | nil => rfl
  | cons y l ih =>
    rw [update]
    split
    · rfl
    · rw [length_cons, ih, length_cons]

theorem nodup_erase (h : (l.map k).Nodup) : ((erase k l a).map k).Nodup :=
  h.sublist (filter_sublist.map k)

theorem lookup_eq_none : lookup k l a = none ↔ ∀ x ∈ l, k x ≠ a := by
  simp [lookup]

theorem nodup_append_singleton (h : (l.map k).Nodup) (hx : lookup k l (k x) = none) :
    ((l ++ [x]).map k).Nodup := by
  rw [map_append, map_singleton, nodup_append]
  refine ⟨h, nodup_singleton _, ?_⟩
  intro b hb c hc hbc
  obtain ⟨y, hy, rfl⟩ := mem_map.mp hb
  exact lookup_eq_none.mp hx y hy (hbc.trans (mem_singleton.mp hc))

theorem nodup_pushBack (h : (l.map k).Nodup) : ((pushBack k l x).map k).Nodup := by
  rw [pushBack]
  split
  · exact h
  · rename_i hx
    exact nodup_append_singleton h (Option.not_isSome_iff_eq_none.mp hx)

/-- An element is found under its key when the keys are distinct. -/
theorem lookup_of_mem (h : (l.map k).Nodup) (hx : x ∈ l) : lookup k l (k x) = some x := by
  cases hl : lookup k l (k x) with
  | none => exact absurd rfl (lookup_eq_none.mp hl x hx)
  | some y =>
    rw [inj_on_of_nodup_map h (mem_of_lookup hl) hx (key_of_lookup hl)]

/-- What is found does not depend on the order. -/
theorem lookup_perm {l' : List α} (h : (l.map k).Nodup) (hp : l'.Perm l) (a : ℕ) :
    lookup k l' a = lookup k l a := by
  cases hl : lookup k l a with
  | none =>
    rw [lookup_eq_none] at hl ⊢
    exact fun x hx => hl x (hp.mem_iff.mp hx)
  | some x =>
    rw [← key_of_lookup hl]
    exact lookup_of_mem ((hp.map k).nodup_iff.mpr h) (hp.mem_iff.mpr (mem_of_lookup hl))

theorem toBack_perm (l : List α) (a : ℕ) : (toBack k l a).Perm l := by
  have h := filter_append_perm (fun x => k x != a) l
  simpa [toBack, bne] using h

/-- An element is found among those that pass a test if it passes. -/
theorem lookup_filter (h : (l.map k).Nodup) (p : α → Bool) :
    lookup k (l.filter p) a = (lookup k l a).filter p := by
  cases hl : lookup k l a with
  | none =>
    rw [lookup_eq_none] at hl
    rw [Option.filter_none, lookup_eq_none]
    intro x hx
    exact hl x (mem_of_mem_filter hx)
  | some x =>
    have hkx := key_of_lookup hl
    rw [Option.filter_some]
    split
    · rename_i hp
      rw [← hkx]
      exact lookup_of_mem (h.sublist (filter_sublist.map k))
        (mem_filter.mpr ⟨mem_of_lookup hl, hp⟩)
    · rename_i hp
      rw [lookup_eq_none]
      intro y hy hya
      obtain ⟨hyl, hpy⟩ := mem_filter.mp hy
      have hyx : y = x := inj_on_of_nodup_map h hyl (mem_of_lookup hl) (hya.trans hkx.symm)
      exact hp (hyx ▸ hpy)

theorem update_of_lookup_none (h : lookup k l a = none) : update k l a f = l := by
  induction l with
  | nil => rfl
  | cons y l ih =>
    have hy := lookup_eq_none.mp h
    rw [update, if_neg (hy y mem_cons_self), ih]
    rw [lookup_eq_none]
    intro x hx
    exact hy x (mem_cons_of_mem y hx)

/-- The elements before that of a key have other keys. -/
theorem key_ne_of_nodup {l₁ l₂ : List α} {y : α} (h : ((l₁ ++ x :: l₂).map k).Nodup)
    (hy : y ∈ l₁ ∨ y ∈ l₂) : k y ≠ k x := by
  rw [map_append, map_cons, nodup_append, nodup_cons] at h
  obtain ⟨-, ⟨hx, -⟩, hne⟩ := h
  rcases hy with hy | hy
  · exact hne _ (mem_map_of_mem hy) _ mem_cons_self
  · exact fun hyx => hx (hyx ▸ mem_map_of_mem hy)

/-- **The place of an element**: a change of its key is made there. -/
theorem update_append_cons {l₁ l₂ : List α} (h : ((l₁ ++ x :: l₂).map k).Nodup) :
    update k (l₁ ++ x :: l₂) (k x) f = l₁ ++ f x :: l₂ := by
  induction l₁ with
  | nil => rw [nil_append, update, if_pos rfl, nil_append]
  | cons y l₁ ih =>
    have hy := key_ne_of_nodup (y := y) h (.inl mem_cons_self)
    rw [cons_append, update, if_neg hy, ih (nodup_cons.mp h).2, cons_append]

theorem erase_append_cons {l₁ l₂ : List α} (h : ((l₁ ++ x :: l₂).map k).Nodup) :
    erase k (l₁ ++ x :: l₂) (k x) = l₁ ++ l₂ := by
  have hother : ∀ y ∈ l₁ ++ l₂, (k y != k x) = true := fun y hy =>
    bne_iff_ne.mpr (key_ne_of_nodup h (mem_append.mp hy))
  rw [erase, filter_append, filter_cons_of_neg (by simp), ← filter_append]
  exact filter_eq_self.mpr hother

/-- The element of a key has a place. -/
theorem exists_split (hx : lookup k l a = some x) : k x = a ∧ ∃ l₁ l₂, l = l₁ ++ x :: l₂ :=
  ⟨key_of_lookup hx, append_of_mem (mem_of_lookup hx)⟩

/-- The elements after a change in place, when the keys are distinct. -/
theorem mem_update (h : (l.map k).Nodup) {y : α} :
    y ∈ update k l a f ↔ (y ∈ l ∧ k y ≠ a) ∨ ∃ x ∈ l, k x = a ∧ y = f x := by
  cases hl : lookup k l a with
  | none =>
    have hother := lookup_eq_none.mp hl
    rw [update_of_lookup_none hl]
    constructor
    · intro hy
      exact .inl ⟨hy, hother y hy⟩
    · rintro (⟨hy, -⟩ | ⟨x, hx, hxa, -⟩)
      · exact hy
      · exact absurd hxa (hother x hx)
  | some x =>
    obtain ⟨rfl, l₁, l₂, rfl⟩ := exists_split hl
    have hsame : ∀ z ∈ l₁ ++ x :: l₂, k z = k x → z = x := fun z hz =>
      inj_on_of_nodup_map h hz (mem_append_right _ mem_cons_self)
    rw [update_append_cons h]
    simp only [mem_append, mem_cons] at hsame ⊢
    constructor
    · rintro (hy | rfl | hy)
      · exact .inl ⟨.inl hy, key_ne_of_nodup h (.inl hy)⟩
      · exact .inr ⟨x, .inr (.inl rfl), rfl, rfl⟩
      · exact .inl ⟨.inr (.inr hy), key_ne_of_nodup h (.inr hy)⟩
    · rintro (⟨hy | rfl | hy, hne⟩ | ⟨z, hz, hzx, rfl⟩)
      · exact .inl hy
      · exact absurd rfl hne
      · exact .inr (.inr hy)
      · exact .inr (.inl (congrArg f (hsame z hz hzx)))

/-- The element of a key, and the others. -/
theorem perm_erase (h : (l.map k).Nodup) (hx : lookup k l a = some x) :
    l.Perm (x :: erase k l a) := by
  obtain ⟨rfl, l₁, l₂, rfl⟩ := exists_split hx
  rw [erase_append_cons h]
  exact perm_middle

/-- What is left of a list is found in it by its keys. -/
theorem eq_filter_of_sublist {l' : List α} (h : (l.map k).Nodup) (hs : l'.Sublist l) :
    l' = l.filter fun x => (lookup k l' (k x)).isSome := by
  induction hs with
  | slnil => rfl
  | @cons l' l y hs ih =>
    rw [map_cons, nodup_cons] at h
    rw [filter_cons_of_neg, ← ih h.2]
    rw [Bool.not_eq_true, Option.isSome_eq_false_iff, Option.isNone_iff_eq_none]
    rw [lookup_eq_none]
    intro z hz hzy
    exact h.1 (mem_map.mpr ⟨z, hs.subset hz, hzy⟩)
  | @cons_cons l' l y hs ih =>
    rw [map_cons, nodup_cons] at h
    rw [filter_cons_of_pos (by simp [lookup])]
    congr 1
    rw [ih h.2]
    refine filter_congr ?_
    intro z hz
    rw [← ih h.2]
    have hne : k y ≠ k z := fun hyz => h.1 (mem_map.mpr ⟨z, hz, hyz.symm⟩)
    rw [lookup, lookup, find?_cons, beq_eq_false_iff_ne.mpr hne]

/-- Two changes of the same element. -/
theorem update_update {g : α → α} (hf : ∀ x, k (f x) = k x) :
    update k (update k l a f) a g = update k l a fun x => g (f x) := by
  induction l with
  | nil => rfl
  | cons y l ih =>
    by_cases hy : k y = a
    · rw [update, if_pos hy, update, if_pos ((hf y).trans hy), update, if_pos hy]
    · rw [update, if_neg hy, update, if_neg hy, update, if_neg hy, ih]

/-- What is taken out may be changed before. -/
theorem erase_update (hf : ∀ x, k (f x) = k x) : erase k (update k l a f) a = erase k l a := by
  induction l with
  | nil => rfl
  | cons y l ih =>
    rw [update]
    by_cases hy : k y = a
    · have hfy : k (f y) = a := (hf y).trans hy
      rw [if_pos hy, erase, filter_cons_of_neg (by simp [hfy]), erase,
        filter_cons_of_neg (by simp [hy])]
    · rw [if_neg hy, erase, filter_cons_of_pos (by simp [hy]), erase,
        filter_cons_of_pos (by simp [hy])]
      exact congrArg (y :: ·) ih

/-- Elements that pass a test are counted, and one is taken out. -/
theorem countP_erase (h : (l.map k).Nodup) (hx : lookup k l a = some x) (p : α → Bool) :
    l.countP p = (erase k l a).countP p + if p x then 1 else 0 := by
  rw [(perm_erase h hx).countP_eq p, countP_cons]

/-- Elements that pass a test are counted, and one is changed. -/
theorem countP_update (h : (l.map k).Nodup) (hx : lookup k l a = some x) (p : α → Bool) :
    (update k l a f).countP p + (if p x then 1 else 0) =
      l.countP p + if p (f x) then 1 else 0 := by
  obtain ⟨rfl, l₁, l₂, rfl⟩ := exists_split hx
  rw [update_append_cons h, countP_append, countP_append, countP_cons, countP_cons]
  omega

end Keyed

end Lib

end Flexus
