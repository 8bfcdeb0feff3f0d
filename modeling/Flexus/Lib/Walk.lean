import Mathlib.Data.List.Sort
import Mathlib.Data.List.TakeWhile

/-!
# Walks over an ordered index

An iterator into an ordered index is kept here as the list of the elements from its position on,
and the end of a range by the number of elements from there on. A walk goes from an iterator to
the end of its range, or faults: when its step does, and when it reads an element behind the last
one of the index.

A bound of the index is the first element that does not satisfy a predicate. A predicate that
holds of every element before one of which it holds is a *cut*: its bound splits the index in two,
and the elements between two bounds are those that satisfy the second predicate and not the first
(`Flexus.Lib.Walk.bound_eq_append`).
-/

namespace Flexus

open List

namespace Lib

namespace Walk

variable {α σ ε : Type*}

/-! ### Indices -/

section Index

variable {κ : Type*} [LinearOrder κ] (key : α → κ)

/-- **The elements in the order of their keys.** -/
def sortBy (l : List α) : List α := l.insertionSort fun x y => key x ≤ key y

variable {key} {p : α → Bool} {l : List α}

theorem sortBy_perm : (sortBy key l).Perm l := perm_insertionSort _ _

theorem sortBy_sorted : (sortBy key l).Pairwise fun x y => key x ≤ key y := by
  have htotal : Std.Total fun x y : α => key x ≤ key y := ⟨fun x y => le_total (key x) (key y)⟩
  have htrans : IsTrans α fun x y => key x ≤ key y := ⟨fun _ _ _ => le_trans⟩
  exact pairwise_insertionSort _ _

/-- Elements that are in the order of their keys are found in it. -/
theorem filter_sortBy (h : (l.filter p).Pairwise fun x y => key x < key y) :
    (sortBy key l).filter p = l.filter p := by
  have hnodup : ((l.filter p).map key).Nodup := pairwise_map.mpr (h.imp ne_of_lt)
  have hsorted : (l.filter p).Pairwise fun x y => key x ≤ key y := h.imp le_of_lt
  refine List.Perm.eq_of_pairwise (fun x y hx hy hxy hyx => ?_) (sortBy_sorted.filter p) hsorted
    (sortBy_perm.filter p)
  have hx' := (sortBy_perm.filter p).mem_iff.mp hx
  exact inj_on_of_nodup_map hnodup hx' hy (le_antisymm hxy hyx)

end Index

/-! ### Bounds -/

/-- The iterator to the first element that does not satisfy a predicate. -/
def bound (p : α → Bool) (l : List α) : List α := l.dropWhile p

/-- **A cut**: the predicate holds up to some element of the index, and not from there on. -/
def IsCut (p : α → Bool) (l : List α) : Prop := l.Pairwise fun x y => p y = true → p x = true

variable {p q : α → Bool} {l : List α}

/-- Behind the bound of a cut are the elements that do not satisfy it. -/
theorem bound_eq_filter (hp : IsCut p l) : bound p l = l.filter fun x => !p x := by
  rw [bound]
  induction l with
  | nil => rfl
  | cons x l ih =>
    obtain ⟨hx, hl⟩ := pairwise_cons.mp hp
    cases hpx : p x with
    | true =>
      rw [dropWhile_cons_of_pos hpx, filter_cons_of_neg (by rw [hpx]; decide), ih hl]
    | false =>
      have hall : (x :: l).filter (fun x => !p x) = x :: l := by
        refine filter_eq_self.mpr fun y hy => ?_
        rcases mem_cons.mp hy with rfl | hy
        · rw [hpx]
          rfl
        · cases hpy : p y with
          | true => exact absurd (hx y hy hpy) (by rw [hpx]; decide)
          | false => rfl
      rw [dropWhile_cons_of_neg (by rw [hpx]; decide), hall]

/-- **Between two bounds** are the elements that satisfy the second predicate and not the first. -/
theorem bound_eq_append (hp : IsCut p l) (hq : IsCut q l) (hpq : ∀ x ∈ l, p x = true → q x = true) :
    bound p l = (l.filter fun x => !p x && q x) ++ bound q l := by
  rw [bound_eq_filter hp, bound_eq_filter hq]
  induction l with
  | nil => rfl
  | cons x l ih =>
    obtain ⟨hpx, hpl⟩ := pairwise_cons.mp hp
    obtain ⟨hqx, hql⟩ := pairwise_cons.mp hq
    have ih := ih hpl hql fun y hy => hpq y (mem_cons_of_mem _ hy)
    cases hp' : p x with
    | true =>
      have hq' := hpq x mem_cons_self hp'
      rw [filter_cons_of_neg (by simp [hp']), filter_cons_of_neg (by simp [hp']),
        filter_cons_of_neg (by simp [hq']), ih]
    | false =>
      cases hq' : q x with
      | true =>
        rw [filter_cons_of_pos (by simp [hp']), filter_cons_of_pos (by simp [hp', hq']),
          filter_cons_of_neg (by simp [hq']), ih, cons_append]
      | false =>
        -- nothing from here on satisfies the second predicate, nor the first
        have hnone : ∀ y ∈ l, q y = false := fun y hy => by
          cases hqy : q y with
          | true => exact absurd (hqx y hy hqy) (by rw [hq']; decide)
          | false => rfl
        have hempty : (l.filter fun x => !p x && q x) = [] :=
          filter_eq_nil_iff.mpr fun y hy => by simp [hnone y hy]
        rw [filter_cons_of_pos (by simp [hp']), filter_cons_of_neg (by simp [hq']),
          filter_cons_of_pos (by simp [hq']), hempty, nil_append, ih, hempty,
          nil_append]

/-- The iterator to an element of an index is the bound of the keys below its own. -/
theorem bound_of_mem {κ : Type*} [LinearOrder κ] {key : α → κ} {a : α} (ha : a ∈ l)
    (hl : l.Pairwise fun x y => key x ≤ key y) (hkey : ∀ x ∈ l, key x = key a → x = a)
    (hp : ∀ x ∈ l, p x = true ↔ x ≠ a) : bound p l = bound (fun x => decide (key x < key a)) l := by
  rw [bound, bound]
  induction l with
  | nil => rfl
  | cons x l ih =>
    obtain ⟨hx, hl⟩ := pairwise_cons.mp hl
    by_cases hxa : x = a
    · have hpx : ¬ p x = true := fun h => (hp x mem_cons_self).mp h hxa
      rw [dropWhile_cons_of_neg hpx, dropWhile_cons_of_neg (by rw [hxa]; simp)]
    · have hal : a ∈ l := (mem_cons.mp ha).resolve_left (Ne.symm hxa)
      have hlt : key x < key a :=
        lt_of_le_of_ne (hx a hal) fun h => hxa (hkey x mem_cons_self h)
      rw [dropWhile_cons_of_pos ((hp x mem_cons_self).mpr hxa),
        dropWhile_cons_of_pos (p := fun x => decide (key x < key a)) (decide_eq_true hlt),
        ih hal hl (fun y hy => hkey y (mem_cons_of_mem _ hy))
          fun y hy => hp y (mem_cons_of_mem _ hy)]

/-! ### Walks -/

section Walks

variable (pastEnd : ε) (step : σ → α → Except ε σ) (stop : ℕ)

/-- **`while ( it != end )`**. -/
def walk : List α → σ → Except ε σ
  | [], s => if stop = 0 then .ok s else .error pastEnd
  | x :: l, s =>
    if stop = l.length + 1 then .ok s
    else
      match step s x with
      | .ok s => walk l s
      | .error f => .error f

/-- **`do … while ( it != end )`**: the first element is read before the end is looked for. -/
def doWalk : List α → σ → Except ε σ
  | [], _ => .error pastEnd
  | x :: l, s =>
    match step s x with
    | .ok s => walk pastEnd step stop l s
    | .error f => .error f

end Walks

variable {pastEnd : ε} {step : σ → α → Except ε σ} {stop : ℕ} {pre post : List α} {s : σ}

/-- **A walk goes over the elements of its range**, in their order, and over no others. -/
theorem walk_append : walk pastEnd step post.length (pre ++ post) s = pre.foldlM step s := by
  induction pre generalizing s with
  | nil =>
    cases post with
    | nil => rfl
    | cons x post => exact if_pos rfl
  | cons x pre ih =>
    have hne : post.length ≠ (pre ++ post).length + 1 := by
      rw [length_append]
      omega
    rw [cons_append, walk, if_neg hne, foldlM_cons]
    cases hstep : step s x with
    | ok s' => exact ih
    | error f => rfl

/-- **A walk that starts behind its end** does not come to an end without a fault. -/
theorem walk_behind (h : l.length < stop) (t : σ) : walk pastEnd step stop l s ≠ .ok t := by
  induction l generalizing s with
  | nil =>
    rw [walk, if_neg (by simp only [length_nil] at h; omega)]
    exact nofun
  | cons x l ih =>
    rw [length_cons] at h
    rw [walk, if_neg (by omega)]
    cases step s x with
    | ok s' => exact ih (by omega)
    | error f => exact nofun

/-- The other loop goes over the same elements, if there are any. -/
theorem doWalk_append (h : pre ≠ []) :
    doWalk pastEnd step post.length (pre ++ post) s = pre.foldlM step s := by
  cases pre with
  | nil => exact absurd rfl h
  | cons x pre =>
    rw [cons_append, doWalk, foldlM_cons]
    cases hstep : step s x with
    | ok s' => exact walk_append
    | error f => rfl

/-- **It faults on an empty range.** -/
theorem doWalk_empty (t : σ) : doWalk pastEnd step post.length post s ≠ .ok t := by
  cases post with
  | nil => exact nofun
  | cons x post =>
    rw [doWalk]
    cases step s x with
    | ok s' => exact walk_behind (by rw [length_cons]; omega) t
    | error f => exact nofun

end Walk

end Lib

end Flexus
