import Mathlib.Data.List.Nodup
import Mathlib.Data.Int.Notation
import Mathlib.Order.Basic

/-!
# Orders of use

The keys of a list are used one after the other: a key that is *touched* goes to the back, and a key
that is new, or that is *given up*, goes to the front. What has become of a history of such uses is
one list (`Flexus.Lib.order`).

The list needs no history to be told from: it is sorted by the time of the last use of a key, which
counts as negative if the key went to the front (`Flexus.Lib.order_sorted`). The key at the front is
thus the one that was given up last, or the least recently used one if none was.
-/

namespace Flexus

namespace Lib

/-- A use of a key. -/
inductive Use (κ : Type*)
  | front (k : κ)
  | back (k : κ)
  deriving DecidableEq

variable {κ : Type*}

/-- The key that is used. -/
def Use.key : Use κ → κ
  | .front k | .back k => k

variable [DecidableEq κ]

/-- **What a use does**: the key goes to its end, and the others keep their order. -/
def place (l : List κ) : Use κ → List κ
  | .front k => k :: l.filter (· ≠ k)
  | .back k => l.filter (· ≠ k) ++ [k]

/-- **The order of a history**, the last use of which comes first. -/
def order : List (Use κ) → List κ
  | [] => []
  | u :: h => place (order h) u

/-- **The time of the last use** of a key, negative if the key went to the front. -/
def stamp : List (Use κ) → κ → ℤ
  | [], _ => 0
  | .front k :: h, j => if k = j then -(h.length + 1) else stamp h j
  | .back k :: h, j => if k = j then h.length + 1 else stamp h j

theorem stamp_cons_of_ne {u : Use κ} {h : List (Use κ)} {j : κ} (hj : j ≠ u.key) :
    stamp (u :: h) j = stamp h j := by
  rcases u with k | k
  · exact if_neg (Ne.symm hj)
  · exact if_neg (Ne.symm hj)

/-- Uses are counted. -/
theorem stamp_bounds (h : List (Use κ)) (j : κ) : -h.length ≤ stamp h j ∧ stamp h j ≤ h.length := by
  induction h with
  | nil =>
    rw [stamp, List.length_nil]
    omega
  | cons u h ih =>
    rw [List.length_cons]
    rcases u with k | k
    · rw [stamp]
      split <;> omega
    · rw [stamp]
      split <;> omega

/-- **The order is that of the last uses.** -/
theorem order_sorted (h : List (Use κ)) :
    (order h).Pairwise fun i j => stamp h i < stamp h j := by
  induction h with
  | nil => exact .nil
  | cons u h ih =>
    have hkeep : ((order h).filter (· ≠ u.key)).Pairwise
        fun i j => stamp (u :: h) i < stamp (u :: h) j := by
      refine (ih.filter _).imp_of_mem fun {i j} hi hj hij => ?_
      rw [stamp_cons_of_ne (of_decide_eq_true (List.mem_filter.mp hi).2),
        stamp_cons_of_ne (of_decide_eq_true (List.mem_filter.mp hj).2)]
      exact hij
    have hothers : ∀ j ∈ (order h).filter (· ≠ u.key),
        -(h.length + 1 : ℤ) < stamp (u :: h) j ∧ stamp (u :: h) j < h.length + 1 := by
      intro j hj
      have hb := stamp_bounds h j
      rw [stamp_cons_of_ne (of_decide_eq_true (List.mem_filter.mp hj).2)]
      omega
    rcases u with k | k
    · refine List.pairwise_cons.mpr ⟨fun j hj => ?_, hkeep⟩
      rw [stamp, if_pos rfl]
      exact (hothers j hj).1
    · refine List.pairwise_append.mpr ⟨hkeep, List.pairwise_singleton _ _, fun i hi j hj => ?_⟩
      obtain rfl := List.mem_singleton.mp hj
      have hnew : stamp (Use.back j :: h) j = h.length + 1 := if_pos rfl
      rw [hnew]
      exact (hothers i hi).2

/-- **The key at the front** was used before all others. -/
theorem stamp_head_lt {h : List (Use κ)} {k j : κ} (hk : (order h).head? = some k)
    (hj : j ∈ order h) (hne : j ≠ k) : stamp h k < stamp h j := by
  obtain ⟨l, hl⟩ := List.head?_eq_some_iff.mp hk
  have hsorted := order_sorted h
  rw [hl, List.pairwise_cons] at hsorted
  rw [hl] at hj
  rcases List.mem_cons.mp hj with hj | hj
  · exact absurd hj hne
  · exact hsorted.1 j hj

/-! ### Lists that are kept in order of use -/

/-- **A list is in order of last use**, each of its elements being used under its key. -/
def InOrder {β : Type*} (key : β → κ) (h : List (Use κ)) (l : List β) : Prop :=
  l.Pairwise fun x y => stamp h (key x) < stamp h (key y)

namespace InOrder

variable {β : Type*} {key : β → κ} {h : List (Use κ)} {l l' : List β} {k : κ}

theorem nil : InOrder key h [] := List.Pairwise.nil

theorem sublist (hl : InOrder key h l) (hs : l'.Sublist l) : InOrder key h l' :=
  List.Pairwise.sublist hs hl

/-- Something else is used. -/
theorem other (hl : InOrder key h l) (hk : ∀ x ∈ l, key x ≠ k) :
    InOrder key (.back k :: h) l := by
  refine List.Pairwise.imp_of_mem (fun hx hy hlt => ?_) hl
  rw [stamp_cons_of_ne (hk _ hx), stamp_cons_of_ne (hk _ hy)]
  exact hlt

/-- **What is used goes to the end.** -/
theorem concat (hl : InOrder key h l) {x : β} (hx : key x = k) (hk : ∀ y ∈ l, key y ≠ k) :
    InOrder key (.back k :: h) (l ++ [x]) := by
  refine List.pairwise_append.mpr ⟨hl.other hk, List.pairwise_singleton _ _, fun y hy z hz => ?_⟩
  have hnew : stamp (Use.back k :: h) k = h.length + 1 := if_pos rfl
  have hle := (stamp_bounds h (key y)).2
  rw [List.mem_singleton.mp hz, hx, stamp_cons_of_ne (hk y hy), hnew]
  omega

end InOrder

end Lib

end Flexus
