import Mathlib.Data.List.Basic

/-!
# Reading back what was written

An archive is the list of the values that were written to it, in order. A *reader* takes what
it wants from the front of such a list, and fails if the list is too short or what comes is
not acceptable. A loop reads one item for each index of a list (`Flexus.Lib.readAll`); if every
single value is converted back, it reads back what a loop wrote, whatever follows it
(`Flexus.Lib.readAll_readMap`).
-/

namespace Flexus

namespace Lib

variable {ω α ι : Type*}

/-- **A reader** of an archive: a value, and what is left of the archive. -/
abbrev Reader (ω α : Type*) := List ω → Option (α × List ω)

/-- Reading one item for each index. -/
def readAll (read : ι → Reader ω α) : List ι → Reader ω (List α)
  | [], bs => some ([], bs)
  | i :: is, bs => do
    let (a, bs) ← read i bs
    let (as, bs) ← readAll read is bs
    pure (a :: as, bs)

/-- A value that is converted after it was read. -/
def readMap (f : ω → Option α) : Reader ω α
  | [] => none
  | b :: bs => (f b).map fun a => (a, bs)

/-- **Single values are read back** one by one, whatever follows them. -/
theorem readAll_readMap {f : ω → Option α} {bs : List ω} {as : List α}
    (h : List.Forall₂ (fun b a => f b = some a) bs as) (is : List ι) (hlen : is.length = bs.length)
    (rest : List ω) : readAll (fun _ => readMap f) is (bs ++ rest) = some (as, rest) := by
  induction h generalizing is with
  | nil =>
    rw [List.length_eq_zero_iff.mp hlen]
    rfl
  | @cons b a bs as hb _ ih =>
    cases is with
    | nil => cases hlen
    | cons i is =>
      rw [List.cons_append, readAll, readMap, hb]
      simp only [Option.map_some, Option.bind_eq_bind, Option.bind_some, ih is (Nat.succ.inj hlen)]
      rfl

/-- A loop that converts values, item by item. -/
theorem forall₂_of_mapM {β : Type*} {k : α → Option β} {xs : List α} {ys : List β}
    (h : xs.mapM k = some ys) : List.Forall₂ (fun x y => k x = some y) xs ys := by
  induction xs generalizing ys with
  | nil =>
    cases h
    exact .nil
  | cons x xs ih =>
    rw [List.mapM_cons] at h
    cases hx : k x with
    | none =>
      rw [hx] at h
      cases h
    | some y =>
      rw [hx] at h
      cases hys : xs.mapM k with
      | none =>
        rw [hys] at h
        cases h
      | some ys' =>
        rw [hys] at h
        cases h
        exact .cons hx (ih hys)

end Lib

end Flexus
