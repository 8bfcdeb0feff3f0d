import Mathlib.Data.Finset.Insert

/-!
# Sets of slots, and what they answer

A set of a cache keeps slots in the order of their use, least recently used first; a slot is a
key and a value, and the value says whether the slot is in use. A request names a key: it only
looks, or touches the slot of the key, or changes its value, or fills a slot with it. It is
answered by the value of the key, and by what was given up for it.

Two sets are alike (`Flexus.Lib.Slots.Alike`) if they answer all runs of requests in the same
way. Alike sets remain so (`Flexus.Lib.Slots.Alike.step`), so sets are told apart step by step:
a set with room for more is not alike to the same set with a slot that is not in use behind it,
unless it has room for a single slot only (`Flexus.Lib.Slots.alike_append_iff`).
-/

namespace Flexus

open List

namespace Lib

namespace Slots

variable {κ ν : Type*} [DecidableEq κ] (valid : ν → Bool) (inv : ν)

/-- What a request wants with its key. -/
inductive Op (ν : Type*)
  | look
  | touch
  | change (v : ν) (back front : Bool)
  | fill (v : ν)

/-- The value of a key. -/
def valueOf (r : List (κ × ν)) (a : κ) : ν := ((r.find? fun x => x.1 = a).map Prod.snd).getD inv

/-- The slot of a key becomes the most recently used. -/
def toBack (r : List (κ × ν)) (a : κ) : List (κ × ν) :=
  r.filter (fun x => x.1 ≠ a) ++ r.filter (fun x => x.1 = a)

/-- The slot of a key becomes the least recently used. -/
def toFront (r : List (κ × ν)) (a : κ) : List (κ × ν) :=
  r.filter (fun x => x.1 = a) ++ r.filter (fun x => x.1 ≠ a)

/-- The slot of a key gets another value. -/
def setValue (r : List (κ × ν)) (a : κ) (v : ν) : List (κ × ν) :=
  r.map fun x => if x.1 = a then (x.1, v) else x

/-- A new key gets a slot at the front while there is room. -/
def enter (n : ℕ) (r : List (κ × ν)) (a : κ) : List (κ × ν) :=
  if a ∈ r.map Prod.fst then r else if r.length < n then (a, inv) :: r else r

/-- What is given up with a slot. -/
def givenUp (x : κ × ν) : Option (κ × ν) := if valid x.2 then some x else none

/-- The slot of a key, or else the one at the front, is filled and becomes the most recently
used. -/
def fill (r : List (κ × ν)) (a : κ) (v : ν) : List (κ × ν) × Option (κ × ν) :=
  if a ∈ r.map Prod.fst then (toBack (setValue r a v) a, none)
  else
    match r with
    | [] => ([], none)
    | x :: r => (r ++ [(a, v)], givenUp valid x)

/-- **One request**: the slots after it, and the answer. -/
def apply (n : ℕ) (r : List (κ × ν)) (a : κ) (op : Op ν) :
    List (κ × ν) × ν × Option (κ × ν) :=
  let v := valueOf inv r a
  let r := enter inv n r a
  match op with
  | .look => (r, v, none)
  | .touch => (if valid v then toBack r a else r, v, none)
  | .change s back front =>
    (if valid v then
      if back then toBack (setValue r a s) a
      else if front then toFront (setValue r a s) a else setValue r a s
    else r, v, none)
  | .fill s => ((fill valid r a s).1, v, (fill valid r a s).2)

/-- The answers to a run of requests. -/
def answers (n : ℕ) (r : List (κ × ν)) : List (κ × Op ν) → List (ν × Option (κ × ν))
  | [] => []
  | x :: xs =>
    (apply valid inv n r x.1 x.2).2 :: answers n (apply valid inv n r x.1 x.2).1 xs

/-- **Two sets are alike** if they answer all runs of requests for their keys in the same
way. -/
def Alike (n : ℕ) (home : κ → Prop) (r r' : List (κ × ν)) : Prop :=
  ∀ xs : List (κ × Op ν), (∀ x ∈ xs, home x.1) →
    answers valid inv n r xs = answers valid inv n r' xs

variable {valid inv} {n : ℕ} {home : κ → Prop} {r r' : List (κ × ν)} {a : κ} {op : Op ν}

theorem Alike.refl : Alike valid inv n home r r := fun _ _ => rfl

theorem Alike.symm (h : Alike valid inv n home r r') : Alike valid inv n home r' r :=
  fun xs hxs => (h xs hxs).symm

/-- Alike sets give the same answer. -/
theorem Alike.answer (h : Alike valid inv n home r r') (ha : home a) (op : Op ν) :
    (apply valid inv n r a op).2 = (apply valid inv n r' a op).2 := by
  have h1 := h [(a, op)] fun x hx => by
    rw [mem_singleton.mp hx]
    exact ha
  exact (List.cons.inj h1).1

/-- **Alike sets remain alike.** -/
theorem Alike.step (h : Alike valid inv n home r r') (ha : home a) (op : Op ν) :
    Alike valid inv n home (apply valid inv n r a op).1 (apply valid inv n r' a op).1 := by
  intro xs hxs
  have h1 := h ((a, op) :: xs) fun x hx => by
    rcases mem_cons.mp hx with rfl | hx
    · exact ha
    · exact hxs x hx
  exact (List.cons.inj h1).2

/-- **Sets that stay in a relation which fixes their answers are alike.** -/
theorem alike_of_bisimulation (R : List (κ × ν) → List (κ × ν) → Prop)
    (hR : ∀ r r', R r r' → ∀ a op, home a → (apply valid inv n r a op).2 =
      (apply valid inv n r' a op).2 ∧
      R (apply valid inv n r a op).1 (apply valid inv n r' a op).1) (h : R r r') :
    Alike valid inv n home r r' := by
  intro xs hxs
  induction xs generalizing r r' with
  | nil => rfl
  | cons x xs ih =>
    obtain ⟨hans, hnext⟩ := hR r r' h x.1 x.2 (hxs x mem_cons_self)
    rw [answers, answers, hans, ih hnext fun y hy => hxs y (mem_cons_of_mem x hy)]

/-! ### Fresh keys -/

/-- Filling a fresh key while there is room gives nothing up. -/
theorem apply_fill_of_lt (ha : a ∉ r.map Prod.fst) (hlen : r.length < n) (v : ν) :
    (apply valid inv n r a (.fill v)).1 = r ++ [(a, v)] ∧
      (apply valid inv n r a (.fill v)).2.2 = none := by
  have hne : r.filter (fun x => x.1 ≠ a) = r := by
    refine filter_eq_self.mpr fun x hx => decide_eq_true fun hc => ha ?_
    exact mem_map.mpr ⟨x, hx, hc⟩
  have heq : r.filter (fun x => x.1 = a) = [] := by
    refine filter_eq_nil_iff.mpr fun x hx => ?_
    rw [decide_eq_true_eq]
    exact fun hc => ha (mem_map.mpr ⟨x, hx, hc⟩)
  have hset : setValue r a v = r := by
    rw [setValue]
    refine (map_congr_left fun x hx => if_neg fun hc => ha ?_).trans (map_id' r)
    exact mem_map.mpr ⟨x, hx, hc⟩
  have henter : enter inv n r a = (a, inv) :: r := by rw [enter, if_neg ha, if_pos hlen]
  have hfill : fill valid ((a, inv) :: r) a v = (r ++ [(a, v)], none) := by
    rw [fill, if_pos (mem_map.mpr ⟨(a, inv), mem_cons_self, rfl⟩)]
    have hset' : setValue ((a, inv) :: r) a v = (a, v) :: r := by
      rw [setValue, map_cons, if_pos rfl]
      exact congrArg _ hset
    rw [hset', toBack, filter_cons_of_neg (by simp), filter_cons_of_pos (by simp), hne, heq]
  dsimp only [apply]
  rw [henter, hfill]
  exact ⟨rfl, rfl⟩

/-- Filling a fresh key when the set is full gives up the slot at the front. -/
theorem apply_fill_of_le {x : κ × ν} (ha : a ∉ (x :: r).map Prod.fst)
    (hlen : n ≤ (x :: r).length) (v : ν) :
    (apply valid inv n (x :: r) a (.fill v)).1 = r ++ [(a, v)] ∧
      (apply valid inv n (x :: r) a (.fill v)).2.2 = givenUp valid x := by
  have henter : enter inv n (x :: r) a = x :: r := by
    rw [enter, if_neg ha, if_neg (by omega)]
  have hfill : fill valid (x :: r) a v = (r ++ [(a, v)], givenUp valid x) := by
    rw [fill, if_neg ha]
  dsimp only [apply]
  rw [henter, hfill]
  exact ⟨rfl, rfl⟩

/-- Filling a key that has a slot gives nothing up. -/
theorem apply_fill_of_mem (ha : a ∈ r.map Prod.fst) (v : ν) :
    (apply valid inv n r a (.fill v)).2.2 = none := by
  have henter : enter inv n r a = r := by rw [enter, if_pos ha]
  have hfill : (fill valid r a v).2 = none := by
    rw [fill.eq_def, if_pos ha]
  dsimp only [apply]
  rw [henter]
  exact hfill

/-- The slot at the back is moved to the front. -/
theorem apply_change_front {v : ν} (ha : a ∉ r.map Prod.fst) (hv : valid v = true) :
    (apply valid inv n (r ++ [(a, v)]) a (.change v false true)).1 = (a, v) :: r := by
  have hne : ∀ x ∈ r, x.1 ≠ a := fun x hx hc => ha (mem_map.mpr ⟨x, hx, hc⟩)
  have hmem : a ∈ (r ++ [(a, v)]).map Prod.fst := by simp
  have henter : enter inv n (r ++ [(a, v)]) a = r ++ [(a, v)] := by rw [enter, if_pos hmem]
  have hvalue : valueOf inv (r ++ [(a, v)]) a = v := by
    have hfind : r.find? (fun x => x.1 = a) = none :=
      find?_eq_none.mpr fun x hx => by simpa using hne x hx
    rw [valueOf, find?_append, hfind]
    simp
  have hset : setValue (r ++ [(a, v)]) a v = r ++ [(a, v)] := by
    have hr : r.map (fun x => if x.1 = a then (x.1, v) else x) = r :=
      (map_congr_left fun x hx => if_neg (hne x hx)).trans (map_id' r)
    rw [setValue, map_append, hr]
    simp
  have hfront : toFront (r ++ [(a, v)]) a = (a, v) :: r := by
    have h1 : r.filter (fun x => x.1 = a) = [] :=
      filter_eq_nil_iff.mpr fun x hx => by simpa using hne x hx
    have h2 : r.filter (fun x => x.1 ≠ a) = r :=
      filter_eq_self.mpr fun x hx => decide_eq_true (hne x hx)
    rw [toFront, filter_append, filter_append, h1, h2]
    simp
  dsimp only [apply]
  rw [henter, hvalue, if_pos hv, if_neg Bool.false_ne_true, if_pos rfl, hset, hfront]

/-! ### Telling sets apart -/

section Apart

variable {p : κ} {s : ν}

omit [DecidableEq κ] in
theorem givenUp_eq_none {x : κ × ν} (h : givenUp valid x = none) : valid x.2 = false := by
  rw [givenUp] at h
  split at h
  · cases h
  · rename_i hv
    exact Bool.eq_false_iff.mpr hv

/-- **Two full sets**, of which the one has a slot at its front and the other one behind: the
slots between are not in use. -/
theorem invalid_of_full (s : ν) (hfresh : ∀ l : List κ, ∃ a, home a ∧ a ∉ l) {u xs : List (κ × ν)}
    {e : κ × ν} (he : valid e.2 = false) (hlen : (e :: u ++ xs).length = n)
    (h : Alike valid inv n home (e :: u ++ xs) (u ++ (p, inv) :: xs)) :
    ∀ x ∈ u, valid x.2 = false := by
  induction u generalizing e xs with
  | nil => exact fun x hx => absurd hx not_mem_nil
  | cons x u ih =>
    obtain ⟨y, hy, hnew⟩ := hfresh ((e :: x :: u ++ xs).map Prod.fst ++
      (x :: u ++ (p, inv) :: xs).map Prod.fst)
    rw [mem_append, not_or] at hnew
    simp only [cons_append, length_cons, length_append] at hlen h hnew
    obtain ⟨hl, hlans⟩ := @apply_fill_of_le κ ν _ valid inv n _ _ _ hnew.1
      (by simp only [length_cons, length_append]; omega) s
    obtain ⟨hr, hrans⟩ := @apply_fill_of_le κ ν _ valid inv n _ _ _ hnew.2
      (by simp only [length_cons, length_append]; omega) s
    have hans := congrArg Prod.snd (h.answer hy (.fill s))
    rw [hlans, hrans, givenUp, he] at hans
    have hx : valid x.2 = false := givenUp_eq_none hans.symm
    have hnext := h.step hy (.fill s)
    rw [hl, hr] at hnext
    intro z hz
    rcases mem_cons.mp hz with rfl | hz
    · exact hx
    · refine @ih (xs ++ [(y, s)]) x hx ?_ ?_ z hz
      · simp only [cons_append, length_cons, length_append, length_nil]
        omega
      · simpa using hnext

/-- **A set with room for more, and the same set with a further slot**: if they are alike, no
slot before this one is in use. -/
theorem invalid_of_alike (s : ν) (hfresh : ∀ l : List κ, ∃ a, home a ∧ a ∉ l) {u xs : List (κ × ν)}
    {k : ℕ} (hlen : u.length + xs.length + k + 1 = n)
    (h : Alike valid inv n home (u ++ xs) (u ++ (p, inv) :: xs)) :
    ∀ x ∈ u, valid x.2 = false := by
  induction k generalizing xs with
  | zero =>
    cases u with
    | nil => exact fun x hx => absurd hx not_mem_nil
    | cons e u =>
      obtain ⟨y, hy, hnew⟩ := hfresh ((e :: u ++ xs).map Prod.fst ++
        (e :: u ++ (p, inv) :: xs).map Prod.fst)
      rw [mem_append, not_or] at hnew
      simp only [cons_append, length_cons] at hlen h hnew
      obtain ⟨hl, hlans⟩ := @apply_fill_of_lt κ ν _ valid inv n _ _ hnew.1
        (by simp only [length_cons, length_append]; omega) s
      obtain ⟨hr, hrans⟩ := @apply_fill_of_le κ ν _ valid inv n _ _ _ hnew.2
        (by simp only [length_cons, length_append]; omega) s
      have hans := congrArg Prod.snd (h.answer hy (.fill s))
      rw [hlans, hrans] at hans
      have he : valid e.2 = false := givenUp_eq_none hans.symm
      have hnext := h.step hy (.fill s)
      rw [hl, hr] at hnext
      intro z hz
      rcases mem_cons.mp hz with rfl | hz
      · exact he
      · refine @invalid_of_full κ ν _ valid inv n home p s hfresh u (xs ++ [(y, s)]) e he ?_ ?_ z hz
        · simp only [cons_append, length_cons, length_append, length_nil]
          omega
        · simpa using hnext
  | succ k ih =>
    obtain ⟨y, hy, hnew⟩ := hfresh ((u ++ xs).map Prod.fst ++
      (u ++ (p, inv) :: xs).map Prod.fst)
    rw [mem_append, not_or] at hnew
    obtain ⟨hl, -⟩ := @apply_fill_of_lt κ ν _ valid inv n _ _ hnew.1
      (by rw [length_append]; omega) s
    obtain ⟨hr, -⟩ := @apply_fill_of_lt κ ν _ valid inv n _ _ hnew.2
      (by rw [length_append, length_cons]; omega) s
    have hnext := h.step hy (.fill s)
    rw [hl, hr] at hnext
    refine @ih (xs ++ [(y, s)]) ?_ (by simpa using hnext)
    rw [length_append, length_singleton]
    omega

/-- **A set with room for more is not alike to the same set with a further slot.** -/
theorem not_alike_append (hfresh : ∀ l : List κ, ∃ a, home a ∧ a ∉ l) (hs : valid s = true)
    (hn : 1 < n) (hlen : r.length < n) (hhome : ∀ x ∈ r, home x.1)
    (hnodup : (r.map Prod.fst).Nodup) (hp : p ∉ r.map Prod.fst) :
    ¬Alike valid inv n home r (r ++ [(p, inv)]) := by
  intro h
  have hinvalid : ∀ {u : List (κ × ν)}, u.length < n →
      Alike valid inv n home u (u ++ [(p, inv)]) → ∀ x ∈ u, valid x.2 = false := by
    intro u hu hu'
    refine @invalid_of_alike κ ν _ valid inv n home p s hfresh u [] (n - u.length - 1) ?_ ?_
    · rw [length_nil]
      omega
    · rw [append_nil]
      exact hu'
  obtain ⟨A, hA, hnew⟩ := hfresh (r.map Prod.fst ++ [p])
  rw [mem_append, not_or, mem_singleton] at hnew
  have hright : A ∉ (r ++ [(p, inv)]).map Prod.fst := by
    rw [map_append, mem_append, not_or]
    exact ⟨hnew.1, fun hc => hnew.2 (mem_singleton.mp hc)⟩
  -- a key that is filled, and then made the least recently used
  have hfill := h.step hA (.fill s)
  rw [(apply_fill_of_lt hnew.1 hlen s).1] at hfill
  rcases Nat.lt_or_ge (r.length + 1) n with hroom | hfull
  · rw [(apply_fill_of_lt hright (by simpa using hroom) s).1] at hfill
    have hfront := hfill.step hA (.change s false true)
    rw [apply_change_front hnew.1 hs, apply_change_front hright hs] at hfront
    have := hinvalid (u := (A, s) :: r) hroom hfront _ mem_cons_self
    rw [hs] at this
    cases this
  · cases r with
    | nil =>
      rw [length_nil] at hfull
      omega
    | cons x t =>
      simp only [cons_append] at hright hfill
      have hout : A ∉ (t ++ [(p, inv)]).map Prod.fst := by
        rw [map_cons, mem_cons, not_or] at hright
        exact hright.2
      rw [(apply_fill_of_le hright (by simpa using hfull) s).1] at hfill
      have hfront := hfill.step hA (.change s false true)
      rw [← cons_append, apply_change_front hnew.1 hs, apply_change_front hout hs] at hfront
      -- the key of the slot that only the one set has
      have hans := congrArg Prod.snd (hfront.answer (hhome x mem_cons_self) (.fill s))
      have hne : x.1 ∉ ((A, s) :: (t ++ [(p, inv)])).map Prod.fst := by
        rw [map_cons, nodup_cons] at hnodup
        rw [map_cons, mem_cons] at hnew hp
        simp only [map_cons, map_append, mem_cons, mem_append, map_nil,
          not_mem_nil, or_false, not_or]
        exact ⟨fun hc => hnew.1 (.inl hc.symm), hnodup.1, fun hc => hp (.inl hc.symm)⟩
      rw [apply_fill_of_mem (by simp) s, (apply_fill_of_le hne (by simpa using hfull) s).2] at hans
      have := givenUp_eq_none hans.symm
      rw [hs] at this
      cases this

omit s in
/-- A single slot that is not in use answers as no slot does, and it is there afterwards. -/
theorem apply_single (hinv : valid inv = false) (hr : r = [] ∨ ∃ b, r = [(b, inv)]) (a : κ)
    (op : Op ν) : (apply valid inv 1 r a op).2 = (inv, none) ∧
      match op with
      | .fill v => (apply valid inv 1 r a op).1 = [(a, v)]
      | _ => ∃ c, (apply valid inv 1 r a op).1 = [(c, inv)] := by
  obtain ⟨b, henter, hvalue⟩ : ∃ b, enter inv 1 r a = [(b, inv)] ∧ valueOf inv r a = inv := by
    rcases hr with rfl | ⟨b, rfl⟩
    · exact ⟨a, rfl, rfl⟩
    · refine ⟨b, ?_, ?_⟩
      · rw [enter, if_neg (c := [(b, inv)].length < 1) (Nat.lt_irrefl 1), ite_self]
      · rw [valueOf, find?_cons]
        split <;> rfl
  have hnot : ¬valid inv = true := Bool.eq_false_iff.mp hinv
  cases op with
  | fill v =>
    have hfill : fill valid [(b, inv)] a v = ([(a, v)], none) := by
      by_cases hab : b = a
      · rw [fill.eq_def, if_pos (by simp [hab]), setValue, toBack]
        simp [hab]
      · rw [fill, if_neg (by simpa using fun hc => hab hc.symm), givenUp, if_neg hnot]
        rfl
    dsimp only [apply]
    rw [henter, hvalue, hfill]
    exact ⟨rfl, rfl⟩
  | _ =>
    dsimp only [apply]
    rw [henter, hvalue]
    simp [hnot]

/-- **A set for a single slot** does not tell whether the slot is there. -/
theorem alike_single (hinv : valid inv = false) :
    Alike valid inv 1 home [] [(p, inv)] := by
  refine alike_of_bisimulation (fun r r' => r = r' ∨
    ((r = [] ∨ ∃ b, r = [(b, inv)]) ∧ ∃ c, r' = [(c, inv)])) ?_ (.inr ⟨.inl rfl, p, rfl⟩)
  rintro r r' (rfl | ⟨hr, hr'⟩) a op _
  · exact ⟨rfl, .inl rfl⟩
  · obtain ⟨hans, hrow⟩ := apply_single hinv hr a op
    obtain ⟨hans', hrow'⟩ := apply_single hinv (.inr hr') a op
    refine ⟨hans.trans hans'.symm, ?_⟩
    cases op with
    | fill v => exact .inl (hrow.trans hrow'.symm)
    | _ => exact .inr ⟨.inr hrow, hrow'⟩

/-- **A set with room for more is alike to the same set with a further slot exactly if it is a
set for a single slot.** -/
theorem alike_append_iff (hfresh : ∀ l : List κ, ∃ a, home a ∧ a ∉ l) (hs : valid s = true)
    (hinv : valid inv = false) (hlen : r.length < n) (hhome : ∀ x ∈ r, home x.1)
    (hnodup : (r.map Prod.fst).Nodup) (hp : p ∉ r.map Prod.fst) :
    Alike valid inv n home r (r ++ [(p, inv)]) ↔ n = 1 := by
  constructor
  · intro h
    by_contra hn
    exact not_alike_append hfresh hs (by omega) hlen hhome hnodup hp h
  · rintro rfl
    rw [length_eq_zero_iff.mp (Nat.lt_one_iff.mp hlen)]
    exact alike_single hinv

end Apart

end Slots

end Lib

end Flexus
