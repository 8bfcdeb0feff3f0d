import Mathlib.Data.List.Nodup

/-!
# Sets that replace the least recently used

A set of a cache keeps slots in the order of their use, least recently used first: a slot
is a key and a value, and the value says whether the slot is in use. One use of a key
(`Flexus.Lib.Uses`) finds the key in a slot that is in use, or in one that is not, or takes
a new slot while there is room, or takes the slot at the front and gives up what is in it;
in all cases the slot ends up at the back.

Where all slots that are not in use are at the front, such a set is a plain list of
recently used keys (`Flexus.Lib.lruStep`) and what is given up does not depend on anything
else. Where they are not, two sets that hold the same can be told apart by what they give
up later. `Flexus.Lib.Replaces` says that a program consists of such sets.
-/

namespace Flexus

open Function List

namespace Lib

section Sets

variable {κ ν : Type*} (valid : ν → Prop) [DecidablePred valid]

/-- What is given up with a slot. -/
def givenUp (x : κ × ν) : Option (κ × ν) := if valid x.2 then some x else none

/-- **One use of a key** in a set of at most `n` slots, and what is given up for it. -/
inductive Uses (n : ℕ) (a : κ) (z : ν) :
    List (κ × ν) → List (κ × ν) → Option (κ × ν) → Prop
  | hit {p q : List (κ × ν)} {x : ν} (hx : valid x) :
      Uses n a z (p ++ (a, x) :: q) (p ++ q ++ [(a, x)]) none
  | refill {p q : List (κ × ν)} {x : ν} (hx : ∀ y, valid y → (a, y) ∉ p ++ (a, x) :: q) :
      Uses n a z (p ++ (a, x) :: q) (p ++ q ++ [(a, z)]) none
  | grow {l : List (κ × ν)} (hnew : a ∉ l.map Prod.fst) (hlen : l.length < n) :
      Uses n a z l (l ++ [(a, z)]) none
  | replace {x : κ × ν} {q : List (κ × ν)} (hnew : a ∉ (x :: q).map Prod.fst)
      (hlen : n ≤ (x :: q).length) : Uses n a z (x :: q) (q ++ [(a, z)]) (givenUp valid x)

variable {valid} {n : ℕ} {a : κ} {z : ν} {l l' : List (κ × ν)} {v : Option (κ × ν)}

/-! ### Keys that are there, and keys that are not -/

omit [DecidablePred valid] in
/-- A key that is there once. -/
theorem filter_of_nodup [DecidableEq κ] {p q : List (κ × ν)} {x : ν}
    (h : ((p ++ (a, x) :: q).map Prod.fst).Nodup) :
    (p ++ (a, x) :: q).filter (fun y => y.1 ≠ a) = p ++ q ∧
      (p ++ (a, x) :: q).filter (fun y => y.1 = a) = [(a, x)] := by
  rw [map_append, map_cons, nodup_middle, nodup_cons, ← map_append] at h
  have hall : ∀ y ∈ p ++ q, y.1 ≠ a := by
    intro y hy hya
    exact h.1 (mem_map.mpr ⟨y, hy, hya⟩)
  have hne : (p ++ q).filter (fun y => y.1 ≠ a) = p ++ q :=
    filter_eq_self.mpr fun y hy => by simpa using hall y hy
  have heq : (p ++ q).filter (fun y => y.1 = a) = [] :=
    filter_eq_nil_iff.mpr fun y hy => by simpa using hall y hy
  rw [filter_append, append_eq_nil_iff] at heq
  constructor
  · rw [filter_append, filter_cons_of_neg (by simp), ← filter_append, hne]
  · rw [filter_append, filter_cons_of_pos (by simp), heq.1, heq.2]
    rfl

/-- The use of a key that is there. -/
theorem Uses.touch [DecidableEq κ] (h : Uses valid n a z l l' v)
    (hl : (l.map Prod.fst).Nodup) (ha : a ∈ l.map Prod.fst) :
    v = none ∧ (l'.map Prod.fst).Perm (l.map Prod.fst) ∧
      ∃ y, l' = l.filter (fun x => x.1 ≠ a) ++ [(a, y)] := by
  have hperm : ∀ (p q : List (κ × ν)) (x y : ν),
      ((p ++ q ++ [(a, y)]).map Prod.fst).Perm ((p ++ (a, x) :: q).map Prod.fst) := by
    intro p q x y
    simp only [map_append, map_cons, map_nil]
    exact (perm_append_singleton a _).trans perm_middle.symm
  cases h with
  | hit hx => exact ⟨rfl, hperm _ _ _ _, _, by rw [(filter_of_nodup hl).1]⟩
  | refill hx => exact ⟨rfl, hperm _ _ _ _, z, by rw [(filter_of_nodup hl).1]⟩
  | grow hnew => exact absurd ha hnew
  | replace hnew => exact absurd ha hnew

/-- The use of a new key while there is room. -/
theorem Uses.fresh_of_lt (h : Uses valid n a z l l' v) (ha : a ∉ l.map Prod.fst)
    (hl : l.length < n) : v = none ∧ l' = l ++ [(a, z)] := by
  cases h with
  | hit hx => simp at ha
  | refill hx => simp at ha
  | grow => exact ⟨rfl, rfl⟩
  | replace hnew hlen => omega

/-- The use of a new key when the set is full. -/
theorem Uses.fresh_of_le (h : Uses valid n a z l l' v) (ha : a ∉ l.map Prod.fst)
    (hl : n ≤ l.length) : ∃ x q, l = x :: q ∧ l' = q ++ [(a, z)] ∧ v = givenUp valid x := by
  cases h with
  | hit hx => simp at ha
  | refill hx => simp at ha
  | grow hnew hlen => omega
  | replace => exact ⟨_, _, rfl, rfl, rfl⟩

/-! ### Sets in order -/

/-- **A plain list of recently used keys**: one use, and what is given up. -/
def lruStep [DecidableEq κ] (n : ℕ) (w : List (κ × ν)) (a : κ) (z : ν) :
    List (κ × ν) × Option (κ × ν) :=
  if a ∈ w.map Prod.fst then (w.filter (fun x => x.1 ≠ a) ++ w.filter (fun x => x.1 = a), none)
  else if w.length < n then (w ++ [(a, z)], none)
  else (w.tail ++ [(a, z)], w.head?)

variable (valid) in
/-- **A set in order**: what is not in use comes first. -/
structure Ordered (n : ℕ) (l w : List (κ × ν)) : Prop where
  split : ∃ free, l = free ++ w ∧ ∀ x ∈ free, ¬ valid x.2
  valid : ∀ x ∈ w, valid x.2
  nodup : (w.map Prod.fst).Nodup
  length_le : l.length ≤ n

omit [DecidablePred valid] in
/-- A slot in use of a set in order is one of the list. -/
theorem split_of_valid {p q free w : List (κ × ν)} {x : κ × ν}
    (h : p ++ x :: q = free ++ w) (hfree : ∀ y ∈ free, ¬ valid y.2) (hx : valid x.2) :
    ∃ r, p = free ++ r ∧ w = r ++ x :: q := by
  rcases append_eq_append_iff.mp h with ⟨r, hf, hr⟩ | ⟨r, hp, hw⟩
  · cases r with
    | nil =>
      refine ⟨[], ?_, ?_⟩
      · simpa using hf.symm
      · simpa using hr.symm
    | cons y r =>
      obtain ⟨rfl, -⟩ := List.cons.inj hr
      refine absurd hx (hfree x ?_)
      rw [hf]
      simp
  · exact ⟨r, hp, hw⟩

omit [DecidablePred valid] in
/-- A slot that is not in use of a set in order is not one of the list. -/
theorem split_of_not_valid {p q free w : List (κ × ν)} {x : κ × ν}
    (h : p ++ x :: q = free ++ w) (hw : ∀ y ∈ w, valid y.2) (hx : ¬ valid x.2) :
    ∃ r, free = p ++ x :: r ∧ q = r ++ w := by
  rcases append_eq_append_iff.mp h with ⟨r, hf, hr⟩ | ⟨r, hp, hw'⟩
  · cases r with
    | nil =>
      refine absurd (hw x ?_) hx
      have : x :: q = w := by simpa using hr
      rw [← this]
      exact mem_cons_self
    | cons y r =>
      obtain ⟨rfl, hq⟩ := List.cons.inj hr
      exact ⟨r, hf, hq⟩
  · refine absurd (hw x ?_) hx
    rw [hw']
    simp

omit [DecidablePred valid] in
theorem valid_append_singleton {w : List (κ × ν)} (h : ∀ x ∈ w, valid x.2) (hz : valid z) :
    ∀ x ∈ w ++ [(a, z)], valid x.2 := by
  intro x hx
  rcases mem_append.mp hx with hx | hx
  · exact h x hx
  · rw [mem_singleton.mp hx]
    exact hz

omit [DecidablePred valid] in
theorem nodup_append_singleton {w : List (κ × ν)} (h : (w.map Prod.fst).Nodup)
    (ha : a ∉ w.map Prod.fst) : ((w ++ [(a, z)]).map Prod.fst).Nodup := by
  rw [map_append]
  refine nodup_append.mpr ⟨h, nodup_singleton _, fun x hx y hy hxy => ha ?_⟩
  have hya : y = a := mem_singleton.mp hy
  rwa [← hya, ← hxy]

/-- **One use of a set in order** is one of the list. -/
theorem Ordered.uses [DecidableEq κ] {w : List (κ × ν)} (h : Ordered valid n l w) (hz : valid z)
    (hu : Uses valid n a z l l' v) :
    Ordered valid n l' (lruStep n w a z).1 ∧ v = (lruStep n w a z).2 := by
  obtain ⟨⟨free, hl, hfree⟩, hvalid, hnodup, hlen⟩ := h
  cases hu with
  | @hit p q x hx =>
    obtain ⟨r, rfl, rfl⟩ := split_of_valid hl hfree hx
    have hmem : a ∈ (r ++ (a, x) :: q).map Prod.fst := by simp
    rw [lruStep, if_pos hmem, (filter_of_nodup hnodup).1, (filter_of_nodup hnodup).2]
    refine ⟨⟨⟨free, by simp, hfree⟩, fun y hy => hvalid y ?_, ?_, ?_⟩, rfl⟩
    · simp only [mem_append, mem_cons, not_mem_nil, or_false] at hy ⊢
      tauto
    · rw [map_append, map_cons, nodup_middle] at hnodup
      rw [map_append, map_append, nodup_append_comm]
      exact hnodup
    · simp only [length_append, length_cons, length_nil] at hlen ⊢
      omega
  | @refill p q x hx =>
    have hinvalid : ¬ valid x := fun hv => hx x hv (by simp)
    obtain ⟨r, rfl, rfl⟩ := split_of_not_valid hl hvalid hinvalid
    have hnew : a ∉ w.map Prod.fst := by
      intro ha
      obtain ⟨y, hy, rfl⟩ := mem_map.mp ha
      exact hx y.2 (hvalid y hy) (by simp [hy])
    have hlt : w.length < n := by
      simp only [length_append, length_cons] at hlen
      omega
    rw [lruStep, if_neg hnew, if_pos hlt]
    refine ⟨⟨⟨p ++ r, by simp, fun y hy => hfree y ?_⟩, ?_, ?_, ?_⟩, rfl⟩
    · simp only [mem_append, mem_cons] at hy ⊢
      tauto
    · exact fun y hy => valid_append_singleton hvalid hz y hy
    · exact nodup_append_singleton hnodup hnew
    · simp only [length_append, length_cons, length_nil] at hlen ⊢
      omega
  | grow hnew hlt =>
    have hnew' : a ∉ w.map Prod.fst := fun ha => hnew (by
      rw [hl, map_append]
      exact mem_append_right _ ha)
    have hlt' : w.length < n := by
      rw [hl, length_append] at hlt
      omega
    rw [lruStep, if_neg hnew', if_pos hlt']
    refine ⟨⟨⟨free, by rw [hl, append_assoc], hfree⟩, ?_, ?_, ?_⟩, rfl⟩
    · exact fun y hy => valid_append_singleton hvalid hz y hy
    · exact nodup_append_singleton hnodup hnew'
    · rw [length_append]
      exact hlt
  | @replace x q hnew hfull =>
    have hnew' : a ∉ w.map Prod.fst := fun ha => hnew (by
      rw [hl, map_append]
      exact mem_append_right _ ha)
    have hlen' : (q ++ [(a, z)]).length ≤ n := by
      simpa using hlen
    cases free with
    | nil =>
      -- nothing is free, and the slot at the front is the least recently used
      have hw : w = x :: q := by simpa using hl.symm
      subst hw
      rw [lruStep, if_neg hnew', if_neg (by omega)]
      refine ⟨⟨⟨[], rfl, nofun⟩, ?_, ?_, hlen'⟩, ?_⟩
      · exact fun y hy => valid_append_singleton
          (fun y hy => hvalid y (mem_cons_of_mem _ hy)) hz y hy
      · refine nodup_append_singleton (nodup_cons.mp hnodup).2 fun ha => hnew' ?_
        exact mem_cons_of_mem _ ha
      · exact if_pos (hvalid x mem_cons_self)
    | cons y free =>
      obtain ⟨rfl, hq⟩ := List.cons.inj hl
      have hlt : w.length < n := by
        rw [length_cons, hq, append_eq, length_append] at hlen
        omega
      rw [lruStep, if_neg hnew', if_pos hlt]
      refine ⟨⟨⟨free, ?_, fun y hy => hfree y (mem_cons_of_mem _ hy)⟩, ?_, ?_, hlen'⟩, ?_⟩
      · rw [hq, append_eq, append_assoc]
      · exact fun y hy => valid_append_singleton hvalid hz y hy
      · exact nodup_append_singleton hnodup hnew'
      · exact if_neg (hfree x mem_cons_self)

end Sets

/-! ### Caches of such sets -/

section Caches

variable {σ α ι κ : Type*}

/-- What the accesses of a run return. -/
def trace {β : Type*} (access : σ → α → Option (σ × β)) : σ → List α → Option (List β)
  | _, [] => some []
  | s, x :: xs =>
    match access s x with
    | none => none
    | some (s', b) => (trace access s' xs).map (b :: ·)

theorem trace_cons {β : Type*} {access : σ → α → Option (σ × β)} {s s' : σ} {x : α} {b : β}
    (h : access s x = some (s', b)) (xs : List α) :
    trace access s (x :: xs) = (trace access s' xs).map (b :: ·) := by
  rw [trace, h]

variable [DecidableEq ι] [DecidableEq κ]

/-- **A program that consists of such sets**: while it is good, an access is one use of its
key in the set of the key and returns the key that is given up; the other sets are left
alone, and the program stays good. -/
structure Replaces (n : ℕ) (key : α → κ) (home : κ → ι) (good : σ → Prop)
    (recency : σ → ι → List (κ × Bool)) (access : σ → α → Option (σ × Option κ)) : Prop where
  uses : ∀ s x, good s → ∃ s' l' v, access s x = some (s', v.map Prod.fst) ∧ good s' ∧
    Uses (· = true) n (key x) true (recency s (home (key x))) l' v ∧
      recency s' = update (recency s) (home (key x)) l'

variable {n : ℕ} {key : α → κ} {home : κ → ι} {good : σ → Prop}
  {recency : σ → ι → List (κ × Bool)} {access : σ → α → Option (σ × Option κ)} {s : σ} {i : ι}

variable (n key home) in
/-- One access to plain lists of recently used keys. -/
def lruAccess (w : ι → List (κ × Bool)) (x : α) : (ι → List (κ × Bool)) × Option κ :=
  let r := lruStep n (w (home (key x))) (key x) true
  (update w (home (key x)) r.1, r.2.map Prod.fst)

variable (n key home) in
/-- **What plain lists of recently used keys give up.** -/
def lruTrace : (ι → List (κ × Bool)) → List α → List (Option κ)
  | _, [] => []
  | w, x :: xs =>
    (lruAccess n key home w x).2 :: lruTrace (lruAccess n key home w x).1 xs

/-- **A cache whose sets are in order** gives up what the plain lists give up. -/
theorem Replaces.trace_of_ordered (h : Replaces n key home good recency access)
    {w : ι → List (κ × Bool)} (hs : good s)
    (hw : ∀ i, Ordered (· = true) n (recency s i) (w i)) (xs : List α) :
    trace access s xs = some (lruTrace n key home w xs) := by
  induction xs generalizing s w with
  | nil => rfl
  | cons x xs ih =>
    obtain ⟨s', l', v, hacc, hs', hu, hr⟩ := h.uses s x hs
    obtain ⟨hord, rfl⟩ := (hw (home (key x))).uses rfl hu
    rw [trace_cons hacc, ih (w := (lruAccess n key home w x).1) hs']
    · rfl
    · intro j
      rw [hr]
      dsimp only [lruAccess]
      by_cases hj : j = home (key x)
      · subst hj
        rw [update_self, update_self]
        exact hord
      · rw [update_of_ne hj, update_of_ne hj]
        exact hw j

omit [DecidableEq κ] in
/-- One access to a set. -/
theorem Replaces.uses_home (h : Replaces n key home good recency access) (hs : good s) {x : α}
    (hx : home (key x) = i) : ∃ s' v, access s x = some (s', v.map Prod.fst) ∧ good s' ∧
      Uses (· = true) n (key x) true (recency s i) (recency s' i) v := by
  obtain ⟨s', l', v, hacc, hs', hu, hr⟩ := h.uses s x hs
  refine ⟨s', v, hacc, hs', ?_⟩
  rw [hr, ← hx, update_self]
  exact hu

/-- **Keys that are there are touched**: what is not touched keeps its order, in front. -/
theorem Replaces.trace_touch (h : Replaces n key home good recency access) (hs : good s)
    (hl : ((recency s i).map Prod.fst).Nodup) (xs : List α)
    (hxs : ∀ x ∈ xs, home (key x) = i ∧ key x ∈ (recency s i).map Prod.fst) :
    ∃ s' r, good s' ∧ recency s' i = (recency s i).filter (fun y => y.1 ∉ xs.map key) ++ r ∧
      ((recency s' i).map Prod.fst).Perm ((recency s i).map Prod.fst) ∧
      ∀ ys, trace access s (xs ++ ys) =
        (trace access s' ys).map (List.replicate xs.length none ++ ·) := by
  induction xs generalizing s with
  | nil =>
    refine ⟨s, [], hs, ?_, List.Perm.refl _, fun ys => ?_⟩
    · simp
    · simp
  | cons x xs ih =>
    obtain ⟨hx, hmem⟩ := hxs x mem_cons_self
    obtain ⟨s₁, v, hacc, hs₁, hu⟩ := h.uses_home hs hx
    obtain ⟨rfl, hperm, y, hr⟩ := hu.touch hl hmem
    obtain ⟨s', r, hs', hr', hperm', htr⟩ := ih hs₁ (hperm.symm.nodup hl) (by
      intro x' hx'
      obtain ⟨h₁, h₂⟩ := hxs x' (mem_cons_of_mem _ hx')
      exact ⟨h₁, hperm.symm.subset h₂⟩)
    refine ⟨s', [(key x, y)].filter (fun y => y.1 ∉ xs.map key) ++ r, hs', ?_,
      hperm'.trans hperm, fun ys => ?_⟩
    · rw [hr', hr, filter_append, filter_filter, append_assoc]
      congr 1
      refine filter_congr fun y _ => ?_
      rw [Bool.eq_iff_iff]
      simp only [map_cons, mem_cons, Bool.and_eq_true, decide_eq_true_eq]
      tauto
    · rw [cons_append, trace_cons hacc, htr, Option.map_map]
      rfl

/-- **The key given up after some touches** is the first that was not touched. -/
theorem Replaces.trace_touch_fresh (h : Replaces n key home good recency access) (hs : good s)
    (hl : ((recency s i).map Prod.fst).Nodup) (hn : n ≤ (recency s i).length) {xs : List α}
    (hxs : ∀ x ∈ xs, home (key x) = i ∧ key x ∈ (recency s i).map Prod.fst) {y : α}
    (hy : home (key y) = i) (hnew : key y ∉ (recency s i).map Prod.fst) {x : κ × Bool}
    {q : List (κ × Bool)}
    (hq : (recency s i).filter (fun y => y.1 ∉ xs.map key) = x :: q) :
    trace access s (xs ++ [y]) =
      some (List.replicate xs.length none ++ [(givenUp (· = true) x).map Prod.fst]) := by
  obtain ⟨s₁, r, hs₁, hr, hperm, htr⟩ := h.trace_touch hs hl xs hxs
  obtain ⟨s₂, v, hacc, -, hu⟩ := h.uses_home hs₁ hy
  have hlen : (recency s₁ i).length = (recency s i).length := by
    simpa using hperm.length_eq
  obtain ⟨x', q', hx', -, rfl⟩ := hu.fresh_of_le (fun hc => hnew (hperm.subset hc)) (by omega)
  rw [hr, hq, cons_append, List.cons.injEq] at hx'
  rw [htr, trace_cons hacc, hx'.1]
  rfl

omit [DecidableEq κ] in
/-- **New keys while there is room**: nothing is given up while the new keys and the slots
behind the free ones fit. -/
theorem Replaces.trace_fresh_none (h : Replaces n key home good recency access) (hs : good s)
    {free rest : List (κ × Bool)} (hr : recency s i = free ++ rest)
    (hfree : ∀ x ∈ free, x.2 = false) (xs : List α) (hhome : ∀ x ∈ xs, home (key x) = i)
    (hnodup : (xs.map key).Nodup)
    (hnew : ∀ x ∈ xs, key x ∉ (recency s i).map Prod.fst) (hroom : xs.length + rest.length ≤ n) :
    trace access s xs = some (List.replicate xs.length none) := by
  induction xs generalizing s free rest with
  | nil => rfl
  | cons x xs ih =>
    obtain ⟨s', v, hacc, hs', hu⟩ := h.uses_home hs (hhome x mem_cons_self)
    have hx := hnew x mem_cons_self
    rw [map_cons, nodup_cons] at hnodup
    rw [length_cons] at hroom
    have hlater : ∀ l, (∀ k ∈ l, k ∈ (recency s i).map Prod.fst) →
        ∀ x' ∈ xs, key x' ∉ l ++ [key x] := by
      intro l hsub x' hx' hc
      rcases mem_append.mp hc with hc | hc
      · exact hnew x' (mem_cons_of_mem _ hx') (hsub _ hc)
      · exact hnodup.1 (mem_singleton.mp hc ▸ mem_map_of_mem hx')
    have hhome' : ∀ x' ∈ xs, home (key x') = i :=
      fun x' hx' => hhome x' (mem_cons_of_mem _ hx')
    by_cases hlt : (recency s i).length < n
    · obtain ⟨rfl, hr'⟩ := hu.fresh_of_lt hx hlt
      have hsplit : recency s' i = free ++ (rest ++ [(key x, true)]) := by
        rw [hr', hr, append_assoc]
      rw [trace_cons hacc, ih hs' hsplit hfree hhome' hnodup.2]
      · rfl
      · rw [hr', map_append]
        exact hlater _ fun k hk => hk
      · rw [length_append, length_singleton]
        omega
    · obtain ⟨y, q, hl, hr', rfl⟩ := hu.fresh_of_le hx (by omega)
      -- the set is full and what is behind the free slots is not all of it
      obtain ⟨y', free', rfl⟩ : ∃ y' free', free = y' :: free' := by
        refine exists_cons_of_ne_nil fun hc => ?_
        rw [hr, hc, nil_append] at hlt
        omega
      rw [hr, cons_append, List.cons.injEq] at hl
      obtain ⟨rfl, rfl⟩ := hl
      have hy : givenUp (· = true) y' = none := if_neg (by simp [hfree y' mem_cons_self])
      have hsplit : recency s' i = free' ++ (rest ++ [(key x, true)]) := by
        rw [hr', append_assoc]
      rw [trace_cons hacc, hy, ih hs' hsplit (fun z hz => hfree z (mem_cons_of_mem _ hz))
        hhome' hnodup.2]
      · rfl
      · rw [hr', map_append]
        refine hlater _ fun k hk => ?_
        rw [hr, cons_append, map_cons]
        exact mem_cons_of_mem _ hk
      · rw [length_append, length_singleton]
        omega

omit [DecidableEq κ] in
/-- **New keys when the set is full**: when the free slots in front are used up, the first
slot in use is given up. -/
theorem Replaces.trace_fresh_some (h : Replaces n key home good recency access) (hs : good s)
    {free q : List (κ × Bool)} {k : κ} (hr : recency s i = free ++ (k, true) :: q)
    (hfree : ∀ x ∈ free, x.2 = false) (hn : n ≤ (recency s i).length) (xs : List α)
    (hhome : ∀ x ∈ xs, home (key x) = i) (hnodup : (xs.map key).Nodup)
    (hnew : ∀ x ∈ xs, key x ∉ (recency s i).map Prod.fst) (hlen : xs.length = free.length + 1) :
    trace access s xs = some (List.replicate free.length none ++ [some k]) := by
  induction xs generalizing s free q with
  | nil => simp at hlen
  | cons x xs ih =>
    obtain ⟨s', v, hacc, hs', hu⟩ := h.uses_home hs (hhome x mem_cons_self)
    obtain ⟨y, r, hl, hr', rfl⟩ := hu.fresh_of_le (hnew x mem_cons_self) hn
    rw [map_cons, nodup_cons] at hnodup
    cases free with
    | nil =>
      obtain rfl : xs = [] := by simpa using hlen
      rw [hr, nil_append, List.cons.injEq] at hl
      rw [trace_cons hacc, ← hl.1]
      rfl
    | cons y' free =>
      rw [hr, cons_append, List.cons.injEq] at hl
      obtain ⟨rfl, rfl⟩ := hl
      have hy : givenUp (· = true) y' = none := if_neg (by simp [hfree y' mem_cons_self])
      have hsplit : recency s' i = free ++ (k, true) :: (q ++ [(key x, true)]) := by
        rw [hr', append_assoc, cons_append]
      rw [trace_cons hacc, hy, ih hs' hsplit (fun z hz => hfree z (mem_cons_of_mem _ hz))]
      · rfl
      · rw [hr, cons_append, length_cons] at hn
        rw [hr', length_append, length_singleton]
        omega
      · exact fun x' hx' => hhome x' (mem_cons_of_mem _ hx')
      · exact hnodup.2
      · intro x' hx' hc
        rw [hr', map_append, mem_append] at hc
        rcases hc with hc | hc
        · refine hnew x' (mem_cons_of_mem _ hx') ?_
          rw [hr, cons_append, map_cons]
          exact mem_cons_of_mem _ hc
        · have hk : key x' = key x := mem_singleton.mp hc
          exact hnodup.1 (hk ▸ mem_map_of_mem hx')
      · simpa using hlen

end Caches

end Lib

end Flexus
