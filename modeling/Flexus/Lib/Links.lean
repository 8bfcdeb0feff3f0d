import Mathlib.Data.List.Nodup

/-!
# Two-sided links

Members point to the group they are in, and a group lists its members; a group that has lost
its last member goes away. Whoever changes one side has to change the other along with it.
`Flexus.Lib.TwoSided` says that the two sides agree, and the lemmas here are the changes that
keep them in agreement: a member joins a group, opens a new one, or members leave – one of
them, all of a group, or any that are picked by a test.
-/

namespace Flexus

open Function

namespace Lib

variable {κ ι : Type*}

/-- **The two sides agree**: a member points to a group exactly if the group lists it, and a
group lists at least one member and none of them twice. -/
structure TwoSided (up : κ → Option ι) (down : ι → Option (List κ)) : Prop where
  nonempty : ∀ a l, down a = some l → l ≠ []
  nodup : ∀ a l, down a = some l → l.Nodup
  agree : ∀ k a, up k = some a ↔ ∃ l, down a = some l ∧ k ∈ l

/-- The members of a group that stay when those that pass a test leave. -/
def survivors (leaves : κ → Bool) (l : List κ) : Option (List κ) :=
  let rest := l.filter fun k => !leaves k
  if rest.isEmpty then none else some rest

theorem survivors_eq_self {leaves : κ → Bool} {l : List κ} (hl : l ≠ [])
    (h : ∀ k ∈ l, leaves k = false) : survivors leaves l = some l := by
  have hf : (l.filter fun k => !leaves k) = l := by
    rw [List.filter_eq_self]
    intro k hk
    rw [h k hk]
    rfl
  simp only [survivors, hf]
  rw [if_neg]
  simpa using hl

namespace TwoSided

variable {up up' : κ → Option ι} {down down' : ι → Option (List κ)} {k : κ} {a : ι} {l : List κ}

theorem up_of_mem (h : TwoSided up down) (ha : down a = some l) (hk : k ∈ l) : up k = some a :=
  (h.agree k a).mpr ⟨l, ha, hk⟩

/-- **Members leave**, and with its last member a group goes away. -/
theorem leave (h : TwoSided up down) (leaves : κ → Bool)
    (hup : ∀ k, up' k = if leaves k then none else up k)
    (hdown : ∀ a, down' a = (down a).bind (survivors leaves)) : TwoSided up' down' := by
  -- A group that is left is one of the old ones, less those of its members that leave.
  have hsome : ∀ a l', down' a = some l' →
      ∃ l, down a = some l ∧ l' = l.filter (fun k => !leaves k) ∧ l' ≠ [] := by
    intro a l' ha
    rw [hdown, Option.bind_eq_some_iff] at ha
    obtain ⟨l, hl, hs⟩ := ha
    simp only [survivors] at hs
    split at hs
    · cases hs
    · rename_i hne
      cases hs
      exact ⟨l, hl, rfl, by simpa using hne⟩
  refine ⟨?_, ?_, ?_⟩
  · intro a l' ha
    obtain ⟨_, _, _, hne⟩ := hsome a l' ha
    exact hne
  · intro a l' ha
    obtain ⟨l, hl, rfl, _⟩ := hsome a l' ha
    exact (h.nodup a l hl).filter _
  · intro k a
    rw [hup]
    constructor
    · intro hk
      split at hk
      · cases hk
      · rename_i hstay
        obtain ⟨l, hl, hm⟩ := (h.agree k a).mp hk
        have hm' : k ∈ l.filter fun k => !leaves k := by simp [hm, hstay]
        refine ⟨_, ?_, hm'⟩
        rw [hdown, hl, Option.bind_some, survivors, if_neg]
        simpa using List.ne_nil_of_mem hm'
    · rintro ⟨l', hl', hm⟩
      obtain ⟨l, hl, rfl, _⟩ := hsome a l' hl'
      rw [List.mem_filter] at hm
      rw [if_neg (by simpa using hm.2)]
      exact h.up_of_mem hl hm.1

/-- Only the group of a member is changed when it leaves. -/
theorem survivors_of_ne [DecidableEq κ] (h : TwoSided up down) (hk : up k = some a) {b : ι}
    (hb : b ≠ a) : (down b).bind (survivors fun j => decide (j = k)) = down b := by
  cases hd : down b with
  | none => rfl
  | some l =>
    refine survivors_eq_self (h.nonempty b l hd) ?_
    intro j hj
    rw [decide_eq_false_iff_not]
    rintro rfl
    have := h.up_of_mem hd hj
    rw [hk] at this
    exact hb (Option.some.inj this).symm

/-- What is left of the group of a member that leaves. -/
theorem survivors_erase [DecidableEq κ] (h : TwoSided up down) (ha : down a = some l) :
    survivors (fun j => decide (j = k)) l =
      if (l.erase k).isEmpty then none else some (l.erase k) := by
  have hf : (l.filter fun j => !decide (j = k)) = l.erase k := by
    rw [(h.nodup a l ha).erase_eq_filter]
    refine List.filter_congr ?_
    intro j _
    by_cases hj : j = k <;> simp [hj]
  rw [survivors, hf]

/-- The members of a group, none if there is no such group. -/
theorem agree_getD (h : TwoSided up down) : up k = some a ↔ k ∈ (down a).getD [] := by
  rw [h.agree]
  cases down a with
  | none => simp
  | some l => simp

/-- **A member of no group joins one**, which is a new one if there is no such group. -/
theorem join [DecidableEq κ] [DecidableEq ι] (h : TwoSided up down) (hk : up k = none) :
    TwoSided (update up k (some a))
      (update down a (some ((down a).getD [] ++ [k]))) := by
  have hfree : ∀ b, k ∉ (down b).getD [] := by
    intro b hm
    rw [h.agree_getD.mpr hm] at hk
    cases hk
  refine ⟨?_, ?_, ?_⟩
  · intro b l' hb
    by_cases hba : b = a
    · subst hba
      rw [update_self] at hb
      cases hb
      simp
    · rw [update_of_ne hba] at hb
      exact h.nonempty b l' hb
  · intro b l' hb
    by_cases hba : b = a
    · subst hba
      rw [update_self] at hb
      cases hb
      refine List.nodup_append.mpr ⟨?_, List.nodup_singleton k, ?_⟩
      · cases hd : down b with
        | none => exact List.nodup_nil
        | some l => exact h.nodup b l hd
      · intro x hx y hy hxy
        rw [List.mem_singleton.mp hy] at hxy
        exact hfree b (hxy ▸ hx)
    · rw [update_of_ne hba] at hb
      exact h.nodup b l' hb
  · intro j b
    by_cases hba : b = a
    · subst hba
      simp only [update_self, Option.some.injEq, exists_eq_left', List.mem_append,
        List.mem_singleton]
      by_cases hj : j = k
      · simp [hj]
      · rw [update_of_ne hj, h.agree_getD]
        simp [hj]
    · rw [update_of_ne hba, ← h.agree]
      by_cases hj : j = k
      · subst hj
        rw [update_self, hk]
        simpa using fun h : a = b => hba h.symm
      · rw [update_of_ne hj]

end TwoSided

end Lib

end Flexus
