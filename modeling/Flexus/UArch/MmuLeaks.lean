import Flexus.UArch.Checkpoints

/-!
# The MMUs that a reset leaves behind

A checkpoint of the core and the MMU saved with it live in two containers. `createCheckpoint` and
`freeCheckpoint` touch both, and an abort drops as many of the one as of the other. A reset does
not: `CoreImpl::reset` empties `theCheckpoints`, and `resyncMMU`, which is called next, reads the
MMU anew but leaves the queue of the saved ones alone.

What is left behind stays. No operation gives it back, so that the queue is longer than
`theCheckpoints` by all the checkpoints that were live at some reset. The two have the same length
throughout a run if and only if no reset of the run finds a live checkpoint.
-/

namespace Flexus

namespace UArch

namespace SpecCore

variable {μ : Type} {s t : SpecCore μ}

/-- **No saved MMU is left behind**: there are as many as there are live checkpoints. -/
def Balanced (s : SpecCore μ) : Prop := s.theMMUckpts.length = s.theCheckpoints.length

instance (s : SpecCore μ) : Decidable s.Balanced :=
  inferInstanceAs (Decidable (s.theMMUckpts.length = s.theCheckpoints.length))

/-- The saved MMUs that no live checkpoint stands for. -/
def leaked (s : SpecCore μ) : ℕ := s.theMMUckpts.length - s.theCheckpoints.length

/-- What an event adds to them. -/
def leak (s : SpecCore μ) : SpecEvent μ → ℕ
  | .reset _ => s.theCheckpoints.length
  | _ => 0

/-- **No checkpoint is lost**: a reset finds none. This is so whenever the core does not
speculate. -/
def KeepsCheckpoints (s : SpecCore μ) (e : SpecEvent μ) : Prop :=
  ∀ mmu, e = .reset mmu → s.theCheckpoints = []

theorem keepsCheckpoints_iff {e : SpecEvent μ} : s.KeepsCheckpoints e ↔ s.leak e = 0 := by
  cases e with
  | reset mmu =>
    exact ⟨fun h => List.length_eq_zero_iff.mpr (h mmu rfl),
      fun h _ _ => List.length_eq_zero_iff.mp h⟩
  | retire gap checkpoint => exact ⟨fun _ => rfl, fun _ _ he => nomatch he⟩
  | commit => exact ⟨fun _ => rfl, fun _ _ he => nomatch he⟩
  | writeMMU mmu => exact ⟨fun _ => rfl, fun _ _ he => nomatch he⟩
  | abort violating => exact ⟨fun _ => rfl, fun _ _ he => nomatch he⟩

namespace Sound

theorem length_le (h : s.Sound) : s.theCheckpoints.length ≤ s.theMMUckpts.length := by
  have := h.saved.length_le
  rwa [List.length_map] at this

theorem balanced_iff (h : s.Sound) : s.Balanced ↔ s.leaked = 0 := by
  have := h.length_le
  rw [Balanced, leaked]
  omega

/-- The live checkpoints are counted in the retirement buffer. -/
theorem length_checkpoints (h : s.Sound) :
    s.theCheckpoints.length = s.theSRB.countP SrbEntry.theHasCheckpoint := by
  have := congrArg List.length h.keys
  rwa [List.length_map, List.length_map, ← List.countP_eq_length_filter] at this

end Sound

/-- What a commit takes from the retirement buffer and from the queue. -/
theorem commit_cases (h : s.commit = .ok t) : s.theSRB = [] ∧ t = s ∨
    ∃ x rest, s.theSRB = x :: rest ∧ t.theSRB = rest ∧
      t.theMMUckpts.length + (if x.theHasCheckpoint then 1 else 0) = s.theMMUckpts.length := by
  rw [commit] at h
  cases hsrb : s.theSRB with
  | nil =>
    rw [hsrb] at h
    cases h
    exact .inl ⟨rfl, rfl⟩
  | cons x rest =>
    refine .inr ⟨x, rest, rfl, ?_⟩
    rw [hsrb] at h
    dsimp only at h
    by_cases hx : x.theHasCheckpoint = true
    · rw [if_pos hx, freeCheckpoint] at h
      split at h
      · rw [releaseMMUCkpt] at h
        dsimp only at h
        cases hq : s.theMMUckpts with
        | nil =>
          rw [hq] at h
          cases h
        | cons m ms =>
          rw [hq] at h
          cases h
          rw [if_pos hx]
          exact ⟨rfl, rfl⟩
      · cases h
    · rw [if_neg hx] at h
      cases h
      rw [if_neg hx]
      exact ⟨rfl, rfl⟩

/-- **What a step leaves behind**: nothing, unless it is a reset, which leaves the MMUs of the live
checkpoints. What was left behind before stays. -/
theorem Sound.leaked_step {e : SpecEvent μ} (h : s.Sound) (ht : t.Sound)
    (he : s.step e = .ok t) : t.leaked = s.leaked + s.leak e := by
  have hle := h.length_le
  cases e with
  | retire gap checkpoint =>
    cases he
    cases checkpoint with
    | false => rfl
    | true =>
      show (s.theMMUckpts ++ [s.theMMU]).length -
        (s.theCheckpoints ++ [(s.nextSequenceNo + gap, s.theMMU)]).length = s.leaked
      rw [List.length_append, List.length_append, List.length_singleton, List.length_singleton,
        Nat.add_sub_add_right, leaked]
  | commit =>
    have hcount := h.length_checkpoints
    have hcount' := ht.length_checkpoints
    rcases commit_cases he with ⟨-, rfl⟩ | ⟨x, rest, hsrb, hsrb', hq⟩
    · rfl
    · rw [hsrb, List.countP_cons] at hcount
      rw [hsrb'] at hcount'
      show t.leaked = s.leaked
      rw [leaked, leaked, hcount, hcount', ← hq]
      omega
  | writeMMU mmu =>
    cases he
    rfl
  | abort violating =>
    by_cases hv : violating ∈ s.theSRB.map SrbEntry.theSequenceNo
    · cases hy : s.youngestCheckpoint violating with
      | none =>
        have herr : s.step (.abort violating) = .error .checkpoint := h.abort_none hv hy
        rw [herr] at he
        cases he
      | some p =>
        obtain ⟨u, hu, -, hbalance, -⟩ := h.abort_some hv hy
        have hok : s.step (.abort violating) = .ok u := hu
        rw [hok] at he
        cases he
        have := ht.length_le
        show t.leaked = s.leaked
        rw [leaked, leaked]
        omega
    · have herr : s.step (.abort violating) = .error .notInSRB := abort_of_not_mem hv
      rw [herr] at he
      cases he
  | reset mmu =>
    cases he
    show s.theMMUckpts.length - 0 = s.leaked + s.theCheckpoints.length
    rw [leaked]
    omega

theorem Sound.of_step {e : SpecEvent μ} (h : s.Sound) (he : s.step e = .ok t) : t.Sound := by
  rcases h.step e with ⟨u, hu, hsound⟩ | ⟨v, -, ⟨-, herr⟩ | ⟨-, herr⟩⟩
  · rw [hu] at he
    cases he
    exact hsound
  · rw [herr] at he
    cases he
  · rw [herr] at he
    cases he

theorem keepsCheckpoints_of_error {e : SpecEvent μ} {f : SpecFault} (he : s.step e = .error f) :
    s.KeepsCheckpoints e := by
  rintro mmu rfl
  cases he

end SpecCore

/-- A checkpoint is created, and the core is reset. -/
def resetWhileSpeculating : List (SpecEvent ℕ) := [.retire 0 true, .reset 10]

/-- The MMU of the checkpoint is then in the queue, and there is no checkpoint. -/
theorem resetWhileSpeculating_leaks :
    ¬ ∀ s, (specMachine 9).Reachable s → s.Balanced := by
  intro h
  have hend : (specMachine 9).endsIn (fun s => !decide s.Balanced) resetWhileSpeculating = true := by
    decide
  obtain ⟨s, hs, htest⟩ := Lib.Machine.exists_of_endsIn hend
  rw [Bool.not_eq_true', decide_eq_false_iff_not] at htest
  exact htest (h s (Lib.Machine.reachable_of_run hs))

/-- **When no saved MMU is left behind**: in every run, the queue of the saved MMUs is as long as
`theCheckpoints` in all the states the run leads through if and only if every reset of the run finds
no live checkpoint. -/
theorem specMachine_balanced_iff {μ : Type} (mmu : μ) (es : List (SpecEvent μ)) :
    (specMachine mmu).AlwaysFrom SpecCore.Balanced (specMachine mmu).init es ↔
      (specMachine mmu).AllowedFrom SpecCore.KeepsCheckpoints (specMachine mmu).init es := by
  have hinit : (specMachine mmu).init.Sound := specMachine_sound Lib.Machine.ReachableWhen.init
  have hI : ∀ (s : SpecCore μ) e t, s.Sound → (specMachine mmu).step s e = .ok t → t.Sound :=
    fun s e t hs ht => hs.of_step ht
  refine Lib.Machine.alwaysFrom_iff hI (fun s e t hs hP ht => ?_)
    (fun s e f _ hf => SpecCore.keepsCheckpoints_of_error hf) hinit rfl
  have hsound := hI s e t hs ht
  have hleak := hs.leaked_step hsound ht
  rw [hs.balanced_iff] at hP
  rw [hsound.balanced_iff, hleak, hP, Nat.zero_add, SpecCore.keepsCheckpoints_iff]

end UArch

end Flexus
