import Flexus.FastCache.AbstractCache
import Flexus.Lib.Outcome

/-!
# Invalid entries are used first

The arrays of the functional caches do not look for an invalid entry when they need room: they
take the entry at the front of the order of use. So the invalid entries have to be in front
(`Flexus.BlockSet.InvalidFirst`). An invalidation moves its entry there, and a request moves its
entry, which is valid then, to the back.
-/

namespace Flexus

open Lib List

/-! ### The order of a set -/

namespace BlockSet

/-- **The invalid entries of a set are in front**: what is behind a valid entry is valid. -/
def InvalidFirst (l : BlockSet) : Prop :=
  l.Pairwise fun d e => d.state ≠ .invalid → e.state ≠ .invalid

variable {l : BlockSet} {b : BlockEntry} {w : ℕ} {z : CoherenceState}

theorem InvalidFirst.of_front (h : InvalidFirst (b :: l)) (hb : b.state ≠ .invalid) :
    ∀ d ∈ b :: l, d.state ≠ .invalid := by
  intro d hd
  rcases mem_cons.mp hd with rfl | hd
  · exact hb
  · exact rel_of_pairwise_cons h hd hb

theorem invalidFirst_of_valid (h : ∀ d ∈ l, d.state ≠ .invalid) : l.InvalidFirst :=
  pairwise_of_forall_mem_list fun _ _ e he _ => h e he

theorem InvalidFirst.cons (h : l.InvalidFirst) (hb : b.state = .invalid) :
    InvalidFirst (b :: l) :=
  pairwise_cons.mpr ⟨fun _ _ hv => absurd hb hv, h⟩

theorem InvalidFirst.concat (h : l.InvalidFirst) (hb : b.state ≠ .invalid) :
    InvalidFirst (l ++ [b]) := by
  refine pairwise_append.mpr ⟨h, pairwise_singleton _ _, fun d _ e he _ => ?_⟩
  rw [mem_singleton.mp he]
  exact hb

/-- A change of the entry in a way does not show in the others. -/
theorem filter_map_way {f : BlockEntry → BlockEntry} (hf : ∀ d, (f d).way = d.way) (l : BlockSet)
    (w : ℕ) : (l.map fun d => if d.way = w then f d else d).filter (fun d => d.way ≠ w) =
      l.filter fun d => d.way ≠ w := by
  induction l with
  | nil => rfl
  | cons d l ih =>
    rw [map_cons]
    by_cases hd : d.way = w
    · rw [if_pos hd, filter_cons_of_neg (by simp [hf, hd]), filter_cons_of_neg (by simp [hd]), ih]
    · rw [if_neg hd, filter_cons_of_pos (by simp [hd]), filter_cons_of_pos (by simp [hd]), ih]

theorem of_mem_map_way (P : BlockEntry → Prop) {f : BlockEntry → BlockEntry}
    (hv : ∀ d ∈ l, d.way = w → P (f d)) {e : BlockEntry}
    (he : e ∈ (l.map fun d => if d.way = w then f d else d).filter fun d => d.way = w) : P e := by
  obtain ⟨he, hw⟩ := mem_filter.mp he
  obtain ⟨d, hd, rfl⟩ := mem_map.mp he
  by_cases h : d.way = w
  · rw [if_pos h]
    exact hv d hd h
  · rw [if_neg h] at hw
    exact absurd (of_decide_eq_true hw) h

/-- **An entry that is valid now goes to the back.** -/
theorem InvalidFirst.toTail_map {f : BlockEntry → BlockEntry} (hf : ∀ d, (f d).way = d.way)
    (h : l.InvalidFirst) (hv : ∀ d ∈ l, d.way = w → (f d).state ≠ .invalid) :
    InvalidFirst (toTail (l.map fun d => if d.way = w then f d else d) w) := by
  rw [toTail, filter_map_way hf]
  refine pairwise_append.mpr ⟨h.sublist filter_sublist, ?_, ?_⟩
  · exact invalidFirst_of_valid fun d hd => of_mem_map_way (fun e => e.state ≠ .invalid) hv hd
  · exact fun _ _ e he _ => of_mem_map_way (fun e => e.state ≠ .invalid) hv he

/-- **An entry that is invalid now goes to the front.** -/
theorem InvalidFirst.toHead_map {f : BlockEntry → BlockEntry} (hf : ∀ d, (f d).way = d.way)
    (h : l.InvalidFirst) (hv : ∀ d ∈ l, d.way = w → (f d).state = .invalid) :
    InvalidFirst (toHead (l.map fun d => if d.way = w then f d else d) w) := by
  rw [toHead, filter_map_way hf]
  refine pairwise_append.mpr ⟨?_, h.sublist filter_sublist, ?_⟩
  · exact pairwise_of_forall_mem_list fun d hd _ _ hd' =>
      absurd (of_mem_map_way (fun e => e.state = .invalid) hv hd) hd'
  · exact fun d hd _ _ hd' =>
      absurd (of_mem_map_way (fun e => e.state = .invalid) hv hd) hd'

theorem InvalidFirst.toTail (h : l.InvalidFirst) (hv : ∀ d ∈ l, d.way = w → d.state ≠ .invalid) :
    InvalidFirst (l.toTail w) := by
  have h' := h.toTail_map (w := w) (f := id) (fun _ => rfl) hv
  simpa only [id, ite_self, map_id'] using h'

theorem InvalidFirst.changeBlockState (h : l.InvalidFirst) (hz : z ≠ .invalid)
    (hv : ∀ d ∈ l, d.way = w → d.state ≠ .invalid) : InvalidFirst (l.changeBlockState w z) := by
  have hiff : ∀ d ∈ l, (if d.way = w then { d with state := z } else d).state ≠ .invalid ↔
      d.state ≠ .invalid := by
    intro d hd
    by_cases hw : d.way = w
    · rw [if_pos hw]
      exact iff_of_true hz (hv d hd hw)
    · rw [if_neg hw]
  refine pairwise_map.mpr (h.imp_of_mem fun hd he hde hd' => ?_)
  exact (hiff _ he).mpr (hde ((hiff _ hd).mp hd'))

theorem InvalidFirst.toHead_valid (hz : z ≠ .invalid) (hv : ∀ d ∈ l, d.state ≠ .invalid) :
    InvalidFirst ((l.changeBlockState w z).toHead w) := by
  refine invalidFirst_of_valid fun e he => ?_
  obtain ⟨d, hd, rfl⟩ := mem_map.mp ((toHead_perm _ _).mem_iff.mp he)
  split
  · exact hz
  · exact hv d hd

end BlockSet

namespace FastCache

open MemoryMessageType

/-! ### What the tables select -/

/-- **A snoop that leaves a valid block at the front**: a downgrade and, if the configuration says
so, a read, of a block that is held exclusively. -/
def MovesValid (cfg : Config) (z : CoherenceState) (type : MemoryMessageType) : Prop :=
  (z = .modified ∨ z = .exclusive) ∧ (type = downgrade ∨ type = returnReq ∧ cfg.snoopLRU = true)

/-- A request uses a block without asking below only if the block is valid. -/
theorem valid_of_requestAction {t : Bool} {z : CoherenceState} {access : Access} {al : Bool}
    {n : NState} {response : Response}
    (ha : InclusiveMESI.requestAction t z access = some (.action .sendNone al n true response)) :
    z ≠ .invalid := by
  rintro rfl
  cases t <;> cases access <;> cases ha

/-- A request leaves its block valid and most recently used, if it does anything to it. -/
theorem requestEffect_spec {t : Bool} {z : CoherenceState} {access : Access} {a : RequestAction}
    {type answer : MemoryMessageType} {effect : ArrayEffect}
    (ha : InclusiveMESI.requestAction t z access = some a)
    (he : requestEffect type answer a = .ok effect) :
    effect = .keep ∨ (effect = .updateLRU ∧ z ≠ .invalid ∧ a.sends = false) ∨
      (∃ z', effect = .changeState z' true false ∧ z' ≠ .invalid) ∨
      ∃ z', effect = .allocate z' ∧ z' ≠ .invalid := by
  have hallocate : ∀ z', effect = .allocate z' → z' ≠ .invalid → effect = .keep ∨
      (effect = .updateLRU ∧ z ≠ .invalid ∧ a.sends = false) ∨
      (∃ z', effect = .changeState z' true false ∧ z' ≠ .invalid) ∨
      ∃ z', effect = .allocate z' ∧ z' ≠ .invalid := fun z' h hz =>
    .inr (.inr (.inr ⟨z', h, hz⟩))
  rw [requestEffect.eq_def] at he
  split at he
  case h_1 | h_20 =>
    cases he
    exact .inl rfl
  case h_2 | h_4 | h_6 | h_8 =>
    cases he
    exact .inr (.inl ⟨rfl, valid_of_requestAction ha, rfl⟩)
  case h_3 =>
    split at he
    · cases he
      exact .inr (.inl ⟨rfl, valid_of_requestAction ha, rfl⟩)
    · cases he
      exact .inr (.inr (.inl ⟨_, rfl, by decide⟩))
  case h_5 | h_7 | h_9 | h_10 | h_11 | h_12 | h_13 | h_14 =>
    cases he
    exact .inr (.inr (.inl ⟨_, rfl, by decide⟩))
  case h_15 =>
    split at he
    case h_3 =>
      cases he
      refine hallocate _ rfl ?_
      split <;> decide
    case h_5 => cases he
    all_goals
      cases he
      exact hallocate _ rfl (by decide)
  case h_16 | h_17 | h_18 =>
    cases he
    exact hallocate _ rfl (by decide)
  case h_19 =>
    cases he
    refine hallocate _ rfl ?_
    split <;> decide
  case h_21 => cases he

theorem snoopEffect_spec {cfg : Config} {z : CoherenceState} {type answer : MemoryMessageType}
    {a : SnoopAction} {effect : ArrayEffect}
    (ha : InclusiveMESI.snoopAction cfg.snoopLRU z type = some a)
    (he : snoopEffect answer a = .ok effect) :
    effect = .keep ∨ z ≠ .invalid ∧ (effect = .changeState .invalid false true ∨
      ∃ z', z' ≠ .invalid ∧ (effect = .changeState z' false false ∨
        effect = .changeState z' false true ∧ MovesValid cfg z type)) := by
  rw [InclusiveMESI.snoopAction.eq_def] at ha
  split at ha
  case h_13 => cases ha
  case h_3 | h_4 | h_8 | h_11 | h_12 =>
    cases ha
    cases he
    exact .inl rfl
  case h_5 | h_6 | h_7 =>
    cases ha
    cases he
    exact .inr ⟨nofun, .inl rfl⟩
  case h_1 | h_2 =>
    cases ha
    cases he
    refine .inr ⟨nofun, .inr ⟨.shared, nofun, ?_⟩⟩
    cases hlru : cfg.snoopLRU with
    | false => exact .inl rfl
    | true => exact .inr ⟨rfl, by simp [MovesValid, hlru]⟩
  case h_9 | h_10 =>
    cases ha
    cases he
    exact .inr ⟨nofun, .inr ⟨.shared, nofun, .inr ⟨rfl, by simp [MovesValid]⟩⟩⟩

/-! ### Runs -/

namespace AbstractCache

variable {σ ρ φ : Type} (A : AbstractCache σ ρ φ) (cfg : Config)

/-- **A valid block would go ahead of an invalid entry** of its set. -/
def PutsAhead (s : σ) (x : SnoopEvent) : Prop :=
  ∃ s' r, A.lookup s x.message.address = .ok (s', r) ∧
    MovesValid cfg (A.getState s' r) x.message.type ∧ ∃ d ∈ A.blocks s' r, d.state = .invalid

/-- None of the snoops puts a valid block ahead. -/
def NoneAhead : σ → List SnoopEvent → Prop
  | _, [] => True
  | s, x :: xs => ¬ A.PutsAhead cfg s x ∧ ∀ t, A.snoopIn cfg s x = .ok t → NoneAhead t xs

/-- **The events whose snoops put no valid block ahead** of an invalid entry. -/
def Orderly (s : σ) : CacheEvent → Prop
  | .request m during _ => ∀ access s' r a, message2access m.type = .ok access →
    A.lookup s m.address = .ok (s', r) →
    InclusiveMESI.requestAction cfg.usingTraces (A.getState s' r) access = some a →
    A.NoneAhead cfg s' (if a.sends then during else [])
  | .snoop x => ¬ A.PutsAhead cfg s x

/-- **What an array does to keep its invalid entries in front.** Only the order of a valid entry is
ever changed, and it goes to the back or becomes invalid, or else the set has no invalid entry. -/
structure KeepsInvalidFirst (I : σ → Prop) : Prop where
  lookup {s s' : σ} {r : ρ} {a : ℕ} : I s → A.lookup s a = .ok (s', r) → I s'
  updateLRU {s s' t : σ} {r : ρ} {a : ℕ} : I s → A.lookup s a = .ok (s', r) →
    A.getState s' r ≠ .invalid → A.updateLRU s' r = .ok t → I t
  changeInPlace {s s' t : σ} {r : ρ} {a : ℕ} {z : CoherenceState} : I s →
    A.lookup s a = .ok (s', r) → A.getState s' r ≠ .invalid → z ≠ .invalid →
    A.changeState s' r z false false = .ok t → I t
  makeMRU {s t : σ} {r : ρ} {z : CoherenceState} : I s → z ≠ .invalid →
    A.changeState s r z true false = .ok t → I t
  invalidate {s t : σ} {r : ρ} : I s → A.changeState s r .invalid false true = .ok t → I t
  makeLRU {s t : σ} {r : ρ} {z : CoherenceState} : I s → (∀ d ∈ A.blocks s r, d.state ≠ .invalid) →
    z ≠ .invalid → A.changeState s r z false true = .ok t → I t
  allocate {s t : σ} {r : ρ} {z : CoherenceState} : I s → z ≠ .invalid →
    A.allocate s r z = .ok t → I t

variable {A cfg} {I : σ → Prop} {s t : σ} {m : MemoryMessage} {during : List SnoopEvent}
  {answer : MemoryMessageType}

theorem snoopIn_cases {x : SnoopEvent} (h : A.snoopIn cfg s x = .ok t) :
    ∃ s' r a effect u q, A.lookup s x.message.address = .ok (s', r) ∧
      InclusiveMESI.snoopAction cfg.snoopLRU (A.getState s' r) x.message.type = some a ∧
      snoopEffect x.answer a = .ok effect ∧ A.apply s' r effect = .ok u ∧
      A.lookup u x.message.address = .ok (t, q) := by
  obtain ⟨⟨s', r⟩, hl, h⟩ := exists_of_bind_eq_ok h
  cases ha : InclusiveMESI.snoopAction cfg.snoopLRU (A.getState s' r) x.message.type with
  | none =>
    simp only [ha] at h
    cases h
  | some a =>
    simp only [ha] at h
    obtain ⟨effect, he, h⟩ := exists_of_bind_eq_ok h
    obtain ⟨u, hu, h⟩ := exists_of_bind_eq_ok h
    obtain ⟨⟨t', q⟩, hl', h⟩ := exists_of_bind_eq_ok h
    cases h
    exact ⟨s', r, a, effect, u, q, hl, ha, of_mapError_eq_ok he, hu, hl'⟩

/-- What a request that the cache below has answered has done. -/
theorem answered_cases {s₁ s₂ : σ} {r : ρ} {a : RequestAction}
    (h : A.answered cfg s m during = .ok (s₁, s₂, r, a)) :
    ∃ access, message2access m.type = .ok access ∧ A.lookup s m.address = .ok (s₁, r) ∧
      InclusiveMESI.requestAction cfg.usingTraces (A.getState s₁ r) access = some a ∧
      A.snoopsIn cfg s₁ (if a.sends then during else []) = .ok s₂ := by
  obtain ⟨access, hm, h⟩ := exists_of_bind_eq_ok h
  obtain ⟨⟨s', q⟩, hl, h⟩ := exists_of_bind_eq_ok h
  cases ha : InclusiveMESI.requestAction cfg.usingTraces (A.getState s' q) access with
  | none =>
    simp only [ha] at h
    cases h
  | some b =>
    simp only [ha] at h
    obtain ⟨u, hu, h⟩ := exists_of_bind_eq_ok h
    cases h
    exact ⟨access, of_mapError_eq_ok hm, hl, ha, hu⟩

theorem requestIn_cases (h : A.requestIn cfg s m during answer = .ok t) :
    ∃ s₁ s₂ r a effect, A.answered cfg s m during = .ok (s₁, s₂, r, a) ∧
      requestEffect m.type answer a = .ok effect ∧ A.apply s₂ r effect = .ok t := by
  obtain ⟨⟨s₁, s₂, r, a⟩, hans, h⟩ := exists_of_bind_eq_ok h
  obtain ⟨effect, he, h⟩ := exists_of_bind_eq_ok h
  exact ⟨s₁, s₂, r, a, effect, hans, of_mapError_eq_ok he, h⟩

theorem evictedFor_cases {e : CacheEvent} {v : Eviction} (h : A.evictedFor cfg s e = some v) :
    ∃ m during answer s₁ s₂ r a, e = .request m during answer ∧
      A.answered cfg s m during = .ok (s₁, s₂, r, a) ∧ A.replaced s₁ s₂ r = some v := by
  cases e with
  | snoop x => cases h
  | request m during answer =>
    simp only [evictedFor] at h
    split at h
    · rename_i s₁ s₂ r a hans
      split at h
      · exact ⟨m, during, answer, s₁, s₂, r, a, rfl, hans, h⟩
      · cases h
    · cases h

theorem KeepsInvalidFirst.snoopIn (hA : A.KeepsInvalidFirst I) (hs : I s) {x : SnoopEvent}
    (hx : ¬ A.PutsAhead cfg s x) (h : A.snoopIn cfg s x = .ok t) : I t := by
  obtain ⟨s', r, a, effect, u, q, hl, ha, he, happly, hl'⟩ := snoopIn_cases h
  have hs' := hA.lookup hs hl
  refine hA.lookup ?_ hl'
  rcases snoopEffect_spec ha he with rfl | ⟨hv, rfl | ⟨z, hz, rfl | ⟨rfl, hm⟩⟩⟩
  · cases happly
    exact hs'
  · exact hA.invalidate hs' happly
  · exact hA.changeInPlace hs hl hv hz happly
  · refine hA.makeLRU hs' (fun d hd hd' => hx ?_) hz happly
    exact ⟨s', r, hl, hm, d, hd, hd'⟩

theorem KeepsInvalidFirst.snoopsIn (hA : A.KeepsInvalidFirst I) {xs : List SnoopEvent} (hs : I s)
    (hx : A.NoneAhead cfg s xs) (h : A.snoopsIn cfg s xs = .ok t) : I t := by
  induction xs generalizing s with
  | nil =>
    cases h
    exact hs
  | cons x xs ih =>
    obtain ⟨u, hu, h⟩ := exists_of_bind_eq_ok h
    exact ih (hA.snoopIn hs hx.1 hu) (hx.2 u hu) h

theorem KeepsInvalidFirst.answered (hA : A.KeepsInvalidFirst I) (hs : I s)
    (hx : A.Orderly cfg s (.request m during answer)) {s₁ s₂ : σ} {r : ρ} {a : RequestAction}
    (h : A.answered cfg s m during = .ok (s₁, s₂, r, a)) : I s₁ ∧ I s₂ := by
  obtain ⟨access, hm, hl, ha, hsn⟩ := answered_cases h
  have h₁ := hA.lookup hs hl
  exact ⟨h₁, hA.snoopsIn h₁ (hx access s₁ r a hm hl ha) hsn⟩

theorem KeepsInvalidFirst.requestIn (hA : A.KeepsInvalidFirst I) (hs : I s)
    (hx : A.Orderly cfg s (.request m during answer))
    (h : A.requestIn cfg s m during answer = .ok t) : I t := by
  obtain ⟨s₁, s₂, r, a, effect, hans, he, happly⟩ := requestIn_cases h
  obtain ⟨-, h₂⟩ := hA.answered hs hx hans
  obtain ⟨access, -, hl, ha, hsn⟩ := answered_cases hans
  rcases requestEffect_spec ha he with rfl | ⟨rfl, hv, hno⟩ | ⟨z, rfl, hz⟩ | ⟨z, rfl, hz⟩
  · cases happly
    exact h₂
  · -- nothing has come in between
    rw [hno] at hsn
    cases hsn
    exact hA.updateLRU hs hl hv happly
  · exact hA.makeMRU h₂ hz happly
  · exact hA.allocate h₂ hz happly

/-- **The invalid entries are in front in every state of an orderly run.** -/
theorem KeepsInvalidFirst.reachable (hA : A.KeepsInvalidFirst I) {init : σ} (h0 : I init)
    (hs : (A.machine cfg init).ReachableWhen (A.Orderly cfg) s) : I s := by
  refine hs.invariant h0 fun s e t hs hx h => ?_
  cases e with
  | request m during answer => exact hA.requestIn hs hx h
  | snoop x => exact hA.snoopIn hs hx h

end AbstractCache

end FastCache

end Flexus
