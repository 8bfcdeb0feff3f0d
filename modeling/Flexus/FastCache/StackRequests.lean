import Flexus.FastCache.StackSnoops

/-!
# Requests into a private stack

A request goes down a stack cache by cache, and on the way anything may be snooped. What a
cache relies on when it asks the level below, and what it guarantees to the caches above
it, is one and the same contract (`Flexus.FastCache.Serves`): the order of the states is
kept, a block that was asked for is there – and exclusive if it was asked for writing –,
and nothing has happened above but snoops. The contract of the shared level is passed up
from cache to cache (`Flexus.FastCache.Serves.cache`).

The report of an eviction is special. While the level below hears of it the block is still
there, and the order is broken for a moment: a dirty block that is exclusive above becomes
modified below.
-/

namespace Flexus

open Function

namespace FastCache

open MemoryMessageType

variable {k : ℕ}

/-! ### Contents that have been snooped -/

/-- A state that snoops may have left of another. -/
def Lower (y y' : CoherenceState) : Prop :=
  y' = y ∨ y' = .invalid ∨ y' = .shared ∧ y ≠ .invalid

theorem Lower.trans {y y' y'' : CoherenceState} (h : Lower y y') (h' : Lower y' y'') :
    Lower y y'' := by
  rcases h' with rfl | rfl | ⟨rfl, hv⟩
  · exact h
  · exact .inr (.inl rfl)
  · refine .inr (.inr ⟨rfl, fun hy => ?_⟩)
    rcases h with rfl | rfl | ⟨-, hv'⟩
    · exact hv hy
    · exact hv rfl
    · exact hv' hy

theorem Lower.eq_invalid {y y' : CoherenceState} (h : Lower y y') (hy : y = .invalid) :
    y' = .invalid := by
  rcases h with rfl | rfl | ⟨-, hv⟩
  · exact hy
  · rfl
  · exact absurd hy hv

theorem lower_snoopNext (y : CoherenceState) (t : MemoryMessageType) : Lower y (snoopNext y t) := by
  by_cases h : t = invalidate ∨ y = .invalid
  · exact .inr (.inl (snoopNext_eq_invalid.mpr h))
  · obtain ⟨ht, hy⟩ := not_or.mp h
    exact .inr (.inr ⟨snoopNext_eq_shared ht hy, hy⟩)

/-- **Only snoops have come by** a cache. -/
structure Disturbed {g : Geometry} (c c' : StdCache g) : Prop where
  states : ∀ b, Lower (c.stateOf b) (c'.stateOf b)
  follows : c.Follows c'

theorem Disturbed.refl {g : Geometry} (c : StdCache g) : Disturbed c c :=
  ⟨fun _ => .inl rfl, .refl c⟩

theorem Disturbed.trans {g : Geometry} {c c' c'' : StdCache g} (h : Disturbed c c')
    (h' : Disturbed c' c'') : Disturbed c c'' :=
  ⟨fun b => (h.states b).trans (h'.states b), h.follows.trans h'.follows⟩

theorem PassedBy.disturbed {t : MemoryMessageType} {b : ℕ} {g : Geometry} {c c' : StdCache g}
    (h : PassedBy t b c c') : Disturbed c c' := by
  refine ⟨fun b' => ?_, h.follows⟩
  rw [h.states]
  by_cases hb : b' = b
  · subst hb
    rw [update_self]
    exact lower_snoopNext _ t
  · rw [update_of_ne hb]
    exact .inl rfl

/-- Only snoops have come by the caches of a stack. -/
abbrev Lowered (sh : Shape) (st st' : Contents k sh) : Prop := Pointwise Disturbed sh st st'

theorem Lowered.refl {sh : Shape} (st : Contents k sh) : Lowered sh st st := by
  induction sh with
  | nothing => trivial
  | cache l i d ihi ihd => exact ⟨.refl _, ihi _, ihd _⟩

theorem Lowered.trans {sh : Shape} {st st' st'' : Contents k sh} (h : Lowered sh st st')
    (h' : Lowered sh st' st'') : Lowered sh st st'' := by
  induction sh with
  | nothing => trivial
  | cache l i d ihi ihd => exact ⟨h.1.trans h'.1, ihi h.2.1 h'.2.1, ihd h.2.2 h'.2.2⟩

theorem lowered_of_passedBy {t : MemoryMessageType} {b : ℕ} {sh : Shape} {st st' : Contents k sh}
    (h : Pointwise (PassedBy t b) sh st st') : Lowered sh st st' :=
  h.mono fun _ _ hc => hc.disturbed

theorem Lowered.lowest {sh : Shape} {st st' : Contents k sh} (h : Lowered sh st st') {b : ℕ}
    (hb : lowest sh st b = .invalid) : lowest sh st' b = .invalid := by
  cases sh with
  | nothing => rfl
  | cache l i d => exact (h.1.states b).eq_invalid hb

/-! ### Invalid blocks -/

theorem Under.lowest_eq_invalid {sd : Side} {sh : Shape} {st : Contents k sh} {b : ℕ}
    (h : Under sd sh .invalid st b) : lowest sh st b = .invalid := by
  cases sh with
  | nothing => rfl
  | cache l i d =>
    by_contra hv
    exact h.1.valid hv rfl

theorem Under.of_lowest {sd : Side} {sh : Shape} {x : CoherenceState} {st : Contents k sh} {b : ℕ}
    (h : Under sd sh x st b) (hb : lowest sh st b = .invalid) (z : CoherenceState) :
    Under sd sh z st b := by
  cases sh with
  | nothing => trivial
  | cache l i d =>
    refine ⟨?_, h.2⟩
    rw [show st.cache.stateOf b = .invalid from hb]
    exact covers_invalid

theorem Under.not_heldModified_instr {sh : Shape} {x : CoherenceState} {st : Contents k sh} {b : ℕ}
    (h : Under .instr sh x st b) : ¬ HeldModified sh st b := by
  induction sh generalizing x with
  | nothing => exact fun h => h
  | cache l i d _ ihd =>
    rintro (hm | hm)
    · cases (h.1.writable (.inl hm)).1
    · exact ihd h.2.2 hm

/-! ### Sites -/

/-- **A stack inside a larger state**, with what is below it: the states in which the level
below holds the blocks, and what holds of everything else. -/
structure Site (k : ℕ) (sh : Shape) (τ : Type) where
  side : Side
  get : τ → Contents k sh
  set : τ → Contents k sh → τ
  floor : τ → ℕ → CoherenceState
  Rest : τ → Prop
  get_set : ∀ s c, get (set s c) = c
  set_set : ∀ s c c', set (set s c) c' = set s c'
  floor_set : ∀ s c, floor (set s c) = floor s
  rest_set : ∀ {s c}, Rest s → Rest (set s c)

namespace Site

variable {sh : Shape} {τ : Type} {l : Level} {i d : Shape}

/-- The order of the states, all the way down. -/
structure Inv (S : Site k sh τ) (s : τ) : Prop where
  rest : S.Rest s
  under : ∀ b, Under S.side sh (S.floor s b) (S.get s) b

/-- What is above the lowest cache on the data side. -/
def data (S : Site k (.cache l i d) τ) : Site k d τ where
  side := S.side
  get s := (S.get s).data
  set s c := S.set s (.mk (S.get s).cache (S.get s).instr c)
  floor s := (S.get s).cache.stateOf
  Rest s := S.Rest s ∧ (∀ b, Covers S.side (S.floor s b) ((S.get s).cache.stateOf b)) ∧
    ∀ b, Under .instr i ((S.get s).cache.stateOf b) (S.get s).instr b
  get_set s c := by simp [S.get_set]
  set_set s c c' := by simp [S.get_set, S.set_set]
  floor_set s c := by simp [S.get_set]
  rest_set {s c} h := by
    refine ⟨S.rest_set h.1, ?_, ?_⟩
    · rw [S.get_set, S.floor_set]
      exact h.2.1
    · rw [S.get_set]
      exact h.2.2

/-- What is above the lowest cache on the instruction side. -/
def instr (S : Site k (.cache l i d) τ) : Site k i τ where
  side := .instr
  get s := (S.get s).instr
  set s c := S.set s (.mk (S.get s).cache c (S.get s).data)
  floor s := (S.get s).cache.stateOf
  Rest s := S.Rest s ∧ (∀ b, Covers S.side (S.floor s b) ((S.get s).cache.stateOf b)) ∧
    ∀ b, Under S.side d ((S.get s).cache.stateOf b) (S.get s).data b
  get_set s c := by simp [S.get_set]
  set_set s c c' := by simp [S.get_set, S.set_set]
  floor_set s c := by simp [S.get_set]
  rest_set {s c} h := by
    refine ⟨S.rest_set h.1, ?_, ?_⟩
    · rw [S.get_set, S.floor_set]
      exact h.2.1
    · rw [S.get_set]
      exact h.2.2

theorem inv_data {S : Site k (.cache l i d) τ} {s : τ} : S.data.Inv s ↔ S.Inv s := by
  constructor
  · rintro ⟨⟨hr, hc, hi⟩, hd⟩
    exact ⟨hr, fun b => ⟨hc b, hi b, hd b⟩⟩
  · rintro ⟨hr, hu⟩
    exact ⟨⟨hr, fun b => (hu b).1, fun b => (hu b).2.1⟩, fun b => (hu b).2.2⟩

theorem inv_instr {S : Site k (.cache l i d) τ} {s : τ} : S.instr.Inv s ↔ S.Inv s := by
  constructor
  · rintro ⟨⟨hr, hc, hd⟩, hi⟩
    exact ⟨hr, fun b => ⟨hc b, hi b, hd b⟩⟩
  · rintro ⟨hr, hu⟩
    exact ⟨⟨hr, fun b => (hu b).1, fun b => (hu b).2.2⟩, fun b => (hu b).2.1⟩

end Site

/-! ### The contract -/

/-- What a stack that holds a block in the given state may ask for. The last ones are the
requests of a processor, which holds nothing. -/
inductive Asks (sd : Side) (y : CoherenceState) : MemoryMessageType → Prop
  | fetch : Asks sd y fetchReq
  | read (h : sd = .data) : Asks sd y readReq
  | write (h : sd = .data) : Asks sd y writeReq
  | upgrade (h : sd = .data) (hy : y ≠ .invalid) : Asks sd y upgradeReq
  | load (h : sd = .data) : Asks sd y loadReq
  | store (h : sd = .data) (hy : y = .invalid) {t : MemoryMessageType}
      (ht : t = storeReq ∨ t = rmwReq ∨ t = cmpxReq) : Asks sd y t
  | nonAllocatingStore (h : sd = .data) (hy : y = .invalid) : Asks sd y nonAllocatingStoreReq

/-- What the level below holds after it has answered. -/
structure Granted (t reply : MemoryMessageType) (x : CoherenceState) : Prop where
  read : t = readReq → (reply = missReply ∨ reply = missReplyWritable ∨ reply = missReplyDirty) ∧
    x ≠ .invalid ∧ (reply ≠ missReply → x = .exclusive)
  write : t = writeReq ∨ t = upgradeReq → x = .exclusive
  fetch : t = fetchReq → reply ≠ fwdReplyOwned ∧ x ≠ .invalid

/-- The reports of the eviction of a block that is held in the given state. -/
def Reports (y : CoherenceState) (t : MemoryMessageType) : Prop :=
  t = evictClean ∧ y ≠ .invalid ∨
    (t = evictWritable ∨ t = evictDirty) ∧ (y = .modified ∨ y = .exclusive)

/-- **The contract of the level below a stack.** -/
structure Serves {sh : Shape} {τ : Type} (S : Site k sh τ) (out : Channel τ) : Prop where
  request : ∀ s t a, S.Inv s → Asks S.side (lowest sh (S.get s) (blockOf k a)) t →
    ∃ s' reply, out s ⟨t, a⟩ = .ok (s', reply) ∧ S.Inv s' ∧ Lowered sh (S.get s) (S.get s') ∧
      Granted t reply (S.floor s' (blockOf k a))
  /-- The order that is kept is the one with the states below as they were before the
  eviction was reported. -/
  evict : ∀ s t v, S.Inv s → blockOf k v = v → Reports (lowest sh (S.get s) v) t →
    ∃ s' reply, out s ⟨t, v⟩ = .ok (s', reply) ∧ S.Rest s' ∧
      (∀ b, Under S.side sh (S.floor s b) (S.get s') b) ∧
      (∀ b, b ≠ v → S.floor s' b = S.floor s b) ∧ Lowered sh (S.get s) (S.get s')

/-! ### Fills -/

section Cache

variable {τ : Type} {l : Level} {i d : Shape} {S : Site k (.cache l i d) τ} {out : Channel τ}
  {s : τ} {c : StdCache (l.geometry k)} {b : ℕ} {z : CoherenceState}

/-- The wiring of the lowest cache. -/
def Site.ports (S : Site k (.cache l i d) τ) (out : Channel τ) : Ports (l.geometry k) τ :=
  FastCache.ports S.get S.set out (snoop i) (snoop d)

/-- The lowest cache is exchanged. -/
def Site.put (S : Site k (.cache l i d) τ) (s : τ) (c : StdCache (l.geometry k)) : τ :=
  S.set s (.mk c (S.get s).instr (S.get s).data)

theorem Site.get_put : S.get (S.put s c) = .mk c (S.get s).instr (S.get s).data := S.get_set _ _

theorem Site.put_put {c' : StdCache (l.geometry k)} : S.put (S.put s c) c' = S.put s c' := by
  rw [put, get_put, put, S.set_set, put]
  rfl

theorem Site.floor_put : S.floor (S.put s c) = S.floor s := S.floor_set _ _

theorem Site.Inv.put (h : S.Inv s) (hc : ∀ b, Covers S.side (S.floor s b) (c.stateOf b) ∧
    Under .instr i (c.stateOf b) (S.get s).instr b ∧
    Under S.side d (c.stateOf b) (S.get s).data b) : S.Inv (S.put s c) := by
  refine ⟨S.rest_set h.rest, fun b => ?_⟩
  rw [floor_put, get_put]
  exact hc b

theorem Site.Inv.put_same (h : S.Inv s) (hc : c.stateOf = (S.get s).cache.stateOf) :
    S.Inv (S.put s c) := by
  refine h.put fun b => ?_
  rw [hc]
  exact h.under b

theorem Site.Inv.put_update (h : S.Inv s)
    (hc : c.stateOf = update (S.get s).cache.stateOf b z)
    (hz : Covers S.side (S.floor s b) z) (hi : Under .instr i z (S.get s).instr b)
    (hd : Under S.side d z (S.get s).data b) : S.Inv (S.put s c) := by
  refine h.put fun b' => ?_
  rw [hc]
  by_cases hb : b' = b
  · subst hb
    rw [update_self]
    exact ⟨hz, hi, hd⟩
  · rw [update_of_ne hb]
    exact h.under b'

/-- **Inclusion by force**: a block is invalidated above. It can have been dirty there only
if it is exclusive here. -/
theorem sendInvalidate_site (out : Channel τ) (h : S.Inv s) {v : ℕ} (hv : blockOf k v = v) :
    ∃ si sd dirty, sendInvalidate (S.ports out) s v true true =
        .ok (S.set s (.mk (S.get s).cache si sd), dirty) ∧
      Pointwise (PassedBy invalidate v) i (S.get s).instr si ∧
      Pointwise (PassedBy invalidate v) d (S.get s).data sd ∧
      (dirty = true → (S.get s).cache.stateOf v = .exclusive) := by
  have hui := (h.under v).2.1
  have hud := (h.under v).2.2
  rw [← hv] at hui hud
  obtain ⟨si, ti, hsi, hpi, hri⟩ := snoop_spec hui .invalidate
  obtain ⟨sd, td, hsd, hpd, hrd⟩ := snoop_spec hud .invalidate
  rw [hv] at hpi hpd hri hrd hui hud
  have hI : (S.ports out).snoopOutI s ⟨invalidate, v⟩ =
      .ok (S.set s (.mk (S.get s).cache si (S.get s).data), ti) := snoopOutI_ports hsi
  have hD : (S.ports out).snoopOutD (S.set s (.mk (S.get s).cache si (S.get s).data))
      ⟨invalidate, v⟩ = .ok (S.set s (.mk (S.get s).cache si sd), td) := by
    have hsd' : snoop d (S.get (S.set s (.mk (S.get s).cache si (S.get s).data))).data
        ⟨invalidate, v⟩ = .ok (sd, td) := by
      rw [S.get_set]
      exact hsd
    have hout : (S.ports out).snoopOutD (S.set s (.mk (S.get s).cache si (S.get s).data))
        ⟨invalidate, v⟩ = _ := snoopOutD_ports hsd'
    rw [S.get_set, S.set_set] at hout
    exact hout
  refine ⟨si, sd, decide (ti = invUpdateAck) || decide (td = invUpdateAck), ?_, hpi, hpd, ?_⟩
  · rw [sendInvalidate, if_pos rfl, hI]
    show ((S.ports out).snoopOutD _ ⟨invalidate, v⟩ >>= _) = _
    rw [hD]
    simp [pure, Except.pure, bind, Except.bind]
  · intro hdirty
    by_contra hne
    rcases Bool.or_eq_true_iff.mp hdirty with ht | ht
    · rcases hri.dirty.mp (of_decide_eq_true ht) with hm | ⟨-, hm⟩
      · exact hui.not_heldModified_instr (heldModified_of_lowest hm)
      · exact hui.not_heldModified_instr hm
    · rcases hrd.dirty.mp (of_decide_eq_true ht) with hm | ⟨-, hm⟩
      · exact hud.not_heldModified hne (heldModified_of_lowest hm)
      · exact hud.not_heldModified hne hm

/-- A block that has been invalidated above. -/
structure Cleared (S : Site k (.cache l i d) τ) (s s' : τ) (v : ℕ) : Prop where
  lowered : Lowered (.cache l i d) (S.get s) (S.get s')
  instr : lowest i (S.get s').instr v = .invalid
  data : lowest d (S.get s').data v = .invalid

theorem Site.Inv.invalidated (h : S.Inv s) {v : ℕ} {si : Contents k i} {sd : Contents k d}
    (hpi : Pointwise (PassedBy invalidate v) i (S.get s).instr si)
    (hpd : Pointwise (PassedBy invalidate v) d (S.get s).data sd) :
    S.Inv (S.set s (.mk (S.get s).cache si sd)) ∧
      Cleared S s (S.set s (.mk (S.get s).cache si sd)) v := by
  have hi := Under.passedBy (fun b => (h.under b).2.1) hpi
  have hd := Under.passedBy (fun b => (h.under b).2.2) hpd
  have hgone : update (S.get s).cache.stateOf v
      (snoopNext ((S.get s).cache.stateOf v) invalidate) v = .invalid := by
    rw [update_self]
    exact snoopNext_eq_invalid.mpr (.inl rfl)
  have hli : lowest i si v = .invalid := by
    have hiv := hi v
    rw [hgone] at hiv
    exact hiv.lowest_eq_invalid
  have hld : lowest d sd v = .invalid := by
    have hdv := hd v
    rw [hgone] at hdv
    exact hdv.lowest_eq_invalid
  refine ⟨⟨S.rest_set h.rest, fun b => ?_⟩, ⟨?_, ?_, ?_⟩⟩
  · rw [S.get_set, S.floor_set]
    refine ⟨(h.under b).1, ?_⟩
    by_cases hb : b = v
    · subst hb
      exact ⟨(hi b).of_lowest hli _, (hd b).of_lowest hld _⟩
    · have hib := hi b
      have hdb := hd b
      rw [update_of_ne hb] at hib hdb
      exact ⟨hib, hdb⟩
  · rw [S.get_set]
    exact ⟨.refl _, lowered_of_passedBy hpi, lowered_of_passedBy hpd⟩
  · rw [S.get_set]
    exact hli
  · rw [S.get_set]
    exact hld

theorem reports_of_dirty {x : CoherenceState} {dirty : Bool} (hx : x ≠ .invalid)
    (hd : dirty = true → x = .exclusive) : Reports x (if dirty ∨ x = .modified then evictDirty
      else if x = .exclusive then evictWritable else evictClean) := by
  split
  · rename_i h
    exact .inr ⟨.inr rfl, h.symm.imp_right hd⟩
  · split
    · rename_i h
      exact .inr ⟨.inl rfl, .inr h⟩
    · exact .inl ⟨rfl, hx⟩

/-- **An eviction**: the block is gone above, and the level below may know. -/
theorem evict_site (hout : Serves S out) (h : S.Inv s) {v : ℕ} (hv : blockOf k v = v)
    (hx : (S.get s).cache.stateOf v ≠ .invalid) :
    ∃ s', evict l.cfg (S.ports out) s v ((S.get s).cache.stateOf v) = .ok s' ∧ S.Rest s' ∧
      (∀ b, Under S.side (.cache l i d) (S.floor s b) (S.get s') b) ∧
      (∀ b, b ≠ v → S.floor s' b = S.floor s b) ∧ Cleared S s s' v := by
  obtain ⟨si, sd, dirty, hsend, hpi, hpd, hdirty⟩ := sendInvalidate_site out h hv
  obtain ⟨hinv, hclear⟩ := h.invalidated hpi hpd
  have hrep := reports_of_dirty hx hdirty
  set t := if dirty ∨ (S.get s).cache.stateOf v = .modified then evictDirty
    else if (S.get s).cache.stateOf v = .exclusive then evictWritable else evictClean with ht
  have hpe : protocolEvict (S.ports out) s v ((S.get s).cache.stateOf v) =
      .ok (S.set s (.mk (S.get s).cache si sd), t) := by
    rw [protocolEvict, hsend, ht]
    rfl
  have hfloor : S.floor (S.set s (.mk (S.get s).cache si sd)) = S.floor s := S.floor_set _ _
  rw [evict, hpe]
  show ∃ s', (if t = evictDirty ∨ l.cfg.cleanEvictions then
    ((S.ports out).requestOut (S.set s (.mk (S.get s).cache si sd)) ⟨t, v⟩ >>= _) else _) = _ ∧ _
  split
  · -- the level below is told
    have hlow : lowest (.cache l i d) (S.get (S.set s (.mk (S.get s).cache si sd))) v =
        (S.get s).cache.stateOf v := by
      rw [S.get_set]
      rfl
    rw [← hlow] at hrep
    obtain ⟨s', reply, hs', hrest, hunder, hfl, hlowered⟩ := hout.evict _ t v hinv hv hrep
    refine ⟨s', ?_, hrest, ?_, ?_, ⟨hclear.lowered.trans hlowered, ?_, ?_⟩⟩
    · show (out _ ⟨t, v⟩ >>= _) = _
      rw [hs']
      rfl
    · rw [← hfloor]
      exact hunder
    · rw [← hfloor]
      exact hfl
    · exact Lowered.lowest hlowered.2.1 hclear.instr
    · exact Lowered.lowest hlowered.2.2 hclear.data
  · refine ⟨_, rfl, hinv.rest, ?_, fun b _ => ?_, hclear⟩
    · rw [← hfloor]
      exact hinv.under
    · rw [hfloor]

/-- The last step of a fill: the entry of a block that is gone is given to another block. -/
theorem fill_site {s s' : τ} {r : LookupResult (l.geometry k)} {v : ℕ}
    {c' : StdCache (l.geometry k)} (hrest : S.Rest s')
    (hunder : ∀ b, Under S.side (.cache l i d) (S.floor s b) (S.get s') b)
    (hfloor : ∀ b, b ≠ v → S.floor s' b = S.floor s b)
    (hiv : lowest i (S.get s').instr v = .invalid) (hdv : lowest d (S.get s').data v = .invalid)
    (hib : lowest i (S.get s').instr r.theAddress = .invalid)
    (hdb : lowest d (S.get s').data r.theAddress = .invalid) (hne : v ≠ r.theAddress)
    (hz : Covers S.side (S.floor s r.theAddress) z)
    (hc : c'.stateOf = update (update (S.get s').cache.stateOf v .invalid)
      r.theAddress z) : S.Inv (S.put s' c') := by
  refine ⟨S.rest_set hrest, fun b => ?_⟩
  rw [Site.floor_put, Site.get_put]
  obtain ⟨hcov, hi, hd⟩ := hunder b
  show Covers S.side _ (c'.stateOf b) ∧ Under .instr i (c'.stateOf b) _ b ∧
    Under S.side d (c'.stateOf b) _ b
  rw [hc]
  by_cases hb : b = r.theAddress
  · subst hb
    rw [update_self, hfloor _ hne.symm]
    exact ⟨hz, hi.of_lowest hib z, hd.of_lowest hdb z⟩
  · rw [update_of_ne hb]
    by_cases hbv : b = v
    · subst hbv
      rw [update_self]
      exact ⟨covers_invalid, hi.of_lowest hiv _, hd.of_lowest hdv _⟩
    · rw [update_of_ne hbv, hfloor b hbv]
      exact ⟨hcov, hi, hd⟩

/-- **A fill**, of a block that was not there: the entry may have to be cleared first. -/
theorem allocate_site (hout : Serves S out) (h : S.Inv s) {r : LookupResult (l.geometry k)}
    {e : BlockEntry} (hpin : (S.get s).cache.Pins r e)
    (hx : (S.get s).cache.stateOf r.theAddress = .invalid)
    (hz : Covers S.side (S.floor s r.theAddress) z) :
    ∃ s', allocate l.cfg (S.ports out) s r z = .ok s' ∧ S.Inv s' ∧
      Lowered i (S.get s).instr (S.get s').instr ∧ Lowered d (S.get s).data (S.get s').data ∧
      (S.get s').cache.stateOf r.theAddress = z := by
  have hui := (h.under r.theAddress).2.1
  have hud := (h.under r.theAddress).2.2
  rw [hx] at hui hud
  have hli := hui.lowest_eq_invalid
  have hld := hud.lowest_eq_invalid
  have hblock : ((S.ports out).getCache s).block r = some e := hpin.block_eq
  simp only [allocate, StdCache.allocate, hblock]
  by_cases ht : e.tag = r.theAddress
  · rw [if_neg (not_not.mpr ht)]
    have hch := StdCache.stateOf_changeState hpin.toResolves ht z true false
    refine ⟨S.put s ((S.get s).cache.changeState r z true false), rfl, ?_, ?_, ?_, ?_⟩
    · exact h.put_update hch hz (hui.of_lowest hli z) (hud.of_lowest hld z)
    · rw [Site.get_put]
      exact .refl _
    · rw [Site.get_put]
      exact .refl _
    · rw [Site.get_put, Contents.cache_mk, hch, update_self]
  rw [if_pos ht]
  have hwf := (S.get s).cache.wf r.theSet
  have hstate : (S.get s).cache.stateOf e.tag = e.state := by
    rw [StdCache.stateOf, hwf.isHome e hpin.mem]
    exact BlockSet.stateOf_of_mem hwf.tags_nodup hpin.mem
  have hv : blockOf k e.tag = e.tag := hwf.isTag e hpin.mem
  -- the entry is cleared, if it holds a block
  have hclear : ∃ s₁, (if e.state.isValid then evict l.cfg (S.ports out) s e.tag e.state
      else pure s) = .ok s₁ ∧ S.Rest s₁ ∧
      (∀ b, Under S.side (.cache l i d) (S.floor s b) (S.get s₁) b) ∧
      (∀ b, b ≠ e.tag → S.floor s₁ b = S.floor s b) ∧ Cleared S s s₁ e.tag := by
    by_cases hval : e.state = .invalid
    · have huv := h.under e.tag
      have hgone : (S.get s).cache.stateOf e.tag = .invalid := hstate.trans hval
      refine ⟨s, by simp [hval]; rfl, h.rest, h.under, fun _ _ => rfl, .refl _, ?_, ?_⟩
      · have hiv := huv.2.1
        rw [hgone] at hiv
        exact hiv.lowest_eq_invalid
      · have hdv := huv.2.2
        rw [hgone] at hdv
        exact hdv.lowest_eq_invalid
    · rw [if_pos (by simp [hval]), ← hstate]
      exact evict_site hout h hv (by rwa [hstate])
  obtain ⟨s₁, hs₁, hrest, hunder, hfloor, hlow, hiv, hdv⟩ := hclear
  obtain ⟨e', hpin', htag'⟩ := hlow.1.follows r e hpin
  have ht' : e'.tag ≠ r.theAddress := by rwa [htag']
  obtain ⟨c', hrep, hcs⟩ := StdCache.replaceBlock_spec hpin'.toResolves ht' z
  rw [htag'] at hcs
  have hfill : (c'.updateLRU r).stateOf = update
      (update (S.get s₁).cache.stateOf e.tag .invalid) r.theAddress z := by
    rw [StdCache.stateOf_updateLRU, hcs]
  refine ⟨S.put s₁ (c'.updateLRU r), ?_, ?_, ?_, ?_, ?_⟩
  · have hlast : (do
        let c ← ((S.ports out).getCache s₁).replaceBlock r z
        pure ((S.ports out).setCache s₁ (c.updateLRU r))) =
          .ok (S.put s₁ (c'.updateLRU r)) := by
      show ((S.get s₁).cache.replaceBlock r z >>= _) = _
      rw [hrep]
      rfl
    split at hs₁
    · rename_i hval
      rw [if_pos hval, hs₁]
      exact hlast
    · rename_i hval
      cases hs₁
      rw [if_neg hval]
      exact hlast
  · exact fill_site hrest hunder hfloor hiv hdv (Lowered.lowest hlow.2.1 hli)
      (Lowered.lowest hlow.2.2 hld) ht hz hfill
  · rw [Site.get_put]
    exact hlow.2.1
  · rw [Site.get_put]
    exact hlow.2.2
  · rw [Site.get_put, Contents.cache_mk, hfill, update_self]

/-! ### The rows of the request table -/

/-- A request has been answered: the order is kept, and nothing but snoops has happened
above. -/
structure Answered (S : Site k (.cache l i d) τ) (s s' : τ) : Prop where
  inv : S.Inv s'
  instr : Lowered i (S.get s).instr (S.get s').instr
  data : Lowered d (S.get s).data (S.get s').data

theorem Site.Inv.answered_put (h : S.Inv (S.put s c)) : Answered S s (S.put s c) := by
  refine ⟨h, ?_, ?_⟩
  · rw [Site.get_put]
    exact .refl _
  · rw [Site.get_put]
    exact .refl _

theorem updateLRU_put (out : Channel τ) {r : LookupResult (l.geometry k)} :
    updateLRU (S.ports out) (S.put s c) r = S.put s (c.updateLRU r) := by
  show S.put (S.put s c) ((S.get (S.put s c)).cache.updateLRU r) = _
  rw [Site.get_put, Site.put_put]
  rfl

theorem changeState_put (out : Channel τ) {r : LookupResult (l.geometry k)} {mru lru : Bool} :
    changeState (S.ports out) (S.put s c) r z mru lru = S.put s (c.changeState r z mru lru) := by
  show S.put (S.put s c) ((S.get (S.put s c)).cache.changeState r z mru lru) = _
  rw [Site.get_put, Site.put_put]
  rfl

/-- A request is the code behind the entry for the state of the block. -/
theorem requestIn_site (S : Site k (.cache l i d) τ) (out : Channel τ) (s : τ) (a : ℕ) :
    ∃ c r e, c.stateOf = (S.get s).cache.stateOf ∧ r.theAddress = blockOf k a ∧
      c.Pins r e ∧ ∀ t access act, message2access t = .ok access →
        InclusiveMESI.requestAction l.cfg.usingTraces ((S.get s).cache.stateOf (blockOf k a))
          access = some act →
        requestIn l.cfg (S.ports out) s ⟨t, a⟩ =
          doCoherenceAction l.cfg (S.ports out) (S.put s c) r ⟨t, a⟩ act := by
  obtain ⟨hst, haddr, -⟩ := (S.get s).cache.lookup_spec a
  obtain ⟨e, hpin⟩ := (S.get s).cache.lookup_pins a
  refine ⟨_, _, e, hst, haddr, hpin, fun t access act hacc hact => ?_⟩
  have hget : ((S.get s).cache.lookup a).1.getState ((S.get s).cache.lookup a).2 =
      (S.get s).cache.stateOf (blockOf k a) := by
    rw [hpin.toResolves.getState_eq, hst, haddr]
    rfl
  rw [← hget] at hact
  generalize hl : (S.get s).cache.lookup a = x at hact ⊢
  obtain ⟨c, r⟩ := x
  have hleft : ((S.ports out).getCache s).lookup a = (c, r) := hl
  simp only [requestIn, hacc, bind, Except.bind, hleft, hact]
  rfl

variable {a : ℕ} {t reply : MemoryMessageType} {access : Access} {act : RequestAction}
  {x : CoherenceState}

theorem row_hit (out : Channel τ) (h : S.Inv s) (hx : (S.get s).cache.stateOf (blockOf k a) = x)
    (hacc : message2access t = .ok access)
    (hact : InclusiveMESI.requestAction l.cfg.usingTraces x access = some act)
    (hdo : ∀ s r, doCoherenceAction l.cfg (S.ports out) s r ⟨t, a⟩ act =
      .ok (updateLRU (S.ports out) s r, reply)) :
    ∃ s', requestIn l.cfg (S.ports out) s ⟨t, a⟩ = .ok (s', reply) ∧ Answered S s s' ∧
      (S.get s').cache.stateOf (blockOf k a) = x := by
  obtain ⟨c, r, e, hst, -, -, heq⟩ := requestIn_site S out s a
  have hc : (c.updateLRU r).stateOf = (S.get s).cache.stateOf := by
    rw [StdCache.stateOf_updateLRU, hst]
  refine ⟨S.put s (c.updateLRU r), ?_, (h.put_same hc).answered_put, ?_⟩
  · rw [heq t access act hacc (by rwa [hx]), hdo, updateLRU_put]
  · rw [Site.get_put, Contents.cache_mk, hc, hx]

theorem row_change (h : S.Inv s) (hx : (S.get s).cache.stateOf (blockOf k a) = x)
    (hv : x ≠ .invalid) (hz : Covers S.side (S.floor s (blockOf k a)) z)
    (hi : Under .instr i z (S.get s).instr (blockOf k a))
    (hd : Under S.side d z (S.get s).data (blockOf k a))
    (hacc : message2access t = .ok access)
    (hact : InclusiveMESI.requestAction l.cfg.usingTraces x access = some act)
    (hdo : ∀ s r, doCoherenceAction l.cfg (S.ports out) s r ⟨t, a⟩ act =
      .ok (changeState (S.ports out) s r z true false, reply)) :
    ∃ s', requestIn l.cfg (S.ports out) s ⟨t, a⟩ = .ok (s', reply) ∧ Answered S s s' ∧
      (S.get s').cache.stateOf (blockOf k a) = z := by
  obtain ⟨c, r, e, hst, haddr, hpin, heq⟩ := requestIn_site S out s a
  have htag := hpin.toResolves.tag_eq (by rw [hst, haddr, hx]; exact hv)
  have hc : (c.changeState r z true false).stateOf =
      update (S.get s).cache.stateOf (blockOf k a) z := by
    rw [StdCache.stateOf_changeState hpin.toResolves htag, hst, haddr]
  refine ⟨S.put s (c.changeState r z true false), ?_, (h.put_update hc hz hi hd).answered_put, ?_⟩
  · rw [heq t access act hacc (by rwa [hx]), hdo, changeState_put]
  · rw [Site.get_put, Contents.cache_mk, hc, update_self]

/-- What the lowest cache finds when the level below has answered: its lookup result is
still good, and the block has at most lost something. -/
theorem asked_site (hout : Serves S out) (h : S.Inv s) {c : StdCache (l.geometry k)}
    {r : LookupResult (l.geometry k)} {e : BlockEntry}
    (hst : c.stateOf = (S.get s).cache.stateOf) (hpin : c.Pins r e)
    (hasks : Asks S.side ((S.get s).cache.stateOf (blockOf k a)) t) :
    ∃ s' reply e', out (S.put s c) ⟨t, a⟩ = .ok (s', reply) ∧ Answered S s s' ∧
      Granted t reply (S.floor s' (blockOf k a)) ∧ (S.get s').cache.Pins r e' ∧ e'.tag = e.tag ∧
      Lower ((S.get s).cache.stateOf (blockOf k a)) ((S.get s').cache.stateOf (blockOf k a)) := by
  have hput := h.put_same hst
  have hlow : lowest (.cache l i d) (S.get (S.put s c)) (blockOf k a) =
      (S.get s).cache.stateOf (blockOf k a) := by
    rw [Site.get_put, ← hst]
    rfl
  rw [← hlow] at hasks
  obtain ⟨s', reply, hs', hinv, hlowered, hgrant⟩ := hout.request _ t a hput hasks
  rw [Site.get_put] at hlowered
  obtain ⟨e', hpin', htag'⟩ := hlowered.1.follows r e hpin
  refine ⟨s', reply, e', hs', ⟨hinv, hlowered.2.1, hlowered.2.2⟩, hgrant, hpin', htag', ?_⟩
  rw [← hst]
  exact hlowered.1.states _

/-- The level below holds the block for writing: it may be held in any state. -/
theorem covers_of_exclusive {sd : Side} {w y : CoherenceState} (h : sd = .data ∧ w = .exclusive)
    (hy : IsMESI y) : Covers sd w y := by
  obtain ⟨rfl, rfl⟩ := h
  exact covers_of_mesi hy

theorem row_upgrade (hout : Serves S out) (h : S.Inv s) (hsd : S.side = .data)
    (hx : (S.get s).cache.stateOf (blockOf k a) = .shared)
    (hz : z = .modified ∨ z = .exclusive) (hacc : message2access t = .ok access)
    (hact : InclusiveMESI.requestAction l.cfg.usingTraces .shared access = some act)
    (hdo : ∀ s r s' u, out s ⟨upgradeReq, a⟩ = .ok (s', u) →
      doCoherenceAction l.cfg (S.ports out) s r ⟨t, a⟩ act =
        .ok (changeState (S.ports out) s' r z true false, reply)) :
    ∃ s', requestIn l.cfg (S.ports out) s ⟨t, a⟩ = .ok (s', reply) ∧ Answered S s s' ∧
      (S.get s').cache.stateOf (blockOf k a) = z := by
  obtain ⟨c, r, e, hst, haddr, hpin, heq⟩ := requestIn_site S out s a
  have htag := hpin.toResolves.tag_eq (by rw [hst, haddr, hx]; exact nofun)
  obtain ⟨s₁, u, e', hs₁, hans, hgrant, hpin', htag', hlow⟩ := asked_site hout h hst hpin
    (Asks.upgrade hsd (by rw [hx]; exact nofun))
  have hne : (S.get s₁).cache.stateOf (blockOf k a) ≠ .exclusive := by
    rw [hx] at hlow
    rcases hlow with hl | hl | ⟨hl, -⟩ <;> rw [hl] <;> exact nofun
  have hvalid : z ≠ .invalid := by rcases hz with rfl | rfl <;> exact nofun
  have hmesi : IsMESI z := hz.imp_right .inl
  have hc : ((S.get s₁).cache.changeState r z true false).stateOf =
      update (S.get s₁).cache.stateOf (blockOf k a) z := by
    rw [StdCache.stateOf_changeState hpin'.toResolves (htag'.trans htag), haddr]
  have hput : S.Inv (S.put s₁ ((S.get s₁).cache.changeState r z true false)) := by
    obtain ⟨-, hui, hud⟩ := hans.inv.under (blockOf k a)
    exact hans.inv.put_update hc (covers_of_exclusive ⟨hsd, hgrant.write (.inr rfl)⟩ hmesi)
      (hui.of_valid (.inl rfl) hvalid) (hud.of_valid (.inr hne) hvalid)
  refine ⟨S.put s₁ ((S.get s₁).cache.changeState r z true false), ?_, ⟨hput, ?_, ?_⟩, ?_⟩
  · rw [heq t access act hacc (by rwa [hx]), hdo _ _ _ _ hs₁]
    rfl
  · exact hans.instr.trans hput.answered_put.instr
  · exact hans.data.trans hput.answered_put.data
  · rw [Site.get_put, Contents.cache_mk, hc, update_self]

/-- A miss: the level below is asked, and the block comes in. -/
theorem row_miss (hout : Serves S out) (h : S.Inv s)
    (hx : (S.get s).cache.stateOf (blockOf k a) = .invalid) {ask : MemoryMessageType}
    (fill : MemoryMessageType → CoherenceState) (answer : MemoryMessageType → MemoryMessageType)
    (hasks : Asks S.side .invalid ask)
    (hfill : ∀ u w, Granted ask u w → Covers S.side w (fill u))
    (hacc : message2access t = .ok access)
    (hact : InclusiveMESI.requestAction l.cfg.usingTraces .invalid access = some act)
    (hdo : ∀ s r s' u w s'', out s ⟨ask, a⟩ = .ok (s', u) → Granted ask u w →
      allocate l.cfg (S.ports out) s' r (fill u) = .ok s'' →
      doCoherenceAction l.cfg (S.ports out) s r ⟨t, a⟩ act = .ok (s'', answer u)) :
    ∃ s' u w, requestIn l.cfg (S.ports out) s ⟨t, a⟩ = .ok (s', answer u) ∧ Answered S s s' ∧
      Granted ask u w ∧ (S.get s').cache.stateOf (blockOf k a) = fill u := by
  obtain ⟨c, r, e, hst, haddr, hpin, heq⟩ := requestIn_site S out s a
  obtain ⟨s₁, u, e', hs₁, hans, hgrant, hpin', -, hlow⟩ := asked_site hout h hst hpin
    (by rw [hx]; exact hasks)
  have hgone : (S.get s₁).cache.stateOf r.theAddress = .invalid := by
    rw [haddr]
    exact hlow.eq_invalid hx
  have hz : Covers S.side (S.floor s₁ r.theAddress) (fill u) := by
    rw [haddr]
    exact hfill _ _ hgrant
  obtain ⟨s₂, hs₂, hinv, hi, hd, hst₂⟩ := allocate_site hout hans.inv hpin' hgone hz
  refine ⟨s₂, u, _, ?_, ⟨hinv, hans.instr.trans hi, hans.data.trans hd⟩, hgrant, ?_⟩
  · rw [heq t access act hacc (by rwa [hx]), hdo _ _ _ _ _ _ hs₁ hgrant hs₂]
  · rw [← haddr]
    exact hst₂

/-! ### Requests, one by one -/

theorem granted_fetch {w : CoherenceState} (hw : w ≠ .invalid) : Granted fetchReq missReply w where
  read := nofun
  write := by
    rintro (h | h)
    · cases h
    · cases h
  fetch _ := ⟨nofun, hw⟩

theorem granted_read {w : CoherenceState} (hw : w ≠ .invalid) : Granted readReq missReply w where
  read _ := ⟨.inl rfl, hw, fun h => absurd rfl h⟩
  write := by
    rintro (h | h)
    · cases h
    · cases h
  fetch := nofun

theorem granted_exclusive (hr : t = readReq → reply = missReplyWritable ∨ reply = missReplyDirty)
    (hf : t ≠ fetchReq) : Granted t reply .exclusive where
  read ht := ⟨.inr (hr ht), nofun, fun _ => rfl⟩
  write _ := rfl
  fetch ht := absurd ht hf

/-- **A fetch.** -/
theorem fetch_site (hout : Serves S out) (h : S.Inv s) :
    ∃ s' reply, requestIn l.cfg (S.ports out) s ⟨fetchReq, a⟩ = .ok (s', reply) ∧
      Answered S s s' ∧ Granted fetchReq reply ((S.get s').cache.stateOf (blockOf k a)) := by
  rcases (h.under (blockOf k a)).1.mesi with hx | hx | hx | hx
  · obtain ⟨s', hs', hans, hst⟩ := row_hit out h hx (t := fetchReq) rfl rfl fun _ _ => rfl
    exact ⟨s', _, hs', hans, granted_fetch (by rw [hst]; exact nofun)⟩
  · obtain ⟨s', hs', hans, hst⟩ := row_hit out h hx (t := fetchReq) rfl rfl fun _ _ => rfl
    exact ⟨s', _, hs', hans, granted_fetch (by rw [hst]; exact nofun)⟩
  · obtain ⟨s', hs', hans, hst⟩ := row_hit out h hx (t := fetchReq) rfl rfl fun _ _ => rfl
    exact ⟨s', _, hs', hans, granted_fetch (by rw [hst]; exact nofun)⟩
  · obtain ⟨s', u, w, hs', hans, -, hst⟩ := row_miss hout h hx (t := fetchReq)
      (fun _ => .shared) (fun _ => missReply) .fetch
      (fun u w hg => covers_shared (hg.fetch rfl).2) rfl rfl
      fun s r s' u w s'' hs' hg hs'' => by
        have hnew : (if u = fwdReplyOwned then CoherenceState.owned else .shared) = .shared :=
          if_neg (hg.fetch rfl).1
        show (out s ⟨fetchReq, a⟩ >>= _) = _
        rw [hs']
        show (allocate l.cfg (S.ports out) s' r
          (if u = fwdReplyOwned then CoherenceState.owned else .shared) >>= _) = _
        rw [hnew, hs'']
        rfl
    exact ⟨s', _, hs', hans, granted_fetch (by rw [hst]; exact nofun)⟩

theorem Site.Inv.covers_of_writable (h : S.Inv s)
    (hx : (S.get s).cache.stateOf (blockOf k a) = .modified ∨
      (S.get s).cache.stateOf (blockOf k a) = .exclusive) (hz : IsMESI z) :
    Covers S.side (S.floor s (blockOf k a)) z :=
  covers_of_exclusive ((h.under (blockOf k a)).1.writable hx) hz

/-- A modified block is handed up and stays behind in the exclusive state. -/
theorem row_handUp (out : Channel τ) (h : S.Inv s)
    (hx : (S.get s).cache.stateOf (blockOf k a) = .modified)
    (hacc : message2access t = .ok access)
    (hact : InclusiveMESI.requestAction l.cfg.usingTraces .modified access = some act)
    (hdo : ∀ s r, doCoherenceAction l.cfg (S.ports out) s r ⟨t, a⟩ act =
      .ok (changeState (S.ports out) s r .exclusive true false, reply)) :
    ∃ s', requestIn l.cfg (S.ports out) s ⟨t, a⟩ = .ok (s', reply) ∧ Answered S s s' ∧
      (S.get s').cache.stateOf (blockOf k a) = .exclusive := by
  obtain ⟨-, hui, hud⟩ := h.under (blockOf k a)
  refine row_change h hx nofun (h.covers_of_writable (.inl hx) (.inr (.inl rfl)))
    (hui.of_valid (.inl rfl) nofun) (hud.of_valid (.inr ?_) nofun) hacc hact hdo
  rw [hx]
  exact nofun

theorem row_dirty (out : Channel τ) (h : S.Inv s)
    (hx : (S.get s).cache.stateOf (blockOf k a) = .exclusive)
    (hd : lowest d (S.get s).data (blockOf k a) = .invalid)
    (hacc : message2access t = .ok access)
    (hact : InclusiveMESI.requestAction l.cfg.usingTraces .exclusive access = some act)
    (hdo : ∀ s r, doCoherenceAction l.cfg (S.ports out) s r ⟨t, a⟩ act =
      .ok (changeState (S.ports out) s r .modified true false, reply)) :
    ∃ s', requestIn l.cfg (S.ports out) s ⟨t, a⟩ = .ok (s', reply) ∧ Answered S s s' ∧
      (S.get s').cache.stateOf (blockOf k a) = .modified := by
  obtain ⟨-, hui, hud⟩ := h.under (blockOf k a)
  exact row_change h hx nofun (h.covers_of_writable (.inr hx) (.inl rfl))
    (hui.of_valid (.inl rfl) nofun) (hud.of_lowest hd _) hacc hact hdo

/-- **A read**, from a cache above. -/
theorem read_site (hout : Serves S out) (h : S.Inv s) (hsd : S.side = .data) :
    ∃ s' reply, requestIn l.cfg (S.ports out) s ⟨readReq, a⟩ = .ok (s', reply) ∧
      Answered S s s' ∧ Granted readReq reply ((S.get s').cache.stateOf (blockOf k a)) := by
  rcases (h.under (blockOf k a)).1.mesi with hx | hx | hx | hx
  · obtain ⟨s', hs', hans, hst⟩ := row_handUp out h hx (t := readReq) rfl rfl
      fun _ _ => rfl
    exact ⟨s', _, hs', hans, by rw [hst]; exact granted_exclusive (fun _ => .inr rfl) nofun⟩
  · obtain ⟨s', hs', hans, hst⟩ := row_hit out h hx (t := readReq) rfl rfl fun _ _ => rfl
    exact ⟨s', _, hs', hans, granted_read (by rw [hst]; exact nofun)⟩
  · obtain ⟨s', hs', hans, hst⟩ := row_hit out h hx (t := readReq) rfl rfl fun _ _ => rfl
    exact ⟨s', _, hs', hans, granted_read (by rw [hst]; exact nofun)⟩
  · obtain ⟨s', u, w, hs', hans, hg, hst⟩ := row_miss hout h hx (t := readReq)
      (fun u => if u = missReply then .shared else .exclusive) id (.read hsd)
      (fun u w hg => by
        obtain ⟨-, hw, hex⟩ := hg.read rfl
        split
        · exact covers_shared hw
        · rename_i hne
          exact covers_of_exclusive ⟨hsd, hex hne⟩ (.inr (.inl rfl))) rfl rfl
      fun s r s' u w s'' hs' hg hs'' => by
        show (out s ⟨readReq, a⟩ >>= _) = _
        rw [hs']
        rcases (hg.read rfl).1 with rfl | rfl | rfl
        · show (allocate l.cfg (S.ports out) s' r .shared >>= _) = _
          rw [show CoherenceState.shared = if missReply = missReply then .shared else .exclusive
            from rfl, hs'']
          rfl
        · show (allocate l.cfg (S.ports out) s' r .exclusive >>= _) = _
          rw [show CoherenceState.exclusive =
            if missReplyWritable = missReply then .shared else .exclusive from rfl, hs'']
          rfl
        · show (allocate l.cfg (S.ports out) s' r .exclusive >>= _) = _
          rw [show CoherenceState.exclusive =
            if missReplyDirty = missReply then .shared else .exclusive from rfl, hs'']
          rfl
    refine ⟨s', _, hs', hans, ?_⟩
    rw [hst]
    rcases (hg.read rfl).1 with rfl | hu
    · exact granted_read nofun
    · rw [if_neg (by rcases hu with rfl | rfl <;> exact nofun)]
      exact granted_exclusive (fun _ => hu) nofun

/-- **A write**, from a cache above. -/
theorem write_site (hout : Serves S out) (h : S.Inv s) (hsd : S.side = .data) :
    ∃ s' reply, requestIn l.cfg (S.ports out) s ⟨writeReq, a⟩ = .ok (s', reply) ∧
      Answered S s s' ∧ Granted writeReq reply ((S.get s').cache.stateOf (blockOf k a)) := by
  have hrow : ∃ s' reply, requestIn l.cfg (S.ports out) s ⟨writeReq, a⟩ = .ok (s', reply) ∧
      Answered S s s' ∧ (S.get s').cache.stateOf (blockOf k a) = .exclusive := by
    rcases (h.under (blockOf k a)).1.mesi with hx | hx | hx | hx
    · obtain ⟨s', hs'⟩ := row_handUp out h hx (t := writeReq) rfl rfl fun _ _ => rfl
      exact ⟨s', _, hs'⟩
    · obtain ⟨s', hs'⟩ := row_hit out h hx (t := writeReq) rfl rfl fun _ _ => rfl
      exact ⟨s', _, hs'⟩
    · obtain ⟨s', hs'⟩ := row_upgrade hout h hsd hx (.inr rfl) (t := writeReq) rfl rfl
        fun s r s' u hs' => by
          show (out s ⟨upgradeReq, a⟩ >>= _) = _
          rw [hs']
          rfl
      exact ⟨s', _, hs'⟩
    · obtain ⟨s', u, w, hs', hans, -, hst⟩ := row_miss hout h hx (t := writeReq)
        (fun _ => .exclusive) id (.write hsd)
        (fun u w hg => covers_of_exclusive ⟨hsd, hg.write (.inl rfl)⟩ (.inr (.inl rfl))) rfl rfl
        fun s r s' u w s'' hs' _ hs'' => by
          show (out s ⟨writeReq, a⟩ >>= _) = _
          rw [hs']
          show (allocate l.cfg (S.ports out) s' r .exclusive >>= _) = _
          rw [hs'']
          rfl
      exact ⟨s', _, hs', hans, hst⟩
  obtain ⟨s', reply, hs', hans, hst⟩ := hrow
  refine ⟨s', reply, hs', hans, ?_⟩
  rw [hst]
  exact granted_exclusive nofun nofun

/-- **An upgrade**, from a cache above that holds the block. -/
theorem upgrade_site (hout : Serves S out) (h : S.Inv s) (hsd : S.side = .data)
    (hv : (S.get s).cache.stateOf (blockOf k a) ≠ .invalid) :
    ∃ s' reply, requestIn l.cfg (S.ports out) s ⟨upgradeReq, a⟩ = .ok (s', reply) ∧
      Answered S s s' ∧ Granted upgradeReq reply ((S.get s').cache.stateOf (blockOf k a)) := by
  have hrow : ∃ s' reply, requestIn l.cfg (S.ports out) s ⟨upgradeReq, a⟩ = .ok (s', reply) ∧
      Answered S s s' ∧ (S.get s').cache.stateOf (blockOf k a) = .exclusive := by
    rcases (h.under (blockOf k a)).1.mesi with hx | hx | hx | hx
    · obtain ⟨s', hs'⟩ := row_handUp out h hx (t := upgradeReq) rfl rfl fun _ _ => rfl
      exact ⟨s', _, hs'⟩
    · obtain ⟨s', hs'⟩ := row_hit out h hx (t := upgradeReq) rfl rfl fun _ _ => rfl
      exact ⟨s', _, hs'⟩
    · obtain ⟨s', hs'⟩ := row_upgrade hout h hsd hx (.inr rfl) (t := upgradeReq) rfl rfl
        fun s r s' u hs' => by
          show (out s ⟨upgradeReq, a⟩ >>= _) = _
          rw [hs']
          rfl
      exact ⟨s', _, hs'⟩
    · exact absurd hx hv
  obtain ⟨s', reply, hs', hans, hst⟩ := hrow
  refine ⟨s', reply, hs', hans, ?_⟩
  rw [hst]
  exact granted_exclusive nofun nofun

/-- **A load** of the processor. -/
theorem load_site (hout : Serves S out) (h : S.Inv s) (hsd : S.side = .data) :
    ∃ s' reply, requestIn l.cfg (S.ports out) s ⟨loadReq, a⟩ = .ok (s', reply) ∧
      Answered S s s' := by
  rcases (h.under (blockOf k a)).1.mesi with hx | hx | hx | hx
  · obtain ⟨s', hs', hans, -⟩ := row_hit out h hx (t := loadReq) rfl rfl fun _ _ => rfl
    exact ⟨s', _, hs', hans⟩
  · obtain ⟨s', hs', hans, -⟩ := row_hit out h hx (t := loadReq) rfl rfl fun _ _ => rfl
    exact ⟨s', _, hs', hans⟩
  · obtain ⟨s', hs', hans, -⟩ := row_hit out h hx (t := loadReq) rfl rfl fun _ _ => rfl
    exact ⟨s', _, hs', hans⟩
  · obtain ⟨s', u, w, hs', hans, -⟩ := row_miss hout h hx (t := loadReq) loadFill id (.read hsd)
      (fun u w hg => by
        obtain ⟨hu, hw, hex⟩ := hg.read rfl
        rcases hu with rfl | rfl | rfl
        · exact covers_shared hw
        · exact covers_of_exclusive ⟨hsd, hex nofun⟩ (.inr (.inl rfl))
        · exact covers_of_exclusive ⟨hsd, hex nofun⟩ (.inl rfl)) rfl rfl
      fun s r s' u w s'' hs' hg hs'' => by
        show (out s ⟨readReq, a⟩ >>= _) = _
        rw [hs']
        rcases (hg.read rfl).1 with rfl | rfl | rfl
        · show (allocate l.cfg (S.ports out) s' r (loadFill missReply) >>= _) = _
          rw [hs'']
          rfl
        · show (allocate l.cfg (S.ports out) s' r (loadFill missReplyWritable) >>= _) = _
          rw [hs'']
          rfl
        · show (allocate l.cfg (S.ports out) s' r (loadFill missReplyDirty) >>= _) = _
          rw [hs'']
          rfl
    exact ⟨s', _, hs', hans⟩

/-- **A store** of the processor that brings the block in. -/
theorem store_site (hout : Serves S out) (h : S.Inv s) (hsd : S.side = .data)
    (hd : lowest d (S.get s).data (blockOf k a) = .invalid)
    (ht : t = storeReq ∨ t = rmwReq ∨ t = cmpxReq) :
    ∃ s' reply, requestIn l.cfg (S.ports out) s ⟨t, a⟩ = .ok (s', reply) ∧ Answered S s s' := by
  have hacc : message2access t = .ok .storeAccess := by rcases ht with rfl | rfl | rfl <;> rfl
  rcases (h.under (blockOf k a)).1.mesi with hx | hx | hx | hx
  · obtain ⟨s', hs', hans, -⟩ := row_hit out h hx hacc rfl fun _ _ => rfl
    exact ⟨s', _, hs', hans⟩
  · obtain ⟨s', hs', hans, -⟩ := row_dirty out h hx hd hacc rfl fun _ _ => rfl
    exact ⟨s', _, hs', hans⟩
  · obtain ⟨s', hs', hans, -⟩ := row_upgrade hout h hsd hx (.inl rfl) hacc rfl
      fun s r s' u hs' => by
        show (out s ⟨upgradeReq, a⟩ >>= _) = _
        rw [hs']
        rfl
    exact ⟨s', _, hs', hans⟩
  · obtain ⟨s', u, w, hs', hans, -⟩ := row_miss hout h hx
      (fun _ => .modified) id (.write hsd)
      (fun u w hg => covers_of_exclusive ⟨hsd, hg.write (.inl rfl)⟩ (.inl rfl)) hacc rfl
      fun s r s' u w s'' hs' _ hs'' => by
        show (out s ⟨writeReq, a⟩ >>= _) = _
        rw [hs']
        show (allocate l.cfg (S.ports out) s' r .modified >>= _) = _
        rw [hs'']
        rfl
    exact ⟨s', _, hs', hans⟩

/-- **A store that does not bring the block in**, from the processor or handed down. -/
theorem nonAllocatingStore_site (hout : Serves S out) (h : S.Inv s) (hsd : S.side = .data)
    (hd : lowest d (S.get s).data (blockOf k a) = .invalid) :
    ∃ s' reply, requestIn l.cfg (S.ports out) s ⟨nonAllocatingStoreReq, a⟩ = .ok (s', reply) ∧
      Answered S s s' := by
  rcases (h.under (blockOf k a)).1.mesi with hx | hx | hx | hx
  · obtain ⟨s', hs', hans, -⟩ := row_hit out h hx (t := nonAllocatingStoreReq) rfl rfl
      fun _ _ => rfl
    exact ⟨s', _, hs', hans⟩
  · obtain ⟨s', hs', hans, -⟩ := row_dirty out h hx hd (t := nonAllocatingStoreReq) rfl rfl
      fun _ _ => rfl
    exact ⟨s', _, hs', hans⟩
  · obtain ⟨s', hs', hans, -⟩ := row_upgrade hout h hsd hx (.inl rfl) (t := nonAllocatingStoreReq)
      rfl rfl fun s r s' u hs' => by
        show (out s ⟨upgradeReq, a⟩ >>= _) = _
        rw [hs']
        rfl
    exact ⟨s', _, hs', hans⟩
  · obtain ⟨c, r, e, hst, -, hpin, heq⟩ := requestIn_site S out s a
    obtain ⟨s', u, e', hs', hans, -⟩ := asked_site hout h hst hpin
      (Asks.nonAllocatingStore hsd hx)
    refine ⟨s', u, ?_, hans⟩
    rw [heq nonAllocatingStoreReq _ _ rfl (by rw [hx]; rfl)]
    exact hs'

theorem granted_processor (ht : t = loadReq ∨ (t = storeReq ∨ t = rmwReq ∨ t = cmpxReq) ∨
    t = nonAllocatingStoreReq) : Granted t reply x := by
  refine ⟨?_, ?_, ?_⟩
  · rintro rfl
    simp at ht
  · rintro (rfl | rfl)
    · simp at ht
    · simp at ht
  · rintro rfl
    simp at ht

/-- **Every request** that may be made is answered. -/
theorem request_site (hout : Serves S out) (h : S.Inv s)
    (hasks : Asks S.side (lowest d (S.get s).data (blockOf k a)) t) :
    ∃ s' reply, requestIn l.cfg (S.ports out) s ⟨t, a⟩ = .ok (s', reply) ∧ Answered S s s' ∧
      Granted t reply ((S.get s').cache.stateOf (blockOf k a)) := by
  cases hasks with
  | fetch => exact fetch_site hout h
  | read hsd => exact read_site hout h hsd
  | write hsd => exact write_site hout h hsd
  | upgrade hsd hy =>
    refine upgrade_site hout h hsd fun hx => hy ?_
    have hud := (h.under (blockOf k a)).2.2
    rw [hx] at hud
    exact hud.lowest_eq_invalid
  | load hsd =>
    obtain ⟨s', reply, hs', hans⟩ := load_site hout h hsd (a := a)
    exact ⟨s', reply, hs', hans, granted_processor (.inl rfl)⟩
  | store hsd hy ht =>
    obtain ⟨s', reply, hs', hans⟩ := store_site hout h hsd hy ht
    exact ⟨s', reply, hs', hans, granted_processor (.inr (.inl ht))⟩
  | nonAllocatingStore hsd hy =>
    obtain ⟨s', reply, hs', hans⟩ := nonAllocatingStore_site hout h hsd hy
    exact ⟨s', reply, hs', hans, granted_processor (.inr (.inr rfl))⟩

/-- **The report of an eviction**, from above: an exclusive block may become modified, and
that is all. -/
theorem report_site (S : Site k (.cache l i d) τ) (out : Channel τ) {v : ℕ} {y : CoherenceState}
    {sd : Side} (hv : blockOf k v = v) (hcov : Covers sd ((S.get s).cache.stateOf v) y)
    (hmesi : IsMESI ((S.get s).cache.stateOf v)) (hrep : Reports y t) :
    ∃ c reply, requestIn l.cfg (S.ports out) s ⟨t, v⟩ = .ok (S.put s c, reply) ∧
      (c.stateOf = (S.get s).cache.stateOf ∨ sd = .data ∧
        (S.get s).cache.stateOf v = .exclusive ∧
        c.stateOf = update (S.get s).cache.stateOf v .modified) := by
  obtain ⟨c, r, e, hst, haddr, hpin, heq⟩ := requestIn_site S out s v
  rw [hv] at haddr heq
  have hlru : (c.updateLRU r).stateOf = (S.get s).cache.stateOf := by
    rw [StdCache.stateOf_updateLRU, hst]
  rcases hrep with ⟨rfl, hy⟩ | ⟨ht, hy⟩
  · have hx := hcov.valid hy
    refine ⟨c.updateLRU r, evictClean, ?_, .inl hlru⟩
    rw [← updateLRU_put out]
    rcases hmesi with hm | hm | hm | hm
    · exact heq evictClean _ _ rfl (by rw [hm]; rfl)
    · exact heq evictClean _ _ rfl (by rw [hm]; rfl)
    · exact heq evictClean _ _ rfl (by rw [hm]; rfl)
    · exact absurd hm hx
  · obtain ⟨hsd, hx⟩ := hcov.writable hy
    rcases ht with rfl | rfl
    · refine ⟨c.updateLRU r, evictWritable, ?_, .inl hlru⟩
      rw [← updateLRU_put out]
      exact heq evictWritable _ _ rfl (by rw [hx]; rfl)
    · refine ⟨c.changeState r .modified true false, evictDirty, ?_, .inr ⟨hsd, hx, ?_⟩⟩
      · rw [← changeState_put out]
        exact heq evictDirty _ _ rfl (by rw [hx]; rfl)
      · have htag := hpin.toResolves.tag_eq (by rw [hst, haddr, hx]; exact nofun)
        rw [StdCache.stateOf_changeState hpin.toResolves htag, hst, haddr]

theorem Under.covers_lowest {sd : Side} {sh : Shape} {st : Contents k sh}
    (h : Under sd sh x st b) : Covers sd x (lowest sh st b) := by
  cases sh with
  | nothing => exact covers_invalid
  | cache l i d => exact h.1

/-- **A cache passes the contract on** to what is above it on the data side. -/
theorem Serves.data (hout : Serves S out) :
    Serves S.data (requestIn l.cfg (S.ports out)) where
  request s t a hinv hasks := by
    rw [Site.inv_data] at hinv
    obtain ⟨s', reply, hs', hans, hgrant⟩ := request_site hout hinv hasks
    exact ⟨s', reply, hs', Site.inv_data.mpr hans.inv, hans.data, hgrant⟩
  evict s t v hinv hv hrep := by
    rw [Site.inv_data] at hinv
    obtain ⟨hcov, hui, hud⟩ := hinv.under v
    obtain ⟨c, reply, hs', hc⟩ := report_site S out hv hud.covers_lowest hcov.mesi hrep
    refine ⟨S.put s c, reply, hs', ?_, fun b => ?_, fun b hb => ?_, ?_⟩
    · have hput : ∀ b, Covers S.side (S.floor s b) (c.stateOf b) ∧
          Under .instr i (c.stateOf b) (S.get s).instr b := by
        intro b
        rcases hc with hc | ⟨-, hx, hc⟩
        · rw [hc]
          exact ⟨(hinv.under b).1, (hinv.under b).2.1⟩
        · rw [hc]
          by_cases hb : b = v
          · subst hb
            rw [update_self]
            exact ⟨covers_of_exclusive (hcov.writable (.inr hx)) (.inl rfl),
              hui.of_valid (.inl rfl) nofun⟩
          · rw [update_of_ne hb]
            exact ⟨(hinv.under b).1, (hinv.under b).2.1⟩
      refine ⟨S.rest_set hinv.rest, fun b => ?_, fun b => ?_⟩
      · rw [Site.floor_put, Site.get_put]
        exact (hput b).1
      · rw [Site.get_put]
        exact (hput b).2
    · show Under S.side d _ (S.get (S.put s c)).data b
      rw [Site.get_put]
      exact (hinv.under b).2.2
    · show (S.get (S.put s c)).cache.stateOf b = _
      rw [Site.get_put, Contents.cache_mk]
      rcases hc with hc | ⟨-, -, hc⟩
      · rw [hc]
        rfl
      · rw [hc, update_of_ne hb]
        rfl
    · show Lowered d (S.get s).data (S.get (S.put s c)).data
      rw [Site.get_put]
      exact .refl _

/-- **A cache passes the contract on** to what is above it on the instruction side. -/
theorem Serves.instr (hout : Serves S out) :
    Serves S.instr (requestIn l.cfg (S.ports out)) where
  request s t a hinv hasks := by
    rw [Site.inv_instr] at hinv
    -- an instruction side only fetches
    have ht : t = fetchReq := by
      rcases hasks with _ | h | h | h | h | h | h
      · rfl
      all_goals cases h
    subst ht
    obtain ⟨s', reply, hs', hans, hgrant⟩ := request_site hout hinv .fetch
    exact ⟨s', reply, hs', Site.inv_instr.mpr hans.inv, hans.instr, hgrant⟩
  evict s t v hinv hv hrep := by
    rw [Site.inv_instr] at hinv
    obtain ⟨hcov, hui, -⟩ := hinv.under v
    obtain ⟨c, reply, hs', hc⟩ := report_site S out hv hui.covers_lowest hcov.mesi hrep
    have hsame : c.stateOf = (S.get s).cache.stateOf := by
      rcases hc with hc | ⟨hsd, -⟩
      · exact hc
      · cases hsd
    have hput := hinv.put_same hsame
    refine ⟨S.put s c, reply, hs', (Site.inv_instr.mpr hput).rest, fun b => ?_, fun b _ => ?_, ?_⟩
    · show Under .instr i _ (S.get (S.put s c)).instr b
      rw [Site.get_put]
      exact (hinv.under b).2.1
    · show (S.get (S.put s c)).cache.stateOf b = (S.get s).cache.stateOf b
      rw [Site.get_put, Contents.cache_mk, hsame]
    · show Lowered i (S.get s).instr (S.get (S.put s c)).instr
      rw [Site.get_put]
      exact .refl _

end Cache

/-- **A fetch** may enter a stack anywhere. -/
theorem request_fetch {τ : Type} {sh : Shape} {S : Site k sh τ} {out : Channel τ}
    (hout : Serves S out) (path : List Side) {s : τ} (hinv : S.Inv s) (a : ℕ) :
    ∃ s' reply, request sh S.get S.set out path s ⟨fetchReq, a⟩ = .ok (s', reply) ∧ S.Inv s' := by
  induction sh generalizing path out with
  | nothing =>
    obtain ⟨s', reply, hs', hinv', -⟩ := hout.request s fetchReq a hinv .fetch
    exact ⟨s', reply, hs', hinv'⟩
  | cache l i d ihi ihd =>
    cases path with
    | nil =>
      obtain ⟨s', reply, hs', hans, -⟩ := fetch_site hout hinv (a := a)
      exact ⟨s', reply, hs', hans.inv⟩
    | cons sd path =>
      cases sd with
      | instr =>
        obtain ⟨s', reply, hs', hinv'⟩ := ihi hout.instr path (Site.inv_instr.mpr hinv)
        exact ⟨s', reply, hs', Site.inv_instr.mp hinv'⟩
      | data =>
        obtain ⟨s', reply, hs', hinv'⟩ := ihd hout.data path (Site.inv_data.mpr hinv)
        exact ⟨s', reply, hs', Site.inv_data.mp hinv'⟩

theorem asks_dataRequest (q : DataRequest) : Asks .data .invalid q.type := by
  cases q with
  | load => exact .load rfl
  | store => exact .store rfl rfl (.inl rfl)
  | rmw => exact .store rfl rfl (.inr (.inl rfl))
  | cmpx => exact .store rfl rfl (.inr (.inr rfl))
  | nonAllocatingStore => exact .nonAllocatingStore rfl rfl

/-- **A data request** enters a stack at the end of its data sides. -/
theorem request_data {τ : Type} {sh : Shape} {S : Site k sh τ} {out : Channel τ}
    (hout : Serves S out) (hsd : S.side = .data) {s : τ} (hinv : S.Inv s) (q : DataRequest)
    (a : ℕ) : ∃ s' reply, request sh S.get S.set out sh.spine s ⟨q.type, a⟩ = .ok (s', reply) ∧
      S.Inv s' := by
  induction sh generalizing out with
  | nothing =>
    obtain ⟨s', reply, hs', hinv', -⟩ := hout.request s q.type a hinv (by
      rw [hsd]
      exact asks_dataRequest q)
    exact ⟨s', reply, hs', hinv'⟩
  | cache l i d _ ihd =>
    obtain ⟨s', reply, hs', hinv'⟩ := ihd hout.data hsd (Site.inv_data.mpr hinv)
    exact ⟨s', reply, hs', Site.inv_data.mp hinv'⟩

end FastCache

end Flexus
