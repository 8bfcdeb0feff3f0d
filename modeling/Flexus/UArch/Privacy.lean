import Flexus.UArch.LocalView

/-!
# Uncommitted stores stay private

Until a store is committed, nobody but its CPU should be able to tell what it has stored: two
runs that differ in the value of one uncommitted store should look the same to every other
CPU. Since the memory of Simics may hold what one CPU sees, this rests on the tracker knowing
whose view that is.

DMA transfers take this knowledge away. A transfer poisons the tracks of the bytes it writes,
and the next call reads what everybody sees from the memory of Simics – also where the memory
shows the view of a CPU. The value stays private as long as no transfer writes to the
double-word while Simics shows the view of the CPU that has stored it
(`Flexus.UArch.Observed.Unexposed`).
-/

namespace Flexus

open Lib List

namespace UArch

open Lib (Bytes.Memory Bytes.read Bytes.write)

/-! ### Runs with DMA -/

/-- The operations on a tracker: the calls of the cores, and DMA transfers. -/
inductive Operation
  | call (e : Call)
  | invalidate (a n : ℕ)

/-- Operations at proper addresses. -/
def Operation.Aligned : Operation → Prop
  | .call (.store st) | .call (.commitStore st) => Placed st.address st.size
  | .call (.load _ a size) => Placed a size
  | .call (.access _ _) | .invalidate _ _ => True

/-- A tracker, with the values the CPUs have loaded. -/
structure Observed where
  tracker : ValueTracker
  loads : List (ℕ × BitVec 64)

namespace Observed

/-- One operation. -/
def step (s : Observed) : Operation → Except TrackerFault Observed
  | .call (.store st) => do
    return { s with tracker := ← s.tracker.store st.cpu st.address st.size st.value }
  | .call (.commitStore st) => do
    return { s with tracker := ← s.tracker.commitStore st.cpu st.address st.size st.value }
  | .call (.load cpu a size) => do
    let (v, x) ← s.tracker.load cpu a size
    return ⟨v, s.loads ++ [(cpu, x)]⟩
  | .call (.access cpu a) => do
    return { s with tracker := ← s.tracker.access cpu a }
  | .invalidate a n => .ok { s with tracker := s.tracker.invalidate a n }

/-- The runs over some memory. -/
def machine (m : Bytes.Memory) : Machine Observed Operation TrackerFault :=
  ⟨⟨.init m, []⟩, step⟩

/-- What a CPU has loaded. -/
def loadsOf (s : Observed) (cpu : ℕ) : List (BitVec 64) :=
  (s.loads.filter fun x => x.1 == cpu).map Prod.snd

/-- **No transfer exposes a store**: it does not write to the double-word of the store while
Simics shows what the CPU of the store sees there. -/
def Unexposed (st : Store) (s : Observed) : Operation → Prop
  | .invalidate a n => ∀ k < n, dwAddr (a + k) = dwAddr st.address →
      ∀ t, s.tracker.theTracker (dwAddr st.address) = some t → t.theSimicsReflectsCPU ≠ st.cpu
  | _ => True

end Observed

/-! ### Tracks that differ in the view of one CPU -/

/-- A local value without what it says about the CPU whose view is secret, if there is one. -/
def LocalValue.hide (o : Option ℕ) (l : LocalValue) : LocalValue :=
  if o = some l.cpu then { l with theValue := 0#64 } else l

namespace ValueTrack

/-- A track without the secret view. -/
def hide (o : Option ℕ) (t : ValueTrack) : ValueTrack :=
  { t with theLocallyVisibleValues := t.theLocallyVisibleValues.map (LocalValue.hide o) }

/-- Simics shows the secret view. -/
def Shows (o : Option ℕ) (t : ValueTrack) : Prop :=
  ∃ d : ℕ, o = some d ∧ t.theSimicsReflectsCPU = d

end ValueTrack

/-- **Two tracks of a double-word that only the secret view tells apart**, with what Simics
holds. -/
def TrackAlike (o : Option ℕ) (x x' : BitVec 64) : Option ValueTrack → Option ValueTrack → Prop
  | none, none => x = x'
  | some t, some t' => t.hide o = t'.hide o ∧ (t.Shows o ∨ x = x')
  | _, _ => False

namespace ValueTrack

variable {t t' : ValueTrack} {o : Option ℕ} {c : ℕ} {f f' : LocalValue → LocalValue}
  {l l' : LocalValue}

theorem hide_of_ne (h : o ≠ some l.cpu) : l.hide o = l := if_neg h

theorem hide_cpu (o : Option ℕ) (l : LocalValue) : (l.hide o).cpu = l.cpu := by
  rw [LocalValue.hide]
  split
  · rfl
  · rfl

theorem hide_outstanding (o : Option ℕ) (l : LocalValue) :
    (l.hide o).theOutstandingStores = l.theOutstandingStores := by
  rw [LocalValue.hide]
  split
  · rfl
  · rfl

theorem find_hide : (t.hide o).find c = (t.find c).map (LocalValue.hide o) := by
  rw [find, find, Keyed.lookup, Keyed.lookup, hide, find?_map]
  congr 2
  funext l
  simp [hide_cpu]

/-- Alike tracks have values of the same CPUs, with the same numbers of stores, and the same
values but for the secret one. -/
theorem find_alike (h : t.hide o = t'.hide o) (c : ℕ) :
    (t.find c = none ∧ t'.find c = none) ∨ ∃ l l', t.find c = some l ∧ t'.find c = some l' ∧
      l.theOutstandingStores = l'.theOutstandingStores ∧ (o ≠ some c → l = l') := by
  have hfind : (t.find c).map (LocalValue.hide o) = (t'.find c).map (LocalValue.hide o) := by
    rw [← find_hide, ← find_hide, h]
  cases hl : t.find c with
  | none =>
    rw [hl] at hfind
    exact .inl ⟨rfl, Option.map_eq_none_iff.mp hfind.symm⟩
  | some l =>
    rw [hl] at hfind
    obtain ⟨l', hl', heq⟩ := Option.map_eq_some_iff.mp hfind.symm
    refine .inr ⟨l, l', rfl, hl', ?_, fun hc => ?_⟩
    · rw [← hide_outstanding o l, ← heq, hide_outstanding]
    · have hk : l.cpu = c := Keyed.key_of_lookup hl
      have hk' : l'.cpu = c := Keyed.key_of_lookup hl'
      rw [hide_of_ne (by rw [hk']; exact hc), hide_of_ne (by rw [hk]; exact hc)] at heq
      exact heq.symm

theorem tag_alike (h : t.hide o = t'.hide o) : t.theSimicsReflectsCPU = t'.theSimicsReflectsCPU :=
  (ValueTrack.mk.inj h).1

theorem global_alike (h : t.hide o = t'.hide o) :
    t.theGloballyVisibleValue = t'.theGloballyVisibleValue :=
  (ValueTrack.mk.inj h).2.1

theorem locals_alike (h : t.hide o = t'.hide o) :
    t.theLocallyVisibleValues.map (LocalValue.hide o) =
      t'.theLocallyVisibleValues.map (LocalValue.hide o) :=
  (ValueTrack.mk.inj h).2.2

theorem hide_eq (htag : t.theSimicsReflectsCPU = t'.theSimicsReflectsCPU)
    (hglobal : t.theGloballyVisibleValue = t'.theGloballyVisibleValue)
    (hlocals : t.theLocallyVisibleValues.map (LocalValue.hide o) =
      t'.theLocallyVisibleValues.map (LocalValue.hide o)) : t.hide o = t'.hide o := by
  rw [hide, hide, htag, hglobal, hlocals]

theorem nil_alike (h : t.hide o = t'.hide o) :
    t.theLocallyVisibleValues = [] ↔ t'.theLocallyVisibleValues = [] := by
  rw [← map_eq_nil_iff (f := LocalValue.hide o), locals_alike h, map_eq_nil_iff]

theorem reflecting_alike (h : t.hide o = t'.hide o) (r : ℤ) :
    (t.reflecting r).hide o = (t'.reflecting r).hide o := by
  have hglobal := global_alike h
  have hlocals := locals_alike h
  exact hide_eq rfl hglobal hlocals

theorem published_alike (h : t.hide o = t'.hide o) (x : BitVec 64) :
    (t.published x).hide o = (t'.published x).hide o := by
  have hlocals := locals_alike h
  exact hide_eq rfl rfl hlocals

theorem setLocal_alike (h : t.hide o = t'.hide o)
    (hf : ∀ l l', l.cpu = c → l.hide o = l'.hide o → (f l).hide o = (f' l').hide o) :
    (t.setLocal c f).hide o = (t'.setLocal c f').hide o := by
  have htag := tag_alike h
  have hglobal := global_alike h
  refine hide_eq htag hglobal ?_
  have hlist := locals_alike h
  rw [setLocal, setLocal]
  simp only
  generalize t.theLocallyVisibleValues = k at hlist
  generalize t'.theLocallyVisibleValues = k' at hlist
  induction k generalizing k' with
  | nil =>
    rw [map_nil] at hlist
    rw [map_eq_nil_iff.mp hlist.symm]
    rfl
  | cons l k ih =>
    cases k' with
    | nil => cases hlist
    | cons l' k' =>
      rw [map_cons, map_cons, List.cons.injEq] at hlist
      have hcpu : l.cpu = l'.cpu := by rw [← hide_cpu o l, hlist.1, hide_cpu]
      rw [Keyed.update, Keyed.update, hcpu]
      split
      · rename_i hc
        rw [map_cons, map_cons, hf l l' (hcpu.trans hc) hlist.1, hlist.2]
      · rw [map_cons, map_cons, hlist.1, ih k' hlist.2]

/-- The value of a CPU is set on both sides, to the same unless it is secret. -/
theorem setValue_alike {x x' : BitVec 64} (h : t.hide o = t'.hide o) (hx : o = some c ∨ x = x')
    (g : ℕ → ℕ) :
    (t.setLocal c fun l => { l with
      theValue := x, theOutstandingStores := g l.theOutstandingStores }).hide o =
    (t'.setLocal c fun l => { l with
      theValue := x', theOutstandingStores := g l.theOutstandingStores }).hide o := by
  refine setLocal_alike h fun l l' hc hll => ?_
  have hcpu : l.cpu = l'.cpu := by rw [← hide_cpu o l, hll, hide_cpu]
  have hn : l.theOutstandingStores = l'.theOutstandingStores := by
    rw [← hide_outstanding o l, hll, hide_outstanding]
  rw [LocalValue.hide, LocalValue.hide, ← hcpu, ← hn]
  rcases hx with ho | hx
  · rw [if_pos (ho.trans (congrArg some hc.symm)), if_pos (ho.trans (congrArg some hc.symm))]
  · rw [hx]

theorem addLocal_alike (h : t.hide o = t'.hide o) (hl : l.hide o = l'.hide o) :
    (t.addLocal l).hide o = (t'.addLocal l').hide o := by
  have htag := tag_alike h
  have hglobal := global_alike h
  refine hide_eq htag hglobal ?_
  rw [addLocal, addLocal, map_append, map_append, locals_alike h, map_singleton, map_singleton, hl]

theorem map_hide_erase {k : List LocalValue} :
    (Keyed.erase LocalValue.cpu k c).map (LocalValue.hide o) =
      Keyed.erase LocalValue.cpu (k.map (LocalValue.hide o)) c := by
  rw [Keyed.erase, Keyed.erase, filter_map]
  congr 2
  funext l
  simp [hide_cpu]

theorem removeLocal_alike (h : t.hide o = t'.hide o) :
    (t.removeLocal c).hide o = (t'.removeLocal c).hide o := by
  have htag := tag_alike h
  have hglobal := global_alike h
  refine hide_eq htag hglobal ?_
  rw [removeLocal, removeLocal, map_hide_erase, map_hide_erase, locals_alike h]

theorem dropStore_alike (h : t.hide o = t'.hide o)
    (hl : l.theOutstandingStores = l'.theOutstandingStores) :
    (ValueTracker.dropStore t c l).hide o = (ValueTracker.dropStore t' c l').hide o := by
  rw [ValueTracker.dropStore, ValueTracker.dropStore, hl]
  split
  · exact removeLocal_alike h
  · refine setLocal_alike h fun l l' _ hll => ?_
    rw [LocalValue.hide, LocalValue.hide] at hll ⊢
    grind

theorem not_shows {r : ℤ} (hr : r < 0) (h : t.theSimicsReflectsCPU = r) : ¬ t.Shows o := by
  rintro ⟨d, -, hd⟩
  omega

theorem eq_of_reflects {x x' : BitVec 64} (h : t.Shows o ∨ x = x') (hc : o ≠ some c)
    (ht : t.theSimicsReflectsCPU = c) : x = x' := by
  refine h.resolve_left ?_
  rintro ⟨d, ho, hd⟩
  have : c = d := by omega
  exact hc (this ▸ ho)

end ValueTrack

/-! ### The operations on alike trackers -/

namespace ValueTracker

variable {v v' u : ValueTracker} {e : ℕ} {o : Option ℕ} {t t' : ValueTrack} {x x' : BitVec 64}

/-- Two trackers are alike at a double-word. -/
def AlikeAt (o : Option ℕ) (e : ℕ) (v v' : ValueTracker) : Prop :=
  TrackAlike o (Bytes.read v.simics e 8) (Bytes.read v'.simics e 8) (v.theTracker e)
    (v'.theTracker e)

theorem AlikeAt.cases (h : AlikeAt o e v v') :
    (v.theTracker e = none ∧ v'.theTracker e = none ∧
      Bytes.read v.simics e 8 = Bytes.read v'.simics e 8) ∨
    ∃ t t', v.theTracker e = some t ∧ v'.theTracker e = some t' ∧ t.hide o = t'.hide o ∧
      (t.Shows o ∨ Bytes.read v.simics e 8 = Bytes.read v'.simics e 8) := by
  rw [AlikeAt] at h
  cases ht : v.theTracker e with
  | none =>
    cases ht' : v'.theTracker e with
    | none =>
      rw [ht, ht'] at h
      exact .inl ⟨rfl, rfl, h⟩
    | some t' =>
      rw [ht, ht'] at h
      exact h.elim
  | some t =>
    cases ht' : v'.theTracker e with
    | none =>
      rw [ht, ht'] at h
      exact h.elim
    | some t' =>
      rw [ht, ht'] at h
      exact .inr ⟨t, t', rfl, rfl, h.1, h.2⟩

theorem alikeAt_setTrack (h : t.hide o = t'.hide o)
    (hx : t.Shows o ∨ Bytes.read v.simics e 8 = Bytes.read v'.simics e 8) :
    AlikeAt o e (v.setTrack e (some t)) (v'.setTrack e (some t')) := by
  rw [AlikeAt, theTracker_setTrack, theTracker_setTrack]
  exact ⟨h, hx⟩

theorem alikeAt_switch {r : ℤ} (h : t.hide o = t'.hide o)
    (hx : (∃ d : ℕ, o = some d ∧ r = d) ∨ x = x') :
    AlikeAt o e (v.switch e t r x) (v'.switch e t' r x') := by
  refine alikeAt_setTrack (ValueTrack.reflecting_alike h r) ?_
  rcases hx with hd | hx
  · exact .inl hd
  · refine .inr ?_
    rw [hx]
    exact Bytes.read_write.trans Bytes.read_write.symm

/-- What has been changed by a DMA transfer is read again on both sides. -/
theorem refresh_alike (h : t.hide o = t'.hide o)
    (hx : t.Shows o ∨ Bytes.read v.simics e 8 = Bytes.read v'.simics e 8) :
    (v.refresh e t).hide o = (v'.refresh e t').hide o ∧
      ((v.refresh e t).Shows o ∨ Bytes.read v.simics e 8 = Bytes.read v'.simics e 8) := by
  have htag := ValueTrack.tag_alike h
  rw [refresh, refresh, ← htag]
  split
  · rename_i hp
    have hx' := hx.resolve_left (ValueTrack.not_shows (by decide) hp)
    refine ⟨?_, .inr hx'⟩
    have hlocals := ValueTrack.locals_alike h
    exact ValueTrack.hide_eq rfl hx' hlocals
  · exact ⟨h, hx⟩

theorem shown_or_eq {c : ℕ} {l l' : LocalValue} (h : o ≠ some c → l = l') :
    (∃ d : ℕ, o = some d ∧ (c : ℤ) = d) ∨ l.theValue = l'.theValue := by
  by_cases hc : o = some c
  · exact .inl ⟨c, hc, rfl⟩
  · exact .inr (by rw [h hc])

/-- **An access** by any CPU. -/
theorem access_alike {c a : ℕ} (h : AlikeAt o (dwAddr a) v v') (hu : v.access c a = .ok u) :
    ∃ u', v'.access c a = .ok u' ∧ OnlyAt (dwAddr a) v u ∧ OnlyAt (dwAddr a) v' u' ∧
      AlikeAt o (dwAddr a) u u' := by
  rw [access] at hu ⊢
  obtain ⟨ha, hu⟩ := of_ite_error_eq_ok hu
  rw [if_neg ha]
  rcases h.cases with ⟨ht, ht', -⟩ | ⟨t, t', ht, ht', hh, hx⟩
  · simp only [ht] at hu
    cases hu
    simp only [ht']
    exact ⟨v', rfl, onlyAt_refl, onlyAt_refl, h⟩
  · obtain ⟨hh, hx⟩ := refresh_alike hh hx
    simp only [ht] at hu
    simp only [ht']
    generalize v.refresh (dwAddr a) t = t at hh hx hu
    generalize v'.refresh (dwAddr a) t' = t' at hh
    have htag := ValueTrack.tag_alike hh
    rcases ValueTrack.find_alike hh c with ⟨hl, hl'⟩ | ⟨l, l', hl, hl', -, heq⟩
    · simp only [hl] at hu
      simp only [hl', ← htag]
      by_cases hr : t.theSimicsReflectsCPU = kSimicsReflectsG
      · rw [if_pos hr] at hu ⊢
        cases hu
        exact ⟨_, rfl, onlyAt_setTrack, onlyAt_setTrack, alikeAt_setTrack hh hx⟩
      · rw [if_neg hr] at hu ⊢
        cases hu
        exact ⟨_, rfl, onlyAt_switch (dwAddr_mod a), onlyAt_switch (dwAddr_mod a),
          alikeAt_switch hh (.inr (ValueTrack.global_alike hh))⟩
    · simp only [hl] at hu
      simp only [hl', ← htag]
      by_cases hr : t.theSimicsReflectsCPU = c
      · rw [if_pos hr] at hu ⊢
        cases hu
        refine ⟨_, rfl, onlyAt_setTrack, onlyAt_setTrack, alikeAt_setTrack ?_ hx⟩
        refine ValueTrack.setValue_alike hh ?_ fun n => n
        by_cases hc : o = some c
        · exact .inl hc
        · exact .inr (ValueTrack.eq_of_reflects hx hc hr)
      · rw [if_neg hr] at hu ⊢
        cases hu
        exact ⟨_, rfl, onlyAt_switch (dwAddr_mod a), onlyAt_switch (dwAddr_mod a),
          alikeAt_switch hh (shown_or_eq heq)⟩

/-- **A load** by any CPU: unless its view is secret, it returns the same. -/
theorem load_alike {c a : ℕ} {size : Size} (h : AlikeAt o (dwAddr a) v v')
    (hp : a % size.toNat = 0) (hu : v.load c a size = .ok (u, x)) :
    ∃ u' x', v'.load c a size = .ok (u', x') ∧ OnlyAt (dwAddr a) v u ∧ OnlyAt (dwAddr a) v' u' ∧
      AlikeAt o (dwAddr a) u u' ∧ (o ≠ some c → x' = x) := by
  rw [load] at hu ⊢
  obtain ⟨h0, hu⟩ := of_ite_error_eq_ok hu
  obtain ⟨ha, hu⟩ := of_ite_error_eq_ok hu
  rw [if_neg h0, if_neg ha]
  rcases h.cases with ⟨ht, ht', hx⟩ | ⟨t, t', ht, ht', hh, hx⟩
  · simp only [ht] at hu
    cases hu
    simp only [ht']
    exact ⟨v', _, rfl, onlyAt_refl, onlyAt_refl, h, fun _ => read_of_dw hp hx.symm⟩
  · obtain ⟨hh, hx⟩ := refresh_alike hh hx
    simp only [ht] at hu
    simp only [ht']
    generalize v.refresh (dwAddr a) t = t at hh hx hu
    generalize v'.refresh (dwAddr a) t' = t' at hh
    have htag := ValueTrack.tag_alike hh
    rcases ValueTrack.find_alike hh c with ⟨hl, hl'⟩ | ⟨l, l', hl, hl', -, heq⟩
    · simp only [hl] at hu
      simp only [hl', ← htag]
      by_cases hr : t.theSimicsReflectsCPU = kSimicsReflectsG
      · rw [if_neg (not_not_intro hr)] at hu ⊢
        cases hu
        refine ⟨_, _, rfl, onlyAt_setTrack, onlyAt_setTrack, alikeAt_setTrack hh hx, fun _ => ?_⟩
        exact read_of_dw hp (hx.resolve_left (ValueTrack.not_shows (by decide) hr)).symm
      · rw [if_pos hr] at hu ⊢
        cases hu
        refine ⟨_, _, rfl, onlyAt_switch (dwAddr_mod a), onlyAt_switch (dwAddr_mod a),
          alikeAt_switch hh (.inr (ValueTrack.global_alike hh)), fun _ => read_of_dw hp ?_⟩
        rw [ValueTrack.global_alike hh]
        exact Bytes.read_write.trans Bytes.read_write.symm
    · simp only [hl] at hu
      simp only [hl', ← htag]
      by_cases hr : t.theSimicsReflectsCPU = c
      · rw [if_neg (not_not_intro hr)] at hu ⊢
        cases hu
        refine ⟨_, _, rfl, onlyAt_setTrack, onlyAt_setTrack, alikeAt_setTrack hh hx, fun hc => ?_⟩
        exact read_of_dw hp (ValueTrack.eq_of_reflects hx hc hr).symm
      · rw [if_pos hr] at hu ⊢
        cases hu
        refine ⟨_, _, rfl, onlyAt_switch (dwAddr_mod a), onlyAt_switch (dwAddr_mod a),
          alikeAt_switch hh (shown_or_eq heq), fun hc => read_of_dw hp ?_⟩
        rw [heq hc]
        exact Bytes.read_write.trans Bytes.read_write.symm

/-- **A store**: of the secret CPU it may be a different value. -/
theorem store_alike {c a : ℕ} {size : Size} {y z : BitVec 64} (h : AlikeAt o (dwAddr a) v v')
    (hy : o = some c ∨ y = z) (hu : v.store c a size y = .ok u) :
    ∃ u', v'.store c a size z = .ok u' ∧ OnlyAt (dwAddr a) v u ∧ OnlyAt (dwAddr a) v' u' ∧
      AlikeAt o (dwAddr a) u u' := by
  rw [store] at hu ⊢
  obtain ⟨h0, hu⟩ := of_ite_error_eq_ok hu
  obtain ⟨ha, hu⟩ := of_ite_error_eq_ok hu
  rw [if_neg h0, if_neg ha]
  rcases h.cases with ⟨ht, ht', hx⟩ | ⟨t, t', ht, ht', hh, hx⟩
  · simp only [ht] at hu
    cases hu
    simp only [ht', ← hx]
    have hat : ∀ w : ValueTracker, ∀ k x, OnlyAt (dwAddr a) w
        ((w.setTrack (dwAddr a) k).writeSimics (dwAddr a) x) := fun w k x =>
      onlyAt_trans onlyAt_setTrack (onlyAt_writeSimics (dwAddr_mod a))
    refine ⟨_, rfl, hat _ _ _, hat _ _ _, ?_⟩
    rw [AlikeAt]
    simp only [writeSimics, setTrack, Function.update_self, Bytes.read_write]
    refine ⟨?_, ?_⟩
    · rw [ValueTrack.hide, ValueTrack.hide, map_singleton, map_singleton,
        LocalValue.hide, LocalValue.hide]
      rcases hy with ho | rfl
      · rw [if_pos ho, if_pos ho]
      · rfl
    · rcases hy with ho | rfl
      · exact .inl ⟨c, ho, rfl⟩
      · exact .inr rfl
  · obtain ⟨hh, hx⟩ := refresh_alike hh hx
    simp only [ht] at hu
    simp only [ht']
    generalize v.refresh (dwAddr a) t = t at hh hx hu
    generalize v'.refresh (dwAddr a) t' = t' at hh
    have htag := ValueTrack.tag_alike hh
    rcases ValueTrack.find_alike hh c with ⟨hl, hl'⟩ | ⟨l, l', hl, hl', -, heq⟩
    · simp only [hl] at hu
      simp only [hl', ← ValueTrack.global_alike hh]
      cases hu
      have hsame : o = some c ∨ overlay t.theGloballyVisibleValue a size y =
          overlay t.theGloballyVisibleValue a size z :=
        hy.imp_right fun hy => by rw [hy]
      refine ⟨_, rfl, onlyAt_switch (dwAddr_mod a), onlyAt_switch (dwAddr_mod a),
        alikeAt_switch (ValueTrack.addLocal_alike hh ?_) (hsame.imp_left fun ho => ⟨c, ho, rfl⟩)⟩
      rw [LocalValue.hide, LocalValue.hide]
      rcases hsame with ho | hxy
      · rw [if_pos ho, if_pos ho]
      · rw [hxy]
    · simp only [hl] at hu
      simp only [hl', ← htag]
      cases hu
      have hsame : o = some c ∨
          overlay (if t.theSimicsReflectsCPU = c then Bytes.read v.simics (dwAddr a) 8
            else l.theValue) a size y =
          overlay (if t.theSimicsReflectsCPU = c then Bytes.read v'.simics (dwAddr a) 8
            else l'.theValue) a size z := by
        by_cases hc : o = some c
        · exact .inl hc
        · refine .inr ?_
          rw [hy.resolve_left hc, heq hc]
          split
          · rename_i hr
            rw [ValueTrack.eq_of_reflects hx hc hr]
          · rfl
      exact ⟨_, rfl, onlyAt_switch (dwAddr_mod a), onlyAt_switch (dwAddr_mod a),
        alikeAt_switch (ValueTrack.setValue_alike hh hsame fun n => (n + 1) % 2 ^ 32)
          (hsame.imp_left fun ho => ⟨c, ho, rfl⟩)⟩

/-- **A commit** by any CPU, of the same value. -/
theorem commitStore_alike {c a : ℕ} {size : Size} {y : BitVec 64} (h : AlikeAt o (dwAddr a) v v')
    (hu : v.commitStore c a size y = .ok u) :
    ∃ u', v'.commitStore c a size y = .ok u' ∧ OnlyAt (dwAddr a) v u ∧ OnlyAt (dwAddr a) v' u' ∧
      AlikeAt o (dwAddr a) u u' := by
  rw [commitStore] at hu ⊢
  obtain ⟨h0, hu⟩ := of_ite_error_eq_ok hu
  obtain ⟨ha, hu⟩ := of_ite_error_eq_ok hu
  rw [if_neg h0, if_neg ha]
  rcases h.cases with ⟨ht, ht', hx⟩ | ⟨t, t', ht, ht', hh, hx⟩
  · simp only [ht] at hu
    cases hu
  · simp only [ht] at hu
    simp only [ht']
    rcases ValueTrack.find_alike hh c with ⟨hl, hl'⟩ | ⟨l, l', hl, hl', hn, -⟩
    · simp only [hl] at hu
      cases hu
    · simp only [hl] at hu
      simp only [hl']
      obtain ⟨hh, hx⟩ := refresh_alike hh hx
      generalize v.refresh (dwAddr a) t = t at hh hx hu
      generalize v'.refresh (dwAddr a) t' = t' at hh
      rw [← ValueTrack.global_alike hh]
      have hdrop := ValueTrack.dropStore_alike (c := c)
        (ValueTrack.published_alike hh (overlay t.theGloballyVisibleValue a size y)) hn
      have hat : ∀ w : ValueTracker, ∀ k x, OnlyAt (dwAddr a) w
          ((w.writeSimics (dwAddr a) x).setTrack (dwAddr a) k) := fun w k x =>
        onlyAt_trans (onlyAt_writeSimics (dwAddr_mod a)) onlyAt_setTrack
      have hread : ∀ w : ValueTracker, ∀ x, Bytes.read (w.writeSimics (dwAddr a) x).simics
          (dwAddr a) 8 = x := fun w x => Bytes.read_write
      by_cases hnil : (dropStore (t.published (overlay t.theGloballyVisibleValue a size y)) c
          l).theLocallyVisibleValues = []
      · rw [if_pos hnil] at hu
        rw [if_pos ((ValueTrack.nil_alike hdrop).mp hnil)]
        cases hu
        refine ⟨_, rfl, hat _ _ _, hat _ _ _, ?_⟩
        rw [AlikeAt, theTracker_setTrack, theTracker_setTrack]
        exact (hread _ _).trans (hread _ _).symm
      · rw [if_neg hnil] at hu
        rw [if_neg (mt (ValueTrack.nil_alike hdrop).mpr hnil)]
        cases hu
        refine ⟨_, rfl, hat _ _ _, hat _ _ _, alikeAt_setTrack hdrop (.inr ?_)⟩
        exact (hread _ _).trans (hread _ _).symm

theorem onlyAt_poison {a : ℕ} : OnlyAt (dwAddr a) v (v.poison a) := by
  rw [poison]
  split
  · exact onlyAt_refl
  · exact onlyAt_setTrack

/-- A track is poisoned on both sides, while Simics does not show the secret view. -/
theorem poison_alike {a : ℕ} (h : AlikeAt o (dwAddr a) v v')
    (hs : ∀ t, v.theTracker (dwAddr a) = some t → ¬ t.Shows o) :
    AlikeAt o (dwAddr a) (v.poison a) (v'.poison a) := by
  rw [poison, poison]
  rcases h.cases with ⟨ht, ht', -⟩ | ⟨t, t', ht, ht', hh, hx⟩
  · simp only [ht, ht']
    exact h
  · simp only [ht, ht']
    have hlocals := ValueTrack.locals_alike hh
    refine alikeAt_setTrack (ValueTrack.hide_eq rfl rfl hlocals) (.inr ?_)
    exact hx.resolve_left (hs t ht)

/-- Simics does not begin to show the view of a CPU by a track being poisoned. -/
theorem not_shows_poison {a : ℕ} (hs : ∀ t, v.theTracker e = some t → ¬ t.Shows o) :
    ∀ t, (v.poison a).theTracker e = some t → ¬ t.Shows o := by
  intro t ht
  rw [poison] at ht
  split at ht
  · exact hs t ht
  · rename_i u hu
    by_cases he : e = dwAddr a
    · rw [he, theTracker_setTrack] at ht
      cases ht
      exact ValueTrack.not_shows (r := kPoisonedByDMA) (by decide) rfl
    · exact hs t ((onlyAt_setTrack.tracks e he).symm.trans ht)

/-! ### Whole runs -/

/-- The CPU whose view of a double-word is secret, where a store is to be kept private. -/
def secret (st : Store) (e : ℕ) : Option ℕ := if e = dwAddr st.address then some st.cpu else none

/-- **Two trackers that differ in what the CPU of a store sees** of its double-word. -/
def Alike (st : Store) (v v' : ValueTracker) : Prop :=
  ∀ e, e % 8 = 0 → AlikeAt (secret st e) e v v'

theorem alikeAt_onlyAt {d : ℕ} {u' : ValueTracker} (h : AlikeAt o e v v') (h8 : e % 8 = 0)
    (hed : e ≠ d) (hat : OnlyAt d v u) (hat' : OnlyAt d v' u') : AlikeAt o e u u' := by
  rw [AlikeAt, hat.tracks e hed, hat'.tracks e hed, hat.simics e h8 hed, hat'.simics e h8 hed]
  exact h

theorem Alike.onlyAt {d : ℕ} {u' : ValueTracker} {st : Store} (h : Alike st v v')
    (hat : OnlyAt d v u) (hat' : OnlyAt d v' u') (hd : AlikeAt (secret st d) d u u') :
    Alike st u u' := by
  intro e h8
  by_cases hed : e = d
  · rw [hed]
    exact hd
  · exact alikeAt_onlyAt (h e h8) h8 hed hat hat'

theorem alike_refl (st : Store) (v : ValueTracker) : Alike st v v := by
  intro e _
  rw [AlikeAt]
  cases v.theTracker e with
  | none => exact rfl
  | some t => exact ⟨rfl, .inr rfl⟩

/-- **A DMA transfer** that does not expose the store. -/
theorem invalidate_alike {st : Store} {a n : ℕ} (h : Alike st v v')
    (hs : ∀ k < n, dwAddr (a + k) = dwAddr st.address → ∀ t,
      v.theTracker (dwAddr st.address) = some t → t.theSimicsReflectsCPU ≠ st.cpu) :
    Alike st (v.invalidate a n) (v'.invalidate a n) := by
  induction n generalizing a v v' with
  | zero => exact h
  | succ n ih =>
    rw [invalidate, invalidate]
    refine ih (h.onlyAt onlyAt_poison onlyAt_poison (poison_alike (h _ (dwAddr_mod a)) ?_)) ?_
    · rintro t ht ⟨c, hc, htag⟩
      rw [secret] at hc
      split at hc
      · rename_i hda
        cases hc
        exact hs 0 (by omega) hda t (hda ▸ ht) htag
      · cases hc
    · intro k hk hda t ht htag
      have hs' : ∀ t, v.theTracker (dwAddr st.address) = some t → ¬ t.Shows (some st.cpu) := by
        rintro u hu ⟨c, hc, hc'⟩
        cases hc
        refine hs (k + 1) (by omega) ?_ u hu hc'
        rw [← hda, show a + (k + 1) = a + 1 + k by omega]
      exact not_shows_poison hs' t ht ⟨st.cpu, rfl, htag⟩

end ValueTracker

namespace Observed

variable {m : Bytes.Memory} {s s' t : Observed} {st : Store} {e : Operation}

/-- **Two states that the other CPUs cannot tell apart.** -/
structure Alike (st : Store) (s s' : Observed) : Prop where
  tracker : ValueTracker.Alike st s.tracker s'.tracker
  loads : ∀ c ≠ st.cpu, s'.loadsOf c = s.loadsOf c

theorem loadsOf_append {l : List (ℕ × BitVec 64)} {v : ValueTracker} {c d : ℕ} {x : BitVec 64} :
    loadsOf ⟨v, l ++ [(c, x)]⟩ d = loadsOf ⟨v, l⟩ d ++ if c = d then [x] else [] := by
  rw [loadsOf, loadsOf, filter_append, map_append]
  by_cases h : c = d
  · simp [h]
  · simp [h]

theorem secret_ne {c e : ℕ} (h : c ≠ st.cpu) : ValueTracker.secret st e ≠ some c := by
  rw [ValueTracker.secret]
  split
  · intro hc
    cases hc
    exact h rfl
  · exact nofun

/-- **The lockstep lemma**: an operation that exposes nothing leads to alike states. -/
theorem Alike.step (h : Alike st s s') (ha : e.Aligned) (hu : s.Unexposed st e)
    (hs : s.step e = .ok t) : ∃ t', s'.step e = .ok t' ∧ Alike st t t' := by
  cases e with
  | invalidate a n =>
    cases hs
    exact ⟨_, rfl, ValueTracker.invalidate_alike h.tracker hu, h.loads⟩
  | call e =>
    cases e with
    | store w =>
      obtain ⟨v, hv, hs⟩ := exists_of_bind_eq_ok hs
      cases hs
      obtain ⟨v', hv', hat, hat', hal⟩ := ValueTracker.store_alike (z := w.value)
        (h.tracker _ (dwAddr_mod w.address)) (.inr rfl) hv
      refine ⟨{ s' with tracker := v' }, ?_, h.tracker.onlyAt hat hat' hal, h.loads⟩
      rw [Observed.step, hv']
      rfl
    | commitStore w =>
      obtain ⟨v, hv, hs⟩ := exists_of_bind_eq_ok hs
      cases hs
      obtain ⟨v', hv', hat, hat', hal⟩ :=
        ValueTracker.commitStore_alike (h.tracker _ (dwAddr_mod w.address)) hv
      refine ⟨{ s' with tracker := v' }, ?_, h.tracker.onlyAt hat hat' hal, h.loads⟩
      rw [Observed.step, hv']
      rfl
    | load c a size =>
      obtain ⟨⟨v, x⟩, hv, hs⟩ := exists_of_bind_eq_ok hs
      cases hs
      obtain ⟨v', x', hv', hat, hat', hal, hx⟩ :=
        ValueTracker.load_alike (h.tracker _ (dwAddr_mod a)) ha.2.2 hv
      refine ⟨⟨v', s'.loads ++ [(c, x')]⟩, ?_, h.tracker.onlyAt hat hat' hal, fun d hd => ?_⟩
      · rw [Observed.step, hv']
        rfl
      · rw [loadsOf_append, loadsOf_append]
        have hold : loadsOf ⟨v', s'.loads⟩ d = loadsOf ⟨v, s.loads⟩ d := h.loads d hd
        rw [hold]
        split
        · rename_i hcd
          rw [hx (secret_ne (hcd ▸ hd))]
        · rfl
    | access c a =>
      obtain ⟨v, hv, hs⟩ := exists_of_bind_eq_ok hs
      cases hs
      obtain ⟨v', hv', hat, hat', hal⟩ :=
        ValueTracker.access_alike (h.tracker _ (dwAddr_mod a)) hv
      refine ⟨{ s' with tracker := v' }, ?_, h.tracker.onlyAt hat hat' hal, h.loads⟩
      rw [Observed.step, hv']
      rfl

theorem allowed_of_aligned {es : List Operation} (ha : ∀ e ∈ es, e.Aligned)
    (hu : (machine m).AllowedFrom (Unexposed st) s es) :
    (machine m).AllowedFrom (fun s e => e.Aligned ∧ s.Unexposed st e) s es := by
  induction es generalizing s with
  | nil => trivial
  | cons e es ih =>
    refine ⟨⟨ha e (by simp), hu.1⟩, fun t ht => ih (fun e' he' => ha e' (by simp [he'])) ?_⟩
    exact hu.2 t ht

theorem alike_store (s : Observed) (x : BitVec 64) (hs : s.step (.call (.store st)) = .ok t) :
    ∃ t', s.step (.call (.store { st with value := x })) = .ok t' ∧ Alike st t t' := by
  obtain ⟨v, hv, hs⟩ := exists_of_bind_eq_ok hs
  cases hs
  have hsecret : ValueTracker.secret st (dwAddr st.address) = some st.cpu := if_pos rfl
  obtain ⟨v', hv', hat, hat', hal⟩ := ValueTracker.store_alike (z := x)
    (ValueTracker.alike_refl st s.tracker _ (dwAddr_mod st.address)) (.inl hsecret) hv
  refine ⟨{ s with tracker := v' }, ?_,
    (ValueTracker.alike_refl st s.tracker).onlyAt hat hat' hal, fun _ _ => rfl⟩
  rw [Observed.step]
  simp only
  rw [hv']
  rfl

/-- **An uncommitted store stays private**: two runs that differ in its value, up to its
commit, let every other CPU load the same, if no DMA transfer exposes it. -/
theorem uncommitted_store_private (m : Bytes.Memory) (st : Store) (x : BitVec 64)
    (before after : List Operation) (s : Observed) (ha : ∀ e ∈ after, e.Aligned)
    (hu : ∀ t, (machine m).run (before ++ [.call (.store st)]) = .ok t →
      (machine m).AllowedFrom (Unexposed st) t after)
    (hs : (machine m).run (before ++ .call (.store st) :: after) = .ok s) :
    ∃ s', (machine m).run (before ++ .call (.store { st with value := x }) :: after) = .ok s' ∧
      ∀ c ≠ st.cpu, s'.loadsOf c = s.loadsOf c := by
  obtain ⟨s₀, hbefore, hafter⟩ := Machine.exists_of_runFrom_append hs
  rw [Machine.runFrom] at hafter
  split at hafter
  · rename_i t ht
    obtain ⟨t', ht', hal⟩ := alike_store s₀ x ht
    have hstart : (machine m).run (before ++ [.call (.store st)]) = .ok t := by
      refine (Machine.runFrom_append hbefore).trans ?_
      rw [Machine.runFrom, ht]
      rfl
    have hlock : ∀ (s s' : Observed) (e : Operation) (t : Observed), Alike st s s' →
        e.Aligned ∧ s.Unexposed st e → (machine m).step s e = .ok t →
        ∃ t', (machine m).step s' e = .ok t' ∧ Alike st t t' :=
      fun s s' e t hR hg hst => hR.step hg.1 hg.2 hst
    obtain ⟨s', hs', hals⟩ := Machine.runFrom_lockstep hlock hal
      (allowed_of_aligned ha (hu t hstart)) hafter
    refine ⟨s', ?_, hals.loads⟩
    refine (Machine.runFrom_append hbefore).trans ?_
    have hstep : (machine m).step s₀ (.call (.store { st with value := x })) = .ok t' := ht'
    rw [Machine.runFrom, hstep]
    exact hs'
  · cases hafter

/-! ### A store and a DMA transfer -/

/-- The byte CPU 0 stores. -/
def secretStore : Store := ⟨0, 8, .byte, 0x11#64⟩

/-- CPU 1 loads the byte. -/
def loadByte : Operation := .call (.load 1 8 .byte)

theorem loadByte_aligned : loadByte.Aligned := ⟨by decide, by decide, by decide⟩

/-- A transfer that comes when Simics shows what everybody sees does no harm. -/
theorem secretStore_private : ∃ s s',
    (machine fun _ => 0#8).run [.call (.store secretStore), loadByte, .invalidate 8 1, loadByte] =
      .ok s ∧
    (machine fun _ => 0#8).run [.call (.store { secretStore with value := 0x22#64 }), loadByte,
      .invalidate 8 1, loadByte] = .ok s' ∧
    s.loadsOf 1 = [0#64, 0#64] ∧ s'.loadsOf 1 = s.loadsOf 1 := by
  obtain ⟨s, hs, hloads⟩ : ∃ s, (machine fun _ => 0#8).run
      [.call (.store secretStore), loadByte, .invalidate 8 1, loadByte] = .ok s ∧
      s.loadsOf 1 = [0#64, 0#64] := ⟨_, rfl, by decide⟩
  have haligned : ∀ e ∈ [loadByte, .invalidate 8 1, loadByte], e.Aligned := by
    intro e he
    simp only [mem_cons, not_mem_nil, or_false] at he
    rcases he with rfl | rfl | rfl
    · exact loadByte_aligned
    · trivial
    · exact loadByte_aligned
  have hunexposed : ∀ t, (machine fun _ => 0#8).run [.call (.store secretStore)] = .ok t →
      (machine fun _ => 0#8).AllowedFrom (Unexposed secretStore) t
        [loadByte, .invalidate 8 1, loadByte] := by
    rintro t ⟨⟩
    refine ⟨trivial, fun u hu => ⟨fun k _ _ w hw => ?_, fun u hu => ⟨trivial, fun _ _ => trivial⟩⟩⟩
    cases hu
    -- the load has switched Simics to what everybody sees
    cases hw
    decide
  obtain ⟨s', hs', hsame⟩ := uncommitted_store_private (fun _ => 0#8) secretStore 0x22#64 []
    [loadByte, .invalidate 8 1, loadByte] s haligned hunexposed hs
  exact ⟨s, s', hs, hs', hloads, hsame 1 (by decide)⟩

/-- **A DMA transfer exposes an uncommitted store**: CPU 1 loads what CPU 0 has stored. -/
theorem dma_exposes_store : ¬ ∀ (m : Bytes.Memory) (st : Store) (x : BitVec 64)
    (before after : List Operation) (s s' : Observed),
    (∀ e ∈ before ++ .call (.store st) :: after, e.Aligned) →
    (∀ e ∈ after, e ≠ .call (.commitStore st)) →
    (machine m).run (before ++ .call (.store st) :: after) = .ok s →
    (machine m).run (before ++ .call (.store { st with value := x }) :: after) = .ok s' →
    ∀ c ≠ st.cpu, s'.loadsOf c = s.loadsOf c := by
  intro h
  obtain ⟨s, hs, hloads⟩ : ∃ s, (machine fun _ => 0#8).run
      [.call (.store secretStore), .invalidate 8 1, loadByte] = .ok s ∧
      s.loadsOf 1 = [0x11#64] := ⟨_, rfl, by decide⟩
  obtain ⟨s', hs', hloads'⟩ : ∃ s', (machine fun _ => 0#8).run
      [.call (.store { secretStore with value := 0x22#64 }), .invalidate 8 1, loadByte] = .ok s' ∧
      s'.loadsOf 1 = [0x22#64] := ⟨_, rfl, by decide⟩
  have haligned : ∀ e ∈ [.call (.store secretStore), .invalidate 8 1, loadByte], e.Aligned := by
    intro e he
    simp only [mem_cons, not_mem_nil, or_false] at he
    rcases he with rfl | rfl | rfl
    · exact ⟨by decide, by decide, by decide⟩
    · trivial
    · exact loadByte_aligned
  have huncommitted : ∀ e ∈ [.invalidate 8 1, loadByte], e ≠ .call (.commitStore secretStore) := by
    intro e he
    simp only [mem_cons, not_mem_nil, or_false] at he
    rcases he with rfl | rfl
    · exact nofun
    · exact nofun
  have hsame := h (fun _ => 0#8) secretStore 0x22#64 [] [.invalidate 8 1, loadByte] s s' haligned
    huncommitted hs hs' 1 (by decide)
  rw [hloads, hloads'] at hsame
  exact absurd hsame (by decide)

end Observed

end UArch

end Flexus
