import Flexus.CMPCache.DirectoryImport
import Flexus.CMPCache.Laws

/-!
# A set-associative directory in order

`StdDirectory` (`components/CMPCache/StdDirectory.hpp`) may be configured to skew its sets: some
high bits of an address are then folded onto those that choose the set. The directory is taken here
with or without that, and with what it has been built or loaded with.

Its contents are *in order* (`Flexus.CMPCache.DirSets.Tame`) when only the first way of a tag is in
use, a way with sharers is in the set of its block, and only caches that there are share a block. A
block is *absent* when a lookup does not find it. Writing sharers keeps that, and an allocation too:
its victim was in the directory, with sharers, and is absent afterwards.
-/

namespace Flexus

open Lib

namespace CMPCache

/-! ### The sets -/

namespace Geometry

variable (g : Geometry)

/-- `makeSet`, with the distance of the skew if `theSkewSet`. -/
def makeSetSkewed (skewShift : Option ℕ) (a : ℕ) : ℕ :=
  match skewShift with
  | none => g.makeSet a
  | some shift => g.makeSet (fold shift a)

variable {g} {skewShift : Option ℕ} {a b : ℕ}

theorem makeSet_congr (h : a >>> g.theBlockSize.log2 = b >>> g.theBlockSize.log2) :
    g.makeSet a = g.makeSet b := by
  have hshift : ∀ n, a >>> (n + g.theBlockSize.log2) = b >>> (n + g.theBlockSize.log2) := by
    intro n
    rw [Nat.add_comm, Nat.shiftRight_add, Nat.shiftRight_add, h]
  simp only [makeSet, h, hshift]

theorem shiftRight_blockAddress (h : ∃ k, g.theBlockSize = 2 ^ k) (a : ℕ) :
    g.blockAddress a >>> g.theBlockSize.log2 = a >>> g.theBlockSize.log2 := by
  obtain ⟨k, hk⟩ := h
  have hpos : 0 < 2 ^ k := Nat.two_pow_pos k
  have hmul : a - a % 2 ^ k = 2 ^ k * (a / 2 ^ k) := by
    have := Nat.div_add_mod a (2 ^ k)
    omega
  rw [blockAddress, hk, Nat.log2_two_pow, Nat.shiftRight_eq_div_pow, Nat.shiftRight_eq_div_pow,
    hmul, Nat.mul_div_cancel_left _ hpos]

/-- **An address is in the set of its block.** -/
theorem makeSetSkewed_blockAddress (h : ∃ k, g.theBlockSize = 2 ^ k) (a : ℕ) :
    g.makeSetSkewed skewShift (g.blockAddress a) = g.makeSetSkewed skewShift a := by
  have ha := shiftRight_blockAddress h a
  cases skewShift with
  | none => exact makeSet_congr ha
  | some shift =>
    refine makeSet_congr ?_
    have hfold : ∀ c : ℕ, fold shift c >>> g.theBlockSize.log2 =
        fold shift (c >>> g.theBlockSize.log2) := by
      intro c
      rw [fold, Nat.shiftRight_xor_distrib, fold, ← Nat.shiftRight_add,
        ← Nat.shiftRight_add, Nat.add_comm shift]
    rw [hfold, hfold, ha]

end Geometry

/-- **`StdDirectory`**, with the sets that it starts with. -/
def directoryOf (g : Geometry) (skewShift : Option ℕ) (theNumSharers : ℕ) (start : DirSets) :
    AbstractDirectory DirSets where
  init := start
  lookup d a := (Keyed.lookup DirEntry.tag (d (g.makeSetSkewed skewShift a))
    (g.blockAddress a)).map DirEntry.state
  setState d a s := Function.update d (g.makeSetSkewed skewShift a)
    (Keyed.update DirEntry.tag (d (g.makeSetSkewed skewShift a)) (g.blockAddress a)
      fun e => { e with state := s })
  setProtected d a p := Function.update d (g.makeSetSkewed skewShift a)
    (Keyed.update DirEntry.tag (d (g.makeSetSkewed skewShift a)) (g.blockAddress a)
      fun e => { e with isProtected := p })
  allocate d a s :=
    let ways := d (g.makeSetSkewed skewShift a)
    match pickDirVictim ways with
    | none => none
    | some i =>
      let v := ways.getD i ⟨0, false, .reset theNumSharers⟩
      some (Function.update d (g.makeSetSkewed skewShift a)
          (ways.set i { v with tag := a, state := s }),
        if v.state.noSharers then none else some (v.tag, v.state))
  foundAfterAllocate := true
  sameSet a b := g.makeSetSkewed skewShift a == g.makeSetSkewed skewShift b

/-- The sets of a directory that has not been loaded. -/
def emptySets (g : Geometry) (theNumSharers : ℕ) : DirSets := fun _ =>
  List.replicate g.theAssociativity ⟨0, false, .reset theNumSharers⟩

theorem directoryOf_none (g : Geometry) (theNumSharers : ℕ) :
    directoryOf g none theNumSharers (emptySets g theNumSharers) =
      stdDirectory g theNumSharers := rfl

/-! ### Sharers -/

namespace SimpleDirectoryState

variable {d d' : SimpleDirectoryState} {i n : ℕ}

/-- All sharers have their bit. -/
def Fits (d : SimpleDirectoryState) : Prop := ∀ i ∈ d.theSharers, i < d.theNumSharers

theorem fits_reset : (reset n).Fits := fun _ hi => absurd hi (Finset.notMem_empty _)

theorem Fits.addSharer (h : d.Fits) (hadd : d.addSharer i = .ok d') : d'.Fits := by
  rw [SimpleDirectoryState.addSharer] at hadd
  split at hadd
  · rename_i hi
    cases hadd
    intro j hj
    rcases Finset.mem_insert.mp hj with rfl | hj
    · exact hi
    · exact h j hj
  · cases hadd

theorem Fits.removeSharer (h : d.Fits) (hremove : d.removeSharer i = .ok d') : d'.Fits := by
  rw [SimpleDirectoryState.removeSharer] at hremove
  split at hremove
  · cases hremove
    exact fun j hj => h j (Finset.mem_of_mem_erase hj)
  · cases hremove

theorem fits_setSharer (hset : d.setSharer i = .ok d') : d'.Fits := by
  rw [SimpleDirectoryState.setSharer] at hset
  split at hset
  · rename_i hi
    cases hset
    intro j hj
    rw [Finset.mem_singleton.mp hj]
    exact hi
  · cases hset

/-- **The list of the sharers** has as many elements as there are sharers. -/
theorem Fits.length_getSharerList (h : d.Fits) : d.getSharerList.length = d.countSharers := by
  have hmem : d.getSharerList.toFinset = d.theSharers := by
    ext i
    rw [List.mem_toFinset, getSharerList, List.mem_filter, List.mem_range, isSharer,
      decide_eq_true_iff]
    exact ⟨And.right, fun hi => ⟨h i hi, hi⟩⟩
  have hnodup : d.getSharerList.Nodup := List.nodup_range.filter _
  rw [countSharers, ← hmem, List.toFinset_card_of_nodup hnodup]

end SimpleDirectoryState

/-! ### The contents -/

namespace DirSets

/-- **A directory in order.** -/
structure Tame (g : Geometry) (skewShift : Option ℕ) (d : DirSets) : Prop where
  ways : ∀ i, DirWays (d i)
  placed : ∀ i, ∀ e ∈ d i, e.state.theSharers ≠ ∅ → g.makeSetSkewed skewShift e.tag = i
  fits : ∀ i, ∀ e ∈ d i, e.state.Fits

/-- A block has no way. -/
def Absent (g : Geometry) (skewShift : Option ℕ) (d : DirSets) (a : ℕ) : Prop :=
  ∀ e ∈ d (g.makeSetSkewed skewShift a), e.tag ≠ a

/-- **No way changes its block**, and what is in order stays so. -/
structure Quiet (g : Geometry) (skewShift : Option ℕ) (d d' : DirSets) : Prop where
  tags : ∀ i, (d' i).map DirEntry.tag = (d i).map DirEntry.tag
  tame : d.Tame g skewShift → d'.Tame g skewShift

variable {g : Geometry} {skewShift : Option ℕ} {n : ℕ} {start d d' : DirSets} {a b : ℕ}
  {s : SimpleDirectoryState}

theorem tame_emptySets : (emptySets g n).Tame g skewShift := by
  refine ⟨fun i => ?_, fun i e he hne => ?_, fun i e he => ?_⟩
  · exact List.pairwise_replicate.mpr (.inr fun _ => ⟨rfl, rfl⟩)
  · rw [List.eq_of_mem_replicate he] at hne
    exact absurd rfl hne
  · rw [List.eq_of_mem_replicate he]
    exact SimpleDirectoryState.fits_reset

theorem Quiet.refl : Quiet g skewShift d d := ⟨fun _ => rfl, id⟩

theorem Quiet.trans {e : DirSets} (h : Quiet g skewShift d e) (h' : Quiet g skewShift e d') :
    Quiet g skewShift d d' :=
  ⟨fun i => (h'.tags i).trans (h.tags i), fun ht => h'.tame (h.tame ht)⟩

theorem Quiet.absent (h : Quiet g skewShift d d') (ha : d.Absent g skewShift a) :
    d'.Absent g skewShift a := by
  intro e he htag
  have hmem : e.tag ∈ (d (g.makeSetSkewed skewShift a)).map DirEntry.tag := by
    rw [← h.tags]
    exact List.mem_map_of_mem he
  obtain ⟨x, hx, hxe⟩ := List.mem_map.mp hmem
  exact ha x hx (hxe.trans htag)

theorem Tame.update (h : d.Tame g skewShift) {i : ℕ} {ways : List DirEntry} (hways : DirWays ways)
    (hplaced : ∀ e ∈ ways, e ∈ d i ∨ g.makeSetSkewed skewShift e.tag = i)
    (hfits : ∀ e ∈ ways, e.state.Fits) : Tame g skewShift (Function.update d i ways) where
  ways := (Function.forall_update_iff d fun _ l => DirWays l).mpr ⟨hways, fun j _ => h.ways j⟩
  placed := (Function.forall_update_iff d fun j l => ∀ e ∈ l, e.state.theSharers ≠ ∅ →
    g.makeSetSkewed skewShift e.tag = j).mpr
      ⟨fun e he hne => (hplaced e he).elim (fun he => h.placed i e he hne) id,
        fun j _ => h.placed j⟩
  fits := (Function.forall_update_iff d fun _ l => ∀ e ∈ l, e.state.Fits).mpr
    ⟨hfits, fun j _ => h.fits j⟩

/-- **A change of the ways of a block.** -/
theorem Quiet.modify (hsize : ∃ k, g.theBlockSize = 2 ^ k) {f : DirEntry → DirEntry}
    (hf : ∀ x, (f x).tag = x.tag) (hfits : d.Tame g skewShift → ∀ x, x.state.Fits →
      (f x).state.Fits) (a : ℕ) : Quiet g skewShift d
    (Function.update d (g.makeSetSkewed skewShift a)
      (Keyed.update DirEntry.tag (d (g.makeSetSkewed skewShift a)) (g.blockAddress a) f)) := by
  refine ⟨?_, fun h => h.update ((h.ways _).update hf) (fun e he => ?_) fun e he => ?_⟩
  · exact (Function.forall_update_iff d fun i l => l.map DirEntry.tag =
      (d i).map DirEntry.tag).mpr ⟨Keyed.keys_update hf, fun _ _ => rfl⟩
  · refine (Keyed.mem_or_key_of_mem_update hf he).imp_right fun htag => ?_
    rw [htag, Geometry.makeSetSkewed_blockAddress hsize]
  · rcases Keyed.mem_or_image_of_mem_update he with he | ⟨x, hx, -, rfl⟩
    · exact h.fits _ e he
    · exact hfits h x (h.fits _ x hx)

theorem quiet_setState (hsize : ∃ k, g.theBlockSize = 2 ^ k)
    (hs : d.Tame g skewShift → s.Fits) :
    Quiet g skewShift d ((directoryOf g skewShift n start).setState d a s) :=
  Quiet.modify (f := fun e => { e with state := s }) hsize (fun _ => rfl) (fun h _ _ => hs h) a

theorem quiet_setProtected (hsize : ∃ k, g.theBlockSize = 2 ^ k) {p : Bool} :
    Quiet g skewShift d ((directoryOf g skewShift n start).setProtected d a p) :=
  Quiet.modify (f := fun e => { e with isProtected := p }) hsize (fun _ => rfl) (fun _ _ h => h) a

theorem Tame.fits_lookup (h : d.Tame g skewShift)
    (hs : (directoryOf g skewShift n start).lookup d a = some s) : s.Fits := by
  obtain ⟨e, he, rfl⟩ := Option.map_eq_some_iff.mp hs
  exact h.fits _ e (Keyed.mem_of_lookup he)

theorem absent_of_lookup (ha : g.blockAddress a = a)
    (h : (directoryOf g skewShift n start).lookup d a = none) : d.Absent g skewShift a := by
  have hnone := Option.map_eq_none_iff.mp h
  rw [ha, Keyed.lookup_eq_none] at hnone
  exact hnone

/-- **An allocation** keeps the directory in order and finds no other block a way. Its victim had
sharers, and has no way any more. -/
theorem Tame.allocate (h : d.Tame g skewShift) (hs : s.Fits) (ha : d.Absent g skewShift a)
    {v : Option (ℕ × SimpleDirectoryState)}
    (halloc : (directoryOf g skewShift n start).allocate d a s = some (d', v)) :
    d'.Tame g skewShift ∧
      (∀ b, b ≠ a → d.Absent g skewShift b → d'.Absent g skewShift b) ∧
      ∀ va vd, v = some (va, vd) → vd.theSharers ≠ ∅ ∧ vd.Fits ∧ va ≠ a ∧
        ¬ d.Absent g skewShift va ∧ d'.Absent g skewShift va := by
  simp only [directoryOf] at halloc
  split at halloc
  · cases halloc
  · rename_i i hi
    obtain ⟨w, hw, -, hmin⟩ := pickDirVictim_spec hi
    rw [List.getD_eq_getElem?_getD, hw] at halloc
    simp only [Option.getD_some, Option.some.injEq, Prod.mk.injEq] at halloc
    obtain ⟨rfl, rfl⟩ := halloc
    have hmem := List.mem_of_getElem? hw
    have hnone : Keyed.lookup DirEntry.tag (d (g.makeSetSkewed skewShift a)) a = none :=
      Keyed.lookup_eq_none.mpr ha
    have hne : w.tag ≠ a := ha w hmem
    have hset : ∀ e ∈ (d (g.makeSetSkewed skewShift a)).set i { w with tag := a, state := s },
        e ∈ d (g.makeSetSkewed skewShift a) ∨ e = { w with tag := a, state := s } :=
      fun e he => List.mem_or_eq_of_mem_set he
    refine ⟨h.update ((h.ways _).set hnone) (fun e he => ?_) fun e he => ?_,
      fun b hb habsent e he => ?_, fun va vd hv => ?_⟩
    · exact (hset e he).imp_right fun he => by rw [he]
    · rcases hset e he with he | rfl
      · exact h.fits _ e he
      · exact hs
    · by_cases hj : g.makeSetSkewed skewShift b = g.makeSetSkewed skewShift a
      · rw [hj, Function.update_self] at he
        rcases hset e he with he | rfl
        · exact habsent e (by rwa [hj])
        · exact hb.symm
      · rw [Function.update_of_ne hj] at he
        exact habsent e he
    · split at hv
      · cases hv
      · rename_i hsharers
        obtain ⟨rfl, rfl⟩ : w.tag = va ∧ w.state = vd := by simpa using hv
        have hsharers : w.state.theSharers ≠ ∅ := fun hc => hsharers (decide_eq_true hc)
        have hplaced := h.placed _ w hmem hsharers
        refine ⟨hsharers, h.fits _ w hmem, hne, fun habsent => ?_, ?_⟩
        · exact habsent w (by rwa [hplaced]) rfl
        · have hgone := lookup_set_victim (e := { w with tag := a, state := s }) (h.ways _) hw
            hsharers hmin hne.symm
          intro e he
          rw [hplaced, Function.update_self] at he
          exact Keyed.lookup_eq_none.mp hgone e he

end DirSets

end CMPCache

end Flexus
