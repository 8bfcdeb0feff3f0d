import Flexus.CMPCache.Policy

/-!
# What a bank relies on of its directory and its array

The policy of a bank is written against the abstract classes of a directory and of an array
(`components/CMPCache/AbstractDirectory.hpp`, `AbstractArray.hpp`). What it relies on of them is
said here by what a lookup of a block finds after an operation, for contents that satisfy an
invariant of the structure; and the directories and the array of the source do what is relied on.
-/

namespace Flexus

open Lib List

namespace CMPCache

variable {δ γ : Type}

/-! ### Directories -/

/-- **What a bank relies on of a directory**, for the addresses of blocks and with an invariant of
its contents. -/
structure DirectoryLaws (dir : AbstractDirectory δ) (IsBlock : ℕ → Prop) (Valid : δ → Prop) :
    Prop where
  init : Valid dir.init
  setState : ∀ {d a s}, Valid d → IsBlock a → Valid (dir.setState d a s)
  setProtected : ∀ {d a p}, Valid d → IsBlock a → Valid (dir.setProtected d a p)
  lookup_setProtected : ∀ {d a p b}, IsBlock a → IsBlock b →
    dir.lookup (dir.setProtected d a p) b = dir.lookup d b
  allocate : ∀ {d d' a s v}, Valid d → IsBlock a → dir.lookup d a = none →
    dir.allocate d a s = some (d', v) → Valid d'
  /-- A new entry is found. -/
  allocate_self : ∀ {d d' a s v}, Valid d → IsBlock a → dir.lookup d a = none →
    dir.allocate d a s = some (d', v) → dir.lookup d' a = some s
  /-- The sharers of another block stay in the directory; or it is the victim; or it had none. -/
  allocate_other : ∀ {d d' a s v b}, Valid d → IsBlock a → dir.lookup d a = none →
    dir.allocate d a s = some (d', v) → IsBlock b → b ≠ a →
      (dir.lookup d' b).map SimpleDirectoryState.theSharers =
          (dir.lookup d b).map SimpleDirectoryState.theSharers ∨
        dir.lookup d' b = none ∧ ∃ vd, dir.lookup d b = some vd ∧
          (v = some (b, vd) ∨ vd.theSharers = ∅)
  /-- A victim was found, and is not found any more. -/
  allocate_victim : ∀ {d d' a s b vd}, Valid d → IsBlock a → dir.lookup d a = none →
    dir.allocate d a s = some (d', some (b, vd)) → IsBlock b →
      dir.lookup d b = some vd ∧ dir.lookup d' b = none

/-- **A directory without bounds** loses nothing. -/
theorem infiniteDirectory_laws (IsBlock : ℕ → Prop) :
    DirectoryLaws infiniteDirectory IsBlock fun _ => True := by
  have hself : ∀ {l : List DirEntry} {a : ℕ} {s : SimpleDirectoryState} {l' v},
      infiniteDirectory.lookup l a = none → infiniteDirectory.allocate l a s = some (l', v) →
        l' = l ++ [⟨a, false, s⟩] ∧ v = none := by
    intro l a s l' v hnone h
    rw [infiniteDirectory] at hnone h
    rw [Option.map_eq_none_iff] at hnone
    simp only [hnone, Option.isSome_none, Bool.false_eq_true, if_false, Option.some.injEq,
      Prod.mk.injEq] at h
    exact ⟨h.1.symm, h.2.symm⟩
  have hlookup : ∀ (l : List DirEntry) (a b : ℕ) (s : SimpleDirectoryState),
      infiniteDirectory.lookup (l ++ [⟨a, false, s⟩]) b =
        (infiniteDirectory.lookup l b).or (if a = b then some s else none) := by
    intro l a b s
    simp only [infiniteDirectory, Keyed.lookup_append_singleton]
    cases Keyed.lookup DirEntry.tag l b with
    | some e => rfl
    | none => by_cases hab : a = b <;> simp [hab]
  refine ⟨trivial, fun _ _ => trivial, fun _ _ => trivial,
    fun _ _ => Keyed.map_lookup_update (fun _ => rfl) fun _ => rfl, fun _ _ _ _ => trivial,
    ?_, ?_, ?_⟩
  · intro d d' a s v _ _ hnone h
    rw [(hself hnone h).1, hlookup, hnone, if_pos rfl]
    rfl
  · intro d d' a s v b _ _ hnone h _ hne
    rw [(hself hnone h).1, hlookup, if_neg (Ne.symm hne), Option.or_none]
    exact .inl rfl
  · intro d d' a s b vd _ _ hnone h
    exact absurd (hself hnone h).2 nofun

theorem SimpleDirectoryState.theSharers_of_le {d d' : SimpleDirectoryState}
    (h : d.countSharers ≤ d'.countSharers) (h' : d'.theSharers = ∅) : d.theSharers = ∅ := by
  rw [countSharers, countSharers, h', Finset.card_empty, Nat.le_zero] at h
  exact Finset.card_eq_zero.mp h

/-! ### The ways of a directory -/

/-- **The ways of a set**: those of one tag start without sharers, and only the first of them is
used. -/
def DirWays (ways : List DirEntry) : Prop :=
  ways.Pairwise fun x y => x.tag = y.tag → y.isProtected = false ∧ y.state.theSharers = ∅

section Ways

variable {l : List DirEntry} {a b i : ℕ} {e v : DirEntry} {s : SimpleDirectoryState}

theorem DirWays.update (h : DirWays l) {f : DirEntry → DirEntry} (hf : ∀ x, (f x).tag = x.tag) :
    DirWays (Keyed.update DirEntry.tag l a f) := by
  induction l with
  | nil => exact h
  | cons x l ih =>
    obtain ⟨hx, hl⟩ := pairwise_cons.mp h
    rw [Keyed.update]
    split
    · refine pairwise_cons.mpr ⟨fun y hy htag => hx y hy ?_, hl⟩
      rw [← hf x, htag]
    · rename_i hne
      refine pairwise_cons.mpr ⟨fun y hy htag => ?_, ih hl⟩
      rcases Keyed.mem_or_key_of_mem_update hf hy with hy | hy
      · exact hx y hy htag
      · exact absurd (htag.trans hy) hne

/-- One iteration of `pickVictim`. -/
def fewerSharers (best : Option (ℕ × ℕ)) (x : DirEntry × ℕ) : Option (ℕ × ℕ) :=
  if x.1.isProtected then best
  else match best with
    | none => some (x.2, x.1.state.countSharers)
    | some (j, n) => if x.1.state.countSharers < n then some (x.2, x.1.state.countSharers)
      else some (j, n)

/-- What the loop of `pickVictim` has found. -/
def Fewest (l : List DirEntry) : Option (ℕ × ℕ) → Prop
  | none => ∀ w ∈ l, w.isProtected = true
  | some (i, n) => ∃ v, l[i]? = some v ∧ v.isProtected = false ∧ n = v.state.countSharers ∧
      ∀ w ∈ l, w.isProtected = false → n ≤ w.state.countSharers

theorem fewest_concat {best : Option (ℕ × ℕ)} (h : Fewest l best) :
    Fewest (l ++ [e]) (fewerSharers best (e, l.length)) := by
  have hlast : (l ++ [e])[l.length]? = some e := List.getElem?_concat_length
  have hforall : ∀ {P : DirEntry → Prop}, (∀ w ∈ l, P w) → P e → ∀ w ∈ l ++ [e], P w := by
    intro P hl he w hw
    rcases mem_append.mp hw with hw | hw
    · exact hl w hw
    · exact (mem_singleton.mp hw) ▸ he
  rw [fewerSharers.eq_def]
  split
  · rename_i he
    rcases best with - | ⟨i, n⟩
    · exact hforall h he
    · obtain ⟨v, hv, hfree, hn, hmin⟩ := h
      have hlt := (List.getElem?_eq_some_iff.mp hv).1
      refine ⟨v, by rwa [List.getElem?_append_left hlt], hfree, hn, hforall hmin fun hc => ?_⟩
      exact absurd (he.symm.trans hc) nofun
  · rename_i he
    rw [Bool.not_eq_true] at he
    rcases best with - | ⟨i, n⟩
    · refine ⟨e, hlast, he, rfl, hforall (fun w hw hc => ?_) fun _ => Nat.le_refl _⟩
      exact absurd ((h w hw).symm.trans hc) nofun
    · obtain ⟨v, hv, hfree, hn, hmin⟩ := h
      have hlt := (List.getElem?_eq_some_iff.mp hv).1
      by_cases hless : e.state.countSharers < n
      · simp only [if_pos hless]
        exact ⟨e, hlast, he, rfl, hforall (fun w hw hc => hless.le.trans (hmin w hw hc))
          fun _ => Nat.le_refl _⟩
      · simp only [if_neg hless]
        exact ⟨v, by rwa [List.getElem?_append_left hlt], hfree, hn, hforall hmin
          fun _ => not_lt.mp hless⟩

/-- **`pickVictim`** takes a way without protection, and none of those has fewer sharers. -/
theorem pickDirVictim_spec (h : pickDirVictim l = some i) : ∃ v, l[i]? = some v ∧
    v.isProtected = false ∧
      ∀ w ∈ l, w.isProtected = false → v.state.countSharers ≤ w.state.countSharers := by
  have hloop : ∀ l : List DirEntry, Fewest l (l.zipIdx.foldl fewerSharers none) := by
    intro l
    induction l using List.reverseRecOn with
    | nil => exact nofun
    | append_singleton l x ih =>
      rw [zipIdx_append, foldl_append, Nat.zero_add]
      exact fewest_concat ih
  have hl := hloop l
  obtain ⟨⟨j, n⟩, hbest, rfl⟩ := Option.map_eq_some_iff.mp
    (show (l.zipIdx.foldl fewerSharers none).map Prod.fst = some i from h)
  rw [hbest] at hl
  obtain ⟨v, hv, hfree, rfl, hmin⟩ := hl
  exact ⟨v, hv, hfree, hmin⟩

/-- **A way is given to another block**: lookups of other blocks do not see that, unless the way was
the one they found. -/
theorem lookup_set (hv : l[i]? = some v) (he : e.tag ≠ b) :
    Keyed.lookup DirEntry.tag (l.set i e) b = Keyed.lookup DirEntry.tag l b ∨
      v.tag = b ∧ Keyed.lookup DirEntry.tag l b = some v ∧
        ∀ y, Keyed.lookup DirEntry.tag (l.set i e) b = some y → DirWays l →
          y ∈ l ∧ y.isProtected = false ∧ y.state.theSharers = ∅ := by
  have hskip : ∀ {x : DirEntry} {l : List DirEntry}, x.tag ≠ b →
      Keyed.lookup DirEntry.tag (x :: l) b = Keyed.lookup DirEntry.tag l b :=
    fun {x l} hx => find?_cons_of_neg (by simpa using hx)
  induction l generalizing i with
  | nil => exact .inl rfl
  | cons x l ih =>
    rcases i with - | i
    · obtain rfl : x = v := Option.some.inj hv
      rw [set_cons_zero, hskip he]
      by_cases hx : x.tag = b
      · refine .inr ⟨hx, find?_cons_of_pos (by simpa using hx), fun y hy hways => ?_⟩
        have hmem := Keyed.mem_of_lookup hy
        exact ⟨mem_cons_of_mem _ hmem, (pairwise_cons.mp hways).1 y hmem
          (hx.trans (Keyed.key_of_lookup hy).symm)⟩
      · exact .inl (hskip hx).symm
    · rw [set_cons_succ]
      by_cases hx : x.tag = b
      · refine .inl ?_
        simp only [Keyed.lookup]
        rw [find?_cons_of_pos (by simpa using hx), find?_cons_of_pos (by simpa using hx)]
      · rw [hskip hx, hskip hx]
        refine (ih hv).imp_right fun h => ⟨h.1, h.2.1, fun y hy hways => ?_⟩
        obtain ⟨hmem, h⟩ := h.2.2 y hy (pairwise_cons.mp hways).2
        exact ⟨mem_cons_of_mem _ hmem, h⟩

theorem lookup_set_self (hv : l[i]? = some v)
    (hnone : Keyed.lookup DirEntry.tag l e.tag = none) :
    Keyed.lookup DirEntry.tag (l.set i e) e.tag = some e := by
  induction l generalizing i with
  | nil => exact absurd hv nofun
  | cons x l ih =>
    rw [Keyed.lookup_eq_none] at hnone
    rcases i with - | i
    · exact find?_cons_of_pos (by simp)
    · have hx : x.tag ≠ e.tag := hnone x mem_cons_self
      rw [set_cons_succ, Keyed.lookup, find?_cons_of_neg (by simpa using hx)]
      exact ih hv (Keyed.lookup_eq_none.mpr fun y hy => hnone y (mem_cons_of_mem _ hy))

theorem lookup_of_sharers (hways : DirWays l) (hv : l[i]? = some v)
    (hne : v.state.theSharers ≠ ∅) : Keyed.lookup DirEntry.tag l v.tag = some v := by
  obtain ⟨hi, rfl⟩ := List.getElem?_eq_some_iff.mp hv
  refine find?_eq_some_iff_getElem.mpr ⟨beq_self_eq_true _, i, hi, rfl, fun j hj => ?_⟩
  rw [Bool.not_eq_eq_eq_not, Bool.not_true, beq_eq_false_iff_ne]
  exact fun htag => hne (pairwise_iff_getElem.mp hways j i (hj.trans hi) hi hj htag).2

/-- **A victim with sharers** was the only way of its tag. -/
theorem lookup_set_victim (hways : DirWays l) (hv : l[i]? = some v) (hne : v.state.theSharers ≠ ∅)
    (hmin : ∀ w ∈ l, w.isProtected = false → v.state.countSharers ≤ w.state.countSharers)
    (he : e.tag ≠ v.tag) : Keyed.lookup DirEntry.tag (l.set i e) v.tag = none := by
  refine Keyed.lookup_eq_none.mpr fun y hy htag => ?_
  obtain ⟨j, hj⟩ := mem_iff_getElem?.mp hy
  rw [List.getElem?_set] at hj
  split at hj
  · split at hj
    · exact he ((congrArg DirEntry.tag (Option.some.inj hj)).trans htag)
    · exact absurd hj nofun
  · rename_i hij
    obtain ⟨hi, rfl⟩ := List.getElem?_eq_some_iff.mp hv
    obtain ⟨hjlt, rfl⟩ := List.getElem?_eq_some_iff.mp hj
    have hpairs := pairwise_iff_getElem.mp hways
    rcases Nat.lt_or_gt_of_ne hij with hlt | hgt
    · obtain ⟨hfree, hempty⟩ := hpairs i j hi hjlt hlt htag.symm
      have hle := hmin _ (List.getElem_mem hjlt) hfree
      exact hne (SimpleDirectoryState.theSharers_of_le hle hempty)
    · exact hne (hpairs j i hjlt hi hgt htag).2

theorem DirWays.set (h : DirWays l) (hnone : Keyed.lookup DirEntry.tag l e.tag = none) :
    DirWays (l.set i e) := by
  rw [Keyed.lookup_eq_none] at hnone
  induction l generalizing i with
  | nil => exact h
  | cons x l ih =>
    obtain ⟨hx, hl⟩ := pairwise_cons.mp h
    have hrest : ∀ y ∈ l, y.tag ≠ e.tag := fun y hy => hnone y (mem_cons_of_mem _ hy)
    rcases i with - | i
    · exact pairwise_cons.mpr ⟨fun y hy htag => absurd htag.symm (hrest y hy), hl⟩
    · refine pairwise_cons.mpr ⟨fun y hy htag => ?_, ih hl hrest⟩
      rcases mem_or_eq_of_mem_set hy with hy | rfl
      · exact hx y hy htag
      · exact absurd htag (hnone x mem_cons_self)

end Ways

/-- **What holds of the sets of a directory**: ways with sharers are in the set of their block. -/
structure DirSets.Valid (g : Geometry) (d : DirSets) : Prop where
  ways : ∀ i, DirWays (d i)
  placed : ∀ i, ∀ e ∈ d i, e.state.theSharers ≠ ∅ → g.makeSet e.tag = i

section Sets

variable {g : Geometry} {theNumSharers : ℕ} {d d' : DirSets} {a b : ℕ} {s : SimpleDirectoryState}
  {v : Option (ℕ × SimpleDirectoryState)}

theorem DirSets.Valid.update (h : d.Valid g) {i : ℕ} {ways : List DirEntry} (hways : DirWays ways)
    (hplaced : ∀ e ∈ ways, e ∈ d i ∨ g.makeSet e.tag = i) :
    DirSets.Valid g (Function.update d i ways) where
  ways := (Function.forall_update_iff d fun _ l => DirWays l).mpr ⟨hways, fun j _ => h.ways j⟩
  placed := (Function.forall_update_iff d fun j l => ∀ e ∈ l, e.state.theSharers ≠ ∅ →
    g.makeSet e.tag = j).mpr
      ⟨fun e he hne => (hplaced e he).elim (fun he => h.placed i e he hne) id,
        fun j _ => h.placed j⟩

theorem DirSets.Valid.modify (h : d.Valid g) {f : DirEntry → DirEntry}
    (hf : ∀ x, (f x).tag = x.tag) (ha : g.blockAddress a = a) :
    DirSets.Valid g (Function.update d (g.makeSet a)
      (Keyed.update DirEntry.tag (d (g.makeSet a)) (g.blockAddress a) f)) := by
  refine h.update ((h.ways _).update hf) fun e he => ?_
  rcases Keyed.mem_or_key_of_mem_update hf he with he | he
  · exact .inl he
  · rw [he, ha]
    exact .inr rfl

theorem lookup_stdDirectory (hb : g.blockAddress b = b) :
    (stdDirectory g theNumSharers).lookup d b =
      (Keyed.lookup DirEntry.tag (d (g.makeSet b)) b).map DirEntry.state := by
  simp only [stdDirectory, hb]

/-- **An allocation**: a way without protection, of those with the fewest sharers, is given to the
block. -/
theorem allocate_stdDirectory (h : (stdDirectory g theNumSharers).allocate d a s = some (d', v)) :
    ∃ i w, (d (g.makeSet a))[i]? = some w ∧
      (∀ y ∈ d (g.makeSet a), y.isProtected = false →
        w.state.countSharers ≤ y.state.countSharers) ∧
      d' = Function.update d (g.makeSet a)
        ((d (g.makeSet a)).set i { w with tag := a, state := s }) ∧
      v = if w.state.noSharers then none else some (w.tag, w.state) := by
  simp only [stdDirectory] at h
  split at h
  · exact absurd h nofun
  · rename_i i hi
    obtain ⟨w, hw, -, hmin⟩ := pickDirVictim_spec hi
    rw [getD_eq_getElem?_getD, hw] at h
    simp only [Option.getD_some, Option.some.injEq, Prod.mk.injEq] at h
    exact ⟨i, w, hw, hmin, h.1.symm, h.2.symm⟩

/-- **The set-associative directory** does what is relied on. -/
theorem stdDirectory_laws (g : Geometry) (theNumSharers : ℕ) :
    DirectoryLaws (stdDirectory g theNumSharers) (fun a => g.blockAddress a = a)
      (DirSets.Valid g) := by
  refine ⟨⟨fun i => ?_, fun i e he hne => ?_⟩, fun h ha => h.modify (fun _ => rfl) ha,
    fun h ha => h.modify (fun _ => rfl) ha, ?_, ?_, ?_, ?_, ?_⟩
  · exact pairwise_replicate.mpr (.inr fun _ => ⟨rfl, rfl⟩)
  · rw [eq_of_mem_replicate he] at hne
    exact absurd rfl hne
  · intro d a p b _ hb
    rw [lookup_stdDirectory hb, lookup_stdDirectory hb]
    by_cases hset : g.makeSet b = g.makeSet a
    · simp only [stdDirectory, hset, Function.update_self]
      exact Keyed.map_lookup_update (fun _ => rfl) fun _ => rfl
    · simp only [stdDirectory, Function.update_of_ne hset]
  · intro d d' a s v hd ha hnone h
    obtain ⟨i, w, hw, -, rfl, -⟩ := allocate_stdDirectory h
    rw [lookup_stdDirectory ha, Option.map_eq_none_iff] at hnone
    refine hd.update ((hd.ways _).set hnone) fun e he => ?_
    rcases mem_or_eq_of_mem_set he with he | rfl
    · exact .inl he
    · exact .inr rfl
  · intro d d' a s v _ ha hnone h
    obtain ⟨i, w, hw, -, rfl, -⟩ := allocate_stdDirectory h
    rw [lookup_stdDirectory ha, Option.map_eq_none_iff] at hnone
    have hself : Keyed.lookup DirEntry.tag
        ((d (g.makeSet a)).set i { w with tag := a, state := s }) a = some { w with
          tag := a, state := s } := lookup_set_self hw hnone
    rw [lookup_stdDirectory ha, Function.update_self, hself]
    rfl
  · intro d d' a s v b hd ha hnone h hb hne
    obtain ⟨i, w, hw, hmin, rfl, rfl⟩ := allocate_stdDirectory h
    rw [lookup_stdDirectory hb, lookup_stdDirectory hb]
    by_cases hset : g.makeSet b = g.makeSet a
    · rw [hset, Function.update_self]
      rcases lookup_set (e := { w with tag := a, state := s }) hw (Ne.symm hne) with
        heq | ⟨htag, hfound, hrest⟩
      · rw [heq]
        exact .inl rfl
      · rw [hfound]
        rcases hother : Keyed.lookup DirEntry.tag
            ((d (g.makeSet a)).set i { w with tag := a, state := s }) b with - | y
        · refine .inr ⟨rfl, w.state, rfl, ?_⟩
          by_cases hempty : w.state.noSharers = true
          · exact .inr (of_decide_eq_true hempty)
          · rw [if_neg hempty, ← htag]
            exact .inl rfl
        · -- a further way of the tag has no sharers, so that the victim has none
          obtain ⟨hmem, hfree, hsharers⟩ := hrest y hother (hd.ways _)
          have hempty := SimpleDirectoryState.theSharers_of_le (hmin y hmem hfree) hsharers
          refine .inl ?_
          rw [Option.map_some, Option.map_some, Option.map_some, Option.map_some, hsharers, hempty]
    · rw [Function.update_of_ne hset]
      exact .inl rfl
  · intro d d' a s b vd hd ha hnone h hb
    obtain ⟨i, w, hw, hmin, rfl, hv⟩ := allocate_stdDirectory h
    rw [lookup_stdDirectory ha, Option.map_eq_none_iff] at hnone
    split at hv
    · exact absurd hv nofun
    · rename_i hsharers
      obtain ⟨rfl, rfl⟩ : b = w.tag ∧ vd = w.state := by simpa using hv
      have hmem := mem_of_getElem? hw
      have hne : w.state.theSharers ≠ ∅ := fun hc => hsharers (decide_eq_true hc)
      have htag : w.tag ≠ a := Keyed.lookup_eq_none.mp hnone w hmem
      rw [lookup_stdDirectory hb, lookup_stdDirectory hb, hd.placed _ w hmem hne,
        Function.update_self, lookup_of_sharers (hd.ways _) hw hne,
        lookup_set_victim (hd.ways _) hw hne hmin htag.symm]
      exact ⟨rfl, rfl⟩

end Sets

/-! ### Arrays -/

/-- **What a bank relies on of an array**, with an invariant of its contents. A block that is
allocated gets its state at once. -/
structure ArrayLaws (arr : AbstractArray γ) (Valid : γ → Prop) : Prop where
  init : Valid arr.init
  state_setState : ∀ {c a st b}, Valid c → arr.blockAddress a = a → arr.blockAddress b = b →
    arr.state c a ≠ .invalid →
      arr.state (arr.setState c a st) b = if b = a then st else arr.state c b
  state_invalidateBlock : ∀ {c a b}, arr.state (arr.invalidateBlock c a) b = arr.state c b
  allocate : ∀ {c c' a st v st'}, Valid c → arr.blockAddress a = a → arr.state c a = .invalid →
    arr.allocate c a = .ok (c', st, v) → Valid (arr.setState c' a st')
  /-- The block is there, and the victim is not there any more. -/
  state_allocate : ∀ {c c' a st v st' b}, Valid c → arr.blockAddress a = a →
    arr.state c a = .invalid → arr.allocate c a = .ok (c', st, v) → arr.blockAddress b = b →
    arr.state (arr.setState c' a st') b =
      if b = a then st' else if b = v ∧ st ≠ .invalid then .invalid else arr.state c b
  /-- A victim is a block with its state. -/
  victim : ∀ {c c' a st v}, Valid c → arr.blockAddress a = a → arr.state c a = .invalid →
    arr.allocate c a = .ok (c', st, v) → st ≠ .invalid →
    arr.blockAddress v = v ∧ v ≠ a ∧ arr.state c v = st

/-- **A tag is held once**: of the ways of one tag at most one is valid. -/
def ArrayWays (ways : List ArrayBlock) : Prop :=
  ∀ (i j : ℕ) (x y : ArrayBlock), ways[i]? = some x → ways[j]? = some y → x.tag = y.tag →
    x.state ≠ .invalid → y.state ≠ .invalid → i = j

section Blocks

variable {l : List ArrayBlock} {a b i : ℕ} {e v x : ArrayBlock} {st : CacheState}

/-- The state in which a block is held. -/
def heldIn (l : List ArrayBlock) (b : ℕ) : CacheState :=
  ((l.find? fun x => x.tag == b && x.state != .invalid).map ArrayBlock.state).getD .invalid

theorem heldIn_eq (h : ArrayWays l) (hst : st ≠ .invalid) : heldIn l b = st ↔ ⟨b, st⟩ ∈ l := by
  rw [heldIn]
  constructor
  · intro hfind
    rcases hx : l.find? fun x => x.tag == b && x.state != .invalid with - | x
    · rw [hx] at hfind
      exact absurd hfind.symm hst
    · rw [hx] at hfind
      have hmem := mem_of_find?_eq_some hx
      have hp := find?_some hx
      rw [Bool.and_eq_true, beq_iff_eq] at hp
      have htag := hp.1
      obtain ⟨t, u⟩ := x
      obtain rfl : t = b := htag
      obtain rfl : u = st := hfind
      exact hmem
  · intro hmem
    rcases hx : l.find? fun x => x.tag == b && x.state != .invalid with - | x
    · have := find?_eq_none.mp hx _ hmem
      simp [hst] at this
    · obtain ⟨i, hi⟩ := mem_iff_getElem?.mp hmem
      obtain ⟨j, hj⟩ := mem_iff_getElem?.mp (mem_of_find?_eq_some hx)
      have hvalid := find?_some hx
      rw [Bool.and_eq_true, beq_iff_eq, bne_iff_ne] at hvalid
      have hij := h i j _ _ hi hj hvalid.1.symm hst hvalid.2
      rw [hij, hj] at hi
      rw [hx]
      exact congrArg ArrayBlock.state (Option.some.inj hi)

theorem heldIn_of (h : ArrayWays l) (hb : ∀ u, u ≠ .invalid → (⟨b, u⟩ ∈ l ↔ u = st)) :
    heldIn l b = st := by
  by_cases hst : st = .invalid
  · by_contra hne
    rw [hst] at hne
    exact hne (((hb _ hne).mp ((heldIn_eq h hne).mp rfl)).trans hst)
  · exact (heldIn_eq h hst).mpr ((hb _ hst).mpr rfl)

theorem mem_set_valid (h : ArrayWays l) (hv : l[i]? = some v) (hx : x.state ≠ .invalid) :
    x ∈ l.set i e ↔ x = e ∨ x ∈ l ∧ x ≠ v := by
  have hi := (List.getElem?_eq_some_iff.mp hv).1
  constructor
  · intro hmem
    obtain ⟨j, hj⟩ := mem_iff_getElem?.mp hmem
    rw [List.getElem?_set] at hj
    split at hj
    · exact .inl (Option.some.inj hj).symm
    · rename_i hij
      refine .inr ⟨mem_of_getElem? hj, fun hc => hij ?_⟩
      rw [← hc] at hv
      exact h i j x x hv hj rfl hx hx
  · rintro (rfl | ⟨hmem, hne⟩)
    · exact mem_iff_getElem?.mpr ⟨i, by rw [List.getElem?_set_self hi]⟩
    · obtain ⟨j, hj⟩ := mem_iff_getElem?.mp hmem
      have hij : i ≠ j := fun hc => hne (Option.some.inj (hj.symm.trans (hc ▸ hv)))
      exact mem_iff_getElem?.mpr ⟨j, by rw [List.getElem?_set_ne hij, hj]⟩

theorem ArrayWays.set (h : ArrayWays l) (he : ∀ j y, l[j]? = some y → y.tag = e.tag →
    y.state ≠ .invalid → j = i) : ArrayWays (l.set i e) := by
  intro j k x y hj hk htag hx hy
  rw [List.getElem?_set] at hj hk
  split at hj
  · rename_i hij
    split at hk
    · rename_i hik
      rw [← hij, ← hik]
    · split at hj
      · rw [← Option.some.inj hj] at htag
        exact (hij.symm.trans (he k y hk htag.symm hy).symm)
      · exact absurd hj nofun
  · split at hk
    · rename_i hik
      split at hk
      · rw [← Option.some.inj hk] at htag
        exact (he j x hj htag hx).trans hik
      · exact absurd hk nofun
    · exact h j k x y hj hk htag hx hy

/-- **A block is given a way** that holds none of its copies. -/
theorem heldIn_set (h : ArrayWays l) (hv : l[i]? = some v) (ha : ∀ y ∈ l, y.tag = a →
    y.state ≠ .invalid → y = v) : ArrayWays (l.set i ⟨a, st⟩) ∧
      heldIn (l.set i ⟨a, st⟩) b =
        if b = a then st else if b = v.tag ∧ v.state ≠ .invalid then .invalid else heldIn l b := by
  have hset : ArrayWays (l.set i ⟨a, st⟩) := by
    refine h.set fun j y hj htag hy => ?_
    have hyv := ha y (mem_of_getElem? hj) htag hy
    exact h j i y y hj (hyv ▸ hv) rfl hy hy
  refine ⟨hset, heldIn_of hset fun u hu => ?_⟩
  rw [mem_set_valid h hv hu]
  split
  · rename_i hba
    subst hba
    constructor
    · rintro (heq | ⟨hmem, hne⟩)
      · exact congrArg ArrayBlock.state heq
      · exact absurd (ha _ hmem rfl hu) hne
    · rintro rfl
      exact .inl rfl
  · rename_i hba
    have hnew : (⟨b, u⟩ : ArrayBlock) ≠ ⟨a, st⟩ := fun hc => hba (congrArg ArrayBlock.tag hc)
    rw [or_iff_right hnew]
    split
    · rename_i hbv
      refine iff_of_false (fun ⟨hmem, hne⟩ => hne ?_) hu
      obtain ⟨j, hj⟩ := mem_iff_getElem?.mp hmem
      have hij := h j i _ _ hj hv hbv.1 hu hbv.2
      rw [hij, hv] at hj
      exact (Option.some.inj hj).symm
    · rename_i hbv
      have hne : (⟨b, u⟩ : ArrayBlock) ≠ v := by
        rintro rfl
        exact hbv ⟨rfl, hu⟩
      rw [eq_comm, heldIn_eq h hu, and_iff_left hne]

end Blocks

/-- **What holds of the sets of an array**: valid blocks are in their set. -/
structure ArraySets.Valid (g : Geometry) (c : ℕ → ArraySet) : Prop where
  ways : ∀ i, ArrayWays (c i).theBlocks
  placed : ∀ i, ∀ x ∈ (c i).theBlocks, x.state ≠ .invalid →
    g.makeSet x.tag = i ∧ g.blockAddress x.tag = x.tag

namespace ArraySet

variable {s : ArraySet} {a i : ℕ}

theorem state_wayOf (s : ArraySet) (a : ℕ) : (match s.wayOf a with
      | none => .invalid
      | some i => s.stateAt i) = heldIn s.theBlocks a := by
  rcases hfind : s.theBlocks.findIdx? fun b => b.tag == a && b.state != .invalid with - | i
  · have hnone := findIdx?_eq_none_iff.mp hfind
    have hheld : heldIn s.theBlocks a = .invalid := by
      rw [heldIn, find?_eq_none.mpr fun x hx => Bool.eq_false_iff.mp (hnone x hx)]
      rfl
    rw [hheld]
    split
    · rfl
    · -- the last way with the tag, which is not valid
      rename_i i hway
      rw [wayOf, hfind] at hway
      have hmem := mem_of_getLast? hway
      rw [mem_filter, beq_iff_eq, Option.map_eq_some_iff] at hmem
      obtain ⟨-, x, hx, htag⟩ := hmem
      have hstate := hnone x (mem_of_getElem? hx)
      rw [Bool.and_eq_false_iff, bne_eq_false_iff_eq, beq_eq_false_iff_ne] at hstate
      rw [stateAt, hx]
      exact hstate.resolve_left (not_not_intro htag)
  · obtain ⟨hlt, hp, hfirst⟩ := findIdx?_eq_some_iff_getElem.mp hfind
    have hsome : s.theBlocks.find? (fun b => b.tag == a && b.state != .invalid) =
        some s.theBlocks[i] := by
      refine find?_eq_some_iff_getElem.mpr ⟨hp, i, hlt, rfl, fun j hj => ?_⟩
      rw [Bool.not_eq_eq_eq_not]
      exact Bool.eq_false_iff.mpr (hfirst j hj)
    have hway : s.wayOf a = some i := by rw [wayOf, hfind]
    rw [hway, heldIn, hsome]
    exact congrArg (fun x : Option ArrayBlock => (x.map ArrayBlock.state).getD .invalid)
      (List.getElem?_eq_getElem hlt)

theorem wayOf_held (h : heldIn s.theBlocks a ≠ .invalid) :
    ∃ i v, s.wayOf a = some i ∧ s.theBlocks[i]? = some v ∧ v.tag = a ∧ v.state ≠ .invalid := by
  rcases hfind : s.theBlocks.findIdx? fun b => b.tag == a && b.state != .invalid with - | i
  · refine absurd ?_ h
    rw [heldIn, find?_eq_none.mpr fun x hx =>
      Bool.eq_false_iff.mp (findIdx?_eq_none_iff.mp hfind x hx)]
    rfl
  · obtain ⟨hlt, hp, -⟩ := findIdx?_eq_some_iff_getElem.mp hfind
    rw [Bool.and_eq_true, beq_iff_eq, bne_iff_ne] at hp
    exact ⟨i, s.theBlocks[i], by rw [wayOf, hfind], List.getElem?_eq_getElem hlt, hp⟩

/-- The way of a block that is not held has its tag, if there is one. -/
theorem wayOf_free (h : heldIn s.theBlocks a = .invalid) (hw : ArrayWays s.theBlocks) :
    (∀ y ∈ s.theBlocks, y.tag = a → y.state = .invalid) ∧
      match s.wayOf a with
      | none => ∀ y ∈ s.theBlocks, y.tag ≠ a
      | some i => ∃ v, s.theBlocks[i]? = some v ∧ v.tag = a := by
  have hfree : ∀ y ∈ s.theBlocks, y.tag = a → y.state = .invalid := by
    rintro ⟨t, u⟩ hy rfl
    by_contra hu
    exact hu (((heldIn_eq hw hu).mpr hy).symm.trans h)
  have hnone : s.theBlocks.findIdx? (fun b => b.tag == a && b.state != .invalid) = none := by
    rw [findIdx?_eq_none_iff]
    intro y hy
    by_cases htag : y.tag = a
    · simp [hfree y hy htag]
    · simp [htag]
  refine ⟨hfree, ?_⟩
  rw [wayOf, hnone]
  simp only
  split
  · rename_i hlast
    intro y hy htag
    obtain ⟨j, hj⟩ := mem_iff_getElem?.mp hy
    rw [getLast?_eq_none_iff, filter_eq_nil_iff] at hlast
    refine hlast j (mem_range.mpr (List.getElem?_eq_some_iff.mp hj).1) ?_
    rw [hj, Option.map_some, htag]
    exact beq_self_eq_true _
  · rename_i i hlast
    have hmem := mem_of_getLast? hlast
    rw [mem_filter, beq_iff_eq, Option.map_eq_some_iff] at hmem
    exact hmem.2

theorem wayOf_only {w : ArrayBlock} (hi : s.theBlocks[i]? = some w) (hw : w.tag = a)
    (honly : ∀ (j : ℕ) y, s.theBlocks[j]? = some y → y.tag = a → j = i) : s.wayOf a = some i := by
  rcases hfind : s.theBlocks.findIdx? fun b => b.tag == a && b.state != .invalid with - | j
  · rw [wayOf, hfind]
    show List.getLast? _ = some i
    set ways := (List.range s.theBlocks.length).filter fun i =>
      (s.theBlocks[i]?.map ArrayBlock.tag) == some a with hways
    have hmem : ∀ j ∈ ways, j = i := by
      intro j hj
      rw [hways, mem_filter, beq_iff_eq, Option.map_eq_some_iff] at hj
      obtain ⟨-, y, hy, htag⟩ := hj
      exact honly j y hy htag
    have hiways : i ∈ ways := by
      rw [hways, mem_filter, mem_range, beq_iff_eq, hi, Option.map_some, hw]
      exact ⟨(List.getElem?_eq_some_iff.mp hi).1, rfl⟩
    rcases hlast : ways.getLast? with - | j
    · rw [getLast?_eq_none_iff] at hlast
      rw [hlast] at hiways
      exact absurd hiways not_mem_nil
    · rw [hmem j (mem_of_getLast? hlast)]
  · obtain ⟨hlt, hp, -⟩ := findIdx?_eq_some_iff_getElem.mp hfind
    rw [Bool.and_eq_true, beq_iff_eq] at hp
    rw [wayOf, hfind]
    exact congrArg some (honly j _ (List.getElem?_eq_getElem hlt) hp.1)

end ArraySet

section Arrays

variable {g : Geometry} {c c' : ℕ → ArraySet} {a b v : ℕ} {st st' : CacheState}

theorem state_stdArray (ha : g.blockAddress a = a) :
    (stdArray g).state c a = heldIn (c (g.makeSet a)).theBlocks a := by
  have h := ArraySet.state_wayOf (c (g.makeSet a)) a
  simp only [stdArray, ha]
  exact h

theorem setState_stdArray {i : ℕ} (ha : g.blockAddress a = a)
    (hi : (c (g.makeSet a)).wayOf a = some i) : (stdArray g).setState c a st =
      Function.update c (g.makeSet a) { c (g.makeSet a) with
        theBlocks := (c (g.makeSet a)).theBlocks.set i ⟨a, st⟩ } := by
  simp only [stdArray, ha, ArraySet.atWay, hi]

/-- **An allocation**: the way that has had the block is used again, or else some way is given to
the block. -/
theorem allocate_stdArray (hc : ArraySets.Valid g c) (ha : g.blockAddress a = a)
    (hstate : (stdArray g).state c a = .invalid)
    (h : (stdArray g).allocate c a = .ok (c', st, v)) :
    ∃ i w, (c (g.makeSet a)).theBlocks[i]? = some w ∧
      (w.tag = a ∧ w.state = .invalid ∧ st = .invalid ∨ w.tag = v ∧ w.state = st ∧ v ≠ a) ∧
      ∀ st', ∃ order, (stdArray g).setState c' a st' = Function.update c (g.makeSet a)
        ⟨(c (g.makeSet a)).theBlocks.set i ⟨a, st'⟩, order⟩ := by
  rw [state_stdArray ha] at hstate
  obtain ⟨hfree, hway⟩ := ArraySet.wayOf_free hstate (hc.ways _)
  simp only [stdArray, ha, ArraySet.allocate] at h
  rcases hi : (c (g.makeSet a)).wayOf a with - | i
  · rw [hi] at h hway
    simp only at h hway
    split at h
    · exact absurd h nofun
    · rename_i d u y hset
      split at hset
      · exact absurd hset nofun
      · rename_i i hlast
        split at hset
        · exact absurd hset nofun
        · rename_i w hw
          cases hset
          cases h
          refine ⟨i, w, hw, .inr ⟨rfl, rfl, hway w (mem_of_getElem? hw)⟩, fun st' => ?_⟩
          have hlt := (List.getElem?_eq_some_iff.mp hw).1
          have hfound : ({ c (g.makeSet a) with
              theBlocks := (c (g.makeSet a)).theBlocks.set i ⟨a, .invalid⟩ }.moveToHead
                i).wayOf a = some i := by
            refine ArraySet.wayOf_only (List.getElem?_set_self hlt) rfl fun j y hj htag => ?_
            by_contra hne
            have hy : (c (g.makeSet a)).theBlocks[j]? = some y :=
              (List.getElem?_set_ne (Ne.symm hne)).symm.trans hj
            exact hway y (mem_of_getElem? hy) htag
          refine ⟨i :: (c (g.makeSet a)).theMRUOrder.erase i, ?_⟩
          rw [setState_stdArray (c := Function.update c (g.makeSet a) _) ha
            (by rw [Function.update_self]; exact hfound)]
          simp only [Function.update_self, Function.update_idem, ArraySet.moveToHead, set_set]
  · rw [hi] at h hway
    simp only at h hway
    cases h
    obtain ⟨w, hw, htag⟩ := hway
    refine ⟨i, w, hw, .inl ⟨htag, hfree w (mem_of_getElem? hw) htag, rfl⟩, fun st' => ?_⟩
    refine ⟨i :: (c (g.makeSet a)).theMRUOrder.erase i, ?_⟩
    rw [setState_stdArray (c := Function.update c (g.makeSet a) _) ha
      (by rw [Function.update_self]; exact hi)]
    simp only [Function.update_self, Function.update_idem, ArraySet.moveToHead]

/-- **The set-associative array** does what is relied on. -/
theorem stdArray_laws (g : Geometry) : ArrayLaws (stdArray g) (ArraySets.Valid g) := by
  have hset : ∀ {c : ℕ → ArraySet} {a i : ℕ} {w : ArrayBlock} {st : CacheState} {order : List ℕ},
      ArraySets.Valid g c → g.blockAddress a = a →
        (c (g.makeSet a)).theBlocks[i]? = some w →
          (∀ y ∈ (c (g.makeSet a)).theBlocks, y.tag = a → y.state ≠ .invalid → y = w) →
            ArraySets.Valid g (Function.update c (g.makeSet a)
              ⟨(c (g.makeSet a)).theBlocks.set i ⟨a, st⟩, order⟩) ∧
            ∀ b, g.blockAddress b = b → (stdArray g).state (Function.update c (g.makeSet a)
                ⟨(c (g.makeSet a)).theBlocks.set i ⟨a, st⟩, order⟩) b =
              if b = a then st else if b = w.tag ∧ w.state ≠ .invalid then .invalid
                else (stdArray g).state c b := by
    intro c a i w st order hc ha hw hother
    have hways : ArrayWays ((c (g.makeSet a)).theBlocks.set i ⟨a, st⟩) :=
      (@heldIn_set _ a a i w st (hc.ways _) hw hother).1
    refine ⟨⟨fun j => ?_, fun j x hx hne => ?_⟩, fun b hb => ?_⟩
    · by_cases hj : j = g.makeSet a
      · rw [hj, Function.update_self]
        exact hways
      · rw [Function.update_of_ne hj]
        exact hc.ways j
    · by_cases hj : j = g.makeSet a
      · rw [hj, Function.update_self] at hx
        rcases mem_or_eq_of_mem_set hx with hx | rfl
        · exact hc.placed j x (hj ▸ hx) hne
        · exact ⟨hj.symm, ha⟩
      · rw [Function.update_of_ne hj] at hx
        exact hc.placed j x hx hne
    · rw [state_stdArray hb, state_stdArray hb]
      by_cases hj : g.makeSet b = g.makeSet a
      · rw [hj, Function.update_self]
        exact (heldIn_set (hc.ways _) hw hother).2
      · rw [Function.update_of_ne hj, if_neg fun hc => hj (congrArg g.makeSet hc)]
        rw [if_neg]
        rintro ⟨rfl, hne⟩
        exact hj (hc.placed _ w (mem_of_getElem? hw) hne).1
  have hfree : ∀ {c : ℕ → ArraySet} {a : ℕ} {P : ArrayBlock → Prop}, ArraySets.Valid g c →
      g.blockAddress a = a → (stdArray g).state c a = .invalid →
        ∀ y ∈ (c (g.makeSet a)).theBlocks, y.tag = a → y.state ≠ .invalid → P y := by
    intro c a P hc ha hstate y hy htag hne
    rw [state_stdArray ha] at hstate
    exact absurd ((ArraySet.wayOf_free hstate (hc.ways _)).1 y hy htag) hne
  refine ⟨⟨fun k i j x y hi _ _ hx _ => ?_, fun i x hx hne => ?_⟩, ?_, ?_, ?_, ?_, ?_⟩
  · rw [eq_of_mem_replicate (mem_of_getElem? hi)] at hx
    exact absurd rfl hx
  · rw [eq_of_mem_replicate hx] at hne
    exact absurd rfl hne
  · intro c a st b hc ha hb hstate
    rw [state_stdArray ha] at hstate
    obtain ⟨i, w, hi, hw, rfl, hne⟩ := ArraySet.wayOf_held hstate
    have hother : ∀ y ∈ (c (g.makeSet w.tag)).theBlocks, y.tag = w.tag → y.state ≠ .invalid →
        y = w := by
      intro y hy htag hy'
      obtain ⟨j, hj⟩ := mem_iff_getElem?.mp hy
      have hij := hc.ways _ i j w y hw hj htag.symm hne hy'
      exact Option.some.inj (hj.symm.trans (hij ▸ hw))
    rw [setState_stdArray ha hi, (hset hc ha hw hother).2 b hb]
    split
    · rfl
    · rename_i hb'
      rw [if_neg fun h => hb' h.1]
  · intro c a b
    have hblocks : ∀ s : ArraySet,
        (s.atWay (g.blockAddress a) ArraySet.moveToTail).theBlocks = s.theBlocks := by
      intro s
      rw [ArraySet.atWay]
      split
      · rfl
      · rfl
    have hstate : ∀ c : ℕ → ArraySet, (stdArray g).state c b =
        heldIn (c (g.makeSet b)).theBlocks (g.blockAddress b) := fun c =>
      ArraySet.state_wayOf (c (g.makeSet b)) (g.blockAddress b)
    rw [hstate, hstate]
    by_cases hj : g.makeSet b = g.makeSet a
    · simp only [stdArray, hj, Function.update_self, hblocks]
    · simp only [stdArray, Function.update_of_ne hj]
  · intro c c' a st v st' hc ha hstate h
    obtain ⟨i, w, hw, -, hwrite⟩ := allocate_stdArray hc ha hstate h
    obtain ⟨order, heq⟩ := hwrite st'
    rw [heq]
    exact (hset hc ha hw (hfree hc ha hstate)).1
  · intro c c' a st v st' b hc ha hstate h hb
    obtain ⟨i, w, hw, hcase, hwrite⟩ := allocate_stdArray hc ha hstate h
    obtain ⟨order, heq⟩ := hwrite st'
    rw [heq, (hset hc ha hw (hfree hc ha hstate)).2 b hb]
    rcases hcase with ⟨-, hw', rfl⟩ | ⟨rfl, rfl, -⟩
    · have hold : ¬(b = w.tag ∧ w.state ≠ .invalid) := fun h => h.2 hw'
      have hnone : ¬(b = v ∧ (CacheState.invalid ≠ .invalid)) := fun h => h.2 rfl
      rw [if_neg hold, if_neg hnone]
    · rfl
  · intro c c' a st v hc ha hstate h hne
    obtain ⟨i, w, hw, hcase, -⟩ := allocate_stdArray hc ha hstate h
    rcases hcase with ⟨-, -, rfl⟩ | ⟨rfl, rfl, hva⟩
    · exact absurd rfl hne
    · have hmem := mem_of_getElem? hw
      obtain ⟨hplace, hblock⟩ := hc.placed _ w hmem hne
      refine ⟨hblock, hva, ?_⟩
      rw [state_stdArray hblock, hplace]
      exact (heldIn_eq (hc.ways _) hne).mpr hmem

end Arrays

end CMPCache

end Flexus
