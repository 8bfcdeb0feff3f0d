import Flexus.Lib.Machine
import Flexus.UArch.ValueTracker
import Mathlib.Data.List.Count

/-!
# What the value tracker shows to everybody

A run of the value tracker is an interleaving of stores, commits, loads and accesses by
any number of CPUs. Beside the tracker we keep the stores that have been committed, in
the order of their commits, and those that have not. The tracker should then show to
everybody the memory it started over with the committed stores written to it
(`Flexus.UArch.GlobalView`), and it should have a track of a double-word exactly as
long as there are uncommitted stores to it.

The memory of Simics follows one of several values at a time. What ties it to the track
of a double-word is `Flexus.UArch.TrackOk`: Simics holds the globally visible value, or
what the CPU sees that the tag names.

Outstanding stores are counted with 32 bits, so all of this is for runs in which no CPU
has 2³² uncommitted stores to one double-word. The last section shows what happens
beyond.
-/

namespace Flexus

open Lib

namespace UArch

open Lib (Bytes.Memory Bytes.read Bytes.write)

/-! ### Double-words -/

theorem dwAddr_mod (a : ℕ) : dwAddr a % 8 = 0 := by
  rw [dwAddr]
  omega

/-- A value at a multiple of its size lies in one double-word. -/
theorem dwAddr_bounds {a : ℕ} {size : Size} (h : a % size.toNat = 0) :
    dwAddr a ≤ a ∧ a + size.toNat ≤ dwAddr a + 8 := by
  rw [dwAddr]
  cases size <;> simp only [Size.toNat] at h ⊢ <;> omega

/-- The bits of a double-word into which a value has been pasted. -/
theorem getLsbD_overlay {x y : BitVec 64} {a i : ℕ} {size : Size} (h : a % size.toNat = 0)
    (hi : i < 64) : (overlay x a size y).getLsbD i =
      if 8 * (dwAddr a + 8 - size.toNat - a) ≤ i ∧ i < 8 * (dwAddr a + 8 - a) then
        y.getLsbD (i - 8 * (dwAddr a + 8 - size.toNat - a)) else x.getLsbD i := by
  have hb := dwAddr_bounds h
  have hoff : (offset a size * 8).toNat = 8 * (dwAddr a + 8 - size.toNat - a) := by
    rw [offset]
    omega
  have hmask : (makeMask a size).getLsbD i = decide (8 * (dwAddr a + 8 - size.toNat - a) ≤ i ∧
      i < 8 * (dwAddr a + 8 - a)) := by
    rw [makeMask, hoff, BitVec.getLsbD_shiftLeft]
    by_cases hlow : i < 8 * (dwAddr a + 8 - size.toNat - a)
    · have hno : ¬ (8 * (dwAddr a + 8 - size.toNat - a) ≤ i ∧ i < 8 * (dwAddr a + 8 - a)) := by
        omega
      rw [decide_eq_false hno, decide_eq_true hlow]
      simp
    · rw [getLsbD_mask size (by omega), decide_eq_false hlow]
      simp only [hi, decide_true, Bool.not_false, Bool.and_true, Bool.true_and, decide_eq_decide]
      omega
  rw [overlay, BitVec.getLsbD_or, BitVec.getLsbD_and, BitVec.getLsbD_and, BitVec.getLsbD_not,
    hmask, align, hoff, BitVec.getLsbD_shiftLeft]
  split
  · rename_i hin
    have hlow : ¬ i < 8 * (dwAddr a + 8 - size.toNat - a) := by omega
    simp [hin, hi, hlow]
  · rename_i hin
    simp [hin, hi]

/-- **Pasting a value into a double-word** is writing its bytes. -/
theorem overlay_read {m : Bytes.Memory} {a : ℕ} {size : Size} {x : BitVec 64}
    (h : a % size.toNat = 0) : overlay (Bytes.read m (dwAddr a) 8) a size x =
      Bytes.read (Bytes.write m a size.toNat x) (dwAddr a) 8 := by
  have hb := dwAddr_bounds h
  refine BitVec.eq_of_getLsbD_eq fun i hi => ?_
  rw [getLsbD_overlay h hi, Bytes.getLsbD_read hi, Bytes.getLsbD_read hi,
    Bytes.getLsbD_write (by omega)]
  by_cases hin : 8 * (dwAddr a + 8 - size.toNat - a) ≤ i ∧ i < 8 * (dwAddr a + 8 - a)
  · have hbyte : a ≤ dwAddr a + (8 - 1 - i / 8) ∧ dwAddr a + (8 - 1 - i / 8) < a + size.toNat := by
      omega
    have hbit : 8 * (size.toNat - 1 - (dwAddr a + (8 - 1 - i / 8) - a)) + i % 8 =
        i - 8 * (dwAddr a + 8 - size.toNat - a) := by omega
    rw [if_pos hin, if_pos hbyte, hbit]
    simp [hi]
  · have hbyte : ¬ (a ≤ dwAddr a + (8 - 1 - i / 8) ∧
        dwAddr a + (8 - 1 - i / 8) < a + size.toNat) := by omega
    rw [if_neg hin, if_neg hbyte]

theorem dw_disjoint {d e : ℕ} (hd : d % 8 = 0) (he : e % 8 = 0) (h : e ≠ d) :
    e + 8 ≤ d ∨ d + 8 ≤ e := by omega

/-! ### Runs -/

/-- A store. -/
structure Store where
  cpu : ℕ
  address : ℕ
  size : Size
  value : BitVec 64
  deriving DecidableEq

/-- The addresses on which the tracker works. -/
def Placed (a : ℕ) (size : Size) : Prop :=
  a ≠ 0 ∧ a < ValueTracker.limit ∧ a % size.toNat = 0

/-- The memory after a store has been committed. -/
def Store.apply (m : Bytes.Memory) (st : Store) : Bytes.Memory :=
  Bytes.write m st.address st.size.toNat st.value

/-- **The memory overlaid with a list of stores**, in their order. -/
def overlaid (m : Bytes.Memory) (l : List Store) : Bytes.Memory := l.foldl Store.apply m

/-- The number of stores of a list that a CPU has made to a double-word. -/
def storesTo (l : List Store) (cpu d : ℕ) : ℕ :=
  l.countP fun st => st.cpu == cpu && dwAddr st.address == d

/-- The calls of the tracker. -/
inductive Call
  | store (st : Store)
  | commitStore (st : Store)
  | load (cpu a : ℕ) (size : Size)
  | access (cpu a : ℕ)

/-- A tracker, with the stores that have been committed and those that have not. -/
structure Tracked where
  tracker : ValueTracker
  committed : List Store
  uncommitted : List Store

namespace Tracked

/-- A call of the tracker. -/
def step (s : Tracked) : Call → Except TrackerFault Tracked
  | .store st =>
    match s.tracker.store st.cpu st.address st.size st.value with
    | .error f => .error f
    | .ok v => .ok ⟨v, s.committed, s.uncommitted ++ [st]⟩
  | .commitStore st =>
    match s.tracker.commitStore st.cpu st.address st.size st.value with
    | .error f => .error f
    | .ok v => .ok ⟨v, s.committed ++ [st], s.uncommitted.erase st⟩
  | .load cpu a size =>
    match s.tracker.load cpu a size with
    | .error f => .error f
    | .ok (v, _) => .ok { s with tracker := v }
  | .access cpu a =>
    match s.tracker.access cpu a with
    | .error f => .error f
    | .ok v => .ok { s with tracker := v }

/-- The runs over some memory. -/
def machine (m : Bytes.Memory) : Machine Tracked Call TrackerFault :=
  ⟨⟨.init m, [], []⟩, step⟩

/-- **The calls that may be made**: at proper addresses, and a commit only of a store that
has not been committed. -/
def Proper (s : Tracked) : Call → Prop
  | .store st => Placed st.address st.size
  | .commitStore st => st ∈ s.uncommitted
  | .load _ a size => Placed a size
  | .access _ a => a ≠ 0 ∧ a < ValueTracker.limit

/-- No CPU has 2³² uncommitted stores to one double-word. -/
def Counted (s : Tracked) : Call → Prop
  | .store st => storesTo s.uncommitted st.cpu (dwAddr st.address) + 1 < 2 ^ 32
  | _ => True

end Tracked

/-- The value of a double-word that everybody sees. -/
def ValueTracker.globalValue (v : ValueTracker) (d : ℕ) : BitVec 64 :=
  match v.theTracker d with
  | some t => t.theGloballyVisibleValue
  | none => Bytes.read v.simics d 8

/-- **The global view of a tracker** that was started over a memory. -/
structure GlobalView (m : Bytes.Memory) (s : Tracked) : Prop where
  /-- What everybody sees is the memory with the committed stores. -/
  value : ∀ d, d % 8 = 0 →
    s.tracker.globalValue d = Bytes.read (overlaid m s.committed) d 8
  /-- There is a track exactly as long as there are uncommitted stores. -/
  track : ∀ d, (s.tracker.theTracker d).isSome = true ↔
    ∃ st ∈ s.uncommitted, dwAddr st.address = d
  /-- The outstanding stores are counted. -/
  count : ∀ d t cpu, s.tracker.theTracker d = some t →
    ((t.find cpu).map LocalValue.theOutstandingStores).getD 0 = storesTo s.uncommitted cpu d
  /-- No assertion fails. -/
  safe : ∀ e, s.Proper e → ∃ s', s.step e = .ok s'
  /-- With the last store to a double-word its track goes, and Simics holds what everybody
  sees. -/
  settled : ∀ st s', st ∈ s.uncommitted →
    (∀ st' ∈ s.uncommitted.erase st, dwAddr st'.address ≠ dwAddr st.address) →
    s.step (.commitStore st) = .ok s' →
    s'.tracker.theTracker (dwAddr st.address) = none ∧
      Bytes.read s'.tracker.simics (dwAddr st.address) 8 =
        Bytes.read (overlaid m s'.committed) (dwAddr st.address) 8

/-! ### The track of a double-word -/

/-- **The track of a double-word is right**, for what Simics holds, what everybody should
see and the numbers of uncommitted stores. -/
structure ValueTrack.Ok (t : ValueTrack) (x g : BitVec 64) (n : ℕ → ℕ) : Prop where
  shown : t.theGloballyVisibleValue = g
  unique : (t.theLocallyVisibleValues.map LocalValue.cpu).Nodup
  count : ∀ cpu, ((t.find cpu).map LocalValue.theOutstandingStores).getD 0 = n cpu
  positive : ∀ cpu l, t.find cpu = some l → l.theOutstandingStores ≠ 0
  live : ∃ cpu l, t.find cpu = some l
  reflects : (t.theSimicsReflectsCPU = kSimicsReflectsG ∧ x = g) ∨
    ∃ cpu : ℕ, t.theSimicsReflectsCPU = cpu ∧ ∃ l, t.find cpu = some l ∧ x = l.theValue

/-- The same for a double-word that may have no track. -/
def TrackOk (x g : BitVec 64) (n : ℕ → ℕ) : Option ValueTrack → Prop
  | none => x = g ∧ ∀ cpu, n cpu = 0
  | some t => t.Ok x g n

namespace ValueTrack

variable {t : ValueTrack} {x g y : BitVec 64} {n n' : ℕ → ℕ} {cpu c : ℕ} {l : LocalValue}
  {f : LocalValue → LocalValue}

theorem find_setLocal (hf : ∀ l, (f l).cpu = l.cpu) :
    (t.setLocal cpu f).find c = if c = cpu then (t.find c).map f else t.find c :=
  Keyed.lookup_update hf

theorem find_removeLocal : (t.removeLocal cpu).find c = if c = cpu then none else t.find c :=
  Keyed.lookup_erase

theorem find_addLocal (h : t.find l.cpu = none) :
    (t.addLocal l).find c = if c = l.cpu then some l else t.find c := by
  refine Keyed.lookup_append_singleton.trans ?_
  by_cases hc : c = l.cpu
  · rw [if_pos hc, if_pos hc.symm, hc]
    exact congrArg (Option.or · _) h
  · rw [if_neg hc, if_neg fun h => hc h.symm]
    exact Option.or_none

theorem unique_setLocal (hf : ∀ l, (f l).cpu = l.cpu)
    (h : (t.theLocallyVisibleValues.map LocalValue.cpu).Nodup) :
    ((t.setLocal cpu f).theLocallyVisibleValues.map LocalValue.cpu).Nodup := by
  rw [setLocal, Keyed.keys_update hf]
  exact h

theorem kSimicsReflectsG_ne (cpu : ℕ) : (cpu : ℤ) ≠ kSimicsReflectsG := by
  rw [kSimicsReflectsG]
  omega

theorem Ok.refresh (h : t.Ok x g n) (v : ValueTracker) (d : ℕ) : v.refresh d t = t := by
  rw [ValueTracker.refresh, if_neg]
  intro hp
  rw [kPoisonedByDMA] at hp
  rcases h.reflects with ⟨hr, -⟩ | ⟨cpu, hr, -⟩
  · rw [hp, kSimicsReflectsG] at hr
    omega
  · omega

theorem Ok.value_of_reflects (h : t.Ok x g n) (hl : t.find cpu = some l)
    (hr : t.theSimicsReflectsCPU = cpu) : x = l.theValue := by
  rcases h.reflects with ⟨hg, -⟩ | ⟨c, hc, l', hl', hx⟩
  · exact absurd (hr.symm.trans hg) (kSimicsReflectsG_ne cpu)
  · obtain rfl : cpu = c := by omega
    rw [hl] at hl'
    cases hl'
    exact hx

theorem Ok.shown_of_reflects (h : t.Ok x g n)
    (hr : t.theSimicsReflectsCPU = kSimicsReflectsG) : x = g := by
  rcases h.reflects with ⟨-, hx⟩ | ⟨c, hc, -⟩
  · exact hx
  · exact absurd (hc.symm.trans hr) (kSimicsReflectsG_ne c)

theorem Ok.count_eq (h : t.Ok x g n) (hl : t.find cpu = some l) :
    l.theOutstandingStores = n cpu := by
  have := h.count cpu
  rw [hl] at this
  exact this

theorem Ok.toLocal (h : t.Ok x g n) (hl : t.find cpu = some l) :
    (t.reflecting cpu).Ok l.theValue g n :=
  { h with reflects := .inr ⟨cpu, rfl, l, hl, rfl⟩ }

theorem Ok.toGlobal (h : t.Ok x g n) :
    (t.reflecting kSimicsReflectsG).Ok t.theGloballyVisibleValue g n :=
  { h with reflects := .inl ⟨rfl, h.shown⟩ }

/-- The value of a CPU is set to what Simics holds, which it is already. -/
theorem Ok.reread (h : t.Ok x g n) (hl : t.find cpu = some l)
    (hr : t.theSimicsReflectsCPU = cpu) :
    (t.setLocal cpu fun l => { l with theValue := x }).Ok x g n := by
  have hx := h.value_of_reflects hl hr
  have hfind : ∀ c, (t.setLocal cpu fun l => { l with theValue := x }).find c = t.find c := by
    intro c
    rw [find_setLocal (by intro _; rfl)]
    split
    · rename_i hc
      rw [hc, hl, hx]
      rfl
    · rfl
  refine ⟨h.shown, unique_setLocal (fun _ => rfl) h.unique, fun c => ?_, fun c l' hl' => ?_, ?_, ?_⟩
  · rw [hfind]
    exact h.count c
  · rw [hfind] at hl'
    exact h.positive c l' hl'
  · obtain ⟨c, l', hl'⟩ := h.live
    exact ⟨c, l', (hfind c).trans hl'⟩
  · exact .inr ⟨cpu, hr, l, (hfind cpu).trans hl, hx⟩

/-- The numbers of stores after one more by a CPU. -/
def oneMore (n : ℕ → ℕ) (cpu : ℕ) : ℕ → ℕ := fun c => n c + if c = cpu then 1 else 0

/-- A track in which a CPU has a new value, and Simics reflects it. -/
theorem ok_of_find {u : ValueTrack} (hshown : t.theGloballyVisibleValue = g)
    (hcount : ∀ c, c ≠ cpu → ((t.find c).map LocalValue.theOutstandingStores).getD 0 = n c)
    (hpos : ∀ c l, t.find c = some l → l.theOutstandingStores ≠ 0)
    (hu : u.theGloballyVisibleValue = t.theGloballyVisibleValue)
    (hunique : (u.theLocallyVisibleValues.map LocalValue.cpu).Nodup)
    (hr : u.theSimicsReflectsCPU = cpu)
    (hfind : ∀ c, u.find c = if c = cpu then some ⟨cpu, y, n cpu + 1⟩ else t.find c) :
    u.Ok y g (oneMore n cpu) := by
  have hcpu : u.find cpu = some ⟨cpu, y, n cpu + 1⟩ := (hfind cpu).trans (if_pos rfl)
  refine ⟨hu.trans hshown, hunique, fun c => ?_, fun c l hl => ?_, ⟨cpu, _, hcpu⟩,
    .inr ⟨cpu, hr, _, hcpu, rfl⟩⟩
  · rw [hfind, oneMore]
    split
    · rename_i hc
      rw [hc]
      rfl
    · rename_i hc
      exact hcount c hc
  · rw [hfind] at hl
    split at hl
    · cases hl
      exact Nat.succ_ne_zero _
    · exact hpos c l hl

/-- **A store by a CPU that has a value** of the double-word already. -/
theorem Ok.storeAgain (h : t.Ok x g n) (hl : t.find cpu = some l) (hn : n cpu + 1 < 2 ^ 32)
    (y : BitVec 64) : ((t.setLocal cpu fun l => { l with
      theValue := y, theOutstandingStores := (l.theOutstandingStores + 1) % 2 ^ 32 }).reflecting
        cpu).Ok y g (oneMore n cpu) := by
  refine ok_of_find h.shown (fun c _ => h.count c) h.positive rfl
    (unique_setLocal (fun _ => rfl) h.unique) rfl fun c => ?_
  refine (find_setLocal (by intro _; rfl)).trans ?_
  split
  · rename_i hc
    rw [hc, hl, Option.map_some, h.count_eq hl, Nat.mod_eq_of_lt hn, Keyed.key_of_lookup hl]
  · rfl

/-- **The first store by a CPU** to a double-word that has a track. -/
theorem Ok.storeFirst (h : t.Ok x g n) (hl : t.find cpu = none) (y : BitVec 64) :
    ((t.addLocal ⟨cpu, y, 1⟩).reflecting cpu).Ok y g (oneMore n cpu) := by
  have hzero : n cpu = 0 := by
    have := h.count cpu
    rw [hl] at this
    exact this.symm
  refine ok_of_find h.shown (fun c _ => h.count c) h.positive rfl
    (Keyed.nodup_append_singleton h.unique hl) rfl fun c => ?_
  rw [hzero]
  exact find_addLocal hl

theorem ok_new (hn : ∀ c, n c = 0) (y : BitVec 64) :
    Ok ⟨cpu, g, [⟨cpu, y, 1⟩]⟩ y g (oneMore n cpu) := by
  refine ok_of_find (t := ⟨cpu, g, []⟩) rfl (fun c _ => (hn c).symm) (fun c l hl => ?_) rfl
    (List.nodup_singleton _) rfl fun c => ?_
  · cases hl
  · rw [hn]
    exact find_addLocal (t := ⟨cpu, g, []⟩) rfl

/-- What is left of a value when one of its stores is committed. -/
theorem find_dropStore (hl : t.find cpu = some l) {k : ℕ} (hk : l.theOutstandingStores = k + 1)
    (hlt : k + 1 < 2 ^ 32) : (ValueTracker.dropStore t cpu l).find c = if c = cpu then
      (if k = 0 then none else some { l with theOutstandingStores := k }) else t.find c := by
  have hdec : (l.theOutstandingStores + (2 ^ 32 - 1)) % 2 ^ 32 = k := by omega
  rw [ValueTracker.dropStore, hdec]
  split
  · exact find_removeLocal
  · refine (find_setLocal (by intro _; rfl)).trans ?_
    split
    · rename_i hc
      rw [hc, hl]
      rfl
    · rfl

theorem dropStore_frame (t : ValueTrack) (cpu : ℕ) (l : LocalValue) :
    (ValueTracker.dropStore t cpu l).theGloballyVisibleValue =
      t.theGloballyVisibleValue ∧
    (ValueTracker.dropStore t cpu l).theSimicsReflectsCPU = t.theSimicsReflectsCPU ∧
    ((t.theLocallyVisibleValues.map LocalValue.cpu).Nodup →
      ((ValueTracker.dropStore t cpu l).theLocallyVisibleValues.map LocalValue.cpu).Nodup) := by
  rw [ValueTracker.dropStore]
  split
  · exact ⟨rfl, rfl, Keyed.nodup_erase⟩
  · exact ⟨rfl, rfl, unique_setLocal fun _ => rfl⟩

/-- **A commit**: a new value for everybody and one store less. No value of a CPU is left
exactly when no store is. -/
theorem Ok.commit (h : t.Ok x g n) (hl : t.find cpu = some l) (hlt : n cpu < 2 ^ 32)
    (hn : ∀ c, n c = oneMore n' cpu c) (y : BitVec 64) :
    ((ValueTracker.dropStore (t.published y) cpu l).theLocallyVisibleValues = [] →
      ∀ c, n' c = 0) ∧
    ((ValueTracker.dropStore (t.published y) cpu l).theLocallyVisibleValues ≠ [] →
      (ValueTracker.dropStore (t.published y) cpu l).Ok y y n') := by
  have hk : n cpu = n' cpu + 1 := by rw [hn, oneMore, if_pos rfl]
  have hfind : ∀ c, (ValueTracker.dropStore (t.published y) cpu l).find c = if c = cpu then
      (if n' cpu = 0 then none else some { l with theOutstandingStores := n' cpu })
      else t.find c := by
    rw [hk] at hlt
    intro c
    have hcnt : l.theOutstandingStores = n' cpu + 1 := (h.count_eq hl).trans hk
    exact find_dropStore (t := t.published y) (k := n' cpu) hl hcnt hlt
  have hframe := dropStore_frame (t.published y) cpu l
  generalize ValueTracker.dropStore (t.published y) cpu l = u at hfind hframe ⊢
  obtain ⟨hshown, hreflects, hunique⟩ := hframe
  have hcount : ∀ c, ((u.find c).map LocalValue.theOutstandingStores).getD 0 = n' c := by
    intro c
    rw [hfind]
    by_cases hc : c = cpu
    · rw [if_pos hc, hc]
      split
      · rename_i h0
        exact h0.symm
      · rfl
    · have hother : n c = n' c := by rw [hn, oneMore, if_neg hc, Nat.add_zero]
      rw [if_neg hc, ← hother]
      exact h.count c
  refine ⟨fun hnil c => ?_, fun hne => ⟨hshown, hunique h.unique, hcount, fun c l' hl' => ?_, ?_,
    .inl ⟨hreflects, rfl⟩⟩⟩
  · -- nobody is left
    rw [← hcount, find, hnil]
    rfl
  · rw [hfind] at hl'
    split at hl'
    · split at hl'
      · cases hl'
      · rename_i h0
        cases hl'
        exact h0
    · exact h.positive c l' hl'
  · obtain ⟨l', hl'⟩ := List.exists_mem_of_ne_nil _ hne
    exact ⟨l'.cpu, l', Keyed.lookup_of_mem (hunique h.unique) hl'⟩

end ValueTrack

/-! ### The calls -/

/-- Nothing but one double-word has changed. -/
structure OnlyAt (d : ℕ) (v v' : ValueTracker) : Prop where
  tracks : ∀ e, e ≠ d → v'.theTracker e = v.theTracker e
  simics : ∀ e, e % 8 = 0 → e ≠ d → Bytes.read v'.simics e 8 = Bytes.read v.simics e 8

namespace ValueTracker

variable {v v' : ValueTracker} {d cpu a : ℕ} {size : Size} {x g y : BitVec 64} {n n' : ℕ → ℕ}
  {t : ValueTrack} {r : ℤ}

theorem onlyAt_refl : OnlyAt d v v := ⟨fun _ _ => rfl, fun _ _ _ => rfl⟩

theorem onlyAt_setTrack {t : Option ValueTrack} : OnlyAt d v (v.setTrack d t) :=
  ⟨fun _ he => Function.update_of_ne he _ _, fun _ _ _ => rfl⟩

theorem onlyAt_writeSimics (hd : d % 8 = 0) : OnlyAt d v (v.writeSimics d x) := by
  refine ⟨fun _ _ => rfl, fun e he hne => ?_⟩
  exact Bytes.read_write_of_disjoint (dw_disjoint hd he hne)

theorem onlyAt_trans {u : ValueTracker} (h : OnlyAt d v u) (h' : OnlyAt d u v') : OnlyAt d v v' :=
  ⟨fun e he => (h'.tracks e he).trans (h.tracks e he),
    fun e h8 he => (h'.simics e h8 he).trans (h.simics e h8 he)⟩

theorem onlyAt_switch (hd : d % 8 = 0) : OnlyAt d v (v.switch d t r x) :=
  onlyAt_trans (onlyAt_writeSimics hd) onlyAt_setTrack

theorem theTracker_setTrack {t : Option ValueTrack} : (v.setTrack d t).theTracker d = t := by
  simp [setTrack]

theorem trackOk_switch (h : (t.reflecting r).Ok x g n) :
    TrackOk (Bytes.read (v.switch d t r x).simics d 8) g n ((v.switch d t r x).theTracker d) := by
  rw [switch, theTracker_setTrack]
  have hx : Bytes.read ((v.writeSimics d x).setTrack d (some (t.reflecting r))).simics d 8 = x :=
    Bytes.read_write
  rw [hx]
  exact h

theorem trackOk_setTrack {t : Option ValueTrack} (h : TrackOk (Bytes.read v.simics d 8) g n t) :
    TrackOk (Bytes.read (v.setTrack d t).simics d 8) g n ((v.setTrack d t).theTracker d) := by
  rw [theTracker_setTrack]
  exact h

/-- **An access** changes neither the tracks in earnest nor what everybody sees. -/
theorem access_spec (cpu : ℕ) (ha : a < limit)
    (h : TrackOk (Bytes.read v.simics (dwAddr a) 8) g n (v.theTracker (dwAddr a))) :
    ∃ v', v.access cpu a = .ok v' ∧ OnlyAt (dwAddr a) v v' ∧
      TrackOk (Bytes.read v'.simics (dwAddr a) 8) g n (v'.theTracker (dwAddr a)) := by
  rw [access, if_neg (not_not_intro ha)]
  dsimp only
  cases ht : v.theTracker (dwAddr a) with
  | none =>
    refine ⟨v, rfl, onlyAt_refl, ?_⟩
    rw [ht] at h ⊢
    exact h
  | some t =>
    rw [ht] at h
    have hok : t.Ok _ g n := h
    dsimp only
    rw [hok.refresh]
    cases hl : t.find cpu with
    | some l =>
      dsimp only
      split
      · rename_i hr
        exact ⟨_, rfl, onlyAt_setTrack, trackOk_setTrack (hok.reread hl hr)⟩
      · exact ⟨_, rfl, onlyAt_switch (dwAddr_mod a), trackOk_switch (hok.toLocal hl)⟩
    | none =>
      dsimp only
      split
      · exact ⟨_, rfl, onlyAt_setTrack, trackOk_setTrack hok⟩
      · exact ⟨_, rfl, onlyAt_switch (dwAddr_mod a), trackOk_switch hok.toGlobal⟩

/-- **A load** is an access as far as the tracks are concerned. -/
theorem load_spec (cpu : ℕ) (size : Size) (h0 : a ≠ 0) (ha : a < limit)
    (h : TrackOk (Bytes.read v.simics (dwAddr a) 8) g n (v.theTracker (dwAddr a))) :
    ∃ v', v.load cpu a size = .ok (v', Bytes.read v'.simics a size.toNat) ∧
      OnlyAt (dwAddr a) v v' ∧
      TrackOk (Bytes.read v'.simics (dwAddr a) 8) g n (v'.theTracker (dwAddr a)) := by
  rw [load, if_neg h0, if_neg (not_not_intro ha)]
  dsimp only
  cases ht : v.theTracker (dwAddr a) with
  | none =>
    refine ⟨v, rfl, onlyAt_refl, ?_⟩
    rw [ht] at h ⊢
    exact h
  | some t =>
    rw [ht] at h
    have hok : t.Ok _ g n := h
    dsimp only
    rw [hok.refresh]
    cases hl : t.find cpu with
    | none =>
      dsimp only
      split
      · exact ⟨_, rfl, onlyAt_switch (dwAddr_mod a), trackOk_switch hok.toGlobal⟩
      · exact ⟨_, rfl, onlyAt_setTrack, trackOk_setTrack hok⟩
    | some l =>
      dsimp only
      split
      · exact ⟨_, rfl, onlyAt_switch (dwAddr_mod a), trackOk_switch (hok.toLocal hl)⟩
      · exact ⟨_, rfl, onlyAt_setTrack, trackOk_setTrack hok⟩

/-- **A store** is one more outstanding store of its CPU, and nobody else sees it. -/
theorem store_spec (h : TrackOk (Bytes.read v.simics (dwAddr a) 8) g n (v.theTracker (dwAddr a)))
    (h0 : a ≠ 0) (ha : a < limit) (hn : n cpu + 1 < 2 ^ 32) :
    ∃ v', v.store cpu a size y = .ok v' ∧ OnlyAt (dwAddr a) v v' ∧
      TrackOk (Bytes.read v'.simics (dwAddr a) 8) g (ValueTrack.oneMore n cpu)
        (v'.theTracker (dwAddr a)) := by
  rw [store, if_neg h0, if_neg (not_not_intro ha)]
  dsimp only
  cases ht : v.theTracker (dwAddr a) with
  | none =>
    rw [ht] at h
    obtain ⟨hx, hzero⟩ := h
    refine ⟨_, rfl, onlyAt_trans onlyAt_setTrack (onlyAt_writeSimics (dwAddr_mod a)), ?_⟩
    rw [hx, show (writeSimics (v.setTrack _ _) _ _).theTracker (dwAddr a) = _ from
      theTracker_setTrack, show Bytes.read (writeSimics _ _ _).simics (dwAddr a) 8 = _ from
      Bytes.read_write]
    exact ValueTrack.ok_new hzero _
  | some t =>
    rw [ht] at h
    have hok : t.Ok _ g n := h
    dsimp only
    rw [hok.refresh]
    cases hl : t.find cpu with
    | some l =>
      exact ⟨_, rfl, onlyAt_switch (dwAddr_mod a), trackOk_switch (hok.storeAgain hl hn _)⟩
    | none =>
      exact ⟨_, rfl, onlyAt_switch (dwAddr_mod a), trackOk_switch (hok.storeFirst hl _)⟩

/-- **A commit** of an outstanding store: everybody sees it, and Simics holds what everybody
sees. -/
theorem commitStore_spec (size : Size) (y : BitVec 64)
    (h : TrackOk (Bytes.read v.simics (dwAddr a) 8) g n (v.theTracker (dwAddr a)))
    (h0 : a ≠ 0) (ha : a < limit) (hlt : n cpu < 2 ^ 32)
    (hn : ∀ c, n c = ValueTrack.oneMore n' cpu c) :
    ∃ v', v.commitStore cpu a size y = .ok v' ∧ OnlyAt (dwAddr a) v v' ∧
      Bytes.read v'.simics (dwAddr a) 8 = overlay g a size y ∧
      TrackOk (overlay g a size y) (overlay g a size y) n' (v'.theTracker (dwAddr a)) := by
  have hpos : n cpu ≠ 0 := by
    rw [hn, ValueTrack.oneMore, if_pos rfl]
    exact Nat.succ_ne_zero _
  rw [commitStore, if_neg h0, if_neg (not_not_intro ha)]
  dsimp only
  cases ht : v.theTracker (dwAddr a) with
  | none =>
    rw [ht] at h
    exact absurd (h.2 cpu) hpos
  | some t =>
    rw [ht] at h
    have hok : t.Ok _ g n := h
    dsimp only
    cases hl : t.find cpu with
    | none =>
      have := hok.count cpu
      rw [hl] at this
      exact absurd this.symm hpos
    | some l =>
      dsimp only
      rw [hok.refresh, hok.shown]
      obtain ⟨hnone, hsome⟩ := hok.commit hl hlt hn (overlay g a size y)
      have hat : ∀ t', OnlyAt (dwAddr a) v
          ((v.writeSimics (dwAddr a) (overlay g a size y)).setTrack (dwAddr a) t') := fun t' =>
        onlyAt_trans (onlyAt_writeSimics (dwAddr_mod a)) onlyAt_setTrack
      by_cases hnil : (dropStore (t.published (overlay g a size y)) cpu l).theLocallyVisibleValues
          = []
      · rw [if_pos hnil]
        refine ⟨_, rfl, hat none, Bytes.read_write, ?_⟩
        rw [theTracker_setTrack]
        exact ⟨rfl, hnone hnil⟩
      · rw [if_neg hnil]
        refine ⟨_, rfl, hat _, Bytes.read_write, ?_⟩
        rw [theTracker_setTrack]
        exact hsome hnil

end ValueTracker

/-! ### Whole runs -/

namespace Tracked

variable {m : Bytes.Memory} {s s' : Tracked} {st : Store} {d cpu : ℕ}

/-- What Simics, the committed stores and the uncommitted ones say about a double-word. -/
def OkAt (m : Bytes.Memory) (s : Tracked) (d : ℕ) : Prop :=
  TrackOk (Bytes.read s.tracker.simics d 8) (Bytes.read (overlaid m s.committed) d 8)
    (fun cpu => storesTo s.uncommitted cpu d) (s.tracker.theTracker d)

/-- **The invariant of a run.** -/
structure Inv (m : Bytes.Memory) (s : Tracked) : Prop where
  placed : ∀ st ∈ s.uncommitted, Placed st.address st.size
  aligned : ∀ d, d % 8 ≠ 0 → s.tracker.theTracker d = none
  bounded : ∀ cpu d, storesTo s.uncommitted cpu d < 2 ^ 32
  ok : ∀ d, d % 8 = 0 → s.OkAt m d

theorem inv_init : Inv m (machine m).init where
  placed := by simp [machine]
  aligned := by
    intro d _
    rfl
  bounded := by
    intro cpu d
    exact Nat.two_pow_pos 32
  ok := by
    intro d _
    exact ⟨rfl, fun _ => rfl⟩

theorem storesTo_append {l : List Store} : storesTo (l ++ [st]) cpu d =
    storesTo l cpu d + if cpu = st.cpu ∧ d = dwAddr st.address then 1 else 0 := by
  rw [storesTo, List.countP_append, storesTo]
  by_cases h : cpu = st.cpu ∧ d = dwAddr st.address
  · rw [if_pos h, h.1, h.2]
    simp
  · rw [if_neg h]
    have : ¬ (st.cpu = cpu ∧ dwAddr st.address = d) := fun h' => h ⟨h'.1.symm, h'.2.symm⟩
    simpa using this

theorem storesTo_erase {l : List Store} (h : st ∈ l) : storesTo l cpu d =
    storesTo (l.erase st) cpu d + if cpu = st.cpu ∧ d = dwAddr st.address then 1 else 0 := by
  rw [← storesTo_append, storesTo, storesTo]
  refine List.Perm.countP_eq _ ((List.perm_cons_erase h).trans ?_)
  exact (List.perm_append_singleton st _).symm

theorem OkAt.congr (h : s.OkAt m d) (hs : Bytes.read s'.tracker.simics d 8 =
      Bytes.read s.tracker.simics d 8)
    (ho : Bytes.read (overlaid m s'.committed) d 8 = Bytes.read (overlaid m s.committed) d 8)
    (hu : ∀ cpu, storesTo s'.uncommitted cpu d = storesTo s.uncommitted cpu d)
    (ht : s'.tracker.theTracker d = s.tracker.theTracker d) : s'.OkAt m d := by
  rw [OkAt, hs, ho, ht, funext hu]
  exact h

theorem Inv.look {v : ValueTracker} {a : ℕ} (h : Inv m s) (hat : OnlyAt (dwAddr a) s.tracker v)
    (hok : TrackOk (Bytes.read v.simics (dwAddr a) 8)
      (Bytes.read (overlaid m s.committed) (dwAddr a) 8)
      (fun cpu => storesTo s.uncommitted cpu (dwAddr a)) (v.theTracker (dwAddr a))) :
    Inv m { s with tracker := v } where
  placed := h.placed
  aligned := by
    intro d hd
    rw [hat.tracks d fun hc => hd (hc ▸ dwAddr_mod a)]
    exact h.aligned d hd
  bounded := h.bounded
  ok := by
    intro d hd
    by_cases hda : d = dwAddr a
    · rw [hda]
      exact hok
    · exact (h.ok d hd).congr (hat.simics d hd hda) rfl (fun _ => rfl) (hat.tracks d hda)

theorem oneMore_eq {l : List Store} : (fun c => storesTo (l ++ [st]) c (dwAddr st.address)) =
    ValueTrack.oneMore (fun c => storesTo l c (dwAddr st.address)) st.cpu := by
  funext c
  rw [storesTo_append, ValueTrack.oneMore]
  simp

theorem Inv.store (h : Inv m s) (hp : Placed st.address st.size)
    (hn : storesTo s.uncommitted st.cpu (dwAddr st.address) + 1 < 2 ^ 32) :
    ∃ s', s.step (.store st) = .ok s' ∧ Inv m s' := by
  obtain ⟨v, hv, hat, hok⟩ :=
    ValueTracker.store_spec (y := st.value) (h.ok _ (dwAddr_mod st.address)) hp.1 hp.2.1 hn
  refine ⟨⟨v, s.committed, s.uncommitted ++ [st]⟩, by rw [step, hv], ?_, fun d hd => ?_,
    fun c d => ?_, fun d hd => ?_⟩
  · intro u hu
    rcases List.mem_append.mp hu with hu | hu
    · exact h.placed u hu
    · rw [List.mem_singleton.mp hu]
      exact hp
  · rw [hat.tracks d fun hc => hd (hc ▸ dwAddr_mod st.address)]
    exact h.aligned d hd
  · rw [storesTo_append]
    split
    · rename_i hc
      rw [hc.1, hc.2]
      exact hn
    · exact h.bounded c d
  · by_cases hda : d = dwAddr st.address
    · rw [hda, OkAt]
      simp only [oneMore_eq]
      exact hok
    · refine (h.ok d hd).congr (hat.simics d hd hda) rfl (fun c => ?_) (hat.tracks d hda)
      rw [storesTo_append, if_neg fun hc => hda hc.2, Nat.add_zero]

theorem overlaid_append {l : List Store} :
    overlaid m (l ++ [st]) = st.apply (overlaid m l) := by
  rw [overlaid, List.foldl_append]
  rfl

/-- A commit keeps the invariant, and Simics holds what everybody sees. -/
theorem Inv.commitStore (h : Inv m s) (hst : st ∈ s.uncommitted) :
    ∃ s', s.step (.commitStore st) = .ok s' ∧ Inv m s' ∧
      s'.committed = s.committed ++ [st] ∧ s'.uncommitted = s.uncommitted.erase st ∧
      Bytes.read s'.tracker.simics (dwAddr st.address) 8 =
        Bytes.read (overlaid m s'.committed) (dwAddr st.address) 8 := by
  have hp := h.placed st hst
  have hb := dwAddr_bounds hp.2.2
  have herase : ∀ c, storesTo s.uncommitted c (dwAddr st.address) = ValueTrack.oneMore
      (fun c => storesTo (s.uncommitted.erase st) c (dwAddr st.address)) st.cpu c := by
    intro c
    rw [storesTo_erase hst, ValueTrack.oneMore]
    simp
  obtain ⟨v, hv, hat, hsim, hok⟩ := ValueTracker.commitStore_spec st.size st.value
    (h.ok _ (dwAddr_mod st.address)) hp.1 hp.2.1 (h.bounded st.cpu _) herase
  have hover : overlay (Bytes.read (overlaid m s.committed) (dwAddr st.address) 8) st.address
      st.size st.value = Bytes.read (overlaid m (s.committed ++ [st])) (dwAddr st.address) 8 := by
    rw [overlaid_append]
    exact overlay_read hp.2.2
  rw [hover] at hsim hok
  refine ⟨⟨v, s.committed ++ [st], s.uncommitted.erase st⟩, by rw [step, hv],
    ⟨fun u hu => h.placed u (List.mem_of_mem_erase hu), fun d hd => ?_, fun c d => ?_,
      fun d hd => ?_⟩, rfl, rfl, hsim⟩
  · rw [hat.tracks d fun hc => hd (hc ▸ dwAddr_mod st.address)]
    exact h.aligned d hd
  · refine Nat.lt_of_le_of_lt ?_ (h.bounded c d)
    rw [storesTo_erase hst]
    exact Nat.le_add_right _ _
  · by_cases hda : d = dwAddr st.address
    · rw [hda, OkAt, hsim]
      exact hok
    · refine (h.ok d hd).congr (hat.simics d hd hda) ?_ (fun c => ?_) (hat.tracks d hda)
      · rw [overlaid_append]
        refine Bytes.read_write_of_disjoint ?_
        have := dw_disjoint (dwAddr_mod st.address) hd hda
        omega
      · rw [storesTo_erase hst, if_neg fun hc => hda hc.2, Nat.add_zero]

/-- **The step lemma**: a proper call succeeds, and keeps the invariant. -/
theorem Inv.step (h : Inv m s) {e : Call} (hp : s.Proper e) (hc : s.Counted e) :
    ∃ s', s.step e = .ok s' ∧ Inv m s' := by
  cases e with
  | store st => exact h.store hp hc
  | commitStore st =>
    obtain ⟨s', hs, hinv, -⟩ := h.commitStore hp
    exact ⟨s', hs, hinv⟩
  | load cpu a size =>
    obtain ⟨v, hv, hat, hok⟩ := ValueTracker.load_spec cpu size hp.1 hp.2.1 (h.ok _ (dwAddr_mod a))
    exact ⟨{ s with tracker := v }, by rw [Tracked.step, hv], h.look hat hok⟩
  | access cpu a =>
    obtain ⟨v, hv, hat, hok⟩ := ValueTracker.access_spec cpu hp.2 (h.ok _ (dwAddr_mod a))
    exact ⟨{ s with tracker := v }, by rw [Tracked.step, hv], h.look hat hok⟩

theorem Inv.reachable {guard : Tracked → Call → Prop}
    (hg : ∀ s e, guard s e → s.Proper e ∧ s.Counted e) (h : (machine m).ReachableWhen guard s) :
    Inv m s := by
  refine h.invariant (I := Inv m) inv_init fun s e t hs hge ht => ?_
  obtain ⟨hp, hc⟩ := hg s e hge
  obtain ⟨t', ht', hinv⟩ := Inv.step hs hp hc
  rw [show (machine m).step s e = s.step e from rfl, ht'] at ht
  cases ht
  exact hinv

theorem exists_store (hp : Placed st.address st.size) : ∃ s', s.step (.store st) = .ok s' := by
  have hv : ∃ v, s.tracker.store st.cpu st.address st.size st.value = .ok v := by
    rw [ValueTracker.store, if_neg hp.1, if_neg (not_not_intro hp.2.1)]
    dsimp only
    split
    · exact ⟨_, rfl⟩
    · split
      · exact ⟨_, rfl⟩
      · exact ⟨_, rfl⟩
  obtain ⟨v, hv⟩ := hv
  rw [step, hv]
  exact ⟨_, rfl⟩

theorem Inv.track_iff (h : Inv m s) (d : ℕ) : (s.tracker.theTracker d).isSome = true ↔
    ∃ st ∈ s.uncommitted, dwAddr st.address = d := by
  by_cases hd : d % 8 = 0
  · have hok := h.ok d hd
    rw [OkAt] at hok
    constructor
    · intro hsome
      obtain ⟨t, ht⟩ := Option.isSome_iff_exists.mp hsome
      rw [ht] at hok
      obtain ⟨cpu, l, hl⟩ := hok.live
      -- a value in the track is a store that has not been committed
      have hpos : 0 < storesTo s.uncommitted cpu d := by
        rw [← hok.count_eq hl]
        exact Nat.pos_of_ne_zero (hok.positive cpu l hl)
      obtain ⟨st, hst, hp⟩ := List.countP_pos_iff.mp hpos
      rw [Bool.and_eq_true_iff, beq_iff_eq, beq_iff_eq] at hp
      exact ⟨st, hst, hp.2⟩
    · rintro ⟨st, hst, hda⟩
      cases ht : s.tracker.theTracker d with
      | some t => rfl
      | none =>
        rw [ht] at hok
        have := List.countP_eq_zero.mp (hok.2 st.cpu) st hst
        rw [hda] at this
        simp at this
  · rw [h.aligned d hd]
    constructor
    · exact nofun
    · rintro ⟨st, -, hda⟩
      rw [← hda] at hd
      exact absurd (dwAddr_mod st.address) hd

theorem Inv.globalView (h : Inv m s) : GlobalView m s where
  value := by
    intro d hd
    have hok := h.ok d hd
    rw [OkAt] at hok
    rw [ValueTracker.globalValue]
    cases ht : s.tracker.theTracker d with
    | some t =>
      rw [ht] at hok
      exact hok.shown
    | none =>
      rw [ht] at hok
      exact hok.1
  track := h.track_iff
  count := by
    intro d t cpu ht
    have hd : d % 8 = 0 := by
      by_contra hd
      rw [h.aligned d hd] at ht
      cases ht
    have hok := h.ok d hd
    rw [OkAt, ht] at hok
    exact hok.count cpu
  safe := by
    intro e hp
    cases e with
    | store st => exact exists_store hp
    | commitStore st =>
      obtain ⟨s', hs, -⟩ := h.step (e := .commitStore st) hp trivial
      exact ⟨s', hs⟩
    | load cpu a size =>
      obtain ⟨s', hs, -⟩ := h.step (e := .load cpu a size) hp trivial
      exact ⟨s', hs⟩
    | access cpu a =>
      obtain ⟨s', hs, -⟩ := h.step (e := .access cpu a) hp trivial
      exact ⟨s', hs⟩
  settled := by
    intro st s' hst hlast hs
    obtain ⟨t, ht, hinv, -, hun, hsim⟩ := h.commitStore hst
    rw [ht] at hs
    cases hs
    refine ⟨?_, hsim⟩
    cases htr : s'.tracker.theTracker (dwAddr st.address) with
    | none => rfl
    | some u =>
      obtain ⟨st', hst', hda⟩ := (hinv.track_iff (dwAddr st.address)).mp (by rw [htr]; rfl)
      rw [hun] at hst'
      exact absurd hda (hlast st' hst')

/-- **The value tracker shows the committed stores to everybody**, as long as no CPU has
2³² uncommitted stores to one double-word. -/
theorem tracker_shows_committed (m : Bytes.Memory)
    (h : (machine m).ReachableWhen (fun s e => s.Proper e ∧ s.Counted e) s) : GlobalView m s :=
  (Inv.reachable (fun _ _ hg => hg) h).globalView

/-! ### Two runs -/

/-- A word that CPU 0 stores. -/
def wordStore : Store := ⟨0, 12, .word, 0xABCD#64⟩

/-- After the store, a load by another CPU and the commit, everybody sees the word. -/
theorem tracker_shows_wordStore : ∃ s,
    (machine fun _ => 0xFF#8).ReachableWhen (fun s e => s.Proper e ∧ s.Counted e) s ∧
    s.committed = [wordStore] ∧
    s.tracker.globalValue 8 = Bytes.read (overlaid (fun _ => 0xFF#8) [wordStore]) 8 8 ∧
    s.tracker.globalValue 8 = 0xFFFFFFFF0000ABCD#64 := by
  obtain ⟨s, hrun, hcom⟩ : ∃ s, (machine fun _ => 0xFF#8).run
      [.store wordStore, .load 1 12 .word, .commitStore wordStore] = .ok s ∧
      s.committed = [wordStore] := ⟨_, rfl, rfl⟩
  have hreach : (machine fun _ => 0xFF#8).ReachableWhen
      (fun s e => s.Proper e ∧ s.Counted e) s := by
    refine Machine.reachableWhen_of_run (g := fun s e => match e with
      | .store st => decide (st = wordStore ∧ s.uncommitted = [])
      | .commitStore st => decide (st ∈ s.uncommitted)
      | .load _ a size => decide (a = 12 ∧ size = .word)
      | .access _ _ => false) ?_ rfl hrun
    rintro s e hg
    cases e with
    | store st =>
      obtain ⟨rfl, hu⟩ := of_decide_eq_true hg
      refine ⟨⟨by decide, by decide, by decide⟩, ?_⟩
      rw [Counted, hu]
      decide
    | commitStore st =>
      have hmem : st ∈ s.uncommitted := of_decide_eq_true hg
      exact ⟨hmem, trivial⟩
    | load cpu a size =>
      obtain ⟨rfl, rfl⟩ := of_decide_eq_true hg
      exact ⟨⟨by decide, by decide, by decide⟩, trivial⟩
    | access cpu a => cases hg
  have hval := (tracker_shows_committed _ hreach).value 8 rfl
  rw [hcom] at hval
  exact ⟨s, hreach, hcom, hval, by rw [hval]; decide⟩

theorem reachable_replicate (m : Bytes.Memory) (n : ℕ) : ∃ s x, (machine m).ReachableWhen Proper s ∧
    s.uncommitted = List.replicate (n + 1) wordStore ∧ ∃ g,
    s.tracker.theTracker 8 = some ⟨(0 : ℕ), g, [⟨0, x, (n + 1) % 2 ^ 32⟩]⟩ := by
  induction n with
  | zero =>
    refine ⟨_, _, Machine.ReachableWhen.init.step (e := .store wordStore)
      ⟨by decide, by decide, by decide⟩ rfl, rfl, _, rfl⟩
  | succ n ih =>
    obtain ⟨s, x, hs, hu, g, ht⟩ := ih
    obtain ⟨v, y, hv, hvt⟩ : ∃ v y, s.tracker.store wordStore.cpu wordStore.address
        wordStore.size wordStore.value = .ok v ∧ v.theTracker 8 =
          some ⟨(0 : ℕ), g, [⟨0, y, (n + 1 + 1) % 2 ^ 32⟩]⟩ := by
      rw [ValueTracker.store, if_neg (by decide), if_neg (by decide),
        show dwAddr wordStore.address = 8 from rfl]
      dsimp only
      rw [ht]
      refine ⟨_, overlay (Bytes.read s.tracker.simics 8 8) 12 .word 0xABCD#64, rfl,
        ValueTracker.theTracker_setTrack.trans ?_⟩
      rw [← Nat.mod_add_mod (n + 1)]
      rfl
    refine ⟨⟨v, s.committed, s.uncommitted ++ [wordStore]⟩, y,
      hs.step (e := .store wordStore) ⟨by decide, by decide, by decide⟩ ?_, ?_, g, hvt⟩
    · show s.step (.store wordStore) = _
      rw [step, hv]
    · show s.uncommitted ++ [wordStore] = _
      rw [hu, ← List.replicate_succ']

/-- **The count of the outstanding stores overflows**: with 2³² + 1 of them it is one, and
the first commit drops the track. -/
theorem track_lost_by_overflow : ¬ ∀ (m : Bytes.Memory) (s : Tracked),
    (machine m).ReachableWhen Proper s → GlobalView m s := by
  intro h
  obtain ⟨n, hn⟩ : ∃ n, n = 2 ^ 32 := ⟨_, rfl⟩
  obtain ⟨s, x, hs, hu, g, ht⟩ := reachable_replicate (fun _ => 0#8) n
  have hone : (n + 1) % 2 ^ 32 = 1 := by omega
  rw [hone] at ht
  have hmem : wordStore ∈ s.uncommitted := by
    rw [hu]
    exact List.mem_replicate.mpr ⟨Nat.succ_ne_zero n, rfl⟩
  obtain ⟨v, hv, hvt⟩ : ∃ v, s.tracker.commitStore wordStore.cpu wordStore.address wordStore.size
      wordStore.value = .ok v ∧ v.theTracker 8 = none := by
    have hdrop : ∀ y, (ValueTracker.dropStore (ValueTrack.published ⟨(0 : ℕ), g, [⟨0, x, 1⟩]⟩ y) 0
        ⟨0, x, 1⟩).theLocallyVisibleValues = [] := by
      intro y
      have hzero : (1 + (2 ^ 32 - 1)) % 2 ^ 32 = 0 := by decide
      rw [ValueTracker.dropStore, if_pos hzero]
      rfl
    rw [ValueTracker.commitStore, if_neg (by decide), if_neg (by decide),
      show dwAddr wordStore.address = 8 from rfl]
    dsimp only
    rw [ht]
    refine ⟨_, if_pos (hdrop _), ValueTracker.theTracker_setTrack⟩
  have hreach : (machine fun _ => 0#8).ReachableWhen Proper
      ⟨v, s.committed ++ [wordStore], s.uncommitted.erase wordStore⟩ := by
    refine hs.step (e := .commitStore wordStore) hmem ?_
    show s.step (.commitStore wordStore) = _
    rw [step, hv]
  have htrack := (h _ _ hreach).track 8
  rw [hvt] at htrack
  refine absurd (htrack.mpr ⟨wordStore, ?_, rfl⟩) nofun
  rw [hu, List.replicate_succ, List.erase_cons_head]
  exact List.mem_replicate.mpr ⟨by omega, rfl⟩

end Tracked

end UArch

end Flexus
