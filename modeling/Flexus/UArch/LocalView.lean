import Flexus.Lib.Outcome
import Flexus.UArch.GlobalView
import Mathlib.Data.List.Induction

/-!
# What the value tracker shows to a single CPU

A CPU should see its own stores before anybody else does: a byte that it loads should be the
one of its latest store that has not been committed, and where there is none the one that
everybody sees (`Flexus.UArch.Tracked.seenByte`).

The tracker keeps one double-word for each CPU with uncommitted stores to it, a snapshot of
the whole double-word taken at the first of these stores. The stores of the CPU itself are
pasted into it, but the commits of the others are not. So the CPU goes on to see old bytes
next to its own, unless a commit of another CPU writes nothing that is new to it
(`Flexus.UArch.Tracked.Merged`).
-/

namespace Flexus

open Lib

namespace UArch

open Lib (Bytes.Memory Bytes.read Bytes.write)

/-! ### The bytes of stores -/

namespace Store

/-- Whether a store writes a byte. -/
def covers (st : Store) (b : ℕ) : Bool := decide (st.address ≤ b ∧ b < st.address + st.size.toNat)

/-- The byte a store writes at an address it covers. -/
def byteAt (st : Store) (b : ℕ) : BitVec 8 :=
  (st.value >>> (8 * (st.size.toNat - 1 - (b - st.address)))).setWidth 8

end Store

/-- **The byte of the latest store** of a list, if one of them covers the address. -/
def lastByte (l : List Store) (b : ℕ) : Option (BitVec 8) :=
  (l.reverse.find? fun st => st.covers b).map fun st => st.byteAt b

/-- The stores of a CPU. -/
def ownStores (l : List Store) (cpu : ℕ) : List Store := l.filter fun st => st.cpu == cpu

theorem lastByte_append {l : List Store} {st : Store} {b : ℕ} : lastByte (l ++ [st]) b =
    if st.covers b then some (st.byteAt b) else lastByte l b := by
  rw [lastByte, List.reverse_append, List.reverse_singleton, List.singleton_append, List.find?_cons]
  cases h : st.covers b with
  | true => rfl
  | false => rfl

theorem apply_byte {m : Bytes.Memory} {st : Store} {b : ℕ} :
    st.apply m b = if st.covers b then st.byteAt b else m b := by
  rw [Store.apply, Bytes.write, Store.covers, Store.byteAt]
  by_cases h : st.address ≤ b ∧ b < st.address + st.size.toNat
  · rw [if_pos h, if_pos (decide_eq_true h)]
  · rw [if_neg h, if_neg (by simpa using h)]

theorem overlaid_byte {m : Bytes.Memory} {l : List Store} {b : ℕ} :
    overlaid m l b = (lastByte l b).getD (m b) := by
  induction l using List.reverseRecOn with
  | nil => rfl
  | append_singleton l st ih =>
    rw [overlaid, List.foldl_append, lastByte_append]
    refine apply_byte.trans ?_
    split
    · rfl
    · exact ih

theorem overlaid_cons {m : Bytes.Memory} {l : List Store} {st : Store} :
    overlaid m (st :: l) = overlaid (st.apply m) l := rfl

theorem lastByte_isSome {l : List Store} {b : ℕ} :
    (lastByte l b).isSome = true ↔ ∃ st ∈ l, st.covers b = true := by
  rw [lastByte, Option.isSome_map, List.find?_isSome]
  simp

theorem byte_of_read {m m' : Bytes.Memory} {d k : ℕ}
    (h : Bytes.read m d 8 = Bytes.read m' d 8) (hk : k < 8) : m (d + k) = m' (d + k) := by
  refine BitVec.eq_of_getLsbD_eq fun i hi => ?_
  have hbit : (Bytes.read m d 8).getLsbD (8 * (7 - k) + i) =
      (Bytes.read m' d 8).getLsbD (8 * (7 - k) + i) := by rw [h]
  rw [Bytes.getLsbD_read (by omega), Bytes.getLsbD_read (by omega)] at hbit
  have hbyte : d + (8 - 1 - (8 * (7 - k) + i) / 8) = d + k := by omega
  have hpos : (8 * (7 - k) + i) % 8 = i := by omega
  have hlt : 8 * (7 - k) + i < 8 * 8 := by omega
  rw [hbyte, hpos] at hbit
  simpa [hlt] using hbit

theorem read_of_dw {m m' : Bytes.Memory} {a : ℕ} {size : Size} (ha : a % size.toNat = 0)
    (h : Bytes.read m (dwAddr a) 8 = Bytes.read m' (dwAddr a) 8) :
    Bytes.read m a size.toNat = Bytes.read m' a size.toNat := by
  have hb := dwAddr_bounds ha
  refine Bytes.read_congr fun k hk => ?_
  have := byte_of_read h (k := a + k - dwAddr a) (by omega)
  rwa [show dwAddr a + (a + k - dwAddr a) = a + k by omega] at this

/-! ### What a CPU should see -/

namespace Tracked

/-- **The byte a CPU should see**: that of its latest uncommitted store, or of the latest
committed store, or of the memory. -/
def seenByte (m : Bytes.Memory) (s : Tracked) (cpu : ℕ) : Bytes.Memory := fun b =>
  (lastByte (ownStores s.uncommitted cpu) b).getD ((lastByte s.committed b).getD (m b))

/-- **Loads are right**: a load returns the bytes its CPU should see. -/
def LoadsRight (m : Bytes.Memory) (s : Tracked) : Prop :=
  ∀ cpu a size, Placed a size →
    ∃ v, s.tracker.load cpu a size = .ok (v, Bytes.read (s.seenByte m cpu) a size.toNat)

/-- The calls of the cores: the stores of a CPU are committed in their order. -/
def Ordered (s : Tracked) : Call → Prop
  | .commitStore st => (ownStores s.uncommitted st.cpu).head? = some st
  | e => s.Proper e

/-- **A commit brings nothing that is new** to another CPU with uncommitted stores to the
double-word: the CPU has an uncommitted store to the byte, or sees the same byte already. -/
def Merged (m : Bytes.Memory) (s : Tracked) : Call → Prop
  | .commitStore st => ∀ c ≠ st.cpu, (∃ u ∈ ownStores s.uncommitted c,
      dwAddr u.address = dwAddr st.address) → ∀ b, st.covers b = true →
      (∃ u ∈ ownStores s.uncommitted c, u.covers b = true) ∨ s.seenByte m c b = st.byteAt b
  | _ => True

theorem seenByte_eq (m : Bytes.Memory) (s : Tracked) (cpu : ℕ) :
    s.seenByte m cpu = overlaid (overlaid m s.committed) (ownStores s.uncommitted cpu) := by
  funext b
  rw [seenByte, overlaid_byte, overlaid_byte]

end Tracked

/-! ### The value of a CPU in the tracker -/

/-- The double-word the tracker would show to a CPU. -/
def ValueTracker.localValue (v : ValueTracker) (d cpu : ℕ) : BitVec 64 :=
  match v.theTracker d with
  | none => Bytes.read v.simics d 8
  | some t => ((t.find cpu).map LocalValue.theValue).getD t.theGloballyVisibleValue

/-- The same, of a track. -/
def ValueTrack.valueOf (t : ValueTrack) (cpu : ℕ) : BitVec 64 :=
  ((t.find cpu).map LocalValue.theValue).getD t.theGloballyVisibleValue

namespace ValueTracker

variable {v v' : ValueTracker} {d cpu c a : ℕ} {size : Size} {x g y : BitVec 64} {n : ℕ → ℕ}
  {t : ValueTrack} {r : ℤ}

theorem localValue_some (h : v.theTracker d = some t) : v.localValue d cpu = t.valueOf cpu := by
  rw [localValue, h]
  rfl

theorem localValue_setTrack : (v.setTrack d (some t)).localValue d cpu = t.valueOf cpu :=
  localValue_some theTracker_setTrack

theorem localValue_switch : (v.switch d t r x).localValue d cpu = t.valueOf cpu :=
  localValue_some (t := t.reflecting r) theTracker_setTrack

theorem localValue_onlyAt (h : OnlyAt d v v') {e : ℕ} (h8 : e % 8 = 0) (he : e ≠ d) :
    v'.localValue e cpu = v.localValue e cpu := by
  rw [localValue, localValue, h.tracks e he, h.simics e h8 he]

theorem valueOf_setLocal {f : LocalValue → LocalValue} (hf : ∀ l, (f l).cpu = l.cpu) {l : LocalValue}
    (hl : t.find cpu = some l) : (t.setLocal cpu f).valueOf c =
      if c = cpu then (f l).theValue else t.valueOf c := by
  rw [ValueTrack.valueOf, ValueTrack.find_setLocal hf]
  by_cases hc : c = cpu
  · rw [if_pos hc, if_pos hc, hc, hl]
    rfl
  · rw [if_neg hc, if_neg hc]
    rfl

/-- **An access** changes what no CPU sees. -/
theorem localValue_access
    (h : TrackOk (Bytes.read v.simics (dwAddr a) 8) g n (v.theTracker (dwAddr a)))
    (hv : v.access cpu a = .ok v') : v'.localValue (dwAddr a) c = v.localValue (dwAddr a) c := by
  rw [access] at hv
  obtain ⟨-, hv⟩ := of_ite_error_eq_ok hv
  cases ht : v.theTracker (dwAddr a) with
  | none =>
    simp only [ht] at hv
    cases hv
    rfl
  | some t =>
    rw [ht] at h
    have hok : t.Ok _ g n := h
    rw [localValue_some ht]
    simp only [ht, hok.refresh] at hv
    cases hl : t.find cpu with
    | some l =>
      simp only [hl] at hv
      split at hv
      · rename_i hr
        cases hv
        rw [localValue_setTrack, valueOf_setLocal (by intro _; rfl) hl]
        split
        · rename_i hc
          rw [hc, ValueTrack.valueOf, hl]
          exact hok.value_of_reflects hl hr
        · rfl
      · cases hv
        exact localValue_switch
    | none =>
      simp only [hl] at hv
      split at hv
      · cases hv
        exact localValue_setTrack
      · cases hv
        exact localValue_switch

/-- **A load** changes what no CPU sees either, and leaves in Simics what its CPU sees. -/
theorem localValue_load
    (h : TrackOk (Bytes.read v.simics (dwAddr a) 8) g n (v.theTracker (dwAddr a)))
    (hv : v.load cpu a size = .ok (v', x)) :
    v'.localValue (dwAddr a) c = v.localValue (dwAddr a) c ∧
      Bytes.read v'.simics (dwAddr a) 8 = v.localValue (dwAddr a) cpu := by
  rw [load] at hv
  obtain ⟨-, hv⟩ := of_ite_error_eq_ok hv
  obtain ⟨-, hv⟩ := of_ite_error_eq_ok hv
  cases ht : v.theTracker (dwAddr a) with
  | none =>
    simp only [ht] at hv
    cases hv
    rw [localValue, localValue, ht]
    exact ⟨rfl, rfl⟩
  | some t =>
    rw [ht] at h
    have hok : t.Ok _ g n := h
    rw [localValue_some ht, localValue_some ht, ValueTrack.valueOf.eq_def t cpu]
    simp only [ht, hok.refresh] at hv
    cases hl : t.find cpu with
    | none =>
      simp only [hl] at hv
      split at hv
      · cases hv
        exact ⟨localValue_switch, Bytes.read_write⟩
      · rename_i hr
        cases hv
        exact ⟨localValue_setTrack, (hok.shown_of_reflects (not_not.mp hr)).trans hok.shown.symm⟩
    | some l =>
      simp only [hl] at hv
      split at hv
      · cases hv
        exact ⟨localValue_switch, Bytes.read_write⟩
      · rename_i hr
        cases hv
        exact ⟨localValue_setTrack, hok.value_of_reflects hl (not_not.mp hr)⟩

/-- **A store** is pasted into what its CPU sees. -/
theorem localValue_store
    (h : TrackOk (Bytes.read v.simics (dwAddr a) 8) g n (v.theTracker (dwAddr a)))
    (hv : v.store cpu a size y = .ok v') : v'.localValue (dwAddr a) c =
      if c = cpu then overlay (v.localValue (dwAddr a) cpu) a size y
      else v.localValue (dwAddr a) c := by
  rw [store] at hv
  obtain ⟨-, hv⟩ := of_ite_error_eq_ok hv
  obtain ⟨-, hv⟩ := of_ite_error_eq_ok hv
  cases ht : v.theTracker (dwAddr a) with
  | none =>
    simp only [ht] at hv
    cases hv
    rw [show localValue (writeSimics (v.setTrack _ _) _ _) (dwAddr a) c = _ from
      localValue_some theTracker_setTrack, localValue, localValue, ht, ValueTrack.valueOf,
      ValueTrack.find, Keyed.lookup]
    by_cases hc : c = cpu
    · simp [hc]
    · have hne : (cpu == c) = false := by simpa using fun h : cpu = c => hc h.symm
      simp [hc, hne]
  | some t =>
    rw [ht] at h
    have hok : t.Ok _ g n := h
    rw [localValue_some ht, localValue_some ht]
    simp only [ht, hok.refresh] at hv
    cases hl : t.find cpu with
    | some l =>
      simp only [hl] at hv
      cases hv
      rw [localValue_switch, valueOf_setLocal (by intro _; rfl) hl, ValueTrack.valueOf.eq_def t cpu, hl]
      -- where Simics shows the value of the CPU, it is the one in the tracker
      have hcur : (if t.theSimicsReflectsCPU = cpu then Bytes.read v.simics (dwAddr a) 8
          else l.theValue) = l.theValue := by
        split
        · rename_i hr
          exact hok.value_of_reflects hl hr
        · rfl
      rw [hcur]
      rfl
    | none =>
      simp only [hl] at hv
      cases hv
      rw [localValue_switch, ValueTrack.valueOf, ValueTrack.find_addLocal hl,
        ValueTrack.valueOf.eq_def t cpu, hl]
      by_cases hc : c = cpu
      · rw [if_pos hc, if_pos hc]
        rfl
      · rw [if_neg hc, if_neg hc]
        rfl

theorem find_eq_none_iff (h : t.Ok x g n) : t.find c = none ↔ n c = 0 := by
  have hcount := h.count c
  cases hl : t.find c with
  | none =>
    rw [hl] at hcount
    exact ⟨fun _ => hcount.symm, fun _ => rfl⟩
  | some l =>
    refine ⟨nofun, fun h0 => absurd ?_ (h.positive c l hl)⟩
    exact (h.count_eq hl).trans h0

/-- **A commit** is seen by the CPUs that have no other store to the double-word; the others
keep their values. -/
theorem localValue_commitStore {n' : ℕ → ℕ}
    (h : TrackOk (Bytes.read v.simics (dwAddr a) 8) g n (v.theTracker (dwAddr a)))
    (hlt : n cpu < 2 ^ 32) (hn : ∀ c, n c = ValueTrack.oneMore n' cpu c)
    (hv : v.commitStore cpu a size y = .ok v') : v'.localValue (dwAddr a) c =
      if n' c = 0 then overlay g a size y else v.localValue (dwAddr a) c := by
  rw [commitStore] at hv
  obtain ⟨-, hv⟩ := of_ite_error_eq_ok hv
  obtain ⟨-, hv⟩ := of_ite_error_eq_ok hv
  have hk : n cpu = n' cpu + 1 := by rw [hn, ValueTrack.oneMore, if_pos rfl]
  cases ht : v.theTracker (dwAddr a) with
  | none =>
    simp only [ht] at hv
    cases hv
  | some t =>
    rw [ht] at h
    have hok : t.Ok _ g n := h
    rw [localValue_some ht]
    simp only [ht, hok.refresh, hok.shown] at hv
    cases hl : t.find cpu with
    | none =>
      simp only [hl] at hv
      cases hv
    | some l =>
      simp only [hl] at hv
      obtain ⟨hnone, -⟩ := hok.commit hl hlt hn (overlay g a size y)
      have hfind : (dropStore (t.published (overlay g a size y)) cpu l).find c = if c = cpu then
          (if n' cpu = 0 then none else some { l with theOutstandingStores := n' cpu })
          else t.find c :=
        ValueTrack.find_dropStore (t := t.published (overlay g a size y)) (k := n' cpu) hl
          ((hok.count_eq hl).trans hk) (by omega)
      have hshown := (ValueTrack.dropStore_frame (t.published (overlay g a size y)) cpu l).1
      split at hv
      · rename_i hnil
        cases hv
        rw [localValue, theTracker_setTrack, if_pos (hnone hnil c)]
        exact Bytes.read_write
      · cases hv
        rw [localValue_setTrack, ValueTrack.valueOf, hfind, hshown, ValueTrack.valueOf]
        by_cases hc : c = cpu
        · rw [if_pos hc, hc, hl]
          split
          · rfl
          · rfl
        · -- the others have as many stores as before
          have hsame : n c = n' c := by rw [hn, ValueTrack.oneMore, if_neg hc, Nat.add_zero]
          rw [if_neg hc, ← hsame]
          by_cases h0 : n c = 0
          · rw [if_pos h0, (find_eq_none_iff hok).mpr h0]
            rfl
          · rw [if_neg h0]
            obtain ⟨l', hl'⟩ := Option.ne_none_iff_exists'.mp
              (mt (find_eq_none_iff hok).mp h0)
            rw [hl']
            rfl

end ValueTracker

/-! ### Whole runs -/

namespace Tracked

variable {m : Bytes.Memory} {s s' : Tracked} {st : Store} {d cpu c : ℕ}

/-- **The invariant**: beside what everybody sees, the value of every CPU is right. -/
structure LocalInv (m : Bytes.Memory) (s : Tracked) : Prop where
  inv : Inv m s
  seen : ∀ c d, d % 8 = 0 → s.tracker.localValue d c = Bytes.read (s.seenByte m c) d 8

theorem localInv_init : LocalInv m (machine m).init := by
  refine ⟨inv_init, fun c d _ => ?_⟩
  rw [seenByte_eq]
  rfl

theorem ownStores_append {l : List Store} : ownStores (l ++ [st]) c =
    ownStores l c ++ if c = st.cpu then [st] else [] := by
  rw [ownStores, List.filter_append, ownStores]
  by_cases h : c = st.cpu
  · simp [h]
  · have hne : (st.cpu == c) = false := by simpa using fun h' : st.cpu = c => h h'.symm
    simp [h, hne]

/-- A store that has been committed in order was the first of its CPU. -/
theorem ownStores_erase {l : List Store} (h : (ownStores l st.cpu).head? = some st) :
    ownStores l st.cpu = st :: ownStores (l.erase st) st.cpu ∧
      ∀ c, c ≠ st.cpu → ownStores (l.erase st) c = ownStores l c := by
  constructor
  · rw [ownStores, ownStores, ← List.erase_filter]
    rw [ownStores] at h
    obtain ⟨rest, hrest⟩ : ∃ rest, l.filter (fun u => u.cpu == st.cpu) = st :: rest := by
      cases hl : l.filter (fun u => u.cpu == st.cpu) with
      | nil =>
        rw [hl] at h
        cases h
      | cons u rest =>
        rw [hl] at h
        cases h
        exact ⟨rest, rfl⟩
    rw [hrest, List.erase_cons_head]
  · intro c hc
    rw [ownStores, ownStores, ← List.erase_filter, List.erase_of_not_mem]
    intro hin
    have hcpu : st.cpu = c := by simpa using (List.mem_filter.mp hin).2
    exact hc hcpu.symm

theorem mem_of_head_ownStores {l : List Store} (h : (ownStores l st.cpu).head? = some st) :
    st ∈ l :=
  List.mem_of_mem_filter (List.mem_of_mem_head? h)

theorem mem_ownStores {l : List Store} {u : Store} : u ∈ ownStores l c ↔ u ∈ l ∧ u.cpu = c := by
  rw [ownStores, List.mem_filter]
  simp

theorem storesTo_pos {l : List Store} : storesTo l c d ≠ 0 ↔
    ∃ u ∈ ownStores l c, dwAddr u.address = d := by
  rw [← Nat.pos_iff_ne_zero, storesTo, List.countP_pos_iff]
  constructor
  · rintro ⟨u, hu, hp⟩
    rw [Bool.and_eq_true_iff, beq_iff_eq, beq_iff_eq] at hp
    exact ⟨u, mem_ownStores.mpr ⟨hu, hp.1⟩, hp.2⟩
  · rintro ⟨u, hu, hd⟩
    obtain ⟨hmem, hc⟩ := mem_ownStores.mp hu
    exact ⟨u, hmem, by simp [hc, hd]⟩

theorem dwAddr_of_covers {b : ℕ} (hp : Placed st.address st.size) (hb : st.covers b = true) :
    dwAddr b = dwAddr st.address := by
  have hbounds := dwAddr_bounds hp.2.2
  have hcov : st.address ≤ b ∧ b < st.address + st.size.toNat := of_decide_eq_true hb
  rw [dwAddr] at hbounds ⊢
  rw [dwAddr]
  omega

theorem read_overlaid_apart {x : Bytes.Memory} {l : List Store} (hd : d % 8 = 0)
    (hp : ∀ u ∈ l, Placed u.address u.size) (h : ∀ u ∈ l, dwAddr u.address ≠ d) :
    Bytes.read (overlaid x l) d 8 = Bytes.read x d 8 := by
  refine Bytes.read_congr fun k hk => ?_
  rw [overlaid_byte]
  have hnone : lastByte l (d + k) = none := by
    rw [← Option.not_isSome_iff_eq_none, lastByte_isSome]
    rintro ⟨u, hu, hcov⟩
    refine h u hu ?_
    rw [← dwAddr_of_covers (hp u hu) hcov, dwAddr]
    omega
  rw [hnone]
  rfl

theorem seenByte_store {v : ValueTracker} :
    seenByte m ⟨v, s.committed, s.uncommitted ++ [st]⟩ c =
      if c = st.cpu then st.apply (s.seenByte m c) else s.seenByte m c := by
  rw [seenByte_eq, seenByte_eq]
  simp only
  rw [ownStores_append]
  split
  · rw [overlaid_append]
  · rw [List.append_nil]

/-- **A store keeps the invariant.** -/
theorem LocalInv.store (h : LocalInv m s) (hp : Placed st.address st.size)
    (hn : storesTo s.uncommitted st.cpu (dwAddr st.address) + 1 < 2 ^ 32)
    (hs : s.step (.store st) = .ok s') : LocalInv m s' := by
  obtain ⟨u, hu, hinv⟩ := h.inv.store hp hn
  rw [hu] at hs
  cases hs
  have hok := h.inv.ok _ (dwAddr_mod st.address)
  obtain ⟨v, hv, hat, -⟩ := ValueTracker.store_spec (y := st.value) hok hp.1 hp.2.1 hn
  rw [Tracked.step, hv] at hu
  cases hu
  refine ⟨hinv, fun c d hd => ?_⟩
  rw [seenByte_store]
  by_cases hda : d = dwAddr st.address
  · rw [hda, ValueTracker.localValue_store hok hv]
    by_cases hc : c = st.cpu
    · rw [if_pos hc, if_pos hc, hc, h.seen _ _ (dwAddr_mod st.address)]
      exact overlay_read hp.2.2
    · rw [if_neg hc, if_neg hc]
      exact h.seen _ _ (dwAddr_mod st.address)
  · rw [ValueTracker.localValue_onlyAt hat hd hda, h.seen c d hd]
    split
    · refine (Bytes.read_write_of_disjoint ?_).symm
      have hb := dwAddr_bounds hp.2.2
      have := dw_disjoint (dwAddr_mod st.address) hd hda
      omega
    · rfl

/-- What the CPU that commits should see is what it has seen before. -/
theorem seenByte_commit_self {v : ValueTracker}
    (h : (ownStores s.uncommitted st.cpu).head? = some st) :
    seenByte m ⟨v, s.committed ++ [st], s.uncommitted.erase st⟩ st.cpu = s.seenByte m st.cpu := by
  rw [seenByte_eq, seenByte_eq, (ownStores_erase h).1, overlaid_cons]
  simp only
  rw [overlaid_append]

/-- What another CPU should see is new only where it has no store of its own. -/
theorem seenByte_commit_other {v : ValueTracker} {b : ℕ} (hc : c ≠ st.cpu)
    (h : (ownStores s.uncommitted st.cpu).head? = some st)
    (hb : st.covers b = true → (∃ u ∈ ownStores s.uncommitted c, u.covers b = true) ∨
      s.seenByte m c b = st.byteAt b) :
    seenByte m ⟨v, s.committed ++ [st], s.uncommitted.erase st⟩ c b = s.seenByte m c b := by
  rw [seenByte]
  simp only
  rw [(ownStores_erase h).2 c hc, lastByte_append]
  by_cases hcov : st.covers b = true
  · rw [if_pos hcov]
    rcases hb hcov with hown | hsame
    · obtain ⟨x, hx⟩ := Option.isSome_iff_exists.mp (lastByte_isSome.mpr hown)
      rw [seenByte, hx]
      rfl
    · cases hown : lastByte (ownStores s.uncommitted c) b with
      | some x =>
        rw [seenByte, hown]
        rfl
      | none => exact hsame.symm
  · rw [if_neg hcov]
    rfl

/-- **A commit keeps the invariant** if it brings nothing that is new. -/
theorem LocalInv.commitStore (h : LocalInv m s)
    (hst : (ownStores s.uncommitted st.cpu).head? = some st) (hm : s.Merged m (.commitStore st))
    (hs : s.step (.commitStore st) = .ok s') : LocalInv m s' := by
  have hmem := mem_of_head_ownStores hst
  have hp := h.inv.placed st hmem
  have hok := h.inv.ok _ (dwAddr_mod st.address)
  have herase : ∀ c, storesTo s.uncommitted c (dwAddr st.address) = ValueTrack.oneMore
      (fun c => storesTo (s.uncommitted.erase st) c (dwAddr st.address)) st.cpu c := by
    intro c
    rw [storesTo_erase hmem, ValueTrack.oneMore]
    simp
  obtain ⟨u, hu, hinv, -⟩ := h.inv.commitStore hmem
  rw [hu] at hs
  cases hs
  obtain ⟨v, hv, hat, -⟩ := ValueTracker.commitStore_spec st.size st.value hok hp.1 hp.2.1
    (h.inv.bounded st.cpu _) herase
  rw [Tracked.step, hv] at hu
  cases hu
  refine ⟨hinv, fun c d hd => ?_⟩
  by_cases hda : d = dwAddr st.address
  · rw [hda, ValueTracker.localValue_commitStore hok (h.inv.bounded st.cpu _) herase hv]
    by_cases h0 : storesTo (s.uncommitted.erase st) c (dwAddr st.address) = 0
    · -- the CPU has no store left, and sees what everybody sees
      have hapart : Bytes.read (overlaid (overlaid m (s.committed ++ [st]))
          (ownStores (s.uncommitted.erase st) c)) (dwAddr st.address) 8 =
          Bytes.read (overlaid m (s.committed ++ [st])) (dwAddr st.address) 8 :=
        read_overlaid_apart (dwAddr_mod st.address)
          (fun u hu => hinv.placed u (mem_ownStores.mp hu).1)
          fun u hu hdu => storesTo_pos.mpr ⟨u, hu, hdu⟩ h0
      rw [if_pos h0, seenByte_eq]
      refine Eq.trans ?_ hapart.symm
      rw [overlaid_append]
      exact overlay_read hp.2.2
    · rw [if_neg h0, h.seen c _ (dwAddr_mod st.address)]
      by_cases hc : c = st.cpu
      · rw [hc, seenByte_commit_self hst]
      · refine Bytes.read_congr fun k _ => ?_
        obtain ⟨u, hu, hdu⟩ := storesTo_pos.mp h0
        rw [(ownStores_erase hst).2 c hc] at hu
        exact (seenByte_commit_other hc hst fun hcov => hm c hc ⟨u, hu, hdu⟩ _ hcov).symm
  · rw [ValueTracker.localValue_onlyAt hat hd hda, h.seen c d hd]
    by_cases hc : c = st.cpu
    · rw [hc, seenByte_commit_self hst]
    · refine Bytes.read_congr fun k hk => ?_
      refine (seenByte_commit_other hc hst fun hcov => absurd ?_ hda).symm
      rw [← dwAddr_of_covers hp hcov, dwAddr]
      omega

theorem LocalInv.look {v : ValueTracker} {a : ℕ} (h : LocalInv m s)
    (hinv : Inv m { s with tracker := v }) (hat : OnlyAt (dwAddr a) s.tracker v)
    (hv : ∀ c, v.localValue (dwAddr a) c = s.tracker.localValue (dwAddr a) c) :
    LocalInv m { s with tracker := v } := by
  refine ⟨hinv, fun c d hd => ?_⟩
  have hseen : seenByte m { s with tracker := v } c = s.seenByte m c := rfl
  rw [hseen, ← h.seen c d hd]
  by_cases hda : d = dwAddr a
  · rw [hda]
    exact hv c
  · exact ValueTracker.localValue_onlyAt hat hd hda

/-- **The step lemma.** -/
theorem LocalInv.step (h : LocalInv m s) {e : Call} (ho : s.Ordered e) (hc : s.Counted e)
    (hm : s.Merged m e) (hs : s.step e = .ok s') : LocalInv m s' := by
  cases e with
  | store st => exact h.store ho hc hs
  | commitStore st => exact h.commitStore ho hm hs
  | load cpu a size =>
    have hok := h.inv.ok _ (dwAddr_mod a)
    obtain ⟨v, hv, hat, hok'⟩ := ValueTracker.load_spec cpu size ho.1 ho.2.1 hok
    rw [Tracked.step, hv] at hs
    cases hs
    exact h.look (h.inv.look hat hok') hat fun c => (ValueTracker.localValue_load hok hv).1
  | access cpu a =>
    have hok := h.inv.ok _ (dwAddr_mod a)
    obtain ⟨v, hv, hat, hok'⟩ := ValueTracker.access_spec cpu ho.2 hok
    rw [Tracked.step, hv] at hs
    cases hs
    exact h.look (h.inv.look hat hok') hat fun c => ValueTracker.localValue_access hok hv

theorem LocalInv.loadsRight (h : LocalInv m s) : LoadsRight m s := by
  intro cpu a size hp
  have hok := h.inv.ok _ (dwAddr_mod a)
  obtain ⟨v, hv, -⟩ := ValueTracker.load_spec cpu size hp.1 hp.2.1 hok
  refine ⟨v, hv.trans ?_⟩
  rw [read_of_dw hp.2.2 ((ValueTracker.localValue_load (c := cpu) hok hv).2.trans
    (h.seen cpu _ (dwAddr_mod a)))]

/-- **A load returns what its CPU should see**, in every run in which a commit brings nothing
new to the other CPUs with stores to its double-word. -/
theorem loads_right_of_merged (m : Bytes.Memory) (s : Tracked)
    (h : (machine m).ReachableWhen
      (fun s e => s.Ordered e ∧ s.Counted e ∧ s.Merged m e) s) : LoadsRight m s := by
  refine LocalInv.loadsRight ?_
  refine h.invariant (I := LocalInv m) localInv_init fun s e t hs hg ht => ?_
  exact hs.step hg.1 hg.2.1 hg.2.2 ht

/-! ### Two CPUs that store to one double-word -/

/-- A byte that CPU 0 stores. -/
def byteStore : Store := ⟨0, 8, .byte, 0x11#64⟩

/-- The byte next to it, which CPU 1 stores. -/
def nextStore : Store := ⟨1, 9, .byte, 0x22#64⟩

/-- A store of CPU 0 over that byte. -/
def overStore : Store := ⟨0, 9, .byte, 0x33#64⟩

theorem few_counted {s : Tracked} {st : Store} (h : s.uncommitted.length ≤ 2) :
    s.Counted (.store st) := by
  have hcount : storesTo s.uncommitted st.cpu (dwAddr st.address) ≤ s.uncommitted.length :=
    List.countP_le_length
  rw [Counted]
  omega

/-- CPU 1 commits its byte, over which CPU 0 has stored: CPU 0 still sees its own bytes. -/
theorem loads_right_after_commit : ∃ s, (machine fun _ => 0#8).run
      [.store byteStore, .store nextStore, .store overStore, .commitStore nextStore] = .ok s ∧
    ∃ v, s.tracker.load 0 8 .halfWord = .ok (v, 0x1133#64) := by
  have hrun : (machine fun _ => 0#8).ReachableWhen
      (fun s e => s.Ordered e ∧ s.Counted e ∧ s.Merged (fun _ => 0#8) e) _ := .init
  have hrun := hrun.step (e := Call.store byteStore)
    ⟨⟨by decide, by decide, by decide⟩, few_counted (by decide), trivial⟩ rfl
  have hrun := hrun.step (e := Call.store nextStore)
    ⟨⟨by decide, by decide, by decide⟩, few_counted (by decide), trivial⟩ rfl
  have hrun := hrun.step (e := Call.store overStore)
    ⟨⟨by decide, by decide, by decide⟩, few_counted (by decide), trivial⟩ rfl
  have hrun := hrun.step (e := Call.commitStore nextStore) ⟨rfl, trivial, by
    rintro c hc ⟨u, hu, -⟩ b hb
    have hown : u ∈ ownStores [byteStore, nextStore, overStore] c := hu
    obtain ⟨hmem, hcpu⟩ := List.mem_filter.mp hown
    obtain rfl : u.cpu = c := beq_iff_eq.mp hcpu
    refine .inl ⟨overStore, ?_, hb⟩
    rcases List.mem_cons.mp hmem with rfl | hmem
    · decide
    · rcases List.mem_cons.mp hmem with rfl | hmem
      · exact absurd rfl hc
      · obtain rfl := List.mem_singleton.mp hmem
        decide⟩ rfl
  refine ⟨_, rfl, ?_⟩
  exact loads_right_of_merged _ _ hrun 0 8 .halfWord ⟨by decide, by decide, by decide⟩

/-- **A commit that is not merged**: when CPU 1 has committed its byte, CPU 0 still loads the
byte of the memory. -/
theorem commit_not_merged : ¬ ∀ (m : Bytes.Memory) (s : Tracked),
    (machine m).ReachableWhen (fun s e => s.Ordered e ∧ s.Counted e) s → LoadsRight m s := by
  intro h
  have hrun : (machine fun _ => 0#8).ReachableWhen (fun s e => s.Ordered e ∧ s.Counted e) _ := .init
  have hrun := hrun.step (e := Call.store byteStore)
    ⟨⟨by decide, by decide, by decide⟩, few_counted (by decide)⟩ rfl
  have hrun := hrun.step (e := Call.store nextStore)
    ⟨⟨by decide, by decide, by decide⟩, few_counted (by decide)⟩ rfl
  have hrun := hrun.step (e := Call.commitStore nextStore) ⟨rfl, trivial⟩ rfl
  obtain ⟨v, hv⟩ := h _ _ hrun 0 9 .byte ⟨by decide, by decide, by decide⟩
  have hx : (0#64 : BitVec 64) = 0x22#64 := congrArg Prod.snd (Except.ok.inj hv)
  exact absurd hx (by decide)

end Tracked

end UArch

end Flexus
