import Flexus.CMPCache.Passage
import Flexus.CMPCache.TameDirectory

/-!
# The blocks that leave a directory

A block that has lost its way in the directory waits in the evict buffer of the directory
(`DirEvictBuffer`, `components/CMPCache/EvictBuffer.hpp`) for the invalidations of its sharers. The
buffer counts its entries, and those with invalidates outstanding. An entry without has yet to send
its invalidates; for as soon as all of them are answered the block is gone.

The invariant (`Flexus.CMPCache.DirEvictBuffer.Sound`) speaks of the answers that are still to come.
It says that the counters are right, that the entries with invalidates outstanding come first, and
that the others have sharers.
-/

namespace Flexus

open Lib List

namespace CMPCache

/-! ### The buffer -/

/-- The entry has invalidates outstanding. -/
def DirEBEntry.pending (e : DirEBEntry) : Bool := decide (e.theInvalidatesSent ≠ 0)

theorem DirEBEntry.pending_eq_false {e : DirEBEntry} :
    e.pending = false ↔ e.theInvalidatesSent = 0 := by
  rw [pending, decide_eq_false_iff_not, not_not]

namespace DirEvictBuffer

/-- **A buffer in order**, when the given numbers of answers are still to come. -/
structure Sound (b : DirEvictBuffer) (awaited : ℕ → ℕ) : Prop where
  theCurSize : b.theCurSize = b.entries.length
  thePendingInvalidates : b.thePendingInvalidates = b.entries.countP DirEBEntry.pending
  order : b.entries.Pairwise fun x y => y.pending = true → x.pending = true
  sharers : ∀ e ∈ b.entries, e.pending = false → e.state.theSharers ≠ ∅
  fits : ∀ e ∈ b.entries, e.state.Fits
  awaited : ∀ a, (b.sent a).getD 0 = awaited a

variable {b b' : DirEvictBuffer} {w w' : ℕ → ℕ} {a n : ℕ} {e : DirEBEntry}
  {f : DirEBEntry → DirEBEntry} {d : SimpleDirectoryState}

theorem sound_init : init.Sound fun _ => 0 where
  theCurSize := rfl
  thePendingInvalidates := rfl
  order := List.Pairwise.nil
  sharers _ h := absurd h not_mem_nil
  fits _ h := absurd h not_mem_nil
  awaited _ := rfl

theorem Sound.congr (h : b.Sound w) (he : b'.entries = b.entries)
    (hsize : b'.theCurSize = b.theCurSize)
    (hpending : b'.thePendingInvalidates = b.thePendingInvalidates) : b'.Sound w where
  theCurSize := by rw [hsize, he, h.theCurSize]
  thePendingInvalidates := by rw [hpending, he, h.thePendingInvalidates]
  order := he ▸ h.order
  sharers := he ▸ h.sharers
  fits := he ▸ h.fits
  awaited a := by
    rw [sent, find, he]
    exact h.awaited a

/-- **A change of an entry.** It may get invalidates outstanding only if all entries before it have
some. -/
theorem Sound.change (h : b.Sound w) {l₁ l₂ : List DirEBEntry} (hl : b.entries = l₁ ++ e :: l₂)
    (hf : ∀ x, (f x).address = x.address)
    (hentries : b'.entries = Keyed.update DirEBEntry.address b.entries e.address f)
    (hsize : b'.theCurSize = b.theCurSize)
    (hcount : b'.thePendingInvalidates =
      b.thePendingInvalidates + (if (f e).pending then 1 else 0) - if e.pending then 1 else 0)
    (hpending : (f e).pending = e.pending ∨
      (f e).pending = true ∧ ∀ x ∈ l₁, x.pending = true)
    (hsharers : (f e).pending = false → (f e).state.theSharers ≠ ∅) (hfits : (f e).state.Fits)
    (hw : (f e).theInvalidatesSent = w' e.address) (hother : ∀ c, c ≠ e.address → w' c = w c) :
    b'.Sound w' := by
  have hnew : b'.entries = l₁ ++ f e :: l₂ := by
    rw [hentries, hl, Keyed.update_append_cons (hl ▸ b.unique)]
  have hmem : ∀ x ∈ l₁ ++ f e :: l₂, x ∈ b.entries ∨ x = f e := by
    intro x hx
    rw [hl]
    rcases mem_append.mp hx with hx | hx
    · exact .inl (mem_append_left _ hx)
    · rcases mem_cons.mp hx with rfl | hx
      · exact .inr rfl
      · exact .inl (mem_append_right _ (mem_cons_of_mem _ hx))
  refine ⟨?_, ?_, ?_, fun x hx hp => ?_, fun x hx => ?_, fun c => ?_⟩
  · rw [hsize, h.theCurSize, hnew, hl, length_append, length_append, length_cons, length_cons]
  · rw [hcount, h.thePendingInvalidates, hnew, hl, countP_append, countP_append,
      countP_cons, countP_cons]
    push_cast
    omega
  · have horder := h.order
    rw [hl, pairwise_append, pairwise_cons] at horder
    rw [hnew, pairwise_append, pairwise_cons]
    obtain ⟨h₁, ⟨he₂, h₂⟩, h₁₂⟩ := horder
    refine ⟨h₁, ⟨fun y hy hp => ?_, h₂⟩, fun x hx y hy hp => ?_⟩
    · rcases hpending with heq | ⟨hsome, -⟩
      · exact heq.trans (he₂ y hy hp)
      · exact hsome
    · rcases mem_cons.mp hy with rfl | hy
      · rcases hpending with heq | ⟨-, hall⟩
        · exact h₁₂ x hx e mem_cons_self (heq.symm.trans hp)
        · exact hall x hx
      · exact h₁₂ x hx y (mem_cons_of_mem _ hy) hp
  · rw [hnew] at hx
    rcases hmem x hx with hx | rfl
    · exact h.sharers x hx hp
    · exact hsharers hp
  · rw [hnew] at hx
    rcases hmem x hx with hx | rfl
    · exact h.fits x hx
    · exact hfits
  · rw [sent, find, hentries, Keyed.lookup_update hf]
    by_cases hc : c = e.address
    · subst hc
      have he : Keyed.lookup DirEBEntry.address b.entries e.address = some e :=
        Keyed.lookup_of_mem b.unique (hl ▸ mem_append_right _ mem_cons_self)
      rw [if_pos rfl, he, ← hw]
      rfl
    · rw [if_neg hc, hother c hc]
      exact h.awaited c

/-- **An entry is gone.** -/
theorem Sound.drop (h : b.Sound w) (he : b.find a = some e)
    (hentries : b'.entries = Keyed.erase DirEBEntry.address b.entries a)
    (hsize : b'.theCurSize = b.theCurSize - 1)
    (hcount : b'.thePendingInvalidates = b.thePendingInvalidates - if e.pending then 1 else 0)
    (hw : w' a = 0) (hother : ∀ c, c ≠ a → w' c = w c) : b'.Sound w' := by
  have hlen := (Keyed.perm_erase b.unique he).length_eq
  have hpending := Keyed.countP_erase b.unique he DirEBEntry.pending
  rw [length_cons] at hlen
  have hsub : b'.entries.Sublist b.entries := by
    rw [hentries]
    exact filter_sublist
  refine ⟨?_, ?_, h.order.sublist hsub, fun x hx => h.sharers x (hsub.subset hx),
    fun x hx => h.fits x (hsub.subset hx), fun c => ?_⟩
  · rw [hsize, h.theCurSize, hentries, hlen]
    push_cast
    omega
  · rw [hcount, h.thePendingInvalidates, hentries, hpending]
    push_cast
    omega
  · rw [sent, find, hentries, Keyed.lookup_erase]
    by_cases hc : c = a
    · rw [if_pos hc, hc, hw]
      rfl
    · rw [if_neg hc, hother c hc]
      exact h.awaited c

/-- **A block comes in**, with sharers. -/
theorem Sound.insert (h : b.Sound w) (hnone : b.find a = none) (hd : d.theSharers ≠ ∅)
    (hfits : d.Fits) : (b.insert a d).Sound w := by
  have hentries : (b.insert a d).entries = b.entries ++ [⟨a, d, 0, 0⟩] := by
    have hnone' : Keyed.lookup DirEBEntry.address b.entries a = none := hnone
    rw [DirEvictBuffer.insert]
    simp only [Keyed.pushBack, hnone', Option.isSome_none, Bool.false_eq_true, if_false]
  refine ⟨?_, ?_, ?_, fun x hx hp => ?_, fun x hx => ?_, fun c => ?_⟩
  · rw [hentries, length_append, length_singleton]
    have hsize : (b.insert a d).theCurSize = b.theCurSize + 1 := rfl
    rw [hsize, h.theCurSize]
    rfl
  · rw [hentries, countP_append, countP_singleton]
    exact h.thePendingInvalidates
  · rw [hentries, pairwise_append]
    refine ⟨h.order, pairwise_singleton _ _, fun x _ y hy hp => ?_⟩
    rw [mem_singleton.mp hy, DirEBEntry.pending_eq_false.mpr rfl] at hp
    cases hp
  · rw [hentries] at hx
    rcases mem_append.mp hx with hx | hx
    · exact h.sharers x hx hp
    · rw [mem_singleton.mp hx]
      exact hd
  · rw [hentries] at hx
    rcases mem_append.mp hx with hx | hx
    · exact h.fits x hx
    · rw [mem_singleton.mp hx]
      exact hfits
  · rw [← h.awaited c, sent, sent, find_insert]
    by_cases hc : c = a ∧ b.find c = none
    · rw [if_pos hc, hc.2]
      rfl
    · rw [if_neg hc]

/-- The entries before the oldest one that requires invalidates have some outstanding. -/
theorem oldest_spec (he : b.oldestRequiringInvalidates = some e) : e.pending = false ∧
    ∃ l₁ l₂, b.entries = l₁ ++ e :: l₂ ∧ ∀ x ∈ l₁, x.pending = true := by
  obtain ⟨he0, l₁, l₂, hl, hold⟩ := find?_eq_some_iff_append.mp he
  refine ⟨DirEBEntry.pending_eq_false.mpr (of_decide_eq_true he0), l₁, l₂, hl, fun x hx => ?_⟩
  have hx0 := hold x hx
  rw [Bool.not_eq_true', decide_eq_false_iff_not] at hx0
  exact decide_eq_true hx0

/-- An entry without invalidates outstanding has no answers to come. -/
theorem Sound.awaited_of_idle (h : b.Sound w) (he : e ∈ b.entries) (hidle : e.pending = false) :
    w e.address = 0 := by
  have hawaited := h.awaited e.address
  have hfind : b.find e.address = some e := Keyed.lookup_of_mem b.unique he
  rw [sent, hfind, Option.map_some, DirEBEntry.pending_eq_false.mp hidle] at hawaited
  exact Int.natCast_eq_zero.mp hawaited.symm

/-- **The invalidates of the oldest entry that requires some are sent.** -/
theorem Sound.send (h : b.Sound w) (he : b.oldestRequiringInvalidates = some e)
    (hf : ∀ x, (f x).address = x.address)
    (hentries : b'.entries = Keyed.update DirEBEntry.address b.entries e.address f)
    (hsize : b'.theCurSize = b.theCurSize)
    (hcount : b'.thePendingInvalidates = b.thePendingInvalidates + 1)
    (hstate : (f e).state = e.state) (hsent : (f e).theInvalidatesSent = e.state.countSharers)
    (hw : w' e.address = e.state.countSharers) (hother : ∀ c, c ≠ e.address → w' c = w c) :
    b'.Sound w' := by
  obtain ⟨hidle, l₁, l₂, hl, hall⟩ := oldest_spec he
  have hmem : e ∈ b.entries := mem_of_find?_eq_some he
  have hpending : (f e).pending = true := by
    rw [DirEBEntry.pending, hsent, decide_eq_true_iff, SimpleDirectoryState.countSharers, Ne,
      Int.natCast_eq_zero, Finset.card_eq_zero]
    exact h.sharers e hmem hidle
  refine h.change hl hf hentries hsize ?_ (.inr ⟨hpending, hall⟩) (fun hp => ?_)
    (hstate ▸ h.fits e hmem) (by rw [hsent, hw]) hother
  · rw [hcount, hpending, hidle, if_pos rfl, if_neg Bool.false_ne_true, Int.sub_zero]
  · rw [hpending] at hp
    cases hp

/-- **Idle work is ready** if and only if there is an entry that requires invalidates. -/
theorem Sound.idleWorkReady_iff (h : b.Sound w) :
    b.idleWorkReady = true ↔ b.oldestRequiringInvalidates ≠ none := by
  rw [oldestRequiringInvalidates, Ne, find?_eq_none, not_forall, idleWorkReady]
  cases hlast : b.entries.getLast? with
  | none =>
    rw [getLast?_eq_none_iff] at hlast
    rw [hlast]
    simp
  | some e =>
    obtain ⟨l, hl⟩ := getLast?_eq_some_iff.mp hlast
    have horder := h.order
    rw [hl, pairwise_append] at horder
    constructor
    · intro he
      refine ⟨e, fun hc => hc ?_ he⟩
      rw [hl]
      exact mem_append_right _ (mem_singleton_self e)
    · rintro ⟨x, hx⟩
      rw [Classical.not_imp, not_not, decide_eq_true_iff] at hx
      obtain ⟨hmem, hx0⟩ := hx
      rw [hl] at hmem
      rcases mem_append.mp hmem with hmem | hmem
      · -- an entry with invalidates outstanding does not come last
        rw [decide_eq_true_iff]
        by_contra he
        have hp := horder.2.2 x hmem e (mem_singleton_self e) (decide_eq_true he)
        exact of_decide_eq_true hp hx0
      · rw [mem_singleton.mp hmem] at hx0
        exact decide_eq_true hx0

/-! ### Removal -/

theorem remove_entries (h : b.remove a = .ok b') : ∃ e, b.find a = some e ∧
    b'.entries = Keyed.erase DirEBEntry.address b.entries a ∧
      b'.theCurSize = b.theCurSize - 1 ∧
      b'.thePendingInvalidates = b.thePendingInvalidates - if e.pending then 1 else 0 := by
  rw [remove] at h
  split at h
  · cases h
  · rename_i e he
    cases h
    refine ⟨e, he, rfl, rfl, ?_⟩
    by_cases h0 : e.theInvalidatesSent = 0
    · have hidle := DirEBEntry.pending_eq_false.mpr h0
      rw [hidle, if_neg Bool.false_ne_true, Int.sub_zero]
      exact if_neg (not_not_intro h0)
    · have hpending : e.pending = true := decide_eq_true h0
      rw [hpending, if_pos rfl]
      exact if_pos h0

/-- **A block without invalidates outstanding leaves the buffer**, whatever has been done to its
sharers before. -/
theorem Sound.remove_update (h : b.Sound w) (he : b.find a = some e) (hidle : e.pending = false)
    (hf : ∀ x, (f x).address = x.address)
    (hsent : ∀ x, (f x).theInvalidatesSent = x.theInvalidatesSent)
    (hremove : (b.update a f hf).remove a = .ok b') : b'.Sound w := by
  obtain ⟨e', he', hentries, hsize, hcount⟩ := remove_entries hremove
  rw [find_update, if_pos rfl, he] at he'
  obtain rfl : f e = e' := Option.some.inj he'
  have hidle' : (f e).pending = false := by
    rw [DirEBEntry.pending, hsent]
    exact hidle
  rw [hidle', ← hidle] at hcount
  have hw : w a = 0 := by
    obtain rfl := Keyed.key_of_lookup he
    exact h.awaited_of_idle (Keyed.mem_of_lookup he) hidle
  exact h.drop he (hentries.trans (Keyed.erase_update hf)) hsize hcount hw fun _ _ => rfl

theorem Sound.remove (h : b.Sound w) (he : b.find a = some e) (hidle : e.pending = false)
    (hremove : b.remove a = .ok b') : b'.Sound w := by
  obtain ⟨e', he', hentries, hsize, hcount⟩ := remove_entries hremove
  obtain rfl : e = e' := Option.some.inj (he.symm.trans he')
  have hw : w a = 0 := by
    obtain rfl := Keyed.key_of_lookup he
    exact h.awaited_of_idle (Keyed.mem_of_lookup he) hidle
  exact h.drop he hentries hsize hcount hw fun _ _ => rfl

/-! ### Answers -/

/-- **What an answer leaves of its entry**: one invalidate less is outstanding. -/
structure Answered (b : DirEvictBuffer) (a : ℕ) (e : DirEBEntry) (d : SimpleDirectoryState)
    (b' : DirEvictBuffer) : Prop where
  entries : ∃ f : DirEBEntry → DirEBEntry, (∀ x, (f x).address = x.address) ∧
    b'.entries = Keyed.update DirEBEntry.address b.entries a f ∧ (f e).state = d ∧
    (f e).theInvalidatesSent = e.theInvalidatesSent - 1
  theCurSize : b'.theCurSize = b.theCurSize
  thePendingInvalidates : b'.thePendingInvalidates =
    if e.theInvalidatesSent - 1 = 0 then b.thePendingInvalidates - 1 else b.thePendingInvalidates

theorem answered_completeInvalidate (he : b.find a = some e) :
    b.Answered a e d ((b.update a fun e => { e with state := d }).completeInvalidate a) := by
  have hfind : (b.update a fun e => { e with state := d }).find a = some { e with state := d } := by
    rw [find_update, if_pos rfl, he]
    rfl
  have heq : (b.update a fun e => { e with state := d }).completeInvalidate a =
      { (b.update a fun e => { e with state := d }).update a fun e =>
          { e with theInvalidatesSent := e.theInvalidatesSent - 1 } with
        thePendingInvalidates := if e.theInvalidatesSent - 1 = 0
          then b.thePendingInvalidates - 1 else b.thePendingInvalidates } := by
    rw [completeInvalidate]
    split
    · rename_i hnone
      rw [hfind] at hnone
      cases hnone
    · rename_i e' he'
      rw [hfind] at he'
      cases he'
      rfl
  rw [heq]
  exact ⟨⟨fun e => { e with state := d, theInvalidatesSent := e.theInvalidatesSent - 1 },
    fun _ => rfl, Keyed.update_update fun _ => rfl, rfl, rfl⟩, rfl, rfl⟩

theorem Answered.update (h : b.Answered a e d b') {g : DirEBEntry → DirEBEntry}
    (hg : ∀ x, (g x).address = x.address) (hstate : ∀ x, (g x).state = x.state)
    (hsent : ∀ x, (g x).theInvalidatesSent = x.theInvalidatesSent) :
    b.Answered a e d (b'.update a g hg) := by
  obtain ⟨⟨f, hf, hentries, hfstate, hfsent⟩, hsize, hcount⟩ := h
  refine ⟨⟨fun x => g (f x), fun x => (hg _).trans (hf x), ?_, (hstate _).trans hfstate,
    (hsent _).trans hfsent⟩, hsize, hcount⟩
  have hnew : (b'.update a g hg).entries = Keyed.update DirEBEntry.address b'.entries a g := rfl
  rw [hnew, hentries, Keyed.update_update hf]

theorem Answered.find (h : b.Answered a e d b') (he : b.find a = some e) :
    ∃ e', b'.find a = some e' ∧ e'.state = d ∧
      e'.theInvalidatesSent = e.theInvalidatesSent - 1 := by
  obtain ⟨⟨f, hf, hentries, hstate, hsent⟩, -, -⟩ := h
  have he' : Keyed.lookup DirEBEntry.address b.entries a = some e := he
  refine ⟨f e, ?_, hstate, hsent⟩
  rw [DirEvictBuffer.find, hentries, Keyed.lookup_update hf, if_pos rfl, he']
  rfl

/-- **An answer that is not the last** leaves the buffer in order. -/
theorem Answered.sound (h : b.Answered a e d b') (hb : b.Sound w) (he : b.find a = some e)
    (hfits : d.Fits) (hw : w a = w' a + 1) (hmore : w' a ≠ 0) (hother : ∀ c, c ≠ a → w' c = w c) :
    b'.Sound w' := by
  obtain ⟨⟨f, hf, hentries, hstate, hsent⟩, hsize, hcount⟩ := h
  have hawaited : e.theInvalidatesSent = w a := by
    have := hb.awaited a
    rwa [DirEvictBuffer.sent, he] at this
  obtain ⟨rfl, l₁, l₂, hl⟩ := Keyed.exists_split he
  have hpending : e.pending = true := decide_eq_true (by omega)
  have hpending' : (f e).pending = true := decide_eq_true (by omega)
  refine hb.change hl hf hentries hsize ?_ (.inl (hpending'.trans hpending.symm)) (fun hp => ?_)
    (hstate ▸ hfits) (by omega) hother
  · rw [hcount, if_neg (by omega), hpending, hpending', if_pos rfl]
    omega
  · rw [hpending'] at hp
    cases hp

/-- **The last answer** takes the entry out. -/
theorem Answered.sound_remove (h : b.Answered a e d b') (hb : b.Sound w) (he : b.find a = some e)
    {b'' : DirEvictBuffer} (hremove : b'.remove a = .ok b'') (hw : w a = 1) (hw' : w' a = 0)
    (hother : ∀ c, c ≠ a → w' c = w c) : b''.Sound w' := by
  obtain ⟨e', he', -, hsent'⟩ := h.find he
  obtain ⟨⟨f, hf, hentries, hstate, hsent⟩, hsize, hcount⟩ := h
  have hawaited : e.theInvalidatesSent = w a := by
    have := hb.awaited a
    rwa [DirEvictBuffer.sent, he] at this
  have hpending : e.pending = true := decide_eq_true (by omega)
  obtain ⟨e'', he'', hentries', hsize', hcount'⟩ := remove_entries hremove
  obtain rfl : e' = e'' := Option.some.inj (he'.symm.trans he'')
  have hidle : e'.pending = false := DirEBEntry.pending_eq_false.mpr (by omega)
  refine hb.drop he ?_ (by rw [hsize', hsize]) ?_ hw' hother
  · rw [hentries', hentries, Keyed.erase_update hf]
  · rw [hcount', hcount, if_pos (by omega), hidle, hpending, if_pos rfl, if_neg Bool.false_ne_true,
      Int.sub_zero]

end DirEvictBuffer

end CMPCache

end Flexus
