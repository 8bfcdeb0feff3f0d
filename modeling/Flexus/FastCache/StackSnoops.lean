import Flexus.FastCache.Stack
import Flexus.FastCache.TopLevel

/-!
# Snoops into a private stack

In a stack of inclusive caches the states in which a block is held are ordered by the
wiring (`Flexus.FastCache.Covers`): a block that is valid above is valid below, and a
block that is modified or exclusive above – which it can be on the data sides only – is
exclusive below. A snoop finds out about the caches above by the state of the lowest one,
so this order is what makes it right to stop early; it changes the states of the block in
all caches by one and the same function, whether it gets to a cache or not
(`Flexus.FastCache.snoop_spec`).

A snoop may also arrive in the middle of a request. Then what matters to the request is
that the entries it has looked up stay where they are (`Flexus.StdCache.Follows`).
-/

namespace Flexus

open Function

/-! ### Iterators that are kept during a snoop -/

namespace StdCache

variable {g : Geometry} {c c' c'' : StdCache g} {r : LookupResult g} {e : BlockEntry}

/-- **A lookup result stays good** while the array is looked up and states change: it
resolves and, if it points at the entry of another block, no further entry can be made. -/
structure Pins (c : StdCache g) (r : LookupResult g) (e : BlockEntry) : Prop extends
    c.Resolves r e where
  full : e.tag ≠ r.theAddress → g.theAssoc ≤ (c.theBlocks r.theSet).length

/-- An array in which all lookup results are still good. -/
def Follows (c c' : StdCache g) : Prop :=
  ∀ r e, c.Pins r e → ∃ e', c'.Pins r e' ∧ e'.tag = e.tag

theorem Follows.refl (c : StdCache g) : c.Follows c := fun _ e h => ⟨e, h, rfl⟩

theorem Follows.trans (h : c.Follows c') (h' : c'.Follows c'') : c.Follows c'' := by
  intro r e he
  obtain ⟨d, hd, hde⟩ := h r e he
  obtain ⟨f, hf, hfd⟩ := h' r d hd
  exact ⟨f, hf, hfd.trans hde⟩

/-- The entries of a set stay where they are, and a full set gets no other blocks. -/
structure SetFollows (assoc : ℕ) (l l' : BlockSet) : Prop where
  kept : ∀ e ∈ l, ∃ e' ∈ l', e'.tag = e.tag ∧ e'.way = e.way
  length_le : l.length ≤ l'.length
  closed : assoc ≤ l.length → ∀ d ∈ l', ∃ e ∈ l, e.tag = d.tag

theorem follows_setBlocks {i : ℕ} {l : BlockSet} (h : l.WF g i)
    (hl : SetFollows g.theAssoc (c.theBlocks i) l) : c.Follows (c.setBlocks i l h) := by
  intro r e he
  by_cases hi : r.theSet = i
  · subst hi
    obtain ⟨e', he', htag, hway⟩ := hl.kept e he.mem
    have hset : (c.setBlocks r.theSet l h).theBlocks r.theSet = l := by
      rw [theBlocks_setBlocks, update_self]
    refine ⟨e', ⟨⟨?_, hway.trans he.way_eq, fun hne => ?_⟩, fun hne => ?_⟩, htag⟩
    · rw [hset]
      exact he'
    · rw [htag] at hne
      refine ⟨(he.absent hne).1, fun d hd => ?_⟩
      rw [hset] at hd
      obtain ⟨f, hf, hfd⟩ := hl.closed (he.full hne) d hd
      rw [← hfd]
      exact (he.absent hne).2 f hf
    · rw [hset]
      rw [htag] at hne
      exact Nat.le_trans (he.full hne) hl.length_le
  · have hset : (c.setBlocks i l h).theBlocks r.theSet = c.theBlocks r.theSet := by
      rw [theBlocks_setBlocks, update_of_ne hi]
    refine ⟨e, ⟨⟨?_, he.way_eq, fun hne => ?_⟩, fun hne => ?_⟩, rfl⟩
    · rw [hset]
      exact he.mem
    · rw [hset]
      exact he.absent hne
    · rw [hset]
      exact he.full hne

theorem setFollows_perm {assoc : ℕ} {l l' : BlockSet} (h : l'.Perm l) :
    SetFollows assoc l l' where
  kept e he := ⟨e, h.mem_iff.mpr he, rfl, rfl⟩
  length_le := Nat.le_of_eq h.length_eq.symm
  closed _ d hd := ⟨d, h.mem_iff.mp hd, rfl⟩

theorem setFollows_changeBlockState {assoc : ℕ} (l : BlockSet) (w : ℕ) (s : CoherenceState) :
    SetFollows assoc l (l.changeBlockState w s) where
  kept e he := by
    refine ⟨_, List.mem_map_of_mem he, ?_⟩
    split <;> exact ⟨rfl, rfl⟩
  length_le := Nat.le_of_eq (List.length_map _).symm
  closed _ d hd := by
    obtain ⟨e, he, rfl⟩ := List.mem_map.mp hd
    refine ⟨e, he, ?_⟩
    split <;> rfl

theorem follows_updateLRU (c : StdCache g) (r : LookupResult g) : c.Follows (c.updateLRU r) :=
  follows_setBlocks _ (setFollows_perm (BlockSet.toTail_perm _ _))

theorem follows_changeState (c : StdCache g) (r : LookupResult g) (s : CoherenceState)
    (mru lru : Bool) : c.Follows (c.changeState r s mru lru) := by
  have h : c.Follows (c.changeBlockState r s) :=
    follows_setBlocks _ (setFollows_changeBlockState _ _ _)
  rw [changeState]
  split
  · exact h.trans (follows_updateLRU _ r)
  · split
    · exact h.trans (follows_setBlocks _ (setFollows_perm (BlockSet.toHead_perm _ _)))
    · exact h

/-- A lookup makes an entry while there is room, and leaves everything else alone. -/
theorem follows_lookup (c : StdCache g) (a : ℕ) : c.Follows (c.lookup a).1 := by
  rw [lookup]
  split
  · exact Follows.refl c
  · rename_i hf
    have hfresh : ∀ d ∈ c.theBlocks (g.getSet a), d.tag ≠ g.getTag a := by
      simpa [BlockSet.findTag] using hf
    split
    · rename_i hl
      have hwf := (c.wf _).pushFront hl hfresh (g.getTag_getTag a) (g.getSet_getTag a)
      refine follows_setBlocks hwf ⟨fun e he => ?_, ?_, fun hfull => ?_⟩
      · exact ⟨e, List.mem_cons_of_mem _ he, rfl, rfl⟩
      · exact Nat.le_succ _
      · omega
    · exact Follows.refl c

theorem lookup_pins (c : StdCache g) (a : ℕ) : ∃ e, (c.lookup a).1.Pins (c.lookup a).2 e := by
  obtain ⟨-, -, e, he⟩ := c.lookup_spec a
  refine ⟨e, he, fun hne => ?_⟩
  -- an entry of another block is offered only when the set is full
  obtain ⟨-, hfresh⟩ := he.absent hne
  revert hfresh
  rw [lookup]
  split
  · rename_i d hd
    intro hfresh
    have ht : d.tag = g.getTag a := by simpa using List.find?_some hd
    exact absurd ht (hfresh d (List.mem_of_find?_eq_some hd))
  · split
    · intro hfresh
      exact absurd rfl (hfresh ⟨g.getTag a, .invalid, (c.theBlocks (g.getSet a)).length⟩ (by simp))
    · rename_i hl
      intro _
      exact Nat.le_of_not_lt hl

end StdCache

namespace FastCache

open MemoryMessageType

variable {k : ℕ}

/-! ### The order of the states -/

/-- The address of the block that an address is in. -/
def blockOf (k a : ℕ) : ℕ := a / 2 ^ k * 2 ^ k

/-- **A state below that covers one above.** On an instruction side blocks are never
modified or exclusive. -/
structure Covers (sd : Side) (x y : CoherenceState) : Prop where
  mesi : IsMESI y
  valid : y ≠ .invalid → x ≠ .invalid
  writable : y = .modified ∨ y = .exclusive → sd = .data ∧ x = .exclusive

/-- What a stack holds of a block is covered: by the given state below it, and each cache
by the one below it. -/
def Under (sd : Side) : (sh : Shape) → CoherenceState → Contents k sh → ℕ → Prop
  | .nothing, _, _, _ => True
  | .cache _ i d, x, st, b => Covers sd x (st.cache.stateOf b) ∧
      Under .instr i (st.cache.stateOf b) st.instr b ∧ Under sd d (st.cache.stateOf b) st.data b

/-- The state in which the lowest cache of a stack holds a block. -/
def lowest : (sh : Shape) → Contents k sh → ℕ → CoherenceState
  | .nothing, _, _ => .invalid
  | .cache _ _ _, st, b => st.cache.stateOf b

/-- Some data-side cache of a stack holds a block modified. -/
def HeldModified : (sh : Shape) → Contents k sh → ℕ → Prop
  | .nothing, _, _ => False
  | .cache _ _ d, st, b => st.cache.stateOf b = .modified ∨ HeldModified d st.data b

theorem covers_of_mesi {y : CoherenceState} (h : IsMESI y) : Covers .data .exclusive y :=
  ⟨h, fun _ => nofun, fun _ => ⟨rfl, rfl⟩⟩

/-- What is above a block that is shared or invalid is so, too. -/
theorem Covers.calm {sd : Side} {x y : CoherenceState} {t : MemoryMessageType}
    (h : Covers sd x y) (hx : snoopNext x t = x) : snoopNext y t = y := by
  obtain ⟨hm, hv, hw⟩ := h
  rcases hm with rfl | rfl | rfl | rfl
  · obtain ⟨-, rfl⟩ := hw (.inl rfl)
    rw [snoopNext] at hx
    split at hx <;> cases hx
  · obtain ⟨-, rfl⟩ := hw (.inr rfl)
    exact hx
  · rw [snoopNext] at hx ⊢
    split at hx
    · exact absurd hx.symm (hv nofun)
    · rename_i ht
      rw [if_neg fun h => ht (h.imp_right fun h => nomatch h)]
  · rw [snoopNext, if_pos (.inr rfl)]

theorem covers_invalid {sd : Side} {x : CoherenceState} : Covers sd x .invalid where
  mesi := .inr (.inr (.inr rfl))
  valid h := absurd rfl h
  writable := by
    rintro (h | h)
    · cases h
    · cases h

theorem covers_shared {sd : Side} {x : CoherenceState} (hx : x ≠ .invalid) :
    Covers sd x .shared where
  mesi := .inr (.inr (.inl rfl))
  valid _ := hx
  writable := by
    rintro (h | h)
    · cases h
    · cases h

theorem snoopNext_eq_invalid {x : CoherenceState} {t : MemoryMessageType} :
    snoopNext x t = .invalid ↔ t = invalidate ∨ x = .invalid := by
  rw [snoopNext]
  split
  · rename_i h
    exact iff_of_true rfl h
  · rename_i h
    exact iff_of_false nofun h

theorem snoopNext_eq_shared {x : CoherenceState} {t : MemoryMessageType} (ht : t ≠ invalidate)
    (hx : x ≠ .invalid) : snoopNext x t = .shared := by
  rw [snoopNext, if_neg]
  rintro (h | h)
  · exact ht h
  · exact hx h

theorem Covers.snoopNext {sd : Side} {x y : CoherenceState} (h : Covers sd x y)
    (t : MemoryMessageType) : Covers sd (snoopNext x t) (snoopNext y t) := by
  by_cases hy : t = invalidate ∨ y = .invalid
  · rw [snoopNext_eq_invalid.mpr hy]
    exact covers_invalid
  · obtain ⟨ht, hy⟩ := not_or.mp hy
    rw [snoopNext_eq_shared ht hy, snoopNext_eq_shared ht (h.valid hy)]
    exact covers_shared nofun

theorem Under.mono {sd : Side} {sh : Shape} {x x' : CoherenceState} {st : Contents k sh} {b : ℕ}
    (h : Under sd sh x st b) (hx : ∀ y, Covers sd x y → Covers sd x' y) :
    Under sd sh x' st b := by
  cases sh with
  | nothing => trivial
  | cache l i d => exact ⟨hx _ h.1, h.2⟩

/-- What is above a block that is not exclusive could be above any valid one. -/
theorem Under.of_valid {sd : Side} {sh : Shape} {x z : CoherenceState} {st : Contents k sh} {b : ℕ}
    (h : Under sd sh x st b) (hx : sd = .instr ∨ x ≠ .exclusive) (hz : z ≠ .invalid) :
    Under sd sh z st b := by
  refine h.mono fun y hy => ⟨hy.mesi, fun _ => hz, fun hw => ?_⟩
  obtain ⟨hsd, hex⟩ := hy.writable hw
  rcases hx with rfl | hx
  · cases hsd
  · exact absurd hex hx

theorem Under.not_heldModified {sd : Side} {sh : Shape} {x : CoherenceState}
    {st : Contents k sh} {b : ℕ} (h : Under sd sh x st b) (hx : x ≠ .exclusive) :
    ¬ HeldModified sh st b := by
  induction sh generalizing sd x with
  | nothing => exact fun h => h
  | cache l i d _ ihd =>
    rintro (hm | hm)
    · exact hx (h.1.writable (.inl hm)).2
    · refine ihd h.2.2 (fun he => ?_) hm
      exact hx (h.1.writable (.inr he)).2

/-! ### Comparing the contents of a stack -/

/-- Two contents of a stack whose caches are related one by one. -/
def Pointwise (R : ∀ {g : Geometry}, StdCache g → StdCache g → Prop) :
    (sh : Shape) → Contents k sh → Contents k sh → Prop
  | .nothing, _, _ => True
  | .cache _ i d, st, st' =>
    R st.cache st'.cache ∧ Pointwise R i st.instr st'.instr ∧ Pointwise R d st.data st'.data

theorem Pointwise.mono {R S : ∀ {g : Geometry}, StdCache g → StdCache g → Prop}
    (hRS : ∀ {g : Geometry} (c c' : StdCache g), R c c' → S c c') {sh : Shape}
    {st st' : Contents k sh} (h : Pointwise R sh st st') : Pointwise S sh st st' := by
  induction sh with
  | nothing => trivial
  | cache l i d ihi ihd => exact ⟨hRS _ _ h.1, ihi h.2.1, ihd h.2.2⟩

/-- **The order is kept** when all states of a block change by a function that keeps it. -/
theorem Under.map {f : CoherenceState → CoherenceState} {b : ℕ}
    (hf : ∀ sd x y, Covers sd x y → Covers sd (f x) (f y)) {sd : Side} {sh : Shape}
    {x : CoherenceState} {st st' : Contents k sh} (h : Under sd sh x st b)
    (hp : Pointwise (fun c c' => c'.stateOf b = f (c.stateOf b)) sh st st') :
    Under sd sh (f x) st' b := by
  induction sh generalizing sd x with
  | nothing => trivial
  | cache l i d ihi ihd =>
    obtain ⟨hc, hi, hd⟩ := h
    obtain ⟨hpc, hpi, hpd⟩ := hp
    refine ⟨?_, ?_, ?_⟩
    · rw [hpc]
      exact hf _ _ _ hc
    · rw [hpc]
      exact ihi hi hpi
    · rw [hpc]
      exact ihd hd hpd

/-! ### What a snoop does -/

/-- **A snoop has passed a cache.** -/
structure PassedBy (t : MemoryMessageType) (b : ℕ) {g : Geometry} (c c' : StdCache g) : Prop where
  states : c'.stateOf = update c.stateOf b (snoopNext (c.stateOf b) t)
  follows : c.Follows c'

/-- Where the state of a block would not change, a snoop need not go. -/
theorem Under.calm {sd : Side} {sh : Shape} {x : CoherenceState} {st : Contents k sh} {b : ℕ}
    {t : MemoryMessageType} (h : Under sd sh x st b) (hx : snoopNext x t = x) :
    Pointwise (PassedBy t b) sh st st := by
  induction sh generalizing sd x with
  | nothing => trivial
  | cache l i d ihi ihd =>
    have hc := h.1.calm hx
    refine ⟨⟨?_, StdCache.Follows.refl _⟩, ihi h.2.1 hc, ihd h.2.2 hc⟩
    rw [hc, update_eq_self]

theorem Under.passedBy {sd : Side} {sh : Shape} {x : ℕ → CoherenceState} {st st' : Contents k sh}
    {b : ℕ} {t : MemoryMessageType} (h : ∀ b', Under sd sh (x b') st b')
    (hp : Pointwise (PassedBy t b) sh st st') (b' : ℕ) :
    Under sd sh (update x b (snoopNext (x b) t) b') st' b' := by
  by_cases hb : b' = b
  · subst hb
    rw [update_self]
    refine (h b').map (f := (snoopNext · t)) (fun _ _ _ hc => hc.snoopNext t)
      (hp.mono fun c c' hcc => ?_)
    rw [hcc.states, update_self]
  · rw [update_of_ne hb]
    refine (h b').map (f := id) (fun _ _ _ hc => hc) (hp.mono fun c c' hcc => ?_)
    rw [hcc.states, update_of_ne hb]
    rfl

/-- The reply that says that a block was dirty. -/
def SnoopKind.dirtyReply : SnoopKind → MemoryMessageType
  | returnReq => returnReplyDirty
  | invalidate => invUpdateAck
  | downgrade => downUpdateAck

/-- **What a snoop comes back with.** -/
structure Replies (q : SnoopKind) (sh : Shape) (st : Contents k sh) (b : ℕ)
    (reply : MemoryMessageType) : Prop where
  dirty : reply = q.dirtyReply ↔
    lowest sh st b = .modified ∨ q ≠ .returnReq ∧ HeldModified sh st b
  /-- Only a return request is refused. -/
  answered : q ≠ .returnReq → reply ≠ returnNAck

section Ports

variable {l : Level} {i d : Shape} {τ : Type} {get : τ → Contents k (.cache l i d)}
  {set : τ → Contents k (.cache l i d) → τ} {out : Channel τ} {si : Channel (Contents k i)}
  {sd : Channel (Contents k d)} {s : τ} {m : MemoryMessage} {t : MemoryMessageType}

theorem snoopOutI_ports {c : Contents k i} (h : si (get s).instr m = .ok (c, t)) :
    (ports get set out si sd).snoopOutI s m =
      .ok (set s (Contents.mk (get s).cache c (get s).data), t) := by
  simp only [ports, Channel.lift, h]
  rfl

theorem snoopOutD_ports {c : Contents k d} (h : sd (get s).data m = .ok (c, t)) :
    (ports get set out si sd).snoopOutD s m =
      .ok (set s (Contents.mk (get s).cache (get s).instr c), t) := by
  simp only [ports, Channel.lift, h]
  rfl

end Ports

section Cache

variable {l : Level} {i d : Shape} {st : Contents k (.cache l i d)} {q : SnoopKind} {a : ℕ}

/-- The wiring of the lowest cache of a stack that is snooped. -/
def snoopPorts (l : Level) (i d : Shape) :
    Ports (l.geometry k) (Contents k (.cache l i d)) :=
  ports id (fun _ c => c) unwired (snoop i) (snoop d)

theorem snoop_of_action {act : SnoopAction} {st' : Contents k (.cache l i d)}
    {reply : MemoryMessageType}
    (hact : InclusiveMESI.snoopAction l.cfg.snoopLRU (st.cache.stateOf (blockOf k a)) q.type =
      some act)
    (hdo : doSnoopAction (snoopPorts l i d) (.mk (st.cache.lookup a).1 st.instr st.data)
      (st.cache.lookup a).2 ⟨q.type, a⟩ act = .ok (st', reply)) :
    snoop (.cache l i d) st ⟨q.type, a⟩ =
      .ok (.mk (st'.cache.lookup a).1 st'.instr st'.data, reply) := by
  obtain ⟨hst, haddr, e, hres⟩ := st.cache.lookup_spec a
  have hget : (st.cache.lookup a).1.getState (st.cache.lookup a).2 =
      st.cache.stateOf (blockOf k a) := by
    rw [hres.getState_eq, hst, haddr]
    rfl
  rw [← hget] at hact
  show snoopIn l.cfg (snoopPorts l i d) st ⟨q.type, a⟩ = _
  generalize hl : st.cache.lookup a = x at hact hdo
  obtain ⟨c, r⟩ := x
  have hleft : ((snoopPorts l i d).getCache st).lookup a = (c, r) := hl
  have hdo' : doSnoopAction (snoopPorts l i d) ((snoopPorts l i d).setCache st c) r ⟨q.type, a⟩ act =
      .ok (st', reply) := hdo
  simp only [snoopIn, hleft, hact, hdo']
  rfl

theorem passedBy_lookup {g : Geometry} {c : StdCache g} {t : MemoryMessageType} {b : ℕ}
    (h : snoopNext (c.stateOf b) t = c.stateOf b) (a : ℕ) :
    PassedBy t b c ((c.lookup a).1.lookup a).1 := by
  refine ⟨?_, (c.follows_lookup a).trans ((c.lookup a).1.follows_lookup a)⟩
  rw [(StdCache.lookup_spec _ a).1, (c.lookup_spec a).1, h, update_eq_self]

theorem passedBy_changeState {g : Geometry} {c : StdCache g} {t : MemoryMessageType} {a : ℕ}
    (hv : c.stateOf (g.getTag a) ≠ .invalid) (mru lru : Bool) :
    PassedBy t (g.getTag a) c (((c.lookup a).1.changeState (c.lookup a).2
      (snoopNext (c.stateOf (g.getTag a)) t) mru lru).lookup a).1 := by
  obtain ⟨hst, haddr, e, hres⟩ := c.lookup_spec a
  refine ⟨?_, ?_⟩
  · have htag := hres.tag_eq (by rwa [hst, haddr])
    rw [(StdCache.lookup_spec _ a).1, StdCache.stateOf_changeState hres htag, hst, haddr]
  · exact (c.follows_lookup a).trans ((StdCache.follows_changeState _ _ _ _ _).trans
      (StdCache.follows_lookup _ a))

/-- **A snoop goes on to the caches above.** The instruction side is left out of a
downgrade, which would not change anything there. -/
theorem continueSnoop_stack (st : Contents k (.cache l i d)) {x : CoherenceState}
    (hi : Under .instr i x st.instr (blockOf k a))
    {si : Contents k i} {ti : MemoryMessageType}
    (hsi : snoop i st.instr ⟨q.type, a⟩ = .ok (si, ti))
    (hpi : Pointwise (PassedBy q.type (blockOf k a)) i st.instr si)
    {sd : Contents k d} {td : MemoryMessageType}
    (hsd : snoop d st.data ⟨q.type, a⟩ = .ok (sd, td)) (htd : q ≠ .returnReq → td ≠ returnNAck) :
    ∃ si' reply, continueSnoop (snoopPorts l i d) st ⟨q.type, a⟩ =
        .ok (.mk st.cache si' sd, reply) ∧
      Pointwise (PassedBy q.type (blockOf k a)) i st.instr si' ∧ (q ≠ .returnReq → reply = td) := by
  have hI : (snoopPorts l i d).snoopOutI st ⟨q.type, a⟩ = .ok (.mk st.cache si st.data, ti) :=
    snoopOutI_ports hsi
  have hD : ∀ si', (snoopPorts l i d).snoopOutD (.mk st.cache si' st.data) ⟨q.type, a⟩ =
      .ok (.mk st.cache si' sd, td) :=
    fun si' => snoopOutD_ports (s := Contents.mk st.cache si' st.data) hsd
  rw [continueSnoop]
  by_cases hq : q = .downgrade
  · subst hq
    refine ⟨st.instr, if td = returnNAck ∧ downgrade ≠ returnNAck then downgrade else td,
      ?_, ?_, ?_⟩
    · rw [if_neg (by simp [SnoopKind.type])]
      show ((snoopPorts l i d).snoopOutD (Contents.mk st.cache st.instr st.data)
        ⟨SnoopKind.downgrade.type, a⟩ >>= _) = _
      rw [hD st.instr]
      rfl
    · exact (hi.of_valid (.inl rfl) (z := .shared) (by decide)).calm rfl
    · intro hq
      exact if_neg fun h => htd hq h.1
  · have hne : q.type ≠ downgrade := by
      cases q with
      | returnReq => decide
      | invalidate => decide
      | downgrade => exact absurd rfl hq
    refine ⟨si, if td = returnNAck ∧ ti ≠ returnNAck then ti else td, ?_, hpi, ?_⟩
    · rw [if_pos hne, hI]
      show ((snoopPorts l i d).snoopOutD (Contents.mk st.cache si st.data) ⟨q.type, a⟩ >>= _) = _
      rw [hD si]
      rfl
    · intro hq
      exact if_neg fun h => htd hq h.1

theorem snoop_stays {sd : Side} {x y : CoherenceState} {reply : MemoryMessageType}
    (h : Under sd (.cache l i d) x st (blockOf k a)) (hy : st.cache.stateOf (blockOf k a) = y)
    (hcalm : snoopNext y q.type = y)
    (hact : InclusiveMESI.snoopAction l.cfg.snoopLRU y q.type =
      some ⟨.reply reply, false, .sameState, false, false⟩) :
    ∃ st', snoop (.cache l i d) st ⟨q.type, a⟩ = .ok (st', reply) ∧
      Pointwise (PassedBy q.type (blockOf k a)) (.cache l i d) st st' := by
  subst hy
  exact ⟨_, snoop_of_action hact rfl, passedBy_lookup hcalm a, h.2.1.calm hcalm, h.2.2.calm hcalm⟩

/-- The table gives a modified block away without asking above. -/
theorem snoop_gives {sd : Side} {x : CoherenceState}
    (h : Under sd (.cache l i d) x st (blockOf k a))
    (hy : st.cache.stateOf (blockOf k a) = .modified) :
    ∃ st', snoop (.cache l i d) st ⟨returnReq, a⟩ = .ok (st', returnReplyDirty) ∧
      Pointwise (PassedBy returnReq (blockOf k a)) (.cache l i d) st st' := by
  have hp := passedBy_changeState (t := returnReq) (c := st.cache) (a := a)
    (by rw [show (l.geometry k).getTag a = blockOf k a from rfl, hy]; exact nofun)
    false l.cfg.snoopLRU
  rw [show (l.geometry k).getTag a = blockOf k a from rfl, hy] at hp
  refine ⟨_, snoop_of_action (q := .returnReq) (by rw [hy]; rfl) rfl, ?_, ?_, ?_⟩
  · exact hp
  · exact (h.2.1.of_valid (.inl rfl) (z := .shared) nofun).calm rfl
  · exact (h.2.2.of_valid (.inr (by rw [hy]; exact nofun)) (z := .shared) nofun).calm rfl

/-- The table sends the snoop on, and changes the state of a valid block. -/
theorem snoop_passes {sd : Side} {x y : CoherenceState} {act : SnoopAction} {mru lru : Bool}
    (reply : MemoryMessageType → MemoryMessageType)
    (h : Under sd (.cache l i d) x st (blockOf k a)) (hy : st.cache.stateOf (blockOf k a) = y)
    (hv : y ≠ .invalid) (hact : InclusiveMESI.snoopAction l.cfg.snoopLRU y q.type = some act)
    (hdo : ∀ (s s' : Contents k (.cache l i d)) r t,
      continueSnoop (snoopPorts l i d) s ⟨q.type, a⟩ = .ok (s', t) →
      doSnoopAction (snoopPorts l i d) s r ⟨q.type, a⟩ act =
        .ok (changeState (snoopPorts l i d) s' r (snoopNext y q.type) mru lru, reply t))
    (ihi : ∃ si t, snoop i st.instr ⟨q.type, a⟩ = .ok (si, t) ∧
      Pointwise (PassedBy q.type (blockOf k a)) i st.instr si ∧
      Replies q i st.instr (blockOf k a) t)
    (ihd : ∃ sd t, snoop d st.data ⟨q.type, a⟩ = .ok (sd, t) ∧
      Pointwise (PassedBy q.type (blockOf k a)) d st.data sd ∧
      Replies q d st.data (blockOf k a) t) :
    ∃ st' td t, snoop (.cache l i d) st ⟨q.type, a⟩ = .ok (st', reply td) ∧
      Pointwise (PassedBy q.type (blockOf k a)) (.cache l i d) st st' ∧
      Replies q d st.data (blockOf k a) t ∧ (q ≠ .returnReq → td = t) := by
  subst hy
  obtain ⟨si, ti, hsi, hpi, -⟩ := ihi
  obtain ⟨sd', t, hsd, hpd, hrep⟩ := ihd
  obtain ⟨si', td, hcont, hpi', htd⟩ :=
    continueSnoop_stack (Contents.mk (st.cache.lookup a).1 st.instr st.data) h.2.1 hsi hpi hsd
      hrep.answered
  refine ⟨_, td, t, snoop_of_action hact (hdo _ _ _ _ hcont), ⟨?_, hpi', hpd⟩, hrep, htd⟩
  exact passedBy_changeState hv mru lru

theorem replies_of_modified {reply : MemoryMessageType}
    (hx : st.cache.stateOf (blockOf k a) = .modified) (hr : reply = q.dirtyReply) :
    Replies q (.cache l i d) st (blockOf k a) reply := by
  refine ⟨iff_of_true hr (.inl hx), fun _ => ?_⟩
  rw [hr]
  cases q with
  | returnReq => decide
  | invalidate => decide
  | downgrade => decide

theorem replies_of_clean {sd : Side} {x : CoherenceState} {reply : MemoryMessageType}
    (h : Under sd (.cache l i d) x st (blockOf k a))
    (hx : st.cache.stateOf (blockOf k a) = .shared ∨ st.cache.stateOf (blockOf k a) = .invalid)
    (hr : reply ≠ q.dirtyReply) (hn : q ≠ .returnReq → reply ≠ returnNAck) :
    Replies q (.cache l i d) st (blockOf k a) reply := by
  have hm : st.cache.stateOf (blockOf k a) ≠ .modified := by
    rcases hx with hx | hx
    · rw [hx]
      exact nofun
    · rw [hx]
      exact nofun
  have he : st.cache.stateOf (blockOf k a) ≠ .exclusive := by
    rcases hx with hx | hx
    · rw [hx]
      exact nofun
    · rw [hx]
      exact nofun
  refine ⟨iff_of_false hr ?_, hn⟩
  rintro (hc | ⟨-, hc | hc⟩)
  · exact hm hc
  · exact hm hc
  · exact h.2.2.not_heldModified he hc

end Cache

theorem heldModified_of_lowest {sh : Shape} {st : Contents k sh} {b : ℕ}
    (h : lowest sh st b = .modified) : HeldModified sh st b := by
  cases sh with
  | nothing => cases h
  | cache l i d => exact .inl h

theorem replies_of_exclusive {l : Level} {i d : Shape} {st : Contents k (.cache l i d)}
    {q : SnoopKind} {b : ℕ} {t reply : MemoryMessageType}
    (hx : st.cache.stateOf b = .exclusive) (hq : q ≠ .returnReq) (ht : Replies q d st.data b t)
    (hr : reply = q.dirtyReply ↔ t = q.dirtyReply) (hn : reply ≠ returnNAck) :
    Replies q (.cache l i d) st b reply := by
  refine ⟨?_, fun _ => hn⟩
  have hm : st.cache.stateOf b ≠ .modified := by
    rw [hx]
    exact nofun
  rw [hr, ht.dirty]
  constructor
  · rintro (h | ⟨-, h⟩)
    · exact .inr ⟨hq, .inr (heldModified_of_lowest h)⟩
    · exact .inr ⟨hq, .inr h⟩
  · rintro (h | ⟨-, h | h⟩)
    · exact absurd h hm
    · exact absurd h hm
    · exact .inr ⟨hq, h⟩

/-- An acknowledgement made of the message itself is not a dirty one. -/
theorem ite_eq_iff_of_ne {t u v w : MemoryMessageType} (hu : u ≠ w) (hv : v ≠ w) :
    (if t = u then v else t) = w ↔ t = w := by
  split
  · rename_i ht
    rw [ht]
    exact iff_of_false hv hu
  · rfl

theorem ite_ne {t u v w : MemoryMessageType} (hv : v ≠ w) (ht : t ≠ w) :
    (if t = u then v else t) ≠ w := by
  split
  · exact hv
  · exact ht

/-- **A snoop into a stack** changes the state of its block in all caches by the same
function, and comes back. -/
theorem snoop_spec {sd : Side} {sh : Shape} {x : CoherenceState} {st : Contents k sh} {a : ℕ}
    (h : Under sd sh x st (blockOf k a)) (q : SnoopKind) :
    ∃ st' reply, snoop sh st ⟨q.type, a⟩ = .ok (st', reply) ∧
      Pointwise (PassedBy q.type (blockOf k a)) sh st st' ∧
      Replies q sh st (blockOf k a) reply := by
  induction sh generalizing sd x with
  | nothing =>
    refine ⟨st, q.type, rfl, trivial, iff_of_false ?_ ?_, ?_⟩
    · cases q <;> decide
    · rintro (h | ⟨-, h⟩)
      · cases h
      · exact h
    · cases q <;> decide
  | cache l i d ihi ihd =>
    have hi := ihi h.2.1
    have hd := ihd h.2.2
    have hmesi := h.1.mesi
    cases q with
    | returnReq =>
      rcases hmesi with hx | hx | hx | hx
      · obtain ⟨st', hs, hp⟩ := snoop_gives h hx
        exact ⟨st', _, hs, hp, replies_of_modified hx rfl⟩
      · obtain ⟨st', td, t, hs, hp, -⟩ :=
          snoop_passes (q := .returnReq) (fun _ => returnReply) h hx (by decide) rfl
            (fun s s' r t hc => by simp only [doSnoopAction, hc]; rfl) hi hd
        refine ⟨st', _, hs, hp, iff_of_false (by decide) ?_, fun hne => absurd rfl hne⟩
        rintro (hc | ⟨hc, -⟩)
        · rw [lowest, hx] at hc
          cases hc
        · exact hc rfl
      · obtain ⟨st', hs, hp⟩ := snoop_stays (q := .returnReq) h hx rfl rfl
        exact ⟨st', _, hs, hp, replies_of_clean h (.inl hx) (by decide) fun hne => absurd rfl hne⟩
      · obtain ⟨st', hs, hp⟩ := snoop_stays (q := .returnReq) h hx rfl rfl
        exact ⟨st', _, hs, hp, replies_of_clean h (.inr hx) (by decide) fun hne => absurd rfl hne⟩
    | invalidate =>
      rcases hmesi with hx | hx | hx | hx
      · obtain ⟨st', td, t, hs, hp, -⟩ :=
          snoop_passes (q := .invalidate) (fun _ => invUpdateAck) h hx (by decide) rfl
            (fun s s' r t hc => by simp only [doSnoopAction, hc]; rfl) hi hd
        exact ⟨st', _, hs, hp, replies_of_modified hx rfl⟩
      · obtain ⟨st', td, t, hs, hp, hrep, htd⟩ :=
          snoop_passes (q := .invalidate) (fun t => if t = invalidate then invalidateAck else t) h
            hx (by decide) rfl (fun s s' r t hc => by simp only [doSnoopAction, hc]; rfl) hi hd
        rw [htd (by decide)] at hs
        exact ⟨st', _, hs, hp, replies_of_exclusive hx (by decide) hrep
          (ite_eq_iff_of_ne (by decide) (by decide)) (ite_ne (by decide)
            (hrep.answered (by decide)))⟩
      · obtain ⟨st', td, t, hs, hp, -⟩ :=
          snoop_passes (q := .invalidate) (fun _ => invalidateAck) h hx (by decide) rfl
            (fun s s' r t hc => by simp only [doSnoopAction, hc]; rfl) hi hd
        exact ⟨st', _, hs, hp, replies_of_clean h (.inl hx) (by decide) (by decide)⟩
      · obtain ⟨st', hs, hp⟩ := snoop_stays (q := .invalidate) h hx rfl rfl
        exact ⟨st', _, hs, hp, replies_of_clean h (.inr hx) (by decide) (by decide)⟩
    | downgrade =>
      rcases hmesi with hx | hx | hx | hx
      · obtain ⟨st', td, t, hs, hp, -⟩ :=
          snoop_passes (q := .downgrade) (fun _ => downUpdateAck) h hx (by decide) rfl
            (fun s s' r t hc => by simp only [doSnoopAction, hc]; rfl) hi hd
        exact ⟨st', _, hs, hp, replies_of_modified hx rfl⟩
      · obtain ⟨st', td, t, hs, hp, hrep, htd⟩ :=
          snoop_passes (q := .downgrade) (fun t => if t = downgrade then downgradeAck else t) h
            hx (by decide) rfl (fun s s' r t hc => by simp only [doSnoopAction, hc]; rfl) hi hd
        rw [htd (by decide)] at hs
        exact ⟨st', _, hs, hp, replies_of_exclusive hx (by decide) hrep
          (ite_eq_iff_of_ne (by decide) (by decide)) (ite_ne (by decide)
            (hrep.answered (by decide)))⟩
      · obtain ⟨st', hs, hp⟩ := snoop_stays (q := .downgrade) h hx rfl rfl
        exact ⟨st', _, hs, hp, replies_of_clean h (.inl hx) (by decide) (by decide)⟩
      · obtain ⟨st', hs, hp⟩ := snoop_stays (q := .downgrade) h hx rfl rfl
        exact ⟨st', _, hs, hp, replies_of_clean h (.inr hx) (by decide) (by decide)⟩

end FastCache

end Flexus
