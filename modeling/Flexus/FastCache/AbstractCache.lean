import Flexus.FastCache.Component
import Flexus.FastCache.RegionTracker
import Flexus.Lib.Machine

/-!
# A protocol over an array

A functional cache knows its array only as an `AbstractCache`, and a block of it only by a
`LookupResult`: what a request or a snoop does to the array is one call of the result
(`Flexus.FastCache.ArrayEffect`), which the entry of the protocol table selects. So the same
component runs over a set-associative array and over a region tracker, and what it does to either
is one machine (`Flexus.FastCache.AbstractCache.machine`). The answers of the other caches are part
of its events, and so are the snoops that they send while a request waits for its answer.

Over the set-associative array the machine is the component, between other caches that give these
answers (`Flexus.FastCache.requestIn_around` and `Flexus.FastCache.snoopIn_around`).
-/

namespace Flexus

namespace FastCache

open MemoryMessageType

/-! ### What an action does to the array -/

/-- The calls of a lookup result. -/
inductive ArrayEffect
  | keep
  | updateLRU
  | changeState (newState : CoherenceState) (makeMRU makeLRU : Bool)
  | allocate (newState : CoherenceState)
  deriving DecidableEq

/-- **What `doCoherenceAction` does to the array**, for a message of the given type, when the cache
below has given the answer. -/
def requestEffect (type answer : MemoryMessageType) : RequestAction → Except Fault ArrayEffect
  | .action .sendNone false .sameState false .noResponse => .ok .keep
  | .action .sendNone false .sameState true .fillWritable => .ok .updateLRU
  | .action .sendNone false .dependState true .fillDirty =>
    if type = loadReq then .ok .updateLRU else .ok (.changeState .exclusive true false)
  | .action .sendNone false .sameState true .fillDirty => .ok .updateLRU
  | .action .sendNone false .eState true .fillDirty => .ok (.changeState .exclusive true false)
  | .action .sendNone false .sameState true .fillValid => .ok .updateLRU
  | .action .sendNone false .mState true .fillWritable => .ok (.changeState .modified true false)
  | .action .sendNone false .sameState true .noResponse => .ok .updateLRU
  | .action .sendUpgrade false .mState true .fillWritable => .ok (.changeState .modified true false)
  | .action .sendUpgrade false .eState true .fillWritable =>
    .ok (.changeState .exclusive true false)
  | .action .sendNone false .mState true .noResponse => .ok (.changeState .modified true false)
  | .action .sendNone false .eState true .noResponse => .ok (.changeState .exclusive true false)
  | .action .sendUpgrade false .mState true .noResponse => .ok (.changeState .modified true false)
  | .action .sendUpgrade false .eState true .noResponse => .ok (.changeState .exclusive true false)
  | .action .sendRead true .dependState true .fillDepend =>
    match answer with
    | missReply => .ok (.allocate .shared)
    | missReplyWritable => .ok (.allocate .exclusive)
    | missReplyDirty => .ok (.allocate (if type = loadReq then .modified else .exclusive))
    | fwdReplyOwned => .ok (.allocate .owned)
    | _ => .error .unexpectedReply
  | .action .sendWrite true .mState true .fillDepend => .ok (.allocate .modified)
  | .action .sendWrite true .eState true .fillDepend => .ok (.allocate .exclusive)
  | .action .sendFetch true .sState true .fillValid => .ok (.allocate .shared)
  | .action .sendFetch true .dependState true .fillValid =>
    .ok (.allocate (if answer = fwdReplyOwned then .owned else .shared))
  | .action .sendNAW false .sameState false .fillDepend => .ok .keep
  | _ => .error .poisonRequest

/-- **What a snoop does to the array**, when the caches above have given the answer. -/
def snoopEffect (answer : MemoryMessageType) : SnoopAction → Except Fault ArrayEffect
  | ⟨.reply _, false, .sameState, false, false⟩ => .ok .keep
  | ⟨.reply _, false, .sState, mru, lru⟩ => .ok (.changeState .shared mru lru)
  | ⟨.reply returnReply, true, .dependState, mru, lru⟩ =>
    .ok (.changeState (if answer = downUpdateAck then .owned else .shared) mru lru)
  | ⟨.reply _, true, .sState, mru, lru⟩ => .ok (.changeState .shared mru lru)
  | ⟨.reply _, true, .iState, mru, lru⟩ => .ok (.changeState .invalid mru lru)
  | ⟨.reply _, true, .oState, mru, lru⟩ => .ok (.changeState .owned mru lru)
  | ⟨.snoopDepend, true, .iState, mru, lru⟩ => .ok (.changeState .invalid mru lru)
  | ⟨.snoopDepend, true, .sState, mru, lru⟩ => .ok (.changeState .shared mru lru)
  | ⟨.snoopDepend, true, .dependState, mru, lru⟩ =>
    .ok (.changeState (if answer = downUpdateAck then .owned else .shared) mru lru)
  | _ => .error .unmappedSnoop

/-- Whether the cache below is asked: an action that sends nothing does not wait. -/
def RequestAction.sends : RequestAction → Bool
  | .poison => false
  | .action send _ _ _ _ => send ≠ .sendNone

/-! ### Arrays -/

/-- **A valid block that has to make room**: its entry, the set in which it has been chosen, as
that was then, and the set that it leaves. -/
structure Eviction where
  block : BlockEntry
  chosenFrom : BlockSet
  leaves : BlockSet
  deriving DecidableEq

/-- **`AbstractCache`**, with its lookup results; further, for what is said about it, the set of a
result, and the eviction that an allocation makes, for the states at the lookup and now. -/
structure AbstractCache (σ ρ φ : Type) where
  lookup : σ → ℕ → Except φ (σ × ρ)
  getState : σ → ρ → CoherenceState
  updateLRU : σ → ρ → Except φ σ
  changeState : σ → ρ → CoherenceState → Bool → Bool → Except φ σ
  allocate : σ → ρ → CoherenceState → Except φ σ
  /-- The assertions of the component. -/
  fault : Fault → φ
  blocks : σ → ρ → BlockSet
  replaced : σ → σ → ρ → Option Eviction

/-- A snoop, with the answer of the caches above. -/
structure SnoopEvent where
  message : MemoryMessage
  answer : MemoryMessageType
  deriving DecidableEq

/-- A request, with the snoops that come in before the cache below has answered, and that answer;
or a snoop. -/
inductive CacheEvent
  | request (m : MemoryMessage) (during : List SnoopEvent) (answer : MemoryMessageType)
  | snoop (x : SnoopEvent)
  deriving DecidableEq

namespace AbstractCache

variable {σ ρ φ : Type} (A : AbstractCache σ ρ φ) (cfg : Config)

/-- The effect of an action. -/
def apply (s : σ) (r : ρ) : ArrayEffect → Except φ σ
  | .keep => .ok s
  | .updateLRU => A.updateLRU s r
  | .changeState newState makeMRU makeLRU => A.changeState s r newState makeMRU makeLRU
  | .allocate newState => A.allocate s r newState

/-- **`SnoopIn`.** The block is looked up once more at the end. -/
def snoopIn (s : σ) (x : SnoopEvent) : Except φ σ := do
  let (s, r) ← A.lookup s x.message.address
  match InclusiveMESI.snoopAction cfg.snoopLRU (A.getState s r) x.message.type with
  | none => .error (A.fault .unmappedSnoop)
  | some a => do
    let effect ← (snoopEffect x.answer a).mapError A.fault
    let s ← A.apply s r effect
    let (s, _) ← A.lookup s x.message.address
    pure s

/-- Snoops, one after the other. -/
def snoopsIn : σ → List SnoopEvent → Except φ σ
  | s, [] => .ok s
  | s, x :: xs => do
    let s ← A.snoopIn cfg s x
    snoopsIn s xs

/-- **A request that the cache below has answered**: the state at its lookup, the state now, and
the result and the action that were found at the lookup. -/
def answered (s : σ) (m : MemoryMessage) (during : List SnoopEvent) :
    Except φ (σ × σ × ρ × RequestAction) := do
  let access ← (message2access m.type).mapError A.fault
  let (s, r) ← A.lookup s m.address
  match InclusiveMESI.requestAction cfg.usingTraces (A.getState s r) access with
  | none => .error (A.fault .unmappedRequest)
  | some a => do
    let s' ← A.snoopsIn cfg s (if a.sends then during else [])
    pure (s, s', r, a)

/-- **`RequestIn`.** -/
def requestIn (s : σ) (m : MemoryMessage) (during : List SnoopEvent)
    (answer : MemoryMessageType) : Except φ σ := do
  let (_, s, r, a) ← A.answered cfg s m during
  let effect ← (requestEffect m.type answer a).mapError A.fault
  A.apply s r effect

/-- One event. -/
def step (s : σ) : CacheEvent → Except φ σ
  | .request m during answer => A.requestIn cfg s m during answer
  | .snoop x => A.snoopIn cfg s x

/-- The runs of a component over an array. -/
def machine (init : σ) : Lib.Machine σ CacheEvent φ := ⟨init, A.step cfg⟩

/-- **What a miss evicts** to make room for its block. -/
def evictedFor (s : σ) : CacheEvent → Option Eviction
  | .request m during answer =>
    match A.answered cfg s m during with
    | .ok (s, s', r, a) =>
      match requestEffect m.type answer a with
      | .ok (.allocate _) => A.replaced s s' r
      | _ => none
    | .error _ => none
  | .snoop _ => none

variable {A cfg}

theorem requestIn_of {s s' : σ} {r : ρ} {m : MemoryMessage} {access : Access} {a : RequestAction}
    (hm : message2access m.type = .ok access) (hl : A.lookup s m.address = .ok (s', r))
    (ha : InclusiveMESI.requestAction cfg.usingTraces (A.getState s' r) access = some a)
    (during : List SnoopEvent) (answer : MemoryMessageType) :
    A.requestIn cfg s m during answer =
      A.snoopsIn cfg s' (if a.sends then during else []) >>= fun s =>
        (requestEffect m.type answer a).mapError A.fault >>= A.apply s r := by
  rw [requestIn, answered, hm, hl]
  simp only [bind, Except.bind, Except.mapError, ha]
  cases A.snoopsIn cfg s' (if a.sends then during else []) <;> rfl

theorem snoopIn_of {s s' : σ} {r : ρ} {x : SnoopEvent} {a : SnoopAction}
    (hl : A.lookup s x.message.address = .ok (s', r))
    (ha : InclusiveMESI.snoopAction cfg.snoopLRU (A.getState s' r) x.message.type = some a) :
    A.snoopIn cfg s x = (snoopEffect x.answer a).mapError A.fault >>= A.apply s' r >>= fun s =>
      (A.lookup s x.message.address).map Prod.fst := by
  rw [snoopIn, hl]
  simp only [bind, Except.bind, ha]
  cases (snoopEffect x.answer a).mapError A.fault with
  | error f => rfl
  | ok effect =>
    simp only
    cases A.apply s' r effect with
    | error f => rfl
    | ok s =>
      simp only
      cases A.lookup s x.message.address <;> rfl

end AbstractCache

/-! ### The two arrays -/

/-- The set-associative array; what it evicts is nobody else's business. -/
def stdCache (g : Geometry) : AbstractCache (StdCache g) (LookupResult g) Fault where
  lookup c a := .ok (c.lookup a)
  getState := StdCache.getState
  updateLRU c r := .ok (c.updateLRU r)
  changeState c r newState makeMRU makeLRU := .ok (c.changeState r newState makeMRU makeLRU)
  allocate := StdCache.allocate id (fun _ c => c) fun c _ _ => .ok c
  fault := id
  blocks c r := c.theBlocks r.theSet
  replaced c c' r := do
    let b ← c'.block r
    if b.tag ≠ r.theAddress ∧ b.state.isValid then
      some ⟨b, c.theBlocks r.theSet, c'.theBlocks r.theSet⟩
    else none

/-- The region tracker. A result is the address, and what the lookup has found. -/
def rtCache (g : RTGeometry) :
    AbstractCache (RTCache g) (ℕ × Option RTLookupResult) (RTFault ⊕ Fault) where
  lookup c a := do
    let r ← (c.lookup (g.getBlockTag a)).mapError .inl
    pure (c, g.getBlockTag a, r)
  getState c r := c.getState r.2
  updateLRU c r := match r.2 with
    | some r => .ok (c.updateLRU r)
    | none => .error (.inr .danglingBlock)
  changeState c r newState makeMRU makeLRU := match r.2 with
    | some r => .ok (c.updateState r newState makeMRU makeLRU)
    | none => .error (.inr .danglingBlock)
  allocate c r newState := ((c.allocate r.1 newState).map Prod.fst).mapError .inl
  fault := .inr
  blocks c r := match r.2 with
    | some r => c.theBlocks r.blockSet
    | none => []
  replaced _ c r := do
    let (c, p) ← (c.allocateRegion r.1).toOption
    let e ← Lib.Keyed.lookup RTEntry.tag (c.entries p) (g.getRtTag r.1)
    let l := c.theBlocks (g.getBlockSet r.1 e.way)
    let b ← l.head?
    if (e.state (g.getBlockOffset r.1)).isValid = false ∧
        l.findTag (g.getBlockTag r.1) = none ∧ g.theAssociativity ≤ l.length ∧ b.state.isValid then
      some ⟨b, l, l⟩
    else none

/-! ### The machine of the set-associative array is the component -/

section Component

variable {g : Geometry} (cfg : Config)

/-- **The surroundings of an event**: the caches above answer everything with the type of the event,
and so does the cache below, after its snoops; it takes the blocks that are evicted without any. -/
def around (g : Geometry) (during : List SnoopEvent) (answer : MemoryMessageType) :
    Ports g (StdCache g) where
  getCache := id
  setCache _ c := c
  requestOut c m := do
    let c ← match m.type with
      | .evictClean | .evictWritable | .evictDirty => pure c
      | _ => (stdCache g).snoopsIn cfg c during
    pure (c, answer)
  snoopOutI c _ := .ok (c, answer)
  snoopOutD c _ := .ok (c, answer)

variable (during : List SnoopEvent) (answer : MemoryMessageType)

theorem evict_around (c : StdCache g) (tagset : ℕ) (state : CoherenceState) :
    evict cfg (around cfg g during answer) c tagset state = .ok c := by
  simp only [evict, protocolEvict, sendInvalidate, around, bind, Except.bind, pure, Except.pure,
    if_true]
  split_ifs <;> rfl

theorem allocate_around (c : StdCache g) (r : LookupResult g) (newState : CoherenceState) :
    allocate cfg (around cfg g during answer) c r newState =
      (stdCache g).allocate c r newState := by
  have hevict : evict cfg (around cfg g during answer) = fun c _ _ => .ok c := by
    funext c tagset state
    exact evict_around cfg during answer c tagset state
  rw [allocate, hevict]
  rfl

theorem map_fst_bind {α β φ : Type} (x : Except φ α) (t : β) :
    (x >>= fun s => pure (s, t)).map Prod.fst = x := by
  cases x <;> rfl

theorem map_bind_fst {α β γ φ : Type} (x : Except φ α) (f : α → Except φ (β × γ)) :
    (x >>= f).map Prod.fst = x >>= fun s => (f s).map Prod.fst := by
  cases x <;> rfl

/-- What is asked, and not evicted. -/
def IsAsked (type : MemoryMessageType) : Prop :=
  type ≠ evictClean ∧ type ≠ evictWritable ∧ type ≠ evictDirty

theorem requestOut_around {type : MemoryMessageType} (hm : IsAsked type) (a : ℕ) (c : StdCache g) :
    (around cfg g during answer).requestOut c ⟨type, a⟩ =
      (stdCache g).snoopsIn cfg c during >>= fun c => pure (c, answer) := by
  cases type
  case evictClean => exact absurd rfl hm.1
  case evictWritable => exact absurd rfl hm.2.1
  case evictDirty => exact absurd rfl hm.2.2
  all_goals rfl

theorem send_around {type : MemoryMessageType} (hm : IsAsked type) {a : ℕ} {c : StdCache g}
    {f : StdCache g × MemoryMessageType → Except Fault (StdCache g × MemoryMessageType)}
    {h : StdCache g → Except Fault (StdCache g)} (hf : ∀ c, (f (c, answer)).map Prod.fst = h c) :
    ((around cfg g during answer).requestOut c ⟨type, a⟩ >>= f).map Prod.fst =
      (stdCache g).snoopsIn cfg c during >>= h := by
  rw [requestOut_around cfg during answer hm]
  cases (stdCache g).snoopsIn cfg c during with
  | error => rfl
  | ok c => exact hf c

theorem isAsked_of_sendNAW {t : Bool} {z : CoherenceState} {access : Access}
    {type : MemoryMessageType} (hm : message2access type = .ok access)
    (h : InclusiveMESI.requestAction t z access =
      some (.action .sendNAW false .sameState false .fillDepend)) : IsAsked type := by
  refine ⟨?_, ?_, ?_⟩
  all_goals
    rintro rfl
    cases hm
    cases t <;> cases z <;> cases h

/-- There is code for every entry of the table that is not poison. -/
theorem effect_of_requestAction {t : Bool} {z : CoherenceState} {access : Access}
    {a : RequestAction} (h : InclusiveMESI.requestAction t z access = some a)
    (type answer : MemoryMessageType) :
    a = .poison ∨ requestEffect type answer a ≠ .error .poisonRequest := by
  cases t <;> cases z <;> cases access <;> cases h
  all_goals first
    | exact .inl rfl
    | exact .inr fun h => by cases h
    | refine .inr ?_
      simp only [requestEffect.eq_def]
      split <;> simp

/-- **The code behind an entry** is a wait for the cache below, and the effect of the action. -/
theorem doCoherenceAction_around (c : StdCache g) (r : LookupResult g) (m : MemoryMessage)
    {t : Bool} {z : CoherenceState} {access : Access} {a : RequestAction}
    (h : InclusiveMESI.requestAction t z access = some a)
    (hm : message2access m.type = .ok access) :
    (doCoherenceAction cfg (around cfg g during answer) c r m a).map Prod.fst =
      (stdCache g).snoopsIn cfg c (if a.sends then during else []) >>= fun c =>
        requestEffect m.type answer a >>= (stdCache g).apply c r := by
  have halloc : ∀ (c : StdCache g) (z : CoherenceState) (t : MemoryMessageType),
      (allocate cfg (around cfg g during answer) c r z >>= fun s => pure (s, t)).map Prod.fst =
        (stdCache g).allocate c r z := fun c z t =>
    (map_fst_bind _ _).trans (allocate_around cfg during answer c r z)
  obtain ⟨hup, hread, hwrite, hfetch⟩ :
      IsAsked upgradeReq ∧ IsAsked readReq ∧ IsAsked writeReq ∧ IsAsked fetchReq := by
    simp [IsAsked]
  rw [doCoherenceAction.eq_def]
  split
  case h_3 =>
    rw [requestEffect]
    split <;> rfl
  case h_9 | h_10 | h_13 | h_14 => exact send_around cfg during answer hup fun _ => rfl
  case h_15 =>
    refine send_around cfg during answer hread fun c => ?_
    cases answer
    case missReply => exact halloc c .shared missReply
    case missReplyWritable => exact halloc c .exclusive missReplyWritable
    case missReplyDirty => exact halloc c _ missReplyDirty
    case fwdReplyOwned => exact halloc c .owned missReply
    all_goals rfl
  case h_16 | h_17 => exact send_around cfg during answer hwrite fun c => halloc c _ answer
  case h_18 | h_19 => exact send_around cfg during answer hfetch fun c => halloc c _ missReply
  case h_20 =>
    refine (congrArg (Except.map Prod.fst)
      (requestOut_around cfg during answer (isAsked_of_sendNAW hm h) m.address c)).trans ?_
    exact map_bind_fst _ _
  case h_21 =>
    rcases effect_of_requestAction h m.type answer with rfl | hne
    · rfl
    · refine absurd ?_ hne
      rw [requestEffect.eq_def]
      split <;> simp_all only [imp_false, not_true]
  all_goals rfl

theorem mapError_fault {α : Type} (x : Except Fault α) : x.mapError (stdCache g).fault = x := by
  cases x <;> rfl

/-- **The requests of the component** are those of the machine. -/
theorem requestIn_around (c : StdCache g) (m : MemoryMessage) :
    (requestIn cfg (around cfg g during answer) c m).map Prod.fst =
      (stdCache g).requestIn cfg c m during answer := by
  rw [requestIn]
  cases hm : message2access m.type with
  | error f =>
    rw [AbstractCache.requestIn, AbstractCache.answered, hm]
    rfl
  | ok access =>
    have hl : (stdCache g).lookup c m.address = .ok (c.lookup m.address) := rfl
    generalize hx : c.lookup m.address = x at hl
    obtain ⟨c', r⟩ := x
    have hleft : ((around cfg g during answer).getCache c).lookup m.address = (c', r) := hx
    simp only [bind, Except.bind, hleft]
    cases ha : InclusiveMESI.requestAction cfg.usingTraces (c'.getState r) access with
    | none =>
      have ha' : InclusiveMESI.requestAction cfg.usingTraces ((stdCache g).getState c' r) access =
        none := ha
      rw [AbstractCache.requestIn, AbstractCache.answered, hm, hl]
      simp only [bind, Except.bind, Except.mapError, ha']
      rfl
    | some a =>
      rw [AbstractCache.requestIn_of hm hl ha, mapError_fault]
      exact doCoherenceAction_around cfg during answer c' r m ha hm

/-- The caches above answer as one; a downgrade does not go to the instruction cache. -/
theorem continueSnoop_around (c : StdCache g) (m : MemoryMessage) :
    ∃ t, continueSnoop (around cfg g during answer) c m = .ok (c, t) ∧
      (t = downUpdateAck ↔ answer = downUpdateAck) := by
  rw [continueSnoop]
  by_cases hm : m.type = downgrade
  · refine ⟨if answer = returnNAck ∧ downgrade ≠ returnNAck then downgrade else answer, ?_, ?_⟩
    · rw [if_neg (not_not.mpr hm), hm]
      rfl
    · split
      · rename_i h
        rw [h.1]
        exact ⟨nofun, nofun⟩
      · exact Iff.rfl
  · refine ⟨answer, ?_, Iff.rfl⟩
    rw [if_pos hm]
    exact congrArg (fun t => Except.ok (c, t)) (ite_self answer)

/-- **The code behind an entry of the snoop table** has the effect of the action. -/
theorem doSnoopAction_around (c : StdCache g) (r : LookupResult g) (m : MemoryMessage)
    (a : SnoopAction) :
    (doSnoopAction (around cfg g during answer) c r m a).map Prod.fst =
      snoopEffect answer a >>= (stdCache g).apply c r := by
  obtain ⟨t, hsnoop, ht⟩ := continueSnoop_around cfg during answer c m
  obtain ⟨d, hdown, hd⟩ := continueSnoop_around cfg during answer c ⟨downgrade, m.address⟩
  rw [doSnoopAction.eq_def]
  split
  case h_3 =>
    rw [hdown, snoopEffect]
    simp only [← hd]
    rfl
  case h_4 | h_5 | h_6 =>
    rw [hsnoop, snoopEffect]
    rfl
  case h_7 | h_8 =>
    rw [hsnoop]
    rfl
  case h_9 =>
    rw [hsnoop, snoopEffect]
    simp only [← ht]
    change ((if t = downUpdateAck then _ else _ : Except Fault _).map Prod.fst) = _
    split <;> rfl
  case h_10 =>
    rw [snoopEffect.eq_def]
    split <;> first | rfl | simp_all
  case h_1 | h_2 =>
    rw [snoopEffect]
    rfl

/-- **The snoops of the component** are those of the machine. -/
theorem snoopIn_around (c : StdCache g) (m : MemoryMessage) :
    (snoopIn cfg (around cfg g during answer) c m).map Prod.fst =
      (stdCache g).snoopIn cfg c ⟨m, answer⟩ := by
  rw [snoopIn]
  have hl : (stdCache g).lookup c m.address = .ok (c.lookup m.address) := rfl
  generalize hx : c.lookup m.address = x at hl
  obtain ⟨c', r⟩ := x
  have hleft : ((around cfg g during answer).getCache c).lookup m.address = (c', r) := hx
  simp only [hleft]
  cases ha : InclusiveMESI.snoopAction cfg.snoopLRU (c'.getState r) m.type with
  | none =>
    have ha' : InclusiveMESI.snoopAction cfg.snoopLRU ((stdCache g).getState c' r) m.type =
      none := ha
    rw [AbstractCache.snoopIn, hl]
    simp only [bind, Except.bind, ha']
    rfl
  | some a =>
    rw [AbstractCache.snoopIn_of hl ha, mapError_fault]
    rw [← doSnoopAction_around cfg during answer c' r m a]
    change (doSnoopAction (around cfg g during answer) c' r m a >>= _).map Prod.fst = _
    cases doSnoopAction (around cfg g during answer) c' r m a <;> rfl

/-- The component, between caches that give the answers of the events. -/
def component (g : Geometry) : Lib.Machine (StdCache g) CacheEvent Fault where
  init := .empty g
  step c
    | .request m during answer => (requestIn cfg (around cfg g during answer) c m).map Prod.fst
    | .snoop x => (snoopIn cfg (around cfg g [] x.answer) c x.message).map Prod.fst

/-- **The runs of the component are those of the machine.** -/
theorem component_eq : component cfg g = (stdCache g).machine cfg (.empty g) := by
  refine congrArg (Lib.Machine.mk _) (funext fun c => funext fun e => ?_)
  cases e with
  | request m during answer => exact requestIn_around cfg during answer c m
  | snoop x => exact snoopIn_around cfg [] x.answer c x.message

end Component

end FastCache

end Flexus
