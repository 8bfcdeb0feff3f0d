import Flexus.CMPCache.DirectorySide
import Flexus.CMPCache.Steps

/-!
# Back-invalidations and their answers

A bank (`components/CMPCache/CMPCacheController.cpp`) with a set-associative directory is run
together with what is still to come from the caches above: for each cache that a back-invalidation
has been made for, one `InvalidateAck` or `InvUpdateAck`. In such a run
(`Flexus.CMPCache.Exchange.machine`) requests, evictions, other replies and all steps of the
pipelines may come in any order and with any messages.

The evict buffer of the directory is then in order in every state
(`Flexus.CMPCache.Exchange.bookkept_of_reachable`). So idle work is ready exactly when some entry
requires invalidates, although only the newest entry is looked at; and the controller, which asks
for a back-invalidation only then, gets one.
-/

namespace Flexus

open Lib List

namespace CMPCache

open MemoryMessageType Policy

variable {δ γ : Type}

/-! ### What is to be answered -/

/-- The caches that a message is to invalidate, each with the address. -/
def asked (t : Transport) : List (ℕ × ℕ) :=
  if t.type = backInvalidate then t.dest.multicastList.map fun i => (t.address, i) else []

/-- The answers among the processes of a pipeline. -/
def answersOf (ps : List Process) : List (ℕ × ℕ) :=
  ps.filterMap fun p =>
    if p.type = .reply ∧ isInvalidateAck p.transport.type = true
    then some (p.transport.address, p.transport.dest.other) else none

/-- The back-invalidations among the processes of a pipeline. -/
def askedBy (ps : List Process) : List (ℕ × ℕ) :=
  ps.flatMap fun p =>
    if p.type = .dirEvict ∨ p.type = .idleWork then asked p.transport else []

/-- **A bank and the caches above**: which invalidations they have not answered. -/
structure Exchange (δ γ : Type) where
  bank : Controller δ γ
  unanswered : List (ℕ × ℕ)

namespace Exchange

variable (cfg : Config δ γ) (x : Exchange δ γ)

/-- What is unanswered when an event is taken in. -/
def afterEvent : Controller.Event → List (ℕ × ℕ)
  | .reply t =>
    if isInvalidateAck t.type = true then x.unanswered.erase (t.address, t.dest.other)
    else x.unanswered
  | _ => x.unanswered

/-- **A step of the bank.** What it schedules is to be answered. -/
def step (e : Controller.Event) : Except Fault (Exchange δ γ) :=
  match x.bank.step cfg e with
  | .error f => .error f
  | .ok c => .ok ⟨c, x.afterEvent e ++
      askedBy (c.theMAFPipeline.drop x.bank.theMAFPipeline.length)⟩

/-- An answer answers what has not been answered. -/
def Answers : Controller.Event → Prop
  | .reply t => isInvalidateAck t.type = true → (t.address, t.dest.other) ∈ x.unanswered
  | _ => True

/-- **A bank**, from its start. -/
def machine : Machine (Exchange δ γ) Controller.Event Fault where
  init := ⟨.init cfg, []⟩
  step x e := x.step cfg e

/-- The number of answers to come for a block: those that have not been sent, and those that wait
to be run. -/
def awaited (unanswered : List (ℕ × ℕ)) (pipeline : List Process) (a : ℕ) : ℕ :=
  (unanswered ++ answersOf pipeline).countP fun y => y.1 == a

/-- **The buffer of the directory is kept in order.** -/
structure Bookkept (c : Controller δ γ) : Prop where
  theCurSize : c.policy.theDirEvictBuffer.theCurSize = c.policy.theDirEvictBuffer.entries.length
  thePendingInvalidates : c.policy.theDirEvictBuffer.thePendingInvalidates =
    c.policy.theDirEvictBuffer.entries.countP fun e => decide (e.theInvalidatesSent ≠ 0)
  sharers : ∀ e ∈ c.policy.theDirEvictBuffer.entries, e.theInvalidatesSent = 0 →
    1 ≤ e.state.countSharers
  order : c.policy.theDirEvictBuffer.entries.Pairwise fun older newer =>
    newer.theInvalidatesSent ≠ 0 → older.theInvalidatesSent ≠ 0
  ready : c.policy.theDirEvictBuffer.idleWorkReady = true ↔
    c.policy.theDirEvictBuffer.oldestRequiringInvalidates ≠ none
  /-- `getDirEvictTransport`, when it is scheduled. -/
  scheduled : ∀ c', c.scheduleDirEvict cfg = .ok c' →
    ∀ p ∈ c'.theMAFPipeline.drop c.theMAFPipeline.length, p.transport.type = backInvalidate

theorem awaited_append (u v : List (ℕ × ℕ)) (ps qs : List Process) (a : ℕ) :
    awaited (u ++ v) (ps ++ qs) a = awaited u ps a + awaited v qs a := by
  simp only [awaited, answersOf, filterMap_append, countP_append]
  omega

theorem answersOf_of_ack {p : Process}
    (hp : p.type = .reply ∧ isInvalidateAck p.transport.type = true) :
    answersOf [p] = [(p.transport.address, p.transport.dest.other)] := by
  rw [answersOf, filterMap_cons, if_pos hp]
  rfl

theorem answersOf_of_other {p : Process}
    (hp : ¬(p.type = .reply ∧ isInvalidateAck p.transport.type = true)) : answersOf [p] = [] := by
  rw [answersOf, filterMap_cons, if_neg hp]
  rfl

/-- What a message asks for is to be answered, each cache once. -/
theorem awaited_asked {t : Transport} (ht : t.type = backInvalidate) {a : ℕ} :
    awaited (asked t) [] a = if a = t.address then t.dest.multicastList.length else 0 := by
  rw [awaited, answersOf, filterMap_nil, append_nil, asked, if_pos ht, countP_map]
  split
  · rename_i ha
    rw [ha]
    exact countP_eq_length.mpr fun i _ => beq_self_eq_true _
  · rename_i ha
    exact countP_eq_zero.mpr fun i _ => mt (fun h => (beq_iff_eq.mp h).symm) ha

theorem awaited_erase {u : List (ℕ × ℕ)} {ps : List Process} {y : ℕ × ℕ} (hy : y ∈ u) {p : Process}
    (hp : answersOf [p] = [y]) {a : ℕ} :
    awaited (u.erase y) (ps ++ [p]) a = awaited u ps a := by
  have hperm : (u.erase y ++ answersOf (ps ++ [p])).Perm (u ++ answersOf ps) := by
    have happend : answersOf (ps ++ [p]) = answersOf ps ++ [y] := by
      rw [← hp, answersOf, filterMap_append, answersOf, answersOf]
    rw [happend, ← append_assoc]
    refine (perm_append_singleton y _).trans ?_
    exact (perm_cons_erase hy).symm.append_right _
  exact hperm.countP_eq _

end Exchange

/-! ### The end of a process -/

namespace Controller

variable {g : Geometry} {skewShift : Option ℕ} {cfg : Config DirSets γ} {w w' : ℕ → ℕ}
  {c c' : Controller DirSets γ} {p q : Process} {s s' : Policy DirSets γ}

theorem leaving_wakeMAFs (h : s.Leaving g skewShift w) (hcfg : OverSets g skewShift cfg) (a : ℕ) :
    (s.wakeMAFs cfg a).Leaving g skewShift w := by
  rw [Policy.wakeMAFs]
  split
  · exact h
  · refine h.frame ?_ rfl
    split
    · exact hcfg.quiet_setProtected
    · exact .refl

theorem leaving_wakeEntry (h : c.policy.Leaving g skewShift w) (hwake : c.wakeEntry p = .ok c') :
    c'.policy.Leaving g skewShift w := by
  rw [(wakeEntry_spec hwake).1]
  exact h.congr rfl rfl

theorem leaving_removeEntry (h : c.policy.Leaving g skewShift w)
    (hremove : c.removeEntry p = .ok c') : c'.policy.Leaving g skewShift w := by
  rw [(removeEntry_spec hremove).1]
  exact h.congr rfl rfl

theorem leaving_carryOut (h : c.policy.Leaving g skewShift w) (hcfg : OverSets g skewShift cfg)
    (hcarry : c.carryOut cfg p = .ok (c', q)) : c'.policy.Leaving g skewShift w := by
  have hsend : ∀ {b b' : Controller DirSets γ}, b.policy.Leaving g skewShift w → OnlySends b b' →
      b'.policy.Leaving g skewShift w := by
    intro b b' hb hsends
    rw [hsends.policy]
    exact hb
  rw [carryOut] at hcarry
  split at hcarry
  · exact hsend h (onlySends_sendSnoops hcarry).1
  · exact hsend h (onlySends_sendSnoops hcarry).1
  · cases hcarry
    exact h
  · obtain ⟨⟨c₁, p₁⟩, h₁, hcarry⟩ := exists_of_bind_eq_ok hcarry
    obtain ⟨c₂, h₂, hcarry⟩ := exists_of_bind_eq_ok hcarry
    cases hcarry
    exact hsend (hsend h (onlySends_sendSnoops h₁).1) (onlySends_sendReply h₂)
  · obtain ⟨⟨c₁, p₁⟩, h₁, hcarry⟩ := exists_of_bind_eq_ok hcarry
    obtain ⟨c₂, h₂, hcarry⟩ := exists_of_bind_eq_ok hcarry
    cases hcarry
    exact hsend (hsend h (onlySends_sendSnoops h₁).1) (onlySends_sendReply h₂)
  · obtain ⟨⟨c₁, p₁⟩, h₁, hcarry⟩ := exists_of_bind_eq_ok hcarry
    obtain ⟨c₂, h₂, hcarry⟩ := exists_of_bind_eq_ok hcarry
    cases hcarry
    exact leaving_wakeEntry (hsend h (onlySends_sendSnoops h₁).1) h₂
  · obtain ⟨c₂, h₂, hcarry⟩ := exists_of_bind_eq_ok hcarry
    cases hcarry
    exact leaving_wakeEntry h h₂
  · obtain ⟨c₂, h₂, hcarry⟩ := exists_of_bind_eq_ok hcarry
    cases hcarry
    exact hsend h (onlySends_sendReply h₂)
  · obtain ⟨c₁, h₁, hcarry⟩ := exists_of_bind_eq_ok hcarry
    obtain ⟨c₂, h₂, hcarry⟩ := exists_of_bind_eq_ok hcarry
    cases hcarry
    exact leaving_wakeMAFs (leaving_removeEntry (hsend h (onlySends_sendReply h₁)) h₂) hcfg _
  · obtain ⟨c₂, h₂, hcarry⟩ := exists_of_bind_eq_ok hcarry
    cases hcarry
    exact leaving_removeEntry h h₂
  · obtain ⟨c₂, h₂, hcarry⟩ := exists_of_bind_eq_ok hcarry
    cases hcarry
    exact leaving_wakeMAFs (leaving_removeEntry h h₂) hcfg _
  · cases hcarry
    exact h
  · cases hcarry
    exact h

/-- **A process that ends** leaves the directory side in order. -/
theorem leaving_finalizeProcess (h : c.policy.Leaving g skewShift w)
    (hcfg : OverSets g skewShift cfg) (hend : c.finalizeProcess cfg p = .ok c') :
    c'.policy.Leaving g skewShift w := by
  obtain ⟨⟨c₁, q⟩, h₁, hend⟩ := exists_of_bind_eq_ok hend
  dsimp only at hend
  split at hend
  · cases hend
    exact leaving_carryOut h hcfg h₁
  · cases hend

theorem leaving_advance (h : c.policy.Leaving g skewShift w) (hcfg : OverSets g skewShift cfg)
    (hadvance : c.advance cfg p = .ok c') : c'.policy.Leaving g skewShift w := by
  rw [advance] at hadvance
  split at hadvance
  · cases hadvance
    exact h
  · exact leaving_finalizeProcess h hcfg hadvance

/-! ### A process is run -/

/-- The numbers of answers to come before and after a process is run. -/
def Takes (p : Process) (w w' : ℕ → ℕ) : Prop :=
  if p.type = .reply ∧ isInvalidateAck p.transport.type = true then
    w p.transport.address = w' p.transport.address + 1 ∧
      ∀ a, a ≠ p.transport.address → w' a = w a
  else w' = w

theorem leaving_runRequestProcess (h : c.policy.Leaving g skewShift w)
    (hcfg : OverSets g skewShift cfg) (hrun : c.runRequestProcess cfg p = .ok c') :
    c'.policy.Leaving g skewShift w := by
  obtain ⟨⟨s₁, q₁⟩, h₁, hrun⟩ := exists_of_bind_eq_ok hrun
  have hs₁ := h.doRequest hcfg h₁
  dsimp only at hrun
  split at hrun
  · cases hrun
  · cases hrun
  · obtain ⟨⟨s₂, q₂⟩, h₂, hrun⟩ := exists_of_bind_eq_ok hrun
    obtain ⟨⟨s₃, q₃⟩, h₃, hrun⟩ := exists_of_bind_eq_ok hrun
    have hs₃ := (hs₁.rests (unreserveEB_spec h₂).2.1).rests (unreserveMAF_spec h₃).2.1
    exact leaving_advance (c := { c with policy := s₃ }) hs₃ hcfg hrun

theorem leaving_handleReply (h : s.Leaving g skewShift w) (hcfg : OverSets g skewShift cfg)
    (hp : p.type = .reply) (hw : Takes p w w') (hreply : s.handleReply cfg p = .ok (s', q)) :
    s'.Leaving g skewShift w' := by
  rw [Takes] at hw
  cases hack : isInvalidateAck p.transport.type with
  | false =>
    rw [if_neg (by rw [hack]; exact fun hc => Bool.false_ne_true hc.2)] at hw
    rw [hw]
    exact h.handleReply hcfg hreply hack
  | true =>
    rw [if_pos ⟨hp, hack⟩] at hw
    rw [handleReply_of_ack hack] at hreply
    exact h.handleInvalidateAck hw.1 hw.2 hreply

theorem leaving_runReplyProcess (h : c.policy.Leaving g skewShift w)
    (hcfg : OverSets g skewShift cfg) (hp : p.type = .reply) (hw : Takes p w w')
    (hrun : c.runReplyProcess cfg p = .ok c') : c'.policy.Leaving g skewShift w' := by
  obtain ⟨⟨s₁, q₁⟩, h₁, hrun⟩ := exists_of_bind_eq_ok hrun
  have hs₁ := leaving_handleReply h hcfg hp hw h₁
  -- room is given back first, by the actions that do not go on to write
  have hfree : ∀ {q : Process}, (do
      let (s, q) ← unreserveEB cfg s₁ q
      advance cfg { c with policy := s } q) = .ok c' → c'.policy.Leaving g skewShift w' := by
    intro q hq
    obtain ⟨⟨s₂, q₂⟩, h₂, hq⟩ := exists_of_bind_eq_ok hq
    exact leaving_advance (c := { c with policy := s₂ }) (hs₁.rests (unreserveEB_spec h₂).2.1)
      hcfg hq
  dsimp only at hrun
  split at hrun
  · exact leaving_advance (c := { c with policy := s₁ }) hs₁ hcfg hrun
  · exact leaving_advance (c := { c with policy := s₁ }) hs₁ hcfg hrun
  · exact hfree hrun
  · exact hfree hrun
  · exact hfree hrun
  · exact hfree hrun
  · exact hfree hrun
  · exact hfree hrun
  · cases hrun

theorem leaving_runWakeMAFProcess (h : c.policy.Leaving g skewShift w)
    (hcfg : OverSets g skewShift cfg) (hrun : c.runWakeMAFProcess cfg p = .ok c') :
    c'.policy.Leaving g skewShift w := by
  obtain ⟨⟨s₁, q₁⟩, h₁, hrun⟩ := exists_of_bind_eq_ok hrun
  have hs₁ := h.doRequest hcfg h₁
  have hfree : ∀ {b : Controller DirSets γ} {q : Process}, b.policy.Leaving g skewShift w →
      (do
        let (s, q) ← unreserveEB cfg b.policy q
        advance cfg { b with policy := s } q) = .ok c' → c'.policy.Leaving g skewShift w := by
    intro b q hb hq
    obtain ⟨⟨s₂, q₂⟩, h₂, hq⟩ := exists_of_bind_eq_ok hq
    exact leaving_advance (c := { b with policy := s₂ }) (hb.rests (unreserveEB_spec h₂).2.1)
      hcfg hq
  dsimp only at hrun
  split at hrun
  iterate 8 exact hfree (b := { c with policy := s₁ }) hs₁ hrun
  · obtain ⟨c₂, h₂, hrun⟩ := exists_of_bind_eq_ok hrun
    exact hfree (leaving_removeEntry (c := { c with policy := s₁ }) hs₁ h₂) hrun
  · cases hrun

theorem leaving_runDirEvictProcess (h : c.policy.Leaving g skewShift w)
    (hcfg : OverSets g skewShift cfg) (hrun : c.runDirEvictProcess cfg p = .ok c') :
    c'.policy.Leaving g skewShift w := by
  obtain ⟨q, -, hrun⟩ := exists_of_bind_eq_ok hrun
  exact leaving_finalizeProcess h hcfg hrun

theorem leaving_runIdleWorkProcess (h : c.policy.Leaving g skewShift w)
    (hcfg : OverSets g skewShift cfg) (hrun : c.runIdleWorkProcess cfg p = .ok c') :
    c'.policy.Leaving g skewShift w := by
  obtain ⟨⟨s₁, q₁⟩, h₁, hrun⟩ := exists_of_bind_eq_ok hrun
  obtain ⟨⟨s₂, q₂⟩, h₂, hrun⟩ := exists_of_bind_eq_ok hrun
  have hs₂ := (h.rests (handleIdleWork_spec h₁).2.1).rests (unreserveEB_spec h₂).2.1
  have hadvance : ∀ {r : Process},
      advance cfg { c with policy := s₂, theIdleWorkScheduled := false } r = .ok c' →
        c'.policy.Leaving g skewShift w :=
    leaving_advance (c := { c with policy := s₂, theIdleWorkScheduled := false }) hs₂ hcfg
  dsimp only at hrun
  split at hrun
  · exact hadvance hrun
  · exact hadvance hrun
  · cases hrun

/-- **A process that is run** takes an answer, if it is one. -/
theorem leaving_runProcess (h : c.policy.Leaving g skewShift w) (hcfg : OverSets g skewShift cfg)
    (hw : Takes p w w') (hrun : c.runProcess cfg p = .ok c') :
    c'.policy.Leaving g skewShift w' := by
  have hsame : p.type ≠ .reply → w' = w := by
    intro hp
    rw [Takes, if_neg fun hc => hp hc.1] at hw
    exact hw
  rw [runProcess] at hrun
  split at hrun
  all_goals rename_i hp
  · rw [hsame (by rw [hp]; decide)]
    exact leaving_runWakeMAFProcess h hcfg hrun
  · rw [hsame (by rw [hp]; decide)]
    exact leaving_finalizeProcess h hcfg hrun
  · rw [hsame (by rw [hp]; decide)]
    exact leaving_runDirEvictProcess h hcfg hrun
  · exact leaving_runReplyProcess h hcfg hp hw hrun
  · cases hrun
  · rw [hsame (by rw [hp]; decide)]
    exact leaving_runRequestProcess h hcfg hrun
  · rw [hsame (by rw [hp]; decide)]
    exact leaving_runIdleWorkProcess h hcfg hrun

/-! ### A process is scheduled -/

open Exchange

/-- **What is scheduled**, no answer among it: what it asks for is to come. -/
def Queued (g : Geometry) (skewShift : Option ℕ) (w : ℕ → ℕ) (c c' : Controller DirSets γ) : Prop :=
  ∃ ps, c'.theMAFPipeline = c.theMAFPipeline ++ ps ∧ answersOf ps = [] ∧
    c'.policy.Leaving g skewShift fun a => w a + awaited (askedBy ps) [] a

theorem queued_of_policy (h : c'.policy.Leaving g skewShift w)
    (hqueue : c'.theMAFPipeline = c.theMAFPipeline) : Queued g skewShift w c c' :=
  ⟨[], by rw [hqueue, append_nil], rfl, h⟩

theorem queued_enqueue (h : s.Leaving g skewShift w)
    (hp : p.type ≠ .reply ∧ p.type ≠ .dirEvict ∧ p.type ≠ .idleWork) :
    Queued g skewShift w c (c.enqueue (s, p)) := by
  have hanswers : answersOf [p] = [] := answersOf_of_other fun hc => hp.1 hc.1
  have hasked : askedBy [p] = [] := by
    rw [askedBy, flatMap_singleton, if_neg fun hc => hc.elim hp.2.1 hp.2.2]
  refine ⟨[p], rfl, hanswers, ?_⟩
  rw [hasked]
  exact h

/-- A process with the next back-invalidation, or with nothing to send. -/
theorem queued_idleWork (h : c.policy.Leaving g skewShift w)
    (hp : p.type = .dirEvict ∨ p.type = .idleWork)
    (ht : p.transport = (c.policy.getIdleWorkTransport cfg).2) {n : ℕ}
    (hreserve : reserveCacheEB cfg (c.policy.getIdleWorkTransport cfg).1 p n = .ok (s', q)) :
    Queued g skewShift w c (c.enqueue (s', q)) := by
  obtain ⟨-, hr, hq⟩ := reserveCacheEB_spec hreserve
  have hanswers : answersOf [q] = [] := by
    refine answersOf_of_other fun hc => ?_
    have hreply := hc.1
    rw [hq] at hreply
    rcases hp with hp | hp <;> cases hp.symm.trans hreply
  have hasked : askedBy [q] = asked (c.policy.getIdleWorkTransport cfg).2 := by
    rw [askedBy, flatMap_singleton, hq, if_pos hp, ← ht]
  refine ⟨[q], rfl, hanswers, Leaving.rests ?_ hr⟩
  rw [hasked]
  cases he : c.policy.theDirEvictBuffer.oldestRequiringInvalidates with
  | none =>
    obtain ⟨hs, htype⟩ := getIdleWorkTransport_of_none cfg he
    rw [hs, asked, htype]
    exact h
  | some e =>
    obtain ⟨htype, haddress, hlist⟩ := getIdleWorkTransport_of_some cfg he
    refine h.getIdleWorkTransport he ?_ fun a ha => ?_
    · rw [awaited_asked htype, haddress, if_pos rfl, hlist]
    · rw [awaited_asked htype, haddress, if_neg ha, Nat.add_zero]

theorem queued_scheduleRequest (h : c.policy.Leaving g skewShift w) {t : Transport}
    (hstep : c.scheduleRequest cfg t = .ok c') : Queued g skewShift w c c' := by
  rw [scheduleRequest] at hstep
  split at hstep
  · obtain ⟨⟨s₁, q₁⟩, h₁, hstep⟩ := exists_of_bind_eq_ok hstep
    obtain ⟨⟨s₂, q₂⟩, h₂, hstep⟩ := exists_of_bind_eq_ok hstep
    cases hstep
    obtain ⟨-, hr₁, hq₁⟩ := reserveEB_spec h₁
    obtain ⟨-, hr₂, hq₂⟩ := reserveMAF_spec h₂
    have htype : q₂.type = .request := by rw [hq₂, hq₁]
    exact queued_enqueue ((h.rests hr₁).rests hr₂) (by rw [htype]; decide)
  · cases hstep
    exact queued_of_policy h rfl

theorem queued_scheduleSnoop (h : c.policy.Leaving g skewShift w) {t : Transport}
    (hstep : c.scheduleSnoop cfg t = .ok c') : Queued g skewShift w c c' := by
  rw [scheduleSnoop] at hstep
  split at hstep
  · cases hstep
    exact queued_of_policy h rfl
  · obtain ⟨⟨s₁, q₁⟩, h₁, hstep⟩ := exists_of_bind_eq_ok hstep
    cases hstep
    obtain ⟨-, hr, hq⟩ := reserveMAF_spec h₁
    have htype : q₁.type = .snoop := by rw [hq]
    exact queued_enqueue (h.rests hr) (by rw [htype]; decide)

theorem queued_scheduleWakeMAF (h : c.policy.Leaving g skewShift w)
    (hstep : c.scheduleWakeMAF cfg = .ok c') : Queued g skewShift w c c' := by
  rw [scheduleWakeMAF] at hstep
  split at hstep
  · cases hstep
    exact queued_of_policy h rfl
  · rename_i i hi
    split at hstep
    · cases hstep
      exact queued_of_policy h rfl
    · split at hstep
      · obtain ⟨⟨s₁, q₁⟩, h₁, hstep⟩ := exists_of_bind_eq_ok hstep
        cases hstep
        have hmaf :
            { c.policy with theMAF := c.policy.theMAF.toPipeline i }.Leaving g skewShift w :=
          h.congr rfl rfl
        obtain ⟨-, hr, hq⟩ := reserveEB_spec h₁
        have htype : q₁.type = .wakeMAF := by rw [hq]
        exact queued_enqueue (hmaf.rests hr) (by rw [htype]; decide)
      · cases hstep
        exact queued_of_policy h rfl

theorem queued_scheduleCacheEvict (h : c.policy.Leaving g skewShift w)
    (hstep : c.scheduleCacheEvict cfg = .ok c') : Queued g skewShift w c c' := by
  rw [scheduleCacheEvict] at hstep
  split at hstep
  · obtain ⟨⟨s₁, t⟩, h₁, hstep⟩ := exists_of_bind_eq_ok hstep
    cases hstep
    exact queued_enqueue (h.rests (rests_getCacheEvictTransport h₁).2) (by simp)
  · cases hstep
    exact queued_of_policy h rfl

theorem queued_scheduleDirEvict (h : c.policy.Leaving g skewShift w)
    (hstep : c.scheduleDirEvict cfg = .ok c') : Queued g skewShift w c c' := by
  rw [scheduleDirEvict] at hstep
  split at hstep
  · obtain ⟨⟨s₁, q₁⟩, h₁, hstep⟩ := exists_of_bind_eq_ok hstep
    cases hstep
    exact queued_idleWork h (.inl rfl) rfl h₁
  · cases hstep
    exact queued_of_policy h rfl

theorem queued_scheduleIdleWork (h : c.policy.Leaving g skewShift w)
    (hstep : c.scheduleIdleWork cfg = .ok c') : Queued g skewShift w c c' := by
  rw [scheduleIdleWork] at hstep
  split at hstep
  · obtain ⟨⟨s₁, q₁⟩, h₁, hstep⟩ := exists_of_bind_eq_ok hstep
    cases hstep
    exact queued_idleWork h (.inr rfl) rfl h₁
  · cases hstep
    exact queued_of_policy h rfl

theorem queued_advanceDirTagPipeline (h : c.policy.Leaving g skewShift w)
    (hcfg : OverSets g skewShift cfg) (hstep : c.advanceDirTagPipeline cfg = .ok c') :
    Queued g skewShift w c c' := by
  rw [advanceDirTagPipeline] at hstep
  split at hstep
  · cases hstep
    exact queued_of_policy h rfl
  · rename_i p rest hc
    have hend : ∀ {c₂ : Controller DirSets γ},
        finalizeProcess cfg { c with theDirTagPipeline := rest } p = .ok c₂ →
          Queued g skewShift w c c₂ := fun h₂ => queued_of_policy
      (leaving_finalizeProcess (c := { c with theDirTagPipeline := rest }) h hcfg h₂)
      (ended_finalizeProcess h₂).mafPipeline
    dsimp only at hstep
    split at hstep
    · split at hstep
      · obtain ⟨c₂, h₂, hstep⟩ := exists_of_bind_eq_ok hstep
        cases hstep
        obtain ⟨ps, hqueue, hanswers, hleaving⟩ := hend h₂
        exact ⟨ps, hqueue, hanswers, hleaving⟩
      · cases hstep
        exact queued_of_policy h rfl
    · exact hend hstep

theorem queued_advanceDataPipeline (h : c.policy.Leaving g skewShift w)
    (hcfg : OverSets g skewShift cfg) (hstep : c.advanceDataPipeline cfg = .ok c') :
    Queued g skewShift w c c' := by
  rw [advanceDataPipeline] at hstep
  split at hstep
  · cases hstep
    exact queued_of_policy h rfl
  · rename_i p rest hc
    dsimp only at hstep
    split at hstep
    · cases hstep
      exact queued_of_policy h rfl
    · exact queued_of_policy
        (leaving_finalizeProcess (c := { c with theDataPipeline := rest }) h hcfg hstep)
        (ended_finalizeProcess hstep).mafPipeline

/-- **A step that is no reply and runs nothing** schedules at most a process that asks. -/
theorem queued_step (h : c.policy.Leaving g skewShift w) (hcfg : OverSets g skewShift cfg)
    {e : Event} (hreply : ∀ t, e ≠ .reply t) (hrun : e ≠ .runMAF) (hstep : c.step cfg e = .ok c') :
    Queued g skewShift w c c' := by
  cases e with
  | request t => exact queued_scheduleRequest h hstep
  | reply t => exact absurd rfl (hreply t)
  | snoop t => exact queued_scheduleSnoop h hstep
  | wakeMAF => exact queued_scheduleWakeMAF h hstep
  | cacheEvict => exact queued_scheduleCacheEvict h hstep
  | dirEvict => exact queued_scheduleDirEvict h hstep
  | idleWork => exact queued_scheduleIdleWork h hstep
  | runMAF => exact absurd rfl hrun
  | runDirTag => exact queued_advanceDirTagPipeline h hcfg hstep
  | runData => exact queued_advanceDataPipeline h hcfg hstep

/-- The answers that are left when the process at the head of the queue is run. -/
theorem takes_awaited {u : List (ℕ × ℕ)} {rest : List Process} :
    Takes p (awaited u (p :: rest)) (awaited u rest) := by
  have hcons : ∀ a, awaited u (p :: rest) a = awaited [] [p] a + awaited u rest a :=
    awaited_append [] u [p] rest
  rw [Takes]
  split
  · rename_i hp
    have hone : ∀ a, awaited [] [p] a = if p.transport.address = a then 1 else 0 := by
      intro a
      rw [awaited, answersOf_of_ack hp, nil_append, countP_singleton]
      simp only [beq_iff_eq]
    refine ⟨?_, fun a ha => ?_⟩
    · rw [hcons, hone, if_pos rfl, Nat.add_comm]
    · rw [hcons, hone, if_neg fun heq => ha heq.symm, Nat.zero_add]
  · rename_i hp
    have hzero : ∀ a, awaited [] [p] a = 0 := by
      intro a
      rw [awaited, answersOf_of_other hp]
      rfl
    funext a
    rw [hcons, hzero, Nat.zero_add]

theorem leaving_advanceMAFPipeline {u : List (ℕ × ℕ)}
    (h : c.policy.Leaving g skewShift (awaited u c.theMAFPipeline))
    (hcfg : OverSets g skewShift cfg) (hstep : c.advanceMAFPipeline cfg = .ok c') :
    c'.policy.Leaving g skewShift (awaited u c'.theMAFPipeline) ∧
      c'.theMAFPipeline.length ≤ c.theMAFPipeline.length := by
  rw [advanceMAFPipeline] at hstep
  split at hstep
  · cases hstep
    exact ⟨h, le_rfl⟩
  · rename_i p rest hc
    obtain ⟨t, q, hran, hadvances⟩ := runProcess_spec hstep
    have hqueue : c'.theMAFPipeline = rest := by
      rcases hadvances with rfl | hend
      · exact hran.mafPipeline
      · exact (ended_finalizeProcess hend).mafPipeline.trans hran.mafPipeline
    rw [hqueue, hc]
    refine ⟨leaving_runProcess (c := { c with theMAFPipeline := rest }) (hc ▸ h) hcfg ?_ hstep,
      Nat.le_succ _⟩
    exact takes_awaited

end Controller

/-! ### A run -/

namespace Exchange

variable {g : Geometry} {skewShift : Option ℕ} {cfg : Config DirSets γ} {x x' : Exchange DirSets γ}

/-- **The invariant of a run**: the directory side is in order for the answers still to come. -/
def InOrder (g : Geometry) (skewShift : Option ℕ) (x : Exchange DirSets γ) : Prop :=
  x.bank.policy.Leaving g skewShift (awaited x.unanswered x.bank.theMAFPipeline)

theorem inOrder_init (hcfg : OverSets g skewShift cfg) :
    InOrder g skewShift (machine cfg).init where
  directory := by
    obtain ⟨start, htame, heq⟩ := hcfg.directory
    have hstart : (machine cfg).init.bank.policy.theDirectory = cfg.directory.init := rfl
    rw [hstart, heq]
    exact htame
  buffer := DirEvictBuffer.sound_init
  apart _ he := absurd he not_mem_nil

theorem inOrder_of_queued {c' : Controller DirSets γ} (hqueued :
      Controller.Queued g skewShift (awaited x.unanswered x.bank.theMAFPipeline) x.bank c') :
    InOrder g skewShift ⟨c', x.unanswered ++
      askedBy (c'.theMAFPipeline.drop x.bank.theMAFPipeline.length)⟩ := by
  obtain ⟨ps, hqueue, hanswers, hleaving⟩ := hqueued
  have hawaited : awaited (x.unanswered ++ askedBy ps) (x.bank.theMAFPipeline ++ ps) =
      fun a => awaited x.unanswered x.bank.theMAFPipeline a + awaited (askedBy ps) [] a := by
    funext a
    have hnone : awaited (askedBy ps) ps a = awaited (askedBy ps) [] a := by
      rw [awaited, hanswers]
      rfl
    rw [awaited_append, hnone]
  rw [InOrder, hqueue, drop_left, hawaited]
  exact hleaving

theorem inOrder_reply (h : InOrder g skewShift x) {t : Transport}
    (hanswers : x.Answers (.reply t)) :
    InOrder g skewShift ⟨x.bank.scheduleReply t, x.afterEvent (.reply t) ++
      askedBy ((x.bank.scheduleReply t).theMAFPipeline.drop x.bank.theMAFPipeline.length)⟩ := by
  have hqueue : (x.bank.scheduleReply t).theMAFPipeline =
      x.bank.theMAFPipeline ++ [{ type := .reply, transport := t }] := rfl
  have hawaited : awaited (x.afterEvent (.reply t) ++ askedBy [{ type := .reply, transport := t }])
      (x.bank.theMAFPipeline ++ [{ type := .reply, transport := t }]) =
        awaited x.unanswered x.bank.theMAFPipeline := by
    have hasked : askedBy [{ type := .reply, transport := t }] = [] := rfl
    funext a
    rw [hasked, append_nil, afterEvent]
    split
    · rename_i hack
      exact awaited_erase (hanswers hack) (answersOf_of_ack ⟨rfl, hack⟩)
    · rename_i hack
      have hnone : answersOf [{ type := .reply, transport := t }] = [] :=
        answersOf_of_other fun hc => hack hc.2
      have happend := awaited_append x.unanswered [] x.bank.theMAFPipeline
        [{ type := .reply, transport := t }] a
      rw [append_nil] at happend
      rw [happend, awaited, awaited, hnone]
      rfl
  rw [InOrder, hqueue, drop_left, hawaited]
  exact h

/-- **A step keeps the directory side in order.** -/
theorem inOrder_step (hcfg : OverSets g skewShift cfg) (h : InOrder g skewShift x)
    {e : Controller.Event} (hanswers : x.Answers e) (hstep : x.step cfg e = .ok x') :
    InOrder g skewShift x' := by
  rw [step] at hstep
  split at hstep
  · cases hstep
  · rename_i c' hc'
    cases hstep
    by_cases hreply : ∃ t, e = .reply t
    · obtain ⟨t, rfl⟩ := hreply
      cases hc'
      exact inOrder_reply h hanswers
    · have hafter : x.afterEvent e = x.unanswered := by
        cases e with
        | reply t => exact absurd ⟨t, rfl⟩ hreply
        | _ => rfl
      rw [hafter]
      by_cases hrun : e = .runMAF
      · subst hrun
        obtain ⟨hleaving, hlength⟩ := Controller.leaving_advanceMAFPipeline h hcfg hc'
        rw [drop_of_length_le hlength]
        rw [InOrder, askedBy, flatMap_nil, append_nil]
        exact hleaving
      · have hother : ∀ t, e ≠ .reply t := fun t ht => hreply ⟨t, ht⟩
        exact inOrder_of_queued (Controller.queued_step h hcfg hother hrun hc')

theorem InOrder.bookkept (h : InOrder g skewShift x) : Bookkept cfg x.bank where
  theCurSize := h.buffer.theCurSize
  thePendingInvalidates := h.buffer.thePendingInvalidates
  sharers e he hidle := by
    have hne := h.buffer.sharers e he (DirEBEntry.pending_eq_false.mpr hidle)
    exact Finset.card_pos.mpr (Finset.nonempty_iff_ne_empty.mpr hne)
  order := h.buffer.order.imp fun hpair hnewer =>
    of_decide_eq_true (hpair (decide_eq_true hnewer))
  ready := h.buffer.idleWorkReady_iff
  scheduled c' hschedule p hp := by
    rw [Controller.scheduleDirEvict] at hschedule
    split at hschedule
    · rename_i hcond
      obtain ⟨⟨s₁, q₁⟩, h₁, hschedule⟩ := exists_of_bind_eq_ok hschedule
      cases hschedule
      have hready : x.bank.policy.theDirEvictBuffer.idleWorkReady = true := by
        simp only [Bool.and_eq_true] at hcond
        exact hcond.1.2
      obtain ⟨e, he⟩ := Option.ne_none_iff_exists'.mp (h.buffer.idleWorkReady_iff.mp hready)
      rw [Controller.enqueue, drop_left, mem_singleton] at hp
      rw [hp, (Controller.reserveCacheEB_spec h₁).2.2]
      exact (getIdleWorkTransport_of_some cfg he).1
    · cases hschedule
      rw [drop_length] at hp
      cases hp

/-- **In every run** in which each answer answers a back-invalidation, the buffer of the directory
is kept in order. -/
theorem bookkept_of_reachable (hcfg : OverSets g skewShift cfg)
    (h : (machine cfg).ReachableWhen Answers x) : Bookkept cfg x.bank :=
  InOrder.bookkept (h.invariant (I := InOrder g skewShift) (inOrder_init hcfg)
    fun _ _ _ hx hanswers hstep => inOrder_step hcfg hx hanswers hstep)

/-- A bank for two caches, with one way in the directory and room for one victim. -/
def oneWayBank : Config DirSets (ℕ → ArraySet) where
  theCores := 2
  theNodeId := 0
  theBlockSize := 64
  theMAFSize := 8
  theDirEBSize := 1
  theCacheEBSize := 4
  theEvictClean := false
  directory := stdDirectory ⟨1, 1, 64, 1, 64, 1, 64⟩ 2
  array := stdArray ⟨1, 1, 64, 1, 64, 1, 64⟩

theorem overSets_oneWayBank : OverSets ⟨1, 1, 64, 1, 64, 1, 64⟩ none oneWayBank where
  directory := ⟨_, DirSets.tame_emptySets, (directoryOf_none _ _).symm⟩
  blockAddress := rfl
  blockSize := ⟨6, rfl⟩

/-- A cache reads a block, and another reads one that takes its way in the directory. The first is
asked for its copy, and its answer is queued. -/
def victimAnswered : List Controller.Event :=
  readMiss 0 0 ++ [.request (message readReq 64 1), .runMAF, .runDirTag, .dirEvict, .runMAF,
    .reply { type := invalidateAck, address := 0
             dest := { type := .directory, requester := 0, other := 0 } }]

theorem reachable_of_victimAnswered {x : Exchange DirSets _}
    (hx : (machine oneWayBank).run victimAnswered = .ok x) :
    (machine oneWayBank).ReachableWhen Answers x := by
  refine Machine.reachableWhen_of_run (g := fun y e => match e with
    | .reply t => !isInvalidateAck t.type || y.unanswered.contains (t.address, t.dest.other)
    | _ => true) (fun y e hg => ?_) (by decide) hx
  cases e with
  | reply t =>
    intro hack
    dsimp only at hg
    rw [hack] at hg
    exact contains_iff_mem.mp hg
  | _ => trivial

theorem bookkept_of_victimAnswered : ∃ x, (machine oneWayBank).run victimAnswered = .ok x ∧
    x.bank.policy.theDirEvictBuffer.thePendingInvalidates = 1 ∧ Bookkept oneWayBank x.bank := by
  have hends : (machine oneWayBank).endsIn (fun x =>
      x.bank.policy.theDirEvictBuffer.thePendingInvalidates == 1) victimAnswered = true := by
    decide
  obtain ⟨x, hx, htest⟩ := Machine.exists_of_endsIn hends
  have hreach := reachable_of_victimAnswered hx
  exact ⟨x, hx, beq_iff_eq.mp htest, bookkept_of_reachable overSets_oneWayBank hreach⟩

/-- **No answer is lost**, in every such run: an entry waits for as many answers as have not been
sent or wait to be run, so that an answer that is run finds the entry it is for. What waits in the
buffer has no way in the directory. -/
theorem awaited_of_reachable (hcfg : OverSets g skewShift cfg)
    (h : (machine cfg).ReachableWhen Answers x) :
    (∀ a, (x.bank.policy.theDirEvictBuffer.sent a).getD 0 =
      awaited x.unanswered x.bank.theMAFPipeline a) ∧
    (∀ p ∈ x.bank.theMAFPipeline, p.type = .reply → isInvalidateAck p.transport.type = true →
      ∃ n, x.bank.policy.theDirEvictBuffer.sent p.transport.address = some n ∧ 0 < n) ∧
    ∀ e ∈ x.bank.policy.theDirEvictBuffer.entries,
      x.bank.policy.theDirectory.Absent g skewShift e.address := by
  have hx : InOrder g skewShift x := h.invariant (I := InOrder g skewShift) (inOrder_init hcfg)
    fun _ _ _ hx hanswers hstep => inOrder_step hcfg hx hanswers hstep
  refine ⟨hx.buffer.awaited, fun p hp htype hack => ?_, hx.apart⟩
  have hpos : 0 < awaited x.unanswered x.bank.theMAFPipeline p.transport.address :=
    countP_pos_iff.mpr ⟨(p.transport.address, p.transport.dest.other),
      mem_append_right _ (mem_filterMap.mpr ⟨p, hp, if_pos ⟨htype, hack⟩⟩),
      beq_self_eq_true _⟩
  have hcount := hx.buffer.awaited p.transport.address
  cases hsent : x.bank.policy.theDirEvictBuffer.sent p.transport.address with
  | none =>
    rw [hsent, Option.getD_none] at hcount
    omega
  | some n =>
    rw [hsent, Option.getD_some] at hcount
    exact ⟨n, rfl, by omega⟩

theorem awaited_of_victimAnswered : ∃ x, (machine oneWayBank).run victimAnswered = .ok x ∧
    x.bank.policy.theDirEvictBuffer.sent 0 = some 1 ∧
    awaited x.unanswered x.bank.theMAFPipeline 0 = 1 := by
  have hends : (machine oneWayBank).endsIn (fun x =>
      x.bank.policy.theDirEvictBuffer.sent 0 == some 1) victimAnswered = true := by decide
  obtain ⟨x, hx, htest⟩ := Machine.exists_of_endsIn hends
  have hsent := beq_iff_eq.mp htest
  have hcount := (awaited_of_reachable overSets_oneWayBank (reachable_of_victimAnswered hx)).1 0
  rw [hsent] at hcount
  exact ⟨x, hx, hsent, (Int.ofNat.inj hcount).symm⟩

end Exchange

end CMPCache

end Flexus
