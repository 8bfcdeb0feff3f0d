import Flexus.CMPCache.Controller
import Flexus.CMPCache.Owing

/-!
# What a step of a bank does

The steps of the controller, reduced to what the wake-ups of a bank depend on: the
table of waits, the evictions on their way, and the processes that are queued or in
flight. A process that is run takes a decision and discharges evictions
(`Flexus.CMPCache.Controller.Ran`); it then goes in flight, or is finalized at once. A
process that is finalized carries its decision out
(`Flexus.CMPCache.Controller.Ended`). Scheduling a process touches neither, but for the
woken entry it may take along.
-/

namespace Flexus

open Lib

namespace CMPCache

open MemoryMessageType

variable {δ γ : Type} {cfg : Config δ γ}

/-- A request, taken in or woken. -/
def Process.isRequest (p : Process) : Bool := p.type == .request || p.type == .wakeMAF

/-- One of the messages that finish a request. -/
def Process.finishes (p : Process) : Bool :=
  p.type == .reply && Policy.finishes p.transport.type

namespace Controller

/-- The processes that have been run and not been finalized. -/
def flight (c : Controller δ γ) : List Process :=
  c.theDirTagPipeline ++ c.theDataPipeline.filter fun p => !p.transmitAfterTag

variable {c c' : Controller δ γ} {p q : Process} {s s' : Policy δ γ}

/-! ### The end of a process -/

/-- **What a process that ends leaves behind.** -/
structure Ended (cfg : Config δ γ) (c : Controller δ γ) (p : Process) (c' : Controller δ γ) :
    Prop where
  mafPipeline : c'.theMAFPipeline = c.theMAFPipeline
  dirTagPipeline : c'.theDirTagPipeline = c.theDirTagPipeline
  dataPipeline : c'.theDataPipeline = c.theDataPipeline
  dirEB : c'.policy.theDirEvictBuffer = c.policy.theDirEvictBuffer
  cacheEB : c'.policy.theCacheEvictBuffer = c.policy.theCacheEvictBuffer
  waits : Finalizes cfg.directory.sameSet c.policy.waits p c'.policy.waits

/-- Nothing has happened but that messages have been sent. -/
structure OnlySends (c c' : Controller δ γ) : Prop where
  policy : c'.policy = c.policy
  mafPipeline : c'.theMAFPipeline = c.theMAFPipeline
  dirTagPipeline : c'.theDirTagPipeline = c.theDirTagPipeline
  dataPipeline : c'.theDataPipeline = c.theDataPipeline

theorem onlySends_sendSnoops (h : c.sendSnoops p = .ok (c', q)) :
    OnlySends c c' ∧ q.maf = p.maf ∧ q.transport = p.transport ∧ q.action = p.action := by
  rw [sendSnoops] at h
  split at h
  · cases h
  · cases h
    exact ⟨⟨rfl, rfl, rfl, rfl⟩, rfl, rfl, rfl⟩

theorem onlySends_sendReply (h : c.sendReply p = .ok c') : OnlySends c c' := by
  rw [sendReply] at h
  split at h
  · cases h
  · cases h
    exact ⟨rfl, rfl, rfl, rfl⟩

theorem wakeEntry_spec (h : c.wakeEntry p = .ok c') :
    c' = { c with policy := { c.policy with theMAF := c'.policy.theMAF } } ∧
      ∃ i w, p.maf = some i ∧ c.policy.waits.entry i = some w ∧
        c'.policy.waits = c.policy.waits.wake fun j v =>
          decide (j = i ∨ (v.address = w.address ∧ v.state = .waitRequest)) := by
  rw [wakeEntry] at h
  split at h
  · cases h
  · rename_i i hi
    split at h
    · cases h
    · rename_i m hm
      cases h
      obtain ⟨w, hw, hwake⟩ := MissAddressFile.waits_wakeAfterEvict hm
      exact ⟨rfl, i, w, hi, hw, hwake⟩

theorem removeEntry_spec (h : c.removeEntry p = .ok c') :
    c' = { c with policy := { c.policy with theMAF := c'.policy.theMAF } } ∧
      ∃ i w, p.maf = some i ∧ c.policy.waits.entry i = some w ∧
        c'.policy.waits = c.policy.waits.erase i := by
  rw [removeEntry] at h
  split at h
  · cases h
  · rename_i i hi
    split at h
    · cases h
    · rename_i m hm
      cases h
      obtain ⟨⟨w, hw⟩, herase⟩ := MissAddressFile.waits_remove hm
      exact ⟨rfl, i, w, hi, hw, herase⟩

/-- Requests are woken unless another one of the block is active. -/
theorem wakeMAFs_spec (cfg : Config δ γ) (s : Policy δ γ) (a : ℕ) :
    ((∃ j v, s.waits.entry j = some v ∧ v.address = a ∧ v.state = .waitAck) ∧
      s.wakeMAFs cfg a = s) ∨
    (s.wakeMAFs cfg a).theDirEvictBuffer = s.theDirEvictBuffer ∧
      (s.wakeMAFs cfg a).theCacheEvictBuffer = s.theCacheEvictBuffer ∧
      (s.wakeMAFs cfg a).waits = s.waits.wake fun _ v =>
        (v.state == .waitRequest && v.address == a) ||
          (v.state == .waitSet && cfg.directory.sameSet a v.address) := by
  rw [Policy.wakeMAFs]
  split
  · rename_i hact
    obtain ⟨x, hx⟩ := Option.isSome_iff_exists.mp hact
    obtain ⟨hg, ha, hst⟩ := MissAddressFile.findFirst_spec hx
    exact .inl ⟨⟨x.serial, x.item.wait, Policy.entry_of_get hg, ha, hst⟩, rfl⟩
  · exact .inr ⟨rfl, rfl, MissAddressFile.waits_wakeEach (by intro _; rfl)⟩

theorem Ended.of_onlySends (h : OnlySends c c') (hw : p.action.wakes = false)
    (hr : p.action.removes = false) : Ended cfg c p c' := by
  refine ⟨h.mafPipeline, h.dirTagPipeline, h.dataPipeline, by rw [h.policy], by rw [h.policy], ?_⟩
  rw [h.policy]
  exact .idle hw hr

theorem Ended.after {b : Controller δ γ} (h : Ended cfg b p c') (hb : OnlySends c b) :
    Ended cfg c p c' := by
  obtain ⟨hm, ht, hd, hdir, hcache, hw⟩ := h
  rw [hb.policy] at hdir hcache hw
  exact ⟨hm.trans hb.mafPipeline, ht.trans hb.dirTagPipeline, hd.trans hb.dataPipeline, hdir,
    hcache, hw⟩

theorem ended_wakeEntry (h : c.wakeEntry p = .ok c') (hp : p.action.wakes = true) :
    Ended cfg c p c' := by
  obtain ⟨hc, i, w, hm, hi, hw⟩ := wakeEntry_spec h
  refine ⟨by rw [hc], by rw [hc], by rw [hc], by rw [hc], by rw [hc], ?_⟩
  rw [hw]
  exact .wake hp hm hi

/-- The entry is removed, and the requests behind it are woken if it was the last active
one. -/
theorem ended_removeAndWake (h : c.removeEntry p = .ok c') (hp : p.action.removes = true) :
    Ended cfg c p { c' with policy := c'.policy.wakeMAFs cfg p.transport.address } := by
  obtain ⟨hc, i, w, hm, hi, hw⟩ := removeEntry_spec h
  have hd : c'.policy.theDirEvictBuffer = c.policy.theDirEvictBuffer := by rw [hc]
  have hb : c'.policy.theCacheEvictBuffer = c.policy.theCacheEvictBuffer := by rw [hc]
  rcases wakeMAFs_spec cfg c'.policy p.transport.address with
    ⟨⟨j, v, hj, ha, hst⟩, heq⟩ | ⟨hd', hb', hw'⟩
  · rw [heq]
    refine ⟨by rw [hc], by rw [hc], by rw [hc], hd, hb, ?_⟩
    rw [hw] at hj ⊢
    exact .remove hp hm hi hj ha hst
  · refine ⟨by rw [hc], by rw [hc], by rw [hc], hd'.trans hd, hb'.trans hb, ?_⟩
    simp only [hw', hw]
    exact .removeAndWake hp hm hi

theorem ended_removeEntry (h : c.removeEntry p = .ok c') (hp : p.action = .removeMAF) :
    Ended cfg c p c' := by
  obtain ⟨hc, i, w, hm, hi, hw⟩ := removeEntry_spec h
  refine ⟨by rw [hc], by rw [hc], by rw [hc], by rw [hc], by rw [hc], ?_⟩
  rw [hw]
  exact .drop hp hm hi

/-- The end of a process depends on its action, its entry and its message only. -/
theorem Ended.congr (h : Ended cfg c q c') (ha : q.action = p.action) (hm : q.maf = p.maf)
    (ht : q.transport = p.transport) : Ended cfg c p c' :=
  { h with waits := h.waits.congr ha hm ht }

theorem ended_carryOut (h : c.carryOut cfg p = .ok (c', q)) : Ended cfg c p c' := by
  rw [carryOut] at h
  split at h
  all_goals rename_i ha
  · exact .of_onlySends (onlySends_sendSnoops h).1 (by rw [ha]; rfl) (by rw [ha]; rfl)
  · exact .of_onlySends (onlySends_sendSnoops h).1 (by rw [ha]; rfl) (by rw [ha]; rfl)
  · cases h
    exact .of_onlySends ⟨rfl, rfl, rfl, rfl⟩ (by rw [ha]; rfl) (by rw [ha]; rfl)
  · obtain ⟨⟨c₁, p₁⟩, h₁, h⟩ := exists_of_bind_eq_ok h
    obtain ⟨c₂, h₂, h⟩ := exists_of_bind_eq_ok h
    cases h
    refine Ended.after (.of_onlySends (onlySends_sendReply h₂) ?_ ?_) (onlySends_sendSnoops h₁).1
    · rw [ha]; rfl
    · rw [ha]; rfl
  · obtain ⟨⟨c₁, p₁⟩, h₁, h⟩ := exists_of_bind_eq_ok h
    obtain ⟨c₂, h₂, h⟩ := exists_of_bind_eq_ok h
    cases h
    refine Ended.after (.of_onlySends (onlySends_sendReply h₂) ?_ ?_) (onlySends_sendSnoops h₁).1
    · rw [ha]; rfl
    · rw [ha]; rfl
  · obtain ⟨⟨c₁, p₁⟩, h₁, h⟩ := exists_of_bind_eq_ok h
    obtain ⟨c₂, h₂, h⟩ := exists_of_bind_eq_ok h
    cases h
    obtain ⟨hsend, hm, ht, hact⟩ := onlySends_sendSnoops h₁
    exact ((ended_wakeEntry h₂ (by rw [hact, ha]; rfl)).after hsend).congr hact hm ht
  · obtain ⟨c₂, h₂, h⟩ := exists_of_bind_eq_ok h
    cases h
    exact ended_wakeEntry h₂ (by rw [ha]; rfl)
  · obtain ⟨c₂, h₂, h⟩ := exists_of_bind_eq_ok h
    cases h
    exact .of_onlySends (onlySends_sendReply h₂) (by rw [ha]; rfl) (by rw [ha]; rfl)
  · obtain ⟨c₁, h₁, h⟩ := exists_of_bind_eq_ok h
    obtain ⟨c₂, h₂, h⟩ := exists_of_bind_eq_ok h
    cases h
    exact (ended_removeAndWake h₂ (by rw [ha]; rfl)).after (onlySends_sendReply h₁)
  · obtain ⟨c₂, h₂, h⟩ := exists_of_bind_eq_ok h
    cases h
    exact ended_removeEntry h₂ ha
  · obtain ⟨c₂, h₂, h⟩ := exists_of_bind_eq_ok h
    cases h
    exact ended_removeAndWake h₂ (by rw [ha]; rfl)
  · cases h
    exact .of_onlySends ⟨rfl, rfl, rfl, rfl⟩ (by rw [ha]; rfl) (by rw [ha]; rfl)
  · cases h
    exact .of_onlySends ⟨rfl, rfl, rfl, rfl⟩ (by rw [ha]; rfl) (by rw [ha]; rfl)

/-- **Finalizing a process** carries its decision out. -/
theorem ended_finalizeProcess (h : c.finalizeProcess cfg p = .ok c') : Ended cfg c p c' := by
  obtain ⟨⟨c₁, q⟩, h₁, h⟩ := exists_of_bind_eq_ok h
  dsimp only at h
  split at h
  · cases h
    exact ended_carryOut h₁
  · cases h

/-! ### Running a process -/

theorem unreserveEB_spec (h : unreserveEB cfg s p = .ok (s', q)) : s'.waits = s.waits ∧
    Policy.Rests s s' ∧ q = { p with dirEBReserved := 0, cacheEBReserved := 0 } := by
  rw [unreserveEB] at h
  split at h
  · cases h
  · rename_i d hd
    split at h
    · cases h
    · rename_i b hb
      cases h
      refine ⟨rfl, ⟨rfl, DirEvictBuffer.unreserve_spec hd, fun A hA => ?_⟩, rfl⟩
      obtain ⟨e, he, hp⟩ := hA
      refine ⟨e, ?_, hp⟩
      rw [CacheEvictBuffer.find, CacheEvictBuffer.unreserve_spec hb]
      exact he

theorem unreserveMAF_spec (h : unreserveMAF s p = .ok (s', q)) : s'.waits = s.waits ∧
    Policy.Rests s s' ∧ q = { p with mafReserved := false } := by
  rw [unreserveMAF, MissAddressFile.unreserve] at h
  split at h
  · cases h
  · rename_i m hm
    split at hm
    · cases hm
      cases h
      exact ⟨rfl, .of_eq rfl rfl rfl, rfl⟩
    · cases hm

/-- What a process that is run does to the table of waits: it takes a decision, or gives up
its entry, or it is none of those that care. -/
inductive Decided (cfg : Config δ γ) (s : Policy δ γ) (p : Process) (s' : Policy δ γ)
    (q : Process) : Prop
  | decides (hkept : q.action ≠ .removeMAF)
      (hdecides : Policy.Decides cfg s p (p.type == .wakeMAF) s' q)
      (hheld : p.type = .wakeMAF → s.evicts cfg p = false → q.action.entered = true)
      (hfrom : p.isRequest = true ∨ s'.waits = s.waits)
  | discards {i : ℕ} (hp : p.type = .wakeMAF) (hq : q.type = .wakeMAF)
      (haction : q.action = .noAction) (hmaf : q.maf = p.maf) (hi : p.maf = some i)
      (hW : s'.waits = s.waits.erase i)
  | other (hp : p.isRequest = false) (hq : q.type = p.type) (haction : q.action.idle = true)
      (hW : s'.waits = s.waits)

/-- **What a process that is run says about its request**: what finishes a request is going to remove
its entry, and a request that has no entry afterwards is done. -/
structure Accounts (cfg : Config δ γ) (s : Policy δ γ) (p q : Process) : Prop where
  finishes : q.finishes = p.finishes
  removes : q.action.removes = p.finishes
  settles : p.isRequest = true → s.settles cfg p = !q.action.entered

theorem finishes_congr (ht : q.type = p.type)
    (hm : p.type = .reply → q.transport.type = p.transport.type) : q.finishes = p.finishes := by
  rw [Process.finishes, Process.finishes, ht]
  cases hp : p.type == .reply with
  | true => rw [hm (beq_iff_eq.mp hp)]
  | false => rfl

theorem finishes_of_ne (hp : p.type ≠ .reply) : p.finishes = false := by
  rw [Process.finishes, beq_eq_false_iff_ne.mpr hp, Bool.false_and]

theorem isRequest_iff : p.isRequest = true ↔ p.type = .request ∨ p.type = .wakeMAF := by
  rw [Process.isRequest, Bool.or_eq_true, beq_iff_eq, beq_iff_eq]

theorem Accounts.of_request (h : s.doRequest cfg p (p.type == .wakeMAF) = .ok (s', q))
    (hp : p.type = .request ∨ p.type = .wakeMAF) (hq : q.type = p.type) :
    Accounts cfg s p q := by
  have hne : p.type ≠ .reply := by
    rcases hp with hp | hp <;> rw [hp] <;> exact nofun
  refine ⟨finishes_congr hq fun hc => absurd hc hne, ?_, fun _ => ?_⟩
  · rw [finishes_of_ne hne]
    exact Policy.doRequest_removes h hp
  · rw [Policy.settles, h]

theorem Accounts.of_reply (h : Policy.Answers cfg s p (Policy.finishes p.transport.type) s' q)
    (hp : p.type = .reply) : Accounts cfg s p q := by
  have hfin : p.finishes = Policy.finishes p.transport.type := by
    rw [Process.finishes, hp]
    rfl
  refine ⟨finishes_congr h.decides.type fun _ => h.message, h.removes.trans hfin.symm, ?_⟩
  rw [Process.isRequest, hp]
  exact nofun

theorem Accounts.of_other (hp : p.type = .cacheEvict ∨ p.type = .dirEvict ∨ p.type = .idleWork)
    (hq : q.type = p.type) (ha : q.action.idle = true) : Accounts cfg s p q := by
  have hne : p.type ≠ .reply := by
    rcases hp with hp | hp | hp <;> rw [hp] <;> exact nofun
  refine ⟨finishes_congr hq fun hc => absurd hc hne, ?_, fun hr => ?_⟩
  · rw [finishes_of_ne hne]
    exact (ProcessAction.inert_of_idle ha).2
  · exfalso
    rcases isRequest_iff.mp hr with hr | hr <;> rw [hr] at hp <;> exact hp.elim nofun (·.elim nofun nofun)

theorem Accounts.congr {r : Process} (h : Accounts cfg s p q) (ha : r.action = q.action)
    (ht : r.transport = q.transport) (hty : r.type = q.type) : Accounts cfg s p r := by
  refine ⟨(finishes_congr hty fun _ => by rw [ht]).trans h.finishes, ?_, ?_⟩
  · rw [ha]
    exact h.removes
  · rw [ha]
    exact h.settles

/-- **What a process that is run leaves behind.** The process is not in the queue of `c`
any more, and has become `q`. -/
structure Ran (cfg : Config δ γ) (c : Controller δ γ) (p : Process) (c' : Controller δ γ)
    (q : Process) : Prop where
  mafPipeline : c'.theMAFPipeline = c.theMAFPipeline
  dirTagPipeline : c'.theDirTagPipeline = c.theDirTagPipeline
  dataPipeline : c'.theDataPipeline = c.theDataPipeline
  decided : Decided cfg c.policy p c'.policy q
  discharges : Policy.Discharges cfg c.policy p c'.policy q
  accounts : Accounts cfg c.policy p q

theorem Ran.flight {cfg : Config δ γ} (h : Ran cfg c p c' q) : c'.flight = c.flight := by
  rw [Controller.flight, h.dirTagPipeline, h.dataPipeline, Controller.flight]

/-- A process that has been run goes in flight, or ends. -/
def Advances (cfg : Config δ γ) (c : Controller δ γ) (p : Process) (c' : Controller δ γ) : Prop :=
  c' = { c with theDirTagPipeline := c.theDirTagPipeline ++ [p] } ∨ c.finalizeProcess cfg p = .ok c'

theorem advances_advance (h : c.advance cfg p = .ok c') : Advances cfg c p c' := by
  rw [advance] at h
  split at h
  · cases h
    exact .inl rfl
  · exact .inr h

theorem Ran.of_decides (hd : Policy.Decides cfg c.policy p (p.type == .wakeMAF) s q)
    (hdis : Policy.Discharges cfg c.policy p s q) (hrem : q.action ≠ .removeMAF)
    (hheld : p.type = .wakeMAF → c.policy.evicts cfg p = false → q.action.entered = true)
    (hacc : Accounts cfg c.policy p q) (hfrom : p.isRequest = true ∨ s.waits = c.policy.waits)
    (hw : s'.waits = s.waits) (hk : Policy.Keeps s s') {r : Process} (ha : r.action = q.action)
    (hm : r.maf = q.maf) (ht : r.transport = q.transport) (hty : r.type = q.type) :
    Ran cfg c p { c with policy := s' } r := by
  refine ⟨rfl, rfl, rfl, .decides (ha ▸ hrem) ?_ (ha ▸ hheld) (hfrom.imp_right hw.trans),
    hdis.keeps hk ha, hacc.congr ha ht hty⟩
  rw [Policy.Decides, hw]
  exact Settles.mono hd (fun A => hk.owes) ha hm ht hty

theorem runRequestProcess_spec (h : c.runRequestProcess cfg p = .ok c') (hp : p.type = .request) :
    ∃ t q, Ran cfg c p t q ∧ Advances cfg t q c' := by
  obtain ⟨⟨s, q⟩, h₁, h⟩ := exists_of_bind_eq_ok h
  have hd : Policy.Decides cfg c.policy p (p.type == .wakeMAF) s q := by
    rw [hp]
    exact Policy.doRequest_decides h₁
  have hdis := Policy.doRequest_discharges h₁ (.inl hp)
  have hacc : Accounts cfg c.policy p q := .of_request (by rw [hp]; exact h₁) (.inl hp) hd.type
  dsimp only at h
  split at h
  · cases h
  · cases h
  · rename_i hrem _
    obtain ⟨⟨s₂, q₂⟩, h₂, h⟩ := exists_of_bind_eq_ok h
    obtain ⟨⟨s₃, q₃⟩, h₃, h⟩ := exists_of_bind_eq_ok h
    obtain ⟨hw₂, hk₂, hq₂⟩ := unreserveEB_spec h₂
    obtain ⟨hw₃, hk₃, hq₃⟩ := unreserveMAF_spec h₃
    rw [hq₂] at hq₃
    refine ⟨{ c with policy := s₃ }, q₃, ?_, advances_advance h⟩
    exact .of_decides hd hdis hrem (by rw [hp]; exact nofun) hacc
      (.inl (isRequest_iff.mpr (.inl hp))) (hw₃.trans hw₂)
      (hk₂.trans hk₃).keeps (by rw [hq₃]) (by rw [hq₃]) (by rw [hq₃]) (by rw [hq₃])

theorem runReplyProcess_spec (h : c.runReplyProcess cfg p = .ok c') (hp : p.type = .reply) :
    ∃ t q, Ran cfg c p t q ∧ Advances cfg t q c' := by
  obtain ⟨⟨s, q⟩, h₁, h⟩ := exists_of_bind_eq_ok h
  have hans := Policy.handleReply_answers h₁ hp
  have hd : Policy.Decides cfg c.policy p (p.type == .wakeMAF) s q := by
    rw [hp]
    exact hans.decides
  have hdis := Policy.handleReply_discharges h₁ hp
  -- a reply is no redundant request
  have hrem : q.action ≠ .removeMAF := by
    intro hact
    cases hd.decision with
    | sleep haction => rw [hact] at haction; cases haction
    | activate haction => rw [hact] at haction; cases haction
    | redundant haction =>
      rw [hact, hp] at haction
      cases haction
    | pick haction => rw [hact] at haction; cases haction
    | finish haction => rw [hact] at haction; cases haction
    | pass haction => rw [hact] at haction; cases haction
  have hno : p.type = .wakeMAF → c.policy.evicts cfg p = false → q.action.entered = true := by
    rw [hp]
    intro hc
    cases hc
  have hkeep : ∀ c', advance cfg { c with policy := s } q = .ok c' →
      ∃ t q, Ran cfg c p t q ∧ Advances cfg t q c' := fun c' h =>
    ⟨{ c with policy := s }, q, .of_decides hd hdis hrem hno (.of_reply hans hp) (.inr hans.waits)
      rfl .refl rfl rfl rfl rfl, advances_advance h⟩
  have hfree : ∀ c', (unreserveEB cfg s q >>= fun r =>
      advance cfg { c with policy := r.1 } r.2) = .ok c' →
      ∃ t q, Ran cfg c p t q ∧ Advances cfg t q c' := by
    intro c' h
    obtain ⟨⟨s₂, q₂⟩, h₂, h⟩ := exists_of_bind_eq_ok h
    obtain ⟨hw₂, hk₂, hq₂⟩ := unreserveEB_spec h₂
    refine ⟨{ c with policy := s₂ }, q₂, ?_, advances_advance h⟩
    exact .of_decides hd hdis hrem hno (.of_reply hans hp) (.inr hans.waits) hw₂ hk₂.keeps
      (by rw [hq₂]) (by rw [hq₂]) (by rw [hq₂]) (by rw [hq₂])
  dsimp only at h
  split at h
  · exact hkeep c' h
  · exact hkeep c' h
  · exact hfree c' h
  · exact hfree c' h
  · exact hfree c' h
  · exact hfree c' h
  · exact hfree c' h
  · exact hfree c' h
  · cases h

/-- A woken entry whose request turns out to be redundant is removed when it is run. -/
theorem runWakeMAFProcess_spec (h : c.runWakeMAFProcess cfg p = .ok c') (hp : p.type = .wakeMAF) :
    ∃ t q, Ran cfg c p t q ∧ Advances cfg t q c' := by
  obtain ⟨⟨s, q⟩, h₁, h⟩ := exists_of_bind_eq_ok h
  have hd : Policy.Decides cfg c.policy p (p.type == .wakeMAF) s q := by
    rw [hp]
    exact Policy.doRequest_decides h₁
  have hdis := Policy.doRequest_discharges h₁ (.inr hp)
  have hacc : Accounts cfg c.policy p q := .of_request (by rw [hp]; exact h₁) (.inr hp) hd.type
  have hfree : ∀ c', q.action ≠ .removeMAF → (unreserveEB cfg s q >>= fun r =>
      advance cfg { c with policy := r.1 } r.2) = .ok c' →
      ∃ t q, Ran cfg c p t q ∧ Advances cfg t q c' := by
    intro c' hrem h
    obtain ⟨⟨s₂, q₂⟩, h₂, h⟩ := exists_of_bind_eq_ok h
    obtain ⟨hw₂, hk₂, hq₂⟩ := unreserveEB_spec h₂
    refine ⟨{ c with policy := s₂ }, q₂, ?_, advances_advance h⟩
    refine .of_decides hd hdis hrem (fun _ hev => ?_) hacc (.inl (isRequest_iff.mpr (.inr hp))) hw₂
      hk₂.keeps (by rw [hq₂]) (by rw [hq₂]) (by rw [hq₂]) (by rw [hq₂])
    exact (Policy.doRequest_held h₁ (.inr hp) hev).resolve_right hrem
  dsimp only at h
  split at h
  all_goals rename_i hact
  all_goals first
    | exact hfree c' (by rw [hact]; decide) h
    | skip
  · obtain ⟨c₂, h₂, h⟩ := exists_of_bind_eq_ok h
    obtain ⟨⟨s₃, q₃⟩, h₃, h⟩ := exists_of_bind_eq_ok h
    obtain ⟨hc₂, i, w, hi, -, hw₂⟩ := removeEntry_spec h₂
    obtain ⟨hw₃, hk₃, hq₃⟩ := unreserveEB_spec h₃
    -- only a redundant request is removed
    have hred : q.maf = p.maf ∧ s.waits = c.policy.waits := by
      cases hd.decision with
      | sleep haction => rw [hact] at haction; cases haction
      | activate haction => rw [hact] at haction; cases haction
      | redundant haction hmaf hW => exact ⟨hmaf, hW⟩
      | pick haction => rw [hact] at haction; cases haction
      | finish haction => rw [hact] at haction; cases haction
      | pass haction => rw [hact] at haction; cases haction
    have hk₂ : Policy.Keeps s c₂.policy := .of_eq (by rw [hc₂]) (by rw [hc₂])
    refine ⟨{ c₂ with policy := s₃ }, q₃, ?_, advances_advance h⟩
    refine ⟨by rw [hc₂], by rw [hc₂], by rw [hc₂],
      .discards hp ?_ (by rw [hq₃]) ?_ (i := i) ?_ ?_, ?_, ?_⟩
    · rw [hq₃]
      exact hd.type.trans hp
    · rw [hq₃]
      exact hred.1
    · rw [← hred.1]
      exact hi
    · rw [← hred.2]
      exact hw₃.trans hw₂
    · refine ⟨fun A hA => ?_, fun A hA => ?_, fun hw => ?_, fun hc => ?_⟩
      · exact (hdis.invalidates A hA).imp_left ((hk₂.trans hk₃.keeps).invalidates A)
      · exact (hdis.writeBack A hA).imp_left ((hk₂.trans hk₃.keeps).writeBack A)
      · rw [hq₃] at hw
        cases hw
      · refine .inr ((hdis.wakes_of_completes hc).resolve_left ?_)
        rw [hact]
        decide
    · have hnone : p.finishes = false := finishes_of_ne (by rw [hp]; exact nofun)
      refine ⟨(finishes_congr ?_ fun _ => ?_).trans hacc.finishes, ?_, fun hr => ?_⟩
      · rw [hq₃]
      · rw [hq₃]
      · rw [hq₃, hnone]
        rfl
      · rw [hacc.settles hr, hact, hq₃]
        rfl
  · cases h

/-- The processes that are neither requests nor replies complete no eviction. -/
theorem completes_of_other (h : p.type = .cacheEvict ∨ p.type = .dirEvict ∨ p.type = .idleWork) :
    s.completes cfg p = false := by
  rcases h with h | h | h <;> rw [Policy.completes, h]

theorem runCacheEvictProcess_spec (h : c.runCacheEvictProcess cfg p = .ok c')
    (hp : p.type = .cacheEvict) : ∃ t q, Ran cfg c p t q ∧ Advances cfg t q c' := by
  refine ⟨c, Policy.handleCacheEvict p, ⟨rfl, rfl, rfl, .other (by rw [Process.isRequest, hp]; rfl) rfl rfl rfl,
    ?_, .of_other (.inl hp) rfl rfl⟩, .inr h⟩
  exact Policy.Keeps.refl.discharges rfl (completes_of_other (.inl hp))

theorem runDirEvictProcess_spec (h : c.runDirEvictProcess cfg p = .ok c')
    (hp : p.type = .dirEvict) : ∃ t q, Ran cfg c p t q ∧ Advances cfg t q c' := by
  obtain ⟨q, h₁, h⟩ := exists_of_bind_eq_ok h
  rw [Policy.handleDirEvict] at h₁
  split at h₁
  · cases h₁
    refine ⟨c, _, ?_, .inr h⟩
    refine ⟨rfl, rfl, rfl, .other (by rw [Process.isRequest, hp]; rfl) rfl rfl rfl, ?_,
      .of_other (.inr (.inl hp)) rfl rfl⟩
    exact Policy.Keeps.refl.discharges rfl (completes_of_other (.inr (.inl hp)))
  · cases h₁

theorem rests_getCacheEvictTransport {t : Transport}
    (h : s.getCacheEvictTransport cfg = .ok (s', t)) :
    s'.waits = s.waits ∧ Policy.Rests s s' := by
  rw [Policy.getCacheEvictTransport] at h
  obtain ⟨-, h⟩ := of_ite_error_eq_ok h
  split at h
  · cases h
  · rename_i b e hb
    cases h
    refine ⟨rfl, rfl, rfl, fun A hA => ?_⟩
    obtain ⟨x, hx, hp⟩ := hA
    rw [CacheEvictBuffer.isPending, (CacheEvictBuffer.firstNonPending_spec hb).2.2, hx]
    split
    · exact ⟨_, rfl, rfl⟩
    · exact ⟨x, rfl, hp⟩

theorem handleIdleWork_spec (h : s.handleIdleWork cfg p = .ok (s', q)) :
    s'.waits = s.waits ∧ Policy.Rests s s' ∧ q.action.idle = true ∧ q.type = p.type := by
  simp only [Policy.handleIdleWork] at h
  split at h
  · split at h
    · cases h
      exact ⟨rfl, .of_eq rfl rfl rfl, rfl, rfl⟩
    · split at h
      · cases h
        refine ⟨Policy.waits_evictCacheBlock, Policy.Rests.trans ?_ Policy.rests_evictCacheBlock,
          rfl, rfl⟩
        exact .of_eq rfl rfl rfl
      · split at h
        · split at h
          · split at h
            · cases h
            · rename_i s₁ t ht
              cases h
              obtain ⟨hw, hr⟩ := rests_getCacheEvictTransport ht
              exact ⟨hw, hr, rfl, rfl⟩
          · cases h
            exact ⟨rfl, .refl, rfl, rfl⟩
        · cases h
          exact ⟨rfl, .refl, rfl, rfl⟩
  · cases h
    exact ⟨rfl, .refl, rfl, rfl⟩

theorem runIdleWorkProcess_spec (h : c.runIdleWorkProcess cfg p = .ok c')
    (hp : p.type = .idleWork) : ∃ t q, Ran cfg c p t q ∧ Advances cfg t q c' := by
  obtain ⟨⟨s, q⟩, h₁, h⟩ := exists_of_bind_eq_ok h
  obtain ⟨⟨s₂, q₂⟩, h₂, h⟩ := exists_of_bind_eq_ok h
  obtain ⟨hw, hk, ha, hty⟩ := handleIdleWork_spec h₁
  obtain ⟨hw₂, hk₂, hq₂⟩ := unreserveEB_spec h₂
  have hran : Ran cfg c p { c with policy := s₂, theIdleWorkScheduled := false } q₂ := by
    have hty₂ : q₂.type = p.type := by rw [hq₂]; exact hty
    have ha₂ : q₂.action.idle = true := by rw [hq₂]; exact ha
    refine ⟨rfl, rfl, rfl, .other (by rw [Process.isRequest, hp]; rfl) hty₂ ha₂ (hw₂.trans hw), ?_,
      .of_other (.inr (.inr hp)) hty₂ ha₂⟩
    exact (hk.trans hk₂).keeps.discharges (ProcessAction.inert_of_idle ha₂).1
      (completes_of_other (.inr (.inr hp)))
  dsimp only at h
  split at h
  · exact ⟨_, _, hran, advances_advance h⟩
  · exact ⟨_, _, hran, advances_advance h⟩
  · cases h

/-- **Running a process.** -/
theorem runProcess_spec (h : c.runProcess cfg p = .ok c') :
    ∃ t q, Ran cfg c p t q ∧ Advances cfg t q c' := by
  rw [runProcess] at h
  split at h
  · exact runWakeMAFProcess_spec h ‹_›
  · exact runCacheEvictProcess_spec h ‹_›
  · exact runDirEvictProcess_spec h ‹_›
  · exact runReplyProcess_spec h ‹_›
  · cases h
  · exact runRequestProcess_spec h ‹_›
  · exact runIdleWorkProcess_spec h ‹_›

/-! ### Scheduling -/

theorem reserveCacheEB_spec {n : ℕ} (h : reserveCacheEB cfg s p n = .ok (s', q)) :
    s'.waits = s.waits ∧ Policy.Rests s s' ∧
      q = { p with cacheEBReserved := p.cacheEBReserved + n } := by
  rw [reserveCacheEB] at h
  split at h
  · cases h
  · rename_i b hb
    cases h
    refine ⟨rfl, ⟨rfl, rfl, fun A hA => ?_⟩, rfl⟩
    obtain ⟨e, he, hp⟩ := hA
    refine ⟨e, ?_, hp⟩
    rw [CacheEvictBuffer.find, CacheEvictBuffer.reserve_spec hb]
    exact he

theorem reserveEB_spec {n : ℕ} (h : reserveEB cfg s p n = .ok (s', q)) :
    s'.waits = s.waits ∧ Policy.Rests s s' ∧ q = { p with
      dirEBReserved := p.dirEBReserved + n, cacheEBReserved := p.cacheEBReserved + n } := by
  rw [reserveEB] at h
  split at h
  · cases h
  · rename_i b hb
    obtain ⟨hw, hr, hq⟩ := reserveCacheEB_spec h
    refine ⟨hw, Policy.Rests.trans ?_ hr, hq⟩
    exact ⟨rfl, DirEvictBuffer.reserve_spec hb, fun _ hA => hA⟩

theorem reserveMAF_spec (h : reserveMAF cfg s p = .ok (s', q)) : s'.waits = s.waits ∧
    Policy.Rests s s' ∧ q = { p with mafReserved := true } := by
  rw [reserveMAF, MissAddressFile.reserve] at h
  split at h
  · cases h
  · rename_i m hm
    split at hm
    · cases hm
      cases h
      exact ⟨rfl, .of_eq rfl rfl rfl, rfl⟩
    · cases hm

/-- Sending back-invalidates starts an eviction and ends none. -/
theorem keeps_getIdleWorkTransport {t : Transport} (h : s.getIdleWorkTransport cfg = (s', t)) :
    s'.waits = s.waits ∧ Policy.Keeps s s' := by
  rw [Policy.getIdleWorkTransport] at h
  split at h
  · cases h
    exact ⟨rfl, .refl⟩
  · rename_i e he
    cases h
    refine ⟨rfl, fun A hA => ?_, fun _ hA => hA⟩
    have h0 : e.theInvalidatesSent = 0 := by simpa using List.find?_some he
    have hfind : s.theDirEvictBuffer.find e.address = some e :=
      Keyed.lookup_of_mem s.theDirEvictBuffer.unique (List.mem_of_find?_eq_some he)
    -- the block had no invalidates pending
    refine (DirEvictBuffer.invalidatesPending_congr_sent
      (DirEvictBuffer.sent_update (h := by intro _; rfl) (by intro _; rfl))).mpr ?_
    refine (DirEvictBuffer.invalidatesPending_congr ?_).mpr hA
    rw [DirEvictBuffer.find_setInvalidatesPending, if_neg]
    rintro rfl
    obtain ⟨e', he', hne⟩ := hA
    rw [hfind] at he'
    cases he'
    exact hne h0

/-! ### All steps -/

/-- The requests that an event takes in: one, if there is room for it. -/
def requests (cfg : Config δ γ) (c : Controller δ γ) : Event → ℕ
  | .request _ => (c.policy.ebHasSpace cfg && !c.policy.theMAF.full cfg.theMAFSize).toNat
  | _ => 0

/-- The requests that an event finishes: a message comes in that finishes one, or one is run and
done. -/
def finished (cfg : Config δ γ) (c : Controller δ γ) : Event → ℕ
  | .reply t => (Policy.finishes t.type).toNat
  | .runMAF =>
    match c.theMAFPipeline with
    | [] => 0
    | p :: _ => (p.isRequest && c.policy.settles cfg p).toNat
  | _ => 0

/-- **What a step may do.** -/
inductive Moves (cfg : Config δ γ) (c : Controller δ γ) (e : Event) (c' : Controller δ γ) : Prop
  /-- At most a process has moved to another pipeline. -/
  | stays (hpolicy : c'.policy = c.policy) (hqueue : c'.theMAFPipeline = c.theMAFPipeline)
      (hflight : c.flight.Perm c'.flight) (hbooks : requests cfg c e = 0 ∧ finished cfg c e = 0)
  /-- A process has been scheduled. -/
  | queues {p : Process} (htype : p.type ≠ .wakeMAF) (haction : p.action = .noAction)
      (hqueue : c'.theMAFPipeline = c.theMAFPipeline ++ [p]) (hflight : c'.flight = c.flight)
      (hwaits : c'.policy.waits = c.policy.waits) (hkeeps : Policy.Keeps c.policy c'.policy)
      (hbooks : requests cfg c e = (p.type == .request).toNat ∧ finished cfg c e = p.finishes.toNat)
  /-- A woken entry has been scheduled. -/
  | wakes {p : Process} {i : ℕ} {w : Wait} (hi : c.policy.waits.entry i = some w)
      (hst : w.state = .waking) (htype : p.type = .wakeMAF) (haction : p.action = .noAction)
      (hmaf : p.maf = some i) (hmsg : w.msg = p.transport.address)
      (hqueue : c'.theMAFPipeline = c.theMAFPipeline ++ [p]) (hflight : c'.flight = c.flight)
      (hwaits : c'.policy.waits = c.policy.waits.set i { w with state := .inPipeline })
      (hkeeps : Policy.Keeps c.policy c'.policy)
      (hbooks : requests cfg c e = 0 ∧ finished cfg c e = 0)
  /-- A process has been finalized. -/
  | ends {p : Process} (hqueue : c'.theMAFPipeline = c.theMAFPipeline)
      (hflight : c.flight.Perm (p :: c'.flight))
      (hdirEB : c'.policy.theDirEvictBuffer = c.policy.theDirEvictBuffer)
      (hcacheEB : c'.policy.theCacheEvictBuffer = c.policy.theCacheEvictBuffer)
      (hwaits : Finalizes cfg.directory.sameSet c.policy.waits p c'.policy.waits)
      (hbooks : requests cfg c e = 0 ∧ finished cfg c e = 0)
  /-- A process has been run. -/
  | runs {p q : Process} {t : Controller δ γ} {rest : List Process} (hevent : e = .runMAF)
      (hqueue : c.theMAFPipeline = p :: rest)
      (hran : Ran cfg { c with theMAFPipeline := rest } p t q) (hadvances : Advances cfg t q c')

variable {e : Event}

theorem moves_enqueue {sp : Policy δ γ × Process} (htype : sp.2.type ≠ .wakeMAF)
    (haction : sp.2.action = .noAction) (hwaits : sp.1.waits = c.policy.waits)
    (hkeeps : Policy.Keeps c.policy sp.1)
    (hbooks : requests cfg c e = (sp.2.type == .request).toNat ∧
      finished cfg c e = sp.2.finishes.toNat) : Moves cfg c e (c.enqueue sp) :=
  .queues htype haction rfl rfl hwaits hkeeps hbooks

theorem moves_scheduleWakeMAF (h : c.scheduleWakeMAF cfg = .ok c') : Moves cfg c .wakeMAF c' := by
  rw [scheduleWakeMAF] at h
  split at h
  · cases h
    exact .stays rfl rfl (List.Perm.refl _) ⟨rfl, rfl⟩
  · rename_i i hi
    split at h
    · cases h
      exact .stays rfl rfl (List.Perm.refl _) ⟨rfl, rfl⟩
    · rename_i x hx
      split at h
      · obtain ⟨⟨s₁, q⟩, h₁, h⟩ := exists_of_bind_eq_ok h
        cases h
        obtain ⟨hw, hk, hq⟩ := reserveEB_spec h₁
        have hst : x.state = .waking := by
          obtain ⟨x', hx', hst⟩ := MissAddressFile.firstWaking_spec hi
          rw [hx] at hx'
          cases hx'
          exact hst
        have hset : (c.policy.theMAF.toPipeline i).waits =
            c.policy.waits.set i { x.wait with state := .inPipeline } := by
          refine Waits.ext (fun j => ?_) rfl
          simp only [MissAddressFile.waits, MissAddressFile.get_toPipeline, Waits.entry_set]
          split
          · rename_i hj
            rw [hj, hx]
            rfl
          · rfl
        subst hq
        exact .wakes (Policy.entry_of_get hx) hst rfl rfl rfl rfl rfl rfl (hw.trans hset)
          (hk.keeps.frame rfl rfl) ⟨rfl, rfl⟩
      · cases h
        exact .stays rfl rfl (List.Perm.refl _) ⟨rfl, rfl⟩

theorem moves_scheduleCacheEvict (h : c.scheduleCacheEvict cfg = .ok c') :
    Moves cfg c .cacheEvict c' := by
  rw [scheduleCacheEvict] at h
  split at h
  · obtain ⟨⟨s₁, t⟩, h₁, h⟩ := exists_of_bind_eq_ok h
    cases h
    obtain ⟨hw, hk⟩ := rests_getCacheEvictTransport h₁
    exact moves_enqueue nofun rfl hw hk.keeps ⟨rfl, rfl⟩
  · cases h
    exact .stays rfl rfl (List.Perm.refl _) ⟨rfl, rfl⟩

theorem moves_scheduleDirEvict (h : c.scheduleDirEvict cfg = .ok c') :
    Moves cfg c .dirEvict c' := by
  rw [scheduleDirEvict] at h
  split at h
  · generalize hg : c.policy.getIdleWorkTransport cfg = r at h
    obtain ⟨s₁, t⟩ := r
    obtain ⟨⟨s₂, q⟩, h₂, h⟩ := exists_of_bind_eq_ok h
    cases h
    obtain ⟨hw, hk⟩ := keeps_getIdleWorkTransport hg
    obtain ⟨hw₂, hk₂, hq⟩ := reserveCacheEB_spec h₂
    subst hq
    exact moves_enqueue nofun rfl (hw₂.trans hw) (hk.trans hk₂.keeps) ⟨rfl, rfl⟩
  · cases h
    exact .stays rfl rfl (List.Perm.refl _) ⟨rfl, rfl⟩

theorem moves_scheduleSnoop {t : Transport} (h : c.scheduleSnoop cfg t = .ok c') :
    Moves cfg c (.snoop t) c' := by
  rw [scheduleSnoop] at h
  split at h
  · cases h
    exact .stays rfl rfl (List.Perm.refl _) ⟨rfl, rfl⟩
  · obtain ⟨⟨s₂, q⟩, h₂, h⟩ := exists_of_bind_eq_ok h
    cases h
    obtain ⟨hw₂, hk₂, hq⟩ := reserveMAF_spec h₂
    subst hq
    exact moves_enqueue nofun rfl hw₂ hk₂.keeps ⟨rfl, rfl⟩

theorem moves_scheduleRequest {t : Transport} (h : c.scheduleRequest cfg t = .ok c') :
    Moves cfg c (.request t) c' := by
  rw [scheduleRequest] at h
  split at h
  · rename_i hroom
    obtain ⟨⟨s₁, p⟩, h₁, h⟩ := exists_of_bind_eq_ok h
    obtain ⟨⟨s₂, q⟩, h₂, h⟩ := exists_of_bind_eq_ok h
    cases h
    obtain ⟨hw₁, hk₁, hp⟩ := reserveEB_spec h₁
    obtain ⟨hw₂, hk₂, hq⟩ := reserveMAF_spec h₂
    subst hp hq
    exact moves_enqueue nofun rfl (hw₂.trans hw₁) (hk₁.trans hk₂).keeps
      ⟨congrArg Bool.toNat hroom, rfl⟩
  · rename_i hroom
    cases h
    exact .stays rfl rfl (List.Perm.refl _) ⟨congrArg Bool.toNat (Bool.eq_false_iff.mpr hroom), rfl⟩

theorem moves_scheduleIdleWork (h : c.scheduleIdleWork cfg = .ok c') :
    Moves cfg c .idleWork c' := by
  rw [scheduleIdleWork] at h
  split at h
  · generalize hg : c.policy.getIdleWorkTransport cfg = r at h
    obtain ⟨s₁, t⟩ := r
    obtain ⟨⟨s₂, q⟩, h₂, h⟩ := exists_of_bind_eq_ok h
    cases h
    obtain ⟨hw, hk⟩ := keeps_getIdleWorkTransport hg
    obtain ⟨hw₂, hk₂, hq⟩ := reserveCacheEB_spec h₂
    subst hq
    exact .queues (p := { type := .idleWork, transport := t, cacheEBReserved := 0 + 1 }) nofun rfl
      rfl rfl (hw₂.trans hw) (hk.trans hk₂.keeps) ⟨rfl, rfl⟩
  · cases h
    exact .stays rfl rfl (List.Perm.refl _) ⟨rfl, rfl⟩

theorem moves_advanceDirTagPipeline (h : c.advanceDirTagPipeline cfg = .ok c') :
    Moves cfg c .runDirTag c' := by
  rw [advanceDirTagPipeline] at h
  split at h
  · cases h
    exact .stays rfl rfl (List.Perm.refl _) ⟨rfl, rfl⟩
  · rename_i p rest hc
    have hflight : c.flight =
        p :: (rest ++ c.theDataPipeline.filter fun p => !p.transmitAfterTag) := by
      rw [flight, hc]
      rfl
    dsimp only at h
    split at h
    · split at h
      · -- the process ends here, and stays in the data pipeline for its latency only
        rename_i hlate
        obtain ⟨c₁, h₁, h⟩ := exists_of_bind_eq_ok h
        cases h
        obtain ⟨hm, hdt, hdata, hd, hb, hw⟩ := ended_finalizeProcess h₁
        refine .ends (p := p) hm ?_ hd hb hw ⟨rfl, rfl⟩
        rw [hflight, flight, hdt, hdata]
        simp [hlate]
      · rename_i hlate
        cases h
        refine .stays rfl rfl ?_ ⟨rfl, rfl⟩
        rw [hflight, flight, List.filter_append, List.filter_cons_of_pos (by simpa using hlate),
          List.filter_nil, ← List.append_assoc]
        exact (List.perm_append_singleton p _).symm
    · obtain ⟨hm, hdt, hdata, hd, hb, hw⟩ := ended_finalizeProcess h
      refine .ends (p := p) hm ?_ hd hb hw ⟨rfl, rfl⟩
      rw [hflight, flight, hdt, hdata]

theorem moves_advanceDataPipeline (h : c.advanceDataPipeline cfg = .ok c') :
    Moves cfg c .runData c' := by
  rw [advanceDataPipeline] at h
  split at h
  · cases h
    exact .stays rfl rfl (List.Perm.refl _) ⟨rfl, rfl⟩
  · rename_i p rest hc
    dsimp only at h
    split at h
    · rename_i hlate
      cases h
      refine .stays rfl rfl ?_ ⟨rfl, rfl⟩
      rw [flight, flight, hc]
      simp [hlate]
    · rename_i hlate
      obtain ⟨hm, hdt, hdata, hd, hb, hw⟩ := ended_finalizeProcess h
      refine .ends (p := p) hm ?_ hd hb hw ⟨rfl, rfl⟩
      rw [flight, flight, hdt, hdata, hc]
      simp [hlate]

/-- **Every step is one of these.** -/
theorem step_moves (h : step cfg c e = .ok c') : Moves cfg c e c' := by
  cases e with
  | request t => exact moves_scheduleRequest h
  | reply t =>
    cases h
    exact moves_enqueue nofun rfl rfl .refl ⟨rfl, rfl⟩
  | snoop t => exact moves_scheduleSnoop h
  | wakeMAF => exact moves_scheduleWakeMAF h
  | cacheEvict => exact moves_scheduleCacheEvict h
  | dirEvict => exact moves_scheduleDirEvict h
  | idleWork => exact moves_scheduleIdleWork h
  | runMAF =>
    rw [step, advanceMAFPipeline] at h
    split at h
    · rename_i hc
      cases h
      exact .stays rfl rfl (List.Perm.refl _) ⟨rfl, by rw [finished, hc]⟩
    · rename_i p rest hc
      obtain ⟨t, q, hran, hadv⟩ := runProcess_spec h
      exact .runs rfl hc hran hadv
  | runDirTag => exact moves_advanceDirTagPipeline h
  | runData => exact moves_advanceDataPipeline h

end Controller

end CMPCache

end Flexus
