import Flexus.CMPCache.Agenda
import Flexus.CMPCache.Steps

/-!
# No wake-up is lost or duplicated

In every state a bank reaches, a request that sleeps has something that will wake it,
and what is going to be woken is woken once (`Flexus.CMPCache.Controller.WakeupsOk`).

That is so as long as two things do not happen. Two processes may each end an eviction
of one block – the last answer to its back-invalidates, the acknowledgement of its
write-back, the eviction by its last sharer – and the second one must not be run before
the first has woken the entry both of them would pick
(`Flexus.CMPCache.Controller.PicksAlone`). And a write-back must not be given up while an
entry waits for nothing else (`Flexus.CMPCache.Controller.KeepsReasons`). The bank checks
neither, and the last section shows a run in which an entry is stranded.
-/

namespace Flexus

namespace CMPCache

open MemoryMessageType

variable {δ γ : Type} {cfg : Config δ γ}

namespace Controller

/-- **The wake-ups of a bank**, over the entries of its miss address file and the
processes that are not finalized. -/
structure WakeupsOk (c : Controller δ γ) : Prop where
  /-- A request that waits for another one has another entry of its block to wait for. -/
  requests : ∀ i e, c.policy.theMAF.get i = some e → e.state = .waitRequest →
    ∃ j f, j ≠ i ∧ c.policy.theMAF.get j = some f ∧ f.address = e.address ∧
      (f.state = .waitAck ∨ f.state = .waitEvict ∨ f.state = .waking ∨ f.state = .inPipeline)
  /-- A request that waits for an eviction has one to wait for, or is about to be woken. -/
  evictions : ∀ i e, c.policy.theMAF.get i = some e → e.state = .waitEvict →
    c.policy.theDirEvictBuffer.invalidatesPending e.address ∨
      c.policy.theCacheEvictBuffer.isPending e.address ∨
      ∃ p ∈ c.unfinished, p.action.wakes = true ∧ p.maf = some i
  /-- What is about to be woken is there, and waits for an eviction. -/
  wakers : ∀ p ∈ c.unfinished, p.action.wakes = true →
    ∃ i e, p.maf = some i ∧ c.policy.theMAF.get i = some e ∧ e.state = .waitEvict
  /-- No entry is about to be woken twice. -/
  once : c.unfinished.Pairwise fun p q =>
    p.action.wakes = true → q.action.wakes = true → p.maf ≠ q.maf

/-! ### What a bank relies on -/

/-- A process that ends an eviction of a block is run only when no process in flight is
about to wake an entry of that block. -/
def PicksAlone (cfg : Config δ γ) (c : Controller δ γ) (e : Event) : Prop :=
  e = .runMAF → ∀ p rest, c.theMAFPipeline = p :: rest → c.policy.completes cfg p = true →
    ∀ q ∈ c.flight, ∀ i w, q.wakes = some i → c.policy.waits.entry i = some w →
      w.address ≠ p.transport.address

/-- A process that gives up the write-back of a block is run only when it ends another
eviction of the block, or when every entry of the block that waits for an eviction waits
for another one, or is about to be woken. -/
def KeepsReasons (cfg : Config δ γ) (c : Controller δ γ) (e : Event) : Prop :=
  e = .runMAF → ∀ p rest, c.theMAFPipeline = p :: rest → ∀ A, c.policy.dropsWriteBack cfg p A →
    (c.policy.completes cfg p = true ∧ A = p.transport.address) ∨
      ∀ i w, c.policy.waits.entry i = some w → w.address = A → w.state = .waitEvict →
        c.policy.theDirEvictBuffer.invalidatesPending A ∨ ∃ q ∈ c.flight, q.wakes = some i

/-! ### The invariants of a bank -/

variable {c c' t : Controller δ γ} {e : Event} {p q : Process} {rest : List Process}

/-- The bank is orderly. -/
def Sound (cfg : Config δ γ) (c : Controller δ γ) : Prop :=
  Orderly cfg.array.blockAddress c.policy.waits c.theMAFPipeline c.flight

/-- Every entry of the bank that waits for an eviction will be woken. -/
def Awaited (c : Controller δ γ) : Prop := Reasoned c.policy.Owes c.policy.waits c.flight

theorem past (s : Policy δ γ) : ∀ i w, s.waits.entry i = some w → i < s.waits.next :=
  fun _ _ => MissAddressFile.lt_next

theorem wakeMAF_of_beq {t : ProcessType} (h : (t == .wakeMAF) = true) : t = .wakeMAF := by
  simpa using h

theorem perm_flight :
    (flight { t with theDirTagPipeline := t.theDirTagPipeline ++ [q] }).Perm (q :: t.flight) := by
  rw [flight, flight, List.append_assoc]
  exact List.perm_middle

/-- A process that has been run leaves an orderly bank behind. -/
theorem orderly_of_ran (h : Orderly cfg.array.blockAddress c.policy.waits (p :: rest) c.flight)
    (hc : c.theMAFPipeline = rest) (hran : Ran cfg c p t q)
    (hone : c.policy.completes cfg p = true → ∀ q ∈ c.flight, ∀ i w, q.wakes = some i →
      c.policy.waits.entry i = some w → w.address ≠ p.transport.address) :
    Orderly cfg.array.blockAddress t.policy.waits t.theMAFPipeline (q :: t.flight) := by
  rw [hran.mafPipeline, hc, hran.flight]
  cases hran.decided with
  | decides hkept hdecides _ =>
    refine h.decide cfg.array.blockAddress_idem (past _) wakeMAF_of_beq hdecides hkept fun hw => ?_
    exact hone (hran.discharges.completes_of_wakes hw)
  | discards hp hq haction hmaf hi hW =>
    rw [hW]
    exact h.discard hp hi haction
  | other hp hq haction hW =>
    rw [hW]
    obtain ⟨hw, hr⟩ := ProcessAction.inert_of_idle haction
    refine h.dequeue.addIdle hw hr ?_
    intro hrem
    rw [hrem] at haction
    cases haction

/-- A process that goes on leaves the bank as orderly as it found it. -/
theorem sound_of_advances
    (h : Orderly cfg.array.blockAddress t.policy.waits t.theMAFPipeline (q :: t.flight))
    (hadv : Advances cfg t q c') : Sound cfg c' := by
  rcases hadv with rfl | hend
  · exact h.perm perm_flight.symm
  · obtain ⟨hm, hdt, hdata, -, -, hw⟩ := ended_finalizeProcess hend
    rw [Sound, flight, hm, hdt, hdata]
    exact h.finalize hw

/-- **The step lemma of the orderly bank.** -/
theorem sound_step (h : Sound cfg c) (hguard : PicksAlone cfg c e) (hs : step cfg c e = .ok c') :
    Sound cfg c' := by
  cases step_moves hs with
  | stays hpolicy hqueue hflight =>
    rw [Sound, hpolicy, hqueue]
    exact Orderly.perm h hflight
  | queues htype haction hqueue hflight hwaits hkeeps =>
    rw [Sound, hqueue, hflight, hwaits]
    exact Orderly.enqueue h htype haction
  | wakes hi hst htype haction hmaf hmsg hqueue hflight hwaits hkeeps =>
    rw [Sound, hqueue, hflight, hwaits]
    exact Orderly.schedule h hi hst haction hmaf hmsg
  | ends hqueue hflight hdirEB hcacheEB hwaits =>
    rw [Sound, hqueue]
    exact (Orderly.perm h hflight).finalize hwaits
  | runs hevent hqueue hran hadvances =>
    rename_i p q t rest
    rw [Sound, hqueue] at h
    refine sound_of_advances (orderly_of_ran (c := { c with theMAFPipeline := rest }) h rfl hran ?_)
      hadvances
    exact hguard hevent p rest hqueue

/-- What an entry waits for is still there when a process has been run, or the entry has
been picked. -/
theorem owes_of_ran (ho : Orderly cfg.array.blockAddress c.policy.waits (p :: rest) c.flight)
    (hran : Ran cfg c p t q)
    (hdrop : ∀ A, c.policy.dropsWriteBack cfg p A →
      (c.policy.completes cfg p = true ∧ A = p.transport.address) ∨
        ∀ i w, c.policy.waits.entry i = some w → w.address = A → w.state = .waitEvict →
          c.policy.theDirEvictBuffer.invalidatesPending A ∨ ∃ q ∈ c.flight, q.wakes = some i)
    {i : ℕ} {w : Wait} (hi : c.policy.waits.entry i = some w) (hst : w.state = .waitEvict)
    (howes : c.policy.Owes w.address) :
    t.policy.Owes w.address ∨ q.wakes = some i ∨ ∃ r ∈ c.flight, r.wakes = some i := by
  have hdis := hran.discharges
  -- when the process completes the eviction, it has picked this very entry
  have hpicked : c.policy.completes cfg p = true → w.address = p.transport.address →
      q.wakes = some i := by
    intro hcomp ha
    have hwk := (hdis.wakes_of_completes hcomp).resolve_right fun hnone => hnone i w hi ha hst
    cases hran.decided with
    | decides hkept hdecides _ =>
      cases hdecides.decision with
      | sleep haction => rw [haction] at hwk; cases hwk
      | activate haction => rw [(ProcessAction.inert_of_granted haction).1] at hwk; cases hwk
      | redundant haction =>
        rw [haction] at hwk
        split at hwk <;> cases hwk
      | pick haction hmaf hj hjst hja hW =>
        have hij := ho.single i _ w _ hi hj (ha.trans hja.symm) hst hjst
        exact Process.wakes_eq_some.mpr ⟨haction, hij ▸ hmaf⟩
      | finish haction =>
        rw [ProcessAction.removes_of_wakes hwk] at haction
        cases haction
      | pass haction => rw [(ProcessAction.inert_of_idle haction).1] at hwk; cases hwk
    | discards hp hq haction => rw [haction] at hwk; cases hwk
    | other hp hq haction => rw [(ProcessAction.inert_of_idle haction).1] at hwk; cases hwk
  have hinv : c.policy.theDirEvictBuffer.invalidatesPending w.address →
      t.policy.Owes w.address ∨ q.wakes = some i ∨ ∃ r ∈ c.flight, r.wakes = some i := by
    intro hA
    rcases hdis.invalidates w.address hA with hA | ⟨hcomp, ha⟩
    · exact .inl (.inl hA)
    · exact .inr (.inl (hpicked hcomp ha))
  rcases howes with hA | hA
  · exact hinv hA
  · rcases hdis.writeBack w.address hA with hA | ⟨hcomp, ha⟩ | hdr
    · exact .inl (.inr hA)
    · exact .inr (.inl (hpicked hcomp ha))
    · rcases hdrop w.address hdr with ⟨hcomp, ha⟩ | hother
      · exact .inr (.inl (hpicked hcomp ha))
      · rcases hother i w hi rfl hst with hA | hA
        · exact hinv hA
        · exact .inr (.inr hA)

theorem owes_congr {s s' : Policy δ γ} (hd : s'.theDirEvictBuffer = s.theDirEvictBuffer)
    (hc : s'.theCacheEvictBuffer = s.theCacheEvictBuffer) : s'.Owes = s.Owes := by
  funext A
  rw [Policy.Owes, hd, hc, Policy.Owes]

/-- Running a process leaves every entry that waits for an eviction with a reason. -/
theorem reasoned_of_ran
    (ho : Orderly cfg.array.blockAddress c.policy.waits (p :: rest) c.flight) (h : Awaited c)
    (hran : Ran cfg c p t q)
    (hdrop : ∀ A, c.policy.dropsWriteBack cfg p A →
      (c.policy.completes cfg p = true ∧ A = p.transport.address) ∨
        ∀ i w, c.policy.waits.entry i = some w → w.address = A → w.state = .waitEvict →
          c.policy.theDirEvictBuffer.invalidatesPending A ∨ ∃ q ∈ c.flight, q.wakes = some i) :
    Reasoned t.policy.Owes t.policy.waits (q :: t.flight) := by
  have hstill : ∀ i w, c.policy.waits.entry i = some w → w.state = .waitEvict →
      c.policy.Owes w.address →
        t.policy.Owes w.address ∨ q.wakes = some i ∨ ∃ r ∈ c.flight, r.wakes = some i :=
    fun i w hi hst => owes_of_ran ho hran hdrop hi hst
  rw [hran.flight]
  have hold : Reasoned t.policy.Owes c.policy.waits (q :: c.flight) := by
    intro i w hi hst
    have hmem : (∃ r ∈ c.flight, r.wakes = some i) → ∃ r ∈ q :: c.flight, r.wakes = some i := by
      rintro ⟨r, hr, hri⟩
      exact ⟨r, List.mem_cons_of_mem q hr, hri⟩
    rcases h i w hi hst with howes | hr
    · rcases hstill i w hi hst howes with hA | hA | hA
      · exact .inl hA
      · exact .inr ⟨q, List.mem_cons_self, hA⟩
      · exact .inr (hmem hA)
    · exact .inr (hmem hr)
  cases hran.decided with
  | decides hkept hdecides _ =>
    exact h.decide ho cfg.array.blockAddress_idem (past _) wakeMAF_of_beq hdecides hstill
  | discards hp hq haction hmaf hi hW =>
    rw [hW]
    refine hold.sub fun j v hj _ => ?_
    rw [Waits.entry_erase] at hj
    split at hj
    · cases hj
    · exact hj
  | other hp hq haction hW =>
    rw [hW]
    exact hold

/-- **The step lemma of the reasons to wait.** -/
theorem awaited_step (ho : Sound cfg c) (h : Awaited c) (hguard : KeepsReasons cfg c e)
    (hs : step cfg c e = .ok c') : Awaited c' := by
  cases step_moves hs with
  | stays hpolicy hqueue hflight =>
    rw [Awaited, hpolicy]
    exact Reasoned.perm h hflight
  | queues htype haction hqueue hflight hwaits hkeeps =>
    rw [Awaited, hflight, hwaits]
    exact Reasoned.mono h fun A => hkeeps.owes
  | wakes hi hst htype haction hmaf hmsg hqueue hflight hwaits hkeeps =>
    rw [Awaited, hflight, hwaits]
    refine (Reasoned.mono h fun A => hkeeps.owes).sub fun j v hj hv => ?_
    rw [Waits.entry_set] at hj
    split at hj
    · cases hj
      cases hv
    · exact hj
  | ends hqueue hflight hdirEB hcacheEB hwaits =>
    rw [Awaited, owes_congr hdirEB hcacheEB]
    exact (Reasoned.perm h hflight).finalize hwaits
  | runs hevent hqueue hran hadvances =>
    rename_i p q t rest
    rw [Sound, hqueue] at ho
    have hr := reasoned_of_ran (c := { c with theMAFPipeline := rest }) ho h hran
      (hguard hevent p rest hqueue)
    rcases hadvances with rfl | hend
    · exact hr.perm perm_flight.symm
    · obtain ⟨hm, hdt, hdata, hd, hb, hw⟩ := ended_finalizeProcess hend
      rw [Awaited, flight, hdt, hdata, owes_congr hd hb]
      exact hr.finalize hw

/-! ### Every run -/

theorem sound_init : Sound cfg (init cfg) := Orderly.init

theorem awaited_init : Awaited (init cfg) := Reasoned.init

/-- **A bank is orderly in every run** in which its picks do not overlap. -/
theorem orderly_of_reachable (h : (machine cfg).ReachableWhen (PicksAlone cfg) c) : Sound cfg c :=
  h.invariant (I := Sound cfg) sound_init fun _ _ _ hc hg hs => sound_step hc hg hs

theorem action_of_mem_queue (h : Sound cfg c) (hp : p ∈ c.theMAFPipeline) :
    p.action.wakes = false := by
  rw [Orderly.undecided h p hp]
  rfl

theorem mem_flight_of_wakes (h : Sound cfg c) (hp : p ∈ c.unfinished)
    (hw : p.action.wakes = true) : p ∈ c.flight := by
  rcases List.mem_append.mp hp with hp | hp
  · rw [action_of_mem_queue h hp] at hw
    cases hw
  · exact hp

theorem wakeupsOk_of_sound (ho : Sound cfg c) (h : Awaited c) : WakeupsOk c := by
  have hmem : ∀ {p}, p ∈ c.flight → p ∈ c.unfinished := fun hp => List.mem_append_right _ hp
  constructor
  · intro i x hi hst
    obtain ⟨j, v, hj, ha, hv⟩ := ho.behind i x.wait (Policy.entry_of_get hi) hst
    obtain ⟨y, hy, rfl⟩ := MissAddressFile.waits_entry.mp hj
    refine ⟨j, y, ?_, hy, ha, hv.imp_right .inl⟩
    rintro rfl
    rw [hi] at hy
    cases hy
    rcases hv with hv | hv
    · rw [show x.wait.state = _ from hst] at hv
      cases hv
    · rw [show x.wait.state = _ from hst] at hv
      cases hv
  · intro i x hi hst
    rcases h i x.wait (Policy.entry_of_get hi) hst with (hA | hA) | ⟨p, hp, hpi⟩
    · exact .inl hA
    · exact .inr (.inl hA)
    · exact .inr (.inr ⟨p, hmem hp, Process.wakes_eq_some.mp hpi⟩)
  · intro p hp hw
    obtain ⟨i, w, hm, hi, hst⟩ := ho.wakers p (mem_flight_of_wakes ho hp hw) hw
    obtain ⟨x, hx, rfl⟩ := MissAddressFile.waits_entry.mp hi
    exact ⟨i, x, hm, hx, hst⟩
  · have honce := ho.once
    rw [List.Nodup, List.pairwise_filterMap] at honce
    refine List.pairwise_append.mpr ⟨?_, ?_, ?_⟩
    · refine (List.pairwise_of_forall fun _ _ => trivial : c.theMAFPipeline.Pairwise
        fun _ _ => True).imp_of_mem fun hp _ _ hw => ?_
      rw [action_of_mem_queue ho hp] at hw
      cases hw
    · refine honce.imp_of_mem fun {p q} hp hq hpq hpw hqw heq => ?_
      obtain ⟨i, w, hm, -⟩ := ho.wakers p hp hpw
      exact hpq i (Process.wakes_eq_some.mpr ⟨hpw, hm⟩) i
        (Process.wakes_eq_some.mpr ⟨hqw, heq ▸ hm⟩) rfl
    · intro p hp q _ hw
      rw [action_of_mem_queue ho hp] at hw
      cases hw

/-- **No wake-up is lost or duplicated**, in every run in which the picks of a bank do not
overlap and no write-back is given up that an entry waits for. -/
theorem wakeups_neither_lost_nor_duplicated (cfg : Config δ γ)
    (h : (machine cfg).ReachableWhen (fun c e => PicksAlone cfg c e ∧ KeepsReasons cfg c e) c) :
    WakeupsOk c := by
  have hinv : Sound cfg c ∧ Awaited c := by
    refine h.invariant (I := fun c => Sound cfg c ∧ Awaited c) ⟨sound_init, awaited_init⟩ ?_
    rintro c e c' ⟨ho, hw⟩ ⟨hpicks, hreasons⟩ hs
    exact ⟨sound_step ho hpicks hs, awaited_step ho hw hreasons hs⟩
  exact wakeupsOk_of_sound hinv.1 hinv.2

/-! ### Two runs -/

/-- The process that is run next lets no eviction through and acknowledges no write, and
if it ends an eviction no entry is about to be woken. -/
def harmless (cfg : Config δ γ) (c : Controller δ γ) (e : Event) : Bool :=
  match e, c.theMAFPipeline with
  | .runMAF, p :: _ =>
    (!c.policy.completes cfg p || c.flight.all fun q => !q.action.wakes) &&
      !c.policy.evicts cfg p && p.transport.type != writeAck && p.transport.type != upgradeAck
  | _, _ => true

theorem of_harmless (h : harmless cfg c .runMAF = true) (hq : c.theMAFPipeline = p :: rest) :
    (c.policy.completes cfg p = true → ∀ q ∈ c.flight, q.action.wakes = false) ∧
      c.policy.evicts cfg p = false ∧ p.transport.type ≠ writeAck ∧
      p.transport.type ≠ upgradeAck := by
  simp only [harmless, hq, Bool.and_eq_true, Bool.or_eq_true, Bool.not_eq_true', bne_iff_ne,
    List.all_eq_true] at h
  obtain ⟨⟨⟨hc, hev⟩, hw⟩, hu⟩ := h
  refine ⟨fun hcomp => hc.resolve_left ?_, hev, hw, hu⟩
  rw [hcomp]
  exact nofun

theorem guards_of_harmless (h : harmless cfg c e = true) :
    PicksAlone cfg c e ∧ KeepsReasons cfg c e := by
  constructor
  · rintro rfl p rest hq hcomp q hqm i w hqi
    have hidle := (of_harmless h hq).1 hcomp q hqm
    rw [(Process.wakes_eq_some.mp hqi).1] at hidle
    cases hidle
  · rintro rfl p rest hq A ⟨-, -, ⟨hev, -⟩ | ⟨-, ht | ht, -⟩⟩
    · rw [(of_harmless h hq).2.1] at hev
      cases hev
    · exact absurd ht (of_harmless h hq).2.2.1
    · exact absurd ht (of_harmless h hq).2.2.2

/-- A block is read and then displaced by another one; its write-back is sent, and another
cache asks for it. -/
def readEvictRead : List Event :=
  readMiss 64 0 ++ readMiss 128 1 ++
    [.idleWork, .runMAF, .runDirTag, .request (message readReq 64 1), .runMAF]

set_option maxRecDepth 8000 in
/-- The second read sleeps, and the write-back it sleeps for is on its way. -/
theorem wakeups_after_readEvictRead : ∃ (c : Controller _ _) (e : MAFEntry),
    (machine (smallBank 2 1 true)).ReachableWhen
      (fun c e => PicksAlone (smallBank 2 1 true) c e ∧ KeepsReasons (smallBank 2 1 true) c e) c ∧
    c.policy.theMAF.get 2 = some e ∧ e.state = .waitEvict ∧ WakeupsOk c := by
  obtain ⟨c, hrun, e, he, hst⟩ : ∃ c, (machine (smallBank 2 1 true)).run readEvictRead = .ok c ∧
      ∃ e, c.policy.theMAF.get 2 = some e ∧ e.state = .waitEvict := ⟨_, rfl, _, rfl, rfl⟩
  have hr := Lib.Machine.reachableWhen_of_run (fun _ _ => guards_of_harmless)
    (rfl : (machine (smallBank 2 1 true)).passes (harmless (smallBank 2 1 true)) _ readEvictRead =
      true) hrun
  exact ⟨c, e, hr, he, hst, wakeups_neither_lost_nor_duplicated (smallBank 2 1 true) hr⟩

set_option maxRecDepth 8000 in
theorem orderly_after_readEvictRead : ∃ c : Controller _ _,
    (machine (smallBank 2 1 true)).run readEvictRead = .ok c ∧ Sound (smallBank 2 1 true) c := by
  obtain ⟨c, hrun⟩ : ∃ c, (machine (smallBank 2 1 true)).run readEvictRead = .ok c := ⟨_, rfl⟩
  have hr := Lib.Machine.reachableWhen_of_run (fun _ _ h => (guards_of_harmless h).1)
    (rfl : (machine (smallBank 2 1 true)).passes (harmless (smallBank 2 1 true)) _ readEvictRead =
      true) hrun
  exact ⟨c, hrun, orderly_of_reachable hr⟩

set_option maxRecDepth 8000 in
/-- **A wake-up is lost**: the first cache has written its copy of the block and evicts it
while the write-back is on its way. The write-back is given up, and the second read
sleeps on with nothing left to wake it. -/
theorem wakeup_lost_by_evictDirty : ¬ ∀ c : Controller _ _,
    (machine (smallBank 2 1 true)).Reachable c → WakeupsOk c := by
  intro h
  obtain ⟨c, hrun, e, he, hst, ha, hd, hb, hw⟩ : ∃ c, (machine (smallBank 2 1 true)).run
      (readEvictRead ++ [.request (message evictDirty 64 0), .runMAF]) = .ok c ∧
      ∃ e, c.policy.theMAF.get 2 = some e ∧ e.state = .waitEvict ∧ e.address = 64 ∧
        c.policy.theDirEvictBuffer.find 64 = none ∧
        c.policy.theCacheEvictBuffer.find 64 = none ∧
        (c.unfinished.all fun p => !p.action.wakes) = true :=
    ⟨_, rfl, _, rfl, rfl, rfl, rfl, rfl, rfl⟩
  rcases (h c (Lib.Machine.reachable_of_run hrun)).evictions 2 e he hst with
    ⟨x, hx, -⟩ | ⟨x, hx, -⟩ | ⟨p, hp, hpw, -⟩
  · rw [ha, hd] at hx
    cases hx
  · rw [ha, hb] at hx
    cases hx
  · have := List.all_eq_true.mp hw p hp
    rw [hpw] at this
    cases this

end Controller

end CMPCache

end Flexus
