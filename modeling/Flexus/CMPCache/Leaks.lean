import Flexus.CMPCache.Wakeups

/-!
# No entry of the miss address file is leaked

A woken entry is taken into the pipeline by the process that runs it, and that process
gives it back: it puts it to sleep again, keeps it until an acknowledgement comes, or
removes it. So an entry that is in the pipeline belongs to exactly one process that has
not been finalized. The size of the file is the number of requests that are neither queued
nor finished, where a request is finished by the acknowledgement that comes in for it, or is
done when it is run (`Flexus.CMPCache.Controller.NoLeak`): when all have been finished, the
file is empty.

The exception is an eviction. An eviction that had to wait is woken like a request, but
when it is let through at last it leaves its entry where it is, and nobody ever removes
it (`Flexus.CMPCache.Controller.GivesBack` excludes that). The last section shows it
happen.
-/

namespace Flexus

open List

namespace CMPCache

open MemoryMessageType

/-! ### Who has an entry -/

/-- **The invariant of the entries in the pipeline**, for a table of waits, the queued
processes and those in flight. -/
structure Owned (W : Waits) (queue flight : List Process) : Prop where
  /-- An entry waits, wakes or is in the pipeline. -/
  live : ∀ i w, W.entry i = some w →
    w.state.isWaiting = true ∨ w.state = .waking ∨ w.state = .inPipeline
  /-- An entry in the pipeline has its process in the queue. -/
  queued : ∀ i w, W.entry i = some w → w.state = .inPipeline →
    ∃ p ∈ queue, p.type = .wakeMAF ∧ p.maf = some i
  /-- A process in flight has given back its entry, or waits for an acknowledgement with
  it. -/
  returned : ∀ p ∈ flight, p.type = .wakeMAF → p.action ≠ .stall → ∃ i, p.maf = some i ∧
    i < W.next ∧ ∀ w, W.entry i = some w → w.state = .waitAck

namespace Owned

variable {block : ℕ → ℕ} {W W' : Waits} {Q F F' : List Process} {p q : Process} {i : ℕ} {w : Wait}

theorem init : Owned ⟨fun _ => none, 0⟩ [] [] where
  live := by intro i w h; cases h
  queued := by intro i w h; cases h
  returned := by intro p hp; cases hp

theorem perm (h : Owned W Q F) (hF : F.Perm F') : Owned W Q F' :=
  { h with returned := fun p hp => h.returned p (hF.mem_iff.mpr hp) }

theorem forget (h : Owned W Q (p :: F)) : Owned W Q F :=
  { h with returned := fun q hq => h.returned q (mem_cons_of_mem p hq) }

theorem enqueue (h : Owned W Q F) : Owned W (Q ++ [p]) F :=
  { h with
    queued := by
      intro i w hi hst
      obtain ⟨q, hq, hqt, hqm⟩ := h.queued i w hi hst
      exact ⟨q, mem_append_left _ hq, hqt, hqm⟩ }

/-- A process in flight that has no entry, or has given it back. -/
theorem add (h : Owned W Q F) (hp : p.type = .wakeMAF → p.action ≠ .stall → ∃ i, p.maf = some i ∧
    i < W.next ∧ ∀ w, W.entry i = some w → w.state = .waitAck) : Owned W Q (p :: F) :=
  { h with
    returned := by
      intro q hq ht ha
      rcases mem_cons.mp hq with rfl | hq
      · exact hp ht ha
      · exact h.returned q hq ht ha }

/-- Entries are removed or woken, those in the pipeline and those that wait for an
acknowledgement excepted. -/
theorem table (h : Owned W Q F) (hn : W.next ≤ W'.next)
    (hW : ∀ i w, W'.entry i = some w → W.entry i = some w ∨
      (w.state = .waking ∧ ∃ v, W.entry i = some v ∧ v.state ≠ .waitAck)) : Owned W' Q F where
  live := by
    intro i w hi
    rcases hW i w hi with hi | ⟨hst, -⟩
    · exact h.live i w hi
    · exact .inr (.inl hst)
  queued := by
    intro i w hi hst
    rcases hW i w hi with hi | ⟨hwk, -⟩
    · exact h.queued i w hi hst
    · rw [hst] at hwk
      cases hwk
  returned := by
    intro p hp ht ha
    obtain ⟨i, hm, hlt, hi⟩ := h.returned p hp ht ha
    refine ⟨i, hm, Nat.lt_of_lt_of_le hlt hn, fun w hw => ?_⟩
    rcases hW i w hw with hw | ⟨-, v, hv, hne⟩
    · exact hi w hw
    · exact absurd (hi v hv) hne

theorem schedule (h : Owned W Q F) (hi : W.entry i = some w) (hst : w.state = .waking)
    (hp : p.type = .wakeMAF) (hm : p.maf = some i) :
    Owned (W.set i { w with state := .inPipeline }) (Q ++ [p]) F where
  live := by
    intro j v hj
    rw [Waits.entry_set] at hj
    split at hj
    · cases hj
      exact .inr (.inr rfl)
    · exact h.live j v hj
  queued := by
    intro j v hj hv
    rw [Waits.entry_set] at hj
    split at hj
    · rename_i hji
      exact ⟨p, mem_append_right _ (mem_singleton.mpr rfl), hp, hji ▸ hm⟩
    · exact h.enqueue.queued j v hj hv
  returned := by
    intro q hq ht ha
    obtain ⟨j, hqm, hlt, hj⟩ := h.returned q hq ht ha
    refine ⟨j, hqm, hlt, fun v hv => ?_⟩
    rw [Waits.entry_set] at hv
    split at hv
    · -- an entry that is woken has not been given back
      rename_i hji
      have := hj w (hji ▸ hi)
      rw [hst] at this
      cases this
    · exact hj v hv

/-- The head of the queue puts its entry, or a new one, into a state in which it waits. -/
theorem put (h : Owned W (p :: Q) F) (hput : Orderly.Puts W Q i w W')
    (hp : p.type = .wakeMAF → p.maf = some i) (hst : w.state.isWaiting = true) :
    Owned W' Q F where
  live := by
    intro j v hj
    rw [hput.entry] at hj
    split at hj
    · cases hj
      exact .inl hst
    · exact h.live j v hj
  queued := by
    intro j v hj hv
    rw [hput.entry] at hj
    split at hj
    · cases hj
      rw [hv] at hst
      cases hst
    · -- an entry of another process, which is not the head
      rename_i hji
      obtain ⟨q, hq, hqt, hqm⟩ := h.queued j v hj hv
      rcases mem_cons.mp hq with rfl | hq
      · rw [hp hqt] at hqm
        cases hqm
        exact absurd rfl hji
      · exact ⟨q, hq, hqt, hqm⟩
  returned := by
    intro q hq ht ha
    obtain ⟨j, hqm, hlt, hj⟩ := h.returned q hq ht ha
    refine ⟨j, hqm, Nat.lt_of_lt_of_le hlt hput.next, fun v hv => ?_⟩
    rw [hput.entry] at hv
    split at hv
    · -- what has been given back is neither new nor in the pipeline
      rename_i hji
      subst hji
      cases hW : W.entry j with
      | none => exact absurd (hput.fresh hW) (Nat.not_le.mpr hlt)
      | some u =>
        have hu := hj u hW
        rw [hput.held u hW] at hu
        cases hu
    · exact hj v hv

theorem dequeue (h : Owned W (p :: Q) F) (hp : p.type ≠ .wakeMAF) : Owned W Q F :=
  { h with
    queued := by
      intro i w hi hst
      obtain ⟨q, hq, hqt, hqm⟩ := h.queued i w hi hst
      rcases mem_cons.mp hq with rfl | hq
      · exact absurd hqt hp
      · exact ⟨q, hq, hqt, hqm⟩ }

theorem discard (h : Owned W (p :: Q) F) (hm : p.maf = some i) : Owned (W.erase i) Q F where
  live := by
    intro j v hj
    rw [Waits.entry_erase] at hj
    split at hj
    · cases hj
    · exact h.live j v hj
  queued := by
    intro j v hj hv
    rw [Waits.entry_erase] at hj
    split at hj
    · cases hj
    · rename_i hji
      obtain ⟨q, hq, hqt, hqm⟩ := h.queued j v hj hv
      rcases mem_cons.mp hq with rfl | hq
      · rw [hm] at hqm
        cases hqm
        exact absurd rfl hji
      · exact ⟨q, hq, hqt, hqm⟩
  returned := by
    intro q hq ht ha
    obtain ⟨j, hqm, hlt, hj⟩ := h.returned q hq ht ha
    refine ⟨j, hqm, hlt, fun v hv => ?_⟩
    rw [Waits.entry_erase] at hv
    split at hv
    · cases hv
    · exact hj v hv

/-- **Finalizing a process** takes no entry out of the pipeline. -/
theorem finalize {sameSet : ℕ → ℕ → Bool} (h : Owned W Q (p :: F))
    (ho : Orderly block W Q (p :: F)) (hf : Finalizes sameSet W p W') : Owned W' Q F := by
  have herase : ∀ j i w, (W.erase j).entry i = some w → W.entry i = some w := by
    intro j i w hi
    rw [Waits.entry_erase] at hi
    split at hi
    · cases hi
    · exact hi
  cases hf with
  | wake haction hmaf hi =>
    rename_i k u
    refine h.forget.table (Nat.le_refl _) fun j v hj => ?_
    -- what is woken was waiting, so it is not taken out of the pipeline
    obtain ⟨x, hx, -, -, ⟨hP, hwk⟩ | ⟨-, rfl⟩⟩ := Orderly.of_wake hj
    · refine .inr ⟨hwk, x, hx, ?_⟩
      rcases of_decide_eq_true hP with rfl | ⟨-, hst⟩
      · obtain ⟨i', w', hm, hw', hst⟩ := ho.wakers p mem_cons_self haction
        rw [hmaf] at hm
        cases hm
        rw [hx] at hw'
        cases hw'
        rw [hst]
        decide
      · rw [hst]
        decide
    · exact .inl hx
  | remove haction hmaf hi hj =>
    exact h.forget.table (Nat.le_refl _) fun j v hv => .inl (herase _ j v hv)
  | removeAndWake haction hmaf hi =>
    refine h.forget.table (Nat.le_refl _) fun j v hj => ?_
    obtain ⟨x, hx, -, -, ⟨hP, hwk⟩ | ⟨-, rfl⟩⟩ := Orderly.of_wake hj
    · refine .inr ⟨hwk, x, herase _ j x hx, fun hack => ?_⟩
      rw [hack] at hP
      simp at hP
    · exact .inl (herase _ j v hx)
  | drop haction hmaf hi =>
    exact h.forget.table (Nat.le_refl _) fun j v hv => .inl (herase _ j v hv)
  | idle => exact h.forget

/-- A message that sleeps does so in a state from which it can be woken. -/
theorem isWaiting_of_sleepsFor {owes : ℕ → Prop} {a : ℕ} {st : MAFState}
    (h : SleepsFor owes W a st) : st.isWaiting = true := by
  cases st <;> first | rfl | exact absurd h not_false

/-- **Running a process.** A process with an entry must put it somewhere. -/
theorem decide {owes : ℕ → Prop} (h : Owned W (p :: Q) F) (ho : Orderly block W (p :: Q) F)
    (hidem : ∀ a, block (block a) = block a) (hpast : ∀ i w, W.entry i = some w → i < W.next)
    (hd : Settles block owes W p.type p.maf p.transport.address (p.type == .wakeMAF) W' q)
    (hkept : q.action ≠ .removeMAF) (hheld : p.type = .wakeMAF → q.action.entered = true) :
    Owned W' Q (q :: F) := by
  have hhas : (p.type == .wakeMAF) = true → p.type = .wakeMAF := fun hb => beq_iff_eq.mp hb
  have hown : ∀ {a st W' i}, Enters W p.maf p.transport.address a st (p.type == .wakeMAF) W' i →
      p.type = .wakeMAF → p.maf = some i := by
    intro a st W' i he hp
    rw [hp] at he
    cases he with
    | own hmaf => exact hmaf
  -- a process that leaves the file alone has no entry
  have hother : p.type ≠ .wakeMAF → W' = W → Owned W' Q (q :: F) := by
    rintro hp rfl
    refine (h.dequeue hp).add fun hq => ?_
    rw [hd.type] at hq
    exact absurd hq hp
  cases hd.decision with
  | sleep haction hmaf ha henters hfor =>
    have ha' := ho.block_of_sleep hidem ha hfor
    -- the entry waits again, and the process has stalled
    have hput := ho.puts_of_enters hpast hhas ha' henters
    refine (h.put hput (hown henters) (isWaiting_of_sleepsFor hfor)).add fun _ hst => ?_
    exact absurd haction hst
  | activate haction hmaf henters =>
    -- the entry waits for its acknowledgement, and the process goes on
    have hput := ho.puts_of_enters hpast hhas rfl henters
    refine (h.put hput (hown henters) rfl).add fun _ _ => ⟨_, hmaf, hput.lt_next, fun v hv => ?_⟩
    rw [hput.entry, if_pos rfl] at hv
    cases hv
    rfl
  | redundant haction hmaf hW =>
    refine hother (fun hp => hkept ?_) hW
    rw [haction, hp]
    rfl
  | pick haction hmaf hi hst ha hW =>
    refine hother (fun hp => ?_) hW
    rw [(ProcessAction.inert_of_entered (hheld hp)).1] at haction
    cases haction
  | finish haction hmaf hi hst ha hW =>
    refine hother (fun hp => ?_) hW
    rw [(ProcessAction.inert_of_entered (hheld hp)).2] at haction
    cases haction
  | pass haction hanswer hW =>
    refine hother (fun hp => ?_) hW
    have hne := hanswer (by rw [hd.type, hp]; exact nofun)
    have hent := hheld hp
    revert haction hne hent
    cases q.action <;> simp [ProcessAction.idle, ProcessAction.entered, ProcessAction.granted]

end Owned

/-! ### The entries of a bank -/

variable {δ γ : Type} {cfg : Config δ γ}

/-- The process has an entry in the pipeline. One that has stalled has given it back. -/
def Process.hasEntry (i : ℕ) (p : Process) : Bool :=
  p.type == .wakeMAF && p.maf == some i && p.action != .stall

theorem Process.hasEntry_iff {i : ℕ} {p : Process} :
    p.hasEntry i = true ↔ p.type = .wakeMAF ∧ p.maf = some i ∧ p.action ≠ .stall := by
  simp [Process.hasEntry, and_assoc]

namespace Controller

/-- The requests that a run has taken in. -/
def requested (cfg : Config δ γ) (es : List Event) : ℕ :=
  (machine cfg).total (requests cfg) (init cfg) es

/-- The requests that were done when they were run, and the messages that finish a request. -/
def answered (cfg : Config δ γ) (es : List Event) : ℕ :=
  (machine cfg).total (finished cfg) (init cfg) es

/-- The requests that have been taken in and not been run. -/
def queuedRequests (c : Controller δ γ) : ℕ := c.theMAFPipeline.countP fun p => p.type == .request

/-- The messages under way that finish a request. -/
def finishing (c : Controller δ γ) : ℕ := c.unfinished.countP Process.finishes

/-- **All requests of a run have been completed**: every one has been answered, and no answer is
under way. -/
def Completed (cfg : Config δ γ) (es : List Event) (c : Controller δ γ) : Prop :=
  answered cfg es = requested cfg es ∧ c.finishing = 0

/-- **No entry is leaked**, in a run that has led to a state of the bank. -/
structure NoLeak (cfg : Config δ γ) (es : List Event) (c : Controller δ γ) : Prop where
  /-- An entry in the pipeline belongs to exactly one process that is not finalized. -/
  owned : ∀ i e, c.policy.theMAF.get i = some e → e.state = .inPipeline →
    c.unfinished.countP (Process.hasEntry i) = 1
  /-- The entries are those of the requests that have been run and not been answered, or whose
  answer is under way. -/
  balance : c.policy.theMAF.theCurSize + c.queuedRequests + answered cfg es =
    requested cfg es + c.finishing
  /-- A message that finishes a request removes an entry at its end. -/
  removed : ∀ p ∈ c.flight, p.finishes = true → ∀ c', c.finalizeProcess cfg p = .ok c' →
    ∃ i e, p.maf = some i ∧ c.policy.theMAF.get i = some e ∧ c'.policy.theMAF.get i = none
  /-- When all requests have been completed, the file is empty. -/
  empty : Completed cfg es c → c.policy.theMAF.theCurSize = 0

/-- **A woken message gives its entry back**: when its process is run, the entry waits
again afterwards, or it is gone. -/
def ReturnsEntry (cfg : Config δ γ) (c : Controller δ γ) : Prop :=
  ∀ p rest i c', c.theMAFPipeline = p :: rest → p.type = .wakeMAF → p.maf = some i →
    step cfg c .runMAF = .ok c' →
    ∀ e, c'.policy.theMAF.get i = some e → e.state.isWaiting = true

/-- A woken eviction is run only when it is held up again. -/
def GivesBack (cfg : Config δ γ) (c : Controller δ γ) (e : Event) : Prop :=
  e = .runMAF → ∀ p rest, c.theMAFPipeline = p :: rest → p.type = .wakeMAF →
    c.policy.evicts cfg p = false

variable {c c' t : Controller δ γ} {e : Event} {es : List Event} {p q : Process}
  {rest : List Process} {i : ℕ}

/-- The entries of the bank that are in the pipeline have their processes. -/
def Kept (c : Controller δ γ) : Prop := Owned c.policy.waits c.theMAFPipeline c.flight

theorem kept_init : Kept (init cfg) := Owned.init

theorem owned_of_ran (ho : Orderly cfg.array.blockAddress c.policy.waits (p :: rest) c.flight)
    (h : Owned c.policy.waits (p :: rest) c.flight) (hran : Ran cfg c p t q)
    (hc : c.theMAFPipeline = rest)
    (hgives : p.type = .wakeMAF → c.policy.evicts cfg p = false) :
    Owned t.policy.waits t.theMAFPipeline (q :: t.flight) := by
  rw [hran.mafPipeline, hc, hran.flight]
  cases hran.decided with
  | decides hkept hdecides hheld =>
    exact h.decide ho cfg.array.blockAddress_idem (past _) hdecides hkept fun hp =>
      hheld hp (hgives hp)
  | discards hp hq haction hmaf hi hW =>
    rw [hW]
    refine (h.discard hi).add fun _ _ => ⟨_, hmaf.trans hi, ?_, fun w hw => ?_⟩
    · obtain ⟨j, v, hj, hv, -⟩ := ho.holds p mem_cons_self hp
      rw [hi] at hj
      cases hj
      exact past _ _ v hv
    · rw [Waits.entry_erase, if_pos rfl] at hw
      cases hw
  | other hp hq haction hW =>
    have hne : p.type ≠ .wakeMAF := fun ht => by simp [Process.isRequest, ht] at hp
    rw [hW]
    refine (h.dequeue hne).add fun hqt => ?_
    rw [hq] at hqt
    exact absurd hqt hne

/-- **The step lemma of the entries in the pipeline.** -/
theorem kept_step (ho : Sound cfg c) (h : Kept c) (hpicks : PicksAlone cfg c e)
    (hgives : GivesBack cfg c e) (hs : step cfg c e = .ok c') : Kept c' := by
  cases step_moves hs with
  | stays hpolicy hqueue hflight =>
    rw [Kept, hpolicy, hqueue]
    exact Owned.perm h hflight
  | queues htype haction hqueue hflight hwaits hkeeps =>
    rw [Kept, hqueue, hflight, hwaits]
    exact Owned.enqueue h
  | wakes hi hst htype haction hmaf hmsg hqueue hflight hwaits hkeeps =>
    rw [Kept, hqueue, hflight, hwaits]
    exact Owned.schedule h hi hst htype hmaf
  | ends hqueue hflight hdirEB hcacheEB hwaits =>
    rw [Kept, hqueue]
    exact (Owned.perm h hflight).finalize (Orderly.perm ho hflight) hwaits
  | runs hevent hqueue hran hadvances =>
    rename_i p q t rest
    rw [Sound, hqueue] at ho
    rw [Kept, hqueue] at h
    have hor := orderly_of_ran (c := { c with theMAFPipeline := rest }) ho rfl hran
      (hpicks hevent p rest hqueue)
    have hown := owned_of_ran (c := { c with theMAFPipeline := rest }) ho h hran rfl
      (hgives hevent p rest hqueue)
    rcases hadvances with rfl | hend
    · exact hown.perm perm_flight.symm
    · obtain ⟨hm, hdt, hdata, -, -, hw⟩ := ended_finalizeProcess hend
      rw [Kept, flight, hm, hdt, hdata]
      exact hown.finalize hor hw

/-- A list in which one element satisfies a predicate, and no two do. -/
theorem countP_eq_one {α : Type*} {P : α → Bool} {l : List α} (hex : ∃ x ∈ l, P x = true)
    (hpw : l.Pairwise fun x y => P x = true → ¬ P y = true) : l.countP P = 1 := by
  induction l with
  | nil =>
    obtain ⟨x, hx, -⟩ := hex
    cases hx
  | cons a l ih =>
    rw [pairwise_cons] at hpw
    by_cases ha : P a = true
    · rw [countP_cons_of_pos ha, countP_eq_zero.mpr fun y hy => hpw.1 y hy ha]
    · rw [countP_cons_of_neg ha]
      refine ih ?_ hpw.2
      obtain ⟨x, hx, hPx⟩ := hex
      rcases mem_cons.mp hx with rfl | hx
      · exact absurd hPx ha
      · exact ⟨x, hx, hPx⟩

/-! ### The books of the file -/

/-- What finishes a request is going to remove an entry, and nothing else is. -/
def Answering (c : Controller δ γ) : Prop := ∀ p ∈ c.flight, p.action.removes = p.finishes

theorem answering_init : Answering (init cfg) := fun _ hp => absurd hp not_mem_nil

theorem countP_cons_toNat {α : Type*} {P : α → Bool} {a : α} {l : List α} :
    (a :: l).countP P = (P a).toNat + l.countP P := by
  rw [countP_cons, Nat.add_comm]
  cases P a <;> rfl

theorem countP_concat_toNat {α : Type*} {P : α → Bool} {a : α} {l : List α} :
    (l ++ [a]).countP P = l.countP P + (P a).toNat := by
  rw [countP_append, countP_cons_toNat]
  rfl

theorem finishing_eq : c.finishing =
    c.theMAFPipeline.countP Process.finishes + c.flight.countP Process.finishes :=
  countP_append

theorem size_of_ran (ho : Orderly cfg.array.blockAddress c.policy.waits (p :: rest) c.flight)
    (hran : Ran cfg c p t q) (hgives : p.type = .wakeMAF → c.policy.evicts cfg p = false) :
    t.policy.waits.size + (p.isRequest && c.policy.settles cfg p).toNat =
      c.policy.waits.size + (p.type == .request).toNat := by
  have hother : p.isRequest = false → t.policy.waits = c.policy.waits →
      t.policy.waits.size + (p.isRequest && c.policy.settles cfg p).toNat =
        c.policy.waits.size + (p.type == .request).toNat := by
    intro hp hW
    rw [hW, hp, (Bool.or_eq_false_iff.mp hp).1]
    rfl
  cases hran.decided with
  | decides hkept hdecides hheld hfrom =>
    cases hp : p.isRequest with
    | false =>
      rw [← hp]
      exact hother hp (hfrom.resolve_left (by rw [hp]; exact nofun))
    | true =>
      have hsettles := hran.accounts.settles hp
      rcases isRequest_iff.mp hp with ht | ht
      · have hsize := hdecides.decision.size (by rw [hdecides.type, ht]; exact nofun)
        rw [hsettles, hsize, ht]
        cases q.action.entered <;> rfl
      · have hsize := hdecides.decision.size (by rw [hdecides.type, ht]; exact nofun)
        rw [hsettles, hsize, hheld ht (hgives ht), ht]
        rfl
  | discards hp hq haction hmaf hi hW =>
    obtain ⟨j, w, hj, hw, -⟩ := ho.holds p mem_cons_self hp
    rw [hi] at hj
    cases hj
    have hr : p.isRequest = true := isRequest_iff.mpr (.inr hp)
    rw [hW, hran.accounts.settles hr, hr, haction, hp]
    exact Waits.size_erase (past _) hw
  | other hp hq haction hW => exact hother hp hW

/-- **The step lemma of the books.** -/
theorem balance_step (ho : Sound cfg c) (h : Answering c) (hpicks : PicksAlone cfg c e)
    (hgives : GivesBack cfg c e) (hs : step cfg c e = .ok c') : Answering c' ∧
    c'.policy.waits.size + c'.queuedRequests + finished cfg c e + c.finishing =
      c.policy.waits.size + c.queuedRequests + requests cfg c e + c'.finishing := by
  rw [finishing_eq, finishing_eq, queuedRequests, queuedRequests]
  cases step_moves hs with
  | stays hpolicy hqueue hflight hbooks =>
    refine ⟨fun p hp => h p (hflight.mem_iff.mpr hp), ?_⟩
    rw [hpolicy, hqueue, hflight.countP_eq, hbooks.1, hbooks.2]
  | queues htype haction hqueue hflight hwaits hkeeps hbooks =>
    -- a message comes in: it is a request, or an answer, or neither
    refine ⟨by rwa [Answering, hflight], ?_⟩
    rw [hqueue, hflight, hwaits, countP_concat_toNat, countP_concat_toNat, hbooks.1, hbooks.2]
    omega
  | wakes hi hst htype haction hmaf hmsg hqueue hflight hwaits hkeeps hbooks =>
    -- a woken entry stays in the file, so nothing changes
    refine ⟨by rwa [Answering, hflight], ?_⟩
    rw [hqueue, hflight, hwaits, Waits.size_set hi, countP_concat_toNat, countP_concat_toNat,
      finishes_of_ne (by rw [htype]; exact nofun), htype, hbooks.1, hbooks.2]
    rfl
  | ends hqueue hflight hdirEB hcacheEB hwaits hbooks =>
    rename_i p
    -- a process ends: the entry that it removes is the answer that was under way
    have hp : p ∈ c.flight := hflight.mem_iff.mpr mem_cons_self
    have hsize := hwaits.size (past _) (ho.kept p hp)
    rw [h p hp] at hsize
    refine ⟨fun q hq => h q (hflight.mem_iff.mpr (mem_cons_of_mem p hq)), ?_⟩
    rw [hqueue, hflight.countP_eq, countP_cons_toNat, hbooks.1, hbooks.2]
    omega
  | runs hevent hqueue hran hadvances =>
    rename_i p q t rest
    -- the head of the queue is run: a request gets an entry, or is done at once
    rw [Sound, hqueue] at ho
    have hor := orderly_of_ran (c := { c with theMAFPipeline := rest }) ho rfl hran
      (hpicks hevent p rest hqueue)
    have hsize := size_of_ran (c := { c with theMAFPipeline := rest }) ho hran
      (hgives hevent p rest hqueue)
    have hacc := hran.accounts
    have hflight : t.flight = c.flight := hran.flight
    have hq : q.action.removes = q.finishes := hacc.removes.trans hacc.finishes.symm
    have hrest : t.theMAFPipeline = rest := hran.mafPipeline
    have hfinished : finished cfg c e = (p.isRequest && c.policy.settles cfg p).toNat := by
      rw [hevent, finished, hqueue]
    rw [hqueue, countP_cons_toNat, countP_cons_toNat, hfinished, ← hacc.finishes,
      show requests cfg c e = 0 by rw [hevent]; rfl]
    dsimp only at hsize
    rcases hadvances with rfl | hend
    · -- it goes on in flight
      refine ⟨fun r hr => ?_, ?_⟩
      · rcases mem_cons.mp (perm_flight.mem_iff.mp hr) with rfl | hr
        · exact hq
        · exact h r (hflight ▸ hr)
      · rw [perm_flight.countP_eq, countP_cons_toNat, hflight, hrest]
        dsimp only
        omega
    · -- it is finalized in the same cycle
      obtain ⟨hm, hdt, hdata, -, -, hw⟩ := ended_finalizeProcess hend
      have hsame : c'.flight = t.flight := by rw [flight, hdt, hdata, flight]
      have hend := hw.size (past _) (hor.kept q mem_cons_self)
      rw [hq] at hend
      refine ⟨fun r hr => h r ?_, ?_⟩
      · rwa [hsame, hflight] at hr
      · rw [hm, hsame, hflight, hrest]
        omega

theorem owned_of_kept (ho : Sound cfg c) (h : Kept c) {x : MAFEntry}
    (hi : c.policy.theMAF.get i = some x) (hst : x.state = .inPipeline) :
    c.unfinished.countP (Process.hasEntry i) = 1 := by
  rw [show c.unfinished = c.theMAFPipeline ++ c.flight from rfl, countP_append]
  have hentry := Policy.entry_of_get hi
  have hqueue : c.theMAFPipeline.countP (Process.hasEntry i) = 1 := by
    obtain ⟨p, hp, ht, hm⟩ := h.queued i x.wait hentry hst
    refine countP_eq_one ⟨p, hp, Process.hasEntry_iff.mpr ⟨ht, hm, ?_⟩⟩ ?_
    · rw [ho.undecided p hp]
      decide
    · refine ho.apart.imp fun {p q} hpq hP hQ => ?_
      obtain ⟨hpt, hpm, -⟩ := Process.hasEntry_iff.mp hP
      obtain ⟨hqt, hqm, -⟩ := Process.hasEntry_iff.mp hQ
      exact hpq hpt hqt (hpm.trans hqm.symm)
  have hflight : c.flight.countP (Process.hasEntry i) = 0 := by
    refine countP_eq_zero.mpr fun p hp hP => ?_
    obtain ⟨hpt, hpm, hpa⟩ := Process.hasEntry_iff.mp hP
    obtain ⟨j, hj, -, hack⟩ := h.returned p hp hpt hpa
    rw [hpm] at hj
    cases hj
    have hack' := hack x.wait hentry
    rw [show x.wait.state = _ from hst] at hack'
    cases hack'
  rw [hqueue, hflight]

/-- **What finishes a request removes an entry** when it is finalized. -/
theorem removed_of_answering (h : Answering c) (hp : p ∈ c.flight) (hfin : p.finishes = true)
    (hend : c.finalizeProcess cfg p = .ok c') :
    ∃ i e, p.maf = some i ∧ c.policy.theMAF.get i = some e ∧ c'.policy.theMAF.get i = none := by
  obtain ⟨i, w, hm, hi, hnone⟩ :=
    (ended_finalizeProcess hend).waits.of_removes ((h p hp).trans hfin)
  obtain ⟨x, hx, -⟩ := MissAddressFile.waits_entry.mp hi
  exact ⟨i, x, hm, hx, Option.map_eq_none_iff.mp hnone⟩

theorem waiting_of_ran (hran : Ran cfg c p t q) (hp : p.type = .wakeMAF) (hi : p.maf = some i)
    (hgives : c.policy.evicts cfg p = false) :
    (∀ w, t.policy.waits.entry i = some w → w.state.isWaiting = true) ∧
      q.action.wakes = false ∧ q.action.removes = false ∧ q.action ≠ .removeMAF := by
  cases hran.decided with
  | decides hkept hdecides hheld =>
    have hent := hheld hp hgives
    obtain ⟨hw, hr⟩ := ProcessAction.inert_of_entered hent
    refine ⟨?_, hw, hr, hkept⟩
    have hown : ∀ {a st W' k}, Enters c.policy.waits p.maf p.transport.address a st
        (p.type == .wakeMAF) W' k → st.isWaiting = true →
        ∀ w, W'.entry i = some w → w.state.isWaiting = true := by
      intro a st W' k he hst w hw
      rw [hp] at he
      cases he with
      | own hmaf =>
        rw [hi] at hmaf
        cases hmaf
        rw [Waits.entry_set, if_pos rfl] at hw
        cases hw
        exact hst
    cases hdecides.decision with
    | sleep haction hmaf ha henters hfor =>
      exact hown henters (Owned.isWaiting_of_sleepsFor hfor)
    | activate haction hmaf henters => exact hown henters rfl
    | redundant haction =>
      rw [hp] at haction
      exact absurd haction hkept
    | pick haction => rw [haction] at hw; cases hw
    | finish haction => rw [haction] at hr; cases hr
    | pass haction hanswer =>
      have hne := hanswer (by rw [hdecides.type, hp]; exact nofun)
      revert haction hne hent
      cases q.action <;> simp [ProcessAction.idle, ProcessAction.entered, ProcessAction.granted]
  | discards _ _ haction hmaf hj hW =>
    -- a request that turns out to be redundant: its entry is removed at once
    rw [hi] at hj
    cases hj
    refine ⟨fun w hw => ?_, by rw [haction]; rfl, by rw [haction]; rfl, by rw [haction]; decide⟩
    rw [hW, Waits.entry_erase, if_pos rfl] at hw
    cases hw
  | other hother => simp [Process.isRequest, hp] at hother

theorem returnsEntry_of_givesBack (hgives : GivesBack cfg c .runMAF) : ReturnsEntry cfg c := by
  intro p rest i c' hq hp hi hs x hx
  rw [step, advanceMAFPipeline, hq] at hs
  obtain ⟨t, q, hran, hadv⟩ := runProcess_spec hs
  obtain ⟨hwait, hw, hr, hk⟩ := waiting_of_ran (c := { c with theMAFPipeline := rest }) hran hp hi
    (hgives rfl p rest hq hp)
  have hwaits : c'.policy.waits = t.policy.waits := by
    rcases hadv with rfl | hend
    · rfl
    · exact (ended_finalizeProcess hend).waits.eq_of_inert hw hr hk
  have hentry := Policy.entry_of_get (s := c'.policy) hx
  rw [hwaits] at hentry
  exact hwait x.wait hentry

/-- **No entry is leaked**, in every run in which the picks of a bank do not overlap and no
woken eviction is let through. -/
theorem no_entry_leaked (cfg : Config δ γ)
    (hes : (machine cfg).AllowedFrom (fun c e => PicksAlone cfg c e ∧ GivesBack cfg c e)
      (init cfg) es) (h : (machine cfg).run es = .ok c) :
    NoLeak cfg es c ∧ (GivesBack cfg c .runMAF → ReturnsEntry cfg c) := by
  obtain ⟨⟨ho, hkept, hans⟩, hbalance⟩ := Lib.Machine.balance_of_runFrom
    (I := fun c => Sound cfg c ∧ Kept c ∧ Answering c) (f := requests cfg) (g := finished cfg)
    (P := fun c => c.policy.waits.size + c.queuedRequests) (Q := finishing)
    (fun c e c' hc hg hs => ⟨sound_step hc.1 hg.1 hs, kept_step hc.1 hc.2.1 hg.1 hg.2 hs,
      (balance_step hc.1 hc.2.2 hg.1 hg.2 hs).1⟩)
    (fun c e c' hc hg hs => (balance_step hc.1 hc.2.2 hg.1 hg.2 hs).2)
    ⟨sound_init, kept_init, answering_init⟩ hes h
  have hbooks : c.policy.theMAF.theCurSize + c.queuedRequests + answered cfg es =
      requested cfg es + c.finishing := by
    have hstart : (init cfg).policy.waits.size + (init cfg).queuedRequests = 0 := rfl
    have hnone : (init cfg).finishing = 0 := rfl
    have hsize : c.policy.waits.size = c.policy.theMAF.theCurSize := MissAddressFile.size_waits _
    change c.policy.waits.size + c.queuedRequests + answered cfg es + (init cfg).finishing =
      (init cfg).policy.waits.size + (init cfg).queuedRequests + requested cfg es + c.finishing
      at hbalance
    rwa [hnone, hsize, hstart, Nat.zero_add, Nat.add_zero] at hbalance
  refine ⟨⟨fun i x => owned_of_kept ho hkept, hbooks, fun p hp hfin c' => removed_of_answering hans hp
    hfin, fun hall => ?_⟩, returnsEntry_of_givesBack⟩
  rw [hall.1, hall.2] at hbooks
  omega

/-! ### Two runs -/

theorem givesBack_of_harmless (h : harmless cfg c e = true) : GivesBack cfg c e := by
  rintro rfl p rest hq -
  exact (of_harmless h hq).2.1

/-- The write-back of `readEvictRead` is acknowledged, and the read that waited for it is
woken and scheduled. -/
def wokenRead : List Event :=
  readEvictRead ++ [.runDirTag, .reply (message evictAck 64 0), .runMAF, .runDirTag, .wakeMAF]

/-- The woken read is run and answered by memory, and acknowledged. -/
def completedRead : List Event :=
  wokenRead ++ [.runMAF, .runDirTag, .reply (message missReply 64 1), .runMAF, .runDirTag, .runData,
    .reply (message readAck 64 1), .runMAF, .runDirTag]

set_option maxRecDepth 8000 in
/-- The entry of the woken read is in the pipeline, and belongs to one process. When the read is
acknowledged, all three requests have been completed, and the file is empty. -/
theorem no_entry_leaked_after_wokenRead :
    (∃ (c : Controller _ _) (e : MAFEntry), (machine (smallBank 2 1 true)).run wokenRead = .ok c ∧
      c.policy.theMAF.get 2 = some e ∧ e.state = .inPipeline ∧
      c.unfinished.countP (Process.hasEntry 2) = 1) ∧
    ∃ c : Controller _ _, (machine (smallBank 2 1 true)).run completedRead = .ok c ∧
      requested (smallBank 2 1 true) completedRead = 3 ∧ c.policy.theMAF.theCurSize = 0 := by
  have hguard : ∀ (c : Controller _ _) e, harmless (smallBank 2 1 true) c e = true →
      PicksAlone (smallBank 2 1 true) c e ∧ GivesBack (smallBank 2 1 true) c e :=
    fun _ _ h => ⟨(guards_of_harmless h).1, givesBack_of_harmless h⟩
  obtain ⟨c, hrun, e, he, hst⟩ : ∃ c, (machine (smallBank 2 1 true)).run wokenRead = .ok c ∧
      ∃ e, c.policy.theMAF.get 2 = some e ∧ e.state = .inPipeline := ⟨_, rfl, _, rfl, rfl⟩
  obtain ⟨d, hrun', hall⟩ : ∃ d, (machine (smallBank 2 1 true)).run completedRead = .ok d ∧
      Completed (smallBank 2 1 true) completedRead d := ⟨_, rfl, rfl, rfl⟩
  have hleak := no_entry_leaked (smallBank 2 1 true)
    (Lib.Machine.allowedFrom_of_passes hguard rfl) hrun
  have hleak' := no_entry_leaked (smallBank 2 1 true)
    (Lib.Machine.allowedFrom_of_passes hguard rfl) hrun'
  exact ⟨⟨c, e, hrun, he, hst, hleak.1.owned 2 e he hst⟩, d, hrun', rfl, hleak'.1.empty hall⟩

/-- A cache evicts a block before its read of it is acknowledged, so that the eviction has
to wait; the acknowledgement comes, and the eviction is woken and run. -/
def lateEvict : List Event :=
  [.request (message readReq 64 0), .runMAF, .runDirTag,
    .reply (message missReplyWritable 64 0), .runMAF, .runDirTag, .runData,
    .request (message evictClean 64 0), .runMAF, .runDirTag,
    .reply (message readAck 64 0), .runMAF, .runDirTag, .wakeMAF, .runMAF, .runDirTag]

set_option maxRecDepth 8000 in
/-- **An entry is leaked**: the eviction is acknowledged and its process is finalized, but
its entry stays in the pipeline. Both requests have been completed, and the file is not empty. -/
theorem entry_leaked_by_lateEvict : ¬ (∀ es (c : Controller _ _),
      (machine (smallBank 2 2 false)).run es = .ok c → NoLeak (smallBank 2 2 false) es c) ∧
    ∃ c : Controller _ _, (machine (smallBank 2 2 false)).run lateEvict = .ok c ∧
      Completed (smallBank 2 2 false) lateEvict c ∧ c.policy.theMAF.theCurSize = 1 := by
  obtain ⟨c, hrun, hall, hsize⟩ : ∃ c, (machine (smallBank 2 2 false)).run lateEvict = .ok c ∧
      Completed (smallBank 2 2 false) lateEvict c ∧ c.policy.theMAF.theCurSize = 1 :=
    ⟨_, rfl, ⟨rfl, rfl⟩, rfl⟩
  refine ⟨fun h => ?_, c, hrun, hall, hsize⟩
  have hempty := (h lateEvict c hrun).empty hall
  rw [hsize] at hempty
  cases hempty

end Controller

end CMPCache

end Flexus
