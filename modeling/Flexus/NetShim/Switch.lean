import Mathlib.Algebra.GroupWithZero.Nat
import Mathlib.Data.Fintype.BigOperators

/-!
# Switches

A switch of a network takes messages from the ports at which they come in and puts them into the
ports at which they go out (`components/NetShim/netswitch.cpp`, `channel.cpp`). In each port there
is a queue for each virtual channel. A message that finds no room where it has to go out waits in
the internal buffer of its virtual channel, if there is room in that one.

In each cycle the virtual channels have their turn, one after the other, first with the messages of
the internal buffer and then with the first message of each port. Only so many messages are to go
out in a cycle: that is the bandwidth of the switch.

The error results of the source are left out, since no function of a switch returns one: what could
fail is tested before, and the assertions about numbers of ports, priorities and channels are the
bounds of the types here.
-/

namespace Flexus

open Function

namespace NetShim

/-- `NUM_PRIORITIES`. -/
abbrev numPriorities : ℕ := 4

/-- `MAX_NET_VC`. -/
abbrev maxNetVC : ℕ := 2

instance : NeZero maxNetVC := ⟨by decide⟩

/-- `MAX_VC`. -/
abbrev maxVC : ℕ := 8

/-- `BUILD_VC`. -/
def buildVC (priority : Fin numPriorities) (net : Fin maxNetVC) : Fin maxVC :=
  ⟨priority * maxNetVC + net, by
    have hp := priority.isLt
    have hn := net.isLt
    simp only [numPriorities, maxNetVC, maxVC] at hp hn ⊢
    omega⟩

/-- `MessageState`, without its statistics. A `nextVC` of -1 is `none`. -/
structure MessageState where
  serial : ℕ
  srcNode : ℕ
  destNode : ℕ
  priority : Fin numPriorities
  networkVC : Fin maxVC := 0
  nextHop : Option ℕ := none
  nextVC : Option (Fin maxVC) := none
  transmitLatency : ℤ := 0
  flexusInFastMode : Bool := false
  hopCount : ℤ := -1
  deriving DecidableEq

/-! ### Ports and buffers -/

/-- A queue for each virtual channel: a `ChannelPort`, and the age buffers of a switch. The count
of an input port includes messages that are on their way to it. -/
structure Queues where
  bufferCount : Fin maxVC → ℤ
  buffersUsed : Fin maxVC → ℤ
  msl : Fin maxVC → List MessageState

namespace Queues

variable (q : Queues) (vc : Fin maxVC)

/-- `hasBufferSpace`, and the contrary of `isFull`. -/
def hasBufferSpace : Bool := decide (q.buffersUsed vc < q.bufferCount vc)

/-- `peekMessage`. -/
def peekMessage : Option MessageState := (q.msl vc).head?

/-- The queue with other messages. -/
def setMsl (l : List MessageState) : Queues := { q with msl := update q.msl vc l }

/-- `buffersUsed[vc]`, changed by a number. -/
def addUsed (n : ℤ) : Queues :=
  { q with buffersUsed := update q.buffersUsed vc (q.buffersUsed vc + n) }

/-- `removeMessage`, from a port. -/
def removeMessage : Queues := (q.setMsl vc (q.msl vc).tail).addUsed vc (-1)

/-- A message is put at the end of the queue of its virtual channel, and counted. -/
def insertMessage (msg : MessageState) : Queues :=
  (q.setMsl msg.networkVC (q.msl msg.networkVC ++ [msg])).addUsed msg.networkVC 1

end Queues

/-- `ChannelInputPort`. A message is in `delay` until the time that is noted with it. -/
structure ChannelInputPort extends Queues where
  channelLatency : ℤ := 1
  delay : List (MessageState × ℤ) := []

/-- `ChannelOutputPort`, with `messagesWaiting` of the channel that starts there. -/
structure ChannelOutputPort extends Queues where
  messagesWaiting : ℤ := 0

/-! ### Switches -/

theorem sum_update_add {ι : Type*} [Fintype ι] [DecidableEq ι] (f : ι → ℕ) (i : ι) (n : ℕ) :
    ∑ x, update f i (f i + n) x = ∑ x, f x + n := by
  rw [Finset.sum_update_of_mem (Finset.mem_univ i),
    Finset.sum_eq_add_sum_sdiff_singleton_of_mem (Finset.mem_univ i) f]
  omega

/-- How many messages are in the queues. -/
def Queues.size (q : Queues) : ℕ := ∑ vc, (q.msl vc).length

theorem Queues.size_insertMessage (q : Queues) (msg : MessageState) :
    (q.insertMessage msg).size = q.size + 1 := by
  have hupdate : (fun vc => ((q.insertMessage msg).msl vc).length) =
      update (fun vc => (q.msl vc).length) msg.networkVC
        ((q.msl msg.networkVC).length + 1) := by
    funext vc
    rw [insertMessage, addUsed, setMsl]
    by_cases h : vc = msg.networkVC
    · subst h
      simp
    · simp [update_of_ne h]
  rw [size, hupdate, sum_update_add]
  rfl

/-- For how many messages there is room. -/
def Queues.room (q : Queues) : ℕ := ∑ vc, (q.bufferCount vc - q.buffersUsed vc).toNat

theorem Queues.room_insertMessage {q : Queues} {msg : MessageState}
    (h : q.hasBufferSpace msg.networkVC = true) : (q.insertMessage msg).room + 1 = q.room := by
  have hlt : q.buffersUsed msg.networkVC < q.bufferCount msg.networkVC := of_decide_eq_true h
  have hupdate : (fun vc => (q.bufferCount vc - q.buffersUsed vc).toNat) =
      update (fun vc => ((q.insertMessage msg).bufferCount vc -
        (q.insertMessage msg).buffersUsed vc).toNat) msg.networkVC
        (((q.insertMessage msg).bufferCount msg.networkVC -
          (q.insertMessage msg).buffersUsed msg.networkVC).toNat + 1) := by
    funext vc
    rw [insertMessage, addUsed, setMsl]
    by_cases h : vc = msg.networkVC
    · subst h
      simp only [update_self]
      omega
    · simp [update_of_ne h]
  rw [room, room, hupdate, sum_update_add]

/-- What a switch is built with. -/
structure SwitchConfig where
  numPorts : ℕ
  numPorts_pos : 0 < numPorts
  crossbarBandwidth : ℤ
  /-- `routingTable` and `vcTable`, up to the first entry that is not set. -/
  routingTable : ℕ → List (Fin numPorts × Fin maxNetVC)

variable {cfg : SwitchConfig}

/-- `( port + 1 ) % numPorts`. -/
def SwitchConfig.nextPort (cfg : SwitchConfig) (port : Fin cfg.numPorts) : Fin cfg.numPorts :=
  ⟨(port + 1) % cfg.numPorts, Nat.mod_lt _ cfg.numPorts_pos⟩

/-- **A switch.** -/
structure NetSwitch (cfg : SwitchConfig) where
  inputPorts : Fin cfg.numPorts → ChannelInputPort
  outputPorts : Fin cfg.numPorts → ChannelOutputPort
  internalBuffer : Queues
  messagesWaiting : Fin maxVC → ℤ
  nextStartingPort : Fin cfg.numPorts

namespace NetSwitch

variable (s : NetSwitch cfg)

/-- **`routingPolicy`**: the message with its next port and channel, the first ones of its route
where there is room. -/
def routingPolicy (msg : MessageState) : Option (MessageState × Fin cfg.numPorts) :=
  ((cfg.routingTable msg.destNode).find? fun r =>
      (s.outputPorts r.1).hasBufferSpace (buildVC msg.priority r.2)).map fun r =>
    ({ msg with nextHop := some r.1.val, nextVC := some (buildVC msg.priority r.2) }, r.1)

/-- `outputPorts[port]->insertMessage`. -/
def insertOutput (port : Fin cfg.numPorts) (msg : MessageState) : NetSwitch cfg :=
  { s with
    outputPorts := update s.outputPorts port
      { s.outputPorts port with
        toQueues := (s.outputPorts port).insertMessage msg
        messagesWaiting := (s.outputPorts port).messagesWaiting + 1 } }

/-- **`sendMessageToOutput`**, of a message that has been routed. -/
def sendMessageToOutput (r : MessageState × Fin cfg.numPorts) : NetSwitch cfg :=
  s.insertOutput r.2
    { r.1 with
      networkVC := r.1.nextVC.getD r.1.networkVC, nextVC := none, hopCount := r.1.hopCount + 1 }

/-- `internalBuffer->removeMessage`, of a message between others. -/
def removeInternal (before : List MessageState) (msg : MessageState) (rest : List MessageState) :
    NetSwitch cfg :=
  { s with
    internalBuffer :=
      (s.internalBuffer.setMsl msg.networkVC (before ++ rest)).addUsed msg.networkVC (-1) }

/-- `inputPorts[port]->removeMessage`. -/
def removeInput (port : Fin cfg.numPorts) (vc : Fin maxVC) : NetSwitch cfg :=
  { s with
    inputPorts := update s.inputPorts port
      { s.inputPorts port with toQueues := (s.inputPorts port).removeMessage vc } }

/-- `messagesWaiting[vc]--`. -/
def lessWaiting (vc : Fin maxVC) : NetSwitch cfg :=
  { s with messagesWaiting := update s.messagesWaiting vc (s.messagesWaiting vc - 1) }

/-- **The loop over an internal buffer**, from `currMessage` on, with the remaining bandwidth. A
message that is removed makes its successor the current one, and then the loop goes on to the next:
the successor is passed over. -/
def internalLoop : List MessageState → List MessageState → NetSwitch cfg → ℤ → NetSwitch cfg × ℤ
  | _, [], s, bandwidthRemaining => (s, bandwidthRemaining)
  | before, msg :: rest, s, bandwidthRemaining =>
    if 0 < bandwidthRemaining then
      match s.routingPolicy msg with
      | some r =>
        let s := (s.removeInternal before msg rest).sendMessageToOutput r
        match rest with
        | [] => (s, bandwidthRemaining - 1)
        | next :: rest => internalLoop (before ++ [next]) rest s (bandwidthRemaining - 1)
      | none => internalLoop (before ++ [msg]) rest s bandwidthRemaining
    else (s, bandwidthRemaining)

/-- **The turn of a port**: its first message goes out, or to the internal buffer. -/
def portStep (vc : Fin maxVC) (currPort : Fin cfg.numPorts) (s : NetSwitch cfg)
    (bandwidthRemaining : ℤ) : NetSwitch cfg × ℤ :=
  match (s.inputPorts currPort).peekMessage vc with
  | none => (s, bandwidthRemaining)
  | some msg =>
    match s.routingPolicy msg with
    | some r =>
      (((s.removeInput currPort vc).sendMessageToOutput r).lessWaiting vc, bandwidthRemaining - 1)
    | none =>
      if s.internalBuffer.hasBufferSpace msg.networkVC then
        let s := s.removeInput currPort vc
        (({ s with internalBuffer := s.internalBuffer.insertMessage msg }).lessWaiting vc,
          bandwidthRemaining)
      else (s, bandwidthRemaining)

/-- **The loop over the ports**:
`do … while ( currPort != nextStartingPort && bandwidthRemaining )`. Its number is a bound on its
iterations. -/
def portLoop (vc : Fin maxVC) : ℕ → Fin cfg.numPorts → NetSwitch cfg → ℤ → NetSwitch cfg × ℤ
  | 0, _, s, bandwidthRemaining => (s, bandwidthRemaining)
  | n + 1, currPort, s, bandwidthRemaining =>
    let r := portStep vc currPort s bandwidthRemaining
    let currPort := cfg.nextPort currPort
    if currPort ≠ s.nextStartingPort ∧ r.2 ≠ 0 then portLoop vc n currPort r.1 r.2 else r

/-- The turn of a virtual channel, up to its ports. -/
def driveInternal (r : NetSwitch cfg × ℤ) (vc : Fin maxVC) : NetSwitch cfg × ℤ :=
  internalLoop [] (r.1.internalBuffer.msl vc) r.1 r.2

/-- The ports of a virtual channel, if there are messages waiting. -/
def drivePorts (r : NetSwitch cfg × ℤ) (vc : Fin maxVC) : NetSwitch cfg × ℤ :=
  if r.1.messagesWaiting vc = 0 then r
  else portLoop vc cfg.numPorts r.1.nextStartingPort r.1 r.2

/-- The turn of a virtual channel. -/
def driveVC (r : NetSwitch cfg × ℤ) (vc : Fin maxVC) : NetSwitch cfg × ℤ :=
  drivePorts (driveInternal r vc) vc

/-- The virtual channels, one after the other. -/
def driveVCs (vcs : List (Fin maxVC)) : NetSwitch cfg × ℤ :=
  vcs.foldl driveVC (s, cfg.crossbarBandwidth)

/-- **`drive`**. -/
def drive : NetSwitch cfg :=
  let s := (s.driveVCs (List.finRange maxVC)).1
  { s with nextStartingPort := cfg.nextPort s.nextStartingPort }

/-! ### Bandwidth -/

/-- How many messages are in the output ports. -/
def outputs : ℕ := ∑ port, (s.outputPorts port).size

/-- For how many messages there is room in the output ports. -/
def room : ℕ := ∑ port, (s.outputPorts port).room

/-- **The bandwidth is used up** when the ports of a virtual channel have their turn, but there are
messages waiting on it, and the first message of the first port can go out. -/
def Overdraws (r : NetSwitch cfg × ℤ) (vc : Fin maxVC) : Prop :=
  r.2 = 0 ∧ r.1.messagesWaiting vc ≠ 0 ∧
    ∃ msg, (r.1.inputPorts r.1.nextStartingPort).peekMessage vc = some msg ∧
      (r.1.routingPolicy msg).isSome = true

section Bandwidth

variable {s t : NetSwitch cfg} {r : NetSwitch cfg × ℤ} {vc : Fin maxVC} {port : Fin cfg.numPorts}
  {msg : MessageState} {b : ℤ} {before rest : List MessageState}

theorem outputs_sendMessageToOutput {x : MessageState × Fin cfg.numPorts} :
    (s.sendMessageToOutput x).outputs = s.outputs + 1 := by
  have hupdate : (fun port => ((s.sendMessageToOutput x).outputPorts port).size) =
      update (fun port => (s.outputPorts port).size) x.2
        ((s.outputPorts x.2).size + 1) := by
    funext port
    rw [sendMessageToOutput, insertOutput]
    by_cases h : port = x.2
    · subst h
      simp only [update_self]
      exact Queues.size_insertMessage ..
    · simp only [update_of_ne h]
  rw [outputs, hupdate, sum_update_add]
  rfl

theorem room_insertOutput (h : (s.outputPorts port).hasBufferSpace msg.networkVC = true) :
    (s.insertOutput port msg).room + 1 = s.room := by
  have hupdate : (fun p => (s.outputPorts p).room) =
      update (fun p => ((s.insertOutput port msg).outputPorts p).room) port
        (((s.insertOutput port msg).outputPorts port).room + 1) := by
    funext p
    rw [insertOutput]
    by_cases hp : p = port
    · subst hp
      simp only [update_self]
      exact (Queues.room_insertMessage h).symm
    · simp only [update_of_ne hp]
  rw [room, room, hupdate, sum_update_add]

theorem room_sendMessageToOutput {x : MessageState × Fin cfg.numPorts}
    (hx : s.routingPolicy msg = some x) : (s.sendMessageToOutput x).room + 1 = s.room := by
  obtain ⟨y, hy, rfl⟩ := Option.map_eq_some_iff.mp hx
  have hspace := List.find?_some hy
  exact room_insertOutput hspace

/-- **What has gone out and what is left of the bandwidth** stay the same in sum, so that it is
enough to look at what is left; and so do what has gone out and the room for more. -/
def Balanced (r r' : NetSwitch cfg × ℤ) : Prop :=
  (r'.1.outputs : ℤ) + r'.2 = r.1.outputs + r.2 ∧ r'.2 ≤ r.2 ∧
    r'.1.outputs + r'.1.room = r.1.outputs + r.1.room

theorem Balanced.refl (r : NetSwitch cfg × ℤ) : Balanced r r := ⟨rfl, le_refl _, rfl⟩

theorem Balanced.trans {r₁ r₂ r₃ : NetSwitch cfg × ℤ} (h : Balanced r₁ r₂) (h' : Balanced r₂ r₃) :
    Balanced r₁ r₃ :=
  ⟨h'.1.trans h.1, h'.2.1.trans h.2.1, h'.2.2.trans h.2.2⟩

theorem Balanced.send {x : MessageState × Fin cfg.numPorts} (hout : t.outputPorts = s.outputPorts)
    (hx : s.routingPolicy msg = some x) : Balanced (s, b) (t.sendMessageToOutput x, b - 1) := by
  have houtputs : t.outputs = s.outputs := by rw [outputs, outputs, hout]
  have hroom : (t.sendMessageToOutput x).room + 1 = t.room :=
    room_sendMessageToOutput (by rw [← hx, routingPolicy, routingPolicy, hout])
  have hroom' : t.room = s.room := by rw [room, room, hout]
  refine ⟨?_, ?_, ?_⟩
  · rw [outputs_sendMessageToOutput, houtputs]
    push_cast
    omega
  · show b - 1 ≤ b
    omega
  · show (t.sendMessageToOutput x).outputs + (t.sendMessageToOutput x).room = s.outputs + s.room
    rw [outputs_sendMessageToOutput]
    omega

/-- **The loop over an internal buffer** keeps to the bandwidth. -/
theorem internalLoop_spec :
    Balanced (s, b) (internalLoop before rest s b) ∧
      (0 ≤ b → 0 ≤ (internalLoop before rest s b).2) := by
  fun_induction internalLoop before rest s b with
  | case1 before s b => exact ⟨Balanced.refl _, id⟩
  | case2 before msg s b hb x hx => exact ⟨Balanced.send rfl hx, fun _ => by omega⟩
  | case3 before msg s b hb x hx t next rest ih =>
    obtain ⟨hbalanced, hle⟩ := ih
    exact ⟨(Balanced.send rfl hx).trans hbalanced, fun _ => hle (by omega)⟩
  | case4 before msg rest s b hb hx ih => exact ih
  | case5 before msg rest s b hb => exact ⟨Balanced.refl _, id⟩

/-- **The turn of a port** takes from the bandwidth if its first message goes out. -/
theorem portStep_spec : Balanced (s, b) (portStep vc port s b) ∧
    (portStep vc port s b).2 = if ∃ msg, (s.inputPorts port).peekMessage vc = some msg ∧
      (s.routingPolicy msg).isSome = true then b - 1 else b := by
  rw [portStep]
  cases hpeek : (s.inputPorts port).peekMessage vc with
  | none => exact ⟨Balanced.refl _, by simp⟩
  | some msg =>
    simp only [Option.some.injEq, exists_eq_left']
    cases hroute : s.routingPolicy msg with
    | some x => exact ⟨Balanced.send (t := s.removeInput port vc) rfl hroute, by simp⟩
    | none =>
      simp only
      split
      · exact ⟨⟨rfl, le_refl _, rfl⟩, by simp⟩
      · exact ⟨Balanced.refl _, by simp⟩

/-- What is left of the bandwidth is not more after the other ports. -/
theorem portLoop_balanced {n : ℕ} : Balanced (s, b) (portLoop vc n port s b) := by
  induction n generalizing port s b with
  | zero => exact Balanced.refl _
  | succ n ih =>
    rw [portLoop]
    split
    · exact portStep_spec.1.trans ih
    · exact portStep_spec.1

/-- **The loop over the ports** keeps to the bandwidth as long as there is some, -/
theorem portLoop_of_pos {n : ℕ} (hb : 0 < b) : 0 ≤ (portLoop vc n port s b).2 := by
  induction n generalizing port s b with
  | zero => exact le_of_lt hb
  | succ n ih =>
    have hstep : 0 ≤ (portStep vc port s b).2 := by
      rw [portStep_spec.2]
      split <;> omega
    rw [portLoop]
    split
    · rename_i hgo
      exact ih (by omega)
    · exact hstep

/-- and takes more if there is none but the first message of the first port can go out. -/
theorem portLoop_nonneg {n : ℕ} (hn : 0 < n) (hb : 0 ≤ b) :
    0 ≤ (portLoop vc n port s b).2 ↔
      ¬ (b = 0 ∧ ∃ msg, (s.inputPorts port).peekMessage vc = some msg ∧
        (s.routingPolicy msg).isSome = true) := by
  obtain ⟨n, rfl⟩ := Nat.exists_eq_succ_of_ne_zero hn.ne'
  rcases lt_or_eq_of_le hb with hpos | rfl
  · exact iff_of_true (portLoop_of_pos hpos) fun h => by omega
  · rw [and_iff_right rfl, portLoop]
    have hstep := (@portStep_spec cfg s vc port 0).2
    by_cases hroute : ∃ msg, (s.inputPorts port).peekMessage vc = some msg ∧
        (s.routingPolicy msg).isSome = true
    · rw [if_pos hroute] at hstep
      refine iff_of_false ?_ (not_not.mpr hroute)
      split
      · have hle : (portLoop vc n (cfg.nextPort port) (portStep vc port s 0).1
            (portStep vc port s 0).2).2 ≤ (portStep vc port s 0).2 := portLoop_balanced.2.1
        omega
      · omega
    · rw [if_neg hroute] at hstep
      refine iff_of_true ?_ hroute
      rw [if_neg (fun h => h.2 hstep), hstep]

/-- **The turn of a virtual channel** keeps to the bandwidth, unless it is used up when the ports
have their turn. -/
theorem driveVC_spec : Balanced r (driveVC r vc) ∧
    (0 ≤ r.2 → (0 ≤ (driveVC r vc).2 ↔ ¬ Overdraws (driveInternal r vc) vc)) := by
  obtain ⟨s, b⟩ := r
  have hinternal : Balanced (s, b) (driveInternal (s, b) vc) := internalLoop_spec.1
  have hnonneg : 0 ≤ b → 0 ≤ (driveInternal (s, b) vc).2 := internalLoop_spec.2
  rw [driveVC]
  generalize driveInternal (s, b) vc = t at hinternal hnonneg
  rw [drivePorts, Overdraws]
  by_cases hwaiting : t.1.messagesWaiting vc = 0
  · rw [if_pos hwaiting]
    exact ⟨hinternal, fun hb => iff_of_true (hnonneg hb) fun h => h.2.1 hwaiting⟩
  · rw [if_neg hwaiting]
    refine ⟨hinternal.trans portLoop_balanced, fun hb => ?_⟩
    rw [portLoop_nonneg cfg.numPorts_pos (hnonneg hb)]
    simp only [hwaiting, ne_eq, not_false_eq_true, true_and]

theorem driveVCs_spec (hb : 0 ≤ cfg.crossbarBandwidth) (vcs : List (Fin maxVC)) :
    Balanced (s, cfg.crossbarBandwidth) (s.driveVCs vcs) ∧
      (0 ≤ (s.driveVCs vcs).2 ↔ ∀ n (h : n < vcs.length),
        ¬ Overdraws (driveInternal (s.driveVCs (vcs.take n)) vcs[n]) vcs[n]) := by
  induction vcs using List.reverseRecOn with
  | nil => exact ⟨Balanced.refl _, iff_of_true hb nofun⟩
  | append_singleton vcs vc ih =>
    obtain ⟨hbalanced, hiff⟩ := ih
    have happend : s.driveVCs (vcs ++ [vc]) = driveVC (s.driveVCs vcs) vc := by
      rw [driveVCs, List.foldl_append]
      rfl
    obtain ⟨hstep, hstep'⟩ := @driveVC_spec cfg (s.driveVCs vcs) vc
    rw [happend]
    refine ⟨hbalanced.trans hstep, ?_⟩
    constructor
    · intro h n hn
      have hprev : 0 ≤ (s.driveVCs vcs).2 := h.trans hstep.2.1
      rcases Nat.lt_or_ge n vcs.length with hlt | hge
      · rw [List.take_append_of_le_length hlt.le, List.getElem_append_left hlt]
        exact hiff.mp hprev n hlt
      · have heq : n = vcs.length := by
          rw [List.length_append, List.length_singleton] at hn
          omega
        subst heq
        rw [List.take_left, List.getElem_concat_length rfl]
        exact (hstep' hprev).mp h
    · intro h
      have hprev : 0 ≤ (s.driveVCs vcs).2 := hiff.mpr fun n hn => by
        have := h n (by rw [List.length_append]; omega)
        rwa [List.take_append_of_le_length hn.le, List.getElem_append_left hn] at this
      have := h vcs.length (by rw [List.length_append, List.length_singleton]; omega)
      rw [List.take_left, List.getElem_concat_length rfl] at this
      exact (hstep' hprev).mpr this

end Bandwidth

/-- The switch and its bandwidth when the ports of a virtual channel have their turn. -/
def entering (s : NetSwitch cfg) (vc : Fin maxVC) : NetSwitch cfg × ℤ :=
  driveInternal (s.driveVCs ((List.finRange maxVC).take vc)) vc

/-- **A call of `drive` keeps to the bandwidth** of the switch if and only if it is not used up when
the ports of a virtual channel have their turn, with messages waiting and the first message of the
first port free to go out. -/
theorem drive_outputs_iff (s : NetSwitch cfg) (hb : 0 < cfg.crossbarBandwidth) :
    (s.drive.outputs : ℤ) - s.outputs ≤ cfg.crossbarBandwidth ↔
      ∀ vc, ¬ Overdraws (s.entering vc) vc := by
  obtain ⟨⟨hsum, -, -⟩, hiff⟩ := driveVCs_spec (s := s) hb.le (List.finRange maxVC)
  have hcond : (∀ vc, ¬ Overdraws (s.entering vc) vc) ↔
      0 ≤ (s.driveVCs (List.finRange maxVC)).2 := by
    rw [hiff]
    constructor
    · intro h n hn
      rw [List.getElem_finRange]
      exact h ⟨n, _⟩
    · intro h vc
      have := h vc (by rw [List.length_finRange]; exact vc.isLt)
      rwa [List.getElem_finRange] at this
  rw [hcond, drive]
  generalize s.driveVCs (List.finRange maxVC) = t at hsum
  change (t.1.outputs : ℤ) + t.2 = s.outputs + cfg.crossbarBandwidth at hsum
  change (t.1.outputs : ℤ) - s.outputs ≤ _ ↔ _
  omega

/-- **No more messages go out than there is room for**, whatever the bandwidth. -/
theorem drive_outputs_le_room (s : NetSwitch cfg) (hb : 0 ≤ cfg.crossbarBandwidth) :
    (s.drive.outputs : ℤ) - s.outputs ≤ s.room := by
  have hroom := (driveVCs_spec (s := s) hb (List.finRange maxVC)).1.2.2
  rw [drive]
  generalize s.driveVCs (List.finRange maxVC) = t at hroom
  change t.1.outputs + t.1.room = s.outputs + s.room at hroom
  change (t.1.outputs : ℤ) - s.outputs ≤ _
  omega

end NetSwitch

/-! ### A message too many -/

/-- A switch with one port, through which one message may go in a cycle. -/
def oneWay : SwitchConfig where
  numPorts := 1
  numPorts_pos := Nat.one_pos
  crossbarBandwidth := 1
  routingTable := fun _ => [(⟨0, Nat.one_pos⟩, 0)]

/-- A message of a priority. -/
def messageOf (priority : Fin numPriorities) : MessageState :=
  { serial := priority, srcNode := 0, destNode := 0, priority
    networkVC := buildVC priority 0 }

/-- The switch, with a message of each of some priorities in its port. -/
def waitingSwitch (priorities : List (Fin numPriorities)) : NetSwitch oneWay where
  inputPorts := fun _ =>
    { bufferCount := fun _ => 1
      buffersUsed := fun vc => ((priorities.map messageOf).filter (·.networkVC = vc)).length
      msl := fun vc => (priorities.map messageOf).filter (·.networkVC = vc) }
  outputPorts := fun _ =>
    { bufferCount := fun _ => 1, buffersUsed := fun _ => 0, msl := fun _ => [] }
  internalBuffer := { bufferCount := fun _ => 1, buffersUsed := fun _ => 0, msl := fun _ => [] }
  messagesWaiting := fun vc => ((priorities.map messageOf).filter (·.networkVC = vc)).length
  nextStartingPort := ⟨0, by decide⟩

/-- **Two messages go out** where only one may. -/
theorem waitingSwitch_overdraws : 0 < oneWay.crossbarBandwidth ∧
    (waitingSwitch [0, 1]).outputs = 0 ∧ (waitingSwitch [0, 1]).drive.outputs = 2 ∧
    ¬ ((waitingSwitch [0, 1]).drive.outputs : ℤ) - (waitingSwitch [0, 1]).outputs ≤
      oneWay.crossbarBandwidth := by
  decide

/-- One message keeps to the bandwidth. -/
theorem waitingSwitch_keeps :
    ((waitingSwitch [0]).drive.outputs : ℤ) - (waitingSwitch [0]).outputs ≤
      oneWay.crossbarBandwidth := by
  have henough : ∀ vc, ((waitingSwitch [0]).entering vc).2 ≠ 0 ∨
      ((waitingSwitch [0]).entering vc).1.messagesWaiting vc = 0 := by decide
  refine (NetSwitch.drive_outputs_iff (waitingSwitch [0]) (by decide)).mpr fun vc h => ?_
  rcases henough vc with hb | hwaiting
  · exact hb h.1
  · exact h.2.1 hwaiting

end NetShim

end Flexus
