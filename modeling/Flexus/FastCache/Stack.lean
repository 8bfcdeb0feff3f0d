import Flexus.FastCache.Component
import Flexus.Lib.Machine

/-!
# Private stacks of functional caches

The private caches of a core are wired into a stack: above a cache there may be a cache
for instructions and a cache for data, above each of these again, and so on, to any depth.
A processor sends its data requests to the cache at the end of the data sides and its
fetches wherever the wiring takes them. What a cache cannot answer it asks the cache below
it, and the lowest one asks the shared level. Snoops go the other way.

The shared level is not part of a stack. What it does while it answers a message is part
of the event that caused the message: a list of answers, each with the snoops that the
shared level sends into the same stack before it answers
(`Flexus.FastCache.Answer`). Since a run may contain any such lists, nothing is assumed
about it but the kinds of its messages. All caches of a stack have the same block size.
-/

namespace Flexus

namespace FastCache

open MemoryMessageType

/-! ### The shape of a stack -/

/-- The parameters of a cache of a stack. -/
structure Level where
  /-- The number of address bits that select the set. -/
  setBits : ℕ
  /-- The number of ways. -/
  theAssoc : ℕ
  assoc_pos : 0 < theAssoc
  /-- Its options. -/
  cfg : Config

/-- The geometry of a cache, with the block size of the stack. -/
def Level.geometry (l : Level) (k : ℕ) : Geometry := ⟨k, l.setBits, l.theAssoc, l.assoc_pos⟩

/-- **The shape of a stack**: nothing, or a cache with what is wired to its `SnoopOutI` and
to its `SnoopOutD`. -/
inductive Shape
  | nothing
  | cache (l : Level) (i d : Shape)

/-- One of the two sides above a cache. -/
inductive Side
  | instr
  | data
  deriving DecidableEq

/-- The way to the end of the data sides. -/
def Shape.spine : Shape → List Side
  | nothing => []
  | cache _ _ d => .data :: d.spine

/-- The contents of a stack, for blocks of `2 ^ k` bytes. -/
def Contents (k : ℕ) : Shape → Type
  | .nothing => Unit
  | .cache l i d => StdCache (l.geometry k) × Contents k i × Contents k d

namespace Contents

variable {k : ℕ} {l : Level} {i d : Shape}

/-- A cache and what is above it. -/
def mk (c : StdCache (l.geometry k)) (si : Contents k i) (sd : Contents k d) :
    Contents k (.cache l i d) := (c, si, sd)

/-- The lowest cache. -/
def cache (st : Contents k (.cache l i d)) : StdCache (l.geometry k) := st.1

/-- What is above it on the instruction side. -/
def instr (st : Contents k (.cache l i d)) : Contents k i := st.2.1

/-- What is above it on the data side. -/
def data (st : Contents k (.cache l i d)) : Contents k d := st.2.2

/-- Empty caches. -/
def empty : (sh : Shape) → Contents k sh
  | .nothing => ()
  | .cache _ i d => mk (StdCache.empty _) (empty i) (empty d)

@[simp]
theorem cache_mk (c : StdCache (l.geometry k)) (si : Contents k i) (sd : Contents k d) :
    (mk c si sd).cache = c :=
  rfl

@[simp]
theorem instr_mk (c : StdCache (l.geometry k)) (si : Contents k i) (sd : Contents k d) :
    (mk c si sd).instr = si :=
  rfl

@[simp]
theorem data_mk (c : StdCache (l.geometry k)) (si : Contents k i) (sd : Contents k d) :
    (mk c si sd).data = sd :=
  rfl

end Contents

variable {k : ℕ}

/-! ### Snoops -/

/-- A channel to a part of a larger state. -/
def Channel.lift {σ τ : Type} (get : τ → σ) (set : τ → σ → τ) (f : Channel σ) : Channel τ :=
  fun s m => do
    let (c, t) ← f (get s) m
    pure (set s c, t)

/-- The wiring of the lowest cache of a stack that is part of a larger state, given what is
wired to its snoop channels. -/
def ports {l : Level} {i d : Shape} {τ : Type} (get : τ → Contents k (.cache l i d))
    (set : τ → Contents k (.cache l i d) → τ) (out : Channel τ)
    (si : Channel (Contents k i)) (sd : Channel (Contents k d)) : Ports (l.geometry k) τ where
  getCache s := (get s).cache
  setCache s c := set s (.mk c (get s).instr (get s).data)
  requestOut := out
  snoopOutI := si.lift (fun s => (get s).instr)
    (fun s t => set s (.mk (get s).cache t (get s).data))
  snoopOutD := sd.lift (fun s => (get s).data)
    (fun s t => set s (.mk (get s).cache (get s).instr t))

/-- **A snoop into a stack.** It causes no requests. -/
def snoop : (sh : Shape) → Channel (Contents k sh)
  | .nothing => unwired
  | .cache l i d => snoopIn l.cfg (ports id (fun _ c => c) unwired (snoop i) (snoop d))

/-! ### Requests -/

/-- **A request into a stack** that is part of a larger state. It enters above the cache
that the path leads to, and what the stack cannot answer goes to `out`. -/
def request {τ : Type} : (sh : Shape) → (get : τ → Contents k sh) →
    (set : τ → Contents k sh → τ) → (out : Channel τ) → List Side → Channel τ
  | .nothing, _, _, out, _ => out
  | .cache l _ _, get, set, out, [] =>
    requestIn l.cfg (ports get set out (snoop _) (snoop _))
  | .cache l i _, get, set, out, .instr :: path =>
    request i (fun s => (get s).instr) (fun s t => set s (.mk (get s).cache t (get s).data))
      (requestIn l.cfg (ports get set out (snoop _) (snoop _))) path
  | .cache l _ d, get, set, out, .data :: path =>
    request d (fun s => (get s).data) (fun s t => set s (.mk (get s).cache (get s).instr t))
      (requestIn l.cfg (ports get set out (snoop _) (snoop _))) path

/-! ### The machine -/

/-- The snoops of the shared level. -/
inductive SnoopKind
  | returnReq
  | invalidate
  | downgrade
  deriving DecidableEq

/-- The message of a snoop. -/
def SnoopKind.type : SnoopKind → MemoryMessageType
  | returnReq => .returnReq
  | invalidate => .invalidate
  | downgrade => .downgrade

/-- The replies of the shared level to a private cache. -/
inductive Fill
  | valid
  | writable
  | dirty
  deriving DecidableEq

/-- The message of a reply. -/
def Fill.type : Fill → MemoryMessageType
  | valid => missReply
  | writable => missReplyWritable
  | dirty => missReplyDirty

/-- The data requests of a processor. -/
inductive DataRequest
  | load
  | store
  | rmw
  | cmpx
  | nonAllocatingStore
  deriving DecidableEq

/-- The message of a data request. -/
def DataRequest.type : DataRequest → MemoryMessageType
  | load => loadReq
  | store => storeReq
  | rmw => rmwReq
  | cmpx => cmpxReq
  | nonAllocatingStore => nonAllocatingStoreReq

/-- What the shared level does with a message: it sends snoops into the stack and replies. -/
structure Answer where
  snoops : List (SnoopKind × ℕ)
  reply : Fill

/-- A snoop that has been answered: what the caches held when it arrived, what it was, and
the reply. -/
structure Snooped (k : ℕ) (sh : Shape) where
  contents : Contents k sh
  kind : SnoopKind
  address : ℕ
  reply : MemoryMessageType

/-- A stack that runs. Beside its contents there are the answers that the shared level is
going to give, and the snoops it has sent so far. -/
structure Stack (k : ℕ) (sh : Shape) where
  contents : Contents k sh
  script : List Answer
  snooped : List (Snooped k sh)

namespace Stack

variable {sh : Shape}

/-- A snoop of the shared level. -/
def snoopFromBelow (s : Stack k sh) (q : SnoopKind) (a : ℕ) : Except Fault (Stack k sh) := do
  let (c, t) ← snoop sh s.contents ⟨q.type, a⟩
  pure { s with contents := c, snooped := s.snooped ++ [⟨s.contents, q, a, t⟩] }

/-- Several snoops of the shared level. -/
def snoopsFromBelow (s : Stack k sh) : List (SnoopKind × ℕ) → Except Fault (Stack k sh)
  | [] => .ok s
  | q :: qs => do
    let s ← s.snoopFromBelow q.1 q.2
    s.snoopsFromBelow qs

/-- The shared level answers the next message; when nothing else is said, without snoops and
with a plain reply. -/
def below : Channel (Stack k sh) := fun s _ =>
  match s.script with
  | [] => .ok (s, missReply)
  | a :: rest => do
    let s ← snoopsFromBelow { s with script := rest } a.snoops
    pure (s, a.reply.type)

/-- A request of the processor. -/
def requestFromAbove (path : List Side) : Channel (Stack k sh) :=
  request sh contents (fun s c => { s with contents := c }) below path

/-- What may happen next to a stack. -/
inductive Event
  /-- A data request at the end of the data sides. -/
  | data (q : DataRequest) (a : ℕ) (script : List Answer)
  /-- A fetch, wherever it is wired to. -/
  | fetch (path : List Side) (a : ℕ) (script : List Answer)
  /-- A snoop from below. -/
  | snoop (q : SnoopKind) (a : ℕ)

/-- One step of a stack. -/
def step (s : Stack k sh) : Event → Except Fault (Stack k sh)
  | .data q a script => do
    let (s, _) ← requestFromAbove sh.spine { s with script := script } ⟨q.type, a⟩
    pure s
  | .fetch path a script => do
    let (s, _) ← requestFromAbove path { s with script := script } ⟨fetchReq, a⟩
    pure s
  | .snoop q a => s.snoopFromBelow q a

/-- A stack, from empty caches. -/
def machine (k : ℕ) (sh : Shape) : Lib.Machine (Stack k sh) Event Fault :=
  ⟨⟨.empty sh, [], []⟩, step⟩

end Stack

end FastCache

end Flexus
