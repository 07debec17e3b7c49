import RdmaBench.Lib.Runs
import RdmaBench.Postlist.Worker

/-! # The send-send sequencer

`ss-sequencer`: server threads share a 64-bit counter and hand out its values.
A client sends the upper half it assumes with each request. The server answers
with the lower half as immediate data if the assumption is right, and with the
whole value otherwise. Requests and responses are unreliable datagrams: nothing
is lost here, but they arrive in any order. Values are numbers below `2 ^ 64`. -/

namespace RdmaBench.Sequencer.Model
open RdmaBench.Lib.Runs
open RdmaBench.Postlist.Worker (hrdModAdd)

/-- `postlist` is that of the clients. The servers are started with their own. -/
structure Config where
  numServerThreads : Nat
  numUdQps : Nat
  postlist : Nat
  serverPostlist : Nat

/-- A request is a SEND of its immediate data only. -/
structure Request where
  client : Nat
  assumed : Nat
deriving DecidableEq, Repr

/-- A response, with the value the server assigned. A response with immediate
data carries only the lower half of it. `qp` is the queue pair it was sent on. -/
structure Response where
  value : Nat
  withImm : Bool
  qp : Nat
deriving DecidableEq, Repr

def Response.immData (r : Response) : Nat := r.value &&& 0xffffffff

/-- What a client made of a response: `resp_counter`, and the value assigned. -/
structure Result where
  assigned : Nat
  respCounter : Nat
  withImm : Bool
deriving DecidableEq, Repr

/-- The variables of `run_client`. `buf` has the words at offset 40 of the cache
lines of `dgram_buf`. One RECV is posted for each request, on these lines in
turn, so response number `arrived` lands in line `arrived % postlist`. -/
structure Client where
  counterHi : Nat
  reqsToSend : Nat
  arrived : Nat
  buf : Nat → Nat
  cq : List Response
  results : List Result

def Client.start (cfg : Config) : Client := ⟨0, cfg.postlist, 0, fun _ => 0, [], []⟩

/-- The counter, requests in flight, the next queue pair of each server thread,
responses in flight to each client, and the clients. -/
structure State where
  counter : Nat
  pending : List Request
  qpI : Nat → Nat
  wire : Nat → List Response
  client : Nat → Client

def State.start (cfg : Config) (counter : Nat) : State :=
  ⟨counter, [], fun _ => 0, fun _ => [], fun _ => Client.start cfg⟩

/-! ## The server -/

/-- The response to a request that got `respVal`. -/
def answer (qp respVal assumed : Nat) : Response := ⟨respVal, decide (assumed = respVal >>> 32), qp⟩

/-- The responses to client `cn` in a batch whose values start at `base`. -/
def repliesTo (cn qp : Nat) : Nat → List Request → List Response
  | _, [] => []
  | base, r :: rs =>
    if r.client = cn then
      answer qp (base % 2 ^ 64) r.assumed :: repliesTo cn qp (base + 1) rs
    else repliesTo cn qp (base + 1) rs

/-- A server thread takes the requests `batch` and leaves `rest`. -/
def State.serve (cfg : Config) (s : State) (thread : Nat) (batch rest : List Request) : State :=
  { s with
    counter := (s.counter + batch.length) % 2 ^ 64
    pending := rest
    qpI := Function.update s.qpI thread (hrdModAdd (s.qpI thread) cfg.numUdQps)
    wire := fun cn => s.wire cn ++ repliesTo cn (s.qpI thread) s.counter batch }

/-! ## The client -/

/-- Send `reqs_to_send` requests. -/
def State.send (s : State) (cn : Nat) : State :=
  { s with
    pending := s.pending ++
      List.replicate (s.client cn).reqsToSend ⟨cn, (s.client cn).counterHi >>> 32⟩
    client := Function.update s.client cn { s.client cn with reqsToSend := 0 } }

/-- A response lands in the buffer of the oldest RECV. -/
def Client.receive (cfg : Config) (c : Client) (r : Response) : Client :=
  { c with
    arrived := c.arrived + 1
    buf := if r.withImm then c.buf else Function.update c.buf (c.arrived % cfg.postlist) r.value
    cq := c.cq ++ [r] }

/-- Read response number `i` of a poll. -/
def Client.read (c : Client) (i : Nat) (r : Response) : Client :=
  if r.withImm then
    { c with results := c.results ++ [⟨r.value, c.counterHi + r.immData, true⟩] }
  else
    { c with
      counterHi := (c.buf i >>> 32) <<< 32
      results := c.results ++ [⟨r.value, c.buf i, false⟩] }

def Client.readAll (c : Client) (i : Nat) : List Response → Client
  | [] => c
  | r :: rs => (c.read i r).readAll (i + 1) rs

/-- Poll `n` completions and read them. -/
def Client.poll (c : Client) (n : Nat) : Client :=
  { c.readAll 0 (c.cq.take n) with reqsToSend := n, cq := c.cq.drop n }

/-! ## Runs -/

inductive Event where
  | send (cn : Nat)
  | serve (thread : Nat) (batch rest : List Request)
  | arrive (cn k : Nat)
  | poll (cn n : Nat)

/-- One step of a client, a server thread or the network. A response on the
wire may overtake the `k` before it. -/
def Step (cfg : Config) (s : State) : Event → State → Prop
  | .send cn, t => 0 < (s.client cn).reqsToSend ∧ t = s.send cn
  | .serve thread batch rest, t =>
    (0 < batch.length ∧ batch.length ≤ cfg.serverPostlist) ∧
    (∀ r ∈ batch, r.client % cfg.numServerThreads = thread) ∧
    s.pending.Perm (batch ++ rest) ∧ t = s.serve cfg thread batch rest
  | .arrive cn k, t => ∃ r, (s.wire cn)[k]? = some r ∧
    t = { s with
      wire := Function.update s.wire cn ((s.wire cn).eraseIdx k)
      client := Function.update s.client cn ((s.client cn).receive cfg r) }
  | .poll cn n, t =>
    (s.client cn).reqsToSend = 0 ∧ (0 < n ∧ n ≤ cfg.postlist) ∧ n ≤ (s.client cn).cq.length ∧
    t = { s with client := Function.update s.client cn ((s.client cn).poll n) }

/-- Runs from a counter value in which every step meets the condition `C`. -/
def sequencerWhere (C : State → Event → Prop) (cfg : Config) (counter : Nat) :
    System State Event where
  init s := s = State.start cfg counter
  step s e t := C s e ∧ Step cfg s e t

/-- All runs. -/
def sequencer : Config → Nat → System State Event := sequencerWhere fun _ _ => True

end RdmaBench.Sequencer.Model
