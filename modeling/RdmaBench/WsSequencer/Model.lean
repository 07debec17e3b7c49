import Mathlib.Data.Multiset.Range
import RdmaBench.Requests.Delivery

/-! # The workers of `ws-sequencer` and their counter

Requests of `ws-sequencer` ask for a number. After a pass, a worker adds the
size of its batch to the counter that all workers share, in one atomic step,
and writes the numbers it reserved into the responses. The responses of a batch
are then posted port by port.

The slots and passes are those of `Requests.Model`. Its last step of a pass is
the one that reserves the numbers here, and the posts are steps of their own. -/

namespace RdmaBench.WsSequencer.Model
open RdmaBench.Lib.Runs RdmaBench.Lib.SlotRing
open RdmaBench.Postlist.Worker (wsSequencerRunWorker)
open RdmaBench.Requests.Model (Program)

/-- A slot is a `long long`. A client writes its `req_buf`, which is 1, and the
worker zeroes the slot. -/
def wsMailbox : Mailbox Int Unit where
  isRequest x := decide (x ≠ 0)
  write _ _ := 1
  take _ := 0
  isRequest_write _ _ := rfl
  isRequest_take _ _ := rfl

/-- `ws-sequencer` with any numbers of clients and workers and any window size. -/
def wsSequencer (numClients numWorkers windowSize ports postlist : Nat) : Program Int Unit where
  cfg := { wsSequencerRunWorker ports postlist with numClients }
  numWorkers
  windowSize
  mailbox := wsMailbox
  zero := 0
  isRequest_zero := rfl

/-- A work request of a batch: the port it is linked to and its receiver. -/
structure Wr where
  port : Nat
  client : Nat
  deriving DecidableEq

/-- A response that has its number and is not posted. -/
structure Reserved where
  port : Nat
  client : Nat
  value : Nat
  deriving DecidableEq

/-- A response on its way to a client or received by it. The immediate data is
the number of the worker. -/
structure Response where
  client : Nat
  worker : Nat
  value : Nat
  deriving DecidableEq

/-- Fill in the numbers from `base` on. -/
def fillResponses (base : Nat) : List Wr → List Reserved
  | [] => []
  | x :: xs => ⟨x.port, x.client, base⟩ :: fillResponses (base + 1) xs

/-- The numbers of the responses to a client. -/
def numbersFor (cn : Nat) (l : List Reserved) : List Nat :=
  (l.filter (·.client = cn)).map (·.value)

/-- What `ibv_post_send` sends on port `i`. -/
def postOn (wn i : Nat) (l : List Reserved) : List Response :=
  (l.filter (·.port = i)).map fun x => ⟨x.client, wn, x.value⟩

variable (p : Program Int Unit)

/-- The shared counter, and for each worker the batch it collects, the port that
it posts on next while it posts and the responses it has not posted. The
programs do not keep `received` and `given`, the numbers for the requests of a
client to a worker in the order of these. -/
structure State where
  requests : Requests.Model.State p
  counter : Nat
  wr : Fin p.numWorkers → List Wr
  posting : Fin p.numWorkers → Option Nat
  reserved : Fin p.numWorkers → List Reserved
  wire : List Response
  received : List Response
  given : Nat → Fin p.numWorkers → List Nat

def State.start : State p :=
  ⟨Requests.Model.State.start p, 0, fun _ => [], fun _ => none, fun _ => [], [], [],
    fun _ _ => []⟩

variable {p}

/-! ## Steps -/

/-- Worker `wn` looks into its next slot. -/
def State.poll (s : State p) (wn : Fin p.numWorkers) (r : Requests.Model.State p) : State p :=
  { s with
    requests := r
    wr :=
      if p.mailbox.isRequest (s.requests.region (s.requests.nextOffset wn)) then
        Function.update s.wr wn
          (s.wr wn ++ [⟨(s.requests.worker wn).pass.cbI, (s.requests.worker wn).pass.cltI⟩])
      else s.wr }

/-- Worker `wn` ends its pass. It reserves numbers unless its batch is empty. -/
def State.fetchAndAdd (s : State p) (wn : Fin p.numWorkers) (r : Requests.Model.State p) :
    State p :=
  if s.wr wn = [] then { s with requests := r }
  else
    { s with
      requests := r
      counter := s.counter + (s.wr wn).length
      wr := Function.update s.wr wn []
      posting := Function.update s.posting wn (some 0)
      reserved := Function.update s.reserved wn (fillResponses s.counter (s.wr wn))
      given := fun cn => Function.update (s.given cn) wn
        (s.given cn wn ++ numbersFor cn (fillResponses s.counter (s.wr wn))) }

/-- Worker `wn` posts its responses for port `i`, or goes to its next pass after
the last port. -/
def State.post (s : State p) (wn : Fin p.numWorkers) (i : Nat) : State p :=
  if i < p.cfg.numServerPorts then
    { s with
      posting := Function.update s.posting wn (some (i + 1))
      reserved := Function.update s.reserved wn ((s.reserved wn).filter (·.port ≠ i))
      wire := s.wire ++ postOn wn i (s.reserved wn) }
  else { s with posting := Function.update s.posting wn none }

/-- The response `r` arrives. -/
def State.arrive (s : State p) (k : Nat) (r : Response) : State p :=
  { s with
    requests := { s.requests with
      client := Function.update s.requests.client r.client
        (s.requests.client r.client).arrive }
    wire := s.wire.eraseIdx k
    received := s.received ++ [r] }

/-! ## Responses and their numbers -/

/-- Responses in flight or received. -/
def State.generated (s : State p) : List Response := s.received ++ s.wire

/-- The numbers in the responses of a worker to a client. -/
def numbersOf (cn wn : Nat) (l : List Response) : List Nat :=
  (l.filter fun r => r.client = cn ∧ r.worker = wn).map (·.value)

/-- All numbers in responses, and those that workers have reserved. -/
def State.numbers (s : State p) : Multiset Nat :=
  (s.generated.map (·.value) : Multiset Nat) +
    ∑ wn, ((s.reserved wn).map (·.value) : Multiset Nat)

/-! ## Runs -/

inductive Event (p : Program Int Unit) where
  | send (cn : Nat) (wn : Fin p.numWorkers)
  | deliver (cn : Nat)
  | arrive (k : Nat)
  | poll (wn : Fin p.numWorkers)
  | fetchAndAdd (wn : Fin p.numWorkers)
  | post (wn : Fin p.numWorkers)

/-- One step of a client, of the network or of a worker. -/
def Step (s : State p) : Event p → State p → Prop
  | .send cn wn, t => ∃ r, Requests.Model.Step s.requests (.send cn wn ()) r ∧
    t = { s with requests := r }
  | .deliver cn, t => ∃ r, Requests.Model.Step s.requests (.deliver cn) r ∧
    t = { s with requests := r }
  | .arrive k, t => ∃ r, s.wire[k]? = some r ∧ t = s.arrive k r
  | .poll wn, t => s.posting wn = none ∧
    ∃ r, Requests.Model.Step s.requests (.poll wn) r ∧ t = s.poll wn r
  | .fetchAndAdd wn, t => s.posting wn = none ∧
    ∃ r, Requests.Model.Step s.requests (.finish wn) r ∧ t = s.fetchAndAdd wn r
  | .post wn, t => ∃ i, s.posting wn = some i ∧ t = s.post wn i

/-- All runs, from a cleared region and a counter of zero. -/
def sequencer (p : Program Int Unit) : System (State p) (Event p) where
  init s := s = State.start p
  step := Step

end RdmaBench.WsSequencer.Model
