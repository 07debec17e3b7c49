import RdmaBench.Lib.SlotRing
import RdmaBench.Lib.Window
import RdmaBench.Postlist.Worker

/-! # Clients, workers and the request region

HERD and `ws-sequencer` share one protocol. A client writes its requests with
RDMA WRITEs into slots of a region in the server's memory, a ring of
`WINDOW_SIZE` slots for each worker and client. A worker polls the slots of its
clients in passes and answers each request it finds with a SEND. The two
programs differ in what a slot holds, and this is a `Mailbox` here.

The WRITEs of one client are delivered whole and in order, nothing is lost, and
responses arrive in any order. A client looks at no response, so only their
number is kept. Its own selective signaling can only delay it and is left out. -/

namespace RdmaBench.Requests.Model
open RdmaBench.Lib.Runs RdmaBench.Lib.Window RdmaBench.Lib.SlotRing
open RdmaBench.Postlist.Worker (Config Pass Polling Waits hrdModAdd)

/-- The constants of a program, and the use of its slots. The master clears the
region before clients connect. -/
structure Program (Slot Req : Type) where
  cfg : Config
  numWorkers : Nat
  windowSize : Nat
  mailbox : Mailbox Slot Req
  zero : Slot
  isRequest_zero : mailbox.isRequest zero = false

variable {Slot Req : Type} (p : Program Slot Req)

/-- `OFFSET`. -/
def offset (wn cn ws : Nat) : Nat :=
  wn * p.cfg.numClients * p.windowSize + cn * p.windowSize + ws

/-- A WRITE in flight. -/
structure Write where
  worker : Fin p.numWorkers
  offset : Nat
  req : Req

/-- What has happened between a client and the workers. The programs do not
keep it. -/
structure Past where
  sent : Fin p.numWorkers → List Req
  delivered : Fin p.numWorkers → Nat
  accepted : Fin p.numWorkers → List Slot
  answered : Fin p.numWorkers → Nat
  polled : Nat

/-- The variables of `run_client`, its WRITEs in flight, the responses in flight
to it and those in its receive CQ. -/
structure Client where
  nbTx : Nat
  ws : Fin p.numWorkers → Nat
  wire : List (Write p)
  responses : Nat
  arrived : Nat
  past : Past p

/-- The variables of `run_worker`. Of each request in `batch`, which fills
`wr` and `op_ptr_arr`, the client and the offset are kept. -/
structure Server where
  pass : Pass
  ws : Nat → Nat
  batch : List (Nat × Nat)

structure State where
  region : Nat → Slot
  client : Nat → Client p
  worker : Fin p.numWorkers → Server

def Past.start : Past p := ⟨fun _ => [], fun _ => 0, fun _ => [], fun _ => 0, 0⟩

def State.start : State p where
  region := fun _ => p.zero
  client := fun _ => ⟨0, fun _ => 0, [], 0, 0, Past.start p⟩
  worker := fun _ => ⟨Pass.start, fun _ => 0, []⟩

variable {p}

/-! ## Client steps -/

/-- Send a request to worker `wn`, after the poll for a window of responses at
every `WINDOW_SIZE`-th request. -/
def Client.send (cn : Nat) (c : Client p) (wn : Fin p.numWorkers) (r : Req) : Client p :=
  { c with
    nbTx := c.nbTx + 1
    ws := Function.update c.ws wn (hrdModAdd (c.ws wn) p.windowSize)
    wire := c.wire ++ [⟨wn, offset p wn cn (c.ws wn), r⟩]
    arrived := if MustPoll p.windowSize c.nbTx then c.arrived - p.windowSize else c.arrived
    past := { c.past with
      sent := Function.update c.past.sent wn (c.past.sent wn ++ [r])
      polled :=
        if MustPoll p.windowSize c.nbTx then c.past.polled + p.windowSize else c.past.polled } }

/-- The oldest WRITE of client `cn` reaches the region. -/
def State.deliver (s : State p) (cn : Nat) (x : Write p) (rest : List (Write p)) : State p :=
  { s with
    region := Function.update s.region x.offset (p.mailbox.write x.req (s.region x.offset))
    client := Function.update s.client cn
      { s.client cn with
        wire := rest
        past := { (s.client cn).past with
          delivered := bump (s.client cn).past.delivered x.worker 1 } } }

/-- A response to a client arrives. -/
def Client.arrive (c : Client p) : Client p :=
  { c with responses := c.responses - 1, arrived := c.arrived + 1 }

/-! ## Worker steps -/

/-- The slot that worker `wn` polls next. -/
def State.nextOffset (s : State p) (wn : Fin p.numWorkers) : Nat :=
  offset p wn (s.worker wn).pass.cltI ((s.worker wn).ws (s.worker wn).pass.cltI)

/-- There is no request in the next slot of worker `wn`. -/
def State.miss (s : State p) (wn : Fin p.numWorkers) : State p :=
  { s with
    worker := Function.update s.worker wn
      { s.worker wn with pass := Postlist.Worker.miss p.cfg (s.worker wn).pass } }

/-- Worker `wn` accepts the request in its next slot. -/
def State.hit (s : State p) (wn : Fin p.numWorkers) : State p :=
  let v := s.worker wn
  let cn := v.pass.cltI
  let slot := p.mailbox.take (s.region (s.nextOffset wn))
  { region := Function.update s.region (s.nextOffset wn) slot
    client := Function.update s.client cn
      { s.client cn with
        past := { (s.client cn).past with
          accepted := Function.update (s.client cn).past.accepted wn
            ((s.client cn).past.accepted wn ++ [slot]) } }
    worker := Function.update s.worker wn
      { pass := Postlist.Worker.hit p.cfg v.pass
        ws := Function.update v.ws cn (hrdModAdd (v.ws cn) p.windowSize)
        batch := v.batch ++ [(cn, s.nextOffset wn)] } }

/-- The responses of a batch to client `cn`. -/
def Server.answers (v : Server) (cn : Nat) : Nat := (v.batch.filter (·.1 = cn)).length

/-- Worker `wn` ends its pass and posts the responses of its batch. -/
def State.finish (s : State p) (wn : Fin p.numWorkers) : State p :=
  { s with
    client := fun cn =>
      { s.client cn with
        responses := (s.client cn).responses + (s.worker wn).answers cn
        past := { (s.client cn).past with
          answered := bump (s.client cn).past.answered wn ((s.worker wn).answers cn) } }
    worker := Function.update s.worker wn
      { s.worker wn with
        pass := Postlist.Worker.finish p.cfg (s.worker wn).pass
        batch := [] } }

/-! ## Runs -/

inductive Event (p : Program Slot Req) where
  | send (cn : Nat) (wn : Fin p.numWorkers) (r : Req)
  | deliver (cn : Nat)
  | arrive (cn : Nat)
  | poll (wn : Fin p.numWorkers)
  | finish (wn : Fin p.numWorkers)

/-- One step of a client, of the network or of a worker. -/
def Step (s : State p) : Event p → State p → Prop
  | .send cn wn r, t =>
    cn < p.cfg.numClients ∧
    (MustPoll p.windowSize (s.client cn).nbTx → p.windowSize ≤ (s.client cn).arrived) ∧
    t = { s with client := Function.update s.client cn ((s.client cn).send cn wn r) }
  | .deliver cn, t => cn < p.cfg.numClients ∧
    ∃ x rest, (s.client cn).wire = x :: rest ∧ t = s.deliver cn x rest
  | .arrive cn, t => 0 < (s.client cn).responses ∧
    t = { s with client := Function.update s.client cn (s.client cn).arrive }
  | .poll wn, t =>
    Polling p.cfg (s.worker wn).pass ∧
    if p.mailbox.isRequest (s.region (s.nextOffset wn)) then
      (Waits p.cfg (s.worker wn).pass →
        ((s.worker wn).pass.queue (s.worker wn).pass.cbI (s.worker wn).pass.udQpI).CanPoll
          p.cfg.unsigBatch) ∧ t = s.hit wn
    else t = s.miss wn
  | .finish wn, t => ¬Polling p.cfg (s.worker wn).pass ∧ t = s.finish wn

/-- All runs, from a cleared region. -/
def system (p : Program Slot Req) : System (State p) (Event p) where
  init s := s = State.start p
  step := Step

theorem reach_hit {s : State p} {wn : Fin p.numWorkers} (h : Reachable (system p) s)
    (hpoll : Polling p.cfg (s.worker wn).pass)
    (hreq : p.mailbox.isRequest (s.region (s.nextOffset wn)) = true)
    (hwait : ¬Waits p.cfg (s.worker wn).pass) : Reachable (system p) (s.hit wn) := by
  refine .step (e := .poll wn) h ⟨hpoll, ?_⟩
  rw [if_pos hreq]
  exact ⟨fun hw => absurd hw hwait, rfl⟩

/-! ## The region -/

/-- Slots of different workers, clients or window positions do not share memory. -/
theorem offset_inj (hW : 0 < p.windowSize) {wn cn ws wn' cn' ws' : Nat}
    (hc : cn < p.cfg.numClients) (hc' : cn' < p.cfg.numClients)
    (hs : ws < p.windowSize) (hs' : ws' < p.windowSize)
    (h : offset p wn cn ws = offset p wn' cn' ws') : wn = wn' ∧ cn = cn' ∧ ws = ws' := by
  unfold offset at h
  have hN : 0 < p.cfg.numClients := Nat.zero_lt_of_lt hc
  rw [← Nat.add_mul, ← Nat.add_mul] at h
  have hws : ws = ws' := by
    have := congrArg (· % p.windowSize) h
    simpa [Nat.add_mod, Nat.mod_eq_of_lt hs, Nat.mod_eq_of_lt hs'] using this
  subst hws
  have hrow := Nat.eq_of_mul_eq_mul_right hW (Nat.add_right_cancel h)
  have hcn : cn = cn' := by
    have := congrArg (· % p.cfg.numClients) hrow
    simpa [Nat.add_mod, Nat.mod_eq_of_lt hc, Nat.mod_eq_of_lt hc'] using this
  subst hcn
  exact ⟨Nat.eq_of_mul_eq_mul_right hN (Nat.add_right_cancel hrow), rfl, rfl⟩

end RdmaBench.Requests.Model
