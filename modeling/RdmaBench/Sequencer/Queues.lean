import RdmaBench.Lib.Buffers
import RdmaBench.Sequencer.Model

/-! # The receive queues of the send-send sequencer

The programs of `Sequencer.Model` with their RECVs. A server thread posts
`HRD_Q_DEPTH` RECVs before its clients find it. It polls a batch of requests,
adds to the counter, posts a RECV for each request of the batch, and then posts
the responses. A client posts a RECV before each request of its list, and the
list after the last one. A request or response that finds no RECV is lost. -/

namespace RdmaBench.Sequencer.Queues
open RdmaBench.Lib.Runs RdmaBench.Lib.Buffers
open RdmaBench.Postlist.Worker (hrdModAdd)
open RdmaBench.Sequencer.Model (Config Request Response Client repliesTo)

/-- Where a server thread is in its loop, with the requests it polled and the
counter value they start from. -/
inductive Phase where
  | idle
  | polled (batch : List Request)
  | counted (batch : List Request) (base : Nat)
  | reposted (batch : List Request) (base : Nat)

/-- The requests that were polled and not answered. -/
def Phase.batch : Phase → List Request
  | .idle => []
  | .polled batch => batch
  | .counted batch _ => batch
  | .reposted batch _ => batch

/-- The RECVs that the thread has still to post for its batch. -/
def Phase.owed : Phase → Nat
  | .polled batch => batch.length
  | .counted batch _ => batch.length
  | _ => 0

/-- The variables of `run_server` and its receive queue and CQ. -/
structure Thread where
  qpI : Nat
  phase : Phase
  cq : List Request
  recvs : RecvQueue

/-- The variables of `run_client` and its receive queue. `filled` is `i` in the
loop over the requests to send. -/
structure ClientThread where
  vars : Client
  filled : Nat
  recvs : RecvQueue

/-- The counter, requests and responses in flight, and the threads. -/
structure State where
  counter : Nat
  net : List Request
  server : Nat → Thread
  wire : Nat → List Response
  client : Nat → ClientThread

def State.start (cfg : Config) (qDepth counter : Nat) : State where
  counter
  net := []
  server := fun _ => ⟨0, .idle, [], RecvQueue.empty.post qDepth⟩
  wire := fun _ => []
  client := fun _ => ⟨Client.start cfg, 0, RecvQueue.empty⟩

/-! ## Clients -/

def ClientThread.postRecv (c : ClientThread) : ClientThread :=
  { c with filled := c.filled + 1, recvs := c.recvs.post 1 }

/-- `ibv_post_send` of the list. -/
def State.send (s : State) (cn : Nat) : State :=
  { s with
    net := s.net ++ List.replicate (s.client cn).vars.reqsToSend
      ⟨cn, (s.client cn).vars.counterHi >>> 32⟩
    client := Function.update s.client cn
      { s.client cn with vars := { (s.client cn).vars with reqsToSend := 0 }, filled := 0 } }

/-- A response arrives. -/
def ClientThread.receive (cfg : Config) (c : ClientThread) (r : Response) : ClientThread :=
  { c with
    vars := if 0 < c.recvs.free then c.vars.receive cfg r else c.vars
    recvs := c.recvs.arrive }

def ClientThread.poll (c : ClientThread) (n : Nat) : ClientThread :=
  { c with vars := c.vars.poll n, recvs := c.recvs.poll n }

/-! ## Server threads -/

/-- A request arrives. -/
def Thread.receive (v : Thread) (r : Request) : Thread :=
  { v with cq := if 0 < v.recvs.free then v.cq ++ [r] else v.cq, recvs := v.recvs.arrive }

def Thread.poll (v : Thread) (n : Nat) : Thread :=
  { v with phase := .polled (v.cq.take n), cq := v.cq.drop n, recvs := v.recvs.poll n }

def State.fetchAndAdd (s : State) (thread : Nat) (batch : List Request) : State :=
  { s with
    counter := (s.counter + batch.length) % 2 ^ 64
    server := Function.update s.server thread
      { s.server thread with phase := .counted batch s.counter } }

def Thread.repost (v : Thread) (batch : List Request) (base : Nat) : Thread :=
  { v with phase := .reposted batch base, recvs := v.recvs.post batch.length }

def State.answer (cfg : Config) (s : State) (thread : Nat) (batch : List Request) (base : Nat) :
    State :=
  { s with
    server := Function.update s.server thread
      { s.server thread with
        qpI := hrdModAdd (s.server thread).qpI cfg.numUdQps
        phase := .idle }
    wire := fun cn => s.wire cn ++ repliesTo cn (s.server thread).qpI base batch }

/-! ## Runs -/

inductive Event where
  | postRecv (cn : Nat)
  | send (cn : Nat)
  | request (k : Nat)
  | poll (thread n : Nat)
  | fetchAndAdd (thread : Nat)
  | repost (thread : Nat)
  | answer (thread : Nat)
  | response (cn k : Nat)
  | receive (cn n : Nat)

variable (cfg : Config) (maxNumClients : Nat)

/-- One step of a client, a server thread or the network, which may let any
request or response overtake others. -/
def Step (s : State) : Event → State → Prop
  | .postRecv cn, t => cn < maxNumClients ∧ (s.client cn).filled < (s.client cn).vars.reqsToSend ∧
    t = { s with client := Function.update s.client cn (s.client cn).postRecv }
  | .send cn, t => cn < maxNumClients ∧ 0 < (s.client cn).vars.reqsToSend ∧
    (s.client cn).filled = (s.client cn).vars.reqsToSend ∧ t = s.send cn
  | .request k, t => ∃ r, s.net[k]? = some r ∧
    t = { s with
      net := s.net.eraseIdx k
      server := Function.update s.server (r.client % cfg.numServerThreads)
        ((s.server (r.client % cfg.numServerThreads)).receive r) }
  | .poll thread n, t => thread < cfg.numServerThreads ∧ (s.server thread).phase = .idle ∧
    (0 < n ∧ n ≤ cfg.serverPostlist) ∧ n ≤ (s.server thread).cq.length ∧
    t = { s with server := Function.update s.server thread ((s.server thread).poll n) }
  | .fetchAndAdd thread, t => ∃ batch, (s.server thread).phase = .polled batch ∧
    t = s.fetchAndAdd thread batch
  | .repost thread, t => ∃ batch base, (s.server thread).phase = .counted batch base ∧
    t = { s with server := Function.update s.server thread ((s.server thread).repost batch base) }
  | .answer thread, t => ∃ batch base, (s.server thread).phase = .reposted batch base ∧
    t = s.answer cfg thread batch base
  | .response cn k, t => ∃ r, (s.wire cn)[k]? = some r ∧
    t = { s with
      wire := Function.update s.wire cn ((s.wire cn).eraseIdx k)
      client := Function.update s.client cn ((s.client cn).receive cfg r) }
  | .receive cn n, t => cn < maxNumClients ∧ (s.client cn).vars.reqsToSend = 0 ∧
    (0 < n ∧ n ≤ cfg.postlist) ∧ n ≤ (s.client cn).vars.cq.length ∧
    t = { s with client := Function.update s.client cn ((s.client cn).poll n) }

/-- `max_clients_per_server_thread`. `run_client` asserts that `postlist` times
this is less than `HRD_Q_DEPTH`. -/
def maxClientsPerServerThread : Nat :=
  (maxNumClients + cfg.numServerThreads - 1) / cfg.numServerThreads

/-- All runs, with server threads that have filled their receive queues. -/
def queues (qDepth counter : Nat) : System State Event where
  init s := s = State.start cfg qDepth counter
  step := Step cfg maxNumClients

end RdmaBench.Sequencer.Queues
