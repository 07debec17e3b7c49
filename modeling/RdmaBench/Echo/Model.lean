import RdmaBench.Lib.Buffers
import RdmaBench.Lib.Runs
import RdmaBench.Lib.Signaling
import RdmaBench.Postlist.Worker

/-! # Clients and workers of `ws-echo`

A client has one slot of a request region for each worker. Its requests to the
worker are the numbers 1, 2, …, each WRITTEN over the one before. The worker
answers once, by a datagram, whenever it finds a number other than that of the
answers it has given. A client posts a RECV before each request and waits for a
response only once 512 requests have been made.

WRITEs of a client are delivered in order. `long long` counters are taken as
numbers. -/

namespace RdmaBench.Echo.Model
open RdmaBench.Lib.Buffers RdmaBench.Lib.Runs RdmaBench.Lib.Signaling
open RdmaBench.Postlist.Worker (hrdModAdd)

def cachelineSize : Nat := 64
def slotSizeLL : Nat := cachelineSize / 8
def unsigBatch : Nat := 256

/-- The requests a client makes before it waits for responses. -/
def window : Nat := 512

/-- The constants of `main.h`, and the arguments of clients and workers, with the
checks `main` makes of the size. -/
structure Config where
  numClients : Nat
  numWorkers : Nat
  numUdQps : Nat
  clientPostlist : Nat
  workerPostlist : Nat
  size : Nat
  size_ok : 1 ≤ size ∧ size ≤ 24 ∧ size % 8 = 0
  numWorkers_pos : 0 < numWorkers

/-- The constants of the source. -/
def Config.source (clientPostlist workerPostlist size : Nat)
    (h : 1 ≤ size ∧ size ≤ 24 ∧ size % 8 = 0) : Config :=
  ⟨64, 5, 3, clientPostlist, workerPostlist, size, h, by decide⟩

/-! ## Clients -/

/-- A WRITE to worker `wn`: `value`, and ones in the rest of its bytes. -/
structure Write where
  wn : Nat
  port : Nat
  remoteAddr : Nat
  value : Nat
deriving DecidableEq, Repr

/-- The variables of `run_client`. `wr` has the requests of the postlist being made,
`flight` those posted and not delivered. `ready` is set once the RECV of the next
request has been posted. `delivered` counts the WRITEs delivered for each worker;
the program does not keep it. -/
structure Client where
  i : Nat
  ready : Bool
  nbTx : Nat
  wn : Nat
  lastReq : Nat → Nat
  wr : List Write
  queue : Queue
  recvs : RecvQueue
  flight : List Write
  delivered : Nat → Nat

def Client.start : Client :=
  ⟨0, false, 0, 0, fun _ => 0, [], Queue.empty, RecvQueue.empty, [], fun _ => 0⟩

variable (cfg : Config)

/-- The address in the region of the client's port. -/
def remoteAddr (wn cltGid : Nat) : Nat :=
  wn * cfg.numClients * cachelineSize + cltGid * cachelineSize

/-- Wait for a response if there are many requests, and post a RECV. -/
def Client.prepare (c : Client) : Client :=
  { c with
    ready := true
    recvs := (if window ≤ c.nbTx then c.recvs.poll 1 else c.recvs).post 1 }

/-- Make the next request. -/
def Client.request (c : Client) (cltGid : Nat) : Client :=
  { c with
    i := c.i + 1
    ready := false
    nbTx := c.nbTx + 1
    wn := hrdModAdd c.wn cfg.numWorkers
    lastReq := Function.update c.lastReq c.wn (c.lastReq c.wn + 1)
    wr := c.wr ++ [⟨c.wn, cltGid % 2, remoteAddr cfg c.wn cltGid, c.lastReq c.wn + 1⟩]
    queue := c.queue.make .beforeLast unsigBatch }

/-- Post the requests of a postlist. -/
def Client.postSend (c : Client) : Client :=
  { c with i := 0, wr := [], queue := c.queue.post, flight := c.flight ++ c.wr }

/-- The oldest WRITE of the client has been delivered. -/
def Client.deliver (c : Client) (x : Write) (rest : List Write) : Client :=
  { c with
    flight := rest
    delivered := Function.update c.delivered x.wn (c.delivered x.wn + 1) }

/-! ## Workers -/

/-- The variables of `run_worker`. `cltI` is the client to poll next: the source keeps
the value before `HRD_MOD_ADD`. `wr` has the clients of the responses collected on
each port, and `posted` those of all responses posted, which the program does not
keep. -/
structure Worker where
  i : Nat
  cltI : Nat
  lastReq : Nat → Nat
  nbNewReq : Nat → Nat
  wr : Nat → List Nat
  udQpI : Nat
  queue : Nat → Nat → Queue
  posted : List Nat

def Worker.start : Worker :=
  ⟨0, 0, fun _ => 0, fun _ => 0, fun _ => [], 0, fun _ _ => Queue.empty, []⟩

def reqBufBase (wrkrLid : Nat) : Nat := wrkrLid * cfg.numClients * slotSizeLL

/-- The index of a slot in the region of the client's port, in words. -/
def slotIndex (wrkrLid cltI : Nat) : Nat := reqBufBase cfg wrkrLid + cltI * slotSizeLL

/-- The pass goes on. -/
def Worker.Polling (w : Worker) : Prop :=
  w.i < cfg.numClients ∧ w.nbNewReq 0 + w.nbNewReq 1 < 2 * cfg.workerPostlist

/-- Poll a slot without a new request. -/
def Worker.miss (w : Worker) : Worker :=
  { w with i := w.i + 1, cltI := hrdModAdd w.cltI cfg.numClients }

/-- Poll a slot with a new request, and collect its response. -/
def Worker.hit (w : Worker) : Worker :=
  { w.miss cfg with
    lastReq := Function.update w.lastReq w.cltI (w.lastReq w.cltI + 1)
    nbNewReq := Function.update w.nbNewReq (w.cltI % 2) (w.nbNewReq (w.cltI % 2) + 1)
    wr := Function.update w.wr (w.cltI % 2) (w.wr (w.cltI % 2) ++ [w.cltI])
    queue := fun p q =>
      if p = w.cltI % 2 ∧ q = w.udQpI then (w.queue p q).make .beforeLast unsigBatch
      else w.queue p q }

/-- End the pass: post the responses of both ports. -/
def Worker.finish (w : Worker) : Worker :=
  { w with
    i := 0
    nbNewReq := fun _ => 0
    wr := fun _ => []
    udQpI := hrdModAdd w.udQpI cfg.numUdQps
    queue := fun p q =>
      if (p < 2 ∧ w.nbNewReq p ≠ 0) ∧ q = w.udQpI then (w.queue p q).post else w.queue p q
    posted := w.posted ++ (w.wr 0 ++ w.wr 1) }

/-! ## The system -/

/-- `reqBuf` has the words of the two request regions, and `responses` the number
of responses on their way to each client. -/
structure State where
  client : Nat → Client
  worker : Nat → Worker
  reqBuf : Nat → Nat → Nat
  responses : Nat → Nat

/-- A delivered WRITE has overwritten `size` bytes of its region. -/
def deliverWrite (x : Write) (mem : Nat → Nat) : Nat → Nat := fun k =>
  if x.remoteAddr / 8 ≤ k ∧ k < x.remoteAddr / 8 + cfg.size / 8 then
    if k = x.remoteAddr / 8 then x.value else 0x0101010101010101
  else mem k

/-- The slot of client `cn` that worker `wn` polls. -/
def State.slot (s : State) (wn cn : Nat) : Nat := s.reqBuf (cn % 2) (slotIndex cfg wn cn)

/-- WRITE `x`, the oldest of client `cn`, is delivered. -/
def State.deliver (s : State) (cn : Nat) (x : Write) (rest : List Write) : State :=
  { s with
    client := Function.update s.client cn ((s.client cn).deliver x rest)
    reqBuf := Function.update s.reqBuf x.port (deliverWrite cfg x (s.reqBuf x.port)) }

/-- A response arrives at client `cn`. -/
def State.arrive (s : State) (cn : Nat) : State :=
  { s with
    client := Function.update s.client cn
      { s.client cn with recvs := (s.client cn).recvs.arrive }
    responses := Function.update s.responses cn (s.responses cn - 1) }

inductive Event where
  | prepare (cn : Nat)
  | request (cn : Nat)
  | postSend (cn : Nat)
  | deliver (cn : Nat)
  | miss (wn : Nat)
  | hit (wn : Nat)
  | finish (wn : Nat)
  | arrive (cn : Nat)

def Step (s : State) : Event → State → Prop
  | .prepare cn, t =>
    cn < cfg.numClients ∧ (s.client cn).i < cfg.clientPostlist ∧ (s.client cn).ready = false ∧
    (window ≤ (s.client cn).nbTx → 0 < (s.client cn).recvs.ready) ∧
    t = { s with client := Function.update s.client cn (s.client cn).prepare }
  | .request cn, t =>
    cn < cfg.numClients ∧ (s.client cn).ready = true ∧
    (Rule.Polls unsigBatch (s.client cn).queue.made .beforeLast →
      (s.client cn).queue.CanPoll unsigBatch) ∧
    t = { s with client := Function.update s.client cn ((s.client cn).request cfg cn) }
  | .postSend cn, t =>
    cn < cfg.numClients ∧ (s.client cn).i = cfg.clientPostlist ∧
    t = { s with client := Function.update s.client cn (s.client cn).postSend }
  | .deliver cn, t =>
    cn < cfg.numClients ∧ ∃ x rest, (s.client cn).flight = x :: rest ∧
    t = s.deliver cfg cn x rest
  | .miss wn, t =>
    wn < cfg.numWorkers ∧ (s.worker wn).Polling cfg ∧
    s.slot cfg wn (s.worker wn).cltI = (s.worker wn).lastReq (s.worker wn).cltI ∧
    t = { s with worker := Function.update s.worker wn ((s.worker wn).miss cfg) }
  | .hit wn, t =>
    wn < cfg.numWorkers ∧ (s.worker wn).Polling cfg ∧
    s.slot cfg wn (s.worker wn).cltI ≠ (s.worker wn).lastReq (s.worker wn).cltI ∧
    (Rule.Polls unsigBatch
        ((s.worker wn).queue ((s.worker wn).cltI % 2) (s.worker wn).udQpI).made .beforeLast →
      ((s.worker wn).queue ((s.worker wn).cltI % 2) (s.worker wn).udQpI).CanPoll unsigBatch) ∧
    t = { s with worker := Function.update s.worker wn ((s.worker wn).hit cfg) }
  | .finish wn, t =>
    wn < cfg.numWorkers ∧ ¬(s.worker wn).Polling cfg ∧
    t = { s with
      worker := Function.update s.worker wn ((s.worker wn).finish cfg)
      responses := fun cn =>
        s.responses cn + ((s.worker wn).wr 0 ++ (s.worker wn).wr 1).count cn }
  | .arrive cn, t =>
    cn < cfg.numClients ∧ 0 < s.responses cn ∧ t = s.arrive cn

/-- All runs of the clients and workers, from the regions the master has cleared. -/
def echo : System State Event where
  init s := s = ⟨fun _ => Client.start, fun _ => Worker.start, fun _ _ => 0, fun _ => 0⟩
  step := Step cfg

end RdmaBench.Echo.Model
