import RdmaBench.Mica.Model
import RdmaBench.Requests.Delivery

/-! # HERD requests

HERD's use of the request region: a slot is a `struct mica_op`. A client writes
the part of it that its request needs, with an opcode that no MICA operation
has, and the worker turns it into a MICA operation in place. -/

namespace RdmaBench.Herd.Protocol
open RdmaBench.Lib.Runs RdmaBench.Lib.SlotRing RdmaBench.Mica.Model
open RdmaBench.Postlist.Worker (herdRunWorker)
open RdmaBench.Requests.Model RdmaBench.Requests.Delivery

def herdMicaOffset : UInt8 := 10
def herdOpGet : UInt8 := opGet + herdMicaOffset
def herdOpPut : UInt8 := opPut + herdMicaOffset
def herdValueSize : Nat := 32

/-- The requests of `run_client`. -/
inductive HerdReq where
  | get (key : MicaKey)
  | put (key : MicaKey) (value : Nat → UInt8)

/-- What the WRITE of a request leaves in a slot. A GET has the first
`HERD_GET_REQ_SIZE` bytes, the key and the opcode. A PUT has
`HERD_PUT_REQ_SIZE` bytes, the last 32 are the value. -/
def HerdReq.write : HerdReq → MicaOp → MicaOp
  | .get key, slot => { slot with key, opcode := herdOpGet }
  | .put key value, slot =>
    { key, opcode := herdOpPut, valLen := UInt8.ofNat herdValueSize
      value := fun i => if i < herdValueSize then value i else slot.value i }

/-- The slots of HERD: the opcode says whether there is a request, and the
worker subtracts `HERD_MICA_OFFSET`. -/
def herdMailbox : Mailbox MicaOp HerdReq where
  isRequest op := decide (herdOpGet ≤ op.opcode)
  write := HerdReq.write
  take op := { op with opcode := op.opcode - herdMicaOffset }
  isRequest_write r _ := match r with
    | .get _ => (by decide : decide (herdOpGet ≤ herdOpGet) = true)
    | .put _ _ => (by decide : decide (herdOpGet ≤ herdOpPut) = true)
  isRequest_take r _ := match r with
    | .get _ => (by decide : decide (herdOpGet ≤ herdOpGet - herdMicaOffset) = false)
    | .put _ _ => (by decide : decide (herdOpGet ≤ herdOpPut - herdMicaOffset) = false)

/-- HERD with any numbers of clients and workers and any window size. -/
def herd (numClients numWorkers windowSize ports qps postlist : Nat) : Program MicaOp HerdReq where
  cfg := { herdRunWorker ports qps postlist with numClients }
  numWorkers
  windowSize
  mailbox := herdMailbox
  zero := ⟨⟨0, 0, 0, 0⟩, 0, 0, fun _ => 0⟩
  isRequest_zero := by decide

/-- The MICA operation of a request. -/
def HerdReq.Carried : HerdReq → MicaOp → Prop
  | .get key, op => op.key = key ∧ op.opcode = opGet
  | .put key value, op => op.key = key ∧ op.opcode = opPut ∧ op.valLen.toNat = herdValueSize ∧
      ∀ i < herdValueSize, op.value i = value i

/-- An accepted slot holds the MICA operation of the request. -/
theorem carried_of_took {op : MicaOp} {r : HerdReq} (h : herdMailbox.Took op r) :
    r.Carried op := by
  obtain ⟨x, rfl⟩ := h
  cases r with
  | get key => exact ⟨rfl, (by decide : herdOpGet - herdMicaOffset = opGet)⟩
  | put key value =>
    refine ⟨rfl, (by decide : herdOpPut - herdMicaOffset = opPut),
      (by decide : (UInt8.ofNat herdValueSize).toNat = herdValueSize), fun i hi => ?_⟩
    show (if i < herdValueSize then value i else x.value i) = value i
    rw [if_pos hi]

variable {numClients numWorkers windowSize ports qps postlist : Nat}

/-- In every run, each worker accepts each client's requests once and in order,
as the MICA operations that were sent, and no slot is rewritten between the
delivery of a request and its response. -/
theorem requests_exactlyOnce (hW : 1 ≤ windowSize)
    {s : State (herd numClients numWorkers windowSize ports qps postlist)}
    (h : Reachable (system (herd numClients numWorkers windowSize ports qps postlist)) s)
    {cn : Nat} (hcn : cn < numClients) (wn : Fin numWorkers) :
    ExactlyOnce s cn wn ∧
    List.Forall₂ (fun op r => HerdReq.Carried r op) ((s.client cn).past.accepted wn)
      (((s.client cn).past.sent wn).take ((s.client cn).past.accepted wn).length) := by
  have honce := reachable_exactlyOnce (show 0 < (herd numClients numWorkers windowSize ports qps
    postlist).windowSize from hW) h hcn wn
  exact ⟨honce, honce.inOrder.imp fun _ _ => carried_of_took⟩

/-- One client and one worker, with a window of one. -/
abbrev tiny : Program MicaOp HerdReq := herd 1 1 1 1 1 1

/-- The client sends a GET, and after its response a PUT, which are delivered to the same
slot and accepted. -/
theorem tiny_getPut : ∃ s : State tiny, Reachable (system tiny) s ∧
    ((s.client 0).past.accepted (0 : Fin 1)).map (·.opcode) = [opGet, opPut] ∧
    (s.client 0).past.sent (0 : Fin 1) = [.get ⟨0, 0, 0, 0⟩, .put ⟨0, 0, 0, 1⟩ fun _ => 7] := by
  have h1 : Reachable (system tiny) _ := .step (e := .send 0 (0 : Fin 1) (.get ⟨0, 0, 0, 0⟩))
    (.init rfl) ⟨by decide, fun h => absurd h.2 (by decide), rfl⟩
  have h2 : Reachable (system tiny) _ := .step (e := .deliver 0) h1
    ⟨by decide, _, [], rfl, rfl⟩
  have h3 : Reachable (system tiny) (State.hit _ (0 : Fin 1)) :=
    reach_hit h2 (by decide) (by decide) (fun h => absurd h.2 (by decide))
  have h4 : Reachable (system tiny) _ := .step (e := .finish (0 : Fin 1)) h3 ⟨by decide, rfl⟩
  have h5 : Reachable (system tiny) _ := .step (e := .arrive 0) h4 ⟨by decide, rfl⟩
  have h6 : Reachable (system tiny) _ :=
    .step (e := .send 0 (0 : Fin 1) (.put ⟨0, 0, 0, 1⟩ fun _ => 7)) h5
      ⟨by decide, fun _ => by decide, rfl⟩
  have h7 : Reachable (system tiny) _ := .step (e := .deliver 0) h6
    ⟨by decide, _, [], rfl, rfl⟩
  have h8 : Reachable (system tiny) (State.hit _ (0 : Fin 1)) :=
    reach_hit h7 (by decide) (by decide) (fun h => absurd h.2 (by decide))
  exact ⟨_, h8, by decide, rfl⟩

theorem requests_exactlyOnce_getPut : ∃ s : State tiny,
    ((s.client 0).past.accepted (0 : Fin 1)).map (·.opcode) = [opGet, opPut] ∧
      ExactlyOnce s 0 (0 : Fin 1) ∧
      List.Forall₂ (fun op r => HerdReq.Carried r op) ((s.client 0).past.accepted (0 : Fin 1))
        [.get ⟨0, 0, 0, 0⟩, .put ⟨0, 0, 0, 1⟩ fun _ => 7] := by
  obtain ⟨s, hs, hops, hsent⟩ := tiny_getPut
  obtain ⟨honce, hcarried⟩ := requests_exactlyOnce (Nat.le_refl 1) hs Nat.one_pos (0 : Fin 1)
  have hlen := congrArg List.length hops
  rw [List.length_map] at hlen
  rw [hsent, hlen] at hcarried
  exact ⟨s, hops, honce, hcarried⟩

end RdmaBench.Herd.Protocol
