import RdmaBench.Lib.ByteMem
import RdmaBench.Lib.Runs
import RdmaBench.Lib.Signaling

/-! # The workers of `rc-swarm`

Every worker thread of every process sends READs or WRITEs to randomly chosen
peers, over queue pairs with a completion queue each. It uses `window_size`
slots of its buffer in turn. With `allsig` every request asks for a completion,
and before a slot is used again the worker polls the queue pair it used for the
slot. Without, every `unsig_batch`-th request of a queue pair does.

All processes run with the same flags. Requests of one queue pair complete in
order, and only after their data have been placed. -/

namespace RdmaBench.Swarm.Model
open RdmaBench.Lib.ByteMem RdmaBench.Lib.Runs RdmaBench.Lib.Signaling

def kAppBufSize : Nat := 2 * 2 ^ 20
def kAppMaxThreads : Nat := 28
def kAppMaxWindow : Nat := 64
def kHrdMaxInline : Nat := 16

structure Flags where
  numProcesses : Nat
  numThreads : Nat
  vmsPerProcess : Nat
  doRead : Bool
  size : Nat
  windowSize : Nat
  allsig : Bool
  sqDepth : Nat
  unsigBatch : Nat
deriving DecidableEq, Repr

/-- The checks of `main`. The product is one of 64-bit numbers. -/
def Flags.Accepted (f : Flags) : Prop :=
  f.size ≤ kHrdMaxInline ∧ f.windowSize ≤ kAppMaxWindow ∧
  (0 < f.numThreads ∧ f.numThreads ≤ kAppMaxThreads) ∧ 2 * f.unsigBatch % 2 ^ 64 ≤ f.sqDepth

instance (f : Flags) : Decidable f.Accepted := inferInstanceAs (Decidable (_ ∧ _ ∧ _ ∧ _))

def Flags.qpsPerThread (f : Flags) : Nat := f.numProcesses * f.vmsPerProcess
def Flags.pollingRegionSize (f : Flags) : Nat := f.windowSize * f.size

/-- `rt_assert(polling_region_size < kAppBufSize / 10)` holds after the checks of `main`. -/
theorem Flags.Accepted.pollingRegionSize_lt {f : Flags} (h : f.Accepted) :
    f.pollingRegionSize < kAppBufSize / 10 := by
  obtain ⟨hsize, hwindow, -⟩ := h
  calc f.windowSize * f.size ≤ kAppMaxWindow * kHrdMaxInline := Nat.mul_le_mul hwindow hsize
    _ < kAppBufSize / 10 := by decide

/-! ## A worker -/

/-- A request on its way. The bytes of a WRITE are taken when it is posted. -/
structure Op where
  step : Nat
  slot : Nat
  remOffset : Nat
  signaled : Bool
  data : Nat → UInt8
  placed : Bool

/-- Where a worker stands in its loop. -/
inductive Pc where
  | top
  | slot
  | choose
  | poll (qpn : Nat)
  | post (qpn : Nat)
  | failed
  | overrun
deriving DecidableEq, Repr

/-- The variables of `worker_main_loop`, with `nb_tx` in `queue`. For every queue
pair, `sq` has the requests not completed and `cq` the completions not polled. -/
structure Worker where
  pc : Pc
  nbTxTot : Nat
  windowI : Nat
  recQpnArr : Nat → Nat
  queue : Nat → Queue
  connBuf : Mem
  sq : Nat → List Op
  cq : Nat → List Op

/-- A thread is a process and an index in it. -/
abbrev Thread : Type := Nat × Nat

variable (f : Flags)

/-- The polling region is zero and the rest of the buffer is not. -/
def Worker.start : Worker :=
  { pc := .top
    nbTxTot := 0
    windowI := 0
    recQpnArr := fun _ => 0
    queue := fun _ => Queue.empty
    connBuf := memset (memset (fun _ => 0) 0 0 f.pollingRegionSize) f.pollingRegionSize 1
      (kAppBufSize - f.pollingRegionSize)
    sq := fun _ => []
    cq := fun _ => [] }

variable {f} in
theorem start_connBuf_eq_one {x : Nat} (hlow : f.pollingRegionSize ≤ x) (hhigh : x < kAppBufSize) :
    (Worker.start f).connBuf x = 1 := by
  have hx : f.pollingRegionSize ≤ x ∧
      x < f.pollingRegionSize + (kAppBufSize - f.pollingRegionSize) := by omega
  exact if_pos hx

def isRemoteQpOnSameProcess (processId qpI : Nat) : Bool := qpI % f.numProcesses == processId

/-- What `choose_qp` can return. -/
def CanChoose (processId qpI : Nat) : Prop :=
  qpI < f.qpsPerThread ∧ isRemoteQpOnSameProcess f processId qpI = false

instance (processId qpI : Nat) : Decidable (CanChoose f processId qpI) :=
  inferInstanceAs (Decidable (_ ∧ _))

variable {f} in
theorem exists_canChoose (hN : 2 ≤ f.numProcesses) (hV : 0 < f.vmsPerProcess) (processId : Nat) :
    ∃ qpn, CanChoose f processId qpn := by
  have hqps : 2 ≤ f.qpsPerThread := Nat.le_trans hN (Nat.le_mul_of_pos_right _ hV)
  rcases Nat.eq_zero_or_pos processId with h0 | h0
  · refine ⟨1, by omega, beq_false_of_ne ?_⟩
    rw [Nat.mod_eq_of_lt hN, h0]
    exact Nat.one_ne_zero
  · refine ⟨0, by omega, beq_false_of_ne ?_⟩
    rw [Nat.zero_mod]
    exact Nat.ne_of_lt h0

/-- The offsets that leave the loop that draws `rem_offset`. -/
def GoodOffset (remOffset : Nat) : Prop :=
  remOffset % 64 = 0 ∧ f.pollingRegionSize < remOffset ∧ remOffset < kAppBufSize - f.size

/-- The thread a queue pair is connected to. -/
def peer (w : Thread) (qpI : Nat) : Thread := (qpI % f.numProcesses, w.2)

/-- The address of `poll_buf`. -/
def Worker.pollBuf (a : Worker) : Nat := a.windowI * f.size

/-- The worker is to poll queue pair `qpn` before its next request. -/
def Worker.MustPoll (a : Worker) (qpn : Nat) : Prop :=
  f.allsig = false ∧ (a.queue qpn).made % f.unsigBatch = f.unsigBatch - 1

instance (a : Worker) (qpn : Nat) : Decidable (a.MustPoll f qpn) :=
  inferInstanceAs (Decidable (_ ∧ _))

/-- One completion is taken from queue pair `qpn`. -/
def Worker.appPollCq (a : Worker) (qpn : Nat) (rest : List Op) (pc : Pc) : Worker :=
  { a with
    pc := pc
    cq := Function.update a.cq qpn rest
    queue := Function.update a.queue qpn
      { a.queue qpn with polled := (a.queue qpn).polled + 1 } }

/-- The request `worker_main_loop` makes for its current slot. -/
def Worker.op (a : Worker) (qpn remOffset : Nat) : Op where
  step := a.nbTxTot
  slot := a.windowI
  remOffset := remOffset
  signaled := f.allsig || (a.queue qpn).made % f.unsigBatch == 0
  data := fun i => a.connBuf (a.pollBuf f + i)
  placed := false

/-- `ibv_post_send`, and the counters after it. -/
def Worker.postSend (a : Worker) (qpn remOffset : Nat) : Worker :=
  { a with
    pc := .top
    queue := Function.update a.queue qpn
      { a.queue qpn with made := (a.queue qpn).made + 1, posted := (a.queue qpn).posted + 1 }
    sq := Function.update a.sq qpn (a.sq qpn ++ [a.op f qpn remOffset])
    nbTxTot := a.nbTxTot + 1
    windowI := if a.windowI + 1 = f.windowSize then 0 else a.windowI + 1 }

/-- One step of `worker_main_loop`. `app_poll_cq` and the wait for `poll_buf`
have no step while they block. Nothing is said of a worker that has written past
`rec_qpn_arr`, which only `window_size` 0 leads to. -/
inductive Act (processId : Nat) (a : Worker) : Worker → Prop where
  | noWindow : a.pc = .top → a.nbTxTot < f.windowSize → Act processId a { a with pc := .choose }
  | pollWindow {c : Op} {rest : List Op} : a.pc = .top → f.windowSize ≤ a.nbTxTot →
    f.allsig = true → a.cq (a.recQpnArr a.windowI) = c :: rest →
    Act processId a (a.appPollCq (a.recQpnArr a.windowI) rest .slot)
  | noPollWindow : a.pc = .top → f.windowSize ≤ a.nbTxTot → f.allsig = false →
    Act processId a { a with pc := .slot }
  | assertFails : a.pc = .slot → f.doRead = true → f.allsig = true →
    a.connBuf (a.pollBuf f) = 0 → Act processId a { a with pc := .failed }
  | takeSlot : a.pc = .slot → f.doRead = true → a.connBuf (a.pollBuf f) ≠ 0 →
    Act processId a
      { a with pc := .choose, connBuf := Function.update a.connBuf (a.pollBuf f) 0 }
  | noTakeSlot : a.pc = .slot → f.doRead = false → Act processId a { a with pc := .choose }
  | chooseQp {qpn : Nat} : a.pc = .choose → CanChoose f processId qpn →
    a.windowI < kAppMaxWindow →
    Act processId a
      { a with pc := .poll qpn, recQpnArr := Function.update a.recQpnArr a.windowI qpn }
  | overrun {qpn : Nat} : a.pc = .choose → CanChoose f processId qpn →
    kAppMaxWindow ≤ a.windowI → Act processId a { a with pc := .overrun }
  | pollQp {qpn : Nat} {c : Op} {rest : List Op} : a.pc = .poll qpn → a.MustPoll f qpn →
    a.cq qpn = c :: rest → Act processId a (a.appPollCq qpn rest (.post qpn))
  | noPollQp {qpn : Nat} : a.pc = .poll qpn → ¬a.MustPoll f qpn →
    Act processId a { a with pc := .post qpn }
  | postSend {qpn remOffset : Nat} : a.pc = .post qpn → GoodOffset f remOffset →
    Act processId a (a.postSend f qpn remOffset)

/-! ## The network -/

/-- Request number `k` of those on queue pair `qpn` is marked as placed. -/
def Worker.mark (a : Worker) (qpn k : Nat) (op : Op) : Worker :=
  { a with sq := Function.update a.sq qpn ((a.sq qpn).set k { op with placed := true }) }

/-- The data of a READ arrive from the buffer `src` of the peer. -/
def Worker.readFrom (a : Worker) (op : Op) (src : Mem) : Worker :=
  { a with connBuf :=
      memcpy a.connBuf (op.slot * f.size) (fun i => src (op.remOffset + i)) f.size }

/-- The data of a WRITE of a peer arrive. -/
def Worker.written (a : Worker) (op : Op) : Worker :=
  { a with connBuf := memcpy a.connBuf op.remOffset op.data f.size }

/-- The oldest request of queue pair `qpn` completes. -/
def Worker.complete (a : Worker) (qpn : Nat) (op : Op) (rest : List Op) : Worker :=
  { a with
    sq := Function.update a.sq qpn rest
    cq := Function.update a.cq qpn (a.cq qpn ++ if op.signaled then [op] else []) }

abbrev Workers : Type := Thread → Worker

/-- The data of a request are placed: here for a READ, at the peer for a WRITE. -/
def place (s : Workers) (w : Thread) (qpn k : Nat) (op : Op) : Workers :=
  if f.doRead then
    Function.update s w
      (((s w).mark qpn k op).readFrom f op (s (peer f w qpn)).connBuf)
  else
    let marked := Function.update s w ((s w).mark qpn k op)
    Function.update marked (peer f w qpn) ((marked (peer f w qpn)).written f op)

inductive Event where
  | act (w : Thread)
  | place (w : Thread) (qpn k : Nat)
  | complete (w : Thread) (qpn : Nat)

def Step (s : Workers) : Event → Workers → Prop
  | .act w, t => w.1 < f.numProcesses ∧ w.2 < f.numThreads ∧
    ∃ b, Act f w.1 (s w) b ∧ t = Function.update s w b
  | .place w qpn k, t => ∃ op, ((s w).sq qpn)[k]? = some op ∧ op.placed = false ∧
    t = place f s w qpn k op
  | .complete w qpn, t => ∃ op rest, (s w).sq qpn = op :: rest ∧ op.placed = true ∧
    t = Function.update s w ((s w).complete qpn op rest)

/-- All runs of the swarm. -/
def swarm : System Workers Event where
  init s := s = fun _ => Worker.start f
  step := Step f

/-! ## Invariants of every worker -/

variable {f} {s t : Workers}

/-- What one worker keeps in each step that changes it, its peers being as it is,
all workers have in every reachable state. -/
theorem reachable_worker {I : Worker → Prop} (hstart : I (Worker.start f))
    (hact : ∀ {processId a b}, I a → Act f processId a b → I b)
    (hmark : ∀ {a qpn k op}, f.doRead = false → I a → (a.sq qpn)[k]? = some op →
      I (a.mark qpn k op))
    (hread : ∀ {a b qpn k op}, f.doRead = true → I a → I b → (a.sq qpn)[k]? = some op →
      I ((a.mark qpn k op).readFrom f op b.connBuf))
    (hwritten : ∀ {a op}, f.doRead = false → I a → I (a.written f op))
    (hcomplete : ∀ {a qpn op rest}, I a → a.sq qpn = op :: rest → op.placed = true →
      I (a.complete qpn op rest))
    (hs : Reachable (swarm f) s) (w : Thread) : I (s w) := by
  have hupdate : ∀ {s : Workers} {b} (v), (∀ w, I (s w)) → I b →
      ∀ w, I (Function.update s v b w) := fun {s _} v hall hb =>
    (Function.forall_update_iff s fun _ => I).2 ⟨hb, fun w _ => hall w⟩
  refine hs.invariant (P := fun s => ∀ w, I (s w)) ?_ ?_ w
  · rintro s rfl w
    exact hstart
  · intro s e t _ hall hstep
    cases e with
    | act v =>
      obtain ⟨-, -, b, hb, rfl⟩ := hstep
      exact hupdate v hall (hact (hall v) hb)
    | place v qpn k =>
      obtain ⟨op, hop, -, rfl⟩ := hstep
      unfold place
      split
      · next hr => exact hupdate v hall (hread hr (hall v) (hall _) hop)
      · next hr =>
        have hmarked := hupdate v hall (hmark (Bool.eq_false_iff.2 hr) (hall v) hop)
        exact hupdate _ hmarked (hwritten (Bool.eq_false_iff.2 hr) (hmarked _))
    | complete v qpn =>
      obtain ⟨op, rest, hsq, hplaced, rfl⟩ := hstep
      exact hupdate v hall (hcomplete (hall v) hsq hplaced)

end RdmaBench.Swarm.Model
