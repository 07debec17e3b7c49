import RdmaBench.Lib.Runs
import RdmaBench.Lib.Signaling

/-! # The READ window of `sender-scalability`

A server thread READs from randomly chosen clients. It is meant to keep at most
`kAppWindowSize` READs outstanding, with a slot of `conn_buf` for each: before
it uses a slot again it waits until the first byte of the slot is not zero, and
clears it. The slot comes from `nb_tx_tot`, which the loop reads and never
increments.

Clients fill their memory with ones, so a READ places ones. READs of one queue
pair are placed in order, those of different queue pairs in any order. A poll
that finds a dead client ends the thread and is left out. -/

namespace RdmaBench.Scalability.Server
open RdmaBench.Lib.Runs RdmaBench.Lib.Signaling

/-- The sweep parameters, and the flags of a run with `do_read`. -/
structure Sweep where
  windowSize : Nat
  numClients : Nat
  numClientMachines : Nat
  unsigBatch : Nat
  size : Nat
  useXrc : Bool

/-- The constants of the source. -/
def Sweep.source (size : Nat) (useXrc : Bool) : Sweep := ⟨32, 200, 1, 4, size, useXrc⟩

/-- A READ on queue pair `qp`, number `index` of those made there. -/
structure Read where
  qp : Nat
  index : Nat
  window : Nat
  placed : Bool
deriving DecidableEq, Repr

/-- The variables of `run_server`. The counters `nb_tx` are in `queue`. `reads`
has the READs posted whose completion was not observed in their slot, oldest
first. The program does not keep it, nor the number of all READs. -/
structure ServerThread where
  nbTxTot : Nat
  queue : Nat → Queue
  connBuf : Nat → UInt8
  reads : List Read
  nbReads : Nat

def ServerThread.start : ServerThread := ⟨0, fun _ => Queue.empty, fun _ => 0, [], 0⟩

variable (w : Sweep)

/-- The slot to use next. -/
def ServerThread.windowI (s : ServerThread) : Nat := s.nbTxTot % w.windowSize

/-- The thread waits for its next slot. -/
def ServerThread.Waits (s : ServerThread) : Prop := w.windowSize ≤ s.nbTxTot

instance (s : ServerThread) : Decidable (s.Waits w) := inferInstanceAs (Decidable (_ ≤ _))

/-- The byte the thread waits for. -/
def ServerThread.slotByte (s : ServerThread) : UInt8 := s.connBuf (s.windowI w * w.size)

/-- The wait is over: the READ into the slot is done, and the slot is cleared. -/
def ServerThread.observe (s : ServerThread) : ServerThread :=
  if s.Waits w then
    { s with
      connBuf := Function.update s.connBuf (s.windowI w * w.size) 0
      reads := s.reads.eraseP (·.window = s.windowI w) }
  else s

/-- The queue pair to client `cn`. -/
def qpCn (cn : Nat) : Nat :=
  if w.useXrc then cn / (w.numClients / w.numClientMachines) else cn

/-- Post a READ from client `cn`. -/
def ServerThread.postRead (s : ServerThread) (cn : Nat) : ServerThread :=
  { s with
    queue := Function.update s.queue (qpCn w cn)
      ((s.queue (qpCn w cn)).make .beforeFirst w.unsigBatch).post
    reads := s.reads ++ [⟨qpCn w cn, (s.queue (qpCn w cn)).made, s.windowI w, false⟩]
    nbReads := s.nbReads + 1 }

/-- The data of READ number `k` are placed. -/
def ServerThread.place (s : ServerThread) (k : Nat) (r : Read) : ServerThread :=
  { s with
    connBuf := fun a =>
      if r.window * w.size ≤ a ∧ a < r.window * w.size + w.size then 1 else s.connBuf a
    reads := s.reads.set k { r with placed := true } }

/-- The completion of READ number `i` on a queue pair has come. -/
def ServerThread.Completed (s : ServerThread) (qp i : Nat) : Prop :=
  ∀ r ∈ s.reads, r.qp = qp → r.index ≤ i → r.placed = true

inductive Event where
  | post (cn : Nat)
  | place (k : Nat)

/-- One pass of the loop, with any choice of the client, or one READ done. -/
def Step (s : ServerThread) : Event → ServerThread → Prop
  | .post cn, t =>
    cn < w.numClients ∧ (s.Waits w → s.slotByte w ≠ 0) ∧
    (Rule.Polls w.unsigBatch (s.queue (qpCn w cn)).made .beforeFirst →
      (s.queue (qpCn w cn)).CanPoll w.unsigBatch ∧
      (s.observe w).Completed (qpCn w cn) ((s.queue (qpCn w cn)).next w.unsigBatch)) ∧
    t = (s.observe w).postRead w cn
  | .place k, t => ∃ r, s.reads[k]? = some r ∧ r.placed = false ∧
    (∀ x ∈ s.reads.take k, x.qp = r.qp → x.placed = true) ∧ t = s.place w k r

/-- All runs of a server thread. -/
def server : System ServerThread Event where
  init s := s = ServerThread.start
  step := Step w

/-- At most a window of READs is outstanding, each with a slot of its own. -/
structure WindowOk (s : ServerThread) : Prop where
  outstanding : s.reads.length ≤ w.windowSize
  slots : (s.reads.map fun r => r.window * w.size).Nodup

/-! ## All READs use slot 0 -/

/-- The window never moves, and nothing is observed. -/
structure Still (s : ServerThread) : Prop where
  nbTxTot : s.nbTxTot = 0
  reads : s.reads.length = s.nbReads
  slot : ∀ r ∈ s.reads, r.window = 0

variable {w} {s t : ServerThread}

theorem Still.observe (h : Still s) (hW : 0 < w.windowSize) : s.observe w = s := by
  have hnot : ¬s.Waits w := by
    rw [ServerThread.Waits, h.nbTxTot]
    exact Nat.not_le.2 hW
  rw [ServerThread.observe, if_neg hnot]

theorem Still.postRead (h : Still s) (cn : Nat) : Still (s.postRead w cn) := by
  refine ⟨h.nbTxTot, ?_, fun r hr => ?_⟩
  · simp [ServerThread.postRead, h.reads]
  · simp only [ServerThread.postRead, List.mem_append, List.mem_singleton] at hr
    obtain hr | rfl := hr
    · exact h.slot r hr
    · rw [ServerThread.windowI, h.nbTxTot, Nat.zero_mod]

theorem Still.place (h : Still s) {k : Nat} {r : Read} (hr : s.reads[k]? = some r) :
    Still (s.place w k r) := by
  refine ⟨h.nbTxTot, ?_, fun x hx => ?_⟩
  · simp [ServerThread.place, h.reads]
  · obtain hx | rfl := List.mem_or_eq_of_mem_set hx
    · exact h.slot x hx
    · exact h.slot r (List.mem_of_getElem? hr)

theorem server_still (hW : 0 < w.windowSize) (h : Reachable (server w) s) : Still s := by
  refine h.invariant (P := Still) (fun s hs => ?_) fun s e t _ ih hstep => ?_
  · rw [show s = _ from hs]
    exact ⟨rfl, rfl, fun _ hr => absurd hr List.not_mem_nil⟩
  · cases e with
    | post cn =>
      obtain ⟨-, -, -, rfl⟩ := hstep
      rw [ih.observe hW]
      exact ih.postRead cn
    | place k =>
      obtain ⟨r, hr, -, -, rfl⟩ := hstep
      exact ih.place hr

/-- Two READs into slot 0 share it. -/
theorem Still.slots_iff (h : Still s) :
    (s.reads.map fun r => r.window * w.size).Nodup ↔ s.nbReads ≤ 1 := by
  have hall : (s.reads.map fun r => r.window * w.size) = List.replicate s.nbReads 0 := by
    rw [← h.reads, List.eq_replicate_iff, List.length_map]
    refine ⟨rfl, fun b hb => ?_⟩
    obtain ⟨r, hr, rfl⟩ := List.mem_map.1 hb
    rw [h.slot r hr, Nat.zero_mul]
  rw [hall, List.nodup_replicate]

/-- In every state of every run the number of outstanding READs is the number of
all READs, and the window is kept exactly as long as there is at most one. -/
theorem window_kept_iff (hW : 1 ≤ w.windowSize) (h : Reachable (server w) s) :
    s.reads.length = s.nbReads ∧ (WindowOk w s ↔ s.nbReads ≤ 1) := by
  have hs := server_still hW h
  refine ⟨hs.reads, fun hok => hs.slots_iff.1 hok.slots, fun hle => ⟨?_, hs.slots_iff.2 hle⟩⟩
  rw [hs.reads]
  exact hle.trans hW

theorem firstRead_reachable : ∃ s, Reachable (server (Sweep.source 16 false)) s ∧
    s.nbReads = 1 := by
  refine ⟨_, .step (e := .post 0) (.init rfl) ⟨by decide, fun h => ?_, fun h => ?_, rfl⟩, rfl⟩
  · exact absurd h (by decide)
  · exact absurd h.2 (by decide)

theorem window_kept_firstRead : ∃ s : ServerThread, s.nbReads = 1 ∧
    WindowOk (Sweep.source 16 false) s := by
  obtain ⟨s, hs, hone⟩ := firstRead_reachable
  exact ⟨s, hone, (window_kept_iff (by decide) hs).2.2 hone.le⟩

/-! ## READs past the window -/

/-- With a queue pair for each client, one READ from each of the first `n`
clients can be in flight. -/
theorem reach_in_flight (hW : 0 < w.windowSize) (hxrc : w.useXrc = false) {n : Nat}
    (hn : n ≤ w.numClients) :
    ∃ s, Reachable (server w) s ∧ s.nbReads = n ∧ (∀ r ∈ s.reads, r.placed = false) ∧
      ∀ qp, n ≤ qp → s.queue qp = Queue.empty := by
  induction n with
  | zero =>
    exact ⟨_, .init rfl, rfl, fun _ hr => absurd hr List.not_mem_nil, fun _ _ => rfl⟩
  | succ n ih =>
    obtain ⟨s, hs, hreads, hflight, hempty⟩ := ih (by omega)
    have hstill := server_still hW hs
    have hqp : qpCn w n = n := by rw [qpCn, hxrc]; rfl
    have hqueue := hempty n (Nat.le_refl n)
    have hstep : Step w s (.post n) (s.postRead w n) := by
      refine ⟨hn, fun hwait => ?_, fun hpoll => ?_, by rw [hstill.observe hW]⟩
      · rw [ServerThread.Waits, hstill.nbTxTot] at hwait
        exact absurd hwait (Nat.not_le.2 hW)
      · rw [hqp, hqueue] at hpoll
        exact absurd hpoll.2 (Nat.lt_irrefl 0)
    refine ⟨_, hs.step (e := .post n) hstep, ?_, fun r hr => ?_, fun qp hle => ?_⟩
    · exact congrArg (· + 1) hreads
    · simp only [ServerThread.postRead, List.mem_append, List.mem_singleton] at hr
      obtain hr | rfl := hr
      · exact hflight r hr
      · rfl
    · have hne : qp ≠ qpCn w n := by omega
      exact (Function.update_of_ne hne ..).trans (hempty qp (by omega))

/-- With the constants of the source, 33 READs are in flight, all into slot 0. -/
theorem window_overrun : ∃ s, Reachable (server (Sweep.source 16 false)) s ∧
    s.reads.length = 33 ∧ (∀ r ∈ s.reads, r.placed = false ∧ r.window = 0) ∧
    ¬WindowOk (Sweep.source 16 false) s := by
  obtain ⟨s, hs, hreads, hflight, -⟩ :=
    reach_in_flight (w := Sweep.source 16 false) (n := 33) (by decide) rfl (by decide)
  have hstill := server_still (by decide) hs
  refine ⟨s, hs, hstill.reads.trans hreads, fun r hr => ⟨hflight r hr, hstill.slot r hr⟩,
    fun hok => ?_⟩
  have hle := hok.outstanding
  rw [hstill.reads, hreads] at hle
  exact absurd hle (by decide)

end RdmaBench.Scalability.Server
