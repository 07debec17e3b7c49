import RdmaBench.Lib.Window
import RdmaBench.Sequencer.Recvs

/-! # The sequencer does not see its queues

Every run with RECVs is a run of `Sequencer.Model`, as no datagram is lost. A
batch is served when its thread adds to the counter. Requests before that are
pending there, wherever they are, and responses after it are on the wire,
posted or not. -/

namespace RdmaBench.Sequencer.Refinement
open RdmaBench.Lib.Runs RdmaBench.Lib.Buffers RdmaBench.Lib.Window
open RdmaBench.Postlist.Worker (hrdModAdd)
open RdmaBench.Sequencer.Model (Config Request Response Client repliesTo)
open RdmaBench.Sequencer.Queues RdmaBench.Sequencer.Recvs

/-- The requests of a thread that have no counter value. -/
def waiting (v : Thread) : List Request :=
  match v.phase with
  | .polled batch => v.cq ++ batch
  | _ => v.cq

/-- The responses to client `cn` that have a counter value and are not posted. -/
def unposted (cn : Nat) (v : Thread) : List Response :=
  match v.phase with
  | .counted batch base => repliesTo cn v.qpI base batch
  | .reposted batch base => repliesTo cn v.qpI base batch
  | _ => []

/-- The queue pair for the responses to the next batch. -/
def nextQp (cfg : Config) (v : Thread) : Nat :=
  match v.phase with
  | .counted _ _ => hrdModAdd v.qpI cfg.numUdQps
  | .reposted _ _ => hrdModAdd v.qpI cfg.numUdQps
  | _ => v.qpI

/-- Only server threads poll, and their batches fit `postlist`. -/
structure PhaseOk (cfg : Config) (thread : Nat) (v : Thread) : Prop where
  running : v.phase ≠ .idle → thread < cfg.numServerThreads
  size : ∀ batch, v.phase = .polled batch → 0 < batch.length ∧ batch.length ≤ cfg.serverPostlist

/-- The state `c` is what `Sequencer.Model` sees of `s`. -/
structure Refines (cfg : Config) (s : State) (c : Model.State) : Prop where
  counter : c.counter = s.counter
  client : ∀ cn, c.client cn = (s.client cn).vars
  qpI : ∀ t, c.qpI t = nextQp cfg (s.server t)
  phase : ∀ t, PhaseOk cfg t (s.server t)
  pending : (c.pending : Multiset Request) =
    s.net + ∑ t ∈ Finset.range cfg.numServerThreads, (waiting (s.server t) : Multiset Request)
  wire : ∀ cn, (c.wire cn : Multiset Response) =
    s.wire cn + ∑ t ∈ Finset.range cfg.numServerThreads,
      (unposted cn (s.server t) : Multiset Response)

variable {cfg : Config} {maxNumClients qDepth : Nat} {s t : State} {c : Model.State}

theorem refines_start (counter : Nat) :
    Refines cfg (State.start cfg qDepth counter) (Model.State.start cfg counter) := by
  refine ⟨rfl, fun _ => rfl, fun _ => rfl,
    fun _ => ⟨fun h => absurd rfl h, fun _ => Phase.noConfusion⟩, ?_, fun cn => ?_⟩
  · simp [State.start, Model.State.start, waiting]
  · simp [State.start, Model.State.start, unposted]

/-! ## Steps that are not seen -/

theorem waiting_receive {v : Thread} (hfree : 0 < v.recvs.free) (r : Request) :
    (waiting (v.receive r) : Multiset Request) = r ::ₘ waiting v := by
  rw [Thread.receive, if_pos hfree, Multiset.cons_coe, Multiset.coe_eq_coe]
  cases hphase : v.phase with
  | polled batch =>
    simp only [waiting, hphase, List.append_assoc]
    exact List.perm_middle
  | idle | counted | reposted =>
    simp only [waiting, hphase]
    exact List.perm_append_singleton r v.cq

/-- One server thread has moved. -/
theorem Refines.phases_update (h : Refines cfg s c) {thread : Nat} {v : Thread}
    (hv : PhaseOk cfg thread v) : ∀ w, PhaseOk cfg w (Function.update s.server thread v w) :=
  (Function.forall_update_iff s.server (PhaseOk cfg)).2 ⟨hv, fun w _ => h.phase w⟩

/-- A change of one thread that moves requests inside it or from the network. -/
theorem Refines.thread_step (h : Refines cfg s c) {thread : Nat} {v : Thread}
    {net : List Request} (ht : thread < cfg.numServerThreads) (hv : PhaseOk cfg thread v)
    (hqp : nextQp cfg v = nextQp cfg (s.server thread))
    (hwait : (net : Multiset Request) + waiting v = s.net + waiting (s.server thread))
    (hresp : ∀ cn, unposted cn v = unposted cn (s.server thread)) :
    Refines cfg { s with net, server := Function.update s.server thread v } c := by
  have hmem := Finset.mem_range.2 ht
  refine ⟨h.counter, h.client, fun w => ?_, h.phases_update hv, ?_, fun cn => ?_⟩
  · by_cases hw : w = thread
    · subst hw
      simpa [hqp] using h.qpI w
    · simpa [hw] using h.qpI w
  · have hsum := sum_update_add hmem (fun v => (waiting v : Multiset Request)) s.server v
    refine h.pending.trans
      (add_right_cancel (b := (waiting (s.server thread) : Multiset Request)) ?_)
    show _ = (net : Multiset Request) + _ + _
    rw [add_assoc, add_assoc, hsum, add_left_comm, ← hwait, add_left_comm]
  · have hsum := sum_update_add hmem (fun v => (unposted cn v : Multiset Response)) s.server v
    rw [hresp] at hsum
    exact (h.wire cn).trans (congrArg _ (add_right_cancel hsum).symm)

/-- A change of a client's RECVs. -/
theorem Refines.client_step (h : Refines cfg s c) {cn : Nat} {x : ClientThread}
    (hx : x.vars = (s.client cn).vars) :
    Refines cfg { s with client := Function.update s.client cn x } c := by
  refine ⟨h.counter, fun w => ?_, h.qpI, h.phase, h.pending, h.wire⟩
  by_cases hw : w = cn
  · subst hw
    simpa [hx] using h.client w
  · simpa [hw] using h.client w

/-- Posted responses are on the wire as before. -/
theorem Refines.answer (h : Refines cfg s c) {thread base : Nat} {batch : List Request}
    (hphase : (s.server thread).phase = .reposted batch base) :
    Refines cfg (s.answer cfg thread batch base) c := by
  have ht := (h.phase thread).running (by rw [hphase]; exact Phase.noConfusion)
  have hmem := Finset.mem_range.2 ht
  refine ⟨h.counter, h.client, fun w => ?_,
    h.phases_update ⟨fun hne => absurd rfl hne, fun _ => Phase.noConfusion⟩, ?_, fun cn => ?_⟩
  · by_cases hw : w = thread
    · subst hw
      have hqp := h.qpI w
      simp only [nextQp, hphase] at hqp
      simpa [State.answer, nextQp] using hqp
    · simpa [State.answer, hw] using h.qpI w
  · have hsum := sum_update_add hmem (fun v => (waiting v : Multiset Request)) s.server
      { s.server thread with
        qpI := hrdModAdd (s.server thread).qpI cfg.numUdQps
        phase := .idle }
    simp only [waiting, hphase] at hsum
    exact h.pending.trans (congrArg _ (add_right_cancel hsum).symm)
  · have hsum := sum_update_add hmem (fun v => (unposted cn v : Multiset Response)) s.server
      { s.server thread with
        qpI := hrdModAdd (s.server thread).qpI cfg.numUdQps
        phase := .idle }
    simp only [unposted, hphase, Multiset.coe_nil, add_zero] at hsum
    refine (h.wire cn).trans ?_
    simp only [State.answer, ← Multiset.coe_add, unposted]
    rw [← hsum]
    abel

/-! ## Steps of clients and threads -/

theorem Refines.send (h : Refines cfg s c) (cn : Nat) : Refines cfg (s.send cn) (c.send cn) := by
  refine ⟨h.counter, fun w => ?_, h.qpI, h.phase, ?_, h.wire⟩
  · by_cases hw : w = cn
    · subst hw
      simp [State.send, Model.State.send, h.client]
    · simp [State.send, Model.State.send, hw, h.client]
  · simp only [State.send, Model.State.send, ← Multiset.coe_add, h.pending, h.client]
    abel

theorem Refines.receive (h : Refines cfg s c) (cn n : Nat) :
    Refines cfg { s with client := Function.update s.client cn ((s.client cn).poll n) }
      { c with client := Function.update c.client cn ((c.client cn).poll n) } := by
  refine ⟨h.counter, fun w => ?_, h.qpI, h.phase, h.pending, h.wire⟩
  by_cases hw : w = cn
  · subst hw
    simp [ClientThread.poll, h.client]
  · simp [hw, h.client]

/-- A response arrives from some place of the wire. -/
theorem Refines.response (h : Refines cfg s c) {cn k : Nat} {r : Response}
    (hr : (s.wire cn)[k]? = some r) (hfree : 0 < (s.client cn).recvs.free) :
    ∃ j, (c.wire cn)[j]? = some r ∧ Refines cfg { s with
        wire := Function.update s.wire cn ((s.wire cn).eraseIdx k)
        client := Function.update s.client cn ((s.client cn).receive cfg r) }
      { c with
        wire := Function.update c.wire cn ((c.wire cn).eraseIdx j)
        client := Function.update c.client cn ((c.client cn).receive cfg r) } := by
  have hmem : r ∈ c.wire cn := by
    rw [← Multiset.mem_coe, h.wire cn]
    exact Multiset.mem_add.2 (.inl (List.mem_of_getElem? hr))
  obtain ⟨j, hj⟩ := List.mem_iff_getElem?.1 hmem
  refine ⟨j, hj, h.counter, fun w => ?_, h.qpI, h.phase, h.pending, fun w => ?_⟩
  · by_cases hw : w = cn
    · subst hw
      simp [ClientThread.receive, hfree, h.client]
    · simp [hw, h.client]
  · by_cases hw : w = cn
    · subst hw
      have hwire := h.wire w
      rw [← Multiset.coe_eq_coe.2 (arrive_perm hj), ← Multiset.coe_eq_coe.2 (arrive_perm hr),
        ← Multiset.cons_coe, ← Multiset.cons_coe, Multiset.cons_add] at hwire
      simpa using (Multiset.cons_inj_right r).1 hwire
    · simpa [hw] using h.wire w

/-- A batch is served when its thread adds to the counter. -/
theorem Refines.fetchAndAdd (h : Refines cfg s c)
    (hinv : Inv cfg maxNumClients qDepth s) {thread : Nat} {batch : List Request}
    (hphase : (s.server thread).phase = .polled batch) :
    ∃ rest, Model.Step cfg c (.serve thread batch rest) (c.serve cfg thread batch rest) ∧
      Refines cfg (s.fetchAndAdd thread batch) (c.serve cfg thread batch rest) := by
  have ht := (h.phase thread).running (by rw [hphase]; exact Phase.noConfusion)
  have hmem := Finset.mem_range.2 ht
  have hmine : ∀ r ∈ batch, r.client % cfg.numServerThreads = thread := fun r hr =>
    ((hinv.thread thread).mine r (List.mem_append_right _ (by rw [hphase]; exact hr))).2
  have hqp : c.qpI thread = (s.server thread).qpI := by
    rw [h.qpI, nextQp, hphase]
  -- What is left pending when the batch is taken out.
  have hsum := sum_update_add hmem (fun v => (waiting v : Multiset Request)) s.server
    { s.server thread with phase := .counted batch s.counter }
  rw [show waiting (s.server thread) = (s.server thread).cq ++ batch by rw [waiting, hphase],
    show waiting { s.server thread with phase := .counted batch s.counter } =
      (s.server thread).cq from rfl, ← Multiset.coe_add, add_comm _ (batch : Multiset Request),
    ← add_assoc] at hsum
  have hsum := add_right_cancel hsum
  set left : Multiset Request := ∑ w ∈ Finset.range cfg.numServerThreads,
    (waiting (Function.update s.server thread
      { s.server thread with phase := .counted batch s.counter } w) : Multiset Request)
  have hsplit : (c.pending : Multiset Request) =
      (batch ++ (s.net + left : Multiset Request).toList : List Request) := by
    rw [h.pending, ← hsum, ← Multiset.coe_add, Multiset.coe_toList]
    abel
  refine ⟨_, ⟨(h.phase thread).size batch hphase, hmine, Multiset.coe_eq_coe.1 hsplit, rfl⟩,
    ?_, h.client, fun w => ?_, h.phases_update ⟨fun _ => ht, fun _ => Phase.noConfusion⟩,
    Multiset.coe_toList _, fun cn => ?_⟩
  · simp only [Model.State.serve, State.fetchAndAdd, h.counter]
  · by_cases hw : w = thread
    · subst hw
      simp [Model.State.serve, State.fetchAndAdd, nextQp, hqp]
    · simpa [Model.State.serve, State.fetchAndAdd, hw] using h.qpI w
  · have hsum := sum_update_add hmem (fun v => (unposted cn v : Multiset Response)) s.server
      { s.server thread with phase := .counted batch s.counter }
    rw [show unposted cn (s.server thread) = [] by rw [unposted, hphase], Multiset.coe_nil,
      add_zero] at hsum
    show ((c.wire cn ++ repliesTo cn (c.qpI thread) c.counter batch : List Response) :
      Multiset Response) = s.wire cn + ∑ w ∈ Finset.range cfg.numServerThreads,
        (unposted cn (Function.update s.server thread _ w) : Multiset Response)
    rw [← Multiset.coe_add, h.wire, hsum, add_assoc, hqp, h.counter]
    rfl

/-! ## All runs -/

/-- A step is one of the sequencer or not seen there. -/
theorem step_refines {e : Event} (h : Refines cfg s c) (hinv : Inv cfg maxNumClients qDepth s)
    (hT : 0 < cfg.numServerThreads)
    (hQ : maxClientsPerServerThread cfg maxNumClients * cfg.postlist < qDepth)
    (hstep : Step cfg maxNumClients s e t) :
    ∃ c', (c' = c ∨ ∃ e', Model.Step cfg c e' c') ∧ Refines cfg t c' := by
  cases e with
  | postRecv cn =>
    obtain ⟨-, -, rfl⟩ := hstep
    exact ⟨c, .inl rfl, h.client_step rfl⟩
  | send cn =>
    obtain ⟨-, hpos, -, rfl⟩ := hstep
    rw [← h.client] at hpos
    exact ⟨_, .inr ⟨.send cn, hpos, rfl⟩, h.send cn⟩
  | request k =>
    obtain ⟨r, hr, rfl⟩ := hstep
    have ht : r.client % cfg.numServerThreads < cfg.numServerThreads := Nat.mod_lt _ hT
    have hfree := hinv.thread_free hT hQ (r.client % cfg.numServerThreads)
    have hphase := h.phase (r.client % cfg.numServerThreads)
    refine ⟨c, .inl rfl, h.thread_step ht ⟨hphase.running, hphase.size⟩ rfl ?_ fun _ => rfl⟩
    rw [waiting_receive hfree, ← Multiset.coe_eq_coe.2 (arrive_perm hr), ← Multiset.cons_coe,
      Multiset.add_cons, Multiset.cons_add]
  | poll thread n =>
    obtain ⟨ht, hidle, ⟨hpos, hle⟩, hn, rfl⟩ := hstep
    have hlen := List.length_take_of_le hn
    refine ⟨c, .inl rfl, h.thread_step ht ⟨fun _ => ht, fun batch hb => ?_⟩ ?_ ?_ fun cn => ?_⟩
    · obtain rfl := Phase.polled.inj hb
      rw [hlen]
      exact ⟨hpos, hle⟩
    · simp only [nextQp, hidle, Thread.poll]
    · have hsplit := congrArg (fun l : List Request => (l : Multiset Request))
        (List.take_append_drop n (s.server thread).cq)
      simp only [← Multiset.coe_add] at hsplit
      simp only [waiting, hidle, Thread.poll, ← Multiset.coe_add]
      rw [add_comm _ ((s.server thread).cq.take n : Multiset Request), hsplit]
    · simp only [unposted, hidle, Thread.poll]
  | fetchAndAdd thread =>
    obtain ⟨batch, hphase, rfl⟩ := hstep
    obtain ⟨rest, hserve, href⟩ := h.fetchAndAdd hinv hphase
    exact ⟨_, .inr ⟨.serve thread batch rest, hserve⟩, href⟩
  | repost thread =>
    obtain ⟨batch, base, hphase, rfl⟩ := hstep
    have ht := (h.phase thread).running (by rw [hphase]; exact Phase.noConfusion)
    refine ⟨c, .inl rfl,
      h.thread_step ht ⟨fun _ => ht, fun _ => Phase.noConfusion⟩ ?_ ?_ fun cn => ?_⟩
    · simp only [nextQp, hphase, Thread.repost]
    · simp only [waiting, hphase, Thread.repost]
    · simp only [unposted, hphase, Thread.repost]
  | answer thread =>
    obtain ⟨batch, base, hphase, rfl⟩ := hstep
    exact ⟨c, .inl rfl, h.answer hphase⟩
  | response cn k =>
    obtain ⟨r, hr, rfl⟩ := hstep
    obtain ⟨-, hfree⟩ := hinv.response_free (List.mem_of_getElem? hr)
    obtain ⟨j, hj, href⟩ := h.response hr hfree
    exact ⟨_, .inr ⟨.arrive cn j, r, hj, rfl⟩, href⟩
  | receive cn n =>
    obtain ⟨-, hzero, hbound, hn, rfl⟩ := hstep
    rw [← h.client] at hzero hn
    exact ⟨_, .inr ⟨.poll cn n, hzero, hbound, hn, rfl⟩, h.receive cn n⟩

/-- What a run with RECVs reaches, the sequencer without them reaches. -/
theorem reachable_refines {counter : Nat} (hT : 0 < cfg.numServerThreads)
    (hQ : maxClientsPerServerThread cfg maxNumClients * cfg.postlist < qDepth)
    (h : Reachable (queues cfg maxNumClients qDepth counter) s) :
    ∃ c, Reachable (Model.sequencer cfg counter) c ∧ Refines cfg s c := by
  induction h with
  | init h0 =>
    rw [show _ = _ from h0]
    exact ⟨_, .init rfl, refines_start counter⟩
  | @step s t e hr hstep ih =>
    obtain ⟨c, hc, href⟩ := ih
    obtain ⟨c', hseen, href'⟩ := step_refines href (queues_inv hT hQ hr) hT hQ hstep
    obtain rfl | ⟨e', he'⟩ := hseen
    · exact ⟨_, hc, href'⟩
    · exact ⟨c', hc.step (e := e') ⟨trivial, he'⟩, href'⟩

end RdmaBench.Sequencer.Refinement
