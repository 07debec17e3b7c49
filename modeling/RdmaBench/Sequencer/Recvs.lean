import RdmaBench.Sequencer.Queues

/-! # No datagram is lost

Each client has `postlist` requests, split over what it is to send, what is in
flight or with its server thread, and the responses. The clients of a server
thread have fewer than `HRD_Q_DEPTH` together, and the RECVs that the thread
has not posted again are for requests among these. -/

namespace RdmaBench.Sequencer.Recvs
open RdmaBench.Lib.Runs RdmaBench.Lib.Buffers
open RdmaBench.Sequencer.Model (Config Request Response Client repliesTo)
open RdmaBench.Sequencer.Queues

/-! ## Requests of a client -/

/-- The number of requests of client `cn` in a list. -/
def requestsOf (cn : Nat) (l : List Request) : Nat := (l.filter (·.client = cn)).length

@[simp] theorem requestsOf_nil (cn : Nat) : requestsOf cn [] = 0 := rfl

theorem requestsOf_cons (cn : Nat) (r : Request) (l : List Request) :
    requestsOf cn (r :: l) = (if r.client = cn then 1 else 0) + requestsOf cn l := by
  by_cases h : r.client = cn
  · simp [requestsOf, h, Nat.add_comm]
  · simp [requestsOf, h]

@[simp] theorem requestsOf_append (cn : Nat) (l l' : List Request) :
    requestsOf cn (l ++ l') = requestsOf cn l + requestsOf cn l' := by
  rw [requestsOf, List.filter_append, List.length_append]
  rfl

theorem requestsOf_perm {l l' : List Request} (h : l.Perm l') (cn : Nat) :
    requestsOf cn l = requestsOf cn l' :=
  (h.filter _).length_eq

theorem requestsOf_replicate_self (cn n a : Nat) :
    requestsOf cn (List.replicate n ⟨cn, a⟩) = n := by
  simp [requestsOf]

theorem requestsOf_replicate_other {c cn : Nat} (h : c ≠ cn) (n a : Nat) :
    requestsOf c (List.replicate n ⟨cn, a⟩) = 0 := by
  simp [requestsOf, Ne.symm h]

theorem requestsOf_eq_zero {cn : Nat} {l : List Request} (h : ∀ r ∈ l, r.client ≠ cn) :
    requestsOf cn l = 0 := by
  rw [requestsOf, List.length_eq_zero_iff, List.filter_eq_nil_iff]
  intro r hr
  simpa using h r hr

/-- Each request of a batch is answered with one response. -/
theorem length_repliesTo (cn qp base : Nat) (l : List Request) :
    (repliesTo cn qp base l).length = requestsOf cn l := by
  induction l generalizing base with
  | nil => rfl
  | cons r rs ih =>
    rw [repliesTo, requestsOf_cons]
    split
    · rw [List.length_cons, ih, Nat.add_comm]
    · rw [ih, Nat.zero_add]

/-! ## The invariant -/

/-- A client with `out` requests in flight or at its server thread, and `wire`
responses in flight. A RECV is posted for each of them. -/
structure ClientOk (postlist : Nat) (c : ClientThread) (out wire : Nat) : Prop where
  filled_le : c.filled ≤ c.vars.reqsToSend
  total : c.vars.reqsToSend + out + wire + c.vars.cq.length = postlist
  posted : c.recvs.posted = c.recvs.consumed + c.filled + out + wire
  polled : c.recvs.consumed = c.recvs.polled + c.vars.cq.length
  dropped : c.recvs.dropped = 0

/-- A server thread has requests of its own clients, and as many RECVs as at
the start but for those it owes. -/
structure ThreadOk (maxNumClients numServerThreads qDepth thread : Nat) (v : Thread) : Prop where
  mine : ∀ r ∈ v.cq ++ v.phase.batch,
    r.client < maxNumClients ∧ r.client % numServerThreads = thread
  polled : v.recvs.consumed = v.recvs.polled + v.cq.length
  posted : v.recvs.posted + v.phase.owed = qDepth + v.recvs.polled
  dropped : v.recvs.dropped = 0

/-- The requests of client `cn` that were sent and are not answered. -/
def out (cfg : Config) (net : List Request) (server : Nat → Thread) (cn : Nat) : Nat :=
  requestsOf cn net + requestsOf cn (server (cn % cfg.numServerThreads)).cq +
    requestsOf cn (server (cn % cfg.numServerThreads)).phase.batch

structure Inv (cfg : Config) (maxNumClients qDepth : Nat) (s : State) : Prop where
  client : ∀ cn < maxNumClients,
    ClientOk cfg.postlist (s.client cn) (out cfg s.net s.server cn) (s.wire cn).length
  thread : ∀ t, ThreadOk maxNumClients cfg.numServerThreads qDepth t (s.server t)
  net : ∀ r ∈ s.net, r.client < maxNumClients
  wire : ∀ cn, maxNumClients ≤ cn → s.wire cn = []

variable {cfg : Config} {maxNumClients qDepth : Nat}

theorem inv_start (counter : Nat) :
    Inv cfg maxNumClients qDepth (State.start cfg qDepth counter) where
  client _ _ := ⟨Nat.zero_le _, rfl, rfl, rfl, rfl⟩
  thread _ := ⟨fun _ h => absurd h List.not_mem_nil, rfl, Nat.add_comm 0 qDepth, rfl⟩
  net _ h := absurd h List.not_mem_nil
  wire _ _ := rfl

/-! ## Clients -/

section Client
variable {postlist out wire : Nat} {c : ClientThread}

theorem ClientOk.postRecv (h : ClientOk postlist c out wire)
    (hlt : c.filled < c.vars.reqsToSend) : ClientOk postlist c.postRecv out wire := by
  refine ⟨hlt, h.total, ?_, h.polled, h.dropped⟩
  have := h.posted
  show c.recvs.posted + 1 = c.recvs.consumed + (c.filled + 1) + out + wire
  omega

theorem ClientOk.send (h : ClientOk postlist c out wire) (hfull : c.filled = c.vars.reqsToSend) :
    ClientOk postlist { c with vars := { c.vars with reqsToSend := 0 }, filled := 0 }
      (out + c.vars.reqsToSend) wire := by
  refine ⟨Nat.le_refl _, ?_, ?_, h.polled, h.dropped⟩
  · have := h.total
    show 0 + (out + c.vars.reqsToSend) + wire + c.vars.cq.length = postlist
    omega
  · have := h.posted
    show c.recvs.posted = c.recvs.consumed + 0 + (out + c.vars.reqsToSend) + wire
    omega

/-- A response finds a RECV. -/
theorem ClientOk.free_pos (h : ClientOk postlist c out (wire + 1)) : 0 < c.recvs.free := by
  have := h.posted
  unfold RecvQueue.free
  omega

theorem ClientOk.receive (h : ClientOk postlist c out (wire + 1)) (r : Response) :
    ClientOk postlist (c.receive cfg r) out wire := by
  have hfree := h.free_pos
  have harrive : c.recvs.arrive = { c.recvs with consumed := c.recvs.consumed + 1 } :=
    if_pos (Nat.lt_of_sub_pos hfree)
  have hcq : (c.vars.receive cfg r).cq.length = c.vars.cq.length + 1 := by
    simp [Client.receive]
  unfold ClientThread.receive
  rw [if_pos hfree, harrive]
  refine ⟨h.filled_le, ?_, ?_, ?_, h.dropped⟩
  · have := h.total
    show c.vars.reqsToSend + out + wire + (c.vars.receive cfg r).cq.length = postlist
    omega
  · have := h.posted
    show c.recvs.posted = c.recvs.consumed + 1 + c.filled + out + wire
    omega
  · have := h.polled
    show c.recvs.consumed + 1 = c.recvs.polled + (c.vars.receive cfg r).cq.length
    omega

/-- Requests are answered. -/
theorem ClientOk.answer {k : Nat} (h : ClientOk postlist c (out + k) wire) :
    ClientOk postlist c out (wire + k) := by
  have htotal := h.total
  have hposted := h.posted
  exact ⟨h.filled_le, by omega, by omega, h.polled, h.dropped⟩

theorem ClientOk.poll {n : Nat} (h : ClientOk postlist c out wire)
    (hzero : c.vars.reqsToSend = 0) (hn : n ≤ c.vars.cq.length) :
    ClientOk postlist (c.poll n) out wire := by
  have hfill := h.filled_le
  have hcq : (c.vars.poll n).cq.length = c.vars.cq.length - n := List.length_drop
  refine ⟨?_, ?_, h.posted, ?_, h.dropped⟩
  · show c.filled ≤ n
    omega
  · have := h.total
    show n + out + wire + (c.vars.poll n).cq.length = postlist
    omega
  · have := h.polled
    show c.recvs.consumed = c.recvs.polled + n + (c.vars.poll n).cq.length
    omega

end Client

/-! ## Server threads -/

section Thread
variable {numServerThreads thread : Nat} {v : Thread}

/-- A request finds a RECV while the requests polled and not polled leave one. -/
theorem ThreadOk.free_eq (h : ThreadOk maxNumClients numServerThreads qDepth thread v) :
    v.recvs.free = qDepth - (v.cq.length + v.phase.owed) := by
  have := h.polled
  have := h.posted
  unfold RecvQueue.free
  omega

theorem ThreadOk.receive (h : ThreadOk maxNumClients numServerThreads qDepth thread v)
    (hfree : 0 < v.recvs.free) {r : Request} (hr : r.client < maxNumClients)
    (hmine : r.client % numServerThreads = thread) :
    ThreadOk maxNumClients numServerThreads qDepth thread (v.receive r) ∧
      (v.receive r).cq = v.cq ++ [r] := by
  have harrive : v.recvs.arrive = { v.recvs with consumed := v.recvs.consumed + 1 } :=
    if_pos (Nat.lt_of_sub_pos hfree)
  unfold Thread.receive
  rw [if_pos hfree, harrive]
  refine ⟨⟨fun x hx => ?_, ?_, h.posted, h.dropped⟩, rfl⟩
  · simp only [List.append_assoc, List.mem_append, List.mem_singleton] at hx
    obtain hx | rfl | hx := hx
    · exact h.mine x (List.mem_append_left _ hx)
    · exact ⟨hr, hmine⟩
    · exact h.mine x (List.mem_append_right _ hx)
  · have := h.polled
    show v.recvs.consumed + 1 = v.recvs.polled + (v.cq ++ [r]).length
    rw [List.length_append, List.length_singleton]
    omega

theorem ThreadOk.poll {n : Nat} (h : ThreadOk maxNumClients numServerThreads qDepth thread v)
    (hidle : v.phase = .idle) (hn : n ≤ v.cq.length) :
    ThreadOk maxNumClients numServerThreads qDepth thread (v.poll n) := by
  refine ⟨fun x hx => ?_, ?_, ?_, h.dropped⟩
  · have hx : x ∈ v.cq.drop n ++ v.cq.take n := hx
    refine h.mine x (List.mem_append_left _ ?_)
    obtain hx | hx := List.mem_append.1 hx
    · exact List.mem_of_mem_drop hx
    · exact List.mem_of_mem_take hx
  · have := h.polled
    show v.recvs.consumed = v.recvs.polled + n + (v.cq.drop n).length
    rw [List.length_drop]
    omega
  · have := h.posted
    rw [hidle] at this
    show v.recvs.posted + (v.cq.take n).length = qDepth + (v.recvs.polled + n)
    rw [List.length_take_of_le hn]
    simp only [Phase.owed] at this
    omega

/-- A phase with the same batch and the same RECVs owed. -/
theorem ThreadOk.phase (h : ThreadOk maxNumClients numServerThreads qDepth thread v) {ph : Phase}
    (hbatch : ph.batch = v.phase.batch) (howed : ph.owed = v.phase.owed) :
    ThreadOk maxNumClients numServerThreads qDepth thread { v with phase := ph } :=
  ⟨by simpa only [hbatch] using h.mine, h.polled, by simpa only [howed] using h.posted, h.dropped⟩

theorem ThreadOk.repost {batch : List Request} {base : Nat}
    (h : ThreadOk maxNumClients numServerThreads qDepth thread v)
    (hphase : v.phase = .counted batch base) :
    ThreadOk maxNumClients numServerThreads qDepth thread (v.repost batch base) := by
  have hmine := h.mine
  have hposted := h.posted
  rw [hphase] at hmine hposted
  exact ⟨hmine, h.polled, hposted, h.dropped⟩

theorem ThreadOk.answer {batch : List Request} {base : Nat}
    (h : ThreadOk maxNumClients numServerThreads qDepth thread v)
    (hphase : v.phase = .reposted batch base) (qpI : Nat) :
    ThreadOk maxNumClients numServerThreads qDepth thread { v with qpI, phase := .idle } := by
  have hposted := h.posted
  rw [hphase] at hposted
  exact ⟨fun x hx => h.mine x (List.mem_append_left _ (by simpa [Phase.batch] using hx)), h.polled,
    hposted, h.dropped⟩

end Thread

/-! ## Steps -/

variable {s t : State}

theorem Phase.owed_le (ph : Phase) : ph.owed ≤ ph.batch.length := by
  cases ph <;> simp [Phase.owed, Phase.batch]

/-- The requests in flight to a server thread, those in its CQ and the RECVs it
owes are requests of its clients. -/
theorem Inv.load_le (h : Inv cfg maxNumClients qDepth s) (hT : 0 < cfg.numServerThreads)
    (thread : Nat) :
    (s.net.filter (·.client % cfg.numServerThreads = thread)).length +
      ((s.server thread).cq.length + (s.server thread).phase.owed) ≤
    maxClientsPerServerThread cfg maxNumClients * cfg.postlist := by
  have howed := Phase.owed_le (s.server thread).phase
  have hload := length_le_card_mul (k := cfg.postlist) (fun r : Request => r.client)
    (S := (Finset.range maxNumClients).filter (· % cfg.numServerThreads = thread))
    (l := s.net.filter (·.client % cfg.numServerThreads = thread) ++
      ((s.server thread).cq ++ (s.server thread).phase.batch)) (fun r hr => ?_) (fun c hc => ?_)
  · have hcard := Nat.mul_le_mul_right cfg.postlist (card_class_le (M := maxNumClients) hT thread)
    simp only [List.length_append] at hload
    unfold maxClientsPerServerThread
    omega
  · rw [Finset.mem_filter, Finset.mem_range]
    obtain hr | hr := List.mem_append.1 hr
    · rw [List.mem_filter] at hr
      exact ⟨h.net r hr.1, of_decide_eq_true hr.2⟩
    · exact (h.thread thread).mine r hr
  · rw [Finset.mem_filter, Finset.mem_range] at hc
    obtain ⟨hc, rfl⟩ := hc
    have htotal := (h.client c hc).total
    have hnet : requestsOf c (s.net.filter
        (·.client % cfg.numServerThreads = c % cfg.numServerThreads)) ≤ requestsOf c s.net :=
      (List.filter_sublist.filter _).length_le
    show requestsOf c (_ ++ (_ ++ _)) ≤ _
    simp only [requestsOf_append, out] at htotal ⊢
    omega

/-- A server thread always has a RECV for the next request. -/
theorem Inv.thread_free (h : Inv cfg maxNumClients qDepth s) (hT : 0 < cfg.numServerThreads)
    (hQ : maxClientsPerServerThread cfg maxNumClients * cfg.postlist < qDepth)
    (thread : Nat) : 0 < (s.server thread).recvs.free := by
  have hload := h.load_le hT thread
  rw [(h.thread thread).free_eq]
  omega

/-- Every response in flight finds a RECV. -/
theorem Inv.response_free (h : Inv cfg maxNumClients qDepth s) {cn : Nat} {r : Response}
    (hr : r ∈ s.wire cn) : cn < maxNumClients ∧ 0 < (s.client cn).recvs.free := by
  have hcn : cn < maxNumClients := Nat.lt_of_not_le fun hge => by
    rw [h.wire cn hge] at hr
    exact List.not_mem_nil hr
  obtain ⟨x, xs, hwire⟩ := List.exists_cons_of_ne_nil (List.ne_nil_of_mem hr)
  have hok := h.client cn hcn
  rw [hwire, List.length_cons] at hok
  exact ⟨hcn, hok.free_pos⟩

/-- One server thread has moved. -/
theorem Inv.threads_update (h : Inv cfg maxNumClients qDepth s) {thread : Nat} {v : Thread}
    (hv : ThreadOk maxNumClients cfg.numServerThreads qDepth thread v) :
    ∀ w, ThreadOk maxNumClients cfg.numServerThreads qDepth w
      (Function.update s.server thread v w) :=
  (Function.forall_update_iff s.server (ThreadOk maxNumClients cfg.numServerThreads qDepth)).2
    ⟨hv, fun w _ => h.thread w⟩

/-- A step of client `cn` on its own. -/
theorem Inv.client_step (h : Inv cfg maxNumClients qDepth s) {cn : Nat} {c : ClientThread}
    (hc : ClientOk cfg.postlist c (out cfg s.net s.server cn) (s.wire cn).length) :
    Inv cfg maxNumClients qDepth { s with client := Function.update s.client cn c } := by
  refine ⟨fun c' hc' => ?_, h.thread, h.net, h.wire⟩
  by_cases heq : c' = cn
  · subst heq
    simpa using hc
  · simpa [heq] using h.client c' hc'

/-- A step of a server thread that keeps its requests. -/
theorem Inv.thread_step (h : Inv cfg maxNumClients qDepth s) (counter : Nat) {thread : Nat}
    {v : Thread} (hv : ThreadOk maxNumClients cfg.numServerThreads qDepth thread v)
    (hsame : ∀ cn, requestsOf cn v.cq + requestsOf cn v.phase.batch =
      requestsOf cn (s.server thread).cq + requestsOf cn (s.server thread).phase.batch) :
    Inv cfg maxNumClients qDepth
      { s with counter, server := Function.update s.server thread v } := by
  refine ⟨fun cn hcn => ?_, h.threads_update hv, h.net, h.wire⟩
  have hout : out cfg s.net (Function.update s.server thread v) cn =
      out cfg s.net s.server cn := by
    unfold out
    by_cases heq : cn % cfg.numServerThreads = thread
    · simp only [heq, Function.update_self, Nat.add_assoc, hsame]
    · simp only [Function.update_of_ne heq]
  show ClientOk _ (s.client cn) (out cfg s.net (Function.update s.server thread v) cn) _
  rw [hout]
  exact h.client cn hcn

theorem Inv.send (h : Inv cfg maxNumClients qDepth s) {cn : Nat} (hcn : cn < maxNumClients)
    (hfull : (s.client cn).filled = (s.client cn).vars.reqsToSend) :
    Inv cfg maxNumClients qDepth (s.send cn) := by
  refine ⟨fun c hc => ?_, h.thread, fun r hr => ?_, h.wire⟩
  · have hok := h.client c hc
    by_cases heq : c = cn
    · subst heq
      have hout : out cfg (s.send c).net s.server c =
          out cfg s.net s.server c + (s.client c).vars.reqsToSend := by
        simp only [out, State.send, requestsOf_append, requestsOf_replicate_self]
        omega
      show ClientOk _ _ (out cfg (s.send c).net s.server c) _
      rw [hout]
      simpa [State.send] using hok.send hfull
    · have hout : out cfg (s.send cn).net s.server c = out cfg s.net s.server c := by
        simp only [out, State.send, requestsOf_append, requestsOf_replicate_other heq, Nat.add_zero]
      show ClientOk _ _ (out cfg (s.send cn).net s.server c) _
      rw [hout]
      simpa [State.send, heq] using hok
  · obtain hr | hr := List.mem_append.1 hr
    · exact h.net r hr
    · rw [List.eq_of_mem_replicate hr]
      exact hcn

theorem Inv.request (h : Inv cfg maxNumClients qDepth s) (hT : 0 < cfg.numServerThreads)
    (hQ : maxClientsPerServerThread cfg maxNumClients * cfg.postlist < qDepth)
    {k : Nat} {r : Request} (hr : s.net[k]? = some r) :
    Inv cfg maxNumClients qDepth { s with
      net := s.net.eraseIdx k
      server := Function.update s.server (r.client % cfg.numServerThreads)
        ((s.server (r.client % cfg.numServerThreads)).receive r) } := by
  have hmem := List.mem_of_getElem? hr
  obtain ⟨hv, hcq⟩ := (h.thread (r.client % cfg.numServerThreads)).receive
    (h.thread_free hT hQ _) (h.net r hmem) rfl
  refine ⟨fun cn hcn => ?_, h.threads_update hv,
    fun x hx => h.net x (List.mem_of_mem_eraseIdx hx), h.wire⟩
  have hnet := requestsOf_perm (arrive_perm hr) cn
  rw [requestsOf_cons] at hnet
  have hok := h.client cn hcn
  -- The request moves from the network to the CQ.
  rwa [show out cfg s.net s.server cn = out cfg (s.net.eraseIdx k)
    (Function.update s.server (r.client % cfg.numServerThreads)
      ((s.server (r.client % cfg.numServerThreads)).receive r)) cn from ?_] at hok
  unfold out
  by_cases heq : cn % cfg.numServerThreads = r.client % cfg.numServerThreads
  · simp only [heq, Function.update_self, hcq, requestsOf_append, requestsOf_cons, requestsOf_nil]
    show _ = requestsOf cn (s.net.eraseIdx k) + _ +
      requestsOf cn (s.server (r.client % cfg.numServerThreads)).phase.batch
    omega
  · have hne : r.client ≠ cn := fun hc => heq (by rw [hc])
    rw [if_neg hne] at hnet
    simp only [Function.update_of_ne heq]
    omega

theorem Inv.answer (h : Inv cfg maxNumClients qDepth s) {thread base : Nat} {batch : List Request}
    (hphase : (s.server thread).phase = .reposted batch base) :
    Inv cfg maxNumClients qDepth (s.answer cfg thread batch base) := by
  have hmine : ∀ r ∈ batch, r.client < maxNumClients ∧
      r.client % cfg.numServerThreads = thread := fun r hr =>
    (h.thread thread).mine r (List.mem_append_right _ (by rw [hphase]; exact hr))
  refine ⟨fun cn hcn => ?_, h.threads_update ((h.thread thread).answer hphase _), h.net,
    fun cn hcn => ?_⟩
  · have hok := h.client cn hcn
    have hwire : ((s.answer cfg thread batch base).wire cn).length =
        (s.wire cn).length + requestsOf cn batch := by
      rw [State.answer, List.length_append, length_repliesTo]
    have hout : out cfg s.net s.server cn =
        out cfg s.net (s.answer cfg thread batch base).server cn + requestsOf cn batch := by
      unfold out State.answer
      by_cases heq : cn % cfg.numServerThreads = thread
      · simp only [heq, Function.update_self, hphase, Phase.batch, requestsOf_nil]
        rfl
      · have hzero : requestsOf cn batch = 0 :=
          requestsOf_eq_zero fun r hr hc => heq (hc ▸ (hmine r hr).2)
        simp only [Function.update_of_ne heq, hzero, Nat.add_zero]
    rw [hwire]
    rw [hout] at hok
    exact hok.answer
  · have hzero : requestsOf cn batch = 0 :=
      requestsOf_eq_zero fun r hr hc => absurd (hmine r hr).1 (by omega)
    rw [← List.length_eq_zero_iff, State.answer, List.length_append, length_repliesTo, hzero,
      h.wire cn hcn]
    rfl

theorem Inv.response (h : Inv cfg maxNumClients qDepth s) {cn k : Nat} {r : Response}
    (hr : (s.wire cn)[k]? = some r) :
    Inv cfg maxNumClients qDepth { s with
      wire := Function.update s.wire cn ((s.wire cn).eraseIdx k)
      client := Function.update s.client cn ((s.client cn).receive cfg r) } := by
  obtain ⟨hcn, -⟩ := h.response_free (List.mem_of_getElem? hr)
  have hok := h.client cn hcn
  rw [← (arrive_perm hr).length_eq, List.length_cons] at hok
  refine ⟨fun c hc => ?_, h.thread, h.net, fun c hc => ?_⟩
  · by_cases heq : c = cn
    · subst heq
      simpa using hok.receive r
    · simpa [heq] using h.client c hc
  · have hne : c ≠ cn := fun heq => absurd hcn (by omega)
    simpa [hne] using h.wire c hc

/-! ## All runs -/

theorem step_inv {e : Event} (h : Inv cfg maxNumClients qDepth s)
    (hT : 0 < cfg.numServerThreads)
    (hQ : maxClientsPerServerThread cfg maxNumClients * cfg.postlist < qDepth)
    (hstep : Step cfg maxNumClients s e t) : Inv cfg maxNumClients qDepth t := by
  cases e with
  | postRecv cn =>
    obtain ⟨hcn, hlt, rfl⟩ := hstep
    exact h.client_step ((h.client cn hcn).postRecv hlt)
  | send cn =>
    obtain ⟨hcn, -, hfull, rfl⟩ := hstep
    exact h.send hcn hfull
  | request k =>
    obtain ⟨r, hr, rfl⟩ := hstep
    exact h.request hT hQ hr
  | poll thread n =>
    obtain ⟨-, hidle, -, hn, rfl⟩ := hstep
    refine h.thread_step s.counter ((h.thread thread).poll hidle hn) fun cn => ?_
    have hsplit := congrArg (requestsOf cn) (List.take_append_drop n (s.server thread).cq)
    rw [requestsOf_append] at hsplit
    rw [hidle, ← hsplit]
    exact Nat.add_comm _ _
  | fetchAndAdd thread =>
    obtain ⟨batch, hphase, rfl⟩ := hstep
    refine h.thread_step _ ((h.thread thread).phase ?_ ?_) fun cn => ?_
    all_goals rw [hphase]; rfl
  | repost thread =>
    obtain ⟨batch, base, hphase, rfl⟩ := hstep
    refine h.thread_step s.counter ((h.thread thread).repost hphase) fun cn => ?_
    rw [hphase]
    rfl
  | answer thread =>
    obtain ⟨batch, base, hphase, rfl⟩ := hstep
    exact h.answer hphase
  | response cn k =>
    obtain ⟨r, hr, rfl⟩ := hstep
    exact h.response hr
  | receive cn n =>
    obtain ⟨hcn, hzero, -, hn, rfl⟩ := hstep
    exact h.client_step ((h.client cn hcn).poll hzero hn)

theorem queues_inv {counter : Nat} (hT : 0 < cfg.numServerThreads)
    (hQ : maxClientsPerServerThread cfg maxNumClients * cfg.postlist < qDepth)
    (h : Reachable (queues cfg maxNumClients qDepth counter) s) :
    Inv cfg maxNumClients qDepth s := by
  refine h.invariant (P := Inv cfg maxNumClients qDepth) (fun s hs => ?_)
    fun s e t _ ih hstep => step_inv ih hT hQ hstep
  rw [show s = _ from hs]
  exact inv_start counter

/-- In every run, each request and each response finds a RECV when it arrives,
none was lost, a client has at most `postlist` requests outstanding, and no queue
has more than `HRD_Q_DEPTH` RECVs that were not polled. -/
theorem recvs_never_dry {counter : Nat} (hT : 1 ≤ cfg.numServerThreads)
    (hQ : maxClientsPerServerThread cfg maxNumClients * cfg.postlist < qDepth)
    (h : Reachable (queues cfg maxNumClients qDepth counter) s) :
    (∀ (k : Nat) (r : Request), s.net[k]? = some r →
      0 < (s.server (r.client % cfg.numServerThreads)).recvs.free) ∧
    (∀ (cn k : Nat) (r : Response), (s.wire cn)[k]? = some r → 0 < (s.client cn).recvs.free) ∧
    (∀ thread, (s.server thread).recvs.dropped = 0 ∧ (s.server thread).recvs.free ≤ qDepth ∧
      (s.server thread).recvs.posted ≤ (s.server thread).recvs.polled + qDepth) ∧
    ∀ cn < maxNumClients, (s.client cn).recvs.dropped = 0 ∧
      out cfg s.net s.server cn + (s.wire cn).length + (s.client cn).vars.cq.length ≤ cfg.postlist ∧
      (s.client cn).recvs.free ≤ qDepth ∧
      (s.client cn).recvs.posted ≤ (s.client cn).recvs.polled + qDepth := by
  have hinv := queues_inv hT hQ h
  refine ⟨fun k r _ => hinv.thread_free hT hQ _,
    fun cn k r hr => (hinv.response_free (List.mem_of_getElem? hr)).2, fun thread => ?_,
    fun cn hcn => ?_⟩
  · have hv := hinv.thread thread
    have hposted := hv.posted
    refine ⟨hv.dropped, ?_, by omega⟩
    rw [hv.free_eq]
    exact Nat.sub_le _ _
  · have hok := hinv.client cn hcn
    have hceil : 1 ≤ maxClientsPerServerThread cfg maxNumClients :=
      Nat.div_pos (by omega) hT
    have hpostlist := Nat.le_mul_of_pos_left cfg.postlist hceil
    have hfilled := hok.filled_le
    have htotal := hok.total
    have hposted := hok.posted
    have hpolled := hok.polled
    refine ⟨hok.dropped, by omega, ?_, by omega⟩
    unfold RecvQueue.free
    omega

/-- The sizes of the program, with clients that send one request at a time. -/
def oneAtATime : Config := ⟨10, 3, 1, 32⟩

/-- Two clients of one server thread have sent a request. The second one overtakes the other,
and both are answered in one batch. -/
theorem twoResponses_reachable : ∃ s, Reachable (queues oneAtATime 70 128 0) s ∧
    s.wire 0 = [⟨1, true, 0⟩] ∧ s.wire 10 = [⟨0, true, 0⟩] ∧ (s.server 0).recvs.polled = 2 := by
  have h1 : Reachable (queues oneAtATime 70 128 0) _ :=
    .step (e := .postRecv 0) (.init rfl) ⟨by decide, by decide, rfl⟩
  have h2 : Reachable (queues oneAtATime 70 128 0) _ :=
    .step (e := .send 0) h1 ⟨by decide, by decide, rfl, rfl⟩
  have h3 : Reachable (queues oneAtATime 70 128 0) _ :=
    .step (e := .postRecv 10) h2 ⟨by decide, by decide, rfl⟩
  have h4 : Reachable (queues oneAtATime 70 128 0) _ :=
    .step (e := .send 10) h3 ⟨by decide, by decide, rfl, rfl⟩
  have h5 : Reachable (queues oneAtATime 70 128 0) _ :=
    .step (e := .request 1) h4 ⟨⟨10, 0⟩, rfl, rfl⟩
  have h6 : Reachable (queues oneAtATime 70 128 0) _ :=
    .step (e := .request 0) h5 ⟨⟨0, 0⟩, rfl, rfl⟩
  have h7 : Reachable (queues oneAtATime 70 128 0) _ :=
    .step (e := .poll 0 2) h6 ⟨by decide, rfl, by decide, by decide, rfl⟩
  have h8 : Reachable (queues oneAtATime 70 128 0) _ :=
    .step (e := .fetchAndAdd 0) h7 ⟨_, rfl, rfl⟩
  have h9 : Reachable (queues oneAtATime 70 128 0) _ :=
    .step (e := .repost 0) h8 ⟨_, _, rfl, rfl⟩
  have h10 : Reachable (queues oneAtATime 70 128 0) _ :=
    .step (e := .answer 0) h9 ⟨_, _, rfl, rfl⟩
  exact ⟨_, h10, by decide, by decide, rfl⟩

theorem recvs_never_dry_twoResponses : ∃ s : State, s.wire 0 = [⟨1, true, 0⟩] ∧
    s.wire 10 = [⟨0, true, 0⟩] ∧ 0 < (s.client 0).recvs.free ∧ 0 < (s.client 10).recvs.free ∧
    (s.server 0).recvs.posted ≤ 130 := by
  obtain ⟨s, hs, hfirst, hsecond, hpolled⟩ := twoResponses_reachable
  obtain ⟨-, hresponses, hthreads, -⟩ := recvs_never_dry (by decide) (by decide) hs
  have hposted := (hthreads 0).2.2
  rw [hpolled] at hposted
  exact ⟨s, hfirst, hsecond, hresponses 0 0 _ (by rw [hfirst]; rfl),
    hresponses 10 0 _ (by rw [hsecond]; rfl), hposted⟩

end RdmaBench.Sequencer.Recvs
