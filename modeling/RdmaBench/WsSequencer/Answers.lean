import RdmaBench.Requests.Progress
import RdmaBench.WsSequencer.Counter

/-! # Every request once

Each request of a client gets one number of the counter and at most one response, and
the numbers of its requests to one worker increase in the order they were sent. No
response stays out if `postlist` is below `UNSIG_BATCH` or there is more than one port.
Otherwise 64 requests that a worker finds in one pass are never answered. -/

namespace RdmaBench.WsSequencer.Answers
open RdmaBench.Lib.Runs
open RdmaBench.Postlist.Worker (NeverStuck Waits wsSequencer_neverStuck)
open RdmaBench.Requests.Model (Program)
open RdmaBench.Requests.Delivery (PairOk stages writes reachable_delivers reachable_exactlyOnce)
open RdmaBench.Requests.Progress (Stuck)
open RdmaBench.WsSequencer.Model RdmaBench.WsSequencer.Counter

variable {p : Program Int Unit} {s t : State p} {cn : Nat} {wn : Fin p.numWorkers}

/-! ## Workers go on -/

/-- A step that sends no request. -/
def Continues (s t : State p) : Prop := ∃ e, (∀ cn wn, e ≠ Event.send cn wn) ∧ Step s e t

/-- The ports that a worker has left to post on, with the step after them. -/
def postsLeft (s : State p) (wn : Fin p.numWorkers) : Nat :=
  match s.posting wn with
  | none => 0
  | some i => p.cfg.numServerPorts - i + 1

theorem postsLeft_post_self {i : Nat} (hi : s.posting wn = some i) :
    postsLeft (s.post wn i) wn < postsLeft s wn := by
  unfold State.post
  split
  · simp only [postsLeft, hi, Function.update_self]
    omega
  · simp [postsLeft, hi]

theorem postsLeft_post_other {v : Fin p.numWorkers} (hv : v ≠ wn) (i : Nat) :
    postsLeft (s.post wn i) v = postsLeft s v := by
  unfold State.post
  split <;> simp [postsLeft, hv]

/-- A worker ends its posts. -/
theorem reach_idle (s : State p) (wn : Fin p.numWorkers) :
    ∃ t, Relation.ReflTransGen Continues s t ∧ t.requests = s.requests ∧ t.posting wn = none := by
  refine reach_of_measure (postsLeft · wn) (fun u hu hne => ?_) rfl
  obtain ⟨i, hi⟩ := Option.ne_none_iff_exists'.1 hne
  have hstep : Continues u (u.post wn i) := ⟨.post wn, fun _ _ => nofun, i, hi, rfl⟩
  exact ⟨_, .single hstep, (post_requests u wn i).trans hu, .inr (postsLeft_post_self hi)⟩

/-- Clients and workers of `Requests.Model` can be followed. -/
theorem follow_step {r : Requests.Model.State p} (h : Requests.Progress.Advances s.requests r) :
    ∃ t, Relation.ReflTransGen Continues s t ∧ t.requests = r := by
  cases h with
  | deliver cn h =>
    exact ⟨_, .single ⟨.deliver cn, fun _ _ => nofun, r, h, rfl⟩, rfl⟩
  | poll wn h =>
    obtain ⟨t, hst, hreq, hidle⟩ := reach_idle s wn
    rw [← hreq] at h
    exact ⟨_, hst.tail ⟨.poll wn, fun _ _ => nofun, hidle, r, h, rfl⟩, rfl⟩
  | finish wn h =>
    obtain ⟨t, hst, hreq, hidle⟩ := reach_idle s wn
    rw [← hreq] at h
    exact ⟨_, hst.tail ⟨.fetchAndAdd wn, fun _ _ => nofun, hidle, r, h, rfl⟩,
      fetchAndAdd_requests t wn r⟩

theorem follow {r : Requests.Model.State p}
    (h : Relation.ReflTransGen Requests.Progress.Advances s.requests r) :
    ∃ t, Relation.ReflTransGen Continues s t ∧ t.requests = r := by
  induction h with
  | refl => exact ⟨s, .refl, rfl⟩
  | tail _ hstep ih =>
    obtain ⟨t, hst, rfl⟩ := ih
    obtain ⟨u, htu, hu⟩ := follow_step hstep
    exact ⟨u, hst.trans htu, hu⟩

theorem Continues.reachable (h : Relation.ReflTransGen Continues s t)
    (hr : Reachable (sequencer p) s) : Reachable (sequencer p) t := by
  induction h with
  | refl => exact hr
  | tail _ hstep ih =>
    obtain ⟨e, -, hstep⟩ := hstep
    exact ih.step (e := e) hstep

/-! ## Responses come in -/

/-- All workers end their posts. -/
theorem reach_all_idle (s : State p) :
    ∃ t, Relation.ReflTransGen Continues s t ∧ t.requests = s.requests ∧
      ∀ wn, t.posting wn = none := by
  refine reach_of_measure (fun s => ∑ wn, postsLeft s wn) (fun u hu hne => ?_) rfl
  obtain ⟨wn, hwn⟩ := not_forall.1 hne
  obtain ⟨i, hi⟩ := Option.ne_none_iff_exists'.1 hwn
  have hstep : Continues u (u.post wn i) := ⟨.post wn, fun _ _ => nofun, i, hi, rfl⟩
  refine ⟨_, .single hstep, (post_requests u wn i).trans hu, .inr ?_⟩
  refine Finset.sum_lt_sum (fun v _ => ?_) ⟨wn, Finset.mem_univ _, postsLeft_post_self hi⟩
  by_cases hv : v = wn
  · subst hv
    exact (postsLeft_post_self hi).le
  · exact (postsLeft_post_other hv i).le

/-- All responses in flight arrive. -/
theorem reach_received (s : State p) (hidle : ∀ wn, s.posting wn = none) :
    ∃ t, Relation.ReflTransGen Continues s t ∧ ((∀ wn, t.posting wn = none) ∧
      ∀ cn, (t.requests.client cn).past = (s.requests.client cn).past) ∧ t.wire = [] := by
  refine reach_of_measure (fun s => s.wire.length) (fun u hu hne => ?_) ⟨hidle, fun _ => rfl⟩
  obtain ⟨r, rest, hwire⟩ := List.exists_cons_of_ne_nil hne
  have hstep : Continues u (u.arrive 0 r) :=
    ⟨.arrive 0, fun _ _ => nofun, r, by rw [hwire]; rfl, rfl⟩
  refine ⟨_, .single hstep, ⟨hu.1, fun cn => (arrive_past u 0 r cn).trans (hu.2 cn)⟩, .inr ?_⟩
  simp [State.arrive, hwire]

/-- If workers never get stuck, a run can go on, without another request, until
each client has a response of each worker for each of its requests. -/
theorem receive_all (hW : 0 < p.windowSize) (hB : 0 < p.cfg.unsigBatch)
    (hP : 0 < p.cfg.numServerPorts) (hp : 0 < p.cfg.postlist) (hstuck : NeverStuck p.cfg)
    (h : Reachable (sequencer p) s) :
    ∃ t, Relation.ReflTransGen Continues s t ∧ t.wire = [] ∧ (∀ wn, t.reserved wn = []) ∧
      ∀ cn < p.cfg.numClients, ∀ wn : Fin p.numWorkers, (numbersOf cn wn t.received).length =
        ((s.requests.client cn).past.sent wn).length := by
  obtain ⟨r, hsr, -, hall⟩ :=
    Requests.Progress.answer_all hW hp hstuck (reachable_counts hB hP h).1
  obtain ⟨t, hst, rfl⟩ := follow hsr
  obtain ⟨u, htu, hreq, hidle⟩ := reach_all_idle t
  obtain ⟨v, huv, ⟨hidle, hpast⟩, hwire⟩ := reach_received u hidle
  have hsv := (hst.trans htu).trans huv
  have hc := (reachable_counts hB hP (Continues.reachable hsv h)).2
  have hnone := fun wn => (hc.worker wn).idle (hidle wn)
  refine ⟨v, hsv, hwire, hnone, fun cn hcn wn => ?_⟩
  have honce := (hc.pair cn wn).once.length_eq
  rw [hnone wn, show numbersFor cn [] = [] from rfl, List.append_nil, (hc.pair cn wn).length,
    hpast, hreq, hall cn hcn wn, (Requests.Progress.advances_later hsr cn).sent] at honce
  rwa [State.generated, hwire, List.append_nil] at honce

/-! ## Every request -/

/-- Where the requests of a client to a worker are. Each is in one place: in
flight, in its slot, in the batch, waiting to be posted, or answered. -/
structure Accounted (s : State p) (cn : Nat) (wn : Fin p.numWorkers) : Prop where
  requests : Requests.Delivery.ExactlyOnce s.requests cn wn
  accepted_le : ((s.requests.client cn).past.accepted wn).length ≤
    (s.requests.client cn).past.delivered wn
  places : ((s.requests.client cn).past.sent wn).length =
    ((s.requests.client cn).wire.filter (·.worker = wn)).length +
    ((s.requests.client cn).past.delivered wn -
      ((s.requests.client cn).past.accepted wn).length) +
    ((s.wr wn).filter (·.client = cn)).length + (numbersFor cn (s.reserved wn)).length +
    (numbersOf cn wn s.generated).length

theorem length_writes (n : Nat) (l : List Unit) : (writes p cn wn n l).length = l.length := by
  induction l generalizing n with
  | nil => rfl
  | cons r rs ih => rw [writes, List.length_cons, ih, List.length_cons]

theorem reachable_accounted (hW : 0 < p.windowSize) (hB : 0 < p.cfg.unsigBatch)
    (hP : 0 < p.cfg.numServerPorts) (h : Reachable (sequencer p) s) (hcn : cn < p.cfg.numClients)
    (wn : Fin p.numWorkers) : Accounted s cn wn := by
  obtain ⟨hr, hc⟩ := reachable_counts hB hP h
  have hd := reachable_delivers hW hr
  have hpair := hd.pair cn hcn wn
  have hflow := (hd.client cn hcn).flow
  have hdel := hflow.delivered_le wn
  have hacc := hflow.accepted_le wn
  have hans := hflow.answered_le wn
  simp only [stages] at hdel hacc hans
  refine ⟨reachable_exactlyOnce hW hr hcn wn, hacc, ?_⟩
  have hgiven := (hc.pair cn wn).once.length_eq
  rw [List.length_append, (hc.pair cn wn).length] at hgiven
  rw [hpair.wire, length_writes, List.length_drop, ← (hc.worker wn).answers, hpair.answers]
  omega

/-! ## A batch that fills a group -/

/-- Any step. -/
def Moves (s t : State p) : Prop := ∃ e, Step s e t

/-- However a run goes on, a stuck worker answers nothing. -/
theorem stuck_moves (hW : 0 < p.windowSize) (hB : 0 < p.cfg.unsigBatch)
    (hP : 0 < p.cfg.numServerPorts) (hN : 0 < p.cfg.numClients) (h : Reachable (sequencer p) s)
    (hs : Stuck s.requests wn) (hst : Relation.ReflTransGen Moves s t) :
    Reachable (sequencer p) t ∧ Stuck t.requests wn ∧ ∀ cn,
      (t.requests.client cn).past.answered wn = (s.requests.client cn).past.answered wn := by
  induction hst with
  | refl => exact ⟨h, hs, fun _ => rfl⟩
  | tail _ hstep ih =>
    obtain ⟨e, hstep⟩ := hstep
    obtain ⟨hr, hs, hans⟩ := ih
    obtain ⟨hreq, hc⟩ := reachable_counts hB hP hr
    refine ⟨hr.step (e := e) hstep, ?_⟩
    rcases step_requests hc hstep with hsame | hmove
    · rw [hsame]
      exact ⟨hs, hans⟩
    · obtain ⟨e', hmove⟩ := hmove
      have hhalts := hs.halts hW (reachable_delivers hW hreq) hN hmove
      exact ⟨hs.of_halts hhalts, fun cn => (hhalts.answered cn).trans (hans cn)⟩

/-- No response without an answer. -/
theorem numbersOf_eq_nil (hB : 0 < p.cfg.unsigBatch) (hP : 0 < p.cfg.numServerPorts)
    (h : Reachable (sequencer p) s) (hans : (s.requests.client cn).past.answered wn = 0) :
    numbersOf cn wn s.generated = [] := by
  have hpair := (reachable_counts hB hP h).2.pair cn wn
  have hlen := hpair.once.length_eq
  rw [hpair.length, hans, List.length_append] at hlen
  exact List.length_eq_zero_iff.1 (Nat.eq_zero_of_add_eq_zero_right hlen)

section Group
variable {cfg : Postlist.Worker.Config} {pass : Postlist.Worker.Pass} {k : Nat}

/-- One port, whose batches may fill a group of signaled requests. -/
structure FullGroups (cfg : Postlist.Worker.Config) : Prop where
  ports : cfg.numServerPorts = 1
  postlist : cfg.postlist = cfg.unsigBatch
  pos : 0 < cfg.unsigBatch
  clients : cfg.unsigBatch < cfg.numClients

/-- The first pass of a worker after it has found `k` requests and nothing else. -/
structure FirstPass (pass : Postlist.Worker.Pass) (k : Nat) : Prop where
  cltI : pass.cltI = k
  cbI : pass.cbI = 0
  pollI : pass.pollI = k
  wrI : pass.wrI = k
  udQpI : pass.udQpI = 0
  made : (pass.queue 0 0).made = k
  posted : (pass.queue 0 0).posted = 0

theorem FirstPass.polling (h : FirstPass pass k) (hf : FullGroups cfg) (hk : k < cfg.unsigBatch) :
    Postlist.Worker.Polling cfg pass := by
  refine ⟨?_, ?_⟩
  · rw [h.pollI]
    exact hk.trans hf.clients
  · rw [h.wrI, hf.postlist]
    exact hk

/-- The worker waits at the last request of the group. -/
theorem FirstPass.waits_iff (h : FirstPass pass k) (hf : FullGroups cfg)
    (hk : k < cfg.unsigBatch) : Waits cfg pass ↔ k = cfg.unsigBatch - 1 := by
  unfold Waits
  rw [h.cbI, h.udQpI, h.made, and_iff_right (h.polling hf hk)]
  show k % cfg.unsigBatch = cfg.unsigBatch - 1 ↔ _
  rw [Nat.mod_eq_of_lt hk]

/-- It has posted nothing. -/
theorem FirstPass.not_canPoll (h : FirstPass pass k) (B : Nat) :
    ¬(pass.queue pass.cbI pass.udQpI).CanPoll B := by
  intro hpoll
  obtain ⟨i, hi, -⟩ := hpoll
  rw [h.cbI, h.udQpI, h.posted] at hi
  exact absurd hi (Nat.not_lt_zero i)

theorem FirstPass.hit (h : FirstPass pass k) (hf : FullGroups cfg) (hk : k < cfg.unsigBatch) :
    FirstPass (Postlist.Worker.hit cfg pass) (k + 1) := by
  have hnext : Postlist.Worker.hrdModAdd k cfg.numClients = k + 1 := by
    have := hf.clients
    rw [Postlist.Worker.hrdModAdd, if_neg (by omega)]
  refine ⟨?_, ?_, ?_, ?_, h.udQpI, ?_, ?_⟩
  all_goals simp only [Postlist.Worker.hit, Postlist.Worker.miss, h.cbI, h.udQpI]
  · rw [h.cltI]
    exact hnext
  · rw [hf.ports]
    rfl
  · rw [h.pollI]
  · rw [h.wrI]
  · simp [Lib.Signaling.Queue.make, h.made]
  · simp [Lib.Signaling.Queue.make, h.posted]

/-- The first `k` clients have sent one request each to worker `wn`, which has found them
in its first pass. -/
structure Collecting (s : State p) (wn : Fin p.numWorkers) (k : Nat) : Prop where
  reachable : Reachable (sequencer p) s
  idle : s.posting wn = none
  pass : FirstPass (s.requests.worker wn).pass k
  sent : ∀ cn < k, (s.requests.client cn).past.sent wn = [()]
  answered : ∀ cn < k, (s.requests.client cn).past.answered wn = 0
  fresh : ∀ cn, k ≤ cn → s.requests.client cn = (Requests.Model.State.start p).client cn

/-- Client `k` sends its request, and it gets to the slot. -/
theorem Collecting.request (h : Collecting s wn k) (hk : k < p.cfg.numClients) :
    ∃ t, Reachable (sequencer p) t ∧ t.posting = s.posting ∧
      t.requests.worker = s.requests.worker ∧
      (∀ cn, cn ≠ k → t.requests.client cn = s.requests.client cn) ∧
      (t.requests.client k).past.sent wn = [()] ∧
      (t.requests.client k).past.delivered wn = 1 ∧
      (t.requests.client k).past.accepted wn = [] ∧
      (t.requests.client k).past.answered wn = 0 := by
  have hfresh := h.fresh k (Nat.le_refl k)
  have hpoll : ¬Lib.Window.MustPoll p.windowSize (s.requests.client k).nbTx := by
    rw [hfresh]
    exact fun hp => absurd hp.2 (Nat.lt_irrefl 0)
  have hsend : Reachable (sequencer p) _ :=
    .step (e := .send k wn) h.reachable ⟨_, ⟨hk, fun hp => absurd hp hpoll, rfl⟩, rfl⟩
  have hdeliver : Reachable (sequencer p) _ :=
    .step (e := .deliver k) hsend ⟨_, ⟨hk, ⟨wn, Requests.Model.offset p wn k 0, ()⟩, [],
      by simp [Requests.Model.Client.send, hfresh, Requests.Model.State.start], rfl⟩, rfl⟩
  refine ⟨_, hdeliver, rfl, rfl, fun cn hcn => ?_, ?_, ?_, ?_, ?_⟩
  · simp [Requests.Model.State.deliver, hcn]
  all_goals simp [Requests.Model.State.deliver, Requests.Model.Client.send, hfresh,
    Requests.Model.State.start, Requests.Model.Past.start]

/-- Before the last request of the group, the worker takes it. -/
theorem Collecting.next (h : Collecting s wn k) (hf : FullGroups p.cfg) (hW : 0 < p.windowSize)
    (hk : k + 1 < p.cfg.unsigBatch) : ∃ t : State p, Collecting t wn (k + 1) := by
  have hk' : k < p.cfg.unsigBatch := Nat.lt_of_succ_lt hk
  have hN : k < p.cfg.numClients := hk'.trans hf.clients
  obtain ⟨t, ht, hposting, hworker, hother, hsent, hdel, hacc, hans⟩ := h.request hN
  have hpass := h.pass
  rw [← hworker] at hpass
  have hd := reachable_delivers hW (reachable_counts hf.pos (hf.ports ▸ Nat.one_pos) ht).1
  have hreq : p.mailbox.isRequest (t.requests.region (t.requests.nextOffset wn)) = true := by
    refine (hd.isRequest_iff hW (hd.cltI wn (Nat.zero_lt_of_lt hN)) wn).2 ?_
    rw [hpass.cltI, hacc, hdel]
    exact Nat.one_pos
  have hpoll : Requests.Model.Step t.requests (.poll wn) (t.requests.hit wn) := by
    refine ⟨hpass.polling hf hk', ?_⟩
    rw [if_pos hreq]
    exact ⟨fun hw => absurd ((hpass.waits_iff hf hk').1 hw) (by omega), rfl⟩
  have hhit : Reachable (sequencer p) (t.poll wn (t.requests.hit wn)) :=
    .step (e := .poll wn) ht ⟨by rw [hposting, h.idle], _, hpoll, rfl⟩
  refine ⟨_, hhit, by rw [← h.idle, ← hposting]; rfl, ?_, fun cn hcn => ?_,
    fun cn hcn => ?_, fun cn hcn => ?_⟩
  · simpa [State.poll, Requests.Model.State.hit] using hpass.hit hf hk'
  · rcases Nat.lt_succ_iff_lt_or_eq.1 hcn with hlt | rfl
    · simpa [State.poll, Requests.Model.State.hit, hpass.cltI, hlt.ne, hother cn hlt.ne] using
        h.sent cn hlt
    · simpa [State.poll, Requests.Model.State.hit, hpass.cltI] using hsent
  · rcases Nat.lt_succ_iff_lt_or_eq.1 hcn with hlt | rfl
    · simpa [State.poll, Requests.Model.State.hit, hpass.cltI, hlt.ne, hother cn hlt.ne] using
        h.answered cn hlt
    · simpa [State.poll, Requests.Model.State.hit, hpass.cltI] using hans
  · have hne : cn ≠ k := (Nat.lt_of_succ_le hcn).ne'
    simpa [State.poll, Requests.Model.State.hit, hpass.cltI, hne, hother cn hne] using
      h.fresh cn (Nat.le_of_succ_le hcn)

theorem reach_collecting (hf : FullGroups p.cfg) (hW : 0 < p.windowSize)
    (wn : Fin p.numWorkers) (hk : k < p.cfg.unsigBatch) : ∃ s : State p, Collecting s wn k := by
  induction k with
  | zero =>
    exact ⟨_, .init rfl, rfl, ⟨rfl, rfl, rfl, rfl, rfl, rfl, rfl⟩,
      fun _ hcn => absurd hcn (Nat.not_lt_zero _), fun _ hcn => absurd hcn (Nat.not_lt_zero _),
      fun _ _ => rfl⟩
  | succ k ih =>
    obtain ⟨s, hs⟩ := ih (Nat.lt_of_succ_lt hk)
    exact hs.next hf hW hk

/-- The worker finds the last request of the group. -/
theorem reach_stuck (hf : FullGroups p.cfg) (hW : 0 < p.windowSize) (wn : Fin p.numWorkers) :
    ∃ s : State p, Reachable (sequencer p) s ∧ Stuck s.requests wn ∧
      ∀ cn < p.cfg.unsigBatch, (s.requests.client cn).past.sent wn = [()] ∧
        (s.requests.client cn).past.answered wn = 0 := by
  have hlast : p.cfg.unsigBatch - 1 < p.cfg.unsigBatch := Nat.pred_lt hf.pos.ne'
  obtain ⟨s, hs⟩ := reach_collecting hf hW wn hlast
  obtain ⟨t, ht, -, hworker, hother, hsent, hdel, hacc, hans⟩ :=
    hs.request (hlast.trans hf.clients)
  have hpass := hs.pass
  rw [← hworker] at hpass
  refine ⟨t, ht, ⟨(hpass.waits_iff hf hlast).2 rfl, hpass.not_canPoll _, ?_⟩, fun cn hcn => ?_⟩
  · rw [hpass.cltI, hacc, hdel]
    exact Nat.one_pos
  · rcases Nat.lt_or_eq_of_le (Nat.le_pred_of_lt hcn) with hlt | rfl
    · rw [hother cn hlt.ne]
      exact ⟨hs.sent cn hlt, hs.answered cn hlt⟩
    · exact ⟨hsent, hans⟩

/-- The requests of the group are not answered in any continuation. -/
theorem reach_unanswered (hf : FullGroups p.cfg) (hW : 0 < p.windowSize)
    (wn : Fin p.numWorkers) :
    ∃ s : State p, Reachable (sequencer p) s ∧
      (∀ cn < p.cfg.unsigBatch, (s.requests.client cn).past.sent wn = [()]) ∧
      ∀ t, Relation.ReflTransGen Moves s t →
        ∀ cn < p.cfg.unsigBatch, numbersOf cn wn t.generated = [] := by
  obtain ⟨s, hs, hstuck, hsent⟩ := reach_stuck hf hW wn
  have hP : 0 < p.cfg.numServerPorts := hf.ports ▸ Nat.one_pos
  refine ⟨s, hs, fun cn hcn => (hsent cn hcn).1, fun t hst cn hcn => ?_⟩
  obtain ⟨ht, -, hans⟩ := stuck_moves hW hf.pos hP (hf.pos.trans hf.clients) hs hstuck hst
  exact numbersOf_eq_nil hf.pos hP ht ((hans cn).trans (hsent cn hcn).2)

end Group

/-! ## All runs -/

/-- All requests sent so far can come to be answered, without another one. -/
def CanAnswer (s : State p) : Prop :=
  ∃ t, Relation.ReflTransGen Continues s t ∧ t.wire = [] ∧ (∀ wn, t.reserved wn = []) ∧
    ∀ cn < p.cfg.numClients, ∀ wn : Fin p.numWorkers, (numbersOf cn wn t.received).length =
      ((s.requests.client cn).past.sent wn).length

theorem not_canAnswer (hf : FullGroups p.cfg) (hW : 0 < p.windowSize)
    (wn : Fin p.numWorkers) : ∃ s : State p, Reachable (sequencer p) s ∧ ¬CanAnswer s := by
  obtain ⟨s, hs, hsent, hnone⟩ := reach_unanswered hf hW wn
  refine ⟨s, hs, fun hall => ?_⟩
  obtain ⟨t, hst, -, -, hnumbers⟩ := hall
  have hmoves : Relation.ReflTransGen Moves s t := by
    refine Relation.ReflTransGen.mono (fun _ _ hstep => ?_) s t hst
    obtain ⟨e, -, hstep⟩ := hstep
    exact ⟨e, hstep⟩
  have hlen := hnumbers 0 (hf.pos.trans hf.clients) wn
  have hzero := congrArg List.length (hnone t hmoves 0 hf.pos)
  rw [hsent 0 hf.pos] at hlen
  rw [State.generated, numbersOf_append, List.length_append, hlen] at hzero
  exact absurd hzero (by simp)

variable {numClients numWorkers windowSize ports postlist : Nat}

/-- In every run, each request is in one place until it is answered once, the
numbers in responses and in batches in progress are those below the counter,
each once, and a worker's numbers for a client increase in the order of its
requests. All requests can come to be answered in every run exactly if no batch
of one port fills a group. -/
theorem every_number_once (hW : 1 ≤ windowSize) (hworkers : 1 ≤ numWorkers)
    (hports : ports ∣ Postlist.Worker.numClients)
    (hp : 1 ≤ postlist ∧ postlist ≤ Postlist.Worker.unsigBatch) :
    (∀ numClients, ∀ s : State (wsSequencer numClients numWorkers windowSize ports postlist),
      Reachable (sequencer (wsSequencer numClients numWorkers windowSize ports postlist)) s →
      (∀ cn < numClients, ∀ wn : Fin numWorkers, Accounted s cn wn) ∧
      s.numbers = Multiset.range s.counter ∧ s.numbers.Nodup ∧
      ∀ cn, ∀ wn : Fin numWorkers, Numbered s cn wn) ∧
    ((∀ s, Reachable (sequencer
        (wsSequencer Postlist.Worker.numClients numWorkers windowSize ports postlist)) s →
      CanAnswer s) ↔ postlist < Postlist.Worker.unsigBatch ∨ 1 < ports) := by
  have hB : 0 < Postlist.Worker.unsigBatch := by decide
  have hP : 0 < ports := Nat.pos_of_dvd_of_pos hports (by decide)
  refine ⟨fun numClients s h => ?_, fun hall => ?_, fun hor s h => ?_⟩
  · have hW : 0 < (wsSequencer numClients numWorkers windowSize ports postlist).windowSize := hW
    have hc := (reachable_counts hB hP h).2
    refine ⟨fun cn hcn wn => reachable_accounted hW hB hP h hcn wn, hc.numbers, ?_, hc.pair⟩
    rw [hc.numbers]
    exact Multiset.nodup_range _
  · by_contra hnot
    have hf : FullGroups
        (wsSequencer Postlist.Worker.numClients numWorkers windowSize ports postlist).cfg :=
      ⟨show ports = 1 by omega, show postlist = Postlist.Worker.unsigBatch by omega, hB,
        show Postlist.Worker.unsigBatch < Postlist.Worker.numClients by decide⟩
    obtain ⟨s, hs, hnone⟩ := not_canAnswer hf hW ⟨0, hworkers⟩
    exact hnone (hall s hs)
  · exact receive_all hW hB hP hp.1 ((wsSequencer_neverStuck hports hp).2 hor) h

/-- Two clients and two workers, with two ports and batches of up to 32. -/
abbrev twoPorts : Program Int Unit := wsSequencer 2 2 32 2 32

/-- Client 0 sends a request to each worker, and client 1 sends one to worker 1. Worker 1
reserves two numbers and worker 0 the next one, then worker 1 posts on both ports. -/
theorem twoPorts_answers : ∃ s : State twoPorts, Reachable (sequencer twoPorts) s ∧
    s.counter = 3 ∧ s.wire = [⟨0, 1, 0⟩, ⟨1, 1, 1⟩] ∧ s.reserved (0 : Fin 2) = [⟨0, 0, 2⟩] := by
  have h1 : Reachable (sequencer twoPorts) _ := .step (e := .send 0 (0 : Fin 2)) (.init rfl)
    ⟨_, ⟨by decide, fun h => absurd h.2 (by decide), rfl⟩, rfl⟩
  have h2 : Reachable (sequencer twoPorts) _ := .step (e := .send 0 (1 : Fin 2)) h1
    ⟨_, ⟨by decide, fun h => absurd h.1 (by decide), rfl⟩, rfl⟩
  have h3 : Reachable (sequencer twoPorts) _ := .step (e := .send 1 (1 : Fin 2)) h2
    ⟨_, ⟨by decide, fun h => absurd h.2 (by decide), rfl⟩, rfl⟩
  have h4 : Reachable (sequencer twoPorts) _ := .step (e := .deliver 0) h3
    ⟨_, ⟨by decide, _, _, rfl, rfl⟩, rfl⟩
  have h5 : Reachable (sequencer twoPorts) _ := .step (e := .deliver 0) h4
    ⟨_, ⟨by decide, _, _, rfl, rfl⟩, rfl⟩
  have h6 : Reachable (sequencer twoPorts) _ := .step (e := .deliver 1) h5
    ⟨_, ⟨by decide, _, _, rfl, rfl⟩, rfl⟩
  have h7 : Reachable (sequencer twoPorts) _ := .step (e := .poll (1 : Fin 2)) h6
    ⟨rfl, _, ⟨by decide, fun h => absurd h.2 (by decide), rfl⟩, rfl⟩
  have h8 : Reachable (sequencer twoPorts) _ := .step (e := .poll (1 : Fin 2)) h7
    ⟨rfl, _, ⟨by decide, fun h => absurd h.2 (by decide), rfl⟩, rfl⟩
  have h9 : Reachable (sequencer twoPorts) _ := .step (e := .fetchAndAdd (1 : Fin 2)) h8
    ⟨rfl, _, ⟨by decide, rfl⟩, rfl⟩
  have h10 : Reachable (sequencer twoPorts) _ := .step (e := .poll (0 : Fin 2)) h9
    ⟨rfl, _, ⟨by decide, fun h => absurd h.2 (by decide), rfl⟩, rfl⟩
  have h11 : Reachable (sequencer twoPorts) _ := .step (e := .poll (0 : Fin 2)) h10
    ⟨rfl, _, ⟨by decide, rfl⟩, rfl⟩
  have h12 : Reachable (sequencer twoPorts) _ := .step (e := .fetchAndAdd (0 : Fin 2)) h11
    ⟨rfl, _, ⟨by decide, rfl⟩, rfl⟩
  have h13 : Reachable (sequencer twoPorts) _ := .step (e := .post (1 : Fin 2)) h12 ⟨0, rfl, rfl⟩
  have h14 : Reachable (sequencer twoPorts) _ := .step (e := .post (1 : Fin 2)) h13 ⟨1, rfl, rfl⟩
  exact ⟨_, h14, rfl, rfl, rfl⟩

theorem every_number_once_twoPorts :
    (∃ s : State twoPorts, s.wire = [⟨0, 1, 0⟩, ⟨1, 1, 1⟩] ∧
      s.reserved (0 : Fin 2) = [⟨0, 0, 2⟩] ∧ s.numbers = Multiset.range 3 ∧
      Accounted s 0 (1 : Fin 2) ∧ Numbered s 1 (1 : Fin 2)) ∧
    ∀ s, Reachable (sequencer (wsSequencer 70 2 32 2 32)) s → CanAnswer s := by
  obtain ⟨hsafe, hanswer⟩ := @every_number_once 2 32 2 32 (by decide) (by decide) (by decide)
    (by decide)
  obtain ⟨s, hs, hcounter, hwire, hreserved⟩ := twoPorts_answers
  obtain ⟨hacc, hnum, -, hpair⟩ := hsafe 2 s hs
  exact ⟨⟨s, hwire, hreserved, hcounter ▸ hnum, hacc 0 (by decide) 1, hpair 1 1⟩,
    hanswer.2 (.inl (by decide))⟩

/-- 64 clients send a request to the only worker. It waits for a completion of the first
response, which it has not posted, and none of them ever gets a response. -/
theorem full_group_unanswered :
    ∃ s : State (wsSequencer 70 1 32 1 64), Reachable (sequencer (wsSequencer 70 1 32 1 64)) s ∧
      (∀ cn < 64, (s.requests.client cn).past.sent (0 : Fin 1) = [()]) ∧
      ∀ t, Relation.ReflTransGen Moves s t → ∀ cn < 64, numbersOf cn 0 t.generated = [] :=
  reach_unanswered (p := wsSequencer 70 1 32 1 64)
    ⟨rfl, rfl, Nat.succ_pos 63, show 64 < 70 by decide⟩ (Nat.succ_pos 31) (0 : Fin 1)

end RdmaBench.WsSequencer.Answers
