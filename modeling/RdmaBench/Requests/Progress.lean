import RdmaBench.Requests.Delivery

/-! # Every request can be answered

If no worker gets stuck, every state of a run can be continued, without another
request, to one in which all requests are answered: the WRITEs of a client are
delivered, the worker polls until it comes to the slots of the client, and its
pass ends. A worker that is stuck answers nothing any more. -/

namespace RdmaBench.Requests.Progress
open RdmaBench.Lib.Runs RdmaBench.Lib.Window
open RdmaBench.Postlist.Worker (Polling Waits NeverStuck hrdModAdd)
open RdmaBench.Requests.Model RdmaBench.Requests.Delivery

variable {Slot Req : Type} {p : Program Slot Req} {s t : State p} {cn : Nat}
  {wn : Fin p.numWorkers}

/-- The steps that bring requests towards their answers. -/
inductive Advances (s t : State p) : Prop where
  | deliver (cn : Nat) : Step s (.deliver cn) t → Advances s t
  | poll (wn : Fin p.numWorkers) : Step s (.poll wn) t → Advances s t
  | finish (wn : Fin p.numWorkers) : Step s (.finish wn) t → Advances s t

theorem Advances.reachable (h : Advances s t) (hr : Reachable (system p) s) :
    Reachable (system p) t := by
  cases h with
  | deliver cn h => exact hr.step (e := .deliver cn) h
  | poll wn h => exact hr.step (e := .poll wn) h
  | finish wn h => exact hr.step (e := .finish wn) h

/-- What later states keep of a client. -/
structure Later (s t : State p) (cn : Nat) : Prop where
  sent : (t.client cn).past.sent = (s.client cn).past.sent
  delivered : ∀ wn, (s.client cn).past.delivered wn ≤ (t.client cn).past.delivered wn
  answered : ∀ wn, (s.client cn).past.answered wn ≤ (t.client cn).past.answered wn

theorem Later.refl (s : State p) (cn : Nat) : Later s s cn :=
  ⟨rfl, fun _ => Nat.le_refl _, fun _ => Nat.le_refl _⟩

theorem Later.trans {u : State p} (h : Later s t cn) (h' : Later t u cn) : Later s u cn :=
  ⟨h'.sent.trans h.sent, fun wn => (h.delivered wn).trans (h'.delivered wn),
    fun wn => (h.answered wn).trans (h'.answered wn)⟩

theorem later_hit (s : State p) (wn : Fin p.numWorkers) (cn : Nat) : Later s (s.hit wn) cn := by
  by_cases hc : cn = (s.worker wn).pass.cltI
  · subst hc
    constructor <;> simp [State.hit]
  · constructor <;> simp [State.hit, hc]

theorem later_finish (s : State p) (wn : Fin p.numWorkers) (cn : Nat) :
    Later s (s.finish wn) cn :=
  ⟨rfl, fun _ => Nat.le_refl _, fun _ => le_bump ..⟩

theorem later_deliver (s : State p) (c : Nat) (x : Write p) (rest : List (Write p)) (cn : Nat) :
    Later s (s.deliver c x rest) cn := by
  by_cases hc : cn = c
  · subst hc
    constructor <;> simp [State.deliver, le_bump]
  · constructor <;> simp [State.deliver, hc]

theorem Advances.later (h : Advances s t) (cn : Nat) : Later s t cn := by
  cases h with
  | deliver c h =>
    obtain ⟨-, x, rest, -, rfl⟩ := h
    exact later_deliver s c x rest cn
  | poll wn h =>
    obtain ⟨-, h⟩ := h
    split at h
    · obtain ⟨-, rfl⟩ := h
      exact later_hit s wn cn
    · subst h
      exact ⟨rfl, fun _ => Nat.le_refl _, fun _ => Nat.le_refl _⟩
  | finish wn h =>
    obtain ⟨-, rfl⟩ := h
    exact later_finish s wn cn

theorem advances_later (h : Relation.ReflTransGen Advances s t) (cn : Nat) : Later s t cn := by
  induction h with
  | refl => exact Later.refl s cn
  | tail _ hstep ih => exact ih.trans (hstep.later cn)

/-! ## Delivery -/

theorem deliver_all (hr : Reachable (system p) s) (hcn : cn < p.cfg.numClients) :
    ∃ t, Relation.ReflTransGen Advances s t ∧ Reachable (system p) t ∧
      (t.client cn).wire = [] := by
  refine reach_of_measure (fun s => (s.client cn).wire.length) (fun s h hne => ?_) hr
  obtain ⟨x, rest, hwire⟩ := List.exists_cons_of_ne_nil hne
  have hstep : Advances s (s.deliver cn x rest) := .deliver cn ⟨hcn, x, rest, hwire, rfl⟩
  refine ⟨_, .single hstep, hstep.reachable h, .inr ?_⟩
  simp [State.deliver, hwire]

/-- With no WRITE in flight all requests are delivered. -/
theorem delivered_of_wire (h : PairOk s cn wn) (hwire : (s.client cn).wire = []) :
    ((s.client cn).past.sent wn).length ≤ (s.client cn).past.delivered wn := by
  have hpair := h.wire
  rw [hwire, List.filter_nil] at hpair
  refine List.drop_eq_nil_iff.1 ?_
  cases hd : ((s.client cn).past.sent wn).drop ((s.client cn).past.delivered wn) with
  | nil => rfl
  | cons r rs => rw [hd] at hpair; exact absurd hpair.symm (List.cons_ne_nil _ _)

/-! ## Passes -/

/-- A poll moves on to the next client and answers nothing. -/
theorem poll_moves (h : Step s (.poll wn) t) :
    (t.worker wn).pass.cltI = hrdModAdd (s.worker wn).pass.cltI p.cfg.numClients ∧
    (t.worker wn).pass.pollI = (s.worker wn).pass.pollI + 1 ∧
    ∀ cn, (t.client cn).past.answered = (s.client cn).past.answered ∧
      ((s.client cn).past.accepted wn).length ≤ ((t.client cn).past.accepted wn).length := by
  obtain ⟨-, h⟩ := h
  split at h
  · obtain ⟨-, rfl⟩ := h
    refine ⟨by simp [State.hit, Postlist.Worker.hit, Postlist.Worker.miss],
      by simp [State.hit, Postlist.Worker.hit, Postlist.Worker.miss], fun cn => ?_⟩
    by_cases hc : cn = (s.worker wn).pass.cltI
    · subst hc
      simp [State.hit]
    · simp [State.hit, hc]
  · subst h
    exact ⟨by simp [State.miss, Postlist.Worker.miss], by simp [State.miss, Postlist.Worker.miss],
      fun _ => ⟨rfl, Nat.le_refl _⟩⟩

/-- A poll of a slot with a request accepts it. -/
theorem poll_accepts (h : Step s (.poll wn) t)
    (hreq : p.mailbox.isRequest (s.region (s.nextOffset wn)) = true) :
    ((t.client (s.worker wn).pass.cltI).past.accepted wn).length =
      ((s.client (s.worker wn).pass.cltI).past.accepted wn).length + 1 := by
  obtain ⟨-, h⟩ := h
  rw [if_pos hreq] at h
  obtain ⟨-, rfl⟩ := h
  simp [State.hit]

/-- The end of a pass answers what was accepted. -/
theorem finish_answers (h : PairOk s cn wn) (hc : ClientOk (s.client cn)) :
    ((s.finish wn).client cn).past.answered wn = ((s.client cn).past.accepted wn).length := by
  have hle := hc.flow.answered_le wn
  simp only [stages] at hle
  simp only [State.finish, bump_self, h.answers, Nat.add_sub_cancel' hle]

/-- How many polls there are before that of client `c`, from client `a` on. -/
def pollsUntil (N a c : Nat) : Nat := if a ≤ c then c - a else c + N - a

theorem pollsUntil_lt {N a c : Nat} (ha : a < N) (hc : c < N) (hne : a ≠ c) :
    pollsUntil N (hrdModAdd a N) c < pollsUntil N a c := by
  unfold pollsUntil hrdModAdd
  split <;> split <;> split <;> omega

section
variable (hW : 0 < p.windowSize) (hp : 0 < p.cfg.postlist) (hstuck : NeverStuck p.cfg)
  (hcn : cn < p.cfg.numClients)
include hW hp hstuck hcn

/-- A worker comes to accept a request of a client that has one it did not
answer. -/
theorem accept_next (hr : Reachable (system p) s)
    (h : (s.client cn).past.answered wn < (s.client cn).past.delivered wn) :
    ∃ t, Relation.ReflTransGen Advances s t ∧ Reachable (system p) t ∧
      (t.client cn).past.answered wn < ((t.client cn).past.accepted wn).length := by
  suffices hgoal : ∃ t, Relation.ReflTransGen Advances s t ∧ (Reachable (system p) t ∧
      (t.client cn).past.answered wn < (t.client cn).past.delivered wn) ∧
      (t.client cn).past.answered wn < ((t.client cn).past.accepted wn).length by
    obtain ⟨t, hst, ht, hlt⟩ := hgoal
    exact ⟨t, hst, ht.1, hlt⟩
  refine reach_of_measure (fun s => 2 * pollsUntil p.cfg.numClients (s.worker wn).pass.cltI cn +
    if Polling p.cfg (s.worker wn).pass then 0 else 1) (fun s hs hnot => ?_) ⟨hr, h⟩
  obtain ⟨hr, hlt⟩ := hs
  have hd := reachable_delivers hW hr
  have hclt := hd.cltI wn (Nat.zero_lt_of_lt hcn)
  have hle := (hd.client cn hcn).flow.answered_le wn
  simp only [stages] at hle
  by_cases hpoll : Polling p.cfg (s.worker wn).pass
  · obtain ⟨t, hstep⟩ := poll_of_neverStuck hstuck hr hpoll
    obtain ⟨hclt', -, hans⟩ := poll_moves hstep
    have hadv : Advances s t := .poll wn hstep
    have hlt' : (t.client cn).past.answered wn < (t.client cn).past.delivered wn := by
      rw [(hans cn).1]
      exact Nat.lt_of_lt_of_le hlt ((hadv.later cn).delivered wn)
    refine ⟨t, .single hadv, ⟨hadv.reachable hr, hlt'⟩, ?_⟩
    by_cases heq : (s.worker wn).pass.cltI = cn
    · left
      subst heq
      have hreq := (hd.isRequest_iff hW hcn wn).2 (by omega)
      rw [(hans _).1, poll_accepts hstep hreq]
      exact Nat.lt_succ_of_le hle
    · right
      have := pollsUntil_lt hclt hcn heq
      rw [hclt', if_pos hpoll]
      split <;> omega
  · -- Nothing of this client is in the batch, and a new pass starts.
    have hadv : Advances s (s.finish wn) := .finish wn ⟨hpoll, rfl⟩
    have hans := finish_answers (hd.pair cn hcn wn) (hd.client cn hcn)
    have hnew : Polling p.cfg ((s.finish wn).worker wn).pass := by
      simpa [State.finish, Postlist.Worker.finish, Polling] using
        And.intro (Nat.zero_lt_of_lt hcn) hp
    have hclt' : ((s.finish wn).worker wn).pass.cltI = (s.worker wn).pass.cltI := by
      simp [State.finish, Postlist.Worker.finish]
    refine ⟨_, .single hadv, ⟨hadv.reachable hr, ?_⟩, .inr ?_⟩
    · rw [hans]
      exact Nat.lt_of_le_of_lt (Nat.le_of_not_lt hnot) hlt
    · rw [hclt', if_pos hnew, if_neg hpoll]
      exact Nat.lt_succ_self _

omit hW hp hcn in
/-- The worker gets to the end of its pass before it answers. -/
theorem end_pass (hr : Reachable (system p) s) {a : Nat}
    (h : a < ((s.client cn).past.accepted wn).length) :
    ∃ t, Relation.ReflTransGen Advances s t ∧ (Reachable (system p) t ∧
      a < ((t.client cn).past.accepted wn).length) ∧ ¬Polling p.cfg (t.worker wn).pass := by
  refine reach_of_measure (fun s => p.cfg.numClients - (s.worker wn).pass.pollI)
    (fun s hs hpoll => ?_) ⟨hr, h⟩
  obtain ⟨hr, hlt⟩ := hs
  have hpoll := not_not.1 hpoll
  obtain ⟨t, hstep⟩ := poll_of_neverStuck hstuck hr hpoll
  obtain ⟨-, hpollI, hans⟩ := poll_moves hstep
  have hadv : Advances s t := .poll wn hstep
  refine ⟨t, .single hadv, ⟨hadv.reachable hr, Nat.lt_of_lt_of_le hlt (hans cn).2⟩, .inr ?_⟩
  have := hpoll.1
  omega

/-- A delivered request of a client can be answered. -/
theorem answer_next (hr : Reachable (system p) s)
    (h : (s.client cn).past.answered wn < (s.client cn).past.delivered wn) :
    ∃ t, Relation.ReflTransGen Advances s t ∧ Reachable (system p) t ∧
      (s.client cn).past.answered wn < (t.client cn).past.answered wn := by
  obtain ⟨t, hst, ht, hacc⟩ := accept_next hW hp hstuck hcn hr h
  obtain ⟨u, htu, ⟨hu, hlt⟩, hend⟩ := end_pass hstuck ht hacc
  have hadv : Advances u (u.finish wn) := .finish wn ⟨hend, rfl⟩
  have hd := reachable_delivers hW hu
  refine ⟨_, (hst.trans htu).tail hadv, hadv.reachable hu, ?_⟩
  rw [finish_answers (hd.pair cn hcn wn) (hd.client cn hcn)]
  exact Nat.lt_of_le_of_lt ((advances_later hst cn).answered wn) hlt

/-- A request that was sent can be answered. -/
theorem answer_sent (hr : Reachable (system p) s)
    (h : (s.client cn).past.answered wn < ((s.client cn).past.sent wn).length) :
    ∃ t, Relation.ReflTransGen Advances s t ∧ Reachable (system p) t ∧
      (s.client cn).past.answered wn < (t.client cn).past.answered wn := by
  obtain ⟨t, hst, ht, hwire⟩ := deliver_all hr hcn
  have hlater := advances_later hst cn
  by_cases hmore : (s.client cn).past.answered wn < (t.client cn).past.answered wn
  · exact ⟨t, hst, ht, hmore⟩
  · have hdel := delivered_of_wire ((reachable_delivers hW ht).pair cn hcn wn) hwire
    rw [hlater.sent] at hdel
    have hopen : (t.client cn).past.answered wn < (t.client cn).past.delivered wn :=
      Nat.lt_of_le_of_lt (Nat.le_of_not_lt hmore) (Nat.lt_of_lt_of_le h hdel)
    obtain ⟨u, htu, hu, hlt⟩ := answer_next hW hp hstuck hcn ht hopen
    exact ⟨u, hst.trans htu, hu, Nat.lt_of_le_of_lt (hlater.answered wn) hlt⟩

end

/-! ## All requests -/

/-- The requests that are not answered. -/
def unanswered (s : State p) : Nat :=
  ∑ cn ∈ Finset.range p.cfg.numClients, ∑ wn,
    (((s.client cn).past.sent wn).length - (s.client cn).past.answered wn)

theorem unanswered_lt (h : ∀ cn, Later s t cn) (hcn : cn < p.cfg.numClients)
    (hopen : (s.client cn).past.answered wn < ((s.client cn).past.sent wn).length)
    (hlt : (s.client cn).past.answered wn < (t.client cn).past.answered wn) :
    unanswered t < unanswered s := by
  have hle : ∀ c v, ((t.client c).past.sent v).length - (t.client c).past.answered v ≤
      ((s.client c).past.sent v).length - (s.client c).past.answered v := fun c v => by
    rw [(h c).sent]
    exact Nat.sub_le_sub_left ((h c).answered v) _
  refine Finset.sum_lt_sum (fun c _ => Finset.sum_le_sum fun v _ => hle c v)
    ⟨cn, Finset.mem_range.2 hcn,
      Finset.sum_lt_sum (fun v _ => hle cn v) ⟨wn, Finset.mem_univ _, ?_⟩⟩
  rw [(h cn).sent]
  exact Nat.sub_lt_sub_left hopen hlt

/-- If workers never get stuck, all requests sent so far can be answered, with
no further request. -/
theorem answer_all (hW : 0 < p.windowSize) (hp : 0 < p.cfg.postlist)
    (hstuck : NeverStuck p.cfg) (hr : Reachable (system p) s) :
    ∃ t, Relation.ReflTransGen Advances s t ∧ Reachable (system p) t ∧
      ∀ cn < p.cfg.numClients, ∀ wn,
        (t.client cn).past.answered wn = ((t.client cn).past.sent wn).length := by
  refine reach_of_measure unanswered (fun s hs hopen => ?_) hr
  simp only [not_forall] at hopen
  obtain ⟨cn, hcn, wn, hne⟩ := hopen
  have hlt := Nat.lt_of_le_of_ne
    (((reachable_delivers hW hs).client cn hcn).flow.answered_le_sent wn) hne
  obtain ⟨t, hst, ht, hans⟩ := answer_sent hW hp hstuck hcn hs hlt
  exact ⟨t, hst, ht, .inr (unanswered_lt (advances_later hst) hcn hlt hans)⟩

/-! ## A worker that is stuck -/

/-- Worker `wn` has found a request and waits for a completion that cannot come. -/
structure Stuck (s : State p) (wn : Fin p.numWorkers) : Prop where
  waits : Waits p.cfg (s.worker wn).pass
  blocked : ¬((s.worker wn).pass.queue (s.worker wn).pass.cbI (s.worker wn).pass.udQpI).CanPoll
    p.cfg.unsigBatch
  request : ((s.client (s.worker wn).pass.cltI).past.accepted wn).length <
    (s.client (s.worker wn).pass.cltI).past.delivered wn

/-- What a stuck worker leaves as it is. -/
structure Halts (s t : State p) (wn : Fin p.numWorkers) : Prop where
  worker : t.worker wn = s.worker wn
  accepted : ∀ cn, (t.client cn).past.accepted wn = (s.client cn).past.accepted wn
  delivered : ∀ cn, (s.client cn).past.delivered wn ≤ (t.client cn).past.delivered wn
  answered : ∀ cn, (t.client cn).past.answered wn = (s.client cn).past.answered wn

theorem Stuck.of_halts (h : Stuck s wn) (hst : Halts s t wn) : Stuck t wn := by
  obtain ⟨hwaits, hblocked, hreq⟩ := h
  rw [← hst.worker] at hwaits hblocked hreq
  refine ⟨hwaits, hblocked, ?_⟩
  rw [hst.accepted]
  exact hreq.trans_le (hst.delivered _)

/-- A step of one client, of which the worker takes nothing and to which it answers
nothing. -/
theorem Halts.of_client {cn : Nat} {c : Client p} (hworker : t.worker wn = s.worker wn)
    (hclient : t.client = Function.update s.client cn c)
    (haccepted : c.past.accepted wn = (s.client cn).past.accepted wn)
    (hdelivered : (s.client cn).past.delivered wn ≤ c.past.delivered wn)
    (hanswered : c.past.answered wn = (s.client cn).past.answered wn) : Halts s t wn := by
  refine ⟨hworker, fun x => ?_, fun x => ?_, fun x => ?_⟩
  all_goals
    rw [hclient]
    by_cases hx : x = cn
    · subst hx
      rw [Function.update_self]
      assumption
    · rw [Function.update_of_ne hx]

/-- Clients, the network and the other workers go on. -/
theorem Stuck.halts {e : Event p} (h : Stuck s wn) (hW : 0 < p.windowSize) (hd : Delivers s)
    (hN : 0 < p.cfg.numClients) (hstep : Step s e t) : Halts s t wn := by
  cases e with
  | send cn v r =>
    obtain ⟨-, -, rfl⟩ := hstep
    exact .of_client rfl rfl rfl (Nat.le_refl _) rfl
  | deliver cn =>
    obtain ⟨-, x, rest, -, rfl⟩ := hstep
    exact .of_client rfl rfl rfl (le_bump ..) rfl
  | arrive cn =>
    obtain ⟨-, rfl⟩ := hstep
    exact .of_client rfl rfl rfl (Nat.le_refl _) rfl
  | poll v =>
    obtain ⟨hpoll, hstep⟩ := hstep
    by_cases hv : wn = v
    · -- The slot has a request, and a worker that waits does not take it.
      subst hv
      have hreq : p.mailbox.isRequest (s.region (s.nextOffset wn)) = true :=
        (hd.isRequest_iff hW (hd.cltI wn hN) wn).2 h.request
      rw [if_pos hreq] at hstep
      exact absurd (hstep.1 h.waits) h.blocked
    · split at hstep
      · obtain ⟨-, rfl⟩ := hstep
        exact .of_client (Function.update_of_ne hv ..) rfl (Function.update_of_ne hv ..)
          (Nat.le_refl _) rfl
      · subst hstep
        exact ⟨Function.update_of_ne hv .., fun _ => rfl, fun _ => Nat.le_refl _, fun _ => rfl⟩
  | finish v =>
    obtain ⟨hend, rfl⟩ := hstep
    by_cases hv : wn = v
    · subst hv
      exact absurd h.waits.1 hend
    · exact ⟨Function.update_of_ne hv .., fun _ => rfl, fun _ => Nat.le_refl _,
        fun c => by simp [State.finish, hv]⟩

end RdmaBench.Requests.Progress
