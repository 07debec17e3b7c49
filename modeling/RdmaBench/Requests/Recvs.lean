import RdmaBench.Lib.Buffers
import RdmaBench.Requests.Delivery

/-! # The RECVs of a client

The loop of `run_client` of HERD and of `ws-sequencer`, as far as its responses
go. A client posts `WINDOW_SIZE` RECVs at the start. At every positive multiple
of `WINDOW_SIZE` requests it posts as many again and only then polls that many
completions. Responses arrive at any time after their request was sent. -/

namespace RdmaBench.Requests.Recvs
open RdmaBench.Lib.Runs RdmaBench.Lib.Window RdmaBench.Lib.Buffers
open RdmaBench.Postlist.Worker (hrdQDepth)
open RdmaBench.Requests.Model RdmaBench.Requests.Delivery

/-- Where a client is: filling its RECV queue with `i` RECVs posted, at the head
of its loop, in `hrd_poll_cq` with `k` completions polled, or about to send. -/
inductive Pc where
  | fill (i : Nat)
  | head
  | poll (k : Nat)
  | send
deriving DecidableEq, Repr

structure Receiver where
  nbTx : Nat
  recvs : RecvQueue
  pc : Pc

def Receiver.start : Receiver := ⟨0, RecvQueue.empty, .fill 0⟩

inductive Event where
  | fill
  | refill
  | skip
  | poll
  | send
  | arrive

/-- One step of the client with window `W`, or the arrival of a response to one
of its requests. -/
def Step (W : Nat) (s : Receiver) : Event → Receiver → Prop
  | .fill, t => ∃ i, s.pc = .fill i ∧
    if i < W then t = { s with recvs := s.recvs.post 1, pc := .fill (i + 1) }
    else t = { s with pc := .head }
  | .refill, t => s.pc = .head ∧ MustPoll W s.nbTx ∧
    t = { s with recvs := s.recvs.post W, pc := .poll 0 }
  | .skip, t => s.pc = .head ∧ ¬MustPoll W s.nbTx ∧ t = { s with pc := .send }
  | .poll, t => ∃ k, s.pc = .poll k ∧
    if k < W then 0 < s.recvs.ready ∧ t = { s with recvs := s.recvs.poll 1, pc := .poll (k + 1) }
    else t = { s with pc := .send }
  | .send, t => s.pc = .send ∧ t = { s with nbTx := s.nbTx + 1, pc := .head }
  | .arrive, t => s.recvs.arrived < s.nbTx ∧ t = { s with recvs := s.recvs.arrive }

def receivers (W : Nat) : System Receiver Event where
  init s := s = Receiver.start
  step := Step W

/-! ## The invariant -/

/-- How far the posted RECVs, the polls and the requests are apart. -/
def Aligned (W : Nat) (s : Receiver) : Prop :=
  match s.pc with
  | .fill i => s.nbTx = 0 ∧ s.recvs.polled = 0 ∧ s.recvs.posted = i ∧ i ≤ W
  | .head => s.recvs.posted = s.recvs.polled + W ∧ W ∣ s.recvs.polled ∧
    s.recvs.polled ≤ s.nbTx ∧ (s.recvs.polled = s.nbTx → s.nbTx = 0) ∧
    s.nbTx ≤ s.recvs.polled + W
  | .poll k => ∃ m, s.recvs.polled = m + k ∧ k ≤ W ∧ W ∣ m ∧ s.nbTx = m + W ∧
    s.recvs.posted = m + 2 * W
  | .send => s.recvs.posted = s.recvs.polled + W ∧ W ∣ s.recvs.polled ∧
    s.recvs.polled ≤ s.nbTx ∧ s.nbTx < s.recvs.polled + W

structure RecvInv (W : Nat) (s : Receiver) : Prop where
  aligned : Aligned W s
  covers : s.recvs.Covers (s.nbTx - s.recvs.consumed)
  consumed_le : s.recvs.consumed ≤ s.nbTx

variable {W : Nat} {s t : Receiver}

/-- More RECVs cover as much as before. -/
theorem covers_post {q : RecvQueue} {n k : Nat} (h : q.Covers n) : (q.post k).Covers n :=
  (h.post k).mono (Nat.le_add_right _ _)

theorem RecvInv.fill (h : RecvInv W s) (hstep : Step W s .fill t) : RecvInv W t := by
  obtain ⟨i, hpc, ht⟩ := hstep
  obtain ⟨halign, hcov, hle⟩ := h
  simp only [Aligned, hpc] at halign
  obtain ⟨h0, hp, hposted, hi⟩ := halign
  split at ht
  · next hlt =>
    subst ht
    exact ⟨⟨h0, hp, congrArg (· + 1) hposted, hlt⟩, covers_post hcov, hle⟩
  · next hge =>
    subst ht
    refine ⟨⟨?_, ?_, ?_, fun _ => h0, ?_⟩, hcov, hle⟩
    · show s.recvs.posted = s.recvs.polled + W
      omega
    · show W ∣ s.recvs.polled
      rw [hp]
      exact Nat.dvd_zero W
    · exact hp ▸ Nat.zero_le _
    · exact h0 ▸ Nat.zero_le _

/-- The client posts a window of RECVs with a window of responses not polled. -/
theorem RecvInv.refill (h : RecvInv W s) (hstep : Step W s .refill t) : RecvInv W t := by
  obtain ⟨hpc, hmust, rfl⟩ := hstep
  obtain ⟨halign, hcov, hle⟩ := h
  simp only [Aligned, hpc] at halign
  obtain ⟨hposted, hdvd, hlow, hne, hup⟩ := halign
  -- The next multiple of `W` after the last poll has been reached.
  have hfull : s.nbTx = s.recvs.polled + W := by
    obtain ⟨hmod, hpos⟩ := hmust
    have hrest : W ∣ s.nbTx - s.recvs.polled := Nat.dvd_sub (Nat.dvd_of_mod_eq_zero hmod) hdvd
    have hmore : 0 < s.nbTx - s.recvs.polled := by
      rcases Nat.eq_or_lt_of_le hlow with heq | hlt
      · exact absurd (hne heq) (Nat.ne_of_gt hpos)
      · omega
    have := Nat.le_of_dvd hmore hrest
    omega
  refine ⟨⟨s.recvs.polled, rfl, Nat.zero_le _, hdvd, hfull, ?_⟩, covers_post hcov, hle⟩
  show s.recvs.posted + W = s.recvs.polled + 2 * W
  omega

theorem RecvInv.skip (h : RecvInv W s) (hW : 0 < W) (hstep : Step W s .skip t) :
    RecvInv W t := by
  obtain ⟨hpc, hmust, rfl⟩ := hstep
  obtain ⟨halign, hcov, hle⟩ := h
  simp only [Aligned, hpc] at halign
  obtain ⟨hposted, hdvd, hlow, hne, hup⟩ := halign
  refine ⟨⟨hposted, hdvd, hlow, ?_⟩, hcov, hle⟩
  -- A full window would be a positive multiple of `W`.
  show s.nbTx < s.recvs.polled + W
  refine lt_of_le_of_ne hup fun heq => ?_
  rcases Nat.eq_zero_or_pos s.nbTx with h0 | hpos
  · omega
  · refine hmust ⟨Nat.mod_eq_zero_of_dvd ?_, hpos⟩
    rw [heq]
    exact (Nat.dvd_add_self_right).2 hdvd

theorem RecvInv.poll (h : RecvInv W s) (hW : 0 < W) (hstep : Step W s .poll t) :
    RecvInv W t := by
  obtain ⟨k, hpc, ht⟩ := hstep
  obtain ⟨halign, hcov, hle⟩ := h
  simp only [Aligned, hpc] at halign
  obtain ⟨m, hpolled, hk, hdvd, hnb, hposted⟩ := halign
  split at ht
  · next hlt =>
    obtain ⟨hready, rfl⟩ := ht
    refine ⟨⟨m, ?_, hlt, hdvd, hnb, hposted⟩, hcov.poll hready, hle⟩
    show s.recvs.polled + 1 = m + (k + 1)
    omega
  · subst ht
    have hkW : k = W := by omega
    subst hkW
    refine ⟨⟨?_, ?_, ?_, ?_⟩, hcov, hle⟩
    · show s.recvs.posted = s.recvs.polled + k
      omega
    · show k ∣ s.recvs.polled
      rw [hpolled]
      exact (Nat.dvd_add_self_right).2 hdvd
    · show s.recvs.polled ≤ s.nbTx
      omega
    · show s.nbTx < s.recvs.polled + k
      omega

theorem RecvInv.send (h : RecvInv W s) (hstep : Step W s .send t) : RecvInv W t := by
  obtain ⟨hpc, rfl⟩ := hstep
  obtain ⟨halign, hcov, hle⟩ := h
  simp only [Aligned, hpc] at halign
  obtain ⟨hposted, hdvd, hlow, hup⟩ := halign
  refine ⟨⟨hposted, hdvd, Nat.le_succ_of_le hlow, ?_, hup⟩, ⟨hcov.dropped, hcov.polled_le, ?_⟩,
    Nat.le_succ_of_le hle⟩
  · show s.recvs.polled = s.nbTx + 1 → s.nbTx + 1 = 0
    omega
  · -- There is a RECV for the new request: a window of them is not polled.
    show s.recvs.consumed + (s.nbTx + 1 - s.recvs.consumed) ≤ s.recvs.posted
    omega

theorem RecvInv.arrive (h : RecvInv W s) (hstep : Step W s .arrive t) : RecvInv W t := by
  obtain ⟨hlt, rfl⟩ := hstep
  obtain ⟨halign, hcov, hle⟩ := h
  rw [hcov.arrived_eq] at hlt
  have hcov' : s.recvs.Covers (s.nbTx - (s.recvs.consumed + 1) + 1) := hcov.mono (by omega)
  have heq := hcov'.arrive_eq
  refine ⟨?_, ?_, ?_⟩
  · show Aligned W { s with recvs := s.recvs.arrive }
    rw [heq]
    exact halign
  · have hcov'' := hcov'.arrive
    show (s.recvs.arrive).Covers (s.nbTx - s.recvs.arrive.consumed)
    rw [heq] at hcov'' ⊢
    exact hcov''
  · show s.recvs.arrive.consumed ≤ s.nbTx
    rw [heq]
    exact hlt

theorem receivers_inv (hW : 0 < W) (h : Reachable (receivers W) s) : RecvInv W s := by
  refine h.invariant (P := RecvInv W) ?_ ?_
  · intro s hs
    rw [show s = _ from hs]
    exact ⟨⟨rfl, rfl, rfl, Nat.zero_le _⟩, covers_empty, Nat.le_refl _⟩
  · intro s e t _ ih hstep
    cases e with
    | fill => exact ih.fill hstep
    | refill => exact ih.refill hstep
    | skip => exact ih.skip hW hstep
    | poll => exact ih.poll hW hstep
    | send => exact ih.send hstep
    | arrive => exact ih.arrive hstep

theorem reach_filled (W : Nat) : Reachable (receivers W) ⟨0, ⟨W, 0, 0, 0⟩, .head⟩ := by
  have hfill : ∀ i ≤ W, Reachable (receivers W) ⟨0, ⟨i, 0, 0, 0⟩, .fill i⟩ := by
    intro i hi
    induction i with
    | zero => exact .init rfl
    | succ i ih => exact .step (e := .fill) (ih (Nat.le_of_succ_le hi)) ⟨i, rfl, if_pos hi ▸ rfl⟩
  exact .step (e := .fill) (hfill W (Nat.le_refl _)) ⟨W, rfl, if_neg (Nat.lt_irrefl _) ▸ rfl⟩

/-- A client that finds `j` completions polls them. -/
theorem reach_polled {n j : Nat} {q : RecvQueue} (h : Reachable (receivers W) ⟨n, q, .poll 0⟩)
    (hj : j ≤ W) (hready : j ≤ q.ready) : Reachable (receivers W) ⟨n, q.poll j, .poll j⟩ := by
  induction j with
  | zero => exact h
  | succ j ih =>
    have hpre := ih (Nat.le_of_succ_le hj) (Nat.le_of_succ_le hready)
    refine .step (e := .poll) hpre ⟨j, rfl, ?_⟩
    rw [if_pos (Nat.lt_of_succ_le hj)]
    refine ⟨?_, rfl⟩
    show 0 < q.consumed - (q.polled + j)
    unfold RecvQueue.ready at hready
    omega

/-- At every moment the RECVs that are posted and not taken cover the responses
still to come, no more than two windows of RECVs are posted and not polled, and
a blocking poll waits for responses to requests that were sent. -/
theorem recvs_cover_responses (hW : 1 ≤ W) (hQ : 2 * W ≤ hrdQDepth)
    (h : Reachable (receivers W) s) :
    s.nbTx - s.recvs.arrived ≤ s.recvs.free ∧
    s.recvs.posted - s.recvs.polled ≤ 2 * W ∧ s.recvs.free ≤ hrdQDepth ∧
    s.recvs.dropped = 0 ∧
    ∀ k, s.pc = .poll k → s.recvs.polled + (W - k) ≤ s.nbTx := by
  obtain ⟨halign, hcov, hle⟩ := receivers_inv hW h
  have hheld : s.recvs.posted - s.recvs.polled ≤ 2 * W := by
    unfold Aligned at halign
    split at halign
    · omega
    · omega
    · obtain ⟨m, h1, h2, h3, h4, h5⟩ := halign
      omega
    · omega
  have hpolled := hcov.polled_le
  refine ⟨?_, hheld, ?_, hcov.dropped, ?_⟩
  · rw [hcov.arrived_eq]
    exact hcov.le_free
  · unfold RecvQueue.free
    omega
  · intro k hpc
    simp only [Aligned, hpc] at halign
    obtain ⟨m, h1, h2, h3, h4, h5⟩ := halign
    omega

/-- A client with a window of one in the poll before its second request. -/
theorem recvs_cover_responses_secondRequest : ∃ s : Receiver, s.pc = .poll 0 ∧ s.nbTx = 1 ∧
    s.nbTx - s.recvs.arrived ≤ s.recvs.free := by
  have h1 : Reachable (receivers 1) _ := .step (e := .skip) (reach_filled 1)
    ⟨rfl, fun h => absurd h.2 (Nat.lt_irrefl 0), rfl⟩
  have h2 : Reachable (receivers 1) _ := .step (e := .send) h1 ⟨rfl, rfl⟩
  have h3 : Reachable (receivers 1) _ := .step (e := .refill) h2 ⟨rfl, ⟨rfl, Nat.one_pos⟩, rfl⟩
  exact ⟨_, rfl, rfl, (recvs_cover_responses (Nat.le_refl 1) (by decide) h3).1⟩

/-! ## The clients of a whole run -/

variable {Slot Req : Type} {p : Program Slot Req} {u : State p} {cn : Nat}

/-- The receiver that a client of the protocol is between two requests. -/
structure Between (c : Client p) (r : Receiver) : Prop where
  pc : r.pc = .head
  nbTx : r.nbTx = c.nbTx
  polled : r.recvs.polled = c.past.polled
  consumed : r.recvs.consumed = c.past.polled + c.arrived

/-- A request, with the poll before it, is what a receiver does from one head of
its loop to the next. -/
theorem Between.send {c : Client p} {r : Receiver} {wn : Fin p.numWorkers} {req : Req}
    (hb : Between c r) (hr : Reachable (receivers p.windowSize) r)
    (hpoll : MustPoll p.windowSize c.nbTx → p.windowSize ≤ c.arrived) :
    ∃ r', Reachable (receivers p.windowSize) r' ∧ Between (c.send cn wn req) r' := by
  obtain ⟨hpc, hnb, hpolled, hcons⟩ := hb
  obtain ⟨n, q, pc⟩ := r
  simp only at hpc hnb hpolled hcons
  subst hpc hnb
  by_cases hmust : MustPoll p.windowSize c.nbTx
  · have hroom := hpoll hmust
    have h1 : Reachable (receivers p.windowSize) ⟨c.nbTx, q.post p.windowSize, .poll 0⟩ :=
      .step (e := .refill) hr ⟨rfl, hmust, rfl⟩
    have h2 := reach_polled h1 (Nat.le_refl _) (by
      show p.windowSize ≤ q.consumed - q.polled
      omega)
    have h3 : Reachable (receivers p.windowSize)
        ⟨c.nbTx, (q.post p.windowSize).poll p.windowSize, .send⟩ :=
      .step (e := .poll) h2 ⟨_, rfl, if_neg (Nat.lt_irrefl _) ▸ rfl⟩
    refine ⟨_, .step (e := .send) h3 ⟨rfl, rfl⟩, rfl, rfl, ?_, ?_⟩
    · simp only [Client.send, if_pos hmust]
      exact congrArg (· + p.windowSize) hpolled
    · simp only [Client.send, if_pos hmust]
      show q.consumed = _
      omega
  · have h1 : Reachable (receivers p.windowSize) ⟨c.nbTx, q, .send⟩ :=
      .step (e := .skip) hr ⟨rfl, hmust, rfl⟩
    refine ⟨_, .step (e := .send) h1 ⟨rfl, rfl⟩, rfl, rfl, ?_, ?_⟩
    · simp only [Client.send, if_neg hmust]
      exact hpolled
    · simp only [Client.send, if_neg hmust]
      exact hcons

/-- A response that arrives takes a RECV. -/
theorem Between.arrive {c : Client p} {r : Receiver} (hb : Between c r) (hok : ClientOk c)
    (hW : 0 < p.windowSize) (hr : Reachable (receivers p.windowSize) r) (h0 : 0 < c.responses) :
    ∃ r', Reachable (receivers p.windowSize) r' ∧ Between c.arrive r' := by
  have hinv := receivers_inv hW hr
  have hlt : r.recvs.consumed < r.nbTx := by
    have hresp := hok.responses
    have hle : ∑ wn, c.past.answered wn ≤ ∑ wn, (c.past.sent wn).length :=
      Finset.sum_le_sum fun wn _ => hok.flow.answered_le_sent wn
    rw [hb.consumed, hb.nbTx, hok.nbTx]
    omega
  have hstep : Step p.windowSize r .arrive { r with recvs := r.recvs.arrive } :=
    ⟨hinv.covers.arrived_eq ▸ hlt, rfl⟩
  have hcov : r.recvs.Covers (r.nbTx - (r.recvs.consumed + 1) + 1) :=
    hinv.covers.mono (by omega)
  refine ⟨_, .step (e := .arrive) hr hstep, hb.pc, hb.nbTx, ?_, ?_⟩
  · show r.recvs.arrive.polled = _
    rw [hcov.arrive_eq]
    exact hb.polled
  · show r.recvs.arrive.consumed = _
    rw [hcov.arrive_eq]
    exact congrArg (· + 1) hb.consumed

/-- In every run of clients and workers, each client is a receiver: no response
of a worker arrives without a RECV. -/
theorem reachable_receiver (hW : 0 < p.windowSize) (h : Reachable (system p) u)
    (hcn : cn < p.cfg.numClients) :
    ∃ r, Reachable (receivers p.windowSize) r ∧ Between (u.client cn) r := by
  refine h.invariant
    (P := fun u => ∃ r, Reachable (receivers p.windowSize) r ∧ Between (u.client cn) r) ?_ ?_
  · intro u hu
    rw [show u = _ from hu]
    exact ⟨_, reach_filled _, rfl, rfl, rfl, rfl⟩
  · intro u e v hreach ih hstep
    obtain ⟨r, hr, hb⟩ := ih
    cases e with
    | send cn' wn req =>
      obtain ⟨-, hpoll, rfl⟩ := hstep
      by_cases hc : cn = cn'
      · subst hc
        simp only [Function.update_self]
        exact hb.send hr hpoll
      · simp only [Function.update_of_ne hc]
        exact ⟨r, hr, hb⟩
    | deliver cn' =>
      obtain ⟨-, x, rest, -, rfl⟩ := hstep
      refine ⟨r, hr, ?_⟩
      by_cases hc : cn = cn'
      · subst hc
        simp only [State.deliver, Function.update_self]
        exact ⟨hb.pc, hb.nbTx, hb.polled, hb.consumed⟩
      · simpa only [State.deliver, Function.update_of_ne hc] using hb
    | arrive cn' =>
      obtain ⟨h0, rfl⟩ := hstep
      by_cases hc : cn = cn'
      · subst hc
        simp only [Function.update_self]
        exact hb.arrive ((reachable_delivers hW hreach).client cn hcn) hW hr h0
      · simp only [Function.update_of_ne hc]
        exact ⟨r, hr, hb⟩
    | poll wn =>
      obtain ⟨-, hstep⟩ := hstep
      refine ⟨r, hr, ?_⟩
      split at hstep
      · obtain ⟨-, rfl⟩ := hstep
        by_cases hc : cn = (u.worker wn).pass.cltI
        · simp only [State.hit, ← hc, Function.update_self]
          exact ⟨hb.pc, hb.nbTx, hb.polled, hb.consumed⟩
        · simpa only [State.hit, Function.update_of_ne hc] using hb
      · subst hstep
        exact hb
    | finish wn =>
      obtain ⟨-, rfl⟩ := hstep
      exact ⟨r, hr, hb.pc, hb.nbTx, hb.polled, hb.consumed⟩

end RdmaBench.Requests.Recvs
