import RdmaBench.Lib.Signaling
import RdmaBench.Mlx5.SendRuns

/-! # The queue capacity check

The programs signal every `B`-th request, wait for a completion at fixed places, and
assert that a send queue has room for `2 * B` requests. The driver counts a request
until a completion says that it is done, its own or that of a later one, and refuses
the request that would be one too many. Here both meet: a sender by one of the rules,
the driver and the NIC, in any order of their steps. -/

namespace RdmaBench.Mlx5.Unsignaled
open RdmaBench.Lib RdmaBench.Lib.Admission RdmaBench.Lib.Runs RdmaBench.Lib.Signaling
open RdmaBench.Mlx5.SendQueue RdmaBench.Mlx5.SendRuns
open RdmaBench.Mlx5.PostSend (Errno)

variable {β : Type} {ds : β → Nat} {m B : Nat} {g : Geometry} {r : Rule}

/-- Nothing but the room of the queue is in the way of the request. -/
def Wr.Valid (maxGs : Int) (wr : Wr ds m) : Prop :=
  wr.numSge ≤ maxGs ∧ (Wr.request wr).isSome

/-- `batch` are the requests that have been made and not posted, and `ran` counts those
that the NIC has executed. -/
structure Sender (ds : β → Nat) (maxLines : Nat) where
  sq : State β
  made : Signaling.Queue
  batch : List (Wr ds maxLines)
  ran : Nat

/-- The sender makes a request, after the wait if there is one, it posts the requests
that it has made, or the NIC executes one. -/
inductive Event {β : Type} (ds : β → Nat) (maxLines : Nat) where
  | make (wr : Wr ds maxLines)
  | post (stop : Option (Errno × Nat))
  | execute (blocks : List β)

def sender (r : Rule) (B : Nat) (ds : β → Nat) (g : Geometry) :
    System (Sender ds g.maxLines) (Event ds g.maxLines) where
  init s := (sendQueue ds g).init s.sq ∧ s.made = Signaling.Queue.empty ∧ s.batch = [] ∧ s.ran = 0
  step s e t := match e with
    | .make wr => Wr.Valid g.maxGs wr ∧
      (if r.Polls B s.made.made then ∃ wrId, (sendQueue ds g).step s.sq (.poll wrId) t.sq
        else t.sq = s.sq) ∧
      t = { t with made := s.made.make r B, batch := s.batch ++ [wr], ran := s.ran }
    | .post stop => (sendQueue ds g).step s.sq (.post s.batch stop) t.sq ∧
      t = { t with made := s.made.post, batch := [], ran := s.ran }
    | .execute blocks => (sendQueue ds g).step s.sq (.execute blocks (s.ran % B == 0)) t.sq ∧
      t = { t with made := s.made, batch := s.batch, ran := s.ran + 1 }

/-! ## Which requests are signaled -/

/-- The requests from number `a` on, signaled where the number is a multiple of `B`. -/
def Flagged (B : Nat) : Nat → List (Request ds m × Bool) → Prop
  | _, [] => True
  | a, e :: rest => e.2 = (a % B == 0) ∧ Flagged B (a + 1) rest

theorem Flagged.snoc {a : Nat} {done : List (Request ds m × Bool)} (h : Flagged B a done)
    (req : Request ds m) : Flagged B a (done ++ [(req, (a + done.length) % B == 0)]) := by
  induction done generalizing a with
  | nil => exact ⟨rfl, trivial⟩
  | cons e done ih =>
    refine ⟨h.1, ?_⟩
    rw [List.length_cons, Nat.add_comm done.length, ← Nat.add_assoc]
    exact ih h.2

/-- The next completion is that of the next multiple of `B`. -/
theorem Flagged.next {a : Nat} {done rest : List (Request ds m × Bool)} {wrId : UInt64}
    (h : Flagged B a done) (hnext : next done = some (wrId, rest)) :
    ∃ k, a ≤ k ∧ k % B = 0 ∧ (∀ j, a ≤ j → j < k → j % B ≠ 0) ∧
      a + done.length = k + 1 + rest.length ∧ Flagged B (k + 1) rest := by
  induction done generalizing a with
  | nil => cases hnext
  | cons e done ih =>
    obtain ⟨req, signaled⟩ := e
    obtain ⟨hflag, hrest⟩ := h
    cases signaled with
    | true =>
      cases hnext
      refine ⟨a, Nat.le_refl a, beq_iff_eq.mp hflag.symm, fun j hj hj' => ?_, ?_, hrest⟩
      · omega
      · rw [List.length_cons]
        omega
    | false =>
      obtain ⟨k, hk, hmod, hmin, hlen, hflags⟩ := ih hrest hnext
      refine ⟨k, by omega, hmod, fun j hj hj' => ?_, by rw [List.length_cons]; omega, hflags⟩
      rcases Nat.eq_or_lt_of_le hj with rfl | hlt
      · exact beq_eq_false_iff_ne.mp hflag.symm
      · exact hmin j hlt hj'

/-- The first multiple of `B` that is not known to be done is the one whose completion
comes next. -/
theorem first_unacked {q : Signaling.Queue} {k : Nat} (hB : 0 < B) (hle : q.acked B ≤ k)
    (hmod : k % B = 0) (hmin : ∀ j, q.acked B ≤ j → j < k → j % B ≠ 0) : k = q.next B := by
  have hnext : q.next B % B = 0 := Nat.mul_mod_left _ _
  have hbounds : q.acked B ≤ q.next B ∧ q.next B ≤ k := by
    obtain ⟨d, rfl⟩ := Nat.dvd_of_mod_eq_zero hmod
    unfold Signaling.Queue.acked Signaling.Queue.next at *
    cases hp : q.polled with
    | zero => simp
    | succ c =>
      simp only [hp, Nat.succ_ne_zero, if_false, Nat.add_sub_cancel] at hle ⊢
      have hlt : c < d := Nat.lt_of_mul_lt_mul_left (a := B) (by rw [Nat.mul_comm B c]; omega)
      have hmul : B * (c + 1) ≤ B * d := Nat.mul_le_mul_left B hlt
      rw [Nat.mul_comm (c + 1) B, Nat.mul_succ, Nat.mul_comm B c] at *
      omega
  rcases Nat.eq_or_lt_of_le hbounds.2 with heq | hlt
  · exact heq.symm
  · exact absurd hnext (hmin _ hbounds.1 hlt)

/-! ## What sender, driver and NIC keep -/

/-- The requests in the queue are those that are not known to be done. -/
structure Keeps (r : Rule) (B : Nat) (g : Geometry) (s : Sender ds g.maxLines)
    (q : SendQueue.Queue ds g.maxLines) : Prop where
  related : Related g s.sq q
  follows : s.made.Follows r B
  batch : s.made.posted + s.batch.length = s.made.made
  valid : ∀ wr ∈ s.batch, Wr.Valid g.maxGs wr
  done : s.made.acked B + q.done.length = s.ran
  waiting : s.ran + q.waiting.length = s.made.posted
  flags : Flagged B (s.made.acked B) q.done

theorem acked_make {q : Signaling.Queue} (hp : r.Polls B q.made) :
    (q.make r B).acked B = q.next B + 1 := by
  simp [Signaling.Queue.make, Signaling.Queue.acked, Signaling.Queue.next, hp]

/-- A list of valid requests that has room is posted as a whole. -/
theorem admitted_valid {maxGs : Int} {room : Nat} {wrs : List (Wr ds m)}
    (hvalid : ∀ wr ∈ wrs, Wr.Valid maxGs wr) (hroom : wrs.length ≤ room) :
    (admitted (admits maxGs) room wrs).2 = none ∧
      (admitted (admits maxGs) room wrs).1.length = wrs.length := by
  induction wrs generalizing room with
  | nil => exact ⟨rfl, rfl⟩
  | cons wr rest ih =>
    rw [List.length_cons] at hroom
    obtain ⟨hgs, hreq⟩ := hvalid wr List.mem_cons_self
    obtain ⟨hnone, hlen⟩ := ih (fun wr' hwr => hvalid wr' (List.mem_cons_of_mem _ hwr))
      (show rest.length ≤ room - 1 by omega)
    cases hbuilt : wr.built with
    | error e blocks fits => simp [Wr.request, hbuilt] at hreq
    | wqe req =>
      have hadmit : admits maxGs room wr = .ok req := by
        rw [admits, if_neg (by omega), hbuilt]
      rw [admitted_ok rest hadmit]
      exact ⟨hnone, by rw [List.length_cons, List.length_cons, hlen]⟩

variable {s t : Sender ds g.maxLines} {q : SendQueue.Queue ds g.maxLines} {e : Event ds g.maxLines}

/-- There is always room for the requests that have been made. -/
theorem Keeps.room (h : Keeps r B g s q) (hB : 0 < B) (hdepth : 2 * B - 1 ≤ g.maxPost) :
    s.batch.length ≤ q.room g.maxPost := by
  rw [SendQueue.Queue.room]
  have hunacked : s.made.made - s.made.acked B ≤ 2 * B - 1 := h.follows.unacked_post hB
  have := h.batch
  have := h.done
  have := h.waiting
  omega

/-- No call is stopped. -/
theorem Keeps.not_stopped (h : Keeps r B g s q) (hB : 0 < B) (hdepth : 2 * B - 1 ≤ g.maxPost)
    {stop : Option (Errno × Nat)} {sq : State β}
    (hpost : (sendQueue ds g).step s.sq (.post s.batch stop) sq) : stop = none := by
  obtain ⟨stats, sent, hsent, rfl, -⟩ := hpost
  obtain ⟨p, i, hrep⟩ := h.related
  rw [hrep.stop hsent]
  exact (admitted_valid h.valid (h.room hB hdepth)).1

/-- A request is made. If it polls, the completion is that of the first signaled request
that is not known to be done. -/
theorem Keeps.make (h : Keeps r B g s q) (hB : 0 < B) {wr : Wr ds g.maxLines}
    (hstep : (sender r B ds g).step s (.make wr) t) : ∃ q', Keeps r B g t q' := by
  obtain ⟨hvalid, hpoll, ht⟩ := hstep
  have hvalid' : ∀ wr' ∈ s.batch ++ [wr], Wr.Valid g.maxGs wr' := by
    intro wr' hwr
    rcases List.mem_append.mp hwr with hold | hnew
    · exact h.valid wr' hold
    · rw [List.mem_singleton.mp hnew]
      exact hvalid
  have hbatch : s.made.posted + (s.batch ++ [wr]).length = s.made.made + 1 := by
    rw [List.length_append, List.length_singleton, ← Nat.add_assoc, h.batch]
  rw [ht]
  by_cases hp : r.Polls B s.made.made
  · rw [if_pos hp] at hpoll
    obtain ⟨wrId, hpoll⟩ := hpoll
    obtain ⟨q', ⟨rest, hnext, rfl⟩, hrel⟩ := h.related.step hpoll trivial
    obtain ⟨k, hk, hmod, hmin, hlen, hflags⟩ := h.flags.next hnext
    have hkey := first_unacked hB hk hmod hmin
    have hdone := h.done
    refine ⟨_, hrel, h.follows.make hB, hbatch, hvalid', ?_, h.waiting, ?_⟩
    · show (s.made.make r B).acked B + rest.length = s.ran
      rw [acked_make hp, ← hkey]
      omega
    · show Flagged B ((s.made.make r B).acked B) rest
      rw [acked_make hp, ← hkey]
      exact hflags
  · rw [if_neg hp] at hpoll
    have hacked : (s.made.make r B).acked B = s.made.acked B := by
      simp [Signaling.Queue.make, Signaling.Queue.acked, hp]
    refine ⟨q, hpoll ▸ h.related, h.follows.make hB, hbatch, hvalid', ?_, h.waiting, ?_⟩
    · exact hacked.symm ▸ h.done
    · exact hacked.symm ▸ h.flags

theorem Keeps.execute (h : Keeps r B g s q) {blocks : List β}
    (hstep : (sender r B ds g).step s (.execute blocks) t) : ∃ q', Keeps r B g t q' := by
  obtain ⟨hexec, ht⟩ := hstep
  obtain ⟨q', ⟨req, rest, hwait, -, rfl⟩, hrel⟩ := h.related.step hexec trivial
  have hdone := h.done
  have hwaiting := h.waiting
  rw [ht]
  refine ⟨_, hrel, h.follows, h.batch, h.valid, ?_, ?_, ?_⟩
  · show s.made.acked B + (q.done ++ _).length = s.ran + 1
    rw [List.length_append, List.length_singleton, ← Nat.add_assoc, hdone]
  · show s.ran + 1 + rest.length = s.made.posted
    rw [hwait, List.length_cons] at hwaiting
    omega
  · have hflags := h.flags.snoc req
    rw [hdone] at hflags
    exact hflags

theorem Keeps.step (h : Keeps r B g s q) (hB : 0 < B) (hdepth : 2 * B - 1 ≤ g.maxPost)
    (hstep : (sender r B ds g).step s e t) : ∃ q', Keeps r B g t q' := by
  cases e with
  | make wr => exact h.make hB hstep
  | post stop =>
    obtain ⟨hpost, ht⟩ := hstep
    obtain rfl := h.not_stopped hB hdepth hpost
    obtain ⟨q', ⟨-, -, rfl⟩, hrel⟩ := h.related.step hpost trivial
    obtain ⟨-, hlen⟩ := admitted_valid h.valid (h.room hB hdepth)
    rw [ht]
    refine ⟨_, hrel, h.follows.post, rfl, by simp, h.done, ?_, h.flags⟩
    show s.ran + (q.waiting ++ _).length = s.made.made
    rw [List.length_append, hlen, ← h.batch, ← h.waiting, Nat.add_assoc]
  | execute blocks => exact h.execute hstep

theorem reachable_keeps (hB : 0 < B) (hdepth : 2 * B - 1 ≤ g.maxPost)
    (h : Reachable (sender r B ds g) s) : ∃ q, Keeps r B g s q := by
  induction h with
  | init h0 =>
    obtain ⟨hsq, hmade, hbatch, hran⟩ := h0
    obtain ⟨q, rfl, hrel⟩ := sendQueue_simulates.init _ hsq
    refine ⟨⟨[], []⟩, hrel, hmade ▸ follows_empty r B, ?_, ?_, ?_, ?_, trivial⟩
    · rw [hmade, hbatch]
      rfl
    · simp [hbatch]
    · rw [hmade, hran]
      rfl
    · rw [hmade, hran]
      rfl
  | step _ hstep ih =>
    obtain ⟨q, hkeeps⟩ := ih
    exact hkeeps.step hB hdepth hstep

/-- The driver never refuses a request of a sender that signals every `B`-th request
and waits by one of the rules, if `max_post` is at least `2 * B - 1`. -/
theorem post_never_overflows (hB : 0 < B) (hdepth : 2 * B - 1 ≤ g.maxPost)
    (h : Reachable (sender r B ds g) s) {stop : Option (Errno × Nat)}
    (hstep : (sender r B ds g).step s (.post stop) t) : stop = none := by
  obtain ⟨q, hkeeps⟩ := reachable_keeps hB hdepth h
  exact hkeeps.not_stopped hB hdepth hstep.1

/-- A sender that has made its first request. -/
theorem post_never_overflows_one : ∃ s t stop, Reachable (sender .beforeLast 2 id sixteenBlocks) s ∧
    (sender .beforeLast 2 id sixteenBlocks).step s (.post stop) t ∧ stop = none := by
  have hinit : (sender .beforeLast 2 id sixteenBlocks).init ⟨emptyQueue, .empty, [], 0⟩ :=
    ⟨emptyQueue_init, rfl, rfl, rfl⟩
  have hvalid : Wr.Valid sixteenBlocks.maxGs ⟨2, .wqe twoBlocks⟩ := ⟨by decide, rfl⟩
  have hmake : (sender .beforeLast 2 id sixteenBlocks).step ⟨emptyQueue, .empty, [], 0⟩
      (.make ⟨2, .wqe twoBlocks⟩) ⟨emptyQueue, ⟨1, 0, 0⟩, [⟨2, .wqe twoBlocks⟩], 0⟩ :=
    ⟨hvalid, rfl, rfl⟩
  have hreach := Reachable.step (.init hinit) hmake
  have hpost : (sender .beforeLast 2 id sixteenBlocks).step
      ⟨emptyQueue, ⟨1, 0, 0⟩, [⟨2, .wqe twoBlocks⟩], 0⟩ (.post none) ⟨_, ⟨1, 1, 0⟩, [], 0⟩ :=
    ⟨⟨⟨0, 0⟩, _, rfl, rfl, rfl⟩, rfl⟩
  exact ⟨_, _, _, hreach, hpost, post_never_overflows (by decide) (by decide) hreach hpost⟩

end RdmaBench.Mlx5.Unsignaled
