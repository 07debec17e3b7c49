import RdmaBench.Mlx5.SendQueue

/-! # Whole runs of a send queue

Calls of `__mlx5_post_send`, the NIC and polls in any order. The queue pair checks for
overflow and rings its own doorbell, and no call is stopped after it has posted
something. -/

namespace RdmaBench.Mlx5.SendRuns
open RdmaBench.Lib.Admission RdmaBench.Lib.Runs RdmaBench.Lib.Simulation
open RdmaBench.Mlx5.PostSend RdmaBench.Mlx5.SendQueue

variable {β : Type} {ds : β → Nat} {m : Nat} {g : Geometry} {s : State β} {p i : Nat}
  {q q' : Queue ds g.maxLines} {ls : List (Label ds g.maxLines)}

/-- The NIC finds the doorbell record different from its index exactly if there is a
WQE that it has not executed. A queue of `2 ^ 16` blocks would look empty when it is
full. -/
theorem idle_iff (h : Represents g s q p i) : s.ci = s.db ↔ q.waiting = [] := by
  rw [h.ci, h.db, Queue.live, extent_append, ← UInt16.toNat_inj, UInt16.toNat_ofNat',
    UInt16.toNat_ofNat']
  constructor
  · intro heq
    cases hw : q.waiting with
    | nil => rfl
    | cons r rest =>
      have hpos := r.lines_pos
      have hn := g.n_le
      have hlive := h.live_length.2
      rw [Queue.live, extent_append, hw, extent_cons] at hlive
      rw [hw, extent_cons] at heq
      omega
  · intro hw
    rw [hw, extent_nil, Nat.add_zero]

/-! A queue of 16 blocks for requests of up to two blocks, with BlueFlame. The first block
of a WQE is its size. -/

def sixteenBlocks : Geometry := ⟨4, by omega, 8, 2, 4, Nat.two_pos, by decide⟩

def oneBlock : Request id sixteenBlocks.maxLines where
  wrId := 7
  wqe := ⟨2, Nat.two_pos⟩
  blocks := [2]
  lines := rfl
  size _ h := (Option.some.inj h).symm
  fits := Nat.le_succ 1

def twoBlocks : Request id sixteenBlocks.maxLines where
  wrId := 8
  wqe := ⟨6, Nat.succ_pos 5⟩
  blocks := [6, 9]
  lines := rfl
  size _ h := (Option.some.inj h).symm
  fits := Nat.le_refl 2

/-- `post_send_one` fails when it has written a block. -/
def badOpcode : Wr id sixteenBlocks.maxLines := ⟨1, .error 22 [5] (Nat.le_succ 1)⟩

def emptyQueue : State Nat where
  qp := { smallQp .bf with maxPost := 8 }
  ring := ⟨fun _ => 0, fun _ => 0, fun _ => 0⟩
  db := 0
  copy := none
  ci := 0
  cq := []

theorem emptyQueue_init : (sendQueue id sixteenBlocks).init emptyQueue :=
  ⟨⟨by decide, by decide, rfl, rfl, rfl⟩, rfl, rfl, rfl, rfl, rfl, rfl, rfl⟩

/-- A request that cannot be built, then two that are posted together. Only the second one
of them is signaled, and the NIC executes its copy. -/
def copiedRun : List (Label id sixteenBlocks.maxLines) :=
  [.post [badOpcode] (some (22, 1)), .post [⟨1, .wqe oneBlock⟩, ⟨2, .wqe twoBlocks⟩] none,
    .execute [2] false, .execute [6, 9] true, .poll 8]

theorem run_copied : ∃ s, Run (sendQueue id sixteenBlocks) copiedRun s ∧ s.ci = s.db ∧
    s.cq = [] := by
  have hrefused := Run.snoc (.nil emptyQueue_init)
    (e := Label.post [badOpcode] (some (22, 1))) ⟨⟨0, 0⟩, _, rfl, rfl, rfl⟩
  have hposted := Run.snoc hrefused
    (e := Label.post [⟨1, .wqe oneBlock⟩, ⟨2, .wqe twoBlocks⟩] none) ⟨⟨0, 0⟩, _, rfl, rfl, rfl⟩
  have hfirst := Run.snoc hposted (e := Label.execute [2] false)
    ⟨by decide, .inl (by decide), rfl⟩
  have hsecond := Run.snoc hfirst (e := Label.execute [6, 9] true)
    ⟨by decide, .inr ⟨by decide, by decide⟩, rfl⟩
  exact ⟨_, .snoc hsecond (e := Label.poll 8) ⟨1, [], by decide, by decide, rfl⟩, by decide, rfl⟩

theorem copiedRun_whole : ∀ e ∈ copiedRun, e.Whole := by
  simp [copiedRun, Label.Whole]

/-- Whatever the order of calls, executions and polls: it is an order in which a queue
with room for `max_post` requests can be used, with the same results. The NIC sees that
the queue is not empty exactly when it is not. -/
theorem send_run_queue (h : Run (sendQueue ds g) ls s) (hwhole : ∀ e ∈ ls, e.Whole) :
    ∃ q, Run (queue ds g) ls q ∧ Related g s q ∧ (s.ci = s.db ↔ q.waiting = []) := by
  obtain ⟨q, hrun, hrel⟩ := sendQueue_simulates.run (h.only fun e he _ => hwhole e he)
  obtain ⟨p, i, hrep⟩ := hrel
  exact ⟨q, hrun, ⟨p, i, hrep⟩, idle_iff hrep⟩

theorem send_run_queue_copied :
    ∃ q, Run (queue id sixteenBlocks) copiedRun q ∧ q.waiting = [] := by
  obtain ⟨s, hs, hidle, -⟩ := run_copied
  obtain ⟨q, hq, -, hwaiting⟩ := send_run_queue hs copiedRun_whole
  exact ⟨q, hq, hwaiting.mp hidle⟩

/-- After a call that is stopped when it has posted a request, the copy is the block
behind the WQE, and the NIC executes what has not been posted. -/
example : ∃ s, Run (sendQueue id sixteenBlocks)
    [.post [⟨1, .wqe oneBlock⟩, badOpcode] (some (22, 1)), .execute [5] true] s := by
  have hposted := Run.snoc (.nil emptyQueue_init)
    (e := Label.post [⟨1, .wqe oneBlock⟩, badOpcode] (some (22, 1))) ⟨⟨0, 0⟩, _, rfl, rfl, rfl⟩
  exact ⟨_, .snoc hposted ⟨by decide, .inr ⟨by decide, by decide⟩, rfl⟩⟩

/-! ## What is executed, and what is polled -/

def Wr.request (wr : Wr ds m) : Option (Request ds m) :=
  match wr.built with
  | .wqe r => some r
  | .error _ _ _ => none

/-- The requests before `*bad_wr`. -/
def accepted : Label ds m → List (Request ds m)
  | .post wrs stop => (before wrs stop).filterMap Wr.request
  | _ => []

def ran : Label ds m → List (List β × Bool)
  | .execute blocks signaled => [(blocks, signaled)]
  | _ => []

def polled : Label ds m → List UInt64
  | .poll wrId => [wrId]
  | _ => []

/-- The completions of executed requests. -/
def completions (executed : List (Request ds m × Bool)) : List UInt64 :=
  (executed.filter Prod.snd).map fun e => e.1.wrId

theorem completions_append (executed executed' : List (Request ds m × Bool)) :
    completions (executed ++ executed') = completions executed ++ completions executed' := by
  simp [completions]

theorem request_of_admits {maxGs : Int} {room : Nat} {wr : Wr ds m} {r : Request ds m}
    (h : admits maxGs room wr = .ok r) : Wr.request wr = some r := by
  rw [admits] at h
  split at h
  · cases h
  · cases hbuilt : wr.built with
    | error e blocks fits =>
      rw [hbuilt] at h
      cases h
    | wqe req =>
      rw [hbuilt] at h
      rw [Wr.request, hbuilt, Except.ok.inj h]

theorem next_completions {done rest : List (Request ds m × Bool)} {wrId : UInt64}
    (h : next done = some (wrId, rest)) : completions done = wrId :: completions rest := by
  induction done with
  | nil => cases h
  | cons e done ih =>
    obtain ⟨r, signaled⟩ := e
    cases signaled with
    | true =>
      cases h
      simp [completions]
    | false =>
      have hih := ih h
      simpa [completions] using hih

/-- The requests executed so far account for what has been posted, run and polled. -/
structure Accounts (ls : List (Label ds m)) (q : Queue ds m)
    (executed : List (Request ds m × Bool)) : Prop where
  posted : executed.map Prod.fst ++ q.waiting = ls.flatMap accepted
  run : ls.flatMap ran = executed.map fun e => (e.1.blocks, e.2)
  polls : ls.flatMap polled ++ completions q.done = completions executed

theorem Accounts.step {executed : List (Request ds g.maxLines × Bool)} {e : Label ds g.maxLines}
    (h : Accounts ls q executed) (hstep : (queue ds g).step q e q') :
    ∃ executed', Accounts (ls ++ [e]) q' executed' := by
  cases e with
  | post wrs stop =>
    obtain ⟨-, rfl, rfl⟩ := hstep
    refine ⟨executed, ?_, ?_, ?_⟩
    · rw [List.flatMap_append, List.flatMap_singleton, accepted,
        ← admitted_eq_before fun _ _ _ => request_of_admits, ← h.posted, List.append_assoc]
    · simpa [ran] using h.run
    · simpa [polled] using h.polls
  | execute blocks signaled =>
    obtain ⟨r, rest, hwait, rfl, rfl⟩ := hstep
    refine ⟨executed ++ [(r, signaled)], ?_, ?_, ?_⟩
    · simpa [accepted, hwait] using h.posted
    · simpa [ran] using h.run
    · rw [completions_append, completions_append, ← h.polls]
      simp [polled]
  | poll wrId =>
    obtain ⟨rest, hnext, rfl⟩ := hstep
    have hpolls := h.polls
    rw [next_completions hnext] at hpolls
    refine ⟨executed, ?_, ?_, ?_⟩
    · simpa [accepted] using h.posted
    · simpa [ran] using h.run
    · simpa [polled] using hpolls

theorem queue_accounts (h : Run (queue ds g) ls q) : ∃ executed, Accounts ls q executed := by
  induction h with
  | nil h0 =>
    rw [show _ = _ from h0]
    exact ⟨[], rfl, rfl, rfl⟩
  | snoc _ hstep ih =>
    obtain ⟨executed, haccounts⟩ := ih
    exact haccounts.step hstep

theorem completions_of_entries {done : List (Request ds m × Bool)} (h : entries p done = []) :
    completions done = [] := by
  induction done generalizing p with
  | nil => rfl
  | cons e done ih =>
    obtain ⟨r, signaled⟩ := e
    cases signaled with
    | true => cases h
    | false => simpa [completions] using ih h

/-- The NIC executes the WQEs of the requests that calls have posted, as they were
written, each once and in their order, whether it reads them or has got a copy. The
completions that are polled carry the `wr_id` of the executed requests that were
signaled, again in order. When the NIC is idle nothing is left out, and when there is
no entry everything has been polled. -/
theorem executed_as_posted (h : Run (sendQueue ds g) ls s) (hwhole : ∀ e ∈ ls, e.Whole) :
    ∃ executed : List (Request ds g.maxLines × Bool),
      ls.flatMap ran = executed.map (fun e => (e.1.blocks, e.2)) ∧
      executed.map Prod.fst <+: ls.flatMap accepted ∧
      (s.ci = s.db → executed.map Prod.fst = ls.flatMap accepted) ∧
      ls.flatMap polled <+: completions executed ∧
      (s.cq = [] → ls.flatMap polled = completions executed) := by
  obtain ⟨q, hrun, p, i, hrep⟩ := sendQueue_simulates.run (h.only fun e he _ => hwhole e he)
  obtain ⟨executed, haccounts⟩ := queue_accounts hrun
  refine ⟨executed, haccounts.run, ⟨_, haccounts.posted⟩, fun hidle => ?_, ⟨_, haccounts.polls⟩,
    fun hcq => ?_⟩
  · have hposted := haccounts.posted
    rwa [(idle_iff hrep).mp hidle, List.append_nil] at hposted
  · have hpolls := haccounts.polls
    rwa [completions_of_entries (hrep.cq.symm.trans hcq), List.append_nil] at hpolls

theorem executed_as_posted_copied :
    ∃ executed : List (Request id sixteenBlocks.maxLines × Bool),
      [([2], false), ([6, 9], true)] = executed.map (fun e => (e.1.blocks, e.2)) ∧
      executed.map Prod.fst = [oneBlock, twoBlocks] ∧ [8] = completions executed := by
  obtain ⟨s, hs, hidle, hcq⟩ := run_copied
  obtain ⟨executed, hran, -, hall, -, hpolled⟩ := executed_as_posted hs copiedRun_whole
  exact ⟨executed, hran, hall hidle, hpolled hcq⟩

end RdmaBench.Mlx5.SendRuns
