import RdmaBench.Postlist.Sender

/-! # The polling pass of a worker

`run_worker` of HERD and of `ws-sequencer` share one loop. A pass polls the
request slots of the clients in turn, from where the last pass stopped, and
collects one response for each request it finds, on the control block of the
client's port. It ends after `NUM_CLIENTS` polls or `postlist` requests, and
then posts one list for each port that has responses. -/

namespace RdmaBench.Postlist.Worker
open RdmaBench.Lib.Runs RdmaBench.Lib.Signaling

structure Config where
  numClients : Nat
  numServerPorts : Nat
  numUdQps : Nat
  postlist : Nat
  unsigBatch : Nat
  /-- A pass that finds no request keeps its UD queue pair. -/
  skipsEmpty : Bool

def numClients : Nat := 70
def unsigBatch : Nat := 64
def micaMaxBatchSize : Nat := 32
def hrdQDepth : Nat := 128

/-- `run_worker` of HERD. -/
def herdRunWorker (numServerPorts numUdQps postlist : Nat) : Config :=
  ⟨numClients, numServerPorts, numUdQps, postlist, unsigBatch, false⟩

/-- `run_worker` of `ws-sequencer`, with its three UD queue pairs. -/
def wsSequencerRunWorker (numServerPorts postlist : Nat) : Config :=
  ⟨numClients, numServerPorts, 3, postlist, unsigBatch, true⟩

/-- `HRD_MOD_ADD`. -/
def hrdModAdd (x n : Nat) : Nat := if x + 1 = n then 0 else x + 1

/-- A worker between two polls. `cltI` and `cbI` are the client to poll next
and its control block: the source keeps the values before `HRD_MOD_ADD`. -/
structure Pass where
  cltI : Nat
  cbI : Nat
  pollI : Nat
  wrI : Nat
  nbNewReq : Nat → Nat
  udQpI : Nat
  queue : Nat → Nat → Queue

def Pass.start : Pass := ⟨0, 0, 0, 0, fun _ => 0, 0, fun _ _ => Queue.empty⟩

/-- The pass goes on: the loop bound and the `break` after `postlist` requests. -/
def Polling (cfg : Config) (s : Pass) : Prop := s.pollI < cfg.numClients ∧ s.wrI < cfg.postlist

instance (cfg : Config) (s : Pass) : Decidable (Polling cfg s) :=
  inferInstanceAs (Decidable (_ ∧ _))

/-- Poll a slot without a request. -/
def miss (cfg : Config) (s : Pass) : Pass :=
  { s with
    cltI := hrdModAdd s.cltI cfg.numClients
    cbI := hrdModAdd s.cbI cfg.numServerPorts
    pollI := s.pollI + 1 }

/-- Poll a slot with a request, and add its response to the list of the port.
`& UNSIG_BATCH_` is the remainder by `UNSIG_BATCH`. -/
def hit (cfg : Config) (s : Pass) : Pass :=
  { miss cfg s with
    wrI := s.wrI + 1
    nbNewReq := Function.update s.nbNewReq s.cbI (s.nbNewReq s.cbI + 1)
    queue := fun i q =>
      if i = s.cbI ∧ q = s.udQpI then (s.queue i q).make .beforeLast cfg.unsigBatch
      else s.queue i q }

/-- End the pass: post the list of each port that has one. -/
def finish (cfg : Config) (s : Pass) : Pass :=
  { s with
    pollI := 0
    wrI := 0
    nbNewReq := fun _ => 0
    udQpI := if cfg.skipsEmpty ∧ s.wrI = 0 then s.udQpI else hrdModAdd s.udQpI cfg.numUdQps
    queue := fun i q =>
      if (i < cfg.numServerPorts ∧ s.nbNewReq i ≠ 0) ∧ q = s.udQpI then (s.queue i q).post
      else s.queue i q }

/-- A request in the next slot makes the worker wait for a completion. -/
def Waits (cfg : Config) (s : Pass) : Prop :=
  Polling cfg s ∧ Rule.Polls cfg.unsigBatch (s.queue s.cbI s.udQpI).made .beforeLast

inductive Event where
  | miss
  | hit
  | finish

/-- The passes of a worker, for all arrivals of requests. -/
def passes (cfg : Config) : System Pass Event where
  init s := s = Pass.start
  step s e t := match e with
    | .miss => Polling cfg s ∧ t = miss cfg s
    | .hit =>
      Polling cfg s ∧ (Waits cfg s → (s.queue s.cbI s.udQpI).CanPoll cfg.unsigBatch) ∧
        t = hit cfg s
    | .finish => ¬Polling cfg s ∧ t = finish cfg s

/-- No wait of any run is for a request that has not been posted. -/
def NeverStuck (cfg : Config) : Prop :=
  ∀ s, Reachable (passes cfg) s → Waits cfg s →
    (s.queue s.cbI s.udQpI).CanPoll cfg.unsigBatch

/-! ## The invariant of the passes -/

/-- Every queue follows the rule. What is not posted are the requests of this
pass, on the UD queue pair it uses. -/
structure PassInv (cfg : Config) (s : Pass) : Prop where
  follows : ∀ i q, (s.queue i q).Follows .beforeLast cfg.unsigBatch
  pending : ∀ i q, (s.queue i q).made =
    (s.queue i q).posted + if q = s.udQpI then s.nbNewReq i else 0
  new_le : ∀ i, s.nbNewReq i ≤ s.wrI
  new_port : ∀ i, cfg.numServerPorts ≤ i → s.nbNewReq i = 0
  wrI_le : s.wrI ≤ cfg.postlist
  cbI_lt : s.cbI < cfg.numServerPorts

variable {cfg : Config} {s t : Pass}

theorem hrdModAdd_lt {x n : Nat} (h : x < n) : hrdModAdd x n < n := by
  unfold hrdModAdd
  split <;> omega

theorem PassInv.after_hit (h : PassInv cfg s) (hB : 0 < cfg.unsigBatch) (hp : Polling cfg s) :
    PassInv cfg (hit cfg s) := by
  refine ⟨fun i q => ?_, fun i q => ?_, fun i => ?_, fun i hi => ?_, hp.2, hrdModAdd_lt h.cbI_lt⟩
  · simp only [hit]
    split
    · exact (h.follows i q).make hB
    · exact h.follows i q
  · have hpend := h.pending i q
    simp only [hit, miss]
    by_cases hi : i = s.cbI
    · subst hi
      by_cases hq : q = s.udQpI
      · subst hq
        simp only [if_true] at hpend
        simp only [and_self, if_true, Function.update_self, Queue.make]
        omega
      · simpa [hq] using hpend
    · simpa [hi] using hpend
  · simp only [hit]
    by_cases hi : i = s.cbI
    · subst hi
      rw [Function.update_self]
      exact Nat.succ_le_succ (h.new_le _)
    · rw [Function.update_of_ne hi]
      exact Nat.le_succ_of_le (h.new_le i)
  · have hne : i ≠ s.cbI := Nat.ne_of_gt (Nat.lt_of_lt_of_le h.cbI_lt hi)
    simp only [hit]
    rw [Function.update_of_ne hne]
    exact h.new_port i hi

theorem PassInv.after_finish (h : PassInv cfg s) : PassInv cfg (finish cfg s) := by
  refine ⟨fun i q => ?_, fun i q => ?_, fun _ => Nat.zero_le _, fun _ _ => rfl, Nat.zero_le _,
    h.cbI_lt⟩
  · simp only [finish]
    split
    · exact (h.follows i q).post
    · exact h.follows i q
  · rw [show (if q = (finish cfg s).udQpI then (finish cfg s).nbNewReq i else 0) = 0 from
      ite_self _]
    simp only [finish]
    split
    · rfl
    · next hnot =>
      -- A list that is not posted is empty.
      have hpend := h.pending i q
      have hzero : (if q = s.udQpI then s.nbNewReq i else 0) = 0 := by
        split
        · next hq =>
          by_contra hne
          exact hnot ⟨⟨Nat.lt_of_not_le fun hle => hne (h.new_port i hle), hne⟩, hq⟩
        · rfl
      rw [hpend, hzero]

theorem passes_inv (hB : 0 < cfg.unsigBatch) (hP : 0 < cfg.numServerPorts)
    (h : Reachable (passes cfg) s) : PassInv cfg s := by
  refine h.invariant (fun s hs => ?_) (fun s e t _ ih hstep => ?_)
  · rw [show s = _ from hs]
    exact ⟨fun _ _ => follows_empty _ _, fun _ _ => (congrArg (0 + ·) (ite_self 0)).symm,
      fun _ => Nat.le_refl _, fun _ _ => rfl, Nat.zero_le _, hP⟩
  · cases e with
    | miss =>
      obtain ⟨-, rfl⟩ := hstep
      exact ⟨ih.follows, ih.pending, ih.new_le, ih.new_port, ih.wrI_le, hrdModAdd_lt ih.cbI_lt⟩
    | hit =>
      obtain ⟨hp, -, rfl⟩ := hstep
      exact ih.after_hit hB hp
    | finish =>
      obtain ⟨-, rfl⟩ := hstep
      exact ih.after_finish

/-- A wait ends if the unposted requests and the one being made do not fill a
group. -/
theorem PassInv.canPoll (h : PassInv cfg s) (hB : 0 < cfg.unsigBatch)
    (hnew : s.nbNewReq s.cbI + 1 < cfg.unsigBatch) (hw : Waits cfg s) :
    (s.queue s.cbI s.udQpI).CanPoll cfg.unsigBatch := by
  have hpend := h.pending s.cbI s.udQpI
  rw [if_pos rfl] at hpend
  rw [canPoll_beforeLast hB (h.follows _ _) hw.2]
  omega

/-- Fewer than `postlist` requests are unposted while a pass polls. -/
theorem PassInv.new_lt (h : PassInv cfg s) (hp : Polling cfg s) :
    s.nbNewReq s.cbI < cfg.postlist :=
  Nat.lt_of_le_of_lt (h.new_le _) hp.2

/-- Between two passes everything made has been posted. -/
theorem PassInv.finish_posted (h : PassInv cfg s) (i q : Nat) :
    ((finish cfg s).queue i q).post = (finish cfg s).queue i q := by
  refine Queue.post_eq_self ((h.after_finish.pending i q).trans ?_)
  exact congrArg (_ + ·) (ite_self 0)

/-- A `postlist` below `UNSIG_BATCH` leaves no wait without a posted request. -/
theorem passes_canPoll (hB : 0 < cfg.unsigBatch) (hP : 0 < cfg.numServerPorts)
    (hlt : cfg.postlist < cfg.unsigBatch) (h : Reachable (passes cfg) s) (hw : Waits cfg s) :
    (s.queue s.cbI s.udQpI).CanPoll cfg.unsigBatch := by
  have hinv := passes_inv hB hP h
  have hnew := hinv.new_lt hw.1
  exact hinv.canPoll hB (by omega) hw

/-- With one port, requests in the next `k` slots fill the first group of the
queue in use. -/
theorem reach_hits (hports : cfg.numServerPorts = 1) (h : Reachable (passes cfg) s)
    (hcb : s.cbI = 0) {k : Nat} (hpoll : s.pollI + k ≤ cfg.numClients)
    (hwr : s.wrI + k ≤ cfg.postlist)
    (hmade : (s.queue 0 s.udQpI).made + k < cfg.unsigBatch) :
    ∃ t, Reachable (passes cfg) t ∧ t.cbI = 0 ∧ t.udQpI = s.udQpI ∧ t.pollI = s.pollI + k ∧
      t.wrI = s.wrI + k ∧ (t.queue 0 s.udQpI).made = (s.queue 0 s.udQpI).made + k ∧
      (t.queue 0 s.udQpI).posted = (s.queue 0 s.udQpI).posted := by
  induction k with
  | zero => exact ⟨s, h, hcb, rfl, rfl, rfl, rfl, rfl⟩
  | succ k ih =>
    obtain ⟨t, ht, htcb, htqp, htpoll, htwr, htmade, htposted⟩ :=
      ih (by omega) (by omega) (by omega)
    have hpolling : Polling cfg t := ⟨by omega, by omega⟩
    have hnot : ¬Waits cfg t := by
      intro hw
      have hpolls := hw.2
      rw [htcb, htqp] at hpolls
      exact Sender.not_polls_beforeLast (by omega) hpolls
    refine ⟨hit cfg t, .step (e := .hit) ht ⟨hpolling, fun hw => absurd hw hnot, rfl⟩, ?_, htqp,
      ?_, ?_, ?_, ?_⟩
    · simp [hit, miss, hrdModAdd, htcb, hports]
    · exact congrArg (· + 1) htpoll
    · exact congrArg (· + 1) htwr
    · simp only [hit, htcb, htqp, and_self, if_true, Queue.make]
      omega
    · simpa [hit, htcb, htqp, Queue.make] using htposted

/-! ## The HERD worker -/

/-- HERD's batches are at most half a group, so each wait is for a posted
request, and no post overfills a send queue. -/
theorem herd_waits_and_capacity {ports qps postlist : Nat} (hports : ports ∣ numClients)
    (hp : 1 ≤ postlist ∧ postlist ≤ micaMaxBatchSize)
    (h : Reachable (passes (herdRunWorker ports qps postlist)) s) :
    (Waits (herdRunWorker ports qps postlist) s →
      (s.queue s.cbI s.udQpI).next unsigBatch < (s.queue s.cbI s.udQpI).posted) ∧
    (∀ t, (passes (herdRunWorker ports qps postlist)).step s .finish t → ∀ i q,
      (t.queue i q).unacked unsigBatch ≤ 2 * unsigBatch - 1 ∧
      2 * unsigBatch - 1 < hrdQDepth) := by
  have hB : 0 < unsigBatch := by decide
  have hP : 0 < ports := Nat.pos_of_dvd_of_pos hports (by decide)
  have hinv : PassInv (herdRunWorker ports qps postlist) s := passes_inv hB hP h
  constructor
  · intro hw
    have hmax : micaMaxBatchSize < unsigBatch := by decide
    have hlt : postlist < unsigBatch := hp.2.trans_lt hmax
    exact (canPoll_iff hB).1 (passes_canPoll hB hP hlt h hw)
  · intro t hall i q
    obtain ⟨_, ht⟩ := hall
    refine ⟨?_, by decide⟩
    rw [ht, ← hinv.finish_posted]
    exact (hinv.after_finish.follows i q).unacked_post hB

/-- A full pass and all but one slot of the next: the worker is about to wait
with 32 responses posted. -/
theorem herd_second_pass : ∃ s, Reachable (passes (herdRunWorker 1 1 32)) s ∧
    Waits (herdRunWorker 1 1 32) s ∧ (s.queue s.cbI s.udQpI).posted = 32 := by
  obtain ⟨s, hs, hcb, hqp, hpoll, hwr, hmade, -⟩ := reach_hits (k := 32)
    (show (herdRunWorker 1 1 32).numServerPorts = 1 from rfl) (.init rfl) rfl
    (by decide) (by decide) (by decide)
  have hinv : PassInv (herdRunWorker 1 1 32) s := passes_inv (by decide) (by decide) hs
  have hdone : ¬Polling (herdRunWorker 1 1 32) s := fun hlt => by
    have := hlt.2
    rw [hwr] at this
    exact absurd this (by decide)
  have hf : Reachable (passes (herdRunWorker 1 1 32)) (finish (herdRunWorker 1 1 32) s) :=
    .step (e := .finish) hs ⟨hdone, rfl⟩
  have hfqp : (finish (herdRunWorker 1 1 32) s).udQpI = 0 := by
    simp [finish, herdRunWorker, hrdModAdd, hqp, Pass.start]
  have hfmade : ((finish (herdRunWorker 1 1 32) s).queue 0 0).made = 32 := by
    rw [show Pass.start.udQpI = 0 from rfl] at hmade
    simp only [finish]
    split <;> exact hmade
  have hfposted : ((finish (herdRunWorker 1 1 32) s).queue 0 0).posted = 32 :=
    (congrArg Queue.posted (hinv.finish_posted 0 0)).symm.trans hfmade
  obtain ⟨t, ht, htcb, htqp, htpoll, htwr, htmade, htposted⟩ := reach_hits (k := 31) rfl hf hcb
    (show 0 + 31 ≤ 70 by decide) (show 0 + 31 ≤ 32 by decide)
    (by rw [hfqp, hfmade]; decide)
  rw [hfqp] at htqp htmade htposted
  refine ⟨t, ht, ⟨⟨?_, ?_⟩, ?_⟩, ?_⟩
  · rw [htpoll]
    exact (by decide : 0 + 31 < 70)
  · rw [htwr]
    exact (by decide : 0 + 31 < 32)
  · rw [htcb, htqp, htmade, hfmade]
    exact (by decide : Rule.Polls 64 63 .beforeLast)
  · rw [htcb, htqp, htposted, hfposted]

theorem herd_waits_and_capacity_second_pass : ∃ s,
    Waits (herdRunWorker 1 1 32) s ∧
      (s.queue s.cbI s.udQpI).next unsigBatch < (s.queue s.cbI s.udQpI).posted := by
  obtain ⟨s, hs, hw, -⟩ := herd_second_pass
  exact ⟨s, hw, (herd_waits_and_capacity (by decide) (by decide) hs).1 hw⟩

/-! ## The share of one port -/

/-- How many polls ago port `i` had its last turn, if it had one. -/
def turnsBack (ports cb i : Nat) : Nat := if i < cb then cb - i else cb + ports - i

/-- In a pass, each port's new requests are at most the turns it had. -/
def Spread (cfg : Config) (s : Pass) : Prop :=
  ∀ i < cfg.numServerPorts,
    s.nbNewReq i * cfg.numServerPorts + turnsBack cfg.numServerPorts s.cbI i ≤
      s.pollI + cfg.numServerPorts

theorem turnsBack_other {ports cb i : Nat} (hi : i < ports) (hne : i ≠ cb) :
    turnsBack ports (hrdModAdd cb ports) i = turnsBack ports cb i + 1 := by
  unfold turnsBack hrdModAdd
  split_ifs <;> omega

theorem turnsBack_self (ports cb : Nat) : turnsBack ports cb cb = ports := by
  simp [turnsBack]

theorem turnsBack_next (ports cb : Nat) : turnsBack ports (hrdModAdd cb ports) cb = 1 := by
  unfold turnsBack hrdModAdd
  split_ifs <;> omega

theorem turnsBack_le {ports cb : Nat} (hcb : cb < ports) (i : Nat) :
    turnsBack ports cb i ≤ ports := by
  unfold turnsBack
  split_ifs <;> omega

theorem Spread.of_empty (hcb : s.cbI < cfg.numServerPorts) (h0 : ∀ i, s.nbNewReq i = 0) :
    Spread cfg s := by
  intro i _
  rw [h0, Nat.zero_mul, Nat.zero_add]
  exact Nat.le_add_left_of_le (turnsBack_le hcb i)

theorem Spread.after_miss (h : Spread cfg s) : Spread cfg (miss cfg s) := by
  intro i hi
  have hi' := h i hi
  simp only [miss]
  by_cases hne : i = s.cbI
  · subst hne
    rw [turnsBack_self] at hi'
    rw [turnsBack_next]
    omega
  · rw [turnsBack_other hi hne]
    omega

theorem Spread.after_hit (h : Spread cfg s) : Spread cfg (hit cfg s) := by
  intro i hi
  have hi' := h i hi
  simp only [hit, miss]
  by_cases hne : i = s.cbI
  · subst hne
    rw [turnsBack_self] at hi'
    rw [turnsBack_next, Function.update_self, Nat.succ_mul]
    omega
  · rw [turnsBack_other hi hne, Function.update_of_ne hne]
    omega

theorem passes_spread (hB : 0 < cfg.unsigBatch) (hP : 0 < cfg.numServerPorts)
    (h : Reachable (passes cfg) s) : Spread cfg s := by
  refine h.invariant (fun s hs => ?_) (fun s e t hr ih hstep => ?_)
  · rw [show s = _ from hs]
    exact .of_empty hP fun _ => rfl
  · cases e with
    | miss =>
      obtain ⟨-, rfl⟩ := hstep
      exact ih.after_miss
    | hit =>
      obtain ⟨-, -, rfl⟩ := hstep
      exact ih.after_hit
    | finish =>
      obtain ⟨-, rfl⟩ := hstep
      exact .of_empty (passes_inv hB hP hr).cbI_lt fun _ => rfl

/-- A port has fewer new requests than a full pass gives it turns. -/
theorem Spread.new_lt (h : Spread cfg s) (hcb : s.cbI < cfg.numServerPorts)
    (hports : cfg.numServerPorts ∣ cfg.numClients) (hp : Polling cfg s) :
    s.nbNewReq s.cbI < cfg.numClients / cfg.numServerPorts := by
  have hP : 0 < cfg.numServerPorts := Nat.zero_lt_of_lt hcb
  have hcur := h s.cbI hcb
  rw [turnsBack_self] at hcur
  rw [Nat.lt_div_iff_mul_lt_of_dvd hP.ne' hports, Nat.mul_comm]
  have := hp.1
  rw [Nat.mul_comm]
  omega

/-! ## Waiting in a full postlist -/

/-- With `postlist` equal to `UNSIG_BATCH` the last request of a first batch
waits for its first. -/
theorem wsSequencer_full_pass : ∃ s, Reachable (passes (wsSequencerRunWorker 1 64)) s ∧
    Waits (wsSequencerRunWorker 1 64) s ∧ (s.queue s.cbI s.udQpI).posted = 0 := by
  obtain ⟨s, hs, hcb, hqp, hpoll, hwr, hmade, hposted⟩ := reach_hits (k := 63)
    (show (wsSequencerRunWorker 1 64).numServerPorts = 1 from rfl) (.init rfl) rfl
    (by decide) (by decide) (by decide)
  refine ⟨s, hs, ⟨⟨?_, ?_⟩, ?_⟩, ?_⟩
  · rw [hpoll]
    exact (by decide : 0 + 63 < 70)
  · rw [hwr]
    exact (by decide : 0 + 63 < 64)
  · rw [hcb, hqp, hmade]
    exact (by decide : Rule.Polls 64 63 .beforeLast)
  · rw [hcb, hqp, hposted]
    rfl

theorem wsSequencer_neverStuck {ports postlist : Nat} (hports : ports ∣ numClients)
    (hp : 1 ≤ postlist ∧ postlist ≤ unsigBatch) :
    NeverStuck (wsSequencerRunWorker ports postlist) ↔ postlist < unsigBatch ∨ 1 < ports := by
  have hB : 0 < unsigBatch := by decide
  have hP : 0 < ports := Nat.pos_of_dvd_of_pos hports (by decide)
  constructor
  · intro h
    by_contra hnot
    have hpost : postlist = 64 := by
      have : unsigBatch = 64 := rfl
      omega
    have hone : ports = 1 := by omega
    subst hpost hone
    obtain ⟨s, hs, hw, h0⟩ := wsSequencer_full_pass
    obtain ⟨i, hi, -⟩ := h s hs hw
    rw [h0] at hi
    exact absurd hi (Nat.not_lt_zero i)
  · intro hor s hs hw
    rcases hor with hlt | hlt
    · exact passes_canPoll hB hP hlt hs hw
    · -- Two or more ports share the 70 clients.
      have hinv : PassInv (wsSequencerRunWorker ports postlist) s := passes_inv hB hP hs
      have hnew : s.nbNewReq s.cbI < numClients / ports :=
        (passes_spread hB hP hs).new_lt hinv.cbI_lt hports hw.1
      have hhalf : numClients / ports ≤ numClients / 2 := Nat.div_le_div_left hlt (by decide)
      have hsmall : numClients / 2 + 1 < unsigBatch := by decide
      refine hinv.canPoll hB ?_ hw
      show s.nbNewReq s.cbI + 1 < unsigBatch
      omega

/-- The loops that wait before the last request of a group: with more than one
port no batch of `ws-sequencer` fills a group, and otherwise a wait is for an
unposted request exactly if `postlist` is `UNSIG_BATCH`. -/
theorem beforeLast_neverStuck_iff {ports postlist : Nat} (hports : ports ∣ numClients)
    (hp : 1 ≤ postlist ∧ postlist ≤ unsigBatch) :
    (Sender.NeverStuck (Sender.ssEchoRunServer postlist) ↔ postlist < unsigBatch) ∧
    (Sender.NeverStuck (Sender.udReceiverRunClient postlist) ↔ postlist < unsigBatch) ∧
    (NeverStuck (wsSequencerRunWorker ports postlist) ↔ postlist < unsigBatch ∨ 1 < ports) :=
  ⟨Sender.neverStuck_beforeLast rfl hp, Sender.neverStuck_beforeLast rfl hp,
    wsSequencer_neverStuck hports hp⟩

theorem beforeLast_neverStuck_half :
    Sender.NeverStuck (Sender.ssEchoRunServer 32) ∧
    Sender.NeverStuck (Sender.udReceiverRunClient 32) ∧
    NeverStuck (wsSequencerRunWorker 2 32) := by
  obtain ⟨hecho, hud, hws⟩ := @beforeLast_neverStuck_iff 2 32 (by decide) (by decide)
  exact ⟨hecho.2 (by decide), hud.2 (by decide), hws.2 (.inl (by decide))⟩

/-- At the largest `postlist` that the startup checks admit, all three reach a
wait with nothing posted. -/
theorem full_postlist_stuck :
    (∃ s, Reachable (Sender.loop (Sender.ssEchoRunServer 64)) s ∧
      Sender.Waits (Sender.ssEchoRunServer 64) s ∧ ∀ i, (s.queue i).posted = 0) ∧
    (∃ s, Reachable (Sender.loop (Sender.udReceiverRunClient 64)) s ∧
      Sender.Waits (Sender.udReceiverRunClient 64) s ∧ ∀ i, (s.queue i).posted = 0) ∧
    (∃ s, Reachable (passes (wsSequencerRunWorker 1 64)) s ∧
      Waits (wsSequencerRunWorker 1 64) s ∧ (s.queue s.cbI s.udQpI).posted = 0) := by
  have hecho := Sender.firstBatch_waits (show (Sender.ssEchoRunServer 64).rule = _ from rfl)
    (by decide) (by decide)
  have hud := Sender.firstBatch_waits (show (Sender.udReceiverRunClient 64).rule = _ from rfl)
    (by decide) (by decide)
  exact ⟨⟨_, hecho.1, hecho.2, Sender.firstBatch_posted _ _⟩,
    ⟨_, hud.1, hud.2, Sender.firstBatch_posted _ _⟩, wsSequencer_full_pass⟩

end RdmaBench.Postlist.Worker
