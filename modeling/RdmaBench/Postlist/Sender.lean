import RdmaBench.Lib.Runs
import RdmaBench.Lib.Signaling

/-! # Loops that send postlists

The send loops of six benchmarks. Each collects work requests for one queue
pair, waiting for a completion where its signaling rule says so, passes them to
`ibv_post_send` in one list, and goes on to the next queue pair. `nb_tx` of a
queue pair is the `made` counter of its queue. -/

namespace RdmaBench.Postlist.Sender
open RdmaBench.Lib.Runs RdmaBench.Lib.Signaling

/-- What the loops differ in. -/
structure Config where
  unsigBatch : Nat
  numQps : Nat
  postlist : Nat
  rule : Rule
  /-- A batch has one response for each request just received, so its size is
  not always `postlist`. -/
  echoes : Bool

/-- The batch sizes that occur. -/
def Config.Admits (cfg : Config) (n : Nat) : Prop :=
  if cfg.echoes then 1 ≤ n ∧ n ≤ cfg.postlist else n = cfg.postlist

/-- `run_server` of `ss-echo`. -/
def ssEchoRunServer (postlist : Nat) : Config := ⟨64, 1, postlist, .beforeLast, true⟩

/-- `run_client` of `ud-receiver`. It sends on `dgram_qp[0]` only: its `qp_i`
chooses the receiver. -/
def udReceiverRunClient (postlist : Nat) : Config := ⟨64, 1, postlist, .beforeLast, false⟩

/-- `run_client` of `atomics-sequencer`. -/
def atomicsSequencerRunClient (unsigBatch qpsPerClient postlist : Nat) : Config :=
  ⟨unsigBatch, qpsPerClient, postlist, .beforeFirst, false⟩

/-- `run_server` of `rw-tput-sender`. -/
def rwTputSenderRunServer (unsigBatch numQps postlist : Nat) : Config :=
  ⟨unsigBatch, numQps, postlist, .beforeFirst, false⟩

/-- `run_client` of `rw-tput-receiver`, which has one queue pair. -/
def rwTputReceiverRunClient (unsigBatch postlist : Nat) : Config :=
  ⟨unsigBatch, 1, postlist, .beforeFirst, false⟩

/-- `run_server` of `ud-sender`. -/
def udSenderRunServer (unsigBatch numQps postlist : Nat) : Config :=
  ⟨unsigBatch, numQps, postlist, .beforeFirst, false⟩

/-- A loop between two requests: `wI` of `size` are in the list for `qpI`. No
batch is being collected when `size` is 0. -/
structure SendLoop where
  queue : Nat → Queue
  qpI : Nat
  size : Nat
  wI : Nat

inductive Event where
  | batch (n : Nat)
  | collect
  | post

/-- The next thing the loop does is to wait for a completion on `qpI`. -/
def Waits (cfg : Config) (s : SendLoop) : Prop :=
  s.wI < s.size ∧ cfg.rule.Polls cfg.unsigBatch (s.queue s.qpI).made

def collect (cfg : Config) (s : SendLoop) : SendLoop :=
  { s with
    queue := Function.update s.queue s.qpI ((s.queue s.qpI).make cfg.rule cfg.unsigBatch)
    wI := s.wI + 1 }

def postSend (cfg : Config) (s : SendLoop) : SendLoop :=
  { queue := Function.update s.queue s.qpI (s.queue s.qpI).post
    qpI := if s.qpI + 1 = cfg.numQps then 0 else s.qpI + 1
    size := 0
    wI := 0 }

/-- `hrd_poll_cq` spins until there is a completion, so a wait for one that
cannot come is a state without a `collect` step. -/
def loop (cfg : Config) : System SendLoop Event where
  init s := s = ⟨fun _ => Queue.empty, 0, 0, 0⟩
  step s e t := match e with
    | .batch n => s.size = 0 ∧ cfg.Admits n ∧ t = { s with size := n, wI := 0 }
    | .collect =>
      s.wI < s.size ∧ (Waits cfg s → (s.queue s.qpI).CanPoll cfg.unsigBatch) ∧ t = collect cfg s
    | .post => 0 < s.size ∧ s.wI = s.size ∧ t = postSend cfg s

/-- No wait of any run is for a request that has not been posted. -/
def NeverStuck (cfg : Config) : Prop :=
  ∀ s, Reachable (loop cfg) s → Waits cfg s → (s.queue s.qpI).CanPoll cfg.unsigBatch

/-! ## The invariant of the loops -/

/-- Every queue follows the rule, and only the list being collected is not yet
posted. -/
structure SenderInv (cfg : Config) (s : SendLoop) : Prop where
  follows : ∀ i, (s.queue i).Follows cfg.rule cfg.unsigBatch
  pending : ∀ i, (s.queue i).made = (s.queue i).posted + if i = s.qpI then s.wI else 0
  wI_le : s.wI ≤ s.size
  size_le : s.size ≤ cfg.postlist

variable {cfg : Config} {s t : SendLoop}

theorem Config.Admits.le {n : Nat} (h : cfg.Admits n) : n ≤ cfg.postlist := by
  unfold Config.Admits at h
  split at h
  · exact h.2
  · exact Nat.le_of_eq h

theorem SenderInv.after_collect (h : SenderInv cfg s) (hB : 0 < cfg.unsigBatch)
    (hlt : s.wI < s.size) :
    SenderInv cfg (collect cfg s) := by
  refine ⟨fun i => ?_, fun i => ?_, hlt, h.size_le⟩
  · by_cases hi : i = s.qpI
    · subst hi
      simpa [collect] using (h.follows s.qpI).make hB
    · simpa [collect, hi] using h.follows i
  · have hpend := h.pending i
    by_cases hi : i = s.qpI
    · subst hi
      simp only [if_true] at hpend
      simp only [collect, Function.update_self, if_true, Queue.make]
      omega
    · simpa [collect, hi] using hpend

theorem SenderInv.after_post (h : SenderInv cfg s) : SenderInv cfg (postSend cfg s) := by
  refine ⟨fun i => ?_, fun i => ?_, Nat.le_refl _, Nat.zero_le _⟩
  · by_cases hi : i = s.qpI
    · subst hi
      simpa [postSend] using (h.follows s.qpI).post
    · simpa [postSend, hi] using h.follows i
  · rw [show (if i = (postSend cfg s).qpI then (postSend cfg s).wI else 0) = 0 from ite_self _]
    by_cases hi : i = s.qpI
    · subst hi
      simp [postSend, Queue.post]
    · simpa [postSend, hi] using h.pending i

theorem loop_inv (hB : 0 < cfg.unsigBatch) (h : Reachable (loop cfg) s) : SenderInv cfg s := by
  refine h.invariant (fun s hs => ?_) (fun s e t _ ih hstep => ?_)
  · rw [show s = _ from hs]
    exact ⟨fun _ => follows_empty _ _, fun _ => by simp [Queue.empty], Nat.le_refl _,
      Nat.zero_le _⟩
  · cases e with
    | batch n =>
      obtain ⟨h0, hn, rfl⟩ := hstep
      have hw : s.wI = 0 := Nat.eq_zero_of_le_zero (h0 ▸ ih.wI_le)
      exact ⟨ih.follows, fun i => by simpa [hw] using ih.pending i, Nat.zero_le _, hn.le⟩
    | collect =>
      obtain ⟨hlt, -, rfl⟩ := hstep
      exact ih.after_collect hB hlt
    | post =>
      obtain ⟨-, -, rfl⟩ := hstep
      exact ih.after_post

theorem reach_batch {n : Nat} (h : Reachable (loop cfg) s) (h0 : s.size = 0) (hn : cfg.Admits n) :
    Reachable (loop cfg) { s with size := n, wI := 0 } :=
  .step (e := .batch n) h ⟨h0, hn, rfl⟩

theorem reach_collect (h : Reachable (loop cfg) s) (hlt : s.wI < s.size)
    (hpoll : Waits cfg s → (s.queue s.qpI).CanPoll cfg.unsigBatch) :
    Reachable (loop cfg) (collect cfg s) :=
  .step (e := .collect) h ⟨hlt, hpoll, rfl⟩

theorem reach_post (h : Reachable (loop cfg) s) (hpos : 0 < s.size) (hw : s.wI = s.size) :
    Reachable (loop cfg) (postSend cfg s) :=
  .step (e := .post) h ⟨hpos, hw, rfl⟩

/-- While a list is collected fewer than `postlist` requests are unposted. -/
theorem SenderInv.pending_lt (h : SenderInv cfg s) (hlt : s.wI < s.size) :
    (s.queue s.qpI).made < (s.queue s.qpI).posted + cfg.postlist := by
  have hpend := h.pending s.qpI
  have hsize := h.size_le
  rw [if_pos rfl] at hpend
  omega

/-! ## Waiting before the first request of a group -/

/-- The loops that wait before the first request of a group. -/
def beforeFirstLoops (unsigBatch numQps postlist : Nat) : List Config :=
  [atomicsSequencerRunClient unsigBatch numQps postlist,
    rwTputSenderRunServer unsigBatch numQps postlist,
    rwTputReceiverRunClient unsigBatch postlist,
    udSenderRunServer unsigBatch numQps postlist]

theorem mem_beforeFirstLoops {B qps p : Nat} (h : cfg ∈ beforeFirstLoops B qps p) :
    cfg.unsigBatch = B ∧ cfg.postlist = p ∧ cfg.rule = .beforeFirst := by
  simp only [beforeFirstLoops, List.mem_cons, List.not_mem_nil, or_false] at h
  rcases h with rfl | rfl | rfl | rfl <;> exact ⟨rfl, rfl, rfl⟩

/-- Each wait is for the request one group earlier, which has been posted and
is the next to complete, and a post leaves at most `2 * B - 1` requests that are
not known to be done. -/
theorem beforeFirst_waits_and_capacity {B p Q qps : Nat} (hB : 1 ≤ B) (hp : 1 ≤ p ∧ p ≤ B)
    (hQ : 2 * B ≤ Q) (hcfg : cfg ∈ beforeFirstLoops B qps p) (h : Reachable (loop cfg) s) :
    (Waits cfg s → B ≤ (s.queue s.qpI).made ∧
      (s.queue s.qpI).made - B < (s.queue s.qpI).posted ∧
      (s.queue s.qpI).next B = (s.queue s.qpI).made - B) ∧
    (∀ t, (loop cfg).step s .post t →
      (t.queue s.qpI).unacked B ≤ 2 * B - 1 ∧ 2 * B - 1 ≤ Q - 1) := by
  obtain ⟨hunsig, hpost, hrule⟩ := mem_beforeFirstLoops hcfg
  have hinv := loop_inv (hunsig ▸ hB) h
  have hfol := hinv.follows s.qpI
  rw [hrule, hunsig] at hfol
  constructor
  · intro hall
    obtain ⟨hlt, hpolls⟩ := hall
    rw [hrule, hunsig] at hpolls
    have hnext := polls_beforeFirst hfol hB hpolls
    have hpend := hinv.pending_lt hlt
    rw [hpost] at hpend
    omega
  · intro t hall
    obtain ⟨_, _, ht⟩ := hall
    refine ⟨?_, Nat.sub_le_sub_right hQ 1⟩
    rw [ht]
    simpa [postSend] using hfol.unacked_post hB

/-- `ud-sender` with one queue pair, `unsigBatch` 2 and `postlist` 2, at the
start of its second batch. -/
def secondBatch : SendLoop :=
  ⟨Function.update (fun _ => Queue.empty) 0 ⟨2, 2, 0⟩, 0, 2, 0⟩

theorem secondBatch_reachable : Reachable (loop (udSenderRunServer 2 1 2)) secondBatch := by
  have h0 : Reachable (loop (udSenderRunServer 2 1 2)) _ := reach_batch (n := 2) (.init rfl) rfl rfl
  have h1 := reach_collect h0 (by decide) (fun h => absurd h.2 (by decide))
  have h2 := reach_collect h1 (by decide) (fun h => absurd h.2 (by decide))
  have h3 := reach_batch (n := 2) (reach_post h2 (by decide) rfl) rfl rfl
  simpa [secondBatch, postSend, collect, udSenderRunServer, Queue.make, Queue.post, Queue.empty,
    Rule.Polls] using h3

/-- The second batch starts with a wait for request 0. -/
theorem beforeFirst_waits_and_capacity_secondBatch :
    Waits (udSenderRunServer 2 1 2) secondBatch ∧
      (secondBatch.queue 0).next 2 = (secondBatch.queue 0).made - 2 := by
  have hwaits : Waits (udSenderRunServer 2 1 2) secondBatch := ⟨by decide, by decide⟩
  have hmem : udSenderRunServer 2 1 2 ∈ beforeFirstLoops 2 1 2 := by simp [beforeFirstLoops]
  exact ⟨hwaits, ((beforeFirst_waits_and_capacity (by decide) (by decide) (Nat.le_refl 4) hmem
    secondBatch_reachable).1 hwaits).2.2⟩

/-! ## Waiting before the last request of a group -/

/-- The first batch of a run, with `k` requests collected and none posted. -/
def firstBatch (cfg : Config) (k : Nat) : SendLoop :=
  ⟨Function.update (fun _ => Queue.empty) 0 ⟨k, 0, 0⟩, 0, cfg.postlist, k⟩

theorem not_polls_beforeLast {B k : Nat} (h : k + 1 < B) : ¬Rule.Polls B k .beforeLast := by
  show ¬k % B = B - 1
  rw [Nat.mod_eq_of_lt (by omega)]
  omega

theorem collect_firstBatch {k : Nat} (hrule : cfg.rule = .beforeLast)
    (hk : k + 1 < cfg.unsigBatch) : collect cfg (firstBatch cfg k) = firstBatch cfg (k + 1) := by
  simp [collect, firstBatch, Queue.make, hrule, not_polls_beforeLast hk]

theorem firstBatch_reachable {k : Nat} (hrule : cfg.rule = .beforeLast) (hp : 1 ≤ cfg.postlist)
    (hk : k < cfg.unsigBatch) (hle : k ≤ cfg.postlist) :
    Reachable (loop cfg) (firstBatch cfg k) := by
  induction k with
  | zero =>
    refine .step (e := .batch cfg.postlist) (.init rfl) ⟨rfl, ?_, ?_⟩
    · unfold Config.Admits
      split
      · exact ⟨hp, Nat.le_refl _⟩
      · rfl
    · simp [firstBatch, Queue.empty]
  | succ k ih =>
    rw [← collect_firstBatch hrule hk]
    refine reach_collect (ih (by omega) (by omega)) hle (fun hw => ?_)
    have hpolls : cfg.rule.Polls cfg.unsigBatch k := by simpa [firstBatch] using hw.2
    exact absurd (hrule ▸ hpolls) (not_polls_beforeLast hk)

theorem firstBatch_posted (cfg : Config) (k i : Nat) :
    ((firstBatch cfg k).queue i).posted = 0 := by
  by_cases hi : i = 0
  · simp [firstBatch, hi]
  · simp [firstBatch, hi, Queue.empty]

/-- If a batch can be a whole group, its last request waits for its first. -/
theorem firstBatch_waits (hrule : cfg.rule = .beforeLast) (hB : 0 < cfg.unsigBatch)
    (hp : cfg.unsigBatch ≤ cfg.postlist) :
    Reachable (loop cfg) (firstBatch cfg (cfg.unsigBatch - 1)) ∧
      Waits cfg (firstBatch cfg (cfg.unsigBatch - 1)) := by
  refine ⟨firstBatch_reachable hrule (by omega) (by omega) (by omega), ?_, ?_⟩
  · show cfg.unsigBatch - 1 < cfg.postlist
    omega
  · rw [hrule]
    simp [firstBatch, Rule.Polls, Nat.mod_eq_of_lt (Nat.sub_lt hB Nat.one_pos)]

/-- A loop with this rule gets stuck exactly if a batch can be a whole group. -/
theorem neverStuck_beforeLast (hrule : cfg.rule = .beforeLast)
    (hp : 1 ≤ cfg.postlist ∧ cfg.postlist ≤ cfg.unsigBatch) :
    NeverStuck cfg ↔ cfg.postlist < cfg.unsigBatch := by
  have hB : 0 < cfg.unsigBatch := Nat.le_trans hp.1 hp.2
  constructor
  · intro h
    by_contra hge
    obtain ⟨hreach, hwaits⟩ := firstBatch_waits hrule hB (Nat.le_of_not_lt hge)
    obtain ⟨i, hi, -⟩ := h _ hreach hwaits
    rw [firstBatch_posted] at hi
    exact absurd hi (Nat.not_lt_zero i)
  · intro hlt s hreach hall
    obtain ⟨hw, hpolls⟩ := hall
    have hinv := loop_inv hB hreach
    have hpend := hinv.pending_lt hw
    have hfol := hinv.follows s.qpI
    rw [hrule] at hfol hpolls
    rw [canPoll_beforeLast hB hfol hpolls]
    omega

end RdmaBench.Postlist.Sender
