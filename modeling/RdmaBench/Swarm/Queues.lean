import Mathlib.Data.Int.CardIntervalMod
import RdmaBench.Swarm.Window

/-! # The send queues of `rc-swarm`

`main` checks that a send queue holds two batches of selective signaling. With
`allsig` the batch plays no part: what bounds a queue is the window, which may
be larger. The check does not exclude a batch of one, whose poll comes before
the request it waits for, nor an empty window, with which a worker leaves
`rec_qpn_arr`. And twice a large batch may wrap to a small number. -/

namespace RdmaBench.Swarm.Queues
open RdmaBench.Lib.ByteMem RdmaBench.Lib.Runs RdmaBench.Lib.Signaling
open RdmaBench.Swarm.Model RdmaBench.Swarm.Window

variable (f : Flags)

/-- Every `signalEvery`-th request of a queue pair asks for a completion. -/
def signalEvery : Nat := if f.allsig then 1 else f.unsigBatch

/-- The worker is at an `app_poll_cq(qpn)`. -/
def Polls (a : Worker) (qpn : Nat) : Prop :=
  a.pc = .top ∧ f.windowSize ≤ a.nbTxTot ∧ f.allsig = true ∧ qpn = a.recQpnArr a.windowI ∨
  a.pc = .poll qpn ∧ a.MustPoll f qpn

/-- A request is posted only into a queue with room for it, a completion is
polled only if a signaled request without a polled completion was posted, and the
worker has not written past `rec_qpn_arr`, after which neither can be said. -/
structure QueuesSafe (a : Worker) : Prop where
  room : ∀ qpn, a.pc = .post qpn → (a.queue qpn).unacked (signalEvery f) < f.sqDepth
  polls : ∀ qpn, Polls f a qpn → ∃ op ∈ unpolled a qpn, op.signaled = true
  inBounds : a.pc ≠ .overrun

/-! ## Selective signaling -/

/-- The signaled requests of a queue pair whose completions are not polled. -/
def signaledOps (a : Worker) (qpn : Nat) : Nat :=
  ((unpolled a qpn).map Op.signaled).count true

/-- Every queue pair follows the rule of its batch. A worker about to post has
made the poll that may precede the request. -/
structure Selective (a : Worker) : Prop where
  posted : ∀ qpn, (a.queue qpn).posted = (a.queue qpn).made
  polled : ∀ qpn, a.pc ≠ .post qpn →
    (a.queue qpn).polled = Rule.count f.unsigBatch (a.queue qpn).made .beforeLast
  polledFirst : ∀ qpn, a.pc = .post qpn →
    (a.queue qpn).polled = Rule.count f.unsigBatch ((a.queue qpn).made + 1) .beforeLast
  completions : ∀ qpn, ∀ op ∈ a.cq qpn, op.signaled = true
  signaled : ∀ qpn, signaledOps a qpn + (a.queue qpn).polled =
    Nat.count (· ≡ 0 [MOD f.unsigBatch]) (a.queue qpn).posted

variable {f} {a b : Worker}

theorem selective_start : Selective f (Worker.start f) where
  posted _ := rfl
  polled _ _ := (Nat.zero_div _).symm
  polledFirst _ hpc := Pc.noConfusion hpc
  completions _ _ hop := absurd hop List.not_mem_nil
  signaled _ := rfl

theorem Selective.setBuf (h : Selective f a) (m : Mem) : Selective f { a with connBuf := m } :=
  ⟨h.posted, h.polled, h.polledFirst, h.completions, h.signaled⟩

theorem Selective.mark (h : Selective f a) {qpn k : Nat} {op : Op}
    (hop : (a.sq qpn)[k]? = some op) : Selective f (a.mark qpn k op) := by
  refine ⟨h.posted, h.polled, h.polledFirst, h.completions, fun q => ?_⟩
  rw [signaledOps, map_mark (fun _ => rfl) hop]
  exact h.signaled q

theorem Selective.complete (h : Selective f a) {qpn : Nat} {op : Op} {rest : List Op}
    (hsq : a.sq qpn = op :: rest) : Selective f (a.complete qpn op rest) := by
  refine ⟨h.posted, h.polled, h.polledFirst, forall_cq_complete h.completions rest id,
    fun q => ?_⟩
  have hsame : signaledOps (a.complete qpn op rest) q = signaledOps a q := by
    by_cases hq : q = qpn
    · subst hq
      by_cases hsig : op.signaled = true
      · rw [signaledOps, unpolled_complete hsq hsig, signaledOps]
      · -- an unsignaled request leaves without a completion, and does not count
        simp [signaledOps, unpolled, Worker.complete, hsq, hsig]
    · simp [signaledOps, unpolled, Worker.complete, Function.update_of_ne hq]
  rw [hsame]
  exact h.signaled q

/-- A step that takes no completion and posts nothing. -/
theorem Selective.goto (h : Selective f a) (pc : Pc) (hrec : Nat → Nat)
    (hold : ∀ qpn, a.pc ≠ .post qpn) (hnew : ∀ qpn, pc ≠ .post qpn) :
    Selective f { a with pc := pc, recQpnArr := hrec } :=
  ⟨h.posted, fun q _ => h.polled q (hold q), fun q hq => absurd hq (hnew q), h.completions,
    h.signaled⟩

theorem Selective.pollQp (h : Selective f a) (hB : 0 < f.unsigBatch) {qpn : Nat} {c : Op}
    {rest : List Op} (hpc : a.pc = .poll qpn) (hmust : a.MustPoll f qpn)
    (hcq : a.cq qpn = c :: rest) : Selective f (a.appPollCq qpn rest (.post qpn)) := by
  have hnot : ∀ q, a.pc ≠ .post q := fun q => hpc ▸ Pc.noConfusion
  refine ⟨fun q => ?_, fun q hq => ?_, fun q hq => ?_, forall_cq_poll h.completions hcq,
    fun q => ?_⟩
  · by_cases hq : q = qpn
    · subst hq
      simp only [Worker.appPollCq, Function.update_self]
      exact h.posted q
    · simp only [Worker.appPollCq, Function.update_of_ne hq]
      exact h.posted q
  · have hne : q ≠ qpn := fun heq => hq (heq ▸ rfl)
    simp only [Worker.appPollCq, Function.update_of_ne hne]
    exact h.polled q (hnot q)
  · obtain rfl : qpn = q := Pc.post.inj hq
    have hrule : Rule.Polls f.unsigBatch (a.queue qpn).made .beforeLast := hmust.2
    simp only [Worker.appPollCq, Function.update_self]
    rw [Rule.count_succ hB, if_pos hrule, h.polled qpn (hnot qpn)]
  · have hcount := h.signaled q
    by_cases hq : q = qpn
    · subst hq
      have hc : c.signaled = true := h.completions q c (hcq ▸ List.mem_cons_self)
      simp only [signaledOps, unpolled, hcq, List.cons_append, List.map_cons, hc,
        List.count_cons_self] at hcount
      simp only [signaledOps, unpolled, Worker.appPollCq, Function.update_self]
      omega
    · simpa only [signaledOps, unpolled, Worker.appPollCq, Function.update_of_ne hq] using hcount

theorem Selective.noPollQp (h : Selective f a) (hB : 0 < f.unsigBatch) (hsel : f.allsig = false)
    {qpn : Nat} (hpc : a.pc = .poll qpn) (hmust : ¬a.MustPoll f qpn) :
    Selective f { a with pc := .post qpn } := by
  have hnot : ∀ q, a.pc ≠ .post q := fun q => hpc ▸ Pc.noConfusion
  refine ⟨h.posted, fun q _ => h.polled q (hnot q), fun q hq => ?_, h.completions, h.signaled⟩
  obtain rfl : qpn = q := Pc.post.inj hq
  have hrule : ¬Rule.Polls f.unsigBatch (a.queue qpn).made .beforeLast :=
    fun hr => hmust ⟨hsel, hr⟩
  rw [Rule.count_succ hB, if_neg hrule]
  exact h.polled qpn (hnot qpn)

theorem Selective.postSend (h : Selective f a) (hsel : f.allsig = false) {qpn remOffset : Nat}
    (hpc : a.pc = .post qpn) : Selective f (a.postSend f qpn remOffset) := by
  refine ⟨fun q => ?_, fun q _ => ?_, fun q hq => Pc.noConfusion hq, h.completions, fun q => ?_⟩
  · by_cases hq : q = qpn
    · subst hq
      simp only [Worker.postSend, Function.update_self, h.posted]
    · simp only [Worker.postSend, Function.update_of_ne hq, h.posted]
  · by_cases hq : q = qpn
    · subst hq
      simp only [Worker.postSend, Function.update_self]
      exact h.polledFirst q hpc
    · simp only [Worker.postSend, Function.update_of_ne hq]
      exact h.polled q fun heq => hq (Pc.post.inj (hpc.symm.trans heq)).symm
  · have hcount := h.signaled q
    by_cases hq : q = qpn
    · subst hq
      have hop : (a.op f q remOffset).signaled = true ↔
          (a.queue q).posted ≡ 0 [MOD f.unsigBatch] := by
        simp [Worker.op, hsel, h.posted, Nat.ModEq]
      rw [signaledOps, unpolled_postSend, Function.update_self, List.map_append, List.count_append]
      simp only [Worker.postSend, Function.update_self, Nat.count_succ, List.map_singleton,
        List.count_singleton, beq_true, hop]
      rw [← hcount, signaledOps]
      omega
    · rw [signaledOps, unpolled_postSend, Function.update_of_ne hq]
      simp only [Worker.postSend, Function.update_of_ne hq]
      exact hcount

theorem Selective.act (h : Selective f a) (hB : 0 < f.unsigBatch) (hsel : f.allsig = false)
    {processId : Nat} (hact : Act f processId a b) : Selective f b := by
  cases hact with
  | noWindow hpc => exact h.goto _ _ (fun _ => hpc ▸ Pc.noConfusion) fun _ => Pc.noConfusion
  | pollWindow _ _ hall => exact absurd (hall.symm.trans hsel) Bool.noConfusion
  | noPollWindow hpc => exact h.goto _ _ (fun _ => hpc ▸ Pc.noConfusion) fun _ => Pc.noConfusion
  | assertFails hpc => exact h.goto _ _ (fun _ => hpc ▸ Pc.noConfusion) fun _ => Pc.noConfusion
  | takeSlot hpc =>
    exact (h.goto .choose _ (fun _ => hpc ▸ Pc.noConfusion) fun _ => Pc.noConfusion).setBuf _
  | noTakeSlot hpc => exact h.goto _ _ (fun _ => hpc ▸ Pc.noConfusion) fun _ => Pc.noConfusion
  | chooseQp hpc => exact h.goto _ _ (fun _ => hpc ▸ Pc.noConfusion) fun _ => Pc.noConfusion
  | overrun hpc => exact h.goto _ _ (fun _ => hpc ▸ Pc.noConfusion) fun _ => Pc.noConfusion
  | pollQp hpc hmust hcq => exact h.pollQp hB hpc hmust hcq
  | noPollQp hpc hmust => exact h.noPollQp hB hsel hpc hmust
  | postSend hpc => exact h.postSend hsel hpc

theorem reachable_selective {s : Workers} (hB : 0 < f.unsigBatch) (hsel : f.allsig = false)
    (hs : Reachable (swarm f) s) (w : Thread) : Selective f (s w) :=
  reachable_worker selective_start (fun h hact => h.act hB hsel hact) (fun _ h hop => h.mark hop)
    (fun _ h _ hop => (h.mark hop).setBuf _) (fun _ h => h.setBuf _)
    (fun h hsq _ => h.complete hsq) hs w

/-! ## Safety of both regimes -/

/-- What a worker about to post does not know to be done. -/
theorem Selective.unacked (h : Selective f a) {qpn : Nat} (hpc : a.pc = .post qpn) :
    (a.queue qpn).unacked f.unsigBatch = (a.queue qpn).made -
      if ((a.queue qpn).made + 1) / f.unsigBatch = 0 then 0
      else (((a.queue qpn).made + 1) / f.unsigBatch - 1) * f.unsigBatch + 1 := by
  rw [Queue.unacked, Queue.acked, h.polledFirst qpn hpc, h.posted]
  rfl

/-- Two batches are more than enough room. -/
theorem Selective.room (h : Selective f a) (hB : 2 ≤ f.unsigBatch) {qpn : Nat}
    (hpc : a.pc = .post qpn) : (a.queue qpn).unacked f.unsigBatch + 2 < 2 * f.unsigBatch := by
  have hB0 : 0 < f.unsigBatch := Nat.lt_of_lt_of_le Nat.zero_lt_two hB
  have hdiv := Nat.div_add_mod ((a.queue qpn).made + 1) f.unsigBatch
  have hlt := Nat.mod_lt ((a.queue qpn).made + 1) hB0
  rw [h.unacked hpc]
  cases hpolled : ((a.queue qpn).made + 1) / f.unsigBatch with
  | zero =>
    rw [hpolled, Nat.mul_zero] at hdiv
    rw [if_pos rfl]
    omega
  | succ c =>
    rw [hpolled, Nat.mul_succ, Nat.mul_comm] at hdiv
    rw [if_neg (Nat.succ_ne_zero c), Nat.add_sub_cancel]
    omega

/-- A poll comes after the first request of its batch, if that is not the last. -/
theorem Selective.polls (h : Selective f a) (hB : 2 ≤ f.unsigBatch) {qpn : Nat}
    (hpc : a.pc = .poll qpn) (hmust : a.MustPoll f qpn) :
    ∃ op ∈ unpolled a qpn, op.signaled = true := by
  have hcount := h.signaled qpn
  have hmod : (a.queue qpn).made % f.unsigBatch = f.unsigBatch - 1 := hmust.2
  rw [h.polled qpn (hpc ▸ Pc.noConfusion), h.posted qpn] at hcount
  have hclass := Nat.count_modEq_card (a.queue qpn).made (Nat.lt_of_lt_of_le Nat.zero_lt_two hB) 0
  rw [Nat.zero_mod, hmod, if_pos (Nat.sub_pos_of_lt hB)] at hclass
  have hpos : 0 < signaledOps a qpn := by
    rw [hclass] at hcount
    simp only [Rule.count] at hcount
    omega
  obtain ⟨op, hop, hsig⟩ := List.mem_map.1 (List.count_pos_iff.1 hpos)
  exact ⟨op, hop, hsig⟩

/-- With `allsig` a window is enough room. -/
theorem room_of_inWindow (h : InWindow f a) (hW : 0 < f.windowSize) {qpn : Nat}
    (hpc : a.pc = .post qpn) : (a.queue qpn).unacked 1 < f.windowSize := by
  have hne : a.pc ≠ .top := hpc ▸ Pc.noConfusion
  have hcons : consumed f a = a.nbTxTot + 1 - f.windowSize := if_neg hne
  have hlen : (unpolled a qpn).length ≤ a.nbTxTot - consumed f a := by
    have := h.dealt.length_le qpn
    rwa [steps, List.length_map] at this
  rw [Queue.unacked_one, h.counts qpn]
  omega

/-! ## Passes of the loop -/

variable {s : Workers} {w : Thread} {qpn : Nat}

def InSwarm (f : Flags) (w : Thread) : Prop := w.1 < f.numProcesses ∧ w.2 < f.numThreads

instance (f : Flags) (w : Thread) : Decidable (InSwarm f w) :=
  inferInstanceAs (Decidable (_ ∧ _))

theorem exists_goodOffset (hf : f.Accepted) : ∃ remOffset, GoodOffset f remOffset := by
  have hregion : f.pollingRegionSize < 2 ^ 20 :=
    Nat.lt_trans hf.pollingRegionSize_lt (by decide)
  have hsize : f.size ≤ 16 := hf.1
  refine ⟨2 ^ 20, by decide, hregion, ?_⟩
  show 2 ^ 20 < 2 * 2 ^ 20 - f.size
  omega

theorem reach_act (hw : InSwarm f w) (hs : Reachable (swarm f) s) (hact : Act f w.1 (s w) b) :
    ∃ t, Reachable (swarm f) t ∧ t w = b :=
  ⟨Function.update s w b, .step (e := .act w) hs ⟨hw.1, hw.2, b, hact, rfl⟩,
    Function.update_self ..⟩

/-- A worker takes several steps while the others stand still. -/
theorem reach_acts (hw : InSwarm f w) (hs : Reachable (swarm f) s)
    (hacts : Relation.ReflTransGen (Act f w.1) (s w) b) :
    Reachable (swarm f) (Function.update s w b) := by
  induction hacts with
  | refl => rwa [Function.update_eq_self]
  | @tail b c _ hact ih =>
    refine .step (e := .act w) ih ⟨hw.1, hw.2, c, ?_, ?_⟩
    · rwa [Function.update_self]
    · rw [Function.update_idem]

/-- The worker chooses a queue pair from which it needs no completion. -/
theorem reach_post (hw : InSwarm f w) (hs : Reachable (swarm f) s) (hpc : (s w).pc = .choose)
    (hslot : (s w).windowI < kAppMaxWindow) (hq : CanChoose f w.1 qpn)
    (hmust : ¬(s w).MustPoll f qpn) :
    ∃ t, Reachable (swarm f) t ∧ t w =
      { s w with
        pc := .post qpn, recQpnArr := Function.update (s w).recQpnArr (s w).windowI qpn } := by
  obtain ⟨t, ht, htw⟩ := reach_act hw hs (.chooseQp hpc hq hslot)
  have hmust' : ¬(t w).MustPoll f qpn := by rwa [htw]
  obtain ⟨u, hu, huw⟩ := reach_act hw ht (.noPollQp (by rw [htw]) hmust')
  exact ⟨u, hu, by rw [huw, htw]⟩

/-- It sends the request and is back at the top. -/
theorem reach_top (hf : f.Accepted) (hw : InSwarm f w) (hs : Reachable (swarm f) s)
    (hpc : (s w).pc = .choose) (hslot : (s w).windowI < kAppMaxWindow)
    (hq : CanChoose f w.1 qpn) (hmust : ¬(s w).MustPoll f qpn) :
    ∃ t remOffset, Reachable (swarm f) t ∧ t w =
      ({ s w with
        pc := .post qpn
        recQpnArr := Function.update (s w).recQpnArr (s w).windowI qpn } : Worker).postSend f
          qpn remOffset := by
  obtain ⟨t, ht, htw⟩ := reach_post hw hs hpc hslot hq hmust
  obtain ⟨remOffset, hoff⟩ := exists_goodOffset hf
  obtain ⟨u, hu, huw⟩ := reach_act hw ht (.postSend (by rw [htw]) hoff)
  exact ⟨u, remOffset, hu, by rw [huw, htw]⟩

/-- The worker has sent `m` requests, all on queue pair `qpn`, and polled nothing. -/
structure Filled (f : Flags) (qpn m : Nat) (a : Worker) : Prop where
  pc : a.pc = .top
  nbTxTot : a.nbTxTot = m
  windowI : m < f.windowSize → a.windowI = m
  queue : a.queue qpn = ⟨m, m, 0⟩
  connBuf : a.connBuf = (Worker.start f).connBuf

/-- A window of requests can all go to one queue pair. -/
theorem reach_filled (hf : f.Accepted) (hall : f.allsig = true) (hw : InSwarm f w)
    (hq : CanChoose f w.1 qpn) {m : Nat} (hm : m ≤ f.windowSize) :
    ∃ s, Reachable (swarm f) s ∧ Filled f qpn m (s w) := by
  induction m with
  | zero => exact ⟨_, .init rfl, rfl, rfl, fun _ => rfl, rfl, rfl⟩
  | succ m ih =>
    obtain ⟨s, hs, h⟩ := ih (Nat.le_of_succ_le hm)
    have hslot : (s w).windowI = m := h.windowI hm
    obtain ⟨t, ht, htw⟩ := reach_act hw hs (.noWindow h.pc (h.nbTxTot.trans_lt hm))
    have hbound : (t w).windowI < kAppMaxWindow := by
      rw [htw]
      exact hslot.trans_lt (Nat.lt_of_lt_of_le hm hf.2.1)
    obtain ⟨u, remOffset, hu, huw⟩ := reach_top hf hw ht (by rw [htw]) hbound hq
      fun hmust => absurd (hall.symm.trans hmust.1) Bool.noConfusion
    refine ⟨u, hu, ?_⟩
    rw [huw, htw]
    refine ⟨rfl, ?_, fun hlt => ?_, ?_, h.connBuf⟩
    · simp only [Worker.postSend, h.nbTxTot]
    · simp only [Worker.postSend, hslot]
      exact if_neg (Nat.ne_of_lt hlt)
    · simp only [Worker.postSend, Function.update_self, h.queue]

/-! ## Requests that complete at once -/

/-- A worker has sent `m` requests, all on queue pair `qpn`, each of which has completed. If
they are READs, its slots are full. With `window_size` 0 it has a slot for each request. -/
structure Eager (f : Flags) (qpn m : Nat) (a : Worker) : Prop where
  pc : a.pc = .top
  nbTxTot : a.nbTxTot = m
  windowI : a.windowI = m % f.windowSize
  made : (a.queue qpn).made = m
  sq : a.sq qpn = []
  slots : f.doRead = true → ∀ i, f.windowSize = 0 ∨ i < f.windowSize ∧ i < m →
    i * f.size < kAppBufSize → a.connBuf (i * f.size) ≠ 0

section Eager
variable {m : Nat} (hf : f.Accepted) (hsel : f.allsig = false)
  (hsize : f.doRead = true → 0 < f.size)

theorem eager_start : Eager f qpn 0 (Worker.start f) := by
  refine ⟨rfl, rfl, (Nat.zero_mod _).symm, rfl, rfl, fun _ i hi hlt => ?_⟩
  obtain h0 | ⟨-, hi⟩ := hi
  · have hregion : f.pollingRegionSize = 0 := by rw [Flags.pollingRegionSize, h0, Nat.zero_mul]
    rw [start_connBuf_eq_one (by omega) hlt]
    decide
  · exact absurd hi (Nat.not_lt_zero i)

include hf in
/-- The slots that a worker uses are in its buffer. -/
theorem slot_lt_bufSize {i : Nat} (hi : i ≤ kAppMaxWindow) : i * f.size < kAppBufSize :=
  calc i * f.size ≤ kAppMaxWindow * kHrdMaxInline := Nat.mul_le_mul hi hf.1
    _ < kAppBufSize := by decide

include hf in
theorem windowI_le (hm : f.windowSize = 0 → m ≤ kAppMaxWindow) :
    m % f.windowSize ≤ kAppMaxWindow := by
  rcases Nat.eq_zero_or_pos f.windowSize with h0 | hpos
  · rw [h0, Nat.mod_zero]
    exact hm h0
  · exact (Nat.mod_lt m hpos).le.trans hf.2.1

include hf hsel in
/-- The worker comes to choose a queue pair, and clears at most its own slot. -/
theorem Eager.acts_choose (h : Eager f qpn m a) (hm : f.windowSize = 0 → m ≤ kAppMaxWindow)
    (processId : Nat) :
    ∃ buf, Relation.ReflTransGen (Act f processId) a { a with pc := .choose, connBuf := buf } ∧
      ∀ x, x ≠ a.pollBuf f → buf x = a.connBuf x := by
  rcases Nat.lt_or_ge a.nbTxTot f.windowSize with hlt | hge
  · exact ⟨a.connBuf, .single (.noWindow h.pc hlt), fun _ _ => rfl⟩
  · have hslot : Relation.ReflTransGen (Act f processId) a { a with pc := .slot } :=
      .single (.noPollWindow h.pc hge hsel)
    cases hr : f.doRead with
    | true =>
      have hfull : a.connBuf (a.pollBuf f) ≠ 0 := by
        rw [h.nbTxTot] at hge
        rw [Worker.pollBuf, h.windowI]
        refine h.slots hr _ ?_ (slot_lt_bufSize hf (windowI_le hf hm))
        rcases Nat.eq_zero_or_pos f.windowSize with h0 | hpos
        · exact .inl h0
        · exact .inr ⟨Nat.mod_lt m hpos, (Nat.mod_lt m hpos).trans_le hge⟩
      exact ⟨_, hslot.tail (.takeSlot rfl hr hfull), fun x hx => Function.update_of_ne hx ..⟩
    | false => exact ⟨_, hslot.tail (.noTakeSlot rfl hr), fun _ _ => rfl⟩

/-- A worker `b` about to post request `m`, as `a` comes to be. -/
structure Posting (f : Flags) (processId qpn m : Nat) (a b : Worker) : Prop where
  acts : Relation.ReflTransGen (Act f processId) a b
  pc : b.pc = .post qpn
  nbTxTot : b.nbTxTot = m
  windowI : b.windowI = m % f.windowSize
  made : (b.queue qpn).made = m
  sq : b.sq qpn = []
  connBuf : ∀ x, x ≠ m % f.windowSize * f.size → b.connBuf x = a.connBuf x

include hf hsel in
/-- The completion that the worker may have to poll is there. -/
theorem Eager.posting (hB : 2 ≤ f.unsigBatch) (hw : InSwarm f w) (hs : Reachable (swarm f) s)
    (h : Eager f qpn m (s w)) (hq : CanChoose f w.1 qpn)
    (hm : f.windowSize = 0 → m < kAppMaxWindow) : ∃ b, Posting f w.1 qpn m (s w) b := by
  obtain ⟨buf, hacts, hbuf⟩ := h.acts_choose hf hsel (fun h0 => (hm h0).le) w.1
  rw [Worker.pollBuf, h.windowI] at hbuf
  have hslot : m % f.windowSize < kAppMaxWindow := by
    rcases Nat.eq_zero_or_pos f.windowSize with h0 | hpos
    · rw [h0, Nat.mod_zero]
      exact hm h0
    · exact (Nat.mod_lt m hpos).trans_le hf.2.1
  have hchoose := hacts.tail (.chooseQp rfl hq (h.windowI.trans_lt hslot))
  by_cases hmust : (s w).MustPoll f qpn
  · have hselective := reachable_selective (Nat.lt_of_lt_of_le Nat.zero_lt_two hB) hsel
      (reach_acts hw hs hchoose) w
    rw [Function.update_self] at hselective
    obtain ⟨op, hop, -⟩ := hselective.polls hB rfl hmust
    simp only [unpolled, h.sq, List.append_nil] at hop
    obtain ⟨c, rest, hcq⟩ := List.exists_cons_of_ne_nil (List.ne_nil_of_mem hop)
    exact ⟨_, hchoose.tail (.pollQp rfl hmust hcq), rfl, h.nbTxTot, h.windowI,
      by simp [Worker.appPollCq, h.made], h.sq, hbuf⟩
  · exact ⟨_, hchoose.tail (.noPollQp rfl hmust), rfl, h.nbTxTot, h.windowI, h.made, h.sq, hbuf⟩

theorem peer_ne (hq : CanChoose f w.1 qpn) : peer f w qpn ≠ w := by
  intro heq
  have hsame : qpn % f.numProcesses = w.1 := congrArg Prod.fst heq
  exact absurd hsame (by simpa [isRemoteQpOnSameProcess] using hq.2)

/-- What placing a request changes at its own worker. -/
theorem place_self (hq : CanChoose f w.1 qpn) (k : Nat) (op : Op) :
    place f s w qpn k op w =
      if f.doRead then ((s w).mark qpn k op).readFrom f op (s (peer f w qpn)).connBuf
      else (s w).mark qpn k op := by
  unfold place
  split
  · rw [Function.update_self]
  · rw [Function.update_of_ne (peer_ne hq).symm, Function.update_self]

/-- The program does not see that a request is placed. -/
theorem place_self_code (hq : CanChoose f w.1 qpn) (k : Nat) (op : Op) :
    (place f s w qpn k op w).pc = (s w).pc ∧
      (place f s w qpn k op w).nbTxTot = (s w).nbTxTot ∧
      (place f s w qpn k op w).windowI = (s w).windowI ∧
      (place f s w qpn k op w).queue = (s w).queue ∧
      (place f s w qpn k op w).sq = ((s w).mark qpn k op).sq := by
  rw [place_self hq]
  split <;> exact ⟨rfl, rfl, rfl, rfl, rfl⟩

/-- A READ of ones into slot `i` fills it and leaves the other slots as they are. -/
theorem readFrom_slot (hsize : 0 < f.size) {op : Op} {src : Mem} (hsrc : src op.remOffset = 1)
    (i : Nat) : (a.readFrom f op src).connBuf (i * f.size) =
      if i = op.slot then 1 else a.connBuf (i * f.size) := by
  by_cases hi : i = op.slot
  · rw [if_pos hi, hi]
    have hcopy : memcpy a.connBuf (op.slot * f.size) (fun i => src (op.remOffset + i)) f.size
        (op.slot * f.size + 0) = src (op.remOffset + 0) := memcpy_inside hsize
    exact hcopy.trans hsrc
  · rw [if_neg hi]
    refine if_neg fun hin => ?_
    rcases Nat.lt_or_gt_of_ne hi with hlt | hgt
    · have hle := Nat.mul_le_mul_right f.size (Nat.succ_le_of_lt hlt)
      rw [Nat.succ_mul] at hle
      omega
    · have hle := Nat.mul_le_mul_right f.size (Nat.succ_le_of_lt hgt)
      rw [Nat.succ_mul] at hle
      omega

/-- The next slot, also if the window is empty. -/
theorem Posting.windowI_post {processId : Nat} (hb : Posting f processId qpn m a b)
    (remOffset : Nat) : (b.postSend f qpn remOffset).windowI = (m + 1) % f.windowSize := by
  show (if b.windowI + 1 = f.windowSize then 0 else b.windowI + 1) = _
  rw [hb.windowI]
  rcases Nat.eq_zero_or_pos f.windowSize with h0 | hpos
  · rw [h0, if_neg (Nat.succ_ne_zero _), Nat.mod_zero, Nat.mod_zero]
  · exact Lib.SlotRing.next_slot hpos

include hsize in
/-- Once its own slot has been filled, the slots are full up to it. -/
theorem Posting.slots_full {processId : Nat} (hb : Posting f processId qpn m a b)
    (h : Eager f qpn m a) (hr : f.doRead = true) {i : Nat} (hne : i ≠ m % f.windowSize)
    (hi : f.windowSize = 0 ∨ i < f.windowSize ∧ i < m + 1) (hlt : i * f.size < kAppBufSize) :
    b.connBuf (i * f.size) ≠ 0 := by
  rw [hb.connBuf _ fun heq => hne (Nat.eq_of_mul_eq_mul_right (hsize hr) heq)]
  refine h.slots hr i (hi.imp_right fun hi => ⟨hi.1, ?_⟩) hlt
  -- slot `m` itself is the one in use before the first round ends
  refine Nat.lt_of_le_of_ne (Nat.le_of_lt_succ hi.2) fun heq => hne ?_
  rw [← heq, Nat.mod_eq_of_lt hi.1]

include hf hsel hsize in
/-- The next request is posted, placed and completed. -/
theorem Eager.next (hB : 2 ≤ f.unsigBatch) (hw : InSwarm f w) (hs : Reachable (swarm f) s)
    (h : Eager f qpn m (s w)) (hothers : f.doRead = true → ∀ v, v ≠ w → s v = Worker.start f)
    (hq : CanChoose f w.1 qpn) (hm : f.windowSize = 0 → m < kAppMaxWindow) :
    ∃ t, Reachable (swarm f) t ∧ Eager f qpn (m + 1) (t w) ∧
      (f.doRead = true → ∀ v, v ≠ w → t v = Worker.start f) := by
  obtain ⟨b, hb⟩ := h.posting hf hsel hB hw hs hq hm
  obtain ⟨remOffset, hoff⟩ := exists_goodOffset hf
  let op := b.op f qpn remOffset
  let u := Function.update s w (b.postSend f qpn remOffset)
  have hposted : Reachable (swarm f) u :=
    reach_acts hw hs (hb.acts.tail (.postSend hb.pc hoff))
  have huw : u w = b.postSend f qpn remOffset := Function.update_self ..
  have huv : f.doRead = true → ∀ v, v ≠ w → u v = Worker.start f := fun hr v hv =>
    (Function.update_of_ne hv ..).trans (hothers hr v hv)
  have hsq : (u w).sq qpn = [op] := by simp [huw, op, Worker.postSend, hb.sq]
  have hplaced : Reachable (swarm f) (place f u w qpn 0 op) :=
    .step (e := .place w qpn 0) hposted ⟨op, by rw [hsq]; rfl, rfl, rfl⟩
  obtain ⟨hpc, hnb, hwindow, hqueue, htsq⟩ := place_self_code (s := u) hq 0 op
  have htsq : (place f u w qpn 0 op w).sq qpn = [{ op with placed := true }] := by
    simp [htsq, Worker.mark, hsq]
  refine ⟨Function.update (place f u w qpn 0 op) w
      ((place f u w qpn 0 op w).complete qpn { op with placed := true } []),
    .step (e := .complete w qpn) hplaced ⟨_, _, htsq, rfl, rfl⟩, ?_, fun hr v hv => ?_⟩
  · rw [Function.update_self]
    refine ⟨?_, ?_, ?_, ?_, by simp [Worker.complete], fun hr i hi hlt => ?_⟩
    · exact hpc.trans (by rw [huw]; rfl)
    · refine hnb.trans ?_
      rw [huw, ← hb.nbTxTot]
      rfl
    · exact hwindow.trans (by rw [huw, hb.windowI_post])
    · show ((place f u w qpn 0 op w).queue qpn).made = m + 1
      rw [hqueue, huw]
      simp [Worker.postSend, hb.made]
    · show (place f u w qpn 0 op w).connBuf (i * f.size) ≠ 0
      have hone : (u (peer f w qpn)).connBuf op.remOffset = 1 := by
        rw [huv hr _ (peer_ne hq)]
        exact start_connBuf_eq_one hoff.2.1.le (hoff.2.2.trans_le (Nat.sub_le _ _))
      rw [place_self hq, if_pos hr, readFrom_slot (hsize hr) hone]
      split
      · decide
      · next hne =>
        rw [huw]
        exact hb.slots_full hsize h hr (hb.windowI ▸ hne) hi hlt
  · rw [Function.update_of_ne hv, place, if_pos hr, Function.update_of_ne hv]
    exact huv hr v hv

include hf hsel hsize in
/-- Any number of requests can complete at once, up to one for each place of
`rec_qpn_arr` if the window is empty. -/
theorem reach_eager (hB : 2 ≤ f.unsigBatch) (hw : InSwarm f w) (hq : CanChoose f w.1 qpn)
    (hm : f.windowSize = 0 → m ≤ kAppMaxWindow) :
    ∃ s, Reachable (swarm f) s ∧ Eager f qpn m (s w) ∧
      (f.doRead = true → ∀ v, v ≠ w → s v = Worker.start f) := by
  induction m with
  | zero => exact ⟨_, .init rfl, eager_start, fun _ _ _ => rfl⟩
  | succ m ih =>
    obtain ⟨s, hs, h, hothers⟩ := ih fun h0 => Nat.le_of_succ_le (hm h0)
    exact h.next hf hsel hsize hB hw hs hothers hq hm

end Eager

/-! ## When the queues are safe -/

/-- What `main` would have to check: that the window is not empty and, with `allsig`, that
it fits into a send queue, without, that a batch is more than one request and two of them
are at most two requests more than a send queue holds. -/
def SafeFlags (f : Flags) : Prop :=
  1 ≤ f.windowSize ∧ (f.allsig = true → f.windowSize ≤ f.sqDepth) ∧
  (f.allsig = false → 2 ≤ f.unsigBatch ∧ 2 * f.unsigBatch ≤ f.sqDepth + 2)

instance (f : Flags) : Decidable (SafeFlags f) := inferInstanceAs (Decidable (_ ∧ _ ∧ _))

/-- A worker with a window stays in `rec_qpn_arr`. -/
theorem reachable_inBounds (hW : 0 < f.windowSize) (hle : f.windowSize ≤ kAppMaxWindow)
    (hs : Reachable (swarm f) s) (w : Thread) :
    (s w).windowI < f.windowSize ∧ (s w).pc ≠ .overrun := by
  refine reachable_worker (I := fun a => a.windowI < f.windowSize ∧ a.pc ≠ .overrun)
    ⟨hW, Pc.noConfusion⟩ (fun {_ a b} h hact => ?_) (fun _ h _ => h) (fun _ h _ _ => h)
    (fun _ h => h) (fun h _ _ => h) hs w
  cases hact with
  | overrun _ _ hge => exact absurd (h.1.trans_le hle) (Nat.not_lt.2 hge)
  | postSend =>
    refine ⟨?_, Pc.noConfusion⟩
    show (if a.windowI + 1 = f.windowSize then 0 else a.windowI + 1) < f.windowSize
    have := h.1
    split <;> omega
  | _ => exact ⟨h.1, Pc.noConfusion⟩

theorem queuesSafe_of_flags (hf : f.Accepted) (hflags : SafeFlags f)
    (hs : Reachable (swarm f) s) (w : Thread) : QueuesSafe f (s w) := by
  obtain ⟨hW, hflags⟩ := hflags
  have hin := (reachable_inBounds hW hf.2.1 hs w).2
  cases hall : f.allsig with
  | true =>
    have h := reachable_inWindow hW hall hs w
    refine ⟨fun q hpc => ?_, fun q hp => ?_, hin⟩
    · rw [signalEvery, if_pos hall]
      exact Nat.lt_of_lt_of_le (room_of_inWindow h hW hpc) (hflags.1 hall)
    · obtain ⟨hpc, hn, -, rfl⟩ | ⟨-, hmust⟩ := hp
      · obtain ⟨op, rest, hop, -, -, hsig⟩ := h.next hW hpc hn
        exact ⟨op, hop ▸ List.mem_cons_self, hsig⟩
      · exact absurd (hall.symm.trans hmust.1) Bool.noConfusion
  | false =>
    obtain ⟨hB, hroom⟩ := hflags.2 hall
    have h := reachable_selective (Nat.lt_of_lt_of_le Nat.zero_lt_two hB) hall hs w
    refine ⟨fun q hpc => ?_, fun q hp => ?_, hin⟩
    · rw [signalEvery, if_neg (hall ▸ Bool.noConfusion)]
      have := h.room hB hpc
      omega
    · obtain ⟨-, -, htrue, -⟩ | ⟨hpc, hmust⟩ := hp
      · exact absurd (htrue.symm.trans hall) Bool.noConfusion
      · exact h.polls hB hpc hmust

/-- With an empty window the first thing a worker does is to poll queue pair 0. -/
theorem unsafe_of_no_window (hall : f.allsig = true) (hW : f.windowSize = 0) :
    ¬QueuesSafe f (Worker.start f) := by
  intro h
  obtain ⟨op, hop, -⟩ := h.polls 0 (.inl ⟨rfl, hW.le, hall, rfl⟩)
  exact List.not_mem_nil hop

/-- A window larger than a send queue overflows it. -/
theorem unsafe_of_large_window (hf : f.Accepted) (hall : f.allsig = true)
    (hW : f.sqDepth < f.windowSize) (hw : InSwarm f w) (hq : CanChoose f w.1 qpn) :
    ∃ s, Reachable (swarm f) s ∧ ¬QueuesSafe f (s w) := by
  obtain ⟨s, hs, h⟩ := reach_filled hf hall hw hq (Nat.le_of_lt hW)
  have hslot : (s w).windowI = f.sqDepth := h.windowI hW
  obtain ⟨t, ht, htw⟩ := reach_act hw hs (.noWindow h.pc (h.nbTxTot.trans_lt hW))
  have hbound : (t w).windowI < kAppMaxWindow := by
    rw [htw]
    exact hslot.trans_lt (Nat.lt_of_lt_of_le hW hf.2.1)
  obtain ⟨u, hu, huw⟩ := reach_post hw ht (by rw [htw]) hbound hq
    fun hmust => absurd (hall.symm.trans hmust.1) Bool.noConfusion
  refine ⟨u, hu, fun hsafe => ?_⟩
  have hroom := hsafe.room qpn (by rw [huw])
  rw [signalEvery, if_pos hall, Queue.unacked_one, huw, htw, h.queue] at hroom
  exact Nat.lt_irrefl _ hroom

/-- Without `allsig` nothing keeps a worker from choosing its first queue pair. -/
theorem reach_first_choose (hsel : f.allsig = false) (hw : InSwarm f w) :
    ∃ s m, Reachable (swarm f) s ∧ s w = { Worker.start f with pc := .choose, connBuf := m } := by
  have hinit : Reachable (swarm f) fun _ => Worker.start f := .init rfl
  rcases Nat.eq_zero_or_pos f.windowSize with hW | hW
  · obtain ⟨s, hs, hsw⟩ := reach_act hw hinit (.noPollWindow rfl hW.le hsel)
    cases hr : f.doRead with
    | true =>
      -- the polling region is empty, so the byte waited for is one
      have hbyte : (s w).connBuf ((s w).pollBuf f) = 1 := by
        have hregion : f.pollingRegionSize = 0 := by
          rw [Flags.pollingRegionSize, hW, Nat.zero_mul]
        have haddr : (s w).pollBuf f = 0 := by
          rw [hsw]
          exact Nat.zero_mul _
        rw [haddr, hsw]
        exact start_connBuf_eq_one hregion.le (by decide)
      have hne : (s w).connBuf ((s w).pollBuf f) ≠ 0 := by
        rw [hbyte]
        decide
      obtain ⟨t, ht, htw⟩ := reach_act hw hs (.takeSlot (by rw [hsw]) hr hne)
      exact ⟨t, _, ht, by rw [htw, hsw]⟩
    | false =>
      obtain ⟨t, ht, htw⟩ := reach_act hw hs (.noTakeSlot (by rw [hsw]) hr)
      exact ⟨t, _, ht, by rw [htw, hsw]⟩
  · obtain ⟨s, hs, hsw⟩ := reach_act hw hinit (.noWindow rfl hW)
    exact ⟨s, _, hs, hsw⟩

/-- With a batch of one, a worker polls before its first request. -/
theorem unsafe_of_batch_one (hsel : f.allsig = false) (hB : f.unsigBatch = 1)
    (hw : InSwarm f w) (hq : CanChoose f w.1 qpn) :
    ∃ s, Reachable (swarm f) s ∧ ¬QueuesSafe f (s w) := by
  obtain ⟨s, m, hs, hsw⟩ := reach_first_choose hsel hw
  have hslot : (s w).windowI < kAppMaxWindow := by
    rw [hsw]
    exact Nat.zero_lt_succ _
  obtain ⟨t, ht, htw⟩ := reach_act hw hs (.chooseQp (by rw [hsw]) hq hslot)
  refine ⟨t, ht, fun hsafe => ?_⟩
  have hmust : (t w).MustPoll f qpn := ⟨hsel, by rw [hB, Nat.mod_one]⟩
  obtain ⟨op, hop, -⟩ := hsafe.polls qpn (.inr ⟨by rw [htw], hmust⟩)
  rw [htw, hsw] at hop
  exact List.not_mem_nil hop

/-- With an empty window and no `allsig`, a worker leaves `rec_qpn_arr`. -/
theorem unsafe_of_overrun (hf : f.Accepted) (hsel : f.allsig = false)
    (hsize : f.doRead = true → 0 < f.size) (hB : 2 ≤ f.unsigBatch) (hW : f.windowSize = 0)
    (hw : InSwarm f w) (hq : CanChoose f w.1 qpn) :
    ∃ s, Reachable (swarm f) s ∧ ¬QueuesSafe f (s w) := by
  obtain ⟨s, hs, h, -⟩ := reach_eager hf hsel hsize hB hw hq fun _ => Nat.le_refl kAppMaxWindow
  obtain ⟨buf, hacts, -⟩ := h.acts_choose hf hsel (fun _ => Nat.le_refl _) w.1
  have hslot : kAppMaxWindow ≤ (s w).windowI := by rw [h.windowI, hW, Nat.mod_zero]
  have hreach := reach_acts hw hs (hacts.tail (.overrun rfl hq hslot))
  exact ⟨_, hreach, fun hsafe => hsafe.inBounds (by rw [Function.update_self])⟩

/-- With large batches, a send queue overflows before the second completion is polled. -/
theorem unsafe_of_large_batch (hf : f.Accepted) (hsel : f.allsig = false)
    (hsize : f.doRead = true → 0 < f.size) (hB : 2 ≤ f.unsigBatch) (hW : 0 < f.windowSize)
    (hroom : f.sqDepth + 2 < 2 * f.unsigBatch) (hw : InSwarm f w) (hq : CanChoose f w.1 qpn) :
    ∃ s, Reachable (swarm f) s ∧ ¬QueuesSafe f (s w) := by
  have hB0 : 0 < f.unsigBatch := Nat.lt_of_lt_of_le Nat.zero_lt_two hB
  obtain ⟨s, hs, h, -⟩ := reach_eager (m := 2 * f.unsigBatch - 2) hf hsel hsize hB hw hq
    fun h0 => absurd h0 hW.ne'
  obtain ⟨b, hb⟩ := h.posting hf hsel hB hw hs hq fun h0 => absurd h0 hW.ne'
  have hreach := reach_acts hw hs hb.acts
  have hselective := reachable_selective hB0 hsel hreach w
  refine ⟨_, hreach, fun hsafe => ?_⟩
  have hlt := hsafe.room qpn (by rw [Function.update_self, hb.pc])
  rw [Function.update_self] at hselective hlt
  have hone : (2 * f.unsigBatch - 2 + 1) / f.unsigBatch = 1 :=
    Nat.div_eq_of_lt_le (by omega) (by omega)
  rw [signalEvery, if_neg (hsel ▸ Bool.noConfusion), hselective.unacked hb.pc, hb.made, hone] at hlt
  simp only [Nat.one_ne_zero, if_false, Nat.sub_self, Nat.zero_mul, Nat.zero_add] at hlt
  omega

/-- The send queues of every worker are safe in every run with safe flags, and only with
these where `choose_qp` has a queue pair to return and READs have a first byte. -/
theorem queues_safe_iff (f : Flags) (hf : f.Accepted) (hB : 1 ≤ f.unsigBatch) :
    (SafeFlags f → ∀ s, Reachable (swarm f) s → ∀ w, InSwarm f w → QueuesSafe f (s w)) ∧
    (2 ≤ f.numProcesses → 1 ≤ f.vmsPerProcess → (f.doRead = true → 1 ≤ f.size) →
      (∀ s, Reachable (swarm f) s → ∀ w, InSwarm f w → QueuesSafe f (s w)) → SafeFlags f) := by
  refine ⟨fun hflags s hs w _ => queuesSafe_of_flags hf hflags hs w,
    fun hN hV hsize hsafe => ?_⟩
  have hw : InSwarm f (0, 0) := ⟨Nat.lt_of_lt_of_le Nat.zero_lt_two hN, hf.2.2.1.1⟩
  obtain ⟨qpn, hq⟩ := exists_canChoose hN hV 0
  have hnot : ¬∃ s, Reachable (swarm f) s ∧ ¬QueuesSafe f (s (0, 0)) := by
    rintro ⟨s, hs, hunsafe⟩
    exact hunsafe (hsafe s hs _ hw)
  have hbatch : f.allsig = false → 2 ≤ f.unsigBatch := fun hsel =>
    Nat.lt_of_le_of_ne hB fun h1 => hnot (unsafe_of_batch_one hsel h1.symm hw hq)
  have hW : 1 ≤ f.windowSize := by
    refine Nat.pos_of_ne_zero fun h0 => ?_
    cases hall : f.allsig with
    | true => exact unsafe_of_no_window hall h0 (hsafe _ (.init rfl) (0, 0) hw)
    | false => exact hnot (unsafe_of_overrun hf hall hsize (hbatch hall) h0 hw hq)
  refine ⟨hW, fun hall => Nat.le_of_not_lt fun hlt => ?_,
    fun hsel => ⟨hbatch hsel, Nat.le_of_not_lt fun hlt => ?_⟩⟩
  · exact hnot (unsafe_of_large_window hf hall hlt hw hq)
  · exact hnot (unsafe_of_large_batch hf hsel hsize (hbatch hsel) hW hlt hw hq)

/-- Two processes that send WRITEs with batches of 32, in queues of 64. -/
def twoWriters : Flags :=
  { numProcesses := 2, numThreads := 1, vmsPerProcess := 1, doRead := false, size := 16,
    windowSize := 64, allsig := false, sqDepth := 64, unsigBatch := 32 }

theorem queues_safe_twoWriters :
    twoWriters.Accepted ∧
    ∀ s, Reachable (swarm twoWriters) s → ∀ w, InSwarm twoWriters w →
      QueuesSafe twoWriters (s w) := by
  have hf : twoWriters.Accepted := by decide
  exact ⟨hf, (queues_safe_iff twoWriters hf (by decide)).1 (by decide)⟩

/-- Twice this batch wraps to zero, which any depth passes. -/
def wrappingBatch : Flags := { twoWriters with sqDepth := 2, unsigBatch := 2 ^ 63 }

example : wrappingBatch.Accepted ∧ ¬SafeFlags wrappingBatch := by decide

/-- Flags that `main` accepts with which a window of 64 READs can go to a queue for two. -/
def smallQueues : Flags :=
  { numProcesses := 2, numThreads := 1, vmsPerProcess := 1, doRead := true, size := 16,
    windowSize := 64, allsig := true, sqDepth := 2, unsigBatch := 1 }

theorem smallQueues_unsafe :
    smallQueues.Accepted ∧
    ¬∀ s, Reachable (swarm smallQueues) s → ∀ w, InSwarm smallQueues w →
      QueuesSafe smallQueues (s w) := by
  refine ⟨by decide, fun hsafe => ?_⟩
  have hw : InSwarm smallQueues (0, 0) := by decide
  have hq : CanChoose smallQueues 0 1 := by decide
  obtain ⟨s, hs, hnot⟩ := unsafe_of_large_window (by decide) rfl (by decide) hw hq
  exact hnot (hsafe s hs _ hw)

end RdmaBench.Swarm.Queues
