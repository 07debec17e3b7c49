import RdmaBench.Lib.Fifo
import RdmaBench.Swarm.Model

/-! # The window with `allsig`

A worker remembers for every slot only the queue pair it used. The requests
posted and not polled are those of the last `window_size` steps, dealt to the
completion queues in any way. So the completion it polls before it uses a slot
again is the one of the request last posted from that slot. -/

namespace RdmaBench.Swarm.Window
open RdmaBench.Lib.ByteMem RdmaBench.Lib.Fifo RdmaBench.Lib.Runs RdmaBench.Lib.Signaling
open RdmaBench.Lib.SlotRing RdmaBench.Swarm.Model

variable (f : Flags)

/-- The completions polled so far. -/
def consumed (a : Worker) : Nat :=
  if a.pc = .top then a.nbTxTot - f.windowSize else a.nbTxTot + 1 - f.windowSize

/-- The requests of a queue pair whose completions are not polled, oldest first. -/
def unpolled (a : Worker) (qpn : Nat) : List Op := a.cq qpn ++ a.sq qpn

def steps (a : Worker) (qpn : Nat) : List Nat := (unpolled a qpn).map Op.step

/-- The worker keeps to its window. -/
structure InWindow (a : Worker) : Prop where
  windowI : a.windowI = a.nbTxTot % f.windowSize
  dealt : Dealt f.windowSize (consumed f a) a.nbTxTot a.recQpnArr (steps a)
  ops : ∀ qpn, ∀ op ∈ unpolled a qpn, op.slot = op.step % f.windowSize ∧ op.signaled = true
  recorded : ∀ qpn, a.pc = .poll qpn ∨ a.pc = .post qpn → a.recQpnArr a.windowI = qpn
  polled : a.pc = .slot → f.windowSize ≤ a.nbTxTot
  counts : ∀ qpn, (a.queue qpn).posted = (a.queue qpn).polled + (unpolled a qpn).length

variable {f} {a b : Worker}

theorem consumed_eq_of_pc (hn : b.nbTxTot = a.nbTxTot) (ha : a.pc ≠ .top) (hb : b.pc ≠ .top) :
    consumed f b = consumed f a := by
  rw [consumed, consumed, if_neg ha, if_neg hb, hn]

theorem inWindow_start : InWindow f (Worker.start f) where
  windowI := (Nat.zero_mod _).symm
  dealt := by
    have h0 : consumed f (Worker.start f) = 0 := Nat.zero_sub _
    rw [h0]
    exact dealt_empty _ _
  ops _ _ hop := absurd hop List.not_mem_nil
  recorded _ h := by obtain h | h := h <;> cases h
  polled h := by cases h
  counts _ := rfl

/-- Nothing of the window is in the buffer. -/
theorem InWindow.setBuf (h : InWindow f a) (m : Mem) : InWindow f { a with connBuf := m } :=
  ⟨h.windowI, h.dealt, h.ops, h.recorded, h.polled, h.counts⟩

/-! ## The network -/

theorem unpolled_complete {qpn : Nat} {op : Op} {rest : List Op} (hsq : a.sq qpn = op :: rest)
    (hop : op.signaled = true) : unpolled (a.complete qpn op rest) = unpolled a := by
  funext q
  by_cases hq : q = qpn
  · subst hq
    simp [unpolled, Worker.complete, hop, hsq]
  · simp [unpolled, Worker.complete, Function.update_of_ne hq]

/-- What holds of the completions and of a request holds of the completions after its own. -/
theorem forall_cq_complete {P : Op → Prop} (h : ∀ q, ∀ x ∈ a.cq q, P x) {qpn : Nat} {op : Op}
    (rest : List Op) (hop : op.signaled = true → P op) :
    ∀ q, ∀ x ∈ (a.complete qpn op rest).cq q, P x := by
  refine (Function.forall_update_iff a.cq fun _ l => ∀ x ∈ l, P x).2
    ⟨fun x hx => ?_, fun q _ => h q⟩
  obtain hx | hx := List.mem_append.1 hx
  · exact h qpn x hx
  · split at hx
    · next hsig =>
      rw [List.mem_singleton.1 hx]
      exact hop hsig
    · exact absurd hx List.not_mem_nil

theorem InWindow.complete (h : InWindow f a) {qpn : Nat} {op : Op} {rest : List Op}
    (hsq : a.sq qpn = op :: rest) : InWindow f (a.complete qpn op rest) := by
  have hmem : op ∈ unpolled a qpn := List.mem_append_right _ (hsq ▸ List.mem_cons_self)
  have heq := unpolled_complete hsq (h.ops qpn op hmem).2
  have hsteps : steps (a.complete qpn op rest) = steps a := by
    funext q
    rw [steps, heq, steps]
  refine ⟨h.windowI, ?_, ?_, h.recorded, h.polled, ?_⟩
  · rw [hsteps]
    exact h.dealt
  · rw [heq]
    exact h.ops
  · rw [heq]
    exact h.counts

/-- Whatever does not depend on `placed` is the same of the requests after one is placed. -/
theorem map_mark {β : Type*} {g : Op → β} (hg : ∀ op : Op, g { op with placed := true } = g op)
    {qpn k : Nat} {op : Op} (hop : (a.sq qpn)[k]? = some op) (q : Nat) :
    (unpolled (a.mark qpn k op) q).map g = (unpolled a q).map g := by
  by_cases hq : q = qpn
  · subst hq
    have hset : ((a.sq q).set k { op with placed := true }).map g = (a.sq q).map g := by
      obtain ⟨hk, rfl⟩ := List.getElem?_eq_some_iff.1 hop
      rw [List.map_set, hg, ← List.getElem_map g, List.set_getElem_self]
      exact (List.length_map g).symm ▸ hk
    simp [unpolled, Worker.mark, hset]
  · simp [unpolled, Worker.mark, Function.update_of_ne hq]

theorem InWindow.mark (h : InWindow f a) {qpn k : Nat} {op : Op}
    (hop : (a.sq qpn)[k]? = some op) : InWindow f (a.mark qpn k op) := by
  have hsteps : steps (a.mark qpn k op) = steps a := funext (map_mark (fun _ => rfl) hop)
  refine ⟨h.windowI, ?_, fun q x hx => ?_, h.recorded, h.polled, fun q => ?_⟩
  · rw [hsteps]
    exact h.dealt
  · -- the slot and the flag of a request are those of one before
    have hmap := map_mark (g := fun op => (op.step, op.slot, op.signaled)) (fun _ => rfl) hop q
    have hx' : (x.step, x.slot, x.signaled) ∈
        (unpolled a q).map fun op => (op.step, op.slot, op.signaled) :=
      hmap ▸ List.mem_map_of_mem hx
    obtain ⟨y, hy, heq⟩ := List.mem_map.1 hx'
    obtain ⟨hslot, hsig⟩ := h.ops q y hy
    simp only [Prod.mk.injEq] at heq
    rw [← heq.1, ← heq.2.1, ← heq.2.2]
    exact ⟨hslot, hsig⟩
  · have hlen := congrArg List.length (map_mark (g := Op.step) (fun _ => rfl) hop q)
    simp only [List.length_map] at hlen
    rw [hlen]
    exact h.counts q

/-! ## The loop -/

theorem unpolled_appPollCq {qpn : Nat} {rest : List Op} {pc : Pc} :
    unpolled (a.appPollCq qpn rest pc) =
      Function.update (unpolled a) qpn (rest ++ a.sq qpn) := by
  funext q
  by_cases hq : q = qpn
  · subst hq
    simp [unpolled, Worker.appPollCq]
  · simp [unpolled, Worker.appPollCq, Function.update_of_ne hq]

theorem unpolled_of_cq {qpn : Nat} {c : Op} {rest : List Op} (hcq : a.cq qpn = c :: rest) :
    unpolled a qpn = c :: (rest ++ a.sq qpn) := by
  rw [unpolled, hcq, List.cons_append]

theorem mem_unpolled_of_poll {qpn q : Nat} {c x : Op} {rest : List Op} {pc : Pc}
    (hcq : a.cq qpn = c :: rest) (hx : x ∈ unpolled (a.appPollCq qpn rest pc) q) :
    x ∈ unpolled a q := by
  rw [unpolled_appPollCq] at hx
  by_cases hq : q = qpn
  · subst hq
    rw [Function.update_self] at hx
    rw [unpolled_of_cq hcq]
    exact List.mem_cons_of_mem _ hx
  · rwa [Function.update_of_ne hq] at hx

theorem forall_cq_poll {P : Op → Prop} (h : ∀ q, ∀ x ∈ a.cq q, P x) {qpn : Nat} {c : Op}
    {rest : List Op} {pc : Pc} (hcq : a.cq qpn = c :: rest) :
    ∀ q, ∀ x ∈ (a.appPollCq qpn rest pc).cq q, P x :=
  (Function.forall_update_iff a.cq fun _ l => ∀ x ∈ l, P x).2
    ⟨fun x hx => h qpn x (hcq ▸ List.mem_cons_of_mem _ hx), fun q _ => h q⟩

theorem unpolled_postSend {qpn remOffset : Nat} :
    unpolled (a.postSend f qpn remOffset) =
      Function.update (unpolled a) qpn (unpolled a qpn ++ [a.op f qpn remOffset]) := by
  funext q
  by_cases hq : q = qpn
  · subst hq
    simp [unpolled, Worker.postSend]
  · simp [unpolled, Worker.postSend, Function.update_of_ne hq]

theorem mem_unpolled_of_post {qpn remOffset q : Nat} {x : Op}
    (hx : x ∈ unpolled (a.postSend f qpn remOffset) q) :
    x ∈ unpolled a q ∨ x = a.op f qpn remOffset := by
  rw [unpolled_postSend] at hx
  by_cases hq : q = qpn
  · subst hq
    rwa [Function.update_self, List.mem_append, List.mem_singleton] at hx
  · rw [Function.update_of_ne hq] at hx
    exact .inl hx

theorem steps_update {c : Worker} {qpn : Nat} {l : List Op}
    (h : unpolled c = Function.update (unpolled a) qpn l) :
    steps c = Function.update (steps a) qpn (l.map Op.step) := by
  funext q
  rw [steps, h]
  by_cases hq : q = qpn
  · subst hq
    rw [Function.update_self, Function.update_self]
  · rw [Function.update_of_ne hq, Function.update_of_ne hq, steps]

/-- Before a slot is used again, the next completion of the queue pair recorded
for it is that of the request last posted from it. -/
theorem InWindow.next (h : InWindow f a) (hW : 0 < f.windowSize) (hpc : a.pc = .top)
    (hn : f.windowSize ≤ a.nbTxTot) :
    ∃ op rest, unpolled a (a.recQpnArr a.windowI) = op :: rest ∧
      op.step = a.nbTxTot - f.windowSize ∧ op.slot = a.windowI ∧ op.signaled = true := by
  have hcons : consumed f a = a.nbTxTot - f.windowSize := if_pos hpc
  have hmod : (a.nbTxTot - f.windowSize) % f.windowSize = a.windowI := by
    rw [h.windowI]
    exact (Nat.mod_eq_sub_mod hn).symm
  obtain ⟨nums, hnums⟩ := h.dealt.head (by rw [hcons]; omega)
  rw [hcons, hmod] at hnums
  obtain ⟨op, rest, hop, hstep, -⟩ := List.map_eq_cons_iff.1 hnums
  obtain ⟨hslot, hsig⟩ := h.ops _ op (hop ▸ List.mem_cons_self)
  exact ⟨op, rest, hop, hstep, by rw [hslot, hstep, hmod], hsig⟩

/-- The completion polled for a slot is that of the slot's own request. -/
theorem InWindow.polled_own (h : InWindow f a) (hW : 0 < f.windowSize) (hpc : a.pc = .top)
    (hn : f.windowSize ≤ a.nbTxTot) {c : Op} {rest : List Op}
    (hcq : a.cq (a.recQpnArr a.windowI) = c :: rest) :
    c.step = a.nbTxTot - f.windowSize ∧ c.slot = a.windowI := by
  obtain ⟨op, ops, hop, hstep, hslot, -⟩ := h.next hW hpc hn
  obtain ⟨rfl, -⟩ := List.cons.inj (hop.symm.trans (unpolled_of_cq hcq))
  exact ⟨hstep, hslot⟩

theorem InWindow.pollWindow (h : InWindow f a) (hW : 0 < f.windowSize) (hpc : a.pc = .top)
    (hn : f.windowSize ≤ a.nbTxTot) {c : Op} {rest : List Op}
    (hcq : a.cq (a.recQpnArr a.windowI) = c :: rest) :
    InWindow f (a.appPollCq (a.recQpnArr a.windowI) rest .slot) := by
  obtain ⟨hstep, -⟩ := h.polled_own hW hpc hn hcq
  set qpn := a.recQpnArr a.windowI with hqpn
  have hcons : consumed f a = a.nbTxTot - f.windowSize := if_pos hpc
  have hring : a.recQpnArr (consumed f a % f.windowSize) = qpn := by
    rw [hcons, hqpn, h.windowI, Nat.mod_eq_sub_mod hn]
  refine ⟨h.windowI, ?_, fun q x hx => h.ops q x (mem_unpolled_of_poll hcq hx), fun q hq => ?_,
    fun _ => hn, fun q => ?_⟩
  · have hlater : consumed f (a.appPollCq qpn rest .slot) = consumed f a + 1 := by
      rw [hcons]
      show a.nbTxTot + 1 - f.windowSize = _
      omega
    rw [hlater, steps_update unpolled_appPollCq, ← hring]
    refine h.dealt.pop ?_
    rw [hring, steps, unpolled_of_cq hcq, List.map_cons, hstep, hcons]
  · obtain hq | hq := hq <;> cases hq
  · have hcount := h.counts q
    rw [unpolled_appPollCq]
    by_cases hq : q = qpn
    · subst hq
      rw [unpolled_of_cq hcq, List.length_cons] at hcount
      simp only [Worker.appPollCq, Function.update_self]
      omega
    · simpa only [Worker.appPollCq, Function.update_of_ne hq] using hcount

theorem InWindow.chooseQp (h : InWindow f a) (hpc : a.pc = .choose) (qpn : Nat) :
    InWindow f
      { a with pc := .poll qpn, recQpnArr := Function.update a.recQpnArr a.windowI qpn } := by
  have hne : a.pc ≠ .top := by rw [hpc]; exact Pc.noConfusion
  have hcons : consumed f a = a.nbTxTot + 1 - f.windowSize := if_neg hne
  refine ⟨h.windowI, ?_, h.ops, fun q hq => ?_, Pc.noConfusion, h.counts⟩
  · have hdealt := h.dealt.record (by omega) qpn
    rw [← h.windowI, hcons] at hdealt
    exact hdealt
  · obtain hq | hq := hq
    · cases hq
      exact Function.update_self ..
    · cases hq

theorem InWindow.postSend (h : InWindow f a) (hW : 0 < f.windowSize) (hall : f.allsig = true)
    {qpn remOffset : Nat} (hpc : a.pc = .post qpn) : InWindow f (a.postSend f qpn remOffset) := by
  have hne : a.pc ≠ .top := by rw [hpc]; exact Pc.noConfusion
  have hcons : consumed f a = a.nbTxTot + 1 - f.windowSize := if_neg hne
  have hring : a.recQpnArr (a.nbTxTot % f.windowSize) = qpn := by
    rw [← h.windowI]
    exact h.recorded qpn (.inr hpc)
  refine ⟨?_, ?_, fun q x hx => ?_, fun q hq => ?_, Pc.noConfusion, fun q => ?_⟩
  · show (if a.windowI + 1 = f.windowSize then 0 else a.windowI + 1) = _
    rw [h.windowI]
    exact next_slot hW
  · have hsame : consumed f (a.postSend f qpn remOffset) = consumed f a := by
      rw [hcons]
      rfl
    have hpush := h.dealt.push (by rw [hcons]; omega)
    rw [hring] at hpush
    rw [hsame, steps_update unpolled_postSend, List.map_append]
    exact hpush
  · obtain hx | rfl := mem_unpolled_of_post hx
    · exact h.ops q x hx
    · exact ⟨h.windowI, by simp [Worker.op, hall]⟩
  · obtain hq | hq := hq <;> cases hq
  · have hcount := h.counts q
    rw [unpolled_postSend]
    by_cases hq : q = qpn
    · subst hq
      simp only [Worker.postSend, Function.update_self, List.length_append, List.length_singleton]
      omega
    · simpa only [Worker.postSend, Function.update_of_ne hq] using hcount

/-- The worker moves on to another place of the loop, the window being as it was. -/
theorem InWindow.goto (h : InWindow f a) (pc : Pc)
    (hcons : consumed f { a with pc := pc } = consumed f a)
    (hrec : ∀ qpn, pc = .poll qpn ∨ pc = .post qpn → a.recQpnArr a.windowI = qpn)
    (hslot : pc ≠ .slot) : InWindow f { a with pc := pc } :=
  ⟨h.windowI, by rw [hcons]; exact h.dealt, h.ops, hrec, fun h => absurd h hslot, h.counts⟩

theorem InWindow.leave (h : InWindow f a) (hne : a.pc ≠ .top) {pc : Pc}
    (hnext : pc = .choose ∨ pc = .failed ∨ pc = .overrun) : InWindow f { a with pc := pc } := by
  have hpc : pc ≠ .top ∧ pc ≠ .slot ∧ ∀ q, pc ≠ .poll q ∧ pc ≠ .post q := by
    obtain rfl | rfl | rfl := hnext <;> simp
  refine h.goto _ (consumed_eq_of_pc rfl hne hpc.1) (fun q hq => ?_) hpc.2.1
  obtain hq | hq := hq
  · exact absurd hq (hpc.2.2 q).1
  · exact absurd hq (hpc.2.2 q).2

theorem InWindow.act (h : InWindow f a) (hW : 0 < f.windowSize) (hall : f.allsig = true)
    {processId : Nat} (hact : Act f processId a b) : InWindow f b := by
  cases hact with
  | noWindow hpc hn =>
    refine h.goto .choose ?_ (fun q hq => ?_) Pc.noConfusion
    · have hafter : consumed f { a with pc := .choose } = a.nbTxTot + 1 - f.windowSize := rfl
      rw [hafter, consumed, if_pos hpc]
      omega
    · obtain hq | hq := hq <;> cases hq
  | pollWindow hpc hn _ hcq => exact h.pollWindow hW hpc hn hcq
  | noPollWindow _ _ hsig => exact absurd (hall.symm.trans hsig) Bool.noConfusion
  | assertFails hpc => exact h.leave (hpc ▸ Pc.noConfusion) (.inr (.inl rfl))
  | takeSlot hpc => exact (h.leave (hpc ▸ Pc.noConfusion) (.inl rfl)).setBuf _
  | noTakeSlot hpc => exact h.leave (hpc ▸ Pc.noConfusion) (.inl rfl)
  | chooseQp hpc => exact h.chooseQp hpc _
  | overrun hpc => exact h.leave (hpc ▸ Pc.noConfusion) (.inr (.inr rfl))
  | pollQp _ hmust => exact absurd (hall.symm.trans hmust.1) Bool.noConfusion
  | @noPollQp qpn hpc =>
    have hne : a.pc ≠ .top := by rw [hpc]; exact Pc.noConfusion
    refine h.goto (.post qpn) (consumed_eq_of_pc rfl hne Pc.noConfusion) (fun q hq => ?_)
      Pc.noConfusion
    obtain hq | hq := hq
    · cases hq
    · cases hq
      exact h.recorded _ (.inl hpc)
  | postSend hpc => exact h.postSend hW hall hpc

/-- Every worker keeps to its window, in every run. -/
theorem reachable_inWindow {s : Workers} (hW : 0 < f.windowSize) (hall : f.allsig = true)
    (hs : Reachable (swarm f) s) (w : Thread) : InWindow f (s w) :=
  reachable_worker inWindow_start (fun h hact => h.act hW hall hact) (fun _ h hop => h.mark hop)
    (fun _ h _ hop => (h.mark hop).setBuf _) (fun _ h => h.setBuf _)
    (fun h hsq _ => h.complete hsq) hs w

end RdmaBench.Swarm.Window
