import RdmaBench.Requests.Model

/-! # Delivery of requests

The invariant of the protocol, for each client and each pair of a client and a
worker, and that every step keeps it. The flow of a client says how far its
requests got. A ring says what the slots of a pair hold. -/

namespace RdmaBench.Requests.Delivery
open RdmaBench.Lib.Runs RdmaBench.Lib.Window RdmaBench.Lib.SlotRing
open RdmaBench.Postlist.Worker (Polling Waits hrdModAdd)
open RdmaBench.Requests.Model

variable {Slot Req : Type} {p : Program Slot Req}

/-- How far the requests of a client got. -/
def stages (c : Past p) : Flow (Fin p.numWorkers) where
  sent wn := (c.sent wn).length
  delivered := c.delivered
  accepted wn := (c.accepted wn).length
  answered := c.answered
  polled := c.polled

/-- The slots that a client and a worker share. -/
def slots (p : Program Slot Req) (region : Nat → Slot) (cn : Nat) (wn : Fin p.numWorkers)
    (j : Nat) : Slot :=
  region (offset p wn cn j)

/-- The WRITEs of the requests `rs` of client `cn` to worker `wn`, from number
`n` on. -/
def writes (p : Program Slot Req) (cn : Nat) (wn : Fin p.numWorkers) : Nat → List Req →
    List (Write p)
  | _, [] => []
  | n, r :: rs => ⟨wn, offset p wn cn (n % p.windowSize), r⟩ :: writes p cn wn (n + 1) rs

/-- The entries of a batch for the requests from number `n` up to `n + k`. -/
def entries (p : Program Slot Req) (cn : Nat) (wn : Fin p.numWorkers) (n k : Nat) :
    List (Nat × Nat) :=
  (List.range' n k).map fun i => (cn, offset p wn cn (i % p.windowSize))

theorem writes_append (cn : Nat) (wn : Fin p.numWorkers) (n : Nat) (rs : List Req) (r : Req) :
    writes p cn wn n (rs ++ [r]) =
      writes p cn wn n rs ++ [⟨wn, offset p wn cn ((n + rs.length) % p.windowSize), r⟩] := by
  induction rs generalizing n with
  | nil => rfl
  | cons r' rs ih =>
    show _ :: writes p cn wn (n + 1) (rs ++ [r]) = _
    rw [ih, List.length_cons, Nat.add_assoc, Nat.add_comm 1]
    rfl

theorem entries_append (cn : Nat) (wn : Fin p.numWorkers) (n k : Nat) :
    entries p cn wn n (k + 1) =
      entries p cn wn n k ++ [(cn, offset p wn cn ((n + k) % p.windowSize))] := by
  simp [entries, List.range'_1_concat]

/-- A slot counter that follows a request counter. -/
theorem hrdModAdd_mod {n W : Nat} (hW : 0 < W) : hrdModAdd (n % W) W = (n + 1) % W :=
  next_slot hW

/-! ## The invariant -/

/-- A client has at most a window of requests that it has not waited for. -/
structure ClientOk (c : Client p) : Prop where
  flow : (stages c.past).Ok p.windowSize
  nbTx : c.nbTx = ∑ wn, (c.past.sent wn).length
  responses : ∑ wn, c.past.answered wn = c.past.polled + c.arrived + c.responses

/-- A client and a worker agree on their ring: the WRITEs in flight are the
requests not delivered, the batch of the worker has those not answered. -/
structure PairOk (s : State p) (cn : Nat) (wn : Fin p.numWorkers) : Prop where
  cltWs : (s.client cn).ws wn = ((s.client cn).past.sent wn).length % p.windowSize
  wire : (s.client cn).wire.filter (·.worker = wn) =
    writes p cn wn ((s.client cn).past.delivered wn)
      (((s.client cn).past.sent wn).drop ((s.client cn).past.delivered wn))
  ring : RingOk p.mailbox p.windowSize (slots p s.region cn wn) ((s.client cn).past.sent wn)
    ((s.client cn).past.delivered wn) ((s.client cn).past.accepted wn)
  wrkrWs : (s.worker wn).ws cn = ((s.client cn).past.accepted wn).length % p.windowSize
  batch : (s.worker wn).batch.filter (·.1 = cn) =
    entries p cn wn ((s.client cn).past.answered wn)
      (((s.client cn).past.accepted wn).length - (s.client cn).past.answered wn)

/-- All clients and pairs are in order, and workers poll existing clients. -/
structure Delivers (s : State p) : Prop where
  client : ∀ cn < p.cfg.numClients, ClientOk (s.client cn)
  pair : ∀ cn < p.cfg.numClients, ∀ wn, PairOk s cn wn
  cltI : ∀ wn, 0 < p.cfg.numClients → (s.worker wn).pass.cltI < p.cfg.numClients

variable {s t : State p} {cn : Nat} {wn : Fin p.numWorkers}

/-- What the invariant of a pair depends on. -/
theorem PairOk.congr (h : PairOk s cn wn) (hW : 0 < p.windowSize)
    (hws : (t.client cn).ws wn = (s.client cn).ws wn)
    (hwire : (t.client cn).wire.filter (·.worker = wn) =
      (s.client cn).wire.filter (·.worker = wn))
    (hsent : (t.client cn).past.sent wn = (s.client cn).past.sent wn)
    (hdel : (t.client cn).past.delivered wn = (s.client cn).past.delivered wn)
    (hacc : (t.client cn).past.accepted wn = (s.client cn).past.accepted wn)
    (hans : (t.client cn).past.answered wn = (s.client cn).past.answered wn)
    (hslots : ∀ j < p.windowSize, slots p t.region cn wn j = slots p s.region cn wn j)
    (hwrkr : (t.worker wn).ws cn = (s.worker wn).ws cn)
    (hbatch : (t.worker wn).batch.filter (·.1 = cn) = (s.worker wn).batch.filter (·.1 = cn)) :
    PairOk t cn wn := by
  refine ⟨?_, ?_, ?_, ?_, ?_⟩
  · rw [hws, hsent]
    exact h.cltWs
  · rw [hwire, hsent, hdel]
    exact h.wire
  · rw [hsent, hdel, hacc]
    exact h.ring.congr hslots hW
  · rw [hwrkr, hacc]
    exact h.wrkrWs
  · rw [hbatch, hans, hacc]
    exact h.batch

theorem delivers_start : Delivers (State.start p) := by
  refine ⟨fun cn _ => ⟨flow_empty_ok _, ?_, ?_⟩, fun cn _ wn => ⟨?_, rfl, ?_, ?_, rfl⟩,
    fun _ hN => hN⟩
  · simp [State.start, Past.start]
  · simp [State.start, Past.start]
  · exact (Nat.zero_mod _).symm
  · exact ringOk_empty fun _ _ => p.isRequest_zero
  · exact (Nat.zero_mod _).symm

/-! ## Client steps -/

theorem stages_send (c : Client p) (cn : Nat) (wn : Fin p.numWorkers) (r : Req) :
    stages (c.send cn wn r).past = (stages c.past).send p.windowSize c.nbTx wn := by
  have hsent : (fun v => (Function.update c.past.sent wn (c.past.sent wn ++ [r]) v).length) =
      bump (fun v => (c.past.sent v).length) wn 1 := by
    funext v
    by_cases hv : v = wn
    · subst hv
      simp
    · simp [hv]
  simp only [stages, Client.send, Flow.send, hsent]

theorem ClientOk.send {c : Client p} (h : ClientOk c) (hW : 0 < p.windowSize)
    (hpoll : MustPoll p.windowSize c.nbTx → p.windowSize ≤ c.arrived) (cn : Nat)
    (wn : Fin p.numWorkers) (r : Req) : ClientOk (c.send cn wn r) := by
  have hresp := h.responses
  have hanswered : MustPoll p.windowSize c.nbTx →
      (stages c.past).polled + p.windowSize ≤ ∑ v, (stages c.past).answered v := by
    intro hm
    have := hpoll hm
    show c.past.polled + p.windowSize ≤ ∑ v, c.past.answered v
    omega
  have hflow := stages_send c cn wn r
  refine ⟨?_, ?_, ?_⟩
  · rw [hflow]
    exact h.flow.send hW h.nbTx hanswered
  · have hsum := congrArg (fun f => ∑ v, f.sent v) hflow
    refine (congrArg (· + 1) h.nbTx).trans (Eq.trans ?_ hsum.symm)
    exact (sum_bump _ wn 1).symm
  · simp only [Client.send]
    split
    · next hm =>
      have := hpoll hm
      omega
    · exact hresp

/-- Sending adds the WRITE of the next request at the end. -/
theorem PairOk.send (h : PairOk s cn wn) (hc : ClientOk (s.client cn)) (hW : 0 < p.windowSize)
    (v : Fin p.numWorkers) (r : Req) :
    PairOk { s with client := Function.update s.client cn ((s.client cn).send cn v r) } cn wn := by
  have hdel := hc.flow.delivered_le wn
  have hacc := hc.flow.accepted_le wn
  simp only [stages] at hdel hacc
  by_cases hv : wn = v
  · subst hv
    refine ⟨?_, ?_, ?_, ?_, ?_⟩
    · simp [Client.send, h.cltWs, hrdModAdd_mod hW]
    · simp only [Client.send, Function.update_self, List.filter_append, h.wire]
      rw [List.drop_append_of_le_length hdel, writes_append, List.length_drop,
        Nat.add_sub_cancel' hdel, ← h.cltWs]
      simp
    · simpa [Client.send] using h.ring.send hacc hdel r
    · simpa [Client.send] using h.wrkrWs
    · simpa [Client.send] using h.batch
  · refine h.congr hW ?_ ?_ ?_ ?_ ?_ ?_ (fun _ _ => rfl) rfl rfl
    all_goals simp [Client.send, hv, Ne.symm hv]

theorem Delivers.send (h : Delivers s) (hW : 0 < p.windowSize) (hcn : cn < p.cfg.numClients)
    (hpoll : MustPoll p.windowSize (s.client cn).nbTx → p.windowSize ≤ (s.client cn).arrived)
    (v : Fin p.numWorkers) (r : Req) :
    Delivers { s with client := Function.update s.client cn ((s.client cn).send cn v r) } := by
  refine ⟨fun c hc => ?_, fun c hc wn => ?_, h.cltI⟩
  · by_cases heq : c = cn
    · subst heq
      simpa using (h.client c hc).send hW hpoll c v r
    · simpa [heq] using h.client c hc
  · by_cases heq : c = cn
    · subst heq
      exact (h.pair c hc wn).send (h.client c hc) hW v r
    · refine (h.pair c hc wn).congr hW ?_ ?_ ?_ ?_ ?_ ?_ (fun _ _ => rfl) rfl rfl
      all_goals simp [heq]

theorem Delivers.arrive (h : Delivers s) (hW : 0 < p.windowSize)
    (hpos : 0 < (s.client cn).responses) :
    Delivers { s with client := Function.update s.client cn (s.client cn).arrive } := by
  refine ⟨fun c hc => ?_, fun c hc wn => ?_, h.cltI⟩
  · have hok := h.client c hc
    by_cases heq : c = cn
    · subst heq
      have hresp := hok.responses
      simp only [Function.update_self]
      refine ⟨hok.flow, hok.nbTx, ?_⟩
      simp only [Client.arrive]
      omega
    · simpa [heq] using hok
  · refine (h.pair c hc wn).congr hW ?_ ?_ ?_ ?_ ?_ ?_ (fun _ _ => rfl) rfl rfl
    all_goals
      by_cases heq : c = cn
      · subst heq
        simp [Client.arrive]
      · simp [heq]

/-! ## A WRITE reaches the region -/

/-- Writing one slot of a pair changes that slot. -/
theorem slots_update_self (hcn : cn < p.cfg.numClients) {region : Nat → Slot} {i j : Nat}
    (hi : i < p.windowSize) (hj : j < p.windowSize) (y : Slot) :
    slots p (Function.update region (offset p wn cn i) y) cn wn j =
      Function.update (slots p region cn wn) i y j := by
  unfold slots
  by_cases heq : j = i
  · subst heq
    simp
  · have hne : offset p wn cn j ≠ offset p wn cn i := fun h =>
      heq (offset_inj (Nat.zero_lt_of_lt hi) hcn hcn hj hi h).2.2
    rw [Function.update_of_ne hne, Function.update_of_ne heq]

/-- It changes no slot of another pair. -/
theorem slots_update_other (hcn : cn < p.cfg.numClients) {region : Nat → Slot} {i j c : Nat}
    {v : Fin p.numWorkers} (hc : c < p.cfg.numClients) (hne : c ≠ cn ∨ v ≠ wn)
    (hi : i < p.windowSize) (hj : j < p.windowSize) (y : Slot) :
    slots p (Function.update region (offset p wn cn i) y) c v j = slots p region c v j := by
  refine Function.update_of_ne (fun h => ?_) ..
  obtain ⟨hv, hcn', -⟩ := offset_inj (Nat.zero_lt_of_lt hi) hc hcn hj hi h
  rcases hne with hne | hne
  · exact hne hcn'
  · exact hne (Fin.ext hv)

/-- The oldest WRITE of a client is its next request to that worker. -/
theorem PairOk.head {x : Write p} {rest : List (Write p)} (h : PairOk s cn x.worker)
    (hwire : (s.client cn).wire = x :: rest) :
    x.offset = offset p x.worker cn ((s.client cn).past.delivered x.worker % p.windowSize) ∧
    ((s.client cn).past.sent x.worker)[(s.client cn).past.delivered x.worker]? = some x.req ∧
    rest.filter (·.worker = x.worker) = writes p cn x.worker
      ((s.client cn).past.delivered x.worker + 1)
      (((s.client cn).past.sent x.worker).drop
        ((s.client cn).past.delivered x.worker + 1)) := by
  have hw := h.wire
  rw [hwire, List.filter_cons_of_pos (by simp)] at hw
  rw [← List.tail_drop, ← List.head?_drop]
  cases hd : ((s.client cn).past.sent x.worker).drop ((s.client cn).past.delivered x.worker) with
  | nil =>
    rw [hd] at hw
    exact absurd hw (List.cons_ne_nil _ _)
  | cons r rs =>
    rw [hd] at hw
    obtain ⟨hx, hrest⟩ := List.cons.inj hw
    refine ⟨congrArg Write.offset hx, ?_, hrest⟩
    exact congrArg some (congrArg Write.req hx).symm

/-- The next request is written over one that has been answered. -/
theorem PairOk.deliver {x : Write p} {rest : List (Write p)} (h : PairOk s cn x.worker)
    (hc : ClientOk (s.client cn)) (hW : 0 < p.windowSize) (hcn : cn < p.cfg.numClients)
    (hwire : (s.client cn).wire = x :: rest) : PairOk (s.deliver cn x rest) cn x.worker := by
  obtain ⟨hoff, hreq, hrest⟩ := h.head hwire
  have hacc := hc.flow.accepted_le x.worker
  have hans := hc.flow.answered_le x.worker
  have hsent := hc.flow.sent_le x.worker
  have hlt := (List.getElem?_eq_some_iff.1 hreq).1
  simp only [stages] at hacc hans hsent
  have hring := h.ring.deliver hreq hacc (by omega)
  refine ⟨?_, ?_, ?_, ?_, ?_⟩
  · simpa [State.deliver] using h.cltWs
  · simpa [State.deliver] using hrest
  · simp only [State.deliver, Function.update_self, bump_self]
    refine hring.congr (fun j hj => ?_) hW
    rw [hoff]
    exact slots_update_self hcn (Nat.mod_lt _ hW) hj _
  · simpa [State.deliver] using h.wrkrWs
  · simpa [State.deliver] using h.batch

theorem PairOk.deliver_other {x : Write p} {rest : List (Write p)} {c : Nat}
    (h : PairOk s c wn) (hx : PairOk s cn x.worker) (hW : 0 < p.windowSize)
    (hc : c < p.cfg.numClients) (hcn : cn < p.cfg.numClients)
    (hwire : (s.client cn).wire = x :: rest) (hne : c ≠ cn ∨ wn ≠ x.worker) :
    PairOk (s.deliver cn x rest) c wn := by
  have hslots : ∀ j < p.windowSize,
      slots p (s.deliver cn x rest).region c wn j = slots p s.region c wn j := by
    intro j hj
    simp only [State.deliver, (hx.head hwire).1]
    exact slots_update_other hcn hc hne (Nat.mod_lt _ hW) hj _
  by_cases heq : c = cn
  · subst heq
    have hwn : wn ≠ x.worker := hne.resolve_left fun h => h rfl
    refine h.congr hW ?_ ?_ ?_ ?_ ?_ ?_ hslots rfl rfl
    all_goals simp [State.deliver, hwire, hwn, Ne.symm hwn]
  · refine h.congr hW ?_ ?_ ?_ ?_ ?_ ?_ hslots rfl rfl
    all_goals simp [State.deliver, heq]

theorem Delivers.deliver {x : Write p} {rest : List (Write p)} (h : Delivers s)
    (hW : 0 < p.windowSize) (hcn : cn < p.cfg.numClients)
    (hwire : (s.client cn).wire = x :: rest) : Delivers (s.deliver cn x rest) := by
  have hpair := h.pair cn hcn x.worker
  refine ⟨fun c hc => ?_, fun c hc wn => ?_, h.cltI⟩
  · by_cases heq : c = cn
    · subst heq
      have hok := h.client c hc
      simp only [State.deliver, Function.update_self]
      exact ⟨hok.flow.deliver (List.getElem?_eq_some_iff.1 (hpair.head hwire).2.1).1, hok.nbTx,
        hok.responses⟩
    · simpa [State.deliver, heq] using h.client c hc
  · by_cases heq : c = cn ∧ wn = x.worker
    · obtain ⟨rfl, rfl⟩ := heq
      exact hpair.deliver (h.client c hc) hW hc hwire
    · exact (h.pair c hc wn).deliver_other hpair hW hc hcn hwire (not_and_or.1 heq)

/-! ## A worker polls -/

/-- A worker finds a request exactly if one was delivered that it has not
accepted. -/
theorem Delivers.isRequest_iff (h : Delivers s) (hW : 0 < p.windowSize)
    (hcn : cn < p.cfg.numClients) (wn : Fin p.numWorkers) :
    p.mailbox.isRequest (s.region (offset p wn cn ((s.worker wn).ws cn))) = true ↔
      ((s.client cn).past.accepted wn).length < (s.client cn).past.delivered wn := by
  have hok := h.pair cn hcn wn
  rw [hok.wrkrWs]
  exact hok.ring.isRequest_iff hW ((h.client cn hcn).flow.accepted_le wn)
    ((h.client cn hcn).flow.delivered_le wn)

theorem Delivers.miss (h : Delivers s) (hW : 0 < p.windowSize) (wn : Fin p.numWorkers) :
    Delivers (s.miss wn) := by
  refine ⟨h.client, fun c hc v => ?_, fun v hN => ?_⟩
  · refine (h.pair c hc v).congr hW rfl rfl rfl rfl rfl rfl (fun _ _ => rfl) ?_ ?_
    all_goals
      by_cases hv : v = wn
      · subst hv
        simp [State.miss]
      · simp [State.miss, hv]
  · by_cases hv : v = wn
    · subst hv
      simpa [State.miss, Postlist.Worker.miss] using Postlist.Worker.hrdModAdd_lt (h.cltI v hN)
    · simpa [State.miss, hv] using h.cltI v hN

/-- The request a worker finds is the next one of the client. -/
theorem PairOk.hit (h : PairOk s (s.worker wn).pass.cltI wn)
    (hc : ClientOk (s.client (s.worker wn).pass.cltI)) (hW : 0 < p.windowSize)
    (hcn : (s.worker wn).pass.cltI < p.cfg.numClients)
    (hlt : ((s.client (s.worker wn).pass.cltI).past.accepted wn).length <
      (s.client (s.worker wn).pass.cltI).past.delivered wn) :
    PairOk (s.hit wn) (s.worker wn).pass.cltI wn := by
  have hdel := hc.flow.delivered_le wn
  have hans := hc.flow.answered_le wn
  have hsent := hc.flow.sent_le wn
  simp only [stages] at hdel hans hsent
  have hring := h.ring.accept hlt hdel (by omega)
  refine ⟨?_, ?_, ?_, ?_, ?_⟩
  · simpa [State.hit] using h.cltWs
  · simpa [State.hit] using h.wire
  · simp only [State.hit, Function.update_self, State.nextOffset, h.wrkrWs]
    refine hring.congr (fun j hj => ?_) hW
    exact slots_update_self hcn (Nat.mod_lt _ hW) hj _
  · simp [State.hit, h.wrkrWs, hrdModAdd_mod hW]
  · simp only [State.hit, Function.update_self, List.filter_append, h.batch, State.nextOffset,
      h.wrkrWs]
    rw [List.length_append, List.length_singleton, Nat.sub_add_comm hans, entries_append,
      Nat.add_sub_cancel' hans]
    simp

theorem PairOk.hit_other {c : Nat} {v : Fin p.numWorkers} (h : PairOk s c v)
    (hx : PairOk s (s.worker wn).pass.cltI wn) (hW : 0 < p.windowSize)
    (hc : c < p.cfg.numClients) (hcn : (s.worker wn).pass.cltI < p.cfg.numClients)
    (hne : c ≠ (s.worker wn).pass.cltI ∨ v ≠ wn) : PairOk (s.hit wn) c v := by
  have hslots : ∀ j < p.windowSize,
      slots p (s.hit wn).region c v j = slots p s.region c v j := by
    intro j hj
    simp only [State.hit, State.nextOffset, hx.wrkrWs]
    exact slots_update_other hcn hc hne (Nat.mod_lt _ hW) hj _
  by_cases hv : v = wn
  · subst hv
    have heq : c ≠ (s.worker v).pass.cltI := hne.resolve_right fun h => h rfl
    refine h.congr hW ?_ ?_ ?_ ?_ ?_ ?_ hslots ?_ ?_
    all_goals simp [State.hit, heq, Ne.symm heq]
  · refine h.congr hW ?_ ?_ ?_ ?_ ?_ ?_ hslots ?_ ?_
    all_goals
      by_cases heq : c = (s.worker wn).pass.cltI
      · subst heq
        simp [State.hit, hv]
      · simp [State.hit, heq, hv]

theorem stages_accept (c : Past p) (wn : Fin p.numWorkers) (y : Slot) :
    stages { c with accepted := Function.update c.accepted wn (c.accepted wn ++ [y]) } =
      (stages c).accept wn := by
  have hacc : (fun v => (Function.update c.accepted wn (c.accepted wn ++ [y]) v).length) =
      bump (fun v => (c.accepted v).length) wn 1 := by
    funext v
    by_cases hv : v = wn
    · subst hv
      simp
    · simp [hv]
  simp only [stages, Flow.accept, hacc]

theorem Delivers.hit (h : Delivers s) (hW : 0 < p.windowSize)
    (hpoll : Polling p.cfg (s.worker wn).pass)
    (hreq : p.mailbox.isRequest (s.region (s.nextOffset wn)) = true) : Delivers (s.hit wn) := by
  have hN : 0 < p.cfg.numClients := Nat.zero_lt_of_lt hpoll.1
  have hcn := h.cltI wn hN
  have hpair := h.pair _ hcn wn
  have hlt := (h.isRequest_iff hW hcn wn).1 hreq
  refine ⟨fun c hc => ?_, fun c hc v => ?_, fun v _ => ?_⟩
  · have hok := h.client c hc
    by_cases heq : c = (s.worker wn).pass.cltI
    · subst heq
      simp only [State.hit, Function.update_self]
      refine ⟨?_, hok.nbTx, hok.responses⟩
      rw [stages_accept]
      exact hok.flow.accept hlt
    · simpa [State.hit, heq] using hok
  · by_cases heq : c = (s.worker wn).pass.cltI ∧ v = wn
    · obtain ⟨rfl, rfl⟩ := heq
      exact hpair.hit (h.client _ hc) hW hc hlt
    · exact (h.pair c hc v).hit_other hpair hW hc hcn (not_and_or.1 heq)
  · by_cases hv : v = wn
    · subst hv
      simpa [State.hit, Postlist.Worker.hit, Postlist.Worker.miss] using
        Postlist.Worker.hrdModAdd_lt hcn
    · simpa [State.hit, hv] using h.cltI v hN

/-! ## A worker answers -/

/-- A batch has all requests of a client that are accepted and not answered. -/
theorem PairOk.answers (h : PairOk s cn wn) :
    (s.worker wn).answers cn =
      ((s.client cn).past.accepted wn).length - (s.client cn).past.answered wn := by
  rw [Server.answers, h.batch]
  simp [entries]

theorem PairOk.finish {v : Fin p.numWorkers} (h : PairOk s cn v)
    (hc : ClientOk (s.client cn)) (hW : 0 < p.windowSize) (wn : Fin p.numWorkers) :
    PairOk (s.finish wn) cn v := by
  have hans := hc.flow.answered_le v
  simp only [stages] at hans
  by_cases hv : v = wn
  · subst hv
    refine ⟨h.cltWs, h.wire, h.ring, ?_, ?_⟩
    · simpa [State.finish] using h.wrkrWs
    · simp only [State.finish, Function.update_self, List.filter_nil, bump_self, h.answers,
        Nat.add_sub_cancel' hans, Nat.sub_self]
      rfl
  · refine h.congr hW rfl rfl rfl rfl rfl ?_ (fun _ _ => rfl) ?_ ?_
    all_goals simp [State.finish, hv]

theorem Delivers.finish (h : Delivers s) (hW : 0 < p.windowSize) (wn : Fin p.numWorkers) :
    Delivers (s.finish wn) := by
  refine ⟨fun c hc => ?_, fun c hc v => (h.pair c hc v).finish (h.client c hc) hW wn,
    fun v hN => ?_⟩
  · have hok := h.client c hc
    have hans := hok.flow.answered_le wn
    have hresp := hok.responses
    simp only [stages] at hans
    refine ⟨hok.flow.answer (w := wn) (k := (s.worker wn).answers c) ?_, hok.nbTx, ?_⟩
    · show (s.client c).past.answered wn + _ ≤ ((s.client c).past.accepted wn).length
      rw [(h.pair c hc wn).answers, Nat.add_sub_cancel' hans]
    · simp only [State.finish, sum_bump]
      omega
  · by_cases hv : v = wn
    · subst hv
      simpa [State.finish, Postlist.Worker.finish] using h.cltI v hN
    · simpa [State.finish, hv] using h.cltI v hN

/-! ## All runs -/

theorem step_delivers {e : Event p} (hW : 0 < p.windowSize) (h : Delivers s) (hstep : Step s e t) :
    Delivers t := by
  cases e with
  | send cn wn r =>
    obtain ⟨hcn, hpoll, rfl⟩ := hstep
    exact h.send hW hcn hpoll wn r
  | deliver cn =>
    obtain ⟨hcn, x, rest, hwire, rfl⟩ := hstep
    exact h.deliver hW hcn hwire
  | arrive cn =>
    obtain ⟨hpos, rfl⟩ := hstep
    exact h.arrive hW hpos
  | poll wn =>
    obtain ⟨hpoll, hstep⟩ := hstep
    split at hstep
    · next hreq =>
      obtain ⟨-, rfl⟩ := hstep
      exact h.hit hW hpoll hreq
    · subst hstep
      exact h.miss hW wn
  | finish wn =>
    obtain ⟨-, rfl⟩ := hstep
    exact h.finish hW wn

theorem reachable_delivers (hW : 0 < p.windowSize) (h : Reachable (system p) s) :
    Delivers s := by
  refine h.invariant (P := Delivers) (fun s hs => ?_) (fun s e t _ => step_delivers hW)
  rw [show s = _ from hs]
  exact delivers_start

/-- The pass of each worker runs as it does with arbitrary arrivals. -/
theorem reachable_pass (h : Reachable (system p) s) (wn : Fin p.numWorkers) :
    Reachable (Postlist.Worker.passes p.cfg) (s.worker wn).pass := by
  induction h with
  | init h0 =>
    rw [show _ = _ from h0]
    exact .init rfl
  | @step s t e _ hstep ih =>
    cases e with
    | send cn v r =>
      obtain ⟨-, -, rfl⟩ := hstep
      exact ih
    | deliver cn =>
      obtain ⟨-, x, rest, -, rfl⟩ := hstep
      exact ih
    | arrive cn =>
      obtain ⟨-, rfl⟩ := hstep
      exact ih
    | poll v =>
      obtain ⟨hpoll, hstep⟩ := hstep
      by_cases hv : wn = v
      · subst hv
        split at hstep
        · obtain ⟨hwait, rfl⟩ := hstep
          refine .step (e := .hit) ih ⟨hpoll, hwait, ?_⟩
          simp [State.hit]
        · subst hstep
          refine .step (e := .miss) ih ⟨hpoll, ?_⟩
          simp [State.miss]
      · split at hstep
        · obtain ⟨-, rfl⟩ := hstep
          simpa [State.hit, hv] using ih
        · subst hstep
          simpa [State.miss, hv] using ih
    | finish v =>
      obtain ⟨hdone, rfl⟩ := hstep
      by_cases hv : wn = v
      · subst hv
        refine .step (e := .finish) ih ⟨hdone, ?_⟩
        simp [State.finish]
      · simpa [State.finish, hv] using ih

/-- A worker that never gets stuck can poll its next slot while it is in a pass. -/
theorem poll_of_neverStuck (hstuck : Postlist.Worker.NeverStuck p.cfg)
    (h : Reachable (system p) s) (hpoll : Polling p.cfg (s.worker wn).pass) :
    ∃ t, Step s (.poll wn) t := by
  by_cases hreq : p.mailbox.isRequest (s.region (s.nextOffset wn)) = true
  · refine ⟨s.hit wn, hpoll, ?_⟩
    rw [if_pos hreq]
    exact ⟨hstuck _ (reachable_pass h wn), rfl⟩
  · refine ⟨s.miss wn, hpoll, ?_⟩
    rw [if_neg hreq]

/-- A `postlist` below `UNSIG_BATCH` keeps workers from getting stuck: one that
is in a pass can poll its next slot. -/
theorem poll_enabled (hB : 0 < p.cfg.unsigBatch) (hP : 0 < p.cfg.numServerPorts)
    (hlt : p.cfg.postlist < p.cfg.unsigBatch) (h : Reachable (system p) s)
    (hpoll : Polling p.cfg (s.worker wn).pass) : ∃ t, Step s (.poll wn) t :=
  poll_of_neverStuck (fun _ => Postlist.Worker.passes_canPoll hB hP hlt) h hpoll

/-! ## What clients and workers get -/

/-- The requests of client `cn` to worker `wn`, as they stand in a state: the
numbers `accepted` and `answered` split those that were delivered. -/
structure ExactlyOnce (s : State p) (cn : Nat) (wn : Fin p.numWorkers) : Prop where
  /-- Accepted requests are the first ones sent, in the order they were sent. -/
  inOrder : List.Forall₂ p.mailbox.Took ((s.client cn).past.accepted wn)
    (((s.client cn).past.sent wn).take ((s.client cn).past.accepted wn).length)
  /-- A request that was delivered and not accepted is still in its slot. -/
  kept : ∀ n r, ((s.client cn).past.accepted wn).length ≤ n →
    n < (s.client cn).past.delivered wn → ((s.client cn).past.sent wn)[n]? = some r →
    p.mailbox.Holds (s.region (offset p wn cn (n % p.windowSize))) r
  /-- The worker finds a request exactly if there is one it has not accepted. -/
  found : p.mailbox.isRequest (s.region (offset p wn cn ((s.worker wn).ws cn))) = true ↔
    ((s.client cn).past.accepted wn).length < (s.client cn).past.delivered wn
  /-- A request that was accepted and not answered is in its slot as accepted. -/
  unchanged : ∀ n, (s.client cn).past.answered wn ≤ n →
    n < ((s.client cn).past.accepted wn).length →
    ((s.client cn).past.accepted wn)[n]? = some (s.region (offset p wn cn (n % p.windowSize)))
  /-- Those are in the batch of the worker, each once. -/
  batched : (s.worker wn).batch.filter (·.1 = cn) =
    entries p cn wn ((s.client cn).past.answered wn)
      (((s.client cn).past.accepted wn).length - (s.client cn).past.answered wn)
  /-- No WRITE in front of the wire of any client goes to the slot of a request
  that was delivered and not answered. -/
  notRewritten : ∀ c < p.cfg.numClients, ∀ x rest, (s.client c).wire = x :: rest →
    ∀ n, (s.client cn).past.answered wn ≤ n → n < (s.client cn).past.delivered wn →
    x.offset ≠ offset p wn cn (n % p.windowSize)

theorem Delivers.notRewritten (h : Delivers s) (hW : 0 < p.windowSize)
    (hcn : cn < p.cfg.numClients) {c : Nat} (hc : c < p.cfg.numClients) {x : Write p}
    {rest : List (Write p)} (hwire : (s.client c).wire = x :: rest) {n : Nat}
    (hn : (s.client cn).past.answered wn ≤ n) (hlt : n < (s.client cn).past.delivered wn) :
    x.offset ≠ offset p wn cn (n % p.windowSize) := by
  obtain ⟨hoff, hreq, -⟩ := (h.pair c hc x.worker).head hwire
  have hsent := (h.client c hc).flow.sent_le x.worker
  have hdel := (List.getElem?_eq_some_iff.1 hreq).1
  simp only [stages] at hsent
  intro heq
  rw [hoff] at heq
  obtain ⟨hw, rfl, hslot⟩ :=
    offset_inj hW hc hcn (Nat.mod_lt _ hW) (Nat.mod_lt _ hW) heq
  rw [← Fin.ext hw] at hn hlt
  exact slot_ne hlt (by omega) hslot.symm

theorem reachable_exactlyOnce (hW : 0 < p.windowSize) (h : Reachable (system p) s)
    (hcn : cn < p.cfg.numClients) (wn : Fin p.numWorkers) : ExactlyOnce s cn wn := by
  have hd := reachable_delivers hW h
  have hpair := hd.pair cn hcn wn
  have hflow := (hd.client cn hcn).flow
  refine ⟨hpair.ring.order, hpair.ring.waiting, hd.isRequest_iff hW hcn wn, fun n hn hlt => ?_,
    hpair.batch, fun c hc x rest hwire n hn hlt => hd.notRewritten hW hcn hc hwire hn hlt⟩
  refine hpair.ring.taken n hlt ?_
  have hdel := hflow.delivered_le wn
  have hsent := hflow.sent_le wn
  simp only [stages] at hdel hsent
  omega

end RdmaBench.Requests.Delivery
