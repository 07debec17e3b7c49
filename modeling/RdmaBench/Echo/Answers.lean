import RdmaBench.Echo.Model
import RdmaBench.Lib.CounterSlot
import RdmaBench.Lib.Window

/-! # Every request of `ws-echo` is answered once

The slot of a client and a worker is a word in which requests are counted. The
invariant is that of `Lib.CounterSlot` for each pair, with the requests of the
client's postlist and its WRITEs in flight as the numbers on their way. Slots of
different pairs lie in different cache lines. A client has a RECV for every
request it made whose response has not arrived. -/

namespace RdmaBench.Echo.Answers
open RdmaBench.Lib.Buffers RdmaBench.Lib.CounterSlot RdmaBench.Lib.Runs RdmaBench.Lib.Signaling
open RdmaBench.Lib.Window RdmaBench.Echo.Model
open RdmaBench.Postlist.Worker (hrdModAdd hrdModAdd_lt)

variable {cfg : Config}

/-! ## Slots -/

theorem remoteAddr_div (wn cn : Nat) : remoteAddr cfg wn cn / 8 = slotIndex cfg wn cn := by
  have hsum : remoteAddr cfg wn cn = 8 * slotIndex cfg wn cn := by
    simp only [remoteAddr, slotIndex, reqBufBase, slotSizeLL, cachelineSize]
    ring
  rw [hsum, Nat.mul_div_cancel_left _ (by decide)]

/-- Different pairs have different slots. -/
theorem pair_of_slot {wn wn' cn cn' : Nat} (hcn : cn < cfg.numClients)
    (hcn' : cn' < cfg.numClients)
    (h : wn * cfg.numClients + cn = wn' * cfg.numClients + cn') : wn = wn' ∧ cn = cn' := by
  have hc : cn = cn' := by
    rw [← Nat.mul_add_mod_of_lt (a := wn) hcn, h, Nat.mul_add_mod_of_lt hcn']
  subst hc
  exact ⟨Nat.eq_of_mul_eq_mul_right (Nat.zero_lt_of_lt hcn) (Nat.add_right_cancel h), rfl⟩

theorem slotIndex_eq (wn cn : Nat) :
    slotIndex cfg wn cn = 8 * (wn * cfg.numClients + cn) := by
  simp only [slotIndex, reqBufBase, slotSizeLL, cachelineSize]
  ring

theorem deliverWrite_self {x : Write} {mem : Nat → Nat} {cn : Nat}
    (haddr : x.remoteAddr = remoteAddr cfg x.wn cn) :
    deliverWrite cfg x mem (slotIndex cfg x.wn cn) = x.value := by
  obtain ⟨hpos, -, hmod⟩ := cfg.size_ok
  have hwords : 0 < cfg.size / 8 := by omega
  rw [deliverWrite, haddr, remoteAddr_div, if_pos ⟨Nat.le_refl _, Nat.lt_add_of_pos_right hwords⟩,
    if_pos rfl]

/-- A WRITE changes no slot but its own. -/
theorem deliverWrite_of_ne {x : Write} {mem : Nat → Nat} {wn cn cn' : Nat}
    (haddr : x.remoteAddr = remoteAddr cfg x.wn cn) (hcn : cn < cfg.numClients)
    (hcn' : cn' < cfg.numClients) (hne : ¬(wn = x.wn ∧ cn' = cn)) :
    deliverWrite cfg x mem (slotIndex cfg wn cn') = mem (slotIndex cfg wn cn') := by
  obtain ⟨-, hsize, -⟩ := cfg.size_ok
  have hother : wn * cfg.numClients + cn' ≠ x.wn * cfg.numClients + cn :=
    fun heq => hne (pair_of_slot hcn' hcn heq)
  rw [deliverWrite, haddr, remoteAddr_div, slotIndex_eq, slotIndex_eq]
  refine if_neg fun hin => ?_
  -- a cache line has eight words, a WRITE at most three
  omega

/-! ## The invariant -/

/-- The numbers of a client on their way to worker `wn`. -/
def numbers (c : Client) (wn : Nat) : List Nat :=
  ((c.flight ++ c.wr).filter (·.wn = wn)).map Write.value

/-- The responses a worker has generated for client `cn`, posted or not. -/
def generated (w : Worker) (cn : Nat) : Nat := (w.posted ++ (w.wr 0 ++ w.wr 1)).count cn

/-- A client, a worker and the slot between them. -/
structure PairOk (slot : Nat) (c : Client) (w : Worker) (wn cn : Nat) : Prop where
  counts : Counts slot (numbers c wn) (c.lastReq wn) (w.lastReq cn)
  delivered_eq : slot = c.delivered wn
  generated_eq : generated w cn = w.lastReq cn

/-- A client by itself: where its requests go, and how many RECVs it has posted. -/
structure ClientOk (cfg : Config) (c : Client) (cn : Nat) : Prop where
  wn_lt : c.wn < cfg.numWorkers
  addressed : ∀ x ∈ c.flight ++ c.wr, x.port = cn % 2 ∧ x.remoteAddr = remoteAddr cfg x.wn cn
  nbTx : ∑ v ∈ Finset.range cfg.numWorkers, c.lastReq v = c.nbTx
  posted : c.recvs.posted = c.nbTx + c.ready.toNat
  covers : c.recvs.Covers 0

/-- The responses posted for a client by all workers. -/
def postedTo (cfg : Config) (worker : Nat → Worker) (cn : Nat) : Nat :=
  ∑ v ∈ Finset.range cfg.numWorkers, (worker v).posted.count cn

structure EchoInv (cfg : Config) (s : State) : Prop where
  pair : ∀ wn cn, cn < cfg.numClients →
    PairOk (s.slot cfg wn cn) (s.client cn) (s.worker wn) wn cn
  client : ∀ cn, ClientOk cfg (s.client cn) cn
  cltI_lt : 0 < cfg.numClients → ∀ wn, (s.worker wn).cltI < cfg.numClients
  responses : ∀ cn, postedTo cfg s.worker cn = (s.client cn).recvs.consumed + s.responses cn

theorem echoInv_start {s : State} (h : (echo cfg).init s) : EchoInv cfg s := by
  cases h
  refine ⟨fun wn cn _ => ⟨counts_zero, rfl, rfl⟩, fun cn => ?_, fun hpos _ => hpos, fun cn => ?_⟩
  · exact ⟨cfg.numWorkers_pos, fun x hx => absurd hx List.not_mem_nil, Finset.sum_const_zero, rfl,
      covers_empty⟩
  · exact Finset.sum_const_zero

/-! ## Clients -/

variable {c : Client} {w : Worker} {slot wn cn : Nat}

theorem PairOk.prepare (h : PairOk slot c w wn cn) : PairOk slot c.prepare w wn cn :=
  ⟨h.counts, h.delivered_eq, h.generated_eq⟩

theorem PairOk.request (h : PairOk slot c w wn cn) (cltGid : Nat) :
    PairOk slot (c.request cfg cltGid) w wn cn := by
  refine ⟨?_, h.delivered_eq, h.generated_eq⟩
  by_cases hwn : wn = c.wn
  · subst hwn
    have hnum : numbers (c.request cfg cltGid) c.wn = numbers c c.wn ++ [c.lastReq c.wn + 1] := by
      simp [numbers, Client.request, ← List.append_assoc]
    rw [hnum]
    simp only [Client.request, Function.update_self]
    exact h.counts.send
  · have hnum : numbers (c.request cfg cltGid) wn = numbers c wn := by
      simp [numbers, Client.request, ← List.append_assoc, Ne.symm hwn]
    rw [hnum]
    simp only [Client.request, Function.update_of_ne hwn]
    exact h.counts

theorem PairOk.postSend (h : PairOk slot c w wn cn) : PairOk slot c.postSend w wn cn := by
  refine ⟨?_, h.delivered_eq, h.generated_eq⟩
  have hnum : numbers c.postSend wn = numbers c wn := by simp [numbers, Client.postSend]
  rw [hnum]
  exact h.counts

theorem ClientOk.prepare (h : ClientOk cfg c cn) (hready : c.ready = false)
    (hpoll : window ≤ c.nbTx → 0 < c.recvs.ready) : ClientOk cfg c.prepare cn := by
  have hposted : c.recvs.posted = c.nbTx := by rw [h.posted, hready]; rfl
  by_cases hw : window ≤ c.nbTx
  · have hrecvs : c.prepare.recvs = (c.recvs.poll 1).post 1 := by rw [Client.prepare, if_pos hw]
    refine ⟨h.wn_lt, h.addressed, h.nbTx, ?_, ?_⟩
    · rw [hrecvs]
      exact congrArg (· + 1) hposted
    · rw [hrecvs]
      exact ((h.covers.poll (hpoll hw)).post 1).mono (Nat.zero_le 1)
  · have hrecvs : c.prepare.recvs = c.recvs.post 1 := by rw [Client.prepare, if_neg hw]
    refine ⟨h.wn_lt, h.addressed, h.nbTx, ?_, ?_⟩
    · rw [hrecvs]
      exact congrArg (· + 1) hposted
    · rw [hrecvs]
      exact (h.covers.post 1).mono (Nat.zero_le 1)

theorem ClientOk.request (h : ClientOk cfg c cn) (hready : c.ready = true) :
    ClientOk cfg (c.request cfg cn) cn := by
  refine ⟨hrdModAdd_lt h.wn_lt, fun x hx => ?_, ?_, ?_, h.covers⟩
  · simp only [Client.request, ← List.append_assoc, List.mem_append, List.mem_singleton] at hx
    obtain hx | rfl := hx
    · exact h.addressed x (List.mem_append.2 hx)
    · exact ⟨rfl, rfl⟩
  · have hsum := sum_update_add (Finset.mem_range.2 h.wn_lt) id c.lastReq (c.lastReq c.wn + 1)
    simp only [id, h.nbTx] at hsum
    show ∑ v ∈ Finset.range cfg.numWorkers, Function.update c.lastReq c.wn _ v = c.nbTx + 1
    omega
  · show c.recvs.posted = c.nbTx + 1 + 0
    rw [h.posted, hready]
    rfl

theorem ClientOk.postSend (h : ClientOk cfg c cn) : ClientOk cfg c.postSend cn :=
  ⟨h.wn_lt, fun x hx => h.addressed x (by simpa [Client.postSend] using hx), h.nbTx, h.posted,
    h.covers⟩

/-! ## Deliveries -/

theorem PairOk.deliver {x : Write} {rest : List Write} (h : PairOk slot c w x.wn cn)
    (hflight : c.flight = x :: rest) : PairOk x.value (c.deliver x rest) w x.wn cn := by
  have hnum : numbers c x.wn = x.value :: numbers (c.deliver x rest) x.wn := by
    simp [numbers, Client.deliver, hflight]
  have hcounts := h.counts
  rw [hnum] at hcounts
  obtain ⟨hvalue, hnext⟩ := hcounts.deliver
  refine ⟨hnext, ?_, h.generated_eq⟩
  simp only [Client.deliver, Function.update_self]
  rw [hvalue, h.delivered_eq]

theorem PairOk.deliver_of_ne {x : Write} {rest : List Write} (h : PairOk slot c w wn cn)
    (hflight : c.flight = x :: rest) (hne : wn ≠ x.wn) :
    PairOk slot (c.deliver x rest) w wn cn := by
  have hnum : numbers c wn = numbers (c.deliver x rest) wn := by
    simp [numbers, Client.deliver, hflight, Ne.symm hne]
  refine ⟨hnum ▸ h.counts, ?_, h.generated_eq⟩
  simp only [Client.deliver, Function.update_of_ne hne]
  exact h.delivered_eq

theorem ClientOk.deliver {x : Write} {rest : List Write} (h : ClientOk cfg c cn)
    (hflight : c.flight = x :: rest) : ClientOk cfg (c.deliver x rest) cn := by
  refine ⟨h.wn_lt, fun y hy => h.addressed y ?_, h.nbTx, h.posted, h.covers⟩
  rw [hflight, List.cons_append]
  exact List.mem_cons_of_mem _ hy

/-! ## Workers -/

theorem PairOk.miss (h : PairOk slot c w wn cn) : PairOk slot c (w.miss cfg) wn cn :=
  ⟨h.counts, h.delivered_eq, h.generated_eq⟩

theorem generated_hit (w : Worker) (cn : Nat) :
    generated (w.hit cfg) cn = generated w cn + if w.cltI = cn then 1 else 0 := by
  have hport : w.cltI % 2 = 0 ∨ w.cltI % 2 = 1 := Nat.mod_two_eq_zero_or_one _
  obtain hp | hp := hport
  · simp only [generated, Worker.hit, hp, Function.update_self, Function.update_of_ne one_ne_zero,
      List.count_append, List.count_singleton, beq_iff_eq, Worker.miss]
    ring
  · simp only [generated, Worker.hit, hp, Function.update_self, Function.update_of_ne zero_ne_one,
      List.count_append, List.count_singleton, beq_iff_eq, Worker.miss]
    ring

theorem PairOk.hit (h : PairOk slot c w wn cn) (hslot : cn = w.cltI → slot ≠ w.lastReq w.cltI) :
    PairOk slot c (w.hit cfg) wn cn := by
  by_cases hcn : cn = w.cltI
  · have hlast : (w.hit cfg).lastReq cn = w.lastReq cn + 1 := by
      subst hcn
      exact Function.update_self ..
    refine ⟨?_, h.delivered_eq, ?_⟩
    · rw [hlast]
      exact h.counts.answer (hcn ▸ hslot hcn)
    · rw [generated_hit, if_pos hcn.symm, h.generated_eq, hlast]
  · have hlast : (w.hit cfg).lastReq cn = w.lastReq cn := Function.update_of_ne hcn ..
    refine ⟨?_, h.delivered_eq, ?_⟩
    · rw [hlast]
      exact h.counts
    · rw [generated_hit, if_neg (Ne.symm hcn), h.generated_eq, hlast, Nat.add_zero]

theorem PairOk.finish (h : PairOk slot c w wn cn) : PairOk slot c (w.finish cfg) wn cn := by
  refine ⟨h.counts, h.delivered_eq, ?_⟩
  have hsame : generated (w.finish cfg) cn =
      generated w cn := by
    simp [generated, Worker.finish]
  rw [hsame]
  exact h.generated_eq

/-! ## Steps of the system -/

variable {s t : State}

/-- One client has moved, and at most its own slots and responses with it. -/
theorem EchoInv.moveClient (h : EchoInv cfg s) {c' : Client} (hworker : t.worker = s.worker)
    (hclient : t.client = Function.update s.client cn c')
    (hslot : ∀ wn k, k < cfg.numClients → k ≠ cn → t.slot cfg wn k = s.slot cfg wn k)
    (hpair : ∀ wn, cn < cfg.numClients → PairOk (t.slot cfg wn cn) c' (s.worker wn) wn cn)
    (hok : ClientOk cfg c' cn) (hresp : ∀ k, k ≠ cn → t.responses k = s.responses k)
    (hself : c'.recvs.consumed + t.responses cn =
      (s.client cn).recvs.consumed + s.responses cn) : EchoInv cfg t := by
  refine ⟨fun wn k hk => ?_, fun k => ?_, hworker ▸ h.cltI_lt, fun k => ?_⟩
  · rw [hclient, hworker]
    by_cases hkc : k = cn
    · subst hkc
      rw [Function.update_self]
      exact hpair wn hk
    · rw [Function.update_of_ne hkc, hslot wn k hk hkc]
      exact h.pair wn k hk
  · rw [hclient]
    by_cases hkc : k = cn
    · subst hkc
      rwa [Function.update_self]
    · rw [Function.update_of_ne hkc]
      exact h.client k
  · rw [hclient, hworker]
    by_cases hkc : k = cn
    · subst hkc
      rw [Function.update_self, hself]
      exact h.responses k
    · rw [Function.update_of_ne hkc, hresp k hkc]
      exact h.responses k

/-- One worker has moved, and the responses on their way are those it has posted. -/
theorem EchoInv.moveWorker (h : EchoInv cfg s) (hwn : wn < cfg.numWorkers) {w' : Worker}
    (hclient : t.client = s.client) (hbuf : t.reqBuf = s.reqBuf)
    (hworker : t.worker = Function.update s.worker wn w')
    (hpair : ∀ cn, PairOk (s.slot cfg wn cn) (s.client cn) (s.worker wn) wn cn →
      PairOk (s.slot cfg wn cn) (s.client cn) w' wn cn)
    (hclt : 0 < cfg.numClients → w'.cltI < cfg.numClients)
    (hresp : ∀ cn, t.responses cn + (s.worker wn).posted.count cn =
      s.responses cn + w'.posted.count cn) : EchoInv cfg t := by
  have hslot : ∀ v k, t.slot cfg v k = s.slot cfg v k := fun v k => by
    rw [State.slot, hbuf, State.slot]
  refine ⟨fun v k hk => ?_, hclient ▸ h.client, fun hpos v => ?_, fun k => ?_⟩
  · rw [hslot, hclient, hworker]
    by_cases hv : v = wn
    · subst hv
      rw [Function.update_self]
      exact hpair k (h.pair v k hk)
    · rw [Function.update_of_ne hv]
      exact h.pair v k hk
  · rw [hworker]
    by_cases hv : v = wn
    · subst hv
      rw [Function.update_self]
      exact hclt hpos
    · rw [Function.update_of_ne hv]
      exact h.cltI_lt hpos v
  · have hsum := sum_update_add (Finset.mem_range.2 hwn) (fun w : Worker => w.posted.count k)
      s.worker w'
    have hold := h.responses k
    have hnew := hresp k
    simp only [postedTo] at hold
    rw [hworker, hclient, postedTo]
    omega

theorem prepare_consumed (c : Client) : c.prepare.recvs.consumed = c.recvs.consumed := by
  simp only [Client.prepare]
  split <;> rfl

theorem slot_deliver_self {x : Write} {rest : List Write} (hport : x.port = cn % 2)
    (haddr : x.remoteAddr = remoteAddr cfg x.wn cn) :
    (s.deliver cfg cn x rest).slot cfg x.wn cn = x.value := by
  simp only [State.slot, State.deliver, ← hport, Function.update_self]
  exact deliverWrite_self haddr

theorem slot_deliver_of_ne {x : Write} {rest : List Write} {k : Nat}
    (haddr : x.remoteAddr = remoteAddr cfg x.wn cn) (hcn : cn < cfg.numClients)
    (hk : k < cfg.numClients) (hne : ¬(wn = x.wn ∧ k = cn)) :
    (s.deliver cfg cn x rest).slot cfg wn k = s.slot cfg wn k := by
  simp only [State.slot, State.deliver]
  by_cases hp : k % 2 = x.port
  · rw [hp, Function.update_self, deliverWrite_of_ne haddr hcn hk hne]
  · rw [Function.update_of_ne hp]

theorem EchoInv.deliver (h : EchoInv cfg s) (hcn : cn < cfg.numClients) {x : Write}
    {rest : List Write} (hflight : (s.client cn).flight = x :: rest) :
    EchoInv cfg (s.deliver cfg cn x rest) := by
  obtain ⟨hport, haddr⟩ := (h.client cn).addressed x (by rw [hflight]; exact List.mem_cons_self)
  refine h.moveClient rfl rfl
    (fun wn k hk hkc => slot_deliver_of_ne haddr hcn hk fun hboth => hkc hboth.2)
    (fun wn hk => ?_) ((h.client cn).deliver hflight) (fun _ _ => rfl) rfl
  by_cases hwn : wn = x.wn
  · subst hwn
    rw [slot_deliver_self hport haddr]
    exact (h.pair _ cn hk).deliver hflight
  · rw [slot_deliver_of_ne haddr hcn hk fun hboth => hwn hboth.1]
    exact (h.pair wn cn hk).deliver_of_ne hflight hwn

/-- No more responses have been posted for a client than it made requests. -/
theorem EchoInv.postedTo_le (h : EchoInv cfg s) (hcn : cn < cfg.numClients) :
    postedTo cfg s.worker cn ≤ (s.client cn).nbTx := by
  rw [← (h.client cn).nbTx]
  refine Finset.sum_le_sum fun v _ => ?_
  have hp := h.pair v cn hcn
  calc (s.worker v).posted.count cn ≤ generated (s.worker v) cn := by
        rw [generated, List.count_append]
        exact Nat.le_add_right ..
    _ = (s.worker v).lastReq cn := hp.generated_eq
    _ ≤ s.slot cfg v cn := hp.counts.answered_le
    _ ≤ (s.client cn).lastReq v := hp.counts.slot_le

theorem EchoInv.arrive (h : EchoInv cfg s) (hcn : cn < cfg.numClients)
    (hpos : 0 < s.responses cn) : EchoInv cfg (s.arrive cn) := by
  have hc := h.client cn
  -- the response is one of a request made, so there is a RECV for it
  have hroom : (s.client cn).recvs.consumed + 1 ≤ (s.client cn).recvs.posted := by
    have hle := h.postedTo_le hcn
    rw [h.responses cn] at hle
    rw [hc.posted]
    omega
  have hcovers : (s.client cn).recvs.Covers (0 + 1) :=
    ⟨hc.covers.dropped, hc.covers.polled_le, hroom⟩
  refine h.moveClient rfl rfl (fun _ _ _ _ => rfl)
    (fun wn hk => ⟨(h.pair wn cn hk).counts, (h.pair wn cn hk).delivered_eq,
      (h.pair wn cn hk).generated_eq⟩)
    ⟨hc.wn_lt, hc.addressed, hc.nbTx, ?_, hcovers.arrive⟩
    (fun k hk => Function.update_of_ne hk ..) ?_
  · rw [hcovers.arrive_eq]
    exact hc.posted
  · simp only [State.arrive, hcovers.arrive_eq, Function.update_self]
    omega

theorem EchoInv.step {e : Event} (h : EchoInv cfg s) (hstep : (echo cfg).step s e t) :
    EchoInv cfg t := by
  cases e with
  | prepare cn =>
    obtain ⟨-, -, hready, hpoll, rfl⟩ := hstep
    exact h.moveClient rfl rfl (fun _ _ _ _ => rfl) (fun wn hk => (h.pair wn cn hk).prepare)
      ((h.client cn).prepare hready hpoll) (fun _ _ => rfl) (by rw [prepare_consumed])
  | request cn =>
    obtain ⟨-, hready, -, rfl⟩ := hstep
    exact h.moveClient rfl rfl (fun _ _ _ _ => rfl) (fun wn hk => (h.pair wn cn hk).request cn)
      ((h.client cn).request hready) (fun _ _ => rfl) rfl
  | postSend cn =>
    obtain ⟨-, -, rfl⟩ := hstep
    exact h.moveClient rfl rfl (fun _ _ _ _ => rfl) (fun wn hk => (h.pair wn cn hk).postSend)
      (h.client cn).postSend (fun _ _ => rfl) rfl
  | deliver cn =>
    obtain ⟨hcn, x, rest, hflight, rfl⟩ := hstep
    exact h.deliver hcn hflight
  | miss wn =>
    obtain ⟨hwn, -, -, rfl⟩ := hstep
    exact h.moveWorker hwn rfl rfl rfl (fun _ hp => hp.miss)
      (fun hpos => hrdModAdd_lt (h.cltI_lt hpos wn)) fun _ => rfl
  | hit wn =>
    obtain ⟨hwn, -, hnew, -, rfl⟩ := hstep
    exact h.moveWorker hwn rfl rfl rfl (fun _ hp => hp.hit fun heq => heq ▸ hnew)
      (fun hpos => hrdModAdd_lt (h.cltI_lt hpos wn)) fun _ => rfl
  | finish wn =>
    obtain ⟨hwn, -, rfl⟩ := hstep
    refine h.moveWorker hwn rfl rfl rfl (fun _ hp => hp.finish) (fun hpos => h.cltI_lt hpos wn)
      fun cn => ?_
    simp only [Worker.finish, List.count_append]
    ring
  | arrive cn =>
    obtain ⟨hcn, hpos, rfl⟩ := hstep
    exact h.arrive hcn hpos

/-- The invariant of every run. -/
theorem reachable_echoInv (hs : Reachable (echo cfg) s) : EchoInv cfg s :=
  hs.invariant (fun _ h => echoInv_start h) fun _ _ _ _ h hstep => h.step hstep

/-! ## Exactly once -/

/-- The responses a client has yet to receive: those on their way, those collected
by a worker, and those of requests not answered. -/
def toCome (cfg : Config) (s : State) (cn : Nat) : Nat :=
  s.responses cn + ∑ v ∈ Finset.range cfg.numWorkers,
    (((s.worker v).wr 0 ++ (s.worker v).wr 1).count cn +
      ((s.client cn).lastReq v - (s.worker v).lastReq cn))

/-- Every request made has its response, arrived or yet to come. -/
theorem EchoInv.toCome_add (h : EchoInv cfg s) (hcn : cn < cfg.numClients) :
    toCome cfg s cn + (s.client cn).recvs.consumed = (s.client cn).nbTx := by
  have hsum : ∑ v ∈ Finset.range cfg.numWorkers,
      (((s.worker v).wr 0 ++ (s.worker v).wr 1).count cn +
        ((s.client cn).lastReq v - (s.worker v).lastReq cn)) + postedTo cfg s.worker cn =
      ∑ v ∈ Finset.range cfg.numWorkers, (s.client cn).lastReq v := by
    rw [postedTo, ← Finset.sum_add_distrib]
    refine Finset.sum_congr rfl fun v _ => ?_
    have hp := h.pair v cn hcn
    have hgen := hp.generated_eq
    have hle := hp.counts.answered_le.trans hp.counts.slot_le
    rw [generated, List.count_append] at hgen
    omega
  rw [(h.client cn).nbTx, h.responses cn] at hsum
  rw [toCome]
  omega

/-- What holds between worker `wn` and client `cn` at any time. -/
structure AnsweredOnce (cfg : Config) (s : State) (wn cn : Nat) : Prop where
  not_ahead : (s.worker wn).lastReq cn ≤ s.slot cfg wn cn
  answers : generated (s.worker wn) cn = (s.worker wn).lastReq cn
  slot_eq : s.slot cfg wn cn = (s.client cn).delivered wn
  caught_up : s.slot cfg wn cn = (s.worker wn).lastReq cn →
    generated (s.worker wn) cn = (s.client cn).delivered wn

/-- In every run, a worker answers every delivered request exactly once, and the
RECVs of a client cover the responses still to come. -/
theorem every_request_answered_once (cfg : Config) (s : State) (hs : Reachable (echo cfg) s)
    (cn : Nat) (hcn : cn < cfg.numClients) :
    (∀ wn, AnsweredOnce cfg s wn cn) ∧
    toCome cfg s cn + (s.client cn).recvs.arrived = (s.client cn).nbTx ∧
    (s.client cn).recvs.Covers (toCome cfg s cn) := by
  have h := reachable_echoInv hs
  have hcovers := (h.client cn).covers
  have htotal := h.toCome_add hcn
  refine ⟨fun wn => ?_, ?_, hcovers.dropped, hcovers.polled_le, ?_⟩
  · have hp := h.pair wn cn hcn
    exact ⟨hp.counts.answered_le, hp.generated_eq, hp.delivered_eq,
      fun heq => hp.generated_eq.trans (heq.symm.trans hp.delivered_eq)⟩
  · rw [hcovers.arrived_eq]
    exact htotal
  · rw [(h.client cn).posted]
    omega

/-- Postlists of one request of eight bytes. -/
def smallLists : Config := Config.source 1 1 8 (by decide)

/-- Worker 0 answers the first requests of two clients together, and one of the responses
arrives. -/
theorem twoAnswers_reachable :
    ∃ s, Reachable (echo smallLists) s ∧ (s.client 0).delivered 0 = 1 ∧
      (s.client 1).delivered 0 = 1 ∧ (s.worker 0).posted = [0, 1] ∧ (s.worker 0).lastReq 0 = 1 ∧
      (s.client 0).recvs.arrived = 1 ∧ (s.client 0).nbTx = 1 := by
  have h0 : Reachable (echo smallLists) _ := .init rfl
  have h1 : Reachable (echo smallLists) _ := .step (e := .prepare 0) h0
    ⟨by decide, by decide, rfl, fun hw => absurd hw (by decide), rfl⟩
  have h2 : Reachable (echo smallLists) _ := .step (e := .request 0) h1
    ⟨by decide, rfl, fun hp => absurd hp (by decide), rfl⟩
  have h3 : Reachable (echo smallLists) _ := .step (e := .postSend 0) h2
    ⟨by decide, rfl, rfl⟩
  have h4 : Reachable (echo smallLists) _ := .step (e := .deliver 0) h3
    ⟨by decide, _, _, rfl, rfl⟩
  have h5 : Reachable (echo smallLists) _ := .step (e := .prepare 1) h4
    ⟨by decide, by decide, rfl, fun hw => absurd hw (by decide), rfl⟩
  have h6 : Reachable (echo smallLists) _ := .step (e := .request 1) h5
    ⟨by decide, rfl, fun hp => absurd hp (by decide), rfl⟩
  have h7 : Reachable (echo smallLists) _ := .step (e := .postSend 1) h6
    ⟨by decide, rfl, rfl⟩
  have h8 : Reachable (echo smallLists) _ := .step (e := .deliver 1) h7
    ⟨by decide, _, _, rfl, rfl⟩
  have h9 : Reachable (echo smallLists) _ := .step (e := .hit 0) h8
    ⟨by decide, ⟨by decide, by decide⟩, by decide, fun hp => absurd hp (by decide), rfl⟩
  have h10 : Reachable (echo smallLists) _ := .step (e := .hit 0) h9
    ⟨by decide, ⟨by decide, by decide⟩, by decide, fun hp => absurd hp (by decide), rfl⟩
  have h11 : Reachable (echo smallLists) _ := .step (e := .finish 0) h10
    ⟨by decide, fun hp => absurd hp.2 (by decide), rfl⟩
  have h12 : Reachable (echo smallLists) _ := .step (e := .arrive 0) h11
    ⟨by decide, by decide, rfl⟩
  exact ⟨_, h12, rfl, rfl, rfl, rfl, rfl, rfl⟩

theorem every_request_answered_once_two :
    ∃ s : State, (s.client 0).delivered 0 = 1 ∧ (s.worker 0).posted = [0, 1] ∧
      generated (s.worker 0) 0 = 1 ∧ toCome smallLists s 0 = 0 ∧
      (s.client 0).recvs.Covers (toCome smallLists s 0) := by
  obtain ⟨s, hs, hdelivered, -, hposted, hlast, harrived, hmade⟩ := twoAnswers_reachable
  obtain ⟨hall, htotal, hcovers⟩ := every_request_answered_once smallLists s hs 0 (by decide)
  exact ⟨s, hdelivered, hposted, (hall 0).answers.trans hlast, by omega, hcovers⟩

end RdmaBench.Echo.Answers
