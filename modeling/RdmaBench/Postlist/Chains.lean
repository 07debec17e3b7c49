import RdmaBench.Lib.Chain
import RdmaBench.Lib.SlotRing
import RdmaBench.Postlist.Worker

/-! # The postlists of a worker

Inside a pass the workers of HERD and `ws-sequencer` fill one array of work
requests from its start, and thread the requests of each port through it: the
`next` pointer of a request is written when a later request of its port comes,
and set to `NULL` at the end of the pass for the last one. The array is
reused, so all other `next` pointers are left over from earlier passes, and at
first from whatever was on the stack. -/

namespace RdmaBench.Postlist.Chains
open RdmaBench.Lib.Runs RdmaBench.Lib.Chain RdmaBench.Postlist.Worker
open RdmaBench.Lib.SlotRing (next_slot)

/-! ## The work requests of a worker -/

/-- What a worker knows before its first pass: its id and first port, and the
LID and queue pair number that each client has published. -/
structure Setup where
  wrkrLid : Nat
  basePortIndex : Nat
  lid : Nat → Nat
  qpn : Nat → Nat

/-- An address handle, with the control block in whose protection domain
`ibv_create_ah` made it. -/
structure Ah where
  cb : Nat
  dlid : Nat
  portNum : Nat
deriving DecidableEq

/-- The setup loop of `run_worker`, for client `i`. -/
def createAh (cfg : Config) (st : Setup) (i : Nat) : Ah :=
  let cbI := i % cfg.numServerPorts
  ⟨cbI, st.lid i, st.basePortIndex + cbI + 1⟩

/-- The fields of `struct ibv_send_wr` that differ between work requests. A
pointer to `wr[k]` is `some k`, and `sgList` is the index in `sgl`. -/
structure SendWr where
  next : Option Nat
  ah : Ah
  remoteQpn : Nat
  sgList : Nat
  immData : Nat
  signaled : Bool

/-- The variables of `run_worker` that a pass reads and writes. The client that
`wr[k]` was filled for is not kept by the program. -/
structure State where
  pass : Pass
  wr : Nat → SendWr
  firstSendWr : Nat → Option Nat
  lastSendWr : Nat → Option Nat
  clt : Nat → Nat

/-- One `ibv_post_send`: the control block, the queue pair, and the work
requests of the list. -/
structure Post where
  cb : Nat
  udQpI : Nat
  chain : List Nat
  requests : List SendWr

def nexts (wr : Nat → SendWr) (k : Nat) : Option Nat := (wr k).next

def setNext (wr : Nat → SendWr) (k : Nat) (p : Option Nat) : Nat → SendWr :=
  Function.update wr k { wr k with next := p }

/-- Put `wr[wr_i]` at the end of the list of its port. `none` is an access
through a `NULL` pointer. -/
def link (s : State) : Option (Nat → SendWr) :=
  if s.pass.nbNewReq s.pass.cbI = 0 then some s.wr
  else (s.lastSendWr s.pass.cbI).map fun last => setNext s.wr last (some s.pass.wrI)

/-- Fill in `wr[wr_i]` for client `clt_i`. -/
def fill (cfg : Config) (st : Setup) (s : State) (wr : Nat → SendWr) : State :=
  let k := s.pass.wrI
  { pass := Worker.hit cfg s.pass
    wr := Function.update wr k {
      next := (wr k).next
      ah := createAh cfg st s.pass.cltI
      remoteQpn := st.qpn s.pass.cltI
      sgList := k
      immData := st.wrkrLid
      signaled := (s.pass.queue s.pass.cbI s.pass.udQpI).made % cfg.unsigBatch == 0 }
    firstSendWr :=
      if s.pass.nbNewReq s.pass.cbI = 0 then Function.update s.firstSendWr s.pass.cbI (some k)
      else s.firstSendWr
    lastSendWr := Function.update s.lastSendWr s.pass.cbI (some k)
    clt := Function.update s.clt k s.pass.cltI }

/-- The poll finds a request of client `clt_i`. -/
def hit (cfg : Config) (st : Setup) (s : State) : Option State := (link s).map (fill cfg st s)

/-- One round of the loop over the ports. `ibv_post_send` follows the list
until `NULL`; a list through the array visits at most `NUM_CLIENTS` requests,
unless it has no end. -/
def postPort (cfg : Config) (s : State) (acc : (Nat → SendWr) × List Post) (i : Nat) :
    Option ((Nat → SendWr) × List Post) :=
  if s.pass.nbNewReq i = 0 then some acc
  else do
    let last ← s.lastSendWr i
    let wr := setNext acc.1 last none
    let chain ← follow (nexts wr) cfg.numClients (s.firstSendWr i)
    return (wr, acc.2 ++ [⟨i, s.pass.udQpI, chain, chain.map wr⟩])

def postLists (cfg : Config) (s : State) : Option ((Nat → SendWr) × List Post) :=
  (List.range cfg.numServerPorts).foldlM (postPort cfg s) (s.wr, [])

def finish (cfg : Config) (s : State) : Option (State × List Post) := do
  let (wr, posts) ← postLists cfg s
  return ({ s with pass := Worker.finish cfg s.pass, wr := wr }, posts)

/-- The passes of a worker with its work requests, for all arrivals of
requests and any first contents of `wr`. -/
def worker (cfg : Config) (st : Setup) : System State Event where
  init s := s.pass = Pass.start ∧ (∀ i, s.firstSendWr i = none) ∧ ∀ i, s.lastSendWr i = none
  step s e t := (passes cfg).step s.pass e t.pass ∧ match e with
    | .miss => t = { s with pass := miss cfg s.pass }
    | .hit => hit cfg st s = some t
    | .finish => ∃ posts, finish cfg s = some (t, posts)

variable {cfg : Config} {st : Setup} {s t : State}

/-- The passes are those of `Worker`. -/
theorem worker_passes (h : Reachable (worker cfg st) s) : Reachable (passes cfg) s.pass := by
  induction h with
  | init h0 => exact .init h0.1
  | step _ hstep ih => exact .step ih hstep.1

/-! ## The counters -/

/-- Two counters advance together if the range of one divides that of the
other. -/
theorem hrdModAdd_lockstep {x n p : Nat} (hdvd : p ∣ n) (hx : x < n) :
    hrdModAdd (x % p) p = hrdModAdd x n % p := by
  have hn : 0 < n := Nat.zero_lt_of_lt hx
  have hmod : hrdModAdd x n = (x + 1) % n := by
    nth_rewrite 1 [← Nat.mod_eq_of_lt hx]
    exact next_slot hn
  rw [hmod, Nat.mod_mod_of_dvd _ hdvd]
  exact next_slot (Nat.pos_of_dvd_of_pos hdvd hn)

/-! ## The invariant of a pass -/

/-- The work requests of this pass that answer clients of port `i`. -/
def ofPort (cfg : Config) (s : State) (i : Nat) : List Nat :=
  (List.range s.pass.wrI).filter fun k => s.clt k % cfg.numServerPorts = i

theorem mem_ofPort {i k : Nat} :
    k ∈ ofPort cfg s i ↔ k < s.pass.wrI ∧ s.clt k % cfg.numServerPorts = i := by
  simp [ofPort]

theorem ofPort_nodup (i : Nat) : (ofPort cfg s i).Nodup := List.nodup_range.filter _

/-- The requests of different ports are different. -/
theorem ofPort_disjoint {i j k : Nat} (hi : k ∈ ofPort cfg s i) (hj : k ∈ ofPort cfg s j) :
    i = j :=
  (mem_ofPort.mp hi).2.symm.trans (mem_ofPort.mp hj).2

/-- The two counters agree, and the requests of each port are threaded through
the array from its first to its last; what the last names is open. -/
structure ChainInv (cfg : Config) (st : Setup) (s : State) : Prop where
  cltI_lt : s.pass.cltI < cfg.numClients
  cbI_eq : s.pass.cbI = s.pass.cltI % cfg.numServerPorts
  wrI_le : s.pass.wrI ≤ s.pass.pollI
  pollI_le : s.pass.pollI ≤ cfg.numClients
  filled : ∀ k < s.pass.wrI, s.clt k < cfg.numClients ∧
    (s.wr k).ah = createAh cfg st (s.clt k) ∧ (s.wr k).remoteQpn = st.qpn (s.clt k)
  new : ∀ i, s.pass.nbNewReq i = (ofPort cfg s i).length
  first : ∀ i, s.pass.nbNewReq i ≠ 0 → s.firstSendWr i = (ofPort cfg s i).head?
  last : ∀ i, s.pass.nbNewReq i ≠ 0 → s.lastSendWr i = (ofPort cfg s i).getLast?
  linked : ∀ i, Linked (nexts s.wr) (ofPort cfg s i)

/-- Between two passes only the counters matter. -/
theorem ChainInv.of_empty (hclt : s.pass.cltI < cfg.numClients)
    (hcb : s.pass.cbI = s.pass.cltI % cfg.numServerPorts) (hwr : s.pass.wrI = 0)
    (hpoll : s.pass.pollI = 0) (hnew : ∀ i, s.pass.nbNewReq i = 0) : ChainInv cfg st s := by
  have hof : ∀ i, ofPort cfg s i = [] := fun i => by rw [ofPort, hwr]; rfl
  refine ⟨hclt, hcb, hwr ▸ Nat.zero_le _, hpoll ▸ Nat.zero_le _, ?_,
    fun i => by rw [hnew, hof]; rfl, fun i h => absurd (hnew i) h,
    fun i h => absurd (hnew i) h, fun i => by rw [hof]; exact .nil⟩
  intro k hk
  rw [hwr] at hk
  exact absurd hk (Nat.not_lt_zero k)

theorem ChainInv.start (hN : 0 < cfg.numClients) (h : (worker cfg st).init s) :
    ChainInv cfg st s := by
  have hpass := h.1
  refine .of_empty ?_ ?_ ?_ ?_ ?_ <;> rw [hpass]
  · exact hN
  · exact (Nat.zero_mod _).symm
  · rfl
  · rfl
  · exact fun _ => rfl

theorem ChainInv.miss (h : ChainInv cfg st s) (hdvd : cfg.numServerPorts ∣ cfg.numClients)
    (hp : Polling cfg s.pass) : ChainInv cfg st { s with pass := miss cfg s.pass } where
  cltI_lt := hrdModAdd_lt h.cltI_lt
  cbI_eq := by
    simp only [Worker.miss]
    rw [h.cbI_eq]
    exact hrdModAdd_lockstep hdvd h.cltI_lt
  wrI_le := Nat.le_succ_of_le h.wrI_le
  pollI_le := hp.1
  filled := h.filled
  new := h.new
  first := h.first
  last := h.last
  linked := h.linked

/-! ## A request is found -/

theorem nexts_setNext (wr : Nat → SendWr) (k : Nat) (p : Option Nat) :
    nexts (setNext wr k p) = Function.update (nexts wr) k p := by
  funext j
  by_cases hj : j = k
  · subst hj
    simp [nexts, setNext]
  · simp [nexts, setNext, Function.update_of_ne hj]

theorem nexts_fill (wr : Nat → SendWr) : nexts (fill cfg st s wr).wr = nexts wr := by
  funext j
  by_cases hj : j = s.pass.wrI
  · subst hj
    simp [nexts, fill]
  · simp [nexts, fill, Function.update_of_ne hj]

/-- A new request belongs to the port of its client. -/
theorem ofPort_fill (wr : Nat → SendWr) (i : Nat) : ofPort cfg (fill cfg st s wr) i =
    if s.pass.cltI % cfg.numServerPorts = i then ofPort cfg s i ++ [s.pass.wrI]
    else ofPort cfg s i := by
  have hold : (List.range s.pass.wrI).filter
      (fun k => (fill cfg st s wr).clt k % cfg.numServerPorts = i) = ofPort cfg s i := by
    refine List.filter_congr fun k hk => ?_
    have hclt : (fill cfg st s wr).clt k = s.clt k :=
      Function.update_of_ne (Nat.ne_of_lt (List.mem_range.mp hk)) ..
    rw [hclt]
  have hnew : (fill cfg st s wr).clt s.pass.wrI = s.pass.cltI := Function.update_self ..
  rw [ofPort, show (fill cfg st s wr).pass.wrI = s.pass.wrI + 1 from rfl, List.range_succ,
    List.filter_append, hold, List.filter_singleton, hnew]
  by_cases hi : s.pass.cltI % cfg.numServerPorts = i
  · simp [hi]
  · simp [hi]

/-- Two arrays that differ in `next` pointers only. -/
def SameRequests (wr wr' : Nat → SendWr) : Prop :=
  ∀ k, (wr' k).ah = (wr k).ah ∧ (wr' k).remoteQpn = (wr k).remoteQpn

theorem setNext_same (wr : Nat → SendWr) (k : Nat) (p : Option Nat) :
    SameRequests wr (setNext wr k p) := by
  intro j
  by_cases hj : j = k
  · subst hj
    simp [setNext]
  · simp [setNext, Function.update_of_ne hj]

theorem ChainInv.ofPort_eq_nil (h : ChainInv cfg st s) {i : Nat} (h0 : s.pass.nbNewReq i = 0) :
    ofPort cfg s i = [] :=
  List.eq_nil_of_length_eq_zero ((h.new i).symm.trans h0)

/-- A port with new requests has a last one. -/
theorem ChainInv.exists_last (h : ChainInv cfg st s) {i : Nat} (hne : s.pass.nbNewReq i ≠ 0) :
    ∃ last, s.lastSendWr i = some last ∧ (ofPort cfg s i).getLast? = some last := by
  have hl := h.last i hne
  cases he : (ofPort cfg s i).getLast? with
  | none =>
    rw [h.new i, List.getLast?_eq_none_iff.mp he] at hne
    exact absurd rfl hne
  | some last => exact ⟨last, hl.trans he, rfl⟩

/-- A write to the last request of one port leaves the lists of the others. -/
theorem linked_other {wr : Nat → SendWr} {i j last : Nat}
    {p : Option Nat} (hlast : (ofPort cfg s i).getLast? = some last) (hij : j ≠ i)
    (hj : Linked (nexts wr) (ofPort cfg s j)) :
    Linked (nexts (setNext wr last p)) (ofPort cfg s j) := by
  rw [nexts_setNext]
  refine hj.congr fun k hk => Function.update_of_ne ?_ ..
  intro he
  exact hij (ofPort_disjoint hk (he ▸ List.mem_of_getLast? hlast))

theorem ChainInv.link (h : ChainInv cfg st s) : ∃ wr, link s = some wr ∧ SameRequests s.wr wr ∧
    Linked (nexts wr) (ofPort cfg s s.pass.cbI ++ [s.pass.wrI]) ∧
    ∀ j, j ≠ s.pass.cbI → Linked (nexts wr) (ofPort cfg s j) := by
  by_cases h0 : s.pass.nbNewReq s.pass.cbI = 0
  · refine ⟨s.wr, if_pos h0, fun _ => ⟨rfl, rfl⟩, ?_, fun j _ => h.linked j⟩
    rw [h.ofPort_eq_nil h0]
    exact linked_singleton _ _
  · obtain ⟨last, hl, hlast⟩ := h.exists_last h0
    refine ⟨setNext s.wr last (some s.pass.wrI), ?_, setNext_same s.wr last _, ?_,
      fun j hj => linked_other hlast hj (h.linked j)⟩
    · rw [Chains.link, if_neg h0, hl]
      rfl
    · rw [nexts_setNext]
      exact (h.linked _).snoc (ofPort_nodup _) hlast _

theorem fill_firstSendWr_other {wr : Nat → SendWr} {i : Nat} (hi : i ≠ s.pass.cbI) :
    (fill cfg st s wr).firstSendWr i = s.firstSendWr i := by
  simp only [fill]
  split
  · exact Function.update_of_ne hi ..
  · rfl

/-- The first request of the list stays, unless the list was empty. -/
theorem ChainInv.first_fill (h : ChainInv cfg st s) (wr : Nat → SendWr) :
    (fill cfg st s wr).firstSendWr s.pass.cbI =
      (ofPort cfg s s.pass.cbI ++ [s.pass.wrI]).head? := by
  by_cases h0 : s.pass.nbNewReq s.pass.cbI = 0
  · rw [h.ofPort_eq_nil h0]
    simp [fill, h0]
  · have hfirst := h.first _ h0
    have hne : ofPort cfg s s.pass.cbI ≠ [] := by
      intro he
      rw [h.new, he] at h0
      exact h0 rfl
    rw [List.head?_append_of_ne_nil _ hne, ← hfirst]
    simp [fill, h0]

/-- A found request never meets a `NULL` pointer, and goes to the end of the
list of its client's port. -/
theorem ChainInv.hit (h : ChainInv cfg st s) (hdvd : cfg.numServerPorts ∣ cfg.numClients)
    (hp : Polling cfg s.pass) : ∃ t, hit cfg st s = some t ∧ ChainInv cfg st t := by
  obtain ⟨wr, hlink, hsame, hcb, hother⟩ := h.link
  refine ⟨fill cfg st s wr, by rw [Chains.hit, hlink]; rfl, ?_⟩
  have hmiss := h.miss hdvd hp
  have hself : ofPort cfg (fill cfg st s wr) s.pass.cbI =
      ofPort cfg s s.pass.cbI ++ [s.pass.wrI] := by
    rw [ofPort_fill, if_pos h.cbI_eq.symm]
  have hne : ∀ i, i ≠ s.pass.cbI → ofPort cfg (fill cfg st s wr) i = ofPort cfg s i := by
    intro i hi
    rw [ofPort_fill, ← h.cbI_eq, if_neg (Ne.symm hi)]
  have hnew : ∀ i, i ≠ s.pass.cbI → (fill cfg st s wr).pass.nbNewReq i = s.pass.nbNewReq i :=
    fun i hi => Function.update_of_ne hi ..
  refine ⟨hmiss.cltI_lt, hmiss.cbI_eq, Nat.succ_le_succ h.wrI_le, hmiss.pollI_le, ?_, ?_, ?_, ?_,
    ?_⟩
  · intro k hk
    by_cases he : k = s.pass.wrI
    · subst he
      simp [fill, h.cltI_lt]
    · have hk' : k < s.pass.wrI := Nat.lt_of_le_of_ne (Nat.le_of_lt_succ hk) he
      simp only [fill, Function.update_of_ne he]
      rw [(hsame k).1, (hsame k).2]
      exact h.filled k hk'
  -- in each of the lists, the port of the new request and the others
  · intro i
    by_cases hi : i = s.pass.cbI
    · subst hi
      rw [hself]
      simp [fill, Worker.hit, h.new]
    · rw [hne i hi, hnew i hi, h.new i]
  · intro i h0
    by_cases hi : i = s.pass.cbI
    · subst hi
      rw [hself]
      exact h.first_fill wr
    · rw [hnew i hi] at h0
      rw [hne i hi, fill_firstSendWr_other hi]
      exact h.first i h0
  · intro i h0
    by_cases hi : i = s.pass.cbI
    · subst hi
      rw [hself]
      simp [fill]
    · rw [hnew i hi] at h0
      rw [hne i hi, ← h.last i h0]
      exact Function.update_of_ne hi ..
  · intro i
    rw [nexts_fill]
    by_cases hi : i = s.pass.cbI
    · subst hi
      rw [hself]
      exact hcb
    · rw [hne i hi]
      exact hother i hi

/-! ## The posts of a pass -/

/-- The loop over the ports has come to port `n`: the lists of the ports before
it are posted, and those from it on are still open. -/
structure Posted (cfg : Config) (s : State) (n : Nat) (wr : Nat → SendWr) (posts : List Post) :
    Prop where
  same : SameRequests s.wr wr
  opened : ∀ j, n ≤ j → Linked (nexts wr) (ofPort cfg s j)
  ports : posts.map Post.cb = (List.range n).filter fun i => s.pass.nbNewReq i ≠ 0
  chain : ∀ p ∈ posts, p.chain = ofPort cfg s p.cb ∧ p.requests = p.chain.map wr ∧
    Visits (nexts wr) (s.firstSendWr p.cb) p.chain

theorem Posted.cb_lt {n : Nat} {wr : Nat → SendWr} {posts : List Post} (h : Posted cfg s n wr posts)
    {p : Post} (hp : p ∈ posts) : p.cb < n ∧ s.pass.nbNewReq p.cb ≠ 0 := by
  have hm : p.cb ∈ posts.map Post.cb := List.mem_map_of_mem hp
  rw [h.ports] at hm
  simpa using hm

/-- One round of the loop never meets a `NULL` pointer or a list without end. -/
theorem Posted.postPort {n : Nat} {wr : Nat → SendWr} {posts : List Post}
    (hp : Posted cfg s n wr posts) (h : ChainInv cfg st s) :
    ∃ wr' posts', postPort cfg s (wr, posts) n = some (wr', posts') ∧
      Posted cfg s (n + 1) wr' posts' := by
  by_cases h0 : s.pass.nbNewReq n = 0
  · refine ⟨wr, posts, if_pos h0, hp.same, fun j hj => hp.opened j (by omega), ?_, hp.chain⟩
    rw [hp.ports, List.range_succ, List.filter_append]
    simp [h0]
  · obtain ⟨last, hl, hlast⟩ := h.exists_last h0
    have hvisits : Visits (nexts (setNext wr last none)) (s.firstSendWr n) (ofPort cfg s n) := by
      rw [nexts_setNext, h.first n h0]
      exact (hp.opened n (Nat.le_refl n)).close (ofPort_nodup n) hlast
    have hlen : (ofPort cfg s n).length ≤ cfg.numClients := by
      have hle := List.length_filter_le
        (fun k => decide (s.clt k % cfg.numServerPorts = n)) (List.range s.pass.wrI)
      rw [List.length_range] at hle
      exact hle.trans (h.wrI_le.trans h.pollI_le)
    have hlastmem := List.mem_of_getLast? hlast
    have hkeep : ∀ p ∈ posts, ∀ k ∈ p.chain, setNext wr last none k = wr k := by
      intro p hm k hk
      refine Function.update_of_ne (fun he => ?_) ..
      rw [(hp.chain p hm).1] at hk
      exact (hp.cb_lt hm).1.ne (ofPort_disjoint hk (he ▸ hlastmem))
    refine ⟨setNext wr last none, posts ++ [⟨n, s.pass.udQpI, ofPort cfg s n,
      (ofPort cfg s n).map (setNext wr last none)⟩], ?_, ?_, ?_, ?_, ?_⟩
    · simp only [Chains.postPort, if_neg h0, hl]
      simp [hvisits.follow_eq hlen]
    · intro k
      have hset := setNext_same wr last none k
      exact ⟨hset.1.trans (hp.same k).1, hset.2.trans (hp.same k).2⟩
    · intro j hj
      exact linked_other hlast (by omega) (hp.opened j (by omega))
    · rw [List.map_append, hp.ports, List.range_succ, List.filter_append]
      simp [h0]
    · intro p hm
      rcases List.mem_append.mp hm with hm | hm
      · obtain ⟨hc, hr, hv⟩ := hp.chain p hm
        refine ⟨hc, hr.trans (List.map_congr_left fun k hk => (hkeep p hm k hk).symm), ?_⟩
        exact hv.congr fun k hk => congrArg SendWr.next (hkeep p hm k hk)
      · rw [List.mem_singleton.mp hm]
        exact ⟨rfl, rfl, hvisits⟩

theorem ChainInv.postLists (h : ChainInv cfg st s) : ∀ n,
    ∃ wr posts, (List.range n).foldlM (Chains.postPort cfg s) (s.wr, []) = some (wr, posts) ∧
      Posted cfg s n wr posts
  | 0 => ⟨s.wr, [], rfl, fun _ => ⟨rfl, rfl⟩, fun j _ => h.linked j, rfl, fun p hp => by cases hp⟩
  | n + 1 => by
    obtain ⟨wr, posts, hf, hp⟩ := h.postLists n
    obtain ⟨wr', posts', hpost, hp'⟩ := hp.postPort h
    refine ⟨wr', posts', ?_, hp'⟩
    rw [List.range_succ, List.foldlM_append, hf]
    simpa using hpost

theorem finish_eq {posts : List Post} (h : finish cfg s = some (t, posts)) :
    Chains.postLists cfg s = some (t.wr, posts) ∧ t.pass = Worker.finish cfg s.pass := by
  obtain ⟨acc, hacc, ht⟩ := Option.bind_eq_some_iff.mp h
  cases ht
  exact ⟨hacc, rfl⟩

theorem ChainInv.finish (h : ChainInv cfg st s) (hpass : t.pass = Worker.finish cfg s.pass) :
    ChainInv cfg st t := by
  refine .of_empty ?_ ?_ ?_ ?_ ?_ <;> rw [hpass]
  · exact h.cltI_lt
  · exact h.cbI_eq
  · rfl
  · rfl
  · exact fun _ => rfl

theorem worker_inv (hN : 0 < cfg.numClients) (hdvd : cfg.numServerPorts ∣ cfg.numClients)
    (h : Reachable (worker cfg st) s) : ChainInv cfg st s := by
  refine h.invariant (fun s hs => .start hN hs) (fun s e t _ ih hstep => ?_)
  cases e with
  | miss =>
    obtain ⟨hpass, rfl⟩ := hstep
    exact ih.miss hdvd hpass.1
  | hit =>
    obtain ⟨hpass, hhit⟩ := hstep
    obtain ⟨t', ht', hinv⟩ := ih.hit hdvd hpass.1
    rw [Option.some.inj (hhit.symm.trans ht')]
    exact hinv
  | finish =>
    obtain ⟨-, posts, hfin⟩ := hstep
    exact ih.finish (finish_eq hfin).2

/-! ## Responses -/

/-- What the posts of a pass must be: one list for each port with new requests,
which visits the requests of its clients in order and ends, each request of
the pass in one list, addressed to its client by a handle of the control block
that sends it. -/
structure Routed (cfg : Config) (st : Setup) (s : State) (wr : Nat → SendWr) (posts : List Post) :
    Prop where
  ports : posts.map Post.cb =
    (List.range cfg.numServerPorts).filter fun i => s.pass.nbNewReq i ≠ 0
  chain : ∀ p ∈ posts, p.chain = ofPort cfg s p.cb ∧ p.requests = p.chain.map wr ∧
    Visits (nexts wr) (s.firstSendWr p.cb) p.chain
  once : (posts.flatMap Post.chain).Perm (List.range s.pass.wrI)
  addressed : ∀ p ∈ posts, ∀ k ∈ p.chain, s.clt k < cfg.numClients ∧
    (wr k).ah = createAh cfg st (s.clt k) ∧ (wr k).remoteQpn = st.qpn (s.clt k) ∧
    (wr k).ah.cb = p.cb

/-- The lists of different ports share no request, so together they have each
request of the pass once. -/
theorem Posted.once {wr : Nat → SendWr} {posts : List Post} (h : ChainInv cfg st s)
    (hP : 0 < cfg.numServerPorts) (hp : Posted cfg s cfg.numServerPorts wr posts) :
    (posts.flatMap Post.chain).Perm (List.range s.pass.wrI) := by
  have hcbs : (posts.map Post.cb).Nodup := by
    rw [hp.ports]
    exact List.nodup_range.filter _
  refine (List.perm_ext_iff_of_nodup ?_ List.nodup_range).mpr fun k => ?_
  · refine List.nodup_flatMap.mpr ⟨fun p hm => ?_, ?_⟩
    · rw [(hp.chain p hm).1]
      exact ofPort_nodup _
    · refine (List.pairwise_map.mp hcbs).imp_of_mem fun {p q} hpm hqm hne k hk hk' => ?_
      rw [(hp.chain p hpm).1] at hk
      rw [(hp.chain q hqm).1] at hk'
      exact hne (ofPort_disjoint hk hk')
  · rw [List.mem_flatMap, List.mem_range]
    constructor
    · rintro ⟨p, hm, hk⟩
      rw [(hp.chain p hm).1] at hk
      exact (mem_ofPort.mp hk).1
    · intro hk
      have hmem : k ∈ ofPort cfg s (s.clt k % cfg.numServerPorts) := mem_ofPort.mpr ⟨hk, rfl⟩
      have hcb : s.clt k % cfg.numServerPorts ∈ posts.map Post.cb := by
        rw [hp.ports, List.mem_filter, List.mem_range, decide_eq_true_iff, h.new]
        exact ⟨Nat.mod_lt _ hP, (List.length_pos_of_mem hmem).ne'⟩
      obtain ⟨p, hm, he⟩ := List.mem_map.mp hcb
      refine ⟨p, hm, ?_⟩
      rw [(hp.chain p hm).1, he]
      exact hmem

theorem ChainInv.routed (h : ChainInv cfg st s) (hP : 0 < cfg.numServerPorts) :
    ∃ t posts, Chains.finish cfg s = some (t, posts) ∧ Routed cfg st s t.wr posts := by
  obtain ⟨wr, posts, hpost, hp⟩ := h.postLists cfg.numServerPorts
  refine ⟨{ s with pass := Worker.finish cfg s.pass, wr := wr }, posts, ?_, hp.ports, hp.chain,
    hp.once h hP, ?_⟩
  · rw [Chains.finish, Chains.postLists, hpost]
    rfl
  · intro p hm k hk
    rw [(hp.chain p hm).1] at hk
    obtain ⟨hk, hcb⟩ := mem_ofPort.mp hk
    obtain ⟨hlt, hah, hqpn⟩ := h.filled k hk
    have hah' : (wr k).ah = createAh cfg st (s.clt k) := (hp.same k).1.trans hah
    refine ⟨hlt, hah', (hp.same k).2.trans hqpn, ?_⟩
    rw [hah']
    exact hcb

/-- In every state of a worker of HERD or `ws-sequencer`, whatever the requests
it has found and whatever its work requests held before: `cb_i` is
`clt_i % num_server_ports` for the client polled next, no pointer that a poll
or the posts follow is `NULL`, and the posts are as they must be. -/
theorem postlists_routed {ports qps postlist : Nat} (hports : ports ∣ numClients)
    (hcfg : cfg = herdRunWorker ports qps postlist ∨ cfg = wsSequencerRunWorker ports postlist)
    (h : Reachable (worker cfg st) s) :
    s.pass.cbI = s.pass.cltI % ports ∧
    (Polling cfg s.pass → ∃ t, hit cfg st s = some t) ∧
    ∃ t posts, finish cfg s = some (t, posts) ∧ Routed cfg st s t.wr posts := by
  have hN : 0 < numClients := by decide
  have hclients : cfg.numClients = numClients := by rcases hcfg with rfl | rfl <;> rfl
  have hservers : cfg.numServerPorts = ports := by rcases hcfg with rfl | rfl <;> rfl
  have hdvd : cfg.numServerPorts ∣ cfg.numClients := by rwa [hclients, hservers]
  have hinv := worker_inv (hclients ▸ hN) hdvd h
  refine ⟨hservers ▸ hinv.cbI_eq, ?_, hinv.routed ?_⟩
  · intro hp
    obtain ⟨t, ht, -⟩ := hinv.hit hdvd hp
    exact ⟨t, ht⟩
  · rw [hservers]
    exact Nat.pos_of_dvd_of_pos hports hN

theorem reach_hit (h : Reachable (worker cfg st) s) (hp : Polling cfg s.pass)
    (hw : ¬Waits cfg s.pass) (ht : hit cfg st s = some t) : Reachable (worker cfg st) t := by
  obtain ⟨wr, -, rfl⟩ := Option.map_eq_some_iff.mp ht
  exact .step (e := .hit) h ⟨⟨hp, fun hwait => absurd hwait hw, rfl⟩, ht⟩

/-- A worker whose work requests all name the first one when it starts. -/
def staleStart : State where
  pass := Pass.start
  wr := fun _ => ⟨some 0, ⟨0, 0, 0⟩, 0, 0, 0, false⟩
  firstSendWr := fun _ => none
  lastSendWr := fun _ => none
  clt := fun _ => 0

/-- Requests of clients 0, 1 and 2, with two ports. -/
theorem three_found : ∃ s, Reachable (worker (herdRunWorker 2 1 3) ⟨0, 0, id, id⟩) s ∧
    s.pass.wrI = 3 ∧ s.pass.nbNewReq 0 = 2 ∧ s.pass.nbNewReq 1 = 1 := by
  have h0 : Reachable (worker (herdRunWorker 2 1 3) ⟨0, 0, id, id⟩) staleStart :=
    .init ⟨rfl, fun _ => rfl, fun _ => rfl⟩
  have h1 := reach_hit h0 (by decide) (fun hw => absurd hw.2 (by decide)) rfl
  have h2 := reach_hit h1 (by decide) (fun hw => absurd hw.2 (by decide)) rfl
  have h3 := reach_hit h2 (by decide) (fun hw => absurd hw.2 (by decide)) rfl
  exact ⟨_, h3, rfl, rfl, rfl⟩

theorem postlists_routed_three : ∃ s t posts, s.pass.wrI = 3 ∧
    finish (herdRunWorker 2 1 3) s = some (t, posts) ∧ posts.map Post.cb = [0, 1] ∧
    (posts.flatMap Post.chain).Perm [0, 1, 2] := by
  obtain ⟨s, hs, hwr, hnew0, hnew1⟩ := three_found
  obtain ⟨-, -, t, posts, hfin, hrouted⟩ := postlists_routed (by decide) (.inl rfl) hs
  refine ⟨s, t, posts, hwr, hfin, ?_, ?_⟩
  · rw [hrouted.ports]
    simp [herdRunWorker, List.range_succ, hnew0, hnew1]
  · have honce := hrouted.once
    rwa [hwr] at honce

end RdmaBench.Postlist.Chains
