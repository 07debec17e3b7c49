import RdmaBench.Lib.Names
import RdmaBench.LibhrdCpp.Conn
import RdmaBench.Scalability.Server

/-! # Queue pairs of `sender-scalability`

Server threads and clients publish their queue pairs under names in a registry,
look up those of the other side and connect. With XRC, a server thread has one
queue pair for each client machine, and the first client of a machine connects
to it. -/

namespace RdmaBench.Scalability.Connect
open RdmaBench.Lib.Asserts RdmaBench.Lib.Names RdmaBench.Lib.Runs RdmaBench.LibhrdCpp.Conn
open RdmaBench.Libhrd.Registry (Memc Stop checkName hrdGetPublishedQp getPublishedQp_publish
  getPublishedQp_publish_of_ne publishQp_ok)
open RdmaBench.Scalability.Server (Sweep qpCn)

/-! ## Names -/

/-- Two numbers in a name, as `%zu-%zu` prints them. -/
def idPair (a b : Nat) : String := toString a ++ "-" ++ toString b

def srvQpName (srv clt : Nat) : String := "server-" ++ idPair srv clt
def cltQpName (clt srv : Nat) : String := "client-" ++ idPair clt srv

/-- The dash separates the numbers, so both can be read back. -/
theorem idPair_inj {a b a' b' : Nat} (h : idPair a b = idPair a' b') : a = a' ∧ b = b' := by
  have hlist : Nat.toDigits 10 a ++ '-' :: Nat.toDigits 10 b =
      Nat.toDigits 10 a' ++ '-' :: Nat.toDigits 10 b' := by
    simpa [idPair, toList_toString] using congrArg String.toList h
  obtain ⟨ha, hb⟩ := toDigits_sep_inj (by decide) hlist
  exact ⟨ha, toDigits_inj hb⟩

theorem srvQpName_inj {a b a' b' : Nat} (h : srvQpName a b = srvQpName a' b') :
    a = a' ∧ b = b' :=
  idPair_inj (String.append_right_inj _ |>.1 h)

theorem srvQpName_ne_cltQpName (a b a' b' : Nat) : srvQpName a b ≠ cltQpName a' b' := fun h => by
  have hlist := congrArg String.toList h
  simp [srvQpName, cltQpName] at hlist

/-! ## The threads -/

def kAppBufSize : Nat := 2 * 1024 * 1024

/-- The server threads, what the devices give out, and what is in `rnum_threads`
of the servers' configurations, which `run_server` does not set. -/
structure Cluster where
  numServers : Nat
  serverDev : Nat → Device
  clientDev : Nat → Device
  unsetRnumThreads : Nat → Nat

variable (w : Sweep) (c : Cluster)

def cltNumThreads : Nat := w.numClients / w.numClientMachines
def numQps : Nat := if w.useXrc then w.numClientMachines else w.numClients

/-- The control block of a server thread. -/
def serverCb (srv : Nat) : CtrlBlk where
  connConfig :=
    { numQps := numQps w, useXrc := w.useXrc, isClient := false, fstClientT := false
      bufSize := kAppBufSize, rnumThreads := c.unsetRnumThreads srv }
  dev := c.serverDev srv

/-- The client is the first one of its machine. -/
def fstClientT (clt : Nat) : Bool := clt % cltNumThreads w == 0

/-- The control block of a client. -/
def clientCb (clt : Nat) : CtrlBlk where
  connConfig :=
    { numQps := if !w.useXrc || fstClientT w clt then c.numServers else 0
      useXrc := w.useXrc, isClient := true, fstClientT := fstClientT w clt
      bufSize := kAppBufSize, rnumThreads := c.numServers }
  dev := c.clientDev clt

/-- The client that queue pair `i` of a server thread is published for. -/
def cltId (i : Nat) : Nat := if w.useXrc then i * cltNumThreads w else i

/-! ## Publishing -/

/-- The registry, and how far the threads are with publishing. -/
structure State where
  registry : Memc QpAttr
  srvI : Nat → Nat
  cltI : Nat → Nat

def State.start : State := ⟨fun _ => none, fun _ => 0, fun _ => 0⟩

/-- A server thread publishes its next queue pair. -/
def State.publishServer (s : State) (srv : Nat) : Except Stop State := do
  let i := s.srvI srv
  let registry ← hrdPublishConnQp (serverCb w c srv) i (srvQpName srv (cltId w i)) s.registry
  return { s with registry, srvI := Function.update s.srvI srv (i + 1) }

/-- A client publishes its queue pair for the next server thread. -/
def State.publishClient (s : State) (clt : Nat) : Except Stop State := do
  let i := s.cltI clt
  let registry ← hrdPublishConnQp (clientCb w c clt) i (cltQpName clt i) s.registry
  return { s with registry, cltI := Function.update s.cltI clt (i + 1) }

inductive Event where
  | server (srv : Nat)
  | client (clt : Nat)

/-- Server threads publish `num_qps` queue pairs, and clients one for each server
thread. -/
def publishing : System State Event where
  init s := s = State.start
  step s e t := match e with
    | .server srv => srv < c.numServers ∧ s.srvI srv < numQps w ∧
        s.publishServer w c srv = .ok t
    | .client clt => clt < w.numClients ∧ s.cltI clt < c.numServers ∧
        s.publishClient w c clt = .ok t

/-- Whatever a server thread has published is found under its name. -/
def RegistryOk (s : State) : Prop :=
  ∀ srv i, i < s.srvI srv →
    hrdGetPublishedQp (srvQpName srv (cltId w i)) s.registry =
      .ok (some (connAttr (serverCb w c srv) i (srvQpName srv (cltId w i))))

variable {w} {c} {s t : State}

theorem cltId_inj (hT : 0 < cltNumThreads w) {i j : Nat} (h : cltId w i = cltId w j) : i = j := by
  unfold cltId at h
  split at h
  · exact Nat.eq_of_mul_eq_mul_right hT h
  · exact h

/-- Below a counter that went up by one, all but the last number were there before. -/
theorem older_of_ne {counts : Nat → Nat} {a b i : Nat}
    (hi : i < Function.update counts a (counts a + 1) b) (hne : b = a → i ≠ counts a) :
    i < counts b := by
  by_cases hb : b = a
  · subst hb
    rw [Function.update_self] at hi
    exact Nat.lt_of_le_of_ne (Nat.le_of_lt_succ hi) (hne rfl)
  · rwa [Function.update_of_ne hb] at hi

theorem RegistryOk.publishServer (h : RegistryOk w c s) (hT : 0 < cltNumThreads w) {srv : Nat}
    (hs : s.publishServer w c srv = .ok t) : RegistryOk w c t := by
  obtain ⟨registry, hr, hs⟩ := bind_ok hs
  obtain ⟨hname, rfl⟩ := publishQp_ok hr
  cases hs
  intro srv' i hi
  by_cases heq : srvQpName srv' (cltId w i) = srvQpName srv (cltId w (s.srvI srv))
  · obtain ⟨rfl, hid⟩ := srvQpName_inj heq
    rw [cltId_inj hT hid]
    exact getPublishedQp_publish hname _ _
  · -- An older one of this thread, or one of another thread.
    have hold := older_of_ne hi fun hsrv hlast => heq (by rw [hsrv, hlast])
    exact (getPublishedQp_publish_of_ne heq _ _).trans (h srv' i hold)

theorem RegistryOk.publishClient (h : RegistryOk w c s) {clt : Nat}
    (hs : s.publishClient w c clt = .ok t) : RegistryOk w c t := by
  obtain ⟨registry, hr, hs⟩ := bind_ok hs
  obtain ⟨-, rfl⟩ := publishQp_ok hr
  cases hs
  intro srv i hi
  have hne := srvQpName_ne_cltQpName srv (cltId w i) clt (s.cltI clt)
  exact (getPublishedQp_publish_of_ne hne _ _).trans (h srv i hi)

theorem publishing_ok (hT : 0 < cltNumThreads w) (h : Reachable (publishing w c) s) :
    RegistryOk w c s := by
  refine h.invariant (P := RegistryOk w c) (fun s hs => ?_) fun s e t _ ih hstep => ?_
  · rw [show s = _ from hs]
    exact fun _ _ hi => absurd hi (Nat.not_lt_zero _)
  · cases e with
    | server srv => exact ih.publishServer hT hstep.2.2
    | client clt => exact ih.publishClient hstep.2.2

/-! ## Connections -/

variable (w) in
/-- The index that `run_server` passes to `hrd_connect_qp` for client `i`, if it
connects to it. -/
def connectIndex (i : Nat) : Option Nat :=
  if w.useXrc = false ∨ i % cltNumThreads w = 0 then some i else none

variable (w c) in
/-- For the first client of machine `m`, `run_server` connects a queue pair of
its own. It is the one published under the name that the client looks up, and
the one used for the clients of this machine. -/
def Paired (s : State) (srv m : Nat) : Prop :=
  ∃ n, connectIndex w (m * cltNumThreads w) = some n ∧
    (∀ cltQp, hrdConnectQp (serverCb w c srv) n cltQp = .ok cltQp.dest) ∧
    (∀ i, hrdGetPublishedQp (srvQpName srv (m * cltNumThreads w)) s.registry =
      .ok (some (connAttr (serverCb w c srv) i (srvQpName srv (m * cltNumThreads w)))) ↔ i = n) ∧
    ∀ cn < w.numClients, cn / cltNumThreads w = m → qpCn w cn = n

theorem connectIndex_first (m : Nat) :
    connectIndex w (m * cltNumThreads w) = some (m * cltNumThreads w) :=
  if_pos (.inr (Nat.mul_mod_left m _))

section Xrc
variable (hx : w.useXrc = true) (hdvd : w.numClientMachines ∣ w.numClients)
  (hT : 0 < cltNumThreads w)
include hx hdvd hT

omit hdvd in
theorem qpCn_first (m : Nat) : qpCn w (m * cltNumThreads w) = m := by
  rw [qpCn, if_pos hx]
  exact Nat.mul_div_cancel m hT

/-- A machine is paired if the index of its first client is its own number. -/
theorem paired_iff (h : RegistryOk w c s) {srv m : Nat} (hall : s.srvI srv = numQps w)
    (hm : m < w.numClientMachines) : Paired w c s srv m ↔ m = 0 ∨ cltNumThreads w = 1 := by
  have hnum : w.numClients = w.numClientMachines * cltNumThreads w :=
    (Nat.mul_div_cancel' hdvd).symm
  have hqps : numQps w = w.numClientMachines := if_pos hx
  have hself : m * cltNumThreads w = m ↔ m = 0 ∨ cltNumThreads w = 1 := by
    rw [mul_right_eq_self₀]
    exact or_comm
  rw [← hself]
  constructor
  · intro hpaired
    obtain ⟨n, hindex, -, -, hposts⟩ := hpaired
    rw [connectIndex_first] at hindex
    have hlt : m * cltNumThreads w < w.numClients := hnum ▸ Nat.mul_lt_mul_of_pos_right hm hT
    rw [Option.some.inj hindex, ← hposts _ hlt (Nat.mul_div_cancel m hT), qpCn_first hx hT]
  · intro heq
    have hlt : m < (serverCb w c srv).connConfig.numQps := Nat.lt_of_lt_of_eq hm hqps.symm
    refine ⟨m, ?_, connectQp_of_lt hlt, fun i => ?_, fun cn _ hmach => ?_⟩
    · rw [connectIndex_first, heq]
    · have hfound := h srv m (Nat.lt_of_lt_of_eq hlt hall.symm)
      rw [cltId, if_pos hx] at hfound
      rw [hfound]
      constructor
      · intro hsame
        exact (connAttr_inj rfl (Option.some.inj (Except.ok.inj hsame))).symm
      · rintro rfl
        rfl
    · rw [qpCn, if_pos hx]
      exact hmach

end Xrc

/-- With XRC, the queue pairs of a server thread are paired for all client
machines exactly if there is one machine, or one client thread on each. -/
theorem xrc_paired_iff (hx : w.useXrc = true) (hM : 1 ≤ w.numClientMachines)
    (hdvd : w.numClientMachines ∣ w.numClients) (hT : 1 ≤ cltNumThreads w)
    (h : Reachable (publishing w c) s) {srv : Nat} (hall : s.srvI srv = numQps w) :
    (∀ m < w.numClientMachines, Paired w c s srv m) ↔
      w.numClientMachines = 1 ∨ cltNumThreads w = 1 := by
  have hok := publishing_ok hT h
  constructor
  · intro hpaired
    rcases Nat.lt_or_ge 1 w.numClientMachines with hmany | hone
    · exact .inr (((paired_iff hx hdvd hT hok hall hmany).1 (hpaired 1 hmany)).resolve_left
        Nat.one_ne_zero)
    · exact .inl (Nat.le_antisymm hone hM)
  · intro hcase m hm
    refine (paired_iff hx hdvd hT hok hall hm).2 ?_
    obtain hone | hone := hcase
    · exact .inl (by omega)
    · exact .inr hone

theorem exists_publishServer {srv : Nat} (hlt : s.srvI srv < numQps w)
    (hname : checkName (srvQpName srv (cltId w (s.srvI srv))) = .ok ()) :
    ∃ t, s.publishServer w c srv = .ok t ∧ t.srvI srv = s.srvI srv + 1 := by
  have hlt' : s.srvI srv < (serverCb w c srv).connConfig.numQps := hlt
  rw [State.publishServer, publishConnQp_of_lt hlt' hname]
  exact ⟨_, rfl, Function.update_self ..⟩

/-- A server thread publishes all its queue pairs, if their names pass the
checks. -/
theorem reach_published {srv : Nat} (hsrv : srv < c.numServers) {n : Nat} (hn : n ≤ numQps w)
    (hname : ∀ i < n, checkName (srvQpName srv (cltId w i)) = .ok ()) :
    ∃ s, Reachable (publishing w c) s ∧ s.srvI srv = n := by
  induction n with
  | zero => exact ⟨_, .init rfl, rfl⟩
  | succ n ih =>
    obtain ⟨s, hs, hi⟩ := ih (Nat.le_of_succ_le hn) fun i h => hname i (Nat.lt_succ_of_lt h)
    obtain ⟨t, ht, hnext⟩ := exists_publishServer (hi ▸ hn) (hi ▸ hname n n.lt_succ_self)
    exact ⟨t, hs.step (e := .server srv) ⟨hsrv, hi ▸ hn, ht⟩, hnext.trans (congrArg (· + 1) hi)⟩

/-- The four server threads of the source, with devices that number their queue
pairs from 100 and 300 on. -/
def fourServers : Cluster where
  numServers := 4
  serverDev srv := ⟨1, ⟨0, srv⟩, 4096, 7, (100 + ·), fun _ _ => Nat.add_left_cancel, (200 + ·)⟩
  clientDev clt := ⟨2, ⟨1, clt⟩, 8192, 8, (300 + ·), fun _ _ => Nat.add_left_cancel, (400 + ·)⟩
  unsetRnumThreads _ := 0

theorem xrc_paired_source :
    ∃ s : State, ∀ m < 1, Paired (Sweep.source 64 true) fourServers s 0 m := by
  obtain ⟨s, hs, hall⟩ := reach_published (w := Sweep.source 64 true) (c := fourServers)
    (show 0 < 4 by decide) (Nat.le_refl _) (by decide)
  exact ⟨s, (xrc_paired_iff rfl (by decide) (by decide) (by decide) hs hall).2 (.inl rfl)⟩

/-- The 200 clients of the source on two machines. -/
def twoMachines : Sweep := { Sweep.source 64 true with numClientMachines := 2 }

/-- For the first client of the second machine, `run_server` passes index 100 of
two queue pairs, and the assert fails. -/
theorem twoMachines_not_paired : connectIndex twoMachines 100 = some 100 ∧
    (∀ c srv cltQp, hrdConnectQp (serverCb twoMachines c srv) 100 cltQp = .error .qpIndex) ∧
    qpCn twoMachines 100 = 1 ∧
    ∀ c s srv, ¬Paired twoMachines c s srv 1 := by
  refine ⟨rfl, fun _ _ _ => rfl, rfl, fun c s srv hpaired => ?_⟩
  obtain ⟨n, hindex, -, -, hposts⟩ := hpaired
  have hn : n = 100 := (Option.some.inj hindex).symm
  have hone : qpCn twoMachines 100 = n := hposts 100 (by decide) (by decide)
  rw [hn] at hone
  exact absurd hone (by decide)

end RdmaBench.Scalability.Connect
