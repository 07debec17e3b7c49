import RdmaBench.Lib.Names
import RdmaBench.Lib.Runs
import RdmaBench.Libhrd.Registry

/-! # How HERD's clients connect to the master

The master publishes its queue pairs, and then for one client after the other
waits for the client's record, connects and publishes that its own queue pair is
ready. A client publishes its queue pairs, waits for the master's record,
connects, and waits until the master's queue pair is ready. Both go by names
that each side prints for itself.

A step is one access to the registry or one call of `hrd_connect_qp`. -/

namespace RdmaBench.Herd.Handshake
open RdmaBench.Lib.Asserts RdmaBench.Lib.Names RdmaBench.Lib.Runs RdmaBench.Libhrd.Registry

/-! ## Names -/

def masterName (i j : Nat) : String := "master-" ++ toString i ++ "-" ++ toString j
def clientConnName (i : Nat) : String := "client-conn-" ++ toString i
def clientDgramName (i : Nat) : String := "client-dgram-" ++ toString i

-- The equation lemmas of the names are slow to make, so their characters are said once.

theorem toList_masterName (i j : Nat) : (masterName i j).toList =
    "master-".toList ++ (Nat.toDigits 10 i ++ ("-".toList ++ Nat.toDigits 10 j)) := by
  delta masterName
  simp only [String.toList_append, toList_toString, List.append_assoc]

theorem toList_clientConnName (i : Nat) :
    (clientConnName i).toList = "client-conn-".toList ++ Nat.toDigits 10 i := by
  delta clientConnName
  simp only [String.toList_append, toList_toString]

theorem toList_clientDgramName (i : Nat) :
    (clientDgramName i).toList = "client-dgram-".toList ++ Nat.toDigits 10 i := by
  delta clientDgramName
  simp only [String.toList_append, toList_toString]

theorem masterName_inj {i j i' j' : Nat} (h : masterName i j = masterName i' j') :
    i = i' ∧ j = j' := by
  have hlist := congrArg String.toList h
  rw [toList_masterName, toList_masterName] at hlist
  obtain ⟨hi, hlist⟩ := toDigits_sep_inj rfl (List.append_cancel_left hlist)
  exact ⟨hi, toDigits_inj hlist⟩

theorem clientConnName_inj {i i' : Nat} (h : clientConnName i = clientConnName i') : i = i' := by
  have hlist := congrArg String.toList h
  rw [toList_clientConnName, toList_clientConnName] at hlist
  exact toDigits_inj (List.append_cancel_left hlist)

theorem masterName_ne_clientConnName (i j c : Nat) : masterName i j ≠ clientConnName c := by
  intro h
  have hlist := congrArg String.toList h
  simp [toList_masterName, toList_clientConnName] at hlist

theorem masterName_ne_clientDgramName (i j c : Nat) : masterName i j ≠ clientDgramName c := by
  intro h
  have hlist := congrArg String.toList h
  simp [toList_masterName, toList_clientDgramName] at hlist

theorem clientConnName_ne_clientDgramName (c c' : Nat) :
    clientConnName c ≠ clientDgramName c' := by
  intro h
  have hlist := congrArg String.toList h
  simp [toList_clientConnName, toList_clientDgramName] at hlist

/-! ## The parties -/

def rrSize : Nat := 16 * 1024 * 1024

/-- The numbers of clients and of ports of the server, and the devices. -/
structure Config where
  numClients : Nat
  numServerPorts : Nat
  ports_pos : 1 ≤ numServerPorts
  masterDev : Nat → Device
  clientDev : Nat → Device

variable (cfg : Config)

/-- The master has one control block for each port, with a queue pair for every
client and the buffer of the first one. -/
def Config.masterCb (i : Nat) : CtrlBlk :=
  hrdCtrlBlkInit (cfg.masterDev i) cfg.numClients
    (if i = 0 then none else some (cfg.masterDev 0).bufAddr) rrSize 0

def Config.clientCb (c : Nat) : CtrlBlk := hrdCtrlBlkInit (cfg.clientDev c) 1 none 4096 1

/-- Where the master stands. -/
inductive MasterPc where
  | publishing (i j : Nat)
  | seeking (i : Nat)
  | connecting (i : Nat) (cltQp : QpAttr)
  | announcing (i : Nat)
  | sleeping
deriving DecidableEq, Repr

/-- Where a client stands. It is `working` once `hrd_wait_till_ready` has
returned. -/
inductive ClientPc where
  | publishingConn
  | publishingDgram
  | seeking
  | connecting (mstrQp : QpAttr)
  | waiting
  | working
deriving DecidableEq, Repr

/-- The registry, the parties, and what their queue pairs are connected to.
`masterConn (i, j)` is for queue pair `j` of control block `i`. -/
structure State where
  registry : Memc QpAttr
  master : MasterPc
  masterConn : Nat × Nat → Option Dest
  client : Nat → ClientPc
  clientConn : Nat → Option Dest

def State.start : State :=
  ⟨fun _ => none, .publishing 0 0, fun _ => none, fun _ => .publishingConn, fun _ => none⟩

/-- The next step of `run_master`. -/
def State.masterStep (s : State) : Except Stop State :=
  match s.master with
  | .publishing i j =>
    if i < cfg.numServerPorts then
      if j < cfg.numClients then do
        let registry ← hrdPublishConnQp (cfg.masterCb i) j (masterName i j) s.registry
        return { s with registry, master := .publishing i (j + 1) }
      else return { s with master := .publishing (i + 1) 0 }
    else return { s with master := .seeking 0 }
  | .seeking i =>
    if i < cfg.numClients then do
      match ← hrdGetPublishedQp (clientConnName i) s.registry with
      | none => return s
      | some cltQp => return { s with master := .connecting i cltQp }
    else return { s with master := .sleeping }
  | .connecting i cltQp => do
    let cbI := i % cfg.numServerPorts
    let dest ← hrdConnectQp (cfg.masterCb cbI) i cltQp
    return { s with
      masterConn := Function.update s.masterConn (cbI, i) (some dest)
      master := .announcing i }
  | .announcing i => do
    let registry ← hrdPublishReady (masterName (i % cfg.numServerPorts) i) s.registry
    return { s with registry, master := .seeking (i + 1) }
  | .sleeping => return s

/-- The next step of `run_client` at client `c`. -/
def State.clientStep (s : State) (c : Nat) : Except Stop State :=
  let goto pc := Function.update s.client c pc
  match s.client c with
  | .publishingConn => do
    let registry ← hrdPublishConnQp (cfg.clientCb c) 0 (clientConnName c) s.registry
    return { s with registry, client := goto .publishingDgram }
  | .publishingDgram => do
    let registry ← hrdPublishDgramQp (cfg.clientCb c) 0 (clientDgramName c) s.registry
    return { s with registry, client := goto .seeking }
  | .seeking => do
    match ← hrdGetPublishedQp (masterName (c % cfg.numServerPorts) c) s.registry with
    | none => return s
    | some mstrQp => return { s with client := goto (.connecting mstrQp) }
  | .connecting mstrQp => do
    let dest ← hrdConnectQp (cfg.clientCb c) 0 mstrQp
    return { s with
      clientConn := Function.update s.clientConn c (some dest)
      client := goto .waiting }
  | .waiting =>
    if isReady (masterName (c % cfg.numServerPorts) c) s.registry then
      return { s with client := goto .working }
    else return s
  | .working => return s

inductive Event where
  | master
  | client (c : Nat)
deriving DecidableEq, Repr

/-- Runs of the master and the clients from an empty registry. -/
def handshake : System State Event where
  init s := s = State.start
  step s e t := match e with
    | .master => s.masterStep cfg = .ok t
    | .client c => c < cfg.numClients ∧ s.clientStep cfg c = .ok t

/-! ## The invariant -/

def masterAttr (i j : Nat) : QpAttr := connAttr (cfg.masterCb i) j (masterName i j)
def clientAttr (c : Nat) : QpAttr := connAttr (cfg.clientCb c) 0 (clientConnName c)

/-- The entries that are made. There is one for a ready queue pair of the master
only after it was connected to its client. -/
inductive Entry (masterConn : Nat × Nat → Option Dest) : String → Value QpAttr → Prop
  | master (i j : Nat) : Entry masterConn (masterName i j) (.qp (masterAttr cfg i j))
  | conn (c : Nat) : Entry masterConn (clientConnName c) (.qp (clientAttr cfg c))
  | dgram (c : Nat) : Entry masterConn (clientDgramName c)
      (.qp (dgramAttr (cfg.clientCb c) 0 (clientDgramName c)))
  | ready (i j : Nat) (h : masterConn (i, j) = some (clientAttr cfg j).dest) :
      Entry masterConn (readyKey (masterName i j)) .ready

/-- Every entry of the registry is one of them. -/
def Entries (s : State) : Prop :=
  ∀ key value, s.registry key = some value → Entry cfg s.masterConn key value

/-- The master's queue pair for client `c` is connected to the client. -/
def MasterConnected (masterConn : Nat × Nat → Option Dest) (c : Nat) : Prop :=
  masterConn (c % cfg.numServerPorts, c) = some (clientAttr cfg c).dest

/-- What the master knows where it stands. -/
def MasterOk (masterConn : Nat × Nat → Option Dest) : MasterPc → Prop
  | .connecting i cltQp => cltQp = clientAttr cfg i
  | .announcing i => MasterConnected cfg masterConn i
  | _ => True

/-- What a client knows where it stands. -/
def ClientOk (masterConn : Nat × Nat → Option Dest) (dest : Option Dest) (c : Nat) :
    ClientPc → Prop
  | .connecting mstrQp => mstrQp = masterAttr cfg (c % cfg.numServerPorts) c
  | .waiting => dest = some (masterAttr cfg (c % cfg.numServerPorts) c).dest
  | .working => dest = some (masterAttr cfg (c % cfg.numServerPorts) c).dest ∧
      MasterConnected cfg masterConn c
  | _ => True

structure Inv (s : State) : Prop where
  entries : Entries cfg s
  master : MasterOk cfg s.masterConn s.master
  client : ∀ c, ClientOk cfg s.masterConn (s.clientConn c) c (s.client c)

variable {cfg} {s t : State}

/-! ## What is found under a name -/

/-- A ready key is none of the names. -/
theorem readyKey_ne_names (a : String) :
    (∀ i j, readyKey a ≠ masterName i j) ∧ (∀ c, readyKey a ≠ clientConnName c) ∧
      ∀ c, readyKey a ≠ clientDgramName c := by
  refine ⟨fun i j h => ?_, fun c h => ?_, fun c h => ?_⟩ <;>
  · have hlist := congrArg String.toList h
    simp [readyKey, hrdReservedNamePrefix, toList_masterName, toList_clientConnName,
      toList_clientDgramName] at hlist

theorem Entry.of_clientConnName {conn : Nat × Nat → Option Dest} {c : Nat} {value : Value QpAttr}
    (h : Entry cfg conn (clientConnName c) value) : value = .qp (clientAttr cfg c) := by
  generalize hkey : clientConnName c = key at h
  cases h with
  | master i j => exact absurd hkey.symm (masterName_ne_clientConnName i j c)
  | conn c' => rw [clientConnName_inj hkey]
  | dgram c' => exact absurd hkey (clientConnName_ne_clientDgramName c c')
  | ready i j => exact absurd hkey.symm ((readyKey_ne_names _).2.1 c)

theorem Entry.of_masterName {conn : Nat × Nat → Option Dest} {i j : Nat} {value : Value QpAttr}
    (h : Entry cfg conn (masterName i j) value) : value = .qp (masterAttr cfg i j) := by
  generalize hkey : masterName i j = key at h
  cases h with
  | master i' j' =>
    obtain ⟨rfl, rfl⟩ := masterName_inj hkey
    rfl
  | conn c => exact absurd hkey (masterName_ne_clientConnName i j c)
  | dgram c => exact absurd hkey (masterName_ne_clientDgramName i j c)
  | ready i' j' => exact absurd hkey.symm ((readyKey_ne_names _).1 i j)

theorem Entry.of_readyKey {conn : Nat × Nat → Option Dest} {i j : Nat} {value : Value QpAttr}
    (h : Entry cfg conn (readyKey (masterName i j)) value) :
    conn (i, j) = some (clientAttr cfg j).dest := by
  generalize hkey : readyKey (masterName i j) = key at h
  cases h with
  | master i' j' => exact absurd hkey ((readyKey_ne_names _).1 i' j')
  | conn c => exact absurd hkey ((readyKey_ne_names _).2.1 c)
  | dgram c => exact absurd hkey ((readyKey_ne_names _).2.2 c)
  | ready i' j' hconn =>
    obtain ⟨rfl, rfl⟩ := masterName_inj (readyKey_inj hkey)
    exact hconn

/-! ## Steps keep the invariant -/

/-- Publishing one of the entries. -/
theorem Entries.publish (h : Entries cfg s) {key : String} {value : Value QpAttr}
    (hnew : Entry cfg s.masterConn key value) :
    ∀ k v, hrdPublish key value s.registry k = some v → Entry cfg s.masterConn k v := by
  intro k v hk
  by_cases heq : k = key
  · subst heq
    rw [publish_self] at hk
    cases hk
    exact hnew
  · rw [hrdPublish, Function.update_of_ne heq] at hk
    exact h k v hk

/-- The master's connections are only ever to the right clients, so what is
known of them stays true when one is added. -/
theorem masterConn_mono {conn : Nat × Nat → Option Dest} {i : Nat} (cb : Nat) {x y : Nat}
    (h : conn (x, y) = some (clientAttr cfg y).dest) :
    Function.update conn (cb, i) (some (clientAttr cfg i).dest) (x, y) =
      some (clientAttr cfg y).dest := by
  by_cases heq : (x, y) = (cb, i)
  · obtain ⟨rfl, rfl⟩ := Prod.mk.inj heq
    exact Function.update_self ..
  · rw [Function.update_of_ne heq]
    exact h

theorem Entry.mono {conn : Nat × Nat → Option Dest} {i : Nat} (cb : Nat) {key : String}
    {value : Value QpAttr} (h : Entry cfg conn key value) :
    Entry cfg (Function.update conn (cb, i) (some (clientAttr cfg i).dest)) key value := by
  cases h with
  | master i j => exact .master i j
  | conn c => exact .conn c
  | dgram c => exact .dgram c
  | ready i j hconn => exact .ready i j (masterConn_mono cb hconn)

theorem ClientOk.mono {conn : Nat × Nat → Option Dest} {dest : Option Dest} {c i : Nat}
    (cb : Nat) {pc : ClientPc} (h : ClientOk cfg conn dest c pc) :
    ClientOk cfg (Function.update conn (cb, i) (some (clientAttr cfg i).dest)) dest c pc := by
  cases pc with
  | working => exact ⟨h.1, masterConn_mono cb h.2⟩
  | connecting _ => exact h
  | waiting => exact h
  | _ => trivial

theorem Inv.masterStep (h : Inv cfg s) (hs : s.masterStep cfg = .ok t) : Inv cfg t := by
  have hmaster := h.master
  unfold State.masterStep at hs
  split at hs
  case h_1 i j hpc =>
    split at hs
    · split at hs
      · obtain ⟨r, hr, hs⟩ := bind_ok hs
        obtain ⟨-, rfl⟩ := publishQp_ok hr
        cases hs
        exact ⟨h.entries.publish (.master i j), trivial, h.client⟩
      · cases hs
        exact ⟨h.entries, trivial, h.client⟩
    · cases hs
      exact ⟨h.entries, trivial, h.client⟩
  case h_2 i hpc =>
    split at hs
    · obtain ⟨found, hfound, hs⟩ := bind_ok hs
      cases found with
      | none =>
        cases hs
        exact h
      | some cltQp =>
        cases hs
        have hentry := h.entries _ _ (getPublishedQp_some hfound)
        exact ⟨h.entries, Value.qp.inj hentry.of_clientConnName, h.client⟩
    · cases hs
      exact ⟨h.entries, trivial, h.client⟩
  case h_3 i cltQp hpc =>
    rw [hpc] at hmaster
    obtain ⟨dest, hdest, hs⟩ := bind_ok hs
    -- the record is the one of client i
    obtain rfl : dest = (clientAttr cfg i).dest := by
      rw [connectQp_ok hdest, show cltQp = clientAttr cfg i from hmaster]
    cases hs
    refine ⟨fun key value hkey => (h.entries key value hkey).mono _, ?_, fun c => ?_⟩
    · exact Function.update_self ..
    · exact (h.client c).mono _
  case h_4 i hpc =>
    rw [hpc] at hmaster
    obtain ⟨r, hr, hs⟩ := bind_ok hs
    obtain rfl := publishReady_ok hr
    cases hs
    exact ⟨h.entries.publish (.ready _ i hmaster), trivial, h.client⟩
  case h_5 hpc =>
    cases hs
    exact h

/-- A client moves: the others are where they were. -/
theorem client_goto (h : ∀ c, ClientOk cfg s.masterConn (s.clientConn c) c (s.client c)) {c : Nat}
    {pc : ClientPc} (hpc : ClientOk cfg s.masterConn (s.clientConn c) c pc) (c' : Nat) :
    ClientOk cfg s.masterConn (s.clientConn c') c' (Function.update s.client c pc c') := by
  by_cases heq : c' = c
  · subst heq
    rw [Function.update_self]
    exact hpc
  · rw [Function.update_of_ne heq]
    exact h c'

theorem Inv.clientStep (h : Inv cfg s) {c : Nat} (hs : s.clientStep cfg c = .ok t) :
    Inv cfg t := by
  have hclient := h.client c
  unfold State.clientStep at hs
  split at hs
  case h_1 hpc =>
    obtain ⟨r, hr, hs⟩ := bind_ok hs
    obtain ⟨-, rfl⟩ := publishQp_ok hr
    cases hs
    exact ⟨h.entries.publish (.conn c), h.master, client_goto h.client trivial⟩
  case h_2 hpc =>
    obtain ⟨r, hr, hs⟩ := bind_ok hs
    obtain ⟨-, rfl⟩ := publishQp_ok hr
    cases hs
    exact ⟨h.entries.publish (.dgram c), h.master, client_goto h.client trivial⟩
  case h_3 hpc =>
    obtain ⟨found, hfound, hs⟩ := bind_ok hs
    cases found with
    | none =>
      cases hs
      exact h
    | some mstrQp =>
      cases hs
      have hentry := h.entries _ _ (getPublishedQp_some hfound)
      exact ⟨h.entries, h.master, client_goto h.client (Value.qp.inj hentry.of_masterName)⟩
  case h_4 mstrQp hpc =>
    rw [hpc] at hclient
    obtain ⟨dest, hdest, hs⟩ := bind_ok hs
    cases hs
    refine ⟨h.entries, h.master, fun c' => ?_⟩
    by_cases heq : c' = c
    · subst heq
      simp only [Function.update_self]
      rw [connectQp_ok hdest, show mstrQp = _ from hclient]
      rfl
    · simp only [Function.update_of_ne heq]
      exact h.client c'
  case h_5 hpc =>
    rw [hpc] at hclient
    split at hs
    case isTrue hready =>
      cases hs
      -- the entry for the ready queue pair was made after it was connected
      obtain ⟨value, hvalue⟩ := isReady_some hready
      have hconn := (h.entries _ _ hvalue).of_readyKey
      exact ⟨h.entries, h.master, client_goto h.client ⟨hclient, hconn⟩⟩
    case isFalse =>
      cases hs
      exact h
  case h_6 hpc =>
    cases hs
    exact h

theorem handshake_inv (h : Reachable (handshake cfg) s) : Inv cfg s := by
  refine Reachable.invariant ?_ ?_ h
  · rintro s rfl
    refine ⟨?_, trivial, fun _ => trivial⟩
    intro key value hkey
    cases hkey
  · intro s e t _ hinv hstep
    cases e with
    | master => exact hinv.masterStep hstep
    | client c => exact hinv.clientStep hstep.2

/-! ## Both ends agree -/

/-- Publishing that a queue pair is ready changes no lookup of a queue pair,
different queue pairs have different ready keys, and when a client has waited
until the master's queue pair is ready, the two are connected to each other. -/
theorem handshake_agrees (h : Reachable (handshake cfg) s) :
    (∀ (r r' : Memc QpAttr) qpName, hrdPublishReady qpName r = .ok r' →
      ∀ other, hrdGetPublishedQp other r' = hrdGetPublishedQp other r) ∧
    (∀ a b, readyKey a = readyKey b → a = b) ∧
    ∀ c, s.client c = .working →
      s.clientConn c = some
        ⟨(cfg.masterCb (c % cfg.numServerPorts)).connQpn c,
          (cfg.masterCb (c % cfg.numServerPorts)).lid⟩ ∧
      s.masterConn (c % cfg.numServerPorts, c) =
        some ⟨(cfg.clientCb c).connQpn 0, (cfg.clientCb c).lid⟩ := by
  refine ⟨fun r r' qpName hready => publishReady_get hready, fun a b => readyKey_inj, ?_⟩
  intro c hworking
  have hclient := (handshake_inv h).client c
  rw [hworking] at hclient
  exact hclient

/-- The step of a party, if it has one. -/
def State.attempt (cfg : Config) (s : State) : Event → Option State
  | .master => (s.masterStep cfg).toOption
  | .client c => if c < cfg.numClients then (s.clientStep cfg c).toOption else none

theorem step_of_attempt (s : State) (e : Event) (t : State) (h : s.attempt cfg e = some t) :
    (handshake cfg).step s e t := by
  cases e with
  | master => exact ok_of_toOption h
  | client c =>
    simp only [State.attempt] at h
    split at h
    case isTrue hc => exact ⟨hc, ok_of_toOption h⟩
    case isFalse => cases h

theorem init_of_start (s : State) (h : some State.start = some s) : (handshake cfg).init s :=
  (Option.some.inj h).symm

def oneClient : Config where
  numClients := 1
  numServerPorts := 1
  ports_pos := Nat.le_refl 1
  masterDev _ := ⟨4096, 7, 1, fun j => 100 + j, fun j => 200 + j⟩
  clientDev _ := ⟨8192, 8, 2, fun j => 300 + j, fun j => 400 + j⟩

/-- The client finds the master's record before the master finds the client's. -/
def oneClientRun : List Event :=
  [.master, .client 0, .client 0, .client 0, .client 0, .client 0, .master, .master, .master,
    .master, .master, .client 0]

theorem handshake_agrees_one :
    ∃ s : State, Reachable (handshake oneClient) s ∧ s.client 0 = .working ∧
      s.clientConn 0 = some ⟨100, 1⟩ ∧ s.masterConn (0, 0) = some ⟨300, 2⟩ := by
  obtain ⟨s, hs, hworking⟩ := exists_reachable (S := handshake oneClient) step_of_attempt
    init_of_start oneClientRun (fun s => s.client 0 == .working) (by decide)
  rw [beq_iff_eq] at hworking
  exact ⟨s, hs, hworking, (handshake_agrees hs).2.2 0 hworking⟩

end RdmaBench.Herd.Handshake
