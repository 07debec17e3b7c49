import RdmaBench.Lib.Asserts
import RdmaBench.Lib.Names
import RdmaBench.Swarm.Model

/-! # Names of queue pairs in `rc-swarm`

Every worker thread publishes `num_processes * vms_per_process` queue pairs
under names of its own making, and looks up the one each of them is to be
connected to by another name. The names make pairs: queue pair `k` of process
`P` and queue pair `(k / N) * N + P` of process `k % N`, at the same thread. -/

namespace RdmaBench.Swarm.Names
open RdmaBench.Lib.Asserts RdmaBench.Lib.Names
open RdmaBench.Swarm.Model (Flags isRemoteQpOnSameProcess)

/-! ## The names -/

/-- A queue pair of the swarm: `FLAGS_process_id`, `wrkr_lid` and `qp_i`. -/
@[ext]
structure Qp where
  process : Nat
  thread : Nat
  index : Nat
deriving DecidableEq, Repr

/-- The format `on_proc_%zu-at_thr_%zu-for_proc_%zu-for_vm_%zu`. -/
def qpName (onProc atThr forProc forVm : Nat) : String :=
  "on_proc_" ++ toString onProc ++ "-at_thr_" ++ toString atThr ++
    "-for_proc_" ++ toString forProc ++ "-for_vm_" ++ toString forVm

inductive Assert where
  | qpIndex
deriving DecidableEq, Repr

variable (f : Flags)

/-- The process that a queue pair is for. -/
def forProcess (q : Qp) : Nat := q.index % f.numProcesses

def forVm (q : Qp) : Nat := q.index / f.numProcesses

def getQpNameLocal (q : Qp) : Except Assert String := do
  check (q.index < f.qpsPerThread) .qpIndex
  return qpName q.process q.thread (forProcess f q) (forVm f q)

def getQpNameRemote (q : Qp) : Except Assert String := do
  check (q.index < f.qpsPerThread) .qpIndex
  return qpName (forProcess f q) q.thread q.process (forVm f q)

theorem toList_qpName (a b c d : Nat) : (qpName a b c d).toList =
    "on_proc_".toList ++ (Nat.toDigits 10 a ++ ("-at_thr_".toList ++ (Nat.toDigits 10 b ++
      ("-for_proc_".toList ++ (Nat.toDigits 10 c ++
        ("-for_vm_".toList ++ Nat.toDigits 10 d)))))) := by
  -- the equation lemma of a name is slow to make
  delta qpName
  simp only [String.toList_append, toList_toString, List.append_assoc]

theorem qpName_inj {a b c d a' b' c' d' : Nat} (h : qpName a b c d = qpName a' b' c' d') :
    a = a' ∧ b = b' ∧ c = c' ∧ d = d' := by
  have hlist := congrArg String.toList h
  rw [toList_qpName, toList_qpName] at hlist
  -- each number is followed by the dash of the next field
  obtain ⟨ha, hlist⟩ := toDigits_sep_inj rfl (List.append_cancel_left hlist)
  obtain ⟨hb, hlist⟩ := toDigits_sep_inj rfl (List.append_cancel_left hlist)
  obtain ⟨hc, hlist⟩ := toDigits_sep_inj rfl (List.append_cancel_left hlist)
  exact ⟨ha, hb, hc, toDigits_inj (List.append_cancel_left hlist)⟩

/-! ## Peers -/

/-- A queue pair that some thread of the swarm creates. Threads of any number
are allowed, as nothing here depends on how many there are. -/
structure InSwarm (q : Qp) : Prop where
  process : q.process < f.numProcesses
  index : q.index < f.qpsPerThread

/-- The queue pair is connected: its peer is on another process. -/
def Connected (q : Qp) : Prop := InSwarm f q ∧ isRemoteQpOnSameProcess f q.process q.index = false

/-- `q` looks for the name that `p` is published under. -/
def LooksFor (q p : Qp) : Prop :=
  ∃ name, getQpNameRemote f q = .ok name ∧ getQpNameLocal f p = .ok name

def peer (q : Qp) : Qp :=
  ⟨q.index % f.numProcesses, q.thread, q.index / f.numProcesses * f.numProcesses + q.process⟩

variable {f} {p q : Qp}

theorem getQpNameLocal_ok (hq : InSwarm f q) :
    getQpNameLocal f q = .ok (qpName q.process q.thread (forProcess f q) (forVm f q)) := by
  simp only [getQpNameLocal, check, if_pos hq.index]
  rfl

theorem getQpNameRemote_ok (hq : InSwarm f q) :
    getQpNameRemote f q = .ok (qpName (forProcess f q) q.thread q.process (forVm f q)) := by
  simp only [getQpNameRemote, check, if_pos hq.index]
  rfl

/-- Queue pair `vm * N + P` is for process `P` and virtual machine `vm`. -/
theorem forProcess_peer (hq : InSwarm f q) : forProcess f (peer f q) = q.process := by
  simp only [forProcess, peer]
  rw [Nat.add_comm, Nat.add_mul_mod_self_right, Nat.mod_eq_of_lt hq.process]

theorem forVm_peer (hq : InSwarm f q) : forVm f (peer f q) = forVm f q := by
  have hpos : 0 < f.numProcesses := Nat.zero_lt_of_lt hq.process
  simp only [forVm, peer]
  rw [Nat.add_comm, Nat.add_mul_div_right _ _ hpos, Nat.div_eq_of_lt hq.process, Nat.zero_add]

/-- The index is determined by the process and the machine. -/
theorem index_eq (q : Qp) : q.index = forVm f q * f.numProcesses + forProcess f q :=
  (Nat.div_add_mod' q.index f.numProcesses).symm

theorem inSwarm_peer (hq : InSwarm f q) : InSwarm f (peer f q) := by
  have hpos : 0 < f.numProcesses := Nat.zero_lt_of_lt hq.process
  have hvm : q.index / f.numProcesses < f.vmsPerProcess :=
    Nat.div_lt_of_lt_mul hq.index
  refine ⟨Nat.mod_lt _ hpos, ?_⟩
  calc q.index / f.numProcesses * f.numProcesses + q.process
      < q.index / f.numProcesses * f.numProcesses + f.numProcesses :=
        Nat.add_lt_add_left hq.process _
    _ = (q.index / f.numProcesses + 1) * f.numProcesses := by rw [Nat.add_mul, Nat.one_mul]
    _ ≤ f.vmsPerProcess * f.numProcesses := Nat.mul_le_mul_right _ hvm
    _ = f.qpsPerThread := Nat.mul_comm _ _

theorem connected_iff : Connected f q ↔ InSwarm f q ∧ forProcess f q ≠ q.process := by
  simp [Connected, isRemoteQpOnSameProcess, forProcess]

theorem connected_peer (hq : Connected f q) : Connected f (peer f q) := by
  obtain ⟨hin, hne⟩ := connected_iff.mp hq
  refine connected_iff.mpr ⟨inSwarm_peer hin, ?_⟩
  rw [forProcess_peer hin]
  exact hne.symm

theorem peer_peer (hq : InSwarm f q) : peer f (peer f q) = q := by
  have hprocess := forProcess_peer hq
  have hvm := forVm_peer hq
  refine Qp.ext hprocess rfl ?_
  show forVm f (peer f q) * f.numProcesses + forProcess f q = q.index
  rw [hvm, ← index_eq]

/-- What `p` needs to be the queue pair that `q` looks for. -/
theorem looksFor_iff (hq : InSwarm f q) (hp : InSwarm f p) : LooksFor f q p ↔ p = peer f q := by
  rw [LooksFor, getQpNameRemote_ok hq, getQpNameLocal_ok hp]
  constructor
  · rintro ⟨name, hremote, hlocal⟩
    have hname := (Except.ok.inj hlocal).trans (Except.ok.inj hremote).symm
    obtain ⟨hprocess, hthread, hfor, hvm⟩ := qpName_inj hname
    refine Qp.ext hprocess hthread ?_
    rw [index_eq (f := f) p, hfor, hvm]
    rfl
  · rintro rfl
    refine ⟨_, rfl, ?_⟩
    rw [forProcess_peer hq, forVm_peer hq]
    rfl

/-- The names are a perfect matching. What a connected queue pair looks for is
published for exactly one queue pair of the swarm, which is itself connected and
looks for the first one. So every connected queue pair has one peer, and the
relation is symmetric. -/
theorem names_match (hq : InSwarm f q) (hne : q.index % f.numProcesses ≠ q.process) :
    (∃ name, getQpNameRemote f q = .ok name ∧
      ∀ p, InSwarm f p → (getQpNameLocal f p = .ok name ↔
        p = ⟨q.index % f.numProcesses, q.thread,
          q.index / f.numProcesses * f.numProcesses + q.process⟩)) ∧
    InSwarm f (peer f q) ∧
    isRemoteQpOnSameProcess f (peer f q).process (peer f q).index = false ∧
    getQpNameRemote f (peer f q) = getQpNameLocal f q ∧
    (∃! p, Connected f p ∧ LooksFor f q p) ∧
    ∀ p, InSwarm f p → (LooksFor f q p ↔ LooksFor f p q) := by
  have hc : Connected f q := connected_iff.mpr ⟨hq, hne⟩
  have hpeer : InSwarm f (peer f q) := inSwarm_peer hq
  refine ⟨⟨_, getQpNameRemote_ok hq, ?_⟩, hpeer, (connected_peer hc).2, ?_, ?_, ?_⟩
  · intro p hp
    constructor
    · intro hlocal
      exact (looksFor_iff hq hp).mp ⟨_, getQpNameRemote_ok hq, hlocal⟩
    · intro heq
      obtain ⟨name, hname, hlocal⟩ := (looksFor_iff hq hp).mpr heq
      rw [hlocal, ← hname, getQpNameRemote_ok hq]
  · rw [getQpNameRemote_ok hpeer, getQpNameLocal_ok hq, forProcess_peer hq, forVm_peer hq]
    rfl
  · refine ⟨peer f q, ⟨connected_peer hc, (looksFor_iff hq hpeer).mpr rfl⟩, ?_⟩
    rintro p ⟨hp, hlooks⟩
    exact (looksFor_iff hq hp.1).mp hlooks
  · intro p hp
    rw [looksFor_iff hq hp, looksFor_iff hp hq]
    constructor
    · intro hpq
      rw [hpq, peer_peer hq]
    · intro hqp
      rw [hqp, peer_peer hp]

/-- Three processes with two machines each. -/
def threeByTwo : Flags :=
  { numProcesses := 3, numThreads := 1, vmsPerProcess := 2, doRead := true, size := 16
    windowSize := 1, allsig := false, sqDepth := 128, unsigBatch := 64 }

theorem names_match_three :
    getQpNameRemote threeByTwo ⟨0, 0, 5⟩ = .ok "on_proc_2-at_thr_0-for_proc_0-for_vm_1" ∧
    ∃! p, Connected threeByTwo p ∧ LooksFor threeByTwo ⟨0, 0, 5⟩ p :=
  ⟨by decide, (names_match (q := ⟨0, 0, 5⟩) ⟨by decide, by decide⟩ (by decide)).2.2.2.2.1⟩

end RdmaBench.Swarm.Names
