import RdmaBench.Mlx5.SharedRecv

/-! # Whole runs of a shared receive queue

Calls of `mlx5_post_srq_recv`, messages, completions and cleanups in any order. -/

namespace RdmaBench.Mlx5.SharedRecvRuns
open RdmaBench.Lib.Admission RdmaBench.Lib.Runs RdmaBench.Lib.Simulation
open RdmaBench.Mlx5.SharedRecv

variable {g : Size} {maxGs : Nat} {s : State} {q q' : Pool} {ls : List Label}

/-! A queue of four WQEs with one segment each. -/

def fourWqes : Size := ⟨2, by omega⟩

def segAt (addr : UInt64) : Seg := ⟨64, 7, addr⟩

theorem segAt_valid (addr : UInt64) (segs : List Seg) (hsegs : ∀ s ∈ segs, s = segAt addr) :
    ∀ s ∈ segs, s.lkey ≠ invalidLkey := by
  intro s hs
  rw [hsegs s hs]
  exact show (7 : UInt32) ≠ invalidLkey by decide

def recvAt (wrId addr : UInt64) : RecvWr :=
  ⟨wrId, [segAt addr], segAt_valid addr _ fun _ => List.mem_singleton.mp⟩

/-- A receive with more segments than a WQE of the queue has. -/
def tooLong (wrId addr : UInt64) : RecvWr :=
  ⟨wrId, List.replicate 2 (segAt addr), segAt_valid addr _ fun _ => List.eq_of_mem_replicate⟩

def emptySrq : State where
  srq := ⟨1, 0, 3, fun i => (i + 1) &&& 3, fun _ _ => .invalid, fun _ => 0, 0, 0⟩
  current := 0
  used := 0
  taken := []

theorem emptySrq_init : (sharedReceive fourWqes 1).init emptySrq :=
  ⟨rfl, by decide, rfl, rfl, rfl, rfl, rfl, rfl, rfl⟩

/-- Two receives are posted and one behind them is refused. The second message is completed
first, and the other one thrown away. -/
def outOfOrder : List Label :=
  [.post [recvAt 5 0, recvAt 6 64, tooLong 7 128] (some (einval, 1)), .take 0 [segAt 0],
    .take 1 [segAt 64], .complete 1 6, .clean 0]

theorem run_outOfOrder : ∃ s, Run (sharedReceive fourWqes 1) outOfOrder s ∧ s.used = s.srq.db ∧
    s.taken = [] := by
  have hposted := Run.snoc (.nil emptySrq_init)
    (e := Label.post [recvAt 5 0, recvAt 6 64, tooLong 7 128] (some (einval, 1))) ⟨by decide, rfl⟩
  have hfirst := Run.snoc hposted (e := Label.take 0 [segAt 0])
    ⟨by decide, by decide, by decide, rfl⟩
  have hsecond := Run.snoc hfirst (e := Label.take 1 [segAt 64])
    ⟨by decide, by decide, by decide, rfl⟩
  have hcompleted := Run.snoc hsecond (e := Label.complete 1 6) ⟨by decide, by decide, rfl⟩
  exact ⟨_, .snoc hcompleted (e := Label.clean 0) ⟨by decide, rfl⟩, by decide, by decide⟩

/-- Whatever the order: it is an order in which a pool with room for `max - 1` receives
can be used, with the same results. -/
theorem srq_run_pool (h : Run (sharedReceive g maxGs) ls s) :
    ∃ q, Run (pool g maxGs) ls q ∧ Related g maxGs s q ∧ (s.used = s.srq.db ↔ q.waiting = []) := by
  obtain ⟨q, hrun, posted, free, n, hrep⟩ := sharedReceive_simulates.run h
  exact ⟨q, hrun, ⟨posted, free, n, hrep⟩, hrep.none_iff⟩

theorem srq_run_pool_outOfOrder :
    ∃ q, Run (pool fourWqes 1) outOfOrder q ∧ q.waiting = [] := by
  obtain ⟨s, hs, hidle, -⟩ := run_outOfOrder
  obtain ⟨q, hq, -, hwaiting⟩ := srq_run_pool hs
  exact ⟨q, hq, hwaiting.mp hidle⟩

/-! ## What becomes of a receive -/

/-- The receives before `*bad_wr`. -/
def accepted : Label → List RecvWr
  | .post wrs stop => before wrs stop
  | _ => []

def scattered : Label → List (List Seg)
  | .take _ segs => [segs]
  | _ => []

def completed : Label → List UInt64
  | .complete _ wrId => [wrId]
  | _ => []

def cleaned : Label → Nat
  | .clean _ => 1
  | _ => 0

theorem eq_of_admits (maxGs free : Nat) (wr wr' : RecvWr) (h : admits maxGs free wr = .ok wr') :
    some wr = some wr' := by
  rw [admits] at h
  split at h
  · cases h
  · split at h
    · cases h
    · rw [Except.ok.inj h]

/-- Messages have used the receives `used`. Those of `done` have been completed, and
those of `dropped` thrown away. -/
structure Accounts (ls : List Label) (q : Pool) (used done dropped : List RecvWr) : Prop where
  posted : used ++ q.waiting = ls.flatMap accepted
  segs : ls.flatMap scattered = used.map RecvWr.sgList
  wrIds : ls.flatMap completed = done.map RecvWr.wrId
  drops : (ls.map cleaned).sum = dropped.length
  names : (q.taken.map Prod.fst).Nodup
  all : (done ++ dropped ++ q.taken.map Prod.snd).Perm used

theorem taken_perm {ind : UInt16} {wr : RecvWr} {taken : List (UInt16 × RecvWr)}
    (hnd : (taken.map Prod.fst).Nodup) (hmem : (ind, wr) ∈ taken) :
    (wr :: (taken.filter (·.1 != ind)).map Prod.snd).Perm (taken.map Prod.snd) := by
  obtain ⟨l, l', rfl⟩ := List.append_of_mem hmem
  have hother : ∀ e ∈ l ++ l', (e.1 != ind) = true := by
    intro e he
    rw [List.map_append, List.map_cons, List.nodup_middle, ← List.map_append,
      List.nodup_cons] at hnd
    have hin : e.1 ∈ (l ++ l').map Prod.fst := List.mem_map_of_mem he
    refine bne_iff_ne.mpr fun heq => hnd.1 ?_
    rwa [heq] at hin
  have hfilter : (l ++ (ind, wr) :: l').filter (·.1 != ind) = l ++ l' := by
    rw [List.filter_append, List.filter_cons_of_neg (by simp), ← List.filter_append,
      List.filter_eq_self.mpr hother]
  rw [hfilter, List.map_append, List.map_append, List.map_cons]
  exact List.perm_middle.symm

theorem Accounts.step {used done dropped : List RecvWr} {e : Label}
    (h : Accounts ls q used done dropped) (hstep : (pool g maxGs).step q e q') :
    ∃ used' done' dropped', Accounts (ls ++ [e]) q' used' done' dropped' := by
  have hfilter : ∀ ind, ((q.taken.filter (·.1 != ind)).map Prod.fst).Nodup :=
    fun ind => h.names.sublist (List.filter_sublist.map _)
  cases e with
  | post wrs stop =>
    obtain ⟨rfl, rfl⟩ := hstep
    refine ⟨used, done, dropped, ?_, ?_, ?_, ?_, h.names, h.all⟩
    · rw [List.flatMap_append, List.flatMap_singleton, accepted,
        admitted_eq_before (eq_of_admits maxGs), List.filterMap_some, ← h.posted, List.append_assoc]
    · simpa [scattered] using h.segs
    · simpa [completed] using h.wrIds
    · simpa [cleaned] using h.drops
  | take ind segs =>
    obtain ⟨wr, rest, hwait, rfl, hfresh, rfl⟩ := hstep
    refine ⟨used ++ [wr], done, dropped, ?_, ?_, ?_, ?_, ?_, ?_⟩
    · simpa [accepted, hwait] using h.posted
    · simpa [scattered] using h.segs
    · simpa [completed] using h.wrIds
    · simpa [cleaned] using h.drops
    · exact List.nodup_cons.mpr ⟨hfresh, h.names⟩
    · refine List.Perm.trans List.perm_middle ?_
      exact (h.all.cons wr).trans (List.perm_append_singleton wr used).symm
  | complete ind wrId =>
    obtain ⟨wr, hmem, rfl, rfl⟩ := hstep
    refine ⟨used, done ++ [wr], dropped, ?_, ?_, ?_, ?_, hfilter ind, ?_⟩
    · simpa [accepted] using h.posted
    · simpa [scattered] using h.segs
    · simpa [completed] using h.wrIds
    · simpa [cleaned] using h.drops
    · have hperm := (taken_perm h.names hmem).append_left (done ++ dropped)
      refine List.Perm.trans ?_ (hperm.trans h.all)
      rw [List.append_assoc, List.append_assoc, List.append_assoc, List.singleton_append]
      exact List.Perm.append_left done List.perm_middle.symm
  | clean ind =>
    obtain ⟨hind, rfl⟩ := hstep
    obtain ⟨e, hmem, rfl⟩ := List.mem_map.mp hind
    refine ⟨used, done, dropped ++ [e.2], ?_, ?_, ?_, ?_, hfilter e.1, ?_⟩
    · simpa [accepted] using h.posted
    · simpa [scattered] using h.segs
    · simpa [completed] using h.wrIds
    · simpa [cleaned] using h.drops
    · have hperm := (taken_perm h.names hmem).append_left (done ++ dropped)
      refine List.Perm.trans ?_ (hperm.trans h.all)
      rw [← List.append_assoc, List.append_assoc, List.singleton_append]

theorem pool_accounts (h : Run (pool g maxGs) ls q) :
    ∃ used done dropped, Accounts ls q used done dropped := by
  induction h with
  | nil h0 =>
    rw [show _ = _ from h0]
    exact ⟨[], [], [], rfl, rfl, rfl, rfl, List.nodup_nil, .nil⟩
  | snoc _ hstep ih =>
    obtain ⟨used, done, dropped, haccounts⟩ := ih
    exact haccounts.step hstep

/-- Messages use the receives in the order in which they were posted, each one once,
with its own segments. Each of them is completed once with its `wr_id`, or thrown away
once, or its message is still on the way: a WQE is not given to another message before.
When the NIC finds nothing to take, every receive that was accepted has been used. -/
theorem receives_used_once (h : Run (sharedReceive g maxGs) ls s) :
    ∃ used done dropped pending : List RecvWr,
      ls.flatMap scattered = used.map RecvWr.sgList ∧ used <+: ls.flatMap accepted ∧
      (s.used = s.srq.db → used = ls.flatMap accepted) ∧
      ls.flatMap completed = done.map RecvWr.wrId ∧ (ls.map cleaned).sum = dropped.length ∧
      pending.length = s.taken.length ∧ (done ++ dropped ++ pending).Perm used := by
  obtain ⟨q, hrun, posted, free, n, hrep⟩ := sharedReceive_simulates.run h
  obtain ⟨used, done, dropped, haccounts⟩ := pool_accounts hrun
  refine ⟨used, done, dropped, q.taken.map Prod.snd, haccounts.segs, ⟨_, haccounts.posted⟩,
    fun hidle => ?_, haccounts.wrIds, haccounts.drops, ?_, haccounts.all⟩
  · have hposted := haccounts.posted
    rwa [hrep.none_iff.mp hidle, List.append_nil] at hposted
  · rw [hrep.taken, List.length_map, List.length_map]

theorem receives_used_once_outOfOrder : ∃ used done dropped : List RecvWr,
    used = [recvAt 5 0, recvAt 6 64] ∧ [6] = done.map RecvWr.wrId ∧ 1 = dropped.length ∧
      (done ++ dropped).Perm used := by
  obtain ⟨s, hs, hidle, htaken⟩ := run_outOfOrder
  obtain ⟨used, done, dropped, pending, -, -, hused, hdone, hdropped, hpending, hall⟩ :=
    receives_used_once hs
  obtain rfl : pending = [] := List.length_eq_zero_iff.mp (by rw [hpending, htaken]; rfl)
  rw [List.append_nil] at hall
  exact ⟨used, done, dropped, hused hidle, hdone, hdropped, hall⟩

end RdmaBench.Mlx5.SharedRecvRuns
