import RdmaBench.Lib.Admission
import RdmaBench.Lib.Chain
import RdmaBench.Lib.Simulation

/-! # Shared receive queues

The WQEs of a shared receive queue are linked. The NIC follows the links from one
receive to the next, and counts how many it may take; the driver keeps the free WQEs
at the other end of the same list. A receive is posted to the first free WQE, by moving
`head` to the next one, and a WQE that has been used is put behind `tail`. Messages of
several queue pairs take WQEs in the order of the list, but they are completed in any
order, or thrown away when a queue pair is destroyed. The signature of a WQE is left
out. -/

namespace RdmaBench.Mlx5.SharedRecv
open RdmaBench.Lib.Admission RdmaBench.Lib.Chain RdmaBench.Lib.Runs RdmaBench.Lib.Simulation

/-! ## The driver -/

/-- `struct mlx5_wqe_data_seg` -/
structure Seg where
  byteCount : UInt32
  lkey : UInt32
  addr : UInt64
deriving DecidableEq

def invalidLkey : UInt32 := 0x100

/-- The segment that ends a list. -/
def Seg.invalid : Seg := ⟨0, invalidLkey, 0⟩

/-- A receive. No memory region has the invalid key. -/
structure RecvWr where
  wrId : UInt64
  sgList : List Seg
  valid : ∀ s ∈ sgList, s.lkey ≠ invalidLkey

/-- `struct mlx5_srq`. WQEs are given by their index; `next` is `next_wqe_index`, and
`scat` has the data segments. -/
structure Srq where
  maxGs : Nat
  head : UInt16
  tail : UInt16
  next : UInt16 → UInt16
  scat : UInt16 → Nat → Seg
  wrid : UInt16 → UInt64
  counter : UInt16
  db : UInt16

abbrev Errno := Nat

def einval : Errno := 22
def enomem : Errno := 12

/-- The data segments of a WQE after a receive has been written over old ones. -/
def setScat (maxGs : Nat) (l : List Seg) (old : Nat → Seg) (i : Nat) : Seg :=
  match l[i]? with
  | some s => s
  | none => if i = l.length ∧ i < maxGs then .invalid else old i

/-- The loop of `mlx5_post_srq_recv`: the receives that it posts, and if there is one
that it cannot post, the error and the number of receives in `*bad_wr`. -/
def postLoop : List RecvWr → Nat → Srq → Srq × Nat × Option (Errno × Nat)
  | [], nreq, srq => (srq, nreq, none)
  | wr :: rest, nreq, srq =>
    if srq.maxGs < wr.sgList.length then (srq, nreq, some (einval, (wr :: rest).length))
    else if srq.head = srq.tail then (srq, nreq, some (enomem, (wr :: rest).length))
    else
      postLoop rest (nreq + 1)
        { srq with
          wrid := Function.update srq.wrid srq.head wr.wrId
          head := srq.next srq.head
          scat := Function.update srq.scat srq.head
            (setScat srq.maxGs wr.sgList (srq.scat srq.head)) }

def mlx5PostSrqRecv (srq : Srq) (wrs : List RecvWr) : Srq × Option (Errno × Nat) :=
  match postLoop wrs 0 srq with
  | (srq, nreq, stop) =>
    if nreq = 0 then (srq, stop)
    else
      let counter := srq.counter + UInt16.ofNat nreq
      ({ srq with counter := counter, db := counter }, stop)

def mlx5FreeSrqWqe (srq : Srq) (ind : UInt16) : Srq :=
  { srq with next := Function.update srq.next srq.tail ind, tail := ind }

/-- What `handle_responder` returns and does for an entry of a shared receive queue. -/
def complete (srq : Srq) (wqeCtr : UInt16) : UInt64 × Srq :=
  (srq.wrid wqeCtr, mlx5FreeSrqWqe srq wqeCtr)

/-! ## The NIC, and both together -/

/-- The segments that the NIC finds in a WQE. -/
def scatter (maxGs : Nat) (scat : Nat → Seg) : List Seg :=
  ((List.range maxGs).map scat).takeWhile fun s => s.lkey != invalidLkey

/-- `current` is the WQE that the NIC takes next, `used` counts those it has taken, and
`taken` are those of messages that have not been completed. -/
structure State where
  srq : Srq
  current : UInt16
  used : UInt16
  taken : List UInt16

/-- What can be seen of a step. The NIC takes a WQE for a message, the driver completes
or throws away a message by the index of its WQE. -/
inductive Label where
  | post (wrs : List RecvWr) (stop : Option (Errno × Nat))
  | take (ind : UInt16) (segs : List Seg)
  | complete (ind : UInt16) (wrId : UInt64)
  | clean (ind : UInt16)

/-- The size of a queue, as `mlx5_create_srq` rounds it up. -/
structure Size where
  log : Nat
  log_le : log ≤ 16

/-- `srq->max` -/
def Size.max (g : Size) : Nat := 2 ^ g.log

/-- The queue as `mlx5_alloc_srq_buf` leaves it. -/
def sharedReceive (g : Size) (maxGs : Nat) : System State Label where
  init s := s.srq.maxGs = maxGs ∧
    (∀ i < g.max, s.srq.next (UInt16.ofNat i) = UInt16.ofNat ((i + 1) &&& (g.max - 1))) ∧
    s.srq.head = 0 ∧ s.srq.tail = UInt16.ofNat (g.max - 1) ∧ s.srq.counter = 0 ∧ s.srq.db = 0 ∧
    s.current = 0 ∧ s.used = 0 ∧ s.taken = []
  step s e t := match e with
    | .post wrs stop => stop = (mlx5PostSrqRecv s.srq wrs).2 ∧
      t = { s with srq := (mlx5PostSrqRecv s.srq wrs).1 }
    | .take ind segs => s.used ≠ s.srq.db ∧ ind = s.current ∧
      segs = scatter s.srq.maxGs (s.srq.scat s.current) ∧
      t = { s with
        current := s.srq.next s.current
        used := s.used + 1
        taken := s.current :: s.taken }
    | .complete ind wrId => ind ∈ s.taken ∧ wrId = (complete s.srq ind).1 ∧
      t = { s with srq := (complete s.srq ind).2, taken := s.taken.erase ind }
    | .clean ind => ind ∈ s.taken ∧
      t = { s with srq := mlx5FreeSrqWqe s.srq ind, taken := s.taken.erase ind }

/-! ## What the queue is for -/

/-- The receives that wait for a message, and those that have one, by a name that no
other message has at the time. -/
structure Pool where
  waiting : List RecvWr
  taken : List (UInt16 × RecvWr)

/-- The receive, if it can be posted and there is room for it. -/
def admits (maxGs free : Nat) (wr : RecvWr) : Except Errno RecvWr :=
  if maxGs < wr.sgList.length then .error einval
  else if free = 0 then .error enomem
  else .ok wr

/-- A pool with room for one receive less than the queue has WQEs. -/
def pool (g : Size) (maxGs : Nat) : System Pool Label where
  init q := q = ⟨[], []⟩
  step q e t := match e with
    | .post wrs stop =>
      let free := g.max - 1 - (q.waiting.length + q.taken.length)
      stop = (admitted (admits maxGs) free wrs).2 ∧
        t = { q with waiting := q.waiting ++ (admitted (admits maxGs) free wrs).1 }
    | .take ind segs => ∃ wr rest, q.waiting = wr :: rest ∧ segs = wr.sgList ∧
      ind ∉ q.taken.map Prod.fst ∧ t = ⟨rest, (ind, wr) :: q.taken⟩
    | .complete ind wrId => ∃ wr, (ind, wr) ∈ q.taken ∧ wrId = wr.wrId ∧
      t = { q with taken := q.taken.filter (·.1 != ind) }
    | .clean ind => ind ∈ q.taken.map Prod.fst ∧ t = { q with taken := q.taken.filter (·.1 != ind) }

/-! ## Segments -/

/-- The NIC finds the segments of the receive, whatever was there before. -/
theorem scatter_setScat {maxGs : Nat} {wr : RecvWr} (hle : wr.sgList.length ≤ maxGs)
    (old : Nat → Seg) : scatter maxGs (setScat maxGs wr.sgList old) = wr.sgList := by
  obtain ⟨k, rfl⟩ : ∃ k, maxGs = wr.sgList.length + k := ⟨_, (Nat.add_sub_cancel' hle).symm⟩
  have hfirst : ∀ maxGs, (List.range wr.sgList.length).map (setScat maxGs wr.sgList old) =
      wr.sgList := by
    intro maxGs
    apply List.ext_getElem
    · simp
    · intro i hi hi'
      simp [setScat, hi']
  have hvalid : ∀ s ∈ wr.sgList, (s.lkey != invalidLkey) = true :=
    fun s hs => bne_iff_ne.mpr (wr.valid s hs)
  rw [scatter, List.range_add, List.map_append, hfirst, List.takeWhile_append_of_pos hvalid]
  cases k with
  | zero => simp
  | succ k =>
    -- the list is shorter than the WQE, and the invalid segment ends it
    have hend : setScat (wr.sgList.length + (k + 1)) wr.sgList old (wr.sgList.length + 0) =
        .invalid := by simp [setScat]
    rw [List.range_succ_eq_map, List.map_cons, List.map_cons, hend]
    simp [Seg.invalid]

/-! ## The lists -/

variable {g : Size} {maxGs : Nat} {srq : Srq} {current : UInt16} {q : Pool}
  {posted : List (UInt16 × RecvWr)} {free : List UInt16} {s t : State}

/-- All WQEs of a queue. -/
def wqes (g : Size) : List UInt16 := (List.range g.max).map UInt16.ofNat

theorem Size.max_le (g : Size) : g.max ≤ 2 ^ 16 := Nat.pow_le_pow_right (by omega) g.log_le

theorem nodup_wqes (g : Size) : (wqes g).Nodup := by
  refine List.Nodup.map_on (fun i hi j hj h => ?_) List.nodup_range
  have hmax := g.max_le
  have hi := List.mem_range.mp hi
  have hj := List.mem_range.mp hj
  have h := congrArg UInt16.toNat h
  rwa [UInt16.toNat_ofNat', UInt16.toNat_ofNat', Nat.mod_eq_of_lt (by omega),
    Nat.mod_eq_of_lt (by omega)] at h

/-- A receive is in its WQE. -/
structure Holds (maxGs : Nat) (srq : Srq) (e : UInt16 × RecvWr) : Prop where
  wrid : srq.wrid e.1 = e.2.wrId
  segs : scatter maxGs (srq.scat e.1) = e.2.sgList

/-- The WQEs are those that the NIC may take, the free ones behind them, and those that
are taken. -/
structure Lists (g : Size) (maxGs : Nat) (srq : Srq) (current : UInt16) (q : Pool)
    (posted : List (UInt16 × RecvWr)) (free : List UInt16) : Prop where
  gs : srq.maxGs = maxGs
  linked : Linked (some ∘ srq.next) (posted.map Prod.fst ++ free)
  perm : (posted.map Prod.fst ++ free ++ q.taken.map Prod.fst).Perm (wqes g)
  head : free.head? = some srq.head
  tail : free.getLast? = some srq.tail
  current : (posted.map Prod.fst ++ free).head? = some current
  waiting : q.waiting = posted.map Prod.snd
  holds : ∀ e ∈ posted, Holds maxGs srq e
  wrid : ∀ e ∈ q.taken, srq.wrid e.1 = e.2.wrId

theorem Lists.nodup (h : Lists g maxGs srq current q posted free) :
    (posted.map Prod.fst ++ free ++ q.taken.map Prod.fst).Nodup :=
  h.perm.nodup_iff.mpr (nodup_wqes g)

theorem Lists.length (h : Lists g maxGs srq current q posted free) :
    posted.length + free.length + q.taken.length = g.max := by
  have hlen := h.perm.length_eq
  simpa [wqes, Nat.add_assoc] using hlen

/-- The check for a full queue. -/
theorem Lists.full_iff (h : Lists g maxGs srq current q posted free) :
    srq.head = srq.tail ↔ free.length = 1 := by
  have hnd : free.Nodup := (List.nodup_append.mp (List.nodup_append.mp h.nodup).1).2.1
  cases hfree : free with
  | nil =>
    have hhead := h.head
    rw [hfree] at hhead
    cases hhead
  | cons a rest =>
    have hhead := h.head
    have htail := h.tail
    rw [hfree] at hhead htail hnd
    rw [← Option.some.inj hhead]
    cases rest with
    | nil =>
      rw [← Option.some.inj htail]
      simp
    | cons b rest =>
      rw [List.getLast?_cons_cons] at htail
      have hmem := List.mem_of_getLast? htail
      have hne : a ≠ srq.tail := fun heq => (List.nodup_cons.mp hnd).1 (heq ▸ hmem)
      simp [hne]

/-- A receive is posted to the first free WQE. -/
theorem Lists.post (h : Lists g maxGs srq current q posted free) (hfull : srq.head ≠ srq.tail)
    {wr : RecvWr} (hgs : wr.sgList.length ≤ maxGs) :
    ∃ rest, free.length = rest.length + 1 ∧
      Lists g maxGs
        { srq with
          wrid := Function.update srq.wrid srq.head wr.wrId
          head := srq.next srq.head
          scat := Function.update srq.scat srq.head
            (setScat srq.maxGs wr.sgList (srq.scat srq.head)) }
        current { q with waiting := q.waiting ++ [wr] } (posted ++ [(srq.head, wr)]) rest := by
  have hnd := h.nodup
  obtain ⟨a, b, rest, rfl⟩ : ∃ a b rest, free = a :: b :: rest := by
    have hne := mt h.full_iff.mpr hfull
    have hhead := h.head
    cases free with
    | nil => cases hhead
    | cons a free =>
      cases free with
      | nil => exact absurd rfl hne
      | cons b rest => exact ⟨a, b, rest, rfl⟩
  have hhead : a = srq.head := Option.some.inj h.head
  subst hhead
  obtain ⟨hposted, htaken⟩ : (∀ e ∈ posted, e.1 ≠ srq.head) ∧ ∀ e ∈ q.taken, e.1 ≠ srq.head := by
    rw [List.append_assoc] at hnd
    obtain ⟨-, hrest, hdis⟩ := List.nodup_append.mp hnd
    refine ⟨fun e he => hdis _ (List.mem_map_of_mem he) _ (by simp), fun e he heq => ?_⟩
    rw [List.cons_append, List.nodup_cons] at hrest
    exact hrest.1 (heq ▸ List.mem_append_right _ (List.mem_map_of_mem he))
  have hnext : srq.next srq.head = b := by
    obtain ⟨-, hfree, -⟩ := List.isChain_append.mp h.linked
    exact Option.some.inj (List.isChain_cons_cons.mp hfree).1
  have hsplit : (posted ++ [(srq.head, wr)]).map Prod.fst ++ b :: rest =
      posted.map Prod.fst ++ srq.head :: b :: rest := by simp
  refine ⟨b :: rest, rfl, h.gs, ?_, ?_, ?_, ?_, ?_, ?_, ?_, ?_⟩
  · rw [hsplit]
    exact h.linked
  · rw [hsplit]
    exact h.perm
  · exact congrArg some hnext.symm
  · exact h.tail
  · rw [hsplit]
    exact h.current
  · simp [h.waiting]
  · intro e he
    rcases List.mem_append.mp he with hold | hnew
    · have hkeep := h.holds e hold
      constructor
      · exact (Function.update_of_ne (hposted e hold) ..).trans hkeep.wrid
      · show scatter maxGs (Function.update srq.scat _ _ e.1) = _
        rw [Function.update_of_ne (hposted e hold)]
        exact hkeep.segs
    · rw [List.mem_singleton.mp hnew]
      constructor
      · exact Function.update_self ..
      · show scatter maxGs (Function.update srq.scat _ _ srq.head) = _
        rw [Function.update_self, h.gs, scatter_setScat hgs]
  · intro e he
    exact (Function.update_of_ne (htaken e he) ..).trans (h.wrid e he)

/-- A call posts what the pool has room for. -/
theorem postLoop_lists (wrs : List RecvWr) (nreq : Nat)
    (h : Lists g maxGs srq current q posted free) : ∃ posted' free',
      Lists g maxGs (postLoop wrs nreq srq).1 current
        { q with waiting := q.waiting ++ (admitted (admits maxGs) (free.length - 1) wrs).1 }
        (posted ++ posted') free' ∧
      (postLoop wrs nreq srq).2.1 = nreq + posted'.length ∧
      (postLoop wrs nreq srq).2.2 = (admitted (admits maxGs) (free.length - 1) wrs).2 ∧
      (postLoop wrs nreq srq).1.counter = srq.counter ∧
      (postLoop wrs nreq srq).1.db = srq.db := by
  induction wrs generalizing nreq srq q posted free with
  | nil =>
    refine ⟨[], free, ?_, rfl, ?_, rfl, rfl⟩
    · rw [admitted, List.append_nil, List.append_nil]
      exact h
    · rw [admitted]
      rfl
  | cons wr rest ih =>
    rw [postLoop, h.gs]
    by_cases hgs : maxGs < wr.sgList.length
    · have hadmit : admits maxGs (free.length - 1) wr = .error einval := if_pos hgs
      simp only [hgs, if_true, admitted_error rest hadmit, List.append_nil]
      exact ⟨[], free, by rw [List.append_nil]; exact h, rfl, trivial, trivial, trivial⟩
    · simp only [hgs, if_false]
      by_cases hfull : srq.head = srq.tail
      · have hadmit : admits maxGs (free.length - 1) wr = .error enomem := by
          rw [admits, if_neg hgs, h.full_iff.mp hfull, if_pos rfl]
        simp only [hfull, if_true, admitted_error rest hadmit, List.append_nil]
        exact ⟨[], free, by rw [List.append_nil]; exact h, rfl, trivial, trivial, trivial⟩
      · obtain ⟨free', hlen, hnext⟩ := h.post hfull (Nat.not_lt.mp hgs)
        obtain ⟨posted', free'', hlists, hnreq, hstop, hcounter, hdb⟩ := ih (nreq + 1) hnext
        have hpos : 0 < free'.length := by
          have := hnext.head
          cases free' with
          | nil => cases this
          | cons a l => exact Nat.succ_pos _
        have hadmit : admits maxGs free'.length wr = .ok wr := by
          rw [admits, if_neg hgs, if_neg (Nat.ne_of_gt hpos)]
        rw [h.gs] at hlists hnreq hstop hcounter hdb
        simp only [hfull, if_false, hlen, Nat.add_sub_cancel, admitted_ok rest hadmit]
        refine ⟨(srq.head, wr) :: posted', free'', ?_, ?_, hstop, hcounter, hdb⟩
        · simpa [List.append_assoc] using hlists
        · rw [hnreq, List.length_cons]
          omega

/-- The NIC takes the first WQE of the list. -/
theorem Lists.take {e : UInt16 × RecvWr} (h : Lists g maxGs srq current q (e :: posted) free) :
    current = e.1 ∧ e.1 ∉ q.taken.map Prod.fst ∧ scatter srq.maxGs (srq.scat current) = e.2.sgList ∧
      Lists g maxGs srq (srq.next current) ⟨posted.map Prod.snd, e :: q.taken⟩ posted free := by
  have hcur : e.1 = current := Option.some.inj h.current
  have hhold := h.holds e List.mem_cons_self
  have hnd := h.nodup
  have hne : posted.map Prod.fst ++ free ≠ [] := by
    intro hnil
    have hhead := h.head
    rw [(List.append_eq_nil_iff.mp hnil).2] at hhead
    cases hhead
  obtain ⟨b, l, hbl⟩ := List.exists_cons_of_ne_nil hne
  have hlinked := h.linked
  rw [List.map_cons, List.cons_append, hbl] at hlinked
  obtain ⟨hnext, hrest⟩ := List.isChain_cons_cons.mp hlinked
  rw [List.map_cons, List.cons_append, List.cons_append] at hnd
  refine ⟨hcur.symm, fun hmem => ?_, ?_, h.gs, ?_, ?_, h.head, h.tail, ?_, rfl, ?_, ?_⟩
  · exact (List.nodup_cons.mp hnd).1 (List.mem_append_right _ hmem)
  · rw [← hcur, h.gs]
    exact hhold.segs
  · rw [hbl]
    exact hrest
  · refine List.Perm.trans ?_ h.perm
    rw [List.map_cons, List.map_cons, List.cons_append, List.cons_append]
    exact List.perm_middle
  · rw [hbl, ← hcur]
    exact congrArg some (Option.some.inj hnext).symm
  · exact fun e' he' => h.holds e' (List.mem_cons_of_mem _ he')
  · intro e' he'
    rcases List.mem_cons.mp he' with rfl | hold
    · exact hhold.wrid
    · exact h.wrid e' hold

/-- A WQE is put behind the last free one. -/
theorem Lists.giveBack {ind : UInt16} (h : Lists g maxGs srq current q posted free)
    (hind : ind ∈ q.taken.map Prod.fst) :
    Lists g maxGs (mlx5FreeSrqWqe srq ind) current
      { q with taken := q.taken.filter (·.1 != ind) } posted (free ++ [ind]) := by
  have hnd := h.nodup
  obtain ⟨hlist, htaken, hdis⟩ := List.nodup_append.mp hnd
  have hfree : free ≠ [] := by
    intro hnil
    have hhead := h.head
    rw [hnil] at hhead
    cases hhead
  have hlast : (posted.map Prod.fst ++ free).getLast? = some srq.tail := by
    rw [List.getLast?_append, h.tail]
    rfl
  have herase : (q.taken.filter (·.1 != ind)).map Prod.fst = (q.taken.map Prod.fst).erase ind := by
    rw [List.Nodup.erase_eq_filter htaken, List.filter_map]
    rfl
  refine ⟨h.gs, ?_, ?_, ?_, ?_, ?_, h.waiting, fun e he => ?_, ?_⟩
  · rw [← List.append_assoc]
    show Linked (some ∘ Function.update srq.next srq.tail ind) _
    rw [Function.comp_update]
    exact h.linked.snoc hlist hlast ind
  · rw [herase, ← List.append_assoc, List.append_assoc _ [ind]]
    refine List.Perm.trans ?_ h.perm
    exact (List.perm_cons_erase hind).symm.append_left _
  · rw [List.head?_append_of_ne_nil _ hfree]
    exact h.head
  · exact List.getLast?_concat
  · rw [← List.append_assoc, List.head?_append, h.current]
    rfl
  · exact ⟨(h.holds e he).wrid, (h.holds e he).segs⟩
  · intro e he
    exact h.wrid e (List.mem_of_mem_filter he)

/-! ## The driver and the NIC keep a pool -/

/-- The NIC has taken `n` receives so far. -/
structure Represents (g : Size) (maxGs : Nat) (s : State) (q : Pool)
    (posted : List (UInt16 × RecvWr)) (free : List UInt16) (n : Nat) : Prop where
  lists : Lists g maxGs s.srq s.current q posted free
  taken : s.taken = q.taken.map Prod.fst
  counter : s.srq.counter = UInt16.ofNat (n + posted.length)
  db : s.srq.db = s.srq.counter
  used : s.used = UInt16.ofNat n

def Related (g : Size) (maxGs : Nat) (s : State) (q : Pool) : Prop :=
  ∃ posted free n, Represents g maxGs s q posted free n

variable {n : Nat}

theorem Represents.waiting_lt (h : Represents g maxGs s q posted free n) :
    posted.length < 2 ^ 16 := by
  have hlen := h.lists.length
  have hmax := g.max_le
  have hpos : 0 < free.length := by
    have hhead := h.lists.head
    cases free with
    | nil => cases hhead
    | cons a l => exact Nat.succ_pos _
  omega

/-- The NIC has nothing to take exactly if no receive is waiting. -/
theorem Represents.none_iff (h : Represents g maxGs s q posted free n) :
    s.used = s.srq.db ↔ q.waiting = [] := by
  have hlt := h.waiting_lt
  rw [h.db, h.counter, h.used, h.lists.waiting, List.map_eq_nil_iff, ← UInt16.toNat_inj,
    UInt16.toNat_ofNat', UInt16.toNat_ofNat', ← List.length_eq_zero_iff]
  omega

theorem Represents.free_eq (h : Represents g maxGs s q posted free n) :
    free.length - 1 = g.max - 1 - (q.waiting.length + q.taken.length) := by
  have hlen := h.lists.length
  have hwait : q.waiting.length = posted.length := by rw [h.lists.waiting, List.length_map]
  omega

theorem Represents.post (h : Represents g maxGs s q posted free n) (wrs : List RecvWr) :
    (mlx5PostSrqRecv s.srq wrs).2 = (admitted (admits maxGs) (free.length - 1) wrs).2 ∧
      Related g maxGs { s with srq := (mlx5PostSrqRecv s.srq wrs).1 }
        { q with waiting := q.waiting ++ (admitted (admits maxGs) (free.length - 1) wrs).1 } := by
  obtain ⟨posted', free', hlists, hnreq, hstop, hcounter, hdb⟩ := postLoop_lists wrs 0 h.lists
  unfold mlx5PostSrqRecv
  cases hloop : postLoop wrs 0 s.srq with
  | mk srq' r =>
    obtain ⟨nreq, stop⟩ := r
    rw [hloop] at hlists hnreq hstop hcounter hdb
    simp only at hlists hnreq hstop hcounter hdb ⊢
    rw [Nat.zero_add] at hnreq
    split
    · next hzero =>
      have hnil : posted' = [] := List.length_eq_zero_iff.mp (hnreq.symm.trans hzero)
      rw [hnil, List.append_nil] at hlists
      exact ⟨hstop, posted, free', n, hlists, h.taken, hcounter.trans h.counter,
        hdb.trans (h.db.trans hcounter.symm), h.used⟩
    · refine ⟨hstop, posted ++ posted', free', n, ?_, h.taken, ?_, rfl, h.used⟩
      · exact ⟨hlists.gs, hlists.linked, hlists.perm, hlists.head, hlists.tail, hlists.current,
          hlists.waiting, fun e he => ⟨(hlists.holds e he).wrid, (hlists.holds e he).segs⟩,
          hlists.wrid⟩
      · show srq'.counter + UInt16.ofNat nreq = _
        rw [hcounter, h.counter, hnreq, ← UInt16.ofNat_add, List.length_append, Nat.add_assoc]

theorem Represents.take (h : Represents g maxGs s q posted free n) (hused : s.used ≠ s.srq.db) :
    ∃ wr rest, q.waiting = wr :: rest ∧
      scatter s.srq.maxGs (s.srq.scat s.current) = wr.sgList ∧
      s.current ∉ q.taken.map Prod.fst ∧
      Related g maxGs
        { s with
          current := s.srq.next s.current
          used := s.used + 1
          taken := s.current :: s.taken } ⟨rest, (s.current, wr) :: q.taken⟩ := by
  have hne := mt h.none_iff.mpr hused
  cases posted with
  | nil => exact absurd h.lists.waiting hne
  | cons e posted =>
    obtain ⟨hcur, hfresh, hsegs, hlists⟩ := h.lists.take
    have heq : e = (s.current, e.2) := by rw [hcur]
    rw [heq] at hlists hfresh
    refine ⟨e.2, posted.map Prod.snd, h.lists.waiting, hsegs, hfresh, posted, free, n + 1, hlists,
      ?_, ?_, h.db, ?_⟩
    · rw [h.taken]
      rfl
    · show s.srq.counter = _
      rw [h.counter, List.length_cons, Nat.add_assoc, Nat.add_comm 1]
    · show s.used + 1 = _
      rw [h.used]
      exact (UInt16.ofNat_add n 1).symm

theorem Represents.giveBack (h : Represents g maxGs s q posted free n) {ind : UInt16}
    (hind : ind ∈ s.taken) :
    Related g maxGs { s with srq := mlx5FreeSrqWqe s.srq ind, taken := s.taken.erase ind }
      { q with taken := q.taken.filter (·.1 != ind) } := by
  have hmem := h.taken ▸ hind
  have hlists := h.lists.giveBack hmem
  obtain ⟨-, htaken, -⟩ := List.nodup_append.mp h.lists.nodup
  refine ⟨posted, _, n, hlists, ?_, h.counter, h.db, h.used⟩
  show s.taken.erase ind = _
  rw [h.taken, List.Nodup.erase_eq_filter htaken, List.filter_map]
  rfl

theorem linked_range {next : UInt16 → UInt16} {m : Nat}
    (h : ∀ i, i + 1 < m → next (UInt16.ofNat i) = UInt16.ofNat (i + 1)) :
    Linked (some ∘ next) ((List.range m).map UInt16.ofNat) := by
  rw [Linked, List.isChain_map, List.isChain_range]
  intro i hi
  exact congrArg some (h i (by omega))

theorem sharedReceive_simulates :
    Simulates (sharedReceive g maxGs) (pool g maxGs) (Related g maxGs) where
  init s h := by
    obtain ⟨hgs, hnext, hhead, htail, hcounter, hdb, hcur, hused, htaken⟩ := h
    obtain ⟨m, hm⟩ : ∃ m, g.max = m + 1 := ⟨_, (Nat.sub_add_cancel (Nat.two_pow_pos g.log)).symm⟩
    have hfirst : (wqes g).head? = some 0 := by
      rw [wqes, hm, List.range_succ_eq_map]
      rfl
    have hlast : (wqes g).getLast? = some (UInt16.ofNat (g.max - 1)) := by
      rw [wqes, hm, List.range_succ]
      simp
    refine ⟨⟨[], []⟩, rfl, [], wqes g, 0, ⟨hgs, ?_, ?_, ?_, ?_, ?_, rfl, ?_, ?_⟩, htaken, hcounter,
      hdb.trans hcounter.symm, hused⟩
    · refine linked_range fun i hi => ?_
      have hmod : (i + 1) % 2 ^ g.log = i + 1 := Nat.mod_eq_of_lt hi
      rw [hnext i (by omega), Size.max, Nat.and_two_pow_sub_one_eq_mod, hmod]
    · simp
    · rw [hfirst, hhead]
    · rw [hlast, htail]
    · rw [List.map_nil, List.nil_append, hfirst, hcur]
    · exact fun e he => absurd he List.not_mem_nil
    · exact fun e he => absurd he List.not_mem_nil
  step s e t q hstep hrel := by
    obtain ⟨posted, free, n, h⟩ := hrel
    cases e with
    | post wrs stop =>
      obtain ⟨rfl, rfl⟩ := hstep
      obtain ⟨hstop, hrel⟩ := h.post wrs
      rw [h.free_eq] at hstop hrel
      exact ⟨_, ⟨hstop, rfl⟩, hrel⟩
    | take ind segs =>
      obtain ⟨hused, rfl, rfl, rfl⟩ := hstep
      obtain ⟨wr, rest, hwait, hsegs, hfresh, hrel⟩ := h.take hused
      exact ⟨_, ⟨wr, rest, hwait, hsegs, hfresh, rfl⟩, hrel⟩
    | complete ind wrId =>
      obtain ⟨hind, rfl, rfl⟩ := hstep
      obtain ⟨e, he, rfl⟩ := List.mem_map.mp (h.taken ▸ hind)
      exact ⟨_, ⟨e.2, he, h.lists.wrid e he, rfl⟩, h.giveBack hind⟩
    | clean ind =>
      obtain ⟨hind, rfl⟩ := hstep
      exact ⟨_, ⟨h.taken ▸ hind, rfl⟩, h.giveBack hind⟩

end RdmaBench.Mlx5.SharedRecv
