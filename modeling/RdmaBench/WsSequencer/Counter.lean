import RdmaBench.Lib.Buffers
import RdmaBench.WsSequencer.Model

/-! # Every number once

The numbers in the responses generated so far and those reserved for responses
that are not posted are the numbers below the counter, each once. -/

namespace RdmaBench.WsSequencer.Counter
open RdmaBench.Lib.Runs RdmaBench.Lib.Window
open RdmaBench.Lib.Buffers (arrive_perm)
open RdmaBench.Requests.Model (Program)
open RdmaBench.Requests.Delivery RdmaBench.WsSequencer.Model

variable {p : Program Int Unit} {s t : State p} {cn : Nat} {wn : Fin p.numWorkers}

/-! ## Numbers of a batch -/

theorem fillResponses_wr (base : Nat) (l : List Wr) :
    (fillResponses base l).map (fun x => Wr.mk x.port x.client) = l := by
  induction l generalizing base with
  | nil => rfl
  | cons x xs ih => rw [fillResponses, List.map_cons, ih]

theorem fillResponses_value (base : Nat) (l : List Wr) :
    (fillResponses base l).map (·.value) = List.range' base l.length := by
  induction l generalizing base with
  | nil => rfl
  | cons x xs ih => rw [fillResponses, List.map_cons, ih, List.length_cons, List.range'_succ]

theorem fillResponses_port {base : Nat} {l : List Wr} {x : Reserved}
    (h : x ∈ fillResponses base l) : ⟨x.port, x.client⟩ ∈ l := by
  rw [← fillResponses_wr base l]
  exact List.mem_map_of_mem (f := fun x : Reserved => Wr.mk x.port x.client) h

/-- A client gets as many numbers as its requests in the batch. -/
theorem length_numbersFor_fill (base : Nat) (l : List Wr) :
    (numbersFor cn (fillResponses base l)).length = (l.filter (·.client = cn)).length := by
  conv_rhs => rw [← fillResponses_wr base l]
  rw [List.filter_map, List.length_map, numbersFor, List.length_map]
  rfl

theorem numbersFor_fill_sublist (cn base : Nat) (l : List Wr) :
    (numbersFor cn (fillResponses base l)).Sublist (List.range' base l.length) := by
  rw [← fillResponses_value]
  exact List.filter_sublist.map _

/-- A port splits what is reserved. -/
theorem filter_port_perm (i : Nat) (l : List Reserved) :
    (l.filter (·.port = i) ++ l.filter (·.port ≠ i)).Perm l := by
  simpa using List.filter_append_perm (fun x : Reserved => decide (x.port = i)) l

theorem numbersFor_port_perm (cn i : Nat) (l : List Reserved) :
    (numbersFor cn (l.filter (·.port = i)) ++ numbersFor cn (l.filter (·.port ≠ i))).Perm
      (numbersFor cn l) := by
  have h := ((filter_port_perm i l).filter (·.client = cn)).map (·.value)
  rwa [List.filter_append, List.map_append] at h

/-! ## The invariant -/

/-- The numbers for the requests of a client to a worker increase, and each is
in one response or reserved for one. -/
structure Numbered (s : State p) (cn : Nat) (wn : Fin p.numWorkers) : Prop where
  once : (numbersOf cn wn s.generated ++ numbersFor cn (s.reserved wn)).Perm (s.given cn wn)
  increasing : (s.given cn wn).Pairwise (· < ·)
  below : ∀ v ∈ s.given cn wn, v < s.counter
  length : (s.given cn wn).length = (s.requests.client cn).past.answered wn

/-- A worker has a work request for each entry of its batch, and posts all
responses by the last port. -/
structure WorkerOk (s : State p) (wn : Fin p.numWorkers) : Prop where
  clients : (s.wr wn).map (·.client) = (s.requests.worker wn).batch.map (·.1)
  wrPort : ∀ x ∈ s.wr wn, x.port < p.cfg.numServerPorts
  idle : s.posting wn = none → s.reserved wn = []
  ahead : ∀ i, s.posting wn = some i →
    ∀ x ∈ s.reserved wn, i ≤ x.port ∧ x.port < p.cfg.numServerPorts

structure Counts (s : State p) : Prop where
  numbers : s.numbers = Multiset.range s.counter
  pair : ∀ cn wn, Numbered s cn wn
  worker : ∀ wn, WorkerOk s wn
  responses : ∀ cn, (s.requests.client cn).responses =
    (s.wire.filter (·.client = cn)).length + ∑ wn, (numbersFor cn (s.reserved wn)).length

theorem counts_start : Counts (State.start p) := by
  refine ⟨?_, fun cn wn => ⟨.nil, .nil, fun _ h => absurd h List.not_mem_nil, rfl⟩,
    fun wn => ⟨rfl, fun _ h => absurd h List.not_mem_nil, fun _ => rfl,
      fun _ _ _ h => absurd h List.not_mem_nil⟩, fun cn => ?_⟩
  · simp [State.numbers, State.generated, State.start]
  · simp [State.start, Requests.Model.State.start, numbersFor]

/-! ## Requests travel -/

/-- A step of clients or slots that answers no request. -/
theorem Counts.keep (h : Counts s) {r : Requests.Model.State p}
    (hresp : ∀ cn, (r.client cn).responses = (s.requests.client cn).responses)
    (hans : ∀ cn, (r.client cn).past.answered = (s.requests.client cn).past.answered)
    (hbatch : ∀ wn, (r.worker wn).batch = (s.requests.worker wn).batch) :
    Counts { s with requests := r } := by
  refine ⟨h.numbers, fun cn wn => ?_, fun wn => ?_, fun cn => (hresp cn).trans (h.responses cn)⟩
  · have hp := h.pair cn wn
    refine ⟨hp.once, hp.increasing, hp.below, hp.length.trans ?_⟩
    show _ = (r.client cn).past.answered wn
    rw [hans]
  · have hw := h.worker wn
    refine ⟨hw.clients.trans ?_, hw.wrPort, hw.idle, hw.ahead⟩
    show _ = (r.worker wn).batch.map _
    rw [hbatch]

theorem Counts.send (h : Counts s) (cn : Nat) (wn : Fin p.numWorkers) :
    Counts { s with requests := { s.requests with
      client :=
        Function.update s.requests.client cn ((s.requests.client cn).send cn wn ()) } } := by
  refine h.keep (fun c => ?_) (fun c => ?_) fun _ => rfl
  all_goals
    by_cases hc : c = cn
    · subst hc
      simp [Requests.Model.Client.send]
    · simp [hc]

theorem Counts.deliver (h : Counts s) (cn : Nat) (x : Requests.Model.Write p)
    (rest : List (Requests.Model.Write p)) :
    Counts { s with requests := s.requests.deliver cn x rest } := by
  refine h.keep (fun c => ?_) (fun c => ?_) fun _ => rfl
  all_goals
    by_cases hc : c = cn
    · subst hc
      simp [Requests.Model.State.deliver]
    · simp [Requests.Model.State.deliver, hc]

theorem Counts.miss (h : Counts s) (wn : Fin p.numWorkers) :
    Counts { s with requests := s.requests.miss wn } := by
  refine h.keep (fun _ => rfl) (fun _ => rfl) fun v => ?_
  by_cases hv : v = wn
  · subst hv
    simp [Requests.Model.State.miss]
  · simp [Requests.Model.State.miss, hv]

theorem Counts.hit (h : Counts s) (wn : Fin p.numWorkers)
    (hport : (s.requests.worker wn).pass.cbI < p.cfg.numServerPorts) :
    Counts { s with
      requests := s.requests.hit wn
      wr := Function.update s.wr wn (s.wr wn ++
        [⟨(s.requests.worker wn).pass.cbI, (s.requests.worker wn).pass.cltI⟩]) } := by
  have hclient : ∀ c, ((s.requests.hit wn).client c).responses = (s.requests.client c).responses ∧
      ((s.requests.hit wn).client c).past.answered = (s.requests.client c).past.answered := by
    intro c
    by_cases hc : c = (s.requests.worker wn).pass.cltI
    · subst hc
      simp [Requests.Model.State.hit]
    · simp [Requests.Model.State.hit, hc]
  refine ⟨h.numbers, fun c v => ?_, fun v => ?_, fun c => (hclient c).1.trans (h.responses c)⟩
  · have hp := h.pair c v
    refine ⟨hp.once, hp.increasing, hp.below, hp.length.trans ?_⟩
    show _ = ((s.requests.hit wn).client c).past.answered v
    rw [(hclient c).2]
  · have hw := h.worker v
    refine ⟨?_, ?_, hw.idle, hw.ahead⟩
    · by_cases hv : v = wn
      · subst hv
        simp [Requests.Model.State.hit, hw.clients]
      · simpa [Requests.Model.State.hit, hv] using hw.clients
    · by_cases hv : v = wn
      · subst hv
        intro x hx
        simp only [Function.update_self, List.mem_append, List.mem_singleton] at hx
        obtain hx | rfl := hx
        · exact hw.wrPort x hx
        · exact hport
      · simpa [hv] using hw.wrPort

/-! ## Numbers are reserved -/

/-- The batch has the requests that the work requests answer. -/
theorem WorkerOk.answers (h : WorkerOk s wn) (cn : Nat) :
    (s.requests.worker wn).answers cn = ((s.wr wn).filter (·.client = cn)).length := by
  have hcount := congrArg (List.countP (· = cn)) h.clients
  rw [List.countP_map, List.countP_map, List.countP_eq_length_filter,
    List.countP_eq_length_filter] at hcount
  exact hcount.symm

/-- The numbers of a batch are those from the counter on. -/
theorem range_fill (base : Nat) (l : List Wr) :
    Multiset.range base + ((fillResponses base l).map (·.value) : Multiset Nat) =
      Multiset.range (base + l.length) := by
  rw [fillResponses_value, List.range'_eq_map_range, Multiset.range_add]
  rfl

/-- The numbers of a batch follow those given before. -/
theorem Numbered.reserve (h : Numbered s cn wn) (l : List Wr) :
    (s.given cn wn ++ numbersFor cn (fillResponses s.counter l)).Pairwise (· < ·) ∧
    ∀ v ∈ s.given cn wn ++ numbersFor cn (fillResponses s.counter l), v < s.counter + l.length := by
  have hsub := numbersFor_fill_sublist cn s.counter l
  have hmem : ∀ v ∈ numbersFor cn (fillResponses s.counter l),
      s.counter ≤ v ∧ v < s.counter + l.length := fun v hv =>
    List.mem_range'_1.1 (hsub.subset hv)
  constructor
  · refine List.pairwise_append.2 ⟨h.increasing, .sublist hsub List.pairwise_lt_range', ?_⟩
    intro a ha b hb
    exact Nat.lt_of_lt_of_le (h.below a ha) (hmem b hb).1
  · intro v hv
    obtain hv | hv := List.mem_append.1 hv
    · exact Nat.lt_add_right _ (h.below v hv)
    · exact (hmem v hv).2

/-- Nothing is reserved for an empty batch. -/
theorem Counts.finish_empty (h : Counts s) (hwr : s.wr wn = []) :
    Counts { s with requests := s.requests.finish wn } := by
  have hans : ∀ c, (s.requests.worker wn).answers c = 0 := fun c => by
    rw [(h.worker wn).answers, hwr]
    rfl
  have hbatch := (h.worker wn).clients
  rw [hwr, List.map_nil, eq_comm, List.map_eq_nil_iff] at hbatch
  refine h.keep (fun c => ?_) (fun c => ?_) fun v => ?_
  · simp [Requests.Model.State.finish, hans]
  · simp [Requests.Model.State.finish, hans, bump]
  · by_cases hv : v = wn
    · subst hv
      simp [Requests.Model.State.finish, hbatch]
    · simp [Requests.Model.State.finish, hv]

theorem fetchAndAdd_of_ne (hwr : s.wr wn ≠ []) (r : Requests.Model.State p) :
    s.fetchAndAdd wn r =
      { s with
        requests := r
        counter := s.counter + (s.wr wn).length
        wr := Function.update s.wr wn []
        posting := Function.update s.posting wn (some 0)
        reserved := Function.update s.reserved wn (fillResponses s.counter (s.wr wn))
        given := fun cn => Function.update (s.given cn) wn
          (s.given cn wn ++ numbersFor cn (fillResponses s.counter (s.wr wn))) } := if_neg hwr

theorem Counts.numbered_fetchAndAdd (h : Counts s) (hwr : s.wr wn ≠ [])
    (hnone : s.reserved wn = []) (c : Nat) (v : Fin p.numWorkers) :
    Numbered (s.fetchAndAdd wn (s.requests.finish wn)) c v := by
  have hp := h.pair c v
  rw [fetchAndAdd_of_ne hwr]
  by_cases hv : v = wn
  · subst hv
    have honce := hp.once
    rw [hnone, show numbersFor c [] = [] from rfl, List.append_nil] at honce
    obtain ⟨hinc, hbelow⟩ := hp.reserve (s.wr v)
    refine ⟨?_, ?_, ?_, ?_⟩
    · simpa [State.generated] using honce.append_right _
    · simpa using hinc
    · simpa using hbelow
    · simp [Requests.Model.State.finish, hp.length, length_numbersFor_fill, (h.worker v).answers]
  · refine ⟨?_, ?_, fun x hx => ?_, ?_⟩
    · simpa [hv, State.generated] using hp.once
    · simpa [hv] using hp.increasing
    · simp only [Function.update_of_ne hv] at hx
      exact Nat.lt_add_right _ (hp.below x hx)
    · simpa [hv, Requests.Model.State.finish] using hp.length

theorem WorkerOk.fetchAndAdd {v : Fin p.numWorkers} (hw : WorkerOk s v) (hwr : s.wr wn ≠ []) :
    WorkerOk (s.fetchAndAdd wn (s.requests.finish wn)) v := by
  rw [fetchAndAdd_of_ne hwr]
  by_cases hv : v = wn
  · subst hv
    refine ⟨by simp [Requests.Model.State.finish], by simp, by simp, fun i hi x hx => ?_⟩
    simp only [Function.update_self, Option.some.injEq] at hi hx
    exact ⟨hi ▸ Nat.zero_le _, hw.wrPort _ (fillResponses_port hx)⟩
  · refine ⟨?_, ?_, ?_, ?_⟩
    · simpa [hv, Requests.Model.State.finish] using hw.clients
    · simpa [hv] using hw.wrPort
    · simpa [hv] using hw.idle
    · simpa [hv] using hw.ahead

theorem Counts.fetchAndAdd (h : Counts s) (hidle : s.posting wn = none) :
    Counts (s.fetchAndAdd wn (s.requests.finish wn)) := by
  by_cases hwr : s.wr wn = []
  · rw [State.fetchAndAdd, if_pos hwr]
    exact h.finish_empty hwr
  have hnone := (h.worker wn).idle hidle
  refine ⟨?_, h.numbered_fetchAndAdd hwr hnone, fun v => (h.worker v).fetchAndAdd hwr, fun c => ?_⟩
  · have hsum := sum_update_add (Finset.mem_univ wn)
      (fun l : List Reserved => (l.map (·.value) : Multiset Nat)) s.reserved
      (fillResponses s.counter (s.wr wn))
    have hnum := h.numbers
    rw [fetchAndAdd_of_ne hwr]
    simp only [hnone, List.map_nil, Multiset.coe_nil, add_zero] at hsum
    simp only [State.numbers, State.generated] at hnum ⊢
    rw [hsum, ← add_assoc, hnum, range_fill]
  · have hsum := sum_update_add (Finset.mem_univ wn) (fun l => (numbersFor c l).length) s.reserved
      (fillResponses s.counter (s.wr wn))
    have hresp := h.responses c
    rw [fetchAndAdd_of_ne hwr]
    simp only [hnone, length_numbersFor_fill, ← (h.worker wn).answers] at hsum
    simp only [Requests.Model.State.finish]
    rw [show (numbersFor c []).length = 0 from rfl] at hsum
    omega

/-! ## Responses are posted and arrive -/

/-- What a post on port `i` sends to a client was reserved for it. -/
theorem numbersOf_postOn (i : Nat) (l : List Reserved) :
    numbersOf cn wn (postOn wn i l) = numbersFor cn (l.filter (·.port = i)) := by
  simp [numbersOf, postOn, numbersFor, List.filter_map, Function.comp_def]

theorem numbersOf_postOn_other {v : Fin p.numWorkers} (hv : v ≠ wn) (i : Nat)
    (l : List Reserved) : numbersOf cn v (postOn wn i l) = [] := by
  have hne : (wn : Nat) ≠ v := fun h => hv (Fin.ext h).symm
  simp [numbersOf, postOn, List.filter_map, Function.comp_def, hne]

theorem numbersOf_append (wn : Nat) (l l' : List Response) :
    numbersOf cn wn (l ++ l') = numbersOf cn wn l ++ numbersOf cn wn l' := by
  rw [numbersOf, List.filter_append, List.map_append]
  rfl

theorem values_postOn (wn i : Nat) (l : List Reserved) :
    (postOn wn i l).map (·.value) = (l.filter (·.port = i)).map (·.value) := by
  rw [postOn, List.map_map]
  rfl

theorem length_postOn (wn i : Nat) (l : List Reserved) :
    ((postOn wn i l).filter (·.client = cn)).length =
      (numbersFor cn (l.filter (·.port = i))).length := by
  simp [postOn, numbersFor, List.filter_map, Function.comp_def]

theorem post_of_lt {i : Nat} (hi : i < p.cfg.numServerPorts) :
    s.post wn i =
      { s with
        posting := Function.update s.posting wn (some (i + 1))
        reserved := Function.update s.reserved wn ((s.reserved wn).filter (·.port ≠ i))
        wire := s.wire ++ postOn wn i (s.reserved wn) } := if_pos hi

theorem Numbered.post {v : Fin p.numWorkers} (hp : Numbered s cn v) {i : Nat}
    (hi : i < p.cfg.numServerPorts) : Numbered (s.post wn i) cn v := by
  rw [post_of_lt hi]
  refine ⟨?_, hp.increasing, hp.below, hp.length⟩
  by_cases hv : v = wn
  · subst hv
    simp only [State.generated, ← List.append_assoc, numbersOf_append _ (_ ++ _),
      numbersOf_postOn, Function.update_self]
    rw [List.append_assoc]
    exact ((numbersFor_port_perm cn i _).append_left _).trans hp.once
  · simp only [State.generated, ← List.append_assoc, numbersOf_append _ (_ ++ _),
      numbersOf_postOn_other hv, Function.update_of_ne hv, List.append_nil]
    exact hp.once

theorem WorkerOk.post {v : Fin p.numWorkers} (hw : WorkerOk s v) {i : Nat}
    (hi : i < p.cfg.numServerPorts) (hpost : s.posting wn = some i) :
    WorkerOk (s.post wn i) v := by
  rw [post_of_lt hi]
  by_cases hv : v = wn
  · subst hv
    refine ⟨hw.clients, hw.wrPort, by simp, fun j hj x hx => ?_⟩
    simp only [Function.update_self, Option.some.injEq, List.mem_filter, decide_eq_true_eq]
      at hj hx
    have hx' := hw.ahead i hpost x hx.1
    omega
  · exact ⟨hw.clients, hw.wrPort, by simpa [hv] using hw.idle, by simpa [hv] using hw.ahead⟩

/-- After the last port the worker has nothing left to post. -/
theorem Counts.post_last (h : Counts s) {i : Nat} (hpost : s.posting wn = some i)
    (hlast : ¬i < p.cfg.numServerPorts) : Counts (s.post wn i) := by
  have hahead := (h.worker wn).ahead i hpost
  have hnone : s.reserved wn = [] := List.eq_nil_iff_forall_not_mem.2 fun x hx =>
    hlast (Nat.lt_of_le_of_lt (hahead x hx).1 (hahead x hx).2)
  rw [State.post, if_neg hlast]
  refine ⟨h.numbers, fun c v => ?_, fun v => ?_, h.responses⟩
  · have hp := h.pair c v
    exact ⟨hp.once, hp.increasing, hp.below, hp.length⟩
  · have hw := h.worker v
    by_cases hv : v = wn
    · subst hv
      exact ⟨hw.clients, hw.wrPort, fun _ => hnone, by simp⟩
    · exact ⟨hw.clients, hw.wrPort, by simpa [hv] using hw.idle, by simpa [hv] using hw.ahead⟩

theorem Counts.post (h : Counts s) {i : Nat} (hpost : s.posting wn = some i) :
    Counts (s.post wn i) := by
  by_cases hi : i < p.cfg.numServerPorts
  · refine ⟨?_, fun c v => (h.pair c v).post hi, fun v => (h.worker v).post hi hpost, fun c => ?_⟩
    · have hsum := sum_update_add (Finset.mem_univ wn)
        (fun l : List Reserved => (l.map (·.value) : Multiset Nat)) s.reserved
        ((s.reserved wn).filter (·.port ≠ i))
      have hall := Multiset.coe_eq_coe.2 ((filter_port_perm i (s.reserved wn)).map (·.value))
      have hnum := h.numbers
      rw [post_of_lt hi]
      simp only [State.numbers, State.generated, List.map_append, values_postOn,
        ← Multiset.coe_add] at hnum hall hsum ⊢
      rw [← hall, ← add_assoc] at hsum
      rw [← hnum, ← add_right_cancel hsum]
      abel
    · have hsum := sum_update_add (Finset.mem_univ wn) (fun l => (numbersFor c l).length) s.reserved
        ((s.reserved wn).filter (·.port ≠ i))
      have hall := (numbersFor_port_perm c i (s.reserved wn)).length_eq
      have hresp := h.responses c
      rw [post_of_lt hi]
      simp only [List.filter_append, List.length_append, length_postOn] at hall ⊢
      omega
  · exact h.post_last hpost hi

/-- The client of a response in flight has one to come. -/
theorem Counts.responses_pos (h : Counts s) {r : Response} (hr : r ∈ s.wire) :
    0 < (s.requests.client r.client).responses := by
  have hmem : r ∈ s.wire.filter (·.client = r.client) :=
    List.mem_filter.2 ⟨hr, decide_eq_true rfl⟩
  rw [h.responses]
  exact Nat.add_pos_left (List.length_pos_of_mem hmem) _

theorem arrive_past (s : State p) (k : Nat) (r : Response) (cn : Nat) :
    ((s.arrive k r).requests.client cn).past = (s.requests.client cn).past := by
  by_cases hc : cn = r.client
  · subst hc
    simp [State.arrive, Requests.Model.Client.arrive]
  · simp [State.arrive, hc]

theorem Counts.arrive (h : Counts s) {k : Nat} {r : Response} (hr : s.wire[k]? = some r) :
    Counts (s.arrive k r) := by
  have hperm := arrive_perm hr
  have hgen : (s.arrive k r).generated.Perm s.generated := by
    show (s.received ++ [r] ++ s.wire.eraseIdx k).Perm (s.received ++ s.wire)
    rw [List.append_assoc]
    exact hperm.append_left _
  have hworker : ∀ v, WorkerOk (s.arrive k r) v := fun v =>
    ⟨(h.worker v).clients, (h.worker v).wrPort, (h.worker v).idle, (h.worker v).ahead⟩
  refine ⟨?_, fun c v => ?_, hworker, fun c => ?_⟩
  · have hnum := h.numbers
    unfold State.numbers at hnum ⊢
    rw [Multiset.coe_eq_coe.2 (hgen.map (·.value))]
    exact hnum
  · have hp := h.pair c v
    refine ⟨?_, hp.increasing, hp.below, hp.length.trans ?_⟩
    · exact (((hgen.filter _).map _).append_right _).trans hp.once
    · rw [arrive_past]
  · have hresp := h.responses c
    have hlen := (hperm.filter (·.client = c)).length_eq
    by_cases hc : c = r.client
    · subst hc
      simp only [State.arrive, Function.update_self, Requests.Model.Client.arrive]
      simp only [List.filter_cons, decide_true, if_true, List.length_cons] at hlen
      omega
    · simp only [State.arrive, Function.update_of_ne hc]
      simp only [List.filter_cons, decide_eq_true_eq, if_neg (Ne.symm hc)] at hlen
      omega

/-! ## All runs -/

theorem fetchAndAdd_requests (s : State p) (wn : Fin p.numWorkers)
    (r : Requests.Model.State p) : (s.fetchAndAdd wn r).requests = r := by
  unfold State.fetchAndAdd
  split <;> rfl

theorem post_requests (s : State p) (wn : Fin p.numWorkers) (i : Nat) :
    (s.post wn i).requests = s.requests := by
  unfold State.post
  split <;> rfl

/-- Each step is one of the clients and workers of `Requests.Model`, or a post
that these do not see. -/
theorem step_requests {e : Event p} (h : Counts s) (hstep : Step s e t) :
    t.requests = s.requests ∨ ∃ e', Requests.Model.Step s.requests e' t.requests := by
  cases e with
  | send cn wn =>
    obtain ⟨r, hreq, rfl⟩ := hstep
    exact .inr ⟨.send cn wn (), hreq⟩
  | deliver cn =>
    obtain ⟨r, hreq, rfl⟩ := hstep
    exact .inr ⟨.deliver cn, hreq⟩
  | arrive k =>
    obtain ⟨r, hget, rfl⟩ := hstep
    exact .inr ⟨.arrive r.client, h.responses_pos (List.mem_of_getElem? hget), rfl⟩
  | poll wn =>
    obtain ⟨-, r, hreq, rfl⟩ := hstep
    exact .inr ⟨.poll wn, hreq⟩
  | fetchAndAdd wn =>
    obtain ⟨-, r, hreq, rfl⟩ := hstep
    rw [fetchAndAdd_requests]
    exact .inr ⟨.finish wn, hreq⟩
  | post wn =>
    obtain ⟨i, -, rfl⟩ := hstep
    exact .inl (post_requests s wn i)

theorem step_reachable {e : Event p} (hr : Reachable (Requests.Model.system p) s.requests)
    (h : Counts s) (hstep : Step s e t) : Reachable (Requests.Model.system p) t.requests := by
  rcases step_requests h hstep with hsame | hreq
  · exact hsame ▸ hr
  · obtain ⟨e', hreq⟩ := hreq
    exact hr.step (e := e') hreq

theorem step_counts {e : Event p} (hB : 0 < p.cfg.unsigBatch) (hP : 0 < p.cfg.numServerPorts)
    (hr : Reachable (Requests.Model.system p) s.requests) (h : Counts s) (hstep : Step s e t) :
    Counts t := by
  cases e with
  | send cn wn =>
    obtain ⟨r, ⟨-, -, rfl⟩, rfl⟩ := hstep
    exact h.send cn wn
  | deliver cn =>
    obtain ⟨r, ⟨-, x, rest, -, rfl⟩, rfl⟩ := hstep
    exact h.deliver cn x rest
  | arrive k =>
    obtain ⟨r, hget, rfl⟩ := hstep
    exact h.arrive hget
  | poll wn =>
    obtain ⟨-, r, ⟨-, hreq⟩, rfl⟩ := hstep
    unfold State.poll
    split at hreq
    · next hfound =>
      obtain ⟨-, rfl⟩ := hreq
      simp only [hfound, if_true]
      exact h.hit wn (Postlist.Worker.passes_inv hB hP (reachable_pass hr wn)).cbI_lt
    · next hmiss =>
      subst hreq
      simp only [hmiss]
      exact h.miss wn
  | fetchAndAdd wn =>
    obtain ⟨hidle, r, ⟨-, rfl⟩, rfl⟩ := hstep
    exact h.fetchAndAdd hidle
  | post wn =>
    obtain ⟨i, hi, rfl⟩ := hstep
    exact h.post hi

theorem reachable_counts (hB : 0 < p.cfg.unsigBatch) (hP : 0 < p.cfg.numServerPorts)
    (h : Reachable (sequencer p) s) :
    Reachable (Requests.Model.system p) s.requests ∧ Counts s := by
  refine h.invariant
    (P := fun s => Reachable (Requests.Model.system p) s.requests ∧ Counts s)
    (fun s hs => ?_) fun s e t _ ih hstep =>
      ⟨step_reachable ih.1 ih.2 hstep, step_counts hB hP ih.1 ih.2 hstep⟩
  rw [show s = _ from hs]
  exact ⟨.init rfl, counts_start⟩

end RdmaBench.WsSequencer.Counter
