import RdmaBench.Requests.Delivery

/-! # The batch of a worker

A pass polls each client at most once, so that the requests of a batch come from
different clients, and each is the oldest one of its client that is not answered. -/

namespace RdmaBench.Requests.Turns
open RdmaBench.Lib.Runs RdmaBench.Lib.SlotRing
open RdmaBench.Postlist.Worker (Config Polling hrdModAdd)
open RdmaBench.Requests.Model RdmaBench.Requests.Delivery

variable {Slot Req : Type} {p : Program Slot Req} {s t : State p} {cn : Nat}
  {wn : Fin p.numWorkers}

/-- The clients of the batch are some of those that the pass has polled, in turn from
`first` on. -/
structure Turn (cfg : Config) (v : Server) (first : Nat) : Prop where
  cltI : v.pass.cltI = (first + v.pass.pollI) % cfg.numClients
  polled : ∀ x ∈ v.batch, ∃ j < v.pass.pollI, x.1 = (first + j) % cfg.numClients
  nodup : (v.batch.map Prod.fst).Nodup
  length : v.batch.length = v.pass.wrI
  wrI_le : v.pass.wrI ≤ cfg.postlist

/-- The worker at the start of a pass. -/
theorem turn_start {cfg : Config} {v : Server} (hclt : v.pass.cltI < cfg.numClients)
    (hpoll : v.pass.pollI = 0) (hwr : v.pass.wrI = 0) (hbatch : v.batch = []) :
    Turn cfg v v.pass.cltI := by
  refine ⟨?_, ?_, ?_, by rw [hbatch, hwr]; rfl, by omega⟩
  · rw [hpoll, Nat.add_zero, Nat.mod_eq_of_lt hclt]
  · rw [hbatch]
    simp
  · rw [hbatch]
    exact List.nodup_nil

theorem Turn.miss {first : Nat} (hN : 0 < p.cfg.numClients)
    (h : Turn p.cfg (s.worker wn) first) :
    Turn p.cfg ((s.miss wn).worker wn) first := by
  simp only [State.miss, Function.update_self]
  refine ⟨?_, fun x hx => ?_, h.nodup, h.length, h.wrI_le⟩
  · show hrdModAdd (s.worker wn).pass.cltI _ = _
    rw [h.cltI, hrdModAdd_mod hN]
    rfl
  · obtain ⟨j, hj, hx⟩ := h.polled x hx
    exact ⟨j, Nat.lt_succ_of_lt hj, hx⟩

/-- A client that is polled is not one of those polled before. -/
theorem Turn.hit {first : Nat} (hN : 0 < p.cfg.numClients)
    (h : Turn p.cfg (s.worker wn) first) (hpoll : Polling p.cfg (s.worker wn).pass) :
    Turn p.cfg ((s.hit wn).worker wn) first := by
  simp only [State.hit, Function.update_self]
  have hlt := hpoll.1
  refine ⟨?_, fun x hx => ?_, ?_, ?_, hpoll.2⟩
  · show hrdModAdd (s.worker wn).pass.cltI _ = _
    rw [h.cltI, hrdModAdd_mod hN]
    rfl
  · show ∃ j < (s.worker wn).pass.pollI + 1, _
    rcases List.mem_append.mp hx with hx | hx
    · obtain ⟨j, hj, hx⟩ := h.polled x hx
      exact ⟨j, Nat.lt_succ_of_lt hj, hx⟩
    · rw [List.mem_singleton.mp hx]
      exact ⟨_, Nat.lt_succ_self _, h.cltI⟩
  · rw [List.map_append, List.map_cons, List.map_nil, List.nodup_append]
    refine ⟨h.nodup, List.nodup_singleton _, ?_⟩
    rintro a ha b hb rfl
    obtain ⟨x, hx, rfl⟩ := List.mem_map.mp ha
    obtain ⟨j, hj, hxj⟩ := h.polled x hx
    rw [List.mem_singleton, h.cltI] at hb
    exact slot_ne (show first + j < first + (s.worker wn).pass.pollI by omega) (by omega)
      (hxj.symm.trans hb)
  · rw [List.length_append, h.length]
    rfl

theorem reachable_turn (hN : 0 < p.cfg.numClients) (h : Reachable (system p) s)
    (wn : Fin p.numWorkers) : ∃ first, Turn p.cfg (s.worker wn) first := by
  revert wn
  refine h.invariant (P := fun s => ∀ wn, ∃ first, Turn p.cfg (s.worker wn) first)
    ?_ ?_
  · intro s hs wn
    rw [show s = _ from hs]
    exact ⟨_, turn_start hN rfl rfl rfl⟩
  · intro s e t hs ih hstep wn
    cases e with
    | send cn v r =>
      obtain ⟨-, -, rfl⟩ := hstep
      exact ih wn
    | deliver cn =>
      obtain ⟨-, x, rest, -, rfl⟩ := hstep
      exact ih wn
    | arrive cn =>
      obtain ⟨-, rfl⟩ := hstep
      exact ih wn
    | poll v =>
      obtain ⟨hpoll, hstep⟩ := hstep
      obtain ⟨first, hturn⟩ := ih wn
      by_cases hv : wn = v
      · subst hv
        split at hstep
        · obtain ⟨-, rfl⟩ := hstep
          exact ⟨first, hturn.hit hN hpoll⟩
        · subst hstep
          exact ⟨first, hturn.miss hN⟩
      · split at hstep
        · obtain ⟨-, rfl⟩ := hstep
          exact ⟨first, by simpa [State.hit, hv] using hturn⟩
        · subst hstep
          exact ⟨first, by simpa [State.miss, hv] using hturn⟩
    | finish v =>
      obtain ⟨-, rfl⟩ := hstep
      by_cases hv : wn = v
      · subst hv
        obtain ⟨first, hturn⟩ := ih wn
        refine ⟨_, turn_start ?_ ?_ ?_ ?_⟩
        · simp only [State.finish, Function.update_self]
          show (s.worker wn).pass.cltI < _
          rw [hturn.cltI]
          exact Nat.mod_lt _ hN
        · simp [State.finish, Postlist.Worker.finish]
        · simp [State.finish, Postlist.Worker.finish]
        · simp [State.finish]
      · simpa [State.finish, hv] using ih wn

/-! ## The requests of a batch -/

/-- An entry of a batch: the oldest request of its client that is not answered, as it
was accepted. -/
structure Oldest (s : State p) (wn : Fin p.numWorkers) (x : Nat × Nat) (r : Req) : Prop where
  client : x.1 < p.cfg.numClients
  one : ((s.client x.1).past.accepted wn).length = (s.client x.1).past.answered wn + 1
  sent : ((s.client x.1).past.sent wn)[(s.client x.1).past.answered wn]? = some r
  took : p.mailbox.Took (s.region x.2) r

/-- A client has at most one entry in the batch. -/
theorem filter_batch {cfg : Config} {v : Server} {first : Nat} (h : Turn cfg v first)
    {x : Nat × Nat} (hx : x ∈ v.batch) : v.batch.filter (·.1 = x.1) = [x] := by
  have hnodup := h.nodup
  generalize v.batch = l at hx hnodup ⊢
  induction l with
  | nil => cases hx
  | cons y l ih =>
    rw [List.map_cons, List.nodup_cons] at hnodup
    have hnone : ∀ z, z.1 = y.1 → z ∉ l := by
      intro z hz hmem
      exact hnodup.1 (hz ▸ List.mem_map_of_mem hmem)
    rcases List.mem_cons.mp hx with rfl | hx
    · rw [List.filter_cons_of_pos (by simp), List.filter_eq_nil_iff.mpr]
      intro z hz
      simpa using fun heq => hnone z heq hz
    · have hne : y.1 ≠ x.1 := fun heq => hnone x heq.symm hx
      rw [List.filter_cons_of_neg (by simpa using hne)]
      exact ih hx hnodup.2

theorem oldest_of_batch (hW : 0 < p.windowSize) (hN : 0 < p.cfg.numClients)
    (h : Reachable (system p) s) {x : Nat × Nat} (hx : x ∈ (s.worker wn).batch) :
    ∃ r, Oldest s wn x r := by
  obtain ⟨first, hturn⟩ := reachable_turn hN h wn
  have hcn : x.1 < p.cfg.numClients := by
    obtain ⟨j, -, hxj⟩ := hturn.polled x hx
    rw [hxj]
    exact Nat.mod_lt _ hN
  have honce := reachable_exactlyOnce hW h hcn wn
  have hflow := ((reachable_delivers hW h).client x.1 hcn).flow
  have hans := hflow.answered_le wn
  have hsent := hflow.answered_le_sent wn
  simp only [stages] at hans hsent
  -- the entries of the client are `x` alone
  have hbatch := honce.batched
  rw [filter_batch hturn hx] at hbatch
  have hlen := congrArg List.length hbatch
  simp only [entries, List.length_map, List.length_range', List.length_singleton] at hlen
  have hone : ((s.client x.1).past.accepted wn).length = (s.client x.1).past.answered wn + 1 := by
    omega
  have hoff : x.2 = offset p wn x.1 ((s.client x.1).past.answered wn % p.windowSize) := by
    rw [← hlen] at hbatch
    simp only [entries, List.range'_one, List.map_cons, List.map_nil, List.cons.injEq,
      and_true] at hbatch
    rw [hbatch]
  have hkept := honce.unchanged _ (Nat.le_refl _) (by omega)
  rw [← hoff] at hkept
  obtain ⟨hk, hacc⟩ := List.getElem?_eq_some_iff.mp hkept
  have horder := honce.inOrder
  have htake : (s.client x.1).past.answered wn <
      (((s.client x.1).past.sent wn).take ((s.client x.1).past.accepted wn).length).length := by
    rw [← horder.length_eq]
    exact hk
  have htook := horder.get hk htake
  refine ⟨_, hcn, hone, ?_, by rw [← hacc]; exact htook⟩
  rw [List.get_eq_getElem, List.getElem_take]
  exact List.getElem?_eq_getElem _

end RdmaBench.Requests.Turns
