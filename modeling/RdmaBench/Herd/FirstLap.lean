import RdmaBench.Herd.Service

/-! # Workers of HERD are not held up

The end of a batch is a step of HERD only if the batch is orderly and passes the asserts
of MICA. On the first lap of the log every batch does: a request moves the head by one
entry at most, and what the head has not come to again is not lost. -/

namespace RdmaBench.Herd.FirstLap
open RdmaBench.Lib.Asserts RdmaBench.Lib.Runs RdmaBench.Lib.Window
open RdmaBench.Postlist.Worker (Polling unsigBatch)
open RdmaBench.Mica.Model RdmaBench.Mica.Log RdmaBench.Mica.Populate
open RdmaBench.Requests.Model RdmaBench.Requests.Delivery RdmaBench.Requests.Turns
open RdmaBench.Herd.Protocol RdmaBench.Herd.Cache RdmaBench.Herd.Service

variable {c : Setup} {s t : Global c} {wn : Fin c.program.numWorkers}

/-- The requests that a worker has answered. -/
def served (s : Global c) (wn : Fin c.program.numWorkers) : Nat :=
  ∑ cn ∈ Finset.range c.numClients, (s.net.client cn).past.answered wn

/-- The bytes of the log that the keys and the answered requests can take. -/
def used (s : Global c) (wn : Fin c.program.numWorkers) : Nat :=
  cell herdValueSize * (c.numKeys + served s wn)

/-! ## Counting responses -/

/-- Each request of a batch has its response. -/
theorem sum_answers {cfg : Postlist.Worker.Config} {v : Server} {first : Nat}
    (hN : 0 < cfg.numClients) (h : Turn cfg v first) :
    ∑ cn ∈ Finset.range cfg.numClients, v.answers cn = v.batch.length := by
  have hmem : ∀ cn ∈ v.batch.map Prod.fst, cn < cfg.numClients := by
    intro cn hcn
    obtain ⟨x, hx, rfl⟩ := List.mem_map.mp hcn
    obtain ⟨j, -, hxj⟩ := h.polled x hx
    rw [hxj]
    exact Nat.mod_lt _ hN
  have hclients : (Finset.range cfg.numClients).filter (· ∈ v.batch.map Prod.fst) =
      (v.batch.map Prod.fst).toFinset := by
    ext cn
    rw [Finset.mem_filter, Finset.mem_range, List.mem_toFinset]
    exact ⟨And.right, fun hcn => ⟨hmem cn hcn, hcn⟩⟩
  calc ∑ cn ∈ Finset.range cfg.numClients, v.answers cn
      = ∑ cn ∈ Finset.range cfg.numClients, if cn ∈ v.batch.map Prod.fst then 1 else 0 :=
        Finset.sum_congr rfl fun cn _ => answers_eq h cn
    _ = (v.batch.map Prod.fst).toFinset.card := by rw [← Finset.card_filter, hclients]
    _ = v.batch.length := by rw [List.toFinset_card_of_nodup h.nodup, List.length_map]

theorem served_quiet {e : Event c.program} (hq : Quiet e) (h : Step s.net e t.net) :
    served t wn = served s wn :=
  Finset.sum_congr rfl fun cn _ => by rw [(past_quiet hq h cn).2]

theorem served_send {cn : Nat} {v : Fin c.program.numWorkers} {r : HerdReq}
    (h : Step s.net (.send cn v r) t.net) : served t wn = served s wn := by
  obtain ⟨-, -, hnet⟩ := h
  refine Finset.sum_congr rfl fun cn' _ => ?_
  rw [hnet]
  by_cases hc : cn' = cn
  · subst hc
    simp only [Function.update_self, Client.send]
  · simp only [Function.update_of_ne hc]

theorem served_finish (hs : Reachable (system c.program) s.net) {v : Fin c.program.numWorkers}
    (h : Step s.net (.finish v) t.net) :
    served t wn = served s wn + if wn = v then (s.net.worker v).batch.length else 0 := by
  obtain ⟨-, hnet⟩ := h
  unfold served
  rw [hnet]
  split
  · next heq =>
    subst heq
    obtain ⟨first, hturn⟩ := reachable_turn (p := c.program) c.clients_pos hs wn
    rw [← sum_answers c.clients_pos hturn]
    simp only [State.finish, bump_self]
    exact Finset.sum_add_distrib
  · next hne => simp only [State.finish, bump_of_ne hne, Nat.add_zero]

/-! ## The head of the log -/

/-- A state that HERD reaches is related to contents of the cache. -/
theorem reachable_related (h : Reachable (service c) s) : ∃ t, Related s t := by
  refine h.invariant (P := fun s => ∃ t, Related s t) ?_ ?_
  · intro s hs
    obtain ⟨t, -, hrel⟩ := (service_simulates c).init s hs
    exact ⟨t, hrel⟩
  · rintro s l s' - ⟨t, hrel⟩ hstep
    obtain ⟨t', -, hrel'⟩ := (service_simulates c).step s l s' t hstep hrel
    exact ⟨t', hrel'⟩

/-- The head of a worker's log while that is on its first lap. -/
def HeadBound (s : Global c) (wn : Fin c.program.numWorkers) : Prop :=
  used s wn + 80 ≤ c.logCap → (s.kv wn).logHead ≤ used s wn ∧ (s.kv wn).logCap = c.logCap

theorem headBound_of_same (hserved : served t wn = served s wn) (hkv : t.kv wn = s.kv wn)
    (h : HeadBound s wn) : HeadBound t wn := by
  unfold HeadBound used at h ⊢
  rwa [hserved, hkv]

/-- MICA's part of a batch, if the log has room for one entry a request. -/
theorem batch_ok {u : Contents c.program.numWorkers} (h : Related s u) (hhead : HeadBound s wn)
    (hroom : cell herdValueSize * (c.numKeys + served s wn + (s.net.worker wn).batch.length) + 80 ≤
      c.logCap) :
    ∃ kv resps, micaBatchOp (s.kv wn) (s.ops wn) = .ok (kv, resps) ∧
      Orderly (s.kv wn) (s.ops wn) kv ∧ kv.logCap = c.logCap ∧
      kv.logHead ≤ cell herdValueSize *
        (c.numKeys + served s wn + (s.net.worker wn).batch.length) := by
  obtain ⟨E, puts, hinv, -, -⟩ := h.stores wn
  have hlen : (s.ops wn).length = (s.net.worker wn).batch.length := by
    rw [Global.ops, List.length_map]
  rw [Nat.mul_add] at hroom ⊢
  obtain ⟨hle, hcap⟩ := hhead (by unfold used; omega)
  unfold used at hle
  have hops : ∀ op ∈ s.ops wn, op.opcode ≠ opGet →
      op.valLen.toNat = herdValueSize ∧ ValidPut op := by
    intro op hop hput
    have hsize := ops_size h op hop hput
    exact ⟨hsize, by rw [ValidPut, hsize]; decide⟩
  obtain ⟨kv, resps, hbatch, hhead', hcap', hfits, hspared⟩ :=
    batch_firstLap hinv hops (by rw [hlen]; omega)
  rw [hlen] at hhead'
  exact ⟨kv, resps, hbatch, ⟨hfits, hspared⟩, hcap'.trans hcap, by omega⟩

theorem served_init (h : (service c).init s) : served s wn = 0 := by
  refine Finset.sum_eq_zero fun cn _ => ?_
  rw [h.1]
  rfl

theorem headBound_init (h : (service c).init s) (wn : Fin c.program.numWorkers) :
    HeadBound s wn := by
  obtain ⟨index, log, kv, h0, hp⟩ := h.2 wn
  obtain ⟨-, -, -, hcap, hhead⟩ := populate_spec h0 hp
  unfold HeadBound used
  rw [served_init h, Nat.add_zero]
  intro hroom
  rw [Int.toNat_natCast] at hcap hhead
  exact ⟨Nat.le_of_eq (hhead hroom), hcap⟩

theorem reachable_headBound (h : Reachable (service c) s) (wn : Fin c.program.numWorkers) :
    HeadBound s wn := by
  revert wn
  refine h.invariant (P := fun s => ∀ wn, HeadBound s wn) (fun s => headBound_init) ?_
  intro s l t hs ih hstep wn
  cases l with
  | quiet =>
    obtain ⟨⟨e, hq, hnet⟩, hkv⟩ := hstep
    exact headBound_of_same (served_quiet hq hnet) (by rw [hkv]) (ih wn)
  | send cn v r =>
    obtain ⟨hnet, hkv⟩ := hstep
    exact headBound_of_same (served_send hnet) (by rw [hkv]) (ih wn)
  | replies v answers =>
    obtain ⟨hfinish, kv, resps, hbatch, -, hkv, -⟩ := hstep
    obtain ⟨u, hrel⟩ := reachable_related hs
    have hserved : served t wn = _ := served_finish hrel.net hfinish
    by_cases hv : wn = v
    · subst hv
      rw [if_pos rfl] at hserved
      unfold HeadBound used
      rw [hserved, hkv, Function.update_self, ← Nat.add_assoc]
      intro hroom
      -- MICA's result is the one of the step
      obtain ⟨kv', resps', hbatch', -, hcap, hhead⟩ := batch_ok hrel (ih wn) hroom
      rw [hbatch] at hbatch'
      cases hbatch'
      exact ⟨hhead, hcap⟩
    · rw [if_neg hv] at hserved
      exact headBound_of_same hserved (by rw [hkv, Function.update_of_ne hv]) (ih wn)

/-! ## Workers go on -/

/-- As long as the log has room for the keys, for one entry for each request that the
worker has answered and for one more batch, the worker is never held up, whatever the
others have done: inside a pass it can poll the next slot, and at the end of a pass MICA
processes the batch, which is orderly, and the worker responds. -/
theorem worker_goes_on {c : Setup} {s : Global c} (hports : 0 < c.numServerPorts)
    (h : Reachable (service c) s) (wn : Fin c.program.numWorkers)
    (hroom : cell herdValueSize * (c.numKeys + served s wn + c.postlist) + 80 ≤ c.logCap) :
    if Polling c.program.cfg (s.net.worker wn).pass then
      ∃ t, Step s.net (.poll wn) t.net ∧ (service c).step s .quiet t
    else ∃ answers t, (service c).step s (.replies wn answers) t := by
  obtain ⟨u, hrel⟩ := reachable_related h
  split
  · next hpoll =>
    have hpostlist : c.program.cfg.postlist < c.program.cfg.unsigBatch :=
      Nat.lt_of_le_of_lt c.postlist_le (by decide : maxBatchSize < unsigBatch)
    obtain ⟨net, hstep⟩ := poll_enabled (by decide : 0 < unsigBatch) hports hpostlist hrel.net hpoll
    exact ⟨⟨net, s.kv⟩, hstep, ⟨.poll wn, trivial, hstep⟩, rfl⟩
  · next hend =>
    obtain ⟨first, hturn⟩ := reachable_turn (p := c.program) c.clients_pos hrel.net wn
    have hlen : (s.net.worker wn).batch.length ≤ c.postlist := hturn.length ▸ hturn.wrI_le
    have hmono := Nat.mul_le_mul_left (cell herdValueSize)
      (Nat.add_le_add_left hlen (c.numKeys + served s wn))
    obtain ⟨kv, resps, hbatch, horderly, -, -⟩ :=
      batch_ok hrel (reachable_headBound h wn) (by omega)
    exact ⟨_, ⟨s.net.finish wn, Function.update s.kv wn kv⟩, ⟨hend, rfl⟩, kv, resps, hbatch,
      horderly, rfl, rfl⟩

/-- HERD with the constants of `main.h`, one port and postlists of 16. -/
def herdSetup : Setup where
  numClients := 70
  numWorkers := 12
  windowSize := 32
  numServerPorts := 1
  numUdQps := 1
  postlist := 16
  numBkts := 2097152
  logCap := 1073741824
  numKeys := 8388608
  hash i := ⟨UInt64.ofNat i, 0, 0, 0⟩
  clients_pos := Nat.succ_pos 69
  window_pos := Nat.succ_pos 31
  postlist_le := by decide

/-- The stores of HERD are set up and populated. -/
theorem herd_starts : ∃ s, (service herdSetup).init s := by
  obtain ⟨kv, h0⟩ : ∃ kv, micaInit (fun _ _ => ⟨false, 0, 0⟩) (fun _ => 0) 0
      herdSetup.numBkts herdSetup.logCap = .ok kv := by
    unfold micaInit
    rw [check_true (by decide), ok_bind, check_true (by decide +kernel), ok_bind,
      check_true (by decide +kernel), ok_bind]
    exact ⟨_, rfl⟩
  obtain ⟨kv', -, hp, -⟩ : ∃ kv' E, micaPopulateFixedLen herdSetup.hash kv herdSetup.numKeys
      herdValueSize = .ok kv' ∧ _ := populate_ok h0 (by decide) (by decide) (by decide) (by decide)
  exact ⟨⟨State.start _, fun _ => kv'⟩, rfl, fun _ => ⟨_, _, kv, h0, hp⟩⟩

/-- At the start of HERD, and at the end of a pass with a request in the batch. -/
theorem worker_goes_on_pass :
    (∃ s, Reachable (service herdSetup) s ∧ ∀ wn,
      ∃ t, Step s.net (.poll wn) t.net ∧ (service herdSetup).step s .quiet t) ∧
    ∃ s, Reachable (service tinySetup) s ∧ (s.net.worker (0 : Fin 1)).batch = [(0, 0)] ∧
      ∃ answers t, (service tinySetup).step s (.replies (0 : Fin 1) answers) t := by
  constructor
  · obtain ⟨s, hs⟩ := herd_starts
    refine ⟨s, .init hs, fun wn => ?_⟩
    have hgo := worker_goes_on (by decide) (.init hs) wn (by rw [served_init hs]; decide)
    have hpoll : Polling herdSetup.program.cfg (s.net.worker wn).pass := by
      rw [hs.1]
      exact ⟨(by decide : 0 < 70), (by decide : 0 < 16)⟩
    rwa [if_pos hpoll] at hgo
  · obtain ⟨kv0, kv1, -, -, h0, h1, -⟩ := tiny_store
    have hs := (tiny_accepted h0 h1).reachable
    have hserved : served (c := tinySetup) ⟨tinyAccepted, fun _ => kv1⟩ (0 : Fin 1) = 0 := rfl
    have hend : ¬Polling tinySetup.program.cfg (tinyAccepted.worker (0 : Fin 1)).pass := by decide
    have hgo := worker_goes_on (by decide) hs (0 : Fin 1) (by rw [hserved]; decide)
    rw [if_neg hend] at hgo
    exact ⟨_, hs, rfl, hgo⟩

end RdmaBench.Herd.FirstLap
