import RdmaBench.Herd.Cache
import RdmaBench.Lib.Simulation
import RdmaBench.Mica.Populate
import RdmaBench.Requests.Turns

/-! # HERD from end to end

Clients, the network, the request region, the workers and their stores together. A worker
hands the slots of its batch to MICA when its pass has ended, and MICA's responses are
pointers into its log. The SENDs are inlined: the values are read when they are posted,
after the whole batch. HERD then is the cache, for postlists of any size that MICA takes. -/

namespace RdmaBench.Herd.Service
open RdmaBench.Lib.Asserts RdmaBench.Lib.Runs RdmaBench.Lib.Simulation RdmaBench.Lib.SlotRing
open RdmaBench.Lib.Window
open RdmaBench.Mica.Model RdmaBench.Mica.Log RdmaBench.Mica.Store RdmaBench.Mica.Entries
open RdmaBench.Mica.Linear RdmaBench.Mica.Populate
open RdmaBench.Requests.Model RdmaBench.Requests.Delivery RdmaBench.Requests.Turns
open RdmaBench.Herd.Protocol RdmaBench.Herd.Cache

/-- The sizes of HERD and the hash that makes keys. Of the asserts of `run_worker` only
the one about the batches of MICA is needed. -/
structure Setup where
  numClients : Nat
  numWorkers : Nat
  windowSize : Nat
  numServerPorts : Nat
  numUdQps : Nat
  postlist : Nat
  numBkts : Nat
  logCap : Nat
  numKeys : Nat
  hash : Nat → MicaKey
  clients_pos : 0 < numClients
  window_pos : 0 < windowSize
  postlist_le : postlist ≤ maxBatchSize

abbrev Setup.program (c : Setup) : Program MicaOp HerdReq :=
  herd c.numClients c.numWorkers c.windowSize c.numServerPorts c.numUdQps c.postlist

structure Global (c : Setup) where
  net : State c.program
  kv : Fin c.program.numWorkers → MicaKv

/-- `op_ptr_arr`: the slots of a batch, as they are when MICA reads them. -/
def Global.ops {c : Setup} (s : Global c) (wn : Fin c.program.numWorkers) : List MicaOp :=
  (s.net.worker wn).batch.map fun x => s.net.region x.2

/-- The bytes of a response: `sgl.length` is `val_len`, `sgl.addr` is `val_ptr`. -/
def payload (kv : MicaKv) (resp : MicaResp) : List UInt8 :=
  match resp.valPtr with
  | none => []
  | some ptr => (List.range resp.valLen.toNat).map fun i => kv.htLog (ptr + i)

/-- The steps of the network and of a pass, which nothing is seen of outside. -/
def Quiet {p : Program MicaOp HerdReq} : Event p → Prop
  | .deliver _ | .arrive _ | .poll _ => True
  | .send _ _ _ | .finish _ => False

/-- The batch leaves the entries alone that its lookups found, and stays inside the log. -/
def Orderly (kv : MicaKv) (ops : List MicaOp) (kv' : MicaKv) : Prop :=
  (∀ q ∈ insertions kv (.batchOp ops), Fits q.1 q.2) ∧ ∀ op ∈ ops, Spared kv kv'.logHead op

/-- HERD, as long as batches are orderly. -/
def service (c : Setup) : System (Global c) (Label c.program.numWorkers) where
  init s := s.net = State.start c.program ∧ ∀ wn, ∃ index log kv,
    micaInit index log 0 c.numBkts c.logCap = .ok kv ∧
      micaPopulateFixedLen c.hash kv c.numKeys herdValueSize = .ok (s.kv wn)
  step s l t := match l with
    | .quiet => (∃ e, Quiet e ∧ Step s.net e t.net) ∧ t.kv = s.kv
    | .send cn wn r => Step s.net (.send cn wn r) t.net ∧ t.kv = s.kv
    | .replies wn answers => Step s.net (.finish wn) t.net ∧ ∃ kv resps,
      micaBatchOp (s.kv wn) (s.ops wn) = .ok (kv, resps) ∧ Orderly (s.kv wn) (s.ops wn) kv ∧
        t.kv = Function.update s.kv wn kv ∧
        answers = ((s.net.worker wn).batch.map Prod.fst).zip (resps.map (payload kv))

variable {c : Setup} {s t : Global c} {wn : Fin c.program.numWorkers}

/-! ## Requests that wait -/

/-- The requests of a client to a worker that are not answered. -/
def unanswered {p : Program MicaOp HerdReq} (s : State p) (cn : Nat)
    (wn : Fin p.numWorkers) : List HerdReq :=
  ((s.client cn).past.sent wn).drop ((s.client cn).past.answered wn)

/-- Quiet steps send and answer nothing. -/
theorem past_quiet {p : Program MicaOp HerdReq} {s t : State p} {e : Event p} (hq : Quiet e)
    (h : Step s e t) (cn : Nat) : (t.client cn).past.sent = (s.client cn).past.sent ∧
      (t.client cn).past.answered = (s.client cn).past.answered := by
  have hsame : ∀ c (x : Client p), t.client = Function.update s.client c x →
      x.past.sent = (s.client c).past.sent → x.past.answered = (s.client c).past.answered →
      (t.client cn).past.sent = (s.client cn).past.sent ∧
        (t.client cn).past.answered = (s.client cn).past.answered := by
    intro c x ht hsent hans
    rw [ht]
    by_cases hc : cn = c
    · rw [hc, Function.update_self]
      exact ⟨hsent, hans⟩
    · rw [Function.update_of_ne hc]
      exact ⟨rfl, rfl⟩
  cases e with
  | send _ _ _ => cases hq
  | finish _ => cases hq
  | deliver c =>
    obtain ⟨-, x, rest, -, rfl⟩ := h
    exact hsame c _ rfl rfl rfl
  | arrive c =>
    obtain ⟨-, rfl⟩ := h
    exact hsame c _ rfl rfl rfl
  | poll v =>
    obtain ⟨-, h⟩ := h
    split at h
    · obtain ⟨-, rfl⟩ := h
      exact hsame _ _ rfl rfl rfl
    · subst h
      exact ⟨rfl, rfl⟩

theorem unanswered_send {p : Program MicaOp HerdReq} {s : State p} {cn : Nat}
    {wn : Fin p.numWorkers} {r : HerdReq} (hflow : (stages (s.client cn).past).Ok p.windowSize)
    (c : Nat) (v : Fin p.numWorkers) :
    unanswered { s with client := Function.update s.client cn ((s.client cn).send cn wn r) } c v =
      Function.update (unanswered s) cn (Function.update (unanswered s cn) wn
        (unanswered s cn wn ++ [r])) c v := by
  have hle := hflow.answered_le_sent wn
  simp only [stages] at hle
  unfold unanswered
  by_cases hc : c = cn
  · subst hc
    rw [Function.update_self]
    by_cases hv : v = wn
    · subst hv
      simp only [Function.update_self, Client.send]
      exact List.drop_append_of_le_length hle
    · simp only [Function.update_self, Function.update_of_ne hv, Client.send]
  · simp only [Function.update_of_ne hc]

/-- Each client of the batch gets one response. -/
theorem answers_eq {cfg : Postlist.Worker.Config} {v : Server} {first : Nat}
    (hturn : Turn cfg v first) (cn : Nat) :
    v.answers cn = if cn ∈ v.batch.map Prod.fst then 1 else 0 := by
  unfold Server.answers
  split
  · next hmem =>
    obtain ⟨x, hx, rfl⟩ := List.mem_map.mp hmem
    rw [filter_batch hturn hx]
    rfl
  · next hnot =>
    rw [List.length_eq_zero_iff, List.filter_eq_nil_iff]
    intro x hx
    simpa using fun (heq : x.1 = cn) => hnot (heq ▸ List.mem_map_of_mem hx)

/-- The end of a pass answers the oldest request of each client of the batch. -/
theorem unanswered_finish {p : Program MicaOp HerdReq} {s : State p} {wn : Fin p.numWorkers}
    {first : Nat} (hturn : Turn p.cfg (s.worker wn) first) (c : Nat) (v : Fin p.numWorkers) :
    unanswered (s.finish wn) c v =
      if v = wn ∧ c ∈ (s.worker wn).batch.map Prod.fst then (unanswered s c v).tail
      else unanswered s c v := by
  have hans := answers_eq hturn c
  unfold unanswered
  by_cases hv : v = wn
  · subst hv
    simp only [State.finish, bump_self, hans, true_and]
    split
    · rw [List.tail_drop]
    · rfl
  · simp only [State.finish, bump_of_ne hv, hv, false_and, if_false]

/-! ## Values -/

/-- The value of a PUT. -/
def bytes (op : MicaOp) : List UInt8 := (List.range op.valLen.toNat).map op.value

/-- The values that the workers start with. -/
def Setup.filled (c : Setup) : Values := fun key =>
  if key ∈ (List.range c.numKeys).map c.hash then
    some (List.replicate herdValueSize (UInt8.ofNat (key.word1 % 256)))
  else none

/-- The store of a worker holds the values `m`, or has forgotten them. -/
def Stores (kv : MicaKv) (m : Values) : Prop :=
  ∃ E puts, EntryInv kv (fun op => op.valLen.toNat = herdValueSize) E ∧ Current kv kv E puts ∧
    ∀ key, m key = (lastPut puts key).map bytes

theorem stores_filled {index log kv} (h0 : micaInit index log 0 c.numBkts c.logCap = .ok kv)
    {kv' : MicaKv} (h : micaPopulateFixedLen c.hash kv c.numKeys herdValueSize = .ok kv') :
    Stores kv' c.filled := by
  obtain ⟨E, hinv, hcur, -⟩ := populate_spec h0 h
  refine ⟨E, _, hinv, hcur, fun key => ?_⟩
  rw [lastPut_populated]
  unfold Setup.filled
  split
  · have hlen : (populateOp herdValueSize key).valLen.toNat = herdValueSize :=
      (populateOp_valid (by decide) (by decide) key).2
    rw [Option.map_some, bytes, hlen]
    simp [populateOp]
  · rfl

/-- The values after a request, and the PUTs after its operation. -/
theorem applyReq_record {m : Values} {puts : List MicaOp} {op : MicaOp} {r : HerdReq}
    (hr : r.Carried op) (hm : ∀ key, m key = (lastPut puts key).map bytes) (key : MicaKey) :
    applyReq m r key =
      (lastPut (if op.opcode = opGet then puts else op :: puts) key).map bytes := by
  cases r with
  | get k =>
    rw [if_pos hr.2]
    exact hm key
  | put k value =>
    obtain ⟨rfl, hop, hlen, hval⟩ := hr
    rw [if_neg (by rw [hop]; decide)]
    show Function.update m op.key _ key = _
    by_cases hk : key = op.key
    · rw [hk, Function.update_self, lastPut_same, Option.map_some, bytes, hlen]
      congr 1
      exact (List.map_congr_left fun i hi => hval i (List.mem_range.mp hi)).symm
    · rw [Function.update_of_ne hk, lastPut_other (Ne.symm hk)]
      exact hm key

theorem applyAll_record {l : List Item} {ops : List MicaOp} {m : Values} {puts : List MicaOp}
    (h : List.Forall₂ (fun op x => HerdReq.Carried x.req op) ops l)
    (hm : ∀ key, m key = (lastPut puts key).map bytes) (key : MicaKey) :
    applyAll m l key = (lastPut (record puts ops) key).map bytes := by
  induction h generalizing m puts with
  | nil => exact hm key
  | cons hx _ ih => exact ih (applyReq_record hx hm)

/-- The bytes of a response to a GET are the value. -/
theorem payload_allowed {kv : MicaKv} {puts : List MicaOp} {m : Values} {op : MicaOp}
    {r : HerdReq} {resp : MicaResp} (hr : r.Carried op) (ha : Answered puts kv op resp)
    (hm : ∀ key, m key = (lastPut puts key).map bytes) : Allowed m (payload kv resp) r := by
  unfold Answered at ha
  cases r with
  | get k =>
    obtain ⟨rfl, hop⟩ := hr
    rw [if_pos hop] at ha
    rcases ha with rfl | ⟨q, ptr, hlast, rfl, hval⟩
    · exact .inl rfl
    · right
      rw [hm, hlast, Option.map_some, bytes, payload]
      congr 1
      exact (List.map_congr_left fun i hi => hval i (List.mem_range.mp hi)).symm
  | put k value =>
    rw [if_neg (by rw [hr.2.1]; decide)] at ha
    rw [ha]
    rfl

/-! ## HERD is the cache -/

/-- A state of HERD and the contents of the cache. -/
structure Related (s : Global c) (t : Contents c.program.numWorkers) : Prop where
  net : Reachable (system c.program) s.net
  pending : ∀ cn < c.program.cfg.numClients, ∀ wn, t.pending cn wn = unanswered s.net cn wn
  stores : ∀ wn, Stores (s.kv wn) (t.store wn)

/-- The requests of a batch, as their clients have sent them. -/
theorem batch_requests {t : Contents c.program.numWorkers} (h : Related s t) {x : Nat × Nat}
    (hx : x ∈ (s.net.worker wn).batch) : x.1 < c.program.cfg.numClients ∧ ∃ r rest,
      t.pending x.1 wn = r :: rest ∧ r.Carried (s.net.region x.2) := by
  obtain ⟨r, hcn, -, hsent, htook⟩ :=
    oldest_of_batch (p := c.program) c.window_pos c.clients_pos h.net hx
  obtain ⟨hlt, hget⟩ := List.getElem?_eq_some_iff.mp hsent
  have hpend : t.pending x.1 wn = r ::
      ((s.net.client x.1).past.sent wn).drop ((s.net.client x.1).past.answered wn + 1) := by
    rw [h.pending x.1 hcn, unanswered, List.drop_eq_getElem_cons hlt, hget]
  exact ⟨hcn, r, _, hpend, carried_of_took htook⟩

/-- The PUTs of a batch have values of one size. -/
theorem ops_size {t : Contents c.program.numWorkers} (h : Related s t) :
    ∀ op ∈ s.ops wn, op.opcode ≠ opGet → op.valLen.toNat = herdValueSize := by
  intro op hop hput
  obtain ⟨x, hx, rfl⟩ := List.mem_map.mp hop
  obtain ⟨-, r, -, -, hcarried⟩ := batch_requests h hx
  cases r with
  | get k => exact absurd hcarried.2 hput
  | put k value => exact hcarried.2.2.1

/-- The request of a client that is answered next. -/
def nextReq (t : Contents c.program.numWorkers) (wn : Fin c.program.numWorkers) (cn : Nat) :
    HerdReq :=
  (t.pending cn wn).headD (.get ⟨0, 0, 0, 0⟩)

/-- The requests of a batch with their responses. -/
def items (t : Contents c.program.numWorkers) (wn : Fin c.program.numWorkers) (kv : MicaKv)
    (batch : List (Nat × Nat)) (resps : List MicaResp) : List Item :=
  (batch.zip resps).map fun y => ⟨y.1.1, nextReq t wn y.1.1, payload kv y.2⟩

section Items

variable {t : Contents c.program.numWorkers} {kv : MicaKv} {batch : List (Nat × Nat)}
  {resps : List MicaResp}

theorem items_cn (hlen : batch.length = resps.length) :
    (items t wn kv batch resps).map Item.cn = batch.map Prod.fst := by
  have hfst := List.map_fst_zip (Nat.le_of_eq hlen)
  calc (items t wn kv batch resps).map Item.cn
      = ((batch.zip resps).map Prod.fst).map Prod.fst := by simp [items, List.map_map]
    _ = batch.map Prod.fst := by rw [hfst]

theorem items_reply : (items t wn kv batch resps).map Item.reply =
    (batch.map Prod.fst).zip (resps.map (payload kv)) := by
  rw [List.zip_map, items, List.map_map]
  rfl

/-- What holds of every entry of a batch and its request holds for the items. -/
theorem items_forall₂ {R : MicaOp → Item → Prop} {f : Nat × Nat → MicaOp}
    (hlen : batch.length = resps.length)
    (h : ∀ x ∈ batch, ∀ resp ∈ resps, R (f x) ⟨x.1, nextReq t wn x.1, payload kv resp⟩) :
    List.Forall₂ R (batch.map f) (items t wn kv batch resps) := by
  have hfst := List.map_fst_zip (Nat.le_of_eq hlen)
  have hops : batch.map f = (batch.zip resps).map fun y => f y.1 := by
    calc batch.map f = ((batch.zip resps).map Prod.fst).map f := by rw [hfst]
      _ = _ := List.map_map
  rw [hops, items, List.forall₂_map_left_iff, List.forall₂_map_right_iff, List.forall₂_same]
  intro y hy
  obtain ⟨hx, hr⟩ := List.of_mem_zip hy
  exact h y.1 hx y.2 hr

end Items

/-- The requests of a batch are served together. -/
theorem batch_served {t : Contents c.program.numWorkers} (h : Related s t) {kv : MicaKv}
    {resps : List MicaResp} (hbatch : micaBatchOp (s.kv wn) (s.ops wn) = .ok (kv, resps))
    (hspared : ∀ op ∈ s.ops wn, Spared (s.kv wn) kv.logHead op) :
    ∃ l : List Item, l.map Item.cn = (s.net.worker wn).batch.map Prod.fst ∧
      l.map Item.reply = ((s.net.worker wn).batch.map Prod.fst).zip (resps.map (payload kv)) ∧
      (∀ x ∈ l, ∃ rest, t.pending x.cn wn = x.req :: rest) ∧
      (∀ x ∈ l, Allowed (applyAll (t.store wn) l) x.answer x.req) ∧
      Stores kv (applyAll (t.store wn) l) := by
  obtain ⟨E, puts, hinv, hcur, hm⟩ := h.stores wn
  have hreq : ∀ x ∈ (s.net.worker wn).batch, ∃ rest,
      t.pending x.1 wn = nextReq t wn x.1 :: rest ∧
        (nextReq t wn x.1).Carried (s.net.region x.2) := by
    intro x hx
    obtain ⟨-, r, rest, hpend, hcarried⟩ := batch_requests h hx
    have hnext : nextReq t wn x.1 = r := by rw [nextReq, hpend]; rfl
    exact ⟨rest, by rw [hnext, hpend], by rwa [hnext]⟩
  obtain ⟨E', hinv', hcur', hall⟩ := batch_current hinv hcur (ops_size h) hspared hbatch
  obtain ⟨hlen, hzip⟩ := List.forall₂_iff_zip.mp hall
  rw [Global.ops, List.length_map] at hlen
  have hcarried : List.Forall₂ (fun op x => HerdReq.Carried x.req op) (s.ops wn)
      (items t wn kv (s.net.worker wn).batch resps) :=
    items_forall₂ hlen fun x hx resp _ => (hreq x hx).choose_spec.2
  have hvalues := applyAll_record hcarried hm
  refine ⟨_, items_cn hlen, items_reply, fun y hy => ?_, fun y hy => ?_, E', _, hinv', hcur',
    hvalues⟩
  · obtain ⟨⟨x, resp⟩, hx, rfl⟩ := List.mem_map.mp hy
    obtain ⟨rest, hpend, -⟩ := hreq x (List.of_mem_zip hx).1
    exact ⟨rest, hpend⟩
  · obtain ⟨⟨x, resp⟩, hx, rfl⟩ := List.mem_map.mp hy
    obtain ⟨-, -, hcar⟩ := hreq x (List.of_mem_zip hx).1
    refine payload_allowed hcar (hzip ?_) hvalues
    rw [Global.ops, List.zip_map_left]
    exact List.mem_map.mpr ⟨(x, resp), hx, rfl⟩

theorem replies_related {t : Contents c.program.numWorkers} {s' : Global c} (h : Related s t)
    {answers : List (Nat × List UInt8)} (hstep : (service c).step s (.replies wn answers) s') :
    ∃ t', (cache c.program.numWorkers c.filled).step t (.replies wn answers) t' ∧
      Related s' t' := by
  obtain ⟨hfinish, kv, resps, hbatch, ⟨-, hspared⟩, hkv, rfl⟩ := hstep
  obtain ⟨l, hcn, hreply, hpend, hallowed, hstores⟩ := batch_served h hbatch hspared
  obtain ⟨first, hturn⟩ := reachable_turn (p := c.program) c.clients_pos h.net wn
  obtain ⟨order, u, hperm, hserves, hstore, hother, hpending⟩ :=
    serves_batch (by rw [hcn]; exact hturn.nodup) hpend hallowed
  rw [hreply] at hperm
  refine ⟨u, ⟨?_, order, hperm, hserves⟩, .step (e := .finish wn) h.net hfinish,
    fun cn hcn' v => ?_, fun v => ?_⟩
  · rw [← hreply, List.map_map]
    show (l.map Item.cn).Nodup
    rw [hcn]
    exact hturn.nodup
  · obtain ⟨-, hnet⟩ := hfinish
    rw [hpending, h.pending cn hcn', hnet, unanswered_finish hturn, hcn]
  · rw [hkv]
    by_cases hv : v = wn
    · rw [hv, Function.update_self, hstore]
      exact hstores
    · rw [Function.update_of_ne hv, hother v hv]
      exact h.stores v

/-- HERD with its stores, its batches and its request region is a cache: it has only runs
that the cache has, with the same requests and responses. -/
theorem service_simulates (c : Setup) :
    Simulates (service c) (cache c.program.numWorkers c.filled) Related := by
  refine ⟨fun s hs => ?_, fun s l s' t hstep h => ?_⟩
  · obtain ⟨hnet, hkv⟩ := hs
    refine ⟨_, rfl, .init hnet, fun cn _ wn => ?_, fun wn => ?_⟩
    · rw [hnet]
      rfl
    · obtain ⟨index, log, kv, h0, hp⟩ := hkv wn
      exact stores_filled h0 hp
  · cases l with
    | quiet =>
      obtain ⟨⟨e, hq, hnet⟩, hkv⟩ := hstep
      refine ⟨t, rfl, .step h.net hnet, fun cn hcn wn => ?_, fun wn => ?_⟩
      · obtain ⟨hsent, hans⟩ := past_quiet hq hnet cn
        rw [h.pending cn hcn, unanswered, unanswered, hsent, hans]
      · rw [hkv]
        exact h.stores wn
    | send cn wn r =>
      obtain ⟨hnet, hkv⟩ := hstep
      refine ⟨_, rfl, .step (e := .send cn wn r) h.net hnet, fun cn' hcn' v => ?_, fun v => ?_⟩
      · obtain ⟨hcn, -, hs'⟩ := hnet
        have hflow := ((reachable_delivers c.window_pos h.net).client cn hcn).flow
        rw [hs', unanswered_send hflow]
        by_cases hc : cn' = cn
        · subst hc
          simp only [Function.update_self]
          by_cases hv : v = wn
          · rw [hv, Function.update_self, Function.update_self, h.pending cn' hcn']
          · rw [Function.update_of_ne hv, Function.update_of_ne hv, h.pending cn' hcn']
        · simp only [Function.update_of_ne hc]
          exact h.pending cn' hcn' v
      · rw [hkv]
        exact h.stores v
    | replies wn answers => exact replies_related h hstep

/-- Whatever the clients send and however they, the network and the workers take turns,
HERD's responses are those of the cache: a worker answers each client in the order of its
requests, with an acknowledgement for a PUT, and for a GET with the value of the last PUT
of the key that it has served, in some order inside a batch, or with nothing. What waits
in the cache is what has been sent and not answered. -/
theorem herd_is_cache {c : Setup} {l : List (Label c.program.numWorkers)} {s : Global c}
    (h : Run (service c) l s) : ∃ t, Run (cache c.program.numWorkers c.filled) l t ∧
      ∀ cn < c.numClients, ∀ wn, t.pending cn wn = unanswered s.net cn wn := by
  obtain ⟨t, hrun, hrel⟩ := (service_simulates c).run h
  exact ⟨t, hrun, hrel.pending⟩

/-- One client, one worker and one key, whose value has bytes 5. -/
def tinySetup : Setup where
  numClients := 1
  numWorkers := 1
  windowSize := 1
  numServerPorts := 1
  numUdQps := 1
  postlist := 1
  numBkts := 1
  logCap := 2097152
  numKeys := 1
  hash _ := ⟨0, 5, 0, 0⟩
  clients_pos := Nat.one_pos
  window_pos := Nat.one_pos
  postlist_le := by decide

/-- The operation that a GET of the key becomes in a cleared slot. -/
def tinyOp : MicaOp := ⟨⟨0, 5, 0, 0⟩, opGet, 0, fun _ => 0⟩

/-- The populated store answers the GET. -/
theorem tiny_store : ∃ kv0 kv1 kv2 resp,
    micaInit (fun _ _ => ⟨false, 0, 0⟩) (fun _ => 0) 0 1 2097152 = .ok kv0 ∧
    micaPopulateFixedLen tinySetup.hash kv0 1 32 = .ok kv1 ∧
    micaBatchOp kv1 [tinyOp] = .ok (kv2, [resp]) ∧
    payload kv2 resp = List.replicate 32 5 ∧ Spared kv1 kv2.logHead tinyOp := by
  have hrun : (do
      let kv0 ← (micaInit (fun _ _ => ⟨false, 0, 0⟩) (fun _ => 0) 0 1 2097152).toOption
      let kv1 ← (micaPopulateFixedLen tinySetup.hash kv0 1 32).toOption
      let r ← (micaBatchOp kv1 [tinyOp]).toOption
      return (r.2.map (payload r.1), decide (Spared kv1 r.1.logHead tinyOp)) :
      Option (List (List UInt8) × Bool)) = some ([List.replicate 32 5], true) := by
    decide +kernel
  obtain ⟨kv0, h0, hrun⟩ := Option.bind_eq_some_iff.mp hrun
  obtain ⟨kv1, h1, hrun⟩ := Option.bind_eq_some_iff.mp hrun
  obtain ⟨⟨kv2, resps⟩, h2, hrun⟩ := Option.bind_eq_some_iff.mp hrun
  have h2 := ok_of_toOption h2
  obtain ⟨resp, rfl, -⟩ := batchOne_ok h2
  obtain ⟨hpay, hsp⟩ := Prod.mk.inj (Option.some.inj hrun)
  exact ⟨kv0, kv1, kv2, resp, ok_of_toOption h0, ok_of_toOption h1, h2,
    (List.cons.inj hpay).1, of_decide_eq_true hsp⟩

/-- The client sends a GET, which is delivered and accepted. -/
def tinySent : State tinySetup.program :=
  { State.start tinySetup.program with
    client := Function.update (State.start tinySetup.program).client 0
      (((State.start tinySetup.program).client 0).send 0 (0 : Fin 1) (.get ⟨0, 5, 0, 0⟩)) }

def tinyAccepted : State tinySetup.program :=
  (tinySent.deliver 0 ⟨(0 : Fin 1), 0, .get ⟨0, 5, 0, 0⟩⟩ []).hit (0 : Fin 1)

theorem tiny_steps :
    Step (State.start tinySetup.program) (.send 0 (0 : Fin 1) (.get ⟨0, 5, 0, 0⟩)) tinySent ∧
    Step tinySent (.deliver 0) (tinySent.deliver 0 ⟨(0 : Fin 1), 0, .get ⟨0, 5, 0, 0⟩⟩ []) ∧
    Step (tinySent.deliver 0 ⟨(0 : Fin 1), 0, .get ⟨0, 5, 0, 0⟩⟩ []) (.poll (0 : Fin 1))
      tinyAccepted ∧
    Step tinyAccepted (.finish (0 : Fin 1)) (tinyAccepted.finish (0 : Fin 1)) := by
  refine ⟨⟨by decide, fun h => absurd h.2 (by decide), rfl⟩, ⟨by decide, _, [], rfl, rfl⟩,
    ⟨by decide, ?_⟩, by decide, rfl⟩
  rw [if_pos (by decide)]
  exact ⟨fun h => absurd h.2 (by decide), rfl⟩

/-- The worker has accepted the request, and is at the end of its pass. -/
theorem tiny_accepted {kv0 kv1 : MicaKv}
    (h0 : micaInit (fun _ _ => ⟨false, 0, 0⟩) (fun _ => 0) 0 1 2097152 = .ok kv0)
    (h1 : micaPopulateFixedLen tinySetup.hash kv0 1 32 = .ok kv1) :
    Run (service tinySetup) [.send 0 (0 : Fin 1) (.get ⟨0, 5, 0, 0⟩), .quiet, .quiet]
      ⟨tinyAccepted, fun _ => kv1⟩ := by
  obtain ⟨hsend, hdeliver, hpoll, -⟩ := tiny_steps
  have r0 : Run (service tinySetup) [] ⟨State.start tinySetup.program, fun _ => kv1⟩ :=
    .nil ⟨rfl, fun _ => ⟨_, _, kv0, h0, h1⟩⟩
  have r1 : Run (service tinySetup) [.send 0 (0 : Fin 1) (.get ⟨0, 5, 0, 0⟩)]
      ⟨tinySent, fun _ => kv1⟩ := .snoc r0 ⟨hsend, rfl⟩
  have r2 : Run (service tinySetup) [.send 0 (0 : Fin 1) (.get ⟨0, 5, 0, 0⟩), .quiet]
      ⟨_, fun _ => kv1⟩ := .snoc r1 ⟨⟨.deliver 0, trivial, hdeliver⟩, rfl⟩
  exact .snoc r2 ⟨⟨.poll (0 : Fin 1), trivial, hpoll⟩, rfl⟩

theorem tiny_run : ∃ s, Run (service tinySetup)
    [.send 0 (0 : Fin 1) (.get ⟨0, 5, 0, 0⟩), .quiet, .quiet,
      .replies (0 : Fin 1) [(0, List.replicate 32 5)]] s := by
  obtain ⟨kv0, kv1, kv2, resp, h0, h1, h2, hpay, hsp⟩ := tiny_store
  obtain ⟨-, -, -, hfinish⟩ := tiny_steps
  have hins : insertions kv1 (.batchOp [tinyOp]) = [] := by
    show batchInsertions kv1 [(tinyOp, lookup kv1 tinyOp.key)] = []
    unfold batchInsertions
    rw [if_neg fun h => h.1 rfl]
    split
    · rfl
    · rfl
  have hzero : ∀ v : Fin 1, v = 0 := by decide
  refine ⟨⟨tinyAccepted.finish (0 : Fin 1), fun _ => kv2⟩, .snoc (tiny_accepted h0 h1)
    ⟨hfinish, kv2, [resp], h2, ⟨fun q hq => ?_, fun op hop => ?_⟩, funext fun v => ?_, ?_⟩⟩
  · have hq' : q ∈ insertions kv1 (.batchOp [tinyOp]) := hq
    rw [hins] at hq'
    cases hq'
  · rw [List.mem_singleton.mp hop]
    exact hsp
  · rw [show v = (0 : Fin 1) from hzero v]
    rfl
  · rw [List.map_singleton, hpay]
    rfl

theorem herd_is_cache_get : ∃ t, Run (cache 1 tinySetup.filled)
    [.send 0 (0 : Fin 1) (.get ⟨0, 5, 0, 0⟩), .quiet, .quiet,
      .replies (0 : Fin 1) [(0, List.replicate 32 5)]] t := by
  obtain ⟨s, hs⟩ := tiny_run
  obtain ⟨t, ht, -⟩ := herd_is_cache hs
  exact ⟨t, ht⟩

end RdmaBench.Herd.Service
