import RdmaBench.Mica.Linear

/-! # Filling a store

`mica_populate_fixed_len` inserts the keys that a hash makes of the first numbers,
each with bytes that are determined by the key. What follows is about the first lap of
the log, in which nothing is overwritten and no assert can fail. -/

namespace RdmaBench.Mica.Populate
open RdmaBench.Lib.Asserts RdmaBench.Lib.Runs
open RdmaBench.Mica.Model RdmaBench.Mica.Log RdmaBench.Mica.Store
open RdmaBench.Mica.Entries RdmaBench.Mica.Batch RdmaBench.Mica.Linear

/-- The asserts of `mica_populate_fixed_len`, of `mica_gen_keys` and of the insertions. -/
inductive Stop where
  | numKeys | valLen | notFresh | count
  | genKeys
  | insert (a : Assert)

/-- `mica_gen_keys`, for any hash in place of `CityHash128`. -/
def micaGenKeys (hash : Nat → MicaKey) (n : Int) : Except Stop (List MicaKey) := do
  check (n > 0 ∧ n ≤ 1073741824 / 16) .genKeys
  return (List.range n.toNat).map hash

/-- The PUT of a key. All bytes of its value are the lowest byte of the key's second
word. -/
def populateOp (valLen : Nat) (key : MicaKey) : MicaOp where
  key
  opcode := opPut
  valLen := UInt8.ofNat valLen
  value _ := UInt8.ofNat (key.word1 % 256)

def insertAll (kv : MicaKv) : List MicaOp → Except Assert MicaKv
  | [] => return kv
  | op :: ops => do insertAll (← micaInsertOne kv op) ops

def micaPopulateFixedLen (hash : Nat → MicaKey) (kv : MicaKv) (n valLen : Int) :
    Except Stop MicaKv := do
  check (n > 0) .numKeys
  check (valLen > 0 ∧ valLen ≤ maxValue) .valLen
  check (kv.numPutOp = 0 ∧ kv.numIndexEvictions = 0) .notFresh
  let keyArr ← micaGenKeys hash n
  let kv ← (insertAll kv (keyArr.map (populateOp valLen.toNat))).mapError .insert
  check (kv.numPutOp = n) .count
  return kv

variable {kv kv' : MicaKv} {op : MicaOp} {A : MicaOp → Prop} {E : Nat → Option MicaOp}
  {puts ops : List MicaOp} {len : Nat}

/-! ## The loop -/

/-- The bytes of the log that an entry with a value of `len` bytes takes. -/
def cell (len : Nat) : Nat := (len + 25) / 8 * 8

theorem padded_cell (h : op.valLen.toNat = len) : padded op = cell len := by
  rw [padded, lenToCopy, h, cell]
  omega

/-- An insertion moves the head by little, and on the first lap by the padded length. -/
theorem insertOne_step (h : LogInv kv) (hv : ValidPut op) (hi : micaInsertOne kv op = .ok kv') :
    kv'.logHead ≤ kv.logHead + 144 ∧ kv'.numPutOp = kv.numPutOp + 1 ∧ kv'.logCap = kv.logCap ∧
      (kv.logHead + padded op + 80 ≤ kv.logCap → kv'.logHead = kv.logHead + padded op) := by
  have hp64 := padded_le hv
  obtain ⟨_, _, _, _, hcap, _, _⟩ := insertOne_ok hi
  have hput : kv'.numPutOp = kv.numPutOp + 1 := by
    unfold micaInsertOne at hi
    obtain ⟨_, hi⟩ := check_bind hi
    cases hi
    rfl
  rcases insertOne_head h hv hi with ⟨_, hhead⟩ | ⟨_, _, hhead⟩ | ⟨_, hhead⟩
  · exact ⟨by omega, hput, hcap, fun _ => hhead⟩
  · exact ⟨by omega, hput, hcap, fun hle => by omega⟩
  · exact ⟨by omega, hput, hcap, fun _ => hhead⟩

/-- Insertions pass their asserts as long as the head has its 40 bits. -/
theorem insertAll_ok (hinv : EntryInv kv A E) (hcur : Current kv kv E puts)
    (hv : ∀ op ∈ ops, ValidPut op ∧ A op) (hb : kv.logHead + 144 * ops.length < 2 ^ 40) :
    ∃ kv' E', insertAll kv ops = .ok kv' ∧ EntryInv kv' A E' ∧
      Current kv' kv' E' (ops.reverse ++ puts) ∧ kv'.numPutOp = kv.numPutOp + ops.length ∧
      kv'.logCap = kv.logCap ∧ ∀ len, (∀ op ∈ ops, padded op = len) →
        kv.logHead + len * ops.length + 80 ≤ kv.logCap →
        kv'.logHead = kv.logHead + len * ops.length := by
  induction ops generalizing kv E puts with
  | nil => exact ⟨kv, E, rfl, hinv, hcur, rfl, rfl, fun _ _ _ => rfl⟩
  | cons op ops ih =>
    obtain ⟨hvalid, ha⟩ := hv op List.mem_cons_self
    have hlen : lenToCopy op ≤ 64 := by
      have := padded_le hvalid
      have := (padded_spec op).2.1
      omega
    rw [List.length_cons] at hb
    have hroom : kv.logHead + lenToCopy op + 8 < 2 ^ 40 := by omega
    obtain ⟨kv1, hi⟩ := insertOne_exists hinv.log hroom
    obtain ⟨hhead, hput, hcap, hlap⟩ := insertOne_step hinv.log hvalid hi
    obtain ⟨kv', E', hall, hinv', hcur', hput', hcap', hlap'⟩ :=
      ih (hinv.insert ha hi) (current_insert hinv hcur hi)
        (fun q hq => hv q (List.mem_cons_of_mem _ hq)) (by omega)
    refine ⟨kv', E', by rw [insertAll, hi]; exact hall, hinv', ?_, ?_, hcap'.trans hcap, ?_⟩
    · rwa [List.reverse_cons, List.append_assoc, List.singleton_append]
    · rw [hput', hput, List.length_cons]
      omega
    · intro len hlens hfit
      rw [List.length_cons, Nat.mul_succ] at hfit ⊢
      have hop := hlens op List.mem_cons_self
      have h1 := hlap (by omega)
      rw [hlap' len (fun q hq => hlens q (List.mem_cons_of_mem _ hq)) (by omega)]
      omega

/-! ## The populated store -/

/-- The keys of a populated store, and no others, have a PUT. -/
theorem lastPut_populated (valLen : Nat) (keys : List MicaKey) (key : MicaKey) :
    lastPut (keys.map (populateOp valLen)).reverse key =
      if key ∈ keys then some (populateOp valLen key) else none := by
  unfold lastPut
  split
  · next hmem =>
    have hsome : ((keys.map (populateOp valLen)).reverse.find? fun p => p.key = key).isSome := by
      rw [List.find?_isSome]
      exact ⟨populateOp valLen key, by simpa using ⟨key, hmem, rfl⟩, by simp [populateOp]⟩
    obtain ⟨q, hq⟩ := Option.isSome_iff_exists.mp hsome
    have hk := List.find?_some hq
    obtain ⟨k, -, rfl⟩ := List.mem_map.mp (List.mem_reverse.mp (List.mem_of_find?_eq_some hq))
    rw [hq, show k = key from of_decide_eq_true hk]
  · next hnot =>
    rw [List.find?_eq_none]
    intro q hq
    obtain ⟨k, hk, rfl⟩ := List.mem_map.mp (List.mem_reverse.mp hq)
    have hne : k ≠ key := by
      rintro rfl
      exact hnot hk
    exact fun hk => hne (of_decide_eq_true hk)

theorem populateOp_valid {valLen : Nat} (h : 1 ≤ valLen) (hle : valLen ≤ maxValue)
    (key : MicaKey) : ValidPut (populateOp valLen key) ∧
      (populateOp valLen key).valLen.toNat = valLen := by
  have hlen : (populateOp valLen key).valLen.toNat = valLen := by
    simp only [populateOp, maxValue] at hle ⊢
    rw [UInt8.toNat_ofNat']
    omega
  exact ⟨⟨by rwa [hlen], by rwa [hlen]⟩, hlen⟩

/-- A fresh store can be populated with any number of keys that `mica_gen_keys` makes. -/
theorem populate_ok {hash : Nat → MicaKey} {index log nodeId numBkts logCap} {n valLen : Nat}
    (h0 : micaInit index log nodeId numBkts logCap = .ok kv) (hn : 0 < n) (hmax : n ≤ 67108864)
    (hv : 1 ≤ valLen) (hle : valLen ≤ maxValue) :
    ∃ kv' E, micaPopulateFixedLen hash kv n valLen = .ok kv' ∧
      EntryInv kv' (fun op => op.valLen.toNat = valLen) E ∧
      Current kv' kv' E (((List.range n).map hash).map (populateOp valLen)).reverse ∧
      kv'.logCap = logCap.toNat ∧
      (cell valLen * n + 80 ≤ logCap.toNat → kv'.logHead = cell valLen * n) := by
  have hinv : EntryInv kv (fun op => op.valLen.toNat = valLen) fun _ => none := init_entries h0
  have hcur : Current kv kv (fun _ => none) [] := ⟨by simp, by simp⟩
  obtain ⟨hput, hevict, hhead, hcap⟩ : kv.numPutOp = 0 ∧ kv.numIndexEvictions = 0 ∧
      kv.logHead = 0 ∧ kv.logCap = logCap.toNat := by
    obtain ⟨_, h0⟩ := check_bind h0
    obtain ⟨_, h0⟩ := check_bind h0
    obtain ⟨_, h0⟩ := check_bind h0
    cases h0
    exact ⟨rfl, rfl, rfl, rfl⟩
  have hvalid : ∀ op ∈ ((List.range n).map hash).map (populateOp valLen),
      ValidPut op ∧ op.valLen.toNat = valLen := by
    intro op hop
    obtain ⟨key, -, rfl⟩ := List.mem_map.mp hop
    exact populateOp_valid hv hle key
  obtain ⟨kv', E, hall, hinv', hcur', hput', hcap', hlap⟩ :=
    insertAll_ok hinv hcur hvalid (by simp; omega)
  rw [List.append_nil] at hcur'
  refine ⟨kv', E, ?_, hinv', hcur', hcap'.trans hcap, fun hfit => ?_⟩
  · have hkeys : micaGenKeys hash n = .ok ((List.range n).map hash) := by
      unfold micaGenKeys
      rw [check_true (by omega), ok_bind, Int.toNat_natCast]
      rfl
    have hcount : (kv'.numPutOp : Int) = n := by
      rw [hput', hput]
      simp
    unfold micaPopulateFixedLen
    rw [check_true (by omega), ok_bind, check_true (by omega), ok_bind,
      check_true ⟨hput, hevict⟩, ok_bind, hkeys, ok_bind, Int.toNat_natCast, hall]
    show (check (kv'.numPutOp = (n : Int)) Stop.count >>= fun _ => pure kv') = _
    rw [check_true hcount, ok_bind]
    rfl
  · have hcells : ∀ op ∈ ((List.range n).map hash).map (populateOp valLen),
        padded op = cell valLen := fun op hop => padded_cell (hvalid op hop).2
    have hfinal := hlap _ hcells (by simpa [hhead, hcap] using hfit)
    simpa [hhead] using hfinal

/-- The store that populating a fresh one leaves. -/
theorem populate_spec {hash : Nat → MicaKey} {index log nodeId numBkts logCap} {n valLen : Nat}
    (h0 : micaInit index log nodeId numBkts logCap = .ok kv)
    (h : micaPopulateFixedLen hash kv n valLen = .ok kv') :
    ∃ E, EntryInv kv' (fun op => op.valLen.toNat = valLen) E ∧
      Current kv' kv' E (((List.range n).map hash).map (populateOp valLen)).reverse ∧
      kv'.logCap = logCap.toNat ∧
      (cell valLen * n + 80 ≤ logCap.toNat → kv'.logHead = cell valLen * n) := by
  have hok := h
  unfold micaPopulateFixedLen at h
  obtain ⟨hn, h⟩ := check_bind h
  obtain ⟨hv, h⟩ := check_bind h
  obtain ⟨_, h⟩ := check_bind h
  obtain ⟨keys, hkeys, _⟩ := bind_ok h
  obtain ⟨hmax, _⟩ := check_bind hkeys
  obtain ⟨kv1, E, hok1, hspec⟩ : ∃ kv1 E, micaPopulateFixedLen hash kv n valLen = .ok kv1 ∧ _ :=
    populate_ok h0 (by omega) (by omega) (by omega) (by omega)
  rw [hok] at hok1
  cases hok1
  exact ⟨E, hspec⟩

/-! ## Batches on the first lap -/

variable {kv0 : MicaKv} {E0 : Nat → Option MicaOp}

/-- On the first lap an operation of a batch passes its asserts: a PUT finds entries of
its own length only. -/
theorem processOp_exists (h0 : EntryInv kv0 (fun op => op.valLen.toNat = len) E0)
    (h : RoundInv kv0 E0 (fun op => op.valLen.toNat = len) kv E) (hlap : kv.logHead ≤ kv.logCap)
    (hop : op.opcode ≠ opGet → op.valLen.toNat = len ∧ ValidPut op) :
    ∃ kv' resp, processOp kv op (lookup kv0 op.key) = .ok (kv', resp) := by
  unfold processOp
  cases hf : (lookup kv0 op.key).filter (keyAt kv op.key) with
  | some ptr =>
    by_cases hget : op.opcode = opGet
    · simp only [hget, if_true]
      exact ⟨_, _, rfl⟩
    · have hhit : ¬ Missed kv op.key (lookup kv0 op.key) := by
        rw [Missed, hf]
        simp
      have hptr := (Option.filter_eq_some_iff.mp hf).1
      obtain ⟨o0, hs0, _, _⟩ := h0.lookup_iff.mp hptr
      obtain ⟨o, q, hE, _, hlive, ho⟩ := h.hit h0 hhit (.inl ⟨o0, hs0, by omega⟩)
      obtain rfl : o % kv.logCap = ptr := Option.some.inj (ho.symm.trans hptr)
      have hlen : op.valLen = kv.htLog (o % kv.logCap + 17) := by
        rw [(h.entries.stored o q hE hlive).valLen]
        exact UInt8.toNat_inj.mp ((hop hget).1.trans (h.entries.put o q hE).symm)
      simp only [hget, if_false]
      rw [check_true hlen, ok_bind]
      exact ⟨_, _, rfl⟩
  | none =>
    by_cases hget : op.opcode = opGet
    · simp only [hget, if_true]
      exact ⟨_, _, rfl⟩
    · have hcap := h.entries.log.cap_bounds.2.1
      have hpad := padded_le (hop hget).2
      have hcopy := (padded_spec op).2.1
      have hroom : kv.logHead + lenToCopy op + 8 < 2 ^ 40 := by omega
      obtain ⟨kv', hi⟩ := insertOne_exists h.entries.log hroom
      simp only [hget, if_false]
      rw [hi, ok_bind]
      exact ⟨_, _, rfl⟩

/-- A round of a batch moves the head by at most one cell. -/
theorem round_head (hlog : LogInv kv)
    (hop : op.opcode ≠ opGet → op.valLen.toNat = len ∧ ValidPut op)
    (hroom : kv.logHead + cell len + 80 ≤ kv.logCap) {kvPtr : Option Nat} {resp : MicaResp}
    (hp : processOp kv op kvPtr = .ok (kv', resp)) :
    kv'.logHead ≤ kv.logHead + cell len ∧ kv'.logCap = kv.logCap := by
  rcases processOp_effect hp with ⟨_, hsame, _⟩ | ⟨_, _, ptr, _, _, rfl⟩ | ⟨hput, _, hi⟩
  · rw [hsame.logHead, hsame.logCap]
    exact ⟨Nat.le_add_right .., rfl⟩
  · exact ⟨Nat.le_add_right .., rfl⟩
  · obtain ⟨hlen, hv⟩ := hop hput
    obtain ⟨_, _, hcap, hlap⟩ := insertOne_step hlog hv hi
    have hpad := padded_cell hlen
    exact ⟨by rw [hlap (by omega)]; omega, hcap⟩

/-- An insertion on the first lap stays inside the log. -/
theorem fits_firstLap (hlog : LogInv kv) (hlen : op.valLen.toNat = len)
    (hroom : kv.logHead + cell len + 80 ≤ kv.logCap) : Fits kv op := by
  have hcopy := (padded_spec op).2.1
  have hpad := padded_cell hlen
  unfold Fits
  rw [hlog.and_mask, Nat.mod_eq_of_lt (by omega)]
  omega

theorem finishBatch_firstLap (h0 : EntryInv kv0 (fun op => op.valLen.toNat = len) E0)
    (h : RoundInv kv0 E0 (fun op => op.valLen.toNat = len) kv E)
    (hops : ∀ op ∈ ops, op.opcode ≠ opGet → op.valLen.toNat = len ∧ ValidPut op)
    (hroom : kv.logHead + cell len * ops.length + 80 ≤ kv.logCap) :
    ∃ kv' resps, finishBatch kv0 kv ops = .ok (kv', resps) ∧
      kv'.logHead ≤ kv.logHead + cell len * ops.length ∧ kv'.logCap = kv.logCap ∧
      ∀ q ∈ batchInsertions kv (ops.map fun op => (op, lookup kv0 op.key)), Fits q.1 q.2 := by
  induction ops generalizing kv E with
  | nil => exact ⟨kv, [], rfl, Nat.le_refl _, rfl, by simp [batchInsertions]⟩
  | cons op ops ih =>
    rw [List.length_cons, Nat.mul_succ] at hroom ⊢
    have hop := hops op List.mem_cons_self
    obtain ⟨kv1, resp, h1⟩ := processOp_exists h0 h (by omega) hop
    obtain ⟨hhead, hcap⟩ := round_head h.entries.log hop (by omega) h1
    have hun : Unforged kv0 kv op := by
      intro _ hhit
      obtain ⟨ptr, hptr, _⟩ := not_missed_iff.mp hhit
      obtain ⟨o, hs, _, _⟩ := h0.lookup_iff.mp hptr
      exact .inl ⟨o, hs, by omega⟩
    obtain ⟨E1, hround, _⟩ := h.round h0 (fun hput => (hop hput).1) hun h1
    obtain ⟨kv', resps, hfinish, hhead', hcap', hfits⟩ := ih hround
      (fun q hq => hops q (List.mem_cons_of_mem _ hq)) (by omega)
    refine ⟨kv', resp :: resps, ?_, by omega, hcap'.trans hcap, fun q hq => ?_⟩
    · show (processOp kv op (lookup kv0 op.key) >>= _) = _
      rw [h1, ok_bind]
      show (finishBatch kv0 kv1 ops >>= _) = _
      rw [hfinish]
      rfl
    · rw [List.map_cons, batchInsertions, h1] at hq
      rcases List.mem_append.mp hq with hq | hq
      · split at hq
        · next hins =>
          have hfit : Fits kv op := fits_firstLap h.entries.log (hop hins.1).1 (by omega)
          rw [List.mem_singleton.mp hq]
          exact hfit
        · cases hq
      · exact hfits q hq

/-- On the first lap every batch runs to its end, inside the log. -/
theorem batch_firstLap (h : EntryInv kv (fun op => op.valLen.toNat = len) E)
    (hops : ∀ op ∈ ops, op.opcode ≠ opGet → op.valLen.toNat = len ∧ ValidPut op)
    (hroom : kv.logHead + cell len * ops.length + 80 ≤ kv.logCap) :
    ∃ kv' resps, micaBatchOp kv ops = .ok (kv', resps) ∧
      kv'.logHead ≤ kv.logHead + cell len * ops.length ∧ kv'.logCap = kv.logCap ∧
      (∀ q ∈ insertions kv (.batchOp ops), Fits q.1 q.2) ∧
      ∀ op ∈ ops, Spared kv kv'.logHead op := by
  obtain ⟨kv', resps, hp, hhead, hcap, hfits⟩ := finishBatch_firstLap h h.roundInv hops hroom
  exact ⟨kv', resps, hp, hhead, hcap, hfits, fun op _ o _ _ => by omega⟩

end RdmaBench.Mica.Populate
