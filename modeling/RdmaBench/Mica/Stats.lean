import RdmaBench.Mica.Entries

/-! # The statistics of a store

`struct mica_kv` documents `num_get_op` as the number of GET requests executed,
and the HERD worker prints `num_get_fail / num_get_op`. The counters are
incremented on the branches of `mica_batch_op` and in `mica_insert_one`. The
tally of a run counts the requests and the answers themselves. -/

namespace RdmaBench.Mica.Stats
open RdmaBench.Lib.Asserts RdmaBench.Lib.Runs
open RdmaBench.Mica.Model RdmaBench.Mica.Log RdmaBench.Mica.Bucket RdmaBench.Mica.Entries

variable {kv kv' kv'' : MicaKv} {op : MicaOp} {gets fails puts gets' fails' puts' : Nat}

/-! ## Slots in use -/

def usedIn (b : MicaBkt) : Nat := ∑ j, (b j).inUse.toNat

/-- The number of slots in use. -/
def usedSlots (kv : MicaKv) : Nat := ∑ n ∈ Finset.range kv.numBkts, usedIn (kv.htIndex n)

/-- A sum grows by at most as much as one of its terms. -/
theorem sum_update_le {ι α : Type} [DecidableEq ι] (s : Finset ι) (w : α → Nat) (f : ι → α) (i : ι)
    (v : α) {d : Nat} (h : w v ≤ w (f i) + d) :
    ∑ x ∈ s, w (Function.update f i v x) ≤ ∑ x ∈ s, w (f x) + d := by
  by_cases hi : i ∈ s
  · have hrest : ∑ x ∈ s.erase i, w (Function.update f i v x) = ∑ x ∈ s.erase i, w (f x) := by
      refine Finset.sum_congr rfl fun x hx => ?_
      rw [Function.update_of_ne (Finset.ne_of_mem_erase hx)]
    have hnew := Finset.add_sum_erase s (fun x => w (Function.update f i v x)) hi
    have hold := Finset.add_sum_erase s (fun x => w (f x)) hi
    simp only [Function.update_self] at hnew
    omega
  · have hsame : ∑ x ∈ s, w (Function.update f i v x) = ∑ x ∈ s, w (f x) := by
      refine Finset.sum_congr rfl fun x hx => ?_
      rw [Function.update_of_ne]
      rintro rfl
      exact hi hx
    omega

/-! ## One operation -/

/-- What some operations add to the counters of a store: `gets` GETs, of which
`fails` failed, and `puts` PUTs. -/
structure Grows (kv kv' : MicaKv) (gets fails puts : Nat) : Prop where
  getOp : kv'.numGetOp + fails = kv.numGetOp + gets
  getFail : kv'.numGetFail = kv.numGetFail + fails
  putOp : kv'.numPutOp = kv.numPutOp + puts
  used : usedSlots kv' + kv'.numIndexEvictions ≤ usedSlots kv + kv.numIndexEvictions + puts

theorem Grows.trans (h : Grows kv kv' gets fails puts) (h' : Grows kv' kv'' gets' fails' puts') :
    Grows kv kv'' (gets + gets') (fails + fails') (puts + puts') := by
  obtain ⟨h1, h2, h3, h4⟩ := h
  obtain ⟨h1', h2', h3', h4'⟩ := h'
  constructor <;> omega

/-- Writing a slot of one bucket. -/
theorem usedSlots_write {b : Nat} {j : Fin 8} {slot : MicaSlot} {d : Nat}
    (hbkts : kv'.numBkts = kv.numBkts)
    (hindex : kv'.htIndex = Function.update kv.htIndex b (Function.update (kv.htIndex b) j slot))
    (hd : 1 ≤ (kv.htIndex b j).inUse.toNat + d) : usedSlots kv' ≤ usedSlots kv + d := by
  rw [usedSlots, usedSlots, hbkts, hindex]
  refine sum_update_le _ usedIn _ _ _
    (sum_update_le _ (fun slot : MicaSlot => slot.inUse.toNat) _ _ _ ?_)
  exact Nat.le_trans (Bool.toNat_le _) hd

/-- The counters after an insertion. -/
theorem insertOne_counts (h : micaInsertOne kv op = .ok kv') :
    kv'.numBkts = kv.numBkts ∧ kv'.numGetOp = kv.numGetOp ∧ kv'.numGetFail = kv.numGetFail ∧
      kv'.numPutOp = kv.numPutOp + 1 ∧
      kv'.numIndexEvictions = kv.numIndexEvictions +
        if slotToUse (kv.htIndex (kv.bktOf op.key)) op.key.tag.toNat = none then 1 else 0 := by
  unfold micaInsertOne at h
  obtain ⟨-, h⟩ := check_bind h
  cases h
  exact ⟨rfl, rfl, rfl, rfl, rfl⟩

/-- An insertion takes a new slot, or evicts from one in use, or neither. -/
theorem insertOne_grows (h : micaInsertOne kv op = .ok kv') : Grows kv kv' 0 0 1 := by
  obtain ⟨-, hindex, -⟩ := insertOne_ok h
  obtain ⟨hbkts, hget, hfail, hput, hev⟩ := insertOne_counts h
  refine ⟨hget, hfail, hput, ?_⟩
  rcases slotToUse_cases (kv.htIndex (kv.bktOf op.key)) op.key.tag.toNat with
    ⟨hnone, hall⟩ | ⟨i, hsome, -⟩
  · -- the evicted slot was in use
    rw [hnone, if_pos rfl] at hev
    have hused := usedSlots_write (d := 0) hbkts hindex (by rw [(hall _).1]; exact Nat.le_refl 1)
    omega
  · rw [hsome, if_neg (by simp)] at hev
    have hused := usedSlots_write (d := 1) hbkts hindex (Nat.le_add_left _ _)
    omega

def isGet (op : MicaOp) : Bool := op.opcode == opGet
def isFail (resp : MicaResp) : Bool := resp.type == .getFail

theorem processOp_grows {kvPtr : Option Nat} {resp : MicaResp}
    (h : processOp kv op kvPtr = .ok (kv', resp)) :
    Grows kv kv' (isGet op).toNat (isFail resp).toNat (!isGet op).toNat := by
  rcases processOp_cases h with ⟨hget, _, _, _, rfl, rfl⟩ | ⟨hget, _, rfl, rfl⟩ |
    ⟨hput, _, _, _, _, rfl, rfl⟩ | ⟨hput, _, hi, rfl⟩
  · rw [isGet, hget]
    exact ⟨rfl, rfl, rfl, Nat.le_refl _⟩
  · rw [isGet, hget]
    exact ⟨rfl, rfl, rfl, Nat.le_refl _⟩
  · rw [isGet, beq_false_of_ne hput]
    exact ⟨rfl, rfl, rfl, Nat.le_succ _⟩
  · rw [isGet, beq_false_of_ne hput]
    exact insertOne_grows hi

theorem processAll_grows {l : List (MicaOp × Option Nat)} {resps : List MicaResp}
    (h : processAll kv l = .ok (kv', resps)) :
    Grows kv kv' (l.countP (isGet ·.1)) (resps.countP isFail) (l.countP (!isGet ·.1)) := by
  induction l generalizing kv resps with
  | nil =>
    cases h
    exact ⟨rfl, rfl, rfl, Nat.le_refl _⟩
  | cons x rest ih =>
    obtain ⟨op, kvPtr⟩ := x
    obtain ⟨⟨kv1, resp⟩, h1, h⟩ := bind_ok h
    obtain ⟨⟨kv2, resps'⟩, h2, h⟩ := bind_ok h
    cases h
    have hall := (processOp_grows h1).trans (ih h2)
    have hone : ∀ b : Bool, (if b = true then 1 else 0) = b.toNat := by decide
    simpa only [List.countP_cons, hone, Nat.add_comm] using hall

/-! ## GETs that miss -/

/-- A round with a GET that does not find its key, by the lookups in `kv0`. -/
def missedGet (kv0 : MicaKv) (r : MicaKv × MicaOp) : Bool :=
  isGet r.2 && decide (Missed r.1 r.2.key (lookup kv0 r.2.key))

theorem isFail_eq_missedGet {kv0 : MicaKv} {resp : MicaResp}
    (h : processOp kv op (lookup kv0 op.key) = .ok (kv', resp)) :
    isFail resp = missedGet kv0 (kv, op) := by
  rcases processOp_cases h with ⟨hget, ptr, hptr, hkey, -, rfl⟩ | ⟨hget, hmiss, -, rfl⟩ |
    ⟨hput, _, _, _, _, -, rfl⟩ | ⟨hput, _, -, rfl⟩
  · have hhit : ¬Missed kv op.key (lookup kv0 op.key) := not_missed_iff.mpr ⟨ptr, hptr, hkey⟩
    simp [missedGet, hhit, isFail]
  · simp [missedGet, isGet, hget, hmiss, isFail]
  · rw [missedGet, isGet, beq_false_of_ne hput]
    rfl
  · rw [missedGet, isGet, beq_false_of_ne hput]
    rfl

theorem fails_eq_missed {kv0 : MicaKv} {ops : List MicaOp} {resps : List MicaResp}
    (h : finishBatch kv0 kv ops = .ok (kv', resps)) :
    resps.countP isFail = (rounds kv0 kv ops).countP (missedGet kv0) := by
  induction ops generalizing kv resps with
  | nil =>
    cases h
    rfl
  | cons op ops ih =>
    obtain ⟨kv1, resp, resps1, hone, hrest, rfl, hrounds⟩ := finishBatch_cons h
    rw [hrounds, List.countP_cons, List.countP_cons, ih hrest, isFail_eq_missedGet hone]

/-! ## Whole runs -/

/-- The GETs and PUTs of a call. Everything but a GET is executed as a PUT. -/
def getsIn : Call → Nat
  | .insertOne _ => 0
  | .batchOp ops => ops.countP isGet
def putsIn : Call → Nat
  | .insertOne _ => 1
  | .batchOp ops => ops.countP (!isGet ·)

/-- The GETs of a call that miss, in the store before their round. -/
def missedIn (kv : MicaKv) : Call → Nat
  | .insertOne _ => 0
  | .batchOp ops => (rounds kv kv ops).countP (missedGet kv)

theorem perform_missed {call : Call} {resps : List MicaResp}
    (h : perform kv call = .ok (kv', resps)) : resps.countP isFail = missedIn kv call := by
  cases call with
  | insertOne op =>
    obtain ⟨kv1, -, h⟩ := bind_ok h
    cases h
    rfl
  | batchOp ops => exact fails_eq_missed h

theorem perform_grows {call : Call} {resps : List MicaResp}
    (h : perform kv call = .ok (kv', resps)) :
    Grows kv kv' (getsIn call) (resps.countP isFail) (putsIn call) := by
  cases call with
  | insertOne op =>
    obtain ⟨kv1, h1, h⟩ := bind_ok h
    cases h
    exact insertOne_grows h1
  | batchOp ops =>
    have hall := processAll_grows h
    rw [List.countP_map, List.countP_map] at hall
    exact hall

/-- A store, and what has been executed since `mica_init`. -/
structure Tally where
  kv : MicaKv
  gets : Nat
  fails : Nat
  missed : Nat
  puts : Nat

/-- Runs from `mica_init` of any calls that pass the asserts. -/
def tallied : System Tally Call where
  init t := calls.init t.kv ∧ t.gets = 0 ∧ t.fails = 0 ∧ t.missed = 0 ∧ t.puts = 0
  step t call t' := ∃ resps, perform t.kv call = .ok (t'.kv, resps) ∧
    t'.gets = t.gets + getsIn call ∧ t'.fails = t.fails + resps.countP isFail ∧
    t'.missed = t.missed + missedIn t.kv call ∧ t'.puts = t.puts + putsIn call

variable {t : Tally}

/-- What the counters of a store count. -/
structure Counted (t : Tally) : Prop where
  getOp : t.kv.numGetOp + t.fails = t.gets
  getFail : t.kv.numGetFail = t.fails
  missed : t.fails = t.missed
  putOp : t.kv.numPutOp = t.puts
  used : usedSlots t.kv + t.kv.numIndexEvictions ≤ t.puts

theorem counted (h : Reachable tallied t) : Counted t := by
  refine h.invariant (P := Counted) ?_ ?_
  · intro t hinit
    obtain ⟨⟨_, _, _, _, _, h0⟩, hg, hf, hm, hp⟩ := hinit
    have hused : usedSlots t.kv = 0 := by
      refine Finset.sum_eq_zero fun n _ => Finset.sum_eq_zero fun j _ => ?_
      rw [init_unused h0]
      rfl
    obtain ⟨-, h0⟩ := check_bind h0
    obtain ⟨-, h0⟩ := check_bind h0
    obtain ⟨-, h0⟩ := check_bind h0
    have hkv := Except.ok.inj h0
    rw [← hkv] at hused
    refine ⟨?_, ?_, hf.trans hm.symm, ?_, ?_⟩ <;> rw [← hkv] <;> simp [hg, hf, hp, hused]
  · intro t call t' _ hcounted hstep
    obtain ⟨resps, hperf, hg, hf, hm, hp⟩ := hstep
    obtain ⟨h1, h2, h3, h4⟩ := perform_grows hperf
    obtain ⟨c1, c2, c3, c4, c5⟩ := hcounted
    have hmissed := perform_missed hperf
    constructor <;> omega

/-- The counters as `mica.h` documents them. -/
structure Documented (t : Tally) : Prop where
  getOp : t.kv.numGetOp = t.gets
  getFail : t.kv.numGetFail = t.fails
  rate : t.kv.numGetFail ≤ t.kv.numGetOp
  putOp : t.kv.numPutOp = t.puts
  used : usedSlots t.kv + t.kv.numIndexEvictions ≤ t.kv.numPutOp

/-- In every run the counters are as documented if and only if no GET has failed, that is
if every GET has found its key in the store before its round: `num_get_op` counts only
those. -/
theorem documented_iff (h : Reachable tallied t) :
    (Documented t ↔ t.fails = 0) ∧ t.fails = t.missed := by
  obtain ⟨h1, h2, hmissed, h3, h4⟩ := counted h
  refine ⟨⟨fun hdoc => ?_, fun hzero => ?_⟩, hmissed⟩
  · have := hdoc.getOp
    omega
  · constructor <;> omega

/-- A call, with what it adds to the tally. -/
def Tally.perform (t : Tally) (call : Call) : Option Tally := do
  let (kv, resps) ← (Log.perform t.kv call).toOption
  some ⟨kv, t.gets + getsIn call, t.fails + resps.countP isFail, t.missed + missedIn t.kv call,
    t.puts + putsIn call⟩

theorem perform_step (t : Tally) (call : Call) (t' : Tally) (h : t.perform call = some t') :
    tallied.step t call t' := by
  simp only [Tally.perform, Option.bind_eq_bind, Option.bind_eq_some_iff, Option.some.injEq] at h
  obtain ⟨⟨kv, resps⟩, hperf, rfl⟩ := h
  exact ⟨resps, ok_of_toOption hperf, rfl, rfl, rfl, rfl⟩

def freshTally : Option Tally := oneBucket.map (⟨·, 0, 0, 0, 0⟩)

theorem freshTally_init (t : Tally) (h : freshTally = some t) : tallied.init t := by
  obtain ⟨kv, hinit, rfl⟩ := Option.map_eq_some_iff.mp h
  exact ⟨oneBucket_init kv hinit, rfl, rfl, rfl, rfl⟩

/-- An insertion, and a batch that finds the key. -/
theorem documented_hit : ∃ t, Reachable tallied t ∧ t.puts = 1 ∧ t.gets = 1 ∧ t.missed = 0 ∧
    Documented t := by
  obtain ⟨t, hrun, ht⟩ := exists_reachable perform_step freshTally_init
    [.insertOne (zeros 6), .batchOp [fetch]]
    (fun t => t.puts == 1 && t.gets == 1 && t.missed == 0 && t.fails == 0) (by decide +kernel)
  simp only [Bool.and_eq_true, beq_iff_eq] at ht
  obtain ⟨⟨⟨hputs, hgets⟩, hmissed⟩, hfails⟩ := ht
  exact ⟨t, hrun, hputs, hgets, hmissed, (documented_iff hrun).1.mpr hfails⟩

/-- A GET in an empty store is counted as failed, but not as executed. -/
theorem failed_get_not_counted : ∃ t, Reachable tallied t ∧ t.gets = 1 ∧
    t.kv.numGetOp = 0 ∧ t.kv.numGetFail = 1 := by
  obtain ⟨t, hrun, ht⟩ := exists_reachable perform_step freshTally_init [.batchOp [fetch]]
    (fun t => t.gets == 1 && t.kv.numGetOp == 0 && t.kv.numGetFail == 1) rfl
  simp only [Bool.and_eq_true, beq_iff_eq] at ht
  exact ⟨t, hrun, ht.1.1, ht.1.2, ht.2⟩

end RdmaBench.Mica.Stats
