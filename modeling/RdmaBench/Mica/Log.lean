import RdmaBench.Lib.Runs
import RdmaBench.Mica.Model

/-! # The head of the circular log

How the virtual head moves, over whole runs of insertions and batches. On the
first lap the head stays 80 bytes away from the physical end and then jumps to
the start of the second lap. From there on the test for the jump compares with
an unsigned difference that has wrapped, so it never fires again, and an entry
can be copied over the physical end. -/

namespace RdmaBench.Mica.Log
open RdmaBench.Lib.Asserts RdmaBench.Lib.Bits RdmaBench.Lib.ByteMem RdmaBench.Lib.Runs
open RdmaBench.Mica.Model

variable {kv kv' : MicaKv} {op : MicaOp}

/-! ## What one operation does -/

/-- A value length a PUT may have. -/
def ValidPut (op : MicaOp) : Prop := 1 ≤ op.valLen.toNat ∧ op.valLen.toNat ≤ maxValue

instance (op : MicaOp) : Decidable (ValidPut op) := inferInstanceAs (Decidable (_ ∧ _))

/-- The slot of a bucket an insertion of a tag writes. -/
def chosen (b : MicaBkt) (tag : Nat) : Fin 8 :=
  (slotToUse b tag).getD ⟨(tag &&& 7) % 8, Nat.mod_lt _ (by decide)⟩

/-- An insertion that passes its assert, with everything it writes. -/
theorem insertOne_ok (h : micaInsertOne kv op = .ok kv') :
    sub64 (2 ^ logBits) kv.logHead > lenToCopy op + 8 ∧
      kv'.htIndex = Function.update kv.htIndex (kv.bktOf op.key)
        (Function.update (kv.htIndex (kv.bktOf op.key))
          (chosen (kv.htIndex (kv.bktOf op.key)) op.key.tag.toNat)
          ⟨true, op.key.tag.toNat % 2 ^ 23, kv.logHead % 2 ^ logBits⟩) ∧
      kv'.htLog = memcpy kv.htLog (kv.logHead &&& kv.logMask) op.bytes (lenToCopy op) ∧
      kv'.logHead = advanceHead kv.logCap kv.logMask kv.logHead (lenToCopy op) ∧
      kv'.logCap = kv.logCap ∧ kv'.logMask = kv.logMask ∧ kv'.bktMask = kv.bktMask := by
  unfold micaInsertOne at h
  obtain ⟨hguard, h⟩ := check_bind h
  cases h
  exact ⟨hguard, rfl, rfl, rfl, rfl, rfl, rfl⟩

/-- The pointer of a lookup is not to the key's entry. -/
def Missed (kv : MicaKv) (key : MicaKey) (kvPtr : Option Nat) : Prop :=
  kvPtr.filter (keyAt kv key) = none

instance (kv : MicaKv) (key : MicaKey) (kvPtr : Option Nat) : Decidable (Missed kv key kvPtr) :=
  inferInstanceAs (Decidable (_ = _))

theorem not_missed_iff {key : MicaKey} {kvPtr : Option Nat} :
    ¬ Missed kv key kvPtr ↔ ∃ ptr, kvPtr = some ptr ∧ keyAt kv key ptr = true := by
  simp [Missed, Option.filter_eq_none_iff]

/-- The store after an in-place update of the entry at `ptr`. -/
def updated (kv : MicaKv) (op : MicaOp) (ptr : Nat) : MicaKv :=
  { kv with
    numPutOp := kv.numPutOp + 1
    htLog := memcpy kv.htLog (ptr + 18) op.value op.valLen.toNat }

/-- The four things an operation of a batch can do. -/
theorem processOp_cases {kvPtr : Option Nat} {resp : MicaResp}
    (h : processOp kv op kvPtr = .ok (kv', resp)) :
    (op.opcode = opGet ∧ ∃ ptr, kvPtr = some ptr ∧ keyAt kv op.key ptr = true ∧
      kv' = { kv with numGetOp := kv.numGetOp + 1 } ∧
      resp = ⟨.getSuccess, kv.htLog (ptr + 17), some (ptr + 18)⟩) ∨
    (op.opcode = opGet ∧ Missed kv op.key kvPtr ∧
      kv' = { kv with numGetFail := kv.numGetFail + 1 } ∧ resp = ⟨.getFail, 0, none⟩) ∨
    (op.opcode ≠ opGet ∧ ∃ ptr, kvPtr = some ptr ∧ keyAt kv op.key ptr = true ∧
      op.valLen = kv.htLog (ptr + 17) ∧ kv' = updated kv op ptr ∧
      resp = ⟨.putSuccess, 0, none⟩) ∨
    (op.opcode ≠ opGet ∧ Missed kv op.key kvPtr ∧ micaInsertOne kv op = .ok kv' ∧
      resp = ⟨.putSuccess, 0, none⟩) := by
  unfold processOp at h
  cases hf : kvPtr.filter (keyAt kv op.key) with
  | some ptr =>
    obtain ⟨hptr, hkey⟩ := Option.filter_eq_some_iff.mp hf
    simp only [hf] at h
    split at h
    · rename_i hget
      cases h
      exact .inl ⟨hget, ptr, hptr, hkey, rfl, rfl⟩
    · rename_i hput
      obtain ⟨hlen, h⟩ := check_bind h
      cases h
      refine .inr (.inr (.inl ⟨hput, ptr, hptr, hkey, hlen, ?_, rfl⟩))
      rw [updated, ← hlen]
  | none =>
    simp only [hf] at h
    split at h
    · rename_i hget
      cases h
      exact .inr (.inl ⟨hget, hf, rfl, rfl⟩)
    · rename_i hput
      obtain ⟨kv1, hins, h⟩ := bind_ok h
      cases h
      exact .inr (.inr (.inr ⟨hput, hf, hins, rfl⟩))

/-! ## Calls and what they insert -/

inductive Call where
  | insertOne (op : MicaOp)
  | batchOp (ops : List MicaOp)

def perform (kv : MicaKv) : Call → Except Assert (MicaKv × List MicaResp)
  | .insertOne op => do return (← micaInsertOne kv op, [])
  | .batchOp ops => micaBatchOp kv ops

theorem perform_insertOne (h : micaInsertOne kv op = .ok kv') :
    perform kv (.insertOne op) = .ok (kv', []) := by
  simp [perform, h, bind, Except.bind, pure, Except.pure]

/-- A batch fits the arrays of `mica_batch_op`, and every PUT has a value. -/
def ValidCall : Call → Prop
  | .insertOne op => ValidPut op
  | .batchOp ops => ops.length ≤ maxBatchSize ∧ ∀ op ∈ ops, op.opcode ≠ opGet → ValidPut op

/-- The insertions of a batch, each with the store it starts from. -/
def batchInsertions (kv : MicaKv) : List (MicaOp × Option Nat) → List (MicaKv × MicaOp)
  | [] => []
  | (op, kvPtr) :: rest =>
    let here := if op.opcode ≠ opGet ∧ Missed kv op.key kvPtr then [(kv, op)] else []
    match processOp kv op kvPtr with
    | .ok (kv', _) => here ++ batchInsertions kv' rest
    | .error _ => here

/-- The insertions of a call, each with the store it starts from. -/
def insertions (kv : MicaKv) : Call → List (MicaKv × MicaOp)
  | .insertOne op => [(kv, op)]
  | .batchOp ops => batchInsertions kv (ops.map fun op => (op, lookup kv op.key))

/-- Runs from `mica_init` in which every insertion meets the condition `C`. -/
def storesWhere (C : MicaKv → MicaOp → Prop) : System MicaKv Call where
  init kv := ∃ index log nodeId numBkts logCap,
    micaInit index log nodeId numBkts logCap = .ok kv
  step kv call kv' := ValidCall call ∧ (∀ p ∈ insertions kv call, C p.1 p.2) ∧
    ∃ resps, perform kv call = .ok (kv', resps)

/-- All runs. -/
def stores : System MicaKv Call := storesWhere fun _ _ => True

/-! ## A rule for invariants that ignore the values in the log -/

/-- Two stores with the same index and the same head. -/
structure SameIndex (kv kv' : MicaKv) : Prop where
  htIndex : kv'.htIndex = kv.htIndex
  bktMask : kv'.bktMask = kv.bktMask
  logCap : kv'.logCap = kv.logCap
  logMask : kv'.logMask = kv.logMask
  logHead : kv'.logHead = kv.logHead

theorem updated_same {ptr : Nat} : SameIndex kv (updated kv op ptr) := ⟨rfl, rfl, rfl, rfl, rfl⟩

/-- What an operation of a batch does to the index and the log: a GET leaves both
alone, a PUT updates its entry or inserts one. -/
theorem processOp_effect {kvPtr : Option Nat} {resp : MicaResp}
    (h : processOp kv op kvPtr = .ok (kv', resp)) :
    (op.opcode = opGet ∧ SameIndex kv kv' ∧ kv'.htLog = kv.htLog) ∨
    (op.opcode ≠ opGet ∧ ¬ Missed kv op.key kvPtr ∧ ∃ ptr, kvPtr = some ptr ∧
      op.valLen = kv.htLog (ptr + 17) ∧ kv' = updated kv op ptr) ∨
    (op.opcode ≠ opGet ∧ Missed kv op.key kvPtr ∧ micaInsertOne kv op = .ok kv') := by
  rcases processOp_cases h with ⟨hget, _, _, _, rfl, _⟩ | ⟨hget, _, rfl, _⟩ |
    ⟨hput, ptr, hptr, hkey, hlen, hkv, _⟩ | ⟨hput, hmiss, hi, _⟩
  · exact .inl ⟨hget, ⟨rfl, rfl, rfl, rfl, rfl⟩, rfl⟩
  · exact .inl ⟨hget, ⟨rfl, rfl, rfl, rfl, rfl⟩, rfl⟩
  · exact .inr (.inl ⟨hput, not_missed_iff.mpr ⟨ptr, hptr, hkey⟩, ptr, hptr, hlen, hkv⟩)
  · exact .inr (.inr ⟨hput, hmiss, hi⟩)

section Rule

variable {P : MicaKv → Prop} {V : MicaOp → Prop} {C : MicaKv → MicaOp → Prop}
  (hins : ∀ kv op kv', P kv → V op → C kv op → micaInsertOne kv op = .ok kv' → P kv')
  (hsame : ∀ kv kv', P kv → SameIndex kv kv' → P kv')

include hins hsame

theorem processOp_rule {kvPtr : Option Nat} {resp : MicaResp} (hp : P kv)
    (hv : op.opcode ≠ opGet → V op)
    (hc : op.opcode ≠ opGet → Missed kv op.key kvPtr → C kv op)
    (h : processOp kv op kvPtr = .ok (kv', resp)) : P kv' := by
  rcases processOp_effect h with ⟨_, hs, _⟩ | ⟨_, _, _, _, _, rfl⟩ | ⟨hput, hmiss, hi⟩
  · exact hsame _ _ hp hs
  · exact hsame _ _ hp updated_same
  · exact hins _ _ _ hp (hv hput) (hc hput hmiss) hi

theorem processAll_rule {l : List (MicaOp × Option Nat)} {resps : List MicaResp} (hp : P kv)
    (hv : ∀ x ∈ l, x.1.opcode ≠ opGet → V x.1)
    (hc : ∀ p ∈ batchInsertions kv l, C p.1 p.2)
    (h : processAll kv l = .ok (kv', resps)) : P kv' := by
  induction l generalizing kv resps with
  | nil =>
    cases h
    exact hp
  | cons x rest ih =>
    obtain ⟨op, kvPtr⟩ := x
    obtain ⟨⟨kv1, resp⟩, h1, h⟩ := bind_ok h
    obtain ⟨⟨kv2, resps'⟩, h2, h⟩ := bind_ok h
    cases h
    simp only [batchInsertions, h1, List.mem_append] at hc
    have hp1 : P kv1 := by
      refine processOp_rule hins hsame hp (hv _ List.mem_cons_self) (fun hput hmiss => ?_) h1
      exact hc (kv, op) (.inl (by simp [hput, hmiss]))
    exact ih hp1 (fun y hy => hv y (List.mem_cons_of_mem _ hy)) (fun p hm => hc p (.inr hm)) h2

/-- What insertions keep is kept by every call. -/
theorem perform_rule {call : Call} {resps : List MicaResp} (hp : P kv)
    (hv : ∀ op, call = .insertOne op → V op)
    (hvs : ∀ ops, call = .batchOp ops → ∀ op ∈ ops, op.opcode ≠ opGet → V op)
    (hc : ∀ p ∈ insertions kv call, C p.1 p.2) (h : perform kv call = .ok (kv', resps)) :
    P kv' := by
  cases call with
  | insertOne op =>
    obtain ⟨kv1, h1, h⟩ := bind_ok h
    cases h
    exact hins _ _ _ hp (hv op rfl) (hc (kv, op) (by simp [insertions])) h1
  | batchOp ops =>
    refine processAll_rule hins hsame hp (fun x hx => ?_) hc h
    obtain ⟨op, hm, rfl⟩ := List.mem_map.mp hx
    exact hvs ops rfl op hm

/-- Every insertion of a batch starts from a store with what insertions keep. -/
theorem batchInsertions_rule {l : List (MicaOp × Option Nat)} (hp : P kv)
    (hv : ∀ x ∈ l, x.1.opcode ≠ opGet → V x.1)
    (hc : ∀ p ∈ batchInsertions kv l, C p.1 p.2) : ∀ p ∈ batchInsertions kv l, P p.1 := by
  induction l generalizing kv with
  | nil =>
    intro p hm
    cases hm
  | cons x rest ih =>
    obtain ⟨op, kvPtr⟩ := x
    have hhere : ∀ p ∈ (if op.opcode ≠ opGet ∧ Missed kv op.key kvPtr then [(kv, op)] else []),
        P p.1 := by
      intro p hm
      split at hm
      · rw [List.mem_singleton.mp hm]
        exact hp
      · cases hm
    intro p hm
    cases h1 : processOp kv op kvPtr with
    | error e =>
      simp only [batchInsertions, h1] at hm
      exact hhere p hm
    | ok r =>
      obtain ⟨kv1, resp⟩ := r
      simp only [batchInsertions, h1, List.mem_append] at hm hc
      have hp1 : P kv1 := by
        refine processOp_rule hins hsame hp (hv _ List.mem_cons_self) (fun hput hmiss => ?_) h1
        exact hc (kv, op) (.inl (by simp [hput, hmiss]))
      rcases hm with hm | hm
      · exact hhere p hm
      · exact ih hp1 (fun y hy => hv y (List.mem_cons_of_mem _ hy))
          (fun q hq => hc q (.inr hq)) p hm

end Rule

/-- What valid insertions keep is kept by every step of a run. -/
theorem step_rule {P : MicaKv → Prop} {C : MicaKv → MicaOp → Prop} {call : Call}
    (hins : ∀ kv op kv', P kv → ValidPut op → C kv op → micaInsertOne kv op = .ok kv' → P kv')
    (hsame : ∀ kv kv', P kv → SameIndex kv kv' → P kv') (hp : P kv)
    (h : (storesWhere C).step kv call kv') : P kv' := by
  obtain ⟨hv, hc, resps, h⟩ := h
  refine perform_rule hins hsame hp (fun op he => ?_) (fun ops he => ?_) hc h
  · subst he
    exact hv
  · subst he
    exact hv.2

/-! ## How the head moves -/

/-- The bytes of the log an entry takes, alignment included. -/
def padded (op : MicaOp) : Nat := (lenToCopy op + 7) / 8 * 8

theorem padded_spec (op : MicaOp) :
    18 ≤ lenToCopy op ∧ lenToCopy op ≤ padded op ∧ padded op ≤ lenToCopy op + 7 ∧
      8 ∣ padded op := by
  simp only [padded, lenToCopy]
  omega

theorem padded_le (h : ValidPut op) : padded op ≤ 64 := by
  simp only [ValidPut, maxValue] at h
  simp only [padded, lenToCopy]
  omega

/-- What is known of the log in every run. -/
structure LogInv (kv : MicaKv) : Prop where
  cap : ∃ k, 21 ≤ k ∧ k ≤ 30 ∧ kv.logCap = 2 ^ k
  mask : kv.logMask = kv.logCap - 1
  aligned : 8 ∣ kv.logHead
  bound : kv.logHead ≤ 2 ^ logBits
  lap : kv.logHead + 80 ≤ kv.logCap ∨ kv.logCap ≤ kv.logHead

theorem LogInv.cap_bounds (h : LogInv kv) :
    2 ^ 21 ≤ kv.logCap ∧ kv.logCap ≤ 2 ^ 30 ∧ 8 ∣ kv.logCap := by
  obtain ⟨k, hl, hu, hk⟩ := h.cap
  rw [hk]
  exact ⟨Nat.pow_le_pow_right (by omega) hl, Nat.pow_le_pow_right (by omega) hu,
    pow_dvd_pow 2 (show 3 ≤ k by omega)⟩

/-- Masking an offset takes it modulo the capacity. -/
theorem LogInv.and_mask (h : LogInv kv) (x : Nat) : x &&& kv.logMask = x % kv.logCap := by
  obtain ⟨k, _, _, hk⟩ := h.cap
  rw [h.mask, hk, Nat.and_two_pow_sub_one_eq_mod]

theorem align_head {head len : Nat} (h8 : 8 ∣ head) (hb : head + len + 8 < 2 ^ 40) :
    (((head + len) % 2 ^ 64 + 7) % 2 ^ 64) &&& not64 7 = head + (len + 7) / 8 * 8 := by
  have h1 : (head + len) % 2 ^ 64 = head + len := Nat.mod_eq_of_lt (by omega)
  have h2 : (head + len + 7) % 2 ^ 64 = head + len + 7 := Nat.mod_eq_of_lt (by omega)
  have h3 := and_not64_mask (k := 3) (y := head + len + 7) (by omega) (by omega)
  norm_num at h3
  rw [h1, h2, h3]
  omega

theorem guard_bound (h : LogInv kv) (hg : sub64 (2 ^ logBits) kv.logHead > lenToCopy op + 8) :
    kv.logHead + lenToCopy op + 8 < 2 ^ 40 := by
  have hb := h.bound
  rw [sub64_of_le hb (by norm_num [logBits])] at hg
  simp only [logBits] at hg hb
  omega

/-- The head moves past the entry, and to the start of the next lap if that is
at most the physical end and less than 80 bytes before it. Beyond the end the
difference the test looks at has wrapped. -/
theorem advanceHead_eq (h : LogInv kv)
    (hg : sub64 (2 ^ logBits) kv.logHead > lenToCopy op + 8) :
    advanceHead kv.logCap kv.logMask kv.logHead (lenToCopy op) =
      if kv.logHead + padded op ≤ kv.logCap ∧ kv.logCap < kv.logHead + padded op + 80
      then (kv.logHead + padded op + kv.logCap) / kv.logCap * kv.logCap
      else kv.logHead + padded op := by
  obtain ⟨k, hk1, hk2, hk⟩ := h.cap
  obtain ⟨_, hu, h8⟩ := h.cap_bounds
  obtain ⟨_, _, hp7, hp8⟩ := padded_spec op
  have ha8 := h.aligned
  have hb := guard_bound h hg
  have htest : sub64 kv.logCap (kv.logHead + padded op) ≤ maxValue + 32 ↔
      kv.logHead + padded op ≤ kv.logCap ∧ kv.logCap < kv.logHead + padded op + 80 := by
    simp only [maxValue]
    by_cases hle : kv.logHead + padded op ≤ kv.logCap
    · rw [sub64_of_le hle (by omega)]
      omega
    · rw [sub64_of_lt (by omega) (by omega)]
      omega
  simp only [advanceHead, align_head ha8 hb]
  rw [← padded]
  by_cases hjump : kv.logHead + padded op ≤ kv.logCap ∧ kv.logCap < kv.logHead + padded op + 80
  · have hmod : (kv.logHead + padded op + kv.logCap) % 2 ^ 64 =
        kv.logHead + padded op + kv.logCap := Nat.mod_eq_of_lt (by omega)
    rw [if_pos (htest.mpr hjump), if_pos hjump, hmod, h.mask, hk,
      and_not64_mask (by omega) (by omega)]
  · rw [if_neg (fun ht => hjump (htest.mp ht)), if_neg hjump]

theorem isPowerOf2_iff {x : Int} : isPowerOf2 x = true ↔ ∃ k < 31, x = 2 ^ k := by
  simp [isPowerOf2]

theorem init_logInv {index : Nat → MicaBkt} {log : Mem} {nodeId numBkts logCap : Int}
    (h : micaInit index log nodeId numBkts logCap = .ok kv) : LogInv kv := by
  obtain ⟨_, h⟩ := check_bind h
  obtain ⟨_, h⟩ := check_bind h
  obtain ⟨⟨hpos, hmax, hmod, hpow⟩, h⟩ := check_bind h
  cases h
  obtain ⟨k, hk, rfl⟩ := isPowerOf2_iff.mp hpow
  have hk21 : 21 ≤ k := by
    by_contra hlt
    have hdvd : (2 : Int) ^ 21 ∣ 2 ^ k := Int.dvd_of_emod_eq_zero hmod
    have hle := Int.le_of_dvd hpos hdvd
    have hgt : (2 : Int) ^ k < 2 ^ 21 := pow_lt_pow_right₀ (by norm_num) (by omega)
    omega
  have hnat : ((2 : Int) ^ k).toNat = 2 ^ k := by
    rw [show ((2 : Int) ^ k) = ((2 ^ k : Nat) : Int) by push_cast; rfl, Int.toNat_natCast]
  have hcap : 2 ^ 21 ≤ 2 ^ k := Nat.pow_le_pow_right (by omega) hk21
  refine ⟨⟨k, hk21, by omega, hnat⟩, rfl, by simp, by simp, .inl ?_⟩
  simp only [hnat]
  omega

/-- Where an insertion leaves the head, whatever the length of its value. An
entry that ends at the physical end exactly skips a whole lap. -/
theorem insertOne_moves (h : LogInv kv) (hi : micaInsertOne kv op = .ok kv') :
    (kv.logHead + padded op + 80 ≤ kv.logCap ∧ kv'.logHead = kv.logHead + padded op) ∨
    (kv.logHead + padded op < kv.logCap ∧ kv.logCap < kv.logHead + padded op + 80 ∧
      kv'.logHead = kv.logCap) ∨
    (kv.logHead + padded op = kv.logCap ∧ kv'.logHead = 2 * kv.logCap) ∨
    (kv.logCap < kv.logHead + padded op ∧ kv'.logHead = kv.logHead + padded op) := by
  obtain ⟨hg, _, _, hhead, _⟩ := insertOne_ok hi
  obtain ⟨hcl, _, _⟩ := h.cap_bounds
  rw [hhead, advanceHead_eq h hg]
  rcases Nat.lt_trichotomy (kv.logHead + padded op) kv.logCap with hlt | heq | hgt
  · by_cases hroom : kv.logHead + padded op + 80 ≤ kv.logCap
    · exact .inl ⟨hroom, if_neg (by omega)⟩
    · refine .inr (.inl ⟨hlt, by omega, ?_⟩)
      rw [if_pos ⟨by omega, by omega⟩, Nat.add_div_right _ (by omega), Nat.div_eq_of_lt hlt,
        Nat.one_mul]
  · refine .inr (.inr (.inl ⟨heq, ?_⟩))
    rw [if_pos ⟨by omega, by omega⟩, heq, ← Nat.two_mul, Nat.mul_div_cancel _ (by omega)]
  · exact .inr (.inr (.inr ⟨hgt, if_neg (by omega)⟩))

/-- An insertion moves the head past its entry. -/
theorem insertOne_past (h : LogInv kv) (hi : micaInsertOne kv op = .ok kv') :
    kv.logHead + lenToCopy op ≤ kv'.logHead := by
  obtain ⟨_, hp, _, _⟩ := padded_spec op
  rcases insertOne_moves h hi with ⟨_, hhead⟩ | ⟨_, _, hhead⟩ | ⟨_, hhead⟩ | ⟨_, hhead⟩
  · omega
  · omega
  · omega
  · omega

/-- Where an insertion of a valid length leaves the head. -/
theorem insertOne_head (h : LogInv kv) (hv : ValidPut op) (hi : micaInsertOne kv op = .ok kv') :
    (kv.logHead + padded op + 80 ≤ kv.logCap ∧ kv'.logHead = kv.logHead + padded op) ∨
    (kv.logHead + 80 ≤ kv.logCap ∧ kv.logCap < kv.logHead + padded op + 80 ∧
      kv'.logHead = kv.logCap) ∨
    (kv.logCap ≤ kv.logHead ∧ kv'.logHead = kv.logHead + padded op) := by
  have hp64 := padded_le hv
  have hlap := h.lap
  rcases insertOne_moves h hi with ⟨hroom, hhead⟩ | ⟨hlt, hwrap, hhead⟩ | ⟨heq, _⟩ | ⟨hgt, hhead⟩
  · exact .inl ⟨hroom, hhead⟩
  · exact .inr (.inl ⟨by omega, hwrap, hhead⟩)
  · -- 80 bytes are free on the first lap, and later the head is not before the end
    obtain ⟨hlen, hp, _, _⟩ := padded_spec op
    omega
  · exact .inr (.inr ⟨by omega, hhead⟩)

/-- An insertion moves the head past its entry, and by less than a lap. -/
theorem insertOne_head_bounds (h : LogInv kv) (hv : ValidPut op)
    (hi : micaInsertOne kv op = .ok kv') :
    kv.logHead + lenToCopy op ≤ kv'.logHead ∧ kv'.logHead < kv.logHead + kv.logCap := by
  obtain ⟨hcl, _, _⟩ := h.cap_bounds
  have hp64 := padded_le hv
  refine ⟨insertOne_past h hi, ?_⟩
  rcases insertOne_head h hv hi with ⟨_, hhead⟩ | ⟨_, _, hhead⟩ | ⟨_, hhead⟩
  · omega
  · omega
  · omega

/-- Every insertion keeps the invariant, whatever the length of its value. -/
theorem insertOne_logInv (h : LogInv kv) (hi : micaInsertOne kv op = .ok kv') : LogInv kv' := by
  obtain ⟨hg, _, _, _, hcap, hmask, _⟩ := insertOne_ok hi
  obtain ⟨_, hcu, hc8⟩ := h.cap_bounds
  obtain ⟨_, _, hp7, hp8⟩ := padded_spec op
  have hb := guard_bound h hg
  have ha8 := h.aligned
  refine ⟨by rw [hcap]; exact h.cap, by rw [hmask, hcap]; exact h.mask, ?_, ?_, ?_⟩
  · rcases insertOne_moves h hi with ⟨_, hhead⟩ | ⟨_, _, hhead⟩ | ⟨_, hhead⟩ | ⟨_, hhead⟩
    · omega
    · omega
    · omega
    · omega
  · simp only [logBits]
    rcases insertOne_moves h hi with ⟨_, hhead⟩ | ⟨_, _, hhead⟩ | ⟨_, hhead⟩ | ⟨_, hhead⟩
    · omega
    · omega
    · omega
    · omega
  · rw [hcap]
    rcases insertOne_moves h hi with ⟨hroom, hhead⟩ | ⟨_, _, hhead⟩ | ⟨_, hhead⟩ | ⟨_, hhead⟩
    · exact .inl (by omega)
    · exact .inr (by omega)
    · exact .inr (by omega)
    · exact .inr (by omega)

theorem LogInv.same (h : LogInv kv) (hs : SameIndex kv kv') : LogInv kv' := by
  obtain ⟨_, _, hcap, hmask, hhead⟩ := hs
  refine ⟨?_, ?_, ?_, ?_, ?_⟩
  · rw [hcap]; exact h.cap
  · rw [hmask, hcap]; exact h.mask
  · rw [hhead]; exact h.aligned
  · rw [hhead]; exact h.bound
  · rw [hhead, hcap]; exact h.lap

/-- The log invariant holds in every run, whatever the insertions. -/
theorem stores_logInv {C : MicaKv → MicaOp → Prop} (h : Reachable (storesWhere C) kv) :
    LogInv kv := by
  refine h.invariant (P := LogInv) ?_ ?_
  · intro kv hinit
    obtain ⟨_, _, _, _, _, h0⟩ := hinit
    exact init_logInv h0
  · intro kv call kv' _ hinv hstep
    exact step_rule (fun _ _ _ hp _ _ hi => insertOne_logInv hp hi)
      (fun _ _ hp hs => hp.same hs) hinv hstep

/-! ## Entries inside the log -/

/-- The bytes an insertion copies lie inside `ht_log`. -/
def Fits (kv : MicaKv) (op : MicaOp) : Prop :=
  (kv.logHead &&& kv.logMask) + lenToCopy op ≤ kv.logCap

instance (kv : MicaKv) (op : MicaOp) : Decidable (Fits kv op) := inferInstanceAs (Decidable (_ ≤ _))

/-- The bytes from the head to the physical end. -/
def room (kv : MicaKv) : Nat := kv.logCap - (kv.logHead &&& kv.logMask)

/-- From the second lap on an insertion fills the log up to its end exactly, or
leaves room for the largest entry. -/
def LapSafe (kv : MicaKv) (op : MicaOp) : Prop :=
  kv.logCap ≤ kv.logHead → room kv = padded op ∨ padded op + 64 ≤ room kv

/-- An operation with a value of `n` zero bytes. -/
def zeros (n : UInt8) : MicaOp := ⟨⟨0, 0, 0, 0⟩, opPut, n, fun _ => 0⟩

/-- A PUT of six ones to the key of `zeros`, and a GET of it. -/
def ones : MicaOp := { zeros 6 with value := fun _ => 1 }

def fetch : MicaOp := { zeros 6 with opcode := opGet }

/-- A PUT of six zeros to another key of the first bucket. -/
def tagged (tag : UInt16) : MicaOp := { zeros 6 with key := ⟨0, 0, 0, tag⟩ }

/-- Every insertion fits exactly if the largest does. -/
theorem fits_iff : (∀ op, ValidPut op → Fits kv op) ↔
    (kv.logHead &&& kv.logMask) + 64 ≤ kv.logCap := by
  constructor
  · intro h
    exact h (zeros 46) (by decide)
  · intro h op hv
    have := hv.2
    simp only [Fits, lenToCopy, maxValue] at *
    omega

/-- After an insertion that was safe, and only then, the next one fits. -/
theorem lapSafe_iff (h : LogInv kv) (hf : ∀ op, ValidPut op → Fits kv op) (hv : ValidPut op)
    (hi : micaInsertOne kv op = .ok kv') :
    LapSafe kv op ↔ ∀ op', ValidPut op' → Fits kv' op' := by
  have hinv := insertOne_logInv h hi
  obtain ⟨_, _, _, _, hcap, _, _⟩ := insertOne_ok hi
  obtain ⟨hcl, hcu, hc8⟩ := h.cap_bounds
  have hp64 := padded_le hv
  have hf64 := fits_iff.mp hf
  rw [fits_iff, LapSafe, room, hinv.and_mask, hcap]
  rw [h.and_mask] at hf64 ⊢
  rcases insertOne_head h hv hi with ⟨hr, hhead⟩ | ⟨hl, _, hhead⟩ | ⟨hl, hhead⟩
  · have hmod : kv'.logHead % kv.logCap = kv'.logHead := Nat.mod_eq_of_lt (by omega)
    rw [hmod, hhead]
    exact ⟨fun _ => by omega, fun _ hle => by omega⟩
  · have hmod : kv'.logHead % kv.logCap = 0 := by rw [hhead, Nat.mod_self]
    rw [hmod]
    exact ⟨fun _ => by omega, fun _ hle => by omega⟩
  · -- the physical head moves on by the padded length, to the end at most
    have hmod : kv'.logHead % kv.logCap = (kv.logHead % kv.logCap + padded op) % kv.logCap := by
      rw [hhead, Nat.mod_add_mod]
    rw [hmod]
    by_cases hend : kv.logHead % kv.logCap + padded op = kv.logCap
    · rw [hend, Nat.mod_self]
      exact ⟨fun _ => by omega, fun _ _ => .inl (by omega)⟩
    · have hlt : kv.logHead % kv.logCap + padded op < kv.logCap := by omega
      rw [Nat.mod_eq_of_lt hlt]
      constructor
      · intro hsafe
        rcases hsafe hl with he | he
        · omega
        · omega
      · intro hle _
        exact .inr (by omega)

/-- In every run whose insertions are all safe, every further insertion stays
inside the log; and an insertion keeps it so only if it is safe. -/
theorem insertions_fit (h : Reachable (storesWhere LapSafe) kv) :
    (∀ op, ValidPut op → Fits kv op) ∧
    ∀ op kv', ValidPut op → micaInsertOne kv op = .ok kv' →
      (LapSafe kv op ↔ ∀ op', ValidPut op' → Fits kv' op') := by
  have hinv := stores_logInv h
  have hfits : ∀ op, ValidPut op → Fits kv op := by
    refine (h.invariant (P := fun kv => LogInv kv ∧ ∀ op, ValidPut op → Fits kv op) ?_ ?_).2
    · intro kv hinit
      obtain ⟨_, _, _, _, _, h0⟩ := hinit
      have h1 := init_logInv h0
      have hcl := h1.cap_bounds.1
      have hhead : kv.logHead = 0 := by
        obtain ⟨_, h0⟩ := check_bind h0
        obtain ⟨_, h0⟩ := check_bind h0
        obtain ⟨_, h0⟩ := check_bind h0
        cases h0
        rfl
      refine ⟨h1, fits_iff.mpr ?_⟩
      rw [h1.and_mask, hhead, Nat.zero_mod]
      omega
    · intro kv call kv' _ hp hstep
      refine step_rule (P := fun kv => LogInv kv ∧ ∀ op, ValidPut op → Fits kv op) ?_ ?_ hp hstep
      · intro kv op kv' hall hv hsafe hi
        obtain ⟨h1, h2⟩ := hall
        exact ⟨insertOne_logInv h1 hi, (lapSafe_iff h1 h2 hv hi).mp hsafe⟩
      · intro kv kv' hall hs
        obtain ⟨h1, h2⟩ := hall
        refine ⟨h1.same hs, ?_⟩
        intro op hv
        simpa only [Fits, hs.logHead, hs.logMask, hs.logCap] using h2 op hv
  exact ⟨hfits, fun op kv' hv hi => lapSafe_iff hinv hfits hv hi⟩

/-- A store of 2 MB in zeroed memory. -/
theorem fresh_store : ∃ kv, micaInit (fun _ _ => ⟨false, 0, 0⟩) (fun _ => 0) 0 1 2097152 = .ok kv ∧
    kv.logCap = 2097152 ∧ kv.logHead = 0 := ⟨_, rfl, rfl, rfl⟩

/-! ## The second lap -/

theorem insertOne_exists (h : LogInv kv) (hb : kv.logHead + lenToCopy op + 8 < 2 ^ 40) :
    ∃ kv', micaInsertOne kv op = .ok kv' := by
  have hg : sub64 (2 ^ logBits) kv.logHead > lenToCopy op + 8 := by
    rw [sub64_of_le h.bound (by norm_num [logBits])]
    simp only [logBits]
    omega
  cases hi : micaInsertOne kv op with
  | ok kv' => exact ⟨kv', rfl⟩
  | error e =>
    unfold micaInsertOne check at hi
    rw [if_pos hg] at hi
    cases hi

/-- Entries with `n` bytes of value can be added to a run whose condition they meet. The
head moves by the length of the entry, or leaves the first lap. -/
theorem append_zeros {C : MicaKv → MicaOp → Prop} {n : UInt8} (h : Reachable (storesWhere C) kv)
    (hv : ValidPut (zeros n)) (hC : C kv (zeros n)) (hb : kv.logHead + 72 < 2 ^ 40) :
    ∃ kv', Reachable (storesWhere C) kv' ∧ kv'.logCap = kv.logCap ∧
      (kv'.logHead = kv.logHead + padded (zeros n) ∨
        kv.logCap < kv.logHead + padded (zeros n) + 80 ∧ kv.logHead < kv.logCap ∧
          kv'.logHead = kv.logCap) := by
  have hinv := stores_logInv h
  have hp64 := padded_le hv
  have hlen := (padded_spec (zeros n)).2.1
  obtain ⟨kv', hi⟩ : ∃ kv', micaInsertOne kv (zeros n) = .ok kv' :=
    insertOne_exists hinv (by omega)
  have hcond : ∀ q ∈ insertions kv (.insertOne (zeros n)), C q.1 q.2 := by
    intro q hq
    rw [List.mem_singleton.mp hq]
    exact hC
  have hstep : (storesWhere C).step kv (.insertOne (zeros n)) kv' :=
    ⟨hv, hcond, [], perform_insertOne hi⟩
  refine ⟨kv', .step h hstep, (insertOne_ok hi).2.2.2.2.1, ?_⟩
  rcases insertOne_head hinv hv hi with ⟨_, hh⟩ | ⟨_, _, hh⟩ | ⟨_, hh⟩
  · exact .inl hh
  · exact .inr ⟨by omega, by omega, hh⟩
  · exact .inl hh

section Laps

variable {C : MicaKv → MicaOp → Prop} {v : UInt8}

/-- A 2 MB store is filled with equal entries up to some place on the first lap. -/
theorem first_lap (hv : ValidPut (zeros v))
    (hC : ∀ kv : MicaKv, kv.logHead < kv.logCap → C kv (zeros v)) (n : Nat)
    (hn : padded (zeros v) * n + 80 ≤ 2097152) :
    ∃ kv, Reachable (storesWhere C) kv ∧ kv.logCap = 2097152 ∧
      kv.logHead = padded (zeros v) * n := by
  induction n with
  | zero =>
    obtain ⟨kv, h0, hcap, hhead⟩ := fresh_store
    exact ⟨kv, .init ⟨_, _, _, _, _, h0⟩, hcap, hhead⟩
  | succ n ih =>
    rw [Nat.mul_succ] at hn ⊢
    obtain ⟨kv, hr, hcap, hhead⟩ := ih (by omega)
    obtain ⟨kv', hr', hcap', hnext⟩ := append_zeros hr hv (hC kv (by omega)) (by omega)
    exact ⟨kv', hr', by omega, by omega⟩

/-- The entry that does not fit any more takes the head to the second lap. -/
theorem later_laps (hv : ValidPut (zeros v))
    (hC : ∀ kv : MicaKv, kv.logHead < kv.logCap → C kv (zeros v))
    (hlater : ∀ kv : MicaKv, LogInv kv → kv.logCap = 2097152 →
      ∀ n, kv.logHead = 2097152 + padded (zeros v) * n → C kv (zeros v))
    (n : Nat) (hn : padded (zeros v) * n ≤ 2 ^ 39) :
    ∃ kv, Reachable (storesWhere C) kv ∧ kv.logCap = 2097152 ∧
      kv.logHead = 2097152 + padded (zeros v) * n := by
  induction n with
  | zero =>
    -- the last place of the first lap that entries are filled up to
    have hpos : 0 < padded (zeros v) := by
      have := (padded_spec (zeros v)).2.1
      simp only [lenToCopy] at this
      omega
    have hp64 := padded_le hv
    have hdiv := Nat.div_add_mod (2097152 - 80) (padded (zeros v))
    have hmod := Nat.mod_lt (2097152 - 80) hpos
    obtain ⟨kv, hr, hcap, hhead⟩ :=
      first_lap hv hC ((2097152 - 80) / padded (zeros v)) (by omega)
    obtain ⟨kv', hr', hcap', hnext⟩ := append_zeros hr hv (hC kv (by omega)) (by omega)
    have hlap := (stores_logInv hr').lap
    exact ⟨kv', hr', by omega, by omega⟩
  | succ n ih =>
    rw [Nat.mul_succ] at hn ⊢
    obtain ⟨kv, hr, hcap, hhead⟩ := ih (by omega)
    obtain ⟨kv', hr', hcap', hnext⟩ :=
      append_zeros hr hv (hlater kv (stores_logInv hr) hcap n hhead) (by omega)
    exact ⟨kv', hr', by omega, by omega⟩

end Laps

/-- Entries of 64 bytes fill every lap exactly. After 32769 of them on the later laps the
head is past the physical end for the second time, and every insertion fits. -/
theorem insertions_fit_thirdLap : ∃ kv : MicaKv, Reachable (storesWhere LapSafe) kv ∧
    kv.logCap = 2097152 ∧ kv.logHead = 2 * 2097152 + 64 ∧ ∀ op, ValidPut op → Fits kv op := by
  have hp : padded (zeros 46) = 64 := by decide
  obtain ⟨kv, hr, hcap, hhead⟩ := later_laps (C := LapSafe) (v := 46) (by decide)
    (fun kv hlt hle => by omega) (fun kv hinv hcap n hhead _ => by
      rw [room, hinv.and_mask, hcap, hhead, hp]
      omega) 32769 (by rw [hp]; decide)
  exact ⟨kv, hr, hcap, by rw [hhead, hp], (insertions_fit hr).1⟩

/-- After 174760 insertions of 24 bytes into a 2 MB log the head is 8 bytes
before the physical end on the second lap, and the next insertion overruns it. -/
theorem insertion_overruns :
    ¬ ∀ kv, Reachable stores kv → ∀ op, ValidPut op → Fits kv op := by
  intro hall
  obtain ⟨kv, hr, hcap, hhead⟩ : ∃ kv, Reachable stores kv ∧ _ := later_laps (v := 6) (by decide)
    (fun _ _ => trivial) (fun _ _ _ _ _ => trivial) 87381 (by decide)
  have hfits := hall kv hr (zeros 6) (by decide)
  rw [Fits, (stores_logInv hr).and_mask, hcap, hhead] at hfits
  exact absurd hfits (by decide)

end RdmaBench.Mica.Log
