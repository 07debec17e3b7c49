import RdmaBench.Lib.Asserts
import RdmaBench.Lib.Runs
import RdmaBench.Mlx5.Pcie

/-! # Completions in the instrumented driver

`mlx5_poll_one` looks up the resource of a completion queue entry and, for a
successful completion, adds to the bytes that the NIC sent for its queue pair:
the entry itself has 64 bytes, and the payload of a receive was written as
well. In the expression for receives the conditional operator takes the whole
sum as its condition, requests that failed are not counted, and a receive of a
resource that is not a queue pair dereferences a null pointer. Entries are modelled as
they are after decompression, with the fields that decide about the statistics. -/

namespace RdmaBench.Mlx5.PollOne
open RdmaBench.Lib.Asserts RdmaBench.Lib.Runs RdmaBench.Mlx5.Pcie

/-! ## Entries and resources -/

/-- `op_own >> 4`; `unnamed` is any of the values without a name. -/
inductive CqeOpcode where
  | req | respWrImm | respSend | respSendImm | respSendInv | resizeCq | sigErr | reqErr | respErr
  | invalid | unnamed
deriving DecidableEq

def isRequestor : CqeOpcode → Bool
  | .req | .reqErr => true
  | _ => false

def isResponder : CqeOpcode → Bool
  | .respWrImm | .respSend | .respSendImm | .respSendInv | .respErr => true
  | _ => false

/-- The fields of a `struct mlx5_cqe64`, in host byte order. -/
structure Cqe where
  opcode : CqeOpcode
  sopDropQpn : UInt32
  srqnUidx : UInt32
  byteCnt : UInt32

inductive RscType where
  | qp | dct | rwq | mpRwq | xsrq | srq | inval
deriving DecidableEq

/-- A shared receive queue, by its number. -/
structure Srq where
  srqn : UInt32
deriving DecidableEq

/-- A resource: `hrdQpIndex` is `mlx5_hrd_qp_index` of a queue pair, and `srq` the
shared receive queue of a queue pair or a DC target, or the resource itself as
one. -/
structure Resource where
  type : RscType
  rsn : UInt32
  hrdQpIndex : Nat
  srq : Option Srq
deriving DecidableEq

/-- The tables of a device context. -/
structure Context where
  findUidx : UInt32 → Option Resource
  findRsc : UInt32 → Option Resource
  findSrq : UInt32 → Option Srq

/-- `cur_rsc` and `cur_srq`, which `poll_cq` keeps from one entry to the next. -/
structure Caches where
  curRsc : Option Resource
  curSrq : Option Srq

/-- A completion: the queue pair it is for, if any, its length, and whether there is a
shared receive queue or a receive work queue for it. -/
structure Completion where
  qp : Option Nat
  opcode : CqeOpcode
  byteLen : UInt32
  ownQueue : Bool
deriving DecidableEq

/-- The null pointer to the queue pair of a completion is dereferenced. -/
inductive Fault where
  | nullQp (c : Completion)
deriving DecidableEq

/-! ## `mlx5_poll_one` -/

/-- The resource of an entry, and whether it is for a shared receive queue.
`none` is `CQ_POLL_ERR`. -/
def lookup (cx : Context) (cqeVer : Bool) (c : Caches) (cqe : Cqe) : Option (Caches × Bool) :=
  let rsn := cqe.sopDropQpn &&& 0xffffff
  let srqnUidx := cqe.srqnUidx &&& 0xffffff
  if cqeVer then
    if c.curRsc.any (·.rsn == srqnUidx) then some (c, false)
    else (cx.findUidx srqnUidx).map fun rsc => ({ c with curRsc := some rsc }, false)
  else do
    let (c, isSrq) ←
      if isResponder cqe.opcode ∧ srqnUidx ≠ 0 then
        if c.curSrq.any (·.srqn == srqnUidx) then some (c, true)
        else (cx.findSrq srqnUidx).map fun srq => ({ c with curSrq := some srq }, true)
      else some (c, false)
    if c.curRsc.any (·.rsn == rsn) then some (c, isSrq)
    else
      let rsc := cx.findRsc rsn
      if rsc = none ∧ srqnUidx = 0 then none else some ({ c with curRsc := rsc }, isSrq)

/-- The variables that the switch over the type of the resource sets. -/
structure Found where
  caches : Caches
  isSrq : Bool
  mqp : Option Resource
  rwq : Bool

def classify (cqeVer responder : Bool) (c : Caches) (isSrq : Bool) : Option Found :=
  match c.curRsc with
  | none => some ⟨c, isSrq, none, false⟩
  | some rsc =>
    match rsc.type with
    | .qp =>
      if cqeVer ∧ responder ∧ rsc.srq ≠ none then
        some ⟨{ c with curSrq := rsc.srq }, true, some rsc, false⟩
      else some ⟨c, isSrq, some rsc, false⟩
    | .dct => some ⟨if cqeVer then { c with curSrq := rsc.srq } else c, true, none, false⟩
    | .xsrq => some ⟨{ c with curSrq := rsc.srq }, true, none, false⟩
    | .rwq | .mpRwq => some ⟨c, isSrq, none, true⟩
    | .srq | .inval => none

/-- What a receive adds: `mlx5_hrd_dma_write_n2c(64) + wc->byte_len == 0 ? 0 :
mlx5_hrd_dma_write_n2c(wc->byte_len)`, where the sum is a `uint32_t`. -/
def receiveBytes (byteLen : UInt32) : Int :=
  if (mlx5HrdDmaWriteN2c 64 + byteLen.toNat) % 2 ^ 32 = 0 then 0
  else mlx5HrdDmaWriteN2c byteLen.toNat

/-- `pcie_n2c_bytes` of the queue pairs, by their index. -/
abbrev Stats := Nat → Int

def addN2c (n2c : Stats) (mqp : Resource) (bytes : Int) : Stats :=
  Function.update n2c mqp.hrdQpIndex (n2c mqp.hrdQpIndex + bytes)

def Found.completion (found : Found) (cqe : Cqe) : Completion where
  qp := found.mqp.map Resource.hrdQpIndex
  opcode := cqe.opcode
  byteLen := cqe.byteCnt
  ownQueue := found.caches.curSrq.isSome || found.rwq

/-- The switch over the opcode. `none` is `CQ_POLL_ERR`. -/
def account (n2c : Stats) (found : Found) (cqe : Cqe) : Except Fault (Option Stats) :=
  match cqe.opcode, found.mqp with
  | .req, none => .ok none
  | .req, some mqp => .ok (some (addN2c n2c mqp (mlx5HrdDmaWriteN2c 64)))
  | .respWrImm, some mqp | .respSend, some mqp | .respSendImm, some mqp | .respSendInv, some mqp =>
    .ok (some (addN2c n2c mqp (receiveBytes cqe.byteCnt)))
  | .respWrImm, none | .respSend, none | .respSendImm, none | .respSendInv, none | .reqErr, none =>
    .error (.nullQp (found.completion cqe))
  | .respErr, none =>
    if found.caches.curSrq.isSome || found.rwq then .ok (some n2c)
    else .error (.nullQp (found.completion cqe))
  | _, _ => .ok (some n2c)

structure Polled where
  n2c : Stats
  caches : Caches
  completion : Completion

/-- `mlx5_poll_one` on the next entry. `none` is `CQ_POLL_ERR`. -/
def pollOne (cx : Context) (cqeVer : Bool) (n2c : Stats) (c : Caches) (cqe : Cqe) :
    Except Fault (Option Polled) :=
  if isRequestor cqe.opcode = false ∧ isResponder cqe.opcode = false then .ok none
  else
    match (lookup cx cqeVer c cqe).bind fun r =>
        classify cqeVer (isResponder cqe.opcode) r.1 r.2 with
    | none => .ok none
    | some found => do
      match ← account n2c found cqe with
      | none => .ok none
      | some n2c => .ok (some ⟨n2c, found.caches, found.completion cqe⟩)

/-! ## Runs -/

/-- `polled` has the completions so far, with the one that a crash is at. -/
structure State where
  n2c : Stats
  caches : Caches
  polled : List Completion
  crashed : Bool

/-- A call of `poll_cq` begins, or it polls an entry. -/
inductive Event where
  | call
  | entry (cqe : Cqe)

/-- What polling an entry leads to. An error ends the call. -/
def State.after (s : State) : Except Fault (Option Polled) → State
  | .ok none => { s with caches := ⟨none, none⟩ }
  | .ok (some p) =>
    { s with n2c := p.n2c, caches := p.caches, polled := s.polled ++ [p.completion] }
  | .error (.nullQp c) => { s with polled := s.polled ++ [c], crashed := true }

/-- Any entries of any completion queues of a device, up to a crash. -/
def driver (cx : Context) (cqeVer : Bool) (base : Stats) : System State Event where
  init s := s = ⟨base, ⟨none, none⟩, [], false⟩
  step s e t := s.crashed = false ∧ match e with
    | .call => t = { s with caches := ⟨none, none⟩ }
    | .entry cqe => t = s.after (pollOne cx cqeVer s.n2c s.caches cqe)

/-! ## What is charged, and what should be -/

def isReceive : CqeOpcode → Bool
  | .respWrImm | .respSend | .respSendImm | .respSendInv => true
  | _ => false

/-- The completions that need the queue pair. -/
def Completion.Crashes (c : Completion) : Prop :=
  c.qp = none ∧ (isReceive c.opcode = true ∨ c.opcode = .reqErr ∨
    c.opcode = .respErr ∧ c.ownQueue = false)

instance (c : Completion) : Decidable c.Crashes := inferInstanceAs (Decidable (_ ∧ (_ ∨ _ ∨ _)))

/-- What the driver adds for a completion to the bytes of its queue pair. -/
def Completion.charged (c : Completion) : Int :=
  if c.opcode = .req then mlx5HrdDmaWriteN2c 64
  else if isReceive c.opcode then receiveBytes c.byteLen
  else 0

/-- By the PCIe model: 90 bytes for the entry of a request, and for that of a receive with
the payload and its header if there is one. -/
def Completion.modelled (c : Completion) : Int :=
  if isRequestor c.opcode then 90
  else if isReceive c.opcode then 90 + if c.byteLen = 0 then 0 else (c.byteLen.toNat : Int) + 26
  else 0

/-- A receive, or a request that failed. -/
def undercharged (opcode : CqeOpcode) : Bool := isReceive opcode || opcode == .reqErr

/-- The sum over the completions of queue pair `q`. -/
def total (f : Completion → Int) (q : Nat) (l : List Completion) : Int :=
  (l.map fun c => if c.qp = some q then f c else 0).sum

variable {cx : Context} {cqeVer : Bool} {base n2c n2c' : Stats} {s t : State} {c : Completion}
  {found : Found} {cqe : Cqe}

theorem charged_req (h : c.opcode = .req) : c.charged = mlx5HrdDmaWriteN2c 64 := if_pos h

theorem charged_receive (h : isReceive c.opcode = true) :
    c.charged = receiveBytes c.byteLen := by
  have hne : c.opcode ≠ .req := by
    intro hreq
    rw [hreq] at h
    cases h
  rw [Completion.charged, if_neg hne, if_pos h]

theorem modelled_receive (h : isReceive c.opcode = true) :
    c.modelled = 90 + if c.byteLen = 0 then 0 else (c.byteLen.toNat : Int) + 26 := by
  have hnot : isRequestor c.opcode = false := by
    revert h
    cases c.opcode <;> decide
  rw [Completion.modelled, hnot, if_neg Bool.false_ne_true, if_pos h]

theorem addN2c_apply (mqp : Resource) (bytes : Int) (q : Nat) :
    addN2c n2c mqp bytes q = n2c q + if some mqp.hrdQpIndex = some q then bytes else 0 := by
  rw [addN2c, Function.update_apply]
  by_cases hq : q = mqp.hrdQpIndex
  · simp [hq]
  · simp [hq, Ne.symm hq]

/-- What `account` adds is what is charged. -/
theorem account_ok (h : account n2c found cqe = .ok (some n2c')) :
    ¬(found.completion cqe).Crashes ∧ ∀ q, n2c' q = n2c q +
      if (found.completion cqe).qp = some q then (found.completion cqe).charged else 0 := by
  obtain ⟨opcode, _, _, byteCnt⟩ := cqe
  obtain ⟨caches, _, mqp, rwq⟩ := found
  cases mqp with
  | none =>
    cases opcode with
    | req | reqErr | respWrImm | respSend | respSendImm | respSendInv => cases h
    | respErr =>
      simp only [account] at h
      split at h
      · next hown =>
        cases h
        refine ⟨fun hcrash => ?_, fun q => by simp [Found.completion]⟩
        obtain ⟨-, hrecv | hreq | ⟨-, hnone⟩⟩ := hcrash
        · cases hrecv
        · cases hreq
        · exact absurd (hown.symm.trans hnone) Bool.noConfusion
      · cases h
    | resizeCq | sigErr | invalid | unnamed =>
      cases h
      simp [Found.completion, Completion.Crashes, isReceive]
  | some mqp =>
    refine ⟨fun hcrash => Option.some_ne_none _ hcrash.1, fun q => ?_⟩
    cases opcode with
    | req =>
      cases h
      rw [charged_req rfl, addN2c_apply]
      rfl
    | respWrImm | respSend | respSendImm | respSendInv =>
      cases h
      rw [charged_receive rfl, addN2c_apply]
      rfl
    | respErr | reqErr | resizeCq | sigErr | invalid | unnamed =>
      cases h
      simp [Found.completion, Completion.charged, isReceive]

/-- It crashes only at a completion that needs the queue pair it does not have. -/
theorem account_error {e : Fault} (h : account n2c found cqe = .error e) :
    e = .nullQp (found.completion cqe) ∧ (found.completion cqe).Crashes := by
  obtain ⟨opcode, _, _, byteCnt⟩ := cqe
  obtain ⟨caches, _, mqp, rwq⟩ := found
  cases mqp with
  | none =>
    cases opcode with
    | reqErr | respWrImm | respSend | respSendImm | respSendInv =>
      cases h
      exact ⟨rfl, rfl, by simp [Found.completion, isReceive]⟩
    | respErr =>
      simp only [account] at h
      split at h
      · cases h
      · next hown =>
        cases h
        exact ⟨rfl, rfl, .inr (.inr ⟨rfl, by simpa [Found.completion] using hown⟩)⟩
    | req | resizeCq | sigErr | invalid | unnamed => cases h
  | some mqp => cases opcode <;> cases h

/-- What polling an entry can come to. -/
theorem pollOne_cases (cx : Context) (cqeVer : Bool) (n2c : Stats) (caches : Caches) (cqe : Cqe) :
    pollOne cx cqeVer n2c caches cqe = .ok none ∨
    (∃ p, pollOne cx cqeVer n2c caches cqe = .ok (some p) ∧ ¬p.completion.Crashes ∧ ∀ q,
      p.n2c q = n2c q + if p.completion.qp = some q then p.completion.charged else 0) ∨
    ∃ c, pollOne cx cqeVer n2c caches cqe = .error (.nullQp c) ∧ c.Crashes := by
  unfold pollOne
  split
  · exact .inl rfl
  · split
    · exact .inl rfl
    · next found _ =>
      cases haccount : account n2c found cqe with
      | error e =>
        obtain ⟨rfl, hcrash⟩ := account_error haccount
        exact .inr (.inr ⟨_, rfl, hcrash⟩)
      | ok r =>
        cases r with
        | none => exact .inl rfl
        | some n2c' => exact .inr (.inl ⟨_, rfl, account_ok haccount⟩)

theorem total_append (f : Completion → Int) (q : Nat) (l : List Completion) (c : Completion) :
    total f q (l ++ [c]) = total f q l + if c.qp = some q then f c else 0 := by
  simp [total]

/-- In every run the bytes of a queue pair are the sum of what was charged, and only the
completion at a crash needs a queue pair that it does not have. -/
structure Charges (base : Stats) (s : State) : Prop where
  bytes : ∀ q, s.n2c q = base q + total Completion.charged q s.polled
  crashed : s.crashed = true ↔ ∃ c ∈ s.polled, c.Crashes

theorem run_charges (h : Reachable (driver cx cqeVer base) t) : Charges base t := by
  refine h.invariant (P := Charges base) (fun s hs => ?_) (fun s e t _ ih hstep => ?_)
  · rw [show s = _ from hs]
    exact ⟨fun q => by simp [total], by simp⟩
  · obtain ⟨hrun, hstep⟩ := hstep
    have hno : ∀ c ∈ s.polled, ¬c.Crashes := by
      intro c hc hcrash
      exact absurd (ih.crashed.2 ⟨c, hc, hcrash⟩) (hrun ▸ Bool.noConfusion)
    cases e with
    | call =>
      rw [show t = _ from hstep]
      exact ⟨ih.bytes, ih.crashed⟩
    | entry cqe =>
      rw [show t = _ from hstep]
      obtain hnone | ⟨p, hp, hsafe, hbytes⟩ | ⟨c, hc, hcrash⟩ :=
        pollOne_cases cx cqeVer s.n2c s.caches cqe
      · rw [hnone]
        exact ⟨ih.bytes, ih.crashed⟩
      · rw [hp]
        refine ⟨fun q => ?_, ?_⟩
        · show p.n2c q = base q + total Completion.charged q (s.polled ++ [p.completion])
          rw [total_append, hbytes q, ih.bytes q, add_assoc]
        · show s.crashed = true ↔ ∃ c ∈ s.polled ++ [p.completion], c.Crashes
          simp only [List.mem_append, List.mem_singleton, or_and_right, exists_or,
            exists_eq_left, hsafe, or_false]
          exact ih.crashed
      · rw [hc]
        refine ⟨fun q => ?_, ?_⟩
        · show s.n2c q = base q + total Completion.charged q (s.polled ++ [c])
          rw [total_append, hcrash.1, if_neg (Option.some_ne_none q).symm, add_zero]
          exact ih.bytes q
        · exact iff_of_true rfl
            ⟨c, List.mem_append_right _ (List.mem_singleton_self c), hcrash⟩

/-! ## Where they differ -/

/-- A receive or a failed request is charged too little. -/
theorem charged_lt (h : undercharged c.opcode = true) : c.charged < c.modelled := by
  have hle : receiveBytes c.byteLen ≤ c.byteLen.toNat + 26 := by
    unfold receiveBytes
    split
    · omega
    · rw [dmaWriteN2c_eq]
      exact toInt_le (by omega)
  simp only [undercharged, Bool.or_eq_true, beq_iff_eq] at h
  rcases h with hrecv | hfailed
  · rw [charged_receive hrecv, modelled_receive hrecv]
    split
    · next hzero =>
      rw [hzero] at hle ⊢
      simp only [UInt32.toNat_zero] at hle
      omega
    · omega
  · simp [Completion.charged, Completion.modelled, isRequestor, isReceive, hfailed]

/-- Everything else is charged what it should be. -/
theorem charged_eq (h : undercharged c.opcode = false) : c.charged = c.modelled := by
  obtain ⟨qp, opcode, byteLen, ownQueue⟩ := c
  cases opcode with
  | req => exact (by decide : ((mlx5HrdDmaWriteN2c 64 : Int)) = 90)
  | respErr | resizeCq | sigErr | invalid | unnamed => rfl
  | respWrImm | respSend | respSendImm | respSendInv | reqErr => cases h

theorem charged_le : c.charged ≤ c.modelled := by
  cases h : undercharged c.opcode with
  | true => exact (charged_lt h).le
  | false => exact (charged_eq h).le

theorem total_le (q : Nat) (l : List Completion) :
    total Completion.charged q l ≤ total Completion.modelled q l := by
  refine List.sum_le_sum fun c _ => ?_
  split
  · exact charged_le
  · exact le_refl 0

/-- The sums are equal only if all terms are. -/
theorem total_eq_iff (q : Nat) (l : List Completion) :
    total Completion.charged q l = total Completion.modelled q l ↔
      ∀ c ∈ l, c.qp = some q → undercharged c.opcode = false := by
  induction l with
  | nil => simp [total]
  | cons c l ih =>
    have hle := total_le q l
    simp only [total, List.map_cons, List.sum_cons, List.forall_mem_cons] at ih hle ⊢
    rw [← ih]
    by_cases hq : c.qp = some q
    · simp only [hq, if_true, forall_const]
      cases h : undercharged c.opcode with
      | true =>
        have hlt := charged_lt h
        simp only [Bool.true_eq_false, false_and, iff_false]
        omega
      | false =>
        rw [charged_eq h]
        simp
    · simp [hq]

/-- In every run, for every queue pair: nothing has crashed and its bytes have grown by
what the PCIe model gives, if and only if no receive has completed on it and no request has
failed on it, and none of the completions of any resource needs a queue pair that it does
not have. -/
theorem n2c_modelled_iff (h : Reachable (driver cx cqeVer base) t) (q : Nat) :
    t.crashed = false ∧ t.n2c q = base q + total Completion.modelled q t.polled ↔
      ∀ c ∈ t.polled, ¬c.Crashes ∧
        (c.qp = some q → isReceive c.opcode = false ∧ c.opcode ≠ .reqErr) := by
  have hcharges := run_charges h
  have hnone : t.crashed = false ↔ ∀ c ∈ t.polled, ¬c.Crashes := by
    rw [← Bool.not_eq_true, hcharges.crashed]
    simp
  rw [hcharges.bytes q, add_right_inj, total_eq_iff, hnone, ← forall₂_and]
  simp only [undercharged, Bool.or_eq_false_iff, beq_eq_false_iff_ne]

/-- A device with two queue pairs, numbers 7 and 9, and a shared receive queue. -/
def twoQps : Context where
  findUidx _ := none
  findRsc rsn :=
    if rsn = 7 then some ⟨.qp, 7, 0, none⟩ else if rsn = 9 then some ⟨.qp, 9, 1, none⟩ else none
  findSrq _ := some ⟨3⟩

/-- The runs of that device, from counters at zero. -/
abbrev twoQpsDriver : System State Event := driver twoQps false fun _ => 0

theorem reachable_entry {s : State} (h : Reachable twoQpsDriver s) (hrun : s.crashed = false)
    (cqe : Cqe) :
    Reachable twoQpsDriver (s.after (pollOne twoQps false s.n2c s.caches cqe)) :=
  .step (e := .entry cqe) h ⟨hrun, rfl⟩

/-- Two requests on one queue pair, with a receive on the other one between them. -/
theorem n2c_modelled_requests : ∃ t, Reachable twoQpsDriver t ∧
    t.polled = [⟨some 0, .req, 0, false⟩, ⟨some 1, .respSend, 32, false⟩,
      ⟨some 0, .req, 0, false⟩] ∧
    t.n2c 0 = 0 + total Completion.modelled 0 t.polled := by
  have h1 := reachable_entry (.init rfl) rfl ⟨.req, 7, 0, 0⟩
  have h2 := reachable_entry h1 rfl ⟨.respSend, 9, 0, 32⟩
  have h3 := reachable_entry h2 rfl ⟨.req, 7, 0, 0⟩
  exact ⟨_, h3, rfl, ((n2c_modelled_iff h3 0).mpr (by decide)).2⟩

/-- A receive of 32 bytes is charged 58 bytes instead of 148, a request that failed nothing
instead of 90, and a receive of a shared receive queue whose queue pair is not known
crashes. -/
theorem receive_undercharged :
    (∃ t, Reachable twoQpsDriver t ∧ t.polled = [⟨some 0, .respSend, 32, false⟩] ∧
      t.n2c 0 = 58 ∧ total Completion.modelled 0 t.polled = 148) ∧
    (∃ t, Reachable twoQpsDriver t ∧ t.polled = [⟨some 0, .reqErr, 0, false⟩] ∧
      t.n2c 0 = 0 ∧ total Completion.modelled 0 t.polled = 90) ∧
    ∃ t, Reachable twoQpsDriver t ∧ t.polled = [⟨none, .respSend, 32, true⟩] ∧
      t.crashed = true := by
  have hrecv := reachable_entry (.init rfl) rfl ⟨.respSend, 7, 0, 32⟩
  have hfailed := reachable_entry (.init rfl) rfl ⟨.reqErr, 7, 0, 0⟩
  have hcrash := reachable_entry (.init rfl) rfl ⟨.respSend, 8, 3, 32⟩
  exact ⟨⟨_, hrecv, rfl, by decide, by decide⟩, ⟨_, hfailed, rfl, by decide, by decide⟩,
    ⟨_, hcrash, rfl, rfl⟩⟩

end RdmaBench.Mlx5.PollOne
