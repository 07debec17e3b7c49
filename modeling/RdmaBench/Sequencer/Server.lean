import RdmaBench.Lib.Chain
import RdmaBench.Sequencer.Model

/-! # The loop of a sequencer server

`run_server` of `ss-sequencer` with its arrays. The completions of a batch of
requests are in `wc`, whose first entry is overwritten when the loop polls for
a completed send in the middle of the batch. `sgl` is filled for the RECVs that
are posted first and then again for the responses. Whatever the arrays held,
the responses of a batch are those of the abstract server, in the same order,
each to the sender of its request. -/

namespace RdmaBench.Sequencer.Server
open RdmaBench.Lib.Chain RdmaBench.Lib.Runs RdmaBench.Sequencer.Model
open RdmaBench.Postlist.Worker (hrdModAdd)

/-! ## Data -/

def numUdQps : Nat := 3
def cachelineSize : Nat := 64
def maxPostlist : Nat := 128
def unsigBatch : Nat := 64
def hrdMaxLid : Nat := 256
def hrdDefaultQkey : UInt32 := 0x11111111

/-- What a server thread is started with: `postlist`, the port of its control
block and the key of its registered buffer. -/
structure Config where
  postlist : Nat
  devPortId : Nat
  lkey : Nat

/-- The fields of a completion that the server reads. -/
structure Wc where
  slid : UInt16
  srcQp : UInt32
  immData : UInt32
deriving DecidableEq

/-- An address handle, by the attributes it was created with. -/
structure Ah where
  isGlobal : Nat
  dlid : Nat
  sl : Nat
  srcPathBits : Nat
  portNum : Nat
deriving DecidableEq

/-- The addresses in the scatter-gather entries: the start of `dgram_buf`, or an
element of `resp_buf`. -/
inductive Addr where
  | dgramBuf
  | respBuf (i : Nat)
deriving DecidableEq

structure Sge where
  addr : Addr
  length : Nat
  lkey : Nat
deriving DecidableEq

inductive Opcode where
  | send | sendWithImm
deriving DecidableEq

/-- A send work request; `sgList` and `next` are indices in `sgl` and `wr`. -/
structure SendWr where
  ah : Option Ah
  remoteQpn : UInt32
  remoteQkey : UInt32
  numSge : Nat
  next : Option Nat
  sgList : Nat
  opcode : Opcode
  immData : UInt32
  signaled : Bool
  inlined : Bool

structure RecvWr where
  sgList : Nat
  numSge : Nat
  next : Option Nat

/-- The variables of `run_server`. -/
structure State where
  wc : Nat → Wc
  sgl : Nat → Sge
  wr : Nat → SendWr
  recvWr : Nat → RecvWr
  respBuf : Nat → UInt64
  ah : Nat → Option Ah
  nbTx : Nat → Nat
  qpI : Nat

/-- A batch: the completions polled, the value that the fetch-and-add returned,
and what the poll of the send queue writes if it is made in round `w_i`. -/
structure Batch where
  comps : List Wc
  base : UInt64
  polled : Nat → Wc

/-! ## The loop -/

/-- `ibv_poll_cq` fills the first entries of `wc`. -/
def State.pollRecvCq (s : State) (comps : List Wc) : State :=
  { s with wc := fun i => comps.getD i (s.wc i) }

/-- One round of the loop that fills the RECVs. -/
def State.fillRecv (cfg : Config) (numComps : Nat) (s : State) (wI : Nat) : State :=
  { s with
    sgl := Function.update s.sgl wI ⟨.dgramBuf, cachelineSize, cfg.lkey⟩
    recvWr := Function.update s.recvWr wI
      ⟨wI, 1, if wI = numComps - 1 then none else some (wI + 1)⟩ }

/-- `ah[s_lid]`, created on demand. -/
def State.resolve (cfg : Config) (s : State) (lid : Nat) : State :=
  if s.ah lid = none then
    { s with ah := Function.update s.ah lid (some ⟨0, lid, 0, 0, cfg.devPortId⟩) }
  else s

/-- The rest of a round of the loop that fills the responses: the work request,
its entry in `sgl`, and the poll for an earlier signaled send. -/
def State.fillSend (b : Batch) (s : State) (wI : Nat) : State :=
  let wc := s.wc wI
  let respVal := b.base + UInt64.ofNat wI
  let correct := wc.immData = (respVal >>> 32).toUInt32
  let nbTx := s.nbTx s.qpI
  { s with
    wr := Function.update s.wr wI
      { ah := s.ah wc.slid.toNat
        remoteQpn := wc.srcQp
        remoteQkey := hrdDefaultQkey
        numSge := 1
        next := if wI = b.comps.length - 1 then none else some (wI + 1)
        sgList := wI
        opcode := if correct then .sendWithImm else .send
        immData := if correct then (respVal &&& 0xffffffff).toUInt32 else (s.wr wI).immData
        signaled := nbTx &&& (unsigBatch - 1) = 0
        inlined := true }
    sgl := Function.update s.sgl wI
      { s.sgl wI with addr := .respBuf wI, length := if correct then 0 else 8 }
    respBuf := if correct then s.respBuf else Function.update s.respBuf wI respVal
    wc := if nbTx &&& (unsigBatch - 1) = unsigBatch - 1 then Function.update s.wc 0 (b.polled wI)
      else s.wc
    nbTx := Function.update s.nbTx s.qpI (nbTx + 1) }

/-- One round of that loop. -/
def State.respond (cfg : Config) (b : Batch) (s : State) (wI : Nat) : State :=
  (s.resolve cfg (s.wc wI).slid.toNat).fillSend b wI

/-- The first `n` rounds of a loop over `w_i`. -/
def loop (body : State → Nat → State) : Nat → State → State
  | 0, s => s
  | n + 1, s => body (loop body n s) n

/-- A batch up to `ibv_post_send`. -/
def State.fill (cfg : Config) (b : Batch) (s : State) : State :=
  let n := b.comps.length
  loop (State.respond cfg b) n (loop (State.fillRecv cfg n) n (s.pollRecvCq b.comps))

def State.serve (cfg : Config) (b : Batch) (s : State) : State :=
  { s.fill cfg b with qpI := hrdModAdd (s.fill cfg b).qpI numUdQps }

/-! ## What is sent -/

/-- A datagram, with the address handle and queue pair it goes to. -/
structure Message where
  ah : Option Ah
  qpn : UInt32
  qkey : UInt32
  imm : Option UInt32
  payload : List UInt8
deriving DecidableEq

def byteOf (v : UInt64) (k : Nat) : UInt8 := UInt8.ofNat (v.toNat / 256 ^ k)

/-- Byte `k` from an address on. `dgram_buf` was set to zero, and header-only
requests write nothing to it. -/
def State.load (s : State) : Addr → Nat → UInt8
  | .dgramBuf, _ => 0
  | .respBuf i, k => byteOf (s.respBuf (i + k / 8)) (k % 8)

/-- The datagram of a work request. Its data are inlined, and so copied when it
is posted. -/
def State.message (s : State) (wI : Nat) : Message :=
  let wr := s.wr wI
  let sge := s.sgl wr.sgList
  { ah := wr.ah
    qpn := wr.remoteQpn
    qkey := wr.remoteQkey
    imm := match wr.opcode with
      | .sendWithImm => some wr.immData
      | .send => none
    payload := (List.range sge.length).map (s.load sge.addr) }

/-- `ibv_post_send` of `&wr[0]`: the list up to `NULL`, if it has an end within
the array. -/
def State.posted (s : State) : Option (List Message) :=
  (follow (fun i => (s.wr i).next) maxPostlist (some 0)).map (·.map s.message)

/-! ## Runs -/

/-- What `ibv_poll_cq` can return, from senders with LIDs that `ah` has room for. -/
structure Batch.Valid (cfg : Config) (b : Batch) : Prop where
  some : 0 < b.comps.length
  fits : b.comps.length ≤ cfg.postlist
  lids : ∀ wc ∈ b.comps, wc.slid.toNat < hrdMaxLid

/-- A server thread. The arrays other than `ah` and `resp_buf` are not
initialised. -/
def server (cfg : Config) : System State Batch where
  init s := s.respBuf = (fun _ => 0) ∧ s.ah = (fun _ => none) ∧ s.nbTx = (fun _ => 0) ∧ s.qpI = 0
  step s b t := b.Valid cfg ∧ t = s.serve cfg b

/-! ## The responses of the abstract server -/

/-- The handle for the sender of a request. -/
def handle (cfg : Config) (wc : Wc) : Ah := ⟨0, wc.slid.toNat, 0, 0, cfg.devPortId⟩

/-- Whether the sender assumed the upper half of the value. -/
def Assumed (wc : Wc) (v : UInt64) : Prop := wc.immData = (v >>> 32).toUInt32

instance (wc : Wc) (v : UInt64) : Decidable (Assumed wc v) := inferInstanceAs (Decidable (_ = _))

/-- The eight bytes of a value. -/
def wordBytes (v : UInt64) : List UInt8 := (List.range 8).map (byteOf v)

/-- The response with value `v` to a request, to its own sender. -/
def reply (cfg : Config) (v : UInt64) (wc : Wc) : Message where
  ah := some (handle cfg wc)
  qpn := wc.srcQp
  qkey := hrdDefaultQkey
  imm := if Assumed wc v then some (v &&& 0xffffffff).toUInt32 else none
  payload := if Assumed wc v then [] else wordBytes v

/-- The responses to a batch whose values start at `base`. -/
def replies (cfg : Config) (base : UInt64) (comps : List Wc) : List Message :=
  comps.mapIdx fun i wc => reply cfg (base + UInt64.ofNat i) wc

/-! ## One round -/

variable {cfg : Config} {b : Batch} {s t : State} {i k n lid : Nat} {wc : Wc}

/-- Every address handle is for the LID it is kept under. -/
def AhInv (cfg : Config) (s : State) : Prop :=
  ∀ lid h, s.ah lid = some h → h = ⟨0, lid, 0, 0, cfg.devPortId⟩

theorem resolve_frame (cfg : Config) (s : State) (lid : Nat) :
    (s.resolve cfg lid).wc = s.wc ∧ (s.resolve cfg lid).sgl = s.sgl ∧
    (s.resolve cfg lid).wr = s.wr ∧ (s.resolve cfg lid).respBuf = s.respBuf ∧
    (s.resolve cfg lid).nbTx = s.nbTx ∧ (s.resolve cfg lid).qpI = s.qpI := by
  unfold State.resolve
  split
  · exact ⟨rfl, rfl, rfl, rfl, rfl, rfl⟩
  · exact ⟨rfl, rfl, rfl, rfl, rfl, rfl⟩

theorem resolve_ah (h : AhInv cfg s) (lid : Nat) : AhInv cfg (s.resolve cfg lid) ∧
    (s.resolve cfg lid).ah lid = some ⟨0, lid, 0, 0, cfg.devPortId⟩ := by
  unfold State.resolve
  split
  · refine ⟨fun l a ha => ?_, Function.update_self ..⟩
    simp only [Function.update_apply] at ha
    split at ha
    · rename_i he
      rw [he]
      exact (Option.some.inj ha).symm
    · exact h l a ha
  · rename_i hne
    obtain ⟨a, ha⟩ := Option.ne_none_iff_exists'.mp hne
    refine ⟨h, ?_⟩
    rw [ha, h lid a ha]

/-- A work request, its scatter-gather entry and its word of `resp_buf`, filled
in as number `i` for the request `wc`. -/
structure Ready (cfg : Config) (b : Batch) (i : Nat) (wc : Wc) (wr : SendWr) (sge : Sge)
    (word : UInt64) : Prop where
  ah : wr.ah = some (handle cfg wc)
  qpn : wr.remoteQpn = wc.srcQp
  qkey : wr.remoteQkey = hrdDefaultQkey
  sgList : wr.sgList = i
  next : wr.next = if i = b.comps.length - 1 then none else some (i + 1)
  addr : sge.addr = .respBuf i
  short : Assumed wc (b.base + UInt64.ofNat i) → wr.opcode = .sendWithImm ∧
    wr.immData = ((b.base + UInt64.ofNat i) &&& 0xffffffff).toUInt32 ∧ sge.length = 0
  full : ¬ Assumed wc (b.base + UInt64.ofNat i) → wr.opcode = .send ∧
    word = b.base + UInt64.ofNat i ∧ sge.length = 8

/-- Filled in so, it is the response of the abstract server. -/
theorem Ready.message (h : Ready cfg b i wc (s.wr i) (s.sgl i) (s.respBuf i)) :
    s.message i = reply cfg (b.base + UInt64.ofNat i) wc := by
  by_cases hshort : Assumed wc (b.base + UInt64.ofNat i)
  · obtain ⟨hop, himm, hlen⟩ := h.short hshort
    simp only [State.message, reply, h.ah, h.qpn, h.qkey, h.sgList, hop, himm, hlen, hshort,
      if_true, List.range_zero, List.map_nil]
  · obtain ⟨hop, hword, hlen⟩ := h.full hshort
    have hbytes : (List.range 8).map (s.load (.respBuf i)) =
        wordBytes (b.base + UInt64.ofNat i) := by
      refine List.map_congr_left fun k hk => ?_
      have hlt := List.mem_range.mp hk
      rw [State.load, Nat.div_eq_of_lt hlt, Nat.mod_eq_of_lt hlt, Nat.add_zero, hword]
    simp only [State.message, reply, h.ah, h.qpn, h.qkey, h.sgList, hop, hlen, h.addr, hshort,
      if_false, hbytes]

/-- A round reads its own completion before the poll can overwrite one. -/
theorem fillSend_ready (hwc : s.wc k = wc) (hah : s.ah wc.slid.toNat = some (handle cfg wc)) :
    Ready cfg b k wc ((s.fillSend b k).wr k) ((s.fillSend b k).sgl k)
      ((s.fillSend b k).respBuf k) := by
  simp only [State.fillSend, Function.update_self, hwc]
  refine ⟨hah, rfl, rfl, rfl, rfl, rfl, fun hshort => ?_, fun hfull => ?_⟩
  · rw [Assumed] at hshort
    simp only [hshort, if_true, and_self]
  · rw [Assumed] at hfull
    simp only [hfull, if_false, Function.update_self, and_self]

/-- A round writes only the entries with its own number, and the first
completion. -/
theorem fillSend_other (hne : i ≠ k) :
    (s.fillSend b k).wr i = s.wr i ∧ (s.fillSend b k).sgl i = s.sgl i ∧
      (s.fillSend b k).respBuf i = s.respBuf i ∧ (i ≠ 0 → (s.fillSend b k).wc i = s.wc i) := by
  refine ⟨Function.update_of_ne hne .., Function.update_of_ne hne .., ?_, fun h0 => ?_⟩
  · simp only [State.fillSend]
    split
    · rfl
    · exact Function.update_of_ne hne ..
  · simp only [State.fillSend]
    split
    · exact Function.update_of_ne h0 ..
    · rfl

/-- Before round `k`: the responses up to `k` are filled in, and the requests
from `k` on have not been overwritten. -/
structure LoopInv (cfg : Config) (b : Batch) (k : Nat) (s : State) : Prop where
  ah : AhInv cfg s
  ready : ∀ i < k, ∀ wc, b.comps[i]? = some wc →
    Ready cfg b i wc (s.wr i) (s.sgl i) (s.respBuf i)
  requests : ∀ i, k ≤ i → ∀ wc, b.comps[i]? = some wc → s.wc i = wc

theorem LoopInv.respond (h : LoopInv cfg b k s) : LoopInv cfg b (k + 1) (s.respond cfg b k) := by
  obtain ⟨hwc, hsgl, hwr, hbuf, -⟩ := resolve_frame cfg s (s.wc k).slid.toNat
  obtain ⟨hinv, hah⟩ := resolve_ah h.ah (s.wc k).slid.toNat
  refine ⟨hinv, fun i hi wc hcomp => ?_, fun i hi wc hcomp => ?_⟩
  · rcases Nat.lt_succ_iff_lt_or_eq.mp hi with hlt | rfl
    · obtain ⟨hwr', hsgl', hbuf', -⟩ := fillSend_other (b := b)
        (s := s.resolve cfg (s.wc k).slid.toNat) (Nat.ne_of_lt hlt)
      rw [State.respond, hwr', hsgl', hbuf', hwr, hsgl, hbuf]
      exact h.ready i hlt wc hcomp
    · have hreq := h.requests i (Nat.le_refl i) wc hcomp
      rw [hreq] at hah hwc
      rw [State.respond, hreq]
      exact fillSend_ready (by rw [hwc, hreq]) hah
  · -- the completions to come are not the first one
    obtain ⟨-, -, -, hwc'⟩ := fillSend_other (b := b) (s := s.resolve cfg (s.wc k).slid.toNat)
      (Nat.ne_of_gt hi)
    rw [State.respond, hwc' (Nat.ne_of_gt (Nat.lt_of_le_of_lt (Nat.zero_le k) hi)), hwc]
    exact h.requests i (Nat.le_of_succ_le hi) wc hcomp

/-! ## One batch -/

theorem loop_fillRecv (cfg : Config) (m n : Nat) (s : State) :
    (loop (State.fillRecv cfg m) n s).wc = s.wc ∧ (loop (State.fillRecv cfg m) n s).ah = s.ah := by
  induction n with
  | zero => exact ⟨rfl, rfl⟩
  | succ n ih => exact ih

theorem loop_respond (h : LoopInv cfg b 0 s) :
    LoopInv cfg b n (loop (State.respond cfg b) n s) := by
  induction n with
  | zero => exact h
  | succ n ih => exact ih.respond

theorem fill_inv (h : AhInv cfg s) : LoopInv cfg b b.comps.length (s.fill cfg b) := by
  refine loop_respond ?_
  obtain ⟨hwc, hah⟩ := loop_fillRecv cfg b.comps.length b.comps.length (s.pollRecvCq b.comps)
  refine ⟨?_, fun i hi => absurd hi (Nat.not_lt_zero i), fun i _ wc hcomp => ?_⟩
  · intro lid a ha
    rw [hah] at ha
    exact h lid a ha
  · rw [hwc]
    simp only [State.pollRecvCq, List.getD_eq_getElem?_getD, hcomp, Option.getD_some]

/-- The list from `wr[k]` on has the rest of the batch. -/
theorem visits_rest {next : Nat → Option Nat} (hnext : ∀ i < n, next i =
    if i = n - 1 then none else some (i + 1)) (m : Nat) (hm : k + (m + 1) = n) :
    Visits next (some k) (List.range' k (m + 1)) := by
  induction m generalizing k with
  | zero =>
    refine ⟨rfl, ?_⟩
    rw [hnext k (by omega), if_pos (by omega)]
    rfl
  | succ m ih =>
    refine ⟨rfl, ?_⟩
    rw [hnext k (by omega), if_neg (by omega)]
    exact ih (by omega)

/-- The list that is posted has the responses to the batch, in order. -/
theorem fill_posted (h : AhInv cfg s) (hb : 0 < b.comps.length)
    (hmax : b.comps.length ≤ maxPostlist) :
    (s.fill cfg b).posted = some (replies cfg b.base b.comps) := by
  have hinv := fill_inv (b := b) h
  obtain ⟨m, hm⟩ := Nat.exists_eq_add_of_lt hb
  have hnext : ∀ i < b.comps.length, ((s.fill cfg b).wr i).next =
      if i = b.comps.length - 1 then none else some (i + 1) :=
    fun i hi => (hinv.ready i hi _ (List.getElem?_eq_getElem hi)).next
  have hvisits := visits_rest hnext m (k := 0) (by omega)
  have hfollow := hvisits.follow_eq (n := maxPostlist) (by rw [List.length_range']; omega)
  rw [State.posted, hfollow, Option.map_some, replies]
  congr 1
  refine List.ext_getElem? fun i => ?_
  rw [List.getElem?_map, List.getElem?_mapIdx]
  by_cases hi : i < b.comps.length
  · rw [List.getElem?_range' (by omega), List.getElem?_eq_getElem hi, Option.map_some,
      Option.map_some, Nat.zero_add, Nat.one_mul,
      (hinv.ready i hi _ (List.getElem?_eq_getElem hi)).message]
  · rw [List.getElem?_eq_none (by rw [List.length_range']; omega),
      List.getElem?_eq_none (Nat.le_of_not_lt hi)]
    rfl

/-! ## Whole runs -/

theorem server_ah (h : Reachable (server cfg) s) : AhInv cfg s := by
  refine h.invariant (P := AhInv cfg) (fun s hinit => ?_) (fun s b t _ hinv hstep => ?_)
  · intro lid a ha
    rw [hinit.2.1] at ha
    cases ha
  · obtain ⟨-, rfl⟩ := hstep
    exact (fill_inv (b := b) hinv).ah

/-- In every state of a server, for every batch of requests and whatever the
polls for completed sends write to `wc[0]`: the work requests posted are the
responses to the requests of the batch, in order, each to the LID and the queue
pair of its own request, with the values from `base` on. -/
theorem responses_posted (hcfg : cfg.postlist ≤ maxPostlist) (h : Reachable (server cfg) s)
    (hb : b.Valid cfg) :
    (s.fill cfg b).posted =
      some (b.comps.mapIdx fun i wc => reply cfg (b.base + UInt64.ofNat i) wc) :=
  fill_posted (server_ah h) hb.some (Nat.le_trans hb.fits hcfg)

/-- A server that has just started. -/
def start : State where
  wc _ := ⟨0, 0, 0⟩
  sgl _ := ⟨.dgramBuf, 0, 0⟩
  wr _ := ⟨none, 0, 0, 0, none, 0, .send, 0, false, false⟩
  recvWr _ := ⟨0, 0, none⟩
  respBuf _ := 0
  ah _ := none
  nbTx _ := 0
  qpI := 0

/-- Two requests, at a counter value where the upper half changes; the poll for
a completed send would write over the first one. -/
def twoRequests : Batch := ⟨[⟨7, 70, 0⟩, ⟨9, 90, 0⟩], 0xffffffff, fun _ => ⟨1, 1, 1⟩⟩

theorem responses_posted_two : (start.fill ⟨2, 1, 0⟩ twoRequests).posted =
    some [reply ⟨2, 1, 0⟩ 0xffffffff ⟨7, 70, 0⟩, reply ⟨2, 1, 0⟩ 0x100000000 ⟨9, 90, 0⟩] :=
  responses_posted (by decide) (.init ⟨rfl, rfl, rfl, rfl⟩)
    ⟨by decide, by decide, by decide⟩

/-! ## The abstract server -/

/-- A datagram carries a response of the abstract server. -/
def Represents (m : Message) (r : Response) : Prop :=
  m.imm = (if r.withImm then some (UInt32.ofNat r.immData) else none) ∧
  m.payload = if r.withImm then [] else wordBytes (UInt64.ofNat r.value)

theorem assumed_iff (v : UInt64) : Assumed wc v ↔ wc.immData.toNat = v.toNat >>> 32 := by
  have hlt : v.toNat >>> 32 < 2 ^ 32 := by
    have := v.toNat_lt
    rw [Nat.shiftRight_eq_div_pow]
    omega
  have hhi : (v >>> 32).toUInt32.toNat = v.toNat >>> 32 := by
    rw [UInt64.toNat_toUInt32, UInt64.toNat_shiftRight]
    exact Nat.mod_eq_of_lt hlt
  rw [Assumed, ← UInt32.toNat_inj, hhi]

theorem reply_represents (v : UInt64) (qp : Nat) :
    Represents (reply cfg v wc) (answer qp v.toNat wc.immData.toNat) := by
  have hlow : (v &&& 0xffffffff).toUInt32 = UInt32.ofNat (v.toNat &&& 0xffffffff) := by
    refine UInt32.toNat_inj.mp ?_
    rw [UInt64.toNat_toUInt32, UInt64.toNat_and, UInt32.toNat_ofNat']
    rfl
  by_cases h : Assumed wc v
  · have h' := (assumed_iff v).mp h
    simp [Represents, reply, answer, Response.immData, h, h', hlow]
  · have h' : ¬ wc.immData.toNat = v.toNat >>> 32 := fun he => h ((assumed_iff v).mpr he)
    simp [Represents, reply, answer, h, h']

theorem replies_cons (v : UInt64) (comps : List Wc) :
    replies cfg v (wc :: comps) = reply cfg v wc :: replies cfg (v + 1) comps := by
  have hshift : ∀ i : Nat, v + UInt64.ofNat (i + 1) = v + 1 + UInt64.ofNat i := by
    intro i
    rw [UInt64.ofNat_add, UInt64.add_assoc, UInt64.add_comm (UInt64.ofNat i)]
    rfl
  simp only [replies, List.mapIdx_cons, hshift]
  rw [show v + UInt64.ofNat 0 = v from UInt64.add_zero v]

/-- The datagrams of a batch to one client carry, in order, what the abstract
server puts on the wire to it. -/
theorem replies_repliesTo (cfg : Config) (clientOf : Wc → Nat) (cn qp base : Nat)
    (comps : List Wc) :
    List.Forall₂ Represents
      (((comps.zip (replies cfg (UInt64.ofNat base) comps)).filter
        (clientOf ·.1 = cn)).map Prod.snd)
      (repliesTo cn qp base (comps.map fun wc => ⟨clientOf wc, wc.immData.toNat⟩)) := by
  induction comps generalizing base with
  | nil => exact .nil
  | cons wc rest ih =>
    have hnext : UInt64.ofNat base + 1 = UInt64.ofNat (base + 1) := (UInt64.ofNat_add base 1).symm
    have hvalue : (UInt64.ofNat base).toNat = base % 2 ^ 64 := UInt64.toNat_ofNat'
    rw [replies_cons, hnext]
    simp only [List.zip_cons_cons, List.map_cons, repliesTo, ← hvalue]
    by_cases hcn : clientOf wc = cn
    · rw [List.filter_cons_of_pos (by simpa using hcn), if_pos hcn]
      exact .cons (reply_represents _ qp) (ih (base + 1))
    · rw [List.filter_cons_of_neg (by simpa using hcn), if_neg hcn]
      exact ih (base + 1)

/-- What a server thread posts for a batch is what its step of the protocol puts
on the wire, for every client. -/
theorem posted_repliesTo (hcfg : cfg.postlist ≤ maxPostlist) (h : Reachable (server cfg) s)
    (hb : b.Valid cfg) (clientOf : Wc → Nat) :
    ∃ msgs, (s.fill cfg b).posted = some msgs ∧ ∀ cn, List.Forall₂ Represents
      (((b.comps.zip msgs).filter (clientOf ·.1 = cn)).map Prod.snd)
      (repliesTo cn s.qpI b.base.toNat
        (b.comps.map fun wc => ⟨clientOf wc, wc.immData.toNat⟩)) := by
  refine ⟨_, fill_posted (server_ah h) hb.some (Nat.le_trans hb.fits hcfg), fun cn => ?_⟩
  have hrep := replies_repliesTo cfg clientOf cn s.qpI b.base.toNat b.comps
  rwa [UInt64.ofNat_toNat] at hrep

end RdmaBench.Sequencer.Server
