import RdmaBench.Lib.Asserts
import RdmaBench.Mlx5.Pcie

/-! # Sends in the instrumented driver

`__mlx5_post_send` writes a list of requests into the send queue, one WQE each,
and then tells the NIC, either by copying the last WQE through BlueFlame or by
ringing the doorbell. Before it does so it adds to the statistics of the queue
pair what that will cost on the bus, for which it decides once more which of the
two ways `__ring_db` will take. A request that cannot be posted ends the list with
a jump over the statistics, but the WQEs before it are rung all the same. -/

namespace RdmaBench.Mlx5.PostSend
open RdmaBench.Lib.Asserts RdmaBench.Mlx5.Pcie

/-! ## Queue pairs and requests -/

inductive DbMethod where
  | dedicBf1Thread | dedicBf | bf | db
deriving DecidableEq

structure Bf where
  offset : UInt32
  bufSize : UInt32
  dbMethod : DbMethod

/-- The fields of `qp->sq` and `qp->gen_data` that posting reads. The two flags are
those of `create_flags`. -/
structure Qp where
  wqeCnt : UInt32
  head : UInt32
  tail : UInt32
  maxPost : UInt32
  maxGs : Int
  scurPost : UInt32
  ignoreSqOverflow : Bool
  managedSend : Bool
  bf : Bf

abbrev Errno := Nat

def enomem : Errno := 12

/-- A WQE, by the 16-byte blocks that it spans. It has a control segment at least. -/
structure Wqe where
  size : Nat
  size_pos : 0 < size

/-- A request, with what `post_send_one` does with it. -/
structure SendWr where
  numSge : Int
  postSendOne : Except Errno Wqe

def divRoundUp (n d : Nat) : Nat := (n + d - 1) / d

/-- Cache lines of a WQE. -/
def Wqe.lines (w : Wqe) : Nat := divRoundUp (w.size * 16) 64

/-! ## Posting -/

def wqOverflow (qp : Qp) (nreq : Nat) : Bool :=
  qp.maxPost ≤ qp.head - qp.tail + UInt32.ofNat nreq

/-- The two checks before `post_send_one`. A request that fails one of them is refused with
`ENOMEM`. -/
def Refused (qp : Qp) (nreq : Nat) (numSge : Int) : Prop :=
  qp.ignoreSqOverflow = false ∧ wqOverflow qp nreq ∨ qp.maxGs < numSge

instance (qp : Qp) (nreq : Nat) (numSge : Int) : Decidable (Refused qp nreq numSge) :=
  inferInstanceAs (Decidable (_ ∨ _))

/-- The variables of the loop. `seg`, the slot of the WQE, and `size` are not
initialised. -/
structure Loop where
  nreq : Nat
  scurPost : UInt32
  seg : Option UInt32
  size : Option Nat
  totCachelines : Nat

/-- Why the loop stopped before the end of the list, and `*bad_wr`. -/
structure Stop where
  errno : Errno
  badWr : List SendWr

/-- A WQE has been written. -/
def Loop.add (l : Loop) (wqe : Wqe) : Loop :=
  { l with
    nreq := l.nreq + 1
    scurPost := l.scurPost + UInt32.ofNat wqe.lines
    size := some wqe.size
    totCachelines := l.totCachelines + wqe.lines }

def postLoop (qp : Qp) : List SendWr → Loop → Loop × Option Stop
  | [], l => (l, none)
  | wr :: rest, l =>
    -- the slot is taken before the request is checked
    let l := { l with seg := some (l.scurPost &&& (qp.wqeCnt - 1)) }
    if Refused qp l.nreq wr.numSge then (l, some ⟨enomem, wr :: rest⟩)
    else
      match wr.postSendOne with
      | .error e => (l, some ⟨e, wr :: rest⟩)
      | .ok wqe => postLoop qp rest (l.add wqe)

/-! ## Statistics -/

structure Stats where
  pcieC2nBytes : Int
  pcieN2cBytes : Int

/-- An uninitialised variable is read, or the assert fails. -/
inductive Fault where
  | uninitialised | singleWqe
deriving DecidableEq

def initialised {α : Type} : Option α → Except Fault α
  | none => .error .uninitialised
  | some a => .ok a

theorem of_initialised {α : Type} {x : Option α} {a : α} (h : initialised x = .ok a) :
    x = some a := by
  cases x with
  | none => cases h
  | some b => rw [Except.ok.inj h]

/-- The statistics collection code. -/
def collect (bf : Bf) (l : Loop) (s : Stats) : Except Fault Stats := do
  let lastWqeCachelines := ((← initialised l.size) + 3) / 4
  if l.nreq = 1 then
    check (lastWqeCachelines = l.totCachelines) Fault.singleWqe
    if lastWqeCachelines ≤ bf.bufSize.toNat / 64 then
      pure { s with pcieC2nBytes := s.pcieC2nBytes + mlx5HrdWcC2n lastWqeCachelines }
    else
      pure ⟨s.pcieC2nBytes + (mlx5HrdDoorbellC2n + mlx5HrdDmaReadC2n (lastWqeCachelines * 64)),
        s.pcieN2cBytes + mlx5HrdDmaReadN2c⟩
  else if lastWqeCachelines ≤ bf.bufSize.toNat / 64 then
    pure ⟨s.pcieC2nBytes + mlx5HrdWcC2n lastWqeCachelines +
        mlx5HrdDmaReadC2n (l.totCachelines * 64),
      s.pcieN2cBytes + mlx5HrdDmaReadN2c⟩
  else
    pure ⟨s.pcieC2nBytes + (mlx5HrdDoorbellC2n + mlx5HrdDmaReadC2n (l.totCachelines * 64)),
      s.pcieN2cBytes + mlx5HrdDmaReadN2c⟩

/-! ## Ringing -/

/-- What is written to the NIC: cache lines from a slot on, or the first eight bytes
of the slot. -/
inductive Mmio where
  | bfCopy (seg : UInt32) (lines : Nat)
  | writeDb (seg : UInt32)
deriving DecidableEq

structure Rung where
  dbRecord : UInt32
  offset : UInt32
  mmio : Mmio

def ringDb (bf : Bf) (currPost seg : UInt32) (size : Nat) : Rung :=
  match bf.dbMethod with
  | .dedicBf1Thread | .dedicBf | .bf =>
    ⟨currPost, bf.offset ^^^ bf.bufSize,
      if size ≤ bf.bufSize.toNat / 64 then .bfCopy seg size else .writeDb seg⟩
  | .db => ⟨currPost, bf.offset, .writeDb seg⟩

/-- What a call leaves: the fields of the queue pair that it changes, the
statistics, what it told the NIC, and its error. -/
structure Sent where
  head : UInt32
  scurPost : UInt32
  stats : Stats
  rung : Option Rung
  stop : Option Stop

/-- From the label `out` on. -/
def out (qp : Qp) (l : Loop) (s : Stats) (stop : Option Stop) : Except Fault Sent := do
  if l.nreq = 0 then pure ⟨qp.head, l.scurPost, s, none, stop⟩
  else
    let head := qp.head + UInt32.ofNat l.nreq
    if qp.managedSend then pure ⟨head, l.scurPost, s, none, stop⟩
    else
      let rung := ringDb qp.bf (l.scurPost &&& 0xffff) (← initialised l.seg)
        (((← initialised l.size) + 3) / 4)
      pure ⟨head, l.scurPost, s, some rung, stop⟩

/-- `__mlx5_post_send`. -/
def postSend (qp : Qp) (s : Stats) (wrs : List SendWr) : Except Fault Sent :=
  match postLoop qp wrs ⟨0, qp.scurPost, none, none, 0⟩ with
  | (l, some stop) => out qp l s (some stop)
  | (l, none) => do out qp l (← collect qp.bf l s) none

/-! ## What is posted, and what that costs -/

/-- The WQE of a request, if it is the `nreq`-th of its call and can be posted. -/
def accepted (qp : Qp) (nreq : Nat) (wr : SendWr) : Option Wqe :=
  if Refused qp nreq wr.numSge then none else wr.postSendOne.toOption

/-- The WQEs that a call posts: those before the first request that cannot be. -/
def posted (qp : Qp) : Nat → List SendWr → List Wqe
  | _, [] => []
  | nreq, wr :: rest =>
    match accepted qp nreq wr with
    | none => []
    | some wqe => wqe :: posted qp (nreq + 1) rest

/-- Cache lines of all WQEs. -/
def totalLines (l : List Wqe) : Nat := (l.map Wqe.lines).sum

/-- Cache lines of the last WQE. -/
def lastLines (l : List Wqe) : Nat := l.getLast?.elim 0 Wqe.lines

/-- Bytes of the writes to the NIC. -/
def mmioC2n (l : List Wqe) : Option Mmio → Nat
  | none => 0
  | some (.bfCopy _ _) => 90 * lastLines l
  | some (.writeDb _) => 34

/-- The NIC reads the WQEs unless a single one was copied to it. -/
def dmaRead (l : List Wqe) : Option Mmio → Bool
  | some (.bfCopy _ _) => 1 < l.length
  | _ => 0 < l.length

/-- By the PCIe model, for the WQEs posted and the way they were announced. -/
def modelledC2n (l : List Wqe) (mmio : Option Mmio) : Nat :=
  mmioC2n l mmio +
    if dmaRead l mmio then 64 * totalLines l + 22 * ((64 * totalLines l + 255) / 256) else 0

def modelledN2c (l : List Wqe) (mmio : Option Mmio) : Nat := if dmaRead l mmio then 26 else 0

/-! ## The loop -/

variable {qp : Qp} {l l' : Loop} {wr : SendWr} {wrs rest : List SendWr} {wqe : Wqe}
  {ws : List Wqe} {stop : Option Stop} {s : Stats}

/-- The slot that the next WQE gets. -/
def Loop.slot (qp : Qp) (l : Loop) : UInt32 := l.scurPost &&& (qp.wqeCnt - 1)

theorem postLoop_accepted (h : accepted qp l.nreq wr = some wqe) :
    postLoop qp (wr :: rest) l = postLoop qp rest ({ l with seg := some (l.slot qp) }.add wqe) := by
  simp only [accepted] at h
  split at h
  · cases h
  · rename_i hpass
    rw [postLoop]
    simp only [hpass, if_false, ok_of_toOption h]
    rfl

theorem postLoop_rejected (rest : List SendWr) (h : accepted qp l.nreq wr = none) :
    ∃ e, postLoop qp (wr :: rest) l =
      ({ l with seg := some (l.slot qp) }, some ⟨e, wr :: rest⟩) := by
  simp only [accepted] at h
  rw [postLoop]
  split at h
  · rename_i hrefused
    exact ⟨enomem, by simp only [hrefused, if_true]; rfl⟩
  · rename_i hpass
    cases hone : wr.postSendOne with
    | ok wqe =>
      rw [hone] at h
      cases h
    | error e => exact ⟨e, by simp only [hpass, if_false]; rfl⟩

/-- What the loop has computed at its end. -/
structure LoopEnd (qp : Qp) (wrs : List SendWr) (l l' : Loop) (stop : Option Stop) : Prop where
  nreq : l'.nreq = l.nreq + (posted qp l.nreq wrs).length
  lines : l'.totCachelines = l.totCachelines + totalLines (posted qp l.nreq wrs)
  size : l'.size = ((posted qp l.nreq wrs).getLast?.map Wqe.size).or l.size
  all : stop = none ↔ (posted qp l.nreq wrs).length = wrs.length
  seg : wrs ≠ [] ∨ l.seg.isSome → l'.seg.isSome
  slot : stop ≠ none → l'.seg = some (l'.slot qp)

theorem postLoop_end (h : postLoop qp wrs l = (l', stop)) : LoopEnd qp wrs l l' stop := by
  induction wrs generalizing l with
  | nil =>
    cases h
    constructor <;> simp [posted, totalLines]
  | cons wr rest ih =>
    cases hacc : accepted qp l.nreq wr with
    | none =>
      obtain ⟨e, he⟩ := postLoop_rejected rest hacc
      cases he.symm.trans h
      constructor <;> simp [posted, hacc, totalLines, Loop.slot]
    | some wqe =>
      rw [postLoop_accepted hacc] at h
      have hend := ih h
      have hposted : posted qp l.nreq (wr :: rest) = wqe :: posted qp (l.nreq + 1) rest := by
        rw [posted, hacc]
      constructor
      case nreq =>
        rw [hend.nreq, hposted, List.length_cons]
        simp only [Loop.add]
        omega
      case lines =>
        rw [hend.lines, hposted]
        simp [totalLines, Loop.add, add_assoc]
      case size =>
        rw [hend.size, hposted, List.getLast?_cons]
        show ((posted qp (l.nreq + 1) rest).getLast?.map Wqe.size).or (some wqe.size) = _
        cases (posted qp (l.nreq + 1) rest).getLast? <;> rfl
      case all =>
        rw [hend.all, hposted]
        simp [Loop.add]
      case seg => exact fun _ => hend.seg (.inr rfl)
      case slot => exact hend.slot

/-! ## Charges -/

theorem Wqe.lines_eq (w : Wqe) : w.lines = (w.size + 3) / 4 := by
  simp only [Wqe.lines, divRoundUp]
  omega

theorem Wqe.lines_pos (w : Wqe) : 0 < w.lines := by
  have hpos := w.size_pos
  rw [w.lines_eq]
  omega

theorem lastLines_le (ws : List Wqe) : lastLines ws ≤ totalLines ws := by
  cases hlast : ws.getLast? with
  | none => simp [lastLines, hlast]
  | some w =>
    have hmem : w ∈ ws := List.mem_of_getLast? hlast
    simp only [lastLines, hlast, Option.elim_some]
    exact List.le_sum_of_mem (List.mem_map_of_mem hmem)

theorem lastLines_pos (h : ws ≠ []) : 0 < lastLines ws := by
  rw [lastLines, List.getLast?_eq_some_getLast h]
  exact Wqe.lines_pos _

/-- `(size + 3) / 4` after the loop. -/
theorem size_lastLines (hne : ws ≠ []) (hsize : l.size = ws.getLast?.map Wqe.size) :
    ∃ n, l.size = some n ∧ (n + 3) / 4 = lastLines ws := by
  refine ⟨(ws.getLast hne).size, ?_, ?_⟩
  · rw [hsize, List.getLast?_eq_some_getLast hne, Option.map_some]
  · rw [lastLines, List.getLast?_eq_some_getLast hne, Option.elim_some, Wqe.lines_eq]

/-- The way that the statistics expect `__ring_db` to take. -/
def expected (bf : Bf) (lines : Nat) (seg : UInt32) : Mmio :=
  if lines ≤ bf.bufSize.toNat / 64 then .bfCopy seg lines else .writeDb seg

/-- Of a single WQE, the last one is all. -/
theorem totalLines_single (h : ws.length = 1) : totalLines ws = lastLines ws := by
  obtain ⟨w, rfl⟩ := List.length_eq_one_iff.mp h
  simp [totalLines, lastLines]

theorem wcC2n_eq (n : Nat) : mlx5HrdWcC2n n = 90 * n := by
  simp only [mlx5HrdWcC2n, mlx5HrdPcie3ReqHdrSz]
  omega

theorem readC2n_lines (n : Nat) :
    mlx5HrdDmaReadC2n (n * 64) = 64 * n + 22 * ((64 * n + 255) / 256) := by
  rw [dmaReadC2n_eq, Nat.mul_comm n 64]

theorem modelled_writeDb (hne : ws ≠ []) (seg : UInt32) :
    modelledC2n ws (some (.writeDb seg)) =
        mlx5HrdDoorbellC2n + mlx5HrdDmaReadC2n (totalLines ws * 64) ∧
      modelledN2c ws (some (.writeDb seg)) = mlx5HrdDmaReadN2c := by
  have hpos : 0 < ws.length := List.length_pos_iff.mpr hne
  simp [modelledC2n, modelledN2c, mmioC2n, dmaRead, hpos, readC2n_lines, mlx5HrdDoorbellC2n,
    mlx5HrdDmaReadN2c, mlx5HrdPcie3ReqHdrSz]

theorem modelled_copy_single (h : ws.length = 1) (seg : UInt32) (lines : Nat) :
    modelledC2n ws (some (.bfCopy seg lines)) = mlx5HrdWcC2n (lastLines ws) ∧
      modelledN2c ws (some (.bfCopy seg lines)) = 0 := by
  simp [modelledC2n, modelledN2c, mmioC2n, dmaRead, h, wcC2n_eq]

theorem modelled_copy_many (h : 1 < ws.length) (seg : UInt32) (lines : Nat) :
    modelledC2n ws (some (.bfCopy seg lines)) =
        mlx5HrdWcC2n (lastLines ws) + mlx5HrdDmaReadC2n (totalLines ws * 64) ∧
      modelledN2c ws (some (.bfCopy seg lines)) = mlx5HrdDmaReadN2c := by
  simp [modelledC2n, modelledN2c, mmioC2n, dmaRead, h, wcC2n_eq, readC2n_lines,
    mlx5HrdDmaReadN2c, mlx5HrdPcie3ReqHdrSz]

/-- The statistics follow the PCIe model for the way they expect, and the assert
never fails. -/
theorem collect_eq (hne : ws ≠ []) (hnreq : l.nreq = ws.length)
    (hlines : l.totCachelines = totalLines ws) (hsize : l.size = ws.getLast?.map Wqe.size)
    (bf : Bf) (seg : UInt32) :
    collect bf l s = .ok
      ⟨s.pcieC2nBytes + modelledC2n ws (some (expected bf (lastLines ws) seg)),
        s.pcieN2cBytes + modelledN2c ws (some (expected bf (lastLines ws) seg))⟩ := by
  have hpos : 0 < ws.length := List.length_pos_iff.mpr hne
  obtain ⟨n, hn, hc⟩ := size_lastLines hne hsize
  have hwrite := modelled_writeDb hne seg
  simp only [collect, hn, initialised, hc, hnreq, hlines, expected, bind, Except.bind]
  by_cases hone : ws.length = 1
  · have hcopy := modelled_copy_single hone seg (lastLines ws)
    have htotal := totalLines_single hone
    simp only [hone, htotal, check, if_true] at hwrite ⊢
    split
    · simp [hcopy, pure, Except.pure]
    · simp [hwrite, pure, Except.pure]
  · have hcopy := modelled_copy_many (by omega : 1 < ws.length) seg (lastLines ws)
    simp only [hone, if_false]
    split
    · simp [hcopy, pure, Except.pure, add_assoc]
    · simp [hwrite, pure, Except.pure]

/-! ## Where the statistics differ -/

theorem modelledC2n_pos (hne : ws ≠ []) (mmio : Option Mmio) : 0 < modelledC2n ws mmio := by
  have hlast := lastLines_pos hne
  have htotal := lastLines_le ws
  have hpos : 0 < ws.length := List.length_pos_iff.mpr hne
  cases mmio with
  | none =>
    simp only [modelledC2n, mmioC2n, dmaRead, hpos, decide_true, if_true]
    omega
  | some m =>
    cases m with
    | bfCopy seg lines =>
      simp only [modelledC2n, mmioC2n]
      omega
    | writeDb seg =>
      simp only [modelledC2n, mmioC2n]
      omega

/-- Without a write to the NIC there is less to account for. -/
theorem modelled_none_ne (hne : ws ≠ []) (m : Mmio) :
    ¬(modelledC2n ws (some m) = modelledC2n ws none ∧
      modelledN2c ws (some m) = modelledN2c ws none) := by
  have hlast := lastLines_pos hne
  have hpos : 0 < ws.length := List.length_pos_iff.mpr hne
  cases m with
  | bfCopy seg lines =>
    simp only [modelledC2n, modelledN2c, mmioC2n, dmaRead, hpos, decide_true, if_true]
    by_cases hmany : 1 < ws.length <;> simp only [hmany, decide_true, decide_false, if_true,
      Bool.false_eq_true, if_false] <;> omega
  | writeDb seg =>
    simp only [modelledC2n, modelledN2c, mmioC2n, dmaRead, hpos, decide_true, if_true]
    omega

/-- A copy of a WQE costs something else than a doorbell. -/
theorem modelled_copy_ne (hne : ws ≠ []) (seg seg' : UInt32) (lines : Nat) :
    ¬(modelledC2n ws (some (.bfCopy seg lines)) = modelledC2n ws (some (.writeDb seg')) ∧
      modelledN2c ws (some (.bfCopy seg lines)) = modelledN2c ws (some (.writeDb seg'))) := by
  have hpos : 0 < ws.length := List.length_pos_iff.mpr hne
  simp only [modelledC2n, modelledN2c, mmioC2n, dmaRead, hpos, decide_true, if_true]
  by_cases hmany : 1 < ws.length <;> simp only [hmany, decide_true, decide_false, if_true,
    Bool.false_eq_true, if_false] <;> omega

/-- What `__mlx5_post_send` writes to the NIC for the WQEs that it has posted. -/
def announced (qp : Qp) (ws : List Wqe) (seg : UInt32) : Option Mmio :=
  if ws = [] ∨ qp.managedSend then none
  else if qp.bf.dbMethod = .db then some (.writeDb seg)
  else some (expected qp.bf (lastLines ws) seg)

theorem ringDb_mmio (bf : Bf) (currPost seg : UInt32) (n : Nat) :
    (ringDb bf currPost seg n).mmio =
      if bf.dbMethod = .db then .writeDb seg else expected bf n seg := by
  cases h : bf.dbMethod <;> simp [ringDb, h, expected]

theorem out_eq (qp : Qp) (hnreq : l.nreq = ws.length) (hsize : l.size = ws.getLast?.map Wqe.size)
    {seg : UInt32} (hseg : l.seg = some seg) (s : Stats) (stop : Option Stop) :
    ∃ r, out qp l s stop = .ok r ∧ r.stats = s ∧ r.rung.map Rung.mmio = announced qp ws seg := by
  by_cases hws : ws = []
  · refine ⟨⟨qp.head, l.scurPost, s, none, stop⟩, ?_, rfl, ?_⟩
    · simp only [out, hnreq, hws, List.length_nil, if_true]
      rfl
    · simp [announced, hws]
  · have hpos : l.nreq ≠ 0 := by
      rw [hnreq]
      exact (List.length_pos_iff.mpr hws).ne'
    obtain ⟨n, hn, hc⟩ := size_lastLines hws hsize
    simp only [out, hpos, hseg, hn, initialised, if_false]
    cases hman : qp.managedSend with
    | true =>
      refine ⟨_, rfl, rfl, ?_⟩
      simp [announced, hman]
    | false =>
      refine ⟨_, rfl, rfl, ?_⟩
      simp only [announced, hman, hws, Option.map_some, ringDb_mmio, hc]
      split <;> simp

/-- A call of `__mlx5_post_send` with at least one request. -/
theorem postSend_eq (qp : Qp) (s : Stats) (hne : wrs ≠ []) : ∃ r seg, postSend qp s wrs = .ok r ∧
    r.rung.map Rung.mmio = announced qp (posted qp 0 wrs) seg ∧
    r.stats = if (posted qp 0 wrs).length = wrs.length then
      ⟨s.pcieC2nBytes + modelledC2n (posted qp 0 wrs)
          (some (expected qp.bf (lastLines (posted qp 0 wrs)) seg)),
        s.pcieN2cBytes + modelledN2c (posted qp 0 wrs)
          (some (expected qp.bf (lastLines (posted qp 0 wrs)) seg))⟩ else s := by
  cases hloop : postLoop qp wrs ⟨0, qp.scurPost, none, none, 0⟩ with
  | mk l stop =>
    have hend := postLoop_end hloop
    have hnreq : l.nreq = (posted qp 0 wrs).length := by simpa using hend.nreq
    have hlines : l.totCachelines = totalLines (posted qp 0 wrs) := by simpa using hend.lines
    have hsize : l.size = (posted qp 0 wrs).getLast?.map Wqe.size := by simpa using hend.size
    obtain ⟨seg, hseg⟩ := Option.isSome_iff_exists.mp (hend.seg (.inl hne))
    have hall : stop = none ↔ (posted qp 0 wrs).length = wrs.length := hend.all
    cases stop with
    | some st =>
      have hfew : (posted qp 0 wrs).length ≠ wrs.length := fun h => by simpa using hall.mpr h
      obtain ⟨r, hr, hstats, hrung⟩ := out_eq qp hnreq hsize hseg s (some st)
      refine ⟨r, seg, ?_, hrung, ?_⟩
      · rw [postSend, hloop]
        exact hr
      · rw [if_neg hfew, hstats]
    | none =>
      have hlen := hall.mp rfl
      have hws : posted qp 0 wrs ≠ [] := by
        intro h
        rw [h] at hlen
        exact hne (List.length_eq_zero_iff.mp hlen.symm)
      obtain ⟨r, hr, hstats, hrung⟩ := out_eq qp hnreq hsize hseg _ none
      refine ⟨r, seg, ?_, hrung, ?_⟩
      · rw [postSend, hloop]
        simp only [collect_eq hws hnreq hlines hsize qp.bf seg]
        exact hr
      · rw [if_pos hlen, hstats]

/-- The statistics expect the way that `__ring_db` takes. -/
theorem expected_iff (hne : ws ≠ []) (seg : UInt32) :
    (modelledC2n ws (some (expected qp.bf (lastLines ws) seg)) =
          modelledC2n ws (announced qp ws seg) ∧
        modelledN2c ws (some (expected qp.bf (lastLines ws) seg)) =
          modelledN2c ws (announced qp ws seg)) ↔
      qp.managedSend = false ∧
        (qp.bf.dbMethod = .db → qp.bf.bufSize.toNat / 64 < lastLines ws) := by
  cases hman : qp.managedSend with
  | true =>
    have hnone := modelled_none_ne hne (expected qp.bf (lastLines ws) seg)
    simp [announced, hman, hnone]
  | false =>
    by_cases hdb : qp.bf.dbMethod = .db
    · simp only [announced, hne, hman, hdb, expected]
      split
      · rename_i hsmall
        have hcopy := modelled_copy_ne hne seg seg (lastLines ws)
        simp [hcopy, hsmall]
      · rename_i hlarge
        simp [not_le.mp hlarge]
    · simp [announced, hne, hman, hdb]

/-! ## No overflow -/

theorem accepted_room (hcheck : qp.ignoreSqOverflow = false) {n : Nat}
    (hroom : (qp.head - qp.tail).toNat + n ≤ qp.maxPost.toNat)
    (h : accepted qp n wr = some wqe) : (qp.head - qp.tail).toNat + n < qp.maxPost.toNat := by
  have hno : ¬qp.maxPost ≤ qp.head - qp.tail + UInt32.ofNat n := by
    intro hfull
    simp [accepted, Refused, hcheck, wqOverflow, hfull] at h
  have hmax := qp.maxPost.toNat_lt
  rw [UInt32.le_iff_toNat_le, UInt32.toNat_add, UInt32.toNat_ofNat'] at hno
  omega

/-- As long as the queue is checked, no more is posted than fits in it. -/
theorem posted_length_le (wrs : List SendWr) (hcheck : qp.ignoreSqOverflow = false) {n : Nat}
    (hroom : (qp.head - qp.tail).toNat + n ≤ qp.maxPost.toNat) :
    (qp.head - qp.tail).toNat + n + (posted qp n wrs).length ≤ qp.maxPost.toNat := by
  induction wrs generalizing n with
  | nil => simpa [posted] using hroom
  | cons wr rest ih =>
    rw [posted]
    cases hacc : accepted qp n wr with
    | none => simpa using hroom
    | some wqe =>
      have hlt := accepted_room hcheck hroom hacc
      have hrest := ih (n := n + 1) (by omega)
      rw [List.length_cons]
      omega

theorem modelledC2n_le (ws : List Wqe) (mmio : Option Mmio) :
    modelledC2n ws mmio ≤ 34 + 90 * totalLines ws + 64 * totalLines ws +
      22 * ((64 * totalLines ws + 255) / 256) := by
  have hlast := lastLines_le ws
  have hmmio : mmioC2n ws mmio ≤ 34 + 90 * totalLines ws := by
    unfold mmioC2n
    split <;> omega
  unfold modelledC2n
  split <;> omega

/-- A queue of at most 512 MB, for WQEs of up to `n` cache lines. -/
structure Bounded (qp : Qp) (n : Nat) : Prop where
  checked : qp.ignoreSqOverflow = false
  room : (qp.head - qp.tail).toNat ≤ qp.maxPost.toNat
  size : qp.maxPost.toNat * n ≤ 2 ^ 23

/-- The sums in the statistics are of type `int`, and do not overflow. -/
theorem charges_fit {n : Nat} (h : Bounded qp n) (hlines : ∀ w ∈ posted qp 0 wrs, w.lines ≤ n)
    (mmio : Option Mmio) : modelledC2n (posted qp 0 wrs) mmio < 2 ^ 31 := by
  have hsize := h.size
  have hlength := posted_length_le wrs h.checked (n := 0) h.room
  have htotal : totalLines (posted qp 0 wrs) ≤ qp.maxPost.toNat * n := by
    calc totalLines (posted qp 0 wrs) ≤ (posted qp 0 wrs).length * n := by
          simpa [totalLines] using
            List.sum_le_card_nsmul ((posted qp 0 wrs).map Wqe.lines) n (by simpa using hlines)
      _ ≤ qp.maxPost.toNat * n := Nat.mul_le_mul_right n (by omega)
  have hle := modelledC2n_le (posted qp 0 wrs) mmio
  omega

/-! ## When the statistics are right -/

/-- For every list of requests, wherever it stops, and every queue pair: what is
added to the statistics is what the PCIe model gives for the WQEs that were posted
and the way in which they were announced, if and only if nothing was posted, or
everything was, the doorbell is not left to another queue pair, and the last WQE is
not small enough for BlueFlame while only the doorbell is used. The sums are those of
the driver as long as its `int` does not overflow, as in a queue that is `Bounded`. -/
theorem accounted_iff (qp : Qp) (s : Stats) (hne : wrs ≠ []) : ∃ r, postSend qp s wrs = .ok r ∧
    ((r.stats.pcieC2nBytes = s.pcieC2nBytes +
          modelledC2n (posted qp 0 wrs) (r.rung.map Rung.mmio) ∧
        r.stats.pcieN2cBytes = s.pcieN2cBytes +
          modelledN2c (posted qp 0 wrs) (r.rung.map Rung.mmio)) ↔
      posted qp 0 wrs = [] ∨ (posted qp 0 wrs).length = wrs.length ∧ qp.managedSend = false ∧
        (qp.bf.dbMethod = .db → qp.bf.bufSize.toNat / 64 < lastLines (posted qp 0 wrs))) ∧
    ∀ n, Bounded qp n → (∀ w ∈ posted qp 0 wrs, w.lines ≤ n) → ∀ mmio,
      modelledC2n (posted qp 0 wrs) mmio < 2 ^ 31 := by
  obtain ⟨r, seg, hr, hrung, hstats⟩ := postSend_eq qp s hne
  refine ⟨r, hr, ?_, fun n hbounded hlines mmio => charges_fit hbounded hlines mmio⟩
  rw [hrung, hstats]
  generalize posted qp 0 wrs = ws
  by_cases hws : ws = []
  · subst hws
    have hlen : 0 ≠ wrs.length := (List.length_pos_iff.mpr hne).ne
    simp [hlen, announced, modelledC2n, modelledN2c, mmioC2n, dmaRead]
  · by_cases hlen : ws.length = wrs.length
    · simp only [hlen, hws, if_true, add_right_inj, Nat.cast_inj, false_or, true_and]
      exact expected_iff hws seg
    · have hpos := modelledC2n_pos hws (announced qp ws seg)
      simp only [hlen, hws, if_false, false_or, false_and, iff_false]
      omega

/-- A queue pair with room for 16 requests and a BlueFlame buffer of 256 bytes. -/
def smallQp (method : DbMethod) : Qp where
  wqeCnt := 16
  head := 0
  tail := 0
  maxPost := 16
  maxGs := 4
  scurPost := 0
  ignoreSqOverflow := false
  managedSend := false
  bf := ⟨0, 256, method⟩

/-- A request whose WQE has two blocks, as for a send with one gather entry. -/
def send : SendWr := ⟨1, .ok ⟨2, by decide⟩⟩

/-- A request with more gather entries than the queue pair allows. -/
def tooLong : SendWr := ⟨5, .ok ⟨6, by decide⟩⟩

theorem accounted_postlist : ∃ r, postSend (smallQp .bf) ⟨0, 0⟩ [send, send] = .ok r ∧
    r.stats.pcieC2nBytes = 0 + modelledC2n (posted (smallQp .bf) 0 [send, send])
      (r.rung.map Rung.mmio) ∧
    modelledC2n (posted (smallQp .bf) 0 [send, send]) (r.rung.map Rung.mmio) < 2 ^ 31 := by
  have hne : [send, send] ≠ [] := List.cons_ne_nil _ _
  have hbounded : Bounded (smallQp .bf) 1 := ⟨rfl, by decide, by decide⟩
  obtain ⟨r, hr, hiff, hfit⟩ := accounted_iff (smallQp .bf) ⟨0, 0⟩ hne
  exact ⟨r, hr, (hiff.mpr (.inr ⟨rfl, rfl, by decide⟩)).1, hfit 1 hbounded (by decide) _⟩

/-- A WQE is posted and copied, from the wrong slot, but the request after it is
refused, and nothing is added. A WQE that is announced by the doorbell alone is
charged as a copy. -/
theorem send_not_accounted :
    (∃ r, postSend (smallQp .bf) ⟨0, 0⟩ [send, tooLong] = .ok r ∧
      r.rung.map Rung.mmio = some (.bfCopy 1 1) ∧ r.stats = ⟨0, 0⟩ ∧
      modelledC2n (posted (smallQp .bf) 0 [send, tooLong]) (r.rung.map Rung.mmio) = 90) ∧
    ∃ r, postSend (smallQp .db) ⟨0, 0⟩ [send] = .ok r ∧
      r.rung.map Rung.mmio = some (.writeDb 0) ∧ r.stats = ⟨90, 0⟩ ∧
      modelledC2n (posted (smallQp .db) 0 [send]) (r.rung.map Rung.mmio) = 120 ∧
      modelledN2c (posted (smallQp .db) 0 [send]) (r.rung.map Rung.mmio) = 26 :=
  ⟨⟨_, rfl, by decide, rfl, by decide⟩, ⟨_, rfl, by decide, rfl, by decide, by decide⟩⟩

/-! ## After an error -/

def Mmio.seg : Mmio → UInt32
  | .bfCopy seg _ | .writeDb seg => seg

theorem ringDb_seg (bf : Bf) (currPost seg : UInt32) (n : Nat) :
    (ringDb bf currPost seg n).mmio.seg = seg := by
  rw [ringDb_mmio, expected]
  split
  · rfl
  · split <;> rfl

theorem out_seg {r : Sent} (h : out qp l s stop = .ok r) :
    r.stop = stop ∧ r.scurPost = l.scurPost ∧ ∀ g, r.rung = some g → l.seg = some g.mmio.seg := by
  unfold out at h
  split at h
  · cases h
    exact ⟨rfl, rfl, fun g hg => by cases hg⟩
  · split at h
    · cases h
      exact ⟨rfl, rfl, fun g hg => by cases hg⟩
    · cases hseg : l.seg with
      | none =>
        rw [hseg] at h
        cases h
      | some seg =>
        cases hsize : l.size with
        | none =>
          rw [hseg, hsize] at h
          cases h
        | some n =>
          rw [hseg, hsize] at h
          cases h
          refine ⟨rfl, rfl, ?_⟩
          intro g hg
          cases hg
          rw [ringDb_seg]

/-- What is written to the NIC after an error is not the last WQE, but what stands in
the slot behind it. -/
theorem stopped_slot {r : Sent} {g : Rung} (h : postSend qp s wrs = .ok r)
    (hstop : r.stop ≠ none) (hrung : r.rung = some g) :
    g.mmio.seg = r.scurPost &&& (qp.wqeCnt - 1) := by
  unfold postSend at h
  cases hloop : postLoop qp wrs ⟨0, qp.scurPost, none, none, 0⟩ with
  | mk l stop =>
    rw [hloop] at h
    cases stop with
    | none =>
      obtain ⟨s', _, hout⟩ := bind_ok h
      exact absurd (out_seg hout).1 hstop
    | some st =>
      obtain ⟨-, hscur, hseg⟩ := out_seg h
      have hslot := (postLoop_end hloop).slot (Option.some_ne_none st)
      rw [hscur]
      exact Option.some.inj ((hseg g hrung).symm.trans hslot)

end RdmaBench.Mlx5.PostSend
