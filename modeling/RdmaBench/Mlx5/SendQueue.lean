import RdmaBench.Lib.Admission
import RdmaBench.Lib.Simulation
import RdmaBench.Lib.Spans
import RdmaBench.Mlx5.PostSend

/-! # The send queue between driver and NIC

`__mlx5_post_send` writes the WQE of each request to the next blocks of the queue, and
remembers at the index of the first one the `wr_id` of the request and its number. The
NIC reads the WQEs up to the doorbell record, in their order, and writes an entry with
the index of the WQE for those that are signaled. `mlx5_poll_one` finds the `wr_id` at
that index, and concludes from the number that all requests up to there are done. Only
this moves the tail, and the tail decides whether a request finds room. Indices have 32
bits in the driver and 16 in the entry and the doorbell record.

Besides the doorbell record the driver writes to the NIC itself, through BlueFlame or by
the doorbell register. A copy through BlueFlame is meant to be the last WQE that was
posted, and the NIC may execute the copy in its place. After a call that is stopped when
it has posted something the copy is another one, see `Label.Whole`. -/

namespace RdmaBench.Mlx5.SendQueue
open RdmaBench.Lib RdmaBench.Lib.Runs RdmaBench.Lib.Simulation RdmaBench.Lib.Spans
open RdmaBench.Lib.Admission RdmaBench.Lib.Asserts RdmaBench.Mlx5.PostSend

/-! ## The driver -/

/-- Blocks of 64 bytes, and `wrid` and `wqe_head`. -/
structure Ring (β : Type) where
  wqes : Nat → β
  wrid : Nat → UInt64
  wqeHead : Nat → UInt32

/-- A request with its WQE. The first block has the size of the WQE, and the queue was
made for WQEs of `maxLines` blocks. -/
structure Request {β : Type} (ds : β → Nat) (maxLines : Nat) where
  wrId : UInt64
  wqe : Wqe
  blocks : List β
  lines : blocks.length = wqe.lines
  size : ∀ b, blocks.head? = some b → ds b = wqe.size
  fits : wqe.lines ≤ maxLines

/-- What `post_send_one` does with a request. When it fails, it may have written a part
of the WQE. -/
inductive Built {β : Type} (ds : β → Nat) (maxLines : Nat) where
  | wqe (r : Request ds maxLines)
  | error (e : Errno) (blocks : List β) (fits : blocks.length ≤ maxLines)

structure Wr {β : Type} (ds : β → Nat) (maxLines : Nat) where
  numSge : Int
  built : Built ds maxLines

variable {β : Type} {ds : β → Nat} {m : Nat}

/-- As far as the statistics see the request. -/
def Wr.sendWr (wr : Wr ds m) : SendWr where
  numSge := wr.numSge
  postSendOne := match wr.built with
    | .wqe r => .ok r.wqe
    | .error e _ _ => .error e

/-- The blocks from index `i` on. -/
def fill (qp : Qp) : UInt32 → List β → (Nat → β) → Nat → β
  | _, [], wqes => wqes
  | i, b :: bs, wqes => fill qp (i + 1) bs (Function.update wqes (i &&& (qp.wqeCnt - 1)).toNat b)

/-- What the loop of `__mlx5_post_send` writes to the queue, from `nreq` and `scur_post`
on. -/
def store (qp : Qp) : List (Wr ds m) → Nat → UInt32 → Ring β → Ring β
  | [], _, _, ring => ring
  | wr :: rest, nreq, scurPost, ring =>
    if Refused qp nreq wr.numSge then ring
    else
      match wr.built with
      | .error _ blocks _ => { ring with wqes := fill qp scurPost blocks ring.wqes }
      | .wqe r =>
        let idx := (scurPost &&& (qp.wqeCnt - 1)).toNat
        store qp rest (nreq + 1) (scurPost + UInt32.ofNat r.wqe.lines)
          ⟨fill qp scurPost r.blocks ring.wqes, Function.update ring.wrid idx r.wrId,
            Function.update ring.wqeHead idx (qp.head + UInt32.ofNat nreq)⟩

/-- `mlx5_bf_copy`, one block at a time. Behind the last block is the first one. -/
def mlx5BfCopy (qp : Qp) (wqes : Nat → β) : UInt32 → Nat → List β
  | _, 0 => []
  | src, lines + 1 =>
    wqes src.toNat :: mlx5BfCopy qp wqes (if src + 1 = qp.wqeCnt then 0 else src + 1) lines

/-- The blocks that are copied to the NIC. -/
def copied (qp : Qp) (wqes : Nat → β) : Mmio → Option (List β)
  | .bfCopy seg lines => some (mlx5BfCopy qp wqes seg lines)
  | .writeDb _ => none

/-- What `mlx5_poll_one` does for a requestor, with or without an error: `wr_id`, and
the queue pair with its new tail. -/
def complete (qp : Qp) (ring : Ring β) (wqeCtr : UInt16) : UInt64 × Qp :=
  let idx := (wqeCtr.toUInt32 &&& (qp.wqeCnt - 1)).toNat
  (ring.wrid idx, { qp with tail := ring.wqeHead idx + 1 })

/-! ## The NIC, and both together -/

/-- The size of a queue, as `mlx5_calc_sq_size` chooses it. -/
structure Geometry where
  log : Nat
  log_le : log ≤ 15
  maxPost : Nat
  maxLines : Nat
  maxGs : Int
  lines_pos : 0 < maxLines
  room : maxPost * maxLines ≤ 2 ^ log

/-- `sq.wqe_cnt` -/
def Geometry.n (g : Geometry) : Nat := 2 ^ g.log

/-- The queue checks for overflow, and rings its own doorbell. -/
structure Geometry.Of (g : Geometry) (qp : Qp) : Prop where
  wqeCnt : qp.wqeCnt = UInt32.ofNat g.n
  maxPost : qp.maxPost = UInt32.ofNat g.maxPost
  maxGs : qp.maxGs = g.maxGs
  checked : qp.ignoreSqOverflow = false
  managed : qp.managedSend = false

/-- `db` is the doorbell record, `copy` what the NIC has got through BlueFlame since it
was last told of requests, and `ci` the index up to which it has executed them. `cq` has
`wqe_counter` of the entries that have not been polled. -/
structure State (β : Type) where
  qp : Qp
  ring : Ring β
  db : UInt16
  copy : Option (List β)
  ci : UInt16
  cq : List UInt16

/-- What a call of `__mlx5_post_send` changes. -/
def State.post (s : State β) (wrs : List (Wr ds m)) (sent : Sent) : State β :=
  let ring := store s.qp wrs 0 s.qp.scurPost s.ring
  { s with
    qp := { s.qp with
      head := sent.head
      scurPost := sent.scurPost
      bf := sent.rung.elim s.qp.bf fun r => { s.qp.bf with offset := r.offset } }
    ring := ring
    db := sent.rung.elim s.db fun r => r.dbRecord.toUInt16
    copy := sent.rung.elim s.copy fun r => copied s.qp ring.wqes r.mmio }

/-- The WQE at an index, as long as its first block says. -/
def fetch (ds : β → Nat) (n : Nat) (ring : Ring β) (ci : UInt16) : List β :=
  read n ring.wqes ci.toNat (divRoundUp (ds (ring.wqes (ci.toNat % n)) * 16) 64)

/-- The NIC takes the next WQE from the queue. If it is the last one of which the NIC was
told, it can also be the copy. -/
def Fetches (ds : β → Nat) (n : Nat) (s : State β) (blocks : List β) : Prop :=
  blocks = fetch ds n s.ring s.ci ∨
    s.copy = some blocks ∧ s.ci + UInt16.ofNat blocks.length = s.db

/-- What can be seen of a step: the requests of a call with its error and the number of
requests in `*bad_wr`, the WQE that is executed, and whether it is signaled, and the
`wr_id` of a completion. -/
inductive Label {β : Type} (ds : β → Nat) (maxLines : Nat) where
  | post (wrs : List (Wr ds maxLines)) (stop : Option (Errno × Nat))
  | execute (blocks : List β) (signaled : Bool)
  | poll (wrId : UInt64)

/-- No call that is stopped after it has posted something. Such a call copies or rings the
slot behind the last WQE, by `stopped_slot`. -/
def Label.Whole : Label ds m → Prop
  | .post wrs (some (_, left)) => left = wrs.length
  | _ => True

def seen (stop : Stop) : Errno × Nat := (stop.errno, stop.badWr.length)

/-- The first index of a queue pair is 0, by `mlx5_init_qp_indices`. -/
def sendQueue (ds : β → Nat) (g : Geometry) : System (State β) (Label ds g.maxLines) where
  init s := g.Of s.qp ∧ s.qp.head = 0 ∧ s.qp.tail = 0 ∧ s.qp.scurPost = 0 ∧ s.db = 0 ∧
    s.copy = none ∧ s.ci = 0 ∧ s.cq = []
  step s e t := match e with
    | .post wrs stop => ∃ stats sent, postSend s.qp stats (wrs.map Wr.sendWr) = .ok sent ∧
      stop = sent.stop.map seen ∧ t = s.post wrs sent
    | .execute blocks signaled => s.ci ≠ s.db ∧ Fetches ds g.n s blocks ∧
      t = { s with
        ci := s.ci + UInt16.ofNat blocks.length
        cq := if signaled then s.cq ++ [s.ci] else s.cq }
    | .poll wrId => ∃ wqeCtr rest, s.cq = wqeCtr :: rest ∧
      wrId = (complete s.qp s.ring wqeCtr).1 ∧
      t = { s with qp := (complete s.qp s.ring wqeCtr).2, cq := rest }

/-! ## What the queue is for -/

/-- The requests that have been executed and not been given back, with whether an entry
is to come, and those that have not been executed. -/
structure Queue {β : Type} (ds : β → Nat) (maxLines : Nat) where
  done : List (Request ds maxLines × Bool)
  waiting : List (Request ds maxLines)

def Queue.room (maxPost : Nat) (q : Queue ds m) : Nat :=
  maxPost - (q.done.length + q.waiting.length)

/-- The request, if there is room for it and it can be posted. -/
def admits (maxGs : Int) (room : Nat) (wr : Wr ds m) : Except Errno (Request ds m) :=
  if room = 0 ∨ maxGs < wr.numSge then .error enomem
  else
    match wr.built with
    | .wqe r => .ok r
    | .error e _ _ => .error e

/-- The next completion, and the requests after it. -/
def next : List (Request ds m × Bool) → Option (UInt64 × List (Request ds m × Bool))
  | [] => none
  | (r, true) :: rest => some (r.wrId, rest)
  | (_, false) :: rest => next rest

/-- A queue with room for `maxPost` requests. -/
def queue (ds : β → Nat) (g : Geometry) : System (Queue ds g.maxLines) (Label ds g.maxLines) where
  init q := q = ⟨[], []⟩
  step q e t := match e with
    | .post wrs stop =>
      wrs ≠ [] ∧ stop = (admitted (admits g.maxGs) (q.room g.maxPost) wrs).2 ∧
        t = { q with waiting := q.waiting ++ (admitted (admits g.maxGs) (q.room g.maxPost) wrs).1 }
    | .execute blocks signaled => ∃ r rest, q.waiting = r :: rest ∧ blocks = r.blocks ∧
      t = ⟨q.done ++ [(r, signaled)], rest⟩
    | .poll wrId => ∃ rest, next q.done = some (wrId, rest) ∧ t = { q with done := rest }

/-! ## Requests in the queue -/

variable {g : Geometry} {qp : Qp} {ring ring' : Ring β} {p i n : Nat} {r : Request ds m}
  {rs rs' : List (Request ds m)}

theorem Request.lines_pos (r : Request ds m) : 0 < r.blocks.length := by
  rw [r.lines]
  exact r.wqe.lines_pos

theorem Geometry.n_le (g : Geometry) : g.n ≤ 2 ^ 15 := Nat.pow_le_pow_right (by omega) g.log_le

theorem Geometry.maxPost_le (g : Geometry) : g.maxPost ≤ g.n :=
  Nat.le_trans (Nat.le_mul_of_pos_right _ g.lines_pos) g.room

/-- The blocks of requests. -/
def extent (rs : List (Request ds m)) : Nat := (rs.map fun r => r.blocks.length).sum

@[simp] theorem extent_nil : extent ([] : List (Request ds m)) = 0 := rfl

@[simp] theorem extent_cons : extent (r :: rs) = r.blocks.length + extent rs := by simp [extent]

@[simp] theorem extent_append : extent (rs ++ rs') = extent rs + extent rs' := by simp [extent]

theorem extent_le (rs : List (Request ds m)) : extent rs ≤ rs.length * m := by
  induction rs with
  | nil => exact Nat.zero_le _
  | cons r rs ih =>
    have hfits := r.fits
    rw [extent_cons, List.length_cons, Nat.succ_mul, r.lines]
    omega

/-- Any further request has room if it passes the check for overflow. -/
theorem extent_room {rs : List (Request ds g.maxLines)} (h : rs.length < g.maxPost) :
    extent rs + g.maxLines ≤ g.n := by
  have hmul : (rs.length + 1) * g.maxLines ≤ g.maxPost * g.maxLines := Nat.mul_le_mul_right _ h
  have hroom : g.maxPost * g.maxLines ≤ g.n := g.room
  have hle := extent_le rs
  rw [Nat.succ_mul] at hmul
  omega

/-- Request number `i` is at position `p`. -/
structure At (n : Nat) (ring : Ring β) (p i : Nat) (r : Request ds m) : Prop where
  blocks : read n ring.wqes p r.blocks.length = r.blocks
  wrid : ring.wrid (p % n) = r.wrId
  wqeHead : ring.wqeHead (p % n) = UInt32.ofNat i

/-- Requests one after the other, from position `p` and number `i` on. -/
def Laid (n : Nat) (ring : Ring β) : Nat → Nat → List (Request ds m) → Prop
  | _, _, [] => True
  | p, i, r :: rs => At n ring p i r ∧ Laid n ring (p + r.blocks.length) (i + 1) rs

theorem laid_append : Laid n ring p i (rs ++ rs') ↔
    Laid n ring p i rs ∧ Laid n ring (p + extent rs) (i + rs.length) rs' := by
  induction rs generalizing p i with
  | nil => simp [Laid]
  | cons r rs ih =>
    simp only [List.cons_append, Laid, ih, extent_cons, List.length_cons, and_assoc]
    rw [Nat.add_assoc p, Nat.add_assoc i, Nat.add_comm 1]

/-- Only what is at their positions matters. -/
theorem Laid.congr (h : Laid n ring p i rs)
    (hwqes : ∀ k, p ≤ k → k < p + extent rs → ring'.wqes (k % n) = ring.wqes (k % n))
    (hwrid : ∀ k, p ≤ k → k < p + extent rs → ring'.wrid (k % n) = ring.wrid (k % n))
    (hhead : ∀ k, p ≤ k → k < p + extent rs → ring'.wqeHead (k % n) = ring.wqeHead (k % n)) :
    Laid n ring' p i rs := by
  induction rs generalizing p i with
  | nil => trivial
  | cons r rs ih =>
    obtain ⟨hat, hrest⟩ := h
    have hpos := r.lines_pos
    rw [extent_cons] at hwqes hwrid hhead
    refine ⟨⟨?_, ?_, ?_⟩, ih hrest ?_ ?_ ?_⟩
    · rw [read_congr, hat.blocks]
      intro j hj
      exact hwqes (p + j) (by omega) (by omega)
    · rw [hwrid p (by omega) (by omega), hat.wrid]
    · rw [hhead p (by omega) (by omega), hat.wqeHead]
    · exact fun k hk hk' => hwqes k (by omega) (by omega)
    · exact fun k hk hk' => hwrid k (by omega) (by omega)
    · exact fun k hk hk' => hhead k (by omega) (by omega)

/-- A part of a WQE behind the last request. -/
theorem Laid.write_behind (h : Laid n ring p i rs) {bs : List β}
    (hroom : extent rs + bs.length ≤ n) :
    Laid n { ring with wqes := write n (p + extent rs) bs ring.wqes } p i rs := by
  refine h.congr (fun k hk hk' => ?_) (fun _ _ _ => rfl) fun _ _ _ => rfl
  exact write_ahead _ hk' (by omega)

/-- One more request. -/
theorem Laid.push (h : Laid n ring p i rs) (r : Request ds m)
    (hroom : extent rs + r.blocks.length ≤ n) :
    Laid n ⟨write n (p + extent rs) r.blocks ring.wqes,
      Function.update ring.wrid ((p + extent rs) % n) r.wrId,
      Function.update ring.wqeHead ((p + extent rs) % n) (UInt32.ofNat (i + rs.length))⟩
      p i (rs ++ [r]) := by
  have hpos := r.lines_pos
  refine laid_append.mpr ⟨?_, ⟨?_, Function.update_self .., Function.update_self ..⟩, trivial⟩
  · refine h.congr (fun k hk hk' => ?_) (fun k hk hk' => ?_) fun k hk hk' => ?_
    · exact write_ahead _ hk' (by omega)
    · exact Function.update_of_ne (SlotRing.slot_ne hk' (by omega)) ..
    · exact Function.update_of_ne (SlotRing.slot_ne hk' (by omega)) ..
  · exact read_write _ (by omega)

/-! ## Posting -/

theorem fill_eq (h : g.Of qp) (k : Nat) (bs : List β) (wqes : Nat → β) :
    fill qp (UInt32.ofNat k) bs wqes = write g.n k bs wqes := by
  have hlog := g.log_le
  induction bs generalizing k wqes with
  | nil => rfl
  | cons b bs ih =>
    have hidx : UInt32.ofNat k + 1 = UInt32.ofNat (k + 1) := (UInt32.ofNat_add k 1).symm
    rw [fill, write, h.wqeCnt, Geometry.n, mask_ofNat (by omega), hidx, ih]
    rfl

theorem sub_ofNat (i live : Nat) :
    UInt32.ofNat (i + live) - UInt32.ofNat i = UInt32.ofNat live := by
  rw [UInt32.ofNat_add, UInt32.add_comm, UInt32.add_sub_cancel]

/-- The check for overflow compares the requests in the queue with `max_post`, however
often the counters have wrapped. -/
theorem wqOverflow_iff (h : g.Of qp) {live k : Nat} (hhead : qp.head = UInt32.ofNat (i + live))
    (htail : qp.tail = UInt32.ofNat i) (hle : live + k ≤ g.maxPost) :
    wqOverflow qp k = true ↔ live + k = g.maxPost := by
  have hn := g.n_le
  have hpost := g.maxPost_le
  rw [wqOverflow, h.maxPost, hhead, htail, sub_ofNat, ← UInt32.ofNat_add, decide_eq_true_iff,
    UInt32.le_iff_toNat_le, UInt32.toNat_ofNat', UInt32.toNat_ofNat', Nat.mod_eq_of_lt (by omega),
    Nat.mod_eq_of_lt (by omega)]
  omega

/-- The state of the loop, when the call began with `base` requests in the queue, and
`cur` are there now. -/
structure Filled (g : Geometry) (p i base : Nat) (cur : List (Request ds g.maxLines)) (l : Loop)
    (ring : Ring β) : Prop where
  laid : Laid g.n ring p i cur
  scurPost : l.scurPost = UInt32.ofNat (p + extent cur)
  nreq : cur.length = base + l.nreq
  le : cur.length ≤ g.maxPost

variable {base : Nat} {cur : List (Request ds g.maxLines)} {l : Loop}

theorem Filled.slot (h : Filled g p i base cur l ring) (hof : g.Of qp) :
    (l.scurPost &&& (qp.wqeCnt - 1)).toNat = (p + extent cur) % g.n := by
  have hlog := g.log_le
  rw [h.scurPost, hof.wqeCnt, Geometry.n, mask_ofNat (by omega)]

/-- An iteration that posts its request. -/
theorem Filled.push (h : Filled g p i base cur l ring) (hof : g.Of qp)
    (hhead : qp.head = UInt32.ofNat (i + base)) (hroom : cur.length < g.maxPost)
    (seg : Option UInt32) (r : Request ds g.maxLines) :
    Filled g p i base (cur ++ [r]) ({ l with seg := seg }.add r.wqe)
      ⟨fill qp l.scurPost r.blocks ring.wqes,
        Function.update ring.wrid (l.scurPost &&& (qp.wqeCnt - 1)).toNat r.wrId,
        Function.update ring.wqeHead (l.scurPost &&& (qp.wqeCnt - 1)).toNat
          (qp.head + UInt32.ofNat l.nreq)⟩ where
  laid := by
    have hfits := r.fits
    have hfree := extent_room hroom
    rw [h.slot hof, h.scurPost, fill_eq hof, hhead, ← UInt32.ofNat_add, Nat.add_assoc i, ← h.nreq]
    exact h.laid.push r (by rw [r.lines]; omega)
  scurPost := by
    show l.scurPost + UInt32.ofNat r.wqe.lines = _
    rw [h.scurPost, ← UInt32.ofNat_add, extent_append, extent_cons, extent_nil, r.lines,
      Nat.add_zero, Nat.add_assoc]
  nreq := by
    rw [List.length_append, List.length_singleton, h.nreq]
    rfl
  le := by
    rw [List.length_append, List.length_singleton]
    exact hroom

/-- The driver refuses a request before it builds the WQE if there is no room left, or
the request has too many segments. -/
theorem refused_iff (h : g.Of qp) {live k : Nat} (hhead : qp.head = UInt32.ofNat (i + live))
    (htail : qp.tail = UInt32.ofNat i) (hle : live + k ≤ g.maxPost) (numSge : Int) :
    Refused qp k numSge ↔ g.maxPost - (live + k) = 0 ∨ g.maxGs < numSge := by
  have hover := wqOverflow_iff h hhead htail hle
  rw [Refused, hover, h.checked, h.maxGs]
  simp only [true_and]
  omega

/-- The variables that `__ring_db` gets are those of the last request, if there is one
that the call has posted. -/
def Ends (qp : Qp) (p base : Nat) (cur : List (Request ds m)) (l : Loop) : Prop :=
  ∀ pre r, cur = pre ++ [r] → base < cur.length →
    l.seg = some (UInt32.ofNat (p + extent pre) &&& (qp.wqeCnt - 1)) ∧ l.size = some r.wqe.size

theorem Filled.ends_push (h : Filled g p i base cur l ring) (r : Request ds g.maxLines) :
    Ends qp p base (cur ++ [r])
      ({ l with seg := some (l.scurPost &&& (qp.wqeCnt - 1)) }.add r.wqe) := by
  intro pre r' heq _
  obtain ⟨rfl, hr⟩ := List.append_inj' heq rfl
  cases hr
  exact ⟨by rw [← h.scurPost]; rfl, rfl⟩

/-- A call posts the requests that the queue admits, and reports the same error. -/
theorem postLoop_filled (wrs : List (Wr ds g.maxLines)) (h : Filled g p i base cur l ring)
    (hends : Ends qp p base cur l) (hof : g.Of qp) (hhead : qp.head = UInt32.ofNat (i + base))
    (htail : qp.tail = UInt32.ofNat i) {l' : Loop} {stop : Option Stop}
    (hloop : postLoop qp (wrs.map Wr.sendWr) l = (l', stop)) :
    let taken := admitted (admits g.maxGs) (g.maxPost - cur.length) wrs
    Filled g p i base (cur ++ taken.1) l' (store qp wrs l.nreq l.scurPost ring) ∧
      stop.map seen = taken.2 ∧ (stop = none → Ends qp p base (cur ++ taken.1) l') := by
  induction wrs generalizing cur l ring with
  | nil =>
    cases hloop
    simp only [admitted, List.append_nil]
    exact ⟨h, rfl, fun _ => hends⟩
  | cons wr rest ih =>
    have hiff := refused_iff hof hhead htail (h.nreq ▸ h.le) wr.numSge
    rw [← h.nreq] at hiff
    rw [List.map_cons, postLoop] at hloop
    rw [store]
    by_cases href : Refused qp l.nreq wr.numSge
    · have hadmit : admits g.maxGs (g.maxPost - cur.length) wr = .error enomem := by
        rw [admits, if_pos (hiff.mp href)]
      simp only [Wr.sendWr, href, if_true] at hloop
      cases hloop
      simp only [href, if_true, admitted_error rest hadmit, List.append_nil]
      exact ⟨⟨h.laid, h.scurPost, h.nreq, h.le⟩, by simp [seen],
        fun hnone => absurd hnone (Option.some_ne_none _)⟩
    · have hpass := mt hiff.mpr href
      have hroom : cur.length < g.maxPost := by omega
      simp only [Wr.sendWr, href, if_false] at hloop
      simp only [href, if_false]
      cases hbuilt : wr.built with
      | error e blocks fits =>
        have hadmit : admits g.maxGs (g.maxPost - cur.length) wr = .error e := by
          rw [admits, if_neg hpass, hbuilt]
        have hspace : extent cur + g.maxLines ≤ g.n := extent_room hroom
        rw [hbuilt] at hloop
        cases hloop
        simp only [admitted_error rest hadmit, List.append_nil]
        refine ⟨⟨?_, h.scurPost, h.nreq, h.le⟩, by simp [seen],
          fun hnone => absurd hnone (Option.some_ne_none _)⟩
        rw [h.scurPost, fill_eq hof]
        exact h.laid.write_behind (by omega)
      | wqe r =>
        have hadmit : admits g.maxGs (g.maxPost - cur.length) wr = .ok r := by
          rw [admits, if_neg hpass, hbuilt]
        have hnext := h.push hof hhead hroom (some (l.scurPost &&& (qp.wqeCnt - 1))) r
        have hleft : g.maxPost - (cur ++ [r]).length = g.maxPost - cur.length - 1 := by
          rw [List.length_append, List.length_singleton, Nat.sub_sub]
        rw [hbuilt] at hloop
        have hih := ih hnext (h.ends_push r) hloop
        rw [hleft] at hih
        simp only [List.append_assoc, List.singleton_append] at hih
        simp only [admitted_ok rest hadmit]
        exact hih

/-- What a call leaves in the queue pair, and what it tells the NIC, by its loop. -/
structure Left (qp : Qp) (l : Loop) (err : Option Stop) (sent : Sent) : Prop where
  head : sent.head = qp.head + UInt32.ofNat l.nreq
  scurPost : sent.scurPost = l.scurPost
  stop : sent.stop = err
  rung : l.nreq = 0 ∧ sent.rung = none ∨
    l.nreq ≠ 0 ∧ ∃ seg size, l.seg = some seg ∧ l.size = some size ∧
      sent.rung = some (ringDb qp.bf (l.scurPost &&& 0xffff) seg ((size + 3) / 4))

theorem out_left {stats : Stats} {sent : Sent} {err : Option Stop}
    (h : out qp l stats err = .ok sent) (hman : qp.managedSend = false) : Left qp l err sent := by
  unfold out at h
  split at h
  · next hzero =>
    cases h
    exact ⟨by rw [hzero]; exact (UInt32.add_zero _).symm, rfl, rfl, .inl ⟨hzero, rfl⟩⟩
  · next hpos =>
    rw [hman, if_neg Bool.false_ne_true] at h
    obtain ⟨seg, hseg, h⟩ := bind_ok h
    obtain ⟨size, hsize, h⟩ := bind_ok h
    cases h
    exact ⟨rfl, rfl, rfl, .inr ⟨hpos, seg, size, of_initialised hseg, of_initialised hsize, rfl⟩⟩

theorem postSend_left {stats : Stats} {wrs : List SendWr} {sent : Sent} {err : Option Stop}
    (h : postSend qp stats wrs = .ok sent) (hman : qp.managedSend = false)
    (hloop : postLoop qp wrs ⟨0, qp.scurPost, none, none, 0⟩ = (l, err)) :
    wrs ≠ [] ∧ Left qp l err sent := by
  unfold postSend at h
  rw [hloop] at h
  cases err with
  | some stop =>
    refine ⟨?_, out_left h hman⟩
    rintro rfl
    cases hloop
  | none =>
    obtain ⟨stats', hcollect, h⟩ := bind_ok h
    refine ⟨?_, out_left h hman⟩
    rintro rfl
    cases hloop
    cases hcollect

/-! ## Copies -/

/-- The copy is read like the queue. -/
theorem mlx5BfCopy_eq (h : g.Of qp) (wqes : Nat → β) (k lines : Nat) :
    mlx5BfCopy qp wqes (UInt32.ofNat (k % g.n)) lines = read g.n wqes k lines := by
  have hword : ∀ x ≤ g.n, (UInt32.ofNat x).toNat = x := by
    intro x hx
    have hn := g.n_le
    rw [UInt32.toNat_ofNat', Nat.mod_eq_of_lt (by omega)]
  induction lines generalizing k with
  | zero => rfl
  | succ lines ih =>
    have hlt : k % g.n < g.n := Nat.mod_lt k (Nat.two_pow_pos _)
    have hsucc : UInt32.ofNat (k % g.n) + 1 = UInt32.ofNat (k % g.n + 1) :=
      (UInt32.ofNat_add (k % g.n) 1).symm
    have hmod : (k + 1) % g.n = (k % g.n + 1) % g.n := (Nat.mod_add_mod k g.n 1).symm
    have hnext : (if UInt32.ofNat (k % g.n) + 1 = qp.wqeCnt then 0
        else UInt32.ofNat (k % g.n) + 1) = UInt32.ofNat ((k + 1) % g.n) := by
      rw [h.wqeCnt, hsucc, hmod]
      rcases Nat.eq_or_lt_of_le (Nat.succ_le_of_lt hlt) with hlast | hinner
      · rw [if_pos (congrArg UInt32.ofNat hlast), show k % g.n + 1 = g.n from hlast, Nat.mod_self]
        rfl
      · have hne : UInt32.ofNat (k % g.n + 1) ≠ UInt32.ofNat g.n := by
          intro heq
          have heq := congrArg UInt32.toNat heq
          rw [hword _ (Nat.le_of_lt hinner), hword _ (Nat.le_refl _)] at heq
          exact Nat.ne_of_lt hinner heq
        rw [if_neg hne, Nat.mod_eq_of_lt hinner]
    rw [mlx5BfCopy, Spans.read, hword _ (Nat.le_of_lt hlt), hnext, ih]

theorem ringDb_dbRecord (bf : Bf) (currPost seg : UInt32) (n : Nat) :
    (ringDb bf currPost seg n).dbRecord = currPost := by
  unfold ringDb
  split <;> rfl

/-- What is copied is the WQE whose slot and size `__ring_db` gets. -/
theorem copied_ringDb {wqes : Nat → β} {bf : Bf} {currPost seg : UInt32} {n : Nat}
    {blocks : List β} (h : copied qp wqes (ringDb bf currPost seg n).mmio = some blocks) :
    blocks = mlx5BfCopy qp wqes seg n := by
  rw [ringDb_mmio, expected] at h
  split at h
  · cases h
  · split at h
    · exact (Option.some.inj h).symm
    · cases h

/-! ## The driver and the NIC keep a queue -/

def Queue.live (q : Queue ds m) : List (Request ds m) := q.done.map Prod.fst ++ q.waiting

/-- The entries that are to be polled, for requests from position `p` on. -/
def entries : Nat → List (Request ds m × Bool) → List UInt16
  | _, [] => []
  | p, (r, signaled) :: rest =>
    (if signaled then [UInt16.ofNat p] else []) ++ entries (p + r.blocks.length) rest

theorem entries_append (p : Nat) (done done' : List (Request ds m × Bool)) :
    entries p (done ++ done') =
      entries p done ++ entries (p + extent (done.map Prod.fst)) done' := by
  induction done generalizing p with
  | nil => rfl
  | cons e done ih =>
    obtain ⟨r, signaled⟩ := e
    rw [List.cons_append, entries, entries, ih, List.map_cons, extent_cons, List.append_assoc,
      Nat.add_assoc]

/-- The request at the tail has number `i`, and its WQE position `p`. -/
structure Represents (g : Geometry) (s : State β) (q : Queue ds g.maxLines) (p i : Nat) : Prop where
  of : g.Of s.qp
  laid : Laid g.n s.ring p i q.live
  le : q.live.length ≤ g.maxPost
  tail : s.qp.tail = UInt32.ofNat i
  head : s.qp.head = UInt32.ofNat (i + q.live.length)
  scurPost : s.qp.scurPost = UInt32.ofNat (p + extent q.live)
  db : s.db = UInt16.ofNat (p + extent q.live)
  copy : ∀ blocks, s.copy = some blocks → ∀ r, q.waiting.getLast? = some r → r.blocks = blocks
  ci : s.ci = UInt16.ofNat (p + extent (q.done.map Prod.fst))
  cq : s.cq = entries p q.done

def Related (g : Geometry) (s : State β) (q : Queue ds g.maxLines) : Prop :=
  ∃ p i, Represents g s q p i

variable {s t : State β} {q : Queue ds g.maxLines}

theorem toUInt16_ofNat (k : Nat) : (UInt32.ofNat k &&& 0xffff).toUInt16 = UInt16.ofNat k := by
  apply UInt16.toNat_inj.mp
  rw [UInt32.toNat_toUInt16, UInt32.toNat_and, UInt32.toNat_ofNat', UInt16.toNat_ofNat',
    show (0xffff : UInt32).toNat = 2 ^ 16 - 1 from rfl, Nat.and_two_pow_sub_one_eq_mod]
  omega

theorem Represents.live_length (h : Represents g s q p i) :
    q.live.length = q.done.length + q.waiting.length ∧ extent q.live ≤ g.n := by
  refine ⟨by rw [Queue.live, List.length_append, List.length_map], ?_⟩
  calc extent q.live ≤ q.live.length * g.maxLines := extent_le _
    _ ≤ g.maxPost * g.maxLines := Nat.mul_le_mul_right _ h.le
    _ ≤ g.n := g.room

section Calls
variable {wrs : List (Wr ds g.maxLines)} {stats : Stats} {sent : Sent}

/-- The loop of a call, from the requests that are in the queue. -/
theorem Represents.loop (h : Represents g s q p i) {stop : Option Stop}
    (hloop : postLoop s.qp (wrs.map Wr.sendWr) ⟨0, s.qp.scurPost, none, none, 0⟩ = (l, stop)) :
    let taken := admitted (admits g.maxGs) (q.room g.maxPost) wrs
    Filled g p i q.live.length (q.live ++ taken.1) l (store s.qp wrs 0 s.qp.scurPost s.ring) ∧
      stop.map seen = taken.2 ∧
        (stop = none → Ends s.qp p q.live.length (q.live ++ taken.1) l) := by
  have hstart : Filled g p i q.live.length q.live ⟨0, s.qp.scurPost, none, none, 0⟩ s.ring :=
    ⟨h.laid, h.scurPost, rfl, h.le⟩
  have hends : Ends s.qp p q.live.length q.live ⟨0, s.qp.scurPost, none, none, 0⟩ :=
    fun _ _ _ hlt => absurd hlt (Nat.lt_irrefl _)
  rw [Queue.room, ← h.live_length.1]
  exact postLoop_filled wrs hstart hends h.of h.head h.tail hloop

/-- A call reports the error that the queue gives, also if it has posted something. -/
theorem Represents.stop (h : Represents g s q p i)
    (hsent : postSend s.qp stats (wrs.map Wr.sendWr) = .ok sent) :
    sent.stop.map seen =
      (admitted (admits g.maxGs) (q.room g.maxPost) wrs).2 := by
  cases hloop : postLoop s.qp (wrs.map Wr.sendWr) ⟨0, s.qp.scurPost, none, none, 0⟩ with
  | mk l stop =>
    rw [(postSend_left hsent h.of.managed hloop).2.stop]
    exact (h.loop hloop).2.1

/-- What is copied to the NIC is the last request, if the call has not been stopped. -/
theorem copied_last (hof : g.Of qp) {new : List (Request ds g.maxLines)}
    (hlaid : Laid g.n ring p i (cur ++ new)) (hends : Ends qp p cur.length (cur ++ new) l)
    {seg currPost : UInt32} {size : Nat} (hseg : l.seg = some seg) (hsize : l.size = some size)
    {blocks : List β}
    (hcopy : copied qp ring.wqes (ringDb qp.bf currPost seg ((size + 3) / 4)).mmio = some blocks)
    {r : Request ds g.maxLines} (hlast : new.getLast? = some r) : r.blocks = blocks := by
  have hlog := g.log_le
  have hn := g.n_le
  obtain ⟨pre, rfl⟩ := List.getLast?_eq_some_iff.mp hlast
  rw [← List.append_assoc] at hlaid hends
  obtain ⟨hseg', hsize'⟩ := hends (cur ++ pre) r rfl (by simp)
  obtain ⟨-, hat, -⟩ := laid_append.mp hlaid
  rw [hseg] at hseg'
  rw [hsize] at hsize'
  have hslot : seg = UInt32.ofNat ((p + extent (cur ++ pre)) % g.n) := by
    have hlt := Nat.mod_lt (p + extent (cur ++ pre)) (Nat.two_pow_pos g.log)
    apply UInt32.toNat_inj.mp
    rw [Option.some.inj hseg', hof.wqeCnt, Geometry.n, mask_ofNat (by omega), UInt32.toNat_ofNat',
      Nat.mod_eq_of_lt (a := _ % _) (by rw [Geometry.n] at hn; omega)]
  have hlines : (size + 3) / 4 = r.blocks.length := by
    rw [Option.some.inj hsize', r.lines, Wqe.lines_eq]
  rw [copied_ringDb hcopy, hslot, mlx5BfCopy_eq hof, hlines, hat.blocks]

/-- A call that is not stopped after it has posted something is not stopped, or posts
nothing. -/
theorem Represents.whole (h : Represents g s q p i)
    (hsent : postSend s.qp stats (wrs.map Wr.sendWr) = .ok sent)
    (hwhole : (Label.post wrs (sent.stop.map seen)).Whole) :
    sent.stop = none ∨ (admitted (admits g.maxGs) (q.room g.maxPost) wrs).1 = [] := by
  have hstop := h.stop hsent
  cases hsome : sent.stop with
  | none => exact .inl rfl
  | some stop =>
    rw [hsome] at hstop hwhole
    refine .inr (admitted_stopped_first (e := stop.errno) ?_)
    rw [← hstop, ← show stop.badWr.length = wrs.length from hwhole]
    rfl

/-- The doorbell record and the copy after a call that has posted `new`. -/
theorem Represents.told (h : Represents g s q p i) {new : List (Request ds g.maxLines)}
    {err : Option Stop} (hleft : Left s.qp l err sent)
    (hend : Filled g p i q.live.length (q.live ++ new) l (store s.qp wrs 0 s.qp.scurPost s.ring))
    (hends : new ≠ [] → Ends s.qp p q.live.length (q.live ++ new) l)
    (hnreq : new.length = l.nreq) :
    (s.post wrs sent).db = UInt16.ofNat (p + extent (q.live ++ new)) ∧
      ∀ blocks, (s.post wrs sent).copy = some blocks → ∀ r,
        (q.waiting ++ new).getLast? = some r → r.blocks = blocks := by
  rcases hleft.rung with ⟨hzero, hrung⟩ | ⟨hpos, seg, size, hseg, hsize, hrung⟩
  · have hnew : new = [] := List.length_eq_zero_iff.mp (hnreq.trans hzero)
    simp only [State.post, hrung, Option.elim_none, hnew, List.append_nil]
    exact ⟨h.db, h.copy⟩
  · have hnew : new ≠ [] := fun hnil => hpos (by rw [← hnreq, hnil, List.length_nil])
    simp only [State.post, hrung, Option.elim_some, ringDb_dbRecord, hend.scurPost,
      toUInt16_ofNat, true_and, List.getLast?_append_of_ne_nil _ hnew]
    intro blocks hcopy r hlast
    exact copied_last h.of hend.laid (hends hnew) hseg hsize hcopy hlast

theorem Represents.post (h : Represents g s q p i)
    (hsent : postSend s.qp stats (wrs.map Wr.sendWr) = .ok sent)
    (hwhole : (Label.post wrs (sent.stop.map seen)).Whole) :
    wrs ≠ [] ∧ Represents g (s.post wrs sent)
      { q with waiting := q.waiting ++
        (admitted (admits g.maxGs) (q.room g.maxPost) wrs).1 } p i := by
  have hnone := h.whole hsent hwhole
  cases hloop : postLoop s.qp (wrs.map Wr.sendWr) ⟨0, s.qp.scurPost, none, none, 0⟩ with
  | mk l err =>
    obtain ⟨hend, -, hends⟩ := h.loop hloop
    obtain ⟨hne, hleft⟩ := postSend_left hsent h.of.managed hloop
    generalize (admitted (admits g.maxGs) (q.room g.maxPost) wrs).1 = new
      at hend hends hnone ⊢
    have hlive : Queue.live { q with waiting := q.waiting ++ new } = q.live ++ new :=
      (List.append_assoc ..).symm
    have hnreq : new.length = l.nreq := by
      have hnreq := hend.nreq
      rw [List.length_append] at hnreq
      omega
    obtain ⟨hdb, hcopy⟩ := h.told hleft hend
      (fun hnew => hends (hleft.stop ▸ hnone.resolve_right hnew)) hnreq
    refine ⟨fun hnil => hne (by rw [hnil]; rfl), ⟨h.of.wqeCnt, h.of.maxPost, h.of.maxGs,
      h.of.checked, h.of.managed⟩, ?_, ?_, h.tail, ?_, ?_, ?_, hcopy, h.ci, h.cq⟩
    · rw [hlive]
      exact hend.laid
    · rw [hlive]
      exact hend.le
    · show sent.head = _
      rw [hlive, hleft.head, h.head, List.length_append, hnreq, ← UInt32.ofNat_add,
        Nat.add_assoc]
    · show sent.scurPost = _
      rw [hlive, hleft.scurPost, hend.scurPost]
    · rw [hlive]
      exact hdb

end Calls

/-- The queue has the next WQE at the index of the NIC. -/
theorem Represents.fetch_eq (h : Represents g s q p i) {r : Request ds g.maxLines}
    {rest : List (Request ds g.maxLines)} (hw : q.waiting = r :: rest) :
    fetch ds g.n s.ring s.ci = r.blocks := by
  have hdvd : g.n ∣ 2 ^ 16 := Nat.pow_dvd_pow 2 (Nat.le_succ_of_le g.log_le)
  have hlaid := h.laid
  rw [Queue.live, hw] at hlaid
  obtain ⟨-, hat, -⟩ := laid_append.mp hlaid
  have hnat : s.ci.toNat = (p + extent (q.done.map Prod.fst)) % 2 ^ 16 := by
    rw [h.ci, UInt16.toNat_ofNat']
  have hfirst : r.blocks.head? =
      some (s.ring.wqes ((p + extent (q.done.map Prod.fst)) % g.n)) := by
    have hpos := r.lines_pos
    obtain ⟨k, hk⟩ : ∃ k, r.blocks.length = k + 1 := ⟨_, (Nat.sub_add_cancel hpos).symm⟩
    have hblocks := hat.blocks
    rw [hk, Spans.read] at hblocks
    rw [← hblocks]
    rfl
  rw [fetch, hnat, Nat.mod_mod_of_dvd _ hdvd, r.size _ hfirst, read_mod hdvd]
  show Spans.read _ _ _ r.wqe.lines = _
  rw [← r.lines]
  exact hat.blocks

/-- The copy is the next WQE when there is no other one before the doorbell record. -/
theorem Represents.copy_eq (h : Represents g s q p i) {r : Request ds g.maxLines}
    {rest : List (Request ds g.maxLines)} (hw : q.waiting = r :: rest) {blocks : List β}
    (hcopy : s.copy = some blocks) (hend : s.ci + UInt16.ofNat blocks.length = s.db) :
    blocks = r.blocks := by
  have hn := g.n_le
  have hle := h.live_length.2
  have hpos := r.lines_pos
  rw [Queue.live, extent_append, hw, extent_cons] at hle
  have hlast := h.copy blocks hcopy
  rw [hw] at hlast
  rw [h.ci, h.db, ← UInt16.ofNat_add, Queue.live, extent_append, hw, extent_cons,
    ← UInt16.toNat_inj, UInt16.toNat_ofNat', UInt16.toNat_ofNat'] at hend
  rcases List.eq_nil_or_concat' rest with rfl | ⟨pre, b, rfl⟩
  · exact (hlast r rfl).symm
  · have hb : b.blocks = blocks := hlast b (by simp [List.getLast?_cons])
    rw [extent_append, extent_cons, extent_nil, hb] at hle hend
    omega

theorem Represents.execute (h : Represents g s q p i) (hci : s.ci ≠ s.db) {blocks : List β}
    (hfetches : Fetches ds g.n s blocks) (signaled : Bool) :
    ∃ r rest, q.waiting = r :: rest ∧ blocks = r.blocks ∧
      Represents g
        { s with
          ci := s.ci + UInt16.ofNat blocks.length
          cq := if signaled then s.cq ++ [s.ci] else s.cq }
        ⟨q.done ++ [(r, signaled)], rest⟩ p i := by
  cases hw : q.waiting with
  | nil =>
    refine absurd ?_ hci
    rw [h.ci, h.db, Queue.live, hw, List.append_nil]
  | cons r rest =>
    have hblocks : blocks = r.blocks := by
      rcases hfetches with hring | ⟨hcopy, hend⟩
      · rw [hring, h.fetch_eq hw]
      · exact h.copy_eq hw hcopy hend
    have hlive : Queue.live ⟨q.done ++ [(r, signaled)], rest⟩ = q.live := by
      rw [Queue.live, Queue.live, hw]
      simp
    refine ⟨r, rest, rfl, hblocks, h.of, ?_, ?_, h.tail, ?_, ?_, ?_, ?_, ?_, ?_⟩
    · exact hlive.symm ▸ h.laid
    · exact hlive.symm ▸ h.le
    · exact hlive.symm ▸ h.head
    · exact hlive.symm ▸ h.scurPost
    · exact hlive.symm ▸ h.db
    · intro blocks hcopy b hb
      have hlast : q.waiting.getLast? = some b := by
        rw [hw, List.getLast?_cons, show rest.getLast? = some b from hb]
        rfl
      exact h.copy blocks hcopy b hlast
    · show s.ci + _ = _
      rw [h.ci, ← UInt16.ofNat_add, hblocks]
      simp [Nat.add_assoc]
    · show (if signaled then s.cq ++ [s.ci] else s.cq) = _
      rw [entries_append, h.cq, h.ci]
      cases signaled <;> simp [entries]

/-- The completion that an entry stands for. -/
theorem next_of_entries {done : List (Request ds m × Bool)} {c : UInt16} {cs : List UInt16}
    (h : entries p done = c :: cs) : ∃ pre r rest, done = pre ++ (r, true) :: rest ∧
      c = UInt16.ofNat (p + extent (pre.map Prod.fst)) ∧
      cs = entries (p + extent (pre.map Prod.fst) + r.blocks.length) rest ∧
      next done = some (r.wrId, rest) := by
  induction done generalizing p with
  | nil => cases h
  | cons e done ih =>
    obtain ⟨r, signaled⟩ := e
    cases signaled with
    | true =>
      rw [entries] at h
      cases h
      exact ⟨[], r, done, rfl, rfl, rfl, rfl⟩
    | false =>
      obtain ⟨pre, r', rest, hdone, hc, hcs, hnext⟩ := ih h
      refine ⟨(r, false) :: pre, r', rest, by rw [hdone]; rfl, ?_, ?_, hnext⟩
      · rw [hc, List.map_cons, extent_cons, Nat.add_assoc]
      · rw [hcs, List.map_cons, extent_cons, Nat.add_assoc p]

theorem Represents.poll (h : Represents g s q p i) {c : UInt16} {cs : List UInt16}
    (hcq : s.cq = c :: cs) : ∃ rest p' i',
      next q.done = some ((complete s.qp s.ring c).1, rest) ∧
      Represents g { s with qp := (complete s.qp s.ring c).2, cq := cs } { q with done := rest }
        p' i' := by
  have hlog := g.log_le
  have hdvd : g.n ∣ 2 ^ 16 := Nat.pow_dvd_pow 2 (Nat.le_succ_of_le g.log_le)
  obtain ⟨pre, r, rest, hdone, hc, hcs, hnext⟩ := next_of_entries (h.cq ▸ hcq)
  have hlive : q.live = pre.map Prod.fst ++ r :: Queue.live { q with done := rest } := by
    rw [Queue.live, hdone]
    simp [Queue.live]
  have hlaid := h.laid
  rw [hlive] at hlaid
  obtain ⟨-, hat, hrest⟩ := laid_append.mp hlaid
  rw [List.length_map] at hat hrest
  have hidx : (c.toUInt32 &&& (s.qp.wqeCnt - 1)).toNat =
      (p + extent (pre.map Prod.fst)) % g.n := by
    have hwide : c.toUInt32 = UInt32.ofNat c.toNat := UInt32.toNat_inj.mp (by
      rw [UInt16.toNat_toUInt32, UInt32.toNat_ofNat', Nat.mod_eq_of_lt]
      exact Nat.lt_trans c.toNat_lt (by decide))
    rw [hwide, h.of.wqeCnt, Geometry.n, mask_ofNat (by omega), hc, UInt16.toNat_ofNat']
    exact Nat.mod_mod_of_dvd _ hdvd
  have hcount : pre.length + 1 + (Queue.live { q with done := rest }).length = q.live.length := by
    rw [hlive, List.length_append, List.length_map, List.length_cons]
    omega
  have hext : extent (pre.map Prod.fst) + r.blocks.length +
      extent (Queue.live { q with done := rest }) = extent q.live := by
    rw [hlive, extent_append, extent_cons]
    omega
  refine ⟨rest, p + extent (pre.map Prod.fst) + r.blocks.length, i + pre.length + 1, ?_, ?_⟩
  · rw [hnext, complete, hidx, hat.wrid]
  · refine ⟨⟨h.of.wqeCnt, h.of.maxPost, h.of.maxGs, h.of.checked, h.of.managed⟩, hrest, ?_, ?_, ?_,
      ?_, ?_, h.copy, ?_, hcs⟩
    · have := h.le
      omega
    · show s.ring.wqeHead _ + 1 = _
      rw [hidx, hat.wqeHead]
      exact (UInt32.ofNat_add _ 1).symm
    · show s.qp.head = _
      rw [h.head, ← hcount]
      congr 1
      omega
    · show s.qp.scurPost = _
      rw [h.scurPost, ← hext]
      congr 1
      omega
    · show s.db = _
      rw [h.db, ← hext]
      congr 1
      omega
    · show s.ci = _
      rw [h.ci, hdone]
      congr 1
      simp only [List.map_append, List.map_cons, extent_append, extent_cons]
      omega

/-- Calls that are stopped after they have posted something are left out. -/
theorem sendQueue_simulates :
    Simulates (only (sendQueue ds g) fun _ => Label.Whole) (queue ds g) (Related g) where
  init s h := by
    obtain ⟨hof, hhead, htail, hscur, hdb, hcopy, hci, hcq⟩ := h
    exact ⟨⟨[], []⟩, rfl, 0, 0, hof, trivial, Nat.zero_le _, htail, hhead, hscur, hdb,
      fun _ _ _ hlast => (Option.some_ne_none _ hlast.symm).elim, hci, hcq⟩
  step s e t q hstep hrel := by
    obtain ⟨hwhole, hstep⟩ := hstep
    obtain ⟨p, i, h⟩ := hrel
    cases e with
    | post wrs stop =>
      obtain ⟨stats, sent, hsent, rfl, rfl⟩ := hstep
      obtain ⟨hne, hrep⟩ := h.post hsent hwhole
      exact ⟨_, ⟨hne, h.stop hsent, rfl⟩, p, i, hrep⟩
    | execute blocks signaled =>
      obtain ⟨hci, hfetches, rfl⟩ := hstep
      obtain ⟨r, rest, hwait, hblocks, hrep⟩ := h.execute hci hfetches signaled
      exact ⟨_, ⟨r, rest, hwait, hblocks, rfl⟩, p, i, hrep⟩
    | poll wrId =>
      obtain ⟨c, cs, hcq, rfl, rfl⟩ := hstep
      obtain ⟨rest, p', i', hnext, hrep⟩ := h.poll hcq
      exact ⟨_, ⟨rest, hnext, rfl⟩, p', i', hrep⟩

theorem Related.step (h : Related g s q) {e : Label ds g.maxLines}
    (hstep : (sendQueue ds g).step s e t) (hwhole : e.Whole) :
    ∃ q', (queue ds g).step q e q' ∧ Related g t q' :=
  sendQueue_simulates.step s e t q ⟨hwhole, hstep⟩ h

end RdmaBench.Mlx5.SendQueue
