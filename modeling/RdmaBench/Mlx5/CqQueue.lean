import RdmaBench.Mlx5.CqRing

/-! # The entries of a completion queue

What software has to poll is a sequence of entries and compressed sessions that lie
in the ring from the consumer index on. The slots after them are the NIC's: each is
invalid or stamped with the wrong lap. -/

namespace RdmaBench.Mlx5.CqQueue
open RdmaBench.Lib RdmaBench.Lib.PhaseRing RdmaBench.Mlx5.Cqe RdmaBench.Mlx5.CqRing
open RdmaBench.Mlx5.PollOne (Context isRequestor)

/-! ## Entries and sessions in the ring -/

/-- An entry as the NIC writes it. -/
structure Plain where
  slot : Slot
  valid : slot.opcode ≠ .invalid
  format : mlx5GetCqeFormat slot ≠ compressed

inductive Block where
  | plain (e : Plain)
  | session (x : Session)

def Block.size : Block → Nat
  | .plain _ => 1
  | .session x => x.minis.length

def Block.entries (mpRq : Slot → Bool) : Block → List Slot
  | .plain e => [stamp false e.slot]
  | .session x => x.entries mpRq

/-- The block is at position `k`. -/
def Block.At (g : Size) (buf : Nat → Slot) (k : Nat) : Block → Prop
  | .plain e => buf (k % g.n) = stamp (phase g.n k) e.slot
  | .session x => x.At g buf k

def span (bs : List Block) : Nat := (bs.map Block.size).sum

/-- The blocks follow one another from position `k` on. -/
def Laid (g : Size) (buf : Nat → Slot) : Nat → List Block → Prop
  | _, [] => True
  | k, b :: bs => b.At g buf k ∧ Laid g buf (k + b.size) bs

/-- The ring with the consumer at position `c`. -/
structure Pending (g : Size) (buf : Nat → Slot) (c : Nat) (bs : List Block) : Prop where
  laid : Laid g buf c bs
  fits : span bs ≤ g.n
  free : ∀ j, c + span bs ≤ j → j < c + g.n → getSwCqe g buf (UInt32.ofNat j) = false

def entriesOf (mpRq : Slot → Bool) (bs : List Block) : List Slot := bs.flatMap (Block.entries mpRq)

variable {g : Size} {buf buf' : Nat → Slot} {k c : Nat} {b : Block} {bs bs' : List Block}
  {e : Plain} {x : Session} {mpRq : Slot → Bool}

@[simp] theorem span_nil : span [] = 0 := rfl

@[simp] theorem span_cons : span (b :: bs) = b.size + span bs := by simp [span]

@[simp] theorem span_append : span (bs ++ bs') = span bs + span bs' := by simp [span]

theorem Block.length_entries (b : Block) : (b.entries mpRq).length = b.size := by
  cases b with
  | plain e => rfl
  | session x => exact length_expand _

theorem length_entriesOf (mpRq : Slot → Bool) (bs : List Block) :
    (entriesOf mpRq bs).length = span bs := by
  induction bs with
  | nil => rfl
  | cons b bs ih =>
    rw [entriesOf, List.flatMap_cons, List.length_append, b.length_entries, span_cons, ← ih]
    rfl

theorem Block.size_pos (b : Block) : 0 < b.size := by
  cases b with
  | plain e => exact Nat.one_pos
  | session x =>
    have := x.two_le
    show 0 < x.minis.length
    omega

/-- The mini CQEs of a session lie within it. -/
theorem Session.miniAt_lt (x : Session) {j : Nat} (hj : j < x.minis.length) :
    miniAt j < x.minis.length := by
  have := x.two_le
  unfold miniAt
  split <;> omega

/-- Only the slots of the block matter. -/
theorem Block.At.congr (h : b.At g buf k)
    (hsame : ∀ j < b.size, buf' ((k + j) % g.n) = buf ((k + j) % g.n)) : b.At g buf' k := by
  have h0 : buf' (k % g.n) = buf (k % g.n) := hsame 0 b.size_pos
  cases b with
  | plain e => exact h0.trans h
  | session x =>
    refine ⟨h0.trans h.title, fun j m hm => ?_⟩
    rw [hsame _ (Session.miniAt_lt x (List.getElem?_eq_some_iff.mp hm).1)]
    exact h.mini j m hm

theorem Laid.congr (h : Laid g buf k bs)
    (hsame : ∀ j < span bs, buf' ((k + j) % g.n) = buf ((k + j) % g.n)) : Laid g buf' k bs := by
  induction bs generalizing k with
  | nil => trivial
  | cons b bs ih =>
    rw [span_cons] at hsame
    refine ⟨h.1.congr fun j hj => hsame j (by omega), ih h.2 fun j hj => ?_⟩
    rw [Nat.add_assoc]
    exact hsame (b.size + j) (by omega)

theorem laid_append : Laid g buf k (bs ++ bs') ↔
    Laid g buf k bs ∧ Laid g buf (k + span bs) bs' := by
  induction bs generalizing k with
  | nil => simp [Laid]
  | cons b bs ih => simp only [List.cons_append, Laid, ih, span_cons, and_assoc, Nat.add_assoc]

/-- Entries of their own, as a list in the ring. -/
theorem laid_plain {ps : List Plain} :
    Laid g buf k (ps.map .plain) ↔ Holds stamp g.n buf k (ps.map fun e => stamp false e.slot) := by
  induction ps generalizing k with
  | nil => simp [Laid, holds_nil]
  | cons e ps ih =>
    rw [List.map_cons, List.map_cons, holds_cons, stamp_stamp, ← ih]
    rfl

@[simp] theorem span_plain (ps : List Plain) : span (ps.map .plain) = ps.length := by
  induction ps with
  | nil => rfl
  | cons e ps ih => simp [Block.size, ih, Nat.add_comm]

@[simp] theorem entriesOf_plain (ps : List Plain) :
    entriesOf mpRq (ps.map .plain) = ps.map fun e => stamp false e.slot := by
  induction ps with
  | nil => rfl
  | cons e ps ih =>
    rw [List.map_cons, entriesOf, List.flatMap_cons, List.map_cons, ← ih]
    rfl

theorem entriesOf_append :
    entriesOf mpRq (bs ++ bs') = entriesOf mpRq bs ++ entriesOf mpRq bs' := List.flatMap_append

/-! ## Ownership -/

/-- An entry stamped for position `k` belongs to software at the positions of even
laps from there. -/
theorem getSwCqe_stamp {s : Slot} (h : buf (k % g.n) = stamp (phase g.n c) s) :
    getSwCqe g buf (UInt32.ofNat k) = (s.opcode != .invalid && phase g.n c == phase g.n k) := by
  unfold getSwCqe
  simp only [slotOf_ofNat, lapBit_ofNat, h, opcode_stamp, owner_stamp]
  cases phase g.n c <;> cases phase g.n k <;> rfl

/-- The NIC owns a slot with the owner bit of another lap. -/
theorem getSwCqe_owner {o : Bool} (h : (buf (k % g.n)).opOwn &&& 1 = ownerBit o)
    (ho : o ≠ phase g.n k) : getSwCqe g buf (UInt32.ofNat k) = false := by
  unfold getSwCqe
  simp only [slotOf_ofNat, lapBit_ofNat, h]
  cases o <;> cases hp : phase g.n k <;> simp_all [ownerBit]

theorem Block.At.owned (h : b.At g buf k) : getSwCqe g buf (UInt32.ofNat k) = true := by
  cases b with
  | plain e => simp [getSwCqe_stamp (c := k) h, e.valid]
  | session x => simp [getSwCqe_stamp (c := k) h.title, x.valid]

/-- The slots of other positions have not been written. -/
theorem getSwCqe_congr (h : buf' (k % g.n) = buf (k % g.n)) :
    getSwCqe g buf' (UInt32.ofNat k) = getSwCqe g buf (UInt32.ofNat k) := by
  unfold getSwCqe
  simp only [slotOf_ofNat, h]

/-- Software sees an entry exactly if there is one. -/
theorem Pending.owned_iff (h : Pending g buf c bs) :
    getSwCqe g buf (UInt32.ofNat c) = true ↔ bs ≠ [] := by
  cases bs with
  | nil => simp [h.free c (Nat.le_refl c) (Nat.lt_add_of_pos_right g.n_pos)]
  | cons b bs => simp [h.laid.1.owned]

/-- The buffer as `mlx5_alloc_cq_buf` leaves it: zeros, and `MLX5_CQE_INVALID << 4` in
`op_own`. -/
def mlx5AllocCqBuf (_ : Nat) : Slot := fun b => if b.val = 63 then 0xf0 else 0

theorem ring_empty (g : Size) (c : Nat) : Pending g mlx5AllocCqBuf c [] where
  laid := trivial
  fits := Nat.zero_le _
  free j _ _ := by
    have hinvalid : (mlx5AllocCqBuf 0).opcode = .invalid := by decide
    unfold getSwCqe
    rw [show mlx5AllocCqBuf (slotOf g (UInt32.ofNat j)) = mlx5AllocCqBuf 0 from rfl]
    simp [hinvalid]

/-! ## What the NIC does -/

/-- The NIC writes at the end, and only there. -/
theorem Pending.push (h : Pending g buf c bs) (hat : b.At g buf' (c + span bs))
    (hroom : span bs + b.size ≤ g.n)
    (hsame : ∀ y, (∀ j < b.size, (c + span bs + j) % g.n ≠ y) → buf' y = buf y) :
    Pending g buf' c (bs ++ [b]) where
  laid := by
    refine laid_append.mpr ⟨h.laid.congr fun j hj => hsame _ fun i hi => ?_, hat, trivial⟩
    exact (SlotRing.slot_ne (by omega) (by omega)).symm
  fits := by simpa using hroom
  free j hj hj' := by
    simp only [span_append, span_cons, span_nil] at hj
    rw [getSwCqe_congr (hsame _ fun i hi => SlotRing.slot_ne (by omega) (by omega))]
    exact h.free j (by omega) hj'

/-! ## What software does -/

/-- The entry at the consumer index is taken. -/
theorem Pending.pop (h : Pending g buf c (.plain e :: bs)) : Pending g buf (c + 1) bs where
  laid := h.laid.2
  fits := by
    have := h.fits
    rw [span_cons] at this
    omega
  free j hj hj' := by
    have hfree := h.free j
    rw [span_cons] at hfree
    by_cases hlap : j = c + g.n
    · -- its own slot, which is the NIC's again on the next lap
      subst hlap
      rw [getSwCqe_stamp (c := c) (by rw [Nat.add_mod_right]; exact h.laid.1), phase_lap g.n_pos]
      cases phase g.n c <;> simp
    · exact hfree (by show c + (1 + span bs) ≤ j; omega) (by omega)

variable (cx : Context) (cqeVer : Bool)

/-- `find_rsc` finds a multi-packet receive queue. -/
def isMpRq (s : Slot) : Bool :=
  (if cqeVer then cx.findUidx (UInt32.ofNat s.srqnUidx) else cx.findRsc (UInt32.ofNat s.rsn)).any
    (·.type == .mpRwq)

theorem isMpRq_stamp (b : Bool) (s : Slot) : isMpRq cx cqeVer (stamp b s) = isMpRq cx cqeVer s := by
  unfold isMpRq Slot.srqnUidx Slot.rsn
  rw [be32_stamp b s (by omega), be32_stamp b s (by omega)]

variable {cx cqeVer}

theorem expand_plain {t : Slot} (ht : t.opcode ≠ .invalid) (mp : Bool) (w : UInt16)
    (ms : List Mini) : ∃ ps : List Plain, ps.map Plain.slot = expand mp t w ms := by
  induction ms generalizing w with
  | nil => exact ⟨[], rfl⟩
  | cons m ms ih =>
    obtain ⟨ps, hps⟩ := ih (nextCnt (isRequestor t.opcode) mp m w)
    have hcode : ∀ x : UInt8, (x &&& 0xf2) >>> 4 = x >>> 4 := forall_byte (by decide +kernel)
    have hform : ∀ x : UInt8, ((x &&& 0xf2) &&& 0xc) >>> 2 ≠ compressed :=
      forall_byte (by decide +kernel)
    refine ⟨⟨unpack (isRequestor t.opcode) t m t.opownBase w, ?_, ?_⟩ :: ps, ?_⟩
    · rw [Slot.opcode, opOwn_unpack, Slot.opownBase, hcode]
      exact ht
    · rw [mlx5GetCqeFormat, opOwn_unpack]
      exact hform _
    · rw [List.map_cons, hps, expand]

/-- The entries of a session have no owner bit. -/
theorem stamp_expand {t s : Slot} {mp : Bool} {w : UInt16} {ms : List Mini}
    (hs : s ∈ expand mp t w ms) : stamp false s = s := by
  induction ms generalizing w with
  | nil => cases hs
  | cons m ms ih =>
    rcases List.mem_cons.mp hs with rfl | hs
    · rw [Slot.opownBase, stamp_unpack, show ownerBit false = 0 from rfl, UInt8.or_zero]
    · exact ih hs

/-- The entries of a session could have been written one by one. -/
theorem Session.exists_plain (x : Session) (mpRq : Slot → Bool) :
    ∃ ps : List Plain, (ps.map fun e => stamp false e.slot) = x.entries mpRq := by
  obtain ⟨ps, hps⟩ := expand_plain x.valid (mpRq x.title) x.title.wqeCounter x.minis
  refine ⟨ps, ?_⟩
  rw [Session.entries, ← hps, List.map_inj_left]
  intro e he
  have hmem : e.slot ∈ ps.map Plain.slot := List.mem_map_of_mem he
  rw [hps] at hmem
  exact stamp_expand hmem

/-- A session can be unpacked where it is. -/
theorem Pending.unpack (h : Pending g buf c (bs ++ .session x :: bs')) (cx : Context)
    (cqeVer : Bool) :
    ∃ ps : List Plain, (ps.map fun e => stamp false e.slot) = x.entries (isMpRq cx cqeVer) ∧
      Pending g (mlx5DecompressCqeIdx g (isMpRq cx cqeVer) buf (UInt32.ofNat (c + span bs))) c
        (bs ++ (ps.map .plain ++ bs')) := by
  have hfits := h.fits
  obtain ⟨hbefore, hat, hafter⟩ := laid_append.mp h.laid
  simp only [span_append, span_cons, Block.size] at hfits hafter
  obtain ⟨hholds, hsame⟩ := decompress_session (isMpRq_stamp cx cqeVer) hat (by omega)
  obtain ⟨ps, hps⟩ := Session.exists_plain x (isMpRq cx cqeVer)
  have hlen : ps.length = x.minis.length := by
    rw [← List.length_map (f := fun e : Plain => stamp false e.slot), hps]
    exact length_expand _
  have hsize : span (bs ++ (ps.map Block.plain ++ bs')) = span (bs ++ .session x :: bs') := by
    simp only [span_append, span_plain, span_cons, hlen, Block.size]
  refine ⟨ps, hps, ?_, hsize.trans_le h.fits, fun j hj hj' => ?_⟩
  · refine laid_append.mpr ⟨?_, laid_append.mpr ⟨?_, ?_⟩⟩
    · refine hbefore.congr fun j hj => hsame _ fun i hi => ?_
      exact (SlotRing.slot_ne (by omega) (by omega)).symm
    · rw [laid_plain, hps]
      exact hholds
    · rw [span_plain, hlen]
      refine hafter.congr fun j hj => hsame _ fun i hi => ?_
      exact SlotRing.slot_ne (by omega) (by omega)
  · rw [hsize] at hj
    rw [getSwCqe_congr]
    · exact h.free j hj hj'
    · simp only [span_append, span_cons, Block.size] at hj
      exact hsame _ fun i hi => SlotRing.slot_ne (by omega) (by omega)

/-! ## Polling -/

structure Cq where
  size : Size
  buf : Nat → Slot
  consIndex : UInt32
  /-- `dbrec[MLX5_CQ_SET_CI]` -/
  setCi : UInt32

def Cq.updateConsIndex (cq : Cq) : Cq := { cq with setCi := cq.consIndex &&& 0xffffff }

/-- How `mlx5_poll_one` takes the next entry. What it does with it afterwards does not
depend on the owner bit. -/
def nextCqe (cx : Context) (cqeVer : Bool) (cq : Cq) : Option (Slot × Cq) :=
  if getSwCqe cq.size cq.buf cq.consIndex then
    let idx := slotOf cq.size cq.consIndex
    let buf :=
      if mlx5GetCqeFormat (cq.buf idx) = compressed then
        mlx5DecompressCqeIdx cq.size (isMpRq cx cqeVer) cq.buf cq.consIndex
      else cq.buf
    some (stamp false (buf idx), { cq with buf := buf, consIndex := cq.consIndex + 1 })
  else none

/-- What a call of `poll_cq` leaves: the queue, the queue pairs, the completions it
returns, and whether it ends with `CQ_POLL_ERR`. -/
structure Polled (τ σ : Type*) where
  queue : τ
  qps : σ
  entries : List Slot
  err : Bool

/-- The loop of `poll_cq` on a queue from which `next` takes an entry; `handle` is what
`mlx5_poll_one` does with the entry. -/
def pollLoop {τ σ : Type*} (next : τ → Option (Slot × τ)) (handle : σ → Slot → σ × Bool) :
    Nat → τ → σ → Polled τ σ
  | 0, q, s => ⟨q, s, [], false⟩
  | ne + 1, q, s =>
    match next q with
    | none => ⟨q, s, [], false⟩
    | some (e, q) =>
      match handle s e with
      | (s, false) => ⟨q, s, [], true⟩
      | (s, true) =>
        let r := pollLoop next handle ne q s
        { r with entries := e :: r.entries }

def pollCq {σ : Type*} (cx : Context) (cqeVer : Bool) (handle : σ → Slot → σ × Bool) (ne : Nat)
    (cq : Cq) (s : σ) : Polled Cq σ :=
  let r := pollLoop (nextCqe cx cqeVer) handle ne cq s
  { r with queue := r.queue.updateConsIndex }

/-! ## Polling takes the entries in order -/

/-- The queue has the entries `q`, and its consumer index is at position `c`. -/
structure Represents (cx : Context) (cqeVer : Bool) (cq : Cq) (c : Nat) (q : List Slot) : Prop where
  consIndex : cq.consIndex = UInt32.ofNat c
  ring : ∃ bs, Pending cq.size cq.buf c bs ∧ entriesOf (isMpRq cx cqeVer) bs = q

variable {cq cq' : Cq} {q : List Slot} {s : Slot}

theorem Represents.length_le (h : Represents cx cqeVer cq c q) : q.length ≤ cq.size.n := by
  obtain ⟨bs, hring, rfl⟩ := h.ring
  rw [length_entriesOf]
  exact hring.fits

/-- An entry that is not compressed is taken from its slot. -/
theorem nextCqe_plain (hc : cq.consIndex = UInt32.ofNat c)
    (h : Pending cq.size cq.buf c (.plain e :: bs)) :
    nextCqe cx cqeVer cq =
      some (stamp false e.slot, { cq with consIndex := UInt32.ofNat (c + 1) }) := by
  have hat : cq.buf (c % cq.size.n) = stamp (phase cq.size.n c) e.slot := h.laid.1
  have hform : mlx5GetCqeFormat (stamp (phase cq.size.n c) e.slot) ≠ compressed := by
    rw [format_stamp]
    exact e.format
  unfold nextCqe
  simp only [hc, h.laid.1.owned, slotOf_ofNat, hat, hform, if_true, if_false, stamp_stamp]
  rw [UInt32.ofNat_add]
  rfl

/-- A session is unpacked first, and then its first entry is taken. -/
theorem nextCqe_session (hc : cq.consIndex = UInt32.ofNat c)
    (h : Pending cq.size cq.buf c (.session x :: bs))
    (hbuf : buf' = mlx5DecompressCqeIdx cq.size (isMpRq cx cqeVer) cq.buf (UInt32.ofNat c))
    (h' : Pending cq.size buf' c (.plain e :: bs')) :
    nextCqe cx cqeVer cq =
      some (stamp false e.slot, { cq with buf := buf', consIndex := UInt32.ofNat (c + 1) }) := by
  have hat : buf' (c % cq.size.n) = stamp (phase cq.size.n c) e.slot := h'.laid.1
  have hform : mlx5GetCqeFormat (cq.buf (c % cq.size.n)) = compressed := by
    rw [h.laid.1.title, format_stamp]
    exact x.format
  unfold nextCqe
  simp only [hc, h.laid.1.owned, slotOf_ofNat, hform, if_true, ← hbuf, hat, stamp_stamp]
  rw [UInt32.ofNat_add]
  rfl

theorem nextCqe_nil (h : Represents cx cqeVer cq c []) : nextCqe cx cqeVer cq = none := by
  obtain ⟨bs, hring, hbs⟩ := h.ring
  have hnil : bs = [] := by
    cases bs with
    | nil => rfl
    | cons b bs =>
      have hlen := length_entriesOf (isMpRq cx cqeVer) (b :: bs)
      have hpos := b.size_pos
      rw [hbs, span_cons, List.length_nil] at hlen
      omega
  have howned := (hring.owned_iff).not.mpr (not_not.mpr hnil)
  unfold nextCqe
  rw [h.consIndex, if_neg howned]

theorem nextCqe_cons (h : Represents cx cqeVer cq c (s :: q)) :
    ∃ cq', nextCqe cx cqeVer cq = some (s, cq') ∧ Represents cx cqeVer cq' (c + 1) q ∧
      cq'.size = cq.size := by
  obtain ⟨bs, hring, hbs⟩ := h.ring
  cases bs with
  | nil => cases hbs
  | cons b bs =>
    cases b with
    | plain e =>
      rw [entriesOf, List.flatMap_cons, Block.entries, List.singleton_append,
        List.cons.injEq] at hbs
      obtain ⟨rfl, hq⟩ := hbs
      exact ⟨_, nextCqe_plain h.consIndex hring, ⟨rfl, bs, hring.pop, hq⟩, rfl⟩
    | session x =>
      have hhead : Pending cq.size cq.buf c ([] ++ .session x :: bs) := hring
      obtain ⟨ps, hps, hring'⟩ := hhead.unpack cx cqeVer
      cases ps with
      | nil =>
        -- a session has two entries at least
        have hlen : (x.entries (isMpRq cx cqeVer)).length = x.minis.length := length_expand _
        have htwo := x.two_le
        rw [← hps, List.map_nil, List.length_nil] at hlen
        omega
      | cons e ps =>
        rw [entriesOf, List.flatMap_cons, Block.entries, ← hps, List.map_cons, List.cons_append,
          List.cons.injEq] at hbs
        obtain ⟨rfl, hq⟩ := hbs
        refine ⟨_, nextCqe_session h.consIndex hring rfl hring',
          ⟨rfl, ps.map Block.plain ++ bs, hring'.pop, ?_⟩, rfl⟩
        rw [entriesOf_append, entriesOf_plain, ← hq]
        rfl

/-! ## The loop -/

/-- The first entry of a list. -/
def uncons : List Slot → Option (Slot × List Slot)
  | [] => none
  | e :: q => some (e, q)

/-- The same result, on related queues. -/
structure Polled.Same {τ τ' σ : Type*} (R : τ → τ' → Prop) (r : Polled τ σ) (r' : Polled τ' σ) :
    Prop where
  queue : R r.queue r'.queue
  qps : r.qps = r'.qps
  entries : r.entries = r'.entries
  err : r.err = r'.err

/-- Polling related queues gives the same result, if taking an entry does. -/
theorem pollLoop_same {τ τ' σ : Type*} {R : τ → τ' → Prop} (next : τ → Option (Slot × τ))
    (next' : τ' → Option (Slot × τ')) (handle : σ → Slot → σ × Bool)
    (hnone : ∀ a a', R a a' → next' a' = none → next a = none)
    (hsome : ∀ a a' e b', R a a' → next' a' = some (e, b') → ∃ b, next a = some (e, b) ∧ R b b')
    (ne : Nat) {a : τ} {a' : τ'} (s : σ) (h : R a a') :
    (pollLoop next handle ne a s).Same R (pollLoop next' handle ne a' s) := by
  induction ne generalizing a a' s with
  | zero => exact ⟨h, rfl, rfl, rfl⟩
  | succ ne ih =>
    rw [pollLoop, pollLoop]
    cases hn : next' a' with
    | none =>
      rw [hnone a a' h hn]
      exact ⟨h, rfl, rfl, rfl⟩
    | some r =>
      obtain ⟨e, b'⟩ := r
      obtain ⟨b, hb, hR⟩ := hsome a a' e b' h hn
      rw [hb]
      dsimp only
      cases hh : handle s e with
      | mk s' ok =>
        cases ok with
        | false => exact ⟨hR, rfl, rfl, rfl⟩
        | true =>
          have hrest := ih s' hR
          exact ⟨hrest.queue, hrest.qps, congrArg (e :: ·) hrest.entries, hrest.err⟩

end RdmaBench.Mlx5.CqQueue
