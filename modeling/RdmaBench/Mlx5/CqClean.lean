import RdmaBench.Mlx5.CqQueue

/-! # Removing the entries of a queue pair

When a queue pair is destroyed or reset, `__mlx5_cq_clean` removes its entries from the
completion queue. It first looks for the end of the queue, unpacking the sessions on
its way, and then goes back from there, moving each entry that stays up by as many
slots as it has found entries to remove. A moved entry takes the owner bit of the slot
it comes to. Of a full queue the last entry is not looked at. -/

namespace RdmaBench.Mlx5.CqClean
open RdmaBench.Lib RdmaBench.Lib.PhaseRing RdmaBench.Mlx5.Cqe RdmaBench.Mlx5.CqRing
open RdmaBench.Mlx5.CqQueue
open RdmaBench.Mlx5.PollOne (Context isResponder)

/-- `none` if the entry is of another resource; otherwise with the WQE that is given
back to the shared receive queue, if one is. -/
def freeResCqe (cqeVer srq : Bool) (rsnUidx : Nat) (cqe : Slot) : Option (Option UInt16) :=
  if cqeVer then
    if cqe.srqnUidx = rsnUidx then
      some (if srq ∧ isResponder cqe.opcode then some cqe.wqeCounter else none)
    else none
  else if cqe.rsn = rsnUidx then
    some (if srq ∧ cqe.srqnUidx ≠ 0 then some cqe.wqeCounter else none)
  else none

/-- The loop that looks for the producer index, and the buffer it leaves. It ends
after `n` iterations at most. -/
def scanLoop (g : Size) (mpRq : Slot → Bool) (consIndex : UInt32) :
    Nat → UInt32 → (Nat → Slot) → (Nat → Slot) × UInt32
  | 0, prodIndex, buf => (buf, prodIndex)
  | n + 1, prodIndex, buf =>
    if getSwCqe g buf prodIndex then
      let buf :=
        if mlx5GetCqeFormat (buf (slotOf g prodIndex)) = compressed then
          mlx5DecompressCqeIdx g mpRq buf prodIndex
        else buf
      if prodIndex = consIndex + g.cqe then (buf, prodIndex)
      else scanLoop g mpRq consIndex n (prodIndex + 1) buf
    else (buf, prodIndex)

structure Sweep where
  buf : Nat → Slot
  nfreed : Nat
  /-- the WQEs given back -/
  freed : List UInt16

/-- An iteration of the loop that goes back. -/
def sweepStep (g : Size) (free : Slot → Option (Option UInt16)) (prodIndex : UInt32) (s : Sweep) :
    Sweep :=
  let cqe := s.buf (slotOf g prodIndex)
  match free cqe with
  | some wqe => ⟨s.buf, s.nfreed + 1, s.freed ++ wqe.toList⟩
  | none =>
    if s.nfreed = 0 then s
    else
      let dest := slotOf g (prodIndex + UInt32.ofNat s.nfreed)
      let ownerBit := (s.buf dest).opOwn &&& 1
      { s with
        buf := Function.update s.buf dest (cqe.patch 63 [ownerBit ||| (cqe.opOwn &&& 0xfe)]) }

/-- The loop from `m` entries after the consumer index down to it. -/
def sweepLoop (g : Size) (free : Slot → Option (Option UInt16)) (consIndex : UInt32) :
    Nat → Sweep → Sweep
  | 0, s => s
  | m + 1, s =>
    sweepLoop g free consIndex m (sweepStep g free (consIndex + UInt32.ofNat m) s)

/-- `__mlx5_cq_clean`, with the WQEs that it gives back to the shared receive queue. -/
def mlx5CqClean (cx : Context) (cqeVer srq : Bool) (rsnUidx : Nat) (cq : Cq) : Cq × List UInt16 :=
  let (buf, prodIndex) :=
    scanLoop cq.size (isMpRq cx cqeVer) cq.consIndex cq.size.n cq.consIndex cq.buf
  let s := sweepLoop cq.size (freeResCqe cqeVer srq rsnUidx) cq.consIndex
    (prodIndex - cq.consIndex).toNat ⟨buf, 0, []⟩
  if s.nfreed = 0 then ({ cq with buf := s.buf }, s.freed)
  else
    (Cq.updateConsIndex
      { cq with buf := s.buf, consIndex := cq.consIndex + UInt32.ofNat s.nfreed }, s.freed)

/-! ## Looking for the end -/

variable {g : Size} {buf buf' : Nat → Slot} {c : Nat} {bs : List Block} {ps : List Plain}
  {cx : Context} {cqeVer srq : Bool} {rsnUidx : Nat}

theorem last_index_iff {i : Nat} (hi : i < g.n) :
    UInt32.ofNat (c + i) = UInt32.ofNat c + g.cqe ↔ i + 1 = g.n := by
  have hn := g.n_lt
  have hcqe : g.cqe = UInt32.ofNat (g.n - 1) := rfl
  rw [hcqe, ← UInt32.ofNat_add, ← UInt32.toNat_inj, UInt32.toNat_ofNat', UInt32.toNat_ofNat']
  constructor
  · intro h
    have hmod : (c + i) % 2 ^ 32 = (c + (g.n - 1)) % 2 ^ 32 := h
    omega
  · intro h
    rw [show g.n - 1 = i by omega]

/-- The scan at an entry that is there by now: the loop stops if it is the last one
that fits. -/
theorem scanLoop_succ (cx : Context) (cqeVer : Bool) {n : Nat} {e : Plain} (hlt : ps.length < g.n)
    (h : Pending g buf c (ps.map .plain ++ .plain e :: bs)) :
    scanLoop g (isMpRq cx cqeVer) (UInt32.ofNat c) (n + 1) (UInt32.ofNat (c + ps.length)) buf =
      if ps.length + 1 = g.n then (buf, UInt32.ofNat (c + ps.length))
      else scanLoop g (isMpRq cx cqeVer) (UInt32.ofNat c) n (UInt32.ofNat (c + (ps ++ [e]).length))
        buf := by
  have hat := (laid_append.mp h.laid).2.1
  rw [span_plain] at hat
  have hform : mlx5GetCqeFormat (buf ((c + ps.length) % g.n)) ≠ compressed := by
    rw [show buf ((c + ps.length) % g.n) = _ from hat, format_stamp]
    exact e.format
  have hnext : UInt32.ofNat (c + ps.length) + 1 = UInt32.ofNat (c + (ps ++ [e]).length) := by
    rw [List.length_append, List.length_singleton, ← Nat.add_assoc,
      UInt32.ofNat_add (c + ps.length)]
    rfl
  rw [scanLoop]
  simp only [hat.owned, slotOf_ofNat, hform, if_true, if_false, last_index_iff hlt, hnext]

/-- A session on the way is unpacked. -/
theorem scanLoop_session {n : Nat} {x : Session}
    (h : Pending g buf c (ps.map .plain ++ .session x :: bs))
    (hbuf : buf' = mlx5DecompressCqeIdx g (isMpRq cx cqeVer) buf (UInt32.ofNat (c + ps.length)))
    {e : Plain} {bs' : List Block} (h' : Pending g buf' c (ps.map .plain ++ .plain e :: bs')) :
    scanLoop g (isMpRq cx cqeVer) (UInt32.ofNat c) (n + 1) (UInt32.ofNat (c + ps.length)) buf =
      scanLoop g (isMpRq cx cqeVer) (UInt32.ofNat c) (n + 1) (UInt32.ofNat (c + ps.length))
        buf' := by
  have hat := (laid_append.mp h.laid).2.1
  have hat' := (laid_append.mp h'.laid).2.1
  rw [span_plain] at hat hat'
  have hform : mlx5GetCqeFormat (buf ((c + ps.length) % g.n)) = compressed := by
    rw [hat.title, format_stamp]
    exact x.format
  have hform' : mlx5GetCqeFormat (buf' ((c + ps.length) % g.n)) ≠ compressed := by
    rw [show buf' ((c + ps.length) % g.n) = _ from hat', format_stamp]
    exact e.format
  rw [scanLoop, scanLoop]
  simp only [hat.owned, hat'.owned, slotOf_ofNat, hform, hform', if_true, if_false, ← hbuf]

/-- The scan over `bs`, with the entries `ps` behind it, leaves only entries and the
producer index at their end, or at the last one of a full queue. -/
def Scans (g : Size) (mpRq : Slot → Bool) (c n : Nat) (buf : Nat → Slot) (ps : List Plain)
    (bs : List Block) : Prop :=
  ∃ (ps' : List Plain) (buf' : Nat → Slot),
    scanLoop g mpRq (UInt32.ofNat c) n (UInt32.ofNat (c + ps.length)) buf =
      (buf', UInt32.ofNat (c + min ps'.length (g.n - 1))) ∧
    Pending g buf' c (ps'.map .plain) ∧
    entriesOf mpRq (ps'.map .plain) = entriesOf mpRq (ps.map .plain ++ bs)

theorem scans_end {n : Nat} (hlt : ps.length < g.n) (h : Pending g buf c (ps.map .plain)) :
    Scans g (isMpRq cx cqeVer) c (n + 1) buf ps [] := by
  have hfree := h.free (c + ps.length)
  rw [span_plain] at hfree
  refine ⟨ps, buf, ?_, h, by rw [List.append_nil]⟩
  rw [scanLoop, if_neg (by rw [hfree (Nat.le_refl _) (by omega)]; exact Bool.false_ne_true),
    Nat.min_eq_left (by omega)]

theorem scans_entry {n : Nat} {e : Plain} (h : Pending g buf c (ps.map .plain ++ .plain e :: bs))
    (hnext : ps.length + 1 ≠ g.n → Scans g (isMpRq cx cqeVer) c n buf (ps ++ [e]) bs) :
    Scans g (isMpRq cx cqeVer) c (n + 1) buf ps (.plain e :: bs) := by
  have happ : ps.map Block.plain ++ .plain e :: bs = (ps ++ [e]).map Block.plain ++ bs := by simp
  have hfits := h.fits
  rw [happ, span_append, span_plain, List.length_append, List.length_singleton] at hfits
  have hscan := scanLoop_succ cx cqeVer (n := n) (by omega) h
  by_cases hlast : ps.length + 1 = g.n
  · -- the queue is full, and nothing can follow
    have hnil : bs = [] := by
      cases bs with
      | nil => rfl
      | cons b bs =>
        have := b.size_pos
        rw [span_cons] at hfits
        omega
    subst hnil
    rw [if_pos hlast] at hscan
    rw [happ, List.append_nil] at h
    refine ⟨ps ++ [e], buf, hscan.trans ?_, h, by rw [happ, List.append_nil]⟩
    rw [List.length_append, List.length_singleton, Nat.min_eq_right (by omega),
      show g.n - 1 = ps.length by omega]
  · rw [if_neg hlast] at hscan
    obtain ⟨ps', buf', hloop, hring, hentries⟩ := hnext hlast
    exact ⟨ps', buf', hscan.trans hloop, hring, by rw [happ]; exact hentries⟩

theorem scanLoop_spec (cx : Context) (cqeVer : Bool) (ps : List Plain) (n : Nat)
    (hn : n + ps.length = g.n) (hpos : 0 < n)
    (h : Pending g buf c (ps.map .plain ++ bs)) : Scans g (isMpRq cx cqeVer) c n buf ps bs := by
  induction n generalizing ps bs buf with
  | zero => exact absurd hpos (Nat.lt_irrefl 0)
  | succ n ih =>
    have hentry : ∀ {buf : Nat → Slot} {e : Plain} {bs : List Block},
        Pending g buf c (ps.map .plain ++ .plain e :: bs) →
        Scans g (isMpRq cx cqeVer) c (n + 1) buf ps (.plain e :: bs) := by
      intro buf e bs h
      refine scans_entry h fun hlast => ?_
      have hlen : (ps ++ [e]).length = ps.length + 1 := List.length_append
      exact ih (ps ++ [e]) (by omega) (by omega) (by simpa using h)
    cases bs with
    | nil =>
      rw [List.append_nil] at h
      exact scans_end (by omega) h
    | cons b bs =>
      cases b with
      | plain e => exact hentry h
      | session x =>
        obtain ⟨qs, hqs, hring⟩ := h.unpack cx cqeVer
        rw [span_plain] at hring
        cases qs with
        | nil =>
          have hlen : (x.entries (isMpRq cx cqeVer)).length = x.minis.length := length_expand _
          have htwo := x.two_le
          rw [← hqs, List.map_nil, List.length_nil] at hlen
          omega
        | cons e qs =>
          obtain ⟨ps', buf', hscan, hring', hentries⟩ := hentry hring
          refine ⟨ps', buf', (scanLoop_session h rfl hring).trans hscan, hring', hentries.trans ?_⟩
          rw [entriesOf_append, entriesOf_append]
          congr 1
          show entriesOf _ ((e :: qs).map Block.plain ++ bs) = _
          rw [entriesOf_append, entriesOf_plain, hqs]
          rfl

/-! ## Going back -/

variable {free : Slot → Option (Option UInt16)} {pre suf : List Slot} {e : Slot} {s : Sweep}

/-- The entries that stay. -/
def keeps (free : Slot → Option (Option UInt16)) (e : Slot) : Bool := (free e).isNone

/-- After the loop has gone back over `suf`, with `pre` still to come. -/
structure Swept (g : Size) (free : Slot → Option (Option UInt16)) (buf : Nat → Slot) (c : Nat)
    (pre suf : List Slot) (s : Sweep) : Prop where
  before : Holds stamp g.n s.buf c pre
  kept : Holds stamp g.n s.buf (c + pre.length + s.nfreed) (suf.filter (keeps free))
  count : s.nfreed + (suf.filter (keeps free)).length = suf.length
  -- also of the slots whose entries have been moved away
  owner : ∀ j < pre.length + suf.length,
    (s.buf ((c + j) % g.n)).opOwn &&& 1 = ownerBit (phase g.n (c + j))
  same : ∀ y, (∀ j < pre.length + suf.length, (c + j) % g.n ≠ y) → s.buf y = buf y
  freed : s.freed = suf.reverse.filterMap fun e => (free e).join

theorem swept_start (free : Slot → Option (Option UInt16)) {es : List Slot}
    (h : Holds stamp g.n buf c es) :
    Swept g free buf c es [] ⟨buf, 0, []⟩ where
  before := h
  kept := holds_nil
  count := rfl
  owner j hj := by
    rw [List.length_nil, Nat.add_zero] at hj
    show (buf ((c + j) % g.n)).opOwn &&& 1 = _
    rw [h j _ (List.getElem?_eq_getElem hj), owner_stamp]
  same _ _ := rfl
  freed := rfl

theorem sweepStep_free {k : Nat} {wqe : Option UInt16} (h : free (s.buf (k % g.n)) = some wqe) :
    sweepStep g free (UInt32.ofNat k) s = ⟨s.buf, s.nfreed + 1, s.freed ++ wqe.toList⟩ := by
  unfold sweepStep
  simp only [slotOf_ofNat, h]

/-- An entry that stays is moved up, and takes the owner bit it finds there. -/
theorem sweepStep_keep {k : Nat} (h : free (s.buf (k % g.n)) = none)
    (hat : s.buf (k % g.n) = stamp (phase g.n k) e)
    (hown : (s.buf ((k + s.nfreed) % g.n)).opOwn &&& 1 = ownerBit (phase g.n (k + s.nfreed))) :
    sweepStep g free (UInt32.ofNat k) s = { s with
      buf := Function.update s.buf ((k + s.nfreed) % g.n)
        (stamp (phase g.n (k + s.nfreed)) e) } := by
  unfold sweepStep
  simp only [slotOf_ofNat, h]
  by_cases hz : s.nfreed = 0
  · simp only [hz, if_true, Nat.add_zero, ← hat, Function.update_eq_self]
    rw [← hz]
  · have hbyte : ownerBit (phase g.n (k + s.nfreed)) ||| ((stamp (phase g.n k) e).opOwn &&& 0xfe) =
        (e.opOwn &&& 0xfe) ||| ownerBit (phase g.n (k + s.nfreed)) := by
      rw [opOwn_stamp, clear_owner, UInt8.or_comm]
    have hmoved : (stamp (phase g.n k) e).patch 63
        [(e.opOwn &&& 0xfe) ||| ownerBit (phase g.n (k + s.nfreed))] =
        stamp (phase g.n (k + s.nfreed)) e :=
      (((agree_patch _ _).trans (agree_stamp _ e)).trans (agree_stamp _ e).symm).eq_of_opOwn rfl
    simp only [hz, if_false, ← UInt32.ofNat_add, slotOf_ofNat, hown, hat, hbyte, hmoved]

theorem Swept.step (hfree : ∀ b e, free (stamp b e) = free e)
    (h : Swept g free buf c (pre ++ [e]) suf s) (hfit : pre.length + 1 + suf.length ≤ g.n) :
    Swept g free buf c pre (e :: suf)
      (sweepStep g free (UInt32.ofNat (c + pre.length)) s) := by
  obtain ⟨hpre, he⟩ := holds_append.mp h.before
  rw [holds_singleton] at he
  have hlen : (pre ++ [e]).length + suf.length = pre.length + (e :: suf).length := by
    simp only [List.length_append, List.length_cons, List.length_nil]
    omega
  have howner := h.owner
  have hsame := h.same
  have hkept := h.kept
  have hcount := h.count
  rw [hlen] at howner hsame
  rw [List.length_append, List.length_singleton] at hkept
  have hfree' : free (s.buf ((c + pre.length) % g.n)) = free e := by rw [he, hfree]
  cases hf : free e with
  | some wqe =>
    have hk : ¬keeps free e = true := by simp [keeps, hf]
    rw [sweepStep_free (hfree'.trans hf)]
    refine ⟨hpre, ?_, ?_, howner, hsame, ?_⟩
    · rw [List.filter_cons_of_neg hk]
      rwa [show c + (pre.length + 1) + s.nfreed = c + pre.length + (s.nfreed + 1) by omega] at hkept
    · rw [List.filter_cons_of_neg hk, List.length_cons, ← hcount]
      exact Nat.add_right_comm ..
    · rw [List.reverse_cons, List.filterMap_append, ← h.freed]
      cases wqe <;> simp [hf]
  | none =>
    have hk : keeps free e = true := by simp [keeps, hf]
    have hdest : pre.length + s.nfreed < pre.length + (e :: suf).length := by
      rw [List.length_cons]
      omega
    have hown := howner _ hdest
    rw [← Nat.add_assoc] at hown
    rw [sweepStep_keep (hfree'.trans hf) he hown]
    rw [List.length_cons] at hdest
    refine ⟨?_, ?_, ?_, fun j hj => ?_, fun y hy => ?_, ?_⟩
    · refine hpre.congr fun i hi => Function.update_of_ne ?_ ..
      exact SlotRing.slot_ne (by omega) (by omega)
    · rw [List.filter_cons_of_pos hk, holds_cons]
      refine ⟨Function.update_self .., ?_⟩
      rw [show c + (pre.length + 1) + s.nfreed = c + pre.length + s.nfreed + 1 by omega] at hkept
      exact hkept.update_behind (by omega) (by omega) _
    · rw [List.filter_cons_of_pos hk, List.length_cons, List.length_cons, ← hcount]
      rfl
    · by_cases hj' : (c + j) % g.n = (c + pre.length + s.nfreed) % g.n
      · rw [List.length_cons] at hj
        have := eq_of_cell c (by omega) (by omega) (by omega) (by omega) hj'
        simp only [hj', Function.update_self, owner_stamp]
        rw [this]
      · simp only [Function.update_of_ne hj']
        exact howner j hj
    · rw [← hsame y hy]
      refine Function.update_of_ne ?_ ..
      rw [Nat.add_assoc]
      exact (hy _ (by rw [List.length_cons]; omega)).symm
    · rw [List.reverse_cons, List.filterMap_append, ← h.freed]
      simp [hf]

theorem Swept.loop (hfree : ∀ b e, free (stamp b e) = free e)
    (h : Swept g free buf c pre suf s) (hfit : pre.length + suf.length ≤ g.n) :
    Swept g free buf c [] (pre ++ suf) (sweepLoop g free (UInt32.ofNat c) pre.length s) := by
  induction pre using List.reverseRecOn generalizing suf s with
  | nil => exact h
  | append_singleton pre e ih =>
    rw [List.length_append, List.length_singleton] at hfit ⊢
    rw [sweepLoop, ← UInt32.ofNat_add, List.append_assoc, List.singleton_append]
    exact ih (h.step hfree (by omega)) (by rw [List.length_cons]; omega)

/-! ## The queue without the entries -/

/-- The newest entry of a full queue, if it is one to remove: cleaning overlooks it. -/
def overlooked (free : Slot → Option (Option UInt16)) (n : Nat) (q : List Slot) : Option Slot :=
  if q.length = n then q.getLast?.filter fun e => !keeps free e else none

/-- The entries that stay, and the one that is overlooked. -/
def cleaned (free : Slot → Option (Option UInt16)) (n : Nat) (q : List Slot) : List Slot :=
  match overlooked free n q with
  | none => q.filter (keeps free)
  | some e => q.dropLast.filter (keeps free) ++ [e]

/-- The WQEs of the entries that are removed, the last one first. -/
def givenBack (free : Slot → Option (Option UInt16)) (n : Nat) (q : List Slot) : List UInt16 :=
  match overlooked free n q with
  | none => q.reverse.filterMap fun e => (free e).join
  | some _ => q.dropLast.reverse.filterMap fun e => (free e).join

/-- All places but the last one are looked at. -/
theorem cleaned_eq (free : Slot → Option (Option UInt16)) {n : Nat} {q : List Slot} (hn : 0 < n)
    (hq : q.length ≤ n) :
    cleaned free n q = (q.take (n - 1)).filter (keeps free) ++ q.drop (n - 1) ∧
    givenBack free n q = (q.take (n - 1)).reverse.filterMap fun e => (free e).join := by
  rcases Nat.lt_or_eq_of_le hq with hlt | hfull
  · have hnone : overlooked free n q = none := if_neg hlt.ne
    rw [cleaned, givenBack, hnone, List.take_of_length_le (by omega),
      List.drop_of_length_le (by omega), List.append_nil]
    exact ⟨rfl, rfl⟩
  · -- a full queue ends in its newest entry
    have hne : q ≠ [] := by
      rintro rfl
      exact absurd hfull hn.ne
    obtain ⟨es, e, rfl⟩ := (List.eq_nil_or_concat' q).resolve_left hne
    rw [List.length_append, List.length_singleton] at hfull
    have hlen : es.length = n - 1 := by omega
    have hlast : overlooked free n (es ++ [e]) = if keeps free e then none else some e := by
      simp only [overlooked, List.length_append, List.length_singleton, hfull, if_true,
        List.getLast?_append, List.getLast?_singleton, Option.some_or]
      cases hk : keeps free e <;> simp [hk]
    rw [cleaned, givenBack, hlast, ← hlen, List.take_left, List.drop_left]
    cases hk : keeps free e with
    | true =>
      have hnone : free e = none := Option.isNone_iff_eq_none.1 hk
      simp [hk, hnone]
    | false => simp

theorem freeResCqe_stamp (cqeVer srq : Bool) (rsnUidx : Nat) (b : Bool) (e : Slot) :
    freeResCqe cqeVer srq rsnUidx (stamp b e) = freeResCqe cqeVer srq rsnUidx e := by
  unfold freeResCqe Slot.srqnUidx Slot.rsn Slot.wqeCounter
  rw [be32_stamp b e (by omega), be32_stamp b e (by omega), stamp_byte b e (by omega),
    stamp_byte b e (by omega), opcode_stamp]

/-- The entry in a slot, without its owner bit. -/
def payloads (ps : List Plain) : List Slot := ps.map fun e => stamp false e.slot

theorem exists_cleaned (hfree : ∀ b e, free (stamp b e) = free e) (n : Nat) (ps : List Plain) :
    ∃ ps', payloads ps' = ((payloads ps).take (n - 1)).filter (keeps free) ++
      (payloads ps).drop (n - 1) := by
  refine ⟨(ps.take (n - 1)).filter (fun e => keeps free e.slot) ++ ps.drop (n - 1), ?_⟩
  rw [payloads, payloads, ← List.map_take, ← List.map_drop, List.filter_map, List.map_append]
  congr 3
  funext e
  rw [Function.comp_apply, keeps, keeps, hfree]

/-- The sweep over the entries that the scan has found. -/
theorem sweep_ring (hfree : ∀ b e, free (stamp b e) = free e) (h : Pending g buf c (ps.map .plain))
    (hs : s = sweepLoop g free (UInt32.ofNat c) (min ps.length (g.n - 1)) ⟨buf, 0, []⟩) :
    ∃ ps' : List Plain, payloads ps' = cleaned free g.n (payloads ps) ∧
      Pending g s.buf (c + s.nfreed) (ps'.map .plain) ∧ s.nfreed + ps'.length = ps.length ∧
      s.freed = givenBack free g.n (payloads ps) := by
  have hfits := h.fits
  have hpos := g.n_pos
  have hfreeSlots := h.free
  have hholds : Holds stamp g.n buf c (payloads ps) := laid_plain.mp h.laid
  rw [span_plain] at hfits hfreeSlots
  have hlen : (payloads ps).length = ps.length := List.length_map _
  have htake : ((payloads ps).take (g.n - 1)).length = min ps.length (g.n - 1) := by
    rw [List.length_take, hlen, Nat.min_comm]
  rw [← List.take_append_drop (g.n - 1) (payloads ps), holds_append, htake] at hholds
  have hswept := (swept_start free hholds.1).loop hfree
    (by rw [htake, List.length_nil]; omega)
  rw [htake, ← hs, List.append_nil] at hswept
  have hsame := hswept.same
  have hcount := hswept.count
  have hkept := hswept.kept
  have howner := hswept.owner
  simp only [List.length_nil, Nat.zero_add, Nat.add_zero, htake] at hsame hcount hkept howner
  obtain ⟨ps', hps'⟩ := exists_cleaned hfree g.n ps
  obtain ⟨hcleaned, hback⟩ := cleaned_eq free hpos (hlen.trans_le hfits)
  have hlen' : s.nfreed + ps'.length = ps.length := by
    have hl := congrArg List.length hps'
    rw [payloads, List.length_map, List.length_append, List.length_drop, hlen] at hl
    omega
  refine ⟨ps', hps'.trans hcleaned.symm, ⟨?_, ?_, fun j hj hj' => ?_⟩, hlen',
    hswept.freed.trans hback.symm⟩
  · rw [laid_plain]
    show Holds stamp g.n s.buf (c + s.nfreed) (payloads ps')
    rw [hps', holds_append, Nat.add_assoc, hcount]
    refine ⟨hkept, hholds.2.congr fun i hi => hsame _ fun j hj => ?_⟩
    rw [List.length_drop, hlen] at hi
    exact SlotRing.slot_ne (by omega) (by omega)
  · rw [span_plain]
    omega
  · rw [span_plain] at hj
    rcases Nat.lt_or_ge j (c + g.n) with hlt | hge
    · rw [getSwCqe_congr (hsame _ fun i hi => SlotRing.slot_ne (by omega) (by omega))]
      exact hfreeSlots j (by omega) hlt
    · -- a slot from which an entry has been removed or moved away
      obtain ⟨i, rfl⟩ : ∃ i, j = c + i + g.n := ⟨j - c - g.n, by omega⟩
      refine getSwCqe_owner (o := phase g.n (c + i)) ?_ ?_
      · rw [Nat.add_mod_right]
        exact howner i (by omega)
      · rw [phase_lap g.n_pos]
        cases phase g.n (c + i) <;> decide

theorem mlx5CqClean_eq {cq : Cq} {m : Nat} (hc : cq.consIndex = UInt32.ofNat c)
    (hci : cq.setCi = cq.consIndex &&& 0xffffff)
    (hscan : scanLoop cq.size (isMpRq cx cqeVer) (UInt32.ofNat c) cq.size.n (UInt32.ofNat c)
      cq.buf =
      (buf, UInt32.ofNat (c + m))) (hm : m < cq.size.n)
    (hs : s = sweepLoop cq.size (freeResCqe cqeVer srq rsnUidx) (UInt32.ofNat c) m ⟨buf, 0, []⟩) :
    mlx5CqClean cx cqeVer srq rsnUidx cq =
      (Cq.updateConsIndex { cq with buf := s.buf, consIndex := UInt32.ofNat (c + s.nfreed) },
        s.freed) := by
  have hlt := cq.size.n_lt
  have hsub : (UInt32.ofNat (c + m) - UInt32.ofNat c).toNat = m := by
    rw [UInt32.ofNat_add, UInt32.add_comm, UInt32.add_sub_cancel, UInt32.toNat_ofNat']
    exact Nat.mod_eq_of_lt (by omega)
  unfold mlx5CqClean
  rw [hc] at hci ⊢
  simp only [hscan, hsub, ← hs]
  split
  · next hz => rw [hz, Nat.add_zero, Cq.updateConsIndex, ← hc, hc, ← hci]
  · rw [UInt32.ofNat_add]

/-- Cleaning leaves the entries of the other queue pairs, in their order, and the newest
entry of a full queue. -/
theorem clean_represents {cq : Cq} {q : List Slot} (h : Represents cx cqeVer cq c q)
    (srq : Bool) (rsnUidx : Nat) (hci : cq.setCi = cq.consIndex &&& 0xffffff) :
    ∃ c' cq', mlx5CqClean cx cqeVer srq rsnUidx cq =
        (cq', givenBack (freeResCqe cqeVer srq rsnUidx) cq.size.n q) ∧
      Represents cx cqeVer cq' c' (cleaned (freeResCqe cqeVer srq rsnUidx) cq.size.n q) ∧
      c' + (cleaned (freeResCqe cqeVer srq rsnUidx) cq.size.n q).length = c + q.length ∧
      cq'.setCi = cq'.consIndex &&& 0xffffff ∧ cq'.size = cq.size := by
  obtain ⟨bs, hring, rfl⟩ := h.ring
  obtain ⟨ps, buf, hscan, hring, hentries⟩ :=
    scanLoop_spec cx cqeVer [] cq.size.n rfl cq.size.n_pos hring
  rw [List.length_nil, Nat.add_zero] at hscan
  rw [List.map_nil, List.nil_append, entriesOf_plain] at hentries
  obtain ⟨s, hs⟩ : ∃ s, s = sweepLoop cq.size (freeResCqe cqeVer srq rsnUidx) (UInt32.ofNat c)
    (min ps.length (cq.size.n - 1)) ⟨buf, 0, []⟩ := ⟨_, rfl⟩
  obtain ⟨ps', hps', hring', hlen, hfreed⟩ :=
    sweep_ring (freeResCqe_stamp cqeVer srq rsnUidx) hring hs
  have hpos := cq.size.n_pos
  have heq := mlx5CqClean_eq h.consIndex hci hscan (by omega) hs
  rw [hfreed, payloads, hentries] at heq
  refine ⟨_, _, heq, ⟨rfl, _, hring', ?_⟩, ?_, rfl, rfl⟩
  · rw [entriesOf_plain, ← hentries]
    exact hps'
  · rw [← hentries, ← payloads, ← hps', payloads, payloads, List.length_map, List.length_map]
    omega

end RdmaBench.Mlx5.CqClean
