import RdmaBench.Mlx5.CqFifo

/-! # Resizing a completion queue

The NIC ends the old buffer with a resize entry and goes on in the new one, at the
next index. `mlx5_cq_resize_copy_cqes` copies the entries before it to the new buffer,
each to the slot of the next index, so that they end where the NIC has begun. The
index decides about the owner bit, and that bit is another one if the size is. -/

namespace RdmaBench.Mlx5.CqResize
open RdmaBench.Lib RdmaBench.Lib.PhaseRing RdmaBench.Mlx5.Cqe RdmaBench.Mlx5.CqRing
open RdmaBench.Mlx5.CqQueue RdmaBench.Mlx5.CqClean
open RdmaBench.Mlx5.CqFifo (receivedOn fourSlots noResources)
open RdmaBench.Mlx5.PollOne (Context)

/-- `is_hw` -/
def isHw (g : Size) (own : UInt8) (n : UInt32) : Bool :=
  own &&& 1 != ownerBit (n &&& (g.cqe + 1) != 0)

/-- The loop of `mlx5_cq_resize_copy_cqes` from index `i` on, and whether it finds the
resize entry. It gives up when it comes back to the slot it started from, after as
many iterations as there are slots. -/
def copyLoop (g g' : Size) (active : Nat → Slot) (start : Nat) :
    Nat → UInt32 → (Nat → Slot) → (Nat → Slot) × Bool
  | 0, _, resize => (resize, false)
  | n + 1, i, resize =>
    let scqe := active (slotOf g i)
    if scqe.opcode = .resizeCq then (resize, true)
    else
      let swOwn := ownerBit (i + 1 &&& (g'.cqe + 1) != 0)
      let resize := Function.update resize (slotOf g' (i + 1))
        (scqe.patch 63 [(scqe.opOwn &&& 0xfe) ||| swOwn])
      if isHw g (active (slotOf g (i + 1))).opOwn (i + 1) then (resize, false)
      else if slotOf g (i + 1) = start then (resize, false)
      else copyLoop g g' active start n (i + 1) resize

/-- `mlx5_resize_cq` after its command, with the new buffer. -/
def mlx5ResizeCq (g' : Size) (resize : Nat → Slot) (cq : Cq) : Cq :=
  let start := slotOf cq.size cq.consIndex
  let (buf, found) :=
    if isHw cq.size (cq.buf start).opOwn cq.consIndex then (resize, false)
    else copyLoop cq.size g' cq.buf start cq.size.n cq.consIndex resize
  Cq.updateConsIndex
    { cq with
      size := g'
      buf := buf
      consIndex := if found then cq.consIndex + 1 else cq.consIndex }

variable {g g' : Size} {active resize : Nat → Slot} {c : Nat} {ps : List Plain} {e last : Plain}
  {bs : List Block} {cx : Context} {cqeVer : Bool}

theorem isHw_stamp {k : Nat} {s : Slot} (h : active (k % g.n) = stamp (phase g.n k) s) :
    isHw g (active (slotOf g (UInt32.ofNat k))).opOwn (UInt32.ofNat k) = false := by
  rw [isHw, slotOf_ofNat, lapBit_ofNat, h, owner_stamp, bne_self_eq_false]

/-- An entry stamped anew. -/
theorem restamp (b o : Bool) (e : Slot) :
    (stamp b e).patch 63 [((stamp b e).opOwn &&& 0xfe) ||| ownerBit o] = stamp o e :=
  stamp_stamp o b e

/-- There is an entry at the first place. -/
theorem head_at {k : Nat} (h : Laid g active k (ps.map .plain ++ [.plain last])) :
    ∃ s, active (k % g.n) = stamp (phase g.n k) s := by
  cases ps with
  | nil => exact ⟨last.slot, h.1⟩
  | cons e ps => exact ⟨e.slot, h.1⟩

/-- An iteration that copies the entry at `k` and goes on. -/
theorem copyLoop_step {k n start : Nat} {s : Slot}
    (hat : active (k % g.n) = stamp (phase g.n k) e.slot) (hcode : e.slot.opcode ≠ .resizeCq)
    (hnext : active ((k + 1) % g.n) = stamp (phase g.n (k + 1)) s)
    (hstart : (k + 1) % g.n ≠ start) :
    copyLoop g g' active start (n + 1) (UInt32.ofNat k) resize =
      copyLoop g g' active start n (UInt32.ofNat (k + 1))
        (Function.update resize ((k + 1) % g'.n) (stamp (phase g'.n (k + 1)) e.slot)) := by
  have hi : UInt32.ofNat k + 1 = UInt32.ofNat (k + 1) := (UInt32.ofNat_add k 1).symm
  have hhw := isHw_stamp hnext
  rw [copyLoop]
  rw [slotOf_ofNat] at hhw
  simp only [hi, slotOf_ofNat, hat, opcode_stamp, hcode, if_false, lapBit_ofNat, restamp, hhw,
    Bool.false_eq_true, hstart]

/-- The new buffer after the loop: the entries from `k` on have been copied, each to the
place after its own, and nothing else has changed. -/
structure Copied (g' : Size) (k : Nat) (ps : List Plain) (resize resize' : Nat → Slot) :
    Prop where
  holds : Holds stamp g'.n resize' (k + 1) (payloads ps)
  same : ∀ y, (∀ j < ps.length, (k + 1 + j) % g'.n ≠ y) → resize' y = resize y

theorem Copied.cons {k : Nat} {resize' : Nat → Slot} (hfit : ps.length + 1 ≤ g'.n)
    (h : Copied g' (k + 1) ps
      (Function.update resize ((k + 1) % g'.n) (stamp (phase g'.n (k + 1)) e.slot)) resize') :
    Copied g' k (e :: ps) resize resize' where
  holds := by
    rw [payloads, List.map_cons, holds_cons, stamp_stamp]
    refine ⟨?_, h.holds⟩
    rw [h.same _ fun j hj => (SlotRing.slot_ne (by omega) (by omega)).symm, Function.update_self]
  same y hy := by
    rw [List.length_cons] at hy
    rw [h.same y fun j hj => ?_]
    · exact Function.update_of_ne (hy 0 (by omega)).symm ..
    · rw [Nat.add_assoc _ 1 j, Nat.add_comm 1 j]
      exact hy (j + 1) (by omega)

theorem copyLoop_copied (resize : Nat → Slot) (start : Nat) {k n : Nat} (hn : ps.length < n)
    (hlaid : Laid g active k (ps.map .plain ++ [.plain last]))
    (hlast : last.slot.opcode = .resizeCq) (hps : ∀ e ∈ ps, e.slot.opcode ≠ .resizeCq)
    (hstart : ∀ j < ps.length, (k + 1 + j) % g.n ≠ start) (hfit : ps.length ≤ g'.n) :
    ∃ resize', copyLoop g g' active start n (UInt32.ofNat k) resize = (resize', true) ∧
      Copied g' k ps resize resize' := by
  induction ps generalizing k n resize with
  | nil =>
    obtain ⟨m, rfl⟩ : ∃ m, n = m + 1 := ⟨n - 1, by rw [List.length_nil] at hn; omega⟩
    have hat : active (k % g.n) = stamp (phase g.n k) last.slot := hlaid.1
    refine ⟨resize, ?_, holds_nil, fun _ _ => rfl⟩
    rw [copyLoop]
    simp only [slotOf_ofNat, hat, opcode_stamp, hlast, if_true]
  | cons e ps ih =>
    rw [List.length_cons] at hn hfit hstart
    obtain ⟨m, rfl⟩ : ∃ m, n = m + 1 := ⟨n - 1, by omega⟩
    obtain ⟨hat, hrest⟩ := hlaid
    obtain ⟨s, hnext⟩ := head_at hrest
    rw [copyLoop_step hat (hps e List.mem_cons_self) hnext (hstart 0 (by omega))]
    have hstart' : ∀ j < ps.length, (k + 1 + 1 + j) % g.n ≠ start := by
      intro j hj
      rw [Nat.add_assoc _ 1 j, Nat.add_comm 1 j]
      exact hstart (j + 1) (by omega)
    have hn' : ps.length < m := by omega
    obtain ⟨resize', hloop, hcopied⟩ := ih _ hn' hrest
      (fun e' he' => hps e' (List.mem_cons_of_mem e he')) hstart' (by omega)
    exact ⟨resize', hloop, hcopied.cons hfit⟩

/-- If no session is pending, the resized queue has the entries of the old buffer up to
the resize entry, and then what the NIC has written to the new one. -/
theorem resize_represents {cq : Cq} (hc : cq.consIndex = UInt32.ofNat c)
    (hold : Pending cq.size cq.buf c (ps.map .plain ++ [.plain last]))
    (hlast : last.slot.opcode = .resizeCq) (hps : ∀ e ∈ ps, e.slot.opcode ≠ .resizeCq)
    (hnew : Pending g' resize (c + 1 + ps.length) bs) (hfit : ps.length + span bs ≤ g'.n) :
    Represents cx cqeVer (mlx5ResizeCq g' resize cq) (c + 1)
      (payloads ps ++ entriesOf (isMpRq cx cqeVer) bs) := by
  have hfits := hold.fits
  rw [span_append, span_plain, span_cons, span_nil] at hfits
  have hone : (Block.plain last).size = 1 := rfl
  obtain ⟨s, hat⟩ := head_at hold.laid
  have hhw := isHw_stamp hat
  obtain ⟨resize', hloop, hcopied⟩ := copyLoop_copied resize (c % cq.size.n)
    (show ps.length < cq.size.n by omega) hold.laid hlast hps
    (fun j hj => (SlotRing.slot_ne (by omega) (by omega)).symm) (show ps.length ≤ g'.n by omega)
  have hi : UInt32.ofNat c + 1 = UInt32.ofNat (c + 1) := (UInt32.ofNat_add c 1).symm
  have heq : mlx5ResizeCq g' resize cq = Cq.updateConsIndex
      { cq with size := g', buf := resize', consIndex := UInt32.ofNat (c + 1) } := by
    unfold mlx5ResizeCq
    rw [slotOf_ofNat] at hhw
    simp only [hc, slotOf_ofNat, hhw, Bool.false_eq_true, if_false, hloop, if_true, hi]
  rw [heq]
  refine ⟨rfl, ps.map .plain ++ bs, ⟨?_, ?_, fun j hj hj' => ?_⟩, ?_⟩
  · refine laid_append.mpr ⟨laid_plain.mpr hcopied.holds, ?_⟩
    rw [span_plain]
    refine hnew.laid.congr fun i hi => hcopied.same _ fun j hj => ?_
    exact SlotRing.slot_ne (by omega) (by omega)
  · rw [span_append, span_plain]
    exact hfit
  · have hj' : j < c + 1 + g'.n := hj'
    rw [span_append, span_plain] at hj
    show getSwCqe g' resize' (UInt32.ofNat j) = false
    rw [getSwCqe_congr (hcopied.same _ fun i hi => SlotRing.slot_ne (by omega) (by omega))]
    exact hnew.free j (by omega) (by omega)
  · rw [entriesOf_append, entriesOf_plain]
    rfl

/-- A resize entry. -/
def resizeEntry : Plain where
  slot b := if b.val = 63 then 0x50 else 0
  valid := by decide
  format := by decide

/-- The buffer of four slots with one received message and a resize entry after it. -/
def ended : Nat → Slot :=
  Function.update (Function.update mlx5AllocCqBuf 0 (stamp false (receivedOn 1).slot)) 1
    (stamp false resizeEntry.slot)

theorem pending_ended :
    Pending fourSlots ended 0 ([receivedOn 1].map .plain ++ [.plain resizeEntry]) := by
  have hone : Pending fourSlots
      (Function.update mlx5AllocCqBuf 0 (stamp false (receivedOn 1).slot)) 0
      ([] ++ [.plain (receivedOn 1)]) :=
    (ring_empty fourSlots 0).push (Function.update_self ..) (by decide)
      fun y hy => Function.update_of_ne (hy 0 Nat.one_pos).symm ..
  exact hone.push (Function.update_self ..) (by decide)
    fun y hy => Function.update_of_ne (hy 0 Nat.one_pos).symm ..

theorem resize_represents_ended : Represents noResources false
    (mlx5ResizeCq ⟨3, by omega⟩ mlx5AllocCqBuf ⟨fourSlots, ended, 0, 0⟩) 1
    (payloads [receivedOn 1] ++ entriesOf (isMpRq noResources false) []) := by
  have hps : ∀ e ∈ [receivedOn 1], e.slot.opcode ≠ .resizeCq := by
    simp only [List.mem_singleton, forall_eq]
    decide
  exact resize_represents rfl pending_ended (by decide) hps (ring_empty _ 2) (by decide)

end RdmaBench.Mlx5.CqResize
