import Mathlib.Data.Nat.Bitwise
import RdmaBench.Lib.PhaseRing
import RdmaBench.Mlx5.Cqe

/-! # The ring of a completion queue

The NIC writes entries into a ring of a power of two of slots. An entry belongs to
software if its owner bit is the bit of the index above the mask. A compressed
session spans as many slots as it has entries, but the NIC writes only the title and
the slots with mini CQEs: the first of these follows the title, and the others are
the slots whose entries come ninth, seventeenth and so on. `mlx5_decompress_cqe_idx`
unpacks a session in place: entry by entry it overwrites the title, which it copies
from, and the slots with mini CQEs, which it has read. -/

namespace RdmaBench.Mlx5.CqRing
open RdmaBench.Lib RdmaBench.Lib.PhaseRing RdmaBench.Mlx5.Cqe
open RdmaBench.Mlx5.PollOne (isRequestor)

/-! ## Indices -/

/-- `cq_log_size`. The consumer index that the NIC reads has 24 bits, with which it
can tell a full queue from an empty one if there are fewer than `2 ^ 24` slots. -/
structure Size where
  log : Nat
  log_lt : log < 24

/-- The number of slots. -/
def Size.n (g : Size) : Nat := 2 ^ g.log

/-- `ibv_cq.cqe` -/
def Size.cqe (g : Size) : UInt32 := UInt32.ofNat (2 ^ g.log - 1)

def slotOf (g : Size) (n : UInt32) : Nat := (n &&& g.cqe).toNat

/-- `get_sw_cqe` returns the entry. -/
def getSwCqe (g : Size) (buf : Nat → Slot) (n : UInt32) : Bool :=
  let cqe64 := buf (slotOf g n)
  cqe64.opcode != .invalid && cqe64.opOwn &&& 1 == ownerBit (n &&& (g.cqe + 1) != 0)

/-! ## Decompression -/

structure Unpacked where
  buf : Nat → Slot
  wqeCnt : UInt16

/-- The loop of `copy_cqes` from entry `i` on. -/
def copyLoop (g : Size) (mpRq isReq : Bool) (opown : UInt8) (title : Nat) (miniArray : Slot)
    (cqeIdx : UInt32) : Nat → Nat → Unpacked → Unpacked
  | 0, _, u => u
  | cnt + 1, i, u =>
    let n := cqeIdx + UInt32.ofNat i
    let m := miniArray.mini i
    let cqe := unpack isReq (u.buf title) m
      (opown ||| ((n >>> UInt32.ofNat g.log) &&& 1).toUInt8) u.wqeCnt
    copyLoop g mpRq isReq opown title miniArray cqeIdx cnt (i + 1)
      ⟨Function.update u.buf (slotOf g n) cqe, nextCnt isReq mpRq m u.wqeCnt⟩

def copyCqes (g : Size) (mpRq : Bool) (miniArray : Slot) (title cnt : Nat) (cqeIdx : UInt32)
    (u : Unpacked) : Unpacked :=
  copyLoop g mpRq (isRequestor (u.buf title).opcode) (u.buf title).opownBase title miniArray cqeIdx
    cnt 0 u

/-- The loop of `mlx5_decompress_cqe_idx`, eight entries at a time. -/
def decompressLoop (g : Size) (mpRq : Bool) (title : Nat) :
    Nat → UInt32 → Slot → Unpacked → Unpacked
  | cqeCnt + 8, cqeIdx, miniArray, u =>
    let u := copyCqes g mpRq miniArray title 8 cqeIdx u
    decompressLoop g mpRq title cqeCnt (cqeIdx + 8) (u.buf (slotOf g (cqeIdx + 8))) u
  | cqeCnt, cqeIdx, miniArray, u => copyCqes g mpRq miniArray title cqeCnt cqeIdx u

/-- `mpRq` says whether `find_rsc` finds a multi-packet receive queue for an entry. -/
def mlx5DecompressCqeIdx (g : Size) (mpRq : Slot → Bool) (buf : Nat → Slot) (cqeIdx : UInt32) :
    Nat → Slot :=
  let title := slotOf g cqeIdx
  -- `cqe_cnt` is an `int`
  let cqeCnt := if (buf title).byteCnt < 2 ^ 31 then (buf title).byteCnt else 0
  (decompressLoop g (mpRq (buf title)) title cqeCnt cqeIdx (buf (slotOf g (cqeIdx + 1)))
    ⟨buf, (buf title).wqeCounter⟩).buf

/-! ## Indices as positions -/

variable {g : Size} {k : Nat}

theorem Size.n_pos (g : Size) : 0 < g.n := Nat.two_pow_pos _

theorem Size.n_lt (g : Size) : g.n < 2 ^ 24 := Nat.pow_lt_pow_right (by omega) g.log_lt

theorem slotOf_ofNat (g : Size) (k : Nat) : slotOf g (UInt32.ofNat k) = k % g.n := by
  have hn := g.n_lt
  have hdvd : g.n ∣ 2 ^ 32 := Nat.pow_dvd_pow 2 (by have := g.log_lt; omega)
  unfold slotOf Size.cqe
  rw [UInt32.toNat_and, UInt32.toNat_ofNat', UInt32.toNat_ofNat',
    Nat.mod_eq_of_lt (a := 2 ^ g.log - 1) (by unfold Size.n at hn; omega),
    Nat.and_two_pow_sub_one_eq_mod]
  exact Nat.mod_mod_of_dvd k hdvd

theorem testBit_ofNat (g : Size) (k : Nat) : (k % 2 ^ 32).testBit g.log = phase g.n k := by
  have hlog := g.log_lt
  rw [Size.n, phase_two_pow, Nat.testBit_mod_two_pow, decide_eq_true (by omega), Bool.true_and]

/-- The bit above the mask. -/
theorem lapBit_ofNat (g : Size) (k : Nat) :
    (UInt32.ofNat k &&& (g.cqe + 1) != 0) = phase g.n k := by
  have hn := g.n_lt
  have hpos := g.n_pos
  have hone : g.cqe + 1 = UInt32.ofNat g.n := by
    apply UInt32.toNat_inj.mp
    unfold Size.cqe
    unfold Size.n at hn hpos ⊢
    rw [UInt32.toNat_add, UInt32.toNat_ofNat', UInt32.toNat_ofNat', UInt32.toNat_one]
    omega
  have hand : (UInt32.ofNat k &&& UInt32.ofNat g.n).toNat = (phase g.n k).toNat * 2 ^ g.log := by
    rw [UInt32.toNat_and, UInt32.toNat_ofNat', UInt32.toNat_ofNat',
      Nat.mod_eq_of_lt (a := g.n) (by omega), ← testBit_ofNat]
    exact Nat.and_two_pow _ _
  rw [hone]
  cases hp : phase g.n k with
  | true =>
    rw [hp, Bool.toNat_true, Nat.one_mul] at hand
    refine bne_iff_ne.mpr fun hzero => ?_
    rw [hzero] at hand
    exact absurd hand.symm (Nat.two_pow_pos _).ne'
  | false =>
    rw [hp, Bool.toNat_false, Nat.zero_mul] at hand
    rw [show UInt32.ofNat k &&& UInt32.ofNat g.n = 0 from UInt32.toNat_inj.mp hand]
    rfl

/-- The same bit, shifted down. -/
theorem lapBit_shift (g : Size) (k : Nat) :
    ((UInt32.ofNat k >>> UInt32.ofNat g.log) &&& 1).toUInt8 = ownerBit (phase g.n k) := by
  have hlog := g.log_lt
  apply UInt8.toNat_inj.mp
  rw [UInt32.toNat_toUInt8, UInt32.toNat_and, UInt32.toNat_shiftRight, UInt32.toNat_ofNat',
    UInt32.toNat_ofNat', UInt32.toNat_one, Nat.mod_eq_of_lt (a := g.log) (by omega),
    Nat.mod_eq_of_lt (a := g.log) (by omega), Nat.and_one_is_mod, ← testBit_ofNat,
    Nat.testBit_eq_decide_div_mod_eq, Nat.shiftRight_eq_div_pow]
  rcases Nat.mod_two_eq_zero_or_one (k % 2 ^ 32 / 2 ^ g.log) with h | h
  · rw [h]
    rfl
  · rw [h]
    rfl

/-! ## Titles -/

variable {t s : Slot} {m : Mini} {ms ms' : List Mini} {mpRq : Bool} {w : UInt16} {title : Nat}
  {u v : Unpacked}

/-- The slot serves as the title `t`: it differs at most in the fields that are set
in every entry. -/
structure Title (t s : Slot) : Prop where
  agree : Agree (Field (isRequestor t.opcode)) s t
  base : s.opownBase = t.opownBase

theorem Title.opcode (h : Title t s) : s.opcode = t.opcode := by
  have hshift : ∀ x : UInt8, x >>> 4 = (x &&& 0xf2) >>> 4 := forall_byte (by decide +kernel)
  rw [Slot.opcode, Slot.opcode, hshift s.opOwn, hshift t.opOwn]
  exact congrArg (fun x : UInt8 => opcodeOf (x >>> 4).toNat) h.base

theorem base_set (b : Bool) (x : UInt8) : ((x &&& 0xf2) ||| ownerBit b) &&& 0xf2 = x &&& 0xf2 := by
  revert x
  cases b <;> exact forall_byte (by decide +kernel)

theorem title_stamp (b : Bool) (t : Slot) : Title t (stamp b t) where
  agree := (agree_stamp b t).mono fun _ hi => .inr (.inl hi)
  base := by
    have hbyte : ∀ x : UInt8, (x &&& 0xfe ||| ownerBit b) &&& 0xf2 = x &&& 0xf2 := by
      cases b <;> exact forall_byte (by decide +kernel)
    rw [Slot.opownBase, opOwn_stamp, hbyte, Slot.opownBase]

/-- Every entry of the session serves as its title. -/
theorem Title.unpack (h : Title t s) (m : Mini) (b : Bool) (w : UInt16) :
    Title t (unpack (isRequestor t.opcode) s m (t.opownBase ||| ownerBit b) w) where
  agree := agree_unpack.trans h.agree
  base := by
    rw [Slot.opownBase, opOwn_unpack]
    exact base_set b t.opOwn

/-- Unpacking from the slot is unpacking from the title. -/
theorem Title.unpack_eq (h : Title t s) (m : Mini) (b : Bool) (w : UInt16) :
    Cqe.unpack (isRequestor t.opcode) s m (t.opownBase ||| ownerBit b) w =
      stamp b (Cqe.unpack (isRequestor t.opcode) t m t.opownBase w) := by
  rw [unpack_congr h.agree]
  exact (stamp_unpack b t.opOwn).symm

/-! ## Unpacking in place -/

/-- The counter after some entries. -/
def cntAfter (mpRq : Bool) (t : Slot) (w : UInt16) (ms : List Mini) : UInt16 :=
  ms.foldl (fun w m => nextCnt (isRequestor t.opcode) mpRq m w) w

@[simp] theorem length_expand (ms : List Mini) : (expand mpRq t w ms).length = ms.length := by
  induction ms generalizing w with
  | nil => rfl
  | cons m ms ih => simp [expand, ih]

theorem expand_append :
    expand mpRq t w (ms ++ ms') =
      expand mpRq t w ms ++ expand mpRq t (cntAfter mpRq t w ms) ms' := by
  induction ms generalizing w with
  | nil => rfl
  | cons m ms ih => simp only [List.cons_append, expand, ih, cntAfter, List.foldl_cons]

/-- The entries of `ms` have been unpacked at the positions from `k` on. -/
structure Copied (g : Size) (mpRq : Bool) (t : Slot) (title k : Nat) (ms : List Mini)
    (u u' : Unpacked) : Prop where
  holds : Holds stamp g.n u'.buf k (expand mpRq t u.wqeCnt ms)
  same : ∀ x, (∀ j < ms.length, (k + j) % g.n ≠ x) → u'.buf x = u.buf x
  title : Title t (u'.buf title)
  cnt : u'.wqeCnt = cntAfter mpRq t u.wqeCnt ms

theorem copied_nil (h : Title t (u.buf title)) : Copied g mpRq t title k [] u u :=
  ⟨holds_nil, fun _ _ => rfl, h, rfl⟩

theorem Copied.append {u' : Unpacked} (h : Copied g mpRq t title k ms u v)
    (h' : Copied g mpRq t title (k + ms.length) ms' v u') (hfit : ms.length + ms'.length ≤ g.n) :
    Copied g mpRq t title k (ms ++ ms') u u' where
  holds := by
    rw [expand_append, holds_append, length_expand, ← h.cnt]
    refine ⟨h.holds.congr fun i hi => h'.same _ fun j hj => ?_, h'.holds⟩
    rw [length_expand] at hi
    exact (SlotRing.slot_ne (by omega) (by omega)).symm
  same x hx := by
    rw [List.length_append] at hx
    rw [h'.same x fun j hj => ?_, h.same x fun j hj => hx j (by omega)]
    rw [Nat.add_assoc]
    exact hx (ms.length + j) (by omega)
  title := h'.title
  cnt := by rw [h'.cnt, h.cnt, cntAfter, cntAfter, cntAfter, List.foldl_append]

/-- One iteration. -/
theorem copied_one (g : Size) (mpRq : Bool) (k : Nat) (h : Title t (u.buf title)) (m : Mini) :
    Copied g mpRq t title k [m] u
      ⟨Function.update u.buf (k % g.n)
        (unpack (isRequestor t.opcode) (u.buf title) m
          (t.opownBase ||| ownerBit (phase g.n k)) u.wqeCnt),
        nextCnt (isRequestor t.opcode) mpRq m u.wqeCnt⟩ where
  holds := by
    rw [expand, expand, holds_singleton, ← h.unpack_eq]
    exact Function.update_self ..
  same x hx := Function.update_of_ne (hx 0 (by rw [List.length_singleton]; omega)).symm ..
  title := by
    by_cases hx : title = k % g.n
    · subst hx
      simp only [Function.update_self]
      exact h.unpack m _ _
    · simp only [Function.update_of_ne hx]
      exact h
  cnt := rfl

theorem copyLoop_copied {arr : Slot} (hfit : ms.length ≤ g.n) {i : Nat}
    (harr : ∀ j m, ms[j]? = some m → arr.mini (i + j) = m) (h : Title t (u.buf title)) :
    Copied g mpRq t title (k + i) ms u
      (copyLoop g mpRq (isRequestor t.opcode) t.opownBase title arr (UInt32.ofNat k) ms.length i
        u) := by
  induction ms generalizing i u with
  | nil => exact copied_nil h
  | cons m ms ih =>
    rw [List.length_cons] at hfit
    have hm : arr.mini i = m := harr 0 m rfl
    rw [List.length_cons, copyLoop]
    simp only [hm, ← UInt32.ofNat_add, slotOf_ofNat, lapBit_shift]
    have hone := copied_one g mpRq (k + i) h m
    refine hone.append ?_ (by rw [List.length_singleton]; omega)
    rw [List.length_singleton, Nat.add_assoc]
    refine ih (by omega) (fun j m' hj => ?_) hone.title
    rw [Nat.add_assoc, Nat.add_comm 1 j]
    exact harr (j + 1) m' hj

theorem copyCqes_copied {arr : Slot} (hfit : ms.length ≤ g.n)
    (harr : ∀ j m, ms[j]? = some m → arr.mini j = m) (h : Title t (u.buf title)) :
    Copied g mpRq t title k ms u (copyCqes g mpRq arr title ms.length (UInt32.ofNat k) u) := by
  rw [copyCqes, h.opcode, h.base]
  exact copyLoop_copied hfit (i := 0) (fun j m hj => by rw [Nat.zero_add]; exact harr j m hj) h

theorem decompressLoop_lt {cnt : Nat} (h : cnt < 8) (idx : UInt32) (arr : Slot) (u : Unpacked) :
    decompressLoop g mpRq title cnt idx arr u = copyCqes g mpRq arr title cnt idx u := by
  unfold decompressLoop
  split
  · omega
  · rfl

/-- What is left of a session from an entry on whose number is a multiple of eight:
the next eight mini CQEs are in `arr`, and the others in their slots. -/
theorem decompressLoop_copied (hfit : ms.length ≤ g.n) {arr : Slot}
    (harr : ∀ j m, j < 8 → ms[j]? = some m → arr.mini j = m)
    (hrest : ∀ j m, 8 ≤ j → ms[j]? = some m →
      (u.buf ((k + 8 * (j / 8)) % g.n)).mini (j % 8) = m) (h : Title t (u.buf title)) :
    Copied g mpRq t title k ms u
      (decompressLoop g mpRq title ms.length (UInt32.ofNat k) arr u) := by
  induction hlen : ms.length using Nat.strong_induction_on generalizing ms k arr u with
  | _ len ih =>
    subst hlen
    rcases Nat.lt_or_ge ms.length 8 with hlt | hge
    · rw [decompressLoop_lt hlt]
      refine copyCqes_copied hfit (fun j m hj => ?_) h
      exact harr j m (by have := (List.getElem?_eq_some_iff.mp hj).1; omega) hj
    · -- eight entries, and then the array of the next eight, which they have not reached
      obtain ⟨a, b, rfl, ha⟩ : ∃ a b, ms = a ++ b ∧ a.length = 8 :=
        ⟨ms.take 8, ms.drop 8, (List.take_append_drop 8 ms).symm, by rw [List.length_take]; omega⟩
      have hlen : (a ++ b).length = b.length + 8 := by rw [List.length_append, ha, Nat.add_comm]
      rw [hlen] at hfit ⊢
      have hfirst : Copied g mpRq t title k a u
          (copyCqes g mpRq arr title 8 (UInt32.ofNat k) u) := by
        rw [← ha]
        refine copyCqes_copied (by omega) (fun j m hj => ?_) h
        have hj8 := (List.getElem?_eq_some_iff.mp hj).1
        exact harr j m (by omega) (by rw [List.getElem?_append_left hj8, hj])
      rw [decompressLoop]
      refine hfirst.append ?_ (by omega)
      have hkeep : ∀ j m, b[j]? = some m →
          ((copyCqes g mpRq arr title 8 (UInt32.ofNat k) u).buf
            ((k + 8 + 8 * (j / 8)) % g.n)).mini (j % 8) = m := by
        intro j m hj
        have hjb := (List.getElem?_eq_some_iff.mp hj).1
        rw [hfirst.same _ fun i hi => SlotRing.slot_ne (by omega) (by omega)]
        have hm := hrest (j + 8) m (by omega)
          (by rw [List.getElem?_append_right (by omega), ha, Nat.add_sub_cancel, hj])
        rw [Nat.add_div_right j (by omega), Nat.add_mod_right] at hm
        rw [← hm]
        congr 3
        omega
      have hidx : UInt32.ofNat k + 8 = UInt32.ofNat (k + 8) := (UInt32.ofNat_add k 8).symm
      simp only [hidx, slotOf_ofNat, ha]
      refine ih b.length (by omega) (by omega) (fun j m hj hm => ?_) (fun j m _ hm => hkeep j m hm)
        hfirst.title rfl
      have := hkeep j m hm
      rwa [Nat.div_eq_of_lt hj, Nat.mod_eq_of_lt hj] at this

/-! ## Sessions -/

/-- A compressed session as the NIC writes it. -/
structure Session where
  title : Slot
  minis : List Mini
  valid : title.opcode ≠ .invalid
  format : mlx5GetCqeFormat title = compressed
  count : title.byteCnt = minis.length
  two_le : 2 ≤ minis.length

/-- How far behind the title the mini CQE of entry `j` is. -/
def miniAt (j : Nat) : Nat := if j < 8 then 1 else 8 * (j / 8)

/-- The session is at position `k`. -/
structure Session.At (x : Session) (g : Size) (buf : Nat → Slot) (k : Nat) : Prop where
  title : buf (k % g.n) = stamp (phase g.n k) x.title
  mini : ∀ j m, x.minis[j]? = some m → (buf ((k + miniAt j) % g.n)).mini (j % 8) = m

/-- The entries of a session. -/
def Session.entries (mpRq : Slot → Bool) (x : Session) : List Slot :=
  expand (mpRq x.title) x.title x.title.wqeCounter x.minis

theorem be32_stamp (b : Bool) (s : Slot) {off : Nat} (h : off + 3 < 63) :
    (stamp b s).be32 off = s.be32 off := by
  unfold Slot.be32
  rw [stamp_byte b s (by omega), stamp_byte b s (by omega), stamp_byte b s (by omega),
    stamp_byte b s h]

/-- Decompression puts the entries of the session in the place of the session, with
their owner bits, and touches nothing else. -/
theorem decompress_session {mpRq : Slot → Bool} {buf : Nat → Slot} {x : Session}
    (hmp : ∀ b s, mpRq (stamp b s) = mpRq s) (h : x.At g buf k) (hfit : x.minis.length ≤ g.n) :
    Holds stamp g.n (mlx5DecompressCqeIdx g mpRq buf (UInt32.ofNat k)) k (x.entries mpRq) ∧
      ∀ y, (∀ j < x.minis.length, (k + j) % g.n ≠ y) →
        mlx5DecompressCqeIdx g mpRq buf (UInt32.ofNat k) y = buf y := by
  have hcnt : (stamp (phase g.n k) x.title).byteCnt = x.minis.length := by
    rw [Slot.byteCnt, be32_stamp _ _ (by omega)]
    exact x.count
  have hctr : (stamp (phase g.n k) x.title).wqeCounter = x.title.wqeCounter := by
    rw [Slot.wqeCounter, stamp_byte _ _ (by omega), stamp_byte _ _ (by omega), Slot.wqeCounter]
  have hsmall : x.minis.length < 2 ^ 31 := by
    have := g.n_lt
    omega
  have hidx : UInt32.ofNat k + 1 = UInt32.ofNat (k + 1) := (UInt32.ofNat_add k 1).symm
  have hcopied : Copied g (mpRq x.title) x.title (k % g.n) k x.minis ⟨buf, x.title.wqeCounter⟩
      (decompressLoop g (mpRq x.title) (k % g.n) x.minis.length (UInt32.ofNat k)
        (buf ((k + 1) % g.n)) ⟨buf, x.title.wqeCounter⟩) := by
    refine decompressLoop_copied hfit (fun j m hj hm => ?_) (fun j m hj hm => ?_) ?_
    · have hmini := h.mini j m hm
      rwa [miniAt, if_pos hj, Nat.mod_eq_of_lt hj] at hmini
    · have hmini := h.mini j m hm
      rwa [miniAt, if_neg (by omega)] at hmini
    · show Title x.title (buf (k % g.n))
      rw [h.title]
      exact title_stamp _ _
  unfold mlx5DecompressCqeIdx
  simp only [slotOf_ofNat, hidx, h.title, hcnt, hctr, hmp, hsmall, if_true]
  exact ⟨hcopied.holds, hcopied.same⟩

end RdmaBench.Mlx5.CqRing
