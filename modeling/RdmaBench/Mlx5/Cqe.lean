import RdmaBench.Mlx5.PollOne

/-! # Completion queue entries

The buffer of a completion queue is an array of slots of 64 bytes. A slot is a
`struct mlx5_cqe64` or, within a compressed session, an array of eight
`struct mlx5_mini_cqe8`. A session has a title entry, whose `byte_cnt` is the number
of entries it stands for, and a mini CQE for each of these. Multi-byte fields are
big-endian, as the NIC writes them. -/

namespace RdmaBench.Mlx5.Cqe
open RdmaBench.Mlx5.PollOne (CqeOpcode isRequestor isResponder)

abbrev Slot := Fin 64 → UInt8

def Slot.byte (s : Slot) (i : Nat) : UInt8 := if h : i < 64 then s ⟨i, h⟩ else 0

/-- The bytes from `off` on replaced by those of `l`. -/
def Slot.patch (s : Slot) (off : Nat) (l : List UInt8) : Slot := fun b =>
  if off ≤ b.val then l.getD (b.val - off) (s b) else s b

def be16 (a b : UInt8) : UInt16 := UInt16.ofNat (a.toNat * 256 + b.toNat)

def Slot.be32 (s : Slot) (off : Nat) : Nat :=
  (((s.byte off).toNat * 256 + (s.byte (off + 1)).toNat) * 256 + (s.byte (off + 2)).toNat) * 256 +
    (s.byte (off + 3)).toNat

/-! ## Fields -/

def Slot.opOwn (s : Slot) : UInt8 := s.byte 63

/-- The names of `MLX5_CQE_REQ`, …, `MLX5_CQE_INVALID`. -/
def opcodeOf : Nat → CqeOpcode
  | 0 => .req
  | 1 => .respWrImm
  | 2 => .respSend
  | 3 => .respSendImm
  | 4 => .respSendInv
  | 5 => .resizeCq
  | 12 => .sigErr
  | 13 => .reqErr
  | 14 => .respErr
  | 15 => .invalid
  | _ => .unnamed

/-- `op_own >> 4` -/
def Slot.opcode (s : Slot) : CqeOpcode := opcodeOf (s.opOwn >>> 4).toNat

def mlx5GetCqeFormat (s : Slot) : UInt8 := (s.opOwn &&& 0xc) >>> 2

/-- `MLX5_COMPRESSED` -/
def compressed : UInt8 := 3

def Slot.wqeCounter (s : Slot) : UInt16 := be16 (s.byte 60) (s.byte 61)

def Slot.byteCnt (s : Slot) : Nat := s.be32 44

/-- `ntohl(cqe64->srqn_uidx) & 0xffffff` -/
def Slot.srqnUidx (s : Slot) : Nat := s.be32 32 % 2 ^ 24

/-- `ntohl(cqe64->sop_drop_qpn) & 0xffffff` -/
def Slot.rsn (s : Slot) : Nat := s.be32 56 % 2 ^ 24

def ownerBit (b : Bool) : UInt8 := if b then 1 else 0

/-- The entry with the owner bit `b`. -/
def stamp (b : Bool) (s : Slot) : Slot := s.patch 63 [(s.opOwn &&& 0xfe) ||| ownerBit b]

/-! ## Mini CQEs -/

/-- A `struct mlx5_mini_cqe8`: the four bytes of the union, and `byte_cnt`. -/
structure Mini where
  u0 : UInt8
  u1 : UInt8
  u2 : UInt8
  u3 : UInt8
  c0 : UInt8
  c1 : UInt8
  c2 : UInt8
  c3 : UInt8
deriving DecidableEq

/-- `mini_array[i]` -/
def Slot.mini (s : Slot) (i : Nat) : Mini :=
  ⟨s.byte (8 * i), s.byte (8 * i + 1), s.byte (8 * i + 2), s.byte (8 * i + 3),
    s.byte (8 * i + 4), s.byte (8 * i + 5), s.byte (8 * i + 6), s.byte (8 * i + 7)⟩

/-- `(ntohl(byte_cnt) & MP_RQ_NUM_STRIDES_FIELD_MASK) >> MP_RQ_NUM_STRIDES_FIELD_SHIFT` -/
def Mini.strides (m : Mini) : UInt16 := be16 m.c0 m.c1 &&& 0x7fff

/-- An iteration of `copy_cqes`: the title with what the mini CQE says. Of a
requester the counter is in the mini CQE, of a responder it is counted. -/
def unpack (isReq : Bool) (title : Slot) (m : Mini) (opOwn : UInt8) (wqeCnt : UInt16) : Slot :=
  let cqe := (title.patch 44 [m.c0, m.c1, m.c2, m.c3]).patch 63 [opOwn]
  if isReq then (cqe.patch 60 [m.u0, m.u1]).patch 56 [m.u2]
  else (cqe.patch 12 [m.u0, m.u1, m.u2, m.u3]).patch 60
    [UInt8.ofNat (wqeCnt.toNat / 256), UInt8.ofNat wqeCnt.toNat]

/-- `*wqe_cnt` after an iteration. -/
def nextCnt (isReq mpRq : Bool) (m : Mini) (wqeCnt : UInt16) : UInt16 :=
  if isReq then wqeCnt else if mpRq then wqeCnt + m.strides else wqeCnt + 1

/-- `opown` in `copy_cqes`: the opcode and the solicited bit. -/
def Slot.opownBase (title : Slot) : UInt8 := title.opOwn &&& 0xf2

/-- The entries a session stands for, without owner bits. -/
def expand (mpRq : Bool) (title : Slot) : UInt16 → List Mini → List Slot
  | _, [] => []
  | wqeCnt, m :: ms =>
    unpack (isRequestor title.opcode) title m title.opownBase wqeCnt ::
      expand mpRq title (nextCnt (isRequestor title.opcode) mpRq m wqeCnt) ms

/-! ## Patches -/

variable {s t title : Slot} {off : Nat} {l : List UInt8} {b : Bool} {isReq : Bool} {m : Mini}
  {opOwn : UInt8} {wqeCnt : UInt16}

theorem patch_outside (s : Slot) (l : List UInt8) {i : Fin 64}
    (h : i.val < off ∨ off + l.length ≤ i.val) : s.patch off l i = s i := by
  unfold Slot.patch
  split
  · rw [List.getD_eq_getElem?_getD, List.getElem?_eq_none (by omega), Option.getD_none]
  · rfl

theorem patch_inside (s t : Slot) (l : List UInt8) {i : Fin 64} (h1 : off ≤ i.val)
    (h2 : i.val < off + l.length) : s.patch off l i = t.patch off l i := by
  unfold Slot.patch
  rw [if_pos h1, if_pos h1, List.getD_eq_getElem?_getD, List.getD_eq_getElem?_getD,
    List.getElem?_eq_getElem (by omega), Option.getD_some, Option.getD_some]

/-- The slots differ at most at the bytes with `P`. -/
def Agree (P : Nat → Prop) (s t : Slot) : Prop := ∀ i : Fin 64, ¬P i.val → s i = t i

theorem Agree.patch {P : Nat → Prop} (h : Agree P s t) (off : Nat) (l : List UInt8) :
    Agree (fun i => P i ∧ ¬(off ≤ i ∧ i < off + l.length)) (s.patch off l) (t.patch off l) := by
  intro i hi
  by_cases hin : off ≤ i.val ∧ i.val < off + l.length
  · exact patch_inside s t l hin.1 hin.2
  · rw [patch_outside s l (by omega), patch_outside t l (by omega)]
    exact h i fun hP => hi ⟨hP, hin⟩

theorem Agree.eq {P : Nat → Prop} (h : Agree P s t) (hP : ∀ i < 64, ¬P i) : s = t :=
  funext fun i => h i (hP i.val i.isLt)

theorem patch_byte (s : Slot) (l : List UInt8) {i : Nat} (h : i < off ∨ off + l.length ≤ i) :
    (s.patch off l).byte i = s.byte i := by
  unfold Slot.byte
  split
  · exact patch_outside s l h
  · rfl

theorem Agree.mono {P Q : Nat → Prop} (h : Agree P s t) (hPQ : ∀ i, P i → Q i) : Agree Q s t :=
  fun i hi => h i fun hP => hi (hPQ i.val hP)

theorem Agree.trans {P : Nat → Prop} {u : Slot} (h : Agree P s t) (h' : Agree P t u) :
    Agree P s u := fun i hi => (h i hi).trans (h' i hi)

/-! ## The owner bit -/

/-- A fact about bytes that can be checked for all of them. -/
theorem forall_byte {p : UInt8 → Prop} (h : ∀ i : Fin 256, p (UInt8.ofBitVec ⟨i⟩)) (x : UInt8) :
    p x := h ⟨x.toNat, x.toNat_lt⟩

theorem clear_owner (b : Bool) (x : UInt8) :
    ((x &&& 0xfe) ||| ownerBit b) &&& 0xfe = x &&& 0xfe := by
  revert x
  cases b <;> exact forall_byte (by decide +kernel)

theorem owner_of_set (b : Bool) (x : UInt8) : ((x &&& 0xfe) ||| ownerBit b) &&& 1 = ownerBit b := by
  revert x
  cases b <;> exact forall_byte (by decide +kernel)

theorem opcode_of_set (b : Bool) (x : UInt8) : ((x &&& 0xfe) ||| ownerBit b) >>> 4 = x >>> 4 := by
  revert x
  cases b <;> exact forall_byte (by decide +kernel)

theorem format_of_set (b : Bool) (x : UInt8) :
    ((x &&& 0xfe) ||| ownerBit b) &&& 0xc = x &&& 0xc := by
  revert x
  cases b <;> exact forall_byte (by decide +kernel)

theorem opOwn_stamp (b : Bool) (s : Slot) :
    (stamp b s).opOwn = (s.opOwn &&& 0xfe) ||| ownerBit b := rfl

/-- The slots with different bytes at `op_own`. -/
theorem agree_patch (s : Slot) (x : UInt8) : Agree (· = 63) (s.patch 63 [x]) s := by
  intro i hi
  exact patch_outside s _ (by rw [List.length_singleton]; omega)

theorem agree_stamp (b : Bool) (s : Slot) : Agree (· = 63) (stamp b s) s := agree_patch s _

theorem Agree.symm {P : Nat → Prop} (h : Agree P s t) : Agree P t s := fun i hi => (h i hi).symm

/-- Slots that differ in `op_own` at most are the same if they do not differ there. -/
theorem Agree.eq_of_opOwn (h : Agree (· = 63) s t) (ho : s.opOwn = t.opOwn) : s = t := by
  funext i
  by_cases hi : i.val = 63
  · rw [show i = ⟨63, Nat.lt_succ_self 63⟩ from Fin.ext hi]
    exact ho
  · exact h i hi

theorem stamp_byte (b : Bool) (s : Slot) {i : Nat} (h : i < 63) : (stamp b s).byte i = s.byte i :=
  patch_byte s _ (.inl h)

theorem stamp_stamp (b c : Bool) (s : Slot) : stamp b (stamp c s) = stamp b s := by
  refine Agree.eq_of_opOwn ?_ ?_
  · exact ((agree_stamp b _).trans (agree_stamp c s)).trans (agree_stamp b s).symm
  · rw [opOwn_stamp, opOwn_stamp, opOwn_stamp, clear_owner]

/-- The owner bit of a stamped entry. -/
theorem owner_stamp (b : Bool) (s : Slot) : (stamp b s).opOwn &&& 1 = ownerBit b :=
  owner_of_set b s.opOwn

theorem opcode_stamp (b : Bool) (s : Slot) : (stamp b s).opcode = s.opcode := by
  rw [Slot.opcode, opOwn_stamp, opcode_of_set, Slot.opcode]

theorem format_stamp (b : Bool) (s : Slot) :
    mlx5GetCqeFormat (stamp b s) = mlx5GetCqeFormat s := by
  rw [mlx5GetCqeFormat, opOwn_stamp, format_of_set, mlx5GetCqeFormat]

/-! ## Unpacking -/

/-- The bytes that `copy_cqes` sets. -/
def Field (isReq : Bool) (i : Nat) : Prop :=
  44 ≤ i ∧ i < 48 ∨ i = 63 ∨ 60 ≤ i ∧ i < 62 ∨ if isReq then i = 56 else 12 ≤ i ∧ i < 16

/-- The other bytes are those of the title. -/
theorem agree_unpack : Agree (Field isReq) (unpack isReq title m opOwn wqeCnt) title := by
  intro i hi
  cases isReq with
  | true =>
    simp only [Field, if_true] at hi
    simp only [unpack, if_true]
    rw [patch_outside, patch_outside, patch_outside, patch_outside] <;>
      simp only [List.length_cons, List.length_nil] <;> omega
  | false =>
    simp only [Field, Bool.false_eq_true, if_false] at hi
    simp only [unpack, Bool.false_eq_true, if_false]
    rw [patch_outside, patch_outside, patch_outside, patch_outside] <;>
      simp only [List.length_cons, List.length_nil] <;> omega

/-- A title whose own fields have been set already serves as well. -/
theorem unpack_congr (h : Agree (Field isReq) s t) (m : Mini) (opOwn : UInt8) (wqeCnt : UInt16) :
    unpack isReq s m opOwn wqeCnt = unpack isReq t m opOwn wqeCnt := by
  cases isReq with
  | true =>
    refine ((((h.patch 44 [m.c0, m.c1, m.c2, m.c3]).patch 63 [opOwn]).patch 60 [m.u0, m.u1]).patch
      56 [m.u2]).eq fun i _ hi => ?_
    simp only [Field, if_true, List.length_cons, List.length_nil] at hi
    omega
  | false =>
    refine ((((h.patch 44 [m.c0, m.c1, m.c2, m.c3]).patch 63 [opOwn]).patch 12
      [m.u0, m.u1, m.u2, m.u3]).patch 60 _).eq fun i _ hi => ?_
    simp only [Field, Bool.false_eq_true, if_false, List.length_cons, List.length_nil] at hi
    omega

theorem opOwn_unpack : (unpack isReq title m opOwn wqeCnt).opOwn = opOwn := by
  cases isReq <;> rfl

/-- The byte `op_own` is set and the others do not depend on it. -/
theorem agree_unpack_opOwn (x y : UInt8) :
    Agree (· = 63) (unpack isReq title m x wqeCnt) (unpack isReq title m y wqeCnt) := by
  have h := (agree_patch (title.patch 44 [m.c0, m.c1, m.c2, m.c3]) x).trans
    (agree_patch (title.patch 44 [m.c0, m.c1, m.c2, m.c3]) y).symm
  cases isReq with
  | true => exact ((h.patch 60 [m.u0, m.u1]).patch 56 [m.u2]).mono fun i hi => hi.1.1
  | false => exact ((h.patch 12 [m.u0, m.u1, m.u2, m.u3]).patch 60 _).mono fun i hi => hi.1.1

/-- Unpacking with an owner bit. -/
theorem stamp_unpack (b : Bool) (x : UInt8) :
    stamp b (unpack isReq title m (x &&& 0xf2) wqeCnt) =
      unpack isReq title m ((x &&& 0xf2) ||| ownerBit b) wqeCnt := by
  have hbyte : (x &&& 0xf2) &&& 0xfe = x &&& 0xf2 := by
    revert x
    exact forall_byte (by decide +kernel)
  refine Agree.eq_of_opOwn ((agree_stamp b _).trans (agree_unpack_opOwn _ _)) ?_
  rw [opOwn_stamp, opOwn_unpack, opOwn_unpack, hbyte]

end RdmaBench.Mlx5.Cqe
