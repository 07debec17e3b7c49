import Mathlib.Tactic

/-! # Byte-addressed memory

Memory is a function from addresses to bytes. Words are little-endian groups
of eight bytes, so a word access and a byte access of one region are about the
same cells. Every frame fact below is stated on address ranges: an access
depends only on the bytes of its range, and a write changes no byte outside. -/

namespace RdmaBench.Lib.ByteMem

abbrev Mem := Nat → UInt8

/-- Two memories hold the same `n` bytes from address `a` on. -/
def Agree (m m' : Mem) (a n : Nat) : Prop := ∀ x, a ≤ x → x < a + n → m' x = m x

theorem Agree.refl (m : Mem) (a n : Nat) : Agree m m a n := fun _ _ _ => rfl

theorem Agree.trans {m m' m'' : Mem} {a n : Nat} (h : Agree m m' a n) (h' : Agree m' m'' a n) :
    Agree m m'' a n := fun x hl hu => (h' x hl hu).trans (h x hl hu)

theorem Agree.mono {m m' : Mem} {a n b k : Nat} (h : Agree m m' a n) (hl : a ≤ b)
    (hu : b + k ≤ a + n) : Agree m m' b k :=
  fun x hx hx' => h x (by omega) (by omega)

/-! ## Little-endian words -/

/-- The number whose little-endian digits are the `n` bytes from `a` on. -/
def loadLE (m : Mem) (a : Nat) : Nat → Nat
  | 0 => 0
  | n + 1 => (m a).toNat + 256 * loadLE m (a + 1) n

/-- Irreducible: proofs use the lemmas below, never the eight digits. -/
@[irreducible] def load64 (m : Mem) (a : Nat) : Nat := loadLE m a 8

/-- Overwrite the eight bytes from `a` on with the digits of `v`. Digits of
`v` above the 64th bit are lost, as in a store of a 64-bit register. -/
def store64 (m : Mem) (a v : Nat) : Mem := fun x =>
  if a ≤ x ∧ x < a + 8 then UInt8.ofNat (v / 256 ^ (x - a)) else m x

/-- Copy `len` bytes of the buffer `src` to address `dst`. -/
def memcpy (m : Mem) (dst : Nat) (src : Nat → UInt8) (len : Nat) : Mem := fun x =>
  if dst ≤ x ∧ x < dst + len then src (x - dst) else m x

/-- Fill `len` bytes from `dst` on with `v`. -/
def memset (m : Mem) (dst : Nat) (v : UInt8) (len : Nat) : Mem := memcpy m dst (fun _ => v) len

theorem loadLE_congr {m m' : Mem} :
    ∀ {n a : Nat}, Agree m m' a n → loadLE m' a n = loadLE m a n
  | 0, _, _ => rfl
  | n + 1, a, h => by
    have ht : Agree m m' (a + 1) n := h.mono (by omega) (by omega)
    simp only [loadLE, h a (Nat.le_refl _) (by omega), loadLE_congr ht]

theorem load64_congr {m m' : Mem} {a : Nat} (h : Agree m m' a 8) : load64 m' a = load64 m a := by
  unfold load64
  exact loadLE_congr h

theorem loadLE_lt (m : Mem) : ∀ n a, loadLE m a n < 256 ^ n
  | 0, _ => by simp [loadLE]
  | n + 1, a => by
    have hd := (m a).toNat_lt
    have ht := loadLE_lt m n (a + 1)
    simp only [loadLE, Nat.pow_succ]
    omega

theorem load64_lt (m : Mem) (a : Nat) : load64 m a < 2 ^ 64 := by
  have := loadLE_lt m 8 a
  simpa [load64] using this

/-- The last byte is the most significant digit. -/
theorem loadLE_succ (m : Mem) : ∀ n a,
    loadLE m a (n + 1) = loadLE m a n + 256 ^ n * (m (a + n)).toNat
  | 0, a => by simp [loadLE]
  | n + 1, a => by
    rw [loadLE, loadLE_succ m n (a + 1), loadLE, show a + 1 + n = a + (n + 1) by omega]
    ring

/-- The top bit of a word is that of its last byte. -/
theorem load64_lt_half_iff {m : Mem} {a : Nat} :
    load64 m a < 2 ^ 63 ↔ (m (a + 7)).toNat < 128 := by
  have hlow := loadLE_lt m 7 a
  unfold load64
  rw [loadLE_succ]
  omega

/-- Reading back digits that were written one by one. -/
theorem loadLE_digits {m : Mem} :
    ∀ {n a v : Nat}, (∀ i, i < n → m (a + i) = UInt8.ofNat (v / 256 ^ i)) →
      loadLE m a n = v % 256 ^ n
  | 0, _, _, _ => by simp [loadLE, Nat.mod_one]
  | n + 1, a, v, h => by
    have h0 : m a = UInt8.ofNat v := by simpa using h 0 (by omega)
    have ht : loadLE m (a + 1) n = (v / 256) % 256 ^ n := by
      apply loadLE_digits
      intro i hi
      have hs := h (i + 1) (by omega)
      rw [Nat.pow_succ, Nat.mul_comm, ← Nat.div_div_eq_div_mul] at hs
      rw [Nat.add_assoc, Nat.add_comm 1 i]
      exact hs
    rw [loadLE, h0, ht, Nat.pow_succ, Nat.mul_comm (256 ^ n), Nat.mod_mul]
    simp

theorem load64_store64_same {m : Mem} {a v : Nat} (hv : v < 2 ^ 64) :
    load64 (store64 m a v) a = v := by
  have hd : load64 (store64 m a v) a = v % 256 ^ 8 := by
    unfold load64
    apply loadLE_digits
    intro i hi
    simp [store64, hi]
  rw [hd, Nat.mod_eq_of_lt (by simpa using hv)]

theorem store64_agree {m : Mem} {a v b n : Nat} (h : b + n ≤ a ∨ a + 8 ≤ b) :
    Agree m (store64 m a v) b n := by
  intro x hl hu
  have hx : ¬(a ≤ x ∧ x < a + 8) := by omega
  simp only [store64, if_neg hx]

theorem load64_store64_disjoint {m : Mem} {a v b : Nat} (h : b + 8 ≤ a ∨ a + 8 ≤ b) :
    load64 (store64 m a v) b = load64 m b := load64_congr (store64_agree h)

theorem memcpy_agree {m : Mem} {dst : Nat} {src : Nat → UInt8} {len b n : Nat}
    (h : b + n ≤ dst ∨ dst + len ≤ b) : Agree m (memcpy m dst src len) b n := by
  intro x hl hu
  have hx : ¬(dst ≤ x ∧ x < dst + len) := by omega
  simp only [memcpy, if_neg hx]

theorem memcpy_inside {m : Mem} {dst : Nat} {src : Nat → UInt8} {len i : Nat} (h : i < len) :
    memcpy m dst src len (dst + i) = src i := by
  have hx : dst ≤ dst + i ∧ dst + i < dst + len := by omega
  simp only [memcpy, if_pos hx, Nat.add_sub_cancel_left]

end RdmaBench.Lib.ByteMem
