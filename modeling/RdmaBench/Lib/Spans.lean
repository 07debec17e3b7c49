import RdmaBench.Lib.SlotRing
import Mathlib.Data.Nat.Bitwise

/-! # Items of several cells in a ring

The positions 0, 1, … of a ring of `n` cells are its cells again and again, position
`k` is cell `k % n`. An item takes the cells of consecutive positions. Items whose
positions are less than a lap apart do not share a cell. Software counts positions
in a machine word and masks them, if `n` is a power of two. -/

namespace RdmaBench.Lib.Spans
open RdmaBench.Lib.SlotRing

variable {α : Type*} {n lo hi len : Nat} {mem mem' : Nat → α} {l : List α}

/-- The ring after `l` has been written to the positions from `lo` on. -/
def write (n : Nat) : Nat → List α → (Nat → α) → Nat → α
  | _, [], mem => mem
  | lo, a :: l, mem => write n (lo + 1) l (Function.update mem (lo % n) a)

/-- What is at the `len` positions from `lo` on. -/
def read (n : Nat) (mem : Nat → α) : Nat → Nat → List α
  | _, 0 => []
  | lo, len + 1 => mem (lo % n) :: read n mem (lo + 1) len

theorem write_of_ne (mem : Nat → α) {c : Nat} (h : ∀ j < l.length, (lo + j) % n ≠ c) :
    write n lo l mem c = mem c := by
  induction l generalizing lo mem with
  | nil => rfl
  | cons a l ih =>
    have hfirst : c ≠ lo % n := (h 0 (Nat.succ_pos _)).symm
    rw [write, ih, Function.update_of_ne hfirst]
    intro j hj
    rw [Nat.add_assoc, Nat.add_comm 1 j]
    exact h (j + 1) (Nat.succ_lt_succ hj)

theorem read_congr (h : ∀ j < len, mem' ((lo + j) % n) = mem ((lo + j) % n)) :
    read n mem' lo len = read n mem lo len := by
  induction len generalizing lo with
  | zero => rfl
  | succ len ih =>
    rw [read, read, ih, show mem' (lo % n) = mem (lo % n) from h 0 (Nat.succ_pos _)]
    intro j hj
    rw [Nat.add_assoc, Nat.add_comm 1 j]
    exact h (j + 1) (Nat.succ_lt_succ hj)

/-- An item can be read back if it is not longer than the ring. -/
theorem read_write (mem : Nat → α) (h : l.length ≤ n) :
    read n (write n lo l mem) lo l.length = l := by
  induction l generalizing lo mem with
  | nil => rfl
  | cons a l ih =>
    rw [List.length_cons] at h ⊢
    rw [read, write, ih _ (by omega), write_of_ne, Function.update_self]
    intro j hj
    exact (slot_ne (by omega) (by omega)).symm

/-- A write ahead of an item, not yet a lap away. -/
theorem write_ahead (mem : Nat → α) {k : Nat} (hk : k < hi) (hlap : hi + l.length ≤ k + n) :
    write n hi l mem (k % n) = mem (k % n) := by
  apply write_of_ne
  intro j hj
  exact (slot_ne (by omega) (by omega)).symm

/-- Only the cells of the positions matter. -/
theorem read_mod {m : Nat} (h : n ∣ m) (k len : Nat) :
    read n mem (k % m) len = read n mem k len := by
  have hmod : ∀ j, (k % m + j) % n = (k + j) % n := by
    intro j
    rw [Nat.add_mod, Nat.mod_mod_of_dvd k h, ← Nat.add_mod]
  have hread : ∀ {a b : Nat} (len : Nat), (∀ j, (a + j) % n = (b + j) % n) →
      read n mem a len = read n mem b len := by
    intro a b len hab
    induction len generalizing a b with
    | zero => rfl
    | succ len ih =>
      rw [read, read, show a % n = b % n from hab 0, ih]
      intro j
      rw [Nat.add_assoc, Nat.add_assoc]
      exact hab (1 + j)
  exact hread len hmod

/-- A masked counter is the cell of its position. -/
theorem mask_ofNat {L : Nat} (hL : L < 32) (k : Nat) :
    (UInt32.ofNat k &&& (UInt32.ofNat (2 ^ L) - 1)).toNat = k % 2 ^ L := by
  have hpow : 2 ^ L < 2 ^ 32 := Nat.pow_lt_pow_right (by omega) hL
  have hpos : 0 < 2 ^ L := Nat.two_pow_pos L
  have hmask : (UInt32.ofNat (2 ^ L) - 1).toNat = 2 ^ L - 1 := by
    rw [UInt32.toNat_sub_of_le _ _ (by
      rw [UInt32.le_iff_toNat_le, UInt32.toNat_ofNat', Nat.mod_eq_of_lt hpow]
      exact hpos), UInt32.toNat_ofNat', Nat.mod_eq_of_lt hpow]
    rfl
  rw [UInt32.toNat_and, hmask, UInt32.toNat_ofNat', Nat.and_two_pow_sub_one_eq_mod]
  exact Nat.mod_mod_of_dvd k (Nat.pow_dvd_pow 2 (Nat.le_of_lt hL))

end RdmaBench.Lib.Spans
