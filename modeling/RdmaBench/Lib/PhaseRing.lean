import RdmaBench.Lib.SlotRing

/-! # Rings with a lap bit

A producer writes entries at the positions 0, 1, … of a ring of `n` cells, position
`k` into cell `k % n`, and stamps each entry with the parity of its lap. Positions
less than a lap apart have different cells, and one lap later the same cell wants
the other stamp, so that a consumer can tell from the stamp alone whether the cell
of its position has been written. -/

namespace RdmaBench.Lib.PhaseRing
open RdmaBench.Lib.SlotRing

/-- The parity of the lap of position `k`. -/
def phase (n k : Nat) : Bool := k / n % 2 == 1

variable {n k lo : Nat}

/-- One lap later the stamp is the other one. -/
theorem phase_lap (hn : 0 < n) (k : Nat) : phase n (k + n) = !phase n k := by
  unfold phase
  rw [Nat.add_div_right k hn]
  rcases Nat.mod_two_eq_zero_or_one (k / n) with h | h
  · simp [h, Nat.succ_mod_two_eq_one_iff.mpr h]
  · simp [h, Nat.succ_mod_two_eq_zero_iff.mpr h]

/-- The stamp is a bit of the position, if the ring has a power of two of cells. -/
theorem phase_two_pow (L k : Nat) : phase (2 ^ L) k = k.testBit L := by
  rw [phase, Nat.testBit_eq_decide_div_mod_eq]
  rfl

/-- Positions within a lap that have the same cell are the same. -/
theorem eq_of_cell (lo : Nat) {i j : Nat} (hi : lo ≤ i) (hi' : i < lo + n) (hj : lo ≤ j)
    (hj' : j < lo + n)
    (h : i % n = j % n) : i = j := by
  rcases Nat.lt_trichotomy i j with hlt | rfl | hgt
  · exact absurd h (slot_ne hlt (by omega))
  · rfl
  · exact absurd h.symm (slot_ne hgt (by omega))

variable {α β : Type*} {stamp : Bool → α → β} {mem mem' : Nat → β} {l l' : List α} {a : α}

/-- The entries of `l` are in the cells of the positions from `lo` on. -/
def Holds (stamp : Bool → α → β) (n : Nat) (mem : Nat → β) (lo : Nat) (l : List α) : Prop :=
  ∀ i a, l[i]? = some a → mem ((lo + i) % n) = stamp (phase n (lo + i)) a

theorem holds_nil : Holds stamp n mem lo [] := by
  intro i a h
  cases h

theorem holds_cons : Holds stamp n mem lo (a :: l) ↔
    mem (lo % n) = stamp (phase n lo) a ∧ Holds stamp n mem (lo + 1) l := by
  constructor
  · intro h
    refine ⟨h 0 a rfl, fun i b hb => ?_⟩
    rw [Nat.add_right_comm]
    exact h (i + 1) b hb
  · rintro ⟨ha, hl⟩ i b hb
    cases i with
    | zero =>
      cases hb
      exact ha
    | succ i =>
      rw [← Nat.add_assoc, Nat.add_right_comm]
      exact hl i b hb

theorem holds_append : Holds stamp n mem lo (l ++ l') ↔
    Holds stamp n mem lo l ∧ Holds stamp n mem (lo + l.length) l' := by
  induction l generalizing lo with
  | nil => simp [holds_nil]
  | cons a l ih => rw [List.cons_append, holds_cons, holds_cons, ih, and_assoc, List.length_cons,
      Nat.add_right_comm, Nat.add_assoc]

theorem holds_singleton : Holds stamp n mem lo [a] ↔ mem (lo % n) = stamp (phase n lo) a := by
  simp [holds_cons, holds_nil]

/-- Only the cells of the entries matter. -/
theorem Holds.congr (h : Holds stamp n mem lo l)
    (hsame : ∀ i < l.length, mem' ((lo + i) % n) = mem ((lo + i) % n)) :
    Holds stamp n mem' lo l := by
  intro i a ha
  rw [hsame i (List.getElem?_eq_some_iff.mp ha).1]
  exact h i a ha

/-- A write behind the entries, not yet a lap away. -/
theorem Holds.update_behind (h : Holds stamp n mem lo l) (hk : k < lo)
    (hk' : lo + l.length ≤ k + n) (b : β) : Holds stamp n (Function.update mem (k % n) b) lo l := by
  refine h.congr fun i hi => Function.update_of_ne ?_ ..
  exact (slot_ne (by omega) (by omega)).symm

end RdmaBench.Lib.PhaseRing
