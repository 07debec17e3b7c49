import Mathlib.Tactic

/-! # Requests counted in one word

A sender numbers its requests from 1 and writes each number over the one before,
into a word that a receiver reads. Writes arrive in order. The receiver counts
its answers and gives one more while its count differs from the word. No request
is lost although most are overwritten unseen: the word is the number of requests
that arrived, and the count never passes it. -/

namespace RdmaBench.Lib.CounterSlot

/-- The word, the numbers on their way to it, the requests made and the answers given. -/
structure Counts (slot : Nat) (flight : List Nat) (sent answered : Nat) : Prop where
  answered_le : answered ≤ slot
  slot_le : slot ≤ sent
  flight_eq : flight = List.range' (slot + 1) (sent - slot)

variable {slot sent answered : Nat} {flight : List Nat}

theorem counts_zero : Counts 0 [] 0 0 := ⟨Nat.le_refl 0, Nat.le_refl 0, rfl⟩

theorem Counts.send (h : Counts slot flight sent answered) :
    Counts slot (flight ++ [sent + 1]) (sent + 1) answered := by
  refine ⟨h.answered_le, Nat.le_succ_of_le h.slot_le, ?_⟩
  have hlast : slot + 1 + (sent - slot) = sent + 1 := by
    have := h.slot_le
    omega
  rw [Nat.sub_add_comm h.slot_le, List.range'_1_concat, hlast, h.flight_eq]

/-- The next number to arrive is one more than the word. -/
theorem Counts.deliver {v : Nat} (h : Counts slot (v :: flight) sent answered) :
    v = slot + 1 ∧ Counts v flight sent answered := by
  have hflight := h.flight_eq
  cases hk : sent - slot with
  | zero =>
    rw [hk] at hflight
    cases hflight
  | succ k =>
    rw [hk, List.range'_succ] at hflight
    obtain ⟨rfl, rfl⟩ := List.cons.inj hflight
    have hle : slot + 1 ≤ sent := by omega
    have hrest : sent - (slot + 1) = k := by omega
    exact ⟨rfl, Nat.le_succ_of_le h.answered_le, hle, by rw [hrest]⟩

/-- A count that differs from the word is below it. -/
theorem Counts.answer (h : Counts slot flight sent answered) (hne : slot ≠ answered) :
    Counts slot flight sent (answered + 1) :=
  ⟨Nat.lt_of_le_of_ne h.answered_le hne.symm, h.slot_le, h.flight_eq⟩

end RdmaBench.Lib.CounterSlot
