import Mathlib.Tactic

/-! # Lists that are taken up to the first item that is refused

Whether an item is taken depends on the item and on the room that is left. The first
one that is not taken ends the list, and the caller is told why and where. -/

namespace RdmaBench.Lib.Admission

variable {α β ε : Type*} {f : Nat → α → Except ε β}

/-- What is taken of a list, and if an item is refused, the error and the number of
items from there on. -/
def admitted (f : Nat → α → Except ε β) : Nat → List α → List β × Option (ε × Nat)
  | _, [] => ([], none)
  | room, a :: rest =>
    match f room a with
    | .error e => ([], some (e, (a :: rest).length))
    | .ok b => (b :: (admitted f (room - 1) rest).1, (admitted f (room - 1) rest).2)

/-- The items before the one that was refused. -/
def before (l : List α) (stop : Option (ε × Nat)) : List α :=
  l.take (l.length - stop.elim 0 Prod.snd)

theorem admitted_error {room : Nat} {a : α} {e : ε} (rest : List α) (h : f room a = .error e) :
    admitted f room (a :: rest) = ([], some (e, (a :: rest).length)) := by
  rw [admitted, h]

theorem admitted_ok {room : Nat} {a : α} {b : β} (rest : List α) (h : f room a = .ok b) :
    admitted f room (a :: rest) =
      (b :: (admitted f (room - 1) rest).1, (admitted f (room - 1) rest).2) := by
  rw [admitted, h]

theorem admitted_left_le (room : Nat) (l : List α) :
    (admitted f room l).2.elim 0 Prod.snd ≤ l.length := by
  induction l generalizing room with
  | nil => exact Nat.le_refl _
  | cons a rest ih =>
    cases h : f room a with
    | error e =>
      rw [admitted_error rest h]
      exact Nat.le_refl _
    | ok b =>
      rw [admitted_ok rest h]
      exact Nat.le_succ_of_le (ih _)

/-- What is taken are the items before the one that is refused. -/
theorem admitted_eq_before {res : α → Option β}
    (hres : ∀ room a b, f room a = .ok b → res a = some b) (room : Nat) (l : List α) :
    (admitted f room l).1 = (before l (admitted f room l).2).filterMap res := by
  unfold before
  induction l generalizing room with
  | nil => rfl
  | cons a rest ih =>
    cases h : f room a with
    | error e =>
      rw [admitted_error rest h]
      simp
    | ok b =>
      have hle := admitted_left_le (f := f) (room - 1) rest
      rw [admitted_ok rest h, List.length_cons, Nat.succ_sub hle, List.take_succ_cons,
        List.filterMap_cons, hres room a b h, ih]

/-- Nothing is taken of a list whose first item is refused. -/
theorem admitted_stopped_first {room : Nat} {l : List α} {e : ε}
    (h : (admitted f room l).2 = some (e, l.length)) : (admitted f room l).1 = [] := by
  cases l with
  | nil => rfl
  | cons a rest =>
    cases hf : f room a with
    | error e' => rw [admitted_error rest hf]
    | ok b =>
      have hle := admitted_left_le (f := f) (room - 1) rest
      rw [admitted_ok rest hf] at h
      rw [h] at hle
      exact absurd hle (Nat.not_succ_le_self _)

end RdmaBench.Lib.Admission
