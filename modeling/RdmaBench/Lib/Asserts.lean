import Mathlib.Tactic

/-! # Code that can stop at an assert

A failed assert ends the process, so a function that checks one returns an
`Except` whose error names the assert. -/

namespace RdmaBench.Lib.Asserts

variable {ε α β : Type}

def check (p : Prop) [Decidable p] (a : ε) : Except ε Unit :=
  if p then .ok () else .error a

/-- A computation that goes on after a check has passed it. -/
theorem check_bind {p : Prop} [Decidable p] {a : ε} {f : Unit → Except ε α} {r : α}
    (h : (check p a >>= f) = .ok r) : p ∧ f () = .ok r := by
  unfold check at h
  split at h
  · rename_i hp
    exact ⟨hp, h⟩
  · cases h

theorem check_true {p : Prop} [Decidable p] (h : p) (a : ε) : check p a = .ok () := if_pos h

theorem ok_bind (a : α) (f : α → Except ε β) : (Except.ok a >>= f) = f a := rfl

/-- A sequence that succeeds did so in both parts. -/
theorem bind_ok {x : Except ε α} {f : α → Except ε β} {r : β} (h : (x >>= f) = .ok r) :
    ∃ a, x = .ok a ∧ f a = .ok r := by
  cases x with
  | error e => cases h
  | ok a => exact ⟨a, rfl, h⟩

theorem ok_of_toOption {x : Except ε α} {a : α} (h : x.toOption = some a) : x = .ok a := by
  cases x with
  | error e => cases h
  | ok b => rw [Option.some.inj h]

end RdmaBench.Lib.Asserts
