import Mathlib.Tactic
import Mathlib.Algebra.Order.BigOperators.Group.Finset

/-! # A window of requests over several receivers

One sender counts its requests to all receivers. At every positive multiple of
`W` requests it waits for `W` answers, from whichever receivers. Each receiver
numbers the requests it gets on its own, and they pass through four stages:
sent, delivered, accepted, answered. The window of the sender bounds every
single receiver's numbering: its unanswered requests have distinct remainders
modulo `W`. -/

namespace RdmaBench.Lib.Window

variable {ω : Type*}

/-- The requests of a sender, as a number for each receiver and stage, and the
answers it has waited for. -/
structure Flow (ω : Type*) where
  sent : ω → Nat
  delivered : ω → Nat
  accepted : ω → Nat
  answered : ω → Nat
  polled : Nat

def Flow.empty : Flow ω := ⟨fun _ => 0, fun _ => 0, fun _ => 0, fun _ => 0, 0⟩

/-- The sender waits for `W` answers before request number `n`. -/
def MustPoll (W n : Nat) : Prop := n % W = 0 ∧ 0 < n

instance (W n : Nat) : Decidable (MustPoll W n) := inferInstanceAs (Decidable (_ ∧ _))

section Steps
variable [DecidableEq ω]

/-- Count `k` more at `w`. -/
def bump (f : ω → Nat) (w : ω) (k : Nat) : ω → Nat := Function.update f w (f w + k)

@[simp] theorem bump_self (f : ω → Nat) (w : ω) (k : Nat) : bump f w k w = f w + k :=
  Function.update_self ..

@[simp] theorem bump_of_ne {w v : ω} (h : v ≠ w) (f : ω → Nat) (k : Nat) : bump f w k v = f v :=
  Function.update_of_ne h ..

theorem le_bump (f : ω → Nat) (w v : ω) (k : Nat) : f v ≤ bump f w k v := by
  by_cases h : v = w
  · subst h
    rw [bump_self]
    exact Nat.le_add_right _ _
  · rw [bump_of_ne h]

theorem bump_le {f g : ω → Nat} {w : ω} {k : Nat} (h : ∀ v, f v ≤ g v) (hw : f w + k ≤ g w)
    (v : ω) : bump f w k v ≤ g v := by
  by_cases hv : v = w
  · subst hv
    rw [bump_self]
    exact hw
  · rw [bump_of_ne hv]
    exact h v

/-- A total after a change at one place, without subtraction. -/
theorem sum_update_add {α M : Type*} [AddCommMonoid M] {S : Finset ω} {w : ω} (hw : w ∈ S)
    (F : α → M) (f : ω → α) (x : α) :
    ∑ v ∈ S, F (Function.update f w x v) + F (f w) = ∑ v ∈ S, F (f v) + F x := by
  have hrest : ∑ v ∈ S.erase w, F (Function.update f w x v) = ∑ v ∈ S.erase w, F (f v) :=
    Finset.sum_congr rfl fun v hv => by rw [Function.update_of_ne (Finset.ne_of_mem_erase hv)]
  rw [← Finset.add_sum_erase _ _ hw, hrest, Function.update_self,
    ← Finset.add_sum_erase _ (fun v => F (f v)) hw]
  abel

theorem sum_bump [Fintype ω] (f : ω → Nat) (w : ω) (k : Nat) :
    ∑ v, bump f w k v = ∑ v, f v + k := by
  have := sum_update_add (Finset.mem_univ w) id f (f w + k)
  simp only [id] at this
  unfold bump
  omega

/-- Request number `n` of all goes to `w`, after the wait if there is one. -/
def Flow.send (W n : Nat) (f : Flow ω) (w : ω) : Flow ω :=
  { f with sent := bump f.sent w 1, polled := if MustPoll W n then f.polled + W else f.polled }

def Flow.deliver (f : Flow ω) (w : ω) : Flow ω := { f with delivered := bump f.delivered w 1 }
def Flow.accept (f : Flow ω) (w : ω) : Flow ω := { f with accepted := bump f.accepted w 1 }

/-- `w` answers `k` requests at once. -/
def Flow.answer (f : Flow ω) (w : ω) (k : Nat) : Flow ω :=
  { f with answered := bump f.answered w k }

end Steps

variable [Fintype ω] {W : Nat} {f : Flow ω}

/-- The stages are in order, and at most a window of requests is not waited for. -/
structure Flow.Ok (W : Nat) (f : Flow ω) : Prop where
  delivered_le : ∀ w, f.delivered w ≤ f.sent w
  accepted_le : ∀ w, f.accepted w ≤ f.delivered w
  answered_le : ∀ w, f.answered w ≤ f.accepted w
  polled_le : f.polled ≤ ∑ w, f.answered w
  polled_dvd : W ∣ f.polled
  window : ∑ w, f.sent w ≤ f.polled + W

theorem Flow.Ok.answered_le_sent (h : f.Ok W) (w : ω) : f.answered w ≤ f.sent w :=
  ((h.answered_le w).trans (h.accepted_le w)).trans (h.delivered_le w)

/-- What bounds the totals bounds every receiver. -/
theorem sent_lt_of_total {s r : ω → Nat} {k : Nat} (hle : ∀ w, r w ≤ s w)
    (h : ∑ w, s w < ∑ w, r w + k) (w : ω) : s w < r w + k := by
  classical
  have hs := Finset.add_sum_erase _ s (Finset.mem_univ w)
  have hr := Finset.add_sum_erase _ r (Finset.mem_univ w)
  have hrest : ∑ v ∈ Finset.univ.erase w, r v ≤ ∑ v ∈ Finset.univ.erase w, s v :=
    Finset.sum_le_sum fun v _ => hle v
  omega

/-- At most `W` requests to a receiver are unanswered. -/
theorem Flow.Ok.sent_le (h : f.Ok W) (w : ω) : f.sent w ≤ f.answered w + W := by
  refine Nat.lt_succ_iff.1 (sent_lt_of_total h.answered_le_sent (k := W + 1) ?_ w)
  have := h.polled_le
  have := h.window
  omega

theorem flow_empty_ok (W : Nat) : (Flow.empty : Flow ω).Ok W :=
  ⟨fun _ => Nat.le_refl _, fun _ => Nat.le_refl _, fun _ => Nat.le_refl _, Nat.zero_le _,
    Nat.dvd_zero _, by simp [Flow.empty]⟩

section Keep
variable [DecidableEq ω] {n : Nat} {w : ω}

/-- The wait leaves room for one more request. -/
theorem Flow.Ok.window_send (h : f.Ok W) (hW : 0 < W) (hn : n = ∑ v, f.sent v) :
    n < (f.send W n w).polled + W := by
  have hwin := h.window
  simp only [Flow.send]
  split
  · omega
  · next hnot =>
    -- A full window would be a positive multiple of `W`.
    refine lt_of_le_of_ne (hn ▸ hwin) fun heq => hnot ⟨?_, by omega⟩
    rw [heq, Nat.add_mod_right]
    exact Nat.mod_eq_zero_of_dvd h.polled_dvd

theorem Flow.Ok.send (h : f.Ok W) (hW : 0 < W) (hn : n = ∑ v, f.sent v)
    (hpoll : MustPoll W n → f.polled + W ≤ ∑ v, f.answered v) : (f.send W n w).Ok W := by
  refine ⟨fun v => (h.delivered_le v).trans (le_bump ..), h.accepted_le, h.answered_le, ?_, ?_, ?_⟩
  · simp only [Flow.send]
    split
    · next hp => exact hpoll hp
    · exact h.polled_le
  · simp only [Flow.send]
    split
    · exact (Nat.dvd_add_self_right).2 h.polled_dvd
    · exact h.polled_dvd
  · have := h.window_send (w := w) hW hn
    show ∑ v, bump f.sent w 1 v ≤ _
    rw [sum_bump, ← hn]
    exact this

theorem Flow.Ok.deliver (h : f.Ok W) (hw : f.delivered w < f.sent w) : (f.deliver w).Ok W :=
  ⟨bump_le h.delivered_le hw, fun v => (h.accepted_le v).trans (le_bump ..), h.answered_le,
    h.polled_le, h.polled_dvd, h.window⟩

theorem Flow.Ok.accept (h : f.Ok W) (hw : f.accepted w < f.delivered w) : (f.accept w).Ok W :=
  ⟨h.delivered_le, bump_le h.accepted_le hw, fun v => (h.answered_le v).trans (le_bump ..),
    h.polled_le, h.polled_dvd, h.window⟩

theorem Flow.Ok.answer {k : Nat} (h : f.Ok W) (hw : f.answered w + k ≤ f.accepted w) :
    (f.answer w k).Ok W :=
  ⟨h.delivered_le, h.accepted_le, bump_le h.answered_le hw,
    h.polled_le.trans (Finset.sum_le_sum fun _ _ => le_bump ..), h.polled_dvd, h.window⟩

end Keep

end RdmaBench.Lib.Window
