import Mathlib.Tactic

/-! # Selective signaling on a send queue

A sender makes work requests, numbered from 0, and posts them in lists. Every
`B`-th request asks for a completion. Requests of one queue complete in order,
so a completion of request `i` says that all requests up to `i` are done. The
sender waits for one completion at fixed places of its numbering. Two rules are
in use: before the last request of every group of `B`, and before the first of
every group but the first one. -/

namespace RdmaBench.Lib.Signaling

/-- A send queue: the requests made and posted, and the completions polled. -/
structure Queue where
  made : Nat
  posted : Nat
  polled : Nat
deriving DecidableEq, Repr

def Queue.empty : Queue := ⟨0, 0, 0⟩

/-- Where the sender waits for a completion. -/
inductive Rule where
  | beforeLast
  | beforeFirst
deriving DecidableEq, Repr

/-- The sender waits before it makes request `n`. -/
def Rule.Polls (B n : Nat) : Rule → Prop
  | .beforeLast => n % B = B - 1
  | .beforeFirst => n % B = 0 ∧ 0 < n

instance (r : Rule) (B n : Nat) : Decidable (r.Polls B n) := by
  cases r
  · exact inferInstanceAs (Decidable (_ = _))
  · exact inferInstanceAs (Decidable (_ ∧ _))

/-- Some signaled request has been posted and its completion not yet polled. -/
def Queue.CanPoll (B : Nat) (q : Queue) : Prop := ∃ i < q.posted, i % B = 0 ∧ q.polled ≤ i / B

/-- Make one request, after the wait if there is one. -/
def Queue.make (r : Rule) (B : Nat) (q : Queue) : Queue :=
  { q with made := q.made + 1, polled := if r.Polls B q.made then q.polled + 1 else q.polled }

/-- Post all requests made so far. -/
def Queue.post (q : Queue) : Queue := { q with posted := q.made }

/-- The requests that the polled completions say are done. -/
def Queue.acked (B : Nat) (q : Queue) : Nat := if q.polled = 0 then 0 else (q.polled - 1) * B + 1

/-- The posted requests that are not known to be done. -/
def Queue.unacked (B : Nat) (q : Queue) : Nat := q.posted - q.acked B

/-- The request whose completion is polled next. -/
def Queue.next (B : Nat) (q : Queue) : Nat := q.polled * B

variable {B : Nat} {q : Queue} {r : Rule}

theorem canPoll_iff (hB : 0 < B) : q.CanPoll B ↔ q.next B < q.posted := by
  unfold Queue.next
  constructor
  · intro hall
    obtain ⟨i, hi, hmod, hle⟩ := hall
    have hmul := Nat.mul_le_mul_right B hle
    have hdiv : i / B * B = i := Nat.div_mul_cancel (Nat.dvd_of_mod_eq_zero hmod)
    omega
  · intro h
    exact ⟨q.polled * B, h, Nat.mul_mod_left _ _, Nat.le_of_eq (Nat.mul_div_cancel _ hB).symm⟩

/-! ## What a rule polls -/

/-- The completions a rule has polled before request `n`. -/
def Rule.count (B n : Nat) : Rule → Nat
  | .beforeLast => n / B
  | .beforeFirst => (n - 1) / B

theorem Rule.count_succ (hB : 0 < B) (r : Rule) (n : Nat) :
    r.count B (n + 1) = if r.Polls B n then r.count B n + 1 else r.count B n := by
  cases r with
  | beforeLast =>
    have hdvd : B ∣ n + 1 ↔ n % B = B - 1 := by
      rw [Nat.dvd_iff_mod_eq_zero, Nat.add_mod]
      have hlt := Nat.mod_lt n hB
      rcases Nat.lt_or_ge 1 B with h1 | h1
      · rw [Nat.mod_eq_of_lt h1]
        rcases Nat.lt_or_ge (n % B + 1) B with h | h
        · rw [Nat.mod_eq_of_lt h]
          omega
        · rw [show n % B + 1 = B by omega, Nat.mod_self]
          omega
      · rw [show B = 1 by omega]
        omega
    show (n + 1) / B = _
    rw [Nat.succ_div]
    by_cases hp : n % B = B - 1
    · rw [if_pos (hdvd.2 hp), if_pos (show Rule.Polls B n .beforeLast from hp)]
      rfl
    · rw [if_neg (fun h => hp (hdvd.1 h)), if_neg (show ¬Rule.Polls B n .beforeLast from hp)]
      rfl
  | beforeFirst =>
    simp only [Rule.count, Rule.Polls, Nat.add_sub_cancel]
    cases n with
    | zero => simp
    | succ n =>
      simp only [Nat.succ_div, Nat.dvd_iff_mod_eq_zero, Nat.add_sub_cancel, Nat.succ_pos, and_true]
      split_ifs <;> rfl

/-- A queue that has followed a rule from the start. -/
structure Queue.Follows (r : Rule) (B : Nat) (q : Queue) : Prop where
  polled : q.polled = r.count B q.made
  posted : q.posted ≤ q.made

theorem follows_empty (r : Rule) (B : Nat) : Queue.empty.Follows r B := by
  refine ⟨?_, Nat.le_refl _⟩
  cases r with
  | beforeLast => simp [Queue.empty, Rule.count]
  | beforeFirst => simp [Queue.empty, Rule.count]

theorem Queue.Follows.make (h : q.Follows r B) (hB : 0 < B) : (q.make r B).Follows r B := by
  refine ⟨?_, Nat.le_succ_of_le h.posted⟩
  show (if r.Polls B q.made then q.polled + 1 else q.polled) = r.count B (q.made + 1)
  rw [Rule.count_succ hB, h.polled]

theorem Queue.Follows.post (h : q.Follows r B) : q.post.Follows r B := ⟨h.polled, Nat.le_refl _⟩

theorem Queue.post_eq_self (h : q.made = q.posted) : q.post = q := by
  cases q
  cases h
  rfl

/-! ## When a wait ends -/

/-- Before the last request of a group, the wait ends exactly if the first of
the group has been posted. -/
theorem canPoll_beforeLast (hB : 0 < B) (h : q.Follows .beforeLast B)
    (hp : Rule.Polls B q.made .beforeLast) : q.CanPoll B ↔ q.made + 1 < q.posted + B := by
  have hdiv := Nat.div_add_mod q.made B
  have hpoll : q.next B = B * (q.made / B) := by
    rw [Queue.next, h.polled, Nat.mul_comm]
    rfl
  rw [canPoll_iff hB, hpoll]
  simp only [Rule.Polls] at hp
  omega

/-- Before the first request of a later group, the completion waited for is the
next one, of the request `B` positions earlier. -/
theorem polls_beforeFirst (h : q.Follows .beforeFirst B) (hB : 0 < B)
    (hp : Rule.Polls B q.made .beforeFirst) : q.next B + B = q.made := by
  obtain ⟨hmod, hpos⟩ := hp
  obtain ⟨c, hc⟩ := Nat.dvd_of_mod_eq_zero hmod
  have hc0 : 0 < c := by
    rcases Nat.eq_zero_or_pos c with h0 | h0
    · rw [hc, h0, Nat.mul_zero] at hpos
      exact absurd hpos (Nat.lt_irrefl _)
    · exact h0
  have hpoll : q.polled = c - 1 := by
    rw [h.polled, Rule.count, hc]
    refine Nat.div_eq_of_lt_le ?_ ?_
    · rw [Nat.sub_mul, Nat.one_mul, Nat.mul_comm]
      omega
    · rw [Nat.sub_add_cancel hc0, Nat.mul_comm]
      have := Nat.mul_pos hc0 hB
      omega
  rw [Queue.next, hpoll, hc, Nat.sub_mul, Nat.one_mul, Nat.sub_add_cancel, Nat.mul_comm]
  exact Nat.le_mul_of_pos_left B hc0

/-! ## What is not known to be done -/

/-- No rule falls behind by more than a group. -/
theorem Queue.Follows.made_le (h : q.Follows r B) (hB : 0 < B) :
    q.made ≤ q.polled * B + B := by
  rw [h.polled, Nat.mul_comm]
  cases r with
  | beforeLast =>
    have hdiv := Nat.div_add_mod q.made B
    have hlt := Nat.mod_lt q.made hB
    simp only [Rule.count]
    omega
  | beforeFirst =>
    have hdiv := Nat.div_add_mod (q.made - 1) B
    have hlt := Nat.mod_lt (q.made - 1) hB
    simp only [Rule.count]
    omega

/-- After a post at most `2 * B - 1` requests are not known to be done. -/
theorem Queue.Follows.unacked_post (h : q.Follows r B) (hB : 0 < B) :
    q.post.unacked B ≤ 2 * B - 1 := by
  have hle := h.made_le hB
  show q.made - (if q.polled = 0 then 0 else (q.polled - 1) * B + 1) ≤ 2 * B - 1
  cases hp : q.polled with
  | zero =>
    rw [hp, Nat.zero_mul] at hle
    simp only [if_true]
    omega
  | succ c =>
    rw [hp, Nat.succ_mul] at hle
    simp only [Nat.succ_ne_zero, if_false, Nat.add_sub_cancel]
    omega

/-- If every request is signaled, those not known to be done are those not polled. -/
theorem Queue.unacked_one (q : Queue) : q.unacked 1 = q.posted - q.polled := by
  have hacked : q.acked 1 = q.polled := by
    unfold Queue.acked
    split
    · next h0 => exact h0.symm
    · next h0 => omega
  rw [Queue.unacked, hacked]

end RdmaBench.Lib.Signaling
