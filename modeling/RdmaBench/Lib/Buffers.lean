import Mathlib.Tactic
import Mathlib.Algebra.Order.BigOperators.Group.Finset
import Mathlib.Data.Int.CardIntervalMod

/-! # Receive queues

A receiver posts buffers, and each message that arrives takes one of them. A
message that finds none is lost. The receiver polls a completion for each
buffer that was taken. A queue covers `n` messages if they all find a buffer,
whenever they arrive. -/

namespace RdmaBench.Lib.Buffers

/-- The buffers posted and taken, the completions polled, and the messages that
found no buffer. -/
structure RecvQueue where
  posted : Nat
  consumed : Nat
  polled : Nat
  dropped : Nat
deriving DecidableEq, Repr

def RecvQueue.empty : RecvQueue := ⟨0, 0, 0, 0⟩

/-- Post `k` buffers. -/
def RecvQueue.post (q : RecvQueue) (k : Nat) : RecvQueue := { q with posted := q.posted + k }

/-- A message arrives. -/
def RecvQueue.arrive (q : RecvQueue) : RecvQueue :=
  if q.consumed < q.posted then { q with consumed := q.consumed + 1 }
  else { q with dropped := q.dropped + 1 }

/-- Poll `k` completions. -/
def RecvQueue.poll (q : RecvQueue) (k : Nat) : RecvQueue := { q with polled := q.polled + k }

/-- The messages that have arrived. -/
def RecvQueue.arrived (q : RecvQueue) : Nat := q.consumed + q.dropped

/-- The buffers that the next messages can take. -/
def RecvQueue.free (q : RecvQueue) : Nat := q.posted - q.consumed

/-- The completions that are ready to be polled. -/
def RecvQueue.ready (q : RecvQueue) : Nat := q.consumed - q.polled

/-- No message was lost, and `n` more find a buffer. -/
structure RecvQueue.Covers (q : RecvQueue) (n : Nat) : Prop where
  dropped : q.dropped = 0
  polled_le : q.polled ≤ q.consumed
  room : q.consumed + n ≤ q.posted

variable {q : RecvQueue} {n k : Nat}

theorem covers_empty : RecvQueue.empty.Covers 0 := ⟨rfl, Nat.le_refl _, Nat.le_refl _⟩

theorem RecvQueue.Covers.mono (h : q.Covers n) (hk : k ≤ n) : q.Covers k :=
  ⟨h.dropped, h.polled_le, (Nat.add_le_add_left hk _).trans h.room⟩

theorem RecvQueue.Covers.post (h : q.Covers n) (k : Nat) : (q.post k).Covers (n + k) := by
  refine ⟨h.dropped, h.polled_le, ?_⟩
  rw [← Nat.add_assoc]
  exact Nat.add_le_add_right h.room k

/-- A covered message takes a buffer. -/
theorem RecvQueue.Covers.arrive_eq (h : q.Covers (n + 1)) :
    q.arrive = { q with consumed := q.consumed + 1 } := by
  have := h.room
  exact if_pos (by omega)

theorem RecvQueue.Covers.arrive (h : q.Covers (n + 1)) : q.arrive.Covers n := by
  rw [h.arrive_eq]
  refine ⟨h.dropped, Nat.le_succ_of_le h.polled_le, ?_⟩
  have := h.room
  show q.consumed + 1 + n ≤ q.posted
  omega

theorem RecvQueue.Covers.poll (h : q.Covers n) (hk : k ≤ q.ready) : (q.poll k).Covers n := by
  refine ⟨h.dropped, ?_, h.room⟩
  have := h.polled_le
  show q.polled + k ≤ q.consumed
  unfold RecvQueue.ready at hk
  omega

/-- All messages that arrived took a buffer. -/
theorem RecvQueue.Covers.arrived_eq (h : q.Covers n) : q.arrived = q.consumed := by
  rw [RecvQueue.arrived, h.dropped, Nat.add_zero]

theorem RecvQueue.Covers.le_free (h : q.Covers n) : n ≤ q.free := by
  have := h.room
  unfold RecvQueue.free
  omega

/-! ## Messages in flight -/

/-- Any message in flight may be the next to arrive. -/
theorem arrive_perm {α : Type*} {l : List α} {k : Nat} {x : α} (h : l[k]? = some x) :
    (x :: l.eraseIdx k).Perm l := by
  obtain ⟨hk, rfl⟩ := List.getElem?_eq_some_iff.1 h
  exact List.getElem_cons_eraseIdx_perm hk

/-! ## Senders that share a queue -/

/-- Messages of the senders in `S`, of which none has more than `k`. -/
theorem length_le_card_mul {α κ : Type*} [DecidableEq κ] (sender : α → κ) {S : Finset κ}
    {l : List α} (hS : ∀ x ∈ l, sender x ∈ S)
    (hk : ∀ c ∈ S, (l.filter (sender · = c)).length ≤ k) : l.length ≤ S.card * k := by
  have hcount : ∀ c ∈ S, Multiset.count c (l.map sender : Multiset κ) ≤ k := fun c hc => by
    rw [Multiset.coe_count, List.count, List.countP_map, List.countP_eq_length_filter]
    simpa [Function.comp_def, beq_eq_decide] using hk c hc
  calc l.length = Multiset.card (l.map sender : Multiset κ) := by simp
    _ = ∑ c ∈ S, Multiset.count c (l.map sender : Multiset κ) :=
      (Multiset.sum_count_eq_card fun c hc => by
        obtain ⟨x, hx, rfl⟩ := List.mem_map.1 (Multiset.mem_coe.1 hc)
        exact hS x hx).symm
    _ ≤ S.card * k := Finset.sum_le_card_nsmul S _ k hcount

/-- Senders dealt out to `T` queues: a queue has at most `M / T` of `M`, rounded up. -/
theorem card_class_le {M T : Nat} (hT : 0 < T) (t : Nat) :
    ((Finset.range M).filter (· % T = t)).card ≤ (M + T - 1) / T := by
  rcases Nat.lt_or_ge t T with ht | ht
  · have hclass :
        (Finset.range M).filter (· % T = t) = (Finset.range M).filter (· ≡ t [MOD T]) := by
      refine Finset.filter_congr fun x _ => ?_
      rw [Nat.ModEq, Nat.mod_eq_of_lt ht]
    rw [hclass, ← Nat.count_eq_card_filter_range, Nat.count_modEq_card _ hT]
    have hdiv := Nat.div_add_mod M T
    split
    · next hlt =>
      rw [Nat.le_div_iff_mul_le hT, Nat.add_mul, Nat.mul_comm (M / T)]
      omega
    · rw [Nat.add_zero]
      exact Nat.div_le_div_right (by omega)
  · have hnone : (Finset.range M).filter (· % T = t) = ∅ :=
      Finset.filter_eq_empty_iff.2 fun x _ h =>
        absurd (h ▸ Nat.mod_lt x hT) (Nat.not_lt.2 ht)
    rw [hnone, Finset.card_empty]
    exact Nat.zero_le _

end RdmaBench.Lib.Buffers
