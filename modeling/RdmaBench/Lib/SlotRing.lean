import Mathlib.Tactic

/-! # A ring of request slots

A sender writes requests into a ring of `W` slots, request number `n` into slot
`n % W`. The receiver looks at one slot after the other, and marks each request
it accepts in its slot. As long as the sender is never more than `W` requests
ahead, every request is seen once and in order. -/

namespace RdmaBench.Lib.SlotRing

/-- How a slot is used: what a written request leaves in it, and what accepting
it does to it. -/
structure Mailbox (Slot Req : Type*) where
  isRequest : Slot → Bool
  write : Req → Slot → Slot
  take : Slot → Slot
  isRequest_write : ∀ r x, isRequest (write r x) = true
  isRequest_take : ∀ r x, isRequest (take (write r x)) = false

variable {Slot Req : Type*}

/-- The slot holds the request `r` as written. -/
def Mailbox.Holds (m : Mailbox Slot Req) (y : Slot) (r : Req) : Prop := ∃ x, y = m.write r x

/-- The slot holds the request `r` as accepted. -/
def Mailbox.Took (m : Mailbox Slot Req) (y : Slot) (r : Req) : Prop :=
  ∃ x, y = m.take (m.write r x)

/-- The ring after `sent`, of which `delivered` have been written, and with the
contents of the slots that were accepted. -/
structure RingOk (m : Mailbox Slot Req) (W : Nat) (slot : Nat → Slot) (sent : List Req)
    (delivered : Nat) (accepted : List Slot) : Prop where
  waiting : ∀ n r, accepted.length ≤ n → n < delivered → sent[n]? = some r →
    m.Holds (slot (n % W)) r
  taken : ∀ n, n < accepted.length → delivered ≤ n + W → accepted[n]? = some (slot (n % W))
  fresh : ∀ j < W, delivered ≤ j → m.isRequest (slot j) = false
  order : List.Forall₂ m.Took accepted (sent.take accepted.length)

/-- Numbers less than `W` apart have different slots. -/
theorem slot_ne {W a b : Nat} (h1 : a < b) (h2 : b < a + W) : a % W ≠ b % W := by
  intro h
  have hdvd : W ∣ b - a := (Nat.modEq_iff_dvd' (Nat.le_of_lt h1)).1 h
  have := Nat.le_of_dvd (Nat.sub_pos_of_lt h1) hdvd
  omega

/-- The slot of the next number, counted without a division. -/
theorem next_slot {n W : Nat} (hW : 0 < W) :
    (if n % W + 1 = W then 0 else n % W + 1) = (n + 1) % W := by
  have hlt := Nat.mod_lt n hW
  have hn : n + 1 = W * (n / W) + (n % W + 1) := by rw [← Nat.add_assoc, Nat.div_add_mod]
  rw [hn, Nat.mul_add_mod]
  split
  · next h => rw [h, Nat.mod_self]
  · next h => exact (Nat.mod_eq_of_lt (by omega)).symm

variable {m : Mailbox Slot Req} {W : Nat} {slot : Nat → Slot} {sent : List Req} {delivered : Nat}
  {accepted : List Slot}

theorem ringOk_empty (h : ∀ j < W, m.isRequest (slot j) = false) : RingOk m W slot [] 0 [] :=
  ⟨fun _ _ _ h => absurd h (Nat.not_lt_zero _), fun _ h => absurd h (Nat.not_lt_zero _),
    fun j hj _ => h j hj, .nil⟩

theorem RingOk.congr {slot' : Nat → Slot} (h : RingOk m W slot sent delivered accepted)
    (hslot : ∀ j < W, slot' j = slot j) (hW : 0 < W) :
    RingOk m W slot' sent delivered accepted := by
  refine ⟨fun n r h1 h2 h3 => ?_, fun n h1 h2 => ?_, fun j hj hd => ?_, h.order⟩
  · rw [hslot _ (Nat.mod_lt _ hW)]
    exact h.waiting n r h1 h2 h3
  · rw [hslot _ (Nat.mod_lt _ hW)]
    exact h.taken n h1 h2
  · rw [hslot j hj]
    exact h.fresh j hj hd

/-- The receiver finds a request in its next slot exactly if one was delivered
that it has not accepted. -/
theorem RingOk.isRequest_iff (h : RingOk m W slot sent delivered accepted) (hW : 0 < W)
    (hle : accepted.length ≤ delivered) (hsent : delivered ≤ sent.length) :
    m.isRequest (slot (accepted.length % W)) = true ↔ accepted.length < delivered := by
  constructor
  · intro hreq
    refine lt_of_le_of_ne hle fun heq => ?_
    rcases Nat.lt_or_ge delivered W with hlt | hge
    · rw [heq, Nat.mod_eq_of_lt hlt, h.fresh _ hlt (Nat.le_refl _)] at hreq
      exact Bool.noConfusion hreq
    · -- The slot still holds the request of the round before, as accepted.
      have hback : (delivered - W) % W = accepted.length % W := by
        rw [heq, ← Nat.mod_eq_sub_mod hge]
      have htaken := h.taken (delivered - W) (by omega) (by omega)
      rw [hback] at htaken
      obtain ⟨hlen, hget⟩ := List.getElem?_eq_some_iff.1 htaken
      obtain ⟨x, hx⟩ := (List.forall₂_iff_get.1 h.order).2 (delivered - W) hlen (by
        rw [List.length_take]
        omega)
      rw [List.get_eq_getElem, hget] at hx
      rw [hx, m.isRequest_take] at hreq
      exact Bool.noConfusion hreq
  · intro hlt
    have hsome := List.getElem?_eq_getElem (Nat.lt_of_lt_of_le hlt hsent)
    obtain ⟨x, hx⟩ := h.waiting accepted.length _ (Nat.le_refl _) hlt hsome
    rw [hx, m.isRequest_write]

theorem RingOk.send (h : RingOk m W slot sent delivered accepted)
    (hle : accepted.length ≤ delivered) (hsent : delivered ≤ sent.length) (r : Req) :
    RingOk m W slot (sent ++ [r]) delivered accepted := by
  refine ⟨fun n r' h1 h2 h3 => ?_, h.taken, h.fresh, ?_⟩
  · rw [List.getElem?_append_left (by omega)] at h3
    exact h.waiting n r' h1 h2 h3
  · rw [List.take_append_of_le_length (by omega)]
    exact h.order

/-- The next request is written over one that was answered. -/
theorem RingOk.deliver (h : RingOk m W slot sent delivered accepted) {r : Req}
    (hr : sent[delivered]? = some r) (hle : accepted.length ≤ delivered)
    (hroom : delivered < accepted.length + W) :
    RingOk m W (Function.update slot (delivered % W) (m.write r (slot (delivered % W)))) sent
      (delivered + 1) accepted := by
  refine ⟨fun n r' h1 h2 h3 => ?_, fun n h1 h2 => ?_, fun j hj hd => ?_, h.order⟩
  · rcases Nat.lt_succ_iff_lt_or_eq.1 h2 with hlt | heq
    · rw [Function.update_of_ne (slot_ne hlt (by omega))]
      exact h.waiting n r' h1 hlt h3
    · subst heq
      rw [hr] at h3
      rw [Function.update_self, ← Option.some.inj h3]
      exact ⟨_, rfl⟩
  · rw [Function.update_of_ne (slot_ne (Nat.lt_of_lt_of_le h1 hle) (by omega))]
    exact h.taken n h1 (by omega)
  · have hne : j ≠ delivered % W := by
      rw [Nat.mod_eq_of_lt (by omega)]
      omega
    rw [Function.update_of_ne hne]
    exact h.fresh j hj (by omega)

/-- The receiver accepts the request in its next slot. -/
theorem RingOk.accept (h : RingOk m W slot sent delivered accepted)
    (hlt : accepted.length < delivered) (hsent : delivered ≤ sent.length)
    (hahead : delivered ≤ accepted.length + W) :
    RingOk m W
      (Function.update slot (accepted.length % W) (m.take (slot (accepted.length % W)))) sent
      delivered (accepted ++ [m.take (slot (accepted.length % W))]) := by
  have hsome := List.getElem?_eq_getElem (Nat.lt_of_lt_of_le hlt hsent)
  obtain ⟨x, hx⟩ := h.waiting accepted.length _ (Nat.le_refl _) hlt hsome
  refine ⟨fun n r h1 h2 h3 => ?_, fun n h1 h2 => ?_, fun j hj hd => ?_, ?_⟩
  · rw [List.length_append, List.length_singleton] at h1
    rw [Function.update_of_ne (slot_ne (a := accepted.length) h1 (by omega)).symm]
    exact h.waiting n r (by omega) h2 h3
  · rw [List.length_append, List.length_singleton] at h1
    rcases Nat.lt_succ_iff_lt_or_eq.1 h1 with hold | heq
    · rw [Function.update_of_ne (slot_ne hold (by omega)), List.getElem?_append_left hold]
      exact h.taken n hold h2
    · subst heq
      rw [Function.update_self, List.getElem?_concat_length]
  · have hne : j ≠ accepted.length % W := by
      rw [Nat.mod_eq_of_lt (by omega)]
      omega
    rw [Function.update_of_ne hne]
    exact h.fresh j hj hd
  · rw [List.length_append, List.length_singleton, List.take_add_one, hsome]
    refine List.rel_append h.order (.cons ⟨x, ?_⟩ .nil)
    rw [hx]

end RdmaBench.Lib.SlotRing
