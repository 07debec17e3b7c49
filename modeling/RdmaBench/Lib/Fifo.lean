import Mathlib.Tactic
import RdmaBench.Lib.SlotRing

/-! # Numbers dealt to queues

The numbers 0, 1, … are put into first-in first-out queues, each into a queue of
the dealer's choice. They are taken out in their order, at most `W` of them are
in the queues at a time, and a ring of `W` entries remembers the queue of each.
The entry of the oldest number names the queue at whose head it stands, whatever
the choices were. -/

namespace RdmaBench.Lib.Fifo
open RdmaBench.Lib.SlotRing

variable {ι : Type*}

/-- The numbers `p, …, n - 1` are in the queues, in order, and the ring knows the
queue of each. -/
structure Dealt (W p n : Nat) (ring : Nat → ι) (queue : ι → List Nat) : Prop where
  sorted : ∀ i, (queue i).Pairwise (· < ·)
  bounds : ∀ i, ∀ k ∈ queue i, p ≤ k ∧ k < n
  recorded : ∀ i, ∀ k ∈ queue i, ring (k % W) = i
  kept : ∀ k, p ≤ k → k < n → k ∈ queue (ring (k % W))

variable {W p n : Nat} {ring : Nat → ι} {queue : ι → List Nat}

theorem dealt_empty (W : Nat) (ring : Nat → ι) : Dealt W 0 0 ring fun _ => [] where
  sorted _ := .nil
  bounds _ _ hk := absurd hk List.not_mem_nil
  recorded _ _ hk := absurd hk List.not_mem_nil
  kept k _ hk := absurd hk (Nat.not_lt_zero k)

/-- The oldest number stands at the head of the queue its entry names. -/
theorem Dealt.head (h : Dealt W p n ring queue) (hp : p < n) :
    ∃ rest, queue (ring (p % W)) = p :: rest := by
  have hmem := h.kept p (Nat.le_refl p) hp
  have hs := h.sorted (ring (p % W))
  have hb := h.bounds (ring (p % W))
  cases hq : queue (ring (p % W)) with
  | nil => simp [hq] at hmem
  | cons k rest =>
    rw [hq] at hmem hs hb
    obtain rfl | hmem := List.mem_cons.1 hmem
    · exact ⟨rest, rfl⟩
    · -- the head would be older than the oldest
      have hlt := List.rel_of_pairwise_cons hs hmem
      have hle := (hb k List.mem_cons_self).1
      omega

/-- A queue holds no more numbers than there are in all. -/
theorem Dealt.length_le (h : Dealt W p n ring queue) (i : ι) : (queue i).length ≤ n - p := by
  have hnd : (queue i).Nodup := (h.sorted i).imp Nat.ne_of_lt
  have hsub : (queue i).toFinset ⊆ Finset.Ico p n :=
    fun k hk => Finset.mem_Ico.2 (h.bounds i k (List.mem_toFinset.1 hk))
  calc (queue i).length = (queue i).toFinset.card := (List.toFinset_card_of_nodup hnd).symm
    _ ≤ (Finset.Ico p n).card := Finset.card_le_card hsub
    _ = n - p := Nat.card_Ico p n

/-- An entry that no number in the queues uses can be overwritten. -/
theorem Dealt.record (h : Dealt W p n ring queue) (hn : n < p + W) (i : ι) :
    Dealt W p n (Function.update ring (n % W) i) queue := by
  have hsame : ∀ k, p ≤ k → k < n → Function.update ring (n % W) i (k % W) = ring (k % W) :=
    fun k hpk hkn => Function.update_of_ne (slot_ne hkn (by omega)) ..
  refine ⟨h.sorted, h.bounds, fun j k hk => ?_, fun k hpk hkn => ?_⟩
  · obtain ⟨hpk, hkn⟩ := h.bounds j k hk
    rw [hsame k hpk hkn, h.recorded j k hk]
  · rw [hsame k hpk hkn]
    exact h.kept k hpk hkn

variable [DecidableEq ι]

/-- The next number goes to the end of the queue its entry names. -/
theorem Dealt.push (h : Dealt W p n ring queue) (hpn : p ≤ n) :
    Dealt W p (n + 1) ring
      (Function.update queue (ring (n % W)) (queue (ring (n % W)) ++ [n])) := by
  have hmem : ∀ i k, k ∈ Function.update queue (ring (n % W)) (queue (ring (n % W)) ++ [n]) i ↔
      k ∈ queue i ∨ k = n ∧ ring (k % W) = i := by
    intro i k
    by_cases hi : i = ring (n % W)
    · subst hi
      rw [Function.update_self, List.mem_append, List.mem_singleton]
      exact or_congr_right (iff_self_and.2 fun hk => by rw [hk])
    · rw [Function.update_of_ne hi]
      refine (or_iff_left ?_).symm
      rintro ⟨rfl, hk⟩
      exact hi hk.symm
  refine ⟨fun i => ?_, fun i k hk => ?_, fun i k hk => ?_, fun k hpk hkn => (hmem _ k).2 ?_⟩
  · by_cases hi : i = ring (n % W)
    · subst hi
      rw [Function.update_self]
      refine List.pairwise_append.2 ⟨h.sorted _, List.pairwise_singleton _ _, fun a ha b hb => ?_⟩
      rw [List.mem_singleton.1 hb]
      exact (h.bounds _ a ha).2
    · rw [Function.update_of_ne hi]
      exact h.sorted i
  · obtain hk | ⟨rfl, -⟩ := (hmem i k).1 hk
    · exact ⟨(h.bounds i k hk).1, Nat.lt_succ_of_lt (h.bounds i k hk).2⟩
    · exact ⟨hpn, Nat.lt_succ_self k⟩
  · obtain hk | ⟨-, hk⟩ := (hmem i k).1 hk
    · exact h.recorded i k hk
    · exact hk
  · obtain hk | rfl := Nat.lt_succ_iff_lt_or_eq.1 hkn
    · exact .inl (h.kept k hpk hk)
    · exact .inr ⟨rfl, rfl⟩

/-- The oldest number is taken out. -/
theorem Dealt.pop (h : Dealt W p n ring queue) {rest : List Nat}
    (hq : queue (ring (p % W)) = p :: rest) :
    Dealt W (p + 1) n ring (Function.update queue (ring (p % W)) rest) := by
  have hs := h.sorted (ring (p % W))
  rw [hq] at hs
  have hmem : ∀ i k, k ∈ Function.update queue (ring (p % W)) rest i ↔ k ∈ queue i ∧ k ≠ p := by
    intro i k
    by_cases hi : i = ring (p % W)
    · subst hi
      rw [Function.update_self, hq, List.mem_cons]
      constructor
      · intro hk
        exact ⟨.inr hk, (Nat.ne_of_lt (List.rel_of_pairwise_cons hs hk)).symm⟩
      · intro hk
        exact hk.1.resolve_left hk.2
    · rw [Function.update_of_ne hi]
      refine (and_iff_left_of_imp fun hk hkp => hi ?_).symm
      rw [← h.recorded i k hk, hkp]
  refine ⟨fun i => ?_, fun i k hk => ?_, fun i k hk => ?_, fun k hpk hkn => (hmem _ k).2 ?_⟩
  · by_cases hi : i = ring (p % W)
    · subst hi
      rw [Function.update_self]
      exact hs.of_cons
    · rw [Function.update_of_ne hi]
      exact h.sorted i
  · obtain ⟨hk, hne⟩ := (hmem i k).1 hk
    exact ⟨Nat.lt_of_le_of_ne (h.bounds i k hk).1 hne.symm, (h.bounds i k hk).2⟩
  · exact h.recorded i k ((hmem i k).1 hk).1
  · exact ⟨h.kept k (Nat.le_of_succ_le hpk) hkn, Nat.ne_of_gt hpk⟩

end RdmaBench.Lib.Fifo
