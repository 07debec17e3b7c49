import Mathlib.Tactic

/-! # Singly linked chains in mutable cells

Each cell names the node after it or nothing. A chain is built at its end,
one node at a time: while it is open, what the last node names is left over
from earlier use, and only the write that closes it puts an end there. -/

namespace RdmaBench.Lib.Chain

variable {α : Type}

/-- Following the cells from `p` visits the nodes of `l` and then ends. -/
def Visits (next : α → Option α) : Option α → List α → Prop
  | p, [] => p = none
  | p, a :: l => p = some a ∧ Visits next (next a) l

/-- Follow the cells from `p`, for at most `n` nodes. -/
def follow (next : α → Option α) : Nat → Option α → Option (List α)
  | _, none => some []
  | 0, some _ => none
  | n + 1, some a => (follow next n (next a)).map (a :: ·)

theorem Visits.follow_eq {next : α → Option α} : ∀ {l : List α} {n : Nat} {p : Option α},
    Visits next p l → l.length ≤ n → follow next n p = some l
  | [], n, p, h, _ => by
    rw [show p = none from h]
    cases n <;> rfl
  | a :: l, 0, p, _, hn => absurd hn (Nat.not_succ_le_zero _)
  | a :: l, n + 1, p, h, hn => by
    obtain ⟨rfl, h⟩ := h
    simp only [follow, h.follow_eq (Nat.le_of_succ_le_succ hn), Option.map_some]

/-- The cells of the visited nodes decide. -/
theorem Visits.congr {next next' : α → Option α} : ∀ {l : List α} {p : Option α},
    Visits next p l → (∀ a ∈ l, next' a = next a) → Visits next' p l
  | [], _, h, _ => h
  | a :: l, p, h, he => by
    refine ⟨h.1, ?_⟩
    rw [he a (by simp)]
    exact h.2.congr fun b hb => he b (List.mem_cons_of_mem _ hb)

/-- Each node of `l` but the last names the one after it. -/
def Linked (next : α → Option α) (l : List α) : Prop := l.IsChain fun a b => next a = some b

theorem linked_singleton (next : α → Option α) (a : α) : Linked next [a] := .singleton a

theorem Linked.congr {next next' : α → Option α} {l : List α} (h : Linked next l)
    (he : ∀ a ∈ l, next' a = next a) : Linked next' l :=
  List.IsChain.imp_of_mem_imp (fun a _ ha _ hab => (he a ha).trans hab) h

variable [DecidableEq α]

/-- A node put after the last one. -/
theorem Linked.snoc {next : α → Option α} {l : List α} {a : α} (h : Linked next l)
    (hnd : l.Nodup) (ha : l.getLast? = some a) (b : α) :
    Linked (Function.update next a (some b)) (l ++ [b]) := by
  obtain ⟨init, rfl⟩ := List.getLast?_eq_some_iff.mp ha
  obtain ⟨hinit, -, hlast⟩ := List.isChain_append.mp h
  have hne : ∀ x ∈ init, x ≠ a := by
    intro x hx he
    rw [List.nodup_append] at hnd
    exact hnd.2.2 x hx a (by simp) he
  have hkeep : ∀ x ∈ init, Function.update next a (some b) x = next x :=
    fun x hx => Function.update_of_ne (hne x hx) ..
  have hopen : Linked (Function.update next a (some b)) (init ++ [a]) := by
    refine List.isChain_append.mpr ⟨Linked.congr hinit hkeep, .singleton a, ?_⟩
    intro x hx y hy
    rw [hkeep x (List.mem_of_getLast? hx)]
    exact hlast x hx y hy
  refine List.isChain_append.mpr ⟨hopen, .singleton b, ?_⟩
  intro x hx y hy
  rw [ha] at hx
  cases hx
  cases hy
  exact Function.update_self ..

/-- The write that ends the chain. -/
theorem Linked.close {next : α → Option α} : ∀ {l : List α} {a : α}, Linked next l → l.Nodup →
    l.getLast? = some a → Visits (Function.update next a none) l.head? l
  | [], _, _, _, ha => by cases ha
  | [b], a, _, _, ha => by
    cases ha
    exact ⟨rfl, Function.update_self ..⟩
  | b :: c :: l, a, h, hnd, ha => by
    obtain ⟨hbc, hrest⟩ := List.isChain_cons_cons.mp h
    obtain ⟨hb, hnd⟩ := List.nodup_cons.mp hnd
    rw [List.getLast?_cons_cons] at ha
    have hne : b ≠ a := fun he => hb (he ▸ List.mem_of_getLast? ha)
    refine ⟨rfl, ?_⟩
    rw [Function.update_of_ne hne, hbc]
    exact Linked.close hrest hnd ha

end RdmaBench.Lib.Chain
