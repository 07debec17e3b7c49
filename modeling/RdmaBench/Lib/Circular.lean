import Mathlib.Tactic

/-! # Circular buffers

Positions in a circular buffer of `cap` cells are virtual: they only grow, and
cell `x % cap` holds position `x`. Positions in one window of `cap` positions
have cells of their own. -/

namespace RdmaBench.Lib.Circular

/-- Two disjoint ranges of one window, each laid out from the cell of its first
position on, do not share a cell. -/
theorem ranges_apart {cap a n b m : Nat} (hcap : 0 < cap) (hab : a + n ≤ b)
    (hw : b + m ≤ a + cap) : a % cap + n ≤ b % cap ∨ b % cap + m ≤ a % cap := by
  have h1 := Nat.div_add_mod a cap
  have h2 := Nat.div_add_mod b cap
  have ha' := Nat.mod_lt a hcap
  have hb' := Nat.mod_lt b hcap
  have hle : a / cap ≤ b / cap := Nat.div_le_div_right (by omega)
  rcases Nat.eq_or_lt_of_le hle with heq | hlt
  · -- on one lap
    rw [heq] at h1
    exact .inl (by omega)
  · -- on two laps, the second one the next
    have hnext : cap * (a / cap + 1) ≤ cap * (b / cap) := Nat.mul_le_mul_left cap hlt
    rw [Nat.mul_add, Nat.mul_one] at hnext
    exact .inr (by omega)

/-! ## Logs

A log is a table of the entries appended so far, by virtual position. -/

variable {α : Type} {len : α → Nat} {head head' cap o o' : Nat} {E : Nat → Option α} {p p' : α}

/-- The entries of a log follow one another up to the head. -/
structure Layout (len : α → Nat) (head : Nat) (E : Nat → Option α) : Prop where
  pos : ∀ p, 0 < len p
  before : ∀ o p, E o = some p → o + len p ≤ head
  apart : ∀ o p o' p', E o = some p → E o' = some p' → o < o' → o + len p ≤ o'

/-- Nothing is stored at the head or beyond it. -/
theorem Layout.lt_head (h : Layout len head E) (hE : E o = some p) : o < head := by
  have h1 := h.pos p
  have h2 := h.before o p hE
  omega

/-- Appending an entry. -/
theorem Layout.append (h : Layout len head E) (hle : head + len p ≤ head') :
    Layout len head' (Function.update E head (some p)) := by
  refine ⟨h.pos, ?_, ?_⟩
  · intro o q hq
    by_cases ho : o = head
    · subst ho
      rw [Function.update_self, Option.some.injEq] at hq
      rwa [← hq]
    · rw [Function.update_of_ne ho] at hq
      have := h.before o q hq
      omega
  · intro o q o' q' hq hq' hlt
    have hne : o ≠ head := by
      -- nothing lies beyond the head
      rintro rfl
      rw [Function.update_of_ne (by omega)] at hq'
      have := h.lt_head hq'
      omega
    rw [Function.update_of_ne hne] at hq
    by_cases ho' : o' = head
    · rw [ho']
      exact h.before o q hq
    · rw [Function.update_of_ne ho'] at hq'
      exact h.apart o q o' q' hq hq' hlt

/-- Replacing an entry by one of the same length. -/
theorem Layout.replace (h : Layout len head E) (hE : E o = some p) (hlen : len p' = len p) :
    Layout len head (Function.update E o (some p')) := by
  have hold : ∀ x q, Function.update E o (some p') x = some q →
      ∃ q0, E x = some q0 ∧ len q0 = len q := by
    intro x q hq
    by_cases hx : x = o
    · subst hx
      rw [Function.update_self, Option.some.injEq] at hq
      exact ⟨p, hE, by rw [← hq, hlen]⟩
    · rw [Function.update_of_ne hx] at hq
      exact ⟨q, hq, rfl⟩
  refine ⟨h.pos, ?_, ?_⟩
  · intro x q hq
    obtain ⟨q0, hq0, hl⟩ := hold x q hq
    rw [← hl]
    exact h.before x q0 hq0
  · intro x q x' q' hq hq' hlt
    obtain ⟨q0, hq0, hl⟩ := hold x q hq
    obtain ⟨q0', hq0', _⟩ := hold x' q' hq'
    rw [← hl]
    exact h.apart x q0 x' q0' hq0 hq0' hlt

/-- Entries at most one lap behind the head share no cell. -/
theorem Layout.cells_apart (h : Layout len head E) (hcap : 0 < cap) (hE : E o = some p)
    (hE' : E o' = some p') (hne : o ≠ o') (hl : head ≤ o + cap) (hl' : head ≤ o' + cap) :
    o % cap + len p ≤ o' % cap ∨ o' % cap + len p' ≤ o % cap := by
  have hb := h.before o p hE
  have hb' := h.before o' p' hE'
  rcases Nat.lt_or_gt_of_ne hne with hlt | hgt
  · exact ranges_apart hcap (h.apart o p o' p' hE hE' hlt) (by omega)
  · exact (ranges_apart hcap (h.apart o' p' o p hE' hE hgt) (by omega)).symm

/-- Entries of the last lap in one cell are the same. -/
theorem Layout.cell_inj (h : Layout len head E) (hcap : 0 < cap) (hE : E o = some p)
    (hE' : E o' = some p') (hl : head ≤ o + cap) (hl' : head ≤ o' + cap)
    (hcell : o % cap = o' % cap) : o = o' := by
  by_contra hne
  have h1 := h.pos p
  have h2 := h.pos p'
  have h3 := h.cells_apart hcap hE hE' hne hl hl'
  omega

end RdmaBench.Lib.Circular
