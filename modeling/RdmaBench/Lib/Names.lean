import Mathlib.Tactic

/-! # Names with numbers in them

A number printed in decimal can be read back from a name if a character that is
not a digit follows it. -/

namespace RdmaBench.Lib.Names

/-- Two lists with the same separator, which is not in what precedes it. -/
theorem append_sep_inj {α : Type} {c : α} {xs ys l l' : List α} (hx : c ∉ xs) (hy : c ∉ ys)
    (h : xs ++ c :: l = ys ++ c :: l') : xs = ys ∧ l = l' := by
  induction xs generalizing ys with
  | nil =>
    cases ys with
    | nil => exact ⟨rfl, (List.cons.inj h).2⟩
    | cons y ys => exact absurd ((List.cons.inj h).1 ▸ List.mem_cons_self) hy
  | cons x xs ih =>
    cases ys with
    | nil => exact absurd ((List.cons.inj h).1 ▸ List.mem_cons_self) hx
    | cons y ys =>
      obtain ⟨hxy, hrest⟩ := List.cons.inj h
      obtain ⟨hxs, hl⟩ := ih (List.not_mem_of_not_mem_cons hx) (List.not_mem_of_not_mem_cons hy)
        hrest
      exact ⟨by rw [hxy, hxs], hl⟩

theorem notMem_toDigits {c : Char} (hc : c.isDigit = false) (n : Nat) :
    c ∉ Nat.toDigits 10 n := by
  intro hmem
  have hdigit := Nat.isDigit_of_mem_toDigits (by decide) (by decide) hmem
  rw [hc] at hdigit
  cases hdigit

theorem toDigits_inj {a b : Nat} (h : Nat.toDigits 10 a = Nat.toDigits 10 b) : a = b := by
  rw [← Nat.ofDigitChars_ten_toDigits (n := a), h, Nat.ofDigitChars_ten_toDigits]

/-- A number and what follows it. -/
theorem toDigits_sep_inj {c : Char} (hc : c.isDigit = false) {a b : Nat} {l l' : List Char}
    (h : Nat.toDigits 10 a ++ c :: l = Nat.toDigits 10 b ++ c :: l') : a = b ∧ l = l' := by
  obtain ⟨hdigits, hl⟩ := append_sep_inj (notMem_toDigits hc a) (notMem_toDigits hc b) h
  exact ⟨toDigits_inj hdigits, hl⟩

/-- The characters of a printed number. -/
theorem toList_toString (n : Nat) : (toString n).toList = Nat.toDigits 10 n := by
  rw [Nat.toString_eq_ofList_toDigits, String.toList_ofList]

end RdmaBench.Lib.Names
