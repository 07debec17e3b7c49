import RdmaBench.Lib.Paged

/-! # Bitmaps of words

Bit `k` of a bitmap is bit `k % w` of word `k / w`. A search takes the first word that
is not zero, and in it the lowest bit. -/

namespace RdmaBench.Lib.Bitmap
open RdmaBench.Lib.Paged

variable {w k j n : Nat} {f : Nat → BitVec w}

def bit (f : Nat → BitVec w) (k : Nat) : Bool := (f (k / w)).getLsbD (k % w)

def setBit (f : Nat → BitVec w) (k : Nat) : Nat → BitVec w :=
  Function.update f (k / w) (f (k / w) ||| BitVec.twoPow w (k % w))

def clearBit (f : Nat → BitVec w) (k : Nat) : Nat → BitVec w :=
  Function.update f (k / w) (f (k / w) &&& ~~~BitVec.twoPow w (k % w))

/-- The first of `n` words from `i` on that is not zero. -/
def firstWord (f : Nat → BitVec w) : Nat → Nat → Option Nat
  | 0, _ => none
  | n + 1, i => if f i = 0 then firstWord f n (i + 1) else some i

/-- The lowest bit of `n` words. -/
def lowest (f : Nat → BitVec w) (n : Nat) : Option Nat :=
  (firstWord f n 0).map fun i => i * w + (f i).ctz.toNat

/-- Two bits of a word. -/
theorem mod_eq_iff (hdiv : j / w = k / w) : k % w = j % w ↔ j = k := by
  constructor
  · intro hmod
    rw [← Nat.div_add_mod j w, hdiv, ← hmod, Nat.div_add_mod]
  · rintro rfl
    rfl

theorem bit_setBit (hw : 0 < w) : bit (setBit f k) j = (decide (j = k) || bit f j) := by
  have hlt := Nat.mod_lt k hw
  unfold bit setBit
  by_cases hdiv : j / w = k / w
  · have hmod := mod_eq_iff hdiv
    rw [hdiv, Function.update_self, BitVec.getLsbD_or, BitVec.getLsbD_twoPow]
    simp only [hlt, decide_true, Bool.true_and, hmod, Bool.or_comm]
  · have hne : j ≠ k := fun h => hdiv (congrArg (· / w) h)
    rw [Function.update_of_ne hdiv]
    simp [hne]

theorem bit_clearBit (hw : 0 < w) : bit (clearBit f k) j = (!decide (j = k) && bit f j) := by
  have hlt := Nat.mod_lt k hw
  unfold bit clearBit
  by_cases hdiv : j / w = k / w
  · have hmod := mod_eq_iff hdiv
    rw [hdiv, Function.update_self, BitVec.getLsbD_and, BitVec.getLsbD_not, BitVec.getLsbD_twoPow]
    simp only [hlt, Nat.mod_lt j hw, decide_true, Bool.true_and, hmod, Bool.and_comm]
  · have hne : j ≠ k := fun h => hdiv (congrArg (· / w) h)
    rw [Function.update_of_ne hdiv]
    simp [hne]

theorem firstWord_spec {i : Nat} (h : ∃ j, i ≤ j ∧ j < i + n ∧ f j ≠ 0) :
    ∃ j, firstWord f n i = some j ∧ i ≤ j ∧ j < i + n ∧ f j ≠ 0 ∧
      ∀ l, i ≤ l → l < j → f l = 0 := by
  induction n generalizing i with
  | zero =>
    obtain ⟨j, hj, hj', -⟩ := h
    omega
  | succ n ih =>
    rw [firstWord]
    split
    · next hzero =>
      obtain ⟨j, hj, hj', hne⟩ := h
      have hij : i ≠ j := by
        rintro rfl
        exact hne hzero
      obtain ⟨j', hfirst, hle, hlt, hne', hall⟩ := ih (i := i + 1) ⟨j, by omega, by omega, hne⟩
      refine ⟨j', hfirst, by omega, by omega, hne', fun l hl hl' => ?_⟩
      rcases Nat.eq_or_lt_of_le hl with rfl | hlt'
      · exact hzero
      · exact hall l hlt' hl'
    · next hne => exact ⟨i, rfl, Nat.le_refl i, by omega, hne, fun l hl hl' => by omega⟩

/-- A search finds the lowest bit. -/
theorem lowest_spec (hw : 0 < w) (h : ∃ k < n * w, bit f k = true) :
    ∃ k, lowest f n = some k ∧ bit f k = true ∧ ∀ j, bit f j = true → k ≤ j := by
  obtain ⟨k, hk, hbit⟩ := h
  have hword : ∀ j, bit f j = true → f (j / w) ≠ 0 := by
    intro j hj hzero
    rw [bit, hzero] at hj
    simp at hj
  obtain ⟨i, hfirst, -, -, hne, hall⟩ := firstWord_spec (i := 0)
    ⟨k / w, Nat.zero_le _, by rw [Nat.zero_add]; exact Nat.div_lt_of_lt_mul (by
      rwa [Nat.mul_comm]), hword k hbit⟩
  have hctz : (f i).ctz.toNat < w := by
    by_contra hge
    have htrue := BitVec.getLsbD_true_ctz_of_ne_zero hne
    rw [BitVec.getLsbD_of_ge _ _ (Nat.not_lt.mp hge)] at htrue
    cases htrue
  have hplace : (i * w + (f i).ctz.toNat) / w = i ∧ (i * w + (f i).ctz.toNat) % w =
      (f i).ctz.toNat := by
    rw [Nat.mul_comm, Nat.mul_add_div hw, Nat.div_eq_of_lt hctz, Nat.mul_add_mod,
      Nat.mod_eq_of_lt hctz]
    exact ⟨Nat.add_zero i, rfl⟩
  refine ⟨i * w + (f i).ctz.toNat, by rw [lowest, hfirst]; rfl, ?_, fun j hj => ?_⟩
  · rw [bit, hplace.1, hplace.2]
    exact BitVec.getLsbD_true_ctz_of_ne_zero hne
  · by_contra hlt
    have hle : j / w ≤ i := by
      rw [← hplace.1]
      exact Nat.div_le_div_right (by omega)
    rcases Nat.eq_or_lt_of_le hle with heq | hbefore
    · -- in the same word, below its lowest bit
      have hmod : j % w < (f i).ctz.toNat := by
        have := Nat.div_add_mod j w
        rw [heq, Nat.mul_comm] at this
        omega
      rw [bit, heq, BitVec.getLsbD_false_of_lt_ctz hmod] at hj
      cases hj
    · exact hword j hj (hall _ (Nat.zero_le _) hbefore)

/-! ## Counting -/

/-- The bits that are clear, as entries. -/
def clears (f : Nat → BitVec w) (k : Nat) : Option Unit := if bit f k then none else some ()

theorem clears_clearBit (hw : 0 < w) :
    clears (clearBit f k) = Function.update (clears f) k (some ()) := by
  funext j
  unfold clears
  rw [bit_clearBit hw]
  rcases eq_or_ne j k with rfl | hne
  · simp
  · simp [hne]

theorem clears_setBit (hw : 0 < w) : clears (setBit f k) = Function.update (clears f) k none := by
  funext j
  unfold clears
  rw [bit_setBit hw]
  rcases eq_or_ne j k with rfl | hne
  · simp
  · simp [hne]

end RdmaBench.Lib.Bitmap
