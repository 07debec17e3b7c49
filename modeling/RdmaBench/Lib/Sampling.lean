import Mathlib.Algebra.Ring.GeomSum
import Mathlib.Tactic

/-! # Drawing until a value is accepted

A loop that draws values from a generator until one passes a test has nothing
that decreases. It ends if the generator comes to every state, as a linear
congruential generator modulo a power of two does when its multiplier is 1
modulo 4 and its increment is odd. -/

namespace RdmaBench.Lib.Sampling
open Finset

/-! ## Generators with full period -/

/-- One step of a linear congruential generator. -/
def lcg (a c m x : Nat) : Nat := (a * x + c) % m

def geom (a n : Nat) : Nat := ∑ i ∈ range n, a ^ i

/-- How far `n` steps move. -/
theorem iterate_lcg (b c m n x : Nat) :
    (lcg (b + 1) c m)^[n] x ≡ x + geom (b + 1) n * (b * x + c) [MOD m] := by
  induction n with
  | zero => simp [geom, Nat.ModEq.refl]
  | succ n ih =>
    rw [Function.iterate_succ_apply']
    have hsucc : geom (b + 1) (n + 1) = (b + 1) * geom (b + 1) n + 1 := geom_sum_succ
    calc lcg (b + 1) c m ((lcg (b + 1) c m)^[n] x)
        ≡ (b + 1) * (lcg (b + 1) c m)^[n] x + c [MOD m] := Nat.mod_modEq _ _
      _ ≡ (b + 1) * (x + geom (b + 1) n * (b * x + c)) + c [MOD m] :=
        (ih.mul_left _).add_right _
      _ = x + geom (b + 1) (n + 1) * (b * x + c) := by rw [hsucc]; ring

theorem geom_two_mul (a n : Nat) : geom a (2 * n) = geom a n * (a ^ n + 1) := by
  have hsplit : geom a (n + n) = geom a n + ∑ i ∈ range n, a ^ (n + i) := sum_range_add ..
  rw [two_mul, hsplit]
  simp only [pow_add, ← mul_sum]
  rw [← geom]
  ring

/-- The sum of `n` odd powers has the parity of `n`. -/
theorem geom_mod_two {a : Nat} (ha : a % 2 = 1) (n : Nat) : geom a n % 2 = n % 2 := by
  induction n with
  | zero => rfl
  | succ n ih =>
    have hsucc : geom a (n + 1) = a * geom a n + 1 := geom_sum_succ
    rw [hsucc, Nat.add_mod, Nat.mul_mod, ha, ih]
    omega

/-- Every factor 2 of the sum is a factor of the number of its terms. -/
theorem two_pow_dvd_of_geom {a : Nat} (ha : a % 4 = 1) :
    ∀ {k n : Nat}, 2 ^ k ∣ geom a n → 2 ^ k ∣ n
  | 0, n, _ => by simp
  | k + 1, n, h => by
    have hodd : a % 2 = 1 := by omega
    have heven : geom a n % 2 = 0 :=
      Nat.mod_eq_zero_of_dvd (Dvd.dvd.trans (dvd_pow_self 2 (Nat.succ_ne_zero k)) h)
    rw [geom_mod_two hodd] at heven
    obtain ⟨m, rfl⟩ := Nat.dvd_of_mod_eq_zero heven
    have hpow : a ^ m % 4 = 1 := by rw [Nat.pow_mod, ha, Nat.one_pow]
    obtain ⟨j, hj⟩ : ∃ j, a ^ m + 1 = 2 * (2 * j + 1) := ⟨a ^ m / 4, by omega⟩
    rw [geom_two_mul, hj, pow_succ', mul_left_comm] at h
    have hcop : Nat.Coprime (2 ^ k) (2 * j + 1) :=
      Nat.Coprime.pow_left k (Nat.coprime_two_left.mpr ⟨j, rfl⟩)
    have hdvd : 2 ^ k ∣ geom a m :=
      hcop.dvd_of_dvd_mul_right (Nat.dvd_of_mul_dvd_mul_left two_pos h)
    rw [pow_succ']
    exact Nat.mul_dvd_mul_left 2 (two_pow_dvd_of_geom ha hdvd)

/-- A state comes back only after a multiple of the modulus. -/
theorem two_pow_dvd_of_return {a c k d y : Nat} (ha : a % 4 = 1) (hc : c % 2 = 1)
    (h : (lcg a c (2 ^ k))^[d] y = y) : 2 ^ k ∣ d := by
  obtain ⟨b, rfl⟩ : ∃ b, a = b + 1 := ⟨a - 1, by omega⟩
  have hmove := iterate_lcg b c (2 ^ k) d y
  rw [h] at hmove
  have hdvd : 2 ^ k ∣ geom (b + 1) d * (b * y + c) := by
    have hzero : 0 ≡ geom (b + 1) d * (b * y + c) [MOD 2 ^ k] :=
      Nat.ModEq.add_left_cancel' y hmove
    exact (Nat.modEq_zero_iff_dvd.mp hzero.symm)
  have hodd : Odd (b * y + c) := by
    have hb : Even (b * y) := (Nat.even_iff.mpr (by omega)).mul_right y
    exact hb.add_odd (Nat.odd_iff.mpr hc)
  have hcop : Nat.Coprime (2 ^ k) (b * y + c) :=
    Nat.Coprime.pow_left k (Nat.coprime_two_left.mpr hodd)
  exact two_pow_dvd_of_geom ha (hcop.dvd_of_dvd_mul_right hdvd)

/-- From every state the generator comes to every other. -/
theorem exists_iterate_lcg {a c k x y : Nat} (ha : a % 4 = 1) (hc : c % 2 = 1) (hx : x < 2 ^ k)
    (hy : y < 2 ^ k) : ∃ n, (lcg a c (2 ^ k))^[n] x = y := by
  have hmaps : Set.MapsTo (fun n => (lcg a c (2 ^ k))^[n] x) (range (2 ^ k)) (range (2 ^ k)) := by
    intro n _
    cases n with
    | zero => simpa using hx
    | succ n =>
      simp only [Function.iterate_succ_apply', coe_range, Set.mem_Iio]
      exact Nat.mod_lt _ (Nat.two_pow_pos k)
  have hinj : Set.InjOn (fun n => (lcg a c (2 ^ k))^[n] x) (range (2 ^ k)) := by
    -- between two equal states the generator has returned
    have hlt : ∀ i j, i < j → j < 2 ^ k →
        (lcg a c (2 ^ k))^[i] x ≠ (lcg a c (2 ^ k))^[j] x := by
      intro i j hij hj he
      have hback : (lcg a c (2 ^ k))^[j - i] ((lcg a c (2 ^ k))^[i] x) =
          (lcg a c (2 ^ k))^[i] x := by
        rw [← Function.iterate_add_apply, Nat.sub_add_cancel hij.le, ← he]
      have hle := Nat.le_of_dvd (by omega) (two_pow_dvd_of_return ha hc hback)
      omega
    intro i hi j hj he
    simp only [coe_range, Set.mem_Iio] at hi hj
    rcases lt_trichotomy i j with hij | hij | hij
    · exact absurd he (hlt i j hij hj)
    · exact hij
    · exact absurd he.symm (hlt j i hij hi)
  have hsurj := surjOn_of_injOn_of_card_le _ hmaps hinj le_rfl
  obtain ⟨n, -, hn⟩ := hsurj (by simpa using hy : y ∈ ((range (2 ^ k) : Finset Nat) : Set Nat))
  exact ⟨n, hn⟩

/-! ## Loops -/

variable {σ α : Type} {next : σ → α × σ} {reject : α → Bool}

/-- Draw until a value is not rejected, at most `fuel` times. -/
def draw (next : σ → α × σ) (reject : α → Bool) : Nat → σ → Option (α × σ)
  | 0, _ => none
  | fuel + 1, s => if reject (next s).1 then draw next reject fuel (next s).2 else some (next s)

/-- A drawn value is one of the generator's, and not rejected. -/
theorem draw_sound {fuel : Nat} {s : σ} {r : α × σ} (h : draw next reject fuel s = some r) :
    reject r.1 = false ∧ ∃ u, r = next u := by
  induction fuel generalizing s with
  | zero => cases h
  | succ fuel ih =>
    simp only [draw] at h
    split at h
    · exact ih h
    · rename_i hok
      cases h
      exact ⟨by simpa using hok, s, rfl⟩

/-- A loop that has ended does not need more draws. -/
theorem draw_mono {fuel more : Nat} {s : σ} {r : α × σ} (h : draw next reject fuel s = some r)
    (hle : fuel ≤ more) : draw next reject more s = some r := by
  induction fuel generalizing s more with
  | zero => cases h
  | succ fuel ih =>
    obtain ⟨more, rfl⟩ := Nat.exists_eq_add_of_lt (Nat.lt_of_succ_le hle)
    simp only [draw] at h ⊢
    split at h
    · next hrej =>
      rw [if_pos hrej]
      exact ih h (by omega)
    · next hok => rwa [if_neg hok]

/-- A loop ends if its generator comes to a value that it accepts. -/
theorem draw_ends {n : Nat} {s : σ}
    (h : reject (next ((fun s => (next s).2)^[n] s)).1 = false) :
    ∃ r, draw next reject (n + 1) s = some r := by
  induction n generalizing s with
  | zero =>
    refine ⟨next s, ?_⟩
    simp only [Function.iterate_zero_apply] at h
    simp [draw, h]
  | succ n ih =>
    rw [Function.iterate_succ_apply] at h
    obtain ⟨r, hr⟩ := ih h
    by_cases hrej : reject (next s).1 = true
    · exact ⟨r, by rw [draw, if_pos hrej, hr]⟩
    · exact ⟨next s, by rw [draw, if_neg hrej]⟩

/-- A loop that rejects all values does not end. -/
theorem draw_never (h : ∀ s, reject (next s).1 = true) (fuel : Nat) (s : σ) :
    draw next reject fuel s = none := by
  induction fuel generalizing s with
  | zero => rfl
  | succ fuel ih => rw [draw, if_pos (h s), ih]

end RdmaBench.Lib.Sampling
