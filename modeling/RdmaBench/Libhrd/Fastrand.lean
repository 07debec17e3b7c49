import RdmaBench.Lib.Bits
import RdmaBench.Lib.Sampling

/-! # Random offsets

`hrd_fastrand` of `libhrd_cpp/hrd.h` and the offsets that benchmarks draw with
it. Its seed runs through all 64-bit values, so its result, the upper half of
the seed, comes to every 32-bit value from every seed. -/

namespace RdmaBench.Libhrd.Fastrand
open RdmaBench.Lib.Bits RdmaBench.Lib.Sampling

/-- The result and the new seed. -/
def hrdFastrand (seed : UInt64) : UInt32 × UInt64 :=
  let seed := seed * 1103515245 + 12345
  ((seed >>> 32).toUInt32, seed)

/-- `round_up<64, size_t>`. -/
def roundUp64 (x : Nat) : Nat := ((x + 63) % 2 ^ 64) &&& not64 63

theorem roundUp64_eq {x : Nat} (hx : x + 63 < 2 ^ 64) : roundUp64 x = (x + 63) / 64 * 64 := by
  rw [roundUp64, Nat.mod_eq_of_lt hx]
  exact and_not64_mask (show 6 ≤ 64 by decide) hx

theorem hrdFastrand_seed (seed : UInt64) :
    (hrdFastrand seed).2.toNat = lcg 1103515245 12345 (2 ^ 64) seed.toNat := by
  simp [hrdFastrand, lcg, Nat.mul_comm]

theorem hrdFastrand_value (seed : UInt64) :
    (hrdFastrand seed).1.toNat = (hrdFastrand seed).2.toNat / 2 ^ 32 := by
  have hlt := (hrdFastrand seed).2.toNat_lt
  have hshift : (hrdFastrand seed).1.toNat = (hrdFastrand seed).2.toNat >>> 32 % 2 ^ 32 := by
    simp [hrdFastrand]
  rw [hshift, Nat.shiftRight_eq_div_pow]
  exact Nat.mod_eq_of_lt (by omega)

theorem iterate_seed (n : Nat) (seed : UInt64) :
    ((fun s => (hrdFastrand s).2)^[n] seed).toNat =
      (lcg 1103515245 12345 (2 ^ 64))^[n] seed.toNat := by
  have hsemi : Function.Semiconj UInt64.toNat (fun s => (hrdFastrand s).2)
      (lcg 1103515245 12345 (2 ^ 64)) := hrdFastrand_seed
  exact hsemi.iterate_right n seed

/-- Every 32-bit value is drawn after some number of other draws. -/
theorem hrdFastrand_reaches (seed : UInt64) (v : UInt32) :
    ∃ n, (hrdFastrand ((fun s => (hrdFastrand s).2)^[n] seed)).1 = v := by
  have hv := v.toNat_lt
  obtain ⟨n, hn⟩ := exists_iterate_lcg (a := 1103515245) (c := 12345) (k := 64)
    (x := lcg 1103515245 12345 (2 ^ 64) seed.toNat) (y := v.toNat * 2 ^ 32) (by decide) (by decide)
    (Nat.mod_lt _ (by decide)) (by omega)
  refine ⟨n, UInt32.toNat_inj.mp ?_⟩
  rw [hrdFastrand_value, hrdFastrand_seed, iterate_seed,
    ← Function.iterate_succ_apply' (lcg 1103515245 12345 (2 ^ 64)) n seed.toNat,
    Function.iterate_succ_apply, hn, Nat.mul_div_cancel _ (by decide)]

/-! ## Loops over `hrd_fastrand` -/

variable {α : Type} (g : UInt32 → α) (reject : α → Bool)

/-- A value computed from a random number. -/
def fastrandWith (seed : UInt64) : α × UInt64 :=
  (g (hrdFastrand seed).1, (hrdFastrand seed).2)

/-- A loop that accepts what some number gives ends from every seed. -/
theorem draw_fastrand_ends {v : UInt32} (hv : reject (g v) = false) (seed : UInt64) :
    ∃ n r, ∀ fuel, n ≤ fuel → draw (fastrandWith g) reject fuel seed = some r := by
  obtain ⟨n, hn⟩ := hrdFastrand_reaches seed v
  have hok : reject (fastrandWith g ((fun s => (fastrandWith g s).2)^[n] seed)).1 = false := by
    show reject (g (hrdFastrand ((fun s => (hrdFastrand s).2)^[n] seed)).1) = false
    rw [hn, hv]
  obtain ⟨r, hr⟩ := draw_ends hok
  exact ⟨n + 1, r, fun fuel hle => draw_mono hr hle⟩

variable {g reject} in
/-- It ends with what an accepted number gives. -/
theorem draw_fastrand_sound {fuel : Nat} {seed : UInt64} {r : α × UInt64}
    (h : draw (fastrandWith g) reject fuel seed = some r) :
    reject r.1 = false ∧ ∃ v, r.1 = g v := by
  obtain ⟨hok, u, rfl⟩ := draw_sound h
  exact ⟨hok, (hrdFastrand u).1, rfl⟩

/-- From some seed it ends at once with what a given number gives. -/
theorem draw_fastrand_first {v : UInt32} (hv : reject (g v) = false) :
    ∃ seed seed', draw (fastrandWith g) reject 1 seed = some (g v, seed') := by
  obtain ⟨n, hn⟩ := hrdFastrand_reaches 0 v
  generalize (fun s => (hrdFastrand s).2)^[n] 0 = seed at hn
  exact ⟨seed, (hrdFastrand seed).2, by simp [draw, fastrandWith, hn, hv]⟩

end RdmaBench.Libhrd.Fastrand
