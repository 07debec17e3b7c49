import Mathlib.Tactic

/-! # PCIe bytes in the instrumented driver

The functions of `mlx5.h` that estimate how many bytes a transfer takes on the
PCIe bus, headers included. `c2n` is from CPU to NIC, `n2c` the other way. The
NIC answers a DMA read with completions of at most 256 bytes each. -/

namespace RdmaBench.Mlx5.Pcie

def mlx5HrdPcie3ReqHdrSz : Nat := 26
def mlx5HrdPcie3ClpHdrSz : Nat := 22
def mlx5HrdPcieRccs : Nat := 256

/-- Cache lines written through write-combining MMIO. -/
def mlx5HrdWcC2n (numCachelines : Nat) : Nat := numCachelines * (64 + mlx5HrdPcie3ReqHdrSz)

def mlx5HrdDoorbellC2n : Nat := 8 + mlx5HrdPcie3ReqHdrSz

def mlx5HrdDmaReadN2c : Nat := mlx5HrdPcie3ReqHdrSz

/-- The loop of `mlx5_hrd_dma_read_c2n`, from `leftover` and `ret`. -/
def readLoop (leftover ret : Nat) : Nat × Nat :=
  if mlx5HrdPcieRccs ≤ leftover then
    readLoop (leftover - mlx5HrdPcieRccs) (ret + (mlx5HrdPcieRccs + mlx5HrdPcie3ClpHdrSz))
  else (leftover, ret)
termination_by leftover
decreasing_by
  simp only [mlx5HrdPcieRccs] at *
  omega

def mlx5HrdDmaReadC2n (bytes : Nat) : Nat :=
  let (leftover, ret) := readLoop bytes 0
  if leftover ≠ 0 then ret + (leftover + mlx5HrdPcie3ClpHdrSz) else ret

/-- Conversion to `int`, whose arithmetic is taken to wrap around. -/
def toInt (x : Int) : Int := x.bmod (2 ^ 32)

/-- The argument and the result are of type `int`. -/
def mlx5HrdDmaWriteN2c (bytes : Int) : Int := toInt (toInt bytes + mlx5HrdPcie3ReqHdrSz)

/-- The loop takes off whole completions. -/
theorem readLoop_eq (leftover ret : Nat) :
    readLoop leftover ret = (leftover % 256, ret + leftover / 256 * 278) := by
  induction leftover, ret using readLoop.induct with
  | case1 leftover ret hle ih =>
    rw [readLoop, if_pos hle, ih]
    simp only [mlx5HrdPcieRccs, mlx5HrdPcie3ClpHdrSz] at hle ⊢
    refine Prod.ext ?_ ?_ <;> simp only <;> omega
  | case2 leftover ret hgt =>
    rw [readLoop, if_neg hgt]
    simp only [mlx5HrdPcieRccs] at hgt
    refine Prod.ext ?_ ?_ <;> simp only <;> omega

/-- One header for every 256 bytes or part of them. -/
theorem dmaReadC2n_eq (bytes : Nat) :
    mlx5HrdDmaReadC2n bytes = bytes + 22 * ((bytes + 255) / 256) := by
  simp only [mlx5HrdDmaReadC2n, readLoop_eq, mlx5HrdPcie3ClpHdrSz]
  split <;> omega

/-- Both conversions at once. -/
theorem dmaWriteN2c_eq (bytes : Int) : mlx5HrdDmaWriteN2c bytes = toInt (bytes + 26) := by
  simp only [mlx5HrdDmaWriteN2c, toInt, mlx5HrdPcie3ReqHdrSz]
  exact Int.bmod_add_bmod ..

/-- A conversion to `int` never makes a number larger that is not negative. -/
theorem toInt_le {x : Int} (h : 0 ≤ x) : toInt x ≤ x := by
  rw [toInt, Int.bmod_def]
  split <;> omega

example : mlx5HrdDmaWriteN2c 64 = 90 := by decide

end RdmaBench.Mlx5.Pcie
