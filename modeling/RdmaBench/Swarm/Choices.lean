import RdmaBench.Libhrd.Fastrand
import RdmaBench.Swarm.Model

/-! # The random choices of `rc-swarm`

A worker draws a queue pair until its peer is on another process, and an
offset until it lies between the polling region and the end of the buffer.
Both loops end from every seed, and the values they end with are those that
the worker of `Swarm.Model` may choose. -/

namespace RdmaBench.Swarm.Choices
open RdmaBench.Lib.Bits RdmaBench.Lib.Sampling RdmaBench.Libhrd.Fastrand RdmaBench.Swarm.Model

/-- Why a loop has not returned: it is still drawing, or the process was
stopped by a division by zero. -/
inductive Stop where
  | running
  | divisionByZero
deriving DecidableEq, Repr

/-- `hrd_fastrand(seed) % qps_per_thread` until the peer is on another process. -/
def chooseQp (f : Flags) (processId fuel : Nat) (seed : UInt64) : Except Stop (Nat × UInt64) :=
  if f.qpsPerThread = 0 then .error .divisionByZero
  else
    match draw (fastrandWith fun r => r.toNat % f.qpsPerThread)
      (isRemoteQpOnSameProcess f processId) fuel seed with
    | some r => .ok r
    | none => .error .running

/-- The condition of the loop that sets `rem_offset`. -/
def badRemOffset (pollingRegionSize size remOffset : Nat) : Bool :=
  remOffset ≤ pollingRegionSize || sub64 kAppBufSize size ≤ remOffset

/-- The loop of `worker_main_loop` that sets `rem_offset`:
`hrd_fastrand(&seed) % kAppBufSize`, rounded up to a cache line. -/
def chooseRemOffset (pollingRegionSize size fuel : Nat) (seed : UInt64) : Option (Nat × UInt64) :=
  draw (fastrandWith fun r => roundUp64 (r.toNat % kAppBufSize))
    (badRemOffset pollingRegionSize size) fuel seed

variable {f : Flags} {processId qpI pollingRegionSize size remOffset fuel : Nat} {seed : UInt64}

/-! ## Queue pairs -/

theorem chooseQp_ok {r : Nat × UInt64} (hqps : 0 < f.qpsPerThread) :
    chooseQp f processId fuel seed = .ok r ↔
      draw (fastrandWith fun r => r.toNat % f.qpsPerThread) (isRemoteQpOnSameProcess f processId)
        fuel seed = some r := by
  rw [chooseQp, if_neg hqps.ne']
  split
  · next r' h => rw [h, Except.ok.injEq, Option.some.injEq]
  · next h => simp [h]

theorem index_of_lt (hqps : f.qpsPerThread ≤ 2 ^ 32) (hq : qpI < f.qpsPerThread) :
    (UInt32.ofNat qpI).toNat % f.qpsPerThread = qpI := by
  rw [UInt32.toNat_ofNat_of_lt' (show qpI < 2 ^ 32 by omega), Nat.mod_eq_of_lt hq]

/-- If there is a queue pair to another process, `choose_qp` returns one from
every seed. -/
theorem chooseQp_returns (hqps : f.qpsPerThread ≤ 2 ^ 32) (hq : CanChoose f processId qpI)
    (seed : UInt64) :
    ∃ n r, (∀ fuel, n ≤ fuel → chooseQp f processId fuel seed = .ok r) ∧
      CanChoose f processId r.1 := by
  have hpos : 0 < f.qpsPerThread := Nat.zero_lt_of_lt hq.1
  obtain ⟨n, r, hr⟩ := draw_fastrand_ends (fun r => r.toNat % f.qpsPerThread)
    (isRemoteQpOnSameProcess f processId) (v := UInt32.ofNat qpI)
    (by rw [index_of_lt hqps hq.1]; exact hq.2) seed
  obtain ⟨hok, v, hv⟩ := draw_fastrand_sound (hr n (Nat.le_refl n))
  refine ⟨n, r, fun fuel hle => (chooseQp_ok hpos).mpr (hr fuel hle), ?_, hok⟩
  rw [hv]
  exact Nat.mod_lt _ hpos

/-- The queue pairs of `Swarm.Model` are those that `choose_qp` can return. -/
theorem canChoose_iff (hpos : 0 < f.qpsPerThread) (hqps : f.qpsPerThread ≤ 2 ^ 32) :
    CanChoose f processId qpI ↔
      ∃ fuel seed seed', chooseQp f processId fuel seed = .ok (qpI, seed') := by
  constructor
  · intro hq
    have hidx := index_of_lt hqps hq.1
    obtain ⟨seed, seed', h⟩ := draw_fastrand_first (fun r => r.toNat % f.qpsPerThread)
      (isRemoteQpOnSameProcess f processId) (v := UInt32.ofNat qpI) (by rw [hidx]; exact hq.2)
    rw [hidx] at h
    exact ⟨1, seed, seed', (chooseQp_ok hpos).mpr h⟩
  · rintro ⟨fuel, seed, seed', h⟩
    obtain ⟨hok, v, hv⟩ := draw_fastrand_sound ((chooseQp_ok hpos).mp h)
    refine ⟨?_, hok⟩
    rw [show qpI = _ from hv]
    exact Nat.mod_lt _ hpos

/-! ## Offsets -/

theorem kAppBufSize_eq : kAppBufSize = 2 ^ 21 := rfl

theorem badRemOffset_iff (hsize : size ≤ kHrdMaxInline) :
    badRemOffset pollingRegionSize size remOffset = false ↔
      pollingRegionSize < remOffset ∧ remOffset + size < kAppBufSize := by
  have hle : size ≤ 16 := hsize
  rw [badRemOffset, sub64_of_le (by rw [kAppBufSize_eq]; omega) (by decide), kAppBufSize_eq]
  simp only [Bool.or_eq_false_iff, decide_eq_false_iff_not]
  omega

/-- A drawn offset is a multiple of a cache line. -/
theorem roundUp64_draw (v : UInt32) : roundUp64 (v.toNat % kAppBufSize) % 64 = 0 := by
  have hlt : v.toNat % kAppBufSize < kAppBufSize := Nat.mod_lt _ (by decide)
  rw [kAppBufSize_eq] at hlt ⊢
  rw [roundUp64_eq (by omega), Nat.mul_mod_left]

theorem offset_of_lt (hlt : remOffset < kAppBufSize) (hline : remOffset % 64 = 0) :
    roundUp64 ((UInt32.ofNat remOffset).toNat % kAppBufSize) = remOffset := by
  rw [kAppBufSize_eq] at hlt ⊢
  rw [UInt32.toNat_ofNat_of_lt' (show remOffset < 2 ^ 32 by omega), Nat.mod_eq_of_lt hlt,
    roundUp64_eq (by omega)]
  omega

/-- If some cache line is accepted, the loop ends from every seed. -/
theorem chooseRemOffset_returns (hlt : remOffset < kAppBufSize) (hline : remOffset % 64 = 0)
    (hok : badRemOffset pollingRegionSize size remOffset = false) (seed : UInt64) :
    ∃ n r, (∀ fuel, n ≤ fuel → chooseRemOffset pollingRegionSize size fuel seed = some r) ∧
      badRemOffset pollingRegionSize size r.1 = false := by
  obtain ⟨n, r, hr⟩ := draw_fastrand_ends (fun r => roundUp64 (r.toNat % kAppBufSize))
    (badRemOffset pollingRegionSize size) (v := UInt32.ofNat remOffset)
    (by rw [offset_of_lt hlt hline]; exact hok) seed
  exact ⟨n, r, hr, (draw_fastrand_sound (hr n (Nat.le_refl n))).1⟩

/-- The offsets of `Swarm.Model` are those that the loop can end with. -/
theorem goodOffset_iff (hf : f.Accepted) : GoodOffset f remOffset ↔
    ∃ fuel seed seed', chooseRemOffset f.pollingRegionSize f.size fuel seed =
      some (remOffset, seed') := by
  have hgood : GoodOffset f remOffset ↔ remOffset % 64 = 0 ∧
      badRemOffset f.pollingRegionSize f.size remOffset = false := by
    rw [badRemOffset_iff hf.1, GoodOffset, Nat.lt_sub_iff_add_lt]
  rw [hgood]
  constructor
  · rintro ⟨hline, hok⟩
    have hlt : remOffset < kAppBufSize := by
      have := ((badRemOffset_iff hf.1).mp hok).2
      omega
    have hoff := offset_of_lt hlt hline
    obtain ⟨seed, seed', h⟩ := draw_fastrand_first (fun r => roundUp64 (r.toNat % kAppBufSize))
      (badRemOffset f.pollingRegionSize f.size) (v := UInt32.ofNat remOffset)
      (by rw [hoff]; exact hok)
    rw [hoff] at h
    exact ⟨1, seed, seed', h⟩
  · rintro ⟨fuel, seed, seed', h⟩
    obtain ⟨hok, v, hv⟩ := draw_fastrand_sound h
    refine ⟨?_, hok⟩
    rw [show remOffset = _ from hv]
    exact roundUp64_draw v

/-! ## Both loops end -/

/-- From every seed, `choose_qp` returns the index of a queue pair to another
process, and the loop for the offset ends between the polling region and the
end of the buffer. -/
theorem choices_end :
    (∀ (f : Flags) (processId : Nat), 2 ≤ f.numProcesses → 1 ≤ f.vmsPerProcess →
      f.numProcesses * f.vmsPerProcess ≤ 2 ^ 32 → processId < f.numProcesses → ∀ seed,
      ∃ n r, (∀ fuel, n ≤ fuel → chooseQp f processId fuel seed = .ok r) ∧
        r.1 < f.numProcesses * f.vmsPerProcess ∧ r.1 % f.numProcesses ≠ processId) ∧
    ∀ pollingRegionSize size : Nat, size ≤ kHrdMaxInline → pollingRegionSize < kAppBufSize / 10 →
      ∀ seed, ∃ n r,
        (∀ fuel, n ≤ fuel → chooseRemOffset pollingRegionSize size fuel seed = some r) ∧
        pollingRegionSize < r.1 ∧ r.1 + size < kAppBufSize := by
  refine ⟨fun f processId hN hV hqps _ seed => ?_,
    fun pollingRegionSize size hsize hregion seed => ?_⟩
  · obtain ⟨qpI, hq⟩ := exists_canChoose hN hV processId
    obtain ⟨n, r, hr, hlt, hother⟩ := chooseQp_returns hqps hq seed
    exact ⟨n, r, hr, hlt, by simpa [isRemoteQpOnSameProcess] using hother⟩
  · -- the line in the middle of the buffer is accepted
    have hmid : badRemOffset pollingRegionSize size (2 ^ 20) = false := by
      have hle : size ≤ 16 := hsize
      rw [kAppBufSize_eq] at hregion
      rw [badRemOffset_iff hsize, kAppBufSize_eq]
      omega
    obtain ⟨n, r, hr, hok⟩ := chooseRemOffset_returns (by decide) (by decide) hmid seed
    exact ⟨n, r, hr, (badRemOffset_iff hsize).mp hok⟩

/-- Two processes of one VM each; the worker of process 0 chooses. -/
theorem choices_end_two : ∃ n r, (∀ fuel, n ≤ fuel →
      chooseQp ⟨2, 1, 1, true, 16, 1, true, 2, 1⟩ 0 fuel 0xdeadbeef = .ok r) ∧
    r.1 < 2 * 1 ∧ r.1 % 2 ≠ 0 :=
  choices_end.1 ⟨2, 1, 1, true, 16, 1, true, 2, 1⟩ 0 (by decide) (by decide) (by decide)
    (by decide) 0xdeadbeef

/-- Without VMs there is no queue pair, and the first draw divides by zero. -/
theorem chooseQp_no_vms : ∃ (f : Flags) (processId : Nat), 2 ≤ f.numProcesses ∧
    f.numProcesses * f.vmsPerProcess ≤ 2 ^ 32 ∧ processId < f.numProcesses ∧
    ∀ fuel seed, chooseQp f processId fuel seed = .error .divisionByZero :=
  ⟨⟨2, 1, 0, true, 16, 1, true, 2, 1⟩, 0, by decide, by decide, by decide, fun _ _ => rfl⟩

end RdmaBench.Swarm.Choices
