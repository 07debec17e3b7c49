import RdmaBench.Lib.Runs
import RdmaBench.Libhrd.Fastrand

/-! # The offsets of `rw-tput-sender`

For every READ or WRITE the server draws a cache line of its buffer until it
is below `kAppBufSize - size`, and uses it for the local and the remote end.
`main` limits the size of WRITEs, which are inlined, but not that of READs, and
the subtraction is one of unsigned words. -/

namespace RdmaBench.RwTput.Offsets
open RdmaBench.Lib.Bits RdmaBench.Lib.Runs RdmaBench.Lib.Sampling RdmaBench.Libhrd.Fastrand

def kAppBufSize : Nat := 8192
def kAppMaxPostlist : Nat := 64
def kAppUnsigBatch : Nat := 64
def kHrdMaxInline : Nat := 16
def kHrdSQDepth : Nat := 128

/-- The flags of a server that its requests depend on. -/
structure Flags where
  doRead : Nat
  size : Nat
  postlist : Nat

/-- The checks of `main` for a server. -/
structure Flags.Accepted (f : Flags) : Prop where
  unsig : f.postlist ≤ kAppUnsigBatch
  queue : 2 * f.postlist ≤ kHrdSQDepth
  positive : 0 < f.size
  inline : f.doRead = 0 → f.size ≤ kHrdMaxInline
  postlist : 1 ≤ f.postlist ∧ f.postlist ≤ kAppMaxPostlist
  -- `size` is a `uint64` flag
  word : f.size < 2 ^ 64

/-- The condition of the loop that sets `offset`. -/
def badOffset (size offset : Nat) : Bool := sub64 kAppBufSize size ≤ offset

/-- `hrd_fastrand(&seed) % kAppBufSize`, rounded up to a cache line, until it is
not too large. -/
def chooseOffset (size fuel : Nat) (seed : UInt64) : Option (Nat × UInt64) :=
  draw (fastrandWith fun r => roundUp64 (r.toNat % kAppBufSize)) (badOffset size) fuel seed

inductive Opcode where
  | rdmaWrite | rdmaRead
deriving DecidableEq, Repr

/-- A work request, with its addresses relative to the two buffers. The length
of an `ibv_sge` has 32 bits. -/
structure SendWr where
  opcode : Opcode
  localOffset : Nat
  length : Nat
  remoteOffset : Nat

def request (f : Flags) (offset : Nat) : SendWr where
  opcode := if f.doRead = 0 then .rdmaWrite else .rdmaRead
  localOffset := offset
  length := f.size % 2 ^ 32
  remoteOffset := offset

/-- The loop that fills the `n` requests of a list. -/
def fillList (f : Flags) (fuel : Nat) : Nat → UInt64 → Option (List SendWr × UInt64)
  | 0, seed => some ([], seed)
  | n + 1, seed => do
    let (offset, seed) ← chooseOffset f.size fuel seed
    let (wrs, seed) ← fillList f fuel n seed
    some (request f offset :: wrs, seed)

/-- The seed of a server, and the requests it has posted. -/
structure Server where
  seed : UInt64
  posted : List SendWr

/-- The main loop of `run_server`, one list a step. -/
def server (f : Flags) (seed : UInt64) : System Server Unit where
  init s := s = ⟨seed, []⟩
  step s _ t := ∃ fuel wrs seed', fillList f fuel f.postlist s.seed = some (wrs, seed') ∧
    t = ⟨seed', s.posted ++ wrs⟩

/-- Both ends of a request are inside the buffers. -/
def Fits (f : Flags) (wr : SendWr) : Prop :=
  wr.localOffset + f.size ≤ kAppBufSize ∧ wr.remoteOffset + f.size ≤ kAppBufSize

/-- All posted requests fit, and the loops for the next list end. -/
def Inside (f : Flags) (s : Server) : Prop :=
  (∃ fuel r, fillList f fuel f.postlist s.seed = some r) ∧ ∀ wr ∈ s.posted, Fits f wr

variable {f : Flags} {s t : Server} {size : Nat}

theorem roundUp64_le (v : UInt32) : roundUp64 (v.toNat % kAppBufSize) ≤ kAppBufSize := by
  have hlt : v.toNat % kAppBufSize < kAppBufSize := Nat.mod_lt _ (by decide)
  have hbuf : kAppBufSize = 8192 := rfl
  rw [hbuf] at hlt ⊢
  rw [roundUp64_eq (by omega)]
  omega

/-- Smaller sizes leave room for at least the first line. -/
theorem chooseOffset_ends (hsize : size < kAppBufSize) (seed : UInt64) :
    ∃ n r, ∀ fuel, n ≤ fuel → chooseOffset size fuel seed = some r := by
  have hbad : badOffset size 0 = false := by
    rw [badOffset, sub64_of_le hsize.le (by decide)]
    simp only [decide_eq_false_iff_not]
    omega
  exact draw_fastrand_ends (fun r => roundUp64 (r.toNat % kAppBufSize)) (badOffset size) (v := 0)
    hbad seed

theorem chooseOffset_room (hsize : size < kAppBufSize) {fuel : Nat} {seed : UInt64}
    {r : Nat × UInt64} (h : chooseOffset size fuel seed = some r) : r.1 + size ≤ kAppBufSize := by
  have hok := (draw_fastrand_sound h).1
  rw [badOffset, sub64_of_le hsize.le (by decide)] at hok
  simp only [decide_eq_false_iff_not] at hok
  omega

/-- A size of the whole buffer leaves no offset. -/
theorem chooseOffset_never (fuel : Nat) (seed : UInt64) :
    chooseOffset kAppBufSize fuel seed = none := by
  have hbad : ∀ offset, badOffset kAppBufSize offset = true := by
    intro offset
    rw [badOffset, sub64_of_le (Nat.le_refl _) (by decide), Nat.sub_self]
    exact decide_eq_true (Nat.zero_le offset)
  exact draw_never (fun seed => hbad _) fuel seed

/-- A larger size makes the bound wrap around, and every offset is taken. -/
theorem chooseOffset_first (hsize : kAppBufSize < size) (hlt : size < 2 ^ 64) (seed : UInt64) :
    ∃ r, chooseOffset size 1 seed = some r := by
  have hle := roundUp64_le (hrdFastrand seed).1
  have hbad : badOffset size (roundUp64 ((hrdFastrand seed).1.toNat % kAppBufSize)) = false := by
    rw [badOffset, sub64_of_lt hsize hlt]
    simp only [decide_eq_false_iff_not]
    omega
  exact ⟨_, by rw [chooseOffset, draw, if_neg (by rw [fastrandWith, hbad]; decide)]⟩

theorem fillList_ends (hsize : f.size < kAppBufSize) (n : Nat) (seed : UInt64) :
    ∃ m r, ∀ fuel, m ≤ fuel → fillList f fuel n seed = some r := by
  induction n generalizing seed with
  | zero => exact ⟨0, _, fun _ _ => rfl⟩
  | succ n ih =>
    obtain ⟨a, ⟨offset, seed'⟩, ha⟩ := chooseOffset_ends hsize seed
    obtain ⟨b, ⟨wrs, seed''⟩, hb⟩ := ih seed'
    refine ⟨max a b, (request f offset :: wrs, seed''), fun fuel hle => ?_⟩
    simp [fillList, ha fuel (by omega), hb fuel (by omega)]

theorem fillList_fits (hsize : f.size < kAppBufSize) {fuel n : Nat} {seed : UInt64}
    {r : List SendWr × UInt64} (h : fillList f fuel n seed = some r) : ∀ wr ∈ r.1, Fits f wr := by
  induction n generalizing seed r with
  | zero =>
    cases h
    intro wr hwr
    cases hwr
  | succ n ih =>
    simp only [fillList, Option.bind_eq_bind, Option.bind_eq_some_iff, Option.some.injEq] at h
    obtain ⟨⟨offset, seed'⟩, ho, ⟨wrs, seed''⟩, hw, rfl⟩ := h
    have hroom : offset + f.size ≤ kAppBufSize := chooseOffset_room hsize ho
    intro wr hwr
    rcases List.mem_cons.mp hwr with rfl | hwr
    · exact ⟨hroom, hroom⟩
    · exact ih hw wr hwr

theorem fillList_first (hsize : kAppBufSize < f.size) (hlt : f.size < 2 ^ 64) (n : Nat)
    (seed : UInt64) : ∃ r, fillList f 1 n seed = some r := by
  induction n generalizing seed with
  | zero => exact ⟨_, rfl⟩
  | succ n ih =>
    obtain ⟨⟨offset, seed'⟩, ho⟩ := chooseOffset_first hsize hlt seed
    obtain ⟨⟨wrs, seed''⟩, hw⟩ := ih seed'
    exact ⟨(request f offset :: wrs, seed''), by simp [fillList, ho, hw]⟩

theorem fillList_length {fuel n : Nat} {seed : UInt64} {r : List SendWr × UInt64}
    (h : fillList f fuel n seed = some r) : r.1.length = n := by
  induction n generalizing seed r with
  | zero =>
    cases h
    rfl
  | succ n ih =>
    simp only [fillList, Option.bind_eq_bind, Option.bind_eq_some_iff, Option.some.injEq] at h
    obtain ⟨⟨offset, seed'⟩, ho, ⟨wrs, seed''⟩, hw, rfl⟩ := h
    exact congrArg (· + 1) (ih hw)

theorem inside_of_size {seed : UInt64} (hsize : f.size < kAppBufSize)
    (h : Reachable (server f seed) s) : Inside f s := by
  obtain ⟨fuel, r, hr⟩ := fillList_ends hsize f.postlist s.seed
  refine ⟨⟨fuel, r, hr fuel (Nat.le_refl fuel)⟩, ?_⟩
  refine h.invariant (P := fun s => ∀ wr ∈ s.posted, Fits f wr) (fun s hs => ?_)
    (fun s e t _ ih hstep => ?_)
  · rw [show s = _ from hs]
    intro wr hwr
    cases hwr
  · obtain ⟨fuel, wrs, seed', hr, rfl⟩ := hstep
    intro wr hwr
    rcases List.mem_append.mp hwr with hwr | hwr
    · exact ih wr hwr
    · exact fillList_fits hsize hr wr hwr

/-- The first list of larger requests is posted, and none of them fits. -/
theorem first_outside (hf : f.Accepted) (hsize : kAppBufSize < f.size) (seed : UInt64) :
    ∃ s, Reachable (server f seed) s ∧ ∃ wr ∈ s.posted, ¬ Fits f wr := by
  obtain ⟨⟨wrs, seed'⟩, hr⟩ := fillList_first hsize hf.word f.postlist seed
  have hlen : wrs.length = f.postlist := fillList_length hr
  have hpos : 0 < wrs.length := by
    have := hf.postlist.1
    omega
  refine ⟨⟨seed', wrs⟩, .step (e := ()) (.init rfl) ⟨1, wrs, seed', hr, rfl⟩, wrs[0],
    List.getElem_mem hpos, ?_⟩
  intro hfit
  exact absurd (Nat.le_trans (Nat.le_add_left _ _) hfit.1) (Nat.not_le_of_lt hsize)

/-- The list is never filled for requests of the size of the buffer. -/
theorem fillList_never (hf : f.Accepted) (hsize : f.size = kAppBufSize) (fuel : Nat)
    (seed : UInt64) : fillList f fuel f.postlist seed = none := by
  obtain ⟨n, hn⟩ := Nat.exists_eq_add_of_le' hf.postlist.1
  rw [hn, fillList, hsize, chooseOffset_never]
  rfl

/-- For all flags that `main` accepts and every seed, the server fills all its
lists and stays inside the buffers if and only if the size is below that of
the buffers. -/
theorem offsets_inside_iff (hf : f.Accepted) (seed : UInt64) :
    (∀ s, Reachable (server f seed) s → Inside f s) ↔ f.size < kAppBufSize := by
  constructor
  · intro hall
    rcases Nat.lt_trichotomy f.size kAppBufSize with hlt | heq | hgt
    · exact hlt
    · obtain ⟨fuel, r, hr⟩ := (hall _ (.init rfl)).1
      rw [fillList_never hf heq] at hr
      cases hr
    · obtain ⟨s, hs, wr, hwr, hout⟩ := first_outside hf hgt seed
      exact absurd ((hall s hs).2 wr hwr) hout
  · intro hsize s hs
    exact inside_of_size hsize hs

/-- WRITEs are inlined, and so always small enough. -/
theorem writes_inside {seed : UInt64} (hf : f.Accepted) (hwrite : f.doRead = 0)
    (h : Reachable (server f seed) s) : Inside f s :=
  inside_of_size (Nat.lt_of_le_of_lt (hf.inline hwrite) (by decide)) h

/-- After the first list of WRITEs. -/
theorem offsets_inside_write : ∃ s, Reachable (server ⟨0, 16, 32⟩ 0xdeadbeef) s ∧
    s.posted.length = 32 ∧ Inside ⟨0, 16, 32⟩ s := by
  have hsize : Flags.size ⟨0, 16, 32⟩ < kAppBufSize := by decide
  have haccepted : Flags.Accepted ⟨0, 16, 32⟩ :=
    { unsig := by decide, queue := by decide, positive := by decide, inline := by decide
      postlist := by decide, word := by decide }
  obtain ⟨fuel, ⟨wrs, seed⟩, hfill⟩ := fillList_ends hsize 32 0xdeadbeef
  have hlist := hfill fuel (Nat.le_refl fuel)
  have hstep : Reachable (server ⟨0, 16, 32⟩ 0xdeadbeef) ⟨seed, wrs⟩ :=
    .step (e := ()) (.init rfl) ⟨fuel, wrs, seed, hlist, rfl⟩
  exact ⟨_, hstep, fillList_length hlist, (offsets_inside_iff haccepted _).mpr hsize _ hstep⟩

theorem accepted_read {size : Nat} (hpos : 0 < size) (hlt : size < 2 ^ 64) :
    Flags.Accepted ⟨1, size, 1⟩ where
  unsig := (by decide : 1 ≤ kAppUnsigBatch)
  queue := (by decide : 2 * 1 ≤ kHrdSQDepth)
  positive := hpos
  inline h := by cases h
  postlist := ⟨Nat.le_refl 1, (by decide : 1 ≤ kAppMaxPostlist)⟩
  word := hlt

/-- The list for READs of the whole buffer is never filled, and READs of one
byte more are posted at once and leave the buffers. -/
theorem large_reads :
    (Flags.Accepted ⟨1, 8192, 1⟩ ∧ ∀ fuel seed, fillList ⟨1, 8192, 1⟩ fuel 1 seed = none) ∧
    Flags.Accepted ⟨1, 8193, 1⟩ ∧ ∀ seed, ∃ s, Reachable (server ⟨1, 8193, 1⟩ seed) s ∧
      ∃ wr ∈ s.posted, ¬ Fits ⟨1, 8193, 1⟩ wr := by
  have hwhole : Flags.Accepted ⟨1, 8192, 1⟩ := accepted_read (by decide) (by decide)
  have hmore : Flags.Accepted ⟨1, 8193, 1⟩ := accepted_read (by decide) (by decide)
  exact ⟨⟨hwhole, fillList_never hwhole rfl⟩, hmore, first_outside hmore (by decide)⟩

end RdmaBench.RwTput.Offsets
