import RdmaBench.Alloc.Allocate

/-! # Best fit for small items

Classes 0 to 30 have one chunk size each, in increasing order, and the last
class has all larger sizes. The search of `mica_alloc_allocate` goes up the
classes from the one of the wanted size, so for a small item the first chunk
it meets is a smallest one, unless all that are left are in the last class. -/

namespace RdmaBench.Alloc.BestFit
open RdmaBench.Lib.Asserts RdmaBench.Lib.ByteMem RdmaBench.Lib.Runs
open RdmaBench.Alloc.Model RdmaBench.Alloc.Heap RdmaBench.Alloc.FreeLists RdmaBench.Alloc.Ops
open RdmaBench.Alloc.Sessions RdmaBench.Alloc.Allocate

variable {s s' : MicaAlloc} {cs : List Chunk} {fl : Nat → List Nat} {itemSize : UInt32}
variable {c : Session} {off st size n : Nat}

/-- The free chunk of `size` bytes at `st` is one that a request for `n` bytes is
to take: a smallest one, or any of the last class if all are there. -/
structure Fit (cs : List Chunk) (n st size : Nat) : Prop where
  free : ⟨st, size, .free⟩ ∈ cs
  enough : n ≤ size
  least : (∃ ch ∈ cs, ch.status = .free ∧ n ≤ ch.size ∧ ch.size < lastClassSize) →
    ∀ ch ∈ cs, ch.status = .free → n ≤ ch.size → size ≤ ch.size
  large : (¬ ∃ ch ∈ cs, ch.status = .free ∧ n ≤ ch.size ∧ ch.size < lastClassSize) →
    lastClassSize ≤ size

/-- What a request for `n` bytes gets of a chunk: all of it, if the rest would
be too small for a chunk. -/
structure Carved (s' : MicaAlloc) (n st size got : Nat) : Prop where
  chunk : ∃ ds fl, HeapOk s' ds fl ∧ ⟨st, got, .occupied⟩ ∈ ds
  exact : minSize ≤ size - n → got = n
  whole : size - n < minSize → got = size ∧ got ≤ n + 24

/-! ## The order of the classes -/

/-- The loop stops at the first class that is not empty. -/
theorem findClass_first {j k m : Nat} (h : findClass s m = some k) (hm : m ≤ j) (hj : j < k) :
    s.freeHead j = null := by
  have hskip := (List.find?_range_eq_some.mp h).2.2 j hj
  simpa [hm] using hskip

/-- Below the last class, chunks of higher classes are larger. -/
theorem size_le_of_classOf_le {a b : Nat} (ha8 : 8 ∣ a) (hb8 : 8 ∣ b) (hb : minSize ≤ b)
    (hlast : b < lastClassSize) (h : classOf a ≤ classOf b) : a ≤ b := by
  unfold classOf at h
  split at h <;> split at h <;>
    simp only [lastClassSize, minSize, numClasses, classIncrement] at * <;> omega

/-- The taken chunk is the first one of its class. -/
theorem taken_head (h : HeapInv s cs fl) (ht : taken s n = some (st, size)) :
    findClass s (classUp n) = some (classOf size) ∧ st = s.freeHead (classOf size) ∧
      s.freeHead (classOf size) ≠ null := by
  obtain ⟨k, hk, heq⟩ := Option.map_eq_some_iff.mp ht
  cases heq
  obtain ⟨-, -, h0⟩ := findClass_some hk
  obtain ⟨ch, hm, hst, hfree, hclass⟩ := (h.members k _).mp (head_node h h0).1
  obtain ⟨st, size, status⟩ := ch
  cases hst
  cases hfree
  rw [(tagged_free h hm).2.1, hclass]
  exact ⟨hk, rfl, h0⟩

/-- No free chunk of the classes looked at is in a lower class than the one taken. -/
theorem taken_first (h : HeapInv s cs fl) (ht : taken s n = some (st, size)) {ch : Chunk}
    (hm : ch ∈ cs) (hfree : ch.status = .free) (hcl : classUp n ≤ classOf ch.size) :
    classOf size ≤ classOf ch.size := by
  obtain ⟨hk, -, -⟩ := taken_head h ht
  by_contra hlt
  have hnull := findClass_first hk hcl (Nat.lt_of_not_le hlt)
  have hempty := ((h.listed _).first_null_iff (h.null_not_mem _)).mp hnull
  have hlisted : ch.start ∈ fl (classOf ch.size) := (h.members _ _).mpr ⟨ch, hm, rfl, hfree, rfl⟩
  rw [hempty] at hlisted
  cases hlisted

/-! ## The chunk taken and the chunk handed out -/

theorem taken_fit (h : HeapInv s cs fl) (h8 : 8 ∣ n) (hle : n ≤ size)
    (ht : taken s n = some (st, size)) : Fit cs n st size := by
  have hm := taken_mem h ht
  obtain ⟨-, -, hmin, hz8⟩ := h.tiled.mem_bounds hm
  have hfirst : ∀ ch ∈ cs, ch.status = .free → n ≤ ch.size → classOf size ≤ classOf ch.size :=
    fun ch hc hf hn => taken_first h ht hc hf (classUp_le_classOf h8 hn)
  refine ⟨hm, hle, ?_, ?_⟩
  · intro hsome ch hc hf hn
    obtain ⟨-, -, hcmin, hc8⟩ := h.tiled.mem_bounds hc
    by_cases hlast : ch.size < lastClassSize
    · exact size_le_of_classOf_le hz8 hc8 hcmin hlast (hfirst ch hc hf hn)
    · -- the one below the last class is smaller still
      obtain ⟨d, hd, hdf, hdn, hdlast⟩ := hsome
      obtain ⟨-, -, hdmin, hd8⟩ := h.tiled.mem_bounds hd
      have hle' : size ≤ d.size := size_le_of_classOf_le hz8 hd8 hdmin hdlast (hfirst d hd hdf hdn)
      omega
  · intro hnone
    by_contra hlast
    exact hnone ⟨_, hm, rfl, hle, Nat.lt_of_not_le hlast⟩

/-- A small request finds a chunk if there is one. -/
theorem allocate_small (hok : HeapOk s cs fl) (hi : itemSize.toNat > 8)
    (hsmall : minimumChunk itemSize ≤ lastClassSize)
    (hex : ∃ ch ∈ cs, ch.status = .free ∧ minimumChunk itemSize ≤ ch.size) :
    ∃ s' off, micaAllocAllocate s itemSize = .ok (s', off) ∧ off ≠ insufficientSpace := by
  obtain ⟨-, -, h8⟩ := minimumChunk_bounds hi
  rcases allocate_ok hok hi with ⟨-, hnone⟩ | ⟨-, ch, hm, -, hcl, hlt⟩ | ⟨s', ds, st, sz, hr, hall⟩
  · exact absurd hex (none_large_enough hok.inv h8 hnone)
  · obtain ⟨-, -, hmin, hz8⟩ := hok.inv.tiled.mem_bounds hm
    exact absurd hlt (Nat.not_lt_of_le (le_of_classUp_le h8 hz8 hsmall hmin hcl))
  · obtain ⟨fl', hok'⟩ := hall.listed
    have hoff := offset_ne_insufficientSpace hok'.inv ((hall.occupied _ rfl).mpr (.inl rfl))
    rw [hall.sameData] at hoff
    exact ⟨s', _, hr, hoff⟩

theorem allocate_carved (hok : HeapOk s cs fl) (h : micaAllocAllocate s itemSize = .ok (s', off))
    (hoff : off ≠ insufficientSpace) :
    ∃ size, Fit cs (minimumChunk itemSize) (chunkStart s' off) size ∧
      Carved s' (minimumChunk itemSize) (chunkStart s' off) size (chunkSize s' off) := by
  obtain ⟨hi, -⟩ := check_bind h
  obtain ⟨-, -, h8⟩ := minimumChunk_bounds hi
  obtain ⟨ds, fl', size, hok', htaken, hle, hgot, hm⟩ := allocate_chunk hok h hoff
  have hfit := taken_fit hok.inv h8 hle htaken
  obtain ⟨-, -, -, hz8⟩ := hok.inv.tiled.mem_bounds hfit.free
  refine ⟨size, hfit, ⟨ds, fl', hok', hm⟩, fun hrest => ?_, fun hrest => ?_⟩
  · rw [hgot, carvedSize, if_pos hrest]
  · rw [hgot, carvedSize, if_neg (Nat.not_le_of_lt hrest)]
    simp only [minSize] at hrest hz8
    exact ⟨rfl, by omega⟩

/-- In every state of every run, an item that needs a chunk of at most 280 bytes
gets one if some free chunk is large enough. It is cut from a smallest such
chunk, or if that is not below 280 from some chunk of at least 280 bytes, and has
the size needed or all of the chunk, at most 24 bytes more. -/
theorem small_best_fit (h : Reachable sessions c) :
    ∃ cs fl, HeapOk c.alloc cs fl ∧ ∀ itemSize : UInt32, itemSize.toNat > 8 →
      minimumChunk itemSize ≤ 280 →
      (∃ ch ∈ cs, ch.status = .free ∧ minimumChunk itemSize ≤ ch.size) →
      ∃ s' off size, micaAllocAllocate c.alloc itemSize = .ok (s', off) ∧
        off ≠ insufficientSpace ∧ Fit cs (minimumChunk itemSize) (chunkStart s' off) size ∧
        Carved s' (minimumChunk itemSize) (chunkStart s' off) size (chunkSize s' off) := by
  obtain ⟨cs, fl, hinv⟩ := session_inv h
  refine ⟨cs, fl, hinv.heap, fun itemSize hi hsmall hex => ?_⟩
  obtain ⟨s', off, hr, hoff⟩ := allocate_small hinv.heap hi hsmall hex
  obtain ⟨size, hfit, hcarved⟩ := allocate_carved hinv.heap hr hoff
  exact ⟨s', off, size, hr, hoff, hfit, hcarved⟩

/-- Whether the chunk that a request takes is large enough for it. -/
def takesEnough (n : Nat) (c : Session) : Bool :=
  match taken c.alloc n with
  | some (_, size) => n ≤ size
  | none => false

/-- 16 bytes, with a free chunk of 48 bytes and the rest of the heap. -/
theorem small_best_fit_reuse : ∃ (c : Session) (cs : List Chunk) (s' : MicaAlloc) (off size : Nat),
    Reachable sessions c ∧ micaAllocAllocate c.alloc 16 = .ok (s', off) ∧
    off ≠ insufficientSpace ∧ Fit cs 32 (chunkStart s' off) size ∧
    Carved s' 32 (chunkStart s' off) size (chunkSize s' off) := by
  obtain ⟨c, hc, hp⟩ := reachable_replay reuse48 (takesEnough 32) (by decide +kernel)
  obtain ⟨cs, fl, hok, hfit⟩ := small_best_fit hc
  unfold takesEnough at hp
  split at hp
  case h_1 st size htaken =>
    have hm := taken_mem hok.inv htaken
    obtain ⟨s', off, size', hr⟩ := hfit 16 (by decide) (by decide)
      ⟨_, hm, rfl, of_decide_eq_true hp⟩
    exact ⟨c, cs, s', off, size', hc, hr⟩
  case h_2 => cases hp

/-- An item of 8 bytes needs a chunk of 24 bytes only, but `mica_alloc_allocate`
asserts that items are larger, here in a fresh heap. -/
theorem allocate_eight : ∃ (c : Session) (cs : List Chunk) (fl : Nat → List Nat),
    Reachable sessions c ∧ HeapOk c.alloc cs fl ∧
    (∃ ch ∈ cs, ch.status = .free ∧ 280 ≤ ch.size) ∧ minimumChunk 8 ≤ 280 ∧
    micaAllocAllocate c.alloc 8 = .error .allocateItemSize := by
  obtain ⟨c, hc, hp⟩ := reachable_replay [] (takesEnough 280) (by decide +kernel)
  obtain ⟨cs, fl, hinv⟩ := session_inv hc
  unfold takesEnough at hp
  split at hp
  case h_1 st size htaken =>
    have hm := taken_mem hinv.heap.inv htaken
    exact ⟨c, cs, fl, hc, hinv.heap, ⟨_, hm, rfl, of_decide_eq_true hp⟩, by decide, rfl⟩
  case h_2 => cases hp

end RdmaBench.Alloc.BestFit
