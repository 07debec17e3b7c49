import RdmaBench.Alloc.FreeLists

/-! # The allocator's operations on the heap

One specification for each function of `alloc.c` above the free lists. A hole
is the chunk an operation is working on: deallocation opens one, coalescing
makes it larger, insertion closes it; allocation opens one at the head of a
free list, splits it and occupies its first part. -/

namespace RdmaBench.Alloc.Ops
open RdmaBench.Lib.Asserts RdmaBench.Lib.ByteMem RdmaBench.Lib.Links RdmaBench.Lib.Bits
open RdmaBench.Alloc.Model RdmaBench.Alloc.Heap RdmaBench.Alloc.FreeLists

variable {s : MicaAlloc} {cs xs ys : List Chunk} {fl : Nat → List Nat} {st sz : Nat}

/-! ## Coalescing -/

theorem tag_lt (h : HeapInv s cs fl) {c : Chunk} (hc : c ∈ cs) : c.size < 2 ^ 63 := by
  have := (h.chunk_bounds hc).2.2.2
  simp only [maxSize] at this
  omega

theorem tagged_occupied (h : HeapInv s cs fl) (hc : ⟨st, sz, .occupied⟩ ∈ cs) :
    tagStatus (load64 s.mem st) = occupied ∧ tagSize (load64 s.mem st) = sz ∧
      tagStatus (load64 s.mem (st + sz - 8)) = occupied := by
  have hlt := tag_lt h hc
  obtain ⟨h1, h2⟩ := h.tagged _ hc
  simp only at h1 h2
  rw [h1, h2, tagStatus_tagVec hlt, tagSize_tagVec hlt]
  exact ⟨rfl, rfl, rfl⟩

theorem tagged_free (h : HeapInv s cs fl) (hc : ⟨st, sz, .free⟩ ∈ cs) :
    tagStatus (load64 s.mem st) = free ∧ tagSize (load64 s.mem st) = sz ∧
      load64 s.mem (st + sz - 8) = load64 s.mem st := by
  have hlt := tag_lt h hc
  obtain ⟨h1, h2⟩ := h.tagged _ hc
  simp only at h1 h2
  rw [h1, h2, tagStatus_tagVec hlt, tagSize_tagVec hlt]
  exact ⟨rfl, rfl, rfl⟩

/-- The chunk to the left of another ends where it starts. -/
theorem left_end {l c : Chunk} (h : HeapInv s ((xs ++ [l]) ++ c :: ys) fl) :
    c.start = l.start + l.size ∧ s.data ≤ l.start ∧ minSize ≤ l.size := by
  obtain ⟨m, hx, hc, _⟩ := tiled_append.mp h.tiled
  obtain ⟨m', hx', hl, hmin, _, hm⟩ := tiled_append.mp hx
  have hle := hx'.le
  simp only [Tiled] at hm
  exact ⟨by omega, by omega, hmin⟩

theorem coalesceLeft_first (h : HeapInv s (⟨st, sz, .hole⟩ :: ys) fl) :
    micaAllocCoaleseFreeChunkLeft s st sz = .ok (s, st, sz) := by
  have hd : st = s.data := h.tiled.1
  simp [micaAllocCoaleseFreeChunkLeft, hd, pure, Except.pure]

theorem coalesceLeft_occupied {lst lsz : Nat}
    (h : HeapInv s ((xs ++ [⟨lst, lsz, .occupied⟩]) ++ ⟨st, sz, .hole⟩ :: ys) fl) :
    micaAllocCoaleseFreeChunkLeft s st sz = .ok (s, st, sz) := by
  obtain ⟨he, hl, hmin⟩ := left_end h
  simp only [minSize] at he hl hmin
  have hm : (⟨lst, lsz, .occupied⟩ : Chunk) ∈
      (xs ++ [⟨lst, lsz, .occupied⟩]) ++ ⟨st, sz, .hole⟩ :: ys := by simp
  have ht := (tagged_occupied h hm).2.2
  have hne : st ≠ s.data := by omega
  have hgt : st > s.data := by omega
  rw [← he] at ht
  simp [micaAllocCoaleseFreeChunkLeft, hne, hgt, check, ht, bind, Except.bind, pure, Except.pure]

/-- A free left neighbour is taken off its list. -/
theorem coalesceLeft_free_eq {lst lsz : Nat}
    (h : HeapInv s ((xs ++ [⟨lst, lsz, .free⟩]) ++ ⟨st, sz, .hole⟩ :: ys) fl) :
    micaAllocCoaleseFreeChunkLeft s st sz = do
      let s' ← micaAllocRemoveFreeChunkFromFreeList s lst lsz
      return (s', lst, sz + lsz) := by
  obtain ⟨he, hl, hmin⟩ := left_end h
  simp only [minSize] at he hl hmin
  have hm : (⟨lst, lsz, .free⟩ : Chunk) ∈
      (xs ++ [⟨lst, lsz, .free⟩]) ++ ⟨st, sz, .hole⟩ :: ys := by simp
  obtain ⟨ht1, ht2, ht3⟩ := tagged_free h hm
  have hne : st ≠ s.data := by omega
  have hgt : st > s.data := by omega
  have hadj : st - lsz = lst := by omega
  have hc : load64 s.mem lst = load64 s.mem (lst + lsz - 8) := ht3.symm
  rw [← he] at ht3
  simp [micaAllocCoaleseFreeChunkLeft, hne, hgt, check, ht3, ht1, ht2, hadj, free, occupied, ← hc,
    bind, Except.bind, pure, Except.pure]

theorem coalesceLeft_free {lst lsz : Nat}
    (h : HeapInv s ((xs ++ [⟨lst, lsz, .free⟩]) ++ ⟨st, sz, .hole⟩ :: ys) fl) :
    ∃ s', micaAllocCoaleseFreeChunkLeft s st sz = .ok (s', lst, sz + lsz) ∧
      HeapInv s' (xs ++ ⟨lst, lsz + sz, .hole⟩ :: ys)
        (Function.update fl (classOf lsz) ((fl (classOf lsz)).erase lst)) ∧
      Frame ((xs ++ [⟨lst, lsz, .free⟩]) ++ ⟨st, sz, .hole⟩ :: ys) s.mem s'.mem ∧
      s'.data = s.data ∧ s'.size = s.size := by
  have heq := coalesceLeft_free_eq h
  simp only [List.append_assoc, List.singleton_append] at h ⊢
  obtain ⟨s', hr, hi, hf, hd, hz⟩ := remove_ok h
  rw [hr] at heq
  exact ⟨s', heq, hi.merge, hf, hd, hz⟩

/-- The chunk to the right of another starts where it ends. -/
theorem right_start {c r : Chunk} (h : HeapInv s (xs ++ c :: r :: ys) fl) :
    r.start = c.start + c.size ∧ r.start + r.size ≤ s.data + s.size ∧ minSize ≤ r.size := by
  obtain ⟨m, _, hc, _, _, hr, hmin, _, ht⟩ := tiled_append.mp h.tiled
  have hle := ht.le
  exact ⟨by omega, by omega, hmin⟩

theorem coalesceRight_last (h : HeapInv s (xs ++ [⟨st, sz, .hole⟩]) fl) :
    micaAllocCoaleseFreeChunkRight s st sz = .ok (s, st, sz) := by
  obtain ⟨m, _, hc, _, _, he⟩ := tiled_append.mp h.tiled
  simp only [Tiled] at hc he
  have hd : st + sz = s.data + s.size := by omega
  simp [micaAllocCoaleseFreeChunkRight, hd, pure, Except.pure]

theorem coalesceRight_occupied {rst rsz : Nat}
    (h : HeapInv s (xs ++ ⟨st, sz, .hole⟩ :: ⟨rst, rsz, .occupied⟩ :: ys) fl) :
    micaAllocCoaleseFreeChunkRight s st sz = .ok (s, st, sz) := by
  obtain ⟨he, hl, hmin⟩ := right_start h
  simp only [minSize] at he hl hmin
  have hm : (⟨rst, rsz, .occupied⟩ : Chunk) ∈
      xs ++ ⟨st, sz, .hole⟩ :: ⟨rst, rsz, .occupied⟩ :: ys := by simp
  have ht := (tagged_occupied h hm).1
  have hne : st + sz ≠ s.data + s.size := by omega
  have hlt : st + sz < s.data + s.size := by omega
  rw [he] at ht
  simp [micaAllocCoaleseFreeChunkRight, hne, hlt, check, ht, bind, Except.bind, pure, Except.pure]

/-- A free right neighbour is taken off its list. -/
theorem coalesceRight_free_eq {rst rsz : Nat}
    (h : HeapInv s (xs ++ ⟨st, sz, .hole⟩ :: ⟨rst, rsz, .free⟩ :: ys) fl) :
    micaAllocCoaleseFreeChunkRight s st sz = do
      let s' ← micaAllocRemoveFreeChunkFromFreeList s rst rsz
      return (s', st, sz + rsz) := by
  obtain ⟨he, hl, hmin⟩ := right_start h
  simp only [minSize] at he hl hmin
  have hm : (⟨rst, rsz, .free⟩ : Chunk) ∈
      xs ++ ⟨st, sz, .hole⟩ :: ⟨rst, rsz, .free⟩ :: ys := by simp
  obtain ⟨ht1, ht2, ht3⟩ := tagged_free h hm
  have hne : st + sz ≠ s.data + s.size := by omega
  have hlt : st + sz < s.data + s.size := by omega
  rw [he] at ht1 ht2 ht3 ⊢
  simp [micaAllocCoaleseFreeChunkRight, hne, hlt, check, ht1, ht2, ht3, free, occupied, bind,
    Except.bind, pure, Except.pure]

theorem coalesceRight_free {rst rsz : Nat}
    (h : HeapInv s (xs ++ ⟨st, sz, .hole⟩ :: ⟨rst, rsz, .free⟩ :: ys) fl) :
    ∃ s', micaAllocCoaleseFreeChunkRight s st sz = .ok (s', st, sz + rsz) ∧
      HeapInv s' (xs ++ ⟨st, sz + rsz, .hole⟩ :: ys)
        (Function.update fl (classOf rsz) ((fl (classOf rsz)).erase rst)) ∧
      Frame (xs ++ ⟨st, sz, .hole⟩ :: ⟨rst, rsz, .free⟩ :: ys) s.mem s'.mem ∧
      s'.data = s.data ∧ s'.size = s.size := by
  have heq := coalesceRight_free_eq h
  rw [show xs ++ ⟨st, sz, .hole⟩ :: ⟨rst, rsz, .free⟩ :: ys =
    (xs ++ [⟨st, sz, .hole⟩]) ++ ⟨rst, rsz, .free⟩ :: ys by simp] at h ⊢
  obtain ⟨s', hr, hi, hf, hd, hz⟩ := remove_ok h
  simp only [List.append_assoc, List.singleton_append] at hi
  rw [hr] at heq
  exact ⟨s', heq, hi.merge, hf, hd, hz⟩

/-! ## Well-formed heaps -/

/-- No two free chunks are neighbours. -/
def Coalesced (cs : List Chunk) : Prop :=
  cs.IsChain fun c d => ¬(c.status = .free ∧ d.status = .free)

/-- The heap between two calls: no hole, and no two adjacent free chunks. -/
structure HeapOk (s : MicaAlloc) (cs : List Chunk) (fl : Nat → List Nat) : Prop where
  inv : HeapInv s cs fl
  noHole : ∀ c ∈ cs, c.status ≠ .hole
  coalesced : Coalesced cs

/-- All bytes of the occupied chunks of `cs` are kept. -/
def KeepsOccupied (cs : List Chunk) (m m' : Mem) : Prop :=
  ∀ c ∈ cs, c.status = .occupied → Agree m m' c.start c.size

theorem KeepsOccupied.of_frame {a b : Nat} {ds : List Chunk} {m m' : Mem} (ht : Tiled a ds b)
    (hf : Frame ds m m') (hs : ∀ c ∈ cs, c.status = .occupied → c ∈ ds) :
    KeepsOccupied cs m m' := fun c hc ho => hf.occupied ht (hs c hc ho) ho

theorem KeepsOccupied.trans {m m' m'' : Mem} (h : KeepsOccupied cs m m')
    (h' : KeepsOccupied cs m' m'') : KeepsOccupied cs m m'' :=
  fun c hc ho => (h c hc ho).trans (h' c hc ho)

theorem KeepsOccupied.mono {ds : List Chunk} {m m' : Mem} (h : KeepsOccupied ds m m')
    (hs : ∀ c ∈ cs, c.status = .occupied → c ∈ ds) : KeepsOccupied cs m m' :=
  fun c hc ho => h c (hs c hc ho) ho

theorem status_cases {c : Chunk} (h : c.status ≠ .hole) :
    c = ⟨c.start, c.size, .free⟩ ∨ c = ⟨c.start, c.size, .occupied⟩ := by
  obtain ⟨st, sz, status⟩ := c
  cases status with
  | free => exact .inl rfl
  | occupied => exact .inr rfl
  | hole => exact absurd rfl h

/-- Coalescing to the left swallows the left neighbour if it is free, and
leaves no free neighbour there. -/
theorem coalesceLeft_ok (h : HeapInv s (xs ++ ⟨st, sz, .hole⟩ :: ys) fl)
    (hx : ∀ c ∈ xs, c.status ≠ .hole) (hc : Coalesced xs) :
    ∃ s' xs' st' sz' fl', micaAllocCoaleseFreeChunkLeft s st sz = .ok (s', st', sz') ∧
      HeapInv s' (xs' ++ ⟨st', sz', .hole⟩ :: ys) fl' ∧ xs' <+: xs ∧
      (∀ c ∈ xs, c.status = .occupied → c ∈ xs') ∧
      (∀ c ∈ xs'.getLast?, c.status = .occupied) ∧
      KeepsOccupied (xs ++ ys) s.mem s'.mem ∧ s'.data = s.data ∧ s'.size = s.size := by
  have hrefl : KeepsOccupied (xs ++ ys) s.mem s.mem := fun c _ _ => Agree.refl _ _ _
  rcases List.eq_nil_or_concat xs with rfl | ⟨xs', l, rfl⟩
  · exact ⟨s, [], st, sz, fl, coalesceLeft_first h, h, List.prefix_rfl, by simp, by simp, hrefl,
      rfl, rfl⟩
  · obtain ⟨lst, lsz, status⟩ := l
    cases status with
    | hole => exact absurd rfl (hx ⟨lst, lsz, .hole⟩ (by simp))
    | occupied =>
      exact ⟨s, _, st, sz, fl, coalesceLeft_occupied (by simpa using h), h, List.prefix_rfl,
        fun c hc _ => hc, by simp, hrefl, rfl, rfl⟩
    | free =>
      rw [List.concat_eq_append] at h hc
      obtain ⟨s', hr, hi, hf, hd, hz⟩ := coalesceLeft_free h
      rw [Nat.add_comm lsz] at hi
      refine ⟨s', xs', lst, sz + lsz, _, hr, hi, by simp, ?_, ?_, ?_, hd, hz⟩
      · intro c hc ho
        rw [List.concat_eq_append] at hc
        rcases List.mem_append.mp hc with hc | hc
        · exact hc
        · rw [List.mem_singleton.mp hc] at ho; cases ho
      · intro c hcm
        -- the neighbour of the swallowed chunk cannot be free
        obtain ⟨zs, rfl⟩ := List.getLast?_eq_some_iff.mp hcm
        have hcs := hc
        rw [Coalesced, List.append_assoc, List.singleton_append] at hcs
        have hpair := (List.isChain_append_cons_cons.mp hcs).2.1
        rcases status_cases (hx c (by simp)) with he | he
        · rw [he] at hpair; simp at hpair
        · rw [he]
      · refine KeepsOccupied.of_frame h.tiled hf (fun c hc _ => ?_)
        rw [List.concat_eq_append] at hc
        rcases List.mem_append.mp hc with hc | hc
        · exact List.mem_append_left _ hc
        · exact List.mem_append_right _ (List.mem_cons_of_mem _ hc)

/-- The mirror image on the right. -/
theorem coalesceRight_ok (h : HeapInv s (xs ++ ⟨st, sz, .hole⟩ :: ys) fl)
    (hy : ∀ c ∈ ys, c.status ≠ .hole) (hc : Coalesced ys) :
    ∃ s' ys' sz' fl', micaAllocCoaleseFreeChunkRight s st sz = .ok (s', st, sz') ∧
      HeapInv s' (xs ++ ⟨st, sz', .hole⟩ :: ys') fl' ∧ ys' <:+ ys ∧
      (∀ c ∈ ys, c.status = .occupied → c ∈ ys') ∧
      (∀ c ∈ ys'.head?, c.status = .occupied) ∧
      KeepsOccupied (xs ++ ys) s.mem s'.mem ∧ s'.data = s.data ∧ s'.size = s.size := by
  have hrefl : KeepsOccupied (xs ++ ys) s.mem s.mem := fun c _ _ => Agree.refl _ _ _
  cases ys with
  | nil =>
    exact ⟨s, [], sz, fl, coalesceRight_last h, h, List.suffix_rfl, by simp, by simp, hrefl, rfl,
      rfl⟩
  | cons r ys' =>
    obtain ⟨rst, rsz, status⟩ := r
    cases status with
    | hole => exact absurd rfl (hy ⟨rst, rsz, .hole⟩ (by simp))
    | occupied =>
      exact ⟨s, _, sz, fl, coalesceRight_occupied h, h, List.suffix_rfl,
        fun c hc _ => hc, by simp, hrefl, rfl, rfl⟩
    | free =>
      obtain ⟨s', hr, hi, hf, hd, hz⟩ := coalesceRight_free h
      refine ⟨s', ys', sz + rsz, _, hr, hi, List.suffix_cons _ _, ?_, ?_, ?_, hd, hz⟩
      · intro c hc ho
        rcases List.mem_cons.mp hc with rfl | hc
        · cases ho
        · exact hc
      · intro c hcm
        obtain ⟨zs, rfl⟩ := List.head?_eq_some_iff.mp hcm
        have hpair := (List.isChain_cons_cons.mp hc).1
        rcases status_cases (hy c (by simp)) with he | he
        · rw [he] at hpair; simp at hpair
        · rw [he]
      · refine KeepsOccupied.of_frame h.tiled hf (fun c hc _ => ?_)
        rcases List.mem_append.mp hc with hc | hc
        · exact List.mem_append_left _ hc
        · exact List.mem_append_right _ (List.mem_cons_of_mem _ hc)

/-! ## Deallocation -/

theorem coalesced_insert (hx : Coalesced xs) (hy : Coalesced ys)
    (hl : ∀ c ∈ xs.getLast?, c.status = .occupied) (hr : ∀ c ∈ ys.head?, c.status = .occupied)
    (c : Chunk) : Coalesced (xs ++ c :: ys) := by
  refine List.isChain_append.mpr ⟨hx, List.isChain_cons.mpr ⟨?_, hy⟩, ?_⟩
  · intro d hd hf
    rw [hr d hd] at hf
    exact absurd hf.2 (by simp)
  · intro d hd e _ hf
    rw [hl d hd] at hf
    exact absurd hf.1 (by simp)

/-- Freeing an occupied chunk succeeds and leaves a well-formed heap in which
the other occupied chunks are untouched. -/
theorem deallocate_ok (h : HeapOk s (xs ++ ⟨st, sz, .occupied⟩ :: ys) fl) :
    ∃ s' ds fl', micaAllocDeallocate s (st + 8 - s.data) = .ok s' ∧ HeapOk s' ds fl' ∧
      (∀ c : Chunk, c.status = .occupied → (c ∈ ds ↔ c ∈ xs ++ ys)) ∧
      KeepsOccupied (xs ++ ys) s.mem s'.mem ∧ s'.data = s.data ∧ s'.size = s.size := by
  have hm : (⟨st, sz, .occupied⟩ : Chunk) ∈ xs ++ ⟨st, sz, .occupied⟩ :: ys := by simp
  have hdl : s.data ≤ st := (h.inv.tiled.mem_bounds hm).1
  have hstart : s.data + (st + 8 - s.data) - 8 = st := by omega
  obtain ⟨ht1, ht2, _⟩ := tagged_occupied h.inv hm
  obtain ⟨hcx, hcy, _⟩ := List.isChain_append.mp h.coalesced
  have hcy := (List.isChain_cons.mp hcy).2
  obtain ⟨s1, xs1, st1, sz1, fl1, hr1, hi1, hp1, ho1, hl1, hk1, hd1, hz1⟩ :=
    coalesceLeft_ok h.inv.openChunk (fun c hc => h.noHole c (by simp [hc])) hcx
  obtain ⟨s2, ys2, sz2, fl2, hr2, hi2, hp2, ho2, hl2, hk2, hd2, hz2⟩ :=
    coalesceRight_ok hi1 (fun c hc => h.noHole c (by simp [hc])) hcy
  obtain ⟨s3, hr3, hi3, hf3, hd3, hz3⟩ := insert_ok hi2
  refine ⟨s3, xs1 ++ ⟨st1, sz2, .free⟩ :: ys2, _, ?_, ⟨hi3, ?_, ?_⟩, ?_, ?_,
    hd3.trans (hd2.trans hd1), hz3.trans (hz2.trans hz1)⟩
  · simp [micaAllocDeallocate, micaAllocGetItem, hstart, ht1, ht2, check, hr1, hr2, hr3, bind,
      Except.bind]
  · intro c hc
    rcases List.mem_append.mp hc with hc | hc
    · exact h.noHole c (List.mem_append_left _ (hp1.subset hc))
    · rcases List.mem_cons.mp hc with rfl | hc
      · simp
      · exact h.noHole c (List.mem_append_right _ (List.mem_cons_of_mem _ (hp2.subset hc)))
  · have hcx1 : Coalesced xs1 := List.IsChain.prefix hcx hp1
    exact coalesced_insert hcx1 (hcy.suffix hp2) hl1 hl2 _
  · intro c ho
    have hne : c ≠ ⟨st1, sz2, .free⟩ := by rintro rfl; cases ho
    simp only [List.mem_append, List.mem_cons, hne, false_or]
    constructor
    · rintro (hc | hc)
      · exact .inl (hp1.subset hc)
      · exact .inr (hp2.subset hc)
    · rintro (hc | hc)
      · exact .inl (ho1 c hc ho)
      · exact .inr (ho2 c hc ho)
  · have hk2' : KeepsOccupied (xs ++ ys) s1.mem s2.mem := by
      refine hk2.mono (fun c hc ho => ?_)
      rcases List.mem_append.mp hc with hc | hc
      · exact List.mem_append_left _ (ho1 c hc ho)
      · exact List.mem_append_right _ hc
    have hk3 : KeepsOccupied (xs ++ ys) s2.mem s3.mem := by
      refine KeepsOccupied.of_frame hi2.tiled hf3 (fun c hc ho => ?_)
      rcases List.mem_append.mp hc with hc | hc
      · exact List.mem_append_left _ (ho1 c hc ho)
      · exact List.mem_append_right _ (List.mem_cons_of_mem _ (ho2 c hc ho))
    exact (hk1.trans hk2').trans hk3

/-! ## Allocation -/

theorem roundup8_eq {x : Nat} (h : x < 2 ^ 32) : roundup8 x = (x + 7) / 8 * 8 := by
  have hm : (x + 7) % 2 ^ 64 = x + 7 := Nat.mod_eq_of_lt (by omega)
  have hk : (2 ^ 64 - 1 - 7 : Nat) = 2 ^ 64 - 2 ^ 3 := by norm_num
  rw [roundup8, hm, hk, and_high_mask (by omega) (by omega)]
  norm_num

/-- The class `mica_alloc_size_to_class_roundup` computes. -/
def classUp (size : Nat) : Nat :=
  if size ≤ minSize + (numClasses - 1) * classIncrement then
    (size - minSize + classIncrement - 1) / classIncrement
  else numClasses - 1

theorem roundup_ok {size : Nat} (hu : size ≤ maxSize) :
    micaAllocSizeToClassRoundup size = .ok (classUp size) := by
  unfold micaAllocSizeToClassRoundup classUp
  simp only [check, hu, if_true, bind, Except.bind]
  split <;> rfl

theorem findClass_some {k c : Nat} (h : findClass s c = some k) :
    c ≤ k ∧ k < numClasses ∧ s.freeHead k ≠ null := by
  have hp := List.find?_some h
  have hm := List.mem_of_find?_eq_some h
  simp only [decide_eq_true_eq] at hp
  exact ⟨hp.1, List.mem_range.mp hm, hp.2⟩

theorem findClass_none {k c : Nat} (h : findClass s c = none) (hk : c ≤ k) (hlt : k < numClasses) :
    s.freeHead k = null := by
  have hp := List.find?_eq_none.mp h k (List.mem_range.mpr hlt)
  simp only [decide_eq_true_eq, not_and, not_not] at hp
  exact hp hk

/-- Taking a chunk off a free list: there is none from the wanted class up, or
the first one found is too small, or it becomes a hole. -/
theorem fromHead_ok (h : HeapInv s cs fl) {n : Nat} (hn : n ≤ maxSize) :
    (micaAllocRemoveFreeChunkFromHead s n = .ok none ∧
      ∀ k, classUp n ≤ k → k < numClasses → fl k = []) ∨
    ∃ xs ys st sz, cs = xs ++ ⟨st, sz, .free⟩ :: ys ∧ classUp n ≤ classOf sz ∧
      st = s.freeHead (classOf sz) ∧
      (sz < n ∧ micaAllocRemoveFreeChunkFromHead s n = .error .fromHeadSize ∨
        n ≤ sz ∧ ∃ s', micaAllocRemoveFreeChunkFromHead s n = .ok (some (s', st, sz)) ∧
          HeapInv s' (xs ++ ⟨st, sz, .hole⟩ :: ys)
            (Function.update fl (classOf sz) ((fl (classOf sz)).erase st)) ∧
          Frame cs s.mem s'.mem ∧ s'.data = s.data ∧ s'.size = s.size) := by
  cases hfind : findClass s (classUp n) with
  | none =>
    refine .inl ⟨?_, fun k hk hlt => ?_⟩
    · simp [micaAllocRemoveFreeChunkFromHead, roundup_ok hn, hfind, bind, Except.bind, pure,
        Except.pure]
    · exact ((h.listed k).first_null_iff (h.null_not_mem k)).mp (findClass_none hfind hk hlt)
  | some k =>
    obtain ⟨hle, _, h0⟩ := findClass_some hfind
    -- the head of the class is a free chunk with both its tags in place
    obtain ⟨c, hc, hst, hcf, hk⟩ := (h.members k _).mp (head_node h h0).1
    obtain ⟨st, sz, status⟩ := c
    simp only at hst hcf hk
    subst hcf hk
    obtain ⟨ht1, ht2, ht3⟩ := tagged_free h hc
    obtain ⟨xs, ys, rfl⟩ := List.append_of_mem hc
    refine .inr ⟨xs, ys, st, sz, rfl, hle, hst, ?_⟩
    by_cases hsz : n ≤ sz
    · obtain ⟨s', hr, hi⟩ := remove_ok h
      refine .inr ⟨hsz, s', ?_, hi⟩
      simp [micaAllocRemoveFreeChunkFromHead, roundup_ok hn, hfind, ← hst, ht1, ht2, ht3, hsz,
        check, hr, bind, Except.bind, pure, Except.pure]
    · refine .inl ⟨by omega, ?_⟩
      simp [micaAllocRemoveFreeChunkFromHead, roundup_ok hn, hfind, ← hst, ht1, ht2, hsz, check,
        bind, Except.bind]

/-- Occupying a hole writes only inside it. -/
theorem occupy_ok (h : HeapInv s (xs ++ ⟨st, sz, .hole⟩ :: ys) fl) (item : Nat) :
    HeapInv (occupyChunk s st sz item) (xs ++ ⟨st, sz, .occupied⟩ :: ys) fl ∧
      Frame (xs ++ ⟨st, sz, .hole⟩ :: ys) s.mem (occupyChunk s st sz item).mem := by
  have hm : (⟨st, sz, .hole⟩ : Chunk) ∈ xs ++ ⟨st, sz, .hole⟩ :: ys := by simp
  obtain ⟨_, _, hmin, hmax⟩ := h.chunk_bounds hm
  have hlt : sz < 2 ^ 63 := tag_lt h hm
  have htag : tagVec sz occupied < 2 ^ 64 := by
    rw [tagVec_occupied hlt]
    omega
  have hframe : Frame (xs ++ ⟨st, sz, .hole⟩ :: ys) s.mem (occupyChunk s st sz item).mem :=
    (tagBoth_frame (t := tagVec sz occupied) hm hmin).trans
      (store_link_frame hm (.inr ⟨rfl, hmin⟩) (by simp) (by simp))
  refine ⟨⟨h.dataPos, h.bound, h.sizeMax, h.tiled.setStatus .occupied, ?_, ?_, h.nodup, ?_⟩, hframe⟩
  · intro c hc
    rcases starts_setStatus h.tiled hc with rfl | ⟨hc', _⟩
    · obtain ⟨h1, h2⟩ := tagBoth_tags (s := s) (t := tagVec sz occupied) hmin htag
      simp only [minSize] at hmin
      exact ⟨(load64_store64_disjoint (by simp)).trans h1,
        (load64_store64_disjoint (by simp only; omega)).trans h2⟩
    · exact hframe.tagged h.tiled hc' (h.tagged c hc')
  · refine h.listed_of_agree (fun c hc hf => ?_)
    have hne : c ≠ ⟨st, sz, .hole⟩ := by rintro rfl; cases hf
    have hap := (h.tiled.apart hc hm).resolve_left hne
    simp only [minSize] at hmin hap
    exact (tagBoth_agree (t := tagVec sz occupied) (by simpa [minSize] using hmin) hap).trans
      (store64_agree (by omega))
  · intro k x
    rw [h.members]
    by_cases hx : x = st
    · subst hx
      constructor
      · rintro ⟨c, hc, hs, hf, _⟩
        rw [h.tiled.eq_of_start hc hm hs] at hf
        cases hf
      · rintro ⟨c, hc, hs, hf, _⟩
        rcases starts_setStatus h.tiled hc with rfl | ⟨_, hne⟩
        · cases hf
        · exact absurd hs hne
    · exact (members_setStatus h.tiled hx).symm

theorem coalesced_occupied :
    Coalesced (xs ++ ⟨st, sz, .occupied⟩ :: ys) ↔ Coalesced xs ∧ Coalesced ys := by
  constructor
  · intro h
    obtain ⟨hx, hy, _⟩ := List.isChain_append.mp h
    exact ⟨hx, (List.isChain_cons.mp hy).2⟩
  · intro hall
    obtain ⟨hx, hy⟩ := hall
    refine List.isChain_append.mpr ⟨hx, List.isChain_cons.mpr ⟨?_, hy⟩, ?_⟩
    · intro d _ hf
      cases hf.1
    · intro d _ e he hf
      cases Option.some.inj he
      cases hf.2

/-- Occupying the last hole ends an allocation. -/
theorem occupy_last (h : HeapInv s (xs ++ ⟨st, sz, .hole⟩ :: ys) fl)
    (hn : ∀ c ∈ xs ++ ys, c.status ≠ .hole) (hx : Coalesced xs) (hy : Coalesced ys) {item : Nat}
    (hi : item < 2 ^ 64) :
    HeapOk (occupyChunk s st sz item) (xs ++ ⟨st, sz, .occupied⟩ :: ys) fl ∧
      KeepsOccupied (xs ++ ys) s.mem (occupyChunk s st sz item).mem ∧
      load64 (occupyChunk s st sz item).mem (st + 8) = item := by
  obtain ⟨hinv, hframe⟩ := occupy_ok h item
  refine ⟨⟨hinv, ?_, coalesced_occupied.mpr ⟨hx, hy⟩⟩, ?_, load64_store64_same hi⟩
  · intro c hc
    simp only [List.mem_append, List.mem_cons] at hc hn
    rcases hc with hc | rfl | hc
    · exact hn c (.inl hc)
    · simp
    · exact hn c (.inr hc)
  · refine KeepsOccupied.of_frame h.tiled hframe (fun c hc _ => ?_)
    simp only [List.mem_append, List.mem_cons] at hc ⊢
    exact Or.imp_right Or.inr hc

/-- The chunk size `mica_alloc_allocate` looks for. -/
def minimumChunk (itemSize : UInt32) : Nat := roundup8 itemSize.toNat + overhead

theorem minimumChunk_bounds {itemSize : UInt32} (h : itemSize.toNat > 8) :
    minSize ≤ minimumChunk itemSize ∧ minimumChunk itemSize ≤ maxSize ∧
      8 ∣ minimumChunk itemSize := by
  have hlt := itemSize.toNat_lt
  rw [minimumChunk, roundup8_eq hlt]
  simp only [minSize, maxSize, overhead]
  omega

/-- What a successful allocation gives: a chunk for the item, new among the
occupied ones, in a well-formed heap in which those are untouched. -/
structure Allocated (s : MicaAlloc) (cs : List Chunk) (itemSize : UInt32) (s' : MicaAlloc)
    (ds : List Chunk) (st sz : Nat) : Prop where
  listed : ∃ fl, HeapOk s' ds fl
  fresh : ∀ c ∈ cs, c.status = .occupied → c.start ≠ st
  occupied : ∀ c : Chunk, c.status = .occupied → (c ∈ ds ↔ c = ⟨st, sz, .occupied⟩ ∨ c ∈ cs)
  room : minimumChunk itemSize ≤ sz ∧ sz < minimumChunk itemSize + minSize
  itemField : load64 s'.mem (st + 8) = itemSize.toNat
  keeps : KeepsOccupied cs s.mem s'.mem
  sameData : s'.data = s.data
  sameSize : s'.size = s.size

/-- An occupied chunk is one of those around a free one. -/
theorem occupied_mem_around {c : Chunk} (hc : c ∈ xs ++ ⟨st, sz, .free⟩ :: ys)
    (ho : c.status = .occupied) : c ∈ xs ++ ys := by
  have hne : c ≠ ⟨st, sz, .free⟩ := by rintro rfl; cases ho
  simpa [hne] using hc

/-- The occupied chunks after a free chunk gave way to an occupied one and
perhaps a free rest. -/
theorem occupied_mem_carved (rest : List Chunk) {n : Nat} (hrest : ∀ c ∈ rest, c.status = .free)
    {c : Chunk} (ho : c.status = .occupied) :
    c ∈ xs ++ ⟨st, n, .occupied⟩ :: (rest ++ ys) ↔
      c = ⟨st, n, .occupied⟩ ∨ c ∈ xs ++ ⟨st, sz, .free⟩ :: ys := by
  have hne : c ≠ ⟨st, sz, .free⟩ := by rintro rfl; cases ho
  have hr : c ∉ rest := fun hm => by rw [hrest c hm] at ho; cases ho
  simp [hne, hr, or_left_comm]

theorem HeapOk.noHole_around {c : Chunk} (h : HeapOk s (xs ++ c :: ys) fl) :
    ∀ d ∈ xs ++ ys, d.status ≠ .hole := by
  intro d hd
  refine h.noHole d ?_
  simp only [List.mem_append, List.mem_cons] at hd ⊢
  exact Or.imp_right Or.inr hd

/-- The end of an allocation that takes the whole hole. -/
theorem carve_whole {s1 : MicaAlloc} {fl1 : Nat → List Nat}
    (h : HeapOk s (xs ++ ⟨st, sz, .free⟩ :: ys) fl)
    (h1 : HeapInv s1 (xs ++ ⟨st, sz, .hole⟩ :: ys) fl1) {item : Nat} (hi : item < 2 ^ 64) :
    HeapOk (occupyChunk s1 st sz item) (xs ++ ⟨st, sz, .occupied⟩ :: ys) fl1 ∧
      KeepsOccupied (xs ++ ys) s1.mem (occupyChunk s1 st sz item).mem ∧
      load64 (occupyChunk s1 st sz item).mem (st + 8) = item := by
  obtain ⟨hcx, hcy, -⟩ := List.isChain_append.mp h.coalesced
  exact occupy_last h1 h.noHole_around hcx (List.isChain_cons.mp hcy).2 hi

/-- The end of an allocation that leaves a free chunk behind. -/
theorem carve_rest {s1 : MicaAlloc} {fl1 : Nat → List Nat} {rest : Nat}
    (h : HeapOk s (xs ++ ⟨st, sz + rest, .free⟩ :: ys) fl)
    (h1 : HeapInv s1 (xs ++ ⟨st, sz + rest, .hole⟩ :: ys) fl1) (hmin : minSize ≤ sz)
    (hrest : minSize ≤ rest) (h8 : 8 ∣ sz) {item : Nat} (hi : item < 2 ^ 64) :
    ∃ s2, micaAllocInsertFreeChunk s1 (st + sz) rest = .ok s2 ∧
      HeapOk (occupyChunk s2 st sz item)
        (xs ++ ⟨st, sz, .occupied⟩ :: ⟨st + sz, rest, .free⟩ :: ys)
        (Function.update fl1 (classOf rest) ((st + sz) :: fl1 (classOf rest))) ∧
      KeepsOccupied (xs ++ ys) s1.mem (occupyChunk s2 st sz item).mem ∧
      load64 (occupyChunk s2 st sz item).mem (st + 8) = item ∧
      s2.data = s1.data ∧ s2.size = s1.size := by
  obtain ⟨hcx, hcy, -⟩ := List.isChain_append.mp h.coalesced
  have hsplit := h1.split hmin hrest h8
  rw [List.append_cons] at hsplit
  obtain ⟨s2, hinsert, h2, hframe, hd, hz⟩ := insert_ok hsplit
  have hkeep : KeepsOccupied (xs ++ ys) s1.mem s2.mem :=
    KeepsOccupied.of_frame hsplit.tiled hframe fun c hc _ => by
      rcases List.mem_append.mp hc with hc | hc <;> simp [hc]
  simp only [List.append_assoc, List.singleton_append] at h2
  have hcl : Coalesced (⟨st + sz, rest, .free⟩ :: ys) :=
    List.isChain_cons.mpr (List.isChain_cons.mp hcy)
  have hnone : ∀ c ∈ xs ++ ⟨st + sz, rest, .free⟩ :: ys, c.status ≠ .hole := by
    have hn := h.noHole_around
    intro c hc
    simp only [List.mem_append, List.mem_cons] at hc hn
    rcases hc with hc | rfl | hc
    · exact hn c (.inl hc)
    · simp
    · exact hn c (.inr hc)
  obtain ⟨hok, hkeep', hitem⟩ := occupy_last h2 hnone hcx hcl hi
  refine ⟨s2, hinsert, hok, hkeep.trans (hkeep'.mono fun c hc _ => ?_), hitem, hd, hz⟩
  rcases List.mem_append.mp hc with hc | hc <;> simp [hc]

/-- The second half of `mica_alloc_allocate`, from the hole it was handed. -/
theorem carve_ok {itemSize : UInt32} {s1 : MicaAlloc} {fl1 : Nat → List Nat}
    (h : HeapOk s (xs ++ ⟨st, sz, .free⟩ :: ys) fl) (hi : itemSize.toNat > 8)
    (hsz : minimumChunk itemSize ≤ sz)
    (hfrom : micaAllocRemoveFreeChunkFromHead s (minimumChunk itemSize) = .ok (some (s1, st, sz)))
    (h1 : HeapInv s1 (xs ++ ⟨st, sz, .hole⟩ :: ys) fl1)
    (hf1 : Frame (xs ++ ⟨st, sz, .free⟩ :: ys) s.mem s1.mem) (hd : s1.data = s.data)
    (hz : s1.size = s.size) :
    ∃ s' ds sz', micaAllocAllocate s itemSize = .ok (s', st + 8 - s.data) ∧
      Allocated s (xs ++ ⟨st, sz, .free⟩ :: ys) itemSize s' ds st sz' := by
  obtain ⟨hmin, hmax, h8⟩ := minimumChunk_bounds hi
  have hlt : itemSize.toNat < 2 ^ 64 := by have := itemSize.toNat_lt; omega
  have hm : (⟨st, sz, .free⟩ : Chunk) ∈ xs ++ ⟨st, sz, .free⟩ :: ys := by simp
  have hfresh : ∀ c ∈ xs ++ ⟨st, sz, .free⟩ :: ys, c.status = .occupied → c.start ≠ st := by
    intro c hc ho he
    rw [h.inv.tiled.eq_of_start hc hm he] at ho
    cases ho
  have hk1 : KeepsOccupied (xs ++ ⟨st, sz, .free⟩ :: ys) s.mem s1.mem :=
    KeepsOccupied.of_frame h.inv.tiled hf1 fun c hc _ => hc
  by_cases hleft : sz - minimumChunk itemSize ≥ minSize
  · obtain ⟨lsz, rfl⟩ := Nat.exists_eq_add_of_le hsz
    rw [Nat.add_sub_cancel_left] at hleft
    obtain ⟨s3, hr3, hok, hk3, hitem, hd3, hz3⟩ := carve_rest h h1 hmin hleft h8 hlt
    refine ⟨_, _, minimumChunk itemSize, ?_, ⟨_, hok⟩, hfresh, ?_,
      ⟨Nat.le_refl _, by simp [minSize]⟩, hitem,
      hk1.trans (hk3.mono fun _ hc ho => occupied_mem_around hc ho), hd3.trans hd, hz3.trans hz⟩
    · have hleft' : minSize ≤ lsz := hleft
      rw [minimumChunk] at hfrom hr3
      simp [micaAllocAllocate, check, hi, hfrom, minimumChunk, hleft', hr3, hd3, hd, bind,
        Except.bind, pure, Except.pure]
    · exact fun c ho => occupied_mem_carved [⟨st + minimumChunk itemSize, lsz, .free⟩]
        (by simp) ho
  · obtain ⟨hok, hk4, hitem⟩ := carve_whole h h1 hlt
    refine ⟨_, _, sz, ?_, ⟨_, hok⟩, hfresh, ?_, ⟨hsz, by omega⟩, hitem,
      hk1.trans (hk4.mono fun _ hc ho => occupied_mem_around hc ho), hd, hz⟩
    · have hleft' : ¬ minSize ≤ sz - minimumChunk itemSize := hleft
      rw [minimumChunk] at hfrom hleft'
      simp [micaAllocAllocate, check, hi, hfrom, hleft', hd, bind, Except.bind, pure, Except.pure]
    · exact fun c ho => occupied_mem_carved [] (by simp) ho

/-- An allocation finds no chunk in the classes it looks at and changes
nothing, or stops at a chunk that is too small, or succeeds. -/
theorem allocate_ok (h : HeapOk s cs fl) {itemSize : UInt32} (hi : itemSize.toNat > 8) :
    (micaAllocAllocate s itemSize = .ok (s, insufficientSpace) ∧
      ∀ k, classUp (minimumChunk itemSize) ≤ k → k < numClasses → fl k = []) ∨
    (micaAllocAllocate s itemSize = .error .fromHeadSize ∧
      ∃ c ∈ cs, c.status = .free ∧ classUp (minimumChunk itemSize) ≤ classOf c.size ∧
        c.size < minimumChunk itemSize) ∨
    ∃ s' ds st sz, micaAllocAllocate s itemSize = .ok (s', st + 8 - s.data) ∧
      Allocated s cs itemSize s' ds st sz := by
  obtain ⟨_, hmax, _⟩ := minimumChunk_bounds hi
  rcases fromHead_ok h.inv hmax with ⟨hr, hnone⟩ | ⟨xs, ys, st, sz, rfl, hcl, _, hcase⟩
  · refine .inl ⟨?_, hnone⟩
    rw [minimumChunk] at hr
    simp [micaAllocAllocate, check, hi, hr, bind, Except.bind, pure, Except.pure]
  · rcases hcase with ⟨hlt, hr⟩ | ⟨hle, s1, hr, h1, hf1, hd, hz⟩
    · refine .inr (.inl ⟨?_, ⟨st, sz, .free⟩, by simp, rfl, hcl, hlt⟩)
      rw [minimumChunk] at hr
      simp [micaAllocAllocate, check, hi, hr, bind, Except.bind]
    · obtain ⟨s', ds, sz', hok, hall⟩ := carve_ok h hi hle hr h1 hf1 hd hz
      exact .inr (.inr ⟨s', ds, st, sz', hok, hall⟩)

end RdmaBench.Alloc.Ops
