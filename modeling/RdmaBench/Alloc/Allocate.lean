import RdmaBench.Alloc.Sessions

/-! # What an allocation gives

`mica_alloc_allocate` cuts its chunk from the head of the first free list that
is not empty, from the class of the wanted size up. This file says which chunk
that is, when the item in it has room for its data, and when the search finds a
chunk exactly if there is one. -/

namespace RdmaBench.Alloc.Allocate
open RdmaBench.Lib.Asserts RdmaBench.Lib.ByteMem RdmaBench.Lib.Links RdmaBench.Lib.Runs
open RdmaBench.Alloc.Model RdmaBench.Alloc.Heap RdmaBench.Alloc.FreeLists RdmaBench.Alloc.Ops
open RdmaBench.Alloc.Sessions

/-! ## The chunk that is taken -/

/-- Start and size of the free chunk that an allocation of a chunk of `n` bytes
takes off its list. -/
def taken (s : MicaAlloc) (n : Nat) : Option (Nat × Nat) :=
  (findClass s (classUp n)).map fun k => (s.freeHead k, tagSize (load64 s.mem (s.freeHead k)))

/-- What the new chunk gets of it: the rest is split off if it is large enough
for a chunk. -/
def carvedSize (size n : Nat) : Nat := if size - n ≥ minSize then n else size

variable {s s' : MicaAlloc} {cs : List Chunk} {fl : Nat → List Nat} {itemSize : UInt32}
variable {off st sz n : Nat} {c : Session}

theorem fromHead_taken {s1 : MicaAlloc} (hn : n ≤ maxSize)
    (h : micaAllocRemoveFreeChunkFromHead s n = .ok (some (s1, st, sz))) :
    taken s n = some (st, sz) ∧ n ≤ sz ∧
      micaAllocRemoveFreeChunkFromFreeList s st sz = .ok s1 := by
  obtain ⟨k, hk, h⟩ := bind_ok h
  cases (roundup_ok hn).symm.trans hk
  cases hfind : findClass s (classUp n) with
  | none =>
    rw [hfind] at h
    cases h
  | some k =>
    rw [hfind] at h
    obtain ⟨-, h⟩ := check_bind h
    obtain ⟨hsz, h⟩ := check_bind h
    obtain ⟨-, h⟩ := check_bind h
    obtain ⟨s2, hremove, h⟩ := bind_ok h
    cases h
    exact ⟨by rw [taken, hfind]; rfl, hsz, hremove⟩

/-- The taken chunk is a free chunk of the heap. -/
theorem taken_mem (h : HeapInv s cs fl) (ht : taken s n = some (st, sz)) :
    ⟨st, sz, .free⟩ ∈ cs := by
  obtain ⟨k, hk, heq⟩ := Option.map_eq_some_iff.mp ht
  cases heq
  obtain ⟨-, -, h0⟩ := findClass_some hk
  obtain ⟨ch, hm, hst, hfree, -⟩ := (h.members k _).mp (head_node h h0).1
  obtain ⟨st, sz, status⟩ := ch
  cases hst
  cases hfree
  rw [(tagged_free h hm).2.1]
  exact hm

/-- The steps of an allocation that succeeds: the chunk is taken off its list,
the rest goes back if it is large enough, and the first part is occupied. -/
structure Steps (s : MicaAlloc) (itemSize : UInt32) (s' : MicaAlloc) (st size : Nat)
    (s1 s2 : MicaAlloc) : Prop where
  taken : taken s (minimumChunk itemSize) = some (st, size)
  enough : minimumChunk itemSize ≤ size
  remove : micaAllocRemoveFreeChunkFromFreeList s st size = .ok s1
  rest : size - minimumChunk itemSize ≥ minSize ∧
      micaAllocInsertFreeChunk s1 (st + minimumChunk itemSize) (size - minimumChunk itemSize) =
        .ok s2 ∨
    ¬ size - minimumChunk itemSize ≥ minSize ∧ s2 = s1
  occupy : s' = occupyChunk s2 st (carvedSize size (minimumChunk itemSize)) itemSize.toNat

theorem allocate_steps (h : micaAllocAllocate s itemSize = .ok (s', off))
    (hoff : off ≠ insufficientSpace) :
    ∃ st size s1 s2, Steps s itemSize s' st size s1 s2 ∧ off = st + 8 - s'.data := by
  obtain ⟨hi, h⟩ := check_bind h
  obtain ⟨found, hfound, h⟩ := bind_ok h
  cases found with
  | none =>
    cases h
    exact absurd rfl hoff
  | some found =>
    obtain ⟨s1, st, size⟩ := found
    obtain ⟨htaken, hle, hremove⟩ := fromHead_taken (minimumChunk_bounds hi).2.1 hfound
    simp only at h
    split at h
    · rename_i hleft
      obtain ⟨s2, hinsert, h⟩ := bind_ok h
      cases h
      have hcarved : carvedSize size (minimumChunk itemSize) = minimumChunk itemSize :=
        if_pos hleft
      refine ⟨st, size, s1, s2, ⟨htaken, hle, hremove, .inl ⟨hleft, hinsert⟩, ?_⟩, rfl⟩
      rw [hcarved]
      rfl
    · rename_i hleft
      cases h
      have hcarved : carvedSize size (minimumChunk itemSize) = size := if_neg hleft
      refine ⟨st, size, s1, s1, ⟨htaken, hle, hremove, .inr ⟨hleft, rfl⟩, ?_⟩, rfl⟩
      rw [hcarved]

theorem occupyChunk_tag {item : Nat} (hsz : sz < 2 ^ 63) :
    load64 (occupyChunk s st sz item).mem st = tagVec sz occupied := by
  have htag : tagVec sz occupied < 2 ^ 64 := by
    rw [tagVec_occupied hsz]
    omega
  exact (load64_store64_disjoint (by simp)).trans (load64_store64_same htag)

theorem tagSize_lt (vec : Nat) : tagSize vec < 2 ^ 63 := by
  rw [tagSize, Nat.and_two_pow_sub_one_eq_mod]
  exact Nat.mod_lt _ (by norm_num)

theorem taken_lt (h : taken s n = some (st, sz)) : sz < 2 ^ 63 := by
  obtain ⟨k, -, heq⟩ := Option.map_eq_some_iff.mp h
  cases heq
  exact tagSize_lt _

theorem carvedSize_le (h : n ≤ sz) : n ≤ carvedSize sz n ∧ carvedSize sz n ≤ sz := by
  unfold carvedSize
  split
  · exact ⟨Nat.le_refl _, h⟩
  · exact ⟨h, Nat.le_refl _⟩

/-- The chunk of the new offset, in the heap after the allocation. -/
theorem allocate_chunk (hok : HeapOk s cs fl) (h : micaAllocAllocate s itemSize = .ok (s', off))
    (hoff : off ≠ insufficientSpace) :
    ∃ ds fl' size, HeapOk s' ds fl' ∧
      taken s (minimumChunk itemSize) = some (chunkStart s' off, size) ∧
      minimumChunk itemSize ≤ size ∧
      chunkSize s' off = carvedSize size (minimumChunk itemSize) ∧
      ⟨chunkStart s' off, chunkSize s' off, .occupied⟩ ∈ ds := by
  obtain ⟨hi, -⟩ := check_bind h
  rcases allocate_ok hok hi with ⟨hr, -⟩ | ⟨hr, -⟩ | ⟨t, ds, st, sz, hr, hall⟩
  · cases hr.symm.trans h
    exact absurd rfl hoff
  · cases hr.symm.trans h
  · cases hr.symm.trans h
    obtain ⟨fl', hok'⟩ := hall.listed
    have hm : (⟨st, sz, .occupied⟩ : Chunk) ∈ ds := (hall.occupied _ rfl).mpr (.inl rfl)
    have hlow : s.data ≤ st := by
      rw [← hall.sameData]
      exact (hok'.inv.tiled.mem_bounds hm).1
    obtain ⟨st', size, s1, s2, hsteps, heq⟩ := allocate_steps h hoff
    rw [hall.sameData] at heq
    obtain rfl : st = st' := by omega
    have hstart : chunkStart s' (st + 8 - s.data) = st := by
      simp only [chunkStart, micaAllocGetItem, hall.sameData]
      omega
    have hsize : chunkSize s' (st + 8 - s.data) = sz := by
      rw [chunkSize, hstart]
      exact (tagged_occupied hok'.inv hm).2.1
    have hcarved : sz = carvedSize size (minimumChunk itemSize) := by
      have hlt : carvedSize size (minimumChunk itemSize) < 2 ^ 63 :=
        Nat.lt_of_le_of_lt (carvedSize_le hsteps.enough).2 (taken_lt hsteps.taken)
      rw [← (tagged_occupied hok'.inv hm).2.1, hsteps.occupy, occupyChunk_tag hlt,
        tagSize_tagVec hlt]
    rw [hstart, hsize]
    exact ⟨ds, fl', size, hok', hsteps.taken, hsteps.enough, hcarved, hm⟩

/-! ## Lists of calls -/

instance (s : MicaAlloc) (off addr : Nat) : Decidable (BetweenTags s off addr) :=
  inferInstanceAs (Decidable (_ ∧ _))

instance (c : Session) : (call : Call) → Decidable (Allowed c call)
  | .allocate _ => .isTrue trivial
  | .deallocate off => inferInstanceAs (Decidable (off ∈ c.live))
  | .write addr _ len =>
    inferInstanceAs (Decidable (∃ off ∈ c.live, ∀ i < len, BetweenTags c.alloc off (addr + i)))

/-- A call, if it is allowed and does not fail. -/
def attempt (c : Session) (call : Call) : Option Session :=
  if Allowed c call then (perform c call).toOption else none

theorem step_of_attempt (c : Session) (call : Call) (c' : Session)
    (h : attempt c call = some c') : sessions.step c call c' := by
  unfold attempt at h
  split at h
  case isTrue hallowed => exact ⟨hallowed, ok_of_toOption h⟩
  case isFalse => cases h

/-- A fresh heap of 2 MB. -/
def fresh : Option Session :=
  (micaAllocInit (fun _ => 0) 4096 1 0).toOption.map fun alloc => ⟨alloc, []⟩

theorem init_fresh (c : Session) (h : fresh = some c) : sessions.init c := by
  obtain ⟨alloc, halloc, rfl⟩ := Option.map_eq_some_iff.mp h
  exact ⟨_, 4096, 1, 0, by decide, ok_of_toOption halloc, rfl⟩

/-- The session after these calls in a fresh heap. -/
def replay (calls : List Call) : Option Session := fresh.bind fun c => calls.foldlM attempt c

theorem reachable_replay (calls : List Call) (p : Session → Bool)
    (h : (replay calls).any p = true) : ∃ c, Reachable sessions c ∧ p c = true :=
  exists_reachable step_of_attempt init_fresh calls p h

/-! ## Room for the data -/

/-- The `data` field of an item, behind its `item_size`. -/
def itemData (s : MicaAlloc) (allocOffset : Nat) : Nat := micaAllocGetItem s allocOffset + 8

/-- All bytes of the item lie between the tags of its chunk. -/
def ItemInside (s : MicaAlloc) (off : Nat) (itemSize : UInt32) : Prop :=
  ∀ i < itemSize.toNat, BetweenTags s off (itemData s off + i)

/-- The taken chunk is larger than the smallest one for the item, and not large
enough to be split. -/
def Slack (s : MicaAlloc) (itemSize : UInt32) : Prop :=
  ∃ st size, taken s (minimumChunk itemSize) = some (st, size) ∧
    minimumChunk itemSize < size ∧ size < minimumChunk itemSize + minSize

/-- The data take 24 bytes less than the chunk has: two tags and the field. -/
theorem itemInside_iff (hstart : 8 ≤ s.data + off) (hi : itemSize.toNat > 8) :
    ItemInside s off itemSize ↔ itemSize.toNat + 24 ≤ chunkSize s off := by
  simp only [ItemInside, BetweenTags, itemData, chunkStart, micaAllocGetItem]
  constructor
  · intro h
    have hlast := (h (itemSize.toNat - 1) (by omega)).2
    omega
  · intro h i hlt
    constructor <;> omega

/-- A chunk whose size is the smallest for the item is too small by 8 bytes. -/
theorem carved_room_iff {size : Nat} (hle : minimumChunk itemSize ≤ size)
    (h8 : 8 ∣ carvedSize size (minimumChunk itemSize)) :
    itemSize.toNat + 24 ≤ carvedSize size (minimumChunk itemSize) ↔
      minimumChunk itemSize < size ∧ size < minimumChunk itemSize + minSize := by
  have hmin : minimumChunk itemSize = (itemSize.toNat + 7) / 8 * 8 + 16 := by
    rw [minimumChunk, roundup8_eq itemSize.toNat_lt, overhead]
  by_cases hleft : size - minimumChunk itemSize ≥ minSize
  · rw [carvedSize, if_pos hleft]
    simp only [minSize] at hleft ⊢
    omega
  · rw [carvedSize, if_neg hleft] at h8 ⊢
    simp only [minSize] at hleft ⊢
    omega

/-- After an allocation, the item's bytes lie between the tags of the chunk, and
no write to them changes a tag, exactly if the chunk taken was larger than the
smallest one and was not split. -/
theorem item_room_iff (h : Reachable sessions c) (hi : itemSize.toNat > 8)
    (hr : micaAllocAllocate c.alloc itemSize = .ok (s', off)) (hoff : off ≠ insufficientSpace) :
    ∃ ds fl, HeapOk s' ds fl ∧
      ((ItemInside s' off itemSize ∧ ∀ src, ∀ ch ∈ ds,
          ch.Tagged (memcpy s'.mem (itemData s' off) src itemSize.toNat)) ↔
        Slack c.alloc itemSize) := by
  obtain ⟨cs, fl, hinv⟩ := session_inv h
  obtain ⟨ds, fl', size, hok, htaken, hle, hsize, hm⟩ := allocate_chunk hinv.heap hr hoff
  obtain ⟨hlow, -, -, h8⟩ := hok.inv.tiled.mem_bounds hm
  have hpos := hok.inv.dataPos
  have hstart : 8 ≤ s'.data + off := by
    simp only [chunkStart, micaAllocGetItem] at hlow
    omega
  simp only [hsize] at h8
  have hslack : Slack c.alloc itemSize ↔ ItemInside s' off itemSize := by
    rw [itemInside_iff hstart hi, hsize, carved_room_iff hle h8, Slack]
    constructor
    · rintro ⟨st, size', htaken', hgt, hlt⟩
      cases htaken.symm.trans htaken'
      exact ⟨hgt, hlt⟩
    · rintro ⟨hgt, hlt⟩
      exact ⟨_, size, htaken, hgt, hlt⟩
  refine ⟨ds, fl', hok, ?_⟩
  rw [hslack]
  refine ⟨And.left, fun hin => ⟨hin, fun src => ?_⟩⟩
  -- the bytes are the client's, so the heap stays well formed
  have hroom := (itemInside_iff hstart hi).mp hin
  have hitem : itemData s' off = chunkStart s' off + 16 := by
    simp only [itemData, chunkStart, micaAllocGetItem]
    omega
  exact (write_ok hok hm (by omega) (by omega)).inv.tagged

/-- A chunk of 48 bytes between live ones, freed and taken again for 16 bytes
of data. -/
def reuse48 : List Call := [.allocate 32, .allocate 16, .deallocate 8]

/-- Whether an allocation of `itemSize` bytes takes a chunk with slack. -/
def hasSlack (itemSize : UInt32) (c : Session) : Bool :=
  match taken c.alloc (minimumChunk itemSize), micaAllocAllocate c.alloc itemSize with
  | some (_, size), .ok (_, off) => decide (off ≠ insufficientSpace) &&
      decide (minimumChunk itemSize < size ∧ size < minimumChunk itemSize + minSize)
  | _, _ => false

theorem item_room_reuse : ∃ c s' off, Reachable sessions c ∧ off ≠ insufficientSpace ∧
    micaAllocAllocate c.alloc 16 = .ok (s', off) ∧ ItemInside s' off 16 := by
  obtain ⟨c, hc, hp⟩ := reachable_replay reuse48 (hasSlack 16) (by decide +kernel)
  unfold hasSlack at hp
  split at hp
  case h_1 st size s' off htaken hr =>
    simp only [Bool.and_eq_true, decide_eq_true_eq] at hp
    obtain ⟨hoff, hgt, hlt⟩ := hp
    obtain ⟨ds, fl, -, hiff⟩ := item_room_iff hc (by decide) hr hoff
    exact ⟨c, s', off, hc, hoff, hr, (hiff.mpr ⟨st, size, htaken, hgt, hlt⟩).1⟩
  case h_2 => cases hp

/-- Whether byte `i` of a new item lies in the tag at the end of its chunk. -/
def hitsTag (itemSize : UInt32) (i : Nat) (c : Session) : Bool :=
  match micaAllocAllocate c.alloc itemSize with
  | .ok (s', off) => decide (off ≠ insufficientSpace) &&
      decide (chunkStart s' off + chunkSize s' off ≤ itemData s' off + i + 8)
  | .error _ => false

/-- The first item of 16 bytes in a fresh heap: its last 8 bytes are the tag at
the end of its chunk. -/
theorem item_without_room :
    (replay []).any (hitsTag 16 8) = true ∧
    ¬ ∀ c, Reachable sessions c → ∀ itemSize : UInt32, itemSize.toNat > 8 → ∀ s' off,
      micaAllocAllocate c.alloc itemSize = .ok (s', off) → off ≠ insufficientSpace →
      ItemInside s' off itemSize := by
  have hrun : (replay []).any (hitsTag 16 8) = true := by decide +kernel
  refine ⟨hrun, fun hall => ?_⟩
  obtain ⟨c, hc, hp⟩ := reachable_replay _ _ hrun
  unfold hitsTag at hp
  split at hp
  case h_1 s' off hr =>
    simp only [Bool.and_eq_true, decide_eq_true_eq] at hp
    obtain ⟨hoff, hend⟩ := hp
    have hin := (hall c hc 16 (by decide) s' off hr hoff 8 (by decide)).2
    omega
  case h_2 => cases hp

/-! ## Finding a chunk -/

/-- What an allocation is to do: give an offset if some free chunk is large
enough, and otherwise report that there is none and change nothing. -/
def Served (s : MicaAlloc) (cs : List Chunk) (itemSize : UInt32) : Prop :=
  ((∃ ch ∈ cs, ch.status = .free ∧ minimumChunk itemSize ≤ ch.size) →
    ∃ s' off, micaAllocAllocate s itemSize = .ok (s', off) ∧ off ≠ insufficientSpace) ∧
  ((¬ ∃ ch ∈ cs, ch.status = .free ∧ minimumChunk itemSize ≤ ch.size) →
    micaAllocAllocate s itemSize = .ok (s, insufficientSpace))

/-- The largest size that has a class to itself. -/
def lastClassSize : Nat := minSize + (numClasses - 1) * classIncrement

/-- The request is small, or the last class is empty, or its first chunk is
large enough. -/
def HeadFits (s : MicaAlloc) (itemSize : UInt32) : Prop :=
  minimumChunk itemSize ≤ lastClassSize ∨ s.freeHead (numClasses - 1) = null ∨
    minimumChunk itemSize ≤ tagSize (load64 s.mem (s.freeHead (numClasses - 1)))

/-- A chunk that is large enough is in one of the classes looked at. -/
theorem classUp_le_classOf (h8 : 8 ∣ n) (hle : n ≤ sz) : classUp n ≤ classOf sz := by
  unfold classUp classOf
  split <;> split <;> simp only [minSize, numClasses, classIncrement] at * <;> omega

/-- In the classes with one size each, all chunks looked at are large enough. -/
theorem le_of_classUp_le (h8 : 8 ∣ n) (hz8 : 8 ∣ sz) (hsmall : n ≤ lastClassSize)
    (hmin : minSize ≤ sz) (h : classUp n ≤ classOf sz) : n ≤ sz := by
  rw [classUp, if_pos (show n ≤ minSize + (numClasses - 1) * classIncrement from hsmall)] at h
  unfold classOf at h
  split at h <;> simp only [lastClassSize, minSize, numClasses, classIncrement] at * <;> omega

theorem classUp_large (hlarge : lastClassSize < n) : classUp n = numClasses - 1 :=
  if_neg (Nat.not_le_of_lt hlarge)

theorem classUp_le (size : Nat) : classUp size ≤ numClasses - 1 := by
  unfold classUp
  split <;> simp only [minSize, numClasses, classIncrement] at * <;> omega

theorem classOf_le (size : Nat) : classOf size ≤ numClasses - 1 := by
  unfold classOf
  split <;> simp only [minSize, numClasses, classIncrement] at * <;> omega

/-- A request for a large chunk looks at the last class only. -/
theorem large_class (hlarge : lastClassSize < n) (h : classUp n ≤ classOf sz) :
    classOf sz = numClasses - 1 := by
  rw [classUp_large hlarge] at h
  exact Nat.le_antisymm (classOf_le sz) h

/-- Without chunks in the classes looked at, no free chunk is large enough. -/
theorem none_large_enough (h : HeapInv s cs fl) (h8 : 8 ∣ n)
    (hnone : ∀ k, classUp n ≤ k → k < numClasses → fl k = []) :
    ¬ ∃ ch ∈ cs, ch.status = .free ∧ n ≤ ch.size := by
  rintro ⟨ch, hm, hfree, hle⟩
  have hlisted : ch.start ∈ fl (classOf ch.size) := (h.members _ _).mpr ⟨ch, hm, rfl, hfree, rfl⟩
  have hlt : classOf ch.size < numClasses := Nat.lt_of_le_of_lt (classOf_le _) (by decide)
  rw [hnone _ (classUp_le_classOf h8 hle) hlt] at hlisted
  cases hlisted

/-- In every state of every run and for every item size, an allocation is served
exactly if the request is small, or no large chunk is free, or the large chunk
freed last is large enough. -/
theorem allocate_served_iff (h : Reachable sessions c) :
    ∃ cs fl, HeapOk c.alloc cs fl ∧ ∀ itemSize : UInt32, itemSize.toNat > 8 →
      (Served c.alloc cs itemSize ↔ HeadFits c.alloc itemSize) := by
  obtain ⟨cs, fl, hinv⟩ := session_inv h
  have hok := hinv.heap
  refine ⟨cs, fl, hok, fun itemSize hi => ?_⟩
  obtain ⟨-, hmax, h8⟩ := minimumChunk_bounds hi
  rcases fromHead_ok hok.inv hmax with ⟨hr, hnone⟩ | ⟨xs, ys, st, sz, rfl, hcl, hhead, hcase⟩
  · -- no chunk in the classes looked at
    have hfail : micaAllocAllocate c.alloc itemSize = .ok (c.alloc, insufficientSpace) := by
      rw [minimumChunk] at hr
      simp [micaAllocAllocate, check, hi, hr, bind, Except.bind, pure, Except.pure]
    have hempty := hnone (numClasses - 1) (classUp_le _) (by decide)
    refine iff_of_true ⟨fun hex => absurd hex (none_large_enough hok.inv h8 hnone),
      fun _ => hfail⟩ (.inr (.inl ?_))
    exact ((hok.inv.listed _).first_null_iff (hok.inv.null_not_mem _)).mpr hempty
  · have hm : (⟨st, sz, .free⟩ : Chunk) ∈ xs ++ ⟨st, sz, .free⟩ :: ys := by simp
    obtain ⟨-, htag, -⟩ := tagged_free hok.inv hm
    obtain ⟨-, -, hmin, hz8⟩ := hok.inv.tiled.mem_bounds hm
    have hnull : st ≠ null := Nat.ne_of_gt (hok.inv.chunk_bounds hm).1
    rcases hcase with ⟨hlt, hr⟩ | ⟨hle, s1, hr, h1, hf1, hd, hz⟩
    · -- the first chunk is too small
      have hfail : micaAllocAllocate c.alloc itemSize = .error .fromHeadSize := by
        rw [minimumChunk] at hr
        simp [micaAllocAllocate, check, hi, hr, bind, Except.bind]
      have hlarge : lastClassSize < minimumChunk itemSize := by
        by_contra hsmall
        exact absurd hlt (Nat.not_lt_of_le
          (le_of_classUp_le h8 hz8 (Nat.le_of_not_lt hsmall) hmin hcl))
      rw [large_class hlarge hcl] at hhead
      refine iff_of_false ?_ ?_
      · rintro ⟨hsome, hnone⟩
        by_cases hex : ∃ ch ∈ xs ++ ⟨st, sz, .free⟩ :: ys,
            ch.status = .free ∧ minimumChunk itemSize ≤ ch.size
        · obtain ⟨s', off, hr', -⟩ := hsome hex
          cases hfail.symm.trans hr'
        · cases hfail.symm.trans (hnone hex)
      · unfold HeadFits
        rw [← hhead, htag]
        rintro (hsmall | hnull' | hfit)
        · omega
        · exact hnull hnull'
        · omega
    · -- the first chunk is large enough
      obtain ⟨s', ds, sz', hr', hall⟩ := carve_ok hok hi hle hr h1 hf1 hd hz
      obtain ⟨fl', hok'⟩ := hall.listed
      have hoff := offset_ne_insufficientSpace hok'.inv ((hall.occupied _ rfl).mpr (.inl rfl))
      rw [hall.sameData] at hoff
      refine iff_of_true ⟨fun _ => ⟨s', _, hr', hoff⟩, fun hnex => absurd ⟨_, hm, rfl, hle⟩ hnex⟩ ?_
      by_cases hsmall : minimumChunk itemSize ≤ lastClassSize
      · exact .inl hsmall
      · rw [large_class (Nat.lt_of_not_le hsmall) hcl] at hhead
        refine .inr (.inr ?_)
        rw [← hhead, htag]
        exact hle

/-- A chunk of 1216 bytes, freed while the rest of the heap is one large chunk. -/
def free1216 : List Call := [.allocate 1200, .allocate 16, .deallocate 8]

/-- Whether a request is large and the first chunk of the last class is large enough. -/
def fitsLast (itemSize : UInt32) (c : Session) : Bool :=
  decide (lastClassSize < minimumChunk itemSize) &&
    decide (c.alloc.freeHead (numClasses - 1) ≠ null) &&
    decide (minimumChunk itemSize ≤
      tagSize (load64 c.alloc.mem (c.alloc.freeHead (numClasses - 1))))

theorem allocate_served_large : ∃ (c : Session) (cs : List Chunk) (fl : Nat → List Nat),
    Reachable sessions c ∧ HeapOk c.alloc cs fl ∧ lastClassSize < minimumChunk 1000 ∧
    c.alloc.freeHead (numClasses - 1) ≠ null ∧ Served c.alloc cs 1000 := by
  obtain ⟨c, hc, hp⟩ := reachable_replay free1216 (fitsLast 1000) (by decide +kernel)
  simp only [fitsLast, Bool.and_eq_true, decide_eq_true_eq] at hp
  obtain ⟨⟨hlarge, hnull⟩, hfits⟩ := hp
  obtain ⟨cs, fl, hok, hiff⟩ := allocate_served_iff hc
  exact ⟨c, cs, fl, hc, hok, hlarge, hnull, (hiff 1000 (by decide)).mpr (.inr (.inr hfits))⟩

/-- A chunk of 288 bytes, freed while the rest of the heap is one large chunk. -/
def free288 : List Call := [.allocate 272, .allocate 16, .deallocate 8]

def abortsAt (itemSize : UInt32) (c : Session) : Bool :=
  match micaAllocAllocate c.alloc itemSize with
  | .ok _ => false
  | .error a => a == .fromHeadSize

/-- With that chunk first in the last class, an allocation of 1000 bytes aborts
although almost 2 MB are free. -/
theorem allocate_aborts :
    (replay free288).any (abortsAt 1000) = true ∧
    ¬ ∀ c, Reachable sessions c → ∀ cs fl, HeapOk c.alloc cs fl →
      ∀ itemSize : UInt32, itemSize.toNat > 8 → Served c.alloc cs itemSize := by
  have hrun : (replay free288).any (abortsAt 1000) = true := by decide +kernel
  refine ⟨hrun, fun hall => ?_⟩
  obtain ⟨c, hc, hp⟩ := reachable_replay _ _ hrun
  obtain ⟨cs, fl, hinv⟩ := session_inv hc
  obtain ⟨hsome, hnone⟩ := hall c hc cs fl hinv.heap 1000 (by decide)
  unfold abortsAt at hp
  split at hp
  case h_1 => cases hp
  case h_2 a hr =>
    by_cases hex : ∃ ch ∈ cs, ch.status = .free ∧ minimumChunk 1000 ≤ ch.size
    · obtain ⟨s', off, hr', -⟩ := hsome hex
      cases hr.symm.trans hr'
    · cases hr.symm.trans (hnone hex)

end RdmaBench.Alloc.Allocate
