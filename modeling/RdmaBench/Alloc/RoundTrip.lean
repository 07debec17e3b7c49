import RdmaBench.Alloc.BestFit

/-! # An allocation undone

`mica_alloc_allocate` takes the head of a list, and pushes what it cuts off on
another one. `mica_alloc_deallocate` of the new offset finds that rest free to
the right, takes it off its list and pushes the whole chunk where it came from.
So the heap is as before: the chunks with their tags, the heads of the free
lists and the links of all free chunks. -/

namespace RdmaBench.Alloc.RoundTrip
open RdmaBench.Lib.Asserts RdmaBench.Lib.ByteMem RdmaBench.Lib.Links RdmaBench.Lib.Runs
open RdmaBench.Alloc.Model RdmaBench.Alloc.Heap RdmaBench.Alloc.FreeLists RdmaBench.Alloc.Ops
open RdmaBench.Alloc.Sessions RdmaBench.Alloc.Allocate RdmaBench.Alloc.BestFit

variable {s s' s1 s2 : MicaAlloc} {cs ds xs ys : List Chunk} {fl fl' : Nat → List Nat}
variable {itemSize : UInt32} {c c' : Session} {off st size sz : Nat}

/-! ## One reading of a heap -/

/-- A chunk as its own tag describes it. -/
def Described (m : Mem) (d : Chunk) : Prop := d.status ≠ .hole ∧ d.Tagged m ∧ d.size < 2 ^ 63

theorem Described.word {m : Mem} {d : Chunk} (h : Described m d) :
    tagSize (load64 m d.start) = d.size ∧
      (tagStatus (load64 m d.start) = free ↔ d.status = .free) := by
  obtain ⟨start, size, status⟩ := d
  obtain ⟨hhole, htag, hlt⟩ := h
  cases status with
  | hole => exact absurd rfl hhole
  | free =>
    rw [htag.1, tagSize_tagVec hlt, tagStatus_tagVec hlt]
    simp
  | occupied =>
    rw [htag.1, tagSize_tagVec hlt, tagStatus_tagVec hlt]
    simp [occupied, free]

/-- The tag at its start gives the size and the status of a chunk. -/
theorem Described.unique {m : Mem} {d e : Chunk} (hd : Described m d) (he : Described m e)
    (hstart : d.start = e.start) : d = e := by
  have hwd := hd.word
  rw [hstart] at hwd
  have hsize : d.size = e.size := hwd.1.symm.trans he.word.1
  have hstatus : d.status = .free ↔ e.status = .free := hwd.2.symm.trans he.word.2
  have hdh := hd.1
  have heh := he.1
  obtain ⟨dst, dsz, dstatus⟩ := d
  obtain ⟨est, esz, estatus⟩ := e
  cases hstart
  cases hsize
  cases dstatus <;> cases estatus <;> simp_all

/-- A memory is tiled by tagged chunks in one way. -/
theorem tiled_unique {a b : Nat} {m : Mem} (h : Tiled a cs b) (h' : Tiled a ds b)
    (ht : ∀ d ∈ cs, Described m d) (ht' : ∀ d ∈ ds, Described m d) : cs = ds := by
  induction cs generalizing a ds with
  | nil =>
    cases ds with
    | nil => rfl
    | cons e ds =>
      obtain ⟨-, hmin, -, hrest⟩ := h'
      have hle := hrest.le
      simp only [Tiled, minSize] at h hmin
      omega
  | cons d cs ih =>
    obtain ⟨hstart, hmin, -, hrest⟩ := h
    cases ds with
    | nil =>
      have hle := hrest.le
      simp only [Tiled, minSize] at h' hmin
      omega
    | cons e ds =>
      obtain ⟨hstart', -, -, hrest'⟩ := h'
      obtain rfl := (ht d (by simp)).unique (ht' e (by simp)) (hstart.trans hstart'.symm)
      rw [ih hrest hrest' (fun x hx => ht x (List.mem_cons_of_mem _ hx))
        (fun x hx => ht' x (List.mem_cons_of_mem _ hx))]

/-- A heap is read in one way. -/
theorem heapOk_unique (h : HeapOk s cs fl) (h' : HeapOk s ds fl') : cs = ds ∧ fl = fl' := by
  refine ⟨tiled_unique h.inv.tiled h'.inv.tiled
    (fun d hd => ⟨h.noHole d hd, h.inv.tagged d hd, tag_lt h.inv hd⟩)
    (fun d hd => ⟨h'.noHole d hd, h'.inv.tagged d hd, tag_lt h'.inv hd⟩), ?_⟩
  funext k
  exact (h.inv.listed k).unique (h'.inv.listed k) (h.inv.null_not_mem k) (h'.inv.null_not_mem k)

/-- Two allocators with the same structure: the same heap, heads, tags and links. -/
structure SameStructure (s s' : MicaAlloc) (cs : List Chunk) : Prop where
  data : s'.data = s.data
  size : s'.size = s.size
  freeHead : s'.freeHead = s.freeHead
  tags : ∀ ch ∈ cs, load64 s'.mem ch.start = load64 s.mem ch.start ∧
    load64 s'.mem (ch.start + ch.size - 8) = load64 s.mem (ch.start + ch.size - 8)
  links : ∀ ch ∈ cs, ch.status = .free →
    load64 s'.mem (ch.start + 8) = load64 s.mem (ch.start + 8) ∧
    load64 s'.mem (ch.start + 16) = load64 s.mem (ch.start + 16)

/-- Heaps that are read as the same chunks and lists have the same structure. -/
theorem sameStructure (h : HeapOk s cs fl) (h' : HeapOk s' cs fl) (hdata : s'.data = s.data)
    (hsize : s'.size = s.size) : SameStructure s s' cs := by
  have hsame := fun k => (h.inv.listed k).same (h'.inv.listed k) (h.inv.null_not_mem k)
  refine ⟨hdata, hsize, ?_, ?_, ?_⟩
  · funext k
    have hfirst := (hsame k).1
    rwa [succ_null, succ_null] at hfirst
  · intro ch hc
    have ht := h.inv.tagged ch hc
    have ht' := h'.inv.tagged ch hc
    have hhole := h.noHole ch hc
    obtain ⟨start, size, status⟩ := ch
    cases status with
    | hole => exact absurd rfl hhole
    | free => exact ⟨ht'.1.trans ht.1.symm, ht'.2.trans ht.2.symm⟩
    | occupied => exact ⟨ht'.1.trans ht.1.symm, ht'.2.trans ht.2.symm⟩
  · intro ch hc hf
    have hm : ch.start ∈ fl (classOf ch.size) := (h.inv.members _ _).mpr ⟨ch, hc, rfl, hf, rfl⟩
    obtain ⟨hnxt, hprv⟩ := (hsame _).2 _ hm
    exact ⟨hprv, hnxt⟩

/-! ## Free lists: one push or one removal undone by the other -/

theorem erase_push (k x : Nat) :
    Function.update (Function.update fl k (x :: fl k)) k
      ((Function.update fl k (x :: fl k) k).erase x) = fl := by
  rw [Function.update_idem, Function.update_self, List.erase_cons_head, Function.update_eq_self]

theorem push_erase {k x : Nat} {rest : List Nat} (h : fl k = x :: rest) :
    Function.update (Function.update fl k ((fl k).erase x)) k
      (x :: Function.update fl k ((fl k).erase x) k) = fl := by
  rw [Function.update_idem, Function.update_self, h, List.erase_cons_head, ← h,
    Function.update_eq_self]

/-! ## Freeing a chunk between occupied ones -/

/-- The neighbours of a free chunk are occupied. -/
theorem free_neighbours (h : HeapOk s (xs ++ ⟨st, sz, .free⟩ :: ys) fl) :
    (∀ d ∈ xs.getLast?, d.status = .occupied) ∧ ∀ d ∈ ys.head?, d.status = .occupied := by
  obtain ⟨-, hcy, hleft⟩ := List.isChain_append.mp h.coalesced
  obtain ⟨hright, -⟩ := List.isChain_cons.mp hcy
  constructor
  · intro d hd
    have hm : d ∈ xs := List.mem_of_getLast? hd
    rcases status_cases (h.noHole d (by simp [hm])) with he | he
    · exact absurd ⟨congrArg Chunk.status he, rfl⟩ (hleft d hd _ rfl)
    · exact congrArg Chunk.status he
  · intro d hd
    have hm : d ∈ ys := List.mem_of_head? hd
    rcases status_cases (h.noHole d (by simp [hm])) with he | he
    · exact absurd ⟨rfl, congrArg Chunk.status he⟩ (hright d hd)
    · exact congrArg Chunk.status he

theorem coalesceLeft_stays (h : HeapInv s (xs ++ ⟨st, sz, .hole⟩ :: ys) fl)
    (hx : ∀ d ∈ xs.getLast?, d.status = .occupied) :
    micaAllocCoaleseFreeChunkLeft s st sz = .ok (s, st, sz) := by
  rcases List.eq_nil_or_concat xs with rfl | ⟨xs', l, rfl⟩
  · exact coalesceLeft_first h
  · obtain ⟨lst, lsz, status⟩ := l
    obtain rfl : status = .occupied := hx ⟨lst, lsz, status⟩ (by simp)
    exact coalesceLeft_occupied (by simpa using h)

theorem coalesceRight_stays (h : HeapInv s (xs ++ ⟨st, sz, .hole⟩ :: ys) fl)
    (hy : ∀ d ∈ ys.head?, d.status = .occupied) :
    micaAllocCoaleseFreeChunkRight s st sz = .ok (s, st, sz) := by
  cases ys with
  | nil => exact coalesceRight_last h
  | cons r ys =>
    obtain ⟨rst, rsz, status⟩ := r
    obtain rfl : status = .occupied := hy ⟨rst, rsz, status⟩ rfl
    exact coalesceRight_occupied h

/-- `mica_alloc_deallocate` from its three parts. -/
theorem deallocate_parts {st1 sz1 st2 sz2 : Nat}
    (h : HeapInv s (xs ++ ⟨st, sz, .occupied⟩ :: ys) fl)
    (hleft : micaAllocCoaleseFreeChunkLeft s st sz = .ok (s1, st1, sz1))
    (hright : micaAllocCoaleseFreeChunkRight s1 st1 sz1 = .ok (s2, st2, sz2))
    (hinsert : micaAllocInsertFreeChunk s2 st2 sz2 = .ok s') :
    micaAllocDeallocate s (st + 8 - s.data) = .ok s' := by
  have hm : (⟨st, sz, .occupied⟩ : Chunk) ∈ xs ++ ⟨st, sz, .occupied⟩ :: ys := by simp
  have hlow : s.data ≤ st := (h.tiled.mem_bounds hm).1
  have hstart : s.data + (st + 8 - s.data) - 8 = st := by omega
  obtain ⟨htag, hsize, -⟩ := tagged_occupied h hm
  simp [micaAllocDeallocate, micaAllocGetItem, hstart, htag, hsize, check, hleft, hright, hinsert,
    bind, Except.bind]

/-- A chunk whose neighbours are occupied becomes the head of its class. -/
theorem deallocate_whole (h : HeapInv s (xs ++ ⟨st, sz, .occupied⟩ :: ys) fl)
    (hx : ∀ d ∈ xs.getLast?, d.status = .occupied)
    (hy : ∀ d ∈ ys.head?, d.status = .occupied) :
    ∃ s', micaAllocDeallocate s (st + 8 - s.data) = .ok s' ∧
      HeapInv s' (xs ++ ⟨st, sz, .free⟩ :: ys)
        (Function.update fl (classOf sz) (st :: fl (classOf sz))) ∧
      s'.data = s.data ∧ s'.size = s.size := by
  have hopen := h.openChunk
  obtain ⟨s', hinsert, hinv, -, hd, hz⟩ := insert_ok hopen
  exact ⟨s', deallocate_parts h (coalesceLeft_stays hopen hx) (coalesceRight_stays hopen hy)
    hinsert, hinv, hd, hz⟩

/-- With a free chunk to the right, both become one at the head of its class. -/
theorem deallocate_rest {rst rsz : Nat}
    (h : HeapInv s (xs ++ ⟨st, sz, .occupied⟩ :: ⟨rst, rsz, .free⟩ :: ys) fl)
    (hx : ∀ d ∈ xs.getLast?, d.status = .occupied)
    (hfl : fl' = Function.update fl (classOf rsz) ((fl (classOf rsz)).erase rst)) :
    ∃ s', micaAllocDeallocate s (st + 8 - s.data) = .ok s' ∧
      HeapInv s' (xs ++ ⟨st, sz + rsz, .free⟩ :: ys)
        (Function.update fl' (classOf (sz + rsz)) (st :: fl' (classOf (sz + rsz)))) ∧
      s'.data = s.data ∧ s'.size = s.size := by
  have hopen := h.openChunk
  obtain ⟨s1, hright, hinv1, -, hd1, hz1⟩ := coalesceRight_free hopen
  rw [← hfl] at hinv1
  obtain ⟨s', hinsert, hinv, -, hd, hz⟩ := insert_ok hinv1
  exact ⟨s', deallocate_parts h (coalesceLeft_stays hopen hx) hright hinsert, hinv, hd.trans hd1,
    hz.trans hz1⟩

/-! ## Allocation, with the lists it leaves -/

/-- The heap after an allocation, whole or split. -/
def Allotted (s' : MicaAlloc) (xs ys : List Chunk) (fl : Nat → List Nat) (st size n : Nat) : Prop :=
  HeapOk s' (xs ++ ⟨st, size, .occupied⟩ :: ys) fl ∨
    ∃ rest, size = n + rest ∧
      HeapOk s' (xs ++ ⟨st, n, .occupied⟩ :: ⟨st + n, rest, .free⟩ :: ys)
        (Function.update fl (classOf rest) ((st + n) :: fl (classOf rest)))

theorem Allotted.mono {n : Nat} (h : Allotted s xs ys fl st size n)
    (hall : ∀ ds fl', HeapOk s ds fl' → HeapOk s' ds fl') : Allotted s' xs ys fl st size n := by
  rcases h with hok | ⟨rest, hsize, hok⟩
  · exact .inl (hall _ _ hok)
  · exact .inr ⟨rest, hsize, hall _ _ hok⟩

theorem steps_heap (h : HeapOk s (xs ++ ⟨st, size, .free⟩ :: ys) fl) (hi : itemSize.toNat > 8)
    (hs : Steps s itemSize s' st size s1 s2) :
    Allotted s' xs ys (Function.update fl (classOf size) ((fl (classOf size)).erase st)) st size
      (minimumChunk itemSize) ∧ s'.data = s.data ∧ s'.size = s.size := by
  obtain ⟨hmin, -, h8⟩ := minimumChunk_bounds hi
  have hlt : itemSize.toNat < 2 ^ 64 := by
    have := itemSize.toNat_lt
    omega
  obtain ⟨t, hremove, hinv1, -, hd1, hz1⟩ := remove_ok h.inv
  cases hremove.symm.trans hs.remove
  rcases hs.rest with ⟨hleft, hinsert⟩ | ⟨hleft, rfl⟩
  · obtain ⟨rest, rfl⟩ := Nat.exists_eq_add_of_le hs.enough
    rw [Nat.add_sub_cancel_left] at hleft hinsert
    obtain ⟨t, hr, hok, -, -, hd2, hz2⟩ := carve_rest h hinv1 hmin hleft h8 hlt
    cases hr.symm.trans hinsert
    have hcarved : carvedSize (minimumChunk itemSize + rest) (minimumChunk itemSize) =
        minimumChunk itemSize := if_pos (by rwa [Nat.add_sub_cancel_left])
    rw [hs.occupy, hcarved]
    exact ⟨.inr ⟨rest, rfl, hok⟩, hd2.trans hd1, hz2.trans hz1⟩
  · have hcarved : carvedSize size (minimumChunk itemSize) = size := if_neg hleft
    rw [hs.occupy, hcarved]
    exact ⟨.inl (carve_whole h hinv1 hlt).1, hd1, hz1⟩

/-- Freeing what was allotted brings back the chunk and its place in its list. -/
theorem allotted_freed {n k : Nat} {rest : List Nat}
    (h : HeapOk s (xs ++ ⟨st, size, .free⟩ :: ys) fl) (hk : k = classOf size)
    (hhead : fl k = st :: rest)
    (ha : Allotted s' xs ys (Function.update fl k ((fl k).erase st)) st size n) :
    ∃ t, micaAllocDeallocate s' (st + 8 - s'.data) = .ok t ∧
      HeapOk t (xs ++ ⟨st, size, .free⟩ :: ys) fl ∧ t.data = s'.data ∧ t.size = s'.size := by
  subst hk
  obtain ⟨hx, hy⟩ := free_neighbours h
  rcases ha with hok | ⟨rest, rfl, hok⟩
  · obtain ⟨t, hr, hinv, hd, hz⟩ := deallocate_whole hok.inv hx hy
    rw [push_erase hhead] at hinv
    exact ⟨t, hr, ⟨hinv, h.noHole, h.coalesced⟩, hd, hz⟩
  · obtain ⟨t, hr, hinv, hd, hz⟩ := deallocate_rest hok.inv hx (erase_push _ _).symm
    rw [push_erase hhead] at hinv
    exact ⟨t, hr, ⟨hinv, h.noHole, h.coalesced⟩, hd, hz⟩

/-! ## With the client's writes in between -/

/-- Some writes of the client, to any of its chunks. -/
def Writes : Session → Session → Prop :=
  Relation.ReflTransGen fun a b => ∃ addr src len, sessions.step a (.write addr src len) b

theorem writes_heap (h : SessionInv c cs fl) (hw : Writes c c') :
    SessionInv c' cs fl ∧ c'.alloc.data = c.alloc.data ∧ c'.alloc.size = c.alloc.size := by
  induction hw with
  | refl => exact ⟨h, rfl, rfl⟩
  | tail _ hstep ih =>
    obtain ⟨addr, src, len, hallowed, hp⟩ := hstep
    obtain ⟨d, hr, hperf⟩ := perform_write ih.1 hallowed
    cases hr.symm.trans hp
    cases hr
    exact ⟨hperf.inv, ih.2⟩

/-- In every state of every run: when an allocation has given an offset and the
client has written to its chunks, giving the offset back succeeds and leaves the
heap as it was before the allocation. -/
theorem allocate_deallocate (h : Reachable sessions c)
    (hr : micaAllocAllocate c.alloc itemSize = .ok (s', off)) (hoff : off ≠ insufficientSpace)
    (hw : Writes ⟨s', off :: c.live⟩ c') :
    ∃ cs fl t, HeapOk c.alloc cs fl ∧ micaAllocDeallocate c'.alloc off = .ok t ∧
      HeapOk t cs fl ∧ SameStructure c.alloc t cs := by
  obtain ⟨cs, fl, hinv⟩ := session_inv h
  obtain ⟨hi, -⟩ := check_bind hr
  have hp : perform c (.allocate itemSize) = .ok ⟨s', off :: c.live⟩ := by
    simp [perform, hr, hoff, bind, Except.bind, pure, Except.pure]
  obtain ⟨ds, fl', hperf⟩ := perform_allocate hinv hp
  obtain ⟨hinv', hd', hz'⟩ := writes_heap hperf.inv hw
  -- the writes leave the heap that the allocation made
  have hkept : ∀ es fl'', HeapOk s' es fl'' → HeapOk c'.alloc es fl'' := by
    intro es fl'' hok
    obtain ⟨rfl, rfl⟩ := heapOk_unique hperf.inv.heap hok
    exact hinv'.heap
  obtain ⟨st, size, s1, s2, hs, rfl⟩ := allocate_steps hr hoff
  obtain ⟨-, hst, h0⟩ := taken_head hinv.heap.inv hs.taken
  obtain ⟨rest, hhead⟩ := (hinv.heap.inv.listed (classOf size)).first_cons h0
  obtain ⟨xs, ys, rfl⟩ := List.append_of_mem (taken_mem hinv.heap.inv hs.taken)
  obtain ⟨ha, hd, hz⟩ := steps_heap hinv.heap hi hs
  have hhead' : fl (classOf size) = st :: rest := by
    rw [hhead, hst]
    rfl
  obtain ⟨t, hfree, hok, hdt, hzt⟩ := allotted_freed hinv.heap rfl hhead' (ha.mono hkept)
  refine ⟨_, fl, t, hinv.heap, ?_, hok,
    sameStructure hinv.heap hok (hdt.trans (hd'.trans hd)) (hzt.trans (hz'.trans hz))⟩
  rw [← hfree, hd']

/-- The first item of a fresh heap, given back without a write. -/
theorem allocate_deallocate_fresh : ∃ (c : Session) (s' t : MicaAlloc) (off : Nat),
    Reachable sessions c ∧ micaAllocAllocate c.alloc 16 = .ok (s', off) ∧
    micaAllocDeallocate s' off = .ok t ∧ t.freeHead = c.alloc.freeHead := by
  obtain ⟨c, hc, hp⟩ := reachable_replay [] (hitsTag 16 8) (by decide +kernel)
  unfold hitsTag at hp
  split at hp
  case h_1 s' off hr =>
    simp only [Bool.and_eq_true, decide_eq_true_eq] at hp
    obtain ⟨cs, fl, t, -, hfree, -, hsame⟩ := allocate_deallocate hc hr hp.1 .refl
    exact ⟨c, s', t, off, hc, hr, hfree, hsame.freeHead⟩
  case h_2 => cases hp

end RdmaBench.Alloc.RoundTrip
