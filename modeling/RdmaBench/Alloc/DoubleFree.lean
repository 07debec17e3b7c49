import RdmaBench.Alloc.Allocate
import RdmaBench.Alloc.Recovery

/-! # Freeing an item twice

`mica_alloc_deallocate` checks the status bit of the chunk header it is given,
and an offset that was freed before is noticed only if that bit is clear. Every
word the allocator writes for free chunks has it clear. The bit is set again by
three things: a chunk merged into its left neighbour keeps its old header, the
tag at the end of a new chunk may be written over an old header, and so may the
data of a client. -/

namespace RdmaBench.Alloc.DoubleFree
open RdmaBench.Lib.Asserts RdmaBench.Lib.ByteMem RdmaBench.Lib.Links RdmaBench.Lib.Runs
open RdmaBench.Alloc.Model RdmaBench.Alloc.Heap RdmaBench.Alloc.FreeLists RdmaBench.Alloc.Ops
open RdmaBench.Alloc.Sessions RdmaBench.Alloc.Allocate RdmaBench.Alloc.Recovery

/-! ## The check -/

/-- The status bit of the word at `h` is clear. -/
def Clear (m : Mem) (h : Nat) : Prop := load64 m h < 2 ^ 63

theorem not_clear_iff {m : Mem} {h : Nat} :
    ¬ Clear m h ↔ tagStatus (load64 m h) = occupied := by
  have hlt := load64_lt m h
  rw [Clear, tagStatus, occupied, Nat.shiftRight_eq_div_pow]
  omega

theorem clear_tagVec_free {m : Mem} {h size : Nat} (hw : load64 m h = tagVec size free)
    (hs : size < 2 ^ 63) : Clear m h := by
  rw [Clear, hw, tagVec_free]
  exact hs

/-- A computation that never stops at the check of `mica_alloc_deallocate`. -/
def NoStatus {α : Type} (x : Except Assert α) : Prop := x ≠ .error .deallocateStatus

theorem NoStatus.bind {α β : Type} {x : Except Assert α} {f : α → Except Assert β}
    (hx : NoStatus x) (hf : ∀ a, NoStatus (f a)) : NoStatus (x >>= f) := by
  cases x with
  | error e =>
    intro h
    exact hx (congrArg Except.error (Except.error.inj h))
  | ok a => exact hf a

theorem noStatus_ok {α : Type} (a : α) : NoStatus (.ok a : Except Assert α) := by
  intro h
  cases h

theorem noStatus_check {p : Prop} [Decidable p] {a : Assert} (h : a ≠ .deallocateStatus) :
    NoStatus (check p a) := by
  unfold check
  split
  · exact noStatus_ok ()
  · exact fun heq => h (Except.error.inj heq)

theorem noStatus_rounddown (size : Nat) : NoStatus (micaAllocSizeToClassRounddown size) := by
  unfold micaAllocSizeToClassRounddown
  refine (noStatus_check (by decide)).bind fun _ => (noStatus_check (by decide)).bind fun _ => ?_
  split <;> exact noStatus_ok _

theorem noStatus_insert (s : MicaAlloc) (st sz : Nat) :
    NoStatus (micaAllocInsertFreeChunk s st sz) := by
  unfold micaAllocInsertFreeChunk
  refine (noStatus_rounddown sz).bind fun k => ?_
  simp only
  split
  · exact (noStatus_check (by decide)).bind fun _ => noStatus_ok _
  · exact noStatus_ok _

theorem noStatus_remove (s : MicaAlloc) (st sz : Nat) :
    NoStatus (micaAllocRemoveFreeChunkFromFreeList s st sz) := by
  unfold micaAllocRemoveFreeChunkFromFreeList
  simp only
  split
  · refine (noStatus_ok _).bind fun s' => ?_
    split <;> exact noStatus_ok _
  · refine (noStatus_rounddown sz).bind fun k => (noStatus_check (by decide)).bind fun _ => ?_
    refine (noStatus_ok _).bind fun s' => ?_
    split <;> exact noStatus_ok _

/-- Both ways to coalesce: there is nothing to do at the end of the heap and next to an
occupied chunk, and otherwise the neighbour is taken off its list. -/
theorem noStatus_coalesce {α : Type} {atEnd inside busy tags : Prop} [Decidable atEnd]
    [Decidable inside] [Decidable busy] [Decidable tags] {a b : Assert}
    (ha : a ≠ .deallocateStatus) (hb : b ≠ .deallocateStatus) (x : α) (s : MicaAlloc) (st sz : Nat)
    (f : MicaAlloc → α) :
    NoStatus (if atEnd then .ok x
      else check inside a >>= fun _ => if busy then .ok x
      else check tags b >>= fun _ => micaAllocRemoveFreeChunkFromFreeList s st sz >>= fun s =>
        .ok (f s)) := by
  split
  · exact noStatus_ok _
  · refine (noStatus_check ha).bind fun _ => ?_
    split
    · exact noStatus_ok _
    · refine (noStatus_check hb).bind fun _ => ?_
      exact (noStatus_remove s _ _).bind fun _ => noStatus_ok _

theorem noStatus_left (s : MicaAlloc) (st sz : Nat) :
    NoStatus (micaAllocCoaleseFreeChunkLeft s st sz) :=
  noStatus_coalesce (by decide) (by decide) _ s _ _ fun s => (s, _, _)

theorem noStatus_right (s : MicaAlloc) (st sz : Nat) :
    NoStatus (micaAllocCoaleseFreeChunkRight s st sz) :=
  noStatus_coalesce (by decide) (by decide) _ s _ _ fun s => (s, _, _)

/-- The check of `mica_alloc_deallocate` stops exactly the headers with a clear
status bit. -/
theorem deallocate_stops_iff {s : MicaAlloc} {off : Nat} :
    micaAllocDeallocate s off = .error .deallocateStatus ↔ Clear s.mem (s.data + off - 8) := by
  show _ ↔ Clear s.mem (micaAllocGetItem s off - 8)
  by_cases hocc : tagStatus (load64 s.mem (micaAllocGetItem s off - 8)) = occupied
  · have hcheck : check (tagStatus (load64 s.mem (micaAllocGetItem s off - 8)) = occupied)
        Assert.deallocateStatus = .ok () := if_pos hocc
    simp only [micaAllocDeallocate, hcheck]
    refine iff_of_false ?_ (not_clear_iff.mpr hocc)
    refine (noStatus_left _ _ _).bind fun r => (noStatus_right _ _ _).bind fun r' => ?_
    exact noStatus_insert _ _ _
  · have hcheck : check (tagStatus (load64 s.mem (micaAllocGetItem s off - 8)) = occupied)
        Assert.deallocateStatus = .error .deallocateStatus := if_neg hocc
    simp only [micaAllocDeallocate, hcheck]
    exact iff_of_true rfl (not_not.mp fun h => hocc (not_clear_iff.mp h))

/-! ## Words that stay clear -/

/-- From `m` to `m'`, the words at `d` and multiples of 8 from there keep a clear
status bit, and those outside `W` keep their value. -/
structure Quiet (d : Nat) (W : Nat → Prop) (m m' : Mem) : Prop where
  clear : ∀ h, h % 8 = d % 8 → Clear m h → Clear m' h
  same : ∀ h, h % 8 = d % 8 → ¬ W h → load64 m' h = load64 m h

variable {d a v k p q : Nat} {W : Nat → Prop} {m m' m'' : Mem}
variable {s s' : MicaAlloc} {cs xs ys : List Chunk} {fl : Nat → List Nat} {st sz : Nat}

theorem Quiet.refl : Quiet d W m m := ⟨fun _ _ hc => hc, fun _ _ _ => rfl⟩

theorem Quiet.trans (h : Quiet d W m m') (h' : Quiet d W m' m'') : Quiet d W m m'' :=
  ⟨fun x hx hc => h'.clear x hx (h.clear x hx hc),
    fun x hx hW => (h'.same x hx hW).trans (h.same x hx hW)⟩

/-- Storing a word with a clear status bit. -/
theorem Quiet.store (ha : a % 8 = d % 8) (hv : v < 2 ^ 63) (hW : W a) :
    Quiet d W m (store64 m a v) := by
  -- words of the grid are equal or apart
  have hother : ∀ h, h % 8 = d % 8 → h ≠ a → load64 (store64 m a v) h = load64 m h := by
    intro h hh hne
    exact load64_store64_disjoint (by omega)
  constructor
  · intro h hh hc
    by_cases heq : h = a
    · subst heq
      rw [Clear, load64_store64_same (by omega)]
      exact hv
    · rw [Clear, hother h hh heq]
      exact hc
  · intro h hh hnW
    exact hother h hh fun heq => hnW (heq ▸ hW)

theorem setNext_quiet (hp : p ≠ null → (p + 16) % 8 = d % 8 ∧ W (p + 16)) (hv : v < 2 ^ 63) :
    Quiet d W s.mem (setNext s k p v).mem := by
  unfold setNext
  split
  · rename_i h0
    exact Quiet.store (hp h0).1 hv (hp h0).2
  · exact Quiet.refl

theorem setPrev_quiet (hq : q ≠ null → (q + 8) % 8 = d % 8 ∧ W (q + 8)) (hv : v < 2 ^ 63) :
    Quiet d W s.mem (setPrev s q v).mem := by
  unfold setPrev
  split
  · rename_i h0
    exact Quiet.store (hq h0).1 hv (hq h0).2
  · exact Quiet.refl

/-! ## Operations on free chunks -/

/-- Chunks start at multiples of 8 from the start of the heap. -/
theorem tiled_aligned {a b : Nat} (h : Tiled a cs b) {c : Chunk} (hc : c ∈ cs) :
    c.start % 8 = a % 8 := by
  induction cs generalizing a with
  | nil => cases hc
  | cons e cs ih =>
    obtain ⟨hs, -, h8, htail⟩ := h
    rcases List.mem_cons.mp hc with rfl | hc
    · rw [hs]
    · rw [ih htail hc]
      omega

/-- The link words of free chunks may be written. -/
def Links (W : Nat → Prop) (cs : List Chunk) : Prop :=
  ∀ c ∈ cs, c.status = .free → W (c.start + 8) ∧ W (c.start + 16)

/-- The heap lies in the lower half of the address space, as that of every user
process does. -/
def LowHeap (s : MicaAlloc) : Prop := s.data + s.size ≤ 2 ^ 63

/-- A node of a list: its address has a clear top bit, and its link words are on
the grid and may be written. -/
theorem node_quiet (h : HeapInv s cs fl) (hlow : LowHeap s) (hW : Links W cs) {x : Nat}
    (hx : x ∈ fl k) :
    x < 2 ^ 63 ∧ ((x + 8) % 8 = s.data % 8 ∧ W (x + 8)) ∧
      ((x + 16) % 8 = s.data % 8 ∧ W (x + 16)) := by
  obtain ⟨c, hc, rfl, hfree, -⟩ := (h.members k x).mp hx
  obtain ⟨-, hu, hmin, -⟩ := h.tiled.mem_bounds hc
  have hgrid := tiled_aligned h.tiled hc
  obtain ⟨hw8, hw16⟩ := hW c hc hfree
  simp only [LowHeap, minSize] at hlow hmin
  exact ⟨by omega, ⟨by omega, hw8⟩, by omega, hw16⟩

/-- Null, or a node. -/
theorem node_lt (h : HeapInv s cs fl) (hlow : LowHeap s) (hW : Links W cs) {x : Nat}
    (hx : x ≠ null → x ∈ fl k) : x < 2 ^ 63 := by
  by_cases h0 : x = null
  · rw [h0, null]
    norm_num
  · exact (node_quiet h hlow hW (hx h0)).1

theorem remove_quiet (h : HeapInv s cs fl) (hlow : LowHeap s) (hW : Links W cs)
    (hc : ⟨st, sz, .free⟩ ∈ cs) (hr : micaAllocRemoveFreeChunkFromFreeList s st sz = .ok s') :
    Quiet s.data W s.mem s'.mem := by
  cases (remove_eq h hc rfl).symm.trans hr
  have hm : st ∈ fl (classOf sz) := (h.members _ _).mpr ⟨_, hc, rfl, rfl, rfl⟩
  obtain ⟨hp, hq⟩ := neighbours h hm
  refine (setNext_quiet (fun h0 => ?_) (node_lt h hlow hW hq)).trans
    (setPrev_quiet (fun h0 => ?_) (node_lt h hlow hW hp))
  · exact (node_quiet h hlow hW (hp h0)).2.2
  · exact (node_quiet h hlow hW (hq h0)).2.1

theorem insert_quiet (h : HeapInv s (xs ++ ⟨st, sz, .hole⟩ :: ys) fl) (hlow : LowHeap s)
    (hW : Links W (xs ++ ⟨st, sz, .hole⟩ :: ys))
    (hst : W st ∧ W (st + 8) ∧ W (st + 16) ∧ W (st + sz - 8))
    (hr : micaAllocInsertFreeChunk s st sz = .ok s') : Quiet s.data W s.mem s'.mem := by
  have hc : (⟨st, sz, .hole⟩ : Chunk) ∈ xs ++ ⟨st, sz, .hole⟩ :: ys := by simp
  obtain ⟨-, hu, hmin, h8⟩ := h.tiled.mem_bounds hc
  have hgrid : st % 8 = s.data % 8 := tiled_aligned h.tiled hc
  have hsz := tag_lt h hc
  simp only [LowHeap, minSize] at hlow hmin hu h8 hsz
  have hnode : st ∉ fl (classOf sz) := by
    intro hm
    obtain ⟨c, hcm, hs, hf, -⟩ := (h.members _ st).mp hm
    rw [h.tiled.eq_of_start hcm hc hs] at hf
    cases hf
  cases (insert_eq h hnode).symm.trans hr
  obtain ⟨hW0, hW8, hW16, hWend⟩ := hst
  have htag : tagVec sz free < 2 ^ 63 := by rwa [tagVec_free]
  have hhead : s.freeHead (classOf sz) ≠ null →
      (s.freeHead (classOf sz) + 8) % 8 = s.data % 8 ∧ W (s.freeHead (classOf sz) + 8) :=
    fun h0 => (node_quiet h hlow hW (head_node h h0).1).2.1
  have hheadlt : s.freeHead (classOf sz) < 2 ^ 63 :=
    node_lt h hlow hW fun h0 => (head_node h h0).1
  have htags : Quiet s.data W s.mem (tagBoth s st sz (tagVec sz free)).mem :=
    (Quiet.store (by omega) htag hWend).trans (Quiet.store hgrid htag hW0)
  have hprev : st ≠ null → (st + 8) % 8 = s.data % 8 ∧ W (st + 8) := fun _ => ⟨by omega, hW8⟩
  have hnext : st ≠ null → (st + 16) % 8 = s.data % 8 ∧ W (st + 16) := fun _ => ⟨by omega, hW16⟩
  exact (((htags.trans (setPrev_quiet hprev (by norm_num [null]))).trans
    (setNext_quiet hnext hheadlt)).trans (setPrev_quiet hhead (by omega))).trans
      (setNext_quiet (fun h0 => absurd rfl h0) (by omega))

theorem Links.mono {ds : List Chunk} (h : Links W cs)
    (hs : ∀ c ∈ ds, c.status = .free → c ∈ cs) : Links W ds :=
  fun c hc hfree => h c (hs c hc hfree) hfree

/-- No link word is inside a chunk that is not free. -/
theorem links_outside {a b x : Nat} (h : Tiled a cs b) {c : Chunk} (hc : c ∈ cs)
    (hst : c.status ≠ .free) (hl : c.start ≤ x) (hu : x < c.start + c.size) :
    Links (· ≠ x) cs := by
  intro e he hfree
  obtain ⟨-, -, hmin, -⟩ := h.mem_bounds he
  simp only [minSize] at hmin
  rcases h.apart he hc with heq | hap | hap
  · exact absurd (heq ▸ hfree) hst
  · constructor <;> omega
  · constructor <;> omega

theorem coalesceLeft_quiet {st' sz' : Nat} (h : HeapInv s (xs ++ ⟨st, sz, .hole⟩ :: ys) fl)
    (hx : ∀ c ∈ xs, c.status ≠ .hole) (hlow : LowHeap s)
    (hW : Links W (xs ++ ⟨st, sz, .hole⟩ :: ys))
    (hr : micaAllocCoaleseFreeChunkLeft s st sz = .ok (s', st', sz')) :
    Quiet s.data W s.mem s'.mem := by
  rcases List.eq_nil_or_concat xs with rfl | ⟨xs', l, rfl⟩
  · cases (coalesceLeft_first h).symm.trans hr
    exact Quiet.refl
  · rw [List.concat_eq_append] at h hW hx
    obtain ⟨lst, lsz, status⟩ := l
    cases status with
    | hole => exact absurd rfl (hx ⟨lst, lsz, .hole⟩ (by simp))
    | occupied =>
      cases (coalesceLeft_occupied h).symm.trans hr
      exact Quiet.refl
    | free =>
      obtain ⟨s1, hremove, hr⟩ := bind_ok ((coalesceLeft_free_eq h).symm.trans hr)
      cases hr
      exact remove_quiet h hlow hW (by simp) hremove

theorem coalesceRight_quiet {st' sz' : Nat} (h : HeapInv s (xs ++ ⟨st, sz, .hole⟩ :: ys) fl)
    (hy : ∀ c ∈ ys, c.status ≠ .hole) (hlow : LowHeap s)
    (hW : Links W (xs ++ ⟨st, sz, .hole⟩ :: ys))
    (hr : micaAllocCoaleseFreeChunkRight s st sz = .ok (s', st', sz')) :
    Quiet s.data W s.mem s'.mem ∧ sz ≤ sz' := by
  cases ys with
  | nil =>
    cases (coalesceRight_last h).symm.trans hr
    exact ⟨Quiet.refl, Nat.le_refl _⟩
  | cons r ys =>
    obtain ⟨rst, rsz, status⟩ := r
    cases status with
    | hole => exact absurd rfl (hy ⟨rst, rsz, .hole⟩ (by simp))
    | occupied =>
      cases (coalesceRight_occupied h).symm.trans hr
      exact ⟨Quiet.refl, Nat.le_refl _⟩
    | free =>
      obtain ⟨s1, hremove, hr⟩ := bind_ok ((coalesceRight_free_eq h).symm.trans hr)
      cases hr
      exact ⟨remove_quiet h hlow hW (by simp) hremove, Nat.le_add_right _ _⟩

/-! ## Deallocation -/

/-- The chunk to the left is free, so the chunk at `st` is merged into it. -/
def LeftFree (s : MicaAlloc) (st : Nat) : Prop :=
  st ≠ s.data ∧ tagStatus (load64 s.mem (st - 8)) ≠ occupied

/-- What is left of a deallocation once the hole was extended to the left. -/
theorem finish_quiet (h : HeapInv s (xs ++ ⟨st, sz, .hole⟩ :: ys) fl)
    (hy : ∀ c ∈ ys, c.status ≠ .hole) (hcy : Coalesced ys) (hlow : LowHeap s)
    (hW : Links W (xs ++ ⟨st, sz, .hole⟩ :: ys)) (hst : W st ∧ W (st + 8) ∧ W (st + 16))
    (hend : ∀ n, sz ≤ n → W (st + n - 8))
    (hr : (do let (s1, st1, sz1) ← micaAllocCoaleseFreeChunkRight s st sz
              micaAllocInsertFreeChunk s1 st1 sz1) = .ok s') :
    Quiet s.data W s.mem s'.mem ∧ Clear s'.mem st := by
  obtain ⟨s1, ys1, sz1, fl1, hr1, h1, hp1, -, -, -, hd1, hz1⟩ := coalesceRight_ok h hy hcy
  obtain ⟨hq1, hle⟩ := coalesceRight_quiet h hy hlow hW hr1
  rw [hr1] at hr
  have hr2 : micaAllocInsertFreeChunk s1 st sz1 = .ok s' := hr
  have hlow1 : LowHeap s1 := by rwa [LowHeap, hd1, hz1]
  have hW1 : Links W (xs ++ ⟨st, sz1, .hole⟩ :: ys1) := by
    refine hW.mono fun c hc hfree => ?_
    rcases List.mem_append.mp hc with hc | hc
    · exact List.mem_append_left _ hc
    · rcases List.mem_cons.mp hc with rfl | hc
      · cases hfree
      · exact List.mem_append_right _ (List.mem_cons_of_mem _ (hp1.subset hc))
  have hq2 := insert_quiet h1 hlow1 hW1 ⟨hst.1, hst.2.1, hst.2.2, hend sz1 hle⟩ hr2
  rw [hd1] at hq2
  obtain ⟨s2, hr3, h2, -⟩ := insert_ok h1
  cases hr3.symm.trans hr2
  have hm : (⟨st, sz1, .free⟩ : Chunk) ∈ xs ++ ⟨st, sz1, .free⟩ :: ys1 := by simp
  exact ⟨hq1.trans hq2, clear_tagVec_free (h2.tagged _ hm).1 (tag_lt h2 hm)⟩

/-- Merging a chunk into its left neighbour does not touch its header. -/
theorem merge_quiet {s1 : MicaAlloc} {lst lsz st1 sz1 : Nat}
    (h : HeapInv s ((xs ++ [⟨lst, lsz, .free⟩]) ++ ⟨st, sz, .hole⟩ :: ys) fl)
    (hx : ∀ c ∈ xs ++ [⟨lst, lsz, .free⟩], c.status ≠ .hole) (hy : ∀ c ∈ ys, c.status ≠ .hole)
    (hcy : Coalesced ys) (hlow : LowHeap s)
    (hr1 : micaAllocCoaleseFreeChunkLeft s st sz = .ok (s1, st1, sz1))
    (hr : (do let (s2, st2, sz2) ← micaAllocCoaleseFreeChunkRight s1 st1 sz1
              micaAllocInsertFreeChunk s2 st2 sz2) = .ok s') :
    Quiet s.data (· ≠ st) s.mem s'.mem := by
  obtain ⟨hend, -, hlmin⟩ := left_end h
  have hmin : minSize ≤ sz :=
    (h.tiled.mem_bounds (List.mem_append_right _ List.mem_cons_self)).2.2.1
  simp only [minSize] at hend hlmin hmin
  have hW : Links (· ≠ st) ((xs ++ [⟨lst, lsz, .free⟩]) ++ ⟨st, sz, .hole⟩ :: ys) :=
    links_outside h.tiled (c := ⟨st, sz, .hole⟩) (by simp) (by simp) (Nat.le_refl _)
      (by simp only; omega)
  have hq1 := coalesceLeft_quiet h hx hlow hW hr1
  obtain ⟨s2, hr2, h1, -, hd1, hz1⟩ := coalesceLeft_free h
  obtain ⟨rfl, rfl, rfl⟩ : s2 = s1 ∧ lst = st1 ∧ sz + lsz = sz1 := by
    simpa using hr2.symm.trans hr1
  rw [Nat.add_comm lsz sz] at h1
  have hlow1 : LowHeap s2 := by rwa [LowHeap, hd1, hz1]
  -- the old header is in the middle of the merged chunk
  have hW1 : Links (· ≠ st) (xs ++ ⟨lst, sz + lsz, .hole⟩ :: ys) :=
    links_outside h1.tiled (c := ⟨lst, sz + lsz, .hole⟩) (by simp) (by simp)
      (by simp only; omega) (by simp only; omega)
  obtain ⟨hq2, -⟩ := finish_quiet (W := (· ≠ st)) h1 hy hcy hlow1 hW1
    ⟨by omega, by omega, by omega⟩ (fun n hn => by omega) hr
  rw [hd1] at hq2
  exact hq1.trans hq2

/-- Freeing a chunk leaves clear status bits clear. The header of the chunk is
clear afterwards exactly if it was not merged into its left neighbour. -/
theorem deallocate_quiet (h : HeapOk s (xs ++ ⟨st, sz, .occupied⟩ :: ys) fl) (hlow : LowHeap s)
    (hr : micaAllocDeallocate s (st + 8 - s.data) = .ok s') :
    (∀ x, x % 8 = s.data % 8 → Clear s.mem x → Clear s'.mem x) ∧
      (Clear s'.mem st ↔ ¬ LeftFree s st) := by
  have hm : (⟨st, sz, .occupied⟩ : Chunk) ∈ xs ++ ⟨st, sz, .occupied⟩ :: ys := by simp
  have hdl : s.data ≤ st := (h.inv.tiled.mem_bounds hm).1
  have hmin : minSize ≤ sz := (h.inv.tiled.mem_bounds hm).2.2.1
  have hgrid : st % 8 = s.data % 8 := tiled_aligned h.inv.tiled hm
  obtain ⟨hocc, hsize, -⟩ := tagged_occupied h.inv hm
  have hstart : micaAllocGetItem s (st + 8 - s.data) - 8 = st := by
    simp only [micaAllocGetItem]
    omega
  obtain ⟨hcx, hcy, -⟩ := List.isChain_append.mp h.coalesced
  have hcy := (List.isChain_cons.mp hcy).2
  have hx : ∀ c ∈ xs, c.status ≠ .hole := fun c hc => h.noHole c (by simp [hc])
  have hy : ∀ c ∈ ys, c.status ≠ .hole := fun c hc => h.noHole c (by simp [hc])
  have hopen := h.inv.openChunk
  obtain ⟨-, hr⟩ := check_bind hr
  simp only [hstart, hsize] at hr
  obtain ⟨⟨s1, st1, sz1⟩, hr1, hr⟩ := bind_ok hr
  rcases List.eq_nil_or_concat xs with rfl | ⟨xs', l, rfl⟩
  · -- the first chunk of the heap
    cases (coalesceLeft_first hopen).symm.trans hr1
    obtain ⟨hq, hclear⟩ := finish_quiet (W := fun _ => True) hopen hy hcy hlow
      (fun _ _ _ => ⟨trivial, trivial⟩) ⟨trivial, trivial, trivial⟩ (fun _ _ => trivial) hr
    exact ⟨hq.clear, iff_of_true hclear fun hleft => hleft.1 h.inv.tiled.1⟩
  · rw [List.concat_eq_append] at hopen hx h hm hcx
    obtain ⟨lst, lsz, status⟩ := l
    obtain ⟨hend, hlow', hlmin⟩ := left_end hopen
    simp only [minSize] at hend hlow' hlmin hmin
    cases status with
    | hole => exact absurd rfl (hx ⟨lst, lsz, .hole⟩ (by simp))
    | occupied =>
      cases (coalesceLeft_occupied hopen).symm.trans hr1
      obtain ⟨hq, hclear⟩ := finish_quiet (W := fun _ => True) hopen hy hcy hlow
        (fun _ _ _ => ⟨trivial, trivial⟩) ⟨trivial, trivial, trivial⟩ (fun _ _ => trivial) hr
      refine ⟨hq.clear, iff_of_true hclear fun hleft => hleft.2 ?_⟩
      have hleft : (⟨lst, lsz, .occupied⟩ : Chunk) ∈
          (xs' ++ [⟨lst, lsz, .occupied⟩]) ++ ⟨st, sz, .hole⟩ :: ys := by simp
      have htail := (tagged_occupied hopen hleft).2.2
      rwa [← hend] at htail
    | free =>
      have hq := merge_quiet hopen hx hy hcy hlow hr1 hr
      refine ⟨hq.clear, iff_of_false ?_ (not_not.mpr ⟨by omega, ?_⟩)⟩
      · rw [Clear, hq.same st hgrid (not_not.mpr rfl)]
        exact not_clear_iff.mpr hocc
      · have hleft : (⟨lst, lsz, .free⟩ : Chunk) ∈
            (xs' ++ [⟨lst, lsz, .free⟩]) ++ ⟨st, sz, .hole⟩ :: ys := by simp
        obtain ⟨hfree, -, htail⟩ := tagged_free hopen hleft
        rw [← hend] at htail
        rw [htail, hfree]
        decide

/-! ## Allocation -/

/-- An allocation leaves clear status bits clear, but for the two tags of the new
chunk. -/
theorem allocate_quiet {itemSize : UInt32} {size : Nat} {s1 s2 : MicaAlloc} (h : HeapOk s cs fl)
    (hlow : LowHeap s) (hi : itemSize.toNat > 8) (hs : Steps s itemSize s' st size s1 s2) {x : Nat}
    (hgrid : x % 8 = s.data % 8) (hne : x ≠ st)
    (hend : x ≠ st + carvedSize size (minimumChunk itemSize) - 8) (hx : Clear s.mem x) :
    Clear s'.mem x := by
  have hm := taken_mem h.inv hs.taken
  obtain ⟨hmin, -, h8⟩ := minimumChunk_bounds hi
  have hW : ∀ cs, Links (fun _ => True) cs := fun _ _ _ _ => ⟨trivial, trivial⟩
  have hst : st % 8 = s.data % 8 := tiled_aligned h.inv.tiled hm
  have hsz8 : 8 ∣ size := (h.inv.tiled.mem_bounds hm).2.2.2
  have h1 : Clear s1.mem x := (remove_quiet h.inv hlow (hW _) hm hs.remove).clear x hgrid hx
  obtain ⟨xs, ys, rfl⟩ := List.append_of_mem hm
  obtain ⟨s1', hr1, hinv1, -, hd1, hz1⟩ := remove_ok h.inv
  cases hr1.symm.trans hs.remove
  have h2 : Clear s2.mem x := by
    rcases hs.rest with ⟨hleft, hinsert⟩ | ⟨-, rfl⟩
    · obtain ⟨rest, rfl⟩ := Nat.exists_eq_add_of_le hs.enough
      rw [Nat.add_sub_cancel_left] at hleft hinsert
      have hsplit := hinv1.split hmin hleft h8
      rw [← List.singleton_append, ← List.append_assoc] at hsplit
      have hlow1 : LowHeap s1 := by rwa [LowHeap, hd1, hz1]
      have hq := insert_quiet hsplit hlow1 (hW _) ⟨trivial, trivial, trivial, trivial⟩ hinsert
      exact hq.clear x (by rw [hd1, hgrid]) h1
    · exact h1
  -- the two tags are elsewhere, and an item's size has a clear top bit
  have hitem := itemSize.toNat_lt
  have hcarved : 8 ∣ carvedSize size (minimumChunk itemSize) := by
    unfold carvedSize
    split
    · exact h8
    · exact hsz8
  have hcmin := (carvedSize_le hs.enough).1
  simp only [minSize] at hmin
  rw [hs.occupy]
  have htags : Clear (store64 (store64 s2.mem (st + carvedSize size (minimumChunk itemSize) - 8)
      (tagVec (carvedSize size (minimumChunk itemSize)) occupied)) st
      (tagVec (carvedSize size (minimumChunk itemSize)) occupied)) x := by
    rw [Clear, load64_store64_disjoint (by omega), load64_store64_disjoint (by omega)]
    exact h2
  exact (Quiet.store (d := s.data) (W := fun _ => True) (by omega) (by omega) trivial).clear x
    hgrid htags

/-! ## Offsets that were freed -/

/-- A session with the offsets that were given back and not returned again. -/
structure Tracked where
  session : Session
  dead : List Nat

def Tracked.next (t : Tracked) (call : Call) (c' : Session) : Tracked where
  session := c'
  dead := (match call with
    | .deallocate off => off :: t.dead
    | _ => t.dead).filter (· ∉ c'.live)

def tracked : System Tracked Call where
  init t := sessions.init t.session ∧ t.dead = []
  step t call t' := Allowed t.session call ∧
    ∃ c', perform t.session call = .ok c' ∧ t' = t.next call c'

/-- Freeing any of them again stops at the check. -/
def Noticed (t : Tracked) : Prop :=
  ∀ off ∈ t.dead, micaAllocDeallocate t.session.alloc off = .error .deallocateStatus

/-- An allocation puts no tag over an old header, a chunk that is freed has no
free left neighbour, and a client writes no byte with the top bit set to the
last byte of an old header. -/
def Careful (t : Tracked) : Call → Prop
  | .allocate itemSize => ∀ p ∈ taken t.session.alloc (minimumChunk itemSize),
      ∀ off ∈ t.dead, t.session.alloc.data + off ≠ p.1 + carvedSize p.2 (minimumChunk itemSize)
  | .deallocate off => ¬ LeftFree t.session.alloc (chunkStart t.session.alloc off)
  | .write addr src len => ∀ off ∈ t.dead, ∀ i < len,
      addr + i + 1 = t.session.alloc.data + off → (src i).toNat < 128

/-- Runs of a client and an allocator whose calls are all careful, with a heap in
the lower half of the address space. -/
def careful : System Tracked Call where
  init t := tracked.init t ∧ LowHeap t.session.alloc
  step t call t' := Careful t call ∧ tracked.step t call t'

/-- A freed offset is that of a chunk start on the grid, and not live. -/
structure TrackedInv (t : Tracked) : Prop where
  session : ∃ cs fl, SessionInv t.session cs fl
  low : LowHeap t.session.alloc
  grid : ∀ off ∈ t.dead, 8 ≤ off ∧ off % 8 = 0
  notLive : ∀ off ∈ t.dead, off ∉ t.session.live

variable {t t' : Tracked} {c' : Session} {call : Call} {off : Nat}

theorem mem_dead_next :
    off ∈ (t.next call c').dead ↔
      (off ∈ t.dead ∨ call = .deallocate off) ∧ off ∉ c'.live := by
  cases call with
  | allocate itemSize => simp [Tracked.next]
  | deallocate off' =>
    simp only [Tracked.next, List.mem_filter, List.mem_cons, decide_eq_true_eq,
      Call.deallocate.injEq]
    rw [or_comm, eq_comm (a := off)]
  | write addr src len => simp [Tracked.next]

/-- A live offset is on the grid. -/
theorem live_grid {c : Session} (h : SessionInv c cs fl) (ho : off ∈ c.live) :
    8 ≤ off ∧ off % 8 = 0 := by
  obtain ⟨st, sz, hm, heq⟩ := (h.live off).mp ho
  have hlow := (h.heap.inv.tiled.mem_bounds hm).1
  have hgrid := tiled_aligned h.heap.inv.tiled hm
  simp only at hlow hgrid
  omega

/-- The header of a freed offset is a word of the grid. -/
theorem header_grid {d : Nat} (h : 8 ≤ off ∧ off % 8 = 0) : (d + off - 8) % 8 = d % 8 := by
  omega

/-- An allocation that fails has no chunk to take. -/
theorem taken_none (h : HeapInv s cs fl) {n : Nat}
    (hnone : ∀ k, classUp n ≤ k → k < numClasses → fl k = []) : taken s n = none := by
  rw [taken, Option.map_eq_none_iff]
  cases hfind : findClass s (classUp n) with
  | none => rfl
  | some k =>
    obtain ⟨hle, hlt, h0⟩ := findClass_some hfind
    have hm := (head_node h h0).1
    rw [hnone k hle hlt] at hm
    cases hm

/-- An allocation without a chunk to take changes nothing. -/
theorem allocate_insufficient {itemSize : UInt32} (hok : HeapOk s cs fl)
    (hr : micaAllocAllocate s itemSize = .ok (s', insufficientSpace)) :
    s' = s ∧ taken s (minimumChunk itemSize) = none := by
  obtain ⟨hi, -⟩ := check_bind hr
  rcases allocate_ok hok hi with ⟨hr', hnone⟩ | ⟨hr', -⟩ | ⟨s2, ds, st, sz, hr', hall⟩
  · cases hr'.symm.trans hr
    exact ⟨rfl, taken_none hok.inv hnone⟩
  · cases hr'.symm.trans hr
  · -- an offset in the heap is not the error value
    obtain ⟨fl', hok'⟩ := hall.listed
    have hne := offset_ne_insufficientSpace hok'.inv ((hall.occupied _ rfl).mpr (.inl rfl))
    rw [hall.sameData] at hne
    exact absurd (congrArg Prod.snd (Except.ok.inj (hr'.symm.trans hr))) hne

theorem allocate_sameData {itemSize : UInt32} (hok : HeapOk s cs fl)
    (hr : micaAllocAllocate s itemSize = .ok (s', off)) : s'.data = s.data := by
  obtain ⟨hi, -⟩ := check_bind hr
  rcases allocate_ok hok hi with ⟨hr', -⟩ | ⟨hr', -⟩ | ⟨s2, ds, st, sz, hr', hall⟩
  · cases hr'.symm.trans hr
    rfl
  · cases hr'.symm.trans hr
  · cases hr'.symm.trans hr
    exact hall.sameData

theorem perform_allocate_cases {c : Session} {itemSize : UInt32}
    (h : perform c (.allocate itemSize) = .ok c') :
    ∃ s' off, micaAllocAllocate c.alloc itemSize = .ok (s', off) ∧
      (off = insufficientSpace ∧ c' = ⟨s', c.live⟩ ∨
        off ≠ insufficientSpace ∧ c' = ⟨s', off :: c.live⟩) := by
  obtain ⟨⟨s', off⟩, hr, h⟩ := bind_ok h
  refine ⟨s', off, hr, ?_⟩
  have hc := Except.ok.inj h
  split at hc
  case isTrue hoff => exact .inl ⟨hoff, hc.symm⟩
  case isFalse hoff => exact .inr ⟨hoff, hc.symm⟩

/-- What was noticed before, in terms of the status bits. -/
theorem Noticed.clear (hn : Noticed t) (hd : off ∈ t.dead) :
    Clear t.session.alloc.mem (t.session.alloc.data + off - 8) :=
  deallocate_stops_iff.mp (hn off hd)

theorem noticed_allocate {itemSize : UInt32} (h : TrackedInv t) (hn : Noticed t)
    (hp : perform t.session (.allocate itemSize) = .ok c') :
    Noticed (t.next (.allocate itemSize) c') ↔ Careful t (.allocate itemSize) := by
  obtain ⟨cs, fl, hinv⟩ := h.session
  have hpos := hinv.heap.inv.dataPos
  obtain ⟨s', off, hr, ⟨rfl, rfl⟩ | ⟨hoff, rfl⟩⟩ := perform_allocate_cases hp
  · obtain ⟨rfl, hnone⟩ := allocate_insufficient hinv.heap hr
    refine iff_of_true ?_ ?_
    · intro off hd
      obtain ⟨hdead | heq, -⟩ := mem_dead_next.mp hd
      · exact hn off hdead
      · cases heq
    · intro p htaken
      rw [hnone] at htaken
      cases htaken
  · obtain ⟨hi, -⟩ := check_bind hr
    obtain ⟨st, size, s1, s2, hsteps, heq⟩ := allocate_steps hr hoff
    obtain ⟨ds, fl', size', hok, htaken, hle, hsize, hm⟩ := allocate_chunk hinv.heap hr hoff
    cases hsteps.taken.symm.trans htaken
    have hdata := allocate_sameData hinv.heap hr
    obtain ⟨-, -, htail⟩ := tagged_occupied hok.inv hm
    obtain ⟨hdl, -, hmin, -⟩ := hok.inv.tiled.mem_bounds hm
    simp only [minSize, hdata] at hdl hmin
    rw [hsize] at htail hmin
    -- a freed offset that stays one is another than the new one
    have hother : ∀ x ∈ t.dead, x ∉ off :: t.session.live ↔ x ≠ off := by
      intro x hx
      rw [List.mem_cons, not_or]
      exact and_iff_left (h.notLive x hx)
    constructor
    · intro hnext p htaken' x hx hend
      cases htaken.symm.trans htaken'
      simp only at hend
      have hxoff : x ≠ off := by
        rintro rfl
        omega
      have hclear := (hnext x (mem_dead_next.mpr ⟨.inl hx, (hother x hx).mpr hxoff⟩))
      rw [deallocate_stops_iff] at hclear
      simp only [Tracked.next, hdata] at hclear
      rw [hend] at hclear
      exact not_clear_iff.mpr htail hclear
    · intro hcare x hd
      obtain ⟨hx | hcall, hnot⟩ := mem_dead_next.mp hd
      · have hxoff : x ≠ off := (hother x hx).mp hnot
        obtain ⟨hx8, -⟩ := h.grid x hx
        rw [deallocate_stops_iff]
        simp only [Tracked.next, hdata]
        refine allocate_quiet hinv.heap h.low hi hsteps (header_grid (h.grid x hx)) ?_ ?_
          (hn.clear hx)
        · omega
        · have hend := hcare _ htaken x hx
          simp only at hend
          omega
      · cases hcall

theorem noticed_deallocate (h : TrackedInv t) (hn : Noticed t) (ho : off ∈ t.session.live)
    (hp : perform t.session (.deallocate off) = .ok c') :
    Noticed (t.next (.deallocate off) c') ↔ Careful t (.deallocate off) := by
  obtain ⟨cs, fl, hinv⟩ := h.session
  obtain ⟨s', hr, hp⟩ := bind_ok hp
  cases hp
  have hstart := hinv.offset ho
  obtain ⟨xs, ys, hcs⟩ := List.append_of_mem (hinv.chunk ho)
  have hok := hinv.heap
  rw [hcs] at hok
  have hoff : chunkStart t.session.alloc off + 8 - t.session.alloc.data = off := by omega
  have hdata : s'.data = t.session.alloc.data := by
    obtain ⟨s2, -, -, hr2, -, -, -, hd, -⟩ := deallocate_ok hok
    rw [hoff] at hr2
    cases hr2.symm.trans hr
    exact hd
  obtain ⟨hquiet, hself⟩ := deallocate_quiet hok h.low (by rw [hoff]; exact hr)
  have hdead : off ∈ (t.next (.deallocate off) ⟨s', t.session.live.erase off⟩).dead :=
    mem_dead_next.mpr ⟨.inr rfl, hinv.nodup.not_mem_erase⟩
  rw [Careful, ← hself]
  constructor
  · intro hnext
    have hclear := deallocate_stops_iff.mp (hnext off hdead)
    simp only [Tracked.next, hdata] at hclear
    rwa [← hstart, Nat.add_sub_cancel] at hclear
  · intro hclear x hd
    rw [deallocate_stops_iff]
    simp only [Tracked.next, hdata]
    obtain ⟨hx | hcall, -⟩ := mem_dead_next.mp hd
    · exact hquiet _ (header_grid (h.grid x hx)) (hn.clear hx)
    · cases hcall
      rwa [← hstart, Nat.add_sub_cancel]

theorem noticed_write {addr len : Nat} {src : Nat → UInt8} (h : TrackedInv t) (hn : Noticed t)
    (hp : perform t.session (.write addr src len) = .ok c') :
    Noticed (t.next (.write addr src len) c') ↔ Careful t (.write addr src len) := by
  cases hp
  have hdead : ∀ x, x ∈ (t.next (.write addr src len)
      { t.session with alloc := { t.session.alloc with
        mem := memcpy t.session.alloc.mem addr src len } }).dead ↔ x ∈ t.dead := by
    intro x
    rw [mem_dead_next]
    constructor
    · rintro ⟨hx | hcall, -⟩
      · exact hx
      · cases hcall
    · intro hx
      exact ⟨.inl hx, h.notLive x hx⟩
  -- the status bit is in the last byte of the header
  have hbyte : ∀ x ∈ t.dead, (Clear (memcpy t.session.alloc.mem addr src len)
      (t.session.alloc.data + x - 8) ↔
      ∀ i < len, addr + i + 1 = t.session.alloc.data + x → (src i).toNat < 128) := by
    intro x hx
    obtain ⟨hx8, -⟩ := h.grid x hx
    have hlast : t.session.alloc.data + x - 8 + 7 = t.session.alloc.data + x - 1 := by omega
    have hold := hn.clear hx
    rw [Clear, load64_lt_half_iff, hlast] at hold ⊢
    unfold memcpy
    split
    · rename_i hin
      constructor
      · intro hlt i hi heq
        rwa [show t.session.alloc.data + x - 1 - addr = i by omega] at hlt
      · intro hall
        exact hall _ (by omega) (by omega)
    · rename_i hout
      exact iff_of_true hold fun i hi heq => absurd ⟨by omega, by omega⟩ hout
  constructor
  · intro hnext x hx
    exact (hbyte x hx).mp (deallocate_stops_iff.mp (hnext x ((hdead x).mpr hx)))
  · intro hcare x hd
    have hx := (hdead x).mp hd
    exact deallocate_stops_iff.mpr ((hbyte x hx).mpr (hcare x hx))

/-! ## Runs -/

theorem noticed_step (h : TrackedInv t) (hn : Noticed t) (hs : tracked.step t call t') :
    Noticed t' ↔ Careful t call := by
  obtain ⟨hallowed, c', hp, rfl⟩ := hs
  cases call with
  | allocate itemSize => exact noticed_allocate h hn hp
  | deallocate off => exact noticed_deallocate h hn hallowed hp
  | write addr src len => exact noticed_write h hn hp

theorem trackedInv_step (h : TrackedInv t) (hs : tracked.step t call t') : TrackedInv t' := by
  obtain ⟨hallowed, c', hp, rfl⟩ := hs
  obtain ⟨cs, fl, hinv⟩ := h.session
  obtain ⟨ds, fl', hperf⟩ := perform_ok hinv hallowed hp
  refine ⟨⟨ds, fl', hperf.inv⟩, ?_, ?_, ?_⟩
  · have hlow := h.low
    rw [LowHeap] at hlow ⊢
    simp only [Tracked.next]
    rw [hperf.sameData, perform_sameSize hinv hallowed hp]
    exact hlow
  · intro off hd
    obtain ⟨hx | rfl, -⟩ := mem_dead_next.mp hd
    · exact h.grid off hx
    · exact live_grid hinv hallowed
  · intro off hd
    exact (mem_dead_next.mp hd).2

theorem careful_inv (h : Reachable careful t) : TrackedInv t ∧ Noticed t := by
  refine h.invariant (P := fun t => TrackedInv t ∧ Noticed t) ?_ ?_
  · rintro t ⟨⟨hinit, hdead⟩, hlow⟩
    refine ⟨⟨sessions_init hinit, hlow, ?_, ?_⟩, ?_⟩ <;>
    · intro off hd
      rw [hdead] at hd
      cases hd
  · rintro t call t' - ⟨hinv, hn⟩ ⟨hcare, hstep⟩
    exact ⟨trackedInv_step hinv hstep, (noticed_step hinv hn hstep).mpr hcare⟩

/-- In every run of careful calls, freeing an offset again that was given back
and not returned since stops at the check of the status bit. From every state of
such a run, a further call keeps this true exactly if it is careful. -/
theorem double_free_noticed (h : Reachable careful t) :
    Noticed t ∧ ∀ call t', tracked.step t call t' → (Noticed t' ↔ Careful t call) := by
  obtain ⟨hinv, hn⟩ := careful_inv h
  exact ⟨hn, fun _ _ hstep => noticed_step hinv hn hstep⟩

instance (t : Tracked) : (call : Call) → Decidable (Careful t call)
  | .allocate itemSize => inferInstanceAs (Decidable (∀ p ∈ taken t.session.alloc
      (minimumChunk itemSize), ∀ off ∈ t.dead,
      t.session.alloc.data + off ≠ p.1 + carvedSize p.2 (minimumChunk itemSize)))
  | .deallocate off => inferInstanceAs (Decidable (¬ (chunkStart t.session.alloc off ≠
      t.session.alloc.data ∧ tagStatus (load64 t.session.alloc.mem
        (chunkStart t.session.alloc off - 8)) ≠ occupied)))
  | .write addr src len => inferInstanceAs (Decidable (∀ off ∈ t.dead, ∀ i < len,
      addr + i + 1 = t.session.alloc.data + off → (src i).toNat < 128))

def Tracked.attempt (t : Tracked) (call : Call) : Option Tracked :=
  (Allocate.attempt t.session call).map (t.next call)

theorem step_of_attempt (t : Tracked) (call : Call) (t' : Tracked)
    (h : t.attempt call = some t') : tracked.step t call t' := by
  obtain ⟨c', hc', rfl⟩ := Option.map_eq_some_iff.mp h
  obtain ⟨hallowed, hp⟩ := Allocate.step_of_attempt _ _ _ hc'
  exact ⟨hallowed, c', hp, rfl⟩

def Tracked.attemptCareful (t : Tracked) (call : Call) : Option Tracked :=
  if Careful t call then t.attempt call else none

theorem step_of_attemptCareful (t : Tracked) (call : Call) (t' : Tracked)
    (h : t.attemptCareful call = some t') : careful.step t call t' := by
  unfold Tracked.attemptCareful at h
  split at h
  case isTrue hcare => exact ⟨hcare, step_of_attempt t call t' h⟩
  case isFalse => cases h

/-- A fresh heap, and no offset freed. -/
def freshTracked : Option Tracked := fresh.map (⟨·, []⟩)

theorem init_freshTracked (t : Tracked) (h : freshTracked = some t) : careful.init t := by
  obtain ⟨c, hc, rfl⟩ := Option.map_eq_some_iff.mp h
  refine ⟨⟨init_fresh c hc, rfl⟩, ?_⟩
  obtain ⟨alloc, halloc, rfl⟩ := Option.map_eq_some_iff.mp hc
  obtain ⟨hdata, hsize, -⟩ := init_ok (by decide) (ok_of_toOption halloc)
  rw [LowHeap, hdata, hsize]
  decide

/-- The first of two items is freed. -/
theorem double_free_noticed_first : ∃ t : Tracked, t.dead = [8] ∧
    micaAllocDeallocate t.session.alloc 8 = .error .deallocateStatus := by
  obtain ⟨t, ht, hdead⟩ := exists_reachable step_of_attemptCareful init_freshTracked
    [.allocate 16, .allocate 16, .deallocate 8] (fun t => t.dead == [8]) (by decide +kernel)
  rw [beq_iff_eq] at hdead
  exact ⟨t, hdead, (double_free_noticed ht).1 8 (by rw [hdead]; exact List.mem_singleton_self 8)⟩

/-- Two items are freed, the second is merged into the first, and a new item is
put over both. Its client writes eight bytes of 255 before the old header of
the second. -/
def staleHeader : List Call :=
  [.allocate 16, .allocate 16, .deallocate 8, .deallocate 40, .allocate 48,
    .write 4120 (fun _ => 255) 8]

/-- Offset 40 was freed, and can be freed again. -/
def freesTwice (t : Tracked) : Bool :=
  t.dead == [40] && (micaAllocDeallocate t.session.alloc 40).toOption.isSome

theorem double_free_unnoticed :
    (freshTracked.bind fun t => staleHeader.foldlM Tracked.attempt t).any freesTwice = true ∧
    ¬ ∀ t, Reachable tracked t → Noticed t := by
  have hrun : (freshTracked.bind fun t => staleHeader.foldlM Tracked.attempt t).any freesTwice =
      true := by decide +kernel
  refine ⟨hrun, fun hall => ?_⟩
  obtain ⟨t, ht, hp⟩ := exists_reachable step_of_attempt
    (fun t h => (init_freshTracked t h).1) _ _ hrun
  simp only [freesTwice, Bool.and_eq_true, beq_iff_eq] at hp
  obtain ⟨hdead, hfree⟩ := hp
  have hstop := hall t ht 40 (by rw [hdead]; exact List.mem_singleton_self 40)
  rw [hstop] at hfree
  cases hfree

end RdmaBench.Alloc.DoubleFree
