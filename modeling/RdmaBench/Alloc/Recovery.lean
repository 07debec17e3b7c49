import RdmaBench.Alloc.Sessions

/-! # Giving everything back

A heap without occupied chunks has no two neighbours to merge left, so it is one
free chunk. Giving back all live offsets of a session, in whatever order, leads
to such a heap: the free lists, the tags and the list pointers are those that
`mica_alloc_reset` writes. -/

namespace RdmaBench.Alloc.Recovery
open RdmaBench.Lib.Asserts RdmaBench.Lib.ByteMem RdmaBench.Lib.Links RdmaBench.Lib.Bits
open RdmaBench.Lib.Runs RdmaBench.Alloc.Model RdmaBench.Alloc.Heap RdmaBench.Alloc.Ops
open RdmaBench.Alloc.Sessions

variable {c c' : Session} {cs : List Chunk} {fl : Nat → List Nat} {s : MicaAlloc}

/-! ## The size of a heap -/

/-- No call changes the size of the heap. -/
theorem perform_sameSize {call : Call} (h : SessionInv c cs fl) (ha : Allowed c call)
    (hp : perform c call = .ok c') : c'.alloc.size = c.alloc.size := by
  cases call with
  | allocate itemSize =>
    obtain ⟨⟨alloc, off⟩, hr, hp⟩ := bind_ok hp
    have hsize : alloc.size = c.alloc.size := by
      have hi : itemSize.toNat > 8 := by
        obtain ⟨hi, _⟩ := check_bind hr
        exact hi
      rcases allocate_ok h.heap hi with ⟨hr', _⟩ | ⟨hr', _⟩ | ⟨s', ds, st, sz, hr', hall⟩
      · cases hr'.symm.trans hr
        rfl
      · cases hr'.symm.trans hr
      · cases hr'.symm.trans hr
        exact hall.sameSize
    cases hp
    show (if off = insufficientSpace then _ else _ : Session).alloc.size = _
    split <;> exact hsize
  | deallocate off =>
    have hok := h.heap
    have hoff := h.offset ha
    obtain ⟨xs, ys, hcs⟩ := List.append_of_mem (h.chunk ha)
    rw [hcs] at hok
    obtain ⟨s', _, _, hr, _, _, _, _, hsize⟩ := deallocate_ok hok
    rw [show chunkStart c.alloc off + 8 - c.alloc.data = off by omega] at hr
    obtain ⟨alloc, hr', hp⟩ := bind_ok hp
    cases hr.symm.trans hr'
    cases hp
    exact hsize
  | write addr src len =>
    cases hp
    rfl

/-- What `mica_alloc_init` rounds up is at least 2 MB, or it stops. -/
theorem roundup2M_ge {size : Nat} (h : minSize ≤ roundup2M size) : 2097152 ≤ roundup2M size := by
  have hk : (2 ^ 64 - 1 - 2097151 : Nat) = 2 ^ 64 - 2 ^ 21 := by norm_num
  have hlt : (size + 2097151) % 2 ^ 64 < 2 ^ 64 := Nat.mod_lt _ (by norm_num)
  rw [roundup2M, hk, and_high_mask (by norm_num) hlt] at h ⊢
  generalize (size + 2097151) % 2 ^ 64 / 2 ^ 21 = q at h ⊢
  cases q with
  | zero => simp [minSize] at h
  | succ q => omega

theorem session_size (h : Reachable sessions c) : 2097152 ≤ c.alloc.size := by
  refine h.invariant (P := fun c => 2097152 ≤ c.alloc.size) ?_ ?_
  · intro c hinit
    obtain ⟨mem, data, size, numaNode, hb, hi, _⟩ := hinit
    obtain ⟨_, hz, hok⟩ := init_ok hb hi
    rw [hz]
    exact roundup2M_ge (hok.inv.tiled.mem_bounds (List.mem_singleton_self _)).2.2.1
  · intro c call c' hr ih hstep
    obtain ⟨ha, hp⟩ := hstep
    obtain ⟨cs, fl, hinv⟩ := session_inv hr
    rw [perform_sameSize hinv ha hp]
    exact ih

/-- The size of a tiled heap is a multiple of 8. -/
theorem tiled_dvd {a b : Nat} (h : Tiled a cs b) : ∃ n, b = a + 8 * n := by
  induction cs generalizing a with
  | nil => exact ⟨0, h.symm⟩
  | cons c cs ih =>
    obtain ⟨_, _, ⟨m, hm⟩, htail⟩ := h
    obtain ⟨n, hn⟩ := ih htail
    exact ⟨m + n, by rw [hn, hm]; omega⟩

/-! ## Heaps without occupied chunks -/

/-- Without occupied chunks the whole heap is one free chunk. -/
theorem one_free_chunk (h : HeapOk s cs fl) (hsize : 0 < s.size)
    (hocc : ∀ c ∈ cs, c.status ≠ .occupied) : cs = [⟨s.data, s.size, .free⟩] := by
  have hfree : ∀ c ∈ cs, c.status = .free := by
    intro c hc
    have hhole := h.noHole c hc
    have hno := hocc c hc
    cases hs : c.status with
    | free => rfl
    | occupied => exact absurd hs hno
    | hole => exact absurd hs hhole
  have htiled := h.inv.tiled
  match cs, h.coalesced, hfree, htiled with
  | [], _, _, ht =>
    simp only [Tiled] at ht
    omega
  | [⟨st, sz, status⟩], _, hfree, ht =>
    obtain ⟨hst, _, _, hend⟩ := ht
    simp only [Tiled] at hst hend
    have hs : status = .free := hfree _ (List.mem_singleton_self _)
    rw [hst, hs, show sz = s.size by omega]
  | c :: d :: rest, hcoal, hfree, _ =>
    -- two neighbours would both be free
    have hboth := (List.isChain_cons_cons.mp hcoal).1
    exact absurd (And.intro (hfree c (by simp)) (hfree d (by simp))) hboth

/-- The free lists, the tags and the list pointers of a heap that is one free
chunk. -/
structure Empty (s : MicaAlloc) : Prop where
  last : s.freeHead (numClasses - 1) = s.data
  others : ∀ k, k ≠ numClasses - 1 → s.freeHead k = null
  head : load64 s.mem s.data = tagVec s.size free
  tail : load64 s.mem (s.data + s.size - 8) = tagVec s.size free
  prev : load64 s.mem (s.data + 8) = null
  next : load64 s.mem (s.data + 16) = null

theorem empty_of_one_chunk (h : HeapOk s [⟨s.data, s.size, .free⟩] fl)
    (hsize : 2097152 ≤ s.size) : Empty s := by
  have hclass : classOf s.size = numClasses - 1 := by
    rw [classOf, if_neg]
    simp only [minSize, numClasses, classIncrement]
    omega
  have hmem : ∀ k x, x ∈ fl k ↔ x = s.data ∧ k = numClasses - 1 := by
    intro k x
    rw [h.inv.members]
    simp [hclass, eq_comm]
  have hlist := h.inv.listed (numClasses - 1)
  have hone : fl (numClasses - 1) = [s.data] := by
    refine List.perm_singleton.mp ((List.perm_ext_iff_of_nodup (h.inv.nodup _)
      (List.nodup_singleton _)).mpr fun x => ?_)
    simp [hmem]
  rw [hone] at hlist
  obtain ⟨hfirst, hprev, hnext⟩ := hlist
  have hdata : s.data ≠ null := Nat.ne_of_gt h.inv.dataPos
  rw [succ_null] at hfirst
  simp only [Seg] at hnext
  rw [succ_of_ne hdata] at hnext
  obtain ⟨hhead, htail⟩ := h.inv.tagged _ (List.mem_singleton_self _)
  refine ⟨hfirst, fun k hk => ?_, hhead, htail, hprev, hnext⟩
  have hnil : fl k = [] := List.eq_nil_iff_forall_not_mem.mpr fun x hx => hk ((hmem k x).mp hx).2
  have hlist := h.inv.listed k
  rw [hnil] at hlist
  exact succ_null.symm.trans hlist

/-! ## All offsets given back -/

/-- Give back the offsets of a list, one after the other. -/
def deallocateAll (c : Session) : List Nat → Except Assert Session
  | [] => return c
  | off :: offs => do
    let c ← perform c (.deallocate off)
    deallocateAll c offs

/-- No deallocation of a live offset fails, whatever was given back before. -/
theorem deallocateAll_ok {offs : List Nat} (h : Reachable sessions c) (hp : offs.Perm c.live) :
    ∃ c', deallocateAll c offs = .ok c' ∧ Reachable sessions c' ∧ c'.live = [] ∧
      c'.alloc.data = c.alloc.data ∧ c'.alloc.size = c.alloc.size := by
  induction offs generalizing c with
  | nil => exact ⟨c, rfl, h, hp.nil_eq.symm, rfl, rfl⟩
  | cons off offs ih =>
    obtain ⟨cs, fl, hinv⟩ := session_inv h
    have ha : Allowed c (.deallocate off) := hp.subset List.mem_cons_self
    obtain ⟨c1, ds, fl1, hr, hperf⟩ := perform_deallocate hinv ha
    have hreach : Reachable sessions c1 := .step (e := .deallocate off) h ⟨ha, hr⟩
    have hlive : c1.live = c.live.erase off := by
      obtain ⟨alloc, _, hr⟩ := bind_ok hr
      cases hr
      rfl
    obtain ⟨c', hall, hreach', hnil, hdata, hsize⟩ := ih hreach (by
      rw [hlive]
      exact List.cons_perm_iff_perm_erase.mp hp |>.2)
    refine ⟨c', ?_, hreach', hnil, hdata.trans hperf.sameData,
      hsize.trans (perform_sameSize hinv ha hr)⟩
    rw [deallocateAll, hr]
    exact hall

/-- A session without live offsets has an empty heap. -/
theorem empty_of_no_live (h : Reachable sessions c) (hl : c.live = []) : Empty c.alloc := by
  obtain ⟨cs, fl, hinv⟩ := session_inv h
  have hsize := session_size h
  have hcs : cs = [⟨c.alloc.data, c.alloc.size, .free⟩] := by
    refine one_free_chunk hinv.heap (by omega) ?_
    intro ch hch hocc
    have hlow := (hinv.heap.inv.tiled.mem_bounds hch).1
    have hin : ch.start + 8 - c.alloc.data ∈ c.live := by
      refine (hinv.live _).mpr ⟨ch.start, ch.size, ?_, by omega⟩
      rw [← hocc]
      exact hch
    rw [hl] at hin
    cases hin
  have hheap := hinv.heap
  rw [hcs] at hheap
  exact empty_of_one_chunk hheap hsize

/-- After any run, giving back all live offsets in any order succeeds and leads
to the allocator that `mica_alloc_reset` makes: one free chunk of the whole
heap, alone in the last list. -/
theorem all_freed_is_reset {offs : List Nat} (h : Reachable sessions c) (hp : offs.Perm c.live) :
    ∃ c' r, deallocateAll c offs = .ok c' ∧ c'.live = [] ∧
      c'.alloc.data = c.alloc.data ∧ c'.alloc.size = c.alloc.size ∧ Empty c'.alloc ∧
      micaAllocReset c.alloc = .ok r ∧ Empty r ∧
      r.data = c'.alloc.data ∧ r.size = c'.alloc.size ∧ r.freeHead = c'.alloc.freeHead := by
  obtain ⟨c', hall, hreach, hnil, hdata, hsize⟩ := deallocateAll_ok h hp
  have hempty := empty_of_no_live hreach hnil
  obtain ⟨cs, fl, hinv⟩ := session_inv h
  have hbig := session_size h
  have h8 : 8 ∣ c.alloc.size := by
    obtain ⟨n, hn⟩ := tiled_dvd hinv.heap.inv.tiled
    exact ⟨n, by omega⟩
  obtain ⟨r, hr, hrd, hrz, hrok⟩ := reset_ok hinv.heap.inv.dataPos hinv.heap.inv.bound
    hinv.heap.inv.sizeMax (by simp only [minSize]; omega) h8
  rw [← hrd, ← hrz] at hrok
  have hrempty := empty_of_one_chunk hrok (by omega)
  refine ⟨c', r, hall, hnil, hdata, hsize, hempty, hr, hrempty, hrd.trans hdata.symm,
    hrz.trans hsize.symm, ?_⟩
  funext k
  by_cases hk : k = numClasses - 1
  · rw [hk, hrempty.last, hempty.last, hrd, hdata]
  · rw [hrempty.others k hk, hempty.others k hk]

/-- Two items, given back in the order they were allocated. -/
theorem all_freed_is_reset_two_items : ∃ c c' : Session, c.live = [40, 8] ∧
    deallocateAll c [8, 40] = .ok c' ∧ Empty c'.alloc := by
  obtain ⟨c, hr, hl⟩ := two_items
  have hperm : [8, 40].Perm c.live := by
    rw [hl]
    decide
  obtain ⟨c', r, hall, _, _, _, hempty, _⟩ := all_freed_is_reset hr hperm
  exact ⟨c, c', hl, hall, hempty⟩

end RdmaBench.Alloc.Recovery
