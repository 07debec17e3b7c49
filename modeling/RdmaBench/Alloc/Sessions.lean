import RdmaBench.Lib.Runs
import RdmaBench.Alloc.Ops

/-! # Whole runs of the allocator

A session is an allocator with the offsets its client holds. The client
allocates, gives offsets back and writes between the tags of its chunks, in
any order. Every session has a well-formed heap, whose occupied chunks are
those of the live offsets. -/

namespace RdmaBench.Alloc.Sessions
open RdmaBench.Lib.Asserts RdmaBench.Lib.ByteMem RdmaBench.Lib.Links RdmaBench.Lib.Bits
open RdmaBench.Lib.Runs
open RdmaBench.Alloc.Model RdmaBench.Alloc.Heap RdmaBench.Alloc.FreeLists RdmaBench.Alloc.Ops

/-! ## Sessions -/

structure Session where
  alloc : MicaAlloc
  live : List Nat

/-- What a client can do. -/
inductive Call where
  | allocate (itemSize : UInt32)
  | deallocate (allocOffset : Nat)
  | write (addr : Nat) (src : Nat → UInt8) (len : Nat)

/-- Where the chunk of an offset starts. -/
def chunkStart (alloc : MicaAlloc) (allocOffset : Nat) : Nat :=
  micaAllocGetItem alloc allocOffset - 8

/-- The size its head tag gives. -/
def chunkSize (alloc : MicaAlloc) (allocOffset : Nat) : Nat :=
  tagSize (load64 alloc.mem (chunkStart alloc allocOffset))

/-- An address between the two tags of the chunk of an offset. -/
def BetweenTags (alloc : MicaAlloc) (allocOffset addr : Nat) : Prop :=
  chunkStart alloc allocOffset + 8 ≤ addr ∧
    addr + 8 < chunkStart alloc allocOffset + chunkSize alloc allocOffset

/-- Only live offsets are given back, and writes stay between the tags of a
live chunk. -/
def Allowed (c : Session) : Call → Prop
  | .allocate _ => True
  | .deallocate off => off ∈ c.live
  | .write addr _ len => ∃ off ∈ c.live, ∀ i < len, BetweenTags c.alloc off (addr + i)

def perform (c : Session) : Call → Except Assert Session
  | .allocate itemSize => do
    let (alloc, off) ← micaAllocAllocate c.alloc itemSize
    return if off = insufficientSpace then ⟨alloc, c.live⟩ else ⟨alloc, off :: c.live⟩
  | .deallocate off => do
    let alloc ← micaAllocDeallocate c.alloc off
    return ⟨alloc, c.live.erase off⟩
  | .write addr src len =>
    return { c with alloc := { c.alloc with mem := memcpy c.alloc.mem addr src len } }

/-- Sessions start with `mica_alloc_init` on a block that `malloc` returned,
which lies in the address space. -/
def sessions : System Session Call where
  init c := ∃ mem data size numaNode, data + roundup2M size ≤ 2 ^ 64 ∧
    micaAllocInit mem data size numaNode = .ok c.alloc ∧ c.live = []
  step c call c' := Allowed c call ∧ perform c call = .ok c'

/-! ## The invariant of a session -/

structure SessionInv (c : Session) (cs : List Chunk) (fl : Nat → List Nat) : Prop where
  heap : HeapOk c.alloc cs fl
  nodup : c.live.Nodup
  live : ∀ off, off ∈ c.live ↔
    ∃ st sz, (⟨st, sz, .occupied⟩ : Chunk) ∈ cs ∧ off + c.alloc.data = st + 8

variable {c c' : Session} {cs : List Chunk} {fl : Nat → List Nat} {off : Nat}

/-- The chunk of a live offset, as its tag describes it, is an occupied chunk. -/
theorem SessionInv.chunk (h : SessionInv c cs fl) (ho : off ∈ c.live) :
    ⟨chunkStart c.alloc off, chunkSize c.alloc off, .occupied⟩ ∈ cs := by
  obtain ⟨st, sz, hm, he⟩ := (h.live off).mp ho
  have hst : chunkStart c.alloc off = st := by
    simp only [chunkStart, micaAllocGetItem]
    omega
  have hsz : chunkSize c.alloc off = sz := by
    rw [chunkSize, hst, (tagged_occupied h.heap.inv hm).2.1]
  rw [hst, hsz]
  exact hm

theorem SessionInv.offset (h : SessionInv c cs fl) (ho : off ∈ c.live) :
    chunkStart c.alloc off + 8 = c.alloc.data + off := by
  obtain ⟨st, sz, hm, he⟩ := (h.live off).mp ho
  simp only [chunkStart, micaAllocGetItem]
  omega

/-! ## The first state -/

/-- `mica_alloc_reset` leaves one free chunk. -/
theorem reset_ok {s : MicaAlloc} (h0 : 0 < s.data) (hb : s.data + s.size ≤ 2 ^ 64)
    (hmax : s.size ≤ maxSize) (hmin : minSize ≤ s.size) (h8 : 8 ∣ s.size) :
    ∃ s', micaAllocReset s = .ok s' ∧ s'.data = s.data ∧ s'.size = s.size ∧
      HeapOk s' [⟨s.data, s.size, .free⟩]
        (Function.update (fun _ => []) (classOf s.size) [s.data]) := by
  have hinv : HeapInv { s with freeHead := fun _ => null } ([] ++ [⟨s.data, s.size, .hole⟩])
      (fun _ => []) := by
    refine ⟨h0, hb, hmax, ⟨rfl, hmin, h8, rfl⟩, ?_, ?_, ?_, ?_⟩
    · intro c hc
      rw [List.mem_singleton.mp hc]
      trivial
    · intro k
      simp [Listed, Seg, cells, succ]
    · intro k
      exact List.nodup_nil
    · intro k x
      simp
  obtain ⟨s', hr, hi, _, hd, hz⟩ := insert_ok hinv
  refine ⟨s', hr, hd, hz, hi, ?_, ?_⟩
  · intro c hc
    rw [List.mem_singleton.mp hc]
    simp
  · exact List.isChain_singleton _

theorem insert_minSize {s s' : MicaAlloc} {st sz : Nat}
    (h : micaAllocInsertFreeChunk s st sz = .ok s') : minSize ≤ sz := by
  unfold micaAllocInsertFreeChunk micaAllocSizeToClassRounddown at h
  by_contra hlt
  have hmin : ¬ sz ≥ minSize := hlt
  by_cases hmax : sz ≤ maxSize
  · simp [check, hmin, hmax, bind, Except.bind] at h
  · simp [check, hmax, bind, Except.bind] at h

theorem eight_dvd_roundup2M (size : Nat) : 8 ∣ roundup2M size := by
  have hk : (2 ^ 64 - 1 - 2097151 : Nat) = 2 ^ 64 - 2 ^ 21 := by norm_num
  have hlt : (size + 2097151) % 2 ^ 64 < 2 ^ 64 := Nat.mod_lt _ (by norm_num)
  rw [roundup2M, hk, and_high_mask (by norm_num) hlt]
  exact Dvd.dvd.mul_left (by norm_num) _

/-- A block that `mica_alloc_init` accepts becomes one free chunk. -/
theorem init_ok {mem : Mem} {data size numaNode : Nat} {s : MicaAlloc}
    (hb : data + roundup2M size ≤ 2 ^ 64) (h : micaAllocInit mem data size numaNode = .ok s) :
    s.data = data ∧ s.size = roundup2M size ∧
      HeapOk s [⟨data, roundup2M size, .free⟩]
        (Function.update (fun _ => []) (classOf (roundup2M size)) [data]) := by
  unfold micaAllocInit at h
  obtain ⟨_, h⟩ := check_bind h
  obtain ⟨_, h⟩ := check_bind h
  obtain ⟨hmax, h⟩ := check_bind h
  obtain ⟨h0, h⟩ := check_bind h
  obtain ⟨s', hr, hd, hz, hok⟩ := reset_ok
    (s := ⟨roundup2M size, data, fun _ => null, memset mem data 0 (roundup2M size)⟩)
    (Nat.pos_of_ne_zero h0) hb hmax (insert_minSize h) (eight_dvd_roundup2M size)
  cases hr.symm.trans h
  exact ⟨hd, hz, hok⟩

/-! ## One call -/

/-- Bytes between the tags of an occupied chunk belong to its client. -/
theorem write_ok {s : MicaAlloc} {st sz addr len : Nat} {src : Nat → UInt8} (h : HeapOk s cs fl)
    (hm : ⟨st, sz, .occupied⟩ ∈ cs) (hl : st + 8 ≤ addr) (hu : addr + len + 8 ≤ st + sz) :
    HeapOk { s with mem := memcpy s.mem addr src len } cs fl := by
  -- other chunks keep all their bytes
  have hother : ∀ c ∈ cs, c ≠ ⟨st, sz, .occupied⟩ →
      Agree s.mem (memcpy s.mem addr src len) c.start c.size := by
    intro c hc hne
    have hap := (h.inv.tiled.apart hc hm).resolve_left hne
    simp only at hap
    exact memcpy_agree (by omega)
  refine ⟨⟨h.inv.dataPos, h.inv.bound, h.inv.sizeMax, h.inv.tiled, ?_, ?_, h.inv.nodup,
    h.inv.members⟩, h.noHole, h.coalesced⟩
  · intro c hc
    by_cases he : c = ⟨st, sz, .occupied⟩
    · subst he
      exact (h.inv.tagged _ hc).congr (memcpy_agree (.inl hl))
        (memcpy_agree (.inr (by simp only; omega)))
    · have hmin := (h.inv.chunk_bounds hc).2.2.1
      simp only [minSize] at hmin
      exact (h.inv.tagged c hc).congr ((hother c hc he).mono (Nat.le_refl _) (by omega))
        ((hother c hc he).mono (by omega) (by omega))
  · refine h.inv.listed_of_agree (fun c hc hf => hother c hc ?_)
    intro he
    rw [he] at hf
    cases hf

/-- What a call does to a session: the heap stays well formed, and every chunk
that is not given back stays where it is, with its bytes unless the client
wrote them. -/
structure Performed (c : Session) (cs : List Chunk) (call : Call) (c' : Session)
    (ds : List Chunk) (fl : Nat → List Nat) : Prop where
  inv : SessionInv c' ds fl
  sameData : c'.alloc.data = c.alloc.data
  kept : ∀ off ∈ c.live, call ≠ .deallocate off → off ∈ c'.live
  bytes : (∀ addr src len, call ≠ .write addr src len) → ∀ off ∈ c.live, call ≠ .deallocate off →
    Agree c.alloc.mem c'.alloc.mem (chunkStart c.alloc off) (chunkSize c.alloc off)

theorem offset_ne_insufficientSpace {s : MicaAlloc} {st sz : Nat} (h : HeapInv s cs fl)
    (hm : ⟨st, sz, .occupied⟩ ∈ cs) : st + 8 - s.data ≠ insufficientSpace := by
  obtain ⟨hl, hu, hmin, _⟩ := h.tiled.mem_bounds hm
  have hmax := h.sizeMax
  simp only [minSize, maxSize, insufficientSpace] at *
  omega

theorem perform_allocate {itemSize : UInt32} (h : SessionInv c cs fl)
    (hp : perform c (.allocate itemSize) = .ok c') :
    ∃ ds fl', Performed c cs (.allocate itemSize) c' ds fl' := by
  have hi : itemSize.toNat > 8 := by
    by_contra hle
    simp [perform, micaAllocAllocate, check, hle, bind, Except.bind] at hp
  rcases allocate_ok h.heap hi with ⟨hr, _⟩ | ⟨hr, _⟩ | ⟨s', ds, st, sz, hr, ha⟩
  · have hc : c = c' := by simpa [perform, hr, bind, Except.bind, pure, Except.pure] using hp
    subst hc
    exact ⟨cs, fl, h, rfl, fun off ho _ => ho, fun _ off _ _ => Agree.refl _ _ _⟩
  · simp [perform, hr, bind, Except.bind] at hp
  · obtain ⟨fl', hok⟩ := ha.listed
    have hm : (⟨st, sz, .occupied⟩ : Chunk) ∈ ds := (ha.occupied _ rfl).mpr (.inl rfl)
    have hne := offset_ne_insufficientSpace hok.inv hm
    rw [ha.sameData] at hne
    have hc : c' = ⟨s', (st + 8 - c.alloc.data) :: c.live⟩ := by
      simpa [perform, hr, hne, bind, Except.bind, pure, Except.pure] using hp.symm
    subst hc
    have hlow := (hok.inv.tiled.mem_bounds hm).1
    simp only [ha.sameData] at hlow
    refine ⟨ds, fl', ⟨hok, List.nodup_cons.mpr ⟨?_, h.nodup⟩, ?_⟩, ha.sameData,
      fun off ho _ => List.mem_cons_of_mem _ ho, fun _ off ho _ => ha.keeps _ (h.chunk ho) rfl⟩
    · intro hin
      obtain ⟨st', sz', hm', he⟩ := (h.live _).mp hin
      have hne' := ha.fresh _ hm' rfl
      simp only at hne'
      omega
    · intro off
      simp only [List.mem_cons, h.live, ha.sameData]
      constructor
      · rintro (rfl | ⟨st', sz', hm', he⟩)
        · exact ⟨st, sz, hm, by omega⟩
        · exact ⟨st', sz', (ha.occupied _ rfl).mpr (.inr hm'), he⟩
      · intro hall
        obtain ⟨st', sz', hm', he⟩ := hall
        rcases (ha.occupied _ rfl).mp hm' with heq | hm'
        · cases heq
          exact .inl (by omega)
        · exact .inr ⟨st', sz', hm', he⟩

theorem perform_deallocate (h : SessionInv c cs fl) (ho : off ∈ c.live) :
    ∃ c' ds fl', perform c (.deallocate off) = .ok c' ∧
      Performed c cs (.deallocate off) c' ds fl' := by
  have hm := h.chunk ho
  have hoff := h.offset ho
  obtain ⟨xs, ys, hcs⟩ := List.append_of_mem hm
  have hok := h.heap
  rw [hcs] at hok
  obtain ⟨s', ds, fl', hr, hds, hocc, hk, hd, _⟩ := deallocate_ok hok
  -- the chunks that are still occupied are the others
  have hrest : ∀ st sz, (⟨st, sz, .occupied⟩ : Chunk) ∈ ds ↔
      ⟨st, sz, .occupied⟩ ∈ cs ∧ st ≠ chunkStart c.alloc off := by
    intro st sz
    rw [hocc _ rfl, hcs]
    constructor
    · intro hin
      have hin' : (⟨st, sz, .occupied⟩ : Chunk) ∈
          xs ++ ⟨chunkStart c.alloc off, chunkSize c.alloc off, .hole⟩ :: ys := by
        rcases List.mem_append.mp hin with hx | hy
        · exact List.mem_append_left _ hx
        · exact List.mem_append_right _ (List.mem_cons_of_mem _ hy)
      rcases starts_setStatus hok.inv.tiled hin' with he | hne
      · cases he
      · exact hne
    · intro hall
      obtain ⟨hin, hne⟩ := hall
      simpa [hne] using hin
  have hdata : c.alloc.data ≤ chunkStart c.alloc off := (h.heap.inv.tiled.mem_bounds hm).1
  have hoff' : chunkStart c.alloc off + 8 - c.alloc.data = off := by omega
  rw [hoff'] at hr
  refine ⟨⟨s', c.live.erase off⟩, ds, fl', ?_, ⟨hds, h.nodup.erase off, ?_⟩, hd, ?_, ?_⟩
  · simp [perform, hr, bind, Except.bind, pure, Except.pure]
  · intro x
    simp only [h.nodup.mem_erase_iff, h.live, hrest, hd]
    constructor
    · intro hall
      obtain ⟨hne, st, sz, hin, he⟩ := hall
      exact ⟨st, sz, ⟨hin, by omega⟩, he⟩
    · intro hall
      obtain ⟨st, sz, ⟨hin, hne⟩, he⟩ := hall
      exact ⟨by omega, st, sz, hin, he⟩
  · intro x hx hne
    exact (List.mem_erase_of_ne fun he => hne (by rw [he])).mpr hx
  · intro _ x hx hne
    have hxm := h.chunk hx
    have hxo := h.offset hx
    have hst : chunkStart c.alloc x ≠ chunkStart c.alloc off := by
      intro he
      refine hne ?_
      rw [show x = off by omega]
    exact hk _ ((hocc _ rfl).mp ((hrest _ _).mpr ⟨hxm, hst⟩)) rfl

theorem perform_write {addr len : Nat} {src : Nat → UInt8} (h : SessionInv c cs fl)
    (ha : Allowed c (.write addr src len)) :
    ∃ c', perform c (.write addr src len) = .ok c' ∧
      Performed c cs (.write addr src len) c' cs fl := by
  obtain ⟨off, ho, hb⟩ := ha
  refine ⟨_, rfl, ⟨?_, h.nodup, h.live⟩, rfl, fun x hx _ => hx, fun hne => absurd rfl (hne _ _ _)⟩
  cases len with
  | zero =>
    have hsame : memcpy c.alloc.mem addr src 0 = c.alloc.mem := by
      funext x
      simp [memcpy]
    rw [hsame]
    exact h.heap
  | succ n =>
    obtain ⟨h1, _⟩ := hb 0 (by omega)
    obtain ⟨_, h2⟩ := hb n (by omega)
    exact write_ok h.heap (h.chunk ho) (by omega) (by omega)

/-- One call keeps the invariant of a session. -/
theorem perform_ok {call : Call} (h : SessionInv c cs fl) (ha : Allowed c call)
    (hp : perform c call = .ok c') : ∃ ds fl', Performed c cs call c' ds fl' := by
  cases call with
  | allocate itemSize => exact perform_allocate h hp
  | deallocate off =>
    obtain ⟨c1, ds, fl', hr, hperf⟩ := perform_deallocate h ha
    cases hr.symm.trans hp
    exact ⟨ds, fl', hperf⟩
  | write addr src len =>
    obtain ⟨c1, hr, hperf⟩ := perform_write h ha
    cases hr.symm.trans hp
    exact ⟨cs, fl, hperf⟩

/-- The only asserts an allowed call can fail: an item of at most 8 bytes, and
a last-class chunk that is too small for the request. -/
theorem perform_error {call : Call} {e : Assert} (h : SessionInv c cs fl) (ha : Allowed c call)
    (hp : perform c call = .error e) : e = .allocateItemSize ∨ e = .fromHeadSize := by
  cases call with
  | allocate itemSize =>
    by_cases hi : itemSize.toNat > 8
    · rcases allocate_ok h.heap hi with ⟨hr, _⟩ | ⟨hr, _⟩ | ⟨s', ds, st, sz, hr, _⟩
      · simp [perform, hr, bind, Except.bind, pure, Except.pure] at hp
      · simp only [perform, hr, bind, Except.bind, Except.error.injEq] at hp
        exact .inr hp.symm
      · simp [perform, hr, bind, Except.bind, pure, Except.pure] at hp
    · simp only [perform, micaAllocAllocate, check, hi, if_false, bind, Except.bind,
        Except.error.injEq] at hp
      exact .inl hp.symm
  | deallocate off =>
    obtain ⟨c1, ds, fl', hr, _⟩ := perform_deallocate h ha
    cases hr.symm.trans hp
  | write addr src len =>
    obtain ⟨c1, hr, _⟩ := perform_write h ha
    cases hr.symm.trans hp

/-! ## Whole runs -/

/-- The first session has no live offset and one free chunk. -/
theorem sessions_init (h : sessions.init c) : ∃ cs fl, SessionInv c cs fl := by
  obtain ⟨mem, data, size, numaNode, hb, hi, hl⟩ := h
  obtain ⟨_, _, hok⟩ := init_ok hb hi
  refine ⟨_, _, hok, by simp [hl], ?_⟩
  intro off
  simp [hl]

theorem session_inv (h : Reachable sessions c) : ∃ cs fl, SessionInv c cs fl := by
  refine h.invariant (P := fun c => ∃ cs fl, SessionInv c cs fl) (fun _ => sessions_init) ?_
  intro c call c' _ hprev hstep
  obtain ⟨cs, fl, hinv⟩ := hprev
  obtain ⟨ha, hp⟩ := hstep
  obtain ⟨ds, fl', hperf⟩ := perform_ok hinv ha hp
  exact ⟨ds, fl', hperf.inv⟩

/-- Two items of 16 bytes in a fresh heap of 2 MB. -/
theorem two_items : ∃ c, Reachable sessions c ∧ c.live = [40, 8] := by
  have hrun : (do
      let alloc ← micaAllocInit (fun _ => 0) 4096 1 0
      let c ← perform ⟨alloc, []⟩ (.allocate 16)
      let c ← perform c (.allocate 16)
      return c.live : Except Assert (List Nat)) = .ok [40, 8] := by
    decide +kernel
  obtain ⟨alloc, h0, hrun⟩ := bind_ok hrun
  obtain ⟨c1, h1, hrun⟩ := bind_ok hrun
  obtain ⟨c2, h2, hrun⟩ := bind_ok hrun
  have hr0 : Reachable sessions ⟨alloc, []⟩ := .init ⟨_, 4096, 1, 0, by decide, h0, rfl⟩
  have hr1 : Reachable sessions c1 := .step (e := .allocate 16) hr0 ⟨trivial, h1⟩
  exact ⟨c2, .step (e := .allocate 16) hr1 ⟨trivial, h2⟩, Except.ok.inj hrun⟩

/-- The asserts inside insert, remove and the two coalesce functions, those of
the size class that insert and remove compute included. -/
def sanityAsserts : List Assert :=
  [.rounddownMaxSize, .rounddownMinSize, .insertHeadPrev, .removeIsHead, .leftAboveData, .leftTags,
    .rightBelowEnd, .rightTags]

/-- In every state of every run the heap is tiled by tagged chunks, no two
neighbours of which are free, the free lists hold exactly the free chunks, and
no sanity assert can fail in the next call. -/
theorem heap_wellFormed (h : Reachable sessions c) :
    (∃ (cs : List Chunk) (fl : Nat → List Nat),
      Tiled c.alloc.data cs (c.alloc.data + c.alloc.size) ∧
      (∀ ch ∈ cs, ch.status ≠ .hole ∧ ch.Tagged c.alloc.mem) ∧
      Coalesced cs ∧
      (∀ k, Listed null (cells c.alloc k) (fl k) ∧ (fl k).Nodup) ∧
      ∀ k x, x ∈ fl k ↔ ∃ ch ∈ cs, ch.start = x ∧ ch.status = .free ∧
        micaAllocSizeToClassRounddown ch.size = .ok k) ∧
    ∀ call e, Allowed c call → perform c call = .error e → e ∉ sanityAsserts := by
  obtain ⟨cs, fl, hinv⟩ := session_inv h
  have hok := hinv.heap
  refine ⟨⟨cs, fl, hok.inv.tiled, fun ch hc => ⟨hok.noHole ch hc, hok.inv.tagged ch hc⟩,
    hok.coalesced, fun k => ⟨hok.inv.listed k, hok.inv.nodup k⟩, ?_⟩, ?_⟩
  · intro k x
    rw [hok.inv.members]
    -- on the sizes of a heap the source's function is `classOf`
    have hclass : ∀ ch ∈ cs, (micaAllocSizeToClassRounddown ch.size = .ok k ↔
        classOf ch.size = k) := by
      intro ch hc
      obtain ⟨_, _, hmin, hmax⟩ := hok.inv.chunk_bounds hc
      rw [rounddown_ok hmin hmax, Except.ok.injEq]
    constructor
    · intro hall
      obtain ⟨ch, hc, hs, hf, hk⟩ := hall
      exact ⟨ch, hc, hs, hf, (hclass ch hc).mpr hk⟩
    · intro hall
      obtain ⟨ch, hc, hs, hf, hk⟩ := hall
      exact ⟨ch, hc, hs, hf, (hclass ch hc).mp hk⟩
  · intro call e ha hp
    rcases perform_error hinv ha hp with rfl | rfl
    · decide
    · decide

theorem heap_wellFormed_two_items : ∃ c : Session, c.live = [40, 8] ∧
    ∀ call e, Allowed c call → perform c call = .error e → e ∉ sanityAsserts := by
  obtain ⟨c, hr, hl⟩ := two_items
  exact ⟨c, hl, (heap_wellFormed hr).2⟩

/-- In every state of every run the chunks of live offsets lie in the heap and
do not overlap, and a call that is neither a client's write nor gives the
offset back leaves its chunk and all bytes between the tags as they are. -/
theorem live_chunks_isolated (h : Reachable sessions c) :
    (∀ off ∈ c.live, c.alloc.data ≤ chunkStart c.alloc off ∧
      chunkStart c.alloc off + chunkSize c.alloc off ≤ c.alloc.data + c.alloc.size) ∧
    (∀ off ∈ c.live, ∀ off' ∈ c.live, off ≠ off' →
      chunkStart c.alloc off + chunkSize c.alloc off ≤ chunkStart c.alloc off' ∨
      chunkStart c.alloc off' + chunkSize c.alloc off' ≤ chunkStart c.alloc off) ∧
    ∀ call c', Allowed c call → perform c call = .ok c' →
      (∀ addr src len, call ≠ .write addr src len) → ∀ off ∈ c.live, call ≠ .deallocate off →
        off ∈ c'.live ∧ chunkStart c'.alloc off = chunkStart c.alloc off ∧
        chunkSize c'.alloc off = chunkSize c.alloc off ∧
        ∀ addr, BetweenTags c.alloc off addr → c'.alloc.mem addr = c.alloc.mem addr := by
  obtain ⟨cs, fl, hinv⟩ := session_inv h
  have htiled := hinv.heap.inv.tiled
  refine ⟨?_, ?_, ?_⟩
  · intro off ho
    obtain ⟨hl, hu, _⟩ := htiled.mem_bounds (hinv.chunk ho)
    exact ⟨hl, hu⟩
  · intro off ho off' ho' hne
    refine (htiled.apart (hinv.chunk ho) (hinv.chunk ho')).resolve_left (fun he => hne ?_)
    have h1 := hinv.offset ho
    have h2 := hinv.offset ho'
    have hs : chunkStart c.alloc off = chunkStart c.alloc off' := congrArg Chunk.start he
    omega
  · intro call c' ha hp hw off ho hne
    obtain ⟨ds, fl', hperf⟩ := perform_ok hinv ha hp
    have hagree := hperf.bytes hw off ho hne
    have hstart : chunkStart c'.alloc off = chunkStart c.alloc off := by
      simp only [chunkStart, micaAllocGetItem, hperf.sameData]
    obtain ⟨_, _, hmin, _⟩ := htiled.mem_bounds (hinv.chunk ho)
    simp only [minSize] at hmin
    refine ⟨hperf.kept off ho hne, hstart, ?_, ?_⟩
    · rw [chunkSize, chunkSize, hstart, load64_congr (hagree.mono (Nat.le_refl _) (by omega))]
    · intro addr hall
      obtain ⟨hl, hu⟩ := hall
      exact hagree addr (by omega) (by omega)

theorem live_chunks_isolated_two_items : ∃ c : Session, c.live = [40, 8] ∧
    (chunkStart c.alloc 40 + chunkSize c.alloc 40 ≤ chunkStart c.alloc 8 ∨
      chunkStart c.alloc 8 + chunkSize c.alloc 8 ≤ chunkStart c.alloc 40) := by
  obtain ⟨c, hr, hl⟩ := two_items
  exact ⟨c, hl, (live_chunks_isolated hr).2.1 40 (by simp [hl]) 8 (by simp [hl]) (by decide)⟩

end RdmaBench.Alloc.Sessions
