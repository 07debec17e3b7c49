import RdmaBench.Lib.Bits
import RdmaBench.Lib.Links
import RdmaBench.Alloc.Model

/-! # The heap invariant

A heap is read as a list of chunks in address order. Between the two halves
of an operation a chunk can be neither listed nor tagged yet; such a chunk is
a `hole`. `HeapInv` says what the memory holds for every chunk that is not a
hole, so that it is true in the middle of an operation as well, and `Frame`
says which bytes an operation may change: link words of free chunks and bytes
of holes. A client's bytes are in neither. -/

namespace RdmaBench.Alloc.Heap
open RdmaBench.Lib.Asserts RdmaBench.Lib.ByteMem RdmaBench.Lib.Links RdmaBench.Lib.Bits
open RdmaBench.Alloc.Model

inductive Status where
  | free | occupied | hole
deriving DecidableEq, Repr

structure Chunk where
  start : Nat
  size : Nat
  status : Status
deriving DecidableEq, Repr

/-! ## Tags -/

theorem tagVec_free (size : Nat) : tagVec size free = size := by
  simp [tagVec, free]

theorem tagVec_occupied {size : Nat} (h : size < 2 ^ 63) :
    tagVec size occupied = 2 ^ 63 + size := by
  rw [tagVec, or_shiftLeft_eq_add h, occupied, Nat.one_mul]

theorem tagSize_tagVec {size status : Nat} (h : size < 2 ^ 63) :
    tagSize (tagVec size status) = size := by
  rw [tagSize, Nat.and_two_pow_sub_one_eq_mod, tagVec, or_shiftLeft_eq_add h,
    Nat.mul_add_mod_self_right, Nat.mod_eq_of_lt h]

theorem tagStatus_tagVec {size status : Nat} (h : size < 2 ^ 63) :
    tagStatus (tagVec size status) = status := by
  rw [tagStatus, tagVec, or_shiftLeft_eq_add h, Nat.shiftRight_eq_div_pow]
  omega

/-- Both ends of a chunk carry its size and status; a hole carries nothing. -/
def Chunk.Tagged (m : Mem) (c : Chunk) : Prop :=
  match c.status with
  | .free => load64 m c.start = tagVec c.size free ∧
      load64 m (c.start + c.size - 8) = tagVec c.size free
  | .occupied => load64 m c.start = tagVec c.size occupied ∧
      load64 m (c.start + c.size - 8) = tagVec c.size occupied
  | .hole => True

/-! ## Size classes -/

/-- The class `mica_alloc_size_to_class_rounddown` computes. -/
def classOf (size : Nat) : Nat :=
  if size < minSize + numClasses * classIncrement then (size - minSize) / classIncrement
  else numClasses - 1

theorem rounddown_ok {size : Nat} (hl : minSize ≤ size) (hu : size ≤ maxSize) :
    micaAllocSizeToClassRounddown size = .ok (classOf size) := by
  unfold micaAllocSizeToClassRounddown classOf
  simp only [check, hu, hl, if_true, bind, Except.bind]
  split <;> rfl

/-! ## Tilings -/

/-- The chunks of `cs` cover the addresses from `a` to `b` without gaps. -/
def Tiled : Nat → List Chunk → Nat → Prop
  | a, [], b => a = b
  | a, c :: cs, b => c.start = a ∧ minSize ≤ c.size ∧ 8 ∣ c.size ∧ Tiled (a + c.size) cs b

theorem tiled_append {xs ys : List Chunk} {a b : Nat} :
    Tiled a (xs ++ ys) b ↔ ∃ m, Tiled a xs m ∧ Tiled m ys b := by
  induction xs generalizing a with
  | nil => simp [Tiled]
  | cons c xs ih =>
    simp only [List.cons_append, Tiled, ih]
    constructor
    · rintro ⟨h1, h2, h3, m, h4, h5⟩
      exact ⟨m, ⟨h1, h2, h3, h4⟩, h5⟩
    · rintro ⟨m, ⟨h1, h2, h3, h4⟩, h5⟩
      exact ⟨h1, h2, h3, m, h4, h5⟩

theorem Tiled.le {cs : List Chunk} {a b : Nat} (h : Tiled a cs b) : a ≤ b := by
  induction cs generalizing a with
  | nil => exact Nat.le_of_eq h
  | cons c cs ih =>
    have := ih h.2.2.2
    omega

/-- A chunk of a tiling lies inside it. -/
theorem Tiled.mem_bounds {cs : List Chunk} {a b : Nat} (h : Tiled a cs b) {c : Chunk}
    (hc : c ∈ cs) : a ≤ c.start ∧ c.start + c.size ≤ b ∧ minSize ≤ c.size ∧ 8 ∣ c.size := by
  induction cs generalizing a with
  | nil => cases hc
  | cons d cs ih =>
    obtain ⟨h1, h2, h3, h4⟩ := h
    have hle := h4.le
    rcases List.mem_cons.mp hc with rfl | hc
    · exact ⟨by omega, by omega, h2, h3⟩
    · obtain ⟨hl, hu, hs⟩ := ih h4 hc
      exact ⟨by omega, hu, hs⟩

/-- Chunks of a tiling do not overlap, and no two start at one address. -/
theorem Tiled.apart {cs : List Chunk} {a b : Nat} (h : Tiled a cs b) {c d : Chunk}
    (hc : c ∈ cs) (hd : d ∈ cs) :
    c = d ∨ c.start + c.size ≤ d.start ∨ d.start + d.size ≤ c.start := by
  induction cs generalizing a with
  | nil => cases hc
  | cons e cs ih =>
    obtain ⟨h1, h2, h3, h4⟩ := h
    rcases List.mem_cons.mp hc with rfl | hc' <;> rcases List.mem_cons.mp hd with rfl | hd'
    · exact .inl rfl
    · have := (h4.mem_bounds hd').1
      exact .inr (.inl (by omega))
    · have := (h4.mem_bounds hc').1
      exact .inr (.inr (by omega))
    · exact ih h4 hc' hd'

theorem Tiled.eq_of_start {cs : List Chunk} {a b : Nat} (h : Tiled a cs b) {c d : Chunk}
    (hc : c ∈ cs) (hd : d ∈ cs) (hs : c.start = d.start) : c = d := by
  have hcb := (h.mem_bounds hc).2.2.1
  have hdb := (h.mem_bounds hd).2.2.1
  simp only [minSize] at hcb hdb
  rcases h.apart hc hd with he | he | he
  · exact he
  · omega
  · omega

/-- Retagging one chunk keeps the tiling. -/
theorem Tiled.setStatus {xs ys : List Chunk} {a b st sz : Nat} {t : Status} (t' : Status)
    (h : Tiled a (xs ++ ⟨st, sz, t⟩ :: ys) b) : Tiled a (xs ++ ⟨st, sz, t'⟩ :: ys) b := by
  obtain ⟨m, hx, hy⟩ := tiled_append.mp h
  exact tiled_append.mpr ⟨m, hx, hy⟩

/-- Two adjacent chunks can be seen as one. -/
theorem Tiled.merge {xs ys : List Chunk} {a b st sz st' sz' : Nat} {t t' : Status} (t'' : Status)
    (h : Tiled a (xs ++ ⟨st, sz, t⟩ :: ⟨st', sz', t'⟩ :: ys) b) :
    Tiled a (xs ++ ⟨st, sz + sz', t''⟩ :: ys) b := by
  obtain ⟨m, hx, h1, h2, h3, h4, h5, h6, h7⟩ := tiled_append.mp h
  refine tiled_append.mpr ⟨m, hx, h1, ?_, Nat.dvd_add h3 h6, by rwa [← Nat.add_assoc]⟩
  simp only [minSize] at *
  omega

/-- One chunk can be seen as two. -/
theorem Tiled.split {xs ys : List Chunk} {a b st sz sz' : Nat} {t : Status} (t' t'' : Status)
    (h : Tiled a (xs ++ ⟨st, sz + sz', t⟩ :: ys) b) (hz : minSize ≤ sz) (hz' : minSize ≤ sz')
    (hd : 8 ∣ sz) : Tiled a (xs ++ ⟨st, sz, t'⟩ :: ⟨st + sz, sz', t''⟩ :: ys) b := by
  obtain ⟨m, hx, h1, h2, h3, h4⟩ := tiled_append.mp h
  have hm : st = m := h1
  refine tiled_append.mpr ⟨m, hx, h1, hz, hd, ?_, hz', (Nat.dvd_add_right hd).mp h3, ?_⟩
  · show st + sz = m + sz
    rw [hm]
  · show Tiled (m + sz + sz') ys b
    rwa [Nat.add_assoc]

/-! ## The invariant -/

/-- The cells of the free list of class `k`. -/
def cells (s : MicaAlloc) (k : Nat) : Cells Nat :=
  ⟨s.freeHead k, fun x => load64 s.mem (x + 16), fun x => load64 s.mem (x + 8)⟩

/-- The chunks `cs` tile the heap and carry their tags, and the free lists
hold exactly the free ones, each in the list of its class. -/
structure HeapInv (s : MicaAlloc) (cs : List Chunk) (fl : Nat → List Nat) : Prop where
  dataPos : 0 < s.data
  bound : s.data + s.size ≤ 2 ^ 64
  sizeMax : s.size ≤ maxSize
  tiled : Tiled s.data cs (s.data + s.size)
  tagged : ∀ c ∈ cs, c.Tagged s.mem
  listed : ∀ k, Listed null (cells s k) (fl k)
  nodup : ∀ k, (fl k).Nodup
  members : ∀ k x, x ∈ fl k ↔ ∃ c ∈ cs, c.start = x ∧ c.status = .free ∧ classOf c.size = k

theorem HeapInv.chunk_bounds {s cs fl} (h : HeapInv s cs fl) {c : Chunk} (hc : c ∈ cs) :
    null < c.start ∧ c.start + c.size ≤ 2 ^ 64 ∧ minSize ≤ c.size ∧ c.size ≤ maxSize := by
  obtain ⟨hl, hu, hs, _⟩ := h.tiled.mem_bounds hc
  have h1 := h.dataPos
  have h2 := h.bound
  have h3 := h.sizeMax
  simp only [null]
  exact ⟨by omega, by omega, hs, by omega⟩

theorem HeapInv.null_not_mem {s cs fl} (h : HeapInv s cs fl) (k : Nat) : null ∉ fl k := by
  intro hm
  obtain ⟨c, hc, hs, _⟩ := (h.members k null).mp hm
  have := (h.chunk_bounds hc).1
  omega

/-- Distinct chunk starts are at least a minimal chunk apart. -/
def Apart (x y : Nat) : Prop := x + minSize ≤ y ∨ y + minSize ≤ x

theorem HeapInv.apart {s cs fl} (h : HeapInv s cs fl) {c d : Chunk} (hc : c ∈ cs) (hd : d ∈ cs)
    (hne : c.start ≠ d.start) : Apart c.start d.start := by
  have hcs := (h.chunk_bounds hc).2.2.1
  have hds := (h.chunk_bounds hd).2.2.1
  unfold Apart
  rcases h.tiled.apart hc hd with he | he | he
  · exact absurd (congrArg Chunk.start he) hne
  · omega
  · omega

theorem HeapInv.nodes_apart {s cs fl} (h : HeapInv s cs fl) {j k x y : Nat} (hx : x ∈ fl j)
    (hy : y ∈ fl k) (hne : x ≠ y) : Apart x y := by
  obtain ⟨c, hc, rfl, _⟩ := (h.members j x).mp hx
  obtain ⟨d, hd, rfl, _⟩ := (h.members k y).mp hy
  exact h.apart hc hd hne

/-- A node is in the list of one class only. -/
theorem HeapInv.class_unique {s cs fl} (h : HeapInv s cs fl) {j k x : Nat} (hj : x ∈ fl j)
    (hk : x ∈ fl k) : j = k := by
  obtain ⟨c, hc, hcx, _, hcj⟩ := (h.members j x).mp hj
  obtain ⟨d, hd, hdx, _, hdk⟩ := (h.members k x).mp hk
  have he := h.tiled.eq_of_start hc hd (hcx.trans hdx.symm)
  rw [← hcj, ← hdk, he]

/-! ## What an operation may change -/

/-- Only link words of free chunks and bytes of holes change. -/
def Frame (cs : List Chunk) (m m' : Mem) : Prop :=
  ∀ a, (∀ c ∈ cs, c.status = .free → ¬(c.start + 8 ≤ a ∧ a < c.start + 24)) →
    (∀ c ∈ cs, c.status = .hole → ¬(c.start ≤ a ∧ a < c.start + c.size)) → m' a = m a

theorem Frame.trans {cs : List Chunk} {m m' m'' : Mem} (h : Frame cs m m') (h' : Frame cs m' m'') :
    Frame cs m m'' := fun a hf hh => (h' a hf hh).trans (h a hf hh)

/-- An occupied chunk keeps all its bytes. -/
theorem Frame.occupied {cs : List Chunk} {m m' : Mem} {a b : Nat} (ht : Tiled a cs b)
    (hf : Frame cs m m') {c : Chunk} (hc : c ∈ cs) (ho : c.status = .occupied) :
    Agree m m' c.start c.size := by
  intro x hl hu
  apply hf x
  · intro d hd hdf hx
    have hds := (ht.mem_bounds hd).2.2.1
    simp only [minSize] at hds
    rcases ht.apart hc hd with rfl | he | he
    · rw [ho] at hdf; cases hdf
    · omega
    · omega
  · intro d hd hdh hx
    rcases ht.apart hc hd with rfl | he | he
    · rw [ho] at hdh; cases hdh
    · omega
    · omega

/-- A free chunk keeps the bytes outside its link words. -/
theorem Frame.free {cs : List Chunk} {m m' : Mem} {a b : Nat} (ht : Tiled a cs b)
    (hf : Frame cs m m') {c : Chunk} (hc : c ∈ cs) (ho : c.status = .free) {x n : Nat}
    (hl : c.start ≤ x) (hu : x + n ≤ c.start + c.size)
    (hx : x + n ≤ c.start + 8 ∨ c.start + 24 ≤ x) : Agree m m' x n := by
  intro y hly huy
  apply hf y
  · intro d hd hdf hy
    have hds := (ht.mem_bounds hd).2.2.1
    simp only [minSize] at hds
    rcases ht.apart hc hd with rfl | he | he <;> omega
  · intro d hd hdh hy
    rcases ht.apart hc hd with rfl | he | he
    · rw [ho] at hdh; cases hdh
    · omega
    · omega

theorem Chunk.Tagged.congr {c : Chunk} {m m' : Mem} (h : c.Tagged m) (h1 : Agree m m' c.start 8)
    (h2 : Agree m m' (c.start + c.size - 8) 8) : c.Tagged m' := by
  have e1 := load64_congr h1
  have e2 := load64_congr h2
  obtain ⟨st, sz, status⟩ := c
  cases status with
  | hole => trivial
  | free => exact ⟨e1.trans h.1, e2.trans h.2⟩
  | occupied => exact ⟨e1.trans h.1, e2.trans h.2⟩

theorem Frame.tagged {cs : List Chunk} {m m' : Mem} {a b : Nat} (ht : Tiled a cs b)
    (hf : Frame cs m m') {c : Chunk} (hc : c ∈ cs) (h : c.Tagged m) : c.Tagged m' := by
  have hsz := (ht.mem_bounds hc).2.2.1
  simp only [minSize] at hsz
  cases hst : c.status with
  | hole => simp [Chunk.Tagged, hst]
  | free =>
    exact h.congr (hf.free ht hc hst (Nat.le_refl _) (by omega) (.inl (Nat.le_refl _)))
      (hf.free ht hc hst (by omega) (by omega) (.inr (by omega)))
  | occupied =>
    have ho := hf.occupied ht hc hst
    exact h.congr (ho.mono (Nat.le_refl _) (by omega)) (ho.mono (by omega) (by omega))

/-! ## Seeing the same memory as other chunks -/

variable {s : MicaAlloc} {cs xs ys : List Chunk} {fl : Nat → List Nat} {st sz : Nat}

/-- The same memory read as another tiling with the same free chunks, whose
occupied chunks were chunks before. -/
theorem HeapInv.regroup (h : HeapInv s cs fl) {ds : List Chunk}
    (ht : Tiled s.data ds (s.data + s.size))
    (hf : ∀ c : Chunk, c.status = .free → (c ∈ ds ↔ c ∈ cs))
    (ho : ∀ c ∈ ds, c.status = .occupied → c ∈ cs) : HeapInv s ds fl := by
  refine ⟨h.dataPos, h.bound, h.sizeMax, ht, ?_, h.listed, h.nodup, ?_⟩
  · intro c hc
    cases hst : c.status with
    | free => exact h.tagged c ((hf c hst).mp hc)
    | occupied => exact h.tagged c (ho c hc hst)
    | hole => simp [Chunk.Tagged, hst]
  · intro k x
    rw [h.members]
    constructor
    · rintro ⟨c, hc, hs, hcf, hk⟩
      exact ⟨c, (hf c hcf).mpr hc, hs, hcf, hk⟩
    · rintro ⟨c, hc, hs, hcf, hk⟩
      exact ⟨c, (hf c hcf).mp hc, hs, hcf, hk⟩

/-- Open an occupied chunk. -/
theorem HeapInv.openChunk (h : HeapInv s (xs ++ ⟨st, sz, .occupied⟩ :: ys) fl) :
    HeapInv s (xs ++ ⟨st, sz, .hole⟩ :: ys) fl := by
  refine h.regroup (h.tiled.setStatus .hole) (fun c hc => ?_) (fun c hc ho => ?_)
  · have h1 : c ≠ ⟨st, sz, .hole⟩ := by rintro rfl; cases hc
    have h2 : c ≠ ⟨st, sz, .occupied⟩ := by rintro rfl; cases hc
    simp [h1, h2]
  · have h1 : c ≠ ⟨st, sz, .hole⟩ := by rintro rfl; cases ho
    simpa [h1] using Or.imp_right Or.inr (by simpa [h1] using hc : c ∈ xs ∨ c ∈ ys)

/-- Two adjacent holes are one. -/
theorem HeapInv.merge {st' sz' : Nat}
    (h : HeapInv s (xs ++ ⟨st, sz, .hole⟩ :: ⟨st', sz', .hole⟩ :: ys) fl) :
    HeapInv s (xs ++ ⟨st, sz + sz', .hole⟩ :: ys) fl := by
  refine h.regroup (h.tiled.merge .hole) (fun c hc => ?_) (fun c hc ho => ?_)
  · have hne : ∀ a b, c ≠ ⟨a, b, .hole⟩ := by rintro a b rfl; cases hc
    simp [hne]
  · have hne : ∀ a b, c ≠ ⟨a, b, .hole⟩ := by rintro a b rfl; cases ho
    simpa [hne] using hc

/-- One hole is two. -/
theorem HeapInv.split {sz' : Nat} (h : HeapInv s (xs ++ ⟨st, sz + sz', .hole⟩ :: ys) fl)
    (hz : minSize ≤ sz) (hz' : minSize ≤ sz') (hd : 8 ∣ sz) :
    HeapInv s (xs ++ ⟨st, sz, .hole⟩ :: ⟨st + sz, sz', .hole⟩ :: ys) fl := by
  refine h.regroup (h.tiled.split .hole .hole hz hz' hd) (fun c hc => ?_) (fun c hc ho => ?_)
  · have hne : ∀ a b, c ≠ ⟨a, b, .hole⟩ := by rintro a b rfl; cases hc
    simp [hne]
  · have hne : ∀ a b, c ≠ ⟨a, b, .hole⟩ := by rintro a b rfl; cases ho
    simpa [hne] using hc

/-- The free lists survive any change that keeps the free chunks. -/
theorem HeapInv.listed_of_agree (h : HeapInv s cs fl) {m : Mem}
    (ha : ∀ c ∈ cs, c.status = .free → Agree s.mem m c.start c.size) (k : Nat) :
    Listed null (cells { s with mem := m } k) (fl k) := by
  have hw : ∀ x ∈ fl k, Agree s.mem m x minSize := by
    intro x hx
    obtain ⟨c, hc, rfl, hf, _⟩ := (h.members k x).mp hx
    have hs := (h.chunk_bounds hc).2.2.1
    exact (ha c hc hf).mono (Nat.le_refl _) (by omega)
  refine (h.listed k).congr rfl (fun x hx => ?_) (fun x hx => ?_)
  · exact load64_congr ((hw x hx).mono (by omega) (by simp only [minSize]; omega))
  · exact load64_congr ((hw x hx).mono (by omega) (by simp only [minSize]; omega))

end RdmaBench.Alloc.Heap
