import RdmaBench.Alloc.Heap

/-! # Unlinking and pushing chunks

`mica_alloc_remove_free_chunk_from_free_list` and
`mica_alloc_insert_free_chunk` are both sequences of two writes: "the node
after `p` is `v`", where `p = NULL` means the head of a class, and "the node
before `q` is `v`". Each write is described once on the cells of every class;
the two specifications below are assembled from these descriptions. -/

namespace RdmaBench.Alloc.FreeLists
open RdmaBench.Lib.Asserts RdmaBench.Lib.ByteMem RdmaBench.Lib.Links
open RdmaBench.Alloc.Model RdmaBench.Alloc.Heap

/-- Make `v` the node after `p` in class `k`. -/
def setNext (s : MicaAlloc) (k p v : Nat) : MicaAlloc :=
  if p ≠ null then { s with mem := store64 s.mem (p + 16) v }
  else { s with freeHead := Function.update s.freeHead k v }

/-- Make `v` the node before `q`; nothing records what is before the end. -/
def setPrev (s : MicaAlloc) (q v : Nat) : MicaAlloc :=
  if q ≠ null then { s with mem := store64 s.mem (q + 8) v } else s

variable {s : MicaAlloc} {j k p q v x : Nat}

@[simp] theorem setNext_data : (setNext s k p v).data = s.data := by
  unfold setNext; split <;> rfl
@[simp] theorem setNext_size : (setNext s k p v).size = s.size := by
  unfold setNext; split <;> rfl
@[simp] theorem setPrev_data : (setPrev s q v).data = s.data := by
  unfold setPrev; split <;> rfl
@[simp] theorem setPrev_size : (setPrev s q v).size = s.size := by
  unfold setPrev; split <;> rfl

/-! ## The cells after a write -/

theorem succ_setNext_same (hv : v < 2 ^ 64) : succ null (cells (setNext s k p v) k) p = v := by
  unfold setNext
  split
  · rename_i hp
    rw [succ_of_ne hp]
    exact load64_store64_same hv
  · rename_i hp
    simp only [not_not] at hp
    simp [hp, succ, cells]

theorem succ_setNext_other (hx : x ≠ p) (ha : x ≠ null → p ≠ null → Apart x p) :
    succ null (cells (setNext s k p v) k) x = succ null (cells s k) x := by
  unfold setNext
  split
  · rename_i hp
    by_cases hx0 : x = null
    · simp [succ, hx0, cells]
    · have hd := ha hx0 hp
      simp only [Apart, minSize] at hd
      rw [succ_of_ne hx0, succ_of_ne hx0]
      exact load64_store64_disjoint (by omega)
  · rename_i hp
    simp only [not_not] at hp
    have hx0 : x ≠ null := fun h => hx (h.trans hp.symm)
    simp [succ, hx0, cells]

/-- The cells of another class change only at `p`, which is not one of its nodes. -/
theorem succ_setNext_class (hj : j ≠ k) (ha : x ≠ null → p ≠ null → Apart x p) :
    succ null (cells (setNext s k p v) j) x = succ null (cells s j) x := by
  unfold setNext
  split
  · rename_i hp
    by_cases hx0 : x = null
    · simp [succ, hx0, cells]
    · have hd := ha hx0 hp
      simp only [Apart, minSize] at hd
      rw [succ_of_ne hx0, succ_of_ne hx0]
      exact load64_store64_disjoint (by omega)
  · by_cases hx0 : x = null
    · simp [succ, hx0, cells, Function.update_of_ne hj]
    · simp [succ, hx0, cells]

theorem prv_setNext (ha : p ≠ null → x = p ∨ Apart x p) :
    (cells (setNext s k p v) j).prv x = (cells s j).prv x := by
  unfold setNext
  split
  · rename_i hp
    refine load64_store64_disjoint ?_
    rcases ha hp with rfl | hd
    · omega
    · simp only [Apart, minSize] at hd
      omega
  · rfl

theorem prv_setPrev_same (hq : q ≠ null) (hv : v < 2 ^ 64) :
    (cells (setPrev s q v) j).prv q = v := by
  simp only [setPrev, hq, ne_eq, not_false_eq_true, if_true]
  exact load64_store64_same hv

theorem prv_setPrev_other (ha : q ≠ null → Apart x q) :
    (cells (setPrev s q v) j).prv x = (cells s j).prv x := by
  unfold setPrev
  split
  · rename_i hq
    have hd := ha hq
    simp only [Apart, minSize] at hd
    exact load64_store64_disjoint (by omega)
  · rfl

theorem succ_setPrev (ha : x ≠ null → q ≠ null → x = q ∨ Apart x q) :
    succ null (cells (setPrev s q v) j) x = succ null (cells s j) x := by
  unfold setPrev
  split
  · rename_i hq
    by_cases hx0 : x = null
    · simp [succ, hx0, cells]
    · rw [succ_of_ne hx0, succ_of_ne hx0]
      refine load64_store64_disjoint ?_
      rcases ha hx0 hq with rfl | hd
      · omega
      · simp only [Apart, minSize] at hd
        omega
  · rfl

/-! ## The bytes a write may change -/

/-- A chunk whose link words an operation may write. -/
def Chunk.Linkable (c : Chunk) : Prop := c.status = .free ∨ c.status = .hole ∧ minSize ≤ c.size

theorem store_link_frame {cs : List Chunk} {m : Mem} {c : Chunk} {w : Nat} (hc : c ∈ cs)
    (hl : Chunk.Linkable c) (hlo : c.start + 8 ≤ w) (hhi : w + 8 ≤ c.start + 24) :
    Frame cs m (store64 m w v) := by
  intro a hf hh
  refine store64_agree (n := 1) (b := a) ?_ a (Nat.le_refl _) (by omega)
  rcases hl with hcf | ⟨hch, hsz⟩
  · have := hf c hc hcf
    omega
  · have := hh c hc hch
    simp only [minSize] at hsz
    omega

theorem setNext_frame {cs : List Chunk}
    (hp : p ≠ null → ∃ c ∈ cs, c.start = p ∧ Chunk.Linkable c) :
    Frame cs s.mem (setNext s k p v).mem := by
  unfold setNext
  split
  · rename_i hp0
    obtain ⟨c, hc, rfl, hl⟩ := hp hp0
    exact store_link_frame hc hl (by omega) (by omega)
  · exact fun _ _ _ => rfl

theorem setPrev_frame {cs : List Chunk}
    (hq : q ≠ null → ∃ c ∈ cs, c.start = q ∧ Chunk.Linkable c) :
    Frame cs s.mem (setPrev s q v).mem := by
  unfold setPrev
  split
  · rename_i hq0
    obtain ⟨c, hc, rfl, hl⟩ := hq hq0
    exact store_link_frame hc hl (by omega) (by omega)
  · exact fun _ _ _ => rfl

theorem node_linkable {cs fl} (h : HeapInv s cs fl) (hx : x ∈ fl k) :
    ∃ c ∈ cs, c.start = x ∧ Chunk.Linkable c := by
  obtain ⟨c, hc, he, hf, _⟩ := (h.members k x).mp hx
  exact ⟨c, hc, he, .inl hf⟩

/-! ## Removing a chunk -/

/-- What `remove` writes for a node `a` of class `k`. -/
def relink (s : MicaAlloc) (k a : Nat) : MicaAlloc :=
  setPrev (setNext s k (load64 s.mem (a + 8)) (load64 s.mem (a + 16)))
    (load64 s.mem (a + 16)) (load64 s.mem (a + 8))

theorem remove_eq {cs fl} (h : HeapInv s cs fl) {c : Chunk} (hc : c ∈ cs) (hf : c.status = .free) :
    micaAllocRemoveFreeChunkFromFreeList s c.start c.size =
      .ok (relink s (classOf c.size) c.start) := by
  obtain ⟨_, _, hmin, hmax⟩ := h.chunk_bounds hc
  have hm : c.start ∈ fl (classOf c.size) := (h.members _ _).mpr ⟨c, hc, rfl, hf, rfl⟩
  unfold micaAllocRemoveFreeChunkFromFreeList relink
  by_cases hp : load64 s.mem (c.start + 8) = null
  · -- a chunk with no predecessor is the head of its class
    have hh : s.freeHead (classOf c.size) = c.start :=
      (h.listed (classOf c.size)).first_of_prv hm (h.null_not_mem _) hp
    simp only [hp, ne_eq, not_true_eq_false, if_false, rounddown_ok hmin hmax, check, hh, if_true,
      setNext, setPrev, bind, Except.bind, pure, Except.pure]
    split <;> rfl
  · simp only [hp, ne_eq, not_false_eq_true, if_true, setNext, setPrev, bind, Except.bind, pure,
      Except.pure]
    split <;> rfl

/-- The chunk list with one status changed has the same starts. -/
theorem starts_setStatus {xs ys : List Chunk} {a b st sz : Nat} {t t' : Status}
    (ht : Tiled a (xs ++ ⟨st, sz, t⟩ :: ys) b) {c : Chunk} (hc : c ∈ xs ++ ⟨st, sz, t'⟩ :: ys) :
    c = ⟨st, sz, t'⟩ ∨ c ∈ xs ++ ⟨st, sz, t⟩ :: ys ∧ c.start ≠ st := by
  by_cases he : c = ⟨st, sz, t'⟩
  · exact .inl he
  · have hm : c ∈ xs ∨ c ∈ ys := by simpa [he] using hc
    refine .inr ⟨?_, ?_⟩
    · rcases hm with hm | hm <;> simp [hm]
    · intro hs
      have hc' : c ∈ xs ++ ⟨st, sz, t'⟩ :: ys := by rcases hm with hm | hm <;> simp [hm]
      exact he ((ht.setStatus t').eq_of_start hc' (by simp) hs)

theorem members_setStatus {xs ys : List Chunk} {a b st sz : Nat} {t t' : Status} {k x : Nat}
    (ht : Tiled a (xs ++ ⟨st, sz, t⟩ :: ys) b) (hx : x ≠ st) :
    (∃ c ∈ xs ++ ⟨st, sz, t'⟩ :: ys, c.start = x ∧ c.status = .free ∧ classOf c.size = k) ↔
      ∃ c ∈ xs ++ ⟨st, sz, t⟩ :: ys, c.start = x ∧ c.status = .free ∧ classOf c.size = k := by
  constructor
  · rintro ⟨c, hc, hs, hr⟩
    rcases starts_setStatus ht hc with rfl | ⟨hm, _⟩
    · exact absurd hs.symm hx
    · exact ⟨c, hm, hs, hr⟩
  · rintro ⟨c, hc, hs, hr⟩
    rcases starts_setStatus (ht.setStatus t') hc with rfl | ⟨hm, _⟩
    · exact absurd hs.symm hx
    · exact ⟨c, hm, hs, hr⟩

/-- The neighbours of a node are null or other nodes of its list. -/
theorem neighbours {cs fl} (h : HeapInv s cs fl) {a : Nat} (ha : a ∈ fl k) :
    (load64 s.mem (a + 8) ≠ null → load64 s.mem (a + 8) ∈ fl k) ∧
      (load64 s.mem (a + 16) ≠ null → load64 s.mem (a + 16) ∈ fl k) := by
  have ha0 : a ≠ null := fun he => h.null_not_mem k (he ▸ ha)
  obtain ⟨us, vs, hsplit⟩ := List.append_of_mem ha
  have hl := h.listed k
  rw [hsplit] at hl ⊢
  have hp : load64 s.mem (a + 8) = null ∨ load64 s.mem (a + 8) ∈ us :=
    List.mem_cons.mp (Seg.prv_mem hl)
  have hq : load64 s.mem (a + 16) = null ∨ load64 s.mem (a + 16) ∈ vs := Seg.nxt_mem hl ha0
  exact ⟨fun h0 => List.mem_append_left _ (hp.resolve_left h0),
    fun h0 => List.mem_append_right _ (List.mem_cons_of_mem _ (hq.resolve_left h0))⟩

theorem relink_frame {cs fl} (h : HeapInv s cs fl) {a : Nat} (ha : a ∈ fl k) :
    Frame cs s.mem (relink s k a).mem := by
  obtain ⟨hp, hq⟩ := neighbours h ha
  exact (setNext_frame fun h0 => node_linkable h (hp h0)).trans
    (setPrev_frame fun h0 => node_linkable h (hq h0))

/-- Equal nodes or nodes a chunk apart, for any two nodes of the lists. -/
theorem nodes_eq_or_apart {cs fl} (h : HeapInv s cs fl) {y : Nat} (hx : x ∈ fl j) (hy : y ∈ fl k) :
    x = y ∨ Apart x y := by
  by_cases he : x = y
  · exact .inl he
  · exact .inr (h.nodes_apart hx hy he)

theorem relink_listed_same {cs fl} (h : HeapInv s cs fl) {us vs : List Nat} {a : Nat}
    (hsplit : fl k = us ++ a :: vs) : Listed null (cells (relink s k a) k) (us ++ vs) := by
  have ha : a ∈ fl k := by simp [hsplit]
  obtain ⟨hp, hq⟩ := neighbours h ha
  have hl := h.listed k
  have hnd := h.nodup k
  have hn0 := h.null_not_mem k
  have hmem : ∀ x ∈ us ++ vs, x ∈ fl k := by
    intro x hx
    rw [hsplit]
    rcases List.mem_append.mp hx with hx | hx <;> simp [hx]
  rw [hsplit] at hl hnd hn0
  have hmem0 : ∀ x ∈ null :: (us ++ vs), x ≠ null → x ∈ fl k := by
    intro x hx hx0
    rcases List.mem_cons.mp hx with rfl | hx
    · exact absurd rfl hx0
    · exact hmem x hx
  refine Seg.unlink hl (List.nodup_cons.mpr ⟨hn0, hnd⟩) hn0 ?_ ?_ ?_ ?_
  · refine (succ_setPrev fun h0 h1 => ?_).trans (succ_setNext_same (load64_lt _ _))
    exact nodes_eq_or_apart h (hp h0) (hq h1)
  · exact fun h0 => prv_setPrev_same h0 (load64_lt _ _)
  · intro x hx hne
    refine (succ_setPrev fun h0 h1 => ?_).trans (succ_setNext_other hne fun h0 h1 => ?_)
    · exact nodes_eq_or_apart h (hmem0 x hx h0) (hq h1)
    · exact h.nodes_apart (hmem0 x hx h0) (hp h1) hne
  · intro x hx hne
    refine (prv_setPrev_other fun h0 => ?_).trans (prv_setNext fun h0 => ?_)
    · exact h.nodes_apart (hmem x hx) (hq h0) hne
    · exact nodes_eq_or_apart h (hmem x hx) (hp h0)

theorem relink_listed_other {cs fl} (h : HeapInv s cs fl) {a : Nat} (ha : a ∈ fl k) (hj : j ≠ k) :
    Listed null (cells (relink s k a) j) (fl j) := by
  obtain ⟨hp, hq⟩ := neighbours h ha
  -- a node of another class is none of the nodes written
  have hne : ∀ x ∈ fl j, ∀ y ∈ fl k, Apart x y := by
    intro x hx y hy
    refine h.nodes_apart hx hy ?_
    rintro rfl
    exact hj (h.class_unique hx hy)
  refine Seg.congr (h.listed j) (fun x hx => ?_) (fun x hx => ?_)
  · have hx0 : x ≠ null → x ∈ fl j := fun h0 => (List.mem_cons.mp hx).resolve_left h0
    refine (succ_setPrev fun h0 h1 => .inr ?_).trans (succ_setNext_class hj fun h0 h1 => ?_)
    · exact hne x (hx0 h0) _ (hq h1)
    · exact hne x (hx0 h0) _ (hp h1)
  · refine (prv_setPrev_other fun h0 => ?_).trans (prv_setNext fun h0 => .inr ?_)
    · exact hne x hx _ (hq h0)
    · exact hne x hx _ (hp h0)

/-- Removing a free chunk turns it into a hole and takes it out of the list
of its class. -/
theorem remove_ok {xs ys : List Chunk} {st sz : Nat} {fl : Nat → List Nat}
    (h : HeapInv s (xs ++ ⟨st, sz, .free⟩ :: ys) fl) :
    ∃ s', micaAllocRemoveFreeChunkFromFreeList s st sz = .ok s' ∧
      HeapInv s' (xs ++ ⟨st, sz, .hole⟩ :: ys)
        (Function.update fl (classOf sz) ((fl (classOf sz)).erase st)) ∧
      Frame (xs ++ ⟨st, sz, .free⟩ :: ys) s.mem s'.mem ∧ s'.data = s.data ∧ s'.size = s.size := by
  have hc : (⟨st, sz, .free⟩ : Chunk) ∈ xs ++ ⟨st, sz, .free⟩ :: ys := by simp
  have hm : st ∈ fl (classOf sz) := (h.members _ _).mpr ⟨_, hc, rfl, rfl, rfl⟩
  have hframe := relink_frame h hm
  have hd : (relink s (classOf sz) st).data = s.data := by simp [relink]
  have hz : (relink s (classOf sz) st).size = s.size := by simp [relink]
  refine ⟨relink s (classOf sz) st, remove_eq (c := ⟨st, sz, .free⟩) h hc rfl, ?_, hframe, hd, hz⟩
  refine ⟨hd ▸ h.dataPos, hd ▸ hz ▸ h.bound, hz ▸ h.sizeMax, hd ▸ hz ▸ h.tiled.setStatus .hole,
    ?_, ?_, ?_, ?_⟩
  · intro c hcm
    rcases starts_setStatus h.tiled hcm with rfl | ⟨hcm, _⟩
    · trivial
    · exact hframe.tagged h.tiled hcm (h.tagged c hcm)
  · intro j
    by_cases hj : j = classOf sz
    · obtain ⟨us, vs, hsplit⟩ := List.append_of_mem hm
      have hnd := h.nodup (classOf sz)
      rw [hsplit] at hnd
      have hus : st ∉ us := fun hu => (List.nodup_append.mp hnd).2.2 _ hu _ (by simp) rfl
      have herase : (fl (classOf sz)).erase st = us ++ vs := by
        rw [hsplit, List.erase_append_right _ hus, List.erase_cons_head]
      rw [hj, Function.update_self, herase]
      exact relink_listed_same h hsplit
    · rw [Function.update_of_ne hj]
      exact relink_listed_other h hm hj
  · intro j
    by_cases hj : j = classOf sz
    · rw [hj, Function.update_self]
      exact (h.nodup _).erase st
    · rw [Function.update_of_ne hj]
      exact h.nodup j
  · intro j x
    by_cases hx : x = st
    · subst hx
      have hl : x ∉ Function.update fl (classOf sz) ((fl (classOf sz)).erase x) j := by
        by_cases hj : j = classOf sz
        · rw [hj, Function.update_self]
          exact (h.nodup _).not_mem_erase
        · rw [Function.update_of_ne hj]
          exact fun hxj => hj (h.class_unique hxj hm)
      simp only [hl, false_iff]
      rintro ⟨c, hcm, hs, hf, _⟩
      rcases starts_setStatus h.tiled hcm with rfl | ⟨_, hne⟩
      · cases hf
      · exact hne hs
    · rw [members_setStatus h.tiled hx, ← h.members]
      by_cases hj : j = classOf sz
      · rw [hj, Function.update_self]
        exact List.mem_erase_of_ne hx
      · rw [Function.update_of_ne hj]

/-! ## Inserting a chunk -/

/-- Write one tag at both ends of a chunk. -/
def tagBoth (s : MicaAlloc) (st sz tag : Nat) : MicaAlloc :=
  { s with mem := store64 (store64 s.mem (st + sz - 8) tag) st tag }

/-- What `insert` writes to put node `a` before the head of class `k`. -/
def pushNode (s : MicaAlloc) (k a : Nat) : MicaAlloc :=
  setNext (setPrev (setNext (setPrev s a null) k a (s.freeHead k)) (s.freeHead k) a) k null a

@[simp] theorem tagBoth_data {st sz t : Nat} : (tagBoth s st sz t).data = s.data := rfl
@[simp] theorem tagBoth_size {st sz t : Nat} : (tagBoth s st sz t).size = s.size := rfl
@[simp] theorem tagBoth_freeHead {st sz t : Nat} : (tagBoth s st sz t).freeHead = s.freeHead := rfl

theorem tagBoth_agree {st sz t b n : Nat} (hsz : minSize ≤ sz)
    (h : b + n ≤ st ∨ st + sz ≤ b) : Agree s.mem (tagBoth s st sz t).mem b n := by
  simp only [minSize] at hsz
  exact (store64_agree (by omega)).trans (store64_agree (by omega))

theorem tagBoth_frame {cs : List Chunk} {st sz t : Nat} (hc : ⟨st, sz, .hole⟩ ∈ cs)
    (hsz : minSize ≤ sz) : Frame cs s.mem (tagBoth s st sz t).mem := by
  intro a _ hh
  have := hh _ hc rfl
  simp only at this
  exact tagBoth_agree hsz (n := 1) (b := a) (by omega) a (Nat.le_refl _) (by omega)

theorem tagBoth_tags {st sz t : Nat} (hsz : minSize ≤ sz) (ht : t < 2 ^ 64) :
    load64 (tagBoth s st sz t).mem st = t ∧ load64 (tagBoth s st sz t).mem (st + sz - 8) = t := by
  simp only [minSize] at hsz
  refine ⟨load64_store64_same ht, ?_⟩
  exact (load64_store64_disjoint (by omega)).trans (load64_store64_same ht)

/-- A chunk start other than `st` lies outside the chunk at `st`. -/
theorem node_outside {cs fl} (h : HeapInv s cs fl) {c : Chunk} (hc : c ∈ cs) (hx : x ∈ fl j)
    (hne : x ≠ c.start) : x + minSize ≤ c.start ∨ c.start + c.size ≤ x := by
  obtain ⟨d, hd, rfl, _⟩ := (h.members j x).mp hx
  have hds := (h.chunk_bounds hd).2.2.1
  rcases h.tiled.apart hd hc with he | he | he
  · exact absurd (congrArg Chunk.start he) hne
  · exact .inl (by omega)
  · exact .inr he

/-- A node other than the one pushed keeps its cells, except that the old
head gets a predecessor. -/
theorem pushNode_cells {a : Nat} (ha : a ≠ null) (hxa : Apart x a) (hx0 : x ≠ null)
    (hxh : s.freeHead k ≠ null → x = s.freeHead k ∨ Apart x (s.freeHead k)) :
    succ null (cells (pushNode s k a) j) x = succ null (cells s j) x ∧
      (x ≠ s.freeHead k → (cells (pushNode s k a) j).prv x = (cells s j).prv x) := by
  have hne : x ≠ a := by
    rintro rfl
    simp only [Apart, minSize] at hxa
    omega
  have hput : ∀ (s : MicaAlloc) (p v : Nat), x ≠ p → (x ≠ null → p ≠ null → Apart x p) →
      succ null (cells (setNext s k p v) j) x = succ null (cells s j) x := by
    intro s p v hxp hap
    by_cases hj : j = k
    · rw [hj]; exact succ_setNext_other hxp hap
    · exact succ_setNext_class hj hap
  constructor
  · calc succ null (cells (pushNode s k a) j) x
        = succ null (cells (setPrev (setNext (setPrev s a null) k a (s.freeHead k))
            (s.freeHead k) a) j) x := hput _ _ _ hx0 fun _ h => absurd rfl h
      _ = succ null (cells (setNext (setPrev s a null) k a (s.freeHead k)) j) x :=
          succ_setPrev fun _ h => hxh h
      _ = succ null (cells (setPrev s a null) j) x := hput _ _ _ hne fun _ _ => hxa
      _ = succ null (cells s j) x := succ_setPrev fun _ _ => .inr hxa
  · intro hh
    calc (cells (pushNode s k a) j).prv x
        = (cells (setPrev (setNext (setPrev s a null) k a (s.freeHead k)) (s.freeHead k) a)
            j).prv x :=
          prv_setNext fun h => absurd rfl h
      _ = (cells (setNext (setPrev s a null) k a (s.freeHead k)) j).prv x :=
          prv_setPrev_other fun h => (hxh h).resolve_left hh
      _ = (cells (setPrev s a null) j).prv x := prv_setNext fun _ => .inr hxa
      _ = (cells s j).prv x := prv_setPrev_other fun _ => hxa

/-- The pushed node stands before the old head, with nothing before it. -/
theorem pushNode_new {a : Nat} (ha : a ≠ null) (hav : a < 2 ^ 64) (hhv : s.freeHead k < 2 ^ 64)
    (hah : s.freeHead k ≠ null → Apart a (s.freeHead k)) :
    succ null (cells (pushNode s k a) k) null = a ∧
      succ null (cells (pushNode s k a) k) a = s.freeHead k ∧
      (cells (pushNode s k a) k).prv a = null ∧
      (s.freeHead k ≠ null → (cells (pushNode s k a) k).prv (s.freeHead k) = a) := by
  refine ⟨succ_setNext_same hav, ?_, ?_, ?_⟩
  · calc succ null (cells (pushNode s k a) k) a
        = succ null (cells (setPrev (setNext (setPrev s a null) k a (s.freeHead k))
            (s.freeHead k) a) k) a := succ_setNext_other ha fun _ h => absurd rfl h
      _ = succ null (cells (setNext (setPrev s a null) k a (s.freeHead k)) k) a :=
          succ_setPrev fun _ h => .inr (hah h)
      _ = s.freeHead k := succ_setNext_same hhv
  · calc (cells (pushNode s k a) k).prv a
        = (cells (setPrev (setNext (setPrev s a null) k a (s.freeHead k)) (s.freeHead k) a)
            k).prv a :=
          prv_setNext fun h => absurd rfl h
      _ = (cells (setNext (setPrev s a null) k a (s.freeHead k)) k).prv a :=
          prv_setPrev_other hah
      _ = (cells (setPrev s a null) k).prv a := prv_setNext fun _ => .inl rfl
      _ = null := prv_setPrev_same ha (by simp [null])
  · intro h0
    exact (prv_setNext fun h => absurd rfl h).trans (prv_setPrev_same h0 hav)

/-- The heads of the other classes stay. -/
theorem pushNode_head_other {a : Nat} (hj : j ≠ k) :
    succ null (cells (pushNode s k a) j) null = succ null (cells s j) null :=
  calc succ null (cells (pushNode s k a) j) null
      = succ null (cells (setPrev (setNext (setPrev s a null) k a (s.freeHead k))
          (s.freeHead k) a) j) null := succ_setNext_class hj fun h => absurd rfl h
    _ = succ null (cells (setNext (setPrev s a null) k a (s.freeHead k)) j) null :=
        succ_setPrev fun h => absurd rfl h
    _ = succ null (cells (setPrev s a null) j) null :=
        succ_setNext_class hj fun h => absurd rfl h
    _ = succ null (cells s j) null := succ_setPrev fun h => absurd rfl h

/-- The head of a class is null or a node of its list with nothing before it. -/
theorem head_node {cs fl} (h : HeapInv s cs fl) (h0 : s.freeHead k ≠ null) :
    s.freeHead k ∈ fl k ∧ load64 s.mem (s.freeHead k + 8) = null :=
  (h.listed k).first_mem h0

theorem insert_eq {xs ys : List Chunk} {st sz : Nat} {fl : Nat → List Nat}
    (h : HeapInv s (xs ++ ⟨st, sz, .hole⟩ :: ys) fl) (hst : st ∉ fl (classOf sz)) :
    micaAllocInsertFreeChunk s st sz =
      .ok (pushNode (tagBoth s st sz (tagVec sz free)) (classOf sz) st) := by
  have hc : (⟨st, sz, .hole⟩ : Chunk) ∈ xs ++ ⟨st, sz, .hole⟩ :: ys := by simp
  obtain ⟨hst0, _, hmin, hmax⟩ := h.chunk_bounds hc
  have ha : st ≠ null := Nat.ne_of_gt hst0
  unfold micaAllocInsertFreeChunk pushNode
  by_cases h0 : s.freeHead (classOf sz) = null
  · simp [rounddown_ok hmin hmax, h0, setNext, setPrev, ha, tagBoth, bind, Except.bind, pure,
      Except.pure]
  · -- the writes so far are inside the chunk, so the old head still has no predecessor
    obtain ⟨hm, hp⟩ := head_node h h0
    have hne : s.freeHead (classOf sz) ≠ st := fun he => hst (he ▸ hm)
    have hout := node_outside h hc hm hne
    have hkeep : load64 (store64 (store64 (store64 (store64 s.mem (st + sz - 8) (tagVec sz free)) st
        (tagVec sz free)) (st + 8) null) (st + 16) (s.freeHead (classOf sz)))
        (s.freeHead (classOf sz) + 8) = null := by
      simp only [minSize] at hout hmin
      rw [load64_store64_disjoint (by omega), load64_store64_disjoint (by omega),
        load64_store64_disjoint (by omega), load64_store64_disjoint (by omega)]
      exact hp
    simp [rounddown_ok hmin hmax, h0, setNext, setPrev, ha, tagBoth, check, hkeep, bind,
      Except.bind, pure, Except.pure]

theorem pushNode_frame {cs fl} (h : HeapInv s cs fl) {s' : MicaAlloc}
    (hh : s'.freeHead = s.freeHead)
    {ds : List Chunk} {c : Chunk} (hc : c ∈ ds) (hl : Chunk.Linkable c)
    (hds : ∀ d ∈ cs, d.status = .free → d ∈ ds) :
    Frame ds s'.mem (pushNode s' k c.start).mem := by
  have hself : c.start ≠ null → ∃ d ∈ ds, d.start = c.start ∧ Chunk.Linkable d :=
    fun _ => ⟨c, hc, rfl, hl⟩
  have hhead : s'.freeHead k ≠ null → ∃ d ∈ ds, d.start = s'.freeHead k ∧ Chunk.Linkable d := by
    intro h0
    rw [hh] at h0 ⊢
    obtain ⟨d, hd, he, hf, _⟩ := (h.members k _).mp (head_node h h0).1
    exact ⟨d, hds d hd hf, he, .inl hf⟩
  exact (((setPrev_frame hself).trans (setNext_frame hself)).trans (setPrev_frame hhead)).trans
    (setNext_frame fun h => absurd rfl h)

/-- Tagging a hole keeps the words of every node, and all nodes are apart from
it. -/
theorem tagBoth_cells {xs ys : List Chunk} {st sz t : Nat} {fl : Nat → List Nat}
    (h : HeapInv s (xs ++ ⟨st, sz, .hole⟩ :: ys) fl) (hst : ∀ j, st ∉ fl j) {i x : Nat}
    (hx : x ∈ fl i) :
    Apart x st ∧ succ null (cells (tagBoth s st sz t) i) x = succ null (cells s i) x ∧
      (cells (tagBoth s st sz t) i).prv x = (cells s i).prv x := by
  have hc : (⟨st, sz, .hole⟩ : Chunk) ∈ xs ++ ⟨st, sz, .hole⟩ :: ys := by simp
  obtain ⟨_, _, hmin, _⟩ := h.chunk_bounds hc
  have hne : x ≠ st := fun he => hst i (he ▸ hx)
  have hx0 : x ≠ null := fun he => h.null_not_mem i (he ▸ hx)
  have hout := node_outside h hc hx hne
  simp only [minSize] at hout hmin
  refine ⟨by simp only [Apart, minSize]; omega, ?_, ?_⟩
  · rw [succ_of_ne hx0, succ_of_ne hx0]
    exact load64_congr (tagBoth_agree (by simpa [minSize] using hmin) (by omega))
  · exact load64_congr (tagBoth_agree (by simpa [minSize] using hmin) (by omega))

/-- Inserting a hole leaves every successor, and every predecessor but that of
the old head. -/
theorem insert_cells {xs ys : List Chunk} {st sz t : Nat} {fl : Nat → List Nat}
    (h : HeapInv s (xs ++ ⟨st, sz, .hole⟩ :: ys) fl) (hst : ∀ j, st ∉ fl j) {i x : Nat}
    (hx : x ∈ fl i) :
    succ null (cells (pushNode (tagBoth s st sz t) k st) i) x = succ null (cells s i) x ∧
      (x ≠ s.freeHead k →
        (cells (pushNode (tagBoth s st sz t) k st) i).prv x = (cells s i).prv x) := by
  have hc : (⟨st, sz, .hole⟩ : Chunk) ∈ xs ++ ⟨st, sz, .hole⟩ :: ys := by simp
  have ha : st ≠ null := Nat.ne_of_gt (h.chunk_bounds hc).1
  have hx0 : x ≠ null := fun he => h.null_not_mem i (he ▸ hx)
  obtain ⟨hap, hs, hp⟩ := tagBoth_cells (t := t) h hst hx
  obtain ⟨h1, h2⟩ := pushNode_cells (s := tagBoth s st sz t) (k := k) (j := i) ha hap hx0
    fun h0 => nodes_eq_or_apart h hx (head_node h h0).1
  exact ⟨h1.trans hs, fun hne => (h2 hne).trans hp⟩

theorem insert_listed {xs ys : List Chunk} {st sz t : Nat} {fl : Nat → List Nat}
    (h : HeapInv s (xs ++ ⟨st, sz, .hole⟩ :: ys) fl) (hst : ∀ j, st ∉ fl j) (j : Nat) :
    Listed null (cells (pushNode (tagBoth s st sz t) k st) j)
      (Function.update fl k (st :: fl k) j) := by
  have hc : (⟨st, sz, .hole⟩ : Chunk) ∈ xs ++ ⟨st, sz, .hole⟩ :: ys := by simp
  obtain ⟨hst0, hst1, hmin, _⟩ := h.chunk_bounds hc
  have ha : st ≠ null := Nat.ne_of_gt hst0
  have hv : st < 2 ^ 64 := by simp only [minSize] at *; omega
  have hhv : s.freeHead k < 2 ^ 64 := by
    by_cases h0 : s.freeHead k = null
    · rw [h0]; simp [null]
    · obtain ⟨d, hd, he, _⟩ := (h.members k _).mp (head_node h h0).1
      have := h.chunk_bounds hd
      simp only [minSize] at this
      omega
  by_cases hj : j = k
  · subst hj
    rw [Function.update_self]
    obtain ⟨n1, n2, n3, n4⟩ := pushNode_new (s := tagBoth s st sz t) (k := j) ha hv hhv
      (fun h0 => by
        have := (tagBoth_cells (t := t) h hst (head_node h h0).1).1
        simp only [Apart, tagBoth_freeHead] at this ⊢
        omega)
    refine Listed.push (h.listed j) (List.nodup_cons.mpr ⟨hst j, h.nodup j⟩) ?_ n1 n2 n3 n4
      (fun x hx => (insert_cells h hst hx).1) (fun x hx hne => (insert_cells h hst hx).2 hne)
    simp only [List.mem_cons, not_or]
    exact ⟨ha.symm, h.null_not_mem j⟩
  · rw [Function.update_of_ne hj]
    refine Seg.congr (h.listed j) (fun x hx => ?_) (fun x hx => (insert_cells h hst hx).2 ?_)
    · rcases List.mem_cons.mp hx with rfl | hx
      · exact pushNode_head_other hj
      · exact (insert_cells h hst hx).1
    · -- the head of class `k` is no node of class `j`
      intro he
      have h0 : s.freeHead k ≠ null := fun h0 => h.null_not_mem j (h0 ▸ he ▸ hx)
      exact hj (h.class_unique hx (he ▸ (head_node h h0).1))

/-- The members of the lists with a hole added to its class. -/
theorem insert_members {xs ys : List Chunk} {st sz : Nat} {fl : Nat → List Nat}
    (h : HeapInv s (xs ++ ⟨st, sz, .hole⟩ :: ys) fl) (hst : ∀ j, st ∉ fl j) (j x : Nat) :
    x ∈ Function.update fl (classOf sz) (st :: fl (classOf sz)) j ↔
      ∃ c ∈ xs ++ ⟨st, sz, .free⟩ :: ys, c.start = x ∧ c.status = .free ∧ classOf c.size = j := by
  by_cases hx : x = st
  · subst hx
    by_cases hj : j = classOf sz
    · rw [hj, Function.update_self]
      simp only [List.mem_cons, true_or, true_iff]
      exact ⟨⟨x, sz, .free⟩, by simp, rfl, rfl, rfl⟩
    · rw [Function.update_of_ne hj]
      simp only [hst j, false_iff]
      intro hex
      obtain ⟨c, hcm, hs, _, hk⟩ := hex
      rcases starts_setStatus h.tiled hcm with rfl | ⟨_, hne⟩
      · exact hj hk.symm
      · exact hne hs
  · rw [members_setStatus h.tiled hx, ← h.members]
    by_cases hj : j = classOf sz
    · rw [hj, Function.update_self]
      simp [hx]
    · rw [Function.update_of_ne hj]

/-- Inserting a hole makes it a free chunk at the head of its class. -/
theorem insert_ok {xs ys : List Chunk} {st sz : Nat} {fl : Nat → List Nat}
    (h : HeapInv s (xs ++ ⟨st, sz, .hole⟩ :: ys) fl) :
    ∃ s', micaAllocInsertFreeChunk s st sz = .ok s' ∧
      HeapInv s' (xs ++ ⟨st, sz, .free⟩ :: ys)
        (Function.update fl (classOf sz) (st :: fl (classOf sz))) ∧
      Frame (xs ++ ⟨st, sz, .hole⟩ :: ys) s.mem s'.mem ∧ s'.data = s.data ∧ s'.size = s.size := by
  have hc : (⟨st, sz, .hole⟩ : Chunk) ∈ xs ++ ⟨st, sz, .hole⟩ :: ys := by simp
  obtain ⟨_, _, hmin, hmax⟩ := h.chunk_bounds hc
  have hst : ∀ j, st ∉ fl j := by
    intro j hm
    obtain ⟨c, hcm, hs, hf, _⟩ := (h.members j st).mp hm
    rw [h.tiled.eq_of_start hcm hc hs] at hf
    cases hf
  have htag : tagVec sz free < 2 ^ 64 := by
    rw [tagVec_free]
    simp only [maxSize] at hmax
    omega
  have hf0 := tagBoth_frame (s := s) (t := tagVec sz free) hc hmin
  have hf1 : Frame (xs ++ ⟨st, sz, .hole⟩ :: ys) (tagBoth s st sz (tagVec sz free)).mem
      (pushNode (tagBoth s st sz (tagVec sz free)) (classOf sz) st).mem :=
    pushNode_frame h tagBoth_freeHead hc (.inr ⟨rfl, hmin⟩)
      (fun d hd _ => hd)
  have hd : (pushNode (tagBoth s st sz (tagVec sz free)) (classOf sz) st).data = s.data := by
    simp [pushNode]
  have hz : (pushNode (tagBoth s st sz (tagVec sz free)) (classOf sz) st).size = s.size := by
    simp [pushNode]
  refine ⟨_, insert_eq h (hst _), ?_, hf0.trans hf1, hd, hz⟩
  refine ⟨hd ▸ h.dataPos, hd ▸ hz ▸ h.bound, hz ▸ h.sizeMax, hd ▸ hz ▸ h.tiled.setStatus .free,
    ?_, insert_listed h hst, ?_, insert_members h hst⟩
  · intro c hcm
    rcases starts_setStatus h.tiled hcm with rfl | ⟨hcm', _⟩
    · -- seen as free, the new chunk keeps its tags while its links are written
      have hf2 : Frame (xs ++ ⟨st, sz, .free⟩ :: ys) (tagBoth s st sz (tagVec sz free)).mem
          (pushNode (tagBoth s st sz (tagVec sz free)) (classOf sz) st).mem := by
        refine pushNode_frame h tagBoth_freeHead hcm (.inl rfl) ?_
        intro d hd hdf
        rcases starts_setStatus (h.tiled.setStatus .free) hd with rfl | ⟨hd', _⟩
        · cases hdf
        · exact hd'
      exact hf2.tagged (h.tiled.setStatus .free) hcm (tagBoth_tags hmin htag)
    · exact (hf0.trans hf1).tagged h.tiled hcm' (h.tagged c hcm')
  · intro j
    by_cases hj : j = classOf sz
    · rw [hj, Function.update_self]
      exact List.nodup_cons.mpr ⟨hst _, h.nodup _⟩
    · rw [Function.update_of_ne hj]
      exact h.nodup j

end RdmaBench.Alloc.FreeLists
