import RdmaBench.Mica.Log

/-! # Buckets

Which slot an insertion writes and which slot a lookup finds. The used slots
of a bucket are a block that ends at slot 7 and have distinct tags, so the
last free or equal-tagged slot is the slot of the tag if the tag is in use. -/

namespace RdmaBench.Mica.Bucket
open RdmaBench.Lib.Asserts RdmaBench.Lib.Runs RdmaBench.Mica.Model RdmaBench.Mica.Log

/-! ## Loops over the slots -/

/-- A loop without a break remembers the last element that passes its test. -/
theorem foldl_last {α : Type} (p : α → Prop) [DecidablePred p] (l : List α) :
    (l.foldl (fun s i => if p i then some i else s) none = none ∧ ∀ i ∈ l, ¬ p i) ∨
    ∃ pre i post, l = pre ++ i :: post ∧ p i ∧ (∀ j ∈ post, ¬ p j) ∧
      l.foldl (fun s i => if p i then some i else s) none = some i := by
  induction l using List.reverseRecOn with
  | nil => exact .inl ⟨rfl, by simp⟩
  | append_singleton l x ih =>
    rw [List.foldl_append]
    by_cases hx : p x
    · exact .inr ⟨l, x, [], rfl, hx, by simp, by simp [hx]⟩
    · rcases ih with ⟨hnone, hall⟩ | ⟨pre, i, post, rfl, hi, hpost, hsome⟩
      · refine .inl ⟨by simp [hx, hnone], ?_⟩
        intro i hi
        rcases List.mem_append.mp hi with hi | hi
        · exact hall i hi
        · rw [List.mem_singleton.mp hi]
          exact hx
      · refine .inr ⟨pre, i, post ++ [x], by simp, hi, ?_, by simp [hx, hsome]⟩
        intro j hj
        rcases List.mem_append.mp hj with hj | hj
        · exact hpost j hj
        · rw [List.mem_singleton.mp hj]
          exact hx

variable {b : MicaBkt} {tag off : Nat}

/-- The slot loop finds nothing in a full bucket without the tag, and else the
last slot that is free or has the tag. -/
theorem slotToUse_cases (b : MicaBkt) (tag : Nat) :
    (slotToUse b tag = none ∧ ∀ j, (b j).inUse = true ∧ (b j).tag ≠ tag) ∨
    ∃ i, slotToUse b tag = some i ∧ ((b i).tag = tag ∨ (b i).inUse = false) ∧
      ∀ j, i < j → (b j).inUse = true ∧ (b j).tag ≠ tag := by
  have hneg : ∀ j, ¬((b j).tag = tag ∨ (b j).inUse = false) →
      (b j).inUse = true ∧ (b j).tag ≠ tag := by
    intro j hj
    obtain ⟨h1, h2⟩ := not_or.mp hj
    exact ⟨by simpa using h2, h1⟩
  rcases foldl_last (fun i => (b i).tag = tag ∨ (b i).inUse = false) (List.finRange 8) with
    ⟨hnone, hall⟩ | ⟨pre, i, post, hl, hi, hpost, hsome⟩
  · exact .inl ⟨hnone, fun j => hneg j (hall j (List.mem_finRange j))⟩
  · refine .inr ⟨i, hsome, hi, fun j hij => hneg j (hpost j ?_)⟩
    -- the slots of the loop are in order, so a later one is not before `i`
    have hmem := List.mem_finRange j
    have hord := List.pairwise_lt_finRange 8
    rw [hl] at hmem hord
    rcases List.mem_append.mp hmem with hpre | htail
    · have hlt := (List.pairwise_append.mp hord).2.2 j hpre i List.mem_cons_self
      exact absurd hlt (by omega)
    · rcases List.mem_cons.mp htail with rfl | hpost'
      · exact absurd hij (by omega)
      · exact hpost'

/-! ## The invariant of a bucket -/

structure BktInv (b : MicaBkt) : Prop where
  block : ∀ i j, i < j → (b i).inUse = true → (b j).inUse = true
  distinct : ∀ i j, (b i).inUse = true → (b j).inUse = true → (b i).tag = (b j).tag → i = j

/-- All slots are in use by other tags, and the tag picks slot `j`. -/
def Evicts (b : MicaBkt) (tag : Nat) (j : Fin 8) : Prop :=
  (∀ i, (b i).inUse = true ∧ (b i).tag ≠ tag) ∧ tag &&& 7 = j

instance (b : MicaBkt) (tag : Nat) (j : Fin 8) : Decidable (Evicts b tag j) :=
  inferInstanceAs (Decidable (_ ∧ _))

/-- All slots above the chosen one are in use. -/
theorem chosen_above {j : Fin 8} (hj : chosen b tag < j) : (b j).inUse = true := by
  rcases slotToUse_cases b tag with ⟨_, hall⟩ | ⟨i, hs, _, hall⟩
  · exact (hall j).1
  · rw [chosen, hs] at hj
    exact (hall j hj).1

/-- No slot but the chosen one is in use with the tag. -/
theorem chosen_other (h : BktInv b) {j : Fin 8} (hj : j ≠ chosen b tag)
    (hu : (b j).inUse = true) : (b j).tag ≠ tag := by
  intro ht
  rcases slotToUse_cases b tag with ⟨_, hall⟩ | ⟨i, hs, hi, hall⟩
  · exact (hall j).2 ht
  · have hc : chosen b tag = i := by rw [chosen, hs]; rfl
    rw [hc] at hj
    have hlt : j < i := by
      rcases lt_trichotomy j i with hlt | heq | hgt
      · exact hlt
      · exact absurd heq hj
      · exact absurd ht (hall j hgt).2
    have hui := h.block j i hlt hu
    rcases hi with hti | hfree
    · exact hj (h.distinct j i hu hui (ht.trans hti.symm))
    · rw [hui] at hfree
      cases hfree

/-- A used slot with another tag is chosen only by eviction. -/
theorem chosen_iff_evicts {j : Fin 8} (hu : (b j).inUse = true) (ht : (b j).tag ≠ tag) :
    chosen b tag = j ↔ Evicts b tag j := by
  have hval : ((Fin.ofNat 8 (tag &&& 7) : Fin 8) : Nat) = tag &&& 7 :=
    Nat.mod_eq_of_lt (Nat.lt_succ_of_le Nat.and_le_right)
  rcases slotToUse_cases b tag with ⟨hs, hall⟩ | ⟨i, hs, hi, hall⟩
  · have hc : chosen b tag = Fin.ofNat 8 (tag &&& 7) := by rw [chosen, hs]; rfl
    constructor
    · intro he
      exact ⟨hall, by rw [← he, hc, hval]⟩
    · intro hall
      obtain ⟨_, he⟩ := hall
      rw [hc]
      exact Fin.ext (hval.trans he)
  · have hc : chosen b tag = i := by rw [chosen, hs]; rfl
    constructor
    · intro he
      rw [hc] at he
      subst he
      rcases hi with hti | hfree
      · exact absurd hti ht
      · rw [hu] at hfree
        cases hfree
    · intro hall
      obtain ⟨hfull, _⟩ := hall
      obtain ⟨hui, hti⟩ := hfull i
      rcases hi with heq | hfree
      · exact absurd heq hti
      · rw [hui] at hfree
        cases hfree

/-- Writing the tag to the chosen slot keeps the invariant. -/
theorem BktInv.insert (h : BktInv b) (tag off : Nat) :
    BktInv (Function.update b (chosen b tag) ⟨true, tag, off⟩) := by
  have hself :
      Function.update b (chosen b tag) ⟨true, tag, off⟩ (chosen b tag) = ⟨true, tag, off⟩ :=
    Function.update_self _ _ _
  have hother : ∀ j, j ≠ chosen b tag →
      Function.update b (chosen b tag) ⟨true, tag, off⟩ j = b j :=
    fun j hj => Function.update_of_ne hj _ _
  refine ⟨?_, ?_⟩
  · intro i j hij hi
    by_cases hj : j = chosen b tag
    · rw [hj, hself]
    · rw [hother j hj]
      by_cases hic : i = chosen b tag
      · exact chosen_above (hic ▸ hij)
      · rw [hother i hic] at hi
        exact h.block i j hij hi
  · intro i j hi hj ht
    by_cases hic : i = chosen b tag <;> by_cases hjc : j = chosen b tag
    · rw [hic, hjc]
    · rw [hic, hself, hother j hjc] at ht
      rw [hother j hjc] at hj
      exact absurd ht.symm (chosen_other h hjc hj)
    · rw [hjc, hself, hother i hic] at ht
      rw [hother i hic] at hi
      exact absurd ht (chosen_other h hic hi)
    · rw [hother i hic] at hi ht
      rw [hother j hjc] at hj ht
      exact h.distinct i j hi hj ht

/-- A lookup finds the slot in use with the tag. -/
theorem findSlot_iff (h : BktInv b) {j : Fin 8} :
    findSlot b tag = some j ↔ (b j).inUse = true ∧ (b j).tag = tag := by
  constructor
  · intro hf
    simpa using List.find?_some hf
  · intro hall
    obtain ⟨hu, ht⟩ := hall
    cases hf : findSlot b tag with
    | none =>
      have hno := List.find?_eq_none.mp hf j (List.mem_finRange j)
      simp [hu, ht] at hno
    | some i =>
      have hi : (b i).inUse = true ∧ (b i).tag = tag := by simpa using List.find?_some hf
      rw [h.distinct i j hi.1 hu (hi.2.trans ht.symm)]

/-! ## The index over whole runs -/

def IndexInv (kv : MicaKv) : Prop := ∀ n, BktInv (kv.htIndex n)

/-- No slot of a fresh index is in use. -/
theorem init_unused {kv : MicaKv} {index log nodeId numBkts logCap}
    (h : micaInit index log nodeId numBkts logCap = .ok kv) (b : Nat) (j : Fin 8) :
    (kv.htIndex b j).inUse = false := by
  obtain ⟨_, h⟩ := check_bind h
  obtain ⟨_, h⟩ := check_bind h
  obtain ⟨_, h⟩ := check_bind h
  rw [← Except.ok.inj h]

theorem init_indexInv {kv : MicaKv} {index log nodeId numBkts logCap}
    (h : micaInit index log nodeId numBkts logCap = .ok kv) : IndexInv kv := by
  intro n
  refine ⟨?_, ?_⟩
  · intro i j _ hi
    rw [init_unused h] at hi
    cases hi
  · intro i j hi
    rw [init_unused h] at hi
    cases hi

/-- The tag field of a slot has room for the 16 bits of a key's tag. -/
theorem tag_fits (key : MicaKey) : key.tag.toNat % 2 ^ 23 = key.tag.toNat := by
  have := key.tag.toNat_lt
  exact Nat.mod_eq_of_lt (by omega)

theorem insertOne_indexInv {kv kv' : MicaKv} {op : MicaOp} (h : IndexInv kv)
    (hi : micaInsertOne kv op = .ok kv') : IndexInv kv' := by
  obtain ⟨_, hindex, _⟩ := insertOne_ok hi
  intro n
  rw [hindex, tag_fits]
  by_cases hn : n = kv.bktOf op.key
  · subst hn
    rw [Function.update_self]
    exact (h _).insert _ _
  · rw [Function.update_of_ne hn]
    exact h n

theorem IndexInv.same {kv kv' : MicaKv} (h : IndexInv kv) (hs : SameIndex kv kv') :
    IndexInv kv' := by
  intro n
  rw [hs.htIndex]
  exact h n

/-! ## Any sequence of calls -/

/-- Runs from `mica_init` of any calls that pass the asserts. -/
def calls : System MicaKv Call where
  init kv := ∃ index log nodeId numBkts logCap,
    micaInit index log nodeId numBkts logCap = .ok kv
  step kv call kv' := ∃ resps, perform kv call = .ok (kv', resps)

variable {kv kv' : MicaKv}

theorem calls_indexInv (h : Reachable calls kv) : IndexInv kv := by
  refine h.invariant (P := IndexInv) ?_ ?_
  · intro kv hinit
    obtain ⟨_, _, _, _, _, h0⟩ := hinit
    exact init_indexInv h0
  · intro kv call kv' _ hinv hstep
    obtain ⟨resps, hp⟩ := hstep
    exact perform_rule (V := fun _ => True) (C := fun _ _ => True)
      (fun _ _ _ hp _ _ hi => insertOne_indexInv hp hi) (fun _ _ => IndexInv.same) hinv
      (fun _ _ => trivial) (fun _ _ _ _ _ => trivial) (fun _ _ => trivial) hp

/-- Insertions in the middle of a batch start from such an index too. -/
theorem insertions_indexInv (h : IndexInv kv) (call : Call) :
    ∀ p ∈ insertions kv call, IndexInv p.1 := by
  cases call with
  | insertOne op =>
    intro p hm
    rw [List.mem_singleton.mp hm]
    exact h
  | batchOp ops =>
    exact batchInsertions_rule (V := fun _ => True) (C := fun _ _ => True)
      (fun _ _ _ hp _ _ hi => insertOne_indexInv hp hi) (fun _ _ => IndexInv.same) h
      (fun _ _ _ => trivial) (fun _ _ => trivial)

/-- The used slots are those from some slot on. -/
theorem BktInv.first_used (h : BktInv b) :
    ∃ k ≤ 8, ∀ j : Fin 8, (b j).inUse = true ↔ k ≤ j.val := by
  by_cases hex : ∃ k, ∃ hk : k < 8, (b ⟨k, hk⟩).inUse = true
  · classical
    obtain ⟨hlt, hu⟩ := Nat.find_spec hex
    refine ⟨Nat.find hex, Nat.le_of_lt hlt, fun j => ⟨fun hj => ?_, fun hle => ?_⟩⟩
    · exact Nat.find_min' hex ⟨j.isLt, hj⟩
    · rcases Nat.lt_or_eq_of_le hle with hless | heq
      · exact h.block ⟨_, hlt⟩ j hless hu
      · rw [← show (⟨_, hlt⟩ : Fin 8) = j from Fin.ext heq]
        exact hu
  · refine ⟨8, Nat.le_refl _, fun j => ⟨fun hj => ?_, fun hle => ?_⟩⟩
    · exact absurd ⟨j.val, j.isLt, hj⟩ hex
    · exact absurd j.isLt (Nat.not_lt.mpr hle)

/-- A tag in use is found again. -/
theorem chosen_of_tag (h : BktInv b) {j : Fin 8} (hu : (b j).inUse = true) (ht : (b j).tag = tag) :
    chosen b tag = j := by
  by_contra hne
  exact chosen_other h (Ne.symm hne) hu ht

/-- In every run, whatever the fresh index held, the used slots of a bucket are
a block up to slot 7 with distinct tags. So every insertion, on its own or in a
batch, reuses the slot of its tag, makes no second one, and changes a slot of
another tag only if all 8 slots are in use by other tags. -/
theorem bucket_slots_and_eviction (h : Reachable calls kv) :
    (∀ n, (∃ k ≤ 8, ∀ j : Fin 8, (kv.htIndex n j).inUse = true ↔ k ≤ j.val) ∧
      ∀ i j, (kv.htIndex n i).inUse = true → (kv.htIndex n j).inUse = true →
        (kv.htIndex n i).tag = (kv.htIndex n j).tag → i = j) ∧
    ∀ call, ∀ p ∈ insertions kv call, ∀ kv', micaInsertOne p.1 p.2 = .ok kv' →
      (∀ j, (p.1.htIndex (p.1.bktOf p.2.key) j).inUse = true →
        (p.1.htIndex (p.1.bktOf p.2.key) j).tag = p.2.key.tag.toNat →
        kv'.htIndex (p.1.bktOf p.2.key) j =
            ⟨true, p.2.key.tag.toNat, p.1.logHead % 2 ^ logBits⟩ ∧
          ∀ i, i ≠ j → kv'.htIndex (p.1.bktOf p.2.key) i = p.1.htIndex (p.1.bktOf p.2.key) i) ∧
      (∀ n i j, (kv'.htIndex n i).inUse = true → (kv'.htIndex n j).inUse = true →
        (kv'.htIndex n i).tag = (kv'.htIndex n j).tag → i = j) ∧
      ∀ n j, (p.1.htIndex n j).inUse = true → kv'.htIndex n j ≠ p.1.htIndex n j →
        n = p.1.bktOf p.2.key ∧ ((p.1.htIndex n j).tag = p.2.key.tag.toNat ∨
          ∀ i, (p.1.htIndex n i).inUse = true ∧ (p.1.htIndex n i).tag ≠ p.2.key.tag.toNat) := by
  have hinv := calls_indexInv h
  refine ⟨fun n => ⟨(hinv n).first_used, (hinv n).distinct⟩, ?_⟩
  intro call p hm kv' hi
  have hp := insertions_indexInv hinv call p hm
  obtain ⟨_, hindex, _⟩ := insertOne_ok hi
  rw [tag_fits] at hindex
  refine ⟨?_, fun n => (insertOne_indexInv hp hi n).distinct, ?_⟩
  · intro j hu ht
    have hc := chosen_of_tag (hp _) hu ht
    rw [hindex, Function.update_self, hc]
    exact ⟨Function.update_self .., fun i hne => Function.update_of_ne hne ..⟩
  · intro n j hu hne
    rw [hindex] at hne
    by_cases hn : n = p.1.bktOf p.2.key
    · subst hn
      rw [Function.update_self] at hne
      refine ⟨rfl, ?_⟩
      by_cases hj : chosen (p.1.htIndex (p.1.bktOf p.2.key)) p.2.key.tag.toNat = j
      · by_cases ht : (p.1.htIndex (p.1.bktOf p.2.key) j).tag = p.2.key.tag.toNat
        · exact .inl ht
        · exact .inr ((chosen_iff_evicts hu ht).mp hj).1
      · exact absurd (Function.update_of_ne (Ne.symm hj) ..) hne
    · exact absurd (congrFun (Function.update_of_ne hn ..) j) hne

/-- A fresh store of one bucket. -/
def oneBucket : Option MicaKv :=
  (micaInit (fun _ _ => ⟨false, 0, 0⟩) (fun _ => 0) 0 1 2097152).toOption

theorem oneBucket_init (kv : MicaKv) (h : oneBucket = some kv) : calls.init kv :=
  ⟨_, _, _, _, _, ok_of_toOption h⟩

/-- The store after a call. -/
def performed (kv : MicaKv) (call : Call) : Option MicaKv :=
  (perform kv call).toOption.map Prod.fst

theorem performed_step (kv : MicaKv) (call : Call) (kv' : MicaKv)
    (h : performed kv call = some kv') : calls.step kv call kv' := by
  obtain ⟨⟨kv1, resps⟩, hperform, rfl⟩ := Option.map_eq_some_iff.mp h
  exact ⟨resps, ok_of_toOption hperform⟩

/-- Whether an insertion overwrites a slot in use of the first bucket. -/
def overwrites (op : MicaOp) (j : Fin 8) (kv : MicaKv) : Bool :=
  match micaInsertOne kv op with
  | .ok kv' => decide ((kv.htIndex 0 j).inUse = true ∧ kv'.htIndex 0 j ≠ kv.htIndex 0 j)
  | .error _ => false

/-- Keys with the tags 1 to 8 fill the bucket, and one with the tag 16 evicts the last of
them, which is in slot 0. -/
theorem bucket_slots_and_eviction_ninth : ∃ kv kv' : MicaKv, Reachable calls kv ∧
    micaInsertOne kv (tagged 16) = .ok kv' ∧ kv'.htIndex 0 0 ≠ kv.htIndex 0 0 ∧
    ∀ i, (kv.htIndex 0 i).inUse = true ∧ (kv.htIndex 0 i).tag ≠ 16 := by
  obtain ⟨kv, hkv, hp⟩ := exists_reachable performed_step oneBucket_init
    ([1, 2, 3, 4, 5, 6, 7, 8].map fun tag => .insertOne (tagged tag))
    (fun kv => overwrites (tagged 16) 0 kv && (kv.htIndex 0 0).tag == 8) (by decide +kernel)
  simp only [Bool.and_eq_true, beq_iff_eq] at hp
  obtain ⟨hover, htag⟩ := hp
  unfold overwrites at hover
  split at hover
  case h_1 kv' hins =>
    obtain ⟨hused, hne⟩ := of_decide_eq_true hover
    have hall := (bucket_slots_and_eviction hkv).2 (.insertOne (tagged 16)) (kv, tagged 16)
      (List.mem_singleton_self _) kv' hins
    obtain ⟨-, htag' | hevicts⟩ := hall.2.2 0 0 hused hne
    · rw [htag] at htag'
      exact absurd (show 8 = 16 from htag') (by decide)
    · exact ⟨kv, kv', hkv, hins, hne, hevicts⟩
  case h_2 => cases hover

end RdmaBench.Mica.Bucket
