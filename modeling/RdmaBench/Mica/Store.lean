import RdmaBench.Lib.Circular
import RdmaBench.Mica.Bucket

/-! # The store as a map

Runs of single operations, with the PUTs made so far. Every slot in use belongs
to the last PUT of some key, and as long as the head has not lapped it, its log
entry holds that PUT, byte for byte. Hence what a GET returns is the last PUT of
its key. -/

namespace RdmaBench.Mica.Store
open RdmaBench.Lib.Asserts RdmaBench.Lib.Bits RdmaBench.Lib.ByteMem RdmaBench.Lib.Circular
open RdmaBench.Lib.Runs RdmaBench.Mica.Model RdmaBench.Mica.Log RdmaBench.Mica.Bucket

/-! ## Runs of single operations -/

/-- A call of `mica_insert_one`, or of `mica_batch_op` with one operation. -/
inductive Single where
  | insertOne (op : MicaOp)
  | batchOne (op : MicaOp)

def Single.call : Single → Call
  | .insertOne op => .insertOne op
  | .batchOne op => .batchOp [op]

/-- A store, and the PUTs it has executed, the newest first. -/
structure History where
  kv : MicaKv
  puts : List MicaOp

def History.record (puts : List MicaOp) : Single → List MicaOp
  | .insertOne op => op :: puts
  | .batchOne op => if op.opcode = opGet then puts else op :: puts

/-- Runs in which no log entry straddles the physical end of the log. -/
def histories : System History Single where
  init s := (storesWhere Fits).init s.kv ∧ s.puts = []
  step s c s' := (storesWhere Fits).step s.kv c.call s'.kv ∧ s'.puts = History.record s.puts c

/-- The most recent PUT of a key. -/
def lastPut (puts : List MicaOp) (key : MicaKey) : Option MicaOp :=
  puts.find? fun p => p.key = key

theorem lastPut_same {puts : List MicaOp} {op : MicaOp} :
    lastPut (op :: puts) op.key = some op := by
  simp [lastPut]

theorem lastPut_other {puts : List MicaOp} {op : MicaOp} {key : MicaKey} (h : op.key ≠ key) :
    lastPut (op :: puts) key = lastPut puts key := by
  simp [lastPut, h]

/-! ## Log entries -/

/-- The log holds key, length and value of `p` from address `a` on. -/
structure Stored (log : Mem) (a : Nat) (p : MicaOp) : Prop where
  word0 : load64 log a = p.key.word0
  word1 : load64 log (a + 8) = p.key.word1
  valLen : log (a + 17) = p.valLen
  value : ∀ i < p.valLen.toNat, log (a + 18 + i) = p.value i

theorem word0_lt (k : MicaKey) : k.word0 < 256 ^ 8 := k.unused.toNat_lt

theorem word1_lt (k : MicaKey) : k.word1 < 256 ^ 8 := by
  have h1 := k.bkt.toNat_lt
  have h2 := k.server.toNat_lt
  have h3 := k.tag.toNat_lt
  simp only [MicaKey.word1]
  omega

/-- The two words of a key determine it. -/
theorem key_of_words {k k' : MicaKey} (h0 : k.word0 = k'.word0) (h1 : k.word1 = k'.word1) :
    k = k' := by
  obtain ⟨u, b, s, t⟩ := k
  obtain ⟨u', b', s', t'⟩ := k'
  have hb := b.toNat_lt
  have hb' := b'.toNat_lt
  have hs := s.toNat_lt
  have hs' := s'.toNat_lt
  simp only [MicaKey.word0, MicaKey.word1] at h0 h1
  rw [UInt64.toNat_inj.mp h0, UInt32.toNat_inj.mp (show b.toNat = b'.toNat by omega),
    UInt16.toNat_inj.mp (show s.toNat = s'.toNat by omega),
    UInt16.toNat_inj.mp (show t.toNat = t'.toNat by omega)]

/-- Copying an operation to the log stores it. -/
theorem stored_memcpy (log : Mem) (a : Nat) (op : MicaOp) :
    Stored (memcpy log a op.bytes (lenToCopy op)) a op := by
  have hbyte : ∀ i, i < lenToCopy op → memcpy log a op.bytes (lenToCopy op) (a + i) = op.bytes i :=
    fun i hi => memcpy_inside hi
  have hlen : lenToCopy op = 18 + op.valLen.toNat := rfl
  refine ⟨?_, ?_, ?_, ?_⟩
  · rw [load64, loadLE_digits (v := op.key.word0), Nat.mod_eq_of_lt (word0_lt _)]
    intro i hi
    rw [hbyte i (by omega)]
    simp [MicaOp.bytes, hi]
  · rw [load64, loadLE_digits (v := op.key.word1), Nat.mod_eq_of_lt (word1_lt _)]
    intro i hi
    rw [Nat.add_assoc, hbyte (8 + i) (by omega)]
    have h1 : ¬ 8 + i < 8 := by omega
    have h2 : 8 + i < 16 := by omega
    simp [MicaOp.bytes, h1, h2]
  · rw [hbyte 17 (by omega)]
    rfl
  · intro i hi
    rw [Nat.add_assoc, hbyte (18 + i) (by omega)]
    have h1 : ¬ 18 + i < 8 := by omega
    have h2 : ¬ 18 + i < 16 := by omega
    have h3 : 18 + i ≠ 16 := by omega
    have h4 : 18 + i ≠ 17 := by omega
    simp [MicaOp.bytes, h1, h2, h3, h4]

/-- An entry survives what leaves its bytes alone. -/
theorem Stored.congr {log log' : Mem} {a : Nat} {p : MicaOp} (h : Stored log a p)
    (ha : Agree log log' a (lenToCopy p)) : Stored log' a p := by
  have hlen : lenToCopy p = 18 + p.valLen.toNat := rfl
  refine ⟨?_, ?_, ?_, ?_⟩
  · rw [load64_congr (ha.mono (Nat.le_refl _) (by omega)), h.word0]
  · rw [load64_congr (ha.mono (by omega) (by omega)), h.word1]
  · rw [ha (a + 17) (by omega) (by omega), h.valLen]
  · intro i hi
    rw [ha (a + 18 + i) (by omega) (by omega), h.value i hi]

/-- An in-place update stores the new operation. -/
theorem Stored.update {log : Mem} {a : Nat} {p op : MicaOp} (h : Stored log a p)
    (hk : p.key = op.key) (hl : op.valLen = p.valLen) :
    Stored (memcpy log (a + 18) op.value op.valLen.toNat) a op := by
  have hfront : Agree log (memcpy log (a + 18) op.value op.valLen.toNat) a 18 :=
    memcpy_agree (.inl (Nat.le_refl _))
  refine ⟨?_, ?_, ?_, fun i hi => memcpy_inside hi⟩
  · rw [load64_congr (hfront.mono (Nat.le_refl _) (by omega)), h.word0, hk]
  · rw [load64_congr (hfront.mono (by omega) (by omega)), h.word1, hk]
  · rw [hfront (a + 17) (by omega) (by omega), h.valLen, hl]

/-! ## The invariant -/

/-- Change one slot of a table of buckets. -/
def update2 {α : Type} (f : Nat → Fin 8 → α) (b : Nat) (j : Fin 8) (x : α) : Nat → Fin 8 → α :=
  Function.update f b (Function.update (f b) j x)

theorem update2_self {α : Type} (f : Nat → Fin 8 → α) (b : Nat) (j : Fin 8) (x : α) :
    update2 f b j x b j = x := by
  simp [update2]

theorem update2_other {α : Type} (f : Nat → Fin 8 → α) {b b' : Nat} {j j' : Fin 8} (x : α)
    (h : ¬(b' = b ∧ j' = j)) : update2 f b j x b' j' = f b' j' := by
  by_cases hb : b' = b
  · subst hb
    have hj : j' ≠ j := fun hj => h ⟨rfl, hj⟩
    simp [update2, hj]
  · simp [update2, hb]

/-- Slot `j` of bucket `b` belongs to `p`, the last PUT of its key. -/
structure SlotOk (kv : MicaKv) (puts : List MicaOp) (b : Nat) (j : Fin 8) (p : MicaOp) : Prop where
  last : lastPut puts p.key = some p
  bucket : kv.bktOf p.key = b
  tag : (kv.htIndex b j).tag = p.key.tag.toNat
  before : (kv.htIndex b j).offset + lenToCopy p ≤ kv.logHead
  stored : kv.logHead < (kv.htIndex b j).offset + kv.logCap →
    Stored kv.htLog ((kv.htIndex b j).offset % kv.logCap) p

/-- `item` gives the PUT each slot in use belongs to. -/
structure StoreInv (kv : MicaKv) (puts : List MicaOp) (item : Nat → Fin 8 → MicaOp) : Prop where
  log : LogInv kv
  index : IndexInv kv
  slot : ∀ b j, (kv.htIndex b j).inUse = true → SlotOk kv puts b j (item b j)
  apart : ∀ b j b' j', (kv.htIndex b j).inUse = true → (kv.htIndex b' j').inUse = true →
    ¬(b' = b ∧ j' = j) →
    (kv.htIndex b j).offset + lenToCopy (item b j) ≤ (kv.htIndex b' j').offset ∨
      (kv.htIndex b' j').offset + lenToCopy (item b' j') ≤ (kv.htIndex b j).offset

variable {kv kv' : MicaKv} {puts : List MicaOp} {item : Nat → Fin 8 → MicaOp} {op : MicaOp}

theorem bktOf_congr (h : kv'.bktMask = kv.bktMask) (key : MicaKey) :
    kv'.bktOf key = kv.bktOf key := by
  rw [MicaKv.bktOf, h]
  rfl

/-- The index after an insertion. -/
theorem insertOne_index (hinv : LogInv kv) (hi : micaInsertOne kv op = .ok kv') :
    kv'.htIndex = update2 kv.htIndex (kv.bktOf op.key)
      (chosen (kv.htIndex (kv.bktOf op.key)) op.key.tag.toNat)
      ⟨true, op.key.tag.toNat, kv.logHead⟩ := by
  obtain ⟨hg, hindex, _⟩ := insertOne_ok hi
  have hoff : kv.logHead % 2 ^ logBits = kv.logHead := by
    have := guard_bound hinv hg
    exact Nat.mod_eq_of_lt (by simp only [logBits]; omega)
  rw [tag_fits, hoff] at hindex
  exact hindex

/-- The statistics do not matter. -/
theorem StoreInv.congr (h : StoreInv kv puts item) (hs : SameIndex kv kv')
    (hl : kv'.htLog = kv.htLog) : StoreInv kv' puts item := by
  refine ⟨h.log.same hs, ?_, ?_, ?_⟩
  · intro n
    rw [hs.htIndex]
    exact h.index n
  · intro b j hu
    rw [hs.htIndex] at hu
    obtain ⟨h1, h2, h3, h4, h5⟩ := h.slot b j hu
    refine ⟨h1, (bktOf_congr hs.bktMask _).trans h2, ?_, ?_, ?_⟩
    · rw [hs.htIndex]
      exact h3
    · rw [hs.htIndex, hs.logHead]
      exact h4
    · rw [hs.htIndex, hs.logHead, hs.logCap, hl]
      exact h5
  · rw [hs.htIndex]
    exact h.apart

/-- A slot with the bucket and the tag of a key is the slot the key goes to. -/
theorem StoreInv.other_key (h : StoreInv kv puts item) {b : Nat} {j i : Fin 8} {key : MicaKey}
    (hu : (kv.htIndex b j).inUse = true) (hne : ¬(b = kv.bktOf key ∧ j = i))
    (hi : ∀ j', j' ≠ i → (kv.htIndex (kv.bktOf key) j').inUse = true →
      (kv.htIndex (kv.bktOf key) j').tag ≠ key.tag.toNat) : (item b j).key ≠ key := by
  intro hk
  have hs := h.slot b j hu
  have hb : b = kv.bktOf key := by rw [← hs.bucket, hk]
  have ht := hs.tag
  rw [hk] at ht
  subst hb
  exact hi j (fun hj => hne ⟨rfl, hj⟩) hu ht

/-- The slot an insertion writes belongs to it. -/
theorem StoreInv.slot_new (h : StoreInv kv puts item) (hv : ValidPut op)
    (hi : micaInsertOne kv op = .ok kv') :
    SlotOk kv' (op :: puts) (kv.bktOf op.key)
      (chosen (kv.htIndex (kv.bktOf op.key)) op.key.tag.toNat) op := by
  obtain ⟨_, _, hlog, _, hcap, _, hmask⟩ := insertOne_ok hi
  have hidx := insertOne_index h.log hi
  refine ⟨lastPut_same, bktOf_congr hmask _, ?_, ?_, fun _ => ?_⟩
  · rw [hidx, update2_self]
  · rw [hidx, update2_self]
    exact (insertOne_head_bounds h.log hv hi).1
  · rw [hidx, update2_self, hlog, hcap, h.log.and_mask]
    exact stored_memcpy _ _ _

/-- The other slots stay with their PUTs, and the entries of those the head has
not lapped are not overwritten. -/
theorem StoreInv.slot_other (h : StoreInv kv puts item) (hv : ValidPut op)
    (hi : micaInsertOne kv op = .ok kv') {b : Nat} {j : Fin 8}
    (hu : (kv.htIndex b j).inUse = true)
    (hne : ¬(b = kv.bktOf op.key ∧ j = chosen (kv.htIndex (kv.bktOf op.key)) op.key.tag.toNat)) :
    SlotOk kv' (op :: puts) b j (item b j) := by
  obtain ⟨_, _, hlog, _, hcap, _, hmask⟩ := insertOne_ok hi
  obtain ⟨hpast, _⟩ := insertOne_head_bounds h.log hv hi
  have hcl := h.log.cap_bounds.1
  have hs := h.slot b j hu
  have hkey : (item b j).key ≠ op.key :=
    h.other_key hu hne fun j' hj' hu' => chosen_other (h.index _) hj' hu'
  have hidx : kv'.htIndex b j = kv.htIndex b j := by
    rw [insertOne_index h.log hi, update2_other _ _ hne]
  refine ⟨?_, (bktOf_congr hmask _).trans hs.bucket, ?_, ?_, ?_⟩
  · rw [lastPut_other hkey.symm]
    exact hs.last
  · rw [hidx]
    exact hs.tag
  · rw [hidx]
    have := hs.before
    omega
  · rw [hidx, hlog, hcap, h.log.and_mask]
    intro hlive
    -- the new entry lies in the same window as an entry that stays live
    have hwin : kv.logHead + lenToCopy op ≤ (kv.htIndex b j).offset + kv.logCap := by omega
    exact (hs.stored (by omega)).congr (memcpy_agree (ranges_apart (by omega) hs.before hwin))

theorem StoreInv.insert (h : StoreInv kv puts item) (hv : ValidPut op)
    (hi : micaInsertOne kv op = .ok kv') :
    StoreInv kv' (op :: puts) (update2 item (kv.bktOf op.key)
      (chosen (kv.htIndex (kv.bktOf op.key)) op.key.tag.toNat) op) := by
  have hidx := insertOne_index h.log hi
  refine ⟨insertOne_logInv h.log hi, insertOne_indexInv h.index hi, ?_, ?_⟩
  · intro b j hu
    by_cases hnew : b = kv.bktOf op.key ∧ j = chosen (kv.htIndex (kv.bktOf op.key)) op.key.tag.toNat
    · obtain ⟨rfl, rfl⟩ := hnew
      rw [update2_self]
      exact h.slot_new hv hi
    · rw [hidx, update2_other _ _ hnew] at hu
      rw [update2_other _ _ hnew]
      exact h.slot_other hv hi hu hnew
  · intro b j b' j' hu hu' hne
    rw [hidx] at hu hu' ⊢
    generalize chosen (kv.htIndex (kv.bktOf op.key)) op.key.tag.toNat = j0 at *
    by_cases hnew : b = kv.bktOf op.key ∧ j = j0
    · obtain ⟨rfl, rfl⟩ := hnew
      rw [update2_other _ _ hne] at hu' ⊢
      rw [update2_other _ _ hne, update2_self, update2_self]
      exact .inr (h.slot b' j' hu').before
    · rw [update2_other _ _ hnew] at hu ⊢
      rw [update2_other _ _ hnew]
      by_cases hnew' : b' = kv.bktOf op.key ∧ j' = j0
      · obtain ⟨rfl, rfl⟩ := hnew'
        rw [update2_self, update2_self]
        exact .inl (h.slot b j hu).before
      · rw [update2_other _ _ hnew'] at hu' ⊢
        rw [update2_other _ _ hnew']
        exact h.apart b j b' j' hu hu' hne

/-- The entries of two slots that the head has not lapped share no byte: they
lie in one window of the log. -/
theorem StoreInv.live_apart (h : StoreInv kv puts item) {b b' : Nat} {j j' : Fin 8}
    (hu : (kv.htIndex b j).inUse = true) (hu' : (kv.htIndex b' j').inUse = true)
    (hne : ¬(b' = b ∧ j' = j)) (hl : kv.logHead < (kv.htIndex b j).offset + kv.logCap)
    (hl' : kv.logHead < (kv.htIndex b' j').offset + kv.logCap) :
    (kv.htIndex b j).offset % kv.logCap + lenToCopy (item b j) ≤
        (kv.htIndex b' j').offset % kv.logCap ∨
      (kv.htIndex b' j').offset % kv.logCap + lenToCopy (item b' j') ≤
        (kv.htIndex b j).offset % kv.logCap := by
  have hcl := h.log.cap_bounds.1
  have hb := (h.slot b j hu).before
  have hb' := (h.slot b' j' hu').before
  rcases h.apart b j b' j' hu hu' hne with hle | hle
  · exact ranges_apart (by omega) hle (by omega)
  · exact (ranges_apart (by omega) hle (by omega)).symm

/-! ## Lookups -/

/-- A lookup finds the slot in use with the tag, unless the head has lapped its
entry. -/
theorem StoreInv.lookup_iff (h : StoreInv kv puts item) {key : MicaKey} {ptr : Nat} :
    lookup kv key = some ptr ↔ ∃ j, (kv.htIndex (kv.bktOf key) j).inUse = true ∧
      (kv.htIndex (kv.bktOf key) j).tag = key.tag.toNat ∧
      kv.logHead < (kv.htIndex (kv.bktOf key) j).offset + kv.logCap ∧
      (kv.htIndex (kv.bktOf key) j).offset % kv.logCap = ptr := by
  have hinv := h.index (kv.bktOf key)
  -- the age of an entry is computed without wrapping
  have hage : ∀ j, (kv.htIndex (kv.bktOf key) j).inUse = true →
      (sub64 kv.logHead (kv.htIndex (kv.bktOf key) j).offset ≥ kv.logCap ↔
        ¬ kv.logHead < (kv.htIndex (kv.bktOf key) j).offset + kv.logCap) := by
    intro j hu
    have hbefore := (h.slot _ j hu).before
    have hbound := h.log.bound
    simp only [logBits] at hbound
    rw [sub64_of_le (by omega) (by omega)]
    omega
  unfold lookup
  constructor
  · intro hl
    simp only at hl
    split at hl
    · cases hl
    · rename_i j hf
      obtain ⟨hu, ht⟩ := (findSlot_iff hinv).mp hf
      split at hl
      · cases hl
      · rename_i hlive
        rw [hage j hu, not_not] at hlive
        rw [h.log.and_mask, Option.some.injEq] at hl
        exact ⟨j, hu, ht, hlive, hl⟩
  · intro hall
    obtain ⟨j, hu, ht, hlive, hptr⟩ := hall
    simp only [(findSlot_iff hinv).mpr ⟨hu, ht⟩]
    rw [if_neg (by rw [hage j hu]; exact not_not.mpr hlive), h.log.and_mask, hptr]

/-- The key's entry is found exactly if a slot belongs to a PUT of it and the
head has not lapped the entry. -/
theorem StoreInv.hit_iff (h : StoreInv kv puts item) {key : MicaKey} {ptr : Nat} :
    (lookup kv key = some ptr ∧ keyAt kv key ptr = true) ↔
      ∃ j, (kv.htIndex (kv.bktOf key) j).inUse = true ∧ (item (kv.bktOf key) j).key = key ∧
        kv.logHead < (kv.htIndex (kv.bktOf key) j).offset + kv.logCap ∧
        (kv.htIndex (kv.bktOf key) j).offset % kv.logCap = ptr := by
  rw [h.lookup_iff]
  constructor
  · intro hall
    obtain ⟨⟨j, hu, _, hlive, hptr⟩, hk⟩ := hall
    have hst := (h.slot _ j hu).stored hlive
    rw [hptr] at hst
    simp only [keyAt, Bool.and_eq_true, beq_iff_eq] at hk
    have hkey := key_of_words (hst.word0.symm.trans hk.1) (hst.word1.symm.trans hk.2)
    exact ⟨j, hu, hkey, hlive, hptr⟩
  · intro hall
    obtain ⟨j, hu, hkey, hlive, hptr⟩ := hall
    have hs := h.slot _ j hu
    have hst := hs.stored hlive
    rw [hptr] at hst
    refine ⟨⟨j, hu, by rw [hs.tag, hkey], hlive, hptr⟩, ?_⟩
    simp [keyAt, hst.word0, hst.word1, hkey]

/-! ## One operation -/

/-- The slot of a hit has the key's bucket and tag to itself. -/
theorem StoreInv.hit_alone (h : StoreInv kv puts item) {key : MicaKey} {j j' : Fin 8}
    (hu : (kv.htIndex (kv.bktOf key) j).inUse = true) (hk : (item (kv.bktOf key) j).key = key)
    (hj : j' ≠ j) (hu' : (kv.htIndex (kv.bktOf key) j').inUse = true) :
    (kv.htIndex (kv.bktOf key) j').tag ≠ key.tag.toNat := by
  intro ht
  have hs := (h.slot _ j hu).tag
  rw [hk] at hs
  exact hj ((h.index _).distinct j' j hu' hu (ht.trans hs.symm))

theorem StoreInv.update (h : StoreInv kv puts item) {j : Fin 8}
    (hu : (kv.htIndex (kv.bktOf op.key) j).inUse = true)
    (hk : (item (kv.bktOf op.key) j).key = op.key)
    (hlive : kv.logHead < (kv.htIndex (kv.bktOf op.key) j).offset + kv.logCap)
    (hlen : op.valLen = (item (kv.bktOf op.key) j).valLen) :
    StoreInv (updated kv op ((kv.htIndex (kv.bktOf op.key) j).offset % kv.logCap)) (op :: puts)
      (update2 item (kv.bktOf op.key) j op) := by
  have hs0 := h.slot _ j hu
  have hcl := h.log.cap_bounds.1
  have hcopy : lenToCopy op = lenToCopy (item (kv.bktOf op.key) j) := by
    rw [lenToCopy, lenToCopy, hlen]
  have hsame : SameIndex kv (updated kv op
      ((kv.htIndex (kv.bktOf op.key) j).offset % kv.logCap)) := ⟨rfl, rfl, rfl, rfl, rfl⟩
  -- the lengths of the entries stay what they were
  have hitem : ∀ b' j', lenToCopy (update2 item (kv.bktOf op.key) j op b' j') =
      lenToCopy (item b' j') := by
    intro b' j'
    by_cases hnew : b' = kv.bktOf op.key ∧ j' = j
    · obtain ⟨rfl, rfl⟩ := hnew
      rw [update2_self, hcopy]
    · rw [update2_other _ _ hnew]
  refine ⟨h.log.same hsame, h.index, ?_, ?_⟩
  · intro b' j' hu'
    by_cases hnew : b' = kv.bktOf op.key ∧ j' = j
    · obtain ⟨rfl, rfl⟩ := hnew
      rw [update2_self]
      refine ⟨lastPut_same, rfl, ?_, ?_, fun _ => ?_⟩
      · exact hs0.tag.trans (by rw [hk])
      · rw [hcopy]
        exact hs0.before
      · exact (hs0.stored hlive).update hk hlen
    · have hs := h.slot b' j' hu'
      have hkey := h.other_key hu' hnew fun i hi hui => h.hit_alone hu hk hi hui
      rw [update2_other _ _ hnew]
      refine ⟨?_, hs.bucket, hs.tag, hs.before, fun hlive' => ?_⟩
      · rw [lastPut_other hkey.symm]
        exact hs.last
      · refine (hs.stored hlive').congr (memcpy_agree ?_)
        have hap := h.live_apart hu' hu (fun he => hnew ⟨he.1.symm, he.2.symm⟩) hlive' hlive
        have hlc : lenToCopy (item (kv.bktOf op.key) j) = 18 + op.valLen.toNat := hcopy.symm
        exact hap.imp (fun hle => by omega) (fun hle => by omega)
  · intro b1 j1 b2 j2 hu1 hu2 hne
    rw [hitem, hitem]
    exact h.apart b1 j1 b2 j2 hu1 hu2 hne

/-- A batch of one operation is one round of the last loop. -/
theorem batchOne_ok {resps : List MicaResp} (h : micaBatchOp kv [op] = .ok (kv', resps)) :
    ∃ resp, resps = [resp] ∧ processOp kv op (lookup kv op.key) = .ok (kv', resp) := by
  obtain ⟨⟨kv1, resp⟩, h1, h⟩ := bind_ok h
  obtain ⟨⟨kv2, resps'⟩, h2, h⟩ := bind_ok h
  cases h2
  cases h
  exact ⟨resp, rfl, h1⟩

/-- The operation a call inserts into the log, if it does. -/
def inserted (kv : MicaKv) : Single → Option MicaOp
  | .insertOne op => some op
  | .batchOne op =>
    if op.opcode ≠ opGet ∧ Missed kv op.key (lookup kv op.key) then some op else none

/-- What a single operation does to the index: nothing, or it gives the chosen
slot to the operation it inserts. -/
inductive Effect (kv kv' : MicaKv) (c : Single) (item item' : Nat → Fin 8 → MicaOp) : Prop where
  | kept : inserted kv c = none → SameIndex kv kv' →
    (∀ b j, (item' b j).key = (item b j).key) → Effect kv kv' c item item'
  | inserted (op : MicaOp) : inserted kv c = some op → ValidPut op →
    micaInsertOne kv op = .ok kv' →
    item' = update2 item (kv.bktOf op.key)
      (chosen (kv.htIndex (kv.bktOf op.key)) op.key.tag.toNat) op →
    Effect kv kv' c item item'

/-- Every single operation keeps the invariant. -/
theorem step_storeInv {s s' : History} {c : Single} (h : StoreInv s.kv s.puts item)
    (hstep : histories.step s c s') :
    ∃ item', StoreInv s'.kv s'.puts item' ∧ Effect s.kv s'.kv c item item' := by
  obtain ⟨⟨hv, _, resps, hp⟩, hputs⟩ := hstep
  rw [hputs]
  cases c with
  | insertOne op =>
    obtain ⟨kv1, hi, hp⟩ := bind_ok hp
    cases hp
    exact ⟨_, h.insert hv hi, .inserted op rfl hv hi rfl⟩
  | batchOne op =>
    obtain ⟨resp, _, hp⟩ := batchOne_ok hp
    rcases processOp_effect hp with ⟨hget, hsame, hlog⟩ | ⟨hput, hfound, ptr, hptr, hlen, hkv⟩ |
      ⟨hput, hmiss, hi⟩
    · rw [History.record, if_pos hget]
      exact ⟨item, h.congr hsame hlog, .kept (if_neg fun hn => hn.1 hget) hsame fun _ _ => rfl⟩
    · obtain ⟨ptr', hptr', hkey⟩ := not_missed_iff.mp hfound
      cases hptr.symm.trans hptr'
      obtain ⟨j, hu, hk, hlive, rfl⟩ := h.hit_iff.mp ⟨hptr, hkey⟩
      have hst := (h.slot _ j hu).stored hlive
      rw [History.record, if_neg hput]
      refine ⟨_, hkv ▸ h.update hu hk hlive (hlen.trans hst.valLen),
        .kept (if_neg fun hn => hfound hn.2) (hkv ▸ updated_same) ?_⟩
      intro b' j'
      by_cases hnew : b' = s.kv.bktOf op.key ∧ j' = j
      · obtain ⟨rfl, rfl⟩ := hnew
        rw [update2_self, hk]
      · rw [update2_other _ _ hnew]
    · have hv' := hv.2 op List.mem_cons_self hput
      rw [History.record, if_neg hput]
      exact ⟨_, h.insert hv' hi, .inserted op (if_pos ⟨hput, hmiss⟩) hv' hi rfl⟩

/-- The invariant holds in every run. -/
theorem histories_storeInv {s : History} (h : Reachable histories s) :
    ∃ item, StoreInv s.kv s.puts item := by
  refine h.invariant (P := fun s => ∃ item, StoreInv s.kv s.puts item) ?_ ?_
  · intro s hinit
    obtain ⟨⟨_, _, _, _, _, h0⟩, hputs⟩ := hinit
    refine ⟨fun _ _ => zeros 0, init_logInv h0, init_indexInv h0, ?_, ?_⟩
    · intro b j hu
      rw [init_unused h0] at hu
      cases hu
    · intro b j b' j' hu
      rw [init_unused h0] at hu
      cases hu
  · intro s c s' _ hprev hstep
    obtain ⟨item, hinv⟩ := hprev
    obtain ⟨item', hinv', _⟩ := step_storeInv hinv hstep
    exact ⟨item', hinv'⟩

/-! ## What a GET returns -/

/-- A GET that succeeds returns the length and the bytes of the most recent PUT
of its key in the run. -/
theorem get_returns_lastPut {s : History} (h : Reachable histories s) (hget : op.opcode = opGet)
    {resp : MicaResp} (hr : micaBatchOp s.kv [op] = .ok (kv', [resp]))
    (hs : resp.type = .getSuccess) :
    ∃ p ptr, lastPut s.puts op.key = some p ∧ resp.valLen = p.valLen ∧ resp.valPtr = some ptr ∧
      ∀ i < p.valLen.toNat, kv'.htLog (ptr + i) = p.value i := by
  obtain ⟨item, hinv⟩ := histories_storeInv h
  obtain ⟨resp', hresp, hp⟩ := batchOne_ok hr
  cases hresp
  rcases processOp_cases hp with ⟨_, ptr, hptr, hkey, hkv, hresp⟩ | ⟨_, _, _, hresp⟩ |
    ⟨hput, _⟩ | ⟨hput, _⟩
  · obtain ⟨j, hu, hk, hlive, rfl⟩ := hinv.hit_iff.mp ⟨hptr, hkey⟩
    have hslot := hinv.slot _ j hu
    have hst := hslot.stored hlive
    have hlast := hslot.last
    rw [hk] at hlast
    refine ⟨_, (s.kv.htIndex (s.kv.bktOf op.key) j).offset % s.kv.logCap + 18, hlast, ?_, ?_, ?_⟩
    · rw [hresp]
      exact hst.valLen
    · rw [hresp]
    · rw [hkv]
      exact hst.value
  · rw [hresp] at hs
    cases hs
  · exact absurd hget hput
  · exact absurd hget hput

/-- An insertion into a fresh store, and a GET of its key. -/
theorem insert_then_get : ∃ kv0 kv1 kv2 resp, Reachable histories ⟨kv0, []⟩ ∧
    histories.step ⟨kv0, []⟩ (.insertOne (zeros 6)) ⟨kv1, [zeros 6]⟩ ∧
    micaBatchOp kv1 [{ zeros 6 with opcode := opGet }] = .ok (kv2, [resp]) ∧
    resp.type = .getSuccess := by
  have hrun : (do
      let kv ← micaInit (fun _ _ => ⟨false, 0, 0⟩) (fun _ => 0) 0 1 2097152
      let kv ← micaInsertOne kv (zeros 6)
      let r ← micaBatchOp kv [{ zeros 6 with opcode := opGet }]
      return r.2.map MicaResp.type : Except Assert (List RespType)) = .ok [.getSuccess] := by
    decide +kernel
  obtain ⟨kv0, h0, hrun⟩ := bind_ok hrun
  obtain ⟨kv1, h1, hrun⟩ := bind_ok hrun
  obtain ⟨⟨kv2, resps⟩, h2, hrun⟩ := bind_ok hrun
  obtain ⟨resp, rfl, _⟩ := batchOne_ok h2
  refine ⟨kv0, kv1, kv2, resp, .init ⟨⟨_, _, _, _, _, h0⟩, rfl⟩,
    ⟨⟨(by decide : ValidPut (zeros 6)), ?_, [], ?_⟩, rfl⟩, h2, ?_⟩
  · intro p hp
    rw [List.mem_singleton.mp hp, ← Except.ok.inj h0]
    decide
  · exact perform_insertOne h1
  · simpa [pure, Except.pure] using hrun

theorem get_returns_lastPut_inserted : ∃ (s : History) (kv' : MicaKv) (resp : MicaResp),
    micaBatchOp s.kv [{ zeros 6 with opcode := opGet }] = .ok (kv', [resp]) ∧
    ∃ p ptr, lastPut s.puts ⟨0, 0, 0, 0⟩ = some p ∧ resp.valLen = p.valLen ∧
      resp.valPtr = some ptr ∧ ∀ i < p.valLen.toNat, kv'.htLog (ptr + i) = p.value i := by
  obtain ⟨kv0, kv1, kv2, resp, hr, hstep, hget, hs⟩ := insert_then_get
  exact ⟨⟨kv1, [zeros 6]⟩, kv2, resp, hget, get_returns_lastPut (.step hr hstep) rfl hget hs⟩

end RdmaBench.Mica.Store
