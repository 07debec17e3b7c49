import RdmaBench.Mica.Store

/-! # Virtual offsets

The head is a 64-bit count of the bytes of the log used so far, with those
skipped, and a slot keeps 40 bits of it. Until the assert of `mica_insert_one`
stops the process nothing is lost: the offset of a slot is the whole head its
entry was inserted at, and the unsigned difference of the lap check is the age
of the entry. This holds for values of any length, also those the store is not
meant for. -/

namespace RdmaBench.Mica.Offsets
open RdmaBench.Lib.Asserts RdmaBench.Lib.Bits RdmaBench.Lib.Runs
open RdmaBench.Mica.Model RdmaBench.Mica.Log RdmaBench.Mica.Bucket RdmaBench.Mica.Store

variable {kv kv' : MicaKv} {op : MicaOp} {heads : Nat → Fin 8 → Nat}

/-! ## Runs that remember the heads -/

/-- The head at the last insertion into each slot, after one more insertion. -/
def recordHead (heads : Nat → Fin 8 → Nat) (p : MicaKv × MicaOp) : Nat → Fin 8 → Nat :=
  update2 heads (p.1.bktOf p.2.key)
    (chosen (p.1.htIndex (p.1.bktOf p.2.key)) p.2.key.tag.toNat) p.1.logHead

structure Tracked where
  kv : MicaKv
  heads : Nat → Fin 8 → Nat

/-- The runs of any calls, with the heads of their insertions. -/
def tracked : System Tracked Call where
  init t := calls.init t.kv
  step t call t' := calls.step t.kv call t'.kv ∧
    t'.heads = (insertions t.kv call).foldl recordHead t.heads

/-- Every run can be tracked. -/
theorem calls_tracked (h : Reachable calls kv) : ∃ heads, Reachable tracked ⟨kv, heads⟩ := by
  induction h with
  | init h0 => exact ⟨fun _ _ => 0, .init h0⟩
  | step _ hs ih =>
    obtain ⟨heads, hr⟩ := ih
    exact ⟨_, .step hr ⟨hs, rfl⟩⟩

/-- The head is a multiple of 8 that fits 40 bits. A slot in use has the head of
its insertion as its offset, and the lap check computes its age. -/
structure Exact (kv : MicaKv) (heads : Nat → Fin 8 → Nat) : Prop where
  aligned : 8 ∣ kv.logHead
  bound : kv.logHead ≤ 2 ^ 40
  offset : ∀ b j, (kv.htIndex b j).inUse = true → (kv.htIndex b j).offset = heads b j
  before : ∀ b j, (kv.htIndex b j).inUse = true → heads b j < kv.logHead
  age : ∀ b j, (kv.htIndex b j).inUse = true →
    sub64 kv.logHead (kv.htIndex b j).offset = kv.logHead - heads b j

/-! ## The invariant -/

structure OffsetInv (kv : MicaKv) (heads : Nat → Fin 8 → Nat) : Prop where
  log : LogInv kv
  offset : ∀ b j, (kv.htIndex b j).inUse = true → (kv.htIndex b j).offset = heads b j
  before : ∀ b j, (kv.htIndex b j).inUse = true → heads b j < kv.logHead

theorem OffsetInv.exact (h : OffsetInv kv heads) : Exact kv heads := by
  refine ⟨h.log.aligned, h.log.bound, h.offset, h.before, ?_⟩
  intro b j hu
  have hlt := h.before b j hu
  have hbound := h.log.bound
  simp only [logBits] at hbound
  rw [h.offset b j hu]
  exact sub64_of_le (by omega) (by omega)

theorem OffsetInv.same (h : OffsetInv kv heads) (hs : SameIndex kv kv') : OffsetInv kv' heads := by
  refine ⟨h.log.same hs, ?_, ?_⟩
  · rw [hs.htIndex]
    exact h.offset
  · rw [hs.htIndex, hs.logHead]
    exact h.before

theorem insertOne_increases (h : LogInv kv) (hi : micaInsertOne kv op = .ok kv') :
    kv.logHead < kv'.logHead := by
  have hpast := insertOne_past h hi
  have hlen := (padded_spec op).1
  omega

/-- An insertion writes the whole head to its slot and moves it on. -/
theorem OffsetInv.insert (h : OffsetInv kv heads) (hi : micaInsertOne kv op = .ok kv') :
    OffsetInv kv' (recordHead heads (kv, op)) := by
  have hinc := insertOne_increases h.log hi
  have hidx := insertOne_index h.log hi
  refine ⟨insertOne_logInv h.log hi, ?_, ?_⟩
  · intro b j hu
    rw [hidx] at hu ⊢
    by_cases hnew : b = kv.bktOf op.key ∧ j = chosen (kv.htIndex (kv.bktOf op.key)) op.key.tag.toNat
    · obtain ⟨rfl, rfl⟩ := hnew
      rw [recordHead, update2_self, update2_self]
    · rw [update2_other _ _ hnew] at hu
      rw [recordHead, update2_other _ _ hnew, update2_other _ _ hnew]
      exact h.offset b j hu
  · intro b j hu
    rw [hidx] at hu
    by_cases hnew : b = kv.bktOf op.key ∧ j = chosen (kv.htIndex (kv.bktOf op.key)) op.key.tag.toNat
    · obtain ⟨rfl, rfl⟩ := hnew
      rw [recordHead, update2_self]
      exact hinc
    · rw [update2_other _ _ hnew] at hu
      rw [recordHead, update2_other _ _ hnew]
      exact Nat.lt_trans (h.before b j hu) hinc

/-- The insertion of one round of a batch, if it makes one. -/
def inserts (kv : MicaKv) (op : MicaOp) (kvPtr : Option Nat) : List (MicaKv × MicaOp) :=
  if op.opcode ≠ opGet ∧ Missed kv op.key kvPtr then [(kv, op)] else []

theorem processOp_offsets {kvPtr : Option Nat} {resp : MicaResp} (h : OffsetInv kv heads)
    (hp : processOp kv op kvPtr = .ok (kv', resp)) :
    OffsetInv kv' ((inserts kv op kvPtr).foldl recordHead heads) := by
  rcases processOp_effect hp with ⟨hget, hsame, _⟩ | ⟨_, hhit, _, _, _, rfl⟩ | ⟨hput, hmiss, hi⟩
  · rw [inserts, if_neg fun hn => hn.1 hget]
    exact h.same hsame
  · rw [inserts, if_neg fun hn => hhit hn.2]
    exact h.same updated_same
  · rw [inserts, if_pos ⟨hput, hmiss⟩]
    exact h.insert hi

/-- A list of one element is split only before it. -/
theorem split_singleton {α : Type} {x p : α} {pre post : List α} (h : [x] = pre ++ p :: post) :
    pre = [] ∧ x = p := by
  cases pre with
  | nil => exact ⟨rfl, (List.cons.inj h).1⟩
  | cons _ _ => simp at h

/-- Every insertion of a batch starts from exact offsets, also in a batch that
an assert stops later; and so does what follows a batch. -/
theorem batch_offsets {l : List (MicaOp × Option Nat)} (h : OffsetInv kv heads) :
    (∀ pre p post, batchInsertions kv l = pre ++ p :: post →
      OffsetInv p.1 (pre.foldl recordHead heads)) ∧
    ∀ kv' resps, processAll kv l = .ok (kv', resps) →
      OffsetInv kv' ((batchInsertions kv l).foldl recordHead heads) := by
  induction l generalizing kv heads with
  | nil =>
    refine ⟨?_, ?_⟩
    · intro pre p post he
      simp [batchInsertions] at he
    · intro kv' resps hp
      cases hp
      exact h
  | cons x rest ih =>
    obtain ⟨op, kvPtr⟩ := x
    -- the round itself inserts from the store it starts with
    have hhere : ∀ pre p post, inserts kv op kvPtr = pre ++ p :: post →
        OffsetInv p.1 (pre.foldl recordHead heads) := by
      intro pre p post he
      unfold inserts at he
      split at he
      · obtain ⟨rfl, rfl⟩ := split_singleton he
        exact h
      · simp at he
    cases h1 : processOp kv op kvPtr with
    | error e =>
      refine ⟨?_, ?_⟩
      · intro pre p post he
        simp only [batchInsertions, h1] at he
        exact hhere pre p post he
      · intro kv' resps hp
        simp [processAll, h1, bind, Except.bind] at hp
    | ok r =>
      obtain ⟨kv1, resp⟩ := r
      have hsplit : batchInsertions kv ((op, kvPtr) :: rest) =
          inserts kv op kvPtr ++ batchInsertions kv1 rest := by
        simp only [batchInsertions, h1, inserts]
      obtain ⟨hins, hend⟩ := ih (processOp_offsets h h1)
      rw [hsplit]
      refine ⟨?_, ?_⟩
      · intro pre p post he
        rcases List.append_eq_append_iff.mp he with ⟨a, rfl, ha⟩ | ⟨a, ha, hb⟩
        · rw [List.foldl_append]
          exact hins a p post ha
        · cases a with
          | nil =>
            simp only [List.append_nil] at ha
            rw [← ha]
            exact hins [] p post hb.symm
          | cons q a =>
            obtain ⟨rfl, rfl⟩ : p = q ∧ post = a ++ batchInsertions kv1 rest := by simpa using hb
            exact hhere pre p a ha
      · intro kv' resps hp
        obtain ⟨⟨kv2, resp2⟩, h2, hp⟩ := bind_ok hp
        cases h1.symm.trans h2
        obtain ⟨⟨kv3, resps3⟩, h3, hp⟩ := bind_ok hp
        cases hp
        rw [List.foldl_append]
        exact hend _ _ h3

theorem insertions_offsets (h : OffsetInv kv heads) (call : Call) :
    (∀ pre p post, insertions kv call = pre ++ p :: post →
      OffsetInv p.1 (pre.foldl recordHead heads)) ∧
    ∀ kv' resps, perform kv call = .ok (kv', resps) →
      OffsetInv kv' ((insertions kv call).foldl recordHead heads) := by
  cases call with
  | batchOp ops => exact batch_offsets h
  | insertOne op =>
    refine ⟨?_, ?_⟩
    · intro pre p post he
      obtain ⟨rfl, rfl⟩ := split_singleton he
      exact h
    · intro kv' resps hp
      obtain ⟨kv1, hi, hp⟩ := bind_ok hp
      cases hp
      exact h.insert hi

theorem tracked_offsets {t : Tracked} (h : Reachable tracked t) : OffsetInv t.kv t.heads := by
  refine h.invariant (P := fun t => OffsetInv t.kv t.heads) ?_ ?_
  · intro t hinit
    obtain ⟨_, _, _, _, _, h0⟩ := hinit
    refine ⟨init_logInv h0, ?_, ?_⟩
    · intro b j hu
      rw [init_unused h0] at hu
      cases hu
    · intro b j hu
      rw [init_unused h0] at hu
      cases hu
  · intro t call t' _ hinv hstep
    obtain ⟨⟨resps, hp⟩, hheads⟩ := hstep
    rw [hheads]
    exact (insertions_offsets hinv call).2 _ _ hp

/-- In every run the offsets are exact: between calls, and at every insertion a
call makes, before and after it; and every insertion increases the head. -/
theorem offsets_exact {t : Tracked} (h : Reachable tracked t) :
    Exact t.kv t.heads ∧
    ∀ call pre p post, insertions t.kv call = pre ++ p :: post →
      Exact p.1 (pre.foldl recordHead t.heads) ∧
      ∀ kv', micaInsertOne p.1 p.2 = .ok kv' →
        p.1.logHead < kv'.logHead ∧ Exact kv' ((pre ++ [p]).foldl recordHead t.heads) := by
  have hinv := tracked_offsets h
  refine ⟨hinv.exact, ?_⟩
  intro call pre p post he
  have hp := (insertions_offsets hinv call).1 pre p post he
  refine ⟨hp.exact, ?_⟩
  intro kv' hi
  rw [List.foldl_append]
  exact ⟨insertOne_increases hp.log hi, (hp.insert hi).exact⟩

/-- After a first insertion the entry is 24 bytes old. -/
theorem offsets_exact_first : ∃ t : Tracked, Reachable tracked t ∧
    (t.kv.htIndex 0 7).inUse = true ∧ t.kv.logHead = 24 ∧ t.heads 0 7 = 0 ∧
    Exact t.kv t.heads := by
  obtain ⟨kv, kv', h0, h1, hu, hhead, hslot⟩ : ∃ kv kv' : MicaKv,
      micaInit (fun _ _ => ⟨false, 0, 0⟩) (fun _ => 0) 0 1 2097152 = .ok kv ∧
        micaInsertOne kv (zeros 6) = .ok kv' ∧ (kv'.htIndex 0 7).inUse = true ∧
        kv'.logHead = 24 ∧ recordHead (fun _ _ => 1) (kv, zeros 6) 0 7 = 0 :=
    ⟨_, _, rfl, rfl, rfl, by decide, by decide⟩
  have hstep : tracked.step ⟨kv, fun _ _ => 1⟩ (.insertOne (zeros 6))
      ⟨kv', recordHead (fun _ _ => 1) (kv, zeros 6)⟩ :=
    ⟨⟨[], perform_insertOne h1⟩, rfl⟩
  have hr : Reachable tracked ⟨kv', recordHead (fun _ _ => 1) (kv, zeros 6)⟩ :=
    .step (.init ⟨_, _, _, _, _, h0⟩) hstep
  exact ⟨_, hr, hu, hhead, hslot, (offsets_exact hr).1⟩

end RdmaBench.Mica.Offsets
