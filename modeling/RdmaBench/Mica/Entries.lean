import RdmaBench.Mica.Store

/-! # The entries of the log

Runs of whole batches. All lookups of a batch are made before its first
operation is processed, so an operation may go to an entry that its slot no
longer leads to. The invariant is therefore about the entries and not the
slots: each entry the head has not overrun holds the last PUT that was written
to it. It needs that no PUT takes the bytes of a newer entry for its own, which
the comparison of keys does not exclude: the bytes of a value can spell a key.
The lengths of the values do not matter. -/

namespace RdmaBench.Mica.Entries
open RdmaBench.Lib.Asserts RdmaBench.Lib.Bits RdmaBench.Lib.ByteMem RdmaBench.Lib.Circular
open RdmaBench.Lib.Runs
open RdmaBench.Mica.Model RdmaBench.Mica.Log RdmaBench.Mica.Bucket RdmaBench.Mica.Store

variable {kv kv' kv0 : MicaKv} {op p : MicaOp} {key : MicaKey} {A : MicaOp → Prop}
  {E E' E0 : Nat → Option MicaOp} {o : Nat}

/-! ## The invariant -/

/-- The offset in the slot the lookup of a key stops at. -/
def slotOffset (kv : MicaKv) (key : MicaKey) : Option Nat :=
  (findSlot (kv.htIndex (kv.bktOf key)) key.tag.toNat).map
    fun j => (kv.htIndex (kv.bktOf key) j).offset

/-- `E` has the operation last written to each entry of the log, all of them
from `A`. An entry holds its operation until the head has overrun it, and every
slot in use leads to an entry. -/
structure EntryInv (kv : MicaKv) (A : MicaOp → Prop) (E : Nat → Option MicaOp) : Prop where
  log : LogInv kv
  index : IndexInv kv
  layout : Layout lenToCopy kv.logHead E
  put : ∀ o p, E o = some p → A p
  stored : ∀ o p, E o = some p → kv.logHead ≤ o + kv.logCap →
    Stored kv.htLog (o % kv.logCap) p
  slot : ∀ b j, (kv.htIndex b j).inUse = true → ∃ p, E (kv.htIndex b j).offset = some p

theorem EntryInv.cap_pos (h : EntryInv kv A E) : 0 < kv.logCap := by
  have := h.log.cap_bounds.1
  omega

theorem EntryInv.mono {B : MicaOp → Prop} (h : EntryInv kv A E) (hAB : ∀ p, A p → B p) :
    EntryInv kv B E :=
  ⟨h.log, h.index, h.layout, fun o p hE => hAB p (h.put o p hE), h.stored, h.slot⟩

theorem slotOffset_iff (h : IndexInv kv) :
    slotOffset kv key = some o ↔ ∃ j, (kv.htIndex (kv.bktOf key) j).inUse = true ∧
      (kv.htIndex (kv.bktOf key) j).tag = key.tag.toNat ∧
      (kv.htIndex (kv.bktOf key) j).offset = o := by
  simp only [slotOffset, Option.map_eq_some_iff, findSlot_iff (h _), and_assoc]

theorem EntryInv.slot_entry (h : EntryInv kv A E) (hs : slotOffset kv key = some o) :
    ∃ p, E o = some p := by
  obtain ⟨j, hu, _, rfl⟩ := (slotOffset_iff h.index).mp hs
  exact h.slot _ j hu

/-- A lookup succeeds if there is a slot with the tag of the key whose entry the
head has not lapped. -/
theorem EntryInv.lookup_iff (h : EntryInv kv A E) {ptr : Nat} :
    lookup kv key = some ptr ↔
      ∃ o, slotOffset kv key = some o ∧ kv.logHead < o + kv.logCap ∧ o % kv.logCap = ptr := by
  cases hf : findSlot (kv.htIndex (kv.bktOf key)) key.tag.toNat with
  | none => simp [lookup, slotOffset, hf]
  | some j =>
    have hs : slotOffset kv key = some (kv.htIndex (kv.bktOf key) j).offset := by
      simp [slotOffset, hf]
    obtain ⟨p, hE⟩ := h.slot_entry hs
    have hlt := h.layout.lt_head hE
    have hbound := h.log.bound
    simp only [logBits] at hbound
    have hage : sub64 kv.logHead (kv.htIndex (kv.bktOf key) j).offset =
        kv.logHead - (kv.htIndex (kv.bktOf key) j).offset := sub64_of_le (by omega) (by omega)
    simp only [lookup, hf, hage, hs, Option.some.injEq, exists_eq_left', h.log.and_mask]
    by_cases hlive : kv.logHead < (kv.htIndex (kv.bktOf key) j).offset + kv.logCap
    · rw [if_neg (by omega), Option.some.injEq]
      exact ⟨fun he => ⟨hlive, he⟩, And.right⟩
    · rw [if_pos (by omega)]
      simp [hlive]

/-- The comparison of keys is right about an entry that is not overrun. -/
theorem EntryInv.keyAt_iff (h : EntryInv kv A E) (hE : E o = some p)
    (hlive : kv.logHead ≤ o + kv.logCap) :
    keyAt kv key (o % kv.logCap) = true ↔ p.key = key := by
  have hst := h.stored o p hE hlive
  simp only [keyAt, Bool.and_eq_true, beq_iff_eq]
  constructor
  · rintro ⟨h0, h1⟩
    exact key_of_words (hst.word0.symm.trans h0) (hst.word1.symm.trans h1)
  · rintro rfl
    exact ⟨hst.word0, hst.word1⟩

/-! ## What the operations do to the entries -/

theorem EntryInv.same (h : EntryInv kv A E) (hs : SameIndex kv kv')
    (hl : kv'.htLog = kv.htLog) : EntryInv kv' A E := by
  refine ⟨h.log.same hs, h.index.same hs, ?_, h.put, ?_, ?_⟩
  · rw [hs.logHead]
    exact h.layout
  · rw [hs.logHead, hs.logCap, hl]
    exact h.stored
  · rw [hs.htIndex]
    exact h.slot

/-- An insertion appends an entry. -/
theorem EntryInv.insert (h : EntryInv kv A E) (ha : A op) (hi : micaInsertOne kv op = .ok kv') :
    EntryInv kv' A (Function.update E kv.logHead (some op)) := by
  obtain ⟨_, _, hlog, _, hcap, _, _⟩ := insertOne_ok hi
  have hpast := insertOne_past h.log hi
  refine ⟨insertOne_logInv h.log hi, insertOne_indexInv h.index hi, h.layout.append hpast,
    ?_, ?_, ?_⟩
  · intro o p hE
    by_cases ho : o = kv.logHead
    · rw [ho, Function.update_self, Option.some.injEq] at hE
      rwa [← hE]
    · rw [Function.update_of_ne ho] at hE
      exact h.put o p hE
  · intro o p hE hlive
    rw [hcap] at hlive
    rw [hlog, hcap, h.log.and_mask]
    by_cases ho : o = kv.logHead
    · rw [ho, Function.update_self, Option.some.injEq] at hE
      rw [ho, ← hE]
      exact stored_memcpy _ _ _
    · rw [Function.update_of_ne ho] at hE
      -- an entry that is not overrun now is in one window with the new one
      have hbefore := h.layout.before o p hE
      exact (h.stored o p hE (by omega)).congr
        (memcpy_agree (ranges_apart h.cap_pos hbefore (by omega)))
  · intro b j hu
    rw [insertOne_index h.log hi] at hu ⊢
    by_cases hnew : b = kv.bktOf op.key ∧ j = chosen (kv.htIndex (kv.bktOf op.key)) op.key.tag.toNat
    · obtain ⟨rfl, rfl⟩ := hnew
      rw [update2_self]
      exact ⟨op, Function.update_self ..⟩
    · rw [update2_other _ _ hnew] at hu ⊢
      obtain ⟨p, hE⟩ := h.slot b j hu
      have hlt := h.layout.lt_head hE
      exact ⟨p, by rw [Function.update_of_ne (by omega), hE]⟩

/-- An update in place replaces an entry. -/
theorem EntryInv.update (h : EntryInv kv A E) (ha : A op) (hE : E o = some p)
    (hlive : kv.logHead ≤ o + kv.logCap) (hk : p.key = op.key) (hlen : op.valLen = p.valLen) :
    EntryInv (updated kv op (o % kv.logCap)) A (Function.update E o (some op)) := by
  have hcopy : lenToCopy op = lenToCopy p := by rw [lenToCopy, lenToCopy, hlen]
  refine ⟨h.log.same ⟨rfl, rfl, rfl, rfl, rfl⟩, h.index, h.layout.replace hE hcopy, ?_, ?_, ?_⟩
  · intro x q hq
    by_cases hx : x = o
    · rw [hx, Function.update_self, Option.some.injEq] at hq
      rwa [← hq]
    · rw [Function.update_of_ne hx] at hq
      exact h.put x q hq
  · intro x q hq hlive'
    by_cases hx : x = o
    · rw [hx, Function.update_self, Option.some.injEq] at hq
      rw [hx, ← hq]
      exact (h.stored o p hE hlive).update hk hlen
    · rw [Function.update_of_ne hx] at hq
      refine (h.stored x q hq hlive').congr (memcpy_agree ?_)
      have hap := h.layout.cells_apart h.cap_pos hq hE hx hlive' hlive
      have hlc : lenToCopy p = 18 + op.valLen.toNat := hcopy.symm
      exact hap.imp (fun hle => by omega) (fun hle => by omega)
  · intro b j hu
    obtain ⟨q, hq⟩ := h.slot b j hu
    by_cases hx : (kv.htIndex b j).offset = o
    · exact ⟨op, by rw [← hx]; exact Function.update_self ..⟩
    · exact ⟨q, by rw [← hq]; exact Function.update_of_ne hx ..⟩

/-! ## The rounds of a batch -/

/-- The last loop of `mica_batch_op`, from some round on, for lookups made in
`kv0`. -/
def finishBatch (kv0 kv : MicaKv) (ops : List MicaOp) : Except Assert (MicaKv × List MicaResp) :=
  processAll kv (ops.map fun op => (op, lookup kv0 op.key))

/-- Its rounds: the operations, each with the store it is processed in. -/
def rounds (kv0 kv : MicaKv) : List MicaOp → List (MicaKv × MicaOp)
  | [] => []
  | op :: rest =>
    (kv, op) :: match processOp kv op (lookup kv0 op.key) with
      | .ok (kv', _) => rounds kv0 kv' rest
      | .error _ => []

theorem finishBatch_cons {ops : List MicaOp} {resps : List MicaResp}
    (h : finishBatch kv0 kv (op :: ops) = .ok (kv', resps)) :
    ∃ kv1 resp resps1, processOp kv op (lookup kv0 op.key) = .ok (kv1, resp) ∧
      finishBatch kv0 kv1 ops = .ok (kv', resps1) ∧ resps = resp :: resps1 ∧
      rounds kv0 kv (op :: ops) = (kv, op) :: rounds kv0 kv1 ops := by
  obtain ⟨⟨kv1, resp⟩, h1, h⟩ := bind_ok h
  obtain ⟨⟨kv2, resps1⟩, h2, h⟩ := bind_ok h
  cases h
  exact ⟨kv1, resp, resps1, h1, h2, rfl, by simp [rounds, h1]⟩

/-- What every round keeps is kept by the batch. -/
theorem finishBatch_rule {P : MicaKv → Prop} {C : MicaKv → MicaOp → Prop} {ops : List MicaOp}
    {resps : List MicaResp}
    (hstep : ∀ kv op kv' resp, P kv → C kv op →
      processOp kv op (lookup kv0 op.key) = .ok (kv', resp) → P kv')
    (hp : P kv) (hc : ∀ r ∈ rounds kv0 kv ops, C r.1 r.2)
    (h : finishBatch kv0 kv ops = .ok (kv', resps)) : P kv' := by
  induction ops generalizing kv resps with
  | nil =>
    cases h
    exact hp
  | cons op ops ih =>
    obtain ⟨kv1, resp, resps1, h1, h2, _, hr⟩ := finishBatch_cons h
    rw [hr] at hc
    exact ih (hstep _ _ _ _ hp (hc (kv, op) List.mem_cons_self) h1)
      (fun r hm => hc r (List.mem_cons_of_mem _ hm)) h2

/-- A batch `ops` seen from one of its rounds, which goes from `kv1` to `kv2`. -/
structure SplitAt (kv0 kv : MicaKv) (ops : List MicaOp) (pre post : List (MicaKv × MicaOp))
    (kv1 kv2 : MicaKv) (op : MicaOp) (resp : MicaResp) (kv' : MicaKv)
    (before after : List MicaOp) : Prop where
  ops : ops = before ++ op :: after
  pre : rounds kv0 kv before = pre
  first : ∃ resps, finishBatch kv0 kv before = .ok (kv1, resps)
  round : processOp kv1 op (lookup kv0 op.key) = .ok (kv2, resp)
  post : rounds kv0 kv2 after = post
  last : ∃ resps, finishBatch kv0 kv2 after = .ok (kv', resps)

/-- Every round splits its batch, and its response is the one at its place. -/
theorem split_at {ops : List MicaOp} {resps : List MicaResp} {pre post : List (MicaKv × MicaOp)}
    {kv1 : MicaKv} (h : finishBatch kv0 kv ops = .ok (kv', resps))
    (hr : rounds kv0 kv ops = pre ++ (kv1, op) :: post) :
    ∃ kv2 resp before after, resps[pre.length]? = some resp ∧
      SplitAt kv0 kv ops pre post kv1 kv2 op resp kv' before after := by
  induction pre generalizing kv ops resps with
  | nil =>
    cases ops with
    | nil => cases hr
    | cons op' ops =>
      obtain ⟨kv2, resp, resps1, h1, h2, rfl, hr'⟩ := finishBatch_cons h
      obtain ⟨⟨rfl, rfl⟩, rfl⟩ : (kv = kv1 ∧ op' = op) ∧ rounds kv0 kv2 ops = post := by
        simpa using hr'.symm.trans hr
      exact ⟨kv2, resp, [], ops, rfl, rfl, rfl, ⟨[], rfl⟩, h1, rfl, resps1, h2⟩
  | cons r pre ih =>
    cases ops with
    | nil => cases hr
    | cons op' ops =>
      obtain ⟨kvn, respn, resps1, h1, h2, rfl, hr'⟩ := finishBatch_cons h
      obtain ⟨rfl, hrest⟩ :
          (kv, op') = r ∧ rounds kv0 kvn ops = pre ++ (kv1, op) :: post := by
        simpa using hr'.symm.trans hr
      obtain ⟨kv2, resp, before, after, hat, rfl, hpre, ⟨resps2, hf⟩, hround, hpost, hlast⟩ :=
        ih h2 hrest
      refine ⟨kv2, resp, op' :: before, after, by simpa using hat, rfl, ?_,
        ⟨respn :: resps2, ?_⟩, hround, hpost, hlast⟩
      · simp [rounds, h1, hpre]
      · simp only [finishBatch] at hf
        simp [finishBatch, processAll, h1, hf, bind, Except.bind, pure, Except.pure]

/-! ## Updates of entries that are still there -/

/-- The entry the lookup in `kv0` led to is not overrun in `kv`, or the key leads
to it again. -/
def Intact (kv0 kv : MicaKv) (key : MicaKey) : Prop :=
  (∃ o, slotOffset kv0 key = some o ∧ kv.logHead ≤ o + kv.logCap) ∨
    lookup kv key = lookup kv0 key

instance (kv0 kv : MicaKv) (key : MicaKey) : Decidable (Intact kv0 kv key) :=
  decidable_of_iff ((slotOffset kv0 key).any (fun o => decide (kv.logHead ≤ o + kv.logCap)) = true ∨
    lookup kv key = lookup kv0 key) (by simp [Intact, Option.any_eq_true])

/-- A PUT that finds its key compares with an entry, and not with the bytes of
another. -/
def Unforged (kv0 kv : MicaKv) (op : MicaOp) : Prop :=
  op.opcode ≠ opGet → ¬ Missed kv op.key (lookup kv0 op.key) → Intact kv0 kv op.key

instance (kv0 kv : MicaKv) (op : MicaOp) : Decidable (Unforged kv0 kv op) :=
  inferInstanceAs (Decidable (_ → _ → _))

/-- What is known in every round of a batch that started in `kv0` with the
entries `E0`. -/
structure RoundInv (kv0 : MicaKv) (E0 : Nat → Option MicaOp) (A : MicaOp → Prop) (kv : MicaKv)
    (E : Nat → Option MicaOp) : Prop where
  entries : EntryInv kv A E
  kept : ∀ o p, E0 o = some p → ∃ p', E o = some p' ∧ p'.key = p.key
  cap : kv.logCap = kv0.logCap
  mask : kv.bktMask = kv0.bktMask
  head : kv0.logHead ≤ kv.logHead

theorem EntryInv.roundInv (h : EntryInv kv A E) : RoundInv kv E A kv E :=
  ⟨h, fun _ p hE => ⟨p, hE, rfl⟩, rfl, rfl, Nat.le_refl _⟩

/-- A key found where its entry is intact is the key of an entry. -/
theorem RoundInv.hit (h0 : EntryInv kv0 A E0) (h : RoundInv kv0 E0 A kv E)
    (hhit : ¬ Missed kv key (lookup kv0 key)) (hint : Intact kv0 kv key) :
    ∃ o p, E o = some p ∧ p.key = key ∧ kv.logHead ≤ o + kv.logCap ∧
      lookup kv0 key = some (o % kv.logCap) := by
  obtain ⟨ptr, hptr, hkey⟩ := not_missed_iff.mp hhit
  obtain ⟨o, hs, _, ho⟩ := h0.lookup_iff.mp hptr
  rw [← h.cap] at ho
  rcases hint with ⟨o', hs', hlive⟩ | hagain
  · obtain rfl : o = o' := Option.some.inj (hs.symm.trans hs')
    obtain ⟨p0, hE0⟩ := h0.slot_entry hs
    obtain ⟨p, hE, _⟩ := h.kept o p0 hE0
    rw [← ho, h.entries.keyAt_iff hE hlive] at hkey
    exact ⟨o, p, hE, hkey, hlive, by rw [hptr, ho]⟩
  · obtain ⟨o1, hs1, hlive, ho1⟩ := h.entries.lookup_iff.mp (hagain.trans hptr)
    obtain ⟨p, hE⟩ := h.entries.slot_entry hs1
    rw [← ho1, h.entries.keyAt_iff hE hlive.le] at hkey
    exact ⟨o1, p, hE, hkey, hlive.le, by rw [hptr, ho1]⟩

/-- What a round does to the entries. -/
inductive Change (kv0 kv kv' : MicaKv) (op : MicaOp) (E E' : Nat → Option MicaOp) : Prop where
  | read : op.opcode = opGet → SameIndex kv kv' → kv'.htLog = kv.htLog → E' = E →
    Change kv0 kv kv' op E E'
  | update (o : Nat) (p : MicaOp) : op.opcode ≠ opGet → ¬ Missed kv op.key (lookup kv0 op.key) →
    E o = some p → p.key = op.key → op.valLen = p.valLen → kv.logHead ≤ o + kv.logCap →
    lookup kv0 op.key = some (o % kv.logCap) → kv' = updated kv op (o % kv.logCap) →
    E' = Function.update E o (some op) → Change kv0 kv kv' op E E'
  | insert : op.opcode ≠ opGet → Missed kv op.key (lookup kv0 op.key) →
    micaInsertOne kv op = .ok kv' → E' = Function.update E kv.logHead (some op) →
    Change kv0 kv kv' op E E'

theorem RoundInv.round (h0 : EntryInv kv0 A E0) (h : RoundInv kv0 E0 A kv E)
    (ha : op.opcode ≠ opGet → A op) (hun : Unforged kv0 kv op) {resp : MicaResp}
    (hp : processOp kv op (lookup kv0 op.key) = .ok (kv', resp)) :
    ∃ E', RoundInv kv0 E0 A kv' E' ∧ Change kv0 kv kv' op E E' := by
  rcases processOp_effect hp with ⟨hget, hsame, hlog⟩ | ⟨hput, hhit, ptr, hptr, hlen, hkv⟩ |
    ⟨hput, hmiss, hi⟩
  · exact ⟨E, ⟨h.entries.same hsame hlog, h.kept, hsame.logCap.trans h.cap,
      hsame.bktMask.trans h.mask, hsame.logHead ▸ h.head⟩, .read hget hsame hlog rfl⟩
  · -- the entry with the key is updated
    obtain ⟨o, p, hE, hk, hlive, ho⟩ := h.hit h0 hhit (hun hput hhit)
    obtain rfl : o % kv.logCap = ptr := Option.some.inj (ho.symm.trans hptr)
    have hlen' : op.valLen = p.valLen := hlen.trans (h.entries.stored o p hE hlive).valLen
    refine ⟨_, ⟨hkv ▸ h.entries.update (ha hput) hE hlive hk hlen', ?_, by rw [hkv]; exact h.cap,
      by rw [hkv]; exact h.mask, by rw [hkv]; exact h.head⟩,
      .update o p hput hhit hE hk hlen' hlive ho hkv rfl⟩
    intro x q hq
    obtain ⟨q', hq', hkq⟩ := h.kept x q hq
    by_cases hx : x = o
    · obtain rfl : q' = p := Option.some.inj (hq'.symm.trans (hx ▸ hE))
      exact ⟨op, by rw [hx, Function.update_self], by rw [← hk, hkq]⟩
    · exact ⟨q', by rw [Function.update_of_ne hx, hq'], hkq⟩
  · obtain ⟨_, _, _, _, hcap, _, hmask⟩ := insertOne_ok hi
    have hpast := insertOne_past h.entries.log hi
    have hhead := h.head
    refine ⟨_, ⟨h.entries.insert (ha hput) hi, ?_, hcap.trans h.cap, hmask.trans h.mask, by omega⟩,
      .insert hput hmiss hi rfl⟩
    intro x q hq
    obtain ⟨q', hq', hkq⟩ := h.kept x q hq
    have hlt := h.entries.layout.lt_head hq'
    exact ⟨q', by rw [Function.update_of_ne (by omega), hq'], hkq⟩

/-! ## Runs -/

/-- The PUTs of a call. -/
def putsOf : Call → List MicaOp
  | .insertOne op => [op]
  | .batchOp ops => ops.filter fun op => op.opcode ≠ opGet

/-- Runs of any calls, with the PUTs of the run. -/
def batches : System History Call where
  init s := calls.init s.kv ∧ s.puts = []
  step s call s' := calls.step s.kv call s'.kv ∧ s'.puts = putsOf call ++ s.puts

def UnforgedCall (kv : MicaKv) : Call → Prop
  | .insertOne _ => True
  | .batchOp ops => ∀ r ∈ rounds kv kv ops, Unforged kv r.1 r.2

/-- The runs in which no PUT takes the bytes of another entry for its own. -/
def unforged : System History Call where
  init s := batches.init s
  step s call s' := UnforgedCall s.kv call ∧ batches.step s call s'

theorem unforged_batches {s : History} (h : Reachable unforged s) : Reachable batches s :=
  h.mono (fun _ h0 => h0) (fun _ _ _ hs => hs.2)

theorem insertOne_unforged {s : History} (h : Reachable unforged s)
    (hi : micaInsertOne s.kv op = .ok kv') : Reachable unforged ⟨kv', op :: s.puts⟩ :=
  .step (e := .insertOne op) h ⟨trivial, ⟨[], perform_insertOne hi⟩, rfl⟩

/-- PUTs of six bytes to other keys: one with the bucket and the tag of `zeros`, and three
with tags of their own. -/
def rival : MicaOp := { zeros 6 with key := ⟨1, 0, 0, 0⟩ }
def filler : MicaOp := { zeros 6 with key := ⟨0, 0, 0, 1⟩ }
def closing : MicaOp := { zeros 6 with key := ⟨0, 0, 0, 2⟩ }
def covering : MicaOp := { zeros 6 with key := ⟨0, 0, 0, 3⟩, value := fun _ => 1 }

/-- A 2 MB store in zeroed memory after an insertion. -/
def firstStore : Except Assert MicaKv := do
  let kv ← micaInit (fun _ _ => ⟨false, 0, 0⟩) (fun _ => 0) 0 1 2097152
  micaInsertOne kv (zeros 6)

theorem firstStore_reachable (h : firstStore = .ok kv) : Reachable unforged ⟨kv, [zeros 6]⟩ := by
  obtain ⟨kv0, h0, hi⟩ := bind_ok h
  have hr : Reachable unforged ⟨kv0, []⟩ := .init ⟨⟨_, _, _, _, _, h0⟩, rfl⟩
  exact insertOne_unforged hr hi

/-- The operations of the rounds are those of the batch. -/
theorem rounds_op {ops : List MicaOp} {r : MicaKv × MicaOp} (h : r ∈ rounds kv0 kv ops) :
    r.2 ∈ ops := by
  induction ops generalizing kv with
  | nil => cases h
  | cons op ops ih =>
    simp only [rounds, List.mem_cons] at h
    rcases h with rfl | h
    · exact List.mem_cons_self
    · split at h
      · exact List.mem_cons_of_mem _ (ih h)
      · cases h

/-- The entries after some rounds of a batch, with what every round keeps. -/
theorem rounds_rule {Q : MicaKv → (Nat → Option MicaOp) → Prop} {C : MicaKv → MicaOp → Prop}
    (h0 : EntryInv kv0 A E0)
    (hstep : ∀ kv op kv' E E', RoundInv kv0 E0 A kv E → Q kv E → C kv op →
      Change kv0 kv kv' op E E' → Q kv' E')
    {ops : List MicaOp} {resps : List MicaResp} (h : RoundInv kv0 E0 A kv E) (hq : Q kv E)
    (ha : ∀ op ∈ ops, op.opcode ≠ opGet → A op)
    (hun : ∀ r ∈ rounds kv0 kv ops, Unforged kv0 r.1 r.2)
    (hc : ∀ r ∈ rounds kv0 kv ops, C r.1 r.2)
    (hp : finishBatch kv0 kv ops = .ok (kv', resps)) :
    ∃ E', RoundInv kv0 E0 A kv' E' ∧ Q kv' E' := by
  refine finishBatch_rule (P := fun kv => ∃ E, RoundInv kv0 E0 A kv E ∧ Q kv E)
    (C := fun kv op => ((op.opcode ≠ opGet → A op) ∧ Unforged kv0 kv op) ∧ C kv op) ?_
    ⟨E, h, hq⟩ ?_ hp
  · rintro kv op kv' resp ⟨E, h, hq⟩ ⟨⟨ha, hun⟩, hc⟩ hp
    obtain ⟨E', h', hchange⟩ := h.round h0 ha hun hp
    exact ⟨E', h', hstep kv op kv' E E' h hq hc hchange⟩
  · intro r hm
    exact ⟨⟨ha r.2 (rounds_op hm), hun r hm⟩, hc r hm⟩

/-- The entries after some rounds of a batch. -/
theorem rounds_entries (h0 : EntryInv kv0 A E0) {ops : List MicaOp} {resps : List MicaResp}
    (h : RoundInv kv0 E0 A kv E) (ha : ∀ op ∈ ops, op.opcode ≠ opGet → A op)
    (hun : ∀ r ∈ rounds kv0 kv ops, Unforged kv0 r.1 r.2)
    (hp : finishBatch kv0 kv ops = .ok (kv', resps)) : ∃ E', RoundInv kv0 E0 A kv' E' := by
  obtain ⟨E', h', _⟩ := rounds_rule (Q := fun _ _ => True) (C := fun _ _ => True) h0
    (fun _ _ _ _ _ _ _ _ _ => trivial) h trivial ha hun (fun _ _ => trivial) hp
  exact ⟨E', h'⟩

/-- The operations a batch may write. -/
def Written (puts ops : List MicaOp) (op : MicaOp) : Prop :=
  op ∈ puts ∨ op ∈ ops ∧ op.opcode ≠ opGet

theorem step_entries {s s' : History} {call : Call} (h : EntryInv s.kv (· ∈ s.puts) E)
    (hstep : unforged.step s call s') : ∃ E', EntryInv s'.kv (· ∈ s'.puts) E' := by
  obtain ⟨hun, ⟨resps, hp⟩, hputs⟩ := hstep
  rw [hputs]
  cases call with
  | insertOne op =>
    obtain ⟨kv1, hi, hp⟩ := bind_ok hp
    cases hp
    exact ⟨_, (h.mono fun p hm => List.mem_append_right _ hm).insert
      (List.mem_append_left _ List.mem_cons_self) hi⟩
  | batchOp ops =>
    have h0 : EntryInv s.kv (Written s.puts ops) E := h.mono fun p => .inl
    obtain ⟨E', h'⟩ := rounds_entries h0 h0.roundInv (fun op hm hput => .inr ⟨hm, hput⟩) hun hp
    refine ⟨E', h'.entries.mono ?_⟩
    rintro p (hm | ⟨hm, hput⟩)
    · exact List.mem_append_right _ hm
    · exact List.mem_append_left _ (List.mem_filter.mpr ⟨hm, by simpa using hput⟩)

/-- A fresh log has no entries. -/
theorem init_entries {index log nodeId numBkts logCap}
    (h : micaInit index log nodeId numBkts logCap = .ok kv) : EntryInv kv A fun _ => none := by
  refine ⟨init_logInv h, init_indexInv h, ?_, ?_, ?_, ?_⟩
  · exact ⟨fun p => by simp only [lenToCopy]; omega, by simp, by simp⟩
  · simp
  · simp
  · intro b j hu
    rw [init_unused h] at hu
    cases hu

/-- The invariant holds in every such run. -/
theorem unforged_entries {s : History} (h : Reachable unforged s) :
    ∃ E, EntryInv s.kv (· ∈ s.puts) E := by
  refine h.invariant (P := fun s => ∃ E, EntryInv s.kv (· ∈ s.puts) E) ?_ ?_
  · rintro s ⟨⟨_, _, _, _, _, h0⟩, _⟩
    exact ⟨_, init_entries h0⟩
  · rintro s call s' _ ⟨E, h⟩ hstep
    exact step_entries h hstep

end RdmaBench.Mica.Entries
