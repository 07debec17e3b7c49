import RdmaBench.Mica.Entries

/-! # What becomes of a PUT in a batch

A PUT is acknowledged whether it inserts an entry or updates one in place, and
the place is the one the lookup found before the batch began. If an earlier
operation of the batch has given the slot of the key to another entry, the
update goes where no GET will look. -/

namespace RdmaBench.Mica.Batch
open RdmaBench.Lib.Asserts RdmaBench.Lib.Bits RdmaBench.Lib.ByteMem RdmaBench.Lib.Circular
open RdmaBench.Lib.Runs
open RdmaBench.Mica.Model RdmaBench.Mica.Log RdmaBench.Mica.Bucket RdmaBench.Mica.Store
open RdmaBench.Mica.Entries

variable {kv kv' kv0 : MicaKv} {op p : MicaOp} {key : MicaKey} {A : MicaOp → Prop}
  {E E' E0 : Nat → Option MicaOp} {o : Nat}

/-! ## What a GET finds -/

/-- A GET of the key of `op` hits and returns the value of `op`. -/
def Returns (kv : MicaKv) (op : MicaOp) : Prop :=
  ∀ get : MicaOp, get.opcode = opGet → get.key = op.key →
    ∃ kv' ptr, micaBatchOp kv [get] = .ok (kv', [⟨.getSuccess, op.valLen, some ptr⟩]) ∧
      ∀ i < op.valLen.toNat, kv'.htLog (ptr + i) = op.value i

/-- The value a GET returns is that of the entry the slot of the key leads to. -/
theorem returns_iff (h : EntryInv kv A E) :
    Returns kv op ↔ ∃ o p, slotOffset kv op.key = some o ∧ kv.logHead < o + kv.logCap ∧
      E o = some p ∧ p.key = op.key ∧ p.valLen = op.valLen ∧
      ∀ i < op.valLen.toNat, p.value i = op.value i := by
  constructor
  · intro hget
    obtain ⟨kv1, ptr, hrun, hval⟩ := hget { op with opcode := opGet } rfl rfl
    obtain ⟨resp, hresp, hp⟩ := batchOne_ok hrun
    cases hresp
    rcases processOp_cases hp with ⟨_, a, hl, hkey, hkv, hr⟩ | ⟨_, _, _, hr⟩ | ⟨hput, _⟩ |
      ⟨hput, _⟩
    · obtain ⟨o, hs, hlive, rfl⟩ := h.lookup_iff.mp hl
      obtain ⟨p, hE⟩ := h.slot_entry hs
      have hst := h.stored o p hE hlive.le
      rw [MicaResp.mk.injEq] at hr
      obtain ⟨-, hlen, hptr⟩ := hr
      cases hptr
      have hpl : p.valLen = op.valLen := hst.valLen.symm.trans hlen.symm
      refine ⟨o, p, hs, hlive, hE, (h.keyAt_iff hE hlive.le).mp hkey, hpl, ?_⟩
      intro i hi
      rw [← hst.value i (by rwa [hpl]), ← hval i hi, hkv]
    · cases hr
    · exact absurd rfl hput
    · exact absurd rfl hput
  · rintro ⟨o, p, hs, hlive, hE, hk, hlen, hval⟩ get hget hgk
    have hst := h.stored o p hE hlive.le
    have hl : lookup kv get.key = some (o % kv.logCap) := by
      rw [hgk]
      exact h.lookup_iff.mpr ⟨o, hs, hlive, rfl⟩
    have hkey : keyAt kv get.key (o % kv.logCap) = true := by
      rw [hgk]
      exact (h.keyAt_iff hE hlive.le).mpr hk
    refine ⟨{ kv with numGetOp := kv.numGetOp + 1 }, o % kv.logCap + 18, ?_, ?_⟩
    · simp [micaBatchOp, processAll, processOp, hl, hkey, hget, Option.filter, hst.valLen, hlen,
        bind, Except.bind, pure, Except.pure]
    · intro i hi
      rw [← hval i hi]
      exact hst.value i (by rwa [hlen])

/-! ## Slots -/

theorem slotOffset_same (hs : SameIndex kv kv') : slotOffset kv' key = slotOffset kv key := by
  simp only [slotOffset, bktOf_congr hs.bktMask, hs.htIndex]

/-- An insertion makes the slot of its key lead to its entry. -/
theorem slotOffset_inserted (h : EntryInv kv A E) (hi : micaInsertOne kv op = .ok kv') :
    slotOffset kv' op.key = some kv.logHead := by
  obtain ⟨_, _, _, _, _, _, hmask⟩ := insertOne_ok hi
  refine (slotOffset_iff (insertOne_indexInv h.index hi)).mpr
    ⟨chosen (kv.htIndex (kv.bktOf op.key)) op.key.tag.toNat, ?_⟩
  rw [bktOf_congr hmask, insertOne_index h.log hi, update2_self]
  exact ⟨rfl, rfl, rfl⟩

/-- The slots of all keys lead to the new entry or where they led before. -/
theorem slotOffset_insert (h : EntryInv kv A E) (hi : micaInsertOne kv op = .ok kv')
    (hs : slotOffset kv' key = some o) : o = kv.logHead ∨ slotOffset kv key = some o := by
  obtain ⟨_, _, _, _, _, _, hmask⟩ := insertOne_ok hi
  obtain ⟨j, hu, ht, rfl⟩ := (slotOffset_iff (insertOne_indexInv h.index hi)).mp hs
  rw [bktOf_congr hmask, insertOne_index h.log hi] at hu ht ⊢
  by_cases hnew : kv.bktOf key = kv.bktOf op.key ∧
      j = chosen (kv.htIndex (kv.bktOf op.key)) op.key.tag.toNat
  · obtain ⟨hb, rfl⟩ := hnew
    rw [hb, update2_self]
    exact .inl rfl
  · rw [update2_other _ _ hnew] at hu ht ⊢
    exact .inr ((slotOffset_iff h.index).mpr ⟨j, hu, ht, rfl⟩)

/-- An insertion takes a key's slot: it has the bucket and the tag of the key, or
it evicts the slot. -/
def TakesSlot (kv : MicaKv) (key : MicaKey) (op : MicaOp) : Prop :=
  kv.bktOf op.key = kv.bktOf key ∧ (op.key.tag = key.tag ∨
    ∃ j, (kv.htIndex (kv.bktOf key) j).inUse = true ∧
      (kv.htIndex (kv.bktOf key) j).tag = key.tag.toNat ∧
      Evicts (kv.htIndex (kv.bktOf key)) op.key.tag.toNat j)

instance (kv : MicaKv) (key : MicaKey) (op : MicaOp) : Decidable (TakesSlot kv key op) :=
  inferInstanceAs (Decidable (_ ∧ (_ ∨ _)))

/-- An insertion that does not take the slot of a key leaves the slots in use with
its tag as they are. -/
theorem insert_keeps_slot (h : EntryInv kv A E) (hi : micaInsertOne kv op = .ok kv')
    (hno : ¬ TakesSlot kv key op) {j : Fin 8}
    (hj : ((kv'.htIndex (kv.bktOf key) j).inUse = true ∧
        (kv'.htIndex (kv.bktOf key) j).tag = key.tag.toNat) ∨
      ((kv.htIndex (kv.bktOf key) j).inUse = true ∧
        (kv.htIndex (kv.bktOf key) j).tag = key.tag.toNat)) :
    kv'.htIndex (kv.bktOf key) j = kv.htIndex (kv.bktOf key) j := by
  rw [insertOne_index h.log hi] at hj ⊢
  by_cases hnew : kv.bktOf key = kv.bktOf op.key ∧
      j = chosen (kv.htIndex (kv.bktOf op.key)) op.key.tag.toNat
  · exfalso
    obtain ⟨hb, hc⟩ := hnew
    rw [hb, hc, update2_self] at hj
    rw [← hc] at hj
    rcases hj with ⟨_, ht⟩ | ⟨hu, ht⟩
    · exact hno ⟨hb.symm, .inl (UInt16.toNat_inj.mp ht)⟩
    · by_cases hne : op.key.tag = key.tag
      · exact hno ⟨hb.symm, .inl hne⟩
      · have htne : (kv.htIndex (kv.bktOf op.key) j).tag ≠ op.key.tag.toNat := by
          rw [ht]
          exact fun he => hne (UInt16.toNat_inj.mp he.symm)
        refine hno ⟨hb.symm, .inr ⟨j, ?_⟩⟩
        rw [hb]
        exact ⟨hu, ht, (chosen_iff_evicts hu htne).mp hc.symm⟩
  · exact update2_other _ _ hnew

theorem slotOffset_insert_other (h : EntryInv kv A E) (hi : micaInsertOne kv op = .ok kv')
    (hno : ¬ TakesSlot kv key op) : slotOffset kv' key = slotOffset kv key := by
  obtain ⟨_, _, _, _, _, _, hmask⟩ := insertOne_ok hi
  have hinv' := insertOne_indexInv h.index hi
  apply Option.ext
  intro o
  rw [slotOffset_iff hinv', slotOffset_iff h.index, bktOf_congr hmask]
  constructor
  · rintro ⟨j, hu, ht, ho⟩
    have hsame := insert_keeps_slot h hi hno (.inl ⟨hu, ht⟩)
    rw [hsame] at hu ht ho
    exact ⟨j, hu, ht, ho⟩
  · rintro ⟨j, hu, ht, ho⟩
    refine ⟨j, ?_⟩
    rw [insert_keeps_slot h hi hno (.inr ⟨hu, ht⟩)]
    exact ⟨hu, ht, ho⟩

/-! ## The rounds before the PUT -/

/-- While the entry a key had at the start of the batch is there, the slot of the
key leads to no other entry with the key. -/
def NoSecond (kv0 : MicaKv) (key : MicaKey) (kv : MicaKv) (E : Nat → Option MicaOp) : Prop :=
  ∀ o0 p0 o p, slotOffset kv0 key = some o0 → E o0 = some p0 → p0.key = key →
    kv.logHead ≤ o0 + kv.logCap → slotOffset kv key = some o → E o = some p → p.key = key →
    o = o0

/-- A round keeps it so: an insertion of the key would have found its entry. -/
theorem NoSecond.round (h0 : EntryInv kv0 A E0) (h : RoundInv kv0 E0 A kv E)
    (hno : NoSecond kv0 key kv E) (hc : Change kv0 kv kv' op E E') :
    NoSecond kv0 key kv' E' := by
  intro o0 p0 o p hs0 hE0 hk0 hlive hs hE hk
  cases hc with
  | read _ hsame _ he =>
    subst he
    rw [hsame.logHead, hsame.logCap] at hlive
    rw [slotOffset_same hsame] at hs
    exact hno o0 p0 o p hs0 hE0 hk0 hlive hs hE hk
  | update x q _ _ hx hxk _ _ _ hkv he =>
    subst hkv he
    -- an update leaves the keys of the entries alone
    have hold : ∀ y r, Function.update E x (some op) y = some r →
        ∃ r0, E y = some r0 ∧ r0.key = r.key := by
      intro y r hr
      by_cases hy : y = x
      · rw [hy, Function.update_self, Option.some.injEq] at hr
        exact ⟨q, hy ▸ hx, by rw [hxk, hr]⟩
      · rw [Function.update_of_ne hy] at hr
        exact ⟨r, hr, rfl⟩
    obtain ⟨r0, hr0, hkr0⟩ := hold o0 p0 hE0
    obtain ⟨r, hr, hkr⟩ := hold o p hE
    exact hno o0 r0 o r hs0 hr0 (hkr0.trans hk0) hlive hs hr (hkr.trans hk)
  | insert _ hmiss hi he =>
    subst he
    obtain ⟨_, _, _, _, hcap, _, _⟩ := insertOne_ok hi
    have hpast := insertOne_past h.entries.log hi
    have hhead := h.head
    rw [hcap] at hlive
    obtain ⟨q0, hq0⟩ := h0.slot_entry hs0
    have hlt0 := h0.layout.lt_head hq0
    rw [Function.update_of_ne (by omega)] at hE0
    rcases slotOffset_insert h.entries hi hs with rfl | hs
    · rw [Function.update_self, Option.some.injEq] at hE
      subst hE
      subst hk
      have hl : lookup kv0 op.key = some (o0 % kv.logCap) := by
        rw [h.cap]
        exact h0.lookup_iff.mpr ⟨o0, hs0, by rw [← h.cap]; have := (padded_spec op).1; omega, rfl⟩
      rw [hl] at hmiss
      have hkey := (h.entries.keyAt_iff hE0 (by omega)).mpr hk0
      exact absurd hmiss (not_missed_iff.mpr ⟨_, rfl, hkey⟩)
    · obtain ⟨q, hq⟩ := h.entries.slot_entry hs
      have hlt := h.entries.layout.lt_head hq
      rw [Function.update_of_ne (by omega)] at hE
      exact hno o0 p0 o p hs0 hE0 hk0 (by omega) hs hE hk

theorem noSecond_start : NoSecond kv0 key kv0 E0 := by
  intro o0 _ o _ hs0 _ _ _ hs _ _
  exact Option.some.inj (hs.symm.trans hs0)

theorem rounds_before (h0 : EntryInv kv0 A E0) {ops : List MicaOp} {resps : List MicaResp}
    (ha : ∀ op ∈ ops, op.opcode ≠ opGet → A op)
    (hun : ∀ r ∈ rounds kv0 kv0 ops, Unforged kv0 r.1 r.2)
    (hp : finishBatch kv0 kv0 ops = .ok (kv', resps)) (key : MicaKey) :
    ∃ E', RoundInv kv0 E0 A kv' E' ∧ NoSecond kv0 key kv' E' := by
  exact rounds_rule (C := fun _ _ => True) h0
    (fun _ _ _ _ _ h hno _ hc => NoSecond.round h0 h hno hc) h0.roundInv noSecond_start ha hun
    (fun _ _ => trivial) hp

/-! ## The rounds after the PUT -/

/-- An operation that neither writes the key nor takes its slot. -/
def Harmless (kv0 : MicaKv) (key : MicaKey) (kv : MicaKv) (op : MicaOp) : Prop :=
  op.opcode ≠ opGet → op.key ≠ key ∧
    (Missed kv op.key (lookup kv0 op.key) → ¬ TakesSlot kv key op)

instance (kv0 : MicaKv) (key : MicaKey) (kv : MicaKv) (op : MicaOp) :
    Decidable (Harmless kv0 key kv op) :=
  inferInstanceAs (Decidable (_ → _ ∧ (_ → _)))

/-- The slot of the key and the entries with the key are those of `kv1`. -/
structure SameKey (kv1 : MicaKv) (E1 : Nat → Option MicaOp) (key : MicaKey) (kv : MicaKv)
    (E : Nat → Option MicaOp) : Prop where
  head : kv1.logHead ≤ kv.logHead
  slot : slotOffset kv key = slotOffset kv1 key
  entries : ∀ o p, p.key = key → (E o = some p ↔ E1 o = some p)

theorem SameKey.round {kv1 : MicaKv} {E1 : Nat → Option MicaOp} (h : RoundInv kv0 E0 A kv E)
    (hs : SameKey kv1 E1 key kv E) (hh : Harmless kv0 key kv op)
    (hc : Change kv0 kv kv' op E E') : SameKey kv1 E1 key kv' E' := by
  cases hc with
  | read _ hsame _ he =>
    subst he
    exact ⟨hsame.logHead ▸ hs.head, (slotOffset_same hsame).trans hs.slot, hs.entries⟩
  | update x q hput _ hx hxk _ _ _ hkv he =>
    subst hkv he
    obtain ⟨hne, _⟩ := hh hput
    refine ⟨hs.head, (slotOffset_same ⟨rfl, rfl, rfl, rfl, rfl⟩).trans hs.slot, ?_⟩
    intro o p hk
    rw [← hs.entries o p hk]
    by_cases ho : o = x
    · subst ho
      rw [Function.update_self, hx, Option.some.injEq, Option.some.injEq]
      constructor
      · rintro rfl
        exact absurd hk hne
      · rintro rfl
        exact absurd (hxk.symm.trans hk) hne
    · rw [Function.update_of_ne ho]
  | insert hput hmiss hi he =>
    subst he
    obtain ⟨hne, hno⟩ := hh hput
    have hpast := insertOne_past h.entries.log hi
    have hhead := hs.head
    refine ⟨by omega, (slotOffset_insert_other h.entries hi (hno hmiss)).trans hs.slot, ?_⟩
    intro o p hk
    rw [← hs.entries o p hk]
    by_cases ho : o = kv.logHead
    · subst ho
      rw [Function.update_self, Option.some.injEq]
      constructor
      · rintro rfl
        exact absurd hk hne
      · intro hE
        exact absurd (h.entries.layout.lt_head hE) (Nat.lt_irrefl _)
    · rw [Function.update_of_ne ho]

theorem rounds_after (h0 : EntryInv kv0 A E0) (h : RoundInv kv0 E0 A kv E) {ops : List MicaOp}
    {resps : List MicaResp} (ha : ∀ op ∈ ops, op.opcode ≠ opGet → A op)
    (hun : ∀ r ∈ rounds kv0 kv ops, Unforged kv0 r.1 r.2)
    (hh : ∀ r ∈ rounds kv0 kv ops, Harmless kv0 key r.1 r.2)
    (hp : finishBatch kv0 kv ops = .ok (kv', resps)) :
    ∃ E', RoundInv kv0 E0 A kv' E' ∧ SameKey kv E key kv' E' := by
  exact rounds_rule h0 (fun _ _ _ _ _ h hs hh hc => SameKey.round h hs hh hc) h
    ⟨Nat.le_refl _, rfl, fun _ _ _ => Iff.rfl⟩ ha hun hh hp

/-! ## Which PUTs are kept -/

/-- The head after an insertion. -/
def nextHead (kv : MicaKv) (op : MicaOp) : Nat :=
  advanceHead kv.logCap kv.logMask kv.logHead (lenToCopy op)

/-- The operation is inserted, and this takes the head to `bound`. -/
def Laps (kv0 : MicaKv) (bound : Nat) (kv : MicaKv) (op : MicaOp) : Prop :=
  op.opcode ≠ opGet ∧ Missed kv op.key (lookup kv0 op.key) ∧ bound ≤ nextHead kv op

instance (kv0 : MicaKv) (bound : Nat) (kv : MicaKv) (op : MicaOp) :
    Decidable (Laps kv0 bound kv op) :=
  inferInstanceAs (Decidable (_ ∧ _ ∧ _))

/-- A round keeps the head below a bound unless it inserts past it. -/
theorem round_head_lt_iff (bound : Nat) (hlog : LogInv kv) {resp : MicaResp}
    (hp : processOp kv op (lookup kv0 op.key) = .ok (kv', resp)) :
    LogInv kv' ∧ (kv'.logHead < bound ↔ kv.logHead < bound ∧ ¬ Laps kv0 bound kv op) := by
  rcases processOp_effect hp with ⟨hget, hsame, _⟩ | ⟨_, hhit, _, _, _, rfl⟩ | ⟨hput, hmiss, hi⟩
  · refine ⟨hlog.same hsame, ?_⟩
    rw [hsame.logHead]
    exact ⟨fun hlt => ⟨hlt, fun hlaps => hlaps.1 hget⟩, And.left⟩
  · exact ⟨hlog.same updated_same, fun hlt => ⟨hlt, fun hlaps => hhit hlaps.2.1⟩, And.left⟩
  · have hpast := insertOne_past hlog hi
    have hhead : kv'.logHead = nextHead kv op := (insertOne_ok hi).2.2.2.1
    refine ⟨insertOne_logInv hlog hi, ?_⟩
    rw [hhead] at hpast ⊢
    constructor
    · intro hlt
      exact ⟨by omega, fun hlaps => absurd hlaps.2.2 (by omega)⟩
    · rintro ⟨_, hno⟩
      by_contra hge
      exact hno ⟨hput, hmiss, by omega⟩

/-- So does a batch. -/
theorem head_lt_iff (hlog : LogInv kv) {ops : List MicaOp} {resps : List MicaResp} {bound : Nat}
    (hp : finishBatch kv0 kv ops = .ok (kv', resps)) :
    kv'.logHead < bound ↔
      kv.logHead < bound ∧ ∀ r ∈ rounds kv0 kv ops, ¬ Laps kv0 bound r.1 r.2 := by
  induction ops generalizing kv resps with
  | nil =>
    cases hp
    simp [rounds]
  | cons op ops ih =>
    obtain ⟨kv1, resp, resps1, h1, h2, _, hr⟩ := finishBatch_cons hp
    obtain ⟨hlog1, hone⟩ := round_head_lt_iff bound hlog h1
    rw [ih hlog1 h2, hone, hr, List.forall_mem_cons, and_assoc]

/-- No insertion from the PUT on takes the head a lap past its entry. This is the entry
that it inserts, or the one that its lookup had found, if the slot of the key still leads
there. -/
def Kept (kv0 kv1 : MicaKv) (op : MicaOp) (post : List (MicaKv × MicaOp)) : Prop :=
  if Missed kv1 op.key (lookup kv0 op.key) then
    ∀ r ∈ (kv1, op) :: post, ¬ Laps kv0 (kv1.logHead + kv1.logCap) r.1 r.2
  else lookup kv1 op.key = lookup kv0 op.key ∧
    ∀ r ∈ post, ∀ o ∈ slotOffset kv1 op.key, ¬ Laps kv0 (o + kv1.logCap) r.1 r.2

instance (kv0 kv1 : MicaKv) (op : MicaOp) (post : List (MicaKv × MicaOp)) :
    Decidable (Kept kv0 kv1 op post) :=
  inferInstanceAs (Decidable (if Missed kv1 op.key (lookup kv0 op.key) then _ else _ ∧ _))

section Put

variable {kv1 kv2 : MicaKv} {E2 : Nat → Option MicaOp}
  (h0 : EntryInv kv0 A E0) (h : RoundInv kv0 E0 A kv1 E) (h' : RoundInv kv0 E0 A kv' E')

include h h'

/-- An inserted entry is found until it is lapped. -/
theorem inserted_returned_iff (hs : SameKey kv2 E2 op.key kv' E')
    (hi : micaInsertOne kv1 op = .ok kv2) (hE2 : E2 = Function.update E kv1.logHead (some op)) :
    Returns kv' op ↔ kv'.logHead < kv1.logHead + kv1.logCap := by
  rw [returns_iff h'.entries, hs.slot, slotOffset_inserted h.entries hi,
    h'.cap.trans h.cap.symm]
  constructor
  · rintro ⟨o, p, ho, hlive, -⟩
    cases ho
    exact hlive
  · intro hlive
    refine ⟨kv1.logHead, op, rfl, hlive, ?_, rfl, rfl, fun _ _ => rfl⟩
    rw [hs.entries _ _ rfl, hE2, Function.update_self]

include h0

/-- An entry updated in place is found if the slot of the key leads to it. -/
theorem updated_returned_iff (hno : NoSecond kv0 op.key kv1 E) (hint : Intact kv0 kv1 op.key)
    (hs : SameKey kv2 E2 op.key kv' E') {x : Nat} {q : MicaOp} (hx : E x = some q)
    (hxk : q.key = op.key) (hlive : kv1.logHead ≤ x + kv1.logCap)
    (hl : lookup kv0 op.key = some (x % kv1.logCap)) (hkv : kv2 = updated kv1 op (x % kv1.logCap))
    (hE2 : E2 = Function.update E x (some op)) :
    Returns kv' op ↔ lookup kv1 op.key = lookup kv0 op.key ∧
      ∃ o, slotOffset kv1 op.key = some o ∧ kv'.logHead < o + kv1.logCap := by
  have hslot : slotOffset kv' op.key = slotOffset kv1 op.key := by
    rw [hs.slot, hkv]
    exact slotOffset_same ⟨rfl, rfl, rfl, rfl, rfl⟩
  have hhead : kv1.logHead ≤ kv'.logHead := by
    have := hs.head
    rwa [hkv] at this
  -- entries in the cell the PUT wrote are the one it updated
  have hcell : ∀ o, slotOffset kv1 op.key = some o → kv1.logHead ≤ o + kv1.logCap →
      o % kv1.logCap = x % kv1.logCap → o = x := by
    intro o hso hlo ho
    obtain ⟨p, hp⟩ := h.entries.slot_entry hso
    exact h.entries.layout.cell_inj h.entries.cap_pos hp hx hlo hlive ho
  rw [returns_iff h'.entries, hslot, h'.cap.trans h.cap.symm]
  constructor
  · rintro ⟨o, p, hso, hlast, hE', hk, -⟩
    have hl1 : lookup kv1 op.key = some (o % kv1.logCap) :=
      h.entries.lookup_iff.mpr ⟨o, hso, by omega, rfl⟩
    refine ⟨?_, o, hso, hlast⟩
    rw [hs.entries o p hk, hE2] at hE'
    by_cases hox : o = x
    · rw [hl1, hox, hl]
    · rw [Function.update_of_ne hox] at hE'
      rcases hint with ⟨o0, hs0, hlive0⟩ | hagain
      · -- the entry of the start of the batch is the one updated, and the only one
        obtain ⟨o0', hs0', _, ho0⟩ := h0.lookup_iff.mp hl
        obtain rfl : o0 = o0' := Option.some.inj (hs0.symm.trans hs0')
        obtain ⟨p0, hp0⟩ := h0.slot_entry hs0
        obtain ⟨p1, hp1, _⟩ := h.kept o0 p0 hp0
        rw [← h.cap] at ho0
        have hx0 := h.entries.layout.cell_inj h.entries.cap_pos hp1 hx hlive0 hlive ho0
        subst hx0
        exact absurd (hno o0 q o p hs0 hx hxk hlive0 hso hE' hk) hox
      · exact hagain
  · rintro ⟨hagain, o, hso, hlast⟩
    obtain ⟨o', hso', hlo, ho⟩ := h.entries.lookup_iff.mp (hagain.trans hl)
    obtain rfl : o = o' := Option.some.inj (hso.symm.trans hso')
    obtain rfl := hcell o hso hlo.le ho
    refine ⟨o, op, hso, hlast, ?_, rfl, rfl, fun _ _ => rfl⟩
    rw [hs.entries _ _ rfl, hE2, Function.update_self]

end Put

/-- A batch of valid operations moves the head by little. -/
theorem finishBatch_head (hlog : LogInv kv) {ops : List MicaOp} {resps : List MicaResp}
    (hv : ∀ op ∈ ops, op.opcode ≠ opGet → ValidPut op)
    (hp : finishBatch kv0 kv ops = .ok (kv', resps)) :
    kv'.logHead ≤ kv.logHead + 144 * ops.length := by
  induction ops generalizing kv resps with
  | nil =>
    cases hp
    exact Nat.le_refl _
  | cons op ops ih =>
    obtain ⟨kv1, resp, resps1, h1, h2, _, _⟩ := finishBatch_cons hp
    have hone : LogInv kv1 ∧ kv1.logHead ≤ kv.logHead + 144 := by
      rcases processOp_effect h1 with ⟨_, hsame, _⟩ | ⟨_, _, _, _, _, rfl⟩ | ⟨hput, _, hi⟩
      · exact ⟨hlog.same hsame, by rw [hsame.logHead]; exact Nat.le_add_right _ _⟩
      · exact ⟨hlog.same updated_same, Nat.le_add_right _ _⟩
      · have hvop := hv op List.mem_cons_self hput
        have hp64 := padded_le hvop
        refine ⟨insertOne_logInv hlog hi, ?_⟩
        rcases insertOne_head hlog hvop hi with ⟨_, hh⟩ | ⟨_, _, hh⟩ | ⟨_, hh⟩
        · omega
        · omega
        · omega
    have hrest := ih hone.1 (fun op hm => hv op (List.mem_cons_of_mem _ hm)) h2
    rw [List.length_cons]
    omega

/-- A PUT that passes the asserts is acknowledged. -/
theorem put_response {kvPtr : Option Nat} {resp : MicaResp} (hput : op.opcode ≠ opGet)
    (h : processOp kv op kvPtr = .ok (kv', resp)) : resp = ⟨.putSuccess, 0, none⟩ := by
  rcases processOp_cases h with ⟨hget, _⟩ | ⟨hget, _⟩ | ⟨_, _, _, _, _, _, hr⟩ | ⟨_, _, _, hr⟩
  · exact absurd hget hput
  · exact absurd hget hput
  · exact hr
  · exact hr

/-- A valid batch does not take the head a lap past an entry that it inserts. -/
theorem inserted_head_lt (hlog1 : LogInv kv1) (hlog2 : LogInv kv2) (hv : ValidPut op)
    (hi : micaInsertOne kv1 op = .ok kv2) {ops : List MicaOp} {resps : List MicaResp}
    (hvalid : ∀ op ∈ ops, op.opcode ≠ opGet → ValidPut op) (hlen : ops.length ≤ maxBatchSize)
    (hp : finishBatch kv0 kv2 ops = .ok (kv', resps)) :
    kv'.logHead < kv1.logHead + kv1.logCap := by
  have hcap := hlog1.cap_bounds.1
  have hpadded := padded_le hv
  have hmore := finishBatch_head hlog2 hvalid hp
  simp only [maxBatchSize] at hlen
  rcases insertOne_head hlog1 hv hi with ⟨_, hhead⟩ | ⟨_, _, hhead⟩ | ⟨_, hhead⟩
  · omega
  · omega
  · omega

/-- A PUT of a batch that no later operation interferes with is answered with
success, and a GET after the batch returns its value exactly if its entry was
kept. For a PUT that inserts this is so in every valid batch. -/
theorem put_returned_iff_kept {s : History} (h : Reachable unforged s) {ops : List MicaOp}
    {resps : List MicaResp} (hrun : micaBatchOp s.kv ops = .ok (kv', resps))
    (hun : ∀ r ∈ rounds s.kv s.kv ops, Unforged s.kv r.1 r.2)
    {pre post : List (MicaKv × MicaOp)} {kv1 : MicaKv}
    (hr : rounds s.kv s.kv ops = pre ++ (kv1, op) :: post) (hput : op.opcode ≠ opGet)
    (hlater : ∀ r ∈ post, Harmless s.kv op.key r.1 r.2) :
    resps[pre.length]? = some ⟨.putSuccess, 0, none⟩ ∧
    (Returns kv' op ↔ Kept s.kv kv1 op post) ∧
    (ValidCall (.batchOp ops) → Missed kv1 op.key (lookup s.kv op.key) → Returns kv' op) := by
  obtain ⟨E0, hinv⟩ := unforged_entries h
  have h0 : EntryInv s.kv (Written s.puts ops) E0 := hinv.mono fun p => .inl
  obtain ⟨kv2, resp, before, after, hat, hops, hpre, ⟨resps1, hfirst⟩, hround, hpost,
    ⟨resps2, hlast⟩⟩ := split_at hrun hr
  have ha : ∀ op ∈ ops, op.opcode ≠ opGet → Written s.puts ops op :=
    fun op hm hp => .inr ⟨hm, hp⟩
  subst hpre hpost
  rw [hr] at hun
  obtain ⟨E1, h1, hno⟩ := rounds_before h0 (fun op hm => ha op (by simp [hops, hm]))
    (fun r hm => hun r (by simp [hm])) hfirst op.key
  have hunf := hun (kv1, op) (by simp)
  obtain ⟨E2, h2, hc⟩ := h1.round h0 (ha op (by simp [hops])) hunf hround
  obtain ⟨E', h', hs⟩ := rounds_after h0 h2 (fun op hm => ha op (by simp [hops, hm]))
    (fun r hm => hun r (by simp [hm])) hlater hlast
  rw [hat, put_response hput hround]
  refine ⟨rfl, ?_⟩
  cases hc with
  | read hget _ _ _ => exact absurd hget hput
  | update x q _ hhit hx hxk _ hlive hl hkv hE2 =>
    refine ⟨?_, fun _ hmiss => absurd hmiss hhit⟩
    rw [Kept, if_neg hhit,
      updated_returned_iff h0 h1 h' hno (hunf hput hhit) hs hx hxk hlive hl hkv hE2]
    refine and_congr_right fun hagain => ?_
    -- the slot still leads to the entry, which the head has not lapped
    obtain ⟨o, hso, hlt, _⟩ := h1.entries.lookup_iff.mp (hagain.trans hl)
    have hlt2 : kv2.logHead < o + kv1.logCap := by rw [hkv]; exact hlt
    simp [hso, head_lt_iff h2.entries.log hlast, hlt2]
  | insert _ hmiss hi hE2 =>
    have hiff := inserted_returned_iff h1 h' hs hi hE2
    refine ⟨?_, ?_⟩
    · have hlt : kv1.logHead < kv1.logHead + kv1.logCap := by
        have := h1.entries.cap_pos
        omega
      rw [Kept, if_pos hmiss, hiff, head_lt_iff h2.entries.log hlast,
        (round_head_lt_iff _ h1.entries.log hround).2, List.forall_mem_cons, and_assoc]
      exact and_iff_right hlt
    · rintro ⟨hsize, hvalid⟩ _
      have hlen : after.length ≤ maxBatchSize := by
        rw [hops, List.length_append, List.length_cons] at hsize
        omega
      have hvalid' : ∀ op ∈ after, op.opcode ≠ opGet → ValidPut op :=
        fun op hm => hvalid op (by simp [hops, hm])
      exact hiff.mpr (inserted_head_lt h1.entries.log h2.entries.log
        (hvalid op (by simp [hops]) hput) hi hvalid' hlen hlast)

/-- A batch between an insertion and another one: its second operation updates the entry
that the store has. -/
theorem put_returned_iff_kept_update : ∃ (s : History) (kv1 kv2 kv' : MicaKv)
    (resps : List MicaResp), Reachable unforged s ∧
    micaBatchOp s.kv [filler, ones, closing] = .ok (kv', resps) ∧
    rounds s.kv s.kv [filler, ones, closing] = [(s.kv, filler), (kv1, ones), (kv2, closing)] ∧
    s.kv.logHead < kv1.logHead ∧ ¬ Missed kv1 ones.key (lookup s.kv ones.key) ∧
    kv2.logHead < kv'.logHead ∧ Returns kv' ones := by
  have hrun : (do
      let kv ← firstStore
      let a ← processOp kv filler (lookup kv filler.key)
      let b ← processOp a.1 ones (lookup kv ones.key)
      let c ← processOp b.1 closing (lookup kv closing.key)
      return decide ((∀ r ∈ [(kv, filler), (a.1, ones), (b.1, closing)], Unforged kv r.1 r.2) ∧
        kv.logHead < a.1.logHead ∧ ¬ Missed a.1 ones.key (lookup kv ones.key) ∧
        b.1.logHead < c.1.logHead ∧ Harmless kv ones.key b.1 closing ∧
        Kept kv a.1 ones [(b.1, closing)]) : Except Assert Bool) = .ok true := by
    decide +kernel
  obtain ⟨kv, h1, hrun⟩ := bind_ok hrun
  obtain ⟨⟨kv1, respA⟩, hA, hrun⟩ := bind_ok hrun
  obtain ⟨⟨kv2, respB⟩, hB, hrun⟩ := bind_ok hrun
  obtain ⟨⟨kv', respC⟩, hC, hrun⟩ := bind_ok hrun
  obtain ⟨hun, hbefore, hhit, hafter, hlater, hkept⟩ := of_decide_eq_true (Except.ok.inj hrun)
  have hbatch : micaBatchOp kv [filler, ones, closing] = .ok (kv', [respA, respB, respC]) := by
    simp [micaBatchOp, processAll, hA, hB, hC, bind, Except.bind, pure, Except.pure]
  have hrounds : rounds kv kv [filler, ones, closing] =
      [(kv, filler)] ++ (kv1, ones) :: [(kv2, closing)] := by
    simp [rounds, hA, hB, hC]
  have hr := firstStore_reachable h1
  have hiff := (put_returned_iff_kept hr hbatch (by rw [hrounds]; exact hun) hrounds (by decide)
    (List.forall_mem_singleton.mpr hlater)).2.1
  exact ⟨_, kv1, kv2, kv', _, hr, hbatch, hrounds, hbefore, hhit, hafter, hiff.mpr hkept⟩

/-- A batch of two PUTs: the first gives the slot of the second's key to its own
entry, and the second updates an entry that no slot leads to any more. -/
theorem acknowledged_put_lost :
    ¬ ∀ (s : History) (ops : List MicaOp) (kv' : MicaKv) (resps : List MicaResp)
        (pre post : List (MicaKv × MicaOp)) (kv1 : MicaKv) (op : MicaOp),
      Reachable batches s → ValidCall (.batchOp ops) →
      micaBatchOp s.kv ops = .ok (kv', resps) →
      rounds s.kv s.kv ops = pre ++ (kv1, op) :: post → op.opcode ≠ opGet →
      resps[pre.length]? = some ⟨.putSuccess, 0, none⟩ →
      (∀ r ∈ post, Harmless s.kv op.key r.1 r.2) → Returns kv' op := by
  intro hall
  have hrun : (do
      let kv1 ← firstStore
      let r ← micaBatchOp kv1 [rival, ones]
      let g ← micaBatchOp r.1 [{ ones with opcode := opGet }]
      return (r.2, g.2.map MicaResp.type) : Except Assert (List MicaResp × List RespType)) =
      .ok ([⟨.putSuccess, 0, none⟩, ⟨.putSuccess, 0, none⟩], [.getFail]) := by
    decide +kernel
  obtain ⟨kv1, h1, hrun⟩ := bind_ok hrun
  obtain ⟨⟨kv', resps⟩, h2, hrun⟩ := bind_ok hrun
  obtain ⟨⟨kv'', gets⟩, h3, hrun⟩ := bind_ok hrun
  obtain ⟨rfl, hfail⟩ : resps = [⟨.putSuccess, 0, none⟩, ⟨.putSuccess, 0, none⟩] ∧
      gets.map MicaResp.type = [.getFail] := by
    simpa [pure, Except.pure] using hrun
  have hr := unforged_batches (firstStore_reachable h1)
  obtain ⟨kv2, _, _, _, h2', _, hrounds⟩ := finishBatch_cons h2
  obtain ⟨_, _, _, _, _, _, hrounds'⟩ := finishBatch_cons h2'
  have hvalid : ValidCall (.batchOp [rival, ones]) := by
    refine ⟨by decide, ?_⟩
    intro op hm _
    rcases List.mem_pair.mp hm with rfl | rfl
    · decide
    · decide
  have hret := hall ⟨kv1, [zeros 6]⟩ [rival, ones] kv' _ [(kv1, rival)] [] kv2 ones hr hvalid h2
    (by rw [hrounds, hrounds']; rfl) (by decide) rfl (fun r hm => by cases hm)
  obtain ⟨kv3, ptr, hget, _⟩ := hret { ones with opcode := opGet } rfl rfl
  cases h3.symm.trans hget
  cases hfail

end RdmaBench.Mica.Batch
