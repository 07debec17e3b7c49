import RdmaBench.Mica.Batch

/-! # Batches of a map that forgets

In a batch all lookups come first, and the values of GETs are read from the log when
all operations are processed. As long as the head does not run over an entry that one
of the lookups has found, a batch is nevertheless what its PUTs, one after the other,
and then its GETs would be on a map, except that a GET may find nothing. -/

namespace RdmaBench.Mica.Linear
open RdmaBench.Lib.Asserts RdmaBench.Lib.Circular RdmaBench.Lib.Runs
open RdmaBench.Mica.Model RdmaBench.Mica.Log RdmaBench.Mica.Bucket RdmaBench.Mica.Store
open RdmaBench.Mica.Entries RdmaBench.Mica.Batch

variable {kv kv' kv0 : MicaKv} {op p : MicaOp} {key : MicaKey} {A : MicaOp → Prop}
  {E E' E0 : Nat → Option MicaOp} {o : Nat} {puts ops : List MicaOp} {resps : List MicaResp}

/-! ## The map -/

/-- The PUTs after some more operations, the newest first. -/
def record (puts : List MicaOp) : List MicaOp → List MicaOp
  | [] => puts
  | op :: ops => record (if op.opcode = opGet then puts else op :: puts) ops

/-- The response to an operation, for the PUTs of the run and the log when it is read. -/
def Answered (puts : List MicaOp) (kv : MicaKv) (op : MicaOp) (resp : MicaResp) : Prop :=
  if op.opcode = opGet then
    resp = ⟨.getFail, 0, none⟩ ∨ ∃ p ptr, lastPut puts op.key = some p ∧
      resp = ⟨.getSuccess, p.valLen, some ptr⟩ ∧
      ∀ i < p.valLen.toNat, kv.htLog (ptr + i) = p.value i
  else resp = ⟨.putSuccess, 0, none⟩

/-- An entry that the lookup of an operation in `kv0` has found is not overrun by a
head at `head`. -/
def Spared (kv0 : MicaKv) (head : Nat) (op : MicaOp) : Prop :=
  ∀ o, slotOffset kv0 op.key = some o → kv0.logHead < o + kv0.logCap → head ≤ o + kv0.logCap

instance (kv0 : MicaKv) (head : Nat) (op : MicaOp) : Decidable (Spared kv0 head op) :=
  match h : slotOffset kv0 op.key with
  | none => isTrue fun o ho => by rw [h] at ho; cases ho
  | some o => decidable_of_iff (kv0.logHead < o + kv0.logCap → head ≤ o + kv0.logCap)
      ⟨fun hs o' ho' => by
        rw [h, Option.some.injEq] at ho'
        rwa [← ho'], fun hs => hs o h⟩

/-! ## What is current -/

/-- Entries that slots lead to, and entries that lookups in `kv0` have found, hold the
last PUT if they have the key. -/
structure Current (kv0 kv : MicaKv) (E : Nat → Option MicaOp) (puts : List MicaOp) : Prop where
  slot : ∀ key o p, slotOffset kv key = some o → kv.logHead < o + kv.logCap → E o = some p →
    p.key = key → lastPut puts key = some p
  found : ∀ key o p, slotOffset kv0 key = some o → kv0.logHead < o + kv0.logCap → E o = some p →
    p.key = key → lastPut puts key = some p

/-- A batch begins. -/
theorem Current.start (h : Current kv0 kv E puts) : Current kv kv E puts := ⟨h.slot, h.slot⟩

theorem Current.same (h : Current kv0 kv E puts) (hs : SameIndex kv kv') :
    Current kv0 kv' E puts := by
  refine ⟨fun key o p hslot hlive => ?_, h.found⟩
  rw [slotOffset_same hs] at hslot
  rw [hs.logHead, hs.logCap] at hlive
  exact h.slot key o p hslot hlive

/-- The entry that an update goes to is the only one the slot of its key can lead to. -/
theorem Current.update (h0 : EntryInv kv0 A E0) (hr : RoundInv kv0 E0 A kv E)
    (hno : NoSecond kv0 op.key kv E) (h : Current kv0 kv E puts) {x : Nat} {q : MicaOp}
    (hx : E x = some q) (hxk : q.key = op.key) (hlive : kv.logHead ≤ x + kv.logCap)
    (hl : lookup kv0 op.key = some (x % kv.logCap)) (hsp : Spared kv0 kv.logHead op) :
    Current kv0 (updated kv op (x % kv.logCap)) (Function.update E x (some op)) (op :: puts) := by
  -- it is the one that the lookup had found
  obtain ⟨o0, hs0, hlive0, ho0⟩ := h0.lookup_iff.mp hl
  obtain ⟨p0, hp0⟩ := h0.slot_entry hs0
  obtain ⟨p1, hp1, _⟩ := hr.kept o0 p0 hp0
  have hspared := hsp o0 hs0 hlive0
  rw [← hr.cap] at ho0 hspared
  obtain rfl := hr.entries.layout.cell_inj hr.entries.cap_pos hp1 hx hspared hlive ho0
  refine ⟨fun key o p hslot hlive' hE hk => ?_, fun key o p hslot hlive' hE hk => ?_⟩
  · rw [slotOffset_same updated_same] at hslot
    by_cases ho : o = o0
    · rw [ho, Function.update_self, Option.some.injEq] at hE
      rw [← hk, ← hE]
      exact lastPut_same
    · rw [Function.update_of_ne ho] at hE
      have hne : op.key ≠ key := by
        rintro rfl
        exact ho (hno o0 q o p hs0 hx hxk hlive hslot hE hk)
      rw [lastPut_other hne]
      exact h.slot key o p hslot hlive' hE hk
  · by_cases ho : o = o0
    · rw [ho, Function.update_self, Option.some.injEq] at hE
      rw [← hk, ← hE]
      exact lastPut_same
    · rw [Function.update_of_ne ho] at hE
      have hne : op.key ≠ key := by
        rintro rfl
        exact ho (Option.some.inj (hslot.symm.trans hs0))
      rw [lastPut_other hne]
      exact h.found key o p hslot hlive' hE hk

/-- An entry that is inserted is the only one with its key that a slot leads to. -/
theorem Current.insert_slot (h : EntryInv kv A E)
    (hslot : ∀ key o p, slotOffset kv key = some o → kv.logHead < o + kv.logCap → E o = some p →
      p.key = key → lastPut puts key = some p) (hi : micaInsertOne kv op = .ok kv')
    {key : MicaKey} (hs : slotOffset kv' key = some o) (hlive : kv'.logHead < o + kv'.logCap)
    (hE : Function.update E kv.logHead (some op) o = some p) (hk : p.key = key) :
    lastPut (op :: puts) key = some p := by
  obtain ⟨_, _, _, _, hcap, _, _⟩ := insertOne_ok hi
  have hpast := insertOne_past h.log hi
  rcases slotOffset_insert h hi hs with rfl | hold
  · rw [Function.update_self, Option.some.injEq] at hE
    rw [← hk, ← hE]
    exact lastPut_same
  · have hne : op.key ≠ key := by
      rintro rfl
      obtain ⟨q, hq⟩ := h.slot_entry hold
      have hlt := h.layout.lt_head hq
      have := Option.some.inj ((slotOffset_inserted h hi).symm.trans hs)
      omega
    obtain ⟨q, hq⟩ := h.slot_entry hold
    have hlt := h.layout.lt_head hq
    rw [Function.update_of_ne (by omega)] at hE
    rw [lastPut_other hne]
    rw [hcap] at hlive
    exact hslot key o p hold (by omega) hE hk

theorem Current.insert (h0 : EntryInv kv0 A E0) (hr : RoundInv kv0 E0 A kv E)
    (h : Current kv0 kv E puts) (hmiss : Missed kv op.key (lookup kv0 op.key))
    (hi : micaInsertOne kv op = .ok kv') (hsp : Spared kv0 kv.logHead op) :
    Current kv0 kv' (Function.update E kv.logHead (some op)) (op :: puts) := by
  refine ⟨fun key o p hs hlive hE hk => insert_slot hr.entries h.slot hi hs hlive hE hk,
    fun key o p hs hlive hE hk => ?_⟩
  obtain ⟨q, hq⟩ := h0.slot_entry hs
  have hlt := h0.layout.lt_head hq
  have hhead := hr.head
  rw [Function.update_of_ne (by omega)] at hE
  have hne : op.key ≠ key := by
    rintro rfl
    -- the lookup would have found the entry, and not missed
    have hl : lookup kv0 op.key = some (o % kv.logCap) := by
      rw [hr.cap]
      exact h0.lookup_iff.mpr ⟨o, hs, hlive, rfl⟩
    have hspared := hsp o hs hlive
    rw [← hr.cap] at hspared
    rw [hl] at hmiss
    exact not_missed_iff.mpr ⟨_, rfl, (hr.entries.keyAt_iff hE hspared).mpr hk⟩ hmiss
  rw [lastPut_other hne]
  exact h.found key o p hs hlive hE hk

/-! ## The rounds of a batch -/

/-- Some round of a batch that started in `kv0` with the entries `E0`. -/
structure InBatch (kv0 : MicaKv) (E0 : Nat → Option MicaOp) (A : MicaOp → Prop) (kv : MicaKv)
    (E : Nat → Option MicaOp) (puts : List MicaOp) : Prop where
  inv : RoundInv kv0 E0 A kv E
  alone : ∀ key, NoSecond kv0 key kv E
  current : Current kv0 kv E puts

/-- Entries stay, with their lengths. -/
def SameLen (E E' : Nat → Option MicaOp) : Prop :=
  ∀ o p, E o = some p → ∃ p', E' o = some p' ∧ p'.valLen = p.valLen

theorem SameLen.trans {E1 : Nat → Option MicaOp} (h : SameLen E E1) (h' : SameLen E1 E') :
    SameLen E E' := by
  intro o p hE
  obtain ⟨p1, hE1, hl1⟩ := h o p hE
  obtain ⟨p', hE', hl'⟩ := h' o p1 hE1
  exact ⟨p', hE', hl'.trans hl1⟩

theorem Spared.unforged (h0 : EntryInv kv0 A E0) (hr : RoundInv kv0 E0 A kv E)
    (hsp : Spared kv0 kv.logHead op) : Unforged kv0 kv op := by
  intro _ hhit
  obtain ⟨ptr, hptr, _⟩ := not_missed_iff.mp hhit
  obtain ⟨o, hs, hlive, _⟩ := h0.lookup_iff.mp hptr
  exact .inl ⟨o, hs, by rw [hr.cap]; exact hsp o hs hlive⟩

/-- The store after a round, with the PUT it may have been. -/
theorem InBatch.round (h0 : EntryInv kv0 A E0) (h : InBatch kv0 E0 A kv E puts)
    (ha : op.opcode ≠ opGet → A op) (hsp : Spared kv0 kv.logHead op) {resp : MicaResp}
    (hp : processOp kv op (lookup kv0 op.key) = .ok (kv', resp)) :
    ∃ E', InBatch kv0 E0 A kv' E' (if op.opcode = opGet then puts else op :: puts) ∧
      SameLen E E' := by
  obtain ⟨E', hinv, hc⟩ := h.inv.round h0 ha (hsp.unforged h0 h.inv) hp
  have halone : ∀ key, NoSecond kv0 key kv' E' := fun key => (h.alone key).round h0 h.inv hc
  refine ⟨E', ⟨hinv, halone, ?_⟩, ?_⟩
  · cases hc with
    | read hget hsame _ he =>
      rw [if_pos hget, he]
      exact h.current.same hsame
    | update x q hput _ hx hxk _ hlive hl hkv he =>
      rw [if_neg hput, hkv, he]
      exact h.current.update h0 h.inv (h.alone op.key) hx hxk hlive hl hsp
    | insert hput hmiss hi he =>
      rw [if_neg hput, he]
      exact h.current.insert h0 h.inv hmiss hi hsp
  · intro o p hE
    cases hc with
    | read _ _ _ he => exact ⟨p, by rw [he, hE], rfl⟩
    | update x q _ _ hx _ hlen _ _ _ he =>
      by_cases ho : o = x
      · rw [ho, hx, Option.some.injEq] at hE
        exact ⟨op, by rw [he, ho, Function.update_self], by rw [hlen, hE]⟩
      · exact ⟨p, by rw [he, Function.update_of_ne ho, hE], rfl⟩
    | insert _ _ _ he =>
      have hlt := h.inv.entries.layout.lt_head hE
      exact ⟨p, by rw [he, Function.update_of_ne (by omega), hE], rfl⟩

/-- The head does not go back. -/
theorem finishBatch_head_le (hlog : LogInv kv) (hp : finishBatch kv0 kv ops = .ok (kv', resps)) :
    kv.logHead ≤ kv'.logHead := by
  have hend : LogInv kv' ∧ kv.logHead ≤ kv'.logHead := by
    refine finishBatch_rule (P := fun kv1 => LogInv kv1 ∧ kv.logHead ≤ kv1.logHead)
      (C := fun _ _ => True) ?_ ⟨hlog, Nat.le_refl _⟩ (fun _ _ => trivial) hp
    rintro kv1 op kv2 resp ⟨hlog1, hle⟩ - hp1
    rcases processOp_effect hp1 with ⟨_, hsame, _⟩ | ⟨_, _, ptr, _, _, rfl⟩ | ⟨_, _, hi⟩
    · exact ⟨hlog1.same hsame, hsame.logHead ▸ hle⟩
    · exact ⟨hlog1.same updated_same, hle⟩
    · have hpast := insertOne_past hlog1 hi
      exact ⟨insertOne_logInv hlog1 hi, by omega⟩
  exact hend.2

/-- The value of a GET, read at the end of the batch. -/
theorem InBatch.answered (h0 : EntryInv kv0 A E0) (h : InBatch kv0 E0 A kv E puts)
    (hget : op.opcode = opGet) (hsp : Spared kv0 kv.logHead op) {kv1 : MicaKv} {resp : MicaResp}
    (hp : processOp kv op (lookup kv0 op.key) = .ok (kv1, resp)) {puts' : List MicaOp}
    (h' : InBatch kv0 E0 A kv' E' puts') (hlen : SameLen E E') (hsp' : Spared kv0 kv'.logHead op) :
    Answered puts' kv' op resp := by
  unfold Answered
  rw [if_pos hget]
  rcases processOp_cases hp with ⟨_, ptr, hl, hkey, _, hresp⟩ | ⟨_, _, _, hresp⟩ | ⟨hput, _⟩ |
    ⟨hput, _⟩
  · obtain ⟨o, hs, hlive, rfl⟩ := h0.lookup_iff.mp hl
    obtain ⟨p0, hE0⟩ := h0.slot_entry hs
    obtain ⟨p, hE, hk0⟩ := h.inv.kept o p0 hE0
    have hnow := hsp o hs hlive
    rw [← h.inv.cap] at hnow hkey hresp
    have hk := (h.inv.entries.keyAt_iff hE hnow).mp hkey
    have hst := h.inv.entries.stored o p hE hnow
    -- the entry at the end
    obtain ⟨p', hE', hl'⟩ := hlen o p hE
    obtain ⟨p'', hE'', hk'⟩ := h'.inv.kept o p0 hE0
    obtain rfl : p'' = p' := Option.some.inj (hE''.symm.trans hE')
    have hthen := hsp' o hs hlive
    rw [← h'.inv.cap] at hthen
    have hst' := h'.inv.entries.stored o p'' hE' hthen
    refine .inr ⟨p'', _, h'.current.found op.key o p'' hs hlive hE'
      (hk'.trans (hk0.symm.trans hk)), ?_, hst'.value⟩
    rw [hresp, hst.valLen, hl', h.inv.cap, h'.inv.cap]
  · exact .inl hresp
  · exact absurd hget hput
  · exact absurd hget hput

/-- From some round of a batch to its end. -/
theorem InBatch.finish (h0 : EntryInv kv0 A E0) (h : InBatch kv0 E0 A kv E puts)
    (ha : ∀ op ∈ ops, op.opcode ≠ opGet → A op) (hsp : ∀ op ∈ ops, Spared kv0 kv'.logHead op)
    (hp : finishBatch kv0 kv ops = .ok (kv', resps)) :
    ∃ E', InBatch kv0 E0 A kv' E' (record puts ops) ∧ SameLen E E' ∧
      List.Forall₂ (Answered (record puts ops) kv') ops resps := by
  induction ops generalizing kv E puts resps with
  | nil =>
    cases hp
    exact ⟨E, h, fun o p hE => ⟨p, hE, rfl⟩, .nil⟩
  | cons op ops ih =>
    have hle := finishBatch_head_le h.inv.entries.log hp
    obtain ⟨kv1, resp, resps1, h1, h2, rfl, _⟩ := finishBatch_cons hp
    have hop := hsp op List.mem_cons_self
    have hnow : Spared kv0 kv.logHead op :=
      fun o hs hlive => Nat.le_trans hle (hop o hs hlive)
    obtain ⟨E1, hround, hlen1⟩ := h.round h0 (ha op List.mem_cons_self) hnow h1
    obtain ⟨E', hend, hlen, hall⟩ := ih hround (fun op' hm => ha op' (List.mem_cons_of_mem _ hm))
      (fun op' hm => hsp op' (List.mem_cons_of_mem _ hm)) h2
    refine ⟨E', hend, hlen1.trans hlen, .cons ?_ hall⟩
    by_cases hget : op.opcode = opGet
    · exact h.answered h0 hget hnow h1 hend (hlen1.trans hlen) hop
    · unfold Answered
      rw [if_neg hget]
      rcases processOp_cases h1 with ⟨hg, _⟩ | ⟨hg, _⟩ | ⟨_, _, _, _, _, _, hresp⟩ |
        ⟨_, _, _, hresp⟩
      · exact absurd hg hget
      · exact absurd hg hget
      · exact hresp
      · exact hresp

/-- A whole batch. -/
theorem batch_current (h0 : EntryInv kv A E) (h : Current kv kv E puts)
    (ha : ∀ op ∈ ops, op.opcode ≠ opGet → A op) (hsp : ∀ op ∈ ops, Spared kv kv'.logHead op)
    (hp : micaBatchOp kv ops = .ok (kv', resps)) :
    ∃ E', EntryInv kv' A E' ∧ Current kv' kv' E' (record puts ops) ∧
      List.Forall₂ (Answered (record puts ops) kv') ops resps := by
  obtain ⟨E', hend, _, hall⟩ :=
    InBatch.finish h0 ⟨h0.roundInv, fun _ => noSecond_start, h⟩ ha hsp hp
  exact ⟨E', hend.inv.entries, hend.current.start, hall⟩

/-! ## Runs -/

/-- The PUTs after a call. -/
def recordCall (puts : List MicaOp) : Call → List MicaOp
  | .insertOne op => op :: puts
  | .batchOp ops => record puts ops

/-- No batch runs over an entry that it has found. -/
def SparedCall (kv : MicaKv) (head : Nat) : Call → Prop
  | .insertOne _ => True
  | .batchOp ops => ∀ op ∈ ops, Spared kv head op

/-- Runs of batches of any sizes, in which no log entry straddles the physical end of
the log and no batch runs over an entry that it has found. -/
def spared : System History Call where
  init s := (storesWhere Fits).init s.kv ∧ s.puts = []
  step s call s' := (storesWhere Fits).step s.kv call s'.kv ∧
    SparedCall s.kv s'.kv.logHead call ∧ s'.puts = recordCall s.puts call

theorem current_insert (h : EntryInv kv A E) (hc : Current kv kv E puts)
    (hi : micaInsertOne kv op = .ok kv') :
    Current kv' kv' (Function.update E kv.logHead (some op)) (op :: puts) :=
  ⟨fun _ _ _ hs hlive hE hk => Current.insert_slot h hc.slot hi hs hlive hE hk,
    fun _ _ _ hs hlive hE hk => Current.insert_slot h hc.slot hi hs hlive hE hk⟩

theorem spared_current {s : History} (h : Reachable spared s) :
    ∃ E, EntryInv s.kv (fun _ => True) E ∧ Current s.kv s.kv E s.puts := by
  refine h.invariant (P := fun s => ∃ E, EntryInv s.kv (fun _ => True) E ∧
    Current s.kv s.kv E s.puts) ?_ ?_
  · rintro s ⟨⟨_, _, _, _, _, h0⟩, _⟩
    refine ⟨_, init_entries h0, ⟨?_, ?_⟩⟩
    · intro key o p _ _ hE
      cases hE
    · intro key o p _ _ hE
      cases hE
  · rintro s call s' - ⟨E, hinv, hcur⟩ ⟨⟨_, _, resps, hp⟩, hsp, hputs⟩
    rw [hputs]
    cases call with
    | insertOne op =>
      obtain ⟨kv1, hi, hp⟩ := bind_ok hp
      cases hp
      exact ⟨_, hinv.insert trivial hi, current_insert hinv hcur hi⟩
    | batchOp ops =>
      obtain ⟨E', hinv', hcur', _⟩ :=
        batch_current hinv hcur (fun _ _ _ => trivial) hsp hp
      exact ⟨E', hinv', hcur'⟩

/-- In every such run, a batch of any size answers its GETs as a map does after all
PUTs of the batch, except that a GET may find nothing. -/
theorem batch_linearizes {s : History} (h : Reachable spared s)
    (hp : micaBatchOp s.kv ops = .ok (kv', resps)) (hsp : ∀ op ∈ ops, Spared s.kv kv'.logHead op) :
    List.Forall₂ (Answered (record s.puts ops) kv') ops resps := by
  obtain ⟨E, hinv, hcur⟩ := spared_current h
  obtain ⟨_, _, _, hall⟩ := batch_current hinv hcur (fun _ _ _ => trivial) hsp hp
  exact hall

/-- An insertion, and a batch in which the GET comes before a PUT of its key. -/
theorem get_before_put : ∃ kv1 kv2 resps, Reachable spared ⟨kv1, [zeros 6]⟩ ∧
    micaBatchOp kv1 [fetch, ones] = .ok (kv2, resps) ∧
    resps = [⟨.getSuccess, 6, some 18⟩, ⟨.putSuccess, 0, none⟩] ∧
    ∀ op ∈ [fetch, ones], Spared kv1 kv2.logHead op := by
  have hrun : (do
      let kv0 ← micaInit (fun _ _ => ⟨false, 0, 0⟩) (fun _ => 0) 0 1 2097152
      let kv1 ← micaInsertOne kv0 (zeros 6)
      let r ← micaBatchOp kv1 [fetch, ones]
      return (r.2, decide (∀ op ∈ [fetch, ones], Spared kv1 r.1.logHead op)) :
      Except Assert (List MicaResp × Bool)) =
      .ok ([⟨.getSuccess, 6, some 18⟩, ⟨.putSuccess, 0, none⟩], true) := by
    decide +kernel
  obtain ⟨kv0, h0, hrun⟩ := bind_ok hrun
  obtain ⟨kv1, h1, hrun⟩ := bind_ok hrun
  obtain ⟨⟨kv2, resps⟩, h2, hrun⟩ := bind_ok hrun
  obtain ⟨hresps, hsp⟩ := Prod.mk.inj (Except.ok.inj hrun)
  refine ⟨kv1, kv2, resps, ?_, h2, hresps, of_decide_eq_true hsp⟩
  refine .step (s := ⟨kv0, []⟩) (e := .insertOne (zeros 6)) (.init ⟨⟨_, _, _, _, _, h0⟩, rfl⟩)
    ⟨⟨(by decide : ValidPut (zeros 6)), ?_, [], perform_insertOne h1⟩, trivial, rfl⟩
  intro q hq
  rw [List.mem_singleton.mp hq, ← Except.ok.inj h0]
  decide

theorem batch_linearizes_get : ∃ kv1 kv2 resps,
    micaBatchOp kv1 [fetch, ones] = .ok (kv2, resps) ∧
    List.Forall₂ (Answered [ones, zeros 6] kv2) [fetch, ones] resps := by
  obtain ⟨kv1, kv2, resps, hr, hp, -, hsp⟩ := get_before_put
  exact ⟨kv1, kv2, resps, hp, batch_linearizes hr hp hsp⟩

end RdmaBench.Mica.Linear
