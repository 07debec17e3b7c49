import RdmaBench.Mica.Batch

/-! # What a GET in a batch returns

The answer to a GET is a pointer into the log, which the caller reads when the
whole batch is processed. Until then later PUTs of the batch may be inserted,
and they may be copied over the value: whether the head can reach it is checked
before the batch, not for its later insertions. -/

namespace RdmaBench.Mica.Answers
open RdmaBench.Lib.Asserts RdmaBench.Lib.Bits RdmaBench.Lib.ByteMem RdmaBench.Lib.Circular
open RdmaBench.Lib.Runs
open RdmaBench.Mica.Model RdmaBench.Mica.Log RdmaBench.Mica.Bucket RdmaBench.Mica.Store
open RdmaBench.Mica.Entries RdmaBench.Mica.Batch

variable {kv kv' kv0 : MicaKv} {op p : MicaOp} {key : MicaKey} {A : MicaOp → Prop}
  {E E' E0 : Nat → Option MicaOp} {o ptr : Nat} {len : UInt8}

/-- The bytes of an answer are a value that a PUT of the key wrote, before the
batch or in it. -/
def Genuine (puts ops : List MicaOp) (kv : MicaKv) (key : MicaKey) (len : UInt8) (ptr : Nat) :
    Prop :=
  ∃ p, Written puts ops p ∧ p.key = key ∧ p.valLen = len ∧
    ∀ i < len.toNat, kv.htLog (ptr + i) = p.value i

/-- The operation is not inserted over the bytes of an answer. -/
def Spares (kv0 : MicaKv) (ptr : Nat) (len : UInt8) (kv : MicaKv) (op : MicaOp) : Prop :=
  op.opcode ≠ opGet → Missed kv op.key (lookup kv0 op.key) →
    (kv.logHead &&& kv.logMask) + lenToCopy op ≤ ptr ∨
      ptr + len.toNat ≤ (kv.logHead &&& kv.logMask)

instance (kv0 : MicaKv) (ptr : Nat) (len : UInt8) (kv : MicaKv) (op : MicaOp) :
    Decidable (Spares kv0 ptr len kv op) :=
  inferInstanceAs (Decidable (_ → _ → (_ ∨ _)))

/-! ## A value and the entries around it -/

/-- The value of the entry at `o` is in the log from `ptr` on, and no other entry
that can still be written reaches into it. -/
structure Holds (o ptr : Nat) (key : MicaKey) (len : UInt8) (kv : MicaKv)
    (E : Nat → Option MicaOp) : Prop where
  entry : ∃ p, E o = some p ∧ p.key = key ∧ p.valLen = len ∧
    ∀ i < len.toNat, kv.htLog (ptr + i) = p.value i
  place : o % kv.logCap + 18 = ptr
  alone : ∀ o' p', E o' = some p' → o' ≠ o → kv.logHead ≤ o' + kv.logCap →
    o' % kv.logCap + lenToCopy p' ≤ ptr ∨ ptr + len.toNat ≤ o' % kv.logCap

/-- An entry that is not overrun holds its value. -/
theorem holds_start (h : EntryInv kv A E) (hE : E o = some p)
    (hlive : kv.logHead ≤ o + kv.logCap) :
    Holds o (o % kv.logCap + 18) p.key p.valLen kv E := by
  refine ⟨⟨p, hE, rfl, rfl, (h.stored o p hE hlive).value⟩, rfl, ?_⟩
  intro o' p' hE' hne hlive'
  have hap := h.layout.cells_apart h.cap_pos hE' hE hne hlive' hlive
  have hlen : lenToCopy p = 18 + p.valLen.toNat := rfl
  exact hap.imp (fun hle => by omega) (fun hle => by omega)

/-- It holds one until an insertion is copied over it: updates of other entries
stay inside them, and an update of its own entry is a PUT of the key. -/
theorem Holds.round (h : RoundInv kv0 E0 A kv E) (hh : Holds o ptr key len kv E)
    (hsp : Spares kv0 ptr len kv op) (hc : Change kv0 kv kv' op E E') :
    Holds o ptr key len kv' E' := by
  obtain ⟨⟨p, hE, hk, hl, hval⟩, hplace, halone⟩ := hh
  cases hc with
  | read _ hsame hlog he =>
    subst he
    refine ⟨⟨p, hE, hk, hl, by rwa [hlog]⟩, by rwa [hsame.logCap], ?_⟩
    rw [hsame.logHead, hsame.logCap]
    exact halone
  | update x q _ _ hx hxk hlen hlive _ hkv he =>
    subst hkv he
    have hcopy : lenToCopy op = lenToCopy q := by rw [lenToCopy, lenToCopy, hlen]
    refine ⟨?_, hplace, ?_⟩
    · by_cases hox : x = o
      · subst hox
        obtain rfl : q = p := Option.some.inj (hx.symm.trans hE)
        refine ⟨op, Function.update_self .., hxk.symm.trans hk, hlen.trans hl, ?_⟩
        intro i hi
        rw [← hplace]
        exact memcpy_inside (by rwa [hlen, hl])
      · refine ⟨p, by rw [Function.update_of_ne (Ne.symm hox), hE], hk, hl, ?_⟩
        intro i hi
        rw [← hval i hi]
        have hq : lenToCopy q = 18 + op.valLen.toNat := hcopy.symm
        have hap : ptr + len.toNat ≤ x % kv.logCap + 18 ∨
            x % kv.logCap + 18 + op.valLen.toNat ≤ ptr := by
          rcases halone x q hx hox hlive with hle | hle
          · exact .inr (by omega)
          · exact .inl (by omega)
        exact memcpy_agree hap (ptr + i) (by omega) (by omega)
    · intro o' p' hE' hne hlive'
      by_cases hx' : o' = x
      · subst hx'
        rw [Function.update_self, Option.some.injEq] at hE'
        rw [← hE', hcopy]
        exact halone o' q hx hne hlive'
      · rw [Function.update_of_ne hx'] at hE'
        exact halone o' p' hE' hne hlive'
  | insert hput hmiss hi he =>
    subst he
    obtain ⟨_, _, hlog, _, hcap, _, _⟩ := insertOne_ok hi
    have hpast := insertOne_past h.entries.log hi
    have hlt := h.entries.layout.lt_head hE
    have hap := hsp hput hmiss
    refine ⟨⟨p, by rw [Function.update_of_ne (by omega), hE], hk, hl, ?_⟩, by rwa [hcap], ?_⟩
    · intro i hi'
      rw [← hval i hi', hlog]
      exact memcpy_agree hap.symm (ptr + i) (by omega) (by omega)
    · intro o' p' hE' hne hlive'
      rw [hcap] at hlive' ⊢
      by_cases ho' : o' = kv.logHead
      · subst ho'
        rw [Function.update_self, Option.some.injEq] at hE'
        rw [← hE', ← h.entries.log.and_mask]
        exact hap
      · rw [Function.update_of_ne ho'] at hE'
        exact halone o' p' hE' hne (by omega)

theorem rounds_hold (h0 : EntryInv kv0 A E0) (h : RoundInv kv0 E0 A kv E)
    (hh : Holds o ptr key len kv E) {ops : List MicaOp} {resps : List MicaResp}
    (ha : ∀ op ∈ ops, op.opcode ≠ opGet → A op)
    (hun : ∀ r ∈ rounds kv0 kv ops, Unforged kv0 r.1 r.2)
    (hsp : ∀ r ∈ rounds kv0 kv ops, Spares kv0 ptr len r.1 r.2)
    (hp : finishBatch kv0 kv ops = .ok (kv', resps)) :
    ∃ E', RoundInv kv0 E0 A kv' E' ∧ Holds o ptr key len kv' E' := by
  exact rounds_rule h0 (fun _ _ _ _ _ h hh hsp hc => Holds.round h hh hsp hc) h hh ha hun hsp hp

/-! ## Answers -/

/-- In every run in which keys are compared with entries only, the answer to a GET
is genuine when the caller reads it, if no later insertion of its batch is
copied over it. -/
theorem answer_genuine {s : History} (h : Reachable unforged s) {ops : List MicaOp}
    {resps : List MicaResp} (hrun : micaBatchOp s.kv ops = .ok (kv', resps))
    (hun : ∀ r ∈ rounds s.kv s.kv ops, Unforged s.kv r.1 r.2)
    {pre post : List (MicaKv × MicaOp)} {kv1 : MicaKv}
    (hr : rounds s.kv s.kv ops = pre ++ (kv1, op) :: post) (hget : op.opcode = opGet)
    (hresp : resps[pre.length]? = some ⟨.getSuccess, len, some ptr⟩)
    (hint : Intact s.kv kv1 op.key) (hsp : ∀ r ∈ post, Spares s.kv ptr len r.1 r.2) :
    Genuine s.puts ops kv' op.key len ptr := by
  obtain ⟨E0, hinv⟩ := unforged_entries h
  have h0 : EntryInv s.kv (Written s.puts ops) E0 := hinv.mono fun p => .inl
  obtain ⟨kv2, resp, before, after, hat, hops, hpre, ⟨resps1, hfirst⟩, hround, hpost,
    ⟨resps2, hlast⟩⟩ := split_at hrun hr
  have ha : ∀ op ∈ ops, op.opcode ≠ opGet → Written s.puts ops op :=
    fun op hm hp => .inr ⟨hm, hp⟩
  subst hpre hpost
  rw [hr] at hun
  obtain ⟨E1, h1⟩ := rounds_entries h0 h0.roundInv (fun op hm => ha op (by simp [hops, hm]))
    (fun r hm => hun r (by simp [hm])) hfirst
  obtain rfl : resp = ⟨.getSuccess, len, some ptr⟩ := Option.some.inj (hat.symm.trans hresp)
  -- the round found the key in an entry and answered with its value
  rcases processOp_cases hround with ⟨_, a, hl, hkey, hkv, hr'⟩ | ⟨_, _, _, hr'⟩ | ⟨hput, _⟩ |
    ⟨hput, _⟩
  · have hhit := not_missed_iff.mpr ⟨a, hl, hkey⟩
    obtain ⟨o, p, hE, hk, hlive, ho⟩ := h1.hit h0 hhit hint
    obtain rfl : o % kv1.logCap = a := Option.some.inj (ho.symm.trans hl)
    have hst := h1.entries.stored o p hE hlive
    rw [hst.valLen, MicaResp.mk.injEq] at hr'
    obtain ⟨-, rfl, hptr⟩ := hr'
    cases hptr
    have hstart := holds_start h1.entries hE hlive
    rw [hk] at hstart
    obtain ⟨E2, h2, hc⟩ := h1.round h0 (ha op (by simp [hops])) (hun (kv1, op) (by simp)) hround
    have hh2 := hstart.round h1 (fun hput => absurd hget hput) hc
    obtain ⟨E', h', ⟨p', hE', hk', hl', hval⟩, _, _⟩ := rounds_hold h0 h2 hh2
      (fun op hm => ha op (by simp [hops, hm])) (fun r hm => hun r (by simp [hm])) hsp hlast
    exact ⟨p', h'.entries.put o p' hE', hk', hl', hval⟩
  · cases hr'
  · exact absurd hget hput
  · exact absurd hget hput

/-- A batch with a GET of a key of the store, and a PUT that is inserted behind the
entry. -/
theorem answer_genuine_inserted : ∃ (s : History) (kv1 kv' : MicaKv), Reachable unforged s ∧
    micaBatchOp s.kv [fetch, closing] =
      .ok (kv', [⟨.getSuccess, 6, some 18⟩, ⟨.putSuccess, 0, none⟩]) ∧
    rounds s.kv s.kv [fetch, closing] = [(s.kv, fetch), (kv1, closing)] ∧
    kv1.logHead < kv'.logHead ∧ Genuine s.puts [fetch, closing] kv' fetch.key 6 18 := by
  have hrun : (do
      let kv ← firstStore
      let a ← processOp kv fetch (lookup kv fetch.key)
      let b ← processOp a.1 closing (lookup kv closing.key)
      return ([a.2, b.2], decide ((∀ r ∈ [(kv, fetch), (a.1, closing)], Unforged kv r.1 r.2) ∧
        a.1.logHead < b.1.logHead ∧ Spares kv 18 6 a.1 closing)) :
      Except Assert (List MicaResp × Bool)) =
      .ok ([⟨.getSuccess, 6, some 18⟩, ⟨.putSuccess, 0, none⟩], true) := by
    decide +kernel
  obtain ⟨kv, h1, hrun⟩ := bind_ok hrun
  obtain ⟨⟨kv1, respA⟩, hA, hrun⟩ := bind_ok hrun
  obtain ⟨⟨kv', respB⟩, hB, hrun⟩ := bind_ok hrun
  obtain ⟨hresps, hrun⟩ := Prod.mk.inj (Except.ok.inj hrun)
  obtain ⟨hun, hafter, hspares⟩ := of_decide_eq_true hrun
  have hbatch : micaBatchOp kv [fetch, closing] = .ok (kv', [respA, respB]) := by
    simp [micaBatchOp, processAll, hA, hB, bind, Except.bind, pure, Except.pure]
  have hrounds : rounds kv kv [fetch, closing] = [] ++ (kv, fetch) :: [(kv1, closing)] := by
    simp [rounds, hA, hB]
  rw [hresps] at hbatch
  have hr := firstStore_reachable h1
  exact ⟨_, kv1, kv', hr, hbatch, hrounds, hafter, answer_genuine hr hbatch
    (by rw [hrounds]; exact hun) hrounds rfl rfl (.inr rfl)
    (List.forall_mem_singleton.mpr hspares)⟩

/-! ## An answer that is overwritten -/

/-- An index with the slots of `zeros 6` and `filler`. -/
def twoSlots (off : Nat) : Nat → MicaBkt :=
  update2 (update2 (fun _ _ => ⟨false, 0, 0⟩) 0 ⟨7, by omega⟩ ⟨true, 0, 0⟩) 0 ⟨6, by omega⟩
    ⟨true, 1, off⟩

theorem twoSlots_update (off off' : Nat) :
    update2 (twoSlots off) 0 ⟨6, by omega⟩ ⟨true, 1, off'⟩ = twoSlots off' := by
  simp [twoSlots, update2]

/-- A 2 MB store with `zeros 6` at its start and copies of `filler` behind it. -/
structure Filled (n : Nat) (s : History) : Prop where
  run : Reachable unforged s
  entry : ∃ E, EntryInv s.kv (· ∈ s.puts) E ∧ E 0 = some (zeros 6)
  puts : ∀ p ∈ s.puts, p = zeros 6 ∨ p = filler
  index : ∃ off, s.kv.htIndex = twoSlots off
  mask : s.kv.bktMask = 0
  cap : s.kv.logCap = 2097152
  head : s.kv.logHead = 24 * n

/-- Two insertions into a fresh store. -/
theorem filled_two : ∃ s, Filled 2 s := by
  obtain ⟨kv0, kv1, kv2, h0, h1, h2, hfree, hmask, hcap, hhead0, hhead1, hhead⟩ :
      ∃ kv0 kv1 kv2 : MicaKv,
        micaInit (fun _ _ => ⟨false, 0, 0⟩) (fun _ => 0) 0 1 2097152 = .ok kv0 ∧
        micaInsertOne kv0 (zeros 6) = .ok kv1 ∧ micaInsertOne kv1 filler = .ok kv2 ∧
        kv0.htIndex = (fun _ _ => ⟨false, 0, 0⟩) ∧ kv2.bktMask = 0 ∧ kv2.logCap = 2097152 ∧
        kv0.logHead = 0 ∧ kv1.logHead = 24 ∧ kv2.logHead = 24 * 2 :=
    ⟨_, _, _, rfl, rfl, rfl, rfl, rfl, rfl, rfl, by decide, by decide⟩
  have hr0 : Reachable unforged ⟨kv0, []⟩ := .init ⟨⟨_, _, _, _, _, h0⟩, rfl⟩
  have hr2 := insertOne_unforged (insertOne_unforged hr0 h1) h2
  have he0 : EntryInv kv0 (· ∈ [filler, zeros 6]) fun _ => none := init_entries h0
  have he1 := he0.insert (by simp) h1
  have he2 := he1.insert (by simp) h2
  refine ⟨_, hr2, ⟨_, he2, ?_⟩, by simp, ⟨24, ?_⟩, hmask, hcap, hhead⟩
  · rw [Function.update_of_ne (by omega), hhead0, Function.update_self]
  · have hb0 : kv0.bktOf (zeros 6).key = 0 := Nat.zero_and _
    have hb1 : kv1.bktOf filler.key = 0 := Nat.zero_and _
    have hidx1 : kv1.htIndex = update2 (fun _ _ => ⟨false, 0, 0⟩) 0 7 ⟨true, 0, 0⟩ := by
      rw [insertOne_index he0.log h1, hb0, hfree, hhead0]
      rfl
    rw [insertOne_index he1.log h2, hb1, hidx1, hhead1]
    rfl

/-- One more insertion on the first lap. -/
theorem Filled.insert {n : Nat} {s : History} (h : Filled n s) (hn : 0 < n) (hlt : n < 87378) :
    ∃ s', Filled (n + 1) s' := by
  obtain ⟨hrun, ⟨E, hE, hE0⟩, hputs, ⟨off, hidx⟩, hmask, hcap, hhead⟩ := h
  have hlen : lenToCopy filler = 24 := by decide
  have hpad : padded filler = 24 := by decide
  obtain ⟨kv', hi⟩ : ∃ kv', micaInsertOne s.kv filler = .ok kv' :=
    insertOne_exists hE.log (by omega)
  obtain ⟨_, _, _, _, hcap', _, hmask'⟩ := insertOne_ok hi
  have hE' : EntryInv kv' (· ∈ filler :: s.puts) (Function.update E s.kv.logHead (some filler)) :=
    (hE.mono fun p hm => List.mem_cons_of_mem _ hm).insert List.mem_cons_self hi
  refine ⟨_, insertOne_unforged hrun hi, ⟨_, hE', ?_⟩, ?_, ⟨s.kv.logHead, ?_⟩, hmask'.trans hmask,
    hcap'.trans hcap, ?_⟩
  · rw [Function.update_of_ne (by omega), hE0]
  · intro p hm
    rcases List.mem_cons.mp hm with rfl | hm
    · exact .inr rfl
    · exact hputs p hm
  · have hb : s.kv.bktOf filler.key = 0 := Nat.zero_and _
    rw [insertOne_index hE.log hi, hb, hidx]
    exact twoSlots_update off _
  · rcases insertOne_moves hE.log hi with ⟨_, hh⟩ | ⟨_, _, _⟩ | ⟨_, _⟩ | ⟨_, _⟩
    · show kv'.logHead = _
      omega
    · omega
    · omega
    · omega

theorem filled (n : Nat) (hn : 2 ≤ n) (hle : n ≤ 87378) : ∃ s, Filled n s := by
  induction n, hn using Nat.le_induction with
  | base => exact filled_two
  | succ n hn ih =>
    obtain ⟨s, hs⟩ := ih (by omega)
    exact hs.insert (by omega) (by omega)

/-- The lookups of the three operations: only the GET finds a slot. -/
theorem Filled.lookups {n : Nat} {s : History} (h : Filled n s) (hle : n ≤ 87378) :
    lookup s.kv fetch.key = some 0 ∧ lookup s.kv closing.key = none ∧
      lookup s.kv covering.key = none := by
  obtain ⟨_, ⟨E, hE, _⟩, _, ⟨off, hidx⟩, _, hcap, hhead⟩ := h
  have hb : ∀ key : MicaKey, key.bkt = 0 → s.kv.bktOf key = 0 := by
    intro key hk
    rw [MicaKv.bktOf, hk]
    exact Nat.zero_and _
  refine ⟨hE.lookup_iff.mpr ⟨0, ?_, by omega, Nat.zero_mod _⟩, ?_, ?_⟩
  · rw [slotOffset, hb _ rfl, hidx]
    rfl
  · rw [lookup, hb _ rfl, hidx]
    rfl
  · rw [lookup, hb _ rfl, hidx]
    rfl

/-- The GET finds the value at the start of the log. -/
theorem Filled.fetched {n : Nat} {s : History} (h : Filled n s) (hle : n ≤ 87378) : ∃ kv,
    processOp s.kv fetch (some 0) = .ok (kv, ⟨.getSuccess, 6, some 18⟩) ∧ SameIndex s.kv kv := by
  obtain ⟨_, ⟨E, hE, hE0⟩, _, _, _, hcap, hhead⟩ := h
  have hlive : s.kv.logHead ≤ 0 + s.kv.logCap := by omega
  have hst := hE.stored 0 _ hE0 hlive
  have hkey : keyAt s.kv fetch.key (0 % s.kv.logCap) = true := (hE.keyAt_iff hE0 hlive).mpr rfl
  rw [Nat.zero_mod] at hst hkey
  refine ⟨{ s.kv with numGetOp := s.kv.numGetOp + 1 }, ?_, ⟨rfl, rfl, rfl, rfl, rfl⟩⟩
  have hlen : s.kv.htLog 17 = 6 := hst.valLen
  have hget : fetch.opcode = opGet := rfl
  simp [processOp, Option.filter, hkey, hlen, hget, pure, Except.pure]

/-- Two more insertions: the first takes the head to the second lap, and the second
is copied to the start of the log. -/
theorem insert_over_start {kv : MicaKv} (h : LogInv kv) (hcap : kv.logCap = 2097152)
    (hhead : kv.logHead = 24 * 87378) : ∃ kv1 kv2, micaInsertOne kv closing = .ok kv1 ∧
      micaInsertOne kv1 covering = .ok kv2 ∧ kv2.htLog 18 = 1 := by
  have hlen1 : lenToCopy closing = 24 := by decide
  have hpad1 : padded closing = 24 := by decide
  obtain ⟨kv1, h1⟩ : ∃ kv1, micaInsertOne kv closing = .ok kv1 := insertOne_exists h (by omega)
  obtain ⟨_, _, _, _, hcap1, _, _⟩ := insertOne_ok h1
  have hlog1 := insertOne_logInv h h1
  have hhead1 : kv1.logHead = kv1.logCap := by
    rcases insertOne_moves h h1 with ⟨_, _⟩ | ⟨_, _, hh⟩ | ⟨_, _⟩ | ⟨_, _⟩
    · omega
    · rw [hh, hcap1]
    · omega
    · omega
  have hlen2 : lenToCopy covering = 24 := by decide
  obtain ⟨kv2, h2⟩ : ∃ kv2, micaInsertOne kv1 covering = .ok kv2 :=
    insertOne_exists hlog1 (by omega)
  obtain ⟨_, _, hlog2, _⟩ := insertOne_ok h2
  refine ⟨kv1, kv2, h1, h2, ?_⟩
  rw [hlog2, hlog1.and_mask, hhead1, Nat.mod_self, hlen2]
  rfl

/-- The round of a PUT whose lookup found no slot. -/
theorem processOp_insert {kv kv' : MicaKv} {op : MicaOp} (hput : op.opcode ≠ opGet)
    (hi : micaInsertOne kv op = .ok kv') :
    processOp kv op none = .ok (kv', ⟨.putSuccess, 0, none⟩) := by
  simp [processOp, Option.filter, hput, hi, bind, Except.bind, pure, Except.pure]

/-- A GET, a PUT that fills the first lap, and a PUT that is copied to the start
of the log, where the GET has found its value. -/
theorem answer_overwritten :
    ¬ ∀ (s : History) (ops : List MicaOp) (kv' : MicaKv) (resps : List MicaResp) (I : Nat)
        (op : MicaOp) (len : UInt8) (ptr : Nat),
      Reachable batches s → ValidCall (.batchOp ops) → micaBatchOp s.kv ops = .ok (kv', resps) →
      ops[I]? = some op → op.opcode = opGet →
      resps[I]? = some ⟨.getSuccess, len, some ptr⟩ →
      Genuine s.puts ops kv' op.key len ptr := by
  intro hall
  obtain ⟨s, hs⟩ := filled 87378 (by decide) (Nat.le_refl _)
  obtain ⟨hA, hC, hD⟩ := hs.lookups (Nat.le_refl _)
  obtain ⟨kvA, hroundA, hsame⟩ := hs.fetched (Nat.le_refl _)
  obtain ⟨hrun, ⟨E, hE, _⟩, hputs, _, _, hcap, hhead⟩ := hs
  obtain ⟨kvC, kvD, hiC, hiD, hbyte⟩ := insert_over_start (hE.log.same hsame)
    (hsame.logCap.trans hcap) (hsame.logHead.trans hhead)
  have hroundC := processOp_insert (by decide) hiC
  have hroundD := processOp_insert (by decide) hiD
  have hbatch : micaBatchOp s.kv [fetch, closing, covering] =
      .ok (kvD, [⟨.getSuccess, 6, some 18⟩, ⟨.putSuccess, 0, none⟩, ⟨.putSuccess, 0, none⟩]) := by
    simp [micaBatchOp, processAll, hA, hC, hD, hroundA, hroundC, hroundD, bind, Except.bind, pure,
      Except.pure]
  have hvalid : ValidCall (.batchOp [fetch, closing, covering]) := by
    refine ⟨by decide, ?_⟩
    intro op hm _
    simp only [List.mem_cons, List.not_mem_nil, or_false] at hm
    rcases hm with rfl | rfl | rfl
    · decide
    · decide
    · decide
  obtain ⟨p, hw, hk, _, hval⟩ :=
    hall s _ kvD _ 0 fetch 6 18 (unforged_batches hrun) hvalid hbatch rfl rfl rfl
  have hone : p.value 0 = 1 := (hval 0 (by decide)).symm.trans hbyte
  -- only `zeros 6` was ever put under the key
  have hzero : p = zeros 6 := by
    rcases hw with hm | ⟨hm, hput⟩
    · rcases hputs p hm with rfl | rfl
      · rfl
      · exact absurd hk (by decide)
    · simp only [List.mem_cons, List.not_mem_nil, or_false] at hm
      rcases hm with rfl | rfl | rfl
      · exact absurd rfl hput
      · exact absurd hk (by decide)
      · exact absurd hk (by decide)
  rw [hzero] at hone
  exact absurd hone (by decide)

end RdmaBench.Mica.Answers
