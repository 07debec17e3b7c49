import RdmaBench.Mica.Store

/-! # How long a key stays in the store

After a PUT of a key, a GET of it hits until another key takes the slot, by its
tag or by eviction, or the head of the log laps the entry. Nothing else makes a
key disappear. -/

namespace RdmaBench.Mica.Retention
open RdmaBench.Lib.Asserts RdmaBench.Lib.Runs
open RdmaBench.Mica.Model RdmaBench.Mica.Log RdmaBench.Mica.Bucket RdmaBench.Mica.Store

/-! ## Hits -/

/-- A GET is answered with a value. -/
def Hits (kv : MicaKv) (get : MicaOp) : Prop :=
  ∃ kv' resp, micaBatchOp kv [get] = .ok (kv', [resp]) ∧ resp.type = .getSuccess

variable {kv kv' : MicaKv} {puts : List MicaOp} {item item' : Nat → Fin 8 → MicaOp}
  {key : MicaKey} {j : Fin 8} {o : Nat}

theorem hits_iff {get : MicaOp} (hg : get.opcode = opGet) :
    Hits kv get ↔ ∃ ptr, lookup kv get.key = some ptr ∧ keyAt kv get.key ptr = true := by
  constructor
  · intro hall
    obtain ⟨kv', resp, hr, hs⟩ := hall
    obtain ⟨resp', hresp, hp⟩ := batchOne_ok hr
    cases hresp
    rcases processOp_cases hp with ⟨_, ptr, hptr, hkey, _⟩ | ⟨_, _, _, hresp⟩ | ⟨hput, _⟩ |
      ⟨hput, _⟩
    · exact ⟨ptr, hptr, hkey⟩
    · rw [hresp] at hs
      cases hs
    · exact absurd hg hput
    · exact absurd hg hput
  · intro hall
    obtain ⟨ptr, hptr, hkey⟩ := hall
    refine ⟨{ kv with numGetOp := kv.numGetOp + 1 },
      ⟨.getSuccess, kv.htLog (ptr + 17), some (ptr + 18)⟩, ?_, rfl⟩
    simp [micaBatchOp, processAll, processOp, hptr, Option.filter, hkey, hg, bind, Except.bind,
      pure, Except.pure]

/-- Slot `j` of its bucket belongs to a PUT of the key, at offset `o`. -/
def Present (kv : MicaKv) (item : Nat → Fin 8 → MicaOp) (key : MicaKey) (j : Fin 8) (o : Nat) :
    Prop :=
  (kv.htIndex (kv.bktOf key) j).inUse = true ∧ (item (kv.bktOf key) j).key = key ∧
    (kv.htIndex (kv.bktOf key) j).offset = o

/-- No slot belongs to a PUT of the key. -/
def Gone (kv : MicaKv) (item : Nat → Fin 8 → MicaOp) (key : MicaKey) : Prop :=
  ∀ j, (kv.htIndex (kv.bktOf key) j).inUse = true → (item (kv.bktOf key) j).key ≠ key

/-- A key has one slot at most. -/
theorem slot_unique (h : StoreInv kv puts item) (hp : Present kv item key j o) {i : Fin 8}
    (hu : (kv.htIndex (kv.bktOf key) i).inUse = true) (hk : (item (kv.bktOf key) i).key = key) :
    i = j := by
  have h1 := (h.slot _ i hu).tag
  have h2 := (h.slot _ j hp.1).tag
  rw [hk] at h1
  rw [hp.2.1] at h2
  exact (h.index _).distinct i j hu hp.1 (h1.trans h2.symm)

theorem present_hits_iff (h : StoreInv kv puts item) (hp : Present kv item key j o) {get : MicaOp}
    (hg : get.opcode = opGet) (hk : get.key = key) :
    Hits kv get ↔ kv.logHead < o + kv.logCap := by
  subst hk
  rw [hits_iff hg]
  constructor
  · intro hall
    obtain ⟨ptr, hit⟩ := hall
    obtain ⟨i, hu, hki, hlive, _⟩ := h.hit_iff.mp hit
    rw [slot_unique h hp hu hki, hp.2.2] at hlive
    exact hlive
  · intro hlive
    have hlive' := hlive
    rw [← hp.2.2] at hlive'
    exact ⟨_, h.hit_iff.mpr ⟨j, hp.1, hp.2.1, hlive', rfl⟩⟩

theorem gone_not_hits (h : StoreInv kv puts item) {get : MicaOp} (hg : get.opcode = opGet)
    (hgone : Gone kv item get.key) : ¬ Hits kv get := by
  rw [hits_iff hg]
  intro hall
  obtain ⟨ptr, hit⟩ := hall
  obtain ⟨i, hu, hki, _⟩ := h.hit_iff.mp hit
  exact hgone i hu hki

/-! ## One operation -/

/-- A PUT of the key. -/
def PutOf (key : MicaKey) : Single → Prop
  | .insertOne op => op.key = key
  | .batchOne op => op.opcode ≠ opGet ∧ op.key = key

/-- The call inserts another key of the same bucket, which has the same tag or
evicts slot `j`. -/
def Displaces (kv : MicaKv) (c : Single) (key : MicaKey) (j : Fin 8) : Prop :=
  ∃ op, inserted kv c = some op ∧ kv.bktOf op.key = kv.bktOf key ∧
    (op.key ≠ key ∧ op.key.tag = key.tag ∨
      Evicts (kv.htIndex (kv.bktOf key)) op.key.tag.toNat j)

/-- After a PUT of the key it has a slot, and the head has not lapped it. -/
theorem put_present {s s' : History} {c : Single} (h : StoreInv s.kv s.puts item)
    (hstep : histories.step s c s') (hc : PutOf key c) :
    ∃ item' i a, StoreInv s'.kv s'.puts item' ∧ Present s'.kv item' key i a ∧
      s'.kv.logHead < a + s'.kv.logCap := by
  obtain ⟨item', hinv', heff⟩ := step_storeInv h hstep
  cases heff with
  | inserted op hins hv hi hitem =>
    have hkey : op.key = key := by
      cases c with
      | insertOne op' =>
        cases hins
        exact hc
      | batchOne op' =>
        simp only [inserted] at hins
        split at hins
        · cases hins
          exact hc.2
        · cases hins
    subst hkey
    obtain ⟨_, _, _, _, hcap, _, hmask⟩ := insertOne_ok hi
    have hb := bktOf_congr hmask op.key
    have hindex := insertOne_index h.log hi
    refine ⟨item', chosen (s.kv.htIndex (s.kv.bktOf op.key)) op.key.tag.toNat, s.kv.logHead, hinv',
      ⟨?_, ?_, ?_⟩, ?_⟩
    · rw [hb, hindex, update2_self]
    · rw [hb, hitem, update2_self]
    · rw [hb, hindex, update2_self]
    · rw [hcap]
      exact (insertOne_head_bounds h.log hv hi).2
  | kept hins hsame hkeys =>
    cases c with
    | insertOne op => cases hins
    | batchOne op =>
      obtain ⟨hput, rfl⟩ := hc
      simp only [inserted] at hins
      split at hins
      · cases hins
      · rename_i hno
        have hfound : ¬ Missed s.kv op.key (lookup s.kv op.key) := fun hm => hno ⟨hput, hm⟩
        obtain ⟨ptr, hit⟩ := not_missed_iff.mp hfound
        obtain ⟨i, hu, hk, hlive, _⟩ := h.hit_iff.mp hit
        have hb := bktOf_congr hsame.bktMask op.key
        refine ⟨item', i, _, hinv', ⟨?_, ?_, rfl⟩, ?_⟩
        · rw [hb, hsame.htIndex]
          exact hu
        · rw [hb, hkeys]
          exact hk
        · rw [hb, hsame.htIndex, hsame.logHead, hsame.logCap]
          exact hlive

/-- An insertion into the bucket of the key goes to the key's slot exactly if it
has the key's tag or evicts the slot. -/
theorem chosen_eq_slot_iff (h : StoreInv kv puts item) (hp : Present kv item key j o)
    {key' : MicaKey} :
    chosen (kv.htIndex (kv.bktOf key)) key'.tag.toNat = j ↔
      key'.tag = key.tag ∨ Evicts (kv.htIndex (kv.bktOf key)) key'.tag.toNat j := by
  have htag := (h.slot _ j hp.1).tag
  rw [hp.2.1] at htag
  by_cases ht : key'.tag = key.tag
  · refine iff_of_true (by_contra fun hc => ?_) (.inl ht)
    refine chosen_other (h.index _) (fun he => hc he.symm) hp.1 ?_
    rw [htag, ht]
  · have ht' : (kv.htIndex (kv.bktOf key) j).tag ≠ key'.tag.toNat := by
      rw [htag]
      exact fun he => ht (UInt16.toNat_inj.mp he.symm)
    rw [chosen_iff_evicts hp.1 ht']
    exact (or_iff_right ht).symm

/-- The key keeps its slot or is gone, as the call displaces it or not. -/
theorem effect_present {c : Single} (h : StoreInv kv puts item) (heff : Effect kv kv' c item item')
    (hp : Present kv item key j o) (hno : ∀ op, inserted kv c = some op → op.key ≠ key) :
    (¬ Displaces kv c key j → Present kv' item' key j o) ∧
      (Displaces kv c key j → Gone kv' item' key) := by
  cases heff with
  | kept hins hsame hkeys =>
    have hb := bktOf_congr hsame.bktMask key
    refine ⟨fun _ => ⟨?_, ?_, ?_⟩, fun hdisp => ?_⟩
    · rw [hb, hsame.htIndex]
      exact hp.1
    · rw [hb, hkeys]
      exact hp.2.1
    · rw [hb, hsame.htIndex]
      exact hp.2.2
    · obtain ⟨op, hsome, -⟩ := hdisp
      rw [hins] at hsome
      cases hsome
  | inserted op hins hv hi hitem =>
    have hindex := insertOne_index h.log hi
    have hb := bktOf_congr (insertOne_ok hi).2.2.2.2.2.2 key
    have hne := hno op hins
    refine ⟨fun hstay => ?_, fun hdisp => ?_⟩
    · -- the slot written is another one
      have hother : ¬(kv.bktOf key = kv.bktOf op.key ∧
          j = chosen (kv.htIndex (kv.bktOf op.key)) op.key.tag.toNat) := by
        intro hall
        obtain ⟨hbkt, hj⟩ := hall
        rw [← hbkt] at hj
        exact hstay ⟨op, hins, hbkt.symm,
          ((chosen_eq_slot_iff h hp).mp hj.symm).imp_left fun ht => ⟨hne, ht⟩⟩
      unfold Present
      rw [hb, hindex, hitem, update2_other _ _ hother, update2_other _ _ hother]
      exact hp
    · -- the slot written is the key's
      obtain ⟨op', hins', hbkt, hcase⟩ := hdisp
      rw [hins] at hins'
      cases hins'
      have hj := (chosen_eq_slot_iff h hp).mpr (hcase.imp_left And.right)
      intro i hu
      rw [hb] at hu ⊢
      rw [hbkt, hj] at hindex hitem
      by_cases hi' : i = j
      · rw [hi', hitem, update2_self]
        exact hne
      · have hot : ¬(kv.bktOf key = kv.bktOf key ∧ i = j) := fun he => hi' he.2
        rw [hindex, update2_other _ _ hot] at hu
        rw [hitem, update2_other _ _ hot]
        exact fun hk => hi' (slot_unique h hp hu hk)

/-- A key that is gone stays away until it is inserted again. -/
theorem effect_gone {c : Single} (h : StoreInv kv puts item) (heff : Effect kv kv' c item item')
    (hg : Gone kv item key) (hno : ∀ op, inserted kv c = some op → op.key ≠ key) :
    Gone kv' item' key := by
  cases heff with
  | kept hins hsame hkeys =>
    have hb := bktOf_congr hsame.bktMask key
    intro i hu
    rw [hb, hsame.htIndex] at hu
    rw [hb, hkeys]
    exact hg i hu
  | inserted op hins hv hi hitem =>
    have hindex := insertOne_index h.log hi
    have hb := bktOf_congr (insertOne_ok hi).2.2.2.2.2.2 key
    intro i hu
    rw [hb] at hu ⊢
    by_cases hnew : kv.bktOf key = kv.bktOf op.key ∧
        i = chosen (kv.htIndex (kv.bktOf op.key)) op.key.tag.toNat
    · rw [hitem, hnew.1, hnew.2, update2_self]
      exact hno op hins
    · rw [hindex, update2_other _ _ hnew] at hu
      rw [hitem, update2_other _ _ hnew]
      exact hg i hu

/-- The head never moves back, and the capacity stays. -/
theorem effect_head {c : Single} (h : StoreInv kv puts item) (heff : Effect kv kv' c item item') :
    kv.logHead ≤ kv'.logHead ∧ kv'.logCap = kv.logCap := by
  cases heff with
  | kept _ hsame _ => exact ⟨Nat.le_of_eq hsame.logHead.symm, hsame.logCap⟩
  | inserted op _ hv hi _ =>
    have hle := (insertOne_head_bounds h.log hv hi).1
    exact ⟨by omega, (insertOne_ok hi).2.2.2.2.1⟩

/-! ## Whole runs -/

/-- Along a run the key keeps its slot until it is displaced, and the head has
passed every state since. -/
theorem trace_retention {s0 s1 : History} {l : List (History × Single)}
    (h : StoreInv s0.kv s0.puts item) (hp : Present s0.kv item key j o)
    (ht : Trace histories s0 l s1)
    (hno : ∀ x ∈ l, ∀ op, inserted x.1.kv x.2 = some op → op.key ≠ key) :
    ∃ item', StoreInv s1.kv s1.puts item' ∧
      ((∀ x ∈ l, ¬ Displaces x.1.kv x.2 key j) ∧ Present s1.kv item' key j o ∨
        (∃ x ∈ l, Displaces x.1.kv x.2 key j) ∧ Gone s1.kv item' key) ∧
      ∀ x ∈ l, x.1.kv.logHead ≤ s1.kv.logHead ∧ x.1.kv.logCap = s1.kv.logCap := by
  induction ht with
  | nil => exact ⟨item, h, .inl ⟨by simp, hp⟩, by simp⟩
  | @snoc l t u c _ hstep ih =>
    obtain ⟨item1, hinv, hcase, hheads⟩ := ih fun x hx => hno x (List.mem_append_left _ hx)
    obtain ⟨item2, hinv2, heff⟩ := step_storeInv hinv hstep
    have hlast : ((t, c) : History × Single) ∈ l ++ [(t, c)] := by simp
    have hnew := hno (t, c) hlast
    obtain ⟨hhead, hcap⟩ := effect_head hinv heff
    refine ⟨item2, hinv2, ?_, ?_⟩
    · rcases hcase with ⟨hstay, hpres⟩ | ⟨⟨x, hx, hd⟩, hgone⟩
      · obtain ⟨h1, h2⟩ := effect_present hinv heff hpres hnew
        by_cases hd : Displaces t.kv c key j
        · exact .inr ⟨⟨(t, c), hlast, hd⟩, h2 hd⟩
        · refine .inl ⟨fun x hx => ?_, h1 hd⟩
          rcases List.mem_append.mp hx with hx | hx
          · exact hstay x hx
          · rw [List.mem_singleton.mp hx]
            exact hd
      · exact .inr ⟨⟨x, List.mem_append_left _ hx, hd⟩, effect_gone hinv heff hgone hnew⟩
    · intro x hx
      rcases List.mem_append.mp hx with hx | hx
      · obtain ⟨h1, h2⟩ := hheads x hx
        exact ⟨by omega, by rw [h2, hcap]⟩
      · rw [List.mem_singleton.mp hx]
        exact ⟨hhead, hcap.symm⟩

/-- A GET right after a PUT of its key hits. Later on, as long as the key is not
inserted again, it hits exactly if no insertion of another key took the slot by
its tag or by eviction and the head has not reached a lap past the entry. -/
theorem get_hits_iff_retained {s s0 : History} {c : Single} {get : MicaOp}
    (h : Reachable histories s) (hstep : histories.step s c s0) (hc : PutOf get.key c)
    (hg : get.opcode = opGet) :
    Hits s0.kv get ∧
    ∀ j o l s1, (s0.kv.htIndex (s0.kv.bktOf get.key) j).inUse = true →
      (s0.kv.htIndex (s0.kv.bktOf get.key) j).tag = get.key.tag.toNat →
      (s0.kv.htIndex (s0.kv.bktOf get.key) j).offset = o →
      Trace histories s0 l s1 →
      (∀ x ∈ l, ∀ op, inserted x.1.kv x.2 = some op → op.key ≠ get.key) →
      (Hits s1.kv get ↔
        (∀ x ∈ l, ¬ Displaces x.1.kv x.2 get.key j ∧ x.1.kv.logHead < o + x.1.kv.logCap) ∧
          s1.kv.logHead < o + s1.kv.logCap) := by
  obtain ⟨item, hinv⟩ := histories_storeInv h
  obtain ⟨item0, i, a, hinv0, hp, hlive⟩ := put_present hinv hstep hc
  refine ⟨(present_hits_iff hinv0 hp hg rfl).mpr hlive, ?_⟩
  intro j o l s1 hu htag hoff ht hno
  -- the slot with the key's tag is the slot of the key
  have hi := (hinv0.slot _ i hp.1).tag
  rw [hp.2.1] at hi
  have hij : i = j := (hinv0.index _).distinct i j hp.1 hu (hi.trans htag.symm)
  subst hij
  rw [hp.2.2] at hoff
  subst hoff
  obtain ⟨item1, hinv1, hcase, hheads⟩ := trace_retention hinv0 hp ht hno
  rcases hcase with ⟨hstay, hpres⟩ | ⟨⟨x, hx, hd⟩, hgone⟩
  · rw [present_hits_iff hinv1 hpres hg rfl]
    constructor
    · intro hl
      refine ⟨fun x hx => ⟨hstay x hx, ?_⟩, hl⟩
      obtain ⟨hle, hcap⟩ := hheads x hx
      rw [hcap]
      exact Nat.lt_of_le_of_lt hle hl
    · intro hall
      exact hall.2
  · constructor
    · intro hhit
      exact absurd hhit (gone_not_hits hinv1 hg hgone)
    · intro hall
      exact absurd hd (hall.1 x hx).1

/-- A PUT of a key with the tag of `zeros`. -/
def sameTag : MicaOp := { zeros 6 with key := ⟨1, 0, 0, 0⟩ }

/-- The key of `zeros` is in slot 7, and is still found after an insertion with another tag.
One with the same tag then takes the slot. -/
theorem displaced_run : ∃ kv0 kv1 kv2 kv3, Reachable histories ⟨kv0, []⟩ ∧
    histories.step ⟨kv0, []⟩ (.insertOne (zeros 6)) ⟨kv1, [zeros 6]⟩ ∧
    histories.step ⟨kv1, [zeros 6]⟩ (.insertOne (tagged 5)) ⟨kv2, [tagged 5, zeros 6]⟩ ∧
    histories.step ⟨kv2, [tagged 5, zeros 6]⟩ (.insertOne sameTag)
      ⟨kv3, [sameTag, tagged 5, zeros 6]⟩ ∧
    kv1.htIndex (kv1.bktOf fetch.key) 7 = ⟨true, 0, 0⟩ ∧
    ¬ Evicts (kv1.htIndex (kv1.bktOf fetch.key)) 5 7 ∧
    kv1.logHead < kv1.logCap ∧ kv2.logHead < kv2.logCap := by
  have hrun : (do
      let kv0 ← micaInit (fun _ _ => ⟨false, 0, 0⟩) (fun _ => 0) 0 1 2097152
      let kv1 ← micaInsertOne kv0 (zeros 6)
      let kv2 ← micaInsertOne kv1 (tagged 5)
      let _ ← micaInsertOne kv2 sameTag
      return decide ((Fits kv0 (zeros 6) ∧ Fits kv1 (tagged 5) ∧ Fits kv2 sameTag) ∧
        kv1.htIndex (kv1.bktOf fetch.key) 7 = ⟨true, 0, 0⟩ ∧
        ¬ Evicts (kv1.htIndex (kv1.bktOf fetch.key)) 5 7 ∧
        kv1.logHead < kv1.logCap ∧ kv2.logHead < kv2.logCap) : Except Assert Bool) = .ok true := by
    decide +kernel
  obtain ⟨kv0, h0, hrun⟩ := bind_ok hrun
  obtain ⟨kv1, h1, hrun⟩ := bind_ok hrun
  obtain ⟨kv2, h2, hrun⟩ := bind_ok hrun
  obtain ⟨kv3, h3, hrun⟩ := bind_ok hrun
  obtain ⟨⟨hfits0, hfits1, hfits2⟩, hslot⟩ := of_decide_eq_true (Except.ok.inj hrun)
  have hstep : ∀ {kv kv' puts op}, ValidPut op → Fits kv op → micaInsertOne kv op = .ok kv' →
      histories.step ⟨kv, puts⟩ (.insertOne op) ⟨kv', op :: puts⟩ := by
    intro kv kv' puts op hvalid hfits hins
    refine ⟨⟨hvalid, fun p hp => ?_, [], perform_insertOne hins⟩, rfl⟩
    rw [List.mem_singleton.mp hp]
    exact hfits
  exact ⟨kv0, kv1, kv2, kv3, .init ⟨⟨_, _, _, _, _, h0⟩, rfl⟩, hstep (by decide) hfits0 h1,
    hstep (by decide) hfits1 h2, hstep (by decide) hfits2 h3, hslot⟩

theorem get_hits_iff_retained_displaced : ∃ s0 s1 s2 : History,
    histories.step s0 (.insertOne (tagged 5)) s1 ∧ histories.step s1 (.insertOne sameTag) s2 ∧
    Hits s0.kv fetch ∧ Hits s1.kv fetch ∧ ¬ Hits s2.kv fetch := by
  obtain ⟨kv0, kv1, kv2, kv3, hr, hput, hother, hsame, hslot, hevicts, hlive, hlive'⟩ :=
    displaced_run
  obtain ⟨hits, hall⟩ : Hits kv1 fetch ∧ _ := get_hits_iff_retained hr hput rfl rfl
  have hall := fun l s1 => hall 7 0 l s1 (by rw [hslot]) (by rw [hslot]; rfl) (by rw [hslot])
  have hone := Trace.snoc Trace.nil hother
  have htwo := Trace.snoc hone hsame
  refine ⟨_, _, _, hother, hsame, hits, (hall _ _ hone ?_).mpr ⟨?_, ?_⟩, fun hhit => ?_⟩
  · simp [inserted, tagged, fetch, zeros]
  · simp only [List.nil_append, List.mem_singleton, forall_eq, Nat.zero_add]
    refine ⟨?_, hlive⟩
    rintro ⟨op, hop, -, ⟨-, htag⟩ | hevict⟩
    · rw [← Option.some.inj hop] at htag
      exact absurd htag (by decide)
    · rw [← Option.some.inj hop] at hevict
      exact hevicts hevict
  · rw [Nat.zero_add]
    exact hlive'
  · have hstays := ((hall _ _ htwo (by simp [inserted, sameTag, tagged, fetch, zeros])).mp hhit).1
    have hlast := hstays _ (List.mem_append_right _ (List.mem_singleton_self _))
    exact hlast.1 ⟨sameTag, rfl, rfl, .inl ⟨by decide, rfl⟩⟩

end RdmaBench.Mica.Retention
