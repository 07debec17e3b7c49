import Mathlib.Tactic

/-! # Polling for a number of completions

`hrd_poll_cq` and `hrd_poll_cq_ret`, in C and in C++: one loop, which leaves by
`exit` or by a return value if a completion has failed. Of the completions that
one call of `ibv_poll_cq` gives, the loop looks at the first only, and it adds
whatever the call returned to `comps`, also if that is an error. -/

namespace RdmaBench.Libhrd.PollCq

/-! ## The loop -/

/-- What a call of `ibv_poll_cq` does: it fails with a negative number, or takes
completions from the queue. Of a completion only the status is read. -/
inductive PollResult where
  | error (code : Nat)
  | comps (statuses : List Nat)
deriving DecidableEq, Repr

def PollResult.newComps : PollResult → Int
  | .error code => -(code + 1)
  | .comps statuses => statuses.length

/-- The statuses of the completions that were taken. -/
def PollResult.statuses : PollResult → List Nat
  | .error _ => []
  | .comps statuses => statuses

/-- The status fields of the entries of `wc`, also of those around the array. -/
abbrev Wc := Int → Nat

/-- `ibv_poll_cq` fills entries from `&wc[comps]` on. -/
def fill (wc : Wc) (comps : Int) (statuses : List Nat) : Wc := fun i =>
  if comps ≤ i ∧ i < comps + statuses.length then statuses.getD (i - comps).toNat 0 else wc i

/-- One round of the loop: `comps` at its start, the number asked for, what the
call did, and `comps` at its end. -/
structure Round where
  comps : Int
  asked : Int
  result : PollResult
  next : Int
deriving DecidableEq, Repr

inductive Outcome where
  | returned
  | failed (status : Nat)
  | polling
deriving DecidableEq, Repr

/-- The loop on a sequence of results of `ibv_poll_cq`, with the rounds it makes.
It is still polling if the sequence ends first. -/
def pollLoop (numComps : Int) : Int → Wc → List PollResult → Outcome × List Round
  | comps, _, [] => if comps < numComps then (.polling, []) else (.returned, [])
  | comps, wc, r :: rs =>
    if comps < numComps then
      let wc := fill wc comps r.statuses
      if r.newComps ≠ 0 then
        if wc comps ≠ 0 then
          (.failed (wc comps), [⟨comps, numComps - comps, r, comps⟩])
        else
          let (out, rounds) := pollLoop numComps (comps + r.newComps) wc rs
          (out, ⟨comps, numComps - comps, r, comps + r.newComps⟩ :: rounds)
      else
        let (out, rounds) := pollLoop numComps comps wc rs
        (out, ⟨comps, numComps - comps, r, comps⟩ :: rounds)
    else (.returned, [])

/-- How `hrd_poll_cq` ends: it returns, or it calls `exit`. -/
inductive Leave where
  | returns | exits
deriving DecidableEq, Repr

def hrdPollCq (numComps : Int) (wc : Wc) (results : List PollResult) : Option Leave :=
  match (pollLoop numComps 0 wc results).1 with
  | .returned => some .returns
  | .failed _ => some .exits
  | .polling => none

def hrdPollCqRet (numComps : Int) (wc : Wc) (results : List PollResult) : Option Int :=
  match (pollLoop numComps 0 wc results).1 with
  | .returned => some 0
  | .failed _ => some (-1)
  | .polling => none

/-- The rounds both functions make. -/
def rounds (numComps : Int) (wc : Wc) (results : List PollResult) : List Round :=
  (pollLoop numComps 0 wc results).2

/-- One of the two functions reports success. -/
def Succeeds (numComps : Int) (wc : Wc) (results : List PollResult) : Prop :=
  hrdPollCq numComps wc results = some .returns ∨ hrdPollCqRet numComps wc results = some 0

instance (numComps : Int) (wc : Wc) (results : List PollResult) :
    Decidable (Succeeds numComps wc results) := inferInstanceAs (Decidable (_ ∨ _))

theorem succeeds_iff {numComps : Int} {wc : Wc} {results : List PollResult} :
    Succeeds numComps wc results ↔ (pollLoop numComps 0 wc results).1 = .returned := by
  unfold Succeeds hrdPollCq hrdPollCqRet
  cases (pollLoop numComps 0 wc results).1 <;> simp

/-! ## What success should mean -/

/-- A call gives no more completions than it was asked for. -/
def Valid (rs : List Round) : Prop := ∀ r ∈ rs, r.result.newComps ≤ r.asked

/-- All completions taken, in the order of the queue. -/
def taken (rs : List Round) : List Nat := rs.flatMap fun r => r.result.statuses

/-- The completions that were asked for and no others were taken, all of them
successful, with calls inside the array, and no error counted as progress. -/
structure Sound (numComps : Int) (rs : List Round) : Prop where
  number : ((taken rs).length : Int) = numComps
  status : ∀ st ∈ taken rs, st = 0
  inside : ∀ r ∈ rs, 0 ≤ r.comps ∧ r.comps + r.asked ≤ numComps
  errors : ∀ r ∈ rs, r.result.newComps < 0 → r.next = r.comps

/-- No call fails, and of its completions all but the first are successful. -/
def Clean (rs : List Round) : Prop :=
  ∀ r ∈ rs, ∃ statuses, r.result = .comps statuses ∧ ∀ st ∈ statuses.tail, st = 0

theorem Clean.tail {r : Round} {rs : List Round} (h : Clean (r :: rs)) : Clean rs :=
  fun x hx => h x (List.mem_cons_of_mem _ hx)

theorem Valid.tail {r : Round} {rs : List Round} (h : Valid (r :: rs)) : Valid rs :=
  fun x hx => h x (List.mem_cons_of_mem _ hx)

/-! ## One round -/

variable {numComps comps : Int} {wc : Wc} {results : List PollResult} {rs : List Round}

/-- A loop that returns has enough completions, or makes a round that passes the
check and goes on. -/
theorem pollLoop_returned (h : pollLoop numComps comps wc results = (.returned, rs)) :
    (numComps ≤ comps ∧ rs = []) ∨
    ∃ r rest rs', comps < numComps ∧
      rs = ⟨comps, numComps - comps, r, comps + r.newComps⟩ :: rs' ∧
      (r.newComps ≠ 0 → fill wc comps r.statuses comps = 0) ∧ results = r :: rest ∧
      pollLoop numComps (comps + r.newComps) (fill wc comps r.statuses) rest =
        (.returned, rs') := by
  cases results with
  | nil =>
    simp only [pollLoop] at h
    split at h
    · cases h
    · cases h
      exact .inl ⟨by omega, rfl⟩
  | cons r rest =>
    simp only [pollLoop] at h
    split at h
    · rename_i hlt
      split at h
      · split at h
        · cases h
        · rename_i hst
          obtain ⟨hout, rfl⟩ := Prod.mk.inj h
          exact .inr ⟨r, rest, _, hlt, rfl, fun _ => not_not.mp hst, rfl, Prod.ext hout rfl⟩
      · rename_i hz
        have hsame : comps + r.newComps = comps := by rw [not_not.mp hz, Int.add_zero]
        obtain ⟨hout, rfl⟩ := Prod.mk.inj h
        refine .inr ⟨r, rest, (pollLoop numComps comps (fill wc comps r.statuses) rest).2, hlt, ?_,
          fun hne => absurd hne hz, rfl, ?_⟩
        · rw [hsame]
        · rw [hsame]
          exact Prod.ext hout rfl
    · cases h
      exact .inl ⟨by omega, rfl⟩

/-- The check reads the first completion of the call. -/
theorem fill_first (st : Nat) (statuses : List Nat) :
    fill wc comps (st :: statuses) comps = st := by
  simp [fill]

/-- A round of a loop that returns asks for what is missing and adds what its
call returned. -/
theorem round_eq (h : pollLoop numComps comps wc results = (.returned, rs)) {r : Round}
    (hr : r ∈ rs) : r.asked = numComps - r.comps ∧ r.next = r.comps + r.result.newComps := by
  induction results generalizing comps wc rs with
  | nil =>
    rcases pollLoop_returned h with ⟨_, rfl⟩ | ⟨_, _, _, _, _, _, hres, _⟩
    · cases hr
    · cases hres
  | cons x rest ih =>
    rcases pollLoop_returned h with ⟨_, rfl⟩ | ⟨y, _, rs', _, rfl, _, hres, hrest⟩
    · cases hr
    · cases hres
      rcases List.mem_cons.mp hr with rfl | hr
      · exact ⟨rfl, rfl⟩
      · exact ih hrest hr

/-- Without errors `comps` never goes back. -/
theorem comps_le (h : pollLoop numComps comps wc results = (.returned, rs))
    (hok : ∀ r ∈ rs, 0 ≤ r.result.newComps) {r : Round} (hr : r ∈ rs) : comps ≤ r.comps := by
  induction results generalizing comps wc rs with
  | nil =>
    rcases pollLoop_returned h with ⟨_, rfl⟩ | ⟨_, _, _, _, _, _, hres, _⟩
    · cases hr
    · cases hres
  | cons x rest ih =>
    rcases pollLoop_returned h with ⟨_, rfl⟩ | ⟨y, _, rs', _, rfl, _, hres, hrest⟩
    · cases hr
    · cases hres
      rcases List.mem_cons.mp hr with rfl | hr
      · exact Int.le_refl _
      · have hhere := hok _ List.mem_cons_self
        have hlater := ih hrest (fun y hy => hok y (List.mem_cons_of_mem _ hy)) hr
        simp only at hhere
        omega

/-! ## Whole calls -/

/-- From `comps` completions on, clean results give the rest of them. -/
theorem clean_sound (h : pollLoop numComps comps wc results = (.returned, rs)) (h0 : 0 ≤ comps)
    (hle : comps ≤ numComps) (hv : Valid rs) (hc : Clean rs) :
    comps + (taken rs).length = numComps ∧ (∀ st ∈ taken rs, st = 0) ∧
      ∀ r ∈ rs, 0 ≤ r.comps ∧ r.comps + r.asked ≤ numComps := by
  induction results generalizing comps wc rs with
  | nil =>
    rcases pollLoop_returned h with ⟨hge, rfl⟩ | ⟨_, _, _, _, _, _, hres, _⟩
    · simp only [taken, List.flatMap_nil, List.length_nil, Nat.cast_zero]
      exact ⟨by omega, by simp, by simp⟩
    · cases hres
  | cons x rest ih =>
    rcases pollLoop_returned h with ⟨hge, rfl⟩ | ⟨y, _, rs', hlt, rfl, hcheck, hres, hrest⟩
    · simp only [taken, List.flatMap_nil, List.length_nil, Nat.cast_zero]
      exact ⟨by omega, by simp, by simp⟩
    · cases hres
      obtain ⟨statuses, hx, htail⟩ := hc _ List.mem_cons_self
      simp only at hx
      subst hx
      have hmax := hv _ List.mem_cons_self
      simp only [PollResult.newComps] at hmax hrest
      obtain ⟨hnum, hok, hin⟩ := ih hrest (by omega) (by omega) hv.tail hc.tail
      refine ⟨?_, ?_, ?_⟩
      · simp only [taken, List.flatMap_cons, List.length_append, Nat.cast_add,
          PollResult.statuses] at hnum ⊢
        omega
      · -- the check covers the first status, cleanness the others
        intro st hst
        rcases List.mem_append.mp hst with hst | hst
        · cases statuses with
          | nil => cases hst
          | cons first others =>
            rcases List.mem_cons.mp hst with rfl | hst
            · rw [← hcheck (by simp only [PollResult.newComps, List.length_cons]; omega)]
              exact (fill_first _ _).symm
            · exact htail st hst
        · exact hok st hst
      · intro r hr
        rcases List.mem_cons.mp hr with rfl | hr
        · exact ⟨h0, by simp only; omega⟩
        · exact hin r hr

theorem sound_of_clean (hn : 1 ≤ numComps) (hv : Valid (rounds numComps wc results))
    (hret : pollLoop numComps 0 wc results = (.returned, rounds numComps wc results))
    (hclean : Clean (rounds numComps wc results)) :
    Sound numComps (rounds numComps wc results) := by
  obtain ⟨hnum, hok, hin⟩ := clean_sound hret (Int.le_refl 0) (by omega) hv hclean
  refine ⟨by omega, hok, hin, fun r hr hneg => ?_⟩
  obtain ⟨statuses, hres, _⟩ := hclean r hr
  simp only [hres, PollResult.newComps] at hneg
  omega

/-- Whenever one of the functions reports success, that is sound exactly if no
call of `ibv_poll_cq` failed and all completions of a call after the first one,
which the loop checks, are successful. -/
theorem poll_sound_iff (hn : 1 ≤ numComps) (hv : Valid (rounds numComps wc results))
    (hs : Succeeds numComps wc results) :
    Sound numComps (rounds numComps wc results) ↔ Clean (rounds numComps wc results) := by
  have hret : pollLoop numComps 0 wc results = (.returned, rounds numComps wc results) :=
    Prod.ext (succeeds_iff.mp hs) rfl
  constructor
  · intro hsound r hr
    cases hres : r.result with
    | error code =>
      have hneg : r.result.newComps < 0 := by
        simp only [hres, PollResult.newComps]
        omega
      have hstay := hsound.errors r hr hneg
      have hnext := (round_eq hret hr).2
      omega
    | comps statuses =>
      refine ⟨statuses, rfl, fun st hst => hsound.status st ?_⟩
      refine List.mem_flatMap.mpr ⟨r, hr, ?_⟩
      rw [hres]
      exact List.mem_of_mem_tail hst
  · exact sound_of_clean hn hv hret

/-- Two completions, the first call with none and the second with both. -/
theorem poll_sound_two : Sound 2 (rounds 2 (fun _ => 0) [.comps [], .comps [0, 0]]) :=
  (poll_sound_iff (by decide) (by unfold Valid; decide) (by decide)).mpr (by
    intro r hr
    rcases List.mem_cons.mp hr with rfl | hr
    · exact ⟨[], rfl, by simp⟩
    · rw [List.mem_singleton.mp hr]
      exact ⟨[0, 0], rfl, by simp⟩)

/-- Of a call for two completions the second has failed, and both functions
report success. So they do if a call fails with -1 before the only completion:
the next call is for two entries from `wc[-1]` on. -/
theorem failures_unnoticed :
    (¬ ∀ (numComps : Int) (wc : Wc) (results : List PollResult), 1 ≤ numComps →
      Valid (rounds numComps wc results) → Succeeds numComps wc results →
        Sound numComps (rounds numComps wc results)) ∧
    hrdPollCqRet 2 (fun _ => 0) [.comps [0, 12]] = some 0 ∧
    hrdPollCqRet 1 (fun _ => 0) [.error 0, .comps [0, 0]] = some 0 ∧
    rounds 1 (fun _ => 0) [.error 0, .comps [0, 0]] =
      [⟨0, 1, .error 0, -1⟩, ⟨-1, 2, .comps [0, 0], 1⟩] := by
  refine ⟨fun hall => ?_, by decide, by decide, by decide⟩
  have hsound := hall 2 (fun _ => 0) [.comps [0, 12]] (by decide) (by unfold Valid; decide)
    (by decide)
  exact absurd (hsound.status 12 (by decide)) (by decide)

/-- A loop for one completion is sound as long as no call fails: a call gives at
most one completion, and that one is checked. -/
theorem poll_one_sound (hv : Valid (rounds 1 wc results)) (hs : Succeeds 1 wc results)
    (hok : ∀ r ∈ rounds 1 wc results, 0 ≤ r.result.newComps) : Sound 1 (rounds 1 wc results) := by
  have hret : pollLoop 1 0 wc results = (.returned, rounds 1 wc results) :=
    Prod.ext (succeeds_iff.mp hs) rfl
  refine sound_of_clean (Int.le_refl 1) hv hret fun r hr => ?_
  have hone : r.result.newComps ≤ 1 := by
    have hmax := hv r hr
    have hasked := (round_eq hret hr).1
    have hback := comps_le hret hok hr
    omega
  cases hres : r.result with
  | error code =>
    have hneg := hok r hr
    simp only [hres, PollResult.newComps] at hneg
    omega
  | comps statuses =>
    refine ⟨statuses, rfl, fun st hst => ?_⟩
    simp only [hres, PollResult.newComps] at hone
    have hlen : statuses.tail.length = 0 := by
      rw [List.length_tail]
      omega
    rw [List.eq_nil_of_length_eq_zero hlen] at hst
    cases hst

end RdmaBench.Libhrd.PollCq
