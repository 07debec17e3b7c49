import RdmaBench.Lib.Runs
import RdmaBench.Lib.Threads

/-! # Statistics indices in the instrumented driver

Every queue pair gets an index into the statistics from a global counter, which a
spinlock protects. `create_qp` takes the index before it makes most of its checks,
and does not give it back when one of them fails. There are 128 indices. The call
that finds none left returns from the middle of the critical section, and the lock
stays taken. Printing the statistics takes the same lock. Calls of any number of
threads are interleaved. -/

namespace RdmaBench.Mlx5.CreateQp
open RdmaBench.Lib.Runs RdmaBench.Lib.Threads

def mlx5HrdMaxQps : Nat := 128

/-! ## Calls -/

/-- The checks that `create_qp` makes after it has an index. All of them end in
`return NULL`. -/
inductive Check where
  | rxHashAttr | rxHashCmd | inlKlmsWithoutUmr | umrWithoutInlKlms | maxSendSge | maxInlSendKlms
  | calcWqSize | allocQpBuf | lockInit | allocDbrec | storeUidx | cmdCreateQp | storeRsc
deriving DecidableEq

/-- What becomes of a call of `create_qp` as far as the index does not decide it. -/
inductive Fate where
  | noMemory
  | fails (c : Check)
  | succeeds
deriving DecidableEq

/-- `mlx5_detach_mcast` prints the statistics if it is called without a group and
with the LID `0xffff`. -/
inductive Call where
  | createQp (fate : Fate)
  | detachMcast (gidNull : Bool) (lid : UInt16)

/-- Where a thread is. In `create` and `print` it waits for the lock, in `index`,
`unlock` and `printing` it has it. -/
inductive Pc where
  | idle
  | create (fate : Fate)
  | index (fate : Fate)
  | unlock (fate : Fate) (qpIndex : Nat)
  | checks (fate : Fate) (qpIndex : Nat)
  | print
  | printing
deriving DecidableEq

/-- `created` has the indices of the queue pairs that were returned, and `checked`
counts the calls of `create_qp` that have compared their index with the limit. -/
structure State (T : Type) where
  pc : T → Pc
  locked : Bool
  globalQpIndex : Nat
  created : List Nat
  checked : Nat

variable {T : Type} [DecidableEq T]

def State.goto (s : State T) (t : T) (p : Pc) : State T :=
  { s with pc := Function.update s.pc t p }

/-! ## Steps -/

/-- A thread calls the driver. -/
def call (s : State T) (t : T) (c : Call) : Option (State T) :=
  if s.pc t = .idle then
    match c with
    | .createQp .noMemory => some s
    | .createQp fate => some (s.goto t (.create fate))
    | .detachMcast gidNull lid =>
      if gidNull ∧ lid = 0xffff then some (s.goto t .print) else some s
  else none

/-- `mlx5_spin_lock` at the place `p`. A thread that waits does not move. -/
def lockAt (s : State T) (t : T) (p : Pc) : Option (State T) :=
  if s.locked then none else some { s.goto t p with locked := true }

/-- The next step of a thread in a call. -/
def advance (s : State T) (t : T) : Option (State T) :=
  match s.pc t with
  | .idle => none
  | .create fate => lockAt s t (.index fate)
  | .index fate =>
    let s := { s with checked := s.checked + 1 }
    -- the return that does not unlock
    if mlx5HrdMaxQps ≤ s.globalQpIndex then some (s.goto t .idle)
    else some { s.goto t (.unlock fate s.globalQpIndex) with
      globalQpIndex := s.globalQpIndex + 1 }
  | .unlock fate qpIndex => some { s.goto t (.checks fate qpIndex) with locked := false }
  | .checks fate qpIndex =>
    if fate = .succeeds then some { s.goto t .idle with created := s.created ++ [qpIndex] }
    else some (s.goto t .idle)
  | .print => lockAt s t .printing
  | .printing => some { s.goto t .idle with locked := false }

inductive Event (T : Type) where
  | call (t : T) (c : Call)
  | advance (t : T)

def driver : System (State T) (Event T) where
  init s := s = ⟨fun _ => .idle, false, 0, [], 0⟩
  step s e s' := match e with
    | .call t c => call s t c = some s'
    | .advance t => advance s t = some s'

/-! ## The lock and the indices -/

def Holds : Pc → Prop
  | .index _ | .unlock _ _ | .printing => True
  | _ => False

def ticket : Pc → Option Nat
  | .unlock _ qpIndex | .checks _ qpIndex => some qpIndex
  | _ => none

/-- While there are indices the lock has an owner; afterwards it is taken, and
nobody's. -/
structure Inv (s : State T) : Prop where
  index : s.globalQpIndex = min s.checked mlx5HrdMaxQps
  tickets : Tickets ticket s.globalQpIndex s.created s.pc
  owned : s.checked ≤ mlx5HrdMaxQps → Owned Holds s.locked s.pc
  lost : mlx5HrdMaxQps < s.checked → s.locked = true ∧ ∀ t, ¬Holds (s.pc t)

variable {s s' : State T} {t : T} {p : Pc}

/-- A step that leaves everything but the place of the thread as it is. -/
theorem Inv.goto (h : Inv s) (hh : Holds p ↔ Holds (s.pc t))
    (ht : ∀ i, ticket p = some i → ticket (s.pc t) = some i) : Inv (s.goto t p) := by
  refine ⟨h.index, h.tickets.keep ht, fun hc => (h.owned hc).keep hh, ?_⟩
  intro hc
  obtain ⟨hlocked, hnone⟩ := h.lost hc
  refine ⟨hlocked, fun u => ?_⟩
  by_cases hu : u = t
  · rw [hu]
    simp only [State.goto, Function.update_self, hh]
    exact hnone t
  · simp only [State.goto, Function.update_of_ne hu]
    exact hnone u

theorem Inv.lockAt (h : Inv s) (hp : Holds p) (ht : ticket p = none)
    (hstep : lockAt s t p = some s') : Inv s' := by
  unfold CreateQp.lockAt at hstep
  split at hstep
  · cases hstep
  · rename_i hfree
    cases hstep
    have hfree : s.locked = false := by simpa using hfree
    refine ⟨h.index, h.tickets.keep (fun i hi => by rw [ht] at hi; cases hi), fun hc => ?_,
      fun hc => ?_⟩
    · have howned := h.owned hc
      rw [hfree] at howned
      exact howned.acquire hp
    · have hlocked := (h.lost hc).1
      rw [hfree] at hlocked
      cases hlocked

omit [DecidableEq T] in
/-- A thread that holds the lock is not one of a time after the last index. -/
theorem Inv.checked_le (h : Inv s) (ht : Holds (s.pc t)) : s.checked ≤ mlx5HrdMaxQps := by
  by_contra hc
  exact (h.lost (not_le.mp hc)).2 t ht

theorem Inv.release (h : Inv s) (hold : Holds (s.pc t)) (hp : ¬Holds p)
    (ht : ∀ i, ticket p = some i → ticket (s.pc t) = some i) :
    Inv { s.goto t p with locked := false } := by
  have hc := h.checked_le hold
  exact ⟨h.index, h.tickets.keep ht, fun _ => (h.owned hc).release hold hp,
    fun hlost => absurd hlost (not_lt.mpr hc)⟩

/-- The comparison with the limit. -/
theorem Inv.takeIndex (h : Inv s) {fate : Fate} (hpc : s.pc t = .index fate)
    (hlt : s.globalQpIndex < mlx5HrdMaxQps) :
    Inv { s.goto t (.unlock fate s.globalQpIndex) with
      checked := s.checked + 1, globalQpIndex := s.globalQpIndex + 1 } := by
  have hindex := h.index
  have hc : s.checked < mlx5HrdMaxQps := by omega
  refine ⟨by simp only; omega, h.tickets.take rfl, fun _ => ?_, fun hlost => ?_⟩
  · refine (h.owned hc.le).keep ?_
    rw [hpc]
    exact Iff.rfl
  · simp only at hlost
    omega

theorem Inv.refuse (h : Inv s) {fate : Fate} (hpc : s.pc t = .index fate)
    (hge : mlx5HrdMaxQps ≤ s.globalQpIndex) :
    Inv { s.goto t .idle with checked := s.checked + 1 } := by
  have hold : Holds (s.pc t) := by
    rw [hpc]
    trivial
  have hc := h.checked_le hold
  have hindex := h.index
  have howned := h.owned hc
  refine ⟨by simp only [State.goto]; omega, h.tickets.keep (fun i hi => by cases hi), ?_, ?_⟩
  · intro hle
    simp only at hle
    omega
  · exact fun _ => ⟨howned.locked_iff.mpr ⟨t, hold⟩, howned.abandon hold id⟩

theorem Inv.finish (h : Inv s) {fate : Fate} {i : Nat} (hpc : s.pc t = .checks fate i) :
    Inv { s.goto t .idle with created := s.created ++ [i] } := by
  have hgoto := h.goto (t := t) (p := .idle) (by rw [hpc]; exact Iff.rfl)
    (fun i hi => by cases hi)
  exact ⟨hgoto.index, h.tickets.finish (by rw [hpc]; rfl) rfl, hgoto.owned, hgoto.lost⟩

theorem call_inv (h : Inv s) {c : Call} (hstep : call s t c = some s') : Inv s' := by
  unfold call at hstep
  split at hstep
  · rename_i hpc
    have hgoto : ∀ p, ¬Holds p → ticket p = none → Inv (s.goto t p) := by
      intro p hp ht
      refine h.goto ?_ (fun i hi => by rw [ht] at hi; cases hi)
      rw [hpc]
      exact ⟨fun hh => absurd hh hp, False.elim⟩
    cases c with
    | createQp fate =>
      cases fate with
      | noMemory =>
        cases hstep
        exact h
      | fails c =>
        cases hstep
        exact hgoto _ id rfl
      | succeeds =>
        cases hstep
        exact hgoto _ id rfl
    | detachMcast gidNull lid =>
      simp only at hstep
      split at hstep
      · cases hstep
        exact hgoto _ id rfl
      · cases hstep
        exact h
  · cases hstep

theorem advance_inv (h : Inv s) (hstep : advance s t = some s') : Inv s' := by
  unfold advance at hstep
  split at hstep
  case h_1 => cases hstep
  case h_2 fate hpc => exact h.lockAt (p := .index fate) trivial rfl hstep
  case h_3 fate hpc =>
    simp only at hstep
    split at hstep
    · rename_i hge
      cases hstep
      exact h.refuse hpc hge
    · rename_i hlt
      cases hstep
      exact h.takeIndex hpc (not_le.mp hlt)
  case h_4 fate i hpc =>
    cases hstep
    exact h.release (by rw [hpc]; trivial) id (fun j hj => by rw [hpc]; exact hj)
  case h_5 fate i hpc =>
    split at hstep
    · cases hstep
      exact h.finish hpc
    · cases hstep
      exact h.goto (by rw [hpc]; exact Iff.rfl) (fun j hj => by cases hj)
  case h_6 hpc => exact h.lockAt (p := .printing) trivial rfl hstep
  case h_7 hpc =>
    cases hstep
    exact h.release (by rw [hpc]; trivial) id (fun j hj => by cases hj)

theorem reachable_inv (h : Reachable driver s) : Inv s := by
  refine h.invariant (P := Inv) (fun s hs => ?_) (fun s e s' _ ih hstep => ?_)
  · rw [show s = _ from hs]
    refine ⟨rfl, tickets_start fun _ => rfl, fun _ => owned_start fun _ => id, ?_⟩
    intro hc
    cases hc
  · cases e with
    | call t c => exact call_inv ih hstep
    | advance t => exact advance_inv ih hstep

/-! ## The last index -/

/-- In every run of any threads the queue pairs that were created have different
indices below the limit. The lock is only taken by a call in progress, and so is
free when there is none, if and only if at most 128 calls have asked for an index. -/
theorem lock_released_iff (h : Reachable driver s) :
    s.created.Nodup ∧ (∀ i ∈ s.created, i < mlx5HrdMaxQps) ∧
      ((s.locked = true → ∃ t, Holds (s.pc t)) ↔ s.checked ≤ mlx5HrdMaxQps) ∧
      ((∀ t, s.pc t = .idle) → (s.locked = false ↔ s.checked ≤ mlx5HrdMaxQps)) := by
  have hinv := reachable_inv h
  have hindex := hinv.index
  have hheld : (s.locked = true → ∃ t, Holds (s.pc t)) ↔ s.checked ≤ mlx5HrdMaxQps := by
    constructor
    · intro hheld
      by_contra hc
      obtain ⟨hlocked, hnone⟩ := hinv.lost (not_le.mp hc)
      obtain ⟨t, ht⟩ := hheld hlocked
      exact hnone t ht
    · exact fun hc => (hinv.owned hc).locked_iff.mp
  refine ⟨hinv.tickets.nodup, fun i hi => ?_, hheld, fun hidle => ?_⟩
  · have hlt := hinv.tickets.done_lt i hi
    omega
  · rw [← hheld]
    have hnone : ¬∃ t, Holds (s.pc t) := by
      intro he
      obtain ⟨t, ht⟩ := he
      rw [hidle t] at ht
      exact ht
    cases s.locked <;> simp [hnone]

/-- After `n` creations, with nothing going on. -/
def quiet (n : Nat) : State T := ⟨fun _ => .idle, false, n, List.range n, n⟩

/-- The same with one thread in a call. -/
def during (n : Nat) (t : T) (p : Pc) (locked : Bool) : State T :=
  { (quiet n).goto t p with locked := locked }

theorem reachable_during (t : T) {n : Nat} (h : Reachable driver (quiet n : State T)) :
    Reachable driver (during n t (.index .succeeds) true) := by
  have hcall : Reachable driver (during n t (.create .succeeds) false) :=
    h.step (e := .call t (.createQp .succeeds)) rfl
  refine hcall.step (e := .advance t) ?_
  simp [driver, advance, during, quiet, State.goto, lockAt]

theorem reachable_quiet (t : T) {n : Nat} (hn : n ≤ mlx5HrdMaxQps) :
    Reachable driver (quiet n : State T) := by
  induction n with
  | zero => exact .init rfl
  | succ n ih =>
    have hlt : ¬mlx5HrdMaxQps ≤ n := by omega
    have hunlock := (reachable_during t (ih (by omega))).step (e := .advance t)
      (t := { (quiet n).goto t (.unlock .succeeds n) with
        locked := true, globalQpIndex := n + 1, checked := n + 1 })
      (by simp [driver, advance, during, quiet, State.goto, hlt])
    have hchecks := hunlock.step (e := .advance t)
      (t := { (quiet n).goto t (.checks .succeeds n) with
        globalQpIndex := n + 1, checked := n + 1 })
      (by simp [driver, advance, quiet, State.goto])
    refine hchecks.step (e := .advance t) ?_
    simp [driver, advance, quiet, State.goto, List.range_succ]

/-- All indices have been given out, and a call is in the critical section before that. -/
theorem lock_released_all : ∃ s s' : State Unit,
    Reachable driver s ∧ s.created = List.range 128 ∧ s.created.Nodup ∧ s.locked = false ∧
    Reachable driver s' ∧ s'.checked = 127 ∧ s'.locked = true ∧ ∃ t, Holds (s'.pc t) := by
  have hall : Reachable driver (quiet 128 : State Unit) := reachable_quiet () (by decide)
  have hcall : Reachable driver (during 127 () (.index .succeeds) true) :=
    reachable_during () (reachable_quiet () (by decide))
  obtain ⟨hnodup, -, -, hreleased⟩ := lock_released_iff hall
  obtain ⟨-, -, hheld, -⟩ := lock_released_iff hcall
  exact ⟨_, _, hall, rfl, hnodup, (hreleased fun _ => rfl).mpr (by decide), hcall, rfl, rfl,
    hheld.mpr (show 127 ≤ 128 by decide) rfl⟩

/-- The 129th creation returns with the lock taken, and the next dump hangs. -/
theorem lock_kept : ∃ s : State Unit, Reachable driver s ∧ (∀ t, s.pc t = .idle) ∧
    s.created = List.range 128 ∧ s.locked = true ∧
    ∃ s', call s () (.detachMcast true 0xffff) = some s' ∧ advance s' () = none := by
  have hfull : Reachable driver (quiet 128 : State Unit) := reachable_quiet () (le_refl _)
  have hrefused := (reachable_during () hfull).step (e := .advance ())
    (t := { quiet 128 with locked := true, checked := 129 })
    (by simp [driver, advance, during, quiet, State.goto, mlx5HrdMaxQps])
  exact ⟨_, hrefused, fun _ => rfl, rfl, rfl, _, rfl, rfl⟩

/-! ## Calls that wait -/

def Waits : Pc → Prop
  | .create _ | .print => True
  | _ => False

/-- Only the thread `u` has moved. -/
structure Moves (u : T) (s s' : State T) : Prop where
  checked_le : s.checked ≤ s'.checked
  frame : ∀ t, t ≠ u → s'.pc t = s.pc t

theorem moves_goto {u : T} (hc : s.checked ≤ s'.checked)
    (hpc : s'.pc = Function.update s.pc u p) : Moves u s s' := by
  refine ⟨hc, fun t ht => ?_⟩
  rw [hpc, Function.update_of_ne ht]

theorem call_moves {u : T} {c : Call} (h : call s u c = some s') : Moves u s s' := by
  unfold call at h
  split at h
  · split at h
    · cases h
      exact ⟨le_refl _, fun _ _ => rfl⟩
    · cases h
      exact moves_goto (le_refl _) rfl
    · split at h
      · cases h
        exact moves_goto (le_refl _) rfl
      · cases h
        exact ⟨le_refl _, fun _ _ => rfl⟩
  · cases h

theorem lockAt_moves {u : T} (h : lockAt s u p = some s') : Moves u s s' := by
  unfold lockAt at h
  split at h
  · cases h
  · cases h
    exact moves_goto (le_refl _) rfl

theorem advance_moves {u : T} (h : advance s u = some s') : Moves u s s' := by
  unfold advance at h
  split at h
  case h_1 => cases h
  case h_2 fate _ => exact lockAt_moves h
  case h_3 fate _ =>
    simp only at h
    split at h
    · cases h
      exact moves_goto (Nat.le_succ _) rfl
    · cases h
      exact moves_goto (Nat.le_succ _) rfl
  case h_4 fate i _ =>
    cases h
    exact moves_goto (le_refl _) rfl
  case h_5 fate i _ =>
    split at h
    · cases h
      exact moves_goto (le_refl _) rfl
    · cases h
      exact moves_goto (le_refl _) rfl
  case h_6 => exact lockAt_moves h
  case h_7 =>
    cases h
    exact moves_goto (le_refl _) rfl

theorem waits_advance (h : Waits (s.pc t)) (hlocked : s.locked = true) : advance s t = none := by
  cases hpc : s.pc t with
  | create fate => simp [advance, hpc, lockAt, hlocked]
  | print => simp [advance, hpc, lockAt, hlocked]
  | _ =>
    rw [hpc] at h
    exact h.elim

theorem refused_step (h : Reachable driver s) (hc : mlx5HrdMaxQps < s.checked)
    (ht : Waits (s.pc t)) {e : Event T} (hstep : driver.step s e s') :
    mlx5HrdMaxQps < s'.checked ∧ s'.pc t = s.pc t := by
  have hlocked := ((reachable_inv h).lost hc).1
  cases e with
  | call u c =>
    have hmoves := call_moves hstep
    refine ⟨lt_of_lt_of_le hc hmoves.checked_le, hmoves.frame t ?_⟩
    rintro rfl
    replace hstep : call s t c = some s' := hstep
    unfold call at hstep
    split at hstep
    · rename_i hpc
      rw [hpc] at ht
      exact ht
    · cases hstep
  | advance u =>
    have hmoves := advance_moves hstep
    refine ⟨lt_of_lt_of_le hc hmoves.checked_le, hmoves.frame t ?_⟩
    rintro rfl
    exact absurd hstep (by simp [driver, waits_advance ht hlocked])

/-- After the call that found no index, every call that needs the lock waits for
ever, creations and dumps alike. -/
theorem refused_hangs (h : Reachable driver s) (hc : mlx5HrdMaxQps < s.checked)
    (ht : Waits (s.pc t)) (hrun : Relation.ReflTransGen (fun a b => ∃ e, driver.step a e b) s s') :
    s'.pc t = s.pc t := by
  have hkeep : Reachable driver s' ∧ mlx5HrdMaxQps < s'.checked ∧ s'.pc t = s.pc t := by
    induction hrun with
    | refl => exact ⟨h, hc, rfl⟩
    | tail _ hstep ih =>
      obtain ⟨e, hstep⟩ := hstep
      obtain ⟨hreach, hlost, hpc⟩ := ih
      obtain ⟨hlost, hsame⟩ := refused_step hreach hlost (by rwa [hpc]) hstep
      exact ⟨hreach.step hstep, hlost, hsame.trans hpc⟩
  exact hkeep.2.2

end RdmaBench.Mlx5.CreateQp
