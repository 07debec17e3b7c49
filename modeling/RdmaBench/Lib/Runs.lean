import Mathlib.Tactic

/-! # Runs of a transition system

A system has initial states and labelled steps. What one step preserves holds
in every state a run reaches. -/

namespace RdmaBench.Lib.Runs

variable {σ ε : Type*}

structure System (σ ε : Type*) where
  init : σ → Prop
  step : σ → ε → σ → Prop

/-- The states that runs from an initial state reach. -/
inductive Reachable (S : System σ ε) : σ → Prop where
  | init {s : σ} : S.init s → Reachable S s
  | step {s t : σ} {e : ε} : Reachable S s → S.step s e t → Reachable S t

/-- An invariant of the initial states and of every step from a reachable
state holds in every reachable state. -/
theorem Reachable.invariant {S : System σ ε} {P : σ → Prop} (hi : ∀ s, S.init s → P s)
    (hs : ∀ s e t, Reachable S s → P s → S.step s e t → P t) {s : σ} (h : Reachable S s) : P s := by
  induction h with
  | init h0 => exact hi _ h0
  | step hr hstep ih => exact hs _ _ _ hr ih hstep

/-- A system with more steps reaches more states. -/
theorem Reachable.mono {S T : System σ ε} {s : σ} (h : Reachable S s)
    (hi : ∀ s, S.init s → T.init s) (hs : ∀ s e t, S.step s e t → T.step s e t) :
    Reachable T s := by
  induction h with
  | init h0 => exact .init (hi _ h0)
  | step _ hstep ih => exact .step ih (hs _ _ _ hstep)

/-- From every state with `P` one with `Q` can be reached, if a measure goes down
on the way until there. -/
theorem reach_of_measure {R : σ → σ → Prop} {P Q : σ → Prop} (m : σ → Nat)
    (hstep : ∀ s, P s → ¬Q s → ∃ t, Relation.ReflTransGen R s t ∧ P t ∧ (Q t ∨ m t < m s)) {s : σ}
    (h : P s) : ∃ t, Relation.ReflTransGen R s t ∧ P t ∧ Q t := by
  induction hn : m s using Nat.strong_induction_on generalizing s with
  | _ n ih =>
    by_cases hq : Q s
    · exact ⟨s, .refl, h, hq⟩
    · obtain ⟨t, hst, ht, hdone | hlt⟩ := hstep s h hq
      · exact ⟨t, hst, ht, hdone⟩
      · obtain ⟨u, htu, hu⟩ := ih (m t) (hn ▸ hlt) ht rfl
        exact ⟨u, hst.trans htu, hu⟩

/-- A list of events replayed by a function that only makes steps of the system. -/
theorem Reachable.foldlM {S : System σ ε} {f : σ → ε → Option σ}
    (hf : ∀ s e t, f s e = some t → S.step s e t) {es : List ε} {s t : σ} (h : Reachable S s)
    (hr : es.foldlM f s = some t) : Reachable S t := by
  induction es generalizing s with
  | nil =>
    cases hr
    exact h
  | cons e es ih =>
    rw [List.foldlM_cons] at hr
    obtain ⟨u, hu, hr⟩ := Option.bind_eq_some_iff.mp hr
    exact ih (.step h (hf s e u hu)) hr

/-- A replay from an initial state finds a reachable state with what it tests
for. -/
theorem exists_reachable {S : System σ ε} {f : σ → ε → Option σ}
    (hf : ∀ s e t, f s e = some t → S.step s e t) {start : Option σ}
    (hi : ∀ s, start = some s → S.init s) (es : List ε) (p : σ → Bool)
    (h : (start.bind fun s => es.foldlM f s).any p = true) : ∃ t, Reachable S t ∧ p t = true := by
  obtain ⟨t, ht, hp⟩ := (Option.any_eq_true _ _).mp h
  obtain ⟨s, hs, ht⟩ := Option.bind_eq_some_iff.mp ht
  exact ⟨t, Reachable.foldlM hf (.init (hi s hs)) ht, hp⟩

/-- A stretch of a run, with every step and the state it starts from. -/
inductive Trace (S : System σ ε) (s : σ) : List (σ × ε) → σ → Prop where
  | nil : Trace S s [] s
  | snoc {l : List (σ × ε)} {t u : σ} {e : ε} :
    Trace S s l t → S.step t e u → Trace S s (l ++ [(t, e)]) u

end RdmaBench.Lib.Runs
