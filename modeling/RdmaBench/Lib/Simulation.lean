import RdmaBench.Lib.Runs

/-! # Runs with their labels, and simulation

The labels of a run are what can be seen of it: the events with their results. A
system is simulated by another one if every step of a related state can be matched
by a step with the same label; the other system then has every run of labels that
the first one has. -/

namespace RdmaBench.Lib.Simulation
open RdmaBench.Lib.Runs

variable {σ τ ε : Type*}

/-- A run from an initial state, with its labels. -/
inductive Run (S : System σ ε) : List ε → σ → Prop where
  | nil {s : σ} : S.init s → Run S [] s
  | snoc {l : List ε} {s t : σ} {e : ε} : Run S l s → S.step s e t → Run S (l ++ [e]) t

theorem Run.reachable {S : System σ ε} {l : List ε} {s : σ} (h : Run S l s) : Reachable S s := by
  induction h with
  | nil h0 => exact .init h0
  | snoc _ hstep ih => exact .step ih hstep

/-- The steps that keep to `P`. -/
def only (S : System σ ε) (P : σ → ε → Prop) : System σ ε where
  init := S.init
  step s e t := P s e ∧ S.step s e t

theorem Run.only {S : System σ ε} {P : σ → ε → Prop} {l : List ε} {s : σ} (h : Run S l s)
    (hP : ∀ e ∈ l, ∀ s, P s e) : Run (only S P) l s := by
  induction h with
  | nil h0 => exact .nil h0
  | snoc _ hstep ih =>
    have hlast := hP _ (List.mem_append_right _ (List.mem_singleton_self _))
    exact .snoc (ih fun e he => hP e (List.mem_append_left _ he)) ⟨hlast _, hstep⟩

/-- The states of `S` that are related to a state of `T` take only steps that `T`
can take as well. -/
structure Simulates (S : System σ ε) (T : System τ ε) (R : σ → τ → Prop) : Prop where
  init : ∀ s, S.init s → ∃ t, T.init t ∧ R s t
  step : ∀ s e s' t, S.step s e s' → R s t → ∃ t', T.step t e t' ∧ R s' t'

/-- Every run of the simulated system is one of the other, with the same labels. -/
theorem Simulates.run {S : System σ ε} {T : System τ ε} {R : σ → τ → Prop}
    (h : Simulates S T R) {l : List ε} {s : σ} (hrun : Run S l s) : ∃ t, Run T l t ∧ R s t := by
  induction hrun with
  | nil h0 =>
    obtain ⟨t, ht, hR⟩ := h.init _ h0
    exact ⟨t, .nil ht, hR⟩
  | snoc _ hstep ih =>
    obtain ⟨t, ht, hR⟩ := ih
    obtain ⟨t', hstep', hR'⟩ := h.step _ _ _ _ hstep hR
    exact ⟨t', .snoc ht hstep', hR'⟩

end RdmaBench.Lib.Simulation
