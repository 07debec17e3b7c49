import Mathlib.Tactic

/-! # Threads that share a lock and a counter

Every thread is at some place of its code. At some places it holds a lock, of
which only one bit is kept; at some it has a ticket, a number that it took from a
counter. What one thread's step does to the lock and to the tickets is said here
once for all programs. -/

namespace RdmaBench.Lib.Threads

variable {T L : Type*} [DecidableEq T] {pc : T → L} {t : T} {l : L}

/-! ## A lock -/

/-- The lock is taken if and only if a thread holds it, and then only one does. -/
structure Owned (holds : L → Prop) (locked : Bool) (pc : T → L) : Prop where
  locked_iff : locked = true ↔ ∃ t, holds (pc t)
  unique : ∀ t u, holds (pc t) → holds (pc u) → t = u

variable {holds : L → Prop} {locked : Bool}

omit [DecidableEq T] in
theorem Owned.not_holds (h : Owned holds false pc) (t : T) : ¬holds (pc t) := by
  intro ht
  cases h.locked_iff.mpr ⟨t, ht⟩

omit [DecidableEq T] in
theorem owned_start (h : ∀ t, ¬holds (pc t)) : Owned holds false pc := by
  refine ⟨⟨fun hf => Bool.noConfusion hf, ?_⟩, fun t u ht _ => absurd ht (h t)⟩
  intro he
  obtain ⟨t, ht⟩ := he
  exact absurd ht (h t)

/-- A step that has nothing to do with the lock. -/
theorem Owned.keep (h : Owned holds locked pc) (hl : holds l ↔ holds (pc t)) :
    Owned holds locked (Function.update pc t l) := by
  have hsame : ∀ u, holds (Function.update pc t l u) ↔ holds (pc u) := by
    intro u
    by_cases hu : u = t
    · rw [hu, Function.update_self, hl]
    · rw [Function.update_of_ne hu]
  exact ⟨by simp only [hsame, h.locked_iff], fun t u => by simpa only [hsame] using h.unique t u⟩

theorem Owned.acquire (h : Owned holds false pc) (hl : holds l) :
    Owned holds true (Function.update pc t l) := by
  have honly : ∀ u, holds (Function.update pc t l u) → u = t := by
    intro u hu
    by_contra hne
    rw [Function.update_of_ne hne] at hu
    exact h.not_holds u hu
  refine ⟨⟨fun _ => ⟨t, ?_⟩, fun _ => rfl⟩, fun u v hu hv => (honly u hu).trans (honly v hv).symm⟩
  rwa [Function.update_self]

/-- When its owner goes on without it, no thread holds the lock. -/
theorem Owned.abandon (h : Owned holds locked pc) (ht : holds (pc t)) (hl : ¬holds l) (u : T) :
    ¬holds (Function.update pc t l u) := by
  by_cases hu : u = t
  · rwa [hu, Function.update_self]
  · rw [Function.update_of_ne hu]
    exact fun hh => hu (h.unique u t hh ht)

theorem Owned.release (h : Owned holds locked pc) (ht : holds (pc t)) (hl : ¬holds l) :
    Owned holds false (Function.update pc t l) :=
  owned_start (h.abandon ht hl)

/-! ## Tickets -/

/-- The tickets given out are below the counter, and no two are the same: neither
those that threads have, nor those they have turned in. -/
structure Tickets (ticket : L → Option Nat) (next : Nat) (done : List Nat) (pc : T → L) :
    Prop where
  nodup : done.Nodup
  done_lt : ∀ i ∈ done, i < next
  held_lt : ∀ t i, ticket (pc t) = some i → i < next
  held_fresh : ∀ t i, ticket (pc t) = some i → i ∉ done
  distinct : ∀ t u i, ticket (pc t) = some i → ticket (pc u) = some i → t = u

variable {ticket : L → Option Nat} {next : Nat} {done : List Nat}

omit [DecidableEq T] in
theorem tickets_start (h : ∀ t, ticket (pc t) = none) : Tickets ticket next [] pc := by
  have hnone : ∀ t i, ticket (pc t) ≠ some i := by
    intro t i hi
    rw [h t] at hi
    cases hi
  exact ⟨List.nodup_nil, fun _ hi => absurd hi List.not_mem_nil,
    fun t i hi => absurd hi (hnone t i), fun t i hi => absurd hi (hnone t i),
    fun t _ i hi => absurd hi (hnone t i)⟩

/-- A thread keeps its ticket or throws it away. -/
theorem Tickets.keep (h : Tickets ticket next done pc)
    (hl : ∀ i, ticket l = some i → ticket (pc t) = some i) :
    Tickets ticket next done (Function.update pc t l) := by
  have hold : ∀ u i, ticket (Function.update pc t l u) = some i → ticket (pc u) = some i := by
    intro u i hu
    by_cases he : u = t
    · rw [he, Function.update_self] at hu
      rw [he]
      exact hl i hu
    · rwa [Function.update_of_ne he] at hu
  exact ⟨h.nodup, h.done_lt, fun u i hu => h.held_lt u i (hold u i hu),
    fun u i hu => h.held_fresh u i (hold u i hu),
    fun u v i hu hv => h.distinct u v i (hold u i hu) (hold v i hv)⟩

theorem Tickets.take (h : Tickets ticket next done pc) (hl : ticket l = some next) :
    Tickets ticket (next + 1) done (Function.update pc t l) := by
  have hold : ∀ u i, ticket (Function.update pc t l u) = some i →
      u = t ∧ i = next ∨ u ≠ t ∧ ticket (pc u) = some i := by
    intro u i hu
    by_cases he : u = t
    · rw [he, Function.update_self, hl] at hu
      exact .inl ⟨he, (Option.some.inj hu).symm⟩
    · rw [Function.update_of_ne he] at hu
      exact .inr ⟨he, hu⟩
  refine ⟨h.nodup, fun i hi => Nat.lt_succ_of_lt (h.done_lt i hi), ?_, ?_, ?_⟩
  · intro u i hu
    obtain ⟨-, rfl⟩ | ⟨-, hu⟩ := hold u i hu
    · exact Nat.lt_succ_self i
    · exact Nat.lt_succ_of_lt (h.held_lt u i hu)
  · intro u i hu
    obtain ⟨-, rfl⟩ | ⟨-, hu⟩ := hold u i hu
    · exact fun hi => Nat.lt_irrefl i (h.done_lt i hi)
    · exact h.held_fresh u i hu
  · intro u v i hu hv
    obtain ⟨rfl, rfl⟩ | ⟨-, hu⟩ := hold u i hu
    · obtain ⟨rfl, -⟩ | ⟨-, hv⟩ := hold v i hv
      · rfl
      · exact absurd (h.held_lt v i hv) (Nat.lt_irrefl i)
    · obtain ⟨-, rfl⟩ | ⟨-, hv⟩ := hold v i hv
      · exact absurd (h.held_lt u i hu) (Nat.lt_irrefl i)
      · exact h.distinct u v i hu hv

/-- A thread turns its ticket in. -/
theorem Tickets.finish (h : Tickets ticket next done pc) {i : Nat} (ht : ticket (pc t) = some i)
    (hl : ticket l = none) : Tickets ticket next (done ++ [i]) (Function.update pc t l) := by
  have hold : ∀ u j, ticket (Function.update pc t l u) = some j →
      u ≠ t ∧ ticket (pc u) = some j := by
    intro u j hu
    by_cases he : u = t
    · rw [he, Function.update_self, hl] at hu
      cases hu
    · rw [Function.update_of_ne he] at hu
      exact ⟨he, hu⟩
  refine ⟨?_, ?_, fun u j hu => h.held_lt u j (hold u j hu).2, ?_,
    fun u v j hu hv => h.distinct u v j (hold u j hu).2 (hold v j hv).2⟩
  · rw [← List.concat_eq_append]
    exact h.nodup.concat (h.held_fresh t i ht)
  · intro j hj
    obtain hj | hj := List.mem_append.mp hj
    · exact h.done_lt j hj
    · rw [List.mem_singleton.mp hj]
      exact h.held_lt t i ht
  · intro u j hu hj
    obtain ⟨hne, hu⟩ := hold u j hu
    obtain hj | hj := List.mem_append.mp hj
    · exact h.held_fresh u j hu hj
    · rw [List.mem_singleton.mp hj] at hu
      exact hne (h.distinct u t i hu ht)

end RdmaBench.Lib.Threads
