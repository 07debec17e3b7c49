import Mathlib.Data.Finset.Card
import Mathlib.Data.Finset.Filter
import Mathlib.Data.Finset.Range
import Mathlib.Tactic.Common

/-! # Pages that live as long as they have entries

A page has cells for entries and counts the entries that it has. Its cells are
allocated with the first entry and freed with the last one, so that the count alone
decides whether the cells may be touched. -/

namespace RdmaBench.Lib.Paged

variable {R : Type*}

/-- Cells that are not allocated, or a page that there is not. -/
inductive Fault where
  | freed | outOfBounds
deriving DecidableEq

structure Page (R : Type*) where
  count : Int
  cells : Option (Nat → Option R)

def Page.empty : Page R := ⟨0, none⟩

def Page.find (p : Page R) (i : Nat) : Except Fault (Option R) :=
  if p.count = 0 then .ok none
  else
    match p.cells with
    | none => .error .freed
    | some f => .ok (f i)

/-- `none` if there is no memory for the cells. -/
def Page.store (p : Page R) (i : Nat) (r : R) (alloc : Bool) : Except Fault (Option (Page R)) :=
  if p.count = 0 then
    if alloc then .ok (some ⟨p.count + 1, some (Function.update (fun _ => none) i (some r))⟩)
    else .ok none
  else
    match p.cells with
    | none => .error .freed
    | some f => .ok (some ⟨p.count + 1, some (Function.update f i (some r))⟩)

def Page.clear (p : Page R) (i : Nat) : Except Fault (Page R) :=
  match p.cells with
  | none => .error .freed
  | some f =>
    if p.count - 1 = 0 then .ok ⟨p.count - 1, none⟩
    else .ok ⟨p.count - 1, some (Function.update f i none)⟩

/-- The first of `n` cells from `i` on that is empty, or the one after them. -/
def firstEmpty (f : Nat → Option R) : Nat → Nat → Nat
  | 0, i => i
  | n + 1, i => if (f i).isNone then i else firstEmpty f n (i + 1)

/-! ## How many entries there are -/

variable {W i : Nat} {m m' : Nat → Option R} {p : Page R}

/-- The entries among the first `W`. -/
def occupied (W : Nat) (m : Nat → Option R) : Nat :=
  ((Finset.range W).filter fun i => (m i).isSome).card

theorem occupied_congr (h : ∀ i < W, m' i = m i) : occupied W m' = occupied W m := by
  unfold occupied
  congr 1
  apply Finset.filter_congr
  intro i hi
  rw [h i (Finset.mem_range.mp hi)]

theorem occupied_store (hi : i < W) (hm : m i = none) (r : R) :
    occupied W (Function.update m i (some r)) = occupied W m + 1 := by
  have hinsert : (Finset.range W).filter (fun j => (Function.update m i (some r) j).isSome) =
      insert i ((Finset.range W).filter fun j => (m j).isSome) := by
    ext j
    rcases eq_or_ne j i with rfl | hne
    · simp [hi]
    · simp [hne]
  unfold occupied
  rw [hinsert, Finset.card_insert_of_notMem (by simp [hm])]

theorem occupied_clear (hi : i < W) (hm : (m i).isSome) :
    occupied W (Function.update m i none) + 1 = occupied W m := by
  obtain ⟨r, hr⟩ := Option.isSome_iff_exists.mp hm
  have hback : Function.update (Function.update m i none) i (some r) = m := by
    rw [Function.update_idem, ← hr, Function.update_eq_self]
  rw [← occupied_store hi (Function.update_self ..) r, hback]

theorem eq_none_of_occupied (h : occupied W m = 0) (hi : i < W) : m i = none := by
  have hempty := Finset.card_eq_zero.mp h
  have hnot : i ∉ (Finset.range W).filter fun j => (m j).isSome := by rw [hempty]; simp
  simpa [hi] using hnot

theorem exists_empty (h : occupied W m < W) : ∃ i < W, m i = none := by
  by_contra hall
  have hfull : (Finset.range W).filter (fun i => (m i).isSome) = Finset.range W := by
    apply Finset.filter_true_of_mem
    intro i hi
    exact Option.isSome_iff_ne_none.mpr fun hnone => hall ⟨i, Finset.mem_range.mp hi, hnone⟩
  rw [occupied, hfull, Finset.card_range] at h
  exact Nat.lt_irrefl W h

theorem isSome_of_full (h : W ≤ occupied W m) (hi : i < W) : (m i).isSome := by
  have hall : (Finset.range W).filter (fun j => (m j).isSome) = Finset.range W :=
    Finset.eq_of_subset_of_card_le (Finset.filter_subset ..) (by rwa [Finset.card_range])
  have hmem : i ∈ (Finset.range W).filter fun j => (m j).isSome := by
    rw [hall]
    exact Finset.mem_range.mpr hi
  exact (Finset.mem_filter.mp hmem).2

theorem firstEmpty_spec {f : Nat → Option R} {n : Nat} (h : ∃ j, i ≤ j ∧ j < i + n ∧ f j = none) :
    firstEmpty f n i < i + n ∧ f (firstEmpty f n i) = none := by
  induction n generalizing i with
  | zero =>
    obtain ⟨j, hj, hj', -⟩ := h
    omega
  | succ n ih =>
    rw [firstEmpty]
    cases hf : f i with
    | none => exact ⟨by simp, by simp [hf]⟩
    | some r =>
      obtain ⟨j, hj, hj', hnone⟩ := h
      have hne : i ≠ j := by
        rintro rfl
        rw [hf] at hnone
        cases hnone
      obtain ⟨hlt, hspec⟩ := ih (i := i + 1) ⟨j, by omega, by omega, hnone⟩
      simp only [Option.isNone_some, Bool.false_eq_true, if_false]
      exact ⟨by omega, hspec⟩

/-! ## Pages and what they show -/

/-- The page has the entries of `m`. -/
structure Page.Shows (W : Nat) (p : Page R) (m : Nat → Option R) : Prop where
  count : p.count = occupied W m
  cells : p.count ≠ 0 → ∃ f, p.cells = some f ∧ ∀ i < W, f i = m i

theorem Page.Shows.congr (h : p.Shows W m) (hm : ∀ i < W, m' i = m i) : p.Shows W m' := by
  refine ⟨by rw [h.count, occupied_congr hm], fun hne => ?_⟩
  obtain ⟨f, hf, hfm⟩ := h.cells hne
  exact ⟨f, hf, fun i hi => (hfm i hi).trans (hm i hi).symm⟩

theorem shows_empty (W : Nat) : (Page.empty : Page R).Shows W fun _ => none where
  count := by simp [Page.empty, occupied]
  cells h := absurd rfl h

theorem Page.Shows.find (h : p.Shows W m) (hi : i < W) : p.find i = .ok (m i) := by
  unfold Page.find
  split
  · next hzero =>
    have hocc : occupied W m = 0 := by exact_mod_cast h.count.symm.trans hzero
    rw [eq_none_of_occupied hocc hi]
  · next hne =>
    obtain ⟨f, hf, hfm⟩ := h.cells hne
    simp only [hf, hfm i hi]

/-- A page that has entries has its cells; one without entries gets new ones. -/
theorem Page.Shows.store (h : p.Shows W m) (hi : i < W) (hm : m i = none) (r : R) (alloc : Bool) :
    (∃ p', p.store i r alloc = .ok (some p') ∧ p'.Shows W (Function.update m i (some r))) ∨
      p.store i r alloc = .ok none ∧ alloc = false := by
  have hcount : p.count + 1 = occupied W (Function.update m i (some r)) := by
    rw [occupied_store hi hm, h.count]
    rfl
  have hcells : ∀ f : Nat → Option R, (∀ j < W, f j = m j) → ∀ j < W,
      Function.update f i (some r) j = Function.update m i (some r) j := by
    intro f hf j hj
    rcases eq_or_ne j i with rfl | hne
    · rw [Function.update_self, Function.update_self]
    · rw [Function.update_of_ne hne, Function.update_of_ne hne, hf j hj]
  unfold Page.store
  split
  · next hzero =>
    have hocc : occupied W m = 0 := by exact_mod_cast h.count.symm.trans hzero
    cases alloc with
    | false => exact .inr ⟨rfl, rfl⟩
    | true =>
      refine .inl ⟨_, rfl, hcount, fun _ => ⟨_, rfl, hcells _ fun j hj => ?_⟩⟩
      exact (eq_none_of_occupied hocc hj).symm
  · next hne =>
    obtain ⟨f, hf, hfm⟩ := h.cells hne
    exact .inl ⟨_, by rw [hf], hcount, fun _ => ⟨_, rfl, hcells f hfm⟩⟩

theorem Page.Shows.clear (h : p.Shows W m) (hi : i < W) (hm : (m i).isSome) :
    ∃ p', p.clear i = .ok p' ∧ p'.Shows W (Function.update m i none) := by
  have hocc := occupied_clear hi hm
  have hcount : p.count - 1 = occupied W (Function.update m i none) := by
    rw [h.count, ← hocc]
    omega
  obtain ⟨f, hf, hfm⟩ := h.cells (by rw [h.count]; omega)
  unfold Page.clear
  rw [hf]
  simp only
  split
  · next hzero => exact ⟨_, rfl, hcount, fun hne => absurd hzero hne⟩
  · refine ⟨_, rfl, hcount, fun _ => ⟨_, rfl, fun j hj => ?_⟩⟩
    rcases eq_or_ne j i with rfl | hne
    · rw [Function.update_self, Function.update_self]
    · rw [Function.update_of_ne hne, Function.update_of_ne hne, hfm j hj]

/-! ## Tables of pages -/

variable {T : Nat → Page R} {M : Nat → Option R} {k : Nat}

/-- Entry `k` is in page `k / W`, at `k % W`. -/
def Shows (W : Nat) (T : Nat → Page R) (M : Nat → Option R) : Prop :=
  ∀ t, (T t).Shows W fun i => M (t * W + i)

theorem Shows.page (h : Shows W T M) (k : Nat) :
    (T (k / W)).Shows W (fun i => M (k / W * W + i)) ∧ M (k / W * W + k % W) = M k := by
  refine ⟨h (k / W), ?_⟩
  rw [Nat.mul_comm, Nat.div_add_mod]

/-- A page that has changed at one entry. -/
theorem Shows.update (h : Shows W T M) (hW : 0 < W) {p : Page R} {v : Option R}
    (hp : p.Shows W (Function.update (fun i => M (k / W * W + i)) (k % W) v)) :
    Shows W (Function.update T (k / W) p) (Function.update M k v) := by
  intro t
  have hkey : ∀ i < W, t * W + i = k ↔ t = k / W ∧ i = k % W := by
    intro i hi
    constructor
    · rintro rfl
      rw [Nat.mul_comm, Nat.mul_add_div hW, Nat.div_eq_of_lt hi, Nat.mul_add_mod,
        Nat.mod_eq_of_lt hi]
      exact ⟨(Nat.add_zero t).symm, rfl⟩
    · rintro ⟨rfl, rfl⟩
      rw [Nat.mul_comm, Nat.div_add_mod]
  rcases eq_or_ne t (k / W) with rfl | hne
  · rw [Function.update_self]
    refine hp.congr fun i hi => ?_
    by_cases hik : i = k % W
    · rw [(hkey i hi).mpr ⟨rfl, hik⟩, hik, Function.update_self, Function.update_self]
    · have hne : k / W * W + i ≠ k := fun heq => hik ((hkey i hi).mp heq).2
      rw [Function.update_of_ne hne, Function.update_of_ne hik]
  · rw [Function.update_of_ne hne]
    refine (h t).congr fun i hi => ?_
    have hne' : t * W + i ≠ k := fun heq => hne ((hkey i hi).mp heq).1
    rw [Function.update_of_ne hne']

end RdmaBench.Lib.Paged
