import Mathlib.Tactic

/-! # Ranks by counting down

A list of items stands for a longer one in which every item comes as often as its
weight says. A loop that counts down from `t` by the weights stops at the item
with rank `t` in the long list. If the items are the values that samples can have,
in order, and the weights say how often each one has come, the long list is the
sorted list of the samples. -/

namespace RdmaBench.Lib.Rank

variable {α : Type*} {w : α → Nat} {l : List α}

/-- Every item, as often as its weight says. -/
def copies (w : α → Nat) (l : List α) : List α := l.flatMap fun a => List.replicate (w a) a

@[simp] theorem copies_nil : copies w [] = [] := rfl

@[simp] theorem copies_cons (a : α) : copies w (a :: l) = List.replicate (w a) a ++ copies w l :=
  List.flatMap_cons

@[simp] theorem copies_append (l l' : List α) :
    copies w (l ++ l') = copies w l ++ copies w l' :=
  List.flatMap_append

theorem length_copies (w : α → Nat) (l : List α) : (copies w l).length = (l.map w).sum := by
  induction l with
  | nil => rfl
  | cons a l ih => simp [ih]

theorem sum_copies (w : Nat → Nat) (l : List Nat) :
    (copies w l).sum = (l.map fun a => w a * a).sum := by
  induction l with
  | nil => rfl
  | cons a l ih => simp [ih]

/-- Weights of 0 and 1 choose some of the items. -/
theorem copies_ite (p : α → Bool) (l : List α) :
    copies (fun a => if p a then 1 else 0) l = l.filter p := by
  induction l with
  | nil => rfl
  | cons a l ih =>
    rw [copies_cons, ih, List.filter_cons]
    split <;> rfl

/-- The first item that comes at all. -/
theorem head?_copies (w : α → Nat) (l : List α) :
    (copies w l).head? = l.find? fun a => w a ≠ 0 := by
  induction l with
  | nil => rfl
  | cons a l ih =>
    cases hw : w a with
    | zero => simp [hw, ih]
    | succ n => simp [hw, List.replicate_succ]

/-- The last one. -/
theorem getLast?_copies (w : α → Nat) (l : List α) :
    (copies w l).getLast? = l.reverse.find? fun a => w a ≠ 0 := by
  have hrev : (copies w l).reverse = copies w l.reverse := by
    induction l with
    | nil => rfl
    | cons a l ih => simp [ih]
  rw [← List.head?_reverse, hrev, head?_copies]

/-! ## Counting down -/

/-- The count that is left at the end of the list, or, as an exception, the item at
which it would have gone below zero. -/
def seek (w : α → Nat) : List α → Nat → Except α Nat
  | [], t => .ok t
  | a :: l, t => if t < w a then .error a else seek w l (t - w a)

/-- One loop after the other. -/
theorem seek_append (l l' : List α) (t : Nat) :
    seek w (l ++ l') t = (seek w l t).bind (seek w l') := by
  induction l generalizing t with
  | nil => rfl
  | cons a l ih =>
    rw [List.cons_append, seek, seek]
    split
    · rfl
    · exact ih _

theorem seek_ok_le {t t' : Nat} (h : seek w l t = .ok t') : t' ≤ t := by
  induction l generalizing t with
  | nil => exact (Except.ok.inj h).ge
  | cons a l ih =>
    rw [seek] at h
    split at h
    · cases h
    · exact (ih h).trans (Nat.sub_le _ _)

theorem seek_of_zero (h : ∀ a ∈ l, w a = 0) (t : Nat) : seek w l t = .ok t := by
  induction l with
  | nil => rfl
  | cons a l ih =>
    rw [seek, h a List.mem_cons_self, if_neg (Nat.not_lt_zero t)]
    exact ih fun b hb => h b (List.mem_cons_of_mem a hb)

theorem seek_mem {t : Nat} {a : α} (h : seek w l t = .error a) : a ∈ l := by
  induction l generalizing t with
  | nil => cases h
  | cons b l ih =>
    rw [seek] at h
    split at h
    · exact Except.error.inj h ▸ List.mem_cons_self
    · exact List.mem_cons_of_mem _ (ih h)

/-- The item is the one with rank `t`. -/
theorem seek_eq (w : α → Nat) (l : List α) (t : Nat) :
    seek w l t = match (copies w l)[t]? with
      | some a => .error a
      | none => .ok (t - (copies w l).length) := by
  induction l generalizing t with
  | nil => rfl
  | cons a l ih =>
    rw [seek, copies_cons]
    by_cases ht : t < w a
    · rw [if_pos ht, List.getElem?_append_left (by simpa using ht), List.getElem?_replicate,
        if_pos ht]
    · rw [if_neg ht, ih, List.getElem?_append_right (by simpa using ht), List.length_replicate,
        List.length_append, List.length_replicate, Nat.sub_sub]

/-! ## Sorted lists -/

section
variable [LinearOrder α]

theorem copies_sorted (w : α → Nat) (h : l.Pairwise (· < ·)) :
    (copies w l).Pairwise (· ≤ ·) := by
  induction l with
  | nil => exact List.Pairwise.nil
  | cons a l ih =>
    obtain ⟨ha, hl⟩ := List.pairwise_cons.mp h
    rw [copies_cons, List.pairwise_append]
    refine ⟨List.pairwise_replicate.mpr (.inr le_rfl), ih hl, ?_⟩
    intro x hx y hy
    rw [List.eq_of_mem_replicate hx]
    obtain ⟨b, hb, hy⟩ := List.mem_flatMap.mp hy
    rw [List.eq_of_mem_replicate hy]
    exact (ha b hb).le

theorem count_copies (h : l.Nodup) (a : α) :
    (copies w l).count a = if a ∈ l then w a else 0 := by
  induction l with
  | nil => rfl
  | cons b l ih =>
    obtain ⟨hb, hl⟩ := List.nodup_cons.mp h
    rw [copies_cons, List.count_append, List.count_replicate, ih hl]
    by_cases hab : a = b
    · subst hab
      simp [hb]
    · simp [hab, Ne.symm hab]

/-- The values of the samples, counted and written out in their order. -/
theorem copies_count {es xs : List α} (hes : es.Pairwise (· < ·)) (h : ∀ x ∈ xs, x ∈ es) :
    copies (xs.count ·) es = xs.mergeSort := by
  have hperm : (copies (xs.count ·) es).Perm xs := by
    refine List.perm_iff_count.mpr fun a => ?_
    rw [count_copies (hes.imp ne_of_lt)]
    split
    · rfl
    · rename_i ha
      exact (List.count_eq_zero_of_not_mem fun hx => ha (h a hx)).symm
  exact (hperm.trans (List.mergeSort_perm xs _).symm).eq_of_pairwise' (copies_sorted _ hes)
    (List.pairwise_mergeSort' (· ≤ ·) xs)

theorem head?_mergeSort {xs : List α} {x : α} (hx : x ∈ xs) (hle : ∀ y ∈ xs, x ≤ y) :
    xs.mergeSort.head? = some x := by
  have hmem : ∀ {y}, y ∈ xs.mergeSort ↔ y ∈ xs := (List.mergeSort_perm xs _).mem_iff
  have hsorted := List.pairwise_mergeSort' (· ≤ ·) xs
  cases hs : xs.mergeSort with
  | nil => exact absurd (hmem.mpr hx) (by simp [hs])
  | cons y l =>
    rw [hs] at hmem hsorted
    have hyx : y ≤ x := by
      obtain rfl | hxl := List.mem_cons.mp (hmem.mpr hx)
      · exact le_rfl
      · exact (List.pairwise_cons.mp hsorted).1 x hxl
    rw [List.head?_cons, hyx.antisymm (hle y (hmem.mp List.mem_cons_self))]

theorem getLast?_mergeSort {xs : List α} {x : α} (hx : x ∈ xs) (hle : ∀ y ∈ xs, y ≤ x) :
    xs.mergeSort.getLast? = some x := by
  have hmem : ∀ {y}, y ∈ xs.mergeSort ↔ y ∈ xs := (List.mergeSort_perm xs _).mem_iff
  have hsorted := List.pairwise_mergeSort' (· ≤ ·) xs
  obtain hs | ⟨l, y, hs⟩ := List.eq_nil_or_concat' xs.mergeSort
  · exact absurd (hmem.mpr hx) (by simp [hs])
  · rw [hs] at hmem hsorted
    have hxy : x ≤ y := by
      obtain hxl | hxl := List.mem_append.mp (hmem.mpr hx)
      · exact (List.pairwise_append.mp hsorted).2.2 x hxl y (List.mem_singleton_self y)
      · exact (List.mem_singleton.mp hxl).le
    have hy : y ∈ xs := hmem.mp (List.mem_append_right l (List.mem_singleton_self y))
    rw [hs, List.getLast?_concat, (hle y hy).antisymm hxy]

/-- A monotone function commutes with sorting. -/
theorem mergeSort_map {β : Type*} [LinearOrder β] {f : α → β} (hf : Monotone f) (xs : List α) :
    (xs.map f).mergeSort = xs.mergeSort.map f := by
  have hperm : ((xs.map f).mergeSort).Perm (xs.mergeSort.map f) :=
    (List.mergeSort_perm _ _).trans ((List.mergeSort_perm xs _).map f).symm
  refine hperm.eq_of_pairwise' (List.pairwise_mergeSort' (· ≤ ·) _) ?_
  exact (List.pairwise_mergeSort' (· ≤ ·) xs).map f fun a b hab => hf hab

end

end RdmaBench.Lib.Rank
