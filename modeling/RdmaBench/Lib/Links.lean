import Mathlib.Tactic

/-! # Doubly linked lists in mutable cells

A list is threaded through cells that record, for each node, the node after
it and the node before it; a separate cell records the first node. `null`
ends the list in both directions. `Seg` states the list recursively from the
left, and the two edits (unlinking a node anywhere, pushing a node at the
front) are proved from what they write and what they leave alone. -/

namespace RdmaBench.Lib.Links

structure Cells (α : Type) where
  first : α
  nxt : α → α
  prv : α → α

variable {α : Type} [DecidableEq α] {null : α} {c c' : Cells α}

/-- The node after `x`; `null` stands before the first node. -/
def succ (null : α) (c : Cells α) (x : α) : α := if x = null then c.first else c.nxt x

/-- The nodes of `l`, in order, follow `p`, and the last one is followed by `null`. -/
def Seg (null : α) (c : Cells α) : α → List α → Prop
  | p, [] => succ null c p = null
  | p, a :: l => succ null c p = a ∧ c.prv a = p ∧ Seg null c a l

/-- The list recorded by `c` is `l`. -/
def Listed (null : α) (c : Cells α) (l : List α) : Prop := Seg null c null l

theorem succ_null : succ null c null = c.first := by simp [succ]

theorem succ_of_ne {x : α} (h : x ≠ null) : succ null c x = c.nxt x := by simp [succ, h]

/-- A segment reads only the successors of `p` and its nodes, and the
predecessors of its nodes. -/
theorem Seg.congr : ∀ {l : List α} {p : α}, Seg null c p l →
    (∀ x ∈ p :: l, succ null c' x = succ null c x) → (∀ x ∈ l, c'.prv x = c.prv x) →
    Seg null c' p l
  | [], p, h, hs, _ => (hs p (by simp)).trans h
  | a :: l, p, ⟨h1, h2, h3⟩, hs, hp => by
    refine ⟨(hs p (by simp)).trans h1, (hp a (by simp)).trans h2, ?_⟩
    exact h3.congr (fun x hx => hs x (List.mem_cons_of_mem _ hx))
      (fun x hx => hp x (List.mem_cons_of_mem _ hx))

theorem Listed.congr {l : List α} (h : Listed null c l) (hf : c'.first = c.first)
    (hn : ∀ x ∈ l, c'.nxt x = c.nxt x) (hp : ∀ x ∈ l, c'.prv x = c.prv x) :
    Listed null c' l := by
  refine Seg.congr h (fun x hx => ?_) hp
  by_cases hx0 : x = null
  · simp [succ, hx0, hf]
  · rcases List.mem_cons.mp hx with rfl | hx
    · exact absurd rfl hx0
    · simp only [succ, hx0, if_false, hn x hx]

/-- The recorded predecessor of a node is the node before it, or `p`. -/
theorem Seg.prv_mem : ∀ {xs ys : List α} {p a : α}, Seg null c p (xs ++ a :: ys) →
    c.prv a ∈ p :: xs
  | [], _, p, a, ⟨_, h, _⟩ => by simp [h]
  | x :: xs, ys, p, a, ⟨_, _, h⟩ => List.mem_cons_of_mem _ h.prv_mem

/-- The recorded successor of a node is the node after it, or `null`. -/
theorem Seg.nxt_mem : ∀ {xs ys : List α} {p a : α}, Seg null c p (xs ++ a :: ys) →
    a ≠ null → c.nxt a = null ∨ c.nxt a ∈ ys
  | [], [], p, a, ⟨_, _, h⟩, ha => .inl (by rw [← succ_of_ne ha]; exact h)
  | [], b :: ys, p, a, ⟨_, _, h, _⟩, ha => .inr (by rw [← succ_of_ne ha, h]; simp)
  | x :: xs, ys, p, a, ⟨_, _, h⟩, ha => h.nxt_mem ha

/-- Only the first node of a list has `null` before it. -/
theorem Listed.first_of_prv {l : List α} {a : α} (h : Listed null c l) (ha : a ∈ l)
    (hn : null ∉ l) (hp : c.prv a = null) : c.first = a := by
  obtain ⟨xs, ys, rfl⟩ := List.append_of_mem ha
  cases xs with
  | nil => exact succ_null.symm.trans h.1
  | cons x xs =>
    have hm : c.prv a ∈ x :: xs := Seg.prv_mem h.2.2
    rw [hp] at hm
    exact absurd (List.mem_append_left _ hm) hn

theorem Listed.first_null_iff {l : List α} (h : Listed null c l) (hn : null ∉ l) :
    c.first = null ↔ l = [] := by
  cases l with
  | nil => simpa using succ_null.symm.trans h
  | cons a l =>
    have hf : c.first = a := succ_null.symm.trans h.1
    simp only [hf, reduceCtorEq, iff_false]
    intro he
    exact hn (by simp [he])

/-- The first node is in the list and has `null` before it. -/
theorem Listed.first_mem {l : List α} (h : Listed null c l) (hf : c.first ≠ null) :
    c.first ∈ l ∧ c.prv c.first = null := by
  cases l with
  | nil => exact absurd (succ_null.symm.trans h) hf
  | cons a l =>
    have he : c.first = a := succ_null.symm.trans h.1
    rw [he]
    exact ⟨by simp, h.2.1⟩

/-- The cells record one list only. -/
theorem Seg.unique {l l' : List α} {p : α} (h : Seg null c p l) (h' : Seg null c p l')
    (hn : null ∉ l) (hn' : null ∉ l') : l = l' := by
  induction l generalizing p l' with
  | nil =>
    cases l' with
    | nil => rfl
    | cons a l' => exact absurd (h.symm.trans h'.1) (fun he => hn' (by simp [he]))
  | cons a l ih =>
    cases l' with
    | nil => exact absurd (h'.symm.trans h.1) (fun he => hn (by simp [he]))
    | cons b l' =>
      obtain rfl : a = b := h.1.symm.trans h'.1
      rw [ih h.2.2 h'.2.2 (fun hm => hn (List.mem_cons_of_mem _ hm))
        (fun hm => hn' (List.mem_cons_of_mem _ hm))]

/-- The same list in other cells has the same links. -/
theorem Seg.same {l : List α} {p : α} (h : Seg null c p l) (h' : Seg null c' p l)
    (hn : null ∉ l) :
    succ null c' p = succ null c p ∧ ∀ x ∈ l, c'.nxt x = c.nxt x ∧ c'.prv x = c.prv x := by
  induction l generalizing p with
  | nil => exact ⟨h'.trans h.symm, fun x hx => absurd hx (by simp)⟩
  | cons a l ih =>
    obtain ⟨hs, hrest⟩ := ih h.2.2 h'.2.2 (fun hm => hn (List.mem_cons_of_mem _ hm))
    have ha : a ≠ null := fun he => hn (by simp [he])
    rw [succ_of_ne ha, succ_of_ne ha] at hs
    refine ⟨h'.1.trans h.1.symm, fun x hx => ?_⟩
    rcases List.mem_cons.mp hx with rfl | hx
    · exact ⟨hs, h'.2.1.trans h.2.1.symm⟩
    · exact hrest x hx

theorem Listed.first_cons {l : List α} (h : Listed null c l) (hf : c.first ≠ null) :
    ∃ rest, l = c.first :: rest := by
  cases l with
  | nil => exact absurd (succ_null.symm.trans h) hf
  | cons a l => exact ⟨l, by rw [show c.first = a from succ_null.symm.trans h.1]⟩

/-! ## Unlinking a node -/

/-- Taking `a` out needs its two neighbours linked to each other and every
other cell of the remaining nodes kept. -/
theorem Seg.unlink : ∀ {xs ys : List α} {p a : α}, Seg null c p (xs ++ a :: ys) →
    (p :: (xs ++ a :: ys)).Nodup → null ∉ xs ++ a :: ys →
    succ null c' (c.prv a) = c.nxt a → (c.nxt a ≠ null → c'.prv (c.nxt a) = c.prv a) →
    (∀ x ∈ p :: (xs ++ ys), x ≠ c.prv a → succ null c' x = succ null c x) →
    (∀ x ∈ xs ++ ys, x ≠ c.nxt a → c'.prv x = c.prv x) →
    Seg null c' p (xs ++ ys)
  | [], ys, p, a, ⟨_, hpa, ht⟩, hnd, hn, hs, hp, fs, fp => by
    have ha : a ≠ null := fun he => hn (by simp [he])
    rw [hpa] at hs hp fs
    simp only [List.nil_append] at fs fp hnd ⊢
    cases ys with
    | nil =>
      have hq : c.nxt a = null := (succ_of_ne ha).symm.trans ht
      exact hs.trans hq
    | cons b ys =>
      obtain ⟨hab, _, hb⟩ := ht
      have hq : c.nxt a = b := (succ_of_ne ha).symm.trans hab
      have hb0 : b ≠ null := fun he => hn (by simp [he])
      rw [hq] at hs hp fp
      refine ⟨hs, hp hb0, hb.congr (fun x hx => fs x (List.mem_cons_of_mem _ hx) ?_)
        (fun x hx => fp x (List.mem_cons_of_mem _ hx) ?_)⟩
      · rintro rfl
        exact (List.nodup_cons.mp hnd).1 (List.mem_cons_of_mem _ hx)
      · rintro rfl
        exact (List.nodup_cons.mp (List.nodup_cons.mp (List.nodup_cons.mp hnd).2).2).1 hx
  | x :: xs, ys, p, a, ⟨hpx, hxp, ht⟩, hnd, hn, hs, hp, fs, fp => by
    have ha : a ≠ null := fun he => hn (by simp [he])
    have hx0 : x ≠ null := fun he => hn (by simp [he])
    -- the neighbours of `a` lie to the right of `p`
    have hpre : c.prv a ∈ x :: xs := ht.prv_mem
    have hsuf : c.nxt a = null ∨ c.nxt a ∈ ys := ht.nxt_mem ha
    simp only [List.cons_append, List.nodup_cons, List.mem_cons, List.mem_append,
      not_or] at hnd hn
    have hpne : p ≠ c.prv a := by
      rintro he
      rcases List.mem_cons.mp hpre with h | h
      · exact hnd.1.1 (he.trans h)
      · exact hnd.1.2.1 (he ▸ h)
    have hxne : x ≠ c.nxt a := by
      rintro he
      rcases hsuf with h | h
      · exact hx0 (he.trans h)
      · exact hnd.2.1.2.2 (he ▸ h)
    refine ⟨(fs p (by simp) hpne).trans hpx, (fp x (by simp) hxne).trans hxp, ?_⟩
    refine ht.unlink ?_ ?_ hs hp (fun y hy => fs y (List.mem_cons_of_mem _ hy))
      (fun y hy => fp y (List.mem_cons_of_mem _ hy))
    · simpa [List.nodup_cons, not_or] using hnd.2
    · simpa [not_or] using hn.2

/-! ## Pushing a node at the front -/

theorem Listed.push {l : List α} {a : α} (h : Listed null c l) (hnd : (a :: l).Nodup)
    (hn : null ∉ a :: l) (hf : succ null c' null = a) (hna : succ null c' a = c.first)
    (hpa : c'.prv a = null) (hp : c.first ≠ null → c'.prv c.first = a)
    (fs : ∀ x ∈ l, succ null c' x = succ null c x)
    (fp : ∀ x ∈ l, x ≠ c.first → c'.prv x = c.prv x) : Listed null c' (a :: l) := by
  refine ⟨hf, hpa, ?_⟩
  cases l with
  | nil => exact hna.trans (succ_null.symm.trans h)
  | cons b l =>
    have hb0 : b ≠ null := fun he => hn (by simp [he])
    have hb : c.first = b := succ_null.symm.trans h.1
    rw [hb] at hna hp fp
    refine ⟨hna, hp hb0, h.2.2.congr (fun x hx => fs x hx) (fun x hx => ?_)⟩
    refine fp x (List.mem_cons_of_mem _ hx) ?_
    rintro rfl
    exact (List.nodup_cons.mp (List.nodup_cons.mp hnd).2).1 hx

end RdmaBench.Lib.Links
