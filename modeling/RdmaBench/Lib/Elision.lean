import Mathlib.Tactic

/-! # Messages without their leading part

A sender leaves out the leading part of a value when it believes the receiver
has it. The receiver keeps the leading part of the last value that it got
whole. A stream of messages can be decoded if every short one finds the leading
part of its own value there. Leading parts grow from message to message, but messages
may overtake each other on their way. -/

namespace RdmaBench.Lib.Elision

variable {β α : Type*} (top : β → α) (short : β → Bool)

/-- The leading part that the receiver has after a message. -/
def next (h : α) (m : β) : α := if short m then h else top m

/-- The leading part that the receiver has after some messages. -/
def last (h : α) : List β → α
  | [] => h
  | m :: ms => last (next top short h m) ms

/-- Every message finds a leading part with which it meets `P`. -/
def Along (P : α → β → Prop) (h : α) : List β → Prop
  | [] => True
  | m :: ms => P h m ∧ Along P (next top short h m) ms

/-- Every short message arrives when the receiver has its leading part. -/
def Decodable : α → List β → Prop := Along top short fun h m => short m = true → top m = h

/-- Once the receiver has the leading part `u`, no message brings another one. -/
def Settled (u : α) : α → List β → Prop :=
  Along top short fun h m => h = u → short m = false → top m = u

variable {top short} {h u : α} {l l' : List β} {m : β}

theorem last_append : last top short h (l ++ l') = last top short (last top short h l) l' := by
  induction l generalizing h with
  | nil => rfl
  | cons m ms ih => exact ih

theorem along_append {P : α → β → Prop} : Along top short P h (l ++ l') ↔
    Along top short P h l ∧ Along top short P (last top short h l) l' := by
  induction l generalizing h with
  | nil => simp [Along, last]
  | cons m ms ih =>
    show (_ ∧ Along top short P _ (ms ++ l')) ↔ (_ ∧ Along top short P _ ms) ∧ _
    rw [ih, and_assoc]
    rfl

theorem along_concat {P : α → β → Prop} : Along top short P h (l ++ [m]) ↔
    Along top short P h l ∧ P (last top short h l) m := by
  rw [along_append]
  simp [Along]

/-- The leading part comes from before, or from one of the messages. -/
theorem last_mem (top : β → α) (short : β → Bool) (h : α) (l : List β) :
    last top short h l = h ∨ ∃ m ∈ l, last top short h l = top m := by
  induction l generalizing h with
  | nil => exact .inl rfl
  | cons m ms ih =>
    show last top short (next top short h m) ms = h ∨
      ∃ m' ∈ m :: ms, last top short (next top short h m) ms = top m'
    rcases ih (next top short h m) with hsame | ⟨m', hm', heq⟩
    · unfold next at hsame ⊢
      split at hsame
      · next hs =>
        rw [if_pos hs]
        exact .inl hsame
      · next hs =>
        rw [if_neg hs]
        exact .inr ⟨m, List.mem_cons_self, hsame⟩
    · exact .inr ⟨m', List.mem_cons_of_mem _ hm', heq⟩

theorem Settled.last_eq (hset : Settled top short u h l) (hu : h = u) :
    last top short h l = u := by
  induction l generalizing h with
  | nil => exact hu
  | cons m ms ih =>
    refine ih hset.2 ?_
    unfold next
    split
    · exact hu
    · next hs => exact hset.1 hu (by simpa using hs)

/-- A leading part that the receiver cannot have yet. -/
theorem settled_of_ne (hh : h ≠ u) (hl : ∀ m ∈ l, top m ≠ u) : Settled top short u h l := by
  induction l generalizing h with
  | nil => trivial
  | cons m ms ih =>
    refine ⟨fun hu => absurd hu hh, ih ?_ fun m' hm' => hl m' (List.mem_cons_of_mem _ hm')⟩
    unfold next
    split
    · exact hh
    · exact hl m List.mem_cons_self

variable [PartialOrder α]

theorem last_le {k : α} (hk : h ≤ k) (hl : ∀ m ∈ l, top m ≤ k) : last top short h l ≤ k := by
  rcases last_mem top short h l with heq | ⟨m, hm, heq⟩
  · rw [heq]
    exact hk
  · rw [heq]
    exact hl m hm

/-! ## Messages in flight -/

variable (top short)

/-- The receiver has `h` and the messages `l` to read, and the messages `w` are in flight,
in the order they were sent. The next value has the leading part `u`. Short messages in
flight can be decoded whenever they arrive, unless a whole one with another leading part
overtakes them. -/
structure Safe (u h : α) (l w : List β) : Prop where
  readable : Decodable top short h l
  settled : Settled top short u h l
  flying : last top short h l = u → ∀ m ∈ w, short m = false → top m = u
  expected : ∀ m ∈ w, short m = true → top m = last top short h l
  apart : w.Pairwise fun m m' => short m = false → short m' = true → top m = top m'
  mono : w.Pairwise fun m m' => top m ≤ top m'
  le : ∀ m ∈ w, top m ≤ u

/-- A message may overtake another one if it is short, if both have one leading part, or if
both are whole and its leading part is not that of the values to come. -/
def MayOvertake (u : α) (m x : β) : Prop :=
  short m = false → top x = top m ∨ short x = false ∧ top m ≠ u

variable {top short} {w : List β}

/-- A message is sent whole, or to a receiver that will have its leading part. -/
theorem Safe.send (hs : Safe top short u h l w) (hm : top m = u)
    (hshort : short m = true → last top short h l = u) : Safe top short u h l (w ++ [m]) := by
  refine ⟨hs.readable, hs.settled, fun hu x hx hwhole => ?_, fun x hx hsx => ?_, ?_, ?_, ?_⟩
  · rcases List.mem_append.1 hx with hx | hx
    · exact hs.flying hu x hx hwhole
    · rw [List.mem_singleton.1 hx, hm]
  · rcases List.mem_append.1 hx with hx | hx
    · exact hs.expected x hx hsx
    · rw [List.mem_singleton.1 hx] at hsx ⊢
      rw [hm, hshort hsx]
  · rw [List.pairwise_append]
    refine ⟨hs.apart, List.pairwise_singleton _ _, fun x hx y hy hwhole hsy => ?_⟩
    rw [List.mem_singleton.1 hy] at hsy ⊢
    rw [hm]
    exact hs.flying (hshort hsy) x hx hwhole
  · rw [List.pairwise_append]
    refine ⟨hs.mono, List.pairwise_singleton _ _, fun x hx y hy => ?_⟩
    rw [List.mem_singleton.1 hy, hm]
    exact hs.le x hx
  · intro x hx
    rcases List.mem_append.1 hx with hx | hx
    · exact hs.le x hx
    · rw [List.mem_singleton.1 hx, hm]

/-- The values to come get a leading part that no message has had. -/
theorem Safe.advance {u' : α} (hs : Safe top short u h l w) (hu : u < u') (hh : h ≤ u)
    (hl : ∀ m ∈ l, top m ≤ u) : Safe top short u' h l w := by
  refine { hs with settled := ?_, flying := ?_, le := fun m hm => (hs.le m hm).trans hu.le }
  · exact settled_of_ne (hh.trans_lt hu).ne fun m hm => ((hl m hm).trans_lt hu).ne
  · exact fun heq => absurd heq ((last_le hh hl).trans_lt hu).ne

/-- A message arrives, and has overtaken those before it. -/
theorem Safe.arrive {post : List β} (hs : Safe top short u h l (w ++ m :: post))
    (hover : ∀ x ∈ w, MayOvertake top short u m x) :
    Safe top short u h (l ++ [m]) (w ++ post) := by
  have hm : m ∈ w ++ m :: post := List.mem_append_right _ List.mem_cons_self
  have hsub : (w ++ post).Sublist (w ++ m :: post) :=
    (List.sublist_cons_self m post).append_left w
  obtain ⟨-, hapart, -⟩ := List.pairwise_append.1 hs.apart
  obtain ⟨-, hmono, -⟩ := List.pairwise_append.1 hs.mono
  have hlast : last top short h (l ++ [m]) = next top short (last top short h l) m := last_append
  refine ⟨along_concat.2 ⟨hs.readable, hs.expected m hm⟩,
    along_concat.2 ⟨hs.settled, fun hu => hs.flying hu m hm⟩, ?_, ?_, hs.apart.sublist hsub,
    hs.mono.sublist hsub, fun x hx => hs.le x (hsub.subset hx)⟩
  · intro hu x hx hwhole
    rw [hlast, next] at hu
    split at hu
    · exact hs.flying hu x (hsub.subset hx) hwhole
    · next hsm =>
      rcases List.mem_append.1 hx with hx | hx
      · rcases hover x hx (by simpa using hsm) with heq | ⟨-, hne⟩
        · rw [heq, hu]
        · exact absurd hu hne
      · refine le_antisymm (hs.le x (List.mem_append_right _ (List.mem_cons_of_mem _ hx))) ?_
        rw [← hu]
        exact List.rel_of_pairwise_cons hmono hx
  · intro x hx hsx
    rw [hlast, next]
    split
    · exact hs.expected x (hsub.subset hx) hsx
    · next hsm =>
      have hwhole : short m = false := by simpa using hsm
      rcases List.mem_append.1 hx with hx | hx
      · rcases hover x hx hwhole with heq | ⟨hxw, -⟩
        · exact heq
        · rw [hsx] at hxw
          cases hxw
      · exact (List.rel_of_pairwise_cons hapart hx hwhole hsx).symm

/-- The receiver reads the oldest messages. -/
theorem Safe.read (hs : Safe top short u h (l ++ l') w) :
    Decodable top short h l ∧ Safe top short u (last top short h l) l' w := by
  obtain ⟨hread, hread'⟩ := along_append.1 hs.readable
  obtain ⟨-, hset⟩ := along_append.1 hs.settled
  have hlast : last top short (last top short h l) l' = last top short h (l ++ l') :=
    last_append.symm
  exact ⟨hread, { hs with
    readable := hread', settled := hset, flying := hlast ▸ hs.flying
    expected := hlast ▸ hs.expected }⟩

end RdmaBench.Lib.Elision
