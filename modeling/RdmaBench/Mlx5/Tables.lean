import RdmaBench.Lib.Asserts
import RdmaBench.Lib.Bits
import RdmaBench.Lib.Paged
import RdmaBench.Lib.Simulation

/-! # Tables of resources

`mlx5_poll_one` finds the resource of an entry by a number of 24 bits: the upper half is
an index into an array, whose elements count the resources that they have and point to
a table of 4096 of them, which is allocated with the first resource and freed with the
last one. Queue pairs and shared receive queues have the number that the kernel gave
them, a user index is chosen by the driver. The tables rely on their callers not to store
a number that is in use, and to clear only those that are. `verbs.c` does not see to it
everywhere: see `Contract` and `createWithUidx`. -/

namespace RdmaBench.Mlx5.Tables
open RdmaBench.Lib.Asserts RdmaBench.Lib.Paged RdmaBench.Lib.Runs RdmaBench.Lib.Simulation

variable {R : Type}

abbrev Table (R : Type) := Nat → Page R

/-- How a number is split. -/
structure Split where
  shift : UInt32
  mask : UInt32
  size : Nat

def mlx5QpTable : Split := ⟨12, ((1 : UInt32) <<< 12) - 1, 1 <<< (24 - 12)⟩

def mlx5SrqTable : Split := ⟨12, ((1 : UInt32) <<< 12) - 1, 1 <<< (24 - 12)⟩

def Split.tind (g : Split) (n : UInt32) : Nat := (n >>> g.shift).toNat

/-! ## Lookup, insertion and removal -/

def find (g : Split) (t : Table R) (n : UInt32) : Except Fault (Option R) :=
  if g.size ≤ g.tind n then .error .outOfBounds else (t (g.tind n)).find (n &&& g.mask).toNat

/-- With another mask than `g` has. `none` if there is no memory. -/
def store (g : Split) (mask : UInt32) (t : Table R) (n : UInt32) (r : R) (alloc : Bool) :
    Except Fault (Option (Table R)) :=
  if g.size ≤ g.tind n then .error .outOfBounds
  else do
    let p ← (t (g.tind n)).store (n &&& mask).toNat r alloc
    pure (p.map fun p => Function.update t (g.tind n) p)

def clear (g : Split) (mask : UInt32) (t : Table R) (n : UInt32) : Except Fault (Table R) :=
  if g.size ≤ g.tind n then .error .outOfBounds
  else do
    let p ← (t (g.tind n)).clear (n &&& mask).toNat
    pure (Function.update t (g.tind n) p)

def mlx5FindRsc (t : Table R) (rsn : UInt32) := find mlx5QpTable t rsn
def mlx5StoreRsc (t : Table R) (rsn : UInt32) (rsc : R) (alloc : Bool) :=
  store mlx5QpTable mlx5QpTable.mask t rsn rsc alloc
def mlx5ClearRsc (t : Table R) (rsn : UInt32) := clear mlx5QpTable mlx5QpTable.mask t rsn

/-! The functions for shared receive queues take some constants from the other table. -/

def mlx5FindSrq (t : Table R) (srqn : UInt32) := find mlx5SrqTable t srqn
def mlx5StoreSrq (t : Table R) (srqn : UInt32) (srq : R) (alloc : Bool) :=
  store mlx5SrqTable mlx5QpTable.mask t srqn srq alloc
def mlx5ClearSrq (t : Table R) (srqn : UInt32) := clear mlx5QpTable mlx5SrqTable.mask t srqn

def mlx5FindUidx (t : Table R) (uidx : UInt32) := find mlx5QpTable t uidx
def mlx5ClearUidx (t : Table R) (uidx : UInt32) := clear mlx5QpTable mlx5QpTable.mask t uidx

/-- The first of `n` elements from `tind` on that does not count as full. -/
def firstPage (t : Table R) : Nat → Nat → Option Nat
  | 0, _ => none
  | n + 1, tind =>
    if (t tind).count < mlx5QpTable.mask.toNat then some tind else firstPage t n (tind + 1)

/-- `none` is -1. -/
def getFreeUidx (t : Table R) : Except Fault (Option UInt32) :=
  match firstPage t mlx5QpTable.size 0 with
  | none => .ok none
  | some tind =>
    if (t tind).count = 0 then .ok (some (UInt32.ofNat tind <<< mlx5QpTable.shift))
    else
      match (t tind).cells with
      | none => .error .freed
      | some f =>
        .ok (some (UInt32.ofNat tind <<< mlx5QpTable.shift |||
          UInt32.ofNat (firstEmpty f (mlx5QpTable.mask.toNat + 1) 0)))

def mlx5StoreUidx (t : Table R) (rsc : R) (alloc : Bool) :
    Except Fault (Table R × Option UInt32) := do
  match ← getFreeUidx t with
  | none => pure (t, none)
  | some uidx =>
    match ← store mlx5QpTable mlx5QpTable.mask t uidx rsc alloc with
    | none => pure (t, none)
    | some t => pure (t, some uidx)

/-- How `create_qp` and the functions for other resources use a user index, with
`accepted` the answer of the kernel. They keep the index in an unsigned variable, so that
-1 is not found to be negative, and clear it if the kernel has refused the resource. -/
def createWithUidx (t : Table R) (rsc : R) (alloc accepted : Bool) :
    Except Fault (Table R × Option UInt32) := do
  let (t, stored) ← mlx5StoreUidx t rsc alloc
  let uidx := stored.getD 0xffffffff
  if accepted then pure (t, some uidx)
  else do
    let t ← mlx5ClearUidx t uidx
    pure (t, none)

/-! ## Numbers -/

/-- What a table shows: nothing beyond 24 bits. -/
structure Holds (t : Table R) (m : Nat → Option R) : Prop where
  pages : Shows 4096 t m
  small : ∀ k, 2 ^ 24 ≤ k → m k = none

variable {t : Table R} {m : Nat → Option R} {n : UInt32} {r : R}

theorem holds_empty : Holds (fun _ => Page.empty : Table R) fun _ => none :=
  ⟨fun _ => shows_empty 4096, fun _ _ => rfl⟩

theorem tind_eq (n : UInt32) : mlx5QpTable.tind n = n.toNat / 4096 := by
  rw [Split.tind, UInt32.toNat_shiftRight]
  exact Nat.shiftRight_eq_div_pow ..

theorem index_eq (n : UInt32) : (n &&& mlx5QpTable.mask).toNat = n.toNat % 4096 := by
  rw [UInt32.toNat_and]
  exact Nat.and_two_pow_sub_one_eq_mod n.toNat 12

theorem index_lt (k : Nat) : k % 4096 < 4096 := Nat.mod_lt k (by omega)

theorem in_bounds (h : n.toNat < 2 ^ 24) : ¬mlx5QpTable.size ≤ mlx5QpTable.tind n := by
  have hsize : mlx5QpTable.size = 4096 := rfl
  rw [tind_eq, hsize]
  omega

theorem lt_of_in_bounds (h : ¬mlx5QpTable.size ≤ mlx5QpTable.tind n) : n.toNat < 2 ^ 24 := by
  have hsize : mlx5QpTable.size = 4096 := rfl
  rw [tind_eq, hsize] at h
  omega

theorem Holds.find (h : Holds t m) (hn : n.toNat < 2 ^ 24) :
    find mlx5QpTable t n = .ok (m n.toNat) := by
  obtain ⟨hpage, hkey⟩ := h.pages.page n.toNat
  rw [Tables.find, if_neg (in_bounds hn), tind_eq, index_eq, hpage.find (index_lt _), hkey]

theorem Holds.set (h : Holds t m) (hn : n.toNat < 2 ^ 24) {p : Page R} {v : Option R}
    (hp : p.Shows 4096 (Function.update (fun i => m (n.toNat / 4096 * 4096 + i))
      (n.toNat % 4096) v)) :
    Holds (Function.update t (n.toNat / 4096) p) (Function.update m n.toNat v) := by
  refine ⟨h.pages.update (by omega) hp, fun k hk => ?_⟩
  rw [Function.update_of_ne (by omega), h.small k hk]

theorem Holds.store (h : Holds t m) (hn : n.toNat < 2 ^ 24) (hm : m n.toNat = none) (r : R)
    (alloc : Bool) :
    (∃ t', store mlx5QpTable mlx5QpTable.mask t n r alloc = .ok (some t') ∧
        Holds t' (Function.update m n.toNat (some r))) ∨
      store mlx5QpTable mlx5QpTable.mask t n r alloc = .ok none ∧ alloc = false := by
  obtain ⟨hpage, hkey⟩ := h.pages.page n.toNat
  rw [Tables.store, if_neg (in_bounds hn), tind_eq, index_eq]
  rcases hpage.store (index_lt _) (hkey.trans hm) r alloc with ⟨p, hp, hshows⟩ | ⟨hp, halloc⟩
  · rw [hp]
    exact .inl ⟨_, rfl, h.set hn hshows⟩
  · rw [hp]
    exact .inr ⟨rfl, halloc⟩

theorem Holds.clear (h : Holds t m) (hm : (m n.toNat).isSome) :
    ∃ t', clear mlx5QpTable mlx5QpTable.mask t n = .ok t' ∧
      Holds t' (Function.update m n.toNat none) := by
  have hn : n.toNat < 2 ^ 24 := by
    by_contra hge
    rw [h.small _ (Nat.not_lt.mp hge)] at hm
    cases hm
  obtain ⟨hpage, hkey⟩ := h.pages.page n.toNat
  obtain ⟨p, hp, hshows⟩ := hpage.clear (index_lt _) (hkey.symm ▸ hm)
  rw [Tables.clear, if_neg (in_bounds hn), tind_eq, index_eq, hp]
  exact ⟨_, rfl, h.set hn hshows⟩

/-! ## User indices -/

theorem firstPage_spec (t : Table R) (n tind : Nat) :
    (∃ k, firstPage t n tind = some k ∧ tind ≤ k ∧ k < tind + n ∧ (t k).count < 4095) ∨
      firstPage t n tind = none ∧ ∀ k, tind ≤ k → k < tind + n → 4095 ≤ (t k).count := by
  induction n generalizing tind with
  | zero => exact .inr ⟨rfl, fun k hk hk' => by omega⟩
  | succ n ih =>
    have hmask : (mlx5QpTable.mask.toNat : Int) = 4095 := rfl
    rw [firstPage, hmask]
    split
    · next hlt => exact .inl ⟨tind, rfl, Nat.le_refl _, by omega, hlt⟩
    · next hge =>
      rcases ih (tind + 1) with ⟨k, hk, hle, hlt, hcount⟩ | ⟨hnone, hall⟩
      · exact .inl ⟨k, hk, by omega, by omega, hcount⟩
      · refine .inr ⟨hnone, fun k hk hk' => ?_⟩
        rcases Nat.eq_or_lt_of_le hk with rfl | hlt
        · exact Int.not_lt.mp hge
        · exact hall k hlt (by omega)

/-- The index that belongs to an element of the array and one of its table. -/
theorem uidx_toNat {k i : Nat} (hk : k < 4096) (hi : i < 4096) :
    (UInt32.ofNat k <<< mlx5QpTable.shift ||| UInt32.ofNat i).toNat = k * 4096 + i := by
  have hshift : mlx5QpTable.shift = 12 := rfl
  have hor := RdmaBench.Lib.Bits.or_shiftLeft_eq_add (i := 12) (b := i) (by omega) k
  have hwide : (UInt32.ofNat k <<< 12).toNat = k <<< 12 := by
    rw [UInt32.toNat_shiftLeft, UInt32.toNat_ofNat', Nat.mod_eq_of_lt (show k < 2 ^ 32 by omega)]
    show k <<< 12 % 2 ^ 32 = k <<< 12
    rw [Nat.shiftLeft_eq]
    exact Nat.mod_eq_of_lt (by omega)
  rw [hshift, UInt32.toNat_or, hwide, UInt32.toNat_ofNat', Nat.mod_eq_of_lt (by omega),
    Nat.or_comm, hor]
  omega

/-- The index that is chosen is free, and below `2 ^ 24`. There is none only if every
table has 4095 entries or more. -/
theorem Holds.getFreeUidx (h : Holds t m) :
    (∃ uidx, getFreeUidx t = .ok (some uidx) ∧ uidx.toNat < 2 ^ 24 ∧ m uidx.toNat = none) ∨
      getFreeUidx t = .ok none ∧ ∀ k < 4096, 4095 ≤ occupied 4096 fun i => m (k * 4096 + i) := by
  have hsize : mlx5QpTable.size = 4096 := rfl
  have hmask : mlx5QpTable.mask.toNat + 1 = 4096 := rfl
  unfold Tables.getFreeUidx
  rw [hsize, hmask]
  rcases firstPage_spec t 4096 0 with ⟨k, hk, -, hlt, hcount⟩ | ⟨hnone, hall⟩
  · rw [Nat.zero_add] at hlt
    have hpage := h.pages k
    have hocc : occupied 4096 (fun i => m (k * 4096 + i)) < 4095 := by
      have := hpage.count
      omega
    rw [hk]
    simp only
    split
    · next hzero =>
      -- the table has not been allocated, and its first element is taken
      have hkey := uidx_toNat hlt (show 0 < 4096 by omega)
      have hempty : occupied 4096 (fun i => m (k * 4096 + i)) = 0 := by
        have := hpage.count
        omega
      rw [show UInt32.ofNat 0 = 0 from rfl, UInt32.or_zero] at hkey
      refine .inl ⟨_, rfl, by omega, ?_⟩
      rw [hkey]
      exact eq_none_of_occupied (m := fun i => m (k * 4096 + i)) (i := 0) hempty (by omega)
    · next hne =>
      obtain ⟨f, hf, hfm⟩ := hpage.cells hne
      obtain ⟨i, hi, hnone⟩ := exists_empty (Nat.lt_succ_of_lt hocc)
      obtain ⟨hbound, hfree⟩ := firstEmpty_spec (f := f) (n := 4096) (i := 0)
        ⟨i, Nat.zero_le i, by omega, (hfm i hi).trans hnone⟩
      rw [Nat.zero_add] at hbound
      have hkey := uidx_toNat hlt hbound
      rw [hf]
      refine .inl ⟨_, rfl, by omega, ?_⟩
      rw [hkey]
      exact (hfm _ hbound).symm.trans hfree
  · rw [hnone]
    refine .inr ⟨rfl, fun k hk => ?_⟩
    have := hall k (Nat.zero_le k) (by omega)
    have := (h.pages k).count
    omega

/-- An index is given out that nothing has. If none is, there is no memory, or the table
is full. -/
theorem Holds.storeUidx (h : Holds t m) (r : R) (alloc : Bool) :
    (∃ t' uidx, mlx5StoreUidx t r alloc = .ok (t', some uidx) ∧ uidx.toNat < 2 ^ 24 ∧
        m uidx.toNat = none ∧ Holds t' (Function.update m uidx.toNat (some r))) ∨
      mlx5StoreUidx t r alloc = .ok (t, none) ∧
        (alloc = true → ∀ k < 4096, 4095 ≤ occupied 4096 fun i => m (k * 4096 + i)) := by
  unfold mlx5StoreUidx
  rcases h.getFreeUidx with ⟨uidx, hget, hlt, hfree⟩ | ⟨hget, hfull⟩
  · rw [hget]
    rcases h.store hlt hfree r alloc with ⟨t', hstore, hholds⟩ | ⟨hstore, halloc⟩
    · refine .inl ⟨t', uidx, ?_, hlt, hfree, hholds⟩
      show (Tables.store mlx5QpTable mlx5QpTable.mask t uidx r alloc >>= _) = _
      rw [hstore]
      rfl
    · refine .inr ⟨?_, fun halloc' => absurd (halloc.symm.trans halloc') Bool.false_ne_true⟩
      show (Tables.store mlx5QpTable mlx5QpTable.mask t uidx r alloc >>= _) = _
      rw [hstore]
      rfl
  · rw [hget]
    exact .inr ⟨rfl, fun _ => hfull⟩

/-- Creating a resource goes wrong exactly if there is no index for it and the kernel
refuses it. -/
theorem Holds.create_fault_iff (h : Holds t m) (r : R) (alloc accepted : Bool) :
    (∃ f, createWithUidx t r alloc accepted = .error f) ↔
      accepted = false ∧ mlx5StoreUidx t r alloc = .ok (t, none) := by
  unfold createWithUidx
  rcases h.storeUidx r alloc with ⟨t', uidx, hstore, -, -, hholds⟩ | ⟨hstore, -⟩
  · obtain ⟨t'', hclear, -⟩ := hholds.clear (n := uidx) (by rw [Function.update_self]; rfl)
    rw [← mlx5ClearUidx] at hclear
    rw [hstore]
    cases accepted <;> simp [ok_bind, hclear, pure, Except.pure]
  · have hclear : mlx5ClearUidx t 0xffffffff = .error .outOfBounds := rfl
    rw [hstore]
    cases accepted <;> simp [hclear, bind, Except.bind, pure, Except.pure]

/-! ## Runs -/

/-- The tables by number, with `held` the numbers that resources have. -/
structure State (R : Type) where
  table : Table R
  held : List UInt32

/-- What can be seen of a step. An insertion that fails has no number. -/
inductive Label (R : Type) where
  | store (r : R) (n : Option UInt32)
  | clear (n : UInt32)
  | find (n : UInt32) (r : Option R)

/-- Which table. -/
inductive Kind where
  | rsc | srq | uidx

def Kind.find : Kind → Table R → UInt32 → Except Fault (Option R)
  | .rsc => mlx5FindRsc
  | .srq => mlx5FindSrq
  | .uidx => mlx5FindUidx

def Kind.clear : Kind → Table R → UInt32 → Except Fault (Table R)
  | .rsc => mlx5ClearRsc
  | .srq => mlx5ClearSrq
  | .uidx => mlx5ClearUidx

/-- The table after an insertion under `n`, and the number unless it has failed. -/
def State.stored (s : State R) (n : UInt32) : Option (Table R) → Table R × Option UInt32
  | none => (s.table, none)
  | some t => (t, some n)

/-- A resource is inserted, with the number `n` that the kernel has chosen for the tables
that are by number. -/
def Kind.insert (kind : Kind) (s : State R) (r : R) (alloc : Bool) (n : UInt32) :
    Except Fault (Table R × Option UInt32) :=
  match kind with
  | .rsc => do pure (s.stored n (← mlx5StoreRsc s.table n r alloc))
  | .srq => do pure (s.stored n (← mlx5StoreSrq s.table n r alloc))
  | .uidx => mlx5StoreUidx s.table r alloc

/-- Operations that are in bounds and touch no table that has been freed. -/
def tables (R : Type) (kind : Kind) : System (State R) (Label R) where
  init s := s = ⟨fun _ => .empty, []⟩
  step s e t := match e with
    | .store r n => ∃ alloc number, kind.insert s r alloc number = .ok (t.table, n) ∧
      t.held = n.toList ++ s.held
    | .clear n => kind.clear s.table n = .ok t.table ∧ t.held = s.held.erase n
    | .find n r => kind.find s.table n = .ok r ∧ t = s

/-- What the tables ask of their callers. It is broken by `mlx5_open_qp`, which stores the
number of a queue pair that is there already, and by `createWithUidx`. -/
def Contract (s : State R) : Label R → Prop
  | .store _ (some n) => n ∉ s.held
  | .clear n => n ∈ s.held
  | _ => True

/-- A map from numbers to resources. -/
def registry (R : Type) : System (Nat → Option R) (Label R) where
  init m := m = fun _ => none
  step m e t := match e with
    | .store _ none => t = m
    | .store r (some n) => n.toNat < 2 ^ 24 ∧ m n.toNat = none ∧
      t = Function.update m n.toNat (some r)
    | .clear n => (m n.toNat).isSome ∧ t = Function.update m n.toNat none
    | .find n r => r = m n.toNat ∧ t = m

/-- The resources with a number are those in the table. -/
structure Related (s : State R) (m : Nat → Option R) : Prop where
  holds : Holds s.table m
  nodup : s.held.Nodup
  held : ∀ n, n ∈ s.held ↔ (m n.toNat).isSome

variable {s : State R} {kind : Kind}

/-- The tables have the same geometry. -/
theorem kind_find (kind : Kind) : (kind.find : Table R → _) = find mlx5QpTable := by
  cases kind <;> rfl

theorem kind_clear (kind : Kind) :
    (kind.clear : Table R → _) = clear mlx5QpTable mlx5QpTable.mask := by
  cases kind <;> rfl

theorem kind_insert_numbered (kind : Kind) (hkind : kind ≠ .uidx) (s : State R) (r : R)
    (alloc : Bool) (n : UInt32) : kind.insert s r alloc n =
      (store mlx5QpTable mlx5QpTable.mask s.table n r alloc >>= fun t => pure (s.stored n t)) := by
  cases kind with
  | rsc => rfl
  | srq => rfl
  | uidx => exact absurd rfl hkind

/-- An insertion into a table by number. -/
theorem Related.insert_numbered (h : Related s m) (hkind : kind ≠ .uidx) (r : R) (alloc : Bool)
    {n : UInt32} (hn : n ∉ s.held) (hlt : n.toNat < 2 ^ 24) :
    (∃ t', kind.insert s r alloc n = .ok (t', some n) ∧ m n.toNat = none ∧
        Holds t' (Function.update m n.toNat (some r))) ∨
      kind.insert s r alloc n = .ok (s.table, none) := by
  have hfree : m n.toNat = none := by
    have := mt (h.held n).mpr hn
    rwa [Option.not_isSome_iff_eq_none] at this
  rw [kind_insert_numbered kind hkind]
  rcases h.holds.store hlt hfree r alloc with ⟨t', ht, hholds⟩ | ⟨ht, -⟩
  · exact .inl ⟨t', by simp only [ht]; rfl, hfree, hholds⟩
  · exact .inr (by simp only [ht]; rfl)

/-- Whatever is inserted without an error has a new number in bounds, if the callers keep
the contract. -/
theorem Related.inserted (h : Related s m) {alloc : Bool} {number : UInt32} {t' : Table R}
    {n : Option UInt32} (hins : kind.insert s r alloc number = .ok (t', n))
    (hnew : ∀ k, n = some k → k ∉ s.held) :
    n = none ∧ t' = s.table ∨ ∃ k, n = some k ∧ k.toNat < 2 ^ 24 ∧ m k.toNat = none ∧
      Holds t' (Function.update m k.toNat (some r)) := by
  by_cases hkind : kind = .uidx
  · subst hkind
    rcases h.holds.storeUidx r alloc with ⟨t'', k, ht, hlt, hfree, hholds⟩ | ⟨ht, -⟩
    · obtain ⟨rfl, rfl⟩ := Prod.mk.inj (Except.ok.inj (hins.symm.trans ht))
      exact .inr ⟨k, rfl, hlt, hfree, hholds⟩
    · obtain ⟨rfl, rfl⟩ := Prod.mk.inj (Except.ok.inj (hins.symm.trans ht))
      exact .inl ⟨rfl, rfl⟩
  · have hins' := hins
    rw [kind_insert_numbered kind hkind] at hins'
    obtain ⟨x, hx, hpure⟩ := bind_ok hins'
    have hlt : number.toNat < 2 ^ 24 := by
      rw [Tables.store] at hx
      split at hx
      · cases hx
      · next hin => exact lt_of_in_bounds hin
    cases x with
    | none =>
      obtain ⟨rfl, rfl⟩ := Prod.mk.inj (Except.ok.inj hpure)
      exact .inl ⟨rfl, rfl⟩
    | some t'' =>
      obtain ⟨rfl, rfl⟩ := Prod.mk.inj (Except.ok.inj hpure)
      rcases h.insert_numbered hkind r alloc (hnew number rfl) hlt with ⟨t', ht, hfree, hholds⟩ | ht
      · obtain ⟨rfl, -⟩ := Prod.mk.inj (Except.ok.inj (hins.symm.trans ht))
        exact .inr ⟨number, rfl, hlt, hfree, hholds⟩
      · cases hins.symm.trans ht

theorem Related.added (h : Related s m) {t : Table R} {n : UInt32} (hfree : m n.toNat = none)
    (hholds : Holds t (Function.update m n.toNat (some r))) :
    Related ⟨t, n :: s.held⟩ (Function.update m n.toNat (some r)) := by
  have hnew : n ∉ s.held := by
    rw [h.held, hfree]
    exact Bool.false_ne_true
  refine ⟨hholds, List.nodup_cons.mpr ⟨hnew, h.nodup⟩, fun k => ?_⟩
  rcases eq_or_ne k n with rfl | hne
  · simp
  · have hkey : k.toNat ≠ n.toNat := fun heq => hne (UInt32.toNat_inj.mp heq)
    rw [List.mem_cons, Function.update_of_ne hkey, h.held]
    simp [hne]

theorem Related.removed (h : Related s m) {t : Table R} {n : UInt32}
    (hholds : Holds t (Function.update m n.toNat none)) :
    Related ⟨t, s.held.erase n⟩ (Function.update m n.toNat none) := by
  refine ⟨hholds, h.nodup.erase n, fun k => ?_⟩
  rw [h.nodup.mem_erase_iff]
  rcases eq_or_ne k n with rfl | hne
  · simp
  · have hkey : k.toNat ≠ n.toNat := fun heq => hne (UInt32.toNat_inj.mp heq)
    rw [Function.update_of_ne hkey, h.held]
    simp [hne]

theorem tables_simulates :
    Simulates (only (tables R kind) Contract) (registry R) Related where
  init s h := by
    obtain rfl : s = ⟨fun _ => .empty, []⟩ := h
    exact ⟨fun _ => none, rfl, holds_empty, List.nodup_nil, by simp⟩
  step s e t m hstep h := by
    obtain ⟨hcontract, hstep⟩ := hstep
    cases e with
    | store r n =>
      obtain ⟨alloc, number, hins, hheld⟩ := hstep
      have ht : t = ⟨t.table, n.toList ++ s.held⟩ := by rw [← hheld]
      have hnew : ∀ k, n = some k → k ∉ s.held := by
        rintro k rfl
        exact hcontract
      rcases h.inserted hins hnew with ⟨rfl, htable⟩ | ⟨k, rfl, hlt, hfree, hholds⟩
      · rw [ht, htable]
        exact ⟨m, rfl, h⟩
      · rw [ht]
        exact ⟨_, ⟨hlt, hfree, rfl⟩, h.added hfree hholds⟩
    | clear n =>
      obtain ⟨hclear, hheld⟩ := hstep
      have hsome := (h.held n).mp hcontract
      have ht : t = ⟨t.table, s.held.erase n⟩ := by rw [← hheld]
      obtain ⟨t', hok, hholds⟩ := h.holds.clear hsome
      rw [kind_clear, hok] at hclear
      rw [ht, ← Except.ok.inj hclear]
      exact ⟨_, ⟨hsome, rfl⟩, h.removed hholds⟩
    | find n r =>
      obtain ⟨hfind, rfl⟩ := hstep
      have hlt : n.toNat < 2 ^ 24 := by
        rw [kind_find, Tables.find] at hfind
        split at hfind
        · cases hfind
        · next hin => exact lt_of_in_bounds hin
      rw [kind_find, h.holds.find hlt] at hfind
      exact ⟨m, ⟨(Except.ok.inj hfind).symm, rfl⟩, h⟩

/-- Two resources get the user indices 0 and 1, and the index of the first one is used
again for a third one. -/
def reusedIndex : List (Label Char) :=
  [.store 'a' (some 0), .store 'b' (some 1), .clear 0, .store 'c' (some 0), .find 1 (some 'b')]

theorem run_reusedIndex : ∃ s, Run (only (tables Char .uidx) Contract) reusedIndex s ∧
    s.held = [0, 1] ∧ (s.table 0).count = 2 ∧ mlx5FindUidx s.table 1 = .ok (some 'b') := by
  have hinit : (only (tables Char .uidx) Contract).init ⟨fun _ => .empty, []⟩ := rfl
  have hfirst := Run.snoc (.nil hinit) (e := Label.store 'a' (some 0)) (t := ⟨_, [0]⟩)
    ⟨List.not_mem_nil, true, 0, rfl, rfl⟩
  have hsecond := Run.snoc hfirst (e := Label.store 'b' (some 1)) (t := ⟨_, [1, 0]⟩)
    ⟨show (1 : UInt32) ∉ [0] by decide, true, 0, rfl, rfl⟩
  have hclear := Run.snoc hsecond (e := Label.clear 0) (t := ⟨_, [1]⟩)
    ⟨show (0 : UInt32) ∈ [1, 0] by decide, rfl, rfl⟩
  have hthird := Run.snoc hclear (e := Label.store 'c' (some 0)) (t := ⟨_, [0, 1]⟩)
    ⟨show (0 : UInt32) ∉ [1] by decide, true, 0, rfl, rfl⟩
  exact ⟨_, .snoc hthird (e := Label.find 1 (some 'b')) ⟨trivial, rfl, rfl⟩, rfl, rfl, rfl⟩

/-- The tables of queue pairs, of shared receive queues and of user indices are maps, for
callers that keep the contract: a lookup finds the resource that has been stored under the
number and not cleared, and no operation is out of bounds or touches a table that has been
freed. Creating a resource with a user index goes out of bounds exactly if there is no index
for it and the kernel refuses it. -/
theorem tables_run_registry {ls : List (Label R)} (h : Run (only (tables R kind) Contract) ls s) :
    ∃ m, Run (registry R) ls m ∧
      (∀ n, n.toNat < 2 ^ 24 → kind.find s.table n = .ok (m n.toNat)) ∧
      (∀ n ∈ s.held, ∃ t, kind.clear s.table n = .ok t) ∧
      (∀ r alloc n, n ∉ s.held → n.toNat < 2 ^ 24 → ∃ t, kind.insert s r alloc n = .ok t) ∧
      ∀ r alloc accepted, (∃ f, createWithUidx s.table r alloc accepted = .error f) ↔
        accepted = false ∧ mlx5StoreUidx s.table r alloc = .ok (s.table, none) := by
  obtain ⟨m, hrun, hrel⟩ := tables_simulates.run h
  refine ⟨m, hrun, fun n hn => ?_, fun n hn => ?_, fun r alloc n hn hlt => ?_,
    hrel.holds.create_fault_iff⟩
  · rw [kind_find]
    exact hrel.holds.find hn
  · obtain ⟨t, ht, -⟩ := hrel.holds.clear ((hrel.held n).mp hn)
    exact ⟨t, by rw [kind_clear]; exact ht⟩
  · by_cases hkind : kind = .uidx
    · subst hkind
      rcases hrel.holds.storeUidx r alloc with ⟨t, k, ht, -⟩ | ⟨ht, -⟩
      · exact ⟨_, ht⟩
      · exact ⟨_, ht⟩
    · rcases hrel.insert_numbered hkind r alloc hn hlt with ⟨t, ht, -⟩ | ht
      · exact ⟨_, ht⟩
      · exact ⟨_, ht⟩

theorem tables_run_registry_reused : ∃ m, Run (registry Char) reusedIndex m ∧ m 1 = some 'b' := by
  obtain ⟨s, hs, -, -, hfind⟩ := run_reusedIndex
  obtain ⟨m, hm, hall, -⟩ := tables_run_registry hs
  have hone := hall 1 (by decide)
  exact ⟨m, hm, Option.some.inj (congrArg Except.toOption (hone.symm.trans hfind))⟩

/-- Without the contract: a number that is stored twice and cleared once is not found any
more, although it counts. -/
example : ∃ s, Run (tables Char .rsc)
    [.store 'a' (some 5), .store 'b' (some 5), .clear 5, .find 5 none] s ∧
      (s.table 0).count = 1 := by
  have hinit : (tables Char .rsc).init ⟨fun _ => .empty, []⟩ := rfl
  have hfirst := Run.snoc (.nil hinit) (e := Label.store 'a' (some 5)) (t := ⟨_, [5]⟩)
    ⟨true, 5, rfl, rfl⟩
  have hsecond := Run.snoc hfirst (e := Label.store 'b' (some 5)) (t := ⟨_, [5, 5]⟩)
    ⟨true, 5, rfl, rfl⟩
  have hclear := Run.snoc hsecond (e := Label.clear 5) (t := ⟨_, [5]⟩) ⟨rfl, rfl⟩
  exact ⟨_, .snoc hclear ⟨rfl, rfl⟩, rfl⟩

/-- The driver gives out a user index that no resource has. It has none to give out only
if each of the 4096 tables has 4095 resources or more. -/
theorem uidx_unique {ls : List (Label R)} (h : Run (only (tables R .uidx) Contract) ls s) (r : R) :
    (∃ t uidx, mlx5StoreUidx s.table r true = .ok (t, some uidx) ∧ uidx ∉ s.held ∧
        mlx5FindUidx t uidx = .ok (some r) ∧
        ∀ n ∈ s.held, mlx5FindUidx t n = mlx5FindUidx s.table n) ∨
      mlx5StoreUidx s.table r true = .ok (s.table, none) ∧
        ∀ k < 4096, 4095 ≤ (s.table k).count := by
  obtain ⟨m, -, hrel⟩ := tables_simulates.run h
  rcases hrel.holds.storeUidx r true with ⟨t, uidx, ht, hlt, hfree, hholds⟩ | ⟨ht, hfull⟩
  · have hnew : uidx ∉ s.held := by
      rw [hrel.held, hfree]
      exact Bool.false_ne_true
    refine .inl ⟨t, uidx, ht, hnew, ?_, fun n hn => ?_⟩
    · rw [mlx5FindUidx, hholds.find hlt, Function.update_self]
    · have hsome := (hrel.held n).mp hn
      have hsmall : n.toNat < 2 ^ 24 := by
        by_contra hge
        rw [hrel.holds.small _ (Nat.not_lt.mp hge)] at hsome
        cases hsome
      have hne : n.toNat ≠ uidx.toNat := fun heq => hnew (UInt32.toNat_inj.mp heq ▸ hn)
      rw [mlx5FindUidx, mlx5FindUidx, hholds.find hsmall, hrel.holds.find hsmall,
        Function.update_of_ne hne]
  · refine .inr ⟨ht, fun k hk => ?_⟩
    have := hfull rfl k hk
    have := (hrel.holds.pages k).count
    omega

theorem uidx_unique_reused : ∃ s : State Char,
    Run (only (tables Char .uidx) Contract) reusedIndex s ∧
    ∃ t uidx, mlx5StoreUidx s.table 'd' true = .ok (t, some uidx) ∧ uidx ∉ [0, 1] ∧
      mlx5FindUidx t uidx = .ok (some 'd') ∧ mlx5FindUidx t 1 = .ok (some 'b') := by
  obtain ⟨s, hs, hheld, hcount, hfind⟩ := run_reusedIndex
  refine ⟨s, hs, ?_⟩
  rcases uidx_unique hs 'd' with ⟨t, uidx, ht, hnew, hfound, hkept⟩ | ⟨-, hfull⟩
  · rw [hheld] at hnew hkept
    exact ⟨t, uidx, ht, hnew, hfound, (hkept 1 (by decide)).trans hfind⟩
  · have hmany := hfull 0 (by decide)
    rw [hcount] at hmany
    exact absurd hmany (by decide)

end RdmaBench.Mlx5.Tables
