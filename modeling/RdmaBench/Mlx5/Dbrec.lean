import RdmaBench.Lib.Bitmap
import RdmaBench.Lib.Bits
import RdmaBench.Lib.Runs

/-! # Doorbell records

A doorbell record is a cache line of its own in a page that the NIC can read. A page
has a bitmap of its free records, in which all bits of the words are set at first, also
those of records that the page does not have, and a count of those in use. The record
that is given out is the first free one of the first page that is not full. A page is
found again by its address, and given back with its last record. -/

namespace RdmaBench.Mlx5.Dbrec
open RdmaBench.Lib RdmaBench.Lib.Bitmap RdmaBench.Lib.Bits RdmaBench.Lib.Runs
open RdmaBench.Lib.Paged (occupied exists_empty isSome_of_full eq_none_of_occupied
  occupied_store occupied_clear)

/-- `page_size` is a power of two, and `cache_line_size` at most as large. -/
structure Config where
  log : Nat
  log_lt : log < 31
  line : Nat
  line_pos : 0 < line
  line_le : line ≤ 2 ^ log

def Config.ps (c : Config) : Nat := 2 ^ c.log

/-- Records of a page. -/
def Config.pp (c : Config) : Nat := c.ps / c.line

/-- Words of a bitmap. -/
def Config.nlong (c : Config) : Nat := (c.pp + 64 - 1) / 64

/-- `struct mlx5_db_page` -/
structure Page where
  buf : Nat
  numDb : Nat
  useCnt : Int
  free : Nat → BitVec 64

/-- The search runs past the bitmap. -/
inductive Fault where
  | overrun

/-- `__add_page`, with the address that `mlx5_alloc_buf` returns. -/
def addPage (c : Config) (buf : Nat) : Page := ⟨buf, c.pp, 0, fun _ => ~~~0⟩

/-- From `found` on. -/
def Page.take (c : Config) (p : Page) : Except Fault (Nat × Page) :=
  match lowest p.free c.nlong with
  | none => .error .overrun
  | some k => .ok (p.buf + k * c.line,
      { p with useCnt := p.useCnt + 1, free := clearBit p.free k })

/-- `new` is the page that there is to add, if one is needed. -/
def mlx5AllocDbrec (c : Config) (dbList : List Page) (new : Option Nat) :
    Except Fault (Option Nat × List Page) :=
  match dbList.span fun p => !decide (p.useCnt < p.numDb) with
  | (before, p :: after) => do
    let (db, p) ← p.take c
    pure (some db, before ++ p :: after)
  | (_, []) =>
    match new with
    | none => pure (none, dbList)
    | some buf => do
      let (db, p) ← (addPage c buf).take c
      pure (some db, p :: dbList)

def mlx5FreeDb (c : Config) (dbList : List Page) (db : Nat) : List Page :=
  match dbList.span fun p => !decide (db &&& not64 (c.ps - 1) = p.buf) with
  | (before, p :: after) =>
    let i := (db - p.buf) / c.line
    let p := { p with useCnt := p.useCnt - 1, free := setBit p.free i }
    if p.useCnt = 0 then before ++ after else before ++ p :: after
  | (_, []) => dbList

/-! ## Runs -/

/-- `held` are the records that have been given out. -/
structure State where
  dbList : List Page
  held : List Nat

inductive Event where
  | alloc (db : Option Nat)
  | free (db : Nat)

/-- Memory for a page is aligned, and no other page is there. -/
structure Fresh (c : Config) (dbList : List Page) (buf : Nat) : Prop where
  aligned : c.ps ∣ buf
  top : buf + c.ps ≤ 2 ^ 64
  new : ∀ p ∈ dbList, p.buf ≠ buf

def dbrecs (c : Config) : System State Event where
  init s := s = ⟨[], []⟩
  step s e t := match e with
    | .alloc db => ∃ new : Option Nat, (∀ buf ∈ new, Fresh c s.dbList buf) ∧
      mlx5AllocDbrec c s.dbList new = .ok (db, t.dbList) ∧ t.held = db.toList ++ s.held
    | .free db => db ∈ s.held ∧ t = ⟨mlx5FreeDb c s.dbList db, s.held.erase db⟩

/-! ## A page -/

variable {c : Config} {p q : Page} {k : Nat} {a : Nat}

theorem Config.pp_pos (c : Config) : 0 < c.pp := Nat.div_pos c.line_le c.line_pos

theorem Config.pp_le (c : Config) : c.pp ≤ c.nlong * 64 := by
  unfold Config.nlong
  omega

/-- A record is in its page. -/
theorem Config.record_le (c : Config) (hk : k < c.pp) : (k + 1) * c.line ≤ c.ps :=
  Nat.le_trans (Nat.mul_le_mul_right _ hk) (Nat.div_mul_le_self c.ps c.line)

/-- Only records that the page has are in use, and `use_cnt` counts them. -/
structure Page.Ok (c : Config) (p : Page) : Prop where
  aligned : c.ps ∣ p.buf
  top : p.buf + c.ps ≤ 2 ^ 64
  num : p.numDb = c.pp
  count : p.useCnt = occupied c.pp (clears p.free)
  high : ∀ k, c.pp ≤ k → bit p.free k = true

/-- The record at address `a` is in use. -/
def Page.Has (c : Config) (p : Page) (a : Nat) : Prop :=
  ∃ k < c.pp, bit p.free k = false ∧ a = p.buf + k * c.line

theorem clears_eq_none (f : Nat → BitVec 64) (k : Nat) :
    clears f k = none ↔ bit f k = true := by
  unfold clears
  split
  · next h => simp [h]
  · next h => simp [h]

theorem bit_addPage (c : Config) (buf k : Nat) : bit (addPage c buf).free k = true := by
  have hlt : k % 64 < 64 := Nat.mod_lt k (by omega)
  rw [bit, addPage, BitVec.getLsbD_not]
  simp [hlt]

theorem addPage_ok {dbList : List Page} {buf : Nat} (h : Fresh c dbList buf) :
    (addPage c buf).Ok c := by
  refine ⟨h.aligned, h.top, rfl, ?_, fun k _ => bit_addPage c buf k⟩
  have hnone : clears (addPage c buf).free = fun _ => none :=
    funext fun k => (clears_eq_none _ k).mpr (bit_addPage c buf k)
  rw [hnone]
  simp [addPage, occupied]

/-- A page that is not full gives out a record that it has, and that is not in use. -/
theorem Page.Ok.take (h : p.Ok c) (hroom : p.useCnt < p.numDb) :
    ∃ k < c.pp, bit p.free k = true ∧
      p.take c = .ok (p.buf + k * c.line,
        { p with useCnt := p.useCnt + 1, free := clearBit p.free k }) := by
  have hocc : occupied c.pp (clears p.free) < c.pp := by
    have hcount := h.count
    have hnum := h.num
    omega
  obtain ⟨j, hj, hnone⟩ := exists_empty hocc
  have hbit := (clears_eq_none _ j).mp hnone
  obtain ⟨k, hk, hset, hleast⟩ := lowest_spec (by omega)
    ⟨j, Nat.lt_of_lt_of_le hj c.pp_le, hbit⟩
  have hlt : k < c.pp := Nat.lt_of_le_of_lt (hleast j hbit) hj
  exact ⟨k, hlt, hset, by rw [Page.take, hk]⟩

theorem Page.Ok.clearBit (h : p.Ok c) (hk : k < c.pp) (hset : bit p.free k = true) :
    Page.Ok c { p with useCnt := p.useCnt + 1, free := clearBit p.free k } := by
  refine ⟨h.aligned, h.top, h.num, ?_, fun j hj => ?_⟩
  · show p.useCnt + 1 = _
    rw [clears_clearBit (by omega), occupied_store hk
      ((clears_eq_none _ k).mpr hset), h.count]
    rfl
  · show bit (Bitmap.clearBit p.free k) j = true
    rw [bit_clearBit (by omega), h.high j hj]
    simp only [Bool.and_true, Bool.not_eq_true', decide_eq_false_iff_not]
    omega

theorem Page.Ok.setBit (h : p.Ok c) (hk : k < c.pp) (hclear : bit p.free k = false) :
    Page.Ok c { p with useCnt := p.useCnt - 1, free := setBit p.free k } := by
  have hsome : (clears p.free k).isSome := by simp [clears, hclear]
  have hocc := occupied_clear hk hsome
  refine ⟨h.aligned, h.top, h.num, ?_, fun j hj => ?_⟩
  · show p.useCnt - 1 = _
    rw [clears_setBit (by omega), h.count]
    omega
  · show bit (Bitmap.setBit p.free k) j = true
    rw [bit_setBit (by omega), h.high j hj, Bool.or_true]

/-- The address of a record. -/
theorem record_inj {k' : Nat} (h : p.buf + k * c.line = p.buf + k' * c.line) : k = k' :=
  Nat.eq_of_mul_eq_mul_right c.line_pos (Nat.add_left_cancel h)

theorem has_clearBit {n : Int} (hk : k < c.pp) :
    Page.Has c { p with useCnt := n, free := clearBit p.free k } a ↔
      a = p.buf + k * c.line ∨ p.Has c a := by
  constructor
  · rintro ⟨j, hj, hbit, rfl⟩
    rw [bit_clearBit (by omega)] at hbit
    by_cases hjk : j = k
    · exact .inl (by rw [hjk])
    · exact .inr ⟨j, hj, by simpa [hjk] using hbit, rfl⟩
  · rintro (rfl | ⟨j, hj, hbit, rfl⟩)
    · exact ⟨k, hk, by rw [bit_clearBit (by omega)]; simp, rfl⟩
    · exact ⟨j, hj, by rw [bit_clearBit (by omega), hbit, Bool.and_false], rfl⟩

theorem has_setBit {n : Int} :
    Page.Has c { p with useCnt := n, free := setBit p.free k } a ↔
      a ≠ p.buf + k * c.line ∧ p.Has c a := by
  constructor
  · rintro ⟨j, hj, hbit, rfl⟩
    rw [bit_setBit (by omega), Bool.or_eq_false_iff, decide_eq_false_iff_not] at hbit
    exact ⟨fun heq => hbit.1 (record_inj heq), j, hj, hbit.2, rfl⟩
  · rintro ⟨hne, j, hj, hbit, rfl⟩
    have hjk : j ≠ k := fun h => hne (by rw [h])
    exact ⟨j, hj, by rw [bit_setBit (by omega), hbit]; simp [hjk], rfl⟩

/-- The page of a record is found by its address. -/
theorem Page.Ok.mask (h : p.Ok c) (hk : k < c.pp) :
    (p.buf + k * c.line) &&& not64 (c.ps - 1) = p.buf := by
  obtain ⟨b, hb⟩ := h.aligned
  have hrec := c.record_le hk
  have htop := h.top
  have hlt : k * c.line < c.ps := by
    have := c.line_pos
    rw [Nat.succ_mul] at hrec
    omega
  have hmask := and_not64_mask (Nat.le_trans (Nat.le_of_lt c.log_lt) (by omega))
    (show p.buf + k * c.line < 2 ^ 64 by omega)
  rw [Config.ps, hmask]
  show (p.buf + k * c.line) / c.ps * c.ps = p.buf
  rw [hb, Nat.mul_add_div (by omega), Nat.div_eq_of_lt hlt, Nat.add_zero, Nat.mul_comm]

theorem Page.Ok.mask_of_has (h : p.Ok c) (hhas : p.Has c a) :
    a &&& not64 (c.ps - 1) = p.buf := by
  obtain ⟨k, hk, -, rfl⟩ := hhas
  exact h.mask hk

/-- A page in use has a record in use. -/
theorem Page.Ok.exists_has (h : p.Ok c) (hused : 0 < p.useCnt) : ∃ a, p.Has c a := by
  by_contra hnone
  have hclears : clears p.free = fun _ => none := by
    funext k
    rw [clears_eq_none]
    rcases Nat.lt_or_ge k c.pp with hk | hk
    · exact Bool.eq_true_of_not_eq_false fun hbit => hnone ⟨_, k, hk, hbit, rfl⟩
    · exact h.high k hk
  have hcount := h.count
  rw [hclears] at hcount
  simp [occupied] at hcount
  omega

/-! ## The list -/

/-- The records that are held are those in use. -/
structure Covers (c : Config) (dbList : List Page) (held : List Nat) : Prop where
  ok : ∀ p ∈ dbList, p.Ok c
  bufs : (dbList.map Page.buf).Nodup
  nodup : held.Nodup
  held : ∀ a, a ∈ held ↔ ∃ p ∈ dbList, p.Has c a

variable {before after dbList : List Page} {held : List Nat} {buf : Nat}

theorem mem_middle : q ∈ before ++ p :: after ↔ q = p ∨ q ∈ before ++ after := by
  simp only [List.mem_append, List.mem_cons]
  exact or_left_comm

/-- What holds of some page, by whether it is the one in the middle. -/
theorem exists_mem_middle {P : Page → Prop} :
    (∃ q ∈ before ++ p :: after, P q) ↔ P p ∨ ∃ q ∈ before ++ after, P q := by
  simp only [mem_middle, or_and_right, exists_or, exists_eq_left]

theorem nodup_middle : ((before ++ p :: after).map Page.buf).Nodup ↔
    (∀ q ∈ before ++ after, q.buf ≠ p.buf) ∧ ((before ++ after).map Page.buf).Nodup := by
  rw [List.map_append, List.map_cons, List.nodup_middle, List.nodup_cons, ← List.map_append]
  simp only [List.mem_map, not_exists, not_and]

/-- A record is in one page. -/
theorem Covers.not_has (h : Covers c (before ++ p :: after) held) {k : Nat} (hk : k < c.pp)
    (hq : q ∈ before ++ after) : ¬q.Has c (p.buf + k * c.line) := by
  intro hother
  have hp := (h.ok p (mem_middle.mpr (.inl rfl))).mask hk
  have hmask := (h.ok q (mem_middle.mpr (.inr hq))).mask_of_has hother
  exact (nodup_middle.mp h.bufs).1 q hq (hmask.symm.trans hp)

theorem Covers.replace (h : Covers c (before ++ p :: after) held) (hok : q.Ok c)
    (hbuf : q.buf = p.buf) : (∀ r ∈ before ++ q :: after, r.Ok c) ∧
      ((before ++ q :: after).map Page.buf).Nodup := by
  refine ⟨fun r hr => ?_, ?_⟩
  · rcases mem_middle.mp hr with rfl | hr
    · exact hok
    · exact h.ok r (mem_middle.mpr (.inr hr))
  · rw [nodup_middle, hbuf]
    exact nodup_middle.mp h.bufs

theorem Covers.add (h : Covers c dbList held) (hf : Fresh c dbList buf) :
    Covers c (addPage c buf :: dbList) held := by
  have hok := addPage_ok hf
  refine ⟨?_, ?_, h.nodup, fun a => ?_⟩
  · rintro p (_ | ⟨_, hp⟩)
    · exact hok
    · exact h.ok p hp
  · rw [List.map_cons, List.nodup_cons]
    refine ⟨fun hmem => ?_, h.bufs⟩
    obtain ⟨p, hp, hbuf⟩ := List.mem_map.mp hmem
    exact hf.new p hp hbuf
  · have hnone : ¬(addPage c buf).Has c a := by
      rintro ⟨k, -, hbit, -⟩
      rw [bit_addPage] at hbit
      cases hbit
    rw [h.held a, List.exists_mem_cons_iff, or_iff_right hnone]

theorem Covers.take {n : Int} (h : Covers c (before ++ p :: after) held) (hk : k < c.pp)
    (hset : bit p.free k = true) (hn : n = p.useCnt + 1) :
    Covers c (before ++ { p with useCnt := n, free := clearBit p.free k } :: after)
      ((p.buf + k * c.line) :: held) := by
  subst hn
  obtain ⟨hok, hbufs⟩ := h.replace
    ((h.ok p (mem_middle.mpr (.inl rfl))).clearBit hk hset) rfl
  refine ⟨hok, hbufs, List.nodup_cons.mpr ⟨fun hmem => ?_, h.nodup⟩, fun a => ?_⟩
  · rcases exists_mem_middle.mp ((h.held _).mp hmem) with hhas | ⟨q, hq, hhas⟩
    · obtain ⟨j, -, hbit, heq⟩ := hhas
      rw [← record_inj heq, hset] at hbit
      cases hbit
    · exact h.not_has hk hq hhas
  · rw [List.mem_cons, h.held a, exists_mem_middle, exists_mem_middle, has_clearBit hk, or_assoc]

theorem Covers.give {n : Int} (h : Covers c (before ++ p :: after) held) (hk : k < c.pp)
    (hclear : bit p.free k = false) (hn : n = p.useCnt - 1) :
    Covers c (before ++ { p with useCnt := n, free := setBit p.free k } :: after)
      (held.erase (p.buf + k * c.line)) := by
  subst hn
  obtain ⟨hok, hbufs⟩ := h.replace
    ((h.ok p (mem_middle.mpr (.inl rfl))).setBit hk hclear) rfl
  refine ⟨hok, hbufs, h.nodup.erase _, fun a => ?_⟩
  rw [h.nodup.mem_erase_iff, h.held a, exists_mem_middle, exists_mem_middle, has_setBit,
    and_or_left]
  apply or_congr_right
  constructor
  · exact And.right
  · rintro ⟨q, hq, hhas⟩
    refine ⟨?_, q, hq, hhas⟩
    rintro rfl
    exact h.not_has hk hq hhas

/-- A page is given back when none of its records is in use. -/
theorem Covers.drop (h : Covers c (before ++ p :: after) held) (hz : p.useCnt = 0) :
    Covers c (before ++ after) held := by
  have hp := h.ok p (mem_middle.mpr (.inl rfl))
  have hnone : ∀ a, ¬p.Has c a := by
    rintro a ⟨k, hk, hbit, -⟩
    have hocc : occupied c.pp (clears p.free) = 0 := by exact_mod_cast hp.count.symm.trans hz
    have hset := (clears_eq_none _ k).mp (eq_none_of_occupied hocc hk)
    rw [hbit] at hset
    cases hset
  refine ⟨fun q hq => h.ok q (mem_middle.mpr (.inr hq)), (nodup_middle.mp h.bufs).2, h.nodup,
    fun a => ?_⟩
  rw [h.held a, exists_mem_middle, or_iff_right (hnone a)]

/-- A search splits the list before the first page with `f`. -/
theorem span_spec (f : Page → Bool) (l : List Page) :
    (∃ before p after, l.span (fun p => !f p) = (before, p :: after) ∧ l = before ++ p :: after ∧
      f p = true) ∨ l.span (fun p => !f p) = (l, []) ∧ ∀ p ∈ l, f p = false := by
  rw [List.span_eq_takeWhile_dropWhile]
  induction l with
  | nil => exact .inr ⟨rfl, by simp⟩
  | cons q l ih =>
    cases hq : f q with
    | true => exact .inl ⟨[], q, l, by simp [hq], rfl, hq⟩
    | false =>
      rw [List.takeWhile_cons_of_pos (by simp [hq]), List.dropWhile_cons_of_pos (by simp [hq])]
      rcases ih with ⟨before, p, after, hspan, hl, hp⟩ | ⟨hspan, hall⟩
      · obtain ⟨htake, hdrop⟩ := Prod.mk.inj hspan
        exact .inl ⟨q :: before, p, after, by rw [htake, hdrop], by rw [hl]; rfl, hp⟩
      · obtain ⟨htake, hdrop⟩ := Prod.mk.inj hspan
        exact .inr ⟨by rw [htake, hdrop], List.forall_mem_cons.mpr ⟨hq, hall⟩⟩

/-- A record is given out, of a page that was in the list or of a new one, or there is
none and no memory for more. -/
theorem alloc_spec {new : Option Nat} (h : Covers c dbList held)
    (hused : ∀ p ∈ dbList, 0 < p.useCnt) (hnew : ∀ buf ∈ new, Fresh c dbList buf) :
    (∃ db l, mlx5AllocDbrec c dbList new = .ok (some db, l) ∧ Covers c l (db :: held) ∧
      ∀ p ∈ l, 0 < p.useCnt) ∨
    mlx5AllocDbrec c dbList new = .ok (none, dbList) ∧ new = none ∧
      ∀ p ∈ dbList, ∀ k < c.pp, p.buf + k * c.line ∈ held := by
  unfold mlx5AllocDbrec
  rcases span_spec (fun p => decide (p.useCnt < p.numDb)) dbList with
    ⟨before, p, after, hspan, rfl, hroom⟩ | ⟨hspan, hfull⟩
  · have hp := h.ok p (mem_middle.mpr (.inl rfl))
    have hcnt := hused p (mem_middle.mpr (.inl rfl))
    obtain ⟨k, hk, hset, htake⟩ := hp.take (of_decide_eq_true hroom)
    refine .inl ⟨_, _, by simp only [hspan, htake]; rfl, h.take hk hset rfl, fun q hq => ?_⟩
    rcases mem_middle.mp hq with rfl | hq
    · show 0 < p.useCnt + 1
      omega
    · exact hused q (mem_middle.mpr (.inr hq))
  · simp only [hspan]
    cases new with
    | none =>
      refine .inr ⟨rfl, rfl, fun p hp k hk => (h.held _).mpr ⟨p, hp, k, hk, ?_, rfl⟩⟩
      have hok := h.ok p hp
      have hocc : c.pp ≤ occupied c.pp (clears p.free) := by
        have hcount := hok.count
        have hnum := hok.num
        have hge := of_decide_eq_false (hfull p hp)
        omega
      have hsome := isSome_of_full hocc hk
      simpa [clears] using hsome
    | some buf =>
      have hf := hnew buf rfl
      obtain ⟨k, hk, hset, htake⟩ := (addPage_ok hf).take (by
        have := c.pp_pos
        simp only [addPage]
        omega)
      have hadd : Covers c ([] ++ addPage c buf :: dbList) held := h.add hf
      refine .inl ⟨_, _, by simp only [htake]; rfl, hadd.take hk hset rfl, ?_⟩
      rintro p (_ | ⟨_, hp⟩)
      · exact Int.one_pos
      · exact hused p hp

theorem free_spec {db : Nat} (h : Covers c dbList held) (hused : ∀ p ∈ dbList, 0 < p.useCnt)
    (hdb : db ∈ held) : Covers c (mlx5FreeDb c dbList db) (held.erase db) ∧
      ∀ p ∈ mlx5FreeDb c dbList db, 0 < p.useCnt := by
  obtain ⟨q, hq, hhas⟩ := (h.held db).mp hdb
  unfold mlx5FreeDb
  rcases span_spec (fun p => decide (db &&& not64 (c.ps - 1) = p.buf)) dbList with
    ⟨before, p, after, hspan, rfl, hfound⟩ | ⟨-, hnone⟩
  · have hbuf := of_decide_eq_true hfound
    have hcnt := hused p (mem_middle.mpr (.inl rfl))
    -- the page found is the one that has the record
    have hqp : q = p := by
      rcases mem_middle.mp hq with rfl | hq'
      · rfl
      · exact absurd (((h.ok q hq).mask_of_has hhas).symm.trans hbuf)
          ((nodup_middle.mp h.bufs).1 q hq')
    subst hqp
    obtain ⟨k, hk, hclear, rfl⟩ := hhas
    have hindex : (q.buf + k * c.line - q.buf) / c.line = k := by
      rw [Nat.add_sub_cancel_left, Nat.mul_div_cancel k c.line_pos]
    simp only [hspan, hindex]
    have hgive := h.give hk hclear rfl
    split
    · next hz => exact ⟨hgive.drop hz, fun r hr => hused r (mem_middle.mpr (.inr hr))⟩
    · next hne =>
      refine ⟨hgive, fun r hr => ?_⟩
      rcases mem_middle.mp hr with rfl | hr
      · show 0 < q.useCnt - 1
        omega
      · exact hused r (mem_middle.mpr (.inr hr))
  · exact absurd ((h.ok q hq).mask_of_has hhas) (of_decide_eq_false (hnone q hq))

/-! ## Whole runs -/

theorem reachable_covers {s : State} (h : Reachable (dbrecs c) s) :
    Covers c s.dbList s.held ∧ ∀ p ∈ s.dbList, 0 < p.useCnt := by
  refine Reachable.invariant (P := fun s => Covers c s.dbList s.held ∧
    ∀ p ∈ s.dbList, 0 < p.useCnt) ?_ ?_ h
  · rintro _ rfl
    exact ⟨⟨by simp, by simp, by simp, by simp⟩, by simp⟩
  · rintro s e t - ⟨hcov, hused⟩ hstep
    cases e with
    | alloc db =>
      obtain ⟨new, hnew, halloc, hheld⟩ := hstep
      rw [hheld]
      rcases alloc_spec hcov hused hnew with ⟨db', l, heq, hcov', hused'⟩ | ⟨heq, -⟩
      · cases heq.symm.trans halloc
        exact ⟨hcov', hused'⟩
      · have hsame := (Prod.mk.inj (Except.ok.inj (heq.symm.trans halloc)))
        rw [← hsame.1, ← hsame.2]
        exact ⟨hcov, hused⟩
    | free db =>
      obtain ⟨hdb, rfl⟩ := hstep
      exact free_spec hcov hused hdb

/-- Two pages do not overlap. -/
theorem pages_apart (hp : p.Ok c) (hq : q.Ok c) (h : p.buf ≠ q.buf) :
    p.buf + c.ps ≤ q.buf ∨ q.buf + c.ps ≤ p.buf := by
  obtain ⟨i, hi⟩ := hp.aligned
  obtain ⟨j, hj⟩ := hq.aligned
  rw [hi, hj] at h ⊢
  rcases Nat.lt_or_gt_of_ne (fun hij : i = j => h (by rw [hij])) with hlt | hlt
  · exact .inl (Nat.mul_succ c.ps i ▸ Nat.mul_le_mul_left c.ps hlt)
  · exact .inr (Nat.mul_succ c.ps j ▸ Nat.mul_le_mul_left c.ps hlt)

theorem Page.Has.inside (h : p.Has c a) : p.buf ≤ a ∧ a + c.line ≤ p.buf + c.ps := by
  obtain ⟨k, hk, -, rfl⟩ := h
  have hrec := c.record_le hk
  rw [Nat.succ_mul] at hrec
  omega

/-- Two records do not overlap. -/
theorem records_apart {b : Nat} (hp : p.Ok c) (hq : q.Ok c) (ha : p.Has c a) (hb : q.Has c b)
    (hne : a ≠ b) : a + c.line ≤ b ∨ b + c.line ≤ a := by
  by_cases hbuf : p.buf = q.buf
  · obtain ⟨i, -, -, rfl⟩ := ha
    obtain ⟨j, -, -, rfl⟩ := hb
    rw [hbuf] at hne ⊢
    rcases Nat.lt_or_gt_of_ne (fun hij : i = j => hne (by rw [hij])) with hlt | hlt
    · left
      have := Nat.succ_mul i c.line ▸ Nat.mul_le_mul_right c.line hlt
      omega
    · right
      have := Nat.succ_mul j c.line ▸ Nat.mul_le_mul_right c.line hlt
      omega
  · have hpages := pages_apart hp hq hbuf
    have hin := ha.inside
    have hin' := hb.inside
    omega

/-- Whatever records are allocated and freed, no two that are held share a cache line,
each is inside a page that is still there, a page is there only for a record that is
held, and an allocation stays inside the bitmap and fails only when all records of all
pages are held and there is no memory for another page. -/
theorem dbrecs_safe {s : State} (h : Reachable (dbrecs c) s) :
    (s.held.Pairwise fun a b => a + c.line ≤ b ∨ b + c.line ≤ a) ∧
    (∀ a ∈ s.held, ∃ p ∈ s.dbList, p.buf ≤ a ∧ a + c.line ≤ p.buf + c.ps) ∧
    (∀ p ∈ s.dbList, ∃ a ∈ s.held, p.buf ≤ a ∧ a + c.line ≤ p.buf + c.ps) ∧
    ∀ new : Option Nat, (∀ buf ∈ new, Fresh c s.dbList buf) →
      ∃ db l, mlx5AllocDbrec c s.dbList new = .ok (db, l) ∧ (db = none →
        new = none ∧ ∀ p ∈ s.dbList, ∀ k < c.pp, p.buf + k * c.line ∈ s.held) := by
  obtain ⟨hcov, hused⟩ := reachable_covers h
  refine ⟨?_, fun a ha => ?_, fun p hp => ?_, fun new hnew => ?_⟩
  · refine hcov.nodup.imp_of_mem fun {a b} ha hb hne => ?_
    obtain ⟨p, hp, hpa⟩ := (hcov.held a).mp ha
    obtain ⟨q, hq, hqb⟩ := (hcov.held b).mp hb
    exact records_apart (hcov.ok p hp) (hcov.ok q hq) hpa hqb hne
  · obtain ⟨p, hp, hhas⟩ := (hcov.held a).mp ha
    exact ⟨p, hp, hhas.inside⟩
  · obtain ⟨a, hhas⟩ := (hcov.ok p hp).exists_has (hused p hp)
    exact ⟨a, (hcov.held a).mpr ⟨p, hp, hhas⟩, hhas.inside⟩
  · rcases alloc_spec hcov hused hnew with ⟨db, l, heq, -⟩ | ⟨heq, hnone, hall⟩
    · exact ⟨some db, l, heq, fun h => absurd h (by simp)⟩
    · exact ⟨none, s.dbList, heq, fun _ => ⟨hnone, hall⟩⟩

/-- Pages of 128 records, in two words of a bitmap. -/
def records128 : Config where
  log := 12
  log_lt := by omega
  line := 32
  line_pos := by omega
  line_le := by omega

/-- A page after its first and second record. -/
def oneTaken : Page := ⟨4096, records128.pp, 1, Bitmap.clearBit (fun _ => ~~~0) 0⟩

def twoTaken : Page := ⟨4096, records128.pp, 2, Bitmap.clearBit oneTaken.free 1⟩

/-- The first record is freed, and given out again. -/
def freedAndReused : State :=
  ⟨[⟨4096, records128.pp, 2, Bitmap.clearBit (Bitmap.setBit twoTaken.free 0) 0⟩], [4096, 4128]⟩

theorem freedAndReused_reachable : Reachable (dbrecs records128) freedAndReused := by
  have htake : (addPage records128 4096).take records128 = .ok (4096, oneTaken) := by
    have hlow : lowest (addPage records128 4096).free records128.nlong = some 0 := by
      decide +kernel
    rw [Page.take, hlow]
    rfl
  have htake' : oneTaken.take records128 = .ok (4128, twoTaken) := by
    have hlow : lowest oneTaken.free records128.nlong = some 1 := by decide +kernel
    rw [Page.take, hlow]
    rfl
  have hfirst : Reachable (dbrecs records128) ⟨[oneTaken], [4096]⟩ := by
    refine .step (e := .alloc (some 4096)) (.init rfl) ⟨some 4096, ?_, ?_, rfl⟩
    · rintro _ ⟨⟩
      exact ⟨⟨1, rfl⟩, by decide, by simp⟩
    · show ((addPage records128 4096).take records128 >>= _) = _
      rw [htake]
      rfl
  have hsecond : Reachable (dbrecs records128) ⟨[twoTaken], [4128, 4096]⟩ := by
    refine .step (e := .alloc (some 4128)) hfirst ⟨none, by simp, ?_, rfl⟩
    show (oneTaken.take records128 >>= _) = _
    rw [htake']
    rfl
  have hfreed : Reachable (dbrecs records128)
      ⟨[⟨4096, records128.pp, 1, Bitmap.setBit twoTaken.free 0⟩], [4128]⟩ :=
    .step (e := .free 4096) hsecond ⟨by simp, rfl⟩
  refine .step (e := .alloc (some 4096)) hfreed ⟨none, by simp, ?_, rfl⟩
  show (Page.take records128 ⟨4096, records128.pp, 1, Bitmap.setBit twoTaken.free 0⟩ >>= _) = _
  have hlow : lowest (Bitmap.setBit twoTaken.free 0) records128.nlong = some 0 := by
    decide +kernel
  rw [Page.take, hlow]
  rfl

theorem dbrecs_safe_reused : Reachable (dbrecs records128) freedAndReused ∧
    (freedAndReused.held.Pairwise fun a b => a + records128.line ≤ b ∨ b + records128.line ≤ a) :=
  ⟨freedAndReused_reachable, (dbrecs_safe freedAndReused_reachable).1⟩

end RdmaBench.Mlx5.Dbrec
