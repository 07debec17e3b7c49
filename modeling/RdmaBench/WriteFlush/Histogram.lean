import RdmaBench.Lib.Rank
import RdmaBench.Lib.Window

/-! # Latency histograms

The class `Latency` of `write-flush/latency.h`. Its bins have widths 1, 2, 4, 8 and
16 in five ranges, and the last bin takes everything from 3968 on. What a
histogram still knows of a sample is the lower edge of its bin, and every
statistic is the one of these edges. -/

namespace RdmaBench.WriteFlush.Histogram
open RdmaBench.Lib.Rank
open RdmaBench.Lib.Window (bump bump_self bump_of_ne)

/-! ## The class -/

/-- `size_t bin[128]`. -/
abbrev Row := Fin 128 → UInt64

structure Latency where
  bin0 : Row
  bin1 : Row
  bin2 : Row
  bin3 : Row
  bin4 : Row
  bin5 : UInt64

def reset : Latency where
  bin0 _ := 0
  bin1 _ := 0
  bin2 _ := 0
  bin3 _ := 0
  bin4 _ := 0
  bin5 := 0

/-- `bin[i]++`. -/
def incr (bin : Row) (i : Fin 128) : Row := Function.update bin i (bin i + 1)

def update (l : Latency) (us : Nat) : Latency :=
  if h0 : us < 128 then
    { l with bin0 := incr l.bin0 ⟨us, h0⟩ }
  else if h1 : us < 384 then
    { l with bin1 := incr l.bin1 ⟨(us - 128) / 2, by omega⟩ }
  else if h2 : us < 896 then
    { l with bin2 := incr l.bin2 ⟨(us - 384) / 4, by omega⟩ }
  else if h3 : us < 1920 then
    { l with bin3 := incr l.bin3 ⟨(us - 896) / 8, by omega⟩ }
  else if h4 : us < 3968 then
    { l with bin4 := incr l.bin4 ⟨(us - 1920) / 16, by omega⟩ }
  else
    { l with bin5 := l.bin5 + 1 }

def addRow (bin o : Row) : Row := fun i => bin i + o i

/-- `operator+=`. -/
def add (l o : Latency) : Latency where
  bin0 := addRow l.bin0 o.bin0
  bin1 := addRow l.bin1 o.bin1
  bin2 := addRow l.bin2 o.bin2
  bin3 := addRow l.bin3 o.bin3
  bin4 := addRow l.bin4 o.bin4
  bin5 := l.bin5 + o.bin5

def countRow (bin : Row) (count : UInt64) : UInt64 :=
  (List.finRange 128).foldl (fun count i => count + bin i) count

def count (l : Latency) : UInt64 :=
  let count := countRow l.bin0 0
  let count := countRow l.bin1 count
  let count := countRow l.bin2 count
  let count := countRow l.bin3 count
  let count := countRow l.bin4 count
  count + l.bin5

def sumRow (bin : Row) (lo width : Nat) (sum : UInt64) : UInt64 :=
  (List.finRange 128).foldl (fun sum i => sum + bin i * UInt64.ofNat (lo + i.val * width)) sum

def sum (l : Latency) : UInt64 :=
  let sum := sumRow l.bin0 0 1 0
  let sum := sumRow l.bin1 128 2 sum
  let sum := sumRow l.bin2 384 4 sum
  let sum := sumRow l.bin3 896 8 sum
  let sum := sumRow l.bin4 1920 16 sum
  sum + l.bin5 * 3968

/-- A loop of `min` that returns at the first bin that is not empty. -/
def minRow (bin : Row) (lo width : Nat) : Option Nat :=
  ((List.finRange 128).find? fun i => bin i ≠ 0).map fun i => lo + i.val * width

/-- The last bin is not looked at. -/
def min (l : Latency) : Nat :=
  ((((minRow l.bin0 0 1).or (minRow l.bin1 128 2)).or (minRow l.bin2 384 4)).or
    (minRow l.bin3 896 8)).or (minRow l.bin4 1920 16) |>.getD 3968

/-- A loop of `max`, from index 127 down. -/
def maxRow (bin : Row) (lo width : Nat) : Option Nat :=
  ((List.finRange 128).reverse.find? fun i => bin i ≠ 0).map fun i => lo + i.val * width

def max (l : Latency) : Nat :=
  if l.bin5 ≠ 0 then 3968
  else
    ((((maxRow l.bin4 1920 16).or (maxRow l.bin3 896 8)).or (maxRow l.bin2 384 4)).or
      (maxRow l.bin1 128 2)).or (maxRow l.bin0 0 1) |>.getD 0

/-- What the samples leave in a histogram. A sample is a `size_t`; nothing depends on
its bound. -/
def histogram (xs : List Nat) : Latency := xs.foldl update reset

/-! ## Lower edges -/

/-- The lower edge of the bin of a sample. -/
def rep (x : Nat) : Nat :=
  if x < 128 then x
  else if x < 384 then 128 + (x - 128) / 2 * 2
  else if x < 896 then 384 + (x - 384) / 4 * 4
  else if x < 1920 then 896 + (x - 896) / 8 * 8
  else if x < 3968 then 1920 + (x - 1920) / 16 * 16
  else 3968

/-- The lower edges of the bins of an array. -/
def row (lo width : Nat) : List Nat := (List.finRange 128).map fun i : Fin 128 => lo + i.val * width

def edges : List Nat :=
  row 0 1 ++ row 128 2 ++ row 384 4 ++ row 896 8 ++ row 1920 16 ++ [3968]

theorem rep_cases (x : Nat) :
    (x < 128 ∧ rep x = x) ∨
    (128 ≤ x ∧ x < 384 ∧ rep x = 128 + (x - 128) / 2 * 2) ∨
    (384 ≤ x ∧ x < 896 ∧ rep x = 384 + (x - 384) / 4 * 4) ∨
    (896 ≤ x ∧ x < 1920 ∧ rep x = 896 + (x - 896) / 8 * 8) ∨
    (1920 ≤ x ∧ x < 3968 ∧ rep x = 1920 + (x - 1920) / 16 * 16) ∨
    (3968 ≤ x ∧ rep x = 3968) := by
  rw [rep]
  by_cases h0 : x < 128
  · exact .inl ⟨h0, if_pos h0⟩
  rw [if_neg h0]
  by_cases h1 : x < 384
  · exact .inr (.inl ⟨by omega, h1, if_pos h1⟩)
  rw [if_neg h1]
  by_cases h2 : x < 896
  · exact .inr (.inr (.inl ⟨by omega, h2, if_pos h2⟩))
  rw [if_neg h2]
  by_cases h3 : x < 1920
  · exact .inr (.inr (.inr (.inl ⟨by omega, h3, if_pos h3⟩)))
  rw [if_neg h3]
  by_cases h4 : x < 3968
  · exact .inr (.inr (.inr (.inr (.inl ⟨by omega, h4, if_pos h4⟩))))
  · exact .inr (.inr (.inr (.inr (.inr ⟨by omega, if_neg h4⟩))))

theorem rep_le (x : Nat) : rep x ≤ x := by
  have := rep_cases x
  omega

theorem rep_mono : Monotone rep := by
  intro x y h
  have hx := rep_cases x
  have hy := rep_cases y
  omega

theorem rep_rep (x : Nat) : rep (rep x) = rep x := by
  have hx := rep_cases x
  have hrep := rep_cases (rep x)
  omega

theorem mem_row {lo width e : Nat} : e ∈ row lo width ↔ ∃ i < 128, lo + i * width = e := by
  rw [row, List.mem_map]
  constructor
  · rintro ⟨i, -, rfl⟩
    exact ⟨i, i.isLt, rfl⟩
  · rintro ⟨i, hi, rfl⟩
    exact ⟨⟨i, hi⟩, List.mem_finRange _, rfl⟩

theorem row_sorted (lo : Nat) {width : Nat} (h : 0 < width) :
    (row lo width).Pairwise (· < ·) := by
  rw [row, List.pairwise_map]
  refine (List.pairwise_lt_finRange 128).imp fun {i j} hij => ?_
  exact Nat.add_lt_add_left (Nat.mul_lt_mul_of_pos_right hij h) lo

theorem edges_sorted : edges.Pairwise (· < ·) := by
  simp only [edges, List.pairwise_append, List.mem_append, List.mem_singleton, mem_row]
  refine ⟨⟨⟨⟨⟨row_sorted 0 (Nat.succ_pos _), row_sorted 128 (Nat.succ_pos _), ?_⟩,
    row_sorted 384 (Nat.succ_pos _), ?_⟩, row_sorted 896 (Nat.succ_pos _), ?_⟩,
    row_sorted 1920 (Nat.succ_pos _), ?_⟩, List.pairwise_singleton _ _, ?_⟩
  all_goals
    intro a ha b hb
    omega

theorem rep_mem_edges (x : Nat) : rep x ∈ edges := by
  simp only [edges, List.mem_append, List.mem_singleton, mem_row]
  obtain ⟨h, hr⟩ | ⟨-, h, hr⟩ | ⟨-, h, hr⟩ | ⟨-, h, hr⟩ | ⟨-, h, hr⟩ | ⟨-, hr⟩ := rep_cases x
  · exact .inl (.inl (.inl (.inl (.inl ⟨x, h, by omega⟩))))
  · exact .inl (.inl (.inl (.inl (.inr ⟨(x - 128) / 2, by omega, hr.symm⟩))))
  · exact .inl (.inl (.inl (.inr ⟨(x - 384) / 4, by omega, hr.symm⟩)))
  · exact .inl (.inl (.inr ⟨(x - 896) / 8, by omega, hr.symm⟩))
  · exact .inl (.inr ⟨(x - 1920) / 16, by omega, hr.symm⟩)
  · exact .inr hr

/-! ## What the bins count -/

/-- Every bin of an array counts, modulo `2 ^ 64`, how often its lower edge has come. -/
def RowCounts (n : Nat → Nat) (lo width : Nat) (bin : Row) : Prop :=
  ∀ i : Fin 128, bin i = UInt64.ofNat (n (lo + i.val * width))

structure Counts (n : Nat → Nat) (l : Latency) : Prop where
  bin0 : RowCounts n 0 1 l.bin0
  bin1 : RowCounts n 128 2 l.bin1
  bin2 : RowCounts n 384 4 l.bin2
  bin3 : RowCounts n 896 8 l.bin3
  bin4 : RowCounts n 1920 16 l.bin4
  bin5 : l.bin5 = UInt64.ofNat (n 3968)

section
variable {n m : Nat → Nat} {lo width : Nat} {bin : Row} {l o : Latency}

theorem counts_reset : Counts (fun _ => 0) reset :=
  ⟨fun _ => rfl, fun _ => rfl, fun _ => rfl, fun _ => rfl, fun _ => rfl, rfl⟩

theorem RowCounts.hit (h : RowCounts n lo width bin) (hw : 0 < width) {e : Nat} (i : Fin 128)
    (he : e = lo + i.val * width) : RowCounts (bump n e 1) lo width (incr bin i) := by
  intro j
  by_cases hj : j = i
  · subst hj
    rw [incr, Function.update_self, h j, he, bump_self, UInt64.ofNat_add]
    rfl
  · have hne : lo + j.val * width ≠ e := by
      rw [he]
      intro heq
      exact hj (Fin.ext (Nat.eq_of_mul_eq_mul_right hw (Nat.add_left_cancel heq)))
    rw [incr, Function.update_of_ne hj, h j, bump_of_ne hne]

theorem RowCounts.miss (h : RowCounts n lo width bin) {e : Nat}
    (he : e < lo ∨ lo + 127 * width < e) : RowCounts (bump n e 1) lo width bin := by
  intro i
  have hle : i.val * width ≤ 127 * width := Nat.mul_le_mul_right width (by omega)
  rw [h i, bump_of_ne (by omega)]

/-- A sample is counted in the bin with its lower edge, and in no other one. -/
theorem Counts.update (h : Counts n l) (us : Nat) :
    Counts (bump n (rep us) 1) (update l us) := by
  have hlast : rep us ≠ 3968 → l.bin5 = UInt64.ofNat (bump n (rep us) 1 3968) := by
    intro hne
    rw [h.bin5, bump_of_ne hne.symm]
  rw [Histogram.update]
  obtain ⟨h0, hr⟩ | ⟨h0, h1, hr⟩ | ⟨h1, h2, hr⟩ | ⟨h2, h3, hr⟩ | ⟨h3, h4, hr⟩ | ⟨h4, hr⟩ :=
    rep_cases us
  · rw [dif_pos h0]
    refine ⟨h.bin0.hit (Nat.succ_pos _) _ (by simpa using hr), h.bin1.miss ?_, h.bin2.miss ?_,
      h.bin3.miss ?_, h.bin4.miss ?_, hlast ?_⟩ <;> omega
  · rw [dif_neg (by omega), dif_pos h1]
    refine ⟨h.bin0.miss ?_, h.bin1.hit (Nat.succ_pos _) _ hr, h.bin2.miss ?_, h.bin3.miss ?_,
      h.bin4.miss ?_, hlast ?_⟩ <;> omega
  · rw [dif_neg (by omega), dif_neg (by omega), dif_pos h2]
    refine ⟨h.bin0.miss ?_, h.bin1.miss ?_, h.bin2.hit (Nat.succ_pos _) _ hr, h.bin3.miss ?_,
      h.bin4.miss ?_, hlast ?_⟩ <;> omega
  · rw [dif_neg (by omega), dif_neg (by omega), dif_neg (by omega), dif_pos h3]
    refine ⟨h.bin0.miss ?_, h.bin1.miss ?_, h.bin2.miss ?_, h.bin3.hit (Nat.succ_pos _) _ hr,
      h.bin4.miss ?_, hlast ?_⟩ <;> omega
  · rw [dif_neg (by omega), dif_neg (by omega), dif_neg (by omega), dif_neg (by omega),
      dif_pos h4]
    refine ⟨h.bin0.miss ?_, h.bin1.miss ?_, h.bin2.miss ?_, h.bin3.miss ?_,
      h.bin4.hit (Nat.succ_pos _) _ hr, hlast ?_⟩ <;> omega
  · rw [dif_neg (by omega), dif_neg (by omega), dif_neg (by omega), dif_neg (by omega),
      dif_neg (by omega)]
    refine ⟨h.bin0.miss ?_, h.bin1.miss ?_, h.bin2.miss ?_, h.bin3.miss ?_, h.bin4.miss ?_,
      ?last⟩
    case last =>
      rw [hr, bump_self, UInt64.ofNat_add, ← h.bin5]
      rfl
    all_goals omega

theorem Counts.add (h : Counts n l) (h' : Counts m o) :
    Counts (fun e => n e + m e) (add l o) := by
  have hrow : ∀ {lo width : Nat} {bin o : Row}, RowCounts n lo width bin →
      RowCounts m lo width o → RowCounts (fun e => n e + m e) lo width (addRow bin o) := by
    intro lo width bin o hb ho i
    rw [addRow, hb i, ho i, ← UInt64.ofNat_add]
  refine ⟨hrow h.bin0 h'.bin0, hrow h.bin1 h'.bin1, hrow h.bin2 h'.bin2, hrow h.bin3 h'.bin3,
    hrow h.bin4 h'.bin4, ?_⟩
  show l.bin5 + o.bin5 = _
  rw [h.bin5, h'.bin5, ← UInt64.ofNat_add]

/-- The counts say all about the bins. -/
theorem Counts.unique (h : Counts n l) (h' : Counts n o) : l = o := by
  have hrow : ∀ {lo width : Nat} {bin bin' : Row}, RowCounts n lo width bin →
      RowCounts n lo width bin' → bin = bin' := by
    intro lo width bin bin' hb hb'
    funext i
    rw [hb i, hb' i]
  cases l
  cases o
  rw [Latency.mk.injEq]
  exact ⟨hrow h.bin0 h'.bin0, hrow h.bin1 h'.bin1, hrow h.bin2 h'.bin2, hrow h.bin3 h'.bin3,
    hrow h.bin4 h'.bin4, h.bin5.trans h'.bin5.symm⟩

/-- The histograms that a program can come by, with their samples. -/
inductive Built : List Nat → Latency → Prop where
  | reset : Built [] reset
  | update {xs : List Nat} {l : Latency} (h : Built xs l) (us : Nat) :
      Built (us :: xs) (Histogram.update l us)
  | add {xs ys : List Nat} {l o : Latency} (h : Built xs l) (h' : Built ys o) :
      Built (xs ++ ys) (Histogram.add l o)

/-- However a histogram was built, its bins count the samples. -/
theorem Built.counts {xs : List Nat} (h : Built xs l) :
    Counts (fun e => (xs.map rep).count e) l := by
  induction h with
  | reset => exact counts_reset
  | @update xs l _ us ih =>
    have hcount : bump (fun e => (xs.map rep).count e) (rep us) 1 =
        fun e => ((us :: xs).map rep).count e := by
      funext e
      rw [List.map_cons, List.count_cons]
      by_cases he : e = rep us
      · simp only [he, bump_self, beq_self_eq_true, if_true]
      · simp [bump_of_ne he, Ne.symm he]
    rw [← hcount]
    exact ih.update us
  | add _ _ ih ih' =>
    simp only [List.map_append, List.count_append]
    exact ih.add ih'

theorem built_histogram (xs : List Nat) : Built xs.reverse (histogram xs) := by
  induction xs using List.reverseRecOn with
  | nil => exact .reset
  | append_singleton xs us ih =>
    rw [List.reverse_concat, histogram, List.foldl_concat]
    exact ih.update us

theorem counts_histogram (xs : List Nat) :
    Counts (fun e => (xs.map rep).count e) (histogram xs) := by
  have h := (built_histogram xs).counts
  simp only [List.map_reverse, List.count_reverse] at h
  exact h

theorem add_histogram (xs ys : List Nat) :
    add (histogram xs) (histogram ys) = histogram (xs ++ ys) := by
  refine ((counts_histogram xs).add (counts_histogram ys)).unique ?_
  have h := counts_histogram (xs ++ ys)
  simp only [List.map_append, List.count_append] at h
  exact h

/-! ## The loops over the bins -/

theorem countRow_eq (h : RowCounts n lo width bin) (k : Nat) :
    countRow bin (UInt64.ofNat k) = UInt64.ofNat (k + ((row lo width).map n).sum) := by
  rw [countRow, row]
  induction List.finRange 128 generalizing k with
  | nil => rfl
  | cons i is ih =>
    rw [List.foldl_cons, h i, ← UInt64.ofNat_add, ih, List.map_cons, List.map_cons, List.sum_cons,
      Nat.add_assoc]

theorem sumRow_eq (h : RowCounts n lo width bin) (k : Nat) :
    sumRow bin lo width (UInt64.ofNat k) =
      UInt64.ofNat (k + ((row lo width).map fun e => n e * e).sum) := by
  rw [sumRow, row]
  induction List.finRange 128 generalizing k with
  | nil => rfl
  | cons i is ih =>
    rw [List.foldl_cons, h i, ← UInt64.ofNat_mul, ← UInt64.ofNat_add, ih, List.map_cons,
      List.map_cons, List.sum_cons, Nat.add_assoc]

theorem used_iff (h : RowCounts n lo width bin) (hn : ∀ e, n e < 2 ^ 64) (i : Fin 128) :
    bin i ≠ 0 ↔ n (lo + i.val * width) ≠ 0 := by
  rw [h i, Ne, ← UInt64.toNat_inj, UInt64.toNat_ofNat_of_lt' (hn _)]
  rfl

theorem minRow_eq (h : RowCounts n lo width bin) (hn : ∀ e, n e < 2 ^ 64) :
    minRow bin lo width = (row lo width).find? fun e => n e ≠ 0 := by
  rw [minRow, row, List.find?_map]
  simp only [used_iff h hn]
  rfl

theorem maxRow_eq (h : RowCounts n lo width bin) (hn : ∀ e, n e < 2 ^ 64) :
    maxRow bin lo width = (row lo width).reverse.find? fun e => n e ≠ 0 := by
  rw [maxRow, row, ← List.map_reverse, List.find?_map]
  simp only [used_iff h hn]
  rfl

/-! ## The statistics -/

theorem Counts.count_eq (h : Counts n l) : count l = UInt64.ofNat (copies n edges).length := by
  have hstart := countRow_eq h.bin0 0
  simp only [count, show (0 : UInt64) = UInt64.ofNat 0 from rfl, hstart, countRow_eq h.bin1,
    countRow_eq h.bin2, countRow_eq h.bin3, countRow_eq h.bin4, h.bin5, ← UInt64.ofNat_add,
    length_copies, edges, List.map_append, List.sum_append, List.map_singleton,
    List.sum_singleton, Nat.zero_add]

theorem Counts.sum_eq (h : Counts n l) : sum l = UInt64.ofNat (copies n edges).sum := by
  simp only [sum, show (0 : UInt64) = UInt64.ofNat 0 from rfl,
    show (3968 : UInt64) = UInt64.ofNat 3968 from rfl, sumRow_eq h.bin0, sumRow_eq h.bin1,
    sumRow_eq h.bin2, sumRow_eq h.bin3, sumRow_eq h.bin4, h.bin5, ← UInt64.ofNat_mul,
    ← UInt64.ofNat_add, sum_copies, edges, List.map_append, List.sum_append, List.map_singleton,
    List.sum_singleton, Nat.zero_add]

theorem Counts.min_eq (h : Counts n l) (hn : ∀ e, n e < 2 ^ 64) {e : Nat}
    (he : (copies n edges).head? = some e) : min l = e := by
  rw [head?_copies, edges, List.find?_append] at he
  have hrows : min l = ((row 0 1 ++ row 128 2 ++ row 384 4 ++ row 896 8 ++ row 1920 16).find?
      fun e => n e ≠ 0).getD 3968 := by
    simp only [List.find?_append, ← minRow_eq h.bin0 hn, ← minRow_eq h.bin1 hn,
      ← minRow_eq h.bin2 hn, ← minRow_eq h.bin3 hn, ← minRow_eq h.bin4 hn]
    rfl
  rw [hrows]
  cases hf : (row 0 1 ++ row 128 2 ++ row 384 4 ++ row 896 8 ++ row 1920 16).find?
      fun e => n e ≠ 0 with
  | some e' =>
    rw [hf] at he
    exact Option.some.inj he
  | none =>
    -- only the last bin is left, whose edge is what `min` returns by default
    rw [hf, Option.none_or] at he
    exact (List.mem_singleton.mp (List.mem_of_find?_eq_some he)).symm

theorem Counts.max_eq (h : Counts n l) (hn : ∀ e, n e < 2 ^ 64) {e : Nat}
    (he : (copies n edges).getLast? = some e) : max l = e := by
  have hlast : l.bin5 ≠ 0 ↔ n 3968 ≠ 0 := by
    rw [h.bin5, Ne, ← UInt64.toNat_inj, UInt64.toNat_ofNat_of_lt' (hn _)]
    rfl
  rw [getLast?_copies, edges, List.reverse_append, List.find?_append] at he
  rw [max]
  by_cases h5 : n 3968 = 0
  · have hnone : [3968].reverse.find? (fun e => n e ≠ 0) = none := by simp [h5]
    rw [hnone, Option.none_or] at he
    simp only [List.reverse_append, List.find?_append, ← maxRow_eq h.bin0 hn,
      ← maxRow_eq h.bin1 hn, ← maxRow_eq h.bin2 hn, ← maxRow_eq h.bin3 hn,
      ← maxRow_eq h.bin4 hn] at he
    rw [if_neg (mt hlast.mp (not_not.mpr h5))]
    simp only [Option.or_assoc, he, Option.getD_some]
  · rw [if_pos (hlast.mpr h5)]
    simpa [h5] using he

end

/-- The edges of the samples, in order. -/
theorem copies_edges (xs : List Nat) :
    copies (fun e => (xs.map rep).count e) edges = xs.mergeSort.map rep := by
  rw [copies_count edges_sorted, mergeSort_map rep_mono]
  intro e he
  obtain ⟨x, -, rfl⟩ := List.mem_map.mp he
  exact rep_mem_edges x

theorem count_rep_le (xs : List Nat) (e : Nat) : (xs.map rep).count e ≤ xs.length := by
  rw [← List.length_map rep]
  exact List.count_le_length

theorem min_histogram {xs : List Nat} (h : ∀ e, (xs.map rep).count e < 2 ^ 64) {x : Nat}
    (hx : xs.min? = some x) : min (histogram xs) = rep x := by
  obtain ⟨hmem, hle⟩ := List.min?_eq_some_iff.mp hx
  refine (counts_histogram xs).min_eq h ?_
  rw [copies_edges, List.head?_map, head?_mergeSort hmem hle]
  rfl

theorem max_histogram {xs : List Nat} (h : ∀ e, (xs.map rep).count e < 2 ^ 64) {x : Nat}
    (hx : xs.max? = some x) : max (histogram xs) = rep x := by
  obtain ⟨hmem, hle⟩ := List.max?_eq_some_iff.mp hx
  refine (counts_histogram xs).max_eq h ?_
  rw [copies_edges, List.getLast?_map, getLast?_mergeSort hmem hle]
  rfl

theorem count_histogram {xs : List Nat} (h : xs.length < 2 ^ 64) :
    (count (histogram xs)).toNat = xs.length := by
  rw [(counts_histogram xs).count_eq, copies_edges, List.length_map, List.length_mergeSort]
  exact UInt64.toNat_ofNat_of_lt' h

theorem sum_histogram {xs : List Nat} (h : (xs.map rep).sum < 2 ^ 64) :
    (sum (histogram xs)).toNat = (xs.map rep).sum := by
  rw [(counts_histogram xs).sum_eq, copies_edges,
    ((List.mergeSort_perm xs _).map rep).sum_eq]
  exact UInt64.toNat_ofNat_of_lt' h

/-- What a histogram keeps of its samples. -/
theorem histogram_faithful (xs ys : List Nat) :
    add (histogram xs) (histogram ys) = histogram (xs ++ ys) ∧
    (xs.length < 2 ^ 64 → (count (histogram xs)).toNat = xs.length) ∧
    ((xs.map rep).sum < 2 ^ 64 → (sum (histogram xs)).toNat = (xs.map rep).sum) ∧
    (xs.length < 2 ^ 64 → xs ≠ [] → ∃ lo hi, xs.min? = some lo ∧ xs.max? = some hi ∧
      min (histogram xs) = rep lo ∧ max (histogram xs) = rep hi) ∧
    Monotone rep ∧ (∀ x, rep (rep x) = rep x) ∧ (∀ x, rep x ≤ x) ∧
    ∀ x, (x < 128 → x - rep x < 1) ∧ (128 ≤ x → x < 384 → x - rep x < 2) ∧
      (384 ≤ x → x < 896 → x - rep x < 4) ∧ (896 ≤ x → x < 1920 → x - rep x < 8) ∧
      (1920 ≤ x → x < 3968 → x - rep x < 16) := by
  refine ⟨add_histogram xs ys, count_histogram, sum_histogram, ?_, rep_mono, rep_rep, rep_le, ?_⟩
  · intro hlen hne
    have hbins := fun e => (count_rep_le xs e).trans_lt hlen
    obtain ⟨lo, hlo⟩ := Option.isSome_iff_exists.mp (List.isSome_min?_of_ne_nil hne)
    obtain ⟨hi, hhi⟩ := Option.isSome_iff_exists.mp (List.isSome_max?_of_ne_nil hne)
    exact ⟨lo, hi, hlo, hhi, min_histogram hbins hlo, max_histogram hbins hhi⟩
  · intro x
    have := rep_cases x
    omega

theorem histogram_faithful_three :
    [129, 5, 5000] ≠ [] ∧ ([129, 5, 5000].map rep).sum < 2 ^ 64 ∧
    (count (histogram [129, 5, 5000])).toNat = 3 ∧
    (sum (histogram [129, 5, 5000])).toNat = 128 + 5 + 3968 ∧
    min (histogram [129, 5, 5000]) = 5 ∧ max (histogram [129, 5, 5000]) = 3968 := by
  obtain ⟨-, hcount, hsum, hends, -⟩ := histogram_faithful [129, 5, 5000] []
  obtain ⟨lo, hi, hlo, hhi, hmin, hmax⟩ := hends (by decide) (by decide)
  cases hlo
  cases hhi
  exact ⟨by decide, by decide, hcount (by decide), hsum (by decide), hmin, hmax⟩

end RdmaBench.WriteFlush.Histogram
