import RdmaBench.WriteFlush.Histogram

/-! # Percentiles of a latency histogram

`Latency::perc` turns `p` into a threshold of type `int64_t` and counts it down by
the bins until it is negative. Here it starts with the threshold. Bins are cast
to `int64_t` as well, so that one with more than `2 ^ 63` samples is taken for a
negative number and passed by. -/

namespace RdmaBench.WriteFlush.Percentiles
open RdmaBench.Lib.Rank RdmaBench.WriteFlush.Histogram

/-- A loop of `perc` over an array. It is left by an exception that holds what `perc`
returns. -/
def percRow (bin : Row) (lo width : Nat) : List (Fin 128) → Int64 → Except Nat Int64
  | [], thres => .ok thres
  | i :: is, thres =>
    let thres := thres - (bin i).toInt64
    if thres < 0 then .error (lo + i.val * width) else percRow bin lo width is thres

/-- The loops of `perc`, one after the other. -/
def percRows (l : Latency) (thres : Int64) : Except Nat Int64 := do
  let thres ← percRow l.bin0 0 1 (List.finRange 128) thres
  let thres ← percRow l.bin1 128 2 (List.finRange 128) thres
  let thres ← percRow l.bin2 384 4 (List.finRange 128) thres
  let thres ← percRow l.bin3 896 8 (List.finRange 128) thres
  percRow l.bin4 1920 16 (List.finRange 128) thres

/-- `perc` from the threshold on. -/
def perc (l : Latency) (thres : Int64) : Nat :=
  match percRows l thres with
  | .error us => us
  | .ok _ => 3968

/-! ## The loops count down -/

section
variable {n : Nat → Nat} {lo width t : Nat} {bin : Row} {l : Latency}

/-- A threshold and a bin below `2 ^ 63` are subtracted without overflow. -/
theorem sub_neg_iff {t k : Nat} (ht : t < 2 ^ 63) (hk : k < 2 ^ 63) :
    Int64.ofNat t - Int64.ofNat k < 0 ↔ t < k := by
  rw [Int64.lt_iff_toInt_lt, Int64.toInt_sub, Int64.toInt_ofNat_of_lt ht,
    Int64.toInt_ofNat_of_lt hk, Int.bmod_eq_of_le (by omega) (by omega), Int64.toInt_zero]
  omega

theorem percRow_eq (h : RowCounts n lo width bin) {is : List (Fin 128)}
    (hn : ∀ i ∈ is, n (lo + i.val * width) < 2 ^ 63) (ht : t < 2 ^ 63) :
    percRow bin lo width is (Int64.ofNat t) =
      (seek n (is.map fun i => lo + i.val * width) t).map Int64.ofNat := by
  induction is generalizing t with
  | nil => rfl
  | cons i is ih =>
    have hi := hn i List.mem_cons_self
    have hcast : (bin i).toInt64 = Int64.ofNat (n (lo + i.val * width)) := by
      rw [h i]
      rfl
    rw [percRow, hcast, List.map_cons, seek]
    simp only [sub_neg_iff ht hi]
    split
    · rfl
    · rw [← Int64.ofNat_sub _ _ (by omega)]
      exact ih (fun j hj => hn j (List.mem_cons_of_mem i hj)) (by omega)

/-- A loop and what comes after it. -/
theorem percRow_bind (h : RowCounts n lo width bin) {is : List (Fin 128)} {rest : List Nat}
    {next : Int64 → Except Nat Int64} (hn : ∀ i ∈ is, n (lo + i.val * width) < 2 ^ 63)
    (hnext : ∀ t, t < 2 ^ 63 → next (Int64.ofNat t) = (seek n rest t).map Int64.ofNat)
    (ht : t < 2 ^ 63) :
    (percRow bin lo width is (Int64.ofNat t) >>= next) =
      (seek n ((is.map fun i => lo + i.val * width) ++ rest) t).map Int64.ofNat := by
  rw [percRow_eq h hn ht, seek_append]
  cases hs : seek n (is.map fun i => lo + i.val * width) t with
  | error e => rfl
  | ok t' => exact hnext t' ((seek_ok_le hs).trans_lt ht)

/-- The edges before the last one, cut behind some of the first array. -/
def edgesFrom (is : List (Fin 128)) : List Nat :=
  (is.map fun i => 0 + i.val * 1) ++ (row 128 2 ++ (row 384 4 ++ (row 896 8 ++ row 1920 16)))

/-- The loops from some index of the first array on. -/
theorem percRows_from (h : Counts n l) (is : List (Fin 128))
    (hfirst : ∀ i ∈ is, n (0 + i.val * 1) < 2 ^ 63) (hn : ∀ e, 128 ≤ e → n e < 2 ^ 63)
    (ht : t < 2 ^ 63) :
    (percRow l.bin0 0 1 is (Int64.ofNat t) >>= fun thres => do
        let thres ← percRow l.bin1 128 2 (List.finRange 128) thres
        let thres ← percRow l.bin2 384 4 (List.finRange 128) thres
        let thres ← percRow l.bin3 896 8 (List.finRange 128) thres
        percRow l.bin4 1920 16 (List.finRange 128) thres) =
      (seek n (edgesFrom is) t).map Int64.ofNat := by
  refine percRow_bind h.bin0 hfirst (fun t ht => ?_) ht
  refine percRow_bind h.bin1 (fun i _ => hn _ (by omega)) (fun t ht => ?_) ht
  refine percRow_bind h.bin2 (fun i _ => hn _ (by omega)) (fun t ht => ?_) ht
  refine percRow_bind h.bin3 (fun i _ => hn _ (by omega)) (fun t ht => ?_) ht
  exact percRow_eq h.bin4 (fun i _ => hn _ (by omega)) ht

theorem edges_eq : edges = edgesFrom (List.finRange 128) ++ [3968] := by
  simp only [edges, edgesFrom, row, List.append_assoc]

/-- The last edge is what `perc` returns by default. -/
theorem perc_eq (h : Counts n l) (hn : ∀ e, n e < 2 ^ 63) (ht : t < 2 ^ 63) :
    perc l (Int64.ofNat t) = (copies n edges)[t]?.getD 3968 := by
  have hrows : percRows l (Int64.ofNat t) = _ :=
    percRows_from h _ (fun i _ => hn _) (fun e _ => hn e) ht
  rw [perc, hrows, seek_eq, edges_eq, copies_append]
  by_cases hlt : t < (copies n (edgesFrom (List.finRange 128))).length
  · rw [List.getElem?_append_left hlt, List.getElem?_eq_getElem hlt]
    rfl
  · rw [List.getElem?_append_right (by omega), List.getElem?_eq_none (by omega), copies_cons,
      copies_nil, List.append_nil, List.getElem?_replicate]
    show 3968 = _
    split <;> rfl

end

/-! ## Order statistics -/

theorem perc_histogram {xs : List Nat} (h : ∀ e, (xs.map rep).count e < 2 ^ 63) {thres : Int64}
    {t : Nat} (ht : thres.toInt = t) :
    perc (histogram xs) thres = (xs.mergeSort[t]?.map rep).getD 3968 := by
  have hlt : thres.toInt < 2 ^ 63 := thres.toInt_lt
  have hthres : thres = Int64.ofNat t := by
    rw [← Int64.toInt_inj, Int64.toInt_ofNat_of_lt (by omega), ht]
  rw [hthres, perc_eq (counts_histogram xs) h (by omega), copies_edges, List.getElem?_map]

section
variable {xs : List Nat} {thres thres' : Int64} (h : ∀ e, (xs.map rep).count e < 2 ^ 63)

theorem rank_of_nonneg (h0 : 0 ≤ thres) (hlt : thres.toInt < xs.length) :
    ∃ t, thres.toInt = (t : Nat) ∧ t < xs.mergeSort.length := by
  obtain ⟨t, ht⟩ := Int.eq_ofNat_of_zero_le (Int64.le_iff_toInt_le.mp h0)
  rw [List.length_mergeSort]
  exact ⟨t, ht, by omega⟩

include h

theorem perc_of_rank {t : Nat} (ht : thres.toInt = t) (hlt : t < xs.mergeSort.length) :
    perc (histogram xs) thres = rep xs.mergeSort[t] := by
  rw [perc_histogram h ht, List.getElem?_eq_getElem hlt]
  rfl

theorem perc_mono (h0 : 0 ≤ thres) (hle : thres ≤ thres') (hlt : thres'.toInt < xs.length) :
    perc (histogram xs) thres ≤ perc (histogram xs) thres' := by
  have hle' := Int64.le_iff_toInt_le.mp hle
  obtain ⟨t, ht, hlen⟩ := rank_of_nonneg h0 (hle'.trans_lt hlt)
  obtain ⟨t', ht', hlen'⟩ := rank_of_nonneg (Int64.le_trans h0 hle) hlt
  rw [perc_of_rank h ht hlen, perc_of_rank h ht' hlen']
  refine rep_mono ?_
  obtain rfl | hne := eq_or_ne t t'
  · exact le_rfl
  · exact List.pairwise_iff_getElem.mp (List.pairwise_mergeSort' (· ≤ ·) xs) t t' hlen hlen'
      (by omega)

theorem perc_between (h0 : 0 ≤ thres) (hlt : thres.toInt < xs.length) :
    min (histogram xs) ≤ perc (histogram xs) thres ∧
    perc (histogram xs) thres ≤ max (histogram xs) := by
  obtain ⟨t, ht, hlen⟩ := rank_of_nonneg h0 hlt
  have hmem : xs.mergeSort[t] ∈ xs := List.mem_mergeSort.mp (List.getElem_mem hlen)
  have hne : xs ≠ [] := List.ne_nil_of_mem hmem
  obtain ⟨lo, hlo⟩ := Option.isSome_iff_exists.mp (List.isSome_min?_of_ne_nil hne)
  obtain ⟨hi, hhi⟩ := Option.isSome_iff_exists.mp (List.isSome_max?_of_ne_nil hne)
  have hbins := fun e => (h e).trans (show 2 ^ 63 < 2 ^ 64 by decide)
  rw [perc_of_rank h ht hlen, min_histogram hbins hlo, max_histogram hbins hhi]
  exact ⟨rep_mono ((List.min?_eq_some_iff.mp hlo).2 _ hmem),
    rep_mono ((List.max?_eq_some_iff.mp hhi).2 _ hmem)⟩

/-- The scan finds the sample of every rank. -/
theorem percentile_rank :
    (∀ (thres : Int64) (t : Nat), thres.toInt = t → t < xs.length →
      ∃ x, xs.mergeSort[t]? = some x ∧ perc (histogram xs) thres = rep x) ∧
    (∀ thres thres' : Int64, 0 ≤ thres → thres ≤ thres' → thres'.toInt < xs.length →
      perc (histogram xs) thres ≤ perc (histogram xs) thres') ∧
    ∀ thres : Int64, 0 ≤ thres → thres.toInt < xs.length →
      min (histogram xs) ≤ perc (histogram xs) thres ∧
      perc (histogram xs) thres ≤ max (histogram xs) := by
  refine ⟨fun thres t ht hlt => ?_, fun _ _ => perc_mono h, fun _ => perc_between h⟩
  have hlen : t < xs.mergeSort.length := by rwa [List.length_mergeSort]
  exact ⟨xs.mergeSort[t], List.getElem?_eq_getElem hlen, perc_of_rank h ht hlen⟩

end

theorem percentile_rank_three :
    (∀ e, ([300, 7, 301].map rep).count e < 2 ^ 63) ∧
    [300, 7, 301].mergeSort[1]? = some 300 ∧ perc (histogram [300, 7, 301]) 1 = 300 ∧
    perc (histogram [300, 7, 301]) 1 ≤ perc (histogram [300, 7, 301]) 2 ∧
    min (histogram [300, 7, 301]) ≤ perc (histogram [300, 7, 301]) 1 := by
  have h : ∀ e, ([300, 7, 301].map rep).count e < 2 ^ 63 := fun e =>
    (count_rep_le _ e).trans_lt (by decide)
  obtain ⟨hrank, hmono, hends⟩ := percentile_rank h
  have hsort : [300, 7, 301].mergeSort = [7, 300, 301] := by
    rw [List.mergeSort_eq_insertionSort (· ≤ ·)]
    decide
  obtain ⟨x, hx, hperc⟩ := hrank 1 1 rfl (by decide)
  rw [hsort] at hx ⊢
  cases hx
  exact ⟨h, rfl, hperc, hmono 1 2 (by decide) (by decide) (by decide),
    (hends 1 (by decide) (by decide)).1⟩

/-! ## A bin that is taken for a negative number -/

theorem neg_of_large {k : Nat} (hk : k < 2 ^ 64) :
    0 - Int64.ofNat k = Int64.ofNat (2 ^ 64 - k) := by
  rw [Int64.ofNat_sub _ _ hk.le]
  rfl

theorem pos_of_mem_edgesFrom {e : Nat} (he : e ∈ edgesFrom ((List.finRange 127).map Fin.succ)) :
    0 < e := by
  simp only [edgesFrom, List.mem_append, mem_row, List.map_map, List.mem_map] at he
  obtain ⟨i, -, rfl⟩ | he := he
  · show 0 < 0 + (i.val + 1) * 1
    omega
  · omega

theorem counts_replicate (k : Nat) :
    Counts (fun e => if e = 0 then k else 0) (histogram (List.replicate k 0)) := by
  have h := counts_histogram (List.replicate k 0)
  have hn : (fun e => ((List.replicate k 0).map rep).count e) =
      fun e => if e = 0 then k else 0 := by
    funext e
    rw [List.map_replicate, List.count_replicate]
    refine if_congr ?_ rfl rfl
    rw [show rep 0 = 0 from rfl, beq_iff_eq, eq_comm]
  rwa [hn] at h

/-- The bin of the samples is passed by, and there is nothing left to count. -/
theorem perc_large {k : Nat} (hk : 2 ^ 63 < k) (hk' : k < 2 ^ 64) :
    perc (histogram (List.replicate k 0)) 0 = 3968 := by
  have hcounts := counts_replicate k
  generalize histogram (List.replicate k 0) = l at hcounts
  have hbin : (l.bin0 0).toInt64 = Int64.ofNat k := by
    rw [hcounts.bin0 0]
    rfl
  have hpos : ¬ Int64.ofNat (2 ^ 64 - k) < 0 := by
    rw [Int64.lt_iff_toInt_lt, Int64.toInt_ofNat_of_lt (by omega), Int64.toInt_zero]
    omega
  have hfirst : percRow l.bin0 0 1 (List.finRange 128) 0 =
      percRow l.bin0 0 1 ((List.finRange 127).map Fin.succ) (Int64.ofNat (2 ^ 64 - k)) := by
    rw [List.finRange_succ, percRow, hbin, neg_of_large hk']
    exact if_neg hpos
  have hzero : ∀ e, 0 < e → (if e = 0 then k else 0) = 0 := fun e he => if_neg he.ne'
  have hsmall : ∀ e, 0 < e → (if e = 0 then k else 0) < 2 ^ 63 := fun e he => by
    rw [hzero e he]
    decide
  have hrest := percRows_from hcounts ((List.finRange 127).map Fin.succ)
    (fun i hi => hsmall _ (pos_of_mem_edgesFrom
      (List.mem_append_left _ (List.mem_map_of_mem hi))))
    (fun e he => hsmall e (by omega)) (show 2 ^ 64 - k < 2 ^ 63 by omega)
  rw [seek_of_zero fun e he => hzero e (pos_of_mem_edgesFrom he)] at hrest
  have hrows : percRows l 0 = .ok (Int64.ofNat (2 ^ 64 - k)) := by
    rw [percRows, hfirst]
    exact hrest
  rw [perc, hrows]

/-- More than `2 ^ 63` samples of 0 have 3968 as their smallest. -/
theorem percentile_overflow :
    List.replicate (2 ^ 63 + 1) 0 ≠ [] ∧
    (List.replicate (2 ^ 63 + 1) 0).mergeSort[0]? = some 0 ∧ rep 0 = 0 ∧
    perc (histogram (List.replicate (2 ^ 63 + 1) 0)) 0 = 3968 := by
  refine ⟨?_, ?_, rfl, perc_large (by omega) (by omega)⟩
  · rw [Ne, List.replicate_eq_nil_iff]
    omega
  · rw [← List.head?_eq_getElem?]
    refine head?_mergeSort ?_ fun y _ => Nat.zero_le y
    rw [List.mem_replicate]
    omega

end RdmaBench.WriteFlush.Percentiles
