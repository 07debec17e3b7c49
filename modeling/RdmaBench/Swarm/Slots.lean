import RdmaBench.Swarm.Queues

/-! # The slots of a window with `allsig`

When a worker uses a slot again it has polled the completion of the slot's own
request. A READ has then placed its data, which are ones: it reads above the
polling region of its peer, where nothing is written while all workers READ. So
the worker's check of the slot's first byte succeeds, if a READ has a first
byte. `main` accepts a size of zero, for which the slots are all one byte that
no READ fills. -/

namespace RdmaBench.Swarm.Slots
open RdmaBench.Lib.ByteMem RdmaBench.Lib.Runs RdmaBench.Lib.SlotRing
open RdmaBench.Swarm.Model RdmaBench.Swarm.Window RdmaBench.Swarm.Queues

variable (f : Flags)

/-- Slots are released by their own completions, and the check after a poll succeeds. -/
structure SlotsReleased (a : Worker) : Prop where
  own : a.pc = .top → f.windowSize ≤ a.nbTxTot →
    ∃ op rest, a.cq (a.recQpnArr a.windowI) ++ a.sq (a.recQpnArr a.windowI) = op :: rest ∧
      op.step = a.nbTxTot - f.windowSize ∧ op.slot = a.windowI ∧ op.signaled = true
  ones : f.doRead = true → ∀ x, f.pollingRegionSize < x → x < kAppBufSize → a.connBuf x = 1
  full : f.doRead = true → a.pc = .slot → a.connBuf (a.pollBuf f) ≠ 0
  asserted : a.pc ≠ .failed

/-! ## READs place ones -/

/-- The buffer of a worker that READs. -/
structure ReadsOnes (a : Worker) : Prop where
  window : InWindow f a
  ones : ∀ x, f.pollingRegionSize < x → x < kAppBufSize → a.connBuf x = 1
  offsets : ∀ qpn, ∀ op ∈ unpolled a qpn, GoodOffset f op.remOffset
  placed : ∀ qpn, ∀ op ∈ unpolled a qpn, op.placed = true → a.connBuf (op.slot * f.size) = 1
  completed : ∀ qpn, ∀ op ∈ a.cq qpn, op.placed = true
  polled : a.pc = .slot → a.connBuf (a.pollBuf f) = 1
  running : a.pc ≠ .failed

variable {f} {a b : Worker}

theorem readsOnes_start : ReadsOnes f (Worker.start f) where
  window := inWindow_start
  ones _ hlow hhigh := start_connBuf_eq_one hlow.le hhigh
  offsets _ _ hop := absurd hop List.not_mem_nil
  placed _ _ hop := absurd hop List.not_mem_nil
  completed _ _ hop := absurd hop List.not_mem_nil
  polled hpc := Pc.noConfusion hpc
  running := Pc.noConfusion

/-- Placing ones keeps every one. -/
theorem readFrom_eq_one {op : Op} {src : Mem} (hsrc : ∀ i < f.size, src (op.remOffset + i) = 1)
    {x : Nat} (hx : a.connBuf x = 1) : (a.readFrom f op src).connBuf x = 1 := by
  show (if _ then _ else _) = _
  split
  · next hin => exact hsrc _ (by omega)
  · exact hx

theorem readFrom_slot_eq_one {op : Op} {src : Mem}
    (hsrc : ∀ i < f.size, src (op.remOffset + i) = 1) (hsize : 0 < f.size) :
    (a.readFrom f op src).connBuf (op.slot * f.size) = 1 := by
  rw [readFrom_slot hsize (hsrc 0 hsize), if_pos rfl]

theorem mem_unpolled_mark {qpn k q : Nat} {op x : Op} (hx : x ∈ unpolled (a.mark qpn k op) q) :
    x ∈ unpolled a q ∨ x = { op with placed := true } ∧ q = qpn := by
  by_cases hq : q = qpn
  · subst hq
    simp only [unpolled, Worker.mark, Function.update_self, List.mem_append] at hx
    obtain hx | hx := hx
    · exact .inl (List.mem_append_left _ hx)
    · obtain hx | hx := List.mem_or_eq_of_mem_set hx
      · exact .inl (List.mem_append_right _ hx)
      · exact .inr ⟨hx, rfl⟩
  · simp only [unpolled, Worker.mark, Function.update_of_ne hq] at hx
    exact .inl hx

theorem ReadsOnes.read (h : ReadsOnes f a) (hb : ReadsOnes f b) (hsize : 0 < f.size)
    {qpn k : Nat} {op : Op} (hop : (a.sq qpn)[k]? = some op) :
    ReadsOnes f ((a.mark qpn k op).readFrom f op b.connBuf) := by
  have hmem : op ∈ unpolled a qpn := List.mem_append_right _ (List.mem_of_getElem? hop)
  obtain ⟨-, hlow, hhigh⟩ := h.offsets qpn op hmem
  have hsrc : ∀ i < f.size, b.connBuf (op.remOffset + i) = 1 :=
    fun i hi => hb.ones _ (by omega) (by omega)
  have hmark : ∀ q x, x ∈ unpolled ((a.mark qpn k op).readFrom f op b.connBuf) q →
      x ∈ unpolled a q ∨ x = { op with placed := true } ∧ q = qpn :=
    fun q x hx => mem_unpolled_mark (a := a) (k := k) hx
  refine ⟨(h.window.mark hop).setBuf _, fun x hl hh => readFrom_eq_one hsrc (h.ones x hl hh),
    fun q x hx => ?_, fun q x hx hp => ?_, h.completed, fun hpc => ?_, h.running⟩
  · obtain hx | ⟨rfl, rfl⟩ := hmark q x hx
    · exact h.offsets q x hx
    · exact h.offsets q op hmem
  · obtain hx | ⟨rfl, -⟩ := hmark q x hx
    · exact readFrom_eq_one hsrc (h.placed q x hx hp)
    · exact readFrom_slot_eq_one hsrc hsize
  · exact readFrom_eq_one hsrc (h.polled hpc)

theorem ReadsOnes.complete (h : ReadsOnes f a) {qpn : Nat} {op : Op} {rest : List Op}
    (hsq : a.sq qpn = op :: rest) (hp : op.placed = true) :
    ReadsOnes f (a.complete qpn op rest) := by
  have hmem : op ∈ unpolled a qpn := List.mem_append_right _ (hsq ▸ List.mem_cons_self)
  have heq := unpolled_complete hsq (h.window.ops qpn op hmem).2
  refine ⟨h.window.complete hsq, h.ones, ?_, ?_,
    forall_cq_complete h.completed rest fun _ => hp, h.polled, h.running⟩
  · rw [heq]
    exact h.offsets
  · rw [heq]
    exact h.placed

/-! ## The loop -/

/-- A step that leaves the queues and the buffer as they are. -/
theorem ReadsOnes.goto (h : ReadsOnes f a) {pc : Pc} {rec : Nat → Nat}
    (hwin : InWindow f { a with pc := pc, recQpnArr := rec }) (hslot : pc ≠ .slot)
    (hrun : pc ≠ .failed) : ReadsOnes f { a with pc := pc, recQpnArr := rec } :=
  ⟨hwin, h.ones, h.offsets, h.placed, h.completed, fun hpc => absurd hpc hslot, hrun⟩

theorem ReadsOnes.pollWindow (h : ReadsOnes f a) (hW : 0 < f.windowSize) (hpc : a.pc = .top)
    (hn : f.windowSize ≤ a.nbTxTot) {c : Op} {rest : List Op}
    (hcq : a.cq (a.recQpnArr a.windowI) = c :: rest) :
    ReadsOnes f (a.appPollCq (a.recQpnArr a.windowI) rest .slot) := by
  refine ⟨h.window.pollWindow hW hpc hn hcq, h.ones,
    fun q x hx => h.offsets q x (mem_unpolled_of_poll hcq hx),
    fun q x hx => h.placed q x (mem_unpolled_of_poll hcq hx), forall_cq_poll h.completed hcq,
    fun _ => ?_, Pc.noConfusion⟩
  -- the polled request is that of the slot, and its data have been placed
  have hmem : c ∈ a.cq (a.recQpnArr a.windowI) := hcq ▸ List.mem_cons_self
  have hone := h.placed _ c (List.mem_append_left _ hmem) (h.completed _ c hmem)
  rwa [(h.window.polled_own hW hpc hn hcq).2] at hone

/-- Clearing the slot touches no other slot and nothing above the polling region. -/
theorem ReadsOnes.takeSlot (h : ReadsOnes f a) (hW : 0 < f.windowSize) (hsize : 0 < f.size)
    (hpc : a.pc = .slot) :
    ReadsOnes f
      { a with pc := .choose, connBuf := Function.update a.connBuf (a.pollBuf f) 0 } := by
  have hcons : consumed f a = a.nbTxTot + 1 - f.windowSize := if_neg (hpc ▸ Pc.noConfusion)
  refine ⟨(h.window.leave (hpc ▸ Pc.noConfusion) (.inl rfl)).setBuf _, fun x hl hh => ?_, h.offsets,
    fun q x hx hp => ?_, h.completed, Pc.noConfusion, Pc.noConfusion⟩
  · have hbelow : a.pollBuf f < f.pollingRegionSize := by
      rw [Worker.pollBuf, h.window.windowI]
      exact Nat.mul_lt_mul_of_pos_right (Nat.mod_lt _ hW) hsize
    have hne : x ≠ a.pollBuf f := by omega
    simp only [Function.update_of_ne hne]
    exact h.ones x hl hh
  · obtain ⟨hlow, hhigh⟩ := h.window.dealt.bounds q x.step (List.mem_map_of_mem hx)
    have hother : x.slot ≠ a.windowI := by
      rw [(h.window.ops q x hx).1, h.window.windowI]
      exact slot_ne hhigh (by omega)
    have hne : x.slot * f.size ≠ a.pollBuf f := fun heq =>
      hother (Nat.eq_of_mul_eq_mul_right hsize heq)
    simp only [Function.update_of_ne hne]
    exact h.placed q x hx hp

theorem ReadsOnes.postSend (h : ReadsOnes f a) (hW : 0 < f.windowSize) (hall : f.allsig = true)
    {qpn remOffset : Nat} (hpc : a.pc = .post qpn) (hoff : GoodOffset f remOffset) :
    ReadsOnes f (a.postSend f qpn remOffset) := by
  refine ⟨h.window.postSend hW hall hpc, h.ones, fun q x hx => ?_, fun q x hx hp => ?_,
    h.completed, Pc.noConfusion, Pc.noConfusion⟩
  · obtain hx | rfl := mem_unpolled_of_post hx
    · exact h.offsets q x hx
    · exact hoff
  · obtain hx | rfl := mem_unpolled_of_post hx
    · exact h.placed q x hx hp
    · exact Bool.noConfusion hp

theorem ReadsOnes.act (h : ReadsOnes f a) (hW : 0 < f.windowSize) (hall : f.allsig = true)
    (hread : f.doRead = true) (hsize : 0 < f.size) {processId : Nat}
    (hact : Act f processId a b) : ReadsOnes f b := by
  have hwin := h.window.act hW hall hact
  cases hact with
  | noWindow hpc => exact h.goto hwin Pc.noConfusion Pc.noConfusion
  | pollWindow hpc hn _ hcq => exact h.pollWindow hW hpc hn hcq
  | noPollWindow _ _ hsel => exact absurd (hall.symm.trans hsel) Bool.noConfusion
  | assertFails hpc _ _ hbyte => exact absurd ((h.polled hpc).symm.trans hbyte) (by decide)
  | takeSlot hpc => exact h.takeSlot hW hsize hpc
  | noTakeSlot _ hwrite => exact absurd (hread.symm.trans hwrite) Bool.noConfusion
  | chooseQp => exact h.goto hwin Pc.noConfusion Pc.noConfusion
  | overrun => exact h.goto hwin Pc.noConfusion Pc.noConfusion
  | pollQp _ hmust => exact absurd (hall.symm.trans hmust.1) Bool.noConfusion
  | noPollQp => exact h.goto hwin Pc.noConfusion Pc.noConfusion
  | postSend hpc hoff => exact h.postSend hW hall hpc hoff

theorem reachable_readsOnes {s : Workers} (hW : 0 < f.windowSize) (hall : f.allsig = true)
    (hread : f.doRead = true) (hsize : 0 < f.size) (hs : Reachable (swarm f) s) (w : Thread) :
    ReadsOnes f (s w) :=
  reachable_worker readsOnes_start (fun h hact => h.act hW hall hread hsize hact)
    (fun hwrite => absurd (hread.symm.trans hwrite) Bool.noConfusion)
    (fun _ h hb hop => h.read hb hsize hop)
    (fun hwrite => absurd (hread.symm.trans hwrite) Bool.noConfusion)
    (fun h hsq hp => h.complete hsq hp) hs w

/-- Workers that WRITE check no slot. -/
theorem reachable_running {s : Workers} (hwrite : f.doRead = false)
    (hs : Reachable (swarm f) s) (w : Thread) : (s w).pc ≠ .failed := by
  refine reachable_worker (I := fun a => a.pc ≠ .failed) Pc.noConfusion (fun {_ a b} h hact => ?_)
    (fun _ h _ => h) (fun _ h _ _ => h) (fun _ h => h) (fun h _ _ => h) hs w
  cases hact with
  | assertFails _ hread => exact absurd (hread.symm.trans hwrite) Bool.noConfusion
  | _ => exact Pc.noConfusion

theorem slotsReleased_of_size {s : Workers} (hW : 0 < f.windowSize) (hall : f.allsig = true)
    (hsize : f.doRead = true → 0 < f.size) (hs : Reachable (swarm f) s) (w : Thread) :
    SlotsReleased f (s w) := by
  have hwin := reachable_inWindow hW hall hs w
  cases hr : f.doRead with
  | true =>
    have h := reachable_readsOnes hW hall hr (hsize hr) hs w
    refine ⟨hwin.next hW, fun _ => h.ones, fun _ hpc => ?_, h.running⟩
    rw [h.polled hpc]
    decide
  | false =>
    have hnot : f.doRead ≠ true := hr ▸ Bool.noConfusion
    exact ⟨hwin.next hW, fun hread => absurd hread hnot, fun hread => absurd hread hnot,
      reachable_running hr hs w⟩

/-! ## READs of no bytes -/

variable {s : Workers} {w : Thread} {qpn : Nat}

theorem readFrom_of_size_zero (hsize : f.size = 0) (op : Op) (src : Mem) :
    a.readFrom f op src = a := by
  have hbuf : memcpy a.connBuf (op.slot * f.size) (fun i => src (op.remOffset + i)) f.size =
      a.connBuf := by
    funext x
    exact if_neg (by omega)
  rw [Worker.readFrom, hbuf]

/-- Two workers that differ at most in what their requests have come to. -/
structure SameCode (a b : Worker) : Prop where
  pc : b.pc = a.pc
  nbTxTot : b.nbTxTot = a.nbTxTot
  windowI : b.windowI = a.windowI
  recQpnArr : b.recQpnArr = a.recQpnArr
  connBuf : b.connBuf = a.connBuf

theorem SameCode.refl (a : Worker) : SameCode a a := ⟨rfl, rfl, rfl, rfl, rfl⟩

theorem reach_complete {op : Op} {rest : List Op} (hs : Reachable (swarm f) s)
    (hsq : (s w).sq qpn = op :: rest) (hp : op.placed = true) :
    ∃ t, Reachable (swarm f) t ∧ t w = (s w).complete qpn op rest :=
  ⟨_, .step (e := .complete w qpn) hs ⟨op, rest, hsq, hp, rfl⟩, Function.update_self ..⟩

/-- The oldest request of a queue pair can be completed. -/
theorem reach_completion {op : Op} {rest : List Op} (hread : f.doRead = true)
    (hsize : f.size = 0) (hs : Reachable (swarm f) s) (hsq : (s w).sq qpn = op :: rest)
    (hsig : op.signaled = true) :
    ∃ t, Reachable (swarm f) t ∧ SameCode (s w) (t w) ∧ (t w).cq qpn ≠ [] := by
  have hdone : ∀ {t : Workers} {x : Op}, Reachable (swarm f) t → SameCode (s w) (t w) →
      (t w).sq qpn = x :: rest → x.placed = true → x.signaled = true →
      ∃ u, Reachable (swarm f) u ∧ SameCode (s w) (u w) ∧ (u w).cq qpn ≠ [] := by
    intro t x ht hsame hx hp hxs
    obtain ⟨u, hu, huw⟩ := reach_complete ht hx hp
    refine ⟨u, hu, ?_, ?_⟩
    · rw [huw]
      exact ⟨hsame.pc, hsame.nbTxTot, hsame.windowI, hsame.recQpnArr, hsame.connBuf⟩
    · rw [huw]
      simp [Worker.complete, hxs]
  cases hp : op.placed with
  | true => exact hdone hs (.refl _) hsq hp hsig
  | false =>
    have hplace : Reachable (swarm f) (place f s w qpn 0 op) :=
      .step (e := .place w qpn 0) hs ⟨op, by rw [hsq]; rfl, hp, rfl⟩
    have hw : place f s w qpn 0 op w = (s w).mark qpn 0 op := by
      rw [place, if_pos hread, Function.update_self, readFrom_of_size_zero hsize]
    refine hdone (x := { op with placed := true }) hplace ?_ ?_ rfl hsig
    · rw [hw]
      exact ⟨rfl, rfl, rfl, rfl, rfl⟩
    · rw [hw]
      simp [Worker.mark, hsq]

/-- A worker with a full window comes to the check of its slot. -/
theorem reach_slot (hW : 0 < f.windowSize) (hall : f.allsig = true) (hread : f.doRead = true)
    (hsize : f.size = 0) (hw : InSwarm f w) (hs : Reachable (swarm f) s)
    (hpc : (s w).pc = .top) (hn : f.windowSize ≤ (s w).nbTxTot) :
    ∃ t, Reachable (swarm f) t ∧ (t w).pc = .slot ∧ (t w).nbTxTot = (s w).nbTxTot ∧
      (t w).connBuf = (s w).connBuf := by
  have hcq : ∃ t, Reachable (swarm f) t ∧ SameCode (s w) (t w) ∧
      (t w).cq ((s w).recQpnArr (s w).windowI) ≠ [] := by
    obtain ⟨op, rest, hop, -, -, hsig⟩ := (reachable_inWindow hW hall hs w).next hW hpc hn
    by_cases hempty : (s w).cq ((s w).recQpnArr (s w).windowI) = []
    · rw [unpolled, hempty, List.nil_append] at hop
      exact reach_completion hread hsize hs hop hsig
    · exact ⟨s, hs, .refl _, hempty⟩
  obtain ⟨t, ht, hsame, hne⟩ := hcq
  obtain ⟨c, rest, hc⟩ := List.exists_cons_of_ne_nil hne
  rw [← hsame.recQpnArr, ← hsame.windowI] at hc
  obtain ⟨u, hu, huw⟩ := reach_act hw ht
    (.pollWindow (hsame.pc.trans hpc) (hsame.nbTxTot ▸ hn) hall hc)
  exact ⟨u, hu, by rw [huw]; rfl, by rw [huw]; exact hsame.nbTxTot,
    by rw [huw]; exact hsame.connBuf⟩

/-- READs of no bytes share one byte as their slot. It is cleared once and stays so. -/
theorem assert_fails_of_size_zero (hf : f.Accepted) (hW : 0 < f.windowSize)
    (hall : f.allsig = true) (hread : f.doRead = true) (hsize : f.size = 0) (hw : InSwarm f w)
    (hq : CanChoose f w.1 qpn) : ∃ s, Reachable (swarm f) s ∧ (s w).pc = .failed := by
  have hbuf : ∀ a : Worker, a.pollBuf f = 0 := fun a => by rw [Worker.pollBuf, hsize, Nat.mul_zero]
  have hregion : f.pollingRegionSize = 0 := by rw [Flags.pollingRegionSize, hsize, Nat.mul_zero]
  -- a whole window is sent, and the first slot is taken
  obtain ⟨s, hs, hfilled⟩ := reach_filled hf hall hw hq (Nat.le_refl f.windowSize)
  obtain ⟨t, ht, htpc, htn, htbuf⟩ :=
    reach_slot hW hall hread hsize hw hs hfilled.pc hfilled.nbTxTot.ge
  have hone : (t w).connBuf ((t w).pollBuf f) ≠ 0 := by
    rw [hbuf, htbuf, hfilled.connBuf, start_connBuf_eq_one hregion.le (by decide)]
    decide
  obtain ⟨u, hu, huw⟩ := reach_act hw ht (.takeSlot htpc hread hone)
  have hslot : (u w).windowI < kAppMaxWindow := by
    rw [(reachable_inWindow hW hall hu w).windowI]
    exact Nat.lt_of_lt_of_le (Nat.mod_lt _ hW) hf.2.1
  -- the request into it places nothing, and the next slot is the same byte
  obtain ⟨v, remOffset, hv, hvw⟩ := reach_top hf hw hu (by rw [huw]) hslot hq
    fun hmust => absurd (hall.symm.trans hmust.1) Bool.noConfusion
  have hvn : f.windowSize ≤ (v w).nbTxTot := by
    rw [hvw, huw]
    show f.windowSize ≤ (t w).nbTxTot + 1
    rw [htn, hfilled.nbTxTot]
    exact Nat.le_succ _
  obtain ⟨x, hx, hxpc, -, hxbuf⟩ := reach_slot hW hall hread hsize hw hv (by rw [hvw]; rfl) hvn
  have hzero : (x w).connBuf ((x w).pollBuf f) = 0 := by
    have hsame : (x w).pollBuf f = (t w).pollBuf f := (hbuf _).trans (hbuf _).symm
    rw [hsame, hxbuf, hvw, huw]
    exact Function.update_self ((t w).pollBuf f) 0 (t w).connBuf
  obtain ⟨y, hy, hyw⟩ := reach_act hw hx (.assertFails hxpc hread hall hzero)
  exact ⟨y, hy, by rw [hyw]⟩

/-! ## When the check succeeds -/

/-- With `allsig`, slots are released by their own completions and the checks
succeed in every run, exactly if READs have a first byte. -/
theorem slots_released_iff (f : Flags) (hf : f.Accepted) (hall : f.allsig = true)
    (hW : 1 ≤ f.windowSize) (hN : 2 ≤ f.numProcesses) (hV : 1 ≤ f.vmsPerProcess) :
    (∀ s, Reachable (swarm f) s → ∀ w, InSwarm f w → SlotsReleased f (s w)) ↔
      (f.doRead = true → 1 ≤ f.size) := by
  refine ⟨fun hrel hread => Nat.pos_of_ne_zero fun hsize => ?_,
    fun hsize s hs w _ => slotsReleased_of_size hW hall hsize hs w⟩
  have hw : InSwarm f (0, 0) := ⟨Nat.lt_of_lt_of_le Nat.zero_lt_two hN, hf.2.2.1.1⟩
  obtain ⟨qpn, hq⟩ := exists_canChoose hN hV 0
  obtain ⟨s, hs, hfailed⟩ := assert_fails_of_size_zero hf hW hall hread hsize hw hq
  exact (hrel s hs _ hw).asserted hfailed

/-- Two processes with one READ of `size` bytes outstanding each. -/
def twoReaders (size : Nat) : Flags :=
  { numProcesses := 2, numThreads := 1, vmsPerProcess := 1, doRead := true, size := size,
    windowSize := 1, allsig := true, sqDepth := 2, unsigBatch := 1 }

theorem slots_released_twoReaders :
    (twoReaders 16).Accepted ∧
    ∀ s, Reachable (swarm (twoReaders 16)) s → ∀ w, InSwarm (twoReaders 16) w →
      SlotsReleased (twoReaders 16) (s w) := by
  have hf : (twoReaders 16).Accepted := by decide
  exact ⟨hf, (slots_released_iff (twoReaders 16) hf rfl (by decide) (by decide) (by decide)).2
    fun _ => by decide⟩

theorem twoReaders_zero_not_released :
    (twoReaders 0).Accepted ∧
    ¬∀ s, Reachable (swarm (twoReaders 0)) s → ∀ w, InSwarm (twoReaders 0) w →
      SlotsReleased (twoReaders 0) (s w) := by
  refine ⟨by decide, fun hrel => ?_⟩
  have hw : InSwarm (twoReaders 0) (0, 0) := by decide
  have hq : CanChoose (twoReaders 0) 0 1 := by decide
  obtain ⟨s, hs, hfailed⟩ :=
    assert_fails_of_size_zero (by decide) (by decide) rfl rfl rfl hw hq
  exact (hrel s hs _ hw).asserted hfailed

end RdmaBench.Swarm.Slots
