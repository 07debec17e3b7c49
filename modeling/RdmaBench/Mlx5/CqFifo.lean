import RdmaBench.Lib.Simulation
import RdmaBench.Mlx5.CqClean

/-! # A completion queue is a queue

The NIC writes entries and sessions, and software polls and cleans, in any order. The
NIC knows how far software is only from the doorbell record, which holds the low 24
bits of the consumer index. However the calls interleave, software gets what it would
get from a list of entries, in which a session is the entries it stands for. Cleaning
removes the entries of a resource from the list, but not the newest entry of a full one.

Entries have 64 bytes, and the tables that say which resources are multi-packet receive
queues do not change in a run. -/

namespace RdmaBench.Mlx5.CqFifo
open RdmaBench.Lib.Runs RdmaBench.Lib.Simulation RdmaBench.Lib.PhaseRing
open RdmaBench.Mlx5.Cqe RdmaBench.Mlx5.CqRing RdmaBench.Mlx5.CqQueue RdmaBench.Mlx5.CqClean
open RdmaBench.Mlx5.PollOne (Context)

variable {σ : Type*}

/-- The calls with their results. -/
inductive Label where
  | write (e : Plain)
  | session (x : Session)
  | poll (ne : Nat) (entries : List Slot) (err : Bool)
  | clean (srq : Bool) (rsnUidx : Nat) (freed : List UInt16)

/-! ## The ring -/

/-- A completion queue, the producer index of the NIC, and the queue pairs. -/
structure State (σ : Type*) where
  cq : Cq
  prod : Nat
  qps : σ

/-- The slots in use, as the NIC computes them. -/
def State.used (s : State σ) : Nat := (s.prod + (2 ^ 24 - s.cq.setCi.toNat)) % 2 ^ 24

/-- A completion queue with `2 ^ g.log` slots. A session may leave anything in its
slots besides its title and its mini CQEs. -/
def ring (g : Size) (cx : Context) (cqeVer : Bool) (handle : σ → Slot → σ × Bool) (qps : σ) :
    System (State σ) Label where
  init s := s = ⟨⟨g, mlx5AllocCqBuf, 0, 0⟩, 0, qps⟩
  step s l t := match l with
    | .write e => s.used + 1 ≤ g.n ∧
      t = { s with
        cq := { s.cq with
          buf := Function.update s.cq.buf (s.prod % g.n) (stamp (phase g.n s.prod) e.slot) }
        prod := s.prod + 1 }
    | .session x => s.used + x.minis.length ≤ g.n ∧ ∃ buf, x.At g buf s.prod ∧
      (∀ y, (∀ j < x.minis.length, (s.prod + j) % g.n ≠ y) → buf y = s.cq.buf y) ∧
      t = { s with cq := { s.cq with buf := buf }, prod := s.prod + x.minis.length }
    | .poll ne entries err =>
      entries = (pollCq cx cqeVer handle ne s.cq s.qps).entries ∧
      err = (pollCq cx cqeVer handle ne s.cq s.qps).err ∧
      t = { s with
        cq := (pollCq cx cqeVer handle ne s.cq s.qps).queue
        qps := (pollCq cx cqeVer handle ne s.cq s.qps).qps }
    | .clean srq rsnUidx freed =>
      freed = (mlx5CqClean cx cqeVer srq rsnUidx s.cq).2 ∧
      t = { s with cq := (mlx5CqClean cx cqeVer srq rsnUidx s.cq).1 }

/-! ## The list -/

structure Fifo (σ : Type*) where
  queue : List Slot
  qps : σ

/-- A list of at most `n` entries. -/
def fifo (n : Nat) (cx : Context) (cqeVer : Bool) (handle : σ → Slot → σ × Bool) (qps : σ) :
    System (Fifo σ) Label where
  init s := s = ⟨[], qps⟩
  step s l t := match l with
    | .write e => s.queue.length + 1 ≤ n ∧
      t = { s with queue := s.queue ++ [stamp false e.slot] }
    | .session x => s.queue.length + x.minis.length ≤ n ∧
      t = { s with queue := s.queue ++ x.entries (isMpRq cx cqeVer) }
    | .poll ne entries err =>
      entries = (pollLoop uncons handle ne s.queue s.qps).entries ∧
      err = (pollLoop uncons handle ne s.queue s.qps).err ∧
      t = ⟨(pollLoop uncons handle ne s.queue s.qps).queue,
        (pollLoop uncons handle ne s.queue s.qps).qps⟩
    | .clean srq rsnUidx freed =>
      freed = givenBack (freeResCqe cqeVer srq rsnUidx) n s.queue ∧
      t = { s with queue := cleaned (freeResCqe cqeVer srq rsnUidx) n s.queue }

/-! ## The ring is the list -/

variable {g : Size} {cx : Context} {cqeVer : Bool} {handle : σ → Slot → σ × Bool} {qps : σ}
  {s t : State σ} {f : Fifo σ}

/-- The ring holds the entries of the list, and the doorbell record is up to date. -/
structure Related (g : Size) (cx : Context) (cqeVer : Bool) (s : State σ) (f : Fifo σ) : Prop where
  size : s.cq.size = g
  queue : ∃ c, Represents cx cqeVer s.cq c f.queue ∧ s.prod = c + f.queue.length
  setCi : s.cq.setCi = s.cq.consIndex &&& 0xffffff
  qps : s.qps = f.qps

/-- The NIC counts right. -/
theorem Related.used (h : Related g cx cqeVer s f) : s.used = f.queue.length := by
  obtain ⟨c, hrep, hprod⟩ := h.queue
  have hlen := hrep.length_le
  have hlt := s.cq.size.n_lt
  have hci : s.cq.setCi.toNat = c % 2 ^ 24 := by
    rw [h.setCi, hrep.consIndex, UInt32.toNat_and, UInt32.toNat_ofNat',
      show (0xffffff : UInt32).toNat = 2 ^ 24 - 1 from rfl, Nat.and_two_pow_sub_one_eq_mod]
    omega
  rw [State.used, hci, hprod]
  omega

theorem related_init (h : (ring g cx cqeVer handle qps).init s) :
    Related g cx cqeVer s ⟨[], qps⟩ := by
  rw [show s = _ from h]
  exact ⟨rfl, ⟨0, ⟨rfl, [], ring_empty g 0, rfl⟩, rfl⟩,
    (UInt32.zero_and).symm, rfl⟩

/-- Whatever the NIC writes at the end of the ring goes to the end of the list. -/
theorem Related.push {b : Block} {buf : Nat → Slot} (h : Related g cx cqeVer s f)
    (hroom : s.used + b.size ≤ g.n) (hat : b.At g buf s.prod)
    (hsame : ∀ y, (∀ j < b.size, (s.prod + j) % g.n ≠ y) → buf y = s.cq.buf y) :
    f.queue.length + b.size ≤ g.n ∧
      Related g cx cqeVer { s with cq := { s.cq with buf := buf }, prod := s.prod + b.size }
        { f with queue := f.queue ++ b.entries (isMpRq cx cqeVer) } := by
  rw [h.used] at hroom
  obtain ⟨c, hrep, hprod⟩ := h.queue
  obtain ⟨bs, hring, hbs⟩ := hrep.ring
  have hlen := length_entriesOf (isMpRq cx cqeVer) bs
  rw [hbs] at hlen
  rw [hprod, hlen] at hat hsame
  rw [h.size] at hring
  refine ⟨hroom, h.size, ⟨c, ⟨hrep.consIndex, bs ++ [b], ?_, ?_⟩, ?_⟩, h.setCi, h.qps⟩
  · show Pending s.cq.size buf c (bs ++ [b])
    rw [h.size]
    exact hring.push hat (by omega) hsame
  · rw [entriesOf_append, hbs]
    simp [entriesOf]
  · show s.prod + b.size = c + (f.queue ++ b.entries (isMpRq cx cqeVer)).length
    rw [hprod, List.length_append, b.length_entries, Nat.add_assoc]

theorem uncons_eq_some {q q' : List Slot} {e : Slot} (h : uncons q = some (e, q')) :
    q = e :: q' := by
  cases q with
  | nil => cases h
  | cons a q =>
    cases h
    rfl

theorem Related.poll (h : Related g cx cqeVer s f) (handle : σ → Slot → σ × Bool) (ne : Nat) :
    (pollCq cx cqeVer handle ne s.cq s.qps).entries =
        (pollLoop uncons handle ne f.queue f.qps).entries ∧
      (pollCq cx cqeVer handle ne s.cq s.qps).err =
        (pollLoop uncons handle ne f.queue f.qps).err ∧
      Related g cx cqeVer
        { s with
          cq := (pollCq cx cqeVer handle ne s.cq s.qps).queue
          qps := (pollCq cx cqeVer handle ne s.cq s.qps).qps }
        ⟨(pollLoop uncons handle ne f.queue f.qps).queue,
          (pollLoop uncons handle ne f.queue f.qps).qps⟩ := by
  have hsame := pollLoop_same (R := fun cq q => cq.size = g ∧
      ∃ c, Represents cx cqeVer cq c q ∧ s.prod = c + q.length) (nextCqe cx cqeVer) uncons handle
    ?_ ?_ ne s.qps ⟨h.size, h.queue⟩
  · rw [h.qps] at hsame ⊢
    obtain ⟨hsize, c, hrep, hprod⟩ := hsame.queue
    exact ⟨hsame.entries, hsame.err, hsize, ⟨c, ⟨hrep.consIndex, hrep.ring⟩, hprod⟩, rfl, hsame.qps⟩
  · rintro cq q ⟨-, c, hrep, -⟩ hnone
    cases q with
    | nil => exact nextCqe_nil hrep
    | cons e q => cases hnone
  · rintro cq q e q' ⟨hsize, c, hrep, hprod⟩ hsome
    rw [uncons_eq_some hsome] at hrep hprod
    obtain ⟨cq', hnext, hrep', hsize'⟩ := nextCqe_cons hrep
    refine ⟨cq', hnext, hsize'.trans hsize, c + 1, hrep', ?_⟩
    rw [hprod, List.length_cons]
    omega

theorem Related.clean (h : Related g cx cqeVer s f) (srq : Bool) (rsnUidx : Nat) :
    (mlx5CqClean cx cqeVer srq rsnUidx s.cq).2 =
        givenBack (freeResCqe cqeVer srq rsnUidx) g.n f.queue ∧
      Related g cx cqeVer { s with cq := (mlx5CqClean cx cqeVer srq rsnUidx s.cq).1 }
        { f with queue := cleaned (freeResCqe cqeVer srq rsnUidx) g.n f.queue } := by
  obtain ⟨c, hrep, hprod⟩ := h.queue
  obtain ⟨c', cq', hclean, hrep', hlen, hci, hsize⟩ :=
    clean_represents hrep srq rsnUidx h.setCi
  rw [h.size] at hclean hrep' hlen
  rw [hclean]
  exact ⟨rfl, hsize.trans h.size, ⟨c', hrep', hprod.trans hlen.symm⟩, hci, h.qps⟩

theorem ring_simulates_fifo :
    Simulates (ring g cx cqeVer handle qps) (fifo g.n cx cqeVer handle qps)
      (Related g cx cqeVer) where
  init s hs := ⟨⟨[], qps⟩, rfl, related_init hs⟩
  step s l t f hstep h := by
    cases l with
    | write e =>
      obtain ⟨hroom, rfl⟩ := hstep
      obtain ⟨hroom', h'⟩ := h.push (b := .plain e) hroom (Function.update_self ..) fun y hy =>
        Function.update_of_ne (hy 0 Nat.one_pos).symm ..
      exact ⟨_, ⟨hroom', rfl⟩, h'⟩
    | session x =>
      obtain ⟨hroom, buf, hat, hsame, rfl⟩ := hstep
      obtain ⟨hroom', h'⟩ := h.push (b := .session x) hroom hat hsame
      exact ⟨_, ⟨hroom', rfl⟩, h'⟩
    | poll ne entries err =>
      obtain ⟨rfl, rfl, rfl⟩ := hstep
      obtain ⟨hentries, herr, h'⟩ := h.poll handle ne
      exact ⟨_, ⟨hentries, herr, rfl⟩, h'⟩
    | clean srq rsnUidx freed =>
      obtain ⟨rfl, rfl⟩ := hstep
      obtain ⟨hfreed, h'⟩ := h.clean srq rsnUidx
      exact ⟨_, ⟨hfreed, rfl⟩, h'⟩

/-- Every run of the completion queue is a run of the list, with the same results of
all calls. -/
theorem cq_run_fifo {ls : List Label} (h : Run (ring g cx cqeVer handle qps) ls s) :
    ∃ f, Run (fifo g.n cx cqeVer handle qps) ls f ∧ Related g cx cqeVer s f :=
  ring_simulates_fifo.run h

/-! ## A queue of four slots -/

/-- The completion of a receive on queue pair `qpn`. -/
def receivedOn (qpn : UInt8) : Plain where
  slot b := if b.val = 63 then 0x20 else if b.val = 59 then qpn else 0
  valid := show opcodeOf ((0x20 : UInt8) >>> 4).toNat ≠ .invalid by decide
  format := show ((0x20 : UInt8) &&& 0xc) >>> 2 ≠ compressed by decide

def fourSlots : Size := ⟨2, by omega⟩

def noResources : Context := ⟨fun _ => none, fun _ => none, fun _ => none⟩

/-- Every entry is accepted. -/
def accept (_ : Unit) (_ : Slot) : Unit × Bool := ((), true)

theorem run_write {ls : List Label} (h : Run (ring g cx cqeVer handle qps) ls s)
    (hrel : Related g cx cqeVer s f) (e : Plain) (hroom : f.queue.length + 1 ≤ g.n) :
    ∃ t, Run (ring g cx cqeVer handle qps) (ls ++ [.write e]) t ∧
      Related g cx cqeVer t { f with queue := f.queue ++ [stamp false e.slot] } := by
  have hused : s.used + 1 ≤ g.n := hrel.used ▸ hroom
  obtain ⟨-, hrel'⟩ := hrel.push (b := .plain e) hused (Function.update_self ..) fun y hy =>
    Function.update_of_ne (hy 0 Nat.one_pos).symm ..
  exact ⟨_, .snoc h ⟨hused, rfl⟩, hrel'⟩

/-- Receives of two queue pairs, of which one is destroyed before software polls. -/
def destroyedBetween : List Label :=
  [.write (receivedOn 1), .write (receivedOn 2), .write (receivedOn 1), .clean false 2 [],
    .poll 4 [stamp false (receivedOn 1).slot, stamp false (receivedOn 1).slot] false]

theorem freeResCqe_receivedOn :
    freeResCqe false false 2 (stamp false (receivedOn 1).slot) = none ∧
    freeResCqe false false 2 (stamp false (receivedOn 2).slot) = some none := by decide +kernel

theorem run_destroyedBetween : ∃ s, Run (ring fourSlots noResources false accept ())
    destroyedBetween s := by
  have hinit : (ring fourSlots noResources false accept ()).init
      ⟨⟨fourSlots, mlx5AllocCqBuf, 0, 0⟩, 0, ()⟩ := rfl
  obtain ⟨s1, hrun1, hrel1⟩ := run_write (.nil hinit) (related_init hinit) (receivedOn 1)
    (by decide)
  obtain ⟨s2, hrun2, hrel2⟩ := run_write hrun1 hrel1 (receivedOn 2) (by decide)
  obtain ⟨s3, hrun3, hrel3⟩ := run_write hrun2 hrel2 (receivedOn 1) (by decide)
  obtain ⟨hfreed, hrel4⟩ := hrel3.clean false 2
  obtain ⟨hother, hown⟩ := freeResCqe_receivedOn
  have hroom : ¬3 = fourSlots.n := by decide
  have hback : givenBack (freeResCqe false false 2) fourSlots.n
      ([] ++ [stamp false (receivedOn 1).slot] ++ [stamp false (receivedOn 2).slot] ++
        [stamp false (receivedOn 1).slot]) = [] := by
    simp [givenBack, overlooked, hroom, hother, hown]
  have hleft : cleaned (freeResCqe false false 2) fourSlots.n
      ([] ++ [stamp false (receivedOn 1).slot] ++ [stamp false (receivedOn 2).slot] ++
        [stamp false (receivedOn 1).slot]) =
      [stamp false (receivedOn 1).slot, stamp false (receivedOn 1).slot] := by
    simp [cleaned, overlooked, keeps, hroom, hother, hown]
  rw [hback] at hfreed
  rw [hleft] at hrel4
  have hclean : Run (ring fourSlots noResources false accept ()) (_ ++ [.clean false 2 []]) _ :=
    .snoc hrun3 ⟨hfreed.symm, rfl⟩
  obtain ⟨hentries, herr, hrel5⟩ := hrel4.poll accept 4
  exact ⟨_, hclean.snoc ⟨hentries.symm, herr.symm, rfl⟩⟩

theorem cq_run_fifo_destroyed : ∃ f, Run (fifo fourSlots.n noResources false accept ())
    destroyedBetween f := by
  obtain ⟨s, hs⟩ := run_destroyedBetween
  obtain ⟨f, hf, -⟩ := cq_run_fifo hs
  exact ⟨f, hf⟩

/-! ## What cleaning spares -/

/-- The entries that the NIC writes. -/
def Label.written (cx : Context) (cqeVer : Bool) : Label → List Slot
  | .write e => [stamp false e.slot]
  | .session x => x.entries (isMpRq cx cqeVer)
  | .poll _ _ _ | .clean _ _ _ => []

/-- The entries that software gets. -/
def Label.polled : Label → List Slot
  | .poll _ entries _ => entries
  | .write _ | .session _ | .clean _ _ _ => []

/-- No entry with `r` is removed by cleaning, and none is dropped with `CQ_POLL_ERR`. -/
def Label.Spares (cqeVer : Bool) (r : Slot → Bool) : Label → Prop
  | .clean srq rsnUidx _ => ∀ e, r e = true → freeResCqe cqeVer srq rsnUidx e = none
  | .poll _ _ err => err = false
  | .write _ | .session _ => True

theorem pollLoop_uncons (ne : Nat) (q : List Slot) (qps : σ)
    (herr : (pollLoop uncons handle ne q qps).err = false) :
    (pollLoop uncons handle ne q qps).entries ++ (pollLoop uncons handle ne q qps).queue = q := by
  induction ne generalizing q qps with
  | zero => rfl
  | succ ne ih =>
    cases q with
    | nil => rfl
    | cons e q =>
      simp only [pollLoop, uncons] at herr ⊢
      cases hh : handle qps e with
      | mk qps' ok =>
        rw [hh] at herr
        cases ok with
        | false => cases herr
        | true => exact congrArg (e :: ·) (ih q qps' herr)

theorem overlooked_eq_some {free : Slot → Option (Option UInt16)} {n : Nat} {q : List Slot}
    {e : Slot} (h : overlooked free n q = some e) : q = q.dropLast ++ [e] := by
  unfold overlooked at h
  split at h
  · obtain ⟨hlast, -⟩ := Option.filter_eq_some_iff.1 h
    exact (List.dropLast_append_getLast? e hlast).symm
  · cases h

theorem filter_cleaned {free : Slot → Option (Option UInt16)} {r : Slot → Bool}
    (h : ∀ e, r e = true → free e = none) (n : Nat) (q : List Slot) :
    (cleaned free n q).filter r = q.filter r := by
  have hkeep : ∀ e, (r e && keeps free e) = r e := by
    intro e
    cases hr : r e with
    | false => rfl
    | true => simp [keeps, h e hr]
  unfold cleaned
  split
  · rw [List.filter_filter]
    simp only [hkeep]
  · next e he =>
    conv_rhs => rw [overlooked_eq_some he]
    rw [List.filter_append, List.filter_append, List.filter_filter]
    simp only [hkeep]

/-- One step keeps what has been written and spared. -/
theorem fifo_step_spares {r : Slot → Bool} {f f' : Fifo σ} {l : Label}
    (h : (fifo g.n cx cqeVer handle qps).step f l f') (hl : l.Spares cqeVer r) :
    (l.polled ++ f'.queue).filter r = (f.queue ++ l.written cx cqeVer).filter r := by
  cases l with
  | write e =>
    obtain ⟨-, rfl⟩ := h
    rfl
  | session x =>
    obtain ⟨-, rfl⟩ := h
    rfl
  | poll ne entries err =>
    obtain ⟨rfl, rfl, rfl⟩ := h
    simp only [Label.polled, Label.written, List.append_nil]
    rw [pollLoop_uncons ne f.queue f.qps hl]
  | clean srq rsnUidx freed =>
    obtain ⟨-, rfl⟩ := h
    simp only [Label.polled, Label.written, List.append_nil, List.nil_append]
    exact filter_cleaned hl _ _

/-- Of the entries that cleaning spares, software has got or will find in the queue
exactly those that the NIC wrote, each once and in their order. -/
theorem spared_entries {r : Slot → Bool} {ls : List Label}
    (h : Run (ring g cx cqeVer handle qps) ls s) (hls : ∀ l ∈ ls, l.Spares cqeVer r) :
    ∃ f : Fifo σ, Related g cx cqeVer s f ∧
      (ls.flatMap Label.polled ++ f.queue).filter r =
        (ls.flatMap (Label.written cx cqeVer)).filter r := by
  obtain ⟨f, hrun, hrel⟩ := ring_simulates_fifo.run h
  refine ⟨f, hrel, ?_⟩
  clear h hrel
  induction hrun with
  | nil h0 =>
    rw [show _ = _ from h0]
    rfl
  | snoc hrun hstep ih =>
    rename_i ls f f' l
    have hl := hls l (by simp)
    have ih := ih fun l' hl' => hls l' (by simp [hl'])
    have hstep := fifo_step_spares hstep hl
    simp only [List.flatMap_append, List.flatMap_cons, List.flatMap_nil, List.append_nil,
      List.filter_append] at ih hstep ⊢
    rw [List.append_assoc, hstep, ← List.append_assoc, ih]

theorem spared_entries_destroyed : ∃ (s : State Unit) (f : Fifo Unit),
    Run (ring fourSlots noResources false accept ()) destroyedBetween s ∧
    Related fourSlots noResources false s f ∧
    (destroyedBetween.flatMap Label.polled ++ f.queue).filter (fun e => e.rsn = 1) =
      [stamp false (receivedOn 1).slot, stamp false (receivedOn 1).slot] := by
  obtain ⟨s, hs⟩ := run_destroyedBetween
  have hspares : ∀ l ∈ destroyedBetween, l.Spares false fun e => e.rsn = 1 := by
    intro l hl
    simp only [destroyedBetween, List.mem_cons, List.not_mem_nil, or_false] at hl
    obtain rfl | rfl | rfl | rfl | rfl := hl
    · trivial
    · trivial
    · trivial
    · intro e he
      simp [freeResCqe, of_decide_eq_true he]
    · rfl
  obtain ⟨f, hrel, hf⟩ := spared_entries hs hspares
  refine ⟨s, f, hs, hrel, hf.trans ?_⟩
  decide +kernel

end RdmaBench.Mlx5.CqFifo
