import RdmaBench.Lib.SlotRing
import RdmaBench.Sequencer.Model

/-! # The response buffer of a client

`run_client` of `ss-sequencer` posts one RECV for each request, on the cache
lines of `dgram_buf` in turn, and RECVs complete in the order they were posted.
A response without immediate data is read from the line whose number is its
index in the poll. That is the line its RECV was posted on only if the polls
before it were for whole windows. -/

namespace RdmaBench.Sequencer.Buffers
open RdmaBench.Lib.SlotRing RdmaBench.Sequencer.Model
open RdmaBench.Postlist.Worker (hrdModAdd)

/-! ## The loop of the client -/

def cachelineSize : Nat := 64

/-- The value of a response follows the 40 bytes of its global route header. -/
def payload (line : Nat) : Nat := line * cachelineSize + 40

/-- `buf_offset`, from the index of a completion in its poll. -/
def bufOffset (i : Nat) : Nat := i * cachelineSize + 40

/-- The variables of the loop that matter for the buffer. `recvs` has the lines
of the RECVs that are not completed, the oldest first. -/
structure Window where
  reqWi : Nat
  reqsToSend : Nat
  recvs : List Nat
deriving DecidableEq, Repr

def Window.start (postlist : Nat) : Window := ⟨0, postlist, []⟩

/-- Make `n` requests, each with a RECV on line `req_wi`. -/
def Window.request (postlist : Nat) (w : Window) : Nat → Window
  | 0 => w
  | n + 1 =>
    let w := w.request postlist n
    { w with reqWi := hrdModAdd w.reqWi postlist, recvs := w.recvs ++ [w.reqWi] }

/-- One turn of the loop: make the requests, and poll `num_resps` completions.
The first component has the line of each of them. -/
def Window.turn (postlist : Nat) (w : Window) (numResps : Nat) : List Nat × Window :=
  let w := w.request postlist w.reqsToSend
  (w.recvs.take numResps, { w with reqsToSend := numResps, recvs := w.recvs.drop numResps })

/-- A completion: the line its RECV was posted on, and whether it came with
immediate data. -/
structure Completion where
  line : Nat
  withImm : Bool
deriving DecidableEq, Repr

/-- The completions of each poll. The input has for each poll the flags of the
completions it returns. -/
def polls (postlist : Nat) : Window → List (List Bool) → List (List Completion)
  | _, [] => []
  | w, flags :: rest =>
    List.zipWith Completion.mk (w.turn postlist flags.length).1 flags ::
      polls postlist (w.turn postlist flags.length).2 rest

/-- For every full answer of a poll, the bytes read are those its RECV got. -/
def ReadsOwn (poll : List Completion) : Prop :=
  ∀ i line, poll[i]? = some ⟨line, false⟩ → bufOffset i = payload line

/-! ## Lines in turn -/

variable {postlist c : Nat} {w : Window}

/-- After `c` completions: RECVs are posted on the lines in turn, and together
with the requests to make there are as many as lines. -/
structure InTurn (postlist : Nat) (w : Window) (c : Nat) : Prop where
  recvs : w.recvs = (List.range' c w.recvs.length).map (· % postlist)
  reqWi : w.reqWi = (c + w.recvs.length) % postlist
  total : w.recvs.length + w.reqsToSend = postlist

theorem inTurn_start (hp : 1 ≤ postlist) : InTurn postlist (Window.start postlist) 0 :=
  ⟨rfl, (Nat.mod_eq_of_lt hp).symm, Nat.zero_add _⟩

theorem request_recvs (h : InTurn postlist w c) (hp : 1 ≤ postlist) (n : Nat) :
    (w.request postlist n).recvs = (List.range' c (w.recvs.length + n)).map (· % postlist) ∧
      (w.request postlist n).reqWi = (c + (w.recvs.length + n)) % postlist := by
  induction n with
  | zero => exact ⟨h.recvs, h.reqWi⟩
  | succ n ih =>
    obtain ⟨hrecvs, hwi⟩ := ih
    refine ⟨?_, ?_⟩
    · simp only [Window.request, hrecvs, hwi]
      rw [show w.recvs.length + (n + 1) = (w.recvs.length + n) + 1 from rfl,
        List.range'_1_concat, List.map_append, List.map_singleton]
    · simp only [Window.request, hwi]
      rw [hrdModAdd, next_slot hp]
      rfl

/-- Completion number `c + i` of the run fills line `(c + i) % postlist`. -/
theorem turn_lines (h : InTurn postlist w c) {n : Nat} (hp : 1 ≤ postlist) (hn : n ≤ postlist) :
    (w.turn postlist n).1 = (List.range' c n).map (· % postlist) ∧
      InTurn postlist (w.turn postlist n).2 (c + n) := by
  obtain ⟨hrecvs, hwi⟩ := request_recvs h hp w.reqsToSend
  rw [h.total] at hrecvs hwi
  have hsplit : List.range' c postlist = List.range' c n ++ List.range' (c + n) (postlist - n) := by
    rw [List.range'_append_1, Nat.add_sub_cancel' hn]
  have hdrop : (w.turn postlist n).2.recvs =
      (List.range' (c + n) (postlist - n)).map (· % postlist) := by
    simp only [Window.turn, hrecvs, ← List.map_drop, hsplit]
    rw [List.drop_left' List.length_range']
  have hlen : (w.turn postlist n).2.recvs.length = postlist - n := by
    rw [hdrop, List.length_map, List.length_range']
  refine ⟨?_, ?_, ?_, ?_⟩
  · simp only [Window.turn, hrecvs, ← List.map_take, hsplit]
    rw [List.take_left' List.length_range']
  · rw [hlen, hdrop]
  · rw [hlen]
    simp only [Window.turn, hwi]
    congr 1
    omega
  · rw [hlen]
    simp only [Window.turn]
    omega

/-- The next response lands where the client's model has it. -/
theorem receive_line {cfg : Config} {cl : Client} (h : InTurn cfg.postlist w cl.arrived)
    {line : Nat} (hline : w.recvs.head? = some line) (r : Response) (hr : r.withImm = false) :
    (cl.receive cfg r).buf = Function.update cl.buf line r.value := by
  have hhead : line = cl.arrived % cfg.postlist := by
    rw [h.recvs] at hline
    cases hlen : w.recvs.length with
    | zero => simp [hlen] at hline
    | succ n => simpa [hlen, List.range'_succ, eq_comm] using hline
  simp [Client.receive, hr, hhead]

/-- The full answers of a poll are read in the right places exactly if there are
none, or if the poll starts with line 0. -/
theorem readsOwn_iff {flags : List Bool} (hle : flags.length ≤ postlist) :
    ReadsOwn (List.zipWith Completion.mk
        ((List.range' c flags.length).map (· % postlist)) flags) ↔
      (false ∈ flags → c % postlist = 0) := by
  have hoff : ∀ i line, bufOffset i = payload line ↔ i = line := by
    intro i line
    simp only [bufOffset, payload, cachelineSize]
    omega
  have hget : ∀ i line, (List.zipWith Completion.mk
      ((List.range' c flags.length).map (· % postlist)) flags)[i]? = some ⟨line, false⟩ ↔
      flags[i]? = some false ∧ (c + i) % postlist = line := by
    intro i line
    by_cases hi : i < flags.length
    · rw [List.getElem?_zipWith, List.getElem?_map, List.getElem?_range' hi,
        List.getElem?_eq_getElem hi]
      simp [and_comm]
    · simp [List.getElem?_zipWith, List.getElem?_eq_none (Nat.le_of_not_lt hi)]
  constructor
  · intro h hmem
    obtain ⟨i, hi, hfull⟩ := List.getElem_of_mem hmem
    have hread := h i _ ((hget i _).mpr ⟨List.getElem?_eq_some_iff.mpr ⟨hi, hfull⟩, rfl⟩)
    have heq : i = (c + i) % postlist := (hoff _ _).mp hread
    -- equal remainders of c + i and i
    have hmod : i % postlist = (c + i) % postlist := by
      rw [Nat.mod_eq_of_lt (by omega)]
      exact heq
    have hdvd : postlist ∣ c + i - i := (Nat.modEq_iff_dvd' (Nat.le_add_left i c)).mp hmod
    rw [Nat.add_sub_cancel] at hdvd
    exact Nat.mod_eq_zero_of_dvd hdvd
  · intro hc i line hi
    obtain ⟨hfull, rfl⟩ := (hget i line).mp hi
    obtain ⟨hlt, -⟩ := List.getElem?_eq_some_iff.mp hfull
    rw [hoff, Nat.add_mod, hc (List.mem_of_getElem? hfull), Nat.zero_add, Nat.mod_mod,
      Nat.mod_eq_of_lt (by omega)]

/-! ## Sequences of polls -/

/-- From `c` completions on. -/
theorem polls_readOwn_iff (hp : 1 ≤ postlist) {input : List (List Bool)}
    (hs : ∀ flags ∈ input, flags.length ≤ postlist) (h : InTurn postlist w c) :
    (∀ poll ∈ polls postlist w input, ReadsOwn poll) ↔
      ∀ before flags after, input = before ++ flags :: after → false ∈ flags →
        (c + before.flatten.length) % postlist = 0 := by
  induction input generalizing w c with
  | nil => simp [polls]
  | cons flags rest ih =>
    have hle : flags.length ≤ postlist := hs flags List.mem_cons_self
    obtain ⟨hlines, hnext⟩ := turn_lines h hp hle
    have hrest := ih (fun f hf => hs f (List.mem_cons_of_mem _ hf)) hnext
    simp only [polls, List.forall_mem_cons, hlines, readsOwn_iff hle, hrest]
    constructor
    · rintro ⟨hfirst, hothers⟩ before f after heq hmem
      cases before with
      | nil =>
        obtain ⟨rfl, rfl⟩ := List.cons.inj heq
        exact hfirst hmem
      | cons b before =>
        obtain ⟨rfl, rfl⟩ := List.cons.inj heq
        rw [List.flatten_cons, List.length_append, ← Nat.add_assoc]
        exact hothers before f after rfl hmem
    · intro hall
      refine ⟨hall [] flags rest rfl, ?_⟩
      intro before f after heq hmem
      have := hall (flags :: before) f after (by rw [heq]; rfl) hmem
      rwa [List.flatten_cons, List.length_append, ← Nat.add_assoc] at this

/-- For any sequence of polls of at most `postlist` completions, every full
answer is read from the buffer that its completion filled, exactly if each poll
with a full answer comes after a number of completions that `postlist`
divides. -/
theorem full_answers_readOwn_iff (hp : 1 ≤ postlist) {input : List (List Bool)}
    (hs : ∀ flags ∈ input, 1 ≤ flags.length ∧ flags.length ≤ postlist) :
    (∀ poll ∈ polls postlist (Window.start postlist) input, ReadsOwn poll) ↔
      ∀ before flags after, input = before ++ flags :: after → false ∈ flags →
        before.flatten.length % postlist = 0 := by
  have hiff := polls_readOwn_iff hp (fun flags hf => (hs flags hf).2) (inTurn_start hp)
  simpa only [Nat.zero_add] using hiff

/-- A poll for the whole window, and then one for a part of it with a full
answer. -/
theorem full_answers_readOwn_drained :
    (polls 2 (Window.start 2) [[true, false], [false]]).length = 2 ∧
    ∀ poll ∈ polls 2 (Window.start 2) [[true, false], [false]], ReadsOwn poll := by
  refine ⟨rfl, (full_answers_readOwn_iff (by decide) (by decide)).mpr ?_⟩
  intro before flags after heq _
  match before, heq with
  | [], _ => rfl
  | [_], heq =>
    obtain ⟨rfl, -⟩ := List.cons.inj heq
    rfl
  | _ :: _ :: [], heq => simp at heq
  | _ :: _ :: _ :: _, heq => simp at heq

theorem windows_dvd {input : List (List Bool)} (h : ∀ flags ∈ input, flags.length = postlist) :
    postlist ∣ input.flatten.length := by
  induction input with
  | nil => simp
  | cons flags rest ih =>
    rw [List.flatten_cons, List.length_append, h flags List.mem_cons_self]
    exact Nat.dvd_add (Nat.dvd_refl _) (ih fun g hg => h g (List.mem_cons_of_mem _ hg))

/-- If every poll but the last is for a whole window, no answer is misread. -/
theorem windows_readOwn (hp : 1 ≤ postlist) {input : List (List Bool)}
    (hs : ∀ flags ∈ input, flags.length ≤ postlist)
    (hwhole : ∀ flags ∈ input.dropLast, flags.length = postlist) :
    ∀ poll ∈ polls postlist (Window.start postlist) input, ReadsOwn poll := by
  refine (polls_readOwn_iff hp hs (inTurn_start hp)).mpr ?_
  intro before flags after heq _
  rw [Nat.zero_add]
  refine Nat.mod_eq_zero_of_dvd (windows_dvd fun f hf => hwhole f ?_)
  rw [heq, List.dropLast_append_of_ne_nil (List.cons_ne_nil _ _)]
  exact List.mem_append_left _ hf

/-- A window of two and polls of one completion each: the second completion, a
full answer, fills line 1, and the client reads line 0. -/
theorem second_poll_misreads :
    polls 2 (Window.start 2) [[true], [false]] = [[⟨0, true⟩], [⟨1, false⟩]] ∧
    ¬ ∀ postlist (input : List (List Bool)), 1 ≤ postlist →
      (∀ flags ∈ input, 1 ≤ flags.length ∧ flags.length ≤ postlist) →
      ∀ poll ∈ polls postlist (Window.start postlist) input, ReadsOwn poll := by
  refine ⟨by decide, fun hall => ?_⟩
  have hread := hall 2 [[true], [false]] (by decide) (by decide) [⟨1, false⟩] (by decide) 0 1 rfl
  exact absurd hread (by decide)

end RdmaBench.Sequencer.Buffers
