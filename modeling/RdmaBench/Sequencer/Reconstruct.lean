import RdmaBench.Lib.Elision
import RdmaBench.Lib.SlotRing
import RdmaBench.Sequencer.Model

/-! # What clients rebuild

A client rebuilds the value of a response with immediate data from its
`counter_hi`. Responses may arrive in any order as long as no full one overtakes one
with a smaller upper half. The value is then the assigned one, if full responses are
read from the line they landed in and the counter does not wrap. It is not in general. -/

namespace RdmaBench.Sequencer.Reconstruct
open RdmaBench.Lib.Runs RdmaBench.Lib.Elision RdmaBench.Sequencer.Model

/-! ## Halves of a value -/

def upper (v : Nat) : Nat := v >>> 32

theorem upper_mono {v w : Nat} (h : v ≤ w) : upper v ≤ upper w := by
  unfold upper
  rw [Nat.shiftRight_eq_div_pow, Nat.shiftRight_eq_div_pow]
  exact Nat.div_le_div_right h

theorem upper_shiftLeft (h : Nat) : upper (h <<< 32) = h := Nat.shiftLeft_shiftRight h 32

/-- A value is its upper half and its immediate data. -/
theorem upper_add_imm (r : Response) : upper r.value <<< 32 + r.immData = r.value := by
  rw [Response.immData, show 0xffffffff = 2 ^ 32 - 1 from rfl, Nat.and_two_pow_sub_one_eq_mod,
    upper, Nat.shiftLeft_eq, Nat.shiftRight_eq_div_pow]
  exact Nat.div_add_mod' r.value (2 ^ 32)

/-- Responses as messages without their upper half. -/
abbrev Readable (h : Nat) (l : List Response) : Prop :=
  Decodable (fun r => upper r.value) Response.withImm h l

abbrev upperAfter (h : Nat) (l : List Response) : Nat :=
  last (fun r => upper r.value) Response.withImm h l

/-! ## Reading -/

/-- The `counter_hi` after a response whose value was read rightly. -/
def nextHi (hi : Nat) (r : Response) : Nat := if r.withImm then hi else upper r.value <<< 32

theorem upper_nextHi (hi : Nat) (r : Response) :
    upper (nextHi hi r) = if r.withImm then upper hi else upper r.value := by
  unfold nextHi
  split
  · rfl
  · exact upper_shiftLeft _

theorem nextHi_aligned {hi : Nat} (halign : upper hi <<< 32 = hi) (r : Response) :
    upper (nextHi hi r) <<< 32 = nextHi hi r := by
  rw [upper_nextHi]
  unfold nextHi
  split
  · exact halign
  · rfl

theorem read_spec {c : Client} {i : Nat} {r : Response}
    (halign : upper c.counterHi <<< 32 = c.counterHi)
    (hupper : r.withImm = true → upper r.value = upper c.counterHi)
    (hbuf : r.withImm = false → c.buf i = r.value) :
    c.read i r = { c with
      counterHi := nextHi c.counterHi r
      results := c.results ++ [⟨r.value, r.value, r.withImm⟩] } := by
  unfold Client.read nextHi
  cases hs : r.withImm with
  | true =>
    have hval : c.counterHi + r.immData = r.value := by
      rw [← halign, ← hupper hs]
      exact upper_add_imm r
    simp only [if_true, hval]
  | false =>
    simp only [hbuf hs]
    rfl

/-- A client that has the upper half of each response with immediate data, and
the value of each full one in the line it looks at, reads what was assigned. -/
theorem readAll_spec {c : Client} {i : Nat} {rs : List Response}
    (halign : upper c.counterHi <<< 32 = c.counterHi)
    (hread : Readable (upper c.counterHi) rs)
    (hbuf : ∀ j r, rs[j]? = some r → r.withImm = false → c.buf (i + j) = r.value) :
    ∃ hi, upper hi = upperAfter (upper c.counterHi) rs ∧ upper hi <<< 32 = hi ∧
      c.readAll i rs = { c with
        counterHi := hi
        results := c.results ++ rs.map fun r => ⟨r.value, r.value, r.withImm⟩ } := by
  induction rs generalizing c i with
  | nil => exact ⟨c.counterHi, rfl, halign, by simp [Client.readAll]⟩
  | cons r rs ih =>
    have hstep := read_spec (i := i) halign hread.1 (hbuf 0 r rfl)
    have hrest : Readable (upper (nextHi c.counterHi r)) rs := by
      rw [upper_nextHi]
      exact hread.2
    have hbuf' : ∀ j r', rs[j]? = some r' → r'.withImm = false →
        c.buf (i + 1 + j) = r'.value := by
      intro j r' hj hs
      rw [Nat.add_assoc, Nat.add_comm 1]
      exact hbuf (j + 1) r' hj hs
    obtain ⟨hi, hupper, hhi, hall⟩ := ih (c := c.read i r) (i := i + 1)
      (by rw [hstep]; exact nextHi_aligned halign r) (by rw [hstep]; exact hrest)
      (by rw [hstep]; exact hbuf')
    refine ⟨hi, ?_, hhi, ?_⟩
    · rw [hupper, hstep]
      simp only [upperAfter, last, next, upper_nextHi]
    · rw [Client.readAll, hall, hstep]
      simp

/-! ## The invariant -/

/-- All values assigned to a client that are not lost in its results. -/
def issued (c : Client) (wire : List Response) : List Nat :=
  c.results.map Result.assigned ++ (c.cq ++ wire).map Response.value

/-- The client reads what was assigned, in whatever order responses arrive that do not
overtake as they must not, when the next value has the upper half `u`. -/
abbrev Secure (u h : Nat) (cq wire : List Response) : Prop :=
  Safe (fun r : Response => upper r.value) Response.withImm u h cq wire

/-- A client with its responses `wire` and requests `own` in flight, when the next value
has the upper half `u`. If a request assumes `u`, the client will have it. -/
structure Expects (u : Nat) (c : Client) (wire : List Response) (own : List Request) :
    Prop where
  upper_le : upper c.counterHi ≤ u
  assumed_le : ∀ r ∈ own, r.assumed ≤ u
  assumed : ∀ r ∈ own, r.assumed = u → upperAfter (upper c.counterHi) c.cq = u
  cq_le : ∀ r ∈ c.cq, upper r.value ≤ u
  secure : Secure u (upper c.counterHi) c.cq wire

/-- The same with its lines and results, when the values below `b` have been assigned. -/
structure ClientOk (postlist : Nat) (c : Client) (wire : List Response) (own : List Request)
    (b : Nat) : Prop where
  aligned : upper c.counterHi <<< 32 = c.counterHi
  expects : Expects (upper b) c wire own
  nodup : (issued c wire).Nodup
  below : ∀ v ∈ issued c wire, v < b
  total : c.reqsToSend + own.length + c.cq.length + wire.length = postlist
  arrived : c.arrived = c.results.length + c.cq.length
  landed : ∀ j r, c.cq[j]? = some r → r.withImm = false →
    c.buf ((c.results.length + j) % postlist) = r.value
  exact : ∀ x ∈ c.results, x.respCounter = x.assigned

/-- All clients are in order and no value has been assigned twice. -/
structure Orderly (postlist : Nat) (client : Nat → Client) (wire : Nat → List Response)
    (pending : List Request) (b : Nat) : Prop where
  each : ∀ cn, ClientOk postlist (client cn) (wire cn) (pending.filter (·.client = cn)) b
  apart : ∀ cn cn', cn ≠ cn' → ∀ v ∈ issued (client cn) (wire cn),
    v ∉ issued (client cn') (wire cn')

theorem start_orderly (cfg : Config) (counter : Nat) :
    Orderly cfg.postlist (State.start cfg counter).client (State.start cfg counter).wire []
      counter := by
  have hexpects : Expects (upper counter) (Client.start cfg) [] [] :=
    ⟨by simp [Client.start, upper], by simp, by simp, by simp [Client.start],
      ⟨trivial, trivial, by simp, by simp, .nil, .nil, by simp⟩⟩
  refine ⟨fun cn => ⟨?_, hexpects, ?_, ?_, ?_, ?_, ?_, ?_⟩, fun cn cn' _ => ?_⟩
  all_goals simp [State.start, Client.start, upper, issued]

section Steps

variable {postlist : Nat} {c : Client} {wire : List Response} {own : List Request} {b : Nat}

/-- The upper half of the next value stays, or gets to one that nobody has had. -/
theorem Expects.mono {u u' : Nat} (h : Expects u c wire own) (hu : u ≤ u') :
    Expects u' c wire own := by
  rcases hu.eq_or_lt with rfl | hlt
  · exact h
  · exact ⟨h.upper_le.trans hu, fun r hr => (h.assumed_le r hr).trans hu,
      fun r hr heq => absurd heq ((h.assumed_le r hr).trans_lt hlt).ne,
      fun r hr => (h.cq_le r hr).trans hu, h.secure.advance hlt h.upper_le h.cq_le⟩

/-- The client sends its requests with the upper half it has. -/
theorem ClientOk.send (h : ClientOk postlist c wire own b) (cn : Nat) :
    ClientOk postlist { c with reqsToSend := 0 } wire
      (own ++ List.replicate c.reqsToSend ⟨cn, upper c.counterHi⟩) b := by
  refine { h with
    expects := { h.expects with assumed_le := fun r hr => ?_, assumed := fun r hr => ?_ }
    total := ?_ }
  · rcases List.mem_append.1 hr with hold | hnew
    · exact h.expects.assumed_le r hold
    · rw [List.eq_of_mem_replicate hnew]
      exact h.expects.upper_le
  · rcases List.mem_append.1 hr with hold | hnew
    · exact h.expects.assumed r hold
    · rw [List.eq_of_mem_replicate hnew]
      exact h.expects.secure.settled.last_eq
  · have := h.total
    simp only [List.length_append, List.length_replicate]
    omega

theorem ClientOk.mono {b' : Nat} (h : ClientOk postlist c wire own b) (hb : b ≤ b') :
    ClientOk postlist c wire own b' :=
  { h with
    expects := h.expects.mono (upper_mono hb)
    below := fun v hv => (h.below v hv).trans_le hb }

theorem ClientOk.perm {own' : List Request} (h : ClientOk postlist c wire own b)
    (hperm : own.Perm own') : ClientOk postlist c wire own' b :=
  { h with
    expects := { h.expects with
      assumed_le := fun r hr => h.expects.assumed_le r (hperm.mem_iff.2 hr)
      assumed := fun r hr => h.expects.assumed r (hperm.mem_iff.2 hr) }
    total := hperm.length_eq ▸ h.total }

/-- The client gets the next value, with immediate data if it assumed its upper half. -/
theorem ClientOk.reply {r : Request} (h : ClientOk postlist c wire (r :: own) b) (qp : Nat) :
    ClientOk postlist c (wire ++ [answer qp b r.assumed]) own (b + 1) := by
  have hissued : issued c (wire ++ [answer qp b r.assumed]) = issued c wire ++ [b] := by
    simp [issued, answer]
  have hexpects : Expects (upper b) c (wire ++ [answer qp b r.assumed]) own :=
    { h.expects with
      assumed_le := fun x hx => h.expects.assumed_le x (List.mem_cons_of_mem _ hx)
      assumed := fun x hx => h.expects.assumed x (List.mem_cons_of_mem _ hx)
      secure := h.expects.secure.send rfl fun himm =>
        h.expects.assumed r List.mem_cons_self (of_decide_eq_true himm) }
  refine { h with
    expects := hexpects.mono (upper_mono (Nat.le_succ b)), nodup := ?_, below := ?_, total := ?_ }
  · rw [hissued, List.nodup_append]
    refine ⟨h.nodup, List.nodup_singleton b, fun v hv w hw heq => ?_⟩
    rw [heq, List.mem_singleton.1 hw] at hv
    exact absurd (h.below b hv) (Nat.lt_irrefl b)
  · intro v hv
    rw [hissued] at hv
    rcases List.mem_append.1 hv with hold | hnew
    · exact Nat.lt_succ_of_lt (h.below v hold)
    · rw [List.mem_singleton.1 hnew]
      exact Nat.lt_succ_self b
  · have := h.total
    simp only [List.length_append, List.length_cons, List.length_nil] at this ⊢
    omega

section Receive

variable {cfg : Config} {r : Response} {before after : List Response}

/-- A response arrives, and has overtaken those of `before`. -/
theorem Expects.receive {u : Nat} (h : Expects u c (before ++ r :: after) own)
    (hover : ∀ x ∈ before, MayOvertake (fun r : Response => upper r.value) Response.withImm
      u r x) : Expects u (c.receive cfg r) (before ++ after) own := by
  have hr : r ∈ before ++ r :: after := List.mem_append_right _ List.mem_cons_self
  refine ⟨h.upper_le, h.assumed_le, ?_, ?_, h.secure.arrive hover⟩
  · intro x hx heq
    have hlast := h.assumed x hx heq
    show upperAfter _ (c.cq ++ [r]) = _
    rw [upperAfter, last_append, last, last, next]
    split
    · exact hlast
    · next hs => exact h.secure.flying hlast r hr (by simpa using hs)
  · intro x hx
    rcases List.mem_append.1 hx with hold | hnew
    · exact h.cq_le x hold
    · rw [List.mem_singleton.1 hnew]
      exact h.secure.le r hr

/-- It lands in a line of its own: at most `postlist` are out. -/
theorem ClientOk.landed_receive (h : ClientOk cfg.postlist c (before ++ r :: after) own b)
    {j : Nat} {x : Response} (hj : (c.receive cfg r).cq[j]? = some x) (hs : x.withImm = false) :
    (c.receive cfg r).buf ((c.results.length + j) % cfg.postlist) = x.value := by
  have htotal := h.total
  have hlen := (List.getElem?_eq_some_iff.1 hj).1
  simp only [List.length_append, List.length_cons] at htotal
  simp only [Client.receive, List.length_append, List.length_singleton] at hlen hj ⊢
  rcases Nat.lt_succ_iff_lt_or_eq.1 hlen with hold | hnew
  · rw [List.getElem?_append_left hold] at hj
    have hne : (c.results.length + j) % cfg.postlist ≠ c.arrived % cfg.postlist := by
      rw [h.arrived]
      exact Lib.SlotRing.slot_ne (by omega) (by omega)
    split
    · exact h.landed j x hj hs
    · rw [Function.update_of_ne hne]
      exact h.landed j x hj hs
  · subst hnew
    rw [List.getElem?_concat_length] at hj
    cases hj
    rw [if_neg (by simp [hs]), ← h.arrived, Function.update_self]

theorem ClientOk.receive (h : ClientOk cfg.postlist c (before ++ r :: after) own b)
    (hover : ∀ x ∈ before, MayOvertake (fun r : Response => upper r.value) Response.withImm
      (upper b) r x) :
    ClientOk cfg.postlist (c.receive cfg r) (before ++ after) own b ∧
      (issued (c.receive cfg r) (before ++ after)).Perm (issued c (before ++ r :: after)) := by
  have hissued : (issued (c.receive cfg r) (before ++ after)).Perm
      (issued c (before ++ r :: after)) := by
    refine (List.Perm.map _ ?_).append_left _
    show ((c.cq ++ [r]) ++ (before ++ after)).Perm (c.cq ++ (before ++ r :: after))
    rw [List.append_assoc]
    show (c.cq ++ r :: (before ++ after)).Perm _
    exact List.perm_middle.symm.append_left c.cq
  refine ⟨⟨h.aligned, h.expects.receive hover, hissued.nodup_iff.2 h.nodup,
    fun v hv => h.below v (hissued.mem_iff.1 hv), ?_, ?_, fun j x => h.landed_receive, h.exact⟩,
    hissued⟩
  · have htotal := h.total
    simp only [Client.receive, List.length_append, List.length_cons, List.length_nil] at htotal ⊢
    omega
  · simp only [Client.receive, List.length_append, List.length_singleton, h.arrived]
    omega

end Receive

/-- The lines a client looks at are those the responses landed in. -/
def InLine (postlist : Nat) (c : Client) (n : Nat) : Prop :=
  (∃ r ∈ c.cq.take n, r.withImm = false) → (c.arrived - c.cq.length) % postlist = 0

theorem ClientOk.lines {n : Nat} (h : ClientOk postlist c wire own b) (hn : n ≤ postlist)
    (hline : InLine postlist c n) {j : Nat} {r : Response} (hj : (c.cq.take n)[j]? = some r)
    (hs : r.withImm = false) : c.buf j = r.value := by
  have hzero := hline ⟨r, List.mem_of_getElem? hj, hs⟩
  rw [h.arrived, Nat.add_sub_cancel] at hzero
  have hjn : j < n := by
    have := (List.getElem?_eq_some_iff.1 hj).1
    rw [List.length_take] at this
    omega
  rw [List.getElem?_take_of_lt hjn] at hj
  have hland := h.landed j r hj hs
  rw [Nat.add_mod, hzero, Nat.zero_add, Nat.mod_mod, Nat.mod_eq_of_lt (by omega)] at hland
  exact hland

/-- The client's state after it read the `n` oldest responses: each value as it
was assigned, and the upper half of the last full one. -/
theorem ClientOk.poll_eq {n : Nat} (h : ClientOk postlist c wire own b) (hn : n ≤ postlist)
    (hline : InLine postlist c n) :
    ∃ hi, upper hi = upperAfter (upper c.counterHi) (c.cq.take n) ∧ upper hi <<< 32 = hi ∧
      Secure (upper b) (upper hi) (c.cq.drop n) wire ∧
      c.poll n = { c with
        counterHi := hi
        reqsToSend := n
        cq := c.cq.drop n
        results := c.results ++ (c.cq.take n).map fun r => ⟨r.value, r.value, r.withImm⟩ } := by
  have hsecure := h.expects.secure
  rw [← List.take_append_drop n c.cq] at hsecure
  obtain ⟨hread, hrest⟩ := hsecure.read
  obtain ⟨hi, hupper, halign, hall⟩ := readAll_spec (i := 0) h.aligned hread fun j r hj hs => by
    rw [Nat.zero_add]
    exact h.lines hn hline hj hs
  exact ⟨hi, hupper, halign, hupper ▸ hrest, by rw [Client.poll, hall]⟩

/-- The client reads the `n` oldest responses. -/
theorem ClientOk.poll {n : Nat} (h : ClientOk postlist c wire own b) (h0 : c.reqsToSend = 0)
    (hn : n ≤ postlist) (hlen : n ≤ c.cq.length) (hline : InLine postlist c n) :
    ClientOk postlist (c.poll n) wire own b ∧ issued (c.poll n) wire = issued c wire := by
  have hsplit : c.cq ++ wire = c.cq.take n ++ (c.cq.drop n ++ wire) := by
    rw [← List.append_assoc, List.take_append_drop]
  obtain ⟨hi, hupper, halign, hsecure, hpoll⟩ := h.poll_eq hn hline
  have hissued : issued (c.poll n) wire = issued c wire := by
    rw [hpoll, issued, issued, hsplit]
    simp [Function.comp_def]
  have htotal := h.total
  have harrived := h.arrived
  refine ⟨⟨?_, ⟨?_, h.expects.assumed_le, ?_, ?_, ?_⟩, hissued ▸ h.nodup, hissued ▸ h.below, ?_, ?_,
    ?_, ?_⟩, hissued⟩
  all_goals rw [hpoll]
  · exact halign
  · show upper hi ≤ _
    rw [hupper]
    exact last_le h.expects.upper_le fun r hr => h.expects.cq_le r (List.mem_of_mem_take hr)
  · intro r hr heq
    show upperAfter (upper hi) _ = _
    rw [hupper, upperAfter, ← last_append, List.take_append_drop]
    exact h.expects.assumed r hr heq
  · exact fun r hr => h.expects.cq_le r (List.mem_of_mem_drop hr)
  · exact hsecure
  · simp only [List.length_drop]
    omega
  · simp only [List.length_append, List.length_map, List.length_take, List.length_drop]
    omega
  · intro j r hj hs
    simp only [List.length_append, List.length_map, List.length_take] at hj ⊢
    rw [List.getElem?_drop] at hj
    have hland := h.landed (n + j) r hj hs
    rwa [Nat.min_eq_left hlen, Nat.add_assoc]
  · intro x hx
    rcases List.mem_append.1 hx with hold | hnew
    · exact h.exact x hold
    · obtain ⟨r, -, rfl⟩ := List.mem_map.1 hnew
      rfl

end Steps

/-! ## Steps of the system -/

variable {postlist b : Nat} {client : Nat → Client} {wire : Nat → List Response}
  {pending : List Request}

/-- One client changes, and no value is assigned. -/
theorem Orderly.update (h : Orderly postlist client wire pending b) {cn : Nat} {c : Client}
    {w : List Response} {pending' : List Request}
    (hok : ClientOk postlist c w (pending'.filter (·.client = cn)) b)
    (hissued : (issued c w).Perm (issued (client cn) (wire cn)))
    (hother : ∀ cn', cn' ≠ cn →
      pending'.filter (·.client = cn') = pending.filter (·.client = cn')) :
    Orderly postlist (Function.update client cn c) (Function.update wire cn w) pending' b := by
  have hall : ∀ cn' v,
      v ∈ issued (Function.update client cn c cn') (Function.update wire cn w cn') ↔
        v ∈ issued (client cn') (wire cn') := by
    intro cn' v
    by_cases heq : cn' = cn
    · subst heq
      rw [Function.update_self, Function.update_self, hissued.mem_iff]
    · rw [Function.update_of_ne heq, Function.update_of_ne heq]
  refine ⟨fun cn' => ?_, fun cn1 cn2 hne v hv => ?_⟩
  · by_cases heq : cn' = cn
    · subst heq
      rw [Function.update_self, Function.update_self]
      exact hok
    · rw [Function.update_of_ne heq, Function.update_of_ne heq, hother cn' heq]
      exact h.each cn'
  · rw [hall] at hv ⊢
    exact h.apart cn1 cn2 hne v hv

/-- The oldest pending request gets the next value. -/
theorem Orderly.reply {r : Request} (h : Orderly postlist client wire (r :: pending) b) (qp : Nat) :
    Orderly postlist client
      (Function.update wire r.client (wire r.client ++ [answer qp b r.assumed])) pending
      (b + 1) := by
  have hnew : ∀ v ∈ issued (client r.client) (wire r.client ++ [answer qp b r.assumed]),
      v ∈ issued (client r.client) (wire r.client) ∨ v = b := by
    intro v hv
    simpa [issued, answer, or_assoc] using hv
  refine ⟨fun cn => ?_, fun cn cn' hne v hv hv' => ?_⟩
  · have hok := h.each cn
    by_cases heq : cn = r.client
    · subst heq
      rw [List.filter_cons_of_pos (by simp)] at hok
      rw [Function.update_self]
      exact hok.reply qp
    · rw [List.filter_cons_of_neg (by simpa using Ne.symm heq)] at hok
      rw [Function.update_of_ne heq]
      exact hok.mono (Nat.le_succ b)
  · by_cases heq : cn = r.client
    · subst heq
      rw [Function.update_self] at hv
      rw [Function.update_of_ne hne.symm] at hv'
      rcases hnew v hv with hold | rfl
      · exact h.apart _ _ hne v hold hv'
      · exact absurd ((h.each cn').below v hv') (Nat.lt_irrefl v)
    · rw [Function.update_of_ne heq] at hv
      by_cases heq' : cn' = r.client
      · subst heq'
        rw [Function.update_self] at hv'
        rcases hnew v hv' with hold | rfl
        · exact h.apart _ _ hne v hv hold
        · exact absurd ((h.each cn).below v hv) (Nat.lt_irrefl v)
      · rw [Function.update_of_ne heq'] at hv'
        exact h.apart _ _ hne v hv hv'

/-- A batch is answered as its requests one after the other. -/
theorem Orderly.replies {batch rest : List Request} (qp : Nat)
    (h : Orderly postlist client wire (batch ++ rest) b) (hb : b + batch.length < 2 ^ 64) :
    Orderly postlist client (fun cn => wire cn ++ repliesTo cn qp b batch) rest
      (b + batch.length) := by
  induction batch generalizing wire b with
  | nil => simpa [repliesTo] using h
  | cons r rs ih =>
    rw [List.length_cons] at hb
    have hall := ih (h.reply qp) (by omega)
    have hwire : (fun cn => Function.update wire r.client
        (wire r.client ++ [answer qp b r.assumed]) cn ++ repliesTo cn qp (b + 1) rs) =
        fun cn => wire cn ++ repliesTo cn qp b (r :: rs) := by
      funext cn
      have hmod : b % 2 ^ 64 = b := Nat.mod_eq_of_lt (by omega)
      by_cases heq : cn = r.client
      · subst heq
        rw [Function.update_self, repliesTo, if_pos rfl, hmod, List.append_assoc]
        rfl
      · simp [repliesTo, heq, Ne.symm heq]
    rw [hwire] at hall
    rw [List.length_cons, Nat.add_comm rs.length, ← Nat.add_assoc]
    exact hall

/-! ## Runs without harmful overtaking -/

/-- A full response overtakes one with a smaller upper half: one with immediate data, or
a full one while the counter still has the upper half that the client gets to see. -/
def Overtakes (counter : Nat) (r x : Response) : Prop :=
  r.withImm = false ∧ upper x.value < upper r.value ∧
    (x.withImm = true ∨ upper r.value = upper counter)

instance (counter : Nat) (r x : Response) : Decidable (Overtakes counter r x) :=
  inferInstanceAs (Decidable (_ ∧ _ ∧ (_ ∨ _)))

/-- The counter does not wrap, a response that arrives overtakes none that it must not,
and a poll with a full response starts at line 0. -/
def Undisturbed (cfg : Config) (s : State) : Event → Prop
  | .send _ => True
  | .serve _ batch _ => s.counter + batch.length < 2 ^ 64
  | .arrive cn k => ∀ r ∈ (s.wire cn)[k]?, ∀ x ∈ (s.wire cn).take k, ¬ Overtakes s.counter r x
  | .poll cn n => InLine cfg.postlist (s.client cn) n

instance (cfg : Config) (s : State) (cn k : Nat) : Decidable (Undisturbed cfg s (.arrive cn k)) :=
  inferInstanceAs (Decidable (∀ r ∈ (s.wire cn)[k]?, _))

/-- Responses to a client are in flight in the order of their values. -/
theorem ClientOk.mayOvertake {c : Client} {own : List Request} {r x : Response}
    {before after : List Response} (h : ClientOk postlist c (before ++ r :: after) own b)
    (hx : x ∈ before) (hno : ¬ Overtakes b r x) :
    MayOvertake (fun r : Response => upper r.value) Response.withImm (upper b) r x := by
  intro hfull
  have hle : upper x.value ≤ upper r.value :=
    (List.pairwise_append.1 h.expects.secure.mono).2.2 x hx r List.mem_cons_self
  rcases hle.eq_or_lt with heq | hlt
  · exact .inl heq
  · right
    constructor
    · by_contra himm
      exact hno ⟨hfull, hlt, .inl (by simpa using himm)⟩
    · exact fun heq => hno ⟨hfull, hlt, .inr heq⟩

theorem step_orderly {cfg : Config} {s t : State} {e : Event}
    (h : Orderly cfg.postlist s.client s.wire s.pending s.counter) (hc : Undisturbed cfg s e)
    (hstep : Step cfg s e t) : Orderly cfg.postlist t.client t.wire t.pending t.counter := by
  cases e with
  | send cn =>
    obtain ⟨-, rfl⟩ := hstep
    have hown : (s.send cn).pending.filter (·.client = cn) =
        s.pending.filter (·.client = cn) ++
          List.replicate (s.client cn).reqsToSend ⟨cn, upper (s.client cn).counterHi⟩ := by
      simp [State.send, upper]
    have hok := (h.each cn).send cn
    rw [← hown] at hok
    have hall := h.update hok (.refl _) fun cn' hne => by simp [State.send, Ne.symm hne]
    rwa [Function.update_eq_self] at hall
  | serve thread batch rest =>
    obtain ⟨-, -, hperm, rfl⟩ := hstep
    have hpend : Orderly cfg.postlist s.client s.wire (batch ++ rest) s.counter :=
      ⟨fun cn => (h.each cn).perm (hperm.filter _), h.apart⟩
    have hcounter : (s.counter + batch.length) % 2 ^ 64 = s.counter + batch.length :=
      Nat.mod_eq_of_lt hc
    simp only [State.serve]
    rw [hcounter]
    exact hpend.replies _ hc
  | arrive cn k =>
    obtain ⟨r, hr, rfl⟩ := hstep
    obtain ⟨hk, hget⟩ := List.getElem?_eq_some_iff.1 hr
    have hwire : s.wire cn = (s.wire cn).take k ++ r :: (s.wire cn).drop (k + 1) := by
      rw [← hget, ← List.drop_eq_getElem_cons hk, List.take_append_drop]
    have hok := h.each cn
    rw [hwire] at hok
    obtain ⟨hok', hissued⟩ := hok.receive fun x hx => hok.mayOvertake hx (hc r hr x hx)
    rw [← hwire] at hissued
    rw [List.eraseIdx_eq_take_drop_succ]
    exact h.update hok' hissued fun _ _ => rfl
  | poll cn n =>
    obtain ⟨h0, hn, hlen, rfl⟩ := hstep
    obtain ⟨hok, hissued⟩ := (h.each cn).poll h0 hn.2 hlen hc
    have hall := h.update (w := s.wire cn) hok (hissued ▸ .refl _) fun _ _ => rfl
    rwa [Function.update_eq_self] at hall

theorem reachable_orderly {cfg : Config} {counter : Nat} {s : State}
    (h : Reachable (sequencerWhere (Undisturbed cfg) cfg counter) s) :
    Orderly cfg.postlist s.client s.wire s.pending s.counter := by
  refine h.invariant
    (P := fun s => Orderly cfg.postlist s.client s.wire s.pending s.counter) ?_ ?_
  · intro s hs
    rw [show s = _ from hs]
    exact start_orderly cfg counter
  · intro s e t _ ih hboth
    obtain ⟨hc, hstep⟩ := hboth
    exact step_orderly ih hc hstep

/-- In an orderly state, results at different places have different values. -/
theorem Orderly.distinct (h : Orderly postlist client wire pending b) {cn cn' i j : Nat}
    {x y : Result} (hx : (client cn).results[i]? = some x) (hy : (client cn').results[j]? = some y)
    (heq : x.respCounter = y.respCounter) : cn = cn' ∧ i = j := by
  have hxy : x.assigned = y.assigned := by
    rw [← (h.each cn).exact x (List.mem_of_getElem? hx), heq,
      (h.each cn').exact y (List.mem_of_getElem? hy)]
  have hmem : ∀ {c : Nat} {k : Nat} {z : Result}, (client c).results[k]? = some z →
      (issued (client c) (wire c))[k]? = some z.assigned := by
    intro c k z hz
    have hlen := (List.getElem?_eq_some_iff.1 hz).1
    rw [issued, List.getElem?_append_left (by simpa using hlen), List.getElem?_map, hz]
    rfl
  have hcn : cn = cn' := by
    by_contra hne
    exact h.apart cn cn' hne _ (List.mem_of_getElem? (hmem hx))
      (hxy ▸ List.mem_of_getElem? (hmem hy))
  subst hcn
  refine ⟨rfl, ?_⟩
  have hnodup := (h.each cn).nodup
  have hi := hmem hx
  have hj := hmem hy
  rw [← hxy] at hj
  exact (List.getElem?_inj (List.getElem?_eq_some_iff.1 hi).1 hnodup).1 (hi.trans hj.symm)

/-! ## What overtaking does -/

/-- A client that has read all its responses can read one of those in flight next. -/
theorem read_one {cfg : Config} {counter : Nat} {s0 s : State} {l : List (State × Event)}
    (h : Trace (sequencer cfg counter) s0 l s) {cn k : Nat} {r : Response}
    (hpost : 0 < cfg.postlist) (hcq : (s.client cn).cq = []) (hr : (s.wire cn)[k]? = some r) :
    ∃ l' t, Trace (sequencer cfg counter) s0 l' t ∧ t.wire cn = (s.wire cn).eraseIdx k ∧
      (t.client cn).cq = [] ∧
      (t.client cn).counterHi = (((s.client cn).receive cfg r).read 0 r).counterHi ∧
      (t.client cn).results = (((s.client cn).receive cfg r).read 0 r).results := by
  -- the requests that the client has to send first
  obtain ⟨l1, s1, hs1, hwire, hclient⟩ : ∃ l1 s1, Trace (sequencer cfg counter) s0 l1 s1 ∧
      s1.wire = s.wire ∧ s1.client cn = { s.client cn with reqsToSend := 0 } := by
    by_cases hsend : 0 < (s.client cn).reqsToSend
    · exact ⟨_, s.send cn, Trace.snoc (e := Event.send cn) h ⟨trivial, hsend, rfl⟩, rfl,
        Function.update_self ..⟩
    · refine ⟨l, s, h, rfl, ?_⟩
      rw [← Nat.eq_zero_of_not_pos hsend]
  rw [← hwire] at hr
  have harrive : Trace (sequencer cfg counter) s0 _ _ :=
    Trace.snoc (e := Event.arrive cn k) hs1 ⟨trivial, r, hr, rfl⟩
  have hpoll : Trace (sequencer cfg counter) s0 _ _ :=
    Trace.snoc (e := Event.poll cn 1) harrive ⟨trivial, by simp [hclient, Client.receive],
      ⟨Nat.one_pos, hpost⟩, by simp [Client.receive], rfl⟩
  refine ⟨_, _, hpoll, by simp [hwire], ?_⟩
  cases hs : r.withImm with
  | true => simp [hclient, hcq, hs, Client.poll, Client.receive, Client.readAll, Client.read]
  | false => simp [hclient, hcq, hs, Client.poll, Client.receive, Client.readAll, Client.read]

/-- A client that has the upper half of a full response misreads one with immediate data
and another upper half. -/
theorem read_overtaken {cfg : Config} {counter : Nat} {s0 s : State} {l : List (State × Event)}
    (h : Trace (sequencer cfg counter) s0 l s) {cn i k : Nat} {x r : Response} (hik : i < k)
    (hpost : 0 < cfg.postlist) (hcq : (s.client cn).cq = [])
    (hline : (s.client cn).arrived % cfg.postlist = 0) (hx : (s.wire cn)[i]? = some x)
    (hr : (s.wire cn)[k]? = some r) (himm : x.withImm = true) (hfull : r.withImm = false)
    (hne : upper x.value ≠ upper r.value) :
    ∃ l' t, Trace (sequencer cfg counter) s0 l' t ∧ ∃ y ∈ (t.client cn).results,
      y.withImm = true ∧ y.assigned = x.value ∧ y.respCounter ≠ x.value := by
  obtain ⟨l1, s1, h1, hwire, hcq1, hhi, -⟩ := read_one h hpost hcq hr
  have hx1 : (s1.wire cn)[i]? = some x := by
    rw [hwire, List.getElem?_eraseIdx_of_lt hik, hx]
  obtain ⟨l2, t, h2, -, -, -, hresults⟩ := read_one h1 hpost hcq1 hx1
  refine ⟨l2, t, h2, ⟨x.value, (s1.client cn).counterHi + x.immData, true⟩, ?_, rfl, rfl, ?_⟩
  · rw [hresults]
    simp [Client.read, Client.receive, himm]
  · have hhi' : (s1.client cn).counterHi = upper r.value <<< 32 := by
      rw [hhi]
      simp [Client.read, Client.receive, hfull, hline, upper]
    intro heq
    rw [hhi', ← upper_add_imm x] at heq
    have hupper := Nat.add_right_cancel heq
    exact hne ((upper_shiftLeft _).symm.trans ((congrArg upper hupper.symm).trans
      (upper_shiftLeft _)))

/-- As long as the counter does not wrap, full responses are read from the line they landed
in and overtake none that they must not, each value rebuilt from immediate data is the one
that was assigned, and no two requests get the same value. A response with immediate data
that can be overtaken can be misread: the client reads the full one from line 0, and then
it. -/
theorem undisturbed_rebuilds {cfg : Config} {counter : Nat} {s : State}
    (h : Reachable (sequencerWhere (Undisturbed cfg) cfg counter) s) :
    (∀ cn, ∀ x ∈ (s.client cn).results, x.withImm = true → x.respCounter = x.assigned) ∧
    (∀ (cn cn' i j : Nat) (x y : Result), (s.client cn).results[i]? = some x →
      (s.client cn').results[j]? = some y → x.respCounter = y.respCounter → cn = cn' ∧ i = j) ∧
    ∀ (cn i k : Nat) (x r : Response), i < k → (s.wire cn)[i]? = some x →
      (s.wire cn)[k]? = some r → x.withImm = true → Overtakes s.counter r x →
      (s.client cn).cq = [] → (s.client cn).arrived % cfg.postlist = 0 →
      ∃ l t, Trace (sequencer cfg counter) s l t ∧ ∃ y ∈ (t.client cn).results,
        y.withImm = true ∧ y.assigned = x.value ∧ y.respCounter ≠ x.value := by
  have hord := reachable_orderly h
  refine ⟨fun cn x hx _ => (hord.each cn).exact x hx,
    fun _ _ _ _ _ _ hx hy heq => hord.distinct hx hy heq, ?_⟩
  intro cn i k x r hik hx hr himm hover hcq hline
  have htotal := (hord.each cn).total
  have hlen := (List.getElem?_eq_some_iff.1 hx).1
  exact read_overtaken .nil hik (by omega) hcq hline hx hr himm hover.1 hover.2.1.ne

/-! ## At the end of the first half -/

/-- Ten server threads, three queue pairs and two requests at a time. -/
def twoAtATime : Config := ⟨10, 3, 2, 2⟩

/-- The counter is about to reach `2 ^ 32`. A server thread has answered the two
requests of client 0 in two batches, with immediate data on queue pair 0 and
with the whole value on queue pair 1. -/
def twoAnswers : State :=
  ((State.start twoAtATime (2 ^ 32 - 1)).send 0).serve twoAtATime 0 [⟨0, 0⟩] [⟨0, 0⟩]
    |>.serve twoAtATime 0 [⟨0, 0⟩] []

theorem twoAnswers_reachable :
    Reachable (sequencerWhere (Undisturbed twoAtATime) twoAtATime (2 ^ 32 - 1)) twoAnswers := by
  have h1 : Reachable (sequencerWhere (Undisturbed twoAtATime) twoAtATime (2 ^ 32 - 1)) _ :=
    .step (e := .send 0) (.init rfl) ⟨trivial, by decide, rfl⟩
  have h2 : Reachable (sequencerWhere (Undisturbed twoAtATime) twoAtATime (2 ^ 32 - 1)) _ :=
    .step (e := .serve 0 [⟨0, 0⟩] [⟨0, 0⟩]) h1
      ⟨(by decide : 2 ^ 32 - 1 + 1 < 2 ^ 64), by decide, by decide, .refl _, rfl⟩
  exact .step (e := .serve 0 [⟨0, 0⟩] []) h2
    ⟨(by decide : 2 ^ 32 + 1 < 2 ^ 64), by decide, by decide, .refl _, rfl⟩

/-- Three requests, of which the last one gets the whole value. -/
def threeAtATime : Config := ⟨10, 3, 3, 3⟩

def threeAnswers : State :=
  ((State.start threeAtATime (2 ^ 32 - 2)).send 0).serve threeAtATime 0
    [⟨0, 0⟩, ⟨0, 0⟩, ⟨0, 0⟩] []

/-- The second response overtakes the first one. The client reads all values. -/
theorem undisturbed_rebuilds_overtaken : ∃ s : State,
    (s.client 0).results = [⟨2 ^ 32 - 1, 2 ^ 32 - 1, true⟩, ⟨2 ^ 32 - 2, 2 ^ 32 - 2, true⟩,
      ⟨2 ^ 32, 2 ^ 32, false⟩] ∧
    ∀ x ∈ (s.client 0).results, x.withImm = true → x.respCounter = x.assigned := by
  have h1 : Reachable (sequencerWhere (Undisturbed threeAtATime) threeAtATime (2 ^ 32 - 2)) _ :=
    .step (e := .send 0) (.init rfl) ⟨trivial, by decide, rfl⟩
  have h2 : Reachable (sequencerWhere (Undisturbed threeAtATime) threeAtATime (2 ^ 32 - 2))
      threeAnswers :=
    .step (e := .serve 0 [⟨0, 0⟩, ⟨0, 0⟩, ⟨0, 0⟩] []) h1
      ⟨(by decide : 2 ^ 32 - 2 + 3 < 2 ^ 64), by decide, by decide, .refl _, rfl⟩
  have h3 : Reachable (sequencerWhere (Undisturbed threeAtATime) threeAtATime (2 ^ 32 - 2)) _ :=
    .step (e := .arrive 0 1) h2 ⟨by decide, ⟨2 ^ 32 - 1, true, 0⟩, by decide, rfl⟩
  have h4 : Reachable (sequencerWhere (Undisturbed threeAtATime) threeAtATime (2 ^ 32 - 2)) _ :=
    .step (e := .arrive 0 0) h3 ⟨by decide, ⟨2 ^ 32 - 2, true, 0⟩, by decide, rfl⟩
  have h5 : Reachable (sequencerWhere (Undisturbed threeAtATime) threeAtATime (2 ^ 32 - 2)) _ :=
    .step (e := .arrive 0 0) h4 ⟨by decide, ⟨2 ^ 32, false, 0⟩, by decide, rfl⟩
  have h6 : Reachable (sequencerWhere (Undisturbed threeAtATime) threeAtATime (2 ^ 32 - 2)) _ :=
    .step (e := .poll 0 3) h5 ⟨fun _ => by decide, by decide, by decide, by decide, rfl⟩
  exact ⟨_, by decide, (undisturbed_rebuilds h6).1 0⟩

/-- The whole value overtakes the other response. The client then adds the lower
half of `2 ^ 32 - 1` to the upper half of `2 ^ 32`. -/
theorem overtaken_response_misread :
    ∃ s : State, Reachable (sequencer twoAtATime (2 ^ 32 - 1)) s ∧
      (s.client 0).results = [⟨2 ^ 32, 2 ^ 32, false⟩, ⟨2 ^ 32 - 1, 2 ^ 33 - 1, true⟩] := by
  have h0 := twoAnswers_reachable.mono (T := sequencer twoAtATime (2 ^ 32 - 1))
    (fun _ hs => hs) fun _ _ _ hs => ⟨trivial, hs.2⟩
  have h1 : Reachable (sequencer twoAtATime (2 ^ 32 - 1)) _ :=
    .step (e := .arrive 0 1) h0 ⟨trivial, ⟨2 ^ 32, false, 1⟩, by decide, rfl⟩
  have h2 : Reachable (sequencer twoAtATime (2 ^ 32 - 1)) _ :=
    .step (e := .poll 0 1) h1 ⟨trivial, by decide, by decide, by decide, rfl⟩
  have h3 : Reachable (sequencer twoAtATime (2 ^ 32 - 1)) _ :=
    .step (e := .send 0) h2 ⟨trivial, by decide, rfl⟩
  have h4 : Reachable (sequencer twoAtATime (2 ^ 32 - 1)) _ :=
    .step (e := .arrive 0 0) h3 ⟨trivial, ⟨2 ^ 32 - 1, true, 0⟩, by decide, rfl⟩
  have h5 : Reachable (sequencer twoAtATime (2 ^ 32 - 1)) _ :=
    .step (e := .poll 0 1) h4 ⟨trivial, by decide, by decide, by decide, rfl⟩
  exact ⟨_, h5, by decide⟩

end RdmaBench.Sequencer.Reconstruct
