import RdmaBench.Herd.Protocol

/-! # The cache that HERD is

For each worker there is a map from keys to values. Requests wait until the worker
serves them, those of one client in the order they were sent. A PUT is acknowledged with
an empty response and a GET is answered with the value of its key, or with an empty
response as well: HERD may forget what it has stored. A worker serves the requests of a
batch, which are from different clients, one after the other in some order. -/

namespace RdmaBench.Herd.Cache
open RdmaBench.Lib.Runs RdmaBench.Mica.Model RdmaBench.Herd.Protocol

/-- Values by keys. -/
abbrev Values := MicaKey → Option (List UInt8)

variable {W : Nat}

structure Contents (W : Nat) where
  pending : Nat → Fin W → List HerdReq
  store : Fin W → Values

/-- The values after a request. -/
def applyReq (m : Values) : HerdReq → Values
  | .get _ => m
  | .put key value => Function.update m key (some ((List.range herdValueSize).map value))

/-- A response that the request may get. -/
def Allowed (m : Values) (answer : List UInt8) : HerdReq → Prop
  | .get key => answer = [] ∨ m key = some answer
  | .put _ _ => answer = []

/-- The request of client `cn` is served. -/
def Contents.pop (t : Contents W) (wn : Fin W) (cn : Nat) (r : HerdReq) : Contents W where
  pending := Function.update t.pending cn
    (Function.update (t.pending cn) wn (t.pending cn wn).tail)
  store := Function.update t.store wn (applyReq (t.store wn) r)

/-- Worker `wn` serves requests one after the other, the oldest of each client. -/
inductive Serves (wn : Fin W) : Contents W → List (Nat × List UInt8) → Contents W → Prop where
  | nil {t : Contents W} : Serves wn t [] t
  | cons {t u : Contents W} {cn : Nat} {answer : List UInt8} {r : HerdReq} {rest : List HerdReq}
    {l : List (Nat × List UInt8)} : t.pending cn wn = r :: rest →
    Allowed (t.store wn) answer r → Serves wn (t.pop wn cn r) l u →
    Serves wn t ((cn, answer) :: l) u

inductive Label (W : Nat) where
  | quiet
  | send (cn : Nat) (wn : Fin W) (r : HerdReq)
  | replies (wn : Fin W) (answers : List (Nat × List UInt8))

/-- The cache, filled at first with the same values for each worker. -/
def cache (W : Nat) (filled : Values) : System (Contents W) (Label W) where
  init t := t = ⟨fun _ _ => [], fun _ => filled⟩
  step t l u := match l with
    | .quiet => u = t
    | .send cn wn r => u = { t with
        pending := Function.update t.pending cn
          (Function.update (t.pending cn) wn (t.pending cn wn ++ [r])) }
    | .replies wn answers => (answers.map Prod.fst).Nodup ∧
        ∃ order, order.Perm answers ∧ Serves wn t order u

/-! ## Serving a batch -/

/-- A request of a batch, with its client and its response. -/
structure Item where
  cn : Nat
  req : HerdReq
  answer : List UInt8

def Item.reply (x : Item) : Nat × List UInt8 := (x.cn, x.answer)

def Item.isPut (x : Item) : Bool := match x.req with
  | .get _ => false
  | .put _ _ => true

/-- The values after the requests of a batch. -/
def applyAll (m : Values) (l : List Item) : Values := l.foldl (fun m x => applyReq m x.req) m

/-- The cache after a batch. -/
def Contents.popAll (t : Contents W) (wn : Fin W) (l : List Item) : Contents W :=
  l.foldl (fun t x => t.pop wn x.cn x.req) t

/-- Every response is allowed in its turn. -/
def AllowedAll (m : Values) : List Item → Prop
  | [] => True
  | x :: l => Allowed m x.answer x.req ∧ AllowedAll (applyReq m x.req) l

variable {t : Contents W} {wn : Fin W} {l : List Item} {m : Values}

theorem pop_pending_other {cn c : Nat} {r : HerdReq} (h : c ≠ cn) :
    (t.pop wn cn r).pending c = t.pending c := Function.update_of_ne h ..

theorem pop_store {cn : Nat} {r : HerdReq} : (t.pop wn cn r).store wn = applyReq (t.store wn) r :=
  Function.update_self ..

/-- Requests of different clients, each the oldest, can be served in the given order. -/
theorem serves_popAll (hnodup : (l.map Item.cn).Nodup)
    (hpend : ∀ x ∈ l, ∃ rest, t.pending x.cn wn = x.req :: rest)
    (hall : AllowedAll (t.store wn) l) : Serves wn t (l.map Item.reply) (t.popAll wn l) := by
  induction l generalizing t with
  | nil => exact .nil
  | cons x l ih =>
    obtain ⟨hx, hall⟩ := hall
    rw [List.map_cons, List.nodup_cons] at hnodup
    obtain ⟨rest, hrest⟩ := hpend x List.mem_cons_self
    refine .cons hrest hx (ih hnodup.2 (fun y hy => ?_) (by rwa [pop_store]))
    have hne : y.cn ≠ x.cn := fun heq => hnodup.1 (heq ▸ List.mem_map_of_mem hy)
    rw [pop_pending_other hne]
    exact hpend y (List.mem_cons_of_mem _ hy)

theorem popAll_store : (t.popAll wn l).store wn = applyAll (t.store wn) l := by
  induction l generalizing t with
  | nil => rfl
  | cons x l ih =>
    show ((t.pop wn x.cn x.req).popAll wn l).store wn = _
    rw [ih, pop_store]
    rfl

theorem popAll_store_other {v : Fin W} (h : v ≠ wn) : (t.popAll wn l).store v = t.store v := by
  induction l generalizing t with
  | nil => rfl
  | cons x l ih =>
    show ((t.pop wn x.cn x.req).popAll wn l).store v = _
    rw [ih]
    exact Function.update_of_ne h ..

/-- Each client of the batch has one request less. -/
theorem popAll_pending (hnodup : (l.map Item.cn).Nodup) (c : Nat) (v : Fin W) :
    (t.popAll wn l).pending c v =
      if v = wn ∧ c ∈ l.map Item.cn then (t.pending c v).tail else t.pending c v := by
  induction l generalizing t with
  | nil => simp [Contents.popAll]
  | cons x l ih =>
    rw [List.map_cons, List.nodup_cons] at hnodup
    show ((t.pop wn x.cn x.req).popAll wn l).pending c v = _
    rw [ih hnodup.2]
    simp only [List.map_cons, List.mem_cons]
    by_cases hc : c = x.cn
    · subst hc
      rw [if_neg fun h => hnodup.1 h.2]
      by_cases hv : v = wn
      · subst hv
        simp [Contents.pop]
      · simp [Contents.pop, hv]
    · rw [pop_pending_other hc]
      simp [hc]

/-! ## PUTs first -/

theorem applyReq_of_get {x : Item} (h : x.isPut = false) : applyReq m x.req = m := by
  obtain ⟨cn, r, a⟩ := x
  cases r with
  | get key => rfl
  | put key value => cases h

/-- Only PUTs change the values. -/
theorem applyAll_filter : applyAll m (l.filter Item.isPut) = applyAll m l := by
  induction l generalizing m with
  | nil => rfl
  | cons x l ih =>
    cases hx : x.isPut with
    | true =>
      rw [List.filter_cons_of_pos hx]
      exact ih
    | false =>
      rw [List.filter_cons_of_neg (by rw [hx]; simp)]
      show _ = applyAll (applyReq m x.req) l
      rw [applyReq_of_get hx]
      exact ih

theorem applyAll_gets (h : ∀ x ∈ l, x.isPut = false) : applyAll m l = m := by
  rw [← applyAll_filter, List.filter_eq_nil_iff.mpr fun x hx => by rw [h x hx]; simp]
  rfl

theorem allowedAll_puts {l' : List Item} (h : ∀ x ∈ l, x.isPut = true ∧ x.answer = [])
    (hrest : AllowedAll (applyAll m l) l') : AllowedAll m (l ++ l') := by
  induction l generalizing m with
  | nil => exact hrest
  | cons x l ih =>
    obtain ⟨hput, hans⟩ := h x List.mem_cons_self
    refine ⟨?_, ih (fun y hy => h y (List.mem_cons_of_mem _ hy)) hrest⟩
    obtain ⟨cn, r, a⟩ := x
    cases r with
    | get key => cases hput
    | put key value => exact hans

theorem allowedAll_gets (h : ∀ x ∈ l, x.isPut = false ∧ Allowed m x.answer x.req) :
    AllowedAll m l := by
  induction l with
  | nil => trivial
  | cons x l ih =>
    obtain ⟨hget, hx⟩ := h x List.mem_cons_self
    refine ⟨hx, ?_⟩
    rw [applyReq_of_get hget]
    exact ih fun y hy => h y (List.mem_cons_of_mem _ hy)

/-- A batch is served if its PUTs are acknowledged, and its GETs answered with the values
after all of its PUTs. -/
theorem serves_batch (hnodup : (l.map Item.cn).Nodup)
    (hpend : ∀ x ∈ l, ∃ rest, t.pending x.cn wn = x.req :: rest)
    (hall : ∀ x ∈ l, Allowed (applyAll (t.store wn) l) x.answer x.req) :
    ∃ order u, order.Perm (l.map Item.reply) ∧ Serves wn t order u ∧
      u.store wn = applyAll (t.store wn) l ∧ (∀ v, v ≠ wn → u.store v = t.store v) ∧
      ∀ c v, u.pending c v =
        if v = wn ∧ c ∈ l.map Item.cn then (t.pending c v).tail else t.pending c v := by
  have hperm := List.filter_append_perm Item.isPut l
  have hgets : ∀ x ∈ l.filter fun x => !x.isPut, x.isPut = false := by
    intro x hx
    simpa using (List.mem_filter.mp hx).2
  have hnodup' := (hperm.map Item.cn).nodup_iff.mpr hnodup
  refine ⟨_, _, hperm.map Item.reply, serves_popAll hnodup' (fun x hx => ?_) ?_, ?_,
    fun v hv => popAll_store_other hv, fun c v => ?_⟩
  · exact hpend x (hperm.subset hx)
  · refine allowedAll_puts (fun x hx => ?_) (allowedAll_gets fun x hx => ?_)
    · obtain ⟨hx, hput⟩ := List.mem_filter.mp hx
      refine ⟨hput, ?_⟩
      have hx := hall x hx
      obtain ⟨cn, r, a⟩ := x
      cases r with
      | get key => cases hput
      | put key value => exact hx
    · rw [applyAll_filter]
      exact ⟨hgets x hx, hall x (List.mem_filter.mp hx).1⟩
  · rw [popAll_store]
    show List.foldl _ _ _ = _
    rw [List.foldl_append]
    show applyAll (applyAll _ _) _ = _
    rw [applyAll_gets hgets, applyAll_filter]
  · rw [popAll_pending hnodup']
    simp only [(hperm.map Item.cn).mem_iff]

end RdmaBench.Herd.Cache
