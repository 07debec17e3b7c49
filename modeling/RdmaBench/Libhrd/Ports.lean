import RdmaBench.Lib.Asserts
import RdmaBench.Lib.Rank

/-! # Resolving a port index

`hrd_resolve_port_index` of `libhrd/hrd_util.c` and `libhrd_cpp/hrd_util.cc`. Both
walk over the devices and over the ports of each one, count down at every port
that is enabled, and stop at the port where nothing is left to count. They differ
in the type of the index and in what they do with the port. -/

namespace RdmaBench.Libhrd.Ports
open RdmaBench.Lib.Asserts RdmaBench.Lib.Rank

/-! ## Devices -/

inductive LinkLayer where
  | unspecified
  | infiniband
  | ethernet
deriving DecidableEq, Repr

/-- The fields of `ibv_port_attr` that are read. -/
structure PortAttr where
  physState : UInt8
  linkLayer : LinkLayer
  lid : UInt16
deriving DecidableEq, Repr

def ibvPortActive : UInt8 := 4

def ibvPortActiveDefer : UInt8 := 5

/-- The physical state is compared with values of the logical one. -/
def PortAttr.enabled (attr : PortAttr) : Bool :=
  !(attr.physState != ibvPortActive && attr.physState != ibvPortActiveDefer)

structure Gid where
  subnetPrefix : UInt64
  interfaceId : UInt64
deriving DecidableEq, Repr

/-- What the verbs calls on a device do. `none` and `false` are their failures, and
`queryDevice` gives `phys_port_cnt`. -/
structure Device where
  opens : Bool
  queryDevice : Option UInt8
  queryPort : UInt8 → Option PortAttr
  queryGid : UInt8 → Nat → Option Gid
  closes : Bool

inductive Failure where
  | negativeIndex
  | deviceList
  | openDevice (devI : Nat)
  | queryDevice (devI : Nat)
  | queryPort (devI : Nat) (portI : UInt8)
  | closeDevice (devI : Nat)
  | linkLayer (required actual : LinkLayer)
  | queryGid
  | contextLeft
  | unresolved
  -- the loop over the ports has not ended within the fuel
  | endless
deriving DecidableEq, Repr

/-! ## The loops -/

/-- How a loop is left before its end. -/
inductive Exit (R : Type) where
  | failed (why : Failure)
  | returned (r : R)

section
variable {R : Type}

def Exit.ofResult : Except Failure R → Exit R
  | .ok r => .returned r
  | .error why => .failed why

def stop {α : Type} (why : Failure) : Except (Exit R) α := .error (.failed why)

/-- `for (uint8_t port_i = 1; port_i <= phys_port_cnt; port_i++)`. At the port that
was looked for, `found` says what is returned. -/
def portLoop (found : UInt8 → PortAttr → Except Failure R)
    (queryPort : UInt8 → Option PortAttr) (devI : Nat) (physPortCnt : UInt8) :
    Nat → UInt8 → Int32 → Except (Exit R) Int32
  | 0, _, _ => stop .endless
  | fuel + 1, portI, portsToDiscover =>
    if portI ≤ physPortCnt then
      match queryPort portI with
      | none => stop (.queryPort devI portI)
      | some attr =>
        if attr.enabled then
          if portsToDiscover = 0 then
            .error (.ofResult (found portI attr))
          else
            portLoop found queryPort devI physPortCnt fuel (portI + 1) (portsToDiscover - 1)
        else
          portLoop found queryPort devI physPortCnt fuel (portI + 1) portsToDiscover
    else
      .ok portsToDiscover

/-- The loop over the devices, from the device with number `devI` on. -/
def devLoop (found : Nat → Device → UInt8 → PortAttr → Except Failure R) (fuel : Nat) :
    List Device → Nat → Int32 → Except (Exit R) Int32
  | [], _, portsToDiscover => .ok portsToDiscover
  | dev :: devs, devI, portsToDiscover => do
    check dev.opens (.failed (.openDevice devI))
    match dev.queryDevice with
    | none => stop (.queryDevice devI)
    | some physPortCnt =>
      let portsToDiscover ←
        portLoop (found devI dev) dev.queryPort devI physPortCnt fuel 1 portsToDiscover
      check dev.closes (.failed (.closeDevice devI))
      devLoop found fuel devs (devI + 1) portsToDiscover

/-- After the loops, resolution has failed. -/
def resolve (atEnd : Failure) : Except (Exit R) Int32 → Except Failure R
  | .ok _ => .error atEnd
  | .error (.failed why) => .error why
  | .error (.returned r) => .ok r

@[simp] theorem resolve_ofResult (atEnd : Failure) (r : Except Failure R) :
    resolve atEnd (.error (.ofResult r)) = r := by
  cases r <;> rfl

end

/-! ## The two versions -/

/-- The fields of `hrd_ctrl_blk` that the C version fills. -/
structure PortIds where
  deviceId : Nat
  devPortId : UInt8
deriving DecidableEq, Repr

/-- The C version closes the device. -/
def foundC (devI : Nat) (dev : Device) (portI : UInt8) (_ : PortAttr) : Except Failure PortIds :=
  if dev.closes then .ok ⟨devI, portI⟩ else .error (.closeDevice devI)

/-- The C version, with the device it returns. -/
def hrdResolvePortIndexC (fuel : Nat) (devList : Option (List Device)) (portIndex : Int32) :
    Except Failure (PortIds × Option Device) := do
  check (0 ≤ portIndex) .negativeIndex
  match devList with
  | none => .error .deviceList
  | some devs =>
    let ids ← resolve .unresolved (devLoop foundC fuel devs 0 portIndex)
    return (ids, devs[ids.deviceId]?)

/-- The field `resolve` of `hrd_ctrl_blk_t`. A context is named by the device that it
is open on. -/
structure Resolve where
  deviceId : Nat
  ibCtx : Option Nat
  devPortId : UInt8
  portLid : UInt16
  gid : Gid
deriving DecidableEq, Repr

/-- The C++ version checks the link layer and keeps the context. -/
def foundCpp (kRoCE : Bool) (cb : Resolve) (devI : Nat) (dev : Device) (portI : UInt8)
    (attr : PortAttr) : Except Failure Resolve := do
  check (kRoCE ∨ attr.linkLayer = .infiniband) (.linkLayer .infiniband attr.linkLayer)
  check (¬ kRoCE ∨ attr.linkLayer = .ethernet) (.linkLayer .ethernet attr.linkLayer)
  let cb : Resolve := { cb with
    deviceId := devI, ibCtx := some devI, devPortId := portI, portLid := attr.lid }
  if kRoCE then
    match dev.queryGid portI 1 with
    | none => .error .queryGid
    | some gid => return { cb with gid := gid }
  else
    return cb

/-- The C++ version. `int ports_to_discover = phy_port` keeps the lower half. -/
def hrdResolvePortIndexCpp (fuel : Nat) (kRoCE : Bool) (cb : Resolve)
    (devList : Option (List Device)) (phyPort : UInt64) : Except Failure Resolve :=
  match devList with
  | none => .error .deviceList
  | some devs =>
    resolve (if cb.ibCtx = none then .unresolved else .contextLeft)
      (devLoop (foundCpp kRoCE cb) fuel devs 0 phyPort.toUInt32.toInt32)

/-! ## The enabled ports -/

/-- The verbs calls on the device succeed and show these ports. -/
structure Presents (dev : Device) (ports : List PortAttr) : Prop where
  opens : dev.opens = true
  queryDevice : ∃ cnt, dev.queryDevice = some cnt ∧ cnt.toNat = ports.length
  queryPort : ∀ i < ports.length, dev.queryPort (UInt8.ofNat (1 + i)) = ports[i]?
  closes : dev.closes = true
  length_lt : ports.length < 255

/-- A device with the given ports, whose calls succeed. -/
def Device.showing (ports : List PortAttr) : Device where
  opens := true
  queryDevice := some (UInt8.ofNat ports.length)
  queryPort portI := ports[portI.toNat - 1]?
  queryGid _ _ := some ⟨0, 0⟩
  closes := true

theorem presents_showing {ports : List PortAttr} (h : ports.length < 255) :
    Presents (.showing ports) ports where
  opens := rfl
  queryDevice := ⟨_, rfl, UInt8.toNat_ofNat_of_lt' (show _ < 256 by omega)⟩
  queryPort i hi := by
    show ports[(UInt8.ofNat (1 + i)).toNat - 1]? = ports[i]?
    rw [UInt8.toNat_ofNat_of_lt' (show _ < 256 by omega), Nat.add_sub_cancel_left]
  closes := rfl
  length_lt := h

structure Port where
  device : Nat
  port : Nat
  attr : PortAttr
deriving DecidableEq, Repr

/-- The ports of one device, the first with number `portI`. -/
def portsOn (devI portI : Nat) (ports : List PortAttr) : List Port :=
  (ports.zipIdx portI).map fun x => ⟨devI, x.2, x.1⟩

/-- The ports of the devices from number `devI` on, device by device. -/
def portsFrom : Nat → List (List PortAttr) → List Port
  | _, [] => []
  | devI, ports :: rest => portsOn devI 1 ports ++ portsFrom (devI + 1) rest

def enabledPorts (ports : List (List PortAttr)) : List Port :=
  (portsFrom 0 ports).filter (·.attr.enabled)

/-- The result is the port with rank `k`. If there is none the call fails, and it
fails in no other way. -/
structure Picks {R : Type} (result : Except Failure R) (ids : R → Nat × Nat) (atEnd : Failure)
    (ports : List Port) (k : Nat) : Prop where
  selects : ∀ p, ports[k]? = some p → ∃ r, result = .ok r ∧ ids r = (p.device, p.port)
  fails_iff : (∃ why, result = .error why) ↔ ports.length ≤ k
  failure : ∀ why, result = .error why → why = atEnd

/-- The count goes down by one at a port that is enabled. -/
def weight (p : Port) : Nat := if p.attr.enabled then 1 else 0

theorem copies_weight (ports : List (List PortAttr)) :
    copies weight (portsFrom 0 ports) = enabledPorts ports :=
  copies_ite (fun p : Port => p.attr.enabled) _

@[simp] theorem portsOn_cons (devI portI : Nat) (attr : PortAttr) (ports : List PortAttr) :
    portsOn devI portI (attr :: ports) =
      ⟨devI, portI, attr⟩ :: portsOn devI (portI + 1) ports := rfl

/-! ## The loops count down -/

section
variable {R : Type}

theorem ofNat_eq_zero_iff {t : Nat} (ht : t < 2 ^ 31) : Int32.ofNat t = 0 ↔ t = 0 := by
  rw [← Int32.toInt_inj, Int32.toInt_ofNat_of_lt ht]
  simp

theorem ofNat_sub_one {t : Nat} (ht : t ≠ 0) : Int32.ofNat t - 1 = Int32.ofNat (t - 1) := by
  rw [Int32.ofNat_sub t 1 (by omega)]
  rfl

/-- The loop over the ports, from port number `portI` on. -/
theorem portLoop_eq (found : UInt8 → PortAttr → Except Failure R) (devI : Nat)
    {queryPort : UInt8 → Option PortAttr} {cnt : UInt8} {ports : List PortAttr}
    {fuel portI t : Nat} (hfuel : ports.length < fuel) (hcnt : portI + ports.length = cnt.toNat + 1)
    (hlt : cnt.toNat < 255) (ht : t < 2 ^ 31)
    (hq : ∀ i < ports.length, queryPort (UInt8.ofNat (portI + i)) = ports[i]?) :
    portLoop found queryPort devI cnt fuel (UInt8.ofNat portI) (Int32.ofNat t) =
      match seek weight (portsOn devI portI ports) t with
      | .error p => .error (.ofResult (found (UInt8.ofNat p.port) p.attr))
      | .ok t' => .ok (Int32.ofNat t') := by
  induction ports generalizing portI fuel t with
  | nil =>
    rw [List.length_nil] at hfuel hcnt
    obtain ⟨fuel, rfl⟩ : ∃ n, fuel = n + 1 := ⟨fuel - 1, by omega⟩
    have hend : ¬ UInt8.ofNat portI ≤ cnt := by
      rw [UInt8.le_iff_toNat_le, UInt8.toNat_ofNat']
      omega
    rw [portLoop, if_neg hend]
    rfl
  | cons attr ports ih =>
    obtain ⟨fuel, rfl⟩ : ∃ n, fuel = n + 1 := ⟨fuel - 1, by omega⟩
    rw [List.length_cons] at hfuel hcnt
    have hle : UInt8.ofNat portI ≤ cnt := by
      rw [UInt8.le_iff_toNat_le, UInt8.toNat_ofNat']
      omega
    have hhead : queryPort (UInt8.ofNat portI) = some attr := hq 0 (by simp)
    have hnext : UInt8.ofNat portI + 1 = UInt8.ofNat (portI + 1) := (UInt8.ofNat_add portI 1).symm
    have hrest : ∀ i < ports.length, queryPort (UInt8.ofNat (portI + 1 + i)) = ports[i]? := by
      intro i hi
      have := hq (i + 1) (by simpa using hi)
      rwa [show portI + (i + 1) = portI + 1 + i by omega] at this
    rw [portsOn_cons, seek, portLoop, if_pos hle, hhead, hnext]
    by_cases he : attr.enabled
    · have hw : weight ⟨devI, portI, attr⟩ = 1 := if_pos he
      simp only [he, if_true, hw, Nat.lt_one_iff, ofNat_eq_zero_iff ht]
      by_cases h0 : t = 0
      · rw [if_pos h0, if_pos h0]
      · rw [if_neg h0, if_neg h0, ofNat_sub_one h0]
        exact ih (by omega) (by omega) (by omega) hrest
    · have hw : weight ⟨devI, portI, attr⟩ = 0 := if_neg he
      simp only [he, hw, Nat.not_lt_zero, if_false]
      exact ih (by omega) (by omega) ht hrest

/-- A counter of type `uint8_t` never exceeds 255. On a device with that many ports, none
of them enabled, the loop starts over at port 0 and, if that can be queried as
well, never ends. -/
theorem portLoop_endless (found : UInt8 → PortAttr → Except Failure R)
    {queryPort : UInt8 → Option PortAttr}
    (hq : ∀ portI, ∃ attr, queryPort portI = some attr ∧ attr.enabled = false)
    (devI fuel : Nat) (portI : UInt8) (t : Int32) :
    portLoop found queryPort devI 255 fuel portI t = stop .endless := by
  induction fuel generalizing portI with
  | zero => rfl
  | succ fuel ih =>
    obtain ⟨attr, hattr, hdown⟩ := hq portI
    have hle : portI ≤ 255 := by
      rw [UInt8.le_iff_toNat_le]
      exact Nat.le_of_lt_succ portI.toNat_lt
    simp only [portLoop, if_pos hle, hattr, hdown, Bool.false_eq_true, if_false]
    exact ih (portI + 1)

/-- How the loop over the devices from number `devI` on ends, by the count over their
ports. -/
def Leaves (found : Nat → Device → UInt8 → PortAttr → Except Failure R) (devs : List Device)
    (devI : Nat) (out : Except (Exit R) Int32) : Except Port Nat → Prop
  | .ok t => out = .ok (Int32.ofNat t)
  | .error p => ∃ dev, (dev, p.device) ∈ devs.zipIdx devI ∧
      out = .error (.ofResult (found p.device dev (UInt8.ofNat p.port) p.attr))

/-- Nothing of a device stops the loop before its ports have been counted. -/
theorem devLoop_cons (found : Nat → Device → UInt8 → PortAttr → Except Failure R)
    {fuel devI t : Nat} {dev : Device} {ports : List PortAttr} (h : Presents dev ports)
    (hfuel : 255 ≤ fuel) (ht : t < 2 ^ 31) (devs : List Device) :
    devLoop found fuel (dev :: devs) devI (Int32.ofNat t) =
      match seek weight (portsOn devI 1 ports) t with
      | .error p => .error (.ofResult (found devI dev (UInt8.ofNat p.port) p.attr))
      | .ok t' => devLoop found fuel devs (devI + 1) (Int32.ofNat t') := by
  obtain ⟨cnt, hcnt, hlen⟩ := h.queryDevice
  have hlt := h.length_lt
  have hloop := portLoop_eq (found devI dev) devI (show ports.length < fuel by omega)
    (show 1 + ports.length = cnt.toNat + 1 by omega) (by omega) ht h.queryPort
  rw [devLoop]
  simp only [h.opens, h.closes, hcnt, check]
  rw [show (1 : UInt8) = UInt8.ofNat 1 from rfl, hloop]
  cases seek weight (portsOn devI 1 ports) t <;> rfl

theorem device_of_mem {devI portI : Nat} {ports : List PortAttr} {p : Port}
    (h : p ∈ portsOn devI portI ports) : p.device = devI := by
  obtain ⟨x, -, rfl⟩ := List.mem_map.mp h
  rfl

theorem devLoop_seek (found : Nat → Device → UInt8 → PortAttr → Except Failure R) (devI : Nat)
    {fuel t : Nat} {devs : List Device} {ports : List (List PortAttr)}
    (h : List.Forall₂ Presents devs ports) (hfuel : 255 ≤ fuel) (ht : t < 2 ^ 31) :
    Leaves found devs devI (devLoop found fuel devs devI (Int32.ofNat t))
      (seek weight (portsFrom devI ports) t) := by
  induction h generalizing devI t with
  | nil => exact rfl
  | @cons dev ports devs rest hd _ ih =>
    rw [portsFrom, seek_append, devLoop_cons found hd hfuel ht]
    cases hs : seek weight (portsOn devI 1 ports) t with
    | error p =>
      have hdevice := device_of_mem (seek_mem hs)
      refine ⟨dev, ?_, ?_⟩
      · rw [hdevice, List.zipIdx_cons]
        exact List.mem_cons_self
      · rw [hdevice]
    | ok t' =>
      have hrest := ih (devI + 1) ((seek_ok_le hs).trans_lt ht)
      show Leaves found (dev :: devs) devI _ (seek weight (portsFrom (devI + 1) rest) t')
      cases hs' : seek weight (portsFrom (devI + 1) rest) t' with
      | ok t'' =>
        rw [hs'] at hrest
        exact hrest
      | error p =>
        rw [hs'] at hrest
        obtain ⟨dev', hmem, hout⟩ := hrest
        rw [Leaves, List.zipIdx_cons]
        exact ⟨dev', List.mem_cons_of_mem _ hmem, hout⟩

/-- What is found at a port decides about the result. -/
theorem resolve_picks (found : Nat → Device → UInt8 → PortAttr → Except Failure R)
    (ids : R → Nat × Nat) (atEnd : Failure) {fuel t : Nat} {devs : List Device}
    {ports : List (List PortAttr)} (h : List.Forall₂ Presents devs ports) (hfuel : 255 ≤ fuel)
    (ht : t < 2 ^ 31)
    (hfound : ∀ p dev, (enabledPorts ports)[t]? = some p → devs[p.device]? = some dev →
      ∃ r, found p.device dev (UInt8.ofNat p.port) p.attr = .ok r ∧
        ids r = (p.device, p.port)) :
    Picks (resolve atEnd (devLoop found fuel devs 0 (Int32.ofNat t))) ids atEnd
      (enabledPorts ports) t := by
  have hout := devLoop_seek found 0 h hfuel ht
  rw [seek_eq, copies_weight] at hout
  cases hp : (enabledPorts ports)[t]? with
  | none =>
    rw [hp] at hout
    have hlen := List.getElem?_eq_none_iff.mp hp
    have hend : resolve atEnd (devLoop found fuel devs 0 (Int32.ofNat t)) = .error atEnd := by
      rw [show devLoop found fuel devs 0 (Int32.ofNat t) = _ from hout]
      rfl
    rw [hend]
    refine ⟨fun p hp' => ?_, ⟨fun _ => hlen, fun _ => ⟨atEnd, rfl⟩⟩, fun why hwhy => ?_⟩
    · rw [hp] at hp'
      cases hp'
    · exact (Except.error.inj hwhy).symm
  | some p =>
    rw [hp] at hout
    obtain ⟨dev, hmem, hleave⟩ := hout
    obtain ⟨r, hr, hids⟩ := hfound p dev hp (List.mk_mem_zipIdx_iff_getElem?.mp hmem)
    rw [hleave, resolve_ofResult, hr]
    have hlen : t < (enabledPorts ports).length := (List.getElem?_eq_some_iff.mp hp).1
    refine ⟨fun p' hp' => ?_, ⟨fun hfail => ?_, fun hle => absurd hlen (by omega)⟩, ?_⟩
    · rw [hp] at hp'
      obtain rfl := Option.some.inj hp'
      exact ⟨r, rfl, hids⟩
    · obtain ⟨why, hwhy⟩ := hfail
      cases hwhy
    · intro why hwhy
      cases hwhy

theorem Picks.selected {result : Except Failure R} {ids : R → Nat × Nat} {atEnd : Failure}
    {ports : List Port} {k : Nat} (h : Picks result ids atEnd ports k) {r : R}
    (hr : result = .ok r) : ports[k]?.map (fun p => (p.device, p.port)) = some (ids r) := by
  cases hp : ports[k]? with
  | none =>
    obtain ⟨why, hwhy⟩ := h.fails_iff.mpr (List.getElem?_eq_none_iff.mp hp)
    rw [hr] at hwhy
    cases hwhy
  | some p =>
    obtain ⟨r', hr', hids⟩ := h.selects p hp
    rw [hr] at hr'
    rw [Except.ok.inj hr', hids]
    rfl

theorem Picks.map {S : Type} {result : Except Failure R} {ids : R → Nat × Nat} {atEnd : Failure}
    {ports : List Port} {k : Nat} (h : Picks result ids atEnd ports k) (f : R → S)
    {ids' : S → Nat × Nat} (hids : ∀ r, ids' (f r) = ids r) :
    Picks (result.map f) ids' atEnd ports k := by
  refine ⟨fun p hp => ?_, ?_, ?_⟩
  · obtain ⟨r, rfl, hr⟩ := h.selects p hp
    exact ⟨f r, rfl, (hids r).trans hr⟩
  · rw [← h.fails_iff]
    cases result <;> simp [Except.map]
  · intro why hwhy
    cases result with
    | error e => exact h.failure why (congrArg Except.error (Except.error.inj hwhy))
    | ok r => cases hwhy

end

theorem port_lt {devI : Nat} {devs : List Device} {ports : List (List PortAttr)}
    (h : List.Forall₂ Presents devs ports) {p : Port} (hp : p ∈ portsFrom devI ports) :
    p.port < 256 := by
  induction h generalizing devI with
  | nil => cases hp
  | cons hd _ ih =>
    rw [portsFrom, List.mem_append] at hp
    obtain hp | hp := hp
    · obtain ⟨x, hx, rfl⟩ := List.mem_map.mp hp
      have hlt := List.snd_lt_add_of_mem_zipIdx hx
      have := hd.length_lt
      show x.2 < 256
      omega
    · exact ih hp

theorem closes_of_mem {devs : List Device} {ports : List (List PortAttr)}
    (h : List.Forall₂ Presents devs ports) {dev : Device} (hdev : dev ∈ devs) :
    dev.closes = true := by
  induction h with
  | nil => cases hdev
  | cons hd _ ih =>
    obtain rfl | hdev := List.mem_cons.mp hdev
    · exact hd.closes
    · exact ih hdev

theorem toNat_port {devs : List Device} {ports : List (List PortAttr)}
    (h : List.Forall₂ Presents devs ports) {k : Nat} {p : Port}
    (hp : (enabledPorts ports)[k]? = some p) : (UInt8.ofNat p.port).toNat = p.port :=
  UInt8.toNat_ofNat_of_lt' (port_lt h (List.mem_filter.mp (List.mem_of_getElem? hp)).1)

/-! ## Both versions pick by rank -/

section
variable {devs : List Device} {ports : List (List PortAttr)} {fuel : Nat}

theorem hrdResolvePortIndexC_picks (h : List.Forall₂ Presents devs ports) (hfuel : 255 ≤ fuel)
    {portIndex : Int32} {k : Nat} (hk : portIndex.toInt = k) :
    Picks (hrdResolvePortIndexC fuel (some devs) portIndex)
      (fun r => (r.1.deviceId, r.1.devPortId.toNat)) .unresolved (enabledPorts ports) k := by
  have hlt : portIndex.toInt < 2 ^ 31 := portIndex.toInt_lt
  have hindex : Int32.ofNat k = portIndex := by
    rw [← Int32.toInt_inj, Int32.toInt_ofNat_of_lt (by omega), hk]
  have hpos : 0 ≤ portIndex := by
    rw [Int32.le_iff_toInt_le, hk]
    exact Int.natCast_nonneg k
  have hpicks := resolve_picks foundC (fun r => (r.deviceId, r.devPortId.toNat)) .unresolved h
    hfuel (show k < 2 ^ 31 by omega) fun p dev hp hdev =>
      ⟨_, if_pos (closes_of_mem h (List.mem_of_getElem? hdev)), by rw [toNat_port h hp]⟩
  rw [hindex] at hpicks
  have heq : hrdResolvePortIndexC fuel (some devs) portIndex =
      (resolve .unresolved (devLoop foundC fuel devs 0 portIndex)).map
        fun ids => (ids, devs[ids.deviceId]?) := by
    rw [hrdResolvePortIndexC, check, if_pos hpos]
    rfl
  rw [heq]
  exact hpicks.map _ fun ids => rfl

/-- The link layer that goes with `kRoCE`. -/
def requiredLayer (kRoCE : Bool) : LinkLayer := if kRoCE then .ethernet else .infiniband

theorem foundCpp_ok {kRoCE : Bool} {dev : Device} {portI : UInt8} {attr : PortAttr}
    (hlayer : attr.linkLayer = requiredLayer kRoCE)
    (hgid : kRoCE → (dev.queryGid portI 1).isSome) (cb : Resolve) (devI : Nat) :
    ∃ r, foundCpp kRoCE cb devI dev portI attr = .ok r ∧ r.deviceId = devI ∧
      r.devPortId = portI := by
  cases kRoCE with
  | false =>
    refine ⟨⟨devI, some devI, portI, attr.lid, cb.gid⟩, ?_, rfl, rfl⟩
    rw [foundCpp, check, check, if_pos (.inr hlayer), if_pos (.inl Bool.false_ne_true)]
    rfl
  | true =>
    obtain ⟨gid, hgid⟩ := Option.isSome_iff_exists.mp (hgid rfl)
    refine ⟨⟨devI, some devI, portI, attr.lid, gid⟩, ?_, rfl, rfl⟩
    rw [foundCpp, check, check, if_pos (.inl rfl), if_pos (.inr hlayer), hgid]
    rfl

theorem hrdResolvePortIndexCpp_picks (h : List.Forall₂ Presents devs ports) (hfuel : 255 ≤ fuel)
    {kRoCE : Bool} (cb : Resolve) {phyPort : UInt64} (hlt : phyPort.toNat < 2 ^ 31)
    (hlayer : ∀ p, (enabledPorts ports)[phyPort.toNat]? = some p →
      p.attr.linkLayer = requiredLayer kRoCE)
    (hgid : kRoCE → ∀ p dev, (enabledPorts ports)[phyPort.toNat]? = some p →
      devs[p.device]? = some dev → (dev.queryGid (UInt8.ofNat p.port) 1).isSome) :
    Picks (hrdResolvePortIndexCpp fuel kRoCE cb (some devs) phyPort)
      (fun r => (r.deviceId, r.devPortId.toNat))
      (if cb.ibCtx = none then .unresolved else .contextLeft) (enabledPorts ports)
      phyPort.toNat := by
  have hindex : Int32.ofNat phyPort.toNat = phyPort.toUInt32.toInt32 := rfl
  have hpicks := resolve_picks (foundCpp kRoCE cb) (fun r => (r.deviceId, r.devPortId.toNat))
    (if cb.ibCtx = none then .unresolved else .contextLeft) h hfuel hlt fun p dev hp hdev => by
      obtain ⟨r, hr, hdevice, hport⟩ :=
        foundCpp_ok (hlayer p hp) (fun hk => hgid hk p dev hp hdev) cb p.device
      exact ⟨r, hr, by rw [hdevice, hport, toNat_port h hp]⟩
  rwa [hindex] at hpicks

/-- A C program and a C++ program that are given the same index use the same port. -/
theorem versions_agree (h : List.Forall₂ Presents devs ports) (hfuel : 255 ≤ fuel)
    {kRoCE : Bool} {cb : Resolve} {portIndex : Int32} {phyPort : UInt64}
    (hindex : portIndex.toInt = phyPort.toNat)
    (hlayer : ∀ p, (enabledPorts ports)[phyPort.toNat]? = some p →
      p.attr.linkLayer = requiredLayer kRoCE)
    (hgid : kRoCE → ∀ p dev, (enabledPorts ports)[phyPort.toNat]? = some p →
      devs[p.device]? = some dev → (dev.queryGid (UInt8.ofNat p.port) 1).isSome)
    {r : PortIds × Option Device} (hr : hrdResolvePortIndexC fuel (some devs) portIndex = .ok r) :
    ∃ r', hrdResolvePortIndexCpp fuel kRoCE cb (some devs) phyPort = .ok r' ∧
      r'.deviceId = r.1.deviceId ∧ r'.devPortId = r.1.devPortId := by
  have hlt : portIndex.toInt < 2 ^ 31 := portIndex.toInt_lt
  have hrank := (hrdResolvePortIndexC_picks h hfuel hindex).selected hr
  obtain ⟨p, hp, hids⟩ := Option.map_eq_some_iff.mp hrank
  obtain ⟨r', hr', hids'⟩ :=
    (hrdResolvePortIndexCpp_picks h hfuel cb (by omega) hlayer hgid).selects p hp
  have hsame := Prod.mk.inj (hids'.trans hids)
  exact ⟨r', hr', hsame.1, UInt8.toNat_inj.mp hsame.2⟩

/-- On every list of devices, the C version for every index that is not negative and
the C++ version for every index that an `int` can hold. -/
theorem port_of_rank (h : List.Forall₂ Presents devs ports) (hfuel : 255 ≤ fuel) :
    (∀ (portIndex : Int32) (k : Nat), portIndex.toInt = k →
      Picks (hrdResolvePortIndexC fuel (some devs) portIndex)
        (fun r => (r.1.deviceId, r.1.devPortId.toNat)) .unresolved (enabledPorts ports) k) ∧
    ∀ (kRoCE : Bool) (cb : Resolve) (phyPort : UInt64), phyPort.toNat < 2 ^ 31 →
      (∀ p, (enabledPorts ports)[phyPort.toNat]? = some p →
        p.attr.linkLayer = requiredLayer kRoCE) →
      (kRoCE → ∀ p dev, (enabledPorts ports)[phyPort.toNat]? = some p →
        devs[p.device]? = some dev → (dev.queryGid (UInt8.ofNat p.port) 1).isSome) →
      Picks (hrdResolvePortIndexCpp fuel kRoCE cb (some devs) phyPort)
        (fun r => (r.deviceId, r.devPortId.toNat))
        (if cb.ibCtx = none then .unresolved else .contextLeft) (enabledPorts ports)
        phyPort.toNat := by
  refine ⟨fun portIndex k hk => hrdResolvePortIndexC_picks h hfuel hk, ?_⟩
  intro kRoCE cb phyPort hlt hlayer hgid
  exact hrdResolvePortIndexCpp_picks h hfuel cb hlt hlayer hgid

/-- A port that is up, and one that is down. -/
def portUp : PortAttr := ⟨ibvPortActiveDefer, .ethernet, 7⟩

def portDown : PortAttr := ⟨3, .ethernet, 0⟩

def emptyResolve : Resolve := ⟨0, none, 0, 0, ⟨0, 0⟩⟩

/-- The second enabled port is the second port of the second device. -/
theorem port_of_rank_second :
    List.Forall₂ Presents [.showing [portUp, portDown], .showing [portDown, portUp]]
      [[portUp, portDown], [portDown, portUp]] ∧
    Picks (hrdResolvePortIndexC 255 (some [.showing [portUp, portDown],
        .showing [portDown, portUp]]) 1)
      (fun r => (r.1.deviceId, r.1.devPortId.toNat)) .unresolved
      [⟨0, 1, portUp⟩, ⟨1, 2, portUp⟩] 1 ∧
    Picks (hrdResolvePortIndexCpp 255 true emptyResolve (some [.showing [portUp, portDown],
        .showing [portDown, portUp]]) 1)
      (fun r => (r.deviceId, r.devPortId.toNat)) .unresolved
      [⟨0, 1, portUp⟩, ⟨1, 2, portUp⟩] 1 := by
  have h : List.Forall₂ Presents [.showing [portUp, portDown], .showing [portDown, portUp]]
      [[portUp, portDown], [portDown, portUp]] :=
    .cons (presents_showing (by decide)) (.cons (presents_showing (by decide)) .nil)
  have hrank := port_of_rank h (le_refl 255)
  refine ⟨h, hrank.1 1 1 rfl, hrank.2 true emptyResolve 1 (by decide) ?_ ?_⟩
  · intro p hp
    rw [← Option.some.inj (show some (⟨1, 2, portUp⟩ : Port) = some p from hp)]
    rfl
  · intro _ p dev hp hdev
    rw [← Option.some.inj (show some (⟨1, 2, portUp⟩ : Port) = some p from hp)] at hdev
    rw [← Option.some.inj (show some (.showing [portDown, portUp]) = some dev from hdev)]
    rfl

/-- The C++ version takes the index `2 ^ 32` for 0 and finds a port, although there is
only one. -/
theorem phyPort_truncated :
    List.Forall₂ Presents [.showing [portUp]] [[portUp]] ∧
    (∀ p, (enabledPorts [[portUp]])[2 ^ 32]? = some p →
      p.attr.linkLayer = requiredLayer true) ∧
    (∀ portI, ((Device.showing [portUp]).queryGid portI 1).isSome) ∧
    hrdResolvePortIndexCpp 255 true emptyResolve (some [.showing [portUp]])
      (UInt64.ofNat (2 ^ 32)) = .ok ⟨0, some 0, 1, 7, ⟨0, 0⟩⟩ ∧
    ¬ Picks (hrdResolvePortIndexCpp 255 true emptyResolve (some [.showing [portUp]])
        (UInt64.ofNat (2 ^ 32)))
      (fun r => (r.deviceId, r.devPortId.toNat)) .unresolved (enabledPorts [[portUp]])
      (2 ^ 32) := by
  have hrun : hrdResolvePortIndexCpp 255 true emptyResolve (some [.showing [portUp]])
      (UInt64.ofNat (2 ^ 32)) = .ok ⟨0, some 0, 1, 7, ⟨0, 0⟩⟩ := rfl
  refine ⟨.cons (presents_showing (by decide)) .nil, ?_, fun _ => rfl, hrun, ?_⟩
  · intro p hp
    cases hp
  · intro hpicks
    obtain ⟨why, hwhy⟩ := hpicks.fails_iff.mpr (by decide)
    rw [hrun] at hwhy
    cases hwhy

end

end RdmaBench.Libhrd.Ports
