import RdmaBench.Lib.Asserts

/-! # The registry of `libhrd`

Queue pairs are announced in a memcached instance: a record under the name of
the queue pair, and later the text `hrd_ready` under that name with a reserved
prefix. Names of queue pairs must not contain the prefix, which keeps the two
kinds of keys apart. The instance is a map with atomic `set` and `get`.

`libhrd_cpp` has the same registry with other records, so the functions that do
not look into a record are for records of any type. -/

namespace RdmaBench.Libhrd.Registry
open RdmaBench.Lib.Asserts

def hrdQpNameSize : Nat := 200
def hrdReservedNamePrefix : String := "__HRD_RESERVED_NAME_PREFIX"

/-! ## The map -/

variable {α : Type}

/-- What a key is mapped to. -/
inductive Value (α : Type) where
  | qp (attr : α)
  | ready
deriving DecidableEq, Repr

abbrev Memc (α : Type) := String → Option (Value α)

/-- What ends a process: a failed assert, or `exit` at a space in a name. -/
inductive Stop where
  | qpIndex
  | nameSize
  | reservedName
  | spaceInName
  | recordSize
deriving DecidableEq, Repr

/-- The checks on the name of a queue pair. -/
def checkName (qpName : String) : Except Stop Unit := do
  check (qpName.utf8ByteSize < hrdQpNameSize - 1) .nameSize
  check (¬ hrdReservedNamePrefix.toList <:+: qpName.toList) .reservedName
  check (' ' ∉ qpName.toList) .spaceInName

def hrdPublish (key : String) (value : Value α) (r : Memc α) : Memc α :=
  Function.update r key (some value)

/-- What the functions that publish a queue pair have in common. They differ in
the check of its index and in the record. -/
def publishQp (index : Prop) [Decidable index] (qpName : String) (attr : α) (r : Memc α) :
    Except Stop (Memc α) := do
  check index .qpIndex
  checkName qpName
  return hrdPublish qpName (.qp attr) r

/-- `none` if there is no entry. An entry that is not a record has another
length. -/
def hrdGetPublishedQp (qpName : String) (r : Memc α) : Except Stop (Option α) := do
  checkName qpName
  match r qpName with
  | none => return none
  | some (.qp attr) => return some attr
  | some .ready => throw .recordSize

def readyKey (qpName : String) : String := hrdReservedNamePrefix ++ qpName

def hrdPublishReady (qpName : String) (r : Memc α) : Except Stop (Memc α) := do
  check (qpName.utf8ByteSize < hrdQpNameSize) .nameSize
  return hrdPublish (readyKey qpName) .ready r

/-! ## Records -/

structure ConnBuf where
  addr : Nat
  size : Nat
  rkey : Nat
deriving DecidableEq, Repr

/-- `hrd_qp_attr`. The record of a datagram queue pair leaves the fields of the
buffer unset. -/
structure QpAttr where
  name : String
  buf : Option ConnBuf
  lid : Nat
  qpn : Nat
deriving DecidableEq, Repr

def readyText : String := "hrd_ready"

/-- The value as a C string. A record starts with its name. -/
def Value.text : Value QpAttr → String
  | .qp attr => attr.name
  | .ready => readyText

/-- The fields of `hrd_ctrl_blk` that are published. -/
structure CtrlBlk where
  numConnQps : Nat
  connBuf : ConnBuf
  connQpn : Nat → Nat
  numDgramQps : Nat
  dgramQpn : Nat → Nat
  lid : Nat

/-- What a device gives out when a control block is made. -/
structure Device where
  bufAddr : Nat
  rkey : Nat
  lid : Nat
  connQpn : Nat → Nat
  dgramQpn : Nat → Nat

/-- `hrd_ctrl_blk_init`. With `prealloc_conn_buf` the control block uses that
buffer. -/
def hrdCtrlBlkInit (dev : Device) (numConnQps : Nat) (preallocConnBuf : Option Nat)
    (connBufSize numDgramQps : Nat) : CtrlBlk where
  numConnQps
  connBuf := ⟨preallocConnBuf.getD dev.bufAddr, connBufSize, dev.rkey⟩
  connQpn := dev.connQpn
  numDgramQps
  dgramQpn := dev.dgramQpn
  lid := dev.lid

def connAttr (cb : CtrlBlk) (n : Nat) (qpName : String) : QpAttr :=
  ⟨qpName, some cb.connBuf, cb.lid, cb.connQpn n⟩

def dgramAttr (cb : CtrlBlk) (n : Nat) (qpName : String) : QpAttr :=
  ⟨qpName, none, cb.lid, cb.dgramQpn n⟩

def hrdPublishConnQp (cb : CtrlBlk) (n : Nat) (qpName : String) (r : Memc QpAttr) :
    Except Stop (Memc QpAttr) :=
  publishQp (n < cb.numConnQps) qpName (connAttr cb n qpName) r

def hrdPublishDgramQp (cb : CtrlBlk) (n : Nat) (qpName : String) (r : Memc QpAttr) :
    Except Stop (Memc QpAttr) :=
  publishQp (n < cb.numDgramQps) qpName (dgramAttr cb n qpName) r

/-- The test in the loop of `hrd_wait_till_ready`, which returns once it holds. -/
def isReady (qpName : String) (r : Memc QpAttr) : Bool :=
  match r (readyKey qpName) with
  | none => false
  | some value => value.text == readyText

/-- The other end of a connected queue pair. -/
structure Dest where
  destQpNum : Nat
  dlid : Nat
deriving DecidableEq, Repr

def QpAttr.dest (attr : QpAttr) : Dest := ⟨attr.qpn, attr.lid⟩

/-- What `hrd_connect_qp` sets for queue pair `n`. -/
def hrdConnectQp (cb : CtrlBlk) (n : Nat) (remoteQpAttr : QpAttr) : Except Stop Dest := do
  check (n < cb.numConnQps) .qpIndex
  return remoteQpAttr.dest

/-! ## Two kinds of keys -/

theorem readyKey_inj {a b : String} (h : readyKey a = readyKey b) : a = b :=
  (String.append_right_inj _).mp h

/-- A name that passes the checks is no ready key. -/
theorem readyKey_ne {qpName : String} (h : checkName qpName = .ok ()) (a : String) :
    readyKey a ≠ qpName := by
  obtain ⟨-, h⟩ := check_bind h
  obtain ⟨hsub, -⟩ := check_bind h
  rintro rfl
  apply hsub
  rw [readyKey, String.toList_append]
  exact (List.prefix_append _ _).isInfix

theorem publish_self (key : String) (value : Value α) (r : Memc α) :
    hrdPublish key value r key = some value :=
  Function.update_self ..

theorem publishQp_ok {index : Prop} [Decidable index] {qpName : String} {attr : α}
    {r r' : Memc α} (h : publishQp index qpName attr r = .ok r') :
    checkName qpName = .ok () ∧ r' = hrdPublish qpName (.qp attr) r := by
  obtain ⟨-, h⟩ := check_bind h
  obtain ⟨_, hname, h⟩ := bind_ok h
  exact ⟨hname, (Except.ok.inj h).symm⟩

theorem publishReady_ok {qpName : String} {r r' : Memc α}
    (h : hrdPublishReady qpName r = .ok r') : r' = hrdPublish (readyKey qpName) .ready r := by
  obtain ⟨-, h⟩ := check_bind h
  exact (Except.ok.inj h).symm

/-- A record that is found is the entry of its name. -/
theorem getPublishedQp_some {qpName : String} {r : Memc α} {attr : α}
    (h : hrdGetPublishedQp qpName r = .ok (some attr)) : r qpName = some (.qp attr) := by
  obtain ⟨_, -, h⟩ := bind_ok h
  cases hr : r qpName with
  | none =>
    rw [hr] at h
    cases h
  | some value =>
    rw [hr] at h
    cases value with
    | qp attr' =>
      cases h
      rfl
    | ready => cases h

/-- A record is found under its name, -/
theorem getPublishedQp_publish {qpName : String} (h : checkName qpName = .ok ()) (attr : α)
    (r : Memc α) : hrdGetPublishedQp qpName (hrdPublish qpName (.qp attr) r) = .ok (some attr) := by
  rw [hrdGetPublishedQp, h, publish_self]
  rfl

/-- and what is published under another key does not change what is found. -/
theorem getPublishedQp_publish_of_ne {key other : String} (h : other ≠ key) (value : Value α)
    (r : Memc α) :
    hrdGetPublishedQp other (hrdPublish key value r) = hrdGetPublishedQp other r := by
  rw [hrdGetPublishedQp, hrdPublish, Function.update_of_ne h]
  rfl

/-- A queue pair becoming ready changes nothing that a lookup of a queue pair,
of whatever name, returns. -/
theorem publishReady_get {qpName : String} {r r' : Memc α}
    (h : hrdPublishReady qpName r = .ok r') (other : String) :
    hrdGetPublishedQp other r' = hrdGetPublishedQp other r := by
  rw [publishReady_ok h]
  cases hname : checkName other with
  | error stop =>
    rw [hrdGetPublishedQp, hrdGetPublishedQp, hname]
    rfl
  | ok u => exact getPublishedQp_publish_of_ne (readyKey_ne hname qpName).symm _ _

theorem isReady_some {qpName : String} {r : Memc QpAttr} (h : isReady qpName r = true) :
    ∃ value, r (readyKey qpName) = some value := by
  unfold isReady at h
  split at h
  · cases h
  · rename_i value hr
    exact ⟨value, hr⟩

theorem connectQp_ok {cb : CtrlBlk} {n : Nat} {attr : QpAttr} {d : Dest}
    (h : hrdConnectQp cb n attr = .ok d) : d = attr.dest := by
  obtain ⟨-, h⟩ := check_bind h
  exact (Except.ok.inj h).symm

end RdmaBench.Libhrd.Registry
