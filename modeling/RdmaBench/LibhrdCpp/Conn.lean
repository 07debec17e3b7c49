import RdmaBench.Libhrd.Registry

/-! # Connected queue pairs of `libhrd_cpp`

The C++ library announces queue pairs in the registry of `libhrd`, with records
that have the number of a shared receive queue as well. With XRC a client has
such a queue for each thread of the other side, and queue pairs only if it is
the first one of its machine. The others publish records all the same. -/

namespace RdmaBench.LibhrdCpp.Conn
open RdmaBench.Lib.Asserts
open RdmaBench.Libhrd.Registry (ConnBuf Memc Stop checkName hrdPublish publishQp)

/-- Use RoCE. -/
def kRoCE : Bool := true

structure Gid where
  subnetPrefix : Nat
  interfaceId : Nat
deriving DecidableEq, Repr

/-- `hrd_qp_attr_t`. The GID is set with RoCE, and `srqn` by clients with XRC. -/
structure QpAttr where
  name : String
  lid : Nat
  qpn : Nat
  gid : Option Gid
  srqn : Option Nat
  buf : ConnBuf
deriving DecidableEq, Repr

/-- The fields of `hrd_conn_config_t` that are read. -/
structure ConnConfig where
  numQps : Nat
  useXrc : Bool
  isClient : Bool
  fstClientT : Bool
  bufSize : Nat
  rnumThreads : Nat
deriving DecidableEq, Repr

/-- What a device gives out when a control block is made. No two of its queue
pairs have one number. -/
structure Device where
  portLid : Nat
  gid : Gid
  connBuf : Nat
  rkey : Nat
  connQpn : Nat → Nat
  connQpn_inj : Function.Injective connQpn
  srqNum : Nat → Nat

structure CtrlBlk where
  connConfig : ConnConfig
  dev : Device

/-- The record of queue pair `n`. -/
def connAttr (cb : CtrlBlk) (n : Nat) (qpName : String) : QpAttr where
  name := qpName
  lid := cb.dev.portLid
  qpn :=
    if !cb.connConfig.useXrc || !cb.connConfig.isClient || cb.connConfig.fstClientT then
      cb.dev.connQpn n
    else 0
  gid := if kRoCE then some cb.dev.gid else none
  srqn := if cb.connConfig.isClient && cb.connConfig.useXrc then some (cb.dev.srqNum n) else none
  buf := ⟨cb.dev.connBuf, cb.connConfig.bufSize, cb.dev.rkey⟩

def hrdPublishConnQp (cb : CtrlBlk) (n : Nat) (qpName : String) (r : Memc QpAttr) :
    Except Stop (Memc QpAttr) :=
  publishQp (n < cb.connConfig.numQps ∨ cb.connConfig.useXrc ∧ n < cb.connConfig.rnumThreads)
    qpName (connAttr cb n qpName) r

/-- The other end of a connected queue pair. -/
structure Dest where
  destQpNum : Nat
  dlid : Nat
  dgid : Option Gid
deriving DecidableEq, Repr

def QpAttr.dest (attr : QpAttr) : Dest where
  destQpNum := attr.qpn
  dlid := if kRoCE then 0 else attr.lid
  dgid := if kRoCE then attr.gid else none

/-- What `hrd_connect_qp` sets for queue pair `n`. -/
def hrdConnectQp (cb : CtrlBlk) (n : Nat) (remoteQpAttr : QpAttr) : Except Stop Dest := do
  check (n < cb.connConfig.numQps) .qpIndex
  return remoteQpAttr.dest

theorem publishConnQp_of_lt {cb : CtrlBlk} {n : Nat} (hn : n < cb.connConfig.numQps)
    {qpName : String} (hname : checkName qpName = .ok ()) (r : Memc QpAttr) :
    hrdPublishConnQp cb n qpName r =
      .ok (hrdPublish qpName (.qp (connAttr cb n qpName)) r) := by
  simp only [hrdPublishConnQp, publishQp, check, if_pos (Or.inl hn), hname]
  rfl

theorem connectQp_of_lt {cb : CtrlBlk} {n : Nat} (hn : n < cb.connConfig.numQps) (attr : QpAttr) :
    hrdConnectQp cb n attr = .ok attr.dest := by
  simp only [hrdConnectQp, check, if_pos hn]
  rfl

/-- The record of a queue pair is that of no other queue pair of the control
block. -/
theorem connAttr_inj {cb : CtrlBlk} (hserver : cb.connConfig.isClient = false) {n n' : Nat}
    {qpName qpName' : String} (h : connAttr cb n qpName = connAttr cb n' qpName') : n = n' := by
  have hqpn := congrArg QpAttr.qpn h
  simp only [connAttr, hserver, Bool.not_false, Bool.or_true, Bool.true_or, if_true] at hqpn
  exact cb.dev.connQpn_inj hqpn

end RdmaBench.LibhrdCpp.Conn
