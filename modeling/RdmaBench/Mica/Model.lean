import RdmaBench.Lib.Asserts
import RdmaBench.Lib.Bits
import RdmaBench.Lib.ByteMem

/-! # The MICA store

`mica/mica.c`: an index of buckets with eight slots each, over a circular log
whose head is a virtual, ever-growing offset. A slot keeps the tag of a key
and the virtual offset of its log entry. The memory of the index and the log
comes from `hrd_malloc_socket` and is a parameter of `micaInit`. The instance
and the NUMA node number are left out of the store: they only name the shared
memory and are printed. -/

namespace RdmaBench.Mica.Model
open RdmaBench.Lib.Asserts RdmaBench.Lib.Bits RdmaBench.Lib.ByteMem

/-- The asserts of `mica.c` that run with `MICA_DEBUG = 0`. -/
inductive Assert where
  | initNodeId | initNumBkts | initLogCap
  | insertLogBits
  | updateValLen
deriving DecidableEq, Repr

/-! ## Constants and data -/

def opGet : UInt8 := 111
def opPut : UInt8 := 112
def maxBatchSize : Nat := 32

/-- `MICA_MAX_VALUE`. -/
def maxValue : Nat := 64 - (16 + 1 + 1)

/-- `MICA_LOG_BITS`. -/
def logBits : Nat := 40

/-- The types of a response: 113, 114 and 115. -/
inductive RespType where
  | putSuccess | getSuccess | getFail
deriving DecidableEq, Repr

/-- `struct mica_key`. -/
structure MicaKey where
  unused : UInt64
  bkt : UInt32
  server : UInt16
  tag : UInt16
deriving DecidableEq, Repr

/-- The two 64-bit words of a key. The fields of the second are packed from
its low end. -/
def MicaKey.word0 (k : MicaKey) : Nat := k.unused.toNat
def MicaKey.word1 (k : MicaKey) : Nat :=
  k.bkt.toNat + 2 ^ 32 * k.server.toNat + 2 ^ 48 * k.tag.toNat

/-- `struct mica_op`. Only the first `MICA_MAX_VALUE` bytes of `value` exist. -/
structure MicaOp where
  key : MicaKey
  opcode : UInt8
  valLen : UInt8
  value : Nat → UInt8

/-- The bytes of a `struct mica_op`. -/
def MicaOp.bytes (op : MicaOp) (i : Nat) : UInt8 :=
  if i < 8 then UInt8.ofNat (op.key.word0 / 256 ^ i)
  else if i < 16 then UInt8.ofNat (op.key.word1 / 256 ^ (i - 8))
  else if i = 16 then op.opcode
  else if i = 17 then op.valLen
  else op.value (i - 18)

/-- `struct mica_resp`; the pointer is an offset in the log. -/
structure MicaResp where
  type : RespType
  valLen : UInt8
  valPtr : Option Nat
deriving DecidableEq

/-- `struct mica_slot`: a tag of 23 bits and an offset of 40 bits. -/
structure MicaSlot where
  inUse : Bool
  tag : Nat
  offset : Nat
deriving DecidableEq, Repr

abbrev MicaBkt := Fin 8 → MicaSlot

/-- `struct mica_kv` with the memory of its index and log. -/
structure MicaKv where
  htIndex : Nat → MicaBkt
  htLog : Mem
  numBkts : Nat
  bktMask : Nat
  logCap : Nat
  logMask : Nat
  logHead : Nat
  numGetOp : Nat
  numGetFail : Nat
  numPutOp : Nat
  numIndexEvictions : Nat

/-! ## Initialisation -/

def isPowerOf2 (x : Int) : Bool := (List.range 31).any fun k => x == 2 ^ k

/-- Set up a store in fresh memory: of the index only the `in_use` bits are
written. -/
def micaInit (index : Nat → MicaBkt) (log : Mem) (nodeId numBkts logCap : Int) :
    Except Assert MicaKv := do
  check (nodeId = 0 ∨ nodeId = 1) .initNodeId
  check (isPowerOf2 numBkts = true ∧ numBkts ≤ 16777216) .initNumBkts
  check (logCap > 0 ∧ logCap ≤ 1073741824 ∧ logCap % 2097152 = 0 ∧ isPowerOf2 logCap = true)
    .initLogCap
  return {
    htIndex := fun b i => { index b i with inUse := false }
    htLog := log
    numBkts := numBkts.toNat
    bktMask := numBkts.toNat - 1
    logCap := logCap.toNat
    logMask := logCap.toNat - 1
    logHead := 0
    numGetOp := 0
    numGetFail := 0
    numPutOp := 0
    numIndexEvictions := 0 }

/-! ## Insertion -/

/-- The bucket of a key. -/
def MicaKv.bktOf (kv : MicaKv) (key : MicaKey) : Nat := key.bkt.toNat &&& kv.bktMask

/-- The slot loop of `mica_insert_one`. It has no break, so the last slot that
is free or has the tag wins. -/
def slotToUse (bkt : MicaBkt) (tag : Nat) : Option (Fin 8) :=
  (List.finRange 8).foldl
    (fun s i => if (bkt i).tag = tag ∨ (bkt i).inUse = false then some i else s) none

/-- Key, opcode, length and value. -/
def lenToCopy (op : MicaOp) : Nat := 16 + 1 + 1 + op.valLen.toNat

/-- The head after an entry of `len` bytes: aligned to 8, and moved to the
next lap close to the physical end. -/
def advanceHead (logCap logMask logHead len : Nat) : Nat :=
  let logHead := (logHead + len) % 2 ^ 64
  let logHead := ((logHead + 7) % 2 ^ 64) &&& not64 7
  if sub64 logCap logHead ≤ maxValue + 32 then
    ((logHead + logCap) % 2 ^ 64) &&& not64 logMask
  else logHead

def micaInsertOne (kv : MicaKv) (op : MicaOp) : Except Assert MicaKv := do
  let bkt := kv.bktOf op.key
  let tag := op.key.tag.toNat
  let found := slotToUse (kv.htIndex bkt) tag
  let slot := found.getD (Fin.ofNat 8 (tag &&& 7))
  let entry : MicaSlot := ⟨true, tag % 2 ^ 23, kv.logHead % 2 ^ logBits⟩
  check (sub64 (2 ^ logBits) kv.logHead > lenToCopy op + 8) .insertLogBits
  return { kv with
    numPutOp := kv.numPutOp + 1
    numIndexEvictions := kv.numIndexEvictions + (if found = none then 1 else 0)
    htIndex := Function.update kv.htIndex bkt (Function.update (kv.htIndex bkt) slot entry)
    htLog := memcpy kv.htLog (kv.logHead &&& kv.logMask) op.bytes (lenToCopy op)
    logHead := advanceHead kv.logCap kv.logMask kv.logHead (lenToCopy op) }

/-! ## Batches -/

/-- The slot the lookup loop stops at: the first in use with the tag. -/
def findSlot (bkt : MicaBkt) (tag : Nat) : Option (Fin 8) :=
  (List.finRange 8).find? fun j => (bkt j).inUse && (bkt j).tag == tag

/-- The lookup of a key: where its entry may be in the log, unless the head has
lapped it. -/
def lookup (kv : MicaKv) (key : MicaKey) : Option Nat :=
  let bkt := kv.htIndex (kv.bktOf key)
  match findSlot bkt key.tag.toNat with
  | none => none
  | some j =>
    if sub64 kv.logHead (bkt j).offset ≥ kv.logCap then none
    else some ((bkt j).offset &&& kv.logMask)

/-- The comparison of the two words of a key with a log entry. -/
def keyAt (kv : MicaKv) (key : MicaKey) (ptr : Nat) : Bool :=
  load64 kv.htLog ptr == key.word0 && load64 kv.htLog (ptr + 8) == key.word1

/-- One round of the last loop of `mica_batch_op`, for an operation whose
lookup gave `kvPtr`. -/
def processOp (kv : MicaKv) (op : MicaOp) (kvPtr : Option Nat) :
    Except Assert (MicaKv × MicaResp) :=
  match kvPtr.filter (keyAt kv op.key) with
  | some ptr =>
    let len := kv.htLog (ptr + 17)
    if op.opcode = opGet then
      return ({ kv with numGetOp := kv.numGetOp + 1 }, ⟨.getSuccess, len, some (ptr + 18)⟩)
    else do
      check (op.valLen = len) .updateValLen
      return ({ kv with
        numPutOp := kv.numPutOp + 1
        htLog := memcpy kv.htLog (ptr + 18) op.value len.toNat }, ⟨.putSuccess, 0, none⟩)
  | none =>
    if op.opcode = opGet then
      return ({ kv with numGetFail := kv.numGetFail + 1 }, ⟨.getFail, 0, none⟩)
    else do
      let kv ← micaInsertOne kv op
      return (kv, ⟨.putSuccess, 0, none⟩)

def processAll (kv : MicaKv) :
    List (MicaOp × Option Nat) → Except Assert (MicaKv × List MicaResp)
  | [] => return (kv, [])
  | (op, kvPtr) :: rest => do
    let (kv, resp) ← processOp kv op kvPtr
    let (kv, resps) ← processAll kv rest
    return (kv, resp :: resps)

/-- All lookups of a batch are made before its first operation is processed. -/
def micaBatchOp (kv : MicaKv) (ops : List MicaOp) : Except Assert (MicaKv × List MicaResp) :=
  processAll kv (ops.map fun op => (op, lookup kv op.key))

end RdmaBench.Mica.Model
