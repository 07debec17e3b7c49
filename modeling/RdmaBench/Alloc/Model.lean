import RdmaBench.Lib.Asserts
import RdmaBench.Lib.ByteMem

/-! # The MICA segregated-fit allocator

`mica/alloc/alloc.c`, function by function. Tags, list pointers and client
data share one byte memory. Pointers are addresses in it and `NULL` is 0.
`malloc` is outside: the address it returned is a parameter of
`micaAllocInit`. A failed `assert` ends the process, and the error says which
assert it was. -/

namespace RdmaBench.Alloc.Model
open RdmaBench.Lib.Asserts RdmaBench.Lib.ByteMem

/-- The asserts of `alloc.c`, named after the function and what they check. -/
inductive Assert where
  | initSize | initNumaNode | initData
  | roundupMaxSize
  | rounddownMaxSize | rounddownMinSize
  | insertHeadPrev
  | removeIsHead
  | fromHeadStatus | fromHeadSize | fromHeadTags
  | leftAboveData | leftTags
  | rightBelowEnd | rightTags
  | allocateItemSize
  | deallocateStatus
deriving DecidableEq, Repr

/-! ## Constants and tags -/

def numClasses : Nat := 32
def classIncrement : Nat := 8
def insufficientSpace : Nat := 2 ^ 64 - 1
def free : Nat := 0
def occupied : Nat := 1
def overhead : Nat := 16
def minSize : Nat := 32
def maxSize : Nat := 2 ^ 40 - 1
def null : Nat := 0

/-- `MICA_ALLOC_TAG_SIZE`. -/
def tagSize (vec : Nat) : Nat := vec &&& (2 ^ 63 - 1)

/-- `MICA_ALLOC_TAG_STATUS`. -/
def tagStatus (vec : Nat) : Nat := vec >>> 63

/-- `MICA_ALLOC_TAG_VEC`. -/
def tagVec (size status : Nat) : Nat := size ||| (status <<< 63)

/-- `MICA_ROUNDUP8` on a 64-bit value. -/
def roundup8 (x : Nat) : Nat := ((x + 7) % 2 ^ 64) &&& (2 ^ 64 - 1 - 7)

/-- `MICA_ROUNDUP2M` on a 64-bit value. -/
def roundup2M (x : Nat) : Nat := ((x + 2097151) % 2 ^ 64) &&& (2 ^ 64 - 1 - 2097151)

/-- `struct mica_alloc` with the memory its pointers point into. -/
structure MicaAlloc where
  size : Nat
  data : Nat
  freeHead : Nat → Nat
  mem : Mem

/-! ## Size classes -/

/-- The subtraction does not wrap: the only caller passes at least 32. -/
def micaAllocSizeToClassRoundup (size : Nat) : Except Assert Nat := do
  check (size ≤ maxSize) .roundupMaxSize
  if size ≤ minSize + (numClasses - 1) * classIncrement then
    return (size - minSize + classIncrement - 1) / classIncrement
  else
    return numClasses - 1

def micaAllocSizeToClassRounddown (size : Nat) : Except Assert Nat := do
  check (size ≤ maxSize) .rounddownMaxSize
  check (size ≥ minSize) .rounddownMinSize
  if size < minSize + numClasses * classIncrement then
    return (size - minSize) / classIncrement
  else
    return numClasses - 1

/-! ## Free lists -/

/-- Add a chunk back to its free list. -/
def micaAllocInsertFreeChunk (alloc : MicaAlloc) (chunkStart chunkSize : Nat) :
    Except Assert MicaAlloc := do
  let chunkClass ← micaAllocSizeToClassRounddown chunkSize
  let tag := tagVec chunkSize free
  let mem := store64 (store64 alloc.mem (chunkStart + chunkSize - 8) tag) chunkStart tag
  let head := alloc.freeHead chunkClass
  let mem := store64 (store64 mem (chunkStart + 8) null) (chunkStart + 16) head
  let freeHead := Function.update alloc.freeHead chunkClass chunkStart
  if head ≠ null then
    check (load64 mem (head + 8) = null) .insertHeadPrev
    return { alloc with mem := store64 mem (head + 8) chunkStart, freeHead }
  else
    return { alloc with mem, freeHead }

/-- Remove a free chunk from its free list, through its own list pointers. -/
def micaAllocRemoveFreeChunkFromFreeList (alloc : MicaAlloc) (chunkStart chunkSize : Nat) :
    Except Assert MicaAlloc := do
  let prev := load64 alloc.mem (chunkStart + 8)
  let next := load64 alloc.mem (chunkStart + 16)
  let alloc ←
    if prev ≠ null then
      pure { alloc with mem := store64 alloc.mem (prev + 16) next }
    else do
      let chunkClass ← micaAllocSizeToClassRounddown chunkSize
      check (alloc.freeHead chunkClass = chunkStart) .removeIsHead
      pure { alloc with freeHead := Function.update alloc.freeHead chunkClass next }
  if next ≠ null then
    return { alloc with mem := store64 alloc.mem (next + 8) prev }
  else
    return alloc

/-- The class loop of `mica_alloc_remove_free_chunk_from_head`: the first
class from `chunkClass` on with a chunk, if any. -/
def findClass (alloc : MicaAlloc) (chunkClass : Nat) : Option Nat :=
  (List.range numClasses).find? fun k => decide (chunkClass ≤ k ∧ alloc.freeHead k ≠ null)

/-- Take the first chunk of the first usable class out of its list, and
return its start and size. -/
def micaAllocRemoveFreeChunkFromHead (alloc : MicaAlloc) (minimumChunkSize : Nat) :
    Except Assert (Option (MicaAlloc × Nat × Nat)) := do
  let chunkClass ← micaAllocSizeToClassRoundup minimumChunkSize
  match findClass alloc chunkClass with
  | none => return none
  | some chunkClass =>
    let chunkStart := alloc.freeHead chunkClass
    check (tagStatus (load64 alloc.mem chunkStart) = free) .fromHeadStatus
    let chunkSize := tagSize (load64 alloc.mem chunkStart)
    check (chunkSize ≥ minimumChunkSize) .fromHeadSize
    check (load64 alloc.mem chunkStart = load64 alloc.mem (chunkStart + chunkSize - 8))
      .fromHeadTags
    let alloc ← micaAllocRemoveFreeChunkFromFreeList alloc chunkStart chunkSize
    return some (alloc, chunkStart, chunkSize)

def micaAllocReset (alloc : MicaAlloc) : Except Assert MicaAlloc :=
  micaAllocInsertFreeChunk { alloc with freeHead := fun _ => null } alloc.data alloc.size

/-- Initialise an allocator of `size` bytes at the address `data` that
`malloc` returned, in a memory `mem`. -/
def micaAllocInit (mem : Mem) (data size numaNode : Nat) : Except Assert MicaAlloc := do
  check (size ≤ maxSize) .initSize
  check (numaNode ≤ 7) .initNumaNode
  let size := roundup2M size
  check (size ≤ maxSize) .initSize
  check (data ≠ null) .initData
  micaAllocReset { size, data, freeHead := fun _ => null, mem := memset mem data 0 size }

/-! ## Coalescing -/

def micaAllocCoaleseFreeChunkLeft (alloc : MicaAlloc) (chunkStart chunkSize : Nat) :
    Except Assert (MicaAlloc × Nat × Nat) := do
  if chunkStart = alloc.data then
    return (alloc, chunkStart, chunkSize)
  check (chunkStart > alloc.data) .leftAboveData
  if tagStatus (load64 alloc.mem (chunkStart - 8)) = occupied then
    return (alloc, chunkStart, chunkSize)
  let adjChunkSize := tagSize (load64 alloc.mem (chunkStart - 8))
  let adjChunkStart := chunkStart - adjChunkSize
  check (load64 alloc.mem adjChunkStart = load64 alloc.mem (adjChunkStart + adjChunkSize - 8))
    .leftTags
  let alloc ← micaAllocRemoveFreeChunkFromFreeList alloc adjChunkStart adjChunkSize
  return (alloc, adjChunkStart, chunkSize + adjChunkSize)

def micaAllocCoaleseFreeChunkRight (alloc : MicaAlloc) (chunkStart chunkSize : Nat) :
    Except Assert (MicaAlloc × Nat × Nat) := do
  if chunkStart + chunkSize = alloc.data + alloc.size then
    return (alloc, chunkStart, chunkSize)
  check (chunkStart + chunkSize < alloc.data + alloc.size) .rightBelowEnd
  if tagStatus (load64 alloc.mem (chunkStart + chunkSize)) = occupied then
    return (alloc, chunkStart, chunkSize)
  let adjChunkStart := chunkStart + chunkSize
  let adjChunkSize := tagSize (load64 alloc.mem adjChunkStart)
  check (load64 alloc.mem adjChunkStart = load64 alloc.mem (adjChunkStart + adjChunkSize - 8))
    .rightTags
  let alloc ← micaAllocRemoveFreeChunkFromFreeList alloc adjChunkStart adjChunkSize
  return (alloc, chunkStart, chunkSize + adjChunkSize)

/-! ## The two entry points -/

/-- Set the tag on either end of a chunk and the `item_size` field of the
item in it, as `mica_alloc_allocate` does last. -/
def occupyChunk (alloc : MicaAlloc) (chunkStart chunkSize itemSize : Nat) : MicaAlloc :=
  let tag := tagVec chunkSize occupied
  let mem := store64 (store64 alloc.mem (chunkStart + chunkSize - 8) tag) chunkStart tag
  { alloc with mem := store64 mem (chunkStart + 8) itemSize }

def micaAllocAllocate (alloc : MicaAlloc) (itemSize : UInt32) :
    Except Assert (MicaAlloc × Nat) := do
  check (itemSize.toNat > 8) .allocateItemSize
  let minimumChunkSize := roundup8 itemSize.toNat + overhead
  match ← micaAllocRemoveFreeChunkFromHead alloc minimumChunkSize with
  | none => return (alloc, insufficientSpace)
  | some (alloc, chunkStart, chunkSize) =>
    let leftoverChunkSize := chunkSize - minimumChunkSize
    if leftoverChunkSize ≥ minSize then
      let alloc ← micaAllocInsertFreeChunk alloc (chunkStart + minimumChunkSize) leftoverChunkSize
      return (occupyChunk alloc chunkStart minimumChunkSize itemSize.toNat,
        chunkStart + 8 - alloc.data)
    else
      return (occupyChunk alloc chunkStart chunkSize itemSize.toNat, chunkStart + 8 - alloc.data)

/-- `mica_alloc_get_item`. -/
def micaAllocGetItem (alloc : MicaAlloc) (allocOffset : Nat) : Nat := alloc.data + allocOffset

def micaAllocDeallocate (alloc : MicaAlloc) (allocOffset : Nat) : Except Assert MicaAlloc := do
  let chunkStart := micaAllocGetItem alloc allocOffset - 8
  check (tagStatus (load64 alloc.mem chunkStart) = occupied) .deallocateStatus
  let chunkSize := tagSize (load64 alloc.mem chunkStart)
  let (alloc, chunkStart, chunkSize) ← micaAllocCoaleseFreeChunkLeft alloc chunkStart chunkSize
  let (alloc, chunkStart, chunkSize) ← micaAllocCoaleseFreeChunkRight alloc chunkStart chunkSize
  micaAllocInsertFreeChunk alloc chunkStart chunkSize

end RdmaBench.Alloc.Model
