import Gpcl.Storage.Basic

/-! # pool

A pool keeps its chunks in a `simple_segregated_storage` and chains the blocks it
obtained from the user allocator through a trailer at the end of each block: the
`block_info` of the block before it. The methods run under the pool's mutex, so
each of them is one step here. The user allocator is an argument of the methods
that may ask it for a block: a function from the requested size to the pointer it
returns, null for a refusal. `obtained` records its answers and is read by no
method. `size_type` arithmetic is modulo `addressSpace`, and `none` is a call that
does not return. -/
namespace Gpcl
open Lib.Memory

structure BlockInfo where
  ptr : Nat
  size : Nat
deriving DecidableEq, Repr

structure Pool where
  requestedSize : Nat
  chunkSize : Nat
  nextSize : Nat
  blockList : BlockInfo
  storage : Storage
  obtained : List Region

namespace Pool

def sizeofBlockInfo : Nat := 16
def alignofBlockInfo : Nat := 8

/-- The constructor, in a memory `m`. -/
def new (requestedSize : Nat) (m : Mem) : Option Pool := do
  guard (requestedSize ≠ 0)
  pure { requestedSize
         chunkSize := Nat.lcm requestedSize (Nat.lcm wordSize wordSize)
         nextSize := 32
         blockList := ⟨0, 0⟩
         storage := ⟨m, 0⟩
         obtained := [] }

def blockInfoOffset (blockSize : Nat) : Nat :=
  (addressSpace - sizeofBlockInfo + blockSize) % addressSpace / alignofBlockInfo * alignofBlockInfo

/-- The `block_info` stored at `a`. -/
def loadInfo (m : Mem) (a : Nat) : BlockInfo := ⟨loadWord m a, loadWord m (a + wordSize)⟩

def storeInfo (m : Mem) (a : Nat) (b : BlockInfo) : Mem :=
  storeWord (storeWord m a b.ptr) (a + wordSize) b.size

/-- The entry behind `b` in the chain of blocks, read from the trailer of `b`. -/
def nextInfo (m : Mem) (b : BlockInfo) : BlockInfo := loadInfo m (b.ptr + blockInfoOffset b.size)

/-- The loop of the destructor: the pointers handed to `user_allocator_type::free`, in
order. `release` is what the user allocator does to the memory of a block it takes back. -/
def destroyLoop (release : Mem → Region → Mem) (m : Mem) (block : BlockInfo) : Option (List Nat) :=
  if block.ptr = 0 then some []
  else do
    let next := nextInfo m block
    let rest : List Nat ←
      by apply destroyLoop; exacts [release, release m ⟨block.ptr, block.size⟩, next]
    pure (block.ptr :: rest)
partial_fixpoint

def destroy (release : Mem → Region → Mem) (s : Pool) : Option (List Nat) :=
  destroyLoop release s.storage.mem s.blockList

def addBlock (s : Pool) (ptr sz : Nat) (stop : BlockInfo) (ordered : Bool) :
    Option (Pool × BlockInfo) := do
  let chunksSize := blockInfoOffset sz
  let storage ←
    if ordered then s.storage.addOrderedBlock ptr chunksSize s.chunkSize
    else s.storage.addBlock ptr chunksSize s.chunkSize
  let storage := { storage with mem := storeInfo storage.mem (ptr + chunksSize) stop }
  pure ({ s with storage }, ⟨ptr, sz⟩)

/-- The sizing loop of `request_new_block`. -/
def growSize (target sz : Nat) : Option Nat :=
  if sz < target then by apply growSize; exacts [target, sz * 2 % addressSpace] else some sz
partial_fixpoint

def requestNewBlock (s : Pool) (ua : Nat → Nat) (minSize : Nat) (ordered : Bool) :
    Option (Pool × Bool) := do
  let sz ← growSize ((minSize + sizeofBlockInfo * 2) % addressSpace)
    (s.nextSize * s.chunkSize % addressSpace)
  let s := { s with nextSize := s.nextSize * 2 % addressSpace }
  let block := ua sz
  if block = 0 then pure (s, false)
  else do
    let s := { s with obtained := ⟨block, sz⟩ :: s.obtained }
    let (s, info) ← s.addBlock block sz s.blockList ordered
    let s := { s with blockList := info }
    guard (s.storage.empty = false)
    pure (s, true)

def mallocFromStorage (s : Pool) : Option (Pool × Nat) := do
  let (storage, p) ← s.storage.malloc
  pure ({ s with storage }, p)

/-- `malloc()`, and `ordered_malloc()` with the flag set. -/
def mallocOne (s : Pool) (ua : Nat → Nat) (ordered : Bool) : Option (Pool × Nat) :=
  if s.storage.empty then do
    let (s, ok) ← s.requestNewBlock ua s.chunkSize ordered
    if ok then s.mallocFromStorage else pure (s, 0)
  else s.mallocFromStorage

def malloc (s : Pool) (ua : Nat → Nat) : Option (Pool × Nat) := s.mallocOne ua false

def orderedMalloc (s : Pool) (ua : Nat → Nat) : Option (Pool × Nat) := s.mallocOne ua true

def chunkCount (s : Pool) (n : Nat) : Option Nat := do
  let arraySize := n * s.requestedSize % addressSpace
  let ret := (addressSpace - 1 + (arraySize + s.chunkSize)) % addressSpace / s.chunkSize
  guard (ret * s.chunkSize % addressSpace ≥ n * s.requestedSize % addressSpace)
  pure ret

/-- `ordered_malloc(n)`. -/
def orderedMallocN (s : Pool) (ua : Nat → Nat) (n : Nat) : Option (Pool × Nat) := do
  guard (n ≠ 0)
  let count ← s.chunkCount n
  let (storage, p) ← s.storage.mallocN count s.chunkSize
  let s := { s with storage }
  if p ≠ 0 then pure (s, p)
  else do
    let (s, _) ← s.requestNewBlock ua (count * s.chunkSize % addressSpace) true
    let (storage, p) ← s.storage.mallocN count s.chunkSize
    pure ({ s with storage }, p)

def free (s : Pool) (ptr : Nat) : Option Pool := do
  let storage ← s.storage.free ptr
  pure { s with storage }

def orderedFree (s : Pool) (ptr : Nat) : Option Pool := do
  let storage ← s.storage.orderedFree ptr
  pure { s with storage }

/-- `ordered_free(ptr, n)`. -/
def orderedFreeN (s : Pool) (ptr n : Nat) : Option Pool := do
  let count ← s.chunkCount n
  let storage ← s.storage.orderedFreeN ptr count s.chunkSize
  pure { s with storage }

def setNextSize (s : Pool) (nextSize : Nat) : Option Pool := do
  guard (nextSize ≠ 0)
  pure { s with nextSize }

/-- The loop of `is_from`. -/
def isFromLoop (chunkSize : Nat) (m : Mem) (ptr : Nat) (block : BlockInfo) : Option Bool :=
  if block.ptr = 0 then some false
  else if block.ptr ≤ ptr ∧ ptr < block.ptr + blockInfoOffset block.size then
    some ((ptr - block.ptr) % chunkSize == 0)
  else by apply isFromLoop; exacts [chunkSize, m, ptr, nextInfo m block]
partial_fixpoint

def isFrom (s : Pool) (ptr : Nat) : Option Bool :=
  isFromLoop s.chunkSize s.storage.mem ptr s.blockList

end Pool

end Gpcl
