import Gpcl.Lib.Memory

/-! # monotonic_buffer_resource

The resource hands out memory from the front of a window, `buffer`. When the window
is too small it asks upstream for a larger block and chains it in front of the blocks
it already holds through a `block_info` behind the usable bytes of the block.

An upstream resource is an argument of the methods that may call it: a function from a
size and an alignment to the pointer it returns, `none` if it throws. `held` records
what was obtained and not yet returned; no method reads it. `std::size_t` arithmetic is
modulo `addressSpace`. An outer `none` is a call that does not return, because an
assertion stops the program or a loop runs forever. -/
namespace Gpcl
open Lib.Memory

namespace Pmr

/-- `mutable_buffer::operator+=`. -/
def advance (b : Region) (bytes : Nat) : Region :=
  if b.size > bytes then ⟨b.base + bytes, b.size - bytes⟩ else ⟨0, 0⟩

structure BlockInfo where
  ptr : Nat
  size : Nat
  alignment : Nat
deriving DecidableEq, Repr

/-- A block obtained from upstream, with the size and the alignment it was asked for. -/
structure Grant where
  ptr : Nat
  bytes : Nat
  alignment : Nat
deriving DecidableEq, Repr

/-- What upstream did with an `allocate`: the pointer, or an exception. -/
abbrev Upstream := Nat → Nat → Option Nat

structure Monotonic where
  buffer : Region
  nextBufferBytes : Nat
  blockList : BlockInfo
  mem : Mem
  held : List Grant

namespace Monotonic

def sizeofBlockInfo : Nat := 24
def maxAlign : Nat := 16
def sizeofMaxAlign : Nat := 32

def loadInfo (m : Mem) (a : Nat) : BlockInfo :=
  ⟨loadWord m a, loadWord m (a + wordSize), loadWord m (a + wordSize + wordSize)⟩

def storeInfo (m : Mem) (a : Nat) (b : BlockInfo) : Mem :=
  storeWord (storeWord (storeWord m a b.ptr) (a + wordSize) b.size)
    (a + wordSize + wordSize) b.alignment

/-- The entry behind `b` in the chain of blocks. -/
def nextInfo (m : Mem) (b : BlockInfo) : BlockInfo := loadInfo m ((b.size + b.ptr) % addressSpace)

/-- The pointer is null when the window is too small; the window may have moved all the same. -/
def allocFromBuffer (s : Monotonic) (bytes alignment : Nat) : Monotonic × Nat :=
  let off := s.buffer.base % alignment
  let off := (alignment - off) % alignment
  if off > s.buffer.size then (s, 0)
  else
    let s := { s with buffer := advance s.buffer off }
    if s.buffer.size < bytes then (s, 0)
    else ({ s with buffer := advance s.buffer bytes }, s.buffer.base)

/-- `false`: upstream threw. -/
def requestFromUpstream (s : Monotonic) (up : Upstream) : Option (Monotonic × Bool) :=
  let bytes := (sizeofBlockInfo + s.nextBufferBytes) % addressSpace
  match up bytes maxAlign with
  | none => some (s, false)
  | some p => do
    guard (p % maxAlign = 0)
    pure ({ buffer := ⟨p, s.nextBufferBytes⟩
            nextBufferBytes := s.nextBufferBytes * 2 % addressSpace
            blockList := ⟨p, s.nextBufferBytes, maxAlign⟩
            mem := storeInfo s.mem ((s.nextBufferBytes + p) % addressSpace) s.blockList
            held := ⟨p, bytes, maxAlign⟩ :: s.held }, true)

/-- The size of the next block when `bytes` are asked for. -/
def growTo (nextBufferBytes bytes : Nat) : Nat :=
  if nextBufferBytes < bytes then
    (sizeofMaxAlign - 1 + bytes) % addressSpace / sizeofMaxAlign * sizeofMaxAlign
  else nextBufferBytes

/-- `none` in the second component: upstream threw. -/
def doAllocate (s : Monotonic) (up : Upstream) (bytes alignment : Nat) :
    Option (Monotonic × Option Nat) :=
  let (s, ret) := s.allocFromBuffer bytes alignment
  if ret ≠ 0 then some (s, some ret)
  else do
    let s := { s with nextBufferBytes := growTo s.nextBufferBytes bytes }
    let (s, ok) ← s.requestFromUpstream up
    if ok then
      let (s, ret) := s.allocFromBuffer bytes alignment
      pure (s, some ret)
    else pure (s, none)

/-- `memory_resource::allocate`. -/
def allocate (s : Monotonic) (up : Upstream) (bytes alignment : Nat) :
    Option (Monotonic × Option Nat) := do
  let (s, ret) ← s.doAllocate up bytes alignment
  guard (ret.getD 0 % alignment = 0)
  pure (s, ret)

/-- `memory_resource::deallocate`; `do_deallocate` does nothing. -/
def deallocate (s : Monotonic) (p alignment : Nat) : Option Monotonic := do
  guard (p % alignment = 0)
  pure s

/-- The loop of `release`: the blocks given back in order, and the entry it ends with. `give`
is what upstream does to the memory of a block it takes back. -/
def releaseLoop (give : Mem → Region → Mem) (m : Mem) (b : BlockInfo) :
    Option (List Grant × Mem × BlockInfo) :=
  if b.ptr = 0 then some ([], m, b)
  else do
    let next := nextInfo m b
    let bytes := (sizeofBlockInfo + b.size) % addressSpace
    guard (b.ptr % b.alignment = 0)
    let (freed, m, b') : List Grant × Mem × BlockInfo ←
      by apply releaseLoop; exacts [give, give m ⟨b.ptr, bytes⟩, next]
    pure (⟨b.ptr, bytes, b.alignment⟩ :: freed, m, b')
partial_fixpoint

def release (give : Mem → Region → Mem) (s : Monotonic) : Option (Monotonic × List Grant) := do
  let (freed, mem, blockList) ← releaseLoop give s.mem s.blockList
  guard (blockList.size = 0)
  pure ({ s with mem, blockList, held := s.held.diff freed }, freed)

/-- The constructor from a user-provided buffer. -/
def ofBuffer (m : Mem) (buffer size : Nat) : Option Monotonic := do
  guard (buffer ≠ 0)
  pure { buffer := ⟨buffer, size⟩, nextBufferBytes := 1024, blockList := ⟨0, 0, 0⟩, mem := m,
         held := [] }

/-- The constructor from the size of the first block; `false`: upstream threw. -/
def ofSize (m : Mem) (up : Upstream) (initialBuffer : Nat) : Option (Monotonic × Bool) := do
  guard (initialBuffer ≠ 0)
  requestFromUpstream { buffer := ⟨0, 0⟩, nextBufferBytes := initialBuffer, blockList := ⟨0, 0, 0⟩,
                        mem := m
                        held := [] } up

/-- The constructor from an upstream resource only. -/
def ofUpstream (m : Mem) (up : Upstream) : Option (Monotonic × Bool) := ofSize m up 1024

end Monotonic

end Pmr

end Gpcl
