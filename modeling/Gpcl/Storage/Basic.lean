import Gpcl.Lib.Memory

/-! # simple_segregated_storage

The class keeps one pointer, the head of a free list whose links are the first
words of the free chunks themselves. The model is that pointer and the memory
the list is threaded through. A `void_pointer &` or `void_pointer *` of the
source is a `Link`: the head or the first word of a chunk.

The loops of the source run until they meet a null link or the end of a block,
so they are partial: `none` is a call that does not return, because a loop runs
forever or an assertion stops the program. Pointers are natural numbers, null
is 0, and `size_type` arithmetic is modulo `addressSpace`. -/
namespace Gpcl
open Lib.Memory

structure Storage where
  mem : Mem
  freeList : Nat

namespace Storage

/-- Where a link of the free list is stored. -/
inductive Link
  | head
  | next (chunk : Nat)
deriving DecidableEq, Repr

/-- `next_chunk(chunk)`, read. -/
def nextChunk (s : Storage) (chunk : Nat) : Nat := loadWord s.mem chunk

def get (s : Storage) : Link → Nat
  | .head => s.freeList
  | .next chunk => s.nextChunk chunk

def set (s : Storage) : Link → Nat → Storage
  | .head, p => { s with freeList := p }
  | .next chunk, p => { s with mem := storeWord s.mem chunk p }

def empty (s : Storage) : Bool := s.freeList == 0

/-- The loop of `segregate`; its result is the last chunk. -/
def segregateLoop (partitionSz blockEnd : Nat) (s : Storage) (chunk : Nat) :
    Option (Storage × Nat) :=
  if chunk + partitionSz < blockEnd then
    let s := s.set (.next chunk) (chunk + partitionSz)
    s |>.segregateLoop partitionSz blockEnd (s.nextChunk chunk)
  else some (s, chunk)
partial_fixpoint

def segregate (s : Storage) (block sz partitionSz stop : Nat) : Option (Storage × Nat) := do
  guard (block ≠ 0)
  guard (partitionSz ≤ sz)
  let (s, chunk) ← segregateLoop partitionSz (block + sz - partitionSz) s block
  pure (s.set (.next chunk) stop, block)

def addBlock (s : Storage) (block sz partitionSz : Nat) : Option Storage := do
  let (s, p) ← s.segregate block sz partitionSz s.freeList
  let s := s.set .head p
  guard (s.freeList ≠ 0)
  pure s

/-- The loop of `upper_bound`. The head of the list is never compared with `p`:
the first link looked at is the one stored in the first chunk. -/
def upperBoundLoop (s : Storage) (p : Nat) (pp : Link) : Option Link :=
  if s.get pp = 0 then some pp
  else
    let next := Link.next (s.get pp)
    if p < s.get next then some next else s |>.upperBoundLoop p next
partial_fixpoint

def upperBound (s : Storage) (p : Nat) : Option Link := upperBoundLoop s p .head

def addOrderedBlock (s : Storage) (block sz partitionSz : Nat) : Option Storage := do
  let pos ← s.upperBound block
  let (s, p) ← s.segregate block sz partitionSz (s.get pos)
  let s := s.set pos p
  guard (s.freeList ≠ 0)
  pure s

def malloc (s : Storage) : Option (Storage × Nat) := do
  guard (s.empty = false)
  pure (s.set .head (s.nextChunk s.freeList), s.freeList)

/-- `reinterpret_cast<char *>(q) - reinterpret_cast<char *>(p)` as a 64-bit word;
two differences are equal as `ptrdiff_t` exactly when these words are. -/
def ptrDiff (q p : Nat) : Nat := (q + (addressSpace - p)) % addressSpace

/-- The loop of `malloc_n`: `m` links in a row were `partitionSz` bytes long. -/
def mallocNLoop (n partitionSz : Nat) (s : Storage) (p start : Link) (m : Nat) :
    Option (Storage × Nat) :=
  if s.get p = 0 then some (s, 0)
  else
    let chunk := s.get p
    if ptrDiff (s.nextChunk chunk) chunk ≠ partitionSz % addressSpace then
      s |>.mallocNLoop n partitionSz (.next chunk) (.next chunk) 0
    else
      let m := (m + 1) % addressSpace
      if m = n then some (s.set start (s.get (.next chunk)), s.get start)
      else s |>.mallocNLoop n partitionSz (.next chunk) start m
partial_fixpoint

def mallocN (s : Storage) (n partitionSz : Nat) : Option (Storage × Nat) :=
  mallocNLoop n partitionSz s .head .head 0

def free (s : Storage) (chunk : Nat) : Option Storage := do
  guard (chunk ≠ 0)
  let s := s.set (.next chunk) s.freeList
  pure (s.set .head chunk)

def freeN (s : Storage) (chunk partitionSz n : Nat) : Option Storage :=
  s.addBlock chunk (partitionSz * n % addressSpace) partitionSz

def orderedFree (s : Storage) (chunk : Nat) : Option Storage := do
  let pos ← s.upperBound chunk
  guard (chunk ≠ 0)
  let s := s.set (.next chunk) (s.get pos)
  pure (s.set pos chunk)

def orderedFreeN (s : Storage) (chunk n partitionSz : Nat) : Option Storage :=
  s.addOrderedBlock chunk (partitionSz * n % addressSpace) partitionSz

def reset (s : Storage) : Storage := s.set .head 0

end Storage

end Gpcl
