import Gpcl.Lib.Memory
import Gpcl.Lib.Bitmap

/-! # tlsf

The allocator with two levels of free lists, for 64 bits, as far as `tlsf_resource` calls it. A
block is named by the address of its memory, `block_to_ptr`, and `headers` has the header under that
address; the block behind it begins after its memory and one more word. A header is there from the
time the block is made until another block absorbs it. What clients write into their blocks is not
recorded: of the fields that share memory with them none is read meanwhile. The free lists are lists
here. `std::size_t` arithmetic is modulo `addressSpace`.

`none` is a call that does not return: an assertion fails, `GPCL_UNREACHABLE` is reached, or
something is read that is not there. -/
namespace Gpcl
open Lib.Memory Lib.Bitmap

namespace Tlsf

def alignSize : Nat := 8
def slIndexCountLog2 : Nat := 5
def slIndexCount : Nat := 32
def flIndexMax : Nat := 32
def flIndexShift : Nat := 8
def flIndexCount : Nat := 25
def smallBlockSize : Nat := 256

def sizeofBlockHeader : Nat := 32
def blockHeaderOverhead : Nat := 8
def blockSizeMin : Nat := 24
def blockSizeMax : Nat := 2 ^ flIndexMax
def poolOverhead : Nat := 2 * blockHeaderOverhead
def sizeofControl : Nat := 6536

/-- `prevPhys` is the block before this one, if `prevFree`. -/
structure Header where
  prevPhys : Nat
  size : Nat
  free : Bool
  prevFree : Bool
deriving DecidableEq, Repr

structure Control where
  headers : Nat → Option Header
  flBitmap : BitVec 32
  slBitmap : Nat → BitVec 32
  blocks : Nat → Nat → List Nat

/-! ## Sizes -/

/-- The index of the highest bit of a word that is not 0. -/
def fls (word : Nat) : Nat := word.log2

def flsSizet (size : Nat) : Nat :=
  let high := size / 2 ^ 32
  if high ≠ 0 then 32 + fls high else fls (size % 2 ^ 32)

/-- For an `align` that is a power of two. -/
def alignUp (x align : Nat) : Nat :=
  let y := (x + (align - 1)) % addressSpace
  y - y % align

def alignDown (x align : Nat) : Nat := x - x % align

def alignPtr (ptr align : Nat) : Nat := alignUp ptr align

def adjustRequestSize (size align : Nat) : Nat :=
  if size ≠ 0 then
    let aligned := alignUp size align
    if aligned < blockSizeMax then max aligned blockSizeMin else 0
  else 0

/-- The first and the second index of the list for blocks of a size. -/
def mappingInsert (size : Nat) : Nat × Nat :=
  if size < smallBlockSize then (0, size / (smallBlockSize / slIndexCount))
  else
    let fl := flsSizet size
    (fl - (flIndexShift - 1), size >>> (fl - slIndexCountLog2) ^^^ 1 <<< slIndexCountLog2)

/-- The first list whose blocks all have the size. -/
def mappingSearch (size : Nat) : Nat × Nat :=
  if smallBlockSize ≤ size
    then mappingInsert (size + (1 <<< (flsSizet size - slIndexCountLog2) - 1))
  else mappingInsert size

namespace Control

/-! ## Free lists -/

def setList (c : Control) (fl sl : Nat) (l : List Nat) : Control :=
  { c with blocks := Function.update c.blocks fl (Function.update (c.blocks fl) sl l) }

/-- The first block of a list, with the indices of the list. -/
def firstOf (c : Control) (fl sl : Nat) : Option (Option (Nat × Nat × Nat)) := do
  let q ← (c.blocks fl sl).head?
  pure (some (q, fl, sl))

/-- An inner `none`: there is no such block. -/
def searchSuitableBlock (c : Control) (fl sl : Nat) : Option (Option (Nat × Nat × Nat)) :=
  let slMap := upFrom (c.slBitmap fl) sl
  if slMap ≠ 0 then c.firstOf fl (lowest slMap)
  else
    let flMap := upFrom c.flBitmap (fl + 1)
    if flMap = 0 then some none
    else do
      let fl := lowest flMap
      let slMap := c.slBitmap fl
      guard (slMap ≠ 0)
      c.firstOf fl (lowest slMap)

/-- The bits are cleared when the list has become empty. -/
def removeFreeBlock (c : Control) (q fl sl : Nat) : Option Control := do
  guard (q ∈ c.blocks fl sl)
  let c := c.setList fl sl ((c.blocks fl sl).erase q)
  if c.blocks fl sl = [] then
    let c := { c with
      slBitmap := Function.update c.slBitmap fl (c.slBitmap fl &&& ~~~ single 32 sl) }
    pure (if c.slBitmap fl = 0 then { c with flBitmap := c.flBitmap &&& ~~~ single 32 fl } else c)
  else pure c

def insertFreeBlock (c : Control) (q fl sl : Nat) : Option Control := do
  guard (fl < flIndexCount)
  guard (q = alignPtr q alignSize)
  let c := c.setList fl sl (q :: c.blocks fl sl)
  pure { c with flBitmap := c.flBitmap ||| single 32 fl
                slBitmap := Function.update c.slBitmap fl (c.slBitmap fl ||| single 32 sl) }

def blockRemove (c : Control) (q : Nat) : Option Control := do
  let h ← c.headers q
  let (fl, sl) := mappingInsert h.size
  c.removeFreeBlock q fl sl

def blockInsert (c : Control) (q : Nat) : Option Control := do
  let h ← c.headers q
  let (fl, sl) := mappingInsert h.size
  c.insertFreeBlock q fl sl

/-- An inner `none`: no block is large enough. -/
def blockLocateFree (c : Control) (size : Nat) : Option (Control × Option Nat) :=
  if size = 0 then some (c, none)
  else
    let (fl, sl) := mappingSearch size
    if fl < flIndexCount then do
      match ← c.searchSuitableBlock fl sl with
      | none => pure (c, none)
      | some (q, fl, sl) => do
        let h ← c.headers q
        guard (size ≤ h.size)
        let c ← c.removeFreeBlock q fl sl
        pure (c, some q)
    else some (c, none)

/-! ## Blocks -/

def setHeader (c : Control) (q : Nat) (h : Header) : Control :=
  { c with headers := Function.update c.headers q (some h) }

def modify (c : Control) (q : Nat) (f : Header → Header) : Option Control := do
  let h ← c.headers q
  pure (c.setHeader q (f h))

def blockNext (c : Control) (q : Nat) : Option Nat := do
  let h ← c.headers q
  guard (h.size ≠ 0)
  pure (q + h.size + blockHeaderOverhead)

def blockLinkNext (c : Control) (q : Nat) : Option (Control × Nat) := do
  let next ← c.blockNext q
  let c ← c.modify next fun h => { h with prevPhys := q }
  pure (c, next)

def blockMarkAsFree (c : Control) (q : Nat) : Option Control := do
  let (c, next) ← c.blockLinkNext q
  let c ← c.modify next fun h => { h with prevFree := true }
  c.modify q fun h => { h with free := true }

def blockMarkAsUsed (c : Control) (q : Nat) : Option Control := do
  let next ← c.blockNext q
  let c ← c.modify next fun h => { h with prevFree := false }
  c.modify q fun h => { h with free := false }

def blockCanSplit (h : Header) (size : Nat) : Bool :=
  decide ((sizeofBlockHeader + size) % addressSpace ≤ h.size)

/-- The second block is free; the flag that says so of the first one is left to the caller. -/
def blockSplit (c : Control) (q size : Nat) : Option (Control × Nat) := do
  let h ← c.headers q
  let remaining := q + size + blockHeaderOverhead
  let remainSize := h.size - (size + blockHeaderOverhead)
  guard (remaining = alignPtr remaining alignSize)
  guard (h.size = remainSize + size + blockHeaderOverhead)
  guard (blockSizeMin ≤ remainSize)
  let c := c.setHeader remaining ⟨0, remainSize, false, false⟩
  let c := c.setHeader q { h with size }
  let c ← c.blockMarkAsFree remaining
  pure (c, remaining)

def blockAbsorb (c : Control) (prev q : Nat) : Option Control := do
  let hp ← c.headers prev
  guard (hp.size ≠ 0)
  let h ← c.headers q
  let c := { c with headers := Function.update c.headers q none }
  let c := c.setHeader prev { hp with size := hp.size + h.size + blockHeaderOverhead }
  let (c, _) ← c.blockLinkNext prev
  pure c

/-- The block that the merged one is known by. -/
def blockMergePrev (c : Control) (q : Nat) : Option (Control × Nat) := do
  let h ← c.headers q
  if h.prevFree then do
    let hp ← c.headers h.prevPhys
    guard (hp.free = true)
    let c ← c.blockRemove h.prevPhys
    let c ← c.blockAbsorb h.prevPhys q
    pure (c, h.prevPhys)
  else pure (c, q)

def blockMergeNext (c : Control) (q : Nat) : Option (Control × Nat) := do
  let next ← c.blockNext q
  let hn ← c.headers next
  if hn.free then do
    let c ← c.blockRemove next
    let c ← c.blockAbsorb q next
    pure (c, q)
  else pure (c, q)

def blockTrimFree (c : Control) (q size : Nat) : Option Control := do
  let h ← c.headers q
  guard (h.free = true)
  if blockCanSplit h size then do
    let (c, remaining) ← c.blockSplit q size
    let (c, _) ← c.blockLinkNext q
    let c ← c.modify remaining fun h => { h with prevFree := true }
    c.blockInsert remaining
  else pure c

/-- The block that is left, the second one if there are two. -/
def blockTrimFreeLeading (c : Control) (q size : Nat) : Option (Control × Nat) := do
  let h ← c.headers q
  if blockCanSplit h size then do
    let (c, remaining) ← c.blockSplit q (size - blockHeaderOverhead)
    let c ← c.modify remaining fun h => { h with prevFree := true }
    let (c, _) ← c.blockLinkNext q
    let c ← c.blockInsert q
    pure (c, remaining)
  else pure (c, q)

def blockPrepareUsed (c : Control) (block : Option Nat) (size : Nat) : Option (Control × Nat) :=
  match block with
  | none => some (c, 0)
  | some q => do
    guard (size ≠ 0)
    let c ← c.blockTrimFree q size
    let c ← c.blockMarkAsUsed q
    pure (c, q)

/-! ## The interface -/

/-- `control_construct`. -/
def construct : Control := ⟨fun _ => none, 0, fun _ => 0, fun _ _ => []⟩

/-- `tlsf_create`. `none`: null. -/
def create (mem : Nat) : Option Control := if mem % alignSize ≠ 0 then none else some construct

/-- `pool_bytes`, the size of the first block of a new pool. -/
def poolBytes (bytes : Nat) : Nat :=
  alignDown ((bytes + (addressSpace - poolOverhead)) % addressSpace) alignSize

/-- `tlsf_add_pool`. The header of the first block begins before the pool, that of the last one ends
with it. -/
def addPool (c : Control) (mem bytes : Nat) : Option (Control × Nat) :=
  if mem % alignSize ≠ 0 then some (c, 0)
  else do
    guard (blockSizeMin ≤ poolBytes bytes ∧ poolBytes bytes ≤ blockSizeMax)
    let q := mem + blockHeaderOverhead
    let c := c.setHeader q ⟨0, poolBytes bytes, true, false⟩
    let c ← c.blockInsert q
    let next ← c.blockNext q
    pure (c.setHeader next ⟨q, 0, false, true⟩, mem)

/-- `tlsf_create_with_pool`. A pool at a null control is refused, since its memory is not aligned
either. -/
def createWithPool (mem bytes : Nat) : Option (Option Control) :=
  match create mem with
  | none => some none
  | some c => do
    let (c, _) ←
      c.addPool (mem + sizeofControl) ((bytes + (addressSpace - sizeofControl)) % addressSpace)
    pure (some c)

end Control

/-- What `tlsf_memalign` looks for: a request for 0 bytes, or for more than there can be, looks for
0. -/
def alignedSize (align size : Nat) : Nat :=
  let adjust := adjustRequestSize size alignSize
  let sizeWithGap := adjustRequestSize ((adjust + align + sizeofBlockHeader) % addressSpace) align
  if adjust ≠ 0 ∧ align > alignSize then sizeWithGap else adjust

/-- The distance from `ptr` to the memory that is given out: none, or enough for a block. -/
def gapBefore (ptr align : Nat) : Nat :=
  let aligned := alignPtr ptr align
  let gap := (aligned + (addressSpace - ptr)) % addressSpace
  if gap ≠ 0 ∧ gap < sizeofBlockHeader then
    let gapRemain := sizeofBlockHeader - gap
    let offset := max gapRemain align
    let aligned := alignPtr ((aligned + offset) % addressSpace) align
    (aligned + (addressSpace - ptr)) % addressSpace
  else gap

namespace Control

/-- `tlsf_memalign`. `align_up` asserts that the alignment is a power of two. -/
def memalign (c : Control) (align size : Nat) : Option (Control × Nat) := do
  guard (align &&& (align - 1) = 0)
  let adjust := adjustRequestSize size alignSize
  let (c, block) ← c.blockLocateFree (alignedSize align size)
  match block with
  | none => c.blockPrepareUsed none adjust
  | some q =>
    let gap := gapBefore q align
    if gap ≠ 0 then do
      guard (sizeofBlockHeader ≤ gap)
      let (c, q) ← c.blockTrimFreeLeading q gap
      c.blockPrepareUsed (some q) adjust
    else c.blockPrepareUsed (some q) adjust

/-- `tlsf_free`. -/
def free (c : Control) (p : Nat) : Option Control :=
  if p = 0 then some c
  else do
    let h ← c.headers p
    guard (h.free = false)
    let c ← c.blockMarkAsFree p
    let (c, q) ← c.blockMergePrev p
    let (c, q) ← c.blockMergeNext q
    c.blockInsert q

end Control

end Tlsf

end Gpcl
