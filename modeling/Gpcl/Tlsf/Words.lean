import Gpcl.Tlsf.Resize

/-! # tlsf in memory

The same allocator with its blocks in memory, where clients write as well: the link to the block
before is the last word of that block, the flags are the two low bits of the size, and the links of
the free lists are the first two words of a free block. A block is a pointer to its header, as in
the source. The null block is at the address of the control structure; the other fields of that
structure are not in `mem`. -/
namespace Gpcl.Tlsf
open Lib.Memory Lib.Bitmap

structure Words where
  mem : Mem
  flBitmap : BitVec 32
  slBitmap : Nat → BitVec 32
  blocks : Nat → Nat → Nat

def blockStartOffset : Nat := 16
def blockHeaderFreeBit : Nat := 1
def blockHeaderPrevFreeBit : Nat := 2

/-- A word without the bits of a mask, `word & ~mask`. -/
def clearBits (word mask : Nat) : Nat := word - (word &&& mask)

def blockFromPtr (ptr : Nat) : Nat := ptr - blockStartOffset
def blockToPtr (block : Nat) : Nat := block + blockStartOffset

namespace Words

/-! ## block_header_t -/

def prevPhysBlock (w : Words) (block : Nat) : Nat := loadWord w.mem block
def sizeField (w : Words) (block : Nat) : Nat := loadWord w.mem (block + 8)
def nextFree (w : Words) (block : Nat) : Nat := loadWord w.mem (block + 16)
def prevFree (w : Words) (block : Nat) : Nat := loadWord w.mem (block + 24)

def store (w : Words) (a v : Nat) : Words := { w with mem := storeWord w.mem a v }

def setPrevPhysBlock (w : Words) (block v : Nat) : Words := w.store block v
def setSizeField (w : Words) (block v : Nat) : Words := w.store (block + 8) v
def setNextFree (w : Words) (block v : Nat) : Words := w.store (block + 16) v
def setPrevFree (w : Words) (block v : Nat) : Words := w.store (block + 24) v

def blockSize (w : Words) (block : Nat) : Nat :=
  clearBits (w.sizeField block) (blockHeaderFreeBit ||| blockHeaderPrevFreeBit)

def blockSetSize (w : Words) (block size : Nat) : Words :=
  w.setSizeField block (size |||
    (w.sizeField block &&& (blockHeaderFreeBit ||| blockHeaderPrevFreeBit)))

def blockIsLast (w : Words) (block : Nat) : Bool := decide (w.blockSize block = 0)
def blockIsFree (w : Words) (block : Nat) : Bool :=
  decide (w.sizeField block &&& blockHeaderFreeBit ≠ 0)
def blockSetFree (w : Words) (block : Nat) : Words :=
  w.setSizeField block (w.sizeField block ||| blockHeaderFreeBit)
def blockSetUsed (w : Words) (block : Nat) : Words :=
  w.setSizeField block (clearBits (w.sizeField block) blockHeaderFreeBit)
def blockIsPrevFree (w : Words) (block : Nat) : Bool :=
  decide (w.sizeField block &&& blockHeaderPrevFreeBit ≠ 0)
def blockSetPrevFree (w : Words) (block : Nat) : Words :=
  w.setSizeField block (w.sizeField block ||| blockHeaderPrevFreeBit)
def blockSetPrevUsed (w : Words) (block : Nat) : Words :=
  w.setSizeField block (clearBits (w.sizeField block) blockHeaderPrevFreeBit)

def blockPrev (w : Words) (block : Nat) : Option Nat := do
  guard (w.blockIsPrevFree block = true)
  pure (w.prevPhysBlock block)

def blockNext (w : Words) (block : Nat) : Option Nat := do
  guard (w.blockIsLast block = false)
  pure (blockToPtr block + w.blockSize block - blockHeaderOverhead)

def blockLinkNext (w : Words) (block : Nat) : Option (Words × Nat) := do
  let next ← w.blockNext block
  pure (w.setPrevPhysBlock next block, next)

def blockMarkAsFree (w : Words) (block : Nat) : Option Words := do
  let (w, next) ← w.blockLinkNext block
  let w := w.blockSetPrevFree next
  pure (w.blockSetFree block)

def blockMarkAsUsed (w : Words) (block : Nat) : Option Words := do
  let next ← w.blockNext block
  let w := w.blockSetPrevUsed next
  pure (w.blockSetUsed block)

/-! ## Free lists -/

def setHead (w : Words) (fl sl block : Nat) : Words :=
  { w with blocks := Function.update w.blocks fl (Function.update (w.blocks fl) sl block) }

/-- An inner `none`: there is no such block. -/
def searchSuitableBlock (w : Words) (fl sl : Nat) : Option (Option (Nat × Nat × Nat)) :=
  let slMap := upFrom (w.slBitmap fl) sl
  if slMap ≠ 0 then some (some (w.blocks fl (lowest slMap), fl, lowest slMap))
  else
    let flMap := upFrom w.flBitmap (fl + 1)
    if flMap = 0 then some none
    else do
      let fl := lowest flMap
      let slMap := w.slBitmap fl
      guard (slMap ≠ 0)
      pure (some (w.blocks fl (lowest slMap), fl, lowest slMap))

def removeFreeBlock (null : Nat) (w : Words) (block fl sl : Nat) : Option Words := do
  let prev := w.prevFree block
  let next := w.nextFree block
  guard (prev ≠ 0)
  guard (next ≠ 0)
  let w := w.setPrevFree next prev
  let w := w.setNextFree prev next
  if w.blocks fl sl = block then
    let w := w.setHead fl sl next
    if next = null then
      let w := { w with
        slBitmap := Function.update w.slBitmap fl (w.slBitmap fl &&& ~~~ single 32 sl) }
      pure (if w.slBitmap fl = 0 then { w with flBitmap := w.flBitmap &&& ~~~ single 32 fl } else w)
    else pure w
  else pure w

/-- The array has `flIndexCount` rows. -/
def insertFreeBlock (null : Nat) (w : Words) (block fl sl : Nat) : Option Words := do
  guard (fl < flIndexCount)
  let current := w.blocks fl sl
  guard (current ≠ 0)
  guard (block ≠ 0)
  let w := w.setNextFree block current
  let w := w.setPrevFree block null
  let w := w.setPrevFree current block
  guard (blockToPtr block = alignPtr (blockToPtr block) alignSize)
  let w := w.setHead fl sl block
  pure { w with flBitmap := w.flBitmap ||| single 32 fl
                slBitmap := Function.update w.slBitmap fl (w.slBitmap fl ||| single 32 sl) }

def blockRemove (null : Nat) (w : Words) (block : Nat) : Option Words :=
  let (fl, sl) := mappingInsert (w.blockSize block)
  w.removeFreeBlock null block fl sl

def blockInsert (null : Nat) (w : Words) (block : Nat) : Option Words :=
  let (fl, sl) := mappingInsert (w.blockSize block)
  w.insertFreeBlock null block fl sl

/-- An inner `none`: no block is large enough. -/
def blockLocateFree (null : Nat) (w : Words) (size : Nat) : Option (Words × Option Nat) :=
  if size = 0 then some (w, none)
  else
    let (fl, sl) := mappingSearch size
    if fl < flIndexCount then do
      match ← w.searchSuitableBlock fl sl with
      | none => pure (w, none)
      | some (block, fl, sl) => do
        guard (size ≤ w.blockSize block)
        let w ← w.removeFreeBlock null block fl sl
        pure (w, some block)
    else some (w, none)

/-! ## Blocks -/

def blockCanSplit (w : Words) (block size : Nat) : Bool :=
  decide ((sizeofBlockHeader + size) % addressSpace ≤ w.blockSize block)

def blockSplit (w : Words) (block size : Nat) : Option (Words × Nat) := do
  let remaining := blockToPtr block + size - blockHeaderOverhead
  let remainSize := w.blockSize block - (size + blockHeaderOverhead)
  guard (blockToPtr remaining = alignPtr (blockToPtr remaining) alignSize)
  guard (w.blockSize block = remainSize + size + blockHeaderOverhead)
  let w := w.blockSetSize remaining remainSize
  guard (blockSizeMin ≤ w.blockSize remaining)
  let w := w.blockSetSize block size
  let w ← w.blockMarkAsFree remaining
  pure (w, remaining)

def blockAbsorb (w : Words) (prev block : Nat) : Option Words := do
  guard (w.blockIsLast prev = false)
  let w := w.setSizeField prev (w.sizeField prev + w.blockSize block + blockHeaderOverhead)
  let (w, _) ← w.blockLinkNext prev
  pure w

def blockMergePrev (null : Nat) (w : Words) (block : Nat) : Option (Words × Nat) :=
  if w.blockIsPrevFree block then do
    let prev ← w.blockPrev block
    guard (prev ≠ 0)
    guard (w.blockIsFree prev = true)
    let w ← w.blockRemove null prev
    let w ← w.blockAbsorb prev block
    pure (w, prev)
  else pure (w, block)

def blockMergeNext (null : Nat) (w : Words) (block : Nat) : Option (Words × Nat) := do
  let next ← w.blockNext block
  guard (next ≠ 0)
  if w.blockIsFree next then do
    guard (w.blockIsLast block = false)
    let w ← w.blockRemove null next
    let w ← w.blockAbsorb block next
    pure (w, block)
  else pure (w, block)

def blockTrimFree (null : Nat) (w : Words) (block size : Nat) : Option Words := do
  guard (w.blockIsFree block = true)
  if w.blockCanSplit block size then do
    let (w, remaining) ← w.blockSplit block size
    let (w, _) ← w.blockLinkNext block
    let w := w.blockSetPrevFree remaining
    w.blockInsert null remaining
  else pure w

def blockTrimUsed (null : Nat) (w : Words) (block size : Nat) : Option Words := do
  guard (w.blockIsFree block = false)
  if w.blockCanSplit block size then do
    let (w, remaining) ← w.blockSplit block size
    let w := w.blockSetPrevUsed remaining
    let (w, remaining) ← w.blockMergeNext null remaining
    w.blockInsert null remaining
  else pure w

def blockTrimFreeLeading (null : Nat) (w : Words) (block size : Nat) : Option (Words × Nat) :=
  if w.blockCanSplit block size then do
    let (w, remaining) ← w.blockSplit block (size - blockHeaderOverhead)
    let w := w.blockSetPrevFree remaining
    let (w, _) ← w.blockLinkNext block
    let w ← w.blockInsert null block
    pure (w, remaining)
  else pure (w, block)

def blockPrepareUsed (null : Nat) (w : Words) (block : Option Nat) (size : Nat) :
    Option (Words × Nat) :=
  match block with
  | none => some (w, 0)
  | some block => do
    guard (size ≠ 0)
    let w ← w.blockTrimFree null block size
    let w ← w.blockMarkAsUsed block
    pure (w, blockToPtr block)

/-! ## The interface -/

/-- `control_construct`. -/
def construct (null : Nat) (mem : Mem) : Words :=
  ⟨storeWord (storeWord mem (null + 16) null) (null + 24) null, 0, fun _ => 0, fun _ _ => null⟩

def addPool (null : Nat) (w : Words) (mem bytes : Nat) : Option (Words × Nat) :=
  if mem % alignSize ≠ 0 then some (w, 0)
  else do
    guard (blockSizeMin ≤ Control.poolBytes bytes ∧ Control.poolBytes bytes ≤ blockSizeMax)
    let block := mem - blockHeaderOverhead
    let w := w.blockSetSize block (Control.poolBytes bytes)
    let w := w.blockSetFree block
    let w := w.blockSetPrevUsed block
    let w ← w.blockInsert null block
    let (w, next) ← w.blockLinkNext block
    let w := w.blockSetSize next 0
    let w := w.blockSetUsed next
    pure (w.blockSetPrevFree next, mem)

def removePool (null : Nat) (w : Words) (pool : Nat) : Option Words := do
  let block := pool - blockHeaderOverhead
  guard (w.blockIsFree block = true)
  let next ← w.blockNext block
  guard (w.blockIsFree next = false)
  guard (w.blockSize next = 0)
  let (fl, sl) := mappingInsert (w.blockSize block)
  w.removeFreeBlock null block fl sl

def malloc (null : Nat) (w : Words) (size : Nat) : Option (Words × Nat) := do
  let adjust := adjustRequestSize size alignSize
  let (w, block) ← w.blockLocateFree null adjust
  w.blockPrepareUsed null block adjust

def memalign (null : Nat) (w : Words) (align size : Nat) : Option (Words × Nat) := do
  guard (align &&& (align - 1) = 0)
  let adjust := adjustRequestSize size alignSize
  let (w, block) ← w.blockLocateFree null (alignedSize align size)
  match block with
  | none => w.blockPrepareUsed null none adjust
  | some block =>
    let gap := gapBefore (blockToPtr block) align
    if gap ≠ 0 then do
      guard (sizeofBlockHeader ≤ gap)
      let (w, block) ← w.blockTrimFreeLeading null block gap
      w.blockPrepareUsed null (some block) adjust
    else w.blockPrepareUsed null (some block) adjust

def free (null : Nat) (w : Words) (ptr : Nat) : Option Words :=
  if ptr = 0 then some w
  else do
    let block := blockFromPtr ptr
    guard (w.blockIsFree block = false)
    let w ← w.blockMarkAsFree block
    let (w, block) ← w.blockMergePrev null block
    let (w, block) ← w.blockMergeNext null block
    w.blockInsert null block

def realloc (null : Nat) (w : Words) (ptr size : Nat) : Option (Words × Nat) :=
  if ptr ≠ 0 ∧ size = 0 then do
    let w ← w.free null ptr
    pure (w, 0)
  else if ptr = 0 then w.malloc null size
  else do
    let block := blockFromPtr ptr
    let next ← w.blockNext block
    let cursize := w.blockSize block
    let combined := (cursize + w.blockSize next + blockHeaderOverhead) % addressSpace
    let adjust := adjustRequestSize size alignSize
    guard (w.blockIsFree block = false)
    if adjust > cursize ∧ (w.blockIsFree next = false ∨ adjust > combined) then do
      let (w, p) ← w.malloc null size
      if p ≠ 0 then do
        let minsize := min cursize size
        let w := { w with mem := copyBytes w.mem p ptr minsize }
        let w ← w.free null ptr
        pure (w, p)
      else pure (w, 0)
    else if adjust > cursize then do
      let (w, _) ← w.blockMergeNext null block
      let w ← w.blockMarkAsUsed block
      let w ← w.blockTrimUsed null block adjust
      pure (w, ptr)
    else do
      let w ← w.blockTrimUsed null block adjust
      pure (w, ptr)

end Words

end Gpcl.Tlsf
