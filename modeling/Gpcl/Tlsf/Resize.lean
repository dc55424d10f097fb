import Gpcl.Tlsf.Interface

/-! # tlsf_malloc, tlsf_realloc and tlsf_remove_pool

`tlsf_malloc` is `tlsf_memalign` for the alignment that every block has. A block that is resized
keeps its place when it shrinks, or when it can take in the free block behind it. -/
namespace Gpcl.Tlsf
open Lib.Memory

namespace Control

/-- `tlsf_malloc`. -/
def malloc (c : Control) (size : Nat) : Option (Control × Nat) := do
  let adjust := adjustRequestSize size alignSize
  let (c, block) ← c.blockLocateFree adjust
  c.blockPrepareUsed block adjust

def blockTrimUsed (c : Control) (q size : Nat) : Option Control := do
  let h ← c.headers q
  guard (h.free = false)
  if blockCanSplit h size then do
    let (c, remaining) ← c.blockSplit q size
    let c ← c.modify remaining fun h => { h with prevFree := false }
    let (c, remaining) ← c.blockMergeNext remaining
    c.blockInsert remaining
  else pure c

/-- `tlsf_block_size`, of a block that is there. -/
def blockSize (c : Control) (p : Nat) : Option Nat :=
  if p = 0 then some 0
  else do
    let h ← c.headers p
    pure h.size

/-- `tlsf_realloc` but for the bytes that it copies. -/
def realloc (c : Control) (p size : Nat) : Option (Control × Nat) :=
  if p ≠ 0 ∧ size = 0 then do
    let c ← c.free p
    pure (c, 0)
  else if p = 0 then c.malloc size
  else do
    let next ← c.blockNext p
    let h ← c.headers p
    let hn ← c.headers next
    let combined := (h.size + hn.size + blockHeaderOverhead) % addressSpace
    let adjust := adjustRequestSize size alignSize
    guard (h.free = false)
    if adjust > h.size ∧ (hn.free = false ∨ adjust > combined) then do
      let (c, q) ← c.malloc size
      if q ≠ 0 then do
        let c ← c.free p
        pure (c, q)
      else pure (c, 0)
    else if adjust > h.size then do
      let (c, _) ← c.blockMergeNext p
      let c ← c.blockMarkAsUsed p
      let c ← c.blockTrimUsed p adjust
      pure (c, p)
    else do
      let c ← c.blockTrimUsed p adjust
      pure (c, p)

/-- `tlsf_remove_pool`. The headers of the pool are no longer there then. -/
def removePool (c : Control) (mem : Nat) : Option Control := do
  let q := mem + blockHeaderOverhead
  let h ← c.headers q
  guard (h.free = true)
  let next ← c.blockNext q
  let hn ← c.headers next
  guard (hn.free = false)
  guard (hn.size = 0)
  let (fl, sl) := mappingInsert h.size
  let c ← c.removeFreeBlock q fl sl
  pure { c with headers := Function.update (Function.update c.headers q none) next none }

end Control

end Gpcl.Tlsf
