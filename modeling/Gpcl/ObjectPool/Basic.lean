import Gpcl.Pool.Basic

/-! # object_pool

An object and its two links share a chunk of a pool, and the links of the live objects form a
list. The constructor and the destructor of the element type are arguments: what they do to the
memory, and whether the constructor completes or throws. The methods that lock the mutex are one
step each. `none` is a call that does not return, which includes the use of a null pointer. -/
namespace Gpcl
open Lib.Memory

/-- The size and the alignment of an element type. -/
structure Layout where
  size : Nat
  alignment : Nat

namespace Layout

/-- The first multiple of `a` from `n` on. -/
def roundUp (n a : Nat) : Nat := (n + a - 1) / a * a

/-- Where the links of a `chunk_info` lie, and its size. -/
def prevOffset (T : Layout) : Nat := roundUp T.size wordSize

def nextOffset (T : Layout) : Nat := T.prevOffset + wordSize

def sizeofChunkInfo (T : Layout) : Nat :=
  roundUp (T.nextOffset + wordSize) (max T.alignment wordSize)

/-- The bytes of the element at `p`. -/
def elem (T : Layout) (p : Nat) : Region := ⟨p, T.size⟩

end Layout

/-- No type is larger than `PTRDIFF_MAX`. -/
structure ElementType extends Layout where
  size_pos : 0 < size
  power : ∃ k, alignment = 2 ^ k
  representable : toLayout.sizeofChunkInfo < 2 ^ 63

structure ObjectPool where
  pool : Pool
  objList : Nat

namespace ObjectPool

variable (T : ElementType)

/-- The constructor, in a memory `m`. -/
def new (m : Mem) : Option ObjectPool := do
  let pool ← Pool.new T.sizeofChunkInfo m
  pure ⟨pool, 0⟩

def mem (s : ObjectPool) : Mem := s.pool.storage.mem

def withMem (s : ObjectPool) (m : Mem) : ObjectPool := { s with pool.storage.mem := m }

def prev (m : Mem) (obj : Nat) : Nat := loadWord m (obj + T.prevOffset)

def next (m : Mem) (obj : Nat) : Nat := loadWord m (obj + T.nextOffset)

def setPrev (m : Mem) (obj v : Nat) : Mem := storeWord m (obj + T.prevOffset) v

def setNext (m : Mem) (obj v : Nat) : Mem := storeWord m (obj + T.nextOffset) v

def malloc (s : ObjectPool) (ua : Nat → Nat) : Option (ObjectPool × Nat) := do
  let (pool, obj) ← s.pool.malloc ua
  guard (obj ≠ 0)
  let m := setPrev T pool.storage.mem obj 0
  let m := setNext T m obj s.objList
  let m := if s.objList ≠ 0 then setPrev T m s.objList obj else m
  pure ({ pool := { pool with storage.mem := m }, objList := obj }, obj)

def free (s : ObjectPool) (p : Nat) : Option ObjectPool := do
  guard (p ≠ 0)
  let prv := prev T s.mem p
  let nxt := next T s.mem p
  let m := if prv ≠ 0 then setNext T s.mem prv nxt else s.mem
  let m := if nxt ≠ 0 then setPrev T m nxt prv else m
  let pool ← (s.withMem m).pool.free p
  pure { pool, objList := if s.objList = p then nxt else s.objList }

/-- `construct`: the new object, or none when the constructor threw. -/
def construct (s : ObjectPool) (ua : Nat → Nat) (ctor : Nat → Mem → Mem × Bool) :
    Option (ObjectPool × Option Nat) := do
  let (s, p) ← s.malloc T ua
  let (m, completed) := ctor p s.mem
  pure (s.withMem m, if completed then some p else none)

def destroy (s : ObjectPool) (dtor : Nat → Mem → Mem) (p : Nat) : Option ObjectPool :=
  (s.withMem (dtor p s.mem)).free T p

def setNextSize (s : ObjectPool) (nextSize : Nat) : Option ObjectPool := do
  let pool ← s.pool.setNextSize nextSize
  pure { s with pool }

/-- The loop of the destructor: the objects whose destructors run, in order, and the memory they
leave. -/
def destroyObjects (dtor : Nat → Mem → Mem) (m : Mem) (obj : Nat) : Option (List Nat × Mem) :=
  if obj = 0 then some ([], m)
  else do
    let m := dtor obj m
    let (rest, m') : List Nat × Mem ← by apply destroyObjects; exacts [dtor, m, next T m obj]
    pure (obj :: rest, m')
partial_fixpoint

/-- The destructor, with that of the pool: the objects that are destroyed and the blocks that are
given back. -/
def destruct (s : ObjectPool) (dtor : Nat → Mem → Mem) (release : Mem → Region → Mem) :
    Option (List Nat × List Nat) := do
  let (objs, m) ← destroyObjects T dtor s.mem s.objList
  let blocks ← (s.withMem m).pool.destroy release
  pure (objs, blocks)

end ObjectPool

end Gpcl
