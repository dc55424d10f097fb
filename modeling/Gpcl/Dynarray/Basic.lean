import Gpcl.Lib.Memory
import Gpcl.Lib.Objects

/-! # dynarray

The arrays of a program live in a table, temporaries included; their elements live in
the buffers of an object heap. A data pointer is a buffer or null. `allocate` and the
constructors of elements may throw, destructors and `noexcept` moves do not. A null
pointer may be given back to the allocator, which does nothing then. The loops of the
source count up or down to a bound that is fixed when they start, and recurse here on
the number of rounds. Move assignment and swap call each other when allocators may
differ and do not propagate, and need not end: their first argument is fuel. -/
namespace Gpcl
open Lib.Memory Lib.Objects

structure Dynarray (A : Type) where
  alloc : A
  data : Option Nat
  size : Nat
  capacity : Nat
deriving DecidableEq, Repr

namespace Dynarray

/-- What the code uses of the element type and of the allocator type. `junk` is what is
read from a slot without an object, `movedFrom` what a move leaves behind. -/
structure Traits (α A : Type) where
  default : α
  junk : α
  movedFrom : α → α
  nothrowMove : Bool
  nothrowCopyAssign : Bool
  alwaysEqual : Bool
  propagateOnCopy : Bool
  propagateOnMove : Bool
  propagateOnSwap : Bool
  selectOnCopy : A → A
  equal : A → A → Bool
  equal_refl : ∀ a, equal a a = true
  equal_symm : ∀ a b, equal a b = true → equal b a = true
  equal_trans : ∀ a b c, equal a b = true → equal b c = true → equal a c = true
  equal_always : alwaysEqual = true → ∀ a b, equal a b = true

structure State (α A : Type) where
  heap : Heap α A
  arrs : Nat → Option (Dynarray A)
  nextArr : Nat

abbrev Action (α A β : Type) := Prog (State α A) β

variable {α A : Type}

/-- Where a new value comes from: a value of the caller, or an element of some buffer that is
read when the constructor or the assignment runs. -/
inductive Arg (α : Type)
  | val (v : α)
  | ref (p : Option Nat) (i : Nat)

/-- The largest size an allocator can serve. -/
def maxSize : Nat := 2 ^ 63 - 1

/-! ## The allocator and the elements -/

def arr (a : Nat) : Action α A (Dynarray A) := fun s =>
  match s.arrs a with
  | some d => .ok d s
  | none => .fault

def setArr (a : Nat) (d : Dynarray A) : Action α A Unit := fun s =>
  .ok () { s with arrs := Function.update s.arrs a (some d) }

/-- A new array object. -/
def create (d : Dynarray A) : Action α A Nat := fun s =>
  .ok s.nextArr { s with
    arrs := Function.update s.arrs s.nextArr (some d), nextArr := s.nextArr + 1 }

/-- The end of an array object. -/
def discard (a : Nat) : Action α A Unit :=
  fun s => .ok () { s with arrs := Function.update s.arrs a none }

/-- Whether the next `allocate(n)` throws. -/
def allocFails (s : State α A) (n : Nat) : Bool := s.heap.fail s.heap.tick || decide (maxSize < n)

def allocate (al : A) (n : Nat) : Action α A Nat := fun s =>
  let h := s.heap.next.2
  if allocFails s n then .thrown { s with heap := h }
  else .ok (h.allocate al n).2 { s with heap := (h.allocate al n).1 }

/-- A step of the heap that may fault. -/
def onHeap (f : Heap α A → Option (Heap α A)) : Action α A Unit := fun s =>
  match f s.heap with
  | some h => .ok () { s with heap := h }
  | none => .fault

def deallocate (t : Traits α A) (al : A) (p : Option Nat) (n : Nat) : Action α A Unit :=
  match p with
  | none => pure ()
  | some b => onHeap fun h => h.deallocate (t.equal al) b n

def destroyAt (p : Option Nat) (i : Nat) : Action α A Unit :=
  onHeap fun h => p.bind fun b => h.destroy b i

def assignAt (p : Option Nat) (i : Nat) (v : α) : Action α A Unit :=
  onHeap fun h => p.bind fun b => h.setVal b i v

def read (t : Traits α A) (s : State α A) : Arg α → α
  | .val v => v
  | .ref p i => ((p.bind fun b => s.heap.at? b i).map Obj.val).getD t.junk

/-- A constructor that may throw, after which there is no object. -/
def construct (t : Traits α A) (p : Option Nat) (i : Nat) (x : Arg α) : Action α A Unit := fun s =>
  let h := s.heap.next.2
  match p.bind fun b => h.construct b i (read t s x) with
  | none => .fault
  | some h' => if s.heap.next.1 then .thrown { s with heap := h } else .ok () { s with heap := h' }

/-- A move constructor, from element `j` of `q`; it throws only if it is not `noexcept`. -/
def constructMove (t : Traits α A) (p : Option Nat) (i : Nat) (q : Option Nat) (j : Nat) :
    Action α A Unit :=
  fun s =>
  let v := read t s (.ref q j)
  let move : Action α A Unit :=
    if t.nothrowMove then onHeap fun h => p.bind fun b => h.construct b i v
      else construct t p i (.val v)
  (do move; assignAt q j (t.movedFrom v)) s

/-- `construct(…, std::move_if_noexcept(q[j]))`. -/
def constructMoveIfNoexcept (t : Traits α A) (p : Option Nat) (i : Nat) (q : Option Nat) (j : Nat) :
    Action α A Unit :=
  if t.nothrowMove then constructMove t p i q j else construct t p i (.ref q j)

/-- An exception that leaves a `noexcept` function stops the program: the call does not return. -/
def noexcept {β : Type} (x : Action α A β) : Action α A β := fun s =>
  match x s with
  | .thrown _ => .pending
  | r => r

/-! ## Giving up elements and buffers -/

/-- The loop of `keep_first_n`. -/
def destroyLoop (a : Nat) : Nat → Action α A Unit
  | 0 => pure ()
  | n + 1 => do
    let d ← arr a
    destroyAt d.data (d.size - 1)
    setArr a { d with size := d.size - 1 }
    destroyLoop a n

def keepFirstN (a numToKeep : Nat) : Action α A Unit := do
  let d ← arr a
  Prog.assert (decide (numToKeep ≤ d.size))
  destroyLoop a (d.size - numToKeep)

def clear (a : Nat) : Action α A Unit := keepFirstN a 0

def release (t : Traits α A) (a : Nat) : Action α A Unit := do
  clear a
  let d ← arr a
  deallocate t d.alloc d.data d.capacity
  setArr a { d with data := none, capacity := 0 }

/-- The destructor. -/
def destruct (t : Traits α A) (a : Nat) : Action α A Unit := do
  release t a
  discard a

/-! ## Constructors -/

/-- Elements constructed one by one behind the last one. -/
def fillLoop (t : Traits α A) (a : Nat) : List (Arg α) → Action α A Unit
  | [] => pure ()
  | x :: xs => do
    let d ← arr a
    construct t d.data d.size x
    setArr a { d with size := d.size + 1 }
    fillLoop t a xs

/-- The default constructor and the constructor from an allocator. -/
def empty (al : A) : Action α A Nat := create ⟨al, none, 0, 0⟩

/-- The constructor from a range. -/
def ofRange (t : Traits α A) (al : A) (xs : List (Arg α)) : Action α A Nat := do
  let a ← create ⟨al, none, 0, xs.length⟩
  Prog.onThrow (do
    let p ← allocate al xs.length
    setArr a ⟨al, some p, 0, xs.length⟩
    Prog.onThrow (fillLoop t a xs) (release t a)) (discard a)
  pure a

/-- The constructor from a size. -/
def ofSize (t : Traits α A) (al : A) (n : Nat) : Action α A Nat :=
  ofRange t al (List.replicate n (.val t.default))

/-- The elements from `begin()` to `end()`. -/
def range (d : Dynarray A) : List (Arg α) := (List.range d.size).map fun i => .ref d.data i

def copyWith (t : Traits α A) (b : Nat) (al : A) : Action α A Nat := do
  let o ← arr b
  ofRange t al (range o)

/-- The copy constructor. -/
def copy (t : Traits α A) (b : Nat) : Action α A Nat := do
  let o ← arr b
  copyWith t b (t.selectOnCopy o.alloc)

/-- The move constructor. -/
def move (b : Nat) : Action α A Nat := do
  let o ← arr b
  let a ← create o
  setArr b { o with data := none, size := 0, capacity := 0 }
  pure a

/-- Elements moved one by one out of the buffer `q`. -/
def moveLoop (t : Traits α A) (a : Nat) (q : Option Nat) : Nat → Action α A Unit
  | 0 => pure ()
  | n + 1 => do
    let d ← arr a
    constructMove t d.data d.size q d.size
    setArr a { d with size := d.size + 1 }
    moveLoop t a q n

/-- The move constructor with an allocator. -/
def moveWith (t : Traits α A) (b : Nat) (al : A) : Action α A Nat :=
  if t.alwaysEqual then move b
  else do
    let o ← arr b
    if t.equal al o.alloc then do
      let a ← create ⟨al, o.data, o.size, o.capacity⟩
      setArr b { o with data := none, size := 0, capacity := 0 }
      pure a
    else do
      let a ← create ⟨al, none, 0, o.size⟩
      Prog.onThrow (do
        let p ← allocate al o.size
        setArr a ⟨al, some p, 0, o.size⟩
        Prog.onThrow (moveLoop t a o.data o.size) (release t a)) (discard a)
      pure a

/-! ## Capacity -/

/-- The loop of `reserve` that fills the new buffer from the old one. -/
def relocateLoop (t : Traits α A) (a : Nat) (q : Option Nat) : Nat → Action α A Unit
  | 0 => pure ()
  | n + 1 => do
    let d ← arr a
    constructMoveIfNoexcept t d.data d.size q d.size
    setArr a { d with size := d.size + 1 }
    relocateLoop t a q n

/-- The loop of `reserve` that destroys what is left in the old buffer. -/
def destroyBackup (q : Option Nat) : Nat → Action α A Unit
  | 0 => pure ()
  | n + 1 => do
    destroyAt q n
    destroyBackup q n

/-- The buffer is allocated outside the `try` block, when `size` and `capacity` are already
those of the new one. -/
def reserve (t : Traits α A) (a n : Nat) : Action α A Unit := do
  let backup ← arr a
  if n ≤ backup.capacity then pure ()
  else do
    setArr a { backup with size := 0, capacity := n }
    let p ← allocate backup.alloc n
    setArr a { backup with data := some p, size := 0, capacity := n }
    Prog.onThrow (do
      relocateLoop t a backup.data backup.size
      destroyBackup backup.data backup.size
      deallocate t backup.alloc backup.data backup.capacity) (do
      release t a
      let d ← arr a
      setArr a { d with data := backup.data, size := backup.size, capacity := backup.capacity })
    let d ← arr a
    Prog.assert (decide (n ≤ d.capacity))

/-- `(n + capacity_ - 1) / capacity_ * capacity_`. -/
def roundUp (capacity n : Nat) : Nat :=
  (addressSpace - 1 + (n + capacity)) % addressSpace / capacity * capacity

def grow (t : Traits α A) (a n : Nat) : Action α A Unit := do
  let d ← arr a
  if d.capacity = 0 ∧ n ≠ 0 then reserve t a n
  else if d.capacity < n then reserve t a (roundUp d.capacity n)
  else pure ()
  let d ← arr a
  Prog.assert (decide (n ≤ d.capacity))

/-- `resize(n, x)`. -/
def resizeVal (t : Traits α A) (a n : Nat) (x : Arg α) : Action α A Unit := do
  reserve t a n
  let d ← arr a
  if n ≤ d.size then keepFirstN a n
  else Prog.onThrow (fillLoop t a (List.replicate (n - d.size) x)) (keepFirstN a d.size)

/-- `resize(n)`. -/
def resize (t : Traits α A) (a n : Nat) : Action α A Unit := resizeVal t a n (.val t.default)

/-! ## Elements at the end -/

def emplaceBack (t : Traits α A) (a : Nat) (x : Arg α) : Action α A Unit := do
  let d ← arr a
  grow t a (d.size + 1)
  let d ← arr a
  construct t d.data d.size x
  setArr a { d with size := d.size + 1 }

def pushBack (t : Traits α A) (a : Nat) (x : Arg α) : Action α A Unit := emplaceBack t a x

/-- The constructor runs on the slot behind the last element, and no destructor runs. -/
def popBack (t : Traits α A) (a : Nat) : Action α A Unit := do
  let d ← arr a
  noexcept (construct t d.data d.size (.val t.default))
  setArr a { d with size := (addressSpace - 1 + d.size) % addressSpace }

/-! ## Assignment and swap -/

/-- `swap(p_, other.p_); swap(size_, other.size_); swap(capacity_, other.capacity_);` -/
def swapAll (a b : Nat) : Action α A Unit := do
  let d ← arr a
  let o ← arr b
  setArr a o
  setArr b d

/-- The same without the allocators. -/
def swapData (a b : Nat) : Action α A Unit := do
  let d ← arr a
  let o ← arr b
  setArr a { o with alloc := d.alloc }
  setArr b { d with alloc := o.alloc }

mutual

def moveAssign (t : Traits α A) : Nat → Nat → Nat → Action α A Unit
  | 0, _, _ => fun _ => .pending
  | fuel + 1, a, b => do
    let d ← arr a
    let o ← arr b
    if t.propagateOnMove || t.alwaysEqual || t.equal d.alloc o.alloc then swapAll a b
    else do
      let tmp ← moveWith t b d.alloc
      Prog.onThrow (swap t fuel tmp a) (destruct t tmp)
      destruct t tmp

def swap (t : Traits α A) : Nat → Nat → Nat → Action α A Unit
  | 0, _, _ => fun _ => .pending
  | fuel + 1, a, b =>
    if t.propagateOnSwap then swapAll a b
    else if t.alwaysEqual then swapData a b
    else do
      let tmp ← copy t a
      Prog.onThrow (do
        moveAssign t fuel a b
        moveAssign t fuel b tmp) (destruct t tmp)
      destruct t tmp

end

/-- `dynarray(first, last, alloc).swap(*this);` -/
def assignTemp (t : Traits α A) (fuel a : Nat) (xs : List (Arg α)) (al : A) : Action α A Unit := do
  let tmp ← ofRange t al xs
  Prog.onThrow (swap t fuel tmp a) (destruct t tmp)
  destruct t tmp

/-- The loop of `assign` over the elements kept, from element `i` on. -/
def assignLoop (t : Traits α A) (a : Nat) : Nat → List (Arg α) → Action α A Unit
  | _, [] => pure ()
  | i, x :: xs => do
    let d ← arr a
    Prog.assert (decide (i < d.size))
    let s ← Prog.get
    assignAt d.data i (read t s x)
    assignLoop t a (i + 1) xs

/-- `assign(first, last, alloc)`. -/
def assignWith (t : Traits α A) (fuel a : Nat) (xs : List (Arg α)) (al : A) : Action α A Unit :=
  if t.alwaysEqual then do
    let d ← arr a
    if xs.length > d.size || !t.nothrowCopyAssign then assignTemp t fuel a xs d.alloc
    else do
      keepFirstN a xs.length
      assignLoop t a 0 xs
  else assignTemp t fuel a xs al

def assign (t : Traits α A) (fuel a : Nat) (xs : List (Arg α)) : Action α A Unit := do
  let d ← arr a
  assignWith t fuel a xs d.alloc

def copyAssign (t : Traits α A) (fuel a b : Nat) : Action α A Unit := do
  let d ← arr a
  let o ← arr b
  assignWith t fuel a (range o) (if t.propagateOnCopy then o.alloc else d.alloc)

def shrinkToFit (t : Traits α A) (fuel a : Nat) : Action α A Unit := do
  let d ← arr a
  let tmp ← copyWith t a d.alloc
  Prog.onThrow (swap t fuel tmp a) (destruct t tmp)
  destruct t tmp

end Dynarray

end Gpcl
