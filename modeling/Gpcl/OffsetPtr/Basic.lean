import Gpcl.Lib.Memory

/-! # offset_ptr

An `offset_ptr<T>` stores, as one word, the distance in bytes from its own address to its
target; the largest `intptr_t` stands for null. The functions below are the members,
with `this` the address of the object and the memory passed along. Pointers are natural
numbers, null is 0, and `intptr_t` values are 64-bit words in two's complement, so
`narrow_cast<offset_type>`, between types of that width, changes no word and passes its
own check. `none` is a call that an assertion stops. -/
namespace Gpcl.OffsetPtr
open Lib.Memory

/-- What the class reads of `T`: `sizeof(T)`, 0 where `T` has no pointer arithmetic, and
whether `get` takes the offset 0 for an uninitialised one. It does for every `T` but `void`, `char`,
`signed char` and `unsigned char`; `std::byte` is exempt only after C++17. -/
structure Pointee where
  size : Nat
  checked : Bool
deriving DecidableEq, Repr

def invalidOffset : Nat := 2 ^ 63 - 1

/-- `as_integer(ptr) - as_integer(this)`. -/
def offsetTo (this ptr : Nat) : Nat := (ptr + (addressSpace - this)) % addressSpace

/-- The offset that `offset_ptr(T *)` and `operator=` store. -/
def encode (this ptr : Nat) : Nat := if ptr ≠ 0 then offsetTo this ptr else invalidOffset

def get (T : Pointee) (m : Mem) (this : Nat) : Option Nat := do
  let offset := loadWord m this
  guard (T.checked = true → offset ≠ 0)
  pure (if offset ≠ invalidOffset then (this + offset) % addressSpace else 0)

/-- `offset_ptr(T *)`, and with a null pointer `offset_ptr()`. -/
def construct (m : Mem) (this ptr : Nat) : Mem := storeWord m this (encode this ptr)

/-- `offset_ptr(const offset_ptr &)`. -/
def copyConstruct (T : Pointee) (m : Mem) (this other : Nat) : Option Mem := do
  let ptr ← get T m other
  pure (construct m this ptr)

/-- `operator=`. -/
def assign (T : Pointee) (m : Mem) (this other : Nat) : Option Mem := do
  let ptr ← get T m other
  pure (storeWord m this (encode this ptr))

/-- `diff * sizeof(T)`, multiplied as `size_t`. -/
def diffToOffset (T : Pointee) (diff : Int) : Nat := (diff * T.size % (addressSpace : Int)).toNat

theorem diffToOffset_mod (T : Pointee) (k : Int) :
    (diffToOffset T k : Int) % (addressSpace : Int) = k * T.size % (addressSpace : Int) := by
  have hpos : (0 : Int) < addressSpace := by decide
  have hnn := Int.emod_nonneg (k * T.size) (Int.ne_of_gt hpos)
  rw [diffToOffset, Int.toNat_of_nonneg hnn, Int.emod_emod]

/-- `GPCL_ASSERT(get() != 0)`, and the overload needs a `T` with pointer arithmetic. -/
def requireTarget (T : Pointee) (m : Mem) (this : Nat) : Option Unit := do
  guard (T.size ≠ 0)
  let ptr ← get T m this
  guard (ptr ≠ 0)

/-- `offset_ += delta`. -/
def addOffset (m : Mem) (this delta : Nat) : Mem :=
  storeWord m this ((loadWord m this + delta) % addressSpace)

/-- `offset_ -= delta`. -/
def subOffset (m : Mem) (this delta : Nat) : Mem :=
  storeWord m this ((loadWord m this + (addressSpace - delta % addressSpace)) % addressSpace)

/-- `++p`. -/
def increment (T : Pointee) (m : Mem) (this : Nat) : Option Mem := do
  requireTarget T m this
  pure (addOffset m this T.size)

/-- `--p`. -/
def decrement (T : Pointee) (m : Mem) (this : Nat) : Option Mem := do
  requireTarget T m this
  pure (subOffset m this T.size)

/-- `operator+=`. -/
def addAssign (T : Pointee) (m : Mem) (this : Nat) (diff : Int) : Option Mem := do
  requireTarget T m this
  pure (addOffset m this (diffToOffset T diff))

/-- `operator-=`. -/
def subAssign (T : Pointee) (m : Mem) (this : Nat) (diff : Int) : Option Mem := do
  requireTarget T m this
  pure (subOffset m this (diffToOffset T diff))

/-- `p++`; `ret` is where the returned object lives. -/
def postIncrement (T : Pointee) (m : Mem) (this ret : Nat) : Option Mem := do
  requireTarget T m this
  let m ← copyConstruct T m ret this
  increment T m this

/-- `p--`. -/
def postDecrement (T : Pointee) (m : Mem) (this ret : Nat) : Option Mem := do
  requireTarget T m this
  let m ← copyConstruct T m ret this
  decrement T m this

/-- `p + diff`. -/
def plus (T : Pointee) (m : Mem) (this ret : Nat) (diff : Int) : Option Mem := do
  requireTarget T m this
  let m ← copyConstruct T m ret this
  addAssign T m ret diff

/-- `p - diff`. -/
def minus (T : Pointee) (m : Mem) (this ret : Nat) (diff : Int) : Option Mem := do
  requireTarget T m this
  let m ← copyConstruct T m ret this
  subAssign T m ret diff

/-- The difference of two raw pointers, in elements. -/
def rawDifference (T : Pointee) (p q : Nat) : Int := ((p : Int) - q).tdiv T.size

/-- `p - other`. -/
def difference (T : Pointee) (m : Mem) (this other : Nat) : Option Int := do
  requireTarget T m this
  requireTarget T m other
  let p ← get T m this
  let q ← get T m other
  pure (rawDifference T p q)

/-- The whole memory image, moved by `d` bytes. -/
def relocate (d : Int) (m : Mem) : Mem := fun x => m ((x : Int) - d).toNat

end Gpcl.OffsetPtr
