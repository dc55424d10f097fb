import Gpcl.Lib.Rings

/-! # gpcl::list

The nodes of all lists in one memory. A list is its head node, the past-the-end element of its
ring, with `size_` and the allocator beside it; an element is a node with a value. Node numbers
are given out once, and a node that has been destroyed has no value. The loops have fuel, and an
operation has no result where a value is read from a node that has none, a node is destroyed
twice or an assertion fails. -/
namespace Gpcl.Lists
open Lib.Rings

variable {J T A : Type}

structure Mem (J T A : Type) where
  links : Links (Node J Nat)
  value : Nat → Option T
  used : Nat
  size : J → Nat
  alloc : J → A

/-- Heads that are rings of their own, and no node. -/
def Mem.empty (a : A) : Mem J T A := ⟨⟨id, id⟩, fun _ => none, 0, fun _ => 0, fun _ => a⟩

/-- The traits of the allocator, the value of `T()`, and what a move leaves behind. -/
structure Traits (T A : Type) where
  propagateOnCopyAssignment : Bool
  propagateOnMoveAssignment : Bool
  selectOnCopyConstruction : A → A
  value : T
  moved : T → T

abbrev Iter (J : Type) := Node J Nat

def deref (it : Iter J) (m : Mem J T A) : Option T := it.element.bind m.value

def begin (l : J) (m : Mem J T A) : Iter J := m.links.next (.head l)

/-- `std::next(begin(), i)`. -/
def iter (l : J) (i : Nat) (m : Mem J T A) : Iter J := m.links.next^[i] (begin l m)

/-- `node->destroy()` and the deallocation. -/
def destroyNode (node : Iter J) (m : Mem J T A) : Option (Mem J T A) :=
  match node with
  | .node n => (m.value n).map fun _ => { m with value := Function.update m.value n none }
  | .head _ => none

/-- `*it = v`. -/
def store (it : Iter J) (v : T) (m : Mem J T A) : Option (Mem J T A) :=
  match it with
  | .node n => (m.value n).map fun _ => { m with value := Function.update m.value n (some v) }
  | .head _ => none

variable [DecidableEq J]

def setSize (l : J) (n : Nat) (m : Mem J T A) : Mem J T A :=
  { m with size := Function.update m.size l n }

/-- The constructor from an allocator. -/
def construct (l : J) (a : A) (m : Mem J T A) : Mem J T A :=
  { m with
    links := (m.links.setPrev (.head l) (.head l)).setNext (.head l) (.head l)
    size := Function.update m.size l 0
    alloc := Function.update m.alloc l a }

def emplace (l : J) (pos : Iter J) (v : T) (m : Mem J T A) : Mem J T A × Iter J :=
  let node := .node m.used
  -- `create_node`
  let links := (m.links.setPrev node (m.links.prev pos)).setNext node pos
  let links := links.setNext (links.prev pos) node
  let links := links.setPrev pos node
  ({ m with
      links := links
      value := Function.update m.value m.used (some v)
      used := m.used + 1
      size := Function.update m.size l (m.size l + 1) }, node)

/-- `insert` of a range, which starts with its last element. -/
def insertRange : Nat → J → Iter J → Iter J → Iter J → Mem J T A → Option (Mem J T A × Iter J)
  | 0, _, _, _, _, _ => none
  | fuel + 1, l, pos, first, last, m =>
    if first = last then some (m, pos)
    else (deref (m.links.prev last) m).bind fun v =>
      let (m, pos) := emplace l pos v m
      insertRange fuel l pos first (m.links.prev last) m

def erase (l : J) (pos : Iter J) (m : Mem J T A) : Option (Mem J T A × Iter J) :=
  let prev := m.links.prev pos
  let next := m.links.next pos
  (destroyNode pos m).map fun m =>
    (setSize l (m.size l - 1) { m with links := (m.links.setNext prev next).setPrev next prev },
      next)

def eraseLoop : Nat → J → Iter J → Iter J → Mem J T A → Option (Mem J T A)
  | 0, _, _, _, _ => none
  | fuel + 1, l, node, next, m =>
    if node = next then some m
    else
      let tmp := m.links.next node
      (destroyNode node m).bind fun m => eraseLoop fuel l tmp next (setSize l (m.size l - 1) m)

/-- `erase` of a range. -/
def eraseRange (fuel : Nat) (l : J) (first last : Iter J) (m : Mem J T A) :
    Option (Mem J T A × Iter J) :=
  let prev := m.links.prev first
  (eraseLoop fuel l first last m).map fun m =>
    ({ m with links := (m.links.setNext prev last).setPrev last prev }, last)

def clear (fuel : Nat) (l : J) (m : Mem J T A) : Option (Mem J T A) :=
  (eraseRange fuel l (begin l m) (.head l) m).map Prod.fst

def popFront (l : J) (m : Mem J T A) : Option (Mem J T A) := (erase l (begin l m) m).map Prod.fst

def popBack (l : J) (m : Mem J T A) : Option (Mem J T A) :=
  (erase l (m.links.prev (.head l)) m).map Prod.fst

def growLoop : Nat → J → Nat → T → Mem J T A → Option (Mem J T A)
  | 0, _, _, _, _ => none
  | fuel + 1, l, count, v, m =>
    if count > m.size l then growLoop fuel l count v (emplace l (.head l) v m).1 else some m

def shrinkLoop : Nat → J → Nat → Mem J T A → Option (Mem J T A)
  | 0, _, _, _ => none
  | fuel + 1, l, count, m =>
    if m.size l > count then (popBack l m).bind (shrinkLoop fuel l count) else some m

/-- `resize(count)`, with its assertion. -/
def resize (τ : Traits T A) (fuel : Nat) (l : J) (count : Nat) (m : Mem J T A) :
    Option (Mem J T A) :=
  (if count > m.size l then growLoop fuel l count τ.value m else shrinkLoop fuel l count m).bind
      fun m =>
    if count = m.size l then some m else none

/-- The copy constructor with an allocator. -/
def copyConstruct (fuel : Nat) (l other : J) (a : A) (m : Mem J T A) : Option (Mem J T A) :=
  let m := construct l a m
  (insertRange fuel l (.head l) (begin other m) (.head other) m).map Prod.fst

/-- `std::distance`. -/
def distance : Nat → Iter J → Iter J → Mem J T A → Option Nat
  | 0, _, _, _ => none
  | fuel + 1, first, last, m =>
    if first = last then some 0 else (distance fuel (m.links.next first) last m).map (· + 1)

/-- The writes of `splice`. -/
def relink (pos first last : Iter J) (L : Links (Node J Nat)) : Links (Node J Nat) :=
  let prev := L.prev first
  let nodeLast := L.prev last
  let L := (L.setNext prev last).setPrev last prev
  let posPrev := L.prev pos
  let L := (L.setPrev first posPrev).setNext nodeLast pos
  (L.setNext posPrev first).setPrev pos nodeLast

variable [DecidableEq A]

/-- `splice` of a range. -/
def splice (fuel : Nat) (l : J) (pos : Iter J) (other : J) (first last : Iter J) (m : Mem J T A) :
    Option (Mem J T A) :=
  if m.alloc l = m.alloc other then
    (if l ≠ other then
      (distance fuel first last m).map fun count =>
        let m := setSize other (m.size other - count) m
        setSize l (m.size l + count) m
    else some m).map fun m => { m with links := relink pos first last m.links }
  else none

/-- `splice` of a list. -/
def spliceAll (fuel : Nat) (l : J) (pos : Iter J) (other : J) (m : Mem J T A) :
    Option (Mem J T A) :=
  splice fuel l pos other (begin other m) (.head other) m

/-- The loops of the copy assignment, which go on while `more` holds of the two iterators. -/
def assignLoop :
    Nat → (Iter J → Iter J → Bool) → Iter J → Iter J → Mem J T A →
    Option (Mem J T A × Iter J × Iter J)
  | 0, _, _, _, _ => none
  | fuel + 1, more, first, otherFirst, m =>
    if more first otherFirst then
      (deref otherFirst m).bind fun v => (store first v m).bind fun m =>
        assignLoop fuel more (m.links.next first) (m.links.next otherFirst) m
    else some (m, first, otherFirst)

/-- The copy assignment behind the treatment of the allocators. -/
def assignElements (fuel : Nat) (l other : J) (m : Mem J T A) : Option (Mem J T A) :=
  if m.size l < m.size other then
    (assignLoop fuel (fun first _ => first ≠ .head l) (begin l m) (begin other m) m).bind
        fun (m, _, otherFirst) =>
      (insertRange fuel l (.head l) otherFirst (.head other) m).map Prod.fst
  else
    (assignLoop fuel (fun _ otherFirst => otherFirst ≠ .head other) (begin l m)
        (begin other m) m).bind fun (m, first, _) =>
      (eraseRange fuel l first (.head l) m).map Prod.fst

/-- The copy assignment; `tmp` is its temporary list. -/
def copyAssign (τ : Traits T A) (fuel : Nat) (tmp l other : J) (m : Mem J T A) :
    Option (Mem J T A) :=
  if τ.propagateOnCopyAssignment then
    if m.alloc l ≠ m.alloc other then
      let first := begin l m
      let a := m.alloc other
      (copyConstruct fuel tmp other a m).bind fun m =>
        (spliceAll fuel l first tmp m).bind fun m =>
          (clear fuel tmp m).bind fun m =>
            (eraseRange fuel l first (.head l) m).map fun (m, _) =>
              { m with alloc := Function.update m.alloc l (m.alloc other) }
    else assignElements fuel l other { m with alloc := Function.update m.alloc l (m.alloc other) }
  else assignElements fuel l other m

def moveConstruct (fuel : Nat) (l other : J) (m : Mem J T A) : Option (Mem J T A) :=
  spliceAll fuel l (.head l) other (construct l (m.alloc other) m)

/-- The loops of the move assignment that assign. -/
def moveLoop (τ : Traits T A) :
    Nat → (Iter J → Iter J → Bool) → Iter J → Iter J → Mem J T A →
    Option (Mem J T A × Iter J × Iter J)
  | 0, _, _, _, _ => none
  | fuel + 1, more, first, otherFirst, m =>
    if more first otherFirst then
      (deref otherFirst m).bind fun v => (store otherFirst (τ.moved v) m).bind fun m =>
          (store first v m).bind fun m =>
        moveLoop τ fuel more (m.links.next first) (m.links.next otherFirst) m
    else some (m, first, otherFirst)

/-- The loop of the move assignment that appends; `push_back(T &&)` copies. -/
def appendLoop : Nat → J → Iter J → Iter J → Mem J T A → Option (Mem J T A)
  | 0, _, _, _, _ => none
  | fuel + 1, l, otherFirst, otherLast, m =>
    if otherFirst = otherLast then some m
    else (deref otherFirst m).bind fun v =>
      let m := (emplace l (.head l) v m).1
      appendLoop fuel l (m.links.next otherFirst) otherLast m

def moveElements (τ : Traits T A) (fuel : Nat) (l other : J) (m : Mem J T A) : Option (Mem J T A) :=
  if m.size l < m.size other then
    (moveLoop τ fuel (fun first _ => first ≠ .head l) (begin l m) (begin other m) m).bind
        fun (m, _, otherFirst) =>
      appendLoop fuel l otherFirst (.head other) m
  else
    (moveLoop τ fuel (fun _ otherFirst => otherFirst ≠ .head other) (begin l m)
        (begin other m) m).bind fun (m, first, _) =>
      (eraseRange fuel l first (.head l) m).map Prod.fst

def moveAssign (τ : Traits T A) (fuel : Nat) (l other : J) (m : Mem J T A) : Option (Mem J T A) :=
  (if τ.propagateOnMoveAssignment then
    (clear fuel l m).map fun m => { m with alloc := Function.update m.alloc l (m.alloc other) }
  else some m).bind fun m =>
    if m.alloc l = m.alloc other then (clear fuel l m).bind (spliceAll fuel l (.head l) other)
    else moveElements τ fuel l other m

end Gpcl.Lists
