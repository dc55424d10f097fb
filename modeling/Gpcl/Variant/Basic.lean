import Gpcl.Lib.Owners
import Gpcl.Lib.Runs
import Mathlib.Data.Fintype.Basic
import Mathlib.Data.List.Count

/-! # variant

A variant is `index_` and a storage that may hold an object of the alternative `index_`. Which of
its operations are trivial, which are deleted and which do not compile follows from the traits of
all alternatives, through one base class after the other. A trivial operation copies the bytes of
the storage: for an alternative whose own operation is trivial the bytes are a new object, for
another one they are the object they were copied from.

The copy and move constructors are those of the `_MSC_VER` branches, where they are no templates.
An operation without a result is deleted, does not compile or fails an assertion. -/
namespace Gpcl.Variant
open Lib.Owners

inductive Kind
  | copy
  | move
deriving DecidableEq

/-- The type traits of an alternative. -/
structure Alternative where
  defaultConstructible : Bool
  nothrowDestructible : Bool
  triviallyDestructible : Bool
  constructible : Kind → Bool
  assignable : Kind → Bool
  triviallyConstructible : Kind → Bool
  triviallyAssignable : Kind → Bool
  /-- `std::is_trivially_constructible` is about the definition of a variable, which is
  destroyed. -/
  destructible {k : Kind} : triviallyConstructible k = true → triviallyDestructible = true

/-- The calls of members of the alternatives; objects are numbered in the order of their
construction. -/
inductive Call
  | construct (o : Nat)
  | constructFrom (k : Kind) (o source : Nat)
  | assign (o : Nat)
  | assignFrom (k : Kind) (o source : Nat)
  | destroy (o : Nat)
deriving DecidableEq

/-- `index_` and the object in the storage; nothing for an `index_` of -1. -/
abbrev Content (n : Nat) := Option (Fin (n + 1) × Nat)

structure State (I : Type) (n : Nat) where
  var : I → Option (Content n)
  made : Nat
  -- the latest one first
  calls : List Call

variable {I : Type} {n : Nat}

def State.initial : State I n := ⟨fun _ => none, 0, []⟩

def State.call (c : Call) (s : State I n) : State I n := { s with calls := c :: s.calls }

/-! ## The traits of the list of alternatives -/

variable (ts : Fin (n + 1) → Alternative)

/-- `std::conjunction`. -/
def all (p : Alternative → Bool) : Bool := decide (∀ i, p (ts i) = true)

/-- The argument of `variant_storage`, which both versions of `variant_move_construct_base`
choose. -/
def triviallyDestructible : Bool :=
  if all ts fun a => a.triviallyConstructible .move then all ts fun a => a.triviallyDestructible
  else all ts fun a => a.nothrowDestructible

/-- The arguments of `variant_copy_assign_base` and `variant_move_assign_base`. -/
def assignable (k : Kind) : Bool := all ts fun a => a.constructible k && a.assignable k

def triviallyAssignable (k : Kind) : Bool :=
  all ts fun a => a.triviallyConstructible k && a.triviallyAssignable k

/-! ## The storage -/

/-- The storage of an object is used for something else. This is the end of an object whose
destructor is trivial. -/
def reuse (i : Fin (n + 1)) (o : Nat) (s : State I n) : State I n :=
  if (ts i).triviallyDestructible then s.call (.destroy o) else s

/-- What `~variant_storage` and `reset` do with the object. -/
def destruct (i : Fin (n + 1)) (o : Nat) (s : State I n) : State I n :=
  if triviallyDestructible ts then reuse ts i o s else s.call (.destroy o)

variable [DecidableEq I]

def State.put (v : I) (c : Option (Content n)) (s : State I n) : State I n :=
  { s with var := Function.update s.var v c }

/-- A constructor of the alternative `i` is called for the storage of `v`. -/
def create (v : I) (i : Fin (n + 1)) (c : Nat → Call) (s : State I n) : State I n where
  var := Function.update s.var v (some (some (i, s.made)))
  made := s.made + 1
  calls := c s.made :: s.calls

def reset (v : I) (s : State I n) : State I n :=
  match s.var v with
  | some (some (i, o)) => (destruct ts i o s).put v (some none)
  | _ => s

/-- The bytes of the object `source` in the storage of `v`. -/
def place (k : Kind) (v : I) (j : Fin (n + 1)) (source : Nat) (s : State I n) : State I n :=
  if (ts j).triviallyConstructible k then create v j (.constructFrom k · source) s
    else s.put v (some (some (j, source)))

/-- The bytes of `other` are copied to `v`. -/
def bits (k : Kind) (v other : I) (s : State I n) : State I n :=
  if v = other then s
  else match s.var v, s.var other with
    | some (some (i, o)), some (some (j, source)) =>
      if i = j ∧ (ts j).triviallyAssignable k then s.call (.assignFrom k o source)
      else place ts k v j source (reuse ts i o s)
    | some (some (i, o)), _ => (reuse ts i o s).put v (some none)
    | _, some (some (j, source)) => place ts k v j source s
    | _, _ => s.put v (some none)

/-! ## The operations -/

/-- `copy_helper` and `move_helper`. -/
def helper (k : Kind) (v other : I) (s : State I n) : State I n :=
  match s.var other with
  | some (some (j, source)) => create v j (.constructFrom k · source) s
  | _ => s

/-- The constructor of `variant_copy_construct_base` and `variant_move_construct_base`. -/
def constructFrom (k : Kind) (v other : I) (s : State I n) : Option (State I n) :=
  if all ts fun a => a.triviallyConstructible k then some (bits ts k v other s)
  else if all ts fun a => a.constructible k then some (helper k v other (s.put v (some none)))
  else none

def copyConstruct (v other : I) (s : State I n) : Option (State I n) :=
  constructFrom ts .copy v other s

def moveConstruct (v other : I) (s : State I n) : Option (State I n) :=
  constructFrom ts .move v other s

def defaultConstruct (v : I) (s : State I n) : Option (State I n) :=
  if (ts 0).defaultConstructible then some (create v 0 .construct s) else none

/-- The converting constructor. The tag constructor of `variant_default_construct_base<false, ...>`
initialises a class that is no direct base. -/
def convert (v : I) (i : Fin (n + 1)) (s : State I n) : Option (State I n) :=
  if (ts 0).defaultConstructible then some (create v i .construct s) else none

/-- The copy assignment, defaulted in every version that does not delete it. -/
def copyAssign (v other : I) (s : State I n) : Option (State I n) :=
  if assignable ts .copy then some (bits ts .copy v other s) else none

/-- The move assignment of `variant_copy_assign_base<true, false, ...>`, which copies; `throws`: the
member of the alternative throws. -/
def copyAssignBase (throws : Bool) (v other : I) (s : State I n) : State I n :=
  let construct (s : State I n) : State I n :=
    if all ts fun a => a.triviallyConstructible .copy then bits ts .copy v other s
    else if throws then s
    else helper .copy v other s
  if v = other then s
  else match s.var v, s.var other with
    | some (some (i, o)), some (some (j, source)) =>
      if i = j then (if throws then s else s.call (.assignFrom .copy o source))
        else construct (reset ts v s)
    | _, _ => construct (reset ts v s)

/-- The move assignment. That of `variant_move_assign_base<true, false, ...>` names a member
`_index` that does not exist, and where it is deleted a defaulted one falls back to the copy
assignment. -/
def moveAssign (throws : Bool) (v other : I) (s : State I n) : Option (State I n) :=
  if assignable ts .copy then
    if triviallyAssignable ts .copy then
      if assignable ts .move
        then (if triviallyAssignable ts .move then some (bits ts .move v other s) else none)
      else some (bits ts .copy v other s)
    else some (copyAssignBase ts throws v other s)
  else if assignable ts .move ∧ triviallyAssignable ts .move then some (bits ts .move v other s)
  else none

def emplace (throws : Bool) (v : I) (i : Fin (n + 1)) (s : State I n) : State I n :=
  let s := reset ts v s
  if throws then s else create v i .construct s

/-- The converting assignment; `index()` asserts that there is an object. -/
def convertAssign (throws : Bool) (v : I) (i : Fin (n + 1)) (s : State I n) : Option (State I n) :=
  match s.var v with
  | some (some (j, o)) =>
    if i = j then some (if throws then s else s.call (.assign o))
    else
      let s := reset ts v s
      some (if throws then s else create v i .construct s)
  | _ => none

def destroy (v : I) (s : State I n) : State I n :=
  match s.var v with
  | some (some (i, o)) => (destruct ts i o s).put v none
  | _ => s.put v none

inductive Act (I : Type) (n : Nat)
  | defaultConstruct (v : I)
  | convert (v : I) (i : Fin (n + 1))
  | copyConstruct (v other : I)
  | moveConstruct (v other : I)
  | copyAssign (v other : I)
  | moveAssign (throws : Bool) (v other : I)
  | convertAssign (throws : Bool) (v : I) (i : Fin (n + 1))
  | emplace (throws : Bool) (v : I) (i : Fin (n + 1))
  | destroy (v : I)

/-- Constructors are called where there is no variant, the other members where there is one. -/
def step (s : State I n) : Act I n → Option (State I n)
  | .defaultConstruct v => if s.var v = none then defaultConstruct ts v s else none
  | .convert v i => if s.var v = none then convert ts v i s else none
  | .copyConstruct v other =>
    if s.var v = none ∧ s.var other ≠ none then copyConstruct ts v other s else none
  | .moveConstruct v other =>
    if s.var v = none ∧ s.var other ≠ none then moveConstruct ts v other s else none
  | .copyAssign v other =>
    if s.var v ≠ none ∧ s.var other ≠ none then copyAssign ts v other s else none
  | .moveAssign throws v other =>
    if s.var v ≠ none ∧ s.var other ≠ none then moveAssign ts throws v other s else none
  | .convertAssign throws v i => if s.var v ≠ none then convertAssign ts throws v i s else none
  | .emplace throws v i => if s.var v ≠ none then some (emplace ts throws v i s) else none
  | .destroy v => if s.var v ≠ none then some (destroy ts v s) else none

end Gpcl.Variant
