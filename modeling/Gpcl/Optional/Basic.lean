import Gpcl.Lib.Slots
import Gpcl.Lib.Runs

/-! # optional

An optional is `has_val_` and a storage that may hold an object. The model is that of an element
type whose copy, move and destructor are not trivial and do not throw, which decides between the
versions of the base classes. Variables have an element type; an optional of one type converts to
one of another type. What a move leaves behind is destroyed at once or out of reach, so its value
does not show.

The member `swap` is no operation here: it calls `swap(this->val_, other.val_)`, which finds the
member itself and no function of two elements, so that no call of it is well formed. Two optionals
are exchanged by three moves. -/
namespace Gpcl.Optional
open Lib.Slots

structure State (I V : Type) where
  -- `has_val_`, where there is an optional
  hasVal : I → Option Bool
  slots : Storages I V

variable {I V : Type}

namespace State

def initial : State I V := ⟨fun _ => none, .empty⟩

/-- `has_val_`. -/
def on (s : State I V) (v : I) : Bool := (s.hasVal v).getD false

/-- `val_`, as it is read. -/
def val (s : State I V) (v : I) : Option V := s.slots.read v

variable [DecidableEq I]

def setHasVal (v : I) (b : Bool) (s : State I V) : State I V :=
  { s with hasVal := Function.update s.hasVal v (some b) }

/-- `::new (&val_) T(...)`. -/
def construct (v : I) (x : Option V) (s : State I V) : State I V :=
  { s with slots := s.slots.construct v x }

/-- `val_.T::~T()`. -/
def destroyAt (v : I) (s : State I V) : State I V := { s with slots := s.slots.destroyAt v }

/-- `val_ = x`. -/
def assign (v : I) (x : Option V) (s : State I V) : State I V :=
  { s with slots := s.slots.assign v x }

end State

variable [DecidableEq I]

/-! ## Constructors and the destructor -/

/-- `optional_destruct_base()`. -/
def empty (v : I) (s : State I V) : State I V :=
  ⟨Function.update s.hasVal v (some false), s.slots.clear v⟩

/-- The constructors from a value and in place. -/
def constructValue (v : I) (x : V) (s : State I V) : State I V :=
  ((empty v s).construct v (some x)).setHasVal v true

/-- `optional_copy_base(const optional_copy_base &)`, which copies its own `val_`. -/
def copyConstruct (v other : I) (s : State I V) : State I V :=
  let s := empty v s
  let s := s.setHasVal v (s.on other)
  if s.on v then s.construct v (s.val v) else s

/-- `optional_move_base(optional_move_base &&)`. -/
def moveConstruct (v other : I) (s : State I V) : State I V :=
  let s := empty v s
  let s := (s.setHasVal v (s.on other)).setHasVal other false
  if s.on v then (s.construct v (s.val other)).destroyAt other else s

/-- The constructor from `const optional<U> &`. -/
def convertConstruct (convert : V → V) (v other : I) (s : State I V) : State I V :=
  let s := empty v s
  let s := s.setHasVal v (s.on other)
  if s.on v then s.construct v ((s.val other).map convert) else s

/-- The constructor from `optional<U> &&`. -/
def convertMoveConstruct (convert : V → V) (v other : I) (s : State I V) : State I V :=
  let s := empty v s
  let s := (s.setHasVal v (s.on other)).setHasVal other false
  if s.on v then s.construct v ((s.val other).map convert) else s

def destruct (v : I) (s : State I V) : State I V :=
  let s := if s.on v then s.destroyAt v else s
  { s with hasVal := Function.update s.hasVal v none }

/-! ## Assignments and modifiers -/

/-- The assignment of `nullopt`. -/
def reset (v : I) (s : State I V) : State I V :=
  if s.on v then (s.setHasVal v false).destroyAt v else s

def copyAssign (v other : I) (s : State I V) : State I V :=
  match s.on v, s.on other with
  | true, true => s.assign v (s.val other)
  | true, false => (s.destroyAt v).setHasVal v false
  | false, true => (s.setHasVal v true).construct v (s.val other)
  | false, false => s

def moveAssign (v other : I) (s : State I V) : State I V :=
  match s.on v, s.on other with
  | true, true => ((s.assign v (s.val other)).destroyAt other).setHasVal other false
  | true, false => (s.destroyAt v).setHasVal v false
  | false, true =>
    (((s.setHasVal v true).construct v (s.val other)).destroyAt other).setHasVal other false
  | false, false => s

def valueAssign (v : I) (x : V) (s : State I V) : State I V :=
  if s.on v then s.assign v (some x) else (s.construct v (some x)).setHasVal v true

/-- The assignment from `const optional<U> &`. -/
def convertAssign (convert : V → V) (v other : I) (s : State I V) : State I V :=
  match s.on v, s.on other with
  | true, true => s.assign v ((s.val other).map convert)
  | true, false => (s.destroyAt v).setHasVal v false
  | false, true => (s.setHasVal v true).construct v ((s.val other).map convert)
  | false, false => s

/-- The assignment from `optional<U> &&`. -/
def convertMoveAssign (convert : V → V) (v other : I) (s : State I V) : State I V :=
  match s.on v, s.on other with
  | true, true => (s.assign v ((s.val other).map convert)).setHasVal other false
  | true, false => (s.destroyAt v).setHasVal v false
  | false, true =>
    ((s.setHasVal v true).construct v ((s.val other).map convert)).setHasVal other false
  | false, false => s

def emplace (v : I) (x : V) (s : State I V) : State I V :=
  let s := if s.on v then (s.destroyAt v).setHasVal v false else s
  (s.construct v (some x)).setHasVal v true

inductive Act (I V : Type)
  | empty (v : I)
  | construct (v : I) (x : V)
  | copyConstruct (v other : I)
  | moveConstruct (v other : I)
  | convertConstruct (v other : I)
  | convertMoveConstruct (v other : I)
  | destruct (v : I)
  | reset (v : I)
  | copyAssign (v other : I)
  | moveAssign (v other : I)
  | valueAssign (v : I) (x : V)
  | convertAssign (v other : I)
  | convertMoveAssign (v other : I)
  | emplace (v : I) (x : V)

/-- The element types of the variables, and how one type is constructed and assigned from another
one. -/
structure Types (I V : Type) where
  type : I → Nat
  convert : Nat → Nat → V → V

variable (ts : Types I V)

/-- A constructor is called where there is no optional, another member where there is one; the other
optional is of the same element type, or of another one when it is converted. -/
def Legal (s : State I V) : Act I V → Prop
  | .empty v | .construct v _ => s.hasVal v = none
  | .copyConstruct v other | .moveConstruct v other =>
    s.hasVal v = none ∧ s.hasVal other ≠ none ∧ ts.type v = ts.type other
  | .convertConstruct v other | .convertMoveConstruct v other =>
    s.hasVal v = none ∧ s.hasVal other ≠ none ∧ ts.type v ≠ ts.type other
  | .destruct v | .reset v | .valueAssign v _ | .emplace v _ => s.hasVal v ≠ none
  | .copyAssign v other | .moveAssign v other =>
    s.hasVal v ≠ none ∧ s.hasVal other ≠ none ∧ ts.type v = ts.type other
  | .convertAssign v other | .convertMoveAssign v other =>
    s.hasVal v ≠ none ∧ s.hasVal other ≠ none ∧ ts.type v ≠ ts.type other

def exec (s : State I V) : Act I V → State I V
  | .empty v => empty v s
  | .construct v x => constructValue v x s
  | .copyConstruct v other => copyConstruct v other s
  | .moveConstruct v other => moveConstruct v other s
  | .convertConstruct v other => convertConstruct (ts.convert (ts.type other) (ts.type v)) v other s
  | .convertMoveConstruct v other =>
    convertMoveConstruct (ts.convert (ts.type other) (ts.type v)) v other s
  | .destruct v => destruct v s
  | .reset v => reset v s
  | .copyAssign v other => copyAssign v other s
  | .moveAssign v other => moveAssign v other s
  | .valueAssign v x => valueAssign v x s
  | .convertAssign v other => convertAssign (ts.convert (ts.type other) (ts.type v)) v other s
  | .convertMoveAssign v other =>
    convertMoveAssign (ts.convert (ts.type other) (ts.type v)) v other s
  | .emplace v x => emplace v x s

def Step (s : State I V) (a : Act I V) (s' : State I V) : Prop := Legal ts s a ∧ exec ts s a = s'

end Gpcl.Optional
