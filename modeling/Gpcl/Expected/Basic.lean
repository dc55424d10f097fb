import Gpcl.Lib.Slots
import Gpcl.Lib.Runs

/-! # expected

An expected is `ok_` and a union of a `T` and an `unexpected<E>`. The special members of `T` and `E`
are not trivial and do not throw, which decides between the versions of the base classes; the
construction of a `T` from another type, or of an `E` from the error of another `unexpected`, may
throw.

The storages are the unions and, at `none`, that of a temporary object. A temporary is destroyed by
the operation that makes it, so what a move leaves in it does not show. -/
namespace Gpcl.Expected
open Lib.Slots

/-- The value of `T()`, and what remains of an object that has been moved from. -/
structure Types (T E : Type) where
  default : T
  leftVal : T → T
  leftErr : E → E

structure State (I T E : Type) where
  -- `ok_`, where there is an expected
  ok : I → Option Bool
  slots : Storages (Option I) (T ⊕ E)

variable {I T E : Type}

namespace State

def initial : State I T E := ⟨fun _ => none, .empty⟩

/-- `ok_`. -/
def isOk (s : State I T E) (v : I) : Bool := (s.ok v).getD false

/-- The storages that are in use. -/
def on (s : State I T E) : Option I → Bool
  | some v => (s.ok v).isSome
  | none => false

/-- `val_`, when there is a live `T`. -/
def val (s : State I T E) (v : I) : Option T := (s.slots.read (some v)).bind Sum.getLeft?

/-- `err_`, when there is a live `unexpected<E>`. -/
def err (s : State I T E) (v : I) : Option E := (s.slots.read (some v)).bind Sum.getRight?

variable [DecidableEq I]

def setOk (v : I) (b : Bool) (s : State I T E) : State I T E :=
  { s with ok := Function.update s.ok v (some b) }

/-- `::new (&val_) T(...)`. -/
def constructVal (v : I) (x : Option T) (s : State I T E) : State I T E :=
  { s with slots := s.slots.construct (some v) (x.map .inl) }

/-- `::new (&err_) unexpected<E>(...)`. -/
def constructErr (v : I) (e : Option E) (s : State I T E) : State I T E :=
  { s with slots := s.slots.construct (some v) (e.map .inr) }

/-- `val_.T::~T()` and `err_.unexpected<E>::~unexpected()`. -/
def destroyAt (v : I) (s : State I T E) : State I T E :=
  { s with slots := s.slots.destroyAt (some v) }

/-- `val_ = x`. -/
def assignVal (v : I) (x : Option T) (s : State I T E) : State I T E :=
  { s with slots := s.slots.assign (some v) (x.map .inl) }

/-- `err_ = e`. -/
def assignErr (v : I) (e : Option E) (s : State I T E) : State I T E :=
  { s with slots := s.slots.assign (some v) (e.map .inr) }

def constructTmp (x : Option (T ⊕ E)) (s : State I T E) : State I T E :=
  { s with slots := s.slots.construct none x }

def destroyTmp (s : State I T E) : State I T E := { s with slots := s.slots.destroyAt none }

/-- What is read from the temporary. -/
def tmp (s : State I T E) : Option (T ⊕ E) := s.slots.read none

end State

variable [DecidableEq I] (ty : Types T E)

/-- `val_` has been moved from. -/
def leaveVal (v : I) (s : State I T E) : State I T E := s.assignVal v ((s.val v).map ty.leftVal)

/-- `err_` has been moved from. -/
def leaveErr (v : I) (s : State I T E) : State I T E := s.assignErr v ((s.err v).map ty.leftErr)

/-! ## Constructors and the destructor -/

/-- The constructors from a value and in place. -/
def valueConstruct (v : I) (x : T) (s : State I T E) : State I T E :=
  (State.constructVal v (some x) { s with slots := s.slots.clear (some v) }).setOk v true

/-- The constructors from an `unexpected` and with `unexpect`. -/
def errorConstruct (v : I) (e : E) (s : State I T E) : State I T E :=
  (State.constructErr v (some e) { s with slots := s.slots.clear (some v) }).setOk v false

/-- `expected_destruct_base()`. -/
def defaultConstruct (v : I) (s : State I T E) : State I T E := valueConstruct v ty.default s

/-- `expected_copy_base(const expected_copy_base &)`, after the default constructor of its base. -/
def copyConstruct (v other : I) (s : State I T E) : State I T E :=
  let s := defaultConstruct ty v s
  let s := s.setOk v (s.isOk other)
  if s.isOk v then s.constructVal v (s.val other) else s.constructErr v (s.err other)

/-- `expected_move_base(expected_move_base &&)`, after the default constructor of its base. -/
def moveConstruct (v other : I) (s : State I T E) : State I T E :=
  let s := defaultConstruct ty v s
  let s := s.setOk v (s.isOk other)
  if s.isOk v then leaveVal ty other (s.constructVal v (s.val other))
  else leaveErr ty other (s.constructErr v (s.err other))

def destruct (v : I) (s : State I T E) : State I T E :=
  let s := s.destroyAt v
  { s with ok := Function.update s.ok v none }

/-! ## Assignments and modifiers -/

def copyAssign (v other : I) (s : State I T E) : State I T E :=
  match s.isOk v, s.isOk other with
  | true, true => s.assignVal v (s.val other)
  | true, false => ((s.destroyAt v).constructErr v (s.err other)).setOk v false
  | false, true => ((s.destroyAt v).constructVal v (s.val other)).setOk v true
  | false, false => s.assignErr v (s.err other)

def moveAssign (v other : I) (s : State I T E) : State I T E :=
  match s.isOk v, s.isOk other with
  | true, true => leaveVal ty other (s.assignVal v (s.val other))
  | true, false => (leaveErr ty other ((s.destroyAt v).constructErr v (s.err other))).setOk v false
  | false, true => (leaveVal ty other ((s.destroyAt v).constructVal v (s.val other))).setOk v true
  | false, false => leaveErr ty other (s.assignErr v (s.err other))

/-- `operator=(U &&)`. Where the constructor of `T` from `U` may throw the error is kept in a
temporary and put back; the exception is not passed on. -/
def valueAssign (nothrow throws : Bool) (v : I) (x : T) (s : State I T E) : State I T E :=
  if s.isOk v then
    if throws then s else s.assignVal v (some x)
  else if nothrow then
    ((s.destroyAt v).constructVal v (some x)).setOk v true
  else
    let s := leaveErr ty v (s.constructTmp ((s.err v).map .inr))
    let s := s.destroyAt v
    let s := if throws then s.constructErr v (s.tmp.bind Sum.getRight?)
      else s.constructVal v (some x)
    (s.setOk v true).destroyTmp

/-- `operator=(const unexpected<G> &)` and `operator=(unexpected<G> &&)`. -/
def errorAssign (throws : Bool) (v : I) (e : E) (s : State I T E) : State I T E :=
  if s.isOk v then
    let s := s.destroyAt v
    if throws then s else (s.constructErr v (some e)).setOk v false
  else if throws then s
  else s.assignErr v (some e)

/-- An exception can only come from the first construction, before anything has changed. -/
def emplace (nothrow throws : Bool) (v : I) (x : T) (s : State I T E) : State I T E :=
  if throws then s
  else if s.isOk v then
    let s := s.constructTmp (some (.inl x))
    (s.assignVal v (s.tmp.bind Sum.getLeft?)).destroyTmp
  else if nothrow then
    ((s.destroyAt v).constructVal v (some x)).setOk v true
  else
    let s := s.constructTmp (some (.inl x))
    let s := s.destroyAt v
    ((s.constructVal v (s.tmp.bind Sum.getLeft?)).setOk v true).destroyTmp

inductive Act (I T E : Type)
  | defaultConstruct (v : I)
  | valueConstruct (v : I) (x : T)
  | errorConstruct (v : I) (e : E)
  | copyConstruct (v other : I)
  | moveConstruct (v other : I)
  | destruct (v : I)
  | copyAssign (v other : I)
  | moveAssign (v other : I)
  -- whether the constructor is declared not to throw, and whether it throws
  | valueAssign (nothrow throws : Bool) (v : I) (x : T)
  | errorAssign (throws : Bool) (v : I) (e : E)
  | emplace (nothrow throws : Bool) (v : I) (x : T)

/-- A constructor is called where there is no expected, another member where there is one; a
constructor of `T` that is declared not to throw does not. -/
def Legal (s : State I T E) : Act I T E → Prop
  | .defaultConstruct v | .valueConstruct v _ | .errorConstruct v _ => s.ok v = none
  | .copyConstruct v other | .moveConstruct v other => s.ok v = none ∧ s.ok other ≠ none
  | .destruct v | .errorAssign _ v _ => s.ok v ≠ none
  | .copyAssign v other | .moveAssign v other => s.ok v ≠ none ∧ s.ok other ≠ none
  | .valueAssign nothrow throws v _ =>
    s.ok v ≠ none ∧ (nothrow = true → s.isOk v = false → throws = false)
  | .emplace nothrow throws v _ => s.ok v ≠ none ∧ (nothrow = true → throws = false)

def exec (s : State I T E) : Act I T E → State I T E
  | .defaultConstruct v => defaultConstruct ty v s
  | .valueConstruct v x => valueConstruct v x s
  | .errorConstruct v e => errorConstruct v e s
  | .copyConstruct v other => copyConstruct ty v other s
  | .moveConstruct v other => moveConstruct ty v other s
  | .destruct v => destruct v s
  | .copyAssign v other => copyAssign v other s
  | .moveAssign v other => moveAssign ty v other s
  | .valueAssign nothrow throws v x => valueAssign ty nothrow throws v x s
  | .errorAssign throws v e => errorAssign throws v e s
  | .emplace nothrow throws v x => emplace nothrow throws v x s

def Step (s : State I T E) (a : Act I T E) (s' : State I T E) : Prop := Legal s a ∧ exec ty s a = s'

end Gpcl.Expected
