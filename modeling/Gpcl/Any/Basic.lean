import Gpcl.Lib.Forests
import Gpcl.Lib.Runs

/-! # basic_any

A basic_any is `manage_`, which stands for the type of the contained object, and `data_`. The object
is in the local buffer or where `remote_addr` points to; either way the model has it in the any. A
pointer that a move leaves behind is not read again, since `manage_` is null there, and the model
forgets it.

Anys may be parts of contained objects, as the elements of a vector in an any are. So the anys in
scope are a forest, in which the anys inside an object are below the any that contains it. They are
destroyed with the object, copied with it, and go along where it is moved; an object in a local
buffer has them in memory of its own, which a move hands over, for an any does not fit into the
buffer of an any. An object that is moved into an any inside of it is in no scope any more.

Constructors other than the move constructor of a type that is stored locally may throw, and so may
the allocation of a remote object; what they have made by then they destroy. -/
namespace Gpcl.Any
open Lib.Forests

structure Types (T V : Type) where
  localSize : Nat
  localAlign : Nat
  sizeof : T → Nat
  alignof : T → Nat
  isNothrowMoveConstructible : T → Bool
  -- what remains of an object that has been moved from
  left : T → V → V

/-- The anys of the program, and the temporaries `basic_any(...)` of the assignments and `temp` of
`swap`. -/
inductive Place (I : Type)
  | var (v : I)
  | argument
  | temp
deriving DecidableEq

theorem Place.var_ne_argument {I : Type} (v : I) : Place.var v ≠ .argument := nofun

theorem Place.argument_ne_temp {I : Type} : (Place.argument : Place I) ≠ .temp := nofun

def Place.map {I : Type} (names : I → I) : Place I → Place I
  | .var v => .var (names v)
  | .argument => .argument
  | .temp => .temp

/-- `manage_`, and the object. -/
structure Held (T O : Type) where
  manage : Option T
  object : Option O

/-- The objects are numbered in the order of their construction. -/
abbrev Anys (I T V : Type) := Forest (Place I) (Held T (Nat × V))

structure State (I T V : Type) where
  scope : Anys I T V
  made : Nat
  -- how often an object has been destroyed
  destroyed : Nat → Nat
  -- whether an object or an any has been read after its destruction
  stale : Bool

variable {I T V : Type}

/-- Whether the object has this number. -/
def Held.number (o : Nat) (h : Held T (Nat × V)) : Nat :=
  if h.object.map Prod.fst = some o then 1 else 0

/-- How many anys have the object with this number. -/
def count (o : Nat) (f : Anys I T V) : Nat := f.sum fun _ h => h.number o

def size (f : Anys I T V) : Nat := f.sum fun _ h => if h.object.isSome then 1 else 0

/-- The objects get new numbers. -/
def renumber : Nat → Anys I T V → Anys I T V
  | _, .nil => .nil
  | k, .node n h b r =>
    let k' := if h.object.isSome then k + 1 else k
    .node n ⟨h.manage, h.object.map fun x => (k, x.2)⟩ (renumber k' b) (renumber (k' + size b) r)

variable [DecidableEq I] (ty : Types T V)

namespace State

def initial : State I T V := ⟨.nil, 0, fun _ => 0, false⟩

/-- `manage_`. -/
def manager (s : State I T V) (v : Place I) : Option T := (s.scope.find? v).bind fun x => x.1.manage

/-- The any `v` is read. -/
def look (v : Place I) (s : State I T V) : State I T V :=
  { s with stale := s.stale || (s.scope.find? v).isNone }

def setManage (v : Place I) (m : Option T) (s : State I T V) : State I T V :=
  match s.scope.find? v with
  | some (h, b) => { s with scope := s.scope.set v ⟨m, h.object⟩ b }
  | none => s

/-- An object comes into an any, with the anys inside of it. -/
def put (v : Place I) (object : Option (Nat × V)) (inside : Anys I T V) (s : State I T V) :
    State I T V :=
  match s.scope.find? v with
  | some (h, _) => { s with scope := s.scope.set v ⟨h.manage, object⟩ inside }
  | none => s

/-- An any comes into scope, as a variable or inside the object of another any. -/
def add (home : Option I) (v : Place I) (h : Held T (Nat × V)) (inside : Anys I T V)
    (s : State I T V) : State I T V :=
  { s with scope := s.scope.add (home.map .var) v h inside }

/-- Objects that have been made are destroyed for an exception. -/
def abandon (k : Nat) (s : State I T V) : State I T V :=
  { s with
    made := s.made + k, destroyed :=
      fun o => s.destroyed o + if s.made ≤ o ∧ o < s.made + k then 1 else 0 }

end State

/-! ## any_manager -/

def localStorage (t : T) : Bool :=
  decide (ty.sizeof t ≤ ty.localSize) && decide (ty.alignof t ≤ ty.localAlign) &&
    ty.localAlign % ty.alignof t == 0 &&
    ty.isNothrowMoveConstructible t

/-- A copy of the object of `source` and of the anys inside of it, which have names of their own. -/
def clone (names : I → I) (source : Place I) (s : State I T V) :
    Option ((Nat × V) × Anys I T V × State I T V) :=
  match s.scope.find? source with
  | some (⟨_, some (_, x)⟩, b) =>
    some ((s.made + size b, x), renumber s.made (b.rename (Place.map names)),
      { s with made := s.made + size b + 1 })
  | _ => none

/-- Whether the object has been handed over. If not, a new one has been constructed and the old one
moved from. -/
def move (t : T) (dest source : Place I) (s : State I T V) : Bool × State I T V :=
  match s.scope.find? source with
  | some (h, b) =>
    if localStorage ty t then
      match h.object with
      | some (o, x) =>
        let s := { s with scope := s.scope.set source ⟨h.manage, some (o, ty.left t x)⟩ .nil }
        (false, { s.put dest (some (s.made, x)) b with made := s.made + 1 })
      | none => (false, { s with stale := true })
    else
      let s := { s with scope := s.scope.set source ⟨h.manage, none⟩ .nil }
      (true, s.put dest h.object b)
  | none => (false, { s with stale := true })

/-- The destructor of the object, and those of the anys inside of it. -/
def destroy (dest : Place I) (s : State I T V) : State I T V :=
  match s.scope.find? dest with
  | some (h, b) =>
    { s with
      scope := s.scope.set dest ⟨h.manage, none⟩ .nil
      destroyed := fun o => s.destroyed o + (h.number o + count o b)
      stale := s.stale || h.object.isNone }
  | none => { s with stale := true }

/-! ## Constructors and the destructor -/

/-- What the constructor of the contained object is called with. -/
inductive Arg (I V : Type)
  | value (x : V)
  -- a reference to the object of an any, from which it makes `make` and where it leaves `leave`,
  -- and whether it takes the anys inside along
  | content (w : I) (make leave : V → V) (takes : Bool)
  -- such a reference, of which it copies the anys inside
  | copy (w : I) (make : V → V) (names : I → I)

/-- The value of the new object, and the anys inside of it. -/
def Arg.read : Arg I V → State I T V → Option (V × Anys I T V × State I T V)
  | .value x, s => some (x, .nil, s)
  | .content w make leave takes, s =>
    match s.scope.find? (.var w) with
    | some (⟨m, some (o, x)⟩, b) =>
      some (make x, if takes then b else .nil,
        { s with scope := s.scope.set (.var w) ⟨m, some (o, leave x)⟩ (if takes then .nil else b) })
    | _ => none
  | .copy w make names, s =>
    match s.scope.find? (.var w) with
    | some (⟨_, some (_, x)⟩, b) =>
      some (make x, renumber s.made (b.rename (Place.map names)),
        { s with made := s.made + size b })
    | _ => none

/-- What an exception leaves of the argument. -/
def Arg.spent : Arg I V → State I T V → State I T V
  | .content w _ leave _, s =>
    match s.scope.find? (.var w) with
    | some (⟨m, some (o, x)⟩, b) =>
      { s with scope := s.scope.set (.var w) ⟨m, some (o, leave x)⟩ b }
    | _ => { s with stale := true }
  | _, s => s

def defaultConstruct (home : Option I) (v : Place I) (s : State I T V) : State I T V :=
  s.add home v ⟨none, none⟩ .nil

/-- The constructors from a value and in place. -/
def construct (throws : Option Nat) (home : Option I) (v : Place I) (t : T) (arg : Arg I V)
    (s : State I T V) :
    State I T V :=
  match throws with
  -- there is no any after an exception
  | some k => (arg.spent s).abandon k
  | none =>
    match arg.read s with
    | some (x, b, s) => { s.add home v ⟨some t, some (s.made, x)⟩ b with made := s.made + 1 }
    | none => { s with stale := true }

def copyConstruct (throws : Option Nat) (home : Option I) (v other : Place I) (names : I → I)
    (s : State I T V) :
    State I T V :=
  let s := s.look other
  match s.manager other with
  | some t =>
    match throws with
    | some k => s.abandon k
    | none =>
      match clone names other s with
      | some (x, b, s) => s.add home v ⟨some t, some x⟩ b
      | none => { s with stale := true }
  | none => s.add home v ⟨none, none⟩ .nil

/-- `if (manage_) if (manage_(&data_, &other.data_, any_manage_op::move)) other.manage_ =
nullptr;` -/
def moveData (v other : Place I) (s : State I T V) : State I T V :=
  match s.manager v with
  | some t =>
    match move ty t v other s with
    | (true, s) => s.setManage other none
    | (false, s) => s
  | none => s

def moveConstruct (home : Option I) (v other : Place I) (s : State I T V) : State I T V :=
  let s := s.look other
  moveData ty v other (s.add home v ⟨s.manager other, none⟩ .nil)

/-- `if (manage_) manage_(&data_, nullptr, any_manage_op::destroy);` -/
def destroyData (v : Place I) (s : State I T V) : State I T V :=
  match s.manager v with
  | some _ => destroy v s
  | none => s

def destruct (v : Place I) (s : State I T V) : State I T V :=
  let s := destroyData v s
  { s with scope := s.scope.erase v }

/-! ## Assignments and modifiers -/

def moveAssign (v other : Place I) (s : State I T V) : State I T V :=
  let s := destroyData v s
  let s := s.look other
  moveData ty v other (s.setManage v (s.manager other))

def swap (v other : Place I) (s : State I T V) : State I T V :=
  let s := moveConstruct ty none .temp other s
  let s := moveAssign ty other v s
  let s := moveAssign ty v .temp s
  destruct .temp s

/-- `basic_any(...).swap(*this)`, when there is a `basic_any(...)`. -/
def swapArgument (v : Place I) (s : State I T V) : State I T V :=
  if (s.scope.find? .argument).isSome then destruct .argument (swap ty .argument v s) else s

def copyAssign (throws : Option Nat) (v other : Place I) (names : I → I) (s : State I T V) :
    State I T V :=
  swapArgument ty v (copyConstruct throws none .argument other names s)

def assign (throws : Option Nat) (v : Place I) (t : T) (arg : Arg I V) (s : State I T V) :
    State I T V :=
  swapArgument ty v (construct throws none .argument t arg s)

def reset (v : Place I) (s : State I T V) : State I T V := (destroyData v s).setManage v none

def emplace (throws : Option Nat) (v : Place I) (t : T) (arg : Arg I V) (s : State I T V) :
    State I T V :=
  swapArgument ty v (construct throws none .argument t arg s)

/-! ## Steps -/

inductive Act (I T V : Type)
  -- a constructor is called for a variable, or inside the object of the any `home`
  | defaultConstruct (home : Option I) (v : I)
  -- whether the constructor of the contained object or its allocation throws, and after how many
  -- objects inside
  | construct (throws : Option Nat) (home : Option I) (v : I) (t : T) (arg : Arg I V)
  | copyConstruct (throws : Option Nat) (home : Option I) (v other : I) (names : I → I)
  | moveConstruct (home : Option I) (v other : I)
  | destruct (v : I)
  | copyAssign (throws : Option Nat) (v other : I) (names : I → I)
  | moveAssign (v other : I)
  | assign (throws : Option Nat) (v : I) (t : T) (arg : Arg I V)
  | swap (v other : I)
  | reset (v : I)
  | emplace (throws : Option Nat) (v : I) (t : T) (arg : Arg I V)

/-- The copies of the anys inside the object of `w` have names that nothing else has. -/
def NewNames (s : State I T V) (v w : I) (names : I → I) : Prop :=
  ∀ x, s.scope.find? (.var w) = some x → ∀ m : Place I,
    (x.2.rename (Place.map names)).occurs m + (if Place.var v = m then 1 else s.scope.occurs m) ≤ 1

/-- There is an object to refer to. -/
def Arg.Legal (s : State I T V) (v : I) : Arg I V → Prop
  | .value _ => True
  | .content w _ _ _ => s.manager (.var w) ≠ none
  | .copy w _ names => s.manager (.var w) ≠ none ∧ NewNames s v w names

namespace State

/-- There is an any of that name. -/
def Has (s : State I T V) (v : I) : Prop := 0 < s.scope.occurs (.var v)

instance (s : State I T V) (v : I) : Decidable (s.Has v) := Nat.decLt _ _

/-- There is an object for the new any to be inside of, and the name is new. -/
def Free (s : State I T V) (home : Option I) (v : I) : Prop :=
  ¬ s.Has v ∧ ∀ w, home = some w → s.manager (.var w) ≠ none

end State

/-- A constructor is called where there is no any, another member where there is one. -/
def Legal (s : State I T V) : Act I T V → Prop
  | .defaultConstruct home v => s.Free home v
  | .construct _ home v _ arg => s.Free home v ∧ arg.Legal s v
  | .copyConstruct _ home v other names => s.Free home v ∧ s.Has other ∧ NewNames s v other names
  | .moveConstruct home v other => s.Free home v ∧ s.Has other
  | .destruct v | .reset v => s.Has v
  | .copyAssign _ v other names => s.Has v ∧ s.Has other ∧ NewNames s v other names
  | .moveAssign v other | .swap v other => s.Has v ∧ s.Has other
  | .assign _ v _ arg | .emplace _ v _ arg => s.Has v ∧ arg.Legal s v

def exec (s : State I T V) : Act I T V → State I T V
  | .defaultConstruct home v => defaultConstruct home (.var v) s
  | .construct throws home v t arg => construct throws home (.var v) t arg s
  | .copyConstruct throws home v other names =>
    copyConstruct throws home (.var v) (.var other) names s
  | .moveConstruct home v other => moveConstruct ty home (.var v) (.var other) s
  | .destruct v => destruct (.var v) s
  | .copyAssign throws v other names => copyAssign ty throws (.var v) (.var other) names s
  | .moveAssign v other => moveAssign ty (.var v) (.var other) s
  | .assign throws v t arg => assign ty throws (.var v) t arg s
  | .swap v other => swap ty (.var v) (.var other) s
  | .reset v => reset (.var v) s
  | .emplace throws v t arg => emplace ty throws (.var v) t arg s

def Step (s : State I T V) (a : Act I T V) (s' : State I T V) : Prop := Legal s a ∧ exec ty s a = s'

end Gpcl.Any
