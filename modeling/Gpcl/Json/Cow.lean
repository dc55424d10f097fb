import Gpcl.Json.Value
import Gpcl.Lib.Runs
import Mathlib.Logic.Function.Basic

/-! # Copy on write

`data_type` with its shared pointers. A cell of the heap is what an `allocate_shared` has made;
cells are numbered in that order and are never given back here. A reference is to a variable or a
cell and goes from there through containers that are held directly, so that a write through it
changes that variable or cell. The client has the references the accessors have returned to it,
and those of non-const accessors may be written through. -/
namespace Gpcl.Cow
open Lib.Runs

variable {R I : Type}

inductive Data (R : Type)
  | null
  | boolean (b : Bool)
  | integer (i : Int)
  | real (r : R)
  | string (s : Str)
  | stringPtr (p : Nat)
  | object (fields : List (Str × Data R))
  | objectPtr (p : Nat)
  | array (xs : List (Data R))
  | arrayPtr (p : Nat)

abbrev Heap (R : Type) := List (Data R)

/-- The alternatives, whether or not they are held through a pointer. -/
inductive Tag
  | null
  | boolean
  | integer
  | real
  | string
  | object
  | array
deriving DecidableEq

def Data.tag : Data R → Tag
  | .null => .null
  | .boolean _ => .boolean
  | .integer _ => .integer
  | .real _ => .real
  | .string _ | .stringPtr _ => .string
  | .object _ | .objectPtr _ => .object
  | .array _ | .arrayPtr _ => .array

mutual

/-- A value that the client has built, without copies. -/
def ofJson : Json R → Data R
  | .null => .null
  | .boolean b => .boolean b
  | .integer i => .integer i
  | .real r => .real r
  | .string s => .string s
  | .array xs => .array (ofJsonList xs)
  | .object fields => .object (ofJsonFields fields)

def ofJsonList : List (Json R) → List (Data R)
  | [] => []
  | x :: xs => ofJson x :: ofJsonList xs

def ofJsonFields : List (Str × Json R) → List (Str × Data R)
  | [] => []
  | (k, x) :: fields => (k, ofJson x) :: ofJsonFields fields

end

/-- `dereference_ptr`. -/
def deref (H : Heap R) : Data R → Data R
  | .stringPtr p | .objectPtr p | .arrayPtr p => H.getD p .null
  | d => d

mutual

/-- The copy constructor of `value`, with `clone_visitor`. -/
def clone (H : Heap R) : Data R → Heap R × Data R
  | .string s => (H ++ [.string s], .stringPtr H.length)
  | .object fields =>
    let (H, fields) := cloneFields H fields
    (H ++ [.object fields], .objectPtr H.length)
  | .array xs =>
    let (H, xs) := cloneList H xs
    (H ++ [.array xs], .arrayPtr H.length)
  | .null => (H, .null)
  | .boolean b => (H, .boolean b)
  | .integer i => (H, .integer i)
  | .real r => (H, .real r)
  | .stringPtr p => (H, .stringPtr p)
  | .objectPtr p => (H, .objectPtr p)
  | .arrayPtr p => (H, .arrayPtr p)

/-- The copy constructor of `array_type`. -/
def cloneList (H : Heap R) : List (Data R) → Heap R × List (Data R)
  | [] => (H, [])
  | x :: xs =>
    let (H, x) := clone H x
    let (H, xs) := cloneList H xs
    (H, x :: xs)

/-- The copy constructor of `object_type`. -/
def cloneFields (H : Heap R) : List (Str × Data R) → Heap R × List (Str × Data R)
  | [] => (H, [])
  | (k, x) :: fields =>
    let (H, x) := clone H x
    let (H, fields) := cloneFields H fields
    (H, (k, x) :: fields)

end

/-- `dest_ = *x`. -/
def copyDirect (H : Heap R) : Data R → Heap R × Data R
  | .array xs =>
    let (H, xs) := cloneList H xs
    (H, .array xs)
  | .object fields =>
    let (H, fields) := cloneFields H fields
    (H, .object fields)
  | d => (H, d)

/-- What `cow_visitor` does before it calls its function. -/
def cow (H : Heap R) : Data R → Heap R × Data R
  | .stringPtr p => copyDirect H (H.getD p .null)
  | .objectPtr p => copyDirect H (H.getD p .null)
  | .arrayPtr p => copyDirect H (H.getD p .null)
  | d => (H, d)

/-- `std::equal`. -/
def equalLists {α : Type} (eq : α → α → Option Bool) : List α → List α → Option Bool
  | x :: xs, y :: ys => (eq x y).bind fun b => if b then equalLists eq xs ys else some false
  | _, _ => some true

/-- `operator==`, with fuel for the depth. -/
def equal [BEq R] : Nat → Heap R → Data R → Data R → Option Bool
  | 0, _, _, _ => none
  | fuel + 1, H, x, y =>
    match deref H x, deref H y with
    | .null, .null => some true
    | .boolean b, .boolean c => some (b == c)
    | .integer i, .integer j => some (i == j)
    | .real r, .real q => some (r == q)
    | .string s, .string t => some (s == t)
    | .object fs, .object gs =>
      if fs.length = gs.length then
        equalLists (fun f g => if f.1 = g.1 then equal fuel H f.2 g.2 else some false) fs gs
      else some false
    | .array xs, .array ys =>
      if xs.length = ys.length then equalLists (equal fuel H) xs ys else some false
    | _, _ => some false

/-! ## Places -/

inductive Place
  | index (i : Nat)
  | key (k : Str)
deriving DecidableEq

/-- `std::map::find`. -/
def findKey {V : Type} (k : Str) : List (Str × V) → Option V
  | [] => none
  | (k', v) :: fields => if k' = k then some v else findKey k fields

def modifyKey {V : Type} (k : Str) (f : V → V) : List (Str × V) → List (Str × V)
  | [] => []
  | (k', v) :: fields => if k' = k then (k', f v) :: fields else (k', v) :: modifyKey k f fields

/-- `std::map::erase`. -/
def eraseKey {V : Type} (k : Str) : List (Str × V) → List (Str × V)
  | [] => []
  | (k', v) :: fields => if k' = k then fields else (k', v) :: eraseKey k fields

namespace Data

def child : Place → Data R → Option (Data R)
  | .index i, .array xs => xs[i]?
  | .key k, .object fields => findKey k fields
  | _, _ => none

def onChild (f : Data R → Data R) : Place → Data R → Data R
  | .index i, .array xs => .array (xs.modify i f)
  | .key k, .object fields => .object (modifyKey k f fields)
  | _, d => d

def find : List Place → Data R → Option (Data R)
  | [], d => some d
  | p :: path, d => (d.child p).bind (find path)

def modify (f : Data R → Data R) : List Place → Data R → Data R
  | [], d => f d
  | p :: path, d => d.onChild (modify f path) p

end Data

inductive Base (I : Type)
  | var (v : I)
  | cell (p : Nat)
deriving DecidableEq

structure Ref (I : Type) where
  base : Base I
  path : List Place
deriving DecidableEq

structure State (I R : Type) where
  vars : I → Option (Data R)
  heap : Heap R
  refs : List (Ref I)
  constRefs : List (Ref I)

def State.initial : State I R := ⟨fun _ => none, [], [], []⟩

/-- The root of a reference. -/
def State.root (s : State I R) : Base I → Option (Data R)
  | .var v => s.vars v
  | .cell p => s.heap[p]?

/-- The data of the value that is referred to. -/
def State.read (s : State I R) (r : Ref I) : Option (Data R) :=
  (s.root r.base).bind (Data.find r.path)

/-- The reference that `f_(xs...)` returns for a part of what it has been called with. -/
def Ref.child (r : Ref I) (d : Data R) (p : Place) : Ref I :=
  match d with
  | .stringPtr q | .objectPtr q | .arrayPtr q => ⟨.cell q, [p]⟩
  | _ => ⟨r.base, r.path ++ [p]⟩

variable [DecidableEq I]

def State.write (r : Ref I) (d : Data R) (s : State I R) : State I R :=
  match r.base with
  | .var v =>
    { s with vars := Function.update s.vars v ((s.vars v).map (Data.modify (fun _ => d) r.path)) }
  | .cell p => { s with heap := s.heap.modify p (Data.modify (fun _ => d) r.path) }

/-- A new variable, which the client may write to. -/
def State.create (v : I) (d : Data R) (s : State I R) : State I R :=
  { s with vars := Function.update s.vars v (some d), refs := ⟨.var v, []⟩ :: s.refs }

def State.readable (s : State I R) (r : Ref I) : Prop := r ∈ s.refs ∨ r ∈ s.constRefs

instance (s : State I R) (r : Ref I) : Decidable (s.readable r) :=
  inferInstanceAs (Decidable (_ ∨ _))

/-- A visit with a `cow_visitor`; `f` continues with what it has been called with. -/
def onCow (r : Ref I) (f : Data R → State I R → Option (State I R)) (s : State I R) :
    Option (State I R) :=
  if r ∈ s.refs then
    (s.read r).bind fun d =>
      let (H, d) := cow s.heap d
      f d (State.write r d { s with heap := H })
  else none

/-! ## The operations -/

def copyConstruct (v : I) (source : Ref I) (s : State I R) : Option (State I R) :=
  if s.readable source ∧ (s.vars v).isNone then
    (s.read source).map fun d =>
      let (H, d) := clone s.heap d
      State.create v d { s with heap := H }
  else none

def copyAssign (r source : Ref I) (s : State I R) : Option (State I R) :=
  if r ∈ s.refs ∧ (s.read r).isSome ∧ s.readable source then
    (s.read source).map fun d =>
      if r = source then s
      else
        let (H, d) := clone s.heap d
        State.write r d { s with heap := H }
  else none

/-- The assignment of a null, a number, a string, an array or an object. -/
def assign (r : Ref I) (x : Json R) (s : State I R) : Option (State I R) :=
  if r ∈ s.refs ∧ (s.read r).isSome then some (s.write r (ofJson x)) else none

/-- `at`, and `operator[]` with an index. An exception leaves the client without a reference. -/
def atPlace (r : Ref I) (p : Place) (s : State I R) : Option (State I R) :=
  onCow r (fun d s =>
    some (if (d.child p).isSome then { s with refs := r.child d p :: s.refs } else s)) s

/-- The const overloads of the same. -/
def constAtPlace (r : Ref I) (p : Place) (s : State I R) : Option (State I R) :=
  if s.readable r then
    (s.read r).map fun d =>
      if ((deref s.heap d).child p).isSome then { s with constRefs := r.child d p :: s.constRefs }
        else s
  else none

/-- `operator[]` with a key. -/
def index (r : Ref I) (k : Str) (s : State I R) : Option (State I R) :=
  onCow r (fun d s => match d with
    | .object fields =>
      let s := s.write r (.object (insertKey k .null fields))
      some { s with refs := r.child d (.key k) :: s.refs }
    | _ => some s) s

/-- `get` and `get_if`. -/
def get (r : Ref I) (s : State I R) : Option (State I R) := onCow r (fun _ s => some s) s

/-- An assignment to what `get<T>()` returns. -/
def getAssign (r : Ref I) (x : Json R) (s : State I R) : Option (State I R) :=
  onCow r (fun d s => some (if d.tag = (ofJson x).tag then s.write r (ofJson x) else s)) s

def pushBack (r source : Ref I) (s : State I R) : Option (State I R) :=
  if s.readable source ∧ (s.read source).isSome then
    onCow r (fun d s =>
      (s.read source).map fun x => match d with
        | .array xs =>
          let (H, x) := clone s.heap x
          State.write r (.array (xs ++ [x])) { s with heap := H }
        | _ => s) s
  else none

/-- `push_back` of a character. -/
def pushBackChar (r : Ref I) (ch : Char) (s : State I R) : Option (State I R) :=
  onCow r (fun d s => match d with
    | .string t => some (s.write r (.string (t ++ [ch])))
    | _ => some s) s

/-- `insert(key, mapped)`, which makes the pair first. -/
def insert (r : Ref I) (k : Str) (source : Ref I) (s : State I R) : Option (State I R) :=
  if s.readable source then
    (s.read source).bind fun x =>
      let (H, x) := clone s.heap x
      onCow r (fun d s => match d with
        | .object fields => some (s.write r (.object (insertKey k x fields)))
        | _ => some s) { s with heap := H }
  else none

/-- `erase(pos, count)`; the range has to be in the array. -/
def erase (r : Ref I) (pos count : Nat) (s : State I R) : Option (State I R) :=
  onCow r (fun d s => match d with
    | .array xs =>
      if pos + count ≤ xs.length
        then some (s.write r (.array (xs.take pos ++ xs.drop (pos + count)))) else none
    | .string t =>
      some (if pos ≤ t.length then s.write r (.string (t.take pos ++ t.drop (pos + count))) else s)
    | _ => some s) s

/-- `erase(key)`, which asserts that there is an object. -/
def eraseMember (r : Ref I) (k : Str) (s : State I R) : Option (State I R) :=
  onCow r (fun d s => match d with
    | .object fields => some (s.write r (.object (eraseKey k fields)))
    | _ => none) s

variable [Zero R]

/-- A value-initialised alternative. -/
def Data.cleared : Data R → Data R
  | .null => .null
  | .boolean _ => .boolean false
  | .integer _ => .integer 0
  | .real _ => .real 0
  | .string _ | .stringPtr _ => .string []
  | .object _ | .objectPtr _ => .object []
  | .array _ | .arrayPtr _ => .array []

/-- `clear` has no need for a copy. -/
def clear (r : Ref I) (s : State I R) : Option (State I R) :=
  if r ∈ s.refs then (s.read r).map fun d => s.write r (deref s.heap d).cleared else none

inductive Act (I R : Type)
  | construct (v : I) (x : Json R)
  | copyConstruct (v : I) (source : Ref I)
  | copyAssign (r source : Ref I)
  | assign (r : Ref I) (x : Json R)
  | atPlace (r : Ref I) (p : Place)
  | constAtPlace (r : Ref I) (p : Place)
  | index (r : Ref I) (k : Str)
  | get (r : Ref I)
  | getAssign (r : Ref I) (x : Json R)
  | pushBack (r source : Ref I)
  | pushBackChar (r : Ref I) (ch : Char)
  | insert (r : Ref I) (k : Str) (source : Ref I)
  | erase (r : Ref I) (pos count : Nat)
  | eraseMember (r : Ref I) (k : Str)
  | clear (r : Ref I)

def step (s : State I R) : Act I R → Option (State I R)
  | .construct v x => if (s.vars v).isNone then some (s.create v (ofJson x)) else none
  | .copyConstruct v source => copyConstruct v source s
  | .copyAssign r source => copyAssign r source s
  | .assign r x => assign r x s
  | .atPlace r p => atPlace r p s
  | .constAtPlace r p => constAtPlace r p s
  | .index r k => index r k s
  | .get r => get r s
  | .getAssign r x => getAssign r x s
  | .pushBack r source => pushBack r source s
  | .pushBackChar r ch => pushBackChar r ch s
  | .insert r k source => insert r k source s
  | .erase r pos count => erase r pos count s
  | .eraseMember r k => eraseMember r k s
  | .clear r => clear r s

def Step (s : State I R) (a : Act I R) (s' : State I R) : Prop := step s a = some s'

end Gpcl.Cow
