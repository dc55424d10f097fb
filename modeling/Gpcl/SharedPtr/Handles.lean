import Mathlib.Algebra.BigOperators.Group.Multiset.Defs
import Mathlib.Tactic.Common

/-! # shared_ptr and weak_ptr over many control blocks

Managed objects have members that are handles themselves, so that the end of one object can be the
end of others. A client's operation does its work on the handles at once; the `put()`s and
`weak_put()`s of the handles it drops become a stack of tasks, the activations that are still to
return. The tasks of a stack run from its top; between two of them any other stack may run, and
clients may do anything. A control block that is deleted is `none` from then on. -/
namespace Gpcl.SharedPtr.Graph

inductive Kind
  | shared
  | weak
deriving DecidableEq

/-- A `shared_ptr` or a `weak_ptr`: `p_`, where 0 is `nullptr`, and the control block `s_`. -/
structure Handle where
  kind : Kind
  p : Nat
  s : Option Nat
deriving DecidableEq

def Handle.null (k : Kind) : Handle := ⟨k, 0, none⟩

/-- A managed object: its members that are handles, as they are declared, and `weak_this` if its
class has `enable_shared_from_this` as a base. -/
structure Object where
  address : Nat
  members : List Handle
  weakThis : Option Handle

/-- A control block; `object` is what its pointer to the managed object leads to. -/
structure Block where
  use : Int
  weak : Int
  object : Option Object

/-- What `delete_managed_object()` returns to: `put()`, or the destructor of the control block. -/
inductive After
  | release
  | deallocate
deriving DecidableEq

inductive Stage
  | put
  | weakPut
  | deleteManagedObject (k : After)
  -- the deleter has returned: `p_.first() = Ptr()`
  | clear (k : After)
  -- `put()` of the last `shared_ptr`: `weak_count_.fetch_sub`
  | release
  | deleteThis
  | deallocate
deriving DecidableEq

structure Task where
  stage : Stage
  b : Nat
deriving DecidableEq

structure World where
  blocks : List (Option Block)
  -- the variables of clients; one whose handle is destroyed is `none`
  vars : List (Option Handle)
  -- the activations that have not returned yet, of each stack
  calls : List (List Task)

def empty : World := ⟨[], [], []⟩

/-- Where a handle is: in a variable, or a member of the object of a control block. -/
inductive Loc
  | var (v : Nat)
  | member (b i : Nat)
deriving DecidableEq

def After.stage : After → Stage
  | .release => .release
  | .deallocate => .deallocate

def Kind.drop : Kind → Stage
  | .shared => .put
  | .weak => .weakPut

/-- What the destructor of a handle calls. -/
def Handle.drop (h : Handle) : List Task :=
  match h.s with
  | none => []
  | some b => [⟨h.kind.drop, b⟩]

/-- What the destructor of an object calls: members are destroyed in the reverse order, bases behind
them. -/
def Object.drop (o : Object) : List Task :=
  o.members.reverse.flatMap Handle.drop ++ (o.weakThis.map Handle.drop).getD []

namespace World

def block (w : World) (b : Nat) : Option Block := w.blocks[b]?.join

def setBlock (w : World) (b : Nat) (c : Block) : World :=
  { w with blocks := w.blocks.set b (some c) }

/-- The object that the control block points to. -/
def object (w : World) (b : Nat) : Option Object := (w.block b).bind Block.object

def setObject (w : World) (b : Nat) (o : Object) : World :=
  match w.block b with
  | some c => w.setBlock b { c with object := some o }
  | none => w

def handleAt (w : World) : Loc → Option Handle
  | .var v => w.vars[v]?.join
  | .member b i => (w.object b).bind (·.members[i]?)

def setHandle (w : World) (l : Loc) (h : Handle) : World :=
  match l with
  | .var v => { w with vars := w.vars.set v (some h) }
  | .member b i =>
    match w.object b with
    | some o => w.setObject b { o with members := o.members.set i h }
    | none => w

/-- The handles in `hs` go out of scope. -/
def leave (w : World) (ts : List Task) : World := { w with calls := w.calls ++ [ts] }

/-! ## `ref_count_base`

A failed assertion, and an access to a control block that has been deleted, is `none`. -/

def get (w : World) (b : Nat) : Option World := do
  let c ← w.block b
  guard (0 < c.use)
  return w.setBlock b { c with use := c.use + 1 }

def weakGet (w : World) (b : Nat) : Option World := do
  let c ← w.block b
  guard (0 < c.weak)
  return w.setBlock b { c with weak := c.weak + 1 }

def lockBlock (w : World) (b : Nat) : Option (World × Bool) := do
  let c ← w.block b
  guard (0 < c.weak)
  if 0 < c.use then return (w.setBlock b { c with use := c.use + 1 }, true) else return (w, false)

/-- One task, and what is to be done next in its place. -/
def exec (w : World) (t : Task) : Option (World × List Task) := do
  let c ← w.block t.b
  match t.stage with
  | .put =>
    guard (0 < c.use)
    return (w.setBlock t.b { c with use := c.use - 1 },
      if c.use = 1 then [⟨.deleteManagedObject .release, t.b⟩] else [])
  | .deleteManagedObject k =>
    guard (c.use = 0)
    match c.object with
    | some o =>
      return (w.setObject t.b { o with members := [], weakThis := none },
        o.drop ++ [⟨.clear k, t.b⟩])
    | none => return (w, [⟨k.stage, t.b⟩])
  | .clear k => return (w.setBlock t.b { c with object := none }, [⟨k.stage, t.b⟩])
  | .release =>
    return (w.setBlock t.b { c with weak := c.weak - 1 },
      if c.weak = 1 then [⟨.deleteThis, t.b⟩] else [])
  | .weakPut =>
    guard (0 < c.weak)
    guard (c.weak = 1 → c.use = 0)
    return (w.setBlock t.b { c with weak := c.weak - 1 },
      if c.weak = 1 then [⟨.deleteThis, t.b⟩] else [])
  | .deleteThis =>
    guard (c.use = 0)
    guard (c.weak = 0)
    return (w, [⟨.deleteManagedObject .deallocate, t.b⟩])
  | .deallocate => return ({ w with blocks := w.blocks.set t.b none }, [])

/-! ## Handles -/

/-- A copy of a handle counts itself. -/
def acquire (w : World) (h : Handle) : Option World :=
  match h.s with
  | none => some w
  | some b =>
    match h.kind with
    | .shared => w.get b
    | .weak => w.weakGet b

def expired (w : World) (h : Handle) : Option Bool :=
  match h.s with
  | none => some true
  | some b => (w.block b).map (·.use = 0)

/-- `weak_ptr::lock()`. -/
def lock (w : World) (h : Handle) : Option (World × Handle) :=
  match h.s with
  | none => some (w, .null .shared)
  | some b =>
    (w.lockBlock b).map fun (w, locked) =>
      (w, if locked then ⟨.shared, h.p, some b⟩ else .null .shared)

/-- `enables_shared_from_this(ptr)` for the object of `b`: its `weak_this` is assigned from a
temporary `shared_ptr`. -/
def enablesSharedFromThis (w : World) (b : Nat) : Option World := do
  let c ← w.block b
  match c.object with
  | some ⟨address, members, some t⟩ =>
    if ← w.expired t then
      let w ← w.get b
      let w ← w.weakGet b
      return (w.setObject b ⟨address, members, some ⟨.weak, address, some b⟩⟩).leave
        (t.drop ++ [⟨.put, b⟩])
    else return w
  | _ => return w

/-- A new object, with null members, and its control block. -/
def create (w : World) (address : Nat) (members : List Kind) (enables : Bool) : World :=
  { w with
    blocks := w.blocks ++ [some
      ⟨1, 1, some ⟨address, members.map .null, if enables then some (.null .weak) else none⟩⟩] }

end World

/-- What makes a new handle. -/
inductive Expr
  | null (k : Kind)
  -- `shared_ptr(ptr)`, `shared_ptr(ptr, d)`, `make_shared` and `allocate_shared`
  | make (address : Nat) (members : List Kind) (enables : Bool)
  | copy (l : Loc)
  | move (l : Loc)
  -- the aliasing constructors, which the casts of a `shared_ptr` use
  | alias (l : Loc) (p : Nat)
  | aliasMove (l : Loc) (p : Nat)
  -- a `weak_ptr` from a `shared_ptr`
  | watch (l : Loc)
  | lock (l : Loc)
  -- `shared_ptr(const weak_ptr &)`
  | fromWeak (l : Loc)
  | sharedFromThis (b : Nat)

/-- The world and the new handle, or none if `bad_weak_ptr` is thrown. -/
def Expr.eval (w : World) : Expr → Option (World × Option Handle)
  | .null k => return (w, some (.null k))
  | .make address members enables => do
    let b := w.blocks.length
    let w ← (w.create address members enables).enablesSharedFromThis b
    return (w, some ⟨.shared, address, some b⟩)
  | .copy l => do
    let h ← w.handleAt l
    return (← w.acquire h, some h)
  | .move l => do
    let h ← w.handleAt l
    return (w.setHandle l (.null h.kind), some h)
  | .alias l p => do
    let h ← w.handleAt l
    return (← w.acquire h, some { h with p := p })
  | .aliasMove l p => do
    let h ← w.handleAt l
    return (w.setHandle l (.null h.kind), some { h with p := p })
  | .watch l => do
    let h ← w.handleAt l
    return (← w.acquire { h with kind := .weak }, some { h with kind := .weak })
  | .lock l => do
    let (w, h) ← w.lock (← w.handleAt l)
    return (w, some h)
  | .fromWeak l => do
    let (w, h) ← w.lock (← w.handleAt l)
    return (w, if h.s = none then none else some h)
  | .sharedFromThis b => do
    let (w, h) ← w.lock (← (← w.object b).weakThis)
    return (w, if h.s = none then none else some h)

inductive Op
  -- a new variable
  | construct (e : Expr)
  -- the temporary `e` is swapped with the handle at `l`, and destroyed; `reset`, and the
  -- assignments from something else than a handle of the same type that is moved
  | assign (l : Loc) (e : Expr)
  -- `swap`, and `operator=(shared_ptr &&)`, `operator=(weak_ptr &&)`
  | swap (l r : Loc)
  | destroy (v : Nat)

inductive Act
  | op (o : Op)
  -- the task on top of a stack
  | run (k : Nat)

namespace World

def performOp (w : World) : Op → Option World
  | .construct e => do
    let (w, h) ← e.eval w
    match h with
    | some h => return { w with vars := w.vars ++ [some h] }
    | none => return w
  | .assign l e => do
    let (w, h) ← e.eval w
    match h with
    | some h => return (w.setHandle l h).leave (← w.handleAt l).drop
    | none => return w
  | .swap l r => do
    let h ← w.handleAt l
    let k ← w.handleAt r
    return (w.setHandle l k).setHandle r h
  | .destroy v => do
    let h ← w.handleAt (.var v)
    return { w with vars := w.vars.set v none }.leave h.drop

def perform (w : World) : Act → Option World
  | .op o => w.performOp o
  | .run k =>
    match w.calls[k]? with
    | some (t :: ts) => do
      let (w, new) ← w.exec t
      return { w with calls := w.calls.set k (new ++ ts) }
    | _ => none

/-- The kind of the handle that an expression makes, if it is well typed. -/
def kindOf (w : World) : Expr → Option Kind
  | .null k => some k
  | .make .. => some .shared
  | .copy l | .move l => (w.handleAt l).map Handle.kind
  | .alias l _ | .aliasMove l _ =>
    if (w.handleAt l).map Handle.kind = some .shared then some .shared else none
  | .watch l => if (w.handleAt l).map Handle.kind = some .shared then some .weak else none
  | .lock l | .fromWeak l =>
    if (w.handleAt l).map Handle.kind = some .weak then some .shared else none
  | .sharedFromThis b => ((w.object b).bind Object.weakThis).map fun _ => .shared

/-- What clients may do: an operation on handles that are there, and well typed. -/
def Permitted (w : World) : Act → Prop
  | .op (.construct e) => ∃ k, w.kindOf e = some k
  | .op (.assign l e) => ∃ h, w.handleAt l = some h ∧ w.kindOf e = some h.kind
  | .op (.swap l r) => ∃ h k, w.handleAt l = some h ∧ w.handleAt r = some k ∧ h.kind = k.kind
  | .op (.destroy v) => ∃ h, w.handleAt (.var v) = some h
  | .run k => ∃ t ts, w.calls[k]? = some (t :: ts)

end World

def Step (w : World) (a : Act) (w' : World) : Prop := w.Permitted a ∧ w.perform a = some w'

end Gpcl.SharedPtr.Graph
