import Mathlib.Data.Fintype.Basic
import Mathlib.Logic.Function.Basic
import Mathlib.Tactic.Common

/-! # shared_ptr and weak_ptr over one control block

Every `shared_ptr` or `weak_ptr` object is a handle; a handle runs one operation at a time,
and its local state says which atomic step of it comes next. A handle that another one is
being made from (a copy, a `lock()`) is read by that operation and can neither be dropped
nor moved from until it is over; several operations may read one handle. Assignment is a copy into a
temporary handle, moves and a drop. The counters are mathematical integers: there is a
handle for each unit of them, so they stay far below the range of `long`. -/
namespace Gpcl.SharedPtr

/-- The next step of a handle. `empty`, `strong` and `weak` are at rest. -/
inductive Local (ι : Type)
  | empty
  | strong
  | weak
  -- `get()`: the assertion, then `fetch_add`
  | get (src : ι) (checked : Bool)
  -- `put()`: the assertion, then `fetch_sub`
  | put (checked : Bool)
  -- `put()` of the last strong handle: the assertion of `delete_managed_object`, then the deleter
  | destroy (checked : Bool)
  -- `put()` of the last strong handle: `weak_count_.fetch_sub`
  | dropLast
  | weakGet (src : ι) (checked : Bool)
  | weakPut (checked : Bool)
  -- `weak_put()` of the last weak handle: `GPCL_ASSERT(use_count() == 0)`
  | weakLast
  -- `delete_this()`: two assertions, the assertion in the destructor, and the rest of it
  | deleteUse
  | deleteWeak
  | deleteObject
  | deallocate
  -- `lock()`: the assertion, then the load
  | lock (src : ι) (checked : Bool)
  -- `lock()`: `compare_exchange_weak` with the value read before
  | cas (src : ι) (old : Int)
deriving DecidableEq

/-- The control block, what became of it, and the handles. `present` says whether the pointer to the
managed object is still there; `failed`, whether an assertion has failed; `touched`, whether the
block was accessed after it was deleted. -/
structure State (ι : Type) where
  use : Int
  weak : Int
  present : Bool
  destroyed : Nat
  deleted : Nat
  failed : Bool
  touched : Bool
  loc : ι → Local ι

variable {ι : Type} [DecidableEq ι]

/-- The block as it is created, with one handle. -/
def initial (i : ι) : State ι :=
  ⟨1, 1, true, 0, 0, false, false, Function.update (fun _ => .empty) i .strong⟩

/-- The handle an operation reads. -/
def Local.source : Local ι → Option ι
  | .get src _ | .weakGet src _ | .lock src _ | .cas src _ => some src
  | _ => none

/-- No operation reads the handle. -/
def Unread (loc : ι → Local ι) (i : ι) : Prop := ∀ k, (loc k).source ≠ some i

instance [Fintype ι] (loc : ι → Local ι) (i : ι) : Decidable (Unread loc i) :=
  inferInstanceAs (Decidable (∀ k, (loc k).source ≠ some i))

def goto (i : ι) (l : Local ι) (s : State ι) : State ι :=
  { s with loc := Function.update s.loc i l }

def assert (c : Bool) (s : State ι) : State ι := { s with failed := s.failed || !c }

def touch (s : State ι) : State ι := { s with touched := s.touched || decide (s.deleted ≠ 0) }

/-- `delete_managed_object()` without its assertion: the deleter runs if the pointer is there. -/
def deleteManagedObject (s : State ι) : State ι :=
  { s with present := false, destroyed := if s.present then s.destroyed + 1 else s.destroyed }

/-- One atomic step of the operation of handle `i`. `spurious` says whether a
`compare_exchange_weak` fails without need. -/
def advance (i : ι) (spurious : Bool) (s : State ι) : Option (State ι) :=
  match s.loc i with
  | .empty | .strong | .weak => none
  | .get src false => some (touch (goto i (.get src true) (assert (0 < s.use) s)))
  | .get _ true => some (touch (goto i .strong { s with use := s.use + 1 }))
  | .put false => some (touch (goto i (.put true) (assert (0 < s.use) s)))
  | .put true =>
    some (touch (goto i (if s.use = 1 then .destroy false else .empty) { s with use := s.use - 1 }))
  | .destroy false => some (touch (goto i (.destroy true) (assert (s.use = 0) s)))
  | .destroy true => some (touch (goto i .dropLast (deleteManagedObject s)))
  | .dropLast =>
    some (touch (goto i (if s.weak = 1 then .deleteUse else .empty) { s with weak := s.weak - 1 }))
  | .weakGet src false => some (touch (goto i (.weakGet src true) (assert (0 < s.weak) s)))
  | .weakGet _ true => some (touch (goto i .weak { s with weak := s.weak + 1 }))
  | .weakPut false => some (touch (goto i (.weakPut true) (assert (0 < s.weak) s)))
  | .weakPut true =>
    some (touch (goto i (if s.weak = 1 then .weakLast else .empty) { s with weak := s.weak - 1 }))
  | .weakLast => some (touch (goto i .deleteUse (assert (s.use = 0) s)))
  | .deleteUse => some (touch (goto i .deleteWeak (assert (s.use = 0) s)))
  | .deleteWeak => some (touch (goto i .deleteObject (assert (s.weak = 0) s)))
  | .deleteObject => some (touch (goto i .deallocate (assert (s.use = 0) s)))
  | .deallocate =>
    let s := touch (goto i .empty (deleteManagedObject s))
    some { s with deleted := s.deleted + 1 }
  | .lock src false => some (touch (goto i (.lock src true) (assert (0 < s.weak) s)))
  | .lock src true => some (touch (goto i (if 0 < s.use then .cas src s.use else .empty) s))
  | .cas src old =>
    if s.use = old ∧ spurious = false then some (touch (goto i .strong { s with use := old + 1 }))
    else some (touch (goto i (if 0 < s.use then .cas src s.use else .empty) s))

inductive Act (ι : Type)
  -- the copy constructor of `shared_ptr`, from `j` into `i`
  | copy (i j : ι)
  -- a `weak_ptr` made from a `shared_ptr` or a `weak_ptr`
  | watch (i j : ι)
  | lock (i j : ι)
  -- a destructor or `reset()`
  | drop (i : ι)
  -- a move constructor
  | move (i j : ι)
  | advance (i : ι) (spurious : Bool)

/-- What a program may do next. Operations start at handles at rest and drop only what they hold. -/
def step [Fintype ι] (s : State ι) : Act ι → Option (State ι)
  | .copy i j =>
    if s.loc i = .empty ∧ s.loc j = .strong then some (goto i (.get j false) s) else none
  | .watch i j =>
    if s.loc i = .empty ∧ (s.loc j = .strong ∨ s.loc j = .weak)
      then some (goto i (.weakGet j false) s) else none
  | .lock i j =>
    if s.loc i = .empty ∧ s.loc j = .weak then some (goto i (.lock j false) s) else none
  | .drop i =>
    if s.loc i = .strong ∧ Unread s.loc i then some (goto i (.put false) s)
    else if s.loc i = .weak ∧ Unread s.loc i then some (goto i (.weakPut false) s)
    else none
  | .move i j =>
    if s.loc i = .empty ∧ (s.loc j = .strong ∨ s.loc j = .weak) ∧ Unread s.loc j then
      some (goto j .empty (goto i (s.loc j) s))
    else none
  | .advance i spurious => advance i spurious s

end Gpcl.SharedPtr
