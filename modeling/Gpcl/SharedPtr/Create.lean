import Gpcl.Lib.Objects

/-! # Creating the control block

`ref_count_ptr` takes the pointer over in its constructor, and its function-try-block calls the
deleter if a base or a member throws. What throws before, outside that constructor or in its
parameters, is not caught there. `Args` and `Op` are the constructors and the `reset`s of
`shared_ptr`; a deleter itself does not throw. -/
namespace Gpcl.SharedPtr.Create
open Lib.Objects

/-- `(p)`, `(p, d)` and `(p, d, alloc)`. -/
inductive Args
  | pointer
  | deleter
  | allocator

/-- Where an exception may come from. -/
inductive Point
  -- the parameters of the temporary in `reset`
  | resetDeleter
  | resetAllocator
  -- `rebind_allocator alloc{allocator}`
  | rebind
  -- `rebind_allocator_traits::allocate(alloc, 1)`
  | allocate
  -- the parameters of `ref_count_ptr`
  | allocatorParameter
  | deleterParameter
  -- `base_type(op_func, a)`: its parameter and its base `Allocator(a)`
  | baseParameter
  | base
  -- `p_(p, std::move(d))`
  | pair
deriving DecidableEq

/-- A `default_delete` and a `default_allocator` do not throw when they are copied. -/
def Args.mayThrow : Args → Point → Bool
  | _, .allocate => true
  | .pointer, _ => false
  | .deleter, .resetDeleter | .deleter, .deleterParameter | .deleter, .pair => true
  | .deleter, _ => false
  | .allocator, _ => true

/-- What a `shared_ptr` manages: what it had before, if anything, or `p`. -/
inductive Owned
  | former
  | pointer
deriving DecidableEq

/-- `blocks` is the number of control blocks whose memory has not been given back, `deletions` that
of the calls `d(p)`. -/
structure World where
  blocks : Nat
  deletions : Nat
  owned : Owned

def initial : World := ⟨0, 0, .former⟩

section
variable (args : Args) (throws : Point → Bool)

def Fails (x : Point) : Prop := args.mayThrow x = true ∧ throws x = true

instance (x : Point) : Decidable (Fails args throws x) := inferInstanceAs (Decidable (_ ∧ _))

def evaluate (x : Point) : Prog World Unit :=
  fun w => if Fails args throws x then .thrown w else .ok () w

/-- `d(p)`. -/
def callDeleter : Prog World Unit := fun w => .ok () { w with deletions := w.deletions + 1 }

/-- `ref_count_ptr::ref_count_ptr`, without its parameters. -/
def refCountPtr : Prog World Unit :=
  Prog.onThrow (do
    evaluate args throws .baseParameter
    evaluate args throws .base
    evaluate args throws .pair) callDeleter

def obtainBlock : Prog World Unit := fun w => .ok () { w with blocks := w.blocks + 1 }

def deallocate : Prog World Unit := fun w => .ok () { w with blocks := w.blocks - 1 }

/-- `ref_count::create`. -/
def create : Prog World Unit := do
  evaluate args throws .rebind
  evaluate args throws .allocate
  obtainBlock
  Prog.onThrow (do
    evaluate args throws .allocatorParameter
    evaluate args throws .deleterParameter
    refCountPtr args throws) deallocate

def swap : Prog World Unit := fun w => .ok () { w with owned := .pointer }

/-- `shared_ptr(ptr, d, alloc).swap(*this)`; `enables_shared_from_this` and `swap` do not throw. -/
def reset : Prog World Unit := do
  evaluate args throws .resetDeleter
  evaluate args throws .resetAllocator
  create args throws
  swap

end

inductive Op
  | construct
  | reset

def Op.run (args : Args) (throws : Point → Bool) : Op → Prog World Unit
  | .construct => create args throws
  | .reset => Create.reset args throws

/-- If the operation fails, `d(p)` has been called once, no control block is left, and a `reset` has
changed nothing. -/
def Promise (args : Args) (op : Op) (throws : Point → Bool) : Prop :=
  ∀ w, op.run args throws initial = .thrown w → w.deletions = 1 ∧ w.blocks = 0 ∧ w.owned = .former

/-- The points before the body of the function-try-block. -/
def Op.before : Op → List Point
  | .construct => [.rebind, .allocate, .allocatorParameter, .deleterParameter]
  | .reset =>
    [.resetDeleter, .resetAllocator, .rebind, .allocate, .allocatorParameter, .deleterParameter]

/-! ## What a failure leaves -/

section
variable {args : Args} {throws : Point → Bool} {x : Point} {w : World}

theorem evaluate_thrown (h : Fails args throws x) (w : World) :
    evaluate args throws x w = .thrown w := if_pos h

theorem evaluate_ok (h : ¬ Fails args throws x) (w : World) : evaluate args throws x w = .ok () w :=
  if_neg h

/-- An evaluation that throws leaves everything as it is, and otherwise the rest runs. -/
theorem evaluate_bind {p : Unit → Prog World Unit} (x : Point) (w : World) :
    (evaluate args throws x >>= p) w = if Fails args throws x then .thrown w else p () w := by
  split
  · next h => exact Prog.bind_thrown (evaluate_thrown h w)
  · next h => exact Prog.bind_ok (evaluate_ok h w)

/-- The constructor ends normally, or with one call of the deleter. -/
theorem refCountPtr_cases (w : World) :
    refCountPtr args throws w = .ok () w ∨
    refCountPtr args throws w = .thrown { w with deletions := w.deletions + 1 } := by
  unfold refCountPtr Prog.onThrow
  simp only [evaluate_bind]
  unfold evaluate callDeleter
  split_ifs
  · exact .inr rfl
  · exact .inr rfl
  · exact .inr rfl
  · exact .inl rfl

theorem create_eq (w : World) : create args throws w =
    if Fails args throws .rebind ∨ Fails args throws .allocate ∨
    Fails args throws .allocatorParameter ∨ Fails args throws .deleterParameter
    then .thrown w
    else Prog.onThrow (refCountPtr args throws) deallocate { w with blocks := w.blocks + 1 } := by
  have hback : deallocate { w with blocks := w.blocks + 1 } = .ok () w := rfl
  unfold create
  rw [evaluate_bind, evaluate_bind,
    Prog.bind_ok (show obtainBlock w = .ok () { w with blocks := w.blocks + 1 } from rfl)]
  by_cases h1 : Fails args throws .rebind
  · rw [if_pos h1, if_pos (.inl h1)]
  by_cases h2 : Fails args throws .allocate
  · rw [if_neg h1, if_pos h2, if_pos (.inr (.inl h2))]
  rw [if_neg h1, if_neg h2]
  unfold Prog.onThrow
  rw [evaluate_bind]
  by_cases h3 : Fails args throws .allocatorParameter
  · rw [if_pos h3, if_pos (.inr (.inr (.inl h3)))]
    dsimp only
    rw [hback]
  rw [evaluate_bind]
  by_cases h4 : Fails args throws .deleterParameter
  · rw [if_neg h3, if_pos h4, if_pos (.inr (.inr (.inr h4)))]
    dsimp only
    rw [hback]
  rw [if_neg h3, if_neg h4, if_neg (by simp [h1, h2, h3, h4])]

/-- What throws before the body of the constructor gives the memory back and nothing else. -/
theorem create_before (h : ∃ x ∈ Op.construct.before, Fails args throws x) (w : World) :
    create args throws w = .thrown w := by
  rw [create_eq, if_pos]
  simpa [Op.before] using h

/-- From there on, a block is made or the deleter called. -/
theorem create_after (h : ∀ x ∈ Op.construct.before, ¬ Fails args throws x) (w : World) :
    create args throws w = .ok () { w with blocks := w.blocks + 1 } ∨
      create args throws w = .thrown { w with deletions := w.deletions + 1 } := by
  have hno :
      ¬ (Fails args throws .rebind ∨ Fails args throws .allocate ∨
        Fails args throws .allocatorParameter ∨
      Fails args throws .deleterParameter) := by
    simpa [Op.before] using h
  rw [create_eq, if_neg hno]
  unfold Prog.onThrow
  have hcases : refCountPtr args throws { w with blocks := w.blocks + 1 } = .ok () _ ∨
      refCountPtr args throws { w with blocks := w.blocks + 1 } = .thrown _ := refCountPtr_cases _
  rcases hcases with hrun | hrun
  · rw [hrun]
    exact .inl rfl
  · rw [hrun]
    exact .inr rfl

/-- The parameters of the temporary come first, and a swap last. -/
theorem reset_eq (w : World) : reset args throws w =
    if Fails args throws .resetDeleter ∨ Fails args throws .resetAllocator then .thrown w
    else (create args throws >>= fun _ => swap) w := by
  unfold reset
  rw [evaluate_bind, evaluate_bind]
  by_cases h1 : Fails args throws .resetDeleter
  · rw [if_pos h1, if_pos (.inl h1)]
  by_cases h2 : Fails args throws .resetAllocator
  · rw [if_neg h1, if_pos h2, if_pos (.inr h2)]
  rw [if_neg h1, if_neg h2, if_neg (by simp [h1, h2])]

theorem run_before {op : Op} (h : ∃ x ∈ op.before, Fails args throws x) (w : World) :
    op.run args throws w = .thrown w := by
  cases op with
  | construct => exact create_before h w
  | reset =>
    show reset args throws w = _
    rw [reset_eq]
    split
    · rfl
    · next hno =>
      refine Prog.bind_thrown (create_before ?_ w)
      simp only [Op.before, List.mem_cons, exists_eq_or_imp] at h hno ⊢
      rcases h with h | h | h
      · exact absurd (.inl h) hno
      · exact absurd (.inr h) hno
      · exact h

theorem run_after {op : Op} (h : ∀ x ∈ op.before, ¬ Fails args throws x) (w : World) :
    (∃ u, op.run args throws w = .ok () u) ∨
    op.run args throws w = .thrown { w with deletions := w.deletions + 1 } := by
  cases op with
  | construct => exact (create_after h w).imp (fun hok => ⟨_, hok⟩) id
  | reset =>
    have hcreate : ∀ x ∈ Op.construct.before, ¬ Fails args throws x := fun x hx =>
      h x (List.mem_cons_of_mem _ (List.mem_cons_of_mem _ hx))
    have hno : ¬ (Fails args throws .resetDeleter ∨ Fails args throws .resetAllocator) := by
      rintro (hd | ha)
      · exact h _ (by simp [Op.before]) hd
      · exact h _ (by simp [Op.before]) ha
    show (∃ u, reset args throws w = _) ∨ reset args throws w = _
    rw [reset_eq, if_neg hno]
    exact (create_after hcreate w).imp (fun hok => ⟨_, Prog.bind_ok hok⟩) Prog.bind_thrown

/-- No failure leaves a block or changes what is managed, and none calls the deleter twice. -/
theorem failed_unchanged {op : Op} {w u : World} (h : op.run args throws w = .thrown u) :
    u.blocks = w.blocks ∧ u.owned = w.owned ∧ u.deletions ≤ w.deletions + 1 := by
  by_cases hbefore : ∃ x ∈ op.before, Fails args throws x
  · rw [run_before hbefore] at h
    cases h
    exact ⟨rfl, rfl, Nat.le_succ _⟩
  · rw [not_exists] at hbefore
    rcases run_after (fun x hx hf => hbefore x ⟨hx, hf⟩) w with ⟨v, hok⟩ | hthrown
    · rw [hok] at h
      cases h
    · rw [hthrown] at h
      cases h
      exact ⟨rfl, rfl, Nat.le_refl _⟩

/-- The promise is kept exactly when nothing throws before the body of `ref_count_ptr`'s
constructor. -/
theorem promise_iff (args : Args) (op : Op) (throws : Point → Bool) :
    Promise args op throws ↔ ∀ x ∈ op.before, ¬ Fails args throws x := by
  constructor
  · intro hpromise x hx hfails
    have hzero : (0 : Nat) = 1 := (hpromise initial (run_before ⟨x, hx, hfails⟩ initial)).1
    exact absurd hzero Nat.zero_ne_one
  · intro hno w hw
    rcases run_after hno initial with ⟨u, hok⟩ | hthrown
    · rw [hok] at hw
      cases hw
    · rw [hthrown] at hw
      cases hw
      exact ⟨rfl, rfl, rfl⟩

end

/-- There is no memory for the control block of `shared_ptr(p, d)`: nobody calls `d(p)`. -/
theorem allocation_failed : ¬ Promise .deleter .construct (· = .allocate) ∧
    Op.run .deleter (· = .allocate) .construct initial = .thrown initial := by
  have hrun : Op.run .deleter (· = .allocate) .construct initial = .thrown initial :=
    run_before ⟨.allocate, by simp [Op.before], rfl, rfl⟩ initial
  exact ⟨fun h => absurd (h initial hrun).1 Nat.zero_ne_one, hrun⟩

end Gpcl.SharedPtr.Create
