import Mathlib.Algebra.Order.Ring.Int
import Mathlib.Data.Fintype.Basic
import Mathlib.Data.List.FinRange

/-! # Access to a variant

`Ty` has the types that occur and `Val` their values; a variant has a type for each of its indices,
where a type may occur again. `visit` takes one variant after the other and wraps the visitor into a
closure that prepends the value of that variant; the last variant's closure is called first. A
visitor may do anything: it runs in any monad. -/
namespace Gpcl.VariantAccess

inductive Failure
  | assertion
  | badVariantAccess
  | unreachable
  -- the storage is read as a type of which there is no object
  | undefined
  | constructorThrew
  | assignmentThrew
deriving DecidableEq

/-- `variant_npos`. -/
def npos : Nat := 2 ^ 64 - 1

/-- The types of the alternatives. For so many `variant_index_type` is signed; for more, which no
compiler takes, `set_index` fails its assertion. -/
structure Alternatives (Ty : Type) where
  n : Nat
  type : Fin (n + 1) → Ty
  signed_index : n + 1 < 2 ^ 31 - 1

/-- `index_` and the object of that alternative; nothing for an `index_` of -1. -/
structure Variant {Ty : Type} (Val : Ty → Type) (ts : Alternatives Ty) where
  content : Option ((i : Fin (ts.n + 1)) × Val (ts.type i))

/-- A variant of any type. -/
structure Operand {Ty : Type} (Val : Ty → Type) where
  ts : Alternatives Ty
  var : Variant Val ts

/-- What a visitor sees of an alternative: its type and its value. -/
abbrev Arg {Ty : Type} (Val : Ty → Type) : Type := (t : Ty) × Val t

def require (p : Prop) [Decidable p] : Except Failure Unit :=
  if p then .ok () else .error .assertion

section
variable {Ty : Type} {Val : Ty → Type} {ts : Alternatives Ty}

def index_ (v : Variant Val ts) : Int :=
  match v.content with
  | some ⟨i, _⟩ => i.val
  | none => -1

def index (v : Variant Val ts) : Except Failure Nat := do
  require (index_ v > -1)
  if index_ v = -1 then return npos
  return (index_ v).toNat

def valuelessByException (v : Variant Val ts) : Except Failure Bool := do return (← index v) == npos

variable [DecidableEq Ty]

/-- `*unsafe_get<T>(&v)`. -/
def unsafeGet (t : Ty) (v : Variant Val ts) : Except Failure (Val t) :=
  match v.content with
  | some ⟨i, x⟩ => if h : ts.type i = t then .ok (h ▸ x) else .error .undefined
  | none => .error .undefined

/-- `get<I>(v)`. -/
def get (I : Fin (ts.n + 1)) (v : Variant Val ts) : Except Failure (Val (ts.type I)) := do
  if (← index v) ≠ I.val then throw .badVariantAccess
  unsafeGet (ts.type I) v

end

/-! ## visit -/

section
variable {Ty : Type} {Val : Ty → Type} [DecidableEq Ty] {m : Type → Type} [Monad m] {R : Type}

/-- The index sequence is `I` and the indices after it; the last one is only asserted. -/
def applyVisitorImpl {ts : Alternatives Ty} (callable : Arg Val → ExceptT Failure m R)
    (v : Variant Val ts) (I : Fin (ts.n + 1)) : List (Fin (ts.n + 1)) → ExceptT Failure m R
  | [] => do
    let i ← index v
    require (i = I.val)
    callable ⟨ts.type I, ← get I v⟩
  | J :: Is => do
    let i ← index v
    if i = I.val then callable ⟨ts.type I, ← get I v⟩
    else applyVisitorImpl callable v J Is

def applyVisitor (callable : Arg Val → ExceptT Failure m R) (v : Operand Val) :
    ExceptT Failure m R :=
  applyVisitorImpl callable v.var 0 ((List.finRange v.ts.n).map Fin.succ)

/-- `visit_impl::operator()`. -/
def visit (visitor : List (Arg Val) → ExceptT Failure m R) :
    List (Operand Val) → ExceptT Failure m R
  | [] => visitor []
  | variant1 :: variants =>
    visit (fun values => do
      let valueless ← valuelessByException variant1.var
      require (valueless = false)
      applyVisitor (fun value1 => visitor (value1 :: values)) variant1) variants

end

/-! ## What is visited -/

section
variable {Ty : Type} {Val : Ty → Type} {ts : Alternatives Ty} {v : Variant Val ts}
    {i : Fin (ts.n + 1)} {x : Val (ts.type i)}

/-- The variant holds this value, of the type at its index. -/
def Holds (v : Operand Val) (a : Arg Val) : Prop :=
  ∃ i x, v.var.content = some ⟨i, x⟩ ∧ a = ⟨v.ts.type i, x⟩

theorem index_eq (h : v.content = some ⟨i, x⟩) : index v = .ok i.val := by
  have hi : index_ v = i.val := by
    unfold index_
    rw [h]
  unfold index
  rw [hi]
  have hpos : ((i.val : Int) > -1) := by omega
  have hne : ¬ ((i.val : Int) = -1) := by omega
  rw [require, if_pos hpos, if_neg hne]
  rfl

theorem valueless_eq (h : v.content = some ⟨i, x⟩) : valuelessByException v = .ok false := by
  have hlt := i.isLt
  have hsigned := ts.signed_index
  unfold valuelessByException
  rw [index_eq h]
  refine congrArg Except.ok (beq_eq_false_iff_ne.mpr ?_)
  unfold npos
  omega

theorem get_eq [DecidableEq Ty] (h : v.content = some ⟨i, x⟩) : get i v = .ok x := by
  unfold get unsafeGet
  rw [index_eq h, h]
  simp [bind, Except.bind]

end

section
variable {Ty : Type} {Val : Ty → Type} [DecidableEq Ty] {m : Type → Type} [Monad m] [LawfulMonad m]
    {α R : Type}

/-- An observer that returns is nothing but its value. -/
theorem lift_ok_bind (a : α) (f : α → ExceptT Failure m R) :
    ((liftM (Except.ok a : Except Failure α) : ExceptT Failure m α) >>= f) = f a :=
  pure_bind a f

/-- The search through the indices ends at the one that is held. -/
theorem applyVisitorImpl_eq {ts : Alternatives Ty} {v : Variant Val ts} {i : Fin (ts.n + 1)}
    {x : Val (ts.type i)} (h : v.content = some ⟨i, x⟩) (callable : Arg Val → ExceptT Failure m R)
    (I : Fin (ts.n + 1)) (Is : List (Fin (ts.n + 1)))
    (hi : i ∈ I :: Is) : applyVisitorImpl callable v I Is = callable ⟨ts.type i, x⟩ := by
  induction Is generalizing I with
  | nil =>
    obtain rfl := List.mem_singleton.mp hi
    rw [applyVisitorImpl, index_eq h, lift_ok_bind, require, if_pos rfl, lift_ok_bind, get_eq h,
      lift_ok_bind]
  | cons J Is ih =>
    rw [applyVisitorImpl, index_eq h, lift_ok_bind]
    by_cases he : i = I
    · subst he
      rw [if_pos rfl, get_eq h, lift_ok_bind]
    · rw [if_neg fun hv => he (Fin.ext hv)]
      exact ih J ((List.mem_cons.mp hi).resolve_left he)

theorem applyVisitor_eq {v : Operand Val} {a : Arg Val} (h : Holds v a)
    (callable : Arg Val → ExceptT Failure m R) :
    applyVisitor callable v = callable a := by
  obtain ⟨i, x, hc, rfl⟩ := h
  refine applyVisitorImpl_eq hc callable 0 _ ?_
  rw [← List.finRange_succ]
  exact List.mem_finRange i

/-- By induction on the variants, for every visitor: the closure for the first one is a visitor of
the others. -/
theorem visit_eq {vs : List (Operand Val)} {args : List (Arg Val)} (h : List.Forall₂ Holds vs args)
    (visitor : List (Arg Val) → ExceptT Failure m R) : visit visitor vs = visitor args := by
  induction h generalizing visitor with
  | nil => rfl
  | @cons v a vs args hv hvs ih =>
    rw [visit, ih]
    obtain ⟨i, x, hc, _⟩ := id hv
    rw [valueless_eq hc, lift_ok_bind, require, if_pos rfl, lift_ok_bind]
    exact applyVisitor_eq hv _

end

section
variable {Ty : Type} {Val : Ty → Type} [DecidableEq Ty] {m : Type → Type} [Monad m] {R : Type}

/-- A visitor whose calls are recorded, the latest one first. -/
def recorded (f : List (Arg Val) → R) (args : List (Arg Val)) :
    ExceptT Failure (StateM (List (List (Arg Val)))) R := do
  modify (args :: ·)
  return f args

omit [DecidableEq Ty] in
theorem exists_holds (vs : List (Operand Val)) (h : ∀ v ∈ vs, index_ v.var ≠ -1) :
    ∃ args, List.Forall₂ Holds vs args := by
  induction vs with
  | nil => exact ⟨[], .nil⟩
  | cons v vs ih =>
    obtain ⟨args, hargs⟩ := ih fun w hw => h w (List.mem_cons_of_mem v hw)
    have hv := h v List.mem_cons_self
    cases hc : v.var.content with
    | none =>
      unfold index_ at hv
      rw [hc] at hv
      exact absurd rfl hv
    | some c => exact ⟨⟨_, c.2⟩ :: args, .cons ⟨c.1, c.2, hc, rfl⟩ hargs⟩

/-- Of variants that are not valueless, `visit` is one call of the visitor with what they hold, in
their order. -/
theorem visit_calls_once [LawfulMonad m] (vs : List (Operand Val))
    (h : ∀ v ∈ vs, index_ v.var ≠ -1) :
    ∃ args, List.Forall₂ Holds vs args ∧
      (∀ visitor : List (Arg Val) → ExceptT Failure m R, visit visitor vs = visitor args) ∧
      ∀ (f : List (Arg Val) → R) (calls : List (List (Arg Val))),
        (visit (recorded f) vs).run.run calls = (.ok (f args), args :: calls) := by
  obtain ⟨args, hargs⟩ := exists_holds vs h
  refine ⟨args, hargs, visit_eq hargs, fun f calls => ?_⟩
  rw [visit_eq hargs]
  rfl

end

/-- Two alternatives of one type, and one alternative. -/
def twoVariants : List (Operand fun _ : Unit => Nat) :=
  [⟨⟨1, fun _ => (), by decide⟩, ⟨some ⟨1, 5⟩⟩⟩, ⟨⟨0, fun _ => (), by decide⟩, ⟨some ⟨0, 7⟩⟩⟩]

theorem visit_two_variants : ∃ args, List.Forall₂ Holds twoVariants args ∧
    ∀ calls, (visit (recorded List.length) twoVariants).run.run calls =
      (.ok args.length, args :: calls) := by
  obtain ⟨args, hargs, _, hcalls⟩ := visit_calls_once (m := Id) (R := Nat) twoVariants (by decide)
  exact ⟨args, hargs, hcalls _⟩

end Gpcl.VariantAccess
