import Gpcl.Variant.FindIndex

/-! # The types that a visitor is called with

Before it looks at a value, `visit` takes the product of the variants' type lists, each type
qualified as its variant is, and compares the visitor's return types for all of it. -/
namespace Gpcl.VariantAccess

/-- How a variant is passed, and a reference to what it holds. -/
inductive Category
  | lvalue
  | constLvalue
  | rvalue
  | constRvalue
deriving DecidableEq

/-- `Variant1 &&`. -/
structure Parameter (Ty : Type) where
  category : Category
  alternatives : Alternatives Ty

section
variable {Ty R : Type}

/-- `meta::as_list`: the reference, and the `const` under it, are added to each type. -/
def asList (p : Parameter Ty) : List (Category × Ty) :=
  Meta.transform p.alternatives.types (Prod.mk p.category)

/-- `list_of_lists`. -/
def listOfLists (ps : List (Parameter Ty)) : List (List (Category × Ty)) := Meta.transform ps asList

/-- `type_combinations`. -/
def typeCombinations (ps : List (Parameter Ty)) : List (List (Category × Ty)) :=
  Meta.cartesianProduct (listOfLists ps)

/-- What is asserted of `types`; there is no `meta::front` of an empty list. -/
def sameReturnType [DecidableEq R] (invokeResult : List (Category × Ty) → R)
    (ps : List (Parameter Ty)) : Bool :=
  match Meta.transform (typeCombinations ps) invokeResult with
  | [] => false
  | head :: types => (head :: types).all fun type => decide (head = type)

/-- All combinations have the return type of each. -/
theorem eq_of_sameReturnType [DecidableEq R] {invokeResult : List (Category × Ty) → R}
    {ps : List (Parameter Ty)} (h : sameReturnType invokeResult ps)
    {types types' : List (Category × Ty)} (ht : types ∈ typeCombinations ps)
    (ht' : types' ∈ typeCombinations ps) : invokeResult types = invokeResult types' := by
  have hmem := List.mem_map_of_mem ht (f := invokeResult)
  have hmem' := List.mem_map_of_mem ht' (f := invokeResult)
  rw [← Meta.transform_eq] at hmem hmem'
  unfold sameReturnType at h
  split at h
  · exact absurd h Bool.false_ne_true
  · next head rest heq =>
    rw [heq] at hmem hmem'
    rw [List.all_eq_true] at h
    exact (of_decide_eq_true (h _ hmem)).symm.trans (of_decide_eq_true (h _ hmem'))

end

/-! ## What the dispatch does -/

section
variable {Ty : Type} {Val : Ty → Type} [DecidableEq Ty] {m : Type → Type} [Monad m] [LawfulMonad m]
    {α R : Type}

theorem lift_error_bind (e : Failure) (f : α → ExceptT Failure m R) :
    ((liftM (Except.error e : Except Failure α) : ExceptT Failure m α) >>= f) = throw e :=
  pure_bind (Except.error e) _

/-- The visitor is called with what the variants hold, or an assertion fails before. -/
theorem visit_cases (vs : List (Operand Val)) :
    (∃ args, List.Forall₂ Holds vs args ∧ ∀ visitor : List (Arg Val) →
      ExceptT Failure m R, visit visitor vs = visitor args) ∨
      ∀ visitor : List (Arg Val) → ExceptT Failure m R, visit visitor vs = throw .assertion := by
  induction vs with
  | nil => exact .inl ⟨[], .nil, fun _ => rfl⟩
  | cons v vs ih =>
    rcases ih with ⟨args, hargs, hvisit⟩ | hthrow
    · cases hc : v.var.content with
      | none =>
        have hindex : valuelessByException v.var = .error .assertion := by
          unfold valuelessByException index index_
          rw [hc]
          rfl
        refine .inr fun visitor => ?_
        rw [visit, hvisit, hindex, lift_error_bind]
      | some c =>
        refine .inl ⟨⟨_, c.2⟩ :: args, ?_⟩
        have hall : List.Forall₂ Holds (v :: vs) (⟨_, c.2⟩ :: args) :=
          .cons ⟨c.1, c.2, hc, rfl⟩ hargs
        exact ⟨hall, visit_eq hall⟩
    · refine .inr fun visitor => ?_
      rw [visit, hthrow]

end

section
variable {Ty : Type} [DecidableEq Ty] (Val : Ty → Type)

/-- The types of the references that the visitor gets: `get<I>` passes on how its variant has been
passed. -/
def argumentTypes {Val : Ty → Type} (vs : List (Category × Operand Val)) (args : List (Arg Val)) :
    List (Category × Ty) :=
  List.zipWith (fun v a => (v.1, a.1)) vs args

/-- Some variants with these parameters' types make `visit` call its visitor with arguments of these
types. -/
def Dispatched (ps : List (Parameter Ty)) (types : List (Category × Ty)) : Prop :=
  ∃ (vs : List (Category × Operand Val)) (args : List (Arg Val)),
    vs.map (fun v => ⟨v.1, v.2.ts⟩) = ps ∧
    args ∈ ((visit (recorded fun _ => ()) (vs.map Prod.snd)).run.run []).2 ∧
      types = argumentTypes vs args

variable {Val}

omit [DecidableEq Ty] in
/-- What variants hold is of a type of their lists. -/
theorem argumentTypes_mem {vs : List (Category × Operand Val)} {args : List (Arg Val)}
    (h : List.Forall₂ Holds (vs.map Prod.snd) args) :
    argumentTypes vs args ∈ typeCombinations (vs.map fun v => ⟨v.1, v.2.ts⟩) := by
  rw [typeCombinations, Meta.mem_cartesianProduct, listOfLists, Meta.transform_eq]
  induction vs generalizing args with
  | nil => exact .nil
  | cons v vs ih =>
    obtain _ | ⟨⟨i, x, _, rfl⟩, hrest⟩ := h
    refine .cons ?_ (ih hrest)
    rw [asList, Meta.transform_eq]
    exact List.mem_map_of_mem (List.mem_map_of_mem (List.mem_finRange i))

theorem Dispatched.mem {ps : List (Parameter Ty)} {types : List (Category × Ty)}
    (h : Dispatched Val ps types) :
    types ∈ typeCombinations ps := by
  obtain ⟨vs, args, rfl, hcall, rfl⟩ := h
  rcases visit_cases (m := StateM (List (List (Arg Val)))) (R := Unit) (vs.map Prod.snd) with
    ⟨held, hheld, hvisit⟩ | hthrow
  · rw [hvisit] at hcall
    obtain rfl := List.mem_singleton.mp hcall
    exact argumentTypes_mem hheld
  · rw [hthrow] at hcall
    exact absurd hcall List.not_mem_nil

omit [DecidableEq Ty] in
/-- For each combination of types there are variants that hold values of them. -/
theorem exists_variants (hval : ∀ t, Nonempty (Val t)) {ps : List (Parameter Ty)}
    {types : List (Category × Ty)} (h : types ∈ typeCombinations ps) :
    ∃ (vs : List (Category × Operand Val)) (args : List (Arg Val)),
      vs.map (fun v => ⟨v.1, v.2.ts⟩) = ps ∧ List.Forall₂ Holds (vs.map Prod.snd) args ∧
      types = argumentTypes vs args := by
  rw [typeCombinations, Meta.mem_cartesianProduct, listOfLists, Meta.transform_eq] at h
  induction ps generalizing types with
  | nil =>
    obtain rfl := List.forall₂_nil_right_iff.mp h
    exact ⟨[], [], rfl, .nil, rfl⟩
  | cons p ps ih =>
    obtain _ | ⟨hhead, hrest⟩ := h
    rw [asList, Meta.transform_eq] at hhead
    obtain ⟨_, hmem, rfl⟩ := List.mem_map.mp hhead
    obtain ⟨i, _, rfl⟩ := List.mem_map.mp hmem
    obtain ⟨vs, args, rfl, hargs, rfl⟩ := ih hrest
    obtain ⟨x⟩ := hval (p.alternatives.type i)
    exact ⟨(p.category, ⟨p.alternatives, ⟨some ⟨i, x⟩⟩⟩) :: vs, ⟨_, x⟩ :: args, rfl,
      .cons ⟨i, x, rfl, rfl⟩ hargs, rfl⟩

/-- The product is what the dispatch can produce, if every type has a value. -/
theorem dispatched_iff (hval : ∀ t, Nonempty (Val t)) {ps : List (Parameter Ty)}
    {types : List (Category × Ty)} :
    Dispatched Val ps types ↔ types ∈ typeCombinations ps := by
  refine ⟨Dispatched.mem, fun h => ?_⟩
  obtain ⟨vs, args, hps, hargs, rfl⟩ := exists_variants hval h
  refine ⟨vs, args, hps, ?_, rfl⟩
  rw [visit_eq hargs]
  exact List.mem_singleton_self args

/-- The product has each combination of positions once, and every combination of types that the
dispatch can produce is one of it: if the check passes, all calls return the same type. -/
theorem typeCombinations_examined {X : Type} (Ls : List (List X)) (ps : List (Parameter Ty)) :
    Meta.Enumerates Ls (Meta.cartesianProduct Ls) ∧
    (∀ types, Dispatched Val ps types → types ∈ typeCombinations ps) ∧
      ∀ (R : Type) [DecidableEq R] (invokeResult : List (Category × Ty) → R),
      sameReturnType invokeResult ps →
        ∀ types types', Dispatched Val ps types → Dispatched Val ps types' →
        invokeResult types = invokeResult types' := by
  refine ⟨Meta.enumerates_cartesianProduct Ls, fun types h => h.mem,
    fun R _ invokeResult hsame types types' h h' => ?_⟩
  exact eq_of_sameReturnType hsame h.mem h'.mem

end

end Gpcl.VariantAccess
