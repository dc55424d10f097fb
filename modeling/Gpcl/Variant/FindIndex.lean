import Gpcl.Meta.Lists
import Gpcl.Variant.Valueless

/-! # Alternatives by their types

`emplace<T>`, the constructors and `holds_alternative<T>` take the index that `meta::find_index`
gives for `T`. -/
namespace Gpcl.VariantAccess

section
variable {Ty : Type} {Val : Ty → Type} {ts : Alternatives Ty}

def Alternatives.types (ts : Alternatives Ty) : List Ty := (List.finRange (ts.n + 1)).map ts.type

theorem length_types (ts : Alternatives Ty) : ts.types.length = ts.n + 1 := by
  rw [Alternatives.types, List.length_map, List.length_finRange]

theorem types_getElem? (ts : Alternatives Ty) (I : Fin (ts.n + 1)) :
    ts.types[I.val]? = some (ts.type I) := by
  have hlt : I.val < (List.finRange (ts.n + 1)).length := by
    rw [List.length_finRange]
    exact I.isLt
  rw [Alternatives.types, List.getElem?_map, List.getElem?_eq_getElem hlt, List.getElem_finRange]
  rfl

variable [DecidableEq Ty]

/-- The alternative with the index of `T`; nothing where its use does not compile. -/
def Alternatives.ofType (ts : Alternatives Ty) (T : Ty) :
    Option { I : Fin (ts.n + 1) // T = ts.type I } :=
  if h : Meta.findIndex ts.types T < ts.n + 1 then
    if ht : T = ts.type ⟨_, h⟩ then some ⟨⟨_, h⟩, ht⟩ else none
  else none

/-- `emplace<T>`. -/
def emplaceType (T : Ty) (made : Option (Val T)) (v : Variant Val ts) :
    Option (Except Failure Unit × Variant Val ts) := do
  let I ← ts.ofType T
  return emplace I.val (made.map (I.property ▸ ·)) v

/-- `variant(in_place_type_t<T>, Args &&...)`. -/
def constructInPlace (T : Ty) (made : Option (Val T)) :
    Option (Except Failure Unit × Variant Val ts) := do
  let I ← ts.ofType T
  return match made with
    | none => (.error .constructorThrew, valueless)
    | some x => setIndex I.val (I.property ▸ x) valueless

/-- `variant(T &&)`; no class derives twice from the `resolution_helper_impl` of one type. -/
def convertConstruct (T : Ty) (made : Option (Val T)) :
    Option (Except Failure Unit × Variant Val ts) :=
  if ts.types.Nodup then constructInPlace T made else none

def holdsAlternative (T : Ty) (v : Variant Val ts) : Except Failure Bool :=
  do return Meta.findIndex ts.types T == (← index v)

/-- `get<T>`. -/
def getType (T : Ty) (v : Variant Val ts) : Except Failure (Val T) := do
  if !(← holdsAlternative T v) then throw .badVariantAccess
  unsafeGet T v

/-- The variant has got this value, as the alternative at the first index of its type. -/
def AtFirst (T : Ty) (x : Val T) (r : Option (Except Failure Unit × Variant Val ts)) : Prop :=
  ∃ w, r = some (.ok (), w) ∧ index w = .ok (Meta.firstIndex ts.types T) ∧ Holds ⟨ts, w⟩ ⟨T, x⟩

/-- What is made of a `T` is the first alternative of that type, and the question for `T` is one for
it. -/
structure Agrees (Val : Ty → Type) (ts : Alternatives Ty) (T : Ty) : Prop where
  emplaces : T ∈ ts.types → ∀ (v : Variant Val ts) x, AtFirst T x (emplaceType T (some x) v)
  constructs : T ∈ ts.types →
    ∀ x, AtFirst T x (constructInPlace T (some x) : Option (_ × Variant Val ts))
  converts : T ∈ ts.types → ts.types.Nodup →
    ∀ x, AtFirst T x (convertConstruct T (some x) : Option (_ × Variant Val ts))
  holds : ∀ (v : Variant Val ts) i, index v = .ok i →
    holdsAlternative T v = .ok (i == Meta.firstIndex ts.types T)

/-- The index is the first one, and a variant of these types goes by it. -/
structure FindsFirst (Xs : Meta.TypeList Ty) (T : Ty) : Prop where
  index : Meta.findIndex Xs.types T = Meta.firstIndex Xs.types T
  agrees : ∀ (Val : Ty → Type) (ts : Alternatives Ty), ts.types = Xs.types → Agrees Val ts T

/-- The first alternative of a type that occurs. -/
theorem exists_first {T : Ty} (h : T ∈ ts.types) :
    ∃ I : Fin (ts.n + 1), I.val = Meta.firstIndex ts.types T ∧ T = ts.type I := by
  have hget := Meta.getElem?_firstIndex h
  have hlt : Meta.firstIndex ts.types T < ts.n + 1 :=
    length_types ts ▸ (List.getElem?_eq_some_iff.mp hget).1
  refine ⟨⟨_, hlt⟩, rfl, ?_⟩
  exact Option.some.inj (hget.symm.trans (types_getElem? ts ⟨_, hlt⟩))

theorem ofType_eq {I : Fin (ts.n + 1)} (h : Meta.findIndex ts.types (ts.type I) = I.val) :
    ts.ofType (ts.type I) = some ⟨I, rfl⟩ := by
  unfold Alternatives.ofType
  generalize Meta.findIndex ts.types (ts.type I) = i at h
  subst h
  rw [dif_pos I.isLt, dif_pos rfl]

/-- Where the index is the first one, what is made is the first alternative. -/
theorem agrees_of_eq {T : Ty} (h : Meta.findIndex ts.types T = Meta.firstIndex ts.types T) :
    Agrees Val ts T := by
  have hmade : T ∈ ts.types →
      ∀ x, AtFirst T x (constructInPlace T (some x) : Option (_ × Variant Val ts)) :=
        fun hmem x => by
    obtain ⟨I, hI, rfl⟩ := exists_first hmem
    refine ⟨⟨some ⟨I, x⟩⟩, ?_, hI ▸ index_eq rfl, I, x, rfl, rfl⟩
    unfold constructInPlace
    rw [ofType_eq (h.trans hI.symm)]
    rfl
  refine ⟨fun hmem v x => ?_, hmade, fun hmem hnodup x => ?_, fun v i hi => ?_⟩
  · obtain ⟨I, hI, rfl⟩ := exists_first hmem
    refine ⟨⟨some ⟨I, x⟩⟩, ?_, hI ▸ index_eq rfl, I, x, rfl, rfl⟩
    unfold emplaceType
    rw [ofType_eq (h.trans hI.symm)]
    rfl
  · rw [convertConstruct, if_pos hnodup]
    exact hmade hmem x
  · unfold holdsAlternative
    rw [hi, h]
    exact congrArg Except.ok BEq.comm

/-- The first index of a type is found, and variants go by it, exactly when the type does not occur
again. -/
theorem findsFirst_iff (Xs : Meta.TypeList Ty) (T : Ty) :
    FindsFirst Xs T ↔ Xs.types.count T ≤ 1 := by
  have hiff := Meta.findIndex_eq_firstIndex_iff (T := T) Xs.size_lt
  constructor
  · intro hfirst
    exact hiff.mp hfirst.index
  · intro hcount
    have heq := hiff.mpr hcount
    exact ⟨heq, fun Val ts hts => agrees_of_eq (hts ▸ heq)⟩

end

inductive ResultType
  | monostate
  | errorCode
deriving DecidableEq

/-- In `variant<monostate, error_code, error_code>` the first `error_code` has the index 1, and 2 is
found. -/
theorem second_error_code_found :
    ¬ FindsFirst ⟨[.monostate, .errorCode, .errorCode], by decide⟩ ResultType.errorCode ∧
      Meta.findIndex [.monostate, .errorCode, .errorCode] ResultType.errorCode = 2 :=
  ⟨fun h => absurd h.index (by decide), rfl⟩

end Gpcl.VariantAccess
