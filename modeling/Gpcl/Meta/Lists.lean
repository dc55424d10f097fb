import Mathlib.Algebra.Order.Ring.Int
import Mathlib.Data.List.Induction
import Mathlib.Data.List.Nodup
import Mathlib.Data.List.Range

/-! # Lists of types

A type list is a list of whatever stands for types, and a metafunction a function on them.
`find_index` folds from the left over the next index and the one that was found; `cartesian_product`
folds from the right. -/
namespace Gpcl.Meta

variable {X Y S : Type}

/-- `size_t<std::size_t(-1)>`. -/
def npos : Nat := 2 ^ 64 - 1

def inc (N : Nat) : Nat := (N + 1) % 2 ^ 64

def fold (Xs : List X) (State : S) (F : S → X → S) : S := Xs.foldl F State

def foldr (Xs : List X) (State : S) (F : S → X → S) : S := Xs.foldr (fun x st => F st x) State

def pushFront (Xs : List X) (x : X) : List X := x :: Xs

def pushBack (Xs : List X) (x : X) : List X := Xs ++ [x]

def transform (Xs : List X) (F : X → Y) : List Y := fold Xs [] fun State x => pushBack State (F x)

/-- Two lists at the front become one until there is one. -/
def concat : List (List X) → List X
  | [] => []
  | [Xs] => Xs
  | Xs :: Ys :: Lists => concat ((Xs ++ Ys) :: Lists)
termination_by Lists => Lists.length

def join (ListOfLists : List (List X)) : List X := concat ListOfLists

/-! ## find_index -/

/-- The state is the next index and the one that was found. -/
def findIndexHelper [DecidableEq X] (T : X) (State : Nat × Nat) (x : X) : Nat × Nat :=
  (inc State.1, if x = T then State.1 else State.2)

def findIndex [DecidableEq X] (Xs : List X) (T : X) : Nat :=
  (fold Xs (0, npos) (findIndexHelper T)).2

/-! ## cartesian_product -/

def cartesianProductFn (State : List (List X)) (Xs : List X) : List (List X) :=
  join (transform Xs fun x => join (transform State fun tuple => [pushFront tuple x]))

def cartesianProduct (ListOfLists : List (List X)) : List (List X) :=
  foldr ListOfLists [[]] cartesianProductFn

/-! ## What they compute -/

theorem fold_append (Xs : List X) (x : X) (State : S) (F : S → X → S) :
    fold (Xs ++ [x]) State F = F (fold Xs State F) x := by
  rw [fold, List.foldl_append]
  rfl

@[simp] theorem concat_eq (Lists : List (List X)) : concat Lists = Lists.flatten := by
  fun_induction concat Lists with
  | case1 => rfl
  | case2 Xs => exact (List.append_nil Xs).symm
  | case3 Xs Ys Lists ih =>
    rw [ih, List.flatten_cons, List.flatten_cons, List.flatten_cons, List.append_assoc]

/-- What has been transformed stays in front of the rest. -/
theorem fold_pushBack (Xs : List X) (F : X → Y) (State : List Y) :
    fold Xs State (fun State x => pushBack State (F x)) = State ++ Xs.map F := by
  induction Xs generalizing State with
  | nil => exact (List.append_nil State).symm
  | cons x Xs ih =>
    show fold Xs (pushBack State (F x)) _ = _
    rw [ih, pushBack, List.append_assoc, List.map_cons, List.singleton_append]

@[simp] theorem transform_eq (Xs : List X) (F : X → Y) : transform Xs F = Xs.map F :=
  fold_pushBack Xs F []

theorem cartesianProductFn_eq (State : List (List X)) (Xs : List X) :
    cartesianProductFn State Xs = Xs.flatMap fun x => State.map (x :: ·) := by
  have hjoin : ∀ x, join (transform State fun tuple => [pushFront tuple x]) = State.map (x :: ·) :=
      fun x => by
    rw [join, concat_eq, transform_eq, ← List.flatMap_def, List.map_eq_flatMap]
    rfl
  unfold cartesianProductFn
  simp only [hjoin]
  rw [join, concat_eq, transform_eq, ← List.flatMap_def]

@[simp] theorem cartesianProduct_nil : cartesianProduct ([] : List (List X)) = [[]] := rfl

@[simp] theorem cartesianProduct_cons (L : List X) (Ls : List (List X)) :
    cartesianProduct (L :: Ls) = L.flatMap fun x => (cartesianProduct Ls).map (x :: ·) :=
  cartesianProductFn_eq _ L

theorem mem_cartesianProduct {Ls : List (List X)} {xs : List X} :
    xs ∈ cartesianProduct Ls ↔ List.Forall₂ (· ∈ ·) xs Ls := by
  induction Ls generalizing xs with
  | nil => rw [cartesianProduct_nil, List.mem_singleton, List.forall₂_nil_right_iff]
  | cons L Ls ih =>
    rw [cartesianProduct_cons, List.mem_flatMap, List.forall₂_cons_right_iff]
    simp only [List.mem_map, ih]
    constructor
    · rintro ⟨x, hx, rest, hrest, rfl⟩
      exact ⟨x, rest, hx, hrest, rfl⟩
    · rintro ⟨x, rest, hx, hrest, rfl⟩
      exact ⟨x, hx, rest, hrest, rfl⟩

/-- Each tuple once, if no list has an element twice. -/
theorem nodup_cartesianProduct {Ls : List (List X)} (h : ∀ L ∈ Ls, L.Nodup) :
    (cartesianProduct Ls).Nodup := by
  induction Ls with
  | nil => exact List.nodup_singleton _
  | cons L Ls ih =>
    have hrest := ih fun M hM => h M (List.mem_cons_of_mem _ hM)
    rw [cartesianProduct_cons, List.nodup_flatMap]
    refine ⟨fun x _ => hrest.map fun _ _ he => (List.cons.inj he).2,
      (h L List.mem_cons_self).imp fun {x y} hne => ?_⟩
    rintro tuple hx hy
    obtain ⟨_, _, rfl⟩ := List.mem_map.mp hx
    obtain ⟨_, _, he⟩ := List.mem_map.mp hy
    exact hne (List.cons.inj he).1.symm

/-! ## The index that is found -/

/-- `sizeof...(Xs)` is a `std::size_t`. -/
structure TypeList (X : Type) where
  types : List X
  size_lt : types.length < 2 ^ 64

section
variable [DecidableEq X] {Xs : List X} {T x : X}

/-- The index of the first occurrence, or `npos`. -/
def firstIndex (Xs : List X) (T : X) : Nat := if T ∈ Xs then Xs.idxOf T else npos

theorem next_eq (Xs : List X) (T : X) :
    (fold Xs (0, npos) (findIndexHelper T)).1 = Xs.length % 2 ^ 64 := by
  induction Xs using List.reverseRecOn with
  | nil => rfl
  | append_singleton Xs x ih =>
    rw [fold_append, findIndexHelper, inc, ih, Nat.mod_add_mod, List.length_append,
      List.length_singleton]

/-- A later occurrence replaces the index of an earlier one. -/
theorem findIndex_append (h : Xs.length < 2 ^ 64) :
    findIndex (Xs ++ [x]) T = if x = T then Xs.length else findIndex Xs T := by
  rw [findIndex, fold_append, findIndexHelper, next_eq, Nat.mod_eq_of_lt h]
  rfl

theorem firstIndex_append :
    firstIndex (Xs ++ [x]) T = if T ∈ Xs then firstIndex Xs T else if x = T then Xs.length
    else npos := by
  unfold firstIndex
  by_cases hmem : T ∈ Xs
  · rw [if_pos (List.mem_append_left _ hmem), if_pos hmem, if_pos hmem, List.idxOf_append,
      if_pos hmem]
  · rw [if_neg hmem]
    by_cases hx : x = T
    · rw [if_pos (by simp [hx]), if_pos hx, List.idxOf_append, if_neg hmem, hx,
        List.idxOf_cons_self, Nat.zero_add]
    · rw [if_neg (by simp [hmem, Ne.symm hx]), if_neg hx]

/-- The index that is found is the first one exactly when there is at most one. -/
theorem findIndex_eq_firstIndex_iff (hlen : Xs.length < 2 ^ 64) :
    findIndex Xs T = firstIndex Xs T ↔ Xs.count T ≤ 1 := by
  induction Xs using List.reverseRecOn with
  | nil => exact iff_of_true rfl (Nat.zero_le 1)
  | append_singleton Xs x ih =>
    rw [List.length_append] at hlen
    have hlt : Xs.length < 2 ^ 64 := by omega
    rw [findIndex_append hlt, firstIndex_append, List.count_append]
    by_cases hx : x = T
    · subst hx
      rw [if_pos rfl, List.count_singleton_self]
      by_cases hmem : x ∈ Xs
      · -- the first index is one of the list before
        have hidx := List.idxOf_lt_length_of_mem hmem
        have hcount := List.count_pos_iff.mpr hmem
        rw [if_pos hmem, firstIndex, if_pos hmem]
        omega
      · rw [if_neg hmem, if_pos rfl, List.count_eq_zero_of_not_mem hmem]
        exact iff_of_true rfl (Nat.le_refl 1)
    · have hnone : [x].count T = 0 :=
        List.count_eq_zero_of_not_mem fun h => hx (List.mem_singleton.mp h).symm
      rw [if_neg hx, hnone, Nat.add_zero, if_neg hx, ← ih hlt]
      by_cases hmem : T ∈ Xs
      · rw [if_pos hmem]
      · rw [if_neg hmem, firstIndex, if_neg hmem]

/-- What is found is an occurrence. -/
theorem getElem?_firstIndex (h : T ∈ Xs) : Xs[firstIndex Xs T]? = some T := by
  rw [firstIndex, if_pos h, List.getElem?_eq_getElem (List.idxOf_lt_length_of_mem h),
    List.getElem_idxOf]

end

/-! ## Positions -/

/-- The tuple of the elements at these positions, one in each list. -/
def tupleAt : List (List X) → List Nat → Option (List X)
  | [], [] => some []
  | L :: Ls, i :: is => do return (← L[i]?) :: (← tupleAt Ls is)
  | _, _ => none

/-- The combinations of positions that there are, once each, in some order; these are their
tuples. -/
def Enumerates (Ls : List (List X)) (tuples : List (List X)) : Prop :=
  ∃ positions : List (List Nat), positions.Nodup ∧ (∀ p, p ∈ positions ↔ (tupleAt Ls p).isSome) ∧
    tuples.map some = positions.map (tupleAt Ls)

/-- The product of the lists' positions. -/
def positions (Ls : List (List X)) : List (List Nat) :=
  cartesianProduct (Ls.map fun L => List.range L.length)

theorem tupleAt_isSome {Ls : List (List X)} {p : List Nat} :
    (tupleAt Ls p).isSome ↔ List.Forall₂ (fun i L => i < L.length) p Ls := by
  induction Ls generalizing p with
  | nil =>
    rw [List.forall₂_nil_right_iff]
    cases p with
    | nil => exact iff_of_true rfl rfl
    | cons i p => exact iff_of_false Bool.false_ne_true nofun
  | cons L Ls ih =>
    cases p with
    | nil => exact iff_of_false Bool.false_ne_true nofun
    | cons i p =>
      rw [List.forall₂_cons, ← ih, tupleAt]
      cases hi : L[i]? with
      | none =>
        exact iff_of_false Bool.false_ne_true fun h =>
          absurd h.1 (Nat.not_lt.mpr (List.getElem?_eq_none_iff.mp hi))
      | some x =>
        have hlt := (List.getElem?_eq_some_iff.mp hi).1
        cases tupleAt Ls p with
        | none => exact iff_of_false Bool.false_ne_true fun h => Bool.false_ne_true h.2
        | some tuple => exact iff_of_true rfl ⟨hlt, rfl⟩

theorem mem_positions {Ls : List (List X)} {p : List Nat} :
    p ∈ positions Ls ↔ (tupleAt Ls p).isSome := by
  rw [positions, mem_cartesianProduct, tupleAt_isSome, List.forall₂_map_right_iff]
  simp only [List.mem_range]

theorem map_some_eq (L : List X) : L.map some = (List.range L.length).map (L[·]?) := by
  refine List.ext_getElem (by simp) fun i h _ => ?_
  have hi : i < L.length := by simpa using h
  simp [hi]

/-- By induction on the lists: the element in front is the one at the position in front. -/
theorem cartesianProduct_positions (Ls : List (List X)) :
    (cartesianProduct Ls).map some = (positions Ls).map (tupleAt Ls) := by
  induction Ls with
  | nil => rfl
  | cons L Ls ih =>
    -- what the first list gives, if there is an element
    let g : Option X → List (Option (List X)) :=
      fun o => (positions Ls).map fun p => do return (← o) :: (← tupleAt Ls p)
    have hsome : ∀ x, g (some x) = ((cartesianProduct Ls).map (x :: ·)).map some := fun x => by
      have hg : g (some x) = ((positions Ls).map (tupleAt Ls)).map (Option.map (x :: ·)) := by
        rw [List.map_map]
        refine List.map_congr_left fun p _ => ?_
        cases h : tupleAt Ls p <;> simp [h]
      rw [hg, ← ih, List.map_map, List.map_map]
      rfl
    have hleft : (cartesianProduct (L :: Ls)).map some = (L.map some).flatMap g := by
      rw [cartesianProduct_cons, List.map_flatMap, List.flatMap_map]
      simp only [hsome]
    have hright :
        (positions (L :: Ls)).map (tupleAt (L :: Ls)) =
          ((List.range L.length).map (L[·]?)).flatMap g := by
      rw [positions, List.map_cons, cartesianProduct_cons, List.map_flatMap, List.flatMap_map]
      simp only [List.map_map]
      rfl
    rw [hleft, hright, map_some_eq]

theorem enumerates_cartesianProduct (Ls : List (List X)) : Enumerates Ls (cartesianProduct Ls) := by
  refine ⟨positions Ls, nodup_cartesianProduct fun L hL => ?_, fun _ => mem_positions,
    cartesianProduct_positions Ls⟩
  obtain ⟨_, _, rfl⟩ := List.mem_map.mp hL
  exact List.nodup_range

end Gpcl.Meta
