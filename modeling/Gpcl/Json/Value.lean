import Mathlib.Algebra.Order.Ring.Int
import Mathlib.Order.Basic
import Mathlib.Data.List.Lex

/-! # JSON values

The abstract content of a JSON value: whether a string, an array or an object is held
directly or through a shared pointer does not show. An object is a map with ordered
keys, here the list of its entries in that order. Real numbers are a parameter. -/
namespace Gpcl

abbrev Str := List Char

inductive Json (R : Type)
  | null
  | boolean (b : Bool)
  | integer (i : Int)
  | real (r : R)
  | string (s : Str)
  | array (xs : List (Json R))
  | object (fields : List (Str × Json R))

namespace Json
variable {R : Type}

/-- Induction over values: an array from its elements, an object from its members. -/
@[elab_as_elim]
theorem rec_members {P : Json R → Prop} (null : P null) (boolean : ∀ b, P (boolean b))
    (integer : ∀ i, P (integer i)) (real : ∀ r, P (real r)) (string : ∀ s, P (string s))
    (array : ∀ xs, (∀ x ∈ xs, P x) → P (array xs))
    (object : ∀ fields, (∀ f ∈ fields, P f.2) → P (object fields)) (v : Json R) : P v :=
  @Json.rec R P (fun xs => ∀ x ∈ xs, P x) (fun fields => ∀ f ∈ fields, P f.2)
    (fun f => P f.2) null boolean integer
    real string array object nofun
    (fun _ _ hx hxs _ hm => (List.mem_cons.mp hm).elim (fun h => h ▸ hx) (hxs _)) nofun
    (fun _ _ hf hfs _ hm => (List.mem_cons.mp hm).elim (fun h => h ▸ hf) (hfs _)) (fun _ _ h => h) v

end Json

/-- `std::map::insert`: an entry that is there is kept. -/
def insertKey {V : Type} (k : Str) (v : V) : List (Str × V) → List (Str × V)
  | [] => [(k, v)]
  | (k', v') :: rest =>
    if k' < k then (k', v') :: insertKey k v rest
    else if k < k' then (k, v) :: (k', v') :: rest
    else (k', v') :: rest

/-- A key behind all others. -/
theorem insertKey_last {V : Type} {k : Str} {v : V} {m : List (Str × V)} (h : ∀ e ∈ m, e.1 < k) :
    insertKey k v m = m ++ [(k, v)] := by
  induction m with
  | nil => rfl
  | cons e m ih =>
    rw [insertKey, if_pos (h e List.mem_cons_self),
      ih fun e' he => h e' (List.mem_cons_of_mem _ he), List.cons_append]

end Gpcl
