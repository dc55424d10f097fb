import Mathlib.Algebra.BigOperators.Group.List.Basic
import Mathlib.Algebra.Order.Group.Multiset
import Mathlib.Tactic.Common

/-! # Sums over a list of places

A place of a list is worth what `f` says of its content. Changing one content changes the sum by the
difference of the two, in any commutative monoid. -/
namespace Gpcl.Lib.Tokens

variable {α M : Type*} [AddCommMonoid M]

theorem sum_map_set (f : α → M) {l : List α} {i : Nat} {x : α} (y : α) (h : l[i]? = some x) :
    ((l.set i y).map f).sum + f x = (l.map f).sum + f y := by
  induction l generalizing i with
  | nil => simp at h
  | cons z l ih =>
    cases i with
    | zero =>
      obtain rfl : z = x := by simpa using h
      simp only [List.set_cons_zero, List.map_cons, List.sum_cons]
      rw [add_right_comm, add_comm (f y), add_right_comm, add_assoc]
    | succ i =>
      simp only [List.set_cons_succ, List.map_cons, List.sum_cons]
      rw [add_assoc, ih (by simpa using h), add_assoc]

theorem mem_sum_map {β : Type*} {f : α → Multiset β} {l : List α} {t : β} :
    t ∈ (l.map f).sum ↔ ∃ x ∈ l, t ∈ f x := by
  induction l with
  | nil => simp
  | cons x l ih => simp [ih]

end Gpcl.Lib.Tokens
