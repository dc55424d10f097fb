import Mathlib.Data.List.Basic
import Mathlib.Order.Defs.Unbundled
import Mathlib.Tactic.Common

/-! # Stable rearrangements

`Rearranged lt xs ys`: the same elements, and those that compare equal in the same order. A list is
sorted stably by moving elements to the front of greater ones. -/
namespace Gpcl.Lib.StableSort

variable {α : Type} {lt : α → α → Bool} {a b c x : α} {xs ys zs ms : List α}

/-- Neither comes before the other. -/
def same (lt : α → α → Bool) (a b : α) : Bool := !lt a b && !lt b a

structure Rearranged (lt : α → α → Bool) (xs ys : List α) : Prop where
  perm : ys.Perm xs
  stable : ∀ a, ys.filter (same lt a) = xs.filter (same lt a)

structure StablySorted (lt : α → α → Bool) (xs ys : List α) : Prop extends Rearranged lt xs ys where
  sorted : ys.Pairwise fun a b => lt b a = false

theorem Rearranged.refl (xs : List α) : Rearranged lt xs xs := ⟨.refl xs, fun _ => rfl⟩

theorem Rearranged.trans (h : Rearranged lt xs ys) (h' : Rearranged lt ys zs) :
    Rearranged lt xs zs :=
  ⟨h'.perm.trans h.perm, fun a => (h'.stable a).trans (h.stable a)⟩

theorem Rearranged.append_left (h : Rearranged lt xs ys) (zs : List α) :
    Rearranged lt (zs ++ xs) (zs ++ ys) :=
  ⟨h.perm.append_left zs, fun a => by rw [List.filter_append, List.filter_append, h.stable a]⟩

/-- In a strict weak ordering every element is above the smaller or below the greater of two. -/
theorem lt_or_lt (hlt : IsStrictWeakOrder α fun a b => lt a b = true) (hab : lt a b = true)
    (c : α) :
    lt a c = true ∨ lt c b = true := by
  by_contra hnot
  obtain ⟨hac, hcb⟩ := not_or.mp hnot
  have hca : ¬ lt c a = true := fun h => hcb (hlt.trans _ _ _ h hab)
  have hbc : ¬ lt b c = true := fun h => hac (hlt.trans _ _ _ hab h)
  exact (hlt.incomp_trans a c b ⟨hac, hca⟩ ⟨hcb, hbc⟩).1 hab

/-- An element goes to the front of elements that are all greater. -/
theorem Rearranged.move (hlt : IsStrictWeakOrder α fun a b => lt a b = true)
    (hb : ∀ y ∈ ms, lt b y = true) (zs : List α) :
    Rearranged lt (ms ++ b :: zs) (b :: (ms ++ zs)) := by
  refine ⟨List.perm_middle.symm, fun a => ?_⟩
  by_cases hab : same lt a b = true
  · have hnone : ms.filter (same lt a) = [] := by
      rw [List.filter_eq_nil_iff]
      intro y hy hay
      unfold same at hab hay
      simp only [Bool.and_eq_true, Bool.not_eq_true'] at hab hay
      rcases lt_or_lt hlt (hb y hy) a with h | h
      · rw [hab.2] at h; cases h
      · rw [hay.1] at h; cases h
    rw [List.filter_append, List.filter_cons_of_pos hab, List.filter_cons_of_pos hab,
      List.filter_append, hnone]
    rfl
  · rw [List.filter_append, List.filter_cons_of_neg hab, List.filter_cons_of_neg hab,
      List.filter_append]

/-- What is greater than the front stays behind it, while smaller elements come before it. -/
theorem Rearranged.step (hlt : IsStrictWeakOrder α fun a b => lt a b = true)
    (hms : ∀ y ∈ ms, lt y x = false) (hb : lt b x = true) (zs : List α) :
    Rearranged lt (x :: (ms ++ b :: zs)) (b :: (x :: ms ++ zs)) ∧
    ∀ y ∈ x :: ms, lt y b = false := by
  have hall : ∀ y ∈ x :: ms, lt b y = true := fun y hy => by
    rcases List.mem_cons.mp hy with rfl | hy
    · exact hb
    · rcases lt_or_lt hlt hb y with h | h
      · exact h
      · rw [hms y hy] at h; cases h
  refine ⟨Rearranged.move hlt hall zs, fun y hy => ?_⟩
  by_contra hyb
  exact hlt.irrefl b (hlt.trans _ _ _ (hall y hy) (by simpa using hyb))

theorem StablySorted.nil : StablySorted lt [] ([] : List α) := ⟨.refl [], .nil⟩

/-- The front is not above the others, and these are sorted. -/
theorem StablySorted.cons (h : Rearranged lt xs (x :: ms)) (hx : ∀ y ∈ ms, lt y x = false)
    (hms : StablySorted lt ms ys) :
    StablySorted lt xs (x :: ys) := by
  refine ⟨h.trans (hms.toRearranged.append_left [x]),
    List.pairwise_cons.mpr ⟨fun y hy => ?_, hms.sorted⟩⟩
  exact hx y (hms.perm.mem_iff.mp hy)

end Gpcl.Lib.StableSort
