import Mathlib.Algebra.BigOperators.Group.Finset.Piecewise

/-! # Counting parties

Finitely many parties, each in a local state. `tally p loc` is the number of parties in
a state that satisfies `p`; a step of one party moves it by at most one. -/
namespace Gpcl.Lib.Parties

variable {ι L : Type*} [Fintype ι] {p : L → Bool} {loc : ι → L} {i : ι}

def tally (p : L → Bool) (loc : ι → L) : Nat := (Finset.univ.filter fun i => p (loc i) = true).card

theorem tally_eq_sum (p : L → Bool) (loc : ι → L) : tally p loc = ∑ i, (p (loc i)).toNat := by
  rw [tally, Finset.card_filter]
  refine Finset.sum_congr rfl fun i _ => ?_
  cases p (loc i) <;> rfl

/-- One party moves from `loc i` to `l`. -/
theorem tally_update [DecidableEq ι] (p : L → Bool) (loc : ι → L) (i : ι) (l : L) :
    tally p (Function.update loc i l) + (p (loc i)).toNat = tally p loc + (p l).toNat := by
  have hrest : ∑ k ∈ Finset.univ.erase i, (p (Function.update loc i l k)).toNat =
      ∑ k ∈ Finset.univ.erase i, (p (loc k)).toNat := by
    refine Finset.sum_congr rfl fun k hk => ?_
    rw [Function.update_of_ne (Finset.ne_of_mem_erase hk)]
  rw [tally_eq_sum, tally_eq_sum, ← Finset.add_sum_erase _ _ (Finset.mem_univ i),
    ← Finset.add_sum_erase (a := i) Finset.univ (fun k => (p (loc k)).toNat) (Finset.mem_univ i),
    hrest, Function.update_self]
  omega

theorem tally_pos (h : p (loc i) = true) : 0 < tally p loc :=
  Finset.card_pos.mpr ⟨i, Finset.mem_filter.mpr ⟨Finset.mem_univ i, h⟩⟩

theorem exists_of_tally_pos (h : 0 < tally p loc) : ∃ i, p (loc i) = true := by
  obtain ⟨i, hi⟩ := Finset.card_pos.mp h
  exact ⟨i, (Finset.mem_filter.mp hi).2⟩

theorem tally_eq_zero (h : ∀ i, p (loc i) = false) : tally p loc = 0 := by
  refine Finset.card_eq_zero.mpr (Finset.filter_eq_empty_iff.mpr fun i _ => ?_)
  rw [h i]
  exact Bool.false_ne_true

end Gpcl.Lib.Parties
