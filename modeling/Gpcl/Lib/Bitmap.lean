import Mathlib.Data.List.Basic
import Mathlib.Tactic.Common

/-! # Bitmaps

A word whose bits say which of a row of places are taken. The places are searched from a given one
on, for the first that is taken. -/
namespace Gpcl.Lib.Bitmap

variable {n : Nat} {w : BitVec n} {i k : Nat}

/-- The word with one bit. -/
def single (n k : Nat) : BitVec n := 1#n <<< k

/-- The bits from `k` on. -/
def upFrom (w : BitVec n) (k : Nat) : BitVec n := w &&& (BitVec.allOnes n <<< k)

/-- The lowest bit that is set. -/
def lowest (w : BitVec n) : Nat := ((List.range n).find? w.getLsbD).getD 0

theorem getLsbD_single (hk : k < n) : (single n k).getLsbD i = decide (i = k) := by
  rw [single, BitVec.getLsbD_shiftLeft, BitVec.getLsbD_one]
  by_cases hi : i = k
  · simp [hi, hk]
    omega
  · simp [hi]
    omega

theorem getLsbD_insert (hk : k < n) :
    (w ||| single n k).getLsbD i = (w.getLsbD i || decide (i = k)) := by
  rw [BitVec.getLsbD_or, getLsbD_single hk]

theorem getLsbD_erase (hk : k < n) :
    (w &&& ~~~ single n k).getLsbD i = (w.getLsbD i && decide (i ≠ k)) := by
  rw [BitVec.getLsbD_and, BitVec.getLsbD_not, getLsbD_single hk]
  by_cases hi : i < n
  · simp [hi]
  · simp [BitVec.getLsbD_of_ge w i (Nat.le_of_not_lt hi)]

theorem getLsbD_upFrom : (upFrom w k).getLsbD i = (w.getLsbD i && decide (k ≤ i)) := by
  rw [upFrom, BitVec.getLsbD_and, BitVec.getLsbD_shiftLeft, BitVec.getLsbD_allOnes]
  by_cases hi : i < n
  · by_cases hk : k ≤ i
    · have hlt : i - k < n := by omega
      simp [hi, hk, hlt]
    · simp [hk]
  · simp [BitVec.getLsbD_of_ge w i (Nat.le_of_not_lt hi)]

theorem ne_zero_iff : w ≠ 0 ↔ ∃ i, w.getLsbD i = true := by
  constructor
  · intro h
    refine Classical.byContradiction fun hnone => h (BitVec.eq_of_getLsbD_eq fun i _ => ?_)
    rw [not_exists] at hnone
    rw [Bool.eq_false_iff.mpr (hnone i)]
    simp
  · rintro ⟨i, hi⟩ rfl
    simp at hi

/-- Testing a bit. -/
theorem and_single_ne_zero (hk : k < n) : w &&& single n k ≠ 0 ↔ w.getLsbD k = true := by
  rw [ne_zero_iff]
  constructor
  · rintro ⟨i, hi⟩
    rw [BitVec.getLsbD_and, getLsbD_single hk, Bool.and_eq_true, decide_eq_true_eq] at hi
    exact hi.2 ▸ hi.1
  · intro hbit
    exact ⟨k, by rw [BitVec.getLsbD_and, getLsbD_single hk, hbit]; simp⟩

theorem getLsbD_lowest (h : w ≠ 0) : w.getLsbD (lowest w) = true := by
  obtain ⟨i, hi⟩ := ne_zero_iff.mp h
  have hlt : i < n := BitVec.lt_of_getLsbD hi
  have hsome : ((List.range n).find? w.getLsbD).isSome = true :=
    List.find?_isSome.mpr ⟨i, List.mem_range.mpr hlt, hi⟩
  obtain ⟨j, hj⟩ := Option.isSome_iff_exists.mp hsome
  rw [lowest, hj]
  exact List.find?_some hj

end Gpcl.Lib.Bitmap
