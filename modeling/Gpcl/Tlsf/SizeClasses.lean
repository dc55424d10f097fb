import Gpcl.Tlsf.Basic

/-! # Size classes

The blocks of a list have at least the size its class starts with, the classes start in the order of
their indices, and the class that a search starts from starts at the size or above it. So every
block that a search can find is large enough. -/
namespace Gpcl.Tlsf
open Lib.Memory Lib.Bitmap

variable {size fl sl fl' sl' : Nat}

/-- The smallest size in a class. -/
def classStart (fl sl : Nat) : Nat := if fl = 0 then 8 * sl else (32 + sl) * 2 ^ (fl + 2)

/-- The order of the classes. -/
def ClassLe (fl sl fl' sl' : Nat) : Prop := fl < fl' ∨ (fl = fl' ∧ sl ≤ sl')

theorem flsSizet_eq (h : size ≠ 0) : flsSizet size = size.log2 := by
  unfold flsSizet fls
  dsimp only
  split
  · rename_i hhigh
    symm
    obtain ⟨hle, hlt⟩ := (Nat.log2_eq_iff hhigh).mp rfl
    refine (Nat.log2_eq_iff h).mpr ⟨?_, ?_⟩
    · rw [Nat.pow_add, Nat.mul_comm]
      exact (Nat.le_div_iff_mul_le (by decide)).mp hle
    · rw [Nat.add_assoc, Nat.pow_add, Nat.mul_comm]
      exact (Nat.div_lt_iff_lt_mul (by decide)).mp hlt
  · rename_i hhigh
    rw [Nat.mod_eq_of_lt (by omega)]

theorem le_log2_of_large (h : smallBlockSize ≤ size) : 8 ≤ size.log2 :=
  (Nat.le_log2 (by unfold smallBlockSize at h; omega)).mpr h

theorem xor_top {x : Nat} (hle : 32 ≤ x) (hlt : x < 64) : x ^^^ 32 = x - 32 := by
  obtain ⟨k, rfl⟩ := Nat.exists_eq_add_of_le hle
  have hk : k < 32 := by omega
  have hall : ∀ k : Fin 32, (32 + k.val) ^^^ 32 = 32 + k.val - 32 := by decide
  exact hall ⟨k, hk⟩

/-- The six leading bits of a size. -/
theorem leading_bits (h : smallBlockSize ≤ size) :
    32 ≤ size / 2 ^ (size.log2 - 5) ∧ size / 2 ^ (size.log2 - 5) < 64 := by
  have hne : size ≠ 0 := by unfold smallBlockSize at h; omega
  have hlog := le_log2_of_large h
  have hsplit : 2 ^ size.log2 = 32 * 2 ^ (size.log2 - 5) := by
    rw [show (32 : Nat) = 2 ^ 5 from rfl, ← Nat.pow_add, Nat.add_sub_cancel' (by omega)]
  have hle := Nat.log2_self_le hne
  have hlt : size < 2 ^ (size.log2 + 1) := Nat.lt_log2_self
  rw [Nat.pow_succ] at hlt
  have hpos : 0 < 2 ^ (size.log2 - 5) := Nat.two_pow_pos _
  constructor
  · rw [Nat.le_div_iff_mul_le hpos]
    omega
  · rw [Nat.div_lt_iff_lt_mul hpos]
    omega

theorem mappingInsert_small (h : size < smallBlockSize) : mappingInsert size = (0, size / 8) := by
  rw [mappingInsert, if_pos h]
  rfl

theorem mappingInsert_large (h : smallBlockSize ≤ size) :
    mappingInsert size = (size.log2 - 7, size / 2 ^ (size.log2 - 5) - 32) := by
  obtain ⟨hle, hlt⟩ := leading_bits h
  rw [mappingInsert, if_neg (Nat.not_lt.mpr h), flsSizet_eq (by unfold smallBlockSize at h; omega)]
  dsimp only
  rw [Nat.shiftRight_eq_div_pow]
  exact Prod.ext rfl (xor_top hle hlt)

theorem mappingInsert_sl_lt (size : Nat) : (mappingInsert size).2 < slIndexCount := by
  by_cases h : size < smallBlockSize
  · rw [mappingInsert_small h]
    unfold smallBlockSize at h
    show size / 8 < 32
    omega
  · obtain ⟨hle, hlt⟩ := leading_bits (Nat.le_of_not_lt h)
    rw [mappingInsert_large (Nat.le_of_not_lt h)]
    show _ - 32 < 32
    omega

theorem mappingInsert_fl_lt (h : size < blockSizeMax) : (mappingInsert size).1 < flIndexCount := by
  by_cases hs : size < smallBlockSize
  · rw [mappingInsert_small hs]
    exact Nat.zero_lt_succ _
  · have hne : size ≠ 0 := by unfold smallBlockSize at hs; omega
    have hlog : size.log2 < 32 := (Nat.log2_lt hne).mpr h
    rw [mappingInsert_large (Nat.le_of_not_lt hs)]
    show size.log2 - 7 < 25
    omega

/-- Where the class of a size starts. -/
theorem classStart_large (h : smallBlockSize ≤ size) :
    classStart (mappingInsert size).1 (mappingInsert size).2 =
    size / 2 ^ (size.log2 - 5) * 2 ^ (size.log2 - 5) := by
  have hlog := le_log2_of_large h
  obtain ⟨hle, -⟩ := leading_bits h
  rw [mappingInsert_large h, classStart, if_neg (by dsimp only; omega)]
  dsimp only
  rw [show 32 + (size / 2 ^ (size.log2 - 5) - 32) = size / 2 ^ (size.log2 - 5) by omega,
    show size.log2 - 7 + 2 = size.log2 - 5 by omega]

theorem classStart_le (size : Nat) :
    classStart (mappingInsert size).1 (mappingInsert size).2 ≤ size := by
  by_cases h : size < smallBlockSize
  · rw [mappingInsert_small h]
    show 8 * (size / 8) ≤ size
    omega
  · rw [classStart_large (Nat.le_of_not_lt h)]
    exact Nat.div_mul_le_self ..

theorem ClassLe.classStart_le (h : ClassLe fl sl fl' sl') (hsl : sl < slIndexCount) :
    classStart fl sl ≤ classStart fl' sl' := by
  unfold slIndexCount at hsl
  obtain hfl | ⟨rfl, hle⟩ := h
  · have hpow : 2 ^ (fl + 3) ≤ 2 ^ (fl' + 2) := Nat.pow_le_pow_right (by decide) (by omega)
    have hlater : 32 * 2 ^ (fl' + 2) ≤ classStart fl' sl' := by
      rw [classStart, if_neg (by omega)]
      exact Nat.mul_le_mul_right _ (Nat.le_add_right ..)
    have hearlier : classStart fl sl ≤ 32 * 2 ^ (fl + 3) := by
      rw [Nat.pow_succ, classStart]
      split
      · have hpow : 2 ^ 2 ≤ 2 ^ (fl + 2) := Nat.pow_le_pow_right (by decide) (Nat.le_add_left ..)
        omega
      · have hmul : (32 + sl) * 2 ^ (fl + 2) ≤ 64 * 2 ^ (fl + 2) :=
          Nat.mul_le_mul_right _ (by omega)
        omega
    omega
  · unfold classStart
    split
    · omega
    · exact Nat.mul_le_mul_right _ (by omega)

/-- What a search for a large size rounds it up to. -/
theorem mappingSearch_large (h : smallBlockSize ≤ size) :
    mappingSearch size = mappingInsert (size + (2 ^ (size.log2 - 5) - 1)) := by
  rw [mappingSearch, if_pos h, flsSizet_eq (by unfold smallBlockSize at h; omega), Nat.shiftLeft_eq,
    Nat.one_mul]
  rfl

theorem le_classStart_mappingSearch (h : 8 ∣ size) :
    size ≤ classStart (mappingSearch size).1 (mappingSearch size).2 := by
  by_cases hs : size < smallBlockSize
  · rw [mappingSearch, if_neg (Nat.not_le.mpr hs), mappingInsert_small hs]
    show size ≤ 8 * (size / 8)
    omega
  · have hs := Nat.le_of_not_lt hs
    have hne : size ≠ 0 := by unfold smallBlockSize at hs; omega
    have hlog := le_log2_of_large hs
    rw [mappingSearch_large hs]
    generalize hx : size + (2 ^ (size.log2 - 5) - 1) = x
    have hpos : 0 < 2 ^ (size.log2 - 5) := Nat.two_pow_pos _
    have hle : size ≤ x := by omega
    rw [classStart_large (Nat.le_trans hs hle)]
    have hmono : size.log2 ≤ x.log2 :=
      (Nat.le_log2 (by omega)).mpr (Nat.le_trans (Nat.log2_self_le hne) hle)
    obtain heq | hlt := Nat.eq_or_lt_of_le hmono
    · -- as many bits as the size: rounded up to a multiple
      rw [← heq, ← hx]
      have hdiv := Nat.lt_div_mul_add hpos (a := size + (2 ^ (size.log2 - 5) - 1))
      omega
    · -- one bit more: at least the power of two, which the size is below
      have hbits := (leading_bits (Nat.le_trans hs hle)).1
      have hsize : size < 2 ^ (size.log2 + 1) := Nat.lt_log2_self
      have hpow : 2 ^ (size.log2 + 1) ≤ 2 ^ x.log2 := Nat.pow_le_pow_right (by decide) hlt
      have hsplit : 2 ^ x.log2 = 32 * 2 ^ (x.log2 - 5) := by
        rw [show (32 : Nat) = 2 ^ 5 from rfl, ← Nat.pow_add, Nat.add_sub_cancel' (by omega)]
      have hmul : 32 * 2 ^ (x.log2 - 5) ≤ x / 2 ^ (x.log2 - 5) * 2 ^ (x.log2 - 5) :=
        Nat.mul_le_mul_right _ hbits
      omega

theorem mappingSearch_sl_lt (size : Nat) : (mappingSearch size).2 < slIndexCount := by
  rw [mappingSearch]
  split
  · exact mappingInsert_sl_lt _
  · exact mappingInsert_sl_lt _

/-- The largest size that a search does not look for behind the last list. -/
def searchMax : Nat := 63 * 2 ^ 26

theorem mappingSearch_fl_lt (h : size < blockSizeMax) :
    (mappingSearch size).1 < flIndexCount ↔ size ≤ searchMax := by
  by_cases hs : size < smallBlockSize
  · rw [mappingSearch, if_neg (Nat.not_le.mpr hs)]
    refine iff_of_true (mappingInsert_fl_lt h) ?_
    unfold smallBlockSize at hs
    unfold searchMax
    omega
  · have hs := Nat.le_of_not_lt hs
    have hne : size ≠ 0 := by unfold smallBlockSize at hs; omega
    have hlog := le_log2_of_large hs
    have hlt : size.log2 < 32 := (Nat.log2_lt hne).mpr h
    rw [mappingSearch_large hs]
    generalize hx : size + (2 ^ (size.log2 - 5) - 1) = x
    have hlarge : smallBlockSize ≤ x := by omega
    have hfl : (mappingInsert x).1 < flIndexCount ↔ x < 2 ^ 32 := by
      rw [mappingInsert_large hlarge, ← Nat.log2_lt (by omega)]
      show x.log2 - 7 < 25 ↔ _
      have := le_log2_of_large hlarge
      omega
    rw [hfl, searchMax]
    by_cases htop : size.log2 = 31
    · rw [htop] at hx
      omega
    · have hpow : 2 ^ (size.log2 - 5) ≤ 2 ^ 25 := Nat.pow_le_pow_right (by decide) (by omega)
      have hsmall : size < 2 ^ 31 := (Nat.log2_lt hne).mp (by omega)
      omega

end Gpcl.Tlsf
