import Gpcl.Tlsf.Heap

/-! # Good fit

A request is served if there is a free block of the size that its search starts from, or a larger
one, and only then. That size is the size of the request rounded up, by a thirty-second of it at
most. -/
namespace Gpcl.Tlsf
open Lib.Memory Lib.Runs

variable {size fl sl fl' sl' q : Nat} {c : Control} {hand : List Nat} {b : Header}

/-- The smallest block that a search for a size finds. -/
def searchStart (size : Nat) : Nat := classStart (mappingSearch size).1 (mappingSearch size).2

theorem lt_classStart_succ (size : Nat) :
    size < classStart (mappingInsert size).1 ((mappingInsert size).2 + 1) := by
  by_cases h : size < smallBlockSize
  · rw [mappingInsert_small h]
    show size < 8 * (size / 8 + 1)
    omega
  · have h := Nat.le_of_not_lt h
    have hlog := le_log2_of_large h
    obtain ⟨hle, -⟩ := leading_bits h
    rw [mappingInsert_large h, classStart, if_neg (by dsimp only; omega)]
    dsimp only
    rw [show 32 + (size / 2 ^ (size.log2 - 5) - 32 + 1) = size / 2 ^ (size.log2 - 5) + 1 by omega,
      show size.log2 - 7 + 2 = size.log2 - 5 by omega, Nat.mul_comm]
    exact Nat.lt_mul_div_succ size (Nat.two_pow_pos _)

/-- After the last class of a row comes the first one of the next row. -/
theorem classStart_row (fl : Nat) : classStart fl 32 = classStart (fl + 1) 0 := by
  unfold classStart
  rw [if_neg (Nat.succ_ne_zero fl)]
  split
  · rename_i hzero
    rw [hzero]
    rfl
  · have hpow : 2 ^ (fl + 1 + 2) = 2 * 2 ^ (fl + 2) := Nat.pow_succ'
    rw [hpow, ← Nat.mul_assoc]

/-- The class of a size is not before a class that starts at the size or below. -/
theorem classLe_of_classStart_le (hsl : sl < slIndexCount) (h : classStart fl sl ≤ size) :
    ClassLe fl sl (mappingInsert size).1 (mappingInsert size).2 := by
  refine Classical.byContradiction fun hle => ?_
  have hsize := lt_classStart_succ size
  have hrow := mappingInsert_sl_lt size
  generalize mappingInsert size = place at hle hsize hrow
  obtain ⟨fl', sl'⟩ := place
  dsimp only at hle hsize hrow
  unfold slIndexCount at hrow hsl
  have hnext : classStart fl' (sl' + 1) ≤ classStart fl sl := by
    unfold ClassLe at hle
    obtain hlast | hin := Nat.eq_or_lt_of_le (show sl' + 1 ≤ 32 by omega)
    · rw [hlast, classStart_row]
      refine ClassLe.classStart_le ?_ (by decide)
      unfold ClassLe
      omega
    · refine ClassLe.classStart_le ?_ hin
      unfold ClassLe
      omega
  omega

theorem Indexed.stocked_iff (h : Indexed c []) (hsl : sl < slIndexCount) :
    Stocked c fl sl ↔ ∃ q b, c.headers q = some b ∧ b.free = true ∧ classStart fl sl ≤ b.size := by
  constructor
  · rintro ⟨fl', sl', hle, hne⟩
    obtain ⟨q, hq⟩ := List.exists_mem_of_ne_nil _ hne
    obtain ⟨size, hlisted, hmap⟩ := (h.listed fl' sl' q).mp hq
    rw [listedSize, if_neg List.not_mem_nil] at hlisted
    obtain ⟨b, hb, hfree⟩ := Option.bind_eq_some_iff.mp hlisted
    split at hfree
    · rename_i hflag
      cases hfree
      refine ⟨q, b, hb, hflag, Nat.le_trans (hle.classStart_le hsl) ?_⟩
      have := classStart_le b.size
      rw [hmap] at this
      exact this
    · cases hfree
  · rintro ⟨q, b, hb, hfree, hle⟩
    refine ⟨_, _, classLe_of_classStart_le hsl hle, List.ne_nil_of_mem (a := q) ?_⟩
    exact (h.listed _ _ q).mpr ⟨b.size, listedSize_some hb hfree List.not_mem_nil, rfl⟩

theorem searchStart_bounds (h8 : 8 ∣ size) :
    size ≤ searchStart size ∧ searchStart size ≤ size + size / 32 := by
  refine ⟨le_classStart_mappingSearch h8, ?_⟩
  unfold searchStart
  by_cases hs : size < smallBlockSize
  · rw [mappingSearch, if_neg (Nat.not_le.mpr hs)]
    have := classStart_le size
    omega
  · have hs := Nat.le_of_not_lt hs
    have hne : size ≠ 0 := by unfold smallBlockSize at hs; omega
    have hlog := le_log2_of_large hs
    have hsplit : 2 ^ size.log2 = 32 * 2 ^ (size.log2 - 5) := by
      rw [show (32 : Nat) = 2 ^ 5 from rfl, ← Nat.pow_add, Nat.add_sub_cancel' (by omega)]
    have hlow := Nat.log2_self_le hne
    rw [mappingSearch_large hs]
    have := classStart_le (size + (2 ^ (size.log2 - 5) - 1))
    omega

/-- Behind the last class no block is large enough. -/
theorem searchStart_large (h : size < blockSizeMax) (hlarge : searchMax < size) :
    blockSizeMax ≤ searchStart size := by
  have hfl : ¬ (mappingSearch size).1 < flIndexCount :=
    fun hfl => Nat.not_le.mpr hlarge ((mappingSearch_fl_lt h).mp hfl)
  have hle : ClassLe flIndexCount 0 (mappingSearch size).1 (mappingSearch size).2 := by
    unfold ClassLe
    omega
  exact hle.classStart_le (by decide)

theorem Settled.locates_iff {pools : List Region} {live : Nat → Option Nat}
    (h : Settled pools c live) (hmax : size < blockSizeMax) :
    Locates c size ↔ size ≠ 0 ∧ ∃ q b, c.headers q = some b ∧ b.free = true ∧
    searchStart size ≤ b.size := by
  unfold Locates
  rw [h.sound.indexed.stocked_iff (mappingSearch_sl_lt size)]
  refine and_congr_right fun _ => ⟨And.right, fun hblock => ⟨?_, hblock⟩⟩
  obtain ⟨q, b, hb, -, hle⟩ := hblock
  refine Nat.le_of_not_lt fun hlarge => ?_
  have := searchStart_large hmax hlarge
  have := (h.sound.laid.bounds hb).2.1
  omega

namespace System

end System

end Gpcl.Tlsf
