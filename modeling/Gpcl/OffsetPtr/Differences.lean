import Gpcl.Numbers.NarrowCast
import Gpcl.OffsetPtr.Basic

/-! # Pointer differences as offsets

`sizeof(T)` is unsigned, and so are the product, the remainder and the quotient that a signed number
is computed with. Modulo 2^64 a product is the right one; a quotient is not. -/
namespace Gpcl.OffsetPtr.Differences
open Lib.IntTypes NarrowCast

def sizeType : IntType := ⟨false, 64, by decide⟩

/-- `std::intptr_t` and `std::ptrdiff_t`. -/
def offsetType : IntType := ⟨true, 64, by decide⟩

/-- `diff * sizeof(T)`: the product modulo 2^64. -/
def product (T : Pointee) (diff : Int) : (Integral.int sizeType).Value :=
  ⟨sizeType.wrap (diff * T.size), sizeType.represents_wrap _⟩

def diffToOffset (T : Pointee) (diff : Int) : Except Failure (Integral.int offsetType).Value :=
  narrowCast (.int offsetType) (product T diff)

/-- `offset` is converted to `std::size_t` for the remainder and for the quotient. -/
def offsetToDiff (T : Pointee) (offset : (Integral.int offsetType).Value) : Except Failure Int :=
  if sizeType.wrap offset.val % T.size = 0
    then .ok (offsetType.wrap (sizeType.wrap offset.val / T.size)) else .error .assertion

/-- The difference comes back, and no assertion fails. -/
def ComesBack (T : Pointee) (diff : Int) : Prop :=
  (do offsetToDiff T (← diffToOffset T diff)) = .ok diff

section
variable {T : Pointee} {d v : Int}

theorem represents_sizeType : sizeType.Represents v ↔ 0 ≤ v ∧ v < 2 ^ 64 := by
  show 0 ≤ v ∧ v < 0 + 2 ^ 64 ↔ _
  rw [Int.zero_add]

theorem represents_offsetType : offsetType.Represents v ↔ -2 ^ 63 ≤ v ∧ v < 2 ^ 63 := by
  show -2 ^ 63 ≤ v ∧ v < -2 ^ 63 + 2 ^ 64 ↔ _
  omega

/-- The word that is stored is the one of the pointer arithmetic. -/
theorem diffToOffset_word (T : Pointee) (d : Int) :
    (product T d).val = OffsetPtr.diffToOffset T d := by
  have hnonneg := Int.emod_nonneg (d * T.size) (b := 2 ^ 64) (by decide)
  show 0 + (d * T.size - 0) % 2 ^ 64 = ((d * T.size % 2 ^ 64).toNat : Int)
  omega

/-- The product as a signed number is the exact one if that fits. -/
theorem offsetType_wrap_product (h : offsetType.Represents (d * T.size)) :
    offsetType.wrap (product T d).val = d * T.size := by
  rw [diffToOffset_word]
  exact (IntType.wrap_eq_iff h).mpr
    (Int.dvd_of_emod_eq_zero (Int.emod_eq_emod_iff_emod_sub_eq_zero.mp (diffToOffset_mod T d)))

theorem diffToOffset_eq (h : offsetType.Represents (d * T.size)) :
    diffToOffset T d = .ok ⟨d * T.size, h⟩ := by
  have hcast : Integral.cast (.int offsetType) (product T d) = ⟨d * T.size, h⟩ :=
    Subtype.ext (offsetType_wrap_product h)
  unfold diffToOffset narrowCast
  rw [hcast]
  exact if_pos rfl

theorem offsetToDiff_eq (h : offsetType.Represents (d * T.size)) : offsetToDiff T ⟨d * T.size, h⟩ =
    if sizeType.wrap (d * T.size) % T.size = 0
    then .ok (offsetType.wrap (sizeType.wrap (d * T.size) / T.size))
    else .error .assertion := rfl

/-- A difference that is not negative has a product that is not, which is divided as it is. -/
theorem offsetToDiff_nonneg (h : offsetType.Represents (d * T.size)) (hs : 0 < T.size)
    (hd : 0 ≤ d) :
    offsetToDiff T ⟨d * T.size, h⟩ = .ok d := by
  have hpos : (0 : Int) < T.size := Int.natCast_pos.mpr hs
  have hle : d ≤ d * T.size := le_mul_of_one_le_right hd hpos
  obtain ⟨_, hlt⟩ := represents_offsetType.mp h
  have hu : sizeType.wrap (d * T.size) = d * T.size :=
    IntType.wrap_of_represents (represents_sizeType.mpr ⟨by omega, by omega⟩)
  rw [offsetToDiff_eq, hu, if_pos (Int.mul_emod_left ..), Int.mul_ediv_cancel _ (Int.ne_of_gt hpos),
    IntType.wrap_of_represents (represents_offsetType.mpr ⟨by omega, by omega⟩)]

/-- Bytes are divided by 1. -/
theorem offsetToDiff_byte (h : offsetType.Represents (d * T.size)) (hs : T.size = 1) :
    offsetToDiff T ⟨d * T.size, h⟩ = .ok d := by
  have hd : d * T.size = d := by rw [hs, Int.natCast_one, Int.mul_one]
  have hback : offsetType.wrap (sizeType.wrap d) = d :=
    (IntType.wrap_eq_iff (hd ▸ h)).mpr (sizeType.modulus_dvd_wrap d)
  rw [offsetToDiff_eq, hs, Int.natCast_one, Int.mul_one, Int.emod_one, if_pos rfl, Int.ediv_one,
    hback]

/-- The quotient of the unsigned number is not negative. -/
theorem offsetToDiff_neg (h : offsetType.Represents (d * T.size)) (hs : 1 < T.size) (hd : d < 0) :
    offsetToDiff T ⟨d * T.size, h⟩ ≠ .ok d := by
  obtain ⟨h0, hlt⟩ := represents_sizeType.mp (sizeType.represents_wrap (d * T.size))
  have hquot : sizeType.wrap (d * T.size) / T.size < 2 ^ 63 := by
    refine Int.ediv_lt_of_lt_mul (by omega) ?_
    omega
  have hquot0 : 0 ≤ sizeType.wrap (d * T.size) / T.size := Int.ediv_nonneg h0 (Int.natCast_nonneg _)
  intro he
  rw [offsetToDiff_eq] at he
  split at he
  · have hval := Except.ok.inj he
    rw [IntType.wrap_of_represents (represents_offsetType.mpr ⟨by omega, hquot⟩)] at hval
    omega
  · cases he

/-- A difference comes back through its offset exactly when it is not negative or counts bytes. -/
theorem comesBack_iff (hs : 0 < T.size) (h : offsetType.Represents (d * T.size)) :
    ComesBack T d ↔ 0 ≤ d ∨ T.size = 1 := by
  have hrun : (do offsetToDiff T (← diffToOffset T d)) = offsetToDiff T ⟨d * T.size, h⟩ := by
    rw [diffToOffset_eq h]
    rfl
  unfold ComesBack
  rw [hrun]
  constructor
  · intro hback
    by_contra hno
    exact offsetToDiff_neg h (by omega) (by omega) hback
  · rintro (hd | hone)
    · exact offsetToDiff_nonneg h hs hd
    · exact offsetToDiff_byte h hone

end

theorem comesBack_forward : ComesBack ⟨24, true⟩ 5 :=
  (comesBack_iff (by decide) (represents_offsetType.mpr (by norm_num))).mpr (.inl (by decide))

/-- One element of four bytes back becomes 2^62 - 1 elements; with three bytes the assertion
fails. -/
theorem one_back_lost :
    (do offsetToDiff ⟨4, true⟩ (← diffToOffset ⟨4, true⟩ (-1))) = .ok (2 ^ 62 - 1) ∧
    (do offsetToDiff ⟨3, true⟩ (← diffToOffset ⟨3, true⟩ (-1))) = .error .assertion := by
  have hfour : offsetType.Represents (-1 * (⟨4, true⟩ : Pointee).size) :=
    represents_offsetType.mpr (by norm_num)
  have hthree : offsetType.Represents (-1 * (⟨3, true⟩ : Pointee).size) :=
    represents_offsetType.mpr (by norm_num)
  have hwrap4 : sizeType.wrap (-1 * (⟨4, true⟩ : Pointee).size) = 2 ^ 64 - 4 := by
    norm_num [sizeType, IntType.wrap, IntType.least, IntType.modulus]
  have hwrap3 : sizeType.wrap (-1 * (⟨3, true⟩ : Pointee).size) = 2 ^ 64 - 3 := by
    norm_num [sizeType, IntType.wrap, IntType.least, IntType.modulus]
  have hquot : offsetType.wrap (2 ^ 62 - 1) = 2 ^ 62 - 1 :=
    IntType.wrap_of_represents (represents_offsetType.mpr (by norm_num))
  rw [diffToOffset_eq hfour, diffToOffset_eq hthree]
  refine ⟨(offsetToDiff_eq hfour).trans ?_, (offsetToDiff_eq hthree).trans ?_⟩
  · rw [hwrap4, if_pos (by norm_num),
      show ((2 : Int) ^ 64 - 4) / (⟨4, true⟩ : Pointee).size = 2 ^ 62 - 1 by norm_num, hquot]
  · rw [hwrap3, if_neg (by norm_num)]

end Gpcl.OffsetPtr.Differences
