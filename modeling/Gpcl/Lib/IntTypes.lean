import Mathlib.Algebra.Order.Ring.Int
import Mathlib.Tactic.Linarith

/-! # Fixed-width integer types

A type has a width in bits and is signed, in two's complement, or unsigned: its values are the
`modulus` integers from `least` on. A conversion keeps the residue (`wrap`), and two values of one
type that have the same residue are equal. -/
namespace Gpcl.Lib.IntTypes

structure IntType where
  signed : Bool
  width : Nat
  pos : 0 < width
deriving DecidableEq

namespace IntType

def modulus (t : IntType) : Int := 2 ^ t.width

def least (t : IntType) : Int := if t.signed then -2 ^ (t.width - 1) else 0

def Represents (t : IntType) (v : Int) : Prop := t.least ≤ v ∧ v < t.least + t.modulus

instance (t : IntType) (v : Int) : Decidable (t.Represents v) := inferInstanceAs (Decidable (_ ∧ _))

/-- The value of the type with the residue of `v`. -/
def wrap (t : IntType) (v : Int) : Int := t.least + (v - t.least) % t.modulus

/-- The values of the type. -/
def Value (t : IntType) : Type := { v : Int // t.Represents v }

section
variable {t : IntType} {u v : Int}

theorem modulus_pos (t : IntType) : 0 < t.modulus := Int.pow_pos (by decide)

theorem modulus_eq (t : IntType) : t.modulus = 2 * 2 ^ (t.width - 1) := by
  obtain ⟨n, hn⟩ := Nat.exists_eq_succ_of_ne_zero (Nat.ne_of_gt t.pos)
  rw [modulus, hn, Nat.succ_eq_add_one, Nat.add_sub_cancel, pow_succ']

theorem least_signed (h : t.signed = true) : t.least = -2 ^ (t.width - 1) := if_pos h

theorem least_unsigned (h : t.signed = false) : t.least = 0 := if_neg (by simp [h])

theorem represents_wrap (t : IntType) (v : Int) : t.Represents (t.wrap v) := by
  have h0 := Int.emod_nonneg (v - t.least) (Int.ne_of_gt t.modulus_pos)
  have hlt := Int.emod_lt_of_pos (v - t.least) t.modulus_pos
  unfold Represents wrap
  omega

theorem modulus_dvd_wrap (t : IntType) (v : Int) : t.modulus ∣ t.wrap v - v := by
  have hdiv := Int.mul_ediv_add_emod (v - t.least) t.modulus
  refine ⟨-((v - t.least) / t.modulus), ?_⟩
  rw [wrap, Int.mul_neg]
  omega

/-- Values with the same residue are equal. -/
theorem eq_of_dvd (hu : t.Represents u) (hv : t.Represents v) (h : t.modulus ∣ u - v) : u = v := by
  obtain ⟨hu0, hu1⟩ := hu
  obtain ⟨hv0, hv1⟩ := hv
  have habs : |u - v| < t.modulus := abs_lt.mpr ⟨by omega, by omega⟩
  have hzero := Int.eq_zero_of_abs_lt_dvd h habs
  omega

theorem wrap_eq_iff (hu : t.Represents u) : t.wrap v = u ↔ t.modulus ∣ v - u := by
  have hw := t.modulus_dvd_wrap v
  constructor
  · intro h
    rw [h, ← Int.dvd_neg, Int.neg_sub] at hw
    exact hw
  · intro h
    refine eq_of_dvd (t.represents_wrap v) hu ?_
    rw [← Int.sub_add_cancel (t.wrap v) v, Int.add_sub_assoc]
    exact Int.dvd_add hw h

theorem wrap_of_represents (h : t.Represents v) : t.wrap v = v := (wrap_eq_iff h).mpr (by simp)

/-- A type that is no wider has a modulus that divides. -/
theorem modulus_dvd {s : IntType} (h : s.width ≤ t.width) : s.modulus ∣ t.modulus := pow_dvd_pow 2 h

theorem half_le {s : IntType} (h : s.width ≤ t.width) :
    (2 : Int) ^ (s.width - 1) ≤ 2 ^ (t.width - 1) :=
  pow_le_pow_right₀ (by decide) (Nat.sub_le_sub_right h 1)

theorem modulus_le_half {s : IntType} (h : s.width < t.width) : s.modulus ≤ 2 ^ (t.width - 1) :=
  pow_le_pow_right₀ (by decide) (by omega)

end

end IntType

end Gpcl.Lib.IntTypes
