import Gpcl.Lib.IntTypes

/-! # narrow and narrow_cast

Both convert to the target type and back and compare in the source type: one throws where the value
is another one, the other one asserts that it is not. The conversion to `bool` is the comparison
with 0, every other one keeps the residue. -/
namespace Gpcl.NarrowCast
open Lib.IntTypes

inductive Failure
  | assertion
  | badNarrowCast
deriving DecidableEq

/-- `bool`, or an integer type with a sign and a width. -/
inductive Integral
  | bool
  | int (t : IntType)

namespace Integral

/-- The values of `bool` are those of one unsigned bit. -/
def type : Integral → IntType
  | .bool => ⟨false, 1, by decide⟩
  | .int t => t

def Value (t : Integral) : Type := t.type.Value

/-- The integer that `static_cast` makes of `v`. -/
def convert : Integral → Int → Int
  | .bool, v => if v = 0 then 0 else 1
  | .int t, v => t.wrap v

theorem represents_bool {v : Int} : bool.type.Represents v ↔ v = 0 ∨ v = 1 := by
  show 0 ≤ v ∧ v < 2 ↔ _
  omega

theorem represents_convert (t : Integral) (v : Int) : t.type.Represents (t.convert v) := by
  cases t with
  | bool =>
    rw [represents_bool, convert]
    split
    · exact .inl rfl
    · exact .inr rfl
  | int t => exact t.represents_wrap v

theorem convert_of_represents {t : Integral} {v : Int} (h : t.type.Represents v) :
    t.convert v = v := by
  cases t with
  | bool => rcases represents_bool.mp h with rfl | rfl <;> rfl
  | int t => exact IntType.wrap_of_represents h

/-- `static_cast<To>(F)`. -/
def cast (To : Integral) {From : Integral} (F : From.Value) : To.Value :=
  ⟨To.convert F.val, represents_convert _ _⟩

end Integral

open Integral

def narrow (To : Integral) {From : Integral} (F : From.Value) : Except Failure To.Value :=
  let T := cast To F
  if (cast From T).val ≠ F.val then .error .badNarrowCast else .ok T

def narrowCast (To : Integral) {From : Integral} (F : From.Value) : Except Failure To.Value :=
  let T := cast To F
  if (cast From T).val = F.val then .ok T else .error .assertion

/-- The value is lost and comes back: a negative one as an unsigned one of the same width or more,
or a large unsigned one as a negative one of the same width or less. -/
def ComesBack (From To : Integral) (v : Int) : Prop :=
  (From.type.signed = true ∧ To.type.signed = false ∧ From.type.width ≤ To.type.width ∧ v < 0) ∨
    (From.type.signed = false ∧ To.type.signed = true ∧ To.type.width ≤ From.type.width ∧
      2 ^ From.type.width - 2 ^ (To.type.width - 1) ≤ v)

section
variable {From To : Integral} {s t : IntType} {v : Int}

theorem not_represents_of_comesBack (h : ComesBack From To v) : ¬ To.type.Represents v := by
  rintro ⟨hleast, hlimit⟩
  rcases h with ⟨_, ht, _, hv⟩ | ⟨_, ht, hw, hv⟩
  · rw [IntType.least_unsigned ht] at hleast
    omega
  · have hhalf := IntType.half_le hw
    have hm : (2 : Int) ^ From.type.width = 2 * 2 ^ (From.type.width - 1) := From.type.modulus_eq
    rw [IntType.least_signed ht, IntType.modulus_eq] at hlimit
    omega

/-- Into a type that is no narrower every value comes back. -/
theorem comesBack_of_le (hv : s.Represents v) (hw : s.width ≤ t.width) (h : ¬ t.Represents v) :
    ComesBack (.int s) (.int t) v := by
  obtain ⟨hleast, hlimit⟩ := hv
  have hhalf := IntType.half_le hw
  have hms := s.modulus_eq
  have hmt := t.modulus_eq
  unfold IntType.Represents at h
  have hs := IntType.modulus_pos s
  cases hss : s.signed with
  | true =>
    rw [IntType.least_signed hss] at hleast hlimit
    cases hts : t.signed with
    | true =>
      rw [IntType.least_signed hts] at h
      omega
    | false =>
      rw [IntType.least_unsigned hts] at h
      exact .inl ⟨hss, hts, hw, by omega⟩
  | false =>
    rw [IntType.least_unsigned hss] at hleast hlimit
    cases hts : t.signed with
    | true =>
      rw [IntType.least_signed hts] at h
      by_cases hlt : s.width < t.width
      · have hle := IntType.modulus_le_half hlt
        omega
      · have he : s.width = t.width := Nat.le_antisymm hw (Nat.not_lt.mp hlt)
        refine .inr ⟨hss, hts, Nat.le_of_eq he.symm, ?_⟩
        show (2 : Int) ^ s.width - 2 ^ (t.width - 1) ≤ v
        rw [show (2 : Int) ^ s.width = 2 * 2 ^ (s.width - 1) from hms, he]
        omega
    | false =>
      rw [IntType.least_unsigned hts] at h
      omega

/-- The residues of a narrower type tell the values of a wider one apart, but for the large unsigned
ones. -/
theorem comesBack_of_lt (hv : s.Represents v) (hw : t.width < s.width) (h : ¬ t.Represents v)
    (hback : s.wrap (t.wrap v) = v) : ComesBack (.int s) (.int t) v := by
  have hdvd := (IntType.wrap_eq_iff hv).mp hback
  have hT := t.represents_wrap v
  have hne : t.wrap v ≠ v := fun he => h (he ▸ hT)
  obtain ⟨hleast, hlimit⟩ := hv
  obtain ⟨hTleast, hTlimit⟩ := hT
  have hhalf := IntType.modulus_le_half hw
  have hms := s.modulus_eq
  have hmt := t.modulus_eq
  have hpos := t.modulus_pos
  have htle : -2 ^ (t.width - 1) ≤ t.least ∧ t.least ≤ 0 := by
    unfold IntType.least
    split <;> omega
  cases hss : s.signed with
  | true =>
    -- the two are less than a modulus apart
    rw [IntType.least_signed hss] at hleast hlimit
    have hzero := Int.eq_zero_of_abs_lt_dvd hdvd (abs_lt.mpr ⟨by omega, by omega⟩)
    omega
  | false =>
    rw [IntType.least_unsigned hss] at hleast hlimit
    have hdvd' : s.modulus ∣ t.wrap v - v + s.modulus := Int.dvd_add hdvd (Int.dvd_refl _)
    have hone : t.wrap v - v + s.modulus = 0 := by
      by_cases hlt : t.wrap v < v
      · exact Int.eq_zero_of_abs_lt_dvd hdvd' (abs_lt.mpr ⟨by omega, by omega⟩)
      · have hzero := Int.eq_zero_of_abs_lt_dvd hdvd (abs_lt.mpr ⟨by omega, by omega⟩)
        omega
    have hts : t.signed = true := by
      by_contra hts
      rw [IntType.least_unsigned (Bool.not_eq_true _ ▸ hts)] at hTleast
      omega
    refine .inr ⟨hss, hts, Nat.le_of_lt hw, ?_⟩
    show s.modulus - 2 ^ (t.width - 1) ≤ v
    omega

theorem represents_zero (t : IntType) : t.Represents 0 := by
  have hpos := t.modulus_pos
  have hm := t.modulus_eq
  unfold IntType.Represents IntType.least
  split <;> omega

/-- Every value of `bool` comes back. -/
theorem convert_of_bool (t : IntType) (hv : v = 0 ∨ v = 1) :
    Integral.bool.convert (t.wrap v) = v := by
  have hmod := t.modulus_dvd_wrap v
  rcases hv with rfl | rfl
  · rw [IntType.wrap_of_represents (represents_zero t)]
    rfl
  · refine if_neg fun he => ?_
    rw [he] at hmod
    have heven : (2 : Int) ∣ t.modulus := ⟨_, t.modulus_eq⟩
    have := Int.dvd_trans heven hmod
    omega

/-- One is a value of every type but the signed one of a single bit. -/
theorem represents_one (t : IntType) : t.Represents 1 ∨ (t.signed = true ∧ t.width = 1) := by
  have hm := t.modulus_eq
  have hpos := t.modulus_pos
  cases hs : t.signed with
  | true =>
    by_cases hw : t.width = 1
    · exact .inr ⟨rfl, hw⟩
    · have hhalf : (2 : Int) ^ 1 ≤ 2 ^ (t.width - 1) :=
        pow_le_pow_right₀ (by decide) (by have := t.pos; omega)
      refine .inl ?_
      unfold IntType.Represents
      rw [IntType.least_signed hs]
      omega
  | false =>
    refine .inl ?_
    unfold IntType.Represents
    rw [IntType.least_unsigned hs]
    omega

/-- What comes back: the wider type has the residues of the other one, or a large value is one
modulus above a negative one. -/
theorem wrap_wrap_of_comesBack (hv : s.Represents v) (h : ComesBack (.int s) (.int t) v) :
    s.wrap (t.wrap v) = v := by
  refine (IntType.wrap_eq_iff hv).mpr ?_
  rcases h with ⟨_, _, hw, _⟩ | ⟨hs, ht, hw, hlarge⟩
  · exact Int.dvd_trans (IntType.modulus_dvd hw) (t.modulus_dvd_wrap v)
  · have hbelow : t.Represents (v - s.modulus) := by
      have hlimit := hv.2
      have hmt := t.modulus_eq
      have hpos := t.modulus_pos
      have hlarge' : s.modulus - 2 ^ (t.width - 1) ≤ v := hlarge
      rw [IntType.least_unsigned (t := s) hs] at hlimit
      unfold IntType.Represents
      rw [IntType.least_signed (t := t) ht]
      omega
    have hwrap : t.wrap v = v - s.modulus := by
      refine (IntType.wrap_eq_iff hbelow).mpr ?_
      rw [Int.sub_sub_self]
      exact IntType.modulus_dvd hw
    rw [hwrap, Int.sub_sub, Int.add_comm, ← Int.sub_sub, Int.sub_self, Int.zero_sub]
    exact Int.dvd_neg.mpr (Int.dvd_refl _)

/-- Into `bool` and back only 0 and 1 stay what they are, and the -1 of a single bit. -/
theorem convert_bool_iff (hv : From.type.Represents v) :
    From.convert (Integral.bool.convert v) = v ↔ Integral.bool.type.Represents v ∨
    ComesBack From .bool v := by
  rw [represents_bool]
  cases From with
  | bool =>
    have h := represents_bool.mp hv
    refine iff_of_true ?_ (.inl h)
    rcases h with rfl | rfl <;> rfl
  | int s =>
    by_cases h : v = 0 ∨ v = 1
    · refine iff_of_true ?_ (.inl h)
      rcases h with rfl | rfl
      · exact IntType.wrap_of_represents hv
      · exact IntType.wrap_of_represents hv
    · have hone : Integral.bool.convert v = 1 := if_neg fun he => h (.inl he)
      rw [hone]
      rcases represents_one s with h1 | ⟨hs, hw⟩
      · rw [Integral.convert, IntType.wrap_of_represents h1]
        refine iff_of_false (fun he => h (.inr he.symm)) ?_
        rintro (h' | ⟨hs, _, hw, hneg⟩ | ⟨_, hb, _⟩)
        · exact h h'
        · -- a signed type that holds 1 has two bits
          have hw1 : s.width = 1 := Nat.le_antisymm hw s.pos
          obtain ⟨_, hlt⟩ := h1
          rw [IntType.least_signed (t := s) hs, IntType.modulus_eq, hw1] at hlt
          omega
        · exact Bool.false_ne_true hb
      · obtain ⟨hleast, hlimit⟩ := hv
        have hm1 : v = -1 := by
          simp only [Integral.type] at hleast hlimit
          rw [IntType.least_signed hs, hw] at hleast
          rw [IntType.least_signed hs, IntType.modulus_eq, hw] at hlimit
          omega
        refine iff_of_true ?_ (.inr (.inl ⟨hs, rfl, Nat.le_of_eq hw, by omega⟩))
        refine (IntType.wrap_eq_iff ⟨hleast, hlimit⟩).mpr ?_
        show (2 : Int) ^ s.width ∣ 1 - v
        rw [hm1, hw]
        decide

/-- Exactly these values are the same after both conversions. -/
theorem convert_convert_iff (To : Integral) (hv : From.type.Represents v) :
    From.convert (To.convert v) = v ↔ To.type.Represents v ∨ ComesBack From To v := by
  cases To with
  | bool => exact convert_bool_iff hv
  | int t =>
    cases From with
    | bool =>
      have h := represents_bool.mp hv
      refine iff_of_true (convert_of_bool t h) ?_
      rcases represents_one t with h1 | ⟨ht, hw⟩
      · refine .inl ?_
        rcases h with rfl | rfl
        · exact represents_zero t
        · exact h1
      · rcases h with rfl | rfl
        · exact .inl (represents_zero t)
        · refine .inr (.inr ⟨rfl, ht, Nat.le_of_eq hw, ?_⟩)
          show (2 : Int) ^ 1 - 2 ^ (t.width - 1) ≤ 1
          rw [hw]
          decide
    | int s =>
      constructor
      · intro hback
        by_contra hno
        rw [not_or] at hno
        by_cases hw : s.width ≤ t.width
        · exact hno.2 (comesBack_of_le hv hw hno.1)
        · exact hno.2 (comesBack_of_lt hv (Nat.not_le.mp hw) hno.1 hback)
      · rintro (h | h)
        · have hkeep : t.wrap v = v := IntType.wrap_of_represents h
          show s.wrap (t.wrap v) = v
          rw [hkeep]
          exact IntType.wrap_of_represents hv
        · exact wrap_wrap_of_comesBack hv h

end

/-- What cannot be represented is reported, and everything else keeps its value. -/
structure Exact (From To : Integral) (F : From.Value) : Prop where
  throws : narrow To F = .error .badNarrowCast ↔ ¬ To.type.Represents F.val
  returns : ∀ T, narrow To F = .ok T → T.val = F.val
  asserts : narrowCast To F = .error .assertion ↔ ¬ To.type.Represents F.val
  casts : ∀ T, narrowCast To F = .ok T → T.val = F.val

/-- The conversion to the target and back shows a loss in all but these cases. -/
theorem narrow_exact_iff (From To : Integral) (F : From.Value) :
    Exact From To F ↔ ¬ ComesBack From To F.val := by
  have hiff := convert_convert_iff To F.property
  have hnarrow : narrow To F = if From.convert (To.convert F.val) ≠ F.val then .error .badNarrowCast
    else .ok (cast To F) := rfl
  have hcast : narrowCast To F = if From.convert (To.convert F.val) = F.val then .ok (cast To F)
    else .error .assertion := rfl
  constructor
  · intro h hback
    have hthrow := h.throws.mpr (not_represents_of_comesBack hback)
    rw [hnarrow, if_neg (not_not.mpr (hiff.mpr (.inr hback)))] at hthrow
    cases hthrow
  · intro hno
    by_cases hrep : To.type.Represents F.val
    · have hval : (cast To F).val = F.val := convert_of_represents hrep
      have hsame := hiff.mpr (.inl hrep)
      rw [if_neg (not_not.mpr hsame)] at hnarrow
      rw [if_pos hsame] at hcast
      refine ⟨?_, ?_, ?_, ?_⟩
      · exact iff_of_false (by rw [hnarrow]; nofun) (not_not.mpr hrep)
      · rw [hnarrow]
        rintro T ⟨⟩
        exact hval
      · exact iff_of_false (by rw [hcast]; nofun) (not_not.mpr hrep)
      · rw [hcast]
        rintro T ⟨⟩
        exact hval
    · have hlost : From.convert (To.convert F.val) ≠ F.val := fun he => (hiff.mp he).elim hrep hno
      rw [if_pos hlost] at hnarrow
      rw [if_neg hlost] at hcast
      refine ⟨iff_of_true hnarrow hrep, ?_, iff_of_true hcast hrep, ?_⟩
      · rw [hnarrow]
        nofun
      · rw [hcast]
        nofun

def int32 : Integral := .int ⟨true, 32, by decide⟩

def uint32 : Integral := .int ⟨false, 32, by decide⟩

/-- `narrow<std::uint32_t>(std::int32_t(-1))` is 4294967295. -/
theorem minus_one_narrowed : ¬ Exact int32 uint32 ⟨-1, by decide⟩ ∧
    narrow uint32 (show int32.Value from ⟨-1, by decide⟩) = .ok ⟨4294967295, by decide⟩ := by
  have hrun :
      narrow uint32 (show int32.Value from ⟨-1, by decide⟩) = .ok ⟨4294967295, by decide⟩ := rfl
  refine ⟨fun h => ?_, hrun⟩
  exact absurd (h.returns _ hrun) (by decide)

end Gpcl.NarrowCast
