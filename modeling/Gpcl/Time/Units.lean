import Gpcl.Time.Duration

/-! # Seconds, milliseconds, microseconds and nanoseconds

Three families of conversions, each with one number for a unit: how many units make a second, how
many nanoseconds make a unit. Where the numbers of a unit agree, the conversions do. -/
namespace Gpcl.Time
namespace Duration

/-- A number of units of which a second has `perSec`; `nanosPer` is the factor of the remainder. -/
def fromUnits (perSec nanosPer x : UInt64) : Except Failure Duration :=
  make (x / perSec) (x % perSec * nanosPer).toUInt32

def fromMillis : UInt64 → Except Failure Duration := fromUnits 1000 1000000

def fromMicros : UInt64 → Except Failure Duration := fromUnits 1000000 100

/-- The remainder is taken as it is. -/
def fromNanos : UInt64 → Except Failure Duration := fromUnits 1000000000 1

def asSecs (d : Duration) : Except Failure UInt64 := do
  require (d.nanos < 1000000000)
  return d.secs

def subsec (nanosPer : UInt32) (d : Duration) : Except Failure UInt32 := do
  require (d.nanos < 1000000000)
  return d.nanos / nanosPer

def subsecMillis : Duration → Except Failure UInt32 := subsec 1000

def subsecMicros : Duration → Except Failure UInt32 := subsec 1000000

/-- Not divided. -/
def subsecNanos : Duration → Except Failure UInt32 := subsec 1

def asUnits (perSec : UInt64) (nanosPer : UInt32) (d : Duration) : Except Failure UInt64 := do
  require (d.nanos < 1000000000)
  return d.secs * perSec + (d.nanos / nanosPer).toUInt64

def asMillis : Duration → Except Failure UInt64 := asUnits 1000 1000000

def asMicros : Duration → Except Failure UInt64 := asUnits 1000000 1000

/-- Not divided. -/
def asNanos : Duration → Except Failure UInt64 := asUnits 1000000000 1

section
variable {perSec factor : UInt64} {nanosPer : UInt32} {d : Duration}

theorem asSecs_eq (d : Duration) : asSecs d = .ok d.secs := by
  unfold asSecs
  rw [require_nanos]
  rfl

theorem subsec_eq (nanosPer : UInt32) (d : Duration) :
    subsec nanosPer d = .ok (d.nanos / nanosPer) := by
  unfold subsec
  rw [require_nanos]
  rfl

theorem asUnits_eq (perSec : UInt64) (nanosPer : UInt32) (d : Duration) :
    asUnits perSec nanosPer d = .ok (d.secs * perSec + (d.nanos / nanosPer).toUInt64) := by
  unfold asUnits
  rw [require_nanos]
  rfl

theorem factors_pos (h : perSec.toNat * nanosPer.toNat = 1000000000) :
    0 < perSec.toNat ∧ 0 < nanosPer.toNat := by
  have hpos : 0 < perSec.toNat * nanosPer.toNat := by omega
  exact ⟨Nat.pos_of_mul_pos_right hpos, Nat.pos_of_mul_pos_left hpos⟩

/-- The length in units, rounded down. -/
theorem total_div (h : perSec.toNat * nanosPer.toNat = 1000000000) (d : Duration) :
    d.total / nanosPer.toNat = d.secs.toNat * perSec.toNat + d.nanos.toNat / nanosPer.toNat := by
  obtain ⟨_, hpos⟩ := factors_pos h
  have hcomm : d.total = nanosPer.toNat * (d.secs.toNat * perSec.toNat) + d.nanos.toNat := by
    rw [total, ← h, Nat.mul_comm nanosPer.toNat, Nat.mul_assoc]
  rw [hcomm, Nat.mul_add_div hpos]

/-- A length that fits is computed as it is. -/
theorem asUnits_toNat (h : perSec.toNat * nanosPer.toNat = 1000000000)
    (hfit : d.total / nanosPer.toNat < 2 ^ 64) :
    (d.secs * perSec + (d.nanos / nanosPer).toUInt64).toNat = d.total / nanosPer.toNat := by
  rw [total_div h] at hfit ⊢
  rw [UInt64.toNat_add, UInt64.toNat_mul, UInt32.toNat_toUInt64, UInt32.toNat_div, Nat.mod_add_mod]
  exact Nat.mod_eq_of_lt hfit

/-- There and back the remainder is multiplied by one number and divided by the other. -/
theorem asUnits_fromUnits (factor : UInt64) (h : perSec.toNat * nanosPer.toNat = 1000000000)
    (hle : factor.toNat ≤ nanosPer.toNat) (x : UInt64) :
    ∃ y, (do asUnits perSec nanosPer (← fromUnits perSec factor x)) = .ok y ∧
      y.toNat = x.toNat / perSec.toNat * perSec.toNat + x.toNat % perSec.toNat *
        factor.toNat / nanosPer.toNat := by
  obtain ⟨hper, hpos⟩ := factors_pos h
  have hrest : x.toNat % perSec.toNat * factor.toNat ≤ x.toNat % perSec.toNat * nanosPer.toNat :=
    Nat.mul_le_mul_left _ hle
  have hlt : x.toNat % perSec.toNat * nanosPer.toNat < 1000000000 := by
    rw [← h]
    exact Nat.mul_lt_mul_of_pos_right (Nat.mod_lt _ hper) hpos
  have hnanos : (x % perSec * factor).toUInt32.toNat = x.toNat % perSec.toNat * factor.toNat := by
    rw [UInt64.toNat_toUInt32, UInt64.toNat_mul, UInt64.toNat_mod]
    omega
  have hle' : (x % perSec * factor).toUInt32 ≤ 999999999 := by
    have hlimit : (999999999 : UInt32).toNat = 999999999 := rfl
    rw [UInt32.le_iff_toNat_le, hnanos]
    omega
  have hd : fromUnits perSec factor x = .ok ⟨x / perSec, (x % perSec * factor).toUInt32, _⟩ :=
    make_eq (by omega)
  have hdiv := total_div h ⟨x / perSec, (x % perSec * factor).toUInt32, hle'⟩
  dsimp only at hdiv
  rw [hnanos, UInt64.toNat_div] at hdiv
  refine ⟨_, ?_, (asUnits_toNat h ?_).trans hdiv⟩
  · rw [hd]
    exact asUnits_eq _ _ _
  · rw [hdiv]
    have hback := Nat.div_add_mod' x.toNat perSec.toNat
    have hquot : x.toNat % perSec.toNat * factor.toNat / nanosPer.toNat ≤ x.toNat % perSec.toNat :=
      Nat.div_le_of_le_mul (by rw [Nat.mul_comm nanosPer.toNat]; exact hrest)
    have hx := x.toNat_lt
    omega

/-- The unit whose factor is its number of nanoseconds comes back. -/
theorem asUnits_fromUnits_self (h : perSec.toNat * nanosPer.toNat = 1000000000)
    (hf : factor.toNat = nanosPer.toNat) (x : UInt64) :
    (do asUnits perSec nanosPer (← fromUnits perSec factor x)) = .ok x := by
  obtain ⟨y, hy, hval⟩ := asUnits_fromUnits factor h (Nat.le_of_eq hf) x
  obtain ⟨_, hpos⟩ := factors_pos h
  rw [hf, Nat.mul_div_cancel _ hpos, Nat.div_add_mod'] at hval
  rw [hy, UInt64.toNat_inj.mp hval]

/-- The length in units is that of the whole seconds and the part of a second. -/
def Splits (as : Duration → Except Failure UInt64) (subsec : Duration → Except Failure UInt32)
    (perSec unit : Nat) (d : Duration) : Prop :=
  d.total / unit < 2 ^ 64 → ∃ t s r, as d = .ok t ∧ asSecs d = .ok s ∧ subsec d = .ok r ∧
    t.toNat = perSec * s.toNat + r.toNat

/-- A part of a second that is divided by another number may be another part. -/
theorem splits_iff (h : perSec.toNat * nanosPer.toNat = 1000000000) (part : UInt32) (d : Duration) :
    Splits (asUnits perSec nanosPer) (subsec part) perSec.toNat nanosPer.toNat d ↔
      (d.total / nanosPer.toNat < 2 ^ 64 →
        d.nanos.toNat / nanosPer.toNat = d.nanos.toNat / part.toNat) := by
  refine forall_congr' fun hfit => ?_
  have ht := asUnits_toNat h hfit
  rw [total_div h, Nat.mul_comm] at ht
  constructor
  · rintro ⟨t, s, r, has, hs, hr, hsum⟩
    obtain rfl := Except.ok.inj ((asUnits_eq _ _ _).symm.trans has)
    obtain rfl := Except.ok.inj ((asSecs_eq d).symm.trans hs)
    obtain rfl := Except.ok.inj ((subsec_eq _ _).symm.trans hr)
    rw [ht, UInt32.toNat_div] at hsum
    exact Nat.add_left_cancel hsum
  · intro he
    refine ⟨_, _, _, asUnits_eq _ _ _, asSecs_eq d, subsec_eq _ _, ?_⟩
    rw [ht, UInt32.toNat_div, he]

end

/-- What is converted to a duration comes back. -/
structure RoundTrips (x : UInt64) : Prop where
  millis : (do asMillis (← fromMillis x)) = .ok x
  micros : (do asMicros (← fromMicros x)) = .ok x
  nanos : (do asNanos (← fromNanos x)) = .ok x

/-- In every unit in which the length fits it is the whole seconds and the part of a second. -/
structure SplitsInAll (d : Duration) : Prop where
  millis : Splits asMillis subsecMillis 1000 1000000 d
  micros : Splits asMicros subsecMicros 1000000 1000 d
  nanos : Splits asNanos subsecNanos 1000000000 1 d

theorem roundTrips_iff (x : UInt64) : RoundTrips x ↔ x.toNat % 1000000 = 0 := by
  have hsecond : (1000000 : UInt64).toNat * (1000 : UInt32).toNat = 1000000000 := rfl
  obtain ⟨y, hy, hval⟩ := asUnits_fromUnits 100 hsecond (by decide) x
  have hvalue : y.toNat = x.toNat / 1000000 * 1000000 + x.toNat % 1000000 * 100 / 1000 := hval
  constructor
  · intro h
    obtain rfl := Except.ok.inj (hy.symm.trans h.micros)
    omega
  · intro h
    refine ⟨asUnits_fromUnits_self (by decide) (by decide) x, ?_,
      asUnits_fromUnits_self (by decide) (by decide) x⟩
    rw [show y = x from UInt64.toNat_inj.mp (by omega)] at hy
    exact hy

theorem splitsInAll_iff (d : Duration) :
    SplitsInAll d ↔ (d.total / 1000000 < 2 ^ 64 → d.nanos.toNat < 1000) := by
  have hmillis :=
    splits_iff (show (1000 : UInt64).toNat * (1000000 : UInt32).toNat = 1000000000 from rfl) 1000 d
  have hmicros :=
    splits_iff (show (1000000 : UInt64).toNat * (1000 : UInt32).toNat = 1000000000
      from rfl) 1000000 d
  have hnanos :=
    splits_iff (show (1000000000 : UInt64).toNat * (1 : UInt32).toNat = 1000000000 from rfl) 1 d
  have hn := d.nanos_lt
  constructor
  · intro h hfit
    have he := hmillis.mp h.millis hfit
    simp only [UInt32.reduceToNat] at he
    omega
  · intro h
    refine ⟨hmillis.mpr fun hfit => ?_, hmicros.mpr fun hfit => ?_, hnanos.mpr fun _ => rfl⟩
    · have hlt := h hfit
      simp only [UInt32.reduceToNat]
      omega
    · have hlt := h (by simp only [UInt32.reduceToNat] at hfit; omega)
      simp only [UInt32.reduceToNat]
      omega

/-- Microseconds are made with a factor of 100, and `subsec_millis` and `subsec_micros` divide by
each other's numbers. -/
theorem conversions_consistent_iff (x : UInt64) (d : Duration) :
    (RoundTrips x ↔ x.toNat % 1000000 = 0) ∧
    (SplitsInAll d ↔ (d.total / 1000000 < 2 ^ 64 → d.nanos.toNat < 1000)) :=
  ⟨roundTrips_iff x, splitsInAll_iff d⟩

/-- A microsecond becomes 100 nanoseconds, and the part of a second in 1 ms is said to be 1000
ms. -/
theorem micros_and_millis_inconsistent :
    ¬ RoundTrips 1 ∧ ¬ SplitsInAll ⟨0, 1000000, by decide⟩ := by
  refine ⟨fun h => ?_, fun h => ?_⟩
  · have hrun : (do asMicros (← fromMicros 1)) = .ok 0 := by decide +kernel
    exact absurd (Except.ok.inj (hrun.symm.trans h.micros)) (by decide)
  · obtain ⟨t, s, r, ht, hs, hr, hsum⟩ := h.millis (by decide)
    obtain rfl := Except.ok.inj
      ((show asMillis ⟨0, 1000000, _⟩ = .ok 1 by decide +kernel).symm.trans ht)
    obtain rfl := Except.ok.inj ((asSecs_eq _).symm.trans hs)
    obtain rfl := Except.ok.inj
      ((show subsecMillis ⟨0, 1000000, _⟩ = .ok 1000 by decide +kernel).symm.trans hr)
    exact absurd hsum (by decide)

end Duration

end Gpcl.Time
