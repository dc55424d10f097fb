import Mathlib.Algebra.Order.Ring.Int
import Mathlib.Tactic.Common

/-! # duration

A `duration` is a number of seconds, 64 bits wide, and a number of nanoseconds, 32 bits wide. Its
constructor asserts that the nanoseconds are less than a second, so they are in every object; the
arithmetic in between wraps around. `total` is the length in nanoseconds, a natural number, and what
the operations are for is said with it. -/
namespace Gpcl.Time

inductive Failure
  | assertion
  | overflowError
deriving DecidableEq, Repr

@[ext] structure Duration where
  secs : UInt64
  nanos : UInt32
  nanos_le : nanos ≤ 999999999
deriving DecidableEq, Repr

/-- `GPCL_ASSERT`. -/
def require (p : Prop) [Decidable p] : Except Failure Unit :=
  if p then .ok () else .error .assertion

/-- `duration(secs, nanos)`. -/
def make (secs : UInt64) (nanos : UInt32) : Except Failure Duration :=
  if h : nanos ≤ 999999999 then .ok ⟨secs, nanos, h⟩ else .error .assertion

namespace Duration

def zero : Duration := ⟨0, 0, by decide⟩

def max : Duration := ⟨18446744073709551615, 999999999, by decide⟩

/-! ## The operators -/

def eq (lhs rhs : Duration) : Bool := lhs.secs == rhs.secs && lhs.nanos == rhs.nanos

def ne (lhs rhs : Duration) : Bool := lhs.secs != rhs.secs || lhs.nanos != rhs.nanos

def lt (lhs rhs : Duration) : Bool :=
  lhs.secs < rhs.secs || (lhs.secs == rhs.secs && lhs.nanos < rhs.nanos)

def le (lhs rhs : Duration) : Bool := lt lhs rhs || eq lhs rhs

def gt (lhs rhs : Duration) : Bool := lt rhs lhs && ne lhs rhs

def ge (lhs rhs : Duration) : Bool := lt rhs lhs || eq lhs rhs

def checkedAdd (self rhs : Duration) : Except Failure Duration := do
  require (self.nanos < 1000000000)
  require (rhs.nanos < 1000000000)
  let secs := self.secs + rhs.secs
  let nanos := self.nanos + rhs.nanos
  let secs := secs + (nanos / 1000000000).toUInt64
  let nanos := nanos % 1000000000
  if secs < self.secs ∨ secs < rhs.secs then throw .overflowError
  make secs nanos

def saturatingAdd (self rhs : Duration) : Except Failure Duration :=
  let nanos := self.nanos + rhs.nanos
  let carry := (nanos / 1000000000).toUInt64
  let nanos := nanos % 1000000000
  let secs := carry + self.secs + rhs.secs
  if secs < self.secs ∨ secs < rhs.secs then .ok max else make secs nanos

/-- The difference, which `checked_sub` and `saturating_sub` compute once they know that it is none
below zero. -/
def minus (self rhs : Duration) : Except Failure Duration :=
  if self.nanos < rhs.nanos
    then make (self.secs - rhs.secs - 1) (1000000000 + self.nanos - rhs.nanos)
  else make (self.secs - rhs.secs) (self.nanos - rhs.nanos)

def checkedSub (self rhs : Duration) : Except Failure Duration := do
  if lt self rhs then throw .overflowError
  minus self rhs

def saturatingSub (self rhs : Duration) : Except Failure Duration :=
  if lt self rhs then .ok zero else minus self rhs

/-! ## Totals -/

/-- The length in nanoseconds. -/
def total (d : Duration) : Nat := d.secs.toNat * 1000000000 + d.nanos.toNat

variable {a b : Duration} {secs : UInt64} {nanos : UInt32}

theorem nanos_lt (d : Duration) : d.nanos.toNat < 1000000000 :=
  Nat.lt_succ_of_le (UInt32.le_iff_toNat_le.mp d.nanos_le)

theorem require_nanos (d : Duration) : require (d.nanos < 1000000000) = .ok () :=
  if_pos (UInt32.lt_iff_toNat_lt.mpr d.nanos_lt)

theorem total_max : max.total = 18446744073709551615 * 1000000000 + 999999999 := rfl

/-- A length has one representation. -/
theorem total_injective (h : a.total = b.total) : a = b := by
  have ha := a.nanos_lt
  have hb := b.nanos_lt
  unfold total at h
  have hs : a.secs.toNat = b.secs.toNat := by omega
  have hn : a.nanos.toNat = b.nanos.toNat := by omega
  exact Duration.ext (UInt64.toNat_inj.mp hs) (UInt32.toNat_inj.mp hn)

theorem make_eq (h : nanos.toNat < 1000000000) :
    make secs nanos = .ok ⟨secs, nanos, UInt32.le_iff_toNat_le.mpr (Nat.le_of_lt_succ h)⟩ :=
  dif_pos _

theorem make_spec (secs : UInt64) (h : nanos.toNat < 1000000000) :
    ∃ d, make secs nanos = .ok d ∧ d.total = secs.toNat * 1000000000 + nanos.toNat :=
  ⟨_, make_eq h, rfl⟩

/-! ## The order -/

theorem eq_iff_total : eq a b = true ↔ a.total = b.total := by
  rw [eq, Bool.and_eq_true_iff, beq_iff_eq, beq_iff_eq]
  constructor
  · rintro ⟨hs, hn⟩
    rw [total, total, hs, hn]
  · intro h
    rw [total_injective h]
    exact ⟨rfl, rfl⟩

theorem ne_eq_not : ne a b = !eq a b := by
  rw [ne, eq, Bool.not_and]
  rfl

theorem lt_iff_total : lt a b = true ↔ a.total < b.total := by
  have ha := a.nanos_lt
  have hb := b.nanos_lt
  simp only [lt, Bool.or_eq_true, Bool.and_eq_true, decide_eq_true_eq, beq_iff_eq,
    ← UInt64.toNat_inj, UInt64.lt_iff_toNat_lt, UInt32.lt_iff_toNat_lt, total]
  omega

theorem le_iff_total : le a b = true ↔ a.total ≤ b.total := by
  rw [le, Bool.or_eq_true_iff, lt_iff_total, eq_iff_total, Nat.le_iff_lt_or_eq]

theorem gt_iff_total : gt a b = true ↔ b.total < a.total := by
  rw [gt, Bool.and_eq_true_iff, lt_iff_total, ne_eq_not, Bool.not_eq_true', ← Bool.not_eq_true,
    eq_iff_total]
  omega

theorem ge_iff_total : ge a b = true ↔ b.total ≤ a.total := by
  rw [ge, Bool.or_eq_true_iff, lt_iff_total, eq_iff_total]
  omega

/-! ## Sums -/

/-- The seconds of the sum, the carry included, may wrap around. -/
def sumSecs (a b : Duration) : UInt64 :=
  a.secs + b.secs + ((a.nanos + b.nanos) / 1000000000).toUInt64

def sumNanos (a b : Duration) : UInt32 := (a.nanos + b.nanos) % 1000000000

/-- Both seconds are the largest ones and the nanoseconds carry: the seconds of the sum are the
largest ones again. -/
def CarryWraps (a b : Duration) : Prop :=
  a.secs = max.secs ∧ b.secs = max.secs ∧ 1000000000 ≤ a.nanos.toNat + b.nanos.toNat

theorem sumNanos_toNat : (sumNanos a b).toNat = (a.nanos.toNat + b.nanos.toNat) % 1000000000 := by
  have ha := a.nanos_lt
  have hb := b.nanos_lt
  simp only [sumNanos, UInt32.toNat_mod, UInt32.toNat_add, UInt32.reduceToNat]
  omega

theorem sumSecs_toNat : (sumSecs a b).toNat =
    (a.secs.toNat + b.secs.toNat + (a.nanos.toNat + b.nanos.toNat) / 1000000000) % 2 ^ 64 := by
  have ha := a.nanos_lt
  have hb := b.nanos_lt
  simp only [sumSecs, UInt64.toNat_add, UInt32.toNat_toUInt64, UInt32.toNat_div, UInt32.toNat_add,
    UInt32.reduceToNat]
  omega

theorem sumNanos_lt : (sumNanos a b).toNat < 1000000000 := by
  rw [sumNanos_toNat]
  exact Nat.mod_lt _ (by decide)

theorem carryWraps_iff :
    CarryWraps a b ↔ a.secs.toNat = 18446744073709551615 ∧ b.secs.toNat = 18446744073709551615 ∧
    1000000000 ≤ a.nanos.toNat + b.nanos.toNat := by
  rw [CarryWraps, ← UInt64.toNat_inj, ← UInt64.toNat_inj]
  rfl

/-- What the comparison with the operands finds. -/
theorem sumSecs_lt_iff :
    (sumSecs a b < a.secs ∨ sumSecs a b < b.secs) ↔ max.total < a.total + b.total ∧
    ¬ CarryWraps a b := by
  have ha := a.nanos_lt
  have hb := b.nanos_lt
  have has := a.secs.toNat_lt
  have hbs := b.secs.toNat_lt
  rw [UInt64.lt_iff_toNat_lt, UInt64.lt_iff_toNat_lt, sumSecs_toNat, carryWraps_iff, total_max,
    total, total]
  omega

theorem checkedAdd_eq : checkedAdd a b =
    if sumSecs a b < a.secs ∨ sumSecs a b < b.secs then .error .overflowError
    else make (sumSecs a b) (sumNanos a b) := by
  unfold checkedAdd
  rw [require_nanos, require_nanos]
  by_cases hlt : sumSecs a b < a.secs ∨ sumSecs a b < b.secs
  · rw [if_pos hlt]
    exact if_pos hlt
  · rw [if_neg hlt]
    exact if_neg hlt

theorem saturatingAdd_eq : saturatingAdd a b =
    if sumSecs a b < a.secs ∨ sumSecs a b < b.secs then .ok max
    else make (sumSecs a b) (sumNanos a b) := by
  have hsecs : ((a.nanos + b.nanos) / 1000000000).toUInt64 + a.secs + b.secs = sumSecs a b := by
    rw [sumSecs, UInt64.add_assoc, UInt64.add_comm]
  unfold saturatingAdd
  dsimp only
  rw [hsecs]
  rfl

/-- A sum that is in range is the one that both return. -/
theorem add_spec (h : a.total + b.total ≤ max.total) :
    ∃ d, checkedAdd a b = .ok d ∧ saturatingAdd a b = .ok d ∧ d.total = a.total + b.total := by
  have hno : ¬ (sumSecs a b < a.secs ∨ sumSecs a b < b.secs) := fun hlt =>
    Nat.not_lt.mpr h (sumSecs_lt_iff.mp hlt).1
  obtain ⟨d, hd, htotal⟩ := make_spec (sumSecs a b) (sumNanos_lt (a := a) (b := b))
  refine ⟨d, ?_, ?_, ?_⟩
  · rw [checkedAdd_eq, if_neg hno, hd]
  · rw [saturatingAdd_eq, if_neg hno, hd]
  · have ha := a.nanos_lt
    have hb := b.nanos_lt
    rw [total_max, total, total] at h
    rw [htotal, sumSecs_toNat, sumNanos_toNat, total, total]
    omega

/-- The sum is the exact one, or it is too long and reported. -/
structure AddsExactly (a b : Duration) : Prop where
  throws : checkedAdd a b = .error .overflowError ↔ max.total < a.total + b.total
  returns : a.total + b.total ≤ max.total →
    ∃ d, checkedAdd a b = .ok d ∧ saturatingAdd a b = .ok d ∧ d.total = a.total + b.total
  saturates : max.total < a.total + b.total → saturatingAdd a b = .ok max

/-- Of two durations that both have the largest number of seconds, a carry is lost. -/
theorem adds_exactly_iff (a b : Duration) : AddsExactly a b ↔ ¬ CarryWraps a b := by
  constructor
  · intro h hw
    have hno : ¬ (sumSecs a b < a.secs ∨ sumSecs a b < b.secs) :=
      fun hlt => (sumSecs_lt_iff.mp hlt).2 hw
    obtain ⟨d, hd, _⟩ := make_spec (sumSecs a b) (sumNanos_lt (a := a) (b := b))
    have hover : max.total < a.total + b.total := by
      obtain ⟨ha, hb, hn⟩ := carryWraps_iff.mp hw
      rw [total_max, total, total]
      omega
    have hthrow := h.throws.mpr hover
    rw [checkedAdd_eq, if_neg hno, hd] at hthrow
    cases hthrow
  · intro hw
    refine ⟨⟨fun ht => ?_, fun hover => ?_⟩, add_spec, fun hover => ?_⟩
    · by_contra hle
      obtain ⟨d, hd, _⟩ := add_spec (Nat.not_lt.mp hle)
      rw [hd] at ht
      cases ht
    · rw [checkedAdd_eq, if_pos (sumSecs_lt_iff.mpr ⟨hover, hw⟩)]
    · rw [saturatingAdd_eq, if_pos (sumSecs_lt_iff.mpr ⟨hover, hw⟩)]

/-- `max + max` is not reported: it is a nanosecond shorter than `max`. -/
theorem max_plus_max : ¬ AddsExactly max max ∧
    ∃ d, checkedAdd max max = .ok d ∧ saturatingAdd max max = .ok d ∧ d.total + 1 = max.total := by
  have hrun : checkedAdd max max = .ok ⟨18446744073709551615, 999999998, by decide⟩ := by
    decide +kernel
  have hsat : saturatingAdd max max = .ok ⟨18446744073709551615, 999999998, by decide⟩ := by
    decide +kernel
  refine ⟨fun h => ?_, _, hrun, hsat, rfl⟩
  have hthrow := h.throws.mpr (by rw [total_max]; decide)
  rw [hrun] at hthrow
  cases hthrow

/-! ## Differences -/

theorem minus_spec (h : b.total ≤ a.total) :
    ∃ d, minus a b = .ok d ∧ d.total = a.total - b.total := by
  have ha := a.nanos_lt
  have hb := b.nanos_lt
  have has := a.secs.toNat_lt
  have hbs := b.secs.toNat_lt
  unfold minus
  split
  · next hlt =>
    -- a second is borrowed, and there is one
    rw [UInt32.lt_iff_toNat_lt] at hlt
    have hnanos :
        (1000000000 + a.nanos - b.nanos).toNat = 1000000000 + a.nanos.toNat - b.nanos.toNat := by
      simp only [UInt32.toNat_sub, UInt32.toNat_add, UInt32.reduceToNat]
      omega
    have hsecs : (a.secs - b.secs - 1).toNat = a.secs.toNat - b.secs.toNat - 1 ∧
        b.secs.toNat < a.secs.toNat := by
      unfold total at h
      simp only [UInt64.toNat_sub, UInt64.reduceToNat]
      omega
    obtain ⟨d, hd, htotal⟩ :=
      make_spec (a.secs - b.secs - 1)
        (show (1000000000 + a.nanos - b.nanos).toNat < 1000000000 by omega)
    refine ⟨d, hd, ?_⟩
    rw [htotal, hnanos, hsecs.1]
    unfold total
    omega
  · next hge =>
    rw [UInt32.lt_iff_toNat_lt] at hge
    have hnanos : (a.nanos - b.nanos).toNat = a.nanos.toNat - b.nanos.toNat := by
      simp only [UInt32.toNat_sub]
      omega
    have hsecs : (a.secs - b.secs).toNat = a.secs.toNat - b.secs.toNat ∧
        b.secs.toNat ≤ a.secs.toNat := by
      unfold total at h
      simp only [UInt64.toNat_sub]
      omega
    obtain ⟨d, hd, htotal⟩ :=
      make_spec (a.secs - b.secs) (show (a.nanos - b.nanos).toNat < 1000000000 by omega)
    refine ⟨d, hd, ?_⟩
    rw [htotal, hnanos, hsecs.1]
    unfold total
    omega

theorem checkedSub_eq : checkedSub a b = if lt a b then .error .overflowError else minus a b := by
  unfold checkedSub
  show (if _ then _ else _) = _
  split <;> rfl

theorem sub_spec (h : b.total ≤ a.total) :
    ∃ d, checkedSub a b = .ok d ∧ saturatingSub a b = .ok d ∧ d.total = a.total - b.total := by
  have hno : ¬ lt a b = true := fun hlt => Nat.not_lt.mpr h (lt_iff_total.mp hlt)
  obtain ⟨d, hd, htotal⟩ := minus_spec h
  refine ⟨d, ?_, ?_, htotal⟩
  · rw [checkedSub_eq, if_neg hno, hd]
  · rw [saturatingSub, if_neg hno, hd]

/-- The difference is the exact one, or it is below zero and reported. -/
structure SubtractsExactly (a b : Duration) : Prop where
  throws : checkedSub a b = .error .overflowError ↔ a.total < b.total
  returns : b.total ≤ a.total → ∃ d, checkedSub a b = .ok d ∧ saturatingSub a b = .ok d ∧
    d.total = a.total - b.total
  saturates : a.total < b.total → saturatingSub a b = .ok zero
  order : (lt a b = true ↔ a.total < b.total) ∧ (le a b = true ↔ a.total ≤ b.total) ∧
    (gt a b = true ↔ b.total < a.total) ∧ (ge a b = true ↔ b.total ≤ a.total) ∧
    (eq a b = true ↔ a.total = b.total) ∧ (ne a b = true ↔ a.total ≠ b.total)
  restores : a.total + b.total ≤ max.total → (do checkedSub (← checkedAdd a b) b) = .ok a

theorem subtracts_exactly (a b : Duration) : SubtractsExactly a b := by
  refine ⟨⟨fun ht => ?_, fun hlt => ?_⟩, sub_spec, fun hlt => ?_, ?_, fun h => ?_⟩
  · by_contra hge
    obtain ⟨d, hd, _⟩ := sub_spec (Nat.not_lt.mp hge)
    rw [hd] at ht
    cases ht
  · rw [checkedSub_eq, if_pos (lt_iff_total.mpr hlt)]
  · rw [saturatingSub, if_pos (lt_iff_total.mpr hlt)]
  · refine ⟨lt_iff_total, le_iff_total, gt_iff_total, ge_iff_total, eq_iff_total, ?_⟩
    rw [ne_eq_not, Bool.not_eq_true', ← Bool.not_eq_true, eq_iff_total]
  · obtain ⟨s, hs, _, hsum⟩ := add_spec h
    obtain ⟨d, hd, _, hdiff⟩ := sub_spec (a := s) (b := b) (by omega)
    rw [hs]
    show checkedSub s b = _
    rw [hd, total_injective (a := d) (b := a) (by omega)]

end Duration

end Gpcl.Time
