import Gpcl.Lib.Memory
import Gpcl.Lib.Runs

/-! # Subspans

A span is a pointer to elements of `sizeof(T)` bytes and their number, which the constructor
compares with a static extent. `subspan` checks a sum of 64 bits. A large count wraps the sum
around, and the end pointer with it; the distance of the two pointers is then negative, and as a
`size_type` the large count again. `none` is a call that an assertion stops. -/
namespace Gpcl.Spans
open Lib.Memory Lib.Runs

def dynamicExtent : Nat := addressSpace - 1

/-- `extent` is `E`, unless that is `dynamic_extent`. -/
structure Span where
  data : Nat
  size : Nat
  extent : Option Nat
  sized : extent = none ∨ extent = some size
deriving DecidableEq

/-- `span(It first, size_type count)`. -/
def construct (extent : Option Nat) (first count : Nat) : Option Span :=
  if h : extent = none ∨ extent = some count then some ⟨first, count, extent, h⟩ else none

/-- The conversion to `span<T>`. -/
def Span.toDynamic (v : Span) : Span := ⟨v.data, v.size, none, .inl rfl⟩

section
variable (s : Nat)

/-- `p + n`, for elements of `s` bytes. -/
def plus (p n : Nat) : Nat := (p + n * s) % addressSpace

/-- `p - n`. -/
def minus (p n : Nat) : Nat := (p + (addressSpace - n * s % addressSpace)) % addressSpace

/-- The bytes between two pointers, as `ptrdiff_t`. -/
def signed (bytes : Nat) : Int := if bytes < 2 ^ 63 then bytes else (bytes : Int) - addressSpace

/-- `last - first`, converted to `size_type`. -/
def distance (first last : Nat) : Nat :=
  ((signed ((last + (addressSpace - first % addressSpace)) % addressSpace)).tdiv s %
    (addressSpace : Int)).toNat

/-- `span(It first, It last)`. -/
def between (extent : Option Nat) (first last : Nat) : Option Span :=
  construct extent first (distance s first last)

def Span.end_ (v : Span) : Nat := plus s v.data v.size

def Span.first (v : Span) (count : Nat) : Option Span := do
  guard (count ≤ v.size)
  return (← construct v.extent v.data count).toDynamic

def Span.last (v : Span) (count : Nat) : Option Span := do
  guard (count ≤ v.size)
  return (← between s v.extent (minus s (v.end_ s) count) (v.end_ s)).toDynamic

def Span.subspan (v : Span) (offset count : Nat) : Option Span := do
  guard (offset ≤ v.size)
  if count = dynamicExtent
    then return (← between s v.extent (plus s v.data offset) (v.end_ s)).toDynamic
  guard ((offset + count) % addressSpace ≤ v.size)
  return (← between s v.extent (plus s v.data offset)
    (plus s (plus s v.data offset) count)).toDynamic

inductive Call
  | first (count : Nat)
  | last (count : Nat)
  -- `count` may be the default argument `dynamic_extent`
  | subspan (offset count : Nat)

def Call.run (v : Span) : Call → Option Span
  | .first count => v.first count
  | .last count => v.last s count
  | .subspan offset count => v.subspan s offset count

/-- The arguments are numbers of 64 bits. -/
def Call.Words : Call → Prop
  | .first count | .last count => count < addressSpace
  | .subspan offset count => offset < addressSpace ∧ count < addressSpace

def Step (v : Span) (c : Call) (w : Span) : Prop := c.Words ∧ c.run s v = some w

/-- The address of an element. -/
def Span.element (v : Span) (i : Nat) : Nat := plus s v.data i

/-- The elements of `w` are elements of `v`. -/
def Inside (w v : Span) : Prop := ∀ i < w.size, ∃ j < v.size, w.element s i = v.element s j

/-- No object is larger than a `ptrdiff_t` can tell. -/
def Fits (v : Span) : Prop := v.size * s < 2 ^ 63

/-- The sum of offset and count is 2^64 or more. -/
def Wraps : Call → Prop
  | .subspan offset count => count ≠ dynamicExtent ∧ addressSpace ≤ offset + count
  | _ => False

/-- `w` is a run of the elements of `v`. -/
def Part (v w : Span) : Prop :=
  ∃ off, w.data % addressSpace = plus s v.data off ∧ off + w.size ≤ v.size

end

section
variable {s : Nat} {u v w : Span} {c : Call}

theorem plus_plus (p a b : Nat) : plus s (plus s p a) b = plus s p (a + b) := by
  unfold plus
  rw [Nat.mod_add_mod, Nat.add_mul, Nat.add_assoc]

theorem minus_plus (p : Nat) {a b : Nat} (h : b ≤ a) :
    minus s (plus s p a) b = plus s p (a - b) := by
  have hmul : a * s = (a - b) * s + b * s := by rw [← Nat.add_mul, Nat.sub_add_cancel h]
  unfold minus plus addressSpace
  rw [hmul]
  omega

/-- A number close to 2^64 is added as a negative one. -/
theorem plus_wrapped (p : Nat) {a k : Nat} (hka : k ≤ a) (hk : k ≤ addressSpace) :
    plus s (plus s p a) (addressSpace - k) = plus s p (a - k) := by
  have hsum : p + (a + (addressSpace - k)) * s = p + (a - k) * s + addressSpace * s := by
    rw [Nat.add_assoc, ← Nat.add_mul]
    congr 2
    omega
  rw [plus_plus, plus, hsum, Nat.add_mul_mod_self_left, plus]

theorem plus_mod (p a : Nat) : plus s (p % addressSpace) a = plus s p a := Nat.mod_add_mod ..

/-- The distance of two places in an array. -/
theorem distance_plus (hs : 0 < s) (p : Nat) {a n : Nat} (h : n * s < 2 ^ 63) :
    distance s (plus s p a) (plus s p (a + n)) = n := by
  have hmul : (a + n) * s = a * s + n * s := Nat.add_mul ..
  have hbytes :
      (plus s p (a + n) + (addressSpace - plus s p a % addressSpace)) % addressSpace = n * s := by
    unfold plus addressSpace
    rw [hmul]
    omega
  have hle : n ≤ n * s := Nat.le_mul_of_pos_right n hs
  unfold distance
  rw [hbytes, signed, if_pos h, Int.natCast_mul, Int.mul_tdiv_cancel _ (by omega)]
  unfold addressSpace
  omega

/-- The distance to a place before, as an unsigned number. -/
theorem distance_before (hs : 0 < s) (p : Nat) {a k : Nat} (hk : 0 < k) (hka : k ≤ a)
    (h : k * s < 2 ^ 63) :
    distance s (plus s p a) (plus s p (a - k)) = addressSpace - k := by
  have hmul : a * s = (a - k) * s + k * s := by rw [← Nat.add_mul, Nat.sub_add_cancel hka]
  have hle : k ≤ k * s := Nat.le_mul_of_pos_right k hs
  have hbytes :
      (plus s p (a - k) + (addressSpace - plus s p a % addressSpace)) % addressSpace =
        addressSpace - k * s := by
    unfold plus addressSpace
    rw [hmul]
    omega
  have hsigned : signed (addressSpace - k * s) = -(k : Int) * s := by
    rw [signed, if_neg (by unfold addressSpace; omega), Int.neg_mul, ← Int.natCast_mul]
    unfold addressSpace
    omega
  unfold distance
  rw [hbytes, hsigned, Int.mul_tdiv_cancel _ (by omega)]
  unfold addressSpace
  omega

/-- Places of one array have different addresses. -/
theorem plus_inj (hs : 0 < s) (p : Nat) {a n : Nat} (h : n * s < 2 ^ 63)
    (he : plus s p (a + n) = plus s p a) : n = 0 := by
  have hn := distance_plus hs p (a := a) h
  rw [he] at hn
  exact hn.symm.trans (distance_plus hs p (a := a) (n := 0) (by omega))

theorem construct_eq {extent : Option Nat} {p n : Nat} (h : construct extent p n = some w) :
    w.data = p ∧ w.size = n := by
  unfold construct at h
  split at h
  · cases h
    exact ⟨rfl, rfl⟩
  · cases h

theorem Part.refl (v : Span) : Part s v v :=
  ⟨0, by rw [plus, Nat.zero_mul, Nat.add_zero], Nat.le_of_eq (Nat.zero_add _)⟩

theorem Part.trans (h : Part s u v) (h' : Part s v w) : Part s u w := by
  obtain ⟨off, hdata, hsize⟩ := h
  obtain ⟨off', hdata', hsize'⟩ := h'
  refine ⟨off + off', ?_, by omega⟩
  rw [hdata', ← plus_mod, hdata, plus_plus]

theorem Part.inside (h : Part s v w) : Inside s w v := by
  obtain ⟨off, hdata, hsize⟩ := h
  refine fun i hi => ⟨off + i, by omega, ?_⟩
  rw [Span.element, Span.element, ← plus_mod, hdata, plus_plus]

theorem Part.fits (h : Part s v w) (hf : Fits s v) : Fits s w := by
  obtain ⟨off, _, hsize⟩ := h
  exact Nat.lt_of_le_of_lt (Nat.mul_le_mul_right s (by omega)) hf

/-- The span between two places of an array. -/
theorem between_part (hs : 0 < s) (hf : Fits s v) {off n : Nat} (hsize : off + n ≤ v.size)
    {extent : Option Nat}
    (h : between s extent (plus s v.data off) (plus s v.data (off + n)) = some u) :
    Part s v u.toDynamic := by
  obtain ⟨hdata, hn⟩ := construct_eq h
  have hle : n * s < 2 ^ 63 := Nat.lt_of_le_of_lt (Nat.mul_le_mul_right s (by omega)) hf
  rw [distance_plus hs _ hle] at hn
  refine ⟨off, ?_, ?_⟩
  · show u.data % addressSpace = _
    rw [hdata, plus, Nat.mod_mod]
  · show off + u.size ≤ v.size
    rw [hn]
    exact hsize

/-- A call behind an assertion. -/
theorem guard_eq_some {p : Prop} [Decidable p] {x : Option Span}
    (h : (guard p >>= fun _ => x) = some w) : p ∧ x = some w := by
  by_cases hp : p
  · rw [guard, if_pos hp] at h
    exact ⟨hp, h⟩
  · rw [guard, if_neg hp] at h
    cases h

/-- The result is converted to `span<T>`. -/
theorem toDynamic_eq_some {x : Option Span} (h : (x >>= fun u => some u.toDynamic) = some w) :
    ∃ u, x = some u ∧ u.toDynamic = w := by
  obtain ⟨u, hu, hw⟩ := Option.bind_eq_some_iff.mp h
  exact ⟨u, hu, Option.some.inj hw⟩

/-- The elements of a call whose assertions pass are elements of the span, unless the sum wraps
around. -/
theorem Call.run_part (hs : 0 < s) (hf : Fits s v) (h : c.run s v = some w) (hno : ¬ Wraps c) :
    Part s v w := by
  cases c with
  | first count =>
    obtain ⟨hle, h⟩ := guard_eq_some h
    obtain ⟨u, hu, rfl⟩ := toDynamic_eq_some h
    obtain ⟨hdata, hn⟩ := construct_eq hu
    refine ⟨0, ?_, ?_⟩
    · show u.data % addressSpace = _
      rw [hdata, plus, Nat.zero_mul, Nat.add_zero]
    · show 0 + u.size ≤ v.size
      omega
  | last count =>
    obtain ⟨hle, h⟩ := guard_eq_some h
    obtain ⟨u, hu, rfl⟩ := toDynamic_eq_some h
    rw [Span.end_, minus_plus v.data hle, show v.size = v.size - count + count by omega,
      Nat.add_sub_cancel] at hu
    exact between_part hs hf (by omega) hu
  | subspan offset count =>
    obtain ⟨hle, h⟩ := guard_eq_some h
    by_cases hrest : count = dynamicExtent
    · rw [if_pos hrest] at h
      obtain ⟨u, hu, rfl⟩ := toDynamic_eq_some h
      rw [Span.end_, show v.size = offset + (v.size - offset) by omega] at hu
      exact between_part hs hf (by omega) hu
    · rw [if_neg hrest] at h
      obtain ⟨hsum, h⟩ := guard_eq_some h
      obtain ⟨u, hu, rfl⟩ := toDynamic_eq_some h
      have hlt : offset + count < addressSpace := Nat.not_le.mp fun hle => hno ⟨hrest, hle⟩
      rw [Nat.mod_eq_of_lt hlt] at hsum
      rw [plus_plus] at hu
      exact between_part hs hf hsum hu

/-- A sum that wraps around gives a span with a first element beyond the others. -/
theorem Call.run_not_inside (hs : 0 < s) (hf : Fits s v) (hc : c.Words) (h : c.run s v = some w)
    (hwraps : Wraps c) :
    ¬ Inside s w v := by
  cases c with
  | first count => cases hwraps
  | last count => cases hwraps
  | subspan offset count =>
    obtain ⟨hrest, hwrap⟩ := hwraps
    obtain ⟨_, hcount⟩ := hc
    obtain ⟨hle, h⟩ := guard_eq_some h
    rw [if_neg hrest] at h
    obtain ⟨-, h⟩ := guard_eq_some h
    obtain ⟨u, hu, rfl⟩ := toDynamic_eq_some h
    -- the end pointer is `back` elements before the first one
    obtain ⟨back, hback⟩ : ∃ back, count = addressSpace - back ∧ 0 < back ∧ back ≤ offset :=
      ⟨addressSpace - count, by omega, by omega, by omega⟩
    obtain ⟨rfl, hpos, hbacklt⟩ := hback
    have hsize : v.size ≤ v.size * s := Nat.le_mul_of_pos_right _ hs
    have hfar : back * s < 2 ^ 63 := Nat.lt_of_le_of_lt (Nat.mul_le_mul_right s (by omega)) hf
    unfold Fits at hf
    rw [plus_wrapped v.data hbacklt (by omega)] at hu
    obtain ⟨hdata, hn⟩ := construct_eq hu
    rw [distance_before hs v.data hpos hbacklt hfar] at hn
    intro hin
    obtain ⟨j, hj, he⟩ :=
      hin (v.size - offset) (by show _ < u.size; unfold addressSpace at hn; omega)
    have hfirst : u.toDynamic.element s (v.size - offset) = plus s v.data (j + (v.size - j)) := by
      show plus s u.data (v.size - offset) = _
      rw [hdata, plus_plus]
      congr 1
      omega
    have hzero := plus_inj hs v.data
      (Nat.lt_of_le_of_lt (Nat.mul_le_mul_right s (Nat.sub_le _ _)) hf) (hfirst.symm.trans he)
    omega

theorem step_deterministic : Deterministic (Step s) :=
  fun _ _ _ _ h h' => Option.some.inj (h.2.symm.trans h'.2)

/-- The spans of nested calls lie in the one that they come from, and in the first one, exactly as
long as no sum of an offset and a count wraps around. -/
theorem inside_iff {v w : Span} {cs : List Call} (hs : 0 < s) (hf : Fits s v)
    (h : Run (Step s) v cs w) :
    (∀ bs c ds u u', cs = bs ++ c :: ds → Run (Step s) v bs u → Step s u c u' → Inside s u' u ∧
      Inside s u' v) ↔
      ∀ bs c ds u, cs = bs ++ c :: ds → Run (Step s) v bs u → ¬ Wraps c := by
  refine h.each_iff (J := Part s v)
    (P := fun u _ u' => Inside s u' u ∧ Inside s u' v) step_deterministic (Part.refl v) ?_ ?_
  · intro u c u' hu hstep hno
    have hpart := Call.run_part hs (hu.fits hf) hstep.2 hno
    exact ⟨hu.trans hpart, hpart.inside, (hu.trans hpart).inside⟩
  · intro u c u' hu hstep hin hwraps
    exact Call.run_not_inside hs (hu.fits hf) hstep.1 hstep.2 hwraps hin.1

end

/-- Four elements of four bytes. -/
def four : Span := ⟨4096, 4, none, .inl rfl⟩

theorem four_fits : Fits 4 four := show 16 < 2 ^ 63 by decide

theorem inside_nested :
    ∃ u w, Run (Step 4) four [.subspan 1 dynamicExtent, .last 2] w ∧ Step 4 u (.last 2) w ∧
    Inside 4 w u ∧ Inside 4 w four := by
  have h₁ : Run (Step 4) four [.subspan 1 dynamicExtent] ⟨4100, 3, none, .inl rfl⟩ :=
    .single ⟨⟨by decide, by decide⟩, by decide +kernel⟩
  have hstep : Step 4 ⟨4100, 3, none, .inl rfl⟩ (.last 2) ⟨4104, 2, none, .inl rfl⟩ :=
    ⟨show 2 < 2 ^ 64 by decide, by decide +kernel⟩
  have h₂ := h₁.snoc hstep
  refine ⟨_, _, h₂, hstep,
    (inside_iff (by decide) four_fits h₂).mpr ?_ [.subspan 1 dynamicExtent] _ [] _ _ rfl h₁ hstep⟩
  refine h₁.steps_snoc step_deterministic (Run.steps_snoc step_deterministic .nil steps_nil ?_) id
  exact fun hw => hw.1 rfl

/-- The assertions of `subspan(4, 2^64 - 2)` pass, and the returned span has 2^64 - 2 elements. -/
theorem subspan_escapes : four.subspan 4 4 (2 ^ 64 - 2) = some ⟨4112, 2 ^ 64 - 2, none, .inl rfl⟩ ∧
    ¬ Inside 4 ⟨4112, 2 ^ 64 - 2, none, .inl rfl⟩ four := by
  have hrun : four.subspan 4 4 (2 ^ 64 - 2) = some ⟨4112, 2 ^ 64 - 2, none, .inl rfl⟩ := by
    decide +kernel
  refine ⟨hrun, Call.run_not_inside (c := .subspan 4 (2 ^ 64 - 2)) (by decide) four_fits
    ⟨?_, ?_⟩ hrun ⟨?_, ?_⟩⟩ <;> decide

end Gpcl.Spans
