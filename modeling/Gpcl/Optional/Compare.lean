import Mathlib.Data.Set.Basic

/-! # Comparisons of optional

Each of the six operators has three overloads: two optionals, an optional and a value, a value and
an optional. The first one of `==` counts two empty optionals as equal; `<`, `>`, `<=` and `>=` are
false as soon as one operand is empty, and the last overload of `>=` asks for `>`. -/
namespace Gpcl.Optional.Compare

structure Operators (A B : Type) where
  eq : A → B → Bool
  ne : A → B → Bool
  lt : A → B → Bool
  gt : A → B → Bool
  le : A → B → Bool
  ge : A → B → Bool

variable {T : Type}

/-! ## The overloads -/

section
variable (C : Operators T T)

/-- `if (x && y) return r(*x, *y); return false;` -/
def ifBoth (r : T → T → Bool) (x y : Option T) : Bool :=
  match x, y with
  | some a, some b => r a b
  | _, _ => false

def eqOptionals (x y : Option T) : Bool :=
  match x, y with
  | some a, some b => C.eq a b
  | none, none => true
  | _, _ => false

/-- `operator r(const optional<T> &x, const optional<U> &y)`. -/
def optionalOptional : Operators (Option T) (Option T) where
  eq := eqOptionals C
  ne x y := !eqOptionals C x y
  lt := ifBoth C.lt
  gt := ifBoth C.gt
  le := ifBoth C.le
  ge := ifBoth C.ge

/-- `operator r(const optional<T> &x, const U &y)`. -/
def optionalValue : Operators (Option T) T where
  eq x y := x.any (C.eq · y)
  ne x y := !x.any (C.eq · y)
  lt x y := x.any (C.lt · y)
  gt x y := x.any (C.gt · y)
  le x y := x.any (C.le · y)
  ge x y := x.any (C.ge · y)

/-- `operator r(const T &x, const optional<U> &y)`. -/
def valueOptional : Operators T (Option T) where
  eq x y := y.any (C.eq x ·)
  ne x y := !y.any (C.eq x ·)
  lt x y := y.any (C.lt x ·)
  gt x y := y.any (C.gt x ·)
  le x y := y.any (C.le x ·)
  -- `return y && (x > *y);`
  ge x y := y.any (C.gt x ·)

end

inductive Operand (T : Type)
  | opt (x : Option T)
  | val (a : T)

namespace Operand

def value : Operand T → Option T
  | .opt x => x
  | .val a => some a

/-- The overload that the operands select. -/
def holds (r : ∀ {A B : Type}, Operators A B → A → B → Bool) (C : Operators T T) :
    Operand T → Operand T → Bool
  | .opt x, .opt y => r (optionalOptional C) x y
  | .opt x, .val b => r (optionalValue C) x b
  | .val a, .opt y => r (valueOptional C) a y
  | .val a, .val b => r C a b

end Operand

/-! ## One consistent order -/

/-- The operators of a total preorder. -/
structure Operators.TotalPreorder (C : Operators T T) : Prop where
  total : ∀ a b, C.le a b ∨ C.le b a
  trans : ∀ a b c, C.le a b → C.le b c → C.le a c
  lt_iff : ∀ a b, C.lt a b ↔ C.le a b ∧ ¬ C.le b a
  gt_iff : ∀ a b, C.gt a b ↔ C.le b a ∧ ¬ C.le a b
  ge_iff : ∀ a b, C.ge a b ↔ C.le b a
  ne_iff : ∀ a b, C.ne a b = !C.eq a b

/-- `==` is the equivalence of the order. -/
def Operators.EqEquivalent (C : Operators T T) : Prop := ∀ a b, C.eq a b ↔ C.le a b ∧ C.le b a

section
variable (C : Operators T T)

/-- All six say of `x` and `y` what `T`'s own say of `a` and `b`. -/
structure Agree (x y : Operand T) (a b : T) : Prop where
  eq : Operand.holds Operators.eq C x y = C.eq a b
  ne : Operand.holds Operators.ne C x y = C.ne a b
  lt : Operand.holds Operators.lt C x y = C.lt a b
  gt : Operand.holds Operators.gt C x y = C.gt a b
  le : Operand.holds Operators.le C x y = C.le a b
  ge : Operand.holds Operators.ge C x y = C.ge a b

/-- The operands of `S`, whatever their kinds, are in one order. -/
structure Consistent (S : Set (Operand T)) : Prop where
  refl : ∀ x ∈ S, Operand.holds Operators.le C x x
  trans : ∀ x ∈ S, ∀ y ∈ S, ∀ z ∈ S, Operand.holds Operators.le C x y →
    Operand.holds Operators.le C y z → Operand.holds Operators.le C x z
  lt_iff : ∀ x ∈ S, ∀ y ∈ S, Operand.holds Operators.lt C x y ↔ Operand.holds Operators.le C x y ∧
    ¬ Operand.holds Operators.le C y x
  ge_iff : ∀ x ∈ S, ∀ y ∈ S, Operand.holds Operators.ge C x y ↔ Operand.holds Operators.le C y x
  eq_iff : C.EqEquivalent → ∀ x ∈ S, ∀ y ∈ S,
    Operand.holds Operators.eq C x y ↔ Operand.holds Operators.le C x y ∧
      Operand.holds Operators.le C y x
  comparable : ∀ x y : Option T, .opt x ∈ S → .opt y ∈ S →
    Operand.holds Operators.le C (.opt x) (.opt y) ∨ Operand.holds Operators.le C (.opt y) (.opt x)
  agree : ∀ x ∈ S, ∀ y ∈ S, ∀ a b, x.value = some a → y.value = some b → Agree C x y a b

/-- A value on the left and an optional with an equivalent value on the right. -/
def Tied : Operand T → Operand T → Prop
  | .val a, .opt (some b) => C.le a b ∧ C.le b a
  | _, _ => False

end

section
variable {C : Operators T T} {x y : Operand T} {a b : T}

theorem Operators.TotalPreorder.refl (hC : C.TotalPreorder) (a : T) : C.le a a :=
  (hC.total a a).elim id id

/-- Engaged operands that are not tied compare as their values do. -/
theorem agree_of_not_tied (hC : C.TotalPreorder) (hx : x.value = some a) (hy : y.value = some b)
    (hno : ¬ Tied C x y) :
    Agree C x y a b := by
  have hne := hC.ne_iff a b
  cases x with
  | opt x =>
    cases hx
    cases y with
    | opt y =>
      cases hy
      exact ⟨rfl, hne.symm, rfl, rfl, rfl, rfl⟩
    | val _ =>
      cases hy
      exact ⟨rfl, hne.symm, rfl, rfl, rfl, rfl⟩
  | val _ =>
    cases hx
    cases y with
    | opt y =>
      cases hy
      -- without a tie, `>` and `>=` are the same
      have hge : C.gt a b = C.ge a b := by
        rw [Bool.eq_iff_iff, hC.gt_iff, hC.ge_iff]
        exact ⟨And.left, fun hle => ⟨hle, fun hle' => hno ⟨hle', hle⟩⟩⟩
      exact ⟨rfl, hne.symm, rfl, rfl, rfl, hge⟩
    | val _ =>
      cases hy
      exact ⟨rfl, rfl, rfl, rfl, rfl, rfl⟩

theorem not_agree_of_tied (hC : C.TotalPreorder) (hx : x.value = some a) (hy : y.value = some b)
    (h : Tied C x y) :
    ¬ Agree C x y a b := by
  intro hagree
  match x, y with
  | .val _, .opt (some _) =>
    cases hx
    cases hy
    have hgt : C.gt a b := hagree.ge.trans ((hC.ge_iff a b).mpr h.2)
    exact ((hC.gt_iff a b).mp hgt).2 h.1

/-- Only an engaged operand is at most itself. -/
theorem engaged_of_le (h : Operand.holds Operators.le C x x) : ∃ a, x.value = some a := by
  match x with
  | .opt (some a) => exact ⟨a, rfl⟩
  | .val a => exact ⟨a, rfl⟩

variable {S : Set (Operand T)}

/-- The values' own order is the operands' order. -/
theorem consistent_of_agree (hC : C.TotalPreorder) (hengaged : ∀ x ∈ S, ∃ a, x.value = some a)
    (hagree : ∀ x ∈ S, ∀ y ∈ S, ∀ a b, x.value = some a → y.value = some b → Agree C x y a b) :
    Consistent C S where
  refl x hx := by
    obtain ⟨a, ha⟩ := hengaged x hx
    rw [(hagree x hx x hx a a ha ha).le]
    exact hC.refl a
  trans x hx y hy z hz := by
    obtain ⟨a, ha⟩ := hengaged x hx
    obtain ⟨b, hb⟩ := hengaged y hy
    obtain ⟨c, hc⟩ := hengaged z hz
    rw [(hagree x hx y hy a b ha hb).le, (hagree y hy z hz b c hb hc).le,
      (hagree x hx z hz a c ha hc).le]
    exact hC.trans a b c
  lt_iff x hx y hy := by
    obtain ⟨a, ha⟩ := hengaged x hx
    obtain ⟨b, hb⟩ := hengaged y hy
    rw [(hagree x hx y hy a b ha hb).lt, (hagree x hx y hy a b ha hb).le,
      (hagree y hy x hx b a hb ha).le]
    exact hC.lt_iff a b
  ge_iff x hx y hy := by
    obtain ⟨a, ha⟩ := hengaged x hx
    obtain ⟨b, hb⟩ := hengaged y hy
    rw [(hagree x hx y hy a b ha hb).ge, (hagree y hy x hx b a hb ha).le]
    exact hC.ge_iff a b
  eq_iff heq x hx y hy := by
    obtain ⟨a, ha⟩ := hengaged x hx
    obtain ⟨b, hb⟩ := hengaged y hy
    rw [(hagree x hx y hy a b ha hb).eq, (hagree x hx y hy a b ha hb).le,
      (hagree y hy x hx b a hb ha).le]
    exact heq a b
  comparable x y hx hy := by
    obtain ⟨a, ha⟩ := hengaged _ hx
    obtain ⟨b, hb⟩ := hengaged _ hy
    rw [(hagree _ hx _ hy a b ha hb).le, (hagree _ hy _ hx b a hb ha).le]
    exact hC.total a b
  agree := hagree

/-- Operands are in one order exactly when none is empty and no value meets an optional with an
equivalent one. -/
theorem consistent_iff (hC : C.TotalPreorder) (S : Set (Operand T)) :
    Consistent C S ↔ (∀ x ∈ S, ∃ a, x.value = some a) ∧ ∀ x ∈ S, ∀ y ∈ S, ¬ Tied C x y := by
  constructor
  · intro h
    have hengaged : ∀ x ∈ S, ∃ a, x.value = some a := fun x hx => engaged_of_le (h.refl x hx)
    refine ⟨hengaged, fun x hx y hy htied => ?_⟩
    obtain ⟨a, ha⟩ := hengaged x hx
    obtain ⟨b, hb⟩ := hengaged y hy
    exact not_agree_of_tied hC ha hb htied (h.agree x hx y hy a b ha hb)
  · rintro ⟨hengaged, hno⟩
    exact consistent_of_agree hC hengaged fun x hx y hy a b ha hb =>
      agree_of_not_tied hC ha hb (hno x hx y hy)

end

/-- The operators of `int`. -/
def intOperators : Operators Int Int where
  eq a b := a == b
  ne a b := a != b
  lt a b := a < b
  gt a b := a > b
  le a b := a ≤ b
  ge a b := a ≥ b

theorem intOperators_totalPreorder : intOperators.TotalPreorder where
  total a b := by
    simp only [intOperators, decide_eq_true_eq]
    omega
  trans a b c := by
    simp only [intOperators, decide_eq_true_eq]
    omega
  lt_iff a b := by
    simp only [intOperators, decide_eq_true_eq]
    omega
  gt_iff a b := by
    simp only [intOperators, decide_eq_true_eq]
    omega
  ge_iff a b := by
    simp only [intOperators, decide_eq_true_eq]
  ne_iff a b := rfl

/-- Engaged optionals are in one order. -/
theorem consistent_engaged : Consistent intOperators {x | ∃ a, x = .opt (some a)} := by
  refine (consistent_iff intOperators_totalPreorder _).mpr ⟨?_, ?_⟩
  · rintro _ ⟨a, rfl⟩
    exact ⟨a, rfl⟩
  · rintro _ ⟨a, rfl⟩ _ ⟨b, rfl⟩ htied
    exact htied

/-- Two empty optionals are equal and neither is at most the other; a value is not at least an equal
optional. -/
theorem empty_not_le_itself : ¬ Consistent intOperators Set.univ ∧
    (Operand.holds Operators.eq intOperators (.opt none) (.opt none) ∧
      ¬ Operand.holds Operators.le intOperators (.opt none) (.opt none)) ∧
      Operand.holds Operators.le intOperators (.opt (some 1)) (.val 1) ∧
      ¬ Operand.holds Operators.ge intOperators (.val 1) (.opt (some 1)) :=
  ⟨fun h => Bool.false_ne_true (h.refl (.opt none) trivial), ⟨rfl, Bool.false_ne_true⟩, rfl,
    Bool.false_ne_true⟩

end Gpcl.Optional.Compare
