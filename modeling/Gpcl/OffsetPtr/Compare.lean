import Gpcl.OffsetPtr.Targets

/-! # Comparisons of offset_ptr

Each of the six operators has five overloads, for the kinds of operands that occur. All of them call
`get`; most compare what it returns, and those of two objects go through `==` and `<`. Built-in
comparisons of pointers are those of addresses, with `nullptr` as the address 0 where the compiler
accepts it. -/
namespace Gpcl.OffsetPtr
open Lib.Memory

inductive Relation
  | eq
  | ne
  | lt
  | gt
  | le
  | ge
deriving DecidableEq

/-- The built-in comparison. -/
def Relation.holds : Relation → Nat → Nat → Bool
  | .eq, p, q => p == q
  | .ne, p, q => p != q
  | .lt, p, q => p < q
  | .gt, p, q => p > q
  | .le, p, q => p ≤ q
  | .ge, p, q => p ≥ q

/-! ## The overloads -/

section
variable (r : Relation) (m : Mem)

/-- `operator r(const offset_ptr<T> &x, std::nullptr_t)`. -/
def offsetNull (x : Obj) : Option Bool := do return r.holds (← get x.type m x.addr) 0

/-- `operator r(std::nullptr_t, const offset_ptr<T> &y)`. -/
def nullOffset (y : Obj) : Option Bool := do return r.holds 0 (← get y.type m y.addr)

/-- `operator r(const offset_ptr<T> &x, U *y)`. -/
def offsetRaw (x : Obj) (y : Nat) : Option Bool := do return r.holds (← get x.type m x.addr) y

/-- `operator r(T *x, const offset_ptr<U> &y)`; three of them return `x == y.get()`. -/
def rawOffset (x : Nat) (y : Obj) : Option Bool := do
  let q ← get y.type m y.addr
  return match r with
    | .eq => x == q
    | .ne => x == q
    | .lt => x == q
    | .gt => x > q
    | .le => x ≤ q
    | .ge => x ≥ q

def eqOffsets (x y : Obj) : Option Bool :=
  do return (← get x.type m x.addr) == (← get y.type m y.addr)

def neOffsets (x y : Obj) : Option Bool := do return !(← eqOffsets m x y)

def ltOffsets (x y : Obj) : Option Bool :=
  do return decide ((← get x.type m x.addr) < (← get y.type m y.addr))

def gtOffsets (x y : Obj) : Option Bool := ltOffsets m y x

def leOffsets (x y : Obj) : Option Bool := do return !(← gtOffsets m x y)

def geOffsets (x y : Obj) : Option Bool := do return !(← ltOffsets m x y)

end

/-- The two operands, by their kinds. -/
inductive Operands
  | offsetNull (x : Obj)
  | nullOffset (y : Obj)
  | offsetRaw (x : Obj) (y : Nat)
  | rawOffset (x : Nat) (y : Obj)
  | offsets (x y : Obj)

namespace Operands

/-- The overload that the operands select. -/
def compare (r : Relation) (m : Mem) : Operands → Option Bool
  | .offsetNull x => OffsetPtr.offsetNull r m x
  | .nullOffset y => OffsetPtr.nullOffset r m y
  | .offsetRaw x y => OffsetPtr.offsetRaw r m x y
  | .rawOffset x y => OffsetPtr.rawOffset r m x y
  | .offsets x y =>
    match r with
    | .eq => eqOffsets m x y
    | .ne => neOffsets m x y
    | .lt => ltOffsets m x y
    | .gt => gtOffsets m x y
    | .le => leOffsets m x y
    | .ge => geOffsets m x y

def swap : Operands → Operands
  | .offsetNull x => .nullOffset x
  | .nullOffset y => .offsetNull y
  | .offsetRaw x y => .rawOffset y x
  | .rawOffset x y => .offsetRaw y x
  | .offsets x y => .offsets y x

/-- The address of the left operand. -/
def left (m : Mem) : Operands → Option Nat
  | .offsetNull x | .offsetRaw x _ | .offsets x _ => get x.type m x.addr
  | .rawOffset x _ => some x
  | .nullOffset _ => some 0

def right (m : Mem) (ops : Operands) : Option Nat := ops.swap.left m

/-- The operands denote the addresses `a` and `b`. -/
def Denote (m : Mem) (ops : Operands) (a b : Nat) : Prop :=
  ops.left m = some a ∧ ops.right m = some b

def RawLeft : Operands → Prop
  | .rawOffset _ _ => True
  | _ => False

section
variable {m : Mem} {ops : Operands} {a b : Nat} {r : Relation}

theorem Denote.swap (h : ops.Denote m a b) : ops.swap.Denote m b a := by
  refine ⟨h.2, ?_⟩
  have hswap : ops.swap.swap = ops := by cases ops <;> rfl
  rw [right, hswap]
  exact h.1

/-- The overloads for two objects, those defined through another one included. -/
theorem compare_offsets {x y : Obj} (hx : get x.type m x.addr = some a)
    (hy : get y.type m y.addr = some b) :
    (offsets x y).compare r m = some (r.holds a b) := by
  cases r with
  | eq => simp [compare, eqOffsets, hx, hy, Relation.holds]
  | ne => simp [compare, neOffsets, eqOffsets, hx, hy, Relation.holds, bne]
  | lt => simp [compare, ltOffsets, hx, hy, Relation.holds]
  | gt => simp [compare, gtOffsets, ltOffsets, hx, hy, Relation.holds]
  | le => simp [compare, leOffsets, gtOffsets, ltOffsets, hx, hy, Relation.holds, ← decide_not]
  | ge => simp [compare, geOffsets, ltOffsets, hx, hy, Relation.holds, ← decide_not]

/-- With a raw pointer on the left, `!=` is `==`, and so is `<`. -/
theorem compare_rawOffset {x : Nat} {y : Obj} (hy : get y.type m y.addr = some b) :
    (rawOffset x y).compare r m = some (if r = .ne ∨ r = .lt then x == b else r.holds x b) := by
  simp only [compare, OffsetPtr.rawOffset, hy]
  cases r <;> rfl

theorem compare_eq (h : ops.Denote m a b) (hraw : ¬ ops.RawLeft) :
    ops.compare r m = some (r.holds a b) := by
  obtain ⟨ha, hb⟩ := h
  cases ops with
  | offsetNull x =>
    obtain rfl := Option.some.inj hb
    simp only [compare, OffsetPtr.offsetNull, show get x.type m x.addr = some a from ha]
    rfl
  | nullOffset y =>
    obtain rfl := Option.some.inj ha
    simp only [compare, OffsetPtr.nullOffset, show get y.type m y.addr = some b from hb]
    rfl
  | offsetRaw x y =>
    obtain rfl := Option.some.inj hb
    simp only [compare, OffsetPtr.offsetRaw, show get x.type m x.addr = some a from ha]
    rfl
  | rawOffset x y => exact absurd trivial hraw
  | offsets x y => exact compare_offsets ha hb

/-- The comparison is another one than that of the addresses. -/
def Wrong (r : Relation) (ops : Operands) (a b : Nat) : Prop :=
  ops.RawLeft ∧ (r = .ne ∨ (r = .lt ∧ a ≤ b))

theorem compare_iff (h : ops.Denote m a b) :
    ops.compare r m = some (r.holds a b) ↔ ¬ Wrong r ops a b := by
  by_cases hraw : ops.RawLeft
  · cases ops with
    | rawOffset x y =>
      obtain rfl := Option.some.inj h.1
      rw [compare_rawOffset h.2, Option.some.injEq, Wrong, and_iff_right hraw]
      cases r with
      | ne =>
        have hne : (x == b) ≠ (x != b) := by cases hb : x == b <;> simp [bne, hb]
        simpa [Relation.holds] using hne
      | lt =>
        have hcases : (x == b) = decide (x < b) ↔ b < x := by
          rcases Nat.lt_trichotomy x b with hlt | rfl | hlt
          · simp [hlt, Nat.ne_of_lt hlt, Nat.lt_asymm hlt]
          · simp
          · simp [hlt, Nat.ne_of_gt hlt, Nat.lt_asymm hlt]
        simpa [Relation.holds] using hcases
      | _ => simp
    | _ => exact absurd hraw not_false
  · exact iff_of_true (compare_eq h hraw) fun hw => hraw hw.1

/-- The operators are those of the total order of the addresses. -/
structure Consistent (m : Mem) (ops : Operands) (a b : Nat) : Prop where
  comparison : ∀ r, ops.compare r m = some (r.holds a b)
  negation : ops.compare .ne m = (ops.compare .eq m).map not
  irreflexive : a = b → ops.compare .lt m = some false
  converse : ops.compare .lt m = ops.swap.compare .gt m

theorem consistent_of_agree (h : ops.Denote m a b)
    (hr : ∀ r, ops.compare r m = some (r.holds a b)) : Consistent m ops a b := by
  have hswap : ops.swap.compare .gt m = some (Relation.gt.holds b a) :=
      (compare_iff h.swap).mpr fun hw => by
    rcases hw.2 with hw | ⟨hw, _⟩ <;> cases hw
  refine ⟨hr, ?_, ?_, ?_⟩
  · rw [hr, hr]
    rfl
  · rintro rfl
    rw [hr]
    simp [Relation.holds]
  · rw [hr, hswap]
    rfl

/-- The comparisons agree with those of the addresses, unless a raw pointer stands on the left of an
`offset_ptr`: then `!=` never does, and `<` only where the left address is the larger one. -/
theorem comparisons_agree_iff (h : ops.Denote m a b) :
    (Consistent m ops a b ↔ ¬ ops.RawLeft) ∧
      (∀ r, ops.compare r m = some (r.holds a b) ↔
        ¬ (ops.RawLeft ∧ (r = .ne ∨ (r = .lt ∧ a ≤ b)))) ∧
      ∀ (ops' ops'' : Operands) (c : Nat), ops'.Denote m b c → ops''.Denote m a c →
        ¬ ops.RawLeft → ¬ ops'.RawLeft → ¬ ops''.RawLeft →
        ops.compare .lt m = some true → ops'.compare .lt m = some true →
        ops''.compare .lt m = some true := by
  refine ⟨⟨fun hc hraw => ?_, fun hraw => ?_⟩, fun r => compare_iff h, ?_⟩
  · exact (compare_iff h).mp (hc.comparison .ne) ⟨hraw, .inl rfl⟩
  · exact consistent_of_agree h fun r => compare_eq h hraw
  · intro ops' ops'' c h' h'' hraw hraw' hraw'' hab hbc
    rw [compare_eq h hraw, Option.some.injEq] at hab
    rw [compare_eq h' hraw', Option.some.injEq] at hbc
    rw [compare_eq h'' hraw'', Option.some.injEq]
    simp only [Relation.holds, decide_eq_true_eq] at hab hbc ⊢
    exact Nat.lt_trans hab hbc

end

/-- An object at 64 that points to 96. -/
def pointing : Mem := construct (fun _ => 0) 64 96

theorem get_pointing : get ⟨4, true⟩ pointing 64 = some 96 :=
  get_eq (o := ⟨64, 4, true⟩) ⟨by decide, by decide⟩
    (.inr ⟨by decide, by decide, fun _ => by decide, by decide⟩)
    (loadWord_storeWord _ _ (encode_lt 64 96))

theorem target_above : (offsetRaw ⟨64, 4, true⟩ 32).compare .gt pointing = some true :=
  have hdenote : (offsetRaw ⟨64, 4, true⟩ 32).Denote pointing 96 32 := ⟨get_pointing, rfl⟩
  ((comparisons_agree_iff hdenote).2.1 .gt).mpr fun h => h.1

/-- A raw pointer to the target is different from the object and below it, and one below the target
is not. -/
theorem raw_target_below_itself : ¬ Consistent pointing (.rawOffset 96 ⟨64, 4, true⟩) 96 96 ∧
    (rawOffset 96 ⟨64, 4, true⟩).compare .ne pointing = some true ∧
    (rawOffset 96 ⟨64, 4, true⟩).compare .lt pointing = some true ∧
    (rawOffset 32 ⟨64, 4, true⟩).compare .lt pointing = some false := by
  have hget : ∀ (r : Relation) (x : Nat), (rawOffset x ⟨64, 4, true⟩).compare r pointing =
      some (if r = .ne ∨ r = .lt then x == 96 else r.holds x 96) :=
        fun _ _ => compare_rawOffset (y := ⟨64, 4, true⟩) get_pointing
  have hne : (rawOffset 96 ⟨64, 4, true⟩).compare .ne pointing = some true := hget .ne 96
  refine ⟨fun h => ?_, hne, hget .lt 96, hget .lt 32⟩
  rw [h.comparison .ne] at hne
  cases hne

end Operands

end Gpcl.OffsetPtr
