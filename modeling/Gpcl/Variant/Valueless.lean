import Gpcl.Variant.Visit

/-! # The valueless state

A constructor that throws out of `emplace` or of the converting assignment leaves an `index_` of -1.
`index()` asserts that there is none before it looks for it, and nearly every other member calls
`index()`. -/
namespace Gpcl.VariantAccess

/-- What comparisons and moves do to the values of a type. A constructor or an assignment may throw;
`left` is what remains of an object that has been moved from. -/
structure Operations (T : Type) where
  eq : T → T → Bool
  -- nothing where `is_less_than_comparable` is false
  lt : Option (T → T → Bool)
  move : T → Option T
  moveAssign : T → Option T
  left : T → T

section
variable {Ty : Type} {Val : Ty → Type} {ts : Alternatives Ty}

def valueless : Variant Val ts := ⟨none⟩

def reset (_ : Variant Val ts) : Variant Val ts := valueless

/-- `set_index` with the object that has been constructed; it asserts that there was none. -/
def setIndex (I : Fin (ts.n + 1)) (x : Val (ts.type I)) (v : Variant Val ts) :
    Except Failure Unit × Variant Val ts :=
  match require (index_ v = -1) with
  | .error e => (.error e, v)
  | .ok () => (.ok (), ⟨some ⟨I, x⟩⟩)

/-- `made` is the new object, if its constructor does not throw. -/
def emplace (I : Fin (ts.n + 1)) (made : Option (Val (ts.type I))) (v : Variant Val ts) :
    Except Failure Unit × Variant Val ts :=
  let v := reset v
  match made with
  | none => (.error .constructorThrew, v)
  | some x => setIndex I x v

/-- `operator=(T &&)`; `assigned` is the value of the object that is assigned to. -/
def convertAssign (I : Fin (ts.n + 1)) (assigned made : Option (Val (ts.type I)))
    (v : Variant Val ts) :
    Except Failure Unit × Variant Val ts :=
  match index v with
  | .error e => (.error e, v)
  | .ok i =>
    if I.val = i then
      match assigned with
      | none => (.error .assignmentThrew, v)
      | some x => (.ok (), ⟨some ⟨I, x⟩⟩)
    else
      let v := reset v
      match made with
      | none => (.error .constructorThrew, v)
      | some x => setIndex I x v

/-- `x.valueless_by_exception() && y.valueless_by_exception()`. -/
def bothValueless (x y : Variant Val ts) : Except Failure Bool := do
  if ← valuelessByException x then valuelessByException y else return false

variable (ops : (t : Ty) → Operations (Val t)) [DecidableEq Ty]

/-- `detail::compare` of two values. -/
def compareValues (t : Ty) (x y : Val t) : Ordering :=
  if (ops t).eq x y then .eq
  else match (ops t).lt with
    | some lt => if lt x y then .lt else .gt
    | none => .gt

/-- The visitor of `compare`. -/
def compareVisitor : List (Arg Val) → ExceptT Failure Id Ordering
  | [⟨t, x⟩, ⟨t', y⟩] =>
    if h : t = t' then return compareValues ops t' (h ▸ x) y else throw .unreachable
  | _ => throw .unreachable

/-- `detail::compare`. -/
def compare (x y : Variant Val ts) : Except Failure Ordering := do
  if ← bothValueless x y then return .eq
  if ← valuelessByException x then return .lt
  if ← valuelessByException y then return .gt
  let i ← index x
  let j ← index y
  if i ≠ j then return Ord.compare i j
  (visit (compareVisitor ops) [⟨ts, x⟩, ⟨ts, y⟩]).run

/-- The object of the variant gets another value of its type. -/
def store (a : Arg Val) (v : Variant Val ts) : Variant Val ts :=
  match v.content with
  | some ⟨i, _⟩ => if h : a.1 = ts.type i then ⟨some ⟨i, h ▸ a.2⟩⟩ else v
  | none => v

/-- The alternative that a value of the type `t` is assigned to. -/
def findIndex (t : Ty) : Option (Fin (ts.n + 1)) :=
  (List.finRange (ts.n + 1)).find? fun i => decide (ts.type i = t)

/-- `v = std::move(x)`, for an `x` of the type `t`. -/
def moveInto (t : Ty) (x : Val t) (v : Variant Val ts) : Except Failure Unit × Variant Val ts :=
  match (findIndex t : Option (Fin (ts.n + 1))) with
  | none => (.error .unreachable, v)
  | some I =>
    if h : t = ts.type I
      then convertAssign I (((ops t).moveAssign x).map (h ▸ ·)) (((ops t).move x).map (h ▸ ·)) v
    else (.error .unreachable, v)

/-- Two variants in memory. -/
abbrev Both (Val : Ty → Type) (ts : Alternatives Ty) : Type → Type :=
  StateM (Variant Val ts × Variant Val ts)

/-- A member of the first or of the second variant runs. -/
def onFirst (f : Variant Val ts → Except Failure Unit × Variant Val ts) :
    ExceptT Failure (Both Val ts) Unit :=
  ExceptT.mk fun s => ((f s.1).1, ((f s.1).2, s.2))

def onSecond (f : Variant Val ts → Except Failure Unit × Variant Val ts) :
    ExceptT Failure (Both Val ts) Unit :=
  ExceptT.mk fun s => ((f s.2).1, (s.1, (f s.2).2))

/-- `swap(x, y)` for two alternatives of one type. -/
def swapVisitor : List (Arg Val) → ExceptT Failure (Both Val ts) Unit
  | [x, y] =>
    if x.1 = y.1 then modify fun s => (store y s.1, store x s.2)
    else throw .unreachable
  | _ => throw .unreachable

/-- The alternatives change places, over a third object. -/
def exchangeVisitor : List (Arg Val) → ExceptT Failure (Both Val ts) Unit
  | [x, y] => do
    match (ops y.1).move y.2 with
    | none => throw .constructorThrew
    | some tmp =>
      modify fun s => (s.1, store ⟨y.1, (ops y.1).left y.2⟩ s.2)
      onSecond (moveInto ops x.1 x.2)
      modify fun s => (store ⟨x.1, (ops x.1).left x.2⟩ s.1, s.2)
      onFirst (moveInto ops y.1 tmp)
  | _ => throw .unreachable

/-- `x.swap(y)`. -/
def swapThese (x y : Variant Val ts) : ExceptT Failure (Both Val ts) Unit := do
  if ← bothValueless x y then return
  let i ← index x
  let j ← index y
  if i = j then visit swapVisitor [⟨ts, x⟩, ⟨ts, y⟩]
  else visit (exchangeVisitor ops) [⟨ts, x⟩, ⟨ts, y⟩]

/-- The result of `x.swap(y)`, and both variants after it. -/
def swap (x y : Variant Val ts) : Except Failure Unit × (Variant Val ts × Variant Val ts) :=
  (swapThese ops x y).run.run (x, y)

inductive Op (Val : Ty → Type) (ts : Alternatives Ty)
  | emplace (I : Fin (ts.n + 1)) (made : Option (Val (ts.type I)))
  | convertAssign (I : Fin (ts.n + 1)) (assigned made : Option (Val (ts.type I)))

def Op.run (v : Variant Val ts) : Op Val ts → Except Failure Unit × Variant Val ts
  | .emplace I made => VariantAccess.emplace I made v
  | .convertAssign I assigned made => VariantAccess.convertAssign I assigned made v

/-- The variant works as one without a value: it says so, compares equal to another one and less
than one with a value, a swap fails no assertion, and a later operation gives it a value. -/
structure Usable (v : Variant Val ts) : Prop where
  reports : valuelessByException v = .ok true
  npos : VariantAccess.index v = .ok VariantAccess.npos
  access : ∀ I, VariantAccess.get I v = .error .badVariantAccess
  compares : ∀ w, VariantAccess.compare ops v w = .ok (if index_ w = -1 then .eq else .lt) ∧
    VariantAccess.compare ops w v = .ok (if index_ w = -1 then .eq else .gt)
  swaps : ∀ w, (VariantAccess.swap ops v w).1 ≠ .error .assertion ∧
    (VariantAccess.swap ops w v).1 ≠ .error .assertion
  emplaces : ∀ I x, VariantAccess.emplace I (some x) v = (.ok (), ⟨some ⟨I, x⟩⟩)
  assigns : ∀ I x y, VariantAccess.convertAssign I (some x) (some y) v = (.ok (), ⟨some ⟨I, y⟩⟩)

/-- Nothing but `emplace` gets past the assertion of `index()`. -/
structure Stops (v : Variant Val ts) : Prop where
  reports : valuelessByException v = .error .assertion
  npos : VariantAccess.index v = .error .assertion
  access : ∀ I, VariantAccess.get I v = .error .assertion
  compares : ∀ w, VariantAccess.compare ops v w = .error .assertion ∧
    VariantAccess.compare ops w v = .error .assertion
  swaps : ∀ w, (VariantAccess.swap ops v w).1 = .error .assertion ∧
    (VariantAccess.swap ops w v).1 = .error .assertion
  assigns : ∀ I assigned made,
    VariantAccess.convertAssign I assigned made v = (.error .assertion, v)
  emplaces : ∀ I x, VariantAccess.emplace I (some x) v = (.ok (), ⟨some ⟨I, x⟩⟩)

end

section
variable {Ty : Type} {Val : Ty → Type} {ts : Alternatives Ty}

/-- A variant is the valueless one or holds something. -/
theorem cases_content (w : Variant Val ts) :
    w = valueless ∨ ∃ i, ∃ x : Val (ts.type i), w.content = some ⟨i, x⟩ := by
  rcases w with ⟨_ | ⟨i, x⟩⟩
  · exact .inl rfl
  · exact .inr ⟨i, x, rfl⟩

theorem bothValueless_right {w : Variant Val ts} {i : Fin (ts.n + 1)} {x : Val (ts.type i)}
    (h : w.content = some ⟨i, x⟩) :
    bothValueless w valueless = .ok false := by
  unfold bothValueless
  rw [valueless_eq h]
  rfl

variable (ops : (t : Ty) → Operations (Val t)) [DecidableEq Ty]

theorem compare_left (w : Variant Val ts) : compare ops valueless w = .error .assertion := rfl

theorem compare_right (w : Variant Val ts) : compare ops w valueless = .error .assertion := by
  rcases cases_content w with rfl | ⟨i, x, h⟩
  · exact compare_left ops valueless
  · unfold compare
    rw [bothValueless_right h, valueless_eq h]
    rfl

theorem swap_left (w : Variant Val ts) : (swap ops valueless w).1 = .error .assertion := rfl

theorem swap_right (w : Variant Val ts) : (swap ops w valueless).1 = .error .assertion := by
  rcases cases_content w with rfl | ⟨i, x, h⟩
  · exact swap_left ops valueless
  · unfold swap swapThese
    rw [bothValueless_right h, index_eq h]
    rfl

theorem stops_valueless : Stops ops (valueless : Variant Val ts) where
  reports := rfl
  npos := rfl
  access _ := rfl
  compares w := ⟨compare_left ops w, compare_right ops w⟩
  swaps w := ⟨swap_left ops w, swap_right ops w⟩
  assigns _ _ _ := rfl
  emplaces _ _ := rfl

omit [DecidableEq Ty] in
/-- What an exception of the new alternative's constructor leaves. -/
theorem Op.run_threw {op : Op Val ts} {v : Variant Val ts}
    (h : (op.run v).1 = .error .constructorThrew) : (op.run v).2 = valueless := by
  have hset : ∀ (I : Fin (ts.n + 1)) (x : Val (ts.type I)),
      (setIndex I x (reset v)).1 ≠ .error .constructorThrew :=
    fun I x he => nomatch he
  cases op with
  | emplace I made =>
    cases made with
    | none => rfl
    | some x => exact absurd h (hset I x)
  | convertAssign I assigned made =>
    unfold Op.run VariantAccess.convertAssign at h ⊢
    rcases cases_content v with rfl | ⟨i, x, hc⟩
    · cases h
    · rw [index_eq hc] at h ⊢
      dsimp only at h ⊢
      split at h
      · cases assigned <;> cases h
      · next hne =>
        rw [if_neg hne]
        cases made with
        | none => rfl
        | some x => exact absurd h (hset I x)

theorem not_usable_valueless : ¬ Usable ops (valueless : Variant Val ts) :=
  fun hu => nomatch hu.reports

/-- After an exception of the new alternative's constructor the variant has no value, and does not
tell: every observer, comparison, swap and assignment fails an assertion. -/
theorem valueless_unusable {op : Op Val ts} {v : Variant Val ts}
    (h : (op.run v).1 = .error .constructorThrew) :
    (op.run v).2 = valueless ∧ ¬ Usable ops (op.run v).2 ∧ Stops ops (op.run v).2 := by
  rw [Op.run_threw h]
  exact ⟨rfl, not_usable_valueless ops, stops_valueless ops⟩

end

/-- Numbers, of which none throws. -/
def numbers (_ : Unit) : Operations Nat where
  eq x y := x == y
  lt := some fun x y => decide (x < y)
  move := some
  moveAssign := some
  left x := x

theorem signed_two : 1 + 1 < 2 ^ 31 - 1 := by decide

/-- A variant of two kinds of numbers, with a 5 of the first one. -/
def five : Variant (fun _ : Unit => Nat) ⟨1, fun _ => (), signed_two⟩ :=
  ⟨some ⟨⟨0, Nat.two_pos⟩, 5⟩⟩

theorem valueless_unusable_emplace : ((Op.emplace 1 none).run five).2 = valueless ∧
    ¬ Usable numbers ((Op.emplace 1 none).run five).2 ∧
    Stops numbers ((Op.emplace 1 none).run five).2 :=
  valueless_unusable numbers rfl

/-- An assignment whose constructor throws is followed by a failed assertion. -/
theorem thrown_assignment_unusable :
    ((Op.convertAssign 1 (some 7) none).run five).1 = .error .constructorThrew ∧
    ¬ Usable numbers ((Op.convertAssign 1 (some 7) none).run five).2 :=
  ⟨rfl, not_usable_valueless numbers⟩

end Gpcl.VariantAccess
