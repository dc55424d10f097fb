import Gpcl.Any.Basic

/-! # What the operations do to the objects

Between two operations an any has an object exactly when `manage_` is not null, and every object is
in one any or has been destroyed once. A move hands a remote object over and leaves a local one
behind, and the rest is built from moves. All of that holds where neither of two anys is inside the
other one. -/
namespace Gpcl.Any
open Lib.Forests

variable {I T V : Type}

/-- An any has an object exactly when it has a type, and only then anys inside. -/
def Fits (h : Held T (Nat × V)) (b : Anys I T V) : Prop :=
  h.manage.isSome = h.object.isSome ∧ (h.object = none → b = .nil)

def Whole : Anys I T V → Prop
  | .nil => True
  | .node _ h b r => Fits h b ∧ Whole b ∧ Whole r

/-- Every object that was constructed is in one any or has been destroyed once. -/
def Ledger (s : State I T V) : Prop :=
  ∀ o, count o s.scope + s.destroyed o = if o < s.made then 1 else 0

variable [DecidableEq I] (ty : Types T V)

structure Inv (s : State I T V) : Prop where
  distinct : s.scope.Distinct
  whole : Whole s.scope
  ledger : Ledger s
  unread : s.stale = false

/-- What a move leaves behind. -/
def kept : Held T (Nat × V) → Held T (Nat × V)
  | ⟨some t, some (o, x)⟩ =>
    if localStorage ty t then ⟨some t, some (o, ty.left t x)⟩ else ⟨none, none⟩
  | _ => ⟨none, none⟩

/-- What comes with a move, when `k` is the number of the next object. -/
def given (k : Nat) : Held T (Nat × V) → Held T (Nat × V)
  | ⟨some t, some (o, x)⟩ =>
    if localStorage ty t then ⟨some t, some (k, x)⟩ else ⟨some t, some (o, x)⟩
  | h => h

/-- How many objects a move constructs. -/
def cost : Held T (Nat × V) → Nat
  | ⟨some t, some _⟩ => if localStorage ty t then 1 else 0
  | _ => 0

section
variable {ty} {s s' : State I T V} {f b c : Anys I T V} {h k : Held T (Nat × V)}
    {v other p : Place I} {o n : Nat}
  {home : Option I} {x : Held T (Nat × V) × Anys I T V}

/-! ## Wholeness -/

omit [DecidableEq I] in
theorem Fits.cases (hf : Fits h b) :
    (h = ⟨none, none⟩ ∧ b = .nil) ∨ ∃ t o x, h = ⟨some t, some (o, x)⟩ := by
  obtain ⟨hsome, hnil⟩ := hf
  obtain ⟨_ | t, _ | ⟨o, x⟩⟩ := h
  · exact .inl ⟨rfl, hnil rfl⟩
  · cases hsome
  · cases hsome
  · exact .inr ⟨t, o, x, rfl⟩

omit [DecidableEq I] in
theorem fits_null : Fits (⟨none, none⟩ : Held T (Nat × V)) (.nil : Anys I T V) :=
  ⟨rfl, fun _ => rfl⟩

omit [DecidableEq I] in
theorem fits_some (t : T) (y : Nat × V) (b : Anys I T V) : Fits ⟨some t, some y⟩ b := ⟨rfl, nofun⟩

theorem whole_set (hf : Whole f) (hh : Fits h b) (hb : Whole b) : Whole (f.set v h b) := by
  induction f with
  | nil => trivial
  | node m k c r ihc ihr =>
    obtain ⟨hk, hc, hr⟩ := hf
    rw [Forest.set]
    split
    · exact ⟨hh, hb, hr⟩
    · refine ⟨⟨hk.1, fun hnone => ?_⟩, ihc hc, ihr hr⟩
      rw [hk.2 hnone]
      rfl

theorem whole_erase (hf : Whole f) : Whole (f.erase v) := by
  induction f with
  | nil => trivial
  | node m k c r ihc ihr =>
    obtain ⟨hk, hc, hr⟩ := hf
    rw [Forest.erase]
    split
    · exact hr
    · refine ⟨⟨hk.1, fun hnone => ?_⟩, ihc hc, ihr hr⟩
      rw [hk.2 hnone]
      rfl

theorem whole_find? (hf : Whole f) (hx : f.find? v = some x) : Fits x.1 x.2 ∧ Whole x.2 := by
  induction f with
  | nil => cases hx
  | node m k c r ihc ihr =>
    obtain ⟨hk, hc, hr⟩ := hf
    rw [Forest.find?] at hx
    split at hx
    · cases hx
      exact ⟨hk, hc⟩
    · rcases Option.or_eq_some_iff.mp hx with hx | ⟨-, hx⟩
      · exact ihc hc hx
      · exact ihr hr hx

/-- The home of a new any has an object. -/
def Housed (f : Anys I T V) (home : Option I) : Prop :=
  ∀ w, home = some w → ∃ x, f.find? (.var w) = some x ∧ x.1.object ≠ none

theorem Housed.room (hh : Housed f home) : f.Room (home.map .var) := by
  intro p hp
  obtain ⟨w, hw, rfl⟩ := Option.map_eq_some_iff.mp hp
  obtain ⟨x, hx, -⟩ := hh w hw
  exact Forest.occurs_pos hx

theorem whole_add (hf : Whole f) (hd : f.Distinct) (hh : Fits h b) (hb : Whole b)
    (hhome : Housed f home) :
    Whole (f.add (home.map .var) v h b) := by
  cases home with
  | none => exact ⟨hh, hb, hf⟩
  | some w =>
    obtain ⟨x, hx, hobject⟩ := hhome w rfl
    show Whole (f.plant (.var w) v h b)
    induction f with
    | nil => trivial
    | node m k c r ihc ihr =>
      obtain ⟨hk, hc, hr⟩ := hf
      have hdc : c.Distinct := fun q => (Forest.occurs_below (hd q)).1
      have hdr : r.Distinct := fun q => (Forest.occurs_below (hd q)).2
      rw [Forest.plant]
      by_cases hne : Place.var w = m
      · rw [if_pos hne]
        rw [Forest.find?, if_pos hne] at hx
        cases hx
        exact ⟨⟨hk.1, fun hnone => absurd hnone hobject⟩, ⟨hh, hb, hc⟩, hr⟩
      · rw [if_neg hne]
        have hnil : k.object = none → c.plant (.var w) v h b = .nil := fun hnone => by
          rw [hk.2 hnone]
          rfl
        obtain ⟨hxc, hxr⟩ | ⟨hxc, hxr⟩ := Forest.find?_node_of_ne hne hx (hd _)
        · rw [Forest.plant_of_occurs (f := r) hxr]
          exact ⟨⟨hk.1, hnil⟩,
            ihc hc hdc (fun u hu => ⟨x, by cases hu; exact hxc, hobject⟩) hxc, hr⟩
        · rw [Forest.plant_of_occurs (f := c) hxc] at hnil ⊢
          exact ⟨⟨hk.1, hnil⟩, hc,
            ihr hr hdr (fun u hu => ⟨x, by cases hu; exact hxr, hobject⟩) hxr⟩

/-! ## Counting -/

omit [DecidableEq I] in
@[simp] theorem count_nil (o : Nat) : count o (.nil : Anys I T V) = 0 := rfl

omit [DecidableEq I] in
@[simp] theorem number_none (o : Nat) (m : Option T) :
    (⟨m, none⟩ : Held T (Nat × V)).number o = 0 := rfl

theorem count_set (hd : f.Distinct) (hx : f.find? v = some x) (o : Nat) :
    count o (f.set v h b) + (x.1.number o + count o x.2) = count o f + (h.number o + count o b) :=
  Forest.sum_set (hd v) hx

theorem count_erase (hd : f.Distinct) (hx : f.find? v = some x) (o : Nat) :
    count o (f.erase v) + (x.1.number o + count o x.2) = count o f := Forest.sum_erase (hd v) hx

theorem count_add (hd : f.Distinct) (hh : f.Room (home.map .var)) (o : Nat) :
    count o (f.add (home.map .var) v h b) = count o f + (h.number o + count o b) :=
  Forest.sum_add hd hh

omit [DecidableEq I] in
/-- An object is made new or handed over. -/
theorem number_given (ty : Types T V) (k o : Nat) (h : Held T (Nat × V)) :
    (given ty k h).number o + (kept ty h).number o = h.number o + if o = k then cost ty h
    else 0 := by
  obtain ⟨_ | t, _ | ⟨p, x⟩⟩ := h
  · simp [given, kept, cost, Held.number]
  · simp [given, kept, cost, Held.number]
  · simp [given, kept, cost, Held.number]
  · cases hl : localStorage ty t with
    | true =>
      simp only [given, kept, cost, hl, if_true, Held.number, Option.map_some, Option.some.injEq]
      rw [Nat.add_comm]
      congr 1
      simp only [eq_comm]
    | false => simp [given, kept, cost, hl, Held.number]

/-! ## One any -/

theorem look_eq (hx : s.scope.find? v = some x) : s.look v = s := by
  simp [State.look, hx]

theorem manager_eq (hx : s.scope.find? v = some x) : s.manager v = x.1.manage := by
  simp [State.manager, hx]

theorem setManage_eq (hx : s.scope.find? v = some (h, b)) (m : Option T) :
    s.setManage v m = { s with scope := s.scope.set v ⟨m, h.object⟩ b } := by
  simp [State.setManage, hx]

theorem put_eq (hx : s.scope.find? v = some x) (y : Option (Nat × V)) (b : Anys I T V) :
    s.put v y b = { s with scope := s.scope.set v ⟨x.1.manage, y⟩ b } := by
  simp [State.put, hx]

/-- The object goes, if there is one, and what is inside of it. -/
theorem destroyData_eq (hd : s.scope.Distinct) (hx : s.scope.find? v = some (h, b))
    (hf : Fits h b) :
    destroyData v s = { s with
      scope := s.scope.set v ⟨h.manage, none⟩ .nil
      destroyed := fun o => s.destroyed o + (h.number o + count o b) } := by
  unfold destroyData
  rw [manager_eq hx]
  obtain ⟨rfl, rfl⟩ | ⟨t, o, x, rfl⟩ := hf.cases
  · have hsame : s.scope.set v ⟨none, none⟩ .nil = s.scope := Forest.set_find? (hd v) hx
    simp [hsame]
  · simp [destroy, hx]

/-- Another any, on neither side of the one whose object goes. -/
theorem find?_set_apart (hd : f.Distinct) (hx : f.find? v = some (h, b))
    (hy : f.find? other = some x) (hne : other ≠ v) (hb : b.occurs other = 0)
    (hv : x.2.occurs v = 0) {c : Anys I T V} (hc : c.occurs other = 0) :
    (f.set v k c).find? other = some x := by
  rw [Forest.find?_set (hd v) hne hc (fun y hy' => by cases hx.symm.trans hy'; exact hb), hy,
    Option.map_some, Forest.set_of_occurs hv]

/-! ## Moves -/

/-- `v` has no object yet, and `manage_` of `other`. -/
theorem moveData_eq (ty : Types T V) (hd : s.scope.Distinct)
    (hv : s.scope.find? v = some (⟨h.manage, none⟩, .nil)) (ho : s.scope.find? other = some (h, b))
    (hf : Fits h b) (hne : v ≠ other) (hvb : b.occurs v = 0) :
    moveData ty v other s = { s with
      scope := (s.scope.set other (kept ty h) .nil).set v (given ty s.made h) b
      made := s.made + cost ty h } := by
  unfold moveData
  rw [manager_eq hv]
  have hself : b.occurs other = 0 := Forest.occurs_below_self (hd other) ho
  have hv' : ∀ k, (s.scope.set other k .nil).find? v = some (⟨h.manage, none⟩, .nil) := fun k =>
    find?_set_apart hd ho hv hne hvb rfl rfl
  obtain ⟨rfl, rfl⟩ | ⟨t, o, x, rfl⟩ := hf.cases
  · have hother : s.scope.set other (kept ty ⟨none, none⟩) .nil = s.scope :=
      Forest.set_find? (hd other) ho
    have hsame : s.scope.set v (given ty s.made ⟨none, none⟩) .nil = s.scope :=
      Forest.set_find? (hd v) hv
    rw [hother, hsame]
    rfl
  · simp only [move, ho]
    cases hl : localStorage ty t with
    | true =>
      simp only [if_true]
      rw [put_eq (by exact hv' _)]
      simp [kept, given, cost, hl]
    | false =>
      simp only [Bool.false_eq_true, if_false]
      rw [put_eq (by exact hv' _)]
      have hset :
          ((s.scope.set other ⟨some t, none⟩ .nil).set v ⟨some t, some (o, x)⟩ b).find? other =
            some (⟨some t, none⟩, .nil) := by
        rw [Forest.find?_set _ hne.symm hself, Forest.find?_set_self (Forest.occurs_pos ho)]
        · rfl
        · intro y hy
          cases (hv' _).symm.trans hy
          rfl
        · have hsum :
              (s.scope.set other ⟨some t, none⟩ .nil).occurs v + b.occurs v =
                s.scope.occurs v + 0 :=
            Forest.occurs_set (hd other) ho v
          have hle := hd v
          omega
      rw [setManage_eq (by exact hset)]
      simp only [kept, given, cost, hl, Bool.false_eq_true, if_false, Nat.add_zero]
      rw [Forest.set_comm hne.symm hself rfl, Forest.set_set]

theorem occurs_below_le (hd : f.Distinct) (hx : f.find? v = some (h, b)) (m : Place I) :
    (f.set v k .nil).occurs m + b.occurs m ≤ 1 := by
  have hsum : (f.set v k .nil).occurs m + b.occurs m = f.occurs m + 0 :=
    Forest.occurs_set (hd v) hx m
  have hle := hd m
  omega

theorem occurs_set_nil (hd : f.Distinct) (hx : f.find? v = some (h, b)) {m : Place I}
    (hm : f.occurs m = 0) :
    (f.set v k .nil).occurs m = 0 := by
  have hsum : (f.set v k .nil).occurs m + b.occurs m = f.occurs m + 0 :=
    Forest.occurs_set (hd v) hx m
  omega

theorem distinct_set_nil (hd : f.Distinct) (hx : f.find? v = some (h, b)) :
    (f.set v k .nil).Distinct := by
  intro m
  have hle := occurs_below_le (k := k) hd hx m
  omega

/-- No new any comes inside `other`. -/
def Outside (f : Anys I T V) (home : Option I) (other : Place I) : Prop :=
  ∀ w, home = some w → Place.var w ≠ other ∧ ¬ f.Inside (.var w) other

theorem moveConstruct_eq (ty : Types T V) (hi : Inv s) (ho : s.scope.find? other = some (h, b))
    (hv : s.scope.occurs v = 0) (hhome : Housed s.scope home) (hout : Outside s.scope home other) :
    moveConstruct ty home v other s = { s with
      scope := (s.scope.set other (kept ty h) .nil).add (home.map .var) v (given ty s.made h) b
      made := s.made + cost ty h } := by
  have hne : v ≠ other := by
    rintro rfl
    exact absurd (Forest.occurs_pos ho) (by omega)
  have hbv : b.occurs v = 0 := Nat.eq_zero_of_le_zero (hv ▸ Forest.occurs_le_of_find? ho v)
  obtain ⟨hf, -⟩ := whole_find? hi.whole ho
  have hadd :
      (s.add home v ⟨h.manage, none⟩ .nil).scope =
        s.scope.add (home.map .var) v ⟨h.manage, none⟩ .nil := rfl
  have hdistinct : (s.add home v ⟨h.manage, none⟩ .nil).scope.Distinct :=
    hi.distinct.add hhome.room hv rfl fun m => hi.distinct m
  have hfind : (s.add home v ⟨h.manage, none⟩ .nil).scope.find? other = some (h, b) := by
    rw [hadd, Forest.find?_add hi.distinct hne.symm rfl, ho]
    intro p hp
    obtain ⟨w, hw, rfl⟩ := Option.map_eq_some_iff.mp hp
    exact hout w hw
  have hself : (s.add home v ⟨h.manage, none⟩ .nil).scope.find? v = some (⟨h.manage, none⟩, .nil) :=
    Forest.find?_add_self hhome.room hv
  have hmoved := moveData_eq ty hdistinct hself hfind hf hne hbv
  simp only [moveConstruct, look_eq ho, manager_eq ho]
  rw [hmoved, hadd]
  have hset := occurs_set_nil (k := kept ty h) hi.distinct ho hv
  have hcomm : (s.scope.add (home.map .var) v ⟨h.manage, none⟩ .nil).set other (kept ty h) .nil =
      (s.scope.set other (kept ty h) .nil).add (home.map .var) v ⟨h.manage, none⟩ .nil := by
    refine Forest.set_add hne.symm (fun he => ?_) rfl fun _ _ => rfl
    obtain ⟨w, hw, rfl⟩ := Option.map_eq_some_iff.mp he
    exact (hout w hw).1 rfl
  rw [hcomm, Forest.set_add_self hset]
  rfl

omit [DecidableEq I] in
theorem cost_le_one (ty : Types T V) (h : Held T (Nat × V)) : cost ty h ≤ 1 := by
  obtain ⟨_ | t, _ | y⟩ := h
  · exact Nat.zero_le 1
  · exact Nat.zero_le 1
  · exact Nat.zero_le 1
  · simp only [cost]
    split
    · exact Nat.le_refl 1
    · exact Nat.zero_le 1

omit [DecidableEq I] in
theorem Ledger.more {f : Anys I T V} {d : Nat → Nat} {n : Nat} (hl : Ledger s) (hn : n ≤ 1)
    (hcount : ∀ o, count o f + d o = count o s.scope + s.destroyed o + if o = s.made then n else 0)
    (stale : Bool) :
    Ledger ⟨f, s.made + n, d, stale⟩ := by
  intro o
  have ho := hl o
  rw [hcount o, ho]
  dsimp only
  split_ifs <;> omega

omit [DecidableEq I] in
theorem fits_kept (ty : Types T V) (h : Held T (Nat × V)) :
    Fits (kept ty h) (.nil : Anys I T V) := by
  refine ⟨?_, fun _ => rfl⟩
  obtain ⟨_ | t, _ | ⟨o, x⟩⟩ := h
  · rfl
  · rfl
  · rfl
  · simp only [kept]
    split
    · rfl
    · rfl

omit [DecidableEq I] in
theorem Fits.given (ty : Types T V) (k : Nat) (hf : Fits h b) : Fits (given ty k h) b := by
  obtain ⟨rfl, rfl⟩ | ⟨t, o, x, rfl⟩ := hf.cases
  · exact hf
  · simp only [Any.given]
    split
    · exact fits_some _ _ _
    · exact hf

theorem housed_set (hd : s.scope.Distinct) (hhome : Housed s.scope home)
    (hout : Outside s.scope home other) : Housed (s.scope.set other k .nil) home := by
  intro w hw
  obtain ⟨x, hx, hobject⟩ := hhome w hw
  obtain ⟨hne, hinside⟩ := hout w hw
  refine ⟨(x.1, x.2.set other k .nil), ?_, hobject⟩
  rw [Forest.find?_set (hd other) hne rfl, hx, Option.map_some]
  intro y hy
  by_contra hpos
  exact hinside ⟨y, hy, Nat.pos_of_ne_zero hpos⟩

theorem Inv.moveConstruct (ty : Types T V) (hi : Inv s) (ho : s.scope.find? other = some (h, b))
    (hv : s.scope.occurs v = 0) (hhome : Housed s.scope home) (hout : Outside s.scope home other) :
    Inv (moveConstruct ty home v other s) := by
  rw [moveConstruct_eq ty hi ho hv hhome hout]
  obtain ⟨hf, hb⟩ := whole_find? hi.whole ho
  have hhome' := housed_set (k := kept ty h) hi.distinct hhome hout
  have hd := distinct_set_nil (k := kept ty h) hi.distinct ho
  have hle := occurs_below_le (k := kept ty h) hi.distinct ho
  have hbv : b.occurs v = 0 := Nat.eq_zero_of_le_zero (hv ▸ Forest.occurs_le_of_find? ho v)
  have hset := occurs_set_nil (k := kept ty h) hi.distinct ho hv
  refine ⟨hd.add hhome'.room hset hbv hle, ?_, ?_, hi.unread⟩
  · exact whole_add (whole_set hi.whole (fits_kept ty h) trivial) hd (hf.given ty s.made) hb hhome'
  · refine hi.ledger.more (cost_le_one ty h) (fun o => ?_) _
    have hadd := count_add (v := v) (h := given ty s.made h) (b := b) hd hhome'.room o
    have hcount := count_set (h := kept ty h) (b := .nil) hi.distinct ho o
    have hnumber := number_given ty s.made o h
    rw [count_nil] at hcount
    dsimp only at hcount
    omega

/-! ## Destruction -/

theorem reset_eq (hi : Inv s) (hx : s.scope.find? v = some (h, b)) :
    reset v s = { s with
      scope := s.scope.set v ⟨none, none⟩ .nil
      destroyed := fun o => s.destroyed o + (h.number o + count o b) } := by
  obtain ⟨hf, -⟩ := whole_find? hi.whole hx
  have hfind : (s.scope.set v ⟨h.manage, none⟩ .nil).find? v = some (⟨h.manage, none⟩, .nil) :=
    Forest.find?_set_self (Forest.occurs_pos hx)
  unfold reset
  rw [destroyData_eq hi.distinct hx hf, setManage_eq (by exact hfind)]
  simp only [Forest.set_set]

theorem destruct_eq (hi : Inv s) (hx : s.scope.find? v = some (h, b)) :
    destruct v s = { s with
      scope := s.scope.erase v
      destroyed := fun o => s.destroyed o + (h.number o + count o b) } := by
  obtain ⟨hf, -⟩ := whole_find? hi.whole hx
  simp only [destruct, destroyData_eq hi.distinct hx hf, Forest.erase_set]

theorem Inv.reset (hi : Inv s) (hx : s.scope.find? v = some (h, b)) : Inv (reset v s) := by
  rw [reset_eq hi hx]
  refine ⟨distinct_set_nil hi.distinct hx, whole_set hi.whole fits_null trivial, ?_, hi.unread⟩
  refine hi.ledger.more (n := 0) (Nat.zero_le 1) (fun o => ?_) _
  have hcount :
      count o (s.scope.set v ⟨none, none⟩ .nil) + (h.number o + count o b) =
        count o s.scope + (0 + 0) :=
    count_set hi.distinct hx o
  rw [ite_self]
  omega

theorem Inv.destruct (hi : Inv s) (hx : s.scope.find? v = some (h, b)) : Inv (destruct v s) := by
  rw [destruct_eq hi hx]
  refine ⟨hi.distinct.erase hx, whole_erase hi.whole, ?_, hi.unread⟩
  refine hi.ledger.more (n := 0) (Nat.zero_le 1) (fun o => ?_) _
  have hcount : count o (s.scope.erase v) + (h.number o + count o b) = count o s.scope :=
    count_erase hi.distinct hx o
  rw [ite_self]
  omega

/-! ## Move assignments -/

/-- Neither of two anys is inside the other one. -/
def Apart (s : State I T V) (v other : Place I) : Prop :=
  v ≠ other ∧ ¬ s.scope.Inside v other ∧ ¬ s.scope.Inside other v

theorem Apart.below (ha : Apart s v other) (hv : s.scope.find? v = some (h, b)) :
    b.occurs other = 0 := by
  by_contra hpos
  exact ha.2.2 ⟨_, hv, Nat.pos_of_ne_zero hpos⟩

theorem Apart.of_find? (hne : v ≠ other) (hv : s.scope.find? v = some (h, b))
    (ho : s.scope.find? other = some (k, c)) (hb : b.occurs other = 0)
    (hc : c.occurs v = 0) : Apart s v other := by
  refine ⟨hne, ?_, ?_⟩
  · rintro ⟨x, hx, hpos⟩
    cases ho.symm.trans hx
    exact absurd hc (Nat.ne_of_gt hpos)
  · rintro ⟨x, hx, hpos⟩
    cases hv.symm.trans hx
    exact absurd hb (Nat.ne_of_gt hpos)

theorem Apart.symm (ha : Apart s v other) : Apart s other v := ⟨ha.1.symm, ha.2.2, ha.2.1⟩

theorem moveAssign_eq (ty : Types T V) (hi : Inv s) (hv : s.scope.find? v = some (k, c))
    (ho : s.scope.find? other = some (h, b))
    (ha : Apart s v other) : moveAssign ty v other s = { s with
      scope := (s.scope.set other (kept ty h) .nil).set v (given ty s.made h) b
      made := s.made + cost ty h
      destroyed := fun o => s.destroyed o + (k.number o + count o c) } := by
  obtain ⟨hk, -⟩ := whole_find? hi.whole hv
  obtain ⟨hf, -⟩ := whole_find? hi.whole ho
  have hvb := ha.symm.below ho
  have hself : ∀ m : Option T, (s.scope.set v ⟨m, none⟩ .nil).find? v = some (⟨m, none⟩, .nil) :=
      fun m =>
    Forest.find?_set_self (Forest.occurs_pos hv)
  have hother : ∀ m : Option T, (s.scope.set v ⟨m, none⟩ .nil).find? other = some (h, b) := fun m =>
    find?_set_apart hi.distinct hv ho ha.1.symm (ha.below hv) hvb rfl
  simp only [moveAssign, destroyData_eq hi.distinct hv hk]
  rw [look_eq (by exact hother _), manager_eq (by exact hother _), setManage_eq (by exact hself _)]
  simp only [Forest.set_set]
  rw [moveData_eq ty (distinct_set_nil hi.distinct hv) (hself _) (hother _) hf ha.1 hvb]
  rw [Forest.set_comm ha.1.symm rfl rfl, Forest.set_set]

theorem Inv.moveAssign (ty : Types T V) (hi : Inv s) (hv : s.scope.find? v = some (k, c))
    (ho : s.scope.find? other = some (h, b))
    (ha : Apart s v other) : Inv (moveAssign ty v other s) := by
  rw [moveAssign_eq ty hi hv ho ha]
  obtain ⟨hf, hb⟩ := whole_find? hi.whole ho
  have hd := distinct_set_nil (k := kept ty h) hi.distinct ho
  have hle := occurs_below_le (k := kept ty h) hi.distinct ho
  have hv' : (s.scope.set other (kept ty h) .nil).find? v = some (k, c) :=
    find?_set_apart hi.distinct ho hv ha.1 (ha.symm.below ho) (ha.below hv) rfl
  refine ⟨hd.set hv' fun m => Nat.le_trans (hle m) (Nat.le_add_right 1 _), ?_, ?_, hi.unread⟩
  · exact whole_set (whole_set hi.whole (fits_kept ty h) trivial) (hf.given ty s.made) hb
  · refine hi.ledger.more (cost_le_one ty h) (fun o => ?_) _
    have hset :
        count o ((s.scope.set other (kept ty h) .nil).set v (given ty s.made h) b) +
          (k.number o + count o c) =
        count o (s.scope.set other (kept ty h) .nil) + ((given ty s.made h).number o + count o b) :=
          count_set hd hv' o
    have hcount : count o (s.scope.set other (kept ty h) .nil) + (h.number o + count o b) =
        count o s.scope + ((kept ty h).number o + 0) := count_set hi.distinct ho o
    have hnumber := number_given ty s.made o h
    omega

/-- An any without an object in the local buffer that is assigned to itself: the object is
destroyed, and its address goes from the any to itself. -/
theorem moveAssign_self_eq (ty : Types T V) (hi : Inv s) (hv : s.scope.find? v = some (h, b))
    (hk : kept ty h = ⟨none, none⟩) :
    moveAssign ty v v s = reset v s := by
  obtain ⟨hf, -⟩ := whole_find? hi.whole hv
  have hself : ∀ m : Option T, (s.scope.set v ⟨m, none⟩ .nil).find? v = some (⟨m, none⟩, .nil) :=
      fun m =>
    Forest.find?_set_self (Forest.occurs_pos hv)
  rw [reset_eq hi hv]
  simp only [moveAssign, destroyData_eq hi.distinct hv hf]
  rw [look_eq (by exact hself _), manager_eq (by exact hself _), setManage_eq (by exact hself _)]
  simp only [Forest.set_set, moveData]
  rw [manager_eq (by exact hself _)]
  obtain ⟨rfl, rfl⟩ | ⟨t, o, x, rfl⟩ := hf.cases
  · rfl
  · have hl : localStorage ty t = false := by
      by_contra hl
      rw [Bool.not_eq_false] at hl
      simp [kept, hl] at hk
    simp only [move, hself, hl, Bool.false_eq_true, if_false, Forest.set_set]
    rw [put_eq (by exact hself _)]
    simp only [Forest.set_set]
    rw [setManage_eq (by exact hself _)]
    simp only [Forest.set_set]

/-! ## swap -/

theorem housed_none (f : Anys I T V) : Housed f none := fun _ hw => nomatch hw

theorem outside_none (f : Anys I T V) (other : Place I) : Outside f none other :=
  fun _ hw => nomatch hw

/-- The temporary of `swap` has the object of `other`. -/
theorem moveConstruct_temp (ty : Types T V) (hi : Inv s) (ho : s.scope.find? other = some (k, c))
    (ht : s.scope.occurs .temp = 0) :
    Inv (moveConstruct ty none .temp other s) ∧
      (moveConstruct ty none .temp other s).scope =
        .node .temp (given ty s.made k) c (s.scope.set other (kept ty k) .nil) := by
  refine ⟨hi.moveConstruct ty ho ht (housed_none _) (outside_none _ _), ?_⟩
  rw [moveConstruct_eq ty hi ho ht (housed_none _) (outside_none _ _)]
  rfl

theorem find?_node_of_ne {f g : Anys I T V} (hne : p ≠ .temp) (hf : f.occurs p = 0) :
    (Forest.node .temp h f g).find? p = g.find? p := by
  rw [Forest.find?, if_neg hne, Forest.find?_eq_none_iff.mpr hf, Option.none_or]

theorem set_node_of_ne {f g : Anys I T V} (hne : p ≠ .temp) (hf : f.occurs p = 0) :
    (Forest.node .temp h f g).set p k c = .node .temp h f (g.set p k c) := by
  rw [Forest.set, if_neg hne, Forest.set_of_occurs hf]

/-- What the two anys have afterwards. -/
theorem swap_spec (ty : Types T V) (hi : Inv s) (hv : s.scope.find? v = some (h, b))
    (ho : s.scope.find? other = some (k, c)) (ha : Apart s v other)
    (ht : s.scope.occurs .temp = 0) : Inv (swap ty v other s) ∧
      ∃ m n p, (swap ty v other s).scope =
        (s.scope.set v (given ty m (given ty n k)) c).set other (given ty p h) b := by
  have hvt : v ≠ .temp := fun he => absurd (Forest.occurs_pos hv) (by rw [he]; omega)
  have hot : other ≠ .temp := fun he => absurd (Forest.occurs_pos ho) (by rw [he]; omega)
  have hbt : b.occurs .temp = 0 := Nat.eq_zero_of_le_zero (ht ▸ Forest.occurs_le_of_find? hv .temp)
  have hct : c.occurs .temp = 0 := Nat.eq_zero_of_le_zero (ht ▸ Forest.occurs_le_of_find? ho .temp)
  have hbo := ha.below hv
  have hcv := ha.symm.below ho
  have hbv : b.occurs v = 0 := Forest.occurs_below_self (hi.distinct v) hv
  have hco : c.occurs other = 0 := Forest.occurs_below_self (hi.distinct other) ho
  have hswap : swap ty v other s =
    destruct .temp (moveAssign ty v .temp
      (moveAssign ty other v (moveConstruct ty none .temp other s))) := rfl
  rw [hswap]
  -- the temporary takes the object of `other`
  obtain ⟨hi₁, e₁⟩ := moveConstruct_temp ty hi ho ht
  generalize moveConstruct ty none .temp other s = s₁ at hi₁ e₁ ⊢
  have ht₁ : s₁.scope.find? .temp = some (given ty s.made k, c) := by
    rw [e₁, Forest.find?, if_pos rfl]
  have ho₁ : s₁.scope.find? other = some (kept ty k, .nil) := by
    rw [e₁, find?_node_of_ne hot hco]
    exact Forest.find?_set_self (Forest.occurs_pos ho)
  have hv₁ : s₁.scope.find? v = some (h, b) := by
    rw [e₁, find?_node_of_ne hvt hcv]
    exact find?_set_apart hi.distinct ho hv ha.1 hcv hbo rfl
  -- `other` takes that of `v`
  have ha₁ : Apart s₁ other v := .of_find? ha.1.symm ho₁ hv₁ rfl hbo
  have hi₂ := hi₁.moveAssign ty ho₁ hv₁ ha₁
  have e₂ := congrArg State.scope (moveAssign_eq ty hi₁ ho₁ hv₁ ha₁)
  generalize moveAssign ty other v s₁ = s₂ at hi₂ e₂ ⊢
  dsimp only at e₂
  have hd₁ := distinct_set_nil (k := kept ty h) hi₁.distinct hv₁
  have ho₂ : (s₁.scope.set v (kept ty h) .nil).find? other = some (kept ty k, .nil) :=
    find?_set_apart hi₁.distinct hv₁ ho₁ ha.1.symm hbo rfl rfl
  have ht₂ : s₂.scope.find? .temp = some (given ty s.made k, c) := by
    rw [e₂]
    exact find?_set_apart hd₁ ho₂
      (find?_set_apart hi₁.distinct hv₁ ht₁ hvt.symm hbt hcv rfl) hot.symm rfl hco hbt
  have hv₂ : s₂.scope.find? v = some (kept ty h, .nil) := by
    rw [e₂]
    exact find?_set_apart hd₁ ho₂ (Forest.find?_set_self (Forest.occurs_pos hv₁)) ha.1 rfl rfl hbv
  -- and `v` that of the temporary
  have ha₂ : Apart s₂ v .temp := .of_find? hvt hv₂ ht₂ rfl hcv
  have hi₃ := hi₂.moveAssign ty hv₂ ht₂ ha₂
  have e₃ := congrArg State.scope (moveAssign_eq ty hi₂ hv₂ ht₂ ha₂)
  generalize moveAssign ty v .temp s₂ = s₃ at hi₃ e₃ ⊢
  dsimp only at e₃
  have ht₃ : s₃.scope.find? .temp = some (kept ty (given ty s.made k), .nil) := by
    have hv₃ :
        (s₂.scope.set .temp (kept ty (given ty s.made k)) .nil).find? v = some (kept ty h, .nil) :=
      find?_set_apart hi₂.distinct ht₂ hv₂ hvt hcv rfl rfl
    rw [e₃]
    exact find?_set_apart (distinct_set_nil hi₂.distinct ht₂) hv₃
      (Forest.find?_set_self (Forest.occurs_pos ht₂)) hvt.symm rfl rfl hct
  refine ⟨hi₃.destruct ht₃, s₂.made, s.made, s₁.made, ?_⟩
  rw [destruct_eq hi₃ ht₃]
  show s₃.scope.erase .temp = _
  have hcomm :
      (s.scope.set other (kept ty k) .nil).set v (kept ty h) .nil =
        (s.scope.set v (kept ty h) .nil).set other (kept ty k) .nil :=
    Forest.set_comm ha.1 rfl rfl
  rw [e₃, e₂, e₁, set_node_of_ne hvt hcv, set_node_of_ne hot hco, Forest.set, if_pos rfl,
    set_node_of_ne hvt rfl, Forest.erase, if_pos rfl, hcomm, Forest.set_set,
    Forest.set_comm ha.1 hbv hco, Forest.set_set]

/-- The any is empty while it is assigned to itself, and then gets its object back. -/
theorem swap_self_spec (ty : Types T V) (hi : Inv s) (hv : s.scope.find? v = some (h, b))
    (hk : kept ty h = ⟨none, none⟩) (ht : s.scope.occurs .temp = 0) :
    Inv (swap ty v v s) ∧
    ∃ m n, (swap ty v v s).scope = s.scope.set v (given ty m (given ty n h)) b := by
  have hvt : v ≠ .temp := fun he => absurd (Forest.occurs_pos hv) (by rw [he]; omega)
  have hbt : b.occurs .temp = 0 := Nat.eq_zero_of_le_zero (ht ▸ Forest.occurs_le_of_find? hv .temp)
  have hbv : b.occurs v = 0 := Forest.occurs_below_self (hi.distinct v) hv
  have hswap :
      swap ty v v s = destruct .temp
        (moveAssign ty v .temp (moveAssign ty v v (moveConstruct ty none .temp v s))) := rfl
  rw [hswap]
  obtain ⟨hi₁, e₁⟩ := moveConstruct_temp ty hi hv ht
  generalize moveConstruct ty none .temp v s = s₁ at hi₁ e₁ ⊢
  rw [hk] at e₁
  have hv₁ : s₁.scope.find? v = some (⟨none, none⟩, .nil) := by
    rw [e₁, find?_node_of_ne hvt hbv]
    exact Forest.find?_set_self (Forest.occurs_pos hv)
  rw [moveAssign_self_eq ty hi₁ hv₁ rfl]
  have hi₂ := hi₁.reset hv₁
  have e₂ := congrArg State.scope (reset_eq hi₁ hv₁)
  generalize reset v s₁ = s₂ at hi₂ e₂ ⊢
  dsimp only at e₂
  rw [e₁, set_node_of_ne hvt hbv, Forest.set_set] at e₂
  have ht₂ : s₂.scope.find? .temp = some (given ty s.made h, b) := by
    rw [e₂, Forest.find?, if_pos rfl]
  have hv₂ : s₂.scope.find? v = some (⟨none, none⟩, .nil) := by
    rw [e₂, find?_node_of_ne hvt hbv]
    exact Forest.find?_set_self (Forest.occurs_pos hv)
  have ha₂ : Apart s₂ v .temp := .of_find? hvt hv₂ ht₂ rfl hbv
  have hi₃ := hi₂.moveAssign ty hv₂ ht₂ ha₂
  have e₃ := congrArg State.scope (moveAssign_eq ty hi₂ hv₂ ht₂ ha₂)
  generalize moveAssign ty v .temp s₂ = s₃ at hi₃ e₃ ⊢
  dsimp only at e₃
  rw [e₂, Forest.set, if_pos rfl, set_node_of_ne hvt rfl, Forest.set_set] at e₃
  have ht₃ : s₃.scope.find? .temp = some (kept ty (given ty s.made h), .nil) := by
    rw [e₃, Forest.find?, if_pos rfl]
  refine ⟨hi₃.destruct ht₃, s₂.made, s.made, ?_⟩
  rw [destruct_eq hi₃ ht₃]
  show s₃.scope.erase .temp = _
  rw [e₃, Forest.erase, if_pos rfl]

/-! ## Other names and other numbers -/

omit [DecidableEq I] in
theorem whole_rename (names : I → I) (hf : Whole f) : Whole (f.rename (Place.map names)) := by
  induction f with
  | nil => trivial
  | node m k c r ihc ihr =>
    obtain ⟨hk, hc, hr⟩ := hf
    refine ⟨⟨hk.1, fun hnone => ?_⟩, ihc hc, ihr hr⟩
    rw [hk.2 hnone]
    rfl

omit [DecidableEq I] in
theorem whole_renumber (n : Nat) (hf : Whole f) : Whole (renumber n f) := by
  induction f generalizing n with
  | nil => trivial
  | node m k c r ihc ihr =>
    obtain ⟨hk, hc, hr⟩ := hf
    refine ⟨⟨?_, fun hnone => ?_⟩, ihc _ hc, ihr _ hr⟩
    · rw [Option.isSome_map]
      exact hk.1
    · rw [hk.2 (Option.map_eq_none_iff.mp hnone)]
      rfl

@[simp] theorem occurs_renumber (n : Nat) (f : Anys I T V) (m : Place I) :
    (renumber n f).occurs m = f.occurs m := by
  induction f generalizing n with
  | nil => rfl
  | node p k c r ihc ihr => rw [renumber, Forest.occurs_node, Forest.occurs_node, ihc, ihr]

omit [DecidableEq I] in
@[simp] theorem size_rename (names : I → I) (f : Anys I T V) :
    size (f.rename (Place.map names)) = size f :=
  Forest.sum_rename _ _ _

omit [DecidableEq I] in
theorem count_renumber (n o : Nat) (f : Anys I T V) :
    count o (renumber n f) = if n ≤ o ∧ o < n + size f then 1 else 0 := by
  induction f generalizing n with
  | nil =>
    have hno : ¬ (n ≤ o ∧ o < n + size (.nil : Anys I T V)) :=
      fun h => absurd h.2 (Nat.not_lt.mpr h.1)
    rw [if_neg hno]
    rfl
  | node p k c r ihc ihr =>
    have hcount : count o (renumber n (.node p k c r)) =
        (⟨k.manage, k.object.map fun x => (n, x.2)⟩ : Held T (Nat × V)).number o +
          count o (renumber (if k.object.isSome then n + 1 else n) c) +
            count o (renumber ((if k.object.isSome then n + 1 else n) + size c) r) := rfl
    have hsize :
        size (.node p k c r : Anys I T V) =
          (if k.object.isSome then 1 else 0) + size c + size r := rfl
    rw [hcount, hsize, ihc, ihr]
    cases hk : k.object with
    | none =>
      simp only [Option.map_none, number_none, Option.isSome_none, Bool.false_eq_true, if_false]
      split_ifs <;> omega
    | some x =>
      simp only [Held.number, Option.map_some, Option.isSome_some, if_true, Option.some.injEq]
      split_ifs <;> omega

/-! ## Construction -/

/-- Anys are in hand, on their way to a new object. -/
structure InHand (s : State I T V) (b : Anys I T V) : Prop where
  distinct : ∀ m, s.scope.occurs m + b.occurs m ≤ 1
  whole : Whole s.scope
  inside : Whole b
  ledger : ∀ o, count o s.scope + count o b + s.destroyed o = if o < s.made then 1 else 0
  unread : s.stale = false

theorem Inv.inHand (hi : Inv s) : InHand s .nil :=
  ⟨hi.distinct, hi.whole, trivial, hi.ledger, hi.unread⟩

theorem InHand.construct (hi : InHand s b) (hv : s.scope.occurs v = 0) (hb : b.occurs v = 0)
    (hhome : Housed s.scope home) (t : T)
    (x : V) : Inv { s.add home v ⟨some t, some (s.made, x)⟩ b with made := s.made + 1 } := by
  have hd : s.scope.Distinct := fun m => Nat.le_trans (Nat.le_add_right _ _) (hi.distinct m)
  refine ⟨hd.add hhome.room hv hb hi.distinct,
    whole_add hi.whole hd (fits_some t _ b) hi.inside hhome, fun o => ?_, hi.unread⟩
  have hadd : count o (s.scope.add (home.map .var) v ⟨some t, some (s.made, x)⟩ b) =
      count o s.scope + ((⟨some t, some (s.made, x)⟩ : Held T (Nat × V)).number o + count o b) :=
        count_add hd hhome.room o
  have ho := hi.ledger o
  simp only [State.add, hadd, Held.number, Option.map_some, Option.some.injEq]
  split_ifs at ho ⊢ <;> omega

theorem Inv.addNull (hi : Inv s) (hv : s.scope.occurs v = 0) (hhome : Housed s.scope home) :
    Inv (s.add home v ⟨none, none⟩ .nil) := by
  refine ⟨hi.distinct.add hhome.room hv rfl hi.distinct,
    whole_add hi.whole hi.distinct fits_null trivial hhome, fun o => ?_, hi.unread⟩
  have hadd :
      count o (s.scope.add (home.map .var) v ⟨none, none⟩ .nil) = count o s.scope + (0 + 0) :=
        count_add hi.distinct hhome.room o
  simp only [State.add, hadd]
  exact hi.ledger o

theorem Inv.abandon (hi : Inv s) (n : Nat) : Inv (s.abandon n) := by
  refine ⟨hi.distinct, hi.whole, fun o => ?_, hi.unread⟩
  have ho := hi.ledger o
  show count o s.scope + (s.destroyed o + if s.made ≤ o ∧ o < s.made + n then 1 else 0) =
    if o < s.made + n then 1 else 0
  split_ifs at ho ⊢ <;> omega

/-- The object of an any gets another value. -/
theorem Inv.leave (hi : Inv s) {m : Option T} {o : Nat} {y : V}
    (hx : s.scope.find? v = some (⟨m, some (o, y)⟩, b)) (y' : V) :
    Inv { s with scope := s.scope.set v ⟨m, some (o, y')⟩ b } := by
  obtain ⟨hf, hb⟩ := whole_find? hi.whole hx
  refine ⟨hi.distinct.set hx fun q => ?_, whole_set hi.whole ⟨hf.1, nofun⟩ hb, fun q => ?_,
    hi.unread⟩
  · have hq := hi.distinct q
    dsimp only
    omega
  · have hcount := count_set (h := ⟨m, some (o, y')⟩) (b := b) hi.distinct hx q
    have hq := hi.ledger q
    simp only [Held.number, Option.map_some] at hcount ⊢
    omega

/-- The anys inside an object are taken out. -/
theorem Inv.take (hi : Inv s) {m : Option T} {o : Nat} {y : V}
    (hx : s.scope.find? v = some (⟨m, some (o, y)⟩, b)) (y' : V) :
    InHand { s with scope := s.scope.set v ⟨m, some (o, y')⟩ .nil } b := by
  obtain ⟨hf, hb⟩ := whole_find? hi.whole hx
  refine ⟨fun q => occurs_below_le hi.distinct hx q,
    whole_set hi.whole ⟨hf.1, fun _ => rfl⟩ trivial, hb, fun q => ?_, hi.unread⟩
  have hcount := count_set (h := ⟨m, some (o, y')⟩) (b := .nil) hi.distinct hx q
  have hq := hi.ledger q
  simp only [Held.number, Option.map_some, count_nil] at hcount ⊢
  omega

/-- The anys inside an object are copied. -/
theorem Inv.copy (hi : Inv s) {w : I} {names : I → I} (hx : s.scope.find? v = some (h, b))
    (hnew : ∀ m : Place I,
      (b.rename (Place.map names)).occurs m + (if Place.var w = m then 1 else s.scope.occurs m) ≤ 1)
    (hw : s.scope.occurs (.var w) ≤ 1) :
    InHand { s with made := s.made + size b } (renumber s.made (b.rename (Place.map names))) := by
  obtain ⟨-, hb⟩ := whole_find? hi.whole hx
  refine ⟨fun m => ?_, hi.whole, whole_renumber _ (whole_rename names hb), fun o => ?_, hi.unread⟩
  · have hm := hnew m
    show s.scope.occurs m + (renumber s.made (b.rename (Place.map names))).occurs m ≤ 1
    rw [occurs_renumber]
    by_cases he : Place.var w = m
    · rw [if_pos he] at hm
      rw [← he] at hm ⊢
      omega
    · rw [if_neg he] at hm
      omega
  · have ho := hi.ledger o
    simp only [count_renumber, size_rename]
    split_ifs at ho ⊢ <;> omega

end

end Gpcl.Any
