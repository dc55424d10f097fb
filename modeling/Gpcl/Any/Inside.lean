import Gpcl.Any.Objects

/-! # Moves between an any and one inside of it

An object that is moved to an any inside of it has no other owner than itself, and an any that is
assigned from one inside of it destroys that one before it reads it. What is lost or read too late
then stays so, whatever else an operation does. -/
namespace Gpcl.Any
open Lib.Forests

variable {I T V : Type}

/-- The object has not been destroyed, and no any has it. -/
def Lost (s : State I T V) (o : Nat) : Prop :=
  o < s.made ∧ count o s.scope = 0 ∧ s.destroyed o = 0

def Broken (s : State I T V) : Prop := s.stale = true ∨ ∃ o, Lost s o

theorem Ledger.not_broken {s : State I T V} (hl : Ledger s) (hu : s.stale = false) :
    ¬ Broken s := by
  rintro (hstale | ⟨o, hmade, hcount, hdestroyed⟩)
  · exact Bool.false_ne_true (hu.symm.trans hstale)
  · have ho := hl o
    rw [if_pos hmade] at ho
    omega

variable [DecidableEq I]

section
variable {ty : Types T V} {s : State I T V} {f b c : Anys I T V} {h k : Held T (Nat × V)}
  {v other p : Place I} {o : Nat} {t : T} {x : Held T (Nat × V) × Anys I T V}

/-! ## Lost objects stay lost -/

theorem count_find? (hc : count o f = 0) (hx : f.find? v = some x) :
    x.1.number o = 0 ∧ count o x.2 = 0 := by
  have hlabel : x.1.number o ≤ count o f := Forest.label_le_of_find? (g := fun _ h => h.number o) hx
  have hbelow : count o x.2 ≤ count o f := Forest.sum_le_of_find? hx
  omega

theorem Lost.set (h : Lost s o) (hk : k.number o = 0) (hb : count o b = 0) (v : Place I) :
    Lost { s with scope := s.scope.set v k b } o :=
  ⟨h.1, Forest.sum_set_eq_zero (n := v) h.2.1 hk hb, h.2.2⟩

theorem Lost.setManage (h : Lost s o) (v : Place I) (m : Option T) : Lost (s.setManage v m) o := by
  unfold State.setManage
  split
  · rename_i k b hx
    obtain ⟨hk, hb⟩ := count_find? h.2.1 hx
    exact h.set (k := ⟨m, k.object⟩) hk hb v
  · exact h

theorem Lost.put (h : Lost s o) {y : Option (Nat × V)} (hy : y.map Prod.fst ≠ some o)
    (hb : count o b = 0) (v : Place I) : Lost (s.put v y b) o := by
  unfold State.put
  split
  · rename_i k _ _
    exact h.set (k := ⟨k.manage, y⟩) (if_neg hy) hb v
  · exact h

theorem Lost.destroyData (h : Lost s o) (v : Place I) : Lost (destroyData v s) o := by
  unfold Any.destroyData
  split
  · unfold destroy
    split
    · rename_i k b hx
      obtain ⟨hk, hb⟩ := count_find? h.2.1 hx
      refine ⟨h.1, (h.set (number_none o k.manage) (count_nil o) v).2.1, ?_⟩
      show s.destroyed o + (k.number o + count o b) = 0
      rw [h.2.2, hk, hb]
    · exact h
  · exact h

theorem Lost.move (h : Lost s o) (ty : Types T V) (t : T) (v other : Place I) :
    Lost (move ty t v other s).2 o := by
  unfold Any.move
  cases hx : s.scope.find? other with
  | none => exact h
  | some x =>
    obtain ⟨⟨m, object⟩, b⟩ := x
    obtain ⟨hk, hb⟩ := count_find? h.2.1 hx
    have hne : object.map Prod.fst ≠ some o := fun he => by simp [Held.number, he] at hk
    cases localStorage ty t with
    | true =>
      rcases object with _ | ⟨p, y⟩
      · exact h
      · have hset := h.set (k := ⟨m, some (p, ty.left t y)⟩) (if_neg hne) (count_nil o) other
        have hput := hset.put (y := some (s.made, y))
          (fun he => Nat.ne_of_gt h.1 (Option.some.inj he)) hb v
        exact ⟨Nat.lt_succ_of_lt h.1, hput.2⟩
    | false => exact (h.set (k := ⟨m, none⟩) rfl (count_nil o) other).put hne hb v

theorem Lost.moveData (h : Lost s o) (ty : Types T V) (v other : Place I) :
    Lost (moveData ty v other s) o := by
  unfold Any.moveData
  cases s.manager v with
  | none => exact h
  | some t =>
    have hmoved := h.move ty t v other
    dsimp only
    cases hm : Any.move ty t v other s with
    | mk handed s' =>
      rw [hm] at hmoved
      cases handed with
      | true => exact hmoved.setManage other none
      | false => exact hmoved

/-! ## What has been read stays read -/

theorem stale_setManage (v : Place I) (m : Option T) (s : State I T V) :
    (s.setManage v m).stale = s.stale := by
  unfold State.setManage
  split
  · rfl
  · rfl

theorem stale_put (v : Place I) (y : Option (Nat × V)) (b : Anys I T V) (s : State I T V) :
    (s.put v y b).stale = s.stale := by
  unfold State.put
  split
  · rfl
  · rfl

theorem stale_destroyData (hs : s.stale = true) (v : Place I) : (destroyData v s).stale = true := by
  unfold destroyData
  split
  · unfold destroy
    split
    · show (s.stale || _) = true
      rw [hs, Bool.true_or]
    · rfl
  · exact hs

theorem stale_move (hs : s.stale = true) (ty : Types T V) (t : T) (v other : Place I) :
    (move ty t v other s).2.stale = true := by
  unfold move
  cases s.scope.find? other with
  | none => rfl
  | some x =>
    cases localStorage ty t with
    | true =>
      obtain ⟨⟨m, _ | y⟩, b⟩ := x
      · rfl
      · exact (stale_put v _ b _).trans hs
    | false => exact (stale_put v _ _ _).trans hs

theorem stale_moveData (hs : s.stale = true) (ty : Types T V) (v other : Place I) :
    (moveData ty v other s).stale = true := by
  unfold moveData
  cases s.manager v with
  | none => exact hs
  | some t =>
    have hmoved := stale_move hs ty t v other
    dsimp only
    cases hm : move ty t v other s with
    | mk handed s' =>
      rw [hm] at hmoved
      cases handed with
      | true => exact (stale_setManage other none s').trans hmoved
      | false => exact hmoved

theorem Broken.destroyData (h : Broken s) (v : Place I) : Broken (destroyData v s) := by
  rcases h with hs | ⟨o, ho⟩
  · exact .inl (stale_destroyData hs v)
  · exact .inr ⟨o, ho.destroyData v⟩

theorem Broken.moveData (h : Broken s) (ty : Types T V) (v other : Place I) :
    Broken (moveData ty v other s) := by
  rcases h with hs | ⟨o, ho⟩
  · exact .inl (stale_moveData hs ty v other)
  · exact .inr ⟨o, ho.moveData ty v other⟩

theorem Broken.look (h : Broken s) (v : Place I) : Broken (s.look v) := by
  rcases h with hs | ⟨o, ho⟩
  · refine .inl ?_
    show (s.stale || _) = true
    rw [hs, Bool.true_or]
  · exact .inr ⟨o, ho⟩

theorem Broken.setManage (h : Broken s) (v : Place I) (m : Option T) :
    Broken (s.setManage v m) := by
  rcases h with hs | ⟨o, ho⟩
  · exact .inl ((stale_setManage v m s).trans hs)
  · exact .inr ⟨o, ho.setManage v m⟩

theorem Broken.moveAssign (h : Broken s) (ty : Types T V) (v other : Place I) :
    Broken (moveAssign ty v other s) :=
  (((h.destroyData v).look other).setManage v _).moveData ty v other

theorem Broken.destruct (h : Broken s) (v : Place I) : Broken (destruct v s) := by
  rcases h.destroyData v with hs | ⟨o, ho⟩
  · exact .inl hs
  · exact .inr ⟨o, ho.1, Forest.sum_erase_eq_zero ho.2.1, ho.2.2⟩

/-! ## A move to an any inside of the source -/

omit [DecidableEq I] in
/-- The next object has a number that no other has. -/
theorem Ledger.fresh (hl : Ledger s) : count s.made s.scope = 0 ∧ s.destroyed s.made = 0 := by
  have hmade := hl s.made
  rw [if_neg (Nat.lt_irrefl _)] at hmade
  omega

/-- The object goes where `v` is, and `v` is in the object. -/
theorem broken_moveData (ty : Types T V) (hd : s.scope.Distinct) (hl : Ledger s)
    (hv : s.manager v = some t) {m : Option T} {y : V}
    (ho : s.scope.find? other = some (⟨m, some (o, y)⟩, b)) (hb : 0 < b.occurs v) :
    Broken (moveData ty v other s) := by
  -- `v` is in no scope when `other` has been set
  have hgone : ∀ k, (s.scope.set other k .nil).find? v = none := fun k => by
    have hle := occurs_below_le (k := k) hd ho v
    exact Forest.find?_eq_none_iff.mpr (by omega)
  unfold moveData
  rw [hv]
  simp only [move, ho]
  have hcount : count o (s.scope.set other ⟨m, none⟩ .nil) +
      ((⟨m, some (o, y)⟩ : Held T (Nat × V)).number o + count o b) = count o s.scope + (0 + 0) :=
    count_set hd ho o
  have hone : (⟨m, some (o, y)⟩ : Held T (Nat × V)).number o = 1 := if_pos rfl
  have holder := hl o
  cases localStorage ty t with
  | true =>
    simp only [if_true, State.put, hgone]
    obtain ⟨hnone, hdestroyed⟩ := hl.fresh
    have ho' : o ≠ s.made := by
      rintro rfl
      omega
    refine .inr ⟨s.made, Nat.lt_succ_self _, ?_, hdestroyed⟩
    exact Forest.sum_set_eq_zero hnone (if_neg fun he => ho' (Option.some.inj he)) rfl
  | false =>
    simp only [Bool.false_eq_true, if_false, State.put, hgone]
    have hmade : o < s.made := by
      by_contra hge
      rw [if_neg hge] at holder
      omega
    rw [if_pos hmade] at holder
    have hlost : Lost { s with scope := s.scope.set other ⟨m, none⟩ .nil } o := by
      refine ⟨hmade, ?_, ?_⟩
      · show count o (s.scope.set other ⟨m, none⟩ .nil) = 0
        omega
      · show s.destroyed o = 0
        omega
    exact .inr ⟨o, hlost.setManage other none⟩

/-- An any with others inside has an object. -/
theorem Fits.object (hf : Fits h b) (hb : 0 < b.occurs v) : ∃ t o y, h = ⟨some t, some (o, y)⟩ := by
  obtain ⟨rfl, rfl⟩ | hobject := hf.cases
  · cases hb
  · exact hobject

theorem broken_moveAssign (ty : Types T V) (hi : Inv s) (hin : s.scope.Inside v other) :
    Broken (moveAssign ty v other s) := by
  obtain ⟨⟨k, c⟩, hv⟩ := Forest.occurs_pos_iff.mp hin.occurs
  have hc := Forest.inside_asymm hi.distinct hin hv
  have hne := hin.ne hi.distinct
  obtain ⟨⟨h, b⟩, ho, hb⟩ := hin
  obtain ⟨hf, -⟩ := whole_find? hi.whole ho
  obtain ⟨t, o, y, rfl⟩ := hf.object hb
  obtain ⟨hk, -⟩ := whole_find? hi.whole hv
  have hother : ∀ m : Option T, (s.scope.set v ⟨m, none⟩ .nil).find? other =
      some (⟨some t, some (o, y)⟩, b.set v ⟨m, none⟩ .nil) := fun m => by
    rw [Forest.find?_set (hi.distinct v) hne.symm rfl, ho, Option.map_some]
    intro x hx
    cases hv.symm.trans hx
    exact hc
  have hself : ∀ m : Option T, (s.scope.set v ⟨m, none⟩ .nil).find? v = some (⟨m, none⟩, .nil) :=
    fun m => Forest.find?_set_self (Forest.occurs_pos hv)
  simp only [moveAssign, destroyData_eq hi.distinct hv hk]
  rw [look_eq (by exact hother _), manager_eq (by exact hother _), setManage_eq (by exact hself _)]
  simp only [Forest.set_set]
  have hv' := Forest.find?_below hi.distinct ho hb
  have hbv : 0 < (b.set v ⟨some t, none⟩ .nil).occurs v :=
    Forest.occurs_pos (Forest.find?_set_self (l := ⟨some t, none⟩) (b := .nil) hb)
  refine broken_moveData (t := t) ty (distinct_set_nil hi.distinct hv) ?_ ?_ (hother _) hbv
  swap
  · rw [manager_eq (by exact hself _)]
  refine hi.ledger.more (n := 0) (Nat.zero_le 1) (fun o => ?_) _
  have hcount : count o (s.scope.set v ⟨some t, none⟩ .nil) + (k.number o + count o c) =
      count o s.scope + (0 + 0) := count_set hi.distinct hv o
  rw [ite_self]
  omega

/-- `push_back(std::move(other))` for a vector in `other`. -/
theorem broken_moveConstruct (ty : Types T V) (hi : Inv s) (hv : s.scope.occurs v = 0) {w : I}
    (hw : s.manager (.var w) ≠ none) (ho : 0 < s.scope.occurs other)
    (hin : Place.var w = other ∨ s.scope.Inside (.var w) other) :
    Broken (moveConstruct ty (some w) v other s) := by
  obtain ⟨⟨h, b⟩, ho⟩ := Forest.occurs_pos_iff.mp ho
  have hne : v ≠ other := by
    rintro rfl
    exact absurd (Forest.occurs_pos ho) (by omega)
  have hroom : s.scope.Room (some (.var w)) := by
    intro p hp
    cases hp
    unfold State.manager at hw
    rw [Forest.occurs_pos_iff]
    exact Option.ne_none_iff_exists'.mp fun hnone => hw (by rw [hnone]; rfl)
  obtain ⟨hf, -⟩ := whole_find? hi.whole ho
  obtain ⟨t, o, y, rfl⟩ : ∃ t o y, h = ⟨some t, some (o, y)⟩ := by
    rcases hin with rfl | ⟨x, hx, hpos⟩
    · obtain ⟨rfl, rfl⟩ | hobject := hf.cases
      · exact absurd (manager_eq ho) hw
      · exact hobject
    · cases ho.symm.trans hx
      exact hf.object hpos
  have hinside : (s.scope.plant (.var w) v ⟨some t, none⟩ .nil).Inside v other :=
    Forest.inside_plant (hi.distinct _) (Forest.occurs_pos ho) hne.symm rfl hin
  obtain ⟨⟨h', b'⟩, ho', hb'⟩ := hinside
  have hfind := Forest.find?_plant (l := (⟨some t, none⟩ : Held T (Nat × V))) (b := .nil)
    (hi.distinct (.var w)) hne.symm rfl
  rw [ho'] at hfind
  rw [ho, Option.map_some, Option.some.injEq] at hfind
  obtain ⟨rfl, -⟩ := Prod.mk.inj hfind
  simp only [moveConstruct, look_eq ho, manager_eq ho]
  refine broken_moveData (t := t) ty ?_ ?_ ?_ ho' hb'
  · exact hi.distinct.add hroom hv rfl hi.distinct
  · intro o
    have hadd : count o (s.scope.add (some (.var w)) v ⟨some t, none⟩ .nil) =
        count o s.scope + (0 + 0) := Forest.sum_add hi.distinct hroom
    have ho := hi.ledger o
    show count o (s.scope.add (some (.var w)) v ⟨some t, none⟩ .nil) + s.destroyed o = _
    rw [hadd]
    exact ho
  · rw [manager_eq (by exact Forest.find?_plant_self (hroom _ rfl) hv)]

/-! ## A move from an any that is destroyed first -/

/-- `a = std::move(any_cast<std::vector<any> &>(a)[0])`. -/
theorem stale_moveAssign_inside (ty : Types T V) (hi : Inv s) (hin : s.scope.Inside other v) :
    (moveAssign ty v other s).stale = true := by
  obtain ⟨⟨k, c⟩, hv, hc⟩ := hin
  obtain ⟨hk, -⟩ := whole_find? hi.whole hv
  have hle := occurs_below_le (k := ⟨k.manage, none⟩) hi.distinct hv other
  have hgone : (s.scope.set v ⟨k.manage, none⟩ .nil).find? other = none :=
    Forest.find?_eq_none_iff.mpr (by dsimp only at hc; omega)
  refine stale_moveData ?_ ty v other
  rw [stale_setManage, destroyData_eq hi.distinct hv hk]
  show (s.stale || ((s.scope.set v ⟨k.manage, none⟩ .nil).find? other).isNone) = true
  rw [hgone]
  exact Bool.or_true _

/-- An object in a local buffer is destroyed, and then it is read. -/
theorem stale_moveAssign_self (ty : Types T V) (hi : Inv s) {y : V}
    (hv : s.scope.find? v = some (⟨some t, some (o, y)⟩, b)) (hl : localStorage ty t = true) :
    (moveAssign ty v v s).stale = true := by
  obtain ⟨hf, -⟩ := whole_find? hi.whole hv
  have hself : (s.scope.set v ⟨some t, none⟩ .nil).find? v = some (⟨some t, none⟩, .nil) :=
    Forest.find?_set_self (Forest.occurs_pos hv)
  simp only [moveAssign, destroyData_eq hi.distinct hv hf]
  rw [look_eq (by exact hself), manager_eq (by exact hself), setManage_eq (by exact hself)]
  simp only [Forest.set_set, moveData]
  rw [manager_eq (by exact hself)]
  simp only [move, hself, hl, if_true]

/-! ## swap -/

theorem broken_swap_self (ty : Types T V) (hi : Inv s) {y : V}
    (hv : s.scope.find? v = some (⟨some t, some (o, y)⟩, b)) (hl : localStorage ty t = true)
    (ht : s.scope.occurs .temp = 0) : Broken (swap ty v v s) := by
  have hvt : v ≠ .temp := fun he => absurd (Forest.occurs_pos hv) (by rw [he]; omega)
  have hbv : b.occurs v = 0 := Forest.occurs_below_self (hi.distinct v) hv
  obtain ⟨hi₁, e₁⟩ := moveConstruct_temp ty hi hv ht
  have hv₁ : (moveConstruct ty none .temp v s).scope.find? v =
      some (⟨some t, some (o, ty.left t y)⟩, .nil) := by
    rw [e₁, find?_node_of_ne hvt hbv, Forest.find?_set_self (Forest.occurs_pos hv)]
    simp [kept, hl]
  have hread : Broken (moveAssign ty v v (moveConstruct ty none .temp v s)) :=
    .inl (stale_moveAssign_self ty hi₁ hv₁ hl)
  exact (hread.moveAssign ty v .temp).destruct .temp

/-- `other` gets the object it is inside of. -/
theorem broken_swap_of_inside (ty : Types T V) (hi : Inv s) (hin : s.scope.Inside other v)
    (ht : s.scope.occurs .temp = 0) : Broken (swap ty v other s) := by
  obtain ⟨⟨k, c⟩, ho⟩ := Forest.occurs_pos_iff.mp hin.occurs
  have hcv := Forest.inside_asymm hi.distinct hin ho
  have hne := hin.ne hi.distinct
  have hco : c.occurs other = 0 := Forest.occurs_below_self (hi.distinct other) ho
  have hset := Forest.inside_set (l := kept ty k) (b := .nil) hi.distinct hin hne.symm rfl
    fun x hx => by
      cases ho.symm.trans hx
      exact ⟨hcv, hco⟩
  obtain ⟨hi₁, e₁⟩ := moveConstruct_temp ty hi ho ht
  obtain ⟨x, hx, hpos⟩ := hset
  have hvt : v ≠ .temp := by
    rintro rfl
    obtain ⟨z, hz, -⟩ := hin
    exact absurd (Forest.occurs_pos hz) (by omega)
  have hin₁ : (moveConstruct ty none .temp other s).scope.Inside other v :=
    ⟨x, by rw [e₁, find?_node_of_ne hvt hcv, hx], hpos⟩
  exact ((broken_moveAssign ty hi₁ hin₁).moveAssign ty v .temp).destruct .temp

/-- The temporary gets the object `v` is inside of, and `v` gets it from there. -/
theorem broken_swap_inside (ty : Types T V) (hi : Inv s) (hin : s.scope.Inside v other)
    (ht : s.scope.occurs .temp = 0) : Broken (swap ty v other s) := by
  obtain ⟨⟨h, b⟩, hv⟩ := Forest.occurs_pos_iff.mp hin.occurs
  have hbo := Forest.inside_asymm hi.distinct hin hv
  have hne := hin.ne hi.distinct
  have hbv : b.occurs v = 0 := Forest.occurs_below_self (hi.distinct v) hv
  have hbt : b.occurs .temp = 0 := Nat.eq_zero_of_le_zero (ht ▸ Forest.occurs_le_of_find? hv .temp)
  obtain ⟨⟨k, c⟩, ho, hcv⟩ := hin
  have hco : c.occurs other = 0 := Forest.occurs_below_self (hi.distinct other) ho
  have hot : other ≠ .temp := fun he => absurd (Forest.occurs_pos ho) (by rw [he]; omega)
  have hvt : v ≠ .temp := fun he => absurd (Forest.occurs_pos hv) (by rw [he]; omega)
  obtain ⟨hi₁, e₁⟩ := moveConstruct_temp ty hi ho ht
  have hswap : swap ty v other s = destruct .temp
      (moveAssign ty v .temp (moveAssign ty other v (moveConstruct ty none .temp other s))) := rfl
  rw [hswap]
  generalize moveConstruct ty none .temp other s = s₁ at hi₁ e₁ ⊢
  have ho₁ : s₁.scope.find? other = some (kept ty k, .nil) := by
    rw [e₁, find?_node_of_ne hot hco]
    exact Forest.find?_set_self (Forest.occurs_pos ho)
  have hv₁ : s₁.scope.find? v = some (h, b) := by
    have hbelow : c.find? v = some (h, b) := (Forest.find?_below hi.distinct ho hcv).symm.trans hv
    rw [e₁, Forest.find?, if_neg hvt, hbelow, Option.some_or]
  have hin₁ : s₁.scope.Inside v .temp :=
    ⟨(given ty s.made k, c), by rw [e₁, Forest.find?, if_pos rfl], hcv⟩
  have ha₁ : Apart s₁ other v := .of_find? hne.symm ho₁ hv₁ rfl hbo
  have hi₂ := hi₁.moveAssign ty ho₁ hv₁ ha₁
  have e₂ := congrArg State.scope (moveAssign_eq ty hi₁ ho₁ hv₁ ha₁)
  dsimp only at e₂
  have hd₁ := distinct_set_nil (k := kept ty h) hi₁.distinct hv₁
  have hset := Forest.inside_set (l := kept ty h) (b := .nil) hi₁.distinct hin₁ hvt.symm rfl
    fun x hx => by
      cases hv₁.symm.trans hx
      exact ⟨hbt, hbv⟩
  have ho₂ : (s₁.scope.set v (kept ty h) .nil).find? other = some (kept ty k, .nil) :=
    find?_set_apart hi₁.distinct hv₁ ho₁ hne.symm hbo rfl rfl
  have hin₂ : (moveAssign ty other v s₁).scope.Inside v .temp := by
    rw [e₂]
    refine Forest.inside_set hd₁ hset hot.symm hbt fun x hx => ?_
    cases ho₂.symm.trans hx
    exact ⟨rfl, rfl⟩
  exact (broken_moveAssign ty hi₂ hin₂).destruct .temp

/-! ## A new object that takes the anys of another one along -/

variable {w w' : I} {make leave : V → V}

/-- The new any is inside of an object that comes into it. -/
theorem broken_construct (hi : Inv s) (hin : s.scope.Inside (.var w) (.var w')) (v : Place I)
    (t : T) :
    Broken (construct none (some w) v t (.content w' make leave true) s) := by
  obtain ⟨⟨h, b⟩, hw, hb⟩ := hin
  obtain ⟨hf, -⟩ := whole_find? hi.whole hw
  obtain ⟨t', o, y, rfl⟩ := hf.object hb
  obtain ⟨hnone, hdestroyed⟩ := hi.ledger.fresh
  have hle := occurs_below_le (k := ⟨some t', some (o, leave y)⟩) hi.distinct hw (.var w)
  have hgone : (s.scope.set (.var w') ⟨some t', some (o, leave y)⟩ .nil).occurs (.var w) = 0 := by
    dsimp only at hb
    omega
  have hlost : Lost { s with
      scope := s.scope.set (.var w') ⟨some t', some (o, leave y)⟩ .nil
      made := s.made + 1 } s.made := by
    refine ⟨Nat.lt_succ_self _, Forest.sum_set_eq_zero hnone ?_ rfl, hdestroyed⟩
    exact (count_find? (x := (⟨some t', some (o, y)⟩, b)) hnone hw).1
  simp only [construct, Arg.read, hw, if_true, State.add, Option.map_some, Forest.add]
  rw [Forest.plant_of_occurs hgone]
  exact .inr ⟨s.made, hlost⟩

/-- The temporary takes the any along that it is swapped with. -/
theorem broken_swapArgument (ty : Types T V) (hi : Inv s) (ha : s.scope.occurs .argument = 0)
    (ht : s.scope.occurs .temp = 0) (hin : s.scope.Inside v (.var w)) (t : T) :
    Broken (swapArgument ty v
      (construct none none .argument t (.content w make leave true) s)) := by
  obtain ⟨⟨h, b⟩, hw, hb⟩ := hin
  obtain ⟨hf, -⟩ := whole_find? hi.whole hw
  obtain ⟨t', o, y, rfl⟩ := hf.object hb
  have hba : b.occurs .argument = 0 := Nat.eq_zero_of_le_zero (ha ▸ Forest.occurs_le_of_find? hw _)
  have hbt : b.occurs .temp = 0 := Nat.eq_zero_of_le_zero (ht ▸ Forest.occurs_le_of_find? hw _)
  have hset := fun m hm =>
    occurs_set_nil (k := ⟨some t', some (o, leave y)⟩) (m := m) hi.distinct hw hm
  have hi₁ := (hi.take hw (leave y)).construct (hset _ ha) hba (housed_none _) t (make y)
  simp only [construct, Arg.read, hw, if_true]
  have hargument : (Forest.node .argument ⟨some t, some (s.made, make y)⟩ b
      (s.scope.set (.var w) ⟨some t', some (o, leave y)⟩ .nil)).find? .argument =
        some (⟨some t, some (s.made, make y)⟩, b) := by
    rw [Forest.find?, if_pos rfl]
  have ht₁ : (Forest.node .argument ⟨some t, some (s.made, make y)⟩ b
      (s.scope.set (.var w) ⟨some t', some (o, leave y)⟩ .nil)).occurs .temp = 0 := by
    rw [Forest.occurs_node, hbt, hset _ ht]
    rfl
  have hbroken := broken_swap_of_inside ty hi₁ ⟨_, hargument, hb⟩ ht₁
  unfold swapArgument
  rw [if_pos (by exact Option.isSome_iff_exists.mpr ⟨_, hargument⟩)]
  exact hbroken.destruct .argument

end

end Gpcl.Any
