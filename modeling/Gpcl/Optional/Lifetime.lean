import Gpcl.Optional.Basic

/-! # The objects of optionals

Contents are a map from variables to values, and `effect` says what each operation is meant to do to
it. Three kinds of operations do not do it. The copy constructor copies from its own storage,
conversions from an rvalue clear the flag of an object that they do not destroy, and a move
assignment to itself ends with an empty optional. A run is right exactly when it never comes to
these branches. -/
namespace Gpcl.Optional
open Lib.Slots Lib.Owners Lib.Runs

variable {I V : Type}

/-- The value of `v`, if it has one; the value itself is `none` when it was read where there was no
object. -/
def State.contents (s : State I V) (v : I) : Option (Option V) := s.slots.content s.on v

/-- `has_val_` is true exactly where there is a live object, and every object that was constructed
is in one optional or has been destroyed once. -/
structure Sound (s : State I V) : Prop where
  flag : ∀ v b, s.hasVal v = some b → (b = true ↔ s.slots.Live v)
  ledger : (s.slots.ledger s.on).Sound

variable [DecidableEq I] (ts : Types I V)

/-- What an operation is meant to do to the contents. -/
def effect (c : I → Option (Option V)) : Act I V → I → Option (Option V)
  | .empty _ => c
  | .construct v x | .valueAssign v x | .emplace v x => Function.update c v (some (some x))
  | .copyConstruct v other | .copyAssign v other => Function.update c v (c other)
  | .moveConstruct v other | .moveAssign v other =>
    Function.update (Function.update c other none) v (c other)
  | .convertConstruct v other | .convertAssign v other =>
    Function.update c v ((c other).map (Option.map (ts.convert (ts.type other) (ts.type v))))
  | .convertMoveConstruct v other | .convertMoveAssign v other =>
    Function.update (Function.update c other none) v
      ((c other).map (Option.map (ts.convert (ts.type other) (ts.type v))))
  | .reset v | .destruct v => Function.update c v none

structure Correct (s : State I V) (a : Act I V) (s' : State I V) : Prop where
  sound : Sound s'
  contents : s'.contents = effect ts s.contents a

/-- The branches that go wrong are not taken. -/
def Clean (s : State I V) : Act I V → Prop
  | .copyConstruct _ other | .convertMoveConstruct _ other | .convertMoveAssign _ other =>
    s.on other = false
  | .moveAssign v other => v = other → s.on v = false
  | _ => True

section
variable {ts} {s s' : State I V} {v other : I} {b : Bool} {c : I → Option (Option V)} {x : Option V}

theorem on_setHasVal : (s.setHasVal v b).on = Function.update s.on v b := by
  funext w
  by_cases hw : w = v
  · simp [State.on, State.setHasVal, hw]
  · simp [State.on, State.setHasVal, hw]

@[simp] theorem val_setHasVal : (s.setHasVal v b).val = s.val := rfl

@[simp] theorem val_empty : (empty v s).val v = none := by
  simp [State.val, Storages.read, empty, Storages.clear]

omit [DecidableEq I] in
theorem on_of_not_legal (h : s.hasVal v = none) : s.on v = false := by
  simp [State.on, h]

theorem on_empty (h : s.hasVal v = none) : (empty v s).on = s.on := by
  have hset : (empty v s).on = Function.update s.on v false := on_setHasVal (s := s)
  rw [hset, ← on_of_not_legal h, Function.update_eq_self]

/-- The contents of a state, and that every value is one. -/
structure Inv (s : State I V) (c : I → Option (Option V)) : Prop where
  holds : Holds s.slots s.on c
  determinate : ∀ v, c v ≠ some none

omit [DecidableEq I] in
theorem Inv.contents (hi : Inv s c) : s.contents = c := funext hi.holds.content

omit [DecidableEq I] in
theorem Inv.sound (hi : Inv s c) : Sound s := by
  refine ⟨?_, hi.holds.sound⟩
  intro v b hb
  rw [hi.holds.live_iff v]
  simp [State.on, hb]

omit [DecidableEq I] in
theorem Inv.initial : Inv (.initial : State I V) fun _ => none := ⟨Holds.empty, nofun⟩

omit [DecidableEq I] in
theorem Inv.val (hi : Inv s c) (hv : s.on v = true) : c v = some (s.val v) := hi.holds.read hv

/-! ## What the operations do when they are right -/

theorem Inv.empty (hi : Inv s c) (h : s.hasVal v = none) : Inv (Optional.empty v s) c := by
  refine ⟨?_, hi.determinate⟩
  rw [on_empty h]
  exact hi.holds.clear (on_of_not_legal h)

theorem determinate_update (hd : ∀ v, c v ≠ some none) {y : Option (Option V)}
    (hy : y ≠ some none) :
    ∀ w, Function.update c v y w ≠ some none := by
  intro w
  by_cases hw : w = v
  · rw [hw, Function.update_self]
    exact hy
  · rw [Function.update_of_ne hw]
    exact hd w

/-- A value is constructed and the flag set, in either order. -/
theorem Inv.construct (hi : Inv s c) (hv : s.on v = false) (hx : x ≠ none) :
    Inv ((s.construct v x).setHasVal v true) (Function.update c v (some x)) := by
  refine ⟨?_, determinate_update hi.determinate fun he => hx (Option.some.inj he)⟩
  rw [on_setHasVal]
  exact hi.holds.construct hv x

theorem Inv.destroyAt (hi : Inv s c) (hv : s.on v = true) :
    Inv ((s.destroyAt v).setHasVal v false) (Function.update c v none) := by
  refine ⟨?_, determinate_update hi.determinate nofun⟩
  rw [on_setHasVal]
  exact hi.holds.destroyAt hv

theorem Inv.assign (hi : Inv s c) (hv : s.on v = true) (hx : x ≠ none) :
    Inv (s.assign v x) (Function.update c v (some x)) :=
  ⟨hi.holds.assign hv x, determinate_update hi.determinate fun he => hx (Option.some.inj he)⟩

omit [DecidableEq I] in
theorem Inv.val_ne (hi : Inv s c) (hv : s.on v = true) : s.val v ≠ none := by
  intro he
  refine hi.determinate v ?_
  rw [hi.val hv, he]

omit [DecidableEq I] in
theorem Inv.off (hi : Inv s c) (hv : s.on v = false) : c v = none := hi.holds.off hv

theorem Inv.update_off (hi : Inv s c) (hv : s.on v = false) : Function.update c v none = c := by
  rw [← hi.off hv, Function.update_eq_self]

/-- What an operation that takes the value of another optional ends with, in the four cases of the
flags. -/
theorem Inv.copyAssign (hi : Inv s c) :
    Inv (Optional.copyAssign v other s) (Function.update c v (c other)) := by
  unfold Optional.copyAssign
  split
  · next hv ho =>
    rw [hi.val ho]
    exact hi.assign hv (hi.val_ne ho)
  · next hv ho =>
    rw [hi.off ho]
    exact hi.destroyAt hv
  · next hv ho =>
    rw [hi.val ho]
    exact hi.construct hv (hi.val_ne ho)
  · next hv ho =>
    rw [hi.off ho, hi.update_off hv]
    exact hi

theorem Inv.convertAssign (hi : Inv s c) (f : V → V) :
    Inv (Optional.convertAssign f v other s)
      (Function.update c v ((c other).map (Option.map f))) := by
  have hmap : s.on other = true → (s.val other).map f ≠ none :=
    fun ho => by simpa using hi.val_ne ho
  unfold Optional.convertAssign
  split
  · next hv ho =>
    rw [hi.val ho]
    exact hi.assign hv (hmap ho)
  · next hv ho =>
    rw [hi.off ho]
    exact hi.destroyAt hv
  · next hv ho =>
    rw [hi.val ho]
    exact hi.construct hv (hmap ho)
  · next hv ho =>
    rw [hi.off ho, Option.map_none, hi.update_off hv]
    exact hi

theorem Inv.moveAssign (hi : Inv s c) (hne : v = other → s.on v = false) :
    Inv (Optional.moveAssign v other s)
      (Function.update (Function.update c other none) v (c other)) := by
  unfold Optional.moveAssign
  split
  · next hv ho =>
    have hvo : v ≠ other := fun he => by simp [hne he] at hv
    rw [Function.update_comm hvo.symm, hi.val ho]
    exact (hi.assign hv (hi.val_ne ho)).destroyAt ho
  · next hv ho =>
    rw [hi.update_off ho, hi.off ho]
    exact hi.destroyAt hv
  · next hv ho =>
    have hvo : v ≠ other := fun he => by simp [← he, hv] at ho
    have hmade := hi.construct hv (hi.val_ne ho)
    have hon : ((s.construct v (s.val other)).setHasVal v true).on other = true := by
      rw [on_setHasVal, Function.update_of_ne hvo.symm]
      exact ho
    rw [Function.update_comm hvo.symm, hi.val ho]
    exact hmade.destroyAt hon
  · next hv ho =>
    rw [hi.update_off ho, hi.off ho, hi.update_off hv]
    exact hi

/-- A source without a value: the constructors from an rvalue or a copy have nothing to do. -/
theorem Inv.constructEmpty (hi : Inv s c) (hv : s.hasVal v = none) (ho : s.on other = false) :
    Inv (((Optional.empty v s).setHasVal v false).setHasVal other false)
      (Function.update (Function.update c other none) v (c other)) := by
  have hoff := on_of_not_legal hv
  have hi' := hi.empty hv
  rw [hi.update_off ho, hi.off ho, hi.update_off hoff]
  refine ⟨hi'.holds.congr ?_ rfl, hi.determinate⟩
  rw [on_setHasVal, on_setHasVal, on_empty hv]
  nth_rewrite 1 [← hoff]
  rw [Function.update_eq_self, ← ho, Function.update_eq_self]

theorem Inv.moveConstruct (hi : Inv s c) (hv : s.hasVal v = none) (ho : s.hasVal other ≠ none) :
    Inv (Optional.moveConstruct v other s)
      (Function.update (Function.update c other none) v (c other)) := by
  have hvo : v ≠ other := fun he => ho (he ▸ hv)
  have hoff := on_of_not_legal hv
  have hi' := hi.empty hv
  have hval : (Optional.empty v s).on = s.on := on_empty hv
  have hon :
      (((Optional.empty v s).setHasVal v (s.on other)).setHasVal other false).on v =
        s.on other := by
    rw [on_setHasVal, Function.update_of_ne hvo, on_setHasVal, Function.update_self]
  have hstate : Optional.moveConstruct v other s = if s.on other then
      ((((Optional.empty v s).construct v ((Optional.empty v s).val other)).setHasVal v
        true).destroyAt other).setHasVal other false
      else ((Optional.empty v s).setHasVal v false).setHasVal other false := by
    unfold Optional.moveConstruct
    simp only [hval, hon]
    split
    · next h =>
      rw [h]
      rfl
    · next h => rw [Bool.eq_false_iff.mpr h]
  rw [hstate]
  split
  · next h =>
    have hmade := hi'.construct (v := v) (x := (Optional.empty v s).val other)
      (by rw [hval]; exact hoff)
      (hi'.val_ne (by rw [hval]; exact h))
    rw [Function.update_comm hvo.symm, hi'.val (by rw [hval]; exact h)]
    refine hmade.destroyAt ?_
    rw [on_setHasVal, Function.update_of_ne hvo.symm]
    exact (congrFun hval other).trans h
  · next h =>
    exact hi.constructEmpty hv (Bool.eq_false_iff.mpr h)

theorem Inv.convertConstruct (hi : Inv s c) (hv : s.hasVal v = none) (f : V → V) :
    Inv (Optional.convertConstruct f v other s)
      (Function.update c v ((c other).map (Option.map f))) := by
  have hoff := on_of_not_legal hv
  have hi' := hi.empty hv
  have hval : (Optional.empty v s).on = s.on := on_empty hv
  have hon : ((Optional.empty v s).setHasVal v (s.on other)).on v = s.on other := by
    rw [on_setHasVal, Function.update_self]
  unfold Optional.convertConstruct
  simp only [hval, hon]
  split
  · next h =>
    have hmap : ((Optional.empty v s).val other).map f ≠ none := by
      simpa using hi'.val_ne (by rw [hval]; exact h)
    rw [hi'.val (by rw [hval]; exact h), h]
    exact hi'.construct (by rw [hval]; exact hoff) hmap
  · next h =>
    have h := Bool.eq_false_iff.mpr h
    rw [hi.off h, Option.map_none, hi.update_off hoff, h]
    refine ⟨hi'.holds.congr ?_ rfl, hi.determinate⟩
    rw [on_setHasVal, hval, ← hoff, Function.update_eq_self]

theorem Inv.reset (hi : Inv s c) : Inv (Optional.reset v s) (Function.update c v none) := by
  unfold Optional.reset
  split
  · next hv => exact hi.destroyAt hv
  · next hv =>
    rw [hi.update_off (Bool.eq_false_iff.mpr hv)]
    exact hi

theorem Inv.destruct (hi : Inv s c) : Inv (Optional.destruct v s) (Function.update c v none) := by
  have hon : ∀ s : State I V,
      (⟨Function.update s.hasVal v none, s.slots⟩ : State I V).on =
        Function.update s.on v false := by
    intro s
    funext w
    by_cases hw : w = v
    · simp [State.on, hw]
    · simp [State.on, hw]
  unfold Optional.destruct
  split
  · next hv =>
    refine ⟨?_, (hi.destroyAt hv).determinate⟩
    dsimp only
    rw [hon]
    exact hi.holds.destroyAt hv
  · next hv =>
    have hv := Bool.eq_false_iff.mpr hv
    rw [hi.update_off hv]
    refine ⟨hi.holds.congr ?_ rfl, hi.determinate⟩
    rw [hon, ← hv, Function.update_eq_self]

theorem Inv.emplace (hi : Inv s c) (y : V) :
    Inv (Optional.emplace v y s) (Function.update c v (some (some y))) := by
  unfold Optional.emplace
  split
  · next hv =>
    have hmade := (hi.destroyAt hv).construct (v := v) (x := some y)
      (by rw [on_setHasVal, Function.update_self]) nofun
    rw [Function.update_idem] at hmade
    exact hmade
  · next hv => exact hi.construct (Bool.eq_false_iff.mpr hv) nofun

theorem Inv.valueAssign (hi : Inv s c) (y : V) :
    Inv (Optional.valueAssign v y s) (Function.update c v (some (some y))) := by
  unfold Optional.valueAssign
  split
  · next hv => exact hi.assign hv nofun
  · next hv => exact hi.construct (Bool.eq_false_iff.mpr hv) nofun

theorem Inv.copyConstruct (hi : Inv s c) (hv : s.hasVal v = none) (ho : s.on other = false) :
    Inv (Optional.copyConstruct v other s) (Function.update c v (c other)) := by
  have hoff := on_of_not_legal hv
  have hstate : Optional.copyConstruct v other s = (Optional.empty v s).setHasVal v false := by
    unfold Optional.copyConstruct
    simp [on_empty hv, ho, on_setHasVal]
  rw [hstate, hi.off ho, hi.update_off hoff]
  refine ⟨(hi.empty hv).holds.congr ?_ rfl, hi.determinate⟩
  rw [on_setHasVal, on_empty hv, ← hoff, Function.update_eq_self]

theorem Inv.convertMoveConstruct (hi : Inv s c) (hv : s.hasVal v = none) (hvo : v ≠ other)
    (ho : s.on other = false) (f : V → V) :
    Inv (Optional.convertMoveConstruct f v other s)
      (Function.update (Function.update c other none) v ((c other).map (Option.map f))) := by
  have hstate :
      Optional.convertMoveConstruct f v other s =
        ((Optional.empty v s).setHasVal v false).setHasVal other false := by
    unfold Optional.convertMoveConstruct
    simp [on_empty hv, ho, on_setHasVal, hvo]
  have hempty := hi.constructEmpty hv ho
  rw [hi.off ho] at hempty ⊢
  rw [hstate]
  exact hempty

theorem Inv.convertMoveAssign (hi : Inv s c) (ho : s.on other = false) (f : V → V) :
    Inv (Optional.convertMoveAssign f v other s)
      (Function.update (Function.update c other none) v ((c other).map (Option.map f))) := by
  rw [hi.update_off ho, hi.off ho, Option.map_none]
  unfold Optional.convertMoveAssign
  rw [ho]
  cases hv : s.on v with
  | true => exact hi.destroyAt hv
  | false =>
    rw [hi.update_off hv]
    exact hi

theorem Inv.exec (hi : Inv s c) {a : Act I V} (hl : Legal ts s a) (hclean : Clean s a) :
    Inv (exec ts s a) (effect ts c a) := by
  cases a with
  | empty v => exact hi.empty hl
  | construct v x =>
    refine (hi.empty hl).construct ?_ nofun
    rw [on_empty hl]
    exact on_of_not_legal hl
  | copyConstruct v other => exact hi.copyConstruct hl.1 hclean
  | moveConstruct v other => exact hi.moveConstruct hl.1 hl.2.1
  | convertConstruct v other => exact hi.convertConstruct hl.1 _
  | convertMoveConstruct v other =>
    exact hi.convertMoveConstruct hl.1 (fun he => hl.2.2 (congrArg ts.type he)) hclean _
  | destruct v => exact hi.destruct
  | reset v => exact hi.reset
  | copyAssign v other => exact hi.copyAssign
  | moveAssign v other => exact hi.moveAssign hclean
  | valueAssign v x => exact hi.valueAssign x
  | convertAssign v other => exact hi.convertAssign _
  | convertMoveAssign v other => exact hi.convertMoveAssign hclean _
  | emplace v x => exact hi.emplace x

/-! ## The branches that go wrong -/

omit [DecidableEq I] in
/-- A flag that was cleared over a live object. -/
theorem not_sound_of_left (hflag : s'.hasVal v = some false) (hlive : s'.slots.Live v) :
    ¬ Sound s' := by
  intro hs
  cases (hs.flag v false hflag).mpr hlive

/-- The copy is made of what the new storage held. -/
theorem not_correct_copyConstruct (ts : Types I V) (hi : Inv s c) (hv : s.hasVal v = none)
    (ho : s.on other = true) :
    (copyConstruct v other s).contents v ≠ effect ts s.contents (.copyConstruct v other) v := by
  have hstate : copyConstruct v other s = ((empty v s).setHasVal v true).construct v none := by
    unfold copyConstruct
    simp [on_empty hv, ho, on_setHasVal]
  have hon : (((empty v s).setHasVal v true).construct v none).on v = true := by
    simp [State.construct, State.setHasVal, State.on]
  have hnone : (copyConstruct v other s).contents v = some none := by
    rw [hstate, State.contents, Storages.content, if_pos hon]
    simp [State.construct, Storages.construct]
  rw [hnone, hi.contents]
  simp only [effect, Function.update_self]
  exact (hi.determinate other).symm

/-- An optional that has been moved to itself is empty. -/
theorem not_correct_moveAssign (ts : Types I V) (hi : Inv s c) (hv : s.on v = true) :
    (moveAssign v v s).contents v ≠ effect ts s.contents (.moveAssign v v) v := by
  have hnone : (moveAssign v v s).contents v = none := by
    have hon : (moveAssign v v s).on v = false := by
      unfold moveAssign
      simp [hv, on_setHasVal]
    rw [State.contents, Storages.content, hon]
    rfl
  rw [hnone, hi.contents]
  simp only [effect, Function.update_self]
  rw [hi.val hv]
  exact Ne.symm (Option.some_ne_none _)

theorem not_sound_convertMoveConstruct (hi : Inv s c) (hv : s.hasVal v = none) (hvo : v ≠ other)
    (ho : s.on other = true) (f : V → V) :
    ¬ Sound (convertMoveConstruct f v other s) := by
  obtain ⟨o, hobj, hd, -⟩ := hi.holds.object ho
  have hstate :
      convertMoveConstruct f v other s =
        (((empty v s).setHasVal v true).setHasVal other false).construct v
      (((empty v s).val other).map f) := by
    unfold convertMoveConstruct
    simp [on_empty hv, ho, on_setHasVal, hvo]
  rw [hstate]
  refine not_sound_of_left (v := other) ?_ ⟨o, ?_, hd⟩
  · simp [State.construct, State.setHasVal]
  · simp [State.construct, State.setHasVal, Storages.construct, empty, Storages.clear, hvo.symm,
      hobj]

theorem not_sound_convertMoveAssign (hi : Inv s c) (hvo : v ≠ other) (ho : s.on other = true)
    (f : V → V) :
    ¬ Sound (convertMoveAssign f v other s) := by
  obtain ⟨o, hobj, hd, -⟩ := hi.holds.object ho
  unfold convertMoveAssign
  rw [ho]
  cases hv : s.on v with
  | true =>
    obtain ⟨p, hp, -, -⟩ := hi.holds.object hv
    refine not_sound_of_left (v := other) ?_ ⟨o, ?_, ?_⟩
    · simp [State.setHasVal]
    · simp [State.setHasVal, State.assign, Storages.assign, hp, hobj]
    · simp [State.setHasVal, State.assign, Storages.assign, hp, hd]
  | false =>
    refine not_sound_of_left (v := other) ?_ ⟨o, ?_, hd⟩
    · simp [State.setHasVal]
    · simp [State.setHasVal, State.construct, Storages.construct, hvo.symm, hobj]

theorem clean_of_correct (hi : Inv s c) {a : Act I V} (hl : Legal ts s a)
    (h : Correct ts s a (exec ts s a)) : Clean s a := by
  cases a with
  | copyConstruct v other =>
    refine Bool.eq_false_iff.mpr fun ho => ?_
    exact not_correct_copyConstruct ts hi hl.1 ho (congrFun h.contents v)
  | convertMoveConstruct v other =>
    refine Bool.eq_false_iff.mpr fun ho => ?_
    exact not_sound_convertMoveConstruct hi hl.1
      (fun he => hl.2.2 (congrArg ts.type he)) ho _ h.sound
  | convertMoveAssign v other =>
    refine Bool.eq_false_iff.mpr fun ho => ?_
    exact not_sound_convertMoveAssign hi (fun he => hl.2.2 (congrArg ts.type he)) ho _ h.sound
  | moveAssign v other =>
    intro he
    subst he
    refine Bool.eq_false_iff.mpr fun hv => ?_
    exact not_correct_moveAssign ts hi hv (congrFun h.contents v)
  | _ => trivial

theorem step_deterministic : Deterministic (Step (I := I) ts) := by
  intro s a t u h h'
  exact h.2.symm.trans h'.2

theorem run_exec {as : List (Act I V)} (h : Run (Step ts) .initial as s) (a : Act I V)
    (hl : Legal ts s a) :
    Run (Step ts) .initial (as ++ [a]) (exec ts s a) := h.snoc ⟨hl, rfl⟩

end

/-- Every step of a run keeps the flags, the values and the objects right exactly when no step takes
one of these branches. -/
theorem optionals_right_iff_clean {as : List (Act I V)} {s : State I V}
    (h : Run (Step ts) .initial as s) :
    (∀ bs a cs s₁ s₂, as = bs ++ a :: cs → Run (Step ts) .initial bs s₁ → Step ts s₁ a s₂ →
      Correct ts s₁ a s₂) ↔
      ∀ bs a cs s₁, as = bs ++ a :: cs → Run (Step ts) .initial bs s₁ → Clean s₁ a := by
  refine h.each_iff step_deterministic (J := fun t => ∃ c, Inv t c) ⟨_, Inv.initial⟩ ?_ ?_
  · intro t a u hJ hstep hclean
    obtain ⟨c, hi⟩ := hJ
    obtain ⟨hl, rfl⟩ := hstep
    have hi' := hi.exec hl hclean
    refine ⟨⟨_, hi'⟩, hi'.sound, ?_⟩
    rw [hi'.contents, hi.contents]
  · intro t a u hJ hstep hcorrect
    obtain ⟨c, hi⟩ := hJ
    obtain ⟨hl, rfl⟩ := hstep
    exact clean_of_correct hi hl hcorrect

/-- Variables of one element type. -/
def oneType : Types Nat Nat := ⟨fun _ => 0, fun _ _ => id⟩

/-- `std::swap` of two optionals with a value: a temporary, which ends empty, and two
assignments. -/
theorem optionals_right_of_exchange :
    ∃ (as : List (Act Nat Nat)) (s : State Nat Nat), Run (Step oneType) .initial as s ∧
    s.contents 0 = some (some 7) ∧ s.contents 1 = some (some 5) ∧ s.hasVal 2 = none ∧
    ∀ bs a cs s₁ s₂, as = bs ++ a :: cs → Run (Step oneType) .initial bs s₁ → Step oneType s₁ a s₂ →
    Correct oneType s₁ a s₂ := by
  have h₀ : Run (Step oneType) .initial [] .initial := .nil
  have h₁ := run_exec h₀ (.construct 0 5) rfl
  have h₂ := run_exec h₁ (.construct 1 7) rfl
  have h₃ := run_exec h₂ (.moveConstruct 2 0) ⟨rfl, nofun, rfl⟩
  have h₄ := run_exec h₃ (.moveAssign 0 1) ⟨nofun, nofun, rfl⟩
  have h₅ := run_exec h₄ (.moveAssign 1 2) ⟨nofun, nofun, rfl⟩
  have h₆ := run_exec h₅ (.destruct 2) nofun
  refine ⟨_, _, h₆, rfl, rfl, rfl, (optionals_right_iff_clean _ h₆).mpr ?_⟩
  have k₁ := h₀.steps_snoc (G := Clean) (a := .construct 0 5) step_deterministic steps_nil trivial
  have k₂ := h₁.steps_snoc (a := .construct 1 7) step_deterministic k₁ trivial
  have k₃ := h₂.steps_snoc (a := .moveConstruct 2 0) step_deterministic k₂ trivial
  have k₄ := h₃.steps_snoc (a := .moveAssign 0 1) step_deterministic k₃ nofun
  have k₅ := h₄.steps_snoc (a := .moveAssign 1 2) step_deterministic k₄ nofun
  exact h₅.steps_snoc step_deterministic k₅ trivial

/-- `optional<T> a(5); optional<T> b(a);`: `b` has no value that comes from `a`. -/
theorem copy_not_of_source :
    ∃ s₁ s₂ : State Nat Nat, Run (Step oneType) .initial [.construct 0 5] s₁ ∧
    Step oneType s₁ (.copyConstruct 1 0) s₂ ∧ s₁.contents 0 = some (some 5) ∧
    s₂.contents 1 = some none ∧
    ¬ Correct oneType s₁ (.copyConstruct 1 0) s₂ := by
  refine ⟨_, _, .single ⟨rfl, rfl⟩, ⟨⟨rfl, nofun, rfl⟩, rfl⟩, rfl, rfl, ?_⟩
  intro h
  cases congrFun h.contents 1

end Gpcl.Optional
