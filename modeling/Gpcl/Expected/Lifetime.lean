import Gpcl.Expected.Basic

/-! # The objects of expecteds

`effect` says what each operation is meant to do to the values and errors of the variables. The copy
and the move constructor construct over the `T` that the default constructor of their base has made,
which is then never destroyed. Two assignments leave `ok_` as it should not be when a constructor
throws. A run is right exactly when it has none of these steps. -/
namespace Gpcl.Expected
open Lib.Slots Lib.Owners Lib.Runs

variable {I T E : Type}

/-- The value or error of `v`. -/
def State.contents (s : State I T E) (v : I) : Option (Option (T ⊕ E)) :=
  s.slots.content s.on (some v)

/-- `ok_` says whether the union has a live `T` or a live `unexpected<E>`, and every object that was
constructed is in one union or has been destroyed once. -/
structure Sound (s : State I T E) : Prop where
  value : ∀ v b, s.ok v = some b → (b = true ↔ (s.val v).isSome)
  error : ∀ v b, s.ok v = some b → (b = false ↔ (s.err v).isSome)
  ledger : (s.slots.ledger s.on).Sound

variable [DecidableEq I] (ty : Types T E)

def left : T ⊕ E → T ⊕ E := Sum.map ty.leftVal ty.leftErr

/-- What an operation is meant to do to the contents. -/
def effect (c : I → Option (Option (T ⊕ E))) : Act I T E → I → Option (Option (T ⊕ E))
  | .defaultConstruct v => Function.update c v (some (some (.inl ty.default)))
  | .valueConstruct v x => Function.update c v (some (some (.inl x)))
  | .errorConstruct v e => Function.update c v (some (some (.inr e)))
  | .copyConstruct v other | .copyAssign v other => Function.update c v (c other)
  | .moveConstruct v other | .moveAssign v other =>
    Function.update (Function.update c v (c other)) other ((c other).map (Option.map (left ty)))
  | .destruct v => Function.update c v none
  | .valueAssign _ throws v x | .emplace _ throws v x =>
    if throws then c else Function.update c v (some (some (.inl x)))
  | .errorAssign throws v e => if throws then c else Function.update c v (some (some (.inr e)))

structure Correct (s : State I T E) (a : Act I T E) (s' : State I T E) : Prop where
  sound : Sound s'
  contents : s'.contents = effect ty s.contents a

/-- Nothing is constructed over a live object, and no exception comes from a constructor after the
old object has been destroyed. -/
def Clean (s : State I T E) : Act I T E → Prop
  | .copyConstruct _ _ | .moveConstruct _ _ => False
  | .valueAssign _ throws v _ => s.isOk v = false → throws = false
  | .errorAssign throws v _ => s.isOk v = true → throws = false
  | _ => True

section
variable {ty} {s s' : State I T E} {v other : I} {c : I → Option (T ⊕ E)} {x y : T ⊕ E}

/-- Contents as the storages have them, with no temporary. -/
def lift (c : I → Option (T ⊕ E)) : Option I → Option (Option (T ⊕ E))
  | some v => (c v).map some
  | none => none

theorem lift_update (y : Option (T ⊕ E)) :
    lift (Function.update c v y) = Function.update (lift c) (some v) (y.map some) := by
  funext w
  cases w with
  | none => simp [lift]
  | some w =>
    by_cases hw : w = v
    · simp [lift, hw]
    · simp [lift, hw]

structure Inv (s : State I T E) (c : I → Option (T ⊕ E)) : Prop where
  holds : Holds s.slots s.on (lift c)
  kind : ∀ v, s.ok v = (c v).map Sum.isLeft

omit [DecidableEq I] in
theorem Inv.of_holds {on : Option I → Bool} (h : Holds s.slots on (lift c))
    (hk : ∀ v, s.ok v = (c v).map Sum.isLeft) : Inv s c := by
  refine ⟨h.congr ?_ rfl, hk⟩
  rw [h.on_eq]
  funext w
  cases w with
  | none => rfl
  | some w => simp [State.on, hk, lift]

omit [DecidableEq I] in
theorem Inv.initial : Inv (.initial : State I T E) fun _ => none := by
  refine Inv.of_holds (Holds.empty.congr rfl ?_) fun _ => rfl
  funext w
  cases w with
  | none => rfl
  | some w => rfl

omit [DecidableEq I] in
theorem Inv.contents (hi : Inv s c) : s.contents = Option.map some ∘ c :=
  funext fun v => hi.holds.content (some v)

omit [DecidableEq I] in
theorem Inv.exists (hi : Inv s c) (hv : s.ok v ≠ none) : ∃ x, c v = some x := by
  rw [hi.kind v] at hv
  exact Option.ne_none_iff_exists'.mp (by simpa using hv)

omit [DecidableEq I] in
theorem Inv.on (hi : Inv s c) (hv : c v = some x) : s.on (some v) = true := by
  simp [State.on, hi.kind, hv]

omit [DecidableEq I] in
theorem Inv.read (hi : Inv s c) (hv : c v = some x) : s.slots.read (some v) = some x := by
  have hread := hi.holds.read (hi.on hv)
  simpa [lift, hv] using hread.symm

omit [DecidableEq I] in
@[simp] theorem Inv.isOk (hi : Inv s c) (hv : c v = some x) : s.isOk v = x.isLeft := by
  simp [State.isOk, hi.kind, hv]

omit [DecidableEq I] in
theorem Inv.val (hi : Inv s c) (hv : c v = some x) : s.val v = x.getLeft? := by
  simp [State.val, hi.read hv]

omit [DecidableEq I] in
theorem Inv.err (hi : Inv s c) (hv : c v = some x) : s.err v = x.getRight? := by
  simp [State.err, hi.read hv]

omit [DecidableEq I] in
theorem Inv.sound (hi : Inv s c) : Sound s := by
  refine ⟨?_, ?_, hi.holds.sound⟩
  · intro v b hb
    obtain ⟨x, hx⟩ := hi.exists (v := v) (by simp [hb])
    rw [hi.kind v, hx] at hb
    rw [hi.val hx, ← Option.some.inj hb]
    cases x with
    | inl x => simp
    | inr e => simp
  · intro v b hb
    obtain ⟨x, hx⟩ := hi.exists (v := v) (by simp [hb])
    rw [hi.kind v, hx] at hb
    rw [hi.err hx, ← Option.some.inj hb]
    cases x with
    | inl x => simp
    | inr e => simp

/-! ## One object -/

/-- The storage `v` has the object `x` now. -/
theorem kind_update {f : I → Option Bool} (hk : ∀ w, f w = (c w).map Sum.isLeft) (x : T ⊕ E)
    (w : I) :
    Function.update f v (some x.isLeft) w = (Function.update c v (some x) w).map Sum.isLeft := by
  by_cases hw : w = v
  · simp [hw]
  · simp [hw, hk]

theorem Inv.construct (hi : Inv s c) (hv : s.ok v = none) (x : T ⊕ E) :
    Inv (State.setOk v x.isLeft
      { s with slots := (s.slots.clear (some v)).construct (some v) (some x) })
        (Function.update c v (some x)) := by
  have hoff : s.on (some v) = false := by simp [State.on, hv]
  refine Inv.of_holds (((hi.holds.clear hoff).construct hoff (some x)).congr rfl ?_)
    (kind_update hi.kind x)
  exact lift_update (some x)

theorem Inv.assign (hi : Inv s c) (hv : c v = some x) (hxy : y.isLeft = x.isLeft) :
    Inv { s with slots := s.slots.assign (some v) (some y) } (Function.update c v (some y)) := by
  refine Inv.of_holds ((hi.holds.assign (hi.on hv) (some y)).congr rfl (lift_update (some y))) ?_
  intro w
  rw [← kind_update hi.kind y w, hxy]
  have hok : s.ok v = some x.isLeft := by simp [hi.kind, hv]
  rw [← hok, Function.update_eq_self]

/-- The object is destroyed and another one constructed in its place. -/
theorem Inv.replace (hi : Inv s c) (hv : c v = some x) (y : T ⊕ E) :
    Inv (State.setOk v y.isLeft
      { s with slots := (s.slots.destroyAt (some v)).construct (some v) (some y) })
        (Function.update c v (some y)) := by
  have hmade := (hi.holds.destroyAt (hi.on hv)).construct (v := some v) (Function.update_self _ _ _)
    (some y)
  refine Inv.of_holds (hmade.congr rfl ?_) (kind_update hi.kind y)
  rw [lift_update, Function.update_idem]
  rfl

theorem Inv.leave (hi : Inv s c) (hv : c v = some x) :
    Inv { s with slots := s.slots.assign (some v) (some (Expected.left ty x)) }
      (Function.update c v (some (Expected.left ty x))) := by
  refine hi.assign hv ?_
  cases x with
  | inl x => rfl
  | inr e => rfl

/-! ## The operations -/

theorem Inv.copyAssign (hi : Inv s c) (hv : c v = some x) (ho : c other = some y) :
    Inv (Expected.copyAssign v other s) (Function.update c v (some y)) := by
  unfold Expected.copyAssign
  simp only [hi.isOk hv, hi.isOk ho, hi.val ho, hi.err ho]
  cases x with
  | inl x =>
    cases y with
    | inl y => exact hi.assign hv rfl
    | inr e => exact hi.replace hv (.inr e)
  | inr x =>
    cases y with
    | inl y => exact hi.replace hv (.inl y)
    | inr e => exact hi.assign hv rfl

/-- The source of a move keeps an object. -/
theorem Inv.leaveVal {x : T} (hi : Inv s c) (hv : c v = some (.inl x)) :
    Inv (Expected.leaveVal ty v s) (Function.update c v (some (Expected.left ty (.inl x)))) := by
  unfold Expected.leaveVal
  rw [hi.val hv]
  exact hi.leave hv

theorem Inv.leaveErr {e : E} (hi : Inv s c) (hv : c v = some (.inr e)) :
    Inv (Expected.leaveErr ty v s) (Function.update c v (some (Expected.left ty (.inr e)))) := by
  unfold Expected.leaveErr
  rw [hi.err hv]
  exact hi.leave hv

theorem Inv.moveAssign (hi : Inv s c) (hv : c v = some x) (ho : c other = some y) :
    Inv (Expected.moveAssign ty v other s)
      (Function.update (Function.update c v (some y)) other (some (Expected.left ty y))) := by
  have hsource : Function.update c v (some y) other = some y := by
    by_cases h : other = v
    · simp [h]
    · simp [h, ho]
  unfold Expected.moveAssign
  simp only [hi.isOk hv, hi.isOk ho, hi.val ho, hi.err ho]
  cases x with
  | inl x =>
    cases y with
    | inl y => exact (hi.assign (y := .inl y) hv rfl).leaveVal hsource
    | inr e => exact (hi.replace hv (.inr e)).leaveErr hsource
  | inr x =>
    cases y with
    | inl y => exact (hi.replace hv (.inl y)).leaveVal hsource
    | inr e => exact (hi.assign (y := .inr e) hv rfl).leaveErr hsource

theorem Inv.destruct (hi : Inv s c) (hv : c v = some x) :
    Inv (Expected.destruct v s) (Function.update c v none) := by
  refine Inv.of_holds ((hi.holds.destroyAt (hi.on hv)).congr rfl (lift_update none)) ?_
  intro w
  by_cases hw : w = v
  · simp [Expected.destruct, hw]
  · simp [Expected.destruct, State.destroyAt, hw, hi.kind]

theorem Inv.errorAssign {throws : Bool} (hi : Inv s c) (hv : c v = some x) (e : E)
    (ht : x.isLeft = true → throws = false) :
    Inv (Expected.errorAssign throws v e s)
      (if throws then c else Function.update c v (some (.inr e))) := by
  unfold Expected.errorAssign
  rw [hi.isOk hv]
  cases x with
  | inl x =>
    rw [ht rfl]
    exact hi.replace hv (.inr e)
  | inr x =>
    cases throws with
    | true => exact hi
    | false => exact hi.assign hv rfl

/-! ## With a temporary -/

theorem Inv.constructTmp (hi : Inv s c) (z : T ⊕ E) :
    Holds (s.constructTmp (some z)).slots (Function.update s.on none true)
      (Function.update (lift c) none (some (some z))) :=
  hi.holds.construct rfl (some z)

omit [DecidableEq I] in
theorem tmp_of_holds {on : Option I → Bool} {d : Option I → Option (Option (T ⊕ E))}
    {z : Option (T ⊕ E)} (h : Holds s.slots on d) (hz : d none = some z) : s.tmp = z := by
  have hread := h.read (v := none) (by simp [h.on_eq, hz])
  exact Option.some.inj (hread.symm.trans hz)

theorem Inv.tmp (hi : Inv s c) (z : T ⊕ E) : (s.constructTmp (some z)).tmp = some z :=
  tmp_of_holds (hi.constructTmp z) (Function.update_self _ _ _)

/-- The temporary is destroyed, and nothing but it. -/
theorem Inv.of_tmp {on : Option I → Bool} {z : Option (T ⊕ E)}
    (h : Holds s.slots on (Function.update (lift c) none (some z)))
    (hk : ∀ w, s.ok w = (c w).map Sum.isLeft) : Inv s.destroyTmp c := by
  have hon : on none = true := by
    rw [h.on_eq]
    simp
  refine Inv.of_holds ((h.destroyAt hon).congr rfl ?_) hk
  rw [Function.update_idem]
  exact (Function.update_eq_self none (lift c)).symm

/-- What the object in `v` is replaced by while there is a temporary. -/
theorem tmp_update (z : Option (T ⊕ E)) (y : T ⊕ E) :
    Function.update (lift (Function.update c v (some y))) none (some z) =
    Function.update (Function.update (lift c) none (some z)) (some v) (some (some y)) := by
  rw [lift_update, Function.update_comm (Option.some_ne_none v)]
  rfl

theorem Holds.replace {slots : Storages (Option I) (T ⊕ E)} {on : Option I → Bool}
    {z : Option (T ⊕ E)} (h : Holds slots on (Function.update (lift c) none (some z)))
    (hv : on (some v) = true) (y : T ⊕ E) :
    Holds ((slots.destroyAt (some v)).construct (some v) (some y))
      (Function.update (Function.update on (some v) false) (some v) true)
      (Function.update (lift (Function.update c v (some y))) none (some z)) := by
  refine ((h.destroyAt hv).construct (v := some v) (Function.update_self _ _ _) (some y)).congr
    rfl ?_
  rw [tmp_update, Function.update_idem]

theorem Inv.emplace {nothrow throws : Bool} (hi : Inv s c) (hv : c v = some x) (y : T) :
    Inv (Expected.emplace nothrow throws v y s)
      (if throws then c else Function.update c v (some (.inl y))) := by
  have hon : Function.update s.on none true (some v) = true := by
    rw [Function.update_of_ne (Option.some_ne_none v)]
    exact hi.on hv
  unfold Expected.emplace
  cases throws with
  | true => exact hi
  | false =>
    have htmp := hi.constructTmp (.inl y)
    simp only [Bool.false_eq_true, if_false, hi.isOk hv, hi.tmp]
    cases x with
    | inl x =>
      refine Inv.of_tmp ((htmp.assign hon (some (.inl y))).congr rfl (tmp_update _ _)) ?_
      exact (hi.assign (y := .inl y) hv rfl).kind
    | inr e =>
      cases nothrow with
      | true => exact hi.replace hv (.inl y)
      | false =>
        have hread : (State.destroyAt v (s.constructTmp (some (.inl y)))).tmp = some (.inl y) := by
          refine tmp_of_holds (htmp.destroyAt hon) ?_
          simp
        simp only [hread]
        exact Inv.of_tmp (Holds.replace htmp hon (.inl y)) (kind_update hi.kind (.inl y))

/-- The error is kept in a temporary and the union is empty. -/
theorem Inv.keepError (ty : Types T E) (hi : Inv s c) (hv : c v = some x) (e : E) :
    ∃ on, on (some v) = false ∧
    Holds ((Expected.leaveErr ty v (s.constructTmp (some (.inr e)))).destroyAt v).slots on
      (Function.update (Function.update (lift c) none (some (some (.inr e)))) (some v) none) := by
  have hon : Function.update s.on none true (some v) = true := by
    rw [Function.update_of_ne (Option.some_ne_none v)]
    exact hi.on hv
  have hleft := (hi.constructTmp (.inr e)).assign hon
    ((((s.constructTmp (some (.inr e))).err v).map ty.leftErr).map Sum.inr)
  refine ⟨_, ?_, (hleft.destroyAt hon).congr rfl ?_⟩
  · rw [Function.update_self]
  · rw [Function.update_idem]

/-- Something is constructed in the union, and the temporary goes. -/
theorem Inv.after_keepError (ty : Types T E) (hi : Inv s c) (hv : c v = some x) (e : E)
    (y : T ⊕ E) :
    Inv (State.setOk v y.isLeft
      { ok := s.ok
        slots := ((Expected.leaveErr ty v (s.constructTmp (some (.inr e)))).destroyAt
          v).slots.construct (some v) (some y) }).destroyTmp
      (Function.update c v (some y)) := by
  obtain ⟨on, hoff, hkept⟩ := hi.keepError ty hv e
  refine Inv.of_tmp (z := some (.inr e)) ((hkept.construct hoff (some y)).congr rfl ?_)
    (kind_update hi.kind y)
  rw [tmp_update, Function.update_idem]

theorem Inv.valueAssign {nothrow throws : Bool} (hi : Inv s c) (hv : c v = some x) (y : T)
    (ht : x.isLeft = false → throws = false) :
    Inv (Expected.valueAssign ty nothrow throws v y s)
      (if throws then c else Function.update c v (some (.inl y))) := by
  unfold Expected.valueAssign
  simp only [hi.isOk hv, hi.err hv]
  cases x with
  | inl x =>
    cases throws with
    | true => exact hi
    | false => exact hi.assign hv rfl
  | inr e =>
    rw [ht rfl]
    cases nothrow with
    | true => exact hi.replace hv (.inl y)
    | false => exact hi.after_keepError _ hv e (.inl y)

/-! ## The steps that go wrong -/

/-- The error has been put back, and `ok_` is true. -/
theorem not_sound_valueAssign (hi : Inv s c) {e : E} (hv : c v = some (.inr e)) (y : T) :
    ¬ Sound (valueAssign ty false true v y s) := by
  obtain ⟨on, -, hkept⟩ := hi.keepError ty hv e
  have htmp :
      ((leaveErr ty v (s.constructTmp (some (.inr e)))).destroyAt v).tmp = some (.inr e) := by
    refine tmp_of_holds hkept ?_
    simp
  have hback := hi.after_keepError ty hv e (.inr e)
  have herr : (valueAssign ty false true v y s).err v = some e := by
    unfold valueAssign
    simp only [hi.isOk hv, hi.err hv]
    simp only [Sum.getRight?_inr, Option.map_some, htmp]
    exact hback.err (Function.update_self _ _ _)
  have hok : (valueAssign ty false true v y s).ok v = some true := by
    unfold valueAssign
    simp [hi.isOk hv, State.destroyTmp, State.setOk]
  intro hs
  have hfalse := (hs.error v true hok).mpr (by simp [herr])
  cases hfalse

/-- The value has been destroyed, and `ok_` is true. -/
theorem not_sound_errorAssign (hi : Inv s c) {y : T} (hv : c v = some (.inl y)) (e : E) :
    ¬ Sound (errorAssign true v e s) := by
  have hstate : errorAssign true v e s = s.destroyAt v := by
    unfold errorAssign
    simp [hi.isOk hv]
  have hempty : (s.destroyAt v).val v = none := by
    obtain ⟨o, ho, -, -⟩ := hi.holds.object (hi.on hv)
    simp [State.val, State.destroyAt, Storages.read, Storages.destroyAt, ho]
  have hok : (s.destroyAt v).ok v = some true := by
    simp [State.destroyAt, hi.kind, hv]
  intro hs
  rw [hstate] at hs
  have hlive := (hs.value v true hok).mp rfl
  simp [hempty] at hlive

theorem on_setOk {b : Bool} (hv : s.ok v ≠ none) : (s.setOk v b).on = s.on := by
  funext w
  cases w with
  | none => rfl
  | some w =>
    by_cases hw : w = v
    · subst hw
      simp [State.on, State.setOk, Option.isSome_iff_ne_none.mpr hv]
    · simp [State.on, State.setOk, hw]

/-- An object is constructed over a live one. -/
theorem not_sound_constructOver (hi : Inv s c) (hv : c v = some x) {b : Bool} {z : Option (T ⊕ E)}
    (ht : s'.slots.ledger s'.on = (s.slots.construct (some v) z).ledger (s.setOk v b).on) :
    ¬ Sound s' := by
  obtain ⟨o, ho, hd, -⟩ := hi.holds.object (hi.on hv)
  intro hs
  have hledger := hs.ledger
  rw [ht, on_setOk (by simp [hi.kind, hv])] at hledger
  have hmade : s.slots.made ≤ (s.slots.construct (some v) z).made := Nat.le_succ _
  refine hi.holds.not_sound_of_lost (hi.on hv) ho hmade ?_ ?_ hd hledger
  · intro w hw
    simp [Storages.ledger, Storages.construct, hw]
  · have hlt := hi.holds.issued (some v) o ho
    simp only [Storages.ledger, Storages.construct, hi.on hv, Function.update_self, if_true, ne_eq,
      Option.some.injEq]
    omega

theorem Inv.defaultConstruct (ty : Types T E) (hi : Inv s c) (hv : s.ok v = none) :
    Inv (Expected.defaultConstruct ty v s) (Function.update c v (some (.inl ty.default))) :=
  hi.construct hv (.inl ty.default)

theorem not_sound_copyConstruct (hi : Inv s c) (hv : s.ok v = none) :
    ¬ Sound (copyConstruct ty v other s) := by
  have hmade := hi.defaultConstruct ty hv
  unfold copyConstruct
  simp only
  split
  · exact not_sound_constructOver hmade (Function.update_self _ _ _) rfl
  · exact not_sound_constructOver hmade (Function.update_self _ _ _) rfl

theorem not_sound_moveConstruct (hi : Inv s c) (hv : s.ok v = none) :
    ¬ Sound (moveConstruct ty v other s) := by
  have hmade := hi.defaultConstruct ty hv
  unfold moveConstruct
  simp only
  split
  · exact not_sound_constructOver hmade (Function.update_self _ _ _) ledger_assign
  · exact not_sound_constructOver hmade (Function.update_self _ _ _) ledger_assign

/-! ## Steps and runs -/

/-- A clean step does what it is meant to do. -/
theorem Inv.exec (ty : Types T E) (hi : Inv s c) {a : Act I T E} (hl : Legal s a)
    (hclean : Clean s a) :
    ∃ d, Inv (exec ty s a) d ∧ effect ty (Option.map some ∘ c) a = Option.map some ∘ d := by
  cases a with
  | defaultConstruct v =>
    exact ⟨_, hi.defaultConstruct _ hl, by simp [effect, Function.comp_update]⟩
  | valueConstruct v x =>
    exact ⟨_, hi.construct hl (.inl x), by simp [effect, Function.comp_update]⟩
  | errorConstruct v e =>
    exact ⟨_, hi.construct hl (.inr e), by simp [effect, Function.comp_update]⟩
  | copyConstruct v other => exact hclean.elim
  | moveConstruct v other => exact hclean.elim
  | destruct v =>
    obtain ⟨x, hx⟩ := hi.exists hl
    exact ⟨_, hi.destruct hx, by simp [effect, Function.comp_update]⟩
  | copyAssign v other =>
    obtain ⟨x, hx⟩ := hi.exists hl.1
    obtain ⟨y, hy⟩ := hi.exists hl.2
    refine ⟨_, hi.copyAssign hx hy, ?_⟩
    simp [effect, Function.comp_update, hy]
  | moveAssign v other =>
    obtain ⟨x, hx⟩ := hi.exists hl.1
    obtain ⟨y, hy⟩ := hi.exists hl.2
    refine ⟨_, hi.moveAssign hx hy, ?_⟩
    simp [effect, Function.comp_update, hy]
  | valueAssign nothrow throws v x =>
    obtain ⟨y, hy⟩ := hi.exists hl.1
    refine ⟨_, hi.valueAssign hy x fun hleft => hclean ((hi.isOk hy).trans hleft), ?_⟩
    cases throws with
    | true => rfl
    | false => simp [effect, Function.comp_update]
  | errorAssign throws v e =>
    obtain ⟨y, hy⟩ := hi.exists hl
    refine ⟨_, hi.errorAssign hy e fun hleft => hclean ((hi.isOk hy).trans hleft), ?_⟩
    cases throws with
    | true => rfl
    | false => simp [effect, Function.comp_update]
  | emplace nothrow throws v x =>
    obtain ⟨y, hy⟩ := hi.exists hl.1
    refine ⟨_, hi.emplace hy x, ?_⟩
    cases throws with
    | true => rfl
    | false => simp [effect, Function.comp_update]

theorem clean_of_sound (hi : Inv s c) {a : Act I T E} (hl : Legal s a) (h : Sound (exec ty s a)) :
    Clean s a := by
  cases a with
  | copyConstruct v other => exact not_sound_copyConstruct hi hl.1 h
  | moveConstruct v other => exact not_sound_moveConstruct hi hl.1 h
  | valueAssign nothrow throws v x =>
    intro hok
    obtain ⟨y, hy⟩ := hi.exists hl.1
    cases y with
    | inl y => simp [hi.isOk hy] at hok
    | inr e =>
      cases throws with
      | false => rfl
      | true =>
        cases nothrow with
        | true => exact hl.2 rfl hok
        | false => exact (not_sound_valueAssign hi hy x h).elim
  | errorAssign throws v e =>
    intro hok
    obtain ⟨y, hy⟩ := hi.exists hl
    cases y with
    | inl y =>
      cases throws with
      | false => rfl
      | true => exact (not_sound_errorAssign hi hy e h).elim
    | inr y => simp [hi.isOk hy] at hok
  | _ => trivial

theorem step_deterministic : Deterministic (Step (I := I) ty) := by
  intro s a t u h h'
  exact h.2.symm.trans h'.2

theorem run_exec {as : List (Act I T E)} (h : Run (Step ty) .initial as s) (a : Act I T E)
    (hl : Legal s a) :
    Run (Step ty) .initial (as ++ [a]) (exec ty s a) := h.snoc ⟨hl, rfl⟩

end

/-- Every step of a run keeps `ok_`, the contents and the objects right exactly when every step is
clean. -/
theorem expecteds_right_iff_clean {as : List (Act I T E)} {s : State I T E}
    (h : Run (Step ty) .initial as s) :
    (∀ bs a cs s₁ s₂, as = bs ++ a :: cs → Run (Step ty) .initial bs s₁ → Step ty s₁ a s₂ →
      Correct ty s₁ a s₂) ↔
      ∀ bs a cs s₁, as = bs ++ a :: cs → Run (Step ty) .initial bs s₁ → Clean s₁ a := by
  refine h.each_iff step_deterministic (J := fun t => ∃ c, Inv t c) ⟨_, Inv.initial⟩ ?_ ?_
  · intro t a u hJ hstep hclean
    obtain ⟨c, hi⟩ := hJ
    obtain ⟨hl, rfl⟩ := hstep
    obtain ⟨d, hd, heffect⟩ := hi.exec ty hl hclean
    refine ⟨⟨d, hd⟩, hd.sound, ?_⟩
    rw [hd.contents, hi.contents, heffect]
  · intro t a u hJ hstep hcorrect
    obtain ⟨c, hi⟩ := hJ
    obtain ⟨hl, rfl⟩ := hstep
    exact clean_of_sound hi hl hcorrect.sound

/-- A move leaves 0 behind. -/
def numbers : Types Nat Nat := ⟨0, fun _ => 0, fun _ => 0⟩

theorem expecteds_right_of_assignments :
    ∃ (as : List (Act Nat Nat Nat)) (s : State Nat Nat Nat), Run (Step numbers) .initial as s ∧
    s.contents 0 = some (some (.inr 7)) ∧ s.contents 1 = some (some (.inl 9)) ∧
    ∀ bs a cs s₁ s₂, as = bs ++ a :: cs → Run (Step numbers) .initial bs s₁ → Step numbers s₁ a s₂ →
    Correct numbers s₁ a s₂ := by
  have h₀ : Run (Step numbers) (.initial : State Nat Nat Nat) [] .initial := .nil
  have h₁ := run_exec h₀ (.valueConstruct 0 5) rfl
  have h₂ := run_exec h₁ (.errorConstruct 1 7) rfl
  have h₃ := run_exec h₂ (.copyAssign 0 1) ⟨nofun, nofun⟩
  have h₄ := run_exec h₃ (.emplace false false 1 9) ⟨nofun, nofun⟩
  refine ⟨_, _, h₄, rfl, rfl, (expecteds_right_iff_clean _ h₄).mpr ?_⟩
  refine h₃.steps_snoc step_deterministic
    (h₂.steps_snoc step_deterministic (h₁.steps_snoc step_deterministic ?_ trivial) trivial) trivial
  exact Run.steps_snoc step_deterministic .nil steps_nil trivial

/-- `expected<T, E> a(5); expected<T, E> b(a);`: three objects have been constructed, two are in `a`
and `b`, and none has been destroyed. -/
theorem copy_over_default :
    ∃ s₁ s₂ : State Nat Nat Nat, Run (Step numbers) .initial [.valueConstruct 0 5] s₁ ∧
    Step numbers s₁ (.copyConstruct 1 0) s₂ ∧ s₂.slots.made = 3 ∧ s₂.slots.obj (some 0) = some 0 ∧
    s₂.slots.obj (some 1) = some 2 ∧
    s₂.slots.destroyed 1 = 0 ∧ ¬ Correct numbers s₁ (.copyConstruct 1 0) s₂ := by
  have h₀ : Run (Step numbers) (.initial : State Nat Nat Nat) [] .initial := .nil
  have h₁ := run_exec h₀ (.valueConstruct 0 5) rfl
  refine ⟨_, _, h₁, ⟨⟨rfl, nofun⟩, rfl⟩, rfl, rfl, rfl, rfl, ?_⟩
  intro h
  obtain ⟨c, hi, -⟩ := Inv.initial.exec numbers (a := .valueConstruct 0 5) (by rfl) trivial
  exact clean_of_sound hi (a := .copyConstruct 1 0) ⟨rfl, nofun⟩ h.sound

end Gpcl.Expected
