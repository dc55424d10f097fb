import Gpcl.Lib.Objects

/-! # Exceptions in the assignments of expected

An expected whose constructors may throw, and what one assignment or `emplace` leaves of it. The
variants of each operation are chosen by what is declared not to throw; what is so declared does not
throw. `T` is not `void`: there a value is no object. -/
namespace Gpcl.Expected.Throws
open Lib.Objects

variable {V W : Type}

/-- `ok_` and the object that is alive in the storage. `raised` says that a constructor of `T` has
thrown for the new value. -/
structure Stored (V W : Type) where
  ok : Bool
  alive : Option (V ⊕ W)
  raised : Bool

/-- An expected with a value or an error. -/
def holding : V ⊕ W → Stored V W
  | .inl v => ⟨true, some (.inl v), false⟩
  | .inr e => ⟨false, some (.inr e), false⟩

/-- The types: `is_trivially_copyable` of both, and what does not throw. `construct` is `T` from the
arguments, `convert` is `E` from the error of another type. -/
structure Traits where
  trivial : Bool
  construct : Bool
  copyT : Bool
  moveT : Bool
  assignT : Bool
  copyE : Bool
  moveE : Bool
  assignE : Bool
  convert : Bool

/-- The evaluations of one operation. -/
inductive Place
  -- `tmp`, or the temporary of an assignment
  | tmp
  -- what is made of `tmp`
  | fromTmp
  | place
  -- in a handler
  | restore
  | assign
deriving DecidableEq

section
variable (throws : Place → Bool)

def evaluate (x : Place) (nothrow : Bool) : Prog (Stored V W) Unit := fun s =>
  if throws x = true ∧ nothrow = false then .thrown s else .ok () s

/-- The evaluation is a constructor of `T` for the new value. -/
def evaluateT (x : Place) (nothrow : Bool) : Prog (Stored V W) Unit := fun s =>
  if throws x = true ∧ nothrow = false then .thrown { s with raised := true } else .ok () s

/-- `val_.T::~T()`. -/
def destroyVal : Prog (Stored V W) Unit := fun s =>
  match s.alive with
  | some (.inl _) => .ok () { s with alive := none }
  | _ => .fault

/-- `err_.unexpected<E>::~unexpected()`. -/
def destroyErr : Prog (Stored V W) Unit := fun s =>
  match s.alive with
  | some (.inr _) => .ok () { s with alive := none }
  | _ => .fault

/-- The object that has been constructed in the storage. -/
def put (x : V ⊕ W) : Prog (Stored V W) Unit := fun s =>
  match s.alive with
  | none => .ok () { s with alive := some x }
  | some _ => .fault

/-- `::new (&val_) T(...)`. -/
def newVal (x : Place) (nothrow : Bool) (v : V) : Prog (Stored V W) Unit := do
  evaluateT throws x nothrow
  put (.inl v)

/-- `::new (&err_) unexpected<E>(...)`. -/
def newErr (x : Place) (nothrow : Bool) (e : W) : Prog (Stored V W) Unit := do
  evaluate throws x nothrow
  put (.inr e)

/-- The old value is constructed again. -/
def restoreVal (nothrow : Bool) (v : V) : Prog (Stored V W) Unit := do
  evaluate throws .restore nothrow
  put (.inl v)

def setOk (b : Bool) : Prog (Stored V W) Unit := fun s => .ok () { s with ok := b }

/-- `val_ = ...` or `err_ = ...`. -/
def assign (nothrow : Bool) (x : V ⊕ W) : Prog (Stored V W) Unit := do
  evaluate throws .assign nothrow
  fun s => .ok () { s with alive := some x }

/-- `try p catch (...) { handler }`. -/
def swallow (p handler : Prog (Stored V W) Unit) : Prog (Stored V W) Unit := fun s =>
  match p s with
  | .thrown s => handler s
  | r => r

variable (t : Traits)

/-- `operator=(U &&)`; the handler does not throw again. -/
def valueAssign (v : V) : V ⊕ W → Prog (Stored V W) Unit
  | .inl _ => assign throws t.assignT (.inl v)
  | .inr e =>
    if t.construct then do
      destroyErr
      newVal throws .place t.construct v
      setOk true
    else do
      evaluate throws .tmp t.moveE
      destroyErr
      swallow (newVal throws .place t.construct v) (newErr throws .restore t.moveE e)
      setOk true

/-- The two overloads of `emplace`. -/
def emplace (v : V) : V ⊕ W → Prog (Stored V W) Unit
  | .inl _ => do
    evaluateT throws .tmp t.construct
    assign throws t.assignT (.inl v)
  | .inr e =>
    if t.construct then do
      destroyErr
      newVal throws .place t.construct v
      setOk true
    else if t.moveT then do
      evaluateT throws .tmp t.construct
      destroyErr
      newVal throws .fromTmp t.moveT v
      setOk true
    else do
      evaluate throws .tmp t.moveE
      destroyErr
      Prog.onThrow (newVal throws .place t.construct v) (newErr throws .restore t.moveE e)
      setOk true

/-- The members are copied as they are. -/
def trivialAssign (other : V ⊕ W) : Prog (Stored V W) Unit :=
  fun s => .ok () { holding other with raised := s.raised }

/-- `operator=(const expected_copy_assign_base &)`. -/
def copyAssign (other this : V ⊕ W) : Prog (Stored V W) Unit :=
  if t.trivial then trivialAssign other
  else match this, other with
  | .inl _, .inl v => assign throws t.assignT (.inl v)
  | .inl v, .inr e =>
    if t.copyE then do
      destroyVal
      newErr throws .place t.copyE e
      setOk false
    else if t.moveE then do
      evaluate throws .tmp t.copyE
      destroyVal
      newErr throws .fromTmp t.moveE e
      setOk false
    else do
      evaluate throws .tmp t.copyT
      destroyVal
      Prog.onThrow (newErr throws .place t.copyE e) (restoreVal throws t.copyT v)
      setOk false
  | .inr e, .inl v =>
    if t.copyT then do
      destroyErr
      newVal throws .place t.copyT v
      setOk true
    else if t.moveT then do
      evaluateT throws .tmp t.copyT
      destroyErr
      newVal throws .fromTmp t.moveT v
      setOk true
    else do
      evaluate throws .tmp t.copyE
      destroyErr
      Prog.onThrow (newVal throws .place t.copyT v) (newErr throws .restore t.moveE e)
      setOk true
  | .inr _, .inr e => assign throws t.assignE (.inr e)

/-- `operator=(expected_move_assign_base &&)`. -/
def moveAssign (other this : V ⊕ W) : Prog (Stored V W) Unit :=
  if t.trivial then trivialAssign other
  else match this, other with
  | .inl _, .inl v => assign throws t.assignT (.inl v)
  | .inl v, .inr e =>
    if t.moveE then do
      destroyVal
      newErr throws .place t.moveE e
      setOk false
    else do
      evaluate throws .tmp t.moveT
      destroyVal
      Prog.onThrow (newErr throws .place t.moveE e) (restoreVal throws t.copyT v)
      setOk false
  | .inr e, .inl v =>
    if t.moveT then do
      destroyErr
      newVal throws .place t.moveT v
      setOk true
    else do
      evaluate throws .tmp t.moveE
      destroyErr
      Prog.onThrow (newVal throws .place t.moveT v) (newErr throws .restore t.moveE e)
      setOk true
  | .inr _, .inr e => assign throws t.assignE (.inr e)

/-- `operator=(const unexpected<G> &)` and `operator=(unexpected<G> &&)`. -/
def errorAssign (e : W) : V ⊕ W → Prog (Stored V W) Unit
  | .inl _ => do
    destroyVal
    newErr throws .place t.convert e
    setOk false
  | .inr _ => assign throws t.assignE (.inr e)

end

inductive Op (V W : Type)
  | valueAssign (v : V)
  | emplace (v : V)
  | copyAssign (other : V ⊕ W)
  | moveAssign (other : V ⊕ W)
  | errorAssign (e : W)

/-- The operation on an expected with this value or error. -/
def Op.run (t : Traits) (throws : Place → Bool) (this : V ⊕ W) : Op V W → Prog (Stored V W) Unit
  | .valueAssign v => Throws.valueAssign throws t v this
  | .emplace v => Throws.emplace throws t v this
  | .copyAssign other => Throws.copyAssign throws t other this
  | .moveAssign other => Throws.moveAssign throws t other this
  | .errorAssign e => Throws.errorAssign throws t e this

/-- What the operation asks of the types. -/
def Op.Enabled (t : Traits) : Op V W → Prop
  | .valueAssign _ => t.construct = true ∨ t.moveE = true
  | .copyAssign _ => t.trivial = true ∨ t.moveE = true ∨ t.moveT = true
  | .moveAssign _ => t.trivial = true ∨ t.moveE = true
  | .emplace _ | .errorAssign _ => True

/-- `ok_` is true exactly when a `T` is alive. -/
def Settled (s : Stored V W) : Prop := s.ok = true ↔ ∃ v, s.alive = some (.inl v)

/-- The result leaves `ok_` right, and where a constructor of `T` has thrown the caller sees it and
the old error is still there. -/
structure Kept (this : V ⊕ W) (r : Res (Stored V W) Unit) : Prop where
  settled : Prog.Post r (fun _ => Settled) Settled
  strong : ∀ e s, this = .inr e → (r = .ok () s ∨ r = .thrown s) → s.raised = true → r = .thrown s ∧
    s.ok = false ∧ s.alive = some (.inr e)

/-- The exception is swallowed or leaves no object. -/
def Lost (t : Traits) (throws : Place → Bool) : Op V W → V ⊕ W → Prop
  | .valueAssign _, .inr _ => t.construct = false ∧ throws .place = true
  | .emplace _, .inr _ => t.construct = false ∧ t.moveT = false ∧ t.moveE = false ∧
      throws .tmp = false ∧ throws .place = true ∧ throws .restore = true
  | .copyAssign (.inr _), .inl _ =>
    t.trivial = false ∧ t.copyE = false ∧ t.moveE = false ∧ t.copyT = false ∧
      throws .tmp = false ∧ throws .place = true ∧ throws .restore = true
  | .errorAssign _, .inl _ => t.convert = false ∧ throws .place = true
  | _, _ => False

/-! ## What each step does -/

section
variable {throws : Place → Bool} {t : Traits} {x : Place} {nothrow nothrow' : Bool} {b r : Bool}
    {v : V} {e : W}
  {p : Unit → Prog (Stored V W) Unit}

@[simp] theorem evaluate_bind (s : Stored V W) :
    (evaluate throws x nothrow >>= p) s = if throws x = true ∧ nothrow = false then .thrown s
    else p () s := by
  split
  · next h => exact Prog.bind_thrown (if_pos h)
  · next h => exact Prog.bind_ok (if_neg h)

@[simp] theorem evaluateT_bind (s : Stored V W) :
    (evaluateT throws x nothrow >>= p) s = if throws x = true ∧ nothrow = false
    then .thrown { s with raised := true } else p () s := by
  split
  · next h => exact Prog.bind_thrown (if_pos h)
  · next h => exact Prog.bind_ok (if_neg h)

@[simp] theorem assign_eq (y : V ⊕ W) (s : Stored V W) : assign throws nothrow y s =
    if throws .assign = true ∧ nothrow = false then .thrown s
    else .ok () { s with alive := some y } := evaluate_bind _

/-- An error is destroyed and a value constructed in its place. -/
theorem replaceErr_eq :
    (do destroyErr; newVal throws x nothrow v; setOk true) ⟨b, some (.inr e), r⟩ =
    if throws x = true ∧ nothrow = false then .thrown ⟨b, none, true⟩
    else .ok () ⟨true, some (.inl v), r⟩ := by
  show (newVal throws x nothrow v >>= fun _ => setOk true) ⟨b, (none : Option (V ⊕ W)), r⟩ = _
  unfold newVal
  rw [bind_assoc, evaluateT_bind]
  rfl

/-- A value is destroyed and an error constructed in its place. -/
theorem replaceVal_eq :
    (do destroyVal; newErr throws x nothrow e; setOk false) ⟨b, some (.inl v), r⟩ =
    if throws x = true ∧ nothrow = false then .thrown ⟨b, none, r⟩
    else .ok () ⟨false, some (.inr e), r⟩ := by
  show (newErr throws x nothrow e >>= fun _ => setOk false) ⟨b, (none : Option (V ⊕ W)), r⟩ = _
  unfold newErr
  rw [bind_assoc, evaluate_bind]
  rfl

theorem newVal_eq : newVal throws x nothrow v ⟨b, (none : Option (V ⊕ W)), r⟩ =
    if throws x = true ∧ nothrow = false then .thrown ⟨b, none, true⟩
    else .ok () ⟨b, some (.inl v), r⟩ := evaluateT_bind _

theorem newErr_eq : newErr throws x nothrow e ⟨b, (none : Option (V ⊕ W)), r⟩ =
    if throws x = true ∧ nothrow = false then .thrown ⟨b, none, r⟩
    else .ok () ⟨b, some (.inr e), r⟩ := evaluate_bind _

/-- The old error comes back unless its constructor throws too. -/
theorem replaceErr_restore {e' : W} :
    (do destroyErr; Prog.onThrow (newVal throws x nothrow v) (newErr throws .restore nothrow' e);
        setOk true) ⟨b, some (.inr e'), r⟩ =
      if throws x = true ∧ nothrow = false then
        .thrown ⟨b, if throws .restore = true ∧ nothrow' = false then none else some (.inr e), true⟩
      else .ok () ⟨true, some (.inl v), r⟩ := by
  show (Prog.onThrow (newVal throws x nothrow v) (newErr throws .restore nothrow' e) >>=
    fun _ => setOk true)
    ⟨b, (none : Option (V ⊕ W)), r⟩ = _
  by_cases hx : throws x = true ∧ nothrow = false
  · rw [if_pos hx]
    refine Prog.bind_thrown ?_
    unfold Prog.onThrow
    rw [newVal_eq, if_pos hx]
    dsimp only
    rw [newErr_eq]
    by_cases hback : throws .restore = true ∧ nothrow' = false
    · rw [if_pos hback, if_pos hback]
    · rw [if_neg hback, if_neg hback]
  · have hrun :
        Prog.onThrow (newVal throws x nothrow v) (newErr throws .restore nothrow' e) ⟨b, none, r⟩ =
        .ok () ⟨b, some (.inl v), r⟩ := by
      unfold Prog.onThrow
      rw [newVal_eq, if_neg hx]
    rw [if_neg hx]
    exact Prog.bind_ok hrun

/-- The old value comes back unless its constructor throws too. -/
theorem replaceVal_restore {v' : V} :
    (do destroyVal; Prog.onThrow (newErr throws x nothrow e) (restoreVal throws nothrow' v);
        setOk false) ⟨b, some (.inl v'), r⟩ =
      if throws x = true ∧ nothrow = false then
        .thrown ⟨b, if throws .restore = true ∧ nothrow' = false then none else some (.inl v), r⟩
      else .ok () ⟨false, some (.inr e), r⟩ := by
  show (Prog.onThrow (newErr throws x nothrow e) (restoreVal throws nothrow' v) >>=
    fun _ => setOk false)
    ⟨b, (none : Option (V ⊕ W)), r⟩ = _
  by_cases hx : throws x = true ∧ nothrow = false
  · rw [if_pos hx]
    refine Prog.bind_thrown ?_
    unfold Prog.onThrow
    rw [newErr_eq, if_pos hx]
    dsimp only
    rw [restoreVal, evaluate_bind]
    by_cases hback : throws .restore = true ∧ nothrow' = false
    · rw [if_pos hback, if_pos hback]
    · rw [if_neg hback, if_neg hback]
      rfl
  · have hrun :
        Prog.onThrow (newErr throws x nothrow e) (restoreVal throws nothrow' v) ⟨b, none, r⟩ =
        .ok () ⟨b, some (.inr e), r⟩ := by
      unfold Prog.onThrow
      rw [newErr_eq, if_neg hx]
    rw [if_neg hx]
    exact Prog.bind_ok hrun

/-- The handler of the value assignment ends normally, and `ok_` is set. -/
theorem replaceErr_swallow {e' : W} :
    (do destroyErr; swallow (newVal throws x nothrow v) (newErr throws .restore true e); setOk true)
      ⟨b, some (.inr e'), r⟩ =
      if throws x = true ∧ nothrow = false then .ok () ⟨true, some (.inr e), true⟩
      else .ok () ⟨true, some (.inl v), r⟩ := by
  show (swallow (newVal throws x nothrow v) (newErr throws .restore true e) >>= fun _ => setOk true)
    ⟨b, (none : Option (V ⊕ W)), r⟩ = _
  by_cases hx : throws x = true ∧ nothrow = false
  · have hrun : swallow (newVal throws x nothrow v) (newErr throws .restore true e) ⟨b, none, r⟩ =
        .ok () ⟨b, some (.inr e), true⟩ := by
      unfold swallow
      rw [newVal_eq, if_pos hx]
      dsimp only
      rw [newErr_eq, if_neg fun h => Bool.noConfusion h.2]
    rw [if_pos hx]
    exact Prog.bind_ok hrun
  · have hrun : swallow (newVal throws x nothrow v) (newErr throws .restore true e) ⟨b, none, r⟩ =
        .ok () ⟨b, some (.inl v), r⟩ := by
      unfold swallow
      rw [newVal_eq, if_neg hx]
    rw [if_neg hx]
    exact Prog.bind_ok hrun

theorem settled_val : Settled (⟨true, some (.inl v), r⟩ : Stored V W) := iff_of_true rfl ⟨v, rfl⟩

theorem settled_err : Settled (⟨false, some (.inr e), r⟩ : Stored V W) :=
  iff_of_false Bool.false_ne_true nofun

theorem settled_holding (y : V ⊕ W) : Settled (holding y) := by
  cases y with
  | inl v => exact settled_val
  | inr e => exact settled_err

/-- Nothing is thrown by a constructor of `T`. -/
theorem kept_of_ok {this : V ⊕ W} {s : Stored V W} (hs : Settled s) (hr : s.raised = false) :
    Kept this (.ok () s) where
  settled := hs
  strong e u _ hu hraised := by
    rcases hu with hu | hu
    · cases hu
      rw [hr] at hraised
      cases hraised
    · cases hu

theorem kept_of_thrown {this : V ⊕ W} {s : Stored V W} (hs : Settled s)
    (hold : ∀ e, this = .inr e → s.raised = true → s.ok = false ∧ s.alive = some (.inr e)) :
    Kept this (.thrown s) where
  settled := hs
  strong e u he hu hraised := by
    rcases hu with hu | hu
    · cases hu
    · cases hu
      exact ⟨rfl, hold e he hraised⟩

/-- What replaces the old object does not throw. -/
theorem kept_replaced {this : V ⊕ W} {c : Prop} [Decidable c] {u : Stored V W} (y : V ⊕ W)
    (hc : ¬ c) :
    Kept this (if c then .thrown u else .ok () (holding y)) := by
  rw [if_neg hc]
  refine kept_of_ok (settled_holding y) ?_
  cases y <;> rfl

/-- An assignment to the object that is alive. -/
theorem kept_assign (this y : V ⊕ W) (h : this.isLeft = y.isLeft) :
    Kept this (assign throws nothrow y (holding this)) := by
  rw [assign_eq]
  split
  · refine kept_of_thrown (settled_holding this) fun e he hraised => ?_
    rw [he] at hraised
    cases hraised
  · cases this with
    | inl v =>
      cases y with
      | inl w => exact kept_of_ok settled_val rfl
      | inr e => cases h
    | inr e =>
      cases y with
      | inl w => cases h
      | inr f => exact kept_of_ok settled_err rfl

/-- An exception from before the old object is destroyed, or none. -/
theorem kept_before {this : V ⊕ W} {c : Prop} [Decidable c] {rest : Res (Stored V W) Unit}
    (raised : Bool) (h : Kept this rest) :
    Kept this (if c then .thrown { holding this with raised := raised } else rest) := by
  split
  · refine kept_of_thrown ?_ fun e he _ => ?_
    · cases this with
      | inl v => exact settled_val
      | inr e => exact settled_err
    · rw [he]
      exact ⟨rfl, rfl⟩
  · exact h

/-- The old error comes back by a constructor that does not throw. -/
theorem kept_putBack {c c' : Prop} [Decidable c] [Decidable c'] (hc' : ¬ c') :
    Kept (.inr e) (if c then .thrown ⟨false, if c' then none else some (.inr e), true⟩
      else .ok () (⟨true, some (.inl v), false⟩ : Stored V W)) := by
  rw [if_neg hc']
  split
  · exact kept_of_thrown settled_err fun _ he _ => ⟨rfl, congrArg some he⟩
  · exact kept_of_ok settled_val rfl

/-- Without an object, a value has not been kept, -/
theorem not_kept_val : ¬ Kept (.inl v) (.thrown ⟨true, (none : Option (V ⊕ W)), r⟩) := fun h => by
  obtain ⟨_, hval⟩ := h.settled.mp rfl
  cases hval

/-- nor an error if a constructor of `T` has thrown. -/
theorem not_kept_err : ¬ Kept (.inr e) (.thrown ⟨b, (none : Option (V ⊕ W)), true⟩) := fun h => by
  have hold := (h.strong e _ rfl (.inr rfl) rfl).2.2
  cases hold

end

/-! ## The operations -/

section
variable {throws : Place → Bool} {t : Traits} {v w : V} {e f : W}

theorem valueAssign_err (h : t.construct = true ∨ t.moveE = true) :
    Kept (.inr e) (valueAssign throws t v (.inr e) (holding (.inr e))) ↔
    ¬ (t.construct = false ∧ throws .place = true) := by
  rw [valueAssign, holding]
  cases hc : t.construct with
  | true =>
    rw [if_pos rfl, replaceErr_eq]
    exact iff_of_true (kept_replaced (.inl v) fun h => Bool.noConfusion h.2) fun h =>
      Bool.noConfusion h.1
  | false =>
    have hmove : t.moveE = true := h.resolve_left (by rw [hc]; exact Bool.false_ne_true)
    rw [if_neg Bool.false_ne_true, evaluate_bind, hmove, if_neg fun h => Bool.noConfusion h.2,
      replaceErr_swallow]
    by_cases hx : throws .place = true
    · rw [if_pos ⟨hx, rfl⟩]
      refine iff_of_false (fun hkept => ?_) fun h => h ⟨rfl, hx⟩
      obtain ⟨_, hval⟩ := hkept.settled.mp rfl
      cases hval
    · rw [if_neg fun h => hx h.1]
      exact iff_of_true (kept_of_ok settled_val rfl) fun h => hx h.2

theorem emplace_val : Kept (.inl w) (emplace throws t v (.inl w) (holding (.inl w : V ⊕ W))) := by
  rw [emplace, evaluateT_bind]
  exact kept_before true (kept_assign (.inl w) (.inl v) rfl)

theorem emplace_err : Kept (.inr e) (emplace throws t v (.inr e) (holding (.inr e))) ↔
    ¬ (t.construct = false ∧ t.moveT = false ∧ t.moveE = false ∧ throws .tmp = false ∧
      throws .place = true ∧ throws .restore = true) := by
  rw [emplace, holding]
  cases hc : t.construct with
  | true =>
    rw [if_pos rfl, replaceErr_eq]
    exact iff_of_true (kept_replaced (.inl v) fun h => Bool.noConfusion h.2) fun h =>
      Bool.noConfusion h.1
  | false =>
    rw [if_neg Bool.false_ne_true]
    cases hm : t.moveT with
    | true =>
      rw [if_pos rfl, evaluateT_bind, replaceErr_eq]
      refine iff_of_true (kept_before true ?_) fun h => Bool.noConfusion h.2.1
      exact kept_replaced (.inl v) fun h => Bool.noConfusion h.2
    | false =>
      rw [if_neg Bool.false_ne_true, evaluate_bind, replaceErr_restore]
      by_cases htmp : throws .tmp = true ∧ t.moveE = false
      · rw [if_pos htmp]
        refine iff_of_true (kept_of_thrown settled_err nofun) fun h => ?_
        rw [htmp.1] at h
        exact Bool.noConfusion h.2.2.2.1
      · rw [if_neg htmp]
        by_cases hx : throws .place = true
        · rw [if_pos ⟨hx, rfl⟩]
          by_cases hback : throws .restore = true ∧ t.moveE = false
          · rw [if_pos hback]
            refine iff_of_false not_kept_err fun h => h ⟨rfl, rfl, hback.2, ?_, hx, hback.1⟩
            exact Bool.eq_false_iff.mpr fun h => htmp ⟨h, hback.2⟩
          · rw [if_neg hback]
            exact iff_of_true (kept_of_thrown settled_err fun _ he _ => ⟨rfl, congrArg some he⟩)
              fun h => hback ⟨h.2.2.2.2.2, h.2.2.1⟩
        · rw [if_neg fun h => hx h.1]
          exact iff_of_true (kept_of_ok settled_val rfl) fun h => hx h.2.2.2.2.1

/-- The default assignment of trivially copyable types. -/
theorem kept_trivial (this other : V ⊕ W) : Kept this (trivialAssign other (holding this)) := by
  refine kept_of_ok ?_ (by cases this <;> rfl)
  cases other with
  | inl v => exact settled_val
  | inr e => exact settled_err

/-- Both have a value, or both an error. -/
theorem copyAssign_same {this other : V ⊕ W} (h : this.isLeft = other.isLeft) :
    Kept this (copyAssign throws t other this (holding this)) := by
  unfold copyAssign
  split
  · exact kept_trivial _ _
  · cases this with
    | inl w =>
      cases other with
      | inl v => exact kept_assign _ _ rfl
      | inr e => cases h
    | inr e =>
      cases other with
      | inl v => cases h
      | inr f => exact kept_assign _ _ rfl

theorem moveAssign_same {this other : V ⊕ W} (h : this.isLeft = other.isLeft) :
    Kept this (moveAssign throws t other this (holding this)) := by
  unfold moveAssign
  split
  · exact kept_trivial _ _
  · cases this with
    | inl w =>
      cases other with
      | inl v => exact kept_assign _ _ rfl
      | inr e => cases h
    | inr e =>
      cases other with
      | inl v => cases h
      | inr f => exact kept_assign _ _ rfl

theorem copyAssign_val : Kept (.inl w) (copyAssign throws t (.inr e) (.inl w) (holding (.inl w))) ↔
    ¬ (t.trivial = false ∧ t.copyE = false ∧ t.moveE = false ∧ t.copyT = false ∧
      throws .tmp = false ∧ throws .place = true ∧ throws .restore = true) := by
  rw [copyAssign]
  cases ht : t.trivial with
  | true => exact iff_of_true (kept_trivial _ (.inr e)) fun h => Bool.noConfusion h.1
  | false =>
    rw [if_neg Bool.false_ne_true]
    dsimp only [holding]
    cases hc : t.copyE with
    | true =>
      rw [if_pos rfl, replaceVal_eq]
      exact iff_of_true (kept_replaced (.inr e) fun h => Bool.noConfusion h.2) fun h =>
        Bool.noConfusion h.2.1
    | false =>
      rw [if_neg Bool.false_ne_true]
      cases hm : t.moveE with
      | true =>
        rw [if_pos rfl, evaluate_bind, replaceVal_eq]
        refine iff_of_true (kept_before false ?_) fun h => Bool.noConfusion h.2.2.1
        exact kept_replaced (.inr e) fun h => Bool.noConfusion h.2
      | false =>
        rw [if_neg Bool.false_ne_true, evaluate_bind, replaceVal_restore]
        by_cases htmp : throws .tmp = true ∧ t.copyT = false
        · rw [if_pos htmp]
          refine iff_of_true (kept_of_thrown settled_val nofun) fun h => ?_
          rw [htmp.1] at h
          exact Bool.noConfusion h.2.2.2.2.1
        · rw [if_neg htmp]
          by_cases hx : throws .place = true
          · rw [if_pos ⟨hx, rfl⟩]
            by_cases hback : throws .restore = true ∧ t.copyT = false
            · rw [if_pos hback]
              refine iff_of_false not_kept_val fun h => h ⟨rfl, rfl, rfl, hback.2, ?_, hx, hback.1⟩
              exact Bool.eq_false_iff.mpr fun h => htmp ⟨h, hback.2⟩
            · rw [if_neg hback]
              exact iff_of_true (kept_of_thrown settled_val nofun) fun h =>
                hback ⟨h.2.2.2.2.2.2, h.2.2.2.1⟩
          · rw [if_neg fun h => hx h.1]
            exact iff_of_true (kept_of_ok settled_err rfl) fun h => hx h.2.2.2.2.2.1

theorem copyAssign_err (h : t.trivial = true ∨ t.moveE = true ∨ t.moveT = true) :
    Kept (.inr e) (copyAssign throws t (.inl v) (.inr e) (holding (.inr e))) := by
  rw [copyAssign]
  cases ht : t.trivial with
  | true => exact kept_trivial _ _
  | false =>
    rw [if_neg Bool.false_ne_true]
    dsimp only [holding]
    cases hc : t.copyT with
    | true =>
      rw [if_pos rfl, replaceErr_eq]
      exact kept_replaced (.inl v) fun h => Bool.noConfusion h.2
    | false =>
      rw [if_neg Bool.false_ne_true]
      cases hm : t.moveT with
      | true =>
        rw [if_pos rfl, evaluateT_bind, replaceErr_eq]
        refine kept_before true ?_
        exact kept_replaced (.inl v) fun h => Bool.noConfusion h.2
      | false =>
        -- the error's constructor does not throw in the handler
        have hmove : t.moveE = true := by
          rcases h with h | h | h
          · rw [ht] at h
            cases h
          · exact h
          · rw [hm] at h
            cases h
        rw [if_neg Bool.false_ne_true, evaluate_bind, replaceErr_restore, hmove]
        refine kept_before false ?_
        exact kept_putBack fun h => Bool.noConfusion h.2

theorem moveAssign_val (h : t.trivial = true ∨ t.moveE = true) :
    Kept (.inl w) (moveAssign throws t (.inr e) (.inl w) (holding (.inl w))) := by
  rw [moveAssign]
  cases ht : t.trivial with
  | true => exact kept_trivial _ _
  | false =>
    have hmove : t.moveE = true := h.resolve_left (by rw [ht]; exact Bool.false_ne_true)
    rw [if_neg Bool.false_ne_true]
    dsimp only [holding]
    rw [hmove, if_pos rfl, replaceVal_eq]
    exact kept_replaced (.inr e) fun h => Bool.noConfusion h.2

theorem moveAssign_err (h : t.trivial = true ∨ t.moveE = true) :
    Kept (.inr e) (moveAssign throws t (.inl v) (.inr e) (holding (.inr e))) := by
  rw [moveAssign]
  cases ht : t.trivial with
  | true => exact kept_trivial _ _
  | false =>
    have hmove : t.moveE = true := h.resolve_left (by rw [ht]; exact Bool.false_ne_true)
    rw [if_neg Bool.false_ne_true]
    dsimp only [holding]
    cases hm : t.moveT with
    | true =>
      rw [if_pos rfl, replaceErr_eq]
      exact kept_replaced (.inl v) fun h => Bool.noConfusion h.2
    | false =>
      rw [if_neg Bool.false_ne_true, evaluate_bind, replaceErr_restore, hmove]
      refine kept_before false ?_
      exact kept_putBack fun h => Bool.noConfusion h.2

theorem errorAssign_val : Kept (.inl w) (errorAssign throws t e (.inl w) (holding (.inl w))) ↔
    ¬ (t.convert = false ∧ throws .place = true) := by
  rw [errorAssign, holding, replaceVal_eq]
  by_cases hx : throws .place = true ∧ t.convert = false
  · rw [if_pos hx]
    exact iff_of_false not_kept_val fun h => h ⟨hx.2, hx.1⟩
  · rw [if_neg hx]
    exact iff_of_true (kept_of_ok settled_err rfl) fun h => hx ⟨h.2, h.1⟩

/-- The old object is there, or the new one, and no exception of `T` is lost, in all but these
cases. -/
theorem kept_iff (throws : Place → Bool) (op : Op V W) (this : V ⊕ W) (h : op.Enabled t) :
    Kept this (op.run t throws this (holding this)) ↔ ¬ Lost t throws op this := by
  cases op with
  | valueAssign v =>
    cases this with
    | inl w => exact iff_of_true (kept_assign (.inl w) (.inl v) rfl) id
    | inr e => exact valueAssign_err h
  | emplace v =>
    cases this with
    | inl w => exact iff_of_true emplace_val id
    | inr e => exact emplace_err
  | copyAssign other =>
    cases this with
    | inl w =>
      cases other with
      | inl v => exact iff_of_true (copyAssign_same rfl) id
      | inr e => exact copyAssign_val
    | inr e =>
      cases other with
      | inl v => exact iff_of_true (copyAssign_err h) id
      | inr f => exact iff_of_true (copyAssign_same rfl) id
  | moveAssign other =>
    cases this with
    | inl w =>
      cases other with
      | inl v => exact iff_of_true (moveAssign_same rfl) id
      | inr e => exact iff_of_true (moveAssign_val h) id
    | inr e =>
      cases other with
      | inl v => exact iff_of_true (moveAssign_err h) id
      | inr f => exact iff_of_true (moveAssign_same rfl) id
  | errorAssign e =>
    cases this with
    | inl w => exact errorAssign_val
    | inr f => exact iff_of_true (kept_assign (.inr f) (.inr e) rfl) id

end

/-- Nothing is declared not to throw but the moves. -/
def movesOnly : Traits where
  trivial := false
  construct := false
  copyT := false
  moveT := true
  assignT := false
  copyE := false
  moveE := true
  assignE := false
  convert := false

/-- A copy assignment that throws leaves the old error. -/
theorem copy_throws_kept :
    Kept (.inr 3) ((Op.copyAssign (.inl 5)).run movesOnly (· = .tmp) (.inr 3)
      (holding (.inr 3 : Nat ⊕ Nat))) := by
  have henabled : (Op.copyAssign (.inl 5) : Op Nat Nat).Enabled movesOnly := Or.inr (Or.inl rfl)
  exact (kept_iff (· = .tmp) _ (.inr 3) henabled).mpr id

/-- `operator=(U &&)` on an error: the constructor throws, the caller sees nothing, and `ok_` is
true with the old error in the storage. -/
theorem value_assignment_swallowed :
    (Op.valueAssign 5).run movesOnly (· = .place) (.inr 3) (holding (.inr 3 : Nat ⊕ Nat)) =
      .ok () ⟨true, some (.inr 3), true⟩ ∧
      ¬ Kept (.inr 3) ((Op.valueAssign 5).run movesOnly (· = .place) (.inr 3)
        (holding (.inr 3 : Nat ⊕ Nat))) := by
  have hrun :
      (Op.valueAssign 5).run movesOnly (· = .place) (.inr 3) (holding (.inr 3 : Nat ⊕ Nat)) =
      .ok () ⟨true, some (.inr 3), true⟩ := rfl
  refine ⟨hrun, fun h => ?_⟩
  obtain ⟨_, hval⟩ := (hrun ▸ h.settled).mp rfl
  cases hval

end Gpcl.Expected.Throws
