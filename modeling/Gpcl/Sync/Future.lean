import Mathlib.Algebra.Order.Ring.Int
import Gpcl.Lib.Runs

/-! # promise and future

One `promise` that is set once, and one `future` that is asked once. Each step holds the
mutex of the shared state from its `lock` to its `unlock`; the condition variable of the event
gives the mutex up and puts the getter to sleep in one step, and may wake it without need. -/
namespace Gpcl.Sync.Future
open Lib.Runs

variable {V E : Type}

/-- `variant<monostate, T, error_code> result_`. -/
inductive Result (V E : Type)
  | pending
  | value (v : V)
  | error (e : E)

/-- The call of the promise. -/
inductive SetOp (V E : Type)
  | setValue (v : V)
  | setError (e : E)

/-- The call of the future: `get()` or `get(ec)`, the latter with what `ec` was before. -/
inductive GetOp (E : Type)
  | get
  | getCode (ec : E)

/-- What a getter ends with: a value and the error code, or `system_error`. -/
inductive Outcome (V E : Type)
  | returned (v : V) (ec : E)
  | threw (e : E)

inductive Party
  | setter
  | getter
deriving DecidableEq

/-- The next step of `set_value` or `set_error`. -/
inductive Setter
  | lock
  | emplace
  -- `signaled_ = 1` and the look at `waiters_`
  | signal
  | unlock (hasWaiters : Bool)
  | notify (hasWaiters : Bool)
  | done
  | assertionFailed

/-- The next step of `get`. -/
inductive Getter (V E : Type)
  | lock
  | isPending
  -- the assertions of `shared_state::wait`
  | wait
  -- `while (!signaled_)`
  | loop
  -- the constructor of `waiter`
  | register
  | condWait
  | asleep
  | reacquire
  -- the destructor of `waiter`
  | unregister
  -- `shared_state::get`
  | read
  | leave (res : V)
  | done (o : Outcome V E)
  | assertionFailed
  | unreachable

structure State (V E : Type) where
  owner : Option Party
  signaled : Bool
  waiters : Nat
  result : Result V E
  ec : E
  setter : Setter
  getter : Getter V E

variable [Zero E] [DecidableEq E] [Inhabited V]

/-- The error code that the getter passes on: its own, or the caller's. -/
def GetOp.code : GetOp E → E
  | .get => 0
  | .getCode ec => ec

def initial (g : GetOp E) : State V E := ⟨none, false, 0, .pending, g.code, .lock, .lock⟩

def SetOp.result : SetOp V E → Result V E
  | .setValue v => .value v
  | .setError e => .error e

/-- The end of `get()` and `get(ec)` behind `shared_state::get`. -/
def GetOp.finish (g : GetOp E) (res : V) (ec : E) : Outcome V E :=
  if ec = 0 then .returned res ec
  else match g with
    | .get => .threw ec
    | .getCode _ => .returned default ec

/-- What the calls should give. -/
def expected : SetOp V E → GetOp E → Outcome V E
  | .setValue v, _ => .returned v 0
  | .setError e, .get => .threw e
  | .setError e, .getCode _ => .returned default e

inductive Act
  | setter
  | getter
  -- the condition variable wakes the getter without a `notify`
  | spurious

def setterStep (op : SetOp V E) (s : State V E) : Option (State V E) :=
  match s.setter with
  | .lock =>
    if s.owner = none then some { s with owner := some .setter, setter := .emplace } else none
  | .emplace => match s.owner, s.result with
    | some .setter, .pending => some { s with result := op.result, setter := .signal }
    | _, _ => some { s with setter := .assertionFailed }
  | .signal => some { s with signaled := true, setter := .unlock (s.waiters ≠ 0) }
  | .unlock hasWaiters => some { s with owner := none, setter := .notify hasWaiters }
  | .notify hasWaiters => match hasWaiters, s.getter with
    | true, .asleep => some { s with getter := .reacquire, setter := .done }
    | _, _ => some { s with setter := .done }
  | .done | .assertionFailed => none

def getterStep (g : GetOp E) (s : State V E) : Option (State V E) :=
  match s.getter with
  | .lock =>
    if s.owner = none then some { s with owner := some .getter, getter := .isPending } else none
  | .isPending => match s.result with
    | .pending => some { s with getter := .wait }
    | _ => some { s with getter := .read }
  | .wait => match s.owner, s.result with
    | some .getter, .pending => some { s with getter := .loop }
    | _, _ => some { s with getter := .assertionFailed }
  | .loop => some { s with getter := if s.signaled then .read else .register }
  | .register => some { s with waiters := s.waiters + 1, getter := .condWait }
  | .condWait => some { s with owner := none, getter := .asleep }
  | .reacquire =>
    if s.owner = none then some { s with owner := some .getter, getter := .unregister } else none
  | .unregister => some { s with waiters := s.waiters - 1, getter := .loop }
  | .read => match s.result with
    | .pending => some { s with getter := .assertionFailed }
    | .value v => some { s with ec := 0, getter := .leave v }
    -- the branch of the error does not return: it runs into `GPCL_UNREACHABLE`
    | .error e => some { s with ec := e, getter := .unreachable }
  | .leave res => some { s with owner := none, getter := .done (g.finish res s.ec) }
  | .asleep | .done _ | .assertionFailed | .unreachable => none

def step (op : SetOp V E) (g : GetOp E) (s : State V E) : Act → Option (State V E)
  | .setter => setterStep op s
  | .getter => getterStep g s
  | .spurious => match s.getter with
    | .asleep => some { s with getter := .reacquire }
    | _ => none

def Step (op : SetOp V E) (g : GetOp E) (s : State V E) (a : Act) (s' : State V E) : Prop :=
  step op g s a = some s'

/-- Whatever happens, it happens for finitely many steps, and then the getter has returned. -/
inductive Finishes (op : SetOp V E) (g : GetOp E) : State V E → Prop
  | done {s : State V E} {o : Outcome V E} : s.getter = .done o → Finishes op g s
  | step {s : State V E} : (∃ a s', Step op g s a s') →
    (∀ a s', Step op g s a s' → Finishes op g s') →
    Finishes op g s

/-- One state of a run with `op` and `g`. -/
structure Sound (op : SetOp V E) (g : GetOp E) (s : State V E) : Prop where
  finishes : s.setter = .done → Finishes op g s
  setter_ok : s.setter ≠ .assertionFailed
  getter_ok : s.getter ≠ .assertionFailed ∧ s.getter ≠ .unreachable
  outcome : ∀ o, s.getter = .done o → o = expected op g

def Setter.holds : Setter → Bool
  | .emplace | .signal | .unlock _ => true
  | _ => false

/-- The result is not set yet. -/
def Setter.before : Setter → Bool
  | .lock | .emplace => true
  | _ => false

/-- `signaled_` is set. -/
def Setter.after : Setter → Bool
  | .unlock _ | .notify _ | .done => true
  | _ => false

/-- It will wake the getter, or it still has to look for one. -/
def Setter.wakes : Setter → Bool
  | .lock | .emplace | .signal | .unlock true | .notify true => true
  | _ => false

def Getter.holds : Getter V E → Bool
  | .isPending | .wait | .loop | .register | .condWait | .unregister | .read | .leave _ => true
  | _ => false

/-- It counts as a waiter. -/
def Getter.registered : Getter V E → Bool
  | .condWait | .asleep | .reacquire | .unregister => true
  | _ => false

/-- What a getter knows at its place, when the value is `v`. -/
def Getter.Knows (v : V) (s : State V E) : Getter V E → Prop
  | .wait => s.setter.before = true
  | .register | .condWait => s.signaled = false
  | .asleep => s.setter.wakes = true
  | .read => s.setter.before = false
  | .leave res => res = v ∧ s.ec = 0
  | .done o => o = .returned v 0
  | .assertionFailed | .unreachable => False
  | _ => True

/-- A run of `set_value(v)`. -/
structure Inv (v : V) (s : State V E) : Prop where
  setter_owns : s.owner = some .setter ↔ s.setter.holds = true
  getter_owns : s.owner = some .getter ↔ s.getter.holds = true
  result : s.result = if s.setter.before then .pending else .value v
  signaled : s.signaled = s.setter.after
  waiters : s.waiters = s.getter.registered.toNat
  setter_ok : s.setter ≠ .assertionFailed
  knows : s.getter.Knows v s

omit [DecidableEq E] [Inhabited V] in
theorem Inv.initial (v : V) (g : GetOp E) : Inv v (initial g : State V E) :=
  ⟨⟨nofun, nofun⟩, ⟨nofun, nofun⟩, rfl, rfl, rfl, nofun, trivial⟩

omit [DecidableEq E] [Inhabited V] in
/-- Without the mutex, only a sleeping getter relies on the setter. -/
theorem Getter.Knows.mono {v : V} {s s' : State V E} {l : Getter V E} (hk : l.Knows v s)
    (hl : l.holds = false) (hw : l = .asleep → s'.setter.wakes = true) : l.Knows v s' := by
  cases l with
  | asleep => exact hw rfl
  | lock => trivial
  | reacquire => trivial
  | done o => exact hk
  | assertionFailed => exact hk
  | unreachable => exact hk
  | isPending => cases hl
  | wait => cases hl
  | loop => cases hl
  | register => cases hl
  | condWait => cases hl
  | unregister => cases hl
  | read => cases hl
  | leave res => cases hl

omit [DecidableEq E] [Inhabited V] in
/-- The mutex is not with the getter. -/
theorem Inv.not_holds {v : V} {s : State V E} (hi : Inv v s) (h : s.owner ≠ some .getter) :
    s.getter.holds = false :=
  Bool.eq_false_iff.mpr fun hg => h (hi.getter_owns.mpr hg)

omit [DecidableEq E] [Inhabited V] in
/-- The mutex is not with the setter. -/
theorem Inv.setter_out {v : V} {s : State V E} (hi : Inv v s) (h : s.owner ≠ some .setter) :
    s.setter.holds = false :=
  Bool.eq_false_iff.mpr fun hs => h (hi.setter_owns.mpr hs)

omit [DecidableEq E] [Inhabited V] in
theorem Inv.setterStep {v : V} {s s' : State V E} (hi : Inv v s)
    (h : setterStep (.setValue v) s = some s') :
    Inv v s' := by
  obtain ⟨owner, signaled, waiters, result, ec, setter, getter⟩ := s
  have hres := hi.result
  have hown := hi.setter_owns
  have hsig := hi.signaled
  cases setter with
  | lock =>
    change (if owner = none then _ else _) = _ at h
    split at h
    · next hfree =>
      cases h
      have hg : getter.holds = false := hi.not_holds (by rw [hfree]; exact nofun)
      exact ⟨⟨fun _ => rfl, fun _ => rfl⟩, ⟨nofun, fun h => by rw [hg] at h; cases h⟩, hres, hsig,
        hi.waiters, nofun,
        hi.knows.mono hg fun _ => rfl⟩
    · cases h
  | emplace =>
    obtain rfl : owner = some .setter := hown.mpr rfl
    obtain rfl : result = .pending := hres
    cases h
    have hg : getter.holds = false := hi.not_holds nofun
    exact ⟨⟨fun _ => rfl, fun _ => rfl⟩, hi.getter_owns, rfl, hsig, hi.waiters, nofun,
      hi.knows.mono hg fun _ => rfl⟩
  | signal =>
    obtain rfl : owner = some .setter := hown.mpr rfl
    cases h
    have hg : getter.holds = false := hi.not_holds nofun
    have hw : getter = .asleep → waiters ≠ 0 := fun he => by
      have hone : waiters = getter.registered.toNat := hi.waiters
      rw [hone, he]
      exact Nat.one_ne_zero
    exact ⟨⟨fun _ => rfl, fun _ => rfl⟩, hi.getter_owns, hres, rfl, hi.waiters, nofun,
      hi.knows.mono hg fun he => by rw [decide_eq_true (hw he)]; rfl⟩
  | unlock hasWaiters =>
    obtain rfl : owner = some .setter := hown.mpr rfl
    cases h
    have hg : getter.holds = false := hi.not_holds nofun
    refine ⟨⟨nofun, nofun⟩, ⟨nofun, fun h => by rw [hg] at h; cases h⟩, hres, hsig, hi.waiters,
      nofun,
      hi.knows.mono hg fun he => ?_⟩
    have hk := hi.knows
    rw [he] at hk
    cases hasWaiters with
    | true => rfl
    | false => cases hk
  | notify hasWaiters =>
    change (match hasWaiters, getter with | true, .asleep => _ | _, _ => _) = _ at h
    split at h
    · cases h
      exact ⟨hown, hi.getter_owns, hres, hsig, hi.waiters, nofun, trivial⟩
    · next hne =>
      cases h
      refine ⟨hown, hi.getter_owns, hres, hsig, hi.waiters, nofun, ?_⟩
      have hk := hi.knows
      by_cases hl : getter = .asleep
      · cases hasWaiters with
        | true => exact absurd hl (hne rfl)
        | false => rw [hl] at hk; cases hk
      · cases getter with
        | asleep => exact absurd rfl hl
        | _ => exact hk
  | done => cases h
  | assertionFailed => cases h

theorem Inv.getterStep {v : V} {g : GetOp E} {s s' : State V E} (hi : Inv v s)
    (h : getterStep g s = some s') :
    Inv v s' := by
  obtain ⟨owner, signaled, waiters, result, ec, setter, getter⟩ := s
  have hres : result = if setter.before then .pending else .value v := hi.result
  have hsig : signaled = setter.after := hi.signaled
  have hk := hi.knows
  have hw : waiters = getter.registered.toNat := hi.waiters
  have stay {l : Getter V E} (hl : getter.holds = true) (hl' : l.holds = true)
    (hr : l.registered = getter.registered)
      (hkn : l.Knows v ⟨owner, signaled, waiters, result, ec, setter, l⟩) :
      Inv v ⟨owner, signaled, waiters, result, ec, setter, l⟩ :=
    ⟨hi.setter_owns, ⟨fun _ => hl', fun _ => hi.getter_owns.mpr hl⟩, hres, hsig,
      by rw [hr]; exact hw, hi.setter_ok, hkn⟩
  cases getter with
  | lock =>
    change (if owner = none then _ else _) = _ at h
    split at h
    · next hfree =>
      cases h
      have hs : setter.holds = false := hi.setter_out (by rw [hfree]; exact nofun)
      exact ⟨⟨nofun, fun h => by rw [hs] at h; cases h⟩, ⟨fun _ => rfl, fun _ => rfl⟩, hres, hsig,
        hw, hi.setter_ok, trivial⟩
    · cases h
  | isPending =>
    change (match result with | .pending => _ | _ => _) = _ at h
    split at h
    · cases h
      refine stay rfl rfl rfl ?_
      show setter.before = true
      by_contra hb
      rw [if_neg hb] at hres
      cases hres
    · next hne =>
      cases h
      refine stay rfl rfl rfl ?_
      show setter.before = false
      by_contra hb
      exact hne (hres.trans (if_pos (by simpa using hb)))
  | wait =>
    obtain rfl : owner = some .getter := hi.getter_owns.mpr rfl
    have hb : setter.before = true := hk
    obtain rfl : result = .pending := hres.trans (if_pos hb)
    cases h
    exact stay rfl rfl rfl trivial
  | loop =>
    cases h
    split
    · next hs =>
      refine stay rfl rfl rfl ?_
      show setter.before = false
      rw [hsig] at hs
      cases setter <;> first | rfl | cases hs
    · next hs => exact stay rfl rfl rfl (Bool.eq_false_iff.mpr hs)
  | register =>
    cases h
    exact ⟨hi.setter_owns, ⟨fun _ => rfl, fun _ => hi.getter_owns.mpr rfl⟩, hres, hsig,
      by rw [hw]; rfl, hi.setter_ok, hk⟩
  | condWait =>
    have ho : owner = some .getter := hi.getter_owns.mpr rfl
    have hs : setter.holds = false := hi.setter_out (by rw [ho]; exact nofun)
    cases h
    refine ⟨⟨nofun, fun h => by rw [hs] at h; cases h⟩, ⟨nofun, nofun⟩, hres, hsig, hw,
      hi.setter_ok, ?_⟩
    -- `signaled_` was clear, so the setter has not come to its `signal` yet
    have hns : setter.after = false := hsig.symm.trans hk
    have hok := hi.setter_ok
    cases setter with
    | assertionFailed => exact absurd rfl hok
    | lock => rfl
    | emplace => cases hs
    | signal => cases hs
    | unlock _ => cases hs
    | notify _ => cases hns
    | done => cases hns
  | asleep => cases h
  | reacquire =>
    change (if owner = none then _ else _) = _ at h
    split at h
    · next hfree =>
      cases h
      have hs : setter.holds = false := hi.setter_out (by rw [hfree]; exact nofun)
      exact ⟨⟨nofun, fun h => by rw [hs] at h; cases h⟩, ⟨fun _ => rfl, fun _ => rfl⟩, hres, hsig,
        hw, hi.setter_ok, trivial⟩
    · cases h
  | unregister =>
    cases h
    exact ⟨hi.setter_owns, ⟨fun _ => rfl, fun _ => hi.getter_owns.mpr rfl⟩, hres, hsig,
      by rw [hw]; rfl, hi.setter_ok,
      trivial⟩
  | read =>
    have hb : setter.before = false := hk
    obtain rfl : result = .value v := hres.trans (if_neg (by rw [hb]; exact Bool.false_ne_true))
    cases h
    exact ⟨hi.setter_owns, ⟨fun _ => rfl, fun _ => hi.getter_owns.mpr rfl⟩, hres, hsig, hw,
      hi.setter_ok, rfl, rfl⟩
  | leave res =>
    have ho : owner = some .getter := hi.getter_owns.mpr rfl
    have hs : setter.holds = false := hi.setter_out (by rw [ho]; exact nofun)
    obtain ⟨rfl, rfl⟩ := hk
    cases h
    exact ⟨⟨nofun, fun h => by rw [hs] at h; cases h⟩, ⟨nofun, nofun⟩, hres, hsig, hw, hi.setter_ok,
      if_pos rfl⟩
  | done o => cases h
  | assertionFailed => cases h
  | unreachable => cases h

theorem Inv.step {v : V} {g : GetOp E} {s s' : State V E} {a : Act} (hi : Inv v s)
    (h : Step (.setValue v) g s a s') :
    Inv v s' := by
  cases a with
  | setter => exact hi.setterStep h
  | getter => exact hi.getterStep h
  | spurious =>
    obtain ⟨owner, signaled, waiters, result, ec, setter, getter⟩ := s
    cases getter with
    | asleep =>
      cases h
      exact ⟨hi.setter_owns, hi.getter_owns, hi.result, hi.signaled, hi.waiters, hi.setter_ok,
        trivial⟩
    | _ => cases h

/-- How far a getter is from its end once the event is signaled. -/
def Getter.rank : Getter V E → Nat
  | .lock => 9
  | .isPending => 8
  | .wait | .register | .condWait | .asleep => 7
  | .reacquire => 5
  | .unregister => 4
  | .loop => 3
  | .read => 2
  | .leave _ => 1
  | .done _ | .assertionFailed | .unreachable => 0

/-- Behind the setter, the getter has a step as long as it has not returned, and it comes closer to
its end. -/
theorem getterStep_rank {v : V} {g : GetOp E} {s : State V E} (hi : Inv v s)
    (hd : s.setter = .done) (hnd : ∀ o, s.getter ≠ .done o) :
    ∃ s', getterStep g s = some s' ∧ s'.setter = .done ∧ s'.getter.rank < s.getter.rank := by
  obtain ⟨owner, signaled, waiters, result, ec, setter, getter⟩ := s
  obtain rfl : setter = .done := hd
  obtain rfl : result = .value v := hi.result
  obtain rfl : signaled = true := hi.signaled
  have hk := hi.knows
  have hfree : getter.holds = false → owner = none := by
    intro hg
    cases owner with
    | none => rfl
    | some p => cases p with
      | setter => exact absurd (hi.setter_owns.mp rfl) Bool.false_ne_true
      | getter => exact absurd ((hi.getter_owns.mp rfl).symm.trans hg) (by decide)
  cases getter with
  | lock => obtain rfl := hfree rfl; exact ⟨_, rfl, rfl, show 8 < 9 by decide⟩
  | isPending => exact ⟨_, rfl, rfl, show 2 < 8 by decide⟩
  | wait => cases hk
  | loop => exact ⟨_, rfl, rfl, show 2 < 3 by decide⟩
  | register => cases hk
  | condWait => cases hk
  | asleep => cases hk
  | reacquire => obtain rfl := hfree rfl; exact ⟨_, rfl, rfl, show 4 < 5 by decide⟩
  | unregister => exact ⟨_, rfl, rfl, show 3 < 4 by decide⟩
  | read => exact ⟨_, rfl, rfl, Nat.one_lt_two⟩
  | leave res => exact ⟨_, rfl, rfl, Nat.zero_lt_one⟩
  | done o => exact absurd rfl (hnd o)
  | assertionFailed => cases hk
  | unreachable => cases hk

theorem Inv.finishes {v : V} {g : GetOp E} {s : State V E} (hi : Inv v s) (hd : s.setter = .done) :
    Finishes (.setValue v) g s := by
  induction hn : s.getter.rank using Nat.strongRecOn generalizing s with
  | ind n ih =>
    by_cases hdone : ∃ o, s.getter = .done o
    · exact .done hdone.choose_spec
    · obtain ⟨u, hu, hud, hur⟩ := getterStep_rank (g := g) hi hd fun o ho => hdone ⟨o, ho⟩
      refine .step ⟨.getter, u, hu⟩ fun a s' hs => ?_
      cases a with
      | setter =>
        rw [Step, Future.step, Future.setterStep, hd] at hs
        cases hs
      | getter =>
        obtain rfl : u = s' := Option.some.inj (hu.symm.trans hs)
        exact ih _ (hn ▸ hur) (hi.step hs) hud rfl
      | spurious =>
        -- nobody sleeps behind the setter
        have hk := hi.knows
        cases hl : s.getter with
        | asleep => rw [hl] at hk; rw [Getter.Knows, hd] at hk; cases hk
        | _ => rw [Step, Future.step, hl] at hs; cases hs

theorem Inv.sound {v : V} {g : GetOp E} {s : State V E} (hi : Inv v s) :
    Sound (.setValue v) g s := by
  have hk := hi.knows
  refine ⟨hi.finishes, hi.setter_ok, ⟨fun h => ?_, fun h => ?_⟩, fun o h => ?_⟩
  · rw [h] at hk; exact hk
  · rw [h] at hk; exact hk
  · rw [h] at hk; exact hk

/-- The promise is set to an error, and then the future is asked. -/
def errorRun : List Act := [.setter, .setter, .setter, .setter, .setter, .getter, .getter, .getter]

/-- Behind an error, `shared_state::get` runs into the branch that should not be reached. -/
theorem unreachable_setError (e : E) (g : GetOp E) :
    ∃ s : State V E, Run (Step (.setError e) g) (initial g) errorRun s ∧
    s.getter = .unreachable := by
  have h₁ : Run (Step (.setError e) g) (initial g : State V E) [.setter] _ :=
    .single (show step _ g _ .setter = some _ from rfl)
  have h₂ := h₁.snoc (show step _ g _ .setter = some _ from rfl)
  have h₃ := h₂.snoc (show step _ g _ .setter = some _ from rfl)
  have h₄ := h₃.snoc (show step _ g _ .setter = some _ from rfl)
  have h₅ := h₄.snoc (show step _ g _ .setter = some _ from rfl)
  have h₆ := h₅.snoc (show step _ g _ .getter = some _ from rfl)
  have h₇ := h₆.snoc (show step _ g _ .getter = some _ from rfl)
  have h₈ := h₇.snoc (show step _ g _ .getter = some _ from rfl)
  exact ⟨_, h₈, rfl⟩

/-- In every interleaving the getter returns what was set, soon after it was set and without a
failed assertion: exactly for `set_value`. -/
theorem sound_iff_setValue (op : SetOp V E) (g : GetOp E) :
    (∀ as s, Run (Step op g) (initial g) as s → Sound op g s) ↔ ∃ v, op = .setValue v := by
  constructor
  · intro h
    cases op with
    | setValue v => exact ⟨v, rfl⟩
    | setError e =>
      obtain ⟨s, hr, hu⟩ := unreachable_setError (V := V) e g
      exact absurd hu (h _ s hr).getter_ok.2
  · rintro ⟨v, rfl⟩ as s hr
    have hi : Inv v s := hr.invariant (Inv.initial v g) fun _ _ _ hi hs => hi.step hs
    exact hi.sound

/-- `set_error(5)`, then `get()`. -/
theorem setError_not_delivered :
    ∃ as s, Run (Step (V := Nat) (.setError (5 : Int)) .get) (initial .get) as s ∧
    ¬ Sound (.setError 5) .get s := by
  obtain ⟨s, hr, hu⟩ := unreachable_setError (V := Nat) (5 : Int) .get
  exact ⟨_, s, hr, fun hs => hs.getter_ok.2 hu⟩

end Gpcl.Sync.Future
