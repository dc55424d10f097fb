import Gpcl.Lib.Runs
import Mathlib.Data.Fintype.Basic
import Mathlib.Logic.Function.Basic

/-! # futex_condition_variable

Waiters and notifiers over the one-bit word of the condition variable. The mutex is its
owner. A notification begins with its store of 1 and is complete with its `FUTEX_WAKE`. Two
fields of the state are history: `calls` numbers the calls of `wait` of a thread, and `told`
says whether a notification has begun since the thread released the mutex in its call. -/
namespace Gpcl.Sync.FutexCondvar
open Lib.Runs

/-- The next step of a thread; `idle` and `holding` are at rest. -/
inductive Local
  | idle
  | holding
  -- `wait`: the weak compare-exchange from 1 to 0
  | entry
  -- `wait`: the constructor of `locker`
  | unlock
  -- `wait`: `FUTEX_WAIT`
  | pending
  | asleep
  -- `wait`: the store of 0
  | reset
  -- `wait`: the destructor of `locker`
  | relock
  -- `FUTEX_WAKE` of `notify_all` or `notify_one`, by a thread that holds the mutex or not
  | wake (all held : Bool)
deriving DecidableEq

structure State (ι : Type) where
  fut : Int
  owner : Option ι
  loc : ι → Local
  calls : ι → Nat
  told : ι → Bool

variable {ι : Type}

def initial : State ι := ⟨0, none, fun _ => .idle, fun _ => 0, fun _ => false⟩

inductive Act (ι : Type)
  | lock (t : ι)
  | unlock (t : ι)
  | wait (t : ι)
  -- the next step of a thread inside `wait`; `spurious` lets the compare-exchange fail without need
  | advance (t : ι) (spurious : Bool)
  -- the store of `notify_all` or `notify_one`
  | notify (t : ι) (all : Bool)
  -- the `FUTEX_WAKE` of a notification, and whom it wakes if it wakes one
  | wake (t : ι) (woken : Option ι)

/-- It has released the mutex inside `wait` and not yet returned from `FUTEX_WAIT`. -/
def Local.released : Local → Bool
  | .pending | .asleep => true
  | _ => false

variable [DecidableEq ι]

def goto (t : ι) (l : Local) (s : State ι) : State ι := { s with loc := Function.update s.loc t l }

def advance (t : ι) (spurious : Bool) (s : State ι) : Option (State ι) :=
  match s.loc t with
  | .entry =>
    if s.fut = 1 ∧ spurious = false then some (goto t .holding { s with fut := 0 })
      else some (goto t .unlock s)
  | .unlock => some (goto t .pending { s with owner := none })
  | .pending => some (goto t (if s.fut = 0 then .asleep else .reset) s)
  | .reset => some (goto t .relock { s with fut := 0 })
  | .relock => if s.owner = none then some (goto t .holding { s with owner := some t }) else none
  | _ => none

/-- The store of 1, which tells every thread that has released the mutex. -/
def store (s : State ι) : State ι :=
  { s with fut := 1, told := fun u => s.told u || (s.loc u).released }

def rest (held : Bool) : Local := if held then .holding else .idle

/-- `FUTEX_WAKE` of all sleepers. -/
def wakeAll (s : State ι) : State ι :=
  { s with loc := fun u => if s.loc u = .asleep then .reset else s.loc u }

def wake [Fintype ι] (t : ι) (woken : Option ι) (s : State ι) : Option (State ι) :=
  match s.loc t with
  | .wake true held => some (goto t (rest held) (wakeAll s))
  | .wake false held => match woken with
    | some u => if s.loc u = .asleep then some (goto t (rest held) (goto u .reset s)) else none
    | none => if ∀ u, s.loc u ≠ .asleep then some (goto t (rest held) s) else none
  | _ => none

def step [Fintype ι] (s : State ι) : Act ι → Option (State ι)
  | .lock t =>
    if s.loc t = .idle ∧ s.owner = none then some (goto t .holding { s with owner := some t })
      else none
  | .unlock t => if s.loc t = .holding then some (goto t .idle { s with owner := none }) else none
  | .wait t =>
    if s.loc t = .holding then
      some (goto t .entry { s with
        calls := Function.update s.calls t (s.calls t + 1), told :=
          Function.update s.told t false })
    else none
  | .advance t spurious => advance t spurious s
  | .notify t all =>
    if s.loc t = .idle ∨ s.loc t = .holding then
      some (goto t (.wake all (s.loc t = .holding)) (store s))
    else none
  | .wake t woken => wake t woken s

def Step [Fintype ι] (s : State ι) (a : Act ι) (s' : State ι) : Prop := step s a = some s'

/-- Some other thread was told and has not looked at the word yet. -/
def ToldPending (s : State ι) (t : ι) : Prop := ∃ u, u ≠ t ∧ s.loc u = .pending ∧ s.told u = true

/-- The step does not set the word back from 1 to 0 before every thread that was told has looked at
it, and nobody falls asleep between the store and the `FUTEX_WAKE` of a `notify_one`. -/
def Clean (s : State ι) : Act ι → Prop
  | .advance t spurious => match s.loc t with
    | .entry => s.fut = 1 → spurious = false → ¬ ToldPending s t
    | .reset => s.fut = 1 → ¬ ToldPending s t
    | .pending => s.fut = 0 → ∀ n held, s.loc n ≠ .wake false held
    | _ => True
  | _ => True

def CleanStep [Fintype ι] (s : State ι) (a : Act ι) (s' : State ι) : Prop := Step s a s' ∧ Clean s a

/-- In the call of `wait` with number `k`, the thread is not asleep in `FUTEX_WAIT`. -/
def NotAsleep (s : State ι) (w : ι) (k : Nat) : Prop := s.calls w = k → s.loc w ≠ .asleep

/-- What the notifications that begin in `s` achieve, along the runs of `Next`. -/
structure Delivers (Next : State ι → Act ι → State ι → Prop) (s : State ι) : Prop where
  all : ∀ n s₁ bs s₂ woken s₃ cs s₄ w, Next s (.notify n true) s₁ → Run Next s₁ bs s₂ →
    Next s₂ (.wake n woken) s₃ →
    Run Next s₃ cs s₄ → (s.loc w).released = true → NotAsleep s₄ w (s.calls w)
  one : ∀ n s₁ bs s₂ woken s₃, Next s (.notify n false) s₁ → Run Next s₁ bs s₂ →
    Next s₂ (.wake n woken) s₃ →
    (∃ w, (s.loc w).released = true) →
    ∃ w, (s.loc w).released = true ∧ ∀ cs s₄, Run Next s₃ cs s₄ → NotAsleep s₄ w (s.calls w)

def Act.thread : Act ι → ι
  | .lock t | .unlock t | .wait t | .advance t _ | .notify t _ | .wake t _ => t

/-- Not between the start of `wait` and its return from `FUTEX_WAIT`. -/
def Local.past : Local → Bool
  | .entry | .unlock | .pending | .asleep => false
  | _ => true

theorem goto_loc (t u : ι) (l : Local) (s : State ι) :
    (goto t l s).loc u = if u = t then l else s.loc u :=
  Function.update_apply s.loc t l u

theorem goto_loc_self (t : ι) (l : Local) (s : State ι) : (goto t l s).loc t = l :=
  Function.update_self _ _ _

theorem goto_loc_ne {t u : ι} (l : Local) (s : State ι) (h : u ≠ t) :
    (goto t l s).loc u = s.loc u :=
  Function.update_of_ne h _ _

@[simp] theorem goto_calls (t : ι) (l : Local) (s : State ι) : (goto t l s).calls = s.calls := rfl

@[simp] theorem goto_told (t : ι) (l : Local) (s : State ι) : (goto t l s).told = s.told := rfl

section steps
variable {s s' : State ι} {a : Act ι} {t w : ι}

/-- What the steps of the others do to a thread: they may wake it and tell it. -/
structure Watched (s s' : State ι) (w : ι) : Prop where
  calls : s'.calls w = s.calls w
  loc : s'.loc w = s.loc w ∨ s.loc w = .asleep ∧ s'.loc w = .reset
  told : s'.told w = s.told w ∨ s'.fut = 1 ∧ s'.told w = (s.told w || (s.loc w).released)

/-- A thread starts a call of `wait`. -/
structure Starts (s s' : State ι) (w : ι) : Prop where
  start : s.loc w = .holding
  calls : s'.calls w = s.calls w + 1
  loc : s'.loc w = .entry
  told : s'.told w = false

/-- Any other step of its own. -/
structure Moves (s s' : State ι) (w : ι) : Prop where
  calls : s'.calls w = s.calls w
  told : s'.told w = s.told w
  awake : s.loc w ≠ .asleep
  order : (s'.loc w = .pending → s.loc w = .unlock) ∧ (s'.loc w = .unlock → s.loc w = .entry) ∧
    s'.loc w ≠ .entry
  sleeps : s'.loc w = .asleep → s.loc w = .pending ∧ s.fut = 0
  past : (s.loc w).past = true → (s'.loc w).past = true
  looked : s.loc w = .pending → s.fut ≠ 0 → (s'.loc w).past = true

theorem Watched.of_goto {l : Local} (h : w ≠ t) (hc : s'.calls w = s.calls w)
    (hl : s'.loc w = s.loc w) (ht : s'.told w = s.told w) : Watched s (goto t l s') w :=
  ⟨hc, .inl ((goto_loc_ne l s' h).trans hl), .inl ht⟩

theorem Moves.of_goto {l l' : Local} (hl : s.loc t = l) (hc : s'.calls t = s.calls t)
    (ht : s'.told t = s.told t) (ha : l ≠ .asleep)
    (ho : (l' = .pending → l = .unlock) ∧ (l' = .unlock → l = .entry) ∧ l' ≠ .entry)
    (hsl : l' = .asleep → l = .pending ∧ s.fut = 0)
    (hp : l.past = true → l'.past = true) (hlook : l = .pending → s.fut ≠ 0 → l'.past = true) :
    Moves s (goto t l' s') t := by
  refine ⟨hc, ht, hl ▸ ha, ?_, ?_, fun h => ?_, fun h h0 => ?_⟩
  · rw [goto_loc_self, hl]; exact ho
  · rw [goto_loc_self, hl]; exact hsl
  · rw [goto_loc_self]; exact hp (hl ▸ h)
  · rw [goto_loc_self]; exact hlook (hl ▸ h) h0

theorem Moves.of_rest {l : Local} {held : Bool} (hl : s.loc t = l) (hc : s'.calls t = s.calls t)
    (ht : s'.told t = s.told t) (ha : l ≠ .asleep) (hp : l ≠ .pending) :
    Moves s (goto t (rest held) s') t := by
  cases held <;>
    exact .of_goto hl hc ht ha ⟨nofun, nofun, nofun⟩ nofun (fun _ => rfl) fun h => absurd h hp

theorem advance_other {spurious : Bool} (h : advance t spurious s = some s') (hw : w ≠ t) :
    Watched s s' w := by
  unfold advance at h
  split at h
  · split at h <;> cases h <;> exact .of_goto hw rfl rfl rfl
  · cases h; exact .of_goto hw rfl rfl rfl
  · cases h; exact .of_goto hw rfl rfl rfl
  · cases h; exact .of_goto hw rfl rfl rfl
  · split at h
    · cases h; exact .of_goto hw rfl rfl rfl
    · cases h
  · cases h

theorem advance_self {spurious : Bool} (h : advance t spurious s = some s') : Moves s s' t := by
  unfold advance at h
  split at h
  · next hl =>
    split at h
    · cases h; exact .of_goto hl rfl rfl nofun ⟨nofun, nofun, nofun⟩ nofun nofun nofun
    · cases h; exact .of_goto hl rfl rfl nofun ⟨nofun, fun _ => rfl, nofun⟩ nofun nofun nofun
  · next hl =>
      cases h; exact .of_goto hl rfl rfl nofun ⟨fun _ => rfl, nofun, nofun⟩ nofun nofun nofun
  · next hl =>
    cases h
    split
    · next h0 =>
        exact .of_goto hl rfl rfl nofun ⟨nofun, nofun, nofun⟩ (fun _ => ⟨rfl, h0⟩) nofun
          fun _ hf => absurd h0 hf
    · exact .of_goto hl rfl rfl nofun ⟨nofun, nofun, nofun⟩ nofun nofun fun _ _ => rfl
  · next hl =>
      cases h; exact .of_goto hl rfl rfl nofun ⟨nofun, nofun, nofun⟩ nofun (fun _ => rfl) nofun
  · next hl =>
    split at h
    · cases h; exact .of_goto hl rfl rfl nofun ⟨nofun, nofun, nofun⟩ nofun (fun _ => rfl) nofun
    · cases h
  · cases h

variable [Fintype ι]

theorem wake_other {woken : Option ι} (h : wake t woken s = some s') (hw : w ≠ t) :
    Watched s s' w := by
  unfold wake at h
  split at h
  · cases h
    refine ⟨rfl, ?_, .inl rfl⟩
    rw [goto_loc_ne _ _ hw]
    show (if s.loc w = .asleep then _ else _) = _ ∨ _ ∧ (if s.loc w = .asleep then _ else _) = _
    split
    · next hl => exact .inr ⟨hl, rfl⟩
    · exact .inl rfl
  · split at h
    · next u =>
      split at h
      · next hu =>
        cases h
        refine ⟨rfl, ?_, .inl rfl⟩
        rw [goto_loc_ne _ _ hw, goto_loc]
        split
        · next he => exact .inr ⟨he ▸ hu, rfl⟩
        · exact .inl rfl
      · cases h
    · split at h
      · cases h; exact .of_goto hw rfl rfl rfl
      · cases h
  · cases h

theorem wake_self {woken : Option ι} (h : wake t woken s = some s') : Moves s s' t := by
  unfold wake at h
  split at h
  · next held hl => cases h; exact .of_rest hl rfl rfl nofun nofun
  · next held hl =>
    split at h
    · split at h
      · cases h; exact .of_rest hl rfl rfl nofun nofun
      · cases h
    · split at h
      · cases h; exact .of_rest hl rfl rfl nofun nofun
      · cases h
  · cases h

theorem step_other (h : Step s a s') (hw : w ≠ a.thread) : Watched s s' w := by
  cases a with
  | lock t =>
    change (if _ then _ else _) = _ at h
    split at h
    · cases h; exact .of_goto hw rfl rfl rfl
    · cases h
  | unlock t =>
    change (if _ then _ else _) = _ at h
    split at h
    · cases h; exact .of_goto hw rfl rfl rfl
    · cases h
  | wait t =>
    change (if _ then _ else _) = _ at h
    split at h
    · cases h; exact .of_goto hw (Function.update_of_ne hw _ _) rfl (Function.update_of_ne hw _ _)
    · cases h
  | advance t spurious => exact advance_other h hw
  | notify t all =>
    change (if _ then _ else _) = _ at h
    split at h
    · cases h
      exact ⟨rfl, .inl (goto_loc_ne _ _ hw), .inr ⟨rfl, rfl⟩⟩
    · cases h
  | wake t woken => exact wake_other h hw

theorem step_self (h : Step s a s') : Starts s s' a.thread ∨ Moves s s' a.thread := by
  cases a with
  | lock t =>
    change (if _ then _ else _) = _ at h
    split at h
    · next hl =>
        cases h; exact .inr (.of_goto hl.1 rfl rfl nofun ⟨nofun, nofun, nofun⟩ nofun
          (fun _ => rfl) nofun)
    · cases h
  | unlock t =>
    change (if _ then _ else _) = _ at h
    split at h
    · next hl =>
        cases h; exact .inr (.of_goto hl rfl rfl nofun ⟨nofun, nofun, nofun⟩ nofun
          (fun _ => rfl) nofun)
    · cases h
  | wait t =>
    change (if _ then _ else _) = _ at h
    split at h
    · next hl =>
        cases h; exact .inl ⟨hl, Function.update_self _ _ _, goto_loc_self _ _ _,
          Function.update_self _ _ _⟩
    · cases h
  | advance t spurious => exact .inr (advance_self h)
  | notify t all =>
    change (if _ then _ else _) = _ at h
    split at h
    · next hl =>
      cases h
      have hr : (s.loc t).released = false := by rcases hl with hl | hl <;> rw [hl] <;> rfl
      have ht : (store s).told t = s.told t := by
        show (s.told t || (s.loc t).released) = s.told t
        rw [hr, Bool.or_false]
      rcases hl with hl | hl
      · exact .inr (.of_goto hl rfl ht nofun ⟨nofun, nofun, nofun⟩ nofun (fun _ => rfl) nofun)
      · exact .inr (.of_goto hl rfl ht nofun ⟨nofun, nofun, nofun⟩ nofun (fun _ => rfl) nofun)
    · cases h
  | wake t woken => exact .inr (wake_self h)

/-- A thread that was told and has not looked finds the word at 1. -/
structure Inv (s : State ι) : Prop where
  told_fut : ∀ u, s.loc u = .pending → s.told u = true → s.fut = 1
  fresh : ∀ u, s.loc u = .entry ∨ s.loc u = .unlock → s.told u = false

omit [DecidableEq ι] [Fintype ι] in
theorem Inv.initial : Inv (initial : State ι) := ⟨fun _ h => (nomatch h), fun _ _ => rfl⟩

/-- A clean step does not take the word away from a thread that was told. -/
theorem fut_kept (h : CleanStep s a s') (hw : w ≠ a.thread) (hp : s.loc w = .pending)
    (ht : s.told w = true) (hf : s.fut = 1) : s'.fut = 1 := by
  obtain ⟨hs, hc⟩ := h
  cases a with
  | advance t spurious =>
    change advance t spurious s = some s' at hs
    change (match s.loc t with | .entry => _ | .reset => _ | .pending => _ | _ => True) at hc
    unfold advance at hs
    split at hs
    · next hl =>
      rw [hl] at hc
      split at hs
      · next hcas => exact absurd ⟨w, hw, hp, ht⟩ (hc hf hcas.2)
      · cases hs; exact hf
    · cases hs; exact hf
    · cases hs; exact hf
    · next hl =>
      rw [hl] at hc
      exact absurd ⟨w, hw, hp, ht⟩ (hc hf)
    · split at hs
      · cases hs; exact hf
      · cases hs
    · cases hs
  | lock t =>
    change (if _ then _ else _) = _ at hs
    split at hs
    · cases hs; exact hf
    · cases hs
  | unlock t =>
    change (if _ then _ else _) = _ at hs
    split at hs
    · cases hs; exact hf
    · cases hs
  | wait t =>
    change (if _ then _ else _) = _ at hs
    split at hs
    · cases hs; exact hf
    · cases hs
  | notify t all =>
    change (if _ then _ else _) = _ at hs
    split at hs
    · cases hs; rfl
    · cases hs
  | wake t woken =>
    change wake t woken s = some s' at hs
    unfold wake at hs
    split at hs
    · cases hs; exact hf
    · split at hs
      · split at hs
        · cases hs; exact hf
        · cases hs
      · split at hs
        · cases hs; exact hf
        · cases hs
    · cases hs

theorem Inv.step (hi : Inv s) (h : CleanStep s a s') : Inv s' := by
  refine ⟨fun u hp ht => ?_, fun u hl => ?_⟩
  · by_cases hu : u = a.thread
    · rcases step_self h.1 with hm | hm
      · rw [hu, hm.loc] at hp; cases hp
      · rw [hu] at hp ht
        rw [hm.told, hi.fresh _ (.inr (hm.order.1 hp))] at ht
        cases ht
    · have hm := step_other h.1 hu
      have hp' : s.loc u = .pending := by
        rcases hm.loc with hl | hl
        · rw [← hl]; exact hp
        · rw [hl.2] at hp; cases hp
      rcases hm.told with he | he
      · rw [he] at ht
        exact fut_kept h hu hp' ht (hi.told_fut u hp' ht)
      · exact he.1
  · by_cases hu : u = a.thread
    · rcases step_self h.1 with hm | hm
      · rw [hu]; exact hm.told
      · rw [hu] at hl ⊢
        rcases hl with hl | hl
        · exact absurd hl hm.order.2.2
        · rw [hm.told]; exact hi.fresh _ (.inl (hm.order.2.1 hl))
    · have hm := step_other h.1 hu
      have hl' : s.loc u = .entry ∨ s.loc u = .unlock := by
        rcases hm.loc with he | he
        · rw [← he]; exact hl
        · rw [he.2] at hl; rcases hl with hl | hl <;> cases hl
      have hr : (s.loc u).released = false := by rcases hl' with he | he <;> rw [he] <;> rfl
      rcases hm.told with he | he
      · rw [he]; exact hi.fresh u hl'
      · rw [he.2, hr, Bool.or_false]; exact hi.fresh u hl'

/-- The thread will not fall asleep in its call with number `k`: the call is over, it has returned
from `FUTEX_WAIT`, or it was told and has not looked yet. -/
def Sure (s : State ι) (w : ι) (k : Nat) : Prop :=
  k < s.calls w ∨ s.calls w = k ∧ ((s.loc w).past = true ∨ s.loc w = .pending ∧ s.told w = true)

omit [DecidableEq ι] [Fintype ι] in
theorem Sure.notAsleep {k : Nat} (h : Sure s w k) : NotAsleep s w k := by
  intro hk hl
  rcases h with h | ⟨_, h | h⟩
  · omega
  · rw [hl] at h; cases h
  · rw [hl] at h; cases h.1

theorem Sure.step {k : Nat} (hs : Sure s w k) (hi : Inv s) (h : CleanStep s a s') :
    Sure s' w k := by
  by_cases hw : w = a.thread
  · subst hw
    rcases step_self h.1 with hm | hm
    · refine .inl ?_
      rw [hm.calls]
      rcases hs with hs | hs <;> omega
    · rcases hs with hs | ⟨hk, hs | ⟨hp, ht⟩⟩
      · exact .inl (hm.calls ▸ hs)
      · exact .inr ⟨hm.calls.trans hk, .inl (hm.past hs)⟩
      · exact .inr ⟨hm.calls.trans hk, .inl (hm.looked hp (by rw [hi.told_fut _ hp ht]; decide))⟩
  · have hm := step_other h.1 hw
    rcases hs with hs | ⟨hk, hs⟩
    · exact .inl (hm.calls ▸ hs)
    · refine .inr ⟨hm.calls.trans hk, ?_⟩
      rcases hm.loc with hl | hl
      · rw [hl]
        refine hs.imp id fun hs => ⟨hs.1, ?_⟩
        rcases hm.told with he | he
        · exact he.trans hs.2
        · rw [he.2, hs.2, Bool.true_or]
      · exact .inl (by rw [hl.2]; rfl)

theorem Sure.run {k : Nat} {as : List (Act ι)} (hs : Sure s w k) (hi : Inv s)
    (h : Run CleanStep s as s') :
    Sure s' w k :=
  (h.invariant (I := fun r => Inv r ∧ Sure r w k) ⟨hi, hs⟩ fun _ _ _ hr hst =>
    ⟨hr.1.step hst, hr.2.step hr.1 hst⟩).2

/-- Where the thread of a step is. -/
def Enabled (s : State ι) : Act ι → Prop
  | .lock t => s.loc t = .idle
  | .unlock t | .wait t => s.loc t = .holding
  | .advance t _ =>
    s.loc t ≠ .idle ∧ s.loc t ≠ .holding ∧ s.loc t ≠ .asleep ∧ ∀ all held, s.loc t ≠ .wake all held
  | .notify t _ => s.loc t = .idle ∨ s.loc t = .holding
  | .wake t _ => ∃ all held, s.loc t = .wake all held

theorem step_enabled (h : Step s a s') : Enabled s a := by
  cases a with
  | lock t =>
    change (if _ then _ else _) = _ at h
    split at h
    · next hl => exact hl.1
    · cases h
  | unlock t =>
    change (if _ then _ else _) = _ at h
    split at h
    · assumption
    · cases h
  | wait t =>
    change (if _ then _ else _) = _ at h
    split at h
    · assumption
    · cases h
  | advance t spurious =>
    change advance t spurious s = some s' at h
    unfold advance at h
    split at h
    · next hl => rw [Enabled, hl]; exact ⟨nofun, nofun, nofun, nofun⟩
    · next hl => rw [Enabled, hl]; exact ⟨nofun, nofun, nofun, nofun⟩
    · next hl => rw [Enabled, hl]; exact ⟨nofun, nofun, nofun, nofun⟩
    · next hl => rw [Enabled, hl]; exact ⟨nofun, nofun, nofun, nofun⟩
    · next hl => rw [Enabled, hl]; exact ⟨nofun, nofun, nofun, nofun⟩
    · cases h
  | notify t all =>
    change (if _ then _ else _) = _ at h
    split at h
    · assumption
    · cases h
  | wake t woken =>
    change wake t woken s = some s' at h
    unfold wake at h
    split at h
    · next held hl => exact ⟨true, held, hl⟩
    · next held hl => exact ⟨false, held, hl⟩
    · cases h

/-- A notifier between its store and its `FUTEX_WAKE` has no other step. -/
theorem wake_of_notifier {all held : Bool} (h : Step s a s')
    (hl : s.loc a.thread = .wake all held) :
    ∃ woken, a = .wake a.thread woken := by
  have he := step_enabled h
  cases a with
  | wake t woken => exact ⟨woken, rfl⟩
  | lock t => cases hl.symm.trans he
  | unlock t => cases hl.symm.trans he
  | wait t => cases hl.symm.trans he
  | advance t spurious => exact absurd hl (he.2.2.2 all held)
  | notify t all' => rcases he with he | he <;> cases hl.symm.trans he

/-- The step of a notifier is its `FUTEX_WAKE`. -/
theorem wake_of_waking {all held : Bool} (h : Step s a s') (hl : s.loc a.thread = .wake all held) :
    ∃ woken, FutexCondvar.wake a.thread woken s = some s' := by
  obtain ⟨woken, ha⟩ := wake_of_notifier h hl
  refine ⟨woken, ?_⟩
  rw [ha] at h
  exact h

/-- Sleepers have no step. -/
theorem thread_not_asleep (h : Step s a s') : s.loc a.thread ≠ .asleep := by
  rcases step_self h with hm | hm
  · rw [hm.start]
    exact nofun
  · exact hm.awake

/-- In a clean run nobody falls asleep while a `notify_one` is between its two steps. -/
theorem asleep_kept {n u : ι} {held : Bool} (h : CleanStep s a s') (hn : s.loc n = .wake false held)
    (hu : s'.loc u = .asleep) : s.loc u = .asleep := by
  by_cases hw : u = a.thread
  · subst hw
    rcases step_self h.1 with hm | hm
    · rw [hm.loc] at hu; cases hu
    · obtain ⟨hp, h0⟩ := hm.sleeps hu
      have he := step_enabled h.1
      have hc := h.2
      cases a with
      | advance t spurious =>
        change (match s.loc t with | .entry => _ | .reset => _ | .pending => _ | _ => True) at hc
        rw [show s.loc t = .pending from hp] at hc
        exact absurd hn (hc h0 n held)
      | lock t => cases hp.symm.trans he
      | unlock t => cases hp.symm.trans he
      | wait t => cases hp.symm.trans he
      | notify t all => rcases he with he | he <;> cases hp.symm.trans he
      | wake t woken => obtain ⟨_, _, he⟩ := he; cases hp.symm.trans he
  · rcases (step_other h.1 hw).loc with hl | hl
    · rw [← hl]; exact hu
    · rw [hl.2] at hu; cases hu

/-- What the store of a notification leaves of a thread that had released the mutex. -/
theorem notified {n : ι} {all : Bool} (h : Step s (.notify n all) s')
    (hw : (s.loc w).released = true) :
    s'.loc w = s.loc w ∧ s'.calls w = s.calls w ∧ s'.told w = true := by
  have hn : w ≠ n := by
    rintro rfl
    rcases step_enabled h with he | he <;> rw [he] at hw <;> cases hw
  change (if _ then _ else _) = _ at h
  split at h
  · cases h
    refine ⟨goto_loc_ne _ _ hn, rfl, ?_⟩
    show (s.told w || (s.loc w).released) = true
    rw [hw, Bool.or_true]
  · cases h

theorem notifier_waits {n : ι} {all : Bool} (h : Step s (.notify n all) s') :
    ∃ held, s'.loc n = .wake all held := by
  change (if _ then _ else _) = _ at h
  split at h
  · cases h; exact ⟨_, goto_loc_self _ _ _⟩
  · cases h

/-- Behind its `FUTEX_WAKE` a notifier is at rest. -/
theorem at_rest {n : ι} {woken : Option ι} (h : Step s (.wake n woken) s') :
    ∃ held, s'.loc n = rest held := by
  change wake n woken s = some s' at h
  unfold wake at h
  split at h
  · cases h; exact ⟨_, goto_loc_self _ _ _⟩
  · split at h
    · split at h
      · cases h; exact ⟨_, goto_loc_self _ _ _⟩
      · cases h
    · split at h
      · cases h; exact ⟨_, goto_loc_self _ _ _⟩
      · cases h
  · cases h

omit [DecidableEq ι] [Fintype ι] in
theorem released_cases (h : (s.loc w).released = true) :
    s.loc w = .pending ∨ s.loc w = .asleep := by
  cases hl : s.loc w with
  | pending => exact .inl rfl
  | asleep => exact .inr rfl
  | _ => rw [hl] at h; cases h

/-- A sleeper that a step wakes is through. -/
theorem sure_of_woken {k : Nat} (h : Step s a s') (hl : s.loc w = .asleep) (hk : s.calls w = k)
    (hl' : s'.loc w ≠ .asleep) :
    Sure s' w k := by
  have hw : w ≠ a.thread := fun he => thread_not_asleep h (he ▸ hl)
  have hm := step_other h hw
  refine .inr ⟨hm.calls.trans hk, .inl ?_⟩
  rcases hm.loc with he | he
  · exact absurd (he.trans hl) hl'
  · rw [he.2]; rfl

/-- `notify_all` leaves nobody asleep. -/
theorem woken_all {held : Bool} (h : Step s a s') (hn : s.loc a.thread = .wake true held)
    (hl : s.loc w = .asleep) :
    s'.loc w ≠ .asleep := by
  intro hl'
  have hw : w ≠ a.thread := fun he => thread_not_asleep h (he ▸ hl)
  obtain ⟨woken, hstep⟩ := wake_of_waking h hn
  rw [FutexCondvar.wake, hn] at hstep
  cases hstep
  rw [goto_loc_ne _ _ hw] at hl'
  change (if s.loc w = .asleep then _ else _) = _ at hl'
  rw [if_pos hl] at hl'
  cases hl'

/-- `notify_one` wakes a sleeper if there is one. -/
theorem woken_one {held : Bool} (h : Step s a s') (hn : s.loc a.thread = .wake false held)
    (hl : s.loc w = .asleep) :
    ∃ u, s.loc u = .asleep ∧ s'.loc u ≠ .asleep := by
  obtain ⟨woken, hstep⟩ := wake_of_waking h hn
  rw [FutexCondvar.wake, hn] at hstep
  cases woken with
  | some u =>
    simp only at hstep
    split at hstep
    · next hu =>
      cases hstep
      refine ⟨u, hu, fun hl' => ?_⟩
      have hut : u ≠ a.thread := fun he => thread_not_asleep h (he ▸ hu)
      rw [goto_loc_ne _ _ hut, goto_loc_self] at hl'
      cases hl'
    · cases hstep
  | none =>
    simp only at hstep
    split at hstep
    · next hno => exact absurd hl (hno w)
    · cases hstep

/-- Until `notify_all` wakes everybody, a thread that slept when it began sleeps on or is
through. -/
def AllWindow (n w : ι) (k : Nat) (s : State ι) : Prop :=
  Sure s w k ∨ s.loc w = .asleep ∧ s.calls w = k ∧ ∃ held, s.loc n = .wake true held

theorem AllWindow.step {n : ι} {k : Nat} (hs : AllWindow n w k s) (hi : Inv s)
    (h : CleanStep s a s') :
    AllWindow n w k s' := by
  rcases hs with hs | ⟨hl, hk, held, hn⟩
  · exact .inl (hs.step hi h)
  · by_cases hl' : s'.loc w = .asleep
    · have hw : w ≠ a.thread := fun he => thread_not_asleep h.1 (he ▸ hl)
      by_cases ht : n = a.thread
      · exact absurd hl' (woken_all h.1 (ht ▸ hn) hl)
      · have hm := step_other h.1 ht
        refine .inr ⟨hl', (step_other h.1 hw).calls.trans hk, held, ?_⟩
        rcases hm.loc with he | he
        · exact he.trans hn
        · rw [hn] at he; cases he.1
    · exact .inl (sure_of_woken h.1 hl hk hl')

/-- Until `notify_one` wakes one, exactly the threads of `r` sleep, or one of them is through. -/
def OneWindow (n : ι) (r : State ι) (s : State ι) : Prop :=
  (∃ w, (r.loc w).released = true ∧ Sure s w (r.calls w)) ∨
    (∃ held, s.loc n = .wake false held) ∧
      (∀ w, (r.loc w).released = true → s.loc w = .asleep ∧ s.calls w = r.calls w) ∧
      (∀ u, s.loc u = .asleep → (r.loc u).released = true)

theorem OneWindow.step {n : ι} {r : State ι} (hr : ∃ w, (r.loc w).released = true)
    (hs : OneWindow n r s) (hi : Inv s) (h : CleanStep s a s') : OneWindow n r s' := by
  rcases hs with ⟨w, hw, hs⟩ | ⟨⟨held, hn⟩, hasleep, honly⟩
  · exact .inl ⟨w, hw, hs.step hi h⟩
  · by_cases hall : ∀ w, (r.loc w).released = true → s'.loc w = .asleep
    · have hother : ∀ w, (r.loc w).released = true → w ≠ a.thread := fun w hw he =>
        thread_not_asleep h.1 (he ▸ (hasleep w hw).1)
      have hnt : n ≠ a.thread := by
        intro ht
        obtain ⟨w, hw⟩ := hr
        obtain ⟨u, hu, hu'⟩ := woken_one h.1 (ht ▸ hn) (hasleep w hw).1
        exact hu' (hall u (honly u hu))
      refine .inr ⟨⟨held, ?_⟩, fun w hw => ⟨hall w hw, ?_⟩,
        fun u hu => honly u (asleep_kept h hn hu)⟩
      · rcases (step_other h.1 hnt).loc with he | he
        · exact he.trans hn
        · rw [hn] at he; cases he.1
      · exact (step_other h.1 (hother w hw)).calls.trans (hasleep w hw).2
    · push Not at hall
      obtain ⟨w, hw, hl⟩ := hall
      obtain ⟨hl', hk⟩ := hasleep w hw
      exact .inl ⟨w, hw, sure_of_woken h.1 hl' hk hl⟩

theorem Inv.run {as : List (Act ι)} (hi : Inv s) (h : Run CleanStep s as s') : Inv s' :=
  h.invariant hi fun _ _ _ hi hs => hi.step hs

theorem Inv.delivers_all (hi : Inv s) {n : ι} {woken : Option ι} {s₁ s₂ s₃ : State ι}
    {bs : List (Act ι)} (hb : CleanStep s (.notify n true) s₁) (hr : Run CleanStep s₁ bs s₂)
    (he : CleanStep s₂ (.wake n woken) s₃)
    (hw : (s.loc w).released = true) : Sure s₃ w (s.calls w) := by
  obtain ⟨hl, hk, ht⟩ := notified hb.1 hw
  have hi₁ := hi.step hb
  have hwin : AllWindow n w (s.calls w) s₁ := by
    rcases released_cases hw with hp | hp
    · exact .inl (.inr ⟨hk, .inr ⟨hl.trans hp, ht⟩⟩)
    · exact .inr ⟨hl.trans hp, hk, notifier_waits hb.1⟩
  have hwin₃ : AllWindow n w (s.calls w) s₃ :=
    ((hr.snoc he).invariant (I := fun r => Inv r ∧ AllWindow n w (s.calls w) r) ⟨hi₁, hwin⟩
      fun _ _ _ h hs => ⟨h.1.step hs, h.2.step h.1 hs⟩).2
  refine hwin₃.resolve_right ?_
  -- the notifier is at rest behind its `FUTEX_WAKE`
  intro ⟨_, _, held, hn⟩
  obtain ⟨held', hrest⟩ : ∃ held', s₃.loc n = rest held' := at_rest he.1
  rw [hrest] at hn
  cases held' <;> cases hn

theorem Inv.delivers_one (hi : Inv s) {n : ι} {woken : Option ι} {s₁ s₂ s₃ : State ι}
    {bs : List (Act ι)} (hb : CleanStep s (.notify n false) s₁) (hr : Run CleanStep s₁ bs s₂)
    (he : CleanStep s₂ (.wake n woken) s₃) (hw : ∃ w, (s.loc w).released = true) :
    ∃ w, (s.loc w).released = true ∧ Sure s₃ w (s.calls w) := by
  have hi₁ := hi.step hb
  have hwin : OneWindow n s s₁ := by
    by_cases hp : ∃ w, s.loc w = .pending
    · obtain ⟨w, hp⟩ := hp
      have hrel : (s.loc w).released = true := by rw [hp]; rfl
      obtain ⟨hl, hk, ht⟩ := notified hb.1 hrel
      exact .inl ⟨w, hrel, .inr ⟨hk, .inr ⟨hl.trans hp, ht⟩⟩⟩
    · refine .inr ⟨notifier_waits hb.1, fun w hw => ?_, fun u hu => ?_⟩
      · obtain ⟨hl, hk, _⟩ := notified hb.1 hw
        exact ⟨hl.trans ((released_cases hw).resolve_left fun h => hp ⟨w, h⟩), hk⟩
      · have hun : u ≠ n := by
          rintro rfl
          obtain ⟨held, hn⟩ := notifier_waits hb.1
          cases hu.symm.trans hn
        rcases (step_other hb.1 hun).loc with h | h
        · rw [← h, hu]; rfl
        · rw [h.2] at hu; cases hu
  have hwin₃ : OneWindow n s s₃ :=
    ((hr.snoc he).invariant (I := fun r => Inv r ∧ OneWindow n s r) ⟨hi₁, hwin⟩
      fun _ _ _ h hs => ⟨h.1.step hs, h.2.step hw h.1 hs⟩).2
  refine hwin₃.resolve_right ?_
  intro ⟨⟨held, hn⟩, _⟩
  obtain ⟨held', hrest⟩ := at_rest he.1
  rw [hrest] at hn
  cases held' <;> cases hn

end steps

/-- In every run of clean steps, `notify_all` reaches every thread that had released the mutex, and
`notify_one` one of them. -/
theorem delivers_in_clean_runs [Fintype ι] {as : List (Act ι)} {s : State ι}
    (h : Run CleanStep initial as s) :
    Delivers CleanStep s := by
  have hi : Inv s := Inv.initial.run h
  refine ⟨fun n s₁ bs s₂ woken s₃ cs s₄ w hb hr he hc hw => ?_,
    fun n s₁ bs s₂ woken s₃ hb hr he hw => ?_⟩
  · have hi₃ : Inv s₃ := ((hi.step hb).run hr).step he
    exact ((hi.delivers_all hb hr he hw).run hi₃ hc).notAsleep
  · have hi₃ : Inv s₃ := ((hi.step hb).run hr).step he
    obtain ⟨w, hw, hs⟩ := hi.delivers_one hb hr he hw
    exact ⟨w, hw, fun cs s₄ hc => (hs.run hi₃ hc).notAsleep⟩

/-- A thread has been woken by a notification, waits again, and sleeps when the next one begins. -/
theorem delivers_to_sleeper_again :
    ∃ s : State Bool, s.loc true = .asleep ∧ s.calls true = 2 ∧ Delivers CleanStep s := by
  have h₁ : Run CleanStep (initial : State Bool) [.lock true] _ :=
    .single ⟨show step _ (.lock true) = some _ from rfl, trivial⟩
  have h₂ := h₁.snoc ⟨show step _ (.wait true) = some _ from rfl, trivial⟩
  have h₃ := h₂.snoc ⟨show step _ (.advance true false) = some _ from rfl,
    fun h => absurd h (by decide)⟩
  have h₄ := h₃.snoc ⟨show step _ (.advance true false) = some _ from rfl, trivial⟩
  have h₅ := h₄.snoc ⟨show step _ (.advance true false) = some _ from rfl,
    fun _ n held h => by cases n <;> cases h⟩
  have h₆ := h₅.snoc ⟨show step _ (.notify false true) = some _ from rfl, trivial⟩
  have h₇ := h₆.snoc ⟨show step _ (.wake false none) = some _ from rfl, trivial⟩
  have h₈ := h₇.snoc ⟨show step _ (.advance true false) = some _ from rfl,
    fun _ h => absurd h (by unfold ToldPending; decide)⟩
  have h₉ := h₈.snoc ⟨show step _ (.advance true false) = some _ from rfl, trivial⟩
  have h₁₀ := h₉.snoc ⟨show step _ (.wait true) = some _ from rfl, trivial⟩
  have h₁₁ := h₁₀.snoc ⟨show step _ (.advance true false) = some _ from rfl,
    fun h => absurd h (by decide)⟩
  have h₁₂ := h₁₁.snoc ⟨show step _ (.advance true false) = some _ from rfl, trivial⟩
  have h₁₃ := h₁₂.snoc ⟨show step _ (.advance true false) = some _ from rfl,
    fun _ n held h => by cases n <;> cases h⟩
  exact ⟨_, rfl, rfl, delivers_in_clean_runs h₁₃⟩

/-- Two threads release the mutex in `wait`; `notify_all` begins and completes; the first looks at
the word and resets it; the second falls asleep. -/
theorem notification_erased :
    ∃ (as : List (Act (Fin 3))) (s : State (Fin 3)), Run Step initial as s ∧ ¬ Delivers Step s := by
  have h₁ : Run Step (initial : State (Fin 3)) [.lock 0] _ :=
    .single (show step _ (.lock 0) = some _ from rfl)
  have h₂ := h₁.snoc (show step _ (.wait 0) = some _ from rfl)
  have h₃ := h₂.snoc (show step _ (.advance 0 false) = some _ from rfl)
  have h₄ := h₃.snoc (show step _ (.advance 0 false) = some _ from rfl)
  have h₅ := h₄.snoc (show step _ (.lock 1) = some _ from rfl)
  have h₆ := h₅.snoc (show step _ (.wait 1) = some _ from rfl)
  have h₇ := h₆.snoc (show step _ (.advance 1 false) = some _ from rfl)
  have h₈ := h₇.snoc (show step _ (.advance 1 false) = some _ from rfl)
  obtain ⟨s, h₈, hrun⟩ : ∃ s : State (Fin 3), Run Step initial _ s ∧
    ∃ s₁ s₃ s₄, Step s (.notify 2 true) s₁ ∧ Step s₁ (.wake 2 none) s₃ ∧
      Run Step s₃ ([.advance 0 false] ++ [.advance 0 false] ++ [.advance 1 false]) s₄ ∧
        (s.loc 1).released = true ∧
      s₄.calls 1 = s.calls 1 ∧ s₄.loc 1 = .asleep :=
    ⟨_, h₈, _, _, _, show step _ _ = some _ from rfl, show step _ _ = some _ from rfl,
      ((Run.single (show step _ _ = some _ from rfl)).snoc (show step _ _ = some _ from rfl)).snoc
        (show step _ _ = some _ from rfl), by decide, by decide, by decide⟩
  obtain ⟨s₁, s₃, s₄, hb, he, hc, hw, hk, hl⟩ := hrun
  exact ⟨_, s, h₈, fun hd => hd.all 2 s₁ [] s₁ none s₃ _ s₄ 1 hb .nil he hc hw hk hl⟩

end Gpcl.Sync.FutexCondvar
