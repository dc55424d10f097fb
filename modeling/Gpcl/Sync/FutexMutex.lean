import Gpcl.Lib.Runs
import Mathlib.Data.Fintype.Basic
import Mathlib.Logic.Function.Basic

/-! # futex_mutex

Threads over one futex word. Every compare-exchange and every futex call is one step; the
kernel compares and sleeps in one step, and a wake picks any of the sleepers. -/
namespace Gpcl.Sync.FutexMutex
open Lib.Runs

def futexLocked : Int := 0
def futexUnlocked : Int := 1

/-- The first loop of `lock()`. -/
def spinCount : Nat := 10

/-- The next step of a thread; `idle` and `holding` are at rest. -/
inductive Local
  | idle
  -- the compare-exchange of the first loop
  | spin (i : Nat)
  -- the compare-exchange of the second loop
  | retry
  -- `FUTEX_WAIT` of the second loop
  | wait
  | asleep
  | holding
  -- `FUTEX_WAKE` of `unlock()`
  | wake
  -- the branch "futex not locked" of `unlock()`
  | notLocked
deriving DecidableEq

structure State (ι : Type) where
  fut : Int
  loc : ι → Local

variable {ι : Type} {s s' : State ι}

def initial : State ι := ⟨futexUnlocked, fun _ => .idle⟩

inductive Act (ι : Type)
  | lock (t : ι)
  | tryLock (t : ι)
  | unlock (t : ι)
  -- the next step of a thread inside `lock()`
  | advance (t : ι)
  -- `FUTEX_WAKE` of `unlock()` and the thread that it wakes
  | wake (t : ι) (woken : Option ι)

/-- Awake inside `lock()`, and not about to fall asleep. -/
def AboutToRetry (s : State ι) (t : ι) : Prop :=
  (∃ i, s.loc t = .spin i) ∨ s.loc t = .retry ∨ (s.loc t = .wait ∧ s.fut ≠ 0)

structure Safe (s : State ι) : Prop where
  exclusive : ∀ t u, s.loc t = .holding → s.loc u = .holding → t = u
  locked_iff : s.fut = futexLocked ↔ ∃ t, s.loc t = .holding
  unlock_locked : ∀ t, s.loc t ≠ .notLocked
  no_lost_wakeup : (∀ t, s.loc t ≠ .holding) → ∀ t, s.loc t = .asleep →
    ∃ u, u ≠ t ∧ (s.loc u = .wake ∨ AboutToRetry s u)

/-- Awake with a futex call or a compare-exchange before it. -/
def Local.watching : Local → Bool
  | .wake | .spin _ | .retry | .wait => true
  | _ => false

/-- The word is locked exactly under a holder, and a free mutex with a sleeper has somebody who
will wake it or try again. -/
structure Inv (s : State ι) : Prop where
  exclusive : ∀ t u, s.loc t = .holding → s.loc u = .holding → t = u
  held : (∃ t, s.loc t = .holding) → s.fut = futexLocked
  free : (∀ t, s.loc t ≠ .holding) → s.fut = futexUnlocked
  unlock_locked : ∀ t, s.loc t ≠ .notLocked
  watched : s.fut = futexUnlocked → (∃ t, s.loc t = .asleep) → ∃ u, (s.loc u).watching = true

theorem Inv.initial : Inv (initial : State ι) where
  exclusive _ _ h := nomatch h
  held h := nomatch h
  free _ := rfl
  unlock_locked _ h := nomatch h
  watched _ h := nomatch h

theorem Inv.safe (hi : Inv s) : Safe s := by
  refine ⟨hi.exclusive, ⟨fun hf => ?_, hi.held⟩, hi.unlock_locked, fun hfree t ht => ?_⟩
  · by_contra hno
    have h := hi.free fun t ht => hno ⟨t, ht⟩
    exact absurd (hf.symm.trans h) (by decide)
  · have hf := hi.free hfree
    obtain ⟨u, hu⟩ := hi.watched hf ⟨t, ht⟩
    refine ⟨u, fun he => ?_, ?_⟩
    · rw [he, ht] at hu
      cases hu
    · have hne : s.fut ≠ 0 := by rw [hf]; decide
      cases hl : s.loc u with
      | wake => exact .inl rfl
      | spin i => exact .inr (.inl ⟨i, hl⟩)
      | retry => exact .inr (.inr (.inl hl))
      | wait => exact .inr (.inr (.inr ⟨hl, hne⟩))
      | idle => rw [hl] at hu; cases hu
      | asleep => rw [hl] at hu; cases hu
      | holding => rw [hl] at hu; cases hu
      | notLocked => rw [hl] at hu; cases hu

variable [DecidableEq ι]

def goto (t : ι) (l : Local) (s : State ι) : State ι := { s with loc := Function.update s.loc t l }

/-- `__atomic_compare_exchange_n(&fut_, futex_unlocked, futex_locked)`, and where the thread goes if
it fails. -/
def acquire (t : ι) (failed : Local) (s : State ι) : State ι :=
  if s.fut = futexUnlocked then goto t .holding { s with fut := futexLocked } else goto t failed s

def advance (t : ι) (s : State ι) : Option (State ι) :=
  match s.loc t with
  | .spin i => some (acquire t (if i + 1 < spinCount then .spin (i + 1) else .retry) s)
  | .retry => some (acquire t .wait s)
  -- the kernel compares the word with 0; otherwise `EAGAIN`
  | .wait => some (goto t (if s.fut = 0 then .asleep else .retry) s)
  | _ => none

def step [Fintype ι] (s : State ι) : Act ι → Option (State ι)
  | .lock t => if s.loc t = .idle then some (goto t (.spin 0) s) else none
  | .tryLock t => if s.loc t = .idle then some (acquire t .idle s) else none
  | .unlock t =>
    if s.loc t = .holding then
      if s.fut = futexLocked then some (goto t .wake { s with fut := futexUnlocked })
        else some (goto t .notLocked s)
    else none
  | .advance t => advance t s
  | .wake t woken =>
    if s.loc t = .wake then
      match woken with
      | some u => if s.loc u = .asleep then some (goto t .idle (goto u .retry s)) else none
      | none => if ∀ u, s.loc u ≠ .asleep then some (goto t .idle s) else none
    else none

def Step [Fintype ι] (s : State ι) (a : Act ι) (s' : State ι) : Prop := step s a = some s'

@[simp] theorem goto_fut (t : ι) (l : Local) (s : State ι) : (goto t l s).fut = s.fut := rfl

theorem goto_loc (t u : ι) (l : Local) (s : State ι) :
    (goto t l s).loc u = if u = t then l else s.loc u :=
  Function.update_apply s.loc t l u

theorem goto_loc_self (t : ι) (l : Local) (s : State ι) : (goto t l s).loc t = l :=
  Function.update_self _ _ _

theorem goto_loc_ne {t u : ι} (l : Local) (s : State ι) (h : u ≠ t) :
    (goto t l s).loc u = s.loc u :=
  Function.update_of_ne h _ _

/-- A thread moves on without taking or releasing the mutex, and a sleeper stays watched. -/
theorem Inv.moved (hi : Inv s) {t : ι} {l : Local} (ht : s.loc t ≠ .holding)
    (hl : l ≠ .holding ∧ l ≠ .notLocked) (hs : s.fut = futexUnlocked → l ≠ .asleep)
    (hw : s.fut = futexUnlocked → (∃ u, s.loc u = .asleep) →
      l.watching = true ∨ ∃ u, u ≠ t ∧ (s.loc u).watching = true) : Inv (goto t l s) := by
  have hold : ∀ u, (goto t l s).loc u = .holding ↔ s.loc u = .holding := by
    intro u
    rw [goto_loc]
    split
    · next he => exact ⟨fun h => absurd h hl.1, fun h => absurd (he ▸ h) ht⟩
    · exact Iff.rfl
  refine ⟨fun u v hu hv => hi.exclusive u v ((hold u).mp hu) ((hold v).mp hv),
    fun ⟨u, hu⟩ => hi.held ⟨u, (hold u).mp hu⟩,
    fun h => hi.free fun u hu => h u ((hold u).mpr hu), fun u => ?_, fun hf ⟨u, hu⟩ => ?_⟩
  · rw [goto_loc]
    split
    · exact hl.2
    · exact hi.unlock_locked u
  · have hsleep : s.loc u = .asleep := by
      rw [goto_loc] at hu
      split at hu
      · exact absurd hu (hs hf)
      · exact hu
    rcases hw hf ⟨u, hsleep⟩ with h | ⟨v, hv, h⟩
    · exact ⟨t, by rw [goto_loc_self]; exact h⟩
    · exact ⟨v, by rw [goto_loc_ne l s hv]; exact h⟩

/-- A thread that stays awake in `lock()`, or enters it. -/
theorem Inv.awake (hi : Inv s) {t : ι} {l : Local} (ht : s.loc t ≠ .holding)
    (hl : l.watching = true) : Inv (goto t l s) := by
  have hne : l ≠ .holding ∧ l ≠ .notLocked ∧ l ≠ .asleep := by
    refine ⟨?_, ?_, ?_⟩ <;> rintro rfl <;> exact Bool.false_ne_true hl
  exact hi.moved ht ⟨hne.1, hne.2.1⟩ (fun _ => hne.2.2) fun _ _ => .inl hl

/-- The compare-exchange from unlocked to locked. -/
theorem Inv.taken (hi : Inv s) {t : ι} (hf : s.fut = futexUnlocked) :
    Inv (goto t .holding { s with fut := futexLocked }) := by
  have hno : ∀ u, s.loc u ≠ .holding :=
    fun u hu => absurd ((hi.held ⟨u, hu⟩).symm.trans hf) (by decide)
  have hold : ∀ u, (goto t .holding { s with fut := futexLocked }).loc u = .holding → u = t := by
    intro u hu
    rw [goto_loc] at hu
    split at hu
    · assumption
    · exact absurd hu (hno u)
  refine ⟨fun u v hu hv => (hold u hu).trans (hold v hv).symm, fun _ => rfl,
    fun h => absurd (goto_loc_self _ _ _) (h t),
    fun u => ?_, fun h => absurd (show futexLocked = futexUnlocked from h) (by decide)⟩
  rw [goto_loc]
  split
  · exact nofun
  · exact hi.unlock_locked u

/-- A compare-exchange that may fail. -/
theorem Inv.acquired (hi : Inv s) {t : ι} {l : Local}
    (h : s.fut ≠ futexUnlocked → Inv (goto t l s)) :
    Inv (acquire t l s) := by
  rw [acquire]
  split
  · next hf => exact hi.taken hf
  · next hf => exact h hf

/-- The holder's compare-exchange in `unlock()`; it goes on to `FUTEX_WAKE`. -/
theorem Inv.released (hi : Inv s) {t : ι} (ht : s.loc t = .holding) :
    Inv (goto t .wake { s with fut := futexUnlocked }) := by
  have hno : ∀ u, (goto t .wake { s with fut := futexUnlocked }).loc u ≠ .holding := by
    intro u hu
    rw [goto_loc] at hu
    split at hu
    · cases hu
    · next hne => exact hne (hi.exclusive u t hu ht)
  refine ⟨fun u _ hu => absurd hu (hno u), fun ⟨u, hu⟩ => absurd hu (hno u), fun _ => rfl,
    fun u => ?_,
    fun _ _ => ⟨t, by rw [goto_loc_self]; rfl⟩⟩
  rw [goto_loc]
  split
  · exact nofun
  · exact hi.unlock_locked u

theorem Inv.advance (hi : Inv s) {t : ι} (h : advance t s = some s') : Inv s' := by
  unfold FutexMutex.advance at h
  split at h
  · next i hl =>
    cases h
    refine hi.acquired fun _ => hi.awake (by rw [hl]; exact nofun) ?_
    split <;> rfl
  · next hl =>
    cases h
    exact hi.acquired fun _ => hi.awake (by rw [hl]; exact nofun) rfl
  · next hl =>
    cases h
    split
    · next hf =>
      -- the word is 0, so nobody needs to be woken
      exact hi.moved (by rw [hl]; exact nofun) ⟨nofun, nofun⟩
        (fun h => absurd (hf.symm.trans h) (by decide))
        fun h => absurd (hf.symm.trans h) (by decide)
    · exact hi.awake (by rw [hl]; exact nofun) rfl
  · cases h

/-- `FUTEX_WAKE`: a sleeper goes back to its compare-exchange, or there is none. -/
theorem Inv.woken [Fintype ι] (hi : Inv s) {t : ι} {woken : Option ι}
    (h : step s (.wake t woken) = some s') : Inv s' := by
  change (if _ then _ else _) = _ at h
  split at h
  · next ht =>
    cases woken with
    | some u =>
      simp only at h
      split at h
      · next hu =>
        cases h
        have hut : u ≠ t := fun he => by rw [he, ht] at hu; cases hu
        have hi' : Inv (goto u .retry s) := hi.awake (by rw [hu]; exact nofun) rfl
        refine hi'.moved (by rw [goto_loc_ne _ _ hut.symm, ht]; exact nofun) ⟨nofun, nofun⟩
          (fun _ => nofun) fun _ _ => ?_
        exact .inr ⟨u, hut, by rw [goto_loc_self]; rfl⟩
      · cases h
    | none =>
      simp only at h
      split at h
      · next hno =>
        cases h
        exact hi.moved (by rw [ht]; exact nofun) ⟨nofun, nofun⟩ (fun _ => nofun)
          fun _ ⟨u, hu⟩ => absurd hu (hno u)
      · cases h
  · cases h

theorem Inv.step [Fintype ι] {a : Act ι} (hi : Inv s) (h : Step s a s') : Inv s' := by
  cases a with
  | lock t =>
    change (if _ then _ else _) = _ at h
    split at h
    · next hl => cases h; exact hi.awake (by rw [hl]; exact nofun) rfl
    · cases h
  | tryLock t =>
    change (if _ then _ else _) = _ at h
    split at h
    · next hl =>
      cases h
      refine hi.acquired fun hf =>
        hi.moved (by rw [hl]; exact nofun) ⟨nofun, nofun⟩ (fun _ => nofun) fun h => absurd h hf
    · cases h
  | unlock t =>
    change (if _ then _ else _) = _ at h
    split at h
    · next hl =>
      rw [if_pos (hi.held ⟨t, hl⟩)] at h
      cases h
      exact hi.released hl
    · cases h
  | advance t => exact hi.advance h
  | wake t woken => exact hi.woken h

/-- Any number of threads, any interleaving: at most one thread holds the mutex, the word tells
whether one does, `unlock()` finds it locked, and no wake-up is lost. -/
theorem safe_along_runs [Fintype ι] {as : List (Act ι)} (h : Run Step initial as s) : Safe s :=
  (h.invariant Inv.initial fun _ _ _ hi hs => hi.step hs).safe

/-- One thread holds the mutex while another goes to sleep, and then releases it. -/
theorem safe_sleep_and_wake :
    ∃ s : State (Fin 2), s.loc 1 = .asleep ∧ s.loc 0 = .wake ∧ Safe s := by
  have h₀ : Run Step (initial : State (Fin 2)) [.tryLock 0] _ :=
    .single (show step _ (.tryLock 0) = some _ from rfl)
  have h₀ := h₀.snoc (show step _ (.lock 1) = some _ from rfl)
  have hspin : ∀ {as : List (Act (Fin 2))} {s}, Run Step initial as s →
    ∀ s', step s (.advance 1) = some s' →
      Run Step initial (as ++ [.advance 1]) s' := fun h _ hs => h.snoc hs
  have h₁ := hspin (hspin (hspin (hspin (hspin (hspin h₀ _ rfl) _ rfl) _ rfl) _ rfl) _ rfl) _ rfl
  have h₂ := hspin (hspin (hspin (hspin (hspin (hspin h₁ _ rfl) _ rfl) _ rfl) _ rfl) _ rfl) _ rfl
  have h₃ := h₂.snoc (show step _ (.unlock 0) = some _ from rfl)
  exact ⟨_, rfl, rfl, safe_along_runs h₃⟩

end Gpcl.Sync.FutexMutex
