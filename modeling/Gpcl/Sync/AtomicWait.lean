import Gpcl.Lib.Parties
import Gpcl.Lib.Runs
import Mathlib.Data.Fintype.Card

/-! # futex_atomic_wait

Atomics whose size is that of a futex word are waited for on the atomic itself, all others on the
proxy word of one of 16 slots, which atomics share. A call of `wake` remembers which threads were
asleep in `wait` on the atomic when it began: they wait on it until they wake up, and so does every
thread that is inside `wait`. A notification is delivered when one of them is awake at the end of
the call. -/
namespace Gpcl.Sync.AtomicWait
open Lib.Parties Lib.Runs

variable {ι A V : Type}

/-- Where the atomics are, and whether they have the size of a futex word. -/
structure Layout (A : Type) where
  address : A → Nat
  wordSized : A → Bool

/-- The index of `for_`. -/
def Layout.slot (l : Layout A) (a : A) : Fin 16 :=
  ⟨(l.address a >>> 2) % 16, Nat.mod_lt _ (by decide)⟩

/-- `wait_address`: the atomic itself or the proxy of its slot. -/
def Layout.waitAddress (l : Layout A) (a : A) : A ⊕ Fin 16 :=
  if l.wordSized a then .inl a else .inr (l.slot a)

/-- The next step of a thread. -/
inductive Loc (ι A V : Type)
  | idle
  -- `wait`: the load of `event`
  | load (a : A) (old : V)
  -- `wait`: the first load of the atomic
  | check (a : A) (old : V) (event : V ⊕ BitVec 32)
  -- `wait`: the constructor of `waiter`
  | enter (a : A) (old : V) (event : V ⊕ BitVec 32)
  -- `wait`: `FUTEX_WAIT`
  | pending (a : A) (old : V) (event : V ⊕ BitVec 32)
  | asleep (a : A) (old : V) (event : V ⊕ BitVec 32)
  -- `wait`: the load of the atomic in the loop
  | reload (a : A) (old : V) (event : V ⊕ BitVec 32)
  -- `wait`: the destructor of `waiter`
  | leave (a : A)
  -- `wake`: the increment of the proxy
  | bump (a : A) (all : Bool) (began : Finset ι)
  -- `wake`: `is_waiting`
  | look (a : A) (all : Bool) (began : Finset ι)
  -- `wake`: `FUTEX_WAKE`
  | wake (a : A) (all : Bool) (began : Finset ι)

structure State (ι A V : Type) where
  value : A → V
  proxy : Fin 16 → BitVec 32
  waiterCount : Fin 16 → BitVec 32
  loc : ι → Loc ι A V

def initial (value : A → V) : State ι A V := ⟨value, fun _ => 0, fun _ => 0, fun _ => .idle⟩

/-- The atomic on which a thread is asleep. -/
def Loc.asleepOn : Loc ι A V → Option A
  | .asleep a _ _ => some a
  | _ => none

/-- The atomic in whose `wait` a thread is. -/
def Loc.waitsOn : Loc ι A V → Option A
  | .load a _ | .check a _ _ | .enter a _ _ | .pending a _ _ | .asleep a _ _ | .reload a _ _ |
    .leave a => some a
  | _ => none

/-- `FUTEX_WAIT` returns. -/
def Loc.returned : Loc ι A V → Loc ι A V
  | .asleep a old event => .reload a old event
  | loc => loc

inductive Act (ι A V : Type)
  | store (a : A) (v : V)
  | wait (t : ι) (a : A) (old : V)
  | notify (t : ι) (a : A) (all : Bool)
  -- the next step of a thread inside `wait` or `wake`, up to `FUTEX_WAKE`
  | advance (t : ι)
  -- `FUTEX_WAKE`, and whom it wakes
  | futexWake (t : ι) (chosen : Finset ι)
  -- `FUTEX_WAIT` returns without a `FUTEX_WAKE`
  | interrupt (t : ι)

variable [DecidableEq ι] [DecidableEq A] [DecidableEq V] (l : Layout A)

def goto (t : ι) (x : Loc ι A V) (s : State ι A V) : State ι A V :=
  { s with loc := Function.update s.loc t x }

/-- What a load of the wait address gives. -/
def eventOf (s : State ι A V) (a : A) : V ⊕ BitVec 32 :=
  if l.wordSized a then .inl (s.value a) else .inr (s.proxy (l.slot a))

def addWaiters (k : Fin 16) (n : BitVec 32) (s : State ι A V) : State ι A V :=
  { s with waiterCount := Function.update s.waiterCount k (s.waiterCount k + n) }

def advance (t : ι) (s : State ι A V) : Option (State ι A V) :=
  match s.loc t with
  | .load a old => some (goto t (.check a old (eventOf l s a)) s)
  | .check a old event => some (goto t (if s.value a = old then .enter a old event else .idle) s)
  | .enter a old event => some (goto t (.pending a old event) (addWaiters (l.slot a) 1 s))
  | .pending a old event =>
    some (goto t (if eventOf l s a = event then .asleep a old event else .reload a old event) s)
  | .reload a old event =>
    some (goto t (if s.value a = old then .pending a old event else .leave a) s)
  | .leave a => some (goto t .idle (addWaiters (l.slot a) (-1) s))
  | .bump a all began =>
    if l.wordSized a then some (goto t (.look a true began) s)
    else some (goto t (.look a all began)
      { s with proxy := Function.update s.proxy (l.slot a) (s.proxy (l.slot a) + 1) })
  | .look a all began =>
    some (goto t (if 0 < (s.waiterCount (l.slot a)).toInt then .wake a all began else .idle) s)
  | _ => none

/-- Threads come back from `FUTEX_WAIT`. -/
def awaken (chosen : Finset ι) (s : State ι A V) : State ι A V :=
  { s with loc := fun u => if u ∈ chosen then (s.loc u).returned else s.loc u }

variable [Fintype ι]

/-- The threads asleep on a futex word. -/
def sleepers (s : State ι A V) (k : A ⊕ Fin 16) : Finset ι :=
  Finset.univ.filter fun u => (s.loc u).asleepOn.map l.waitAddress = some k

/-- `FUTEX_WAKE` with the number of threads to be woken. -/
def futexWake (t : ι) (chosen : Finset ι) (s : State ι A V) : Option (State ι A V) :=
  match s.loc t with
  | .wake a all _ =>
    let nwaiters := if all then 2 ^ 31 - 1 else 1
    let asleep := sleepers l s (l.waitAddress a)
    if chosen ⊆ asleep ∧ chosen.card = min nwaiters asleep.card
      then some (goto t .idle (awaken chosen s)) else none
  | _ => none

def step (s : State ι A V) : Act ι A V → Option (State ι A V)
  | .store a v => some { s with value := Function.update s.value a v }
  | .wait t a old => match s.loc t with
    | .idle => some (goto t (.load a old) s)
    | _ => none
  | .notify t a all => match s.loc t with
    | .idle =>
      some (goto t (.bump a all (Finset.univ.filter fun u => (s.loc u).asleepOn = some a)) s)
    | _ => none
  | .advance t => advance l t s
  | .futexWake t chosen => futexWake l t chosen s
  | .interrupt t => match s.loc t with
    | .asleep _ _ _ => some (awaken {t} s)
    | _ => none

def Step (s : State ι A V) (a : Act ι A V) (s' : State ι A V) : Prop := step l s a = some s'

/-- The call of `wake` that a thread is in: the atomic, and the threads that were asleep on it when
the call began. -/
def Loc.waking : Loc ι A V → Option (A × Finset ι)
  | .bump a _ began | .look a _ began | .wake a _ began => some (a, began)
  | _ => none

/-- The last step of a call of `wake`. -/
def EndsCall (s : State ι A V) (t : ι) (s' : State ι A V) : Prop :=
  (Step l s (.advance t) s' ∨ ∃ chosen, Step l s (.futexWake t chosen) s') ∧ s'.loc t = .idle

/-- A thread that waits on the atomic is awake: one that is inside `wait`, or one that was asleep
there when the call of `wake` began. -/
def Awake (s : State ι A V) (a : A) (began : Finset ι) : Prop :=
  ∃ u, (u ∈ began ∨ (s.loc u).waitsOn = some a) ∧ (s.loc u).asleepOn ≠ some a

/-- A `FUTEX_WAKE` of one thread, made while everybody who waits on the atomic is asleep, finds
nobody asleep on the same word in a `wait` on another atomic. -/
def Unshared (s : State ι A V) (t : ι) : Prop :=
  match s.loc t with
  | .wake a false began =>
    (∀ u, u ∈ began ∨ (s.loc u).waitsOn = some a → (s.loc u).asleepOn = some a) →
      ∀ u b, (s.loc u).asleepOn = some b → l.waitAddress b = l.waitAddress a → b = a
  | _ => True

/-- Between the constructor and the destructor of `waiter`, on an atomic of the slot. -/
def Loc.waits (l : Layout A) (k : Fin 16) : Loc ι A V → Bool
  | .pending a _ _ | .asleep a _ _ | .reload a _ _ | .leave a => l.slot a == k
  | _ => false

/-- `waiter_count` counts the threads that are there. -/
def Counted (s : State ι A V) : Prop :=
  ∀ k, s.waiterCount k = BitVec.ofNat 32 (tally (Loc.waits l k) s.loc)

section
variable {l} {s s' : State ι A V} {t : ι} {a : A} {x : Loc ι A V} {began : Finset ι}

omit [DecidableEq ι] [DecidableEq A] [DecidableEq V] in
theorem Counted.initial (value : A → V) : Counted l (initial value : State ι A V) := by
  intro k
  have hzero : tally (Loc.waits l k) (AtomicWait.initial value : State ι A V).loc = 0 :=
    tally_eq_zero fun _ => rfl
  rw [hzero]
  rfl

omit [DecidableEq A] [DecidableEq V] in
/-- A thread moves on, and `waiter_count` follows it. -/
theorem Counted.moved (hi : Counted l s) {value : A → V} {proxy : Fin 16 → BitVec 32}
    {count : Fin 16 → BitVec 32} (hcount : ∀ k,
      count k + BitVec.ofNat 32 ((s.loc t).waits l k).toNat = s.waiterCount k + BitVec.ofNat 32
      (x.waits l k).toNat) :
    Counted l (⟨value, proxy, count, Function.update s.loc t x⟩ : State ι A V) := by
  intro k
  have htally := tally_update (Loc.waits l k) s.loc t x
  have hk := hcount k
  rw [hi k] at hk
  have hsum :
      BitVec.ofNat 32 (tally (Loc.waits l k) (Function.update s.loc t x)) +
        BitVec.ofNat 32 ((s.loc t).waits l k).toNat =
      BitVec.ofNat 32 (tally (Loc.waits l k) s.loc) + BitVec.ofNat 32 (x.waits l k).toNat := by
    rw [← BitVec.ofNat_add, ← BitVec.ofNat_add, htally]
  exact (BitVec.add_left_inj _).mp (hk.trans hsum.symm)

omit [DecidableEq A] [DecidableEq V] in
/-- A move that neither enters nor leaves a slot. -/
theorem Counted.goes (hi : Counted l s) {value : A → V} {proxy : Fin 16 → BitVec 32}
    (h : ∀ k, x.waits l k = (s.loc t).waits l k) :
    Counted l (⟨value, proxy, s.waiterCount, Function.update s.loc t x⟩ : State ι A V) := by
  refine hi.moved fun k => ?_
  rw [h k]

omit [DecidableEq A] in
theorem Counted.advance (hi : Counted l s) (h : advance l t s = some s') : Counted l s' := by
  unfold AtomicWait.advance at h
  split at h
  · next a old hloc =>
    obtain rfl := Option.some.inj h
    refine hi.goes fun k => ?_
    rw [hloc]
    rfl
  · next a old event hloc =>
    obtain rfl := Option.some.inj h
    refine hi.goes fun k => ?_
    rw [hloc]
    split <;> rfl
  · next a old event hloc =>
    obtain rfl := Option.some.inj h
    refine hi.moved fun k => ?_
    by_cases hk : l.slot a = k
    · simp [hloc, Loc.waits, addWaiters, hk]
    · have hbeq : (l.slot a == k) = false := beq_eq_false_iff_ne.mpr hk
      simp [hloc, Loc.waits, addWaiters, hbeq, Function.update_of_ne (Ne.symm hk)]
  · next a old event hloc =>
    obtain rfl := Option.some.inj h
    refine hi.goes fun k => ?_
    rw [hloc]
    split <;> rfl
  · next a old event hloc =>
    obtain rfl := Option.some.inj h
    refine hi.goes fun k => ?_
    rw [hloc]
    split <;> rfl
  · next a hloc =>
    obtain rfl := Option.some.inj h
    refine hi.moved fun k => ?_
    by_cases hk : l.slot a = k
    · simp [hloc, Loc.waits, addWaiters, hk, BitVec.add_assoc]
    · have hbeq : (l.slot a == k) = false := beq_eq_false_iff_ne.mpr hk
      simp [hloc, Loc.waits, addWaiters, hbeq, Function.update_of_ne (Ne.symm hk)]
  · next a all began hloc =>
    have hstay : ∀ b k, (Loc.look a b began : Loc ι A V).waits l k = (s.loc t).waits l k :=
        fun b k => by
      rw [hloc]
      rfl
    split at h
    · obtain rfl := Option.some.inj h
      exact hi.goes (hstay true)
    · obtain rfl := Option.some.inj h
      exact hi.goes (hstay all)
  · next a all began hloc =>
    obtain rfl := Option.some.inj h
    refine hi.goes fun k => ?_
    rw [hloc]
    split <;> rfl
  · cases h

/-! ## Threads are woken -/

omit [DecidableEq ι] [DecidableEq A] [DecidableEq V] [Fintype ι] in
theorem waits_returned (l : Layout A) (k : Fin 16) (x : Loc ι A V) :
    x.returned.waits l k = x.waits l k := by
  cases x with
  | _ => rfl

omit [DecidableEq ι] [DecidableEq A] [DecidableEq V] [Fintype ι] in
theorem waitsOn_returned (x : Loc ι A V) : x.returned.waitsOn = x.waitsOn := by
  cases x with
  | _ => rfl

omit [DecidableEq ι] [DecidableEq A] [DecidableEq V] [Fintype ι] in
theorem asleepOn_returned (x : Loc ι A V) : x.returned.asleepOn = none := by
  cases x with
  | _ => rfl

omit [DecidableEq ι] [DecidableEq A] [DecidableEq V] [Fintype ι] in
theorem waitsOn_of_asleepOn (h : x.asleepOn = some a) : x.waitsOn = some a := by
  cases x with
  | asleep b old event => exact h
  | _ => cases h

omit [DecidableEq A] [DecidableEq V] in
theorem Counted.awaken (hi : Counted l s) (chosen : Finset ι) : Counted l (awaken chosen s) := by
  intro k
  have hsame : ∀ u, ((AtomicWait.awaken chosen s).loc u).waits l k = (s.loc u).waits l k :=
      fun u => by
    simp only [AtomicWait.awaken]
    split
    · exact waits_returned l k _
    · rfl
  have htally :
      tally (Loc.waits l k) (AtomicWait.awaken chosen s).loc = tally (Loc.waits l k) s.loc := by
    simp only [tally, hsame]
  rw [htally]
  exact hi k

omit [DecidableEq A] [DecidableEq V] [Fintype ι] in
theorem loc_awaken {all : Bool} (chosen : Finset ι) (hloc : s.loc t = .wake a all began) :
    (awaken chosen s).loc t = .wake a all began := by
  simp [awaken, hloc, Loc.returned]

omit [DecidableEq V] in
theorem Counted.futexWake {chosen : Finset ι} (hi : Counted l s)
    (h : futexWake l t chosen s = some s') : Counted l s' := by
  unfold AtomicWait.futexWake at h
  split at h
  · next a all began hloc =>
    obtain ⟨-, h⟩ := Option.ite_none_right_eq_some.mp h
    obtain rfl := Option.some.inj h
    refine (hi.awaken chosen).goes fun k => ?_
    rw [loc_awaken chosen hloc]
    rfl
  · cases h

theorem Counted.step {act : Act ι A V} (hi : Counted l s) (h : Step l s act s') : Counted l s' := by
  cases act with
  | store a v =>
    obtain rfl := Option.some.inj h
    exact hi
  | wait t a old =>
    simp only [Step, AtomicWait.step] at h
    split at h
    · next hloc =>
      obtain rfl := Option.some.inj h
      refine hi.goes fun k => ?_
      rw [hloc]
      rfl
    · cases h
  | notify t a all =>
    simp only [Step, AtomicWait.step] at h
    split at h
    · next hloc =>
      obtain rfl := Option.some.inj h
      refine hi.goes fun k => ?_
      rw [hloc]
      rfl
    · cases h
  | advance t => exact hi.advance h
  | futexWake t chosen => exact hi.futexWake h
  | interrupt t =>
    simp only [Step, AtomicWait.step] at h
    split at h
    · obtain rfl := Option.some.inj h
      exact hi.awaken {t}
    · cases h

/-! ## The end of a call -/

omit [DecidableEq ι] [DecidableEq A] [DecidableEq V] in
/-- While a thread is asleep on the atomic `is_waiting` is true. -/
theorem Counted.isWaiting (hcard : Fintype.card ι < 2 ^ 31) (hi : Counted l s) {u : ι}
    (hu : (s.loc u).asleepOn = some a) :
    0 < (s.waiterCount (l.slot a)).toInt := by
  have hpos : 0 < tally (Loc.waits l (l.slot a)) s.loc := by
    refine tally_pos (i := u) ?_
    cases hloc : s.loc u with
    | asleep b old event =>
      obtain rfl : b = a := by simpa [hloc, Loc.asleepOn] using hu
      simp [Loc.waits]
    | _ => simp [hloc, Loc.asleepOn] at hu
  have hle : tally (Loc.waits l (l.slot a)) s.loc ≤ Fintype.card ι := Finset.card_filter_le _ _
  rw [hi, BitVec.toInt_eq_toNat_of_lt]
  · rw [BitVec.toNat_ofNat, Nat.mod_eq_of_lt (by omega)]
    exact_mod_cast hpos
  · rw [BitVec.toNat_ofNat, Nat.mod_eq_of_lt (by omega)]
    omega

omit [DecidableEq V] [DecidableEq ι] in
theorem mem_sleepers {u : ι} {k : A ⊕ Fin 16} :
    u ∈ sleepers l s k ↔ ∃ b, (s.loc u).asleepOn = some b ∧ l.waitAddress b = k := by
  simp [sleepers]

omit [DecidableEq ι] [DecidableEq A] [DecidableEq V] [Fintype ι] in
/-- If nobody is awake, those who were asleep when the call began still are. -/
theorem exists_asleep_of_not_awake (hne : began.Nonempty) (h : ¬ Awake s a began) :
    ∃ u, (s.loc u).asleepOn = some a := by
  obtain ⟨u, hu⟩ := hne
  refine ⟨u, ?_⟩
  by_contra hasleep
  exact h ⟨u, .inl hu, hasleep⟩

omit [DecidableEq A] [DecidableEq V] [Fintype ι] in
/-- Whoever is awake stays so when a call ends. -/
theorem Awake.goto (h : Awake s a began) (ht : (s.loc t).waitsOn = none) :
    Awake (goto t .idle s) a began := by
  obtain ⟨u, hu, hasleep⟩ := h
  by_cases hut : u = t
  · subst hut
    rw [ht] at hu
    refine ⟨u, .inl (hu.resolve_right nofun), ?_⟩
    simp [AtomicWait.goto, Loc.asleepOn]
  · refine ⟨u, ?_, ?_⟩
    · simpa [AtomicWait.goto, hut] using hu
    · simpa [AtomicWait.goto, hut] using hasleep

omit [DecidableEq A] [DecidableEq V] [Fintype ι] in
theorem Awake.awaken (h : Awake s a began) (chosen : Finset ι) :
    Awake (awaken chosen s) a began := by
  obtain ⟨u, hu, hasleep⟩ := h
  refine ⟨u, ?_, ?_⟩
  · simp only [AtomicWait.awaken]
    split
    · rw [waitsOn_returned]
      exact hu
    · exact hu
  · simp only [AtomicWait.awaken]
    split
    · rw [asleepOn_returned]
      exact nofun
    · exact hasleep

omit [DecidableEq A] [DecidableEq V] [Fintype ι] in
/-- A thread asleep on the atomic is woken. -/
theorem awake_awaken {chosen : Finset ι} {u : ι} (hu : u ∈ chosen)
    (ha : (s.loc u).asleepOn = some a) : Awake (awaken chosen s) a began := by
  refine ⟨u, .inr ?_, ?_⟩
  · simp only [awaken, if_pos hu, waitsOn_returned]
    exact waitsOn_of_asleepOn ha
  · simp only [awaken, if_pos hu, asleepOn_returned]
    exact nofun

omit [DecidableEq A] [Fintype ι] in
/-- A call that does not come to `FUTEX_WAKE`: nobody waits in the slot. -/
theorem advance_idle (h : advance l t s = some s') (ht : (s.loc t).waking = some (a, began))
    (hidle : s'.loc t = .idle) :
    ¬ 0 < (s.waiterCount (l.slot a)).toInt ∧ (s.loc t).waitsOn = none ∧ s' = goto t .idle s := by
  unfold advance at h
  cases hloc : s.loc t with
  | bump b all n =>
    simp only [hloc] at h
    split at h
    · obtain rfl := Option.some.inj h
      simp [goto] at hidle
    · obtain rfl := Option.some.inj h
      simp [goto] at hidle
  | look b all n =>
    simp only [hloc] at h
    obtain rfl := Option.some.inj h
    obtain ⟨rfl, -⟩ : b = a ∧ _ := by simpa [hloc, Loc.waking] using ht
    have hpos : ¬ 0 < (s.waiterCount (l.slot b)).toInt := fun hpos => by simp [goto, hpos] at hidle
    rw [if_neg hpos]
    exact ⟨hpos, rfl, rfl⟩
  | wake b all n =>
    simp only [hloc] at h
    cases h
  | _ => simp [hloc, Loc.waking] at ht

omit [DecidableEq V] in
theorem futexWake_eq {chosen : Finset ι} (h : futexWake l t chosen s = some s')
    (ht : (s.loc t).waking = some (a, began)) : ∃ all,
    s.loc t = .wake a all began ∧ chosen ⊆ sleepers l s (l.waitAddress a) ∧
      chosen.card = min (if all then 2 ^ 31 - 1 else 1) (sleepers l s (l.waitAddress a)).card ∧
      s' = goto t .idle (awaken chosen s) := by
  unfold futexWake at h
  split at h
  · next b all n hloc =>
    obtain ⟨⟨hsub, hcard⟩, h⟩ := Option.ite_none_right_eq_some.mp h
    obtain ⟨rfl, rfl⟩ : b = a ∧ n = began := by simpa [hloc, Loc.waking] using ht
    exact ⟨all, hloc, hsub, hcard, (Option.some.inj h).symm⟩
  · cases h

omit [DecidableEq V] [DecidableEq ι] in
/-- A `FUTEX_WAKE` of all wakes everybody who is asleep on the word. -/
theorem chosen_all (hcard : Fintype.card ι < 2 ^ 31) {chosen : Finset ι} {k : A ⊕ Fin 16}
    (hsub : chosen ⊆ sleepers l s k)
    (hc : chosen.card = min (2 ^ 31 - 1) (sleepers l s k).card) : chosen = sleepers l s k := by
  have hle : (sleepers l s k).card ≤ Fintype.card ι := Finset.card_le_univ _
  refine Finset.eq_of_subset_of_card_le hsub ?_
  rw [hc, Nat.min_eq_right (by omega)]

omit [DecidableEq V] in
/-- A `FUTEX_WAKE` wakes a thread asleep on the atomic when it wakes all, or when the word is not
shared. -/
theorem awake_of_unshared (hcard : Fintype.card ι < 2 ^ 31) (hne : began.Nonempty)
    {chosen : Finset ι} (ht : (s.loc t).waking = some (a, began)) (hu : Unshared l s t)
    (h : futexWake l t chosen s = some s') : Awake s' a began := by
  obtain ⟨all, hloc, hsub, hc, rfl⟩ := futexWake_eq h ht
  refine Awake.goto ?_ (by rw [loc_awaken chosen hloc]; rfl)
  by_cases hawake : Awake s a began
  · exact hawake.awaken chosen
  · obtain ⟨u, hasleep⟩ := exists_asleep_of_not_awake hne hawake
    have hmem : u ∈ sleepers l s (l.waitAddress a) := mem_sleepers.mpr ⟨a, hasleep, rfl⟩
    cases all with
    | true => exact awake_awaken (chosen_all hcard hsub hc ▸ hmem) hasleep
    | false =>
      have hpos : 0 < (sleepers l s (l.waitAddress a)).card := Finset.card_pos.mpr ⟨u, hmem⟩
      have hone : 0 < chosen.card := by
        simp only [Bool.false_eq_true, if_false] at hc
        omega
      obtain ⟨w, hw⟩ := Finset.card_pos.mp hone
      obtain ⟨b, hb, hword⟩ := mem_sleepers.mp (hsub hw)
      simp only [Unshared, hloc] at hu
      obtain rfl := hu (fun v hv => by_contra fun hnot => hawake ⟨v, hv, hnot⟩) w b hb hword
      exact awake_awaken hw hb

omit [DecidableEq V] in
/-- A `FUTEX_WAKE` of one thread may choose anyone who is asleep on the word. -/
theorem futexWake_one {w : ι} {c : A} (hloc : s.loc t = .wake a false began)
    (hw : (s.loc w).asleepOn = some c) (hword : l.waitAddress c = l.waitAddress a) :
    futexWake l t {w} s = some (goto t .idle (awaken {w} s)) := by
  have hmem : w ∈ sleepers l s (l.waitAddress a) := mem_sleepers.mpr ⟨c, hw, hword⟩
  have hpos : 0 < (sleepers l s (l.waitAddress a)).card := Finset.card_pos.mpr ⟨w, hmem⟩
  have hlegal : ({w} : Finset ι) ⊆ sleepers l s (l.waitAddress a) ∧
      ({w} : Finset ι).card = min 1 (sleepers l s (l.waitAddress a)).card := by
    refine ⟨Finset.singleton_subset_iff.mpr hmem, ?_⟩
    rw [Finset.card_singleton]
    omega
  unfold futexWake
  simp only [hloc, Bool.false_eq_true, if_false]
  exact if_pos hlegal

omit [DecidableEq A] [DecidableEq V] [Fintype ι] in
/-- A thread is woken that waits on another atomic, and nobody else is. -/
theorem not_awake_of_other {w : ι} {c : A}
    (hall : ∀ u, u ∈ began ∨ (s.loc u).waitsOn = some a → (s.loc u).asleepOn = some a)
    (hw : (s.loc w).asleepOn = some c) (hne : c ≠ a) (ht : (s.loc t).asleepOn = none) :
    ¬ Awake (goto t .idle (awaken {w} s)) a began := by
  rintro ⟨u, hu, hasleep⟩
  have hut : u ≠ t := by
    rintro rfl
    have hmem : u ∈ began := hu.resolve_right (by simp [goto, Loc.waitsOn])
    rw [hall u (.inl hmem)] at ht
    cases ht
  have hwaits : (s.loc u).waitsOn = ((goto t .idle (awaken {w} s)).loc u).waitsOn := by
    simp only [goto, awaken, Function.update_of_ne hut]
    split
    · exact (waitsOn_returned _).symm
    · rfl
  have hon := hall u (hwaits ▸ hu)
  have huw : u ∉ ({w} : Finset ι) := by
    intro hmem
    rw [Finset.mem_singleton.mp hmem, hw] at hon
    exact hne (Option.some.inj hon)
  refine hasleep ?_
  simp only [goto, awaken, Function.update_of_ne hut, if_neg huw]
  exact hon

omit [DecidableEq V] in
/-- A thread of another atomic on the same word may be chosen. -/
theorem not_awake_of_shared (ht : (s.loc t).waking = some (a, began)) (hu : ¬ Unshared l s t) :
    ∃ chosen s', futexWake l t chosen s = some s' ∧ s'.loc t = .idle ∧ ¬ Awake s' a began := by
  unfold Unshared at hu
  split at hu
  · next b n hloc =>
    obtain ⟨rfl, rfl⟩ : b = a ∧ n = began := by simpa [hloc, Loc.waking] using ht
    push Not at hu
    obtain ⟨hall, w, c, hw, hword, hne⟩ := hu
    exact ⟨{w}, _, futexWake_one hloc hw hword, by simp [goto],
      not_awake_of_other hall hw hne (by rw [hloc]; rfl)⟩
  · exact absurd trivial hu

omit [DecidableEq V] [DecidableEq ι] [DecidableEq A] [Fintype ι] in
/-- An atomic of the size of a futex word has its own. -/
theorem unshared_of_wordSized (ht : (s.loc t).waking = some (a, began))
    (ha : l.wordSized a = true) : Unshared l s t := by
  unfold Unshared
  split
  · next b n hloc =>
    obtain ⟨rfl, rfl⟩ : b = a ∧ n = began := by simpa [hloc, Loc.waking] using ht
    intro _ u c _ hword
    unfold Layout.waitAddress at hword
    rw [if_pos ha] at hword
    split at hword
    · exact Sum.inl.inj hword
    · cases hword
  · trivial

end

/-- Two atomics of eight bytes in slot 0. -/
def sharedSlot : Layout Bool := ⟨fun a => if a then 128 else 64, fun _ => false⟩

end Gpcl.Sync.AtomicWait
