import Mathlib.Data.List.Count
import Mathlib.Data.List.Range
import Mathlib.Data.List.Nodup

/-! # lock(m1, m2, m3, ...)

A mutex is its place among the arguments. `free` says of each one what `try_lock` on it returns
while the attempt runs: an attempt asks for none twice. The recursive call in
`try_lock_range_helper` is the helper for the indices that are left. -/
namespace Gpcl.Sync.LockMany

/-- How often the caller holds each mutex. -/
abbrev Held : Type := Nat → Nat

def Held.take (m : Nat) (s : Held) : Held := fun i => if i = m then s i + 1 else s i

def Held.give (m : Nat) (s : Held) : Held := fun i => if i = m then s i - 1 else s i

structure UniqueLock where
  mutex : Nat
  ownsLock : Bool

namespace UniqueLock

/-- `unique_lock(mutex_type &)`. -/
def locked (m : Nat) (s : Held) : UniqueLock × Held := (⟨m, true⟩, s.take m)

/-- `unique_lock(mutex_type &, try_to_lock_t)`. -/
def tried (free : Nat → Bool) (m : Nat) (s : Held) : UniqueLock × Held :=
  if free m then (⟨m, true⟩, s.take m) else (⟨m, false⟩, s)

def release (l : UniqueLock) : UniqueLock := { l with ownsLock := false }

/-- `~unique_lock()`. -/
def destroy (l : UniqueLock) (s : Held) : Held := if l.ownsLock then s.give l.mutex else s

end UniqueLock

open UniqueLock

def integerSequenceRange (Begin End : Nat) : List Nat := (List.range (End - Begin)).map (· + Begin)

section
variable (free : Nat → Bool)

def tryLockRangeHelper : List Nat → Held → Bool × Held
  | [], s => (true, s)
  | I :: Is, s =>
    let (lockI, s) := tried free I s
    if lockI.ownsLock then
      let (all, s) := tryLockRangeHelper Is s
      if all then (true, lockI.release.destroy s) else (false, lockI.destroy s)
    else (false, lockI.destroy s)

def tryLockRange (Begin End : Nat) (s : Held) : Bool × Held :=
  tryLockRangeHelper free (integerSequenceRange Begin End) s

/-- `attempt_lock_n_first<N>` for `k` mutexes. -/
def attemptLockNFirst (k N : Nat) (s : Held) : Bool × Held :=
  let (lock1, s) := locked N s
  let (before, s) := tryLockRange free 0 N s
  if before then
    let (after, s) := tryLockRange free (N + 1) k s
    if after then (true, lock1.release.destroy s) else (false, lock1.destroy s)
  else (false, lock1.destroy s)

end

/-- `(attempt_lock_n_first<Is>(ms) || ...)`; the mutexes may be free in each attempt as they
will. -/
def attemptLockManyHelper (free : Nat → Nat → Bool) (k : Nat) : List Nat → Held → Bool × Held
  | [], s => (false, s)
  | I :: Is, s =>
    let (all, s) := attemptLockNFirst (free I) k I s
    if all then (true, s) else attemptLockManyHelper free k Is s

def attemptLockMany (free : Nat → Nat → Bool) (k : Nat) (s : Held) : Bool × Held :=
  attemptLockManyHelper free k (List.range k) s

def nothing : Held := fun _ => 0

/-- Who has tried holds everything once, or nothing. -/
def AllOrNothing (k : Nat) (r : Bool × Held) : Prop := ∀ i < k, r.2 i = if r.1 then 1 else 0

/-! ## What an attempt does -/

section
variable {free : Nat → Bool} {m i k : Nat} {s : Held}

@[simp] theorem destroy_release (l : UniqueLock) (s : Held) : l.release.destroy s = s := rfl

@[simp] theorem give_take (m : Nat) (s : Held) : (s.take m).give m = s := by
  funext i
  unfold Held.give Held.take
  split
  · exact Nat.add_sub_cancel _ 1
  · rfl

/-- What an object has locked and not released, its destructor unlocks. -/
theorem destroy_owned (m : Nat) (s : Held) : (⟨m, true⟩ : UniqueLock).destroy s = s.give m := rfl

theorem take_add (m : Nat) (Is : List Nat) (s : Held) :
    (fun i => s.take m i + Is.count i) = fun i => s i + (m :: Is).count i := by
  funext i
  rw [Held.take, List.count_cons]
  by_cases h : i = m
  · rw [if_pos h, if_pos (beq_iff_eq.mpr h.symm)]
    omega
  · rw [if_neg h, if_neg (fun he => h (beq_iff_eq.mp he).symm)]
    rfl

/-- One more each if all are free, and nothing otherwise: by induction on the indices, the object
for the first one undoes its own lock when the others fail. -/
theorem tryLockRangeHelper_eq (Is : List Nat) (s : Held) :
    tryLockRangeHelper free Is s = if Is.all free then (true, fun i => s i + Is.count i)
    else (false, s) := by
  induction Is generalizing s with
  | nil => rfl
  | cons I Is ih =>
    rw [tryLockRangeHelper, tried]
    cases hI : free I with
    | false => simp [hI, destroy]
    | true =>
      simp only [if_true, ih, List.all_cons, hI, Bool.true_and]
      by_cases hall : Is.all free = true
      · simp only [hall, if_true, destroy_release, take_add]
      · simp only [hall, Bool.false_eq_true, if_false, destroy_owned, give_take]

theorem mem_range {Begin End : Nat} : i ∈ integerSequenceRange Begin End ↔ Begin ≤ i ∧ i < End := by
  simp only [integerSequenceRange, List.mem_map, List.mem_range]
  constructor
  · rintro ⟨j, hj, rfl⟩
    omega
  · rintro ⟨h1, h2⟩
    exact ⟨i - Begin, by omega, by omega⟩

theorem count_range (Begin End i : Nat) :
    (integerSequenceRange Begin End).count i = if Begin ≤ i ∧ i < End then 1 else 0 := by
  have hnodup : (integerSequenceRange Begin End).Nodup :=
    List.nodup_range.map fun a b h => Nat.add_right_cancel h
  split
  · next h => exact List.count_eq_one_of_mem hnodup (mem_range.mpr h)
  · next h => exact List.count_eq_zero_of_not_mem fun hmem => h (mem_range.mp hmem)

/-- The mutexes of the range are free. -/
def FreeIn (free : Nat → Bool) (Begin End : Nat) : Prop := ∀ i, Begin ≤ i → i < End → free i

theorem all_range {Begin End : Nat} :
    (integerSequenceRange Begin End).all free ↔ FreeIn free Begin End := by
  rw [List.all_eq_true]
  simp only [mem_range, and_imp]
  rfl

theorem tryLockRange_pos {Begin End : Nat} (h : FreeIn free Begin End) (s : Held) :
    tryLockRange free Begin End s =
      (true, fun i => s i + if Begin ≤ i ∧ i < End then 1 else 0) := by
  rw [tryLockRange, tryLockRangeHelper_eq, if_pos (all_range.mpr h)]
  simp only [count_range]

theorem tryLockRange_neg {Begin End : Nat} (h : ¬ FreeIn free Begin End) (s : Held) :
    tryLockRange free Begin End s = (false, s) := by
  rw [tryLockRange, tryLockRangeHelper_eq, if_neg fun hall => h (all_range.mp hall)]

end

section
variable {free : Nat → Bool} {k N : Nat}

/-- Both ranges are taken beside `N`. -/
theorem attempt_pos (hbefore : FreeIn free 0 N) (hafter : FreeIn free (N + 1) k) (s : Held) :
    ∃ t, attemptLockNFirst free k N s = (true, t) ∧ ∀ i < k, t i = s i + 1 := by
  unfold attemptLockNFirst
  simp only [locked, tryLockRange_pos hbefore, tryLockRange_pos hafter, if_true, destroy_release]
  refine ⟨_, rfl, fun i hi => ?_⟩
  unfold Held.take
  by_cases hN : i = N
  · rw [if_pos hN, if_neg (by omega), if_neg (by omega)]
  · rw [if_neg hN]
    by_cases hlt : i < N
    · rw [if_pos (by omega), if_neg (by omega)]
    · rw [if_neg (by omega), if_pos (by omega)]

/-- A failed first range undoes itself, and `lock1` its own lock. -/
theorem attempt_before (hbefore : ¬ FreeIn free 0 N) (s : Held) :
    attemptLockNFirst free k N s = (false, s) := by
  unfold attemptLockNFirst
  simp only [locked, tryLockRange_neg hbefore, Bool.false_eq_true, if_false, destroy_owned,
    give_take]

/-- A failed second range undoes itself too, but nothing undoes the first one. -/
theorem attempt_after (hbefore : FreeIn free 0 N) (hafter : ¬ FreeIn free (N + 1) k) (s : Held) :
    attemptLockNFirst free k N s = (false, fun i => s i + if i < N then 1 else 0) := by
  unfold attemptLockNFirst
  simp only [locked, tryLockRange_pos hbefore, tryLockRange_neg hafter, if_true, Bool.false_eq_true,
    if_false, destroy_owned]
  refine congrArg (Prod.mk false) (funext fun i => ?_)
  unfold Held.give Held.take
  dsimp only
  by_cases hN : i = N
  · rw [if_pos hN, if_pos hN, if_neg (by omega), if_neg (by omega)]
    omega
  · rw [if_neg hN, if_neg hN]
    by_cases hlt : i < N
    · rw [if_pos (by omega), if_pos hlt]
    · rw [if_neg (by omega), if_neg hlt]

/-- Some mutexes come before `N` and can all be taken, and one behind `N` cannot. -/
def Stranded (free : Nat → Bool) (k N : Nat) : Prop :=
  0 < N ∧ FreeIn free 0 N ∧ ¬ FreeIn free (N + 1) k

/-- An attempt that strands no lock either fails and changes nothing or takes everything. -/
theorem attempt_cases (hN : ¬ Stranded free k N) (s : Held) :
    attemptLockNFirst free k N s = (false, s) ∨ ∃ t, attemptLockNFirst free k N s = (true, t) ∧
    ∀ i < k, t i = s i + 1 := by
  by_cases hbefore : FreeIn free 0 N
  · by_cases hafter : FreeIn free (N + 1) k
    · exact .inr (attempt_pos hbefore hafter s)
    · have hzero : ¬ 0 < N := fun hpos => hN ⟨hpos, hbefore, hafter⟩
      refine .inl ((attempt_after hbefore hafter s).trans
        (congrArg (Prod.mk false) (funext fun i => ?_)))
      rw [if_neg (by omega)]
      rfl
  · exact .inl (attempt_before hbefore s)

/-- An attempt takes everything once or nothing unless it fails behind `N` with mutexes before
`N`. -/
theorem allOrNothing_iff (free : Nat → Bool) {k : Nat} (N : Fin k) :
    AllOrNothing k (attemptLockNFirst free k N nothing) ↔ ¬ Stranded free k N := by
  constructor
  · rintro hall ⟨hpos, hbefore, hafter⟩
    rw [attempt_after hbefore hafter] at hall
    -- the first mutex stays locked
    have hfirst : nothing 0 + (if 0 < N.val then 1 else 0) = 0 :=
      hall 0 (Nat.lt_of_le_of_lt (Nat.zero_le _) N.isLt)
    rw [if_pos hpos] at hfirst
    exact Nat.one_ne_zero hfirst
  · intro hno
    rcases attempt_cases hno nothing with hfail | ⟨t, htake, hall⟩
    · rw [hfail]
      exact fun _ _ => rfl
    · rw [htake]
      exact hall

/-- If no attempt strands a lock, one starts with nothing after the other. -/
theorem attemptLockMany_allOrNothing (free : Nat → Nat → Bool) (k : Nat)
    (h : ∀ I < k, ¬ Stranded (free I) k I) :
    AllOrNothing k (attemptLockMany free k nothing) := by
  suffices hlist : ∀ Is : List Nat, (∀ I ∈ Is, I < k) →
      AllOrNothing k (attemptLockManyHelper free k Is nothing) from
    hlist _ fun I hI => List.mem_range.mp hI
  intro Is hIs
  induction Is with
  | nil => exact fun _ _ => rfl
  | cons I Is ih =>
    rw [attemptLockManyHelper]
    rcases attempt_cases (h I (hIs I List.mem_cons_self)) nothing with hfail | ⟨t, htake, hall⟩
    · rw [hfail]
      exact ih fun J hJ => hIs J (List.mem_cons_of_mem I hJ)
    · rw [htake]
      exact hall

end

/-- The second of three mutexes is locked first, the first one is taken and the third one is not
free: the attempt fails and the first one stays locked. -/
theorem first_of_three_stranded :
    attemptLockNFirst (· != 2) 3 1 nothing = (false, fun i => if i < 1 then 1 else 0) ∧
    ¬ AllOrNothing 3 (attemptLockNFirst (· != 2) 3 1 nothing) := by
  have hbefore : FreeIn (· != 2) 0 1 := fun i _ hi => by simp; omega
  have hafter : ¬ FreeIn (· != 2) (1 + 1) 3 :=
    fun h => absurd (h 2 (Nat.le_refl 2) (Nat.lt_succ_self 2)) Bool.false_ne_true
  have hrun :
      attemptLockNFirst (· != 2) 3 1 nothing = (false, fun i => if i < 1 then 1 else 0) := by
    rw [attempt_after hbefore hafter]
    simp only [nothing, Nat.zero_add]
  refine ⟨hrun, fun hall => ?_⟩
  rw [hrun] at hall
  exact Nat.one_ne_zero (hall 0 (by decide))

end Gpcl.Sync.LockMany
