import Gpcl.Lib.Runs
import Mathlib.Logic.Function.Basic
import Mathlib.Logic.Relation

/-! # lock(m1, m2)

Threads that lock pairs of mutexes: `attempt_lock_two` blocks on one mutex of the pair and
tries the other, `lock_impl` attempts both orders in turn until one succeeds. A mutex is its
owner; `try_lock` may also fail without need. -/
namespace Gpcl.Sync.LockTwo
open Lib.Runs

variable {ι M : Type}

/-- The pair given to `lock` and whether the attempt in progress is the one with the two swapped. -/
structure Call (M : Type) where
  m1 : M
  m2 : M
  swapped : Bool

/-- The mutex that the attempt blocks on. -/
def Call.first (c : Call M) : M := if c.swapped then c.m2 else c.m1

/-- The mutex that the attempt tries. -/
def Call.second (c : Call M) : M := if c.swapped then c.m1 else c.m2

/-- The next step of a thread; `idle`, `holding` and `halfHolding` are at rest. -/
inductive Local (M : Type)
  | idle
  -- `unique_lock lock1(first)`
  | lockFirst (c : Call M)
  -- `second.try_lock()`
  | trySecond (c : Call M)
  -- `lock1.release()`
  | release (c : Call M)
  -- the destructor of `lock1`, with its `owns_lock_`, before the attempt returns `result`
  | destroyLock (c : Call M) (owns result : Bool)
  -- `lock` has returned
  | holding (m1 m2 : M)
  -- one of the two is unlocked
  | halfHolding (m : M)

structure State (ι M : Type) where
  owner : M → Option ι
  loc : ι → Local M

def initial : State ι M := ⟨fun _ => none, fun _ => .idle⟩

inductive Act (ι M : Type)
  | lock (t : ι) (m1 m2 : M)
  -- the next step inside `lock`; `spurious` lets `try_lock` fail without need
  | advance (t : ι) (spurious : Bool)
  | unlock (t : ι) (m : M)

variable [DecidableEq ι] [DecidableEq M]

def goto (t : ι) (l : Local M) (s : State ι M) : State ι M :=
  { s with loc := Function.update s.loc t l }

def own (m : M) (o : Option ι) (s : State ι M) : State ι M :=
  { s with owner := Function.update s.owner m o }

/-- The end of an attempt: `lock_impl` returns, or goes on with the other order. -/
def Call.next (c : Call M) (result : Bool) : Local M :=
  if result then .holding c.m1 c.m2 else .lockFirst { c with swapped := !c.swapped }

def advance (t : ι) (spurious : Bool) (s : State ι M) : Option (State ι M) :=
  match s.loc t with
  -- `mutex::lock` blocks while there is an owner
  | .lockFirst c =>
    if s.owner c.first = none then some (goto t (.trySecond c) (own c.first (some t) s)) else none
  | .trySecond c =>
    if s.owner c.second = none ∧ spurious = false
      then some (goto t (.release c) (own c.second (some t) s))
    else some (goto t (.destroyLock c true false) s)
  | .release c => some (goto t (.destroyLock c false true) s)
  | .destroyLock c owns result =>
    some (goto t (c.next result) (if owns then own c.first none s else s))
  | _ => none

def lock (t : ι) (m1 m2 : M) (s : State ι M) : Option (State ι M) :=
  match s.loc t with
  | .idle => if m1 ≠ m2 then some (goto t (.lockFirst ⟨m1, m2, false⟩) s) else none
  | _ => none

def unlock (t : ι) (m : M) (s : State ι M) : Option (State ι M) :=
  match s.loc t with
  | .holding m1 m2 =>
    if m = m1 then some (goto t (.halfHolding m2) (own m1 none s))
    else if m = m2 then some (goto t (.halfHolding m1) (own m2 none s))
    else none
  | .halfHolding m' => if m = m' then some (goto t .idle (own m' none s)) else none
  | _ => none

def step (s : State ι M) : Act ι M → Option (State ι M)
  | .lock t m1 m2 => lock t m1 m2 s
  | .advance t spurious => advance t spurious s
  | .unlock t m => unlock t m s

def Step (s : State ι M) (a : Act ι M) (s' : State ι M) : Prop := step s a = some s'

/-- `t` is blocked on a mutex that `u` owns. -/
def WaitsFor (s : State ι M) (t u : ι) : Prop :=
  ∃ c, s.loc t = .lockFirst c ∧ s.owner c.first = some u

structure Safe (s : State ι M) : Prop where
  returned : ∀ t m1 m2, s.loc t = .holding m1 m2 → s.owner m1 = some t ∧ s.owner m2 = some t
  blocked : ∀ t c, s.loc t = .lockFirst c → ∀ m, s.owner m ≠ some t
  acyclic : ∀ t, ¬ Relation.TransGen (WaitsFor s) t t
  failed : ∀ t c owns spurious s', s.loc t = .destroyLock c owns false →
    step s (.advance t spurious) = some s' →
    ∀ m, s'.owner m ≠ some t

namespace Local

/-- The mutexes that a thread owns, from its place in the code. -/
def Owns : Local M → M → Prop
  | .idle, _ | .lockFirst _, _ => False
  | .trySecond c, m => m = c.first
  | .release c, m => m = c.first ∨ m = c.second
  | .destroyLock c _ result, m => m = c.first ∨ result = true ∧ m = c.second
  | .holding m1 m2, m => m = m1 ∨ m = m2
  | .halfHolding m', m => m = m'

/-- The pair is a pair, and `lock1` still owns its mutex exactly when the attempt has failed. -/
def Proper : Local M → Prop
  | .lockFirst c | .trySecond c | .release c => c.m1 ≠ c.m2
  | .destroyLock c owns result => c.m1 ≠ c.m2 ∧ owns = !result
  | .holding m1 m2 => m1 ≠ m2
  | _ => True

end Local

structure Inv (s : State ι M) : Prop where
  owned : ∀ t m, s.owner m = some t ↔ (s.loc t).Owns m
  proper : ∀ t, (s.loc t).Proper

omit [DecidableEq ι] [DecidableEq M] in
theorem Inv.initial : Inv (initial : State ι M) := ⟨fun _ _ => ⟨nofun, nofun⟩, fun _ => trivial⟩

omit [DecidableEq M] in
/-- Thread `t` moves to `l` and the owners change to `o`, which agrees with `l` and leaves the other
threads what they have. -/
theorem Inv.moved {s : State ι M} (hi : Inv s) {t : ι} {l : Local M} {o : M → Option ι}
    (hl : l.Proper) (ht : ∀ m, o m = some t ↔ l.Owns m)
    (hu : ∀ m u, u ≠ t → (o m = some u ↔ s.owner m = some u)) :
    Inv (goto t l { s with owner := o }) := by
  have hloc : ∀ u, u ≠ t → (goto t l { s with owner := o }).loc u = s.loc u :=
    fun u h => Function.update_of_ne h _ _
  have hself : (goto t l { s with owner := o }).loc t = l := Function.update_self _ _ _
  refine ⟨fun u m => ?_, fun u => ?_⟩
  · show o m = some u ↔ _
    by_cases h : u = t
    · rw [h, hself]
      exact ht m
    · rw [hloc u h, hu m u h]
      exact hi.owned u m
  · by_cases h : u = t
    · rw [h, hself]
      exact hl
    · rw [hloc u h]
      exact hi.proper u

omit [DecidableEq M] in
/-- A step that leaves the owners as they are. -/
theorem Inv.kept {s : State ι M} (hi : Inv s) {t : ι} {l : Local M} (hl : l.Proper)
    (ht : ∀ m, (s.loc t).Owns m ↔ l.Owns m) : Inv (goto t l s) :=
  hi.moved hl (fun m => (hi.owned t m).trans (ht m)) fun _ _ _ => Iff.rfl

/-- A free mutex is taken. -/
theorem Inv.taken {s : State ι M} (hi : Inv s) {t : ι} {l : Local M} {m : M} (hm : s.owner m = none)
    (hl : l.Proper)
    (ht : ∀ m', l.Owns m' ↔ m' = m ∨ (s.loc t).Owns m') : Inv (goto t l (own m (some t) s)) := by
  refine hi.moved hl (fun m' => ?_) (fun m' u hu => ?_)
  · rw [ht m', Function.update_apply, ← hi.owned t m']
    split
    · next h => exact ⟨fun _ => .inl h, fun _ => rfl⟩
    · next h => exact ⟨.inr, fun h' => h'.resolve_left h⟩
  · rw [Function.update_apply]
    split
    · next h =>
      rw [h, hm]
      exact ⟨fun h => absurd (Option.some.inj h).symm hu, nofun⟩
    · exact Iff.rfl

/-- A mutex of the thread is given back. -/
theorem Inv.freed {s : State ι M} (hi : Inv s) {t : ι} {l : Local M} {m : M} (hm : (s.loc t).Owns m)
    (hl : l.Proper)
    (ht : ∀ m', l.Owns m' ↔ m' ≠ m ∧ (s.loc t).Owns m') : Inv (goto t l (own m none s)) := by
  refine hi.moved hl (fun m' => ?_) (fun m' u hu => ?_)
  · rw [ht m', Function.update_apply, ← hi.owned t m']
    split
    · next h => exact ⟨nofun, fun h' => absurd h h'.1⟩
    · next h => exact ⟨fun h' => ⟨h, h'⟩, And.right⟩
  · rw [Function.update_apply]
    split
    · next h =>
      rw [h, (hi.owned t m).mpr hm]
      exact ⟨nofun, fun h => absurd (Option.some.inj h).symm hu⟩
    · exact Iff.rfl

omit [DecidableEq M] in
/-- The two mutexes of an attempt are the two of the call. -/
theorem Call.pair (c : Call M) (m : M) : (m = c.first ∨ m = c.second) ↔ (m = c.m1 ∨ m = c.m2) := by
  unfold Call.first Call.second
  split
  · exact or_comm
  · exact Iff.rfl

theorem Inv.advance {s s' : State ι M} (hi : Inv s) {t : ι} {spurious : Bool}
    (h : advance t spurious s = some s') :
    Inv s' := by
  have hp := hi.proper t
  unfold LockTwo.advance at h
  split at h
  · next c hl =>
    rw [hl] at hp
    split at h
    · next hfree =>
      cases h
      exact hi.taken hfree hp fun m' => by rw [hl]; exact ⟨.inl, fun h => h.resolve_right id⟩
    · cases h
  · next c hl =>
    rw [hl] at hp
    split at h
    · next hfree =>
      cases h
      exact hi.taken hfree.1 hp fun m' => by rw [hl]; exact or_comm
    · cases h
      exact hi.kept ⟨hp, rfl⟩ fun m' =>
        by rw [hl]; exact ⟨.inl, fun h => h.resolve_right fun h => nomatch h.1⟩
  · next c hl =>
    rw [hl] at hp
    cases h
    exact hi.kept ⟨hp, rfl⟩ fun m' => by
      rw [hl]
      exact ⟨fun h => h.imp id fun h => ⟨rfl, h⟩, fun h => h.imp id And.right⟩
  · next c owns result hl =>
    rw [hl] at hp
    obtain ⟨hne, rfl⟩ := hp
    cases h
    cases result with
    | true =>
      refine hi.kept hne fun m' => ?_
      rw [hl]
      show (m' = c.first ∨ true = true ∧ m' = c.second) ↔ (m' = c.m1 ∨ m' = c.m2)
      rw [← c.pair, and_iff_right rfl]
    | false =>
      refine hi.freed (by rw [hl]; exact .inl rfl) hne fun m' => ?_
      rw [hl]
      exact ⟨False.elim, fun h => h.1 (h.2.resolve_right fun h => nomatch h.1)⟩
  · cases h

theorem Inv.unlock {s s' : State ι M} (hi : Inv s) {t : ι} {m : M} (h : unlock t m s = some s') :
    Inv s' := by
  have hp := hi.proper t
  unfold LockTwo.unlock at h
  split at h
  · next m1 m2 hl =>
    rw [hl] at hp
    split at h
    · cases h
      refine hi.freed (by rw [hl]; exact .inl rfl) trivial fun m' => ?_
      rw [hl]
      exact ⟨fun h => ⟨fun h' => hp (h'.symm.trans h), .inr h⟩, fun h => h.2.resolve_left h.1⟩
    · split at h
      · cases h
        refine hi.freed (by rw [hl]; exact .inr rfl) trivial fun m' => ?_
        rw [hl]
        exact ⟨fun h => ⟨fun h' => hp (h.symm.trans h'), .inl h⟩, fun h => h.2.resolve_right h.1⟩
      · cases h
  · next m' hl =>
    split at h
    · cases h
      refine hi.freed (by rw [hl]; exact rfl) trivial fun m' => ?_
      rw [hl]
      exact ⟨False.elim, fun h => h.1 h.2⟩
    · cases h
  · cases h

theorem Inv.step {s s' : State ι M} {a : Act ι M} (hi : Inv s) (h : Step s a s') : Inv s' := by
  cases a with
  | lock t m1 m2 =>
    change lock t m1 m2 s = some s' at h
    unfold lock at h
    split at h
    · next hl =>
      split at h
      · next hne =>
        cases h
        exact hi.kept hne fun m' => by rw [hl]; exact Iff.rfl
      · cases h
    · cases h
  | advance t spurious => exact hi.advance h
  | unlock t m => exact hi.unlock h

omit [DecidableEq ι] [DecidableEq M] in
/-- A blocked thread owns nothing, so nobody waits for it. -/
theorem Inv.not_waited {s : State ι M} (hi : Inv s) {t u v : ι} (h : WaitsFor s t u) :
    ¬ WaitsFor s u v := by
  intro ⟨c', hc', _⟩
  obtain ⟨c, _, ho⟩ := h
  have h := (hi.owned u c.first).mp ho
  rw [hc'] at h
  exact h

theorem Inv.safe {s : State ι M} (hi : Inv s) : Safe s := by
  refine ⟨fun t m1 m2 hl => ⟨(hi.owned t m1).mpr ?_, (hi.owned t m2).mpr ?_⟩, fun t c hl m hm => ?_,
    fun t h => ?_,
    fun t c owns spurious s' hl hs m hm => ?_⟩
  · rw [hl]; exact .inl rfl
  · rw [hl]; exact .inr rfl
  · have h := (hi.owned t m).mp hm
    rw [hl] at h
    exact h
  · obtain ⟨u, hu, htail⟩ := Relation.TransGen.head'_iff.mp h
    obtain rfl | ⟨v, hv, _⟩ := Relation.ReflTransGen.cases_head htail
    · exact hi.not_waited hu hu
    · exact hi.not_waited hu hv
  · have hi' : Inv s' := hi.advance hs
    have h := (hi'.owned t m).mp hm
    rw [show LockTwo.step s (.advance t spurious) = LockTwo.advance t spurious s from rfl,
      LockTwo.advance, hl] at hs
    cases hs
    rw [show (goto t (c.next false) _).loc t = c.next false from Function.update_self _ _ _] at h
    exact h

/-- Any number of threads and mutexes, any interleaving: `lock` returns with both mutexes held, a
blocked thread holds none, nobody waits in a cycle, and a failed attempt gives everything back. -/
theorem safe_along_locks {s : State ι M} {as : List (Act ι M)} (h : Run Step initial as s) :
    Safe s :=
  (h.invariant Inv.initial fun _ _ _ hi hs => hi.step hs).safe

/-- Two threads with the mutexes in opposite orders; the second is blocked. -/
theorem safe_opposite_orders :
    ∃ s : State Bool Bool, WaitsFor s true false ∧ s.loc false = .holding false true ∧ Safe s := by
  have h₁ : Run Step (initial : State Bool Bool) [.lock false false true] _ :=
    .single (show step _ (.lock false false true) = some _ from rfl)
  have h₂ := h₁.snoc (show step _ (.lock true true false) = some _ from rfl)
  have h₃ := h₂.snoc (show step _ (.advance false false) = some _ from rfl)
  have h₄ := h₃.snoc (show step _ (.advance false false) = some _ from rfl)
  have h₅ := h₄.snoc (show step _ (.advance false false) = some _ from rfl)
  have h₆ := h₅.snoc (show step _ (.advance false false) = some _ from rfl)
  exact ⟨_, ⟨_, rfl, rfl⟩, rfl, safe_along_locks h₆⟩

end Gpcl.Sync.LockTwo
