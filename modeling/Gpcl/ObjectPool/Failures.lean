import Gpcl.ObjectPool.Use

/-! # When construct fails

`malloc` does not look whether the pool returned a chunk, and it links the chunk before the
constructor of the element runs. Nothing takes the link back: an object whose constructor threw
stays on the list for good, and the destructor of the pool destroys it. -/
namespace Gpcl.ObjectPool
open Lib.Memory Lib.TwoWay Lib.Runs

variable (T : ElementType)

/-- The pool cannot provide memory, or the constructor throws. -/
def Fails (w : World) (ua : Nat → Nat) (ctor : Nat → Mem → Mem × Bool) : Prop :=
  (∃ pool, w.pool.pool.malloc ua = some (pool, 0)) ∨ ∃ s p, w.pool.malloc T ua = some (s, p) ∧
    (ctor p s.mem).2 = false

/-- The caller sees an exception or null, the list is as before, and the destructor of the pool
would destroy exactly the live objects. -/
def FailsCleanly (w : World) (ua : Nat → Nat) (ctor : Nat → Mem → Mem × Bool) : Prop :=
  ∃ s' r, w.pool.construct T ua ctor = some (s', r) ∧ (r = none ∨ r = some 0) ∧
    (∀ objs, ListOf T w.pool objs → ListOf T s' objs) ∧
    ∀ dtor release, (∀ p ∈ w.live, ∀ m, Respects T s'.pool.obtained w.live m (dtor p m)) →
      (∀ m r, Outside [r] m (release m r)) →
      ∃ objs blocks, s'.destruct T dtor release = some (objs, blocks) ∧ objs.Perm w.live

section
variable {T} {s : ObjectPool} {w : World} {objs : List Nat} {ua : Nat → Nat}
    {ctor : Nat → Mem → Mem × Bool}

/-- A null pointer is written through. -/
theorem construct_null (h : ∃ pool, w.pool.pool.malloc ua = some (pool, 0)) :
    w.pool.construct T ua ctor = none := by
  obtain ⟨pool, hm⟩ := h
  have hnone : w.pool.malloc T ua = none := by
    simp only [malloc, hm, Option.bind_eq_bind, Option.bind_some]
    rfl
  rw [construct, hnone]
  rfl

/-- What the constructor leaves behind when it throws is on the list. -/
theorem Inv.construct_throws (h : Inv T w.pool objs) (hlive : w.live.Sublist objs)
    (ha : (Op.construct ua ctor).Allowed T w) {s : ObjectPool} {p : Nat}
    (hm : w.pool.malloc T ua = some (s, p)) (hthrow : (ctor p s.mem).2 = false) :
    ∃ s', w.pool.construct T ua ctor = some (s', none) ∧ Inv T s' (p :: objs) := by
  have hrun : w.pool.construct T ua ctor = some (s.withMem (ctor p s.mem).1, none) := by
    simp [construct, hm, hthrow]
  have hctor : ∀ t q, w.pool.malloc T ua = some (t, q) →
      Respects T t.pool.obtained (q :: objs) t.mem (ctor q t.mem).1 :=
    fun t q hm' => (ha.2 t q hm').mono (hlive.cons_cons q).subset
  obtain ⟨t, q, hm', -, hinv⟩ := h.construct_spec ha.1 hctor hrun
  obtain ⟨rfl, rfl⟩ := Prod.mk.inj (Option.some.inj (hm.symm.trans hm'))
  exact ⟨_, hrun, hinv⟩

/-- A failure is never clean. -/
theorem Inv.not_clean (h : Inv T w.pool objs) (hlive : w.live.Sublist objs)
    (ha : (Op.construct ua ctor).Allowed T w)
    (hf : Fails T w ua ctor) : ¬ FailsCleanly T w ua ctor := by
  intro ⟨s', r, hrun, _, hlist, _⟩
  rcases hf with hnull | ⟨s, p, hm, hthrow⟩
  · rw [construct_null hnull] at hrun
    cases hrun
  · obtain ⟨t, hrun', hinv⟩ := h.construct_throws hlive ha hm hthrow
    obtain ⟨rfl, -⟩ := Prod.mk.inj (Option.some.inj (hrun.symm.trans hrun'))
    have he := (hlist objs h.list).unique hinv.list
    simpa using congrArg List.length he

/-- What is live is on the list in every state that a pool of objects can come to. -/
theorem inv_attempts {m : Mem} {ops : List Op} (h0 : new T m = some s)
    (h : Run (Attempt T) ⟨s, []⟩ ops w) :
    ∃ objs, Inv T w.pool objs ∧ w.live.Sublist objs := by
  refine h.invariant (I := fun w => ∃ objs, Inv T w.pool objs ∧ w.live.Sublist objs)
    ⟨[], inv_new h0, .refl _⟩ ?_
  intro t op u ⟨objs, hi, hlive⟩ ⟨ha, completed, he⟩
  obtain ⟨objs', hi', hlive', -⟩ := hi.exec_spec hlive ha he
  exact ⟨objs', hi', hlive'⟩

/-- **No failure of `construct` leaves the pool as it was.** -/
theorem construct_not_clean {m : Mem} {ops : List Op} (h0 : new T m = some s)
    (h : Run (Attempt T) ⟨s, []⟩ ops w) (ha : (Op.construct ua ctor).Allowed T w)
    (hf : Fails T w ua ctor) :
    ¬ FailsCleanly T w ua ctor := by
  obtain ⟨objs, hi, hlive⟩ := inv_attempts h0 h
  exact hi.not_clean hlive ha hf

/-- The user allocator has no memory for a new pool. -/
theorem freshWords_refused : new word (fun _ => 0) = some freshWords ∧
    ¬ FailsCleanly word ⟨freshWords, []⟩ (fun _ => 0) fun _ m => (m, true) := by
  have hi : Inv word freshWords [] := inv_new (T := word) (m := fun _ => 0) rfl
  obtain ⟨l, hl⟩ := hi.pool
  obtain ⟨hone, hfit⟩ := hi.sizes_fit
  have hnull : ∃ pool, freshWords.pool.malloc (fun _ => 0) = some (pool, 0) :=
    hl.malloc_refused hone hfit rfl freshWords_asksAt rfl
  exact ⟨rfl, construct_not_clean rfl .nil ⟨fun _ k _ h => absurd rfl h, fun _ _ _ _ _ _ => rfl⟩
    (.inl hnull)⟩

/-- The constructor of the first object throws: the destructor of the pool destroys an object that
never was. -/
theorem first_throws_not_clean : new word (fun _ => 0) = some freshWords ∧
    Fails word ⟨freshWords, []⟩ (fun _ => 4096) (fun _ m => (m, false)) ∧
    ¬ FailsCleanly word ⟨freshWords, []⟩ (fun _ => 4096) (fun _ m => (m, false)) ∧
    ∃ s' p blocks,
    freshWords.construct word (fun _ => 4096) (fun _ m => (m, false)) = some (s', none) ∧
      s'.destruct word (fun _ m => m) (fun m _ => m) = some ([p], blocks) := by
  have hi : Inv word freshWords [] := inv_new (T := word) (m := fun _ => 0) rfl
  have ha : Op.Allowed word ⟨freshWords, []⟩ (.construct (fun _ => 4096) fun _ m => (m, false)) :=
    ⟨fun _ => freshWords_offers, fun _ _ _ _ _ _ => rfl⟩
  obtain ⟨pool, p, hp, hne⟩ := freshWords_served
  obtain ⟨s, hm⟩ : ∃ s, freshWords.malloc word (fun _ => 4096) = some (s, p) := by
    simp [malloc, hp, guard, hne]
  have hf : Fails word ⟨freshWords, []⟩ (fun _ => 4096) (fun _ m => (m, false)) :=
    .inr ⟨s, p, hm, rfl⟩
  obtain ⟨s', hrun, hinv⟩ := Inv.construct_throws (w := ⟨freshWords, []⟩) hi (.refl _) ha hm rfl
  have hdestruct :
      s'.destruct word (fun _ m => m) (fun m _ => m) =
        some ([p], s'.pool.obtained.map Region.base) :=
    hinv.destruct_spec (fun _ _ _ _ _ _ => rfl) fun _ _ _ _ => rfl
  exact ⟨rfl, hf, Inv.not_clean (w := ⟨freshWords, []⟩) hi (.refl _) ha hf, s', p, _, hrun,
    hdestruct⟩

end

end Gpcl.ObjectPool
