import Gpcl.SharedPtr.Accounts
import Mathlib.Algebra.BigOperators.Group.Multiset.Basic

/-! # The tasks of a dropped handle

No task of a sound world fails, whatever other tasks are pending, and each is replaced by lighter
ones: what a dropped handle brings about comes to an end. -/
namespace Gpcl.SharedPtr.Graph

/-- An upper bound of the tasks that one task leads to. -/
def Stage.weight : Stage → Nat
  | .put => 8
  | .deleteManagedObject .release => 7
  | .clear .release => 6
  | .release | .weakPut => 5
  | .deleteThis => 4
  | .deleteManagedObject .deallocate => 3
  | .clear .deallocate => 2
  | .deallocate => 1

def weigh (N : Multiset Task) : Nat := (N.map fun t => t.stage.weight).sum

/-- The next task for a block, if there is one. -/
def follow (next : Option Stage) (b : Nat) : List Task := (next.map fun st => ⟨st, b⟩).toList

variable {w w' : World} {N M : Multiset Task} {b : Nat} {c c' : Block} {o : Object} {t : Task}
    {next : Option Stage} {new own : List Task}

@[simp] theorem weigh_add : weigh (N + M) = weigh N + weigh M := by
  rw [weigh, Multiset.map_add, Multiset.sum_add]
  rfl

@[simp] theorem weigh_cons : weigh (t ::ₘ M) = t.stage.weight + weigh M := by
  rw [weigh, Multiset.map_cons, Multiset.sum_cons, weigh]

@[simp] theorem follow_ite (p : Prop) [Decidable p] (st : Stage) (b : Nat) :
    follow (if p then some st else none) b = if p then [⟨st, b⟩] else [] := by
  split <;> rfl

@[simp] theorem weigh_follow (st : Stage) (b : Nat) : weigh (follow (some st) b) = st.weight := rfl

theorem moves_follow (t : Task) (M : Multiset Task) (next : Option Stage) :
    Moves (tasksFor (t ::ₘ M) t.b) (tasksFor (follow next t.b + M) t.b) t.stage next := by
  intro st
  have hdone : ((⟨st, t.b⟩ : Task) = t) ↔ st = t.stage :=
    ⟨fun h => congrArg Task.stage h, fun h => by rw [h]⟩
  simp only [tasksFor, Multiset.count_add, Multiset.count_cons, hdone]
  cases next with
  | none =>
    simp only [follow, Option.map_none, Option.toList_none, Multiset.coe_nil, Multiset.count_zero,
      reduceCtorEq, if_false]
    omega
  | some s =>
    have hnext : (⟨st, t.b⟩ : Task) = ⟨s, t.b⟩ ↔ s = st :=
      ⟨fun h => (congrArg Task.stage h).symm, fun h => by rw [h]⟩
    simp only [follow, Option.map_some, Option.toList_some, Multiset.coe_singleton,
      Multiset.count_singleton, hnext, Option.some.injEq]
    omega

theorem tasksFor_follow (hb : b ≠ t.b) (st : Stage) :
    tasksFor (follow next t.b + M) b st = tasksFor (t ::ₘ M) b st := by
  have hdone : (⟨st, b⟩ : Task) ≠ t := fun h => hb (congrArg Task.b h)
  simp only [tasksFor, Multiset.count_add, Multiset.count_cons_of_ne hdone]
  cases next with
  | none => simp [follow]
  | some s => simp [follow, hb]

namespace World

/-- A task is done, and `own` follows it for its block; `new` are all the tasks that are pending in
its place. -/
structure Executed (w : World) (t : Task) (M : Multiset Task) (w' : World)
  (new own : List Task) : Prop where
  accounts : w'.Accounts (own + M)
  dues : w'.dues + new = w.dues + own
  lighter : weigh own < t.stage.weight
  calls : w'.calls = w.calls

theorem setBlock_self (hb : w.block b = some c) : w.setBlock b c = w := by
  obtain ⟨hlt, heq⟩ := List.getElem?_eq_some_iff.mp (block_lookup hb)
  rw [setBlock, ← heq, List.set_getElem_self]

namespace Accounts

/-- Only the counters of the block may have changed. -/
theorem counters (h : w.Accounts (t ::ₘ M)) (hb : w.block t.b = some c)
    (hc : Counted c' (tasksFor (follow next t.b + M) t.b)) (hobject : c'.object = c.object)
    (hlt : weigh (follow next t.b) < t.stage.weight) :
    Executed w t M (w.setBlock t.b c') (follow next t.b) (follow next t.b) := by
  refine ⟨h.update hb hc ?_ fun b' hne st => tasksFor_follow hne st,
    by rw [dues_counters hb hobject], hlt, rfl⟩
  intro o t' ho ht
  rw [hobject] at ho
  exact h.this_of_block hb ho ht

/-- Nothing has changed but the tasks. -/
theorem same (h : w.Accounts (t ::ₘ M)) (hb : w.block t.b = some c)
    (hc : Counted c (tasksFor (follow next t.b + M) t.b))
    (hlt : weigh (follow next t.b) < t.stage.weight) :
    Executed w t M w (follow next t.b) (follow next t.b) := by
  have hdone := h.counters hb hc rfl hlt
  rwa [setBlock_self hb] at hdone

theorem emptied (h : w.Accounts (t ::ₘ M)) (hb : w.block t.b = some c) (ho : c.object = some o)
    (hc : Counted { c with object := some { o with members := [], weakThis := none } }
      (tasksFor (follow next t.b + M) t.b))
    (hlt : weigh (follow next t.b) < t.stage.weight) :
    Executed w t M (w.setObject t.b { o with members := [], weakThis := none })
      (o.drop ++ follow next t.b) (follow next t.b) := by
  rw [setObject_eq hb]
  refine ⟨h.update hb hc ?_ fun b' hne st => tasksFor_follow hne st, ?_, hlt, rfl⟩
  · intro o' t' ho' ht
    cases ho'
    exact absurd ht (by simp)
  · have hdues := dues_setBlock hb
      { c with object := some { o with members := [], weakThis := none } }
    simp only [Block.due, ho, Option.elim_some, Object.drop, List.reverse_nil, List.flatMap_nil,
      Option.map_none, Option.getD_none,
      List.append_nil, Multiset.coe_nil, add_zero] at hdues
    rw [← Multiset.coe_add, ← add_assoc]
    exact congrArg (· + (follow next t.b : Multiset Task)) hdues

theorem cleared (h : w.Accounts (t ::ₘ M)) (hb : w.block t.b = some c) (hdue : c.due = 0)
    (hc : Counted { c with object := none } (tasksFor (follow next t.b + M) t.b))
    (hlt : weigh (follow next t.b) < t.stage.weight) :
    Executed w t M (w.setBlock t.b { c with object := none }) (follow next t.b)
      (follow next t.b) := by
  refine ⟨h.update hb hc (fun o t' ho => absurd ho (by simp))
    fun b' hne st => tasksFor_follow hne st, ?_, hlt, rfl⟩
  have hdues := dues_setBlock hb { c with object := none }
  rw [hdue, add_zero] at hdues
  rw [hdues]
  exact congrArg (· + (follow next t.b : Multiset Task)) (add_zero _)

theorem deallocated (h : w.Accounts (⟨.deallocate, b⟩ ::ₘ M)) (hb : w.block b = some c)
    (hgone : c.object = none) (hzero : ∀ st, tasksFor M b st = 0) :
    Executed w ⟨.deallocate, b⟩ M { w with blocks := w.blocks.set b none } [] [] := by
  refine ⟨h.change (block_set hb none) (fun d hd => nomatch hd) (fun _ st => ?_)
    (fun d o t hd => nomatch hd) fun b' hne st => ?_, ?_, by simp [weigh, Stage.weight], rfl⟩
  · rw [Multiset.coe_nil, zero_add]
    exact hzero st
  · rw [Multiset.coe_nil, zero_add]
    exact (Multiset.count_cons_of_ne (fun h => hne (congrArg Task.b h)) _).symm
  · have hdues := dues_set hb none
    simp only [Block.due, hgone, Option.elim_none, add_zero] at hdues
    rw [hdues]

/-- Any task of a sound world can be done. -/
theorem exec (h : w.Accounts (t ::ₘ M)) :
    ∃ w' new own, w.exec t = some (w', new) ∧ Executed w t M w' new own := by
  obtain ⟨c, hb, hc⟩ := h.block_of_task (Multiset.mem_cons_self t M)
  have hn : 0 < tasksFor (t ::ₘ M) t.b t.stage :=
    Multiset.count_pos.mpr (Multiset.mem_cons_self t M)
  have hm := moves_follow t M
  obtain ⟨st, b⟩ := t
  cases st with
  | put =>
    obtain ⟨huse, hcounted⟩ := hc.put hn (hm _)
    refine ⟨_, _, _, ?_, h.counters hb hcounted rfl ?_⟩
    · simp only [World.exec, hb, Option.bind_eq_bind, Option.bind_some, guard, if_pos huse,
        Option.pure_def, follow_ite]
    · split <;> simp [follow, weigh, Stage.weight]
  | weakPut =>
    obtain ⟨hweak, huse, hcounted⟩ := hc.weakPut hn (hm _)
    refine ⟨_, _, _, ?_, h.counters hb hcounted rfl ?_⟩
    · simp only [World.exec, hb, Option.bind_eq_bind, Option.bind_some, guard, if_pos hweak,
        if_pos huse, Option.pure_def, follow_ite]
    · split <;> simp [follow, weigh, Stage.weight]
  | release =>
    refine ⟨_, _, _, ?_, h.counters hb (hc.release hn (hm _)) rfl ?_⟩
    · simp only [World.exec, hb, Option.bind_eq_bind, Option.bind_some, Option.pure_def, follow_ite]
    · split <;> simp [follow, weigh, Stage.weight]
  | deleteManagedObject k =>
    cases k with
    | release =>
      cases ho : c.object with
      | some o =>
        obtain ⟨huse, hcounted⟩ := hc.emptied (o := o) hn (hm _)
        refine ⟨_, _, _, ?_, h.emptied hb ho hcounted (by simp [Stage.weight])⟩
        simp only [World.exec, hb, ho, Option.bind_eq_bind, Option.bind_some, guard, if_pos huse,
          Option.pure_def]
        rfl
      | none =>
        obtain ⟨huse, hcounted⟩ := hc.nothing_to_delete hn ho (hm _)
        refine ⟨_, _, _, ?_, h.same hb hcounted (by simp [Stage.weight])⟩
        simp only [World.exec, hb, ho, Option.bind_eq_bind, Option.bind_some, guard, if_pos huse,
          Option.pure_def]
        rfl
    | deallocate =>
      obtain ⟨huse, -, ho, hcounted⟩ := hc.closes (.inr ⟨rfl, rfl⟩) hn (hm _)
      refine ⟨_, _, _, ?_, h.same hb hcounted (by simp [Stage.weight])⟩
      simp only [World.exec, hb, ho, Option.bind_eq_bind, Option.bind_some, guard, if_pos huse,
        Option.pure_def]
      rfl
  | clear k =>
    cases k with
    | release =>
      have hdue : c.due = 0 := by
        cases ho : c.object with
        | none => rw [Block.due, ho, Option.elim_none]
        | some o =>
          obtain ⟨hmembers, hthis⟩ := hc.kept.bare hn o ho
          rw [Block.due, ho, Option.elim_some, Object.drop, hmembers, hthis]
          rfl
      refine ⟨_, _, _, ?_, h.cleared hb hdue (hc.cleared hn (hm _)) (by simp [Stage.weight])⟩
      simp only [World.exec, hb, Option.bind_eq_bind, Option.bind_some, Option.pure_def]
      rfl
    | deallocate => exact absurd hc.tallied.never (Nat.ne_of_gt hn)
  | deleteThis =>
    obtain ⟨huse, hweak, -, hcounted⟩ := hc.closes (.inl ⟨rfl, rfl⟩) hn (hm _)
    refine ⟨_, _, _, ?_, h.same hb hcounted (by simp [Stage.weight])⟩
    simp only [World.exec, hb, Option.bind_eq_bind, Option.bind_some, guard, if_pos huse,
      if_pos hweak, Option.pure_def]
    rfl
  | deallocate =>
    have hzero := hc.tallied.deallocate hn (hm none)
    simp only [follow, Option.map_none, Option.toList_none, Multiset.coe_nil, zero_add] at hzero
    refine ⟨_, _, _, ?_, h.deallocated hb (hc.gone ?_) hzero⟩
    · simp only [World.exec, hb, Option.bind_eq_bind, Option.bind_some, Option.pure_def]
    · unfold closing
      exact Nat.lt_of_lt_of_le hn (Nat.le_add_left _ _)

end Accounts

end World

end Gpcl.SharedPtr.Graph
