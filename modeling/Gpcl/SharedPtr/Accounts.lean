import Gpcl.SharedPtr.Dues
import Mathlib.Tactic.Abel

/-! # The accounts of a world

`World.dues` has a task for each handle that there is, the call of its destructor to come, beside
the pending ones. A world is sound if the counters of every control block agree with it, which the
operations and the tasks keep; what is done for no handle yet, or for one no more, is in the
multiset on top of `World.dues`. -/
namespace Gpcl.SharedPtr.Graph
open Lib.Tokens

/-- The tasks of one control block, by their stage. -/
def tasksFor (N : Multiset Task) (b : Nat) (st : Stage) : Nat := N.count ⟨st, b⟩

def Block.due (c : Block) : Multiset Task := c.object.elim 0 fun o => o.drop

namespace World

def dues (w : World) : Multiset Task :=
  (w.blocks.map fun c => c.elim 0 Block.due).sum +
    (w.vars.map fun h => h.elim 0 fun h => (h.drop : Multiset Task)).sum +
    (w.calls.map Multiset.ofList).sum

structure Accounts (w : World) (N : Multiset Task) : Prop where
  counted : ∀ b c, w.block b = some c → Counted c (tasksFor N b)
  absent : ∀ b, w.block b = none → ∀ st, tasksFor N b st = 0
  -- what `weak_this` is once its object has a control block
  this : ∀ b o t, w.object b = some o → o.weakThis = some t → t = ⟨.weak, o.address, some b⟩

end World

variable {w w' : World} {N M : Multiset Task} {b i : Nat} {c c' : Block} {o : Object}
    {h k x : Handle} {l : Loc} {t : Task} {st : Stage} {α : Type}

/-! ## Places -/

theorem coe_flatMap (f : α → List Task) (xs : List α) :
    ((xs.flatMap f : List Task) : Multiset Task) = (xs.map fun x => (f x : Multiset Task)).sum := by
  induction xs with
  | nil => rfl
  | cons x xs ih => rw [List.flatMap_cons, ← Multiset.coe_add, ih, List.map_cons, List.sum_cons]

theorem Object.coe_drop (o : Object) : (o.drop : Multiset Task) =
    (o.members.map fun h => (h.drop : Multiset Task)).sum +
    ((o.weakThis.map Handle.drop).getD [] : List Task) := by
  have hperm : (o.members.reverse.flatMap Handle.drop).Perm (o.members.flatMap Handle.drop) :=
    (List.reverse_perm _).flatMap_right _
  rw [Object.drop, ← Multiset.coe_add, Multiset.coe_eq_coe.mpr hperm, coe_flatMap]

theorem Object.mem_drop :
    t ∈ o.drop ↔ (∃ h ∈ o.members, t ∈ h.drop) ∨ ∃ h, o.weakThis = some h ∧ t ∈ h.drop := by
  rw [Object.drop, List.mem_append, List.mem_flatMap]
  refine or_congr (by simp) ?_
  cases o.weakThis <;> simp

/-- Another handle in the place of a member. -/
theorem Object.drop_set (hi : o.members[i]? = some k) (h : Handle) :
    (({ o with members := o.members.set i h } : Object).drop + k.drop : Multiset Task) =
      o.drop + h.drop := by
  have hset := sum_map_set (fun h : Handle => (h.drop : Multiset Task)) h hi
  rw [Object.coe_drop, Object.coe_drop, add_right_comm, hset, add_right_comm]

namespace World

theorem block_lookup (hb : w.block b = some c) : w.blocks[b]? = some (some c) := by
  unfold block at hb
  exact Option.join_eq_some_iff.mp hb

theorem block_set (hb : w.block b = some c) (e : Option Block) (b' : Nat) :
    ({ w with blocks := w.blocks.set b e } : World).block b' =
      if b' = b then e else w.block b' := by
  obtain ⟨hlt, -⟩ := List.getElem?_eq_some_iff.mp (block_lookup hb)
  simp only [block, List.getElem?_set]
  by_cases hne : b' = b
  · rw [if_pos hne, if_pos hne.symm, if_pos (by omega)]
    rfl
  · rw [if_neg hne, if_neg (Ne.symm hne)]

theorem block_setBlock (hb : w.block b = some c) (b' : Nat) :
    (w.setBlock b c').block b' = if b' = b then some c' else w.block b' := block_set hb _ b'

theorem object_eq (hb : w.block b = some c) : w.object b = c.object := by
  rw [object, hb]
  rfl

theorem setObject_eq (hb : w.block b = some c) :
    w.setObject b o = w.setBlock b { c with object := some o } := by
  rw [setObject, hb]

theorem dues_set (hb : w.block b = some c) (e : Option Block) :
    ({ w with blocks := w.blocks.set b e } : World).dues + c.due = w.dues + e.elim 0 Block.due := by
  have hset := sum_map_set (fun c : Option Block => c.elim 0 Block.due) e (block_lookup hb)
  simp only [Option.elim_some] at hset
  simp only [dues]
  rw [add_right_comm, add_right_comm _ _ c.due, hset]
  abel

theorem dues_setBlock (hb : w.block b = some c) (d : Block) :
    (w.setBlock b d).dues + c.due = w.dues + d.due :=
  dues_set hb (some d)

/-- Only the counters of the block are different. -/
theorem dues_counters (hb : w.block b = some c) (hc : c'.object = c.object) :
    (w.setBlock b c').dues = w.dues := by
  have hset := dues_setBlock hb c'
  rwa [Block.due, Block.due, hc, add_left_inj] at hset

theorem handleAt_counters (hb : w.block b = some c) (hc : c'.object = c.object) (l : Loc) :
    (w.setBlock b c').handleAt l = w.handleAt l := by
  cases l with
  | var v => rfl
  | member b' i =>
    have hobject : (w.setBlock b c').object b' = w.object b' := by
      simp only [object, block_setBlock hb]
      by_cases hne : b' = b
      · rw [if_pos hne, hne, hb]
        exact hc
      · rw [if_neg hne]
    simp only [handleAt, hobject]

theorem dues_leave (ts : List Task) : (w.leave ts).dues = w.dues + ts := by
  simp only [dues, leave, List.map_append, List.sum_append, List.map_cons, List.map_nil,
    List.sum_cons, List.sum_nil]
  abel

theorem mem_dues :
    t ∈ w.dues ↔ (∃ b c, w.block b = some c ∧ t ∈ c.due) ∨
    (∃ v h, w.handleAt (.var v) = some h ∧ t ∈ h.drop) ∨
    ∃ ts ∈ w.calls, t ∈ ts := by
  simp only [dues, Multiset.mem_add, mem_sum_map, or_assoc, Multiset.mem_coe]
  refine or_congr ?_ (or_congr_left ?_)
  · constructor
    · intro ⟨e, he, ht⟩
      cases e with
      | none => simp at ht
      | some c =>
        obtain ⟨b, hb⟩ := List.mem_iff_getElem?.mp he
        exact ⟨b, c, Option.join_eq_some_iff.mpr hb, ht⟩
    · intro ⟨b, c, hb, ht⟩
      exact ⟨some c, List.mem_of_getElem? (block_lookup hb), ht⟩
  · constructor
    · intro ⟨e, he, ht⟩
      cases e with
      | none => simp at ht
      | some h =>
        obtain ⟨v, hv⟩ := List.mem_iff_getElem?.mp he
        exact ⟨v, h, Option.join_eq_some_iff.mpr hv, ht⟩
    · intro ⟨v, h, hv, ht⟩
      exact ⟨some h, List.mem_of_getElem? (Option.join_eq_some_iff.mp hv), ht⟩

theorem object_some (ho : w.object b = some o) : ∃ c, w.block b = some c ∧ c.object = some o :=
  Option.bind_eq_some_iff.mp ho

/-- What an object holds is due. -/
theorem mem_dues_of_object (ho : w.object b = some o) (ht : t ∈ o.drop) : t ∈ w.dues := by
  obtain ⟨c, hb, hc⟩ := object_some ho
  refine mem_dues.mpr (.inl ⟨b, c, hb, ?_⟩)
  rw [Block.due, hc]
  exact ht

/-- A handle at some place is due. -/
theorem mem_dues_of_handleAt (hl : w.handleAt l = some h) (ht : t ∈ h.drop) : t ∈ w.dues := by
  cases l with
  | var v => exact mem_dues.mpr (.inr (.inl ⟨v, h, hl, ht⟩))
  | member b i =>
    obtain ⟨o, ho, hi⟩ := Option.bind_eq_some_iff.mp hl
    exact mem_dues_of_object ho (Object.mem_drop.mpr (.inl ⟨h, List.mem_of_getElem? hi, ht⟩))

/-! ## Another handle at a place -/

theorem dues_setVar {v : Nat} (hv : w.handleAt (.var v) = some k) (e : Option Handle) :
    ({ w with vars := w.vars.set v e } : World).dues + k.drop =
      w.dues + e.elim 0 fun h => (h.drop : Multiset Task) := by
  have hset := sum_map_set (fun h : Option Handle => h.elim 0 fun h => (h.drop : Multiset Task)) e
    (Option.join_eq_some_iff.mp hv)
  simp only [Option.elim_some] at hset
  simp only [dues]
  rw [add_right_comm, add_assoc _ _ (k.drop : Multiset Task), hset]
  abel

theorem setHandle_member (ho : w.object b = some o) (h : Handle) :
    ∃ c, w.block b = some c ∧ c.object = some o ∧
    w.setHandle (.member b i) h =
      w.setBlock b { c with object := some { o with members := o.members.set i h } } := by
  obtain ⟨c, hb, hc⟩ := object_some ho
  refine ⟨c, hb, hc, ?_⟩
  simp only [setHandle, ho, setObject_eq hb]

theorem dues_setHandle (hl : w.handleAt l = some k) (h : Handle) :
    (w.setHandle l h).dues + k.drop = w.dues + h.drop := by
  cases l with
  | var v => exact dues_setVar hl (some h)
  | member b i =>
    obtain ⟨o, ho, hi⟩ := Option.bind_eq_some_iff.mp hl
    obtain ⟨c, hb, hc, heq⟩ := setHandle_member (i := i) ho h
    have hset := dues_setBlock hb { c with object := some { o with members := o.members.set i h } }
    simp only [Block.due, hc, Option.elim_some] at hset
    have hdrop := Object.drop_set hi h
    rw [heq]
    refine add_right_cancel (b := (o.drop : Multiset Task)) ?_
    rw [add_right_comm, hset, add_assoc, hdrop]
    abel

theorem object_setObject {o' : Object} (hb : w.block b = some c) (b' : Nat) :
    (w.setBlock b { c with object := some o' }).object b' =
      if b' = b then some o' else w.object b' := by
  simp only [object, block_setBlock hb]
  by_cases hne : b' = b
  · rw [if_pos hne, if_pos hne]
    rfl
  · rw [if_neg hne, if_neg hne]

theorem handleAt_setHandle (hl : w.handleAt l = some k) (h : Handle) (r : Loc) :
    (w.setHandle l h).handleAt r = if r = l then some h else w.handleAt r := by
  cases l with
  | var v =>
    have hlt : v < w.vars.length := (List.getElem?_eq_some_iff.mp (Option.join_eq_some_iff.mp hl)).1
    cases r with
    | member b i => rfl
    | var u =>
      simp only [handleAt, setHandle, List.getElem?_set, Loc.var.injEq]
      by_cases hne : u = v
      · rw [if_pos hne, if_pos hne.symm, if_pos hlt]
        rfl
      · rw [if_neg hne, if_neg (Ne.symm hne)]
  | member b i =>
    obtain ⟨o, ho, hi⟩ := Option.bind_eq_some_iff.mp hl
    obtain ⟨c, hb, hc, heq⟩ := setHandle_member (i := i) ho h
    have hlt : i < o.members.length := (List.getElem?_eq_some_iff.mp hi).1
    rw [heq]
    cases r with
    | var v => rfl
    | member b' j =>
      simp only [handleAt, object_setObject hb, Loc.member.injEq]
      by_cases hne : b' = b
      · rw [if_pos hne, hne, ho]
        simp only [Option.bind_some, List.getElem?_set, true_and]
        by_cases hij : j = i
        · rw [if_pos hij, if_pos hij.symm, if_pos hlt]
        · rw [if_neg hij, if_neg (Ne.symm hij)]
      · rw [if_neg hne, if_neg fun h => hne h.1]

namespace Accounts

theorem congr (h : w.Accounts N) (heq : N = M) : w.Accounts M := heq ▸ h

/-- One control block is changed, made or deleted, and so is what there is to do for it. -/
theorem change (h : w.Accounts N) {e : Option Block}
    (hblock : ∀ b', w'.block b' = if b' = b then e else w.block b')
    (hcounted : ∀ d, e = some d → Counted d (tasksFor M b))
    (habsent : e = none → ∀ st, tasksFor M b st = 0)
    (hthis : ∀ d o t, e = some d → d.object = some o → o.weakThis = some t →
      t = ⟨.weak, o.address, some b⟩)
    (helse : ∀ b', b' ≠ b → ∀ st, tasksFor M b' st = tasksFor N b' st) : w'.Accounts M := by
  refine ⟨fun b' d hd => ?_, fun b' hd st => ?_, fun b' o t ho ht => ?_⟩
  · rw [hblock] at hd
    by_cases hne : b' = b
    · rw [if_pos hne] at hd
      rw [hne]
      exact hcounted d hd
    · rw [if_neg hne] at hd
      rw [show tasksFor M b' = tasksFor N b' from funext (helse b' hne)]
      exact h.counted b' d hd
  · rw [hblock] at hd
    by_cases hne : b' = b
    · rw [if_pos hne] at hd
      rw [hne]
      exact habsent hd st
    · rw [if_neg hne] at hd
      rw [helse b' hne]
      exact h.absent b' hd st
  · rw [object, hblock] at ho
    by_cases hne : b' = b
    · rw [if_pos hne] at ho
      obtain ⟨d, hd, ho⟩ := Option.bind_eq_some_iff.mp ho
      rw [hne]
      exact hthis d o t hd ho ht
    · rw [if_neg hne] at ho
      exact h.this b' o t ho ht

theorem update (h : w.Accounts N) (hb : w.block b = some c) (hc : Counted c' (tasksFor M b))
    (hthis : ∀ o t, c'.object = some o → o.weakThis = some t → t = ⟨.weak, o.address, some b⟩)
    (helse : ∀ b', b' ≠ b → ∀ st, tasksFor M b' st = tasksFor N b' st) :
    (w.setBlock b c').Accounts M := by
  refine h.change (block_setBlock hb) (fun d hd => ?_) (fun hd => nomatch hd)
    (fun d o t hd ho ht => ?_) helse
  · cases hd
    exact hc
  · cases hd
    exact hthis o t ho ht

/-- What there is a task for is there. -/
theorem block_of_task (h : w.Accounts N) (ht : ⟨st, b⟩ ∈ N) :
    ∃ c, w.block b = some c ∧ Counted c (tasksFor N b) := by
  cases hb : w.block b with
  | some c => exact ⟨c, rfl, h.counted _ c hb⟩
  | none => exact absurd (h.absent b hb st) (Nat.ne_of_gt (Multiset.count_pos.mpr ht))

theorem this_of_block (h : w.Accounts N) (hb : w.block b = some c) {o : Object} {t : Handle}
    (ho : c.object = some o) (ht : o.weakThis = some t) : t = ⟨.weak, o.address, some b⟩ :=
  h.this b o t (by rw [object_eq hb, ho]) ht

theorem setHandle (h : w.Accounts N) (hl : w.handleAt l = some k) (x : Handle) :
    (w.setHandle l x).Accounts N := by
  cases l with
  | var v => exact ⟨h.counted, h.absent, h.this⟩
  | member b i =>
    obtain ⟨o, ho, hi⟩ := Option.bind_eq_some_iff.mp hl
    obtain ⟨c, hb, hc, heq⟩ := setHandle_member (i := i) ho x
    rw [heq]
    have hne : o.members ≠ [] := List.ne_nil_of_mem (List.mem_of_getElem? hi)
    refine h.update hb ((h.counted b c hb).setObject hc (.inl hne)) ?_ fun _ _ _ => rfl
    intro o' t ho' ht
    cases ho'
    have hthis : t = ⟨.weak, o.address, some b⟩ := h.this_of_block hb hc ht
    exact hthis

end Accounts

end World

end Gpcl.SharedPtr.Graph
