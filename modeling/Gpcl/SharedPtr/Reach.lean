import Gpcl.Lib.Ownership
import Gpcl.SharedPtr.Operations

/-! # What stays alive

Whatever clients do: no operation touches a control block that is deleted, the counters are the
numbers of handles, and only a cycle of objects that own one another can outlive the variables. -/
namespace Gpcl.SharedPtr.Graph
open Lib.Ownership Lib.Runs Relation

/-- A handle of this kind that has the control block. -/
def Handle.refers (k : Kind) (b : Nat) (x : Handle) : Bool := decide (x.kind = k ∧ x.s = some b)

def Object.handles (o : Object) : List Handle := o.members ++ o.weakThis.toList

namespace World

/-- Every handle that there is. -/
def handles (w : World) : List Handle :=
  w.blocks.flatMap (fun c => (c.bind Block.object).elim [] Object.handles) ++
    w.vars.flatMap Option.toList

/-- The tasks that are pending. -/
def pending (w : World) : List Task := w.calls.flatten

def Quiet (w : World) : Prop := w.pending = []

/-- A variable owns the object of `b`. -/
def Rooted (w : World) (b : Nat) : Prop :=
  ∃ v x, w.handleAt (.var v) = some x ∧ x.refers .shared b = true

/-- The object of `a` has a member that owns that of `b`. -/
def Owns (w : World) (a b : Nat) : Prop :=
  ∃ i x, w.handleAt (.member a i) = some x ∧ x.refers .shared b = true

end World

variable {w u : World} {b : Nat} {c : Block} {o : Object} {x : Handle} {k : Kind} {l : Loc}
  {as bs : List Act}

theorem count_drop (x : Handle) (k : Kind) (b : Nat) :
    x.drop.count ⟨k.drop, b⟩ = if x.refers k b then 1 else 0 := by
  cases hs : x.s with
  | none => simp [Handle.drop, Handle.refers, hs]
  | some b' =>
    rw [Handle.drop_eq hs, List.count_singleton]
    have hkind : x.kind.drop = k.drop ↔ x.kind = k := by
      cases x.kind <;> cases k <;> simp [Kind.drop]
    simp [Handle.refers, hs, hkind]

theorem count_drops (xs : List Handle) (k : Kind) (b : Nat) :
    (xs.flatMap Handle.drop).count ⟨k.drop, b⟩ = xs.countP (·.refers k b) := by
  induction xs with
  | nil => rfl
  | cons x xs ih =>
    rw [List.flatMap_cons, List.count_append, ih, count_drop, List.countP_cons, Nat.add_comm]

namespace World

theorem coe_object (o : Object) : (o.drop : Multiset Task) = o.handles.flatMap Handle.drop := by
  rw [Object.coe_drop, Object.handles, List.flatMap_append, ← Multiset.coe_add, coe_flatMap]
  cases o.weakThis <;> simp

theorem dues_eq (w : World) :
    w.dues = (w.handles.flatMap Handle.drop : List Task) + (w.pending : Multiset Task) := by
  have hblocks : (w.blocks.map fun c => c.elim 0 Block.due).sum =
      ((w.blocks.flatMap fun c =>
        (c.bind Block.object).elim [] Object.handles).flatMap Handle.drop : List Task) := by
    rw [List.flatMap_assoc, coe_flatMap]
    congr 1
    refine List.map_congr_left fun c _ => ?_
    cases c with
    | none => rfl
    | some c =>
      rw [Option.elim_some, Block.due, Option.bind_some]
      cases c.object with
      | none => rfl
      | some o => exact coe_object o
  have hvars : (w.vars.map fun h => h.elim 0 fun h => (h.drop : Multiset Task)).sum =
      ((w.vars.flatMap Option.toList).flatMap Handle.drop : List Task) := by
    rw [List.flatMap_assoc, coe_flatMap]
    congr 1
    refine List.map_congr_left fun h _ => ?_
    cases h <;> simp
  have hcalls : (w.calls.map Multiset.ofList).sum = (w.pending : Multiset Task) := by
    rw [pending, ← List.flatMap_id, coe_flatMap]
    rfl
  rw [dues, hblocks, hvars, hcalls, handles, List.flatMap_append, Multiset.coe_add]

/-- The tasks for a control block: handles, and calls that are pending. -/
theorem tasksFor_dues (w : World) (k : Kind) (b : Nat) :
    tasksFor w.dues b k.drop = w.handles.countP (·.refers k b) + w.pending.count ⟨k.drop, b⟩ := by
  rw [tasksFor, dues_eq, Multiset.count_add, Multiset.coe_count, Multiset.coe_count, count_drops]

theorem refers_iff : x.refers k b = true ↔ x.kind = k ∧ x.s = some b := decide_eq_true_iff

theorem object_lookup :
    w.object b = some o ↔ ∃ e, w.blocks[b]? = some e ∧ e.bind Block.object = some o := by
  rw [object, block]
  cases w.blocks[b]? <;> simp

/-- A handle is at a place, or it is the `weak_this` of an object. -/
theorem mem_handles :
    x ∈ w.handles ↔
      (∃ l, w.handleAt l = some x) ∨ ∃ b o, w.object b = some o ∧ o.weakThis = some x := by
  simp only [handles, List.mem_append, List.mem_flatMap, Option.mem_toList]
  constructor
  · intro h
    obtain ⟨e, he, hx⟩ | ⟨e, he, rfl⟩ := h
    · obtain ⟨b, hb⟩ := List.mem_iff_getElem?.mp he
      cases ho : e.bind Block.object with
      | none => simp [ho] at hx
      | some o =>
        rw [ho, Option.elim_some, Object.handles, List.mem_append, Option.mem_toList] at hx
        obtain hx | hx := hx
        · obtain ⟨i, hi⟩ := List.mem_iff_getElem?.mp hx
          exact .inl ⟨.member b i, by rw [handleAt, object_lookup.mpr ⟨e, hb, ho⟩]; exact hi⟩
        · exact .inr ⟨b, o, object_lookup.mpr ⟨e, hb, ho⟩, hx⟩
    · obtain ⟨v, hv⟩ := List.mem_iff_getElem?.mp he
      exact .inl ⟨.var v, by rw [handleAt, hv]; rfl⟩
  · intro h
    obtain ⟨l, hl⟩ | ⟨b, o, ho, hx⟩ := h
    · cases l with
      | var v => exact .inr ⟨some x, List.mem_of_getElem? (Option.join_eq_some_iff.mp hl), rfl⟩
      | member b i =>
        obtain ⟨o, ho, hi⟩ := Option.bind_eq_some_iff.mp hl
        obtain ⟨e, he, ho⟩ := object_lookup.mp ho
        refine .inl ⟨e, List.mem_of_getElem? he, ?_⟩
        rw [ho]
        exact List.mem_append_left _ (List.mem_of_getElem? hi)
    · obtain ⟨e, he, ho⟩ := object_lookup.mp ho
      refine .inl ⟨e, List.mem_of_getElem? he, ?_⟩
      rw [ho]
      exact List.mem_append_right _ (Option.mem_toList.mpr hx)

namespace Accounts

/-- What is owned is there, and nothing of its end has begun. -/
theorem owned (h : w.Accounts w.dues) (hput : 0 < tasksFor w.dues b .put) :
    ∃ c, w.block b = some c ∧ 0 < c.use ∧ (∃ o, c.object = some o) ∧
    ∀ t ∈ w.pending, t.b = b → t.stage = .put ∨ t.stage = .weakPut := by
  obtain ⟨c, hb, hc⟩ := h.block_of_task (Multiset.count_pos.mp hput)
  have htallied := hc.tallied
  rw [tallied_iff] at htallied
  refine ⟨c, hb, by omega, hc.kept.alive hput, fun t ht hbt => ?_⟩
  have hpos : 0 < tasksFor w.dues b t.stage := by
    refine Multiset.count_pos.mpr ?_
    rw [← hbt, dues_eq]
    exact Multiset.mem_add.mpr (.inr ht)
  by_contra hne
  obtain ⟨hne₁, hne₂⟩ := not_or.mp hne
  have hzero : ∀ st, st ≠ .put → st ≠ .weakPut → tasksFor w.dues b st = 0 :=
    Stage.all.mpr ⟨fun h => absurd rfl h, fun _ h => absurd rfl h, fun _ _ => by omega,
      fun _ _ => by omega, fun _ _ => by omega,
      fun _ _ => by omega, fun _ _ => by omega, fun _ _ => by omega, fun _ _ => by omega⟩
  exact absurd (hzero _ hne₁ hne₂) (Nat.ne_of_gt hpos)

theorem quiet_tasks (hq : w.Quiet) (st : Stage) (h1 : st ≠ .put) (h2 : st ≠ .weakPut) :
    tasksFor w.dues b st = 0 := by
  refine Multiset.count_eq_zero.mpr fun hmem => ?_
  rw [dues_eq, hq, Multiset.coe_nil, add_zero] at hmem
  obtain ⟨x, -, hx⟩ := List.mem_flatMap.mp hmem
  cases hs : x.s with
  | none => simp [Handle.drop, hs] at hx
  | some b' =>
    rw [Handle.drop_eq hs, List.mem_singleton] at hx
    have hst : st = x.kind.drop := congrArg Task.stage hx
    cases hk : x.kind with
    | shared => exact h1 (by rw [hst, hk]; rfl)
    | weak => exact h2 (by rw [hst, hk]; rfl)

/-- When nothing is pending, there are the counters of the handles, and the one that the owners
share. -/
theorem quiet_counts (h : w.Accounts w.dues) (hq : w.Quiet) (hb : w.block b = some c) :
    c.weak = w.handles.countP (·.refers .weak b) + (if 0 < c.use then 1 else 0) ∧ 0 < c.weak := by
  have htallied := (h.counted b c hb).tallied
  rw [tallied_iff] at htallied
  have hdues := tasksFor_dues w .weak b
  change tasksFor w.dues b .weakPut = _ at hdues
  rw [hq, List.count_nil, Nat.add_zero] at hdues
  have hdelete := quiet_tasks (b := b) hq (.deleteManagedObject .release) (by simp) (by simp)
  have hclear := quiet_tasks (b := b) hq (.clear .release) (by simp) (by simp)
  have hrelease := quiet_tasks (b := b) hq .release (by simp) (by simp)
  have hthis := quiet_tasks (b := b) hq .deleteThis (by simp) (by simp)
  have hclosing := quiet_tasks (b := b) hq (.deleteManagedObject .deallocate) (by simp) (by simp)
  have hdeallocate := quiet_tasks (b := b) hq .deallocate (by simp) (by simp)
  refine ⟨?_, by omega⟩
  split <;> omega

/-- When nothing is pending, a control block without its object has a `weak_ptr`. -/
theorem has_watcher (h : w.Accounts w.dues) (hq : w.Quiet) (hb : w.block b = some c)
    (hc : c.object = none) :
    ∃ x ∈ w.handles, x.refers .weak b = true := by
  have hcounted := h.counted b c hb
  have hput : ¬ 0 < tasksFor w.dues b .put := by
    intro hpos
    obtain ⟨o, ho⟩ := hcounted.kept.alive hpos
    rw [hc] at ho
    cases ho
  have huse := hcounted.tallied.useCount
  obtain ⟨hweak, hpos⟩ := h.quiet_counts hq hb
  rw [if_neg (by omega)] at hweak
  have hcount : 0 < w.handles.countP (·.refers .weak b) := by omega
  exact List.countP_pos_iff.mp hcount

/-- When nothing is pending, each object has an owner: a variable, or a member of an object. -/
theorem has_owner (h : w.Accounts w.dues) (hq : w.Quiet) (ho : w.object b = some o) :
    w.Rooted b ∨ ∃ a o', w.object a = some o' ∧ w.Owns a b := by
  obtain ⟨c, hb, hc⟩ := object_some ho
  have hput : 0 < tasksFor w.dues b (Kind.drop .shared) := by
    refine Nat.pos_of_ne_zero fun hzero => ?_
    have hnone := (h.counted b c hb).kept.dead hzero (quiet_tasks hq _ (by simp) (by simp))
      (quiet_tasks hq _ (by simp) (by simp))
    rw [hc] at hnone
    cases hnone
  rw [tasksFor_dues, hq, List.count_nil, Nat.add_zero] at hput
  obtain ⟨x, hx, hr⟩ := List.countP_pos_iff.mp hput
  obtain ⟨l, hl⟩ | ⟨a, o', ho', hthis⟩ := mem_handles.mp hx
  · cases l with
    | var v => exact .inl ⟨v, x, hl, hr⟩
    | member a i =>
      obtain ⟨o', ho', -⟩ := Option.bind_eq_some_iff.mp hl
      exact .inr ⟨a, o', ho', i, x, hl, hr⟩
  · rw [h.this a o' x ho' hthis] at hr
    simp [Handle.refers] at hr

theorem finite_objects (w : World) : {b | ∃ o, w.object b = some o}.Finite := by
  refine (Set.finite_lt_nat w.blocks.length).subset fun b ⟨o, ho⟩ => ?_
  obtain ⟨c, hb, -⟩ := object_some ho
  exact (List.getElem?_eq_some_iff.mp (block_lookup hb)).1

end Accounts

/-- Whatever clients have done, at any point of the calls that are pending: everything they may do
next succeeds; a handle has a control block that is there, and with a `shared_ptr` also its object,
whole; and the counters are the numbers of handles and of the calls to come. -/
theorem run_safe (h : Run Step empty as w) : (∀ a, w.Permitted a → ∃ w', w.perform a = some w') ∧
    (∀ l x b, w.handleAt l = some x → x.s = some b → ∃ c, w.block b = some c ∧ (x.kind = .shared →
      0 < c.use ∧ (∃ o, c.object = some o) ∧
        ∀ t ∈ w.pending, t.b = b → t.stage = .put ∨ t.stage = .weakPut)) ∧
    ∀ b c, w.block b = some c →
      c.use = w.handles.countP (·.refers .shared b) + w.pending.count ⟨.put, b⟩ ∧
      (w.Quiet → c.weak = w.handles.countP (·.refers .weak b) + if 0 < c.use then 1 else 0) := by
  have haccounts := Accounts.run h
  refine ⟨fun a ha => ?_, fun l x b hl hs => ?_, fun b c hb => ⟨?_, fun hq => ?_⟩⟩
  · obtain ⟨w', hw', -⟩ := haccounts.perform ha
    exact ⟨w', hw'⟩
  · have hmem := mem_of_handleAt hl hs
    cases hk : x.kind with
    | weak =>
      obtain ⟨c, hb, -⟩ := haccounts.block_of_task hmem
      exact ⟨c, hb, nofun⟩
    | shared =>
      rw [hk] at hmem
      obtain ⟨c, hb, hc⟩ := haccounts.owned (Multiset.count_pos.mpr hmem)
      exact ⟨c, hb, fun _ => hc⟩
  · have hcount := (haccounts.counted b c hb).tallied.useCount
    have hdues := tasksFor_dues w .shared b
    change tasksFor w.dues b .put = _ at hdues
    rw [hcount, hdues]
    exact Nat.cast_add _ _
  · exact (haccounts.quiet_counts hq hb).1

theorem safe_with_weak_copy :
    ∃ w, Run Step empty [.op (.construct (.make 4096 [.shared] true)),
    .op (.construct (.watch (.var 0)))] w ∧
    ∀ a, w.Permitted a → ∃ w', w.perform a = some w' := by
  let w₁ : World := ⟨[some ⟨2, 2, some ⟨4096, [.null .shared], some ⟨.weak, 4096, some 0⟩⟩⟩],
    [some ⟨.shared, 4096, some 0⟩], [[⟨.put, 0⟩]]⟩
  let w₂ : World := ⟨[some ⟨2, 3, some ⟨4096, [.null .shared], some ⟨.weak, 4096, some 0⟩⟩⟩],
    [some ⟨.shared, 4096, some 0⟩, some ⟨.weak, 4096, some 0⟩], [[⟨.put, 0⟩]]⟩
  have hmake : Step empty (.op (.construct (.make 4096 [.shared] true))) w₁ := ⟨⟨.shared, rfl⟩, rfl⟩
  have hwatch : Step w₁ (.op (.construct (.watch (.var 0)))) w₂ := ⟨⟨.weak, rfl⟩, rfl⟩
  have hrun : Run Step empty [.op (.construct (.make 4096 [.shared] true)),
    .op (.construct (.watch (.var 0)))] w₂ :=
    (Run.nil.snoc hmake).snoc hwatch
  exact ⟨w₂, hrun, (run_safe hrun).1⟩

/-- What dropped handles bring about ends, in whatever order it is done: unless clients do
something, no more tasks than `weigh` says, and until then one of them can go on. -/
theorem dropped_ends (h : Run Step empty as w) (hbs : Run Step w bs u)
    (htasks : ∀ a ∈ bs, ∃ i, a = .run i) :
    bs.length + weigh u.dues ≤ weigh w.dues ∧ (u.Quiet ∨ ∃ i, u.Permitted (.run i)) := by
  have hrun : bs.length + weigh u.dues ≤ weigh w.dues ∧ u.Accounts u.dues := by
    induction hbs with
    | nil => exact ⟨by simp, Accounts.run h⟩
    | @snoc bs t u a hbs hstep ih =>
      obtain ⟨hle, haccounts⟩ := ih fun a ha => htasks a (List.mem_append_left _ ha)
      obtain ⟨i, rfl⟩ := htasks a (List.mem_append_right _ (List.mem_singleton_self _))
      obtain ⟨⟨task, ts, hi⟩, hperform⟩ := hstep
      obtain ⟨u', hu', haccounts', hlt⟩ := haccounts.runTask hi
      cases hu'.symm.trans hperform
      rw [List.length_append, List.length_singleton]
      exact ⟨by omega, haccounts'⟩
  refine ⟨hrun.1, Classical.or_iff_not_imp_left.mpr fun hq => ?_⟩
  obtain ⟨ts, hts, hne⟩ : ∃ ts ∈ u.calls, ts ≠ [] := by
    by_contra hnone
    exact hq (List.flatten_eq_nil_iff.mpr fun ts hts => not_not.mp fun hne => hnone ⟨ts, hts, hne⟩)
  obtain ⟨i, hi⟩ := List.mem_iff_getElem?.mp hts
  obtain ⟨t, rest, rfl⟩ := List.exists_cons_of_ne_nil hne
  exact ⟨i, t, rest, hi⟩

theorem drop_ends :
    ∃ w u, Run Step empty [.op (.construct (.make 4096 [] false)), .op (.destroy 0)] w ∧
      Run Step w [.run 0] u ∧
    1 + weigh u.dues ≤ weigh w.dues := by
  let w₁ : World := ⟨[some ⟨1, 1, some ⟨4096, [], none⟩⟩], [some ⟨.shared, 4096, some 0⟩], []⟩
  let w₂ : World := ⟨[some ⟨1, 1, some ⟨4096, [], none⟩⟩], [none], [[⟨.put, 0⟩]]⟩
  let u : World := ⟨[some ⟨0, 1, some ⟨4096, [], none⟩⟩], [none],
    [[⟨.deleteManagedObject .release, 0⟩]]⟩
  have hmake : Step empty (.op (.construct (.make 4096 [] false))) w₁ := ⟨⟨.shared, rfl⟩, rfl⟩
  have hdestroy : Step w₁ (.op (.destroy 0)) w₂ := ⟨⟨_, rfl⟩, rfl⟩
  have hput : Step w₂ (.run 0) u := ⟨⟨_, _, rfl⟩, rfl⟩
  have hrun : Run Step empty [.op (.construct (.make 4096 [] false)), .op (.destroy 0)] w₂ :=
    (Run.nil.snoc hmake).snoc hdestroy
  have htasks : ∀ a ∈ [Act.run 0], ∃ i, a = .run i := fun a ha => ⟨0, List.mem_singleton.mp ha⟩
  have hbs : Run Step w₂ [.run 0] u := Run.nil.snoc hput
  exact ⟨w₂, u, hrun, hbs, (dropped_ends hrun hbs htasks).1⟩

/-- When nothing is pending, an object is there because a variable leads to it, or a cycle of
objects that own one another; a control block without its object is there because of a `weak_ptr`.
Without such a cycle nothing outlives the variables. -/
theorem only_cycles_leak (h : Run Step empty as w) (hq : w.Quiet) :
    (∀ b o, w.object b = some o → (∃ r, w.Rooted r ∧ ReflTransGen w.Owns r b) ∨
      ∃ a, TransGen w.Owns a a ∧ ReflTransGen w.Owns a b) ∧
    (∀ b c, w.block b = some c → c.object = none → ∃ x ∈ w.handles, x.refers .weak b = true) ∧
    (Acyclic w.Owns → (∀ v x, w.handleAt (.var v) = some x → x.s = none) →
      ∀ b, w.block b = none) := by
  have haccounts := Accounts.run h
  have howner : ∀ b ∈ {b | ∃ o, w.object b = some o},
      w.Rooted b ∨ ∃ a ∈ {b | ∃ o, w.object b = some o}, w.Owns a b := by
    intro b ⟨o, ho⟩
    refine (haccounts.has_owner hq ho).imp_right ?_
    intro ⟨a, o', ho', howns⟩
    exact ⟨a, ⟨o', ho'⟩, howns⟩
  refine ⟨fun b o ho => root_or_cycle (Accounts.finite_objects w) howner ⟨o, ho⟩,
    fun b c hb => haccounts.has_watcher hq hb, fun hacyclic hvars b => ?_⟩
  have hobjects : ∀ b, w.object b = none := by
    intro b
    refine Option.eq_none_iff_forall_ne_some.mpr fun o ho => ?_
    obtain ⟨r, ⟨v, x, hv, hx⟩, -⟩ :=
      root_of_acyclic (Accounts.finite_objects w) howner hacyclic ⟨o, ho⟩
    rw [refers_iff, hvars v x hv] at hx
    cases hx.2
  refine Option.eq_none_iff_forall_ne_some.mpr fun c hb => ?_
  obtain ⟨x, hx, hr⟩ := haccounts.has_watcher hq hb ((object_eq hb).symm.trans (hobjects b))
  obtain ⟨l, hl⟩ | ⟨a, o, ho, -⟩ := mem_handles.mp hx
  · cases l with
    | var v =>
      rw [refers_iff, hvars v x hl] at hr
      cases hr.2
    | member a i =>
      rw [handleAt, hobjects a] at hl
      cases hl
  · rw [hobjects a] at ho
    cases ho

/-- `head = std::move(head->next)` swaps: the first node of the list owns itself then. -/
theorem first_node_leaks :
    ∃ w, Run Step empty [.op (.construct (.make 4096 [.shared] false)),
    .op (.construct (.make 8192 [.shared] false)),
    .op (.swap (.member 0 0) (.var 1)), .op (.swap (.var 0) (.member 0 0))] w ∧ w.Owns 0 0 ∧
    ∀ b o, w.object b = some o → (∃ r, w.Rooted r ∧ ReflTransGen w.Owns r b) ∨
      ∃ a, TransGen w.Owns a a ∧ ReflTransGen w.Owns a b := by
  let node (next : Handle) (address : Nat) : Option Block :=
    some ⟨1, 1, some ⟨address, [next], none⟩⟩
  let head : Handle := ⟨.shared, 4096, some 0⟩
  let second : Handle := ⟨.shared, 8192, some 1⟩
  let w₁ : World := ⟨[node (.null .shared) 4096], [some head], []⟩
  let w₂ : World := ⟨[node (.null .shared) 4096, node (.null .shared) 8192],
    [some head, some second], []⟩
  let w₃ : World := ⟨[node second 4096, node (.null .shared) 8192],
    [some head, some (.null .shared)], []⟩
  let w₄ : World := ⟨[node head 4096, node (.null .shared) 8192],
    [some second, some (.null .shared)], []⟩
  have h₁ : Step empty (.op (.construct (.make 4096 [.shared] false))) w₁ := ⟨⟨.shared, rfl⟩, rfl⟩
  have h₂ : Step w₁ (.op (.construct (.make 8192 [.shared] false))) w₂ := ⟨⟨.shared, rfl⟩, rfl⟩
  have h₃ : Step w₂ (.op (.swap (.member 0 0) (.var 1))) w₃ := ⟨⟨_, _, rfl, rfl, rfl⟩, rfl⟩
  have h₄ : Step w₃ (.op (.swap (.var 0) (.member 0 0))) w₄ := ⟨⟨_, _, rfl, rfl, rfl⟩, rfl⟩
  have hrun : Run Step empty [.op (.construct (.make 4096 [.shared] false)),
    .op (.construct (.make 8192 [.shared] false)),
      .op (.swap (.member 0 0) (.var 1)), .op (.swap (.var 0) (.member 0 0))] w₄ :=
        (((Run.nil.snoc h₁).snoc h₂).snoc h₃).snoc h₄
  exact ⟨w₄, hrun, ⟨0, head, rfl, rfl⟩, (only_cycles_leak hrun rfl).1⟩

end World

end Gpcl.SharedPtr.Graph
