import Gpcl.Lib.Tokens
import Gpcl.SharedPtr.Handles

/-! # What the counters of a control block count

Each handle is a `put()` or a `weak_put()` to come. The counters of a control block say how many
tasks there are for it, those to come and those that are pending. -/
namespace Gpcl.SharedPtr.Graph

theorem Stage.all {P : Stage → Prop} :
    (∀ st, P st) ↔ P .put ∧ P .weakPut ∧ P (.deleteManagedObject .release) ∧
    P (.deleteManagedObject .deallocate) ∧ P (.clear .release) ∧ P (.clear .deallocate) ∧
    P .release ∧ P .deleteThis ∧ P .deallocate := by
  refine ⟨fun h => ⟨h _, h _, h _, h _, h _, h _, h _, h _, h _⟩,
    fun ⟨h1, h2, h3, h4, h5, h6, h7, h8, h9⟩ st => ?_⟩
  cases st with
  | put => exact h1
  | weakPut => exact h2
  | deleteManagedObject k =>
    cases k with
    | release => exact h3
    | deallocate => exact h4
  | clear k =>
    cases k with
    | release => exact h5
    | deallocate => exact h6
  | release => exact h7
  | deleteThis => exact h8
  | deallocate => exact h9

/-- The tasks between the end of the last `shared_ptr` and its `weak_count_.fetch_sub`. -/
def ending (n : Stage → Nat) : Nat :=
  n (.deleteManagedObject .release) + n (.clear .release) + n .release

/-- The tasks of `delete_this()`. -/
def closing (n : Stage → Nat) : Nat :=
  n .deleteThis + n (.deleteManagedObject .deallocate) + n .deallocate

/-- The counters and the numbers of tasks. -/
structure Tallied (use weak : Int) (n : Stage → Nat) : Prop where
  useCount : use = n .put
  weakCount : weak = n .weakPut + ending n + min 1 (n .put)
  once : ending n + min 1 (n .put) ≤ 1
  last : weak = 0 ∧ closing n = 1 ∨ 0 < weak ∧ closing n = 0
  never : n (.clear .deallocate) = 0

/-- The object and the numbers of tasks: it is whole as long as it has an owner. -/
structure Kept (object : Option Object) (n : Stage → Nat) : Prop where
  alive : 0 < n .put → ∃ o, object = some o
  bare : 0 < n (.clear .release) → ∀ o, object = some o → o.members = [] ∧ o.weakThis = none
  dead : n .put = 0 → n (.deleteManagedObject .release) = 0 → n (.clear .release) = 0 →
    object = none

structure Counted (c : Block) (n : Stage → Nat) : Prop where
  tallied : Tallied c.use c.weak n
  kept : Kept c.object n

/-- One task for a block is done, and one may follow it. -/
def Moves (n n' : Stage → Nat) (done : Stage) (next : Option Stage) : Prop :=
  ∀ st, n' st + (if st = done then 1 else 0) = n st + if next = some st then 1 else 0

/-- There is one more task of a kind. -/
def Grows (n n' : Stage → Nat) (more : Stage) : Prop :=
  ∀ st, n' st = n st + if st = more then 1 else 0

section
variable {use weak : Int} {n n' : Stage → Nat}

theorem Moves.other {done st : Stage} {next : Option Stage} (hm : Moves n n' done next)
    (hdone : st ≠ done) (hnext : next ≠ some st) :
    n' st = n st := by
  have hst := hm st
  rwa [if_neg hdone, if_neg hnext] at hst

theorem Grows.other {more st : Stage} (hg : Grows n n' more) (hst : st ≠ more) : n' st = n st := by
  rw [hg st, if_neg hst]
  rfl

theorem Grows.self {more : Stage} (hg : Grows n n' more) : n' more = n more + 1 := by
  rw [hg more, if_pos rfl]

/-- The numbers, spelt out. -/
theorem tallied_iff : Tallied use weak n ↔ use = n .put ∧
    weak = n .weakPut + (n (.deleteManagedObject .release) + n (.clear .release) + n .release) +
      min 1 (n .put) ∧
    n (.deleteManagedObject .release) + n (.clear .release) + n .release + min 1 (n .put) ≤ 1 ∧
    (weak = 0 ∧ n .deleteThis + n (.deleteManagedObject .deallocate) + n .deallocate = 1 ∨
      0 < weak ∧ n .deleteThis + n (.deleteManagedObject .deallocate) + n .deallocate = 0) ∧
    n (.clear .deallocate) = 0 := by
  constructor
  · intro h
    exact ⟨h.useCount, by have := h.weakCount; simp only [ending] at this; omega, h.once,
      h.last, h.never⟩
  · intro ⟨huse, hweak, honce, hlast, hnever⟩
    exact ⟨huse, by simp only [ending]; omega, honce, hlast, hnever⟩

namespace Tallied

theorem put (h : Tallied use weak n) (hn : 0 < n .put)
    (hm : Moves n n' .put (if use = 1 then some (.deleteManagedObject .release) else none)) :
    0 < use ∧ Tallied (use - 1) weak n' := by
  rw [tallied_iff] at *
  by_cases h1 : use = 1
  all_goals
    simp [Moves, Stage.all, h1] at hm
    omega

theorem weakPut (h : Tallied use weak n) (hn : 0 < n .weakPut)
    (hm : Moves n n' .weakPut (if weak = 1 then some .deleteThis else none)) :
    0 < weak ∧ (weak = 1 → use = 0) ∧ Tallied use (weak - 1) n' := by
  rw [tallied_iff] at *
  by_cases h1 : weak = 1
  all_goals
    simp [Moves, Stage.all, h1] at hm
    omega

theorem release (h : Tallied use weak n) (hn : 0 < n .release)
    (hm : Moves n n' .release (if weak = 1 then some .deleteThis else none)) :
    use = 0 ∧ Tallied use (weak - 1) n' := by
  rw [tallied_iff] at *
  by_cases h1 : weak = 1
  all_goals
    simp [Moves, Stage.all, h1] at hm
    omega

/-- The end of a managed object goes on. -/
theorem ends (h : Tallied use weak n) {done next : Stage}
    (hdone : done = .deleteManagedObject .release ∧ (next = .clear .release ∨ next = .release) ∨
      done = .clear .release ∧ next = .release)
    (hn : 0 < n done) (hm : Moves n n' done (some next)) : use = 0 ∧ Tallied use weak n' := by
  rw [tallied_iff] at *
  obtain ⟨rfl, rfl | rfl⟩ | ⟨rfl, rfl⟩ := hdone
  all_goals
    simp [Moves, Stage.all] at hm
    omega

/-- The end of a control block goes on. -/
theorem closes (h : Tallied use weak n) {done next : Stage}
    (hdone : done = .deleteThis ∧ next = .deleteManagedObject .deallocate ∨
      done = .deleteManagedObject .deallocate ∧ next = .deallocate)
    (hn : 0 < n done) (hm : Moves n n' done (some next)) :
    use = 0 ∧ weak = 0 ∧ Tallied use weak n' := by
  rw [tallied_iff] at *
  obtain ⟨rfl, rfl⟩ | ⟨rfl, rfl⟩ := hdone
  all_goals
    simp [Moves, Stage.all] at hm
    omega

/-- Nothing is left to do for a control block when it is freed. -/
theorem deallocate (h : Tallied use weak n) (hn : 0 < n .deallocate)
    (hm : Moves n n' .deallocate none) : ∀ st, n' st = 0 := by
  rw [tallied_iff] at h
  simp [Moves, Stage.all] at hm
  rw [Stage.all]
  omega

theorem get (h : Tallied use weak n) (hn : 0 < n .put) (hg : Grows n n' .put) :
    0 < use ∧ Tallied (use + 1) weak n' := by
  rw [tallied_iff] at *
  simp [Grows, Stage.all] at hg
  omega

theorem weakGet (h : Tallied use weak n) (hn : 0 < n .put ∨ 0 < n .weakPut)
    (hg : Grows n n' .weakPut) :
    0 < weak ∧ Tallied use (weak + 1) n' := by
  rw [tallied_iff] at *
  simp [Grows, Stage.all] at hg
  omega

theorem first (hg : Grows (fun _ => 0) n' .put) : Tallied 1 1 n' := by
  rw [tallied_iff]
  simp [Grows, Stage.all] at hg
  omega

end Tallied

variable {object : Option Object}

namespace Kept

/-- The tasks that matter to the object are the same, or fewer handles own it. -/
theorem congr (h : Kept object n) (hput : n' .put = n .put)
    (hdelete : n' (.deleteManagedObject .release) = n (.deleteManagedObject .release))
    (hclear : n' (.clear .release) = n (.clear .release)) : Kept object n' := by
  refine ⟨?_, ?_, ?_⟩
  · rw [hput]
    exact h.alive
  · rw [hclear]
    exact h.bare
  · rw [hput, hdelete, hclear]
    exact h.dead

theorem owned (h : Kept object n) (hn : 0 < n .put)
    (hput : 0 < n' .put ∨ 0 < n' (.deleteManagedObject .release))
    (hclear : n' (.clear .release) = 0) : Kept object n' :=
  ⟨fun _ => h.alive hn, fun h0 => absurd h0 (by omega), fun h0 h1 => absurd hput (by omega)⟩

/-- A `weak_count_.fetch_sub` does not concern the object. -/
theorem weakCount (h : Kept object n) {done : Stage} {p : Prop} [Decidable p]
    (hdone : done = .weakPut ∨ done = .release)
    (hm : Moves n n' done (if p then some .deleteThis else none)) : Kept object n' := by
  have hnext : ∀ st, .deleteThis ≠ st → (if p then some Stage.deleteThis else none) ≠ some st := by
    intro st hst
    split
    · exact fun heq => hst (Option.some.inj heq)
    · exact nofun
  obtain rfl | rfl := hdone
  all_goals
    exact h.congr (hm.other (by simp) (hnext _ (by simp))) (hm.other (by simp) (hnext _ (by simp)))
      (hm.other (by simp) (hnext _ (by simp)))

theorem none (hn : n .put = 0) : Kept none n :=
  ⟨fun h => absurd h (by omega), nofun, fun _ _ _ => rfl⟩

end Kept

end

variable {c : Block} {n n' : Stage → Nat} {o : Object}

namespace Counted

theorem put (h : Counted c n) (hn : 0 < n .put)
    (hm : Moves n n' .put (if c.use = 1 then some (.deleteManagedObject .release) else none)) :
    0 < c.use ∧ Counted { c with use := c.use - 1 } n' := by
  obtain ⟨hpos, htallied⟩ := h.tallied.put hn hm
  refine ⟨hpos, htallied, h.kept.owned hn ?_ ?_⟩
  all_goals
    have htallied' := h.tallied
    rw [tallied_iff] at htallied'
    by_cases h1 : c.use = 1
    all_goals
      simp [Moves, Stage.all, h1] at hm
      omega

theorem weakPut (h : Counted c n) (hn : 0 < n .weakPut)
    (hm : Moves n n' .weakPut (if c.weak = 1 then some .deleteThis else none)) :
    0 < c.weak ∧ (c.weak = 1 → c.use = 0) ∧ Counted { c with weak := c.weak - 1 } n' := by
  obtain ⟨hpos, huse, htallied⟩ := h.tallied.weakPut hn hm
  exact ⟨hpos, huse, htallied, h.kept.weakCount (.inl rfl) hm⟩

theorem release (h : Counted c n) (hn : 0 < n .release)
    (hm : Moves n n' .release (if c.weak = 1 then some .deleteThis else none)) :
    Counted { c with weak := c.weak - 1 } n' := by
  obtain ⟨-, htallied⟩ := h.tallied.release hn hm
  exact ⟨htallied, h.kept.weakCount (.inr rfl) hm⟩

/-- The deleter is called: the members of the object become tasks. -/
theorem emptied (h : Counted c n) (hn : 0 < n (.deleteManagedObject .release))
    (hm : Moves n n' (.deleteManagedObject .release) (some (.clear .release))) :
    c.use = 0 ∧
    Counted { c with object := some { o with members := [], weakThis := none } } n' := by
  obtain ⟨huse, htallied⟩ := h.tallied.ends (.inl ⟨rfl, .inl rfl⟩) hn hm
  refine ⟨huse, htallied, ⟨fun _ => ⟨_, rfl⟩, fun _ o ho => ?_, fun _ _ h0 => absurd h0 ?_⟩⟩
  · cases ho
    exact ⟨rfl, rfl⟩
  · have hclear := hm (.clear .release)
    rw [if_neg (by simp), if_pos rfl] at hclear
    omega

theorem cleared (h : Counted c n) (hn : 0 < n (.clear .release))
    (hm : Moves n n' (.clear .release) (some .release)) :
    Counted { c with object := none } n' := by
  obtain ⟨huse, htallied⟩ := h.tallied.ends (.inr ⟨rfl, rfl⟩) hn hm
  have hcount := htallied.useCount
  exact ⟨htallied, .none (by omega)⟩

theorem nothing_to_delete (h : Counted c n) (hn : 0 < n (.deleteManagedObject .release))
    (ho : c.object = none)
    (hm : Moves n n' (.deleteManagedObject .release) (some .release)) :
    c.use = 0 ∧ Counted c n' := by
  obtain ⟨huse, htallied⟩ := h.tallied.ends (.inl ⟨rfl, .inr rfl⟩) hn hm
  have hcount := htallied.useCount
  refine ⟨huse, htallied, ?_⟩
  rw [ho]
  exact .none (by omega)

/-- The managed object is gone when the control block is deleted. -/
theorem gone (h : Counted c n) (hn : 0 < closing n) : c.object = none := by
  have htallied := h.tallied
  rw [tallied_iff] at htallied
  unfold closing at hn
  exact h.kept.dead (by omega) (by omega) (by omega)

theorem closes (h : Counted c n) {done next : Stage}
    (hdone : done = .deleteThis ∧ next = .deleteManagedObject .deallocate ∨
      done = .deleteManagedObject .deallocate ∧ next = .deallocate)
    (hn : 0 < n done) (hm : Moves n n' done (some next)) :
    c.use = 0 ∧ c.weak = 0 ∧ c.object = none ∧ Counted c n' := by
  obtain ⟨huse, hweak, htallied⟩ := h.tallied.closes hdone hn hm
  have hgone : c.object = none := by
    refine h.gone ?_
    unfold closing
    obtain ⟨rfl, -⟩ | ⟨rfl, -⟩ := hdone <;> omega
  have hcount := htallied.useCount
  refine ⟨huse, hweak, hgone, htallied, ?_⟩
  rw [hgone]
  exact .none (by omega)

theorem get (h : Counted c n) (hn : 0 < n .put) (hg : Grows n n' .put) :
    0 < c.use ∧ Counted { c with use := c.use + 1 } n' := by
  obtain ⟨hpos, htallied⟩ := h.tallied.get hn hg
  have hput := hg.self
  refine ⟨hpos, htallied, h.kept.owned hn (.inl (by omega)) ?_⟩
  rw [tallied_iff] at htallied
  omega

theorem weakGet (h : Counted c n) (hn : 0 < n .put ∨ 0 < n .weakPut) (hg : Grows n n' .weakPut) :
    0 < c.weak ∧ Counted { c with weak := c.weak + 1 } n' := by
  obtain ⟨hpos, htallied⟩ := h.tallied.weakGet hn hg
  exact ⟨hpos, htallied, h.kept.congr (hg _) (hg _) (hg _)⟩

theorem first (hg : Grows (fun _ => 0) n' .put) : Counted ⟨1, 1, some o⟩ n' := by
  have hclear : n' (.clear .release) = 0 := hg.other (by simp)
  have hput := hg.self
  exact ⟨.first hg, fun _ => ⟨o, rfl⟩, fun h0 => absurd h0 (by omega),
    fun h0 => absurd h0 (by omega)⟩

/-- The members of an object that are still in place may change. -/
theorem setObject (h : Counted c n) {o' : Object} (ho : c.object = some o)
    (hbare : o.members ≠ [] ∨ o.weakThis ≠ none) :
    Counted { c with object := some o' } n := by
  refine ⟨h.tallied, fun _ => ⟨o', rfl⟩, fun hn => ?_, fun h0 h1 h2 => ?_⟩
  · obtain ⟨hmembers, hthis⟩ := h.kept.bare hn o ho
    exact absurd hbare (by simp [hmembers, hthis])
  · exact absurd (ho.symm.trans (h.kept.dead h0 h1 h2)) (by simp)

end Counted

end Gpcl.SharedPtr.Graph
