import Gpcl.Lib.Parties
import Gpcl.Lib.Runs
import Gpcl.SharedPtr.Basic

/-! # What the counters count

The life of a control block has phases: there are strong handles; the last of them destroys
the managed object; it gives up the unit of the weak count that all strong handles share;
weak handles remain; somebody deletes the block; it is gone. `Phase` says what the counters are
in each, from the numbers of handles in the several states of an operation. Every step of
every handle, whatever the others are doing, stays in its phase or goes on to a later one. -/
namespace Gpcl.SharedPtr
open Lib.Parties Lib.Runs

variable {ι : Type} [Fintype ι] {s s' : State ι} {i : ι}

namespace Local

/-- A strong owner: until the `fetch_sub` of its `put()`. -/
def holdsStrong : Local ι → Bool
  | .strong | .put _ => true
  | _ => false

/-- A weak owner: until the `fetch_sub` of its `weak_put()`. -/
def holdsWeak : Local ι → Bool
  | .weak | .weakPut _ => true
  | _ => false

/-- It has taken the use count to 0 and not yet destroyed the object. -/
def destroying : Local ι → Bool
  | .destroy _ => true
  | _ => false

/-- It has destroyed the object and not yet dropped the shared unit of the weak count. -/
def dropping : Local ι → Bool
  | .dropLast => true
  | _ => false

/-- It has taken the weak count to 0. -/
def deleting : Local ι → Bool
  | .weakLast | .deleteUse | .deleteWeak | .deleteObject | .deallocate => true
  | _ => false

/-- The handle an operation reads is at rest and of the right kind, and `compare_exchange_weak`
expects a positive count. -/
def Reads (loc : ι → Local ι) : Local ι → Prop
  | .get src _ => loc src = .strong
  | .weakGet src _ => loc src = .strong ∨ loc src = .weak
  | .lock src _ => loc src = .weak
  | .cas src old => loc src = .weak ∧ 0 < old
  | _ => True

end Local

/-- How many handles are in which part of their operations. -/
structure Census where
  strong : Nat
  weak : Nat
  destroying : Nat
  dropping : Nat
  deleting : Nat

def census (s : State ι) : Census :=
  ⟨tally Local.holdsStrong s.loc, tally Local.holdsWeak s.loc, tally Local.destroying s.loc,
    tally Local.dropping s.loc, tally Local.deleting s.loc⟩

inductive Phase (c : Census) (weak : Int) (destroyed deleted : Nat) : Prop
  | alive : 0 < c.strong ∧ c.destroying = 0 ∧ c.dropping = 0 ∧ c.deleting = 0 ∧ weak = c.weak + 1 ∧
      destroyed = 0 ∧ deleted = 0 → Phase c weak destroyed deleted
  | destroying : c.strong = 0 ∧ c.destroying = 1 ∧ c.dropping = 0 ∧ c.deleting = 0 ∧
    weak = c.weak + 1 ∧
      destroyed = 0 ∧ deleted = 0 → Phase c weak destroyed deleted
  | dropping : c.strong = 0 ∧ c.destroying = 0 ∧ c.dropping = 1 ∧ c.deleting = 0 ∧
    weak = c.weak + 1 ∧
      destroyed = 1 ∧ deleted = 0 → Phase c weak destroyed deleted
  | expired : c.strong = 0 ∧ c.destroying = 0 ∧ c.dropping = 0 ∧ c.deleting = 0 ∧ weak = c.weak ∧
    0 < c.weak ∧
      destroyed = 1 ∧ deleted = 0 → Phase c weak destroyed deleted
  | deleting : c.strong = 0 ∧ c.destroying = 0 ∧ c.dropping = 0 ∧ c.deleting = 1 ∧ weak = 0 ∧
    c.weak = 0 ∧
      destroyed = 1 ∧ deleted = 0 → Phase c weak destroyed deleted
  | gone : c.strong = 0 ∧ c.destroying = 0 ∧ c.dropping = 0 ∧ c.deleting = 0 ∧ weak = 0 ∧
    c.weak = 0 ∧
      destroyed = 1 ∧ deleted = 1 → Phase c weak destroyed deleted

structure Inv (s : State ι) : Prop where
  use : s.use = (census s).strong
  phase : Phase (census s) s.weak s.destroyed s.deleted
  present : s.present = true ↔ s.destroyed = 0
  reads : ∀ k, (s.loc k).Reads s.loc
  failed : s.failed = false
  touched : s.touched = false

/-- Only handles at rest are read. -/
theorem Inv.unread (hi : Inv s) (hs : s.loc i ≠ .strong) (hw : s.loc i ≠ .weak) :
    Unread s.loc i := by
  intro k hk
  have hr := hi.reads k
  cases hl : s.loc k with
  | get src _ | weakGet src _ | lock src _ | cas src _ =>
    rw [hl] at hk hr
    obtain rfl := Option.some.inj hk
    simp_all [Local.Reads]
  | _ => rw [hl] at hk; cases hk

theorem Inv.source_ne (hi : Inv s) : (s.loc i).source ≠ some i := by
  by_cases hs : s.loc i = .strong
  · rw [hs]; exact nofun
  · by_cases hw : s.loc i = .weak
    · rw [hw]; exact nofun
    · exact hi.unread hs hw i

/-- A handle that refers to the block is counted, or the one it reads is. -/
theorem Inv.counted (hi : Inv s) (hne : s.loc i ≠ .empty) :
    0 < (census s).strong ∨ 0 < (census s).weak ∨ 0 < (census s).destroying ∨
    0 < (census s).dropping ∨
      0 < (census s).deleting := by
  have hr := hi.reads i
  cases hl : s.loc i with
  | empty => exact absurd hl hne
  | strong | put _ => exact .inl (tally_pos (i := i) (by rw [hl]; rfl))
  | weak | weakPut _ => exact .inr (.inl (tally_pos (i := i) (by rw [hl]; rfl)))
  | get src _ =>
    rw [hl] at hr
    exact .inl (tally_pos (i := src) (by rw [show s.loc src = .strong from hr]; rfl))
  | lock src _ =>
    rw [hl] at hr
    exact .inr (.inl (tally_pos (i := src) (by rw [show s.loc src = .weak from hr]; rfl)))
  | cas src _ =>
    rw [hl] at hr
    exact .inr (.inl (tally_pos (i := src) (by rw [hr.1]; rfl)))
  | weakGet src _ =>
    rw [hl] at hr
    rcases hr with hr | hr
    · exact .inl (tally_pos (i := src) (by rw [hr]; rfl))
    · exact .inr (.inl (tally_pos (i := src) (by rw [hr]; rfl)))
  | destroy _ => exact .inr (.inr (.inl (tally_pos (i := i) (by rw [hl]; rfl))))
  | dropLast => exact .inr (.inr (.inr (.inl (tally_pos (i := i) (by rw [hl]; rfl)))))
  | weakLast | deleteUse | deleteWeak | deleteObject | deallocate =>
    exact .inr (.inr (.inr (.inr (tally_pos (i := i) (by rw [hl]; rfl)))))

theorem Inv.deleted_eq_zero (hi : Inv s) (hne : s.loc i ≠ .empty) : s.deleted = 0 := by
  have hc := hi.counted hne
  have hp := hi.phase
  cases hp <;> omega

/-- The use count of a block that has a strong handle. -/
theorem Inv.use_pos (hi : Inv s) (h : (s.loc i).holdsStrong = true) : 0 < s.use := by
  have hpos : 0 < (census s).strong := tally_pos h
  have huse := hi.use
  omega

theorem Inv.weak_pos (hi : Inv s) (h : (s.loc i).holdsStrong = true ∨ (s.loc i).holdsWeak = true) :
    0 < s.weak := by
  have hpos : 0 < (census s).strong ∨ 0 < (census s).weak := h.imp tally_pos tally_pos
  have hp := hi.phase
  cases hp <;> omega

/-- Nobody destroys or deletes while there are strong handles. -/
theorem Inv.use_eq_zero (hi : Inv s) (h : (s.loc i).destroying = true ∨ (s.loc i).deleting = true) :
    s.use = 0 := by
  have hpos : 0 < (census s).destroying ∨ 0 < (census s).deleting := h.imp tally_pos tally_pos
  have huse := hi.use
  have hp := hi.phase
  cases hp <;> omega

theorem Inv.weak_eq_zero (hi : Inv s) (h : (s.loc i).deleting = true) : s.weak = 0 := by
  have hpos : 0 < (census s).deleting := tally_pos h
  have hp := hi.phase
  cases hp <;> omega

omit [Fintype ι] in
/-- What an operation reads stays as it is while another handle moves. -/
theorem reads_update [DecidableEq ι] {loc : ι → Local ι} {l : Local ι} (hr : ∀ k, (loc k).Reads loc)
    (hu : Unread loc i) (hl : l.Reads loc) (hself : l.source ≠ some i) (k : ι) :
    (Function.update loc i l k).Reads (Function.update loc i l) := by
  have hkeep : ∀ m : Local ι, m.source ≠ some i → m.Reads loc →
      m.Reads (Function.update loc i l) := by
    intro m hm hmr
    cases m with
    | get src _ | weakGet src _ | lock src _ | cas src _ =>
      have hne : src ≠ i := fun he => hm (congrArg some he)
      simp only [Local.Reads, Function.update_of_ne hne] at hmr ⊢
      exact hmr
    | _ => trivial
  by_cases hk : k = i
  · rw [hk, Function.update_self]
    exact hkeep l hself hl
  · rw [Function.update_of_ne hk]
    exact hkeep _ (hu k) (hr k)

/-! ## One step -/

variable [DecidableEq ι]

/-- The numbers before and after a handle moves from `m` to `l`. -/
structure Moved (m l : Local ι) (c c' : Census) : Prop where
  strong : c'.strong + m.holdsStrong.toNat = c.strong + l.holdsStrong.toNat
  weak : c'.weak + m.holdsWeak.toNat = c.weak + l.holdsWeak.toNat
  destroying : c'.destroying + m.destroying.toNat = c.destroying + l.destroying.toNat
  dropping : c'.dropping + m.dropping.toNat = c.dropping + l.dropping.toNat
  deleting : c'.deleting + m.deleting.toNat = c.deleting + l.deleting.toNat

theorem census_update {m l : Local ι} (hm : s.loc i = m) (h : s'.loc = Function.update s.loc i l) :
    Moved m l (census s) (census s') := by
  subst hm
  constructor <;> simp only [census, h] <;> exact tally_update ..

/-- A step of the handle `i`, from `m` to `l`. -/
theorem Inv.go (hi : Inv s) {m : Local ι} (hm : s.loc i = m) (l : Local ι) (hu : Unread s.loc i)
    (hl : l.Reads s.loc) (hself : l.source ≠ some i) (hloc : s'.loc = Function.update s.loc i l)
    (hf : s'.failed = false) (ht : s'.touched = false) (hp : s'.present = true ↔ s'.destroyed = 0)
    (hnum : ∀ c c', Moved m l c c' → s.use = c.strong → Phase c s.weak s.destroyed s.deleted →
      s'.use = c'.strong ∧ Phase c' s'.weak s'.destroyed s'.deleted) : Inv s' := by
  obtain ⟨huse, hphase⟩ := hnum _ _ (census_update hm hloc) hi.use hi.phase
  refine ⟨huse, hphase, hp, ?_, hf, ht⟩
  rw [hloc]
  exact reads_update hi.reads hu hl hself

omit [Fintype ι] [DecidableEq ι] in
/-- The handle is counted as before. -/
theorem Moved.same {m l : Local ι} {c c' : Census} (h : Moved m l c c')
    (hsame : l.holdsStrong = m.holdsStrong ∧ l.holdsWeak = m.holdsWeak ∧
      l.destroying = m.destroying ∧
      l.dropping = m.dropping ∧ l.deleting = m.deleting) : c' = c := by
  obtain ⟨h1, h2, h3, h4, h5⟩ := hsame
  obtain ⟨e1, e2, e3, e4, e5⟩ := h
  rw [h1] at e1
  rw [h2] at e2
  rw [h3] at e3
  rw [h4] at e4
  rw [h5] at e5
  cases c; cases c'
  simp only [Census.mk.injEq]
  exact ⟨Nat.add_right_cancel e1, Nat.add_right_cancel e2, Nat.add_right_cancel e3,
    Nat.add_right_cancel e4,
    Nat.add_right_cancel e5⟩

omit [Fintype ι] [DecidableEq ι] in
/-- Two moves that undo each other. -/
theorem Moved.cancel {m l : Local ι} {c c₁ c₂ : Census} (h₁ : Moved m l c c₁)
    (h₂ : Moved l m c₁ c₂) : c₂ = c := by
  obtain ⟨e1, e2, e3, e4, e5⟩ := h₁
  obtain ⟨f1, f2, f3, f4, f5⟩ := h₂
  cases c; cases c₂
  simp only [Census.mk.injEq]
  dsimp only at e1 e2 e3 e4 e5 f1 f2 f3 f4 f5
  omega

omit [Fintype ι] [DecidableEq ι] in
theorem touched_touch (ht : s.touched = false) (hd : s.deleted = 0) :
    (touch s).touched = false := by
  simp [touch, ht, hd]

omit [Fintype ι] [DecidableEq ι] in
/-- Weak handles come and go, and some of the weak count is left. -/
theorem Phase.reweigh {c c' : Census} {weak weak' : Int} {destroyed deleted : Nat}
    (hp : Phase c weak destroyed deleted) (hpos : 0 < weak) (hpos' : 0 < weak')
    (hsame : c'.strong = c.strong ∧ c'.destroying = c.destroying ∧
      c'.dropping = c.dropping ∧ c'.deleting = c.deleting) (hw : weak' - c'.weak = weak - c.weak) :
    Phase c' weak' destroyed deleted := by
  cases hp with
  | alive hp => exact .alive (by omega)
  | destroying hp => exact .destroying (by omega)
  | dropping hp => exact .dropping (by omega)
  | expired hp => exact .expired (by omega)
  | deleting hp => omega
  | gone hp => omega

section
variable {m l : Local ι} {src : ι}

/-- An operation starts at a handle at rest. -/
theorem Inv.start (hi : Inv s) (hm : s.loc i = m) (hu : Unread s.loc i) (hl : l.Reads s.loc)
    (hself : l.source ≠ some i) (hsame : l.holdsStrong = m.holdsStrong ∧ l.holdsWeak = m.holdsWeak ∧
      l.destroying = m.destroying ∧ l.dropping = m.dropping ∧ l.deleting = m.deleting) : Inv
        (goto i l s) := by
  refine hi.go hm l hu hl hself rfl hi.failed hi.touched hi.present fun c c' hmv huse hphase => ?_
  obtain rfl := hmv.same hsame
  exact ⟨huse, hphase⟩

omit [DecidableEq ι] in
/-- In the middle of an operation. -/
theorem Inv.busy (hi : Inv s) (hm : s.loc i = m) (hs : m ≠ .strong) (hw : m ≠ .weak)
    (he : m ≠ .empty) :
    Unread s.loc i ∧ s.deleted = 0 := by
  subst hm
  exact ⟨hi.unread hs hw, hi.deleted_eq_zero he⟩

/-- A step that changes no counter. Its assertion holds. -/
theorem Inv.check (hi : Inv s) (hm : s.loc i = m) (hs : m ≠ .strong) (hw : m ≠ .weak)
    (he : m ≠ .empty) (l : Local ι) (hl : l.Reads s.loc) (hself : l.source ≠ some i)
    (hsame : l.holdsStrong = m.holdsStrong ∧ l.holdsWeak = m.holdsWeak ∧
      l.destroying = m.destroying ∧ l.dropping = m.dropping ∧ l.deleting = m.deleting) {c :
      Bool} (hc : c = true) :
    Inv (touch (goto i l (assert c s))) := by
  obtain ⟨hu, hd⟩ := hi.busy hm hs hw he
  refine hi.go hm l hu hl hself rfl ?_ (touched_touch hi.touched hd) hi.present
    fun c c' hmv huse hphase => ?_
  · simp only [touch, goto, assert, hi.failed, hc, Bool.not_true, Bool.or_false]
  · obtain rfl := hmv.same hsame
    exact ⟨huse, hphase⟩

/-- A step of an operation that changes the counters. -/
theorem Inv.count (hi : Inv s) (hm : s.loc i = m) (hs : m ≠ .strong) (hw : m ≠ .weak)
    (he : m ≠ .empty) (l : Local ι) (hl : l.Reads s.loc) (hself : l.source ≠ some i)
    {use weak : Int}
    (hnum : ∀ c c', Moved m l c c' → s.use = c.strong → Phase c s.weak s.destroyed s.deleted →
      use = c'.strong ∧ Phase c' weak s.destroyed s.deleted) :
    Inv (touch (goto i l { s with use := use, weak := weak })) := by
  obtain ⟨hu, hd⟩ := hi.busy hm hs hw he
  exact hi.go hm l hu hl hself rfl hi.failed (touched_touch hi.touched hd) hi.present hnum

/-- `fetch_add` on the use count, in the presence of a strong handle. -/
theorem Inv.use_succ (hi : Inv s) (hm : s.loc i = m) (hs : m ≠ .strong) (hw : m ≠ .weak)
    (he : m ≠ .empty)
    (h0 : m.holdsStrong = false ∧ m.holdsWeak = false ∧ m.destroying = false ∧ m.dropping = false ∧
      m.deleting = false) (hpos :
      0 < s.use) : Inv (touch (goto i .strong { s with use := s.use + 1 })) := by
  refine hi.count hm hs hw he .strong trivial nofun ?_
  intro c c' ⟨e1, e2, e3, e4, e5⟩ huse hp
  rw [h0.1] at e1
  rw [h0.2.1] at e2
  rw [h0.2.2.1] at e3
  rw [h0.2.2.2.1] at e4
  rw [h0.2.2.2.2] at e5
  simp only [Local.holdsStrong, Local.holdsWeak, Local.destroying, Local.dropping, Local.deleting,
    Bool.toNat_true, Bool.toNat_false] at e1 e2 e3 e4 e5
  exact ⟨by omega, .alive (by cases hp <;> omega)⟩

/-- `fetch_sub` on the use count. -/
theorem Inv.put_true (hi : Inv s) (hm : s.loc i = .put true) :
    Inv (touch (goto i (if s.use = 1 then .destroy false else .empty)
      { s with use := s.use - 1 })) := by
  by_cases h1 : s.use = 1
  · rw [if_pos h1]
    refine hi.count hm nofun nofun nofun (.destroy false) trivial nofun ?_
    intro c c' ⟨e1, e2, e3, e4, e5⟩ huse hp
    simp only [Local.holdsStrong, Local.holdsWeak, Local.destroying, Local.dropping, Local.deleting,
      Bool.toNat_true, Bool.toNat_false] at e1 e2 e3 e4 e5
    exact ⟨by omega, .destroying (by cases hp <;> omega)⟩
  · rw [if_neg h1]
    refine hi.count hm nofun nofun nofun .empty trivial nofun ?_
    intro c c' ⟨e1, e2, e3, e4, e5⟩ huse hp
    simp only [Local.holdsStrong, Local.holdsWeak, Local.destroying, Local.dropping, Local.deleting,
      Bool.toNat_true, Bool.toNat_false] at e1 e2 e3 e4 e5
    exact ⟨by omega, .alive (by cases hp <;> omega)⟩

/-- The deleter runs, once. -/
theorem Inv.destroy_true (hi : Inv s) (hm : s.loc i = .destroy true) :
    Inv (touch (goto i .dropLast (deleteManagedObject s))) := by
  obtain ⟨hu, hd⟩ := hi.busy hm nofun nofun nofun
  have hpos : 0 < (census s).destroying := tally_pos (i := i) (by rw [hm]; rfl)
  have hzero : s.destroyed = 0 := by
    have hp := hi.phase
    cases hp <;> omega
  have hone : (deleteManagedObject s).destroyed = 1 := by
    simp only [deleteManagedObject, hi.present.mpr hzero, if_true, hzero]
  refine hi.go hm .dropLast hu trivial nofun rfl hi.failed (touched_touch hi.touched hd) ?_ ?_
  · have : (deleteManagedObject s).present = false := rfl
    simp only [touch, goto, this, hone, Bool.false_eq_true, Nat.one_ne_zero]
  · intro c c' ⟨e1, e2, e3, e4, e5⟩ huse hp
    simp only [Local.holdsStrong, Local.holdsWeak, Local.destroying, Local.dropping, Local.deleting,
      Bool.toNat_true, Bool.toNat_false] at e1 e2 e3 e4 e5
    have hnext : Phase c' s.weak (deleteManagedObject s).destroyed s.deleted :=
      .dropping (by cases hp <;> omega)
    exact ⟨show s.use = c'.strong by omega, hnext⟩

/-- The last strong handle gives up the unit of the weak count. -/
theorem Inv.dropLast_step (hi : Inv s) (hm : s.loc i = .dropLast) :
    Inv (touch (goto i (if s.weak = 1 then .deleteUse else .empty)
      { s with weak := s.weak - 1 })) := by
  by_cases h1 : s.weak = 1
  · rw [if_pos h1]
    refine hi.count hm nofun nofun nofun .deleteUse trivial nofun ?_
    intro c c' ⟨e1, e2, e3, e4, e5⟩ huse hp
    simp only [Local.holdsStrong, Local.holdsWeak, Local.destroying, Local.dropping, Local.deleting,
      Bool.toNat_true, Bool.toNat_false] at e1 e2 e3 e4 e5
    exact ⟨by omega, .deleting (by cases hp <;> omega)⟩
  · rw [if_neg h1]
    refine hi.count hm nofun nofun nofun .empty trivial nofun ?_
    intro c c' ⟨e1, e2, e3, e4, e5⟩ huse hp
    simp only [Local.holdsStrong, Local.holdsWeak, Local.destroying, Local.dropping, Local.deleting,
      Bool.toNat_true, Bool.toNat_false] at e1 e2 e3 e4 e5
    exact ⟨by omega, .expired (by cases hp <;> omega)⟩

theorem Inv.weakGet_true (hi : Inv s) (hm : s.loc i = .weakGet src true) :
    Inv (touch (goto i .weak { s with weak := s.weak + 1 })) := by
  have hr := hi.reads i
  rw [hm] at hr
  have hpos : 0 < s.weak := hi.weak_pos (i := src) (by
    rcases hr with hr | hr <;> rw [hr]
    · exact .inl rfl
    · exact .inr rfl)
  refine hi.count hm nofun nofun nofun .weak trivial nofun ?_
  intro c c' ⟨e1, e2, e3, e4, e5⟩ huse hp
  simp only [Local.holdsStrong, Local.holdsWeak, Local.destroying, Local.dropping, Local.deleting,
    Bool.toNat_true, Bool.toNat_false] at e1 e2 e3 e4 e5
  exact ⟨by omega, hp.reweigh hpos (by omega) ⟨by omega, by omega, by omega, by omega⟩ (by omega)⟩

theorem Inv.weakPut_true (hi : Inv s) (hm : s.loc i = .weakPut true) :
    Inv (touch (goto i (if s.weak = 1 then .weakLast else .empty)
      { s with weak := s.weak - 1 })) := by
  by_cases h1 : s.weak = 1
  · rw [if_pos h1]
    refine hi.count hm nofun nofun nofun .weakLast trivial nofun ?_
    intro c c' ⟨e1, e2, e3, e4, e5⟩ huse hp
    simp only [Local.holdsStrong, Local.holdsWeak, Local.destroying, Local.dropping, Local.deleting,
      Bool.toNat_true, Bool.toNat_false] at e1 e2 e3 e4 e5
    exact ⟨by omega, .deleting (by cases hp <;> omega)⟩
  · rw [if_neg h1]
    have hpos : 0 < s.weak := hi.weak_pos (i := i) (by rw [hm]; exact .inr rfl)
    refine hi.count hm nofun nofun nofun .empty trivial nofun ?_
    intro c c' ⟨e1, e2, e3, e4, e5⟩ huse hp
    simp only [Local.holdsStrong, Local.holdsWeak, Local.destroying, Local.dropping, Local.deleting,
      Bool.toNat_true, Bool.toNat_false] at e1 e2 e3 e4 e5
    exact ⟨by omega, hp.reweigh hpos (by omega) ⟨by omega, by omega, by omega, by omega⟩ (by omega)⟩

/-- The end of the block. The pointer to the object is gone, so its destructor does not run
again. -/
theorem Inv.deallocate_step (hi : Inv s) (hm : s.loc i = .deallocate) :
    Inv { touch (goto i .empty (deleteManagedObject s)) with deleted := s.deleted + 1 } := by
  obtain ⟨hu, hd⟩ := hi.busy hm nofun nofun nofun
  have hpos : 0 < (census s).deleting := tally_pos (i := i) (by rw [hm]; rfl)
  have hone : s.destroyed = 1 := by
    have hp := hi.phase
    cases hp <;> omega
  have hgone : s.present = false := by
    cases hpr : s.present with
    | false => rfl
    | true => rw [hi.present.mp hpr] at hone; cases hone
  have hdes : (deleteManagedObject s).destroyed = 1 := by
    simp only [deleteManagedObject, hgone, Bool.false_eq_true, if_false, hone]
  refine hi.go hm .empty hu trivial nofun rfl hi.failed (touched_touch hi.touched hd) ?_ ?_
  · have : (deleteManagedObject s).present = false := rfl
    simp only [touch, goto, this, hdes, Bool.false_eq_true, Nat.one_ne_zero]
  · intro c c' ⟨e1, e2, e3, e4, e5⟩ huse hp
    simp only [Local.holdsStrong, Local.holdsWeak, Local.destroying, Local.dropping, Local.deleting,
      Bool.toNat_true, Bool.toNat_false] at e1 e2 e3 e4 e5
    have hnext : Phase c' s.weak (deleteManagedObject s).destroyed (s.deleted + 1) :=
      .gone (by cases hp <;> omega)
    exact ⟨show s.use = c'.strong by omega, hnext⟩

/-- The load in `lock()`, and a `compare_exchange_weak` that fails. -/
theorem Inv.reload (hi : Inv s) (hm : s.loc i = m) (hs : m ≠ .strong) (hw : m ≠ .weak)
    (he : m ≠ .empty) (hsrc : s.loc src = .weak) (hself : src ≠ i)
    (h0 : m.holdsStrong = false ∧ m.holdsWeak = false ∧ m.destroying = false ∧ m.dropping = false ∧
      m.deleting = false) :
    Inv (touch (goto i (if 0 < s.use then .cas src s.use else .empty) s)) := by
  obtain ⟨hu, hd⟩ := hi.busy hm hs hw he
  have hgo : ∀ l : Local ι, l.Reads s.loc → l.source ≠ some i → (l.holdsStrong = m.holdsStrong ∧
      l.holdsWeak = m.holdsWeak ∧ l.destroying = m.destroying ∧ l.dropping = m.dropping ∧
      l.deleting = m.deleting) → Inv (touch (goto i l s)) := by
    intro l hl hls hsame
    refine hi.go hm l hu hl hls rfl hi.failed (touched_touch hi.touched hd) hi.present
      fun c c' hmv huse hphase => ?_
    obtain rfl := hmv.same hsame
    exact ⟨huse, hphase⟩
  obtain ⟨h1, h2, h3, h4, h5⟩ := h0
  rw [h1, h2, h3, h4, h5] at hgo
  by_cases hpos : 0 < s.use
  · rw [if_pos hpos]
    exact hgo _ ⟨hsrc, hpos⟩ (fun h => hself (Option.some.inj h)) ⟨rfl, rfl, rfl, rfl, rfl⟩
  · rw [if_neg hpos]
    exact hgo _ trivial nofun ⟨rfl, rfl, rfl, rfl, rfl⟩

end

theorem Inv.advance (hi : Inv s) {spurious : Bool} (h : advance i spurious s = some s') :
    Inv s' := by
  have hr := hi.reads i
  have hself := hi.source_ne (i := i)
  unfold SharedPtr.advance at h
  cases hm : s.loc i with
  | empty | strong | weak => rw [hm] at h; cases h
  | get src checked =>
    rw [hm] at h hr hself
    have hpos := hi.use_pos (i := src) (by rw [show s.loc src = .strong from hr]; rfl)
    cases checked with
    | false =>
      cases h
      exact hi.check hm nofun nofun nofun (.get src true) hr hself ⟨rfl, rfl, rfl, rfl, rfl⟩
        (decide_eq_true hpos)
    | true =>
      cases h
      exact hi.use_succ hm nofun nofun nofun ⟨rfl, rfl, rfl, rfl, rfl⟩ hpos
  | put checked =>
    rw [hm] at h
    cases checked with
    | false =>
      cases h
      exact hi.check hm nofun nofun nofun (.put true) trivial nofun ⟨rfl, rfl, rfl, rfl, rfl⟩
        (decide_eq_true (hi.use_pos (i := i) (by rw [hm]; rfl)))
    | true => cases h; exact hi.put_true hm
  | destroy checked =>
    rw [hm] at h
    cases checked with
    | false =>
      cases h
      exact hi.check hm nofun nofun nofun (.destroy true) trivial nofun ⟨rfl, rfl, rfl, rfl, rfl⟩
        (decide_eq_true (hi.use_eq_zero (i := i) (by rw [hm]; exact .inl rfl)))
    | true => cases h; exact hi.destroy_true hm
  | dropLast => rw [hm] at h; cases h; exact hi.dropLast_step hm
  | weakGet src checked =>
    rw [hm] at h hr hself
    cases checked with
    | false =>
      cases h
      have hpos : 0 < s.weak := hi.weak_pos (i := src) (by
        rcases hr with hr | hr <;> rw [hr]
        · exact .inl rfl
        · exact .inr rfl)
      exact hi.check hm nofun nofun nofun (.weakGet src true) hr hself ⟨rfl, rfl, rfl, rfl, rfl⟩
        (decide_eq_true hpos)
    | true => cases h; exact hi.weakGet_true hm
  | weakPut checked =>
    rw [hm] at h
    cases checked with
    | false =>
      cases h
      exact hi.check hm nofun nofun nofun (.weakPut true) trivial nofun ⟨rfl, rfl, rfl, rfl, rfl⟩
        (decide_eq_true (hi.weak_pos (i := i) (by rw [hm]; exact .inr rfl)))
    | true => cases h; exact hi.weakPut_true hm
  | weakLast =>
    rw [hm] at h
    cases h
    exact hi.check hm nofun nofun nofun .deleteUse trivial nofun ⟨rfl, rfl, rfl, rfl, rfl⟩
      (decide_eq_true (hi.use_eq_zero (i := i) (by rw [hm]; exact .inr rfl)))
  | deleteUse =>
    rw [hm] at h
    cases h
    exact hi.check hm nofun nofun nofun .deleteWeak trivial nofun ⟨rfl, rfl, rfl, rfl, rfl⟩
      (decide_eq_true (hi.use_eq_zero (i := i) (by rw [hm]; exact .inr rfl)))
  | deleteObject =>
    rw [hm] at h
    cases h
    exact hi.check hm nofun nofun nofun .deallocate trivial nofun ⟨rfl, rfl, rfl, rfl, rfl⟩
      (decide_eq_true (hi.use_eq_zero (i := i) (by rw [hm]; exact .inr rfl)))
  | deleteWeak =>
    rw [hm] at h
    cases h
    exact hi.check hm nofun nofun nofun .deleteObject trivial nofun ⟨rfl, rfl, rfl, rfl, rfl⟩
      (decide_eq_true (hi.weak_eq_zero (i := i) (by rw [hm]; rfl)))
  | deallocate => rw [hm] at h; cases h; exact hi.deallocate_step hm
  | lock src checked =>
    rw [hm] at h hr hself
    cases checked with
    | false =>
      cases h
      have hpos : 0 < s.weak :=
        hi.weak_pos (i := src) (by rw [show s.loc src = .weak from hr]; exact .inr rfl)
      exact hi.check hm nofun nofun nofun (.lock src true) hr hself ⟨rfl, rfl, rfl, rfl, rfl⟩
        (decide_eq_true hpos)
    | true =>
      cases h
      exact hi.reload hm nofun nofun nofun hr (fun he => hself (congrArg some he))
        ⟨rfl, rfl, rfl, rfl, rfl⟩
  | cas src old =>
    rw [hm] at h hr hself
    obtain ⟨hsrc, hpos⟩ := hr
    dsimp only at h
    split at h
    · rename_i hc
      cases h
      obtain ⟨rfl, -⟩ := hc
      exact hi.use_succ hm nofun nofun nofun ⟨rfl, rfl, rfl, rfl, rfl⟩ hpos
    · cases h
      exact hi.reload hm nofun nofun nofun hsrc (fun he => hself (congrArg some he))
        ⟨rfl, rfl, rfl, rfl, rfl⟩

/-- A handle at rest takes over what another one holds. -/
theorem Inv.moveStep (hi : Inv s) {j : ι} (he : s.loc i = .empty)
    (hj : s.loc j = .strong ∨ s.loc j = .weak)
    (hu : Unread s.loc j) : Inv (goto j .empty (goto i (s.loc j) s)) := by
  have hne : j ≠ i := by
    rintro rfl
    rw [he] at hj
    rcases hj with hj | hj <;> cases hj
  have hsrc : (s.loc j).source = none ∧ (s.loc j).Reads s.loc := by
    rcases hj with hj | hj <;> rw [hj] <;> exact ⟨rfl, trivial⟩
  have h₁ : Moved .empty (s.loc j) (census s) (census (goto i (s.loc j) s)) := census_update he rfl
  have h₂ :
      Moved (s.loc j) .empty (census (goto i (s.loc j) s))
        (census (goto j .empty (goto i (s.loc j) s))) :=
    census_update (Function.update_of_ne hne ..) rfl
  have hsame := h₁.cancel h₂
  refine ⟨by rw [hsame]; exact hi.use, by rw [hsame]; exact hi.phase, hi.present, ?_, hi.failed,
    hi.touched⟩
  refine reads_update (reads_update hi.reads
    (hi.unread (by rw [he]; exact nofun) (by rw [he]; exact nofun)) hsrc.2 ?_)
    (fun k => ?_) trivial nofun
  · rw [hsrc.1]; exact nofun
  · show (Function.update s.loc i (s.loc j) k).source ≠ some j
    by_cases hk : k = i
    · rw [hk, Function.update_self, hsrc.1]; exact nofun
    · rw [Function.update_of_ne hk]; exact hu k

/-- An empty handle starts to read another one. -/
theorem Inv.startRead (hi : Inv s) {j : ι} {l : Local ι} (he : s.loc i = .empty)
    (hj : s.loc j ≠ .empty) (hsrc : l.source = some j) (hl : l.Reads s.loc)
    (h0 : l.holdsStrong = false ∧ l.holdsWeak = false ∧
      l.destroying = false ∧ l.dropping = false ∧ l.deleting = false) : Inv (goto i l s) := by
  refine hi.start he (hi.unread (by rw [he]; exact nofun) (by rw [he]; exact nofun)) hl ?_ h0
  rw [hsrc]
  intro hji
  exact hj (Option.some.inj hji ▸ he)

theorem Inv.step (hi : Inv s) {a : Act ι} (h : step s a = some s') : Inv s' := by
  unfold SharedPtr.step at h
  cases a with
  | copy i j =>
    obtain ⟨⟨he, hj⟩, hs⟩ := Option.ite_none_right_eq_some.mp h
    cases hs
    exact hi.startRead he (by rw [hj]; exact nofun) rfl hj ⟨rfl, rfl, rfl, rfl, rfl⟩
  | watch i j =>
    obtain ⟨⟨he, hj⟩, hs⟩ := Option.ite_none_right_eq_some.mp h
    cases hs
    refine hi.startRead he ?_ rfl hj ⟨rfl, rfl, rfl, rfl, rfl⟩
    rcases hj with hj | hj <;> rw [hj] <;> exact nofun
  | lock i j =>
    obtain ⟨⟨he, hj⟩, hs⟩ := Option.ite_none_right_eq_some.mp h
    cases hs
    exact hi.startRead he (by rw [hj]; exact nofun) rfl hj ⟨rfl, rfl, rfl, rfl, rfl⟩
  | drop i =>
    dsimp only at h
    split at h
    · rename_i hc
      cases h
      exact hi.start hc.1 hc.2 trivial nofun ⟨rfl, rfl, rfl, rfl, rfl⟩
    · obtain ⟨⟨hw, hu⟩, hs⟩ := Option.ite_none_right_eq_some.mp h
      cases hs
      exact hi.start hw hu trivial nofun ⟨rfl, rfl, rfl, rfl, rfl⟩
  | move i j =>
    obtain ⟨⟨he, hj, hu⟩, hs⟩ := Option.ite_none_right_eq_some.mp h
    cases hs
    exact hi.moveStep he hj hu
  | advance i spurious => exact hi.advance h

/-! ## Whole runs -/

def Step (s : State ι) (a : Act ι) (s' : State ι) : Prop := step s a = some s'

theorem Inv.initial (i : ι) : Inv (initial i) := by
  have hzero : ∀ p : Local ι → Bool, p .empty = false → tally p (fun _ : ι => Local.empty) = 0 :=
      fun p hp =>
    tally_eq_zero fun _ => hp
  have hcount : ∀ p : Local ι → Bool, p .empty = false →
      tally p (SharedPtr.initial i).loc = (p .strong).toNat := by
    intro p hp
    have := tally_update p (fun _ : ι => Local.empty) i .strong
    rw [hzero p hp, hp] at this
    simp only [Bool.toNat_false, Nat.add_zero, Nat.zero_add] at this
    exact this
  have hc : census (SharedPtr.initial i) = ⟨1, 0, 0, 0, 0⟩ := by
    simp only [census]
    rw [hcount _ rfl, hcount _ rfl, hcount _ rfl, hcount _ rfl, hcount _ rfl]
    rfl
  refine ⟨by rw [hc]; rfl, by rw [hc]; exact .alive ⟨Nat.one_pos, rfl, rfl, rfl, rfl, rfl, rfl⟩,
    ⟨fun _ => rfl, fun _ => rfl⟩, fun k => ?_, rfl, rfl⟩
  show (Function.update (fun _ => Local.empty) i .strong k).Reads _
  by_cases hk : k = i
  · rw [hk, Function.update_self]; trivial
  · rw [Function.update_of_ne hk]; trivial

/-- The use count changes only while there is a strong handle. -/
theorem Inv.use_step (hi : Inv s) {a : Act ι} (h : Step s a s') (h0 : s.use = 0) : s'.use = 0 := by
  unfold Step SharedPtr.step at h
  cases a with
  | copy i j | watch i j | lock i j | move i j =>
    obtain ⟨-, hs⟩ := Option.ite_none_right_eq_some.mp h
    cases hs
    exact h0
  | drop i =>
    dsimp only at h
    split at h
    · cases h; exact h0
    · obtain ⟨-, hs⟩ := Option.ite_none_right_eq_some.mp h
      cases hs
      exact h0
  | advance i spurious =>
    dsimp only at h
    unfold SharedPtr.advance at h
    have hr := hi.reads i
    cases hm : s.loc i with
    | get src checked =>
      rw [hm] at hr
      have hpos := hi.use_pos (i := src) (by rw [show s.loc src = .strong from hr]; rfl)
      omega
    | put checked =>
      have hpos := hi.use_pos (i := i) (by rw [hm]; rfl)
      omega
    | cas src old =>
      rw [hm] at h hr
      dsimp only at h
      split at h
      · rename_i hc
        have := hr.2
        omega
      · cases h; exact h0
    | destroy checked | weakGet _ checked | weakPut checked | lock _ checked =>
      rw [hm] at h
      cases checked <;> cases h <;> exact h0
    | empty | strong | weak => rw [hm] at h; cases h
    | dropLast | weakLast | deleteUse | deleteWeak | deleteObject | deallocate =>
      rw [hm] at h; cases h; exact h0

/-- What the counters count, and what has been destroyed and deleted. The unit of the weak count
that the strong handles share is there until the last of them has dropped it. -/
structure Accounted (s : State ι) : Prop where
  use : s.use = tally Local.holdsStrong s.loc
  weak_shared : (0 < s.use ∨ ∃ i, (s.loc i).destroying = true ∨ (s.loc i).dropping = true) →
    s.weak = tally Local.holdsWeak s.loc + 1
  weak_alone : s.use = 0 → (∀ i, (s.loc i).destroying = false ∧ (s.loc i).dropping = false) →
    s.weak = tally Local.holdsWeak s.loc
  destroyed_le : s.destroyed ≤ 1
  destroyed_iff : s.destroyed = 0 ↔ 0 < s.use ∨ ∃ i, (s.loc i).destroying = true
  deleted_le : s.deleted ≤ 1
  deleted_last : s.deleted = 1 → s.destroyed = 1 ∧ s.use = 0 ∧ tally Local.holdsWeak s.loc = 0
  finished : (∀ i, s.loc i = .empty) → s.destroyed = 1 ∧ s.deleted = 1
  failed : s.failed = false
  touched : s.touched = false

omit [DecidableEq ι] in
theorem Inv.accounted (hi : Inv s) : Accounted s := by
  have hsome : ∀ p : Local ι → Bool, 0 < tally p s.loc ↔ ∃ i, p (s.loc i) = true := fun p =>
    ⟨exists_of_tally_pos, fun ⟨i, h⟩ => tally_pos h⟩
  have huse : s.use = tally Local.holdsStrong s.loc := hi.use
  have hdes : 0 < (census s).destroying ↔ ∃ i, (s.loc i).destroying = true := hsome _
  have hdrop : 0 < (census s).dropping ↔ ∃ i, (s.loc i).dropping = true := hsome _
  have hp := hi.phase
  refine ⟨huse, fun h => ?_, fun h0 hno => ?_, ?_, ?_, ?_, fun h => ?_, fun h => ?_, hi.failed,
    hi.touched⟩
  · have hpos : 0 < (census s).strong ∨ 0 < (census s).destroying ∨ 0 < (census s).dropping := by
      rcases h with h | ⟨i, h | h⟩
      · have := hi.use
        omega
      · exact .inr (.inl (tally_pos h))
      · exact .inr (.inr (tally_pos h))
    show s.weak = (census s).weak + 1
    cases hp <;> omega
  · have hd : (census s).destroying = 0 := tally_eq_zero fun i => (hno i).1
    have hr : (census s).dropping = 0 := tally_eq_zero fun i => (hno i).2
    have hs := hi.use
    show s.weak = (census s).weak
    cases hp <;> omega
  · cases hp <;> omega
  · have hs := hi.use
    rw [← hdes]
    cases hp <;> omega
  · cases hp <;> omega
  · have hs := hi.use
    show s.destroyed = 1 ∧ s.use = 0 ∧ (census s).weak = 0
    cases hp <;> omega
  · have hs : (census s).strong = 0 := tally_eq_zero fun i => by rw [h i]; rfl
    have hw : (census s).weak = 0 := tally_eq_zero fun i => by rw [h i]; rfl
    have hd : (census s).destroying = 0 := tally_eq_zero fun i => by rw [h i]; rfl
    have hr : (census s).dropping = 0 := tally_eq_zero fun i => by rw [h i]; rfl
    have hl : (census s).deleting = 0 := tally_eq_zero fun i => by rw [h i]; rfl
    cases hp <;> omega

/-- Any number of handles, any interleaving: the counters count the owners, the object is destroyed
and the block deleted once and in time, no assertion fails, no deleted block is touched; and once
the use count has reached 0, no `lock()` brings a strong handle back. -/
theorem counted_along_runs (i : ι) {as : List (Act ι)} (h : Run Step (initial i) as s) :
    Accounted s ∧ (s.use = 0 → ∀ bs s', Run Step s bs s' → s'.use = 0 ∧
      ∀ k, s'.loc k ≠ .strong) := by
  have hi : Inv s := h.invariant (Inv.initial i) fun _ _ _ hi hs => hi.step hs
  refine ⟨hi.accounted, fun h0 bs s' hrun => ?_⟩
  obtain ⟨hi', h0'⟩ : Inv s' ∧ s'.use = 0 :=
    hrun.invariant (I := fun r => Inv r ∧ r.use = 0) ⟨hi, h0⟩ fun _ _ _ ht hs =>
      ⟨ht.1.step hs, ht.1.use_step hs ht.2⟩
  refine ⟨h0', fun k hk => ?_⟩
  have hpos := hi'.use_pos (i := k) (by rw [hk]; rfl)
  omega

/-- A `lock()` gets the object while its only owner is dropped, and then there are two owners
again. -/
theorem counted_lock_and_drop : ∃ s : State (Fin 4), Run Step (initial 0)
    [.watch 1 0, .advance 1 false, .advance 1 false, .lock 2 1, .advance 2 false, .advance 2 false,
      .drop 0,
      .advance 0 false, .advance 2 false, .advance 0 false, .copy 3 2, .advance 3 false,
      .advance 3 false] s ∧
      (s.use = 2 ∧ s.loc 0 = .empty ∧ s.loc 2 = .strong ∧ s.loc 3 = .strong) ∧ Accounted s := by
  have hruns :
      (List.foldlM step (initial (0 : Fin 4))
        [.watch 1 0, .advance 1 false, .advance 1 false, .lock 2 1,
      .advance 2 false, .advance 2 false, .drop 0, .advance 0 false, .advance 2 false,
        .advance 0 false, .copy 3 2,
      .advance 3 false, .advance 3 false]).any
        (fun s => s.use = 2 ∧ s.loc 0 = .empty ∧ s.loc 2 = .strong ∧ s.loc 3 = .strong) = true := by
          decide +kernel
  obtain ⟨s, hs, hend⟩ := (Option.any_eq_true _ _).mp hruns
  exact ⟨s, .foldlM hs, of_decide_eq_true hend, (counted_along_runs 0 (.foldlM hs)).1⟩

end Gpcl.SharedPtr
