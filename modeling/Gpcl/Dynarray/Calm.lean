import Gpcl.Dynarray.Values

/-! # When nothing throws

With a plan that lets no constructor and no allocation throw, no call does: the arrays never ask for
more than an allocator can serve. -/
namespace Gpcl.Dynarray
open Lib.Memory Lib.Objects Lib.Objects.Heap
open Lib.Objects.Prog hiding pure bind

variable {α A β γ : Type} {t : Traits α A} {s s' : State α A} {ls : Key → List (Obj α)}
    {a b n : Nat} {d o : Dynarray A}

/-- No allocation that can be served and no constructor throws. -/
def Quiet (s : State α A) : Prop := ∀ i, s.heap.fail i = false

/-- The call does not throw, and none after it will. -/
structure Calm (p : Action α A β) (s : State α A) : Prop where
  returns : ∀ s', p s ≠ .thrown s'
  quiet : ∀ x s', p s = .ok x s' → Quiet s'

theorem Calm.bind {p : Action α A β} {f : β → Action α A γ} (hp : Calm p s)
    (hf : ∀ x s', Quiet s' → p s = .ok x s' → Calm (f x) s') : Calm (p >>= f) s := by
  constructor
  · intro s' h
    obtain h | ⟨x, s₁, hfirst, h⟩ := bind_eq_thrown h
    · exact hp.returns s' h
    · exact (hf x s₁ (hp.quiet x s₁ hfirst) hfirst).returns s' h
  · intro y s' h
    obtain ⟨x, s₁, hfirst, h⟩ := bind_eq_ok h
    exact (hf x s₁ (hp.quiet x s₁ hfirst) hfirst).quiet y s' h

theorem Calm.onThrow {p : Action α A β} {handler : Action α A Unit} (hp : Calm p s) :
    Calm (Prog.onThrow p handler) s := by
  constructor
  · intro s' h
    obtain ⟨s₁, h⟩ := onThrow_eq_thrown h
    exact hp.returns s₁ h
  · intro x s' h
    exact hp.quiet x s' (onThrow_eq_ok h)

section
variable (hs : Quiet s)
include hs

theorem calm_pure (x : β) : Calm (pure x : Action α A β) s := by
  refine ⟨nofun, fun y s' h => ?_⟩
  cases h
  exact hs

theorem calm_arr (a : Nat) : Calm (arr a) s := by
  constructor
  · intro s' h
    unfold arr at h
    split at h <;> cases h
  · intro x s' h
    unfold arr at h
    split at h
    · cases h; exact hs
    · cases h

theorem calm_setArr (a : Nat) (d : Dynarray A) : Calm (setArr a d) s := by
  refine ⟨nofun, fun x s' h => ?_⟩
  cases h
  exact hs

theorem calm_create (d : Dynarray A) : Calm (create d) s := by
  refine ⟨nofun, fun x s' h => ?_⟩
  cases h
  exact hs

theorem calm_discard (a : Nat) : Calm (discard a) s := by
  refine ⟨nofun, fun x s' h => ?_⟩
  cases h
  exact hs

theorem calm_assert (c : Bool) : Calm (Prog.assert c : Action α A Unit) s := by
  constructor
  · intro s' h
    unfold Prog.assert at h
    split at h <;> cases h
  · intro x s' h
    unfold Prog.assert at h
    split at h
    · cases h; exact hs
    · cases h

theorem calm_onHeap {f : Heap α A → Option (Heap α A)}
    (hf : ∀ h h', f h = some h' → h'.fail = h.fail) : Calm (onHeap f) s := by
  constructor
  · intro s' h
    unfold onHeap at h
    split at h <;> cases h
  · intro x s' h
    unfold onHeap at h
    split at h
    · rename_i h' hh
      cases h
      intro i
      rw [hf _ _ hh, hs]
    · cases h

theorem calm_destroyAt (p : Option Nat) (i : Nat) : Calm (destroyAt p i) s := by
  refine calm_onHeap hs fun h h' hh => ?_
  obtain ⟨b, -, hd⟩ := Option.bind_eq_some_iff.mp hh
  obtain ⟨_, _, _, _, rfl⟩ := destroy_cases hd
  rfl

theorem calm_assignAt (p : Option Nat) (i : Nat) (v : α) : Calm (assignAt p i v) s := by
  refine calm_onHeap hs fun h h' hh => ?_
  obtain ⟨b, -, hd⟩ := Option.bind_eq_some_iff.mp hh
  obtain ⟨_, _, _, _, rfl⟩ := setVal_cases hd
  rfl

theorem calm_deallocate (al : A) (p : Option Nat) (n : Nat) : Calm (deallocate t al p n) s := by
  cases p with
  | none => exact calm_pure hs ()
  | some b =>
    show Calm (onHeap fun h => h.deallocate (t.equal al) b n) s
    refine calm_onHeap hs fun h h' hh => ?_
    unfold Heap.deallocate at hh
    split at hh
    · cases hh
    · split at hh
      · cases hh; rfl
      · cases hh

theorem calm_construct (p : Option Nat) (i : Nat) (x : Arg α) : Calm (construct t p i x) s := by
  have hfail : s.heap.next.1 = false := hs _
  constructor
  · intro s' h
    unfold construct at h
    dsimp only at h
    split at h
    · cases h
    · rw [hfail] at h
      cases h
  · intro y s' h
    unfold construct at h
    dsimp only at h
    split at h
    · cases h
    · rename_i h' hh
      obtain ⟨b, -, hc⟩ := Option.bind_eq_some_iff.mp hh
      obtain ⟨_, _, _, rfl⟩ := construct_cases hc
      rw [hfail] at h
      cases h
      exact hs

theorem calm_constructMove (p : Option Nat) (i : Nat) (q : Option Nat) (j : Nat) :
    Calm (constructMove t p i q j) s := by
  have hmove :
      Calm (if t.nothrowMove
        then onHeap fun h => p.bind fun b => h.construct b i (read t s (.ref q j))
      else construct t p i (.val (read t s (.ref q j))) : Action α A Unit) s := by
    split
    · refine calm_onHeap hs fun h h' hh => ?_
      obtain ⟨b, -, hc⟩ := Option.bind_eq_some_iff.mp hh
      obtain ⟨_, _, _, rfl⟩ := construct_cases hc
      rfl
    · exact calm_construct hs ..
  have hall := hmove.bind fun _ s' hs' _ =>
    calm_assignAt hs' q j (t.movedFrom (read t s (.ref q j)))
  exact ⟨hall.returns, hall.quiet⟩

theorem calm_allocate (al : A) (hn : n ≤ maxSize) : Calm (allocate al n) s := by
  have hf : allocFails s n = false := by
    simp [allocFails, hs s.heap.tick, hn]
  constructor
  · intro s' h
    rw [allocate_ok al hf] at h
    cases h
  · intro x s' h
    rw [allocate_ok al hf] at h
    cases h
    exact hs

end

theorem calm_destroyLoop (hs : Quiet s) (a n : Nat) :
    Calm (destroyLoop a n : Action α A Unit) s := by
  induction n generalizing s with
  | zero => exact calm_pure hs ()
  | succ n ih =>
    exact (calm_arr hs a).bind fun d _ hs _ => (calm_destroyAt hs _ _).bind fun _ _ hs _ =>
      (calm_setArr hs a _).bind fun _ _ hs _ => ih hs

theorem calm_release (hs : Quiet s) (a : Nat) : Calm (release t a) s := by
  have hclear : Calm (clear a) s :=
    (calm_arr hs a).bind fun d _ hs _ => (calm_assert hs _).bind fun _ _ hs _ =>
      calm_destroyLoop hs a _
  exact hclear.bind fun _ _ hs _ => (calm_arr hs a).bind fun d _ hs _ =>
      (calm_deallocate hs _ _ _).bind fun _ _ hs _ =>
    calm_setArr hs a _

theorem calm_destruct (hs : Quiet s) (a : Nat) : Calm (destruct t a) s :=
  (calm_release hs a).bind fun _ _ hs _ => calm_discard hs a

theorem calm_fillLoop (hs : Quiet s) (a : Nat) (xs : List (Arg α)) : Calm (fillLoop t a xs) s := by
  induction xs generalizing s with
  | nil => exact calm_pure hs ()
  | cons x xs ih =>
    exact (calm_arr hs a).bind fun d _ hs _ => (calm_construct hs _ _ x).bind fun _ _ hs _ =>
      (calm_setArr hs a _).bind fun _ _ hs _ => ih hs

theorem calm_moveLoop (hs : Quiet s) (a : Nat) (q : Option Nat) (n : Nat) :
    Calm (moveLoop t a q n) s := by
  induction n generalizing s with
  | zero => exact calm_pure hs ()
  | succ n ih =>
    exact (calm_arr hs a).bind fun d _ hs _ => (calm_constructMove hs _ _ q _).bind fun _ _ hs _ =>
      (calm_setArr hs a _).bind fun _ _ hs _ => ih hs

/-- A constructor that allocates a buffer and fills it. -/
theorem calm_build (hs : Quiet s) (al : A) (hn : n ≤ maxSize) {body : Nat → Action α A Unit}
    (hbody : ∀ a s', Quiet s' → Calm (body a) s') :
    Calm (do
      let a ← create ⟨al, none, 0, n⟩
      Prog.onThrow (do
        let p ← allocate al n
        setArr a ⟨al, some p, 0, n⟩
        Prog.onThrow (body a) (release t a)) (discard a)
      pure a) s := by
  refine (calm_create hs _).bind fun a _ hs _ => Calm.bind ?_ fun _ _ hs _ => calm_pure hs a
  refine Calm.onThrow ((calm_allocate hs al hn).bind fun p _ hs _ => (calm_setArr hs a _).bind
    fun _ s₁ hs _ => ?_)
  exact (hbody a s₁ hs).onThrow

theorem calm_ofRange (hs : Quiet s) (al : A) {xs : List (Arg α)} (hlen : xs.length ≤ maxSize) :
    Calm (ofRange t al xs) s :=
  calm_build hs al hlen fun a _ hs => calm_fillLoop hs a xs

/-- The size of an array never stops a copy of it. -/
theorem Inv.size_le (hi : Inv t s none ls) (ha : s.arrs a = some d) : d.size ≤ maxSize := by
  have hs := hi.shape ha
  exact hs.size ▸ Nat.le_trans hs.le_capacity hs.capacity_le

theorem Inv.calm_copyWith (hi : Inv t s none ls) (hs : Quiet s) (hb : s.arrs b = some o) (al : A) :
    Calm (copyWith t b al) s := by
  refine (calm_arr hs b).bind fun o' s₁ hs₁ harr => ?_
  rw [arr_apply hb] at harr
  cases harr
  exact calm_ofRange hs₁ al (by rw [range, List.length_map, List.length_range]; exact hi.size_le hb)

theorem Inv.calm_copy (hi : Inv t s none ls) (hs : Quiet s) (hb : s.arrs b = some o) :
    Calm (copy t b) s := by
  refine (calm_arr hs b).bind fun o' s₁ hs₁ harr => ?_
  rw [arr_apply hb] at harr
  cases harr
  exact hi.calm_copyWith hs₁ hb _

theorem Inv.calm_moveWith (hae : t.alwaysEqual = false) (hi : Inv t s none ls) (hs : Quiet s)
    (hb : s.arrs b = some o) (al : A) :
    Calm (moveWith t b al) s := by
  unfold moveWith
  rw [if_neg (by rw [hae]; exact Bool.false_ne_true)]
  refine (calm_arr hs b).bind fun o' s₁ hs₁ harr => ?_
  rw [arr_apply hb] at harr
  cases harr
  split
  · exact (calm_create hs₁ _).bind fun a _ hs _ => (calm_setArr hs b _).bind
      fun _ _ hs _ => calm_pure hs a
  · exact calm_build hs₁ al (hi.size_le hb) fun a _ hs => calm_moveLoop hs a o.data o.size

theorem calm_swapAll (hs : Quiet s) (a b : Nat) : Calm (swapAll a b) s :=
  (calm_arr hs a).bind fun _ _ hs _ => (calm_arr hs b).bind fun _ _ hs _ =>
    (calm_setArr hs a _).bind fun _ _ hs _ => calm_setArr hs b _

theorem calm_swapData (hs : Quiet s) (a b : Nat) : Calm (swapData a b) s :=
  (calm_arr hs a).bind fun _ _ hs _ => (calm_arr hs b).bind fun _ _ hs _ =>
    (calm_setArr hs a _).bind fun _ _ hs _ => calm_setArr hs b _

/-- Move assignment and swap, at every depth of their calls. -/
theorem calm_moveAssign_swap (fuel : Nat) :
    (∀ (s : State α A) a b d o, WellFormed t s → Quiet s → s.arrs a = some d → s.arrs b = some o →
      Calm (moveAssign t fuel a b) s) ∧
    (∀ (s : State α A) a b d o, WellFormed t s → Quiet s → s.arrs a = some d → s.arrs b = some o →
      Calm (swap t fuel a b) s) := by
  induction fuel with
  | zero => exact ⟨fun _ _ _ _ _ _ _ _ _ => ⟨nofun, nofun⟩, fun _ _ _ _ _ _ _ _ _ => ⟨nofun, nofun⟩⟩
  | succ fuel ih =>
    obtain ⟨ihMove, ihSwap⟩ := ih
    constructor
    · intro s a b d o ⟨ls, hi⟩ hs ha hb
      by_cases hc : exchanges t d.alloc o.alloc = true
      · constructor
        · intro s' h
          rw [moveAssign_exchanges fuel ha hb hc] at h
          cases h
        · intro x s' h
          rw [moveAssign_exchanges fuel ha hb hc] at h
          cases h
          exact hs
      · rw [Bool.not_eq_true] at hc
        have hcalm : Calm (do
            let tmp ← moveWith t b d.alloc
            Prog.onThrow (swap t fuel tmp a) (destruct t tmp)
            destruct t tmp) s := by
          refine (hi.calm_moveWith (not_alwaysEqual hc) hs hb d.alloc).bind
            fun tmp s₁ hs₁ hmake => ?_
          have hmade := (hi.moveWith_spec hb d.alloc).ok hmake
          obtain ⟨e, he⟩ := hmade.2.here
          obtain ⟨d₁, ha₁⟩ := hmade.2.old ha
          exact (ihSwap s₁ tmp a e d₁ hmade.1 hs₁ he ha₁).onThrow.bind fun _ _ hs _ =>
            calm_destruct hs tmp
        constructor
        · intro s' h
          rw [moveAssign_moves fuel ha hb hc] at h
          exact hcalm.returns s' h
        · intro x s' h
          rw [moveAssign_moves fuel ha hb hc] at h
          exact hcalm.quiet x s' h
    · intro s a b d o ⟨ls, hi⟩ hs ha hb
      rw [swap]
      split
      · exact calm_swapAll hs a b
      · split
        · exact calm_swapData hs a b
        · refine (hi.calm_copy hs ha).bind fun tmp s₁ hs₁ hmake => ?_
          have hmade := (hi.copy_spec ha).ok hmake
          obtain ⟨e, he⟩ := hmade.2.here
          obtain ⟨d₁, ha₁⟩ := hmade.2.old ha
          obtain ⟨o₁, hb₁⟩ := hmade.2.old hb
          refine (Calm.onThrow ?_).bind fun _ _ hs _ => calm_destruct hs tmp
          refine (ihMove s₁ a b d₁ o₁ hmade.1 hs₁ ha₁ hb₁).bind fun _ s₂ hs₂ hfirst => ?_
          have hkeep := ((moveAssign_swap_spec fuel).1 s₁ a b d₁ o₁ hmade.1 ha₁ hb₁).ok hfirst
          obtain ⟨e₂, he₂⟩ := hkeep.2.here he
          obtain ⟨o₂, hb₂⟩ := hkeep.2.here hb₁
          exact ihMove s₂ b tmp o₂ e₂ hkeep.1 hs₂ hb₂ he₂

/-- A constructor returns if nothing throws. -/
theorem Makes.returns {p : Action α A Nat} (hmakes : Makes t p s) (hp : Settles p)
    (hcalm : Calm p s) :
    ∃ tmp s₁, p s = .ok tmp s₁ ∧ Quiet s₁ := by
  cases hrun : p s with
  | ok tmp s₁ => exact ⟨tmp, s₁, rfl, hcalm.quiet tmp s₁ hrun⟩
  | thrown s₁ => exact absurd hrun (hcalm.returns s₁)
  | fault =>
    rw [Makes, hrun] at hmakes
    exact hmakes.elim
  | pending => exact absurd hrun (hp.returns s)

end Gpcl.Dynarray
