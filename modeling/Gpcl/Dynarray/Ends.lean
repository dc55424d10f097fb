import Gpcl.Dynarray.Refine
import Gpcl.Dynarray.Calm

/-! # Whether swap and assignment end

Where allocators may differ and do not propagate, swap makes a copy of the array and moves it, and
move assignment from an array with another allocator swaps. A copy has the allocator that
`select_on_container_copy_construction` gives; where that one differs from the allocator of the
array, the two call each other for ever. Whether a call ends depends on the allocators only: a
constructor or an allocation that throws may cut it short, so the calls are looked at under every
plan of exceptions. -/
namespace Gpcl.Dynarray
open Lib.Memory Lib.Objects Lib.Objects.Heap
open Lib.Objects.Prog hiding pure bind

variable {α A : Type} {t : Traits α A} {s s' : State α A} {ls : Key → List (Obj α)} {a b fuel : Nat}
    {d o : Dynarray A}

/-! ## Calls that end -/

theorem settles_moveLoop (a : Nat) (q : Option Nat) (n : Nat) : Settles (moveLoop t a q n) := by
  induction n with
  | zero => exact Settles.pure ()
  | succ n ih =>
    exact (settles_arr a).bind fun d => (settles_constructMove ..).bind fun _ =>
      (settles_setArr ..).bind fun _ => ih

theorem settles_moveWith (b : Nat) (al : A) : Settles (moveWith t b al) := by
  unfold moveWith
  split
  · exact settles_move b
  · refine (settles_arr b).bind fun o => ?_
    split
    · exact (settles_create _).bind fun a => (settles_setArr ..).bind fun _ => Settles.pure a
    · refine (settles_create _).bind fun a => Settles.bind ?_ fun _ => Settles.pure a
      refine Settles.onThrow ?_ (settles_discard a)
      refine (settles_allocate ..).bind fun p => (settles_setArr ..).bind fun _ => ?_
      exact (settles_moveLoop ..).onThrow (settles_release a)

theorem settles_copyWith (b : Nat) (al : A) : Settles (copyWith t b al) :=
  (settles_arr b).bind fun _ => settles_ofRange ..

/-- A temporary is made and swapped: only the swap can be stuck. -/
theorem temp_eq_pending {make : Action α A Nat} {use : Nat → Action α A Unit} (hmake : Settles make)
    (h : (do let tmp ← make; Prog.onThrow (use tmp) (destruct t tmp);
             destruct t tmp) s = .pending) :
    ∃ tmp s₁, make s = .ok tmp s₁ ∧ use tmp s₁ = .pending := by
  obtain h | ⟨tmp, s₁, hmade, h⟩ := bind_eq_pending h
  · exact absurd h (hmake.returns s)
  · obtain h | ⟨_, s₂, -, h⟩ := bind_eq_pending h
    · exact ⟨tmp, s₁, hmade, (settles_destruct tmp).onThrow_eq_pending h⟩
    · exact absurd h ((settles_destruct tmp).returns s₂)

theorem temp_pending {make : Action α A Nat} {use : Nat → Action α A Unit} {tmp : Nat}
    {s₁ : State α A} (hmade : make s = .ok tmp s₁) (huse : use tmp s₁ = .pending) :
    (do let tmp ← make; Prog.onThrow (use tmp) (destruct t tmp); destruct t tmp) s = .pending := by
  rw [bind_ok hmade]
  exact bind_pending (onThrow_pending huse)

/-- A copy of an array with the allocator `p` has an allocator equal to `p`. -/
def Stays (t : Traits α A) (p : A) : Prop := t.equal p (t.selectOnCopy p) = true

/-- Swap of two arrays with these allocators ends. -/
def SwapEnds (t : Traits α A) (p q : A) : Prop :=
  t.propagateOnSwap = true ∨ t.alwaysEqual = true ∨ t.propagateOnMove = true ∨
    (Stays t p ∧ (t.equal p q = true ∨ Stays t q))

/-- Move assignment to an array with the allocator `p` from one with the allocator `q` ends. -/
def MoveEnds (t : Traits α A) (p q : A) : Prop :=
  exchanges t p q = true ∨ t.propagateOnSwap = true ∨ Stays t p

theorem exchanges_of_equal {p q : A} (h : t.equal p q = true) : exchanges t p q = true := by
  simp [exchanges, h]

theorem swap_temp (hps : t.propagateOnSwap = false) (hae : t.alwaysEqual = false) :
    swap t (fuel + 1) a b = (do
    let tmp ← copy t a
    Prog.onThrow (do
      moveAssign t fuel a b
      moveAssign t fuel b tmp) (destruct t tmp)
    destruct t tmp) := by
  rw [swap, if_neg (by rw [hps]; exact Bool.false_ne_true),
    if_neg (by rw [hae]; exact Bool.false_ne_true)]

/-- The copy that swap makes is a new array, with the allocator of a copy. -/
theorem Inv.copied {tmp : Nat} {s₁ : State α A} (hi : Inv t s none ls) (ha : s.arrs a = some d)
    (hb : s.arrs b = some o) (hmade : copy t a s = .ok tmp s₁) : WellFormed t s₁ ∧
      (∃ e, s₁.arrs tmp = some e ∧ e.alloc = t.selectOnCopy d.alloc) ∧ a ≠ tmp ∧ b ≠ tmp ∧
      s₁.arrs a = some d ∧ s₁.arrs b = some o := by
  obtain ⟨hbuilt, hsame⟩ := hi.copy_builds ha hmade
  have hatmp : a ≠ tmp := hbuilt.new ▸ Nat.ne_of_lt (hi.arr_lt ha)
  have hbtmp : b ≠ tmp := hbuilt.new ▸ Nat.ne_of_lt (hi.arr_lt hb)
  exact ⟨hbuilt.order, hbuilt.here, hatmp, hbtmp, (hsame a hatmp).1.trans ha,
    (hsame b hbtmp).1.trans hb⟩

/-- The two traits that make swap exchange buffers. -/
theorem swap_settles_exchange (h : t.propagateOnSwap = true ∨ t.alwaysEqual = true) :
    Settles (swap t (fuel + 1) a b) := by
  rw [swap]
  split
  · exact settles_swapAll a b
  · split
    · exact settles_swapData a b
    · rename_i hps hae
      exact (h.elim hps hae).elim

/-- Both move assignments of swap exchange their arrays. -/
theorem swap_settles_alike (hw : WellFormed t s) (ha : s.arrs a = some d) (hb : s.arrs b = some o)
    (hpq : exchanges t d.alloc o.alloc = true)
    (hp : exchanges t d.alloc (t.selectOnCopy d.alloc) = true) :
    swap t (fuel + 2) a b s ≠ .pending := by
  obtain ⟨ls, hi⟩ := hw
  by_cases hx : t.propagateOnSwap = true ∨ t.alwaysEqual = true
  · exact (swap_settles_exchange hx).returns s
  · rw [not_or, Bool.not_eq_true, Bool.not_eq_true] at hx
    rw [swap_temp hx.1 hx.2]
    intro h
    obtain ⟨tmp, s₁, hmade, h⟩ := temp_eq_pending (settles_copy a) h
    obtain ⟨hw₁, ⟨e, he, halloc⟩, hatmp, hbtmp, ha₁, hb₁⟩ := hi.copied ha hb hmade
    rw [bind_ok (moveAssign_exchanges fuel ha₁ hb₁ hpq)] at h
    have he₂ : Function.update (Function.update s₁.arrs a (some o)) b (some d) tmp = some e := by
      rw [Function.update_of_ne hbtmp.symm, Function.update_of_ne hatmp.symm, he]
    rw [moveAssign_exchanges fuel (Function.update_self ..) he₂ (by rw [halloc]; exact hp)] at h
    cases h

theorem moveAssign_settles (hw : WellFormed t s) (ha : s.arrs a = some d) (hb : s.arrs b = some o)
    (hends : MoveEnds t d.alloc o.alloc) :
    moveAssign t (fuel + 3) a b s ≠ .pending := by
  obtain ⟨ls, hi⟩ := hw
  by_cases hc : exchanges t d.alloc o.alloc = true
  · rw [moveAssign_exchanges _ ha hb hc]
    exact nofun
  · have hne := hc
    rw [Bool.not_eq_true] at hc
    rw [moveAssign_moves _ ha hb hc]
    intro h
    obtain ⟨tmp, s₁, hmade, h⟩ := temp_eq_pending (settles_moveWith b d.alloc) h
    obtain ⟨hbuilt, -, hsame⟩ := hi.moveWith_builds (not_alwaysEqual hc) hb hmade
    obtain ⟨e, he, halloc⟩ := hbuilt.here
    have hatmp : a ≠ tmp := hbuilt.new ▸ Nat.ne_of_lt (hi.arr_lt ha)
    have hab : a ≠ b := by
      rintro rfl
      obtain rfl := Option.some.inj (ha.symm.trans hb)
      exact hne (exchanges_of_equal (t.equal_refl _))
    have ha₁ : s₁.arrs a = some d := (hsame a hatmp hab).1.trans ha
    obtain hexch | hps | hstays := hends
    · exact hne hexch
    · exact (swap_settles_exchange (.inl hps)).returns s₁ h
    · refine swap_settles_alike hbuilt.order he ha₁ ?_ ?_ h
      · rw [halloc]
        exact exchanges_of_equal (t.equal_refl _)
      · rw [halloc]
        exact exchanges_of_equal hstays

theorem swap_settles (hw : WellFormed t s) (ha : s.arrs a = some d) (hb : s.arrs b = some o)
    (hends : SwapEnds t d.alloc o.alloc) :
    swap t (fuel + 4) a b s ≠ .pending := by
  obtain ⟨ls, hi⟩ := hw
  by_cases hx : t.propagateOnSwap = true ∨ t.alwaysEqual = true
  · exact (swap_settles_exchange hx).returns s
  · have hnx := hx
    rw [not_or, Bool.not_eq_true, Bool.not_eq_true] at hx
    obtain hps | hae | hpm | ⟨hp, hpq⟩ := hends
    · exact absurd (.inl hps) hnx
    · exact absurd (.inr hae) hnx
    · exact swap_settles_alike ⟨ls, hi⟩ ha hb (by simp [exchanges, hpm]) (by simp [exchanges, hpm])
    · by_cases hc : exchanges t d.alloc o.alloc = true
      · exact swap_settles_alike ⟨ls, hi⟩ ha hb hc (exchanges_of_equal hp)
      · have hq : Stays t o.alloc := hpq.resolve_left fun h => hc (exchanges_of_equal h)
        rw [Bool.not_eq_true] at hc
        rw [swap_temp hx.1 hx.2]
        intro h
        obtain ⟨tmp, s₁, hmade, h⟩ := temp_eq_pending (settles_copy a) h
        obtain ⟨hw₁, ⟨e, he, halloc⟩, hatmp, hbtmp, ha₁, hb₁⟩ := hi.copied ha hb hmade
        obtain h | ⟨_, s₂, hfirst, h⟩ := bind_eq_pending h
        · exact moveAssign_settles hw₁ ha₁ hb₁ (.inr (.inr hp)) h
        · -- the source still has its own allocator, and the temporary that of the copy
          obtain ⟨hmoves, hsource⟩ := (moveAssign_swap_values _).1 s₁ s₂ a b d o hw₁ ha₁ hb₁ hfirst
          obtain ⟨o₂, hb₂, ho₂⟩ := hsource hc
          have he₂ : s₂.arrs tmp = some e := (hmoves.others tmp hatmp.symm hbtmp.symm).1.trans he
          refine moveAssign_settles hmoves.order hb₂ he₂ (.inr (.inr ?_)) h
          rw [ho₂]
          exact hq

/-! ## Calls that do not -/

/-- With an allocator that its copies do not have, each call makes the other at one level less of
fuel. -/
theorem moveAssign_swap_pending (hps : t.propagateOnSwap = false) (fuel : Nat) :
    (∀ (s : State α A) a b d o, WellFormed t s → Quiet s → s.arrs a = some d → s.arrs b = some o →
      exchanges t d.alloc (t.selectOnCopy d.alloc) = false → exchanges t d.alloc o.alloc = false →
      moveAssign t fuel a b s = .pending) ∧
    (∀ (s : State α A) a b d o, WellFormed t s → Quiet s → s.arrs a = some d → s.arrs b = some o →
      exchanges t d.alloc (t.selectOnCopy d.alloc) = false → exchanges t d.alloc o.alloc = true →
      swap t fuel a b s = .pending) := by
  induction fuel with
  | zero => exact ⟨fun _ _ _ _ _ _ _ _ _ _ _ => rfl, fun _ _ _ _ _ _ _ _ _ _ _ => rfl⟩
  | succ fuel ih =>
    obtain ⟨ihMove, ihSwap⟩ := ih
    constructor
    · intro s a b d o ⟨ls, hi⟩ hs ha hb hp hc
      rw [moveAssign_moves fuel ha hb hc]
      obtain ⟨tmp, s₁, hmade, hs₁⟩ :=
        (hi.moveWith_spec hb d.alloc).returns (settles_moveWith b d.alloc)
        (hi.calm_moveWith (not_alwaysEqual hc) hs hb d.alloc)
      obtain ⟨hbuilt, -, hsame⟩ := hi.moveWith_builds (not_alwaysEqual hc) hb hmade
      obtain ⟨e, he, halloc⟩ := hbuilt.here
      have hatmp : a ≠ tmp := hbuilt.new ▸ Nat.ne_of_lt (hi.arr_lt ha)
      have hab : a ≠ b := by
        rintro rfl
        obtain rfl := Option.some.inj (ha.symm.trans hb)
        exact absurd (exchanges_of_equal (t.equal_refl _)) (Bool.eq_false_iff.mp hc)
      refine temp_pending hmade
        (ihSwap s₁ tmp a e d hbuilt.order hs₁ he ((hsame a hatmp hab).1.trans ha) ?_ ?_)
      · rw [halloc]
        exact hp
      · rw [halloc]
        exact exchanges_of_equal (t.equal_refl _)
    · intro s a b d o ⟨ls, hi⟩ hs ha hb hp hc
      rw [swap_temp hps (not_alwaysEqual hp)]
      obtain ⟨tmp, s₁, hmade, hs₁⟩ :=
        (hi.copy_spec ha).returns (settles_copy a) (hi.calm_copy hs ha)
      obtain ⟨hw₁, ⟨e, he, halloc⟩, hatmp, hbtmp, ha₁, hb₁⟩ := hi.copied ha hb hmade
      refine temp_pending hmade ?_
      cases fuel with
      | zero => exact bind_pending rfl
      | succ fuel =>
        -- the arrays have been exchanged, so that the temporary meets the allocator it was copied
        -- from
        have hfirst := moveAssign_exchanges fuel ha₁ hb₁ hc
        have hmoves := ((moveAssign_swap_values _).1 s₁ _ a b d o hw₁ ha₁ hb₁ hfirst).1
        rw [bind_ok hfirst]
        refine ihMove _ b tmp d e hmoves.order hs₁ (Function.update_self ..) ?_ hp ?_
        · exact (hmoves.others tmp hatmp.symm hbtmp.symm).1.trans he
        · rw [halloc]
          exact hp

theorem exchanges_eq (hpm : t.propagateOnMove = false) (hae : t.alwaysEqual = false) (p q : A) :
    exchanges t p q = t.equal p q := by
  simp [exchanges, hpm, hae]

theorem moveAssign_pending (hw : WellFormed t s) (hs : Quiet s) (ha : s.arrs a = some d)
    (hb : s.arrs b = some o)
    (hends : ¬ MoveEnds t d.alloc o.alloc) : moveAssign t fuel a b s = .pending := by
  simp only [MoveEnds, not_or, Bool.not_eq_true] at hends
  obtain ⟨hc, hps, hp⟩ := hends
  refine (moveAssign_swap_pending hps fuel).1 s a b d o hw hs ha hb ?_ hc
  have hpm : t.propagateOnMove = false := by
    rw [exchanges, Bool.or_eq_false_iff, Bool.or_eq_false_iff] at hc
    exact hc.1.1
  rw [exchanges_eq hpm (not_alwaysEqual hc)]
  exact Bool.eq_false_iff.mpr hp

theorem swap_pending (hw : WellFormed t s) (hs : Quiet s) (ha : s.arrs a = some d)
    (hb : s.arrs b = some o)
    (hends : ¬ SwapEnds t d.alloc o.alloc) : swap t fuel a b s = .pending := by
  simp only [SwapEnds, not_or, not_and, Bool.not_eq_true] at hends
  obtain ⟨hps, hae, hpm, hends⟩ := hends
  have hexch := exchanges_eq hpm hae
  obtain ⟨ls, hi⟩ := hw
  by_cases hc : t.equal d.alloc o.alloc = true ∧ ¬ Stays t d.alloc
  · refine (moveAssign_swap_pending hps fuel).2 s a b d o ⟨ls, hi⟩ hs ha hb ?_
      (exchanges_of_equal hc.1)
    rw [hexch]
    exact Bool.eq_false_iff.mpr hc.2
  · have hne : t.equal d.alloc o.alloc = false := by
      rw [Bool.eq_false_iff]
      intro h
      exact hc ⟨h, fun hp => absurd h (Bool.eq_false_iff.mp (hends hp).1)⟩
    cases fuel with
    | zero => rfl
    | succ fuel =>
      rw [swap_temp hps hae]
      obtain ⟨tmp, s₁, hmade, hs₁⟩ :=
        (hi.copy_spec ha).returns (settles_copy a) (hi.calm_copy hs ha)
      obtain ⟨hw₁, ⟨e, he, halloc⟩, hatmp, hbtmp, ha₁, hb₁⟩ := hi.copied ha hb hmade
      refine temp_pending hmade ?_
      by_cases hp : Stays t d.alloc
      · -- the first move assignment may end, the second one does not
        have hcalm := (calm_moveAssign_swap fuel).1 s₁ a b d o hw₁ hs₁ ha₁ hb₁
        cases hfirst : moveAssign t fuel a b s₁ with
        | pending => exact bind_pending hfirst
        | thrown s₂ => exact absurd hfirst (hcalm.returns s₂)
        | fault =>
          have hkeep := (moveAssign_swap_spec fuel).1 s₁ a b d o hw₁ ha₁ hb₁
          rw [Keeps, hfirst] at hkeep
          exact hkeep.elim
        | ok x s₂ =>
          obtain ⟨hmoves, hsource⟩ := (moveAssign_swap_values _).1 s₁ s₂ a b d o hw₁ ha₁ hb₁ hfirst
          obtain ⟨o₂, hb₂, ho₂⟩ := hsource (by rw [hexch]; exact hne)
          have he₂ : s₂.arrs tmp = some e := (hmoves.others tmp hatmp.symm hbtmp.symm).1.trans he
          rw [bind_ok hfirst]
          refine moveAssign_pending hmoves.order (hcalm.quiet x s₂ hfirst) hb₂ he₂ ?_
          simp only [MoveEnds, not_or, Bool.not_eq_true]
          refine ⟨?_, hps, ?_⟩
          · rw [hexch, ho₂, halloc, Bool.eq_false_iff]
            intro h
            have heq := t.equal_trans _ _ _ hp (t.equal_symm _ _ h)
            exact absurd heq (Bool.eq_false_iff.mp hne)
          · rw [ho₂]
            exact (hends hp).2
      · refine bind_pending (moveAssign_pending hw₁ hs₁ ha₁ hb₁ ?_)
        simp only [MoveEnds, not_or, Bool.not_eq_true]
        exact ⟨by rw [hexch]; exact hne, hps, hp⟩

/-! ## A new array for an old one -/

section
variable {make : Action α A Nat} {al : A} {v : Option (List α)}

theorem Inv.swapTemp_settles (hi : Inv t s none ls) (ha : s.arrs a = some d)
    (hsettles : Settles make)
    (hmake : ∀ tmp s₁, make s = .ok tmp s₁ → Builds t s s₁ tmp al v ∧ ∀ c, c ≠ tmp → Same t s s₁ c)
    (hends : SwapEnds t al d.alloc) :
    (do let tmp ← make; Prog.onThrow (swap t (fuel + 4) tmp a) (destruct t tmp);
        destruct t tmp) s ≠ .pending := by
  intro h
  obtain ⟨tmp, s₁, hmade, h⟩ := temp_eq_pending hsettles h
  obtain ⟨hbuilt, hsame⟩ := hmake tmp s₁ hmade
  obtain ⟨e, he, rfl⟩ := hbuilt.here
  have hatmp : a ≠ tmp := hbuilt.new ▸ Nat.ne_of_lt (hi.arr_lt ha)
  exact swap_settles hbuilt.order he ((hsame a hatmp).1.trans ha) hends h

theorem Inv.swapTemp_pending (hi : Inv t s none ls) (ha : s.arrs a = some d)
    (hsettles : Settles make) (hmakes : Makes t make s) (hcalm : Calm make s)
    (hmake : ∀ tmp s₁, make s = .ok tmp s₁ → Builds t s s₁ tmp al v ∧ ∀ c, c ≠ tmp → Same t s s₁ c)
    (hends : ¬ SwapEnds t al d.alloc) :
    (do let tmp ← make; Prog.onThrow (swap t fuel tmp a) (destruct t tmp);
        destruct t tmp) s = .pending := by
  obtain ⟨tmp, s₁, hmade, hs₁⟩ := hmakes.returns hsettles hcalm
  obtain ⟨hbuilt, hsame⟩ := hmake tmp s₁ hmade
  obtain ⟨e, he, rfl⟩ := hbuilt.here
  have hatmp : a ≠ tmp := hbuilt.new ▸ Nat.ne_of_lt (hi.arr_lt ha)
  exact temp_pending hmade (swap_pending hbuilt.order hs₁ he ((hsame a hatmp).1.trans ha) hends)

end

section
variable {xs : List (Arg α)} {vs : List α} {al : A}

theorem Inv.assignWith_settles (hi : Inv t s none ls) (ha : s.arrs a = some d)
    (hreads : List.Forall₂ (ReadsAs s none ls s.nextArr) xs vs)
    (hends : maxSize < xs.length ∨ SwapEnds t al d.alloc) :
    assignWith t (fuel + 4) a xs al s ≠ .pending := by
  unfold assignWith
  by_cases hae : t.alwaysEqual = true
  · rw [if_pos hae, bind_ok (arr_apply ha)]
    split
    · exact hi.swapTemp_settles ha (settles_ofRange ..)
        (fun _ _ hmade => hi.ofRange_builds hreads hmade) (.inr (.inl hae))
    · exact ((settles_keepFirstN ..).bind fun _ => settles_assignLoop ..).returns s
  · rw [if_neg hae]
    obtain hlen | hends := hends
    · intro h
      -- a range that is too long is not served, whatever else is
      obtain ⟨tmp, s₁, hmade, -⟩ := temp_eq_pending (settles_ofRange ..) h
      obtain ⟨_, _, hcreate, hbody⟩ := bind_eq_ok hmade
      obtain ⟨_, _, hbody, -⟩ := bind_eq_ok hbody
      obtain ⟨p, _, hallocate, -⟩ := bind_eq_ok (onThrow_eq_ok hbody)
      have hf := allocate_eq_ok hallocate
      rw [allocFails, Bool.or_eq_false_iff, decide_eq_false_iff_not] at hf
      exact hf.2 hlen
    · exact hi.swapTemp_settles ha (settles_ofRange ..)
        (fun _ _ hmade => hi.ofRange_builds hreads hmade) hends

theorem Inv.assignWith_pending (hi : Inv t s none ls) (hs : Quiet s) (ha : s.arrs a = some d)
    (hreads : List.Forall₂ (ReadsAs s none ls s.nextArr) xs vs) (hlen : xs.length ≤ maxSize)
    (hends : ¬ SwapEnds t al d.alloc) :
    assignWith t fuel a xs al s = .pending := by
  have hae : ¬ t.alwaysEqual = true := fun hae => hends (.inr (.inl hae))
  rw [assignWith, if_neg hae]
  exact hi.swapTemp_pending ha (settles_ofRange ..) (hi.ofRange_spec al xs)
    (calm_ofRange hs al hlen)
    (fun _ _ hmade => hi.ofRange_builds hreads hmade) hends

end

/-! ## The calls -/

/-- What is done to an array. -/
inductive Exchange (α : Type)
  | swap (b : Nat)
  | moveAssign (b : Nat)
  | copyAssign (b : Nat)
  | assign (xs : List (Src α))
  | shrinkToFit

namespace Exchange

def run (t : Traits α A) (fuel a : Nat) (s : State α A) : Exchange α → Action α A Unit
  | swap b => Dynarray.swap t fuel a b
  | moveAssign b => Dynarray.moveAssign t fuel a b
  | copyAssign b => Dynarray.copyAssign t fuel a b
  | assign xs => Dynarray.assign t fuel a (xs.map (Src.arg s))
  | shrinkToFit => Dynarray.shrinkToFit t fuel a

/-- The other array is there. A range may have elements of the array itself where these are copied
first. -/
def Legal (t : Traits α A) (s : State α A) (a : Nat) : Exchange α → Prop
  | swap b | moveAssign b | copyAssign b => ∃ o, s.arrs b = some o
  | assign xs => ∀ x ∈ xs, x.There s ∧ (t.alwaysEqual = true → x.Foreign a)
  | shrinkToFit => True

/-- The sequences the operands are to have. -/
def Gives (t : Traits α A) (s s' : State α A) (a : Nat) : Exchange α → Prop
  | swap b =>
    contents t s' = Function.update (Function.update (contents t s) a (contents t s b)) b
      (contents t s a)
  | moveAssign b =>
    contents t s' a = contents t s b ∧ ∀ c, c ≠ a → c ≠ b → contents t s' c = contents t s c
  | copyAssign b => contents t s' = Function.update (contents t s) a (contents t s b)
  | assign xs =>
    contents t s' = Function.update (contents t s) a (some (xs.map (Src.value t (contents t s))))
  | shrinkToFit => contents t s' = contents t s

/-- The allocators for which the call ends; `p` is that of the array. A range that no allocator can
serve is refused. -/
def Ends (t : Traits α A) (s : State α A) (p : A) : Exchange α → Prop
  | swap b => ∀ o, s.arrs b = some o → SwapEnds t p o.alloc
  | moveAssign b => ∀ o, s.arrs b = some o → MoveEnds t p o.alloc
  | copyAssign b => ∀ o, s.arrs b = some o → SwapEnds t (if t.propagateOnCopy then o.alloc else p) p
  | assign xs => maxSize < xs.length ∨ SwapEnds t p p
  | shrinkToFit => SwapEnds t p p

end Exchange

/-- The call ends, by an exception or with the sequences it is to give. -/
def Finishes (t : Traits α A) (s : State α A) (a : Nat) (m : Exchange α) : Prop :=
  ∃ depth, ∀ fuel, depth ≤ fuel → (∃ s', m.run t fuel a s s = .thrown s') ∨
    ∃ s', m.run t fuel a s s = .ok () s' ∧ m.Gives t s s' a

/-- The same state, with another plan of exceptions. -/
def State.withPlan (s : State α A) (fail : Nat → Bool) : State α A :=
  { s with heap := { s.heap with fail } }

theorem Inv.withPlan (hi : Inv t s none ls) (fail : Nat → Bool) : Inv t (s.withPlan fail) none ls :=
  ⟨⟨hi.ledger.once, hi.ledger.gone, hi.ledger.issued, hi.ledger.past, hi.ledger.placed,
    hi.ledger.all, hi.ledger.fresh⟩,
    hi.owns.heap rfl, hi.fresh⟩

theorem Inv.exchange_settles (hi : Inv t s none ls) (ha : s.arrs a = some d) {m : Exchange α}
    (hl : m.Legal t s a) (hends : m.Ends t s d.alloc) : m.run t (fuel + 4) a s s ≠ .pending := by
  cases m with
  | swap b =>
    obtain ⟨o, hb⟩ := hl
    exact swap_settles ⟨ls, hi⟩ ha hb (hends o hb)
  | moveAssign b =>
    obtain ⟨o, hb⟩ := hl
    exact moveAssign_settles ⟨ls, hi⟩ ha hb (hends o hb)
  | copyAssign b =>
    obtain ⟨o, hb⟩ := hl
    rw [Exchange.run, copyAssign, bind_ok (arr_apply ha), bind_ok (arr_apply hb)]
    exact hi.assignWith_settles ha (hi.reads_range hb (Nat.ne_of_lt (hi.arr_lt hb)))
      (.inr (hends o hb))
  | assign xs =>
    rw [Exchange.run, assign, bind_ok (arr_apply ha)]
    refine hi.assignWith_settles ha
      (Src.reads_all hi fun x hx => ⟨(hl x hx).1, (hl x hx).1.foreign hi⟩) ?_
    rw [List.length_map]
    exact hends
  | shrinkToFit =>
    rw [Exchange.run, shrinkToFit, bind_ok (arr_apply ha)]
    exact hi.swapTemp_settles ha (settles_copyWith ..)
      (fun _ _ hmade => hi.copyWith_builds ha hmade) hends

theorem Inv.exchange_keeps (hi : Inv t s none ls) (ha : s.arrs a = some d) {m : Exchange α}
    (hl : m.Legal t s a) :
    Keeps t (m.run t fuel a s) s := by
  cases m with
  | swap b =>
    obtain ⟨o, hb⟩ := hl
    exact (moveAssign_swap_spec fuel).2 s a b d o ⟨ls, hi⟩ ha hb
  | moveAssign b =>
    obtain ⟨o, hb⟩ := hl
    exact (moveAssign_swap_spec fuel).1 s a b d o ⟨ls, hi⟩ ha hb
  | copyAssign b =>
    obtain ⟨o, hb⟩ := hl
    exact hi.copyAssign_spec ha hb fuel
  | assign xs => exact hi.assign_spec ha fuel _
  | shrinkToFit => exact hi.shrinkToFit_spec ha fuel

theorem Inv.exchange_gives (hi : Inv t s none ls) (ha : s.arrs a = some d) {m : Exchange α}
    (hl : m.Legal t s a) (hrun : m.run t fuel a s s = .ok () s') : m.Gives t s s' a := by
  cases m with
  | swap b =>
    obtain ⟨o, hb⟩ := hl
    exact ((moveAssign_swap_values fuel).2 s s' a b d o ⟨ls, hi⟩ ha hb hrun).contents_eq
  | moveAssign b =>
    obtain ⟨o, hb⟩ := hl
    have hmoves := ((moveAssign_swap_values fuel).1 s s' a b d o ⟨ls, hi⟩ ha hb hrun).1
    exact ⟨hmoves.got, fun c hca hcb => (hmoves.others c hca hcb).2⟩
  | copyAssign b =>
    obtain ⟨o, hb⟩ := hl
    exact (hi.copyAssign_values ha hb hrun).2
  | assign xs =>
    rw [Exchange.run, assign, bind_ok (arr_apply ha)] at hrun
    exact (hi.assignWith_values ha
      (fun hae => Src.reads_all hi fun x hx => ⟨(hl x hx).1, (hl x hx).2 hae⟩)
      (Src.reads_all hi fun x hx => ⟨(hl x hx).1, (hl x hx).1.foreign hi⟩) hrun).2
  | shrinkToFit => exact (hi.shrinkToFit_values ha hrun).2

theorem Inv.exchange_pending (hi : Inv t s none ls) (hs : Quiet s) (ha : s.arrs a = some d)
    {m : Exchange α} (hl : m.Legal t s a)
    (hends : ¬ m.Ends t s d.alloc) : m.run t fuel a s s = .pending := by
  cases m with
  | swap b =>
    obtain ⟨o, hb⟩ := hl
    refine swap_pending ⟨ls, hi⟩ hs ha hb fun h => hends fun o' hb' => ?_
    rwa [← Option.some.inj (hb.symm.trans hb')]
  | moveAssign b =>
    obtain ⟨o, hb⟩ := hl
    refine moveAssign_pending ⟨ls, hi⟩ hs ha hb fun h => hends fun o' hb' => ?_
    rwa [← Option.some.inj (hb.symm.trans hb')]
  | copyAssign b =>
    obtain ⟨o, hb⟩ := hl
    rw [Exchange.run, copyAssign, bind_ok (arr_apply ha), bind_ok (arr_apply hb)]
    refine hi.assignWith_pending hs ha (hi.reads_range hb (Nat.ne_of_lt (hi.arr_lt hb))) ?_ fun h =>
      hends fun o' hb' => ?_
    · rw [range, List.length_map, List.length_range]
      exact hi.size_le hb
    · rwa [← Option.some.inj (hb.symm.trans hb')]
  | assign xs =>
    rw [Exchange.Ends, not_or, Nat.not_lt] at hends
    rw [Exchange.run, assign, bind_ok (arr_apply ha)]
    refine hi.assignWith_pending hs ha
      (Src.reads_all hi fun x hx => ⟨(hl x hx).1, (hl x hx).1.foreign hi⟩) ?_ hends.2
    rw [List.length_map]
    exact hends.1
  | shrinkToFit =>
    rw [Exchange.run, shrinkToFit, bind_ok (arr_apply ha)]
    exact hi.swapTemp_pending ha (settles_copyWith ..) (hi.copyWith_spec ha _)
      (hi.calm_copyWith hs ha _)
      (fun _ _ hmade => hi.copyWith_builds ha hmade) hends

/-- Swap, the assignments and `shrink_to_fit` end with the sequences they are to give, whatever
throws, exactly when the allocators are such that their calls to each other come to an end. -/
theorem exchange_ends_iff (hw : WellFormed t s) (ha : s.arrs a = some d) {m : Exchange α}
    (hl : m.Legal t s a) :
    (∀ fail, Finishes t (s.withPlan fail) a m) ↔ m.Ends t s d.alloc := by
  obtain ⟨ls, hi⟩ := hw
  constructor
  · intro h
    refine Classical.byContradiction fun hends => ?_
    obtain ⟨depth, hdepth⟩ := h fun _ => false
    have hpending :
        m.run t depth a (s.withPlan fun _ => false) (s.withPlan fun _ => false) = .pending :=
      (hi.withPlan fun _ => false).exchange_pending (fun _ => rfl) ha (m := m) hl hends
    obtain ⟨s', hrun⟩ | ⟨s', hrun, -⟩ := hdepth depth (Nat.le_refl _)
    · rw [hpending] at hrun
      cases hrun
    · rw [hpending] at hrun
      cases hrun
  · intro hends fail
    have hi' := hi.withPlan fail
    refine ⟨4, fun fuel hfuel => ?_⟩
    obtain ⟨k, rfl⟩ := Nat.exists_eq_add_of_le' hfuel
    have hkeeps : Keeps t (m.run t (k + 4) a (s.withPlan fail)) (s.withPlan fail) :=
      hi'.exchange_keeps ha (m := m) hl
    cases hrun : m.run t (k + 4) a (s.withPlan fail) (s.withPlan fail) with
    | ok x s' => exact .inr ⟨s', rfl, hi'.exchange_gives ha (m := m) hl hrun⟩
    | thrown s' => exact .inl ⟨s', rfl⟩
    | fault =>
      rw [Keeps, hrun] at hkeeps
      exact hkeeps.elim
    | pending => exact absurd hrun (hi'.exchange_settles ha (m := m) hl hends)

/-- Allocators that are memory resources, as those of `pmr` are: nothing propagates, and a copy gets
the default one. -/
def perResource : Traits Nat Nat where
  default := 0
  junk := 0
  movedFrom := id
  nothrowMove := true
  nothrowCopyAssign := true
  alwaysEqual := false
  propagateOnCopy := false
  propagateOnMove := false
  propagateOnSwap := false
  selectOnCopy _ := 0
  equal p q := p == q
  equal_refl _ := by simp
  equal_symm _ _ h := by simpa using (by simpa using h : _ = _).symm
  equal_trans _ _ _ h h' := by simp_all
  equal_always := nofun

/-- Arrays of one element and of two, with the same resource. -/
theorem two_arrays (al : Nat) :
    ∃ s₁ s a b d o, ofRange perResource al [.val 5] (initial fun _ => false) = .ok a s₁ ∧
    ofRange perResource al [.val 6, .val 7] s₁ = .ok b s ∧ WellFormed perResource s ∧ Quiet s ∧
    s.arrs a = some d ∧ d.alloc = al ∧ s.arrs b = some o ∧ o.alloc = al := by
  have hi : Inv perResource (initial fun _ => false) none fun _ => [] := Inv.initial _
  obtain ⟨a, s₁, hmade, hs₁⟩ :=
    (hi.ofRange_spec al [.val 5]).returns (settles_ofRange ..)
      (calm_ofRange (fun _ => rfl) al (by decide))
  obtain ⟨⟨⟨ls₁, hi₁⟩, -, ⟨d, ha, hd⟩, -⟩, -⟩ := hi.ofRange_builds (.cons (.inl rfl) .nil) hmade
  obtain ⟨b, s, hmade', hs⟩ :=
    (hi₁.ofRange_spec al [.val 6, .val 7]).returns (settles_ofRange ..)
      (calm_ofRange hs₁ al (by decide))
  obtain ⟨⟨hw, hnew, ⟨o, hb, ho⟩, -⟩, hsame⟩ :=
    hi₁.ofRange_builds (.cons (.inl rfl) (.cons (.inl rfl) .nil)) hmade'
  have hab : a ≠ b := hnew ▸ Nat.ne_of_lt (hi₁.arr_lt ha)
  exact ⟨s₁, s, a, b, d, o, hmade, hmade', hw, hs, (hsame a hab).1.trans ha, hd, hb, ho⟩

/-- Two arrays with the default resource are swapped. -/
theorem default_resource_ends :
    ∃ s₁ s a b, ofRange perResource 0 [.val 5] (initial fun _ => false) = .ok a s₁ ∧
    ofRange perResource 0 [.val 6, .val 7] s₁ = .ok b s ∧
    ∀ fail, Finishes perResource (s.withPlan fail) a (.swap b) := by
  obtain ⟨s₁, s, a, b, d, o, hmade, hmade', hw, -, ha, hd, hb, ho⟩ := two_arrays 0
  refine ⟨s₁, s, a, b, hmade, hmade',
    (exchange_ends_iff hw ha (m := .swap b) ⟨o, hb⟩).mpr fun o' hb' => ?_⟩
  obtain rfl := Option.some.inj (hb.symm.trans hb')
  rw [hd, ho]
  exact .inr (.inr (.inr ⟨rfl, .inl rfl⟩))

/-- Two arrays with another resource are swapped, or the first one is shrunk. -/
theorem other_resource_never_ends :
    ∃ s₁ s a b, ofRange perResource 1 [.val 5] (initial fun _ => false) = .ok a s₁ ∧
    ofRange perResource 1 [.val 6, .val 7] s₁ = .ok b s ∧
    ∀ fuel, swap perResource fuel a b s = .pending ∧
    shrinkToFit perResource fuel a s = .pending := by
  obtain ⟨s₁, s, a, b, d, o, hmade, hmade', ⟨ls, hi⟩, hs, ha, hd, hb, ho⟩ := two_arrays 1
  have hends : ¬ SwapEnds perResource 1 1 := by simp [SwapEnds, Stays, perResource]
  refine ⟨s₁, s, a, b, hmade, hmade', fun fuel => ⟨swap_pending ⟨ls, hi⟩ hs ha hb ?_, ?_⟩⟩
  · rw [hd, ho]
    exact hends
  · refine hi.exchange_pending hs ha (m := .shrinkToFit) trivial ?_
    rw [hd]
    exact hends

end Gpcl.Dynarray
