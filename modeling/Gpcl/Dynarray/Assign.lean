import Gpcl.Dynarray.Reserve

/-! # Constructors, assignment and swap

These build a new array first and then exchange buffers, so an exception finds every array
in order. Move assignment and swap call each other through temporaries; what they keep is
an induction on the depth of these calls. -/
namespace Gpcl.Dynarray
open Lib.Memory Lib.Objects Lib.Objects.Heap
open Lib.Objects.Prog hiding pure bind

variable {α A : Type} {t : Traits α A} {s s' : State α A} {ls : Key → List (Obj α)} {a b n : Nat}
  {d o : Dynarray A}

/-- One more array object. -/
structure Adds (s s' : State α A) (a : Nat) : Prop where
  new : s.arrs a = none
  here : ∃ d, s'.arrs a = some d
  others : ∀ a', a' ≠ a → (s'.arrs a').isSome = (s.arrs a').isSome

/-- An operation on existing arrays, whether it throws or not. -/
def Keeps {β : Type} (t : Traits α A) (p : Action α A β) (s : State α A) : Prop :=
  Post (p s) (fun _ s' => WellFormed t s' ∧ SameArrays s s')
    (fun s' => WellFormed t s' ∧ SameArrays s s')

/-- A constructor. -/
def Makes (t : Traits α A) (p : Action α A Nat) (s : State α A) : Prop :=
  Post (p s) (fun a s' => WellFormed t s' ∧ Adds s s' a)
    (fun s' => WellFormed t s' ∧ SameArrays s s')

theorem SameArrays.here (h : SameArrays s s') (ha : s.arrs a = some d) :
    ∃ d', s'.arrs a = some d' :=
  Option.isSome_iff_exists.mp (by rw [h a, ha]; rfl)

theorem SameArrays.trans {s₁ s₂ : State α A} (h₁ : SameArrays s s₁) (h₂ : SameArrays s₁ s₂) :
    SameArrays s s₂ :=
  fun a => (h₂ a).trans (h₁ a)

theorem Adds.old (h : Adds s s' a) (hb : s.arrs b = some d) : ∃ d', s'.arrs b = some d' := by
  have hne : b ≠ a := by
    rintro rfl
    rw [h.new] at hb; cases hb
  exact Option.isSome_iff_exists.mp (by rw [h.others b hne, hb]; rfl)

/-! ## Temporaries -/

/-- The temporary is destroyed, and the arrays are those before it was made. -/
theorem WellFormed.destruct_temp {s₁ : State α A} (hw : WellFormed t s₁) (hadd : Adds s s₁ a) :
    ∃ s₂, destruct t a s₁ = .ok () s₂ ∧ WellFormed t s₂ ∧ SameArrays s s₂ := by
  obtain ⟨ls, hi⟩ := hw
  obtain ⟨d, ha⟩ := hadd.here
  obtain ⟨s₂, hrun, hi₂, harrs, -⟩ := hi.destruct_spec ha
  refine ⟨s₂, hrun, ⟨_, hi₂⟩, fun a' => ?_⟩
  rw [harrs]
  by_cases haa : a' = a
  · rw [haa, Function.update_self, hadd.new]
  · rw [Function.update_of_ne haa, hadd.others a' haa]

theorem Adds.same {s₁ s₂ : State α A} (h : Adds s s₁ a) (h₂ : SameArrays s₁ s₂) : Adds s s₂ a := by
  obtain ⟨d, ha⟩ := h.here
  exact ⟨h.new, h₂.here ha, fun a' hne => (h₂ a').trans (h.others a' hne)⟩

/-- A temporary is made, used and destroyed. -/
theorem temp_spec {make : Action α A Nat} {use : Nat → Action α A Unit} (hmake : Makes t make s)
    (huse : ∀ a s₁, WellFormed t s₁ → Adds s s₁ a → Keeps t (use a) s₁) :
    Keeps t (do let a ← make; Prog.onThrow (use a) (destruct t a); destruct t a) s := by
  refine Post.bind hmake ?_
  intro a s₁ ⟨hw, hadd⟩
  refine Post.bind (Post.onThrow (huse a s₁ hw hadd) ?_) ?_
  · intro s₂ ⟨hw₂, hsame⟩
    obtain ⟨s₃, hrun, hres⟩ := hw₂.destruct_temp (hadd.same hsame)
    rw [hrun]
    exact hres
  · rintro - s₂ ⟨hw₂, hsame⟩
    obtain ⟨s₃, hrun, hres⟩ := hw₂.destruct_temp (hadd.same hsame)
    rw [hrun]
    exact hres

/-! ## Constructors -/

theorem Inv.empty_spec (hi : Inv t s none ls) (al : A) : Makes t (empty al) s := by
  refine ⟨⟨_, hi.created al⟩, hi.fresh _ (Nat.le_refl _), ⟨_, Function.update_self ..⟩,
    fun a' hne => ?_⟩
  dsimp only
  rw [Function.update_of_ne hne]

/-- The frame of the constructors that allocate a buffer and fill it. -/
theorem Inv.build_spec (hi : Inv t s none ls) (al : A) {body : Nat → Action α A Unit}
    (hbody : ∀ s₁ ls₁ b, Inv t s₁ none ls₁ → s₁.arrs s.nextArr = some ⟨al, some b, 0, n⟩ →
      (∀ a', a' ≠ s.nextArr → s₁.arrs a' = s.arrs a' ∧ ls₁ (some a') = ls (some a')) →
      Post (body s.nextArr s₁) (fun _ s' => WellFormed t s' ∧ SameArrays s₁ s')
        (fun s' => WellFormed t s' ∧ SameArrays s₁ s')) :
    Makes t (do
      let a ← create ⟨al, none, 0, n⟩
      Prog.onThrow (do
        let p ← allocate al n
        setArr a ⟨al, some p, 0, n⟩
        Prog.onThrow (body a) (release t a)) (discard a)
      pure a) s := by
  have hnew : s.arrs s.nextArr = none := hi.fresh _ (Nat.le_refl _)
  have hcreate : create ⟨al, none, 0, n⟩ s = .ok s.nextArr ⟨s.heap, Function.update s.arrs s.nextArr
    (some ⟨al, none, 0, n⟩), s.nextArr + 1⟩ := rfl
  rw [Makes, bind_ok hcreate]
  generalize hs₁ : (State.mk s.heap _ _ : State α A) = s₁
  by_cases hf : allocFails s₁ n = true
  · rw [bind_thrown (onThrow_thrown (bind_thrown (allocate_thrown al hf))
      (show discard s.nextArr _ = .ok () _ from rfl))]
    have hgone : Function.update s.arrs s.nextArr none = s.arrs := by
      rw [← hnew, Function.update_eq_self]
    subst hs₁
    refine ⟨⟨ls, ?_⟩, fun a' => ?_⟩
    · have hi' := hi.next
      refine ⟨hi'.ledger, ?_, fun a ha => ?_⟩
      · dsimp only
        rw [Function.update_idem, hgone]
        exact hi'.owns
      · dsimp only at ha ⊢
        rw [Function.update_idem, hgone]
        exact hi.fresh a (by omega)
    · dsimp only
      rw [Function.update_idem, hgone]
  · have hf := Bool.eq_false_iff.mpr hf
    have hacq := (hi.created al).acquire (n := n) (Function.update_self ..) rfl
      (by subst hs₁; exact hf)
    have harr₁ : s₁.arrs = Function.update s.arrs s.nextArr (some ⟨al, none, 0, n⟩) := by
      subst hs₁; rfl
    refine Post.bind (Post.onThrow (Q := fun _ s₂ => WellFormed t s₂ ∧ SameArrays s₁ s₂)
        (E := fun s₂ =>
      SameArrays s₁ s₂ ∧ ∃ ls₂ e, Inv t s₂ none ls₂ ∧ s₂.arrs s.nextArr = some e ∧
        e.data = none) ?_ ?_) ?_
    · rw [bind_ok (allocate_ok al hf), bind_ok (setArr_apply ..)]
      dsimp only at hacq
      rw [Function.update_idem, Function.update_idem] at hacq
      generalize hs₂ : (State.mk _ _ s₁.nextArr : State α A) = s₂
      have harr₂ : s₂.arrs = Function.update s.arrs s.nextArr
          (some ⟨al, some (s.heap.next.2.allocate al n).2, 0, n⟩) := by
        subst hs₂ hs₁
        exact Function.update_idem ..
      have hi₂ : Inv t s₂ none (Function.update ls (some s.nextArr) []) := by
        subst hs₂ hs₁
        dsimp only
        rw [Function.update_idem]
        exact hacq
      have hsame₂ : SameArrays s₁ s₂ := by
        have hset : Sets s₁ s₂ s.nextArr ⟨al, some (s.heap.next.2.allocate al n).2, 0, n⟩ :=
          ⟨by rw [harr₂, harr₁, Function.update_idem], by subst hs₂; rfl⟩
        exact hset.sameArrays (by rw [harr₁, Function.update_self])
      refine Post.onThrow ((hbody s₂ _ _ hi₂ (by rw [harr₂, Function.update_self])
        fun a' hne => ?_).mono ?_
        (fun _ => id)) ?_
      · rw [harr₂, Function.update_of_ne hne,
          Function.update_of_ne (fun h => hne (Option.some.inj h))]
        exact ⟨rfl, rfl⟩
      · rintro - s₃ ⟨hw, hsame⟩
        exact ⟨hw, hsame₂.trans hsame⟩
      · intro s₃ ⟨⟨ls₃, hi₃⟩, hsame⟩
        obtain ⟨e, he⟩ := hsame.here (by rw [harr₂, Function.update_self])
        obtain ⟨s₄, hrel, hi₄, hset⟩ := hi₃.release_spec he
        rw [hrel]
        exact ⟨(hsame₂.trans hsame).trans (hset.sameArrays he), _, _, hi₄, hset.self, rfl⟩
    · intro s₂ ⟨hsame, ls₂, e, hi₂, he, hnull⟩
      refine ⟨⟨_, hi₂.discarded he hnull⟩, fun a' => ?_⟩
      dsimp only
      by_cases haa : a' = s.nextArr
      · rw [haa, Function.update_self, hnew]
      · rw [Function.update_of_ne haa, hsame a', harr₁, Function.update_of_ne haa]
    · rintro - s₂ ⟨hw, hsame⟩
      refine ⟨hw, hnew, hsame.here (by rw [harr₁, Function.update_self]), fun a' hne => ?_⟩
      rw [hsame a', harr₁, Function.update_of_ne hne]

theorem Inv.ofRange_spec (hi : Inv t s none ls) (al : A) (xs : List (Arg α)) :
    Makes t (ofRange t al xs) s := by
  refine hi.build_spec al fun s₁ ls₁ b hi₁ ha _ => ?_
  refine (hi₁.fillLoop_spec xs ha (by dsimp only; omega)).mono ?_ ?_
  · rintro - s₂ ⟨os, -, hi₂, hset⟩
    exact ⟨⟨_, hi₂⟩, hset.sameArrays ha⟩
  · rintro s₂ ⟨os, -, hi₂, hset⟩
    exact ⟨⟨_, hi₂⟩, hset.sameArrays ha⟩

theorem Inv.copyWith_spec (hi : Inv t s none ls) (hb : s.arrs b = some o) (al : A) :
    Makes t (copyWith t b al) s := by
  rw [Makes, copyWith, bind_ok (arr_apply hb)]
  exact hi.ofRange_spec al _

theorem Inv.copy_spec (hi : Inv t s none ls) (hb : s.arrs b = some o) : Makes t (copy t b) s := by
  rw [Makes, copy, bind_ok (arr_apply hb)]
  exact hi.copyWith_spec hb _

/-- Two arrays take each other's buffers. -/
theorem Inv.exchanged (hi : Inv t s none ls) (ha : s.arrs a = some d) (hb : s.arrs b = some o)
    {e f : Dynarray A} (he : Like t e o) (hf : Like t f d) :
    Inv t { s with arrs := Function.update (Function.update s.arrs a (some e)) b (some f) } none
        (Function.update (Function.update ls (some a) (ls (some b))) (some b) (ls (some a))) ∧
      SameArrays s { s with
        arrs := Function.update (Function.update s.arrs a (some e)) b (some f) } := by
  have hfresh : ∀ a', s.nextArr ≤ a' →
      Function.update (Function.update s.arrs a (some e)) b (some f) a' = none := by
    intro a' ha'
    have hla := hi.arr_lt ha
    have hlb := hi.arr_lt hb
    rw [Function.update_of_ne (by omega), Function.update_of_ne (by omega)]
    exact hi.fresh a' ha'
  have hfam :
      fam { s with arrs := Function.update (Function.update s.arrs a (some e)) b (some f) } none =
      Function.update (Function.update (fam s none) (some a) (some e)) (some b) (some f) := by
    rw [← fam_arr s.heap s.nextArr]
    exact fam_arr (s := { s with arrs := Function.update s.arrs a (some e) }) _ _ _ _
  have hown := hi.owns.exchange (k := some a) ha (show fam s none (some b) = some o from hb) he hf
  rw [← hfam] at hown
  refine ⟨⟨hi.ledger, hown, hfresh⟩, fun a' => ?_⟩
  · dsimp only
    by_cases hab : a' = b
    · rw [hab, Function.update_self, hb]; rfl
    · rw [Function.update_of_ne hab]
      by_cases haa : a' = a
      · rw [haa, Function.update_self, ha]; rfl
      · rw [Function.update_of_ne haa]

/-- The buffer of an array goes to a new one whose allocator compares equal. -/
theorem Inv.handOver (hi : Inv t s none ls) (hb : s.arrs b = some o) {al : A}
    (hal : t.equal al o.alloc = true) :
    Makes t (do
      let a ← create ⟨al, o.data, o.size, o.capacity⟩
      setArr b { o with data := none, size := 0, capacity := 0 }
      pure a) s := by
  have hne : b ≠ s.nextArr := Nat.ne_of_lt (hi.arr_lt hb)
  have hex := (hi.created o.alloc).exchanged (Function.update_self ..)
    (show Function.update s.arrs s.nextArr _ b = some o by rw [Function.update_of_ne hne]; exact hb)
    (e := ⟨al, o.data, o.size, o.capacity⟩) (f := { o with data := none, size := 0, capacity := 0 })
    ⟨rfl, rfl, rfl, hal⟩ ⟨rfl, rfl, rfl, t.equal_refl _⟩
  dsimp only at hex
  rw [Function.update_idem] at hex
  have hhere : Function.update s.arrs s.nextArr (some ⟨o.alloc, none, 0, 0⟩) s.nextArr = some _ :=
    Function.update_self ..
  refine ⟨⟨_, hex.1⟩, hi.fresh _ (Nat.le_refl _), hex.2.here hhere, fun a' ha' => ?_⟩
  exact (hex.2 a').trans (congrArg Option.isSome (Function.update_of_ne ha' ..))

theorem Inv.move_spec (hi : Inv t s none ls) (hb : s.arrs b = some o) : Makes t (move b) s := by
  rw [Makes, move, bind_ok (arr_apply hb)]
  exact hi.handOver hb (t.equal_refl _)

theorem Inv.moveWith_spec (hi : Inv t s none ls) (hb : s.arrs b = some o) (al : A) :
    Makes t (moveWith t b al) s := by
  unfold moveWith
  by_cases hae : t.alwaysEqual = true
  · rw [if_pos hae]
    exact hi.move_spec hb
  · rw [if_neg hae, Makes, bind_ok (arr_apply hb)]
    by_cases heq : t.equal al o.alloc = true
    · rw [if_pos heq]
      exact hi.handOver hb heq
    · rw [if_neg heq]
      refine hi.build_spec al fun s₁ ls₁ b₁ hi₁ ha hold => ?_
      have hne : b ≠ s.nextArr := Nat.ne_of_lt (hi.arr_lt hb)
      have hsz := (hi.shape hb).size
      refine (hi₁.moveLoop_spec o.size ha (k := some b) ((hold b hne).1.trans hb)
        (fun h => hne (Option.some.inj h)) (by dsimp only; omega) (by
          rw [(hold b hne).2]; dsimp only; omega)).mono ?_ ?_
      · rintro - s₂ ⟨ls₂, hi₂, hset⟩
        exact ⟨⟨ls₂, hi₂⟩, hset.sameArrays ha⟩
      · intro s₂ ⟨ls₂, m, hi₂, hset⟩
        exact ⟨⟨ls₂, hi₂⟩, hset.sameArrays ha⟩

/-! ## Assignment and swap -/

theorem Inv.swapAll_spec (hi : Inv t s none ls) (ha : s.arrs a = some d) (hb : s.arrs b = some o) :
    Keeps t (swapAll a b) s := by
  rw [Keeps, swapAll, bind_ok (arr_apply ha), bind_ok (arr_apply hb)]
  have hex := hi.exchanged ha hb (Like.refl o) (Like.refl d)
  exact ⟨⟨_, hex.1⟩, hex.2⟩

theorem Inv.swapData_spec (hi : Inv t s none ls) (ha : s.arrs a = some d) (hb : s.arrs b = some o)
    (hae : t.alwaysEqual = true) : Keeps t (swapData a b) s := by
  rw [Keeps, swapData, bind_ok (arr_apply ha), bind_ok (arr_apply hb)]
  have hex := hi.exchanged ha hb (e := { o with alloc := d.alloc })
    (f := { d with alloc := o.alloc })
    ⟨rfl, rfl, rfl, t.equal_always hae _ _⟩ ⟨rfl, rfl, rfl, t.equal_always hae _ _⟩
  exact ⟨⟨_, hex.1⟩, hex.2⟩

/-- Move assignment and swap, at every depth of their calls. -/
theorem moveAssign_swap_spec (fuel : Nat) :
    (∀ (s : State α A) a b d o, WellFormed t s → s.arrs a = some d → s.arrs b = some o →
      Keeps t (moveAssign t fuel a b) s) ∧
    (∀ (s : State α A) a b d o, WellFormed t s → s.arrs a = some d → s.arrs b = some o →
      Keeps t (swap t fuel a b) s) := by
  induction fuel with
  | zero => exact ⟨fun _ _ _ _ _ _ _ _ => trivial, fun _ _ _ _ _ _ _ _ => trivial⟩
  | succ fuel ih =>
    obtain ⟨ihMove, ihSwap⟩ := ih
    constructor
    · intro s a b d o ⟨ls, hi⟩ ha hb
      rw [Keeps, moveAssign, bind_ok (arr_apply ha), bind_ok (arr_apply hb)]
      split
      · exact hi.swapAll_spec ha hb
      · refine temp_spec (hi.moveWith_spec hb d.alloc) fun tmp s₁ hw hadd => ?_
        obtain ⟨e, he⟩ := hadd.here
        obtain ⟨f, hf⟩ := hadd.old ha
        exact ihSwap s₁ tmp a e f hw he hf
    · intro s a b d o ⟨ls, hi⟩ ha hb
      rw [Keeps, swap]
      by_cases hps : t.propagateOnSwap = true
      · rw [if_pos hps]
        exact hi.swapAll_spec ha hb
      · rw [if_neg hps]
        by_cases hae : t.alwaysEqual = true
        · rw [if_pos hae]
          exact hi.swapData_spec ha hb hae
        · rw [if_neg hae]
          refine temp_spec (hi.copy_spec ha) fun tmp s₁ hw hadd => ?_
          obtain ⟨e, he⟩ := hadd.here
          obtain ⟨d₁, ha₁⟩ := hadd.old ha
          obtain ⟨o₁, hb₁⟩ := hadd.old hb
          refine Post.bind (ihMove s₁ a b d₁ o₁ hw ha₁ hb₁) ?_
          rintro - s₂ ⟨hw₂, hsame⟩
          obtain ⟨e₂, he₂⟩ := hsame.here he
          obtain ⟨o₂, hb₂⟩ := hsame.here hb₁
          exact (ihMove s₂ b tmp o₂ e₂ hw₂ hb₂ he₂).mono (fun _ s₃ h => ⟨h.1, hsame.trans h.2⟩)
            (fun s₃ h => ⟨h.1, hsame.trans h.2⟩)

theorem swapTemp_spec (ha : s.arrs a = some d) {make : Action α A Nat}
    (hmake : Makes t make s) (fuel : Nat) : Keeps t (do
      let tmp ← make
      Prog.onThrow (swap t fuel tmp a) (destruct t tmp)
      destruct t tmp) s := by
  refine temp_spec hmake fun tmp s₁ hw hadd => ?_
  obtain ⟨e, he⟩ := hadd.here
  obtain ⟨d₁, ha₁⟩ := hadd.old ha
  exact (moveAssign_swap_spec fuel).2 s₁ tmp a e d₁ hw he ha₁

/-- The loop of `assign` writes elements that are there. -/
theorem Inv.assignLoop_spec (xs : List (Arg α)) {s : State α A} {ls : Key → List (Obj α)} {i : Nat}
    (hi : Inv t s none ls) (ha : s.arrs a = some d) (hlen : i + xs.length ≤ d.size) :
    ∃ s', assignLoop t a i xs s = .ok () s' ∧ WellFormed t s' ∧ s'.arrs = s.arrs := by
  induction xs generalizing s ls i with
  | nil => exact ⟨s, rfl, ⟨ls, hi⟩, rfl⟩
  | cons v xs ih =>
    rw [List.length_cons] at hlen
    have hsz := (hi.shape ha).size
    obtain ⟨h', hset, -, hi'⟩ := hi.setVal (k := some a) ha
      (List.getElem?_eq_getElem (show i < (ls (some a)).length by omega)) (read t s v)
    have hrun : assignAt d.data i (read t s v) s = .ok () { s with heap := h' } := by
      simp only [assignAt, onHeap, hset]
    obtain ⟨s', hloop, hw, harrs⟩ := ih hi' ha (show i + 1 + xs.length ≤ d.size by omega)
    refine ⟨s', ?_, hw, harrs⟩
    rw [assignLoop, bind_ok (arr_apply ha), bind_ok (assert_true (show i < d.size by omega) s)]
    rw [bind_ok (show (Prog.get : Action α A (State α A)) s = .ok s s from rfl), bind_ok hrun]
    exact hloop

theorem Inv.assignWith_spec (hi : Inv t s none ls) (ha : s.arrs a = some d) (fuel : Nat)
    (xs : List (Arg α)) (al : A) : Keeps t (assignWith t fuel a xs al) s := by
  unfold assignWith
  by_cases hae : t.alwaysEqual = true
  · rw [if_pos hae, Keeps, bind_ok (arr_apply ha)]
    by_cases hc : (decide (xs.length > d.size) || !t.nothrowCopyAssign) = true
    · rw [if_pos hc]
      exact swapTemp_spec ha (hi.ofRange_spec _ xs) fuel
    · rw [if_neg hc]
      have hle : xs.length ≤ d.size := by
        simp only [Bool.or_eq_true, decide_eq_true_eq, not_or] at hc
        omega
      obtain ⟨s₁, hkeep, hi₁, hset₁⟩ := hi.keepFirstN_spec ha hle
      obtain ⟨s₂, hloop, hw, harrs⟩ :=
        hi₁.assignLoop_spec xs hset₁.self (show 0 + xs.length ≤ xs.length by omega)
      rw [bind_ok hkeep, hloop]
      refine ⟨hw, fun a' => ?_⟩
      rw [harrs]
      exact hset₁.sameArrays ha a'
  · rw [if_neg hae]
    exact swapTemp_spec ha (hi.ofRange_spec al xs) fuel

theorem Inv.assign_spec (hi : Inv t s none ls) (ha : s.arrs a = some d) (fuel : Nat)
    (xs : List (Arg α)) :
    Keeps t (assign t fuel a xs) s := by
  rw [Keeps, assign, bind_ok (arr_apply ha)]
  exact hi.assignWith_spec ha fuel xs _

theorem Inv.copyAssign_spec (hi : Inv t s none ls) (ha : s.arrs a = some d) (hb : s.arrs b = some o)
    (fuel : Nat) :
    Keeps t (copyAssign t fuel a b) s := by
  rw [Keeps, copyAssign, bind_ok (arr_apply ha), bind_ok (arr_apply hb)]
  exact hi.assignWith_spec ha fuel _ _

theorem Inv.shrinkToFit_spec (hi : Inv t s none ls) (ha : s.arrs a = some d) (fuel : Nat) :
    Keeps t (shrinkToFit t fuel a) s := by
  rw [Keeps, shrinkToFit, bind_ok (arr_apply ha)]
  exact swapTemp_spec ha (hi.copyWith_spec ha _) fuel

end Gpcl.Dynarray
