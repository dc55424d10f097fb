import Gpcl.Dynarray.Lifetime
import Gpcl.Dynarray.Values

/-! # Arrays as lists

A program over lists: every array is a list, and an operation changes one list or two. With an
allocator whose instances are always equal the arrays follow this program as long as nothing
throws. -/
namespace Gpcl.Dynarray
open Lib.Memory Lib.Objects Lib.Objects.Heap Lib.Runs
open Lib.Objects.Prog hiding pure bind

variable {α A : Type} {t : Traits α A} {s s' : State α A} {ls : Key → List (Obj α)} {a b : Nat}
    {d o : Dynarray A}

/-- The sequence of each array there is. -/
abbrev Lists (α : Type) := Nat → Option (List α)

/-- An argument of a program: a value, or element `i` of the array `b`. -/
inductive Src (α : Type)
  | val (v : α)
  | elem (b i : Nat)

namespace Src

def arg (s : State α A) : Src α → Arg α
  | val v => .val v
  | elem b i => .ref ((s.arrs b).bind Dynarray.data) i

def value (t : Traits α A) (c : Lists α) : Src α → α
  | val v => v
  | elem b i => ((c b).bind fun l => l[i]?).getD t.junk

/-- The element is there. -/
def There (s : State α A) : Src α → Prop
  | val _ => True
  | elem b i => ∃ o, s.arrs b = some o ∧ i < o.size

/-- Not an element of the array `a`. -/
def Foreign (a : Nat) : Src α → Prop
  | val _ => True
  | elem b _ => b ≠ a

end Src

inductive ListOp (α A : Type)
  | ofRange (xs : List (Src α)) (al : A)
  | copy (b : Nat)
  | move (b : Nat)
  | destruct (a : Nat)
  | pushBack (a : Nat) (x : Src α)
  | emplaceBack (a : Nat) (x : Src α)
  | resize (a n : Nat)
  | resizeVal (a n : Nat) (x : Src α)
  | reserve (a n : Nat)
  | clear (a : Nat)
  | assign (fuel a : Nat) (xs : List (Src α))
  | copyAssign (fuel a b : Nat)
  | moveAssign (fuel a b : Nat)
  | swap (fuel a b : Nat)

namespace ListOp

/-- The call in a state. Move assignment and swap need no recursion here, but one unit of fuel. -/
def call (s : State α A) : ListOp α A → Op α A
  | ofRange xs al => .ofRange (xs.map (Src.arg s)) al
  | copy b => .copy b
  | move b => .move b
  | destruct a => .destruct a
  | pushBack a x => .call a (.pushBack (x.arg s))
  | emplaceBack a x => .call a (.emplaceBack (x.arg s))
  | resize a n => .call a (.resize n)
  | resizeVal a n x => .call a (.resizeVal n (x.arg s))
  | reserve a n => .call a (.reserve n)
  | clear a => .clear a
  | assign fuel a xs => .assign (fuel + 1) a (xs.map (Src.arg s))
  | copyAssign fuel a b => .copyAssign (fuel + 1) a b
  | moveAssign fuel a b => .moveAssign (fuel + 1) a b
  | swap fuel a b => .swap (fuel + 1) a b

/-- The arrays are there, and arguments are not elements of the array that is changed. -/
def Legal (s : State α A) : ListOp α A → Prop
  | ofRange xs _ => ∀ x ∈ xs, x.There s
  | copy b | move b => ∃ o, s.arrs b = some o
  | pushBack a x | emplaceBack a x | resizeVal a _ x =>
    (∃ d, s.arrs a = some d) ∧ x.There s ∧ x.Foreign a
  | destruct a | resize a _ | reserve a _ | clear a => ∃ d, s.arrs a = some d
  | assign _ a xs => (∃ d, s.arrs a = some d) ∧ ∀ x ∈ xs, x.There s ∧ x.Foreign a
  | copyAssign _ a b | moveAssign _ a b | swap _ a b =>
    (∃ d, s.arrs a = some d) ∧ ∃ o, s.arrs b = some o

/-- The same operation on lists. A constructor makes the array `new`. -/
def apply (t : Traits α A) (new : Nat) (c : Lists α) : ListOp α A → Lists α
  | ofRange xs _ => Function.update c new (some (xs.map (Src.value t c)))
  | copy b => Function.update c new (c b)
  | move b => Function.update (Function.update c new (c b)) b (some [])
  | destruct a => Function.update c a none
  | pushBack a x | emplaceBack a x => Function.update c a ((c a).map fun l => l ++ [x.value t c])
  | resize a n =>
    Function.update c a ((c a).map fun l => l.take n ++ List.replicate (n - l.length) t.default)
  | resizeVal a n x =>
    Function.update c a ((c a).map fun l => l.take n ++ List.replicate (n - l.length) (x.value t c))
  | reserve _ _ => c
  | clear a => Function.update c a (some [])
  | assign _ a xs => Function.update c a (some (xs.map (Src.value t c)))
  | copyAssign _ a b => Function.update c a (c b)
  | moveAssign _ a b | swap _ a b => Function.update (Function.update c a (c b)) b (c a)

end ListOp

/-- An operation that returns, with the array it makes if it is a constructor. -/
def ListStep (t : Traits α A) (s : State α A) (op : ListOp α A × Nat) (s' : State α A) : Prop :=
  op.1.Legal s ∧ op.2 = s.nextArr ∧ (op.1.call s).run t s = .ok () s'

/-- The lists after a program. -/
def listsOf (t : Traits α A) (ops : List (ListOp α A × Nat)) : Lists α :=
  ops.foldl (fun c op => op.1.apply t op.2 c) fun _ => none

/-! ## Operations -/

theorem Src.reads (hi : Inv t s none ls) {x : Src α} (hx : x.There s) (hf : x.Foreign a) :
    ReadsAs s none ls a (x.arg s) (x.value t (contents t s)) := by
  cases x with
  | val v => exact .inl rfl
  | elem b i =>
    obtain ⟨o, hb, hlt⟩ := hx
    rw [(hi.shape hb).size] at hlt
    refine .inr ⟨some b, o, i, (ls (some b))[i], fun h => hf (Option.some.inj h), hb, ?_,
      List.getElem?_eq_getElem hlt, ?_⟩
    · simp [Src.arg, hb]
    · simp [Src.value, hi.contents_eq, hb, hlt]

theorem Src.reads_all (hi : Inv t s none ls) {xs : List (Src α)}
    (hx : ∀ x ∈ xs, x.There s ∧ x.Foreign a) :
    List.Forall₂ (ReadsAs s none ls a) (xs.map (Src.arg s))
      (xs.map (Src.value t (contents t s))) := by
  induction xs with
  | nil => exact .nil
  | cons x xs ih =>
    obtain ⟨hthere, hforeign⟩ := hx x List.mem_cons_self
    exact .cons (Src.reads hi hthere hforeign) (ih fun y hy => hx y (List.mem_cons_of_mem _ hy))

/-- Elements that are there are not of an array still to be made. -/
theorem Src.There.foreign (hi : Inv t s none ls) {x : Src α} (hx : x.There s) :
    x.Foreign s.nextArr := by
  cases x with
  | val v => trivial
  | elem b i =>
    obtain ⟨o, hb, -⟩ := hx
    exact Nat.ne_of_lt (hi.arr_lt hb)

/-- An operation that changes one array. -/
theorem Inv.contents_map (hi : Inv t s none ls) (ha : s.arrs a = some d) {l : List (Obj α)}
    {d' : Dynarray A} (hi' : Inv t s' none (Function.update ls (some a) l)) (hset : Sets s s' a d')
    (f : List α → List α) (hl : l.map Obj.val = f ((ls (some a)).map Obj.val)) :
    contents t s' = Function.update (contents t s) a ((contents t s a).map f) := by
  have hold : contents t s a = some ((ls (some a)).map Obj.val) := by rw [hi.contents_eq, ha]; rfl
  rw [hi.contents_sets hi' hset.arrs, hl, hold]
  rfl

/-- The move constructor. -/
theorem Inv.move_values (hi : Inv t s none ls) (hb : s.arrs b = some o)
    (hrun : move b s = .ok a s') :
    a = s.nextArr ∧ (∃ ls', Inv t s' none ls') ∧
      contents t s' = Function.update (Function.update (contents t s) a (contents t s b)) b
        (some []) := by
  have hne : b ≠ s.nextArr := Nat.ne_of_lt (hi.arr_lt hb)
  have hi₁ := hi.created o.alloc
  have hnew := hi.contents_sets hi₁ rfl
  have hb₁ : Function.update s.arrs s.nextArr (some ⟨o.alloc, none, 0, 0⟩) b = some o := by
    rw [Function.update_of_ne hne]
    exact hb
  have hex := (hi₁.exchanged (Function.update_self ..) hb₁ (e := o)
    (f := { o with data := none, size := 0, capacity := 0 })
    (Like.refl o) ⟨rfl, rfl, rfl, t.equal_refl _⟩).1
  have hcontents := hi₁.contents_exchange (Function.update_self ..) hb₁ hex rfl
  dsimp only at hex hcontents
  rw [Function.update_idem] at hex hcontents
  rw [Dynarray.move, bind_ok (arr_apply hb)] at hrun
  cases hrun
  refine ⟨rfl, ⟨_, hex⟩, ?_⟩
  rw [hnew, Function.update_idem, Function.update_of_ne hne, Function.update_self] at hcontents
  exact hcontents

theorem ListOp.call_legal {op : ListOp α A} (hl : op.Legal s) : (op.call s).Legal s := by
  cases op with
  | pushBack a x => exact ⟨hl.1, fun _ => nofun⟩
  | emplaceBack a x => exact ⟨hl.1, fun _ => nofun⟩
  | resize a n => exact ⟨hl, fun _ => nofun⟩
  | resizeVal a n x => exact ⟨hl.1, fun _ => nofun⟩
  | reserve a n => exact ⟨hl, fun _ => nofun⟩
  | ofRange xs al => trivial
  | assign fuel a xs => exact hl.1
  | _ => exact hl

theorem bind_unit_eq_ok {p : Action α A Nat} (h : (do let _ ← p; pure ()) s = .ok () s') :
    ∃ a, p s = .ok a s' := by
  obtain ⟨a, s₁, hp, hpure⟩ := bind_eq_ok h
  cases hpure
  exact ⟨a, hp⟩

/-- What an operation does to the lists. -/
theorem Inv.step_contents (hae : t.alwaysEqual = true) (hi : Inv t s none ls) {op : ListOp α A}
    (hl : op.Legal s) (hrun : (op.call s).run t s = .ok () s') :
    (∃ ls', Inv t s' none ls') ∧ contents t s' = op.apply t s.nextArr (contents t s) := by
  cases op with
  | ofRange xs al =>
    obtain ⟨a, hrun⟩ := bind_unit_eq_ok hrun
    obtain ⟨hbuilt, hsame⟩ :=
      hi.ofRange_builds (Src.reads_all hi fun x hx => ⟨hl x hx, (hl x hx).foreign hi⟩) hrun
    exact ⟨hbuilt.order, hbuilt.contents_eq hsame⟩
  | copy b =>
    obtain ⟨o, hb⟩ := hl
    obtain ⟨a, hrun⟩ := bind_unit_eq_ok hrun
    obtain ⟨hbuilt, hsame⟩ := hi.copy_builds hb hrun
    exact ⟨hbuilt.order, hbuilt.contents_eq hsame⟩
  | move b =>
    obtain ⟨o, hb⟩ := hl
    obtain ⟨a, hrun⟩ := bind_unit_eq_ok hrun
    obtain ⟨rfl, hi', hcontents⟩ := hi.move_values hb hrun
    exact ⟨hi', hcontents⟩
  | destruct a =>
    obtain ⟨d, ha⟩ := hl
    obtain ⟨s₁, hdestruct, hi', harrs, -⟩ := hi.destruct_spec ha
    have hrun' : Dynarray.destruct t a s = .ok () s' := hrun
    rw [hdestruct] at hrun'
    cases hrun'
    exact ⟨⟨_, hi'⟩, hi.contents_discard hi' harrs⟩
  | pushBack a x =>
    obtain ⟨⟨d, ha⟩, hthere, hforeign⟩ := hl
    obtain ⟨l, d', hl', hi', hset⟩ := hi.emplaceBack_values ha (Src.reads hi hthere hforeign) hrun
    exact ⟨⟨_, hi'⟩, hi.contents_map ha hi' hset (fun l => l ++ [x.value t (contents t s)]) hl'⟩
  | emplaceBack a x =>
    obtain ⟨⟨d, ha⟩, hthere, hforeign⟩ := hl
    obtain ⟨l, d', hl', hi', hset⟩ := hi.emplaceBack_values ha (Src.reads hi hthere hforeign) hrun
    exact ⟨⟨_, hi'⟩, hi.contents_map ha hi' hset (fun l => l ++ [x.value t (contents t s)]) hl'⟩
  | resize a n =>
    obtain ⟨d, ha⟩ := hl
    obtain ⟨l, d', hl', hi', hset⟩ := hi.resizeVal_values ha (.inl rfl) hrun
    refine ⟨⟨_, hi'⟩,
      hi.contents_map ha hi' hset (fun l => l.take n ++ List.replicate (n - l.length) t.default) ?_⟩
    rw [hl', List.length_map]
  | resizeVal a n x =>
    obtain ⟨⟨d, ha⟩, hthere, hforeign⟩ := hl
    obtain ⟨l, d', hl', hi', hset⟩ := hi.resizeVal_values ha (Src.reads hi hthere hforeign) hrun
    refine ⟨⟨_, hi'⟩, hi.contents_map ha hi' hset
      (fun l => l.take n ++ List.replicate (n - l.length) (x.value t (contents t s))) ?_⟩
    rw [hl', List.length_map]
  | reserve a n =>
    obtain ⟨d, ha⟩ := hl
    obtain ⟨l, d', hl', hi', hset, -⟩ := hi.reserve_values ha hrun
    refine ⟨⟨_, hi'⟩, ?_⟩
    have hcontents := hi.contents_map ha hi' hset id hl'
    rwa [Option.map_id_fun, id, Function.update_eq_self] at hcontents
  | clear a =>
    obtain ⟨d, ha⟩ := hl
    obtain ⟨s₁, hclear, hi', hset⟩ := hi.keepFirstN_spec ha (Nat.zero_le d.size)
    have hrun' : keepFirstN a 0 s = .ok () s' := hrun
    rw [hclear] at hrun'
    cases hrun'
    exact ⟨⟨_, hi'⟩, hi.contents_sets hi' hset.arrs⟩
  | assign fuel a xs =>
    obtain ⟨⟨d, ha⟩, hxs⟩ := hl
    have hrun' : Dynarray.assign t (fuel + 1) a (xs.map (Src.arg s)) s = .ok () s' := hrun
    rw [Dynarray.assign, bind_ok (arr_apply ha)] at hrun'
    exact hi.assignWith_values ha (fun _ => Src.reads_all hi hxs)
      (Src.reads_all hi fun x hx => ⟨(hxs x hx).1, (hxs x hx).1.foreign hi⟩) hrun'
  | copyAssign fuel a b =>
    obtain ⟨⟨d, ha⟩, o, hb⟩ := hl
    exact hi.copyAssign_values ha hb hrun
  | moveAssign fuel a b =>
    obtain ⟨⟨d, ha⟩, o, hb⟩ := hl
    have hrun' : Dynarray.moveAssign t (fuel + 1) a b s = .ok () s' := hrun
    rw [moveAssign_exchanges fuel ha hb (by simp [exchanges, hae])] at hrun'
    cases hrun'
    have htrade := hi.exchange_trades ha hb (Like.refl o) (Like.refl d)
    exact ⟨htrade.order, htrade.contents_eq⟩
  | swap fuel a b =>
    obtain ⟨⟨d, ha⟩, o, hb⟩ := hl
    have htrade := (moveAssign_swap_values (fuel + 1)).2 s s' a b d o ⟨ls, hi⟩ ha hb hrun
    exact ⟨htrade.order, htrade.contents_eq⟩

/-! ## Every call returns or throws -/

theorem settles_arr (a : Nat) : Settles (arr a : Action α A (Dynarray A)) := by
  refine ⟨fun s h => ?_⟩
  unfold arr at h
  split at h
  · cases h
  · cases h

theorem settles_setArr (a : Nat) (d : Dynarray A) : Settles (setArr a d : Action α A Unit) :=
  ⟨nofun⟩

theorem settles_create (d : Dynarray A) : Settles (create d : Action α A Nat) := ⟨nofun⟩

theorem settles_discard (a : Nat) : Settles (discard a : Action α A Unit) := ⟨nofun⟩

theorem settles_onHeap (f : Heap α A → Option (Heap α A)) : Settles (onHeap f) := by
  refine ⟨fun s h => ?_⟩
  unfold onHeap at h
  split at h
  · cases h
  · cases h

theorem settles_allocate (al : A) (n : Nat) : Settles (allocate al n : Action α A Nat) := by
  refine ⟨fun s h => ?_⟩
  unfold allocate at h
  split at h
  · cases h
  · cases h

theorem settles_construct (p : Option Nat) (i : Nat) (x : Arg α) :
    Settles (construct t p i x : Action α A Unit) := by
  refine ⟨fun s h => ?_⟩
  unfold construct at h
  dsimp only at h
  split at h
  · cases h
  · split at h
    · cases h
    · cases h

theorem settles_deallocate (al : A) (p : Option Nat) (n : Nat) : Settles (deallocate t al p n) := by
  cases p with
  | none => exact Settles.pure ()
  | some b => exact settles_onHeap fun h => h.deallocate (t.equal al) b n

theorem settles_constructMove (p : Option Nat) (i : Nat) (q : Option Nat) (j : Nat) :
    Settles (constructMove t p i q j) := by
  refine ⟨fun s => ?_⟩
  have hmove :
      Settles (if t.nothrowMove
        then onHeap fun h => p.bind fun b => h.construct b i (read t s (.ref q j))
      else construct t p i (.val (read t s (.ref q j))) : Action α A Unit) := by
    split
    · exact settles_onHeap _
    · exact settles_construct ..
  exact (hmove.bind fun _ => settles_onHeap _).returns s

theorem settles_constructMoveIfNoexcept (p : Option Nat) (i : Nat) (q : Option Nat) (j : Nat) :
    Settles (constructMoveIfNoexcept t p i q j) := by
  unfold constructMoveIfNoexcept
  split
  · exact settles_constructMove ..
  · exact settles_construct ..

theorem settles_destroyLoop (a n : Nat) : Settles (destroyLoop a n : Action α A Unit) := by
  induction n with
  | zero => exact Settles.pure ()
  | succ n ih =>
    exact (settles_arr a).bind fun d => (settles_onHeap _).bind fun _ => (settles_setArr ..).bind
      fun _ => ih

theorem settles_keepFirstN (a n : Nat) : Settles (keepFirstN a n : Action α A Unit) :=
  (settles_arr a).bind fun _ => (Settles.assert _).bind fun _ => settles_destroyLoop ..

theorem settles_release (a : Nat) : Settles (release t a) :=
  (settles_keepFirstN a 0).bind fun _ => (settles_arr a).bind fun _ => (settles_deallocate ..).bind
    fun _ => settles_setArr ..

theorem settles_destruct (a : Nat) : Settles (destruct t a) :=
  (settles_release a).bind fun _ => settles_discard a

theorem settles_fillLoop (a : Nat) (xs : List (Arg α)) : Settles (fillLoop t a xs) := by
  induction xs with
  | nil => exact Settles.pure ()
  | cons x xs ih =>
    exact (settles_arr a).bind fun d => (settles_construct ..).bind fun _ =>
      (settles_setArr ..).bind fun _ => ih

theorem settles_ofRange (al : A) (xs : List (Arg α)) : Settles (ofRange t al xs) := by
  refine (settles_create _).bind fun a => Settles.bind ?_ fun _ => Settles.pure a
  refine Settles.onThrow ?_ (settles_discard a)
  refine (settles_allocate ..).bind fun p => (settles_setArr ..).bind fun _ => ?_
  exact (settles_fillLoop a xs).onThrow (settles_release a)

theorem settles_copy (b : Nat) : Settles (copy t b) :=
  (settles_arr b).bind fun _ => (settles_arr b).bind fun _ => settles_ofRange ..

theorem settles_move (b : Nat) : Settles (move b : Action α A Nat) :=
  (settles_arr b).bind fun _ => (settles_create _).bind fun a => (settles_setArr ..).bind
    fun _ => Settles.pure a

theorem settles_relocateLoop (a : Nat) (q : Option Nat) (n : Nat) :
    Settles (relocateLoop t a q n) := by
  induction n with
  | zero => exact Settles.pure ()
  | succ n ih =>
    exact (settles_arr a).bind fun d => (settles_constructMoveIfNoexcept ..).bind fun _ =>
      (settles_setArr ..).bind fun _ => ih

theorem settles_destroyBackup (q : Option Nat) (n : Nat) :
    Settles (destroyBackup q n : Action α A Unit) := by
  induction n with
  | zero => exact Settles.pure ()
  | succ n ih => exact (settles_onHeap _).bind fun _ => ih

theorem settles_reserve (a n : Nat) : Settles (reserve t a n) := by
  refine (settles_arr a).bind fun backup => ?_
  split
  · exact Settles.pure ()
  · refine (settles_setArr ..).bind fun _ => (settles_allocate ..).bind fun p =>
      (settles_setArr ..).bind fun _ => ?_
    refine Settles.bind ?_ fun _ => (settles_arr a).bind fun _ => Settles.assert _
    refine Settles.onThrow ?_ ?_
    · exact (settles_relocateLoop ..).bind fun _ => (settles_destroyBackup ..).bind fun _ =>
        settles_deallocate ..
    · exact (settles_release a).bind fun _ => (settles_arr a).bind fun _ => settles_setArr ..

theorem settles_grow (a n : Nat) : Settles (grow t a n) := by
  have hrest :
      Settles (do let d ← arr a; Prog.assert (decide (n ≤ d.capacity)) : Action α A Unit) :=
    (settles_arr a).bind fun _ => Settles.assert _
  refine (settles_arr a).bind fun d => ?_
  dsimp only
  split
  · exact (settles_reserve a n).bind fun _ => hrest
  · split
    · exact (settles_reserve ..).bind fun _ => hrest
    · exact hrest

theorem settles_resizeVal (a n : Nat) (x : Arg α) : Settles (resizeVal t a n x) := by
  refine (settles_reserve a n).bind fun _ => (settles_arr a).bind fun d => ?_
  split
  · exact settles_keepFirstN a n
  · exact (settles_fillLoop ..).onThrow (settles_keepFirstN ..)

theorem settles_emplaceBack (a : Nat) (x : Arg α) : Settles (emplaceBack t a x) :=
  (settles_arr a).bind fun _ => (settles_grow ..).bind fun _ => (settles_arr a).bind fun _ =>
    (settles_construct ..).bind fun _ => settles_setArr ..

theorem settles_assignLoop (a i : Nat) (xs : List (Arg α)) : Settles (assignLoop t a i xs) := by
  induction xs generalizing i with
  | nil => exact Settles.pure ()
  | cons x xs ih =>
    refine (settles_arr a).bind fun d => (Settles.assert _).bind fun _ => ?_
    exact Settles.bind ⟨nofun⟩ fun s => (settles_onHeap _).bind fun _ => ih (i + 1)

theorem settles_swapAll (a b : Nat) : Settles (swapAll a b : Action α A Unit) :=
  (settles_arr a).bind fun _ => (settles_arr b).bind fun _ => (settles_setArr ..).bind
    fun _ => settles_setArr ..

theorem settles_swapData (a b : Nat) : Settles (swapData a b : Action α A Unit) :=
  (settles_arr a).bind fun _ => (settles_arr b).bind fun _ => (settles_setArr ..).bind
    fun _ => settles_setArr ..

section
variable (hae : t.alwaysEqual = true)
include hae

theorem settles_moveAssign (fuel a b : Nat) : Settles (moveAssign t (fuel + 1) a b) := by
  rw [moveAssign]
  refine (settles_arr a).bind fun d => (settles_arr b).bind fun o => ?_
  rw [if_pos (by simp [hae])]
  exact settles_swapAll a b

theorem settles_swap (fuel a b : Nat) : Settles (swap t (fuel + 1) a b) := by
  rw [swap]
  split
  · exact settles_swapAll a b
  · exact settles_swapData a b

theorem settles_assignWith (fuel a : Nat) (xs : List (Arg α)) (al : A) :
    Settles (assignWith t (fuel + 1) a xs al) := by
  rw [assignWith, if_pos hae]
  refine (settles_arr a).bind fun d => ?_
  split
  · refine (settles_ofRange ..).bind fun tmp => Settles.bind ?_ fun _ => settles_destruct tmp
    exact (settles_swap hae fuel tmp a).onThrow (settles_destruct tmp)
  · exact (settles_keepFirstN ..).bind fun _ => settles_assignLoop ..

theorem ListOp.settles (op : ListOp α A) : Settles ((op.call s).run t) := by
  cases op with
  | ofRange xs al => exact (settles_ofRange ..).bind fun _ => Settles.pure ()
  | copy b => exact (settles_copy b).bind fun _ => Settles.pure ()
  | move b => exact (settles_move b).bind fun _ => Settles.pure ()
  | destruct a => exact settles_destruct a
  | pushBack a x => exact settles_emplaceBack ..
  | emplaceBack a x => exact settles_emplaceBack ..
  | resize a n => exact settles_resizeVal ..
  | resizeVal a n x => exact settles_resizeVal ..
  | reserve a n => exact settles_reserve a n
  | clear a => exact settles_keepFirstN a 0
  | assign fuel a xs => exact (settles_arr a).bind fun _ => settles_assignWith hae ..
  | copyAssign fuel a b =>
    exact (settles_arr a).bind fun _ => (settles_arr b).bind fun _ => settles_assignWith hae ..
  | moveAssign fuel a b => exact settles_moveAssign hae fuel a b
  | swap fuel a b => exact settles_swap hae fuel a b

end

/-- A result that is neither a fault nor pending. -/
theorem returns_or_throws {p : Action α A Unit} {Q : Unit → State α A → Prop} {E : State α A → Prop}
    (hp : Settles p)
    (hpost : Post (p s) Q E) : (∃ s', p s = .thrown s') ∨ ∃ s', p s = .ok () s' := by
  cases hres : p s with
  | ok x s' => exact .inr ⟨s', rfl⟩
  | thrown s' => exact .inl ⟨s', rfl⟩
  | fault =>
    rw [hres] at hpost
    exact hpost.elim
  | pending => exact absurd hres (hp.returns s)

theorem ListOp.returns (hae : t.alwaysEqual = true) (hi : Inv t s none ls) {op : ListOp α A}
    (hl : op.Legal s) :
    (∃ s', (op.call s).run t s = .thrown s') ∨ ∃ s', (op.call s).run t s = .ok () s' := by
  refine returns_or_throws (op.settles hae)
    ((op.call s).run_spec ⟨ls, hi⟩ (ListOp.call_legal hl) ?_)
  intro a
  cases op <;> exact nofun

/-! ## Runs -/

/-- The call throws, or keeps every sequence and leaves room for `n` elements. -/
def Enlarges (t : Traits α A) (s : State α A) (a n : Nat) (p : Action α A Unit) : Prop :=
  (∃ s', p s = .thrown s') ∨
    ∃ s' d', p s = .ok () s' ∧ contents t s' = contents t s ∧ s'.arrs a = some d' ∧ n ≤ d'.capacity

theorem Inv.contents_same (hi : Inv t s none ls) (ha : s.arrs a = some d) {l : List (Obj α)}
    {d' : Dynarray A} (hi' : Inv t s' none (Function.update ls (some a) l)) (hset : Sets s s' a d')
    (hl : l.map Obj.val = (ls (some a)).map Obj.val) : contents t s' = contents t s := by
  have hcontents := hi.contents_map ha hi' hset id hl
  rwa [Option.map_id_fun, id, Function.update_eq_self] at hcontents

theorem Inv.reserve_enlarges (hae : t.alwaysEqual = true) (hi : Inv t s none ls)
    (ha : s.arrs a = some d) (n : Nat) :
    Enlarges t s a n (reserve t a n) := by
  have hl : (ListOp.reserve a n : ListOp α A).Legal s := ⟨d, ha⟩
  obtain hthrown | ⟨s', hrun⟩ := ListOp.returns hae hi hl
  · exact .inl hthrown
  · obtain ⟨l, d', hl', hi', hset, -, hcap⟩ := hi.reserve_values ha hrun
    exact .inr ⟨s', d', hrun, hi.contents_same ha hi' hset hl', hset.self, hcap⟩

/-- Before an element is appended the array grows by one element at least. -/
theorem Inv.grow_enlarges (hae : t.alwaysEqual = true) (hi : Inv t s none ls)
    (ha : s.arrs a = some d) :
    Enlarges t s a (d.size + 1) (grow t a (d.size + 1)) := by
  have hs := hi.shape ha
  have hle : d.size ≤ d.capacity := hs.size ▸ hs.le_capacity
  have hgrow : ∀ s', grow t a (d.size + 1) s = .ok () s' →
      Enlarges t s a (d.size + 1) (grow t a (d.size + 1)) := by
    intro s' hrun
    obtain ⟨l, d', hl', hi', hset, -, hcap⟩ := hi.grow_values ha hrun
    exact .inr ⟨s', d', hrun, hi.contents_same ha hi' hset hl', hset.self, hcap⟩
  by_cases hroom : d.size + 1 ≤ d.capacity
  · refine hgrow s ?_
    have hnone : growTo d.capacity (d.size + 1) = 0 := by
      unfold growTo
      rw [if_neg (by omega), if_neg (by omega)]
    rw [grow_eq ha, hnone, bind_ok (reserve_le ha (Nat.zero_le _)), bind_ok (arr_apply ha),
      assert_true hroom]
  · obtain hfull | ⟨-, hgrown⟩ := le_growTo hle hs.capacity_le
    · exact absurd hfull hroom
    obtain ⟨s', hthrown⟩ | ⟨s', d', hrun, -, ha', hcap⟩ :=
      hi.reserve_enlarges hae ha (growTo d.capacity (d.size + 1))
    · refine .inl ⟨s', ?_⟩
      rw [grow_eq ha]
      exact bind_thrown hthrown
    · refine hgrow s' ?_
      rw [grow_eq ha, bind_ok hrun, bind_ok (arr_apply ha'), assert_true (Nat.le_trans hgrown hcap)]

theorem listsOf_snoc (ops : List (ListOp α A × Nat)) (op : ListOp α A × Nat) :
    listsOf t (ops ++ [op]) = op.1.apply t op.2 (listsOf t ops) := by
  simp [listsOf]

/-- The arrays of every run are in order and have the sequences of the lists. -/
theorem ListStep.run (hae : t.alwaysEqual = true) {fail : Nat → Bool}
    {ops : List (ListOp α A × Nat)} (h : Run (ListStep t) (initial fail) ops s) :
    (∃ ls, Inv t s none ls) ∧ contents t s = listsOf t ops := by
  induction h with
  | nil => exact ⟨⟨_, Inv.initial fail⟩, rfl⟩
  | snoc _ hstep ih =>
    obtain ⟨⟨ls, hi⟩, hcontents⟩ := ih
    obtain ⟨hl, hnew, hrun⟩ := hstep
    obtain ⟨hi', hcontents'⟩ := hi.step_contents hae hl hrun
    rw [listsOf_snoc, hnew, ← hcontents]
    exact ⟨hi', hcontents'⟩

/-- With an always equal allocator, in every state that a program without exceptions reaches: the
arrays have the sequences of the lists, no size exceeds its capacity, every further operation
returns or throws, and `reserve` and the growth before an element is appended keep the sequences and
leave the room that was asked for. -/
theorem dynarray_refines_lists (hae : t.alwaysEqual = true) {fail : Nat → Bool}
    {ops : List (ListOp α A × Nat)} (h : Run (ListStep t) (initial fail) ops s) :
    contents t s = listsOf t ops ∧ (∀ a d, s.arrs a = some d → d.size ≤ d.capacity) ∧
      (∀ op : ListOp α A, op.Legal s → (∃ s', (op.call s).run t s = .thrown s') ∨
        ∃ s', (op.call s).run t s = .ok () s') ∧
      ∀ a d, s.arrs a = some d → (∀ n, Enlarges t s a n (reserve t a n)) ∧
      Enlarges t s a (d.size + 1) (grow t a (d.size + 1)) := by
  obtain ⟨⟨ls, hi⟩, hcontents⟩ := ListStep.run hae h
  refine ⟨hcontents, ?_, fun op hl => ListOp.returns hae hi hl, ?_⟩
  · intro a d ha
    exact (hi.shape ha).size ▸ (hi.shape ha).le_capacity
  · intro a d ha
    exact ⟨hi.reserve_enlarges hae ha, hi.grow_enlarges hae ha⟩

/-- An array is made from a range and moved. -/
theorem refines_moved_range : ∃ (ops : List (ListOp Nat Unit × Nat)) (s : State Nat Unit),
    Run (ListStep plain) (initial fun _ => false) ops s ∧ contents plain s 0 = some [] ∧
    contents plain s 1 = some [5, 6] := by
  have hrun :
      Run (ListStep plain) (initial fun _ => false)
        ([(.ofRange [.val 5, .val 6] (), 0)] ++ [(.move 0, 1)]) _ :=
    (Run.single ⟨by simp [ListOp.Legal, Src.There], rfl, rfl⟩).snoc ⟨⟨_, rfl⟩, rfl, rfl⟩
  obtain ⟨hcontents, -⟩ := dynarray_refines_lists rfl hrun
  refine ⟨_, _, hrun, ?_, ?_⟩
  · rw [hcontents]
    rfl
  · rw [hcontents]
    rfl

end Gpcl.Dynarray
