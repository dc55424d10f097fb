import Mathlib.Data.List.Nodup
import Gpcl.Lib.Runs
import Gpcl.Dynarray.Guarantee
import Gpcl.Dynarray.Assign

/-! # Lifetimes over whole runs

A program makes and destroys arrays and calls their operations; only calls that return are
steps. A call that faults (a constructor on a slot that is occupied or outside the buffer,
an object destroyed that is not there, a buffer freed that is not held, an assertion that
fails) ends the run in `none`. Every operation but one keeps the arrays in order;
`pop_back` constructs an object where it should destroy one. -/
namespace Gpcl.Dynarray
open Lib.Memory Lib.Objects Lib.Objects.Heap Lib.Runs
open Lib.Objects.Prog hiding pure bind

variable {α A : Type} {t : Traits α A} {s s' : State α A} {ls : Key → List (Obj α)} {a : Nat}
    {d : Dynarray A}

/-- The operations of a program. Calls between move assignment and swap are nested at most
`fuel` deep. -/
inductive Op (α A : Type)
  | empty (al : A)
  | ofSize (n : Nat) (al : A)
  | ofRange (xs : List (Arg α)) (al : A)
  | copy (b : Nat)
  | copyWith (b : Nat) (al : A)
  | move (b : Nat)
  | moveWith (b : Nat) (al : A)
  | destruct (a : Nat)
  | clear (a : Nat)
  | call (a : Nat) (c : Call α)
  | popBack (a : Nat)
  | assign (fuel a : Nat) (xs : List (Arg α))
  | assignWith (fuel a : Nat) (xs : List (Arg α)) (al : A)
  | copyAssign (fuel a b : Nat)
  | moveAssign (fuel a b : Nat)
  | swap (fuel a b : Nat)
  | shrinkToFit (fuel a : Nat)

namespace Op

def run (t : Traits α A) : Op α A → Action α A Unit
  | empty al => do let _ ← Dynarray.empty al; pure ()
  | ofSize n al => do let _ ← Dynarray.ofSize t al n; pure ()
  | ofRange xs al => do let _ ← Dynarray.ofRange t al xs; pure ()
  | copy b => do let _ ← Dynarray.copy t b; pure ()
  | copyWith b al => do let _ ← Dynarray.copyWith t b al; pure ()
  | move b => do let _ ← Dynarray.move b; pure ()
  | moveWith b al => do let _ ← Dynarray.moveWith t b al; pure ()
  | destruct a => Dynarray.destruct t a
  | clear a => Dynarray.clear a
  | call a c => c.run t a
  | popBack a => Dynarray.popBack t a
  | assign fuel a xs => Dynarray.assign t fuel a xs
  | assignWith fuel a xs al => Dynarray.assignWith t fuel a xs al
  | copyAssign fuel a b => Dynarray.copyAssign t fuel a b
  | moveAssign fuel a b => Dynarray.moveAssign t fuel a b
  | swap fuel a b => Dynarray.swap t fuel a b
  | shrinkToFit fuel a => Dynarray.shrinkToFit t fuel a

/-- The arrays an operation is called on are there; `pop_back` needs an element. A program
leaves `grow` to the other calls: it asserts that the rounded capacity did not wrap. -/
def Legal (s : State α A) : Op α A → Prop
  | empty _ | ofSize _ _ | ofRange _ _ => True
  | copy b | copyWith b _ | move b | moveWith b _ => ∃ o, s.arrs b = some o
  | destruct a | clear a | assign _ a _ | assignWith _ a _ _ | shrinkToFit _ a =>
    ∃ d, s.arrs a = some d
  | call a c => (∃ d, s.arrs a = some d) ∧ ∀ n, c ≠ .grow n
  | popBack a => ∃ d, s.arrs a = some d ∧ 0 < d.size
  | copyAssign _ a b | moveAssign _ a b | swap _ a b =>
    (∃ d, s.arrs a = some d) ∧ ∃ o, s.arrs b = some o

instance (s : State α A) (a : Nat) : Decidable (∃ d, s.arrs a = some d) :=
  decidable_of_iff ((s.arrs a).isSome = true) Option.isSome_iff_exists

instance (c : Call α) : Decidable (∀ n, c ≠ .grow n) :=
  match c with
  | .grow n => .isFalse fun h => h n rfl
  | .reserve _ | .resize _ | .resizeVal _ _ | .pushBack _ | .emplaceBack _ => .isTrue nofun

instance (s : State α A) (op : Op α A) : Decidable (op.Legal s) :=
  match op with
  | .empty _ | .ofSize _ _ | .ofRange _ _ => .isTrue trivial
  | .copy b | .copyWith b _ | .move b | .moveWith b _ =>
    inferInstanceAs (Decidable (∃ o, s.arrs b = some o))
  | .destruct a | .clear a | .assign _ a _ | .assignWith _ a _ _ | .shrinkToFit _ a =>
    inferInstanceAs (Decidable (∃ d, s.arrs a = some d))
  | .call a c => inferInstanceAs (Decidable ((∃ d, s.arrs a = some d) ∧ ∀ n, c ≠ .grow n))
  | .popBack a => decidable_of_iff (∃ d ∈ s.arrs a, 0 < d.size) Iff.rfl
  | .copyAssign _ a b | .moveAssign _ a b | .swap _ a b =>
    inferInstanceAs (Decidable ((∃ d, s.arrs a = some d) ∧ ∃ o, s.arrs b = some o))

end Op

inductive Step (t : Traits α A) : Option (State α A) → Op α A → Option (State α A) → Prop
  | ok {s s' : State α A} {op : Op α A} : op.Legal s → op.run t s = .ok () s' →
    Step t (some s) op (some s')
  | fault {s : State α A} {op : Op α A} : op.Legal s → op.run t s = .fault → Step t (some s) op none

/-- One call after the other, as long as they are legal and return. -/
def calls (t : Traits α A) : List (Op α A) → State α A → Option (State α A)
  | [], s => some s
  | op :: ops, s => if op.Legal s then (op.run t s).returned.bind (calls t ops) else none

theorem Run.of_calls {ops os : List (Op α A)} {u : Option (State α A)} {s s' : State α A}
    (h : Run (Step t) u os (some s))
    (hc : calls t ops s = some s') : Run (Step t) u (os ++ ops) (some s') := by
  induction ops generalizing os s with
  | nil =>
    obtain rfl := Option.some.inj hc
    rwa [List.append_nil]
  | cons op ops ih =>
    rw [calls] at hc
    obtain ⟨hl, hc⟩ := Option.ite_none_right_eq_some.mp hc
    obtain ⟨s₁, hrun, hc⟩ := Option.bind_eq_some_iff.mp hc
    obtain ⟨⟨⟩, hok⟩ := Res.returned_eq_some hrun
    have hnext := ih (h.snoc (.ok hl hok)) hc
    rwa [List.append_assoc] at hnext

/-- Exactly the first `size` slots of the held buffer hold objects. -/
def Exact (s : State α A) : Prop :=
  ∀ a d, s.arrs a = some d → d.size ≤ d.capacity ∧
    (∀ b, d.data = some b → ∃ buf, s.heap.bufs b = some buf ∧ buf.slots.length = d.capacity) ∧
    ∀ i, (slot s d i).isSome = true ↔ i < d.size

/-- When all arrays are gone, every object was destroyed once. -/
def Balanced (s : State α A) : Prop :=
  (∀ a, s.arrs a = none) → ∀ id, id < s.heap.nextObj → s.heap.destroyed.count id = 1

def Sound : Option (State α A) → Prop
  | some s => Exact s ∧ Balanced s
  | none => False

theorem step_deterministic (t : Traits α A) : Deterministic (Step t) := by
  intro s op u v hu hv
  cases hu with
  | ok _ hu =>
    cases hv with
    | ok _ hv => cases hu.symm.trans hv; rfl
    | fault _ hv => cases hu.symm.trans hv
  | fault _ hu =>
    cases hv with
    | ok _ hv => cases hu.symm.trans hv
    | fault _ _ => rfl

/-! ## One operation -/

theorem Makes.run {p : Action α A Nat} (h : Makes t p s) :
    Post ((do let _ ← p; pure ()) s) (fun _ s' => WellFormed t s') (fun _ => True) :=
  Post.bind (h.mono (fun _ _ => id) (fun _ _ => trivial)) fun _ _ h => h.1

theorem Keeps.run {p : Action α A Unit} (h : Keeps t p s) :
    Post (p s) (fun _ s' => WellFormed t s') (fun _ => True) :=
  h.mono (fun _ _ h => h.1) (fun _ _ => trivial)

theorem Inv.call_spec (hi : Inv t s none ls) (ha : s.arrs a = some d) (c : Call α)
    (hc : ∀ n, c ≠ .grow n) :
    Post (c.run t a s) (fun _ s' => WellFormed t s') (fun _ => True) := by
  by_cases hmem : c.outOfMemory s d
  · obtain ⟨s', hrun, -⟩ := hi.not_restored ha c hmem
    rw [hrun]
    trivial
  · rcases hi.run_spec ha c hmem with ⟨-, n, hn⟩ | hp
    · exact absurd hn (hc n)
    · exact hp.mono (fun _ _ h => h.1) (fun _ _ => trivial)

/-- Every operation but `pop_back` keeps the arrays in order. -/
theorem Op.run_spec (op : Op α A) (hw : WellFormed t s) (hl : op.Legal s)
    (hop : ∀ a, op ≠ .popBack a) :
    Post (op.run t s) (fun _ s' => WellFormed t s') (fun _ => True) := by
  obtain ⟨ls, hi⟩ := hw
  cases op with
  | empty al => exact (hi.empty_spec al).run
  | ofSize n al => exact (hi.ofRange_spec al _).run
  | ofRange xs al => exact (hi.ofRange_spec al xs).run
  | copy b =>
    obtain ⟨o, hb⟩ := hl
    exact (hi.copy_spec hb).run
  | copyWith b al =>
    obtain ⟨o, hb⟩ := hl
    exact (hi.copyWith_spec hb al).run
  | move b =>
    obtain ⟨o, hb⟩ := hl
    exact (hi.move_spec hb).run
  | moveWith b al =>
    obtain ⟨o, hb⟩ := hl
    exact (hi.moveWith_spec hb al).run
  | destruct a =>
    obtain ⟨d, ha⟩ := hl
    obtain ⟨s', hrun, hi', -⟩ := hi.destruct_spec ha
    rw [run, hrun]
    exact ⟨_, hi'⟩
  | clear a =>
    obtain ⟨d, ha⟩ := hl
    obtain ⟨s', hrun, hi', -⟩ := hi.keepFirstN_spec ha (Nat.zero_le d.size)
    rw [run, Dynarray.clear, hrun]
    exact ⟨_, hi'⟩
  | call a c =>
    obtain ⟨⟨d, ha⟩, hc⟩ := hl
    exact hi.call_spec ha c hc
  | popBack a => exact absurd rfl (hop a)
  | assign fuel a xs =>
    obtain ⟨d, ha⟩ := hl
    exact (hi.assign_spec ha fuel xs).run
  | assignWith fuel a xs al =>
    obtain ⟨d, ha⟩ := hl
    exact (hi.assignWith_spec ha fuel xs al).run
  | copyAssign fuel a b =>
    obtain ⟨⟨d, ha⟩, o, hb⟩ := hl
    exact (hi.copyAssign_spec ha hb fuel).run
  | moveAssign fuel a b =>
    obtain ⟨⟨d, ha⟩, o, hb⟩ := hl
    exact ((moveAssign_swap_spec fuel).1 s a b d o ⟨ls, hi⟩ ha hb).run
  | swap fuel a b =>
    obtain ⟨⟨d, ha⟩, o, hb⟩ := hl
    exact ((moveAssign_swap_spec fuel).2 s a b d o ⟨ls, hi⟩ ha hb).run
  | shrinkToFit fuel a =>
    obtain ⟨d, ha⟩ := hl
    exact (hi.shrinkToFit_spec ha fuel).run

theorem Inv.exact (hi : Inv t s none ls) : Exact s := by
  intro a d ha
  have hs := hi.shape ha
  refine ⟨hs.size ▸ hs.le_capacity, fun b hb => ?_, fun i => ?_⟩
  · obtain ⟨-, hle, -, al, -, hbuf⟩ := (shape_some hb).mp hs
    exact ⟨_, hbuf, by rw [length_row]; omega⟩
  · rw [hi.slot_eq ha, hs.size]
    simp

theorem Inv.balanced (hi : Inv t s none ls) : Balanced s := by
  intro hnone id hid
  rcases hi.object_cases hid with hm | ⟨a, d, i, o, ha, -⟩
  · exact List.count_eq_one_of_mem hi.ledger.once hm
  · rw [hnone a] at ha; cases ha

/-- The constructor that `pop_back` runs: outside the buffer it is a fault, and an exception stops
the program. -/
theorem Inv.popBack_cases (hi : Inv t s none ls) (ha : s.arrs a = some d)
    (hrun : popBack t a s = .ok () s') :
    d.size < d.capacity ∧
    ∃ h' ls', Inv t ⟨h', Function.update s.arrs a (some { d with size := d.size + 1 }),
        s.nextArr⟩ none ls' ∧
      s' = ⟨h', Function.update s.arrs a
        (some { d with size := (addressSpace - 1 + d.size) % addressSpace }),
        s.nextArr⟩ := by
  rw [popBack, bind_ok (arr_apply ha)] at hrun
  by_cases hlt : d.size < d.capacity
  · refine ⟨hlt, ?_⟩
    obtain ⟨h', hcon, hinv, -⟩ :=
      hi.next.push (s := { s with heap := s.heap.next.2 }) ha hlt t.default
    by_cases hf : s.heap.fail s.heap.tick = true
    · have hthrow :
          construct t d.data d.size (.val t.default) s =
            .thrown { s with heap := s.heap.next.2 } := by
        simp only [construct, read, hcon]
        exact if_pos hf
      rw [bind_pending (by simp only [noexcept, hthrow])] at hrun
      cases hrun
    · have hok : construct t d.data d.size (.val t.default) s = .ok () { s with heap := h' } := by
        simp only [construct, read, hcon]
        exact if_neg hf
      have hno :
          noexcept (construct t d.data d.size (.val t.default)) s =
            .ok () { s with heap := h' } := by
        simp only [noexcept, hok]
      rw [bind_ok hno] at hrun
      cases hrun
      exact ⟨h', _, hinv, rfl⟩
  · have hnone : (d.data.bind fun b => s.heap.next.2.construct b d.size t.default) = none := by
      have hs := hi.shape ha
      rcases data_cases d with hd | ⟨b, hd⟩
      · rw [hd]; rfl
      · obtain ⟨hsz, hle, -, al, -, hbuf⟩ := (shape_some hd).mp hs
        have hout : (row (ls (some a)) (d.capacity - (ls (some a)).length))[d.size]? = none :=
          List.getElem?_eq_none (by rw [length_row]; omega)
        have hbuf' : s.heap.next.2.bufs b = _ := hbuf
        rw [hd, Option.bind_some]
        simp only [Heap.construct, hbuf', hout]
    rw [bind_fault (by simp only [noexcept, construct, read, hnone])] at hrun
    cases hrun

/-- `pop_back` ends in a fault or leaves more objects than elements. -/
theorem Inv.popBack_unsound (hi : Inv t s none ls) (ha : s.arrs a = some d) (hpos : 0 < d.size)
    {u : Option (State α A)} (h : Step t (some s) (.popBack a) u) : ¬ Sound u := by
  cases h with
  | fault _ _ => exact id
  | ok _ hrun =>
    rintro ⟨hexact, -⟩
    obtain ⟨hlt, h', ls', hinv, rfl⟩ := hi.popBack_cases ha hrun
    have hmax := (hi.shape ha).capacity_le
    -- the last element is still there
    have hlen := (hinv.shape (Function.update_self ..)).size
    dsimp only at hlen
    have hsome := congrArg Option.isSome (hinv.slot_eq (Function.update_self ..) (d.size - 1))
    rw [List.getElem?_eq_getElem (by omega), Option.isSome_some] at hsome
    have hlive := ((hexact a _ (Function.update_self ..)).2.2 (d.size - 1)).mp hsome
    simp only [addressSpace, maxSize] at hlive hmax
    omega

/-- Along a run of calls that return, objects live and die as they should exactly when `pop_back`
is not called. -/
theorem sound_iff_no_popBack {fail : Nat → Bool} {ops : List (Op α A)} {u : Option (State α A)}
    (h : Run (Step t) (some (initial fail)) ops u) :
    (∀ os os' v, ops = os ++ os' → Run (Step t) (some (initial fail)) os v → Sound v) ↔
      ∀ a, Op.popBack a ∉ ops := by
  have hiff := h.always_iff (step_deterministic t) (J := fun v => ∃ s, v = some s ∧ WellFormed t s)
    (P := Sound) (G := fun _ op => ∀ a, op ≠ .popBack a) ⟨_, rfl, _, Inv.initial fail⟩ ?_ ?_ ?_
  · rw [hiff]
    constructor
    · intro hall a hm
      obtain ⟨os, os', rfl⟩ := List.append_of_mem hm
      obtain ⟨v, hv, -⟩ := h.split
      exact hall os _ os' v rfl hv a rfl
    · rintro hnot os op os' v rfl - a rfl
      exact hnot a (by simp)
  · rintro v ⟨s, rfl, ls, hi⟩
    exact ⟨hi.exact, hi.balanced⟩
  · rintro v op w ⟨s, rfl, hw⟩ hstep hop
    cases hstep with
    | ok hl hrun => exact ⟨_, rfl, (op.run_spec hw hl hop).ok hrun⟩
    | fault hl hrun =>
      have hpost := op.run_spec hw hl hop
      rw [hrun] at hpost
      exact hpost.elim
  · rintro v op w ⟨s, rfl, ls, hi⟩ hstep hop
    obtain ⟨a, rfl⟩ : ∃ a, op = .popBack a := by
      by_contra hne
      exact hop fun a he => hne ⟨a, he⟩
    obtain ⟨d, ha, hpos⟩ : ∃ d, s.arrs a = some d ∧ 0 < d.size := by
      cases hstep with
      | ok hl _ => exact hl
      | fault hl _ => exact hl
    exact hi.popBack_unsound ha hpos hstep

/-- An array grows, is copied and swapped with the copy, and both are destroyed. -/
theorem sound_grow_copy_swap :
    ∃ s, Run (Step plain) (some (initial fun _ => false)) [.ofRange [.val 5, .val 6] (),
    .call 0 (.pushBack (.val 7)), .copy 0, .call 1 (.resizeVal 1 (.val 0)), .swap 1 0 1,
    .destruct 0, .destruct 1] (some s) ∧
      Sound (some s) := by
  obtain ⟨s, hs⟩ := Option.isSome_iff_exists.mp (show (calls plain [.ofRange [.val 5, .val 6] (),
    .call 0 (.pushBack (.val 7)), .copy 0, .call 1 (.resizeVal 1 (.val 0)), .swap 1 0 1,
      .destruct 0, .destruct 1]
    (initial fun _ => false)).isSome = true by decide +kernel)
  have hrun := Run.of_calls .nil hs
  exact ⟨s, hrun, (sound_iff_no_popBack hrun).mpr (fun a hm => by simp at hm) _ [] _ (by simp) hrun⟩

/-- `pop_back` on an array of one element, whose buffer is full. -/
theorem popBack_outside_buffer :
    Run (Step plain) (some (initial fun _ => false)) [.ofRange [.val 5] (), .popBack 0] none ∧
      ¬ Sound (none : Option (State Nat Unit)) := by
  have hrun :
      Run (Step plain) (some (initial fun _ => false))
        ([.ofRange [.val 5] ()] ++ [.popBack 0]) none :=
    (Run.single (.ok trivial rfl)).snoc (.fault ⟨_, rfl, Nat.one_pos⟩ rfl)
  exact ⟨hrun, id⟩

end Gpcl.Dynarray
