import Gpcl.Lib.Owners

/-! # Storages for objects

Each of the storages has room for one object, which is constructed and destroyed by hand. A storage
remembers the object that was constructed in it last, whether or not it has been destroyed since.
The program says which storages are in use, and `Holds` says that these and no others have a live
object, and which values the objects have. A value that comes from a storage without an object is
`none`. -/
namespace Gpcl.Lib.Slots
open Owners

structure Storages (I V : Type) where
  obj : I → Option Nat
  value : Nat → Option V
  made : Nat
  destroyed : Nat → Nat

variable {I V : Type}

namespace Storages

def empty : Storages I V := ⟨fun _ => none, fun _ => none, 0, fun _ => 0⟩

/-- What is read from the storage `v`. -/
def read (s : Storages I V) (v : I) : Option V :=
  (s.obj v).bind fun o => if s.destroyed o = 0 then s.value o else none

def ledger (s : Storages I V) (on : I → Bool) : Ledger I :=
  ⟨fun v => if on v then s.obj v else none, s.made, s.destroyed⟩

/-- There is an object in the storage `v`. -/
def Live (s : Storages I V) (v : I) : Prop := ∃ o, s.obj v = some o ∧ s.destroyed o = 0

/-- The value in a storage that is in use. -/
def content (s : Storages I V) (on : I → Bool) (v : I) : Option (Option V) :=
  if on v then (s.obj v).map s.value else none

variable [DecidableEq I]

/-- Another storage in the place of `v`. -/
def clear (v : I) (s : Storages I V) : Storages I V :=
  { s with obj := Function.update s.obj v none }

/-- A constructor is called for the storage `v`. -/
def construct (v : I) (x : Option V) (s : Storages I V) : Storages I V where
  obj := Function.update s.obj v (some s.made)
  value := Function.update s.value s.made x
  made := s.made + 1
  destroyed := s.destroyed

/-- The destructor is called for what is in the storage `v`. -/
def destroyAt (v : I) (s : Storages I V) : Storages I V :=
  match s.obj v with
  | some o => { s with destroyed := Function.update s.destroyed o (s.destroyed o + 1) }
  | none => s

/-- The object in the storage `v` gets another value. -/
def assign (v : I) (x : Option V) (s : Storages I V) : Storages I V :=
  match s.obj v with
  | some o => { s with value := Function.update s.value o x }
  | none => s

end Storages

structure Holds (s : Storages I V) (on : I → Bool) (c : I → Option (Option V)) : Prop where
  sound : (s.ledger on).Sound
  full : ∀ v, on v = true → s.obj v ≠ none
  issued : ∀ v o, s.obj v = some o → o < s.made
  placed : ∀ v w o, s.obj v = some o → s.obj w = some o → v = w
  content : ∀ v, s.content on v = c v

section
variable {s : Storages I V} {on on' : I → Bool} {c : I → Option (Option V)} {v w : I} {o : Nat}
    {x : Option V}

theorem owns_eq (hv : on v = true) (ho : s.obj v = some o) : (s.ledger on).owns v = some o := by
  simp [Storages.ledger, hv, ho]

theorem owns_none (hv : on v = false) : (s.ledger on).owns v = none := by
  simp [Storages.ledger, hv]

theorem Holds.empty : Holds (Storages.empty : Storages I V) (fun _ => false) fun _ => none where
  sound := Ledger.sound_empty
  full := nofun
  issued := nofun
  placed := nofun
  content _ := rfl

theorem Holds.object (h : Holds s on c) (hv : on v = true) :
    ∃ o, s.obj v = some o ∧ s.destroyed o = 0 ∧ c v = some (s.value o) := by
  obtain ⟨o, ho⟩ := Option.ne_none_iff_exists'.mp (h.full v hv)
  refine ⟨o, ho, h.sound.alive v o (owns_eq hv ho), ?_⟩
  rw [← h.content v]
  simp [Storages.content, hv, ho]

theorem Holds.read (h : Holds s on c) (hv : on v = true) : c v = some (s.read v) := by
  obtain ⟨o, ho, hd, hc⟩ := h.object hv
  simp [Storages.read, ho, hd, hc]

theorem Holds.off (h : Holds s on c) (hv : on v = false) : c v = none := by
  rw [← h.content v]
  simp [Storages.content, hv]

theorem Holds.on_eq (h : Holds s on c) : on = fun v => (c v).isSome := by
  funext v
  cases hv : on v with
  | true =>
    obtain ⟨o, -, -, hc⟩ := h.object hv
    simp [hc]
  | false => simp [h.off hv]

/-- The storages in use are those with a live object. -/
theorem Holds.live_iff (h : Holds s on c) (v : I) : s.Live v ↔ on v = true := by
  constructor
  · intro hlive
    obtain ⟨o, ho, hd⟩ := hlive
    by_contra hv
    have hone := h.sound.once o (h.issued v o ho) ?_
    · change s.destroyed o = 1 at hone
      omega
    · intro w hw
      simp only [Storages.ledger, Option.ite_none_right_eq_some] at hw
      exact hv (h.placed w v o hw.2 ho ▸ hw.1)
  · intro hv
    obtain ⟨o, ho, hd, -⟩ := h.object hv
    exact ⟨o, ho, hd⟩

variable [DecidableEq I]

omit [DecidableEq I] in
theorem Holds.congr (h : Holds s on c) {on' : I → Bool} {c' : I → Option (Option V)}
    (hon : on' = on) (hc : c' = c) :
    Holds s on' c' := by
  rw [hon, hc]
  exact h

omit [DecidableEq I] in
theorem ledger_assign : (s.assign v x).ledger on = s.ledger on := by
  unfold Storages.assign
  split
  · rfl
  · rfl

theorem Holds.clear (h : Holds s on c) (hv : on v = false) : Holds (s.clear v) on c := by
  have hobj : ∀ w, on w = true → (s.clear v).obj w = s.obj w := by
    intro w hw
    refine Function.update_of_ne ?_ _ _
    intro he
    rw [he, hv] at hw
    cases hw
  have hledger : (s.clear v).ledger on = s.ledger on := by
    refine congrArg (fun f => (⟨f, s.made, s.destroyed⟩ : Ledger I)) (funext ?_)
    intro w
    split
    · next hw => exact hobj w hw
    · rfl
  have hold : ∀ w o, (s.clear v).obj w = some o → s.obj w = some o := by
    intro w o ho
    simp only [Storages.clear, Function.update_apply] at ho
    split at ho
    · cases ho
    · exact ho
  refine ⟨hledger ▸ h.sound, ?_, ?_, ?_, ?_⟩
  · intro w hw
    rw [hobj w hw]
    exact h.full w hw
  · intro w o ho
    exact h.issued w o (hold w o ho)
  · intro w w' o ho ho'
    exact h.placed w w' o (hold w o ho) (hold w' o ho')
  · intro w
    rw [← h.content w]
    simp only [Storages.content]
    split
    · next hw =>
      rw [hobj w hw]
      rfl
    · rfl

/-- A new object for a storage that is not in use. -/
theorem Holds.construct (h : Holds s on c) (hv : on v = false) (x : Option V) :
    Holds (s.construct v x) (Function.update on v true) (Function.update c v (some x)) := by
  have hledger : (s.construct v x).ledger (Function.update on v true) = (s.ledger on).make v := by
    refine congrArg (fun f => (⟨f, s.made + 1, s.destroyed⟩ : Ledger I)) (funext ?_)
    intro w
    by_cases hw : w = v
    · subst hw
      simp [Storages.construct, Storages.ledger]
    · simp [Storages.construct, Storages.ledger, hw]
  have hobj : ∀ w o, (s.construct v x).obj w = some o → (w = v ∧ o = s.made) ∨
      (w ≠ v ∧ s.obj w = some o) := by
    intro w o ho
    by_cases hwv : w = v
    · simp only [Storages.construct, hwv, Function.update_self] at ho
      exact .inl ⟨hwv, (Option.some.inj ho).symm⟩
    · simp only [Storages.construct, Function.update_of_ne hwv] at ho
      exact .inr ⟨hwv, ho⟩
  refine ⟨hledger ▸ h.sound.make (owns_none hv), ?_, ?_, ?_, ?_⟩
  · intro w hw
    by_cases hwv : w = v
    · simp [Storages.construct, hwv]
    · simp only [Storages.construct, Function.update_of_ne hwv] at hw ⊢
      exact h.full w hw
  · intro w o ho
    rcases hobj w o ho with ⟨_, rfl⟩ | ⟨_, ho⟩
    · exact Nat.lt_succ_self _
    · exact Nat.lt_succ_of_lt (h.issued w o ho)
  · intro w w' o ho ho'
    rcases hobj w o ho with ⟨hw, hm⟩ | ⟨_, ho⟩
    · rcases hobj w' o ho' with ⟨hw', _⟩ | ⟨_, ho'⟩
      · exact hw.trans hw'.symm
      · exact absurd (h.issued w' o ho') (by omega)
    · rcases hobj w' o ho' with ⟨_, hm⟩ | ⟨_, ho'⟩
      · exact absurd (h.issued w o ho) (by omega)
      · exact h.placed w w' o ho ho'
  · intro w
    by_cases hwv : w = v
    · simp [Storages.content, Storages.construct, hwv]
    · simp only [Storages.content, Storages.construct, Function.update_of_ne hwv]
      rw [← h.content w]
      simp only [Storages.content]
      split
      · next hw =>
        refine Option.map_congr ?_
        intro o ho
        have hlt : o < s.made := h.sound.constructed w o (owns_eq hw ho)
        exact Function.update_of_ne (Nat.ne_of_lt hlt) _ _
      · rfl

/-- The object of a storage in use is destroyed. -/
theorem Holds.destroyAt (h : Holds s on c) (hv : on v = true) :
    Holds (s.destroyAt v) (Function.update on v false) (Function.update c v none) := by
  obtain ⟨o, ho, -, -⟩ := h.object hv
  have hslots :
      s.destroyAt v = { s with
          destroyed := Function.update s.destroyed o (s.destroyed o + 1) } := by
    simp [Storages.destroyAt, ho]
  have hledger : (s.destroyAt v).ledger (Function.update on v false) = (s.ledger on).destroy v := by
    rw [hslots, Ledger.destroy, owns_eq hv ho]
    refine congrArg (fun f =>
      (⟨f, s.made, Function.update s.destroyed o (s.destroyed o + 1)⟩ : Ledger I)) (funext ?_)
    intro w
    by_cases hw : w = v
    · simp [Ledger.release, hw]
    · simp [Ledger.release, Storages.ledger, hw]
  refine ⟨hledger ▸ h.sound.destroy v, ?_, ?_, ?_, ?_⟩
  · intro w hw
    by_cases hwv : w = v
    · simp [hwv] at hw
    · rw [Function.update_of_ne hwv] at hw
      rw [hslots]
      exact h.full w hw
  · rw [hslots]
    exact h.issued
  · rw [hslots]
    exact h.placed
  · intro w
    rw [hslots]
    by_cases hwv : w = v
    · simp [Storages.content, hwv]
    · simp only [Storages.content, Function.update_of_ne hwv]
      exact h.content w

theorem Holds.assign (h : Holds s on c) (hv : on v = true) (x : Option V) :
    Holds (s.assign v x) on (Function.update c v (some x)) := by
  obtain ⟨o, ho, -, -⟩ := h.object hv
  have hslots : s.assign v x = { s with value := Function.update s.value o x } := by
    simp [Storages.assign, ho]
  refine ⟨?_, ?_, ?_, ?_, ?_⟩
  · rw [hslots]
    exact h.sound
  · rw [hslots]
    exact h.full
  · rw [hslots]
    exact h.issued
  · rw [hslots]
    exact h.placed
  · intro w
    rw [hslots]
    by_cases hwv : w = v
    · simp [Storages.content, hwv, hv, ho]
    · rw [Function.update_of_ne hwv, ← h.content w]
      simp only [Storages.content]
      split
      · next hw =>
        refine Option.map_congr ?_
        intro p hp
        refine Function.update_of_ne ?_ _ _
        intro he
        exact hwv (h.sound.unshared w v o (owns_eq hw (he ▸ hp)) (owns_eq hv ho))
      · rfl

omit [DecidableEq I] in
/-- A storage that is no longer in use although its object has not been destroyed, or that has
another object: the object is lost. -/
theorem Holds.not_sound_of_lost (h : Holds s on c) (hv : on v = true) (ho : s.obj v = some o)
    {s' : Storages I V} (hmade : s.made ≤ s'.made)
    (howns : ∀ w, w ≠ v → (s'.ledger on').owns w = (s.ledger on).owns w)
    (hgone : (s'.ledger on').owns v ≠ some o) (hd : s'.destroyed o = 0) :
    ¬ (s'.ledger on').Sound := by
  refine Ledger.Sound.not_sound_of_lost h.sound (owns_eq hv ho) hmade howns hgone ?_
  show s'.destroyed o = s.destroyed o
  rw [hd]
  exact (h.sound.alive v o (owns_eq hv ho)).symm

end

end Gpcl.Lib.Slots
