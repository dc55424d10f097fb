import Mathlib.Data.List.Basic
import Mathlib.Logic.Function.Basic
import Mathlib.Tactic.Common

/-! # Objects in buffers

Memory for programs that manage the lifetimes of objects by hand. A buffer is a
row of slots; a slot is empty or holds a live object, and every object has an
identity of its own. Running a constructor on a slot that is occupied or outside
the buffer, destroying an object that is not there and freeing a buffer twice are
faults: the operation has no result. Allocations and constructors may throw;
`fail` says at which of their calls, counted by `tick`. `Ledger` is the account of
identities: each object that was constructed is live in one slot or was destroyed
once, never both. -/
namespace Gpcl.Lib.Objects

/-- How a program ends: with a value, with an exception (the state is kept), with a fault,
or not at all, when its fuel runs out or it is stopped. -/
inductive Res (σ β : Type)
  | ok (x : β) (s : σ)
  | thrown (s : σ)
  | fault
  | pending

/-- The state in which a program returned. -/
def Res.returned {σ β : Type} : Res σ β → Option σ
  | .ok _ s => some s
  | _ => none

/-- The state that an exception left. -/
def Res.left {σ β : Type} : Res σ β → Option σ
  | .thrown s => some s
  | _ => none

theorem Res.returned_eq_some {σ β : Type} {r : Res σ β} {s : σ} (h : r.returned = some s) :
    ∃ x, r = .ok x s := by
  cases r with
  | ok x s' =>
    obtain rfl := Option.some.inj h
    exact ⟨x, rfl⟩
  | _ => cases h

theorem Res.left_eq_some {σ β : Type} {r : Res σ β} {s : σ} (h : r.left = some s) :
    r = .thrown s := by
  cases r with
  | thrown s' =>
    obtain rfl := Option.some.inj h
    rfl
  | _ => cases h
/-- A program over a state. -/
def Prog (σ β : Type) : Type := σ → Res σ β

namespace Prog
variable {σ β γ : Type}

def pure (x : β) : Prog σ β := fun s => .ok x s

def bind (p : Prog σ β) (f : β → Prog σ γ) : Prog σ γ := fun s =>
  match p s with
  | .ok x s => f x s
  | .thrown s => .thrown s
  | .fault => .fault
  | .pending => .pending

instance : Monad (Prog σ) where
  pure := Prog.pure
  bind := Prog.bind

instance : LawfulMonad (Prog σ) := by
  refine LawfulMonad.mk' (Prog σ) (fun p => ?_) (fun _ _ => rfl) (fun p f g => ?_)
  · funext s
    show Prog.bind p _ s = p s
    unfold Prog.bind
    cases p s <;> rfl
  · funext s
    show Prog.bind (Prog.bind p f) g s = Prog.bind p (fun x => Prog.bind (f x) g) s
    unfold Prog.bind
    cases p s <;> rfl

def get : Prog σ σ := fun s => .ok s s

def set (s : σ) : Prog σ Unit := fun _ => .ok () s

/-- A computation that faults where it has no value. -/
def lift (f : σ → Option (β × σ)) : Prog σ β := fun s =>
  match f s with
  | some (x, s) => .ok x s
  | none => .fault

def assert (c : Bool) : Prog σ Unit := fun s => if c then .ok () s else .fault

/-- `try p catch (...) { handler; throw; }`. -/
def onThrow (p : Prog σ β) (handler : Prog σ Unit) : Prog σ β := fun s =>
  match p s with
  | .thrown s =>
    match handler s with
    | .ok _ s | .thrown s => .thrown s
    | .fault => .fault
    | .pending => .pending
  | r => r

/-- A result without a fault: `Q` of the value and the state, or `E` of the state of an
exception. -/
def Post (r : Res σ β) (Q : β → σ → Prop) (E : σ → Prop) : Prop :=
  match r with
  | .ok x s => Q x s
  | .thrown s => E s
  | .fault => False
  | .pending => True

theorem bind_ok {p : Prog σ β} {f : β → Prog σ γ} {s s' : σ} {x : β} (h : p s = .ok x s') :
    (p >>= f) s = f x s' := by
  show Prog.bind p f s = _
  rw [Prog.bind, h]

theorem bind_thrown {p : Prog σ β} {f : β → Prog σ γ} {s s' : σ} (h : p s = .thrown s') :
    (p >>= f) s = .thrown s' := by
  show Prog.bind p f s = _
  rw [Prog.bind, h]

theorem bind_pending {p : Prog σ β} {f : β → Prog σ γ} {s : σ} (h : p s = .pending) :
    (p >>= f) s = .pending := by
  show Prog.bind p f s = _
  rw [Prog.bind, h]

theorem bind_fault {p : Prog σ β} {f : β → Prog σ γ} {s : σ} (h : p s = .fault) :
    (p >>= f) s = .fault := by
  show Prog.bind p f s = _
  rw [Prog.bind, h]

theorem assert_true {c : Prop} [Decidable c] (hc : c) (s : σ) : assert (decide c) s = .ok () s := by
  rw [assert, if_pos (decide_eq_true hc)]

theorem assert_false {c : Prop} [Decidable c] (hc : ¬ c) (s : σ) :
    assert (decide c) s = .fault := by
  rw [assert, if_neg (fun h => hc (of_decide_eq_true h))]

theorem bind_eq_ok {p : Prog σ β} {f : β → Prog σ γ} {s s' : σ} {y : γ}
    (h : (p >>= f) s = .ok y s') :
    ∃ x s₁, p s = .ok x s₁ ∧ f x s₁ = .ok y s' := by
  change Prog.bind p f s = _ at h
  unfold Prog.bind at h
  cases hp : p s with
  | ok x s₁ => rw [hp] at h; exact ⟨x, s₁, rfl, h⟩
  | thrown s₁ => rw [hp] at h; cases h
  | fault => rw [hp] at h; cases h
  | pending => rw [hp] at h; cases h

theorem onThrow_eq_ok {p : Prog σ β} {handler : Prog σ Unit} {s s' : σ} {x : β}
    (h : onThrow p handler s = .ok x s') :
    p s = .ok x s' := by
  unfold onThrow at h
  cases hp : p s with
  | ok y s₁ => rw [hp] at h; exact h
  | thrown s₁ =>
    rw [hp] at h
    dsimp only at h
    cases hh : handler s₁ with
    | ok y s₂ => rw [hh] at h; cases h
    | thrown s₂ => rw [hh] at h; cases h
    | fault => rw [hh] at h; cases h
    | pending => rw [hh] at h; cases h
  | fault => rw [hp] at h; cases h
  | pending => rw [hp] at h; cases h

theorem bind_eq_pending {p : Prog σ β} {f : β → Prog σ γ} {s : σ} (h : (p >>= f) s = .pending) :
    p s = .pending ∨ ∃ x s₁, p s = .ok x s₁ ∧ f x s₁ = .pending := by
  change Prog.bind p f s = _ at h
  unfold Prog.bind at h
  cases hp : p s with
  | ok x s₁ => rw [hp] at h; exact .inr ⟨x, s₁, rfl, h⟩
  | thrown s₁ => rw [hp] at h; cases h
  | fault => rw [hp] at h; cases h
  | pending => exact .inl rfl

theorem bind_eq_thrown {p : Prog σ β} {f : β → Prog σ γ} {s s' : σ} (h : (p >>= f) s = .thrown s') :
    p s = .thrown s' ∨ ∃ x s₁, p s = .ok x s₁ ∧ f x s₁ = .thrown s' := by
  change Prog.bind p f s = _ at h
  unfold Prog.bind at h
  cases hp : p s with
  | ok x s₁ => rw [hp] at h; exact .inr ⟨x, s₁, rfl, h⟩
  | thrown s₁ => rw [hp] at h; cases h; exact .inl rfl
  | fault => rw [hp] at h; cases h
  | pending => rw [hp] at h; cases h

theorem onThrow_eq_thrown {p : Prog σ β} {handler : Prog σ Unit} {s s' : σ}
    (h : onThrow p handler s = .thrown s') :
    ∃ s₁, p s = .thrown s₁ := by
  unfold onThrow at h
  cases hp : p s with
  | ok y s₁ => rw [hp] at h; cases h
  | thrown s₁ => exact ⟨s₁, rfl⟩
  | fault => rw [hp] at h; cases h
  | pending => rw [hp] at h; cases h

theorem onThrow_pending {p : Prog σ β} {handler : Prog σ Unit} {s : σ} (h : p s = .pending) :
    onThrow p handler s = .pending := by
  simp only [onThrow, h]

/-- A program that is never stuck waiting for fuel. -/
structure Settles (p : Prog σ β) : Prop where
  returns : ∀ s, p s ≠ .pending

theorem Settles.pure (x : β) : Settles (Pure.pure x : Prog σ β) := ⟨nofun⟩

theorem Settles.bind {p : Prog σ β} {f : β → Prog σ γ} (hp : Settles p) (hf : ∀ x, Settles (f x)) :
    Settles (p >>= f) := by
  refine ⟨fun s h => ?_⟩
  change Prog.bind p f s = _ at h
  unfold Prog.bind at h
  cases hs : p s with
  | ok x s₁ => rw [hs] at h; exact (hf x).returns s₁ h
  | thrown s₁ => rw [hs] at h; cases h
  | fault => rw [hs] at h; cases h
  | pending => exact hp.returns s hs

/-- Only the program itself, not a handler that settles, can be stuck. -/
theorem Settles.onThrow_eq_pending {p : Prog σ β} {handler : Prog σ Unit} (hh : Settles handler)
    {s : σ} (h : Prog.onThrow p handler s = .pending) : p s = .pending := by
  unfold Prog.onThrow at h
  cases hs : p s with
  | ok x s₁ => rw [hs] at h; cases h
  | thrown s₁ =>
    rw [hs] at h
    dsimp only at h
    cases hh₁ : handler s₁ with
    | ok y s₂ => rw [hh₁] at h; cases h
    | thrown s₂ => rw [hh₁] at h; cases h
    | fault => rw [hh₁] at h; cases h
    | pending => exact absurd hh₁ (hh.returns s₁)
  | fault => rw [hs] at h; cases h
  | pending => rfl

theorem Settles.onThrow {p : Prog σ β} {handler : Prog σ Unit} (hp : Settles p)
    (hh : Settles handler) :
    Settles (Prog.onThrow p handler) :=
  ⟨fun s h => hp.returns s (hh.onThrow_eq_pending h)⟩

theorem Settles.assert (c : Bool) : Settles (Prog.assert c : Prog σ Unit) := by
  refine ⟨fun s h => ?_⟩
  unfold Prog.assert at h
  split at h
  · cases h
  · cases h

theorem bind_congr_apply {p q : Prog σ β} {s : σ} (h : p s = q s) (f : β → Prog σ γ) :
    (p >>= f) s = (q >>= f) s := by
  show Prog.bind p f s = Prog.bind q f s
  unfold Prog.bind
  rw [h]

theorem onThrow_thrown {p : Prog σ β} {handler : Prog σ Unit} {s s₁ s₂ : σ} (h : p s = .thrown s₁)
    (hh : handler s₁ = .ok () s₂) : onThrow p handler s = .thrown s₂ := by
  simp only [onThrow, h, hh]

section
variable {Q : β → σ → Prop} {E E' : σ → Prop} {s : σ}

theorem Post.mono {r : Res σ β} {Q' : β → σ → Prop} (h : Post r Q E) (hQ : ∀ x s, Q x s → Q' x s)
    (hE : ∀ s, E s → E' s) : Post r Q' E' := by
  cases r with
  | ok x s => exact hQ x s h
  | thrown s => exact hE s h
  | fault => exact h
  | pending => trivial

theorem Post.thrown {r : Res σ β} (h : Post r Q E) (hr : r = .thrown s) : E s := by
  rw [hr] at h; exact h

theorem Post.ok {r : Res σ β} {x : β} (h : Post r Q E) (hr : r = .ok x s) : Q x s := by
  rw [hr] at h; exact h

/-- The rule of sequence. -/
theorem Post.bind {p : Prog σ β} {f : β → Prog σ γ} {R : γ → σ → Prop} (h : Post (p s) Q E)
    (hf : ∀ x s', Q x s' → Post (f x s') R E) : Post ((p >>= f) s) R E := by
  show Post (Prog.bind p f s) R E
  unfold Prog.bind
  cases hp : p s with
  | ok x s' => rw [hp] at h; exact hf x s' h
  | thrown s' => rw [hp] at h; exact h
  | fault => rw [hp] at h; exact h
  | pending => trivial

/-- The rule of exceptions: the handler runs to its end and the exception goes on. -/
theorem Post.onThrow {p : Prog σ β} {handler : Prog σ Unit} (h : Post (p s) Q E)
    (hh : ∀ s', E s' → Post (handler s') (fun _ => E') E') :
    Post (Prog.onThrow p handler s) Q E' := by
  unfold Prog.onThrow
  cases hp : p s with
  | ok x s' => rw [hp] at h; exact h
  | thrown s' =>
    rw [hp] at h
    have hr := hh s' h
    dsimp only
    cases hs : handler s' with
    | ok _ _ => rw [hs] at hr; exact hr
    | thrown _ => rw [hs] at hr; exact hr
    | fault => rw [hs] at hr; exact hr
    | pending => trivial
  | fault => rw [hp] at h; exact h
  | pending => trivial

end

end Prog

structure Obj (α : Type) where
  id : Nat
  val : α
deriving DecidableEq, Repr

structure Buffer (α A : Type) where
  alloc : A
  slots : List (Option (Obj α))
deriving DecidableEq, Repr

structure Heap (α A : Type) where
  bufs : Nat → Option (Buffer α A)
  nextBuf : Nat
  nextObj : Nat
  destroyed : List Nat
  tick : Nat
  fail : Nat → Bool

namespace Heap
variable {α A : Type}

/-- The object in slot `i` of buffer `b`. -/
def at? (h : Heap α A) (b i : Nat) : Option (Obj α) :=
  (h.bufs b).bind fun buf => (buf.slots[i]?).join

def setSlots (h : Heap α A) (b : Nat) (buf : Buffer α A) (slots : List (Option (Obj α))) :
    Heap α A :=
  { h with bufs := Function.update h.bufs b (some { buf with slots }) }

/-- A fresh buffer of `n` empty slots. -/
def allocate (h : Heap α A) (alloc : A) (n : Nat) : Heap α A × Nat :=
  ({ h with bufs := Function.update h.bufs h.nextBuf (some ⟨alloc, List.replicate n none⟩)
            nextBuf := h.nextBuf + 1 }, h.nextBuf)

/-- Giving a buffer of `n` slots back to an allocator that compares equal to its own. -/
def deallocate (h : Heap α A) (equal : A → Bool) (b n : Nat) : Option (Heap α A) :=
  match h.bufs b with
  | none => none
  | some buf =>
    if buf.slots.length = n ∧ equal buf.alloc
      then some { h with bufs := Function.update h.bufs b none }
    else none

/-- A new object in an empty slot. -/
def construct (h : Heap α A) (b i : Nat) (v : α) : Option (Heap α A) :=
  match h.bufs b with
  | none => none
  | some buf =>
    match buf.slots[i]? with
    | some none =>
      some { h.setSlots b buf (buf.slots.set i (some ⟨h.nextObj, v⟩)) with
        nextObj := h.nextObj + 1 }
    | _ => none

def destroy (h : Heap α A) (b i : Nat) : Option (Heap α A) :=
  match h.bufs b with
  | none => none
  | some buf =>
    match buf.slots[i]? with
    | some (some o) =>
      some { h.setSlots b buf (buf.slots.set i none) with destroyed := o.id :: h.destroyed }
    | _ => none

/-- Assignment to a live object. -/
def setVal (h : Heap α A) (b i : Nat) (v : α) : Option (Heap α A) :=
  match h.bufs b with
  | none => none
  | some buf =>
    match buf.slots[i]? with
    | some (some o) => some (h.setSlots b buf (buf.slots.set i (some { o with val := v })))
    | _ => none

/-- The next call that may throw: whether it does, and the heap after it. -/
def next (h : Heap α A) : Bool × Heap α A := (h.fail h.tick, { h with tick := h.tick + 1 })

/-- The account of the objects of a heap. -/
structure Ledger (h : Heap α A) : Prop where
  once : h.destroyed.Nodup
  gone : ∀ b i o, h.at? b i = some o → o.id ∉ h.destroyed
  issued : ∀ b i o, h.at? b i = some o → o.id < h.nextObj
  past : ∀ k ∈ h.destroyed, k < h.nextObj
  placed : ∀ b i o b' i' o', h.at? b i = some o → h.at? b' i' = some o' → o.id = o'.id → b = b' ∧
    i = i'
  all : ∀ k, k < h.nextObj → k ∈ h.destroyed ∨ ∃ b i o, h.at? b i = some o ∧ o.id = k
  fresh : ∀ b, h.nextBuf ≤ b → h.bufs b = none

/-! ## What an operation does to the slots -/

theorem at?_eq {h : Heap α A} {b i : Nat} {buf : Buffer α A} (hb : h.bufs b = some buf) :
    h.at? b i = (buf.slots[i]?).join := by
  rw [at?, hb, Option.bind_some]

theorem at?_none {h : Heap α A} {b i : Nat} (hb : h.bufs b = none) : h.at? b i = none := by
  rw [at?, hb, Option.bind_none]

theorem at?_setSlots {h : Heap α A} {b i : Nat} {buf : Buffer α A} {x : Option (Obj α)}
    (hb : h.bufs b = some buf) (hi : i < buf.slots.length) (b' i' : Nat) :
    (h.setSlots b buf (buf.slots.set i x)).at? b' i' = if b' = b ∧ i' = i then x
    else h.at? b' i' := by
  by_cases hbb : b' = b
  · subst hbb
    have hs :
        (h.setSlots b' buf (buf.slots.set i x)).bufs b' = some ⟨buf.alloc, buf.slots.set i x⟩ := by
      simp [setSlots]
    rw [at?_eq hs, at?_eq hb, List.getElem?_set]
    by_cases hii : i = i'
    · subst hii; simp [hi]
    · simp [hii, Ne.symm hii]
  · have hs : (h.setSlots b buf (buf.slots.set i x)).bufs b' = h.bufs b' := by simp [setSlots, hbb]
    simp only [at?, hs, hbb, false_and, if_false]

/-- The parts of a `construct` that does not fault. -/
theorem construct_cases {h h' : Heap α A} {b i : Nat} {v : α} (hc : h.construct b i v = some h') :
    ∃ buf, h.bufs b = some buf ∧ buf.slots[i]? = some none ∧
      h' = { h.setSlots b buf (buf.slots.set i (some ⟨h.nextObj, v⟩)) with
        nextObj := h.nextObj + 1 } := by
  unfold construct at hc
  split at hc
  · cases hc
  · rename_i buf hb
    split at hc
    · rename_i hs
      exact ⟨buf, hb, hs, (Option.some.inj hc).symm⟩
    · cases hc

theorem destroy_cases {h h' : Heap α A} {b i : Nat} (hd : h.destroy b i = some h') :
    ∃ buf o, h.bufs b = some buf ∧ buf.slots[i]? = some (some o) ∧
      h' = { h.setSlots b buf (buf.slots.set i none) with destroyed := o.id :: h.destroyed } := by
  unfold destroy at hd
  split at hd
  · cases hd
  · rename_i buf hb
    split at hd
    · rename_i o hs
      exact ⟨buf, o, hb, hs, (Option.some.inj hd).symm⟩
    · cases hd

theorem setVal_cases {h h' : Heap α A} {b i : Nat} {v : α} (hv : h.setVal b i v = some h') :
    ∃ buf o, h.bufs b = some buf ∧ buf.slots[i]? = some (some o) ∧
      h' = h.setSlots b buf (buf.slots.set i (some { o with val := v })) := by
  unfold setVal at hv
  split at hv
  · cases hv
  · rename_i buf hb
    split at hv
    · rename_i o hs
      exact ⟨buf, o, hb, hs, (Option.some.inj hv).symm⟩
    · cases hv

/-! ## The ledger -/

theorem Ledger.construct {h h' : Heap α A} {b i : Nat} {v : α} (hl : h.Ledger)
    (hc : h.construct b i v = some h') : h'.Ledger := by
  obtain ⟨buf, hb, hs, rfl⟩ := construct_cases hc
  have hi : i < buf.slots.length := (List.getElem?_eq_some_iff.mp hs).1
  have hat := fun b' i' => at?_setSlots (x := some ⟨h.nextObj, v⟩) hb hi b' i'
  have hold : h.at? b i = none := by rw [at?_eq hb, hs]; rfl
  -- an object of the new heap is an old one in its slot, or the new one
  have hcases : ∀ b' i' o,
    (h.setSlots b buf (buf.slots.set i (some ⟨h.nextObj, v⟩))).at? b' i' = some o →
      (b' = b ∧ i' = i ∧ o.id = h.nextObj) ∨ (¬ (b' = b ∧ i' = i) ∧ h.at? b' i' = some o) := by
    intro b' i' o ho
    rw [hat] at ho
    by_cases hc : b' = b ∧ i' = i
    · rw [if_pos hc] at ho
      exact .inl ⟨hc.1, hc.2, by rw [← Option.some.inj ho]⟩
    · rw [if_neg hc] at ho
      exact .inr ⟨hc, ho⟩
  constructor
  case once => exact hl.once
  case gone =>
    intro b' i' o ho
    rcases hcases b' i' o ho with ⟨-, -, he⟩ | ⟨-, ho⟩
    · rw [he]
      exact fun hm => Nat.lt_irrefl _ (hl.past _ hm)
    · exact hl.gone b' i' o ho
  case issued =>
    intro b' i' o ho
    rcases hcases b' i' o ho with ⟨-, -, he⟩ | ⟨-, ho⟩
    · rw [he]; exact Nat.lt_succ_self _
    · exact Nat.lt_succ_of_lt (hl.issued b' i' o ho)
  case past => exact fun k hk => Nat.lt_succ_of_lt (hl.past k hk)
  case placed =>
    intro b₁ i₁ o₁ b₂ i₂ o₂ h₁ h₂ he
    obtain ⟨hb₁, hi₁, e₁⟩ | ⟨-, g₁⟩ := hcases _ _ _ h₁
    · obtain ⟨hb₂, hi₂, -⟩ | ⟨-, g₂⟩ := hcases _ _ _ h₂
      · exact ⟨hb₁.trans hb₂.symm, hi₁.trans hi₂.symm⟩
      · exact absurd (hl.issued _ _ _ g₂) (by omega)
    · obtain ⟨-, -, e₂⟩ | ⟨-, g₂⟩ := hcases _ _ _ h₂
      · exact absurd (hl.issued _ _ _ g₁) (by omega)
      · exact hl.placed _ _ _ _ _ _ g₁ g₂ he
  case all =>
    intro k hk
    rcases Nat.lt_succ_iff_lt_or_eq.mp hk with hk | rfl
    · rcases hl.all k hk with hm | ⟨b', i', o, ho, he⟩
      · exact .inl hm
      · refine .inr ⟨b', i', o, ?_, he⟩
        have hne : ¬ (b' = b ∧ i' = i) := by
          rintro ⟨rfl, rfl⟩
          rw [hold] at ho; cases ho
        exact (hat b' i').trans (by rw [if_neg hne]; exact ho)
    · exact .inr ⟨b, i, ⟨h.nextObj, v⟩, (hat b i).trans (if_pos ⟨rfl, rfl⟩), rfl⟩
  case fresh =>
    intro b' hb'
    have hne : b' ≠ b := by
      rintro rfl
      rw [hl.fresh b' hb'] at hb; cases hb
    simpa [setSlots, hne] using hl.fresh b' hb'

theorem Ledger.destroy {h h' : Heap α A} {b i : Nat} (hl : h.Ledger)
    (hd : h.destroy b i = some h') :
    h'.Ledger := by
  obtain ⟨buf, o, hb, hs, rfl⟩ := destroy_cases hd
  have hi : i < buf.slots.length := (List.getElem?_eq_some_iff.mp hs).1
  have hat := fun b' i' => at?_setSlots (x := none) hb hi b' i'
  have hold : h.at? b i = some o := by rw [at?_eq hb, hs]; rfl
  -- an object of the new heap is an old one in another slot
  have hcases : ∀ b' i' o', (h.setSlots b buf (buf.slots.set i none)).at? b' i' = some o' →
      h.at? b' i' = some o' ∧ o'.id ≠ o.id := by
    intro b' i' o' ho
    rw [hat] at ho
    by_cases hc : b' = b ∧ i' = i
    · rw [if_pos hc] at ho; cases ho
    · rw [if_neg hc] at ho
      exact ⟨ho, fun he => hc (hl.placed _ _ _ _ _ _ ho hold he)⟩
  constructor
  case once => exact List.nodup_cons.mpr ⟨hl.gone b i o hold, hl.once⟩
  case gone =>
    intro b' i' o' ho hm
    obtain ⟨ho, hne⟩ := hcases b' i' o' ho
    rcases List.mem_cons.mp hm with he | hm
    · exact hne he
    · exact hl.gone b' i' o' ho hm
  case issued => exact fun b' i' o' ho => hl.issued b' i' o' (hcases b' i' o' ho).1
  case past =>
    intro k hk
    rcases List.mem_cons.mp hk with rfl | hk
    · exact hl.issued b i o hold
    · exact hl.past k hk
  case placed =>
    intro b₁ i₁ o₁ b₂ i₂ o₂ h₁ h₂ he
    exact hl.placed _ _ _ _ _ _ (hcases _ _ _ h₁).1 (hcases _ _ _ h₂).1 he
  case all =>
    intro k hk
    by_cases hko : k = o.id
    · exact .inl (hko ▸ List.mem_cons_self)
    · rcases hl.all k hk with hm | ⟨b', i', o', ho, he⟩
      · exact .inl (List.mem_cons_of_mem _ hm)
      · refine .inr ⟨b', i', o', ?_, he⟩
        have hne : ¬ (b' = b ∧ i' = i) := by
          rintro ⟨rfl, rfl⟩
          rw [hold] at ho
          exact hko (by rw [← he, ← Option.some.inj ho])
        exact (hat b' i').trans (by rw [if_neg hne]; exact ho)
  case fresh =>
    intro b' hb'
    have hne : b' ≠ b := by
      rintro rfl
      rw [hl.fresh b' hb'] at hb; cases hb
    simpa [setSlots, hne] using hl.fresh b' hb'

/-- Nothing is constructed and nothing destroyed: the identities stay where they are. -/
theorem Ledger.same {h h' : Heap α A} (hl : h.Ledger)
    (hat : ∀ b i, (h'.at? b i).map Obj.id = (h.at? b i).map Obj.id) (ho : h'.nextObj = h.nextObj)
    (hd : h'.destroyed = h.destroyed) (hf : ∀ b, h'.nextBuf ≤ b → h'.bufs b = none) :
    h'.Ledger := by
  have hback : ∀ {b i o}, h'.at? b i = some o → ∃ o', h.at? b i = some o' ∧ o'.id = o.id := by
    intro b i o h₁
    have := hat b i
    rw [h₁, Option.map_some] at this
    exact Option.map_eq_some_iff.mp this.symm
  constructor
  case once => rw [hd]; exact hl.once
  case gone =>
    intro b i o h₁
    obtain ⟨o', h₂, he⟩ := hback h₁
    rw [hd, ← he]
    exact hl.gone b i o' h₂
  case issued =>
    intro b i o h₁
    obtain ⟨o', h₂, he⟩ := hback h₁
    rw [ho, ← he]
    exact hl.issued b i o' h₂
  case past => rw [hd, ho]; exact hl.past
  case placed =>
    intro b₁ i₁ o₁ b₂ i₂ o₂ h₁ h₂ he
    obtain ⟨o₁', g₁, e₁⟩ := hback h₁
    obtain ⟨o₂', g₂, e₂⟩ := hback h₂
    exact hl.placed _ _ _ _ _ _ g₁ g₂ (by rw [e₁, e₂, he])
  case all =>
    intro k hk
    rw [ho] at hk
    rw [hd]
    rcases hl.all k hk with hm | ⟨b, i, o, h₁, he⟩
    · exact .inl hm
    · have := hat b i
      rw [h₁, Option.map_some] at this
      obtain ⟨o', h₂, he'⟩ := Option.map_eq_some_iff.mp this
      exact .inr ⟨b, i, o', h₂, he'.trans he⟩
  case fresh => exact hf

theorem Ledger.setVal {h h' : Heap α A} {b i : Nat} {v : α} (hl : h.Ledger)
    (hv : h.setVal b i v = some h') : h'.Ledger := by
  obtain ⟨buf, o, hb, hs, rfl⟩ := setVal_cases hv
  have hi : i < buf.slots.length := (List.getElem?_eq_some_iff.mp hs).1
  refine hl.same (fun b' i' => ?_) rfl rfl fun b' hb' => ?_
  · rw [at?_setSlots hb hi]
    by_cases hc : b' = b ∧ i' = i
    · rw [if_pos hc, hc.1, hc.2, at?_eq hb, hs]
      rfl
    · rw [if_neg hc]
  · have hne : b' ≠ b := by
      rintro rfl
      rw [hl.fresh b' hb'] at hb; cases hb
    simpa [setSlots, hne] using hl.fresh b' hb'

theorem Ledger.allocate {h : Heap α A} (hl : h.Ledger) (alloc : A) (n : Nat) :
    (h.allocate alloc n).1.Ledger := by
  refine hl.same (fun b i => ?_) rfl rfl fun b hb => ?_
  · by_cases hbb : b = h.nextBuf
    · subst hbb
      have hnew : (h.allocate alloc n).1.bufs h.nextBuf = some ⟨alloc, List.replicate n none⟩ := by
        simp [Heap.allocate]
      rw [at?_none (hl.fresh _ (Nat.le_refl _)), at?_eq hnew, List.getElem?_replicate]
      split <;> rfl
    · simp [at?, Heap.allocate, hbb]
  · have hne : b ≠ h.nextBuf := by simp [Heap.allocate] at hb; omega
    simp only [Heap.allocate] at hb ⊢
    rw [Function.update_of_ne hne]
    exact hl.fresh b (by omega)

/-- Giving back a buffer without objects. -/
theorem Ledger.deallocate {h h' : Heap α A} {equal : A → Bool} {b n : Nat} (hl : h.Ledger)
    (he : ∀ i, h.at? b i = none) (hd : h.deallocate equal b n = some h') : h'.Ledger := by
  unfold Heap.deallocate at hd
  split at hd
  · cases hd
  · rename_i buf hb
    split at hd
    · obtain rfl := Option.some.inj hd
      refine hl.same (fun b' i => ?_) rfl rfl fun b' hb' => ?_
      · by_cases hbb : b' = b
        · subst hbb
          rw [he, at?_none (by simp)]
        · simp [at?, hbb]
      · by_cases hbb : b' = b
        · simp [hbb]
        · simpa [hbb] using hl.fresh b' hb'
    · cases hd

theorem Ledger.next {h : Heap α A} (hl : h.Ledger) : h.next.2.Ledger :=
  hl.same (fun _ _ => rfl) rfl rfl hl.fresh

/-! ## Rows: objects first, then empty slots -/

/-- The slots of a buffer that holds `l` and has room for `k` more. -/
def row (l : List (Obj α)) (k : Nat) : List (Option (Obj α)) := l.map some ++ List.replicate k none

@[simp] theorem length_row (l : List (Obj α)) (k : Nat) : (row l k).length = l.length + k := by
  simp [row]

theorem row_getElem?_lt {l : List (Obj α)} {k i : Nat} (h : i < l.length) :
    (row l k)[i]? = some (l[i]?) := by
  rw [row, List.getElem?_append_left (by simpa using h), List.getElem?_map]
  simp [h]

theorem row_getElem?_ge {l : List (Obj α)} {k i : Nat} (h : l.length ≤ i) (hk : i < l.length + k) :
    (row l k)[i]? = some none := by
  rw [row, List.getElem?_append_right (by simpa using h), List.getElem?_replicate, List.length_map,
    if_pos (by omega)]

theorem row_set_snoc (l : List (Obj α)) (k : Nat) (o : Obj α) :
    (row l (k + 1)).set l.length (some o) = row (l ++ [o]) k := by
  rw [row, List.set_append_right _ _ (by simp), List.length_map, Nat.sub_self]
  simp [row, List.replicate_succ]

theorem row_set_last (l : List (Obj α)) (k : Nat) (o : Obj α) :
    (row (l ++ [o]) k).set l.length none = row l (k + 1) := by
  rw [row, List.set_append_left _ _ (by simp), List.map_append, List.set_append_right _ _ (by simp)]
  simp [row, List.replicate_succ]

theorem row_set_val {l : List (Obj α)} {k i : Nat} {o : Obj α} (h : i < l.length) :
    (row l k).set i (some o) = row (l.set i o) k := by
  rw [row, List.set_append_left _ _ (by simpa using h), row, List.map_set]

section
variable {h : Heap α A} {b k : Nat} {al : A} {l : List (Obj α)}

theorem at?_row (hb : h.bufs b = some ⟨al, row l k⟩) (i : Nat) : h.at? b i = l[i]? := by
  rw [at?_eq hb]
  rcases Nat.lt_or_ge i l.length with hi | hi
  · rw [row_getElem?_lt hi]; rfl
  · rw [List.getElem?_eq_none hi]
    rcases Nat.lt_or_ge i (l.length + k) with hk | hk
    · rw [row_getElem?_ge hi hk]; rfl
    · rw [List.getElem?_eq_none (by simpa using hk)]; rfl

/-- Constructing behind the last object. -/
theorem construct_row (hb : h.bufs b = some ⟨al, row l (k + 1)⟩) (v : α) :
    h.construct b l.length v = some { h with
      bufs := Function.update h.bufs b (some ⟨al, row (l ++ [⟨h.nextObj, v⟩]) k⟩)
      nextObj := h.nextObj + 1 } := by
  have hs : (row l (k + 1))[l.length]? = some none := row_getElem?_ge (Nat.le_refl _) (by omega)
  simp only [construct, hb, hs, setSlots, row_set_snoc]

/-- Destroying the last object. -/
theorem destroy_row {o : Obj α} (hb : h.bufs b = some ⟨al, row (l ++ [o]) k⟩) :
    h.destroy b l.length = some { h with
      bufs := Function.update h.bufs b (some ⟨al, row l (k + 1)⟩),
      destroyed := o.id :: h.destroyed } := by
  have hs : (row (l ++ [o]) k)[l.length]? = some (some o) := by
    rw [row_getElem?_lt (by simp)]; simp
  simp only [destroy, hb, hs, setSlots, row_set_last]

theorem setVal_row {i : Nat} {o : Obj α} (hb : h.bufs b = some ⟨al, row l k⟩) (hi : l[i]? = some o)
    (v : α) :
    h.setVal b i v = some { h with
      bufs := Function.update h.bufs b (some ⟨al, row (l.set i { o with val := v }) k⟩) } := by
  have hlt := (List.getElem?_eq_some_iff.mp hi).1
  have hs : (row l k)[i]? = some (some o) := by rw [row_getElem?_lt hlt, hi]
  simp only [setVal, hb, hs, setSlots, row_set_val hlt]

theorem deallocate_row {equal : A → Bool} (hb : h.bufs b = some ⟨al, row [] k⟩)
    (he : equal al = true) :
    h.deallocate equal b k = some { h with bufs := Function.update h.bufs b none } := by
  simp [deallocate, hb, he]

end

end Heap

end Gpcl.Lib.Objects
