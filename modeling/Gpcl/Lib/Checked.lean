import Mathlib.Tactic.Common

/-! # Computations with assertions

A checked computation returns a value, stops at a check that fails, or runs forever. The computation
without the reasons of its failures is an `Option`, in which both a failure and an endless loop are
`none`. -/
namespace Gpcl.Lib

abbrev Checked (ε α : Type) := ExceptT ε Option α

namespace Checked

variable {ε α β : Type}

def check (e : ε) (p : Prop) [Decidable p] : Checked ε Unit := if p then pure () else throw e

/-- A loop that checks nothing: `none` runs forever. -/
def loop (o : Option α) : Checked ε α := ExceptT.mk (o.map .ok)

/-- What is missing is a failure. -/
def orFail (e : ε) (o : Option α) : Checked ε α := ExceptT.mk (some (o.elim (.error e) .ok))

def Fails (x : Checked ε α) : Prop := ∃ e, x.run = some (.error e)

def Returns (x : Checked ε α) (a : α) : Prop := x.run = some (.ok a)

/-- The checked computation fails, or it does what the other one does. -/
def Agrees (x : Checked ε α) (o : Option α) : Prop := Fails x ∨ x.run = o.map .ok

section
variable {x : Checked ε α} {f : α → Checked ε β} {o : Option α} {g : α → Option β} {a a' : α}
    {b : β} {e : ε} {p : Prop} [Decidable p]

theorem run_bind (x : Checked ε α) (f : α → Checked ε β) :
    (x >>= f).run = x.run.bind fun r =>
      match r with | .ok a => (f a).run | .error e => some (.error e) := by
  show x.run.bind _ = _
  congr 1

theorem returns_pure : Returns (pure a : Checked ε α) a' ↔ a = a' := by
  constructor
  · intro h
    exact Except.ok.inj (Option.some.inj h)
  · rintro rfl
    rfl

theorem not_fails_pure (a : α) : ¬ Fails (pure a : Checked ε α) := by
  rintro ⟨e, ⟨⟩⟩

theorem returns_bind : Returns (x >>= f) b ↔ ∃ a, Returns x a ∧ Returns (f a) b := by
  rw [Returns, run_bind]
  cases hx : x.run with
  | none => simp [Returns, hx]
  | some r =>
    cases r with
    | error e => simp [Returns, hx]
    | ok a => simp [Returns, hx]

theorem fails_bind : Fails (x >>= f) ↔ Fails x ∨ ∃ a, Returns x a ∧ Fails (f a) := by
  rw [Fails, run_bind]
  cases hx : x.run with
  | none => simp [Fails, Returns, hx]
  | some r =>
    cases r with
    | error e => simp [Fails, Returns, hx]
    | ok a => simp [Fails, Returns, hx]

theorem fails_check : Fails (check e p) ↔ ¬ p := by
  rw [check]
  split
  · exact iff_of_false (not_fails_pure ()) (not_not_intro ‹p›)
  · exact iff_of_true ⟨e, rfl⟩ ‹¬ p›

theorem returns_check {u : Unit} : Returns (check e p) u ↔ p := by
  rw [check]
  split
  · exact iff_of_true rfl ‹p›
  · exact iff_of_false nofun ‹¬ p›

theorem not_fails_loop (o : Option α) : ¬ Fails (loop o : Checked ε α) := by
  rintro ⟨e, he⟩
  cases o <;> cases he

theorem returns_loop : Returns (loop o : Checked ε α) a ↔ o = some a := by
  cases o with
  | none => exact iff_of_false nofun nofun
  | some a' => exact returns_pure.trans (Option.some.injEq _ _).symm.to_iff

theorem fails_orFail : Fails (orFail e o) ↔ o = none := by
  cases o with
  | none => exact iff_of_true ⟨e, rfl⟩ rfl
  | some a => exact iff_of_false (not_fails_pure a) nofun

theorem returns_orFail : Returns (orFail e o) a ↔ o = some a := by
  cases o with
  | none => exact iff_of_false nofun nofun
  | some a' => exact returns_pure.trans (Option.some.injEq _ _).symm.to_iff

/-! ## Agreement -/

theorem agrees_pure (a : α) : Agrees (pure a : Checked ε α) (some a) := .inr rfl

theorem agrees_check (e : ε) (p : Prop) [Decidable p] : Agrees (check e p) (guard p) := by
  by_cases hp : p
  · exact .inr (by simp only [check, guard, hp, if_true]; rfl)
  · exact .inl (fails_check.mpr hp)

theorem agrees_loop (o : Option α) : Agrees (loop o : Checked ε α) o := .inr rfl

theorem agrees_orFail (e : ε) (o : Option α) : Agrees (orFail e o) o := by
  cases o with
  | none => exact .inl ⟨e, rfl⟩
  | some a => exact .inr rfl

theorem Agrees.bind (h : Agrees x o) (hf : ∀ a, Agrees (f a) (g a)) :
    Agrees (x >>= f) (o.bind g) := by
  rcases h with hx | hx
  · exact .inl (fails_bind.mpr (.inl hx))
  · cases o with
    | none =>
      right
      rw [run_bind, hx]
      rfl
    | some a =>
      rcases hf a with ha | ha
      · exact .inl (fails_bind.mpr (.inr ⟨a, hx, ha⟩))
      · right
        rw [run_bind, hx]
        exact ha

/-- A further check. -/
theorem Agrees.check_bind (e : ε) (h : Agrees x o) : Agrees (check e p >>= fun _ => x) o := by
  by_cases hp : p
  · have hrun : (check e p >>= fun _ => x).run = x.run := by
      rw [run_bind, check, if_pos hp]
      rfl
    rwa [Agrees, Fails, hrun]
  · exact .inl (fails_bind.mpr (.inl (fails_check.mpr hp)))

/-- What is returned. -/
theorem Agrees.eq_some (h : Agrees x o) (hr : Returns x a) : o = some a := by
  rcases h with ⟨e, he⟩ | hx
  · cases he.symm.trans hr
  · have hmap : o.map Except.ok = some (.ok a : Except ε α) := hx.symm.trans hr
    obtain ⟨a', ha', he⟩ := Option.map_eq_some_iff.mp hmap
    rw [ha', Except.ok.inj he]

/-- What the other computation returns is returned. -/
def Follows (x : Checked ε α) (o : Option α) : Prop := ∀ a, o = some a → Returns x a

theorem follows_pure (a : α) : Follows (pure a : Checked ε α) (some a) :=
  fun _ h => returns_pure.mpr (Option.some.inj h)

theorem follows_check (e : ε) (p : Prop) [Decidable p] : Follows (check e p) (guard p) := by
  intro u h
  rw [returns_check]
  by_contra hp
  simp [guard, hp] at h

theorem follows_loop (o : Option α) : Follows (loop o : Checked ε α) o := fun _ => returns_loop.mpr

theorem Follows.bind (h : Follows x o) (hf : ∀ a, o = some a → Follows (f a) (g a)) :
    Follows (x >>= f) (o.bind g) := by
  intro b hb
  obtain ⟨a, ha, hb⟩ := Option.bind_eq_some_iff.mp hb
  exact returns_bind.mpr ⟨a, h a ha, hf a ha b hb⟩

theorem Returns.not_fails (h : Returns x a) : ¬ Fails x := by
  rintro ⟨e, he⟩
  cases h.symm.trans he

end

end Checked

end Gpcl.Lib
