import Mathlib.Logic.Function.Basic
import Mathlib.Tactic.Common

/-! # Objects and their owners

Objects are numbered in the order of their construction. An owner has one object at most, and a
ledger says which, and how often each object has been destroyed. In a sound ledger no object has
two owners, and the objects without one are those that have been destroyed, once. -/
namespace Gpcl.Lib.Owners

variable {I : Type}

structure Ledger (I : Type) where
  owns : I → Option Nat
  made : Nat
  destroyed : Nat → Nat

structure Ledger.Sound (g : Ledger I) : Prop where
  unshared : ∀ v w o, g.owns v = some o → g.owns w = some o → v = w
  constructed : ∀ v o, g.owns v = some o → o < g.made
  alive : ∀ v o, g.owns v = some o → g.destroyed o = 0
  once : ∀ o < g.made, (∀ v, g.owns v ≠ some o) → g.destroyed o = 1
  unmade : ∀ o, g.made ≤ o → g.destroyed o = 0

theorem Ledger.sound_empty : (⟨fun _ => none, 0, fun _ => 0⟩ : Ledger I).Sound where
  unshared := nofun
  constructed := nofun
  alive := nofun
  once _ ho := nomatch ho
  unmade _ _ := rfl

variable [DecidableEq I]

/-- A new object for `v`. -/
def Ledger.make (v : I) (g : Ledger I) : Ledger I :=
  ⟨Function.update g.owns v (some g.made), g.made + 1, g.destroyed⟩

/-- `v` has no object any more. -/
def Ledger.release (v : I) (g : Ledger I) : Ledger I :=
  { g with owns := Function.update g.owns v none }

/-- The object of `v` is destroyed. -/
def Ledger.destroy (v : I) (g : Ledger I) : Ledger I :=
  match g.owns v with
  | some o => { g.release v with destroyed := Function.update g.destroyed o (g.destroyed o + 1) }
  | none => g

variable {g : Ledger I} {v w : I} {o : Nat}

theorem Ledger.release_of_none (h : g.owns v = none) : g.release v = g := by
  unfold Ledger.release
  rw [← h, Function.update_eq_self]

theorem Ledger.destroy_owns (g : Ledger I) (v : I) : (g.destroy v).owns v = none := by
  unfold Ledger.destroy
  split
  · exact Function.update_self _ _ _
  · next h => exact h

namespace Ledger.Sound

theorem make (hg : g.Sound) (hv : g.owns v = none) : (g.make v).Sound := by
  have howns : ∀ {w o}, (g.make v).owns w = some o → (w = v ∧ o = g.made) ∨
      (w ≠ v ∧ g.owns w = some o) := fun {w o} h => by
    change Function.update g.owns v (some g.made) w = some o at h
    by_cases hw : w = v
    · rw [hw, Function.update_self] at h
      exact .inl ⟨hw, (Option.some.inj h).symm⟩
    · rw [Function.update_of_ne hw] at h
      exact .inr ⟨hw, h⟩
  refine ⟨fun a b o ha hb => ?_, fun a o ha => ?_, fun a o ha => ?_, fun o ho hno => ?_,
    fun o ho => hg.unmade o ?_⟩
  · rcases howns ha with ⟨rfl, rfl⟩ | ⟨_, ha'⟩
    · rcases howns hb with ⟨rfl, _⟩ | ⟨_, hb'⟩
      · rfl
      · exact absurd (hg.constructed b _ hb') (Nat.lt_irrefl _)
    · rcases howns hb with ⟨rfl, rfl⟩ | ⟨_, hb'⟩
      · exact absurd (hg.constructed a _ ha') (Nat.lt_irrefl _)
      · exact hg.unshared a b o ha' hb'
  · rcases howns ha with ⟨_, rfl⟩ | ⟨_, ha⟩
    · exact Nat.lt_succ_self _
    · exact Nat.lt_succ_of_lt (hg.constructed a o ha)
  · rcases howns ha with ⟨_, rfl⟩ | ⟨_, ha⟩
    · exact hg.unmade _ (Nat.le_refl _)
    · exact hg.alive a o ha
  · have hne : o ≠ g.made := fun he => hno v (by rw [he]; exact Function.update_self _ _ _)
    refine hg.once o (Nat.lt_of_le_of_ne (Nat.le_of_lt_succ ho) hne) fun a ha => hno a ?_
    have hav : a ≠ v := fun he => by
      rw [he, hv] at ha
      cases ha
    exact (Function.update_of_ne hav _ _).trans ha
  · exact Nat.le_of_succ_le ho

theorem destroy (hg : g.Sound) (v : I) : (g.destroy v).Sound := by
  unfold Ledger.destroy
  cases hv : g.owns v with
  | none => exact hg
  | some o =>
    have howns : ∀ {w p}, (g.release v).owns w = some p → w ≠ v ∧ g.owns w = some p :=
        fun {w p} h => by
      change Function.update g.owns v none w = some p at h
      by_cases hw : w = v
      · rw [hw, Function.update_self] at h
        cases h
      · rw [Function.update_of_ne hw] at h
        exact ⟨hw, h⟩
    have hne : ∀ {w p}, (g.release v).owns w = some p → p ≠ o := fun h he =>
      (howns h).1 (hg.unshared _ v o (he ▸ (howns h).2) hv)
    refine ⟨fun a b p ha hb => hg.unshared a b p (howns ha).2 (howns hb).2,
      fun a p ha => hg.constructed a p (howns ha).2,
      fun a p ha => ?_, fun p hp hno => ?_, fun p hp => ?_⟩
    · show Function.update g.destroyed o (g.destroyed o + 1) p = 0
      rw [Function.update_of_ne (hne ha)]
      exact hg.alive a p (howns ha).2
    · show Function.update g.destroyed o (g.destroyed o + 1) p = 1
      by_cases hpo : p = o
      · rw [hpo, Function.update_self, hg.alive v o hv]
      · rw [Function.update_of_ne hpo]
        refine hg.once p hp fun a ha => hno a ?_
        have hav : a ≠ v := fun he => hpo (Option.some.inj ((he ▸ ha).symm.trans hv))
        exact (Function.update_of_ne hav _ _).trans ha
    · show Function.update g.destroyed o (g.destroyed o + 1) p = 0
      have hpo : p ≠ o := fun he => absurd (hg.constructed v o hv) (Nat.not_lt.mpr (he ▸ hp))
      rw [Function.update_of_ne hpo]
      exact hg.unmade p hp

omit [DecidableEq I] in
/-- An object that is given up without being destroyed is lost, whatever else happens to the
ledger. -/
theorem not_sound_of_lost (hg : g.Sound) (hv : g.owns v = some o) {g' : Ledger I}
    (hmade : g.made ≤ g'.made) (howns : ∀ w, w ≠ v → g'.owns w = g.owns w)
    (hv' : g'.owns v ≠ some o) (hd : g'.destroyed o = g.destroyed o) : ¬ g'.Sound := by
  intro hg'
  have hone := hg'.once o (Nat.lt_of_lt_of_le (hg.constructed v o hv) hmade) fun w hw => by
    by_cases hwv : w = v
    · exact hv' (hwv ▸ hw)
    · exact hwv (hg.unshared w v o ((howns w hwv) ▸ hw) hv)
  rw [hd, hg.alive v o hv] at hone
  cases hone

end Ledger.Sound

end Gpcl.Lib.Owners
