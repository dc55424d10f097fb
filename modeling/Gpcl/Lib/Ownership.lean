import Mathlib.Data.Fintype.Card
import Mathlib.Data.Set.Finite.Basic
import Mathlib.Logic.Relation
import Mathlib.Order.WellFounded
import Mathlib.Tactic.Common

/-! # Ownership

A finite set of objects each of which is a root or has an owner in the set: following the owners
back leads from any of them to a root, or into a cycle. -/
namespace Gpcl.Lib.Ownership
open Relation

variable {α : Type*} {Owns : α → α → Prop} {Root : α → Prop} {S : Set α}

/-- There is no cycle among the owners. -/
def Acyclic (Owns : α → α → Prop) : Prop := ∀ a, ¬ TransGen Owns a a

/-- What is not held by a cycle is held by a root. -/
theorem root_or_cycle (hfin : S.Finite) (h : ∀ b ∈ S, Root b ∨ ∃ a ∈ S, Owns a b) {b : α}
    (hb : b ∈ S) :
    (∃ r, Root r ∧ ReflTransGen Owns r b) ∨ ∃ a, TransGen Owns a a ∧ ReflTransGen Owns a b := by
  refine Classical.or_iff_not_imp_right.mpr fun hcycle => ?_
  have : Finite S := hfin
  let Above := {a : S // ReflTransGen Owns a b}
  -- among the owners of `b` nothing owns itself, so that there is a first one
  let before : Above → Above → Prop := fun x y => TransGen Owns x.1.1 y.1.1
  have : IsTrans Above before := ⟨fun _ _ _ => TransGen.trans⟩
  have : Std.Irrefl before := ⟨fun x hx => hcycle ⟨x.1.1, hx, x.2⟩⟩
  obtain ⟨⟨⟨a, ha⟩, hab⟩, -, hfirst⟩ :=
    (Finite.wellFounded_of_trans_of_irrefl before).has_min Set.univ ⟨⟨⟨b, hb⟩, .refl⟩, trivial⟩
  obtain hroot | ⟨a', ha', howns⟩ := h a ha
  · exact ⟨a, hroot, hab⟩
  · exact absurd (.single howns) (hfirst ⟨⟨a', ha'⟩, .head howns hab⟩ trivial)

theorem root_of_acyclic (hfin : S.Finite) (h : ∀ b ∈ S, Root b ∨ ∃ a ∈ S, Owns a b)
    (hacyclic : Acyclic Owns) {b : α} (hb : b ∈ S) :
    ∃ r, Root r ∧ ReflTransGen Owns r b :=
  (root_or_cycle hfin h hb).resolve_right fun ⟨a, ha, _⟩ => hacyclic a ha

end Gpcl.Lib.Ownership
