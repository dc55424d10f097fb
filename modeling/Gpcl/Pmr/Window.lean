import Gpcl.Pmr.MonotonicUse

/-! # The window of a monotonic_buffer_resource

`release` gives the blocks back and leaves `buffer` as it is. So the window stays
inside memory the resource may hand out exactly as long as no `release` with blocks
to give back finds a window that is not used up. -/
namespace Gpcl.Pmr.Monotonic
open Lib.Memory Lib.Chain Lib.Runs

/-- A step in which no size computation wraps. -/
def FitStep (w : World) (op : Op) (w' : World) : Prop := op.Fits w ∧ Step w op w'

theorem start_inv : World.start.Inv := fun s hs => by simp [World.start] at hs

theorem fitStep_deterministic : Deterministic FitStep :=
  fun _ _ _ _ h₁ h₂ => Option.some.inj (h₁.2.2.symm.trans h₂.2.2)

/-- **Along a run the window always lies in the user's buffer or in a block that is held, if
and only if every `release` of the run is clean.** -/
theorem windowHeld_iff_clean {ops : List Op} {w : World} (h : Run FitStep World.start ops w) :
    (∀ pre post v, ops = pre ++ post → Run FitStep World.start pre v → WindowHeld v) ↔
      (∀ pre op post v, ops = pre ++ op :: post → Run FitStep World.start pre v → op.Clean v) := by
  have hstep : ∀ t op u, t.Inv → FitStep t op u → (op.Clean t → u.Inv) ∧
      (¬ op.Clean t → ¬ WindowHeld u) := by
    intro t op u ht ⟨hf, ha, he⟩
    obtain ⟨u', hu', hspec⟩ := ht.exec_spec ha hf
    obtain rfl := Option.some.inj (he.symm.trans hu')
    exact hspec
  refine h.always_iff (J := World.Inv) fitStep_deterministic start_inv
    (fun _ => World.Inv.windowHeld) ?_ ?_
  · exact fun t op u ht hs => (hstep t op u ht hs).1
  · exact fun t op u ht hs => (hstep t op u ht hs).2

/-- The resource on a buffer of its user, released before it needed a block. -/
theorem windowHeld_user_buffer : ∃ w, Run FitStep World.start
    [.ofBuffer (fun _ => 0) 4096 64, .release fun m _ => m] w ∧ WindowHeld w := by
  have ha₁ : Op.Allowed World.start (.ofBuffer (fun _ => 0) 4096 64) := ⟨rfl, by decide, by decide⟩
  obtain ⟨w₁, he₁, hi₁, -⟩ := start_inv.exec_spec ha₁ trivial
  have hw₁ : w₁ = ⟨some ⟨⟨4096, 64⟩, 1024, ⟨0, 0, 0⟩, fun _ => 0, []⟩, ⟨4096, 64⟩, []⟩ :=
    Option.some.inj (he₁.symm.trans rfl)
  have ha₂ : Op.Allowed w₁ (.release fun m _ => m) :=
    ⟨by rw [hw₁]; rfl, fun m r => Outside.refl _ m⟩
  obtain ⟨w₂, he₂, -⟩ := (hi₁ trivial).exec_spec ha₂ trivial
  have hr₁ : Run FitStep World.start [.ofBuffer (fun _ => 0) 4096 64] w₁ :=
    Run.single ⟨trivial, ha₁, he₁⟩
  have hr : Run FitStep World.start [.ofBuffer (fun _ => 0) 4096 64, .release fun m _ => m] w₂ :=
    hr₁.snoc ⟨trivial, ha₂, he₂⟩
  refine ⟨w₂, hr, (windowHeld_iff_clean hr).mpr ?_ _ [] w₂ (by simp) hr⟩
  have hclean : Op.Clean w₁ (.release fun m _ => m) := fun s hs => by
    rw [hw₁] at hs
    exact .inl (Option.some.inj hs ▸ rfl)
  refine hr₁.steps_snoc fitStep_deterministic (G := fun v op => Op.Clean v op) ?_ hclean
  exact Run.nil.steps_snoc fitStep_deterministic steps_nil trivial

/-- After `release` the window is a block that was given back, and the next allocation comes
from it. -/
theorem allocate_after_release : ∃ w s, Run FitStep World.start
    [.ofSize (fun _ => 0) (fun _ _ => some 4096) 64, .release fun m _ => m,
      .allocate (fun _ _ => none) 8 8] w ∧
    w.res = some s ∧ s.held = [] ∧ w.live = [⟨4096, 8, 8⟩] ∧ ¬ WindowHeld w := by
  have ha₁ : Op.Allowed World.start (.ofSize (fun _ => 0) (fun _ _ => some 4096) 64) := by
    refine ⟨rfl, by decide, by decide, fun p hp => ?_⟩
    obtain rfl := Option.some.inj hp
    exact ⟨by decide, by decide, by decide, by decide, by simp⟩
  have hf₁ : Op.Fits World.start (.ofSize (fun _ => 0) (fun _ _ => some 4096) 64) :=
    (by decide : sizeofBlockInfo + 64 < addressSpace)
  obtain ⟨w₁, he₁, hi₁, -⟩ := start_inv.exec_spec ha₁ hf₁
  have hw₁ : w₁ = ⟨some ⟨⟨4096, 64⟩, 128, ⟨4096, 64, 16⟩, storeInfo (fun _ => 0) 4160 ⟨0, 0, 0⟩,
      [⟨4096, 88, 16⟩]⟩, ⟨0, 0⟩, []⟩ := Option.some.inj (he₁.symm.trans rfl)
  have ha₂ : Op.Allowed w₁ (.release fun m _ => m) :=
    ⟨by rw [hw₁]; rfl, fun m r => Outside.refl _ m⟩
  obtain ⟨m, hrel⟩ := (hi₁ trivial _ (by rw [hw₁])).release_spec ha₂.2
  have he₂ : w₁.exec (.release fun m _ => m) =
      some ⟨some ⟨⟨4096, 64⟩, 128, ⟨0, 0, 0⟩, m, []⟩, ⟨0, 0⟩, []⟩ := by
    rw [hw₁]
    simp [World.exec, hrel]
  have he₃ : World.exec ⟨some ⟨⟨4096, 64⟩, 128, ⟨0, 0, 0⟩, m, []⟩, ⟨0, 0⟩, []⟩
      (.allocate (fun _ _ => none) 8 8) =
        some ⟨some ⟨⟨4104, 56⟩, 128, ⟨0, 0, 0⟩, m, []⟩, ⟨0, 0⟩, [⟨4096, 8, 8⟩]⟩ := by
    simp [World.exec, allocate, doAllocate, allocFromBuffer, advance, liveAfter]
  refine ⟨_, _, ((Run.single ⟨hf₁, ha₁, he₁⟩).snoc ⟨trivial, ha₂, he₂⟩).snoc ⟨?_, ?_, he₃⟩, rfl,
    rfl, rfl, ?_⟩
  · intro s hs h0
    obtain rfl := Option.some.inj hs
    simp [allocFromBuffer, advance] at h0
  · refine ⟨_, rfl, by decide, by decide, fun h0 => ?_⟩
    simp [allocFromBuffer, advance] at h0
  · intro hw
    rcases hw _ rfl with h | h | ⟨g, hg, -⟩
    · exact absurd h (by decide : (56 : Nat) ≠ 0)
    · exact absurd h.2 (by decide : ¬ 4104 + 56 ≤ 0 + 0)
    · simp at hg

end Gpcl.Pmr.Monotonic
