import Gpcl.Storage.Use

/-! # Safety of the free list

Over every run of allowed operations the free list is finite and acyclic, its
chunks lie inside the added blocks and overlap neither one another nor anything
that is handed out, and `malloc_n` hands out adjacent chunks that leave the list. -/
namespace Gpcl.Storage
open Lib.Memory Lib.Chain Lib.Runs

theorem wordSize_le {psz : Nat} (h0 : 0 < psz) (hw : wordSize ∣ psz) : wordSize ≤ psz :=
  Nat.le_of_dvd h0 hw

theorem Spread.nodup {psz : Nat} (h0 : 0 < psz) {l : List Nat} (h : Spread psz l) : l.Nodup := by
  refine h.imp fun {c d} hd he => ?_
  simp only [Region.Disjoint, Region.stop, chunk] at hd
  omega

/-- A run that is handed out meets no free chunk. -/
theorem Inv.disjoint_live {psz : Nat} {w : World} {l : List Nat} (h : Inv psz w l) (h0 : 0 < psz)
    {g : Nat × Nat} (hg : g ∈ w.live) {c : Nat} (hc : c ∈ l) :
    (chunk psz c).Disjoint (grant psz g) := by
  have := (h.grant_placed h0 hg).2.2.2 c hc
  rwa [Nat.mul_comm] at this

/-- The chunks a non-null result of `malloc_n` stands for were free and are so no more. -/
theorem Inv.mallocN_chunks {psz : Nat} {w w' : World} {l : List Nat} (h : Inv psz w l)
    (h8 : wordSize ≤ psz) {n p : Nat} (hn : n < addressSpace)
    (he : w.exec psz (.mallocN n) = some (w', p)) (hp : p ≠ 0) :
    ∃ l', FreeChunks w'.st l' ∧ ∀ c ∈ chunks psz p n, c ∈ l ∧ c ∉ l' := by
  obtain ⟨l', heff, hi, -⟩ := h.exec_cases h8 (show Op.Allowed psz w (.mallocN n) from hn) he
  refine ⟨l', hi.threads.path, fun c hc => ?_⟩
  cases heff with
  | mallocNull _ => exact absurd rfl hp
  | @mallocN _ _ pre post _ _ =>
    have hnd := h.threads.spread.nodup (pos_of_wordSize_le h8)
    rw [List.append_assoc] at hnd
    obtain ⟨-, hnr, hpre⟩ := List.nodup_append.mp hnd
    obtain ⟨-, -, hpost⟩ := List.nodup_append.mp hnr
    refine ⟨by simp [hc], fun hm => ?_⟩
    rcases List.mem_append.mp hm with hm | hm
    · exact hpre c hm c (List.mem_append_left _ hc) rfl
    · exact hpost c hc c hm rfl

/-- **The free list is safe over every run.** -/
theorem free_list_safe {psz : Nat} (h0 : 0 < psz) (hw : wordSize ∣ psz) {m : Mem} {ops : List Op}
    {w : World} (h : Run (Step psz) (World.start m) ops w) :
    (∃ l, FreeChunks w.st l ∧ l.Nodup ∧ (∀ c ∈ l, ∃ r ∈ w.blocks, (chunk psz c).Inside r) ∧
      l.Pairwise (fun c d => (chunk psz c).Disjoint (chunk psz d)) ∧
      ∀ c ∈ l, ∀ g ∈ w.live, (chunk psz c).Disjoint (grant psz g)) ∧
    (∀ op : Op, op.Allowed psz w → ∃ w' p, w.exec psz op = some (w', p)) ∧
    (∀ n w' p, n < addressSpace → w.exec psz (.mallocN n) = some (w', p) → p ≠ 0 →
      ∃ l l', FreeChunks w.st l ∧ FreeChunks w'.st l' ∧ ∀ c ∈ chunks psz p n, c ∈ l ∧ c ∉ l') := by
  have h8 := wordSize_le h0 hw
  obtain ⟨l, hl⟩ := inv_run h8 h
  refine ⟨⟨l, hl.threads.path, hl.threads.spread.nodup h0, ?_, hl.threads.spread, ?_⟩, ?_, ?_⟩
  · exact fun c hc => hl.laid.inside c (List.mem_append_left _ hc)
  · exact fun c hc g hg => hl.disjoint_live h0 hg hc
  · intro op ha
    obtain ⟨st, p, -, hrun, -⟩ := hl.exec_spec h8 ha
    exact ⟨_, p, hrun⟩
  · intro n w' p hn he hp
    obtain ⟨l', hl', hc⟩ := hl.mallocN_chunks h8 hn he hp
    exact ⟨l, l', hl.threads.path, hl', hc⟩

/-- An array is taken from a block of 256 bytes. -/
theorem free_list_safe_array : ∃ w, Run (Step 16) (World.start fun _ => 0)
    [.addBlock 4096 256, .mallocN 2] w ∧
    ∃ l, FreeChunks w.st l ∧ l.Nodup ∧ (∀ c ∈ l, ∃ r ∈ w.blocks, (chunk 16 c).Inside r) ∧
      l.Pairwise (fun c d => (chunk 16 c).Disjoint (chunk 16 d)) ∧
      ∀ c ∈ l, ∀ g ∈ w.live, (chunk 16 c).Disjoint (grant 16 g) := by
  obtain ⟨w₁, -, l₁, hs₁, -, hi₁, -⟩ := (inv_start 16 fun _ => 0).progress (by decide)
    (show Op.Allowed 16 _ (.addBlock 4096 256) from
      ⟨by decide, by decide, by decide, by simp [World.start]⟩)
  obtain ⟨w₂, -, l₂, hs₂, -⟩ := hi₁.progress (by decide)
    (show Op.Allowed 16 _ (.mallocN 2) from (by decide : 2 < addressSpace))
  have hr := (Run.single hs₁).snoc hs₂
  exact ⟨_, hr, (free_list_safe (by decide) (by decide) hr).1⟩

end Gpcl.Storage
