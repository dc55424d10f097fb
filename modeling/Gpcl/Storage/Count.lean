import Mathlib.Algebra.BigOperators.Group.List.Basic
import Gpcl.Storage.Safety

/-! # Conservation of chunks

`segregate` is documented to make as many chunks of a block as possible. Its loop
compares the end of the next chunk with the start of the last one, so a block
whose size is a multiple of the chunk size, at least two chunks long, loses its
last chunk. `free_n` and `ordered_free_n` give their chunks back through
`segregate` and so lose one chunk of every array of two or more. Nothing else
loses a chunk. -/
namespace Gpcl.Storage
open Lib.Memory Lib.Chain Lib.Runs

/-- The number of whole chunks in the blocks. -/
def capacity (psz : Nat) (blocks : List Region) : Nat := (blocks.map fun r => r.size / psz).sum

/-- The number of chunks that are handed out. -/
def handedOut (live : List (Nat × Nat)) : Nat := (live.map Prod.snd).sum

/-- The operations that lose a chunk. -/
def Op.lossy (psz : Nat) : Op → Bool
  | .addBlock _ sz | .addOrderedBlock _ sz => decide (psz ∣ sz ∧ 2 * psz ≤ sz)
  | .freeN _ n | .orderedFreeN _ n => decide (2 ≤ n)
  | _ => false

theorem segCount_eq {sz psz : Nat} (h0 : 0 < psz) (h : psz ≤ sz) :
    segCount sz psz + (if psz ∣ sz ∧ 2 * psz ≤ sz then 1 else 0) = sz / psz := by
  obtain ⟨r, hr⟩ : ∃ r, r = sz % psz := ⟨_, rfl⟩
  have hlt : r < psz := hr ▸ Nat.mod_lt _ h0
  obtain ⟨k, hk⟩ : ∃ k, sz / psz = k + 1 :=
    Nat.exists_eq_succ_of_ne_zero (Nat.ne_of_gt (Nat.div_pos h h0))
  have hsz : sz = psz * k + psz + r := by
    rw [hr, ← Nat.mul_succ, Nat.succ_eq_add_one, ← hk]; exact (Nat.div_add_mod sz psz).symm
  unfold segCount
  simp only [hk, Nat.dvd_iff_mod_eq_zero, ← hr]
  by_cases hz : r = 0
  · cases k with
    | zero => rw [if_neg (by omega), Nat.div_eq_of_lt (by omega)]
    | succ k =>
      rw [Nat.mul_succ] at hsz
      rw [if_pos (by omega), show sz - psz - 1 = psz - 1 + psz * k by omega,
        Nat.add_mul_div_left _ _ h0, Nat.div_eq_of_lt (by omega)]
      omega
  · rw [if_neg (by omega), show sz - psz - 1 = r - 1 + psz * k by omega,
      Nat.add_mul_div_left _ _ h0, Nat.div_eq_of_lt (by omega)]
    omega

theorem segCount_array {n psz : Nat} (h0 : 0 < psz) (hn : 0 < n) :
    segCount (psz * n) psz + (if 2 ≤ n then 1 else 0) = n := by
  have h := segCount_eq h0 (Nat.le_mul_of_pos_right psz hn)
  rw [Nat.mul_div_cancel_left n h0] at h
  have : (psz ∣ psz * n ∧ 2 * psz ≤ psz * n) ↔ 2 ≤ n := by
    rw [Nat.mul_comm 2, Nat.mul_le_mul_left_iff h0]
    exact ⟨fun h => h.2, fun h => ⟨Nat.dvd_mul_right _ _, h⟩⟩
  simpa only [this] using h

theorem handedOut_erase {live : List (Nat × Nat)} {g : Nat × Nat} (h : g ∈ live) :
    handedOut live = g.2 + handedOut (live.erase g) := by
  have := ((List.perm_cons_erase h).map Prod.snd).sum_eq
  simpa [handedOut] using this

theorem length_orderedInsert (p : Nat) (cs l : List Nat) :
    (orderedInsert p cs l).length = cs.length + l.length := by
  rw [(orderedInsert_perm p cs l).length_eq, List.length_append]

section
variable {psz : Nat} {w w' : World} {l l' : List Nat} {op : Op} {p : Nat}

/-- One operation moves chunks between the list and the clients, adds the chunks of a
new block, and loses one chunk if it is lossy. -/
theorem Inv.count_step (h : Inv psz w l) (h0 : 0 < psz) (ha : op.Allowed psz w)
    (he : Effect psz op p l l') :
    l'.length + handedOut (op.liveAfter p w.live) + (if op.lossy psz then 1 else 0) +
        capacity psz w.blocks =
      l.length + handedOut w.live + capacity psz (op.blocksAfter w.blocks) := by
  cases he with
  | @addBlock block sz l =>
    have := segCount_eq h0 ha.2.1
    simp only [Op.lossy, Op.liveAfter, Op.blocksAfter, capacity, List.map_cons, List.sum_cons,
      List.length_append, length_chunks, decide_eq_true_eq]
    omega
  | @addOrderedBlock block sz l =>
    have := segCount_eq h0 ha.2.1
    simp only [Op.lossy, Op.liveAfter, Op.blocksAfter, capacity, List.map_cons, List.sum_cons,
      length_orderedInsert, length_chunks, decide_eq_true_eq]
    omega
  | @malloc c l => simp [Op.lossy, Op.liveAfter, Op.blocksAfter, handedOut]; omega
  | mallocNull _ => simp [Op.lossy, Op.liveAfter, Op.blocksAfter]
  | @mallocN n p pre post hn hp =>
    simp [Op.lossy, Op.liveAfter, Op.blocksAfter, handedOut, hp]; omega
  | @free p l =>
    have := handedOut_erase ha
    simp [Op.lossy, Op.liveAfter, Op.blocksAfter]; omega
  | @freeN p n l =>
    have := handedOut_erase ha
    have hseg : segCount (psz * n) psz + (if 2 ≤ n then 1 else 0) = n :=
      segCount_array h0 (h.pos _ ha)
    simp only [Op.lossy, Op.liveAfter, Op.blocksAfter, List.length_append, length_chunks,
      decide_eq_true_eq]
    omega
  | @orderedFree p l =>
    have := handedOut_erase ha
    simp [Op.lossy, Op.liveAfter, Op.blocksAfter, length_orderedInsert]; omega
  | @orderedFreeN p n l =>
    have := handedOut_erase ha
    have hseg : segCount (psz * n) psz + (if 2 ≤ n then 1 else 0) = n :=
      segCount_array h0 (h.pos _ ha)
    simp only [Op.lossy, Op.liveAfter, Op.blocksAfter, length_orderedInsert, length_chunks,
      decide_eq_true_eq]
    omega
  | write => simp [Op.lossy, Op.liveAfter, Op.blocksAfter]

/-- Free chunks, chunks handed out and lossy operations add up to the capacity. -/
theorem count_run (h8 : wordSize ≤ psz) {m : Mem} {ops : List Op}
    (h : Run (Step psz) (World.start m) ops w) :
    ∃ l, Inv psz w l ∧
      l.length + handedOut w.live + ops.countP (Op.lossy psz) = capacity psz w.blocks := by
  have h0 : 0 < psz := pos_of_wordSize_le h8
  induction h with
  | nil => exact ⟨[], inv_start psz m, rfl⟩
  | @snoc ops t u op _ hs ih =>
    obtain ⟨l, hl, hcount⟩ := ih
    obtain ⟨p, l', he, hi, hb, hlive⟩ := hl.step_spec h8 hs
    refine ⟨l', hi, ?_⟩
    have := hl.count_step h0 hs.1 he
    rw [hb, hlive, List.countP_append, List.countP_singleton]
    omega

/-- Taking an array and giving it back keeps the set of free chunks if and only if
`segregate` makes as many chunks of it as it has. -/
theorem Inv.roundTrip_iff {w₂ : World} {l₁ l₂ : List Nat} {n q : Nat} (h : Inv psz w l)
    (h₂ : Inv psz w₂ l₂) (h0 : 0 < psz) (hp : p ≠ 0) (he₁ : Effect psz (.mallocN n) p l l₁)
    (hop : op = .freeN p n ∨ op = .orderedFreeN p n) (he₂ : Effect psz op q l₁ l₂) :
    (∀ c, c ∈ l₂ ↔ c ∈ l) ↔ n = 1 := by
  cases he₁ with
  | mallocNull _ => exact absurd rfl hp
  | @mallocN _ _ pre post hn _ =>
    have hperm : l₂.Perm (chunks psz p (segCount (psz * n) psz) ++ (pre ++ post)) := by
      rcases hop with rfl | rfl
      · cases he₂; exact List.Perm.refl _
      · cases he₂; exact orderedInsert_perm _ _ _
    have hmid : (pre ++ chunks psz p n ++ post).Perm (chunks psz p n ++ (pre ++ post)) := by
      rw [← List.append_assoc]; exact List.perm_append_comm.append_right _
    have hseg := segCount_array h0 hn
    have hnd := h.threads.spread.nodup h0
    have hnd₂ := h₂.threads.spread.nodup h0
    rw [← List.perm_ext_iff_of_nodup hnd₂ hnd]
    constructor
    · intro hp
      have := (hperm.symm.trans (hp.trans hmid)).length_eq
      simp only [List.length_append, length_chunks] at this
      split at hseg <;> omega
    · rintro rfl
      rw [if_neg (by decide), Nat.add_zero] at hseg
      rw [hseg] at hperm
      exact hperm.trans hmid.symm

end

/-- **Chunks are conserved over a run if and only if no operation of it is lossy; an array
that is taken and given back leaves the set of free chunks as it was if and only if it
is a single chunk.** -/
theorem conserved_iff_not_lossy {psz : Nat} (h0 : 0 < psz) (hw : wordSize ∣ psz) {m : Mem}
    {ops : List Op} {w : World} (h : Run (Step psz) (World.start m) ops w) :
    (∃ l, FreeChunks w.st l ∧ (l.length + handedOut w.live = capacity psz w.blocks ↔
      ∀ op ∈ ops, op.lossy psz = false)) ∧
    ∀ n p q op w₁ w₂, n < addressSpace → w.exec psz (.mallocN n) = some (w₁, p) → p ≠ 0 →
      (op = .freeN p n ∨ op = .orderedFreeN p n) → w₁.exec psz op = some (w₂, q) →
      ∃ l l₂, FreeChunks w.st l ∧ FreeChunks w₂.st l₂ ∧ ((∀ c, c ∈ l₂ ↔ c ∈ l) ↔ n = 1) := by
  have h8 := wordSize_le h0 hw
  obtain ⟨l, hl, hcount⟩ := count_run h8 h
  constructor
  · refine ⟨l, hl.threads.path, ?_⟩
    have hz : ops.countP (Op.lossy psz) = 0 ↔ ∀ op ∈ ops, op.lossy psz = false := by
      simp [List.countP_eq_zero]
    rw [← hz]
    omega
  · intro n p q op w₁ w₂ hn he₁ hp hop he₂
    obtain ⟨l₁, heff₁, hi₁, -, hlive⟩ :=
      hl.exec_cases h8 (show Op.Allowed psz w (.mallocN n) from hn) he₁
    have hmem : (p, n) ∈ w₁.live := by simp [hlive, Op.liveAfter, hp]
    have ha : op.Allowed psz w₁ := by rcases hop with rfl | rfl <;> exact hmem
    obtain ⟨l₂, heff₂, hi₂, -⟩ := hi₁.exec_cases h8 ha he₂
    exact ⟨l, l₂, hl.threads.path, hi₂.threads.path, hl.roundTrip_iff hi₂ h0 hp heff₁ hop heff₂⟩

/-- An array of two chunks is handed out, and a chunk that has been taken is given back. -/
theorem conserved_frees : ∃ w, Run (Step 16) (World.start fun _ => 0)
    [.addBlock 4096 72, .mallocN 2, .malloc, .orderedFree 4128] w ∧
    ∃ l, FreeChunks w.st l ∧ l.length + handedOut w.live = capacity 16 w.blocks := by
  obtain ⟨w₁, p₁, l₁, hs₁, he₁, hi₁, hb₁, hlive₁⟩ := (inv_start 16 fun _ => 0).progress (by decide)
    (show Op.Allowed 16 _ (.addBlock 4096 72) from
      ⟨by decide, by decide, by decide, by simp [World.start]⟩)
  cases he₁
  obtain ⟨w₂, hs₂, hi₂, -, hlive₂⟩ := hi₁.takesN (by decide) (by decide)
    (show findRun 2 16 [] [] _ = some ([], chunks 16 4096 2, [4128, 4144]) by decide)
  obtain ⟨w₃, hs₃, hi₃, -, hlive₃⟩ := hi₂.takes (by decide)
  obtain ⟨w₄, -, -, hs₄, -⟩ := hi₃.progress (by decide)
    (show Op.Allowed 16 w₃ (.orderedFree 4128) by simp [Op.Allowed, hlive₃])
  have hr := (((Run.single hs₁).snoc hs₂).snoc hs₃).snoc hs₄
  obtain ⟨l, hl, hiff⟩ := (conserved_iff_not_lossy (by decide) (by decide) hr).1
  exact ⟨w₄, hr, l, hl, hiff.mpr (by decide)⟩
/-- A block of 64 bytes holds four chunks of 16; three get on the list. -/
theorem chunk_lost_in_block : ∃ w, Run (Step 16) (World.start fun _ => 0) [.addBlock 4096 64] w ∧
    ∃ l, FreeChunks w.st l ∧ l.length + handedOut w.live ≠ capacity 16 w.blocks := by
  obtain ⟨w, p, l, hs, he, hi, hb, hlive⟩ := (inv_start 16 fun _ => 0).progress (by decide)
    (show Op.Allowed 16 _ (.addBlock 4096 64) from
      ⟨by decide, by decide, by decide, by simp [World.start]⟩)
  cases he
  refine ⟨w, Run.single hs, _, hi.threads.path, ?_⟩
  rw [hb, hlive]
  decide

end Gpcl.Storage
