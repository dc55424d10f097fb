import Gpcl.Pool.Reach

/-! # is_from

`is_from` looks for the block whose chunk area holds the pointer and takes every multiple of
the chunk size in it for a chunk. `segregate` stops one chunk earlier: behind the last chunk
of every block there is an address that `is_from` accepts. -/
namespace Gpcl.Pool
open Lib.Memory Lib.Chain Lib.Runs
open Storage (segCount chunks mem_chunks)

/-- The address right behind the last chunk of a block. -/
def endOfChunks (s : Pool) (r : Region) : Nat :=
  r.base + segCount (blockInfoOffset r.size) s.chunkSize * s.chunkSize

/-- What `is_from(p)` should return: whether `p` is the start of a chunk that a block was cut
into. -/
def TellsChunks (s : Pool) (p : Nat) : Prop :=
  ∃ b, s.isFrom p = some b ∧ (b = true ↔ ∃ r ∈ s.obtained, p ∈ s.carved r)

/-- A multiple of the chunk size inside the chunk area. -/
def Accepts (c p : Nat) (r : Region) : Prop := (chunkArea r).Contains p ∧ (p - r.base) % c = 0

/-- The loop finds the block that holds the pointer, if there is one. -/
theorem isFromLoop_spec {c p : Nat} {m : Mem} : ∀ {bs : List Region} {b : BlockInfo}, Blocks bs →
    Path (nextInfo m) ⟨0, 0⟩ b (bs.map info) ⟨0, 0⟩ →
    ∃ a, isFromLoop c m p b = some a ∧ (a = true ↔ ∃ r ∈ bs, Accepts c p r)
  | [], b, _, hp => by
    obtain rfl : b = ⟨0, 0⟩ := hp
    rw [isFromLoop, if_pos rfl]
    exact ⟨false, rfl, by simp⟩
  | r :: bs, b, hbs, hp => by
    obtain ⟨hb, -, hp⟩ := hp
    have hb' : b = info r := hb
    subst hb'
    have hpos : (info r).ptr ≠ 0 := Nat.ne_of_gt (hbs.placed r List.mem_cons_self).1
    have hrest : Blocks bs :=
      ⟨fun r' hr' => hbs.placed r' (List.mem_cons_of_mem _ hr'),
        (List.pairwise_cons.mp hbs.apart).2⟩
    rw [isFromLoop, if_neg hpos]
    by_cases hin : (chunkArea r).Contains p
    · refine ⟨_, if_pos hin, ?_⟩
      -- the chunk areas of the other blocks do not hold it
      have hother : ∀ r' ∈ bs, ¬ Accepts c p r' := by
        intro r' hr' ⟨hin', _⟩
        obtain ⟨-, hs, hz⟩ := hbs.placed r List.mem_cons_self
        obtain ⟨-, hs', hz'⟩ := hbs.placed r' (List.mem_cons_of_mem _ hr')
        have hd := ((List.pairwise_cons.mp hbs.apart).1 r' hr').mono (chunkArea_inside hz hs)
          (chunkArea_inside hz' hs')
        simp only [Region.Disjoint, Region.Contains] at *
        omega
      simp only [beq_iff_eq, List.mem_cons, exists_eq_or_imp]
      constructor
      · intro he
        exact .inl ⟨hin, he⟩
      · rintro (⟨-, he⟩ | ⟨r', hr', ha⟩)
        · exact he
        · exact absurd ha (hother r' hr')
    · obtain ⟨a, ha, hiff⟩ := isFromLoop_spec hrest hp
      refine ⟨a, (if_neg hin).trans ha, ?_⟩
      rw [hiff]
      simp only [List.mem_cons, exists_eq_or_imp]
      constructor
      · exact .inr
      · rintro (⟨hin', -⟩ | hex)
        · exact absurd hin' hin
        · exact hex

section
variable {s : Pool} {live : List (Nat × Nat)} {l : List Nat} {p : Nat}

/-- In a block `is_from` accepts its chunks, and the address behind them if it lies in the chunk
area. -/
theorem accepts_iff {r : Region} (hc : 0 < s.chunkSize)
    (hroom : s.chunkSize ≤ blockInfoOffset r.size) :
    Accepts s.chunkSize p r ↔ p ∈ s.carved r ∨ (chunkArea r).Contains p ∧ p = s.endOfChunks r := by
  have hcount : ∀ i, i * s.chunkSize < blockInfoOffset r.size →
      i ≤ segCount (blockInfoOffset r.size) s.chunkSize := by
    intro i hi
    cases i with
    | zero => exact Nat.zero_le _
    | succ i =>
      rw [segCount, Nat.add_le_add_iff_right, Nat.le_div_iff_mul_le hc]
      rw [Nat.succ_mul] at hi
      omega
  constructor
  · rintro ⟨⟨hlo, hhi⟩, hmod⟩
    have hlo : r.base ≤ p := hlo
    have hdiv := Nat.div_add_mod (p - r.base) s.chunkSize
    rw [hmod, Nat.mul_comm] at hdiv
    have hle := hcount ((p - r.base) / s.chunkSize)
      (by simp only [Region.stop, chunkArea] at hhi; omega)
    rcases Nat.lt_or_eq_of_le hle with hlt | he
    · exact .inl (mem_chunks.mpr ⟨_, hlt, by omega⟩)
    · refine .inr ⟨⟨hlo, hhi⟩, ?_⟩
      rw [he] at hdiv
      rw [endOfChunks]
      omega
  · rintro (hp | ⟨hin, rfl⟩)
    · obtain ⟨hlo, hhi⟩ := Storage.chunk_inside_block hroom hp
      obtain ⟨i, -, rfl⟩ := mem_chunks.mp hp
      refine ⟨⟨Nat.le_add_right _ _, Nat.lt_of_lt_of_le ?_ hhi⟩, ?_⟩
      · exact Nat.lt_add_of_pos_right hc
      · rw [Nat.add_sub_cancel_left, Nat.mul_mod_left]
    · refine ⟨hin, ?_⟩
      rw [endOfChunks, Nat.add_sub_cancel_left, Nat.mul_mod_left]

/-- `is_from` is wrong about the addresses behind the chunks of the blocks, and about no other. -/
theorem Inv.tellsChunks_iff (h : Inv s live l) :
    s.TellsChunks p ↔ ∀ r ∈ s.obtained, (chunkArea r).Contains p → p ≠ s.endOfChunks r := by
  obtain ⟨a, ha, hiff⟩ := isFromLoop_spec (c := s.chunkSize) (p := p) h.blocks h.chain
  have hcases : a = true ↔ (∃ r ∈ s.obtained, p ∈ s.carved r) ∨
      ∃ r ∈ s.obtained, (chunkArea r).Contains p ∧ p = s.endOfChunks r := by
    rw [hiff]
    constructor
    · rintro ⟨r, hr, hacc⟩
      rcases (accepts_iff h.chunkSize_pos (h.roomy r hr)).mp hacc with hp | hp
      · exact .inl ⟨r, hr, hp⟩
      · exact .inr ⟨r, hr, hp⟩
    · rintro (⟨r, hr, hp⟩ | ⟨r, hr, hp⟩)
      · exact ⟨r, hr, (accepts_iff h.chunkSize_pos (h.roomy r hr)).mpr (.inl hp)⟩
      · exact ⟨r, hr, (accepts_iff h.chunkSize_pos (h.roomy r hr)).mpr (.inr hp)⟩
  -- the address behind the chunks of a block is no chunk, of this block or of another
  have hend : ∀ r ∈ s.obtained, (chunkArea r).Contains p → p = s.endOfChunks r →
      ∀ r' ∈ s.obtained, p ∉ s.carved r' := by
    intro r hr hin hp r' hr' hp'
    have hin' := ((accepts_iff h.chunkSize_pos (h.roomy r' hr')).mpr (.inl hp')).1
    by_cases he : r = r'
    · subst he
      obtain ⟨i, hi, hpi⟩ := mem_chunks.mp hp'
      rw [hp, endOfChunks] at hpi
      have := Nat.mul_lt_mul_of_pos_right hi h.chunkSize_pos
      omega
    · have : Std.Symm Region.Disjoint := ⟨fun _ _ => Region.Disjoint.symm⟩
      obtain ⟨-, hs, hz⟩ := h.blocks.placed r hr
      obtain ⟨-, hs', hz'⟩ := h.blocks.placed r' hr'
      have hd := (h.blocks.apart.forall hr hr' he).mono (chunkArea_inside hz hs)
        (chunkArea_inside hz' hs')
      simp only [Region.Disjoint, Region.Contains] at *
      omega
  constructor
  · rintro ⟨b, hb, hright⟩ r hr hin hp
    obtain rfl := Option.some.inj (ha.symm.trans hb)
    obtain ⟨r', hr', hp'⟩ := hright.mp (hcases.mpr (.inr ⟨r, hr, hin, hp⟩))
    exact hend r hr hin hp r' hr' hp'
  · intro hno
    refine ⟨a, ha, hcases.trans ?_⟩
    constructor
    · rintro (hex | ⟨r, hr, hin, hp⟩)
      · exact hex
      · exact absurd hp (hno r hr hin)
    · exact .inl

/-- **What `is_from` tells.** In every state that the pool can come to, `is_from(p)` tells whether
`p` is a chunk exactly when `p` is not the address right behind the chunks of the block in whose
chunk area it lies. -/
theorem isFrom_tells_iff {requestedSize : Nat} {m : Mem} {ops : List Op} {w : World}
    (h0 : new requestedSize m = some s) (h : Run Move ⟨s, []⟩ ops w) (hone : w.pool.Sized 1)
    (p : Nat) :
    w.pool.TellsChunks p ↔ ∀ r ∈ w.pool.obtained, (chunkArea r).Contains p →
    p ≠ w.pool.endOfChunks r := by
  obtain ⟨l, hl⟩ := inv_moves h0 h hone
  exact hl.tellsChunks_iff

/-- A pool of objects of 32 bytes with one block. -/
theorem one_block :
    ∃ w, Run Move ⟨fresh32, []⟩ [.malloc fun _ => 4096] w ∧ w.pool.Sized 1 ∧
    w.pool.obtained = [⟨4096, 1024⟩] ∧
    w.pool.chunkSize = 32 := by
  have hnew : new 32 (fun _ => 0) = some fresh32 := rfl
  have hask : fresh32.AsksAt fresh32.chunkSize 0 := fresh32_asksAt (n := 1) (by decide)
  have hsize : fresh32.doubled 0 = 1024 := by decide
  have hans : fresh32.Answer (fun _ => 4096) (fresh32.doubled 0) :=
    fun _ => ⟨by decide, by simp [fresh32]⟩
  have hsized : fresh32.Sized 1 := ⟨by decide, by decide⟩
  obtain ⟨hz, -⟩ | ⟨-, s', hreq, hne, -, hcs, -, hob, -, hi⟩ :=
    (inv_new hnew).requestAt_spec (fun _ => 4096) false hsized.counts
    (Nat.le_refl _) (by decide) hask hans
  · exact absurd hz (by decide)
  · obtain ⟨st, q, l', hm, hq, -⟩ := hi.mallocFromStorage_spec hne
    have hrun :
        Move ⟨fresh32, []⟩ (.malloc fun _ => 4096) ⟨{ s' with storage := st }, [(q, 1)]⟩ := by
      refine ⟨?_, q, ?_⟩
      · intro _ k hk
        rw [hk.unique hask]
        exact hans
      · have hempty : fresh32.storage.empty = true := rfl
        simp [World.exec, Op.run, malloc, mallocOne, hempty, hreq, hm, Op.liveAfter, hq]
    refine ⟨_, .single hrun, (Move.sizes hrun).sized.mpr hsized, ?_, hcs⟩
    rw [hsize] at hob
    exact hob

/-- The first chunk of the block is told to be one. -/
theorem isFrom_tells_first_chunk :
    ∃ w, Run Move ⟨fresh32, []⟩ [.malloc fun _ => 4096] w ∧ w.pool.TellsChunks 4096 := by
  obtain ⟨w, hrun, hone, hob, hcs⟩ := one_block
  have hnew : new 32 (fun _ => 0) = some fresh32 := rfl
  refine ⟨w, hrun, (isFrom_tells_iff hnew hrun hone 4096).mpr ?_⟩
  intro r hr _
  rw [hob, List.mem_singleton] at hr
  rw [hr, endOfChunks, hcs]
  decide

/-- The chunks of the block end at 5088, and that address is told to be a chunk. -/
theorem isFrom_accepts_end :
    ∃ w, Run Move ⟨fresh32, []⟩ [.malloc fun _ => 4096] w ∧ ¬ w.pool.TellsChunks 5088 := by
  obtain ⟨w, hrun, hone, hob, hcs⟩ := one_block
  have hnew : new 32 (fun _ => 0) = some fresh32 := rfl
  obtain ⟨l, hl⟩ := inv_moves hnew hrun hone
  refine ⟨w, hrun, ?_⟩
  rw [hl.tellsChunks_iff]
  intro hno
  refine hno ⟨4096, 1024⟩ (by rw [hob]; exact List.mem_singleton_self _) (by decide) ?_
  rw [endOfChunks, hcs]
  decide

end

end Gpcl.Pool
