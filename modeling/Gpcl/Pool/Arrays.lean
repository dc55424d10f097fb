import Gpcl.Storage.Search
import Gpcl.Pool.Reach

/-! # Arrays from a new block

`ordered_malloc(n)` asks for a block of at least `count` chunks and two `block_info`, but the
search needs one adjacent chunk more than it takes, and `segregate` gives away the end of the
area. A block that is a tight fit does not hold the array it was obtained for. -/
namespace Gpcl.Pool
open Lib.Memory Lib.Chain Lib.Runs
open Storage (HasRun segCount)

/-- The block asked for does not reach 17 bytes beyond the `count` chunks and one more. -/
def Tight (s : Pool) (count : Nat) : Prop :=
  ∃ k, s.AsksAt (count * s.chunkSize) k ∧ s.doubled k ≤ (count + 1) * s.chunkSize + 16

/-- If a block is needed for `n` objects, the user allocator grants the one it is asked for. -/
def Granted (s : Pool) (ua : Nat → Nat) (n : Nat) : Prop :=
  ∀ st, s.storage.mallocN (s.countOf n) s.chunkSize = some (st, 0) →
    ∃ k, s.AsksAt (s.countOf n * s.chunkSize) k ∧ ua (s.doubled k) ≠ 0 ∧ s.Answer ua (s.doubled k)

/-- `ordered_malloc(n)` returns a pointer that is not null. -/
def Served (s : Pool) (ua : Nat → Nat) (n : Nat) : Prop :=
  ∃ s' p, s.orderedMallocN ua n = some (s', p) ∧ p ≠ 0

section
variable {s : Pool} {live : List (Nat × Nat)} {l : List Nat} {ua : Nat → Nat}

section
variable {count j : Nat} (hlt : s.nextSize * s.chunkSize * 2 ^ j < addressSpace)
include hlt

theorem doubled_eq {k : Nat} (hk : k ≤ j) : s.doubled k = s.nextSize * 2 ^ k * s.chunkSize := by
  have hle := Nat.mul_le_mul_left (s.nextSize * s.chunkSize)
    (Nat.pow_le_pow_right (show 0 < 2 by decide) hk)
  rw [doubled, Nat.mod_eq_of_lt (by omega), Nat.mul_right_comm]

variable (hfit : count * s.chunkSize + sizeofBlockInfo * 2 ≤ s.nextSize * s.chunkSize * 2 ^ j)
include hfit

theorem target_count : target (count * s.chunkSize) = count * s.chunkSize + 32 :=
  target_eq (by omega)

/-- The first doubling that reaches the target comes no later than one that is known to reach it. -/
theorem AsksAt.le {k : Nat} (hk : s.AsksAt (count * s.chunkSize) k) : k ≤ j := by
  by_contra hgt
  have hbefore := hk.2 j (by omega)
  rw [target_count hlt hfit, doubled_eq hlt (Nat.le_refl j), Nat.mul_right_comm] at hbefore
  unfold sizeofBlockInfo at hfit
  omega

/-- A doubling to `N` chunks is asked for when `N` chunks are enough and one chunk less is not. -/
theorem asksAt_of_chunks {k N : Nat} (hN : s.nextSize * 2 ^ k = N) (h0 : 0 < N)
    (hge : count * s.chunkSize + 32 ≤ N * s.chunkSize)
    (hless : ∀ M < N, M * s.chunkSize < count * s.chunkSize + 32) :
    s.AsksAt (count * s.chunkSize) k := by
  have hmono : ∀ i, i < k → s.nextSize * 2 ^ i < N := by
    intro i hi
    have hle := Nat.mul_le_mul_left s.nextSize
      (Nat.pow_le_pow_right (show 0 < 2 by decide) (Nat.succ_le_of_lt hi))
    rw [hN, Nat.pow_succ] at hle
    have : s.nextSize * (2 ^ i * 2) = s.nextSize * 2 ^ i * 2 := (Nat.mul_assoc _ _ _).symm
    omega
  have hkj : k ≤ j := by
    by_contra hgt
    have hbad := hless _ (hmono j (by omega))
    rw [Nat.mul_right_comm] at hbad
    unfold sizeofBlockInfo at hfit
    omega
  refine ⟨?_, ?_⟩
  · rw [target_count hlt hfit, doubled_eq hlt hkj, hN]
    exact hge
  · intro i hi
    rw [target_count hlt hfit, doubled_eq hlt (by omega)]
    exact hless _ (hmono i hi)

/-- When no size wraps, the fits that are tight: there is no room behind the array for one more
chunk and a trailer. -/
theorem tight_iff (h8 : 8 ∣ s.chunkSize) (hc : 0 < s.chunkSize) :
    s.Tight count ↔ (s.chunkSize = 16 ∧ ∃ k, s.nextSize * 2 ^ k = count + 2) ∨
      (32 ≤ s.chunkSize ∧ ∃ k, s.nextSize * 2 ^ k = count + 1) := by
  have hcases : s.chunkSize = 8 ∨ s.chunkSize = 16 ∨ s.chunkSize = 24 ∨ 32 ≤ s.chunkSize := by omega
  constructor
  · intro ⟨k, hk, hle⟩
    have hge := hk.1
    rw [target_count hlt hfit, doubled_eq hlt (hk.le hlt hfit)] at hge
    rw [doubled_eq hlt (hk.le hlt hfit)] at hle
    rcases hcases with hs | hs | hs | hs
    · rw [hs] at hge hle; omega
    · rw [hs] at hge hle
      exact .inl ⟨hs, k, by omega⟩
    · rw [hs] at hge hle; omega
    · refine .inr ⟨hs, k, ?_⟩
      have hlo : count < s.nextSize * 2 ^ k :=
        Nat.lt_of_mul_lt_mul_right (show count * s.chunkSize < _ by omega)
      have hhi : s.nextSize * 2 ^ k < count + 2 := by
        refine Nat.lt_of_mul_lt_mul_right (a := s.chunkSize) ?_
        rw [Nat.add_mul] at hle ⊢
        omega
      omega
  · rintro (⟨hs, k, hk⟩ | ⟨hs, k, hk⟩)
    · have hask : s.AsksAt (count * s.chunkSize) k := by
        refine asksAt_of_chunks hlt hfit hk (by omega) (by rw [hs]; omega) ?_
        intro M hM
        rw [hs]
        omega
      refine ⟨k, hask, ?_⟩
      rw [doubled_eq hlt (hask.le hlt hfit), hk, hs]
      omega
    · have hask : s.AsksAt (count * s.chunkSize) k := by
        refine asksAt_of_chunks hlt hfit hk (by omega) (by rw [Nat.succ_mul]; omega) ?_
        intro M hM
        have := Nat.mul_le_mul_right s.chunkSize (Nat.lt_succ_iff.mp hM)
        omega
      refine ⟨k, hask, ?_⟩
      rw [doubled_eq hlt (hask.le hlt hfit), hk]
      omega

end

/-- Next to a chunk of the free list there is no byte of a fresh block: the trailer lies between. -/
theorem Inv.next_to_fresh (h : Inv s live l) {r : Region} (hd : ∀ r' ∈ s.obtained, r.Disjoint r')
    {d x : Nat} (hdl : d ∈ l) (hlo : d ≤ x) (hhi : x ≤ d + s.chunkSize) : ¬ r.Contains x := by
  obtain ⟨a, ha, hin⟩ := h.storage.laid.inside d (List.mem_append_left _ hdl)
  obtain ⟨r', hr', rfl⟩ := List.mem_map.mp ha
  obtain ⟨-, hs', hz'⟩ := h.blocks.placed r' hr'
  have hb := (blockInfoOffset_bounds hz' (size_lt hs')).1
  have hdis := hd r' hr'
  have h16 : sizeofBlockInfo = 16 := rfl
  simp only [Region.Inside, Region.Disjoint, Region.Contains, Region.stop, Storage.chunk,
    chunkArea] at *
  omega

/-- With the chunks of a fresh block the list has the runs of the block, and no new run across a
border. -/
theorem Inv.hasRun_added (h : Inv s live l) {r : Region} (hd : ∀ r' ∈ s.obtained, r.Disjoint r')
    (hc : s.chunkSize ≤ blockInfoOffset r.size) (hin : blockInfoOffset r.size < r.size) {k : Nat}
    (hno : ¬ HasRun s.chunkSize l k) :
    HasRun s.chunkSize (added true r.base (s.carved r) l) k ↔
    k ≤ segCount (blockInfoOffset r.size) s.chunkSize := by
  have hl := Storage.upperSplit_append r.base l
  have hlist : added true r.base (s.carved r) l =
      ((Storage.upperSplit r.base l).1 ++ s.carved r) ++ (Storage.upperSplit r.base l).2 := rfl
  generalize (Storage.upperSplit r.base l).1 = pre at hl hlist
  generalize (Storage.upperSplit r.base l).2 = post at hl hlist
  rw [hlist]
  constructor
  · intro hrun
    have hend := Storage.segCount_mul_le hc
    have hfront : ∀ c ∈ pre.getLast?, ∀ d ∈ (s.carved r).head?, d ≠ c + s.chunkSize := by
      intro c hc' d hd' he
      have hcl : c ∈ l := hl ▸ List.mem_append_left _ (List.mem_of_getLast? hc')
      have hdb : d = r.base := by
        simp only [carved, segCount, Storage.chunks, List.head?_cons, Option.mem_def,
          Option.some.injEq] at hd'
        exact hd'.symm
      refine h.next_to_fresh hd hcl (Nat.le_add_right c s.chunkSize) (Nat.le_refl _) ?_
      rw [← he, hdb]
      exact ⟨Nat.le_refl _, by simp only [Region.stop]; omega⟩
    have hback : ∀ c ∈ (pre ++ s.carved r).getLast?, ∀ d ∈ post.head?, d ≠ c + s.chunkSize := by
      intro c hc' d hd' he
      have hdl : d ∈ l := hl ▸ List.mem_append_right _ (List.mem_of_head? hd')
      have hcb :
          c + s.chunkSize = r.base + segCount (blockInfoOffset r.size) s.chunkSize *
            s.chunkSize := by
        rw [carved, segCount, Storage.chunks_snoc, ← List.append_assoc, List.getLast?_concat] at hc'
        rw [← Option.some.inj hc', segCount, Nat.succ_mul]
        omega
      refine h.next_to_fresh hd hdl (Nat.le_refl d) (Nat.le_add_right _ _) ?_
      rw [he, hcb]
      exact ⟨Nat.le_add_right _ _, by simp only [Region.stop]; omega⟩
    rcases hrun.split hback with hrun | hrun
    · rcases hrun.split hfront with hrun | hrun
      · exact absurd (hl ▸ hrun.append_left post) hno
      · exact Storage.hasRun_chunks.mp hrun
    · exact absurd (hl ▸ hrun.append_right pre) hno
  · intro hk
    exact ((Storage.hasRun_chunks.mpr hk).append_right pre).append_left post

/-- The chunks that a block of whole words is cut into. -/
theorem lt_segCount_iff {sz c count : Nat} (h8 : 8 ∣ sz) (hsz : sz < addressSpace) (hc : 0 < c)
    (h0 : 0 < count) (hge : count * c + 32 ≤ sz) :
    count + 1 ≤ segCount (blockInfoOffset sz) c ↔ ¬ sz ≤ (count + 1) * c + 16 := by
  have hoff : blockInfoOffset sz = sz - 16 := by
    unfold blockInfoOffset sizeofBlockInfo alignofBlockInfo addressSpace at *
    omega
  have hpos := Nat.mul_pos h0 hc
  rw [segCount, hoff, Nat.add_le_add_iff_right, Nat.le_div_iff_mul_le hc, Nat.succ_mul]
  omega

/-- `malloc_n` on the free list of a pool. -/
theorem Inv.mallocN_iff (h : Inv s live l) {n : Nat} (hn : s.Sized n) :
    ∃ st p, s.storage.mallocN (s.countOf n) s.chunkSize = some (st, p) ∧
    (p ≠ 0 ↔ HasRun s.chunkSize l (s.countOf n + 1)) ∧
      (p = 0 → st = s.storage) := by
  have hc := h.chunkSize_pos
  have hiff := Storage.findRun_eq_none_iff (l := l) (countOf_pos hn.1 h.sizes.1 hc) hc
  rcases Storage.mallocN_find
    (n := s.countOf n) h.sizes.2.2 hc h.storage.threads h.storage.threads.fits with
    ⟨hf, hrun⟩ | ⟨pre, r, post, st, hf, -, -, hr, -, hrun, -⟩
  · exact ⟨s.storage, 0, hrun, ⟨fun hne => absurd rfl hne, fun hhas => absurd hhas (hiff.mp hf)⟩,
      fun _ => rfl⟩
  · refine ⟨st, r, hrun, ⟨fun _ => ?_, fun _ => hr⟩, fun he => absurd he hr⟩
    by_contra hno
    rw [hiff.mpr hno] at hf
    cases hf

/-- When `ordered_malloc(n)` is served, with the block it asks for granted. -/
theorem Inv.served_iff (h : Inv s live l) (h8 : 8 ∣ s.chunkSize) {n : Nat}
    (hn : s.Sized n) (hg : s.Granted ua n) :
    s.Served ua n ↔ HasRun s.chunkSize l (s.countOf n + 1) ∨ ¬ s.Tight (s.countOf n) := by
  have hpos := h.chunkSize_pos
  have hcount := countOf_pos hn.1 h.sizes.1 hpos
  have hfit := hn.chunks_fit hpos
  have hmod : s.countOf n * s.chunkSize % addressSpace = s.countOf n * s.chunkSize :=
    Nat.mod_eq_of_lt (by omega)
  have hn0 : n ≠ 0 := Nat.ne_of_gt hn.1
  have hchunks := chunkCount_eq hpos hn.counts.2
  obtain ⟨st, p, hm, hp, hst⟩ := h.mallocN_iff hn
  by_cases hz : p = 0
  · have hno : ¬ HasRun s.chunkSize l (s.countOf n + 1) := fun hrun => hp.mpr hrun hz
    obtain rfl := hst hz
    subst hz
    obtain ⟨k, hk, hne, hans⟩ := hg _ hm
    obtain ⟨hzero, -⟩ | ⟨-, s', hreq, -, hrs, hcs, -, hob, -, hi⟩ :=
      h.requestAt_spec ua true hn.one.counts
      (Nat.le_mul_of_pos_left _ hcount) hfit hk hans
    · exact absurd hzero hne
    · have hn' : s'.Sized n := by
        have := hn
        simpa only [Sized, hrs, hcs] using this
      have hcnt : s'.countOf n = s.countOf n := by simp only [countOf, hrs, hcs]
      obtain ⟨st', p', hm', hp', -⟩ := hi.mallocN_iff hn'
      rw [hcnt, hcs] at hm' hp'
      have hge := hk.1
      rw [target_eq hfit] at hge
      have h8' : 8 ∣ s.doubled k :=
        (Nat.dvd_mod_iff (by decide)).mpr
          (Nat.dvd_mul_right_of_dvd (Nat.dvd_mul_left_of_dvd h8 _) _)
      have hlt : s.doubled k < addressSpace := mod_addressSpace_lt _
      have hoff := blockInfoOffset_bounds (show sizeofBlockInfo ≤ s.doubled k by omega) hlt
      have hmul := Nat.le_mul_of_pos_left s.chunkSize hcount
      have hd := (hans hne).2
      have h16 : sizeofBlockInfo = 16 := rfl
      have h8w : wordSize = 8 := rfl
      rw [h.hasRun_added (r := ⟨ua (s.doubled k), s.doubled k⟩) hd (by dsimp only; omega)
        (by dsimp only; omega) hno,
        lt_segCount_iff h8' hlt hpos hcount (by omega)] at hp'
      have htight : s.Tight (s.countOf n) ↔ s.doubled k ≤ (s.countOf n + 1) * s.chunkSize + 16 := by
        constructor
        · rintro ⟨k', hk', hle⟩
          rwa [hk'.unique hk] at hle
        · intro hle
          exact ⟨k, hk, hle⟩
      have hrun : s.orderedMallocN ua n = some ({ s' with storage := st' }, p') := by
        simp [orderedMallocN, hn0, hchunks, hm, hmod, hreq, hm', hcs, guard]
      rw [htight]
      constructor
      · rintro ⟨s'', q, hq, hne'⟩
        obtain ⟨-, rfl⟩ := Prod.mk.inj (Option.some.inj (hrun.symm.trans hq))
        exact .inr (hp'.mp hne')
      · intro hor
        exact ⟨_, p', hrun, hp'.mpr (hor.resolve_left hno)⟩
  · have hrun : s.orderedMallocN ua n = some ({ s with storage := st }, p) := by
      simp [orderedMallocN, hn0, hchunks, hm, hz, guard]
    exact ⟨fun _ => .inl (hp.mp hz), fun _ => ⟨_, p, hrun, hz⟩⟩

/-- **`ordered_malloc(n)` and the block it asks for.** In every state that the pool can come to,
with the block it asks for granted, it returns a pointer if and only if the free list already has a
run for it or the new block is no tight fit. -/
theorem orderedMallocN_served_iff {requestedSize : Nat} {m : Mem} {ops : List Op} {w : World}
    (h0 : new requestedSize m = some s) (h : Run Move ⟨s, []⟩ ops w) {n : Nat} (hn : w.pool.Sized n)
    (hg : w.pool.Granted ua n) :
    ∃ l, Storage.FreeChunks w.pool.storage l ∧
      (w.pool.Served ua n ↔ HasRun w.pool.chunkSize l (w.pool.countOf n + 1) ∨
        ¬ w.pool.Tight (w.pool.countOf n)) := by
  obtain ⟨l, hl⟩ := inv_moves h0 h hn.one
  have h8 : 8 ∣ w.pool.chunkSize := (sizes_moves h).chunk ▸ chunkSize_dvd h0
  exact ⟨l, hl.storage.threads.path, hl.served_iff h8 hn hg⟩

theorem fresh32_granted {n : Nat} (h0 : 0 < n) (hn : n ≤ 31) :
    fresh32.Granted (fun _ => 4096) n := by
  intro st _
  have hc : fresh32.countOf n = n := by
    show (n * 32 + 32 - 1) / 32 = n
    omega
  rw [hc]
  exact ⟨0, fresh32_asksAt hn, by decide, fun _ => ⟨by decide, by simp [fresh32]⟩⟩

/-- Up to 30 objects of 32 bytes are no tight fit. -/
theorem fresh32_not_tight {n : Nat} (hn : n ≤ 30) : ¬ fresh32.Tight (fresh32.countOf n) := by
  have hc : fresh32.countOf n = n := by
    show (n * 32 + 32 - 1) / 32 = n
    omega
  have hlt : fresh32.nextSize * fresh32.chunkSize * 2 ^ 0 < addressSpace := by decide
  have hfit :
      n * fresh32.chunkSize + sizeofBlockInfo * 2 ≤
        fresh32.nextSize * fresh32.chunkSize * 2 ^ 0 := by
    show n * 32 + 16 * 2 ≤ 32 * 32 * 2 ^ 0
    omega
  rw [hc, tight_iff hlt hfit (by decide) (by decide)]
  rintro (⟨h16, -⟩ | ⟨-, k, hk⟩)
  · exact absurd h16 (by decide)
  · have hle := Nat.le_mul_of_pos_right 32 (Nat.two_pow_pos k)
    have hk' : 32 * 2 ^ k = n + 1 := hk
    omega

theorem fresh32_served {n : Nat} (h0 : 0 < n) (hn : n ≤ 30) : fresh32.Served (fun _ => 4096) n := by
  have hnew : new 32 (fun _ => 0) = some fresh32 := rfl
  have hg := fresh32_granted h0 (Nat.le_succ_of_le hn)
  have hsized : fresh32.Sized n := by
    refine ⟨h0, ?_⟩
    show n * 32 + 32 + 16 * 2 ≤ 2 ^ 64
    omega
  exact ((inv_new hnew).served_iff (chunkSize_dvd hnew) hsized hg).mpr (.inr (fresh32_not_tight hn))

/-- 30 objects of 32 bytes are served from the first block. -/
theorem thirty_objects_served :
    fresh32.Granted (fun _ => 4096) 30 ∧ fresh32.Served (fun _ => 4096) 30 := by
  have hg := fresh32_granted (n := 30) (by decide) (by decide)
  have hnew : new 32 (fun _ => 0) = some fresh32 := rfl
  obtain ⟨l, -, hiff⟩ := orderedMallocN_served_iff hnew .nil ⟨by decide, by decide⟩ hg
  exact ⟨hg, hiff.mpr (.inr (fresh32_not_tight (by decide)))⟩

/-- For 31 objects of 32 bytes a new pool asks for a block of 1024 bytes, gets it and returns
null. -/
theorem tight_block_not_served :
    new 32 (fun _ => 0) = some fresh32 ∧ fresh32.Sized 31 ∧ fresh32.Granted (fun _ => 4096) 31 ∧
    ¬ fresh32.Served (fun _ => 4096) 31 := by
  have hsized : fresh32.Sized 31 := ⟨by decide, by decide⟩
  have hg := fresh32_granted (n := 31) (by decide) (by decide)
  have hnew : new 32 (fun _ => 0) = some fresh32 := rfl
  refine ⟨hnew, hsized, hg, ?_⟩
  rw [(inv_new hnew).served_iff (chunkSize_dvd hnew) hsized hg]
  rintro (⟨pre, r, post, he⟩ | htight)
  · have := congrArg List.length he
    simp only [List.length_append, Storage.length_chunks, List.length_nil] at this
    omega
  · exact htight ⟨0, fresh32_asksAt (by decide), by decide⟩

end

end Gpcl.Pool
