import Gpcl.Storage.Search
import Gpcl.Pool.Reach

/-! # What an array allocation covers

`chunk_count` multiplies modulo the size of the address space and checks its result against
the same wrapped product. The chunks handed out lie side by side in one block, and they cover
the array exactly when the product did not wrap. -/
namespace Gpcl.Pool
open Lib.Memory Lib.Chain Lib.Runs
open Storage (chunks chunk)

/-- The chunks of an array of `n` objects from `p` on hold the objects and lie in one block of the
pool. -/
def CoversArray (s : Pool) (p n : Nat) : Prop :=
  ∃ count, s.chunkCount n = some count ∧ n * s.requestedSize ≤ count * s.chunkSize ∧
    ∃ r ∈ s.obtained, Region.Inside ⟨p, count * s.chunkSize⟩ r

/-- If a block is asked for on behalf of an array of `n` objects, wrapped or not, the block has room
for its trailer and the answer is null or a fresh block. -/
def OffersArray (s : Pool) (ua : Nat → Nat) (n : Nat) : Prop :=
  ∀ count, s.chunkCount n = some count → ∀ k, s.AsksAt (count * s.chunkSize % addressSpace) k →
    sizeofBlockInfo ≤ s.doubled k ∧ s.Answer ua (s.doubled k)

section
variable {s s' : Pool} {live : List (Nat × Nat)} {l : List Nat} {ua : Nat → Nat} {n p : Nat}

/-- `chunk_count(n)`, if its check passes: the chunks cover the wrapped product, with less than a
chunk to spare. -/
theorem chunkCount_some {count : Nat} (hc : 0 < s.chunkSize) (hword : s.chunkSize ≤ addressSpace)
    (h : s.chunkCount n = some count) :
    n * s.requestedSize % addressSpace ≤ count * s.chunkSize ∧
    count * s.chunkSize < n * s.requestedSize % addressSpace + s.chunkSize := by
  have hlt : n * s.requestedSize % addressSpace < addressSpace := mod_addressSpace_lt _
  simp only [chunkCount, Option.bind_eq_bind, Option.bind_eq_some_iff, Option.pure_def,
    Option.some.injEq] at h
  obtain ⟨_, hguard, hcount⟩ := h
  generalize n * s.requestedSize % addressSpace = a at *
  by_cases hwrap : a + s.chunkSize ≤ addressSpace
  · have hsum : (addressSpace - 1 + (a + s.chunkSize)) % addressSpace = a + s.chunkSize - 1 := by
      have : addressSpace - 1 + (a + s.chunkSize) = a + s.chunkSize - 1 + addressSpace := by omega
      rw [this, Nat.add_mod_right, Nat.mod_eq_of_lt (by omega)]
    rw [hsum] at hcount
    have hm := Nat.div_add_mod (a + s.chunkSize - 1) s.chunkSize
    have hl := Nat.mod_lt (a + s.chunkSize - 1) hc
    rw [hcount, Nat.mul_comm] at hm
    omega
  · -- the sum wraps to less than a chunk, and no chunk does not pass the check
    have hsum :
        (addressSpace - 1 + (a + s.chunkSize)) % addressSpace =
          a + s.chunkSize - 1 - addressSpace := by
      have : addressSpace - 1 + (a + s.chunkSize) =
        a + s.chunkSize - 1 - addressSpace + 2 * addressSpace := by omega
      rw [this, Nat.add_mul_mod_self_right, Nat.mod_eq_of_lt (by omega)]
    rw [hsum, Nat.div_eq_of_lt (by omega)] at hguard
    have hzero : a = 0 := by
      by_contra hne
      simp [guard, hne] at hguard
    omega

/-- A run of free chunks lies in one block: the trailers keep the chunks of different blocks
apart. -/
theorem Inv.run_in_block (h : Inv s live l) :
    ∀ (k : Nat) {p : Nat}, (∀ d ∈ chunks s.chunkSize p (k + 1), d ∈ l) →
    ∃ r ∈ s.obtained, Region.Inside ⟨p, (k + 1) * s.chunkSize⟩ (chunkArea r)
  | 0, p, hl => by
    obtain ⟨a, ha, hin⟩ :=
      h.storage.laid.inside p (List.mem_append_left _ (hl p (by simp [chunks])))
    obtain ⟨r, hr, rfl⟩ := List.mem_map.mp ha
    refine ⟨r, hr, ?_⟩
    rwa [Nat.zero_add, Nat.one_mul]
  | k + 1, p, hl => by
    rw [Storage.chunks_snoc] at hl
    obtain ⟨r, hr, hin⟩ := h.run_in_block k fun d hd => hl d (List.mem_append_left _ hd)
    have hlast := hl (p + (k + 1) * s.chunkSize)
      (List.mem_append_right _ (List.mem_singleton_self _))
    obtain ⟨a, ha, hin'⟩ := h.storage.laid.inside _ (List.mem_append_left _ hlast)
    obtain ⟨r', hr', rfl⟩ := List.mem_map.mp ha
    have hpos := h.chunkSize_pos
    have he : r = r' := by
      by_contra hne
      have : Std.Symm Region.Disjoint := ⟨fun _ _ => Region.Disjoint.symm⟩
      have hd := h.blocks.apart.forall hr hr' hne
      obtain ⟨-, hs, hz⟩ := h.blocks.placed r hr
      have hb := (blockInfoOffset_bounds hz (size_lt hs)).1
      obtain ⟨-, hs', hz'⟩ := h.blocks.placed r' hr'
      have hb' := (blockInfoOffset_bounds hz' (size_lt hs')).1
      have h16 : sizeofBlockInfo = 16 := rfl
      simp only [Region.Inside, Region.Disjoint, Region.stop, chunk, chunkArea] at *
      omega
    subst he
    refine ⟨r, hr, ?_⟩
    simp only [Region.Inside, Region.stop, chunk] at *
    rw [Nat.succ_mul (k + 1)]
    omega

/-- What `malloc_n` takes from the free list of a pool lies in one block. -/
theorem Inv.mallocN_in_block (h : Inv s live l) {count : Nat} {st : Storage} (hp : p ≠ 0)
    (hrun : s.storage.mallocN count s.chunkSize = some (st, p)) :
    ∃ r ∈ s.obtained, Region.Inside ⟨p, count * s.chunkSize⟩ r := by
  rcases Storage.mallocN_find
    (n := count) h.sizes.2.2 h.chunkSize_pos h.storage.threads h.storage.threads.fits with
    ⟨-, hnull⟩ | ⟨pre, q, post, st', -, hl, hcount, -, -, hfound, -⟩
  · exact absurd (Prod.mk.inj (Option.some.inj (hrun.symm.trans hnull))).2 hp
  · obtain ⟨-, rfl⟩ := Prod.mk.inj (Option.some.inj (hrun.symm.trans hfound))
    obtain ⟨k, rfl⟩ := Nat.exists_eq_succ_of_ne_zero (Nat.ne_of_gt hcount)
    obtain ⟨r, hr, hin⟩ := h.run_in_block k (p := p) fun d hd => by
      rw [hl]
      exact List.mem_append_left _ (List.mem_append_right _ hd)
    obtain ⟨-, hs, hz⟩ := h.blocks.placed r hr
    have harea := chunkArea_inside hz hs
    exact ⟨r, hr, Nat.le_trans harea.1 hin.1, Nat.le_trans hin.2 harea.2⟩

/-- A search in vain changes nothing. -/
theorem Inv.mallocN_null (h : Inv s live l) {count : Nat} {st : Storage}
    (hrun : s.storage.mallocN count s.chunkSize = some (st, 0)) : st = s.storage := by
  rcases Storage.mallocN_find
    (n := count) h.sizes.2.2 h.chunkSize_pos h.storage.threads h.storage.threads.fits with
    ⟨-, hnull⟩ | ⟨pre, r, post, st', -, -, -, hr, -, hfound, -⟩
  · exact (Prod.mk.inj (Option.some.inj (hrun.symm.trans hnull))).1
  · exact absurd (Prod.mk.inj (Option.some.inj (hrun.symm.trans hfound))).2.symm hr

/-- A request that was refused leaves the storage. -/
theorem requestNewBlock_false {minSize : Nat} {ordered : Bool}
    (h : s.requestNewBlock ua minSize ordered = some (s', false)) :
    s'.storage = s.storage ∧ s'.chunkSize = s.chunkSize := by
  obtain ⟨k, -, ⟨-, -, rfl⟩ | ⟨-, hok, -⟩⟩ := requestNewBlock_cases h
  · exact ⟨rfl, rfl⟩
  · cases hok

/-- A block that was cut into chunks holds one. -/
theorem chunk_le_of_addBlock {ptr sz : Nat} {stop i : BlockInfo}
    (h : s.addBlock ptr sz stop true = some (s', i)) :
    s.chunkSize ≤ blockInfoOffset sz := by
  simp only [addBlock, if_true, Storage.addOrderedBlock, Storage.segregate, Option.bind_eq_bind,
    Option.bind_eq_some_iff] at h
  obtain ⟨st, ⟨pos, -, q, ⟨_, -, _, hguard, -⟩, -⟩, -⟩ := h
  by_contra hlt
  simp [guard, hlt] at hguard

/-- `request_new_block`, of any size, if it returns. -/
theorem Inv.request_any {minSize : Nat} {ok : Bool} (h : Inv s live l) (hone : s.Counts 1)
    (hoff : ∀ k, s.AsksAt minSize k → sizeofBlockInfo ≤ s.doubled k ∧ s.Answer ua (s.doubled k))
    (hrun : s.requestNewBlock ua minSize true = some (s', ok)) : ∃ l', Inv s' live l' := by
  obtain ⟨k, hk, hcases⟩ := requestNewBlock_cases hrun
  obtain ⟨h16, hans⟩ := hoff k hk
  have hgrow := (growSize_eq_some_iff (s := s)).mpr ⟨k, hk, rfl⟩
  rw [target] at hgrow
  have hc : ua (s.doubled k) ≠ 0 → s.chunkSize ≤ blockInfoOffset (s.doubled k) := by
    intro hz
    obtain ⟨h0, -⟩ | ⟨-, -, t, i, hadd, -⟩ := hcases
    · exact absurd h0 hz
    · have hle := chunk_le_of_addBlock hadd
      exact hle
  obtain ⟨-, hr, hi⟩ | ⟨-, t, hr, -, -, -, -, -, -, hi⟩ :=
    h.requestBlock_spec ua true hone hgrow h16 hc hans
  · obtain ⟨rfl, -⟩ := Prod.mk.inj (Option.some.inj (hr.symm.trans hrun))
    exact ⟨l, hi⟩
  · obtain ⟨rfl, -⟩ := Prod.mk.inj (Option.some.inj (hr.symm.trans hrun))
    exact ⟨_, hi⟩

theorem SameSizes.chunkCount (h : SameSizes s s') : s'.chunkCount n = s.chunkCount n := by
  simp only [Pool.chunkCount, h.requested, h.chunk]

/-- When what `ordered_malloc(n)` returned is an array of `n` objects. -/
theorem Inv.coversArray_iff (h : Inv s live l) (hone : s.Sized 1) (hoff : s.OffersArray ua n)
    (hrun : s.orderedMallocN ua n = some (s', p)) (hp : p ≠ 0) :
    s'.CoversArray p n ↔ n * s.requestedSize < addressSpace := by
  have hpos := h.chunkSize_pos
  have hsame := orderedMallocN_sizes hrun
  have hword : s.chunkSize ≤ addressSpace := by
    have := hone.2
    omega
  simp only [orderedMallocN, Option.bind_eq_bind, Option.bind_eq_some_iff] at hrun
  obtain ⟨_, -, count, hcount, ⟨st, q⟩, hm, hrun⟩ := hrun
  obtain ⟨hlo, hhi⟩ := chunkCount_some hpos hword hcount
  have hblock : ∃ r ∈ s'.obtained, Region.Inside ⟨p, count * s.chunkSize⟩ r := by
    by_cases hq : q = 0
    · simp only [hq, ne_eq, not_true_eq_false, if_false, Option.bind_eq_some_iff, Option.pure_def,
        Option.some.injEq, Prod.mk.injEq] at hrun
      obtain ⟨⟨s₁, ok⟩, hreq, ⟨st₁, q₁⟩, hm₁, rfl, rfl⟩ := hrun
      obtain rfl : st = s.storage := h.mallocN_null (hq ▸ hm)
      obtain ⟨l₁, hi⟩ := h.request_any hone.counts (hoff count hcount) hreq
      have hcs := (requestNewBlock_sizes hreq).chunk
      have hin := hi.mallocN_in_block hp hm₁
      rwa [hcs] at hin
    · simp only [ne_eq, hq, not_false_eq_true, if_true, Option.pure_def, Option.some.injEq,
        Prod.mk.injEq] at hrun
      obtain ⟨rfl, rfl⟩ := hrun
      exact h.mallocN_in_block hp hm
  constructor
  · rintro ⟨count', hcount', hcover, _⟩
    rw [hsame.chunkCount, hcount] at hcount'
    obtain rfl := Option.some.inj hcount'
    rw [hsame.requested, hsame.chunk] at hcover
    by_contra hge
    have hmod : n * s.requestedSize % addressSpace ≤ n * s.requestedSize - addressSpace := by
      rw [Nat.mod_eq_sub_mod (by omega)]
      exact Nat.mod_le _ _
    omega
  · intro hlt
    rw [Nat.mod_eq_of_lt hlt] at hlo
    refine ⟨count, by rw [hsame.chunkCount, hcount], ?_, ?_⟩
    · rw [hsame.requested, hsame.chunk]
      exact hlo
    · rw [hsame.chunk]
      exact hblock

/-- `ordered_malloc(n)` knows of `n` only the number of chunks. -/
theorem orderedMallocN_congr {n' : Nat} (hn : n ≠ 0) (hn' : n' ≠ 0)
    (h : s.chunkCount n = s.chunkCount n') :
    s.orderedMallocN ua n = s.orderedMallocN ua n' := by
  simp only [orderedMallocN, guard, hn, hn', ne_eq, not_false_eq_true, if_true, h]

end

end Gpcl.Pool
