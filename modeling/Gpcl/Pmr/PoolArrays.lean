import Gpcl.Pool.Arrays
import Gpcl.Pool.Covers
import Gpcl.Pmr.ResourcePool

/-! # A resource_pool is a pool

To a `resource_pool` upstream is a user allocator: a block, null, or an exception, which
leaves the pool as a refusal does. So every run of a `resource_pool` is a run of a `pool`
and what is known of the arrays of a pool holds for both. -/
namespace Gpcl.Pmr
open Lib.Memory Lib.Runs
open Monotonic (maxAlign)

namespace ResourcePool
open Pool

/-- Upstream as a user allocator. -/
def asAllocator (up : Upstream) (sz : Nat) : Nat := (up sz maxAlign).getD 0

/-- `malloc()`, and `ordered_malloc()` with the flag set. -/
def mallocOne (s : Pool) (up : Upstream) (ordered : Bool) :
    Option (Pool × Option Nat × List Traffic) :=
  if s.storage.empty then do
    let (s, ok, traffic) ← requestNewBlock s up s.chunkSize ordered
    match ok with
    | none => pure (s, none, traffic)
    | some true =>
      let (s, p) ← s.mallocFromStorage
      pure (s, some p, traffic)
    | some false => pure (s, some 0, traffic)
  else do
    let (s, p) ← s.mallocFromStorage
    pure (s, some p, [])

inductive Op
  | malloc (up : Upstream)
  | orderedMalloc (up : Upstream)
  | orderedMallocN (up : Upstream) (n : Nat)
  | free (p : Nat)
  | orderedFree (p : Nat)
  | orderedFreeN (p n : Nat)
  | setNextSize (n : Nat)
  | write (a : Nat) (v : UInt8)

/-- The pool after an operation that returns or throws, with the pointer it returns, null if it
throws. -/
def Op.run (s : Pool) : Op → Option (Pool × Nat)
  | .malloc up => (mallocOne s up false).map fun t => (t.1, t.2.1.getD 0)
  | .orderedMalloc up => (mallocOne s up true).map fun t => (t.1, t.2.1.getD 0)
  | .orderedMallocN up n => (ResourcePool.orderedMalloc s up n).map fun t => (t.1, t.2.1.getD 0)
  | .free p => (s.free p).map (·, 0)
  | .orderedFree p => (s.orderedFree p).map (·, 0)
  | .orderedFreeN p n => (s.orderedFreeN p n).map (·, 0)
  | .setNextSize n => (s.setNextSize n).map (·, 0)
  | .write a v => some ({ s with storage.mem := Function.update s.storage.mem a v }, 0)

/-- The operation of a `pool` with the same effect. -/
def Op.toPool : Op → Pool.Op
  | .malloc up => .malloc (asAllocator up)
  | .orderedMalloc up => .orderedMalloc (asAllocator up)
  | .orderedMallocN up n => .orderedMallocN (asAllocator up) n
  | .free p => .free p
  | .orderedFree p => .orderedFree p
  | .orderedFreeN p n => .orderedFreeN p n
  | .setNextSize n => .setNextSize n
  | .write a v => .write a v

/-- An operation that is permitted and returns or throws. -/
def Step (w : Pool.World) (op : Op) (w' : Pool.World) : Prop :=
  op.toPool.Permitted w ∧ ∃ p, op.run w.pool = some (w'.pool, p) ∧
    w'.live = op.toPool.liveAfter p w.live

section
variable {s s' : Pool} {live : List (Nat × Nat)} {l : List Nat} {up : Upstream}
    {traffic : List Traffic}

theorem requestNewBlock_pool {minSize : Nat} {ordered : Bool} {ok : Option Bool}
    (h : ResourcePool.requestNewBlock s up minSize ordered = some (s', ok, traffic)) :
    s.requestNewBlock (asAllocator up) minSize ordered = some (s', ok.getD false) := by
  simp only [ResourcePool.requestNewBlock, Option.bind_eq_bind, Option.bind_eq_some_iff] at h
  obtain ⟨sz, hgrow, ⟨block, traffic'⟩, hask, h⟩ := h
  unfold askUpstream at hask
  cases hup : up sz maxAlign with
  | none =>
    simp only [hup, Option.some.injEq, Prod.mk.injEq] at hask
    obtain ⟨rfl, rfl⟩ := hask
    simp only [Option.pure_def, Option.some.injEq, Prod.mk.injEq] at h
    obtain ⟨rfl, rfl, rfl⟩ := h
    simp [Pool.requestNewBlock, hgrow, asAllocator, hup]
  | some p =>
    by_cases ha : p % maxAlign = 0
    · simp [hup, guard, ha] at hask
      obtain ⟨rfl, rfl⟩ := hask
      by_cases hp : p = 0
      · simp only [hp, if_true, Option.pure_def, Option.some.injEq, Prod.mk.injEq] at h
        obtain ⟨rfl, rfl, -⟩ := h
        simp [Pool.requestNewBlock, hgrow, asAllocator, hup, hp]
      · simp only [hp, if_false, Option.bind_eq_some_iff, Option.pure_def, Option.some.injEq,
          Prod.mk.injEq] at h
        obtain ⟨⟨t, i⟩, hadd, _, hguard, rfl, rfl, -⟩ := h
        simp [Pool.requestNewBlock, hgrow, asAllocator, hup, hp, hadd, hguard]
    · simp [hup, guard, ha] at hask

theorem mallocOne_pool {ordered : Bool} {ret : Option Nat}
    (h : mallocOne s up ordered = some (s', ret, traffic)) :
    s.mallocOne (asAllocator up) ordered = some (s', ret.getD 0) := by
  by_cases he : s.storage.empty = true
  · simp only [mallocOne, he, if_true, Option.bind_eq_bind, Option.bind_eq_some_iff] at h
    obtain ⟨⟨s₁, ok, traffic₁⟩, hreq, h⟩ := h
    have hreq' := requestNewBlock_pool hreq
    match ok with
    | none =>
      simp only [Option.pure_def, Option.some.injEq, Prod.mk.injEq] at h
      obtain ⟨rfl, rfl, -⟩ := h
      simp [Pool.mallocOne, he, hreq']
    | some false =>
      simp only [Option.pure_def, Option.some.injEq, Prod.mk.injEq] at h
      obtain ⟨rfl, rfl, -⟩ := h
      simp [Pool.mallocOne, he, hreq']
    | some true =>
      simp only [Option.bind_eq_some_iff, Option.pure_def, Option.some.injEq, Prod.mk.injEq] at h
      obtain ⟨⟨s₂, p⟩, hm, rfl, rfl, -⟩ := h
      simp [Pool.mallocOne, he, hreq', hm]
  · rw [mallocOne, if_neg he] at h
    simp only [Option.bind_eq_bind, Option.bind_eq_some_iff, Option.pure_def, Option.some.injEq,
      Prod.mk.injEq] at h
    obtain ⟨⟨s₂, p⟩, hm, rfl, rfl, -⟩ := h
    simp [Pool.mallocOne, he, hm]

/-- When upstream throws, the search of a `pool` that was refused runs once more, in vain. -/
theorem orderedMalloc_pool (hi : Pool.Inv s live l) {n : Nat} {ret : Option Nat}
    (h : ResourcePool.orderedMalloc s up n = some (s', ret, traffic)) :
    s.orderedMallocN (asAllocator up) n = some (s', ret.getD 0) := by
  simp only [ResourcePool.orderedMalloc, Option.bind_eq_bind, Option.bind_eq_some_iff] at h
  obtain ⟨_, hguard, count, hcount, ⟨st, p⟩, hm, h⟩ := h
  have hn : n ≠ 0 := by
    intro h0
    simp [guard, h0] at hguard
  by_cases hp : p = 0
  · subst hp
    simp only [ne_eq, not_true_eq_false, if_false, Option.bind_eq_some_iff] at h
    obtain ⟨⟨s₁, ok, traffic₁⟩, hreq, h⟩ := h
    have hreq' := requestNewBlock_pool hreq
    by_cases hok : ok = none
    · subst hok
      simp only [if_true, Option.pure_def, Option.some.injEq, Prod.mk.injEq] at h
      obtain ⟨rfl, rfl, -⟩ := h
      have hst := hi.mallocN_null hm
      subst hst
      obtain ⟨hs₁, hcs⟩ := requestNewBlock_false hreq'
      dsimp only at hs₁ hcs
      have hm₁ : s₁.storage.mallocN count s₁.chunkSize = some (s.storage, 0) := by rw [hs₁, hcs, hm]
      have hback : ({ s₁ with storage := s.storage } : Pool) = s₁ := by rw [← hs₁]
      simp [Pool.orderedMallocN, guard, hn, hcount, hm, hreq', hm₁, hback]
    · simp only [hok, if_false, Option.bind_eq_some_iff, Option.pure_def, Option.some.injEq,
        Prod.mk.injEq] at h
      obtain ⟨⟨st₂, p₂⟩, hm₂, rfl, rfl, -⟩ := h
      simp [Pool.orderedMallocN, guard, hn, hcount, hm, hreq', hm₂]
  · simp only [ne_eq, hp, not_false_eq_true, if_true, Option.pure_def, Option.some.injEq,
      Prod.mk.injEq] at h
    obtain ⟨rfl, rfl, -⟩ := h
    simp [Pool.orderedMallocN, guard, hn, hcount, hm, hp]

/-- Where upstream answers with what is aligned, a `resource_pool` does what a `pool` does. -/
theorem requestNewBlock_of_pool {minSize : Nat} {ordered ok : Bool}
    (hup : ∀ bytes, ∃ p, up bytes maxAlign = some p ∧ p % maxAlign = 0)
    (h : s.requestNewBlock (asAllocator up) minSize ordered = some (s', ok)) :
    ∃ traffic, ResourcePool.requestNewBlock s up minSize ordered = some (s', some ok, traffic) := by
  simp only [Pool.requestNewBlock, Option.bind_eq_bind, Option.bind_eq_some_iff] at h
  obtain ⟨sz, hgrow, h⟩ := h
  obtain ⟨p, hp, ha⟩ := hup sz
  have hua : asAllocator up sz = p := by simp [asAllocator, hp]
  rw [hua] at h
  by_cases hz : p = 0
  · simp only [hz, if_true, Option.pure_def, Option.some.injEq, Prod.mk.injEq] at h
    obtain ⟨rfl, rfl⟩ := h
    exact ⟨[], by simp [ResourcePool.requestNewBlock, hgrow, askUpstream, hp, hz, guard]⟩
  · simp only [hz, if_false, Option.bind_eq_some_iff, Option.pure_def, Option.some.injEq,
      Prod.mk.injEq] at h
    obtain ⟨⟨t, i⟩, hadd, _, hguard, rfl, rfl⟩ := h
    refine ⟨[.obtained ⟨p, sz, maxAlign⟩], ?_⟩
    have hask : askUpstream up sz maxAlign = some (some p, [.obtained ⟨p, sz, maxAlign⟩]) := by
      simp [askUpstream, hp, ha, hz, guard]
    simp [ResourcePool.requestNewBlock, hgrow, hask, hz, hadd, hguard]

theorem orderedMalloc_of_pool (up : Upstream) {n p : Nat}
    (hup : ∀ bytes, ∃ p, up bytes maxAlign = some p ∧ p % maxAlign = 0)
    (h : s.orderedMallocN (asAllocator up) n = some (s', p)) :
    ∃ traffic, ResourcePool.orderedMalloc s up n = some (s', some p, traffic) := by
  simp only [Pool.orderedMallocN, Option.bind_eq_bind, Option.bind_eq_some_iff] at h
  obtain ⟨_, hguard, count, hcount, ⟨st, q⟩, hm, h⟩ := h
  by_cases hq : q = 0
  · simp only [hq, ne_eq, not_true_eq_false, if_false, Option.bind_eq_some_iff, Option.pure_def,
      Option.some.injEq, Prod.mk.injEq] at h
    obtain ⟨⟨s₁, ok⟩, hreq, ⟨st₁, q₁⟩, hm₁, rfl, rfl⟩ := h
    obtain ⟨traffic, hreq'⟩ := requestNewBlock_of_pool hup hreq
    exact ⟨traffic, by simp [ResourcePool.orderedMalloc, hguard, hcount, hm, hq, hreq', hm₁]⟩
  · simp only [ne_eq, hq, not_false_eq_true, if_true, Option.pure_def, Option.some.injEq,
      Prod.mk.injEq] at h
    obtain ⟨rfl, rfl⟩ := h
    exact ⟨[], by simp [ResourcePool.orderedMalloc, hguard, hcount, hm, hq]⟩

/-- What an operation of a `resource_pool` does, the operation of the `pool` does. -/
theorem Op.run_pool (hi : Pool.Inv s live l) {op : Op} {p : Nat} (h : op.run s = some (s', p)) :
    op.toPool.run s = some (s', p) := by
  cases op with
  | malloc up | orderedMalloc up =>
    obtain ⟨⟨t, ret, traffic⟩, ht, he⟩ := Option.map_eq_some_iff.mp h
    obtain ⟨rfl, rfl⟩ := Prod.mk.inj he
    exact mallocOne_pool ht
  | orderedMallocN up n =>
    obtain ⟨⟨t, ret, traffic⟩, ht, he⟩ := Option.map_eq_some_iff.mp h
    obtain ⟨rfl, rfl⟩ := Prod.mk.inj he
    exact orderedMalloc_pool hi ht
  | free q | orderedFree q | orderedFreeN q n | setNextSize n | write a v => exact h

end

section
variable {s : Pool} {w w' : Pool.World} {l : List Nat}

theorem Step.move {op : Op} (hi : Pool.Inv w.pool w.live l) (h : Step w op w') :
    Pool.Move w op.toPool w' := by
  obtain ⟨hp, p, hrun, hlive⟩ := h
  refine ⟨hp, p, ?_⟩
  have hrun' := op.run_pool hi hrun
  simp [Pool.World.exec, hrun', ← hlive]

/-- A run of a `resource_pool` is a run of a `pool`. -/
theorem run_moves {requestedSize : Nat} {m : Mem} {ops : List Op}
    (h0 : Pool.new requestedSize m = some s) (hone : s.Sized 1)
    (h : Run Step ⟨s, []⟩ ops w) : Run Pool.Move ⟨s, []⟩ (ops.map Op.toPool) w := by
  induction h with
  | nil => exact .nil
  | snoc _ hst ih =>
    obtain ⟨l, hl⟩ := inv_moves h0 ih ((sizes_moves ih).sized.mpr hone)
    rw [List.map_append]
    exact ih.snoc (hst.move hl)

end

/-- **What an array allocation covers.** In every state that a `pool` or a `resource_pool` can come
to, a pointer that `ordered_malloc(n)` returns is an array of `n` objects in one block of the pool
if and only if the size of the array is a `size_type`. -/
theorem orderedMalloc_covers_iff {requestedSize : Nat} {m : Mem} {s : Pool}
    (h0 : Pool.new requestedSize m = some s) (hone : s.Sized 1) :
    (∀ ops w ua n s' p, Run Pool.Move ⟨s, []⟩ ops w → w.pool.OffersArray ua n →
      w.pool.orderedMallocN ua n = some (s', p) → p ≠ 0 →
      (s'.CoversArray p n ↔ n * requestedSize < addressSpace)) ∧
    (∀ ops w up n s' p traffic, Run Step ⟨s, []⟩ ops w → w.pool.OffersArray (asAllocator up) n →
      ResourcePool.orderedMalloc w.pool up n = some (s', some p, traffic) → p ≠ 0 →
      (s'.CoversArray p n ↔ n * requestedSize < addressSpace)) := by
  have hreq : s.requestedSize = requestedSize := by
    obtain ⟨-, rfl⟩ := new_eq_some h0
    rfl
  have hpool : ∀ ops w ua n s' p, Run Pool.Move ⟨s, []⟩ ops w → w.pool.OffersArray ua n →
    w.pool.orderedMallocN ua n = some (s', p) →
      p ≠ 0 → (s'.CoversArray p n ↔ n * requestedSize < addressSpace) := by
    intro ops w ua n s' p hrun hoff hm hp
    have hsame := sizes_moves hrun
    have hone' := hsame.sized.mpr hone
    obtain ⟨l, hl⟩ := inv_moves h0 hrun hone'
    rw [hl.coversArray_iff hone' hoff hm hp, hsame.requested, hreq]
  refine ⟨hpool, ?_⟩
  intro ops w up n s' p traffic hrun hoff hm hp
  have hmoves := run_moves h0 hone hrun
  obtain ⟨l, hl⟩ := inv_moves h0 hmoves ((sizes_moves hmoves).sized.mpr hone)
  exact hpool _ w _ n s' p hmoves hoff (orderedMalloc_pool hl hm) hp

/-- The first block lies at 4096 and has room for an array whose size, taken modulo `2^64`, is that
of up to 31 objects. -/
theorem fresh32_offers {n c : Nat} (hn : n * 32 % addressSpace = c * 32) (h0 : 0 < c)
    (hc : c ≤ 31) :
    fresh32.OffersArray (fun _ => 4096) n := by
  intro count hcount k hk
  have hchunks : fresh32.chunkCount n = some c := by
    have hn' : n * fresh32.requestedSize % addressSpace = c * 32 := hn
    have hround : (2 ^ 64 - 1 + (c * 32 + 32)) % 2 ^ 64 / 32 = c := by omega
    have hfits : c * 32 % 2 ^ 64 ≥ c * 32 := by omega
    have hret :
        (addressSpace - 1 + (c * 32 + fresh32.chunkSize)) % addressSpace / fresh32.chunkSize = c :=
          hround
    have hguard : c * fresh32.chunkSize % addressSpace ≥ c * 32 := hfits
    simp [Pool.chunkCount, hn', hret, guard, hguard]
  obtain rfl := Option.some.inj (hcount.symm.trans hchunks)
  have hmod : count * fresh32.chunkSize % addressSpace = count * 32 := by
    show count * 32 % 2 ^ 64 = count * 32
    omega
  rw [hmod] at hk
  obtain rfl := hk.unique (fresh32_asksAt hc)
  exact ⟨by decide, fun _ => ⟨by decide, by simp [fresh32]⟩⟩

/-- 30 objects of 32 bytes, in both pools. -/
theorem thirty_objects_covered :
    (∃ s' p, fresh32.orderedMallocN (fun _ => 4096) 30 = some (s', p) ∧ p ≠ 0 ∧
      s'.CoversArray p 30) ∧
    ∃ s' p traffic,
    ResourcePool.orderedMalloc fresh32 (fun _ _ => some 4096) 30 = some (s', some p, traffic) ∧
    p ≠ 0 ∧
      s'.CoversArray p 30 := by
  have hnew : Pool.new 32 (fun _ => 0) = some fresh32 := rfl
  have hone : fresh32.Sized 1 := ⟨by decide, by decide⟩
  have hoff := fresh32_offers (n := 30) (c := 30) rfl (by decide) (by decide)
  obtain ⟨s', p, hrun, hp⟩ := fresh32_served (n := 30) (by decide) (by decide)
  obtain ⟨traffic, hrun'⟩ :=
    orderedMalloc_of_pool (fun _ _ => some 4096) (fun _ => ⟨4096, rfl, rfl⟩) hrun
  obtain ⟨hpool, hres⟩ := orderedMalloc_covers_iff hnew hone
  exact ⟨⟨s', p, hrun, hp, (hpool _ _ _ 30 s' p .nil hoff hrun hp).mpr (by decide)⟩,
    ⟨s', p, traffic, hrun', hp,
      (hres _ _ (fun _ _ => some 4096) 30 s' p traffic .nil hoff hrun' hp).mpr (by decide)⟩⟩

/-- For `2^59 + 1` objects of 32 bytes both pools hand out one chunk. -/
theorem wrapped_array_not_covered : Pool.new 32 (fun _ => 0) = some fresh32 ∧
    (∃ s' p, fresh32.orderedMallocN (fun _ => 4096) (2 ^ 59 + 1) = some (s', p) ∧ p ≠ 0 ∧
      ¬ s'.CoversArray p (2 ^ 59 + 1)) ∧
    ∃ s' p traffic,
    ResourcePool.orderedMalloc fresh32 (fun _ _ => some 4096) (2 ^ 59 + 1) =
      some (s', some p, traffic) ∧ p ≠ 0 ∧
      ¬ s'.CoversArray p (2 ^ 59 + 1) := by
  have hnew : Pool.new 32 (fun _ => 0) = some fresh32 := rfl
  have hone : fresh32.Sized 1 := ⟨by decide, by decide⟩
  have hoff := fresh32_offers (n := 2 ^ 59 + 1) (c := 1) rfl (by decide) (by decide)
  obtain ⟨s', p, hrun, hp⟩ := fresh32_served (n := 1) (by decide) (by decide)
  have hsame :
      fresh32.orderedMallocN (fun _ => 4096) (2 ^ 59 + 1) =
        fresh32.orderedMallocN (fun _ => 4096) 1 :=
    orderedMallocN_congr (by decide) (by decide) rfl
  rw [← hsame] at hrun
  obtain ⟨traffic, hrun'⟩ :=
    orderedMalloc_of_pool (fun _ _ => some 4096) (fun _ => ⟨4096, rfl, rfl⟩) hrun
  have hnot : ¬ s'.CoversArray p (2 ^ 59 + 1) := by
    rw [(inv_new hnew).coversArray_iff hone hoff hrun hp]
    decide
  exact ⟨hnew, ⟨s', p, hrun, hp, hnot⟩, ⟨s', p, traffic, hrun', hp, hnot⟩⟩

end ResourcePool

end Gpcl.Pmr
