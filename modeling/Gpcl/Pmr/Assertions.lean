import Gpcl.Lib.Checked
import Gpcl.Pmr.Alignment

/-! # The assertions of a synchronised_pool_resource

`do_allocate`, `do_deallocate` and the functions under them once more, with failed assertions told
from loops that do not end. The assertion of `next_chunk`, that its chunk is not null, has a check
of its own in `segregate` only: the loops over the free list call it behind their own test. -/
namespace Gpcl.Pmr.Asserting
open Lib Lib.Memory Lib.Checked Lib.Runs
open Monotonic (maxAlign)

inductive Failure
  | assertion
  -- the end of `get_pool`
  | impossible

def assert (p : Prop) [Decidable p] : Checked Failure Unit := check .assertion p

/-! ## simple_segregated_storage -/

/-- The loop of `segregate`. -/
def segregateLoop (partitionSz blockEnd : Nat) (s : Storage) (chunk : Nat) :
    Option (Except Failure (Storage × Nat)) :=
  if chunk + partitionSz < blockEnd then
    -- `next_chunk(chunk)`
    if chunk = 0 then some (.error .assertion)
    else
      let s := s.set (.next chunk) (chunk + partitionSz)
      by apply segregateLoop; exacts [partitionSz, blockEnd, s, s.nextChunk chunk]
  else some (.ok (s, chunk))
partial_fixpoint

def segregate (s : Storage) (block sz partitionSz stop : Nat) :
    Checked Failure (Storage × Nat) := do
  assert (block ≠ 0)
  assert (partitionSz ≤ sz)
  let (s, chunk) ← ExceptT.mk (segregateLoop partitionSz (block + sz - partitionSz) s block)
  assert (chunk ≠ 0)
  pure (s.set (.next chunk) stop, block)

def addBlock (s : Storage) (block sz partitionSz : Nat) : Checked Failure Storage := do
  let (s, p) ← segregate s block sz partitionSz s.freeList
  let s := s.set .head p
  assert (s.freeList ≠ 0)
  pure s

def addOrderedBlock (s : Storage) (block sz partitionSz : Nat) : Checked Failure Storage := do
  let pos ← loop (s.upperBound block)
  let (s, p) ← segregate s block sz partitionSz (s.get pos)
  let s := s.set pos p
  assert (s.freeList ≠ 0)
  pure s

def orderedFreeN (s : Storage) (chunk n partitionSz : Nat) : Checked Failure Storage :=
  addOrderedBlock s chunk (partitionSz * n % addressSpace) partitionSz

/-! ## resource_pool -/

namespace ResourcePool

def addBlock (s : Pool) (ptr sz : Nat) (stop : Gpcl.BlockInfo) (ordered : Bool) :
    Checked Failure (Pool × Gpcl.BlockInfo) := do
  let chunksSize := Pool.blockInfoOffset sz
  let storage ←
    if ordered then Asserting.addOrderedBlock s.storage ptr chunksSize s.chunkSize
    else Asserting.addBlock s.storage ptr chunksSize s.chunkSize
  let storage := { storage with mem := Pool.storeInfo storage.mem (ptr + chunksSize) stop }
  pure ({ s with storage }, ⟨ptr, sz⟩)

def askUpstream (up : Upstream) (bytes alignment : Nat) :
    Checked Failure (Option Nat × List Traffic) :=
  match up bytes alignment with
  | none => pure (none, [])
  | some p => do
    assert (p % alignment = 0)
    pure (some p, if p = 0 then [] else [.obtained ⟨p, bytes, alignment⟩])

def giveUpstream (give : Mem → Region → Mem) (m : Mem) (g : Grant) :
    Checked Failure (Mem × List Traffic) := do
  assert (g.ptr % g.alignment = 0)
  pure (give m ⟨g.ptr, g.bytes⟩, [.returned g])

def requestNewBlock (s : Pool) (up : Upstream) (minSize : Nat) (ordered : Bool) :
    Checked Failure (Pool × Option Bool × List Traffic) := do
  let sz ← loop (Pool.growSize ((minSize + Pool.sizeofBlockInfo * 2) % addressSpace)
    (s.nextSize * s.chunkSize % addressSpace))
  let s := { s with nextSize := s.nextSize * 2 % addressSpace }
  let (block, traffic) ← askUpstream up sz maxAlign
  match block with
  | none => pure (s, none, traffic)
  | some block =>
    if block = 0 then pure (s, some false, traffic)
    else do
      let s := { s with obtained := ⟨block, sz⟩ :: s.obtained }
      let (s, info) ← addBlock s block sz s.blockList ordered
      let s := { s with blockList := info }
      assert (s.storage.empty = false)
      pure (s, some true, traffic)

/-- Its only failure is that of `GPCL_VERIFY`. -/
def chunkCount (s : Pool) (n : Nat) : Checked Failure Nat := orFail .assertion (s.chunkCount n)

/-- `ordered_malloc(n)`. -/
def orderedMalloc (s : Pool) (up : Upstream) (n : Nat) :
    Checked Failure (Pool × Option Nat × List Traffic) := do
  assert (n ≠ 0)
  let count ← chunkCount s n
  let (storage, p) ← loop (s.storage.mallocN count s.chunkSize)
  let s := { s with storage }
  if p ≠ 0 then pure (s, some p, [])
  else do
    let (s, ok, traffic) ← requestNewBlock s up (count * s.chunkSize % addressSpace) true
    if ok = none then pure (s, none, traffic)
    else do
      let (storage, p) ← loop (s.storage.mallocN count s.chunkSize)
      pure ({ s with storage }, some p, traffic)

/-- `ordered_free(ptr, n)`. -/
def orderedFreeN (s : Pool) (ptr n : Nat) : Checked Failure Pool := do
  let count ← chunkCount s n
  let storage ← Asserting.orderedFreeN s.storage ptr count s.chunkSize
  pure { s with storage }

end ResourcePool

/-! ## synchronised_pool_resource -/

open Synchronised (inMem)

def getPool (bytes : Nat) (pools : List (Nat × Pool)) : Checked Failure Synchronised.Place :=
  orFail .impossible (Synchronised.getPool bytes pools)

def allocateFromPool (s : Synchronised) (up : Upstream) (bytes : Nat) :
    Checked Failure (Synchronised × Option Nat × List Traffic) := do
  let c ← getPool bytes s.pools
  assert (bytes % c.pool.requestedSize = 0)
  let (pool, ret, traffic) ←
    ResourcePool.orderedMalloc (inMem s.mem c.pool) up (bytes / c.pool.requestedSize)
  pure (s.put c pool, ret, traffic)

def deallocateFromPool (s : Synchronised) (ptr bytes : Nat) : Checked Failure Synchronised := do
  let c ← getPool bytes s.pools
  assert (bytes % c.pool.requestedSize = 0)
  let pool ← ResourcePool.orderedFreeN (inMem s.mem c.pool) ptr (bytes / c.pool.requestedSize)
  pure (s.put c pool)

def doAllocate (s : Synchronised) (up : Upstream) (bytes alignment : Nat) :
    Checked Failure (Synchronised × Option Nat × List Traffic) :=
  if s.direct bytes alignment then do
    let (ret, traffic) ← ResourcePool.askUpstream up bytes alignment
    pure (s, ret, traffic)
  else allocateFromPool s up bytes

def doDeallocate (s : Synchronised) (give : Mem → Region → Mem) (g : Grant) :
    Checked Failure (Synchronised × List Traffic) :=
  if s.direct g.bytes g.alignment then do
    let (mem, traffic) ← ResourcePool.giveUpstream give s.mem g
    pure ({ s with mem }, traffic)
  else do
    let s ← deallocateFromPool s g.ptr g.bytes
    pure (s, [])

/-! ## Agreement with the functions that do not tell why they do not return -/

section
variable {psz blockEnd : Nat} {s s' : Storage} {chunk chunk' : Nat}

theorem segregateLoop_some {r : Except Failure (Storage × Nat)}
    (h : segregateLoop psz blockEnd s chunk = some r) :
    r = .error .assertion ∨ ∃ t, r = .ok t ∧
    Storage.segregateLoop psz blockEnd s chunk = some t := by
  refine segregateLoop.partial_correctness psz blockEnd
    (fun s chunk r => r = .error .assertion ∨ ∃ t, r = .ok t ∧
      Storage.segregateLoop psz blockEnd s chunk = some t) ?_ s chunk r h
  intro f ih s chunk r hr
  split at hr
  · next hlt =>
    split at hr
    · exact .inl (Option.some.inj hr).symm
    · rw [Storage.segregateLoop, if_pos hlt]
      exact ih _ _ _ hr
  · next hlt =>
    right
    refine ⟨_, (Option.some.inj hr).symm, ?_⟩
    rw [Storage.segregateLoop, if_neg hlt]

theorem segregateLoop_of_some {t : Storage × Nat}
    (h : Storage.segregateLoop psz blockEnd s chunk = some t) :
    segregateLoop psz blockEnd s chunk = some (.error .assertion) ∨
    segregateLoop psz blockEnd s chunk = some (.ok t) := by
  refine Storage.segregateLoop.partial_correctness psz blockEnd
    (fun s chunk t => segregateLoop psz blockEnd s chunk = some (.error .assertion) ∨
      segregateLoop psz blockEnd s chunk = some (.ok t))
    ?_ s chunk t h
  intro f ih s chunk t ht
  rw [segregateLoop]
  split at ht
  · next hlt =>
    rw [if_pos hlt]
    split
    · exact .inl rfl
    · exact ih _ _ _ ht
  · next hlt =>
    rw [if_neg hlt]
    exact .inr (congrArg _ (congrArg _ (Option.some.inj ht)))

theorem segregateLoop_agrees (psz blockEnd : Nat) (s : Storage) (chunk : Nat) :
    Agrees (ExceptT.mk (segregateLoop psz blockEnd s chunk))
      (Storage.segregateLoop psz blockEnd s chunk) := by
  cases h : Storage.segregateLoop psz blockEnd s chunk with
  | some t =>
    rcases segregateLoop_of_some h with he | he
    · exact .inl ⟨_, he⟩
    · exact .inr he
  | none =>
    cases hc : segregateLoop psz blockEnd s chunk with
    | none => exact .inr rfl
    | some r =>
      rcases segregateLoop_some hc with rfl | ⟨t, -, ht⟩
      · exact .inl ⟨_, rfl⟩
      · rw [h] at ht
        cases ht

end

theorem segregate_agrees (s : Storage) (block sz psz stop : Nat) :
    Agrees (segregate s block sz psz stop) (s.segregate block sz psz stop) := by
  refine (agrees_check _ _).bind fun _ => (agrees_check _ _).bind fun _ =>
    (segregateLoop_agrees _ _ _ _).bind fun t => ?_
  exact (agrees_pure _).check_bind _

theorem addBlock_agrees (s : Storage) (block sz psz : Nat) :
    Agrees (addBlock s block sz psz) (s.addBlock block sz psz) :=
  (segregate_agrees _ _ _ _ _).bind fun _ => (agrees_check _ _).bind fun _ => agrees_pure _

theorem addOrderedBlock_agrees (s : Storage) (block sz psz : Nat) :
    Agrees (addOrderedBlock s block sz psz) (s.addOrderedBlock block sz psz) :=
  (agrees_loop _).bind fun _ => (segregate_agrees _ _ _ _ _).bind fun _ => (agrees_check _ _).bind
    fun _ => agrees_pure _

namespace ResourcePool

theorem addBlock_agrees (s : Pool) (ptr sz : Nat) (stop : Gpcl.BlockInfo) (ordered : Bool) :
    Agrees (addBlock s ptr sz stop ordered) (s.addBlock ptr sz stop ordered) := by
  cases ordered with
  | false => exact (Asserting.addBlock_agrees _ _ _ _).bind fun _ => agrees_pure _
  | true => exact (Asserting.addOrderedBlock_agrees _ _ _ _).bind fun _ => agrees_pure _

theorem askUpstream_agrees (up : Upstream) (bytes alignment : Nat) :
    Agrees (askUpstream up bytes alignment) (Pmr.askUpstream up bytes alignment) := by
  rw [askUpstream, Pmr.askUpstream]
  cases up bytes alignment with
  | none => exact agrees_pure _
  | some p => exact (agrees_check _ _).bind fun _ => agrees_pure _

theorem giveUpstream_agrees (give : Mem → Region → Mem) (m : Mem) (g : Grant) :
    Agrees (giveUpstream give m g) (Pmr.giveUpstream give m g) :=
  (agrees_check _ _).bind fun _ => agrees_pure _

theorem requestNewBlock_agrees (s : Pool) (up : Upstream) (minSize : Nat) (ordered : Bool) :
    Agrees (requestNewBlock s up minSize ordered)
      (Pmr.ResourcePool.requestNewBlock s up minSize ordered) := by
  refine (agrees_loop _).bind fun sz => (askUpstream_agrees _ _ _).bind fun ⟨block, traffic⟩ => ?_
  cases block with
  | none => exact agrees_pure _
  | some block =>
    by_cases hz : block = 0
    · simp only [hz, if_true]
      exact agrees_pure _
    · simp only [hz, if_false]
      exact (addBlock_agrees _ _ _ _ _).bind fun _ => (agrees_check _ _).bind fun _ => agrees_pure _

theorem orderedMalloc_agrees (s : Pool) (up : Upstream) (n : Nat) :
    Agrees (orderedMalloc s up n) (Pmr.ResourcePool.orderedMalloc s up n) := by
  refine Agrees.bind (agrees_check Failure.assertion (n ≠ 0)) fun _ => (agrees_orFail _ _).bind
    fun count => ?_
  refine (agrees_loop _).bind fun ⟨st, p⟩ => ?_
  by_cases hp : p = 0
  · simp only [hp, ne_eq, not_true_eq_false, if_false]
    refine (requestNewBlock_agrees _ _ _ _).bind fun ⟨s', ok, traffic⟩ => ?_
    by_cases hok : ok = none
    · simp only [hok, if_true]
      exact agrees_pure _
    · simp only [hok, if_false]
      exact (agrees_loop _).bind fun _ => agrees_pure _
  · simp only [hp, ne_eq, not_false_eq_true, if_true]
    exact agrees_pure _

theorem orderedFreeN_agrees (s : Pool) (ptr n : Nat) :
    Agrees (orderedFreeN s ptr n) (s.orderedFreeN ptr n) :=
  (agrees_orFail _ _).bind fun _ => (Asserting.addOrderedBlock_agrees _ _ _ _).bind
    fun _ => agrees_pure _

end ResourcePool

theorem doAllocate_agrees (s : Synchronised) (up : Upstream) (bytes alignment : Nat) :
    Agrees (doAllocate s up bytes alignment) (s.doAllocate up bytes alignment) := by
  rw [doAllocate, Synchronised.doAllocate]
  split
  · exact (ResourcePool.askUpstream_agrees _ _ _).bind fun _ => agrees_pure _
  · exact (agrees_orFail _ _).bind fun _ => (agrees_check _ _).bind fun _ =>
      (ResourcePool.orderedMalloc_agrees _ _ _).bind fun _ => agrees_pure _

theorem doDeallocate_agrees (s : Synchronised) (give : Mem → Region → Mem) (g : Grant) :
    Agrees (doDeallocate s give g) (s.doDeallocate give g) := by
  rw [doDeallocate, Synchronised.doDeallocate]
  split
  · exact (ResourcePool.giveUpstream_agrees _ _ _).bind fun _ => agrees_pure _
  · refine Agrees.bind ?_ fun _ => agrees_pure _
    exact (agrees_orFail _ _).bind fun _ => (agrees_check _ _).bind fun _ =>
      (ResourcePool.orderedFreeN_agrees _ _ _).bind fun _ => agrees_pure _

end Gpcl.Pmr.Asserting
