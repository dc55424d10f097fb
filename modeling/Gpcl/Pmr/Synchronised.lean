import Gpcl.Pmr.ResourcePool

/-! # synchronised_pool_resource

Small requests are served by pools for fixed sizes; large ones, and those with an extended
alignment, are passed to upstream. The mutex makes each method one step. All pools live in one
memory, so a pool is brought into the memory of the resource before it is used. -/
namespace Gpcl.Pmr
open Lib.Memory
open Monotonic (maxAlign)

/-- `pools` has the entries of `pools_`, the one with the largest key first. -/
structure Synchronised where
  largestRequiredPoolBlock : Nat
  blocksFromUpstream : List Grant
  pools : List (Nat × Pool)
  mem : Mem

namespace Synchronised

def poolSizes : List Nat := [1, 2, 4, 8, 16, 32, 64, 96, 128, 256]

/-- The loop of `create_pools`. -/
def createPools (largest : Nat) (m : Mem) :
    List Nat → List (Nat × Pool) → Option (List (Nat × Pool))
  | [], pools => some pools
  | size :: sizes, pools =>
    if size ≥ largest then some pools
    else do
      let pool ← Pool.new size m
      createPools largest m sizes ((size, pool) :: pools)

/-- The constructor. -/
def new (largest : Nat) (m : Mem) : Option Synchronised := do
  let pools ← createPools largest m poolSizes []
  pure { largestRequiredPoolBlock := largest, blocksFromUpstream := [], pools, mem := m }

/-- The request is passed straight to upstream. -/
def direct (s : Synchronised) (bytes alignment : Nat) : Bool :=
  bytes ≥ s.largestRequiredPoolBlock || alignment > maxAlign

/-- A pool of the map, with the entries before it and behind it. -/
structure Place where
  front : List (Nat × Pool)
  key : Nat
  pool : Pool
  behind : List (Nat × Pool)

/-- The pool with the largest key that divides the size. -/
def getPool (bytes : Nat) : List (Nat × Pool) → Option Place
  | [] => none
  | (key, pool) :: rest =>
    if bytes % key = 0 then some ⟨[], key, pool, rest⟩
    else (getPool bytes rest).map fun c => { c with front := (key, pool) :: c.front }

/-- A pool in the memory of the resource. -/
def inMem (m : Mem) (pool : Pool) : Pool := { pool with storage.mem := m }

/-- The resource after a method of the pool, which stands in `c`. -/
def put (s : Synchronised) (c : Place) (pool : Pool) : Synchronised :=
  { s with pools := c.front ++ (c.key, pool) :: c.behind, mem := pool.storage.mem }

def allocateFromPool (s : Synchronised) (up : Upstream) (bytes : Nat) :
    Option (Synchronised × Option Nat × List Traffic) := do
  let c ← getPool bytes s.pools
  guard (bytes % c.pool.requestedSize = 0)
  let (pool, ret, traffic) ←
    ResourcePool.orderedMalloc (inMem s.mem c.pool) up (bytes / c.pool.requestedSize)
  pure (s.put c pool, ret, traffic)

def deallocateFromPool (s : Synchronised) (ptr bytes : Nat) : Option Synchronised := do
  let c ← getPool bytes s.pools
  guard (bytes % c.pool.requestedSize = 0)
  let pool ← (inMem s.mem c.pool).orderedFreeN ptr (bytes / c.pool.requestedSize)
  pure (s.put c pool)

def doAllocate (s : Synchronised) (up : Upstream) (bytes alignment : Nat) :
    Option (Synchronised × Option Nat × List Traffic) :=
  if s.direct bytes alignment then do
    let (ret, traffic) ← askUpstream up bytes alignment
    pure (s, ret, traffic)
  else s.allocateFromPool up bytes

def doDeallocate (s : Synchronised) (give : Mem → Region → Mem) (g : Grant) :
    Option (Synchronised × List Traffic) :=
  if s.direct g.bytes g.alignment then do
    let (mem, traffic) ← giveUpstream give s.mem g
    pure ({ s with mem }, traffic)
  else do
    let s ← s.deallocateFromPool g.ptr g.bytes
    pure (s, [])

/-- `memory_resource::allocate`. -/
def allocate (s : Synchronised) (up : Upstream) (bytes alignment : Nat) :
    Option (Synchronised × Option Nat × List Traffic) := do
  let (s, ret, traffic) ← s.doAllocate up bytes alignment
  guard (ret.getD 0 % alignment = 0)
  pure (s, ret, traffic)

/-- `memory_resource::deallocate`. -/
def deallocate (s : Synchronised) (give : Mem → Region → Mem) (g : Grant) :
    Option (Synchronised × List Traffic) := do
  guard (g.ptr % g.alignment = 0)
  s.doDeallocate give g

/-- The destructors of the pools. -/
def destroyPools (give : Mem → Region → Mem) : List (Nat × Pool) → Mem → Option (Mem × List Traffic)
  | [], m => some (m, [])
  | (_, pool) :: rest, m => do
    let (m, traffic) ← ResourcePool.destroyLoop give m pool.blockList
    let (m, traffic') ← destroyPools give rest m
    pure (m, traffic ++ traffic')

/-- The loop over `blocks_from_upstream_`. -/
def returnBlocks (give : Mem → Region → Mem) : List Grant → Mem → Option (Mem × List Traffic)
  | [], m => some (m, [])
  | g :: rest, m => do
    let (m, traffic) ← giveUpstream give m g
    let (m, traffic') ← returnBlocks give rest m
    pure (m, traffic ++ traffic')

def release (s : Synchronised) (give : Mem → Region → Mem) :
    Option (Synchronised × List Traffic) := do
  let (m, traffic) ← destroyPools give s.pools s.mem
  let (m, traffic') ← returnBlocks give s.blocksFromUpstream m
  let pools ← createPools s.largestRequiredPoolBlock m poolSizes []
  pure ({ s with blocksFromUpstream := [], pools, mem := m }, traffic ++ traffic')

/-- The destructor: its body, then the pools. -/
def destroy (s : Synchronised) (give : Mem → Region → Mem) : Option (List Traffic) := do
  let (m, traffic) ← returnBlocks give s.blocksFromUpstream s.mem
  let (_, traffic') ← destroyPools give s.pools m
  pure (traffic ++ traffic')

end Synchronised

end Gpcl.Pmr
