import Mathlib.Data.List.Nodup
import Gpcl.Pmr.Synchronised

/-! # The books of a synchronised_pool_resource

Every block that upstream hands out is in one of three places until it is returned: in the chain of
a pool, with a client that asked for it directly, or nowhere, because the client still had it when
the resource was released. The resource keeps no record of what it passes on, so `release` and the
destructor balance the books exactly when the last two places are empty. -/
namespace Gpcl.Pmr.Synchronised
open Lib.Memory Lib.Chain Lib.Runs
open ResourcePool (Honest blockGrant Grown)
open Monotonic (maxAlign)

/-- `stranded` has the direct requests whose clients still held them at a `release` or at the
destruction. -/
structure World where
  res : Option Synchronised
  live : List Grant
  stranded : List Grant
  log : List Traffic

def World.start (s : Synchronised) : World := ⟨some s, [], [], []⟩

inductive Op
  | allocate (up : Upstream) (bytes alignment : Nat)
  | deallocate (give : Mem → Region → Mem) (g : Grant)
  | write (a : Nat) (v : UInt8)
  | release (give : Mem → Region → Mem)
  | destroy (give : Mem → Region → Mem)

def region (g : Grant) : Region := ⟨g.ptr, g.bytes⟩

/-- The blocks of the pools. -/
def blocks (pools : List (Nat × Pool)) : List Region := pools.flatMap fun e => e.2.obtained

/-- The requests of the clients that were passed straight to upstream. -/
def directs (s : Synchronised) (live : List Grant) : List Grant :=
  live.filter fun g => s.direct g.bytes g.alignment

/-- The memory of upstream that is in use. -/
def taken (s : Synchronised) (live : List Grant) : List Region :=
  blocks s.pools ++ (s.directs live).map region

/-- Upstream's answers do not overlap, no object is larger than `PTRDIFF_MAX`, what is deallocated
is held, a client writes to what it holds, and upstream changes only the block it takes back. -/
def Op.Allowed (w : World) : Op → Prop
  | .allocate up bytes alignment =>
    ∃ s, w.res = some s ∧ Honest up (s.taken w.live) ∧
      (s.direct bytes alignment = false → bytes < 2 ^ 63)
  | .deallocate give g => g ∈ w.live ∧ ∀ m r, Outside [r] m (give m r)
  | .write a _ => ∃ g ∈ w.live, (region g).Contains a
  | .release give | .destroy give => w.res.isSome ∧ ∀ m r, Outside [r] m (give m r)

def World.exec (w : World) : Op → Option World
  | .allocate up bytes alignment => do
    let s ← w.res
    let (s, ret, traffic) ← s.allocate up bytes alignment
    let live := if ret.getD 0 = 0 then w.live else ⟨ret.getD 0, bytes, alignment⟩ :: w.live
    pure { w with res := some s, live, log := w.log ++ traffic }
  | .deallocate give g => do
    let s ← w.res
    let (s, traffic) ← s.deallocate give g
    pure { w with res := some s, live := w.live.erase g, log := w.log ++ traffic }
  | .write a v => do
    let s ← w.res
    pure { w with res := some { s with mem := Function.update s.mem a v } }
  | .release give => do
    let s ← w.res
    let (s', traffic) ← s.release give
    pure ⟨some s', [], w.stranded ++ s.directs w.live, w.log ++ traffic⟩
  | .destroy give => do
    let s ← w.res
    let traffic ← s.destroy give
    pure ⟨none, [], w.stranded ++ s.directs w.live, w.log ++ traffic⟩

/-- An allowed operation that returns. -/
def Step (w : World) (op : Op) (w' : World) : Prop := op.Allowed w ∧ w.exec op = some w'

/-- `release` and the destructor. -/
def Op.GivesBack : Op → Prop
  | .release _ | .destroy _ => True
  | _ => False

def handedOut (log : List Traffic) : List Grant :=
  log.filterMap fun | .obtained g => some g | .returned _ => none

def givenBack (log : List Traffic) : List Grant :=
  log.filterMap fun | .obtained _ => none | .returned g => some g

/-- Every block that upstream handed out was returned once, as it was handed out, and nothing else
was. -/
def Balanced (log : List Traffic) : Prop := (givenBack log).Perm (handedOut log)

/-- The key of the pool that serves a request. -/
def servedBy (keys : List Nat) (bytes : Nat) : Option Nat := keys.find? fun key => bytes % key == 0

/-- What clients hold from the pool with a key: pointers and numbers of objects. -/
def heldFrom (s : Synchronised) (live : List Grant) (key : Nat) : List (Nat × Nat) :=
  (live.filter fun g => !s.direct g.bytes g.alignment &&
    servedBy (s.pools.map Prod.fst) g.bytes == some key).map
    fun g => (g.ptr, g.bytes / key)

/-- What upstream has handed out and can still come back. -/
def outstanding (s : Synchronised) (live : List Grant) : List Grant :=
  (blocks s.pools).map blockGrant ++ s.directs live

/-- The sizes of the pool that serves the request do not wrap, and it asks upstream for no block
without bytes. -/
def Countable (s : Synchronised) (bytes : Nat) : Prop :=
  ∀ c, getPool bytes s.pools = some c → bytes + c.pool.chunkSize ≤ addressSpace ∧
    ¬ ResourcePool.AsksNothing c.pool (c.pool.countOf (bytes / c.key) * c.pool.chunkSize)

structure Inv (s : Synchronised) (live : List Grant) : Prop where
  keys : (s.pools.map Prod.fst).Nodup
  pools : ∀ e ∈ s.pools, ResourcePool.Inv e.1 (inMem s.mem e.2) (s.heldFrom live e.1)
  apart : (s.taken live).Pairwise Region.Disjoint
  served : ∀ g ∈ live, s.direct g.bytes g.alignment = false →
    (servedBy (s.pools.map Prod.fst) g.bytes).isSome
  unlisted : s.blocksFromUpstream = []

section
variable {s : Synchronised} {live : List Grant} {c : Place} {bytes : Nat}

theorem getPool_some {pools : List (Nat × Pool)} (h : getPool bytes pools = some c) :
    pools = c.front ++ (c.key, c.pool) :: c.behind ∧ bytes % c.key = 0 ∧
    servedBy (pools.map Prod.fst) bytes = some c.key := by
  induction pools generalizing c with
  | nil => cases h
  | cons e pools ih =>
    obtain ⟨key, pool⟩ := e
    rw [getPool] at h
    by_cases hk : bytes % key = 0
    · rw [if_pos hk] at h
      obtain rfl := Option.some.inj h
      exact ⟨rfl, hk, by simp [servedBy, hk]⟩
    · rw [if_neg hk] at h
      obtain ⟨c', hc', rfl⟩ := Option.map_eq_some_iff.mp h
      obtain ⟨hpools, hmod, hserved⟩ := ih hc'
      refine ⟨by rw [hpools]; rfl, hmod, ?_⟩
      simpa [servedBy, hk] using hserved

theorem blocks_place {pools : List (Nat × Pool)} (pool : Pool) (front behind : List (Nat × Pool))
    (key : Nat) (h : pools = front ++ (key, pool) :: behind) :
    blocks pools = blocks front ++ (pool.obtained ++ blocks behind) := by
  simp [blocks, h]

/-- Blocks of different pools do not overlap. -/
theorem Inv.blocks_apart (h : Inv s live) {e e' : Nat × Pool} (he : e ∈ s.pools)
    (he' : e' ∈ s.pools) (hne : e.1 ≠ e'.1) :
    ∀ a ∈ e.2.obtained, ∀ r ∈ e'.2.obtained, a.Disjoint r := by
  have hpairs := (List.pairwise_flatMap.mp (List.pairwise_append.mp h.apart).1).2
  have hsymm : Std.Symm fun e e' : Nat × Pool => ∀ a ∈ e.2.obtained, ∀ r ∈ e'.2.obtained,
      a.Disjoint r :=
    ⟨fun _ _ hee a ha r hr => (hee r hr a ha).symm⟩
  exact hpairs.forall he he' fun heq => hne (congrArg Prod.fst heq)

/-- A method of one pool leaves the others alone. -/
theorem Inv.put (h : Inv s live) {pool : Pool} {live' : List Grant}
    (hc : s.pools = c.front ++ (c.key, c.pool) :: c.behind)
    (hpool : ResourcePool.Inv c.key pool (s.heldFrom live' c.key))
    (ho : Outside pool.obtained s.mem pool.storage.mem)
    (hheld : ∀ key ≠ c.key, (s.heldFrom live key).Perm (s.heldFrom live' key))
    (hapart : ((s.put c pool).taken live').Pairwise Region.Disjoint)
    (hserved : ∀ g ∈ live', s.direct g.bytes g.alignment = false →
      (servedBy (s.pools.map Prod.fst) g.bytes).isSome) :
    Inv (s.put c pool) live' := by
  have hkeys : (s.put c pool).pools.map Prod.fst = s.pools.map Prod.fst := by
    simp [Synchronised.put, hc]
  have hheld' : ∀ key, (s.put c pool).heldFrom live' key = s.heldFrom live' key := by
    intro key
    simp only [heldFrom, hkeys]
    rfl
  have hnodup := h.keys
  rw [hc, List.map_append, List.map_cons, List.nodup_append, List.nodup_cons] at hnodup
  obtain ⟨-, ⟨hbehind, -⟩, hfront⟩ := hnodup
  have hblocks :
      blocks (s.put c pool).pools = blocks c.front ++ (pool.obtained ++ blocks c.behind) :=
    blocks_place pool c.front c.behind c.key rfl
  have hall := (List.pairwise_append.mp hapart).1
  rw [hblocks, List.pairwise_append, List.pairwise_append] at hall
  obtain ⟨-, ⟨-, -, hpb⟩, hfp⟩ := hall
  -- an entry of another key, whose blocks meet none of this pool
  have other : ∀ e ∈ s.pools, e.1 ≠ c.key →
    (∀ a ∈ pool.obtained, ∀ r ∈ e.2.obtained, a.Disjoint r) →
      ResourcePool.Inv e.1 (inMem pool.storage.mem e.2) (s.heldFrom live' e.1) := by
    intro e he hne hd
    exact ((h.pools e he).frame ho hd).perm_live (hheld e.1 hne)
  refine ⟨by rw [hkeys]; exact h.keys, ?_, hapart, by rw [hkeys]; exact hserved, h.unlisted⟩
  intro e he
  rw [hheld']
  have he' : e ∈ c.front ++ (c.key, pool) :: c.behind := he
  rcases List.mem_append.mp he' with he' | he'
  · refine other e (by simp [hc, he']) ?_ ?_
    · exact hfront _ (List.mem_map_of_mem he') _ List.mem_cons_self
    · intro a ha r hr
      exact (hfp r (List.mem_flatMap.mpr ⟨e, he', hr⟩) a (List.mem_append_left _ ha)).symm
  · rcases List.mem_cons.mp he' with rfl | he'
    · exact hpool
    · refine other e (by simp [hc, he']) ?_ ?_
      · intro heq
        exact hbehind (List.mem_map.mpr ⟨e, he', heq⟩)
      · intro a ha r hr
        exact hpb a ha r (List.mem_flatMap.mpr ⟨e, he', hr⟩)

/-- Memory that is in no pool. -/
theorem Inv.frame (h : Inv s live) {m : Mem} {a : Region} {live' : List Grant}
    (ho : Outside [a] s.mem m) (hd : ∀ r ∈ blocks s.pools, a.Disjoint r)
    (hheld : ∀ key, (s.heldFrom live key).Perm (s.heldFrom live' key))
    (hapart : (s.taken live').Pairwise Region.Disjoint) (hsub : ∀ g ∈ live', g ∈ live) :
    Inv { s with mem := m } live' := by
  refine ⟨h.keys, ?_, hapart, fun g hg => h.served g (hsub g hg), h.unlisted⟩
  intro e he
  refine ResourcePool.Inv.perm_live ((h.pools e he).frame ho ?_) (hheld e.1)
  intro b hb r hr
  obtain rfl := List.mem_singleton.mp hb
  exact hd r (List.mem_flatMap.mpr ⟨e, he, hr⟩)

/-! ## What clients hold -/

theorem directs_cons (g : Grant) :
    s.directs (g :: live) = if s.direct g.bytes g.alignment then g :: s.directs live
    else s.directs live := by
  simp only [directs, List.filter_cons]

theorem heldFrom_cons (g : Grant) (key : Nat) : s.heldFrom (g :: live) key =
    if !s.direct g.bytes g.alignment && servedBy (s.pools.map Prod.fst) g.bytes == some key then
      (g.ptr, g.bytes / key) :: s.heldFrom live key else s.heldFrom live key := by
  simp only [heldFrom, List.filter_cons]
  split <;> rfl

theorem heldFrom_direct {g : Grant} (hd : s.direct g.bytes g.alignment = true) (key : Nat) :
    s.heldFrom (g :: live) key = s.heldFrom live key := by
  simp [heldFrom_cons, hd]

theorem heldFrom_other {g : Grant} {key key' : Nat}
    (hs : servedBy (s.pools.map Prod.fst) g.bytes = some key) (hne : key' ≠ key) :
    s.heldFrom (g :: live) key' = s.heldFrom live key' := by
  simp [heldFrom_cons, hs, hne.symm]

theorem heldFrom_served {g : Grant} {key : Nat} (hd : s.direct g.bytes g.alignment = false)
    (hs : servedBy (s.pools.map Prod.fst) g.bytes = some key) :
    s.heldFrom (g :: live) key = (g.ptr, g.bytes / key) :: s.heldFrom live key := by
  simp [heldFrom_cons, hd, hs]

theorem heldFrom_perm {live' : List Grant} (h : live.Perm live') (key : Nat) :
    (s.heldFrom live key).Perm (s.heldFrom live' key) :=
  (h.filter _).map _

theorem directs_perm {live' : List Grant} (h : live.Perm live') :
    (s.directs live).Perm (s.directs live') := h.filter _

/-! ## Requests -/

theorem pairwise_perm {rs rs' : List Region} (h : rs.Perm rs') (hp : rs.Pairwise Region.Disjoint) :
    rs'.Pairwise Region.Disjoint :=
  (h.pairwise_iff Region.Disjoint.symm).mp hp

/-- A pool of the map that has grown. -/
theorem blocks_put {pool : Pool} {new : Option Region}
    (hc : s.pools = c.front ++ (c.key, c.pool) :: c.behind)
    (hnew : pool.obtained = new.toList ++ c.pool.obtained) :
    (new.toList ++ blocks s.pools).Perm (blocks (s.put c pool).pools) := by
  have hput : blocks (s.put c pool).pools = blocks c.front ++ (pool.obtained ++ blocks c.behind) :=
    blocks_place pool c.front c.behind c.key rfl
  rw [blocks_place c.pool c.front c.behind c.key hc, hput, hnew, List.append_assoc]
  exact List.perm_append_comm_assoc _ _ _

/-- An object that is no larger than `PTRDIFF_MAX`. -/
theorem Inv.countable (h : Inv s live) (hb : bytes < 2 ^ 63) : s.Countable bytes := by
  intro c hc
  obtain ⟨hpools, hmod, -⟩ := getPool_some hc
  have hpool := h.pools (c.key, c.pool) (by simp [hpools])
  obtain ⟨l, hl⟩ := hpool.pool
  have hsmall : c.pool.chunkSize ≤ 128 ∨ c.pool.chunkSize = 256 := hpool.small
  have hrequested : c.pool.requestedSize = c.key := hpool.requested
  have hbound := (Pool.countOf_bounds (s := c.pool) (n := bytes / c.key) hl.chunkSize_pos).2
  rw [hrequested, Nat.div_mul_cancel (Nat.dvd_of_mod_eq_zero hmod)] at hbound
  refine ⟨?_, ResourcePool.not_asksNothing ?_⟩
  · unfold addressSpace
    omega
  · unfold addressSpace Pool.sizeofBlockInfo
    omega

theorem orderedMalloc_pos {pool pool' : Pool} {up : Upstream} {n : Nat} {ret : Option Nat}
    {traffic : List Traffic}
    (h : ResourcePool.orderedMalloc pool up n = some (pool', ret, traffic)) : n ≠ 0 := by
  rintro rfl
  simp [ResourcePool.orderedMalloc, guard] at h

/-- A request that is served by a pool. -/
theorem Inv.allocateFromPool (h : Inv s live) {up : Upstream} {alignment : Nat}
    (hup : Honest up (s.taken live)) (hd : s.direct bytes alignment = false)
    (hb : s.Countable bytes) {s' : Synchronised} {ret : Option Nat} {traffic : List Traffic}
    (hrun : s.allocateFromPool up bytes = some (s', ret, traffic)) {live' : List Grant}
    (hlive : live' = if ret.getD 0 = 0 then live else ⟨ret.getD 0, bytes, alignment⟩ :: live) :
    Inv s' live' ∧
    ∃ new : Option Region, traffic = new.toList.map (fun r => .obtained (blockGrant r)) ∧
      (new.toList.map blockGrant ++ s.outstanding live).Perm (s'.outstanding live') := by
  simp only [Synchronised.allocateFromPool, Option.bind_eq_bind, Option.bind_eq_some_iff] at hrun
  obtain ⟨c, hc, -, -, ⟨pool, ret, traffic⟩, hmalloc, hrun⟩ := hrun
  obtain ⟨rfl, rfl, rfl⟩ := by simpa using hrun
  obtain ⟨hpools, hmod, hserved⟩ := getPool_some hc
  have hentry : (c.key, c.pool) ∈ s.pools := by simp [hpools]
  have hpool := h.pools _ hentry
  have hrequested : c.pool.requestedSize = c.key := hpool.requested
  rw [hrequested] at hmalloc
  have htaken : ∀ r ∈ c.pool.obtained, r ∈ s.taken live := by
    intro r hr
    exact List.mem_append_left _ (List.mem_flatMap.mpr ⟨_, hentry, hr⟩)
  obtain ⟨hfits, hask⟩ := hb c hc
  have hcounts : (inMem s.mem c.pool).Counts (bytes / c.key) := by
    refine ⟨Nat.pos_of_ne_zero (orderedMalloc_pos hmalloc), ?_⟩
    rw [hpool.requested, Nat.div_mul_cancel (Nat.dvd_of_mod_eq_zero hmod)]
    exact hfits
  obtain ⟨hinv, new, hgrown⟩ := hpool.orderedMalloc hup htaken hcounts hask hmalloc
  have hblocks := blocks_put hpools hgrown.obtained
  have hdirects : (s.put c pool).directs live' = s.directs live := by
    have hdir : s.directs live' = s.directs live := by
      rw [hlive]
      split
      · rfl
      · simp [directs_cons, hd]
    exact hdir
  have hheld : s.heldFrom live' c.key = if ret.getD 0 = 0 then s.heldFrom live c.key
      else (ret.getD 0, bytes / c.key) :: s.heldFrom live c.key := by
    rw [hlive]
    split
    · rfl
    · exact heldFrom_served (g := ⟨_, bytes, alignment⟩) hd hserved
  refine ⟨h.put hpools ?_ hgrown.outside ?_ ?_ ?_, new, hgrown.traffic, ?_⟩
  · rw [hheld]
    exact hinv
  · intro key hne
    rw [hlive]
    split
    · exact List.Perm.refl _
    · rw [heldFrom_other hserved hne]
  · have hapart : (new.toList ++ s.taken live).Pairwise Region.Disjoint := by
      refine List.pairwise_append.mpr ⟨?_, h.apart, ?_⟩
      · cases new with
        | none => simp
        | some r => simp
      · intro r hr
        exact hgrown.apart r (by simpa using hr)
    refine pairwise_perm ?_ hapart
    rw [taken, taken, hdirects, ← List.append_assoc]
    exact hblocks.append_right _
  · intro g hg
    rw [hlive] at hg
    split at hg
    · exact h.served g hg
    · rcases List.mem_cons.mp hg with rfl | hg
      · exact fun _ => by simp [hserved]
      · exact h.served g hg
  · rw [outstanding, outstanding, hdirects, ← List.append_assoc, ← List.map_append]
    exact (hblocks.map blockGrant).append_right _

/-- A request that is passed on. -/
theorem Inv.askDirect (h : Inv s live) {up : Upstream} {alignment : Nat}
    (hup : Honest up (s.taken live)) (hd : s.direct bytes alignment = true) {ret : Option Nat}
    {traffic : List Traffic} (hrun : askUpstream up bytes alignment = some (ret, traffic))
    {live' : List Grant}
    (hlive : live' = if ret.getD 0 = 0 then live else ⟨ret.getD 0, bytes, alignment⟩ :: live) :
    Inv s live' ∧ givenBack traffic = [] ∧
    (handedOut traffic ++ s.outstanding live).Perm (s.outstanding live') := by
  obtain ⟨rfl, hnone⟩ | ⟨p, hp, rfl, hans, -, rfl⟩ := ResourcePool.askUpstream_some hrun
  · have hsame : live' = live := by
      rw [hlive]
      rcases hnone with rfl | rfl
      · rfl
      · rfl
    rw [hsame]
    exact ⟨h, rfl, List.Perm.refl _⟩
  · have hlive' : live' = ⟨p, bytes, alignment⟩ :: live := by simp [hlive, hp]
    have hdirects : s.directs live' = ⟨p, bytes, alignment⟩ :: s.directs live := by
      simp [hlive', directs_cons, hd]
    obtain ⟨-, hapart⟩ := hup _ _ _ hans hp
    refine ⟨⟨h.keys, ?_, ?_, ?_, h.unlisted⟩, rfl, ?_⟩
    · intro e he
      rw [hlive', heldFrom_direct hd]
      exact h.pools e he
    · have hnew : (⟨p, bytes⟩ :: s.taken live).Pairwise Region.Disjoint :=
        List.pairwise_cons.mpr ⟨hapart, h.apart⟩
      refine pairwise_perm ?_ hnew
      rw [taken, taken, hdirects]
      exact List.perm_middle.symm
    · intro g hg
      rw [hlive'] at hg
      rcases List.mem_cons.mp hg with rfl | hg
      · exact fun hnot => absurd hd (by simp [hnot])
      · exact h.served g hg
    · rw [outstanding, outstanding, hdirects]
      have hout : handedOut [.obtained ⟨p, bytes, alignment⟩] = [⟨p, bytes, alignment⟩] := rfl
      rw [hout, List.singleton_append]
      exact List.perm_middle.symm

/-- A request, by either way. -/
theorem Inv.allocate (h : Inv s live) {up : Upstream} {alignment : Nat}
    (hup : Honest up (s.taken live)) (hb : s.direct bytes alignment = false → s.Countable bytes)
    {s' : Synchronised} {ret : Option Nat} {traffic : List Traffic}
    (hrun : s.allocate up bytes alignment = some (s', ret, traffic)) {live' : List Grant}
    (hlive : live' = if ret.getD 0 = 0 then live else ⟨ret.getD 0, bytes, alignment⟩ :: live) :
    Inv s' live' ∧ givenBack traffic = [] ∧
    (handedOut traffic ++ s.outstanding live).Perm (s'.outstanding live') := by
  simp only [Synchronised.allocate, Option.bind_eq_bind, Option.bind_eq_some_iff] at hrun
  obtain ⟨⟨s₁, ret, traffic⟩, hdo, -, -, hrun⟩ := hrun
  obtain ⟨rfl, rfl, rfl⟩ := by simpa using hrun
  unfold doAllocate at hdo
  by_cases hd : s.direct bytes alignment = true
  · simp only [hd, if_true, Option.bind_eq_bind, Option.bind_eq_some_iff] at hdo
    obtain ⟨⟨ret, traffic⟩, hask, hdo⟩ := hdo
    obtain ⟨rfl, rfl, rfl⟩ := by simpa using hdo
    exact h.askDirect hup hd hask hlive
  · rw [Bool.not_eq_true] at hd
    simp only [hd, Bool.false_eq_true, if_false] at hdo
    obtain ⟨hinv, new, rfl, hbooks⟩ := h.allocateFromPool hup hd (hb hd) hdo hlive
    refine ⟨hinv, ?_, ?_⟩
    · simp [givenBack, List.filterMap_map]
    · have hout :
          handedOut (new.toList.map fun r => .obtained (blockGrant r)) =
            new.toList.map blockGrant := by
        simp [handedOut, List.filterMap_map]
      rw [hout]
      exact hbooks

/-- What a client gives back. -/
theorem Inv.deallocate (h : Inv s live) {give : Mem → Region → Mem}
    (hgive : ∀ m r, Outside [r] m (give m r)) {g : Grant} (hg : g ∈ live) {s' : Synchronised}
    {traffic : List Traffic} (hrun : s.deallocate give g = some (s', traffic)) :
    Inv s' (live.erase g) ∧ handedOut traffic = [] ∧
    (givenBack traffic ++ s'.outstanding (live.erase g)).Perm (s.outstanding live) := by
  simp only [Synchronised.deallocate, Option.bind_eq_bind, Option.bind_eq_some_iff] at hrun
  obtain ⟨-, -, hdo⟩ := hrun
  have hperm := List.perm_cons_erase hg
  unfold doDeallocate at hdo
  by_cases hd : s.direct g.bytes g.alignment = true
  · have hdirects : (s.directs live).Perm (g :: s.directs (live.erase g)) := by
      refine (directs_perm hperm).trans ?_
      rw [directs_cons, if_pos hd]
    have htaken : (s.taken live).Perm (region g :: s.taken (live.erase g)) := by
      refine ((hdirects.map region).append_left _).trans ?_
      exact List.perm_middle
    have hapart := List.pairwise_cons.mp (pairwise_perm htaken h.apart)
    simp only [hd, if_true, giveUpstream, Option.bind_eq_bind, Option.bind_eq_some_iff] at hdo
    obtain ⟨⟨m, traffic⟩, ⟨-, -, hm⟩, hdo⟩ := hdo
    obtain ⟨rfl, rfl⟩ := by simpa using hm
    obtain ⟨rfl, rfl⟩ := by simpa using hdo
    refine ⟨h.frame (hgive s.mem (region g)) ?_ ?_ hapart.2 (fun _ => List.mem_of_mem_erase),
      rfl, ?_⟩
    · intro r hr
      exact hapart.1 r (List.mem_append_left _ hr)
    · intro key
      have hsame : s.heldFrom (g :: live.erase g) key = s.heldFrom (live.erase g) key :=
        heldFrom_direct hd key
      rw [← hsame]
      exact heldFrom_perm hperm key
    · have hmiddle :
          (g :: s.outstanding (live.erase g)).Perm
            ((blocks s.pools).map blockGrant ++ g :: s.directs (live.erase g)) :=
        List.perm_middle.symm
      exact hmiddle.trans (hdirects.symm.append_left _)
  · rw [Bool.not_eq_true] at hd
    have hdirects : (s.directs live).Perm (s.directs (live.erase g)) := by
      refine (directs_perm hperm).trans ?_
      rw [directs_cons, hd]
      exact List.Perm.refl _
    simp only [hd, Bool.false_eq_true, if_false, deallocateFromPool, Option.bind_eq_bind,
      Option.bind_eq_some_iff] at hdo
    obtain ⟨s₁, ⟨c, hc, -, -, pool, hfree, hs₁⟩, hdo⟩ := hdo
    obtain rfl := Option.some.inj hs₁
    obtain ⟨rfl, rfl⟩ := by simpa using hdo
    obtain ⟨hpools, hmod, hserved⟩ := getPool_some hc
    have hpool := h.pools (c.key, c.pool) (by simp [hpools])
    have hrequested : c.pool.requestedSize = c.key := hpool.requested
    rw [hrequested] at hfree
    have hheld :
        (s.heldFrom live c.key).Perm
          ((g.ptr, g.bytes / c.key) :: s.heldFrom (live.erase g) c.key) := by
      rw [← heldFrom_served hd hserved]
      exact heldFrom_perm hperm c.key
    obtain ⟨hinv, hobtained, ho⟩ := hpool.orderedFreeN (hheld.mem_iff.mpr List.mem_cons_self) hfree
    have hnone : pool.obtained = (none : Option Region).toList ++ c.pool.obtained := hobtained
    have hblocks : (blocks s.pools).Perm (blocks (s.put c pool).pools) := blocks_put hpools hnone
    refine ⟨h.put hpools ?_ ?_ ?_ ?_ (fun g' hg' => h.served g' (List.mem_of_mem_erase hg')),
      rfl, ?_⟩
    · refine hinv.perm_live ?_
      have herase := hheld.erase (g.ptr, g.bytes / c.key)
      rwa [List.erase_cons_head] at herase
    · rw [hobtained]
      exact ho
    · intro key hne
      have hsame : s.heldFrom (g :: live.erase g) key = s.heldFrom (live.erase g) key :=
        heldFrom_other hserved hne
      rw [← hsame]
      exact heldFrom_perm hperm key
    · refine pairwise_perm ?_ h.apart
      exact hblocks.append (hdirects.map region)
    · exact ((hblocks.map blockGrant).append hdirects).symm

/-- A client writes to what it holds. -/
theorem Inv.write (h : Inv s live) {g : Grant} (hg : g ∈ live) {a : Nat}
    (ha : (region g).Contains a) (v : UInt8) :
    Inv { s with mem := Function.update s.mem a v } live := by
  have ho : Outside [region g] s.mem (Function.update s.mem a v) := by
    intro x hx
    refine Function.update_of_ne (fun he => hx _ (List.mem_singleton_self _) ?_) _ _
    exact he ▸ ha
  by_cases hd : s.direct g.bytes g.alignment = true
  · refine h.frame ho ?_ (fun key => List.Perm.refl _) h.apart (fun _ hg => hg)
    intro r hr
    have hmem : region g ∈ (s.directs live).map region :=
      List.mem_map_of_mem (List.mem_filter.mpr ⟨hg, hd⟩)
    exact ((List.pairwise_append.mp h.apart).2.2 r hr _ hmem).symm
  · rw [Bool.not_eq_true] at hd
    obtain ⟨key, hkey⟩ := Option.isSome_iff_exists.mp (h.served g hg hd)
    obtain ⟨e, hentry, rfl⟩ := List.mem_map.mp (List.mem_of_find?_eq_some hkey)
    have hmod : g.bytes % e.1 = 0 := by simpa using List.find?_some hkey
    have hheld : (g.ptr, g.bytes / e.1) ∈ s.heldFrom live e.1 := by
      refine List.mem_map.mpr ⟨g, List.mem_filter.mpr ⟨hg, ?_⟩, rfl⟩
      simp [hd, hkey]
    have ha' : Region.Contains ⟨g.ptr, g.bytes / e.1 * e.1⟩ a := by
      rw [Nat.div_mul_cancel (Nat.dvd_of_mod_eq_zero hmod)]
      exact ha
    obtain ⟨hinv, hout⟩ := (h.pools e hentry).write v hheld ha'
    refine ⟨h.keys, ?_, h.apart, h.served, h.unlisted⟩
    intro e' he'
    by_cases hk : e'.1 = e.1
    · obtain rfl := List.inj_on_of_nodup_map h.keys he' hentry hk
      exact hinv
    · exact (h.pools e' he').frame hout (h.blocks_apart hentry he' (Ne.symm hk))

end

/-! ## Construction and release -/

/-- A pool as `create_pools` makes it. -/
def Fresh (m : Mem) (e : Nat × Pool) : Prop := e.1 ∈ poolSizes ∧ Pool.new e.1 m = some e.2

theorem poolSizes_small {key : Nat} (h : key ∈ poolSizes) :
    key ≠ 0 ∧ (key.lcm (wordSize.lcm wordSize) ≤ 128 ∨ key.lcm (wordSize.lcm wordSize) = 256) := by
  revert key
  decide

theorem Fresh.inv {m : Mem} {e : Nat × Pool} (h : Fresh m e) :
    ResourcePool.Inv e.1 (inMem m e.2) [] ∧ e.2.obtained = [] := by
  obtain ⟨key, pool⟩ := e
  have hnew : Pool.new key m = some pool := h.2
  obtain ⟨hzero, hsmall⟩ := poolSizes_small (show key ∈ poolSizes from h.1)
  have hinv := Pool.inv_new hnew
  simp only [Pool.new, guard, ne_eq, hzero, not_false_eq_true, if_true] at hnew
  obtain rfl := Option.some.inj hnew
  have hwhole : 8 ∣ key.lcm (wordSize.lcm wordSize) :=
    Nat.dvd_trans (by decide) (Nat.dvd_lcm_right _ _)
  exact ⟨⟨⟨[], hinv⟩, rfl, hwhole, hsmall, ⟨1, rfl⟩, by simp [inMem]⟩, rfl⟩

theorem createPools_spec (largest : Nat) (m : Mem) (sizes : List Nat) (pools : List (Nat × Pool))
    (hsizes : ∀ key ∈ sizes, key ∈ poolSizes) (hkeys : (sizes ++ pools.map Prod.fst).Nodup)
    (hfresh : ∀ e ∈ pools, Fresh m e) :
    ∃ pools', createPools largest m sizes pools = some pools' ∧ (pools'.map Prod.fst).Nodup ∧
    ∀ e ∈ pools', Fresh m e := by
  induction sizes generalizing pools with
  | nil => exact ⟨pools, rfl, hkeys, hfresh⟩
  | cons size sizes ih =>
    rw [createPools]
    by_cases hlarge : size ≥ largest
    · rw [if_pos hlarge]
      exact ⟨pools, rfl, (List.nodup_append.mp hkeys).2.1, hfresh⟩
    · rw [if_neg hlarge]
      have hsize := hsizes size List.mem_cons_self
      obtain ⟨pool, hpool⟩ : ∃ pool, Pool.new size m = some pool := by
        simp [Pool.new, guard, (poolSizes_small hsize).1]
      have hkeys' : (sizes ++ ((size, pool) :: pools).map Prod.fst).Nodup :=
        List.perm_middle.nodup_iff.mpr hkeys
      obtain ⟨pools', hrun, hpools'⟩ :=
          ih ((size, pool) :: pools)
              (fun key hkey => hsizes key (List.mem_cons_of_mem _ hkey)) hkeys' (by
        intro e he
        rcases List.mem_cons.mp he with rfl | he
        · exact ⟨hsize, hpool⟩
        · exact hfresh e he)
      exact ⟨pools', by simp [hpool, hrun], hpools'⟩

theorem blocks_fresh {m : Mem} {pools : List (Nat × Pool)} (h : ∀ e ∈ pools, Fresh m e) :
    blocks pools = [] := by
  refine List.flatMap_eq_nil_iff.mpr ?_
  intro e he
  exact (h e he).inv.2

/-- A resource with new pools. -/
theorem inv_fresh {largest : Nat} {m : Mem} {pools : List (Nat × Pool)}
    (hkeys : (pools.map Prod.fst).Nodup)
    (h : ∀ e ∈ pools, Fresh m e) : Inv ⟨largest, [], pools, m⟩ [] := by
  refine ⟨hkeys, fun e he => (h e he).inv.1, ?_, by simp, rfl⟩
  simp [taken, blocks_fresh h, directs]

theorem inv_new {largest : Nat} {m : Mem} {s : Synchronised} (h : new largest m = some s) :
    Inv s [] ∧ blocks s.pools = [] := by
  obtain ⟨pools, hrun, hkeys, hfresh⟩ :=
    createPools_spec largest m poolSizes [] (fun _ h => h) (by decide) (by simp)
  simp only [new, hrun, Option.bind_eq_bind, Option.bind_some, Option.pure_def,
    Option.some.injEq] at h
  obtain rfl := h
  exact ⟨inv_fresh hkeys hfresh, blocks_fresh hfresh⟩

section
variable {s : Synchronised} {live : List Grant} {give : Mem → Region → Mem}

/-- The pools return their blocks, and none touches the blocks of another. -/
theorem destroyPools_spec (hgive : ∀ m r, Outside [r] m (give m r)) (pools : List (Nat × Pool))
    (m : Mem) (hpools : ∀ e ∈ pools, ∃ live, ResourcePool.Inv e.1 (inMem m e.2) live)
    (hapart : (blocks pools).Pairwise Region.Disjoint) :
    ∃ m', destroyPools give pools m =
      some (m', (blocks pools).map fun r => .returned (blockGrant r)) := by
  induction pools generalizing m with
  | nil => exact ⟨m, rfl⟩
  | cons e pools ih =>
    obtain ⟨live, hinv⟩ := hpools e List.mem_cons_self
    obtain ⟨l, hl⟩ := hinv.pool
    obtain ⟨m₁, hrun, ho⟩ := ResourcePool.destroyLoop_spec hgive hl.blocks hinv.aligned hl.chain
    have hblocks : blocks (e :: pools) = e.2.obtained ++ blocks pools := rfl
    rw [hblocks, List.pairwise_append] at hapart
    obtain ⟨-, hrest, hbetween⟩ := hapart
    obtain ⟨m₂, hrun₂⟩ := ih m₁ (by
      intro e' he'
      obtain ⟨live', hinv'⟩ := hpools e' (List.mem_cons_of_mem _ he')
      refine ⟨live', hinv'.frame ho ?_⟩
      intro a ha r hr
      exact hbetween a ha r (List.mem_flatMap.mpr ⟨e', he', hr⟩)) hrest
    refine ⟨m₂, ?_⟩
    have hrun' :
        ResourcePool.destroyLoop give m e.2.blockList =
          some (m₁, e.2.obtained.map fun r => .returned (blockGrant r)) := hrun
    rw [destroyPools, hblocks]
    simp [hrun', hrun₂]

theorem Inv.destroyPools (h : Inv s live) (hgive : ∀ m r, Outside [r] m (give m r)) :
    ∃ m', destroyPools give s.pools s.mem =
      some (m', (blocks s.pools).map fun r => .returned (blockGrant r)) :=
  destroyPools_spec hgive s.pools s.mem (fun e he => ⟨_, h.pools e he⟩)
    (List.pairwise_append.mp h.apart).1

theorem Inv.release (h : Inv s live) (hgive : ∀ m r, Outside [r] m (give m r)) :
    ∃ s', s.release give = some (s', (blocks s.pools).map fun r => .returned (blockGrant r)) ∧
    Inv s' [] ∧ blocks s'.pools = [] := by
  obtain ⟨m, hrun⟩ := h.destroyPools hgive
  obtain ⟨pools, hcreate, hkeys, hfresh⟩ :=
    createPools_spec s.largestRequiredPoolBlock m poolSizes [] (fun _ h => h) (by decide) (by simp)
  refine ⟨⟨s.largestRequiredPoolBlock, [], pools, m⟩, ?_, inv_fresh hkeys hfresh,
    blocks_fresh hfresh⟩
  simp [Synchronised.release, hrun, h.unlisted, returnBlocks, hcreate]

theorem Inv.destroy (h : Inv s live) (hgive : ∀ m r, Outside [r] m (give m r)) :
    s.destroy give = some ((blocks s.pools).map fun r => .returned (blockGrant r)) := by
  obtain ⟨m, hrun⟩ := h.destroyPools hgive
  simp [Synchronised.destroy, hrun, h.unlisted, returnBlocks]

end

/-! ## Runs -/

theorem handedOut_append (log log' : List Traffic) :
    handedOut (log ++ log') = handedOut log ++ handedOut log' :=
  List.filterMap_append

theorem givenBack_append (log log' : List Traffic) :
    givenBack (log ++ log') = givenBack log ++ givenBack log' :=
  List.filterMap_append

theorem traffic_returned (rs : List Region) :
    handedOut (rs.map fun r => .returned (blockGrant r)) = [] ∧
    givenBack (rs.map fun r => .returned (blockGrant r)) = rs.map blockGrant := by
  simp [handedOut, givenBack, List.filterMap_map]

/-- What is outstanding and was not stranded. -/
def World.due (w : World) : List Grant := w.res.elim [] fun s => s.outstanding w.live

structure World.Inv (w : World) : Prop where
  res : ∀ s, w.res = some s → Synchronised.Inv s w.live
  books : (handedOut w.log).Perm (givenBack w.log ++ (w.due ++ w.stranded))

section
variable {w w' : World} {op : Op}

/-- The books of a step. -/
theorem World.Inv.book (h : w.Inv) {traffic : List Traffic} {rest : List Grant}
    (ht : (handedOut traffic ++ (w.due ++ w.stranded)).Perm (givenBack traffic ++ rest)) :
    (handedOut (w.log ++ traffic)).Perm (givenBack (w.log ++ traffic) ++ rest) := by
  rw [handedOut_append, givenBack_append, List.append_assoc]
  have hfront :
      (handedOut w.log ++ handedOut traffic).Perm
        (handedOut traffic ++ (givenBack w.log ++ (w.due ++ w.stranded))) :=
    List.perm_append_comm.trans (h.books.append_left _)
  have hmiddle : (handedOut traffic ++ (givenBack w.log ++ (w.due ++ w.stranded))).Perm
      (givenBack w.log ++ (handedOut traffic ++ (w.due ++ w.stranded))) :=
        List.perm_append_comm_assoc _ _ _
  exact (hfront.trans hmiddle).trans (ht.append_left _)

/-- The pools give their blocks back; what was passed on stays where it is. -/
theorem World.Inv.book_giveBack (h : w.Inv) {s : Synchronised} (hres : w.res = some s) :
    (handedOut (w.log ++ (blocks s.pools).map fun r => .returned (blockGrant r))).Perm
      (givenBack (w.log ++ (blocks s.pools).map fun r => .returned (blockGrant r)) ++
        (w.stranded ++ s.directs w.live)) := by
  refine h.book ?_
  obtain ⟨hout, hback⟩ := traffic_returned (blocks s.pools)
  have hdue : w.due = (blocks s.pools).map blockGrant ++ s.directs w.live := by
    rw [World.due, hres]
    rfl
  rw [hout, hback, hdue, List.nil_append, List.append_assoc]
  exact List.perm_append_comm.append_left _

theorem World.Inv.exec_allocate (h : w.Inv) {s : Synchronised} (hres : w.res = some s)
    {up : Upstream} {bytes alignment : Nat} (hup : Honest up (s.taken w.live))
    (hb : s.direct bytes alignment = false → s.Countable bytes)
    (hrun : w.exec (.allocate up bytes alignment) = some w') : w'.Inv := by
  simp only [World.exec, hres, Option.bind_eq_bind, Option.bind_some,
    Option.bind_eq_some_iff] at hrun
  obtain ⟨⟨s', ret, traffic⟩, hallocate, hrun⟩ := hrun
  obtain rfl := Option.some.inj hrun
  obtain ⟨hinv, hback, hbooks⟩ := (h.res s hres).allocate hup hb hallocate rfl
  have hdue : w.due = s.outstanding w.live := by simp [World.due, hres]
  refine ⟨?_, h.book ?_⟩
  · intro s'' hs''
    obtain rfl := Option.some.inj hs''
    exact hinv
  · rw [hback, hdue, ← List.append_assoc]
    exact hbooks.append_right _

theorem World.Inv.exec (h : w.Inv) (ha : op.Allowed w) (hrun : w.exec op = some w') : w'.Inv := by
  cases op with
  | allocate up bytes alignment =>
    obtain ⟨s, hres, hup, hb⟩ := ha
    exact h.exec_allocate hres hup (fun hd => (h.res s hres).countable (hb hd)) hrun
  | deallocate give g =>
    obtain ⟨hg, hgive⟩ := ha
    simp only [World.exec, Option.bind_eq_bind, Option.bind_eq_some_iff] at hrun
    obtain ⟨s, hres, ⟨s', traffic⟩, hdeallocate, hrun⟩ := hrun
    obtain rfl := Option.some.inj hrun
    obtain ⟨hinv, hout, hbooks⟩ := (h.res s hres).deallocate hgive hg hdeallocate
    have hdue : w.due = s.outstanding w.live := by simp [World.due, hres]
    refine ⟨?_, h.book ?_⟩
    · intro s'' hs''
      obtain rfl := Option.some.inj hs''
      exact hinv
    · rw [hout, hdue, List.nil_append, ← List.append_assoc]
      exact hbooks.symm.append_right _
  | write a v =>
    obtain ⟨g, hg, ha⟩ := ha
    simp only [World.exec, Option.bind_eq_bind, Option.bind_eq_some_iff] at hrun
    obtain ⟨s, hres, hrun⟩ := hrun
    obtain rfl := Option.some.inj hrun
    have hdue : w.due = s.outstanding w.live := by simp [World.due, hres]
    refine ⟨?_, ?_⟩
    · intro s' hs'
      obtain rfl := Option.some.inj hs'
      exact (h.res s hres).write hg ha v
    · have hbooks := h.books
      rw [hdue] at hbooks
      exact hbooks
  | release give =>
    obtain ⟨hsome, hgive⟩ := ha
    obtain ⟨s, hres⟩ := Option.isSome_iff_exists.mp hsome
    obtain ⟨s', hrelease, hinv, hblocks⟩ := (h.res s hres).release hgive
    simp only [World.exec, hres, hrelease, Option.bind_eq_bind, Option.bind_some] at hrun
    obtain rfl := Option.some.inj hrun
    refine ⟨?_, ?_⟩
    · intro s'' hs''
      obtain rfl := Option.some.inj hs''
      exact hinv
    · have hdue : s'.outstanding [] = [] := by simp [outstanding, hblocks, directs]
      have hbooks := h.book_giveBack hres
      simpa [World.due, hdue] using hbooks
  | destroy give =>
    obtain ⟨hsome, hgive⟩ := ha
    obtain ⟨s, hres⟩ := Option.isSome_iff_exists.mp hsome
    have hdestroy := (h.res s hres).destroy hgive
    simp only [World.exec, hres, hdestroy, Option.bind_eq_bind, Option.bind_some] at hrun
    obtain rfl := Option.some.inj hrun
    refine ⟨by simp, ?_⟩
    have hbooks := h.book_giveBack hres
    simpa [World.due] using hbooks

theorem World.start_inv {largest : Nat} {m : Mem} {s : Synchronised} (h : new largest m = some s) :
    (World.start s).Inv := by
  obtain ⟨hinv, hblocks⟩ := inv_new h
  refine ⟨?_, ?_⟩
  · intro s' hs'
    obtain rfl := Option.some.inj hs'
    exact hinv
  · simp [World.start, World.due, outstanding, hblocks, directs, handedOut, givenBack]

theorem World.inv_run {largest : Nat} {m : Mem} {s : Synchronised} (h0 : new largest m = some s)
    {ops : List Op} (h : Run Step (World.start s) ops w) : w.Inv := by
  refine h.invariant (World.start_inv h0) ?_
  intro w₁ op w₂ hw hstep
  exact hw.exec hstep.1 hstep.2

/-- `release` and the destructor return. Nothing is due behind them. -/
theorem World.Inv.giveBack (h : w.Inv) {s : Synchronised} (hres : w.res = some s)
    (hop : op.GivesBack) (ha : op.Allowed w) :
    ∃ w', w.exec op = some w' ∧ w'.due = [] ∧ w'.stranded = w.stranded ++ s.directs w.live := by
  cases op with
  | release give =>
    obtain ⟨s', hrelease, hinv, hblocks⟩ := (h.res s hres).release ha.2
    have hrun : w.exec (.release give) = some ⟨some s', [], w.stranded ++ s.directs w.live,
        w.log ++ (blocks s.pools).map fun r => .returned (blockGrant r)⟩ := by
      simp [World.exec, hres, hrelease]
    exact ⟨_, hrun, by simp [World.due, outstanding, hblocks, directs], rfl⟩
  | destroy give =>
    have hdestroy := (h.res s hres).destroy ha.2
    have hrun : w.exec (.destroy give) = some ⟨none, [], w.stranded ++ s.directs w.live,
        w.log ++ (blocks s.pools).map fun r => .returned (blockGrant r)⟩ := by
      simp [World.exec, hres, hdestroy]
    exact ⟨_, hrun, rfl, rfl⟩
  | _ => exact hop.elim

theorem World.Inv.balanced_iff (h : w.Inv) (hdue : w.due = []) :
    Balanced w.log ↔ w.stranded = [] := by
  have hbooks := h.books
  rw [hdue, List.nil_append] at hbooks
  constructor
  · intro hb
    have hlength := hb.length_eq.trans hbooks.length_eq
    rw [List.length_append] at hlength
    exact List.eq_nil_of_length_eq_zero (by omega)
  · intro hnone
    rw [hnone, List.append_nil] at hbooks
    exact hbooks.symm

/-- After `release` or the destructor the books are balanced if and only if, now and at every
`release` before, no client held memory from a request that was passed straight to upstream. -/
theorem books_balanced_iff {largest : Nat} {m : Mem} {s₀ : Synchronised}
    (h0 : new largest m = some s₀) {ops : List Op} (h : Run Step (World.start s₀) ops w)
    {s : Synchronised} (hres : w.res = some s) (hop : op.GivesBack) (ha : op.Allowed w) :
    ∃ w', Step w op w' ∧
    (Balanced w'.log ↔ w.stranded = [] ∧ ∀ g ∈ w.live, s.direct g.bytes g.alignment = false) := by
  have hw := World.inv_run h0 h
  obtain ⟨w', hrun, hdue, hstranded⟩ := hw.giveBack hres hop ha
  refine ⟨w', ⟨ha, hrun⟩, ?_⟩
  rw [(hw.exec ha hrun).balanced_iff hdue, hstranded, List.append_eq_nil_iff]
  simp [directs]

end

/-- An upstream with one block, for a request of 200 bytes. -/
def oneBlock : Upstream := fun bytes _ => if bytes = 200 then some 4096 else none

theorem new_largest {largest : Nat} {m : Mem} {s : Synchronised} (h : new largest m = some s) :
    s.largestRequiredPoolBlock = largest := by
  simp only [new, Option.bind_eq_bind, Option.bind_eq_some_iff] at h
  obtain ⟨pools, -, h⟩ := h
  obtain rfl := Option.some.inj h
  rfl

/-- With the default options 200 bytes are passed on. -/
theorem step_oneBlock {m : Mem} {s : Synchronised} (h0 : new 128 m = some s) :
    Step (World.start s) (.allocate oneBlock 200 8)
      ⟨some s, [⟨4096, 200, 8⟩], [], [.obtained ⟨4096, 200, 8⟩]⟩ := by
  have hl := new_largest h0
  obtain ⟨-, hblocks⟩ := inv_new h0
  refine ⟨⟨s, rfl, ?_, ?_⟩, ?_⟩
  · intro bytes alignment p hp _
    obtain ⟨rfl, rfl⟩ : bytes = 200 ∧ 4096 = p := by simpa [oneBlock] using hp
    refine ⟨by decide, ?_⟩
    simp [taken, hblocks, directs, World.start]
  · simp [direct, hl]
  · simp [World.exec, World.start, Synchronised.allocate, doAllocate, direct, hl, askUpstream,
      oneBlock, guard]

/-- The client gives the 200 bytes back before the resource is released. -/
theorem books_balanced_after_deallocate :
    ∃ (s : Synchronised) (ops : List Op) (w w' : World), new 128 (fun _ => 0) = some s ∧
    Run Step (World.start s) ops w ∧ Step w (.release fun m _ => m) w' ∧ Balanced w'.log := by
  obtain ⟨s, h0⟩ : ∃ s, new 128 (fun _ => 0) = some s := ⟨_, rfl⟩
  have hd : s.direct 200 8 = true := by simp [direct, new_largest h0]
  have hback :
      Step ⟨some s, [⟨4096, 200, 8⟩], [], [.obtained ⟨4096, 200, 8⟩]⟩
        (.deallocate (fun m _ => m) ⟨4096, 200, 8⟩)
      ⟨some s, [], [], [.obtained ⟨4096, 200, 8⟩, .returned ⟨4096, 200, 8⟩]⟩ := by
    refine ⟨⟨List.mem_singleton_self _, fun m r => Outside.refl _ m⟩, ?_⟩
    simp [World.exec, Synchronised.deallocate, doDeallocate, hd, giveUpstream, guard]
  have hrun := (Run.single (step_oneBlock h0)).snoc hback
  have hgives : (Op.release fun m _ => m).GivesBack := trivial
  obtain ⟨w', hstep, hiff⟩ :=
    books_balanced_iff h0 hrun rfl hgives ⟨rfl, fun m r => Outside.refl _ m⟩
  exact ⟨s, _, _, w', h0, hrun, hstep, hiff.mpr ⟨rfl, by simp⟩⟩

/-- The client keeps the 200 bytes, and the destructor forgets them. -/
theorem direct_request_leaks :
    ∃ (s : Synchronised) (ops : List Op) (w w' : World), new 128 (fun _ => 0) = some s ∧
    Run Step (World.start s) ops w ∧ Step w (.destroy fun m _ => m) w' ∧ ¬ Balanced w'.log := by
  obtain ⟨s, h0⟩ : ∃ s, new 128 (fun _ => 0) = some s := ⟨_, rfl⟩
  have hl := new_largest h0
  have hrun := Run.single (step_oneBlock h0)
  have hw := World.inv_run h0 hrun
  have hgives : (Op.destroy fun m _ => m).GivesBack := trivial
  have ha :
      (Op.destroy fun m _ => m).Allowed
        ⟨some s, [⟨4096, 200, 8⟩], [], [.obtained ⟨4096, 200, 8⟩]⟩ :=
    ⟨rfl, fun m r => Outside.refl _ m⟩
  obtain ⟨w', hexec, hdue, hstranded⟩ := hw.giveBack rfl hgives ha
  refine ⟨s, _, _, w', h0, hrun, ⟨ha, hexec⟩, ?_⟩
  rw [(hw.exec ha hexec).balanced_iff hdue, hstranded]
  simp [directs, direct, hl]

end Gpcl.Pmr.Synchronised
