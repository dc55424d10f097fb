import Gpcl.Pmr.Books
import Gpcl.Pmr.PoolArrays

/-! # The alignment of what a synchronised_pool_resource returns

`get_pool` looks at the size alone. Blocks are aligned to 16 bytes and chunks lie at multiples
of the chunk size behind the start of their block, so what a pool returns is aligned to 8
bytes, and to 16 if its chunk size is a multiple of 16. -/
namespace Gpcl.Pmr
open Lib.Memory Lib.Runs
open Monotonic (maxAlign)

namespace ResourcePool
open Pool

section
variable {key : Nat} {s s' : Pool} {live : List (Nat × Nat)} {up : Upstream}
    {traffic : List Traffic}

/-- What divides the chunk size and the alignment of the blocks divides the address of every
object. -/
theorem Inv.aligned_live (h : Inv key s live) {p n d : Nat} (hg : (p, n) ∈ live)
    (hc : d ∣ s.chunkSize) (hd : d ∣ maxAlign) : d ∣ p := by
  obtain ⟨l, hl⟩ := h.pool
  have hcount := countOf_pos (hl.counts _ hg).1 hl.sizes.1 hl.chunkSize_pos
  have hmem : p ∈ Storage.held s.chunkSize (s.view live).live := by
    refine List.mem_flatMap.mpr ⟨(p, s.countOf n), List.mem_map_of_mem hg, ?_⟩
    exact Storage.mem_chunks.mpr ⟨0, hcount, by omega⟩
  obtain ⟨r, hr, hcut⟩ := hl.cut p (List.mem_append_right _ hmem)
  obtain ⟨i, -, rfl⟩ := Storage.mem_chunks.mp hcut
  have hbase : d ∣ r.base := Nat.dvd_trans hd (Nat.dvd_of_mod_eq_zero (h.aligned r hr))
  exact (Nat.dvd_add_right hbase).mpr (Nat.dvd_mul_left_of_dvd hc i)

theorem orderedMalloc_chunkSize {n : Nat} {ret : Option Nat}
    (h : orderedMalloc s up n = some (s', ret, traffic)) :
    s'.chunkSize = s.chunkSize := by
  simp only [orderedMalloc, Option.bind_eq_bind, Option.bind_eq_some_iff] at h
  obtain ⟨_, -, count, -, ⟨st, p⟩, -, h⟩ := h
  by_cases hp : p = 0
  · simp only [hp, ne_eq, not_true_eq_false, if_false, Option.bind_eq_some_iff] at h
    obtain ⟨⟨s₁, ok, traffic₁⟩, hreq, h⟩ := h
    have hcs := (requestNewBlock_sizes (requestNewBlock_pool hreq)).chunk
    by_cases hok : ok = none
    · simp only [hok, if_true, Option.pure_def, Option.some.injEq, Prod.mk.injEq] at h
      obtain ⟨rfl, -⟩ := h
      exact hcs
    · simp only [hok, if_false, Option.bind_eq_some_iff, Option.pure_def, Option.some.injEq,
        Prod.mk.injEq] at h
      obtain ⟨⟨st₂, p₂⟩, -, rfl, -⟩ := h
      exact hcs
  · simp only [ne_eq, hp, not_false_eq_true, if_true, Option.pure_def, Option.some.injEq,
      Prod.mk.injEq] at h
    obtain ⟨rfl, -⟩ := h
    rfl

theorem orderedFreeN_chunkSize {p n : Nat} (h : s.orderedFreeN p n = some s') :
    s'.chunkSize = s.chunkSize := by
  simp only [Pool.orderedFreeN, Option.bind_eq_bind, Option.bind_eq_some_iff, Option.pure_def,
    Option.some.injEq] at h
  obtain ⟨count, -, st, -, rfl⟩ := h
  rfl

end

end ResourcePool

namespace Synchronised

/-- The size decides that the alignment is met: it is at most 8, the request goes to upstream, or
the size is a multiple of 16. -/
def Suits (largest bytes alignment : Nat) : Prop :=
  alignment ∣ wordSize ∨ largest ≤ bytes ∨ maxAlign ∣ bytes

/-- The pools are those of `create_pools`, the largest first, and their chunks hold whole
objects. -/
structure Keyed (largest : Nat) (s : Synchronised) : Prop where
  bound : s.largestRequiredPoolBlock = largest
  keys : s.pools.map Prod.fst = (poolSizes.takeWhile (· < largest)).reverse
  chunks : ∀ e ∈ s.pools, e.1 ∣ e.2.chunkSize

section
variable {largest : Nat} {s s' : Synchronised} {up : Upstream} {bytes alignment : Nat}
    {traffic : List Traffic}

theorem createPools_keyed {m : Mem} {pools' : List (Nat × Pool)} :
    ∀ {sizes : List Nat} {pools : List (Nat × Pool)},
    createPools largest m sizes pools = some pools' → (∀ e ∈ pools, e.1 ∣ e.2.chunkSize) →
      pools'.map Prod.fst = (sizes.takeWhile (· < largest)).reverse ++ pools.map Prod.fst ∧
      ∀ e ∈ pools', e.1 ∣ e.2.chunkSize
  | [], pools, h, hchunks => by
    obtain rfl := Option.some.inj h
    exact ⟨rfl, hchunks⟩
  | size :: sizes, pools, h, hchunks => by
    rw [createPools] at h
    by_cases hlarge : size ≥ largest
    · rw [if_pos hlarge] at h
      obtain rfl := Option.some.inj h
      have hstop : ¬ size < largest := by omega
      exact ⟨by simp [hstop], hchunks⟩
    · simp only [if_neg hlarge, Option.bind_eq_bind, Option.bind_eq_some_iff] at h
      obtain ⟨pool, hpool, h⟩ := h
      obtain ⟨-, rfl⟩ := Pool.new_eq_some hpool
      obtain ⟨hkeys, hall⟩ := createPools_keyed h (by
        intro e he
        rcases List.mem_cons.mp he with rfl | he
        · exact Nat.dvd_lcm_left _ _
        · exact hchunks e he)
      have hgo : size < largest := by omega
      exact ⟨by simp [hkeys, hgo], hall⟩

theorem keyed_new {m : Mem} (h : new largest m = some s) : Keyed largest s := by
  simp only [new, Option.bind_eq_bind, Option.bind_eq_some_iff, Option.pure_def,
    Option.some.injEq] at h
  obtain ⟨pools, hpools, rfl⟩ := h
  obtain ⟨hkeys, hchunks⟩ := createPools_keyed hpools (by simp)
  exact ⟨rfl, by simpa using hkeys, hchunks⟩

/-- A method of a pool changes no key and no chunk size. -/
theorem Keyed.put (h : Keyed largest s) {c : Place} (hc : getPool bytes s.pools = some c)
    {pool : Pool} (hcs : pool.chunkSize = c.pool.chunkSize) : Keyed largest (s.put c pool) := by
  obtain ⟨hpools, -⟩ := getPool_some hc
  refine ⟨h.bound, ?_, ?_⟩
  · rw [← h.keys, hpools]
    simp [Synchronised.put]
  · intro e he
    have he' : e ∈ c.front ++ (c.key, pool) :: c.behind := he
    simp only [List.mem_append, List.mem_cons] at he'
    rcases he' with he' | rfl | he'
    · exact h.chunks e (by simp [hpools, he'])
    · have hkey := h.chunks (c.key, c.pool) (by simp [hpools])
      rwa [← hcs] at hkey
    · exact h.chunks e (by simp [hpools, he'])

theorem Keyed.doAllocate (h : Keyed largest s) {ret : Option Nat}
    (hrun : s.doAllocate up bytes alignment = some (s', ret, traffic)) :
    Keyed largest s' := by
  unfold Synchronised.doAllocate at hrun
  by_cases hd : s.direct bytes alignment = true
  · simp only [hd, if_true, Option.bind_eq_bind, Option.bind_eq_some_iff, Option.pure_def,
      Option.some.injEq, Prod.mk.injEq] at hrun
    obtain ⟨_, -, rfl, -⟩ := hrun
    exact h
  · simp only [hd, Bool.false_eq_true, if_false, Synchronised.allocateFromPool, Option.bind_eq_bind,
      Option.bind_eq_some_iff, Option.pure_def, Option.some.injEq, Prod.mk.injEq] at hrun
    obtain ⟨c, hc, _, -, ⟨pool, ret', traffic'⟩, hmalloc, rfl, -⟩ := hrun
    have hcs := ResourcePool.orderedMalloc_chunkSize hmalloc
    exact h.put hc hcs

theorem Keyed.doDeallocate (h : Keyed largest s) {give : Mem → Region → Mem} {g : Grant}
    (hrun : s.doDeallocate give g = some (s', traffic)) : Keyed largest s' := by
  unfold Synchronised.doDeallocate at hrun
  by_cases hd : s.direct g.bytes g.alignment = true
  · simp only [hd, if_true, Option.bind_eq_bind, Option.bind_eq_some_iff, Option.pure_def,
      Option.some.injEq, Prod.mk.injEq] at hrun
    obtain ⟨_, -, rfl, -⟩ := hrun
    exact ⟨h.bound, h.keys, h.chunks⟩
  · simp only [hd, Bool.false_eq_true, if_false, Synchronised.deallocateFromPool,
      Option.bind_eq_bind, Option.bind_eq_some_iff, Option.pure_def, Option.some.injEq,
      Prod.mk.injEq] at hrun
    obtain ⟨s₁, ⟨c, hc, _, -, pool, hfree, rfl⟩, rfl, -⟩ := hrun
    have hcs := ResourcePool.orderedFreeN_chunkSize hfree
    exact h.put hc hcs

theorem Keyed.release (h : Keyed largest s) {give : Mem → Region → Mem}
    (hrun : s.release give = some (s', traffic)) :
    Keyed largest s' := by
  simp only [Synchronised.release, Option.bind_eq_bind, Option.bind_eq_some_iff, Option.pure_def,
    Option.some.injEq, Prod.mk.injEq] at hrun
  obtain ⟨_, -, _, -, pools, hpools, rfl, -⟩ := hrun
  rw [h.bound] at hpools
  obtain ⟨hkeys, hchunks⟩ := createPools_keyed hpools (by simp)
  exact ⟨h.bound, by simpa using hkeys, hchunks⟩

/-- No operation changes the keys or the chunk sizes. -/
theorem keyed_exec {w w' : World} {op : Op} (hw : ∀ t, w.res = some t → Keyed largest t)
    (hrun : w.exec op = some w') :
    ∀ t, w'.res = some t → Keyed largest t := by
  intro t' ht'
  cases op with
  | allocate up bytes alignment =>
    simp only [World.exec, Synchronised.allocate, Option.bind_eq_bind, Option.bind_eq_some_iff,
      Option.pure_def, Option.some.injEq] at hrun
    obtain ⟨t, ht, _, ⟨⟨t₁, ret, traffic⟩, hdo, _, -, rfl⟩, rfl⟩ := hrun
    obtain rfl := Option.some.inj ht'
    exact (hw t ht).doAllocate hdo
  | deallocate give g =>
    simp only [World.exec, Synchronised.deallocate, Option.bind_eq_bind, Option.bind_eq_some_iff,
      Option.pure_def, Option.some.injEq] at hrun
    obtain ⟨t, ht, ⟨t₁, traffic⟩, ⟨_, -, hdo⟩, rfl⟩ := hrun
    obtain rfl := Option.some.inj ht'
    exact (hw t ht).doDeallocate hdo
  | write a v =>
    simp only [World.exec, Option.bind_eq_bind, Option.bind_eq_some_iff, Option.pure_def,
      Option.some.injEq] at hrun
    obtain ⟨t, ht, rfl⟩ := hrun
    obtain rfl := Option.some.inj ht'
    exact ⟨(hw t ht).bound, (hw t ht).keys, (hw t ht).chunks⟩
  | release give =>
    simp only [World.exec, Option.bind_eq_bind, Option.bind_eq_some_iff, Option.pure_def,
      Option.some.injEq] at hrun
    obtain ⟨t, ht, ⟨t₁, traffic⟩, hrel, rfl⟩ := hrun
    obtain rfl := Option.some.inj ht'
    exact (hw t ht).release hrel
  | destroy give =>
    simp only [World.exec, Option.bind_eq_bind, Option.bind_eq_some_iff, Option.pure_def,
      Option.some.injEq] at hrun
    obtain ⟨t, ht, traffic, -, rfl⟩ := hrun
    cases ht'

/-- Every state of the resource has the pools that the constructor made. -/
theorem keyed_run {m : Mem} (h0 : new largest m = some s) {ops : List Op} {w : World}
    (h : Run Step (World.start s) ops w) :
    ∀ t, w.res = some t → Keyed largest t := by
  refine h.invariant (I := fun w => ∀ t, w.res = some t → Keyed largest t) ?_ ?_
  · intro t ht
    obtain rfl := Option.some.inj ht
    exact keyed_new h0
  · intro w op w' hw hstep
    exact keyed_exec hw hstep.2

/-- A multiple of 16 is served by a pool for a multiple of 16. -/
theorem Keyed.dvd_key (h : Keyed largest s) {key : Nat} (hpos : 0 < bytes) (hlt : bytes < largest)
    (hdvd : maxAlign ∣ bytes)
    (hserved : servedBy (s.pools.map Prod.fst) bytes = some key) : maxAlign ∣ key := by
  rw [h.keys, servedBy, List.find?_eq_some_iff_append] at hserved
  obtain ⟨-, front, behind, hkeys, hfront⟩ := hserved
  have hle := Nat.le_of_dvd hpos hdvd
  have h16 : maxAlign ∈ front ++ key :: behind := by
    rw [← hkeys, List.mem_reverse]
    have hsplit :
        poolSizes.takeWhile (· < largest) =
          [1, 2, 4, 8, 16] ++ [32, 64, 96, 128, 256].takeWhile (· < largest) := by
      have hlarge : 16 < largest := Nat.lt_of_le_of_lt hle hlt
      have h1 : 1 < largest := by omega
      have h2 : 2 < largest := by omega
      have h4 : 4 < largest := by omega
      have h8 : 8 < largest := by omega
      simp [poolSizes, List.takeWhile_cons, hlarge, h1, h2, h4, h8]
    rw [hsplit]
    exact List.mem_append_left _ (by decide)
  have hsorted : (front ++ key :: behind).Pairwise (· > ·) := by
    rw [← hkeys, List.pairwise_reverse]
    exact List.Pairwise.sublist (List.takeWhile_sublist _) (by decide)
  have hkey : key ∈ poolSizes := by
    have : key ∈ (poolSizes.takeWhile (· < largest)).reverse := by simp [hkeys]
    exact (List.takeWhile_sublist _).subset (List.mem_reverse.mp this)
  have hge : maxAlign ≤ key := by
    rcases List.mem_append.mp h16 with hmem | hmem
    · have := hfront _ hmem
      simp [Nat.mod_eq_zero_of_dvd hdvd] at this
    · rcases List.mem_cons.mp hmem with he | hmem
      · exact Nat.le_of_eq he
      · exact Nat.le_of_lt ((List.pairwise_cons.mp (List.pairwise_append.mp hsorted).2.1).1 _ hmem)
  have hall : ∀ k ∈ poolSizes, maxAlign ≤ k → maxAlign ∣ k := by decide
  exact hall key hkey hge

/-- What a pool returns is aligned to what divides its chunk size, and so to 8 bytes. -/
theorem Keyed.aligned_pool (h : Keyed largest s) {live : List Grant} (hi : Inv s live)
    (hup : ResourcePool.Honest up (s.taken live)) (hd : s.direct bytes alignment = false)
    (hb : bytes < 2 ^ 63) {p : Nat}
    (hrun : s.allocateFromPool up bytes = some (s', some p, traffic)) (hp : p ≠ 0) :
    ∃ key, servedBy (s.pools.map Prod.fst) bytes = some key ∧ ∀ d, d ∣ maxAlign → d ∣ key ∨
    d ∣ wordSize → d ∣ p := by
  obtain ⟨hi', -⟩ := hi.allocateFromPool hup hd (hi.countable hb) hrun rfl
  simp only [Synchronised.allocateFromPool, Option.bind_eq_bind, Option.bind_eq_some_iff,
    Option.pure_def, Option.some.injEq, Prod.mk.injEq] at hrun
  obtain ⟨c, hc, _, -, ⟨pool, ret, traffic'⟩, hmalloc, rfl, rfl, -⟩ := hrun
  obtain ⟨hpools, -, hserved⟩ := getPool_some hc
  have hcs := ResourcePool.orderedMalloc_chunkSize hmalloc
  have hkey : c.key ∣ pool.chunkSize := by
    have hc' := h.chunks (c.key, c.pool) (by simp [hpools])
    exact hcs ▸ hc'
  have hentry : (c.key, pool) ∈ (s.put c pool).pools := by simp [Synchronised.put]
  have hpool := hi'.pools _ hentry
  have hserved' : servedBy ((s.put c pool).pools.map Prod.fst) bytes = some c.key := by
    rw [← hserved, hpools]
    simp [Synchronised.put]
  have hd' : (s.put c pool).direct bytes alignment = false := hd
  have hheld :
      (p, bytes / c.key) ∈ (s.put c pool).heldFrom (⟨p, bytes, alignment⟩ :: live) c.key := by
    rw [heldFrom_served hd' hserved']
    exact List.mem_cons_self
  have hret : (some p).getD 0 = p := rfl
  rw [hret, if_neg hp] at hpool
  refine ⟨c.key, hserved, ?_⟩
  intro d hd16 hor
  refine hpool.aligned_live hheld ?_ hd16
  rcases hor with hdk | hdw
  · exact Nat.dvd_trans hdk hkey
  · exact Nat.dvd_trans hdw hpool.whole

/-- **The alignment of what `do_allocate` returns**, in every state of the resource and for every
size that suits the alignment. -/
theorem doAllocate_aligned {m : Mem} {s₀ : Synchronised} (h0 : new largest m = some s₀)
    {ops : List Op} {w : World} (h : Run Step (World.start s₀) ops w) (hres : w.res = some s)
    (ha : (Op.allocate up bytes alignment).Allowed w) (hpos : 0 < bytes)
    (hal : alignment ∣ maxAlign) (hsuits : Suits largest bytes alignment) {p : Nat}
    (hrun : s.doAllocate up bytes alignment = some (s', some p, traffic)) (hp : p ≠ 0) :
    alignment ∣ p := by
  have hkeyed := keyed_run h0 h s hres
  have hinv := (World.inv_run h0 h).res s hres
  obtain ⟨t, ht, hup, hb⟩ := ha
  obtain rfl := Option.some.inj (hres.symm.trans ht)
  unfold Synchronised.doAllocate at hrun
  by_cases hd : s.direct bytes alignment = true
  · -- the assertion of upstream's `allocate`
    simp only [hd, if_true, Option.bind_eq_bind, Option.bind_eq_some_iff, Option.pure_def,
      Option.some.injEq, Prod.mk.injEq] at hrun
    obtain ⟨⟨ret, traffic'⟩, hask, rfl, rfl, rfl⟩ := hrun
    obtain ⟨-, hnone⟩ | ⟨q, -, hq, -, hmod, -⟩ := ResourcePool.askUpstream_some hask
    · simp [hp] at hnone
    · obtain rfl := Option.some.inj hq
      exact Nat.dvd_of_mod_eq_zero hmod
  · rw [Bool.not_eq_true] at hd
    simp only [hd, Bool.false_eq_true, if_false] at hrun
    obtain ⟨key, hserved, hdvd⟩ := hkeyed.aligned_pool hinv hup hd (hb hd) hrun hp
    rcases hsuits with hword | hlarge | hmul
    · exact hdvd alignment hal (.inr hword)
    · simp [direct, hkeyed.bound, hlarge] at hd
    · have hlt : bytes < largest := by
        simp only [direct, hkeyed.bound, Bool.or_eq_false_iff, decide_eq_false_iff_not] at hd
        omega
      exact hdvd alignment hal (.inl (Nat.dvd_trans hal (hkeyed.dvd_key hpos hlt hmul hserved)))

end

/-! ## The default options -/

/-- An upstream with one block of 256 bytes. -/
def block256 : Upstream := fun bytes _ => some (if bytes = 256 then 4096 else 0)

/-- A pool for objects of `key` bytes. -/
def freshPool (key : Nat) : Pool := ⟨key, key.lcm wordSize, 32, ⟨0, 0⟩, ⟨fun _ => 0, 0⟩, []⟩

def freshPools (keys : List Nat) : List (Nat × Pool) := keys.map fun key => (key, freshPool key)

/-- A new resource with the default options. -/
def fresh128 : Synchronised := ⟨128, [], freshPools [96, 64, 32, 16, 8, 4, 2, 1], fun _ => 0⟩

/-- Where the pool for 8 bytes stands. -/
def place8 : Place := ⟨freshPools [96, 64, 32, 16], 8, Pool.fresh8, freshPools [4, 2, 1]⟩

theorem new_fresh128 : new 128 (fun _ => 0) = some fresh128 := rfl

/-- The first object of 8 bytes lies at the start of the block. -/
theorem fresh8_first :
    ∃ s l, Pool.fresh8.orderedMallocN (ResourcePool.asAllocator block256) 1 = some (s, 4096) ∧
    s.requestedSize = 8 ∧
    s.chunkSize = 8 ∧ Storage.Threads 8 s.storage (4104 :: 4112 :: l) := by
  have hi := Pool.inv_new (show Pool.new 8 (fun _ => 0) = some Pool.fresh8 from rfl)
  have hask : Pool.fresh8.AsksAt 8 0 := ⟨by decide, by simp⟩
  have hans : Pool.fresh8.Answer (ResourcePool.asAllocator block256) (Pool.fresh8.doubled 0) :=
    fun _ => ⟨by decide, by simp [Pool.fresh8]⟩
  have hcount : Pool.fresh8.chunkCount 1 = some 1 := rfl
  have hm : Pool.fresh8.storage.mallocN 1 Pool.fresh8.chunkSize = some (Pool.fresh8.storage, 0) :=
    Storage.mallocN_nil (by decide) (by decide) hi.storage.threads 1
  have hmin : Pool.fresh8.chunkSize ≤ 8 := Nat.le_refl 8
  obtain ⟨hzero, -⟩ | ⟨-, s, hreq, -, hrs, hcs, -, -, -, hs⟩ :=
    hi.requestAt_spec (ResourcePool.asAllocator block256) true
    ⟨by decide, by decide⟩ hmin (by decide) hask hans
  · exact absurd hzero (by decide)
  · have ht := hs.storage.threads
    rw [hcs] at ht
    have hcs' : s.chunkSize = 8 := hcs
    obtain ⟨st, hm', ht'⟩ := Storage.mallocN_one (c := 4096) (by decide) ht
    refine ⟨{ s with storage := st }, _, ?_, hrs, hcs, ht'⟩
    have hsize : Pool.fresh8.chunkSize % addressSpace = 8 := rfl
    have hm'' : s.storage.mallocN 1 s.chunkSize = some (st, 4096) := hcs.symm ▸ hm'
    simp [Pool.orderedMallocN, guard, hcount, hm, hsize, hreq, hm'']

/-- The second lies 8 bytes behind it, whatever upstream is. -/
theorem fresh8_second {s : Pool} {l : List Nat} (up : Upstream) (hrs : s.requestedSize = 8)
    (hcs : s.chunkSize = 8) (ht : Storage.Threads 8 s.storage (4104 :: 4112 :: l)) :
    ∃ s', ResourcePool.orderedMalloc s up 1 = some (s', some 4104, []) := by
  obtain ⟨st, hm, -⟩ := Storage.mallocN_one (c := 4104) (by decide) ht
  have hcount : s.chunkCount 1 = some 1 := by
    rw [Pool.chunkCount, hrs, hcs]
    rfl
  exact ⟨{ s with storage := st }, by simp [ResourcePool.orderedMalloc, guard, hcount, hcs, hm]⟩

/-- The first 8 bytes. -/
theorem fresh128_first :
    ∃ s l traffic,
    fresh128.doAllocate block256 8 8 = some (fresh128.put place8 s, some 4096, traffic) ∧
    s.requestedSize = 8 ∧ s.chunkSize = 8 ∧ Storage.Threads 8 s.storage (4104 :: 4112 :: l) := by
  obtain ⟨s, l, hrun, hrs, hcs, ht⟩ := fresh8_first
  have hup : ∀ bytes, ∃ p, block256 bytes maxAlign = some p ∧ p % maxAlign = 0 := by
    intro bytes
    refine ⟨_, rfl, ?_⟩
    split <;> rfl
  obtain ⟨traffic, hmalloc⟩ := ResourcePool.orderedMalloc_of_pool block256 hup hrun
  refine ⟨s, l, traffic, ?_, hrs, hcs, ht⟩
  have hplace : getPool 8 fresh128.pools = some place8 := rfl
  have hpool : inMem fresh128.mem place8.pool = Pool.fresh8 := rfl
  have hn : 8 / place8.pool.requestedSize = 1 := rfl
  have hmod : 8 % place8.pool.requestedSize = 0 := rfl
  have hd : fresh128.direct 8 8 = false := rfl
  simp [Synchronised.doAllocate, hd, Synchronised.allocateFromPool, hplace, hpool, hn, hmod,
    hmalloc, guard]

theorem block256_honest : ResourcePool.Honest block256 (fresh128.taken []) := by
  intro bytes alignment p hp hne
  by_cases hb : bytes = 256
  · subst hb
    obtain rfl := Option.some.inj hp
    obtain ⟨-, hblocks⟩ := inv_new new_fresh128
    exact ⟨by decide, by simp [taken, hblocks, directs]⟩
  · exact absurd (Option.some.inj hp).symm (by simp [hb, hne])

/-- 8 bytes aligned to 8. -/
theorem eight_bytes_aligned :
    ∃ s traffic p, fresh128.doAllocate block256 8 8 = some (s, some p, traffic) ∧ 8 ∣ p := by
  obtain ⟨s, l, traffic, hrun, -⟩ := fresh128_first
  have hallowed : (Op.allocate block256 8 8).Allowed (World.start fresh128) :=
    ⟨fresh128, rfl, block256_honest, fun _ => by decide⟩
  exact ⟨_, traffic, 4096, hrun,
    doAllocate_aligned new_fresh128 .nil rfl hallowed (by decide) ⟨2, rfl⟩ (.inl ⟨1, rfl⟩) hrun
      (by decide)⟩

/-- 8 bytes aligned to 16, after 8 bytes were allocated: the pool for 8 bytes returns its second
chunk. -/
theorem second_chunk_not_aligned :
    ∃ ops w s s' traffic, new 128 (fun _ => 0) = some fresh128 ∧
    Run Step (World.start fresh128) ops w ∧
    w.res = some s ∧ (Op.allocate (fun _ _ => none) 8 16).Allowed w ∧
    s.doAllocate (fun _ _ => none) 8 16 = some (s', some 4104, traffic) ∧ ¬ 16 ∣ 4104 := by
  obtain ⟨s, l, traffic, hrun, hrs, hcs, ht⟩ := fresh128_first
  obtain ⟨s', hmalloc⟩ := fresh8_second (fun _ _ => none) hrs hcs ht
  have hallowed : (Op.allocate block256 8 8).Allowed (World.start fresh128) :=
    ⟨fresh128, rfl, block256_honest, fun _ => by decide⟩
  have hexec : (World.start fresh128).exec (.allocate block256 8 8) =
      some ⟨some (fresh128.put place8 s), [⟨4096, 8, 8⟩], [], traffic⟩ := by
    simp [World.exec, World.start, Synchronised.allocate, hrun, guard]
  refine ⟨_, _, fresh128.put place8 s,
    (fresh128.put place8 s).put ⟨place8.front, 8, s, place8.behind⟩ s', [], new_fresh128,
    Run.single ⟨hallowed, hexec⟩, rfl, ⟨_, rfl, ?_, fun _ => by decide⟩, ?_, by decide⟩
  · intro bytes alignment p hp
    cases hp
  · have hplace :
        getPool 8 (fresh128.put place8 s).pools = some ⟨place8.front, 8, s, place8.behind⟩ := rfl
    have hd : (fresh128.put place8 s).direct 8 16 = false := rfl
    have hpool : inMem (fresh128.put place8 s).mem s = s := rfl
    simp [Synchronised.doAllocate, hd, Synchronised.allocateFromPool, hplace, hpool, hrs, hmalloc,
      guard]

end Synchronised

end Gpcl.Pmr
