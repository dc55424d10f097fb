import Gpcl.Pmr.Assertions

/-! # Which requests fail an assertion

A request of a synchronised_pool_resource fails exactly when a pool has to serve it and it is empty,
or so large that its rounding to chunks wraps. -/
namespace Gpcl.Pmr.Asserting
open Lib Lib.Memory Lib.Checked Lib.Runs
open Monotonic (maxAlign)

/-- What upstream returns is aligned as it was asked for. -/
def AlignedAnswers (up : Upstream) : Prop :=
  ∀ bytes alignment p, up bytes alignment = some p → p % alignment = 0

/-! ## simple_segregated_storage -/

section
variable {psz blockEnd block sz stop n : Nat} {s : Storage} {chunk : Nat}

/-- No chunk of a block that ends in the address space is null. -/
theorem segregateLoop_ok {r : Except Failure (Storage × Nat)}
    (h : segregateLoop psz blockEnd s chunk = some r) (hpos : 0 < chunk)
    (hend : blockEnd ≤ addressSpace) : ∃ t, r = .ok t ∧ 0 < t.2 := by
  refine segregateLoop.partial_correctness psz blockEnd
    (fun _ chunk r => 0 < chunk → blockEnd ≤ addressSpace → ∃ t, r = .ok t ∧
      0 < t.2) ?_ s chunk r h hpos hend
  intro f ih s chunk r hr hpos hend
  split at hr
  · rw [if_neg (Nat.ne_of_gt hpos)] at hr
    refine ih _ _ _ hr ?_ hend
    rw [Storage.set_next_nextChunk (by omega)]
    exact Nat.add_pos_left hpos psz
  · obtain rfl := Option.some.inj hr
    exact ⟨_, rfl, hpos⟩

theorem segregate_follows (hend : block + sz - psz ≤ addressSpace) :
    Follows (segregate s block sz psz stop) (s.segregate block sz psz stop) := by
  intro a ha
  simp only [Storage.segregate, Option.bind_eq_bind, Option.bind_eq_some_iff] at ha
  obtain ⟨_, hblock, _, hsz, t, hloop, ha⟩ := ha
  have hne : block ≠ 0 := by
    rintro rfl
    simp [guard] at hblock
  have hfit : psz ≤ sz := by
    by_contra hc
    simp [guard, hc] at hsz
  have hpos := Nat.pos_of_ne_zero hne
  have hrun : segregateLoop psz (block + sz - psz) s block = some (.ok t) := by
    rcases segregateLoop_of_some hloop with he | he
    · obtain ⟨_, herr, -⟩ := segregateLoop_ok he hpos hend
      cases herr
    · exact he
  obtain ⟨_, ⟨⟩, ht⟩ := segregateLoop_ok hrun hpos hend
  refine returns_bind.mpr ⟨(), returns_check.mpr hne,
    returns_bind.mpr ⟨(), returns_check.mpr hfit, returns_bind.mpr ⟨t, hrun, ?_⟩⟩⟩
  exact returns_bind.mpr ⟨(), returns_check.mpr (Nat.ne_of_gt ht),
    returns_pure.mpr (Option.some.inj ha)⟩

theorem addOrderedBlock_follows (hend : block + sz - psz ≤ addressSpace) :
    Follows (addOrderedBlock s block sz psz) (s.addOrderedBlock block sz psz) :=
  (follows_loop _).bind fun _ _ => (segregate_follows hend).bind fun _ _ => (follows_check _ _).bind
    fun _ _ => follows_pure _

end

namespace ResourcePool
open Pool
open Pmr.ResourcePool (Inv Honest AsksNothing askUpstream_some)

section
variable {key : Nat} {s : Pool} {live : List (Nat × Nat)} {up : Upstream} {taken : List Region}
    {n : Nat}

theorem addBlock_follows {ptr sz : Nat} {stop : Gpcl.BlockInfo}
    (hend : ptr + blockInfoOffset sz - s.chunkSize ≤ addressSpace) :
    Follows (addBlock s ptr sz stop true) (s.addBlock ptr sz stop true) :=
  (addOrderedBlock_follows hend).bind fun _ _ => follows_pure _

/-- The rounding of the array to chunks wraps. -/
theorem chunkCount_eq_none (hpos : 0 < n * s.requestedSize)
    (hb : n * s.requestedSize < addressSpace) (hc : s.chunkSize ≤ addressSpace)
    (hwrap : addressSpace < n * s.requestedSize + s.chunkSize) : s.chunkCount n = none := by
  have hsum : addressSpace - 1 + (n * s.requestedSize + s.chunkSize) =
      n * s.requestedSize + s.chunkSize - 1 - addressSpace + addressSpace + addressSpace := by omega
  have hzero :
      (addressSpace - 1 + (n * s.requestedSize % addressSpace + s.chunkSize)) %
        addressSpace / s.chunkSize = 0 := by
    rw [Nat.mod_eq_of_lt hb, hsum, Nat.add_mod_right, Nat.add_mod_right,
      Nat.mod_eq_of_lt (by omega), Nat.div_eq_of_lt (by omega)]
  have hlt : ¬ 0 * s.chunkSize % addressSpace ≥ n * s.requestedSize % addressSpace := by
    rw [Nat.zero_mul, Nat.zero_mod, Nat.mod_eq_of_lt hb]
    omega
  simp only [Pool.chunkCount, hzero, hlt, guard, if_false]
  rfl

theorem not_fails_askUpstream (ha : AlignedAnswers up) (bytes alignment : Nat) :
    ¬ Fails (askUpstream up bytes alignment) := by
  rw [askUpstream]
  cases hup : up bytes alignment with
  | none => exact not_fails_pure _
  | some p =>
    intro hf
    rcases fails_bind.mp hf with hf | ⟨_, -, hf⟩
    · exact fails_check.mp hf (ha _ _ _ hup)
    · exact not_fails_pure _ hf

theorem not_fails_requestNewBlock (h : Inv key s live) (hup : Honest up taken)
    (ha : AlignedAnswers up) (htaken : ∀ r ∈ s.obtained, r ∈ taken) {minSize : Nat}
    (hask : ¬ AsksNothing s minSize) :
    ¬ Fails (requestNewBlock s up minSize true) := by
  intro hf
  rcases fails_bind.mp hf with hf | ⟨sz, hgrow, hf⟩
  · exact not_fails_loop _ hf
  have hgrow := returns_loop.mp hgrow
  rcases fails_bind.mp hf with hf | ⟨⟨block, traffic⟩, hret, hf⟩
  · exact not_fails_askUpstream ha _ _ hf
  obtain ⟨-, rfl | rfl⟩ | ⟨p, hp, rfl, hans, -, -⟩ :=
    askUpstream_some ((askUpstream_agrees _ _ _).eq_some hret)
  · exact not_fails_pure _ hf
  · exact not_fails_pure _ hf
  · obtain ⟨st, l, hadd, hne, -, -⟩ := h.addGranted hup htaken hask hgrow hans hp
    obtain ⟨hsize, hlt, -⟩ := h.asked hask hgrow
    have hstop := (hup _ _ _ hans hp).1
    have hoffset := (blockInfoOffset_bounds hsize hlt).1
    have hret := addBlock_follows (by dsimp only; omega) _ hadd
    simp only [hp, if_false] at hf
    rcases fails_bind.mp hf with hf | ⟨t, ht, hf⟩
    · exact hret.not_fails hf
    · obtain rfl := Except.ok.inj (Option.some.inj (hret.symm.trans ht))
      rcases fails_bind.mp hf with hf | ⟨_, -, hf⟩
      · exact fails_check.mp hf hne
      · exact not_fails_pure _ hf

theorem not_fails_orderedMalloc (h : Inv key s live) (hup : Honest up taken)
    (ha : AlignedAnswers up) (htaken : ∀ r ∈ s.obtained, r ∈ taken) (hcounts : s.Counts n)
    (hask : ¬ AsksNothing s (s.countOf n * s.chunkSize)) :
    ¬ Fails (orderedMalloc s up n) := by
  obtain ⟨l, hl⟩ := h.pool
  intro hf
  rcases fails_bind.mp hf with hf | ⟨_, -, hf⟩
  · exact fails_check.mp hf (Nat.ne_of_gt hcounts.1)
  rcases fails_bind.mp hf with hf | ⟨count, hcount, hf⟩
  · rw [chunkCount, fails_orFail, chunkCount_eq hl.chunkSize_pos hcounts.2] at hf
    cases hf
  have hcount := returns_orFail.mp hcount
  rw [chunkCount_eq hl.chunkSize_pos hcounts.2] at hcount
  obtain rfl := Option.some.inj hcount
  rcases fails_bind.mp hf with hf | ⟨⟨st, p⟩, hmalloc, hf⟩
  · exact not_fails_loop _ hf
  obtain ⟨st', p', l₁, hmalloc', -, hl₁⟩ := hl.mallocN_spec hcounts
  obtain ⟨rfl, rfl⟩ := Prod.mk.inj (Option.some.inj ((returns_loop.mp hmalloc).symm.trans hmalloc'))
  have h₁ := h.of_storage hl₁
  have hbound := (countOf_bounds (s := s) (n := n) hl.chunkSize_pos).2
  by_cases hp : p = 0
  · simp only [hp, ne_eq, not_true_eq_false, if_false] at hf
    rcases fails_bind.mp hf with hf | ⟨⟨s', ok, traffic⟩, -, hf⟩
    · rw [Nat.mod_eq_of_lt (Nat.lt_of_lt_of_le hbound hcounts.2)] at hf
      exact not_fails_requestNewBlock h₁ hup ha htaken hask hf
    · by_cases hok : ok = none
      · simp only [hok, if_true] at hf
        exact not_fails_pure _ hf
      · simp only [hok, if_false] at hf
        rcases fails_bind.mp hf with hf | ⟨_, -, hf⟩
        · exact not_fails_loop _ hf
        · exact not_fails_pure _ hf
  · simp only [hp, ne_eq, not_false_eq_true, if_true] at hf
    exact not_fails_pure _ hf

theorem returns_orderedFreeN (h : Inv key s live) {p : Nat} (hg : (p, n) ∈ live) :
    ∃ s', Returns (orderedFreeN s p n) s' := by
  obtain ⟨l, hl⟩ := h.pool
  obtain ⟨st, q, l', hst, -, -⟩ :=
    hl.free_spec (.orderedFreeN p (s.countOf n)) hg id (fun _ => rfl) fun _ => rfl
  obtain ⟨st', hst', -⟩ := Option.map_eq_some_iff.mp hst
  have hcount := chunkCount_eq hl.chunkSize_pos (hl.counts _ hg).2
  have hmem : (p, s.countOf n) ∈ (s.view live).live := List.mem_map_of_mem hg
  obtain ⟨-, -, hstop, -⟩ := hl.storage.grant_placed hl.chunkSize_pos hmem
  have hend : p + s.chunkSize * s.countOf n % addressSpace - s.chunkSize ≤ addressSpace := by
    have := Nat.mod_le (s.chunkSize * s.countOf n) addressSpace
    dsimp only at hstop
    omega
  have hfree := addOrderedBlock_follows hend st' hst'
  exact ⟨_, returns_bind.mpr
    ⟨_, returns_orFail.mpr hcount, returns_bind.mpr ⟨st', hfree, returns_pure.mpr rfl⟩⟩⟩

end

end ResourcePool

/-! ## synchronised_pool_resource -/

open Synchronised (Keyed Place Inv World Op new getPool_some inMem)
open Pmr.ResourcePool (Honest AsksNothing)

/-- The request is passed to upstream, or it is not empty and its rounding to the chunks of the pool
that serves it does not wrap. -/
def Fits (s : Synchronised) (bytes alignment : Nat) : Prop :=
  s.direct bytes alignment = true ∨
    bytes ≠ 0 ∧ ∀ c, Synchronised.getPool bytes s.pools = some c →
      bytes + c.pool.chunkSize ≤ addressSpace

/-- The pool that serves the request asks upstream for no block without bytes. -/
def AsksBytes (s : Synchronised) (bytes : Nat) : Prop :=
  ∀ c, Synchronised.getPool bytes s.pools = some c →
    ¬ AsksNothing c.pool (c.pool.countOf (bytes / c.key) * c.pool.chunkSize)

section
variable {largest : Nat} {s : Synchronised} {live : List Grant} {up : Upstream}
    {bytes alignment : Nat} {c : Place}

theorem getPool_of_mem {pools : List (Nat × Pool)} {e : Nat × Pool} (he : e ∈ pools)
    (hmod : bytes % e.1 = 0) :
    ∃ c, Synchronised.getPool bytes pools = some c := by
  induction pools with
  | nil => cases he
  | cons e' pools ih =>
    obtain ⟨key, pool⟩ := e'
    rw [Synchronised.getPool]
    split
    · exact ⟨_, rfl⟩
    · next hne =>
      rcases List.mem_cons.mp he with rfl | he
      · exact absurd hmod hne
      · obtain ⟨c, hc⟩ := ih he
        rw [hc]
        exact ⟨_, rfl⟩

/-- The pool for one byte serves every request that no other does. -/
theorem Keyed.getPool (h : Keyed largest s) (hpos : bytes ≠ 0)
    (hd : s.direct bytes alignment = false) :
    ∃ c, Synchronised.getPool bytes s.pools = some c := by
  have hlt : 1 < largest := by
    simp only [Synchronised.direct, h.bound, Bool.or_eq_false_iff, decide_eq_false_iff_not] at hd
    omega
  have hone : 1 ∈ s.pools.map Prod.fst := by
    rw [h.keys, List.mem_reverse]
    simp [Synchronised.poolSizes, List.takeWhile_cons, hlt]
  obtain ⟨e, he, hkey⟩ := List.mem_map.mp hone
  exact getPool_of_mem he (by rw [hkey, Nat.mod_one])

/-- What a pool serves is a number of its objects. -/
theorem Inv.objects (h : Inv s live) (hc : Synchronised.getPool bytes s.pools = some c) :
    Pmr.ResourcePool.Inv c.key (inMem s.mem c.pool) (s.heldFrom live c.key) ∧
    c.pool.requestedSize = c.key ∧
      bytes / c.key * c.pool.requestedSize = bytes := by
  obtain ⟨hpools, hmod, -⟩ := getPool_some hc
  have hpool := h.pools (c.key, c.pool) (by simp [hpools])
  have hrequested : c.pool.requestedSize = c.key := hpool.requested
  refine ⟨hpool, hrequested, ?_⟩
  rw [hrequested, Nat.div_mul_cancel (Nat.dvd_of_mod_eq_zero hmod)]

theorem not_fails_allocateFromPool (h : Inv s live) (hk : Keyed largest s)
    (hup : Honest up (s.taken live)) (ha : AlignedAnswers up)
    (hd : s.direct bytes alignment = false) (hask : AsksBytes s bytes) (hpos : bytes ≠ 0)
    (hfits : ∀ c, Synchronised.getPool bytes s.pools = some c →
      bytes + c.pool.chunkSize ≤ addressSpace) :
    ¬ Fails (allocateFromPool s up bytes) := by
  obtain ⟨c, hc⟩ := Keyed.getPool hk hpos hd
  obtain ⟨hpools, hmod, -⟩ := getPool_some hc
  obtain ⟨hpool, hrequested, hobjects⟩ := Inv.objects h hc
  intro hf
  rcases fails_bind.mp hf with hf | ⟨c', hc', hf⟩
  · rw [getPool, fails_orFail, hc] at hf
    cases hf
  obtain rfl := Option.some.inj (hc.symm.trans (returns_orFail.mp hc'))
  rcases fails_bind.mp hf with hf | ⟨_, -, hf⟩
  · refine fails_check.mp hf ?_
    rw [hrequested]
    exact hmod
  rw [hrequested] at hf
  rcases fails_bind.mp hf with hf | ⟨_, -, hf⟩
  · refine ResourcePool.not_fails_orderedMalloc hpool hup ha ?_ ⟨?_, ?_⟩ (hask c hc) hf
    · intro r hr
      exact List.mem_append_left _ (List.mem_flatMap.mpr ⟨(c.key, c.pool), by simp [hpools], hr⟩)
    · refine Nat.pos_of_ne_zero ?_
      intro hzero
      rw [hzero, Nat.zero_mul] at hobjects
      exact hpos hobjects.symm
    · exact Nat.le_trans (Nat.le_of_eq (congrArg (· + c.pool.chunkSize) hobjects)) (hfits c hc)
  · exact not_fails_pure _ hf

/-- The pool that has to serve an empty request, or one that wraps. -/
theorem fails_allocateFromPool (h : Inv s live) (hb : bytes < addressSpace)
    (hbad : bytes = 0 ∨ ∃ c, Synchronised.getPool bytes s.pools = some c ∧
      addressSpace < bytes + c.pool.chunkSize) :
    Fails (allocateFromPool s up bytes) := by
  cases hc : Synchronised.getPool bytes s.pools with
  | none => exact fails_bind.mpr (.inl (fails_orFail.mpr hc))
  | some c =>
    obtain ⟨-, hmod, -⟩ := getPool_some hc
    obtain ⟨hpool, hrequested, hobjects⟩ := Inv.objects h hc
    have hdiv : bytes % c.pool.requestedSize = 0 := by
      rw [hrequested]
      exact hmod
    refine fails_bind.mpr (.inr
      ⟨c, returns_orFail.mpr hc,
        fails_bind.mpr (.inr ⟨(), returns_check.mpr hdiv, fails_bind.mpr (.inl ?_)⟩)⟩)
    rw [hrequested]
    by_cases hzero : bytes / c.key = 0
    · exact fails_bind.mpr (.inl (fails_check.mpr (not_not_intro hzero)))
    · refine fails_bind.mpr (.inr
        ⟨(), returns_check.mpr hzero, fails_bind.mpr (.inl (fails_orFail.mpr ?_))⟩)
      have hwrap : addressSpace < bytes + c.pool.chunkSize := by
        rcases hbad with rfl | ⟨c', hc', hwrap⟩
        · exact absurd (Nat.zero_div _) hzero
        · obtain rfl := Option.some.inj (hc.symm.trans hc')
          exact hwrap
      have hcs : c.pool.chunkSize ≤ addressSpace := by
        have hsmall : c.pool.chunkSize ≤ 128 ∨ c.pool.chunkSize = 256 := hpool.small
        unfold addressSpace
        omega
      refine ResourcePool.chunkCount_eq_none (s := inMem s.mem c.pool) ?_ ?_ hcs ?_
      · have hpos : bytes ≠ 0 := fun h0 => hzero (by rw [h0, Nat.zero_div])
        exact Nat.lt_of_lt_of_eq (Nat.pos_of_ne_zero hpos) hobjects.symm
      · exact Nat.lt_of_le_of_lt (Nat.le_of_eq hobjects) hb
      · exact Nat.lt_of_lt_of_eq hwrap (congrArg (· + c.pool.chunkSize) hobjects.symm)

theorem fails_doAllocate_iff (h : Inv s live) (hk : Keyed largest s)
    (hup : Honest up (s.taken live)) (ha : AlignedAnswers up) (hb : bytes < addressSpace)
    (hask : s.direct bytes alignment = false → AsksBytes s bytes) :
    Fails (doAllocate s up bytes alignment) ↔ ¬ Fits s bytes alignment := by
  rw [doAllocate]
  by_cases hd : s.direct bytes alignment = true
  · rw [if_pos hd]
    refine iff_of_false ?_ (not_not_intro (.inl hd))
    intro hf
    rcases fails_bind.mp hf with hf | ⟨_, -, hf⟩
    · exact ResourcePool.not_fails_askUpstream ha _ _ hf
    · exact not_fails_pure _ hf
  · rw [if_neg hd]
    rw [Bool.not_eq_true] at hd
    constructor
    · rintro hf (hdirect | ⟨hpos, hfits⟩)
      · rw [hd] at hdirect
        cases hdirect
      · exact not_fails_allocateFromPool h hk hup ha hd (hask hd) hpos hfits hf
    · intro hbad
      refine fails_allocateFromPool h hb ?_
      by_contra hgood
      simp only [not_or, not_exists, not_and, Nat.not_lt] at hgood
      exact hbad (.inr hgood)

/-- What a client holds. -/
theorem not_fails_doDeallocate (h : Inv s live) {g : Grant} (hg : g ∈ live)
    (ha : g.ptr % g.alignment = 0) (give : Mem → Region → Mem) :
    ¬ Fails (doDeallocate s give g) := by
  rw [doDeallocate]
  intro hf
  by_cases hd : s.direct g.bytes g.alignment = true
  · rw [if_pos hd] at hf
    rcases fails_bind.mp hf with hf | ⟨_, -, hf⟩
    · rcases fails_bind.mp hf with hf | ⟨_, -, hf⟩
      · exact fails_check.mp hf ha
      · exact not_fails_pure _ hf
    · exact not_fails_pure _ hf
  · rw [if_neg hd] at hf
    rw [Bool.not_eq_true] at hd
    obtain ⟨key, hkey⟩ := Option.isSome_iff_exists.mp (h.served g hg hd)
    obtain ⟨e, he, rfl⟩ := List.mem_map.mp (List.mem_of_find?_eq_some hkey)
    obtain ⟨c, hc⟩ := getPool_of_mem he (by simpa using List.find?_some hkey)
    obtain ⟨-, hmod, hserved⟩ := getPool_some hc
    obtain ⟨hpool, hrequested, -⟩ := Inv.objects h hc
    have hheld : (g.ptr, g.bytes / c.key) ∈ s.heldFrom live c.key := by
      refine List.mem_map.mpr ⟨g, List.mem_filter.mpr ⟨hg, ?_⟩, rfl⟩
      simp [hd, hserved]
    obtain ⟨pool, hfree⟩ := ResourcePool.returns_orderedFreeN hpool hheld
    rcases fails_bind.mp hf with hf | ⟨_, -, hf⟩
    · rcases fails_bind.mp hf with hf | ⟨c', hc', hf⟩
      · rw [getPool, fails_orFail, hc] at hf
        cases hf
      obtain rfl := Option.some.inj (hc.symm.trans (returns_orFail.mp hc'))
      rw [hrequested] at hf
      rcases fails_bind.mp hf with hf | ⟨_, -, hf⟩
      · exact fails_check.mp hf hmod
      rcases fails_bind.mp hf with hf | ⟨_, -, hf⟩
      · exact hfree.not_fails hf
      · exact not_fails_pure _ hf
    · exact not_fails_pure _ hf

end

/-! ## Runs -/

/-- Like `Op.Allowed`, for requests of every size. -/
def Usable (w : World) : Op → Prop
  | .allocate up bytes alignment => bytes < addressSpace ∧
    ∃ s, w.res = some s ∧ Honest up (s.taken w.live) ∧
      (s.direct bytes alignment = false → AsksBytes s bytes)
  | op => op.Allowed w

/-- A usable operation that returns. -/
def Use (w : World) (op : Op) (w' : World) : Prop := Usable w op ∧ w.exec op = some w'

/-- The invariants of the resource, with the alignment of what clients hold. -/
structure Sound (largest : Nat) (w : World) : Prop where
  inv : w.Inv
  keyed : ∀ s, w.res = some s → Keyed largest s
  aligned : ∀ g ∈ w.live, g.ptr % g.alignment = 0

section
variable {largest : Nat} {s s' : Synchronised} {w w' : World} {op : Op} {up : Upstream}
    {bytes alignment : Nat}

/-- A request that a pool served did not wrap. -/
theorem countable_of_returned (h : Inv s w.live) (hb : bytes < addressSpace)
    (hask : AsksBytes s bytes) {ret : Option Nat} {traffic : List Traffic}
    (hrun : s.allocateFromPool up bytes = some (s', ret, traffic)) :
    s.Countable bytes := by
  intro c hc
  refine ⟨?_, hask c hc⟩
  by_contra hwrap
  simp only [Synchronised.allocateFromPool, hc, Option.bind_eq_bind, Option.bind_some,
    Option.bind_eq_some_iff] at hrun
  obtain ⟨_, -, ⟨pool, ret', traffic'⟩, hmalloc, -⟩ := hrun
  have hpos := Synchronised.orderedMalloc_pos hmalloc
  obtain ⟨hpool, hrequested, hobjects⟩ := Inv.objects h hc
  have hsmall : c.pool.chunkSize ≤ 128 ∨ c.pool.chunkSize = 256 := hpool.small
  rw [hrequested] at hmalloc hpos
  have hbytes : 0 < bytes := Nat.pos_of_ne_zero fun h0 => hpos (by rw [h0, Nat.zero_div])
  have hnone : (inMem s.mem c.pool).chunkCount (bytes / c.key) = none := by
    refine ResourcePool.chunkCount_eq_none (s := inMem s.mem c.pool)
      (Nat.lt_of_lt_of_eq hbytes hobjects.symm) ?_ ?_ ?_
    · exact Nat.lt_of_le_of_lt (Nat.le_of_eq hobjects) hb
    · show c.pool.chunkSize ≤ addressSpace
      unfold addressSpace
      omega
    · exact Nat.lt_of_lt_of_eq (Nat.lt_of_not_le hwrap)
        (congrArg (· + c.pool.chunkSize) hobjects.symm)
  simp [Pmr.ResourcePool.orderedMalloc, hnone] at hmalloc

theorem Sound.use (h : Sound largest w) (hstep : Use w op w') : Sound largest w' := by
  obtain ⟨hu, hrun⟩ := hstep
  have hkeyed := Synchronised.keyed_exec h.keyed hrun
  cases op with
  | allocate up bytes alignment =>
    obtain ⟨hb, s, hres, hup, hask⟩ := hu
    have hrun' := hrun
    simp only [World.exec, hres, Synchronised.allocate, Option.bind_eq_bind, Option.bind_some,
      Option.bind_eq_some_iff, Option.pure_def, Option.some.injEq] at hrun'
    obtain ⟨_, ⟨⟨s', ret, traffic⟩, hdo, _, hguard, rfl⟩, rfl⟩ := hrun'
    refine ⟨h.inv.exec_allocate hres hup ?_ hrun, hkeyed, ?_⟩
    · intro hd
      simp only [Synchronised.doAllocate, hd, Bool.false_eq_true, if_false] at hdo
      exact countable_of_returned (h.inv.res s hres) hb (hask hd) hdo
    · intro g hg
      dsimp only at hg
      split at hg
      · exact h.aligned g hg
      · rcases List.mem_cons.mp hg with rfl | hg
        · by_contra hne
          simp [guard, hne] at hguard
        · exact h.aligned g hg
  | deallocate give g =>
    have ha : (Op.deallocate give g).Allowed w := hu
    refine ⟨h.inv.exec ha hrun, hkeyed, ?_⟩
    simp only [World.exec, Option.bind_eq_bind, Option.bind_eq_some_iff, Option.pure_def,
      Option.some.injEq] at hrun
    obtain ⟨s, -, _, -, rfl⟩ := hrun
    exact fun g' hg' => h.aligned g' (List.mem_of_mem_erase hg')
  | write a v =>
    have ha : (Op.write a v).Allowed w := hu
    refine ⟨h.inv.exec ha hrun, hkeyed, ?_⟩
    simp only [World.exec, Option.bind_eq_bind, Option.bind_eq_some_iff, Option.pure_def,
      Option.some.injEq] at hrun
    obtain ⟨s, -, rfl⟩ := hrun
    exact h.aligned
  | release give =>
    have ha : (Op.release give).Allowed w := hu
    refine ⟨h.inv.exec ha hrun, hkeyed, ?_⟩
    simp only [World.exec, Option.bind_eq_bind, Option.bind_eq_some_iff, Option.pure_def,
      Option.some.injEq] at hrun
    obtain ⟨s, -, _, -, rfl⟩ := hrun
    intro g hg
    cases hg
  | destroy give =>
    have ha : (Op.destroy give).Allowed w := hu
    refine ⟨h.inv.exec ha hrun, hkeyed, ?_⟩
    simp only [World.exec, Option.bind_eq_bind, Option.bind_eq_some_iff, Option.pure_def,
      Option.some.injEq] at hrun
    obtain ⟨s, -, _, -, rfl⟩ := hrun
    intro g hg
    cases hg

theorem sound_run {m : Mem} (h0 : new largest m = some s) {ops : List Op}
    (h : Run Use (World.start s) ops w) : Sound largest w := by
  refine h.invariant (I := Sound largest) ⟨World.start_inv h0, ?_, nofun⟩ ?_
  · intro t ht
    obtain rfl := Option.some.inj ht
    exact Synchronised.keyed_new h0
  · intro w op w' hw hstep
    exact hw.use hstep

/-- **Which calls fail.** In every state that a resource can come to, with any options,
`do_allocate` fails an assertion or comes to the end of `get_pool` if and only if the request does
not fit, and `do_deallocate` of what a client holds does not. -/
theorem fails_iff {m : Mem} {s₀ : Synchronised} (h0 : new largest m = some s₀) {ops : List Op}
    (h : Run Use (World.start s₀) ops w) (hres : w.res = some s) :
    (∀ up bytes alignment, Usable w (.allocate up bytes alignment) → AlignedAnswers up →
      (Fails (doAllocate s up bytes alignment) ↔ ¬ Fits s bytes alignment)) ∧
    ∀ give g, g ∈ w.live → ¬ Fails (doDeallocate s give g) := by
  have hs := sound_run h0 h
  constructor
  · intro up bytes alignment ⟨hb, t, ht, hup, hask⟩ ha
    obtain rfl := Option.some.inj (hres.symm.trans ht)
    exact fails_doAllocate_iff (hs.inv.res s hres) (hs.keyed s hres) hup ha hb hask
  · intro give g hg
    exact not_fails_doDeallocate (hs.inv.res s hres) hg (hs.aligned g hg) give

end

/-- A request for 8 bytes fits the default options, whatever upstream says. -/
theorem eight_bytes_do_not_fail :
    ¬ Fails (doAllocate Synchronised.fresh128 (fun _ _ => none) 8 8) := by
  have husable : Usable (World.start Synchronised.fresh128) (.allocate (fun _ _ => none) 8 8) := by
    refine ⟨by decide, _, rfl, nofun, ?_⟩
    intro _ c hc
    obtain rfl := Option.some.inj
      ((show Synchronised.getPool 8 Synchronised.fresh128.pools = some Synchronised.place8
        from rfl).symm.trans hc)
    exact fun hzero => absurd hzero.2 (by decide)
  have hfails := (fails_iff Synchronised.new_fresh128 .nil rfl).1 _ 8 8 husable nofun
  rw [hfails, not_not]
  right
  refine ⟨by decide, ?_⟩
  intro c hc
  obtain rfl := Option.some.inj
    ((show Synchronised.getPool 8 Synchronised.fresh128.pools = some Synchronised.place8
      from rfl).symm.trans hc)
  decide

/-- A request for no bytes fails an assertion with the default options, and has no pool where only
one byte is large. -/
theorem no_bytes_fail :
    (doAllocate Synchronised.fresh128 (fun _ _ => none) 0 8).run = some (.error .assertion) ∧
    ∃ s, new 1 (fun _ => 0) = some s ∧
    (doAllocate s (fun _ _ => none) 0 8).run = some (.error .impossible) :=
  ⟨rfl, _, rfl, rfl⟩

end Gpcl.Pmr.Asserting
