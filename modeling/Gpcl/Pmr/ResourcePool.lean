import Gpcl.Pool.Destroy
import Gpcl.Pmr.Monotonic

/-! # resource_pool

`resource_pool` is `pool` with another source of blocks: it has the same members and asks a
`memory_resource`, which throws when it has no memory. The methods that do not go upstream are those
of `pool`. What goes over the border to upstream is recorded as `Traffic`. -/
namespace Gpcl.Pmr
open Lib.Memory Lib.Chain
open Monotonic (maxAlign)

/-- A block that upstream handed out, or one that was passed to its `deallocate`. -/
inductive Traffic
  | obtained (g : Grant)
  | returned (g : Grant)
deriving DecidableEq, Repr

/-- `upstream_->allocate(bytes, alignment)`. An inner `none`: upstream threw. -/
def askUpstream (up : Upstream) (bytes alignment : Nat) : Option (Option Nat × List Traffic) :=
  match up bytes alignment with
  | none => some (none, [])
  | some p => do
    guard (p % alignment = 0)
    pure (some p, if p = 0 then [] else [.obtained ⟨p, bytes, alignment⟩])

/-- `upstream_->deallocate(ptr, bytes, alignment)`; `give` is what upstream does to the memory of
the block. -/
def giveUpstream (give : Mem → Region → Mem) (m : Mem) (g : Grant) :
    Option (Mem × List Traffic) := do
  guard (g.ptr % g.alignment = 0)
  pure (give m ⟨g.ptr, g.bytes⟩, [.returned g])

namespace ResourcePool
open Pool

/-- A block of the pool as upstream sees it. -/
def blockGrant (r : Region) : Grant := ⟨r.base, r.size, maxAlign⟩

/-- `none` in the second component: upstream threw. -/
def requestNewBlock (s : Pool) (up : Upstream) (minSize : Nat) (ordered : Bool) :
    Option (Pool × Option Bool × List Traffic) := do
  let sz ← growSize ((minSize + sizeofBlockInfo * 2) % addressSpace)
    (s.nextSize * s.chunkSize % addressSpace)
  let s := { s with nextSize := s.nextSize * 2 % addressSpace }
  let (block, traffic) ← askUpstream up sz maxAlign
  match block with
  | none => pure (s, none, traffic)
  | some block =>
    if block = 0 then pure (s, some false, traffic)
    else do
      let s := { s with obtained := ⟨block, sz⟩ :: s.obtained }
      let (s, info) ← s.addBlock block sz s.blockList ordered
      let s := { s with blockList := info }
      guard (s.storage.empty = false)
      pure (s, some true, traffic)

/-- `ordered_malloc(n)`. -/
def orderedMalloc (s : Pool) (up : Upstream) (n : Nat) :
    Option (Pool × Option Nat × List Traffic) := do
  guard (n ≠ 0)
  let count ← s.chunkCount n
  let (storage, p) ← s.storage.mallocN count s.chunkSize
  let s := { s with storage }
  if p ≠ 0 then pure (s, some p, [])
  else do
    let (s, ok, traffic) ← requestNewBlock s up (count * s.chunkSize % addressSpace) true
    if ok = none then pure (s, none, traffic)
    else do
      let (storage, p) ← s.storage.mallocN count s.chunkSize
      pure ({ s with storage }, some p, traffic)

/-- The loop of the destructor. -/
def destroyLoop (give : Mem → Region → Mem) (m : Mem) (block : Gpcl.BlockInfo) :
    Option (Mem × List Traffic) :=
  if block.ptr = 0 then some (m, [])
  else do
    let next := nextInfo m block
    let (m, traffic) ← giveUpstream give m ⟨block.ptr, block.size, maxAlign⟩
    let (m, rest) : Mem × List Traffic ← by apply destroyLoop; exacts [give, m, next]
    pure (m, traffic ++ rest)
partial_fixpoint

/-- What upstream answers lies in the address space, apart from what it was not given back. -/
def Honest (up : Upstream) (taken : List Region) : Prop :=
  ∀ bytes alignment p, up bytes alignment = some p → p ≠ 0 → p + bytes < addressSpace ∧
    ∀ r ∈ taken, Region.Disjoint ⟨p, bytes⟩ r

/-- `request_new_block(min_size)` asks for a block without bytes: both of its sizes have wrapped to
0. -/
def AsksNothing (s : Pool) (minSize : Nat) : Prop :=
  (minSize + sizeofBlockInfo * 2) % addressSpace = 0 ∧ s.nextSize * s.chunkSize % addressSpace = 0

/-- The pool for objects of `key` bytes. -/
structure Inv (key : Nat) (s : Pool) (live : List (Nat × Nat)) : Prop where
  pool : ∃ l, Pool.Inv s live l
  requested : s.requestedSize = key
  whole : 8 ∣ s.chunkSize
  small : s.chunkSize ≤ 128 ∨ s.chunkSize = 256
  next : 32 ∣ s.nextSize
  aligned : ∀ r ∈ s.obtained, r.base % maxAlign = 0

section
variable {key : Nat} {s s' : Pool} {live : List (Nat × Nat)} {up : Upstream} {taken : List Region}
    {traffic : List Traffic}

theorem askUpstream_some {bytes alignment : Nat} {ret : Option Nat}
    (h : askUpstream up bytes alignment = some (ret, traffic)) :
    (traffic = [] ∧ (ret = none ∨ ret = some 0)) ∨
      ∃ p, p ≠ 0 ∧ ret = some p ∧ up bytes alignment = some p ∧ p % alignment = 0 ∧
      traffic = [.obtained ⟨p, bytes, alignment⟩] := by
  unfold askUpstream at h
  cases hup : up bytes alignment with
  | none =>
    simp only [hup, Option.some.injEq, Prod.mk.injEq] at h
    exact .inl ⟨h.2.symm, .inl h.1.symm⟩
  | some p =>
    by_cases ha : p % alignment = 0
    · simp [hup, guard, ha] at h
      obtain ⟨rfl, rfl⟩ := h
      by_cases hp : p = 0
      · exact .inl ⟨by simp [hp], .inr (by simp [hp])⟩
      · exact .inr ⟨p, hp, rfl, rfl, ha, by simp [hp]⟩
    · simp [hup, guard, ha] at h

/-- A pool that got `new` from upstream. -/
structure Grown (taken : List Region) (s s' : Pool) (new : Option Region)
  (traffic : List Traffic) : Prop where
  obtained : s'.obtained = new.toList ++ s.obtained
  traffic : traffic = new.toList.map fun r => .obtained (blockGrant r)
  apart : ∀ r ∈ new, ∀ r' ∈ taken, r.Disjoint r'
  outside : Outside s'.obtained s.storage.mem s'.storage.mem

theorem not_asksNothing {minSize : Nat} (h : minSize + sizeofBlockInfo * 2 < addressSpace) :
    ¬ AsksNothing s minSize := by
  intro hzero
  have hsum := hzero.1
  rw [Nat.mod_eq_of_lt h] at hsum
  exact absurd hsum (by unfold sizeofBlockInfo; omega)

/-- What is asked for has room for a chunk. -/
theorem Inv.asked (h : Inv key s live) {minSize sz : Nat} (hask : ¬ AsksNothing s minSize)
    (hgrow : growSize ((minSize + sizeofBlockInfo * 2) % addressSpace)
      (s.nextSize * s.chunkSize % addressSpace) = some sz) :
    sizeofBlockInfo ≤ sz ∧ sz < addressSpace ∧ s.chunkSize ≤ blockInfoOffset sz := by
  obtain ⟨hsz, hlt, hdvd⟩ := growSize_some hgrow
  have hlt := hlt (mod_addressSpace_lt _)
  have hpos : sz ≠ 0 := by
    rintro rfl
    have hzero := Nat.le_zero.mp hsz
    rw [hzero, growSize, if_neg (Nat.not_lt_zero _)] at hgrow
    exact hask ⟨hzero, Option.some.inj hgrow⟩
  -- the size is a multiple of 32 chunks, or of what 32 chunks have in common with the address space
  have hmultiple (d : Nat) (hd : 32 * d ∣ addressSpace) (hc : d ∣ s.chunkSize) : 32 * d ≤ sz :=
    Nat.le_of_dvd (Nat.pos_of_ne_zero hpos)
      (hdvd _ hd ((Nat.dvd_mod_iff hd).mpr (Nat.mul_dvd_mul h.next hc)))
  have hroom : s.chunkSize + 24 ≤ sz := by
    rcases h.small with hs | hs
    · have := hmultiple 8 (by decide) h.whole
      omega
    · have := hmultiple 256 (by decide) (hs ▸ Nat.dvd_refl 256)
      omega
  have hsize : sizeofBlockInfo ≤ sz := by
    unfold sizeofBlockInfo
    omega
  have hb := (blockInfoOffset_bounds hsize hlt).2
  refine ⟨hsize, hlt, ?_⟩
  unfold sizeofBlockInfo wordSize at hb
  omega

/-- The block that upstream grants for the size that is asked for is added. -/
theorem Inv.addGranted (h : Inv key s live) (hup : Honest up taken)
    (htaken : ∀ r ∈ s.obtained, r ∈ taken) {minSize sz p : Nat} (hask : ¬ AsksNothing s minSize)
    (hgrow : growSize ((minSize + sizeofBlockInfo * 2) % addressSpace)
      (s.nextSize * s.chunkSize % addressSpace) = some sz)
    (hans : up sz maxAlign = some p) (hp : p ≠ 0) :
    ∃ st l, Pool.addBlock { s with
      nextSize := s.nextSize * 2 % addressSpace, obtained :=
  ⟨p, sz⟩ :: s.obtained } p sz s.blockList true =
        some ({ s with
          nextSize := s.nextSize * 2 % addressSpace, storage := st, obtained :=
            ⟨p, sz⟩ :: s.obtained }, info ⟨p, sz⟩) ∧
      st.empty = false ∧ Outside (⟨p, sz⟩ :: s.obtained) s.storage.mem st.mem ∧
      Pool.Inv { s with
        nextSize := s.nextSize * 2 % addressSpace, storage := st, obtained :=
          ⟨p, sz⟩ :: s.obtained, blockList := info ⟨p, sz⟩ }
        live l := by
  obtain ⟨l, hl⟩ := h.pool
  have hl' : Pool.Inv { s with nextSize := s.nextSize * 2 % addressSpace } live l :=
    ⟨hl.storage, hl.sizes, hl.counts, hl.chain, hl.blocks, hl.small, hl.roomy, hl.cut⟩
  obtain ⟨hsize, hlt, hchunk⟩ := h.asked hask hgrow
  obtain ⟨hstop, hd⟩ := hup _ _ _ hans hp
  have hsmall : s.Counts 1 := by
    have hs := h.small
    have hr := hl.sizes.2.1
    refine ⟨Nat.one_pos, ?_⟩
    unfold addressSpace
    omega
  have hbs : Blocks (⟨p, sz⟩ :: s.obtained) := by
    refine ⟨fun r hr => ?_,
      List.pairwise_cons.mpr ⟨fun r hr => hd r (htaken r hr), hl.blocks.apart⟩⟩
    rcases List.mem_cons.mp hr with rfl | hr
    · exact ⟨Nat.pos_of_ne_zero hp, hstop, hsize⟩
    · exact hl.blocks.placed r hr
  obtain ⟨st, hadd, hne, ho, hi⟩ := hl'.addBlock_spec true hbs hsmall hchunk
  exact ⟨st, _, hadd, hne, ho, hi⟩

/-- `request_new_block`, if it returns or throws. -/
theorem Inv.requestNewBlock (h : Inv key s live) (hup : Honest up taken)
    (htaken : ∀ r ∈ s.obtained, r ∈ taken) {minSize : Nat} (hask : ¬ AsksNothing s minSize)
    {ok : Option Bool} (hrun : requestNewBlock s up minSize true = some (s', ok, traffic)) :
    Inv key s' live ∧ s'.chunkSize = s.chunkSize ∧ ∃ new, Grown taken s s' new traffic := by
  obtain ⟨l, hl⟩ := h.pool
  have hnext : 32 ∣ s.nextSize * 2 % addressSpace :=
    (Nat.dvd_mod_iff (by decide)).mpr (Nat.dvd_mul_right_of_dvd h.next 2)
  have hl' : Pool.Inv { s with nextSize := s.nextSize * 2 % addressSpace } live l :=
    ⟨hl.storage, hl.sizes, hl.counts, hl.chain, hl.blocks, hl.small, hl.roomy, hl.cut⟩
  simp only [ResourcePool.requestNewBlock, Option.bind_eq_bind, Option.bind_eq_some_iff] at hrun
  obtain ⟨sz, hgrow, ⟨block, traffic'⟩, hask', hrun⟩ := hrun
  obtain ⟨htraffic, hnone⟩ | ⟨p, hp, rfl, hans, haligned, rfl⟩ := askUpstream_some hask'
  · have hs' : s' = { s with nextSize := s.nextSize * 2 % addressSpace } ∧ traffic = [] := by
      rcases hnone with rfl | rfl
      · simp only [Option.pure_def, Option.some.injEq, Prod.mk.injEq] at hrun
        exact ⟨hrun.1.symm, hrun.2.2.symm.trans htraffic⟩
      · simp only [if_true, Option.pure_def, Option.some.injEq, Prod.mk.injEq] at hrun
        exact ⟨hrun.1.symm, hrun.2.2.symm.trans htraffic⟩
    obtain ⟨rfl, rfl⟩ := hs'
    exact ⟨⟨⟨l, hl'⟩, h.requested, h.whole, h.small, hnext, h.aligned⟩, rfl, none, rfl, rfl,
      by simp, Outside.refl _ _⟩
  · obtain ⟨st, l', hadd, hne, ho, hi⟩ := h.addGranted hup htaken hask hgrow hans hp
    simp only [hp, if_false, hadd, Option.bind_some, hne] at hrun
    simp [guard] at hrun
    obtain ⟨rfl, -, rfl⟩ := hrun
    refine ⟨⟨⟨_, hi⟩, h.requested, h.whole, h.small, hnext, ?_⟩, rfl, some ⟨p, sz⟩, rfl, rfl,
      ?_, ho⟩
    · intro r hr
      rcases List.mem_cons.mp hr with rfl | hr
      · exact haligned
      · exact h.aligned r hr
    · intro r hr
      obtain rfl := Option.mem_some.mp hr
      exact (hup _ _ _ hans hp).2

theorem Inv.of_storage (h : Inv key s live) {st : Storage} {live' : List (Nat × Nat)} {l : List Nat}
    (hl : Pool.Inv { s with storage := st } live' l) : Inv key { s with storage := st } live' :=
  ⟨⟨l, hl⟩, h.requested, h.whole, h.small, h.next, h.aligned⟩

/-- `ordered_malloc(n)`, if it returns or throws. -/
theorem Inv.orderedMalloc (h : Inv key s live) (hup : Honest up taken)
    (htaken : ∀ r ∈ s.obtained, r ∈ taken) {n : Nat} (hcounts : s.Counts n)
    (hask : ¬ AsksNothing s (s.countOf n * s.chunkSize)) {ret : Option Nat}
    (hrun : orderedMalloc s up n = some (s', ret, traffic)) :
    Inv key s' (if ret.getD 0 = 0 then live else (ret.getD 0, n) :: live) ∧
    ∃ new, Grown taken s s' new traffic := by
  obtain ⟨l, hl⟩ := h.pool
  simp only [ResourcePool.orderedMalloc, Option.bind_eq_bind, Option.bind_eq_some_iff] at hrun
  obtain ⟨_, -, count, hcount, ⟨st, p⟩, hmalloc, hrun⟩ := hrun
  have hbound := (countOf_bounds (s := s) (n := n) hl.chunkSize_pos).2
  rw [chunkCount_eq hl.chunkSize_pos hcounts.2] at hcount
  obtain rfl := Option.some.inj hcount
  obtain ⟨st', p', l₁, hmalloc', ho, hl₁⟩ := hl.mallocN_spec hcounts
  obtain ⟨rfl, rfl⟩ := Prod.mk.inj (Option.some.inj (hmalloc.symm.trans hmalloc'))
  by_cases hp : p = 0
  · subst hp
    have h₁ := h.of_storage hl₁
    simp only [ne_eq, not_true_eq_false, if_false, Option.bind_eq_some_iff] at hrun
    obtain ⟨⟨s₂, ok, traffic₂⟩, hreq, hrun⟩ := hrun
    rw [Nat.mod_eq_of_lt (Nat.lt_of_lt_of_le hbound hcounts.2)] at hreq
    obtain ⟨h₂, hcs, new, hgrown⟩ := h₁.requestNewBlock hup htaken hask hreq
    have hobtained := hgrown.obtained
    have ho₂ : Outside s₂.obtained s.storage.mem s₂.storage.mem := by
      refine Outside.trans (ho.mono fun r hr => ⟨r, ?_, .refl r⟩) hgrown.outside
      rw [hobtained]
      exact List.mem_append_right _ hr
    by_cases hok : ok = none
    · simp only [hok, if_true, Option.pure_def, Option.some.injEq, Prod.mk.injEq] at hrun
      obtain ⟨rfl, rfl, rfl⟩ := hrun
      exact ⟨h₂, new, hobtained, hgrown.traffic, hgrown.apart, ho₂⟩
    · simp only [hok, if_false, Option.bind_eq_some_iff, Option.pure_def, Option.some.injEq,
        Prod.mk.injEq] at hrun
      obtain ⟨⟨st₃, p₃⟩, hmalloc₃, rfl, rfl, rfl⟩ := hrun
      obtain ⟨l₂, hl₂⟩ := h₂.pool
      have hcount₂ : s₂.countOf n = s.countOf n := by
        simp only [countOf, hcs, h.requested, h₂.requested]
      have hcounts₂ : s₂.Counts n := by
        have hc := hcounts
        rwa [Counts, h.requested, ← h₂.requested, ← hcs] at hc
      obtain ⟨st', p', l₃, hmalloc', ho₃, hl₃⟩ := hl₂.mallocN_spec hcounts₂
      rw [hcount₂] at hmalloc'
      obtain ⟨rfl, rfl⟩ := Prod.mk.inj (Option.some.inj (hmalloc₃.symm.trans hmalloc'))
      exact ⟨h₂.of_storage hl₃, new, hobtained, hgrown.traffic, hgrown.apart, ho₂.trans ho₃⟩
  · simp only [ne_eq, hp, not_false_eq_true, if_true, Option.pure_def, Option.some.injEq,
      Prod.mk.injEq] at hrun
    obtain ⟨rfl, rfl, rfl⟩ := hrun
    exact ⟨h.of_storage hl₁, none, rfl, rfl, by simp, ho⟩

/-- `ordered_free(ptr, n)` of what is held. -/
theorem Inv.orderedFreeN (h : Inv key s live) {p n : Nat} (hg : (p, n) ∈ live)
    (hrun : s.orderedFreeN p n = some s') :
    Inv key s' (live.erase (p, n)) ∧ s'.obtained = s.obtained ∧
    Outside s.obtained s.storage.mem s'.storage.mem := by
  obtain ⟨l, hl⟩ := h.pool
  obtain ⟨st, q, l', hst, ho, hl'⟩ :=
    hl.free_spec (.orderedFreeN p (s.countOf n)) hg id (fun _ => rfl) fun _ => rfl
  obtain ⟨st', hst', he⟩ := Option.map_eq_some_iff.mp hst
  obtain rfl := (Prod.mk.inj he).1
  have hcount := chunkCount_eq hl.chunkSize_pos (hl.counts _ hg).2
  simp only [Pool.orderedFreeN, hcount, hst', Option.bind_eq_bind, Option.bind_some,
    Option.pure_def, Option.some.injEq] at hrun
  obtain rfl := hrun
  exact ⟨h.of_storage hl', rfl, ho⟩

/-- A client writes to what it holds. -/
theorem Inv.write (h : Inv key s live) {p n a : Nat} (v : UInt8) (hg : (p, n) ∈ live)
    (ha : Region.Contains ⟨p, n * key⟩ a) :
    Inv key { s with storage.mem := Function.update s.storage.mem a v } live ∧
      Outside s.obtained s.storage.mem (Function.update s.storage.mem a v) := by
  obtain ⟨l, hl⟩ := h.pool
  have hb := (countOf_bounds (s := s) (n := n) hl.chunkSize_pos).1
  rw [h.requested] at hb
  obtain ⟨st, q, l', hrun, -, ho, hinv⟩ := hl.storageOp (.write a v)
    ⟨_, List.mem_map_of_mem hg, ha.1, Nat.lt_of_lt_of_le ha.2 (Nat.add_le_add_left hb _)⟩
      fun _ => rfl
  obtain ⟨rfl, rfl⟩ := Prod.mk.inj (Option.some.inj hrun)
  exact ⟨h.of_storage (hinv _ (List.Perm.refl _) hl.counts), ho⟩

theorem Inv.frame (h : Inv key s live) {m : Mem} {rs : List Region}
    (ho : Outside rs s.storage.mem m)
    (hd : ∀ a ∈ rs, ∀ r ∈ s.obtained, a.Disjoint r) : Inv key { s with storage.mem := m } live := by
  obtain ⟨l, hl⟩ := h.pool
  exact h.of_storage (hl.frame ho hd)

theorem Inv.perm_live (h : Inv key s live) {live' : List (Nat × Nat)} (hp : live.Perm live') :
    Inv key s live' := by
  obtain ⟨l, hl⟩ := h.pool
  exact ⟨⟨l, hl.perm_live hp⟩, h.requested, h.whole, h.small, h.next, h.aligned⟩

/-- The destructor returns each block of the chain. -/
theorem destroyLoop_spec {give : Mem → Region → Mem} (hgive : ∀ m r, Outside [r] m (give m r)) :
    ∀ {bs : List Region} {m : Mem} {b : Gpcl.BlockInfo}, Blocks bs →
    (∀ r ∈ bs, r.base % maxAlign = 0) →
      Path (nextInfo m) ⟨0, 0⟩ b (bs.map info) ⟨0, 0⟩ →
      ∃ m', destroyLoop give m b = some (m', bs.map fun r => .returned (blockGrant r)) ∧
      Outside bs m m'
  | [], m, b, _, _, hp => by
    obtain rfl : b = ⟨0, 0⟩ := hp
    rw [destroyLoop, if_pos rfl]
    exact ⟨m, rfl, Outside.refl _ _⟩
  | r :: bs, m, b, hbs, ha, hp => by
    obtain ⟨hb, -, hp⟩ := hp
    have hb' : b = info r := hb
    subst hb'
    have hpos : (info r).ptr ≠ 0 := Nat.ne_of_gt (hbs.placed r List.mem_cons_self).1
    have hp' := chain_outside hp (hgive m r) fun r' hr' a ha => by
      obtain rfl := List.mem_singleton.mp ha
      obtain ⟨-, hs', hz'⟩ := hbs.placed r' (List.mem_cons_of_mem _ hr')
      exact (((List.pairwise_cons.mp hbs.apart).1 r' hr').mono (.refl _)
        (trailer_inside hz' hs')).symm
    obtain ⟨m', hrest, ho⟩ :=
      destroyLoop_spec hgive hbs.tail (fun r hr => ha r (List.mem_cons_of_mem _ hr)) hp'
    refine ⟨m', ?_, ?_⟩
    · have haligned := ha r List.mem_cons_self
      rw [destroyLoop, if_neg hpos]
      simp only [info] at hrest ⊢
      simp [giveUpstream, guard, haligned, hrest, blockGrant]
    · refine Outside.trans ((hgive m r).mono fun a ha => ?_)
        (ho.mono fun a ha => ⟨a, List.mem_cons_of_mem _ ha, .refl a⟩)
      obtain rfl := List.mem_singleton.mp ha
      exact ⟨a, List.mem_cons_self, .refl a⟩

end

end ResourcePool

end Gpcl.Pmr
