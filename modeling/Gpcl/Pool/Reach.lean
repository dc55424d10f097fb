import Gpcl.Pool.Use

/-! # Every state a pool can come to

`Step` asks that no size wraps when a block is requested. Here a request may be of any size
that `request_new_block` comes to, after any number of refusals and `set_next_size`: a
`Move` is an operation that returns, with clients that free what they hold and ask for
arrays whose size, with the bookkeeping, is a `size_type`, and a user allocator that
returns null or a fresh block. The invariant of the pool holds all the same. -/
namespace Gpcl.Pool
open Lib.Memory Lib.Chain Lib.Runs

/-- The `k`-th size that the sizing loop looks at. -/
def doubled (s : Pool) (k : Nat) : Nat := s.nextSize * s.chunkSize * 2 ^ k % addressSpace

/-- What the sizing loop compares with. -/
def target (minSize : Nat) : Nat := (minSize + sizeofBlockInfo * 2) % addressSpace

/-- `request_new_block(min_size)` asks the user allocator for the `k`-th size: it is the first that
reaches the target. -/
def AsksAt (s : Pool) (minSize k : Nat) : Prop :=
  target minSize ≤ s.doubled k ∧ ∀ i < k, s.doubled i < target minSize

/-- Whatever size is asked for, the answer is null or a fresh block. -/
def Offers (s : Pool) (ua : Nat → Nat) (minSize : Nat) : Prop :=
  ∀ k, s.AsksAt minSize k → s.Answer ua (s.doubled k)

/-- An array of `n` objects, with its rounding to chunks and the bookkeeping of a block, has a
size. -/
def Sized (s : Pool) (n : Nat) : Prop :=
  0 < n ∧ n * s.requestedSize + s.chunkSize + sizeofBlockInfo * 2 ≤ addressSpace

def Op.Permitted (w : World) : Op → Prop
  | .malloc ua | .orderedMalloc ua =>
    w.pool.storage.empty = true → w.pool.Offers ua w.pool.chunkSize
  | .orderedMallocN ua n => w.pool.Sized n ∧
    ∀ st, w.pool.storage.mallocN (w.pool.countOf n) w.pool.chunkSize = some (st, 0) →
      w.pool.Offers ua (w.pool.countOf n * w.pool.chunkSize)
  | .setNextSize n => n ≠ 0 ∧ n < addressSpace
  | op => op.Allowed w

/-- A permitted operation that returns. -/
def Move (w : World) (op : Op) (w' : World) : Prop := op.Permitted w ∧ ∃ p, w.exec op = some (w', p)

/-! ## The sizing loop -/

theorem doubled_mod (sz k : Nat) :
    sz % addressSpace * 2 ^ k % addressSpace = sz * 2 ^ k % addressSpace := by
  rw [Nat.mul_mod, Nat.mod_mod, ← Nat.mul_mod]

/-- The loop ends with the first doubling that reaches the target. -/
theorem growSize_first {target sz r : Nat} (h : growSize target sz = some r) :
    ∃ k, r % addressSpace = sz * 2 ^ k % addressSpace ∧ (sz < addressSpace → r < addressSpace) ∧
    target ≤ r ∧
      (sz < addressSpace → ∀ i < k, sz * 2 ^ i % addressSpace < target) := by
  refine growSize.partial_correctness target
    (fun sz r => ∃ k, r % addressSpace = sz * 2 ^ k % addressSpace ∧
    (sz < addressSpace → r < addressSpace) ∧ target ≤ r ∧
      (sz < addressSpace → ∀ i < k, sz * 2 ^ i % addressSpace < target)) ?_ sz r h
  intro f ih sz r hr
  split at hr
  · rename_i hlt
    obtain ⟨k, hk, hr', hge, hbefore⟩ := ih _ _ hr
    have hmod : sz * 2 % addressSpace < addressSpace := mod_addressSpace_lt _
    have hshift : ∀ i,
        sz * 2 % addressSpace * 2 ^ i % addressSpace = sz * 2 ^ (i + 1) % addressSpace := by
      intro i
      rw [doubled_mod, Nat.pow_succ', Nat.mul_assoc]
    refine ⟨k + 1, by rw [hk, hshift], fun _ => hr' hmod, hge, ?_⟩
    intro hsz i hi
    cases i with
    | zero => rwa [Nat.pow_zero, Nat.mul_one, Nat.mod_eq_of_lt hsz]
    | succ i =>
      rw [← hshift]
      exact hbefore hmod i (by omega)
  · obtain rfl := Option.some.inj hr
    exact ⟨0, by rw [Nat.pow_zero, Nat.mul_one], id, by omega, by omega⟩

/-- The loop ends if some doubling reaches the target. -/
theorem growSize_ends {target : Nat} :
    ∀ (k sz : Nat), sz < addressSpace → target ≤ sz * 2 ^ k % addressSpace →
    (∀ i < k, sz * 2 ^ i % addressSpace < target) →
    growSize target sz = some (sz * 2 ^ k % addressSpace)
  | 0, sz, hsz, ht, _ => by
    rw [Nat.pow_zero, Nat.mul_one, Nat.mod_eq_of_lt hsz] at *
    rw [growSize, if_neg (by omega)]
  | k + 1, sz, hsz, ht, hbefore => by
    have hlt := hbefore 0 (by omega)
    rw [Nat.pow_zero, Nat.mul_one, Nat.mod_eq_of_lt hsz] at hlt
    have hshift : ∀ i,
        sz * 2 % addressSpace * 2 ^ i % addressSpace = sz * 2 ^ (i + 1) % addressSpace := by
      intro i
      rw [doubled_mod, Nat.pow_succ', Nat.mul_assoc]
    rw [growSize, if_pos hlt, growSize_ends k _ (mod_addressSpace_lt _) (by rw [hshift]; exact ht),
      hshift]
    intro i hi
    rw [hshift]
    exact hbefore (i + 1) (by omega)

section
variable {s : Pool} {live : List (Nat × Nat)} {l : List Nat} {ua : Nat → Nat} {minSize : Nat}

/-- The sizing loop of `request_new_block` ends exactly with the sizes it asks for. -/
theorem growSize_eq_some_iff {sz : Nat} :
    growSize (target minSize) (s.nextSize * s.chunkSize % addressSpace) = some sz ↔
    ∃ k, s.AsksAt minSize k ∧ sz = s.doubled k := by
  have hmod : s.nextSize * s.chunkSize % addressSpace < addressSpace := mod_addressSpace_lt _
  constructor
  · intro h
    obtain ⟨k, hk, hlt, hge, hbefore⟩ := growSize_first h
    have hsz : sz = s.doubled k := by
      rw [Nat.mod_eq_of_lt (hlt hmod), doubled_mod] at hk
      exact hk
    refine ⟨k, ⟨hsz ▸ hge, ?_⟩, hsz⟩
    intro i hi
    have := hbefore hmod i hi
    rwa [doubled_mod] at this
  · intro ⟨k, ⟨hge, hbefore⟩, hsz⟩
    rw [hsz, growSize_ends k _ hmod, doubled_mod]
    · rfl
    · rw [doubled_mod]; exact hge
    · intro i hi
      rw [doubled_mod]
      exact hbefore i hi

/-- At most one size is asked for. -/
theorem AsksAt.unique {k k' : Nat} (h : s.AsksAt minSize k) (h' : s.AsksAt minSize k') :
    k = k' := by
  rcases Nat.lt_trichotomy k k' with hlt | he | hlt
  · have := h'.2 k hlt
    have := h.1
    omega
  · exact he
  · have := h.2 k' hlt
    have := h'.1
    omega

theorem target_eq (h : minSize + sizeofBlockInfo * 2 < addressSpace) :
    target minSize = minSize + sizeofBlockInfo * 2 :=
  Nat.mod_eq_of_lt h

/-- Where an array has a size, one object has. -/
theorem Sized.one {n : Nat} (h : s.Sized n) : s.Sized 1 := by
  obtain ⟨hpos, hle⟩ := h
  have := Nat.le_mul_of_pos_left s.requestedSize hpos
  exact ⟨Nat.one_pos, by omega⟩

theorem Sized.counts {n : Nat} (h : s.Sized n) : s.Counts n := by
  obtain ⟨hpos, hle⟩ := h
  exact ⟨hpos, by omega⟩

/-- `request_new_block` returns once it asked for a size. -/
theorem Inv.requestAt_spec (h : Inv s live l) (ua : Nat → Nat) (ordered : Bool) {k : Nat}
    (hsmall : s.Counts 1) (hmin : s.chunkSize ≤ minSize)
    (hfit : minSize + sizeofBlockInfo * 2 < addressSpace) (hk : s.AsksAt minSize k)
    (hans : s.Answer ua (s.doubled k)) :
    (ua (s.doubled k) = 0 ∧
      s.requestNewBlock ua minSize ordered =
        some ({ s with nextSize := s.nextSize * 2 % addressSpace }, false) ∧
        Inv { s with nextSize := s.nextSize * 2 % addressSpace } live l) ∨
      ua (s.doubled k) ≠ 0 ∧ ∃ s', s.requestNewBlock ua minSize ordered = some (s', true) ∧
        s'.storage.empty = false ∧
        s'.requestedSize = s.requestedSize ∧ s'.chunkSize = s.chunkSize ∧
          s'.nextSize = s.nextSize * 2 % addressSpace ∧
        s'.obtained = ⟨ua (s.doubled k), s.doubled k⟩ :: s.obtained ∧
          Outside s'.obtained s.storage.mem s'.storage.mem ∧
        Inv s' live (added ordered (ua (s.doubled k))
          (s.carved ⟨ua (s.doubled k), s.doubled k⟩) l) := by
  have hgrow := (growSize_eq_some_iff (s := s)).mpr ⟨k, hk, rfl⟩
  have hge := hk.1
  rw [target_eq hfit] at hge
  obtain ⟨h16, hc⟩ := chunks_fit_size hmin hge (mod_addressSpace_lt _)
  exact h.requestBlock_spec ua ordered hsmall hgrow h16 (fun _ => Nat.le_of_lt hc) hans

/-! ## What a call that returned did -/

theorem addBlock_cases {s' : Pool} {ptr sz : Nat} {stop i : BlockInfo} {ordered : Bool}
    (h : s.addBlock ptr sz stop ordered = some (s', i)) : ∃ st, s' = { s with storage := st } := by
  simp only [addBlock, Option.bind_eq_bind] at h
  cases ordered with
  | false | true =>
    simp only [Bool.false_eq_true, if_false, if_true, Option.bind_eq_some_iff, Option.pure_def,
      Option.some.injEq, Prod.mk.injEq] at h
    obtain ⟨st, -, rfl, -⟩ := h
    exact ⟨_, rfl⟩

/-- The pool when it has obtained a block that is not yet cut. -/
def recorded (s : Pool) (r : Region) : Pool :=
  { s with nextSize := s.nextSize * 2 % addressSpace, obtained := r :: s.obtained }

/-- A request asked for a size. It was refused, or the block that was granted is added. -/
theorem requestNewBlock_cases {s' : Pool} {ordered ok : Bool}
    (h : s.requestNewBlock ua minSize ordered = some (s', ok)) :
    ∃ k, s.AsksAt minSize k ∧
      ((ua (s.doubled k) = 0 ∧ ok = false ∧
        s' = { s with nextSize := s.nextSize * 2 % addressSpace }) ∨
        ua (s.doubled k) ≠ 0 ∧ ok = true ∧ ∃ t i,
          (s.recorded ⟨ua (s.doubled k), s.doubled k⟩).addBlock (ua (s.doubled k))
            (s.doubled k) s.blockList ordered = some (t, i) ∧
            s' = { t with blockList := i }) := by
  simp only [requestNewBlock, Option.bind_eq_bind, Option.bind_eq_some_iff] at h
  obtain ⟨sz, hgrow, h⟩ := h
  obtain ⟨k, hk, rfl⟩ := (growSize_eq_some_iff (s := s)).mp hgrow
  refine ⟨k, hk, ?_⟩
  by_cases hz : ua (s.doubled k) = 0
  · simp only [hz, if_true, Option.pure_def, Option.some.injEq, Prod.mk.injEq] at h
    exact .inl ⟨hz, h.2.symm, h.1.symm⟩
  · simp only [hz, if_false, Option.bind_eq_some_iff, Option.pure_def, Option.some.injEq,
      Prod.mk.injEq] at h
    obtain ⟨⟨t, i⟩, hadd, _, -, rfl, rfl⟩ := h
    exact .inr ⟨hz, rfl, t, i, hadd, rfl⟩

/-- A chunk comes from the storage, and nothing is written. -/
theorem mallocFromStorage_cases {s' : Pool} {p : Nat} (h : s.mallocFromStorage = some (s', p)) :
    ∃ st, s.storage.malloc = some (st, p) ∧ st.mem = s.storage.mem ∧
    s' = { s with storage := st } := by
  simp only [mallocFromStorage, Option.bind_eq_bind, Option.bind_eq_some_iff, Option.pure_def,
    Option.some.injEq, Prod.mk.injEq] at h
  obtain ⟨⟨st, q⟩, hm, rfl, rfl⟩ := h
  refine ⟨st, hm, ?_, rfl⟩
  simp only [Storage.malloc, Storage.set, Option.bind_eq_bind, Option.bind_eq_some_iff,
    Option.pure_def, Option.some.injEq] at hm
  obtain ⟨_, -, hst⟩ := hm
  rw [← (Prod.mk.inj hst).1]

/-- A chunk comes from the storage, if need be after a request that was not refused. -/
theorem mallocOne_cases {s' : Pool} {p : Nat} {ordered : Bool}
    (h : s.mallocOne ua ordered = some (s', p)) :
    (s.storage.empty = false ∧ s.mallocFromStorage = some (s', p)) ∨
      s.storage.empty = true ∧ ∃ t ok, s.requestNewBlock ua s.chunkSize ordered = some (t, ok) ∧
        (if ok then t.mallocFromStorage else some (t, 0)) = some (s', p) := by
  by_cases he : s.storage.empty = true
  · simp only [mallocOne, he, if_true, Option.bind_eq_bind, Option.bind_eq_some_iff] at h
    obtain ⟨⟨t, ok⟩, hreq, h⟩ := h
    exact .inr ⟨he, t, ok, hreq, h⟩
  · rw [mallocOne, if_neg he] at h
    exact .inl ⟨Bool.eq_false_iff.mpr he, h⟩

/-! ## Any operation that returns -/

/-- Objects and chunks have their sizes for good, and the next size stays a machine word. -/
structure SameSizes (s s' : Pool) : Prop where
  requested : s'.requestedSize = s.requestedSize
  chunk : s'.chunkSize = s.chunkSize
  next : s.nextSize < addressSpace → s'.nextSize < addressSpace

theorem SameSizes.refl (s : Pool) : SameSizes s s := ⟨rfl, rfl, id⟩

theorem SameSizes.trans {s s' s'' : Pool} (h : SameSizes s s') (h' : SameSizes s' s'') :
    SameSizes s s'' :=
  ⟨h'.requested.trans h.requested, h'.chunk.trans h.chunk, fun hs => h'.next (h.next hs)⟩

theorem requestNewBlock_sizes {s' : Pool} {ordered ok : Bool}
    (h : s.requestNewBlock ua minSize ordered = some (s', ok)) :
    SameSizes s s' := by
  obtain ⟨k, -, ⟨-, -, rfl⟩ | ⟨-, -, t, i, hadd, rfl⟩⟩ := requestNewBlock_cases h
  · exact ⟨rfl, rfl, fun _ => mod_addressSpace_lt _⟩
  · obtain ⟨st, rfl⟩ := addBlock_cases hadd
    exact ⟨rfl, rfl, fun _ => mod_addressSpace_lt _⟩

theorem mallocFromStorage_sizes {s' : Pool} {p : Nat} (h : s.mallocFromStorage = some (s', p)) :
    SameSizes s s' := by
  obtain ⟨st, -, -, rfl⟩ := mallocFromStorage_cases h
  exact ⟨rfl, rfl, id⟩

theorem mallocOne_sizes {s' : Pool} {p : Nat} {ordered : Bool}
    (h : s.mallocOne ua ordered = some (s', p)) : SameSizes s s' := by
  obtain ⟨-, hm⟩ | ⟨-, t, ok, hreq, hm⟩ := mallocOne_cases h
  · exact mallocFromStorage_sizes hm
  · have ht := requestNewBlock_sizes hreq
    cases ok with
    | false => exact (Prod.mk.inj (Option.some.inj hm)).1 ▸ ht
    | true => exact ht.trans (mallocFromStorage_sizes hm)

theorem orderedMallocN_sizes {s' : Pool} {n p : Nat} (h : s.orderedMallocN ua n = some (s', p)) :
    SameSizes s s' := by
  simp only [orderedMallocN, Option.bind_eq_bind, Option.bind_eq_some_iff] at h
  obtain ⟨_, -, count, -, ⟨st, q⟩, -, h⟩ := h
  by_cases hq : q = 0
  · simp only [hq, ne_eq, not_true_eq_false, if_false, Option.bind_eq_some_iff, Option.pure_def,
      Option.some.injEq, Prod.mk.injEq] at h
    obtain ⟨⟨s₁, ok⟩, hreq, ⟨st₁, q₁⟩, -, rfl, -⟩ := h
    obtain ⟨hrs, hcs, hns⟩ := requestNewBlock_sizes hreq
    exact ⟨hrs, hcs, hns⟩
  · simp only [ne_eq, hq, not_false_eq_true, if_true, Option.pure_def, Option.some.injEq,
      Prod.mk.injEq] at h
    obtain ⟨rfl, -⟩ := h
    exact ⟨rfl, rfl, id⟩

theorem run_sizes {op : Op} {s' : Pool} {p : Nat}
    (hword : ∀ n, op = .setNextSize n → n < addressSpace)
    (h : op.run s = some (s', p)) : SameSizes s s' := by
  cases op with
  | malloc ua => exact mallocOne_sizes h
  | orderedMalloc ua => exact mallocOne_sizes h
  | orderedMallocN ua n => exact orderedMallocN_sizes h
  | free q | orderedFree q =>
    simp only [Op.run, free, orderedFree, Option.bind_eq_bind, Option.map_eq_some_iff,
      Option.bind_eq_some_iff, Option.pure_def, Option.some.injEq, Prod.mk.injEq] at h
    obtain ⟨t, ⟨st, -, rfl⟩, rfl, -⟩ := h
    exact ⟨rfl, rfl, id⟩
  | orderedFreeN q n =>
    simp only [Op.run, orderedFreeN, Option.bind_eq_bind, Option.map_eq_some_iff,
      Option.bind_eq_some_iff, Option.pure_def, Option.some.injEq, Prod.mk.injEq] at h
    obtain ⟨t, ⟨count, -, st, -, rfl⟩, rfl, -⟩ := h
    exact ⟨rfl, rfl, id⟩
  | setNextSize n =>
    simp only [Op.run, setNextSize, Option.bind_eq_bind, Option.map_eq_some_iff,
      Option.bind_eq_some_iff, Option.pure_def, Option.some.injEq, Prod.mk.injEq] at h
    obtain ⟨t, ⟨_, -, rfl⟩, rfl, -⟩ := h
    exact ⟨rfl, rfl, fun _ => hword n rfl⟩
  | write a v =>
    obtain ⟨rfl, -⟩ := Prod.mk.inj (Option.some.inj h)
    exact ⟨rfl, rfl, id⟩

/-- `request_new_block`, if it returns. -/
theorem Inv.request_returned (h : Inv s live l) {s' : Pool} {ordered ok : Bool}
    (hsmall : s.Counts 1) (hmin : s.chunkSize ≤ minSize)
    (hfit : minSize + sizeofBlockInfo * 2 < addressSpace) (hoff : s.Offers ua minSize)
    (hrun : s.requestNewBlock ua minSize ordered = some (s', ok)) :
    (∃ l', Inv s' live l') ∧ (ok = true → s'.storage.empty = false) := by
  obtain ⟨k, hk, -⟩ := requestNewBlock_cases hrun
  obtain ⟨-, hr, hi⟩ | ⟨-, t, hr, hne, -, -, -, -, -, hi⟩ :=
    h.requestAt_spec ua ordered hsmall hmin hfit hk (hoff k hk)
  · obtain ⟨rfl, rfl⟩ := Prod.mk.inj (Option.some.inj (hr.symm.trans hrun))
    exact ⟨⟨l, hi⟩, by simp⟩
  · obtain ⟨rfl, rfl⟩ := Prod.mk.inj (Option.some.inj (hr.symm.trans hrun))
    exact ⟨⟨_, hi⟩, fun _ => hne⟩

theorem Inv.mallocFromStorage_returned (h : Inv s live l) {s' : Pool} {p : Nat}
    (he : s.storage.empty = false) (hrun : s.mallocFromStorage = some (s', p)) :
    ∃ l', Inv s' (if p = 0 then live else (p, 1) :: live) l' := by
  obtain ⟨st, q, l', hm, hq, hi⟩ := h.mallocFromStorage_spec he
  obtain ⟨rfl, rfl⟩ := Prod.mk.inj (Option.some.inj (hrun.symm.trans hm))
  exact ⟨l', by rwa [if_neg hq]⟩

theorem Inv.mallocOne_returned (h : Inv s live l) {s' : Pool} {p : Nat} {ordered : Bool}
    (hsmall : s.Counts 1) (hfit : s.chunkSize + sizeofBlockInfo * 2 < addressSpace)
    (hoff : s.storage.empty = true → s.Offers ua s.chunkSize)
    (hrun : s.mallocOne ua ordered = some (s', p)) :
    ∃ l', Inv s' (if p = 0 then live else (p, 1) :: live) l' := by
  obtain ⟨he, hm⟩ | ⟨he, t, ok, hreq, hm⟩ := mallocOne_cases hrun
  · exact h.mallocFromStorage_returned he hm
  · obtain ⟨⟨l₁, hi⟩, hok⟩ := h.request_returned hsmall (Nat.le_refl _) hfit (hoff he) hreq
    cases ok with
    | false =>
      obtain ⟨rfl, rfl⟩ := Prod.mk.inj (Option.some.inj hm)
      exact ⟨l₁, hi⟩
    | true => exact hi.mallocFromStorage_returned (hok rfl) hm

/-- The chunks of an array of a size, with the bookkeeping of a block, have a size. -/
theorem Sized.chunks_fit {n : Nat} (h : s.Sized n) (hc : 0 < s.chunkSize) :
    s.countOf n * s.chunkSize + sizeofBlockInfo * 2 < addressSpace := by
  have hb := (countOf_bounds (s := s) (n := n) hc).2
  have := h.2
  omega

theorem Inv.orderedMallocN_returned (h : Inv s live l) {s' : Pool} {n p : Nat} (hsmall : s.Sized 1)
    (hn : s.Sized n) (hoff : ∀ st, s.storage.mallocN (s.countOf n) s.chunkSize = some (st, 0) →
      s.Offers ua (s.countOf n * s.chunkSize))
    (hrun : s.orderedMallocN ua n = some (s', p)) :
    ∃ l', Inv s' (if p = 0 then live else (p, n) :: live) l' := by
  have hpos := h.chunkSize_pos
  have hfit := hn.chunks_fit hpos
  simp only [orderedMallocN, chunkCount_eq hpos hn.counts.2, Option.bind_eq_bind,
    Option.bind_eq_some_iff, Option.bind_some] at hrun
  obtain ⟨_, -, ⟨st, q⟩, hm, hrun⟩ := hrun
  obtain ⟨st', q', l₁, hm', -, hi⟩ := h.mallocN_spec hn.counts
  obtain ⟨rfl, rfl⟩ := Prod.mk.inj (Option.some.inj (hm.symm.trans hm'))
  by_cases hq : q = 0
  · subst hq
    have hmod : s.countOf n * s.chunkSize % addressSpace = s.countOf n * s.chunkSize :=
      Nat.mod_eq_of_lt (by omega)
    simp only [ne_eq, not_true_eq_false, if_false, hmod, Option.bind_eq_some_iff, Option.pure_def,
      Option.some.injEq, Prod.mk.injEq] at hrun
    obtain ⟨⟨s₁, ok⟩, hreq, ⟨st₂, q₂⟩, hm₂, rfl, rfl⟩ := hrun
    obtain ⟨hrs, hcs, -⟩ := requestNewBlock_sizes hreq
    dsimp only at hrs hcs
    obtain ⟨⟨l₂, hi₂⟩, -⟩ :=
      hi.request_returned hsmall.counts
        (Nat.le_mul_of_pos_left _ (countOf_pos hn.1 h.sizes.1 hpos)) hfit (hoff st hm) hreq
    have hcnt : s₁.countOf n = s.countOf n := by simp only [countOf, hrs, hcs]
    have hn₁ : s₁.Counts n := by
      have := hn.counts
      simpa only [Counts, hrs, hcs] using this
    obtain ⟨st₃, q₃, l', hm₃, -, hi'⟩ := hi₂.mallocN_spec hn₁
    rw [hcnt] at hm₃
    obtain ⟨rfl, rfl⟩ := Prod.mk.inj (Option.some.inj (hm₂.symm.trans hm₃))
    exact ⟨l', hi'⟩
  · simp only [ne_eq, hq, not_false_eq_true, if_true, Option.pure_def, Option.some.injEq,
      Prod.mk.injEq] at hrun
    obtain ⟨rfl, rfl⟩ := hrun
    exact ⟨l₁, hi⟩

theorem exec_eq_some {w w' : World} {op : Op} {q : Nat} (h : w.exec op = some (w', q)) :
    op.run w.pool = some (w'.pool, q) ∧ w'.live = op.liveAfter q w.live := by
  simp only [World.exec, Option.bind_eq_bind, Option.bind_eq_some_iff, Option.pure_def,
    Option.some.injEq, Prod.mk.injEq] at h
  obtain ⟨⟨t, q'⟩, hr, rfl, rfl⟩ := h
  exact ⟨hr, rfl⟩

/-- A move keeps the invariant. -/
theorem Inv.move {w w' : World} {op : Op} (h : Inv w.pool w.live l) (hsmall : w.pool.Sized 1)
    (hm : Move w op w') :
    ∃ l', Inv w'.pool w'.live l' := by
  obtain ⟨hp, q, hexec⟩ := hm
  obtain ⟨hrun, hlive⟩ := exec_eq_some hexec
  have hallowed : op.Allowed w → ∃ l', Inv w'.pool w'.live l' := by
    intro ha
    obtain ⟨w'', q', l', hexec', hi⟩ := h.exec_spec ha
    obtain ⟨rfl, -⟩ := Prod.mk.inj (Option.some.inj (hexec.symm.trans hexec'))
    exact ⟨l', hi⟩
  rw [hlive] at hallowed ⊢
  cases op with
  | malloc ua | orderedMalloc ua =>
    have hfit : w.pool.chunkSize + sizeofBlockInfo * 2 < addressSpace := by
      have hle := hsmall.2
      have hr := h.sizes.1
      omega
    exact h.mallocOne_returned hsmall.counts hfit hp hrun
  | orderedMallocN ua n => exact h.orderedMallocN_returned hsmall hp.1 hp.2 hrun
  | setNextSize n => exact hallowed hp.1
  | free q | orderedFree q => exact hallowed hp
  | orderedFreeN q n => exact hallowed hp
  | write a v => exact hallowed hp

theorem SameSizes.sized {s' : Pool} {n : Nat} (h : SameSizes s s') : s'.Sized n ↔ s.Sized n := by
  rw [Sized, Sized, h.requested, h.chunk]

theorem Move.sizes {w w' : World} {op : Op} (h : Move w op w') : SameSizes w.pool w'.pool := by
  obtain ⟨hp, q, hexec⟩ := h
  refine run_sizes ?_ (exec_eq_some hexec).1
  rintro n rfl
  exact hp.2

/-- Objects and chunks keep their sizes. -/
theorem sizes_moves {w w' : World} {ops : List Op} (h : Run Move w ops w') :
    SameSizes w.pool w'.pool := by
  refine h.invariant (I := fun t => SameSizes w.pool t.pool) (.refl _) ?_
  intro t op u hs hm
  exact hs.trans hm.sizes

/-- The invariant holds in every state that a pool can come to, when one object has a size. -/
theorem inv_moves {requestedSize : Nat} {m : Mem} {w : World} {ops : List Op}
    (h0 : new requestedSize m = some s) (h : Run Move ⟨s, []⟩ ops w)
    (hone : w.pool.Sized 1) : ∃ l, Inv w.pool w.live l := by
  have hsized : s.Sized 1 := (sizes_moves h).sized.mp hone
  suffices (∃ l, Inv w.pool w.live l) ∧ SameSizes s w.pool from this.1
  refine h.invariant (I := fun w => (∃ l, Inv w.pool w.live l) ∧ SameSizes s w.pool)
    ⟨⟨[], inv_new h0⟩, .refl _⟩ ?_
  intro t op u ⟨⟨l, hl⟩, hs⟩ hm
  exact ⟨hl.move (hs.sized.mpr hsized) hm, hs.trans hm.sizes⟩

/-- Chunks are whole words. -/
theorem chunkSize_dvd {requestedSize : Nat} {m : Mem} (h0 : new requestedSize m = some s) :
    8 ∣ s.chunkSize := by
  obtain ⟨-, rfl⟩ := new_eq_some h0
  exact Nat.dvd_trans (by decide) (Nat.dvd_lcm_right _ _)

/-- A new pool of objects of 8 bytes. -/
def fresh8 : Pool := ⟨8, 8, 32, ⟨0, 0⟩, ⟨fun _ => 0, 0⟩, []⟩

/-- A new pool of objects of 32 bytes. -/
def fresh32 : Pool := ⟨32, 32, 32, ⟨0, 0⟩, ⟨fun _ => 0, 0⟩, []⟩

/-- It asks for a block of 32 objects, for up to 31 of them. -/
theorem fresh32_asksAt {n : Nat} (hn : n ≤ 31) : fresh32.AsksAt (n * 32) 0 := by
  refine ⟨?_, by simp⟩
  rw [target_eq (by unfold sizeofBlockInfo addressSpace; omega)]
  show n * 32 + 32 ≤ 1024
  omega

end

end Gpcl.Pool
