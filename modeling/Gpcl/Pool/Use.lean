import Mathlib.Data.List.Pairwise
import Gpcl.Pool.Basic
import Gpcl.Storage.Use

/-! # A pool in use

A `World` is a pool and what its clients hold: pointers with the number of objects
they asked for. The pool's storage, seen with the chunk areas of the obtained blocks
and the chunks behind each allocation, is a storage in use, so every method is a few
operations of `Storage.Op`. What the pool adds is the chain of trailers: it lies
outside the chunk areas, and no operation of the storage and no client reaches it. -/
namespace Gpcl.Pool
open Lib.Memory Lib.Chain Lib.Runs

/-- The part of a block that is cut into chunks. -/
def chunkArea (r : Region) : Region := ⟨r.base, blockInfoOffset r.size⟩

/-- The bytes of a block that hold the entry behind it in the chain. -/
def trailer (r : Region) : Region := ⟨r.base + blockInfoOffset r.size, sizeofBlockInfo⟩

def info (r : Region) : BlockInfo := ⟨r.base, r.size⟩

/-- The chunks of an array of `n` objects. -/
def countOf (s : Pool) (n : Nat) : Nat := (n * s.requestedSize + s.chunkSize - 1) / s.chunkSize

/-- The number of objects of an allocation and the number of its chunks do not wrap. -/
def Counts (s : Pool) (n : Nat) : Prop := 0 < n ∧ n * s.requestedSize + s.chunkSize ≤ addressSpace

structure World where
  pool : Pool
  live : List (Nat × Nat)

inductive Op
  | malloc (ua : Nat → Nat)
  | orderedMalloc (ua : Nat → Nat)
  | orderedMallocN (ua : Nat → Nat) (n : Nat)
  | free (p : Nat)
  | orderedFree (p : Nat)
  | orderedFreeN (p n : Nat)
  | setNextSize (n : Nat)
  | write (a : Nat) (v : UInt8)

/-- The user allocator can be asked for `minSize` bytes of chunks: the size computation does
not wrap, and the answer is null or a block of the address space apart from those it gave before. -/
def Grants (s : Pool) (ua : Nat → Nat) (minSize : Nat) : Prop :=
  (∃ k, minSize + sizeofBlockInfo * 2 ≤ s.nextSize * s.chunkSize * 2 ^ k ∧
    s.nextSize * s.chunkSize * 2 ^ k < addressSpace) ∧
  ∀ sz, growSize (minSize + sizeofBlockInfo * 2) (s.nextSize * s.chunkSize) = some sz → ua sz ≠ 0 →
    ua sz + sz < addressSpace ∧ ∀ r ∈ s.obtained, Region.Disjoint ⟨ua sz, sz⟩ r

/-- A free matches an allocation, a client writes to the objects it holds, and whenever the
user allocator is asked it can be asked. -/
def Op.Allowed (w : World) : Op → Prop
  | .malloc ua | .orderedMalloc ua =>
    w.pool.storage.empty = true → w.pool.Grants ua w.pool.chunkSize
  | .orderedMallocN ua n => w.pool.Counts n ∧
    ∀ st, w.pool.storage.mallocN (w.pool.countOf n) w.pool.chunkSize = some (st, 0) →
      w.pool.Grants ua (w.pool.countOf n * w.pool.chunkSize)
  | .free p | .orderedFree p => (p, 1) ∈ w.live
  | .orderedFreeN p n => (p, n) ∈ w.live
  | .setNextSize n => n ≠ 0
  | .write a _ => ∃ g ∈ w.live, Region.Contains ⟨g.1, g.2 * w.pool.requestedSize⟩ a

def Op.run (s : Pool) : Op → Option (Pool × Nat)
  | .malloc ua => s.malloc ua
  | .orderedMalloc ua => s.orderedMalloc ua
  | .orderedMallocN ua n => s.orderedMallocN ua n
  | .free p => (s.free p).map (·, 0)
  | .orderedFree p => (s.orderedFree p).map (·, 0)
  | .orderedFreeN p n => (s.orderedFreeN p n).map (·, 0)
  | .setNextSize n => (s.setNextSize n).map (·, 0)
  | .write a v => some ({ s with storage.mem := Function.update s.storage.mem a v }, 0)

/-- The allocations held after an operation that returned `p`. -/
def Op.liveAfter : Op → Nat → List (Nat × Nat) → List (Nat × Nat)
  | .malloc _, p, live | .orderedMalloc _, p, live => if p = 0 then live else (p, 1) :: live
  | .orderedMallocN _ n, p, live => if p = 0 then live else (p, n) :: live
  | .free p, _, live | .orderedFree p, _, live => live.erase (p, 1)
  | .orderedFreeN p n, _, live => live.erase (p, n)
  | .setNextSize _, _, live | .write _ _, _, live => live

def World.exec (w : World) (op : Op) : Option (World × Nat) := do
  let (s, p) ← op.run w.pool
  pure (⟨s, op.liveAfter p w.live⟩, p)

/-- An allowed operation that returns. -/
def Step (w : World) (op : Op) (w' : World) : Prop :=
  op.Allowed w ∧ ∃ p, w.exec op = some (w', p)

/-- The storage of a pool, with its chunk areas and the chunks of each allocation. -/
def view (s : Pool) (live : List (Nat × Nat)) : Storage.World :=
  ⟨s.storage, s.obtained.map chunkArea, live.map fun g => (g.1, s.countOf g.2)⟩

/-- Blocks of the address space that hold a trailer and do not overlap. -/
structure Blocks (bs : List Region) : Prop where
  placed : ∀ r ∈ bs, 0 < r.base ∧ r.stop < addressSpace ∧ sizeofBlockInfo ≤ r.size
  apart : bs.Pairwise Region.Disjoint

/-- The chunks that the chunk area of a block is cut into. -/
def carved (s : Pool) (r : Region) : List Nat :=
  Storage.chunks s.chunkSize r.base (Storage.segCount (blockInfoOffset r.size) s.chunkSize)

structure Inv (s : Pool) (live : List (Nat × Nat)) (l : List Nat) : Prop where
  storage : Storage.Inv s.chunkSize (s.view live) l
  sizes : 0 < s.requestedSize ∧ s.requestedSize ≤ s.chunkSize ∧ wordSize ≤ s.chunkSize
  counts : ∀ g ∈ live, s.Counts g.2
  chain : Path (nextInfo s.storage.mem) ⟨0, 0⟩ s.blockList (s.obtained.map info) ⟨0, 0⟩
  blocks : Blocks s.obtained
  small : s.obtained ≠ [] → s.Counts 1
  roomy : ∀ r ∈ s.obtained, s.chunkSize ≤ blockInfoOffset r.size
  cut : ∀ c ∈ l ++ Storage.held s.chunkSize (s.view live).live, ∃ r ∈ s.obtained, c ∈ s.carved r

/-! ## Sizes -/

/-- The offset leaves room for the trailer, and for less than a word of padding behind it. -/
theorem blockInfoOffset_bounds {sz : Nat} (h : sizeofBlockInfo ≤ sz) (hs : sz < addressSpace) :
    blockInfoOffset sz + sizeofBlockInfo ≤ sz ∧
    sz < blockInfoOffset sz + sizeofBlockInfo + wordSize := by
  unfold blockInfoOffset sizeofBlockInfo alignofBlockInfo wordSize addressSpace at *
  omega

theorem size_lt {r : Region} (hs : r.stop < addressSpace) : r.size < addressSpace :=
  Nat.lt_of_le_of_lt (Nat.le_add_left _ _) hs

theorem chunkArea_inside {r : Region} (h : sizeofBlockInfo ≤ r.size) (hs : r.stop < addressSpace) :
    (chunkArea r).Inside r := by
  have hb := (blockInfoOffset_bounds h (size_lt hs)).1
  exact ⟨Nat.le_refl _, Nat.add_le_add_left (Nat.le_of_add_right_le hb) _⟩

theorem trailer_inside {r : Region} (h : sizeofBlockInfo ≤ r.size) (hs : r.stop < addressSpace) :
    (trailer r).Inside r := by
  have hb := (blockInfoOffset_bounds h (size_lt hs)).1
  refine ⟨Nat.le_add_right _ _, ?_⟩
  rw [Region.stop, trailer, Nat.add_assoc]
  exact Nat.add_le_add_left hb _

theorem trailer_disjoint_chunkArea (r : Region) : (trailer r).Disjoint (chunkArea r) := by
  unfold Region.Disjoint Region.stop trailer chunkArea
  exact Or.inr (Nat.le_refl _)

section
variable {s : Pool} {live : List (Nat × Nat)} {l : List Nat}

/-- The chunks of an array cover it with less than a chunk to spare. -/
theorem countOf_bounds {n : Nat} (hc : 0 < s.chunkSize) :
    n * s.requestedSize ≤ s.countOf n * s.chunkSize ∧
      s.countOf n * s.chunkSize < n * s.requestedSize + s.chunkSize := by
  have hm := Nat.div_add_mod (n * s.requestedSize + s.chunkSize - 1) s.chunkSize
  have hl := Nat.mod_lt (n * s.requestedSize + s.chunkSize - 1) hc
  rw [Nat.mul_comm] at hm
  unfold countOf
  omega

theorem countOf_pos {n : Nat} (hn : 0 < n) (hr : 0 < s.requestedSize) (hc : 0 < s.chunkSize) :
    0 < s.countOf n := by
  have hb := (countOf_bounds (s := s) (n := n) hc).1
  have hp := Nat.mul_pos hn hr
  refine Nat.pos_of_ne_zero fun h0 => ?_
  rw [h0, Nat.zero_mul] at hb
  omega

theorem countOf_one (hr : 0 < s.requestedSize) (hc : s.requestedSize ≤ s.chunkSize) :
    s.countOf 1 = 1 := by
  have hpos := countOf_pos (n := 1) Nat.one_pos hr (by omega : 0 < s.chunkSize)
  have hb := (countOf_bounds (s := s) (n := 1) (by omega)).2
  have h2 : s.countOf 1 * s.chunkSize < 2 * s.chunkSize := by omega
  have := Nat.lt_of_mul_lt_mul_right h2
  omega

/-- `chunk_count(n)` when nothing wraps. -/
theorem chunkCount_eq {n : Nat} (hc : 0 < s.chunkSize)
    (h : n * s.requestedSize + s.chunkSize ≤ addressSpace) :
    s.chunkCount n = some (s.countOf n) := by
  have hb := countOf_bounds (s := s) (n := n) hc
  have hsum : addressSpace - 1 + (n * s.requestedSize + s.chunkSize) =
      n * s.requestedSize + s.chunkSize - 1 + addressSpace := by omega
  have hret :
      (addressSpace - 1 + (n * s.requestedSize % addressSpace + s.chunkSize)) % addressSpace /
      s.chunkSize = s.countOf n := by
    rw [Nat.mod_eq_of_lt (by omega : n * s.requestedSize < addressSpace), hsum, Nat.add_mod_right,
      Nat.mod_eq_of_lt (by omega)]
    rfl
  have hge : s.countOf n * s.chunkSize % addressSpace ≥ n * s.requestedSize % addressSpace := by
    rw [Nat.mod_eq_of_lt (by omega), Nat.mod_eq_of_lt (by omega)]
    exact hb.1
  simp only [chunkCount, hret]
  simp [guard, hge]

/-- The sizing loop doubles until the target is reached. -/
theorem growSize_spec {target : Nat} :
    ∀ (k sz : Nat), target ≤ sz * 2 ^ k → sz * 2 ^ k < addressSpace →
    ∃ j, growSize target sz = some (sz * 2 ^ j) ∧ target ≤ sz * 2 ^ j ∧ sz * 2 ^ j < addressSpace
  | 0, sz, ht, hs => by
    refine ⟨0, ?_, ht, hs⟩
    rw [Nat.pow_zero, Nat.mul_one] at *
    rw [growSize, if_neg (by omega)]
  | k + 1, sz, ht, hs => by
    have he : sz * 2 * 2 ^ k = sz * 2 ^ (k + 1) := by
      rw [Nat.pow_succ, Nat.mul_assoc, Nat.mul_comm 2]
    have hle : sz * 2 ≤ sz * 2 * 2 ^ k := Nat.le_mul_of_pos_right _ (Nat.two_pow_pos k)
    by_cases hlt : sz < target
    · rw [growSize, if_pos hlt, Nat.mod_eq_of_lt (by omega)]
      obtain ⟨j, hj, htj, hsj⟩ := @growSize_spec target k (sz * 2) (by omega) (by omega)
      have hj' : sz * 2 * 2 ^ j = sz * 2 ^ (j + 1) := by
        rw [Nat.pow_succ, Nat.mul_assoc, Nat.mul_comm 2]
      rw [hj'] at hj htj hsj
      exact ⟨j + 1, hj, htj, hsj⟩
    · refine ⟨0, ?_, ?_⟩
      · rw [growSize, if_neg hlt, Nat.pow_zero, Nat.mul_one]
      · rw [Nat.pow_zero, Nat.mul_one]; omega

/-- The sizing loop stops at the target or beyond, and keeps to the multiples of a power of two. -/
theorem growSize_some {target sz r : Nat} (h : growSize target sz = some r) :
    target ≤ r ∧ (sz < addressSpace → r < addressSpace) ∧ ∀ d, d ∣ addressSpace → d ∣ sz →
    d ∣ r := by
  refine growSize.partial_correctness target
    (fun sz r => target ≤ r ∧ (sz < addressSpace → r < addressSpace) ∧
    ∀ d, d ∣ addressSpace → d ∣ sz → d ∣ r) ?_ sz r h
  intro f ih sz r hr
  split at hr
  · obtain ⟨htarget, hlt, hdvd⟩ := ih _ _ hr
    refine ⟨htarget, fun _ => hlt (mod_addressSpace_lt _), ?_⟩
    intro d hd hsz
    exact hdvd d hd ((Nat.dvd_mod_iff hd).mpr (Nat.dvd_mul_right_of_dvd hsz 2))
  · obtain rfl := Option.some.inj hr
    exact ⟨by omega, id, fun d _ hsz => hsz⟩

/-! ## The chain of trailers -/

/-- The chunk areas end before the trailers, in one block and across blocks. -/
theorem Blocks.trailer_apart {bs : List Region} (h : Blocks bs) {r r' : Region} (hr : r ∈ bs)
    (hr' : r' ∈ bs) : (trailer r).Disjoint (chunkArea r') := by
  by_cases he : r = r'
  · rw [he]; exact trailer_disjoint_chunkArea r'
  · have : Std.Symm Region.Disjoint := ⟨fun _ _ => Region.Disjoint.symm⟩
    obtain ⟨-, hs, hz⟩ := h.placed r hr
    obtain ⟨-, hs', hz'⟩ := h.placed r' hr'
    exact (h.apart.forall hr hr' he).mono (trailer_inside hz hs) (chunkArea_inside hz' hs')

/-- A trailer that meets none of the changed regions keeps its entry. -/
theorem nextInfo_outside {m m' : Mem} {rs : List Region} {r : Region} (ho : Outside rs m m')
    (hd : ∀ a ∈ rs, (trailer r).Disjoint a) : nextInfo m' (info r) = nextInfo m (info r) := by
  have hp := ho.loadWord (a := r.base + blockInfoOffset r.size) fun a ha =>
    (hd a ha).mono ⟨Nat.le_refl _,
      Nat.add_le_add_left (show wordSize ≤ sizeofBlockInfo by decide) _⟩ (.refl a)
  have hs := ho.loadWord (a := r.base + blockInfoOffset r.size + wordSize) fun a ha =>
    (hd a ha).mono ⟨Nat.le_add_right _ _, Nat.le_of_eq (Nat.add_assoc _ _ _)⟩ (.refl a)
  rw [nextInfo, nextInfo, loadInfo, loadInfo]
  simp only [info, hp, hs]

theorem chain_outside {m m' : Mem} {rs bs : List Region} {b : BlockInfo}
    (h : Path (nextInfo m) ⟨0, 0⟩ b (bs.map info) ⟨0, 0⟩) (ho : Outside rs m m')
    (hd : ∀ r ∈ bs, ∀ a ∈ rs, (trailer r).Disjoint a) :
    Path (nextInfo m') ⟨0, 0⟩ b (bs.map info) ⟨0, 0⟩ := by
  refine h.congr fun c hc => ?_
  obtain ⟨r, hr, rfl⟩ := List.mem_map.mp hc
  exact nextInfo_outside ho (hd r hr)

theorem outside_storeInfo (m : Mem) (r : Region) (b : BlockInfo) :
    Outside [trailer r] m (storeInfo m (r.base + blockInfoOffset r.size) b) := by
  refine Outside.trans (Outside.storeWord ⟨_, List.mem_singleton_self _, ?_⟩)
    (Outside.storeWord ⟨_, List.mem_singleton_self _, ?_⟩)
  · exact ⟨Nat.le_refl _, Nat.add_le_add_left (show wordSize ≤ sizeofBlockInfo by decide) _⟩
  · exact ⟨Nat.le_add_right _ _, Nat.le_of_eq (Nat.add_assoc _ _ _)⟩

theorem nextInfo_storeInfo (m : Mem) (r : Region) {b : BlockInfo} (hp : b.ptr < addressSpace)
    (hs : b.size < addressSpace) :
    nextInfo (storeInfo m (r.base + blockInfoOffset r.size) b) (info r) = b := by
  have h1 := loadWord_storeWord_apart (m := storeWord m (r.base + blockInfoOffset r.size) b.ptr)
    (b := r.base + blockInfoOffset r.size) (v := b.size) (Or.inl (Nat.le_refl _))
  simp only [nextInfo, loadInfo, storeInfo, info, h1, loadWord_storeWord _ _ hp,
    loadWord_storeWord _ _ hs]

/-- The entry at the head of the chain is a pair of machine words. -/
theorem Inv.blockList_lt (h : Inv s live l) :
    s.blockList.ptr < addressSpace ∧ s.blockList.size < addressSpace := by
  have hc := h.chain
  generalize hbs : s.obtained = bs at hc
  cases bs with
  | nil => rw [show s.blockList = ⟨0, 0⟩ from hc]; decide
  | cons r bs =>
    obtain ⟨-, hs, -⟩ := h.blocks.placed r (by simp [hbs])
    rw [show s.blockList = info r from hc.1]
    exact ⟨Nat.lt_of_le_of_lt (Nat.le_add_right _ _) hs, size_lt hs⟩

/-! ## Methods -/

/-- The chunk areas lie in the blocks. -/
theorem Blocks.outside {bs : List Region} (h : Blocks bs) {m m' : Mem}
    (ho : Outside (bs.map chunkArea) m m') : Outside bs m m' := by
  refine ho.mono fun a ha => ?_
  obtain ⟨r, hr, rfl⟩ := List.mem_map.mp ha
  obtain ⟨-, hs, hz⟩ := h.placed r hr
  exact ⟨r, hr, chunkArea_inside hz hs⟩

/-- Memory outside the blocks is no concern of the pool. -/
theorem Inv.frame (h : Inv s live l) {m : Mem} {rs : List Region} (ho : Outside rs s.storage.mem m)
    (hd : ∀ a ∈ rs, ∀ r ∈ s.obtained, a.Disjoint r) : Inv { s with storage.mem := m } live l := by
  have harea : ∀ a ∈ rs, ∀ b ∈ s.obtained.map chunkArea, a.Disjoint b := by
    intro a ha b hb
    obtain ⟨r, hr, rfl⟩ := List.mem_map.mp hb
    obtain ⟨-, hs, hz⟩ := h.blocks.placed r hr
    exact (hd a ha r hr).mono (.refl a) (chunkArea_inside hz hs)
  refine ⟨h.storage.frame h.sizes.2.2 ho harea, h.sizes, h.counts, ?_, h.blocks, h.small, h.roomy,
    h.cut⟩
  refine chain_outside h.chain ho fun r hr a ha => ?_
  obtain ⟨-, hs, hz⟩ := h.blocks.placed r hr
  exact ((hd a ha r hr).mono (.refl a) (trailer_inside hz hs)).symm

/-- The order of the allocations does not matter. -/
theorem Inv.perm_live (h : Inv s live l) {live' : List (Nat × Nat)} (hp : live.Perm live') :
    Inv s live' l := by
  refine ⟨h.storage.perm_live (hp.map _), h.sizes, fun g hg => h.counts g (hp.mem_iff.mpr hg),
    h.chain, h.blocks, h.small, h.roomy, ?_⟩
  intro c hc
  exact h.cut c ((((hp.map _).flatMap_right _).append_left l).mem_iff.mpr hc)

theorem Inv.chunkSize_pos (h : Inv s live l) : 0 < s.chunkSize :=
  Nat.lt_of_lt_of_le h.sizes.1 h.sizes.2.1

/-- An operation of the storage that brings no block keeps the invariant of the pool. -/
theorem Inv.storageOp (h : Inv s live l) (op : Storage.Op)
    (ha : op.Allowed s.chunkSize (s.view live)) (hb : ∀ bs, op.blocksAfter bs = bs) :
    ∃ st p l', op.run s.chunkSize s.storage = some (st, p) ∧ Storage.Effect s.chunkSize op p l l' ∧
      Outside s.obtained s.storage.mem st.mem ∧
      ∀ live', (op.liveAfter p (s.view live).live).Perm (live'.map fun g => (g.1, s.countOf g.2)) →
        (∀ g ∈ live', s.Counts g.2) → Inv { s with storage := st } live' l' := by
  obtain ⟨st, p, l', hrun, he, hi, ho⟩ := h.storage.op_spec h.sizes.2.2 ha
  rw [hb] at hi ho
  refine ⟨st, p, l', hrun, he, h.blocks.outside ho, fun live' hp hc => ?_⟩
  refine ⟨hi.perm_live hp, h.sizes, hc, ?_, h.blocks, h.small, h.roomy, ?_⟩
  · refine chain_outside h.chain ho fun r hr a ha' => ?_
    obtain ⟨r', hr', rfl⟩ := List.mem_map.mp ha'
    exact h.blocks.trailer_apart hr hr'
  · intro c hc'
    have hold := (h.storage.subperm_step h.chunkSize_pos ha hb he).subset
    exact h.cut c (hold (((hp.flatMap_right _).append_left l').mem_iff.mpr hc'))

/-- A pool that has a chunk has a block, and so one object has a size. -/
theorem Inv.counts_one (h : Inv s live l) {c : Nat} (hc : c ∈ l) : s.Counts 1 := by
  obtain ⟨a, ha, -⟩ := h.storage.laid.inside c (List.mem_append_left _ hc)
  obtain ⟨r, hr, -⟩ := List.mem_map.mp ha
  exact h.small (List.ne_nil_of_mem hr)

theorem Inv.mallocFromStorage_spec (h : Inv s live l) (he : s.storage.empty = false) :
    ∃ st p l', s.mallocFromStorage = some ({ s with storage := st }, p) ∧ p ≠ 0 ∧
      Inv { s with storage := st } ((p, 1) :: live) l' := by
  obtain ⟨st, p, l', hrun, heff, -, hinv⟩ := h.storageOp .malloc he fun _ => rfl
  have hrun' : s.storage.malloc = some (st, p) := hrun
  refine ⟨st, p, l', by simp [mallocFromStorage, hrun'], ?_⟩
  cases heff with
  | malloc =>
    have hmem : p ∈ p :: l' := List.mem_cons_self
    refine ⟨Nat.ne_of_gt (h.storage.chunk_placed (List.mem_append_left _ hmem)).1, ?_⟩
    refine hinv _ ?_ fun g hg => ?_
    · rw [List.map_cons, countOf_one h.sizes.1 h.sizes.2.1]
      exact List.Perm.refl _
    · rcases List.mem_cons.mp hg with rfl | hg
      · exact h.counts_one hmem
      · exact h.counts g hg

/-- `malloc_n` for an array of `n` objects. -/
theorem Inv.mallocN_spec (h : Inv s live l) {n : Nat} (hn : s.Counts n) :
    ∃ st p l', s.storage.mallocN (s.countOf n) s.chunkSize = some (st, p) ∧
    Outside s.obtained s.storage.mem st.mem ∧
      Inv { s with storage := st } (if p = 0 then live else (p, n) :: live) l' := by
  have hlt : s.countOf n < addressSpace := by
    have hb := (countOf_bounds (s := s) (n := n) h.chunkSize_pos).2
    have hle := Nat.le_mul_of_pos_right (s.countOf n) h.chunkSize_pos
    have := hn.2
    omega
  obtain ⟨st, p, l', hrun, -, ho, hinv⟩ := h.storageOp (.mallocN (s.countOf n)) hlt fun _ => rfl
  refine ⟨st, p, l', hrun, ho, hinv _ ?_ fun g hg => ?_⟩
  · by_cases hp : p = 0
    · rw [if_pos hp, Storage.Op.liveAfter, if_pos hp]
      exact List.Perm.refl _
    · rw [if_neg hp, Storage.Op.liveAfter, if_neg hp]
      exact List.Perm.refl _
  · by_cases hp : p = 0
    · exact h.counts g (by simpa [hp] using hg)
    · rw [if_neg hp] at hg
      rcases List.mem_cons.mp hg with rfl | hg
      · exact hn
      · exact h.counts g hg

theorem map_erase_perm {live : List (Nat × Nat)} {g : Nat × Nat} (hg : g ∈ live)
    (f : Nat × Nat → Nat × Nat) : ((live.map f).erase (f g)).Perm ((live.erase g).map f) := by
  have hp := (List.perm_cons_erase hg).map f
  rw [List.map_cons] at hp
  have := hp.erase (f g)
  rwa [List.erase_cons_head] at this

/-- Giving an allocation back to the storage. -/
theorem Inv.free_spec (h : Inv s live l) (op : Storage.Op) {p n : Nat} (hg : (p, n) ∈ live)
    (ha : (p, s.countOf n) ∈ (s.view live).live → op.Allowed s.chunkSize (s.view live))
    (hb : ∀ bs, op.blocksAfter bs = bs)
    (hl : ∀ q, op.liveAfter q (s.view live).live = (s.view live).live.erase (p, s.countOf n)) :
    ∃ st q l', op.run s.chunkSize s.storage = some (st, q) ∧
    Outside s.obtained s.storage.mem st.mem ∧
      Inv { s with storage := st } (live.erase (p, n)) l' := by
  obtain ⟨st, q, l', hrun, -, ho, hinv⟩ := h.storageOp op (ha (List.mem_map_of_mem hg)) hb
  refine ⟨st, q, l', hrun, ho, hinv _ ?_ fun g hg' => h.counts g (List.mem_of_mem_erase hg')⟩
  rw [hl]
  exact map_erase_perm hg _

/-- The free list with new chunks from `b` on, in front or in order. -/
def added (ordered : Bool) (b : Nat) (cs l : List Nat) : List Nat :=
  if ordered then Storage.orderedInsert b cs l else cs ++ l

theorem added_perm (ordered : Bool) (b : Nat) (cs l : List Nat) :
    (added ordered b cs l).Perm (cs ++ l) := by
  cases ordered with
  | false => exact List.Perm.refl _
  | true => exact Storage.orderedInsert_perm b cs l

/-- The chunk area of a new block is added to the storage, in front or in order. -/
theorem Inv.addChunks_spec (h : Inv s live l) {r : Region} (ordered : Bool) (hpos : 0 < r.base)
    (hc : s.chunkSize ≤ blockInfoOffset r.size) (hstop : (chunkArea r).stop < addressSpace)
    (hd : ∀ r' ∈ s.obtained, (chunkArea r).Disjoint (chunkArea r')) :
    ∃ st, (if ordered then s.storage.addOrderedBlock r.base (blockInfoOffset r.size) s.chunkSize
        else s.storage.addBlock r.base (blockInfoOffset r.size) s.chunkSize) = some st ∧
      Storage.Inv s.chunkSize ⟨st, chunkArea r :: (s.view live).blocks, (s.view live).live⟩
        (added ordered r.base (s.carved r) l) ∧
      Outside (chunkArea r :: (s.view live).blocks) s.storage.mem st.mem := by
  have hallow : 0 < r.base ∧ s.chunkSize ≤ blockInfoOffset r.size ∧
    r.base + blockInfoOffset r.size < addressSpace ∧
      ∀ a ∈ (s.view live).blocks, (chunkArea r).Disjoint a := by
    refine ⟨hpos, hc, hstop, fun a ha => ?_⟩
    obtain ⟨r', hr', rfl⟩ := List.mem_map.mp ha
    exact hd r' hr'
  cases ordered with
  | false =>
    obtain ⟨st, p, l', hrun, heff, hi, ho⟩ :=
      h.storage.op_spec h.sizes.2.2
        (show Storage.Op.Allowed _ _ (.addBlock r.base (blockInfoOffset r.size)) from hallow)
    obtain ⟨st', hst, he⟩ := Option.map_eq_some_iff.mp hrun
    obtain rfl := (Prod.mk.inj he).1
    cases heff with
    | addBlock => exact ⟨st', hst, hi, ho⟩
  | true =>
    obtain ⟨st, p, l', hrun, heff, hi, ho⟩ :=
      h.storage.op_spec h.sizes.2.2
        (show Storage.Op.Allowed _ _ (.addOrderedBlock r.base (blockInfoOffset r.size)) from hallow)
    obtain ⟨st', hst, he⟩ := Option.map_eq_some_iff.mp hrun
    obtain rfl := (Prod.mk.inj he).1
    cases heff with
    | addOrderedBlock => exact ⟨st', hst, hi, ho⟩

/-- A block that is added: its chunks join the storage, its trailer the chain. -/
theorem Inv.addBlock_spec (h : Inv s live l) {r : Region} (ordered : Bool)
    (hbs : Blocks (r :: s.obtained)) (hsmall : s.Counts 1)
    (hc : s.chunkSize ≤ blockInfoOffset r.size) :
    ∃ st, { s with obtained := r :: s.obtained }.addBlock r.base r.size s.blockList ordered =
        some ({ s with storage := st, obtained := r :: s.obtained }, info r) ∧ st.empty = false ∧
      Outside (r :: s.obtained) s.storage.mem st.mem ∧
      Inv { s with storage := st, obtained := r :: s.obtained, blockList := info r } live
        (added ordered r.base (s.carved r) l) := by
  obtain ⟨hpos, hstop, hsz⟩ := hbs.placed r List.mem_cons_self
  have hmem : ∀ r' ∈ s.obtained, r' ∈ r :: s.obtained := fun r' hr' => List.mem_cons_of_mem _ hr'
  have hin := chunkArea_inside hsz hstop
  have hapart : ∀ r' ∈ s.obtained, ∀ a, a.Inside r → (trailer r').Disjoint a :=
      fun r' hr' a ha => by
    obtain ⟨-, hs', hz'⟩ := hbs.placed r' (hmem r' hr')
    exact (((List.pairwise_cons.mp hbs.apart).1 r' hr').mono ha (trailer_inside hz' hs')).symm
  obtain ⟨st, hadd, hi, ho⟩ := h.addChunks_spec ordered hpos hc
    (Nat.lt_of_le_of_lt hin.2 hstop) fun r' hr' => by
      obtain ⟨-, hs', hz'⟩ := hbs.placed r' (hmem r' hr')
      exact ((List.pairwise_cons.mp hbs.apart).1 r' hr').mono hin (chunkArea_inside hz' hs')
  have hstore := outside_storeInfo st.mem r s.blockList
  have hi' := hi.frame h.sizes.2.2 hstore fun t ht a ha => by
    obtain ⟨r', hr', rfl⟩ : ∃ r' ∈ r :: s.obtained, chunkArea r' = a := List.mem_map.mp ha
    exact List.mem_singleton.mp ht ▸ hbs.trailer_apart List.mem_cons_self hr'
  refine ⟨_, ?_, ?_, ?_, hi', h.sizes, h.counts, ?_, hbs, fun _ => hsmall, ?_, ?_⟩
  · cases ordered with
    | false => rw [if_neg (by decide)] at hadd; simp [addBlock, hadd, info]
    | true => rw [if_pos rfl] at hadd; simp [addBlock, hadd, info]
  · have hne : added ordered r.base (s.carved r) l ≠ [] := by
      intro hnil
      have hp := added_perm ordered r.base (s.carved r) l
      rw [hnil] at hp
      simpa [carved, Storage.segCount,
        Storage.chunks] using (List.append_eq_nil_iff.mp hp.nil_eq.symm).1
    simpa [Storage.empty] using hi'.threads.head_ne hne
  · refine Outside.trans (hbs.outside ho) (hstore.mono fun a ha => ?_)
    rw [List.mem_singleton.mp ha]
    exact ⟨r, List.mem_cons_self, trailer_inside hsz hstop⟩
  · refine ⟨rfl, fun he => Nat.ne_of_gt hpos (congrArg BlockInfo.ptr he), ?_⟩
    rw [nextInfo_storeInfo _ _ h.blockList_lt.1 h.blockList_lt.2]
    refine chain_outside (chain_outside h.chain ho fun r' hr' a ha => ?_) hstore
      fun r' hr' a ha => ?_
    · rcases List.mem_cons.mp ha with rfl | ha
      · exact hapart r' hr' _ hin
      · obtain ⟨r'', hr'', rfl⟩ := List.mem_map.mp ha
        exact h.blocks.trailer_apart hr' hr''
    · rw [List.mem_singleton.mp ha]
      exact hapart r' hr' _ (trailer_inside hsz hstop)
  · intro r' hr'
    rcases List.mem_cons.mp hr' with rfl | hr'
    · exact hc
    · exact h.roomy r' hr'
  · intro c hc'
    have hp := (added_perm ordered r.base (s.carved r) l).append_right
      (Storage.held s.chunkSize (s.view live).live)
    rw [List.append_assoc] at hp
    rcases List.mem_append.mp (hp.mem_iff.mp hc') with hc' | hc'
    · exact ⟨r, List.mem_cons_self, hc'⟩
    · obtain ⟨r', hr', hcut⟩ := h.cut c hc'
      exact ⟨r', hmem r' hr', hcut⟩

/-- The answer of the user allocator for `sz` bytes is null or a block of the address space apart
from those it gave before. -/
def Answer (s : Pool) (ua : Nat → Nat) (sz : Nat) : Prop :=
  ua sz ≠ 0 → ua sz + sz < addressSpace ∧ ∀ r ∈ s.obtained, Region.Disjoint ⟨ua sz, sz⟩ r

/-- `request_new_block`, once the sizing loop has ended: the answer was null, or there is a new
block in front of the chain. The size may have wrapped. -/
theorem Inv.requestBlock_spec (h : Inv s live l) (ua : Nat → Nat) (ordered : Bool)
    {minSize sz : Nat} (hsmall : s.Counts 1)
    (hgrow : growSize ((minSize + sizeofBlockInfo * 2) % addressSpace)
      (s.nextSize * s.chunkSize % addressSpace) = some sz)
    (h16 : sizeofBlockInfo ≤ sz) (hc : ua sz ≠ 0 → s.chunkSize ≤ blockInfoOffset sz)
    (hans : s.Answer ua sz) :
    (ua sz = 0 ∧ s.requestNewBlock ua minSize ordered =
      some ({ s with nextSize := s.nextSize * 2 % addressSpace }, false) ∧
        Inv { s with nextSize := s.nextSize * 2 % addressSpace } live l) ∨
      ua sz ≠ 0 ∧ ∃ s', s.requestNewBlock ua minSize ordered = some (s', true) ∧
        s'.storage.empty = false ∧
        s'.requestedSize = s.requestedSize ∧ s'.chunkSize = s.chunkSize ∧
          s'.nextSize = s.nextSize * 2 % addressSpace ∧
        s'.obtained = ⟨ua sz, sz⟩ :: s.obtained ∧ Outside s'.obtained s.storage.mem s'.storage.mem ∧
        Inv s' live (added ordered (ua sz) (s.carved ⟨ua sz, sz⟩) l) := by
  have hinv' : Inv { s with nextSize := s.nextSize * 2 % addressSpace } live l :=
    ⟨h.storage, h.sizes, h.counts, h.chain, h.blocks, h.small, h.roomy, h.cut⟩
  by_cases hz : ua sz = 0
  · refine .inl ⟨hz, ?_, hinv'⟩
    simp [requestNewBlock, hgrow, hz]
  · right
    obtain ⟨hstop, hd⟩ := hans hz
    have hbs : Blocks (⟨ua sz, sz⟩ :: s.obtained) := by
      refine ⟨fun r hr => ?_, List.pairwise_cons.mpr ⟨hd, h.blocks.apart⟩⟩
      rcases List.mem_cons.mp hr with rfl | hr
      · exact ⟨Nat.pos_of_ne_zero hz, hstop, h16⟩
      · exact h.blocks.placed r hr
    obtain ⟨st, hadd, hne, ho, hi⟩ := hinv'.addBlock_spec ordered hbs hsmall (hc hz)
    refine ⟨hz, ⟨s.requestedSize, s.chunkSize, s.nextSize * 2 % addressSpace, info ⟨ua sz, sz⟩, st,
      ⟨ua sz, sz⟩ :: s.obtained⟩,
      ?_, hne, rfl, rfl, rfl, rfl, ho, hi⟩
    simp only [requestNewBlock, hgrow]
    simp [hz, hadd, hne]

/-- A size that reaches the target has room for the chunks asked for and the trailer. -/
theorem chunks_fit_size {c minSize sz : Nat} (hmin : c ≤ minSize)
    (hge : minSize + sizeofBlockInfo * 2 ≤ sz) (hlt : sz < addressSpace) :
    sizeofBlockInfo ≤ sz ∧ c < blockInfoOffset sz := by
  have hb := (blockInfoOffset_bounds (by omega : sizeofBlockInfo ≤ sz) hlt).2
  unfold sizeofBlockInfo wordSize at *
  omega

/-- `request_new_block` returns, with a chunk in the storage unless the answer was null. -/
theorem Inv.requestNewBlock_spec (h : Inv s live l) {ua : Nat → Nat} {minSize : Nat}
    (ordered : Bool) (hmin : s.chunkSize ≤ minSize) (hg : s.Grants ua minSize) :
    ∃ s' ok l', s.requestNewBlock ua minSize ordered = some (s', ok) ∧ Inv s' live l' ∧
      s'.requestedSize = s.requestedSize ∧ s'.chunkSize = s.chunkSize ∧
      (ok = true → s'.storage.empty = false) := by
  obtain ⟨⟨k, hk, hlt⟩, hans⟩ := hg
  obtain ⟨j, hgrow, hge, hsz⟩ := growSize_spec k _ hk hlt
  have hle : s.nextSize * s.chunkSize ≤ s.nextSize * s.chunkSize * 2 ^ k :=
    Nat.le_mul_of_pos_right _ (Nat.two_pow_pos k)
  have hmod : s.nextSize * s.chunkSize % addressSpace = s.nextSize * s.chunkSize :=
    Nat.mod_eq_of_lt (by omega)
  have hm : (minSize + sizeofBlockInfo * 2) % addressSpace = minSize + sizeofBlockInfo * 2 :=
    Nat.mod_eq_of_lt (by omega)
  -- the size is a multiple of the chunk size that is larger than one chunk
  have hroom : 2 * s.chunkSize ≤ s.nextSize * s.chunkSize * 2 ^ j := by
    rw [Nat.mul_right_comm] at hge ⊢
    have hlt : 1 * s.chunkSize < s.nextSize * 2 ^ j * s.chunkSize := by
      have := show 0 < sizeofBlockInfo by decide
      omega
    exact Nat.mul_le_mul_right _ (Nat.lt_of_mul_lt_mul_right hlt)
  have hone : s.Counts 1 := by
    refine ⟨Nat.one_pos, ?_⟩
    have := h.sizes.2.1
    omega
  obtain ⟨h16, hc⟩ := chunks_fit_size hmin hge hsz
  obtain ⟨-, hrun, hi⟩ | ⟨-, s', hrun, hne, hrs, hcs, -, -, -, hi⟩ :=
    h.requestBlock_spec ua ordered hone
    (by rw [hmod, hm]; exact hgrow) h16 (fun _ => Nat.le_of_lt hc) (hans _ hgrow)
  · exact ⟨_, false, l, hrun, hi, rfl, rfl, by simp⟩
  · exact ⟨s', true, _, hrun, hi, hrs, hcs, fun _ => hne⟩

theorem Inv.mallocOne_spec (h : Inv s live l) {ua : Nat → Nat} (ordered : Bool)
    (ha : s.storage.empty = true → s.Grants ua s.chunkSize) :
    ∃ s' p l', s.mallocOne ua ordered = some (s', p) ∧
      Inv s' (if p = 0 then live else (p, 1) :: live) l' := by
  by_cases he : s.storage.empty = true
  · obtain ⟨s₁, ok, l₁, hreq, hi, -, -, hok⟩ :=
      h.requestNewBlock_spec ordered (Nat.le_refl _) (ha he)
    cases ok with
    | false => exact ⟨s₁, 0, l₁, by simp [mallocOne, he, hreq], hi⟩
    | true =>
      obtain ⟨st, p, l', hm, hp, hi'⟩ := hi.mallocFromStorage_spec (hok rfl)
      refine ⟨{ s₁ with storage := st }, p, l', by simp [mallocOne, he, hreq, hm], ?_⟩
      rwa [if_neg hp]
  · obtain ⟨st, p, l', hm, hp, hi'⟩ := h.mallocFromStorage_spec (Bool.eq_false_iff.mpr he)
    refine ⟨{ s with storage := st }, p, l', by simp [mallocOne, he, hm], ?_⟩
    rwa [if_neg hp]

theorem Inv.orderedMallocN_spec (h : Inv s live l) {ua : Nat → Nat} {n : Nat} (hn : s.Counts n)
    (ha : ∀ st, s.storage.mallocN (s.countOf n) s.chunkSize = some (st, 0) →
      s.Grants ua (s.countOf n * s.chunkSize)) :
    ∃ s' p l', s.orderedMallocN ua n = some (s', p) ∧
      Inv s' (if p = 0 then live else (p, n) :: live) l' := by
  have hcount := chunkCount_eq h.chunkSize_pos hn.2
  have hbound := (countOf_bounds (s := s) (n := n) h.chunkSize_pos).2
  have hfit := hn.2
  have hmod : s.countOf n * s.chunkSize % addressSpace = s.countOf n * s.chunkSize :=
    Nat.mod_eq_of_lt (by omega)
  have hn0 : n ≠ 0 := Nat.ne_of_gt hn.1
  obtain ⟨st, p, l₁, hrun, -, hi⟩ := h.mallocN_spec hn
  by_cases hp : p = 0
  · obtain rfl := hp
    have hmin : s.chunkSize ≤ s.countOf n * s.chunkSize :=
      Nat.le_mul_of_pos_left _ (countOf_pos hn.1 h.sizes.1 h.chunkSize_pos)
    obtain ⟨s₂, ok, l₂, hreq, hi₂, hrs, hcs, -⟩ :=
      hi.requestNewBlock_spec true (show s.chunkSize ≤ s.countOf n * s.chunkSize from hmin)
        (ha st hrun)
    have hcnt : s₂.countOf n = s.countOf n := by simp only [countOf, hrs, hcs]
    have hn₂ : s₂.Counts n := by simpa only [Counts, hrs, hcs] using hn
    obtain ⟨st₂, p₂, l', hrun₂, -, hi'⟩ := hi₂.mallocN_spec hn₂
    rw [hcnt] at hrun₂
    refine ⟨_, p₂, l', ?_, hi'⟩
    simp [orderedMallocN, hn0, hcount, hrun, hmod, hreq, hrun₂]
  · refine ⟨_, p, l₁, ?_, hi⟩
    simp [orderedMallocN, hn0, hcount, hrun, hp]

/-- Every allowed operation returns and keeps the invariant. -/
theorem Inv.exec_spec {w : World} (h : Inv w.pool w.live l) {op : Op} (ha : op.Allowed w) :
    ∃ w' p l', w.exec op = some (w', p) ∧ Inv w'.pool w'.live l' := by
  suffices ∃ s p l', op.run w.pool = some (s, p) ∧ Inv s (op.liveAfter p w.live) l' by
    obtain ⟨s, p, l', hrun, hi⟩ := this
    exact ⟨⟨s, op.liveAfter p w.live⟩, p, l', by simp [World.exec, hrun], hi⟩
  have hone := countOf_one h.sizes.1 h.sizes.2.1
  cases op with
  | malloc ua => exact h.mallocOne_spec false ha
  | orderedMalloc ua => exact h.mallocOne_spec true ha
  | orderedMallocN ua n => exact h.orderedMallocN_spec ha.1 ha.2
  | free p =>
    obtain ⟨st, q, l', hrun, -, hi⟩ := h.free_spec (.free p) ha
      (fun hm => by rw [hone] at hm; exact hm) (fun _ => rfl) fun _ => by rw [hone]; rfl
    obtain ⟨st', hst, he⟩ := Option.map_eq_some_iff.mp hrun
    obtain rfl := (Prod.mk.inj he).1
    exact ⟨_, 0, l', by simp [Op.run, free, hst], hi⟩
  | orderedFree p =>
    obtain ⟨st, q, l', hrun, -, hi⟩ := h.free_spec (.orderedFree p) ha
      (fun hm => by rw [hone] at hm; exact hm) (fun _ => rfl) fun _ => by rw [hone]; rfl
    obtain ⟨st', hst, he⟩ := Option.map_eq_some_iff.mp hrun
    obtain rfl := (Prod.mk.inj he).1
    exact ⟨_, 0, l', by simp [Op.run, orderedFree, hst], hi⟩
  | orderedFreeN p n =>
    obtain ⟨st, q, l', hrun, -, hi⟩ :=
      h.free_spec (.orderedFreeN p (w.pool.countOf n)) ha id (fun _ => rfl) fun _ => rfl
    obtain ⟨st', hst, he⟩ := Option.map_eq_some_iff.mp hrun
    obtain rfl := (Prod.mk.inj he).1
    have hcount := chunkCount_eq h.chunkSize_pos (h.counts _ ha).2
    exact ⟨_, 0, l', by simp [Op.run, orderedFreeN, hcount, hst], hi⟩
  | setNextSize n =>
    have hn : n ≠ 0 := ha
    refine ⟨{ w.pool with nextSize := n }, 0, l, by simp [Op.run, setNextSize, guard, hn], ?_⟩
    exact ⟨h.storage, h.sizes, h.counts, h.chain, h.blocks, h.small, h.roomy, h.cut⟩
  | write a v =>
    obtain ⟨g, hg, hlo, hhi⟩ := ha
    have hb := (countOf_bounds (s := w.pool) (n := g.2) h.chunkSize_pos).1
    obtain ⟨st, p, l', hrun, -, -, hinv⟩ := h.storageOp (.write a v)
      ⟨_, List.mem_map_of_mem hg, hlo, Nat.lt_of_lt_of_le hhi (Nat.add_le_add_left hb _)⟩
        fun _ => rfl
    obtain ⟨rfl, rfl⟩ := Prod.mk.inj (Option.some.inj hrun)
    exact ⟨_, 0, l', rfl, hinv _ (List.Perm.refl _) h.counts⟩

theorem new_eq_some {requestedSize : Nat} {m : Mem} {s : Pool} (h : new requestedSize m = some s) :
    0 < requestedSize ∧
    s = ⟨requestedSize, requestedSize.lcm (wordSize.lcm wordSize), 32, ⟨0, 0⟩, ⟨m, 0⟩, []⟩ := by
  by_cases h0 : requestedSize = 0
  · simp [new, h0, guard] at h
  · simp only [new, guard, ne_eq, h0, not_false_eq_true, ↓reduceIte] at h
    exact ⟨Nat.pos_of_ne_zero h0, (Option.some.inj h).symm⟩

theorem inv_new {requestedSize : Nat} {m : Mem} {s : Pool} (h : new requestedSize m = some s) :
    Inv s [] [] := by
  obtain ⟨hpos, rfl⟩ := new_eq_some h
  have hlcm : 0 < requestedSize.lcm (wordSize.lcm wordSize) := Nat.lcm_pos hpos (by decide)
  refine ⟨⟨⟨rfl, List.Pairwise.nil, by simp⟩, ⟨List.Pairwise.nil, by simp [view, Storage.held]⟩,
    by simp [view], by simp [view]⟩, ⟨hpos, ?_, ?_⟩, by simp, rfl, ⟨by simp, List.Pairwise.nil⟩,
      by simp, by simp, by simp [view, Storage.held]⟩
  · exact Nat.le_of_dvd hlcm (Nat.dvd_lcm_left _ _)
  · exact Nat.le_of_dvd hlcm (Nat.dvd_trans (by decide) (Nat.dvd_lcm_right _ _))

/-- The invariant holds after every run. -/
theorem inv_run {requestedSize : Nat} {m : Mem} {w : World} {ops : List Op}
    (h0 : new requestedSize m = some s) (h : Run Step ⟨s, []⟩ ops w) :
    ∃ l, Inv w.pool w.live l := by
  refine h.invariant (I := fun w => ∃ l, Inv w.pool w.live l) ⟨[], inv_new h0⟩ ?_
  intro t op u ⟨l, hl⟩ ⟨ha, p, he⟩
  obtain ⟨w', q, l', hrun, hi⟩ := hl.exec_spec ha
  rw [he] at hrun
  obtain ⟨rfl, rfl⟩ := Prod.mk.inj (Option.some.inj hrun)
  exact ⟨l', hi⟩

end

end Gpcl.Pool
