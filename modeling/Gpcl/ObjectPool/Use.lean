import Gpcl.Lib.TwoWay
import Gpcl.ObjectPool.Basic
import Gpcl.Pool.Clients
import Gpcl.Pool.Destroy

/-! # An object_pool in use

A `World` is a pool of objects and the objects that were constructed and are not destroyed,
newest first. Whoever holds objects may change their bytes, and memory that is not in the blocks
of the pool. The links of an object lie behind its bytes in a chunk of its own, and the pool
writes to a chunk only once it is free: the list of the live objects is `Linked` all along. -/
namespace Gpcl.ObjectPool
open Lib.Memory Lib.TwoWay Lib.Runs

structure World where
  pool : ObjectPool
  live : List Nat

inductive Op
  | construct (ua : Nat → Nat) (ctor : Nat → Mem → Mem × Bool)
  | destroy (dtor : Nat → Mem → Mem) (p : Nat)
  | setNextSize (n : Nat)
  | write (m : Mem)

variable (T : ElementType)

/-- In the blocks nothing changes but bytes of the elements of `objs`. -/
def Respects (blocks : List Region) (objs : List Nat) (m m' : Mem) : Prop :=
  ∀ x, (∃ r ∈ blocks, r.Contains x) → (∀ p ∈ objs, ¬ (T.elem p).Contains x) → m' x = m x

/-- The user allocator answers with null or a fresh block, constructors, destructors and clients
write to the elements they know, and a destroyed object is live. -/
def Op.Allowed (w : World) : Op → Prop
  | .construct ua ctor =>
    (w.pool.pool.storage.empty = true → w.pool.pool.Offers ua w.pool.pool.chunkSize) ∧
    ∀ s p, w.pool.malloc T ua = some (s, p) →
      Respects T s.pool.obtained (p :: w.live) s.mem (ctor p s.mem).1
  | .destroy dtor p =>
    p ∈ w.live ∧ Respects T w.pool.pool.obtained w.live w.pool.mem (dtor p w.pool.mem)
  | .setNextSize n => n ≠ 0
  | .write m => Respects T w.pool.pool.obtained w.live w.pool.mem m

/-- The world after an operation, and whether it ended without an exception. -/
def World.exec (w : World) : Op → Option (World × Bool)
  | .construct ua ctor =>
    (w.pool.construct T ua ctor).map fun (s, r) => (⟨s, r.toList ++ w.live⟩, r.isSome)
  | .destroy dtor p => (w.pool.destroy T dtor p).map fun s => (⟨s, w.live.erase p⟩, true)
  | .setNextSize n => (w.pool.setNextSize n).map fun s => (⟨s, w.live⟩, true)
  | .write m => some (⟨w.pool.withMem m, w.live⟩, true)

/-- An allowed operation that returns and throws nothing. -/
def Step (w : World) (op : Op) (w' : World) : Prop := op.Allowed T w ∧ w.exec T op = some (w', true)

/-- Here the constructor may throw. -/
def Attempt (w : World) (op : Op) (w' : World) : Prop :=
  op.Allowed T w ∧ ∃ completed, w.exec T op = some (w', completed)

/-- The pool can provide memory, and the constructor completes. -/
def Op.Succeeds (w : World) : Op → Prop
  | .construct ua ctor => (∃ pool p, w.pool.pool.malloc ua = some (pool, p) ∧ p ≠ 0) ∧
    ∀ s p, w.pool.malloc T ua = some (s, p) → (ctor p s.mem).2 = true
  | _ => True

/-- The chunk of an object. -/
def info (p : Nat) : Region := ⟨p, T.sizeofChunkInfo⟩

/-- The objects have chunks of their own in the blocks. -/
structure Laid (blocks : List Region) (objs : List Nat) : Prop where
  placed : ∀ p ∈ objs, 0 < p ∧ p < addressSpace
  inside : ∀ p ∈ objs, ∃ r ∈ blocks, (info T p).Inside r
  apart : objs.Pairwise fun p q => (info T p).Disjoint (info T q)

/-- The list of the pool. -/
def ListOf (s : ObjectPool) (objs : List Nat) : Prop :=
  Linked (next T s.mem) (prev T s.mem) 0 0 s.objList objs

structure Inv (s : ObjectPool) (objs : List Nat) : Prop where
  pool : ∃ l, Pool.Inv s.pool (objs.map (·, 1)) l
  sizes : s.pool.requestedSize = T.sizeofChunkInfo ∧ s.pool.chunkSize = T.sizeofChunkInfo
  list : ListOf T s objs

/-! ## The layout of a chunk -/

theorem roundUp_bounds (n : Nat) {a : Nat} (ha : 0 < a) :
    n ≤ Layout.roundUp n a ∧ a ∣ Layout.roundUp n a := by
  have hdiv := Nat.div_add_mod (n + a - 1) a
  have hmod := Nat.mod_lt (n + a - 1) ha
  rw [Nat.mul_comm] at hdiv
  unfold Layout.roundUp
  exact ⟨by omega, Nat.dvd_mul_left _ _⟩

/-- The links are behind the element, and within the chunk. -/
theorem layout_bounds :
    T.size ≤ T.prevOffset ∧ wordSize ≤ T.prevOffset ∧ T.prevOffset + wordSize = T.nextOffset ∧
    T.nextOffset + wordSize ≤ T.sizeofChunkInfo := by
  obtain ⟨hle, hdvd⟩ := roundUp_bounds T.size (a := wordSize) (by decide)
  have hpos := T.size_pos
  refine ⟨hle, Nat.le_of_dvd (by unfold Layout.prevOffset at *; omega) hdvd, rfl, ?_⟩
  exact (roundUp_bounds _ (pos_of_wordSize_le (Nat.le_max_right T.alignment wordSize))).1

/-- The chunks are whole words. -/
theorem wordSize_dvd : wordSize ∣ T.sizeofChunkInfo := by
  obtain ⟨k, hk⟩ := T.power
  have hmax : wordSize ∣ max T.alignment wordSize := by
    rw [hk, Nat.max_def]
    by_cases hle : 2 ^ k ≤ wordSize
    · exact ⟨1, (if_pos hle).trans (Nat.mul_one _).symm⟩
    · rw [if_neg hle]
      have h3 : 3 ≤ k := by
        by_contra hlt
        exact hle (Nat.pow_le_pow_right (by decide) (by omega : k ≤ 3))
      exact Nat.pow_dvd_pow 2 h3
  exact Nat.dvd_trans hmax
    (roundUp_bounds _ (pos_of_wordSize_le (Nat.le_max_right T.alignment wordSize))).2

section
variable {T} {m m' : Mem} {p q v : Nat}

theorem outside_setPrev : Outside [info T p] m (setPrev T m p v) := by
  obtain ⟨-, -, hadd, hle⟩ := layout_bounds T
  refine Outside.storeWord ⟨_, List.mem_singleton_self _, ?_⟩
  simp only [Region.Inside, Region.stop, info]
  omega

theorem outside_setNext : Outside [info T p] m (setNext T m p v) := by
  obtain ⟨-, -, hadd, hle⟩ := layout_bounds T
  refine Outside.storeWord ⟨_, List.mem_singleton_self _, ?_⟩
  simp only [Region.Inside, Region.stop, info]
  omega

/-- The links of an object are in the bytes behind its element. -/
theorem links_congr (h : ∀ x, q + T.prevOffset ≤ x → x < q + T.sizeofChunkInfo → m' x = m x) :
    next T m' q = next T m q ∧ prev T m' q = prev T m q := by
  obtain ⟨-, -, hadd, hle⟩ := layout_bounds T
  exact ⟨loadWord_congr fun x hlo hhi => h x (by omega) (by omega),
    loadWord_congr fun x hlo hhi => h x hlo (by omega)⟩

/-- What is written elsewhere leaves the links of an object. -/
theorem links_outside {rs : List Region} (ho : Outside rs m m')
    (hd : ∀ r ∈ rs, (info T q).Disjoint r) :
    next T m' q = next T m q ∧ prev T m' q = prev T m q := by
  refine links_congr fun x hlo hhi => ho x fun r hr hx => ?_
  have hqr := hd r hr
  simp only [Region.Disjoint, Region.Contains, Region.stop, info] at hqr hx
  omega

theorem next_setNext (hv : v < addressSpace) (h : q = p ∨ (info T q).Disjoint (info T p)) :
    next T (setNext T m p v) q = if q = p then v else next T m q := by
  by_cases he : q = p
  · rw [if_pos he, he]
    exact loadWord_storeWord _ _ hv
  · rw [if_neg he]
    exact (links_outside outside_setNext (by simpa using h.resolve_left he)).1

theorem prev_setPrev (hv : v < addressSpace) (h : q = p ∨ (info T q).Disjoint (info T p)) :
    prev T (setPrev T m p v) q = if q = p then v else prev T m q := by
  by_cases he : q = p
  · rw [if_pos he, he]
    exact loadWord_storeWord _ _ hv
  · rw [if_neg he]
    exact (links_outside outside_setPrev (by simpa using h.resolve_left he)).2

theorem prev_setNext (h : q = p ∨ (info T q).Disjoint (info T p)) :
    prev T (setNext T m p v) q = prev T m q := by
  rcases h with rfl | hd
  · exact loadWord_storeWord_apart (.inl (Nat.le_of_eq (Nat.add_assoc _ _ _)))
  · exact (links_outside outside_setNext (by simpa using hd)).2

theorem next_setPrev (h : q = p ∨ (info T q).Disjoint (info T p)) :
    next T (setPrev T m p v) q = next T m q := by
  rcases h with rfl | hd
  · exact loadWord_storeWord_apart (.inr (Nat.le_of_eq (Nat.add_assoc _ _ _)))
  · exact (links_outside outside_setPrev (by simpa using hd)).1

/-! The setters behind a test for null -/

theorem next_setNext_if (hv : v < addressSpace) (hq : q ≠ 0)
    (h : p ≠ 0 → q = p ∨ (info T q).Disjoint (info T p)) :
    next T (if p ≠ 0 then setNext T m p v else m) q = if q = p then v else next T m q := by
  by_cases hp : p = 0
  · rw [if_neg (by simpa using hp), if_neg (by rw [hp]; exact hq)]
  · rw [if_pos hp, next_setNext hv (h hp)]

theorem prev_setPrev_if (hv : v < addressSpace) (hq : q ≠ 0)
    (h : p ≠ 0 → q = p ∨ (info T q).Disjoint (info T p)) :
    prev T (if p ≠ 0 then setPrev T m p v else m) q = if q = p then v else prev T m q := by
  by_cases hp : p = 0
  · rw [if_neg (by simpa using hp), if_neg (by rw [hp]; exact hq)]
  · rw [if_pos hp, prev_setPrev hv (h hp)]

theorem prev_setNext_if (h : p ≠ 0 → q = p ∨ (info T q).Disjoint (info T p)) :
    prev T (if p ≠ 0 then setNext T m p v else m) q = prev T m q := by
  by_cases hp : p = 0
  · rw [if_neg (by simpa using hp)]
  · rw [if_pos hp, prev_setNext (h hp)]

theorem next_setPrev_if (h : p ≠ 0 → q = p ∨ (info T q).Disjoint (info T p)) :
    next T (if p ≠ 0 then setPrev T m p v else m) q = next T m q := by
  by_cases hp : p = 0
  · rw [if_neg (by simpa using hp)]
  · rw [if_pos hp, next_setPrev (h hp)]

/-- A write in the chunk of an object is one in the chunks of the objects. -/
theorem outside_mem {objs : List Nat} (hp : p ∈ objs) (ho : Outside [info T p] m m') :
    Outside (objs.map (info T)) m m' := by
  refine ho.mono fun r hr => ?_
  rw [List.mem_singleton.mp hr]
  exact ⟨_, List.mem_map_of_mem hp, .refl _⟩

theorem outside_if {objs : List Nat} (hp : p ≠ 0 → p ∈ objs) (ho : Outside [info T p] m m') :
    Outside (objs.map (info T)) m (if p ≠ 0 then m' else m) := by
  by_cases hz : p = 0
  · rw [if_neg (by simpa using hz)]
    exact .refl _ m
  · rw [if_pos hz]
    exact outside_mem (hp hz) ho

end

section
variable {T} {s s' : ObjectPool} {objs : List Nat} {blocks : List Region} {m m' : Mem}
    {ua : Nat → Nat} {p q : Nat}

/-! ## Laid out objects -/

theorem Laid.same_or_apart (h : Laid T blocks objs) (hp : p ∈ objs) (hq : q ∈ objs) :
    q = p ∨ (info T q).Disjoint (info T p) := by
  by_cases he : q = p
  · exact .inl he
  · have : Std.Symm fun p q => (info T p).Disjoint (info T q) := ⟨fun _ _ => Region.Disjoint.symm⟩
    exact .inr (h.apart.forall hq hp he)

theorem Laid.nodup (h : Laid T blocks objs) : objs.Nodup := by
  refine h.apart.imp fun {p q} hd he => ?_
  obtain ⟨-, hword, hadd, hle⟩ := layout_bounds T
  have h0 : 0 < wordSize := by decide
  simp only [Region.Disjoint, Region.stop, info] at hd
  omega

theorem Respects.mono {objs' : List Nat} (h : Respects T blocks objs m m')
    (hs : ∀ p ∈ objs, p ∈ objs') : Respects T blocks objs' m m' :=
  fun x hx hno => h x hx fun p hp => hno p (hs p hp)

theorem Respects.trans {m'' : Mem} (h : Respects T blocks objs m m')
    (h' : Respects T blocks objs m' m'') : Respects T blocks objs m m'' :=
  fun x hx hno => (h' x hx hno).trans (h x hx hno)

/-- Who respects the objects leaves their links. -/
theorem Laid.links_respected (h : Laid T blocks objs) (hr : Respects T blocks objs m m')
    (hp : p ∈ objs) :
    next T m' p = next T m p ∧ prev T m' p = prev T m p := by
  obtain ⟨hsize, -, hadd, hle⟩ := layout_bounds T
  obtain ⟨r, hrb, hin⟩ := h.inside p hp
  refine links_congr fun x hlo hhi => hr x ⟨r, hrb, hin.contains ⟨by simp only [info]; omega, hhi⟩⟩
    fun q hq hxq => ?_
  simp only [Region.Contains, Region.stop, Layout.elem] at hxq
  -- the links lie behind the element, and the other chunks lie elsewhere
  rcases h.same_or_apart hp hq with rfl | hd
  · omega
  · simp only [Region.Disjoint, Region.stop, info] at hd
    omega

/-! ## The invariant -/

theorem laid_of_pool {pool : Pool} {l : List Nat} (hl : Pool.Inv pool (objs.map (·, 1)) l)
    (hc : pool.chunkSize = T.sizeofChunkInfo) :
    Laid T pool.obtained objs := by
  refine ⟨fun p hp => ?_, fun p hp => ?_, ?_⟩
  · obtain ⟨hpos, r, hr, hin⟩ := hl.object_placed hp
    obtain ⟨-, hstop, -⟩ := hl.blocks.placed r hr
    simp only [Region.Inside, Region.stop] at hin hstop
    exact ⟨hpos, by omega⟩
  · obtain ⟨-, r, hr, hin⟩ := hl.object_placed hp
    rw [hc] at hin
    exact ⟨r, hr, hin⟩
  · have ha := hl.objects_apart
    rwa [hc] at ha

theorem Inv.laid (h : Inv T s objs) : Laid T s.pool.obtained objs := by
  obtain ⟨⟨l, hl⟩, ⟨-, hc⟩, -⟩ := h
  exact laid_of_pool hl hc

/-- The chunks of the objects are rewritten so that they are linked. -/
theorem inv_of_links {pool : Pool} {l : List Nat} {obj : Nat}
    (hl : Pool.Inv pool (objs.map (·, 1)) l)
    (hs : pool.requestedSize = T.sizeofChunkInfo ∧ pool.chunkSize = T.sizeofChunkInfo)
    (hm : ∀ x, (∃ r ∈ pool.obtained, r.Contains x) → (∀ p ∈ objs, ¬ (info T p).Contains x) →
      m x = pool.storage.mem x)
    (hlinks : Linked (next T m) (prev T m) 0 0 obj objs) :
    Inv T ⟨{ pool with storage.mem := m }, obj⟩ objs := by
  refine ⟨⟨l, hl.overwrite_objects fun x hx hno => hm x hx ?_⟩, hs, hlinks⟩
  rw [hs.2] at hno
  exact hno

/-- What respects the objects keeps the invariant. -/
theorem Inv.respects (h : Inv T s objs) (hr : Respects T s.pool.obtained objs s.mem m) :
    Inv T (s.withMem m) objs := by
  obtain ⟨l, hl⟩ := h.pool
  refine inv_of_links hl h.sizes (fun x hx hno => hr x hx fun p hp hxp => hno p hp ?_) ?_
  · obtain ⟨hsize, -, hadd, hle⟩ := layout_bounds T
    simp only [Region.Contains, Region.stop, Layout.elem, info] at hxp ⊢
    omega
  · exact h.list.congr (fun p hp => (h.laid.links_respected hr hp).1) fun p hp =>
      (h.laid.links_respected hr hp).2

/-- The sizes of a pool of objects fit for the requests it makes. -/
theorem Inv.sizes_fit (h : Inv T s objs) :
    s.pool.Counts 1 ∧ s.pool.chunkSize + Pool.sizeofBlockInfo * 2 < addressSpace := by
  obtain ⟨hr, hc⟩ := h.sizes
  have hlt := T.representable
  obtain ⟨k, hk⟩ := wordSize_dvd T
  unfold Pool.Counts Pool.sizeofBlockInfo wordSize addressSpace at *
  rw [hr, hc]
  exact ⟨⟨Nat.one_pos, by omega⟩, by omega⟩

theorem inv_new (h : new T m = some s) : Inv T s [] := by
  simp only [new, Option.bind_eq_bind, Option.bind_eq_some_iff, Option.pure_def,
    Option.some.injEq] at h
  obtain ⟨pool, hnew, rfl⟩ := h
  have hinv := Pool.inv_new hnew
  obtain ⟨-, rfl⟩ := Pool.new_eq_some hnew
  refine ⟨⟨[], hinv⟩, ⟨rfl, ?_⟩, rfl⟩
  exact Nat.lcm_eq_left (by simpa [Nat.lcm_self] using wordSize_dvd T)

/-- The head of the list is an object. -/
theorem Inv.objList_mem (h : Inv T s objs) (h0 : s.objList ≠ 0) : s.objList ∈ objs := by
  have hl := h.list
  cases objs with
  | nil => exact absurd hl h0
  | cons p objs => rw [hl.1]; exact List.mem_cons_self

theorem Inv.objList_lt (h : Inv T s objs) : s.objList < addressSpace := by
  by_cases h0 : s.objList = 0
  · rw [h0]; decide
  · exact (h.laid.placed _ (h.objList_mem h0)).2

/-- A chunk that the pool hands out, before it is linked. -/
theorem Inv.pool_malloc (h : Inv T s objs) {pool : Pool}
    (hoff : s.pool.storage.empty = true → s.pool.Offers ua s.pool.chunkSize)
    (hrun : s.pool.malloc ua = some (pool, p)) (hp : p ≠ 0) :
    (∃ l, Pool.Inv pool ((p :: objs).map (·, 1)) l) ∧
    (pool.requestedSize = T.sizeofChunkInfo ∧ pool.chunkSize = T.sizeofChunkInfo) ∧
      Linked (next T pool.storage.mem) (prev T pool.storage.mem) 0 0 s.objList objs := by
  obtain ⟨hone, hfit⟩ := h.sizes_fit
  obtain ⟨l, hl⟩ := h.pool
  obtain ⟨l', hl'⟩ := hl.mallocOne_returned hone hfit hoff hrun
  rw [if_neg hp] at hl'
  have hsame := Pool.mallocOne_sizes hrun
  obtain ⟨-, hkeep⟩ := hl.malloc_keeps hfit hoff hrun
  refine ⟨⟨l', hl'⟩, ⟨hsame.requested.trans h.sizes.1, hsame.chunk.trans h.sizes.2⟩, ?_⟩
  -- the links lie in the blocks that the pool had
  have hlinks : ∀ q ∈ objs, next T pool.storage.mem q = next T s.mem q ∧
      prev T pool.storage.mem q = prev T s.mem q := by
    intro q hq
    obtain ⟨r, hr, hin⟩ := h.laid.inside q hq
    exact links_congr fun x hlo hhi =>
      hkeep x ⟨r, hr, hin.contains ⟨by simp only [info]; omega, hhi⟩⟩
  exact h.list.congr (fun q hq => (hlinks q hq).1) fun q hq => (hlinks q hq).2

/-- `malloc` puts a fresh chunk in front of the list. -/
theorem Inv.malloc_spec (h : Inv T s objs)
    (hoff : s.pool.storage.empty = true → s.pool.Offers ua s.pool.chunkSize)
    (hrun : s.malloc T ua = some (s', p)) : Inv T s' (p :: objs) := by
  simp only [malloc, Option.bind_eq_bind, Option.bind_eq_some_iff, Option.pure_def,
    Option.some.injEq, Prod.mk.injEq] at hrun
  obtain ⟨⟨pool, obj⟩, hm, _, hguard, rfl, rfl⟩ := hrun
  have hne : obj ≠ 0 := by
    intro h0
    simp [guard, h0] at hguard
  obtain ⟨⟨l, hl⟩, hs, hlist⟩ := h.pool_malloc hoff hm hne
  have hlaid := laid_of_pool hl hs.2
  have hnew : obj ∈ obj :: objs := List.mem_cons_self
  have hold : ∀ q ∈ objs, q ∈ obj :: objs := fun q hq => List.mem_cons_of_mem obj hq
  have hhead : s.objList ≠ 0 → s.objList ∈ obj :: objs := fun h0 => hold _ (h.objList_mem h0)
  have hnd := List.nodup_cons.mp hlaid.nodup
  have hfresh : ∀ q ∈ objs, q ≠ obj := by
    intro q hq he
    exact hnd.1 (he ▸ hq)
  have hword := (hlaid.placed obj hnew).2
  -- where the links are written, and what they are then
  generalize hm₁ : setPrev T pool.storage.mem obj 0 = m₁
  generalize hm₂ : setNext T m₁ obj s.objList = m₂
  have hnext : ∀ q ∈ obj :: objs,
    next T (if s.objList ≠ 0 then setPrev T m₂ s.objList obj else m₂) q =
      if q = obj then s.objList else next T pool.storage.mem q := by
    intro q hq
    rw [next_setPrev_if fun h0 => hlaid.same_or_apart (hhead h0) hq, ← hm₂,
      next_setNext h.objList_lt (hlaid.same_or_apart hnew hq), ← hm₁,
      next_setPrev (hlaid.same_or_apart hnew hq)]
  have hprev : ∀ q ∈ obj :: objs,
    prev T (if s.objList ≠ 0 then setPrev T m₂ s.objList obj else m₂) q =
      if q = s.objList then obj else if q = obj then 0 else prev T pool.storage.mem q := by
    intro q hq
    rw [prev_setPrev_if hword (Nat.ne_of_gt (hlaid.placed q hq).1) fun h0 =>
      hlaid.same_or_apart (hhead h0) hq, ← hm₂,
      prev_setNext (hlaid.same_or_apart hnew hq), ← hm₁,
        prev_setPrev (by decide) (hlaid.same_or_apart hnew hq)]
  have hout :
      Outside ((obj :: objs).map (info T)) pool.storage.mem
        (if s.objList ≠ 0 then setPrev T m₂ s.objList obj else m₂) := by
    subst hm₁ hm₂
    exact ((outside_mem hnew outside_setPrev).trans (outside_mem hnew outside_setNext)).trans
      (outside_if hhead outside_setPrev)
  refine inv_of_links hl hs (fun x _ hno => hout x fun r hr => ?_) ?_
  · obtain ⟨q, hq, rfl⟩ := List.mem_map.mp hr
    exact hno q hq
  · refine hlist.push hnd.2 hne ?_ ?_ (fun q hq => ?_) (fun q hq hqh => ?_) (fun h0 => ?_)
    · rw [hprev obj hnew, if_neg, if_pos rfl]
      intro he
      exact hnd.1 (he ▸ h.objList_mem (he ▸ hne))
    · rw [hnext obj hnew, if_pos rfl]
    · rw [hnext q (hold q hq), if_neg (hfresh q hq)]
    · rw [hprev q (hold q hq), if_neg hqh, if_neg (hfresh q hq)]
    · rw [hprev _ (hhead h0), if_pos rfl]

/-- The neighbours of an object are made to name each other. -/
theorem Inv.unlink_spec (h : Inv T s objs) (hp : p ∈ objs) {prv nxt : Nat} {m₁ m₂ : Mem}
    (hpv : prev T s.mem p = prv) (hnx : next T s.mem p = nxt)
    (hm₁ : (if prv ≠ 0 then setNext T s.mem prv nxt else s.mem) = m₁)
    (hm₂ : (if nxt ≠ 0 then setPrev T m₁ nxt prv else m₁) = m₂) :
    Outside (objs.map (info T)) s.mem m₂ ∧
    (∀ q ∈ objs, next T m₂ q = if q = prv then nxt else next T s.mem q) ∧
      ∀ q ∈ objs, prev T m₂ q = if q = nxt then prv else prev T s.mem q := by
  have hlaid := h.laid
  have hprv : prv ≠ 0 → prv ∈ objs := fun h0 => hpv ▸ (h.list.prev_mem hp).resolve_right (hpv ▸ h0)
  have hnxt : nxt ≠ 0 → nxt ∈ objs := fun h0 => hnx ▸ (h.list.next_mem hp).resolve_right (hnx ▸ h0)
  have hlt : ∀ {q}, (q ≠ 0 → q ∈ objs) → q < addressSpace := by
    intro q hq
    by_cases h0 : q = 0
    · rw [h0]; decide
    · exact (hlaid.placed q (hq h0)).2
  refine ⟨?_, fun q hq => ?_, fun q hq => ?_⟩
  · subst hm₁ hm₂
    exact (outside_if hprv outside_setNext).trans (outside_if hnxt outside_setPrev)
  · rw [← hm₂, next_setPrev_if fun h0 => hlaid.same_or_apart (hnxt h0) hq, ← hm₁,
      next_setNext_if (hlt hnxt) (Nat.ne_of_gt (hlaid.placed q hq).1) fun h0 =>
        hlaid.same_or_apart (hprv h0) hq]
  · rw [← hm₂, prev_setPrev_if (hlt hprv) (Nat.ne_of_gt (hlaid.placed q hq).1) fun h0 =>
      hlaid.same_or_apart (hnxt h0) hq, ← hm₁,
      prev_setNext_if fun h0 => hlaid.same_or_apart (hprv h0) hq]

/-- `free` takes an object out of the list and gives its chunk back. -/
theorem Inv.free_spec (h : Inv T s objs) (hp : p ∈ objs) :
    ∃ s', s.free T p = some s' ∧ Inv T s' (objs.erase p) := by
  have hlaid := h.laid
  have hpos := (hlaid.placed p hp).1
  generalize hpv : prev T s.mem p = prv
  generalize hnx : next T s.mem p = nxt
  generalize hm₁ : (if prv ≠ 0 then setNext T s.mem prv nxt else s.mem) = m₁
  generalize hm₂ : (if nxt ≠ 0 then setPrev T m₁ nxt prv else m₁) = m₂
  obtain ⟨hout, hnext, hprev⟩ := h.unlink_spec hp hpv hnx hm₁ hm₂
  obtain ⟨l, hl⟩ := h.pool
  have hl₂ := hl.overwrite_objects (m := m₂) fun x _ hno => hout x fun r hr => by
    obtain ⟨q, hq, rfl⟩ := List.mem_map.mp hr
    rw [info, ← h.sizes.2]
    exact hno q hq
  obtain ⟨st, l', hfree, hword, hinv⟩ := hl₂.free_object hp
  -- the pool writes to the chunk that is given back, and to no other
  have hkeep : ∀ q ∈ objs, q ≠ p → next T st.mem q = next T m₂ q ∧
      prev T st.mem q = prev T m₂ q := by
    intro q hq hqp
    refine links_outside hword fun r hr => ?_
    obtain ⟨-, hle, hadd, hle'⟩ := layout_bounds T
    have hd := (hlaid.same_or_apart hp hq).resolve_left hqp
    rw [List.mem_singleton.mp hr]
    simp only [Region.Disjoint, Region.stop, info] at hd ⊢
    omega
  refine ⟨⟨{ s.pool with storage := st }, if s.objList = p then nxt else s.objList⟩, ?_, ⟨l', hinv⟩,
    h.sizes, ?_⟩
  · simp only [free, hpv, hnx, hm₁, hm₂]
    simp [guard, Nat.ne_of_gt hpos, withMem, hfree]
  · rw [← hnx]
    refine h.list.erase hlaid.nodup hp (fun q hq hqp => ?_) fun q hq hqp => ?_
    · rw [hpv, hnx]
      exact (hkeep q hq hqp).1.trans (hnext q hq)
    · rw [hpv, hnx]
      exact (hkeep q hq hqp).2.trans (hprev q hq)

/-- `construct` leaves the new object in front of the list, whether its constructor completes or
not. -/
theorem Inv.construct_spec (h : Inv T s objs) {ctor : Nat → Mem → Mem × Bool} {r : Option Nat}
    (hoff : s.pool.storage.empty = true → s.pool.Offers ua s.pool.chunkSize)
    (hctor : ∀ t p, s.malloc T ua = some (t, p) →
      Respects T t.pool.obtained (p :: objs) t.mem (ctor p t.mem).1)
    (hrun : s.construct T ua ctor = some (s', r)) :
    ∃ t p, s.malloc T ua = some (t, p) ∧ r = (if (ctor p t.mem).2 then some p else none) ∧
    Inv T s' (p :: objs) := by
  simp only [construct, Option.bind_eq_bind, Option.bind_eq_some_iff, Option.pure_def,
    Option.some.injEq, Prod.mk.injEq] at hrun
  obtain ⟨⟨t, p⟩, hm, rfl, hr⟩ := hrun
  exact ⟨t, p, hm, hr.symm, (h.malloc_spec hoff hm).respects (hctor t p hm)⟩

/-- `destroy` of an object returns. -/
theorem Inv.destroy_spec (h : Inv T s objs) {dtor : Nat → Mem → Mem} (hp : p ∈ objs)
    (hdtor : Respects T s.pool.obtained objs s.mem (dtor p s.mem)) :
    ∃ s', s.destroy T dtor p = some s' ∧ Inv T s' (objs.erase p) := by
  exact (h.respects hdtor).free_spec hp

/-- The chunk of a destroyed object is there for the next one. -/
theorem destroy_ready {s s' : ObjectPool} {dtor : Nat → Mem → Mem} {p : Nat}
    (h : s.destroy T dtor p = some s') :
    s'.pool.storage.empty = false := by
  simp only [destroy, free, Pool.free, Storage.free, Option.bind_eq_bind, Option.bind_eq_some_iff,
    Option.pure_def, Option.some.injEq] at h
  obtain ⟨_, hp, _, ⟨_, ⟨_, _, rfl⟩, rfl⟩, rfl⟩ := h
  have hne : p ≠ 0 := by
    rintro rfl
    simp [guard] at hp
  simpa [Storage.empty, Storage.set] using hne

/-- The operations keep the invariant. What is on the list and not live is what constructors left
behind that threw. -/
theorem Inv.exec_spec {w w' : World} {op : Op} {completed : Bool} (h : Inv T w.pool objs)
    (hlive : w.live.Sublist objs) (ha : op.Allowed T w) (he : w.exec T op = some (w', completed)) :
    ∃ objs', Inv T w'.pool objs' ∧ w'.live.Sublist objs' ∧
    (completed = true → w.live = objs → w'.live = objs') := by
  have hsub : ∀ q ∈ w.live, q ∈ objs := fun q hq => hlive.subset hq
  cases op with
  | construct ua ctor =>
    obtain ⟨hoff, hctor⟩ := ha
    obtain ⟨⟨s, r⟩, hrun, hw⟩ := Option.map_eq_some_iff.mp he
    obtain ⟨rfl, rfl⟩ := Prod.mk.inj hw
    have hctor' : ∀ t p, w.pool.malloc T ua = some (t, p) →
        Respects T t.pool.obtained (p :: objs) t.mem (ctor p t.mem).1 :=
      fun t p hm => (hctor t p hm).mono fun q hq => by
        rcases List.mem_cons.mp hq with rfl | hq
        · exact List.mem_cons_self
        · exact List.mem_cons_of_mem p (hsub q hq)
    obtain ⟨t, p, -, hr, hinv⟩ := h.construct_spec hoff hctor' hrun
    refine ⟨p :: objs, hinv, ?_, ?_⟩
    · rw [hr]
      by_cases hc : (ctor p t.mem).2 = true
      · rw [if_pos hc]
        exact hlive.cons_cons p
      · rw [if_neg hc]
        exact hlive.cons p
    · intro hdone hl
      by_cases hc : (ctor p t.mem).2 = true
      · rw [hr, if_pos hc, hl]
        rfl
      · rw [hr, if_neg hc] at hdone
        exact absurd hdone (by simp)
  | destroy dtor p =>
    obtain ⟨hp, hdtor⟩ := ha
    obtain ⟨s, hrun, hw⟩ := Option.map_eq_some_iff.mp he
    obtain ⟨rfl, rfl⟩ := Prod.mk.inj hw
    obtain ⟨s', hrun', hinv⟩ := h.destroy_spec (hsub p hp) (hdtor.mono hsub)
    obtain rfl := Option.some.inj (hrun.symm.trans hrun')
    exact ⟨objs.erase p, hinv, hlive.erase p, fun _ hl => by rw [← hl]⟩
  | setNextSize n =>
    obtain ⟨s, hrun, hw⟩ := Option.map_eq_some_iff.mp he
    obtain ⟨rfl, rfl⟩ := Prod.mk.inj hw
    simp only [setNextSize, Pool.setNextSize, Option.bind_eq_bind, Option.bind_eq_some_iff,
      Option.pure_def, Option.some.injEq] at hrun
    obtain ⟨pool, ⟨_, -, rfl⟩, rfl⟩ := hrun
    obtain ⟨⟨l, hl⟩, hs, hlist⟩ := h
    refine ⟨objs, ⟨⟨l, ?_⟩, hs, hlist⟩, hlive, fun _ hl => hl⟩
    exact ⟨hl.storage, hl.sizes, hl.counts, hl.chain, hl.blocks, hl.small, hl.roomy, hl.cut⟩
  | write m =>
    obtain ⟨rfl, rfl⟩ := Prod.mk.inj (Option.some.inj he)
    exact ⟨objs, h.respects (Respects.mono ha hsub), hlive, fun _ hl => hl⟩

/-! ## The destructor -/

/-- The loop destroys the objects of the list, in order. -/
theorem destroyObjects_spec {dtor : Nat → Mem → Mem} (hlaid : Laid T blocks objs)
    (hd : ∀ p ∈ objs, ∀ m, Respects T blocks objs m (dtor p m)) :
    ∀ {xs : List Nat} {b obj : Nat} {m : Mem},
      (∀ p ∈ xs, p ∈ objs) → Linked (next T m) (prev T m) 0 b obj xs →
      ∃ m', destroyObjects T dtor m obj = some (xs, m') ∧ Respects T blocks objs m m'
  | [], b, obj, m, _, hl => by
    obtain rfl : obj = 0 := hl
    exact ⟨m, by rw [destroyObjects, if_pos rfl], fun x _ _ => rfl⟩
  | x :: xs, b, obj, m, hsub, hl => by
    obtain ⟨rfl, hne, -, hl⟩ := hl
    have hx := hsub obj List.mem_cons_self
    have hxs : ∀ p ∈ xs, p ∈ objs := fun p hp => hsub p (List.mem_cons_of_mem obj hp)
    have hresp := hd obj hx m
    have hlinks : ∀ p ∈ objs, next T (dtor obj m) p = next T m p ∧
        prev T (dtor obj m) p = prev T m p :=
      fun p hp => hlaid.links_respected hresp hp
    have hl' := hl.congr (fun p hp => (hlinks p (hxs p hp)).1) fun p hp => (hlinks p (hxs p hp)).2
    obtain ⟨m', hrest, hr⟩ := destroyObjects_spec hlaid hd hxs hl'
    rw [← (hlinks obj hx).1] at hrest
    refine ⟨m', ?_, hresp.trans hr⟩
    rw [destroyObjects, if_neg hne]
    simp [hrest]

theorem Inv.destruct_spec (h : Inv T s objs) {dtor : Nat → Mem → Mem} {release : Mem → Region → Mem}
    (hd : ∀ p ∈ objs, ∀ m, Respects T s.pool.obtained objs m (dtor p m))
    (hr : ∀ m r, Outside [r] m (release m r)) :
    s.destruct T dtor release = some (objs, s.pool.obtained.map Region.base) := by
  obtain ⟨m, hrun, hresp⟩ := destroyObjects_spec h.laid hd (fun p hp => hp) h.list
  obtain ⟨⟨l, hl⟩, -, -⟩ := h.respects hresp
  have hblocks := Pool.destroyLoop_spec hr hl.blocks hl.chain
  simp only [destruct, Option.bind_eq_bind, hrun, Option.bind_some]
  rw [Pool.destroy, hblocks]
  rfl

/-! ## Runs -/

/-- What can succeed does. -/
theorem Inv.progress {w : World} {op : Op} (h : Inv T w.pool w.live) (ha : op.Allowed T w)
    (hok : op.Succeeds T w) :
    ∃ w', Step T w op w' := by
  suffices ∃ w', w.exec T op = some (w', true) by
    obtain ⟨w', he⟩ := this
    exact ⟨w', ha, he⟩
  cases op with
  | construct ua ctor =>
    obtain ⟨⟨pool, p, hm, hp⟩, hctor⟩ := hok
    obtain ⟨s, hs⟩ : ∃ s, w.pool.malloc T ua = some (s, p) := by simp [malloc, hm, guard, hp]
    have hc := hctor s p hs
    exact ⟨⟨s.withMem (ctor p s.mem).1, p :: w.live⟩, by simp [World.exec, construct, hs, hc]⟩
  | destroy dtor p =>
    obtain ⟨s', hs, -⟩ := h.destroy_spec ha.1 ha.2
    exact ⟨⟨s', w.live.erase p⟩, by simp [World.exec, hs]⟩
  | setNextSize n =>
    have hn : n ≠ 0 := ha
    exact ⟨⟨{ w.pool with pool.nextSize := n }, w.live⟩,
      by simp [World.exec, setNextSize, Pool.setNextSize, guard, hn]⟩
  | write m => exact ⟨_, rfl⟩

theorem inv_run {ops : List Op} {w : World} (h0 : new T m = some s)
    (h : Run (Step T) ⟨s, []⟩ ops w) : Inv T w.pool w.live := by
  refine h.invariant (I := fun w => Inv T w.pool w.live) (inv_new h0) ?_
  intro t op u hi ⟨ha, he⟩
  obtain ⟨objs, hi', -, hl⟩ := hi.exec_spec (.refl _) ha he
  rw [hl rfl rfl]
  exact hi'

/-- **The list of the pool is the list of the live objects, and the destructor destroys these.** -/
theorem objList_live {ops : List Op} {w : World} (h0 : new T m = some s)
    (h : Run (Step T) ⟨s, []⟩ ops w) :
    ListOf T w.pool w.live ∧ w.live.Nodup ∧
    (∀ op : Op, op.Allowed T w → op.Succeeds T w → ∃ w', Step T w op w') ∧
      ∀ dtor release, (∀ p ∈ w.live, ∀ m, Respects T w.pool.pool.obtained w.live m (dtor p m)) →
        (∀ m r, Outside [r] m (release m r)) →
        ∃ blocks, w.pool.destruct T dtor release = some (w.live, blocks) := by
  have hi := inv_run h0 h
  refine ⟨hi.list, hi.laid.nodup, fun op ha hok => hi.progress ha hok, fun dtor release hd hr => ?_⟩
  exact ⟨_, hi.destruct_spec hd hr⟩

/-- Objects of 8 bytes, with chunks of 24. -/
def word : ElementType := ⟨⟨8, 8⟩, by decide, ⟨3, rfl⟩, by decide⟩

/-- A new pool of them. -/
def freshWords : ObjectPool := ⟨⟨24, 24, 32, ⟨0, 0⟩, ⟨fun _ => 0, 0⟩, []⟩, 0⟩

theorem freshWords_asksAt : freshWords.pool.AsksAt 24 0 := by
  refine ⟨?_, by simp⟩
  rw [Pool.target_eq (by unfold Pool.sizeofBlockInfo addressSpace; omega)]
  show 24 + 32 ≤ 768
  omega

theorem freshWords_offers : freshWords.pool.Offers (fun _ => 4096) 24 := by
  intro k hk _
  obtain rfl := hk.unique freshWords_asksAt
  exact ⟨show 4096 + 768 < addressSpace by decide, by simp [freshWords]⟩

/-- The user allocator has memory, and the pool hands out a chunk of it. -/
theorem freshWords_served :
    ∃ pool p, freshWords.pool.malloc (fun _ => 4096) = some (pool, p) ∧ p ≠ 0 := by
  have hi : Inv word freshWords [] := inv_new (T := word) (m := fun _ => 0) rfl
  obtain ⟨l, hl⟩ := hi.pool
  obtain ⟨hone, hfit⟩ := hi.sizes_fit
  exact hl.malloc_served hone hfit rfl freshWords_asksAt (freshWords_offers 0 freshWords_asksAt)
    (by decide)

/-- One object is constructed and destroyed, and another one takes its place. -/
theorem second_object_live : new word (fun _ => 0) = some freshWords ∧
    ∃ p w, Run (Step word) ⟨freshWords, []⟩ ([.construct (fun _ => 4096) fun _ m => (m, true)] ++
        [.destroy (fun _ m => m) p] ++ [.construct (fun _ => 0) fun _ m => (m, true)]) w ∧
      ListOf word w.pool w.live ∧ w.live.Nodup ∧
      ∃ blocks, w.pool.destruct word (fun _ m => m) (fun m _ => m) = some (w.live, blocks) := by
  have hi₀ : Inv word freshWords [] := inv_new (T := word) (m := fun _ => 0) rfl
  have ha : Op.Allowed word ⟨freshWords, []⟩ (.construct (fun _ => 4096) fun _ m => (m, true)) :=
    ⟨fun _ => freshWords_offers, fun _ _ _ _ _ _ => rfl⟩
  obtain ⟨w₁, h₁⟩ := hi₀.progress ha ⟨freshWords_served, fun _ _ _ => rfl⟩
  have hr₁ := Run.single h₁
  have hi₁ := inv_run rfl hr₁
  have hlive₁ : ∃ p, w₁.live = [p] := by
    obtain ⟨⟨s, r⟩, -, hw⟩ := Option.map_eq_some_iff.mp h₁.2
    obtain ⟨rfl, hr⟩ := Prod.mk.inj hw
    obtain ⟨p, rfl⟩ := Option.isSome_iff_exists.mp hr
    exact ⟨p, rfl⟩
  obtain ⟨p, hp⟩ := hlive₁
  have hmem : p ∈ w₁.live := by simp [hp]
  obtain ⟨w₂, h₂⟩ :=
    hi₁.progress (show Op.Allowed word w₁ (.destroy (fun _ m => m) p)
      from ⟨hmem, fun _ _ _ => rfl⟩) trivial
  have hr₂ := hr₁.snoc h₂
  obtain ⟨s₂, hs₂, hw₂⟩ := Option.map_eq_some_iff.mp h₂.2
  have hready : w₂.pool.pool.storage.empty = false := by
    obtain ⟨rfl, -⟩ := Prod.mk.inj hw₂
    exact destroy_ready hs₂
  obtain ⟨l, hl⟩ := (inv_run rfl hr₂).pool
  obtain ⟨st, q, l', hrun, hq, -⟩ := hl.mallocFromStorage_spec hready
  have hserved :
      w₂.pool.pool.malloc (fun _ => 0) = some ({ w₂.pool.pool with storage := st }, q) := by
    rw [Pool.malloc, Pool.mallocOne, hready]
    exact hrun
  obtain ⟨w₃, h₃⟩ := (inv_run rfl hr₂).progress
    (show Op.Allowed word w₂ (.construct (fun _ => 0) fun _ m => (m, true)) from
      ⟨fun he => (Bool.false_ne_true (hready.symm.trans he)).elim, fun _ _ _ _ _ _ => rfl⟩)
    ⟨⟨_, q, hserved, hq⟩, fun _ _ _ => rfl⟩
  have hr₃ := hr₂.snoc h₃
  obtain ⟨hlist, hnd, -, hdestruct⟩ := objList_live rfl hr₃
  exact ⟨rfl, p, w₃, hr₃, hlist, hnd, hdestruct _ _ (fun _ _ _ _ _ _ => rfl) fun _ _ _ _ => rfl⟩
end

end Gpcl.ObjectPool
