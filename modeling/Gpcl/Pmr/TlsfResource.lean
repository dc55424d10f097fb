import Gpcl.Pmr.ResourcePool
import Gpcl.Tlsf.Interface

/-! # tlsf_resource

A `memory_resource` over tlsf. When tlsf has no block it asks upstream for another pool, twice as
large as the one before, and tries again. A pool of more than 2³² bytes is refused, and tlsf never
looks for a block of no bytes or of more than `searchMax`, so the loop ends well for no request of
that kind. -/
namespace Gpcl.Pmr
open Lib.Memory Tlsf

/-- `poolList` is what upstream has handed out, the last one first. `buffer`, which the user has
provided, is not a member of the class: its memory is taken as well. -/
structure TlsfResource where
  tlsf : Control
  poolList : List Region
  nextRequestSize : Nat
  buffer : List Region

namespace TlsfResource

def sizeofPoolBase : Nat := 16
def alignofPoolBase : Nat := 8

def memory (s : TlsfResource) : List Region := s.poolList ++ s.buffer

/-- What upstream answers may depend on the memory that is taken. -/
abbrev Source := List Region → Upstream

/-- An inner `none`: an exception. The assertion is in `memory_resource::allocate`. -/
def requestNewBuffer (s : TlsfResource) (up : Source) (bytes : Nat) :
    Option (TlsfResource × Option Nat) :=
  match up s.memory bytes alignofPoolBase with
  | none => some (s, none)
  | some base => do
    guard (base % alignofPoolBase = 0)
    if base = 0 then pure (s, none)
    else pure ({ s with poolList := ⟨base, bytes⟩ :: s.poolList }, some (base + sizeofPoolBase))

def allocFromBuffer (s : TlsfResource) (bytes alignment : Nat) : Option (TlsfResource × Nat) := do
  let (tlsf, ret) ← s.tlsf.memalign alignment bytes
  pure ({ s with tlsf }, ret)

/-- `false`: an exception. -/
def requestFromUpstream (s : TlsfResource) (up : Source) : Option (TlsfResource × Bool) := do
  let (s, mem) ← s.requestNewBuffer up s.nextRequestSize
  match mem with
  | none => pure (s, false)
  | some mem => do
    let (tlsf, pool) ←
      s.tlsf.addPool mem ((s.nextRequestSize + (addressSpace - sizeofPoolBase)) % addressSpace)
    -- `GPCL_FATAL`
    guard (pool ≠ 0)
    pure ({ s with tlsf, nextRequestSize := s.nextRequestSize * 2 % addressSpace }, true)

/-- An inner `none`: an exception. -/
def doAllocate (s : TlsfResource) (up : Source) (bytes alignment : Nat) :
    Option (TlsfResource × Option Nat) := do
  let (s, ret) ← s.allocFromBuffer bytes alignment
  if ret ≠ 0 then pure (s, some ret)
  else do
    let (s, ok) ← s.requestFromUpstream up
    if ok then s |>.doAllocate up bytes alignment else pure (s, none)
partial_fixpoint

def doDeallocate (s : TlsfResource) (p : Nat) : Option TlsfResource := do
  let tlsf ← s.tlsf.free p
  pure { s with tlsf }

/-- The constructor from a user-provided buffer. An inner `none`: an exception. -/
def ofBuffer (buffer size : Nat) : Option (Option TlsfResource) := do
  guard (size > sizeofControl)
  match ← Control.createWithPool buffer size with
  | none => pure none
  | some tlsf =>
    pure (some { tlsf, poolList := [], nextRequestSize := 8152, buffer := [⟨buffer, size⟩] })

/-- The constructor from the size of the first block; the other one has 8152 for it. Nothing can be
written to a block whose size has wrapped. -/
def ofInitialBuffer (up : Source) (initialBuffer : Nat) : Option (Option TlsfResource) := do
  let bytes := (initialBuffer + sizeofControl + sizeofPoolBase) % addressSpace
  let (s, mem) ←
    requestNewBuffer { tlsf := Control.construct, poolList := [], nextRequestSize := 8152,
                       buffer := [] } up bytes
  match mem with
  | none => pure none
  | some mem => do
    guard (sizeofControl + sizeofPoolBase ≤ bytes)
    match Control.create mem with
    | none => pure none
    | some tlsf => pure (some { s with tlsf })

/-! ## Reachable resources -/

/-- What upstream hands out is not taken. -/
def Honest (up : Source) : Prop := ∀ taken, ResourcePool.Honest (up taken) taken

/-- After constructors and calls, each with an upstream of its own. What is deallocated has been
allocated. -/
inductive Reachable : TlsfResource → Prop
  | ofBuffer {buffer size : Nat} {s : TlsfResource} (hspace : buffer + size < addressSpace)
      (h : ofBuffer buffer size = some (some s)) : Reachable s
  | ofInitialBuffer {up : Source} {initialBuffer : Nat} {s : TlsfResource} (hup : Honest up)
      (h : ofInitialBuffer up initialBuffer = some (some s)) : Reachable s
  | doAllocate {s s' : TlsfResource} {up : Source} {bytes k : Nat} {ret : Option Nat}
    (hs : Reachable s) (hup : Honest up)
      (hbytes : bytes < addressSpace) (hk : k < 64)
        (h : s.doAllocate up bytes (2 ^ k) = some (s', ret)) : Reachable s'
  | doDeallocate {s s' : TlsfResource} {p : Nat} (hs : Reachable s) (hp : InUse s.tlsf p)
      (h : s.doDeallocate p = some s') : Reachable s'

/-- The sizes of the requests, from the first one on. -/
def requestSize (k : Nat) : Nat := 8152 * 2 ^ k

/-- The pools are in the memory that is taken. -/
structure Inv (s : TlsfResource) (k : Nat) : Prop where
  sound : ∃ pools, Sound pools s.tlsf [] ∧ ∀ r ∈ pools, ∃ r' ∈ s.memory, r.Inside r'
  next : s.nextRequestSize = requestSize k
  bound : k ≤ 20

variable {s s' : TlsfResource} {up : Source} {bytes base k i : Nat} {ret : Option Nat}

theorem requestSize_le (h : k ≤ i) : requestSize k ≤ requestSize i :=
  Nat.mul_le_mul_left _ (Nat.pow_le_pow_right (by decide) h)

theorem requestSize_lt_iff : requestSize k < requestSize i ↔ k < i := by
  unfold requestSize
  rw [Nat.mul_lt_mul_left (by decide), Nat.pow_lt_pow_iff_right (by decide)]

theorem requestSize_double (k : Nat) : requestSize k * 2 = requestSize (k + 1) := by
  rw [requestSize, requestSize, Nat.pow_succ, Nat.mul_assoc]

theorem dvd_requestSize (k : Nat) : 8 ∣ requestSize k := Nat.dvd_mul_right_of_dvd (by decide) _

/-! ## A request to upstream -/

/-- The block of the pool that a request becomes. -/
theorem poolBytes_request (hk : k ≤ 20) :
    (requestSize k + (addressSpace - sizeofPoolBase)) % addressSpace = requestSize k - 16 ∧
      Control.poolBytes (requestSize k - 16) = requestSize k - 32 := by
  have hle := requestSize_le hk
  have hge := requestSize_le (Nat.zero_le k)
  have h8 := dvd_requestSize k
  have hmax : requestSize 20 = 8547991552 := rfl
  have hmin : requestSize 0 = 8152 := rfl
  have hspace : (8547991552 : Nat) < addressSpace := by decide
  have hbytes : requestSize k - 16 < addressSpace := by omega
  obtain ⟨-, heq, -⟩ := poolBytes_spec hbytes
  constructor
  · rw [show requestSize k + (addressSpace - sizeofPoolBase) =
      requestSize k - 16 + addressSpace by unfold sizeofPoolBase; omega,
      Nat.add_mod_right, Nat.mod_eq_of_lt hbytes]
  · rw [heq (by omega)]
    omega

theorem mem_aligned (h : base % alignofPoolBase = 0) : 8 ∣ base + sizeofPoolBase := by
  unfold alignofPoolBase at h
  unfold sizeofPoolBase
  omega

/-- The list for the largest pool that is added is the last one. -/
theorem mappingInsert_last : mappingInsert (requestSize 19 - 32) = (24, 31) := by
  have hlog : (requestSize 19 - 32).log2 = 31 :=
    (Nat.log2_eq_iff (by decide)).mpr ⟨by decide, by decide⟩
  have hlarge : smallBlockSize ≤ requestSize 19 - 32 := by decide
  rw [mappingInsert_large hlarge, hlog]
  decide

/-- A free block in the last list is found for every size that is looked for. -/
theorem locates_of_last {c : Control} {size : Nat} (hne : size ≠ 0) (hmax : size ≤ searchMax)
    (h : c.blocks 24 31 ≠ []) :
    Locates c size := by
  have hlt : size < blockSizeMax := Nat.lt_of_le_of_lt hmax (by decide)
  have hfl := (mappingSearch_fl_lt hlt).mpr hmax
  have hsl := mappingSearch_sl_lt size
  unfold flIndexCount at hfl
  unfold slIndexCount at hsl
  refine ⟨hne, hmax, 24, 31, ?_, h⟩
  unfold ClassLe
  omega

theorem requestNewBuffer_granted (hbase : up s.memory bytes alignofPoolBase = some base)
    (hne : base ≠ 0) (halign : base % alignofPoolBase = 0) : s.requestNewBuffer up bytes =
      some ({ s with poolList := ⟨base, bytes⟩ :: s.poolList }, some (base + sizeofPoolBase)) := by
  rw [requestNewBuffer, hbase]
  dsimp only
  rw [guard, if_pos halign, if_neg hne]
  rfl

/-- A request that is granted adds a pool, unless it is the last one. -/
theorem Inv.request (h : Inv s k) (hk : k < 20) (hup : Honest up)
    (hbase : up s.memory s.nextRequestSize alignofPoolBase = some base) (hne : base ≠ 0)
    (halign : base % alignofPoolBase = 0) :
    ∃ c', s.requestFromUpstream up =
      some (⟨c', ⟨base, requestSize k⟩ :: s.poolList, requestSize (k + 1), s.buffer⟩, true) ∧
      Inv ⟨c', ⟨base, requestSize k⟩ :: s.poolList, requestSize (k + 1), s.buffer⟩ (k + 1) ∧
      c'.blocks (mappingInsert (requestSize k - 32)).1 (mappingInsert (requestSize k - 32)).2 ≠
        [] := by
  obtain ⟨pools, hsound, hinside⟩ := h.sound
  obtain ⟨hspace, hfresh⟩ := hup s.memory _ _ _ hbase hne
  obtain ⟨hbytes, hpool⟩ := poolBytes_request h.bound
  rw [h.next] at hspace hfresh
  have h8 := dvd_requestSize k
  have hmin : 8152 ≤ requestSize k := requestSize_le (Nat.zero_le k)
  have hmax : requestSize k ≤ 4273995776 := requestSize_le (show k ≤ 19 by omega)
  have hin :
      Region.Inside ⟨base + sizeofPoolBase, requestSize k - 32 + 16⟩ ⟨base, requestSize k⟩ := by
    unfold Region.Inside Region.stop sizeofPoolBase
    dsimp only
    omega
  obtain ⟨c', hadd, hsound', hlisted⟩ :=
    hsound.addPool (mem_aligned halign) hpool (show 8 ∣ requestSize k - 32 by omega) (by omega)
    (Nat.lt_of_le_of_lt (Nat.sub_le ..) (Nat.lt_of_le_of_lt hmax (by decide)))
        (by unfold sizeofPoolBase; omega) fun r hr => by
      obtain ⟨r', hr', hsub⟩ := hinside r hr
      exact (hfresh r' hr').mono hin hsub
  have hdouble : s.nextRequestSize * 2 % addressSpace = requestSize (k + 1) := by
    rw [h.next, requestSize_double, Nat.mod_eq_of_lt]
    exact Nat.lt_of_le_of_lt (requestSize_le (show k + 1 ≤ 20 by omega)) (by decide)
  refine ⟨c', ?_, ⟨⟨_, hsound', ?_⟩, rfl, by omega⟩, hlisted⟩
  · have hmem : base + sizeofPoolBase ≠ 0 := by omega
    simp only [requestFromUpstream, requestNewBuffer_granted hbase hne halign, Option.bind_eq_bind,
      Option.bind_some]
    rw [h.next, hbytes, hadd, Option.bind_some]
    dsimp only
    rw [guard, if_pos hmem, ← h.next, hdouble]
    rfl
  · intro r hr
    obtain rfl | hr := List.mem_cons.mp hr
    · exact ⟨_, List.mem_cons_self, hin⟩
    · obtain ⟨r', hr', hsub⟩ := hinside r hr
      exact ⟨r', List.mem_cons_of_mem _ hr', hsub⟩

/-- The pool of the last request is refused. -/
theorem Inv.last_request (h : Inv s 20)
    (hbase : up s.memory s.nextRequestSize alignofPoolBase = some base) (hne : base ≠ 0)
    (halign : base % alignofPoolBase = 0) : s.requestFromUpstream up = none := by
  obtain ⟨hbytes, hpool⟩ := poolBytes_request (Nat.le_refl 20)
  have hmod : ¬ (base + sizeofPoolBase) % alignSize ≠ 0 :=
    not_not_intro (Nat.mod_eq_zero_of_dvd (mem_aligned halign))
  have hrange : ¬ (blockSizeMin ≤ requestSize 20 - 32 ∧ requestSize 20 - 32 ≤ blockSizeMax) := by
    decide
  simp only [requestFromUpstream, requestNewBuffer_granted hbase hne halign, Option.bind_eq_bind,
    Option.bind_some]
  rw [h.next, hbytes, Control.addPool, if_neg hmod, hpool, guard, if_neg hrange]
  rfl

end TlsfResource

end Gpcl.Pmr
