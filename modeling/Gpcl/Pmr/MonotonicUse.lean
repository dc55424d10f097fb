import Mathlib.Data.List.Pairwise
import Gpcl.Lib.Chain
import Gpcl.Lib.Runs
import Gpcl.Pmr.Monotonic

/-! # A monotonic_buffer_resource in use

A `World` is at most one resource, the buffer its user provided and the allocations
its clients hold. `Inv` holds as long as no `release` leaves a window behind: the
window lies in the newest block held, or in the user's buffer while no block is held.
The `block_info` of a block lies behind its usable bytes, where no client writes. -/
namespace Gpcl.Pmr.Monotonic
open Lib.Memory Lib.Chain Lib.Runs

structure World where
  res : Option Monotonic
  user : Region
  live : List Grant

def World.start : World := ⟨none, ⟨0, 0⟩, []⟩

inductive Op
  | ofBuffer (m : Mem) (buffer size : Nat)
  | ofSize (m : Mem) (up : Upstream) (initialBuffer : Nat)
  | allocate (up : Upstream) (bytes alignment : Nat)
  | deallocate (p bytes alignment : Nat)
  | release (give : Mem → Region → Mem)
  | destroy (give : Mem → Region → Mem)
  | write (a : Nat) (v : UInt8)

def region (g : Grant) : Region := ⟨g.ptr, g.bytes⟩

/-- The bytes of a block the resource may hand out. -/
def payload (g : Grant) : Region := ⟨g.ptr, g.bytes - sizeofBlockInfo⟩

/-- The bytes of a block that hold the entry behind it in the chain. -/
def trailer (g : Grant) : Region := ⟨g.bytes - sizeofBlockInfo + g.ptr, sizeofBlockInfo⟩

def info (g : Grant) : BlockInfo := ⟨g.ptr, g.bytes - sizeofBlockInfo, g.alignment⟩

/-- What upstream answers to a request for `bytes`: an exception, or an aligned block of the
address space apart from the user's buffer and from the blocks held. -/
def Answers (user : Region) (held : List Grant) (up : Upstream) (bytes : Nat) : Prop :=
  ∀ p, up bytes maxAlign = some p → 0 < p ∧ p % maxAlign = 0 ∧ p + bytes < addressSpace ∧
    user.Disjoint ⟨p, bytes⟩ ∧ ∀ g ∈ held, (region g).Disjoint ⟨p, bytes⟩

/-- The size of the block that is asked for when `bytes` are allocated. -/
def asked (s : Monotonic) (bytes : Nat) : Nat := growTo s.nextBufferBytes bytes

def Op.Allowed (w : World) : Op → Prop
  | .ofBuffer _ buffer size => w.res = none ∧ 0 < buffer ∧ buffer + size < addressSpace
  | .ofSize _ up initialBuffer => w.res = none ∧ initialBuffer ≠ 0 ∧ initialBuffer < addressSpace ∧
    Answers ⟨0, 0⟩ [] up ((sizeofBlockInfo + initialBuffer) % addressSpace)
  | .allocate up bytes alignment => ∃ s, w.res = some s ∧ 0 < alignment ∧ bytes < addressSpace ∧
    ((s.allocFromBuffer bytes alignment).2 = 0 →
      Answers w.user s.held up ((sizeofBlockInfo + s.asked bytes) % addressSpace))
  | .deallocate p bytes alignment => w.res.isSome ∧ ⟨p, bytes, alignment⟩ ∈ w.live
  | .release give | .destroy give => w.res.isSome ∧ ∀ m r, Outside [r] m (give m r)
  | .write a _ => w.res.isSome ∧ ∃ g ∈ w.live, (region g).Contains a

/-- The allocations held after `allocate` came back with `ret`. -/
def liveAfter (bytes alignment : Nat) (live : List Grant) : Option Nat → List Grant
  | some p => if p = 0 then live else ⟨p, bytes, alignment⟩ :: live
  | none => live

def World.exec (w : World) : Op → Option World
  | .ofBuffer m buffer size => do
    let s ← ofBuffer m buffer size
    pure ⟨some s, ⟨buffer, size⟩, []⟩
  | .ofSize m up initialBuffer => do
    let (s, ok) ← ofSize m up initialBuffer
    pure (if ok then ⟨some s, ⟨0, 0⟩, []⟩ else w)
  | .allocate up bytes alignment => do
    let s ← w.res
    let (s, ret) ← s.allocate up bytes alignment
    pure { w with res := some s, live := liveAfter bytes alignment w.live ret }
  | .deallocate p bytes alignment => do
    let s ← w.res
    let s ← s.deallocate p alignment
    pure { w with res := some s, live := w.live.erase ⟨p, bytes, alignment⟩ }
  | .release give => do
    let s ← w.res
    let (s, _) ← s.release give
    pure { w with res := some s, live := [] }
  | .destroy give => do
    let s ← w.res
    let _ ← s.release give
    pure World.start
  | .write a v => do
    let s ← w.res
    pure { w with res := some { s with mem := Function.update s.mem a v } }

/-- An allowed operation that returns. -/
def Step (w : World) (op : Op) (w' : World) : Prop := op.Allowed w ∧ w.exec op = some w'

/-- No size computation of a request wraps. -/
def Op.Fits (w : World) : Op → Prop
  | .ofSize _ _ initialBuffer => sizeofBlockInfo + initialBuffer < addressSpace
  | .allocate _ bytes alignment => ∀ s, w.res = some s →
    (s.allocFromBuffer bytes alignment).2 = 0 → sizeofBlockInfo + s.asked bytes < addressSpace
  | _ => True

structure Inv (user : Region) (live : List Grant) (s : Monotonic) : Prop where
  placed : user.stop < addressSpace
  next : s.nextBufferBytes < addressSpace
  chain : Path (nextInfo s.mem) ⟨0, 0, 0⟩ s.blockList (s.held.map info) ⟨0, 0, 0⟩
  blocks : ∀ g ∈ s.held, 0 < g.ptr ∧ g.alignment = maxAlign ∧ g.ptr % maxAlign = 0 ∧
    sizeofBlockInfo ≤ g.bytes ∧ g.ptr + g.bytes < addressSpace ∧ user.Disjoint (region g)
  apart : s.held.Pairwise fun g g' => (region g).Disjoint (region g')
  live : ∀ a ∈ live, a.ptr % a.alignment = 0 ∧
    ((region a).Inside user ∨ ∃ g ∈ s.held, (region a).Inside (payload g))
  window : s.buffer.size = 0 ∨ (s.held = [] ∧ s.buffer.Inside user) ∨
    ∃ g held, s.held = g :: held ∧ s.buffer.Inside (payload g)

/-! ## The window -/

theorem advance_inside {b : Region} {n : Nat} :
    (advance b n).size = 0 ∨ (advance b n).Inside b := by
  unfold advance
  split
  · right
    constructor <;> simp only [Region.stop] <;> omega
  · exact .inl rfl

theorem advance_size_le (b : Region) (n : Nat) : (advance b n).size ≤ b.size := by
  unfold advance
  split
  · exact Nat.sub_le _ _
  · exact Nat.zero_le _

theorem Inside.trans {a b c : Region} (h : a.Inside b) (h' : b.Inside c) : a.Inside c :=
  ⟨Nat.le_trans h'.1 h.1, Nat.le_trans h.2 h'.2⟩

theorem align_up (base : Nat) {alignment : Nat} (h : 0 < alignment) :
    (base + (alignment - base % alignment) % alignment) % alignment = 0 := by
  have hlt := Nat.mod_lt base h
  have hsum : base + (alignment - base % alignment) = (base / alignment + 1) * alignment := by
    have := Nat.div_add_mod base alignment
    rw [Nat.succ_mul, Nat.mul_comm]
    omega
  rw [Nat.add_mod_mod, hsum, Nat.mul_mod_left]

section
variable {s : Monotonic} {user : Region} {live : List Grant}

/-- Only the window moves, forward; what is handed out was its front. -/
theorem allocFromBuffer_spec (s : Monotonic) (bytes : Nat) {alignment : Nat} (ha : 0 < alignment) :
    ∃ b p, s.allocFromBuffer bytes alignment = ({ s with buffer := b }, p) ∧
      (b.size = 0 ∨ b.Inside s.buffer) ∧ p % alignment = 0 ∧
      (p ≠ 0 → 0 < s.buffer.size ∧ Region.Inside ⟨p, bytes⟩ s.buffer) := by
  have halign := align_up s.buffer.base ha
  simp only [allocFromBuffer]
  generalize (alignment - s.buffer.base % alignment) % alignment = off at *
  by_cases hoff : off > s.buffer.size
  · rw [if_pos hoff]
    exact ⟨s.buffer, 0, rfl, .inr (.refl _), Nat.zero_mod _, fun h => absurd rfl h⟩
  rw [if_neg hoff]
  by_cases hb : (advance s.buffer off).size < bytes
  · rw [if_pos hb]
    exact ⟨_, 0, rfl, advance_inside, Nat.zero_mod _, fun h => absurd rfl h⟩
  rw [if_neg hb]
  refine ⟨_, _, rfl, ?_, ?_, fun hp => ?_⟩
  · rcases advance_inside (b := advance s.buffer off) (n := bytes) with h | h
    · exact .inl h
    · rcases advance_inside (b := s.buffer) (n := off) with h' | h'
      · exact .inl (Nat.le_zero.mp (h' ▸ advance_size_le _ _))
      · exact .inr (Inside.trans h h')
  · unfold advance
    split
    · exact halign
    · exact Nat.zero_mod _
  · by_cases hlt : s.buffer.size > off
    · rw [advance, if_pos hlt] at hb ⊢
      simp only [Region.Inside, Region.stop] at hb ⊢
      omega
    · rw [advance, if_neg hlt] at hp
      exact absurd rfl hp

/-! ## The chain of blocks -/

theorem trailer_inside {g : Grant} (h : sizeofBlockInfo ≤ g.bytes) :
    (trailer g).Inside (region g) := by
  simp only [Region.Inside, Region.stop, trailer, region]
  omega

theorem payload_inside (g : Grant) : (payload g).Inside (region g) :=
  ⟨Nat.le_refl _, Nat.add_le_add_left (Nat.sub_le _ _) _⟩

theorem trailer_disjoint_payload (g : Grant) : (trailer g).Disjoint (payload g) :=
  Or.inr (Nat.le_of_eq (Nat.add_comm _ _))

/-- The `block_info` of a block that meets none of the changed regions stays as it is. -/
theorem nextInfo_outside {m m' : Mem} {rs : List Region} {g : Grant}
    (hg : g.ptr + g.bytes < addressSpace) (ho : Outside rs m m')
    (hd : ∀ a ∈ rs, (trailer g).Disjoint a) :
    nextInfo m' (info g) = nextInfo m (info g) := by
  have hw : ∀ i, i + wordSize ≤ sizeofBlockInfo →
      loadWord m' (g.bytes - sizeofBlockInfo + g.ptr + i) =
        loadWord m (g.bytes - sizeofBlockInfo + g.ptr + i) :=
    fun i hi => ho.loadWord fun a ha => (hd a ha).mono
      ⟨Nat.le_add_right _ _, by simp only [Region.stop, trailer]; omega⟩ (.refl a)
  have hmod :
      (g.bytes - sizeofBlockInfo + g.ptr) % addressSpace = g.bytes - sizeofBlockInfo + g.ptr :=
    Nat.mod_eq_of_lt (by omega)
  simp only [nextInfo, loadInfo, info, hmod, Nat.add_assoc _ wordSize wordSize]
  have h0 := hw 0 (by decide)
  rw [Nat.add_zero] at h0
  rw [h0, hw wordSize (by decide), hw (wordSize + wordSize) (by decide)]

theorem chain_outside {m m' : Mem} {rs : List Region} {gs : List Grant} {b : BlockInfo}
    (h : Path (nextInfo m) ⟨0, 0, 0⟩ b (gs.map info) ⟨0, 0, 0⟩) (ho : Outside rs m m')
    (hg : ∀ g ∈ gs, g.ptr + g.bytes < addressSpace)
    (hd : ∀ g ∈ gs, ∀ a ∈ rs, (trailer g).Disjoint a) :
    Path (nextInfo m') ⟨0, 0, 0⟩ b (gs.map info) ⟨0, 0, 0⟩ := by
  refine h.congr fun c hc => ?_
  obtain ⟨g, hgm, rfl⟩ := List.mem_map.mp hc
  exact nextInfo_outside (hg g hgm) ho (hd g hgm)

theorem outside_storeInfo (m : Mem) (a : Nat) (b : BlockInfo) :
    Outside [⟨a, sizeofBlockInfo⟩] m (storeInfo m a b) := by
  have hin : ∀ i, i + wordSize ≤ sizeofBlockInfo →
      Region.Inside ⟨a + i, wordSize⟩ ⟨a, sizeofBlockInfo⟩ :=
    fun i hi => ⟨Nat.le_add_right _ _, by simp only [Region.stop]; omega⟩
  refine Outside.trans (Outside.trans (Outside.storeWord ⟨_, List.mem_singleton_self _, ?_⟩)
    (Outside.storeWord ⟨_, List.mem_singleton_self _, ?_⟩))
      (Outside.storeWord ⟨_, List.mem_singleton_self _, ?_⟩)
  · exact hin 0 (by decide)
  · exact hin wordSize (by decide)
  · exact Nat.add_assoc a wordSize wordSize ▸ hin (wordSize + wordSize) (by decide)

theorem loadInfo_storeInfo (m : Mem) (a : Nat) {b : BlockInfo} (hp : b.ptr < addressSpace)
    (hs : b.size < addressSpace) (ha : b.alignment < addressSpace) :
    loadInfo (storeInfo m a b) a = b := by
  have h1 : ∀ m v, loadWord (storeWord m (a + wordSize + wordSize) v) a = loadWord m a := fun m v =>
    loadWord_storeWord_apart (Or.inl (Nat.le_add_right _ _))
  have h2 : ∀ m v,
      loadWord (storeWord m (a + wordSize + wordSize) v) (a + wordSize) =
        loadWord m (a + wordSize) :=
    fun m v => loadWord_storeWord_apart (Or.inl (Nat.le_refl _))
  have h3 : ∀ m v, loadWord (storeWord m (a + wordSize) v) a = loadWord m a := fun m v =>
    loadWord_storeWord_apart (Or.inl (Nat.le_refl _))
  simp only [loadInfo, storeInfo, h1, h2, h3, loadWord_storeWord _ _ hp, loadWord_storeWord _ _ hs,
    loadWord_storeWord _ _ ha]

/-- The entry at the head of the chain is made of machine words. -/
theorem Inv.blockList_lt (h : Inv user live s) : s.blockList.ptr < addressSpace ∧
    s.blockList.size < addressSpace ∧ s.blockList.alignment < addressSpace := by
  have hc := h.chain
  generalize hbs : s.held = gs at hc
  cases gs with
  | nil => rw [show s.blockList = ⟨0, 0, 0⟩ from hc]; decide
  | cons g gs =>
    obtain ⟨-, hal, -, -, hfit, -⟩ := h.blocks g (by simp [hbs])
    rw [show s.blockList = info g from hc.1]
    refine ⟨?_, ?_, ?_⟩
    · exact Nat.lt_of_le_of_lt (Nat.le_add_right _ _) hfit
    · simp only [info]; omega
    · simp only [info, hal]; decide

theorem Inv.trailer_apart (h : Inv user live s) {g g' : Grant} (hg : g ∈ s.held)
    (hg' : g' ∈ s.held) :
    (trailer g).Disjoint (payload g') := by
  by_cases he : g = g'
  · rw [he]; exact trailer_disjoint_payload g'
  · have : Std.Symm fun g g' => (region g).Disjoint (region g') := ⟨fun _ _ => Region.Disjoint.symm⟩
    exact (h.apart.forall hg hg' he).mono (trailer_inside (h.blocks g hg).2.2.2.1)
      (payload_inside g')

/-! ## Methods -/

/-- Moving the window forward keeps the invariant. -/
theorem Inv.moveWindow (h : Inv user live s) {b : Region} (hb : b.size = 0 ∨ b.Inside s.buffer) :
    Inv user live { s with buffer := b } := by
  refine ⟨h.placed, h.next, h.chain, h.blocks, h.apart, h.live, ?_⟩
  rcases hb with hb | hb
  · exact .inl hb
  · rcases h.window with hw | ⟨hh, hw⟩ | ⟨g, held, hh, hw⟩
    · left
      have := hb.1
      have := hb.2
      simp only [Region.stop] at *
      omega
    · exact .inr (.inl ⟨hh, Inside.trans hb hw⟩)
    · exact .inr (.inr ⟨g, held, hh, Inside.trans hb hw⟩)

/-- A block obtained from upstream: it becomes the head of the chain and the window. -/
theorem Inv.request_spec (h : Inv user live s) {up : Upstream}
    (hf : sizeofBlockInfo + s.nextBufferBytes < addressSpace)
    (ha : Answers user s.held up ((sizeofBlockInfo + s.nextBufferBytes) % addressSpace)) :
    s.requestFromUpstream up = some (s, false) ∨
      ∃ s', s.requestFromUpstream up = some (s', true) ∧ Inv user live s' := by
  have hmod :
      (sizeofBlockInfo + s.nextBufferBytes) % addressSpace = sizeofBlockInfo + s.nextBufferBytes :=
    Nat.mod_eq_of_lt hf
  rw [hmod] at ha
  cases hup : up (sizeofBlockInfo + s.nextBufferBytes) maxAlign with
  | none => left; simp [requestFromUpstream, hmod, hup]
  | some p =>
    right
    obtain ⟨hp, hal, hfit, hu, hd⟩ := ha p hup
    have hmod' : (s.nextBufferBytes + p) % addressSpace = s.nextBufferBytes + p :=
      Nat.mod_eq_of_lt (by omega)
    have hsize : sizeofBlockInfo + s.nextBufferBytes - sizeofBlockInfo = s.nextBufferBytes :=
      Nat.add_sub_cancel_left _ _
    refine ⟨_, by simp only [requestFromUpstream, hmod, hmod', hup]; simp [guard, hal]; rfl, ?_⟩
    generalize hg : (⟨p, sizeofBlockInfo + s.nextBufferBytes, maxAlign⟩ : Grant) = g at *
    have hinfo : info g = ⟨p, s.nextBufferBytes, maxAlign⟩ := by rw [← hg, info, hsize]
    have htrail : trailer g = ⟨s.nextBufferBytes + p, sizeofBlockInfo⟩ := by
      rw [← hg, trailer, hsize]
    have hreg : region g = ⟨p, sizeofBlockInfo + s.nextBufferBytes⟩ := by rw [← hg, region]
    have hpay : payload g = ⟨p, s.nextBufferBytes⟩ := by rw [← hg, payload, hsize]
    have hzero : sizeofBlockInfo ≤ g.bytes := by rw [← hg]; exact Nat.le_add_right _ _
    constructor
    case placed => exact h.placed
    case next => exact mod_addressSpace_lt _
    case chain =>
      refine ⟨hinfo.symm,
        fun he => Nat.ne_of_gt hp (congrArg BlockInfo.ptr (hinfo.symm.trans he)), ?_⟩
      have hnext :
          nextInfo (storeInfo s.mem (s.nextBufferBytes + p) s.blockList) (info g) =
            s.blockList := by
        obtain ⟨h1, h2, h3⟩ := h.blockList_lt
        rw [hinfo, nextInfo, hmod', loadInfo_storeInfo _ _ h1 h2 h3]
      rw [hnext]
      refine chain_outside h.chain (outside_storeInfo _ _ _)
        (fun g' hg' => (h.blocks g' hg').2.2.2.2.1) ?_
      intro g' hg' a ha'
      rw [List.mem_singleton.mp ha', ← htrail]
      refine (hd g' hg').mono (trailer_inside (h.blocks g' hg').2.2.2.1) ?_
      rw [← hreg]
      exact trailer_inside hzero
    case blocks =>
      intro g' hg'
      rcases List.mem_cons.mp hg' with rfl | hg'
      · rw [hreg]
        rw [← hg] at hzero ⊢
        exact ⟨hp, rfl, hal, hzero, hfit, hu⟩
      · exact h.blocks g' hg'
    case apart =>
      refine List.pairwise_cons.mpr ⟨fun g' hg' => ?_, h.apart⟩
      rw [hreg]
      exact (hd g' hg').symm
    case live =>
      intro a ha'
      obtain ⟨hal', hi | ⟨g', hg', hi⟩⟩ := h.live a ha'
      · exact ⟨hal', .inl hi⟩
      · exact ⟨hal', .inr ⟨g', List.mem_cons_of_mem _ hg', hi⟩⟩
    case window => exact .inr (.inr ⟨g, s.held, rfl, hpay ▸ .refl _⟩)

theorem Inv.setNext (h : Inv user live s) {n : Nat} (hn : n < addressSpace) :
    Inv user live { s with nextBufferBytes := n } :=
  ⟨h.placed, hn, h.chain, h.blocks, h.apart, h.live, h.window⟩

theorem growTo_lt {n : Nat} (bytes : Nat) (h : n < addressSpace) :
    growTo n bytes < addressSpace := by
  unfold growTo
  split
  · exact Nat.lt_of_le_of_lt (Nat.div_mul_le_self _ _) (mod_addressSpace_lt _)
  · exact h

/-- What comes from the window lies in the user's buffer or in a block. -/
theorem Inv.cons_live (h : Inv user live s) {a : Grant} (hal : a.ptr % a.alignment = 0)
    (hs : 0 < s.buffer.size) (ha : (region a).Inside s.buffer) : Inv user (a :: live) s := by
  refine ⟨h.placed, h.next, h.chain, h.blocks, h.apart, fun a' ha' => ?_, h.window⟩
  rcases List.mem_cons.mp ha' with rfl | ha'
  · rcases h.window with hw | ⟨-, hw⟩ | ⟨g, held, hh, hw⟩
    · omega
    · exact ⟨hal, .inl (Inside.trans ha hw)⟩
    · exact ⟨hal, .inr ⟨g, by simp [hh], Inside.trans ha hw⟩⟩
  · exact h.live a' ha'

/-- An allocation from the window that may fail with a null pointer. -/
theorem Inv.allocFromBuffer_inv (h : Inv user live s) (bytes : Nat) {alignment : Nat}
    (ha : 0 < alignment) :
    ∃ s' p, s.allocFromBuffer bytes alignment = (s', p) ∧ p % alignment = 0 ∧
      s'.nextBufferBytes = s.nextBufferBytes ∧ s'.held = s.held ∧
      Inv user (liveAfter bytes alignment live (some p)) s' := by
  obtain ⟨b, p, hrun, hb, hal, hp⟩ := s.allocFromBuffer_spec bytes ha
  refine ⟨_, p, hrun, hal, rfl, rfl, ?_⟩
  by_cases h0 : p = 0
  · rw [liveAfter, if_pos h0]
    exact h.moveWindow hb
  · rw [liveAfter, if_neg h0]
    exact (h.cons_live (a := ⟨p, bytes, alignment⟩) hal (hp h0).1 (hp h0).2).moveWindow hb

theorem Inv.allocate_spec (h : Inv user live s) {up : Upstream} {bytes alignment : Nat}
    (hal : 0 < alignment) (hf : (s.allocFromBuffer bytes alignment).2 = 0 →
      sizeofBlockInfo + s.asked bytes < addressSpace)
    (ha : (s.allocFromBuffer bytes alignment).2 = 0 →
      Answers user s.held up ((sizeofBlockInfo + s.asked bytes) % addressSpace)) :
    ∃ s' ret, s.allocate up bytes alignment = some (s', ret) ∧
      Inv user (liveAfter bytes alignment live ret) s' := by
  obtain ⟨s₁, p₁, hrun₁, hm₁, hn₁, hh₁, hi₁⟩ := h.allocFromBuffer_inv bytes hal
  rw [hrun₁] at hf ha
  by_cases hp : p₁ = 0
  · obtain rfl := hp
    have hi₂ := hi₁.setNext (growTo_lt bytes hi₁.next)
    rw [hn₁] at hi₂
    have hask := ha rfl
    rw [← hh₁] at hask
    rcases hi₂.request_spec (hf rfl) hask with hreq | ⟨s₃, hreq, hi₃⟩
    · refine ⟨_, none, ?_, hi₂⟩
      simp only [allocate, doAllocate, hrun₁]
      simp [hn₁, hreq]
    · obtain ⟨s₄, p₄, hrun₄, hm₄, -, -, hi₄⟩ := hi₃.allocFromBuffer_inv bytes hal
      refine ⟨s₄, some p₄, ?_, hi₄⟩
      simp only [allocate, doAllocate, hrun₁]
      simp [hn₁, hreq, hrun₄, hm₄]
  · refine ⟨s₁, some p₁, ?_, hi₁⟩
    simp only [allocate, doAllocate, hrun₁]
    simp [hp, hm₁]

/-- The loop of `release` gives back the blocks of its chain, newest first. -/
theorem releaseLoop_spec {give : Mem → Region → Mem} (hr : ∀ m r, Outside [r] m (give m r)) :
    ∀ {gs : List Grant} {m : Mem} {b : BlockInfo},
      (∀ g ∈ gs, 0 < g.ptr ∧ g.alignment = maxAlign ∧ g.ptr % maxAlign = 0 ∧
        sizeofBlockInfo ≤ g.bytes ∧ g.ptr + g.bytes < addressSpace) →
      gs.Pairwise (fun g g' => (region g).Disjoint (region g')) →
      Path (nextInfo m) ⟨0, 0, 0⟩ b (gs.map info) ⟨0, 0, 0⟩ →
      ∃ m', releaseLoop give m b = some (gs, m', ⟨0, 0, 0⟩)
  | [], m, b, _, _, hp => by
    obtain rfl : b = ⟨0, 0, 0⟩ := hp
    exact ⟨m, by rw [releaseLoop, if_pos rfl]⟩
  | g :: gs, m, b, hb, hd, hp => by
    obtain ⟨he, -, hp⟩ := hp
    obtain ⟨hpos, hal, hmod, hsz, hfit⟩ := hb g List.mem_cons_self
    obtain ⟨hd1, hd2⟩ := List.pairwise_cons.mp hd
    have hb' : ∀ g' ∈ gs, _ := fun g' hg' => hb g' (List.mem_cons_of_mem _ hg')
    have hbytes : (sizeofBlockInfo + (info g).size) % addressSpace = g.bytes := by
      simp only [info]
      rw [Nat.add_sub_cancel' hsz, Nat.mod_eq_of_lt (by omega)]
    -- the entries still to be read lie outside the block given back
    have hp' := chain_outside hp (hr m (region g)) (fun g' hg' => (hb' g' hg').2.2.2.2)
        fun g' hg' a ha => by
      rw [List.mem_singleton.mp ha]
      exact ((hd1 g' hg').mono (.refl _) (trailer_inside (hb' g' hg').2.2.2.1)).symm
    obtain ⟨m', hrest⟩ := releaseLoop_spec hr hb' hd2 hp'
    have hb'' : b = info g := he
    subst hb''
    refine ⟨m', ?_⟩
    rw [releaseLoop, if_neg (show (info g).ptr ≠ 0 from Nat.ne_of_gt hpos)]
    have hguard : (info g).ptr % (info g).alignment = 0 := by simp only [info, hal, hmod]
    have hrest' : releaseLoop give (give m ⟨(info g).ptr, g.bytes⟩) (nextInfo m (info g)) =
        some (gs, m', ⟨0, 0, 0⟩) := hrest
    simp [hbytes, hguard, hrest']
    rfl

theorem diff_self (gs : List Grant) : gs.diff gs = [] := by
  induction gs with
  | nil => rfl
  | cons g gs ih => rw [List.diff_cons, List.erase_cons_head, ih]

/-- `release` gives back every block held. -/
theorem Inv.release_spec (h : Inv user live s) {give : Mem → Region → Mem}
    (hr : ∀ m r, Outside [r] m (give m r)) :
    ∃ m, s.release give = some
      ({ s with mem := m, blockList := ⟨0, 0, 0⟩, held := [] }, s.held) := by
  obtain ⟨m, hloop⟩ := releaseLoop_spec hr (fun g hg => by
    obtain ⟨h1, h2, h3, h4, h5, -⟩ := h.blocks g hg
    exact ⟨h1, h2, h3, h4, h5⟩) h.apart h.chain
  exact ⟨m, by simp [release, hloop, diff_self]⟩

/-! ## Operations -/

/-- The window lies in the user's buffer or in a block that is held. -/
def WindowHeld (w : World) : Prop := ∀ s, w.res = some s → s.buffer.size = 0 ∨
  s.buffer.Inside w.user ∨ ∃ g ∈ s.held, s.buffer.Inside (region g)

/-- A `release` with blocks to give back finds no window. -/
def Op.Clean (w : World) : Op → Prop
  | .release _ => ∀ s, w.res = some s → s.held = [] ∨ s.buffer.size = 0
  | _ => True

def World.Inv (w : World) : Prop := ∀ s, w.res = some s → Monotonic.Inv w.user w.live s

theorem World.Inv.windowHeld {w : World} (h : w.Inv) : WindowHeld w := by
  intro s hs
  rcases (h s hs).window with hw | ⟨-, hw⟩ | ⟨g, held, hh, hw⟩
  · exact .inl hw
  · exact .inr (.inl hw)
  · exact .inr (.inr ⟨g, by simp [hh], Inside.trans hw (payload_inside g)⟩)

/-- A client's write meets no `block_info`. -/
theorem Inv.write (h : Inv user live s) {a : Grant} {x : Nat} (v : UInt8) (ha : a ∈ live)
    (hx : (region a).Contains x) : Inv user live { s with mem := Function.update s.mem x v } := by
  refine ⟨h.placed, h.next, ?_, h.blocks, h.apart, h.live, h.window⟩
  have ho : Outside [region a] s.mem (Function.update s.mem x v) := by
    intro y hy
    refine Function.update_of_ne (fun he => hy _ (List.mem_singleton_self _) ?_) _ _
    exact he ▸ hx
  refine chain_outside h.chain ho (fun g hg => (h.blocks g hg).2.2.2.2.1) fun g hg r hr => ?_
  rw [List.mem_singleton.mp hr]
  obtain ⟨-, -, -, hsz, -, hu⟩ := h.blocks g hg
  rcases (h.live a ha).2 with hi | ⟨g', hg', hi⟩
  · exact (hu.mono hi (trailer_inside hsz)).symm
  · exact (h.trailer_apart hg hg').mono (.refl _) hi

/-- A `release` of blocks that leaves a window behind: the window lies in none of the blocks
held. -/
theorem Inv.window_stale (h : Inv user live s) (hh : s.held ≠ []) (hs : s.buffer.size ≠ 0) :
    ¬ s.buffer.Inside user := by
  intro hu
  rcases h.window with hw | ⟨hw, -⟩ | ⟨g, held, he, hw⟩
  · exact hs hw
  · exact hh hw
  · have hd := (h.blocks g (by simp [he])).2.2.2.2.2.mono hu (Inside.trans hw (payload_inside g))
    simp only [Region.Disjoint, Region.stop] at hd
    omega

/-- Every allowed operation without wrapping returns; it keeps the invariant when it is
clean, and leaves a window in a block given back when it is not. -/
theorem World.Inv.exec_spec {w : World} (h : w.Inv) {op : Op} (ha : op.Allowed w) (hf : op.Fits w) :
    ∃ w', w.exec op = some w' ∧ (op.Clean w → w'.Inv) ∧ (¬ op.Clean w → ¬ WindowHeld w') := by
  cases op with
  | ofBuffer m buffer size =>
    obtain ⟨-, hpos, hfit⟩ := ha
    refine ⟨_, by simp [exec, ofBuffer, Nat.ne_of_gt hpos]; rfl, fun _ s hs => ?_,
      fun hn => absurd trivial hn⟩
    obtain rfl := Option.some.inj hs
    exact ⟨hfit, (by decide : 1024 < addressSpace), rfl, by simp, List.Pairwise.nil, by simp,
      .inr (.inl ⟨rfl, .refl _⟩)⟩
  | ofSize m up initialBuffer =>
    obtain ⟨-, hpos, hfit, hans⟩ := ha
    have h0 : Monotonic.Inv ⟨0, 0⟩ [] ⟨⟨0, 0⟩, initialBuffer, ⟨0, 0, 0⟩, m, []⟩ :=
      ⟨by decide, hfit, rfl, by simp, List.Pairwise.nil, by simp, .inl rfl⟩
    rcases h0.request_spec hf hans with hreq | ⟨s, hreq, hi⟩
    · exact ⟨w, by simp [exec, ofSize, hpos, hreq], fun _ => h, fun hn => absurd trivial hn⟩
    · refine ⟨⟨some s, ⟨0, 0⟩, []⟩, by simp [exec, ofSize, hpos, hreq], fun _ s' hs => ?_,
        fun hn => absurd trivial hn⟩
      obtain rfl := Option.some.inj hs
      exact hi
  | allocate up bytes alignment =>
    obtain ⟨s, hs, hal, -, hans⟩ := ha
    obtain ⟨s', ret, hrun, hi⟩ := (h s hs).allocate_spec hal (hf s hs) hans
    refine ⟨{ w with res := some s', live := liveAfter bytes alignment w.live ret },
      by simp [exec, hs, hrun],
      fun _ s'' hs' => ?_, fun hn => absurd trivial hn⟩
    obtain rfl := Option.some.inj hs'
    exact hi
  | deallocate p bytes alignment =>
    obtain ⟨hs, hm⟩ := ha
    obtain ⟨s, hs⟩ := Option.isSome_iff_exists.mp hs
    have hi := h s hs
    have hal : p % alignment = 0 := (hi.live _ hm).1
    refine ⟨{ w with res := some s, live := w.live.erase ⟨p, bytes, alignment⟩ },
      by simp [exec, hs, deallocate, hal], fun _ s' hs' => ?_, fun hn => absurd trivial hn⟩
    obtain rfl := Option.some.inj hs'
    exact ⟨hi.placed, hi.next, hi.chain, hi.blocks, hi.apart,
      fun a ha => hi.live a (List.mem_of_mem_erase ha), hi.window⟩
  | release give =>
    obtain ⟨hs, hg⟩ := ha
    obtain ⟨s, hs⟩ := Option.isSome_iff_exists.mp hs
    have hi := h s hs
    obtain ⟨m, hrel⟩ := hi.release_spec hg
    refine ⟨{ w with
      res := some { s with mem := m, blockList := ⟨0, 0, 0⟩, held := [] }, live := [] },
      by simp [exec, hs, hrel], fun hc s' hs' => ?_, fun hn hwin => hn fun s₀ hs₀ => ?_⟩
    · obtain rfl := Option.some.inj hs'
      refine ⟨hi.placed, hi.next, rfl, by simp, List.Pairwise.nil, by simp, ?_⟩
      rcases hc s hs with hh | hz
      · rcases hi.window with hw | ⟨-, hw⟩ | ⟨g, held, he, -⟩
        · exact .inl hw
        · exact .inr (.inl ⟨rfl, hw⟩)
        · simp [hh] at he
      · exact .inl hz
    · obtain rfl := Option.some.inj (hs.symm.trans hs₀)
      rcases hwin _ rfl with hz | hu | ⟨g, hg', -⟩
      · exact .inr hz
      · by_contra hnc
        obtain ⟨h1, h2⟩ := not_or.mp hnc
        exact hi.window_stale h1 h2 hu
      · simp at hg'
  | destroy give =>
    obtain ⟨hs, hg⟩ := ha
    obtain ⟨s, hs⟩ := Option.isSome_iff_exists.mp hs
    obtain ⟨m, hrel⟩ := (h s hs).release_spec hg
    exact ⟨World.start, by simp [exec, hs, hrel], fun _ s' hs' => by simp [World.start] at hs',
      fun hn => absurd trivial hn⟩
  | write a v =>
    obtain ⟨hs, g, hg, hx⟩ := ha
    obtain ⟨s, hs⟩ := Option.isSome_iff_exists.mp hs
    refine ⟨{ w with res := some { s with mem := Function.update s.mem a v } }, by simp [exec, hs],
      fun _ s' hs' => ?_, fun hn => absurd trivial hn⟩
    obtain rfl := Option.some.inj hs'
    exact (h s hs).write v hg hx

end

end Gpcl.Pmr.Monotonic
