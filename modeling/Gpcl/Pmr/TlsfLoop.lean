import Gpcl.Pmr.TlsfResource

/-! # The request loop of tlsf_resource

A call that asks upstream doubles the request, so that at most 20 pools are added. The last of them
has a block in the last list, where every size is found that tlsf looks for at all. A call after
that, or one for a size that tlsf never looks for, is left with a request that is too large for a
pool. -/
namespace Gpcl.Pmr.TlsfResource
open Lib.Memory Tlsf

variable {s s' : TlsfResource} {up : Source} {bytes base k i n : Nat} {ret : Option Nat}

/-- Upstream grants `count` requests, each twice as large as the one before. -/
def Grants (up : Source) : List Region → Nat → Nat → Prop
  | _, _, 0 => True
  | taken, bytes, count + 1 =>
    ∃ base, up taken bytes alignofPoolBase = some base ∧ base ≠ 0 ∧ base % alignofPoolBase = 0 ∧
      Grants up (⟨base, bytes⟩ :: taken) (bytes * 2) count

/-- Upstream grants what a call may ask for. -/
def Granting (up : Source) (s : TlsfResource) : Prop :=
  ∀ count, s.nextRequestSize * 2 ^ count ≤ requestSize 21 →
    Grants up s.memory s.nextRequestSize count

theorem Inv.granting (h : Inv s k) (hup : Granting up s) :
    Grants up s.memory (requestSize k) (21 - k) := by
  have hk := h.bound
  have hlast : s.nextRequestSize * 2 ^ (21 - k) = requestSize 21 := by
    rw [h.next, requestSize, requestSize, Nat.mul_assoc, ← Nat.pow_add,
      Nat.add_sub_cancel' (by omega)]
  have hgrants := hup (21 - k) (Nat.le_of_eq hlast)
  rw [h.next] at hgrants
  exact hgrants

/-! ## One round -/

/-- Allocating without upstream. -/
theorem Inv.allocFromBuffer (h : Inv s k) (hbytes : bytes < addressSpace) (hi : i < 64) :
    (¬ Locates s.tlsf (alignedSize (2 ^ i) bytes) ∧ s.allocFromBuffer bytes (2 ^ i) = some (s, 0)) ∨
      ∃ c' p, Locates s.tlsf (alignedSize (2 ^ i) bytes) ∧
      s.allocFromBuffer bytes (2 ^ i) = some ({ s with tlsf := c' }, p) ∧ p ≠ 0 ∧
        Inv { s with tlsf := c' } k ∧ InUse c' p := by
  obtain ⟨pools, hsound, hinside⟩ := h.sound
  obtain ⟨hnone, hrun⟩ | ⟨c', p, hloc, hrun, hp, hsound', huse⟩ := hsound.memalign hi hbytes
  · refine .inl ⟨hnone, ?_⟩
    rw [TlsfResource.allocFromBuffer, hrun]
    rfl
  · refine .inr ⟨c', p, hloc, ?_, hp, ⟨⟨pools, hsound', hinside⟩, h.next, h.bound⟩, huse⟩
    rw [TlsfResource.allocFromBuffer, hrun]
    rfl

theorem doAllocate_found {p : Nat} (hrun : s.allocFromBuffer bytes n = some (s', p)) (hp : p ≠ 0) :
    s.doAllocate up bytes n = some (s', some p) := by
  rw [doAllocate, hrun]
  dsimp only [Option.bind_eq_bind, Option.bind_some]
  rw [if_pos hp]
  rfl

theorem doAllocate_asks (hrun : s.allocFromBuffer bytes n = some (s, 0)) :
    s.doAllocate up bytes n = (do
    let (s, ok) ← s.requestFromUpstream up
    if ok then s.doAllocate up bytes n else pure (s, none)) := by
  conv => lhs; rw [doAllocate, hrun]
  rfl

/-! ## All rounds -/

/-- Sizes that tlsf looks for. -/
def Sought (size : Nat) : Prop := size ≠ 0 ∧ size ≤ searchMax

/-- By induction on the requests that are left. -/
theorem Inv.returns (hup : Honest up) (hbytes : bytes < addressSpace) (hi : i < 64)
    (hsought : Sought (alignedSize (2 ^ i) bytes)) {count : Nat} :
    ∀ {k : Nat} {s : TlsfResource}, Inv s k → k + count = 20 →
    Grants up s.memory (requestSize k) (count + 1) →
      (k < 20 ∨ Locates s.tlsf (alignedSize (2 ^ i) bytes)) →
      ∃ s' p, s.doAllocate up bytes (2 ^ i) = some (s', some p) ∧ p ≠ 0 := by
  induction count with
  | zero =>
    intro k s h hk _ hends
    obtain ⟨hnone, -⟩ | ⟨c', p, -, hrun, hp, -, -⟩ := h.allocFromBuffer hbytes hi
    · exact absurd hends (by rintro (hlt | hloc) <;> [omega; exact hnone hloc])
    · exact ⟨_, p, doAllocate_found hrun hp, hp⟩
  | succ count ih =>
    intro k s h hk hgrants _
    obtain ⟨-, hrun⟩ | ⟨c', p, -, hrun, hp, -, -⟩ := h.allocFromBuffer hbytes hi
    · obtain ⟨base, hbase, hne, halign, hrest⟩ := hgrants
      rw [← h.next] at hbase
      rw [requestSize_double] at hrest
      obtain ⟨c', hrequest, h', hlisted⟩ := h.request (by omega) hup hbase hne halign
      have hends : k + 1 < 20 ∨ Locates c' (alignedSize (2 ^ i) bytes) := by
        by_cases hlast : k = 19
        · rw [hlast, mappingInsert_last] at hlisted
          exact .inr (locates_of_last hsought.1 hsought.2 hlisted)
        · exact .inl (by omega)
      obtain ⟨s', p, hrun', hp⟩ := ih h' (by omega) hrest hends
      refine ⟨s', p, ?_, hp⟩
      rw [doAllocate_asks hrun, hrequest]
      exact hrun'
    · exact ⟨_, p, doAllocate_found hrun hp, hp⟩

theorem Inv.never_returns (hup : Honest up) (hbytes : bytes < addressSpace) (hi : i < 64)
    {count : Nat} :
    ∀ {k : Nat} {s : TlsfResource}, Inv s k → k + count = 20 →
    Grants up s.memory (requestSize k) (count + 1) →
      ¬ Locates s.tlsf (alignedSize (2 ^ i) bytes) →
      (count ≠ 0 → ¬ Sought (alignedSize (2 ^ i) bytes)) →
      s.doAllocate up bytes (2 ^ i) = none := by
  induction count with
  | zero =>
    intro k s h hk hgrants hloc _
    obtain rfl : k = 20 := hk
    obtain ⟨-, hrun⟩ | ⟨_, _, hfound, -⟩ := h.allocFromBuffer hbytes hi
    · obtain ⟨base, hbase, hne, halign, -⟩ := hgrants
      rw [← h.next] at hbase
      rw [doAllocate_asks hrun, h.last_request hbase hne halign]
      rfl
    · exact absurd hfound hloc
  | succ count ih =>
    intro k s h hk hgrants hloc hsought
    obtain ⟨-, hrun⟩ | ⟨_, _, hfound, -⟩ := h.allocFromBuffer hbytes hi
    · obtain ⟨base, hbase, hne, halign, hrest⟩ := hgrants
      rw [← h.next] at hbase
      rw [requestSize_double] at hrest
      obtain ⟨c', hrequest, h', -⟩ := h.request (by omega) hup hbase hne halign
      have hnone : ¬ Sought (alignedSize (2 ^ i) bytes) := hsought (Nat.succ_ne_zero count)
      rw [doAllocate_asks hrun, hrequest]
      exact ih h' (by omega) hrest (fun hfound => hnone ⟨hfound.1, hfound.2.1⟩) fun _ => hnone
    · exact absurd hfound hloc

/-! ## Every call -/

theorem Inv.requestFromUpstream (h : Inv s k) (hup : Honest up) {ok : Bool}
    (hrun : s.requestFromUpstream up = some (s', ok)) :
    ∃ k', Inv s' k' := by
  cases hbase : up s.memory s.nextRequestSize alignofPoolBase with
  | none =>
    simp only [TlsfResource.requestFromUpstream, requestNewBuffer, hbase] at hrun
    cases hrun
    exact ⟨k, h⟩
  | some base =>
    by_cases halign : base % alignofPoolBase = 0
    · by_cases hne : base = 0
      · simp only [TlsfResource.requestFromUpstream, requestNewBuffer, hbase, guard, if_pos halign,
          if_pos hne] at hrun
        cases hrun
        exact ⟨k, h⟩
      · by_cases hlast : k = 20
        · rw [hlast] at h
          rw [h.last_request hbase hne halign] at hrun
          cases hrun
        · obtain ⟨c', hrequest, h', -⟩ :=
            h.request (Nat.lt_of_le_of_ne h.bound hlast) hup hbase hne halign
          rw [hrequest] at hrun
          cases hrun
          exact ⟨k + 1, h'⟩
    · simp [TlsfResource.requestFromUpstream, requestNewBuffer, hbase, guard, halign] at hrun

theorem Inv.doAllocate (h : Inv s k) (hup : Honest up) (hbytes : bytes < addressSpace) (hi : i < 64)
    (hrun : s.doAllocate up bytes (2 ^ i) = some (s', ret)) : ∃ k', Inv s' k' := by
  refine TlsfResource.doAllocate.partial_correctness up bytes (2 ^ i)
    (fun s r => ∀ k, Inv s k → ∃ k', Inv r.1 k') ?_ s (s', ret) hrun k h
  intro round ih s r hrun k h
  obtain ⟨-, halloc⟩ | ⟨c', p, -, halloc, hp, h', -⟩ := h.allocFromBuffer hbytes hi
  · rw [halloc] at hrun
    simp only [Option.bind_eq_bind, Option.bind_some, ne_eq, not_true_eq_false, if_false,
      Option.bind_eq_some_iff] at hrun
    obtain ⟨⟨t, ok⟩, hrequest, hrun⟩ := hrun
    obtain ⟨k', ht⟩ := h.requestFromUpstream hup hrequest
    dsimp only at hrun
    split at hrun
    · exact ih t r hrun k' ht
    · cases hrun
      exact ⟨k', ht⟩
  · rw [halloc] at hrun
    simp only [Option.bind_eq_bind, Option.bind_some, if_pos hp] at hrun
    cases hrun
    exact ⟨k, h'⟩

theorem Inv.ofBuffer {buffer size : Nat} (hspace : buffer + size < addressSpace)
    (h : TlsfResource.ofBuffer buffer size = some (some s)) : Inv s 0 := by
  simp only [TlsfResource.ofBuffer, Option.bind_eq_bind, Option.bind_eq_some_iff, guard] at h
  obtain ⟨_, hsize, c, hcreate, h⟩ := h
  have hsize : size > sizeofControl := by
    split at hsize
    · assumption
    · cases hsize
  cases c with
  | none => cases h
  | some c =>
    cases h
    unfold Control.createWithPool Control.create at hcreate
    by_cases halign : buffer % alignSize ≠ 0
    · rw [if_pos halign] at hcreate
      cases hcreate
    · rw [if_neg halign] at hcreate
      simp only [Option.bind_eq_bind, Option.bind_eq_some_iff] at hcreate
      obtain ⟨⟨c₁, p⟩, hadd, hcreate⟩ := hcreate
      cases hcreate
      unfold sizeofControl at hsize hadd
      unfold alignSize at halign
      have hrest : (size + (addressSpace - 6536)) % addressSpace = size - 6536 := by
        rw [show size + (addressSpace - 6536) = size - 6536 + addressSpace by omega,
          Nat.add_mod_right, Nat.mod_eq_of_lt (by omega)]
      rw [hrest] at hadd
      have hmem : 8 ∣ buffer + 6536 := by omega
      obtain ⟨hmin, hmax⟩ := Control.addPool_range hmem hadd
      obtain ⟨h8, hlarge, hsmall⟩ := poolBytes_spec (show size - 6536 < addressSpace by omega)
      have hle : 16 ≤ size - 6536 := by
        refine Nat.le_of_not_lt fun hlt => ?_
        have := hsmall hlt
        omega
      have heq := hlarge hle
      obtain ⟨c', hadd', hsound, -⟩ :=
        Sound.create.addPool hmem rfl h8 hmin hmax (by omega) fun r hr => absurd hr List.not_mem_nil
      rw [hadd'] at hadd
      cases hadd
      refine ⟨⟨_, hsound, fun r hr => ⟨⟨buffer, size⟩, List.mem_cons_self, ?_⟩⟩, rfl,
        Nat.zero_le 20⟩
      rw [List.mem_singleton.mp hr]
      unfold Region.Inside Region.stop
      dsimp only
      omega

theorem Inv.ofInitialBuffer {initialBuffer : Nat}
    (h : TlsfResource.ofInitialBuffer up initialBuffer = some (some s)) : Inv s 0 := by
  simp only [TlsfResource.ofInitialBuffer, Option.bind_eq_bind, Option.bind_eq_some_iff] at h
  obtain ⟨⟨t, mem⟩, hrequest, h⟩ := h
  have hnext : t.nextRequestSize = 8152 := by
    unfold requestNewBuffer at hrequest
    dsimp only at hrequest
    split at hrequest
    · cases hrequest
      rfl
    · simp only [Option.bind_eq_bind, Option.bind_eq_some_iff] at hrequest
      obtain ⟨_, -, hrequest⟩ := hrequest
      split at hrequest
      · cases hrequest
        rfl
      · cases hrequest
        rfl
  cases mem with
  | none => cases h
  | some mem =>
    simp only [Option.bind_eq_some_iff] at h
    obtain ⟨_, -, h⟩ := h
    unfold Control.create at h
    split at h
    · cases h
    · rename_i c hcreate
      split at hcreate
      · cases hcreate
      · cases hcreate
        cases h
        exact ⟨⟨[], Sound.create, fun r hr => absurd hr List.not_mem_nil⟩, hnext, Nat.zero_le 20⟩

theorem Reachable.inv (h : Reachable s) : ∃ k, Inv s k := by
  induction h with
  | ofBuffer hspace h => exact ⟨0, Inv.ofBuffer hspace h⟩
  | ofInitialBuffer _ h => exact ⟨0, Inv.ofInitialBuffer h⟩
  | doAllocate _ hup hbytes hi hrun ih =>
    obtain ⟨k, h⟩ := ih
    exact h.doAllocate hup hbytes hi hrun
  | doDeallocate _ hp hrun ih =>
    obtain ⟨k, h⟩ := ih
    obtain ⟨pools, hsound, hinside⟩ := h.sound
    obtain ⟨c', hfree, hsound'⟩ := hsound.free hp
    rw [TlsfResource.doDeallocate, hfree] at hrun
    cases hrun
    exact ⟨k, ⟨pools, hsound', hinside⟩, h.next, h.bound⟩

/-- A call returns for a size that tlsf looks for, as long as there are pools to add or a block is
there. -/
theorem doAllocate_ends_iff (hs : Reachable s) (hup : Honest up) (hgrants : Granting up s)
    (hbytes : bytes < addressSpace) (hi : i < 64) :
    (∃ s' ret, s.doAllocate up bytes (2 ^ i) = some (s', ret) ∧ ret ≠ some 0) ↔
      (alignedSize (2 ^ i) bytes ≠ 0 ∧ alignedSize (2 ^ i) bytes ≤ searchMax) ∧
        (s.nextRequestSize < requestSize 20 ∨ Locates s.tlsf (alignedSize (2 ^ i) bytes)) := by
  obtain ⟨k, h⟩ := hs.inv
  have hk := h.bound
  have hrequests := h.granting hgrants
  rw [show 21 - k = 20 - k + 1 by omega] at hrequests
  rw [h.next, requestSize_lt_iff]
  constructor
  · rintro ⟨s', ret, hrun, -⟩
    refine Classical.byContradiction fun hnot => ?_
    have hnone := h.never_returns hup hbytes hi (show k + (20 - k) = 20 by omega) hrequests
      (fun hloc => hnot ⟨⟨hloc.1, hloc.2.1⟩, .inr hloc⟩)
        (fun hne hsought => hnot ⟨hsought, .inl (by omega)⟩)
    rw [hnone] at hrun
    cases hrun
  · rintro ⟨hsought, hends⟩
    obtain ⟨s', p, hrun, hp⟩ :=
      h.returns hup hbytes hi hsought (show k + (20 - k) = 20 by omega) hrequests hends
    exact ⟨s', some p, hrun, fun heq => hp (Option.some.inj heq)⟩

/-! ## A new resource -/

/-- Behind all that is taken. -/
def frontier (taken : List Region) : Nat :=
  taken.foldr (fun r a => max a ((r.stop + 7) / 8 * 8)) 4096

/-- An upstream that never takes anything back. -/
def bump : Source :=
  fun taken bytes _ => if frontier taken + bytes < addressSpace then some (frontier taken) else none

theorem stop_le_frontier {taken : List Region} {r : Region} (h : r ∈ taken) :
    r.stop ≤ frontier taken := by
  induction taken with
  | nil => cases h
  | cons r' taken ih =>
    have hcons : frontier (r' :: taken) = max (frontier taken) ((r'.stop + 7) / 8 * 8) := rfl
    obtain rfl | h := List.mem_cons.mp h
    · omega
    · have := ih h
      omega

theorem frontier_spec (taken : List Region) : 4096 ≤ frontier taken ∧ frontier taken % 8 = 0 := by
  induction taken with
  | nil => exact ⟨Nat.le_refl _, rfl⟩
  | cons r taken ih =>
    have hcons : frontier (r :: taken) = max (frontier taken) ((r.stop + 7) / 8 * 8) := rfl
    omega

theorem bump_honest : Honest bump := by
  intro taken bytes alignment p h _
  unfold bump at h
  split at h
  · cases h
    exact ⟨by assumption, fun r hr => .inr (stop_le_frontier hr)⟩
  · cases h

theorem bump_grants {count : Nat} : ∀ {taken : List Region} {bytes : Nat}, 8 ∣ bytes →
    frontier taken + bytes * 2 ^ count < addressSpace + bytes → Grants bump taken bytes count := by
  induction count with
  | zero => exact fun _ _ => trivial
  | succ count ih =>
    intro taken bytes h8 hroom
    obtain ⟨hmin, h8f⟩ := frontier_spec taken
    have hmul : bytes * 2 ^ (count + 1) = bytes * 2 * 2 ^ count := by
      rw [Nat.pow_succ, Nat.mul_comm (2 ^ count), Nat.mul_assoc]
    have hle : bytes * 2 ≤ bytes * 2 * 2 ^ count :=
      Nat.le_mul_of_pos_right _ (Nat.two_pow_pos count)
    have hnext : frontier (⟨frontier taken, bytes⟩ :: taken) = frontier taken + bytes := by
      show max (frontier taken) ((frontier taken + bytes + 7) / 8 * 8) = _
      omega
    have hfit : frontier taken + bytes < addressSpace := by omega
    refine ⟨frontier taken, if_pos hfit, by omega, h8f, ih (by omega) ?_⟩
    rw [hnext]
    omega

/-- By the default constructor. -/
def fresh : TlsfResource := ⟨Control.construct, [⟨4096, 14704⟩], 8152, []⟩

theorem fresh_made : ofInitialBuffer bump 8152 = some (some fresh) := rfl

theorem fresh_reachable : Reachable fresh := .ofInitialBuffer bump_honest fresh_made

theorem fresh_granting : Granting bump fresh := by
  intro count hle
  have hmax : requestSize 21 = 17095983104 := rfl
  have hfrontier : frontier fresh.memory = 18800 := rfl
  have hnext : fresh.nextRequestSize = 8152 := rfl
  rw [hnext] at hle ⊢
  refine bump_grants (by decide) ?_
  rw [hfrontier]
  unfold addressSpace
  omega

theorem fresh_call_ends :
    ∃ s' ret, fresh.doAllocate bump 24 (2 ^ 3) = some (s', ret) ∧ ret ≠ some 0 :=
  (doAllocate_ends_iff fresh_reachable bump_honest fresh_granting (by decide) (by decide)).mpr
    ⟨by decide, .inl (requestSize_lt_iff.mpr (show 0 < 20 by decide))⟩

/-- All the pools that can be added are added for it. -/
theorem call_for_nothing_never_ends :
    Reachable fresh ∧ Honest bump ∧ Granting bump fresh ∧
    fresh.doAllocate bump 0 (2 ^ 3) = none := by
  refine ⟨fresh_reachable, bump_honest, fresh_granting, ?_⟩
  have hinv := Inv.ofInitialBuffer fresh_made
  have hzero : alignedSize (2 ^ 3) 0 = 0 := by decide
  refine hinv.never_returns bump_honest (by decide) (by decide) (Nat.zero_add 20)
    (hinv.granting fresh_granting) ?_ ?_
  · exact fun hloc => hloc.1 hzero
  · exact fun _ hsought => hsought.1 hzero

end Gpcl.Pmr.TlsfResource
