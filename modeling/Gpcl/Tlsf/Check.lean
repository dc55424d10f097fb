import Gpcl.Tlsf.Heap

/-! # tlsf_walk_pool, tlsf_check_pool and tlsf_check

The walk of a pool meets every block of it once, in the order of their addresses, and the blocks
fill the pool. The two checks find nothing wrong after any calls. What they count as wrong is
counted here with the assertions switched off. -/
namespace Gpcl.Tlsf
open Lib.Memory Lib.Bitmap Lib.Runs

variable {pools : List Region} {c : Control} {live : Nat → Option Nat} {q : Nat} {b n h : Header}
    {r : Region} {σ : Type}

namespace Control

/-- `tlsf_walk_pool` from a block on; `block_is_last` is a size of 0. -/
def walk (c : Control) (walker : σ → Nat → Nat → Bool → Option σ) (q : Nat) (user : σ) :
    Option σ := do
  let h ← c.headers q
  if h.size = 0 then pure user
  else do
    let user ← walker user q h.size (!h.free)
    let next ← c.blockNext q
    c |>.walk walker next user
partial_fixpoint

def walkPool (c : Control) (walker : σ → Nat → Nat → Bool → Option σ) (pool : Nat) (user : σ) :
    Option σ :=
  c.walk walker (pool + blockHeaderOverhead) user

/-- `GPCL_DETAIL_TLSF_INSIST`, without its assertion. -/
def insist (status : Int) (x : Bool) : Int := if x then status else status - 1

structure Integrity where
  prevStatus : Bool
  status : Int
deriving DecidableEq, Repr

def integrityWalker (c : Control) (integ : Integrity) (ptr size : Nat) (_used : Bool) :
    Option Integrity := do
  let h ← c.headers ptr
  let status := insist 0 (integ.prevStatus = h.prevFree)
  let status := insist status (size = h.size)
  pure ⟨h.free, integ.status + status⟩

def checkPool (c : Control) (pool : Nat) : Option Int := do
  let integ ← c.walkPool c.integrityWalker pool ⟨false, 0⟩
  pure integ.status

/-- What `tlsf_check` looks at in a block of the list `i`, `j`. -/
def checkBlock (c : Control) (i j : Nat) (status : Int) (q : Nat) : Option Int := do
  let h ← c.headers q
  let status := insist status h.free
  let status := insist status (!h.prevFree)
  let next ← c.blockNext q
  let hn ← c.headers next
  let status := insist status (!hn.free)
  let status := insist status hn.prevFree
  let status := insist status (blockSizeMin ≤ h.size)
  pure (insist status (mappingInsert h.size = (i, j)))

def checkList (c : Control) (i j : Nat) (status : Int) : Option Int :=
  let flMap := c.flBitmap &&& single 32 i
  let slList := c.slBitmap i
  let slMap := slList &&& single 32 j
  let status := if flMap = 0 then insist status (slMap = 0) else status
  if slMap = 0 then some (insist status (c.blocks i j = []))
  else do
    let status := insist status (slList ≠ 0)
    let status := insist status (c.blocks i j ≠ [])
    (c.blocks i j).foldlM (c.checkBlock i j) status

def check (c : Control) : Option Int :=
  (List.range flIndexCount).foldlM
    (fun status i =>
      (List.range slIndexCount).foldlM (fun status j => c.checkList i j status) status) 0

end Control

/-! ## The walk -/

/-- The blocks, each with its header, follow each other from `x` to `y`. -/
def Tiles : Nat → List (Nat × Header) → Nat → Prop
  | x, [], y => x = y
  | x, (q, h) :: l, y => q = x ∧ h.size ≠ 0 ∧ Tiles (x + h.size + 8) l y

/-- The block behind one of a pool is in the pool. -/
theorem Settled.next_within (h : Settled pools c live) (hr : r ∈ pools) (hb0 : b.size ≠ 0)
    (hwithin : Within r q b.size) (hn : c.headers (q + b.size + 8) = some n) :
    Within r (q + b.size + 8) n.size := by
  obtain ⟨hbase, -, hend⟩ := hwithin
  have hend := hend hb0
  have hroom := h.marked.room r hr
  obtain ⟨r', hr', hwithin'⟩ := h.sound.laid.within _ n hn
  obtain ⟨hbase', hstop', -⟩ := id hwithin'
  have hsame : r' = r := by
    refine Classical.byContradiction fun hne => ?_
    have hdisjoint := h.sound.laid.apart r' hr' r hr hne
    unfold Region.Disjoint Region.stop at *
    omega
  rw [← hsame]
  exact hwithin'

/-- The walk from a block of a pool on. -/
theorem Settled.walk_from (h : Settled pools c live) (hr : r ∈ pools) :
    ∀ q b, c.headers q = some b → Within r q b.size →
    ∃ l, Tiles q l r.stop ∧
    (∀ x d, (x, d) ∈ l ↔ c.headers x = some d ∧ d.size ≠ 0 ∧ q ≤ x ∧ x < r.stop) ∧
      ∀ (σ : Type) (walker : σ → Nat → Nat → Bool → Option σ) user, c.walk walker q user =
        l.foldlM (fun user x => walker user x.1 x.2.size (!x.2.free)) user := by
  intro q
  -- the distance to the last block
  generalize hdist : r.stop - q = dist
  induction dist using Nat.strongRecOn generalizing q with
  | ind dist ih =>
    intro b hb hwithin
    obtain ⟨hbase, hstop, hend⟩ := id hwithin
    have hroom := h.marked.room r hr
    by_cases hb0 : b.size = 0
    · obtain ⟨r', hr', hlast⟩ := h.marked.last q b hb hb0
      have hsame : r' = r := by
        refine h.marked.pool_unique h.sound.laid hr hr' (.inr ⟨by omega, by omega⟩)
      rw [hsame] at hlast
      refine ⟨[], hlast, ?_, ?_⟩
      · intro x d
        refine iff_of_false List.not_mem_nil ?_
        rintro ⟨-, -, hle, hlt⟩
        omega
      · intro σ walker user
        rw [Control.walk, hb]
        simp [hb0]
    · have hend := hend hb0
      obtain ⟨-, -, n, hn⟩ := h.sound.laid.next_block hb hb0
      have hnext := h.next_within hr hb0 hwithin hn
      obtain ⟨l, htiles, hmem, hwalk⟩ := ih _ (by omega) (q + b.size + 8) rfl n hn hnext
      refine ⟨(q, b) :: l, ⟨rfl, hb0, htiles⟩, ?_, ?_⟩
      · intro x d
        rw [List.mem_cons, hmem]
        constructor
        · rintro (heq | ⟨hd, hd0, hle, hlt⟩)
          · cases heq
            exact ⟨hb, hb0, Nat.le_refl _, by omega⟩
          · exact ⟨hd, hd0, by omega, hlt⟩
        · rintro ⟨hd, hd0, hle, hlt⟩
          by_cases hxq : x = q
          · rw [hxq, hb] at hd
            cases hd
            exact .inl (by rw [hxq])
          · have := h.sound.laid.apart_of_ne hb hd hxq
            exact .inr ⟨hd, hd0, by omega, hlt⟩
      · intro σ walker user
        rw [Control.walk, hb]
        simp [hb0, Control.blockNext_eq hb hb0, hwalk]

theorem Settled.first_within (h : Settled pools c live) (hr : r ∈ pools) :
    ∃ b, c.headers (r.base + 8) = some b ∧ b.prevFree = false ∧ Within r (r.base + 8) b.size := by
  obtain ⟨b, hb, hprev⟩ := h.marked.first r hr
  have hroom := h.marked.room r hr
  obtain ⟨r', hr', hwithin⟩ := h.sound.laid.within _ b hb
  obtain ⟨hbase, hstop, -⟩ := id hwithin
  obtain rfl : r = r' := h.marked.pool_unique h.sound.laid hr' hr (.inl ⟨by omega, by omega⟩)
  exact ⟨b, hb, hprev, hwithin⟩

theorem Settled.walkPool (h : Settled pools c live) (hr : r ∈ pools) :
    ∃ l, Tiles (r.base + 8) l r.stop ∧
    (∀ x d, (x, d) ∈ l ↔ c.headers x = some d ∧ d.size ≠ 0 ∧ r.Contains x) ∧
      ∀ (σ : Type) (walker : σ → Nat → Nat → Bool → Option σ) user, c.walkPool walker r.base user =
        l.foldlM (fun user x => walker user x.1 x.2.size (!x.2.free)) user := by
  obtain ⟨b, hb, -, hwithin⟩ := h.first_within hr
  obtain ⟨l, htiles, hmem, hwalk⟩ := h.walk_from hr _ b hb hwithin
  refine ⟨l, htiles, fun x d => (hmem x d).trans ?_, hwalk⟩
  refine and_congr_right fun hd => and_congr_right fun hd0 =>
    ⟨fun hx => ⟨by omega, hx.2⟩, fun hx => ⟨?_, hx.2⟩⟩
  -- a block that begins in the pool is behind its first word
  obtain ⟨r', hr', hbase, hstop, -⟩ := h.sound.laid.within x d hd
  have hlt := hx.2
  have hle := hx.1
  obtain rfl : r' = r := by
    refine Classical.byContradiction fun hne => ?_
    have hdisjoint := h.sound.laid.apart r' hr' r hr hne
    have hroom := h.marked.room r hr
    unfold Region.Disjoint Region.stop at *
    omega
  exact hbase

/-! ## The checks -/

/-- A block says whether the one before it is free. -/
theorem Settled.prevFree_eq (h : Settled pools c live) (hb : c.headers q = some b)
    (hn : c.headers (q + b.size + 8) = some n) :
    n.prevFree = b.free := by
  cases hfree : b.free with
  | true => exact h.marked.marked q b n hb hfree hn
  | false =>
    refine Bool.of_not_eq_true fun hprev => ?_
    rw [(h.sound.laid.prevPhys_eq hb hn hprev).2] at hfree
    cases hfree

theorem Settled.integrity (h : Settled pools c live) :
    ∀ (l : List (Nat × Header)) (q y : Nat), Tiles q l y →
    (∀ x d, (x, d) ∈ l → c.headers x = some d) → ∀ b, c.headers q = some b →
    ∀ integ : Control.Integrity, integ.prevStatus = b.prevFree →
      ∃ integ', l.foldlM (fun integ x =>
        c.integrityWalker integ x.1 x.2.size (!x.2.free)) integ = some integ' ∧
        integ'.status = integ.status := by
  intro l
  induction l with
  | nil => exact fun q y _ _ b _ integ _ => ⟨integ, rfl, rfl⟩
  | cons x l ih =>
    obtain ⟨q', d⟩ := x
    intro q y htiles hmem b hb integ hprev
    obtain ⟨rfl, hd0, htiles⟩ := htiles
    have hd := hmem q' d List.mem_cons_self
    rw [hd] at hb
    cases hb
    obtain ⟨-, -, n, hn⟩ := h.sound.laid.next_block hd hd0
    obtain ⟨integ', hfold, hstatus⟩ :=
      ih _ y htiles (fun x e he => hmem x e (List.mem_cons_of_mem _ he)) n hn
      ⟨d.free, integ.status⟩ (h.prevFree_eq hd hn).symm
    have hstep : c.integrityWalker integ q' d.size (!d.free) = some ⟨d.free, integ.status⟩ := by
      simp [Control.integrityWalker, hd, hprev, Control.insist]
    refine ⟨integ', ?_, hstatus⟩
    rw [List.foldlM_cons, hstep]
    exact hfold

theorem Settled.checkPool (h : Settled pools c live) (hr : r ∈ pools) :
    c.checkPool r.base = some 0 := by
  obtain ⟨b, hb, hprev, -⟩ := h.first_within hr
  obtain ⟨l, htiles, hmem, hwalk⟩ := h.walkPool hr
  obtain ⟨integ, hfold, hstatus⟩ :=
    h.integrity l _ _ htiles (fun x d hd => ((hmem x d).mp hd).1) b hb ⟨false, 0⟩ hprev.symm
  rw [Control.checkPool, hwalk, hfold]
  exact congrArg some hstatus

theorem Settled.checkBlock (h : Settled pools c live) {i j : Nat} (status : Int)
    (hq : q ∈ c.blocks i j) :
    c.checkBlock i j status q = some status := by
  obtain ⟨size, hlisted, hmap⟩ := (h.sound.indexed.listed i j q).mp hq
  rw [listedSize, if_neg List.not_mem_nil] at hlisted
  obtain ⟨b, hb, hsize⟩ := Option.bind_eq_some_iff.mp hlisted
  have hfree : b.free = true := by
    refine Bool.of_not_eq_false fun hused => ?_
    rw [hused] at hsize
    cases hsize
  rw [if_pos hfree] at hsize
  cases hsize
  have hb0 := h.sound.laid.size_of_free hb hfree
  obtain ⟨-, -, n, hn⟩ := h.sound.laid.next_block hb hb0
  have hmin : blockSizeMin ≤ b.size := (h.sound.laid.next q b hb hb0).1
  have hprev : b.prevFree = false := by
    refine Bool.of_not_eq_true fun hprev => ?_
    obtain ⟨d, hd, hdfree, hend⟩ := h.sound.laid.prev q b hb hprev
    exact h.coalesced _ ⟨d, b, hd, hdfree, hend ▸ hb, hfree⟩
  have hnused : n.free = false := by
    refine Bool.of_not_eq_true fun hnfree => ?_
    exact h.coalesced q ⟨b, n, hb, hfree, hn, hnfree⟩
  have hnprev := h.marked.marked q b n hb hfree hn
  simp [Control.checkBlock, hb, Control.blockNext_eq hb hb0, hn, hfree, hprev, hnused, hnprev, hmin,
    hmap, Control.insist]

theorem foldlM_fixed {α β : Type} {f : β → α → Option β} {y : β} :
    ∀ {l : List α}, (∀ x ∈ l, f y x = some y) → l.foldlM f y = some y
  | [], _ => rfl
  | x :: l, h => by
    rw [List.foldlM_cons, h x List.mem_cons_self]
    exact foldlM_fixed fun x hx => h x (List.mem_cons_of_mem _ hx)

theorem Settled.checkList (h : Settled pools c live) {i j : Nat} (hi : i < 32) (hj : j < 32)
    (status : Int) :
    c.checkList i j status = some status := by
  have hsl := h.sound.indexed.slBits i j
  have hfl := h.sound.indexed.flBits i
  unfold Control.checkList
  dsimp only
  by_cases hrow : (c.slBitmap i).getLsbD j = true
  · have hlist := hsl.mp hrow
    have hne : c.slBitmap i ≠ 0 := ne_zero_iff.mpr ⟨j, hrow⟩
    have hbit : c.slBitmap i &&& single 32 j ≠ 0 := (and_single_ne_zero hj).mpr hrow
    have hrow' : c.flBitmap &&& single 32 i ≠ 0 := (and_single_ne_zero hi).mpr (hfl.mpr hne)
    rw [if_neg hrow', if_neg hbit]
    simp only [Control.insist, hne, hlist, ne_eq, not_false_eq_true, decide_true, if_true]
    exact foldlM_fixed fun q hq => h.checkBlock status hq
  · have hempty : c.blocks i j = [] := by
      refine Classical.byContradiction fun hne => hrow (hsl.mpr hne)
    have hbit : c.slBitmap i &&& single 32 j = 0 :=
      not_ne_iff.mp fun hne => hrow ((and_single_ne_zero hj).mp hne)
    rw [if_pos hbit]
    simp [Control.insist, hbit, hempty]

theorem Settled.check (h : Settled pools c live) : c.check = some 0 := by
  refine foldlM_fixed fun i hi => foldlM_fixed fun j hj => ?_
  have hi : i < 25 := List.mem_range.mp hi
  exact h.checkList (by omega) (List.mem_range.mp hj) 0

namespace System

end System

end Gpcl.Tlsf
