import Gpcl.Tlsf.Simulation

/-! # The calls in memory

The calls answer in memory as they do on headers, and what clients have before and after is as it
was; `tlsf_realloc` moves the first bytes of a block along. What clients write into their blocks
does not matter to tlsf. -/
namespace Gpcl.Tlsf
open Lib.Memory Lib.Bitmap Lib.Rings Lib.NullLists

variable {H H' : Nat → Option Header} {pools : List Region} {w w' : Words} {c c' : Control}
    {hand : List Nat} {m' : Mem}
  {live : Nat → Option Nat} {q p s t k x null block size : Nat} {b n d h : Header}

/-! ## What is not tlsf's -/

/-- A byte of a block in use, or of no pool and not of the control structure. -/
def ClientByte (null : Nat) (pools : List Region) (H : Nat → Option Header) (x : Nat) : Prop :=
  UsedByte H x ∨ ((∀ r ∈ pools, ¬ r.Contains x) ∧ ¬ Region.Contains ⟨null, sizeofControl⟩ x)

/-- What is in a pool, and in no block in use. -/
theorem not_client {r : Region} (hr : r ∈ pools) (hx : r.Contains x)
    (hfree : ∀ q d, H q = some d → d.free = false → x < q ∨ q + d.size ≤ x) :
    ¬ ClientByte null pools H x := by
  rintro (⟨q, d, hd, hused, hle, hlt⟩ | ⟨hout, -⟩)
  · have := hfree q d hd hused
    omega
  · exact hout r hr hx

/-- A word that is before a block, and in the pool. -/
theorem size_word_not_client (hl : Laid pools H) (hb : H q = some b) (hle : q ≤ x + 8)
    (hlt : x < q) : ¬ ClientByte null pools H x := by
  obtain ⟨r, hr, hbase, hstop, -⟩ := hl.within q b hb
  refine not_client hr ⟨by omega, by omega⟩ fun y d hd _ => ?_
  by_cases hyq : y = q
  · exact .inl (by omega)
  · have := hl.apart_of_ne hb hd hyq
    omega

theorem free_block_not_client (hl : Laid pools H) (hb : H q = some b) (hfree : b.free = true)
    (hle : q ≤ x) (hlt : x < q + b.size) :
    ¬ ClientByte null pools H x := by
  obtain ⟨r, hr, hbase, hstop, -⟩ := hl.within q b hb
  refine not_client hr ⟨by omega, by omega⟩ fun y d hd hused => ?_
  have hyq : y ≠ q := by
    rintro rfl
    rw [hb] at hd
    cases hd
    rw [hused] at hfree
    cases hfree
  have := hl.apart_of_ne hb hd hyq
  omega

/-- Clients write where they may. -/
theorem Holds.write (hh : Holds null w c) (hl : Laid pools c.headers) (hi : Indexed c hand)
    (hm : ∀ x, ¬ ClientByte null pools c.headers x → m' x = w.mem x) :
    Holds null { w with mem := m' } c := by
  refine hh.withHeaders (fun x h hx => ?_) (fun x h hx hprev => ?_) fun fl sl y hy => ?_
  · refine (loadWord_congr fun a hle hlt => hm a (size_word_not_client hl hx ?_ ?_)).trans
      (hh.sizes x h hx)
    · omega
    · unfold wordSize at hlt
      omega
  · obtain ⟨e, he, hfree, hend⟩ := hl.prev _ h hx hprev
    have hmin := (hl.next _ e he (hl.size_of_free he hfree)).1
    refine (congrArg (· + 16)
      (loadWord_congr fun a hle hlt => hm a (free_block_not_client hl he hfree ?_ ?_))).trans
        (hh.links x h hx hprev)
    · omega
    · unfold wordSize at hlt
      omega
  · obtain ⟨d, hd, hfree, -⟩ := hi.free_of_mem hy
    have hmin := (hl.next _ d hd (hl.size_of_free hd hfree)).1
    constructor
    · exact loadWord_congr fun a hle hlt =>
        hm a (free_block_not_client hl hd hfree (by omega) (by unfold wordSize at hlt; omega))
    · exact loadWord_congr fun a hle hlt =>
        hm a (free_block_not_client hl hd hfree (by omega) (by unfold wordSize at hlt; omega))

/-! ## Allocating -/

theorem Holds.malloc (hh : Holds null w c) (hs : Settled pools c live) (hp : Placed null pools)
    (hsize : size < addressSpace) (hrun : c.malloc size = some (c', p)) :
    ∃ w', w.malloc null size = some (w', p) ∧ Simulates null w c w' c' := by
  obtain ⟨h8, hmax, hmin⟩ := adjust_alignSize hsize
  unfold Control.malloc at hrun
  unfold Words.malloc
  dsimp only at hrun ⊢
  obtain ⟨-, hlocate⟩ | ⟨q, c₁, t, hloc, hlocate, hle, hworking, hpairs⟩ := hs.locate h8 hmax
  · obtain ⟨w₁, found, hlocate', hfound, hholds, hrelinked⟩ :=
      hh.blockLocateFree hs.sound.laid hs.sound.indexed hp hlocate
    rw [hlocate] at hrun
    obtain ⟨rfl, rfl⟩ := Prod.mk.inj (Option.some.inj hrun)
    cases found with
    | none => exact ⟨w₁, by rw [hlocate']; rfl, hrelinked.simulates hholds⟩
    | some block => cases hfound
  · obtain ⟨w₁, found, hlocate', hfound, hholds, hrelinked⟩ :=
      hh.blockLocateFree hs.sound.laid hs.sound.indexed hp hlocate
    rw [hlocate] at hrun
    cases found with
    | none => cases hfound
    | some block =>
      obtain rfl : q = block + 16 := Option.some.inj hfound
      obtain ⟨w', hprepare, hsim⟩ :=
        hholds.blockPrepareUsed hworking hp h8 (hmin.resolve_left hloc.1) hle
        (fun x hpair => absurd hpair (hpairs x)) hrun
      refine ⟨w', by rw [hlocate']; exact hprepare, ?_⟩
      exact (hrelinked.simulates hholds).before hsim (hworking.live.trans hs.live.symm)

theorem Holds.memalign (hh : Holds null w c) (hs : Settled pools c live) (hp : Placed null pools)
    (hk : k < 63) (hsize : size < addressSpace) (hrun : c.memalign (2 ^ k) size = some (c', p)) :
    ∃ w', w.memalign null (2 ^ k) size = some (w', p) ∧ Simulates null w c w' c' := by
  obtain ⟨h8, hmax, -⟩ := alignedSize_spec (show k < 64 by omega) hsize
  obtain ⟨h8a, -⟩ := adjust_alignSize hsize
  unfold Control.memalign at hrun
  unfold Words.memalign
  rw [guard, if_pos (and_pred_two_pow k)] at hrun ⊢
  dsimp only at hrun ⊢
  obtain ⟨-, hlocate⟩ | ⟨q, c₁, t, hloc, hlocate, hle, hworking, hpairs⟩ := hs.locate h8 hmax
  · obtain ⟨w₁, found, hlocate', hfound, hholds, hrelinked⟩ :=
      hh.blockLocateFree hs.sound.laid hs.sound.indexed hp hlocate
    rw [hlocate] at hrun
    obtain ⟨rfl, rfl⟩ := Prod.mk.inj (Option.some.inj hrun)
    cases found with
    | none => exact ⟨w₁, by rw [hlocate']; rfl, hrelinked.simulates hholds⟩
    | some block => cases hfound
  · obtain ⟨w₁, found, hlocate', hfound, hholds, hrelinked⟩ :=
      hh.blockLocateFree hs.sound.laid hs.sound.indexed hp hlocate
    have hsim₁ : Simulates null w c w₁ c₁ := hrelinked.simulates hholds
    have hlive := hworking.live.trans hs.live.symm
    rw [hlocate] at hrun
    rw [hlocate']
    cases found with
    | none => cases hfound
    | some block =>
      obtain rfl : q = block + 16 := Option.some.inj hfound
      obtain ⟨-, hmin, hgap⟩ := hworking.gap_fits hk hsize hloc.1 hle
      dsimp only [Option.bind_eq_bind, Option.pure_def, Option.bind_some] at hrun ⊢
      rw [show blockToPtr block = block + 16 from rfl]
      obtain ⟨hzero, hfit⟩ | ⟨h32, h8g, hgapfit, hfit⟩ := hgap
      · rw [if_neg (not_not_intro hzero)] at hrun ⊢
        obtain ⟨w', hprepare, hsim⟩ :=
          hholds.blockPrepareUsed hworking hp h8a hmin hfit
            (fun x hpair => absurd hpair (hpairs x)) hrun
        exact ⟨w', hprepare, hsim₁.before hsim hlive⟩
      · have hmin' : sizeofBlockHeader ≤ gapBefore (block + 16) (2 ^ k) := h32
        have hzero : gapBefore (block + 16) (2 ^ k) ≠ 0 := by omega
        rw [if_pos hzero, guard, if_pos hmin'] at hrun ⊢
        generalize hg : gapBefore (block + 16) (2 ^ k) = gap at *
        obtain ⟨c₂, htrim, hworking₂, hpairs₂⟩ := hworking.trimFreeLeading h8g h32 hgapfit hpairs
        obtain ⟨w₂, htrim', hsim₂⟩ := hholds.blockTrimFreeLeading hworking hp h8g h32 hgapfit htrim
        simp only [Option.pure_def, Option.bind_some, htrim, htrim'] at hrun ⊢
        rw [show block + 16 + gap = block + gap + 16 by omega] at hworking₂ hpairs₂ hrun
        obtain ⟨w', hprepare, hsim⟩ :=
          hsim₂.holds.blockPrepareUsed hworking₂ hp h8a hmin hfit hpairs₂ hrun
        exact ⟨w', hprepare,
          (hsim₁.before hsim₂ hlive).before hsim (hworking₂.live.trans hs.live.symm)⟩

/-! ## Freeing -/

theorem Holds.free (hh : Holds null w c) (hs : Settled pools c live) (hp : Placed null pools)
    (hlive : live p = some s)
    (hrun : c.free p = some c') : ∃ w', w.free null p = some w' ∧ Simulates null w c w' c' := by
  obtain ⟨b, n, hb, hused, rfl, hne, hn⟩ := hs.used_block hlive
  have hl := hs.sound.laid
  have hlow := hp.low_block hl hb
  obtain ⟨block, rfl⟩ : ∃ block, p = block + 16 := ⟨p - 16, by omega⟩
  obtain ⟨hw₁, hpairs₁⟩ := hs.freed hb hused hne hn
  obtain ⟨c₂, q, s₂, hprev, hw₂, hpairs₂⟩ := hw₁.mergePrev hpairs₁
  obtain ⟨c₃, s₃, hnext, -, hw₃, hpairs₃⟩ := hw₂.mergeNext hpairs₂
  obtain ⟨c₄, hinsert, hs₄⟩ := hw₃.insert hpairs₃
  have hcontrol : c.free (block + 16) = some c₄ := by
    simp [Control.free, hb, guard, hused, Control.blockMarkAsFree_eq hb hne hn, hprev, hnext,
      hinsert]
  cases hcontrol.symm.trans hrun
  obtain ⟨w₁, hmark, hholds₁, hkept₁⟩ := hh.markFree hl hs.sound.indexed hb hused hne hn
  have hsim₁ :
      Simulates null w c w₁ { c with headers := freedHeaders c.headers (block + 16) b n } :=
        ⟨hholds₁, hkept₁⟩
  obtain ⟨w₂, block₂, hprev', rfl, hsim₂⟩ := hholds₁.blockMergePrev hw₁ hp hprev
  obtain ⟨w₃, hnext', -, hsim₃⟩ := hsim₂.holds.blockMergeNext hw₂ hp hnext
  obtain ⟨w₄, hinsert', hsim₄⟩ := hsim₃.holds.insertHand hw₃ hp hinsert
  refine ⟨w₄, ?_,
    ((hsim₁.after hsim₂ (hw₂.live.trans hw₁.live.symm)).after hsim₃
      (hw₃.live.trans hw₂.live.symm)).after hsim₄
    (hs₄.live.trans hw₃.live.symm)⟩
  have hbused : w.blockIsFree block = false := by rw [hh.blockIsFree hl hb, hused]
  simp [Words.free, blockFromPtr, blockStartOffset, guard, hbused, hmark, hprev', hnext', hinsert']

/-! ## Resizing -/

theorem Settled.usedByte (h : Settled pools c live) :
    UsedByte c.headers x ↔ ∃ p s, live p = some s ∧ p ≤ x ∧ x < p + s := by
  rw [usedByte_iff, h.live]

/-- Bytes of the blocks that are there after one more is taken. -/
theorem Settled.usedByte_mono {live' : Nat → Option Nat} (h : Settled pools c live)
    (h' : Settled pools c' live') (hle : ∀ p s, live p = some s → ∃ s', live' p = some s' ∧ s ≤ s')
    (hx : UsedByte c.headers x) :
    UsedByte c'.headers x := by
  obtain ⟨p, s, hp, hle₁, hlt⟩ := h.usedByte.mp hx
  obtain ⟨s', hp', hle'⟩ := hle p s hp
  exact h'.usedByte.mpr ⟨p, s', hp', hle₁, by omega⟩

namespace Words

theorem realloc_eq (hb : w.Has block b) (hn : w.Has (block + b.size + 8) n) (hused : b.free = false)
    (hne : b.size ≠ 0) (hs0 : size ≠ 0) :
    w.realloc null (block + 16) size = (if adjustRequestSize size alignSize > b.size ∧
        (n.free = false ∨ adjustRequestSize size alignSize > b.size + n.size + 8) then do
      let (w, p) ← w.malloc null size
      if p ≠ 0 then do
        let w ← Words.free null ⟨copyBytes w.mem p (block + 16) (min b.size size), w.flBitmap,
          w.slBitmap, w.blocks⟩ (block + 16)
        pure (w, p)
      else pure (w, 0)
    else if adjustRequestSize size alignSize > b.size then do
      let (w, _) ← w.blockMergeNext null block
      let w ← w.blockMarkAsUsed block
      let w ← w.blockTrimUsed null block (adjustRequestSize size alignSize)
      pure (w, block + 16)
    else do
      let w ← w.blockTrimUsed null block (adjustRequestSize size alignSize)
      pure (w, block + 16)) := by
  have hcond : ¬ (block + 16 ≠ 0 ∧ size = 0) := fun hc => hs0 hc.2
  rw [Words.realloc, if_neg hcond, if_neg (by omega)]
  simp only [blockFromPtr, blockStartOffset, Nat.add_sub_cancel, hb.blockNext hne, hb.blockSize,
    hn.blockSize, hb.blockIsFree, hn.blockIsFree, Option.bind_eq_bind, Option.bind_some,
    combined_eq hb.lt hn.lt]
  rw [guard, if_pos hused]
  rfl

end Words

/-- A block in use grows into the free block behind it. -/
theorem Holds.growNext (hh : Holds null w c) (hs : Settled pools c live) (hp : Placed null pools)
    (hd : c.headers (block + 16) = some d) (hd0 : d.size ≠ 0)
    (hn : c.headers (block + 16 + d.size + 8) = some n) (hnfree : n.free = true) {c₁ : Control}
    (hmerge : c.blockMergeNext (block + 16) = some (c₁, q))
    (hmark : c₁.blockMarkAsUsed (block + 16) = some c') :
    ∃ w₁ w', w.blockMergeNext null block = some (w₁, block) ∧ w₁.blockMarkAsUsed block = some w' ∧
    Simulates null w c w' c' := by
  have hl := hs.sound.laid
  have hN : c.headers (block + d.size + 8 + 16) = some n := by
    rw [show block + d.size + 8 + 16 = block + 16 + d.size + 8 by omega]
    exact hn
  obtain ⟨c₀, hremove, hsame, hi⟩ := hs.sound.indexed.remove List.not_mem_nil hn hnfree
  obtain ⟨-, -, m, hm⟩ := hl.next_block hn (hl.size_of_free hn hnfree)
  have hnext := Control.blockNext_eq hd hd0
  rw [Control.blockMergeNext, hnext] at hmerge
  simp only [Option.bind_eq_bind, Option.bind_some, hn, if_pos hnfree, hremove] at hmerge
  rw [show block + 16 + d.size + 8 = block + d.size + 8 + 16 by omega] at hremove
  obtain ⟨w₀, hremove', hholds₀, hrelinked⟩ := hh.blockRemove hl hs.sound.indexed hp hN hremove
  have hl₀ : Laid pools c₀.headers := hsame ▸ hl
  have hcall : w.blockMergeNext null block = (w₀.blockAbsorb block (block + d.size + 8)).map
      fun w => (w, block) := by
    have hlast : w.blockIsLast block = false := by rw [hh.blockIsLast hl hd, decide_eq_false hd0]
    rw [Words.blockMergeNext, hh.blockNext hl hd hd0]
    simp only [Option.bind_eq_bind, Option.bind_some]
    rw [guard, if_pos (by omega), hh.blockIsFree hl hN, hnfree, if_pos rfl]
    simp only [Option.pure_def, Option.bind_some]
    rw [guard, if_pos hlast]
    simp only [Option.pure_def, Option.bind_some, hremove']
    exact Option.map_eq_bind.symm
  rw [← hsame] at hd hn hm
  have habsorb := Control.blockAbsorb_eq hd hn hm rfl hd0
  simp only [habsorb, Option.bind_some, Option.pure_def] at hmerge
  obtain ⟨rfl, rfl⟩ := Prod.mk.inj (Option.some.inj hmerge)
  have hmark' :
      Control.blockMarkAsUsed { c₀ with
          headers := absorbHeaders c₀.headers (block + 16) (block + 16 + d.size + 8) d n m }
              (block + 16) = _ :=
    Control.blockMarkAsUsed_eq (b := { d with size := d.size + n.size + 8 })
      (n := { m with prevPhys := block + 16 }) absorbHeaders_self
      (Nat.succ_ne_zero _) (by
        rw [show block + 16 + (d.size + n.size + 8) + 8 =
          block + 16 + d.size + 8 + n.size + 8 by omega]
        exact absorbHeaders_next rfl)
  cases hmark'.symm.trans hmark
  obtain ⟨w₁, w', habsorb', hmarked, hholds', hkept⟩ := hholds₀.grow hl₀ hi hd hn hd0 hnfree hm
  refine ⟨w₁, w', by rw [hcall, habsorb']; rfl, hmarked, hholds', fun x hx hx' => ?_⟩
  exact (hkept x (hsame ▸ hx) hx').trans (hrelinked.kept x hx)

theorem Holds.realloc (hh : Holds null w c) (hs : Settled pools c live) (hp : Placed null pools)
    (hlive : live p = some t) (hsize : size + alignSize ≤ addressSpace)
    (hadjust : adjustRequestSize size alignSize ≠ 0) (hrun : c.realloc p size = some (c', q)) :
    ∃ w', w.realloc null p size = some (w', q) ∧ Simulates null w c w' c' ∧
      (q ≠ 0 → ∀ i < min t size, w'.mem (q + i) = w.mem (p + i)) := by
  have hlt : size < addressSpace := by
    unfold alignSize at hsize
    omega
  obtain ⟨h8, hmax, hmin⟩ := adjust_alignSize hlt
  have hmin := hmin.resolve_left hadjust
  have hs0 : size ≠ 0 := fun hzero => hadjust (by rw [hzero]; rfl)
  have hle : size ≤ adjustRequestSize size alignSize := le_adjust (k := 3) (by decide) hsize hadjust
  obtain ⟨b, n, hb, hused, rfl, hne, hn⟩ := hs.used_block hlive
  have hl := hs.sound.laid
  have hlow := hp.low_block hl hb
  obtain ⟨block, rfl⟩ : ∃ block, p = block + 16 := ⟨p - 16, by omega⟩
  have hN : c.headers (block + b.size + 8 + 16) = some n := by
    rw [show block + b.size + 8 + 16 = block + 16 + b.size + 8 by omega]
    exact hn
  have hasb := hh.has hl hb
  have hasn := hh.has hl hN
  rw [Control.realloc_eq hb hn hused hne (by omega) hs0 hasb.lt hasn.lt] at hrun
  rw [Words.realloc_eq hasb hasn hused hne hs0]
  -- a block that keeps its place keeps its bytes
  have hstay : ∀ {c' : Control} {w' : Words} {u : Nat} {live' : Nat → Option Nat},
    Simulates null w c w' c' → Settled pools c' live' →
      live' (block + 16) = some u → size ≤ u →
        ∀ i < min b.size size, w'.mem (block + 16 + i) = w.mem (block + 16 + i) := by
    intro c' w' u live' hsim hs' hu hsu i hi
    exact hsim.kept _ (hs.usedByte.mpr ⟨_, _, hlive, by omega, by omega⟩)
      (hs'.usedByte.mpr ⟨_, _, hu, by omega, by omega⟩)
  generalize hadj : adjustRequestSize size alignSize = t at *
  by_cases hlarge : t > b.size
  · by_cases hmove : n.free = false ∨ t > b.size + n.size + 8
    · rw [if_pos ⟨hlarge, hmove⟩] at hrun ⊢
      obtain ⟨-, hmalloc⟩ | ⟨c₁, q₁, -, hmalloc, hserved⟩ := hs.malloc hlt
      · obtain ⟨w₁, hmalloc', hsim⟩ := hh.malloc hs hp hlt hmalloc
        rw [hmalloc] at hrun
        obtain ⟨rfl, rfl⟩ := Prod.mk.inj (Option.some.inj hrun)
        exact ⟨w₁, by rw [hmalloc']; rfl, hsim, fun hq => absurd rfl hq⟩
      · obtain ⟨w₁, hmalloc', hsim₁⟩ := hh.malloc hs hp hlt hmalloc
        obtain ⟨u, htu, -, hs₁⟩ := hserved.settled
        rw [hadj] at htu
        have hqp : block + 16 ≠ q₁ := by
          rintro rfl
          rw [hserved.fresh] at hlive
          cases hlive
        have hlive₁ : Function.update live q₁ (some u) (block + 16) = some b.size := by
          rw [Function.update_of_ne hqp, hlive]
        obtain ⟨c₂, hfree, hs₂⟩ := hs₁.free hlive₁
        have hq0 := hserved.ne
        have hrun' : (c₂, q₁) = (c', q) := by simpa [hmalloc, hq0, hfree] using hrun
        obtain ⟨rfl, rfl⟩ := Prod.mk.inj hrun'
        -- the block that was given is a client's, and apart from what others have
        have hnew : ∀ x, q₁ ≤ x → x < q₁ + u → UsedByte c₁.headers x := fun x hle hlt =>
          hs₁.usedByte.mpr ⟨q₁, u, Function.update_self .., hle, hlt⟩
        have hold : ∀ x, UsedByte c.headers x → UsedByte c₁.headers x ∧ (x < q₁ ∨ q₁ + u ≤ x) := by
          intro x hx
          obtain ⟨y, s, hy, hley, hlty⟩ := hs.usedByte.mp hx
          have hyq : y ≠ q₁ := by
            rintro rfl
            rw [hserved.fresh] at hy
            cases hy
          have hy₁ : Function.update live q₁ (some u) y = some s := by
            rw [Function.update_of_ne hyq, hy]
          refine ⟨hs₁.usedByte.mpr ⟨y, s, hy₁, hley, hlty⟩, ?_⟩
          obtain ⟨e, -, he, -, rfl, -⟩ := hs₁.used_block hy₁
          obtain ⟨f, -, hf, -, rfl, -⟩ := hs₁.used_block (p := q₁) (Function.update_self ..)
          have := hs₁.sound.laid.apart_of_ne hf he hyq
          omega
        have hholds₂ :
            Holds null ⟨copyBytes w₁.mem q₁ (block + 16) (min b.size size), w₁.flBitmap,
                w₁.slBitmap, w₁.blocks⟩ c₁ := by
          refine hsim₁.holds.write hs₁.sound.laid hs₁.sound.indexed fun x hx => if_neg fun hin =>
            hx (.inl (hnew x hin.1 ?_))
          omega
        obtain ⟨w₂, hfree', hsim₂⟩ := hholds₂.free hs₁ hp hlive₁ hfree
        have hq₂ :
            Function.update (Function.update live q₁ (some u)) (block + 16) none q₁ = some u := by
          rw [Function.update_of_ne hqp.symm, Function.update_self]
        refine ⟨w₂, ?_, ⟨hsim₂.holds, fun x hx hx' => ?_⟩, fun _ i hi => ?_⟩
        · simp [hmalloc', hq0, hfree']
        · obtain ⟨hx₁, hout⟩ := hold x hx
          refine (hsim₂.kept x hx₁ hx').trans (Eq.trans ?_ (hsim₁.kept x hx hx₁))
          exact if_neg (by omega)
        · have hmoved :=
            hsim₂.kept (q₁ + i) (hnew _ (by omega) (by omega))
              (hs₂.usedByte.mpr ⟨q₁, u, hq₂, by omega, by omega⟩)
          have hfrom : UsedByte c.headers (block + 16 + i) :=
            hs.usedByte.mpr ⟨_, _, hlive, by omega, by omega⟩
          refine hmoved.trans (Eq.trans ?_ (hsim₁.kept _ hfrom (hold _ hfrom).1))
          dsimp only [copyBytes]
          rw [if_pos (by omega), Nat.add_sub_cancel_left]
    · rw [if_neg fun hc => hmove hc.2, if_pos hlarge] at hrun ⊢
      rw [not_or, Bool.not_eq_false, Nat.not_lt] at hmove
      obtain ⟨c₁, c₂, hmerge, hmark, hs₂⟩ := hs.grow hb hused hne hn hmove.1
      obtain ⟨c₃, u, htrim, htu, -, hs₃⟩ := hs₂.trimUsed (Function.update_self ..) h8 hmin hmove.2
      have hrun' : (c₃, block + 16) = (c', q) := by simpa [hmerge, hmark, htrim] using hrun
      obtain ⟨rfl, rfl⟩ := Prod.mk.inj hrun'
      obtain ⟨w₁, w₂, hmerge', hmark', hsim₂⟩ := hh.growNext hs hp hb hne hn hmove.1 hmerge hmark
      obtain ⟨w₃, htrim', hsim₃⟩ :=
        hsim₂.holds.blockTrimUsed hs₂ hp (Function.update_self ..) h8 hmin hmax htrim
      have hsim : Simulates null w c w₃ c₃ := by
        refine hsim₂.trans hsim₃ fun x hx _ => hs.usedByte_mono hs₂ (fun y s hy => ?_) hx
        by_cases hyp : y = block + 16
        · rw [hyp, hlive] at hy
          cases hy
          rw [hyp, Function.update_self]
          exact ⟨_, rfl, by omega⟩
        · rw [Function.update_of_ne hyp]
          exact ⟨s, hy, Nat.le_refl _⟩
      refine ⟨w₃, by simp [hmerge', hmark', htrim'], hsim, fun _ => ?_⟩
      exact hstay hsim hs₃ (Function.update_self ..) (by omega)
  · rw [if_neg fun hc => hlarge hc.1, if_neg hlarge] at hrun ⊢
    obtain ⟨c₁, u, htrim, htu, -, hs₁⟩ := hs.trimUsed hlive h8 hmin (Nat.le_of_not_lt hlarge)
    have hrun' : (c₁, block + 16) = (c', q) := by simpa [htrim] using hrun
    obtain ⟨rfl, rfl⟩ := Prod.mk.inj hrun'
    obtain ⟨w₁, htrim', hsim⟩ := hh.blockTrimUsed hs hp hlive h8 hmin hmax htrim
    refine ⟨w₁, by simp [htrim'], hsim, fun _ => ?_⟩
    exact hstay hsim hs₁ (Function.update_self ..) (by omega)

/-! ## Pools -/

open Control (poolBytes)

/-- The three stores that make a header of whatever is there. -/
theorem Words.newHeader (h8 : 8 ∣ size) (hlt : size < blockSizeMax) (w : Words) (block : Nat) :
    Patch [block + 8] w (((w.blockSetSize block size).blockSetFree block).blockSetPrevUsed block) ∧
      (((w.blockSetSize block size).blockSetFree block).blockSetPrevUsed block).Has block
        ⟨0, size, true, false⟩ := by
  obtain ⟨free, prevFree, hany⟩ := Words.blockSetSize_any h8 w block
  have h₁ : (w.blockSetSize block size).Has block ⟨0, size, free, prevFree⟩ := by
    rw [hany]
    exact Words.has_store h8 hlt
  have hp₁ : Patch [block + 8] w (w.blockSetSize block size) := by
    rw [hany]
    exact (Patch.refl _ w).store (by simp) _
  have h₂ :
      ((w.blockSetSize block size).blockSetFree block).Has block ⟨0, size, true, prevFree⟩ := by
    rw [h₁.blockSetFree]
    exact Words.has_store h8 hlt
  have hp₂ : Patch [block + 8] w ((w.blockSetSize block size).blockSetFree block) := by
    rw [h₁.blockSetFree]
    exact hp₁.store (by simp) _
  rw [h₂.blockSetPrevUsed]
  exact ⟨hp₂.store (by simp) _, Words.has_store h8 hlt⟩

theorem Words.lastHeader (w : Words) (block : Nat) :
    Patch [block + 8] w (((w.blockSetSize block 0).blockSetUsed block).blockSetPrevFree block) ∧
      (((w.blockSetSize block 0).blockSetUsed block).blockSetPrevFree block).Has block
        ⟨0, 0, false, true⟩ := by
  obtain ⟨free, prevFree, hany⟩ := Words.blockSetSize_any (Nat.dvd_zero 8) w block
  have hlt : 0 < blockSizeMax := by decide
  have h₁ : (w.blockSetSize block 0).Has block ⟨0, 0, free, prevFree⟩ := by
    rw [hany]
    exact Words.has_store (Nat.dvd_zero 8) hlt
  have hp₁ : Patch [block + 8] w (w.blockSetSize block 0) := by
    rw [hany]
    exact (Patch.refl _ w).store (by simp) _
  have h₂ : ((w.blockSetSize block 0).blockSetUsed block).Has block ⟨0, 0, false, prevFree⟩ := by
    rw [h₁.blockSetUsed]
    exact Words.has_store (Nat.dvd_zero 8) hlt
  have hp₂ : Patch [block + 8] w ((w.blockSetSize block 0).blockSetUsed block) := by
    rw [h₁.blockSetUsed]
    exact hp₁.store (by simp) _
  rw [h₂.blockSetPrevFree]
  exact ⟨hp₂.store (by simp) _, Words.has_store (Nat.dvd_zero 8) hlt⟩

/-- One more header, where the words that are stored are in the way of no other. -/
theorem Holds.newHeader {as : List Nat} (hh : Holds null w c) (hl : Laid pools H)
    (hsub : ∀ x d, c.headers x = some d → H x = some d) (hi : Indexed c hand)
    (hpatch : Patch as w w') (has : ∀ a ∈ as, 8 ∣ a) (h8 : 8 ∣ block) (hb : w'.Has block b)
    (hlink : b.prevFree = true → w'.prevPhysBlock block + 16 = b.prevPhys)
    (hsizes : ∀ x d, c.headers (x + 16) = some d → x + 8 ∉ as)
    (hlinks : ∀ x d, c.headers (x + 16) = some d → d.prevFree = true → x ∉ as)
    (hfree : ∀ y d, c.headers y = some d → d.free = true → y ∉ as ∧ y + 8 ∉ as) :
    Holds null w' (c.setHeader (block + 16) b) := by
  refine hh.patch (fun y d hd => hl.dvd y d (hsub y d hd)) hi hpatch has ?_ ?_ ?_
    fun y d hd hdfree _ => hfree y d hd hdfree
  · intro x d hd
    obtain ⟨hx, rfl⟩ | ⟨-, hd⟩ := update_eq_some hd
    · omega
    · have := hl.dvd _ d (hsub _ d hd)
      omega
  · intro x d hd
    obtain ⟨hx, rfl⟩ | ⟨-, hd⟩ := update_eq_some hd
    · rw [show x = block by omega]
      exact .inl hb.field
    · exact .inr ⟨d, hd, rfl, hsizes x d hd⟩
  · intro x d hd hprev
    obtain ⟨hx, rfl⟩ | ⟨-, hd⟩ := update_eq_some hd
    · rw [show x = block by omega]
      exact .inl (hlink hprev)
    · exact .inr ⟨d, hd, hprev, rfl, hlinks x d hd hprev⟩

theorem Holds.addPool {mem bytes : Nat} (hh : Holds null w c) (hs : Settled pools c live)
    (hp : Placed null (⟨mem, size + 16⟩ :: pools)) (hmem : 8 ∣ mem)
    (hbytes : poolBytes bytes = size) (h8 : 8 ∣ size) (hmin : 24 ≤ size)
    (hmax : size < blockSizeMax) (hspace : mem + size + 16 < addressSpace)
    (hfresh : ∀ r ∈ pools, Region.Disjoint ⟨mem, size + 16⟩ r)
    (hrun : c.addPool mem bytes = some (c', p)) :
    ∃ w', w.addPool null mem bytes = some (w', p) ∧ Simulates null w c w' c' := by
  have hl := hs.sound.laid
  have hlow := hp.low _ List.mem_cons_self
  dsimp only at hlow
  have hl' := hl.addPool hmem h8 hmin hmax hspace hfresh
  have hout : ∀ x e, c.headers x = some e → x + e.size + 8 ≤ mem + 8 ∨ mem + size + 24 ≤ x :=
    fun x e he => hl.outside hfresh he
  have hsub : ∀ x d, (c.setHeader (mem + 8) ⟨0, size, true, false⟩).headers x = some d →
      poolHeaders c.headers mem size x = some d := by
    intro x d hd
    have hx : x ≠ mem + size + 16 := by
      obtain ⟨hx, -⟩ | ⟨-, hd⟩ := update_eq_some hd
      · omega
      · have := hout x d hd
        omega
    rw [poolHeaders, Function.update_of_ne hx]
    exact hd
  have hempty : c.headers (mem + 8) = none := by
    cases he : c.headers (mem + 8) with
    | none => rfl
    | some e =>
      have := hout _ e he
      omega
  obtain ⟨block, rfl⟩ : ∃ block, mem = block + 8 := ⟨mem - 8, by omega⟩
  have hi₁ : Indexed (c.setHeader (block + 16) ⟨0, size, true, false⟩) [block + 16] := by
    refine hs.sound.indexed.withHeaders fun x => ?_
    by_cases hx : x = block + 16
    · simp [listedSize, hx, hempty]
    · simp [listedSize, hx]
  -- the calls on headers
  have hmod : ¬ (block + 8) % alignSize ≠ 0 := not_not_intro (Nat.mod_eq_zero_of_dvd hmem)
  have hrange : blockSizeMin ≤ size ∧ size ≤ blockSizeMax := ⟨hmin, Nat.le_of_lt hmax⟩
  have hfirst :
      (c.setHeader (block + 16) ⟨0, size, true, false⟩).headers (block + 16) =
        some ⟨0, size, true, false⟩ := Function.update_self ..
  rw [Control.addPool, if_neg hmod] at hrun
  rw [Words.addPool, if_neg hmod]
  simp only [hbytes, guard, if_pos hrange, Option.pure_def, Option.bind_eq_bind,
    Option.bind_some] at hrun ⊢
  obtain ⟨c₁, hinsert, hrun⟩ := Option.bind_eq_some_iff.mp hrun
  obtain ⟨next, hnext, hc⟩ := Option.bind_eq_some_iff.mp hrun
  obtain ⟨rfl, rfl⟩ := Prod.mk.inj (Option.some.inj hc)
  have hsame := Control.blockInsert_headers hinsert
  have hfirst₁ : c₁.headers (block + 16) = some ⟨0, size, true, false⟩ := by
    rw [hsame]
    exact hfirst
  obtain rfl : next = block + 8 + size + 16 := by
    have := Control.blockNext_place hfirst₁ hnext
    unfold blockHeaderOverhead at this
    dsimp only at this
    omega
  -- the first header
  rw [show block + 8 - blockHeaderOverhead = block from Nat.add_sub_cancel ..]
  obtain ⟨hpatch₁, hhas₁⟩ := Words.newHeader h8 hmax w block
  generalize ((w.blockSetSize block size).blockSetFree block).blockSetPrevUsed block = w₁
    at hpatch₁ hhas₁ ⊢
  have hholds₁ : Holds null w₁ (c.setHeader (block + 16) ⟨0, size, true, false⟩) := by
    refine hh.newHeader hl (fun _ _ h => h) hs.sound.indexed hpatch₁ (by simpa using hmem)
      (by omega) hhas₁ (fun h => Bool.noConfusion h) ?_ ?_ ?_
    · intro x d hd
      have := hout _ d hd
      simp only [List.mem_singleton]
      omega
    · intro x d hd _
      have := hout _ d hd
      simp only [List.mem_singleton]
      omega
    · intro y d hd hfree
      have := hout _ d hd
      have := (hl.next y d hd (hl.size_of_free hd hfree)).1
      simp only [List.mem_singleton]
      omega
  obtain ⟨w₂, hinsert', hholds₂, hrelinked⟩ :=
    hholds₁.blockInsert hl' hsub hi₁ hp hfirst rfl hinsert
  -- the last header
  have hhas₂ : w₂.Has block ⟨0, size, true, false⟩ := ⟨hholds₂.sizes block _ hfirst₁, h8, hmax⟩
  have hlink := hhas₂.blockLinkNext (show size ≠ 0 by omega)
  dsimp only at hlink
  obtain ⟨hpatch₃, hhas₃⟩ := Words.lastHeader (w₂.store (block + size + 8) block) (block + size + 8)
  have hpatch : Patch [block + size + 8 + 8, block + size + 8] w₂
      (((Words.blockSetSize (w₂.store (block + size + 8) block) (block + size + 8) 0).blockSetUsed
        (block + size + 8)).blockSetPrevFree
        (block + size + 8)) :=
    ((Patch.refl _ w₂).store (by simp) _).trans (hpatch₃.mono (by simp))
  have hphys := hpatch₃.load (x := block + size + 8) (by simp; omega) (by omega) (by simp)
  generalize hw₃ : ((Words.blockSetSize (w₂.store (block + size + 8) block)
    (block + size + 8) 0).blockSetUsed
    (block + size + 8)).blockSetPrevFree (block + size + 8) = w₃ at hhas₃ hpatch hphys
  have hphys : w₃.prevPhysBlock (block + size + 8) = block :=
    hphys.trans (loadWord_storeWord _ _ (by omega))
  have hold : ∀ x d, c₁.headers x = some d → (x = block + 16 ∧ d = ⟨0, size, true, false⟩) ∨
      c.headers x = some d := by
    intro x d hd
    rw [hsame] at hd
    obtain hx | ⟨-, hd⟩ := update_eq_some hd
    · exact .inl hx
    · exact .inr hd
  obtain ⟨c₂, hinsert₂, -, hi₂⟩ :=
    hi₁.insert List.not_mem_nil hfirst rfl
      (alignPtr_of_dvd (show 8 ∣ block + 16 by omega) (by omega)).symm hmax
  cases hinsert₂.symm.trans hinsert
  have hholds₃ :
      Holds null w₃ (c₁.setHeader (block + size + 8 + 16) ⟨block + 16, 0, false, true⟩) := by
    refine hholds₂.newHeader hl' (fun x d hd => hsub x d (hsame ▸ hd)) hi₂ hpatch (by simp; omega)
      (by omega)
      ⟨hhas₃.field, hhas₃.dvd, hhas₃.lt⟩ (fun _ => by rw [hphys]) ?_ ?_ ?_
    · intro x d hd
      simp only [List.mem_cons, List.not_mem_nil, or_false]
      obtain ⟨hx, -⟩ | hd := hold _ d hd
      · omega
      · have := hout _ d hd
        omega
    · intro x d hd hprev
      simp only [List.mem_cons, List.not_mem_nil, or_false]
      obtain ⟨-, rfl⟩ | hd := hold _ d hd
      · cases hprev
      · -- the first word of the pool behind this one is no link
        obtain ⟨e, he, hfree, hend⟩ := hl.prev _ d hd hprev
        have := hout _ e he
        have := (hl.next _ e he (hl.size_of_free he hfree)).1
        omega
    · intro y d hd hfree
      simp only [List.mem_cons, List.not_mem_nil, or_false]
      obtain ⟨hy, -⟩ | hd := hold _ d hd
      · omega
      · have := hout _ d hd
        have := (hl.next y d hd (hl.size_of_free hd hfree)).1
        omega
  refine ⟨w₃, ?_, ?_, fun x hx _ => ?_⟩
  · rw [hinsert', Option.bind_some, hlink, Option.bind_some, hw₃]
  · rw [show block + 8 + size + 16 = block + size + 8 + 16 by omega]
    exact hholds₃
  · obtain ⟨y, d, hd, hused, hle, hlt⟩ := hx
    have := hout y d hd
    have hkept₂ :=
      hrelinked.kept x ⟨y, d,
        by rw [Control.setHeader_headers, Function.update_of_ne (by omega)]; exact hd, hused, hle,
        hlt⟩
    refine (hpatch.mem x ?_).trans (hkept₂.trans (hpatch₁.mem x ?_))
    · simp only [List.mem_cons, List.not_mem_nil, or_false, forall_eq_or_imp, forall_eq]
      omega
    · simp only [List.mem_singleton, forall_eq]
      omega

/-- The memory of a pool that is removed is not looked at any more. -/
theorem Holds.removePool {r : Region} (hh : Holds null w c) (hs : Settled pools c live)
    (hp : Placed null pools) (hr : r ∈ pools) (hv : Vacant r c.headers b n)
    (hrun : c.removePool r.base = some c') :
    ∃ w', w.removePool null r.base = some w' ∧ Simulates null w c w' c' := by
  have hl := hs.sound.laid
  have hlow := hp.low r hr
  have hb0 := hl.size_of_free hv.first hv.free
  have hnused := hl.last _ n hv.next hv.last
  obtain ⟨mem, hmem⟩ : ∃ block, r.base = block + 8 := ⟨r.base - 8, by omega⟩
  have hb := hv.first
  have hn := hv.next
  rw [hmem] at hb hn
  have hN : c.headers (mem + b.size + 8 + 16) = some n := by
    rw [show mem + b.size + 8 + 16 = mem + 8 + 8 + b.size + 8 by omega]
    exact hn
  have hb : c.headers (mem + 16) = some b := hb
  rw [Control.removePool, hmem] at hrun
  rw [Words.removePool, hmem]
  rw [show mem + 8 + blockHeaderOverhead = mem + 16 from rfl] at hrun
  rw [show mem + 8 - blockHeaderOverhead = mem from Nat.add_sub_cancel ..]
  simp only [hb, Option.bind_eq_bind, Option.bind_some, guard, if_pos hv.free, Option.pure_def,
    Control.blockNext_eq hb hb0, hn, if_pos hnused, if_pos hv.last] at hrun
  obtain ⟨c₁, hremove, hc⟩ := Option.bind_eq_some_iff.mp hrun
  obtain ⟨w₁, hremove', hholds₁, hrelinked⟩ :=
    hh.removeFreeBlock hl hs.sound.indexed hp (Control.mem_of_removeFreeBlock hremove) hremove
  obtain ⟨c₂, hremove₂, hsame, hi⟩ :=
    hs.sound.indexed.removeFreeBlock (Control.mem_of_removeFreeBlock hremove)
  cases hremove₂.symm.trans hremove
  cases hc
  have hbfree : w.blockIsFree mem = true := by rw [hh.blockIsFree hl hb, hv.free]
  have hnfree : w.blockIsFree (mem + b.size + 8) = false := by rw [hh.blockIsFree hl hN, hnused]
  have hnsize : w.blockSize (mem + b.size + 8) = 0 := by rw [hh.blockSize hl hN, hv.last]
  have hless : ∀ x d,
      withoutPool c₁.headers (mem + 16) (mem + 16 + b.size + blockHeaderOverhead) x = some d →
      c₁.headers x = some d :=
    fun x d hd => (withoutPool_cases hd).2.2
  refine ⟨w₁, ?_,
    hholds₁.withHeaders (fun x d hd => hholds₁.sizes x d (hless _ d hd))
      (fun x d hd => hholds₁.links x d (hless _ d hd))
    fun _ _ _ _ => ⟨rfl, rfl⟩, fun x hx _ => hrelinked.kept x hx⟩
  simp only [hh.blockNext hl hb hb0, Option.bind_some, hnfree, hnsize, hbfree, guard, if_true,
    Option.pure_def, Option.bind_eq_bind, hh.blockSize hl hb, hremove']

end Gpcl.Tlsf
