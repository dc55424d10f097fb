import Gpcl.Tlsf.Effects

/-! # What the calls give to clients

`tlsf_memalign` gives an aligned block that is large enough, and that no client has; `tlsf_realloc`
resizes where the block is, or moves it. What other clients have does not change. -/
namespace Gpcl.Tlsf
open Lib.Memory

variable {pools : List Region} {c c' : Control} {live : Nat → Option Nat} {q p s size k : Nat}
    {b n d : Header}

/-! ## Sizes and gaps -/

/-- A size that is rounded up within the address space. -/
theorem le_adjust (hk : k ≤ 64) (hsize : size + 2 ^ k ≤ addressSpace)
    (hne : adjustRequestSize size (2 ^ k) ≠ 0) :
    size ≤ adjustRequestSize size (2 ^ k) := by
  have hpos : 0 < 2 ^ k := Nat.two_pow_pos k
  obtain ⟨m, hle, hlt, -, heq⟩ := alignUp_spec hk (show size < addressSpace by omega)
  unfold adjustRequestSize at *
  dsimp only at *
  split at hne
  · rename_i hpos
    rw [if_pos hpos]
    split at hne
    · rename_i hsmall
      rw [if_pos hsmall]
      refine Nat.le_trans ?_ (Nat.le_max_left ..)
      rw [heq, Nat.mod_eq_of_lt (by omega)]
      exact hle
    · exact absurd rfl hne
  · exact absurd rfl hne

theorem gapBefore_of_dvd (hk : k ≤ 64) (hdvd : 2 ^ k ∣ q) (hq : q < addressSpace) :
    gapBefore q (2 ^ k) = 0 := by
  have hzero : (q + (addressSpace - q)) % addressSpace = 0 := by
    rw [Nat.add_sub_cancel' (Nat.le_of_lt hq), Nat.mod_self]
  simp [gapBefore, alignPtr, alignUp_of_dvd hk hdvd hq, hzero]

theorem gapBefore_aligned (hk : k < 64) (h8 : 8 ∣ q) (hpos : 0 < q)
    (hspace : q + 32 < addressSpace) :
    gapBefore q (2 ^ k) < 2 ^ k + 32 ∧ 2 ^ k ∣ q + gapBefore q (2 ^ k) := by
  have hq : q < addressSpace := by omega
  by_cases hk3 : k < 3
  · have hdvd : 2 ^ k ∣ q := Nat.dvd_trans (Nat.pow_dvd_pow 2 (show k ≤ 3 by omega)) h8
    rw [gapBefore_of_dvd (by omega) hdvd hq]
    exact ⟨by omega, hdvd⟩
  · have h8k : 8 ∣ 2 ^ k := Nat.pow_dvd_pow 2 (show 3 ≤ k by omega)
    obtain ⟨m, hle, hlt, hmax, heq⟩ := alignUp_spec (show k ≤ 64 by omega) hq
    simp only [gapBefore, alignPtr, heq, distance_eq hpos hle hmax]
    by_cases hsmall : 2 ^ k * m - q ≠ 0 ∧ 2 ^ k * m - q < sizeofBlockHeader
    · rw [if_pos hsmall]
      obtain ⟨hne, hsmall⟩ := hsmall
      unfold sizeofBlockHeader at hsmall ⊢
      have hm : 2 ^ k * m < addressSpace := by omega
      rw [Nat.mod_eq_of_lt hm]
      obtain rfl | rfl | hk5 : k = 3 ∨ k = 4 ∨ 5 ≤ k := by omega
      · omega
      · have hgap : 2 ^ 4 * m - q = 8 := by omega
        obtain ⟨m', hle', hlt', hmax', heq'⟩ :=
          alignUp_spec (k := 4) (x := q + 32) (by decide) hspace
        rw [hgap, show (2 ^ 4 * m + max (32 - 8) (2 ^ 4)) % addressSpace = q + 32 by
          rw [Nat.mod_eq_of_lt (by omega)]
          omega, heq', distance_eq hpos (by omega) hmax', Nat.add_sub_cancel' (by omega)]
        exact ⟨by omega, Nat.dvd_mul_right ..⟩
      · have h32 : 2 ^ 5 ≤ 2 ^ k := Nat.pow_le_pow_right (by decide) hk5
        have hdvd : 2 ^ k ∣ addressSpace := Nat.pow_dvd_pow 2 (show k ≤ 64 by omega)
        have hnext : 2 ^ k * (m + 1) ≤ addressSpace := by
          obtain ⟨e, he⟩ := hdvd
          rw [he] at hm ⊢
          exact Nat.mul_le_mul_left _ (Nat.lt_of_mul_lt_mul_left hm)
        have hmul : 2 ^ k * (m + 1) = 2 ^ k * m + 2 ^ k := Nat.mul_succ ..
        rw [Nat.max_eq_right (by omega), ← hmul,
          alignUp_of_dvd (by omega) ((Nat.dvd_mod_iff hdvd).mpr (Nat.dvd_mul_right ..))
            (mod_addressSpace_lt _),
          distance_eq hpos (by omega) hnext, Nat.add_sub_cancel' (by omega)]
        exact ⟨by omega, Nat.dvd_mul_right ..⟩
    · rw [if_neg hsmall]
      refine ⟨by omega, ?_⟩
      rw [Nat.add_sub_cancel' hle]
      exact Nat.dvd_mul_right ..

theorem adjust_alignSize (hsize : size < addressSpace) : 8 ∣ adjustRequestSize size alignSize ∧
    adjustRequestSize size alignSize < blockSizeMax ∧
    (adjustRequestSize size alignSize = 0 ∨ 24 ≤ adjustRequestSize size alignSize) :=
  adjust_spec (k := 3) (by decide) (by decide) hsize

/-- What is looked for has room for the alignment. -/
theorem alignedSize_room (hk : k < 63) (hsize : size < addressSpace)
    (hne : alignedSize (2 ^ k) size ≠ 0) :
    adjustRequestSize size alignSize ≤ alignedSize (2 ^ k) size ∧
    (3 < k → adjustRequestSize size alignSize + 2 ^ k + 32 ≤ alignedSize (2 ^ k) size) := by
  have hpow : 2 ^ k ≤ 2 ^ 62 := Nat.pow_le_pow_right (by decide) (by omega)
  unfold alignedSize at *
  dsimp only at *
  split at hne
  · rename_i hbig
    rw [if_pos hbig]
    unfold sizeofBlockHeader at *
    have hadjust := (adjust_alignSize hsize).2.1
    unfold blockSizeMax flIndexMax at hadjust
    have hmod :
        (adjustRequestSize size alignSize + 2 ^ k + 32) % addressSpace =
          adjustRequestSize size alignSize + 2 ^ k + 32 :=
      Nat.mod_eq_of_lt (by unfold addressSpace; omega)
    rw [hmod] at hne ⊢
    have := le_adjust (show k ≤ 64 by omega) (by unfold addressSpace; omega) hne
    exact ⟨by omega, fun _ => this⟩
  · rename_i hsmall
    rw [if_neg hsmall]
    refine ⟨Nat.le_refl _, fun hk3 => absurd ?_ hsmall⟩
    refine ⟨hne, ?_⟩
    show 2 ^ 3 < 2 ^ k
    exact Nat.pow_lt_pow_right (by decide) hk3

/-! ## Allocating -/

theorem Working.not_live (h : Working pools c live q s) : live q = none := by
  obtain ⟨b, hb, hfree, -⟩ := h.block
  rw [← h.live]
  exact usedSize_free hb hfree

/-- A call that gave out `p`: it had room for `t` bytes, and nobody had it. -/
structure Served (pools : List Region) (c' : Control) (live : Nat → Option Nat)
  (p t : Nat) : Prop where
  ne : p ≠ 0
  fresh : live p = none
  settled : ∃ s, t ≤ s ∧ s < t + 32 ∧ Settled pools c' (Function.update live p (some s))

theorem Working.serve (h : Working pools c live q s) {t : Nat} (h8 : 8 ∣ t) (hmin : 24 ≤ t)
    (hfit : t ≤ s) (hpairs : ∀ x, FreePair c.headers x → Precedes c x q) :
    ∃ c', c.blockPrepareUsed (some q) t = some (c', q) ∧ Served pools c' live q t := by
  obtain ⟨-, -, -, -, -, -, -, -, hpos, -⟩ := h.facts
  obtain ⟨c', s', hrun, hle, hlt, hsettled⟩ := h.prepareUsed h8 hmin hfit hpairs
  exact ⟨c', hrun, by omega, h.not_live, s', hle, hlt, hsettled⟩

theorem Settled.malloc (h : Settled pools c live) (hsize : size < addressSpace) :
    (¬ Locates c (adjustRequestSize size alignSize) ∧ c.malloc size = some (c, 0)) ∨
      ∃ c' p, Locates c (adjustRequestSize size alignSize) ∧ c.malloc size = some (c', p) ∧
        Served pools c' live p (adjustRequestSize size alignSize) := by
  obtain ⟨h8, hmax, hmin⟩ := adjust_alignSize hsize
  unfold Control.malloc
  obtain ⟨hnone, hrun⟩ | ⟨q, c₁, t, hloc, hrun, hle, hworking, hpairs⟩ := h.locate h8 hmax
  · refine .inl ⟨hnone, ?_⟩
    dsimp only
    rw [hrun]
    rfl
  · obtain ⟨c', hprepare, hserved⟩ :=
      hworking.serve h8 (hmin.resolve_left hloc.1) hle fun x hpair => absurd hpair (hpairs x)
    refine .inr ⟨c', q, hloc, ?_, hserved⟩
    dsimp only
    rw [hrun]
    exact hprepare

/-- A block that was found for an alignment has room for the gap, and for the request behind it. -/
theorem Working.gap_fits (h : Working pools c live q s) (hk : k < 63) (hsize : size < addressSpace)
    (hne : alignedSize (2 ^ k) size ≠ 0) (hle : alignedSize (2 ^ k) size ≤ s) :
    2 ^ k ∣ q + gapBefore q (2 ^ k) ∧ 24 ≤ adjustRequestSize size alignSize ∧
      (gapBefore q (2 ^ k) = 0 ∧ adjustRequestSize size alignSize ≤ s ∨ 32 ≤ gapBefore q (2 ^ k) ∧
        8 ∣ gapBefore q (2 ^ k) ∧
        gapBefore q (2 ^ k) + 32 ≤ s ∧
        adjustRequestSize size alignSize ≤ s - gapBefore q (2 ^ k)) := by
  obtain ⟨-, -, hadjust⟩ := alignedSize_spec (show k < 64 by omega) hsize
  have hmin : 24 ≤ adjustRequestSize size alignSize :=
    (adjust_alignSize hsize).2.2.resolve_left (hadjust hne)
  obtain ⟨hroom, hroom3⟩ := alignedSize_room hk hsize hne
  obtain ⟨-, -, -, -, -, hsmin, -, h8q, hpos, hspace, -⟩ := h.facts
  have hgap := gapBefore_spec (show k < 64 by omega) h8q (by omega) (by omega)
  obtain ⟨hgapmax, haligned⟩ := gapBefore_aligned (show k < 64 by omega) h8q (by omega) (by omega)
  refine ⟨haligned, hmin, ?_⟩
  by_cases hzero : gapBefore q (2 ^ k) = 0
  · exact .inl ⟨hzero, by omega⟩
  · obtain ⟨h32, h8g, -⟩ := hgap.resolve_left hzero
    have hk3 : 3 < k := by
      refine Nat.lt_of_not_le fun hk3 => hzero (gapBefore_of_dvd (by omega) ?_ (by omega))
      exact Nat.dvd_trans (Nat.pow_dvd_pow 2 hk3) h8q
    have h8k : 8 ∣ 2 ^ k := Nat.pow_dvd_pow 2 (Nat.le_of_lt hk3)
    have hfit := hroom3 hk3
    exact .inr ⟨h32, h8g, by omega, by omega⟩

theorem and_pred_two_pow (k : Nat) : 2 ^ k &&& (2 ^ k - 1) = 0 := by
  rw [Nat.and_two_pow_sub_one_eq_mod, Nat.mod_self]

theorem Settled.memalign (h : Settled pools c live) (hk : k < 63) (hsize : size < addressSpace) :
    (¬ Locates c (alignedSize (2 ^ k) size) ∧ c.memalign (2 ^ k) size = some (c, 0)) ∨
      ∃ c' p, Locates c (alignedSize (2 ^ k) size) ∧ c.memalign (2 ^ k) size = some (c', p) ∧
      2 ^ k ∣ p ∧
        Served pools c' live p (adjustRequestSize size alignSize) := by
  obtain ⟨h8, hmax, -⟩ := alignedSize_spec (show k < 64 by omega) hsize
  obtain ⟨h8a, -⟩ := adjust_alignSize hsize
  unfold Control.memalign
  rw [guard, if_pos (and_pred_two_pow k)]
  dsimp only
  obtain ⟨hnone, hrun⟩ | ⟨q, c₁, t, hloc, hrun, hle, hworking, hpairs⟩ := h.locate h8 hmax
  · rw [hrun]
    exact .inl ⟨hnone, rfl⟩
  · right
    obtain ⟨haligned, hmin, hgap⟩ := hworking.gap_fits hk hsize hloc.1 hle
    rw [hrun]
    dsimp only [Option.bind_eq_bind, Option.pure_def, Option.bind_some]
    obtain ⟨hzero, hfit⟩ | ⟨h32, h8g, hgapfit, hfit⟩ := hgap
    · obtain ⟨c', hprepare, hserved⟩ :=
        hworking.serve h8a hmin hfit fun x hpair => absurd hpair (hpairs x)
      refine ⟨c', q, hloc, ?_, by simpa [hzero] using haligned, hserved⟩
      rw [if_neg (not_not_intro hzero)]
      exact hprepare
    · obtain ⟨c₂, htrim, hworking₂, hpairs₂⟩ := hworking.trimFreeLeading h8g h32 hgapfit hpairs
      obtain ⟨c', hprepare, hserved⟩ := hworking₂.serve h8a hmin hfit hpairs₂
      have hmin' : sizeofBlockHeader ≤ gapBefore q (2 ^ k) := h32
      have hzero : gapBefore q (2 ^ k) ≠ 0 := by omega
      refine ⟨c', q + gapBefore q (2 ^ k), hloc, ?_, haligned, hserved⟩
      rw [if_pos hzero, guard, if_pos hmin']
      dsimp only [Option.pure_def, Option.bind_some]
      rw [htrim]
      exact hprepare

/-! ## Resizing -/

/-- A call that resized the block at `p` where it is. -/
def Resized (pools : List Region) (c' : Control) (live : Nat → Option Nat) (p t : Nat) : Prop :=
  ∃ s, t ≤ s ∧ Settled pools c' (Function.update live p (some s))

theorem Settled.shrink (h : Settled pools c live) (hp : live p = some s) {t : Nat} (h8 : 8 ∣ t)
    (hmin : 24 ≤ t) (hfit : t ≤ s) :
    ∃ c', c.blockTrimUsed p t = some c' ∧ Resized pools c' live p t := by
  obtain ⟨c', s', hrun, hle, -, hsettled⟩ := h.trimUsed hp h8 hmin hfit
  exact ⟨c', hrun, s', hle, hsettled⟩

theorem combined_eq (hb : b.size < blockSizeMax) (hn : n.size < blockSizeMax) :
    (b.size + n.size + blockHeaderOverhead) % addressSpace = b.size + n.size + 8 := by
  unfold blockSizeMax flIndexMax at hb hn
  exact Nat.mod_eq_of_lt (by unfold addressSpace blockHeaderOverhead; omega)

/-- `tlsf_realloc` of a block to a size that is not 0: it moves, grows, or keeps its place. -/
theorem Control.realloc_eq (hb : c.headers p = some b) (hn : c.headers (p + b.size + 8) = some n)
    (hused : b.free = false) (hne : b.size ≠ 0) (hp0 : p ≠ 0) (hs0 : size ≠ 0)
    (hbmax : b.size < blockSizeMax) (hnmax : n.size < blockSizeMax) :
    c.realloc p size = (if adjustRequestSize size alignSize > b.size ∧
        (n.free = false ∨ adjustRequestSize size alignSize > b.size + n.size + 8) then do
      let (c, q) ← c.malloc size
      if q ≠ 0 then do
        let c ← c.free p
        pure (c, q)
      else pure (c, 0)
    else if adjustRequestSize size alignSize > b.size then do
      let (c, _) ← c.blockMergeNext p
      let c ← c.blockMarkAsUsed p
      let c ← c.blockTrimUsed p (adjustRequestSize size alignSize)
      pure (c, p)
    else do
      let c ← c.blockTrimUsed p (adjustRequestSize size alignSize)
      pure (c, p)) := by
  have hcond : ¬ (p ≠ 0 ∧ size = 0) := fun hc => hs0 hc.2
  rw [Control.realloc, if_neg hcond, if_neg hp0]
  simp only [Option.bind_eq_bind, Control.blockNext_eq hb hne, hb, hn, Option.bind_some,
    combined_eq hbmax hnmax]
  rw [guard, if_pos hused]
  rfl

theorem Settled.realloc (h : Settled pools c live) (hp : live p = some s)
    (hsize : size < addressSpace) (hadjust : adjustRequestSize size alignSize ≠ 0) :
    (∃ c', c.realloc p size = some (c', p) ∧
      Resized pools c' live p (adjustRequestSize size alignSize)) ∨
      (s < adjustRequestSize size alignSize ∧
        (c.realloc p size = some (c, 0) ∨
          ∃ c' q t, c.realloc p size = some (c', q) ∧ q ≠ 0 ∧ live q = none ∧
          adjustRequestSize size alignSize ≤ t ∧
            Settled pools c' (Function.update (Function.update live q (some t)) p none))) := by
  obtain ⟨h8, hmax, hmin⟩ := adjust_alignSize hsize
  have hmin := hmin.resolve_left hadjust
  have hs0 : size ≠ 0 := fun hzero => hadjust (by rw [hzero]; rfl)
  obtain ⟨b, n, hb, hused, rfl, hne, hn⟩ := h.used_block hp
  obtain ⟨hp8, hbmax, -⟩ := h.sound.laid.bounds hb
  have hnmax := (h.sound.laid.bounds hn).2.1
  rw [Control.realloc_eq hb hn hused hne (by omega) hs0 hbmax hnmax]
  generalize hadj : adjustRequestSize size alignSize = t at *
  by_cases hlarge : t > b.size
  · by_cases hmove : n.free = false ∨ t > b.size + n.size + 8
    · rw [if_pos ⟨hlarge, hmove⟩]
      refine .inr ⟨hlarge, ?_⟩
      obtain ⟨-, hrun⟩ | ⟨c₁, q, -, hrun, hserved⟩ := h.malloc hsize
      · rw [hrun]
        exact .inl rfl
      · rw [hadj] at hserved
        obtain ⟨u, hle, -, hsettled⟩ := hserved.settled
        have hqp : p ≠ q := by
          rintro rfl
          rw [hserved.fresh] at hp
          cases hp
        obtain ⟨c₂, hfree, hsettled₂⟩ :=
          hsettled.free (p := p) (s := b.size) (by rw [Function.update_of_ne hqp]; exact hp)
        refine .inr ⟨c₂, q, u, ?_, hserved.ne, hserved.fresh, hle, hsettled₂⟩
        simp [hrun, hserved.ne, hfree]
    · rw [if_neg fun hc => hmove hc.2, if_pos hlarge]
      rw [not_or, Bool.not_eq_false, Nat.not_lt] at hmove
      obtain ⟨c₁, c₂, hmerge, hmark, hsettled⟩ := h.grow hb hused hne hn hmove.1
      obtain ⟨c₃, htrim, u, hle, hsettled₃⟩ :=
        hsettled.shrink (Function.update_self ..) h8 hmin hmove.2
      rw [Function.update_idem] at hsettled₃
      exact .inl ⟨c₃, by simp [hmerge, hmark, htrim], u, hle, hsettled₃⟩
  · rw [if_neg fun hc => hlarge hc.1, if_neg hlarge]
    obtain ⟨c₁, htrim, hresized⟩ := h.shrink hp h8 hmin (Nat.le_of_not_lt hlarge)
    exact .inl ⟨c₁, by simp [htrim], hresized⟩

/-! ## Pools -/

open Control (poolBytes)

theorem Control.blockInsert_headers (h : c.blockInsert q = some c') : c'.headers = c.headers := by
  simp only [Control.blockInsert, Control.insertFreeBlock, Option.bind_eq_bind,
    Option.bind_eq_some_iff, Option.pure_def] at h
  obtain ⟨b, -, -, -, -, -, hc⟩ := h
  cases hc
  rfl

theorem Control.blockNext_place {next : Nat} (hb : c.headers q = some b)
    (h : c.blockNext q = some next) :
    next = q + b.size + blockHeaderOverhead := by
  simp only [Control.blockNext, hb, Option.bind_eq_bind, Option.bind_some,
    Option.bind_eq_some_iff] at h
  obtain ⟨-, -, h⟩ := h
  exact (Option.some.inj h).symm

theorem Control.addPool_headers {mem bytes : Nat} (hmem : mem % alignSize = 0)
    (h : c.addPool mem bytes = some (c', p)) :
    c'.headers = poolHeaders c.headers mem (poolBytes bytes) := by
  have hmod : ¬ mem % alignSize ≠ 0 := not_not_intro hmem
  rw [Control.addPool, if_neg hmod] at h
  generalize poolBytes bytes = size at h ⊢
  simp only [Option.bind_eq_bind, Option.bind_eq_some_iff, Option.pure_def] at h
  obtain ⟨-, -, c₁, hinsert, next, hnext, hc⟩ := h
  have hsame := Control.blockInsert_headers hinsert
  have hfirst : c₁.headers (mem + blockHeaderOverhead) = some ⟨0, size, true, false⟩ := by
    rw [hsame]
    exact Function.update_self ..
  have hplace := Control.blockNext_place hfirst hnext
  obtain ⟨hc', -⟩ := Prod.mk.inj (Option.some.inj hc)
  rw [← hc', hplace, Control.setHeader_headers, hsame, Control.setHeader_headers]
  unfold poolHeaders blockHeaderOverhead
  rw [show mem + 8 + size + 8 = mem + size + 16 by omega]

theorem Settled.addPool {mem bytes : Nat} (h : Settled pools c live) (hmem : 8 ∣ mem)
    (hbytes : poolBytes bytes = size) (h8 : 8 ∣ size) (hmin : 24 ≤ size)
    (hmax : size < blockSizeMax) (hspace : mem + size + 16 < addressSpace)
    (hfresh : ∀ r ∈ pools, Region.Disjoint ⟨mem, size + 16⟩ r) :
    ∃ c', c.addPool mem bytes = some (c', mem) ∧ Settled (⟨mem, size + 16⟩ :: pools) c' live := by
  obtain ⟨c', hrun, hsound, -⟩ := h.sound.addPool hmem hbytes h8 hmin hmax hspace hfresh
  have hheaders := Control.addPool_headers (Nat.mod_eq_zero_of_dvd hmem) hrun
  rw [hbytes] at hheaders
  refine ⟨c', hrun, hsound, ?_, ?_, ?_⟩
  · rw [hheaders]
    exact h.marked.addPool h.sound.laid hfresh hmin
  · rw [hheaders, usedSize_addPool h.sound.laid hfresh, h.live]
  · rw [hheaders]
    exact fun x hpair => h.coalesced x (hpair.of_addPool h.sound.laid hfresh)

/-- A pool in which no client has a block is one free block. -/
theorem Settled.vacant (h : Settled pools c live) {r : Region} (hr : r ∈ pools)
    (hnone : ∀ p, r.Contains p → live p = none) :
    ∃ b n, Vacant r c.headers b n := by
  have hroom := h.marked.room r hr
  obtain ⟨b, hb, -⟩ := h.marked.first r hr
  have hb0 : b.size ≠ 0 := by
    intro hzero
    obtain ⟨r', hr', hstop⟩ := h.marked.last _ b hb hzero
    obtain rfl := h.marked.pool_unique h.sound.laid hr hr'
      (.inr ⟨by omega, by unfold Region.stop at *; omega⟩)
    unfold Region.stop at hstop
    omega
  have hunused : ∀ q d, c.headers q = some d → r.Contains q → d.size ≠ 0 → d.free = true := by
    intro q d hd hin hd0
    refine Bool.of_not_eq_false fun hused => ?_
    have hlive := usedSize_some hd hused hd0
    rw [h.live, hnone q hin] at hlive
    cases hlive
  have hfree := hunused _ b hb ⟨by omega, by unfold Region.stop; omega⟩ hb0
  obtain ⟨-, -, n, hn⟩ := h.sound.laid.next_block hb hb0
  refine ⟨b, n, hb, hfree, hn, Classical.byContradiction fun hn0 => ?_⟩
  obtain ⟨r₁, hr₁, hbase, -, hend⟩ := h.sound.laid.within _ b hb
  have hend := hend hb0
  obtain rfl : r = r₁ := h.marked.pool_unique h.sound.laid hr₁ hr (.inl ⟨by omega, by omega⟩)
  obtain ⟨r₂, hr₂, hbase₂, -, hend₂⟩ := h.sound.laid.within _ n hn
  have hend₂ := hend₂ hn0
  obtain rfl : r = r₂ :=
    h.sound.laid.same_pool hr hr₂ (x := r.base + 8 + b.size + 7) ⟨by omega, by omega⟩
      ⟨by omega, by omega⟩
  exact h.coalesced _ ⟨b, n, hb, hfree, hn, hunused _ n hn ⟨by omega, by omega⟩ hn0⟩

theorem Settled.removePool (h : Settled pools c live) {r : Region} (hr : r ∈ pools)
    (hv : Vacant r c.headers b n) :
    ∃ c', c.removePool r.base = some c' ∧ Settled (pools.filter (· ≠ r)) c' live := by
  have hb0 := h.sound.laid.size_of_free hv.first hv.free
  have hnused := h.sound.laid.last _ n hv.next hv.last
  obtain ⟨c₁, hremove, hsame, hi⟩ := h.sound.indexed.remove List.not_mem_nil hv.first hv.free
  rw [Control.blockRemove, hv.first] at hremove
  refine ⟨{ c₁ with headers := withoutPool c₁.headers (r.base + 8) (r.base + 8 + b.size + 8) }, ?_,
    ⟨?_, ?_⟩, ?_, ?_, ?_⟩
  · have hremove :
        c.removeFreeBlock (r.base + 8) (mappingInsert b.size).1 (mappingInsert b.size).2 =
          some c₁ := hremove
    simp [Control.removePool, blockHeaderOverhead, hv.first, hv.free, hv.next, hv.last, guard,
      hnused, Control.blockNext_eq hv.first hb0, hremove, withoutPool]
  · dsimp only
    rw [hsame]
    exact h.sound.laid.removePool h.marked hr hv
  · refine hi.withHeaders fun x => ?_
    by_cases hx : x = r.base + 8
    · rw [hx, listedSize_hand List.mem_cons_self, listedSize, if_neg List.not_mem_nil]
      dsimp only
      rw [withoutPool, Function.update_of_ne (by omega), Function.update_self]
      rfl
    · by_cases hxn : x = r.base + 8 + b.size + 8
      · rw [hxn, listedSize, listedSize, if_neg List.not_mem_nil, if_neg (by simp; omega), hsame,
          hv.next]
        simp [withoutPool, hnused]
      · simp [listedSize, hx, withoutPool_of_ne hx hxn]
  · dsimp only
    rw [hsame]
    exact h.marked.removePool h.sound.laid hr hv
  · dsimp only
    rw [hsame, hv.usedSize, h.live]
  · dsimp only
    rw [hsame]
    exact fun x hpair => h.coalesced x hpair.of_removePool

end Gpcl.Tlsf
