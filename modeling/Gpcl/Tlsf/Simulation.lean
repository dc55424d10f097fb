import Gpcl.Tlsf.Steps

/-! # The operations in memory do what the operations on headers do

Whatever an operation on headers and lists makes of a state, the same operation in memory makes it
of words that hold the state; and it leaves what clients have before and after as it was. -/
namespace Gpcl.Tlsf
open Lib.Memory Lib.Bitmap Lib.Rings Lib.NullLists

variable {H H' K : Nat → Option Header} {pools : List Region} {w w' : Words} {c c' : Control}
    {hand : List Nat}
  {live : Nat → Option Nat} {q p s t v null block fl sl size : Nat} {b n d h : Header}

/-- The words for a state that an operation leads to. -/
structure Simulates (null : Nat) (w : Words) (c : Control) (w' : Words) (c' : Control) : Prop where
  holds : Holds null w' c'
  kept : Kept c.headers c'.headers w.mem w'.mem

theorem Relinked.simulates (h : Relinked c.headers w w') (hholds : Holds null w' c') :
    Simulates null w c w' c' :=
  ⟨hholds, fun x hx _ => h.kept x hx⟩

theorem Holds.simulates (h : Holds null w c) : Simulates null w c w c := ⟨h, fun _ _ _ => rfl⟩

/-! ## Lists -/

theorem Holds.blockInsert (hh : Holds null w c) (hl : Laid pools H)
    (hsub : ∀ x d, c.headers x = some d → H x = some d) (hi : Indexed c ((block + 16) :: hand))
    (hp : Placed null pools) (hb : c.headers (block + 16) = some b) (hfree : b.free = true)
    (hrun : c.blockInsert (block + 16) = some c') :
    ∃ w', w.blockInsert null block = some w' ∧ Holds null w' c' ∧ Relinked c.headers w w' := by
  have hsize : w.blockSize block = b.size := by
    rw [Words.blockSize, hh.sizes block b hb]
    exact clearBits_word (hl.aligned _ b (hsub _ b hb)).2
  rw [Control.blockInsert, hb] at hrun
  rw [Words.blockInsert, hsize]
  exact hh.insertFreeBlock hl hsub hi hp hb hfree hrun

theorem Control.mem_of_removeFreeBlock (h : c.removeFreeBlock q fl sl = some c') :
    q ∈ c.blocks fl sl := by
  rw [Control.removeFreeBlock, guard] at h
  split at h
  · assumption
  · cases h

theorem Holds.blockRemove (hh : Holds null w c) (hl : Laid pools c.headers) (hi : Indexed c hand)
    (hp : Placed null pools) (hb : c.headers (block + 16) = some b)
    (hrun : c.blockRemove (block + 16) = some c') :
    ∃ w', w.blockRemove null block = some w' ∧ Holds null w' c' ∧ Relinked c.headers w w' := by
  rw [Control.blockRemove, hb] at hrun
  rw [Words.blockRemove, hh.blockSize hl hb]
  exact hh.removeFreeBlock hl hi hp (Control.mem_of_removeFreeBlock hrun) hrun

/-- The first block of a list, and the null block at the head of an empty one. -/
theorem Holds.head (hh : Holds null w c) (hq : (c.blocks fl sl).head? = some q) :
    q = w.blocks fl sl + 16 := by
  obtain ⟨l, hlinked, hmap⟩ := hh.lists fl sl
  rw [hmap] at hq
  cases l with
  | nil => cases hq
  | cons x l =>
    rw [hlinked.1]
    exact (Option.some.inj hq).symm

theorem Holds.firstOf (hh : Holds null w c) {found : Option (Nat × Nat × Nat)}
    (h : c.firstOf fl sl = some found) :
    found = some (w.blocks fl sl + 16, fl, sl) := by
  simp only [Control.firstOf, Option.bind_eq_bind, Option.bind_eq_some_iff, Option.pure_def] at h
  obtain ⟨q, hq, hfound⟩ := h
  rw [← Option.some.inj hfound, hh.head hq]

theorem Holds.search (hh : Holds null w c) {found : Option (Nat × Nat × Nat)}
    (h : c.searchSuitableBlock fl sl = some found) :
    ∃ found', w.searchSuitableBlock fl sl = some found' ∧
    found = found'.map fun f => (f.1 + 16, f.2) := by
  unfold Control.searchSuitableBlock at h
  unfold Words.searchSuitableBlock
  rw [hh.slBits, hh.flBits]
  dsimp only at h ⊢
  by_cases hsl : upFrom (c.slBitmap fl) sl ≠ 0
  · rw [if_pos hsl] at h ⊢
    exact ⟨_, rfl, hh.firstOf h⟩
  · rw [if_neg hsl] at h ⊢
    by_cases hfl : upFrom c.flBitmap (fl + 1) = 0
    · rw [if_pos hfl] at h ⊢
      exact ⟨none, rfl, (Option.some.inj h).symm⟩
    · rw [if_neg hfl] at h ⊢
      by_cases hne : c.slBitmap (lowest (upFrom c.flBitmap (fl + 1))) ≠ 0
      · rw [guard, if_pos hne] at h ⊢
        exact ⟨_, rfl, hh.firstOf h⟩
      · rw [guard, if_neg hne] at h
        cases h

theorem Holds.blockLocateFree (hh : Holds null w c) (hl : Laid pools c.headers)
    (hi : Indexed c hand) (hp : Placed null pools) {found : Option Nat}
    (hrun : c.blockLocateFree size = some (c', found)) :
    ∃ w' found', w.blockLocateFree null size = some (w', found') ∧ found = found'.map (· + 16) ∧
    Holds null w' c' ∧ Relinked c.headers w w' := by
  have hsame : Relinked c.headers w w := ⟨fun _ _ _ => rfl, fun _ _ _ _ => rfl, fun _ _ => rfl⟩
  unfold Control.blockLocateFree at hrun
  unfold Words.blockLocateFree
  by_cases hzero : size = 0
  · rw [if_pos hzero] at hrun ⊢
    cases hrun
    exact ⟨w, none, rfl, rfl, hh, hsame⟩
  · rw [if_neg hzero] at hrun ⊢
    dsimp only at hrun ⊢
    by_cases hfl : (mappingSearch size).1 < flIndexCount
    · rw [if_pos hfl] at hrun ⊢
      obtain ⟨found₀, hsearch, hrun⟩ := Option.bind_eq_some_iff.mp hrun
      obtain ⟨found', hsearch', rfl⟩ := hh.search hsearch
      rw [hsearch']
      cases found' with
      | none =>
        cases hrun
        exact ⟨w, none, rfl, rfl, hh, hsame⟩
      | some f =>
        obtain ⟨block, fl, sl⟩ := f
        simp only [Option.map_some, Option.bind_eq_bind, Option.bind_some, Option.bind_eq_some_iff,
          Option.pure_def] at hrun ⊢
        obtain ⟨b, hb, _, hsize, c₁, hremove, hc⟩ := hrun
        cases hc
        have hsize : size ≤ b.size := by
          rw [guard] at hsize
          split at hsize
          · assumption
          · cases hsize
        obtain ⟨w', hremove', hholds, hrelinked⟩ :=
          hh.removeFreeBlock hl hi hp (Control.mem_of_removeFreeBlock hremove) hremove
        rw [hh.blockSize hl hb, guard, if_pos hsize]
        refine ⟨w', some block, ?_, rfl, hholds, hrelinked⟩
        simp [hremove']
    · rw [if_neg hfl] at hrun ⊢
      cases hrun
      exact ⟨w, none, rfl, rfl, hh, hsame⟩

/-! ## What stays in use -/

theorem usedByte_iff {x : Nat} :
    UsedByte H x ↔ ∃ q s, usedSize H q = some s ∧ q ≤ x ∧ x < q + s := by
  constructor
  · rintro ⟨q, b, hb, hused, hle, hlt⟩
    exact ⟨q, b.size, usedSize_some hb hused (by omega), hle, hlt⟩
  · rintro ⟨q, s, hs, hle, hlt⟩
    obtain ⟨b, hb, hused, rfl, -⟩ := usedSize_eq_some.mp hs
    exact ⟨q, b, hb, hused, hle, hlt⟩

theorem usedByte_congr (h : usedSize H' = usedSize H) {x : Nat} : UsedByte H' x ↔ UsedByte H x := by
  rw [usedByte_iff, usedByte_iff, h]

theorem Simulates.trans {w₁ : Words} {c₁ : Control} (h : Simulates null w c w₁ c₁)
    (h' : Simulates null w₁ c₁ w' c')
    (hmid : ∀ x, UsedByte c.headers x → UsedByte c'.headers x → UsedByte c₁.headers x) :
    Simulates null w c w' c' :=
  ⟨h'.holds, fun x hx hx' => (h'.kept x (hmid x hx hx') hx').trans (h.kept x hx (hmid x hx hx'))⟩

/-- Before a step that takes blocks into use. -/
theorem Simulates.before {w₁ : Words} {c₁ : Control} (h : Simulates null w c w₁ c₁)
    (h' : Simulates null w₁ c₁ w' c')
    (hlive : usedSize c₁.headers = usedSize c.headers) : Simulates null w c w' c' :=
  h.trans h' fun _ hx _ => (usedByte_congr hlive).mpr hx

/-- After a step that gives blocks back. -/
theorem Simulates.after {w₁ : Words} {c₁ : Control} (h : Simulates null w c w₁ c₁)
    (h' : Simulates null w₁ c₁ w' c')
    (hlive : usedSize c'.headers = usedSize c₁.headers) : Simulates null w c w' c' :=
  h.trans h' fun _ _ hx' => (usedByte_congr hlive).mp hx'

/-! ## Marking and trimming -/

theorem Holds.blockMarkAsUsed (hh : Holds null w c) (hw : Working pools c live (block + 16) s)
    (hrun : c.blockMarkAsUsed (block + 16) = some c') :
    ∃ w', w.blockMarkAsUsed block = some w' ∧ Simulates null w c w' c' := by
  obtain ⟨b, n, hb, hfree, rfl, hmin, -, -, -, -, hn⟩ := hw.facts
  rw [Control.blockMarkAsUsed_eq hb (by omega) hn] at hrun
  cases hrun
  obtain ⟨w', hrun', hholds, hkept⟩ := hh.markUsed hw.sound.laid hw.sound.indexed hb (by omega) hn
  exact ⟨w', hrun', hholds, hkept⟩

theorem Holds.canSplit (hh : Holds null w c) (hl : Laid pools c.headers)
    (hb : c.headers (block + 16) = some b) (size : Nat) :
    w.blockCanSplit block size = Control.blockCanSplit b size := by
  rw [Words.blockCanSplit, Control.blockCanSplit, hh.blockSize hl hb]

/-- A block has room for a split exactly if it is large enough for a second header and the smallest
block. -/
theorem canSplit_iff (hs : size < blockSizeMax) :
    Control.blockCanSplit b size = true ↔ size + 32 ≤ b.size := by
  unfold Control.blockCanSplit sizeofBlockHeader
  unfold blockSizeMax flIndexMax at hs
  rw [decide_eq_true_eq, Nat.mod_eq_of_lt (by unfold addressSpace; omega), Nat.add_comm]

/-- The words after `block_split` and the two stores that its callers for free blocks make, in
either order. -/
theorem Holds.splitFree (hh : Holds null w c) (hw : Working pools c live (block + 16) t)
    (hb : c.headers (block + 16) = some b) (hn : c.headers (block + 16 + b.size + 8) = some n)
    (h8s : 8 ∣ s) (hmin : 24 ≤ s) (hfit : s + 32 ≤ t) :
    ∃ w₁ w₂ w₃, w.blockSplit block s = some (w₁, block + s + 8) ∧
      w₁.blockLinkNext block = some (w₂, block + s + 8) ∧ w₂.blockSetPrevFree (block + s + 8) = w₃ ∧
      (w₁.blockSetPrevFree (block + s + 8)).blockLinkNext block = some (w₃, block + s + 8) ∧
      Holds null w₃ { c with headers := splitHeaders c.headers (block + 16) s b n } ∧
      Kept c.headers K w.mem w₃.mem := by
  obtain ⟨b', n', hb', hfree, rfl, hbmin, hmax, h8, -, hspace, -⟩ := hw.facts
  rw [hb] at hb'
  cases hb'
  have hl := hw.sound.laid
  have h8b := (hl.aligned _ b hb).2
  have hN : c.headers (block + b.size + 8 + 16) = some n := by
    rw [show block + b.size + 8 + 16 = block + 16 + b.size + 8 by omega]
    exact hn
  obtain ⟨w₁, prevFree, hsplit, hpatch, hinto⟩ :=
    Words.blockSplit_eq (hh.has hl hb) (hh.has hl hN) (by omega) h8s hmin hfit hspace
  have hlink := hinto.first.blockLinkNext (show s ≠ 0 by omega)
  have hsecond :
      (w₁.store (block + s + 8) block).Has (block + s + 8) ⟨0, b.size - (s + 8), true, prevFree⟩ :=
    hinto.second.store (by omega) (by omega) (by omega)
  have hflag := hinto.second.blockSetPrevFree
  have hfirst :
      (w₁.store (block + s + 8 + 8) (Header.mk 0 (b.size - (s + 8)) true true).word).Has block
        { b with size := s } :=
    hinto.first.store (by omega) (by omega) (by omega)
  have hlink' := hfirst.blockLinkNext (show s ≠ 0 by omega)
  -- the two words are apart
  have hcomm : ∀ v v' : Nat,
      (w₁.store (block + s + 8) v).store (block + s + 8 + 8) v' =
        (w₁.store (block + s + 8 + 8) v').store (block + s + 8) v := by
    intro v v'
    unfold Words.store
    rw [storeWord_comm (by unfold wordSize; omega)]
  have hinto₃ :
      SplitInto ((w₁.store (block + s + 8) block).store (block + s + 8 + 8)
        (Header.mk 0 (b.size - (s + 8)) true true).word) block s b n
      ⟨0, b.size - (s + 8), true, true⟩ := by
    have hinto₂ :=
      hinto.store (a := block + s + 8) (by omega) h8s h8b (by omega) (by omega) (by omega)
        (by omega) (by omega) block
    refine ⟨hinto₂.first.store (by omega) (by omega) (by omega),
      Words.has_store hinto₂.second.dvd hinto₂.second.lt,
      hinto₂.next.store (by omega) (by omega) (by omega), ?_⟩
    exact (loadWord_storeWord_ne (by omega) (by omega) (by omega)).trans hinto₂.phys
  have hphys :
      ((w₁.store (block + s + 8) block).store (block + s + 8 + 8)
        (Header.mk 0 (b.size - (s + 8)) true true).word).prevPhysBlock
      (block + s + 8) = block :=
    (loadWord_storeWord_ne (by omega) (by omega) (by omega)).trans
      (loadWord_storeWord _ _ (by omega))
  have hpatch₃ :
      Patch [block + s + 8 + 8, block + 8, block + b.size + 8, block + b.size + 8 + 8,
        block + s + 8] w
      ((w₁.store (block + s + 8) block).store (block + s + 8 + 8)
        (Header.mk 0 (b.size - (s + 8)) true true).word) :=
    ((hpatch.mono (by simp)).store (by simp) _).store (by simp) _
  refine ⟨w₁, _, _, hsplit, hlink, hsecond.blockSetPrevFree, ?_,
    hh.split hl hw.sound.indexed hb hfree List.mem_cons_self hn h8s hmin hfit hpatch₃ hinto₃ hphys⟩
  rw [hflag]
  refine hlink'.trans ?_
  rw [← hcomm]

section Trim

variable (hh : Holds null w c) (hw : Working pools c live (block + 16) t) (hp : Placed null pools)
    (h8s : 8 ∣ s)
include hh hw hp h8s

theorem Holds.blockTrimFree (hmin : 24 ≤ s) (hfit : s ≤ t)
    (hrun : c.blockTrimFree (block + 16) s = some c') :
    ∃ w', w.blockTrimFree null block s = some w' ∧ Simulates null w c w' c' := by
  obtain ⟨b, n, hb, hfree, hsize, hbmin, hmax, h8, -, hspace, hn⟩ := hw.facts
  have hl := hw.sound.laid
  have hbfree : w.blockIsFree block = true := by rw [hh.blockIsFree hl hb, hfree]
  have hcan := canSplit_iff (b := b) (show s < blockSizeMax by omega)
  rw [Words.blockTrimFree, guard, if_pos hbfree, hh.canSplit hl hb]
  by_cases hroom : s + 32 ≤ t
  · rw [Control.blockTrimFree_eq hb hn hfree h8 h8s hmin (by omega) (by omega)] at hrun
    obtain ⟨w₁, w₂, w₃, hsplit, hlink, hflag, -, hholds, hkept⟩ :=
      hh.splitFree (K := c'.headers) hw hb hn h8s hmin hroom
    have hsound := Held.split ⟨hw.sound, b, hb, hfree⟩ hb h8s hmin (by omega) hn
      (show ∀ x, x ∈ [block + 16 + s + 8, block + 16] ↔ x = block + 16 ∨
        x = block + 16 + s + 8 by simp [or_comm])
    have hrest : block + 16 + s + 8 = block + s + 8 + 16 := by omega
    have hsecond :=
      splitHeaders_second (H := c.headers) (q := block + 16) (s := s) (b := b) (n := n)
    have hheaders := Control.blockInsert_headers hrun
    rw [hrest] at hrun hsound hsecond
    obtain ⟨w', hinsert, hholds', hrelinked⟩ :=
      hholds.blockInsert hsound.laid (fun _ _ h => h) hsound.indexed hp hsecond rfl hrun
    refine ⟨w', ?_, hholds', fun x hx hx' => ?_⟩
    · rw [if_pos (hcan.mpr (by omega))]
      simp [hsplit, hlink, hflag, hinsert]
    · exact (hrelinked.kept x (hheaders ▸ hx')).trans (hkept x hx hx')
  · have hno : Control.blockCanSplit b s = false :=
      Bool.eq_false_iff.mpr fun htrue => hroom (by have := hcan.mp htrue; omega)
    have hcontrol : c.blockTrimFree (block + 16) s = some c := by
      simp [Control.blockTrimFree, hb, guard, hfree, hno]
    cases hcontrol.symm.trans hrun
    exact ⟨w, by simp [hno], hh.simulates⟩

theorem Holds.blockTrimFreeLeading (hmin : 32 ≤ s) (hfit : s + 32 ≤ t)
    (hrun : c.blockTrimFreeLeading (block + 16) s = some (c', q)) :
    ∃ w', w.blockTrimFreeLeading null block s = some (w', block + s) ∧
    Simulates null w c w' c' := by
  obtain ⟨b, n, hb, hfree, hsize, hbmin, hmax, h8, -, hspace, hn⟩ := hw.facts
  have hl := hw.sound.laid
  have hcan := canSplit_iff (b := b) (show s < blockSizeMax by omega)
  rw [Control.blockTrimFreeLeading_eq hb hn h8 h8s hmin (by omega) (by omega)] at hrun
  obtain ⟨c₁, hinsert₁, hc⟩ := Option.bind_eq_some_iff.mp hrun
  obtain ⟨rfl, -⟩ := Prod.mk.inj (Option.some.inj hc)
  obtain ⟨w₁, w₂, w₃, hsplit, -, -, hlink, hholds, hkept⟩ :=
    hh.splitFree (K := c₁.headers) (s := s - 8) hw hb hn (by omega) (by omega) (by omega)
  have hsound :=
    Held.split ⟨hw.sound, b, hb, hfree⟩ hb (show 8 ∣ s - 8 by omega) (by omega) (by omega) hn
    (show ∀ x, x ∈ [block + 16, block + 16 + (s - 8) + 8] ↔ x = block + 16 ∨
      x = block + 16 + (s - 8) + 8 by simp)
  have hfirst := splitHeaders_self (H := c.headers) (q := block + 16) (s := s - 8) (b := b) (n := n)
  have hheaders := Control.blockInsert_headers hinsert₁
  obtain ⟨w', hinsert, hholds', hrelinked⟩ :=
    hholds.blockInsert hsound.laid (fun _ _ h => h) hsound.indexed hp hfirst hfree hinsert₁
  have hsplit : w.blockSplit block (s - blockHeaderOverhead) = some (w₁, block + s) := by
    rw [show block + s = block + (s - 8) + 8 by omega]
    exact hsplit
  rw [show block + (s - 8) + 8 = block + s by omega] at hlink
  refine ⟨w', ?_, hholds', fun x hx hx' => ?_⟩
  · rw [Words.blockTrimFreeLeading, hh.canSplit hl hb, if_pos (hcan.mpr (by omega))]
    simp [hsplit, hlink, hinsert]
  · exact (hrelinked.kept x (hheaders ▸ hx')).trans (hkept x hx hx')

theorem Holds.blockPrepareUsed (hmin : 24 ≤ s) (hfit : s ≤ t)
    (hpairs : ∀ x, FreePair c.headers x → Precedes c x (block + 16))
    (hrun : c.blockPrepareUsed (some (block + 16)) s = some (c', p)) :
    ∃ w', w.blockPrepareUsed null (some block) s = some (w', p) ∧ Simulates null w c w' c' := by
  obtain ⟨c₁, t', htrim, -, -, hw₁, -⟩ := hw.trimFree h8s hmin hfit hpairs
  have hs0 : s ≠ 0 := by omega
  rw [Control.blockPrepareUsed, guard, if_pos hs0] at hrun
  simp only [Option.pure_def, Option.bind_eq_bind, Option.bind_some, htrim,
    Option.bind_eq_some_iff] at hrun
  obtain ⟨c₂, hmark, hc⟩ := hrun
  obtain ⟨rfl, rfl⟩ := Prod.mk.inj (Option.some.inj hc)
  obtain ⟨w₁, htrim', hsim₁⟩ := hh.blockTrimFree hw hp h8s hmin hfit htrim
  obtain ⟨w', hmark', hsim⟩ := hsim₁.holds.blockMarkAsUsed hw₁ hmark
  refine ⟨w', ?_, hsim₁.before hsim (hw₁.live.trans hw.live.symm)⟩
  rw [Words.blockPrepareUsed, guard, if_pos hs0]
  simp [htrim', hmark', blockToPtr, blockStartOffset]

end Trim

/-! ## Merging -/

theorem Holds.blockMergePrev (hh : Holds null w c) (hw : Working pools c live (block + 16) s)
    (hp : Placed null pools) (hrun : c.blockMergePrev (block + 16) = some (c', q)) :
    ∃ w' block', w.blockMergePrev null block = some (w', block') ∧ q = block' + 16 ∧
    Simulates null w c w' c' := by
  obtain ⟨b, n, hb, hfree, hsize, hbmin, hmax, h8, -, hspace, hn⟩ := hw.facts
  have hl := hw.sound.laid
  have hflag := hh.blockIsPrevFree hl hb
  rw [Words.blockMergePrev, Words.blockPrev, hflag]
  by_cases hprev : b.prevFree = true
  · obtain ⟨d, hd, hdfree, hend⟩ := hl.prev _ b hb hprev
    have hphys := hh.links block b hb hprev
    rw [Control.blockMergePrev, hb] at hrun
    simp only [Option.bind_eq_bind, Option.bind_some, if_pos hprev] at hrun
    generalize hblock : w.prevPhysBlock block = before at hphys
    rw [← hphys] at hd hend hrun
    have hlow := hp.low_block hl hd
    have hother : before + 16 ∉ [block + 16] := by
      rw [List.mem_singleton]
      omega
    obtain ⟨c₁, hremove, hsame, hi⟩ := hw.sound.indexed.remove hother hd hdfree
    obtain ⟨w₁, hremove', hholds₁, hrelinked⟩ := hh.blockRemove hl hw.sound.indexed hp hd hremove
    have hbefore : w.blockIsFree before = true := by rw [hh.blockIsFree hl hd, hdfree]
    rw [hd, Option.bind_some, guard, if_pos hdfree] at hrun
    have hl₁ : Laid pools c₁.headers := hsame ▸ hl
    rw [← hsame] at hd hb hn
    have hrest : before + d.size + 8 = block := by omega
    have hb' : c₁.headers (before + 16 + d.size + 8) = some b := by rw [hend]; exact hb
    have hn' : c₁.headers (before + 16 + d.size + 8 + b.size + 8) = some n := by rw [hend]; exact hn
    obtain ⟨w', habsorb', hholds', hkept⟩ :=
      hholds₁.absorb (K := c'.headers) hl₁ hi hd hb' hdfree hfree (by rw [hend]; simp) hn'
    rw [hend] at hholds'
    rw [hrest] at habsorb'
    have habsorb := Control.blockAbsorb_eq hd hb hn hend (hl₁.size_of_free hd hdfree)
    simp only [Option.pure_def, Option.bind_some, hremove, habsorb] at hrun
    obtain ⟨rfl, rfl⟩ := Prod.mk.inj (Option.some.inj hrun)
    refine ⟨w', before, ?_, rfl, hholds', fun x hx hx' => ?_⟩
    · have hne : before ≠ 0 := by omega
      simp [hprev, guard, hne, hbefore, hremove', habsorb']
    · exact (hkept x (hsame ▸ hx) hx').trans (hrelinked.kept x hx)
  · have hcontrol : c.blockMergePrev (block + 16) = some (c, block + 16) := by
      simp [Control.blockMergePrev, hb, hprev]
    cases hcontrol.symm.trans hrun
    exact ⟨w, block, by simp [hprev], rfl, hh.simulates⟩

theorem Holds.blockMergeNext (hh : Holds null w c) (hw : Working pools c live (block + 16) s)
    (hp : Placed null pools) (hrun : c.blockMergeNext (block + 16) = some (c', q)) :
    ∃ w', w.blockMergeNext null block = some (w', block) ∧ q = block + 16 ∧
    Simulates null w c w' c' := by
  obtain ⟨b, n, hb, hfree, hsize, hbmin, hmax, h8, -, hspace, hn⟩ := hw.facts
  have hl := hw.sound.laid
  have hb0 : b.size ≠ 0 := by omega
  have hN : c.headers (block + b.size + 8 + 16) = some n := by
    rw [show block + b.size + 8 + 16 = block + 16 + b.size + 8 by omega]
    exact hn
  rw [Words.blockMergeNext, hh.blockNext hl hb hb0]
  simp only [Option.bind_eq_bind, Option.bind_some]
  rw [guard, if_pos (by omega), hh.blockIsFree hl hN, hh.blockIsLast hl hb, decide_eq_false hb0]
  by_cases hnfree : n.free = true
  · have hother : block + b.size + 8 + 16 ∉ [block + 16] := by
      rw [List.mem_singleton]
      omega
    obtain ⟨c₁, hremove, hsame, hi⟩ := hw.sound.indexed.remove hother hN hnfree
    obtain ⟨w₁, hremove', hholds₁, hrelinked⟩ := hh.blockRemove hl hw.sound.indexed hp hN hremove
    obtain ⟨-, -, m, hm⟩ := hl.next_block hn (hl.size_of_free hn hnfree)
    rw [show block + b.size + 8 + 16 = block + 16 + b.size + 8 by omega] at hi hremove
    have hl₁ : Laid pools c₁.headers := hsame ▸ hl
    have hrun₁ := hrun
    rw [Control.blockMergeNext, Control.blockNext_eq hb hb0] at hrun₁
    simp only [Option.bind_eq_bind, Option.bind_some, hn, if_pos hnfree, hremove] at hrun₁
    rw [← hsame] at hb hn hm
    have habsorb := Control.blockAbsorb_eq hb hn hm rfl hb0
    simp only [habsorb, Option.bind_some, Option.pure_def] at hrun₁
    obtain ⟨rfl, rfl⟩ := Prod.mk.inj (Option.some.inj hrun₁)
    obtain ⟨w', habsorb', hholds', hkept⟩ :=
      hholds₁.absorb hl₁ hi hb hn hfree hnfree List.mem_cons_self hm
    refine ⟨w', ?_, rfl, hholds', fun x hx hx' => ?_⟩
    · simp [hnfree, guard, hremove', habsorb']
    · exact (hkept x (hsame ▸ hx) hx').trans (hrelinked.kept x hx)
  · have hcontrol : c.blockMergeNext (block + 16) = some (c, block + 16) := by
      simp [Control.blockMergeNext, Control.blockNext_eq hb hb0, hn, hnfree]
    cases hcontrol.symm.trans hrun
    exact ⟨w, by simp [hnfree], rfl, hh.simulates⟩

/-- Putting the block in hand into its list. -/
theorem Holds.insertHand (hh : Holds null w c) (hw : Working pools c live (block + 16) s)
    (hp : Placed null pools) (hrun : c.blockInsert (block + 16) = some c') :
    ∃ w', w.blockInsert null block = some w' ∧ Simulates null w c w' c' := by
  obtain ⟨b, hb, hfree, -⟩ := hw.block
  obtain ⟨w', hinsert, hholds, hrelinked⟩ :=
    hh.blockInsert hw.sound.laid (fun _ _ h => h) hw.sound.indexed hp hb hfree hrun
  exact ⟨w', hinsert, hrelinked.simulates hholds⟩

theorem Holds.blockTrimUsed (hh : Holds null w c) (hs : Settled pools c live)
    (hp : Placed null pools) (hlive : live (block + 16) = some t) (h8s : 8 ∣ s) (hmin : 24 ≤ s)
    (hmax : s < blockSizeMax) (hrun : c.blockTrimUsed (block + 16) s = some c') :
    ∃ w', w.blockTrimUsed null block s = some w' ∧ Simulates null w c w' c' := by
  obtain ⟨b, n, hb, hused, rfl, hne, hn⟩ := hs.used_block hlive
  have hl := hs.sound.laid
  obtain ⟨h8, hspace, -⟩ := hl.next_block hb hne
  have h8b := (hl.aligned _ b hb).2
  have hN : c.headers (block + b.size + 8 + 16) = some n := by
    rw [show block + b.size + 8 + 16 = block + 16 + b.size + 8 by omega]
    exact hn
  have hbused : w.blockIsFree block = false := by rw [hh.blockIsFree hl hb, hused]
  have hcan := canSplit_iff (b := b) hmax
  rw [Words.blockTrimUsed, guard, if_pos hbused, hh.canSplit hl hb]
  rw [Control.blockTrimUsed, hb] at hrun
  simp only [Option.bind_eq_bind, Option.bind_some, guard, if_pos hused, Option.pure_def] at hrun ⊢
  by_cases hroom : s + 32 ≤ b.size
  · rw [if_pos (hcan.mpr hroom)] at hrun ⊢
    obtain ⟨hcut, hpairs⟩ := hs.cut hb hused hn h8s hmin hroom
    have hflag :
        Control.modify { c with headers := cutHeaders c.headers (block + 16) s b n }
          (block + 16 + s + 8)
        (fun h => { h with prevFree := false }) =
          some { c with headers := cutHeaders c.headers (block + 16) s b n } := by
      have hr :
          cutHeaders c.headers (block + 16) s b n (block + 16 + s + 8) =
            some ⟨0, b.size - (s + 8), true, false⟩ := Function.update_self ..
      rw [Control.modify_eq hr, Control.setHeader]
      dsimp only
      rw [← hr, Function.update_eq_self]
    rw [Control.blockSplit_eq hb hn h8 h8s hroom hspace, Option.bind_some, hflag,
      Option.bind_some] at hrun
    obtain ⟨c₂, s₂, hnext, -, hw₂, hpairs₂⟩ := hcut.mergeNext hpairs
    obtain ⟨c₃, hinsert, hs₃⟩ := hw₂.insert hpairs₂
    rw [hnext, Option.bind_some, hinsert] at hrun
    cases hrun
    -- the same in memory
    obtain ⟨w₁, prevFree, hsplit, hpatch, hinto⟩ :=
      Words.blockSplit_eq (hh.has hl hb) (hh.has hl hN) (by omega) h8s hmin hroom hspace
    have hprev := hinto.second.blockSetPrevUsed
    have hinto₂ :
        SplitInto (w₁.store (block + s + 8 + 8) (Header.mk 0 (b.size - (s + 8)) true false).word)
          block s b n
        ⟨0, b.size - (s + 8), true, false⟩ := by
      refine ⟨hinto.first.store (by omega) (by omega) (by omega),
        Words.has_store hinto.second.dvd hinto.second.lt,
        hinto.next.store (by omega) (by omega) (by omega), ?_⟩
      exact (loadWord_storeWord_ne (by omega) (by omega) (by omega)).trans hinto.phys
    obtain ⟨hholds₂, hkept₂⟩ :=
      hh.cut hl hs.sound.indexed hb hused hn h8s hmin hroom (hpatch.store (by simp) _) hinto₂
    have hrest : block + 16 + s + 8 = block + s + 8 + 16 := by omega
    rw [hrest] at hcut hnext hinsert hw₂
    obtain ⟨w₃, hmerge, -, hsim₃⟩ := hholds₂.blockMergeNext hcut hp hnext
    obtain ⟨w₄, hput, hsim₄⟩ := hsim₃.holds.insertHand hw₂ hp hinsert
    have hsim :
        Simulates null w c _ { c with headers := cutHeaders c.headers (block + 16) s b n } :=
          ⟨hholds₂, hkept₂⟩
    refine ⟨w₄, ?_,
      (hsim.after hsim₃ (hw₂.live.trans hcut.live.symm)).after hsim₄ (hs₃.live.trans hw₂.live.symm)⟩
    rw [hsplit, Option.bind_some, hprev, hmerge, Option.bind_some, hput]
  · have hno : ¬ Control.blockCanSplit b s = true := fun htrue => hroom (hcan.mp htrue)
    rw [if_neg hno] at hrun ⊢
    cases hrun
    exact ⟨w, rfl, hh.simulates⟩

end Gpcl.Tlsf
