import Gpcl.Tlsf.Calls

/-! # tlsf_memalign, tlsf_free and tlsf_add_pool

None of them fails on blocks that are laid out and indexed, and they stay so. `tlsf_memalign`
returns null exactly when no list from the class of the size on has a block. -/
namespace Gpcl.Tlsf
open Lib.Memory Lib.Bitmap

variable {pools : List Region} {c c' : Control} {q p s size gap k : Nat} {b n d : Header}

/-! ## Sizes and gaps -/

theorem adjust_spec (hk : 3 ≤ k) (hk' : k ≤ 64) (hsize : size < addressSpace) :
    8 ∣ adjustRequestSize size (2 ^ k) ∧
    adjustRequestSize size (2 ^ k) < blockSizeMax ∧
    (adjustRequestSize size (2 ^ k) = 0 ∨ 24 ≤ adjustRequestSize size (2 ^ k)) := by
  obtain ⟨m, -, -, -, heq⟩ := alignUp_spec hk' hsize
  have h8 : 8 ∣ alignUp size (2 ^ k) := by
    rw [heq, Nat.dvd_mod_iff (by decide)]
    exact Nat.dvd_mul_right_of_dvd (Nat.pow_dvd_pow 2 hk) m
  unfold adjustRequestSize
  dsimp only
  split
  · split
    · rename_i hlt
      unfold blockSizeMin
      refine ⟨?_, Nat.max_lt.mpr ⟨hlt, by decide⟩, .inr (Nat.le_max_right ..)⟩
      obtain hmax | hmax := Nat.le_total (alignUp size (2 ^ k)) 24
      · rw [Nat.max_eq_right hmax]
        decide
      · rw [Nat.max_eq_left hmax]
        exact h8
    · exact ⟨Nat.dvd_zero 8, by decide, .inl rfl⟩
  · exact ⟨Nat.dvd_zero 8, by decide, .inl rfl⟩

theorem alignedSize_spec (hk : k < 64) (hsize : size < addressSpace) :
    8 ∣ alignedSize (2 ^ k) size ∧
    alignedSize (2 ^ k) size < blockSizeMax ∧
    (alignedSize (2 ^ k) size ≠ 0 → adjustRequestSize size alignSize ≠ 0) := by
  obtain ⟨h8, hlt, -⟩ := adjust_spec (k := 3) (by decide) (by decide) hsize
  unfold alignedSize
  dsimp only
  split
  · rename_i hbig
    have hk3 : 3 ≤ k := by
      refine Nat.le_of_lt ((Nat.pow_lt_pow_iff_right (a := 2) (by decide)).mp ?_)
      exact hbig.2
    obtain ⟨h8', hlt', -⟩ :=
      adjust_spec hk3 (by omega)
        (mod_addressSpace_lt (adjustRequestSize size alignSize + 2 ^ k + sizeofBlockHeader))
    exact ⟨h8', hlt', fun _ => hbig.1⟩
  · exact ⟨h8, hlt, fun hne => hne⟩

/-- A distance, when the end may be that of the address space. -/
theorem distance_eq {x y : Nat} (hx : 0 < x) (hle : x ≤ y) (hy : y ≤ addressSpace) :
    (y % addressSpace + (addressSpace - x)) % addressSpace = y - x := by
  obtain hlt | rfl := Nat.lt_or_eq_of_le hy
  · rw [Nat.mod_eq_of_lt hlt, show y + (addressSpace - x) = y - x + addressSpace by omega,
      Nat.add_mod_right, Nat.mod_eq_of_lt (by omega)]
  · rw [Nat.mod_self, Nat.zero_add, Nat.mod_eq_of_lt (by omega)]

theorem gapBefore_spec (hk : k < 64) (h8 : 8 ∣ q) (hpos : 0 < q) (hspace : q + 32 < addressSpace) :
    gapBefore q (2 ^ k) = 0 ∨ 32 ≤ gapBefore q (2 ^ k) ∧ 8 ∣ gapBefore q (2 ^ k) ∧
    gapBefore q (2 ^ k) + 32 < addressSpace := by
  have hq : q < addressSpace := by omega
  have hpow : 2 ^ k ≤ 2 ^ 63 := Nat.pow_le_pow_right (by decide) (by omega)
  have hspace64 : addressSpace = 2 ^ 63 + 2 ^ 63 := rfl
  by_cases hk3 : k < 3
  · refine .inl ?_
    have hdvd : 2 ^ k ∣ q := Nat.dvd_trans (Nat.pow_dvd_pow 2 (show k ≤ 3 by omega)) h8
    have hzero : (q + (addressSpace - q)) % addressSpace = 0 := by
      rw [Nat.add_sub_cancel' (by omega), Nat.mod_self]
    simp [gapBefore, alignPtr, alignUp_of_dvd (show k ≤ 64 by omega) hdvd hq, hzero]
  · have h8k : 8 ∣ 2 ^ k := Nat.pow_dvd_pow 2 (show 3 ≤ k by omega)
    obtain ⟨m, hle, hlt, hmax, heq⟩ := alignUp_spec (show k ≤ 64 by omega) hq
    obtain ⟨j, hj⟩ : 8 ∣ 2 ^ k * m := Nat.dvd_mul_right_of_dvd h8k m
    simp only [gapBefore, alignPtr, heq, distance_eq hpos hle hmax]
    by_cases hsmall : 2 ^ k * m - q ≠ 0 ∧ 2 ^ k * m - q < sizeofBlockHeader
    · rw [if_pos hsmall]
      obtain ⟨hne, hsmall⟩ := hsmall
      unfold sizeofBlockHeader at hsmall ⊢
      refine .inr ?_
      have hm : 2 ^ k * m < addressSpace := by omega
      rw [Nat.mod_eq_of_lt hm]
      obtain rfl | rfl | hk5 : k = 3 ∨ k = 4 ∨ 5 ≤ k := by omega
      · omega
      · -- 8 bytes are missing up to the first multiple of 16, and 24 more are needed
        have hgap : 2 ^ 4 * m - q = 8 := by omega
        obtain ⟨m', hle', hlt', hmax', heq'⟩ :=
          alignUp_spec (k := 4) (x := q + 32) (by decide) hspace
        rw [hgap, show (2 ^ 4 * m + max (32 - 8) (2 ^ 4)) % addressSpace = q + 32 by
          rw [Nat.mod_eq_of_lt (by omega)]
          omega, heq', distance_eq hpos (by omega) hmax']
        omega
      · have h32 : 2 ^ 5 ≤ 2 ^ k := Nat.pow_le_pow_right (by decide) hk5
        have hdvd : 2 ^ k ∣ addressSpace := Nat.pow_dvd_pow 2 (show k ≤ 64 by omega)
        have hnext : 2 ^ k * (m + 1) ≤ addressSpace := by
          obtain ⟨e, he⟩ := hdvd
          rw [he] at hm ⊢
          exact Nat.mul_le_mul_left _ (Nat.lt_of_mul_lt_mul_left hm)
        rw [Nat.max_eq_right (by omega), ← Nat.mul_succ,
          alignUp_of_dvd (by omega) ((Nat.dvd_mod_iff hdvd).mpr (Nat.dvd_mul_right ..))
            (mod_addressSpace_lt _),
          distance_eq hpos (by rw [Nat.mul_succ]; omega) hnext, Nat.mul_succ]
        omega
    · rw [if_neg hsmall]
      unfold sizeofBlockHeader at hsmall
      omega

/-! ## A free block in hand -/

structure Held (pools : List Region) (c : Control) (q : Nat) : Prop where
  sound : Sound pools c [q]
  free : ∃ b, c.headers q = some b ∧ b.free = true

/-- The block behind one that is not the last. -/
theorem Laid.next_block {H : Nat → Option Header} (h : Laid pools H) (hb : H q = some b)
    (hne : b.size ≠ 0) :
    8 ∣ q ∧ q + b.size + 8 < addressSpace ∧ ∃ n, H (q + b.size + 8) = some n :=
  ⟨(h.aligned q b hb).1, (h.bounds hb).2.2 hne, (h.next q b hb hne).2⟩

theorem Laid.none_between {H : Nat → Option Header} (h : Laid pools H) (hb : H q = some b)
    (hs : s < b.size) :
    H (q + s + 8) = none := by
  cases hd : H (q + s + 8) with
  | none => rfl
  | some d =>
    have := h.order q (q + s + 8) b d hb hd (by omega)
    omega

/-- Splitting a block in hand; both parts are in hand then. -/
theorem Held.split (h : Held pools c q) (hb : c.headers q = some b) (h8 : 8 ∣ s) (hmin : 24 ≤ s)
    (hfit : s + 32 ≤ b.size) (hn : c.headers (q + b.size + 8) = some n) {hand : List Nat}
    (hhand : ∀ x, x ∈ hand ↔ x = q ∨ x = q + s + 8) :
    Sound pools { c with headers := splitHeaders c.headers q s b n } hand := by
  obtain ⟨_, hb', hfree⟩ := h.free
  rw [hb] at hb'
  cases hb'
  exact ⟨h.sound.laid.split hb hn hfree h8 hmin hfit,
    h.sound.indexed.split hn (h.sound.laid.none_between (s := s) hb (by omega)) hhand⟩

/-- Putting a block of two in hand into its list. -/
theorem Sound.insert {hand : List Nat} (h : Sound pools c (q :: hand)) (hq : q ∉ hand)
    (hb : c.headers q = some b) (hfree : b.free = true) :
    ∃ c', c.blockInsert q = some c' ∧ c'.headers = c.headers ∧ Sound pools c' hand := by
  have hne := h.laid.size_of_free hb hfree
  obtain ⟨h8, hspace, -⟩ := h.laid.next_block hb hne
  obtain ⟨c', hrun, hsame, hi⟩ :=
    h.indexed.insert hq hb hfree (alignPtr_of_dvd h8 (by omega)).symm (h.laid.bounds hb).2.1
  exact ⟨c', hrun, hsame, h.headers hsame hi⟩

theorem Held.trimFree (h : Held pools c q) (h8 : 8 ∣ s) (hmin : 24 ≤ s) (hmax : s < blockSizeMax) :
    ∃ c', c.blockTrimFree q s = some c' ∧ Held pools c' q := by
  obtain ⟨b, hb, hfree⟩ := h.free
  have hne := h.sound.laid.size_of_free hb hfree
  obtain ⟨h8q, hspace, n, hn⟩ := h.sound.laid.next_block hb hne
  by_cases hfit : s + 32 ≤ b.size
  · rw [Control.blockTrimFree_eq hb hn hfree h8q h8 hmin hfit hspace]
    have hsplit :=
      h.split hb h8 hmin hfit hn
        (show ∀ x, x ∈ [q + s + 8, q] ↔ x = q ∨ x = q + s + 8 by simp [or_comm])
    have hother : q + s + 8 ∉ [q] := by
      rw [List.mem_singleton]
      omega
    obtain ⟨c', hrun, hsame, hsound⟩ := hsplit.insert hother (Function.update_self ..) rfl
    refine ⟨c', hrun, hsound, { b with size := s }, ?_, hfree⟩
    rw [hsame]
    dsimp only [splitHeaders]
    rw [Function.update_of_ne (by omega), Function.update_self]
  · have hsplit : Control.blockCanSplit b s = false := by
      unfold Control.blockCanSplit sizeofBlockHeader
      unfold blockSizeMax flIndexMax at hmax
      rw [decide_eq_false_iff_not, Nat.mod_eq_of_lt (by unfold addressSpace; omega)]
      omega
    refine ⟨c, ?_, h⟩
    simp [Control.blockTrimFree, hb, guard, hfree, hsplit]

theorem Held.trimFreeLeading (h : Held pools c q) (h8 : 8 ∣ gap) (hmin : 32 ≤ gap)
    (hgap : gap + 32 < addressSpace) :
    ∃ c' q', c.blockTrimFreeLeading q gap = some (c', q') ∧ Held pools c' q' := by
  obtain ⟨b, hb, hfree⟩ := h.free
  have hne := h.sound.laid.size_of_free hb hfree
  obtain ⟨h8q, hspace, n, hn⟩ := h.sound.laid.next_block hb hne
  by_cases hfit : gap + 32 ≤ b.size
  · rw [Control.blockTrimFreeLeading_eq hb hn h8q h8 hmin hfit hspace]
    obtain ⟨s, rfl⟩ : ∃ s, gap = s + 8 := ⟨gap - 8, by omega⟩
    rw [Nat.add_sub_cancel]
    have hsplit := h.split hb (show 8 ∣ s by omega) (by omega) (by omega) hn
      (show ∀ x, x ∈ [q, q + s + 8] ↔ x = q ∨ x = q + s + 8 by simp)
    have hother : q ∉ [q + s + 8] := by
      rw [List.mem_singleton]
      omega
    obtain ⟨c', hrun, hsame, hsound⟩ := hsplit.insert hother splitHeaders_self hfree
    refine ⟨c', q + (s + 8), by rw [hrun]; rfl, hsound, ⟨q, b.size - (s + 8), true, true⟩, ?_, rfl⟩
    rw [hsame]
    exact splitHeaders_second
  · have hsplit : Control.blockCanSplit b gap = false := by
      unfold Control.blockCanSplit sizeofBlockHeader
      rw [decide_eq_false_iff_not, Nat.mod_eq_of_lt (by omega)]
      omega
    refine ⟨c, q, ?_, h⟩
    simp [Control.blockTrimFreeLeading, hb, hsplit]

/-- A block that a client may have. -/
def InUse (c : Control) (p : Nat) : Prop := ∃ b, c.headers p = some b ∧ b.free = false ∧ b.size ≠ 0

theorem Held.prepareUsed (h : Held pools c q) (h8 : 8 ∣ s) (hmin : 24 ≤ s)
    (hmax : s < blockSizeMax) :
    ∃ c', c.blockPrepareUsed (some q) s = some (c', q) ∧ Sound pools c' [] ∧ InUse c' q := by
  obtain ⟨c₁, htrim, h₁⟩ := h.trimFree h8 hmin hmax
  obtain ⟨b, hb, hfree⟩ := h₁.free
  have hne := h₁.sound.laid.size_of_free hb hfree
  obtain ⟨-, -, n, hn⟩ := h₁.sound.laid.next_block hb hne
  refine ⟨{ c₁ with headers := usedHeaders c₁.headers q b n }, ?_,
    ⟨h₁.sound.laid.used hb hn, h₁.sound.indexed.used hn⟩,
    { b with free := false }, Function.update_self .., rfl, hne⟩
  simp [Control.blockPrepareUsed, guard, show s ≠ 0 by omega, htrim,
    Control.blockMarkAsUsed_eq hb hne hn]

/-! ## Allocating -/

theorem Sound.memalign (h : Sound pools c []) (hk : k < 64) (hsize : size < addressSpace) :
    (¬ Locates c (alignedSize (2 ^ k) size) ∧ c.memalign (2 ^ k) size = some (c, 0)) ∨
      ∃ c' p, Locates c (alignedSize (2 ^ k) size) ∧ c.memalign (2 ^ k) size = some (c', p) ∧
      p ≠ 0 ∧ Sound pools c' [] ∧
        InUse c' p := by
  obtain ⟨h8, hmax, hadjust⟩ := alignedSize_spec hk hsize
  obtain ⟨h8a, hmaxa, hmina⟩ := adjust_spec (k := 3) (by decide) (by decide) hsize
  have hpow : 2 ^ k &&& (2 ^ k - 1) = 0 := by rw [Nat.and_two_pow_sub_one_eq_mod, Nat.mod_self]
  unfold Control.memalign
  rw [guard, if_pos hpow]
  dsimp only
  obtain ⟨hnone, hrun⟩ | ⟨q, c₁, b, hloc, hrun, hsame, hi, hb, hfree, -⟩ := h.indexed.locate h8 hmax
  · rw [hrun]
    exact .inl ⟨hnone, rfl⟩
  · right
    have hne := hadjust hloc.1
    have hmin : 24 ≤ adjustRequestSize size alignSize := hmina.resolve_left hne
    have hheld : Held pools c₁ q := ⟨h.headers hsame hi, b, by rw [hsame]; exact hb, hfree⟩
    obtain ⟨hpos, -, -⟩ := h.laid.bounds hb
    have hb0 := h.laid.size_of_free hb hfree
    obtain ⟨h8q, hspace, -⟩ := h.laid.next_block hb hb0
    have hbmin := (h.laid.next q b hb hb0).1
    have hgap := gapBefore_spec hk h8q (by omega) (by omega)
    rw [hrun]
    dsimp only [Option.bind_eq_bind, Option.pure_def, Option.bind_some]
    by_cases hzero : gapBefore q (2 ^ k) = 0
    · obtain ⟨c', hprepare, hsound, huse⟩ := hheld.prepareUsed h8a hmin hmaxa
      refine ⟨c', q, hloc, ?_, by omega, hsound, huse⟩
      rw [if_neg (not_not_intro hzero)]
      exact hprepare
    · obtain ⟨h32, h8g, hroom⟩ := hgap.resolve_left hzero
      obtain ⟨c₂, q', htrim, hheld'⟩ := hheld.trimFreeLeading h8g h32 hroom
      obtain ⟨c', hprepare, hsound, huse⟩ := hheld'.prepareUsed h8a hmin hmaxa
      have hpos' : 8 ≤ q' := by
        obtain ⟨b', hb', -⟩ := huse
        exact (hsound.laid.bounds hb').1
      have hmin' : sizeofBlockHeader ≤ gapBefore q (2 ^ k) := h32
      refine ⟨c', q', hloc, ?_, by omega, hsound, huse⟩
      rw [if_pos hzero, guard, if_pos hmin']
      dsimp only [Option.pure_def, Option.bind_some]
      rw [htrim]
      exact hprepare

/-! ## Freeing -/

theorem Control.blockAbsorb_eq (hd : c.headers p = some d) (hb : c.headers q = some b)
    (hn : c.headers (q + b.size + 8) = some n) (hq : p + d.size + 8 = q) (hd0 : d.size ≠ 0) :
    c.blockAbsorb p q = some { c with headers := absorbHeaders c.headers p q d b n } := by
  generalize hc₁ : Control.setHeader { c with headers := Function.update c.headers q none } p
    { d with size := d.size + b.size + blockHeaderOverhead } = c₁
  have hp₁ : c₁.headers p = some { d with size := d.size + b.size + 8 } := by
    rw [← hc₁]
    exact Function.update_self ..
  have hend : p + (d.size + b.size + 8) + 8 = q + b.size + 8 := by omega
  have hn₁ : c₁.headers (p + (d.size + b.size + 8) + 8) = some n := by
    rw [hend, ← hc₁, Control.setHeader_headers, Function.update_of_ne (by omega)]
    dsimp only
    rw [Function.update_of_ne (by omega), hn]
  have hlink := Control.blockLinkNext_eq hp₁ (show d.size + b.size + 8 ≠ 0 by omega) hn₁
  simp only [Control.blockAbsorb, hd, hb, Option.bind_eq_bind, Option.bind_some]
  rw [guard, if_pos hd0]
  dsimp only [Option.pure_def, Option.bind_some]
  rw [hc₁, hlink]
  simp only [Option.bind_some, ← hc₁, Control.setHeader, absorbHeaders, hend]
  congr 2
  funext x
  by_cases hxn : x = q + b.size + 8
  · have hxp : x ≠ p := by omega
    have hxq : x ≠ q := by omega
    simp [← hxn, hxp, hxq]
  · simp [Function.update_apply, hxn, blockHeaderOverhead]

theorem Sound.absorb {hand : List Nat} (h : Sound pools c hand)
    (hhand : ∀ x, x ∈ hand ↔ x = p ∨ x = q) (hd : c.headers p = some d) (hb : c.headers q = some b)
    (hq : p + d.size + 8 = q) (hfree : d.free = true) (hb0 : b.size ≠ 0) :
    ∃ c', c.blockAbsorb p q = some c' ∧ Held pools c' p := by
  obtain ⟨-, -, n, hn⟩ := h.laid.next_block hb hb0
  exact ⟨_, Control.blockAbsorb_eq hd hb hn hq (h.laid.size_of_free hd hfree),
    ⟨h.laid.absorb hd hb hn hq hfree hb0, h.indexed.absorb hhand hn⟩,
      { d with size := d.size + b.size + 8 },
    Function.update_self .., hfree⟩

theorem Held.mergePrev (h : Held pools c q) :
    ∃ c' q', c.blockMergePrev q = some (c', q') ∧ Held pools c' q' := by
  obtain ⟨b, hb, hfree⟩ := h.free
  by_cases hprev : b.prevFree = true
  · obtain ⟨d, hd, hdfree, hend⟩ := h.sound.laid.prev q b hb hprev
    have hother : b.prevPhys ∉ [q] := by
      rw [List.mem_singleton]
      omega
    obtain ⟨c₁, hremove, hsame, hi⟩ := h.sound.indexed.remove hother hd hdfree
    have h₁ := h.sound.headers hsame hi
    obtain ⟨c', habsorb, hheld⟩ :=
      h₁.absorb (p := b.prevPhys) (q := q) (by simp) (by rw [hsame]; exact hd)
        (by rw [hsame]; exact hb)
      hend hdfree (h.sound.laid.size_of_free hb hfree)
    exact ⟨c', b.prevPhys,
      by simp [Control.blockMergePrev, hb, hprev, hd, guard, hdfree, hremove, habsorb], hheld⟩
  · exact ⟨c, q, by simp [Control.blockMergePrev, hb, hprev], h⟩

theorem Held.mergeNext (h : Held pools c q) :
    ∃ c', c.blockMergeNext q = some (c', q) ∧ Held pools c' q := by
  obtain ⟨b, hb, hfree⟩ := h.free
  have hne := h.sound.laid.size_of_free hb hfree
  obtain ⟨-, -, n, hn⟩ := h.sound.laid.next_block hb hne
  by_cases hnfree : n.free = true
  · have hother : q + b.size + 8 ∉ [q] := by
      rw [List.mem_singleton]
      omega
    obtain ⟨c₁, hremove, hsame, hi⟩ := h.sound.indexed.remove hother hn hnfree
    have h₁ := h.sound.headers hsame hi
    obtain ⟨c', habsorb, hheld⟩ :=
      h₁.absorb (p := q) (q := q + b.size + 8) (by simp [or_comm]) (by rw [hsame]; exact hb)
      (by rw [hsame]; exact hn) rfl hfree (h.sound.laid.size_of_free hn hnfree)
    exact ⟨c', by simp [Control.blockMergeNext, Control.blockNext_eq hb hne, hn, hnfree, hremove,
      habsorb], hheld⟩
  · exact ⟨c, by simp [Control.blockMergeNext, Control.blockNext_eq hb hne, hn, hnfree], h⟩

theorem Sound.free (h : Sound pools c []) (hp : InUse c p) :
    ∃ c', c.free p = some c' ∧ Sound pools c' [] := by
  obtain ⟨b, hb, hused, hne⟩ := hp
  obtain ⟨-, -, n, hn⟩ := h.laid.next_block hb hne
  have hpos := (h.laid.bounds hb).1
  have h₁ : Held pools { c with headers := freedHeaders c.headers p b n } p :=
    ⟨⟨h.laid.freed hb hn hne, h.indexed.freed hb hused hn⟩, { b with free := true },
      Function.update_self .., rfl⟩
  obtain ⟨c₂, q, hprev, h₂⟩ := h₁.mergePrev
  obtain ⟨c₃, hnext, h₃⟩ := h₂.mergeNext
  obtain ⟨d, hd, hfree⟩ := h₃.free
  obtain ⟨c₄, hinsert, -, h₄⟩ := h₃.sound.insert List.not_mem_nil hd hfree
  refine ⟨c₄, ?_, h₄⟩
  simp [Control.free, show p ≠ 0 by omega, hb, guard, hused, Control.blockMarkAsFree_eq hb hne hn,
    hprev, hnext, hinsert]

/-! ## Adding a pool -/

theorem Sound.create : Sound [] Control.construct [] := ⟨Laid.empty, Indexed.construct⟩

open Control (poolBytes)

theorem poolBytes_spec {bytes : Nat} (hbytes : bytes < addressSpace) : 8 ∣ poolBytes bytes ∧
    (16 ≤ bytes → poolBytes bytes = bytes - 16 - bytes % 8) ∧
    (bytes < 16 → blockSizeMax < poolBytes bytes) := by
  unfold poolBytes alignDown alignSize poolOverhead blockHeaderOverhead blockSizeMax flIndexMax
  unfold addressSpace at *
  omega

/-- The whole pool is a free block then. -/
theorem Sound.addPool {mem bytes : Nat} (h : Sound pools c []) (hmem : 8 ∣ mem)
    (hbytes : poolBytes bytes = size) (h8 : 8 ∣ size) (hmin : 24 ≤ size)
    (hmax : size < blockSizeMax) (hspace : mem + size + 16 < addressSpace)
    (hfresh : ∀ r ∈ pools, Region.Disjoint ⟨mem, size + 16⟩ r) :
    ∃ c', c.addPool mem bytes = some (c', mem) ∧ Sound (⟨mem, size + 16⟩ :: pools) c' [] ∧
      c'.blocks (mappingInsert size).1 (mappingInsert size).2 ≠ [] := by
  have hempty : ∀ x, mem + 8 ≤ x → x < mem + size + 24 → c.headers x = none := by
    intro x hle hlt
    cases he : c.headers x with
    | none => rfl
    | some e =>
      have := h.laid.outside hfresh he
      omega
  have hfirst :
      (c.setHeader (mem + 8) ⟨0, size, true, false⟩).headers (mem + 8) =
        some ⟨0, size, true, false⟩ := Function.update_self ..
  have hi : Indexed (c.setHeader (mem + 8) ⟨0, size, true, false⟩) [mem + 8] := by
    refine h.indexed.withHeaders fun x => ?_
    by_cases hx : x = mem + 8
    · simp [listedSize, hx, hempty (mem + 8) (by omega) (by omega)]
    · simp [listedSize, hx]
  obtain ⟨c₁, hinsert, hsame, hi₁⟩ :=
    hi.insert List.not_mem_nil hfirst rfl
      (alignPtr_of_dvd (show 8 ∣ mem + 8 by omega) (by omega)).symm hmax
  have hlisted : mem + 8 ∈ c₁.blocks (mappingInsert size).1 (mappingInsert size).2 :=
    (hi₁.listed _ _ _).mpr ⟨size,
      listedSize_some (by rw [hsame]; exact hfirst) rfl List.not_mem_nil, rfl⟩
  have hnext : c₁.headers (mem + size + 16) = none := by
    rw [hsame, Control.setHeader_headers, Function.update_of_ne (by omega)]
    exact hempty _ (by omega) (by omega)
  have hheaders :
      (c₁.setHeader (mem + size + 16) ⟨mem + 8, 0, false, true⟩).headers =
        poolHeaders c.headers mem size := by
    rw [Control.setHeader_headers, hsame]
    rfl
  refine ⟨c₁.setHeader (mem + size + 16) ⟨mem + 8, 0, false, true⟩, ?_, ⟨?_, ?_⟩,
    List.ne_nil_of_mem hlisted⟩
  · have hmod : ¬ mem % alignSize ≠ 0 := not_not_intro (Nat.mod_eq_zero_of_dvd hmem)
    have hrange : blockSizeMin ≤ size ∧ size ≤ blockSizeMax := ⟨hmin, Nat.le_of_lt hmax⟩
    have hlink : c₁.blockNext (mem + 8) = some (mem + size + 16) := by
      rw [Control.blockNext_eq (by rw [hsame]; exact hfirst) (show size ≠ 0 by omega)]
      exact congrArg some (show mem + 8 + size + 8 = mem + size + 16 by omega)
    simp [Control.addPool, hbytes, hmod, guard, hrange, blockHeaderOverhead, hinsert, hlink]
  · rw [hheaders]
    exact h.laid.addPool hmem h8 hmin hmax hspace hfresh
  · refine hi₁.withHeaders fun x => ?_
    by_cases hx : x = mem + size + 16
    · simp [listedSize, hx, hnext]
    · simp [listedSize, hx]

theorem Control.blockInsert_fl {c : Control} (hb : c.headers q = some b)
    (h : c.blockInsert q = some c') :
    (mappingInsert b.size).1 < flIndexCount := by
  simp only [Control.blockInsert, hb, Control.insertFreeBlock, Option.bind_eq_bind,
    Option.bind_some, Option.bind_eq_some_iff, guard] at h
  obtain ⟨_, hfl, -⟩ := h
  split at hfl
  · assumption
  · cases hfl

theorem mappingInsert_max : (mappingInsert blockSizeMax).1 = flIndexCount := by
  have hlog : Nat.log2 blockSizeMax = flIndexMax := Nat.log2_two_pow
  have hlarge : smallBlockSize ≤ blockSizeMax := by decide
  rw [mappingInsert_large hlarge, hlog]
  rfl

/-- A pool of another size is refused; one of 2³² bytes has no list. -/
theorem Control.addPool_range {mem bytes : Nat} (hmem : 8 ∣ mem)
    (h : c.addPool mem bytes = some (c', p)) :
    24 ≤ poolBytes bytes ∧ poolBytes bytes < blockSizeMax := by
  have hmod : ¬ mem % alignSize ≠ 0 := not_not_intro (Nat.mod_eq_zero_of_dvd hmem)
  rw [Control.addPool, if_neg hmod] at h
  generalize poolBytes bytes = size at h
  simp only [Option.bind_eq_bind, Option.bind_eq_some_iff, guard] at h
  obtain ⟨_, hrange, c₁, hinsert, -⟩ := h
  split at hrange
  · rename_i hin
    refine ⟨hin.1, Nat.lt_of_le_of_ne hin.2 fun heq => ?_⟩
    have hfl := Control.blockInsert_fl (Function.update_self ..) hinsert
    rw [heq, mappingInsert_max] at hfl
    exact Nat.lt_irrefl _ hfl
  · cases hrange

end Gpcl.Tlsf
