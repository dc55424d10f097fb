import Gpcl.Tlsf.Coalesce

/-! # What the operations do to what clients have

Between two calls no two free blocks are next to each other. Within a call there may be such a pair
where the operation works: at the block that it has in hand, or at the one before it. -/
namespace Gpcl.Tlsf
open Lib.Memory

variable {pools : List Region} {c c' : Control} {live : Nat → Option Nat} {q p s x gap : Nat}
    {b n d : Header}

/-- `x` is the block before `q`. -/
def Precedes (c : Control) (x q : Nat) : Prop := ∃ d, c.headers x = some d ∧ x + d.size + 8 = q

/-- A free block of this size is in hand, and clients have the blocks `live`. -/
structure Working (pools : List Region) (c : Control) (live : Nat → Option Nat)
  (q s : Nat) : Prop where
  sound : Sound pools c [q]
  marked : Marked pools c.headers
  live : usedSize c.headers = live
  block : ∃ b, c.headers q = some b ∧ b.free = true ∧ b.size = s

structure Settled (pools : List Region) (c : Control) (live : Nat → Option Nat) : Prop where
  sound : Sound pools c []
  marked : Marked pools c.headers
  live : usedSize c.headers = live
  coalesced : ∀ x, ¬ FreePair c.headers x

theorem Settled.create : Settled [] Control.construct fun _ => none :=
  ⟨Sound.create, Marked.empty, rfl, fun _ ⟨_, _, hq, _⟩ => by cases hq⟩

/-- What is known of a block in hand and of the one behind it. -/
theorem Working.facts (h : Working pools c live q s) :
    ∃ b n, c.headers q = some b ∧ b.free = true ∧ b.size = s ∧ 24 ≤ s ∧
    s < blockSizeMax ∧ 8 ∣ q ∧ 8 ≤ q ∧ q + s + 8 < addressSpace ∧
    c.headers (q + b.size + 8) = some n := by
  obtain ⟨b, hb, hfree, hsize⟩ := h.block
  have hne := h.sound.laid.size_of_free hb hfree
  obtain ⟨h8, hspace, n, hn⟩ := h.sound.laid.next_block hb hne
  exact ⟨b, n, hb, hfree, hsize, hsize ▸ (h.sound.laid.next q b hb hne).1,
    hsize ▸ (h.sound.laid.bounds hb).2.1, h8, (h.sound.laid.bounds hb).1, hsize ▸ hspace, hn⟩

/-! ## Lists only -/

theorem Settled.locate (h : Settled pools c live) (h8 : 8 ∣ s) (hmax : s < blockSizeMax) :
    (¬ Locates c s ∧ c.blockLocateFree s = some (c, none)) ∨
      ∃ q c' t, Locates c s ∧ c.blockLocateFree s = some (c', some q) ∧ s ≤ t ∧
      Working pools c' live q t ∧
        ∀ x, ¬ FreePair c'.headers x := by
  obtain hnone | ⟨q, c', b, hloc, hrun, hsame, hi, hb, hfree, hle⟩ := h.sound.indexed.locate h8 hmax
  · exact .inl hnone
  · refine .inr ⟨q, c', b.size, hloc, hrun, hle,
      ⟨h.sound.headers hsame hi, ?_, ?_, b, ?_, hfree, rfl⟩, ?_⟩
    · rw [hsame]
      exact h.marked
    · rw [hsame]
      exact h.live
    · rw [hsame]
      exact hb
    · rw [hsame]
      exact h.coalesced

theorem Working.insert (h : Working pools c live q s) (hpairs : ∀ x, ¬ FreePair c.headers x) :
    ∃ c', c.blockInsert q = some c' ∧ Settled pools c' live := by
  obtain ⟨b, hb, hfree, -⟩ := h.block
  obtain ⟨c', hrun, hsame, hsound⟩ := h.sound.insert List.not_mem_nil hb hfree
  refine ⟨c', hrun, hsound, ?_, ?_, ?_⟩
  · rw [hsame]
    exact h.marked
  · rw [hsame]
    exact h.live
  · rw [hsame]
    exact hpairs

/-! ## Taking a block into use -/

theorem Working.markUsed (h : Working pools c live q s)
    (hpairs : ∀ x, FreePair c.headers x → x = q ∨ Precedes c x q) :
    ∃ c', c.blockMarkAsUsed q = some c' ∧ Settled pools c' (Function.update live q (some s)) := by
  obtain ⟨b, n, hb, hfree, rfl, hmin, -, -, -, -, hn⟩ := h.facts
  refine ⟨_, Control.blockMarkAsUsed_eq hb (by omega) hn,
    ⟨⟨h.sound.laid.used hb hn, h.sound.indexed.used hn⟩, ?_, ?_, ?_⟩⟩
  · exact h.marked.used h.sound.laid hb hn
  · rw [← h.live]
    exact usedSize_used hn (by omega)
  · intro x hpair
    obtain ⟨hbefore, hxq, hnext⟩ := hpair.of_used hb hn
    obtain hx | ⟨d, hd, hend⟩ := hpairs x hbefore
    · exact hxq hx
    · exact hnext d hd hend

/-- The two parts of a block in hand; the block of the two that is put into a list does not matter
here. -/
theorem Working.split (h : Working pools c live q s) {t : Nat} (h8 : 8 ∣ t) (hmin : 24 ≤ t)
    (hfit : t + 32 ≤ s) (hb : c.headers q = some b) (hn : c.headers (q + b.size + 8) = some n) :
    Marked pools (splitHeaders c.headers q t b n) ∧
    usedSize (splitHeaders c.headers q t b n) = live ∧
      ∀ x, FreePair (splitHeaders c.headers q t b n) x → x = q ∨
      (x = q + t + 8 ∧ FreePair c.headers q) ∨ FreePair c.headers x := by
  obtain ⟨b', hb', hfree, rfl⟩ := h.block
  rw [hb] at hb'
  cases hb'
  refine ⟨h.marked.split h.sound.laid hb hn (by omega) (by omega), ?_, ?_⟩
  · rw [usedSize_split h.sound.laid hb hn hfree (by omega), h.live]
  · exact fun x hpair => hpair.of_split h.sound.laid hb hn hfree (by omega)

theorem Working.trimFree (h : Working pools c live q s) {t : Nat} (h8 : 8 ∣ t) (hmin : 24 ≤ t)
    (hfit : t ≤ s) (hpairs : ∀ x, FreePair c.headers x → Precedes c x q) :
    ∃ c' s', c.blockTrimFree q t = some c' ∧ t ≤ s' ∧ s' < t + 32 ∧ Working pools c' live q s' ∧
      ∀ x, FreePair c'.headers x → x = q ∨ Precedes c' x q := by
  obtain ⟨b, n, hb, hfree, rfl, hmin', hmax, h8q, hq8, hspace, hn⟩ := h.facts
  by_cases hroom : t + 32 ≤ b.size
  · rw [Control.blockTrimFree_eq hb hn hfree h8q h8 hmin hroom hspace]
    have hsplit := Held.split ⟨h.sound, b, hb, hfree⟩ hb h8 hmin hroom hn
      (show ∀ x, x ∈ [q + t + 8, q] ↔ x = q ∨ x = q + t + 8 by simp [or_comm])
    obtain ⟨hmarked, hlive, hold⟩ := h.split h8 hmin hroom hb hn
    have hother : q + t + 8 ∉ [q] := by
      rw [List.mem_singleton]
      omega
    obtain ⟨c', hrun, hsame, hsound⟩ := hsplit.insert hother splitHeaders_second rfl
    dsimp only at hsame
    refine ⟨c', t, hrun, Nat.le_refl _, by omega,
      ⟨hsound, ?_, ?_, { b with size := t }, ?_, hfree, rfl⟩, ?_⟩
    · rw [hsame]
      exact hmarked
    · rw [hsame]
      exact hlive
    · rw [hsame]
      exact splitHeaders_self
    · unfold Precedes
      rw [hsame]
      intro x hpair
      obtain hx | ⟨-, hpair⟩ | hpair := hold x hpair
      · exact .inl hx
      · obtain ⟨d, hd, hend⟩ := hpairs q hpair
        omega
      · obtain ⟨d, hd, hend⟩ := hpairs x hpair
        refine .inr ⟨d, ?_, hend⟩
        rw [splitHeaders_of_ne (by omega) (by omega) (by omega)]
        exact hd
  · have hsplit : Control.blockCanSplit b t = false := by
      unfold Control.blockCanSplit sizeofBlockHeader
      unfold blockSizeMax flIndexMax at hmax
      rw [decide_eq_false_iff_not, Nat.mod_eq_of_lt (by unfold addressSpace; omega)]
      omega
    refine ⟨c, b.size, ?_, hfit, by omega, h, fun x hpair => .inr (hpairs x hpair)⟩
    simp [Control.blockTrimFree, hb, guard, hfree, hsplit]

theorem Working.trimFreeLeading (h : Working pools c live q s) (h8 : 8 ∣ gap) (hmin : 32 ≤ gap)
    (hfit : gap + 32 ≤ s) (hpairs : ∀ x, ¬ FreePair c.headers x) :
    ∃ c', c.blockTrimFreeLeading q gap = some (c', q + gap) ∧
    Working pools c' live (q + gap) (s - gap) ∧
      ∀ x, FreePair c'.headers x → Precedes c' x (q + gap) := by
  obtain ⟨b, n, hb, hfree, rfl, hmin', hmax, h8q, hq8, hspace, hn⟩ := h.facts
  rw [Control.blockTrimFreeLeading_eq hb hn h8q h8 hmin hfit hspace]
  obtain ⟨t, rfl⟩ : ∃ t, gap = t + 8 := ⟨gap - 8, by omega⟩
  rw [Nat.add_sub_cancel]
  have hsplit :=
    Held.split ⟨h.sound, b, hb, hfree⟩ hb (show 8 ∣ t by omega) (by omega) (by omega) hn
    (show ∀ x, x ∈ [q, q + t + 8] ↔ x = q ∨ x = q + t + 8 by simp)
  obtain ⟨hmarked, hlive, hold⟩ := h.split (t := t) (by omega) (by omega) (by omega) hb hn
  have hother : q ∉ [q + t + 8] := by
    rw [List.mem_singleton]
    omega
  obtain ⟨c', hrun, hsame, hsound⟩ := hsplit.insert hother splitHeaders_self hfree
  dsimp only at hsame
  refine ⟨c', by rw [hrun]; rfl,
    ⟨hsound, ?_, ?_, ⟨q, b.size - (t + 8), true, true⟩, ?_, rfl, rfl⟩, ?_⟩
  · rw [hsame]
    exact hmarked
  · rw [hsame]
    exact hlive
  · rw [hsame]
    exact splitHeaders_second
  · unfold Precedes
    rw [hsame]
    intro x hpair
    obtain rfl | ⟨-, hpair⟩ | hpair := hold x hpair
    · exact ⟨_, splitHeaders_self, rfl⟩
    · exact absurd hpair (hpairs q)
    · exact absurd hpair (hpairs x)

theorem Working.prepareUsed (h : Working pools c live q s) {t : Nat} (h8 : 8 ∣ t) (hmin : 24 ≤ t)
    (hfit : t ≤ s) (hpairs : ∀ x, FreePair c.headers x → Precedes c x q) :
    ∃ c' s', c.blockPrepareUsed (some q) t = some (c', q) ∧ t ≤ s' ∧ s' < t + 32 ∧
      Settled pools c' (Function.update live q (some s')) := by
  obtain ⟨c₁, s', htrim, hle, hlt, h₁, hpairs₁⟩ := h.trimFree h8 hmin hfit hpairs
  obtain ⟨c₂, hmark, h₂⟩ := h₁.markUsed hpairs₁
  refine ⟨c₂, s', ?_, hle, hlt, h₂⟩
  simp [Control.blockPrepareUsed, guard, show t ≠ 0 by omega, htrim, hmark]

/-! ## Giving a block back -/

theorem Settled.freed (h : Settled pools c live) (hb : c.headers p = some b)
    (hused : b.free = false) (hne : b.size ≠ 0) (hn : c.headers (p + b.size + 8) = some n) :
    Working pools { c with headers := freedHeaders c.headers p b n }
      (Function.update live p none) p b.size ∧
      ∀ x, FreePair (freedHeaders c.headers p b n) x → x = p ∨
        Precedes { c with headers := freedHeaders c.headers p b n } x p := by
  refine ⟨⟨⟨h.sound.laid.freed hb hn hne, h.sound.indexed.freed hb hused hn⟩,
    h.marked.freed h.sound.laid hb hn hne, ?_,
    { b with free := true }, freedHeaders_self, rfl, rfl⟩, ?_⟩
  · rw [← h.live]
    exact usedSize_freed hn
  · intro x hpair
    obtain hold | hx | ⟨d, hd, hend⟩ := hpair.of_freed hb hn
    · exact absurd hold (h.coalesced x)
    · exact .inl hx
    · refine .inr ⟨d, ?_, hend⟩
      show freedHeaders c.headers p b n x = some d
      rw [freedHeaders_of_ne (by omega) (by omega)]
      exact hd

/-- Taking in the free block behind a free one. -/
theorem Working.absorb {hand : List Nat} (hs : Sound pools c hand)
    (hhand : ∀ x, x ∈ hand ↔ x = p ∨ x = q) (hm : Marked pools c.headers)
    (hl : usedSize c.headers = live) (hd : c.headers p = some d) (hb : c.headers q = some b)
    (hq : p + d.size + 8 = q) (hdfree : d.free = true) (hfree : b.free = true) :
    ∃ c', c.blockAbsorb p q = some c' ∧ Working pools c' live p (d.size + b.size + 8) ∧
      ∀ x, FreePair c'.headers x → (x = p ∧ FreePair c.headers q) ∨
      (x ≠ p ∧ x ≠ q ∧ FreePair c.headers x) := by
  have hd0 := hs.laid.size_of_free hd hdfree
  have hb0 := hs.laid.size_of_free hb hfree
  obtain ⟨-, -, n, hn⟩ := hs.laid.next_block hb hb0
  refine ⟨_, Control.blockAbsorb_eq hd hb hn hq hd0,
    ⟨⟨hs.laid.absorb hd hb hn hq hdfree hb0, hs.indexed.absorb hhand hn⟩, ?_, ?_,
    { d with size := d.size + b.size + 8 }, absorbHeaders_self, hdfree, rfl⟩, ?_⟩
  · exact hm.absorb hs.laid hd hb hn hq hd0 hb0 hfree
  · rw [← hl]
    exact usedSize_absorb hd hb hn hq hdfree hfree
  · exact fun x hpair => hpair.of_absorb hd hb hn hq hdfree hfree

theorem Working.mergePrev (h : Working pools c live q s)
    (hpairs : ∀ x, FreePair c.headers x → x = q ∨ Precedes c x q) :
    ∃ c' q' s', c.blockMergePrev q = some (c', q') ∧ Working pools c' live q' s' ∧
    ∀ x, FreePair c'.headers x → x = q' := by
  obtain ⟨b, hb, hfree, hsize⟩ := h.block
  by_cases hprev : b.prevFree = true
  · obtain ⟨d, hd, hdfree, hend⟩ := h.sound.laid.prev q b hb hprev
    have hother : b.prevPhys ∉ [q] := by
      rw [List.mem_singleton]
      omega
    obtain ⟨c₁, hremove, hsame, hi⟩ := h.sound.indexed.remove hother hd hdfree
    obtain ⟨c', habsorb, hworking, hold⟩ :=
      Working.absorb (p := b.prevPhys) (q := q) (h.sound.headers hsame hi) (by simp)
      (by rw [hsame]; exact h.marked) (show usedSize c₁.headers = live by rw [hsame]; exact h.live)
        (by rw [hsame]; exact hd)
      (by rw [hsame]; exact hb) hend hdfree hfree
    refine ⟨c', b.prevPhys, _,
      by simp [Control.blockMergePrev, hb, hprev, hd, guard, hdfree, hremove, habsorb],
      hworking, ?_⟩
    intro x hpair
    refine Classical.byContradiction fun hne => ?_
    obtain ⟨hx, -⟩ | ⟨-, hxq, hpair⟩ := hold x hpair
    · exact hne hx
    · rw [hsame] at hpair
      obtain hx | ⟨e, he, hend'⟩ := hpairs x hpair
      · exact hxq hx
      · exact hne (h.sound.laid.pred_unique he hd (hend'.trans hend.symm))
  · refine ⟨c, q, s, by simp [Control.blockMergePrev, hb, hprev], h, fun x hpair => ?_⟩
    obtain hx | ⟨d, hd, hend⟩ := hpairs x hpair
    · exact hx
    · obtain ⟨d', _, hd', hdfree, -⟩ := hpair
      rw [hd] at hd'
      cases hd'
      exact absurd (h.marked.marked x d b hd hdfree (hend ▸ hb)) hprev

theorem Working.mergeNext (h : Working pools c live q s)
    (hpairs : ∀ x, FreePair c.headers x → x = q) :
    ∃ c' s', c.blockMergeNext q = some (c', q) ∧ s ≤ s' ∧ Working pools c' live q s' ∧
    ∀ x, ¬ FreePair c'.headers x := by
  obtain ⟨b, n, hb, hfree, rfl, hmin, -, -, -, -, hn⟩ := h.facts
  by_cases hnfree : n.free = true
  · have hother : q + b.size + 8 ∉ [q] := by
      rw [List.mem_singleton]
      omega
    obtain ⟨c₁, hremove, hsame, hi⟩ := h.sound.indexed.remove hother hn hnfree
    obtain ⟨c', habsorb, hworking, hold⟩ :=
      Working.absorb (p := q) (q := q + b.size + 8) (h.sound.headers hsame hi)
      (by simp [or_comm]) (by rw [hsame]; exact h.marked)
        (show usedSize c₁.headers = live by rw [hsame]; exact h.live) (by rw [hsame]; exact hb)
      (by rw [hsame]; exact hn) rfl hfree hnfree
    refine ⟨c', _,
      by simp [Control.blockMergeNext, Control.blockNext_eq hb (show b.size ≠ 0 by omega), hn,
        hnfree, hremove, habsorb],
      by omega, hworking, ?_⟩
    intro x hpair
    obtain ⟨rfl, hpair⟩ | ⟨hne, -, hpair⟩ := hold x hpair
    · rw [hsame] at hpair
      have := hpairs _ hpair
      omega
    · rw [hsame] at hpair
      exact hne (hpairs x hpair)
  · refine ⟨c, b.size,
      by simp [Control.blockMergeNext, Control.blockNext_eq hb (show b.size ≠ 0 by omega), hn,
        hnfree],
      Nat.le_refl _, h, ?_⟩
    intro x hpair
    obtain rfl := hpairs x hpair
    obtain ⟨b', n', hb', -, hn', hnfree'⟩ := hpair
    rw [hb] at hb'
    cases hb'
    rw [hn] at hn'
    cases hn'
    exact hnfree hnfree'

theorem Settled.used_block (h : Settled pools c live) (hp : live p = some s) :
    ∃ b n, c.headers p = some b ∧ b.free = false ∧ b.size = s ∧ s ≠ 0 ∧
    c.headers (p + b.size + 8) = some n := by
  rw [← h.live] at hp
  obtain ⟨b, hb, hused, rfl, hne⟩ := usedSize_eq_some.mp hp
  obtain ⟨-, -, n, hn⟩ := h.sound.laid.next_block hb hne
  exact ⟨b, n, hb, hused, rfl, hne, hn⟩

theorem Settled.free (h : Settled pools c live) (hp : live p = some s) :
    ∃ c', c.free p = some c' ∧ Settled pools c' (Function.update live p none) := by
  obtain ⟨b, n, hb, hused, rfl, hne, hn⟩ := h.used_block hp
  have hpos := (h.sound.laid.bounds hb).1
  obtain ⟨h₁, hpairs₁⟩ := h.freed hb hused hne hn
  obtain ⟨c₂, q, s₂, hprev, h₂, hpairs₂⟩ := h₁.mergePrev hpairs₁
  obtain ⟨c₃, s₃, hnext, -, h₃, hpairs₃⟩ := h₂.mergeNext hpairs₂
  obtain ⟨c₄, hinsert, h₄⟩ := h₃.insert hpairs₃
  refine ⟨c₄, ?_, h₄⟩
  simp [Control.free, show p ≠ 0 by omega, hb, guard, hused, Control.blockMarkAsFree_eq hb hne hn,
    hprev, hnext, hinsert]

/-! ## Resizing in place -/

/-- The end of a block in use is cut off: as if it were given back, split, and its first part taken
again. -/
theorem cutHeaders_eq {H : Nat → Option Header} (hused : b.free = false) (hs : s + 8 < b.size) :
    cutHeaders H p s b n =
    Function.update (usedHeaders
      (splitHeaders (freedHeaders H p b n) p s { b with free := true }
        { n with prevPhys := p, prevFree := true })
      p { b with size := s, free := true } ⟨p, b.size - (s + 8), true, true⟩) (p + s + 8)
        (some ⟨0, b.size - (s + 8), true, false⟩) := by
  funext x
  unfold cutHeaders
  by_cases hxr : x = p + s + 8
  · rw [hxr, Function.update_self, Function.update_self]
  · rw [Function.update_of_ne hxr, Function.update_of_ne hxr]
    by_cases hxp : x = p
    · rw [hxp, Function.update_self, usedHeaders_self, ← hused]
    · rw [Function.update_of_ne hxp, usedHeaders_of_ne hxp hxr]
      by_cases hxn : x = p + b.size + 8
      · rw [hxn, Function.update_self]
        exact (splitHeaders_next (b := { b with free := true }) (show s < b.size by omega)).symm
      · rw [Function.update_of_ne hxn,
          splitHeaders_of_ne (b := { b with free := true }) hxp hxr hxn, freedHeaders_of_ne hxp hxn]

theorem Indexed.cut (h : Indexed c []) (hb : c.headers p = some b) (hused : b.free = false)
    (hn : c.headers (p + b.size + 8) = some n) (hnew : c.headers (p + s + 8) = none) :
    Indexed { c with headers := cutHeaders c.headers p s b n } [p + s + 8] := by
  refine h.withHeaders fun x => ?_
  by_cases hxr : x = p + s + 8
  · simp [listedSize, hxr, hnew]
  · by_cases hxp : x = p
    · rw [hxp] at hxr ⊢
      simp [listedSize, cutHeaders, hxr, hb, hused]
    · by_cases hxn : x = p + b.size + 8
      · rw [← hxn] at hn
        simp [listedSize, cutHeaders, ← hxn, hxr, hxp, hn]
      · simp [listedSize, cutHeaders, hxr, hxp, hxn]

theorem Settled.cut (h : Settled pools c live) (hb : c.headers p = some b) (hused : b.free = false)
    (hn : c.headers (p + b.size + 8) = some n) (h8 : 8 ∣ s) (hmin : 24 ≤ s)
    (hfit : s + 32 ≤ b.size) :
    Working pools { c with headers := cutHeaders c.headers p s b n }
      (Function.update live p (some s)) (p + s + 8) (b.size - (s + 8)) ∧
      ∀ x, FreePair (cutHeaders c.headers p s b n) x → x = p + s + 8 := by
  obtain ⟨h₁, hpairs₁⟩ := h.freed hb hused (by omega) hn
  have hb₁ : freedHeaders c.headers p b n p = some { b with free := true } := freedHeaders_self
  have hn₁ :
      freedHeaders c.headers p b n (p + b.size + 8) =
        some { n with prevPhys := p, prevFree := true } := freedHeaders_next
  obtain ⟨hmarked, hlive, hpairs₂⟩ := h₁.split h8 hmin hfit hb₁ hn₁
  have hlaid := h₁.sound.laid.split hb₁ hn₁ rfl h8 hmin hfit
  generalize hH₂ : splitHeaders (freedHeaders c.headers p b n) p s { b with free := true }
    { n with prevPhys := p, prevFree := true } = H₂
    at hmarked hlive hpairs₂ hlaid
  have hb₂ : H₂ p = some { b with size := s, free := true } := by
    rw [← hH₂]
    exact splitHeaders_self
  have hr₂ : H₂ (p + s + 8) = some ⟨p, b.size - (s + 8), true, true⟩ := by
    rw [← hH₂]
    exact splitHeaders_second
  have hr₃ :
      usedHeaders H₂ p { b with size := s, free := true } ⟨p, b.size - (s + 8), true, true⟩
        (p + s + 8) =
      some ⟨p, b.size - (s + 8), true, false⟩ := usedHeaders_next
  have hcut := cutHeaders_eq (H := c.headers) (p := p) (n := n) hused (show s + 8 < b.size by omega)
  rw [hH₂] at hcut
  have hsame := relink_same hr₃ 0
  have hold := h.sound.laid.none_between (s := s) hb (by omega)
  refine ⟨⟨⟨?_, h.sound.indexed.cut hb hused hn hold⟩, ?_, ?_, ⟨0, b.size - (s + 8), true, false⟩,
    Function.update_self .., rfl, rfl⟩, ?_⟩
  · dsimp only
    rw [hcut]
    exact (hlaid.used hb₂ hr₂).relink hr₃ rfl 0
  · dsimp only
    rw [hcut]
    exact (hmarked.used hlaid hb₂ hr₂).congr hsame
  · dsimp only
    rw [hcut, usedSize_congr hsame, usedSize_used hr₂ (show s ≠ 0 by omega), hlive,
      Function.update_idem]
  · intro x hpair
    rw [hcut] at hpair
    obtain ⟨hpair, hxp, hnext⟩ := (hpair.congr hsame).of_used hb₂ hr₂
    obtain hx | ⟨hx, -⟩ | hpair := hpairs₂ x hpair
    · exact absurd hx hxp
    · exact hx
    · obtain hx | ⟨d, hd, hend⟩ := hpairs₁ x hpair
      · exact absurd hx hxp
      · refine absurd hend (hnext d ?_)
        rw [← hH₂, splitHeaders_of_ne (by omega) (by omega) (by dsimp only; omega)]
        exact hd

theorem Settled.trimUsed (h : Settled pools c live) (hp : live p = some s) {t : Nat} (h8 : 8 ∣ t)
    (hmin : 24 ≤ t) (hfit : t ≤ s) :
    ∃ c' s', c.blockTrimUsed p t = some c' ∧ t ≤ s' ∧ s' < t + 32 ∧
    Settled pools c' (Function.update live p (some s')) := by
  obtain ⟨b, n, hb, hused, rfl, hne, hn⟩ := h.used_block hp
  obtain ⟨h8p, hspace, -⟩ := h.sound.laid.next_block hb hne
  have hmax := (h.sound.laid.bounds hb).2.1
  unfold blockSizeMax flIndexMax at hmax
  by_cases hroom : t + 32 ≤ b.size
  · have hsplit : Control.blockCanSplit b t = true := by
      unfold Control.blockCanSplit sizeofBlockHeader
      rw [decide_eq_true_eq, Nat.mod_eq_of_lt (by omega)]
      omega
    obtain ⟨h₁, hpairs₁⟩ := h.cut hb hused hn h8 hmin hroom
    have hrun := Control.blockSplit_eq hb hn h8p h8 hroom hspace
    have hr : cutHeaders c.headers p t b n (p + t + 8) = some ⟨0, b.size - (t + 8), true, false⟩ :=
      Function.update_self ..
    have hflag :
        Control.modify { c with headers := cutHeaders c.headers p t b n } (p + t + 8)
          (fun h => { h with prevFree := false }) =
        some { c with headers := cutHeaders c.headers p t b n } := by
      rw [Control.modify_eq hr, Control.setHeader]
      dsimp only
      rw [← hr, Function.update_eq_self]
    obtain ⟨c₂, s₂, hnext, -, h₂, hpairs₂⟩ := h₁.mergeNext hpairs₁
    obtain ⟨c₃, hinsert, h₃⟩ := h₂.insert hpairs₂
    refine ⟨c₃, t, ?_, Nat.le_refl _, by omega, h₃⟩
    simp [Control.blockTrimUsed, hb, guard, hused, hsplit, hrun, hflag, hnext, hinsert]
  · have hsplit : Control.blockCanSplit b t = false := by
      unfold Control.blockCanSplit sizeofBlockHeader
      rw [decide_eq_false_iff_not, Nat.mod_eq_of_lt (by unfold addressSpace; omega)]
      omega
    refine ⟨c, b.size, ?_, hfit, by omega, ?_⟩
    · simp [Control.blockTrimUsed, hb, guard, hused, hsplit]
    · rw [← hp, Function.update_eq_self]
      exact h

theorem Indexed.freed_beside {hand : List Nat} (h : Indexed c hand) (hb : c.headers q = some b)
    (hused : b.free = false) (hn : c.headers (q + b.size + 8) = some n) :
    Indexed { c with headers := freedHeaders c.headers q b n } (q :: hand) := by
  refine h.withHeaders fun x => ?_
  by_cases hx : x = q
  · simp [listedSize, hx, hb, hused]
  · by_cases hxn : x = q + b.size + 8
    · rw [← hxn] at hn
      simp [listedSize, freedHeaders, ← hxn, hx, hn]
    · simp [listedSize, freedHeaders, hx, hxn]

/-- A block in use takes in the one behind it: as if it were given back, and taken again with it. -/
theorem grownHeaders_eq {H : Nat → Option Header} {m : Header} :
    usedHeaders (absorbHeaders H p (p + d.size + 8) d n m) p
      { d with size := d.size + n.size + 8 } { m with prevPhys := p } =
    usedHeaders (absorbHeaders (freedHeaders H p d n) p (p + d.size + 8) { d with free := true }
      { n with prevPhys := p, prevFree := true } m)
      p { d with size := d.size + n.size + 8, free := true } { m with prevPhys := p } := by
  funext x
  by_cases hxp : x = p
  · rw [hxp, usedHeaders_self, usedHeaders_self]
  · by_cases hxm : x = p + (d.size + n.size + 8) + 8
    · rw [hxm]
      exact (usedHeaders_next (b := { d with size := d.size + n.size + 8 })).trans
        (usedHeaders_next (b := { d with size := d.size + n.size + 8, free := true })).symm
    · rw [usedHeaders_of_ne hxp hxm, usedHeaders_of_ne hxp hxm]
      by_cases hxq : x = p + d.size + 8
      · rw [hxq, absorbHeaders_gone (by omega), absorbHeaders_gone (by omega)]
      · have hxm' : x ≠ p + d.size + 8 + n.size + 8 := by omega
        rw [absorbHeaders_of_ne hxp hxq hxm',
          absorbHeaders_of_ne (b := { n with prevPhys := p, prevFree := true }) hxp hxq hxm',
          freedHeaders_of_ne hxp hxq]

theorem Settled.grow (h : Settled pools c live) (hd : c.headers p = some d) (hused : d.free = false)
    (hd0 : d.size ≠ 0) (hn : c.headers (p + d.size + 8) = some n) (hnfree : n.free = true) :
    ∃ c₁ c', c.blockMergeNext p = some (c₁, p) ∧ c₁.blockMarkAsUsed p = some c' ∧
      Settled pools c' (Function.update live p (some (d.size + n.size + 8))) := by
  have hn0 := h.sound.laid.size_of_free hn hnfree
  obtain ⟨-, -, m, hm⟩ := h.sound.laid.next_block hn hn0
  obtain ⟨c₁, hremove, hsame, hi⟩ := h.sound.indexed.remove List.not_mem_nil hn hnfree
  rw [← hsame] at hd hn hm
  have habsorb := Control.blockAbsorb_eq hd hn hm rfl hd0
  have hmark :
      Control.blockMarkAsUsed { c₁ with
          headers := absorbHeaders c₁.headers p (p + d.size + 8) d n m } p = _ :=
    Control.blockMarkAsUsed_eq (b := { d with size := d.size + n.size + 8 })
      (n := { m with prevPhys := p }) absorbHeaders_self
      (Nat.succ_ne_zero _) (by
        rw [show p + (d.size + n.size + 8) + 8 = p + d.size + 8 + n.size + 8 by omega]
        exact absorbHeaders_next rfl)
  refine ⟨_, _, ?_, hmark, ?_⟩
  · rw [hsame] at hd hn
    simp [Control.blockMergeNext, Control.blockNext_eq hd hd0, hn, hnfree, hremove, habsorb]
  · obtain ⟨hfreed, hpairs⟩ := h.freed (hsame ▸ hd) hused hd0 (hsame ▸ hn)
    rw [← hsame] at hfreed hpairs
    have hd₁ : freedHeaders c₁.headers p d n p = some { d with free := true } := freedHeaders_self
    have hn₁ :
        freedHeaders c₁.headers p d n (p + d.size + 8) =
          some { n with prevPhys := p, prevFree := true } := freedHeaders_next
    have hm₁ : freedHeaders c₁.headers p d n (p + d.size + 8 + n.size + 8) = some m := by
      rw [freedHeaders_of_ne (by omega) (by omega)]
      exact hm
    have hsound :
        Sound pools { c₁ with headers := freedHeaders c₁.headers p d n } [p, p + d.size + 8] :=
      ⟨hfreed.sound.laid, hi.freed_beside hd hused hn⟩
    obtain ⟨c₂, habsorb₂, h₂, hpairs₂⟩ :=
      Working.absorb hsound (by simp) hfreed.marked hfreed.live hd₁ hn₁ rfl rfl hnfree
    cases (Control.blockAbsorb_eq (c := { c₁ with headers := freedHeaders c₁.headers p d n })
      (d := { d with free := true })
      (b := { n with prevPhys := p, prevFree := true }) hd₁ hn₁ hm₁ rfl hd0).symm.trans habsorb₂
    obtain ⟨c₃, hmark₃, h₃⟩ := h₂.markUsed fun x hpair => by
      obtain ⟨hx, -⟩ | ⟨hxp, hxq, hpair⟩ := hpairs₂ x hpair
      · exact .inl hx
      · obtain hx | ⟨e, he, hend⟩ := hpairs x hpair
        · exact .inl hx
        · refine .inr ⟨e, ?_, hend⟩
          show absorbHeaders (freedHeaders c₁.headers p d n) p (p + d.size + 8) _ _ m x = some e
          rw [absorbHeaders_of_ne hxp hxq (by dsimp only; omega)]
          exact he
    have hnext₃ :=
      absorbHeaders_next (H := freedHeaders c₁.headers p d n) (p := p)
        (d := { d with free := true })
      (b := { n with prevPhys := p, prevFree := true }) (n := m) (q := p + d.size + 8) rfl
    rw [show p + d.size + 8 + n.size + 8 = p + (d.size + n.size + 8) + 8 by omega] at hnext₃
    cases (Control.blockMarkAsUsed_eq
      (b := { d with size := d.size + n.size + 8, free := true }) absorbHeaders_self
      (Nat.succ_ne_zero _) hnext₃).symm.trans hmark₃
    rw [Function.update_idem] at h₃
    dsimp only
    rw [grownHeaders_eq]
    exact h₃

end Gpcl.Tlsf
