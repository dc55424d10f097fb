import Gpcl.Tlsf.FreeLists

/-! # Blocks in their pools

The blocks of a pool follow each other up to a last one of size 0, which is never free; a block
whose predecessor is free knows it. Splitting, absorbing and changing the flag of a block keep
this. -/
namespace Gpcl.Tlsf
open Lib.Memory

variable {pools : List Region} {H H' : Nat → Option Header} {q p s : Nat} {b n : Header}

/-- A block and the word behind it are in a pool; behind the last block there is nothing. -/
def Within (r : Region) (q size : Nat) : Prop :=
  r.base + 8 ≤ q ∧ q + size ≤ r.stop ∧ (size ≠ 0 → q + size + 8 ≤ r.stop)

structure Laid (pools : List Region) (H : Nat → Option Header) : Prop where
  pool : ∀ r ∈ pools, r.size < blockSizeMax + poolOverhead ∧ r.stop < addressSpace
  apart : ∀ r ∈ pools, ∀ r' ∈ pools, r ≠ r' → r.Disjoint r'
  within : ∀ q h, H q = some h → ∃ r ∈ pools, Within r q h.size
  aligned : ∀ q h, H q = some h → 8 ∣ q ∧ 8 ∣ h.size
  order : ∀ q q' h h', H q = some h → H q' = some h' → q < q' → q + h.size + 8 ≤ q'
  next : ∀ q h, H q = some h → h.size ≠ 0 → 24 ≤ h.size ∧ ∃ n, H (q + h.size + 8) = some n
  last : ∀ q h, H q = some h → h.size = 0 → h.free = false
  prev : ∀ q h, H q = some h → h.prevFree = true →
    ∃ h', H h.prevPhys = some h' ∧ h'.free = true ∧ h.prevPhys + h'.size + 8 = q

theorem Laid.bounds (h : Laid pools H) (hb : H q = some b) :
    8 ≤ q ∧ b.size < blockSizeMax ∧ (b.size ≠ 0 → q + b.size + 8 < addressSpace) := by
  obtain ⟨r, hr, hbase, hstop, hnext⟩ := h.within q b hb
  obtain ⟨hsize, hspace⟩ := h.pool r hr
  unfold Region.stop poolOverhead blockHeaderOverhead at *
  by_cases hzero : b.size = 0
  · rw [hzero]
    exact ⟨by omega, by decide, fun hne => absurd rfl hne⟩
  · have hend := hnext hzero
    exact ⟨by omega, by omega, fun _ => by omega⟩

theorem Laid.size_of_free (h : Laid pools H) (hb : H q = some b) (hfree : b.free = true) :
    b.size ≠ 0 := by
  intro hzero
  rw [h.last q b hb hzero] at hfree
  cases hfree

/-- Two blocks do not meet. -/
theorem Laid.apart_of_ne (h : Laid pools H) {q' : Nat} {b' : Header} (hb : H q = some b)
    (hb' : H q' = some b') (hne : q' ≠ q) :
    q' + b'.size + 8 ≤ q ∨ q + b.size + 8 ≤ q' := by
  obtain hlt | hlt := Nat.lt_or_gt_of_ne hne
  · exact .inl (h.order q' q b' b hb' hb hlt)
  · exact .inr (h.order q q' b b' hb hb' hlt)

/-- A block is before another one, or it is that one, or it is behind. -/
theorem Laid.around (h : Laid pools H) (hb : H q = some b) {x : Nat} {d : Header}
    (hd : H x = some d) :
    x + d.size + 8 ≤ q ∨ (x = q ∧ d = b) ∨ q + b.size + 8 ≤ x := by
  by_cases hx : x = q
  · rw [hx, hb] at hd
    exact .inr (.inl ⟨hx, (Option.some.inj hd).symm⟩)
  · obtain hlt | hlt := h.apart_of_ne hb hd hx
    · exact .inl hlt
    · exact .inr (.inr hlt)

/-- A point of two pools. -/
theorem Laid.same_pool (h : Laid pools H) {r r' : Region} {x : Nat} (hr : r ∈ pools)
    (hr' : r' ∈ pools) (hx : r.Contains x) (hx' : r'.Contains x) : r = r' := by
  refine Classical.byContradiction fun hne => ?_
  have hdisjoint := h.apart r hr r' hr' hne
  unfold Region.Disjoint Region.Contains at *
  omega

/-- A header that was put, or one that was there. -/
theorem update_eq_some {x : Nat} {d : Header} (h : Function.update H q (some b) x = some d) :
    (x = q ∧ d = b) ∨ (x ≠ q ∧ H x = some d) := by
  by_cases hx : x = q
  · subst hx
    rw [Function.update_self] at h
    exact .inl ⟨rfl, (Option.some.inj h).symm⟩
  · rw [Function.update_of_ne hx] at h
    exact .inr ⟨hx, h⟩

theorem exists_update {x : Nat} {d : Header} (h : H x = some d) :
    ∃ d', Function.update H q (some b) x = some d' := by
  by_cases hx : x = q
  · exact ⟨b, by rw [hx, Function.update_self]⟩
  · exact ⟨d, by rw [Function.update_of_ne hx, h]⟩

/-! ## Flags and links -/

/-- The same blocks with other flags and links. -/
theorem Laid.reflag (h : Laid pools H)
    (hsame : ∀ q d, H' q = some d → ∃ d', H q = some d' ∧ d'.size = d.size)
    (hkept : ∀ q d, H q = some d → ∃ d', H' q = some d')
    (hlast : ∀ q d, H' q = some d → d.size = 0 → d.free = false)
    (hprev : ∀ q d, H' q = some d → d.prevFree = true →
      ∃ d', H' d.prevPhys = some d' ∧ d'.free = true ∧
      d.prevPhys + d'.size + 8 = q) : Laid pools H' := by
  refine ⟨h.pool, h.apart, ?_, ?_, ?_, ?_, hlast, hprev⟩
  · intro q d hd
    obtain ⟨d', hd', hsize⟩ := hsame q d hd
    rw [← hsize]
    exact h.within q d' hd'
  · intro q d hd
    obtain ⟨d', hd', hsize⟩ := hsame q d hd
    rw [← hsize]
    exact h.aligned q d' hd'
  · intro q q' d d₁ hd hd₁ hlt
    obtain ⟨d', hd', hsize⟩ := hsame q d hd
    obtain ⟨d₁', hd₁', -⟩ := hsame q' d₁ hd₁
    rw [← hsize]
    exact h.order q q' d' d₁' hd' hd₁' hlt
  · intro q d hd hne
    obtain ⟨d', hd', hsize⟩ := hsame q d hd
    rw [← hsize] at hne ⊢
    obtain ⟨hmin, n, hn⟩ := h.next q d' hd' hne
    exact ⟨hmin, hkept _ n hn⟩

/-- The same for other flags and links of a block and of the one behind it. -/
theorem Laid.reflag_pair {b' n' : Header} (h : Laid pools H) (hb : H q = some b)
    (hn : H (q + b.size + 8) = some n) (hsize : b'.size = b.size ∧ n'.size = n.size)
    (hlast : (b'.size = 0 → b'.free = false) ∧ n'.free = n.free) (hprev : ∀ x d,
      Function.update (Function.update H (q + b.size + 8) (some n')) q
      (some b') x = some d → d.prevFree = true →
      ∃ d', Function.update (Function.update H (q + b.size + 8) (some n')) q
      (some b') d.prevPhys = some d' ∧ d'.free = true ∧
        d.prevPhys + d'.size + 8 = x) :
    Laid pools (Function.update (Function.update H (q + b.size + 8) (some n')) q (some b')) := by
  refine h.reflag ?_ ?_ ?_ hprev
  · intro x d hd
    obtain ⟨rfl, rfl⟩ | ⟨-, hd⟩ := update_eq_some hd
    · exact ⟨b, hb, hsize.1.symm⟩
    · obtain ⟨rfl, rfl⟩ | ⟨-, hd⟩ := update_eq_some hd
      · exact ⟨n, hn, hsize.2.symm⟩
      · exact ⟨d, hd, rfl⟩
  · intro x d hd
    obtain ⟨d', hd'⟩ := exists_update (q := q + b.size + 8) (b := n') hd
    exact exists_update hd'
  · intro x d hd hzero
    obtain ⟨rfl, rfl⟩ | ⟨-, hd⟩ := update_eq_some hd
    · exact hlast.1 hzero
    · obtain ⟨rfl, rfl⟩ | ⟨-, hd⟩ := update_eq_some hd
      · rw [hlast.2]
        exact h.last _ n hn (hsize.2 ▸ hzero)
      · exact h.last x d hd hzero

/-- The headers after `block_mark_as_used`. -/
def usedHeaders (H : Nat → Option Header) (q : Nat) (b n : Header) : Nat → Option Header :=
  Function.update (Function.update H (q + b.size + 8) (some { n with prevFree := false })) q
    (some { b with free := false })

theorem Laid.used (h : Laid pools H) (hb : H q = some b) (hn : H (q + b.size + 8) = some n) :
    Laid pools (usedHeaders H q b n) := by
  refine h.reflag_pair hb hn ⟨rfl, rfl⟩ ⟨fun _ => rfl, rfl⟩ fun x d hd hfree => ?_
  obtain ⟨d₀, hx, hxn, hphys, hsame⟩ : ∃ d₀, H x = some d₀ ∧ x ≠ q + b.size + 8 ∧
      d₀.prevPhys = d.prevPhys ∧ d₀.prevFree = true := by
    obtain ⟨rfl, rfl⟩ | ⟨-, hd⟩ := update_eq_some hd
    · exact ⟨b, hb, by omega, rfl, hfree⟩
    · obtain ⟨rfl, rfl⟩ | ⟨hne, hd⟩ := update_eq_some hd
      · cases hfree
      · exact ⟨d, hd, hne, rfl, hfree⟩
  obtain ⟨d', hd', hfree', hend⟩ := h.prev x d₀ hx hsame
  rw [hphys] at hd' hend
  have hneq : d.prevPhys ≠ q := by
    intro heq
    rw [heq, hb] at hd'
    cases hd'
    exact hxn (by rw [← hend, heq])
  rw [Function.update_of_ne hneq]
  by_cases hphysn : d.prevPhys = q + b.size + 8
  · rw [hphysn, hn] at hd'
    cases hd'
    rw [hphysn, Function.update_self]
    exact ⟨_, rfl, hfree', by rw [← hphysn]; exact hend⟩
  · rw [Function.update_of_ne hphysn]
    exact ⟨d', hd', hfree', hend⟩

/-- The headers after `block_mark_as_free`. -/
def freedHeaders (H : Nat → Option Header) (q : Nat) (b n : Header) : Nat → Option Header :=
  Function.update (Function.update H (q + b.size + 8)
    (some { n with prevPhys := q, prevFree := true })) q
    (some { b with free := true })

theorem Laid.freed (h : Laid pools H) (hb : H q = some b) (hn : H (q + b.size + 8) = some n)
    (hne : b.size ≠ 0) :
    Laid pools (freedHeaders H q b n) := by
  refine h.reflag_pair hb hn ⟨rfl, rfl⟩ ⟨fun hzero => absurd hzero hne, rfl⟩ fun x d hd hfree => ?_
  change ∃ d', freedHeaders H q b n d.prevPhys = some d' ∧ _
  have hkeep : ∀ p d', H p = some d' → d'.free = true →
      ∃ d'', freedHeaders H q b n p = some d'' ∧ d''.free = true ∧ d''.size = d'.size := by
    intro p d' hp hfree'
    rw [freedHeaders]
    by_cases hpq : p = q
    · rw [hpq, hb] at hp
      cases hp
      rw [hpq, Function.update_self]
      exact ⟨_, rfl, rfl, rfl⟩
    · rw [Function.update_of_ne hpq]
      by_cases hpn : p = q + b.size + 8
      · rw [hpn, hn] at hp
        cases hp
        rw [hpn, Function.update_self]
        exact ⟨_, rfl, hfree', rfl⟩
      · rw [Function.update_of_ne hpn]
        exact ⟨d', hp, hfree', rfl⟩
  have hold : ∀ d₀, H x = some d₀ → d₀.prevPhys = d.prevPhys → d₀.prevFree = true →
      ∃ d', freedHeaders H q b n d.prevPhys = some d' ∧ d'.free = true ∧
        d.prevPhys + d'.size + 8 = x := by
    intro d₀ hx hphys hsame
    obtain ⟨d', hd', hfree', hend⟩ := h.prev x d₀ hx hsame
    rw [hphys] at hd' hend
    obtain ⟨d'', hd'', hfree'', hsize⟩ := hkeep _ d' hd' hfree'
    exact ⟨d'', hd'', hfree'', by rw [hsize]; exact hend⟩
  obtain ⟨rfl, rfl⟩ | ⟨-, hd⟩ := update_eq_some hd
  · exact hold b hb rfl hfree
  · obtain ⟨rfl, rfl⟩ | ⟨-, hd⟩ := update_eq_some hd
    · exact ⟨_, Function.update_self .., rfl, rfl⟩
    · exact hold d hd rfl hfree

/-! ## Splitting -/

/-- The headers after `block_split` and what its callers do to the links. -/
def splitHeaders (H : Nat → Option Header) (q s : Nat) (b n : Header) : Nat → Option Header :=
  Function.update (Function.update (Function.update H (q + b.size + 8)
    (some { n with prevPhys := q + s + 8, prevFree := true })) q (some { b with size := s }))
      (q + s + 8)
    (some ⟨q, b.size - (s + 8), true, true⟩)

section split
variable {x : Nat} {d : Header}

/-- The second part, the first one, the block behind both, or another one. -/
theorem split_cases (hd : splitHeaders H q s b n x = some d) :
    (x = q + s + 8 ∧ d = ⟨q, b.size - (s + 8), true, true⟩) ∨ (x = q ∧ d = { b with size := s }) ∨
      (x = q + b.size + 8 ∧ d = { n with prevPhys := q + s + 8, prevFree := true }) ∨
      (x ≠ q ∧ x ≠ q + s + 8 ∧ x ≠ q + b.size + 8 ∧ H x = some d) := by
  obtain hx | ⟨hxr, hd⟩ := update_eq_some hd
  · exact .inl hx
  · obtain hx | ⟨hxq, hd⟩ := update_eq_some hd
    · exact .inr (.inl hx)
    · obtain hx | ⟨hxn, hd⟩ := update_eq_some hd
      · exact .inr (.inr (.inl hx))
      · exact .inr (.inr (.inr ⟨hxq, hxr, hxn, hd⟩))

theorem splitHeaders_of_ne (hxq : x ≠ q) (hxr : x ≠ q + s + 8) (hxn : x ≠ q + b.size + 8) :
    splitHeaders H q s b n x = H x := by
  rw [splitHeaders, Function.update_of_ne hxr, Function.update_of_ne hxq, Function.update_of_ne hxn]

theorem splitHeaders_self : splitHeaders H q s b n q = some { b with size := s } := by
  rw [splitHeaders, Function.update_of_ne (by omega), Function.update_self]

theorem splitHeaders_second :
    splitHeaders H q s b n (q + s + 8) = some ⟨q, b.size - (s + 8), true, true⟩ :=
  Function.update_self ..

theorem splitHeaders_next (hs : s < b.size) :
    splitHeaders H q s b n (q + b.size + 8) =
      some { n with prevPhys := q + s + 8, prevFree := true } := by
  rw [splitHeaders, Function.update_of_ne (by omega), Function.update_of_ne (by omega),
    Function.update_self]

/-- No block is lost, and only the one that is split changes. -/
theorem Laid.kept_split (h : Laid pools H) (hb : H q = some b) (hn : H (q + b.size + 8) = some n)
    (hfit : s + 32 ≤ b.size) (hd : H x = some d) :
    ∃ d', splitHeaders H q s b n x = some d' ∧ (x ≠ q → d'.size = d.size ∧ d'.free = d.free) := by
  have hx := h.around hb hd
  by_cases hxq : x = q
  · rw [hxq]
    exact ⟨_, splitHeaders_self, fun hne => absurd rfl hne⟩
  · by_cases hxn : x = q + b.size + 8
    · rw [hxn, hn] at hd
      cases hd
      rw [hxn]
      exact ⟨_, splitHeaders_next (by omega), fun _ => ⟨rfl, rfl⟩⟩
    · rw [splitHeaders_of_ne hxq (by omega) hxn]
      exact ⟨d, hd, fun _ => ⟨rfl, rfl⟩⟩

theorem Laid.within_split (h : Laid pools H) (hb : H q = some b) (hn : H (q + b.size + 8) = some n)
    (hfit : s + 32 ≤ b.size)
    (hd : splitHeaders H q s b n x = some d) : ∃ r ∈ pools, Within r x d.size := by
  obtain ⟨r, hr, hbase, hstop, hnext⟩ := h.within q b hb
  have hnext := hnext (by omega)
  obtain ⟨rfl, rfl⟩ | ⟨rfl, rfl⟩ | ⟨rfl, rfl⟩ | ⟨-, -, -, hd⟩ := split_cases hd
  · exact ⟨r, hr, by omega, by dsimp only; omega, fun _ => by dsimp only; omega⟩
  · exact ⟨r, hr, by omega, by dsimp only; omega, fun _ => by dsimp only; omega⟩
  · exact h.within _ n hn
  · exact h.within x d hd

/-- The two parts are where the block was. -/
theorem Laid.order_split {x' : Nat} {d' : Header} (h : Laid pools H) (hb : H q = some b)
    (hn : H (q + b.size + 8) = some n) (hfit : s + 32 ≤ b.size)
    (hd : splitHeaders H q s b n x = some d) (hd' : splitHeaders H q s b n x' = some d')
    (hlt : x < x') :
    x + d.size + 8 ≤ x' := by
  have hold : ∀ x d, splitHeaders H q s b n x = some d →
    (x = q + s + 8 ∧ d.size = b.size - (s + 8)) ∨ (x = q ∧ d.size = s) ∨
      ∃ d', H x = some d' ∧ d'.size = d.size ∧ x ≠ q := by
    intro x d hd
    obtain ⟨rfl, rfl⟩ | ⟨rfl, rfl⟩ | ⟨rfl, rfl⟩ | ⟨hxq, -, -, hd⟩ := split_cases hd
    · exact .inl ⟨rfl, rfl⟩
    · exact .inr (.inl ⟨rfl, rfl⟩)
    · exact .inr (.inr ⟨n, hn, rfl, by omega⟩)
    · exact .inr (.inr ⟨d, hd, rfl, hxq⟩)
  obtain ⟨rfl, hsize⟩ | ⟨rfl, hsize⟩ | ⟨d₀, hd₀, hsize, hxq⟩ := hold x d hd
  · obtain ⟨rfl, -⟩ | ⟨rfl, -⟩ | ⟨d₀', hd₀', -, hxq'⟩ := hold x' d' hd'
    · omega
    · omega
    · have := h.around hb hd₀'
      omega
  · obtain ⟨rfl, -⟩ | ⟨rfl, -⟩ | ⟨d₀', hd₀', -, hxq'⟩ := hold x' d' hd'
    · omega
    · omega
    · have := h.around hb hd₀'
      omega
  · have hx := h.around hb hd₀
    obtain ⟨rfl, -⟩ | ⟨rfl, -⟩ | ⟨d₀', hd₀', -, -⟩ := hold x' d' hd'
    · omega
    · omega
    · have := h.order x x' d₀ d₀' hd₀ hd₀' hlt
      omega

theorem Laid.next_split (h : Laid pools H) (hb : H q = some b) (hn : H (q + b.size + 8) = some n)
    (hmin : 24 ≤ s) (hfit : s + 32 ≤ b.size) (hd : splitHeaders H q s b n x = some d)
    (hne : d.size ≠ 0) :
    24 ≤ d.size ∧ ∃ n', splitHeaders H q s b n (x + d.size + 8) = some n' := by
  obtain ⟨rfl, rfl⟩ | ⟨rfl, rfl⟩ | ⟨rfl, rfl⟩ | ⟨-, -, -, hd⟩ := split_cases hd
  · obtain ⟨n', hn', -⟩ := h.kept_split hb hn hfit hn
    refine ⟨by dsimp only; omega, n', ?_⟩
    dsimp only
    rw [show q + s + 8 + (b.size - (s + 8)) + 8 = q + b.size + 8 by omega]
    exact hn'
  · exact ⟨hmin, _, splitHeaders_second⟩
  · obtain ⟨hmin', n', hn'⟩ := h.next _ n hn hne
    obtain ⟨n'', hn'', -⟩ := h.kept_split hb hn hfit hn'
    exact ⟨hmin', n'', hn''⟩
  · obtain ⟨hmin', n', hn'⟩ := h.next x d hd hne
    obtain ⟨n'', hn'', -⟩ := h.kept_split hb hn hfit hn'
    exact ⟨hmin', n'', hn''⟩

/-- Behind the second part a block knows that one; the first part is where the second one's link
is. -/
theorem Laid.prev_split (h : Laid pools H) (hb : H q = some b) (hn : H (q + b.size + 8) = some n)
    (hfree : b.free = true) (hfit : s + 32 ≤ b.size) (hd : splitHeaders H q s b n x = some d)
    (hprev : d.prevFree = true) :
    ∃ d', splitHeaders H q s b n d.prevPhys = some d' ∧ d'.free = true ∧
    d.prevPhys + d'.size + 8 = x := by
  obtain ⟨rfl, rfl⟩ | ⟨rfl, rfl⟩ | ⟨rfl, rfl⟩ | ⟨hxq, -, hxn, hd⟩ := split_cases hd
  · exact ⟨_, splitHeaders_self, hfree, rfl⟩
  · obtain ⟨d', hd', hfree', hend⟩ := h.prev _ b hb hprev
    obtain ⟨d'', hd'', hsame⟩ := h.kept_split hb hn hfit hd'
    obtain ⟨hsize, hflag⟩ := hsame (by omega)
    exact ⟨d'', hd'', by rw [hflag, hfree'], by rw [hsize]; exact hend⟩
  · exact ⟨_, splitHeaders_second, rfl, by dsimp only; omega⟩
  · obtain ⟨d', hd', hfree', hend⟩ := h.prev x d hd hprev
    obtain ⟨d'', hd'', hsame⟩ := h.kept_split hb hn hfit hd'
    have hne : d.prevPhys ≠ q := by
      intro heq
      rw [heq, hb] at hd'
      cases hd'
      exact hxn (by rw [← hend, heq])
    obtain ⟨hsize, hflag⟩ := hsame hne
    exact ⟨d'', hd'', by rw [hflag, hfree'], by rw [hsize]; exact hend⟩

end split

theorem Laid.split (h : Laid pools H) (hb : H q = some b) (hn : H (q + b.size + 8) = some n)
    (hfree : b.free = true) (h8 : 8 ∣ s) (hmin : 24 ≤ s) (hfit : s + 32 ≤ b.size) :
    Laid pools (splitHeaders H q s b n) where
  pool := h.pool
  apart := h.apart
  within _ _ hd := h.within_split hb hn hfit hd
  aligned x d hd := by
    obtain ⟨h8q, h8b⟩ := h.aligned q b hb
    obtain ⟨rfl, rfl⟩ | ⟨rfl, rfl⟩ | ⟨rfl, rfl⟩ | ⟨-, -, -, hd⟩ := split_cases hd
    · dsimp only
      omega
    · exact ⟨h8q, h8⟩
    · exact h.aligned _ n hn
    · exact h.aligned x d hd
  order _ _ _ _ hd hd' hlt := h.order_split hb hn hfit hd hd' hlt
  next _ _ hd hne := h.next_split hb hn hmin hfit hd hne
  last x d hd hzero := by
    obtain ⟨rfl, rfl⟩ | ⟨rfl, rfl⟩ | ⟨rfl, rfl⟩ | ⟨-, -, -, hd⟩ := split_cases hd
    · dsimp only at hzero
      omega
    · dsimp only at hzero
      omega
    · exact h.last _ n hn hzero
    · exact h.last x d hd hzero
  prev _ _ hd hprev := h.prev_split hb hn hfree hfit hd hprev

/-! ## Absorbing -/

/-- The headers after `block_absorb`: `b` is the block at `q`, `d` the one at `p` before it, `n` the
one behind. -/
def absorbHeaders (H : Nat → Option Header) (p q : Nat) (d b n : Header) : Nat → Option Header :=
  Function.update (Function.update
    (Function.update H (q + b.size + 8) (some { n with prevPhys := p })) q none) p
    (some { d with size := d.size + b.size + 8 })

section absorb
variable {x : Nat} {d e : Header}

/-- The block that has grown, the one behind it, or another one. -/
theorem absorb_cases (he : absorbHeaders H p q d b n x = some e) :
    (x = p ∧ e = { d with size := d.size + b.size + 8 }) ∨
    (x = q + b.size + 8 ∧ e = { n with prevPhys := p }) ∨
      (x ≠ p ∧ x ≠ q ∧ x ≠ q + b.size + 8 ∧ H x = some e) := by
  obtain hp | ⟨hxp, he⟩ := update_eq_some he
  · exact .inl hp
  · have hxq : x ≠ q := by
      intro hxq
      rw [hxq, Function.update_self] at he
      cases he
    rw [Function.update_of_ne hxq] at he
    obtain hx | ⟨hxn, he⟩ := update_eq_some he
    · exact .inr (.inl hx)
    · exact .inr (.inr ⟨hxp, hxq, hxn, he⟩)

theorem absorbHeaders_of_ne (hxp : x ≠ p) (hxq : x ≠ q) (hxn : x ≠ q + b.size + 8) :
    absorbHeaders H p q d b n x = H x := by
  rw [absorbHeaders, Function.update_of_ne hxp, Function.update_of_ne hxq,
    Function.update_of_ne hxn]

theorem absorbHeaders_self :
    absorbHeaders H p q d b n p = some { d with size := d.size + b.size + 8 } :=
  Function.update_self ..

theorem absorbHeaders_gone (hne : q ≠ p) : absorbHeaders H p q d b n q = none := by
  rw [absorbHeaders, Function.update_of_ne hne, Function.update_self]

theorem absorbHeaders_next (hq : p + d.size + 8 = q) :
    absorbHeaders H p q d b n (q + b.size + 8) = some { n with prevPhys := p } := by
  rw [absorbHeaders, Function.update_of_ne (by omega), Function.update_of_ne (by omega),
    Function.update_self]

/-- No block but the absorbed one is lost, and only the one that has grown changes. -/
theorem kept_absorb (hd : H p = some d) (hn : H (q + b.size + 8) = some n) (hq : p + d.size + 8 = q)
    (he : H x = some e) (hxq : x ≠ q) :
    ∃ e', absorbHeaders H p q d b n x = some e' ∧ e'.free = e.free ∧
    (x ≠ p → e'.size = e.size) := by
  by_cases hxp : x = p
  · rw [hxp, hd] at he
    cases he
    rw [hxp]
    exact ⟨_, absorbHeaders_self, rfl, fun hne => absurd rfl hne⟩
  · by_cases hxn : x = q + b.size + 8
    · rw [hxn, hn] at he
      cases he
      rw [hxn]
      exact ⟨_, absorbHeaders_next hq, rfl, fun _ => rfl⟩
    · rw [absorbHeaders_of_ne hxp hxq hxn]
      exact ⟨e, he, rfl, fun _ => rfl⟩

/-- A block and the one behind it are in one pool. -/
theorem Laid.within_pair (h : Laid pools H) (hd : H p = some d) (hb : H q = some b)
    (hq : p + d.size + 8 = q) (hd0 : d.size ≠ 0) (hne : b.size ≠ 0) :
    ∃ r ∈ pools, r.base + 8 ≤ p ∧ q + b.size + 8 ≤ r.stop := by
  obtain ⟨r, hr, hbase, hstop, hnext⟩ := h.within p d hd
  obtain ⟨r', hr', hbase', hstop', hnext'⟩ := h.within q b hb
  have hnext := hnext hd0
  have hnext' := hnext' hne
  have hpool : r' = r := by
    refine h.same_pool (x := q - 8) hr' hr ?_ ?_
    · unfold Region.Contains
      omega
    · unfold Region.Contains
      omega
  exact ⟨r, hr, hbase, hpool ▸ hnext'⟩

/-- The block that has grown is where the two were. -/
theorem Laid.order_absorb {x' : Nat} {e' : Header} (h : Laid pools H) (hd : H p = some d)
    (hb : H q = some b) (hn : H (q + b.size + 8) = some n) (hq : p + d.size + 8 = q)
    (he : absorbHeaders H p q d b n x = some e) (he' : absorbHeaders H p q d b n x' = some e')
    (hlt : x < x') : x + e.size + 8 ≤ x' := by
  have hold : ∀ x e, absorbHeaders H p q d b n x = some e → (x = p ∧ e.size = d.size + b.size + 8) ∨
      ∃ e', H x = some e' ∧ e'.size = e.size ∧ x ≠ p ∧ x ≠ q := by
    intro x e he
    obtain ⟨rfl, rfl⟩ | ⟨rfl, rfl⟩ | ⟨hxp, hxq, -, he⟩ := absorb_cases he
    · exact .inl ⟨rfl, rfl⟩
    · exact .inr ⟨n, hn, rfl, by omega, by omega⟩
    · exact .inr ⟨e, he, rfl, hxp, hxq⟩
  obtain ⟨rfl, hsize⟩ | ⟨e₀, he₀, hsize, hxp, hxq⟩ := hold x e he
  · obtain ⟨rfl, -⟩ | ⟨e₀', he₀', -, hxp', hxq'⟩ := hold x' e' he'
    · omega
    · have := h.around hd he₀'
      have := h.around hb he₀'
      omega
  · obtain ⟨rfl, -⟩ | ⟨e₀', he₀', -, -, -⟩ := hold x' e' he'
    · have := h.around hd he₀
      omega
    · have := h.order x x' e₀ e₀' he₀ he₀' hlt
      omega

theorem Laid.next_absorb (h : Laid pools H) (hd : H p = some d) (hb : H q = some b)
    (hn : H (q + b.size + 8) = some n) (hq : p + d.size + 8 = q) (hd0 : d.size ≠ 0)
    (he : absorbHeaders H p q d b n x = some e) (hsize : e.size ≠ 0) :
    24 ≤ e.size ∧ ∃ n', absorbHeaders H p q d b n (x + e.size + 8) = some n' := by
  obtain ⟨rfl, rfl⟩ | ⟨rfl, rfl⟩ | ⟨hxp, hxq, -, he⟩ := absorb_cases he
  · obtain ⟨n', hn', -⟩ := kept_absorb hd hn hq hn (by omega)
    have hmin := (h.next _ d hd hd0).1
    refine ⟨by dsimp only; omega, n', ?_⟩
    dsimp only
    rw [show x + (d.size + b.size + 8) + 8 = q + b.size + 8 by omega]
    exact hn'
  · obtain ⟨hmin, n', hn'⟩ := h.next _ n hn hsize
    obtain ⟨n'', hn'', -⟩ := kept_absorb hd hn hq hn' (by omega)
    exact ⟨hmin, n'', hn''⟩
  · obtain ⟨hmin, n', hn'⟩ := h.next x e he hsize
    have hx := h.around hd he
    have hx' := h.around hb he
    obtain ⟨n'', hn'', -⟩ := kept_absorb hd hn hq hn' (by omega)
    exact ⟨hmin, n'', hn''⟩

/-- No block but the one behind knew the absorbed one. -/
theorem Laid.prev_absorb (h : Laid pools H) (hd : H p = some d) (hb : H q = some b)
    (hn : H (q + b.size + 8) = some n) (hq : p + d.size + 8 = q) (hfree : d.free = true)
    (he : absorbHeaders H p q d b n x = some e) (hprev : e.prevFree = true) :
    ∃ e', absorbHeaders H p q d b n e.prevPhys = some e' ∧ e'.free = true ∧
    e.prevPhys + e'.size + 8 = x := by
  obtain ⟨e₀, he₀, hxq, hxn, hphys, hprev₀⟩ | ⟨rfl, hphys⟩ :
      (∃ e₀, H x = some e₀ ∧ x ≠ q ∧ x ≠ q + b.size + 8 ∧ e₀.prevPhys = e.prevPhys ∧
        e₀.prevFree = true) ∨
        (x = q + b.size + 8 ∧ e.prevPhys = p) := by
    obtain ⟨rfl, rfl⟩ | ⟨rfl, rfl⟩ | ⟨-, hxq, hxn, he⟩ := absorb_cases he
    · exact .inl ⟨d, hd, by omega, by omega, rfl, hprev⟩
    · exact .inr ⟨rfl, rfl⟩
    · exact .inl ⟨e, he, hxq, hxn, rfl, hprev⟩
  · obtain ⟨e', he', hfree', hend⟩ := h.prev x e₀ he₀ hprev₀
    rw [hphys] at he' hend
    have hneq : e.prevPhys ≠ q := by
      intro heq
      rw [heq, hb] at he'
      cases he'
      exact hxn (by rw [← hend, heq])
    have hnep : e.prevPhys ≠ p := by
      intro heq
      rw [heq, hd] at he'
      cases he'
      exact hxq (by rw [← hend, heq]; exact hq)
    obtain ⟨e'', he'', hflag, hsame⟩ := kept_absorb hd hn hq he' hneq
    exact ⟨e'', he'', by rw [hflag, hfree'], by rw [hsame hnep]; exact hend⟩
  · rw [hphys]
    exact ⟨_, absorbHeaders_self, hfree, by dsimp only; omega⟩

theorem Laid.absorb {d : Header} (h : Laid pools H) (hd : H p = some d) (hb : H q = some b)
    (hn : H (q + b.size + 8) = some n) (hq : p + d.size + 8 = q) (hfree : d.free = true)
    (hne : b.size ≠ 0) :
    Laid pools (absorbHeaders H p q d b n) where
  pool := h.pool
  apart := h.apart
  within x e he := by
    obtain ⟨rfl, rfl⟩ | ⟨rfl, rfl⟩ | ⟨-, -, -, he⟩ := absorb_cases he
    · obtain ⟨r, hr, hbase, hstop⟩ := h.within_pair hd hb hq (h.size_of_free hd hfree) hne
      exact ⟨r, hr, hbase, by dsimp only; omega, fun _ => by dsimp only; omega⟩
    · exact h.within _ n hn
    · exact h.within x e he
  aligned x e he := by
    obtain ⟨rfl, rfl⟩ | ⟨rfl, rfl⟩ | ⟨-, -, -, he⟩ := absorb_cases he
    · obtain ⟨h8, h8d⟩ := h.aligned _ d hd
      obtain ⟨-, h8b⟩ := h.aligned _ b hb
      exact ⟨h8, by dsimp only; omega⟩
    · exact h.aligned _ n hn
    · exact h.aligned x e he
  order _ _ _ _ he he' hlt := h.order_absorb hd hb hn hq he he' hlt
  next _ _ he hsize := h.next_absorb hd hb hn hq (h.size_of_free hd hfree) he hsize
  last x e he hzero := by
    obtain ⟨rfl, rfl⟩ | ⟨rfl, rfl⟩ | ⟨-, -, -, he⟩ := absorb_cases he
    · dsimp only at hzero
      omega
    · exact h.last _ n hn hzero
    · exact h.last x e he hzero
  prev _ _ he hprev := h.prev_absorb hd hb hn hq hfree he hprev

end absorb

/-! ## A new pool -/

/-- The headers after `tlsf_add_pool`: one free block, and the last one. -/
def poolHeaders (H : Nat → Option Header) (mem size : Nat) : Nat → Option Header :=
  Function.update (Function.update H (mem + 8) (some ⟨0, size, true, false⟩)) (mem + size + 16)
    (some ⟨mem + 8, 0, false, true⟩)

section addPool
variable {mem size x : Nat} {e : Header}

theorem poolHeaders_first : poolHeaders H mem size (mem + 8) = some ⟨0, size, true, false⟩ := by
  rw [poolHeaders, Function.update_of_ne (by omega), Function.update_self]

theorem poolHeaders_last :
    poolHeaders H mem size (mem + size + 16) = some ⟨mem + 8, 0, false, true⟩ :=
  Function.update_self ..

theorem poolHeaders_of_ne (hfirst : x ≠ mem + 8) (hlast : x ≠ mem + size + 16) :
    poolHeaders H mem size x = H x := by
  rw [poolHeaders, Function.update_of_ne hlast, Function.update_of_ne hfirst]

/-- The last block, the free one, or one that was there. -/
theorem pool_cases (he : poolHeaders H mem size x = some e) :
    (x = mem + size + 16 ∧ e = ⟨mem + 8, 0, false, true⟩) ∨
    (x = mem + 8 ∧ e = ⟨0, size, true, false⟩) ∨
    (x ≠ mem + 8 ∧ x ≠ mem + size + 16 ∧ H x = some e) := by
  obtain hx | ⟨hxl, he⟩ := update_eq_some he
  · exact .inl hx
  · obtain hx | ⟨hxf, he⟩ := update_eq_some he
    · exact .inr (.inl hx)
    · exact .inr (.inr ⟨hxf, hxl, he⟩)

theorem stop_pool (mem size : Nat) : Region.stop ⟨mem, size + 16⟩ = mem + size + 16 :=
  (Nat.add_assoc mem size 16).symm

theorem Laid.outside (h : Laid pools H) (hfresh : ∀ r ∈ pools, Region.Disjoint ⟨mem, size + 16⟩ r)
    (he : H x = some e) :
    x + e.size + 8 ≤ mem + 8 ∨ mem + size + 24 ≤ x := by
  obtain ⟨r, hr, hbase, hstop, hnext⟩ := h.within x e he
  have hdisjoint := hfresh r hr
  unfold Region.Disjoint Region.stop at hdisjoint
  unfold Region.stop at hstop hnext
  dsimp only at hdisjoint
  omega

theorem Laid.kept_addPool (h : Laid pools H)
    (hfresh : ∀ r ∈ pools, Region.Disjoint ⟨mem, size + 16⟩ r) (he : H x = some e) :
    poolHeaders H mem size x = some e := by
  have := h.outside hfresh he
  rw [poolHeaders_of_ne (by omega) (by omega)]
  exact he

theorem Laid.apart_addPool (h : Laid pools H)
    (hfresh : ∀ r ∈ pools, Region.Disjoint ⟨mem, size + 16⟩ r) {r r' : Region}
    (hr : r ∈ ⟨mem, size + 16⟩ :: pools) (hr' : r' ∈ ⟨mem, size + 16⟩ :: pools) (hne : r ≠ r') :
    r.Disjoint r' := by
  obtain rfl | hr := List.mem_cons.mp hr
  · obtain rfl | hr' := List.mem_cons.mp hr'
    · exact absurd rfl hne
    · exact hfresh r' hr'
  · obtain rfl | hr' := List.mem_cons.mp hr'
    · exact (hfresh r hr).symm
    · exact h.apart r hr r' hr' hne

theorem Laid.within_addPool (h : Laid pools H) (he : poolHeaders H mem size x = some e) :
    ∃ r ∈ ⟨mem, size + 16⟩ :: pools, Within r x e.size := by
  obtain ⟨rfl, rfl⟩ | ⟨rfl, rfl⟩ | ⟨-, -, he⟩ := pool_cases he
  · refine ⟨_, List.mem_cons_self, ?_, ?_, fun hne => absurd rfl hne⟩
    · dsimp only
      omega
    · rw [stop_pool]
      dsimp only
      omega
  · refine ⟨_, List.mem_cons_self, ?_, ?_, fun _ => ?_⟩
    · exact Nat.le_refl _
    · rw [stop_pool]
      dsimp only
      omega
    · rw [stop_pool]
      dsimp only
      omega
  · obtain ⟨r, hr, hwithin⟩ := h.within x e he
    exact ⟨r, List.mem_cons_of_mem _ hr, hwithin⟩

theorem Laid.order_addPool {x' : Nat} {e' : Header} (h : Laid pools H)
    (hfresh : ∀ r ∈ pools, Region.Disjoint ⟨mem, size + 16⟩ r)
    (he : poolHeaders H mem size x = some e) (he' : poolHeaders H mem size x' = some e')
    (hlt : x < x') : x + e.size + 8 ≤ x' := by
  obtain ⟨rfl, rfl⟩ | ⟨rfl, rfl⟩ | ⟨-, -, he⟩ := pool_cases he
  · obtain ⟨rfl, rfl⟩ | ⟨rfl, rfl⟩ | ⟨-, -, he'⟩ := pool_cases he'
    · omega
    · omega
    · have := h.outside hfresh he'
      dsimp only
      omega
  · obtain ⟨rfl, rfl⟩ | ⟨rfl, rfl⟩ | ⟨-, -, he'⟩ := pool_cases he'
    · dsimp only
      omega
    · omega
    · have := h.outside hfresh he'
      dsimp only
      omega
  · have hx := h.outside hfresh he
    obtain ⟨rfl, rfl⟩ | ⟨rfl, rfl⟩ | ⟨-, -, he'⟩ := pool_cases he'
    · omega
    · omega
    · exact h.order x x' e e' he he' hlt

theorem Laid.addPool (h : Laid pools H) (hmem : 8 ∣ mem) (hsize : 8 ∣ size) (hmin : 24 ≤ size)
    (hmax : size < blockSizeMax) (hspace : mem + size + 16 < addressSpace)
    (hfresh : ∀ r ∈ pools, Region.Disjoint ⟨mem, size + 16⟩ r) :
    Laid (⟨mem, size + 16⟩ :: pools) (poolHeaders H mem size) where
  pool r hr := by
    obtain rfl | hr := List.mem_cons.mp hr
    · rw [stop_pool]
      refine ⟨?_, hspace⟩
      unfold poolOverhead blockHeaderOverhead
      dsimp only
      omega
    · exact h.pool r hr
  apart _ hr _ hr' hne := h.apart_addPool hfresh hr hr' hne
  within _ _ he := h.within_addPool he
  aligned x e he := by
    obtain ⟨rfl, rfl⟩ | ⟨rfl, rfl⟩ | ⟨-, -, he⟩ := pool_cases he
    · exact ⟨by omega, Nat.dvd_zero 8⟩
    · exact ⟨by omega, hsize⟩
    · exact h.aligned x e he
  order _ _ _ _ he he' hlt := h.order_addPool hfresh he he' hlt
  next x e he hne := by
    obtain ⟨rfl, rfl⟩ | ⟨rfl, rfl⟩ | ⟨-, -, he⟩ := pool_cases he
    · exact absurd rfl hne
    · refine ⟨hmin, ⟨mem + 8, 0, false, true⟩, ?_⟩
      rw [show mem + 8 + size + 8 = mem + size + 16 by omega]
      exact poolHeaders_last
    · obtain ⟨hmin', n', hn'⟩ := h.next x e he hne
      exact ⟨hmin', n', h.kept_addPool hfresh hn'⟩
  last x e he hzero := by
    obtain ⟨rfl, rfl⟩ | ⟨rfl, rfl⟩ | ⟨-, -, he⟩ := pool_cases he
    · rfl
    · dsimp only at hzero
      omega
    · exact h.last x e he hzero
  prev x e he hprev := by
    obtain ⟨rfl, rfl⟩ | ⟨rfl, rfl⟩ | ⟨-, -, he⟩ := pool_cases he
    · exact ⟨_, poolHeaders_first, rfl, by dsimp only; omega⟩
    · cases hprev
    · obtain ⟨e', he', hsame⟩ := h.prev x e he hprev
      exact ⟨e', h.kept_addPool hfresh he', hsame⟩

end addPool

theorem Laid.empty : Laid [] fun _ => none := by
  constructor <;> intros <;> contradiction

end Gpcl.Tlsf
