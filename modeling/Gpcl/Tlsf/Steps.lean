import Gpcl.Tlsf.Stores

/-! # Splitting and absorbing in memory

What the operations on blocks do to the words is what they do to the headers, step by step. Between
two stores the words may be those of no headers; so these are the steps from one state that is held
to the next one. -/
namespace Gpcl.Tlsf
open Lib.Memory Lib.Bitmap Lib.Rings Lib.NullLists

variable {H H' K : Nat → Option Header} {pools : List Region} {w w' : Words} {c c' : Control}
    {hand : List Nat} {as : List Nat}
  {q p s t x y a v null block fl sl size : Nat} {b n d r h h' : Header}

/-! ## Few words -/

theorem Laid.dvd (hl : Laid pools H) (y : Nat) (d : Header) (hd : H y = some d) : 8 ∣ y :=
  (hl.aligned y d hd).1

/-- Other headers whose words are there, or were there and are not stored. -/
theorem Holds.patch (hh : Holds null w c) (hdvd : ∀ y d, c.headers y = some d → 8 ∣ y)
    (hi : Indexed c hand) (hpatch : Patch as w w') (has : ∀ a ∈ as, 8 ∣ a)
    (haligned : ∀ x h, H' (x + 16) = some h → 8 ∣ x)
    (hsizes : ∀ x h, H' (x + 16) = some h → w'.sizeField x = h.word ∨
      ∃ h₀, c.headers (x + 16) = some h₀ ∧ h₀.word = h.word ∧ x + 8 ∉ as)
    (hlinks : ∀ x h, H' (x + 16) = some h → h.prevFree = true →
      w'.prevPhysBlock x + 16 = h.prevPhys ∨
      ∃ h₀, c.headers (x + 16) = some h₀ ∧ h₀.prevFree = true ∧ h₀.prevPhys = h.prevPhys ∧ x ∉ as)
    (hfar : ∀ y d, c.headers y = some d → d.free = true → y ∉ hand → y ∉ as ∧ y + 8 ∉ as) :
    Holds null w' { c with headers := H' } := by
  have hheld : Holds null ⟨w'.mem, w.flBitmap, w.slBitmap, w.blocks⟩ { c with headers := H' } :=
    hh.withHeaders (fun x h hx => ?_) (fun x h hx hprev => ?_) fun fl sl y hy => ?_
  · rw [← hpatch.blocks, ← hpatch.slBits, ← hpatch.flBits] at hheld
    exact hheld
  · have h8 := haligned x h hx
    obtain hword | ⟨h₀, hx₀, hword, hnot⟩ := hsizes x h hx
    · exact hword
    · rw [← hword, hpatch.load has (by omega) hnot]
      exact hh.sizes x h₀ hx₀
  · have h8 := haligned x h hx
    obtain hlink | ⟨h₀, hx₀, hprev₀, hphys, hnot⟩ := hlinks x h hx hprev
    · exact hlink
    · rw [← hphys, hpatch.load has h8 hnot]
      exact hh.links x h₀ hx₀ hprev₀
  · obtain ⟨d, hd, hfree, -, hhand⟩ := hi.free_of_mem hy
    obtain ⟨hnext, hprev⟩ := hfar y d hd hfree hhand
    have h8 := hdvd y d hd
    exact ⟨hpatch.load has h8 hnext, hpatch.load has (by omega) hprev⟩

theorem Patch.kept (hpatch : Patch as w w')
    (hfar : ∀ x, UsedByte H x → UsedByte H' x → ∀ a ∈ as, x < a ∨ a + 8 ≤ x) :
    Kept H H' w.mem w'.mem :=
  fun x hx hx' => hpatch.mem x (hfar x hx hx')

theorem SplitInto.store (h : SplitInto w block s b n r) (h8 : 8 ∣ block) (h8s : 8 ∣ s)
    (h8b : 8 ∣ b.size) (ha : 8 ∣ a) (hfirst : a ≠ block + 8) (hsecond : a ≠ block + s + 8 + 8)
    (hnext : a ≠ block + b.size + 8 + 8) (hphys : a ≠ block + b.size + 8)
    (v : Nat) : SplitInto (w.store a v) block s b n r :=
  ⟨h.first.store h8 ha hfirst, h.second.store (by omega) ha hsecond,
    h.next.store (by omega) ha hnext,
    (loadWord_storeWord_ne ha (by omega) hphys.symm).trans h.phys⟩

/-! ## Splitting -/

/-- A free block in hand. -/
theorem Holds.split (hh : Holds null w c) (hl : Laid pools c.headers) (hi : Indexed c hand)
    (hb : c.headers (block + 16) = some b) (hfree : b.free = true) (hhand : block + 16 ∈ hand)
    (hn : c.headers (block + 16 + b.size + 8) = some n) (h8s : 8 ∣ s) (hmin : 24 ≤ s)
    (hfit : s + 32 ≤ b.size)
    (hpatch : Patch [block + s + 8 + 8, block + 8, block + b.size + 8, block + b.size + 8 + 8,
      block + s + 8] w w')
    (hinto : SplitInto w' block s b n ⟨0, b.size - (s + 8), true, true⟩)
    (hphys : w'.prevPhysBlock (block + s + 8) = block) :
    Holds null w' { c with headers := splitHeaders c.headers (block + 16) s b n } ∧
    Kept c.headers K w.mem w'.mem := by
  obtain ⟨h8, h8b⟩ := hl.aligned _ b hb
  have has :
      ∀ a ∈ [block + s + 8 + 8, block + 8, block + b.size + 8, block + b.size + 8 + 8,
          block + s + 8], 8 ∣ a := by
    simp only [List.mem_cons, List.not_mem_nil, or_false]
    omega
  constructor
  · refine hh.patch hl.dvd hi hpatch has ?_ ?_ ?_ ?_
    · intro x e he
      obtain ⟨hx, -⟩ | ⟨hx, -⟩ | ⟨hx, -⟩ | ⟨-, -, -, he⟩ := split_cases he
      · omega
      · omega
      · omega
      · have := (hl.aligned _ e he).1
        omega
    · intro x e he
      obtain ⟨hx, rfl⟩ | ⟨hx, rfl⟩ | ⟨hx, rfl⟩ | ⟨hxq, hxr, hxn, he⟩ := split_cases he
      · rw [show x = block + s + 8 by omega]
        exact .inl hinto.second.field
      · rw [show x = block by omega]
        exact .inl hinto.first.field
      · rw [show x = block + b.size + 8 by omega]
        exact .inl hinto.next.field
      · have := (hl.aligned _ e he).1
        have := hl.far hb he
        refine .inr ⟨e, he, rfl, ?_⟩
        simp only [List.mem_cons, List.not_mem_nil, or_false]
        omega
    · intro x e he hprev
      obtain ⟨hx, rfl⟩ | ⟨hx, rfl⟩ | ⟨hx, rfl⟩ | ⟨hxq, hxr, hxn, he⟩ := split_cases he
      · rw [show x = block + s + 8 by omega, hphys]
        exact .inl rfl
      · have := hl.link_far hb hprev hb
        refine .inr ⟨b, by rw [hx]; exact hb, hprev, rfl, ?_⟩
        simp only [List.mem_cons, List.not_mem_nil, or_false]
        omega
      · rw [show x = block + b.size + 8 by omega, hinto.phys]
        exact .inl (by dsimp only; omega)
      · have := hl.far hb he
        have := (hl.aligned _ e he).1
        have hback := hl.link_far he hprev hn
        refine .inr ⟨e, he, hprev, rfl, ?_⟩
        simp only [List.mem_cons, List.not_mem_nil, or_false]
        omega
    · intro y e he hefree hehand
      have hyq : y ≠ block + 16 := fun heq => hehand (heq ▸ hhand)
      have := hl.apart_of_ne hb he hyq
      have hmin' := (hl.next y e he (hl.size_of_free he hefree)).1
      have := hl.far_min he (hl.size_of_free he hefree) hn
      have := (hl.aligned _ e he).1
      simp only [List.mem_cons, List.not_mem_nil, or_false]
      omega
  · refine hpatch.kept fun x hx _ => ?_
    obtain ⟨y, e, he, heused, hle, hlt⟩ := hx
    have hyq : y ≠ block + 16 := by
      rintro rfl
      rw [hb] at he
      cases he
      rw [heused] at hfree
      cases hfree
    have := hl.apart_of_ne hb he hyq
    have := hl.far he hn
    simp only [List.mem_cons, List.not_mem_nil, or_false, forall_eq_or_imp, forall_eq]
    omega

theorem cut_cases (hd : cutHeaders H q s b n x = some d) :
    (x = q + s + 8 ∧ d = ⟨0, b.size - (s + 8), true, false⟩) ∨ (x = q ∧ d = { b with size := s }) ∨
      (x = q + b.size + 8 ∧ d = { n with prevPhys := q + s + 8, prevFree := true }) ∨
      (x ≠ q ∧ x ≠ q + s + 8 ∧ x ≠ q + b.size + 8 ∧ H x = some d) := by
  obtain hx | ⟨hxr, hd⟩ := update_eq_some hd
  · exact .inl hx
  · obtain hx | ⟨hxq, hd⟩ := update_eq_some hd
    · exact .inr (.inl hx)
    · obtain hx | ⟨hxn, hd⟩ := update_eq_some hd
      · exact .inr (.inr (.inl hx))
      · exact .inr (.inr (.inr ⟨hxq, hxr, hxn, hd⟩))

/-- A block in use. -/
theorem Holds.cut (hh : Holds null w c) (hl : Laid pools c.headers) (hi : Indexed c [])
    (hb : c.headers (block + 16) = some b) (hused : b.free = false)
    (hn : c.headers (block + 16 + b.size + 8) = some n) (h8s : 8 ∣ s) (hmin : 24 ≤ s)
    (hfit : s + 32 ≤ b.size)
    (hpatch : Patch [block + s + 8 + 8, block + 8, block + b.size + 8, block + b.size + 8 + 8] w w')
    (hinto : SplitInto w' block s b n ⟨0, b.size - (s + 8), true, false⟩) :
    Holds null w' { c with headers := cutHeaders c.headers (block + 16) s b n } ∧
      Kept c.headers (cutHeaders c.headers (block + 16) s b n) w.mem w'.mem := by
  obtain ⟨h8, h8b⟩ := hl.aligned _ b hb
  have has : ∀ a ∈ [block + s + 8 + 8, block + 8, block + b.size + 8, block + b.size + 8 + 8],
      8 ∣ a := by
    simp only [List.mem_cons, List.not_mem_nil, or_false]
    omega
  constructor
  · refine hh.patch hl.dvd hi hpatch has ?_ ?_ ?_ ?_
    · intro x e he
      obtain ⟨hx, -⟩ | ⟨hx, -⟩ | ⟨hx, -⟩ | ⟨-, -, -, he⟩ := cut_cases he
      · omega
      · omega
      · omega
      · have := (hl.aligned _ e he).1
        omega
    · intro x e he
      obtain ⟨hx, rfl⟩ | ⟨hx, rfl⟩ | ⟨hx, rfl⟩ | ⟨hxq, hxr, hxn, he⟩ := cut_cases he
      · rw [show x = block + s + 8 by omega]
        exact .inl hinto.second.field
      · rw [show x = block by omega]
        exact .inl hinto.first.field
      · rw [show x = block + b.size + 8 by omega]
        exact .inl hinto.next.field
      · have := (hl.aligned _ e he).1
        have := hl.far hb he
        refine .inr ⟨e, he, rfl, ?_⟩
        simp only [List.mem_cons, List.not_mem_nil, or_false]
        omega
    · intro x e he hprev
      obtain ⟨-, rfl⟩ | ⟨hx, rfl⟩ | ⟨hx, rfl⟩ | ⟨hxq, hxr, hxn, he⟩ := cut_cases he
      · cases hprev
      · have := hl.link_far hb hprev hb
        refine .inr ⟨b, by rw [hx]; exact hb, hprev, rfl, ?_⟩
        simp only [List.mem_cons, List.not_mem_nil, or_false]
        omega
      · rw [show x = block + b.size + 8 by omega, hinto.phys]
        exact .inl (by dsimp only; omega)
      · have := hl.far hb he
        have := (hl.aligned _ e he).1
        have hback := hl.link_far he hprev hn
        refine .inr ⟨e, he, hprev, rfl, ?_⟩
        simp only [List.mem_cons, List.not_mem_nil, or_false]
        omega
    · intro y e he hefree _
      have hyq : y ≠ block + 16 := by
        rintro rfl
        rw [hb] at he
        cases he
        rw [hused] at hefree
        cases hefree
      have := hl.apart_of_ne hb he hyq
      have hmin' := (hl.next y e he (hl.size_of_free he hefree)).1
      have := hl.far_min he (hl.size_of_free he hefree) hn
      have := (hl.aligned _ e he).1
      simp only [List.mem_cons, List.not_mem_nil, or_false]
      omega
  · refine hpatch.kept fun x hx hx' => ?_
    simp only [List.mem_cons, List.not_mem_nil, or_false, forall_eq_or_imp, forall_eq]
    obtain ⟨y, e, he, heused, hle, hlt⟩ := hx'
    obtain ⟨-, rfl⟩ | ⟨rfl, rfl⟩ | ⟨rfl, rfl⟩ | ⟨hyq, -, hyn, he⟩ := cut_cases he
    · cases heused
    · dsimp only at hlt
      omega
    · dsimp only at hlt
      omega
    · have := hl.apart_of_ne hb he hyq
      have := hl.far he hn
      omega

/-! ## Absorbing -/

theorem Laid.merged_lt (hl : Laid pools H) (hd : H p = some d) (hd0 : d.size ≠ 0)
    (hb : H (p + d.size + 8) = some b) (hb0 : b.size ≠ 0) :
    d.size + b.size + 8 < blockSizeMax := by
  obtain ⟨r, hr, hbase, hstop, hnext⟩ := hl.within p d hd
  obtain ⟨r', hr', hbase', hstop', hnext'⟩ := hl.within _ b hb
  have hnext := hnext hd0
  have hnext' := hnext' hb0
  have hpool : r' = r := by
    refine hl.same_pool (x := p + d.size) hr' hr ?_ ?_
    · unfold Region.Contains
      omega
    · unfold Region.Contains
      omega
  subst hpool
  have hsize := (hl.pool r' hr).1
  unfold Region.stop at hnext'
  unfold poolOverhead blockHeaderOverhead at hsize
  omega

theorem word_add {k : Nat} : d.word + k = { d with size := d.size + k }.word := by
  unfold Header.word
  dsimp only
  omega

/-- The words of a block that has taken in the one behind it, and of the block behind both. -/
structure Grown (w : Words) (block : Nat) (d b n : Header) : Prop where
  grown : w.Has block { d with size := d.size + b.size + 8 }
  next : w.Has (block + (d.size + b.size + 8) + 8) n
  phys : w.prevPhysBlock (block + (d.size + b.size + 8) + 8) = block

theorem Words.blockAbsorb_eq (hd : w.Has block d) (hb : w.Has (block + d.size + 8) b)
    (hn : w.Has (block + (d.size + b.size + 8) + 8) n) (h8 : 8 ∣ block) (hd0 : d.size ≠ 0)
    (hlt : d.size + b.size + 8 < blockSizeMax) (hspace : block < addressSpace) :
    ∃ w', w.blockAbsorb block (block + d.size + 8) = some w' ∧
    Patch [block + 8, block + (d.size + b.size + 8) + 8] w w' ∧
      Grown w' block d b n := by
  have h8d := hd.dvd
  have h8b := hb.dvd
  have hgrown :
      (w.store (block + 8) { d with size := d.size + b.size + 8 }.word).Has block
        { d with size := d.size + b.size + 8 } :=
    Words.has_store (by dsimp only; omega) hlt
  have hn₁ :
      (w.store (block + 8) { d with size := d.size + b.size + 8 }.word).Has
        (block + (d.size + b.size + 8) + 8) n :=
    hn.store (by omega) (by omega) (by omega)
  have hlink := hgrown.blockLinkNext (show d.size + b.size + 8 ≠ 0 by omega)
  refine ⟨(w.store (block + 8) { d with size := d.size + b.size + 8 }.word).store
    (block + (d.size + b.size + 8) + 8) block, ?_,
    ((Patch.refl _ w).store (by simp) _).store (by simp) _, ?_, ?_, ?_⟩
  · have hword :
        w.sizeField block + w.blockSize (block + d.size + 8) + blockHeaderOverhead =
          { d with size := d.size + b.size + 8 }.word := by
      rw [hd.field, hb.blockSize, word_add, word_add]
      rfl
    have hlast : w.blockIsLast block = false := by rw [hd.blockIsLast, decide_eq_false hd0]
    rw [Words.blockAbsorb, hword, guard, if_pos hlast]
    simp only [Option.bind_eq_bind, Option.pure_def, Option.bind_some]
    exact congrArg (Option.bind · fun r => some r.1) hlink
  · exact hgrown.store h8 (by omega) (by omega)
  · exact hn₁.store (by omega) (by omega) (by omega)
  · exact loadWord_storeWord _ _ hspace

/-- Two free blocks in hand. -/
theorem Holds.absorb (hh : Holds null w c) (hl : Laid pools c.headers) (hi : Indexed c hand)
    (hd : c.headers (block + 16) = some d) (hb : c.headers (block + 16 + d.size + 8) = some b)
    (hdfree : d.free = true) (hfree : b.free = true) (hhand : block + 16 + d.size + 8 ∈ hand)
    (hn : c.headers (block + 16 + d.size + 8 + b.size + 8) = some n) :
    ∃ w', w.blockAbsorb block (block + d.size + 8) = some w' ∧
      Holds null w' { c with
        headers := absorbHeaders c.headers (block + 16) (block + 16 + d.size + 8) d b n } ∧
      Kept c.headers K w.mem w'.mem := by
  have hd0 := hl.size_of_free hd hdfree
  have hb0 := hl.size_of_free hb hfree
  have hlt := hl.merged_lt hd hd0 hb hb0
  have hmin := (hl.next _ b hb hb0).1
  obtain ⟨h8, h8d⟩ := hl.aligned _ d hd
  obtain ⟨-, h8b⟩ := hl.aligned _ b hb
  have hspace := (hl.bounds hd).2.2 hd0
  have hB : c.headers (block + d.size + 8 + 16) = some b := by
    rw [show block + d.size + 8 + 16 = block + 16 + d.size + 8 by omega]
    exact hb
  have hN : c.headers (block + (d.size + b.size + 8) + 8 + 16) = some n := by
    rw [show block + (d.size + b.size + 8) + 8 + 16 = block + 16 + d.size + 8 + b.size + 8 by omega]
    exact hn
  obtain ⟨w', hrun, hpatch, hgrown⟩ :=
    Words.blockAbsorb_eq (hh.has hl hd) (hh.has hl hB) (hh.has hl hN) (by omega) hd0 hlt (by omega)
  have has : ∀ a ∈ [block + 8, block + (d.size + b.size + 8) + 8], 8 ∣ a := by
    simp only [List.mem_cons, List.not_mem_nil, or_false]
    omega
  refine ⟨w', hrun, hh.patch hl.dvd hi hpatch has ?_ ?_ ?_ ?_, hpatch.kept fun x hx _ => ?_⟩
  · intro x e he
    obtain ⟨hx, -⟩ | ⟨hx, -⟩ | ⟨-, -, -, he⟩ := absorb_cases he
    · omega
    · omega
    · have := (hl.aligned _ e he).1
      omega
  · intro x e he
    obtain ⟨hx, rfl⟩ | ⟨hx, rfl⟩ | ⟨hxp, hxq, hxn, he⟩ := absorb_cases he
    · rw [show x = block by omega]
      exact .inl hgrown.grown.field
    · rw [show x = block + (d.size + b.size + 8) + 8 by omega]
      exact .inl hgrown.next.field
    · have := (hl.aligned _ e he).1
      have := hl.far hb he
      refine .inr ⟨e, he, rfl, ?_⟩
      simp only [List.mem_cons, List.not_mem_nil, or_false]
      omega
  · intro x e he hprev
    obtain ⟨hx, rfl⟩ | ⟨hx, rfl⟩ | ⟨hxp, hxq, hxn, he⟩ := absorb_cases he
    · have := hl.link_far hd hprev hd
      refine .inr ⟨d, by rw [hx]; exact hd, hprev, rfl, ?_⟩
      simp only [List.mem_cons, List.not_mem_nil, or_false]
      omega
    · rw [show x = block + (d.size + b.size + 8) + 8 by omega, hgrown.phys]
      exact .inl rfl
    · have := (hl.aligned _ e he).1
      have := hl.link_far he hprev hd
      refine .inr ⟨e, he, hprev, rfl, ?_⟩
      simp only [List.mem_cons, List.not_mem_nil, or_false]
      omega
  · intro y e he hefree hehand
    have hyq : y ≠ block + 16 + d.size + 8 := fun heq => hehand (heq ▸ hhand)
    have := hl.apart_of_ne hb he hyq
    have hmin' := (hl.next y e he (hl.size_of_free he hefree)).1
    have := hl.far_min he (hl.size_of_free he hefree) hd
    have := (hl.aligned _ e he).1
    simp only [List.mem_cons, List.not_mem_nil, or_false]
    omega
  · obtain ⟨y, e, he, heused, hle, hlt'⟩ := hx
    have hyq : y ≠ block + 16 + d.size + 8 := by
      rintro rfl
      rw [hb] at he
      cases he
      rw [heused] at hfree
      cases hfree
    have := hl.apart_of_ne hb he hyq
    have := hl.far he hd
    simp only [List.mem_cons, List.not_mem_nil, or_false, forall_eq_or_imp, forall_eq]
    omega

theorem grow_cases {e : Header} (he : usedHeaders (absorbHeaders H p (p + d.size + 8) d b n) p
      { d with size := d.size + b.size + 8 }
      { n with prevPhys := p } x = some e) :
    (x = p ∧ e = { d with size := d.size + b.size + 8, free := false }) ∨
      (x = p + d.size + 8 + b.size + 8 ∧ e = { n with prevPhys := p, prevFree := false }) ∨
      (x ≠ p ∧ x ≠ p + d.size + 8 ∧ x ≠ p + d.size + 8 + b.size + 8 ∧ H x = some e) := by
  obtain ⟨rfl, rfl⟩ | ⟨hx, rfl⟩ | ⟨hxp, hxn, he⟩ := used_cases he
  · exact .inl ⟨rfl, rfl⟩
  · exact .inr (.inl ⟨by dsimp only at hx; omega, rfl⟩)
  · dsimp only at hxn
    obtain ⟨hx, -⟩ | ⟨hx, -⟩ | hold := absorb_cases he
    · exact absurd hx hxp
    · omega
    · exact .inr (.inr hold)

/-- A block in use takes in the free block behind it, and is marked as used then. -/
theorem Holds.grow (hh : Holds null w c) (hl : Laid pools c.headers)
    (hi : Indexed c [block + 16 + d.size + 8]) (hd : c.headers (block + 16) = some d)
    (hb : c.headers (block + 16 + d.size + 8) = some b) (hd0 : d.size ≠ 0) (hfree : b.free = true)
    (hn : c.headers (block + 16 + d.size + 8 + b.size + 8) = some n) :
    ∃ w₁ w', w.blockAbsorb block (block + d.size + 8) = some w₁ ∧
    w₁.blockMarkAsUsed block = some w' ∧
      Holds null w' { c with
        headers := (usedHeaders (absorbHeaders c.headers (block + 16)
          (block + 16 + d.size + 8) d b n)
        (block + 16) { d with size := d.size + b.size + 8 } { n with prevPhys := block + 16 }) } ∧
          Kept c.headers K w.mem w'.mem := by
  have hb0 := hl.size_of_free hb hfree
  have hlt := hl.merged_lt hd hd0 hb hb0
  have hmin := (hl.next _ b hb hb0).1
  obtain ⟨h8, h8d⟩ := hl.aligned _ d hd
  obtain ⟨-, h8b⟩ := hl.aligned _ b hb
  have hspace := (hl.bounds hd).2.2 hd0
  have hB : c.headers (block + d.size + 8 + 16) = some b := by
    rw [show block + d.size + 8 + 16 = block + 16 + d.size + 8 by omega]
    exact hb
  have hN : c.headers (block + (d.size + b.size + 8) + 8 + 16) = some n := by
    rw [show block + (d.size + b.size + 8) + 8 + 16 = block + 16 + d.size + 8 + b.size + 8 by omega]
    exact hn
  obtain ⟨w₁, hrun, hpatch, hgrown⟩ :=
    Words.blockAbsorb_eq (hh.has hl hd) (hh.has hl hB) (hh.has hl hN) (by omega) hd0 hlt (by omega)
  have hnext := hgrown.grown.blockNext (show d.size + b.size + 8 ≠ 0 by omega)
  have hgrown₂ :
      (w₁.store (block + (d.size + b.size + 8) + 8 + 8) { n with prevFree := false }.word).Has block
      { d with size := d.size + b.size + 8 } := hgrown.grown.store (by omega) (by omega) (by omega)
  generalize hw₂ : w₁.store (block + (d.size + b.size + 8) + 8 + 8)
    { n with prevFree := false }.word = w₂ at hgrown₂
  have hnext₂ : w₂.Has (block + (d.size + b.size + 8) + 8) { n with prevFree := false } := by
    rw [← hw₂]
    exact Words.has_store hgrown.next.dvd hgrown.next.lt
  have hfirst₃ :
      (w₂.store (block + 8) { d with size := d.size + b.size + 8, free := false }.word).Has block
      { d with size := d.size + b.size + 8, free := false } :=
        Words.has_store hgrown.grown.dvd hgrown.grown.lt
  have hnext₃ :
      (w₂.store (block + 8) { d with size := d.size + b.size + 8, free := false }.word).Has
        (block + (d.size + b.size + 8) + 8)
      { n with prevFree := false } := hnext₂.store (by omega) (by omega) (by omega)
  have hpatch₃ :
      Patch [block + 8, block + (d.size + b.size + 8) + 8, block + (d.size + b.size + 8) + 8 + 8] w
      (w₂.store (block + 8) { d with size := d.size + b.size + 8, free := false }.word) := by
    rw [← hw₂]
    exact ((hpatch.mono (by simp)).store (by simp) _).store (by simp) _
  have has :
      ∀ a ∈ [block + 8, block + (d.size + b.size + 8) + 8, block + (d.size + b.size + 8) + 8 + 8],
      8 ∣ a := by
    simp only [List.mem_cons, List.not_mem_nil, or_false]
    omega
  refine ⟨w₁, _, hrun, ?_, hh.patch hl.dvd hi hpatch₃ has ?_ ?_ ?_ ?_,
    hpatch₃.kept fun x hx _ => ?_⟩
  · rw [Words.blockMarkAsUsed, hnext]
    simp only [Option.bind_eq_bind, Option.bind_some, hgrown.next.blockSetPrevUsed]
    rw [hw₂, hgrown₂.blockSetUsed]
    rfl
  · intro x e he
    obtain ⟨hx, -⟩ | ⟨hx, -⟩ | ⟨-, -, -, he⟩ := grow_cases he
    · omega
    · omega
    · have := (hl.aligned _ e he).1
      omega
  · intro x e he
    obtain ⟨hx, rfl⟩ | ⟨hx, rfl⟩ | ⟨hxp, hxq, hxn, he⟩ := grow_cases he
    · rw [show x = block by omega]
      exact .inl hfirst₃.field
    · rw [show x = block + (d.size + b.size + 8) + 8 by omega]
      exact .inl hnext₃.field
    · have := (hl.aligned _ e he).1
      have := hl.far hb he
      refine .inr ⟨e, he, rfl, ?_⟩
      simp only [List.mem_cons, List.not_mem_nil, or_false]
      omega
  · intro x e he hprev
    obtain ⟨hx, rfl⟩ | ⟨-, rfl⟩ | ⟨hxp, hxq, hxn, he⟩ := grow_cases he
    · refine .inr ⟨d, by rw [hx]; exact hd, hprev, rfl, ?_⟩
      simp only [List.mem_cons, List.not_mem_nil, or_false]
      omega
    · cases hprev
    · have := (hl.aligned _ e he).1
      have := hl.link_far he hprev hd
      have := hl.link_far he hprev hn
      refine .inr ⟨e, he, hprev, rfl, ?_⟩
      simp only [List.mem_cons, List.not_mem_nil, or_false]
      omega
  · intro y e he hefree hehand
    have hyq : y ≠ block + 16 + d.size + 8 := fun heq => hehand (heq ▸ List.mem_cons_self)
    have := hl.apart_of_ne hb he hyq
    have hmin' := (hl.next y e he (hl.size_of_free he hefree)).1
    have := hl.far_min he (hl.size_of_free he hefree) hd
    have := hl.far_min he (hl.size_of_free he hefree) hn
    have := (hl.aligned _ e he).1
    simp only [List.mem_cons, List.not_mem_nil, or_false]
    omega
  · obtain ⟨y, e, he, heused, hle, hlt'⟩ := hx
    have hyq : y ≠ block + 16 + d.size + 8 := by
      rintro rfl
      rw [hb] at he
      cases he
      rw [heused] at hfree
      cases hfree
    have := hl.apart_of_ne hb he hyq
    have := hl.far he hd
    have := hl.far he hn
    simp only [List.mem_cons, List.not_mem_nil, or_false, forall_eq_or_imp, forall_eq]
    omega

end Gpcl.Tlsf
