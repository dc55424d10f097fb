import Gpcl.Tlsf.Links

/-! # Operations on blocks in memory

Each operation on headers is a few stores. What they leave in memory is what the operation on the
headers says, also where it puts a size over flags that are anything; and they store in no byte of a
block that is in use before and after. -/
namespace Gpcl.Tlsf
open Lib.Memory Lib.Bitmap Lib.Rings Lib.NullLists

variable {H H' : Nat → Option Header} {pools : List Region} {w : Words} {c c' : Control}
    {hand : List Nat}
  {q p s x y a v null block fl sl size : Nat} {b n d h h' : Header}

/-! ## One header -/

/-- The size field of a block is that of the header. -/
structure Words.Has (w : Words) (block : Nat) (h : Header) : Prop where
  field : w.sizeField block = h.word
  dvd : 8 ∣ h.size
  lt : h.size < blockSizeMax

theorem word_lt (hlt : h.size < blockSizeMax) : h.word < addressSpace := by
  have := flagBits_lt h.free h.prevFree
  unfold Header.word
  unfold blockSizeMax flIndexMax at hlt
  unfold addressSpace
  omega

namespace Words.Has

variable (hb : w.Has block b)
include hb

theorem blockSize : w.blockSize block = b.size := by
  rw [Words.blockSize, hb.field]
  exact clearBits_word hb.dvd

theorem blockIsFree : w.blockIsFree block = b.free := by
  rw [Words.blockIsFree, hb.field]
  exact word_free hb.dvd

theorem blockIsPrevFree : w.blockIsPrevFree block = b.prevFree := by
  rw [Words.blockIsPrevFree, hb.field]
  exact word_prevFree hb.dvd

theorem blockIsLast : w.blockIsLast block = decide (b.size = 0) := by
  rw [Words.blockIsLast, hb.blockSize]

theorem blockNext (hne : b.size ≠ 0) : w.blockNext block = some (block + b.size + 8) := by
  have hlast : w.blockIsLast block = false := by rw [hb.blockIsLast, decide_eq_false hne]
  rw [Words.blockNext, guard, if_pos hlast, hb.blockSize]
  unfold blockToPtr blockStartOffset blockHeaderOverhead
  exact congrArg some (by omega)

theorem blockLinkNext (hne : b.size ≠ 0) :
    w.blockLinkNext block = some (w.store (block + b.size + 8) block, block + b.size + 8) := by
  rw [Words.blockLinkNext, hb.blockNext hne]
  rfl

theorem blockSetFree : w.blockSetFree block = w.store (block + 8) { b with free := true }.word := by
  rw [Words.blockSetFree, hb.field]
  exact congrArg (w.setSizeField block) (word_setFree hb.dvd)

theorem blockSetUsed :
    w.blockSetUsed block = w.store (block + 8) { b with free := false }.word := by
  rw [Words.blockSetUsed, hb.field]
  exact congrArg (w.setSizeField block) (word_setUsed hb.dvd)

theorem blockSetPrevFree :
    w.blockSetPrevFree block = w.store (block + 8) { b with prevFree := true }.word := by
  rw [Words.blockSetPrevFree, hb.field]
  exact congrArg (w.setSizeField block) (word_setPrevFree hb.dvd)

theorem blockSetPrevUsed :
    w.blockSetPrevUsed block = w.store (block + 8) { b with prevFree := false }.word := by
  rw [Words.blockSetPrevUsed, hb.field]
  exact congrArg (w.setSizeField block) (word_setPrevUsed hb.dvd)

theorem blockSetSize (h8 : 8 ∣ size) :
    w.blockSetSize block size = w.store (block + 8) { b with size }.word := by
  have hbits := word_and hb.dvd (show 3 < 4 by decide)
  rw [flagBits_and_three] at hbits
  have hor := or_low (s := size) (r := 0) (Nat.dvd_trans (by decide) h8) (by decide)
    (flagBits_lt b.free b.prevFree)
  rw [Nat.add_zero, Nat.zero_or] at hor
  rw [Words.blockSetSize, hb.field]
  refine congrArg (w.setSizeField block) ?_
  show size ||| (b.word &&& 3) = _
  rw [hbits, hor]
  rfl

/-- A store elsewhere. -/
theorem store (h8 : 8 ∣ block) (ha : 8 ∣ a) (hne : a ≠ block + 8) : (w.store a v).Has block b :=
  ⟨(loadWord_storeWord_ne ha (by omega) (by omega)).trans hb.field, hb.dvd, hb.lt⟩

end Words.Has

theorem Words.has_store (hdvd : 8 ∣ h.size) (hlt : h.size < blockSizeMax) :
    (w.store (block + 8) h.word).Has block h :=
  ⟨loadWord_storeWord _ _ (word_lt hlt), hdvd, hlt⟩

/-- A size over whatever flags. -/
theorem Words.blockSetSize_any (h8 : 8 ∣ size) (w : Words) (block : Nat) :
    ∃ free prevFree,
    w.blockSetSize block size = w.store (block + 8) (Header.mk 0 size free prevFree).word := by
  obtain ⟨free, prevFree, heq⟩ := set_size_word h8 (w.sizeField block)
  exact ⟨free, prevFree, congrArg (w.setSizeField block) heq⟩

theorem Holds.has (hh : Holds null w c) (hl : Laid pools c.headers)
    (hb : c.headers (block + 16) = some b) : w.Has block b :=
  ⟨hh.sizes block b hb, (hl.aligned _ b hb).2, (hl.bounds hb).2.1⟩

/-! ## Stores beside what is held -/

/-- Stores that leave the links of the lists alone. -/
def SameLinks (c : Control) (m m' : Mem) : Prop :=
  ∀ fl sl, ∀ q ∈ c.blocks fl sl, loadWord m' q = loadWord m q ∧
    loadWord m' (q + 8) = loadWord m (q + 8)

theorem SameLinks.trans {m₁ m₂ m₃ : Mem} (h : SameLinks c m₁ m₂) (h' : SameLinks c m₂ m₃) :
    SameLinks c m₁ m₃ :=
  fun fl sl q hq =>
    ⟨((h' fl sl q hq).1).trans (h fl sl q hq).1, ((h' fl sl q hq).2).trans (h fl sl q hq).2⟩

/-- A word that no listed block has its links in. -/
theorem SameLinks.store {m : Mem} (hl : Laid pools c.headers) (hi : Indexed c hand) (ha : 8 ∣ a)
    (hfar : ∀ y d, c.headers y = some d → d.free = true → y ∉ hand → y ≠ a ∧ y + 8 ≠ a) :
    SameLinks c m (storeWord m a v) := by
  intro fl sl y hy
  obtain ⟨d, hd, hfree, -, hhand⟩ := hi.free_of_mem hy
  have h8 := (hl.aligned y d hd).1
  obtain ⟨hne, hne'⟩ := hfar y d hd hfree hhand
  exact ⟨loadWord_storeWord_ne ha h8 hne, loadWord_storeWord_ne ha (by omega) hne'⟩

/-- The word of a size. -/
theorem SameLinks.sizeWord {m : Mem} (hl : Laid pools c.headers) (hi : Indexed c hand)
    (hb : c.headers (block + 16) = some b) :
    SameLinks c m (storeWord m (block + 8) v) := by
  have h8 := (hl.aligned _ b hb).1
  refine .store hl hi (by omega) fun y d hd hfree _ => ?_
  have := hl.far_min hd (hl.size_of_free hd hfree) hb
  omega

/-- A word in a block that is in no list. -/
theorem SameLinks.inside {m : Mem} (hl : Laid pools c.headers) (hi : Indexed c hand)
    (hb : c.headers q = some b) (hq : b.free = false ∨ q ∈ hand) (ha : 8 ∣ a) (hle : q ≤ a)
    (hlt : a < q + b.size) :
    SameLinks c m (storeWord m a v) := by
  refine .store hl hi ha fun y d hd hfree hhand => ?_
  have hyq : y ≠ q := by
    rintro rfl
    rw [hb] at hd
    cases hd
    obtain hused | hmem := hq
    · rw [hused] at hfree
      cases hfree
    · exact hhand hmem
  have := hl.apart_of_ne hb hd hyq
  have hmin := (hl.next y d hd (hl.size_of_free hd hfree)).1
  omega

theorem Kept.trans {m₁ m₂ m₃ : Mem} (h : Kept H H' m₁ m₂) (h' : Kept H H' m₂ m₃) :
    Kept H H' m₁ m₃ :=
  fun x hx hx' => (h' x hx hx').trans (h x hx hx')

theorem Kept.store {m : Mem} (hfar : ∀ x, UsedByte H x → UsedByte H' x → x < a ∨ a + 8 ≤ x) :
    Kept H H' m (storeWord m a v) :=
  fun x hx hx' => storeWord_outside (hfar x hx hx')

theorem Kept.sizeWord {m : Mem} (hl : Laid pools H) (hb : H (block + 16) = some b) :
    Kept H H' m (storeWord m (block + 8) v) := by
  refine .store fun x hx _ => ?_
  obtain ⟨y, d, hd, -, hle, hlt⟩ := hx
  by_cases hy : y = block + 16
  · omega
  · have := hl.apart_of_ne hb hd hy
    omega

/-- A word in a block that is not in use before. -/
theorem Kept.inside {m : Mem} (hl : Laid pools H) (hb : H q = some b) (hfree : b.free = true)
    (hle : q ≤ a) (hlt : a + 8 ≤ q + b.size) :
    Kept H H' m (storeWord m a v) := by
  refine .store fun x hx _ => ?_
  obtain ⟨y, d, hd, hused, hley, hlty⟩ := hx
  have hyq : y ≠ q := by
    rintro rfl
    rw [hb] at hd
    cases hd
    rw [hused] at hfree
    cases hfree
  have := hl.apart_of_ne hb hd hyq
  omega

/-! ## Marking -/

theorem Holds.markUsed (hh : Holds null w c) (hl : Laid pools c.headers) (hi : Indexed c hand)
    (hb : c.headers (block + 16) = some b) (hne : b.size ≠ 0)
    (hn : c.headers (block + 16 + b.size + 8) = some n) :
    ∃ w', w.blockMarkAsUsed block = some w' ∧
    Holds null w' { c with headers := usedHeaders c.headers (block + 16) b n } ∧
      Kept c.headers (usedHeaders c.headers (block + 16) b n) w.mem w'.mem := by
  obtain ⟨h8, h8b⟩ := hl.aligned _ b hb
  have hN : c.headers (block + b.size + 8 + 16) = some n := by
    rw [show block + b.size + 8 + 16 = block + 16 + b.size + 8 by omega]
    exact hn
  have hasb := hh.has hl hb
  have hasn := hh.has hl hN
  have hasb₁ : (w.store (block + b.size + 8 + 8) { n with prevFree := false }.word).Has block b :=
    hasb.store (by omega) (by omega) (by omega)
  refine ⟨⟨storeWord (storeWord w.mem (block + b.size + 8 + 8) { n with prevFree := false }.word)
    (block + 8)
    { b with free := false }.word, w.flBitmap, w.slBitmap, w.blocks⟩, ?_, ?_, ?_⟩
  · rw [Words.blockMarkAsUsed, hasb.blockNext hne]
    simp only [Option.bind_eq_bind, Option.bind_some, hasn.blockSetPrevUsed, hasb₁.blockSetUsed]
    rfl
  · refine hh.withHeaders ?_ ?_ (SameLinks.trans (.sizeWord hl hi hN) (.sizeWord hl hi hb))
    · intro x d hd
      obtain ⟨heq, rfl⟩ | ⟨heq, rfl⟩ | ⟨hxq, hxn, hd⟩ := used_cases hd
      · rw [show x = block by omega]
        exact loadWord_storeWord _ _ (word_lt hasb.lt)
      · rw [show x = block + b.size + 8 by omega,
          loadWord_storeWord_ne (by omega) (by omega) (by omega)]
        exact loadWord_storeWord _ _ (word_lt hasn.lt)
      · have h8x := (hl.aligned _ d hd).1
        rw [loadWord_storeWord_ne (by omega) (by omega) (by omega)]
        exact (loadWord_storeWord_ne (by omega) (by omega) (by omega)).trans (hh.sizes x d hd)
    · intro x d hd hprev
      obtain ⟨d₀, hd₀, hphys, hprev₀⟩ : ∃ d₀, c.headers (x + 16) = some d₀ ∧
          d₀.prevPhys = d.prevPhys ∧ d₀.prevFree = true := by
        obtain ⟨heq, rfl⟩ | ⟨heq, rfl⟩ | ⟨-, -, hd⟩ := used_cases hd
        · exact ⟨b, heq ▸ hb, rfl, hprev⟩
        · cases hprev
        · exact ⟨d, hd, rfl, hprev⟩
      have h8x := (hl.aligned _ d₀ hd₀).1
      have := hl.link_far hd₀ hprev₀ hb
      have := hl.link_far hd₀ hprev₀ hN
      rw [← hphys, loadWord_storeWord_ne (by omega) (by omega) (by omega)]
      exact (congrArg (· + 16) (loadWord_storeWord_ne (by omega) (by omega) (by omega))).trans
        (hh.links x d₀ hd₀ hprev₀)
  · exact (Kept.sizeWord hl hN).trans (.sizeWord hl hb)

theorem Holds.markFree (hh : Holds null w c) (hl : Laid pools c.headers) (hi : Indexed c hand)
    (hb : c.headers (block + 16) = some b) (hused : b.free = false) (hne : b.size ≠ 0)
    (hn : c.headers (block + 16 + b.size + 8) = some n) :
    ∃ w', w.blockMarkAsFree block = some w' ∧
    Holds null w' { c with headers := freedHeaders c.headers (block + 16) b n } ∧
      Kept c.headers (freedHeaders c.headers (block + 16) b n) w.mem w'.mem := by
  obtain ⟨h8, h8b⟩ := hl.aligned _ b hb
  have hmin := (hl.next _ b hb hne).1
  have hspace := (hl.bounds hb).2.2 hne
  have hN : c.headers (block + b.size + 8 + 16) = some n := by
    rw [show block + b.size + 8 + 16 = block + 16 + b.size + 8 by omega]
    exact hn
  have hasb := hh.has hl hb
  have hasn := hh.has hl hN
  have hasn₁ : (w.store (block + b.size + 8) block).Has (block + b.size + 8) n :=
    hasn.store (by omega) (by omega) (by omega)
  have hasb₂ :
      ((w.store (block + b.size + 8) block).store (block + b.size + 8 + 8)
          { n with prevFree := true }.word).Has block b :=
    (hasb.store (by omega) (by omega) (by omega)).store (by omega) (by omega) (by omega)
  refine ⟨⟨storeWord (storeWord (storeWord w.mem (block + b.size + 8) block)
    (block + b.size + 8 + 8)
    { n with prevFree := true }.word) (block + 8) { b with free := true }.word, w.flBitmap,
      w.slBitmap, w.blocks⟩, ?_, ?_, ?_⟩
  · rw [Words.blockMarkAsFree, hasb.blockLinkNext hne]
    simp only [Option.bind_eq_bind, Option.bind_some, hasn₁.blockSetPrevFree, hasb₂.blockSetFree]
    rfl
  · refine hh.withHeaders ?_ ?_ ?_
    · intro x d hd
      obtain ⟨heq, rfl⟩ | ⟨heq, rfl⟩ | ⟨hxq, hxn, hd⟩ := freed_cases hd
      · rw [show x = block by omega]
        exact loadWord_storeWord _ _ (word_lt hasb.lt)
      · rw [show x = block + b.size + 8 by omega,
          loadWord_storeWord_ne (by omega) (by omega) (by omega)]
        exact loadWord_storeWord _ _ (word_lt hasn.lt)
      · have h8x := (hl.aligned _ d hd).1
        have := hl.far hb hd
        rw [loadWord_storeWord_ne (by omega) (by omega) (by omega),
          loadWord_storeWord_ne (by omega) (by omega) (by omega)]
        exact (loadWord_storeWord_ne (by omega) (by omega) (by omega)).trans (hh.sizes x d hd)
    · intro x d hd hprev
      by_cases hxn : x = block + b.size + 8
      · -- the link that was stored
        obtain ⟨heq, rfl⟩ | ⟨heq, rfl⟩ | ⟨-, heq, -⟩ := freed_cases hd
        · omega
        · rw [hxn, loadWord_storeWord_ne (by omega) (by omega) (by omega),
            loadWord_storeWord_ne (by omega) (by omega) (by omega)]
          exact congrArg (· + 16) (loadWord_storeWord _ _ (by omega))
        · omega
      · obtain ⟨d₀, hd₀, hphys, hprev₀⟩ : ∃ d₀, c.headers (x + 16) = some d₀ ∧
            d₀.prevPhys = d.prevPhys ∧ d₀.prevFree = true := by
          obtain ⟨heq, rfl⟩ | ⟨heq, rfl⟩ | ⟨-, -, hd⟩ := freed_cases hd
          · exact ⟨b, heq ▸ hb, rfl, hprev⟩
          · omega
          · exact ⟨d, hd, rfl, hprev⟩
        have h8x := (hl.aligned _ d₀ hd₀).1
        have := hl.link_far hd₀ hprev₀ hb
        have := hl.link_far hd₀ hprev₀ hN
        rw [← hphys, loadWord_storeWord_ne (by omega) (by omega) (by omega),
          loadWord_storeWord_ne (by omega) (by omega) (by omega)]
        exact (congrArg (· + 16) (loadWord_storeWord_ne (by omega) (by omega) (by omega))).trans
          (hh.links x d₀ hd₀ hprev₀)
    · exact SameLinks.trans (.trans (.inside hl hi hb (.inl hused) (by omega) (by omega) (by omega))
        (.sizeWord hl hi hN)) (.sizeWord hl hi hb)
  · refine Kept.trans (.trans (.store ?_) (.sizeWord hl hN)) (.sizeWord hl hb)
    -- the last word of the block is no longer its client's
    rintro x - ⟨y, d, hd, hdused, hle, hlt⟩
    obtain ⟨d₀, hd₀, hsize, -⟩ := freed_before hb hn hd
    have hyq : y ≠ block + 16 := by
      rintro rfl
      rw [freedHeaders_self] at hd
      cases hd
      cases hdused
    have := hl.apart_of_ne hb hd₀ hyq
    omega

/-! ## Splitting -/

/-- Nothing but these words differs. -/
structure Patch (as : List Nat) (w w' : Words) : Prop where
  mem : ∀ x, (∀ a ∈ as, x < a ∨ a + 8 ≤ x) → w'.mem x = w.mem x
  blocks : w'.blocks = w.blocks
  slBits : w'.slBitmap = w.slBitmap
  flBits : w'.flBitmap = w.flBitmap

theorem Patch.refl (as : List Nat) (w : Words) : Patch as w w := ⟨fun _ _ => rfl, rfl, rfl, rfl⟩

theorem Patch.store {as : List Nat} {w' : Words} (h : Patch as w w') (ha : a ∈ as) (v : Nat) :
    Patch as w (w'.store a v) :=
  ⟨fun x hx => (storeWord_outside (hx a ha)).trans (h.mem x hx), h.blocks, h.slBits, h.flBits⟩

theorem Patch.mono {as as' : List Nat} {w' : Words} (h : Patch as w w') (hsub : as ⊆ as') :
    Patch as' w w' :=
  ⟨fun x hx => h.mem x fun a ha => hx a (hsub ha), h.blocks, h.slBits, h.flBits⟩

theorem Patch.trans {as : List Nat} {w₁ w' : Words} (h : Patch as w w₁) (h' : Patch as w₁ w') :
    Patch as w w' :=
  ⟨fun x hx => (h'.mem x hx).trans (h.mem x hx), h'.blocks.trans h.blocks, h'.slBits.trans h.slBits,
    h'.flBits.trans h.flBits⟩

theorem Patch.load {as : List Nat} {w' : Words} (h : Patch as w w') (has : ∀ a ∈ as, 8 ∣ a)
    (hx : 8 ∣ x) (hne : x ∉ as) :
    loadWord w'.mem x = loadWord w.mem x := by
  refine loadWord_congr fun y hle hlt => h.mem y fun a ha => ?_
  have h8 := has a ha
  have hxa : x ≠ a := fun heq => hne (heq ▸ ha)
  unfold wordSize at hlt
  omega

/-- The words of a block that is split in two, and of the block behind it. -/
structure SplitInto (w : Words) (block s : Nat) (b n r : Header) : Prop where
  first : w.Has block { b with size := s }
  second : w.Has (block + s + 8) r
  next : w.Has (block + b.size + 8) { n with prevFree := true }
  phys : w.prevPhysBlock (block + b.size + 8) = block + s + 8

theorem Words.blockSplit_eq (hb : w.Has block b) (hn : w.Has (block + b.size + 8) n)
    (h8 : 8 ∣ block) (h8s : 8 ∣ s) (hmin : 24 ≤ s) (hfit : s + 32 ≤ b.size)
    (hspace : block + 16 + b.size + 8 < addressSpace) :
    ∃ w' prevFree, w.blockSplit block s = some (w', block + s + 8) ∧
      Patch [block + s + 8 + 8, block + 8, block + b.size + 8, block + b.size + 8 + 8] w w' ∧
      SplitInto w' block s b n ⟨0, b.size - (s + 8), true, prevFree⟩ := by
  have h8b := hb.dvd
  have hlt := hb.lt
  have h8r : 8 ∣ b.size - (s + 8) := by omega
  obtain ⟨free, prevFree, hany⟩ := Words.blockSetSize_any h8r w (block + s + 8)
  generalize hw₁ : w.blockSetSize (block + s + 8) (b.size - (s + 8)) = w₁ at hany
  have hr₁ : w₁.Has (block + s + 8) ⟨0, b.size - (s + 8), free, prevFree⟩ := by
    rw [hany]
    exact Words.has_store h8r (by dsimp only; omega)
  have hb₁ : w₁.Has block b := by
    rw [hany]
    exact hb.store h8 (by omega) (by omega)
  have hn₁ : w₁.Has (block + b.size + 8) n := by
    rw [hany]
    exact hn.store (by omega) (by omega) (by omega)
  have hset := hb₁.blockSetSize h8s
  generalize hw₂ : w₁.blockSetSize block s = w₂ at hset
  have hr₂ : w₂.Has (block + s + 8) ⟨0, b.size - (s + 8), free, prevFree⟩ := by
    rw [hset]
    exact hr₁.store (by omega) (by omega) (by omega)
  have hb₂ : w₂.Has block { b with size := s } := by
    rw [hset]
    exact Words.has_store h8s (by dsimp only; omega)
  have hn₂ : w₂.Has (block + b.size + 8) n := by
    rw [hset]
    exact hn₁.store (by omega) (by omega) (by omega)
  have hend : block + s + 8 + (b.size - (s + 8)) + 8 = block + b.size + 8 := by omega
  have hlink := hr₂.blockLinkNext (show b.size - (s + 8) ≠ 0 by omega)
  dsimp only at hlink
  rw [hend] at hlink
  have hr₃ :
      (w₂.store (block + b.size + 8) (block + s + 8)).Has (block + s + 8)
        ⟨0, b.size - (s + 8), free, prevFree⟩ :=
    hr₂.store (by omega) (by omega) (by omega)
  have hb₃ : (w₂.store (block + b.size + 8) (block + s + 8)).Has block { b with size := s } :=
    hb₂.store h8 (by omega) (by omega)
  have hn₃ : (w₂.store (block + b.size + 8) (block + s + 8)).Has (block + b.size + 8) n :=
    hn₂.store (by omega) (by omega) (by omega)
  have hphys₃ :
      (w₂.store (block + b.size + 8) (block + s + 8)).prevPhysBlock (block + b.size + 8) =
        block + s + 8 :=
    loadWord_storeWord _ _ (by omega)
  have hpatch₃ : Patch [block + s + 8 + 8, block + 8, block + b.size + 8, block + b.size + 8 + 8] w
      (w₂.store (block + b.size + 8) (block + s + 8)) := by
    refine Patch.store ?_ (by simp) _
    rw [hset, hany]
    exact ((Patch.refl _ w).store (by simp) _).store (by simp) _
  generalize w₂.store (block + b.size + 8) (block + s + 8) = w₃ at hlink hr₃ hb₃ hn₃ hphys₃ hpatch₃
  have hflag := hn₃.blockSetPrevFree
  have hr₄ :
      (w₃.store (block + b.size + 8 + 8) { n with prevFree := true }.word).Has (block + s + 8)
      ⟨0, b.size - (s + 8), free, prevFree⟩ := hr₃.store (by omega) (by omega) (by omega)
  have hb₄ :
      (w₃.store (block + b.size + 8 + 8) { n with prevFree := true }.word).Has block
        { b with size := s } :=
    hb₃.store h8 (by omega) (by omega)
  have hn₄ :
      (w₃.store (block + b.size + 8 + 8) { n with prevFree := true }.word).Has (block + b.size + 8)
        { n with prevFree := true } :=
    Words.has_store hn.dvd hn.lt
  have hphys₄ :
      (w₃.store (block + b.size + 8 + 8) { n with prevFree := true }.word).prevPhysBlock
        (block + b.size + 8) = block + s + 8 :=
    (loadWord_storeWord_ne (by omega) (by omega) (by omega)).trans hphys₃
  have hpatch₄ :=
    hpatch₃.store (a := block + b.size + 8 + 8) (by simp) { n with prevFree := true }.word
  generalize w₃.store (block + b.size + 8 + 8) { n with prevFree := true }.word = w₄
    at hflag hr₄ hb₄ hn₄ hphys₄ hpatch₄
  have hfree := hr₄.blockSetFree
  refine ⟨w₄.store (block + s + 8 + 8) (Header.mk 0 (b.size - (s + 8)) true prevFree).word,
    prevFree, ?_,
    hpatch₄.store (by simp) _, ?_, ?_, ?_, ?_⟩
  · have hR : blockToPtr block + s - blockHeaderOverhead = block + s + 8 := by
      unfold blockToPtr blockStartOffset blockHeaderOverhead
      omega
    have halign : blockToPtr (block + s + 8) = alignPtr (blockToPtr (block + s + 8)) alignSize := by
      unfold blockToPtr blockStartOffset
      exact (alignPtr_of_dvd (by omega) (by omega)).symm
    have hsize : b.size = b.size - (s + blockHeaderOverhead) + s + blockHeaderOverhead := by
      unfold blockHeaderOverhead
      omega
    have hmin' : blockSizeMin ≤ b.size - (s + 8) := by
      unfold blockSizeMin
      omega
    rw [Words.blockSplit]
    simp only [hR, hb.blockSize, Option.bind_eq_bind]
    rw [guard, if_pos halign, guard, if_pos hsize]
    simp only [Option.pure_def, Option.bind_some]
    rw [show b.size - (s + blockHeaderOverhead) = b.size - (s + 8) from rfl, hw₁, hr₁.blockSize,
      guard, if_pos hmin']
    simp only [Option.pure_def, Option.bind_some]
    rw [hw₂, Words.blockMarkAsFree, hlink]
    simp only [Option.bind_eq_bind, Option.bind_some, hflag, hfree]
    rfl
  · exact hb₄.store h8 (by omega) (by omega)
  · exact Words.has_store h8r (by dsimp only; omega)
  · exact hn₄.store (by omega) (by omega) (by omega)
  · exact (loadWord_storeWord_ne (by omega) (by omega) (by omega)).trans hphys₄

end Gpcl.Tlsf
