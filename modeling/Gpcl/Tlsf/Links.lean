import Gpcl.Lib.NullLists
import Gpcl.Tlsf.Words
import Gpcl.Tlsf.Serve

/-! # Blocks in memory

`Holds` says which words of a memory are those of the headers and of the free lists. A word that is
stored changes one of these at most: all of them are aligned, and no two are in one place. -/
namespace Gpcl.Tlsf
open Lib.Memory Lib.Bitmap Lib.Rings Lib.NullLists

variable {m m' : Mem} {H H' : Nat → Option Header} {pools : List Region} {w : Words} {c : Control}
    {q p s x y a v null block : Nat}
  {b n d h : Header}

/-! ## Words -/

theorem loadWord_storeWord_ne (ha : 8 ∣ a) (hx : 8 ∣ x) (hne : x ≠ a) :
    loadWord (storeWord m a v) x = loadWord m x :=
  loadWord_storeWord_apart (by unfold wordSize; omega)

def flagBits (free prevFree : Bool) : Nat := free.toNat + 2 * prevFree.toNat

/-- The size of a block with its flags. -/
def Header.word (h : Header) : Nat := h.size + flagBits h.free h.prevFree

theorem and_low (h4 : 4 ∣ s) {r mask : Nat} (hr : r < 4) (hm : mask < 4) :
    (s + r) &&& mask = r &&& mask := by
  have hlt : (s + r) &&& mask < 2 ^ 2 := Nat.lt_of_le_of_lt Nat.and_le_right hm
  rw [← Nat.mod_eq_of_lt hlt, Nat.and_mod_two_pow, show (s + r) % 2 ^ 2 = r by omega,
    Nat.mod_eq_of_lt hm]

theorem or_low (h4 : 4 ∣ s) {r mask : Nat} (hr : r < 4) (hm : mask < 4) :
    (s + r) ||| mask = s + (r ||| mask) := by
  obtain ⟨k, rfl⟩ := h4
  rw [show 4 * k + r = 2 ^ 2 * k ||| r from Nat.two_pow_add_eq_or_of_lt (i := 2) hr k, Nat.or_assoc,
    ← Nat.two_pow_add_eq_or_of_lt (i := 2) (Nat.or_lt_two_pow (n := 2) hr hm) k]

section Flags

variable (free prevFree : Bool)

theorem flagBits_lt : flagBits free prevFree < 4 := by decide +revert

theorem flagBits_and_three : flagBits free prevFree &&& 3 = flagBits free prevFree := by
  decide +revert

theorem flagBits_and_one : flagBits free prevFree &&& 1 = free.toNat := by decide +revert

theorem flagBits_and_two : flagBits free prevFree &&& 2 = 2 * prevFree.toNat := by decide +revert

theorem flagBits_or_one : flagBits free prevFree ||| 1 = flagBits true prevFree := by decide +revert

theorem flagBits_or_two : flagBits free prevFree ||| 2 = flagBits free true := by decide +revert

end Flags

section Word

variable (h8 : 8 ∣ h.size)
include h8

theorem word_and {mask : Nat} (hm : mask < 4) :
    h.word &&& mask = flagBits h.free h.prevFree &&& mask :=
  and_low (Nat.dvd_trans (by decide) h8) (flagBits_lt _ _) hm

theorem word_or {mask : Nat} (hm : mask < 4) :
    h.word ||| mask = h.size + (flagBits h.free h.prevFree ||| mask) :=
  or_low (Nat.dvd_trans (by decide) h8) (flagBits_lt _ _) hm

theorem clearBits_word : clearBits h.word 3 = h.size := by
  rw [clearBits, word_and h8 (by decide), flagBits_and_three, Header.word, Nat.add_sub_cancel]

theorem word_free : decide (h.word &&& 1 ≠ 0) = h.free := by
  rw [word_and h8 (by decide), flagBits_and_one]
  cases h.free <;> rfl

theorem word_prevFree : decide (h.word &&& 2 ≠ 0) = h.prevFree := by
  rw [word_and h8 (by decide), flagBits_and_two]
  cases h.prevFree <;> rfl

theorem word_setFree : h.word ||| 1 = { h with free := true }.word := by
  rw [word_or h8 (by decide), flagBits_or_one]
  rfl

theorem word_setPrevFree : h.word ||| 2 = { h with prevFree := true }.word := by
  rw [word_or h8 (by decide), flagBits_or_two]
  rfl

theorem word_setUsed : clearBits h.word 1 = { h with free := false }.word := by
  rw [clearBits, word_and h8 (by decide), flagBits_and_one]
  unfold Header.word flagBits
  dsimp only [Bool.toNat_false]
  omega

theorem word_setPrevUsed : clearBits h.word 2 = { h with prevFree := false }.word := by
  rw [clearBits, word_and h8 (by decide), flagBits_and_two]
  unfold Header.word flagBits
  dsimp only [Bool.toNat_false]
  omega

end Word

/-- A size that is put under the flags that are there, whatever is there. -/
theorem set_size_word (h8 : 8 ∣ s) (word : Nat) :
    ∃ free prevFree, s ||| (word &&& 3) = (Header.mk 0 s free prevFree).word := by
  have hlow : word &&& 3 = word % 4 := Nat.and_two_pow_sub_one_eq_mod word 2
  have hlt : word % 4 < 4 := Nat.mod_lt _ (by decide)
  have hor := or_low (s := s) (r := 0) (Nat.dvd_trans (by decide) h8) (by decide) hlt
  rw [Nat.add_zero, Nat.zero_or] at hor
  have hbits : ∀ k < 4, ∃ free prevFree, k = flagBits free prevFree := by decide
  obtain ⟨free, prevFree, heq⟩ := hbits _ hlt
  exact ⟨free, prevFree, by rw [hlow, hor, heq]; rfl⟩

theorem Laid.word_lt (hl : Laid pools H) (hb : H q = some b) : b.word < addressSpace := by
  have hmax := (hl.bounds hb).2.1
  have := flagBits_lt b.free b.prevFree
  unfold Header.word
  unfold blockSizeMax flIndexMax at hmax
  unfold addressSpace
  omega

/-! ## Places -/

/-- The control structure is beside the pools, and no pool is at the beginning of the address
space. -/
structure Placed (null : Nat) (pools : List Region) : Prop where
  pos : 0 < null
  aligned : 8 ∣ null
  space : null + sizeofControl < addressSpace
  apart : ∀ r ∈ pools, Region.Disjoint ⟨null, sizeofControl⟩ r
  low : ∀ r ∈ pools, 16 ≤ r.base

theorem Placed.low_block (hp : Placed null pools) (hl : Laid pools H) (hb : H q = some b) :
    24 ≤ q := by
  obtain ⟨r, hr, hbase, -⟩ := hl.within q b hb
  have := hp.low r hr
  omega

/-- A header and its block are not where the null block is. -/
theorem Placed.null_apart (hp : Placed null pools) (hl : Laid pools H) (hb : H q = some b) :
    null + 64 ≤ q ∨ q + b.size ≤ null := by
  obtain ⟨r, hr, hbase, hstop, -⟩ := hl.within q b hb
  have hapart := hp.apart r hr
  unfold Region.Disjoint Region.stop sizeofControl at *
  dsimp only at hapart
  omega

/-- Behind a block that is not the last one there is room for its links. -/
theorem Laid.far (hl : Laid pools H) (hb : H q = some b) (hd : H x = some d) :
    x ≤ q ∨ q + b.size + 8 ≤ x := by
  by_cases hxq : x = q
  · exact .inl (Nat.le_of_eq hxq)
  · obtain hlt | hlt := hl.apart_of_ne hb hd hxq
    · exact .inl (by omega)
    · exact .inr hlt

theorem Laid.far_min (hl : Laid pools H) (hb : H q = some b) (hne : b.size ≠ 0)
    (hd : H x = some d) : x ≤ q ∨ q + 32 ≤ x := by
  have hmin := (hl.next q b hb hne).1
  have := hl.far hb hd
  omega

/-- The same for every block before one with a link. -/
theorem Laid.link_far (hl : Laid pools H) (hd : H x = some d) (hprev : d.prevFree = true)
    (hb : H q = some b) :
    x ≤ q ∨ q + 32 ≤ x := by
  obtain ⟨e, he, hfree, hend⟩ := hl.prev x d hd hprev
  have he0 := hl.size_of_free he hfree
  have hmin := (hl.next _ e he he0).1
  by_cases hpq : d.prevPhys = q
  · omega
  · obtain hlt | hlt := hl.apart_of_ne hb he hpq
    · omega
    · omega

/-! ## A memory that holds the blocks -/

def Words.freeLinks (w : Words) : Links Nat := ⟨w.nextFree, w.prevFree⟩

structure Holds (null : Nat) (w : Words) (c : Control) : Prop where
  sizes : ∀ block h, c.headers (block + 16) = some h → w.sizeField block = h.word
  links : ∀ block h, c.headers (block + 16) = some h → h.prevFree = true →
    w.prevPhysBlock block + 16 = h.prevPhys
  lists : ∀ fl sl, ∃ l, Linked w.freeLinks null null (w.blocks fl sl) l ∧
    c.blocks fl sl = l.map blockToPtr
  slBits : w.slBitmap = c.slBitmap
  flBits : w.flBitmap = c.flBitmap

/-- A byte of a block in use. -/
def UsedByte (H : Nat → Option Header) (x : Nat) : Prop :=
  ∃ q b, H q = some b ∧ b.free = false ∧ q ≤ x ∧ x < q + b.size

/-- What a client has before and after is as it was. -/
def Kept (H H' : Nat → Option Header) (m m' : Mem) : Prop :=
  ∀ x, UsedByte H x → UsedByte H' x → m' x = m x

section Reads

variable (hh : Holds null w c) (hl : Laid pools c.headers) (hb : c.headers (block + 16) = some b)
include hh hl hb

theorem Holds.blockSize : w.blockSize block = b.size := by
  rw [Words.blockSize, hh.sizes block b hb]
  exact clearBits_word (hl.aligned _ b hb).2

theorem Holds.blockIsFree : w.blockIsFree block = b.free := by
  rw [Words.blockIsFree, hh.sizes block b hb]
  exact word_free (hl.aligned _ b hb).2

theorem Holds.blockIsPrevFree : w.blockIsPrevFree block = b.prevFree := by
  rw [Words.blockIsPrevFree, hh.sizes block b hb]
  exact word_prevFree (hl.aligned _ b hb).2

theorem Holds.blockIsLast : w.blockIsLast block = decide (b.size = 0) := by
  rw [Words.blockIsLast, hh.blockSize hl hb]

theorem Holds.blockNext (hne : b.size ≠ 0) : w.blockNext block = some (block + b.size + 8) := by
  have hlast : w.blockIsLast block = false := by rw [hh.blockIsLast hl hb, decide_eq_false hne]
  rw [Words.blockNext, guard, if_pos hlast, hh.blockSize hl hb]
  unfold blockToPtr blockStartOffset blockHeaderOverhead
  exact congrArg some (by omega)

end Reads

/-- The same lists, with other headers. -/
theorem Holds.withHeaders (hh : Holds null w c)
    (hsizes : ∀ block h, H' (block + 16) = some h → loadWord m' (block + 8) = h.word)
    (hlinks : ∀ block h, H' (block + 16) = some h → h.prevFree = true →
      loadWord m' block + 16 = h.prevPhys)
    (hlists : ∀ fl sl, ∀ q ∈ c.blocks fl sl, loadWord m' q = loadWord w.mem q ∧
      loadWord m' (q + 8) = loadWord w.mem (q + 8)) :
    Holds null { w with mem := m' } { c with headers := H' } := by
  refine ⟨hsizes, hlinks, fun fl sl => ?_, hh.slBits, hh.flBits⟩
  obtain ⟨l, hlinked, hmap⟩ := hh.lists fl sl
  refine ⟨l, hlinked.congr fun block hblock => ?_, hmap⟩
  have hmem : blockToPtr block ∈ c.blocks fl sl := by
    rw [hmap]
    exact List.mem_map_of_mem hblock
  exact hlists fl sl _ hmem

/-! ## The links of free blocks -/

/-- What has links: the null block, and every free block. -/
def Node (null : Nat) (H : Nat → Option Header) (block : Nat) : Prop :=
  block = null ∨ ∃ b, H (block + 16) = some b ∧ b.free = true

section Nodes

variable {A B : Nat} (hl : Laid pools H) (hp : Placed null pools) (hA : Node null H A)
include hl hp hA

theorem node_aligned : 8 ∣ A := by
  obtain rfl | ⟨b, hb, -⟩ := hA
  · exact hp.aligned
  · have := (hl.aligned _ b hb).1
    omega

theorem node_apart (hB : Node null H B) (hne : A ≠ B) : A + 32 ≤ B ∨ B + 32 ≤ A := by
  obtain rfl | ⟨a, ha, hafree⟩ := hA
  · obtain rfl | ⟨b, hb, hbfree⟩ := hB
    · exact absurd rfl hne
    · have hmin := (hl.next _ b hb (hl.size_of_free hb hbfree)).1
      have := hp.null_apart hl hb
      omega
  · obtain rfl | ⟨b, hb, hbfree⟩ := hB
    · have hmin := (hl.next _ a ha (hl.size_of_free ha hafree)).1
      have := hp.null_apart hl ha
      omega
    · have := hl.far_min ha (hl.size_of_free ha hafree) hb
      have := hl.far_min hb (hl.size_of_free hb hbfree) ha
      omega

/-- The links are not where a size is. -/
theorem node_size_word (hd : H (x + 16) = some d) : x + 8 ≠ A + 16 ∧ x + 8 ≠ A + 24 := by
  obtain rfl | ⟨a, ha, hafree⟩ := hA
  · have := hp.null_apart hl hd
    omega
  · have := hl.far_min ha (hl.size_of_free ha hafree) hd
    omega

/-- Nor where a link to the block before is. -/
theorem node_link_word (hd : H (x + 16) = some d) (hprev : d.prevFree = true) :
    x ≠ A + 16 ∧ x ≠ A + 24 := by
  obtain rfl | ⟨a, ha, hafree⟩ := hA
  · have := hp.null_apart hl hd
    omega
  · have := hl.link_far hd hprev ha
    omega

/-- Nor what a client has. -/
theorem node_kept (hx : UsedByte H x) : x < A + 16 ∨ A + 32 ≤ x := by
  obtain ⟨q, b, hb, hused, hle, hlt⟩ := hx
  obtain rfl | ⟨a, ha, hafree⟩ := hA
  · have := hp.null_apart hl hb
    omega
  · have hmin := (hl.next _ a ha (hl.size_of_free ha hafree)).1
    have hne : A + 16 ≠ q := by
      rintro rfl
      rw [hb] at ha
      cases ha
      rw [hused] at hafree
      cases hafree
    have := hl.apart_of_ne ha hb hne.symm
    omega

end Nodes

/-- The same sizes, links back and client bytes; only the links of free blocks differ. -/
structure Relinked (H : Nat → Option Header) (w w' : Words) : Prop where
  size : ∀ block h, H (block + 16) = some h → w'.sizeField block = w.sizeField block
  phys : ∀ block h, H (block + 16) = some h → h.prevFree = true →
    w'.prevPhysBlock block = w.prevPhysBlock block
  kept : ∀ x, UsedByte H x → w'.mem x = w.mem x

theorem Relinked.trans {w₁ w₂ w₃ : Words} (h : Relinked H w₁ w₂) (h' : Relinked H w₂ w₃) :
    Relinked H w₁ w₃ :=
  ⟨fun block d hd => (h'.size block d hd).trans (h.size block d hd),
    fun block d hd hprev => (h'.phys block d hd hprev).trans (h.phys block d hd hprev),
    fun x hx => (h'.kept x hx).trans (h.kept x hx)⟩

theorem Relinked.mono {w' : Words} (h : Relinked H w w')
    (hsub : ∀ x d, H' x = some d → H x = some d) : Relinked H' w w' :=
  ⟨fun block d hd => h.size block d (hsub _ d hd), fun block d hd => h.phys block d (hsub _ d hd),
    fun x ⟨q, b, hb, hx⟩ => h.kept x ⟨q, b, hsub q b hb, hx⟩⟩

section Stores

variable {A : Nat} (hl : Laid pools H) (hp : Placed null pools) (hA : Node null H A)
include hl hp hA

theorem relinked_store {k : Nat} (hk : k = 16 ∨ k = 24) : Relinked H w (w.store (A + k) v) := by
  have h8 := node_aligned hl hp hA
  constructor
  · intro block d hd
    have h8d := (hl.aligned _ d hd).1
    have := node_size_word hl hp hA hd
    exact loadWord_storeWord_ne (by omega) (by omega) (by omega)
  · intro block d hd hprev
    have h8d := (hl.aligned _ d hd).1
    have := node_link_word hl hp hA hd hprev
    exact loadWord_storeWord_ne (by omega) (by omega) (by omega)
  · intro x hx
    have := node_kept hl hp hA hx
    exact storeWord_outside (by unfold wordSize; omega)

theorem nextFree_setNextFree {B : Nat} (hB : Node null H B) (hv : v < addressSpace) :
    (w.setNextFree A v).nextFree B = if B = A then v else w.nextFree B := by
  have h8 := node_aligned hl hp hA
  have h8B := node_aligned hl hp hB
  by_cases hBA : B = A
  · rw [if_pos hBA, hBA]
    exact loadWord_storeWord _ _ hv
  · rw [if_neg hBA]
    exact loadWord_storeWord_ne (by omega) (by omega) (by omega)

theorem prevFree_setNextFree {B : Nat} (hB : Node null H B) :
    (w.setNextFree A v).prevFree B = w.prevFree B := by
  have h8 := node_aligned hl hp hA
  have h8B := node_aligned hl hp hB
  have : A = B ∨ A + 32 ≤ B ∨ B + 32 ≤ A := or_iff_not_imp_left.mpr (node_apart hl hp hA hB)
  exact loadWord_storeWord_ne (by omega) (by omega) (by omega)

theorem prevFree_setPrevFree {B : Nat} (hB : Node null H B) (hv : v < addressSpace) :
    (w.setPrevFree A v).prevFree B = if B = A then v else w.prevFree B := by
  have h8 := node_aligned hl hp hA
  have h8B := node_aligned hl hp hB
  by_cases hBA : B = A
  · rw [if_pos hBA, hBA]
    exact loadWord_storeWord _ _ hv
  · rw [if_neg hBA]
    exact loadWord_storeWord_ne (by omega) (by omega) (by omega)

theorem nextFree_setPrevFree {B : Nat} (hB : Node null H B) :
    (w.setPrevFree A v).nextFree B = w.nextFree B := by
  have h8 := node_aligned hl hp hA
  have h8B := node_aligned hl hp hB
  have : A = B ∨ A + 32 ≤ B ∨ B + 32 ≤ A := or_iff_not_imp_left.mpr (node_apart hl hp hA hB)
  exact loadWord_storeWord_ne (by omega) (by omega) (by omega)

end Stores

/-! ## Free lists -/

theorem node_lt (hl : Laid pools H) (hp : Placed null pools) {A : Nat} (hA : Node null H A) :
    0 < A ∧ A < addressSpace := by
  obtain rfl | ⟨a, ha, hafree⟩ := hA
  · have := hp.space
    exact ⟨hp.pos, by omega⟩
  · have := hp.low_block hl ha
    have := (hl.bounds ha).2.2 (hl.size_of_free ha hafree)
    omega

theorem not_null (hl : Laid pools H) (hp : Placed null pools) (hb : H (block + 16) = some b) :
    block ≠ null := by
  have := hp.null_apart hl hb
  omega

variable {hand : List Nat} {fl sl : Nat} {l : List Nat}

theorem Indexed.free_of_mem (hi : Indexed c hand) (hq : q ∈ c.blocks fl sl) :
    ∃ b, c.headers q = some b ∧ b.free = true ∧ mappingInsert b.size = (fl, sl) ∧ q ∉ hand := by
  obtain ⟨size, hlisted, hmap⟩ := (hi.listed fl sl q).mp hq
  unfold listedSize at hlisted
  split at hlisted
  · cases hlisted
  · rename_i hhand
    obtain ⟨b, hb, hsize⟩ := Option.bind_eq_some_iff.mp hlisted
    split at hsize
    · rename_i hfree
      cases hsize
      exact ⟨b, hb, hfree, hmap, hhand⟩
    · cases hsize

theorem Indexed.same_list {fl' sl' : Nat} (hi : Indexed c hand) (hq : q ∈ c.blocks fl sl)
    (hq' : q ∈ c.blocks fl' sl') :
    fl' = fl ∧ sl' = sl := by
  obtain ⟨b, hb, -, hmap, -⟩ := hi.free_of_mem hq
  obtain ⟨b', hb', -, hmap', -⟩ := hi.free_of_mem hq'
  rw [hb] at hb'
  cases hb'
  rw [hmap] at hmap'
  cases hmap'
  exact ⟨rfl, rfl⟩

/-- The pointers of a list. -/
theorem mem_pointers (hmap : c.blocks fl sl = l.map blockToPtr) :
    block ∈ l ↔ block + 16 ∈ c.blocks fl sl := by
  rw [hmap]
  constructor
  · exact fun hmem => List.mem_map_of_mem (f := blockToPtr) hmem
  · intro hmem
    obtain ⟨block', hblock', heq⟩ := List.mem_map.mp hmem
    unfold blockToPtr blockStartOffset at heq
    rwa [show block = block' by omega]

theorem Indexed.node_of_mem (hi : Indexed c hand) (hmap : c.blocks fl sl = l.map blockToPtr)
    (hmem : block ∈ l) :
    Node null c.headers block := by
  obtain ⟨b, hb, hfree, -⟩ := hi.free_of_mem ((mem_pointers hmap).mp hmem)
  exact .inr ⟨b, hb, hfree⟩

theorem head_node {L : Links Nat} {head prev : Nat} (hlinked : Linked L null prev head l)
    (hi : Indexed c hand)
    (hmap : c.blocks fl sl = l.map blockToPtr) : Node null c.headers head := by
  by_cases hnull : head = null
  · exact .inl hnull
  · exact hi.node_of_mem hmap (hlinked.head_mem hnull)

/-- Another list than the one that was changed. -/
theorem Holds.other_list (hi : Indexed c hand) {u : Words} {fl' sl' head : Nat} {l' : List Nat}
    (hother : ¬ (fl' = fl ∧ sl' = sl)) (hmap : c.blocks fl sl = l.map blockToPtr)
    (hmap' : c.blocks fl' sl' = l'.map blockToPtr) (hlinked : Linked w.freeLinks null null head l')
    (hnext : ∀ B, Node null c.headers B → B ≠ null → B ∉ l → B + 16 ∉ hand →
      u.nextFree B = w.nextFree B ∧ u.prevFree B = w.prevFree B) :
    Linked u.freeLinks null null head l' := by
  refine hlinked.congr fun B hB => hnext B (hi.node_of_mem hmap' hB) ?_ ?_ ?_
  · rintro rfl
    exact hlinked.null_notMem hB
  · intro hBl
    exact hother (hi.same_list ((mem_pointers hmap).mp hBl) ((mem_pointers hmap').mp hB))
  · exact (hi.free_of_mem ((mem_pointers hmap').mp hB)).choose_spec.2.2.2

theorem Words.setHead_blocks (w : Words) (fl sl head fl' sl' : Nat) :
    (w.setHead fl sl head).blocks fl' sl' = if fl' = fl ∧ sl' = sl then head
    else w.blocks fl' sl' := by
  by_cases hfl : fl' = fl
  · subst hfl
    by_cases hsl : sl' = sl
    · simp [setHead, hsl]
    · simp [setHead, hsl]
  · simp [setHead, hfl]

@[simp] theorem Words.setHead_slBitmap (w : Words) (fl sl head : Nat) :
    (w.setHead fl sl head).slBitmap = w.slBitmap := rfl

@[simp] theorem Words.setHead_flBitmap (w : Words) (fl sl head : Nat) :
    (w.setHead fl sl head).flBitmap = w.flBitmap := rfl

theorem Words.setHead_self {head : Nat} (h : w.blocks fl sl = head) : w.setHead fl sl head = w := by
  rw [setHead, ← h, Function.update_eq_self, Function.update_eq_self]

/-- The headers may be some of those of a memory that is laid out. -/
theorem Holds.insertFreeBlock (hh : Holds null w c) (hl : Laid pools H)
    (hsub : ∀ x d, c.headers x = some d → H x = some d) (hi : Indexed c ((block + 16) :: hand))
    (hp : Placed null pools) (hb : c.headers (block + 16) = some b) (hfree : b.free = true)
    {c' : Control} (hrun : c.insertFreeBlock (block + 16) fl sl = some c') :
    ∃ w', w.insertFreeBlock null block fl sl = some w' ∧ Holds null w' c' ∧
    Relinked c.headers w w' := by
  simp only [Control.insertFreeBlock, Option.bind_eq_bind, Option.bind_eq_some_iff, guard,
    Option.pure_def] at hrun
  obtain ⟨_, hfl, _, halign, hc⟩ := hrun
  have hfl : fl < flIndexCount := by
    split at hfl
    · assumption
    · cases hfl
  have halign : block + 16 = alignPtr (block + 16) alignSize := by
    split at halign
    · assumption
    · cases halign
  cases hc
  obtain ⟨l, hlinked, hmap⟩ := hh.lists fl sl
  have hmono : ∀ B, Node null c.headers B → Node null H B := by
    rintro B (rfl | ⟨d, hd, hdfree⟩)
    · exact .inl rfl
    · exact .inr ⟨d, hsub _ d hd, hdfree⟩
  have hA : Node null H block := .inr ⟨b, hsub _ b hb, hfree⟩
  have hnull : Node null H null := .inl rfl
  have hcur := hmono _ (head_node hlinked hi hmap)
  generalize hcurrent : w.blocks fl sl = current at hlinked hcur
  have hA0 := node_lt hl hp hA
  have hc0 := node_lt hl hp hcur
  have hbn := not_null hl hp (hsub _ b hb)
  have hbl : block ∉ l := by
    intro hmem
    exact (hi.free_of_mem ((mem_pointers hmap).mp hmem)).choose_spec.2.2.2 List.mem_cons_self
  have hcb : current ≠ block := by
    intro heq
    by_cases hcn : current = null
    · exact hbn (heq.symm.trans hcn)
    · exact hbl (heq ▸ hlinked.head_mem hcn)
  let w₃ := ((w.setNextFree block current).setPrevFree block null).setPrevFree current block
  have hnext : ∀ B, Node null H B → w₃.nextFree B = if B = block then current
      else w.nextFree B := by
    intro B hB
    rw [nextFree_setPrevFree hl hp hcur hB, nextFree_setPrevFree hl hp hA hB,
      nextFree_setNextFree hl hp hA hB hc0.2]
  have hprev : ∀ B, Node null H B → w₃.prevFree B = if B = current then block else if B = block
      then null else w.prevFree B := by
    intro B hB
    rw [prevFree_setPrevFree hl hp hcur hB hA0.2,
      prevFree_setPrevFree hl hp hA hB (node_lt hl hp hnull).2, prevFree_setNextFree hl hp hA hB]
  have hrelinked : Relinked c.headers w w₃ :=
    (((relinked_store hl hp hA (.inl rfl)).trans (relinked_store hl hp hA (.inr rfl))).trans
      (relinked_store hl hp hcur (.inr rfl))).mono hsub
  refine ⟨{ w₃.setHead fl sl block with
    flBitmap := w₃.flBitmap ||| single 32 fl
    slBitmap := Function.update w₃.slBitmap fl (w₃.slBitmap fl ||| single 32 sl) }, ?_, ?_, ?_⟩
  · have halign' : blockToPtr block = alignPtr (blockToPtr block) alignSize := halign
    simp only [Words.insertFreeBlock, hcurrent, Option.bind_eq_bind, Option.pure_def]
    rw [guard, if_pos hfl, guard, if_pos (Nat.ne_of_gt hc0.1), guard, if_pos (Nat.ne_of_gt hA0.1),
      guard, if_pos halign']
    rfl
  · constructor
    case sizes => exact fun B h hB => (hrelinked.size B h hB).trans (hh.sizes B h hB)
    case links =>
      exact fun B h hB hflag =>
        (congrArg (· + 16) (hrelinked.phys B h hB hflag)).trans (hh.links B h hB hflag)
    case lists =>
      intro fl' sl'
      by_cases hplace : fl' = fl ∧ sl' = sl
      · obtain ⟨rfl, rfl⟩ := hplace
        refine ⟨block :: l, ?_, ?_⟩
        · have hhead : ({ w₃.setHead fl' sl' block with
              flBitmap := w₃.flBitmap ||| single 32 fl'
              slBitmap := Function.update w₃.slBitmap fl' (w₃.slBitmap fl' ||| single 32 sl') } :
                Words).blocks fl' sl' = block := by
            show (w₃.setHead fl' sl' block).blocks fl' sl' = _
            rw [Words.setHead_blocks, if_pos ⟨rfl, rfl⟩]
          rw [hhead]
          refine hlinked.push hbn ?_ ?_ ?_ ?_ ?_ ?_
          · have hnodup := hi.nodup fl' sl'
            rw [hmap] at hnodup
            exact hnodup.of_map _
          · exact (hnext block hA).trans (if_pos rfl)
          · exact (hprev block hA).trans (by rw [if_neg hcb.symm, if_pos rfl])
          · exact fun _ => (hprev current hcur).trans (if_pos rfl)
          · intro B hB
            refine (hnext B (hmono B (hi.node_of_mem hmap hB))).trans (if_neg ?_)
            rintro rfl
            exact hbl hB
          · intro B hB hne
            refine (hprev B (hmono B (hi.node_of_mem hmap hB))).trans ?_
            rw [if_neg hne, if_neg]
            · rfl
            · rintro rfl
              exact hbl hB
        · show (c.setList fl' sl' _).blocks fl' sl' = _
          rw [Control.setList_blocks, if_pos ⟨rfl, rfl⟩, hmap]
          rfl
      · obtain ⟨l', hlinked', hmap'⟩ := hh.lists fl' sl'
        refine ⟨l', ?_, ?_⟩
        · have hhead : ({ w₃.setHead fl sl block with
              flBitmap := w₃.flBitmap ||| single 32 fl
              slBitmap := Function.update w₃.slBitmap fl (w₃.slBitmap fl ||| single 32 sl) } :
                Words).blocks fl' sl' = w.blocks fl' sl' := by
            show (w₃.setHead fl sl block).blocks fl' sl' = _
            rw [Words.setHead_blocks, if_neg hplace]
            rfl
          rw [hhead]
          refine Holds.other_list (u := w₃) hi hplace hmap hmap' hlinked' fun B hB hBn hBl hBh => ?_
          have hBb : B ≠ block := fun heq => hBh (heq ▸ List.mem_cons_self)
          have hBc : B ≠ current := by
            rintro rfl
            exact hBl (hlinked.head_mem hBn)
          rw [hnext B (hmono B hB), hprev B (hmono B hB), if_neg hBb, if_neg hBc, if_neg hBb]
          exact ⟨rfl, rfl⟩
        · show (c.setList fl sl _).blocks fl' sl' = _
          rw [Control.setList_blocks, if_neg hplace, hmap']
    case slBits =>
      show Function.update w.slBitmap fl (w.slBitmap fl ||| single 32 sl) = _
      rw [hh.slBits]
      rfl
    case flBits =>
      show w.flBitmap ||| single 32 fl = _
      rw [hh.flBits]
      rfl
  · exact ⟨hrelinked.size, hrelinked.phys, hrelinked.kept⟩

theorem map_erase_pointers (hmap : c.blocks fl sl = l.map blockToPtr) :
    (c.blocks fl sl).erase (block + 16) = (l.erase block).map blockToPtr := by
  have hinj : Function.Injective blockToPtr := fun x y heq => by
    unfold blockToPtr blockStartOffset at heq
    omega
  rw [hmap, List.map_erase hinj]
  rfl

theorem Holds.removeFreeBlock (hh : Holds null w c) (hl : Laid pools c.headers)
    (hi : Indexed c hand) (hp : Placed null pools) (hq : block + 16 ∈ c.blocks fl sl) {c' : Control}
    (hrun : c.removeFreeBlock (block + 16) fl sl = some c') :
    ∃ w', w.removeFreeBlock null block fl sl = some w' ∧ Holds null w' c' ∧
    Relinked c.headers w w' := by
  obtain ⟨l, hlinked, hmap⟩ := hh.lists fl sl
  have hbl : block ∈ l := (mem_pointers hmap).mpr hq
  have hnodup : l.Nodup := by
    have hnodup := hi.nodup fl sl
    rw [hmap] at hnodup
    exact hnodup.of_map _
  have hnode : ∀ B, B = null ∨ B ∈ l → Node null c.headers B := by
    rintro B (rfl | hB)
    · exact .inl rfl
    · exact hi.node_of_mem hmap hB
  have hnextmem := hlinked.next_mem hbl
  have hprevmem := hlinked.prev_mem hbl
  generalize hnx : w.freeLinks.next block = next at hnextmem
  generalize hpv : w.freeLinks.prev block = prev at hprevmem
  have hN := hnode next hnextmem
  have hP := hnode prev hprevmem
  have hN0 := node_lt hl hp hN
  have hP0 := node_lt hl hp hP
  let w₂ := (w.setPrevFree next prev).setNextFree prev next
  have hnext : ∀ B, Node null c.headers B → w₂.nextFree B = if B = prev then next
      else w.nextFree B := by
    intro B hB
    rw [nextFree_setNextFree hl hp hP hB hN0.2, nextFree_setPrevFree hl hp hN hB]
  have hprev : ∀ B, Node null c.headers B → w₂.prevFree B = if B = next then prev
      else w.prevFree B := by
    intro B hB
    rw [prevFree_setNextFree hl hp hP hB, prevFree_setPrevFree hl hp hN hB hP0.2]
  have hrelinked : Relinked c.headers w w₂ :=
    (relinked_store hl hp hN (.inr rfl)).trans (relinked_store hl hp hP (.inl rfl))
  -- the list without the block
  have herased :
      Linked w₂.freeLinks null null (if w.blocks fl sl = block then next else w.blocks fl sl)
        (l.erase block) := by
    rw [← hnx]
    refine hlinked.erase (List.nodup_cons.mpr ⟨hlinked.null_notMem, hnodup⟩) hbl (fun B hB _ => ?_)
      fun B hB _ => ?_
    · rw [hnx, hpv]
      exact hnext B (hi.node_of_mem hmap hB)
    · rw [hnx, hpv]
      exact hprev B (hi.node_of_mem hmap hB)
  have hother : ∀ fl' sl' l', ¬ (fl' = fl ∧ sl' = sl) → c.blocks fl' sl' = l'.map blockToPtr →
      Linked w.freeLinks null null (w.blocks fl' sl') l' →
        Linked w₂.freeLinks null null (w.blocks fl' sl') l' := by
    intro fl' sl' l' hplace hmap' hlinked'
    refine Holds.other_list (u := w₂) hi hplace hmap hmap' hlinked' fun B hB hBn hBl _ => ?_
    have hBnext : B ≠ next := by
      rintro rfl
      exact hnextmem.elim hBn hBl
    have hBprev : B ≠ prev := by
      rintro rfl
      exact hprevmem.elim hBn hBl
    rw [hnext B hB, hprev B hB, if_neg hBnext, if_neg hBprev]
    exact ⟨rfl, rfl⟩
  have hempty : (c.blocks fl sl).erase (block + 16) = [] ↔ w.blocks fl sl = block ∧
      next = null := by
    rw [map_erase_pointers hmap, List.map_eq_nil_iff, ← herased.nil_iff]
    split
    · rename_i hhead
      exact (and_iff_right hhead).symm
    · rename_i hhead
      refine iff_of_false (fun hnil => ?_) fun h => hhead h.1
      rw [hlinked.nil_iff] at hnil
      rw [hnil] at hbl
      cases hbl
  have hlist :
      (c.setList fl sl ((c.blocks fl sl).erase (block + 16))).blocks fl sl =
        (c.blocks fl sl).erase (block + 16) := by
    rw [Control.setList_blocks, if_pos ⟨rfl, rfl⟩]
  have hholds :
      Holds null (w₂.setHead fl sl (if w.blocks fl sl = block then next else w.blocks fl sl))
      (c.setList fl sl ((c.blocks fl sl).erase (block + 16))) := by
    refine ⟨fun B h hB => (hrelinked.size B h hB).trans (hh.sizes B h hB),
      fun B h hB hflag =>
        (congrArg (· + 16) (hrelinked.phys B h hB hflag)).trans (hh.links B h hB hflag), ?_,
        hh.slBits, hh.flBits⟩
    intro fl' sl'
    by_cases hplace : fl' = fl ∧ sl' = sl
    · obtain ⟨rfl, rfl⟩ := hplace
      refine ⟨l.erase block, ?_, hlist.trans (map_erase_pointers hmap)⟩
      have hhead :
          (w₂.setHead fl' sl' (if w.blocks fl' sl' = block then next else w.blocks fl' sl')).blocks
            fl' sl' =
          if w.blocks fl' sl' = block then next else w.blocks fl' sl' := by
        rw [Words.setHead_blocks, if_pos ⟨rfl, rfl⟩]
      rw [hhead]
      exact herased
    · obtain ⟨l', hlinked', hmap'⟩ := hh.lists fl' sl'
      refine ⟨l', ?_, ?_⟩
      · rw [Words.setHead_blocks, if_neg hplace]
        exact hother fl' sl' l' hplace hmap' hlinked'
      · rw [Control.setList_blocks, if_neg hplace, hmap']
  have hnull : w.nextFree block = next := hnx
  have hprev0 : w.prevFree block = prev := hpv
  rw [Control.removeFreeBlock, guard, if_pos hq] at hrun
  rw [Words.removeFreeBlock, hnull, hprev0]
  simp only [guard, Nat.ne_of_gt hN0.1, Nat.ne_of_gt hP0.1, ne_eq, not_false_eq_true, if_true,
    Option.pure_def, Option.bind_eq_bind, Option.bind_some, hlist] at hrun ⊢
  have hhead₂ :
      ((w.setPrevFree next prev).setNextFree prev next).blocks fl sl = w.blocks fl sl := rfl
  rw [hhead₂]
  by_cases hnone : (c.blocks fl sl).erase (block + 16) = []
  · obtain ⟨hhead, hlast⟩ := hempty.mp hnone
    rw [if_pos hnone] at hrun
    rw [if_pos hhead] at hholds
    rw [if_pos hhead, if_pos hlast]
    cases hrun
    refine ⟨_, rfl, ?_, ?_⟩
    · have hsl : ((w.setPrevFree next prev).setNextFree prev next).slBitmap = c.slBitmap :=
        hh.slBits
      have hfl : ((w.setPrevFree next prev).setNextFree prev next).flBitmap = c.flBitmap :=
        hh.flBits
      simp only [Control.setList_slBitmap, Control.setList_flBitmap, Words.setHead_slBitmap,
        Words.setHead_flBitmap, hsl, hfl, Function.update_self]
      split
      · exact ⟨hholds.sizes, hholds.links, hholds.lists, rfl, rfl⟩
      · exact ⟨hholds.sizes, hholds.links, hholds.lists, rfl, rfl⟩
    · refine ⟨fun B h hB => ?_, fun B h hB hflag => ?_, fun x hx => ?_⟩
      · rw [← hrelinked.size B h hB]
        split <;> rfl
      · rw [← hrelinked.phys B h hB hflag]
        split <;> rfl
      · rw [← hrelinked.kept x hx]
        split <;> rfl
  · rw [if_neg hnone] at hrun
    cases hrun
    by_cases hhead : w.blocks fl sl = block
    · have hlast : next ≠ null := fun hlast => hnone (hempty.mpr ⟨hhead, hlast⟩)
      rw [if_pos hhead] at hholds
      rw [if_pos hhead, if_neg hlast]
      exact ⟨_, rfl, hholds, hrelinked.size, hrelinked.phys, hrelinked.kept⟩
    · have hself : w₂.setHead fl sl (w.blocks fl sl) = w₂ := Words.setHead_self rfl
      rw [if_neg hhead, hself] at hholds
      rw [if_neg hhead]
      exact ⟨_, rfl, hholds, hrelinked⟩

end Gpcl.Tlsf
