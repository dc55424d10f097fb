import Gpcl.Tlsf.SizeClasses

/-! # Free lists and their bitmaps

Every free block is in the list of its class, once, and the bitmaps say which lists have a block. A
block that an operation has taken out of its list and still works on is free as well; it is in
hand. -/
namespace Gpcl.Tlsf
open Lib.Memory Lib.Bitmap

variable {c c' : Control} {hand hand' : List Nat} {q fl sl size : Nat} {b : Header}

/-- The size of a free block that is not in hand. -/
def listedSize (c : Control) (hand : List Nat) (q : Nat) : Option Nat :=
  if q ∈ hand then none else (c.headers q).bind fun h => if h.free then some h.size else none

structure Indexed (c : Control) (hand : List Nat) : Prop where
  listed : ∀ fl sl q, q ∈ c.blocks fl sl ↔ ∃ size, listedSize c hand q = some size ∧
    mappingInsert size = (fl, sl)
  nodup : ∀ fl sl, (c.blocks fl sl).Nodup
  slBits : ∀ fl sl, (c.slBitmap fl).getLsbD sl = true ↔ c.blocks fl sl ≠ []
  flBits : ∀ fl, c.flBitmap.getLsbD fl = true ↔ c.slBitmap fl ≠ 0

theorem listedSize_some (hb : c.headers q = some b) (hfree : b.free = true) (hq : q ∉ hand) :
    listedSize c hand q = some b.size := by
  rw [listedSize, if_neg hq, hb, Option.bind_some, if_pos hfree]

theorem listedSize_hand (hq : q ∈ hand) : listedSize c hand q = none := if_pos hq

theorem listedSize_ne {q' : Nat} (hne : q' ≠ q) :
    listedSize c (q :: hand) q' = listedSize c hand q' := by
  simp [listedSize, hne]

/-- The lists speak of sizes and flags of listed blocks only. -/
theorem Indexed.congr (h : Indexed c hand) (hblocks : c'.blocks = c.blocks)
    (hsl : c'.slBitmap = c.slBitmap) (hfl : c'.flBitmap = c.flBitmap)
    (hsame : ∀ q, listedSize c' hand' q = listedSize c hand q) :
    Indexed c' hand' := by
  constructor
  · intro fl sl q
    rw [hblocks, hsame]
    exact h.listed fl sl q
  · rw [hblocks]
    exact h.nodup
  · rw [hblocks, hsl]
    exact h.slBits
  · rw [hfl, hsl]
    exact h.flBits

/-- The same for an operation on headers. -/
theorem Indexed.withHeaders (h : Indexed c hand) {headers : Nat → Option Header}
    (hsame : ∀ q, listedSize { c with headers } hand' q = listedSize c hand q) :
    Indexed { c with headers } hand' :=
  h.congr rfl rfl rfl hsame

theorem Indexed.construct : Indexed Control.construct [] := by
  constructor
  · intro fl sl q
    simp [Control.construct, listedSize]
  · intro fl sl
    exact List.nodup_nil
  · intro fl sl
    simp [Control.construct]
  · intro fl
    simp [Control.construct]

namespace Control

@[simp] theorem setList_headers (c : Control) (fl sl : Nat) (l : List Nat) :
    (c.setList fl sl l).headers = c.headers := rfl

@[simp] theorem setList_slBitmap (c : Control) (fl sl : Nat) (l : List Nat) :
    (c.setList fl sl l).slBitmap = c.slBitmap := rfl

@[simp] theorem setList_flBitmap (c : Control) (fl sl : Nat) (l : List Nat) :
    (c.setList fl sl l).flBitmap = c.flBitmap := rfl

theorem setList_blocks (c : Control) (fl sl : Nat) (l : List Nat) (fl' sl' : Nat) :
    (c.setList fl sl l).blocks fl' sl' = if fl' = fl ∧ sl' = sl then l else c.blocks fl' sl' := by
  by_cases hfl : fl' = fl
  · subst hfl
    by_cases hsl : sl' = sl
    · simp [setList, hsl]
    · simp [setList, hsl]
  · simp [setList, hfl]

end Control

/-! ## Searching -/

/-- Some list from a class on has a block. -/
def Stocked (c : Control) (fl sl : Nat) : Prop :=
  ∃ fl' sl', ClassLe fl sl fl' sl' ∧ c.blocks fl' sl' ≠ []

theorem Indexed.firstOf (h : Indexed c hand) (hbit : (c.slBitmap fl).getLsbD sl = true) :
    ∃ q, q ∈ c.blocks fl sl ∧ c.firstOf fl sl = some (some (q, fl, sl)) := by
  obtain ⟨q, rest, hlist⟩ := List.exists_cons_of_ne_nil ((h.slBits fl sl).mp hbit)
  exact ⟨q, by rw [hlist]; exact List.mem_cons_self, by simp [Control.firstOf, hlist]⟩

theorem Indexed.search (h : Indexed c hand) (fl sl : Nat) :
    (¬ Stocked c fl sl ∧ c.searchSuitableBlock fl sl = some none) ∨
      ∃ q fl' sl', ClassLe fl sl fl' sl' ∧ q ∈ c.blocks fl' sl' ∧
      c.searchSuitableBlock fl sl = some (some (q, fl', sl')) := by
  unfold Control.searchSuitableBlock
  dsimp only
  by_cases hsl : upFrom (c.slBitmap fl) sl ≠ 0
  · rw [if_pos hsl]
    have hbit := getLsbD_lowest hsl
    rw [getLsbD_upFrom, Bool.and_eq_true, decide_eq_true_eq] at hbit
    obtain ⟨q, hq, hfirst⟩ := h.firstOf hbit.1
    exact .inr ⟨q, _, _, .inr ⟨rfl, hbit.2⟩, hq, hfirst⟩
  · rw [if_neg hsl]
    by_cases hfl : upFrom c.flBitmap (fl + 1) = 0
    · rw [if_pos hfl]
      refine .inl ⟨?_, rfl⟩
      rintro ⟨fl', sl', hle, hne⟩
      have hbit := (h.slBits fl' sl').mpr hne
      obtain hlt | ⟨rfl, hle⟩ := hle
      · refine absurd hfl (ne_zero_iff.mpr ⟨fl', ?_⟩)
        rw [getLsbD_upFrom, (h.flBits fl').mpr (ne_zero_iff.mpr ⟨sl', hbit⟩), Bool.true_and,
          decide_eq_true_eq]
        exact hlt
      · refine hsl (ne_zero_iff.mpr ⟨sl', ?_⟩)
        rw [getLsbD_upFrom, hbit]
        simpa using hle
    · rw [if_neg hfl]
      have hbit := getLsbD_lowest hfl
      rw [getLsbD_upFrom, Bool.and_eq_true, decide_eq_true_eq] at hbit
      have hne := (h.flBits _).mp hbit.1
      obtain ⟨q, hq, hfirst⟩ := h.firstOf (getLsbD_lowest hne)
      refine .inr ⟨q, _, _, .inl hbit.2, hq, ?_⟩
      rw [guard, if_pos hne]
      exact hfirst

/-! ## Taking out and putting in -/

/-- Lists of which one has changed, with bitmaps to match. -/
theorem Indexed.relist (h : Indexed c hand) {l : List Nat} (hnodup : l.Nodup)
    (hblocks : ∀ fl' sl', c'.blocks fl' sl' = if fl' = fl ∧ sl' = sl then l else c.blocks fl' sl')
    (hlisted : ∀ fl' sl' q, q ∈ (if fl' = fl ∧ sl' = sl then l else c.blocks fl' sl') ↔
      ∃ size, listedSize c' hand' q = some size ∧ mappingInsert size = (fl', sl'))
    (hsl : ∀ fl' sl', (c'.slBitmap fl').getLsbD sl' = true ↔
      if fl' = fl ∧ sl' = sl then l ≠ [] else (c.slBitmap fl').getLsbD sl' = true)
    (hfl : ∀ fl', c'.flBitmap.getLsbD fl' = true ↔ c'.slBitmap fl' ≠ 0) : Indexed c' hand' := by
  constructor
  · intro fl' sl' q
    rw [hblocks]
    exact hlisted fl' sl' q
  · intro fl' sl'
    rw [hblocks]
    split
    · exact hnodup
    · exact h.nodup fl' sl'
  · intro fl' sl'
    rw [hsl, hblocks]
    split
    · exact Iff.rfl
    · exact h.slBits fl' sl'
  · exact hfl

/-- A bit that is set in a row of bitmaps. -/
theorem getLsbD_insert_row {row : Nat → BitVec 32} (hsl : sl < 32) (fl' sl' : Nat) :
    (Function.update row fl (row fl ||| single 32 sl) fl').getLsbD sl' = true ↔
      if fl' = fl ∧ sl' = sl then True else (row fl').getLsbD sl' = true := by
  by_cases hf : fl' = fl
  · subst hf
    by_cases hs : sl' = sl
    · simp [hs, getLsbD_insert hsl]
    · simp [hs, getLsbD_insert hsl]
  · simp [hf]

theorem getLsbD_erase_row {row : Nat → BitVec 32} (hsl : sl < 32) (fl' sl' : Nat) :
    (Function.update row fl (row fl &&& ~~~ single 32 sl) fl').getLsbD sl' = true ↔
      if fl' = fl ∧ sl' = sl then False else (row fl').getLsbD sl' = true := by
  by_cases hf : fl' = fl
  · subst hf
    by_cases hs : sl' = sl
    · simp [hs, getLsbD_erase hsl]
    · simp [hs, getLsbD_erase hsl]
  · simp [hf]

theorem Indexed.insert (h : Indexed c (q :: hand)) (hq : q ∉ hand) (hb : c.headers q = some b)
    (hfree : b.free = true) (halign : q = alignPtr q alignSize) (hsize : b.size < blockSizeMax) :
    ∃ c', c.blockInsert q = some c' ∧ c'.headers = c.headers ∧ Indexed c' hand := by
  have hfl := mappingInsert_fl_lt hsize
  have hsl := mappingInsert_sl_lt b.size
  generalize hmap : mappingInsert b.size = place at hfl hsl
  obtain ⟨fl, sl⟩ := place
  have hsl : sl < 32 := hsl
  have hnew : q ∉ c.blocks fl sl := by
    rw [h.listed, listedSize_hand List.mem_cons_self]
    simp
  refine ⟨{ c.setList fl sl (q :: c.blocks fl sl) with
    flBitmap := c.flBitmap ||| single 32 fl
    slBitmap := Function.update c.slBitmap fl (c.slBitmap fl ||| single 32 sl) }, ?_, rfl, ?_⟩
  · simp only [Control.blockInsert, hb, Option.bind_eq_bind, Option.bind_some, hmap,
      Control.insertFreeBlock]
    rw [guard, if_pos hfl, guard, if_pos halign]
    rfl
  · refine h.relist (List.nodup_cons.mpr ⟨hnew, h.nodup fl sl⟩) (c.setList_blocks fl sl _) ?_ ?_ ?_
    · intro fl' sl' q'
      show _ ↔ ∃ size, listedSize c hand q' = some size ∧ _
      by_cases hqq : q' = q
      · rw [hqq, listedSize_some hb hfree hq]
        split
        · rename_i hhere
          simp [hmap, hhere]
        · rename_i hother
          rw [h.listed, listedSize_hand List.mem_cons_self]
          simp only [Option.some.injEq, exists_eq_left', hmap, Prod.mk.injEq, false_and,
            exists_false, false_iff, reduceCtorEq]
          exact fun heq => hother ⟨heq.1.symm, heq.2.symm⟩
      · rw [← listedSize_ne hqq, ← h.listed]
        split
        · rename_i hhere
          simp [hqq, hhere]
        · exact Iff.rfl
    · intro fl' sl'
      rw [getLsbD_insert_row hsl]
      simp
    · intro fl'
      show (c.flBitmap ||| single 32 fl).getLsbD fl' = true ↔
        Function.update c.slBitmap fl _ fl' ≠ 0
      rw [getLsbD_insert (by unfold flIndexCount at hfl; omega)]
      by_cases hf : fl' = fl
      · rw [hf, Function.update_self]
        refine iff_of_true (by simp) (ne_zero_iff.mpr ⟨sl, ?_⟩)
        rw [getLsbD_insert hsl]
        simp
      · rw [Function.update_of_ne hf, ← h.flBits]
        simp [hf]

theorem Indexed.removeFreeBlock (h : Indexed c hand) (hq : q ∈ c.blocks fl sl) :
    ∃ c', c.removeFreeBlock q fl sl = some c' ∧ c'.headers = c.headers ∧
    Indexed c' (q :: hand) := by
  obtain ⟨size, hlisted, hmap⟩ := (h.listed fl sl q).mp hq
  have hsl : sl < 32 := by
    have hlt := mappingInsert_sl_lt size
    rw [hmap] at hlt
    exact hlt
  have hfl : fl < 32 :=
    BitVec.lt_of_getLsbD ((h.flBits fl).mpr
      (ne_zero_iff.mpr ⟨sl, (h.slBits fl sl).mpr (List.ne_nil_of_mem hq)⟩))
  have hmember : ∀ fl' sl' q',
    q' ∈ (if fl' = fl ∧ sl' = sl then (c.blocks fl sl).erase q else c.blocks fl' sl') ↔
      ∃ size, listedSize c (q :: hand) q' = some size ∧ mappingInsert size = (fl', sl') := by
    intro fl' sl' q'
    by_cases hqq : q' = q
    · rw [hqq, listedSize_hand List.mem_cons_self]
      simp only [false_and, exists_false, iff_false, reduceCtorEq]
      split
      · exact fun hmem => ((h.nodup fl sl).mem_erase_iff.mp hmem).1 rfl
      · rename_i hother
        rw [h.listed, hlisted]
        rintro ⟨size', hsize', hmap'⟩
        cases hsize'
        rw [hmap] at hmap'
        cases hmap'
        exact hother ⟨rfl, rfl⟩
    · rw [listedSize_ne hqq, ← h.listed]
      split
      · rename_i hhere
        rw [hhere.1, hhere.2]
        exact List.mem_erase_of_ne hqq
      · exact Iff.rfl
  have hnodup : ((c.blocks fl sl).erase q).Nodup := (h.nodup fl sl).erase q
  generalize hl : (c.blocks fl sl).erase q = l at hmember hnodup
  have hhere : (c.setList fl sl l).blocks fl sl = l := by
    rw [Control.setList_blocks, if_pos ⟨rfl, rfl⟩]
  by_cases hempty : l = []
  · subst hempty
    -- the second level no longer has the list, and the first one has the second level as long as it
    -- has others
    have hrow : ∀ fl' sl',
      (Function.update c.slBitmap fl (c.slBitmap fl &&& ~~~ single 32 sl) fl').getLsbD sl' = true ↔
        if fl' = fl ∧ sl' = sl then [] ≠ ([] : List Nat)
          else (c.slBitmap fl').getLsbD sl' = true := by
      intro fl' sl'
      rw [getLsbD_erase_row hsl]
      simp
    by_cases hzero : c.slBitmap fl &&& ~~~ single 32 sl = 0
    · refine ⟨{ c.setList fl sl [] with
        slBitmap := Function.update c.slBitmap fl (c.slBitmap fl &&& ~~~ single 32 sl)
        flBitmap := c.flBitmap &&& ~~~ single 32 fl }, ?_, rfl, ?_⟩
      · simp [Control.removeFreeBlock, guard, hq, hl, hhere, hzero]
      · refine h.relist hnodup (c.setList_blocks fl sl _) hmember hrow fun fl' => ?_
        show (c.flBitmap &&& ~~~ single 32 fl).getLsbD fl' = true ↔
          Function.update c.slBitmap fl _ fl' ≠ 0
        rw [getLsbD_erase hfl]
        by_cases hf : fl' = fl
        · rw [hf, Function.update_self]
          exact iff_of_false (by simp) (not_not_intro hzero)
        · rw [Function.update_of_ne hf, ← h.flBits]
          simp [hf]
    · refine ⟨{ c.setList fl sl [] with
        slBitmap := Function.update c.slBitmap fl (c.slBitmap fl &&& ~~~ single 32 sl) }, ?_,
          rfl, ?_⟩
      · simp [Control.removeFreeBlock, guard, hq, hl, hhere]
        exact fun h => absurd h hzero
      · refine h.relist hnodup (c.setList_blocks fl sl _) hmember hrow fun fl' => ?_
        show c.flBitmap.getLsbD fl' = true ↔ Function.update c.slBitmap fl _ fl' ≠ 0
        by_cases hf : fl' = fl
        · rw [hf, Function.update_self]
          refine iff_of_true ((h.flBits fl).mpr (ne_zero_iff.mpr ⟨sl, ?_⟩)) hzero
          exact (h.slBits fl sl).mpr (List.ne_nil_of_mem hq)
        · rw [Function.update_of_ne hf, h.flBits]
  · refine ⟨c.setList fl sl l, ?_, rfl, ?_⟩
    · simp [Control.removeFreeBlock, guard, hq, hl, hhere, hempty]
    · refine h.relist hnodup (c.setList_blocks fl sl _) hmember (fun fl' sl' => ?_) h.flBits
      show (c.slBitmap fl').getLsbD sl' = true ↔ _
      split
      · rename_i hplace
        rw [hplace.1, hplace.2]
        exact iff_of_true ((h.slBits fl sl).mpr (List.ne_nil_of_mem hq)) hempty
      · exact Iff.rfl

theorem Indexed.remove (h : Indexed c hand) (hq : q ∉ hand) (hb : c.headers q = some b)
    (hfree : b.free = true) :
    ∃ c', c.blockRemove q = some c' ∧ c'.headers = c.headers ∧ Indexed c' (q :: hand) := by
  have hmem : q ∈ c.blocks (mappingInsert b.size).1 (mappingInsert b.size).2 :=
    (h.listed _ _ q).mpr ⟨b.size, listedSize_some hb hfree hq, rfl⟩
  obtain ⟨c', hrun, hsame⟩ := h.removeFreeBlock hmem
  refine ⟨c', ?_, hsame⟩
  rw [Control.blockRemove, hb]
  exact hrun

/-- There is a block for a search. -/
def Locates (c : Control) (size : Nat) : Prop :=
  size ≠ 0 ∧ size ≤ searchMax ∧ Stocked c (mappingSearch size).1 (mappingSearch size).2

theorem Indexed.locate (h : Indexed c []) (h8 : 8 ∣ size) (hmax : size < blockSizeMax) :
    (¬ Locates c size ∧ c.blockLocateFree size = some (c, none)) ∨
      ∃ q c' b, Locates c size ∧ c.blockLocateFree size = some (c', some q) ∧
      c'.headers = c.headers ∧ Indexed c' [q] ∧
        c.headers q = some b ∧ b.free = true ∧ size ≤ b.size := by
  unfold Control.blockLocateFree
  by_cases hzero : size = 0
  · rw [if_pos hzero]
    exact .inl ⟨fun hl => hl.1 hzero, rfl⟩
  · rw [if_neg hzero]
    dsimp only
    by_cases hfl : (mappingSearch size).1 < flIndexCount
    · rw [if_pos hfl]
      have hle := (mappingSearch_fl_lt hmax).mp hfl
      obtain ⟨hnone, hsearch⟩ | ⟨q, fl', sl', hclass, hq, hsearch⟩ :=
        h.search (mappingSearch size).1 (mappingSearch size).2
      · refine .inl ⟨fun hl => hnone hl.2.2, ?_⟩
        rw [hsearch]
        rfl
      · obtain ⟨s, hlisted, hmap⟩ := (h.listed fl' sl' q).mp hq
        obtain ⟨b, hb, hsize⟩ : ∃ b, c.headers q = some b ∧
            (if b.free then some b.size else none) = some s := by
          rw [listedSize, if_neg List.not_mem_nil] at hlisted
          exact Option.bind_eq_some_iff.mp hlisted
        obtain ⟨hfree, rfl⟩ : b.free = true ∧ b.size = s := by
          by_cases hf : b.free = true
          · rw [if_pos hf] at hsize
            exact ⟨hf, Option.some.inj hsize⟩
          · rw [if_neg hf] at hsize
            cases hsize
        have hlarge : size ≤ b.size := calc
          size ≤ classStart (mappingSearch size).1 (mappingSearch size).2 :=
            le_classStart_mappingSearch h8
          _ ≤ classStart fl' sl' := hclass.classStart_le (mappingSearch_sl_lt size)
          _ = classStart (mappingInsert b.size).1 (mappingInsert b.size).2 := by rw [hmap]
          _ ≤ b.size := classStart_le b.size
        obtain ⟨c', hremove, hsame, hindexed⟩ := h.removeFreeBlock hq
        refine .inr ⟨q, c', b, ⟨hzero, hle, fl', sl', hclass, List.ne_nil_of_mem hq⟩, ?_, hsame,
          hindexed, hb, hfree, hlarge⟩
        rw [hsearch]
        simp [hb, guard, hlarge, hremove]
    · rw [if_neg hfl]
      exact .inl ⟨fun hl => hfl ((mappingSearch_fl_lt hmax).mpr hl.2.1), rfl⟩

end Gpcl.Tlsf
