import Gpcl.StringUtils.Split
import Mathlib.Data.List.TakeWhile
import Mathlib.Tactic.SplitIfs

/-! # Trimming and skipping

A trimmed piece starts behind its leading blanks and ends before the first blank behind them, which
is the first of its trailing blanks only where none stands between others. A piece is skipped for
being empty before it is trimmed. -/
namespace Gpcl.StringUtils
open Lib.Occurrences

variable {α : Type} {isspace : α → Bool} {xs delim : List α} {flag : SplitFlags} {s : SubString}

/-- A text without the blanks at its ends. -/
def strip (isspace : α → Bool) (w : List α) : List α := (w.dropWhile isspace).rdropWhile isspace

/-- A piece without the blanks at its ends. -/
def SubString.stripped (isspace : α → Bool) (xs : List α) (s : SubString) : SubString :=
  let start := s.first + ((s.str xs).takeWhile isspace).length
  ⟨start, start + (strip isspace (s.str xs)).length⟩

/-- Inside the input. -/
structure SubString.Inside (xs : List α) (s : SubString) : Prop where
  ordered : s.first ≤ s.second
  bound : s.second ≤ xs.length

theorem str_drop (xs : List α) (s : SubString) (k : Nat) :
    SubString.str xs ⟨s.first + k, s.second⟩ = (s.str xs).drop k := by
  rw [SubString.str, SubString.str, List.drop_drop]

theorem SubString.Inside.length_str (h : s.Inside xs) : (s.str xs).length = s.second - s.first := by
  rw [SubString.str, List.length_drop, List.length_take_of_le h.bound]

theorem SubString.Inside.str_eq_nil (h : s.Inside xs) : s.str xs = [] ↔ s.empty = true := by
  have := h.ordered
  rw [← List.length_eq_zero_iff, h.length_str, SubString.empty, beq_iff_eq]
  omega

/-! ## Where the searches stop -/

theorem findIdx_eq_length (p : α → Bool) :
    ∀ w : List α, w.findIdx p = (w.takeWhile fun c => !p c).length
  | [] => rfl
  | c :: w => by
    rw [List.findIdx_cons, List.takeWhile_cons]
    cases p c with
    | true => rfl
    | false => simp [findIdx_eq_length p w]

theorem findIdx_nonblank (isspace : α → Bool) (w : List α) :
    w.findIdx (fun ch => !isspace ch) = (w.takeWhile isspace).length := by
  rw [findIdx_eq_length]
  simp only [Bool.not_not]

/-- Behind the leading blanks of a piece. -/
theorem str_behind (isspace : α → Bool) (xs : List α) (s : SubString) :
    SubString.str xs ⟨s.first + ((s.str xs).takeWhile isspace).length, s.second⟩ =
      (s.str xs).dropWhile isspace := by
  rw [str_drop, List.dropWhile_eq_drop_findIdx_not, findIdx_nonblank]

theorem trimmed_eq (isspace : α → Bool) (xs : List α) (s : SubString) : s.trimmed isspace xs =
    let start := s.first + ((s.str xs).takeWhile isspace).length
    ⟨start, start + (((s.str xs).dropWhile isspace).takeWhile fun c => !isspace c).length⟩ := by
  rw [SubString.trimmed, findIf, findIdx_nonblank]
  dsimp only
  rw [findIf, str_behind, findIdx_eq_length]

/-- The first blank behind the leading ones is the first of the trailing ones exactly if none stands
between others. -/
theorem length_takeWhile_eq_iff (isspace : α → Bool) (w : List α) :
    (w.takeWhile fun c => !isspace c).length = (w.rdropWhile isspace).length ↔
    ∀ c ∈ w.rdropWhile isspace, isspace c = false := by
  constructor
  · intro hlen c hc
    have heq : (w.takeWhile fun c => !isspace c) = w.rdropWhile isspace :=
      (List.prefix_of_prefix_length_le (List.takeWhile_prefix _) (List.rdropWhile_prefix _ _)
        (Nat.le_of_eq hlen)).eq_of_length hlen
    rw [← heq] at hc
    simpa using List.mem_takeWhile_imp hc
  · intro hsolid
    have hcore : ((w.rdropWhile isspace).takeWhile fun c => !isspace c) = w.rdropWhile isspace :=
      List.takeWhile_eq_self_iff.mpr fun c hc => by rw [hsolid c hc, Bool.not_false]
    have htail : ((w.rtakeWhile isspace).takeWhile fun c => !isspace c) = [] := by
      refine List.takeWhile_eq_nil_iff.mpr fun hpos => ?_
      have := List.mem_rtakeWhile_imp (List.get_mem (w.rtakeWhile isspace) ⟨0, hpos⟩)
      simpa using this
    conv => lhs; rw [← List.rdropWhile_append_rtakeWhile (p := isspace) (l := w)]
    rw [List.takeWhile_append, if_pos (congrArg List.length hcore), htail, List.append_nil]

theorem trimmed_eq_stripped_iff (isspace : α → Bool) (xs : List α) (s : SubString) :
    s.trimmed isspace xs = s.stripped isspace xs ↔
    ∀ c ∈ strip isspace (s.str xs), isspace c = false := by
  rw [strip, ← length_takeWhile_eq_iff, trimmed_eq, SubString.stripped, strip]
  simp only [SubString.mk.injEq, true_and, Nat.add_left_cancel_iff]

/-- A trimmed piece is empty if it had blanks only. -/
theorem trimmed_empty_iff (isspace : α → Bool) (xs : List α) (s : SubString) :
    (s.trimmed isspace xs).empty = true ↔ ∀ c ∈ s.str xs, isspace c = true := by
  rw [trimmed_eq, SubString.empty, beq_iff_eq]
  dsimp only
  rw [← List.dropWhile_eq_nil_iff]
  constructor
  · intro hlen
    have hnil : ((s.str xs).dropWhile isspace).takeWhile (fun c => !isspace c) = [] := by
      rw [← List.length_eq_zero_iff]
      omega
    by_contra hne
    have hpos := List.length_pos_iff.mpr hne
    exact List.takeWhile_eq_nil_iff.mp hnil hpos
      (by simpa using List.dropWhile_get_zero_not isspace (s.str xs) hpos)
  · intro hnil
    rw [hnil]
    rfl

/-! ## The two flags -/

/-- The same flags without one. -/
def SplitFlags.without (flag : SplitFlags) (e : SplitFlag) : SplitFlags :=
  ⟨flag.value &&& ~~~e.value⟩

theorem masked_away (v m n : BitVec 32) (h : ~~~m &&& n = 0) : (v &&& ~~~m) &&& n = 0 := by
  rw [BitVec.and_assoc, h]
  exact BitVec.and_zero

theorem masked_through (v m n : BitVec 32) (h : ~~~m &&& n = n) : (v &&& ~~~m) &&& n = v &&& n := by
  rw [BitVec.and_assoc, h]

theorem keeps_without_skip (flag : SplitFlags) (s : SubString) :
    keeps (flag.without .skipEmptyString) s = true := by
  have hset : (flag.without .skipEmptyString).isSet .skipEmptyString = false := by
    rw [SplitFlags.isSet, SplitFlags.and, SplitFlags.without, SplitFlags.of, masked_away _ _ _ rfl]
    rfl
  rw [keeps, hset, Bool.not_false, Bool.or_true]

theorem keeps_of_skip (hskip : flag.isSet .skipEmptyString = true) (s : SubString) :
    keeps flag s = !s.empty := by
  rw [keeps, hskip, Bool.not_true, Bool.or_false]

theorem shape_without_skip (isspace : α → Bool) (xs : List α) (flag : SplitFlags) :
    shape isspace xs (flag.without .skipEmptyString) = shape isspace xs flag := by
  funext s
  rw [shape, shape, SplitFlags.and, SplitFlags.and, SplitFlags.without, SplitFlags.of,
    masked_through _ _ _ rfl]

theorem keeps_without_trim (flag : SplitFlags) :
    keeps (flag.without .trimResults) = keeps flag := by
  funext s
  rw [keeps, keeps, SplitFlags.isSet, SplitFlags.isSet, SplitFlags.and, SplitFlags.and,
    SplitFlags.without, SplitFlags.of, masked_through _ _ _ rfl]

theorem shape_without_trim (isspace : α → Bool) (xs : List α) (flag : SplitFlags) (s : SubString) :
    shape isspace xs (flag.without .trimResults) s = s := by
  rw [shape, SplitFlags.and, SplitFlags.without, SplitFlags.of, masked_away _ _ _ rfl]
  rfl

theorem shape_of_trim (isspace : α → Bool) (xs : List α)
    (htrim : (flag.and (.of .trimResults)).toBool = true) (s : SubString) :
    shape isspace xs flag s = s.trimmed isspace xs := by
  rw [shape, if_pos htrim]

theorem shape_of_not_trim (isspace : α → Bool) (xs : List α)
    (htrim : (flag.and (.of .trimResults)).toBool = false) (s : SubString) :
    shape isspace xs flag s = s := by
  rw [shape, htrim]
  rfl

variable [DecidableEq α]

theorem pieces_inside (hd : delim ≠ []) (hs : s ∈ pieces xs delim) : s.Inside xs :=
  ⟨(pieces_bound hd hs).1, (pieces_bound hd hs).2⟩

/-- What empty pieces have anyway holds of the pieces that are added if it holds of all. -/
theorem forall_kept {P : SubString → Prop} {l : List SubString}
    (hempty : ∀ s ∈ l, s.empty = true → P s) :
    (∀ s ∈ l.filter (keeps flag), P s) ↔ ∀ s ∈ l, P s := by
  constructor
  · intro h s hs
    cases he : s.empty with
    | true => exact hempty s hs he
    | false => exact h s (List.mem_filter.mpr ⟨hs, by rw [keeps, he]; rfl⟩)
  · exact fun h s hs => h s (List.mem_filter.mp hs).1

/-- Trimming takes the blanks at the ends of the pieces, and no more, if no piece has a blank
between others. -/
theorem split_trims_iff (isspace : α → Bool) (xs delim : List α) (flag : SplitFlags)
    (hd : delim ≠ []) (htrim : (flag.and (.of .trimResults)).toBool = true) :
    (∃ r u, split isspace xs delim flag = some r ∧
      split isspace xs delim (flag.without .trimResults) = some u ∧
      r.subStrings = u.subStrings.map (SubString.stripped isspace xs)) ↔
      ∀ s ∈ pieces xs delim, ∀ c ∈ strip isspace (s.str xs), isspace c = false := by
  have htrimmed : ((pieces xs delim).filter (keeps flag)).map (shape isspace xs flag) =
      ((pieces xs delim).filter (keeps flag)).map (SubString.trimmed isspace xs) :=
    List.map_congr_left fun s _ => shape_of_trim isspace xs htrim s
  have huntrimmed : ((pieces xs delim).filter (keeps (flag.without .trimResults))).map
      (shape isspace xs (flag.without .trimResults)) = (pieces xs delim).filter (keeps flag) := by
    rw [keeps_without_trim]
    exact (List.map_congr_left fun s _ => shape_without_trim isspace xs flag s).trans
      (List.map_id' _)
  have hsame : ((pieces xs delim).filter (keeps flag)).map (SubString.trimmed isspace xs) =
      ((pieces xs delim).filter (keeps flag)).map (SubString.stripped isspace xs) ↔
      ∀ s ∈ pieces xs delim, ∀ c ∈ strip isspace (s.str xs), isspace c = false := by
    rw [List.map_inj_left]
    simp only [trimmed_eq_stripped_iff]
    refine forall_kept fun s hs he => ?_
    rw [((pieces_inside hd hs).str_eq_nil).mpr he]
    exact fun c hc => absurd hc List.not_mem_nil
  rw [split_eq isspace xs hd, split_eq isspace xs hd, htrimmed, huntrimmed, ← hsame]
  constructor
  · rintro ⟨r, u, hr, hu, heq⟩
    cases hr
    cases hu
    exact heq
  · exact fun heq => ⟨_, _, rfl, rfl, heq⟩

theorem split_trims_padded :
    ∃ r u, split (· == ' ') [' ', 'a', ' ', ',', 'b'] [','] (.of .trimResults) = some r ∧
    split (· == ' ') [' ', 'a', ' ', ',', 'b'] [',']
      ((SplitFlags.of .trimResults).without .trimResults) = some u ∧
    r.subStrings = u.subStrings.map (SubString.stripped (· == ' ') [' ', 'a', ' ', ',', 'b']) := by
  refine (split_trims_iff (· == ' ') [' ', 'a', ' ', ',', 'b'] [','] (.of .trimResults)
    (List.cons_ne_nil _ _) rfl).mpr fun s hs c hc => ?_
  obtain rfl | hs := List.mem_cons.mp (show s ∈ [⟨0, 3⟩, ⟨4, 5⟩] from hs)
  · obtain rfl := List.mem_singleton.mp (show c ∈ ['a'] from hc)
    rfl
  · obtain rfl := List.mem_singleton.mp hs
    obtain rfl := List.mem_singleton.mp (show c ∈ ['b'] from hc)
    rfl

/-- The second word is lost. -/
theorem split_trims_two_words :
    ¬ ∃ r u, split (· == ' ') ['a', ' ', 'b'] [','] (.of .trimResults) = some r ∧
    split (· == ' ') ['a', ' ', 'b'] [',']
      ((SplitFlags.of .trimResults).without .trimResults) = some u ∧
    r.subStrings = u.subStrings.map (SubString.stripped (· == ' ') ['a', ' ', 'b']) := by
  rw [split_eq _ _ (List.cons_ne_nil _ _), split_eq _ _ (List.cons_ne_nil _ _)]
  rintro ⟨r, u, hr, hu, heq⟩
  cases hr
  cases hu
  exact absurd heq (by decide)

/-- Skipping leaves the pieces that are not empty, if these are not trimmed or each has more than
blanks. -/
theorem split_skips_iff (isspace : α → Bool) (xs delim : List α) (flag : SplitFlags)
    (hd : delim ≠ []) (hskip : flag.isSet .skipEmptyString = true) :
    (∃ r u, split isspace xs delim flag = some r ∧
      split isspace xs delim (flag.without .skipEmptyString) = some u ∧
      (∀ s ∈ r.subStrings, s.empty = false) ∧ r.subStrings = u.subStrings.filter (!·.empty)) ↔
      (flag.and (.of .trimResults)).toBool = false ∨
        ∀ s ∈ pieces xs delim, s.empty = false → ∃ c ∈ s.str xs, isspace c = false := by
  have hall : (pieces xs delim).filter (keeps (flag.without .skipEmptyString)) = pieces xs delim :=
    List.filter_eq_self.mpr fun s _ => keeps_without_skip flag s
  have hkept : (pieces xs delim).filter (keeps flag) = (pieces xs delim).filter (!·.empty) :=
    List.filter_congr fun s _ => keeps_of_skip hskip s
  rw [split_eq isspace xs hd, split_eq isspace xs hd, hall, hkept, shape_without_skip]
  constructor
  · rintro ⟨r, u, hr, hu, hne, -⟩
    cases hr
    cases htrim : (flag.and (.of .trimResults)).toBool with
    | false => exact .inl rfl
    | true =>
      refine .inr fun s hs he => ?_
      have hmem :
          s.trimmed isspace xs ∈ ((pieces xs delim).filter (!·.empty)).map
            (shape isspace xs flag) :=
        List.mem_map.mpr ⟨s, List.mem_filter.mpr ⟨hs, by rw [he]; rfl⟩,
          shape_of_trim isspace xs htrim s⟩
      have hsome := mt (trimmed_empty_iff isspace xs s).mpr (Bool.not_eq_true _ ▸ hne _ hmem)
      simpa using hsome
  · intro hcond
    -- a piece is empty exactly if it is added as an empty one
    have hsame : ∀ s ∈ pieces xs delim, (shape isspace xs flag s).empty = s.empty := by
      intro s hs
      cases htrim : (flag.and (.of .trimResults)).toBool with
      | false => rw [shape_of_not_trim isspace xs htrim]
      | true =>
        rw [shape_of_trim isspace xs htrim]
        have hblank := hcond.resolve_left (by rw [htrim]; exact Bool.noConfusion) s hs
        cases he : s.empty with
        | true =>
          rw [trimmed_empty_iff, ((pieces_inside hd hs).str_eq_nil).mpr he]
          exact fun c hc => absurd hc List.not_mem_nil
        | false =>
          obtain ⟨c, hc, hno⟩ := hblank he
          rw [← Bool.not_eq_true, trimmed_empty_iff]
          exact fun hall => Bool.false_ne_true (hno.symm.trans (hall c hc))
    refine ⟨_, _, rfl, rfl, ?_, ?_⟩
    · intro t ht
      obtain ⟨s, hs, rfl⟩ := List.mem_map.mp ht
      obtain ⟨hs, he⟩ := List.mem_filter.mp hs
      rw [hsame s hs]
      simpa using he
    · dsimp only
      rw [List.filter_map]
      refine congrArg _ (List.filter_congr fun s hs => ?_)
      rw [Function.comp_apply, hsame s hs]

theorem split_skips_words : ∃ r u, split (· == ' ') ['a', ',', ',', 'b'] [','] ⟨3⟩ = some r ∧
    split (· == ' ') ['a', ',', ',', 'b'] [',']
      ((SplitFlags.mk 3).without .skipEmptyString) = some u ∧
    (∀ s ∈ r.subStrings, s.empty = false) ∧ r.subStrings = u.subStrings.filter (!·.empty) := by
  refine (split_skips_iff (· == ' ') ['a', ',', ',', 'b'] [','] ⟨3⟩ (List.cons_ne_nil _ _) rfl).mpr
    (.inr fun s hs he => ?_)
  obtain rfl | hs := List.mem_cons.mp (show s ∈ [⟨0, 1⟩, ⟨2, 2⟩, ⟨3, 4⟩] from hs)
  · exact ⟨'a', List.mem_singleton_self _, rfl⟩
  · obtain rfl | hs := List.mem_cons.mp hs
    · cases he
    · obtain rfl := List.mem_singleton.mp hs
      exact ⟨'b', List.mem_singleton_self _, rfl⟩

/-- The blank piece is not skipped, and is empty when it is added. -/
theorem split_skips_blank : ¬ ∃ r u, split (· == ' ') [' ', ',', 'a'] [','] ⟨3⟩ = some r ∧
    split (· == ' ') [' ', ',', 'a'] [','] ((SplitFlags.mk 3).without .skipEmptyString) = some u ∧
    (∀ s ∈ r.subStrings, s.empty = false) ∧ r.subStrings = u.subStrings.filter (!·.empty) := by
  rw [split_eq _ _ (List.cons_ne_nil _ _)]
  rintro ⟨r, u, hr, hu, hne, -⟩
  cases hr
  exact absurd hne (by decide)

end Gpcl.StringUtils
