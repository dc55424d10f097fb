import Gpcl.Lib.Occurrences
import Gpcl.StringUtils.Basic
import Mathlib.Data.List.DropRight

/-! # The pieces of split

A delimiter that is not empty cuts the input at its leftmost occurrences, and each piece is added to
the results or not by the flags alone. An empty one is found where the search starts, so that the
loop stays there. -/
namespace Gpcl.StringUtils
open Lib.Occurrences

variable {α : Type} {isspace : α → Bool} {xs delim : List α} {first q : Nat} {qs : List Nat}
    {flag : SplitFlags}

/-- The piece of a span. -/
def SubString.of (s : Span) : SubString := ⟨s.1, s.2⟩

/-- Whether a piece is added. -/
def keeps (flag : SplitFlags) (s : SubString) : Bool := !s.empty || !flag.isSet .skipEmptyString

/-- As what it is added. -/
def shape (isspace : α → Bool) (xs : List α) (flag : SplitFlags) (s : SubString) : SubString :=
  if (flag.and (.of .trimResults)).toBool then s.trimmed isspace xs else s

/-- What a round adds for its piece. -/
theorem add_eq (s : SubString) (result : SplitResults) :
    (if !s.empty || !flag.isSet .skipEmptyString then
      if (flag.and (.of .trimResults)).toBool then result.add (s.trimmed isspace xs)
      else result.add s else result) =
      { result with
        subStrings := result.subStrings ++
          ([s].filter (keeps flag)).map (shape isspace xs flag) } := by
  show (if keeps flag s then _ else result) = _
  by_cases hkeep : keeps flag s
  · rw [if_pos hkeep, List.filter_cons_of_pos hkeep, List.filter_nil, List.map_singleton, shape]
    split <;> rfl
  · rw [if_neg hkeep, List.filter_cons_of_neg hkeep, List.filter_nil, List.map_nil, List.append_nil]

variable [DecidableEq α]

/-- What the delimiter leaves of the input. -/
def pieces (xs delim : List α) : List SubString :=
  (spans delim.length xs.length 0 (occurrences delim xs)).map .of

/-! ## The search -/

theorem searchIn_first :
    ∀ {k : Nat} {ys : List α}, (∀ j, j < k → ¬ delim <+: ys.drop j) → delim <+: ys.drop k →
    k < ys.length →
    searchIn delim ys = k
  | 0, y :: ys, _, hat, _ => by
    exact if_pos (List.isPrefixOf_iff_prefix.mpr hat)
  | k + 1, y :: ys, hfirst, hat, hlt => by
    have hno : ¬ delim.isPrefixOf (y :: ys) = true :=
      fun h => hfirst 0 (by omega) (List.isPrefixOf_iff_prefix.mp h)
    rw [searchIn, if_neg hno,
      searchIn_first (fun j hj => hfirst (j + 1) (by omega)) hat (Nat.lt_of_succ_lt_succ hlt)]

theorem searchIn_none :
    ∀ {ys : List α}, (∀ j, ¬ delim <+: ys.drop j) → searchIn delim ys = ys.length
  | [], _ => rfl
  | y :: ys, hnone => by
    have hno : ¬ delim.isPrefixOf (y :: ys) = true :=
      fun h => hnone 0 (List.isPrefixOf_iff_prefix.mp h)
    rw [searchIn, if_neg hno, searchIn_none fun j => hnone (j + 1), List.length_cons]

theorem search_found (hd : delim ≠ []) (hle : first ≤ q) (hat : OccursAt delim xs q)
    (hfirst : ∀ r, first ≤ r → r < q → ¬ OccursAt delim xs r) : search xs delim first = q := by
  have hbound := hat.bound hd
  have hpos := List.length_pos_iff.mpr hd
  have hsearch : searchIn delim (xs.drop first) = q - first := by
    refine searchIn_first (fun j hj => ?_) ?_ (by rw [List.length_drop]; omega)
    · rw [List.drop_drop]
      exact hfirst (first + j) (by omega) (by omega)
    · rw [List.drop_drop, Nat.add_sub_cancel' hle]
      exact hat
  rw [search, hsearch]
  omega

theorem search_none (hfirst : first ≤ xs.length) (hnone : ∀ q, first ≤ q → ¬ OccursAt delim xs q) :
    search xs delim first = xs.length := by
  have hsearch : searchIn delim (xs.drop first) = xs.length - first := by
    rw [searchIn_none fun j => ?_, List.length_drop]
    rw [List.drop_drop]
    exact hnone (first + j) (Nat.le_add_right _ _)
  rw [search, hsearch]
  omega

theorem search_nil (h : first < xs.length) : search xs [] first = first := by
  obtain ⟨y, ys, hys⟩ :=
    List.exists_cons_of_length_pos (show 0 < (xs.drop first).length by rw [List.length_drop]; omega)
  rw [search, hys]
  rfl

/-! ## The loop of split -/

theorem splitLoop_round (result : SplitResults) : splitLoop isspace xs delim flag first result =
    let pos := search xs delim first
    let result : SplitResults :=
      { result with
        subStrings := result.subStrings ++
          ([⟨first, pos⟩].filter (keeps flag)).map (shape isspace xs flag) }
    if pos = xs.length then some result
      else splitLoop isspace xs delim flag (pos + delim.length) result := by
  conv => lhs; rw [splitLoop]
  dsimp only
  rw [add_eq]

/-- By induction on the occurrences that are left. -/
theorem splitLoop_eq (hd : delim ≠ []) (h : Leftmost delim xs first qs) (hfirst : first ≤ xs.length)
    (result : SplitResults) :
    splitLoop isspace xs delim flag first result = some { result with
      subStrings := result.subStrings ++
        (((spans delim.length xs.length first qs).map .of).filter (keeps flag)).map
          (shape isspace xs flag) } := by
  induction h generalizing result with
  | @done p hnone =>
    rw [splitLoop_round, search_none hfirst hnone]
    exact if_pos rfl
  | @found p q qs hle hat hbefore hrest ih =>
    have hbound := hat.bound hd
    have hpos := List.length_pos_iff.mpr hd
    rw [splitLoop_round, search_found hd hle hat hbefore]
    dsimp only
    rw [if_neg (by omega), ih hbound, spans, List.map_cons]
    simp only [List.append_assoc, Option.some.injEq, SplitResults.mk.injEq, true_and,
      List.append_cancel_left_eq]
    rw [← List.map_append, ← List.filter_append, List.singleton_append]
    rfl

/-- What split returns for a delimiter that is not empty. -/
theorem split_eq (isspace : α → Bool) (xs : List α) (hd : delim ≠ []) (flag : SplitFlags) :
    split isspace xs delim flag =
    some ⟨0, ((pieces xs delim).filter (keeps flag)).map (shape isspace xs flag)⟩ := by
  rw [split, splitLoop_eq hd (leftmost_occurrences hd xs) (Nat.zero_le _)]
  rfl

example : split (· == ' ') "abcbecbeb".toList ['b'] (.of .skipEmptyString) =
    some ⟨0, [⟨0, 1⟩, ⟨2, 3⟩, ⟨4, 6⟩, ⟨7, 8⟩]⟩ := by
  rw [split_eq _ _ (List.cons_ne_nil _ _)]
  rfl

theorem pieces_bound (hd : delim ≠ []) {s : SubString} (hs : s ∈ pieces xs delim) :
    s.first ≤ s.second ∧ s.second ≤ xs.length := by
  obtain ⟨span, hspan, rfl⟩ := List.mem_map.mp hs
  exact (leftmost_occurrences hd xs).span_bound hd (Nat.zero_le _) hspan

theorem length_pieces (xs delim : List α) :
    (pieces xs delim).length = (occurrences delim xs).length + 1 := by
  rw [pieces, List.length_map, length_spans]

theorem pieces_free (hd : delim ≠ []) {s : SubString} (hs : s ∈ pieces xs delim) :
    ¬ delim <:+: s.str xs := by
  obtain ⟨span, hspan, rfl⟩ := List.mem_map.mp hs
  exact (leftmost_occurrences hd xs).free hd hspan

theorem intercalate_pieces (hd : delim ≠ []) (xs : List α) :
    delim.intercalate ((pieces xs delim).map (·.str xs)) = xs := by
  rw [pieces, List.map_map]
  exact (leftmost_occurrences hd xs).intercalate hd

theorem keeps_none (s : SubString) : keeps .none s = true := by
  rw [keeps]
  exact Bool.or_eq_true_iff.mpr (.inr rfl)

/-- Without flags the pieces are what the delimiter leaves of the input: none contains it, there is
one more of them than there are occurrences, and with the delimiter between them they are the
input. -/
theorem split_partition (isspace : α → Bool) (xs delim : List α) (hd : delim ≠ []) :
    ∃ r, split isspace xs delim .none = some r ∧ (∀ s ∈ r.subStrings, ¬ delim <:+: s.str xs) ∧
      r.subStrings.length = (occurrences delim xs).length + 1 ∧
      delim.intercalate (r.subStrings.map (·.str xs)) = xs := by
  have hall : (pieces xs delim).filter (keeps .none) = pieces xs delim :=
    List.filter_eq_self.mpr fun s _ => keeps_none s
  have hshape : (pieces xs delim).map (shape isspace xs .none) = pieces xs delim := List.map_id' _
  refine ⟨_, split_eq isspace xs hd .none, ?_⟩
  dsimp only
  rw [hall, hshape]
  exact ⟨fun s => pieces_free hd, length_pieces xs delim, intercalate_pieces hd xs⟩

theorem split_partition_comma : ∃ r, split (· == ' ') ['a', ',', ',', 'b'] [','] .none = some r ∧
    (∀ s ∈ r.subStrings, ¬ [','] <:+: s.str ['a', ',', ',', 'b']) ∧
    r.subStrings.length = (occurrences [','] ['a', ',', ',', 'b']).length + 1 ∧
    [','].intercalate (r.subStrings.map (·.str ['a', ',', ',', 'b'])) = ['a', ',', ',', 'b'] :=
  split_partition (· == ' ') ['a', ',', ',', 'b'] [','] (List.cons_ne_nil _ _)

/-! ## split_old -/

theorem equalAt_iff : equalAt xs delim q = true ↔ OccursAt delim xs q := by
  rw [equalAt, beq_iff_eq, OccursAt, List.prefix_iff_eq_take, eq_comm]

theorem addOld_eq (s : SubString) (result : SplitResults) :
    (if !s.empty || !flag.isSet .skipEmptyString then result.add s else result) =
      { result with subStrings := result.subStrings ++ [s].filter (keeps flag) } := by
  show (if keeps flag s then _ else result) = _
  by_cases hkeep : keeps flag s
  · rw [if_pos hkeep, List.filter_cons_of_pos hkeep, List.filter_nil]
    rfl
  · rw [if_neg hkeep, List.filter_cons_of_neg hkeep, List.filter_nil, List.append_nil]

/-- The pieces whose start is `substrStart`, where the scan from `first` finds the occurrences `qs`:
all but the last are added in the loop. By induction on the places that are left. -/
theorem splitOldLoop_eq (hd : delim ≠ []) :
    ∀ {n first : Nat} {qs : List Nat} (substrStart : Nat) (result : SplitResults),
    Leftmost delim xs first qs → first + n = xs.length → ∃ lastStart subs,
      splitOldLoop xs delim flag first n substrStart result =
        some (lastStart,
          { result with subStrings := result.subStrings ++ subs.filter (keeps flag) }) ∧
      (spans delim.length xs.length substrStart qs).map .of = subs ++ [⟨lastStart, xs.length⟩] := by
  intro n
  induction n using Nat.strong_induction_on with
  | _ n ih =>
    intro first qs substrStart result h hn
    have hpos := List.length_pos_iff.mpr hd
    rw [splitOldLoop]
    by_cases hlong : delim.length ≤ n
    · rw [if_pos hlong]
      by_cases hat : OccursAt delim xs first
      · obtain ⟨rest, rfl, hrest⟩ := h.at_start hat
        obtain ⟨lastStart, subs, hrun, hsubs⟩ :=
          ih (n - delim.length) (by omega) (first + delim.length)
          { result with
            subStrings := result.subStrings ++ [⟨substrStart, first⟩].filter (keeps flag) } hrest
              (by omega)
        refine ⟨lastStart, ⟨substrStart, first⟩ :: subs, ?_, ?_⟩
        · rw [if_pos (equalAt_iff.mpr hat)]
          dsimp only
          rw [addOld_eq, hrun, List.append_assoc, ← List.filter_append, List.singleton_append]
        · rw [spans, List.map_cons, hsubs]
          rfl
      · rw [if_neg (mt equalAt_iff.mp hat)]
        exact ih (n - 1) (by omega) substrStart result (h.next hat) (by omega)
    · -- too little is left for an occurrence
      have hnone : qs = [] := h.eq_nil fun q hq hat => by
        have := hat.bound hd
        omega
      subst hnone
      refine ⟨substrStart, [], ?_, rfl⟩
      rw [if_neg hlong, List.filter_nil, List.append_nil]

theorem splitOld_eq (xs : List α) (hd : delim ≠ []) (flag : SplitFlags) :
    splitOld xs delim flag = some ⟨0, (pieces xs delim).filter (keeps flag)⟩ := by
  obtain ⟨lastStart, subs, hrun, hsubs⟩ := splitOldLoop_eq hd 0 (.builder 0)
    (leftmost_occurrences hd xs) (Nat.zero_add _)
  rw [splitOld, hrun, pieces, hsubs, List.filter_append]
  exact congrArg some (addOld_eq _ _)

/-- Without trimming both add the same pieces, at the same places. -/
theorem split_eq_splitOld (isspace : α → Bool) (xs delim : List α) (flag : SplitFlags)
    (hd : delim ≠ []) (hflag : flag = .none ∨ flag = .of .skipEmptyString) :
    split isspace xs delim flag = splitOld xs delim flag := by
  have hshape :
      ((pieces xs delim).filter (keeps flag)).map (shape isspace xs flag) =
        (pieces xs delim).filter (keeps flag) := by
    rcases hflag with rfl | rfl <;> exact List.map_id' _
  rw [split_eq isspace xs hd, splitOld_eq xs hd, hshape]

theorem split_eq_splitOld_overlapping :
    split (· == ' ') ['a', 'a', 'a'] ['a', 'a'] (.of .skipEmptyString) =
    splitOld ['a', 'a', 'a'] ['a', 'a'] (.of .skipEmptyString) :=
  split_eq_splitOld (· == ' ') ['a', 'a', 'a'] ['a', 'a'] (.of .skipEmptyString)
    (List.cons_ne_nil _ _) (.inr rfl)

/-! ## The empty delimiter -/

/-- The loop that stays where it is never returns. -/
theorem splitLoop_nil (isspace : α → Bool) (flag : SplitFlags) (h : first < xs.length)
    (result : SplitResults) :
    splitLoop isspace xs [] flag first result = none := by
  have hnone : ∀ first result r, splitLoop isspace xs [] flag first result = some r →
      ¬ first < xs.length := by
    refine splitLoop.partial_correctness isspace xs [] flag
      (fun first _ _ => ¬ first < xs.length) ?_
    intro loop ih first result r hr hlt
    rw [search_nil hlt] at hr
    dsimp only at hr
    rw [if_neg (by omega)] at hr
    exact ih first _ r hr hlt
  exact Option.eq_none_iff_forall_ne_some.mpr fun r hr => hnone first result r hr h

/-- A run ends unless the delimiter is empty and the input is not. -/
theorem split_terminates_iff (isspace : α → Bool) (xs delim : List α) (flag : SplitFlags) :
    (∃ r, split isspace xs delim flag = some r) ↔ delim ≠ [] ∨ xs = [] := by
  constructor
  · rintro ⟨r, hr⟩
    by_contra! hcon
    obtain ⟨rfl, hxs⟩ := hcon
    rw [split, splitLoop_nil isspace flag (List.length_pos_iff.mpr hxs)] at hr
    contradiction
  · rintro (hd | rfl)
    · exact ⟨_, split_eq isspace xs hd flag⟩
    · rw [split, splitLoop_round]
      exact ⟨_, rfl⟩

theorem split_empty_delimiter : ¬ ∃ r, split (· == ' ') ['a'] [] .none = some r := by
  rw [split, splitLoop_nil _ _ (Nat.zero_lt_one)]
  rintro ⟨r, hr⟩
  contradiction

end Gpcl.StringUtils
