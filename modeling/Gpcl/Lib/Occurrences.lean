import Mathlib.Data.List.Basic
import Mathlib.Data.List.Infix
import Mathlib.Tactic.Common

/-! # Occurrences of one list in another

`Leftmost d xs p qs`: from the place `p` on, the occurrences of `d` in `xs` that a search from the
left finds, each one behind the one before, are at `qs`. They cut the list into spans, whose
contents are the list again with `d` between them. -/
namespace Gpcl.Lib.Occurrences

variable {α : Type*}

/-- Of `d`, at the place `q` of `xs`. -/
def OccursAt (d xs : List α) (q : Nat) : Prop := d <+: xs.drop q

inductive Leftmost (d xs : List α) : Nat → List Nat → Prop
  | done {p : Nat} : (∀ q, p ≤ q → ¬ OccursAt d xs q) → Leftmost d xs p []
  | found {p q : Nat} {qs : List Nat} : p ≤ q → OccursAt d xs q →
    (∀ r, p ≤ r → r < q → ¬ OccursAt d xs r) →
      Leftmost d xs (q + d.length) qs → Leftmost d xs p (q :: qs)

/-- A span of places and the one behind it. -/
abbrev Span := Nat × Nat

/-- The spans that occurrences of length `m` leave of the places from `p` up to `n`. -/
def spans (m n : Nat) : Nat → List Nat → List Span
  | p, [] => [(p, n)]
  | p, q :: qs => (p, q) :: spans m n (q + m) qs

/-- What stands in a span. -/
def content (xs : List α) (s : Span) : List α := (xs.take s.2).drop s.1

variable {d xs : List α} {p q : Nat} {qs : List Nat}

theorem OccursAt.bound (h : OccursAt d xs q) (hd : d ≠ []) : q + d.length ≤ xs.length := by
  have hlen := h.length_le
  have hpos := List.length_pos_iff.mpr hd
  rw [List.length_drop] at hlen
  omega

theorem OccursAt.eq (h : OccursAt d xs q) : xs.drop q = d ++ xs.drop (q + d.length) := by
  obtain ⟨rest, hrest⟩ := h
  rw [← List.drop_drop, ← hrest, List.drop_left]

theorem Leftmost.next (h : Leftmost d xs p qs) (hp : ¬ OccursAt d xs p) :
    Leftmost d xs (p + 1) qs := by
  cases h with
  | done hnone => exact .done fun q hq => hnone q (by omega)
  | @found _ q qs hle hat hfirst hrest =>
    have hne : p ≠ q := by
      rintro rfl
      exact hp hat
    exact .found (by omega) hat (fun r hr => hfirst r (by omega)) hrest

theorem Leftmost.prev (h : Leftmost d xs (p + 1) qs) (hp : ¬ OccursAt d xs p) :
    Leftmost d xs p qs := by
  cases h with
  | done hnone =>
    refine .done fun q hq => ?_
    rcases Nat.eq_or_lt_of_le hq with rfl | hlt
    · exact hp
    · exact hnone q hlt
  | found hle hat hfirst hrest =>
    refine .found (by omega) hat (fun r hr hlt => ?_) hrest
    rcases Nat.eq_or_lt_of_le hr with rfl | hpr
    · exact hp
    · exact hfirst r hpr hlt

theorem Leftmost.at_start (h : Leftmost d xs p qs) (hp : OccursAt d xs p) :
    ∃ rest, qs = p :: rest ∧ Leftmost d xs (p + d.length) rest := by
  cases h with
  | done hnone => exact absurd hp (hnone p (Nat.le_refl p))
  | @found _ q qs hle hat hfirst hrest =>
    have heq : p = q := by
      by_contra hne
      exact hfirst p (Nat.le_refl p) (by omega) hp
    subst heq
    exact ⟨qs, rfl, hrest⟩

theorem Leftmost.eq_nil (h : Leftmost d xs p qs) (hnone : ∀ q, p ≤ q → ¬ OccursAt d xs q) :
    qs = [] := by
  cases h with
  | done => rfl
  | found hle hat => exact absurd hat (hnone _ hle)

/-! ## The search -/

section
variable [DecidableEq α]

/-- `skip` places are still covered by the last occurrence. -/
def occurrencesFrom (d : List α) : List α → Nat → Nat → List Nat
  | [], _, _ => []
  | x :: xs, p, 0 =>
    if d.isPrefixOf (x :: xs) then p :: occurrencesFrom d xs (p + 1) (d.length - 1)
      else occurrencesFrom d xs (p + 1) 0
  | _ :: xs, p, skip + 1 => occurrencesFrom d xs (p + 1) skip

def occurrences (d xs : List α) : List Nat := occurrencesFrom d xs 0 0

theorem leftmost_occurrencesFrom (hd : d ≠ []) (rest : List α) :
    ∀ (p skip : Nat), xs.drop p = rest →
    Leftmost d xs (p + skip) (occurrencesFrom d rest p skip) := by
  induction rest with
  | nil =>
    intro p skip hrest
    refine .done fun q hq hat => ?_
    have hlen := List.length_eq_zero_iff.mpr hrest
    have hbound := hat.bound hd
    have hpos := List.length_pos_iff.mpr hd
    rw [List.length_drop] at hlen
    omega
  | cons x rest ih =>
    intro p skip hrest
    have hnext : xs.drop (p + 1) = rest := by
      rw [← List.drop_drop, hrest, List.drop_one, List.tail_cons]
    cases skip with
    | succ skip =>
      have hleft := ih (p + 1) skip hnext
      rwa [Nat.add_right_comm, Nat.add_assoc] at hleft
    | zero =>
      rw [occurrencesFrom]
      split
      next hat =>
        have hlen : p + 1 + (d.length - 1) = p + d.length := by
          have := List.length_pos_iff.mpr hd
          omega
        refine .found (Nat.le_refl p) ?_ (fun r hr hlt => absurd hr (by omega))
          (hlen ▸ ih (p + 1) _ hnext)
        rw [OccursAt, hrest]
        exact List.isPrefixOf_iff_prefix.mp hat
      next hat =>
        have hleft := ih (p + 1) 0 hnext
        have hno : ¬ OccursAt d xs p := by
          rw [OccursAt, hrest]
          exact fun h => hat (List.isPrefixOf_iff_prefix.mpr h)
        exact hleft.prev hno

theorem leftmost_occurrences (hd : d ≠ []) (xs : List α) : Leftmost d xs 0 (occurrences d xs) :=
  leftmost_occurrencesFrom hd xs 0 0 rfl

end

/-! ## The spans -/

theorem length_spans (m n : Nat) :
    ∀ (p : Nat) (qs : List Nat), (spans m n p qs).length = qs.length + 1
  | _, [] => rfl
  | p, q :: qs => by rw [spans, List.length_cons, length_spans m n (q + m) qs, List.length_cons]

theorem content_append (xs : List α) (hpq : p ≤ q) (hq : q ≤ xs.length) :
    content xs (p, q) ++ xs.drop q = xs.drop p := by
  have hlen : (xs.take q).length = q := List.length_take_of_le hq
  conv => rhs; rw [← List.take_append_drop q xs, List.drop_append_of_le_length (by omega)]
  rfl

theorem content_to_end (xs : List α) (p : Nat) : content xs (p, xs.length) = xs.drop p := by
  rw [content, List.take_length]

/-- With `d` between them, the contents are the list again. -/
theorem Leftmost.intercalate (h : Leftmost d xs p qs) (hd : d ≠ []) :
    d.intercalate ((spans d.length xs.length p qs).map (content xs)) = xs.drop p := by
  induction h with
  | done => simp [spans, content_to_end]
  | @found p q qs hle hat hfirst hrest ih =>
    have hbound := hat.bound hd
    have hne : (spans d.length xs.length (q + d.length) qs).map (content xs) ≠ [] := by
      rw [← List.length_pos_iff, List.length_map, length_spans]
      omega
    rw [spans, List.map_cons, List.intercalate_cons_of_ne_nil hne, ih, List.append_assoc, ← hat.eq,
      content_append xs hle (by omega)]

/-- The spans stay inside the list. -/
theorem Leftmost.span_bound (h : Leftmost d xs p qs) (hd : d ≠ []) (hp : p ≤ xs.length) {s : Span}
    (hs : s ∈ spans d.length xs.length p qs) : s.1 ≤ s.2 ∧ s.2 ≤ xs.length := by
  induction h with
  | done =>
    rw [List.mem_singleton.mp hs]
    exact ⟨hp, Nat.le_refl _⟩
  | @found p q qs hle hat hfirst hrest ih =>
    have hbound := hat.bound hd
    rcases List.mem_cons.mp hs with rfl | hs
    · exact ⟨hle, by dsimp only; omega⟩
    · exact ih hbound hs

/-- What stands in a span between two occurrences is free of `d`. -/
theorem content_free (hd : d ≠ []) (hfirst : ∀ r, p ≤ r → r < q → ¬ OccursAt d xs r) :
    ¬ d <:+: content xs (p, q) := by
  rintro ⟨pre, post, heq⟩
  have hlen := congrArg List.length heq
  have hpos := List.length_pos_iff.mpr hd
  simp only [List.length_append, content, List.length_drop, List.length_take] at hlen
  refine hfirst (p + pre.length) (Nat.le_add_right _ _) (by omega) ?_
  have hpre : content xs (p, q) <+: xs.drop p := (List.take_prefix q xs).drop p
  obtain ⟨rest, hrest⟩ := hpre
  rw [← heq, List.append_assoc, List.append_assoc] at hrest
  rw [OccursAt, ← List.drop_drop, ← hrest, List.drop_left]
  exact ⟨_, rfl⟩

theorem Leftmost.free (h : Leftmost d xs p qs) (hd : d ≠ []) {s : Span}
    (hs : s ∈ spans d.length xs.length p qs) :
    ¬ d <:+: content xs s := by
  induction h with
  | done hnone =>
    rw [List.mem_singleton.mp hs]
    exact content_free hd fun r hr _ => hnone r hr
  | found hle hat hfirst hrest ih =>
    rcases List.mem_cons.mp hs with rfl | hs
    · exact content_free hd hfirst
    · exact ih hs

end Gpcl.Lib.Occurrences
