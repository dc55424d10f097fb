import Mathlib.Data.List.Basic
import Mathlib.Tactic.Common

/-! # Paths along links

A singly linked structure seen as its link function: `Path next null p l q` says
that following `next` from `p` visits the non-null nodes `l` in order and then
stands at `q`. A null-terminated list is a path to `null`; an edit in its middle
is read off from `path_append`. -/
namespace Gpcl.Lib.Chain

variable {α : Type}

def Path (next : α → α) (null : α) : α → List α → α → Prop
  | p, [], q => p = q
  | p, c :: cs, q => p = c ∧ c ≠ null ∧ Path next null (next c) cs q

variable {next next' : α → α} {null p q : α}

@[simp] theorem path_nil : Path next null p [] q ↔ p = q := Iff.rfl

@[simp] theorem path_cons {c : α} {cs : List α} :
    Path next null p (c :: cs) q ↔ p = c ∧ c ≠ null ∧ Path next null (next c) cs q := Iff.rfl

theorem path_append : ∀ {l₁ l₂ : List α} {p q : α},
    Path next null p (l₁ ++ l₂) q ↔ ∃ r, Path next null p l₁ r ∧ Path next null r l₂ q
  | [], l₂, p, q => by simp
  | c :: l₁, l₂, p, q => by
    simp only [List.cons_append, path_cons]
    rw [path_append]
    constructor
    · rintro ⟨rfl, hc, r, h1, h2⟩; exact ⟨r, ⟨rfl, hc, h1⟩, h2⟩
    · rintro ⟨r, ⟨rfl, hc, h1⟩, h2⟩; exact ⟨rfl, hc, r, h1, h2⟩

/-- A path reads the links of its own nodes only. -/
theorem Path.congr : ∀ {l : List α} {p : α}, Path next null p l q →
    (∀ c ∈ l, next' c = next c) → Path next' null p l q
  | [], _, h, _ => h
  | c :: cs, p, ⟨hp, hc, h⟩, hn => by
    refine ⟨hp, hc, ?_⟩
    rw [hn c (by simp)]
    exact h.congr fun d hd => hn d (by simp [hd])

/-- Two null-terminated paths from one node are the same. -/
theorem Path.unique : ∀ {l l' : List α} {p : α}, Path next null p l null →
    Path next null p l' null → l = l'
  | [], [], _, _, _ => rfl
  | [], c :: _, _, h, ⟨hp, hc, _⟩ => absurd (hp.symm.trans h) hc
  | c :: _, [], _, ⟨hp, hc, _⟩, h => absurd (hp.symm.trans h) hc
  | c :: l, d :: l', _, ⟨hp, _, h⟩, ⟨hp', _, h'⟩ => by
    obtain rfl := hp.symm.trans hp'
    rw [h.unique h']

theorem Path.head_ne_null {c : α} {l : List α} (h : Path next null p (c :: l) q) : p ≠ null :=
  h.1 ▸ h.2.1

end Gpcl.Lib.Chain
