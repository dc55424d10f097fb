import Gpcl.Json.Rejects

/-! # JSON documents

The grammar of JSON over lists of characters, with the white space inside the elements and members.
An element of an array and a member of an object are the two kinds of items that stand between
brackets. -/
namespace Gpcl.Json

/-- White space of a document; `isspace` has two characters more. -/
def isJsonSpace (c : Char) : Bool := c == ' ' || c == '\t' || c == '\n' || c == '\r'

def Spaces (w : Str) : Prop := ∀ c ∈ w, isJsonSpace c = true

def Digits (s : Str) : Prop := s ≠ [] ∧ ∀ c ∈ s, c.isDigit = true

def IntegerPart (s : Str) : Prop := s = ['0'] ∨ Digits s ∧ s.head? ≠ some '0'

def FractionPart (s : Str) : Prop := s = [] ∨ ∃ d, Digits d ∧ s = '.' :: d

def ExponentPart (s : Str) : Prop :=
  s = [] ∨ ∃ e sign d, (e = 'e' ∨ e = 'E') ∧ (sign = [] ∨ sign = ['+'] ∨ sign = ['-']) ∧ Digits d ∧
    s = e :: (sign ++ d)

def Number (s : Str) : Prop :=
  ∃ sign whole fraction exponent, (sign = [] ∨ sign = ['-']) ∧ IntegerPart whole ∧
    FractionPart fraction ∧
    ExponentPart exponent ∧ s = sign ++ (whole ++ (fraction ++ exponent))

def isHexDigit (c : Char) : Bool := c.isDigit || ('a' ≤ c && c ≤ 'f') || ('A' ≤ c && c ≤ 'F')

/-- What stands between the quotes of a string. -/
inductive StringBody : Str → Prop
  | nil : StringBody []
  | plain {c : Char} {s : Str} : ' ' ≤ c → c ≠ '"' → c ≠ '\\' → StringBody s → StringBody (c :: s)
  | escape {c : Char} {s : Str} : c ∈ ['"', '\\', '/', 'b', 'f', 'n', 'r', 't'] → StringBody s →
    StringBody ('\\' :: c :: s)
  | unicode {digits s : Str} : digits.length = 4 → (∀ c ∈ digits, isHexDigit c = true) →
    StringBody s →
    StringBody ('\\' :: 'u' :: (digits ++ s))

inductive Symbol
  | value
  -- a member of an object, or an element of an array
  | item (brace : Bool)
  -- one item or more, with a comma between any two
  | items (brace : Bool)

def leftBracket (brace : Bool) : Char := if brace then '\x7b' else '['

def rightBracket (brace : Bool) : Char := if brace then '\x7d' else ']'

inductive Derives : Symbol → Str → Prop
  | literal {s : Str} : isLiteral s = true → Derives .value s
  | number {s : Str} : Number s → Derives .value s
  | string {s : Str} : StringBody s → Derives .value ('"' :: (s ++ ['"']))
  | empty {w : Str} (brace : Bool) : Spaces w →
    Derives .value (leftBracket brace :: (w ++ [rightBracket brace]))
  | brackets {s : Str} (brace : Bool) : Derives (.items brace) s →
    Derives .value (leftBracket brace :: (s ++ [rightBracket brace]))
  | element {w v w' : Str} : Spaces w → Derives .value v → Spaces w' →
    Derives (.item false) (w ++ (v ++ w'))
  | member {w k w' e : Str} : Spaces w → StringBody k → Spaces w' → Derives (.item false) e →
    Derives (.item true) (w ++ '"' :: (k ++ '"' :: (w' ++ ':' :: e)))
  | one {brace : Bool} {s : Str} : Derives (.item brace) s → Derives (.items brace) s
  | more {brace : Bool} {s i : Str} : Derives (.items brace) s → Derives (.item brace) i →
    Derives (.items brace) (s ++ ',' :: i)

/-- A document: one value with white space around it. -/
def WellFormed (text : Str) : Prop := Derives (.item false) text

section
variable {w w' s : Str} {brace : Bool}

theorem spaces_nil : Spaces [] := by simp [Spaces]

theorem spaces_append : Spaces (w ++ w') ↔ Spaces w ∧ Spaces w' := by
  simp only [Spaces, List.mem_append]
  constructor
  · intro h
    exact ⟨fun c hc => h c (.inl hc), fun c hc => h c (.inr hc)⟩
  · intro h c hc
    exact hc.elim (h.1 c) (h.2 c)

theorem isspace_of_isJsonSpace {c : Char} (h : isJsonSpace c = true) : isspace c = true := by
  simp only [isJsonSpace, isspace, Bool.or_eq_true] at h ⊢
  tauto

/-- White space before an item belongs to it. -/
theorem Derives.space_item (hw : Spaces w) (h : Derives (.item brace) s) :
    Derives (.item brace) (w ++ s) := by
  cases h with
  | element hw₀ hv hw₁ =>
    rw [← List.append_assoc]
    exact .element (spaces_append.mpr ⟨hw, hw₀⟩) hv hw₁
  | member hw₀ hk hw₁ he =>
    rw [← List.append_assoc]
    exact .member (spaces_append.mpr ⟨hw, hw₀⟩) hk hw₁ he

theorem Derives.element_space (h : Derives (.item false) s) (hw : Spaces w) :
    Derives (.item false) (s ++ w) := by
  cases h with
  | element hw₀ hv hw₁ =>
    rw [List.append_assoc, List.append_assoc]
    exact .element hw₀ hv (spaces_append.mpr ⟨hw₁, hw⟩)

theorem Derives.item_space (h : Derives (.item brace) s) (hw : Spaces w) :
    Derives (.item brace) (s ++ w) := by
  cases brace with
  | false => exact h.element_space hw
  | true =>
    cases h with
    | member hw₀ hk hw₁ he =>
      have := Derives.member hw₀ hk hw₁ (he.element_space hw)
      simpa using this

/-- White space behind the items belongs to the last one. -/
theorem Derives.items_space (h : Derives (.items brace) s) (hw : Spaces w) :
    Derives (.items brace) (s ++ w) := by
  cases h with
  | one h => exact .one (h.item_space hw)
  | more hs h =>
    rw [List.append_assoc]
    exact .more hs (h.item_space hw)

/-- The first quote in the body of a string is escaped. -/
theorem StringBody.first_quote (h : StringBody s) (hq : '"' ∈ s) :
    ∃ pre post, s = pre ++ '"' :: post ∧ '"' ∉ pre ∧ StringBody (pre ++ ['"']) := by
  induction h with
  | nil => simp at hq
  | @plain c s hc hquote hback h ih =>
    obtain ⟨pre, post, rfl, hpre, hbody⟩ := ih (by simpa [Ne.symm hquote] using hq)
    exact ⟨c :: pre, post, rfl, by simp [Ne.symm hquote, hpre], .plain hc hquote hback hbody⟩
  | @escape c s hc h ih =>
    by_cases hquote : c = '"'
    · subst hquote
      exact ⟨['\\'], s, rfl, by simp, .escape hc .nil⟩
    · obtain ⟨pre, post, rfl, hpre, hbody⟩ := ih (by simpa [Ne.symm hquote] using hq)
      exact ⟨'\\' :: c :: pre, post, rfl, by simp [Ne.symm hquote, hpre], .escape hc hbody⟩
  | @unicode digits s hlen hhex h ih =>
    have hdigits : '"' ∉ digits := fun hmem => absurd (hhex _ hmem) (by decide)
    obtain ⟨pre, post, rfl, hpre, hbody⟩ := ih (by simpa [hdigits] using hq)
    refine ⟨'\\' :: 'u' :: (digits ++ pre), post, by simp, by simp [hdigits, hpre], ?_⟩
    have := StringBody.unicode hlen hhex hbody
    simpa using this

/-- The quote behind the body of a string is not escaped. -/
theorem StringBody.not_escaped (h : StringBody s) : ¬ StringBody (s ++ ['"']) := by
  induction h with
  | nil =>
    intro h
    cases h with
    | plain hc hquote hback h => exact hquote rfl
  | @plain c s hc hquote hback h ih =>
    intro h
    generalize hs : c :: s ++ ['"'] = u at h
    cases h with
    | nil => cases hs
    | plain _ _ _ h =>
      cases hs
      exact ih h
    | escape _ _ => exact hback (List.cons.inj hs).1
    | unicode _ _ _ => exact hback (List.cons.inj hs).1
  | @escape c s hc h ih =>
    intro h
    generalize hs : '\\' :: c :: s ++ ['"'] = u at h
    cases h with
    | nil => cases hs
    | plain _ _ hback h => exact hback (by cases hs; rfl)
    | escape _ h =>
      cases hs
      exact ih h
    | unicode _ _ _ =>
      obtain rfl : c = 'u' := (List.cons.inj (List.cons.inj hs).2).1
      exact absurd hc (by decide)
  | @unicode digits s hlen hhex h ih =>
    intro h
    generalize hs : '\\' :: 'u' :: (digits ++ s) ++ ['"'] = u at h
    cases h with
    | nil => cases hs
    | plain _ _ hback h => exact hback (by cases hs; rfl)
    | escape hc h =>
      cases hs
      exact absurd hc (by decide)
    | @unicode digits' s' hlen' _ h =>
      have happend : digits ++ (s ++ ['"']) = digits' ++ s' := by simpa using hs
      obtain ⟨-, rfl⟩ := List.append_inj happend (hlen.trans hlen'.symm)
      exact ih h

end

end Gpcl.Json
