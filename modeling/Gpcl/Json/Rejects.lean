import Gpcl.Json.Lexemes
import Gpcl.Json.RoundTrip

/-! # How a parse ends

The builder assumes that a closing bracket is of the kind of the innermost open one, that a key
stands in an object, that a value in an object has a key before it, and that a number can be
converted. Nothing checks this, so a parse ends with a value or `failed_to_parse` exactly when the
lexemes of the text are in place, up to the first one that is none. -/
namespace Gpcl.Json
open ValueBuilder

variable {R : Type}

/-- An open bracket, and whether a key that is not empty waits for its value. -/
structure Frame where
  brace : Bool
  keyed : Bool

/-- The innermost open bracket gets a value. -/
def fill : List Frame → List Frame
  | f :: fs => ⟨f.brace, false⟩ :: fs
  | [] => []

/-- The open brackets behind a lexeme, innermost first. -/
def openedBy (fs : List Frame) : Lexeme → List Frame
  | .opening brace => ⟨brace, false⟩ :: fs
  | .closing _ => fill fs.tail
  | .key chars _ => match fs with
    | f :: fs => ⟨f.brace, decide (chars ≠ [])⟩ :: fs
    | [] => []
  | .word _ | .number _ | .text _ _ => fill fs
  | .blank _ | .comma | .bad _ => fs

/-- The open brackets behind some lexemes. -/
def opened (xs : List Lexeme) : List Frame := xs.foldl openedBy []

/-- A value may stand here: directly in an object it needs a key. -/
def TakesValue : List Frame → Prop
  | f :: _ => f.brace = true → f.keyed = true
  | [] => True

def isLiteral (chars : Str) : Bool :=
  chars == "null".toList || chars == "true".toList || chars == "false".toList

/-- A character that starts no lexeme, or a word other than `null`, `true` and `false`. -/
def Lexeme.foreign : Lexeme → Bool
  | .bad _ => true
  | .word chars => !isLiteral chars
  | _ => false

/-- `json_cast` of the characters does not throw. -/
def Converts (t : RealText R) (chars : Str) : Prop :=
  if '.' ∈ chars then (t.read chars).isSome else (readInteger chars).isSome

/-- The lexeme may stand behind these open brackets. -/
def InPlace (t : RealText R) (fs : List Frame) : Lexeme → Prop
  | .word chars => isLiteral chars = true → TakesValue fs
  | .number chars => Converts t chars ∧ TakesValue fs
  | .text _ _ => TakesValue fs
  | .key _ _ => ∃ keyed rest, fs = ⟨true, keyed⟩ :: rest
  | .closing brace => ∃ keyed rest, fs = ⟨brace, keyed⟩ :: rest ∧ TakesValue rest
  | .opening _ | .blank _ | .comma | .bad _ => True

/-- Every lexeme up to the first foreign one is in place. -/
def PlacedFrom (t : RealText R) (fs : List Frame) (xs : List Lexeme) : Prop :=
  ∀ pre x post, xs = pre ++ x :: post → (∀ y ∈ pre, y.foreign = false) →
    InPlace t (pre.foldl openedBy fs) x

def Placed (t : RealText R) (text : Str) : Prop := PlacedFrom t [] (lexemes text)

/-- A value, or `json_error` with `failed_to_parse`. -/
def EndsCleanly {α : Type} (r : Except Error α) : Prop :=
  (∃ v, r = .ok v) ∨ ∃ what, r = .error (.failedToParse what)

/-- The stack of the builder, seen as open brackets. -/
inductive Opens : ValueBuilder R → List Frame → Prop
  | bottom (v : Json R) : Opens [.value v] []
  | array {stack : ValueBuilder R} {fs : List Frame} (xs : List (Json R)) (keyed : Bool) :
    Opens stack fs → Opens (.array xs :: stack) (⟨false, keyed⟩ :: fs)
  | object {stack : ValueBuilder R} {fs : List Frame} (fields : List (Str × Json R)) (key : Str) :
    Opens stack fs → Opens (.object fields key :: stack) (⟨true, decide (key ≠ [])⟩ :: fs)

section
variable {t : RealText R} {stack : ValueBuilder R} {fs : List Frame} {x : Lexeme}

theorem Opens.handleValue (h : Opens stack fs) (v : Json R) (ht : TakesValue fs) :
    ∃ stack', handleValue v stack = .ok stack' ∧ Opens stack' (fill fs) := by
  cases h with
  | bottom w => exact ⟨_, rfl, .bottom v⟩
  | array xs keyed h => exact ⟨_, rfl, .array _ _ h⟩
  | object fields key h =>
    have hkey : key ≠ [] := of_decide_eq_true (ht rfl)
    refine ⟨_, if_neg hkey, ?_⟩
    exact .object _ [] h

theorem Opens.handleValue_assertion (h : Opens stack fs) (v : Json R) (ht : ¬ TakesValue fs) :
    ValueBuilder.handleValue v stack = .error .assertion := by
  cases h with
  | bottom w => exact absurd trivial ht
  | array xs keyed h => exact absurd nofun ht
  | object fields key h =>
    have hkey : key = [] := by
      by_contra hne
      exact ht fun _ => decide_eq_true hne
    exact if_pos hkey

theorem isLiteral_cases {chars : Str} (h : isLiteral chars = true) :
    chars = "null".toList ∨ chars = "true".toList ∨ chars = "false".toList := by
  simpa [isLiteral, or_assoc] using h

theorem handleLexeme_literal {chars : Str} (h : isLiteral chars = true) :
    ∃ v : Json R, ∀ stack,
    handleLexeme t stack (.word chars) = ValueBuilder.handleValue v stack := by
  rcases isLiteral_cases h with rfl | rfl | rfl
  · exact ⟨.null, fun stack => rfl⟩
  · exact ⟨.boolean true, fun stack => rfl⟩
  · exact ⟨.boolean false, fun stack => rfl⟩

/-- A number that converts is a value. -/
theorem handleLexeme_number {chars : Str} (h : Converts t chars) :
    ∃ v : Json R, ∀ stack,
    handleLexeme t stack (.number chars) = ValueBuilder.handleValue v stack := by
  unfold Converts at h
  split at h
  · next hdot =>
    obtain ⟨r, hr⟩ := Option.isSome_iff_exists.mp h
    have he : Parser.numberEvent t chars = .ok (.floatEvent r) := by
      simp [Parser.numberEvent, hdot, castReal, hr]
    exact ⟨.real r, fun stack => by rw [handleLexeme, he]; rfl⟩
  · next hdot =>
    obtain ⟨i, hi⟩ := Option.isSome_iff_exists.mp h
    have he : Parser.numberEvent t chars = .ok (.integerEvent i) := by
      simp [Parser.numberEvent, hdot, castInteger, hi]
    exact ⟨.integer i, fun stack => by rw [handleLexeme, he]; rfl⟩

theorem numberEvent_badLexicalCast {chars : Str} (h : ¬ Converts t chars) :
    Parser.numberEvent t chars = .error .badLexicalCast := by
  unfold Converts at h
  unfold Parser.numberEvent
  split at h
  · next hdot =>
    have hr : t.read chars = none := by simpa using h
    simp [hdot, castReal, hr]
  · next hdot =>
    have hi : readInteger chars = none := by simpa using h
    simp [hdot, castInteger, hi]

/-- A lexeme in place is taken. -/
theorem Opens.handleLexeme (h : Opens stack fs) (hf : x.foreign = false) (hx : InPlace t fs x) :
    ∃ stack', handleLexeme t stack x = .ok stack' ∧ Opens stack' (openedBy fs x) := by
  cases x with
  | blank c => exact ⟨stack, rfl, h⟩
  | comma => exact ⟨stack, rfl, h⟩
  | word chars =>
    have hl : isLiteral chars = true := by simpa [Lexeme.foreign] using hf
    obtain ⟨v, hv⟩ := handleLexeme_literal hl
    rw [hv]
    exact h.handleValue v (hx hl)
  | number chars =>
    obtain ⟨v, hv⟩ := handleLexeme_number hx.1
    rw [hv]
    exact h.handleValue v hx.2
  | text chars ws => exact h.handleValue _ hx
  | key chars ws =>
    obtain ⟨keyed, rest, rfl⟩ := hx
    cases h with
    | object fields key h => exact ⟨_, rfl, .object _ _ h⟩
  | opening brace =>
    cases brace with
    | true => exact ⟨_, rfl, .object [] [] h⟩
    | false => exact ⟨_, rfl, .array [] false h⟩
  | closing brace =>
    obtain ⟨keyed, rest, rfl, ht⟩ := hx
    cases h with
    | array xs keyed h => exact h.handleValue _ ht
    | object fields key h => exact h.handleValue _ ht
  | bad c => cases hf

/-- A foreign lexeme is reported. -/
theorem handleLexeme_foreign (hf : x.foreign = true) :
    handleLexeme t stack x = .error (.failedToParse "parser") := by
  cases x with
  | bad c => rfl
  | word chars =>
    have hl : ¬ (chars = "null".toList ∨ chars = "true".toList ∨ chars = "false".toList) := by
      intro h
      simp [Lexeme.foreign, isLiteral] at hf
      grind
    simp only [not_or] at hl
    obtain ⟨hnull, htrue, hfalse⟩ := hl
    simp only [handleLexeme, Parser.literalEvent, hnull, htrue, hfalse, if_false]
    rfl
  | _ => cases hf

/-- A lexeme out of place ends the parse with something else. -/
theorem Opens.handleLexeme_stray (h : Opens stack fs) (hf : x.foreign = false)
    (hx : ¬ InPlace t fs x) :
    ∃ e, ValueBuilder.handleLexeme t stack x = .error e ∧ ∀ what, e ≠ .failedToParse what := by
  have assertion (v : Json R) (ht : ¬ TakesValue fs) :
      ∃ e, ValueBuilder.handleValue v stack = .error e ∧ ∀ what, e ≠ .failedToParse what :=
    ⟨_, h.handleValue_assertion v ht, nofun⟩
  cases x with
  | blank c => exact absurd trivial hx
  | comma => exact absurd trivial hx
  | opening brace => exact absurd trivial hx
  | bad c => cases hf
  | word chars =>
    have hl : isLiteral chars = true := by simpa [Lexeme.foreign] using hf
    have ht : ¬ TakesValue fs := fun ht => hx fun _ => ht
    obtain ⟨v, hv⟩ := handleLexeme_literal hl
    rw [hv]
    exact assertion v ht
  | number chars =>
    by_cases hc : Converts t chars
    · obtain ⟨v, hv⟩ := handleLexeme_number hc
      rw [hv]
      exact assertion v fun ht => hx ⟨hc, ht⟩
    · refine ⟨.badLexicalCast, ?_, nofun⟩
      simp only [ValueBuilder.handleLexeme, numberEvent_badLexicalCast hc]
      rfl
  | text chars ws => exact assertion _ hx
  | key chars ws =>
    cases h with
    | bottom v => exact ⟨_, rfl, nofun⟩
    | array xs keyed h => exact ⟨_, rfl, nofun⟩
    | object fields key h => exact absurd ⟨_, _, rfl⟩ hx
  | closing brace =>
    cases h with
    | bottom v =>
      cases brace with
      | true => exact ⟨_, rfl, nofun⟩
      | false => exact ⟨_, rfl, nofun⟩
    | array xs keyed h =>
      cases brace with
      | true => exact ⟨_, rfl, nofun⟩
      | false => exact ⟨_, h.handleValue_assertion _ fun ht => hx ⟨_, _, rfl, ht⟩, nofun⟩
    | object fields key h =>
      cases brace with
      | true => exact ⟨_, h.handleValue_assertion _ fun ht => hx ⟨_, _, rfl, ht⟩, nofun⟩
      | false => exact ⟨_, rfl, nofun⟩

theorem Opens.getValue (h : Opens stack fs) : EndsCleanly (getValue stack) := by
  cases h with
  | bottom v => exact .inl ⟨v, rfl⟩
  | array xs keyed h =>
    cases h with
    | _ => exact .inr ⟨_, rfl⟩
  | object fields key h =>
    cases h with
    | _ => exact .inr ⟨_, rfl⟩

end

section
variable {t : RealText R} {fs : List Frame} {x : Lexeme} {xs : List Lexeme}

theorem placedFrom_nil : PlacedFrom t fs [] := by
  intro pre x post h
  simp at h

theorem placedFrom_foreign (hf : x.foreign = true) (hx : InPlace t fs x) :
    PlacedFrom t fs (x :: xs) := by
  intro pre y post h hpre
  cases pre with
  | nil =>
    obtain ⟨rfl, -⟩ : x = y ∧ xs = post := by simpa using h
    exact hx
  | cons z pre =>
    obtain ⟨rfl, -⟩ : x = z ∧ xs = pre ++ y :: post := by simpa using h
    have hz := hpre x (by simp)
    rw [hf] at hz
    cases hz

theorem placedFrom_cons (hf : x.foreign = false) :
    PlacedFrom t fs (x :: xs) ↔ InPlace t fs x ∧ PlacedFrom t (openedBy fs x) xs := by
  constructor
  · intro h
    refine ⟨h [] x xs rfl (by simp), ?_⟩
    intro pre y post hxs hpre
    refine h (x :: pre) y post (by rw [hxs]; rfl) ?_
    intro z hz
    rcases List.mem_cons.mp hz with rfl | hz
    · exact hf
    · exact hpre z hz
  · intro h pre y post hxs hpre
    cases pre with
    | nil =>
      obtain ⟨rfl, -⟩ : x = y ∧ xs = post := by simpa using hxs
      exact h.1
    | cons z pre =>
      obtain ⟨rfl, hpost⟩ : x = z ∧ xs = pre ++ y :: post := by simpa using hxs
      exact h.2 pre y post hpost fun w hw => hpre w (List.mem_cons_of_mem _ hw)

theorem inPlace_foreign (hf : x.foreign = true) : InPlace t fs x := by
  cases x with
  | bad c => trivial
  | word chars =>
    intro hl
    simp [Lexeme.foreign, hl] at hf
  | _ => cases hf

theorem not_endsCleanly {α : Type} {e : Error} (he : ∀ what, e ≠ .failedToParse what) :
    ¬ EndsCleanly (.error e : Except Error α) := by
  intro h
  obtain ⟨v, hv⟩ | ⟨what, hw⟩ := h
  · cases hv
  · exact he what (by cases hw; rfl)

/-- What is left of a text, behind open brackets. -/
theorem Opens.endsCleanly_iff {stack : ValueBuilder R} (h : Opens stack fs) (xs : List Lexeme) :
    EndsCleanly ((xs.foldlM (ValueBuilder.handleLexeme t) stack).bind ValueBuilder.getValue) ↔
    PlacedFrom t fs xs := by
  induction xs generalizing stack fs with
  | nil => exact iff_of_true h.getValue placedFrom_nil
  | cons x xs ih =>
    rw [List.foldlM_cons]
    cases hf : x.foreign with
    | true =>
      rw [handleLexeme_foreign hf]
      exact iff_of_true (.inr ⟨_, rfl⟩) (placedFrom_foreign hf (inPlace_foreign hf))
    | false =>
      rw [placedFrom_cons hf]
      by_cases hx : InPlace t fs x
      · obtain ⟨stack', hstack, h'⟩ := h.handleLexeme hf hx
        rw [hstack]
        exact (ih h').trans (and_iff_right hx).symm
      · obtain ⟨e, hstack, he⟩ := h.handleLexeme_stray hf hx
        rw [hstack]
        exact iff_of_false (not_endsCleanly he) fun h => hx h.1

/-- A parse ends with a value or `failed_to_parse` if and only if the lexemes up to the first
foreign one are in place. -/
theorem parse_endsCleanly_iff (t : RealText R) (fuel : Nat) (text : Str) :
    EndsCleanly (parse t (fuel + 2) text) ↔ Placed t text := by
  rw [parse_lexemes]
  exact Opens.endsCleanly_iff (.bottom .null) (lexemes text)

/-- A closing bracket alone ends with `bad_variant_access`. -/
theorem stray_bracket_escapes : ¬ EndsCleanly (parse wholeNumbers 2 "]".toList) := by
  have h : parse wholeNumbers 2 "]".toList = .error .badVariantAccess := by rfl
  rw [h]
  exact not_endsCleanly nofun

end

end Gpcl.Json
