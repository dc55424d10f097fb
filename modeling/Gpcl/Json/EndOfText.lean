import Gpcl.Json.Fits

/-! # The end of a text

The parser emits a word or a number when it sees the character behind it, and a string only when
that is no white space. What is pending at the end of a text is lost; a space behind the text brings
words and numbers back. -/
namespace Gpcl.Json
open ValueBuilder

variable {R : Type}

/-- Both return equal values, or neither returns and only both together stop at an assertion. -/
def SameOutcome : Except Error (Json R) → Except Error (Json R) → Prop
  | .ok v, .ok w => v = w
  | .error e, .error e' => e = .assertion ↔ e' = .assertion
  | _, _ => False

/-- The lexeme that the end of the text completes. -/
def Pending.scalar : Pending → Option Lexeme
  | .word chars => some (.word chars)
  | .number chars => some (.number chars)
  | .closed chars ws => some (.text chars ws)
  | .nothing | .string _ => none

/-- The parse that goes on with these lexemes behind the text. -/
def parseWith (t : RealText R) (text : Str) (ys : List Lexeme) : Except Error (Json R) :=
  ((lexemes text ++ ys).foldlM (handleLexeme t) init).bind getValue

/-- A lexeme outside of all brackets that is pending at the end of the text has the effect that it
has when it is emitted. -/
def Kept (t : RealText R) (fuel : Nat) (text : Str) : Prop :=
  ∀ x, (lexFrom .nothing text).2.scalar = some x → opened (lexemes text) = [] →
    SameOutcome (parse t fuel text) (parseWith t text [x])

/-! ## The condition -/

/-- The value of a lexeme that is one. -/
def Lexeme.value (t : RealText R) : Lexeme → Option (Json R)
  | .word chars =>
    if chars = "null".toList then some .null
    else if chars = "true".toList then some (.boolean true)
    else if chars = "false".toList then some (.boolean false)
    else none
  | .number chars =>
    if '.' ∈ chars then (t.read chars).map .real else (readInteger chars).map .integer
  | .text chars _ => some (.string chars)
  | _ => none

/-- The value of the last lexeme that is neither white space nor a comma; before any there is
`null`. -/
def lastValue (t : RealText R) (last : Option (Json R)) : Lexeme → Option (Json R)
  | .blank _ | .comma => last
  | x => x.value t

def held (t : RealText R) (xs : List Lexeme) : Option (Json R) :=
  xs.foldl (lastValue t) (some .null)

/-- No lexeme is foreign or out of place. -/
def Carried (t : RealText R) : List Frame → List Lexeme → Prop
  | _, [] => True
  | fs, x :: xs => x.foreign = false ∧ InPlace t fs x ∧ Carried t (openedBy fs x) xs

def Lexeme.quoted : Lexeme → Bool
  | .text _ _ => true
  | _ => false

/-- The lexeme makes no difference behind the others. Outside of all brackets, it repeats the value
before it. Inside of brackets, it is a string, has no value, or its value may stand there. -/
def Idle (t : RealText R) (xs : List Lexeme) (x : Lexeme) : Prop :=
  (opened xs = [] → ∃ v, x.value t = some v ∧ held t xs = some v) ∧
    (opened xs ≠ [] → x.quoted = true ∨ x.value t = none ∨ TakesValue (opened xs))

/-- The parse ends before the end of the text, or what is pending there makes no difference. -/
def Settled (t : RealText R) (text : Str) : Prop :=
  Carried t [] (lexemes text) → ∀ x, (lexFrom .nothing text).2.scalar = some x →
    Idle t (lexemes text) x

section
variable {t : RealText R} {stack stack' : ValueBuilder R} {fs : List Frame} {x : Lexeme}
    {xs : List Lexeme} {v : Json R}
  {p : Pending} {last : Option (Json R)}

theorem SameOutcome.refl (r : Except Error (Json R)) : SameOutcome r r := by
  cases r with
  | ok v => rfl
  | error e => exact Iff.rfl

theorem handleLexeme_value (h : x.value t = some v) (stack : ValueBuilder R) :
    handleLexeme t stack x = handleValue v stack := by
  cases x with
  | word chars =>
    rw [handleLexeme, Parser.literalEvent]
    rw [Lexeme.value] at h
    split_ifs at h ⊢ with hnull htrue hfalse
    all_goals
      cases h
      rfl
  | number chars =>
    rw [handleLexeme, Parser.numberEvent]
    rw [Lexeme.value] at h
    split_ifs at h ⊢ with hdot
    · obtain ⟨r, hr, rfl⟩ := Option.map_eq_some_iff.mp h
      simp only [castReal, hr]
      rfl
    · obtain ⟨i, hi, rfl⟩ := Option.map_eq_some_iff.mp h
      simp only [castInteger, hi]
      rfl
  | text chars ws =>
    cases h
    rfl
  | _ => cases h

/-- A pending lexeme without a value is refused, with an exception. -/
theorem handleLexeme_no_value (hx : p.scalar = some x) (h : x.value t = none)
    (stack : ValueBuilder R) :
    ∃ e, handleLexeme t stack x = .error e ∧ e ≠ .assertion := by
  cases p with
  | nothing => cases hx
  | string chars => cases hx
  | closed chars ws =>
    cases hx
    cases h
  | word chars =>
    cases hx
    rw [handleLexeme, Parser.literalEvent]
    rw [Lexeme.value] at h
    split_ifs at h ⊢ with hnull htrue hfalse
    exact ⟨_, rfl, fun he => by cases he⟩
  | number chars =>
    cases hx
    rw [handleLexeme, Parser.numberEvent]
    rw [Lexeme.value] at h
    split_ifs at h ⊢ with hdot
    · have hr := Option.map_eq_none_iff.mp h
      simp only [castReal, hr]
      exact ⟨_, rfl, fun he => by cases he⟩
    · have hi := Option.map_eq_none_iff.mp h
      simp only [castInteger, hi]
      exact ⟨_, rfl, fun he => by cases he⟩

/-- What a lexeme is worth is no array and no object. -/
theorem Lexeme.value_ne (x : Lexeme) :
    (∀ ys, x.value t ≠ some (.array ys)) ∧ ∀ fields, x.value t ≠ some (.object fields) := by
  cases x with
  | word chars =>
    rw [Lexeme.value]
    split_ifs <;> exact ⟨nofun, nofun⟩
  | number chars =>
    rw [Lexeme.value]
    split_ifs
    · cases t.read chars <;> exact ⟨nofun, nofun⟩
    · cases readInteger chars <;> exact ⟨nofun, nofun⟩
  | text chars ws => exact ⟨nofun, nofun⟩
  | _ => exact ⟨nofun, nofun⟩

/-- Outside of all brackets, the builder holds the value of the last lexeme, or a container. -/
def Holds (t : RealText R) (stack : ValueBuilder R) (last : Option (Json R)) : Prop :=
  ∀ v, stack = [.value v] → last = some v ∨ last = none ∧ ∀ x : Lexeme, x.value t ≠ some v

theorem holds_handleValue {w : Json R} (h : handleValue v stack = .ok stack')
    (hw : stack' = [.value w]) : w = v := by
  subst hw
  match stack, h with
  | .value _ :: [], h =>
    cases h
    rfl
  | .object fields key :: rest, h =>
    rw [handleValue] at h
    split at h <;> cases h

theorem holds_scalar (hx : p.scalar = some x) (h : handleLexeme t stack x = .ok stack') :
    Holds t stack' (x.value t) := by
  intro w hw
  cases hv : x.value t with
  | none =>
    obtain ⟨e, he, -⟩ := handleLexeme_no_value hx hv stack
    rw [he] at h
    cases h
  | some v =>
    rw [handleLexeme_value hv] at h
    rw [holds_handleValue h hw]
    exact .inl rfl

/-- A closing bracket leaves a container. -/
theorem holds_closing {brace : Bool} (h : handleLexeme t stack (.closing brace) = .ok stack') :
    Holds t stack' none := by
  intro w hw
  refine .inr ⟨rfl, ?_⟩
  intro x
  cases brace with
  | true =>
    match stack, h with
    | .object fields key :: rest, h =>
      rw [holds_handleValue h hw]
      exact x.value_ne.2 fields
  | false =>
    match stack, h with
    | .array ys :: rest, h =>
      rw [holds_handleValue h hw]
      exact x.value_ne.1 ys

theorem Holds.step (hs : Holds t stack last) (h : handleLexeme t stack x = .ok stack') :
    Holds t stack' (lastValue t last x) := by
  cases x with
  | blank c =>
    cases h
    exact hs
  | comma =>
    cases h
    exact hs
  | word chars => exact holds_scalar (p := .word chars) rfl h
  | number chars => exact holds_scalar (p := .number chars) rfl h
  | text chars ws => exact holds_scalar (p := .closed chars ws) rfl h
  | closing brace => exact holds_closing h
  | key chars ws =>
    intro w hw
    subst hw
    match stack, h with
    | .object fields key :: rest, h => cases h
  | opening brace =>
    intro w hw
    subst hw
    cases brace <;> cases h
  | bad c => cases h

/-- The builder behind lexemes that are carried, and the end of the parse behind others. -/
theorem Opens.carried (h : Opens stack fs) (hs : Holds t stack last) (hc : Carried t fs xs) :
    ∃ stack', xs.foldlM (ValueBuilder.handleLexeme t) stack = .ok stack' ∧
    Opens stack' (xs.foldl openedBy fs) ∧
      Holds t stack' (xs.foldl (lastValue t) last) := by
  induction xs generalizing stack fs last with
  | nil => exact ⟨stack, rfl, h, hs⟩
  | cons x xs ih =>
    obtain ⟨hf, hx, hc⟩ := hc
    obtain ⟨stack₁, hstack, h₁⟩ := h.handleLexeme hf hx
    obtain ⟨stack', hrest, h', hs'⟩ := ih h₁ (hs.step hstack) hc
    refine ⟨stack', ?_, h', hs'⟩
    rw [List.foldlM_cons, hstack]
    exact hrest

theorem Opens.not_carried (h : Opens stack fs) (hc : ¬ Carried t fs xs) :
    ∃ e, xs.foldlM (ValueBuilder.handleLexeme t) stack = .error e := by
  induction xs generalizing stack fs with
  | nil => exact absurd trivial hc
  | cons x xs ih =>
    rw [List.foldlM_cons]
    cases hf : x.foreign with
    | true => exact ⟨_, by rw [handleLexeme_foreign hf]; rfl⟩
    | false =>
      by_cases hx : InPlace t fs x
      · obtain ⟨stack₁, hstack, h₁⟩ := h.handleLexeme hf hx
        obtain ⟨e, he⟩ := ih h₁ fun hrest => hc ⟨hf, hx, hrest⟩
        exact ⟨e, by rw [hstack]; exact he⟩
      · obtain ⟨e, he, -⟩ := h.handleLexeme_stray hf hx
        exact ⟨e, by rw [he]; rfl⟩

theorem Opens.getValue_open (h : Opens stack fs) (hfs : fs ≠ []) :
    ValueBuilder.getValue stack = .error (.failedToParse "value_builder::get_value()") := by
  cases h with
  | bottom v => exact absurd rfl hfs
  | array ys keyed h => cases h <;> rfl
  | object fields key h => cases h <;> rfl

/-! ## A space behind the text -/

/-- What a space behind the text completes. -/
def spaced : Pending → List Lexeme
  | .nothing => [.blank ' ']
  | .word chars => [.word chars, .blank ' ']
  | .number chars => [.number chars, .blank ' ']
  | .string _ | .closed _ _ => []

theorem continueLexeme_space (p : Pending) : (continueLexeme p ' ').1 = spaced p := by
  cases p <;> rfl

theorem lexemes_space (text : Str) :
    lexemes (text ++ [' ']) = lexemes text ++ spaced (lexFrom .nothing text).2 := by
  rw [lexemes, lexFrom_append, lexFrom, continueLexeme_space]
  simp [lexFrom, lexemes]

/-- White space does not change what the builder returns. -/
theorem foldlM_blank (c : Char) (x : Lexeme) (stack : ValueBuilder R) :
    ([x, .blank c].foldlM (handleLexeme t) stack).bind getValue =
      ([x].foldlM (handleLexeme t) stack).bind getValue := by
  rw [List.foldlM_cons, List.foldlM_cons]
  cases handleLexeme t stack x <;> rfl

/-- What becomes of a pending lexeme that is emitted inside of brackets. -/
theorem sameOutcome_inside (h : Opens stack fs) (hfs : fs ≠ []) (hx : p.scalar = some x)
    (what : String) :
    SameOutcome (.error (.failedToParse what)) (([x].foldlM (handleLexeme t) stack).bind getValue) ↔
      x.value t = none ∨ TakesValue fs := by
  rw [List.foldlM_cons]
  cases hv : x.value t with
  | none =>
    obtain ⟨e, he, hne⟩ := handleLexeme_no_value hx hv stack
    rw [he]
    exact iff_of_true (iff_of_false nofun hne) (.inl rfl)
  | some v =>
    rw [handleLexeme_value hv]
    by_cases ht : TakesValue fs
    · obtain ⟨stack', hstack, h'⟩ := h.handleValue v ht
      have hopen := h'.getValue_open
        (fun hnil => hfs (List.eq_nil_of_length_eq_zero (by rw [← fill_length, hnil]; rfl)))
      rw [hstack]
      refine iff_of_true ?_ (.inr ht)
      show SameOutcome _ (getValue stack')
      rw [hopen]
      exact iff_of_false nofun nofun
    · rw [h.handleValue_assertion v ht]
      refine iff_of_false ?_ (not_or.mpr ⟨nofun, ht⟩)
      intro hsame
      exact absurd (hsame.mpr rfl) nofun

/-- What becomes of one outside of all brackets. -/
theorem sameOutcome_outside (hs : Holds t [.value v] last) (hx : p.scalar = some x) :
    SameOutcome (.ok v) (([x].foldlM (handleLexeme t) [.value v]).bind getValue) ↔
    ∃ w, x.value t = some w ∧ last = some w := by
  rw [List.foldlM_cons]
  cases hv : x.value t with
  | none =>
    obtain ⟨e, he, -⟩ := handleLexeme_no_value hx hv [.value v]
    rw [he]
    exact iff_of_false id nofun
  | some w =>
    rw [handleLexeme_value hv]
    show v = w ↔ _
    constructor
    · rintro rfl
      rcases hs v rfl with hlast | ⟨-, hne⟩
      · exact ⟨v, rfl, hlast⟩
      · exact absurd hv (hne x)
    · rintro ⟨_, ⟨⟩, hlast⟩
      rcases hs v rfl with hlast' | ⟨hnone, -⟩
      · rw [hlast] at hlast'
        exact (Option.some.inj hlast').symm
      · rw [hlast] at hnone
        cases hnone

end

section
variable {t : RealText R} {fuel : Nat} {text : Str} {x : Lexeme} {p : Pending}
    {stack : ValueBuilder R}

theorem parse_parseWith (text : Str) : parse t (fuel + 2) text = parseWith t text [] := by
  rw [parse_lexemes, parseWith, List.append_nil]

theorem parse_space (text : Str) :
    parse t (fuel + 2) (text ++ [' ']) = parseWith t text (spaced (lexFrom .nothing text).2) := by
  rw [parse_lexemes, lexemes_space, parseWith]

theorem parseWith_carried (h : (lexemes text).foldlM (handleLexeme t) init = .ok stack)
    (ys : List Lexeme) :
    parseWith t text ys = (ys.foldlM (handleLexeme t) stack).bind getValue := by
  rw [parseWith, List.foldlM_append, h]
  rfl

/-- A parse that ends at a lexeme before the end of the text. -/
theorem parseWith_not_carried (hc : ¬ Carried t [] (lexemes text)) (xs ys : List Lexeme) :
    SameOutcome (parseWith t text xs) (parseWith t text ys) := by
  obtain ⟨e, he⟩ := (Opens.bottom .null).not_carried hc
  simp only [parseWith, List.foldlM_append, init, he]
  exact Iff.rfl

/-- A space behind the text does nothing, or it has the pending lexeme emitted. -/
theorem space_iff (hx : (lexFrom .nothing text).2.scalar = some x)
    (h : (lexemes text).foldlM (handleLexeme t) init = .ok stack) :
    SameOutcome (parseWith t text []) (parseWith t text (spaced (lexFrom .nothing text).2)) ↔
      x.quoted = true ∨ SameOutcome (parseWith t text []) (parseWith t text [x]) := by
  have hblank : parseWith t text [x, .blank ' '] = parseWith t text [x] := by
    rw [parseWith_carried h, parseWith_carried h, foldlM_blank]
  cases hp : (lexFrom .nothing text).2 with
  | nothing | string chars =>
    rw [hp] at hx
    cases hx
  | closed chars ws =>
    rw [hp] at hx
    cases hx
    exact iff_of_true (.refl _) (.inl rfl)
  | word chars | number chars =>
    rw [hp] at hx
    cases hx
    rw [spaced, hblank]
    exact (or_iff_right nofun).symm

/-- Nothing is pending that the end of the text completes. -/
theorem space_nothing (hx : (lexFrom .nothing text).2.scalar = none) :
    SameOutcome (parseWith t text []) (parseWith t text (spaced (lexFrom .nothing text).2)) := by
  cases hp : (lexFrom .nothing text).2 with
  | nothing =>
    simp only [parseWith, List.foldlM_append]
    cases (lexemes text).foldlM (handleLexeme t) init with
    | error e => exact .refl _
    | ok stack => exact .refl _
  | string chars => exact .refl _
  | word chars | number chars | closed chars ws =>
    rw [hp] at hx
    cases hx

theorem holds_init : Holds t init (some .null) := by
  intro v hv
  cases hv
  exact .inl rfl

/-- What is pending behind lexemes that are carried. -/
theorem idle_iff (hx : p.scalar = some x)
    (hstack : (lexemes text).foldlM (handleLexeme t) init = .ok stack)
    (hopens : Opens stack (opened (lexemes text)))
    (hholds : Holds t stack (held t (lexemes text))) :
    (x.quoted = true ∨ SameOutcome (parseWith t text []) (parseWith t text [x])) ∧
        (∀ y, some x = some y → opened (lexemes text) = [] →
          SameOutcome (parseWith t text []) (parseWith t text [y])) ↔
      Idle t (lexemes text) x := by
  have hend : parseWith t text [] = getValue stack := parseWith_carried hstack []
  rw [parseWith_carried hstack [x], hend]
  by_cases hfs : opened (lexemes text) = []
  · rw [hfs] at hopens
    cases hopens with
    | bottom v =>
      have hout := sameOutcome_outside hholds hx
      constructor
      · intro ⟨_, hkept⟩
        have hsame := hkept x rfl hfs
        rw [parseWith_carried hstack [x]] at hsame
        exact ⟨fun _ => hout.mp hsame, fun hne => absurd hfs hne⟩
      · intro hidle
        have hsame := hout.mpr (hidle.1 hfs)
        refine ⟨.inr hsame, ?_⟩
        rintro _ ⟨⟩ -
        rw [parseWith_carried hstack [x]]
        exact hsame
  · rw [hopens.getValue_open hfs, sameOutcome_inside hopens hfs hx]
    constructor
    · intro ⟨h, _⟩
      exact ⟨fun hnil => absurd hnil hfs, fun _ => h⟩
    · intro hidle
      exact ⟨hidle.2 hfs, fun _ _ hnil => absurd hnil hfs⟩

/-- A text and the text with a space behind it have the same outcome, and the end of the text keeps
what is pending outside of all brackets, if and only if the parse ends before or what is pending
makes no difference. -/
theorem parse_space_iff (t : RealText R) (fuel : Nat) (text : Str) :
    SameOutcome (parse t (fuel + 2) text) (parse t (fuel + 2) (text ++ [' '])) ∧
    Kept t (fuel + 2) text ↔ Settled t text := by
  rw [Kept, parse_space, parse_parseWith]
  cases hx : (lexFrom .nothing text).2.scalar with
  | none =>
    refine iff_of_true ⟨space_nothing hx, nofun⟩ ?_
    intro _ x hsome
    rw [hx] at hsome
    cases hsome
  | some x =>
    by_cases hc : Carried t [] (lexemes text)
    · obtain ⟨stack, hstack, hopens, hholds⟩ := (Opens.bottom .null).carried holds_init hc
      rw [space_iff hx hstack]
      have hidle : Settled t text ↔ Idle t (lexemes text) x := by
        constructor
        · intro h
          exact h hc x hx
        · intro h _ y hy
          rw [hx] at hy
          cases hy
          exact h
      rw [hidle]
      exact idle_iff hx hstack hopens hholds
    · refine iff_of_true ⟨?_, ?_⟩ fun hcarried => absurd hcarried hc
      · exact parseWith_not_carried hc _ _
      · exact fun y _ _ => parseWith_not_carried hc _ _

end

/-- The number is lost, and a space behind it saves it. -/
theorem lone_number_lost :
    ¬ SameOutcome (parse wholeNumbers 2 ['1']) (parse wholeNumbers 2 (['1'] ++ [' '])) := by
  have hlost : parse wholeNumbers 2 ['1'] = .ok .null := rfl
  have hspace : parse wholeNumbers 2 (['1'] ++ [' ']) = .ok (.integer 1) := rfl
  rw [hlost, hspace]
  exact nofun

end Gpcl.Json
