import Gpcl.Json.Accepts
import Gpcl.Json.EndOfText

/-! # What documents mean

The grammar again, with the value of each text: strings without escapes, and numbers that are
digits, perhaps with a point. The parser returns that value for every array and every object, with
any white space in and around it. -/
namespace Gpcl.Json
open ValueBuilder

variable {R : Type}

/-- The value that the entries between two brackets make. The first of two entries with one key is
kept. -/
def container (brace : Bool) (es : List (Str × Json R)) : Json R :=
  if brace then .object (es.foldl (fun fields e => insertKey e.1 e.2 fields) [])
    else .array (es.map Prod.snd)

/-- The entries that a text stands for. A value, and an element of an array, is one entry without a
key. -/
inductive Denotes (t : RealText R) : Symbol → Str → List (Str × Json R) → Prop
  | literal {s : Str} {v : Json R} : isLiteral s = true → (Lexeme.word s).value t = some v →
    Denotes t .value s [([], v)]
  | number {s : Str} {v : Json R} : Number s → (∀ c ∈ s, (c.isDigit || c == '.') = true) →
    (Lexeme.number s).value t = some v → Denotes t .value s [([], v)]
  | string {s : Str} : StringBody s → Unescaped s →
    Denotes t .value ('"' :: (s ++ ['"'])) [([], .string s)]
  | empty {w : Str} (brace : Bool) : Spaces w →
    Denotes t .value (leftBracket brace :: (w ++ [rightBracket brace])) [([], container brace [])]
  | brackets {s : Str} {es : List (Str × Json R)} (brace : Bool) : Denotes t (.items brace) s es →
    Denotes t .value (leftBracket brace :: (s ++ [rightBracket brace])) [([], container brace es)]
  | element {w s w' : Str} {v : Json R} : Spaces w → Denotes t .value s [([], v)] → Spaces w' →
    Denotes t (.item false) (w ++ (s ++ w')) [([], v)]
  | member {w k w' s : Str} {v : Json R} : Spaces w → StringBody k → Unescaped k →
    k ≠ [] → Spaces w' → Denotes t (.item false) s [([], v)] →
    Denotes t (.item true) (w ++ '"' :: (k ++ '"' :: (w' ++ ':' :: s))) [(k, v)]
  | one {brace : Bool} {s : Str} {es : List (Str × Json R)} : Denotes t (.item brace) s es →
    Denotes t (.items brace) s es
  | more {brace : Bool} {s i : Str} {es fs : List (Str × Json R)} : Denotes t (.items brace) s es →
    Denotes t (.item brace) i fs →
    Denotes t (.items brace) (s ++ ',' :: i) (es ++ fs)

/-- What the builder has of a container whose entries have been these so far. -/
def context (brace : Bool) (es : List (Str × Json R)) : Context R :=
  if brace then .object (es.foldl (fun fields e => insertKey e.1 e.2 fields) []) []
    else .array (es.map Prod.snd)

/-- The builder handles the value when it is given the lexemes of the text. -/
structure Given (t : RealText R) (s : Str) (v : Json R) : Prop where
  closed : Closed s
  fold : ∀ stack, (tokens s).foldlM (handleLexeme t) stack = handleValue v stack
  complete : isContainer v = true → (lexFrom .nothing s).2 = .nothing

/-- Given the lexemes of the text inside brackets, the builder has these entries more. -/
structure Entered (t : RealText R) (brace : Bool) (s : Str) (es : List (Str × Json R)) : Prop where
  closed : Closed s
  fold : ∀ before stack,
    (tokens s).foldlM (handleLexeme t) (context brace before :: stack) =
      .ok (context brace (before ++ es) :: stack)

def Built (t : RealText R) : Symbol → Str → List (Str × Json R) → Prop
  | .value, s, es => ∃ v, es = [([], v)] ∧ ∀ w, Spaces w → Given t (s ++ w) v
  | .item false, s, es => ∃ v, es = [([], v)] ∧ Given t s v
  | .item true, s, es => Entered t true s es
  | .items brace, s, es => Entered t brace s es

variable {t : RealText R} {s i u w k : Str} {v : Json R} {brace : Bool} {x : Lexeme}
  {ys : List Lexeme} {es fs : List (Str × Json R)}
  {stack stack' : ValueBuilder R} {symbol : Symbol} {p : Pending}

theorem Denotes.derives (h : Denotes t symbol s es) : Derives symbol s := by
  induction h with
  | literal hs _ => exact .literal hs
  | number hs _ _ => exact .number hs
  | string hs _ => exact .string hs
  | empty brace hw => exact .empty brace hw
  | brackets brace _ ih => exact .brackets brace ih
  | element hw _ hw' ih => exact .element hw ih hw'
  | member hw hk _ _ hw' _ ih => exact .member hw hk hw' ih
  | one _ ih => exact .one ih
  | more _ _ ihs ihi => exact .more ihs ihi

/-! ## One lexeme -/

theorem foldlM_blanks (w : Str) (stack : ValueBuilder R) :
    (w.map Lexeme.blank).foldlM (handleLexeme t) stack = .ok stack := by
  induction w with
  | nil => rfl
  | cons c w ih => exact ih

theorem foldlM_value (h : handleLexeme t stack x = handleValue v stack') (w : Str) :
    (x :: w.map Lexeme.blank).foldlM (handleLexeme t) stack = handleValue v stack' := by
  rw [List.foldlM_cons, h]
  cases handleValue v stack' with
  | error e => rfl
  | ok stack => exact foldlM_blanks w stack

theorem not_container (h : x.value t = some v) : isContainer v ≠ true := by
  obtain ⟨harray, hobject⟩ := x.value_ne (t := t)
  cases v with
  | array ys => exact absurd h (harray ys)
  | object fields => exact absurd h (hobject fields)
  | _ => exact nofun

/-- A lexeme that is no string, with white space behind it. -/
theorem given_plain (hs : lexFrom .nothing s = ([], p)) (hp : p.plain = true)
    (hx : p.complete = [x]) (hv : x.value t = some v)
    (hw : Spaces w) : Given t (s ++ w) v := by
  obtain ⟨hclosed, htokens⟩ := lexed_plain (by rw [hs]; exact hp) hw
  refine ⟨hclosed, fun stack => ?_, fun hcontainer => absurd hcontainer (not_container hv)⟩
  rw [htokens, tokens, tokensFrom, hs, hx]
  exact foldlM_value (handleLexeme_value hv stack) w

theorem given_string (hk : '"' ∉ k) (hw : Spaces w) :
    Given t ('"' :: (k ++ ['"']) ++ w) (.string k) := by
  have hlex := lexFrom_text hk hw
  refine ⟨?_, fun stack => ?_, nofun⟩
  · intro chars
    rw [hlex]
    exact nofun
  · rw [tokens, tokensFrom, hlex]
    exact foldlM_value (x := .text k w) rfl []

theorem lexFrom_digits (hn : Number s) (h : ∀ c ∈ s, (c.isDigit || c == '.') = true) :
    lexFrom .nothing s = ([], .number s) := by
  obtain ⟨sign, whole, fraction, exponent, hsign, hwhole, hfraction, hexponent, rfl⟩ := hn
  have hnosign : sign = [] := hsign.resolve_right fun hminus => by
    have hc := h '-' (by simp [hminus])
    exact absurd hc (by decide)
  have hnoexponent : exponent = [] := hexponent.resolve_right fun ⟨e, sign', d, he, _, _, heq⟩ => by
    have hc := h e (by simp [heq])
    obtain rfl | rfl := he
    all_goals exact absurd hc (by decide)
  subst hnosign hnoexponent
  have hmantissa := lexFrom_mantissa hwhole hfraction []
  rw [List.append_nil] at hmantissa
  rw [List.nil_append, List.append_nil, hmantissa]
  rfl

/-! ## Brackets -/

theorem fold_after (hu : Lexes u ys) (s : Str) (stack : ValueBuilder R) :
    (tokens (u ++ s)).foldlM (handleLexeme t) stack =
      (ys.foldlM (handleLexeme t) stack).bind fun stack =>
        (tokens s).foldlM (handleLexeme t) stack := by
  rw [hu.tokens, List.foldlM_append]
  rfl

theorem given_brackets (h : Entered t brace s es) (hw : Spaces w) :
    Given t (leftBracket brace :: (s ++ [rightBracket brace]) ++ w) (container brace es) := by
  have hlexes :=
    ((lexes_leftBracket brace).append (h.closed.lexes (.closing brace))).append (lexes_spaces hw)
  have hassoc : leftBracket brace :: (s ++ [rightBracket brace]) ++ w =
      [leftBracket brace] ++ (s ++ [rightBracket brace]) ++ w ++ [] := by
    simp
  have hopening : ∀ stack : ValueBuilder R,
      handleLexeme t stack (.opening brace) = .ok (context brace [] :: stack) := by
    cases brace <;> exact fun stack => rfl
  have hclosing : ∀ stack, handleLexeme t (context brace es :: stack) (.closing brace) =
      handleValue (container brace es) stack := by
    cases brace <;> exact fun stack => rfl
  have hnil : Closed [] := nofun
  rw [hassoc]
  refine ⟨hlexes.closed hnil, fun stack => ?_, fun _ => by rw [hlexes]; rfl⟩
  rw [hlexes.tokens, show tokens [] = [] from rfl, List.append_nil, List.append_assoc,
    List.singleton_append, List.foldlM_cons, hopening]
  change (tokens s ++ [Lexeme.closing brace] ++ w.map Lexeme.blank).foldlM (handleLexeme t)
    (context brace [] :: stack) = _
  rw [List.append_assoc, List.foldlM_append, h.fold]
  exact foldlM_value (hclosing stack) w

theorem entered_spaces (hw : Spaces w) : Entered t brace w [] := by
  have hlexes := lexes_spaces hw
  have hnil : Closed [] := nofun
  have hclosed := hlexes.closed hnil
  have htokens := hlexes.tokens []
  rw [List.append_nil] at hclosed htokens
  refine ⟨hclosed, fun before stack => ?_⟩
  rw [htokens, show tokens [] = [] from rfl, List.append_nil, List.append_nil]
  exact foldlM_blanks w _

/-! ## Along the grammar -/

theorem Given.space (h : Given t s v) (hw : Spaces w) : Given t (w ++ s) v := by
  have hlexes := lexes_spaces hw
  refine ⟨hlexes.closed h.closed, fun stack => ?_, fun hv => ?_⟩
  · rw [fold_after hlexes, foldlM_blanks]
    exact h.fold stack
  · rw [hlexes]
    exact h.complete hv

theorem Given.entered (h : Given t s v) : Entered t false s [([], v)] := by
  refine ⟨h.closed, fun before stack => ?_⟩
  rw [h.fold]
  simp [context, handleValue]

theorem Built.entered (h : Built t (.item brace) s es) : Entered t brace s es := by
  cases brace with
  | true => exact h
  | false =>
    obtain ⟨v, rfl, h⟩ := h
    exact h.entered

theorem Given.member {w' : Str} (h : Given t s v) (hw : Spaces w) (hk : Unescaped k) (hne : k ≠ [])
    (hw' : Spaces w') :
    Entered t true (w ++ '"' :: (k ++ '"' :: (w' ++ ':' :: s))) [(k, v)] := by
  have hkey := (lexes_spaces hw).append (lexes_key (fun hmem => (hk _ hmem).1 rfl) hw')
  have hassoc : w ++ '"' :: (k ++ '"' :: (w' ++ ':' :: s)) =
      w ++ '"' :: (k ++ '"' :: (w' ++ [':'])) ++ s := by simp
  rw [hassoc]
  refine ⟨hkey.closed h.closed, fun before stack => ?_⟩
  rw [fold_after hkey, List.foldlM_append, foldlM_blanks]
  change (tokens s).foldlM (handleLexeme t)
    (.object (before.foldl (fun fields e => insertKey e.1 e.2 fields) []) k :: stack) = _
  rw [h.fold, handleValue, if_neg hne, context, if_pos rfl, List.foldl_append]
  rfl

theorem Entered.more (hs : Entered t brace s es) (hi : Entered t brace i fs) :
    Entered t brace (s ++ ',' :: i) (es ++ fs) := by
  have hlexes := hs.closed.lexes .comma
  have hassoc : s ++ ',' :: i = s ++ [','] ++ i := by simp
  rw [hassoc]
  refine ⟨hlexes.closed hi.closed, fun before stack => ?_⟩
  rw [fold_after hlexes, List.foldlM_append, hs.fold]
  change (tokens i).foldlM (handleLexeme t) (context brace (before ++ es) :: stack) = _
  rw [hi.fold, List.append_assoc]

theorem Denotes.built (h : Denotes t symbol s es) : Built t symbol s es := by
  induction h with
  | literal hs hv => exact ⟨_, rfl, fun w hw => given_plain (lexFrom_literal hs) rfl rfl hv hw⟩
  | number hn hdigits hv =>
    exact ⟨_, rfl, fun w hw => given_plain (lexFrom_digits hn hdigits) rfl rfl hv hw⟩
  | string _ hs => exact ⟨_, rfl, fun w hw => given_string (fun hq => (hs _ hq).1 rfl) hw⟩
  | empty brace hw => exact ⟨_, rfl, fun w' hw' => given_brackets (entered_spaces hw) hw'⟩
  | brackets brace _ ih => exact ⟨_, rfl, fun w hw => given_brackets ih hw⟩
  | element hw _ hw' ih =>
    obtain ⟨v, heq, ih⟩ := ih
    cases heq
    exact ⟨_, rfl, (ih _ hw').space hw⟩
  | member hw _ hk hne hw' _ ih =>
    obtain ⟨v, heq, ih⟩ := ih
    cases heq
    exact ih.member hw hk hne hw'
  | one _ ih => exact Built.entered ih
  | more _ _ ihs ihi => exact Entered.more ihs (Built.entered ihi)

/-- A text that denotes an array or an object is a document, and the parser returns what it
denotes. -/
theorem parse_denoted (t : RealText R) (fuel : Nat) (h : Denotes t (.item false) s [([], v)])
    (hv : isContainer v = true) :
    WellFormed s ∧ parse t (fuel + 2) s = .ok v := by
  obtain ⟨v', heq, hgiven⟩ := h.built
  cases heq
  have hlexemes : lexemes s = tokens s := by
    rw [tokens, tokensFrom, hgiven.complete hv, lexemes]
    exact (List.append_nil _).symm
  refine ⟨h.derives, ?_⟩
  rw [parse_lexemes, hlexemes, hgiven.fold]
  rfl

theorem parse_denoted_arrays :
    parse wholeNumbers 2 "[1, [true] ]".toList =
      .ok (.array [.integer 1, .array [.boolean true]]) := by
  have hspace : Spaces [' '] := by simp [Spaces, isJsonSpace]
  have hdigits : ∀ c ∈ ['1'], (c.isDigit || c == '.') = true := fun c hc => by
    rw [List.mem_singleton.mp hc]
    rfl
  have hone : Denotes wholeNumbers .value ['1'] [([], .integer 1)] :=
    .number (number_digit rfl (by decide)) hdigits rfl
  have htrue : Denotes wholeNumbers .value "true".toList [([], .boolean true)] := .literal rfl rfl
  have hinner := Denotes.brackets false (.one (.element spaces_nil htrue spaces_nil))
  have hitems := (Denotes.one (.element spaces_nil hone spaces_nil)).more
    (.element hspace hinner hspace)
  have houter := Denotes.brackets false hitems
  exact (parse_denoted wholeNumbers 0 (.element spaces_nil houter spaces_nil) rfl).2

end Gpcl.Json
