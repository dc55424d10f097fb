import Gpcl.Json.Parser

/-! # The lexemes of a text

A text is cut into lexemes without regard to what stands where. The parser is a fold of its visitor
over the lexemes, with the `value_builder` as one such visitor; what is still pending at the end of
the text has no effect. -/
namespace Gpcl.Json

variable {R σ : Type}

inductive Lexeme
  -- a white space character that does not follow a string
  | blank (c : Char)
  | comma
  | word (chars : Str)
  | number (chars : Str)
  -- a string that is not followed by a colon, and the white space behind it
  | text (chars ws : Str)
  -- a string, white space and a colon
  | key (chars ws : Str)
  | opening (brace : Bool)
  | closing (brace : Bool)
  -- a character that starts no lexeme
  | bad (c : Char)
  deriving DecidableEq

/-- A lexeme that is not complete. -/
inductive Pending
  | nothing
  | word (chars : Str)
  | number (chars : Str)
  -- a string before its second quote, and behind it
  | string (chars : Str)
  | closed (chars ws : Str)
  deriving DecidableEq

/-- The first character of a lexeme. -/
def startLexeme (c : Char) : List Lexeme × Pending :=
  if isspace c then ([.blank c], .nothing)
  else if c.isAlpha then ([], .word [c])
  else if c.isDigit || c == '+' then ([], .number [c])
  else if c = '"' then ([], .string [])
  else if c = '[' then ([.opening false], .nothing)
  else if c = ',' then ([.comma], .nothing)
  else if c = ']' then ([.closing false], .nothing)
  else if c = '\x7b' then ([.opening true], .nothing)
  else if c = '\x7d' then ([.closing true], .nothing)
  else ([.bad c], .nothing)

/-- The next character of a lexeme, or the first one behind it. -/
def continueLexeme (p : Pending) (c : Char) : List Lexeme × Pending :=
  match p with
  | .nothing => startLexeme c
  | .word chars =>
    if c.isAlphanum then ([], .word (chars ++ [c]))
      else (.word chars :: (startLexeme c).1, (startLexeme c).2)
  | .number chars =>
    if c.isDigit || c == '.' then ([], .number (chars ++ [c]))
      else (.number chars :: (startLexeme c).1, (startLexeme c).2)
  | .string chars => if c = '"' then ([], .closed chars []) else ([], .string (chars ++ [c]))
  | .closed chars ws =>
    if isspace c then ([], .closed chars (ws ++ [c]))
    else if c = ':' then ([.key chars ws], .nothing)
    else (.text chars ws :: (startLexeme c).1, (startLexeme c).2)

/-- The lexemes of a text behind a pending one, and what is pending at its end. -/
def lexFrom : Pending → Str → List Lexeme × Pending
  | p, [] => ([], p)
  | p, c :: text =>
    ((continueLexeme p c).1 ++ (lexFrom (continueLexeme p c).2 text).1,
      (lexFrom (continueLexeme p c).2 text).2)

def lexemes (text : Str) : List Lexeme := (lexFrom .nothing text).1

theorem lexFrom_append (p : Pending) (s s' : Str) :
    lexFrom p (s ++ s') = ((lexFrom p s).1 ++ (lexFrom (lexFrom p s).2 s').1,
      (lexFrom (lexFrom p s).2 s').2) := by
  induction s generalizing p with
  | nil => rfl
  | cons c s ih =>
    rw [List.cons_append, lexFrom, ih]
    simp [lexFrom]

/-- A string up to its second quote. -/
theorem lexFrom_string {k : Str} (hk : '"' ∉ k) (chars s : Str) :
    lexFrom (.string chars) (k ++ '"' :: s) = lexFrom (.closed (chars ++ k) []) s := by
  induction k generalizing chars with
  | nil => simp [lexFrom, continueLexeme]
  | cons c k ih =>
    have hc : c ≠ '"' := fun h => hk (by simp [h])
    have hk : '"' ∉ k := fun h => hk (by simp [h])
    rw [List.cons_append, lexFrom, continueLexeme, if_neg hc, ih hk]
    simp

theorem lexFrom_quote (s : Str) : lexFrom .nothing ('"' :: s) = lexFrom (.string []) s := rfl

/-- The state of the parser in which the lexeme is pending. -/
def Pending.state : Pending → ParsingState
  | .nothing => .indeterminate
  | .word chars => .parsingLiteral chars
  | .number chars => .parsingNumber chars
  | .string chars => .parsingString chars false
  | .closed chars _ => .parsingString chars true

namespace ValueBuilder

/-- What the builder does with a lexeme. -/
def handleLexeme (t : RealText R) (stack : ValueBuilder R) : Lexeme → Except Error (ValueBuilder R)
  | .blank _ | .comma => .ok stack
  | .word chars => handleEvent stack (Parser.literalEvent chars)
  | .number chars => do handleEvent stack (← Parser.numberEvent t chars)
  | .text chars _ => handleEvent stack (.stringEvent chars)
  | .key chars _ => handleEvent stack (.objectKeyEvent chars)
  | .opening brace => handleEvent stack (if brace then .startObjectEvent else .startArrayEvent)
  | .closing brace => handleEvent stack (if brace then .endObjectEvent else .endArrayEvent)
  | .bad _ => handleEvent stack .errorEvent

end ValueBuilder

open ValueBuilder

/-- What the parser makes of the lexemes that a character completes. -/
def handleLexemes (t : RealText R) (r : List Lexeme × Pending) (stack : ValueBuilder R) :
    Except Error (ParsingState × ValueBuilder R) :=
  do return (r.2.state, ← r.1.foldlM (handleLexeme t) stack)

/-- What a visitor does with a lexeme. A character that starts none is offered for ever, unless the
visitor throws. -/
def visitLexeme (t : RealText R) (visit : Visitor R σ) (v : σ) : Lexeme → Except Error σ
  | .blank _ | .comma => .ok v
  | .word chars => visit v (Parser.literalEvent chars)
  | .number chars => do visit v (← Parser.numberEvent t chars)
  | .text chars _ => visit v (.stringEvent chars)
  | .key chars _ => visit v (.objectKeyEvent chars)
  | .opening brace => visit v (if brace then .startObjectEvent else .startArrayEvent)
  | .closing brace => visit v (if brace then .endObjectEvent else .endArrayEvent)
  | .bad _ => do
    let _ ← visit v .errorEvent
    .error .outOfFuel

def visitLexemes (t : RealText R) (visit : Visitor R σ) (r : List Lexeme × Pending) (v : σ) :
    Except Error (ParsingState × σ) := do return (r.2.state, ← r.1.foldlM (visitLexeme t visit) v)

/-- The visitor throws at every error event, or at none. -/
def Steady (visit : Visitor R σ) : Prop :=
  (∀ v, ∃ e, visit v .errorEvent = .error e) ∨ ∀ v, ∃ v', visit v .errorEvent = .ok v'

section
variable {t : RealText R} {visit : Visitor R σ} {c : Char} {v : σ} {fuel : Nat}

/-- The indeterminate state consumes a character unless that starts no lexeme. -/
theorem putIndeterminate_start (t : RealText R) (visit : Visitor R σ) (c : Char) :
    (startLexeme c = ([.bad c], .nothing) ∧
      ∀ v, Parser.putIndeterminate visit c v = (visit v .errorEvent).map fun v =>
        ⟨false, .indeterminate, v⟩) ∨
    ∀ v, Parser.putIndeterminate visit c v =
      ((startLexeme c).1.foldlM (visitLexeme t visit) v).map fun v =>
        ⟨true, (startLexeme c).2.state, v⟩ := by
  unfold Parser.putIndeterminate startLexeme
  by_cases hspace : isspace c
  · simp only [hspace, if_true]
    exact .inr fun v => rfl
  by_cases halpha : c.isAlpha
  · simp only [hspace, halpha, if_true, if_false, Bool.false_eq_true]
    exact .inr fun v => rfl
  by_cases hnumber : c.isDigit || c == '+'
  · simp only [hspace, halpha, hnumber, Bool.true_or, if_true, if_false, Bool.false_eq_true]
    exact .inr fun v => rfl
  obtain ⟨hdigit, hplus⟩ : c.isDigit = false ∧ (c == '+') = false := by
    simpa only [Bool.or_eq_true, not_or, Bool.not_eq_true] using hnumber
  simp only [hspace, halpha, hdigit, hplus, if_false, Bool.false_eq_true, Bool.or_false]
  have hevent (v : σ) (e : Event R) :
      (do return ⟨true, .indeterminate, ← visit v e⟩ : Except Error (Offer σ)) =
      ((visit v e).bind fun v => .ok v).map fun v => ⟨true, .indeterminate, v⟩ := by
    cases visit v e with
    | error e => rfl
    | ok v => rfl
  by_cases hquote : c = '"'
  · subst hquote
    exact .inr fun v => rfl
  by_cases harray : c = '['
  · subst harray
    exact .inr fun v => hevent v .startArrayEvent
  by_cases hcomma : c = ','
  · subst hcomma
    exact .inr fun v => rfl
  by_cases hend : c = ']'
  · subst hend
    exact .inr fun v => hevent v .endArrayEvent
  by_cases hobject : c = '\x7b'
  · subst hobject
    exact .inr fun v => hevent v .startObjectEvent
  by_cases hclose : c = '\x7d'
  · subst hclose
    exact .inr fun v => hevent v .endObjectEvent
  simp only [hquote, harray, hcomma, hend, hobject, hclose, if_false]
  exact .inl ⟨trivial, fun v => rfl⟩

/-- A character that starts no lexeme is never consumed. -/
theorem putChar_endless
    (hbad : ∀ v, Parser.putIndeterminate visit c v = (visit v .errorEvent).map fun v =>
      ⟨false, .indeterminate, v⟩)
    (hok : ∀ v, ∃ v', visit v .errorEvent = .ok v') : ∀ (fuel : Nat) (v : σ),
    Parser.putChar t visit c fuel .indeterminate v = .error .outOfFuel
  | 0, _ => rfl
  | fuel + 1, v => by
    obtain ⟨v', hv⟩ := hok v
    have hput : Parser.putState t visit c v .indeterminate = .ok ⟨false, .indeterminate, v'⟩ := by
      rw [Parser.putState, hbad, hv]
      rfl
    rw [Parser.putChar, hput]
    exact putChar_endless hbad hok fuel v'

/-- The first character of a lexeme is consumed at once. -/
theorem putChar_start (hs : Steady visit) (v : σ) :
    Parser.putChar t visit c (fuel + 1) .indeterminate v =
      visitLexemes t visit (startLexeme c) v := by
  obtain ⟨hstart, hbad⟩ | hput := putIndeterminate_start t visit c
  · rw [hstart]
    rcases hs with hthrow | hok
    · obtain ⟨e, he⟩ := hthrow v
      rw [Parser.putChar, Parser.putState, hbad, he]
      simp [visitLexemes, visitLexeme, he]
      rfl
    · obtain ⟨v', hv⟩ := hok v
      rw [putChar_endless hbad hok]
      simp [visitLexemes, visitLexeme, hv]
      rfl
  · rw [Parser.putChar, Parser.putState, hput, visitLexemes]
    cases (startLexeme c).1.foldlM (visitLexeme t visit) v with
    | error e => rfl
    | ok v => rfl

theorem visitLexemes_cons (x : Lexeme) (xs : List Lexeme) (p : Pending) :
    visitLexemes t visit (x :: xs, p) v = (visitLexeme t visit v x).bind fun v =>
      visitLexemes t visit (xs, p) v := by
  rw [visitLexemes, List.foldlM_cons]
  cases visitLexeme t visit v x with
  | error e => rfl
  | ok v => rfl

/-- A lexeme ends with the first character behind it, which is then offered again. -/
theorem putChar_again (hs : Steady visit) {st : ParsingState} {x : Lexeme}
    (h : Parser.putState t visit c v st = (visitLexeme t visit v x).map fun v =>
      ⟨false, .indeterminate, v⟩) :
    Parser.putChar t visit c (fuel + 2) st v =
      visitLexemes t visit (x :: (startLexeme c).1, (startLexeme c).2) v := by
  rw [visitLexemes_cons, Parser.putChar, h]
  cases visitLexeme t visit v x with
  | error e => rfl
  | ok v => exact putChar_start hs v

/-- A character that the state consumes. -/
theorem putChar_taken {st st' : ParsingState}
    (h : Parser.putState t visit c v st = .ok ⟨true, st', v⟩) :
    Parser.putChar t visit c (fuel + 1) st v = .ok (st', v) := by
  rw [Parser.putChar, h]
  rfl

theorem putChar_lexemes (hs : Steady visit) (p : Pending) (v : σ) :
    Parser.putChar t visit c (fuel + 2) p.state v =
      visitLexemes t visit (continueLexeme p c) v := by
  cases p with
  | nothing => exact putChar_start hs v
  | word chars =>
    simp only [continueLexeme]
    split
    · next hc =>
      refine putChar_taken ?_
      simp only [Pending.state, Parser.putState, Parser.putLiteral, hc, if_true]
    · next hc =>
      refine putChar_again hs ?_
      simp only [Pending.state, Parser.putState, Parser.putLiteral, hc, visitLexeme]
      rfl
  | number chars =>
    simp only [continueLexeme]
    split
    · next hc =>
      refine putChar_taken ?_
      simp only [Pending.state, Parser.putState, Parser.putNumber, hc, if_true]
    · next hc =>
      refine putChar_again hs ?_
      simp only [Pending.state, Parser.putState, Parser.putNumber, hc, visitLexeme]
      cases Parser.numberEvent t chars with
      | error e => rfl
      | ok e => rfl
  | string chars =>
    simp only [continueLexeme]
    split
    · next hc =>
      refine putChar_taken ?_
      simp [Pending.state, Parser.putState, Parser.putString, hc]
    · next hc =>
      refine putChar_taken ?_
      simp [Pending.state, Parser.putState, Parser.putString, hc]
  | closed chars ws =>
    simp only [continueLexeme]
    split
    · next hc =>
      refine putChar_taken ?_
      simp [Pending.state, Parser.putState, Parser.putString, hc]
    · next hspace =>
      split
      · next hc =>
        subst hc
        rw [visitLexemes_cons, visitLexeme, Parser.putChar]
        simp only [Pending.state, Parser.putState, Parser.putString]
        cases visit v (.objectKeyEvent chars) with
        | error e => rfl
        | ok v => rfl
      · next hc =>
        refine putChar_again hs ?_
        simp only [Pending.state, Parser.putState, Parser.putString, hspace, hc, visitLexeme]
        rfl

theorem visitLexemes_append (xs ys : List Lexeme) (p : Pending) (v : σ) :
    visitLexemes t visit (xs ++ ys, p) v = (xs.foldlM (visitLexeme t visit) v).bind fun v =>
      visitLexemes t visit (ys, p) v := by
  rw [visitLexemes, List.foldlM_append]
  cases xs.foldlM (visitLexeme t visit) v with
  | error e => rfl
  | ok v => rfl

/-- Parsing is a fold of the visitor over the lexemes. -/
theorem put_lexemes (hs : Steady visit) (text : Str) (p : Pending) (v : σ) :
    Parser.put t visit (fuel + 2) text p.state v = visitLexemes t visit (lexFrom p text) v := by
  induction text generalizing p v with
  | nil => rfl
  | cons c text ih =>
    rw [Parser.put, putChar_lexemes hs, lexFrom, visitLexemes_append, visitLexemes]
    cases (continueLexeme p c).1.foldlM (visitLexeme t visit) v with
    | error e => rfl
    | ok v => exact ih _ _

end

/-! ## The builder -/

section
variable {t : RealText R} {fuel : Nat}

theorem steady_handleEvent : Steady (handleEvent (R := R)) := .inl fun _ => ⟨_, rfl⟩

theorem visitLexeme_handleEvent (t : RealText R) : visitLexeme t handleEvent = handleLexeme t := by
  funext stack x
  cases x <;> rfl

theorem put_handleLexemes (text : Str) (p : Pending) (stack : ValueBuilder R) :
    Parser.put t handleEvent (fuel + 2) text p.state stack =
      handleLexemes t (lexFrom p text) stack := by
  rw [put_lexemes steady_handleEvent, visitLexemes, visitLexeme_handleEvent, handleLexemes]

/-- Parsing is a fold over the lexemes. -/
theorem parse_lexemes (text : Str) :
    parse t (fuel + 2) text = ((lexemes text).foldlM (handleLexeme t) init).bind getValue := by
  have hput :
      Parser.put t handleEvent (fuel + 2) text .indeterminate init =
        handleLexemes t (lexFrom .nothing text) init :=
    put_handleLexemes text .nothing init
  rw [parse, hput, handleLexemes, lexemes]
  cases (lexFrom .nothing text).1.foldlM (handleLexeme t) init with
  | error e => rfl
  | ok v => rfl

end

end Gpcl.Json
