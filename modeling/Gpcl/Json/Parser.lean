import Gpcl.Json.Text

/-! # Parsing

`parser`, a machine over characters that emits events, and `value_builder`, the visitor
that keeps a stack of unfinished containers. `put` offers a character again until some
state consumes it; the model bounds these offers by `fuel`. -/
namespace Gpcl.Json

variable {R σ : Type}

/-- What a parse can end with: `failed_to_parse` with its text, the two casts that throw,
the assertion of the builder, or offers without an end. -/
inductive Error
  | failedToParse (what : String)
  | badVariantAccess
  | badLexicalCast
  | assertion
  | outOfFuel
  deriving DecidableEq, Repr

inductive Event (R : Type)
  | errorEvent
  | nullEvent
  | trueEvent
  | falseEvent
  | integerEvent (value : Int)
  | floatEvent (value : R)
  | stringEvent (value : Str)
  | startArrayEvent
  | endArrayEvent
  | startObjectEvent
  | objectKeyEvent (value : Str)
  | endObjectEvent

inductive ParsingState
  | indeterminate
  | parsingLiteral (chars : Str)
  | parsingNumber (chars : Str)
  | parsingString (chars : Str) (quoteClosed : Bool)

/-- What one offer of a character returns, with the parser and the visitor behind it. -/
structure Offer (σ : Type) where
  consumed : Bool
  state : ParsingState
  visitor : σ

abbrev Visitor (R σ : Type) := σ → Event R → Except Error σ

/-- `lexical_cast` to a 64-bit integer: white space, a sign, digits, and nothing behind. -/
def readInteger (s : Str) : Option Int :=
  let (negative, digits) : Bool × Str := match s.dropWhile isspace with
    | '-' :: rest => (true, rest)
    | '+' :: rest => (false, rest)
    | rest => (false, rest)
  let magnitude : Int := Nat.ofDigitChars 10 digits 0
  let i := if negative then -magnitude else magnitude
  if digits ≠ [] ∧ digits.all Char.isDigit ∧ -2 ^ 63 ≤ i ∧ i < 2 ^ 63 then some i else none

def castInteger (s : Str) : Except Error Int := (readInteger s).elim (.error .badLexicalCast) .ok

def castReal (t : RealText R) (s : Str) : Except Error R :=
  (t.read s).elim (.error .badLexicalCast) .ok

namespace Parser

def putIndeterminate (visit : Visitor R σ) (ch : Char) (v : σ) : Except Error (Offer σ) :=
  if isspace ch then .ok ⟨true, .indeterminate, v⟩
  else if ch.isAlpha then .ok ⟨true, .parsingLiteral [ch], v⟩
  -- the source tests for '+' twice
  else if ch.isDigit || ch == '+' || ch == '+' then .ok ⟨true, .parsingNumber [ch], v⟩
  else if ch = '"' then .ok ⟨true, .parsingString [] false, v⟩
  else if ch = '[' then return ⟨true, .indeterminate, ← visit v .startArrayEvent⟩
  else if ch = ',' then .ok ⟨true, .indeterminate, v⟩
  else if ch = ']' then return ⟨true, .indeterminate, ← visit v .endArrayEvent⟩
  else if ch = '\x7b' then return ⟨true, .indeterminate, ← visit v .startObjectEvent⟩
  else if ch = '\x7d' then return ⟨true, .indeterminate, ← visit v .endObjectEvent⟩
  else return ⟨false, .indeterminate, ← visit v .errorEvent⟩

def literalEvent (chars : Str) : Event R :=
  if chars = "null".toList then .nullEvent
  else if chars = "true".toList then .trueEvent
  else if chars = "false".toList then .falseEvent
  else .errorEvent

def putLiteral (visit : Visitor R σ) (chars : Str) (ch : Char) (v : σ) : Except Error (Offer σ) :=
  if ch.isAlphanum then .ok ⟨true, .parsingLiteral (chars ++ [ch]), v⟩
  else return ⟨false, .indeterminate, ← visit v (literalEvent chars)⟩

def numberEvent (t : RealText R) (chars : Str) : Except Error (Event R) :=
  if '.' ∈ chars then return .floatEvent (← castReal t chars)
  else return .integerEvent (← castInteger chars)

def putNumber (t : RealText R) (visit : Visitor R σ) (chars : Str) (ch : Char) (v : σ) :
    Except Error (Offer σ) :=
  if ch.isDigit || ch == '.' then .ok ⟨true, .parsingNumber (chars ++ [ch]), v⟩
  else return ⟨false, .indeterminate, ← visit v (← numberEvent t chars)⟩

def putString (visit : Visitor R σ) (chars : Str) (quoteClosed : Bool) (ch : Char) (v : σ) :
    Except Error (Offer σ) :=
  if !quoteClosed then
    if ch ≠ '"' then .ok ⟨true, .parsingString (chars ++ [ch]) false, v⟩
    else .ok ⟨true, .parsingString chars true, v⟩
  else if isspace ch then .ok ⟨true, .parsingString chars true, v⟩
  else if ch = ':' then return ⟨true, .indeterminate, ← visit v (.objectKeyEvent chars)⟩
  else return ⟨false, .indeterminate, ← visit v (.stringEvent chars)⟩

def putState (t : RealText R) (visit : Visitor R σ) (ch : Char) (v : σ) :
    ParsingState → Except Error (Offer σ)
  | .indeterminate => putIndeterminate visit ch v
  | .parsingLiteral chars => putLiteral visit chars ch v
  | .parsingNumber chars => putNumber t visit chars ch v
  | .parsingString chars quoteClosed => putString visit chars quoteClosed ch v

/-- The inner loop: the character is offered until it is consumed. -/
def putChar (t : RealText R) (visit : Visitor R σ) (ch : Char) :
    Nat → ParsingState → σ → Except Error (ParsingState × σ)
  | 0, _, _ => .error .outOfFuel
  | fuel + 1, st, v => do
    let o ← putState t visit ch v st
    if o.consumed then .ok (o.state, o.visitor) else putChar t visit ch fuel o.state o.visitor

def put (t : RealText R) (visit : Visitor R σ) (fuel : Nat) :
    Str → ParsingState → σ → Except Error (ParsingState × σ)
  | [], st, v => .ok (st, v)
  | ch :: rest, st, v => do
    let (st, v) ← putChar t visit ch fuel st v
    put t visit fuel rest st v

end Parser

/-- An unfinished value of the builder's stack. -/
inductive Context (R : Type)
  | value (v : Json R)
  | array (xs : List (Json R))
  | object (fields : List (Str × Json R)) (key : Str)

/-- The stack, its back first. -/
abbrev ValueBuilder (R : Type) := List (Context R)

namespace ValueBuilder

def init : ValueBuilder R := [.value .null]

/-- The back of the stack takes a value; an object keeps the moved-from key, which is empty. -/
def handleValue (v : Json R) : ValueBuilder R → Except Error (ValueBuilder R)
  | .value _ :: stack => .ok (.value v :: stack)
  | .array xs :: stack => .ok (.array (xs ++ [v]) :: stack)
  | .object fields key :: stack =>
    if key = [] then .error .assertion else .ok (.object (insertKey key v fields) [] :: stack)
  -- never reached: the value context stays at the bottom
  | [] => .error .badVariantAccess

def handleEvent (stack : ValueBuilder R) : Event R → Except Error (ValueBuilder R)
  | .errorEvent => .error (.failedToParse "parser")
  | .nullEvent => handleValue .null stack
  | .trueEvent => handleValue (.boolean true) stack
  | .falseEvent => handleValue (.boolean false) stack
  | .integerEvent i => handleValue (.integer i) stack
  | .floatEvent r => handleValue (.real r) stack
  | .stringEvent s => handleValue (.string s) stack
  | .startArrayEvent => .ok (.array [] :: stack)
  | .endArrayEvent => match stack with
    | .array xs :: stack => handleValue (.array xs) stack
    | _ => .error .badVariantAccess
  | .startObjectEvent => .ok (.object [] [] :: stack)
  | .objectKeyEvent key => match stack with
    | .object fields _ :: stack => .ok (.object fields key :: stack)
    | _ => .error .badVariantAccess
  | .endObjectEvent => match stack with
    | .object fields _ :: stack => handleValue (.object fields) stack
    | _ => .error .badVariantAccess

def getValue : ValueBuilder R → Except Error (Json R)
  | [.value v] => .ok v
  | [_] => .error .badVariantAccess
  | _ => .error (.failedToParse "value_builder::get_value()")

end ValueBuilder

def parse (t : RealText R) (fuel : Nat) (text : Str) : Except Error (Json R) := do
  let (_, builder) ← Parser.put t ValueBuilder.handleEvent fuel text .indeterminate .init
  builder.getValue

end Gpcl.Json
