import Gpcl.Json.Value

/-! # Printing

`serializing_visitor`: the output as a list of characters. The indentation of the source
is a counter that a sentry object raises and lowers around the elements of an array or
object; here it is an argument. -/
namespace Gpcl.Json

variable {R : Type}

/-- `std::isspace` in the C locale. -/
def isspace (c : Char) : Bool :=
  c == ' ' || c == '\t' || c == '\n' || c == '\x0b' || c == '\x0c' || c == '\r'

/-- How reals are printed and read. -/
structure RealText (R : Type) where
  print : R → Str
  read : Str → Option R

/-- The print style of the stream, with the `indent_item_` of the serializer. -/
inductive PrintStyle
  | compressed
  | pretty (indentItem : Str)

def newline : PrintStyle → Nat → Str
  | .compressed, _ => []
  | .pretty item, n => '\n' :: (List.replicate n item).flatten

def space : PrintStyle → Str
  | .compressed => []
  | .pretty _ => [' ']

/-- `std::quoted`. -/
def quoted (s : Str) : Str :=
  '"' :: (s.flatMap (fun c => if c = '"' ∨ c = '\\' then ['\\', c] else [c]) ++ ['"'])

def printInteger (i : Int) : Str :=
  if i < 0 then '-' :: Nat.toDigits 10 i.natAbs else Nat.toDigits 10 i.natAbs

mutual

def serialize (t : RealText R) (st : PrintStyle) (n : Nat) : Json R → Str
  | .null => "null".toList
  | .boolean b => if b then "true".toList else "false".toList
  | .integer i => printInteger i
  | .real r => t.print r
  | .string s => quoted s
  | .array xs => '[' :: (serializeArray t st n xs ++ [']'])
  | .object fields => '\x7b' :: (serializeObject t st n fields ++ ['\x7d'])

/-- Between the brackets. -/
def serializeArray (t : RealText R) (st : PrintStyle) (n : Nat) : List (Json R) → Str
  | [] => []
  | x :: xs =>
    newline st (n + 1) ++ (serialize t st (n + 1) x ++
      (serializeElements t st (n + 1) xs ++ newline st n))

/-- The loop over the elements behind the first. -/
def serializeElements (t : RealText R) (st : PrintStyle) (n : Nat) : List (Json R) → Str
  | [] => []
  | x :: xs => ',' :: (newline st n ++ (serialize t st n x ++ serializeElements t st n xs))

def serializeObject (t : RealText R) (st : PrintStyle) (n : Nat) : List (Str × Json R) → Str
  | [] => []
  | (k, x) :: fields =>
    newline st (n + 1) ++ (quoted k ++ ':' :: (space st ++ (serialize t st (n + 1) x ++
      (serializeMembers t st (n + 1) fields ++ newline st n))))

def serializeMembers (t : RealText R) (st : PrintStyle) (n : Nat) : List (Str × Json R) → Str
  | [] => []
  | (k, x) :: fields =>
    ',' :: (newline st n ++ (quoted k ++ ':' ::
      (space st ++ (serialize t st n x ++ serializeMembers t st n fields))))

end

end Gpcl.Json
