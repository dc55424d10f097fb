import Mathlib.Data.List.Basic

/-! # split

Iterators are positions in the input. A delimiter is the characters of a C string, without the one
that ends it. The result is `none` where a loop never ends. -/
namespace Gpcl.StringUtils

/-- `split_flag`. -/
inductive SplitFlag
  | skipEmptyString
  | trimResults
  deriving DecidableEq, Repr

def SplitFlag.value : SplitFlag → BitVec 32
  | skipEmptyString => 1 <<< 0
  | trimResults => 1 <<< 1

/-- `basic_flags<split_flag>`. -/
structure SplitFlags where
  value : BitVec 32
  deriving DecidableEq, Repr

namespace SplitFlags

/-- `split_flags()`. -/
def none : SplitFlags := ⟨0⟩

def of (e : SplitFlag) : SplitFlags := ⟨e.value⟩

def and (lhs rhs : SplitFlags) : SplitFlags := ⟨lhs.value &&& rhs.value⟩

/-- `operator bool`. -/
def toBool (flag : SplitFlags) : Bool := flag.value != 0

def isSet (flag : SplitFlags) (e : SplitFlag) : Bool := flag.and (of e) == of e

end SplitFlags

/-- `sub_string`. -/
structure SubString where
  first : Nat
  second : Nat
  deriving DecidableEq, Repr

structure SplitResults where
  start : Nat
  subStrings : List SubString
  deriving DecidableEq, Repr

/-- The constructor of `split_results_builder`: what the results held before is cleared. -/
def SplitResults.builder (start : Nat) : SplitResults := ⟨start, []⟩

def SplitResults.add (result : SplitResults) (val : SubString) : SplitResults :=
  { result with subStrings := result.subStrings ++ [val] }

def SubString.empty (s : SubString) : Bool := s.first == s.second

variable {α : Type} (isspace : α → Bool) (xs : List α)

def SubString.str (s : SubString) : List α := (xs.take s.second).drop s.first

/-- `std::find_if`. -/
def findIf (p : α → Bool) (first last : Nat) : Nat :=
  first + (SubString.str xs ⟨first, last⟩).findIdx p

def SubString.trimmed (s : SubString) : SubString :=
  let i := findIf xs (fun ch => !isspace ch) s.first s.second
  let j := findIf xs isspace i s.second
  ⟨i, j⟩

variable [DecidableEq α] (delim : List α)

/-- How far behind its start `std::search` finds the delimiter, the length if it does not. -/
def searchIn : List α → Nat
  | [] => 0
  | x :: xs => if delim.isPrefixOf (x :: xs) then 0 else searchIn xs + 1

/-- `std::search` from `first` to the end of the input. -/
def search (first : Nat) : Nat := first + searchIn delim (xs.drop first)

variable (flag : SplitFlags)

def splitLoop (first : Nat) (result : SplitResults) : Option SplitResults :=
  let pos := search xs delim first
  let substr : SubString := ⟨first, pos⟩
  let result :=
    if !substr.empty || !flag.isSet .skipEmptyString then
      if (flag.and (.of .trimResults)).toBool then result.add (substr.trimmed isspace xs)
        else result.add substr
    else result
  if pos = xs.length then some result else by apply splitLoop; exacts [pos + delim.length, result]
partial_fixpoint

def split : Option SplitResults := splitLoop isspace xs delim flag 0 (.builder 0)

/-- `std::equal` of the delimiter and what stands at `first`. -/
def equalAt (first : Nat) : Bool := (xs.drop first).take delim.length == delim

/-- The loop returns where the last piece starts. -/
def splitOldLoop (first fullLength substrStart : Nat) (result : SplitResults) :
    Option (Nat × SplitResults) :=
  if delim.length ≤ fullLength then
    if equalAt xs delim first then
      let substr : SubString := ⟨substrStart, first⟩
      let result := if !substr.empty || !flag.isSet .skipEmptyString then result.add substr
        else result
      by apply splitOldLoop; exacts
        [first + delim.length, fullLength - delim.length, first + delim.length, result]
    else by apply splitOldLoop; exacts [first + 1, fullLength - 1, substrStart, result]
  else some (substrStart, result)
partial_fixpoint

def splitOld : Option SplitResults := do
  let (substrStart, result) ← splitOldLoop xs delim flag 0 xs.length 0 (.builder 0)
  let substr : SubString := ⟨substrStart, xs.length⟩
  return if !substr.empty || !flag.isSet .skipEmptyString then result.add substr else result

end Gpcl.StringUtils
