import Mathlib.Algebra.Order.Ring.Int
import Mathlib.Data.List.Basic
import Mathlib.Logic.Function.Basic

/-! # getopt

A word is the characters of a C string, without the one that ends it. The result is `none` where the
code would read outside the words or past the end of one. -/
namespace Gpcl.Getopt

abbrev Word := List Char

/-- `'\0'`. -/
def nul : Char := '\x00'

/-- `getopt_option_type`. -/
inductive OptionType
  | noArg
  | required
  | optional
  | flagSet
  | flagAnd
  | flagOr
  deriving DecidableEq, Repr

/-- `getopt_option`. A flag is a variable of type `int`. -/
structure Opt (F : Type) where
  name : Option Word
  nameShort : Char
  type : OptionType
  flag : Option F
  value : BitVec 32

structure State (F : Type) where
  optind : Nat
  optpos : Nat
  optarg : Option Word
  opt : Option Nat
  flags : F → BitVec 32

/-- `argv_[i][p]`. -/
def charAt (w : Word) (p : Nat) : Option Char := (w ++ [nul])[p]?

/-- How far a call comes before `handle_option`. -/
inductive Located (F : Type)
  | ends (s : State F)
  | unknown (s : State F)
  | option (i : Nat) (s : State F)

variable {F : Type} (argv : List (Option Word)) (opts : List (Opt F))

/-- The constructor, with its assertions. -/
def start (flags : F → BitVec 32) : Option (State F) :=
  if argv ≠ [] ∧ opts ≠ [] then some ⟨0, 0, none, none, flags⟩ else none

def longOption (w : Word) (s : State F) : Located F :=
  let arg := w.drop 2
  let pos := arg.findIdx? (· == '=')
  let arg := match pos with
    | some p => arg.take p
    | none => arg
  match opts.findIdx? (·.name == some arg) with
  | some i => match pos with
    | some p => .option i { s with opt := some i, optpos := 2 + p + 1 }
    | none => .option i { s with opt := some i, optind := s.optind + 1, optpos := 0 }
  | none => .unknown s

def shortOption (w : Word) (s : State F) : Option (Located F) :=
  let pos := if s.optpos = 0 then 1 else s.optpos
  (charAt w pos).bind fun c => (charAt w (pos + 1)).map fun d =>
    let s := if d = nul then { s with optind := s.optind + 1, optpos := 0 }
      else { s with optpos := pos + 1 }
    match opts.findIdx? (c == ·.nameShort) with
    | some i => .option i { s with opt := some i }
    | none => .unknown s

/-- The word at `optind_`. -/
def locateIn (w : Word) (s : State F) : Option (Located F) :=
  (charAt w 0).bind fun c₀ =>
    if c₀ ≠ '-' then some (.ends s)
    else (charAt w 1).bind fun c₁ =>
      if c₁ = nul then some (.ends s)
      else if c₁ = '-' then (charAt w 2).map fun c₂ =>
        if c₂ = nul then .ends { s with optind := s.optind + 1 } else longOption opts w s
      else shortOption opts w s

def locate (s : State F) : Option (Located F) :=
  if argv.length ≤ s.optind then some (.ends s)
  else match argv[s.optind]? with
    | some (some w) => locateIn opts w s
    | some none => some (.ends s)
    | none => none

/-- Whether an argument is taken from `argv_[optind_]`. -/
def takesArgument (type : OptionType) (s : State F) : Option Bool :=
  match type with
  | .required => some true
  | .optional =>
    if s.optind < argv.length then (argv[s.optind]?.join.bind (charAt · s.optpos)).map (· != '-')
      else some false
  | _ => some false

/-- `&argv_[optind_][optpos_]`. -/
def argument (s : State F) : Option Word :=
  argv[s.optind]?.join.bind fun w => if s.optpos ≤ w.length then some (w.drop s.optpos) else none

variable [DecidableEq F]

def handleFlag (o : Opt F) (s : State F) : BitVec 32 × State F :=
  match o.flag with
  | some f => match o.type with
    | .flagSet => (0, { s with flags := Function.update s.flags f o.value })
    | .flagAnd => (0, { s with flags := Function.update s.flags f (s.flags f &&& o.value) })
    | .flagOr => (0, { s with flags := Function.update s.flags f (s.flags f ||| o.value) })
    | _ => (63, s)
  | none => (o.value, s)

def handleOption (i : Nat) (s : State F) : Option (BitVec 32 × State F) :=
  opts[i]?.bind fun o => (takesArgument argv o.type s).bind fun takes =>
    let taken := if takes
      then (argument argv s).map fun a =>
        { s with optarg := some a, optind := s.optind + 1, optpos := 0 }
      else some s
    taken.map (handleFlag o)

/-- `operator()`. -/
def call (s : State F) : Option (BitVec 32 × State F) :=
  let s := { s with optarg := none, opt := none, optind := if s.optind = 0 then 1 else s.optind }
  (locate argv opts s).bind fun
    | .ends s => some (-1, s)
    -- the character '?'
    | .unknown s => some (63, s)
    | .option i s => handleOption argv opts i s

/-- What a caller sees after a call. -/
structure Report (F : Type) where
  returned : BitVec 32
  option : Option Nat
  optarg : Option Word
  flags : F → BitVec 32

/-- Successive calls. -/
def calls : Nat → State F → Option (List (Report F) × State F)
  | 0, s => some ([], s)
  | n + 1, s => (call argv opts s).bind fun r =>
    (calls n r.2).map fun rest => (⟨r.1, r.2.opt, r.2.optarg, r.2.flags⟩ :: rest.1, rest.2)

end Gpcl.Getopt
