import Gpcl.Getopt.Basic

/-! # Options as they were written

Options are written on a command line in one of the spellings, and the calls give them back. Between
two words the parser has `optpos_ = 0`; inside a word of short options it has the position of the
next one. -/
namespace Gpcl.Getopt

variable {F : Type}

def OptionType.isFlag : OptionType → Bool
  | .flagSet | .flagAnd | .flagOr => true
  | _ => false

/-- The option has no argument. -/
def OptionType.alone (type : OptionType) : Bool := type == .noArg || type.isFlag

/-- Options whose names can be told apart. -/
structure Table (F : Type) where
  opts : List (Opt F)
  nonempty : opts ≠ []
  names : ∀ (i j : Nat) (o p : Opt F) n, opts[i]? = some o → opts[j]? = some p → o.name = some n →
    p.name = some n → i = j
  nameChars : ∀ (i : Nat) (o : Opt F) n, opts[i]? = some o → o.name = some n → n ≠ [] ∧ '=' ∉ n ∧
    nul ∉ n
  shorts : ∀ (i j : Nat) (o p : Opt F), opts[i]? = some o → opts[j]? = some p → o.nameShort ≠ nul →
    o.nameShort = p.nameShort → i = j
  shortChars : ∀ (i : Nat) (o : Opt F), opts[i]? = some o → o.nameShort ≠ '-'
  flagged : ∀ (i : Nat) (o : Opt F), opts[i]? = some o → o.flag.isSome = o.type.isFlag

/-- One option and its argument. -/
structure Use where
  option : Nat
  arg : Option Word

/-- One or two words: options without arguments in one word, of which the last may have an argument
behind it or in the next word. -/
inductive Spelling
  | long (i : Nat)
  | longValue (i : Nat) (v : Word)
  | longArg (i : Nat) (v : Word)
  | short (is : List Nat) (i : Nat)
  | shortValue (is : List Nat) (i : Nat) (v : Word)
  | shortArg (is : List Nat) (i : Nat) (v : Word)

namespace Table

variable (t : Table F)

def nameOf (i : Nat) : Word := (t.opts[i]?.bind (·.name)).getD []

def shortOf (i : Nat) : Char := t.opts[i]?.elim nul (·.nameShort)

def render : Spelling → List Word
  | .long i => ['-' :: '-' :: t.nameOf i]
  | .longValue i v => ['-' :: '-' :: (t.nameOf i ++ '=' :: v)]
  | .longArg i v => ['-' :: '-' :: t.nameOf i, v]
  | .short is i => ['-' :: (is.map t.shortOf ++ [t.shortOf i])]
  | .shortValue is i v => ['-' :: (is.map t.shortOf ++ t.shortOf i :: v)]
  | .shortArg is i v => ['-' :: (is.map t.shortOf ++ [t.shortOf i]), v]

def HasLong (i : Nat) (P : OptionType → Prop) : Prop :=
  ∃ o n, t.opts[i]? = some o ∧ o.name = some n ∧ P o.type

def HasShort (i : Nat) (P : OptionType → Prop) : Prop :=
  ∃ o, t.opts[i]? = some o ∧ o.nameShort ≠ nul ∧ P o.type

/-- The next word starts with a dash, if there is one. -/
def Dashed (next : List Word) : Prop := ∀ w, next.head? = some w → w.head? = some '-'

/-- The option may stand without an argument before `next`. -/
def Bare (next : List Word) (type : OptionType) : Prop :=
  type.alone = true ∨ type = .optional ∧ Dashed next

/-- The option may have the argument `v` in the same word. -/
def Attached (v : Word) (type : OptionType) : Prop :=
  type = .required ∨ type = .optional ∧ v.head? ≠ some '-'

/-- The spelling is one that is accepted before `next`. -/
def Accepts (next : List Word) : Spelling → Prop
  | .long i => t.HasLong i (Bare next)
  | .longValue i v => t.HasLong i (Attached v) ∧ nul ∉ v
  | .longArg i _ => t.HasLong i (· = .required)
  | .short is i => (∀ j ∈ is, t.HasShort j (·.alone = true)) ∧ t.HasShort i (Bare next)
  | .shortValue is i v =>
    (∀ j ∈ is, t.HasShort j (·.alone = true)) ∧ t.HasShort i (Attached v) ∧ v ≠ [] ∧ nul ∉ v
  | .shortArg is i _ => (∀ j ∈ is, t.HasShort j (·.alone = true)) ∧ t.HasShort i (· = .required)

end Table

def Spelling.uses : Spelling → List Use
  | .long i => [⟨i, none⟩]
  | .longValue i v | .longArg i v => [⟨i, some v⟩]
  | .short is i => is.map (⟨·, none⟩) ++ [⟨i, none⟩]
  | .shortValue is i v | .shortArg is i v => is.map (⟨·, none⟩) ++ [⟨i, some v⟩]

/-- What follows the options. -/
inductive Ending
  | operand (w : Word) (rest : List Word) (h : w.head? ≠ some '-' ∨ w = ['-'])
  | dashes (rest : List Word)
  | nothing

def Ending.words : Ending → List Word
  | .operand w rest _ => w :: rest
  | .dashes rest => ['-', '-'] :: rest
  | .nothing => []

/-- The words of a command line. -/
def Table.words (t : Table F) (e : Ending) : List Spelling → List Word
  | [] => e.words
  | x :: xs => t.render x ++ t.words e xs

/-- Every spelling is accepted where it stands. -/
def Table.AcceptsAll (t : Table F) (e : Ending) : List Spelling → Prop
  | [] => True
  | x :: xs => t.Accepts (t.words e xs) x ∧ t.AcceptsAll e xs

variable [DecidableEq F]

/-- What a use of an option does to the flags. -/
def effect (o : Opt F) (flags : F → BitVec 32) : F → BitVec 32 :=
  match o.flag, o.type with
  | some f, .flagSet => Function.update flags f o.value
  | some f, .flagAnd => Function.update flags f (flags f &&& o.value)
  | some f, .flagOr => Function.update flags f (flags f ||| o.value)
  | _, _ => flags

/-- What the calls are meant to report: the options in order with their values, 0 for one with a
flag, and -1 at the end. -/
def Table.reports (t : Table F) : List Use → (F → BitVec 32) → List (Report F)
  | [], flags => [⟨-1, none, none, flags⟩]
  | u :: us, flags => t.opts[u.option]?.elim [] fun o =>
    ⟨if o.flag.isSome then 0 else o.value, some u.option, u.arg, effect o flags⟩ ::
      t.reports us (effect o flags)

/-! ## Characters -/

@[simp] theorem charAt_cons_zero (c : Char) (w : Word) : charAt (c :: w) 0 = some c := rfl

@[simp] theorem charAt_nil : charAt [] 0 = some nul := rfl

@[simp] theorem charAt_cons_succ (c : Char) (w : Word) (p : Nat) :
    charAt (c :: w) (p + 1) = charAt w p := rfl

theorem charAt_append (a b : Word) (p : Nat) : charAt (a ++ b) (a.length + p) = charAt b p := by
  induction a with
  | nil => simp
  | cons c a ih =>
    rw [List.length_cons, Nat.add_right_comm, List.cons_append, charAt_cons_succ]
    exact ih

/-- `optpos_` at the character behind `a`, or not set yet. -/
def Reached (a : Word) (p : Nat) : Prop := p = a.length + 1 ∨ a = [] ∧ p = 0

/-- The first `=` ends the name. -/
theorem findIdx?_equals {n : Word} (h : '=' ∉ n) (v : Word) :
    (n ++ '=' :: v).findIdx? (· == '=') = some n.length := by
  induction n with
  | nil => simp [List.findIdx?_cons]
  | cons c n ih =>
    have hc : c ≠ '=' := fun he => h (by simp [he])
    have hn : '=' ∉ n := fun he => h (List.mem_cons_of_mem _ he)
    simp [List.findIdx?_cons, hc, ih hn]

theorem findIdx?_no_equals {n : Word} (h : '=' ∉ n) : n.findIdx? (· == '=') = none := by
  simp only [List.findIdx?_eq_none_iff]
  intro c hc
  have hne : c ≠ '=' := by
    intro he
    exact h (he ▸ hc)
  simpa using hne

section
variable {t : Table F} {argv : List (Option Word)} {opts : List (Opt F)} {s : State F} {w n : Word}
    {i : Nat} {o : Opt F}

/-! ## The table -/

omit [DecidableEq F] in
theorem Table.findLong (ho : t.opts[i]? = some o) (hn : o.name = some n) :
    t.opts.findIdx? (·.name == some n) = some i := by
  obtain ⟨hi, hget⟩ := List.getElem?_eq_some_iff.mp ho
  rw [List.findIdx?_eq_some_iff_getElem]
  refine ⟨hi, ?_, ?_⟩
  · simp [hget, hn]
  · intro j hj hname
    have hname : (t.opts[j]).name = some n := by simpa using hname
    have hsame := t.names j i _ o n (List.getElem?_eq_getElem _) ho hname hn
    omega

omit [DecidableEq F] in
theorem Table.findShort (ho : t.opts[i]? = some o) (hs : o.nameShort ≠ nul) :
    t.opts.findIdx? (o.nameShort == ·.nameShort) = some i := by
  obtain ⟨hi, hget⟩ := List.getElem?_eq_some_iff.mp ho
  rw [List.findIdx?_eq_some_iff_getElem]
  refine ⟨hi, ?_, ?_⟩
  · simp [hget]
  · intro j hj hname
    have hname : o.nameShort = (t.opts[j]).nameShort := by simpa using hname
    have hsame := t.shorts i j o _ ho (List.getElem?_eq_getElem _) hs hname
    omega

/-! ## From the start of a call to the option -/

omit [DecidableEq F] in
theorem locate_eq (h : argv[s.optind]? = some (some w)) :
    locate argv opts s = locateIn opts w s := by
  have hlt := (List.getElem?_eq_some_iff.mp h).1
  simp [locate, h, Nat.not_le.mpr hlt]

omit [DecidableEq F] in
theorem locateIn_long {c : Char} (hc : c ≠ nul) : locateIn opts ('-' :: '-' :: c :: w) s =
    some (longOption opts ('-' :: '-' :: c :: w) s) := by
  have hdash : ('-' : Char) ≠ nul := by decide
  simp [locateIn, hc, hdash]

omit [DecidableEq F] in
theorem locateIn_short {c : Char} (hc : c ≠ nul) (hdash : c ≠ '-') :
    locateIn opts ('-' :: c :: w) s = shortOption opts ('-' :: c :: w) s := by
  simp [locateIn, hc, hdash]

omit [DecidableEq F] in
theorem longOption_name (ho : t.opts[i]? = some o) (hn : o.name = some n) :
    longOption t.opts ('-' :: '-' :: n) s =
      .option i { s with opt := some i, optind := s.optind + 1, optpos := 0 } := by
  obtain ⟨-, heq, -⟩ := t.nameChars i o n ho hn
  simp [longOption, findIdx?_no_equals heq, t.findLong ho hn]

omit [DecidableEq F] in
theorem longOption_value (ho : t.opts[i]? = some o) (hn : o.name = some n) (v : Word) :
    longOption t.opts ('-' :: '-' :: (n ++ '=' :: v)) s =
      .option i { s with opt := some i, optpos := 2 + n.length + 1 } := by
  obtain ⟨-, heq, -⟩ := t.nameChars i o n ho hn
  simp [longOption, findIdx?_equals heq, t.findLong ho hn]

/-- Behind a character of a word of short options, of which `b` is left. -/
def State.behindShort (s : State F) (a b : Word) : State F :=
  if b = [] then { s with optind := s.optind + 1, optpos := 0 }
    else { s with optpos := a.length + 2 }

omit [DecidableEq F] in
/-- The character at `optpos_`. -/
theorem shortOption_eq (opts : List (Opt F)) (a b : Word) (c : Char) (hp : Reached a s.optpos)
    (hb : nul ∉ b) :
    shortOption opts ('-' :: (a ++ c :: b)) s = some (match opts.findIdx? (c == ·.nameShort) with
      | some i => .option i { s.behindShort a b with opt := some i }
      | none => .unknown (s.behindShort a b)) := by
  have hpos : (if s.optpos = 0 then 1 else s.optpos) = a.length + 1 := by
    rcases hp with hp | ⟨rfl, hp⟩
    · simp [hp]
    · simp [hp]
  have hc : charAt ('-' :: (a ++ c :: b)) (a.length + 1) = some c := by
    simpa using charAt_append a (c :: b) 0
  have hd : charAt ('-' :: (a ++ c :: b)) (a.length + 1 + 1) = charAt b 0 := by
    simpa using charAt_append a (c :: b) 1
  unfold shortOption State.behindShort
  simp only [hpos, hc, hd, Option.bind_some]
  cases opts.findIdx? (c == ·.nameShort) <;> cases b with
  | nil => rfl
  | cons d b =>
    have hd : d ≠ nul := fun he => hb (by simp [he])
    simp [hd]

omit [DecidableEq F] in
/-- A short option at `optpos_`. -/
theorem shortOption_at (ho : t.opts[i]? = some o) (hs : o.nameShort ≠ nul) (a b : Word)
    (hp : Reached a s.optpos)
    (hb : nul ∉ b) : shortOption t.opts ('-' :: (a ++ o.nameShort :: b)) s = some (.option i
      (if b = [] then { s with opt := some i, optind := s.optind + 1, optpos := 0 }
        else { s with opt := some i, optpos := a.length + 2 })) := by
  rw [shortOption_eq t.opts a b o.nameShort hp hb, t.findShort ho hs]
  dsimp only
  rw [State.behindShort]
  split <;> rfl

/-! ## Arguments -/

omit [DecidableEq F] in
theorem takes_alone {type : OptionType} (h : type.alone = true) :
    takesArgument argv type s = some false := by
  cases type with
  | required => cases h
  | optional => cases h
  | _ => rfl

omit [DecidableEq F] in
theorem argument_eq {v : Word} (h : argv[s.optind]? = some (some (n ++ v)))
    (hp : s.optpos = n.length) : argument argv s = some v := by
  simp [argument, h, hp]

/-- The rest of the word is the argument. -/
def takesRest (type : OptionType) (v : Word) : Bool :=
  type == .required || (type == .optional && v.head? != some '-')

omit [DecidableEq F] in
theorem takes_rest {v : Word} (type : OptionType) (h : argv[s.optind]? = some (some (n ++ v)))
    (hp : s.optpos = n.length) :
    takesArgument argv type s = some (takesRest type v) := by
  have hlt := (List.getElem?_eq_some_iff.mp h).1
  have hchar : charAt (n ++ v) s.optpos = charAt v 0 := by
    rw [hp]
    exact charAt_append n v 0
  cases type with
  | optional =>
    simp only [takesArgument, if_pos hlt, h, Option.join_some, Option.bind_some, hchar]
    cases v with
    | nil => rfl
    | cons c v =>
      have hhead : (some c != some '-') = (c != '-') := by rw [bne, Option.some_beq_some, bne]
      exact congrArg some hhead.symm
  | _ => rfl

omit [DecidableEq F] in
theorem takes_attached {v : Word} {type : OptionType} (h : argv[s.optind]? = some (some (n ++ v)))
    (hp : s.optpos = n.length)
    (ha : Table.Attached v type) : takesArgument argv type s = some true := by
  have hrest : takesRest type v = true := by
    rcases ha with rfl | ⟨rfl, hv⟩
    · rfl
    · simpa [takesRest] using hv
  rw [takes_rest type h hp, hrest]

/-! ## Positions -/

/-- The parser is between two words, and `next` are those to come. -/
structure At (argv : List (Option Word)) (s : State F) (next : List Word) : Prop where
  pos : s.optpos = 0
  started : 0 < s.optind
  rest : argv.drop s.optind = next.map some

omit [DecidableEq F] in
theorem head_of_drop {next : List (Option Word)} {x : Option Word} {k : Nat}
    (h : argv.drop k = x :: next) : argv[k]? = some x := by
  have hget : (argv.drop k)[0]? = some x := by simp [h]
  simpa using hget

omit [DecidableEq F] in
theorem tail_of_drop {next : List (Option Word)} {x : Option Word} {k : Nat}
    (h : argv.drop k = x :: next) : argv.drop (k + 1) = next := by
  rw [← List.tail_drop, h]
  rfl

omit [DecidableEq F] in
theorem takes_bare {next : List Word} {type : OptionType} (hs : s.optpos = 0)
    (hn : argv.drop s.optind = next.map some)
    (hb : Table.Bare next type) : takesArgument argv type s = some false := by
  rcases hb with hb | ⟨rfl, hb⟩
  · exact takes_alone hb
  · cases next with
    | nil =>
      have hle : argv.length ≤ s.optind := List.drop_eq_nil_iff.mp hn
      simp [takesArgument, Nat.not_lt.mpr hle]
    | cons w next =>
      have hget := head_of_drop hn
      have hlt := (List.getElem?_eq_some_iff.mp hget).1
      have hw := hb w rfl
      cases w with
      | nil => cases hw
      | cons c w =>
        have hc : c = '-' := by simpa using hw
        simp only [takesArgument, if_pos hlt, hget, Option.join_some, Option.bind_some, hs, hc]
        rfl

/-! ## Calls -/

/-- What a call returns for an option. -/
def returned (o : Opt F) : BitVec 32 :=
  match o.flag with
  | some _ => if o.type.isFlag then 0 else 63
  | none => o.value

theorem handleFlag_returned (o : Opt F) (s : State F) :
    handleFlag o s = (returned o, { s with flags := effect o s.flags }) := by
  unfold handleFlag returned effect
  cases o.flag with
  | none => rfl
  | some f => cases o.type <;> rfl

theorem handleFlag_eq (ho : t.opts[i]? = some o) :
    handleFlag o s = (if o.flag.isSome then 0 else o.value,
      { s with flags := effect o s.flags }) := by
  have hflag := t.flagged i o ho
  have hreturned : returned o = if o.flag.isSome then 0 else o.value := by
    rw [returned]
    cases hf : o.flag with
    | none => rfl
    | some f =>
      rw [hf] at hflag
      exact if_pos hflag.symm
  rw [handleFlag_returned, hreturned]

/-- The parser as the call starts. -/
def fresh (s : State F) : State F := { s with optarg := none, opt := none }

theorem call_eq (hs : 0 < s.optind) : call argv t.opts s = (locate argv t.opts (fresh s)).bind fun
    | .ends s => some (-1, s)
    | .unknown s => some (63, s)
    | .option i s => handleOption argv t.opts i s := by
  have hne : s.optind ≠ 0 := Nat.pos_iff_ne_zero.mp hs
  unfold call
  rw [if_neg hne]
  rfl

/-- The calls from one state report the uses and lead to another state. -/
inductive Reads (t : Table F) (argv : List (Option Word)) : State F → List Use → State F → Prop
  | nil (s : State F) : Reads t argv s [] s
  | cons {s s₁ s₂ : State F} {u : Use} {us : List Use} (o : Opt F) (ho : t.opts[u.option]? = some o)
      (hcall : call argv t.opts s = some (if o.flag.isSome then 0 else o.value, s₁))
        (hopt : s₁.opt = some u.option)
      (harg : s₁.optarg = u.arg) (hflags : s₁.flags = effect o s.flags)
        (h : Reads t argv s₁ us s₂) : Reads t argv s (u :: us) s₂

theorem Reads.append {s s₁ s₂ : State F} {us vs : List Use} (h : Reads t argv s us s₁)
    (h' : Reads t argv s₁ vs s₂) :
    Reads t argv s (us ++ vs) s₂ := by
  induction h with
  | nil s => exact h'
  | cons o ho hcall hopt harg hflags _ ih => exact .cons o ho hcall hopt harg hflags (ih h')

/-- An option that takes no argument. -/
theorem read_bare {k p : Nat} (hs : 0 < s.optind) (ho : t.opts[i]? = some o)
    (hl : locate argv t.opts (fresh s) =
      some (.option i { fresh s with opt := some i, optind := k, optpos := p }))
    (ht : takesArgument argv o.type
      { fresh s with opt := some i, optind := k, optpos := p } = some false) :
    Reads t argv s [⟨i, none⟩] ⟨k, p, none, some i, effect o s.flags⟩ := by
  refine .cons o ho ?_ rfl rfl rfl (.nil _)
  rw [call_eq hs, hl]
  simp only [Option.bind_some, handleOption, ho, ht, Bool.false_eq_true, if_false, Option.map_some,
    handleFlag_eq ho]
  rfl

/-- An option that takes an argument. -/
theorem read_taken {k p : Nat} {v : Word} (hs : 0 < s.optind) (ho : t.opts[i]? = some o)
    (hl : locate argv t.opts (fresh s) =
      some (.option i { fresh s with opt := some i, optind := k, optpos := p }))
    (ht : takesArgument argv o.type
      { fresh s with opt := some i, optind := k, optpos := p } = some true)
    (ha : argument argv { fresh s with opt := some i, optind := k, optpos := p } = some v) :
    Reads t argv s [⟨i, some v⟩] ⟨k + 1, 0, some v, some i, effect o s.flags⟩ := by
  refine .cons o ho ?_ rfl rfl rfl (.nil _)
  rw [call_eq hs, hl]
  simp only [Option.bind_some, handleOption, ho, ht, if_true, ha, Option.map_some, handleFlag_eq ho]
  rfl

/-! ## Spellings -/

omit [DecidableEq F] in
theorem locate_long (hget : argv[s.optind]? = some (some ('-' :: '-' :: (n ++ w))))
    (hn : n ≠ [] ∧ '=' ∉ n ∧ nul ∉ n) :
    locate argv t.opts s = some (longOption t.opts ('-' :: '-' :: (n ++ w)) s) := by
  obtain ⟨hne, -, hnul⟩ := hn
  rw [locate_eq hget]
  cases n with
  | nil => exact absurd rfl hne
  | cons c n => exact locateIn_long fun he => hnul (by simp [he])

/-- A long option without an argument in its word. -/
theorem read_long {next : List Word} (hat : At argv s (('-' :: '-' :: n) :: next))
    (ho : t.opts[i]? = some o) (hn : o.name = some n) (hb : Table.Bare next o.type) :
    Reads t argv s [⟨i, none⟩] ⟨s.optind + 1, 0, none, some i, effect o s.flags⟩ := by
  have hget := head_of_drop hat.rest
  have hloc := locate_long (t := t) (s := fresh s) (w := []) (by rw [List.append_nil]; exact hget)
    (t.nameChars i o n ho hn)
  refine read_bare hat.started ho ?_ (takes_bare rfl (tail_of_drop hat.rest) hb)
  rw [hloc, List.append_nil, longOption_name ho hn]
  rfl

theorem read_longArg {next : List Word} {v : Word}
    (hat : At argv s (('-' :: '-' :: n) :: v :: next)) (ho : t.opts[i]? = some o)
    (hn : o.name = some n) (hr : o.type = .required) :
    Reads t argv s [⟨i, some v⟩] ⟨s.optind + 2, 0, some v, some i, effect o s.flags⟩ := by
  have hget := head_of_drop hat.rest
  have hloc := locate_long (t := t) (s := fresh s) (w := []) (by rw [List.append_nil]; exact hget)
    (t.nameChars i o n ho hn)
  refine read_taken hat.started ho (k := s.optind + 1) (p := 0) ?_ ?_ (argument_eq (n := []) ?_ rfl)
  · rw [hloc, List.append_nil, longOption_name ho hn]
    rfl
  · rw [hr]
    rfl
  · exact head_of_drop (tail_of_drop hat.rest)

theorem read_longValue {next : List Word} {v : Word}
    (hat : At argv s (('-' :: '-' :: (n ++ '=' :: v)) :: next)) (ho : t.opts[i]? = some o)
    (hn : o.name = some n) (ha : Table.Attached v o.type) :
    Reads t argv s [⟨i, some v⟩] ⟨s.optind + 1, 0, some v, some i, effect o s.flags⟩ := by
  have hget := head_of_drop hat.rest
  have hloc := locate_long (t := t) (s := fresh s) hget (t.nameChars i o n ho hn)
  have hword : argv[s.optind]? = some (some ('-' :: '-' :: (n ++ ['=']) ++ v)) := by
    simpa using hget
  refine read_taken hat.started ho (k := s.optind) (p := 2 + n.length + 1) ?_
    (takes_attached hword ?_ ha) (argument_eq hword ?_)
  · rw [hloc, longOption_value ho hn]
    rfl
  · simp
    omega
  · simp
    omega

/-- A word of short options. -/
def Shorts (w : Word) : Prop := ∃ c rest, w = '-' :: c :: rest ∧ c ≠ nul ∧ c ≠ '-'

omit [DecidableEq F] in
theorem locate_short (hget : argv[s.optind]? = some (some w)) (hw : Shorts w) :
    locate argv opts s = shortOption opts w s := by
  obtain ⟨c, rest, rfl, hc, hdash⟩ := hw
  rw [locate_eq hget]
  exact locateIn_short hc hdash

omit [DecidableEq F] in
theorem locate_shortAt {a b : Word} {k p : Nat} (ho : t.opts[i]? = some o) (hc : o.nameShort ≠ nul)
    (hget : argv[s.optind]? = some (some ('-' :: (a ++ o.nameShort :: b))))
    (hw : Shorts ('-' :: (a ++ o.nameShort :: b))) (hp : Reached a s.optpos) (hb : nul ∉ b)
    (hk : (if b = [] then (s.optind + 1, 0) else (s.optind, a.length + 2)) = (k, p)) :
    locate argv t.opts (fresh s) =
      some (.option i { fresh s with opt := some i, optind := k, optpos := p }) := by
  rw [locate_short (s := fresh s) hget hw, shortOption_at (s := fresh s) ho hc a b hp hb]
  split at hk
  · next hnil =>
    obtain ⟨rfl, rfl⟩ := Prod.mk.inj hk
    rw [if_pos hnil]
    rfl
  · next hnil =>
    obtain ⟨rfl, rfl⟩ := Prod.mk.inj hk
    rw [if_neg hnil]
    rfl

omit [DecidableEq F] in
theorem Table.HasShort.shortOf {P : OptionType → Prop} (h : t.HasShort i P) :
    t.shortOf i ≠ nul ∧ t.shortOf i ≠ '-' := by
  obtain ⟨o, ho, hc, -⟩ := h
  simp only [Table.shortOf, ho, Option.elim_some]
  exact ⟨hc, t.shortChars i o ho⟩

omit [DecidableEq F] in
theorem shorts_word {is : List Nat} {b : Word} {c : Char}
    (his : ∀ j ∈ is, t.HasShort j (·.alone = true)) (hc : c ≠ nul ∧ c ≠ '-') :
    Shorts ('-' :: (is.map t.shortOf ++ c :: b)) := by
  cases is with
  | nil => exact ⟨c, b, rfl, hc⟩
  | cons j is => exact ⟨_, _, rfl, (his j (by simp)).shortOf⟩

/-- Options without arguments in one word, up to its last option. -/
theorem read_cluster {a b : Word} (is : List Nat) (his : ∀ j ∈ is, t.HasShort j (·.alone = true))
    (hs : 0 < s.optind) (hget : argv[s.optind]? = some (some ('-' :: (a ++ is.map t.shortOf ++ b))))
    (hw : Shorts ('-' :: (a ++ is.map t.shortOf ++ b))) (hp : Reached a s.optpos) (hb : b ≠ [])
    (hnul : nul ∉ b) :
    ∃ s', Reads t argv s (is.map (⟨·, none⟩)) s' ∧ s'.optind = s.optind ∧
    Reached (a ++ is.map t.shortOf) s'.optpos := by
  induction is generalizing a s with
  | nil => exact ⟨s, .nil s, rfl, by simpa using hp⟩
  | cons j is ih =>
    obtain ⟨o, ho, hc, halone⟩ := his j (by simp)
    have hshort : t.shortOf j = o.nameShort := by simp [Table.shortOf, ho]
    have hrest : is.map t.shortOf ++ b ≠ [] := by simp [hb]
    have hnul' : nul ∉ is.map t.shortOf ++ b := by
      intro hmem
      rcases List.mem_append.mp hmem with hmem | hmem
      · obtain ⟨k, hk, he⟩ := List.mem_map.mp hmem
        exact (his k (List.mem_cons_of_mem _ hk)).shortOf.1 he
      · exact hnul hmem
    have hword :
        '-' :: (a ++ (j :: is).map t.shortOf ++ b) =
          '-' :: (a ++ o.nameShort :: (is.map t.shortOf ++ b)) := by
      simp [hshort]
    rw [hword] at hget hw
    have hloc := locate_shortAt ho hc hget hw hp hnul' (if_neg hrest)
    have hread := read_bare hs ho hloc (takes_alone halone)
    have hword' :
        '-' :: (a ++ o.nameShort :: (is.map t.shortOf ++ b)) =
          '-' :: (a ++ [o.nameShort] ++ is.map t.shortOf ++ b) := by simp
    rw [hword'] at hget hw
    obtain ⟨s', hreads, hind, hpos⟩ :=
      ih (a := a ++ [o.nameShort]) (s := ⟨s.optind, a.length + 2, none, some j, effect o s.flags⟩)
      (fun k hk => his k (List.mem_cons_of_mem _ hk)) hs hget hw (.inl (by simp))
    refine ⟨s', hread.append hreads, hind, ?_⟩
    simpa [hshort] using hpos

/-- The last option of a word of short options, in the state after those before it. -/
theorem read_shorts {is : List Nat} {b : Word} {next : List Word} {P : OptionType → Prop}
    (hat : At argv s (('-' :: (is.map t.shortOf ++ t.shortOf i :: b)) :: next))
    (his : ∀ j ∈ is, t.HasShort j (·.alone = true)) (hi : t.HasShort i P) (hb : nul ∉ b) :
    ∃ s' o, Reads t argv s (is.map (⟨·, none⟩)) s' ∧ s'.optind = s.optind ∧ t.opts[i]? = some o ∧
    P o.type ∧
      ∀ k p, (if b = [] then (s.optind + 1, 0) else (s.optind, is.length + 2)) = (k, p) →
        locate argv t.opts (fresh s') =
          some (.option i { fresh s' with opt := some i, optind := k, optpos := p }) := by
  have hshort := hi.shortOf
  obtain ⟨o, ho, hc, hP⟩ := hi
  have hget := head_of_drop hat.rest
  have hw := shorts_word (b := b) his hshort
  have hnul : nul ∉ t.shortOf i :: b := by
    simp [hb, hshort.1.symm]
  obtain ⟨s', hreads, hind, hpos⟩ :=
    read_cluster (a := []) is his hat.started hget hw (.inr ⟨rfl, hat.pos⟩) (by simp) hnul
  refine ⟨s', o, hreads, hind, ho, hP, ?_⟩
  intro k p hk
  have hname : t.shortOf i = o.nameShort := by simp [Table.shortOf, ho]
  rw [hname] at hget hw
  refine locate_shortAt ho hc (a := is.map t.shortOf) (b := b) (by rw [hind]; exact hget) hw
    (by simpa using hpos) hb ?_
  rw [hind, List.length_map]
  exact hk

omit [DecidableEq F] in
theorem nameOf_eq (ho : t.opts[i]? = some o) (hn : o.name = some n) : t.nameOf i = n := by
  simp [Table.nameOf, ho, hn]

/-- One spelling is read, and the parser is behind its words. -/
theorem read_spelling {x : Spelling} {next : List Word} (hat : At argv s (t.render x ++ next))
    (hx : t.Accepts next x) :
    ∃ s', Reads t argv s x.uses s' ∧ At argv s' next := by
  have hrest := hat.rest
  cases x with
  | long i =>
    obtain ⟨o, n, ho, hn, hb⟩ := hx
    simp only [Table.render, nameOf_eq ho hn, List.cons_append, List.nil_append,
      List.map_cons] at hat hrest
    exact ⟨_, read_long hat ho hn hb, rfl, Nat.succ_pos _, tail_of_drop hrest⟩
  | longValue i v =>
    obtain ⟨⟨o, n, ho, hn, ha⟩, -⟩ := hx
    simp only [Table.render, nameOf_eq ho hn, List.cons_append, List.nil_append,
      List.map_cons] at hat hrest
    exact ⟨_, read_longValue hat ho hn ha, rfl, Nat.succ_pos _, tail_of_drop hrest⟩
  | longArg i v =>
    obtain ⟨o, n, ho, hn, hr⟩ := hx
    simp only [Table.render, nameOf_eq ho hn, List.cons_append, List.nil_append,
      List.map_cons] at hat hrest
    exact ⟨_, read_longArg hat ho hn hr, rfl, Nat.succ_pos _, tail_of_drop (tail_of_drop hrest)⟩
  | short is i =>
    obtain ⟨his, hi⟩ := hx
    simp only [Table.render, List.cons_append, List.nil_append, List.map_cons] at hat hrest
    obtain ⟨s₁, o, hreads, hind, ho, hb, hloc⟩ := read_shorts hat his hi (by simp)
    have hlast := read_bare (hind ▸ hat.started) ho (hloc _ _ rfl)
      (takes_bare rfl (tail_of_drop hrest) hb)
    exact ⟨_, hreads.append hlast, rfl, Nat.succ_pos _, tail_of_drop hrest⟩
  | shortValue is i v =>
    obtain ⟨his, hi, hne, hnul⟩ := hx
    simp only [Table.render, List.cons_append, List.nil_append, List.map_cons] at hat hrest
    obtain ⟨s₁, o, hreads, hind, ho, ha, hloc⟩ := read_shorts hat his hi hnul
    have hword :
        argv[s.optind]? = some (some ('-' :: (is.map t.shortOf ++ [t.shortOf i]) ++ v)) := by
      simpa using head_of_drop hrest
    have hlast := read_taken (hind ▸ hat.started) ho
      (hloc s.optind (is.length + 2) (by rw [if_neg hne]))
      (takes_attached hword (by simp) ha) (argument_eq hword (by simp))
    exact ⟨_, hreads.append hlast, rfl, Nat.succ_pos _, tail_of_drop hrest⟩
  | shortArg is i v =>
    obtain ⟨his, hi⟩ := hx
    simp only [Table.render, List.cons_append, List.nil_append, List.map_cons] at hat hrest
    obtain ⟨s₁, o, hreads, hind, ho, hr, hloc⟩ := read_shorts hat his hi (by simp)
    have hword := head_of_drop (tail_of_drop hrest)
    have hlast := read_taken (hind ▸ hat.started) ho (hloc _ _ rfl) (by rw [hr]; rfl)
      (argument_eq (n := []) hword rfl)
    exact ⟨_, hreads.append hlast, rfl, Nat.succ_pos _, tail_of_drop (tail_of_drop hrest)⟩

theorem read_all {e : Ending} (xs : List Spelling) (hat : At argv s (t.words e xs))
    (h : t.AcceptsAll e xs) :
    ∃ s', Reads t argv s (xs.flatMap Spelling.uses) s' ∧ At argv s' e.words := by
  induction xs generalizing s with
  | nil => exact ⟨s, .nil s, hat⟩
  | cons x xs ih =>
    obtain ⟨s₁, hreads, hat₁⟩ := read_spelling hat h.1
    obtain ⟨s₂, hreads₂, hat₂⟩ := ih hat₁ h.2
    exact ⟨s₂, hreads.append hreads₂, hat₂⟩

/-- The call at the end of the options. -/
theorem call_ending {e : Ending} (hat : At argv s e.words) :
    ∃ s', call argv t.opts s = some (-1, s') ∧ s'.opt = none ∧ s'.optarg = none ∧
    s'.flags = s.flags := by
  have hrest := hat.rest
  rw [call_eq hat.started]
  cases e with
  | operand w rest h =>
    have hget := head_of_drop hrest
    rw [locate_eq (s := fresh s) hget]
    refine ⟨fresh s, ?_, rfl, rfl, rfl⟩
    rcases h with h | rfl
    · cases w with
      | nil => rfl
      | cons c w =>
        have hc : c ≠ '-' := by simpa using h
        simp [locateIn, hc]
    · rfl
  | dashes rest =>
    have hget := head_of_drop hrest
    rw [locate_eq (s := fresh s) hget]
    exact ⟨_, rfl, rfl, rfl, rfl⟩
  | nothing =>
    have hle : argv.length ≤ (fresh s).optind := List.drop_eq_nil_iff.mp hrest
    refine ⟨fresh s, ?_, rfl, rfl, rfl⟩
    simp [locate, hle]

theorem Reads.calls {s₁ s₂ : State F} {us : List Use} (h : Reads t argv s us s₁)
    (hend : call argv t.opts s₁ = some (-1, s₂)) (hopt : s₂.opt = none) (harg : s₂.optarg = none)
    (hflags : s₂.flags = s₁.flags) :
    Getopt.calls argv t.opts (us.length + 1) s = some (t.reports us s.flags, s₂) := by
  induction h with
  | nil s => simp [Getopt.calls, hend, hopt, harg, hflags, Table.reports]
  | cons o ho hcall hopt' harg' hflags' _ ih =>
    simp only [List.length_cons, Getopt.calls, hcall, Option.bind_some] at ih ⊢
    rw [ih hend hflags]
    simp [Table.reports, ho, hopt', harg', hflags']

theorem call_zero (h : s.optind = 0) :
    call argv t.opts s = call argv t.opts { s with optind := 1 } := by
  simp [call, h]

end

/-- The calls give back the options that were written, with their values and arguments, and then
-1. -/
theorem getopt_round_trip (t : Table F) (program : Word) (xs : List Spelling) (e : Ending)
    (flags : F → BitVec 32) (h : t.AcceptsAll e xs) :
    ∃ s s', start (some program :: (t.words e xs).map some) t.opts flags = some s ∧
      calls (some program :: (t.words e xs).map some) t.opts
        ((xs.flatMap Spelling.uses).length + 1) s =
        some (t.reports (xs.flatMap Spelling.uses) flags, s') := by
  let argv := some program :: (t.words e xs).map some
  have hat : At argv (⟨1, 0, none, none, flags⟩ : State F) (t.words e xs) := ⟨rfl, Nat.one_pos, rfl⟩
  obtain ⟨s₁, hreads, hat₁⟩ := read_all xs hat h
  obtain ⟨s₂, hcall, hopt, harg, hflags⟩ := call_ending (t := t) hat₁
  refine ⟨⟨0, 0, none, none, flags⟩, s₂, ?_, ?_⟩
  · simp [start, t.nonempty]
  · have hcalls := hreads.calls hcall hopt harg hflags
    simp only [calls] at hcalls ⊢
    rw [call_zero rfl]
    exact hcalls

/-- `--help` or `-h`, and `--out` or `-o` with an argument. -/
def helpAndOut : Table Unit where
  opts := [⟨some ['h', 'e', 'l', 'p'], 'h', .noArg, none, 104⟩,
    ⟨some ['o', 'u', 't'], 'o', .required, none, 111⟩]
  nonempty := by simp
  names := by
    intro i j o p n hi hj ho hp
    match i, j with
    | 0, 0 => rfl
    | 1, 1 => rfl
    | 0, 1 =>
      cases hi
      cases hj
      cases ho
      cases hp
    | 1, 0 =>
      cases hi
      cases hj
      cases ho
      cases hp
    | i + 2, _ => cases hi
    | _, j + 2 => cases hj
  nameChars := by
    intro i o n hi ho
    match i with
    | 0 =>
      cases hi
      cases ho
      decide
    | 1 =>
      cases hi
      cases ho
      decide
    | i + 2 => cases hi
  shorts := by
    intro i j o p hi hj ho hp
    match i, j with
    | 0, 0 => rfl
    | 1, 1 => rfl
    | 0, 1 =>
      cases hi
      cases hj
      exact absurd hp (by decide)
    | 1, 0 =>
      cases hi
      cases hj
      exact absurd hp (by decide)
    | i + 2, _ => cases hi
    | _, j + 2 => cases hj
  shortChars := by
    intro i o hi
    match i with
    | 0 =>
      cases hi
      decide
    | 1 =>
      cases hi
      decide
    | i + 2 => cases hi
  flagged := by
    intro i o hi
    match i with
    | 0 =>
      cases hi
      rfl
    | 1 =>
      cases hi
      rfl
    | i + 2 => cases hi

/-- `prog -hoa --out=b x`. -/
theorem round_trip_help_and_out :
    ∃ s s', start (some ['p'] ::
      [['-', 'h', 'o', 'a'], '-' :: '-' :: ['o', 'u', 't', '=', 'b'], ['x']].map some)
      helpAndOut.opts (fun _ => 0) = some s ∧
    calls (some ['p'] :: [['-', 'h', 'o', 'a'], '-' :: '-' :: ['o', 'u', 't', '=', 'b'],
      ['x']].map some) helpAndOut.opts 4 s =
      some ([⟨104, some 0, none, fun _ => 0⟩, ⟨111, some 1, some ['a'], fun _ => 0⟩,
        ⟨111, some 1, some ['b'], fun _ => 0⟩,
        ⟨-1, none, none, fun _ => 0⟩], s') := by
  refine getopt_round_trip helpAndOut ['p'] [.shortValue [0] 1 ['a'], .longValue 1 ['b']]
    (.operand ['x'] [] (.inl (by simp))) (fun _ => 0) ?_
  refine ⟨⟨?_, ⟨_, rfl, by decide, .inl rfl⟩, by simp, by decide⟩,
    ⟨⟨_, _, rfl, rfl, .inl rfl⟩, by decide⟩, trivial⟩
  intro j hj
  obtain rfl : j = 0 := by simpa using hj
  exact ⟨_, rfl, by decide, rfl⟩

end Gpcl.Getopt
