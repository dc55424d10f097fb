import Gpcl.Getopt.RoundTrip

/-! # Turns

What is left of the command line is a place: the rest of a word of short options, and the words
behind it. A call makes one turn, by what stands there alone. A long option with a value that it
does not take, or one that is not in the table, leaves the place as it is. -/
namespace Gpcl.Getopt

variable {F : Type}

/-- The characters left of a word of short options, and the words behind it. -/
structure Place where
  inside : Word
  next : List (Option Word)

/-- What a call does. The option that it reports is not there if it is not in the table. -/
inductive Turn
  -- it returns -1, and the words from here on are left
  | ends (p : Place)
  -- an option has to have an argument, and no word is left
  | misses
  -- a long option whose word is not left
  | stays (i : Option Nat)
  | passes (i : Option Nat) (p : Place)

section turns
variable (opts : List (Opt F))

def typeOf (i : Nat) : OptionType := opts[i]?.elim .noArg (·.type)

/-- An option at the end of its word: its argument may be the next one. -/
def turnAtEnd (i : Nat) : List (Option Word) → Turn
  | [] => if typeOf opts i = .required then .misses else .passes (some i) ⟨[], []⟩
  | none :: next =>
    if typeOf opts i = .required ∨ typeOf opts i = .optional then .misses
      else .passes (some i) ⟨[], none :: next⟩
  | some v :: next =>
    .passes (some i) ⟨[], if takesRest (typeOf opts i) v then next else some v :: next⟩

/-- A short option, with `ds` behind it in its word. -/
def turnShort (c : Char) (ds : Word) (next : List (Option Word)) : Turn :=
  match opts.findIdx? (c == ·.nameShort) with
  | none => .passes none ⟨ds, next⟩
  | some i =>
    if ds = [] then turnAtEnd opts i next
    else .passes (some i) ⟨if takesRest (typeOf opts i) ds then [] else ds, next⟩

/-- A long option, `body` being what stands behind the dashes. -/
def turnLong (body : Word) (next : List (Option Word)) : Turn :=
  match body.findIdx? (· == '=') with
  | none => match opts.findIdx? (·.name == some body) with
    | none => .stays none
    | some i => turnAtEnd opts i next
  | some k => match opts.findIdx? (·.name == some (body.take k)) with
    | none => .stays none
    | some i =>
      if takesRest (typeOf opts i) (body.drop (k + 1)) then .passes (some i) ⟨[], next⟩
        else .stays (some i)

def turn : Place → Turn
  | ⟨c :: ds, next⟩ => turnShort opts c ds next
  | ⟨[], some ('-' :: '-' :: []) :: next⟩ => .ends ⟨[], next⟩
  | ⟨[], some ('-' :: '-' :: c :: body) :: next⟩ => turnLong opts (c :: body) next
  | ⟨[], some ('-' :: c :: ds) :: next⟩ => turnShort opts c ds next
  | ⟨[], next⟩ => .ends ⟨[], next⟩

def reported : Option Nat → BitVec 32
  | some i => opts[i]?.elim 63 returned
  | none => 63

end turns

/-! ## Turns get on -/

def Place.size (p : Place) : Nat :=
  p.inside.length + (p.next.map fun w => w.elim 1 (·.length + 1)).sum

section
variable {opts : List (Opt F)} {i : Option Nat} {p q : Place} {next : List (Option Word)}

theorem size_turnAtEnd {j : Nat} (h : turnAtEnd opts j next = .passes i q) :
    q.size ≤ (Place.mk [] next).size := by
  cases next with
  | nil =>
    rw [turnAtEnd] at h
    split at h
    · cases h
    · cases h
      exact Nat.le_refl _
  | cons w next =>
    cases w with
    | none =>
      rw [turnAtEnd] at h
      split at h
      · cases h
      · cases h
        exact Nat.le_refl _
    | some v =>
      cases h
      split <;> simp [Place.size]

theorem size_turnShort {c : Char} {ds : Word} (h : turnShort opts c ds next = .passes i q) :
    q.size ≤ (Place.mk ds next).size := by
  rw [turnShort] at h
  split at h
  · cases h
    exact Nat.le_refl _
  · split at h
    · next hnil =>
      rw [hnil]
      exact size_turnAtEnd h
    · cases h
      split <;> simp [Place.size]

theorem size_turnLong {body : Word} (h : turnLong opts body next = .passes i q) :
    q.size ≤ (Place.mk [] next).size := by
  rw [turnLong] at h
  split at h
  · split at h
    · cases h
    · exact size_turnAtEnd h
  · split at h
    · cases h
    · split at h
      · cases h
        exact Nat.le_refl _
      · cases h

theorem turn_passes_size (h : turn opts p = .passes i q) : q.size < p.size := by
  unfold turn at h
  split at h
  · have hle := size_turnShort h
    simp only [Place.size, List.length_cons] at hle ⊢
    omega
  · cases h
  · have hle := size_turnLong h
    simp [Place.size] at hle ⊢
    omega
  · have hle := size_turnShort h
    simp [Place.size] at hle ⊢
    omega
  · cases h

end

/-! ## Calls make turns -/

/-- `optind_` when the call has started. -/
def State.index (s : State F) : Nat := if s.optind = 0 then 1 else s.optind

def State.begun (s : State F) : State F := { s with optarg := none, opt := none, optind := s.index }

theorem State.index_pos (s : State F) : 0 < s.index := by
  rw [State.index]
  split <;> omega

theorem State.index_eq {s : State F} (h : 0 < s.optind) : s.index = s.optind :=
  if_neg (Nat.pos_iff_ne_zero.mp h)

/-- The parser is at a place. Between two words `optpos_` may be set by a long option whose word was
not left. -/
inductive Sim (argv : List (Option Word)) (s : State F) : Place → Prop
  | between {next : List (Option Word)} : s.optpos = 0 ∨
    (∃ c body rest, next = some ('-' :: '-' :: c :: body) :: rest) →
      argv.drop s.index = next → Sim argv s ⟨[], next⟩
  | inside {a ds : Word} {next : List (Option Word)} : ds ≠ [] → Shorts ('-' :: (a ++ ds)) →
    s.optpos = a.length + 1 →
      argv.drop s.index = some ('-' :: (a ++ ds)) :: next → Sim argv s ⟨ds, next⟩

section
variable {argv : List (Option Word)} {opts : List (Opt F)} {s s' : State F} {o : Opt F} {i : Nat}
    {p : Place}
  {next : List (Option Word)} {a ds w : Word}

/-- Behind a word. -/
theorem Sim.behind (hpos : s.optpos = 0) (hind : 0 < s.optind) (hnext : argv.drop s.optind = next) :
    Sim argv s ⟨[], next⟩ :=
  .between (.inl hpos) (by rw [State.index_eq hind]; exact hnext)

theorem typeOf_eq (ho : opts[i]? = some o) : typeOf opts i = o.type := by
  rw [typeOf, ho, Option.elim_some]

theorem reported_eq (ho : opts[i]? = some o) : reported opts (some i) = returned o := by
  rw [reported, ho, Option.elim_some]

theorem found {f : Opt F → Bool} (h : opts.findIdx? f = some i) : ∃ o, opts[i]? = some o := by
  obtain ⟨hi, -⟩ := List.findIdx?_eq_some_iff_getElem.mp h
  exact ⟨_, List.getElem?_eq_getElem hi⟩

variable [DecidableEq F]

theorem handle_bare (ho : opts[i]? = some o) (ht : takesArgument argv o.type s = some false) :
    handleOption argv opts i s =
      some (reported opts (some i), { s with flags := effect o s.flags }) := by
  rw [reported_eq ho]
  simp only [handleOption, ho, ht, Option.bind_some, Bool.false_eq_true, if_false, Option.map_some,
    handleFlag_returned]

theorem handle_taken {v : Word} (ho : opts[i]? = some o)
    (ht : takesArgument argv o.type s = some true)
    (hv : argument argv s = some v) : handleOption argv opts i s = some (reported opts (some i),
      { s with
        optarg := some v, optind := s.optind + 1, optpos := 0, flags := effect o s.flags }) := by
  rw [reported_eq ho]
  simp only [handleOption, ho, ht, hv, Option.bind_some, if_true, Option.map_some,
    handleFlag_returned]

theorem handle_lacking (ho : opts[i]? = some o) (ht : takesArgument argv o.type s = some true)
    (hv : argument argv s = none) :
    handleOption argv opts i s = none := by
  simp only [handleOption, ho, ht, hv, Option.bind_some, if_true, Option.map_none]

/-- A call that makes a turn at a place. -/
def Makes (argv : List (Option Word)) (opts : List (Opt F)) (p : Place)
    (r : Option (BitVec 32 × State F)) : Turn → Prop
  | .ends q => ∃ s, r = some (-1, s) ∧ Sim argv s q
  | .misses => r = none
  | .stays i => ∃ s, r = some (reported opts i, s) ∧ Sim argv s p
  | .passes i q => ∃ s, r = some (reported opts i, s) ∧ Sim argv s q

/-- The rest of the word is the argument. -/
theorem makes_rest (ho : opts[i]? = some o) (hnext : argv.drop s.optind = some (a ++ ds) :: next)
    (hp : s.optpos = a.length) (ht : takesRest o.type ds = true) :
    Makes argv opts p (handleOption argv opts i s) (.passes (some i) ⟨[], next⟩) := by
  have hget := head_of_drop hnext
  have htakes := takes_rest o.type hget hp
  rw [ht] at htakes
  exact ⟨_, handle_taken ho htakes (argument_eq hget hp),
    .behind rfl (Nat.succ_pos _) (tail_of_drop hnext)⟩

/-- An option at the end of its word. -/
theorem makes_atEnd (ho : opts[i]? = some o) (hpos : s.optpos = 0) (hind : 0 < s.optind)
    (hnext : argv.drop s.optind = next) :
    Makes argv opts p (handleOption argv opts i s) (turnAtEnd opts i next) := by
  have hbare (ht : takesArgument argv o.type s = some false) :
      Makes argv opts p (handleOption argv opts i s) (.passes (some i) ⟨[], next⟩) :=
    ⟨_, handle_bare ho ht, .behind hpos hind hnext⟩
  cases next with
  | nil =>
    have hle : argv.length ≤ s.optind := List.drop_eq_nil_iff.mp hnext
    have hget : argv[s.optind]? = none := List.getElem?_eq_none hle
    rw [turnAtEnd, typeOf_eq ho]
    cases htype : o.type with
    | required =>
      have harg : argument argv s = none := by rw [argument, hget]; rfl
      exact handle_lacking ho (by rw [htype]; rfl) harg
    | optional => exact hbare (by rw [htype, takesArgument, if_neg (Nat.not_lt.mpr hle)])
    | _ => exact hbare (by rw [htype]; rfl)
  | cons v next =>
    have hget := head_of_drop hnext
    have hlt := (List.getElem?_eq_some_iff.mp hget).1
    cases v with
    | none =>
      rw [turnAtEnd, typeOf_eq ho]
      cases htype : o.type with
      | required =>
        have harg : argument argv s = none := by rw [argument, hget]; rfl
        exact handle_lacking ho (by rw [htype]; rfl) harg
      | optional =>
        have htakes : takesArgument argv o.type s = none := by
          rw [htype, takesArgument, if_pos hlt, hget]; rfl
        show handleOption argv opts i s = none
        rw [handleOption, ho, Option.bind_some, htakes, Option.bind_none]
      | _ => exact hbare (by rw [htype]; rfl)
    | some v =>
      rw [turnAtEnd, typeOf_eq ho]
      have hword : argv.drop s.optind = some ([] ++ v) :: next := hnext
      cases ht : takesRest o.type v with
      | true => exact makes_rest ho hword hpos ht
      | false =>
        exact hbare ((takes_rest o.type (head_of_drop hword) hpos).trans (congrArg some ht))

/-! ### Words -/

/-- What a call does with the option it has come to. -/
def conclude (argv : List (Option Word)) (opts : List (Opt F)) :
    Located F → Option (BitVec 32 × State F)
  | .ends s => some (-1, s)
  | .unknown s => some (63, s)
  | .option i s => handleOption argv opts i s

theorem call_begun (argv : List (Option Word)) (opts : List (Opt F)) (s : State F) :
    call argv opts s = (locate argv opts s.begun).bind (conclude argv opts) := rfl

omit [DecidableEq F] in
theorem Sim.congr (h : Sim argv s p) (hind : s'.index = s.index) (hpos : s'.optpos = s.optpos) :
    Sim argv s' p := by
  cases h with
  | between hlong hnext => exact .between (hpos ▸ hlong) (hind ▸ hnext)
  | inside hds hshort hreached hnext =>
    exact .inside hds hshort (hpos.trans hreached) (hind ▸ hnext)

omit [DecidableEq F] in
theorem index_begun (s : State F) : s.begun.index = s.index := State.index_eq s.index_pos

omit [DecidableEq F] in
theorem Shorts.shift {c : Char} (h : Shorts ('-' :: (a ++ c :: ds))) :
    Shorts ('-' :: (a ++ [c] ++ ds)) := by
  rwa [List.append_assoc, List.singleton_append]

omit [DecidableEq F] in
/-- Behind a character of a word of short options. -/
theorem sim_behindShort {c : Char} (hshort : Shorts ('-' :: (a ++ c :: ds))) (hind : 0 < s.optind)
    (hnext : argv.drop s.optind = some ('-' :: (a ++ c :: ds)) :: next) :
    Sim argv (s.behindShort a ds) ⟨ds, next⟩ := by
  rw [State.behindShort]
  split
  · next hnil =>
    rw [hnil]
    exact .behind rfl (Nat.succ_pos _) (tail_of_drop hnext)
  · next hne =>
    have hword : '-' :: (a ++ c :: ds) = '-' :: (a ++ [c] ++ ds) := by
      rw [List.append_assoc, List.singleton_append]
    refine .inside (a := a ++ [c]) hne hshort.shift (by rw [List.length_append]; rfl) ?_
    rw [← hword]
    exact (congrArg argv.drop (State.index_eq hind)).trans hnext

/-- A character of a word of short options. -/
theorem makes_short {c : Char} (hshort : Shorts ('-' :: (a ++ c :: ds))) (hnul : nul ∉ ds)
    (hind : 0 < s.optind) (hreached : Reached a s.optpos)
    (hnext : argv.drop s.optind = some ('-' :: (a ++ c :: ds)) :: next) :
    Makes argv opts p ((shortOption opts ('-' :: (a ++ c :: ds)) s).bind (conclude argv opts))
      (turnShort opts c ds next) := by
  have hsim := sim_behindShort hshort hind hnext
  rw [shortOption_eq opts a ds c hreached hnul, Option.bind_some, turnShort]
  cases hfind : opts.findIdx? (c == ·.nameShort) with
  | none => exact ⟨_, rfl, hsim⟩
  | some i =>
    obtain ⟨o, ho⟩ := found hfind
    dsimp only [conclude]
    by_cases hnil : ds = []
    · rw [if_pos hnil, State.behindShort, if_pos hnil]
      exact makes_atEnd ho rfl (Nat.succ_pos _) (tail_of_drop hnext)
    · have hword : argv.drop s.optind = some ('-' :: (a ++ [c]) ++ ds) :: next := by
        rw [hnext]; simp
      rw [State.behindShort, if_neg hnil] at hsim
      rw [if_neg hnil, State.behindShort, if_neg hnil, typeOf_eq ho]
      cases ht : takesRest o.type ds with
      | true => exact makes_rest ho hword (by simp) ht
      | false =>
        have htakes :
            takesArgument argv o.type { s with optpos := a.length + 2, opt := some i } =
              some (takesRest o.type ds) :=
          takes_rest o.type (head_of_drop hword) (by simp)
        exact ⟨_, handle_bare ho (htakes.trans (congrArg some ht)), hsim.congr rfl rfl⟩

/-- A long option. -/
theorem makes_long {c : Char} {body : Word} (hind : 0 < s.optind)
    (hnext : argv.drop s.optind = some ('-' :: '-' :: c :: body) :: next) :
    Makes argv opts ⟨[], some ('-' :: '-' :: c :: body) :: next⟩
      (conclude argv opts (longOption opts ('-' :: '-' :: c :: body) s))
      (turnLong opts (c :: body) next) := by
  have hstay {s' : State F} (hs' : s'.optind = s.optind) :
      Sim argv s' ⟨[], some ('-' :: '-' :: c :: body) :: next⟩ := by
    refine .between (.inr ⟨c, body, next, rfl⟩) ?_
    rw [State.index_eq (hs' ▸ hind), hs', hnext]
  have hbody : ('-' :: '-' :: c :: body).drop 2 = c :: body := rfl
  rw [longOption, hbody, turnLong]
  cases hpos : (c :: body).findIdx? (· == '=') with
  | none =>
    dsimp only
    cases hfind : opts.findIdx? (·.name == some (c :: body)) with
    | none => exact ⟨s, rfl, hstay rfl⟩
    | some i =>
      obtain ⟨o, ho⟩ := found hfind
      exact makes_atEnd ho rfl (Nat.succ_pos _) (tail_of_drop hnext)
  | some k =>
    dsimp only
    cases hfind : opts.findIdx? (·.name == some ((c :: body).take k)) with
    | none => exact ⟨s, rfl, hstay rfl⟩
    | some i =>
      obtain ⟨o, ho⟩ := found hfind
      have hk : k < (c :: body).length := (List.findIdx?_eq_some_iff_getElem.mp hpos).1
      have hword :
          argv.drop s.optind = some
            ('-' :: '-' :: (c :: body).take (k + 1) ++ (c :: body).drop (k + 1)) :: next := by
        rw [hnext, List.cons_append, List.cons_append, List.take_append_drop]
      have hlen : ('-' :: '-' :: (c :: body).take (k + 1)).length = 2 + k + 1 := by
        rw [List.length_cons, List.length_cons, List.length_take_of_le hk]
        omega
      dsimp only [conclude]
      rw [typeOf_eq ho]
      cases ht : takesRest o.type ((c :: body).drop (k + 1)) with
      | true => exact makes_rest ho hword hlen.symm ht
      | false =>
        have htakes :
            takesArgument argv o.type { s with opt := some i, optpos := 2 + k + 1 } = some _ :=
          takes_rest o.type (head_of_drop hword) hlen.symm
        exact ⟨_, handle_bare ho (htakes.trans (congrArg some ht)), hstay rfl⟩

omit [DecidableEq F] in
theorem turn_operand {c : Char} (hc : c ≠ '-') (opts : List (Opt F)) (w : Word)
    (next : List (Option Word)) :
    turn opts ⟨[], some (c :: w) :: next⟩ = .ends ⟨[], some (c :: w) :: next⟩ := by simp [turn, hc]

omit [DecidableEq F] in
theorem turn_short {c : Char} (hc : c ≠ '-') (opts : List (Opt F)) (ds : Word)
    (next : List (Option Word)) :
    turn opts ⟨[], some ('-' :: c :: ds) :: next⟩ = turnShort opts c ds next := by simp [turn, hc]

/-- Every call makes the turn of the place where the parser is. -/
theorem Sim.call (h : Sim argv s p) (opts : List (Opt F)) (hw : ∀ w, some w ∈ argv → nul ∉ w) :
    Makes argv opts p (Getopt.call argv opts s) (turn opts p) := by
  have hind : 0 < s.begun.optind := s.index_pos
  rw [call_begun]
  cases h with
  | @inside a ds next hds hshort hpos hnext =>
    obtain ⟨c, ds, rfl⟩ := List.exists_cons_of_ne_nil hds
    have hget : argv[s.begun.optind]? = some (some ('-' :: (a ++ c :: ds))) := head_of_drop hnext
    have hnul : nul ∉ ds := fun hmem => hw _ (List.mem_of_getElem? hget) (by simp [hmem])
    rw [locate_short hget hshort]
    exact makes_short hshort hnul hind (.inl hpos) hnext
  | @between next hpos hnext =>
    have hstay : Sim argv s.begun ⟨[], next⟩ := (Sim.between hpos hnext).congr (index_begun s) rfl
    match next, hnext with
    | [], hnext =>
      have hle : argv.length ≤ s.begun.optind := List.drop_eq_nil_iff.mp hnext
      rw [locate, if_pos hle]
      exact ⟨_, rfl, hstay⟩
    | none :: next, hnext =>
      have hget : argv[s.begun.optind]? = some none := head_of_drop hnext
      rw [locate, if_neg (Nat.not_le.mpr (List.getElem?_eq_some_iff.mp hget).1), hget]
      exact ⟨_, rfl, hstay⟩
    | some w :: next, hnext =>
      have hget : argv[s.begun.optind]? = some (some w) := head_of_drop hnext
      have hnul := hw w (List.mem_of_getElem? hget)
      rw [locate_eq hget]
      cases w with
      | nil => exact ⟨_, rfl, hstay⟩
      | cons c w =>
        by_cases hc : c = '-'
        · subst hc
          cases w with
          | nil => exact ⟨_, rfl, hstay⟩
          | cons c ds =>
            by_cases hdash : c = '-'
            · subst hdash
              cases ds with
              | nil =>
                have hzero : s.optpos = 0 := hpos.resolve_right (by simp)
                exact ⟨_, rfl, .behind hzero (Nat.succ_pos _) (tail_of_drop hnext)⟩
              | cons c body =>
                rw [locateIn_long fun he => hnul (by simp [he])]
                exact makes_long hind hnext
            · have hc : c ≠ nul := fun he => hnul (by simp [he])
              have hshort : Shorts ('-' :: ([] ++ c :: ds)) := ⟨c, ds, rfl, hc, hdash⟩
              have hzero : s.optpos = 0 := hpos.resolve_right (by simp [hdash])
              rw [locateIn_short hc hdash, turn_short hdash]
              exact makes_short hshort (fun hmem => hnul (by simp [hmem])) hind
                (.inr ⟨rfl, hzero⟩) hnext
        · have hends : locateIn opts (c :: w) s.begun = some (.ends s.begun) := by
            simp [locateIn, hc]
          rw [hends, turn_operand hc]
          exact ⟨_, rfl, hstay⟩

end

end Gpcl.Getopt
