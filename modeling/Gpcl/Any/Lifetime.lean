import Gpcl.Any.Inside

/-! # The objects of anys

`effect` says what each operation is meant to do to the contents of the anys. A run is right
exactly when no object in a local buffer meets a self-move-assignment or a self-swap, and when none
is moved between an any and one inside of it. -/
namespace Gpcl.Any
open Lib.Forests Lib.Runs

variable {I T V : Type}

/-- The type and the value, without the number of the object. -/
def Held.forget (h : Held T (Nat × V)) : Held T V := ⟨h.manage, h.object.map Prod.snd⟩

/-- The anys in scope with their types and values. -/
abbrev Contents (I T V : Type) := Forest (Place I) (Held T V)

def State.contents (s : State I T V) : Contents I T V := s.scope.relabel Held.forget

variable [DecidableEq I] (ty : Types T V)

/-- Every object that was constructed is in one any or has been destroyed once, none has been read
after its destruction, and no temporary is left. -/
structure Sound (s : State I T V) : Prop where
  ledger : Ledger s
  unread : s.stale = false
  temporaries : s.scope.occurs .argument = 0 ∧ s.scope.occurs .temp = 0

/-- What a move leaves behind. -/
def left : Held T V → Held T V
  | ⟨some t, some x⟩ => if localStorage ty t then ⟨some t, some (ty.left t x)⟩ else ⟨none, none⟩
  | _ => ⟨none, none⟩

/-- The new object, and the anys inside of it. -/
def Arg.made (c : Contents I T V) : Arg I V → Option (V × Contents I T V)
  | .value x => some (x, .nil)
  | .content w make _ takes =>
    match c.find? (.var w) with
    | some (⟨_, some x⟩, b) => some (make x, if takes then b else .nil)
    | _ => none
  | .copy w make names =>
    match c.find? (.var w) with
    | some (⟨_, some x⟩, b) => some (make x, b.rename (Place.map names))
    | _ => none

/-- What becomes of the object that the argument refers to. -/
def Arg.after (threw : Bool) (c : Contents I T V) : Arg I V → Contents I T V
  | .content w _ leave takes =>
    match c.find? (.var w) with
    | some (⟨m, some x⟩, b) =>
      c.set (.var w) ⟨m, some (leave x)⟩ (if takes && !threw then .nil else b)
    | _ => c
  | _ => c

/-- What an operation is meant to do to the contents. -/
def effect (c : Contents I T V) : Act I T V → Contents I T V
  | .defaultConstruct home v => c.add (home.map .var) (.var v) ⟨none, none⟩ .nil
  | .construct throws home v t arg =>
    match throws, arg.made c with
    | none, some (x, b) => (arg.after false c).add (home.map .var) (.var v) ⟨some t, some x⟩ b
    | _, _ => arg.after true c
  | .assign throws v t arg | .emplace throws v t arg =>
    match throws, arg.made c with
    | none, some (x, b) => (arg.after false c).set (.var v) ⟨some t, some x⟩ b
    | _, _ => arg.after true c
  | .copyConstruct throws home v other names =>
    match c.find? (.var other) with
    | some (h, b) =>
      if throws.isSome && h.manage.isSome then c
      else c.add (home.map .var) (.var v) h (b.rename (Place.map names))
    | none => c
  | .copyAssign throws v other names =>
    match c.find? (.var other) with
    | some (h, b) =>
      if throws.isSome && h.manage.isSome then c else c.set (.var v) h (b.rename (Place.map names))
    | none => c
  | .moveConstruct home v other =>
    match c.find? (.var other) with
    | some (h, b) => (c.set (.var other) (left ty h) .nil).add (home.map .var) (.var v) h b
    | none => c
  | .moveAssign v other =>
    match c.find? (.var other) with
    | some (h, b) => (c.set (.var v) h b).set (.var other) (left ty h) .nil
    | none => c
  | .destruct v => c.erase (.var v)
  | .reset v => c.set (.var v) ⟨none, none⟩ .nil
  | .swap v other =>
    match c.find? (.var v), c.find? (.var other) with
    | some (h, b), some (k, d) => (c.set (.var v) k d).set (.var other) h b
    | _, _ => c

structure Correct (s : State I T V) (a : Act I T V) (s' : State I T V) : Prop where
  sound : Sound s'
  contents : s'.contents = effect ty s.contents a

/-- The argument does not take the any along. -/
def Arg.Spares (s : State I T V) (v : I) : Arg I V → Prop
  | .content w _ _ true => ¬ s.scope.Inside (.var v) (.var w)
  | _ => True

/-- Neither any is inside of the other one, and no object in a local buffer is moved to itself. -/
def Separate (s : State I T V) (v other : I) : Prop :=
  (¬ s.scope.Inside (.var v) (.var other) ∧ ¬ s.scope.Inside (.var other) (.var v)) ∧
    (v = other → ∀ t, s.manager (.var v) = some t → localStorage ty t = false)

def Clean (s : State I T V) : Act I T V → Prop
  | .moveAssign v other | .swap v other => Separate ty s v other
  | .moveConstruct home _ other => Outside s.scope home (.var other)
  | .construct none home _ _ arg => ∀ w, home = some w → arg.Spares s w
  | .assign none v _ arg | .emplace none v _ arg => arg.Spares s v
  | _ => True

section
variable {ty} {s : State I T V} {f b c : Anys I T V} {h k : Held T (Nat × V)} {v other : I}
  {p : Place I} {home : Option I}

/-! ## Without the numbers -/

omit [DecidableEq I] in
@[simp] theorem forget_given (ty : Types T V) (n : Nat) (h : Held T (Nat × V)) :
    (given ty n h).forget = h.forget := by
  obtain ⟨_ | t, _ | ⟨o, x⟩⟩ := h
  · rfl
  · rfl
  · rfl
  · simp only [given]
    split
    · rfl
    · rfl

omit [DecidableEq I] in
@[simp] theorem forget_kept (ty : Types T V) (h : Held T (Nat × V)) :
    (kept ty h).forget = left ty h.forget := by
  obtain ⟨_ | t, _ | ⟨o, x⟩⟩ := h
  · rfl
  · rfl
  · rfl
  · simp only [kept, left, Held.forget, Option.map_some]
    split
    · rfl
    · rfl

omit [DecidableEq I] in
@[simp] theorem relabel_renumber (n : Nat) (f : Anys I T V) :
    (renumber n f).relabel Held.forget = f.relabel Held.forget := by
  induction f generalizing n with
  | nil => rfl
  | node m k c r ihc ihr =>
    simp only [renumber, Forest.relabel, ihc, ihr, Held.forget, Option.map_map]
    rfl

omit [DecidableEq I] in
theorem relabel_rename (names : I → I) (f : Anys I T V) :
    (f.rename (Place.map names)).relabel Held.forget =
      (f.relabel Held.forget).rename (Place.map names) := by
  induction f with
  | nil => rfl
  | node m k c r ihc ihr => simp only [Forest.rename, Forest.relabel, ihc, ihr]

theorem contents_find? (hx : s.scope.find? p = some (h, b)) :
    s.contents.find? p = some (h.forget, b.relabel Held.forget) := by
  unfold State.contents
  rw [Forest.find?_relabel, hx]
  rfl

theorem contents_add (home : Option I) (p : Place I) (h : Held T (Nat × V)) (b : Anys I T V)
    (s : State I T V) : (s.add home p h b).contents =
      s.contents.add (home.map .var) p h.forget (b.relabel Held.forget) :=
  Forest.relabel_add _ _ _ _ _ _

/-! ## Temporaries -/

def stray : Place I → Nat
  | .var _ => 0
  | .argument | .temp => 1

def strays {L : Type} (f : Forest (Place I) L) : Nat := f.sum fun m _ => stray m

theorem occurs_eq_zero {L : Type} {f : Forest (Place I) L} (hf : strays f = 0) (hp : stray p = 1) :
    f.occurs p = 0 := by
  have hle : f.occurs p ≤ strays f := by
    refine Forest.sum_mono (fun m _ => ?_) f
    by_cases hm : m = p
    · exact Nat.le_of_eq (by rw [if_pos hm, hm, hp])
    · rw [if_neg hm]
      exact Nat.zero_le _
  omega

omit [DecidableEq I] in
theorem strays_rename {L : Type} (names : I → I) (f : Forest (Place I) L) :
    strays (f.rename (Place.map names)) = strays f := by
  unfold strays
  rw [Forest.sum_rename]
  congr 1
  funext m _
  cases m with
  | var v => rfl
  | argument => rfl
  | temp => rfl

theorem strays_find? {L : Type} {f : Forest (Place I) L} {x : L × Forest (Place I) L}
    (hf : strays f = 0) (hx : f.find? p = some x) : strays x.2 = 0 :=
  Nat.eq_zero_of_le_zero (hf ▸ Forest.sum_le_of_find? hx)

theorem strays_set {L : Type} {f b : Forest (Place I) L} (hf : strays f = 0) (v : I) (l : L)
    (hb : strays b = 0) : strays (f.set (.var v) l b) = 0 := Forest.sum_set_eq_zero hf rfl hb

theorem strays_add {L : Type} {f b : Forest (Place I) L} (hf : strays f = 0) (home : Option I)
    (v : I) (l : L) (hb : strays b = 0) : strays (f.add (home.map .var) (.var v) l b) = 0 :=
  Forest.sum_add_eq_zero hf rfl hb

theorem strays_made {c : Contents I T V} (hc : strays c = 0) {arg : Arg I V} {x : V}
    {b : Contents I T V} (hm : arg.made c = some (x, b)) : strays b = 0 := by
  cases arg with
  | value y =>
    cases hm
    rfl
  | content w make leave takes =>
    simp only [Arg.made] at hm
    split at hm
    · rename_i m y b' hw
      cases hm
      cases takes with
      | true => exact strays_find? hc hw
      | false => rfl
    · cases hm
  | copy w make names =>
    simp only [Arg.made] at hm
    split at hm
    · rename_i m y b' hw
      cases hm
      rw [strays_rename]
      exact strays_find? hc hw
    · cases hm

theorem strays_after {c : Contents I T V} (hc : strays c = 0) (threw : Bool) (arg : Arg I V) :
    strays (arg.after threw c) = 0 := by
  cases arg with
  | value y => exact hc
  | content w make leave takes =>
    simp only [Arg.after]
    split
    · rename_i m y b hw
      refine strays_set hc w _ ?_
      split
      · rfl
      · exact strays_find? hc hw
    · exact hc
  | copy w make names => exact hc

/-- What the operations are meant to do leaves no temporary. -/
theorem strays_effect (ty : Types T V) {c : Contents I T V} (hc : strays c = 0) (a : Act I T V) :
    strays (effect ty c a) = 0 := by
  cases a with
  | defaultConstruct home v => exact strays_add hc home v _ rfl
  | construct throws home v t arg =>
    simp only [effect]
    split
    · rename_i hm
      exact strays_add (strays_after hc false arg) home v _ (strays_made hc hm)
    · exact strays_after hc true arg
  | assign throws v t arg | emplace throws v t arg =>
    simp only [effect]
    split
    · rename_i hm
      exact strays_set (strays_after hc false arg) v _ (strays_made hc hm)
    · exact strays_after hc true arg
  | copyConstruct throws home v other names =>
    simp only [effect]
    split
    · rename_i ho
      split
      · exact hc
      · exact strays_add hc home v _ ((strays_rename names _).trans (strays_find? hc ho))
    · exact hc
  | copyAssign throws v other names =>
    simp only [effect]
    split
    · rename_i ho
      split
      · exact hc
      · exact strays_set hc v _ ((strays_rename names _).trans (strays_find? hc ho))
    · exact hc
  | moveConstruct home v other =>
    simp only [effect]
    split
    · rename_i ho
      exact strays_add (strays_set hc other _ rfl) home v _ (strays_find? hc ho)
    · exact hc
  | moveAssign v other =>
    simp only [effect]
    split
    · rename_i ho
      exact strays_set (strays_set hc v _ (strays_find? hc ho)) other _ rfl
    · exact hc
  | destruct v => exact Forest.sum_erase_eq_zero hc
  | reset v => exact strays_set hc v _ rfl
  | swap v other =>
    simp only [effect]
    split
    · rename_i hv ho
      exact strays_set (strays_set hc v _ (strays_find? hc ho)) other _ (strays_find? hc hv)
    · exact hc

/-! ## The arguments of constructors -/

/-- What is known of an argument that has been read. -/
structure Reads (s : State I T V) (arg : Arg I V) (x : V) (b : Anys I T V) (s' : State I T V) :
    Prop where
  read : arg.read s = some (x, b, s')
  inHand : InHand s' b
  made : arg.made s.contents = some (x, b.relabel Held.forget)
  after : s'.contents = arg.after false s.contents
  fewer : ∀ p, s'.scope.occurs p ≤ s.scope.occurs p
  spares : ∀ u y, arg.Spares s u → s.scope.find? (.var u) = some y →
    ∃ y', s'.scope.find? (.var u) = some y' ∧ (y.1.object ≠ none → y'.1.object ≠ none)

/-- The object of an any gets another value, and its anys stay or go. -/
theorem find?_left (hi : Inv s) {w : I} {k : Held T (Nat × V)}
    (hw : s.scope.find? (.var w) = some (h, b)) (hk : k.object ≠ none) (takes : Bool) {u : I}
    {y : Held T (Nat × V) × Anys I T V} (hspare : takes = true → ¬ s.scope.Inside (.var u) (.var w))
    (hu : s.scope.find? (.var u) = some y) :
    ∃ y', (s.scope.set (.var w) k (if takes then .nil else b)).find? (.var u) = some y' ∧
      (y.1.object ≠ none → y'.1.object ≠ none) := by
  by_cases hne : Place.var u = .var w
  · rw [hne, Forest.find?_set_self (Forest.occurs_pos hw)]
    exact ⟨_, rfl, fun _ => hk⟩
  · rcases Nat.eq_zero_or_pos (b.occurs (.var u)) with hzero | hpos
    · have hbelow : (if takes then Forest.nil else b).occurs (.var u) = 0 := by
        split
        · rfl
        · exact hzero
      refine ⟨(y.1, y.2.set (.var w) k (if takes then .nil else b)), ?_, id⟩
      rw [Forest.find?_set (hi.distinct _) hne hbelow, hu, Option.map_some]
      intro x hx
      cases hw.symm.trans hx
      exact hzero
    · have htakes : takes = false := by
        by_contra ht
        exact hspare (by simpa using ht) ⟨_, hw, hpos⟩
      rw [htakes, if_neg Bool.false_ne_true]
      refine ⟨y, ?_, id⟩
      rw [Forest.find?_set_below (hi.distinct _) (hi.distinct _) hw hpos]
      exact (Forest.find?_below hi.distinct hw hpos).symm.trans hu

theorem Inv.object (hi : Inv s) {w : I} (hw : s.manager (.var w) ≠ none) :
    ∃ t o x b, s.scope.find? (.var w) = some (⟨some t, some (o, x)⟩, b) := by
  cases hx : s.scope.find? (.var w) with
  | none =>
    unfold State.manager at hw
    rw [hx] at hw
    exact absurd rfl hw
  | some y =>
    obtain ⟨h, b⟩ := y
    obtain ⟨rfl, rfl⟩ | ⟨t, o, x, rfl⟩ := (whole_find? hi.whole hx).1.cases
    · exact absurd (manager_eq hx) hw
    · exact ⟨t, o, x, b, rfl⟩

theorem Inv.reads (hi : Inv s) {arg : Arg I V} (hl : arg.Legal s v) :
    ∃ x b s', Reads s arg x b s' := by
  cases arg with
  | value x =>
    exact ⟨x, .nil, s, rfl, hi.inHand, rfl, rfl, fun _ => Nat.le_refl _,
      fun _ y _ hy => ⟨y, hy, id⟩⟩
  | content w make leave takes =>
    obtain ⟨t, o, x, b, hw⟩ := hi.object hl
    have hmade := contents_find? hw
    refine ⟨make x, if takes then b else .nil,
      { s with
        scope := s.scope.set (.var w) ⟨some t, some (o, leave x)⟩ (if takes then .nil else b) },
      ?_, ?_, ?_, ?_, fun p => ?_, fun u y hspare hu => ?_⟩
    · simp only [Arg.read, hw]
    · cases takes with
      | true => exact hi.take hw (leave x)
      | false => exact (hi.leave hw (leave x)).inHand
    · simp only [Arg.made, hmade, Held.forget, Option.map_some]
      cases takes with
      | true => rfl
      | false => rfl
    · simp only [Arg.after, hmade, Held.forget, Option.map_some]
      show (s.scope.set _ _ _).relabel Held.forget = _
      rw [Forest.relabel_set]
      cases takes with
      | true => rfl
      | false => rfl
    · have hsum : (s.scope.set (.var w) ⟨some t, some (o, leave x)⟩
          (if takes then .nil else b)).occurs p + b.occurs p =
            s.scope.occurs p + (if takes then Forest.nil else b).occurs p :=
        Forest.occurs_set (hi.distinct _) hw p
      cases takes with
      | true =>
        have hnil : (Forest.nil : Anys I T V).occurs p = 0 := rfl
        simp only [if_true, hnil] at hsum ⊢
        omega
      | false =>
        simp only [Bool.false_eq_true, if_false] at hsum ⊢
        omega
    · refine find?_left hi hw (Option.some_ne_none _) takes (fun htakes => ?_) hu
      subst htakes
      exact hspare
  | copy w make names =>
    obtain ⟨hw, hnew⟩ := hl
    obtain ⟨t, o, x, b, hw⟩ := hi.object hw
    have hmade := contents_find? hw
    refine ⟨make x, renumber s.made (b.rename (Place.map names)),
      { s with made := s.made + size b },
      ?_, hi.copy hw (hnew _ hw) (hi.distinct _), ?_, rfl, fun _ => Nat.le_refl _,
      fun _ y _ hy => ⟨y, hy, id⟩⟩
    · simp only [Arg.read, hw]
    · simp only [Arg.made, hmade, Held.forget, Option.map_some, relabel_renumber, relabel_rename]

/-! ## Constructors -/

theorem Inv.housed (hi : Inv s) (hf : s.Free home v) : Housed s.scope home := by
  intro w hw
  obtain ⟨t, o, x, b, hx⟩ := hi.object (hf.2 w hw)
  exact ⟨_, hx, nofun⟩

theorem occurs_of_free (hf : s.Free home v) : s.scope.occurs (.var v) = 0 :=
  Nat.eq_zero_of_not_pos hf.1

theorem Reads.housed {arg : Arg I V} {x : V} {s' : State I T V} (hr : Reads s arg x b s')
    (hhome : Housed s.scope home) (hspare : ∀ w, home = some w → arg.Spares s w) :
    Housed s'.scope home := by
  intro w hw
  obtain ⟨y, hy, hobject⟩ := hhome w hw
  obtain ⟨y', hy', hobject'⟩ := hr.spares w y (hspare w hw) hy
  exact ⟨y', hy', hobject' hobject⟩

theorem Reads.construct {arg : Arg I V} {x : V} {s' : State I T V} (hr : Reads s arg x b s')
    (hp : s.scope.occurs p = 0) (hb : b.occurs p = 0) (hhome : Housed s'.scope home) (t : T) :
    Inv (construct none home p t arg s) ∧ (construct none home p t arg s).contents =
      (arg.after false s.contents).add (home.map .var) p ⟨some t, some x⟩
        (b.relabel Held.forget) := by
  have hp' := Nat.eq_zero_of_le_zero (hp ▸ hr.fewer p)
  simp only [Any.construct, hr.read]
  refine ⟨hr.inHand.construct hp' hb hhome t x, ?_⟩
  rw [← hr.after]
  exact contents_add home p ⟨some t, some (s'.made, x)⟩ b s'

/-- An exception leaves what the argument refers to, and nothing else. -/
theorem Inv.spent (hi : Inv s) {arg : Arg I V} (hl : arg.Legal s v) (n : Nat) :
    Inv ((arg.spent s).abandon n) ∧
      ((arg.spent s).abandon n).contents = arg.after true s.contents := by
  cases arg with
  | value x => exact ⟨hi.abandon n, rfl⟩
  | content w make leave takes =>
    obtain ⟨t, o, x, b, hw⟩ := hi.object hl
    simp only [Arg.spent, hw]
    refine ⟨(hi.leave hw (leave x)).abandon n, ?_⟩
    have hfind := contents_find? hw
    simp only [Arg.after, hfind, Held.forget, Option.map_some]
    show (s.scope.set _ _ _).relabel Held.forget = _
    rw [Forest.relabel_set, Bool.not_true, Bool.and_false, if_neg Bool.false_ne_true]
    rfl
  | copy w make names => exact ⟨hi.abandon n, rfl⟩

/-- The copy has the same types and values. -/
theorem scope_copyConstruct (throws : Option Nat) (home : Option I) (p : Place I) (names : I → I)
    (ho : s.scope.find? (.var other) = some (h, b)) (hf : Fits h b) :
    ∃ h' b', h'.forget = h.forget ∧
      b'.relabel Held.forget = (b.relabel Held.forget).rename (Place.map names) ∧
      b'.occurs p = (b.rename (Place.map names)).occurs p ∧
      (copyConstruct throws home p (.var other) names s).scope =
        if throws.isSome && h.manage.isSome then s.scope
        else s.scope.add (home.map .var) p h' b' := by
  simp only [copyConstruct, look_eq ho, manager_eq ho]
  obtain ⟨rfl, rfl⟩ | ⟨t, o, x, rfl⟩ := hf.cases
  · refine ⟨⟨none, none⟩, .nil, rfl, rfl, rfl, ?_⟩
    rw [Option.isSome_none, Bool.and_false, if_neg Bool.false_ne_true]
    rfl
  · refine ⟨⟨some t, some (s.made + size b, x)⟩, renumber s.made (b.rename (Place.map names)), rfl,
      ?_, occurs_renumber _ _ p, ?_⟩
    · rw [relabel_renumber, relabel_rename]
    · cases throws with
      | some n => rfl
      | none =>
        simp only [clone, ho]
        rfl

theorem Inv.copyConstruct (hi : Inv s) (throws : Option Nat) {names : I → I}
    (ho : s.scope.find? (.var other) = some (h, b)) (hnew : NewNames s v other names)
    (hp : s.scope.occurs p = 0) (hb : (b.rename (Place.map names)).occurs p = 0)
    (hhome : Housed s.scope home) : Inv (copyConstruct throws home p (.var other) names s) := by
  obtain ⟨hf, -⟩ := whole_find? hi.whole ho
  simp only [Any.copyConstruct, look_eq ho, manager_eq ho]
  obtain ⟨rfl, rfl⟩ | ⟨t, o, x, rfl⟩ := hf.cases
  · exact hi.addNull hp hhome
  · cases throws with
    | some n => exact hi.abandon n
    | none =>
      simp only [clone, ho]
      have hcopied := hi.copy ho (hnew _ ho) (hi.distinct _)
      have hfresh : (renumber s.made (b.rename (Place.map names))).occurs p = 0 := by
        rw [occurs_renumber]
        exact hb
      exact hcopied.construct hp hfresh hhome t x

/-! ## Assignments by way of a temporary -/

theorem swapArgument_of_none (ty : Types T V) (v : Place I) (ha : s.scope.occurs .argument = 0) :
    swapArgument ty v s = s := by
  unfold swapArgument
  rw [Forest.find?_eq_none_iff.mpr ha]
  rfl

/-- The any gets the object of the temporary, which then goes with the old one. -/
theorem Inv.swapArgument (ty : Types T V) (hi : Inv s) {g : Anys I T V}
    (e : s.scope = .node .argument h b g) (hv : 0 < g.occurs (.var v))
    (ht : s.scope.occurs .temp = 0) : Inv (swapArgument ty (.var v) s) ∧
      (swapArgument ty (.var v) s).contents =
        (g.relabel Held.forget).set (.var v) h.forget (b.relabel Held.forget) := by
  have ha : s.scope.find? .argument = some (h, b) := by rw [e, Forest.find?, if_pos rfl]
  have hone : ∀ m, (if Place.argument = m then 1 else 0) + b.occurs m + g.occurs m ≤ 1 :=
      fun m => by
    have hm := hi.distinct m
    rw [e, Forest.occurs_node] at hm
    exact hm
  have hbv : b.occurs (.var v) = 0 := by
    have hm := hone (.var v)
    omega
  obtain ⟨⟨k, d⟩, hx⟩ := Forest.occurs_pos_iff.mp hv
  have hv' : s.scope.find? (.var v) = some (k, d) := by
    rw [e, Forest.find?, if_neg (Place.var_ne_argument v), Forest.find?_eq_none_iff.mpr hbv,
      Option.none_or, hx]
  have hda : d.occurs .argument = 0 := by
    have hm := hone .argument
    rw [if_pos rfl] at hm
    have hle := Forest.occurs_le_of_find? hx .argument
    dsimp only at hle
    omega
  have hdv : d.occurs (.var v) = 0 := Forest.occurs_below_self (hi.distinct _) hv'
  have hapart : Apart s .argument (.var v) :=
    .of_find? (Place.var_ne_argument v).symm ha hv' hbv hda
  obtain ⟨hi', m, n, p, e'⟩ := swap_spec ty hi ha hv' hapart ht
  rw [e, Forest.set, if_pos rfl, Forest.set, if_neg (Place.var_ne_argument v),
    Forest.set_of_occurs hdv] at e'
  unfold Any.swapArgument
  rw [ha, Option.isSome_some, if_pos rfl]
  generalize swap ty .argument (.var v) s = s' at hi' e' ⊢
  have ha' : s'.scope.find? .argument = some (given ty m (given ty n k), d) := by
    rw [e', Forest.find?, if_pos rfl]
  refine ⟨hi'.destruct ha', ?_⟩
  rw [destruct_eq hi' ha']
  show (s'.scope.erase .argument).relabel Held.forget = _
  rw [e', Forest.erase, if_pos rfl, Forest.relabel_set, forget_given]

/-! ## Steps and runs -/

/-- Between two operations there is no temporary. -/
structure Idle (s : State I T V) : Prop extends Inv s where
  strays : strays s.scope = 0

theorem Idle.sound (hi : Idle s) : Sound s :=
  ⟨hi.ledger, hi.unread, occurs_eq_zero hi.strays rfl, occurs_eq_zero hi.strays rfl⟩

omit [DecidableEq I] in
theorem strays_contents (s : State I T V) : Any.strays s.contents = Any.strays s.scope :=
  Forest.sum_relabel _ _ _

/-- The copies of anys have names that nothing else has. -/
theorem occurs_rename (hi : Idle s) {names : I → I} (ho : s.scope.find? (.var other) = some (h, b))
    (hnew : NewNames s v other names) (hp : p = .var v ∨ stray p = 1) :
    (b.rename (Place.map names)).occurs p = 0 := by
  rcases hp with rfl | hp
  · have hm := hnew _ ho (.var v)
    rw [if_pos rfl] at hm
    dsimp only at hm
    omega
  · refine occurs_eq_zero ?_ hp
    rw [strays_rename]
    exact strays_find? hi.strays ho

theorem occurs_read (hi : Idle s) {arg : Arg I V} (hl : arg.Legal s v) {x : V} {s' : State I T V}
    (hr : Reads s arg x b s') (hp : p = .var v ∨ stray p = 1) (hs : s.scope.occurs p = 0) :
    b.occurs p = 0 := by
  have hread := hr.read
  cases arg with
  | value y =>
    cases hread
    rfl
  | content w make leave takes =>
    obtain ⟨t, o, y, c, hw⟩ := hi.object hl
    simp only [Arg.read, hw] at hread
    cases hread
    cases takes with
    | true => exact Nat.eq_zero_of_le_zero (hs ▸ Forest.occurs_le_of_find? hw p)
    | false => rfl
  | copy w make names =>
    obtain ⟨t, o, y, c, hw⟩ := hi.object hl.1
    simp only [Arg.read, hw] at hread
    cases hread
    rw [occurs_renumber]
    exact occurs_rename hi hw hl.2 hp

/-- Assignment of a value and `emplace`. -/
theorem Idle.replace (ty : Types T V) (hi : Idle s) (throws : Option Nat) {arg : Arg I V}
    (hv : s.Has v) (hl : arg.Legal s v) (hclean : throws = none → arg.Spares s v) (t : T) :
    Inv (swapArgument ty (.var v) (construct throws none .argument t arg s)) ∧
      (swapArgument ty (.var v) (construct throws none .argument t arg s)).contents =
        effect ty s.contents (.assign throws v t arg) := by
  have ha : s.scope.occurs .argument = 0 := occurs_eq_zero hi.strays rfl
  have ht : s.scope.occurs .temp = 0 := occurs_eq_zero hi.strays rfl
  cases throws with
  | some n =>
    obtain ⟨hspent, hcontents⟩ := hi.spent hl n
    have hnone : ((arg.spent s).abandon n).scope.occurs .argument = 0 := by
      refine occurs_eq_zero ?_ rfl
      rw [← strays_contents, hcontents]
      exact strays_after ((strays_contents s).trans hi.strays) true arg
    have hsame : swapArgument ty (.var v) (construct (some n) none .argument t arg s) =
        (arg.spent s).abandon n := swapArgument_of_none ty _ hnone
    rw [hsame]
    exact ⟨hspent, hcontents⟩
  | none =>
    obtain ⟨x, b, s', hr⟩ := hi.reads hl
    have hmade := hr.construct ha (occurs_read hi hl hr (.inr rfl) ha) (housed_none _) t
    have e : (construct none none .argument t arg s).scope =
        .node .argument ⟨some t, some (s'.made, x)⟩ b s'.scope := by
      simp only [construct, hr.read]
      rfl
    obtain ⟨y, hy⟩ := Forest.occurs_pos_iff.mp hv
    obtain ⟨y', hy', -⟩ := hr.spares v y (hclean rfl) hy
    have ht' : (construct none none .argument t arg s).scope.occurs .temp = 0 := by
      have hfewer := hr.fewer .temp
      rw [e, Forest.occurs_node, occurs_read hi hl hr (.inr rfl) ht, if_neg Place.argument_ne_temp]
      omega
    have hswap := hmade.1.swapArgument ty e (Forest.occurs_pos hy') ht'
    refine ⟨hswap.1, hswap.2.trans ?_⟩
    simp only [effect, hr.made]
    rw [← hr.after]
    rfl

theorem Idle.copyAssign (ty : Types T V) (hi : Idle s) (throws : Option Nat) {names : I → I}
    (hv : s.Has v) (ho : s.Has other) (hnew : NewNames s v other names) :
    Inv (copyAssign ty throws (.var v) (.var other) names s) ∧
      (copyAssign ty throws (.var v) (.var other) names s).contents =
        effect ty s.contents (.copyAssign throws v other names) := by
  obtain ⟨⟨h, b⟩, ho⟩ := Forest.occurs_pos_iff.mp ho
  have ha : s.scope.occurs .argument = 0 := occurs_eq_zero hi.strays rfl
  have ht : s.scope.occurs .temp = 0 := occurs_eq_zero hi.strays rfl
  obtain ⟨hf, -⟩ := whole_find? hi.whole ho
  have hmade := hi.copyConstruct throws ho hnew ha (occurs_rename hi ho hnew (.inr rfl))
    (housed_none _)
  obtain ⟨h', b', hh, hb, hoccurs, e⟩ := scope_copyConstruct throws none .argument names ho hf
  simp only [effect, contents_find? ho]
  unfold Any.copyAssign
  by_cases hthrew : (throws.isSome && h.manage.isSome) = true
  · rw [if_pos hthrew] at e
    rw [swapArgument_of_none ty _ (by rw [e]; exact ha)]
    refine ⟨hmade, ?_⟩
    show (copyConstruct throws none .argument (.var other) names s).scope.relabel Held.forget = _
    rw [e, if_pos (by exact hthrew)]
    rfl
  · rw [if_neg hthrew] at e
    have hb' : b'.occurs .temp = 0 := by
      rw [← Forest.occurs_relabel Held.forget, hb]
      refine occurs_eq_zero ?_ rfl
      rw [strays_rename]
      exact strays_find? ((strays_contents s).trans hi.strays) (contents_find? ho)
    have ht' :
        (copyConstruct throws none .argument (.var other) names s).scope.occurs .temp = 0 := by
      rw [e, Option.map_none, Forest.add, Forest.occurs_node, hb', ht]
      rfl
    have hswap := hmade.swapArgument ty e hv ht'
    refine ⟨hswap.1, hswap.2.trans ?_⟩
    rw [if_neg (by exact hthrew), hh, hb]
    rfl

omit [DecidableEq I] in
theorem kept_of_remote {t : T} (hl : localStorage ty t = false) (y : Nat × V) :
    kept ty ⟨some t, some y⟩ = ⟨none, none⟩ := by
  obtain ⟨o, x⟩ := y
  simp [kept, hl]

theorem Separate.kept (hs : Separate ty s v v) (hi : Inv s)
    (hx : s.scope.find? (.var v) = some (h, b)) : kept ty h = ⟨none, none⟩ := by
  obtain ⟨rfl, rfl⟩ | ⟨t, o, x, rfl⟩ := (whole_find? hi.whole hx).1.cases
  · rfl
  · exact kept_of_remote (hs.2 rfl t (manager_eq hx)) _

theorem Separate.apart (hs : Separate ty s v other) (hne : v ≠ other) :
    Apart s (.var v) (.var other) := ⟨fun he => hne (Place.var.inj he), hs.1⟩

theorem Idle.moveAssign (hi : Idle s) (hv : s.Has v) (ho : s.Has other)
    (hs : Separate ty s v other) : Inv (moveAssign ty (.var v) (.var other) s) ∧
      (moveAssign ty (.var v) (.var other) s).contents =
        effect ty s.contents (.moveAssign v other) := by
  obtain ⟨⟨k, c⟩, hv⟩ := Forest.occurs_pos_iff.mp hv
  obtain ⟨⟨h, b⟩, ho⟩ := Forest.occurs_pos_iff.mp ho
  simp only [effect, contents_find? ho]
  by_cases hne : v = other
  · subst hne
    have hkept := hs.kept hi.toInv hv
    rw [moveAssign_self_eq ty hi.toInv hv hkept]
    refine ⟨hi.reset hv, ?_⟩
    cases hv.symm.trans ho
    rw [reset_eq hi.toInv hv, Forest.set_set, ← forget_kept, hkept]
    exact Forest.relabel_set _ _ _ _ _
  · have ha := hs.apart hne
    refine ⟨hi.toInv.moveAssign ty hv ho ha, ?_⟩
    rw [moveAssign_eq ty hi.toInv hv ho ha]
    show (Forest.set (Forest.set _ _ _ _) _ _ _).relabel Held.forget = _
    rw [Forest.relabel_set, Forest.relabel_set, forget_given, forget_kept]
    refine Forest.set_comm ha.1 rfl ?_
    rw [Forest.occurs_relabel]
    exact Forest.occurs_below_self (hi.distinct _) ho

theorem Idle.swap (hi : Idle s) (hv : s.Has v) (ho : s.Has other) (hs : Separate ty s v other) :
    Inv (swap ty (.var v) (.var other) s) ∧
      (swap ty (.var v) (.var other) s).contents = effect ty s.contents (.swap v other) := by
  obtain ⟨⟨h, b⟩, hv⟩ := Forest.occurs_pos_iff.mp hv
  obtain ⟨⟨k, c⟩, ho⟩ := Forest.occurs_pos_iff.mp ho
  have ht : s.scope.occurs .temp = 0 := occurs_eq_zero hi.strays rfl
  simp only [effect, contents_find? ho, contents_find? hv]
  by_cases hne : v = other
  · subst hne
    cases hv.symm.trans ho
    obtain ⟨hi', m, n, e⟩ := swap_self_spec ty hi.toInv hv (hs.kept hi.toInv hv) ht
    refine ⟨hi', ?_⟩
    rw [Forest.set_set]
    show (Any.swap ty (.var v) (.var v) s).scope.relabel Held.forget = _
    rw [e, Forest.relabel_set, forget_given, forget_given]
    rfl
  · obtain ⟨hi', m, n, p, e⟩ := swap_spec ty hi.toInv hv ho (hs.apart hne) ht
    refine ⟨hi', ?_⟩
    show (Any.swap ty (.var v) (.var other) s).scope.relabel Held.forget = _
    rw [e, Forest.relabel_set, Forest.relabel_set, forget_given, forget_given, forget_given]
    rfl

/-- A clean step does what it is meant to do. -/
theorem Idle.exec_spec (hi : Idle s) {a : Act I T V} (hl : Legal s a) (hclean : Clean ty s a) :
    Inv (exec ty s a) ∧ (exec ty s a).contents = effect ty s.contents a := by
  cases a with
  | defaultConstruct home v =>
    exact ⟨hi.addNull (occurs_of_free hl) (hi.housed hl), contents_add home (.var v) _ .nil s⟩
  | construct throws home v t arg =>
    obtain ⟨hfree, hl⟩ := hl
    cases throws with
    | some n => exact hi.spent hl n
    | none =>
      obtain ⟨x, b, s', hr⟩ := hi.reads hl
      have hv := occurs_of_free hfree
      have hmade := hr.construct hv (occurs_read hi hl hr (.inl rfl) hv)
        (hr.housed (hi.housed hfree) hclean) t
      refine ⟨hmade.1, hmade.2.trans ?_⟩
      simp only [effect, hr.made]
  | copyConstruct throws home v other names =>
    obtain ⟨hfree, ho, hnew⟩ := hl
    obtain ⟨⟨h, b⟩, ho⟩ := Forest.occurs_pos_iff.mp ho
    obtain ⟨hf, -⟩ := whole_find? hi.whole ho
    refine ⟨hi.copyConstruct throws ho hnew (occurs_of_free hfree)
      (occurs_rename hi ho hnew (.inl rfl)) (hi.housed hfree), ?_⟩
    obtain ⟨h', b', hh, hb, -, e⟩ := scope_copyConstruct throws home (.var v) names ho hf
    simp only [effect, contents_find? ho]
    show (copyConstruct throws home (.var v) (.var other) names s).scope.relabel Held.forget = _
    rw [e]
    by_cases hthrew : (throws.isSome && h.manage.isSome) = true
    · rw [if_pos hthrew, if_pos (by exact hthrew)]
      rfl
    · rw [if_neg hthrew, if_neg (by exact hthrew), Forest.relabel_add, hh, hb]
      rfl
  | moveConstruct home v other =>
    obtain ⟨hfree, ho⟩ := hl
    obtain ⟨⟨h, b⟩, ho⟩ := Forest.occurs_pos_iff.mp ho
    have hv := occurs_of_free hfree
    refine ⟨hi.toInv.moveConstruct ty ho hv (hi.housed hfree) hclean, ?_⟩
    simp only [effect, contents_find? ho]
    show (moveConstruct ty home (.var v) (.var other) s).contents = _
    rw [moveConstruct_eq ty hi.toInv ho hv (hi.housed hfree) hclean]
    show (Forest.add (Forest.set _ _ _ _) _ _ _ _).relabel Held.forget = _
    rw [Forest.relabel_add, Forest.relabel_set, forget_given, forget_kept]
    rfl
  | destruct v =>
    obtain ⟨⟨h, b⟩, hv⟩ := Forest.occurs_pos_iff.mp hl
    refine ⟨hi.toInv.destruct hv, ?_⟩
    show (destruct (.var v) s).contents = _
    rw [destruct_eq hi.toInv hv]
    exact Forest.relabel_erase _ _ _
  | copyAssign throws v other names => exact hi.copyAssign ty throws hl.1 hl.2.1 hl.2.2
  | moveAssign v other => exact hi.moveAssign hl.1 hl.2 hclean
  | assign throws v t arg =>
    refine hi.replace ty throws hl.1 hl.2 (fun hthrows => ?_) t
    subst hthrows
    exact hclean
  | swap v other => exact hi.swap hl.1 hl.2 hclean
  | reset v =>
    obtain ⟨⟨h, b⟩, hv⟩ := Forest.occurs_pos_iff.mp hl
    refine ⟨hi.toInv.reset hv, ?_⟩
    show (reset (.var v) s).contents = _
    rw [reset_eq hi.toInv hv]
    exact Forest.relabel_set _ _ _ _ _
  | emplace throws v t arg =>
    refine hi.replace ty throws hl.1 hl.2 (fun hthrows => ?_) t
    subst hthrows
    exact hclean

theorem Idle.exec (hi : Idle s) {a : Act I T V} (hl : Legal s a) (hclean : Clean ty s a) :
    Idle (exec ty s a) := by
  obtain ⟨hi', hcontents⟩ := hi.exec_spec hl hclean
  refine ⟨hi', ?_⟩
  rw [← strays_contents, hcontents]
  exact strays_effect ty ((strays_contents s).trans hi.strays) a

/-- A step that loses no object and reads none after its destruction is clean. -/
theorem Idle.clean (hi : Idle s) {a : Act I T V} (hl : Legal s a)
    (hbroken : ¬ Broken (Any.exec ty s a)) : Clean ty s a := by
  have ha : s.scope.occurs .argument = 0 := occurs_eq_zero hi.strays rfl
  have ht : s.scope.occurs .temp = 0 := occurs_eq_zero hi.strays rfl
  cases a with
  | moveConstruct home v other =>
    intro w hw
    subst hw
    have hv := occurs_of_free hl.1
    refine ⟨fun he => ?_, fun hin => ?_⟩
    · exact hbroken (broken_moveConstruct ty hi.toInv hv (hl.1.2 w rfl) hl.2 (.inl he))
    · exact hbroken (broken_moveConstruct ty hi.toInv hv (hl.1.2 w rfl) hl.2 (.inr hin))
  | construct throws home v t arg =>
    cases throws with
    | some n => trivial
    | none =>
      intro w hw
      subst hw
      cases arg with
      | content w' make leave takes =>
        cases takes with
        | true => exact fun hin => hbroken (broken_construct hi.toInv hin (.var v) t)
        | false => trivial
      | _ => trivial
  | assign throws v t arg | emplace throws v t arg =>
    cases throws with
    | some n => trivial
    | none =>
      cases arg with
      | content w make leave takes =>
        cases takes with
        | true => exact fun hin => hbroken (broken_swapArgument ty hi.toInv ha ht hin t)
        | false => trivial
      | _ => trivial
  | moveAssign v other =>
    refine ⟨⟨fun hin => hbroken (broken_moveAssign ty hi.toInv hin),
      fun hin => hbroken (.inl (stale_moveAssign_inside ty hi.toInv hin))⟩, ?_⟩
    rintro rfl t hm
    obtain ⟨t', o, x, b, hx⟩ := hi.object (w := v) (by simp [hm])
    obtain rfl : t' = t := Option.some.inj ((manager_eq hx).symm.trans hm)
    by_contra hlocal
    exact hbroken (.inl (stale_moveAssign_self ty hi.toInv hx (by simpa using hlocal)))
  | swap v other =>
    refine ⟨⟨fun hin => hbroken (broken_swap_inside ty hi.toInv hin ht),
      fun hin => hbroken (broken_swap_of_inside ty hi.toInv hin ht)⟩, ?_⟩
    rintro rfl t hm
    obtain ⟨t', o, x, b, hx⟩ := hi.object (w := v) (by simp [hm])
    obtain rfl : t' = t := Option.some.inj ((manager_eq hx).symm.trans hm)
    by_contra hlocal
    exact hbroken (broken_swap_self ty hi.toInv hx (by simpa using hlocal) ht)
  | _ => trivial

theorem idle_initial : Idle (.initial : State I T V) :=
  ⟨⟨fun _ => Nat.zero_le 1, trivial, fun _ => rfl, rfl⟩, rfl⟩

theorem step_deterministic : Deterministic (Step (I := I) ty) := by
  intro s a t u h h'
  exact h.2.symm.trans h'.2

theorem run_exec {as : List (Act I T V)} (h : Run (Step ty) .initial as s) (a : Act I T V)
    (hl : Legal s a) : Run (Step ty) .initial (as ++ [a]) (Any.exec ty s a) := h.snoc ⟨hl, rfl⟩

end

/-- Every step of a run keeps the objects and the contents right exactly when every step is
clean. -/
theorem anys_right_iff_clean {as : List (Act I T V)} {s : State I T V}
    (h : Run (Step ty) .initial as s) :
    (∀ bs a cs s₁ s₂, as = bs ++ a :: cs → Run (Step ty) .initial bs s₁ → Step ty s₁ a s₂ →
      Correct ty s₁ a s₂) ↔
      ∀ bs a cs s₁, as = bs ++ a :: cs → Run (Step ty) .initial bs s₁ → Clean ty s₁ a := by
  refine h.each_iff step_deterministic (J := Idle) idle_initial ?_ ?_
  · intro t a u hi hstep hclean
    obtain ⟨hl, rfl⟩ := hstep
    exact ⟨hi.exec hl hclean, (hi.exec hl hclean).sound, (hi.exec_spec hl hclean).2⟩
  · intro t a u hi hstep hcorrect
    obtain ⟨hl, rfl⟩ := hstep
    exact hi.clean hl (hcorrect.sound.ledger.not_broken hcorrect.sound.unread)

/-- The types are named by their sizes, and the storage is that of `any`. -/
def sized : Types Nat Nat := ⟨24, 16, id, fun _ => 8, fun _ => true, fun _ _ => 0⟩

theorem anys_right_of_swap : ∃ (as : List (Act Nat Nat Nat)) (s : State Nat Nat Nat),
    Run (Step sized) .initial as s ∧
    s.contents.find? (.var 0) =
      some (⟨some 64, some 6⟩, .node (.var 3) ⟨some 8, some 5⟩ .nil .nil) ∧
    s.contents.find? (.var 2) = some (⟨none, none⟩, .nil) ∧ s.destroyed 0 = 1 ∧ s.destroyed 1 = 1 ∧
    ∀ bs a cs s₁ s₂, as = bs ++ a :: cs → Run (Step sized) .initial bs s₁ → Step sized s₁ a s₂ →
      Correct sized s₁ a s₂ := by
  have h₀ : Run (Step sized) (.initial : State Nat Nat Nat) [] .initial := .nil
  -- an any inside the object of another one
  have h₁ := run_exec h₀ (.construct none none 0 64 (.value 6)) ⟨⟨by decide, nofun⟩, trivial⟩
  have h₂ := run_exec h₁ (.construct none (some 0) 1 8 (.value 5))
    ⟨⟨by decide, fun w hw => by cases hw; decide⟩, trivial⟩
  have h₃ := run_exec h₂ (.construct none none 2 8 (.value 7)) ⟨⟨by decide, nofun⟩, trivial⟩
  have h₄ := run_exec h₃ (.swap 0 2) ⟨by decide, by decide⟩
  have hnew : ∀ m : Place Nat, (if .var 3 = m then 1 else 0) + 0 + 0 + (if .var 0 = m then 1 else
      (if .var 2 = m then 1 else 0) + ((if .var 1 = m then 1 else 0) + 0 + 0) +
        ((if .var 0 = m then 1 else 0) + 0 + 0)) ≤ 1 := by
    rintro (v | _ | _)
    · simp only [Place.var.injEq]
      split_ifs <;> omega
    · decide
    · decide
  have h₅ := run_exec h₄ (.copyAssign none 0 2 fun _ => 3) ⟨by decide, by decide, fun x hx => by
    cases hx
    exact hnew⟩
  have h₆ := run_exec h₅ (.moveAssign 2 2) ⟨by decide, by decide⟩
  refine ⟨_, _, h₆, rfl, rfl, rfl, rfl, (anys_right_iff_clean _ h₆).mpr ?_⟩
  refine h₅.steps_snoc step_deterministic (h₄.steps_snoc step_deterministic
    (h₃.steps_snoc step_deterministic (h₂.steps_snoc step_deterministic
      (h₁.steps_snoc step_deterministic ?_ ?_) ?_) ?_) trivial) ?_
  · exact Run.steps_snoc step_deterministic .nil steps_nil nofun
  · exact fun w hw => trivial
  · exact nofun
  · exact ⟨⟨by decide, by decide⟩, nofun⟩
  · refine ⟨⟨by decide, by decide⟩, fun _ t ht => ?_⟩
    obtain rfl : 64 = t := Option.some.inj ht
    rfl

/-- `any a(5); a = std::move(a);`, `any a(5); a.swap(a);`, and for a vector of one any in `a`,
`a = std::move(any_cast<std::vector<any> &>(a)[0]);`. -/
theorem read_after_destruction :
    (∃ s s₁ s₂ : State Nat Nat Nat,
      Run (Step sized) .initial [.construct none none 0 4 (.value 5)] s ∧
      Step sized s (.moveAssign 0 0) s₁ ∧ s₁.stale = true ∧ ¬ Correct sized s (.moveAssign 0 0) s₁ ∧
      Step sized s (.swap 0 0) s₂ ∧ s₂.stale = true ∧ ¬ Correct sized s (.swap 0 0) s₂) ∧
    ∃ s s₁ : State Nat Nat Nat, Run (Step sized) .initial
        [.construct none none 0 24 (.value 0), .construct none (some 0) 1 4 (.value 5)] s ∧
      Step sized s (.moveAssign 0 1) s₁ ∧ s₁.stale = true ∧
      ¬ Correct sized s (.moveAssign 0 1) s₁ := by
  have h₀ : Run (Step sized) (.initial : State Nat Nat Nat) [] .initial := .nil
  constructor
  · have h₁ := run_exec h₀ (.construct none none 0 4 (.value 5)) ⟨⟨by decide, nofun⟩, trivial⟩
    refine ⟨_, _, _, h₁, ⟨⟨by decide, by decide⟩, rfl⟩, rfl, fun h => ?_,
      ⟨⟨by decide, by decide⟩, rfl⟩,
      rfl, fun h => ?_⟩
    · exact Bool.false_ne_true (h.sound.unread.symm.trans rfl)
    · exact Bool.false_ne_true (h.sound.unread.symm.trans rfl)
  · have h₁ := run_exec h₀ (.construct none none 0 24 (.value 0)) ⟨⟨by decide, nofun⟩, trivial⟩
    have h₂ := run_exec h₁ (.construct none (some 0) 1 4 (.value 5))
      ⟨⟨by decide, fun w hw => by cases hw; decide⟩, trivial⟩
    refine ⟨_, _, h₂, ⟨⟨by decide, by decide⟩, rfl⟩, rfl, fun h => ?_⟩
    exact Bool.false_ne_true (h.sound.unread.symm.trans rfl)

end Gpcl.Any
