import Gpcl.Variant.Basic

/-! # The objects of variants

With alternatives whose destructors do not throw, `variant_move_construct_base<false, ...>` chooses
the storage that never destroys, and the copy assignment copies bytes. A run is sound exactly when
it never needs either: no step ends an object whose destructor is not trivial, and no copy
assignment takes the bytes of an object whose copy is not. -/
namespace Gpcl.Variant
open Lib.Owners Lib.Runs

variable {I : Type} {n : Nat}

def State.object (s : State I n) (v : I) : Option Nat := (s.var v).bind (Option.map Prod.snd)

def State.alternative (s : State I n) (v : I) : Option (Fin (n + 1)) :=
  (s.var v).bind (Option.map Prod.fst)

def State.ledger (s : State I n) : Ledger I :=
  ⟨s.object, s.made, fun o => s.calls.count (.destroy o)⟩

/-- Every object that was constructed and is in no variant has been destroyed once, no other one has
been, and no two variants hold one object. -/
def Sound (s : State I n) : Prop := s.ledger.Sound

/-- The new object of a copy is the result of the alternative's copy constructor or copy
assignment. -/
def Copied (s : State I n) (a : Act I n) (s' : State I n) : Prop :=
  ∀ v other, (a = .copyConstruct v other ∨ a = .copyAssign v other) → v ≠ other →
    ∀ j source, s.var other = some (some (j, source)) →
      ∃ o, s'.var v = some (some (j, o)) ∧
        (s'.calls.head? = some (.constructFrom .copy o source) ∨
          s'.calls.head? = some (.assignFrom .copy o source))

variable (ts : Fin (n + 1) → Alternative)

/-- The storage does for the object of `v` what its destructor would do. -/
def Ends (s : State I n) (v : I) : Prop :=
  ∀ i, s.alternative v = some i → triviallyDestructible ts = true →
    (ts i).triviallyDestructible = true

/-- The bytes of `other` are a new object in `v`, or a new value of the object there, and none is
left behind. -/
def BitsCopy (k : Kind) (s : State I n) (v other : I) : Prop :=
  v ≠ other →
    (∀ j, s.alternative other = some j →
      (ts j).triviallyConstructible k = true ∨
        (s.alternative v = some j ∧ (ts j).triviallyAssignable k = true)) ∧
    (∀ i, s.alternative v = some i →
      (ts i).triviallyDestructible = true ∨
        (s.alternative other = some i ∧ (ts i).triviallyAssignable k = true))

def Clean (s : State I n) : Act I n → Prop
  | .copyAssign v other => BitsCopy ts .copy s v other
  | .moveAssign _ v other => v ≠ other → s.alternative v ≠ s.alternative other → Ends ts s v
  | .convertAssign _ v i => s.alternative v ≠ some i → Ends ts s v
  | .emplace _ v _ => Ends ts s v
  | .destroy v => Ends ts s v
  | _ => True

section ledgers
variable {s s' : State I n} {v w : I} {i j : Fin (n + 1)} {o source : Nat} {c : Call}

theorem sound_initial : Sound (.initial : State I n) := Ledger.sound_empty

theorem object_eq (h : s.var v = some (some (i, o))) : s.object v = some o := by
  rw [State.object, h]
  rfl

theorem alternative_eq (h : s.var v = some (some (i, o))) : s.alternative v = some i := by
  rw [State.alternative, h]
  rfl

/-- A variant has an object and its alternative, or neither. -/
theorem cases_var (s : State I n) (v : I) :
    (∃ i o, s.var v = some (some (i, o))) ∨
    (s.object v = none ∧ s.alternative v = none ∧ (s.var v = none ∨ s.var v = some none)) := by
  unfold State.object State.alternative
  match s.var v with
  | none => exact .inr ⟨rfl, rfl, .inl rfl⟩
  | some none => exact .inr ⟨rfl, rfl, .inr rfl⟩
  | some (some (i, o)) => exact .inl ⟨i, o, rfl⟩

theorem ledger_call (hc : ∀ o, c ≠ .destroy o) : (s.call c).ledger = s.ledger := by
  have hcount : ∀ o, (c :: s.calls).count (.destroy o) = s.calls.count (.destroy o) := fun o => by
    rw [List.count_cons_of_ne (hc o)]
  unfold State.ledger State.call State.object
  simp only [hcount]

variable [DecidableEq I]

theorem object_put (v : I) (c : Option (Content n)) :
    (s.put v c).object = Function.update s.object v (c.bind (Option.map Prod.snd)) := by
  funext w
  show (Function.update s.var v c w).bind _ = _
  by_cases hw : w = v
  · rw [hw, Function.update_self, Function.update_self]
  · rw [Function.update_of_ne hw, Function.update_of_ne hw]
    rfl

theorem ledger_put_empty {c : Option (Content n)} (hc : c = none ∨ c = some none) :
    (s.put v c).ledger = s.ledger.release v := by
  have hobject : (s.put v c).object = Function.update s.object v none := by
    rw [object_put]
    rcases hc with rfl | rfl <;> rfl
  unfold State.ledger Ledger.release
  rw [hobject]
  rfl

theorem ledger_create {c : Nat → Call} (hc : ∀ o o', c o ≠ .destroy o') :
    (create v i c s).ledger = s.ledger.make v := by
  have hobject : (create v i c s).object = Function.update s.object v (some s.made) :=
    object_put v (some (some (i, s.made)))
  have hcount : ∀ o, (c s.made :: s.calls).count (.destroy o) = s.calls.count (.destroy o) :=
      fun o => by
    rw [List.count_cons_of_ne (hc s.made o)]
  unfold State.ledger Ledger.make
  rw [hobject]
  simp only [create, hcount]

theorem ledger_destroyed (h : s.var v = some (some (i, o))) {c : Option (Content n)}
    (hc : c = none ∨ c = some none) :
    ((s.call (.destroy o)).put v c).ledger = s.ledger.destroy v := by
  have hcount : (fun p => (Call.destroy o :: s.calls).count (.destroy p)) =
      Function.update (fun p => s.calls.count (.destroy p)) o (s.calls.count (.destroy o) + 1) := by
    funext p
    by_cases hp : p = o
    · rw [hp, Function.update_self, List.count_cons_self]
    · rw [Function.update_of_ne hp, List.count_cons_of_ne fun he => hp (Call.destroy.inj he).symm]
  rw [ledger_put_empty hc]
  unfold Ledger.destroy
  rw [show s.ledger.owns v = some o from object_eq h]
  exact congrArg (fun d => (⟨Function.update s.object v none, s.made, d⟩ : Ledger I)) hcount

/-! ## What a step may do to an object -/

variable {ts : Fin (n + 1) → Alternative} {k : Kind}

/-- The object of `v` is gone, and has not been destroyed. -/
structure Lost (s s' : State I n) (v : I) (o : Nat) : Prop where
  had : s.object v = some o
  made : s.made ≤ s'.made
  others : ∀ w, w ≠ v → s'.object w = s.object w
  gone : s'.object v ≠ some o
  destroyed : s'.calls.count (.destroy o) = s.calls.count (.destroy o)

omit [DecidableEq I] in
theorem Lost.not_sound (h : Lost s s' v o) (hs : Sound s) : ¬ Sound s' :=
  Ledger.Sound.not_sound_of_lost hs h.had h.made h.others h.gone h.destroyed

theorem Lost.create {c : Nat → Call} (hc : ∀ o o', c o ≠ .destroy o') (h : Lost s s' v o)
    (hs : Sound s) : Lost s (create v i c s') v o := by
  have hlt : o < s.made := hs.constructed v o h.had
  have hobject : (Variant.create v i c s').object = Function.update s'.object v (some s'.made) :=
    object_put v (some (some (i, s'.made)))
  refine ⟨h.had, h.made.trans (Nat.le_succ _), fun w hw => ?_, fun he => ?_, ?_⟩
  · rw [hobject, Function.update_of_ne hw, h.others w hw]
  · rw [hobject, Function.update_self] at he
    exact absurd (Option.some.inj he) (Nat.ne_of_gt (hlt.trans_le h.made))
  · show (c s'.made :: s'.calls).count (.destroy o) = _
    rw [List.count_cons_of_ne (hc s'.made o), h.destroyed]

omit [DecidableEq I] in
/-- Two variants with one object. -/
theorem not_sound_of_shared (hvw : v ≠ w) (hv : s.object v = some o) (hw : s.object w = some o) :
    ¬ Sound s := fun hs =>
  hvw (hs.unshared v w o hv hw)

/-! ## The storage -/

/-- An object is given up: it is destroyed, or lost. -/
theorem reuse_put (ts : Fin (n + 1) → Alternative) (h : s.var v = some (some (i, o)))
    {c : Option (Content n)} (hc : c = none ∨ c = some none) :
    if (ts i).triviallyDestructible then ((reuse ts i o s).put v c).ledger = s.ledger.destroy v
    else Lost s ((reuse ts i o s).put v c) v o := by
  unfold reuse
  split
  · exact ledger_destroyed h hc
  · have hledger : (s.put v c).ledger = s.ledger.release v := ledger_put_empty hc
    have hobject : (s.put v c).object = Function.update s.object v none :=
      congrArg Ledger.owns hledger
    refine ⟨object_eq h, le_rfl, fun w hw => ?_, fun he => ?_, rfl⟩
    · rw [hobject, Function.update_of_ne hw]
    · rw [hobject, Function.update_self] at he
      cases he

/-- The same for the destructor of the storage. -/
theorem destruct_put (ts : Fin (n + 1) → Alternative) (h : s.var v = some (some (i, o)))
    {c : Option (Content n)} (hc : c = none ∨ c = some none) :
    (Ends ts s v → ((destruct ts i o s).put v c).ledger = s.ledger.destroy v) ∧
      (¬ Ends ts s v → Lost s ((destruct ts i o s).put v c) v o) := by
  have halt := alternative_eq h
  have hreuse := reuse_put ts h hc
  unfold destruct
  split
  · next ht =>
    split at hreuse
    · next htriv =>
      refine ⟨fun _ => hreuse, fun he => absurd (fun i' hi' _ => ?_) he⟩
      rw [← Option.some.inj (halt.symm.trans hi')]
      exact htriv
    · next htriv => exact ⟨fun he => absurd (he i halt ht) htriv, fun _ => hreuse⟩
  · next ht =>
      exact ⟨fun _ => ledger_destroyed h hc, fun he => absurd (fun _ _ h => absurd h ht) he⟩

omit [DecidableEq I] in
theorem ends_of_none (h : s.alternative v = none) : Ends ts s v := fun i hi => by
  rw [h] at hi
  cases hi

theorem ledger_destroy_none (h : s.object v = none) : s.ledger.destroy v = s.ledger := by
  unfold Ledger.destroy
  rw [show s.ledger.owns v = none from h]

/-- The storage of `v` is cleared, with an `index_` of -1 or for good. -/
structure Clears (s s' : State I n) (v : I) (ends : Prop) : Prop where
  ended : ends → s'.ledger = s.ledger.destroy v
  lost : ¬ ends → ∃ o, Lost s s' v o

theorem reset_clears (v : I) (s : State I n) : Clears s (reset ts v s) v (Ends ts s v) := by
  unfold reset
  rcases cases_var s v with ⟨i, o, h⟩ | ⟨hobject, halt, h⟩
  · rw [h]
    obtain ⟨hends, hlost⟩ := destruct_put ts h (.inr rfl)
    exact ⟨hends, fun he => ⟨o, hlost he⟩⟩
  · refine ⟨fun _ => ?_, fun he => absurd (ends_of_none halt) he⟩
    rw [ledger_destroy_none hobject]
    rcases h with h | h <;> rw [h]

theorem destroy_clears (v : I) (s : State I n) : Clears s (destroy ts v s) v (Ends ts s v) := by
  unfold destroy
  rcases cases_var s v with ⟨i, o, h⟩ | ⟨hobject, halt, h⟩
  · rw [h]
    obtain ⟨hends, hlost⟩ := destruct_put ts h (.inl rfl)
    exact ⟨hends, fun he => ⟨o, hlost he⟩⟩
  · refine ⟨fun _ => ?_, fun he => absurd (ends_of_none halt) he⟩
    have hput : (s.put v none).ledger = s.ledger :=
      (ledger_put_empty (.inl rfl)).trans (Ledger.release_of_none hobject)
    rw [ledger_destroy_none hobject]
    rcases h with h | h
    · rw [h]; exact hput
    · rw [h]; exact hput

/-! ## Copies of bytes -/

theorem bits_both (hvw : v ≠ w) (hv : s.var v = some (some (i, o)))
    (hw : s.var w = some (some (j, source))) :
    bits ts k v w s = if i = j ∧ (ts j).triviallyAssignable k then s.call (.assignFrom k o source)
      else place ts k v j source (reuse ts i o s) := by
  unfold bits
  rw [if_neg hvw, hv, hw]

theorem bits_target (hvw : v ≠ w) (hv : s.var v = some (some (i, o)))
    (hw : s.var w = none ∨ s.var w = some none) :
    bits ts k v w s = (reuse ts i o s).put v (some none) := by
  unfold bits
  rw [if_neg hvw, hv]
  rcases hw with hw | hw <;> rw [hw]

theorem bits_source (hvw : v ≠ w) (hv : s.var v = none ∨ s.var v = some none)
    (hw : s.var w = some (some (j, source))) :
    bits ts k v w s = place ts k v j source s := by
  unfold bits
  rw [if_neg hvw, hw]
  rcases hv with hv | hv <;> rw [hv]

theorem bits_neither (hvw : v ≠ w) (hv : s.var v = none ∨ s.var v = some none)
    (hw : s.var w = none ∨ s.var w = some none) :
    bits ts k v w s = s.put v (some none) := by
  unfold bits
  rw [if_neg hvw]
  rcases hv with hv | hv <;> rcases hw with hw | hw <;> rw [hv, hw]

theorem create_put {c : Nat → Call} (c' : Option (Content n)) :
    create v j c (s.put v c') = create v j c s := by
  unfold create State.put
  rw [Function.update_idem]

/-- A new object in a storage that has been cleared. -/
theorem sound_create {c : Nat → Call} (hc : ∀ o o', c o ≠ .destroy o') (hs : Sound s)
    (hv : s.object v = none) :
    Sound (create v j c s) := by
  unfold Sound
  rw [ledger_create hc]
  exact Ledger.Sound.make hs hv

theorem place_not_sound (hvw : v ≠ w) (hw : s.var w = some (some (j, source)))
    (ht : (ts j).triviallyConstructible k ≠ true) :
    ¬ Sound (place ts k v j source s) := by
  unfold place
  rw [if_neg ht]
  refine not_sound_of_shared hvw (o := source) ?_ ?_
  · rw [object_put, Function.update_self]
    rfl
  · rw [object_put, Function.update_of_ne hvw.symm, object_eq hw]

omit [DecidableEq I] in
theorem reuse_var (i : Fin (n + 1)) (o : Nat) : (reuse ts i o s).var = s.var := by
  unfold reuse
  split <;> rfl

omit [DecidableEq I] in
theorem bitsCopy_iff (hvw : v ≠ w) (hv : s.alternative v = some i) (hw : s.alternative w = some j) :
    BitsCopy ts k s v w ↔
    ((ts j).triviallyConstructible k = true ∨ (i = j ∧ (ts j).triviallyAssignable k = true)) ∧
      ((ts i).triviallyDestructible = true ∨ (j = i ∧ (ts i).triviallyAssignable k = true)) := by
  unfold BitsCopy
  simp only [hv, hw, Option.some.injEq, ne_eq, hvw, not_false_eq_true, forall_const, forall_eq']

/-- An object is copied over another one. -/
theorem bits_sound_both (hs : Sound s) (hvw : v ≠ w) (hv : s.var v = some (some (i, o)))
    (hw : s.var w = some (some (j, source))) :
    Sound (bits ts k v w s) ↔ BitsCopy ts k s v w := by
  rw [bits_both hvw hv hw, bitsCopy_iff hvw (alternative_eq hv) (alternative_eq hw)]
  split
  · next h =>
    obtain ⟨rfl, ha⟩ := h
    refine iff_of_true ?_ ⟨.inr ⟨rfl, ha⟩, .inr ⟨rfl, ha⟩⟩
    unfold Sound
    rw [ledger_call (by nofun)]
    exact hs
  · next h =>
    by_cases ht : (ts j).triviallyConstructible k = true
    · have hreuse := reuse_put ts hv (.inr rfl)
      rw [place, if_pos ht, ← create_put (some none)]
      split at hreuse
      · next hd =>
        refine iff_of_true (sound_create (by nofun) ?_ ?_) ⟨.inl ht, .inl hd⟩
        · unfold Sound
          rw [hreuse]
          exact Ledger.Sound.destroy hs v
        · exact (congrFun (congrArg Ledger.owns hreuse) v).trans (Ledger.destroy_owns _ v)
      · next hd =>
        refine iff_of_false ((hreuse.create (by nofun) hs).not_sound hs) fun hc => ?_
        rcases hc.2 with hd' | ⟨rfl, ha⟩
        · exact hd hd'
        · exact h ⟨rfl, ha⟩
    · refine iff_of_false (place_not_sound hvw (by rw [reuse_var]; exact hw) ht) fun hc => ?_
      rcases hc.1 with ht' | ha
      · exact ht ht'
      · exact h ha

/-- The same with an object in one of the two at most. -/
theorem bits_sound_one (hs : Sound s) (hvw : v ≠ w)
    (h : s.alternative v = none ∨ s.alternative w = none) :
    Sound (bits ts k v w s) ↔ BitsCopy ts k s v w := by
  have hcopy : BitsCopy ts k s v w ↔
    (∀ j, s.alternative w = some j → (ts j).triviallyConstructible k = true) ∧
      ∀ i, s.alternative v = some i → (ts i).triviallyDestructible = true := by
    unfold BitsCopy
    rcases h with h | h <;> simp [h, hvw]
  rw [hcopy]
  rcases cases_var s v with ⟨i, o, hv⟩ | ⟨hobject, halt, hv⟩
  · have halt := alternative_eq hv
    have hnone : s.alternative w = none := h.resolve_left (by rw [halt]; nofun)
    have hw : s.var w = none ∨ s.var w = some none := by
      rcases cases_var s w with ⟨j, source, hw⟩ | ⟨_, _, hw⟩
      · rw [alternative_eq hw] at hnone
        cases hnone
      · exact hw
    have hreuse := reuse_put ts hv (.inr rfl)
    rw [bits_target hvw hv hw]
    split at hreuse
    · next hd =>
      refine iff_of_true ?_ ⟨fun j hj => ?_, fun i' hi' => ?_⟩
      · unfold Sound
        rw [hreuse]
        exact Ledger.Sound.destroy hs v
      · rw [hnone] at hj
        cases hj
      · rw [← Option.some.inj (halt.symm.trans hi')]
        exact hd
    · next hd => exact iff_of_false (hreuse.not_sound hs) fun hc => hd (hc.2 i halt)
  · rcases cases_var s w with ⟨j, source, hw⟩ | ⟨_, halt', hw⟩
    · rw [bits_source hvw hv hw]
      by_cases ht : (ts j).triviallyConstructible k = true
      · rw [place, if_pos ht]
        refine iff_of_true (sound_create (by nofun) hs hobject) ⟨fun j' hj' => ?_, fun i hi => ?_⟩
        · rw [← Option.some.inj ((alternative_eq hw).symm.trans hj')]
          exact ht
        · rw [halt] at hi
          cases hi
      · exact iff_of_false (place_not_sound hvw hw ht) fun hc => ht (hc.1 j (alternative_eq hw))
    · rw [bits_neither hvw hv hw]
      refine iff_of_true ?_ ⟨fun j hj => ?_, fun i hi => ?_⟩
      · unfold Sound
        rw [ledger_put_empty (.inr rfl), Ledger.release_of_none hobject]
        exact hs
      · rw [halt'] at hj
        cases hj
      · rw [halt] at hi
        cases hi

theorem bits_sound_iff (hs : Sound s) : Sound (bits ts k v w s) ↔ BitsCopy ts k s v w := by
  by_cases hvw : v = w
  · have hsame : bits ts k v w s = s := if_pos hvw
    rw [hsame]
    exact iff_of_true hs fun h => absurd hvw h
  · rcases cases_var s v with ⟨i, o, hv⟩ | ⟨_, halt, _⟩
    · rcases cases_var s w with ⟨j, source, hw⟩ | ⟨_, halt, _⟩
      · exact bits_sound_both hs hvw hv hw
      · exact bits_sound_one hs hvw (.inr halt)
    · exact bits_sound_one hs hvw (.inl halt)

/-- What the copied bytes are. -/
theorem bits_copied (hc : BitsCopy ts k s v w) (hvw : v ≠ w)
    (hw : s.var w = some (some (j, source))) :
    ∃ o, (bits ts k v w s).var v = some (some (j, o)) ∧
    ((bits ts k v w s).calls.head? = some (.constructFrom k o source) ∨
      (bits ts k v w s).calls.head? = some (.assignFrom k o source)) := by
  have hplace : ∀ s' : State I n, (ts j).triviallyConstructible k = true →
    ∃ o, (place ts k v j source s').var v = some (some (j, o)) ∧
      ((place ts k v j source s').calls.head? = some (.constructFrom k o source) ∨
        (place ts k v j source s').calls.head? = some (.assignFrom k o source)) := fun s' ht => by
    rw [place, if_pos ht]
    exact ⟨s'.made, Function.update_self _ _ _, .inl rfl⟩
  have hto := (hc hvw).1 j (alternative_eq hw)
  rcases cases_var s v with ⟨i, o, hv⟩ | ⟨_, halt, hv⟩
  · rw [bits_both hvw hv hw]
    rw [alternative_eq hv, Option.some.injEq] at hto
    split
    · next h => exact ⟨o, by rw [← h.1]; exact hv, .inr rfl⟩
    · next h => exact hplace _ (hto.resolve_right h)
  · rw [bits_source hvw hv hw]
    rw [halt] at hto
    exact hplace _ (hto.resolve_right nofun)

/-! ## The operations -/

omit [DecidableEq I] in
theorem all_apply {p : Alternative → Bool} (h : all ts p = true) (i : Fin (n + 1)) :
    p (ts i) = true := of_decide_eq_true h i

omit [DecidableEq I] in
/-- Bytes are the objects where all constructors are trivial. -/
theorem bitsCopy_of_all (h : ∀ i, (ts i).triviallyConstructible k = true) : BitsCopy ts k s v w :=
    fun _ =>
  ⟨fun j _ => .inl (h j), fun i _ => .inl ((ts i).destructible (h i))⟩

omit [DecidableEq I] in
theorem ends_of_all (h : ∀ i, (ts i).triviallyConstructible k = true) : Ends ts s v :=
  fun i _ _ => (ts i).destructible (h i)

theorem Clears.sound_iff {P : Prop} (hc : Clears s s' v P) (hs : Sound s) : Sound s' ↔ P := by
  constructor
  · intro hs'
    by_contra hP
    obtain ⟨o, hlost⟩ := hc.lost hP
    exact hlost.not_sound hs hs'
  · intro hP
    unfold Sound
    rw [hc.ended hP]
    exact Ledger.Sound.destroy hs v

/-- The storage is cleared and a new object constructed. -/
theorem Clears.create_sound_iff {P : Prop} (hc : Clears s s' v P) (hs : Sound s) {c : Nat → Call}
    (hcall : ∀ o o', c o ≠ .destroy o') :
    Sound (create v i c s') ↔ P := by
  constructor
  · intro hs'
    by_contra hP
    obtain ⟨o, hlost⟩ := hc.lost hP
    exact (hlost.create hcall hs).not_sound hs hs'
  · intro hP
    refine sound_create hcall ((hc.sound_iff hs).mpr hP) ?_
    exact (congrFun (congrArg Ledger.owns (hc.ended hP)) v).trans (Ledger.destroy_owns _ v)

theorem emplace_sound_iff (hs : Sound s) (throws : Bool) :
    Sound (emplace ts throws v i s) ↔ Ends ts s v := by
  unfold emplace
  cases throws with
  | true => exact (reset_clears v s).sound_iff hs
  | false => exact (reset_clears v s).create_sound_iff hs (by nofun)

theorem convertAssign_sound_iff (hs : Sound s) {throws : Bool}
    (h : convertAssign ts throws v i s = some s') :
    Sound s' ↔ (s.alternative v ≠ some i → Ends ts s v) := by
  unfold convertAssign at h
  rcases cases_var s v with ⟨j, o, hv⟩ | ⟨_, _, hv⟩
  · rw [hv] at h
    dsimp only at h
    rw [alternative_eq hv]
    split at h
    · next hij =>
      obtain rfl := Option.some.inj h
      refine iff_of_true ?_ fun hne => absurd (congrArg some hij.symm) hne
      unfold Sound
      split
      · exact hs
      · rw [ledger_call (by nofun)]
        exact hs
    · next hij =>
      obtain rfl := Option.some.inj h
      have hne : some j ≠ some i := fun he => hij (Option.some.inj he).symm
      have hiff : Sound (emplace ts throws v i s) ↔ Ends ts s v := emplace_sound_iff hs throws
      exact hiff.trans ⟨fun he _ => he, fun he => he hne⟩
  · rcases hv with hv | hv
    · rw [hv] at h
      cases h
    · rw [hv] at h
      cases h

theorem helper_sound_iff {P : Prop} (hc : Clears s s' v P) (hs : Sound s) :
    Sound (helper k v w s') ↔ P := by
  unfold helper
  split
  · exact hc.create_sound_iff hs (by nofun)
  · exact hc.sound_iff hs

/-- The alternative of `v` is replaced by a copy of that of `w`. -/
theorem replace_sound_iff (ts : Fin (n + 1) → Alternative) (v w : I) (hs : Sound s)
    (throws : Bool) :
    Sound (if all ts fun a => a.triviallyConstructible .copy then bits ts .copy v w (reset ts v s)
      else if throws then reset ts v s else helper .copy v w (reset ts v s)) ↔ Ends ts s v := by
  have hclears : Clears s (reset ts v s) v (Ends ts s v) := reset_clears v s
  split
  · next hall =>
    have htriv : ∀ i, (ts i).triviallyConstructible .copy = true := all_apply hall
    have hends : Ends ts s v := ends_of_all htriv
    exact iff_of_true ((bits_sound_iff ((hclears.sound_iff hs).mpr hends)).mpr
      (bitsCopy_of_all htriv)) hends
  · split
    · exact hclears.sound_iff hs
    · exact helper_sound_iff hclears hs

theorem copyAssignBase_sound_iff (hs : Sound s) (throws : Bool) :
    Sound (copyAssignBase ts throws v w s) ↔
    (v ≠ w → s.alternative v ≠ s.alternative w → Ends ts s v) := by
  have hreplace := replace_sound_iff ts v w hs throws
  unfold copyAssignBase
  dsimp only
  by_cases hvw : v = w
  · rw [if_pos hvw]
    exact iff_of_true hs fun h => absurd hvw h
  · rw [if_neg hvw]
    split
    · next i o j source hv hw =>
      rw [alternative_eq hv, alternative_eq hw]
      split
      · next hij =>
        refine iff_of_true ?_ fun _ hne => absurd (congrArg some hij) hne
        unfold Sound
        split
        · exact hs
        · rw [ledger_call (by nofun)]
          exact hs
      · next hij =>
          exact hreplace.trans ⟨fun he _ _ => he, fun he => he hvw fun h => hij (Option.some.inj h)⟩
    · next hno =>
      refine hreplace.trans ⟨fun he _ _ => he, fun he => ?_⟩
      by_cases halt : s.alternative v = s.alternative w
      · rcases cases_var s v with ⟨i, o, hv⟩ | ⟨_, hnone, _⟩
        · rcases cases_var s w with ⟨j, source, hw⟩ | ⟨_, hnone, _⟩
          · exact absurd hw (hno i o j source hv)
          · exact ends_of_none (halt.trans hnone)
        · exact ends_of_none hnone
      · exact he hvw halt

theorem moveAssign_sound_iff (hs : Sound s) {throws : Bool}
    (h : moveAssign ts throws v w s = some s') :
    Sound s' ↔ (v ≠ w → s.alternative v ≠ s.alternative w → Ends ts s v) := by
  have hbits : ∀ k, triviallyAssignable ts k = true → s' = bits ts k v w s →
      (Sound s' ↔ (v ≠ w → s.alternative v ≠ s.alternative w → Ends ts s v)) := fun k hk he => by
    have htriv : ∀ i, (ts i).triviallyConstructible k = true :=
      fun i => (Bool.and_eq_true_iff.mp (all_apply hk i)).1
    rw [he]
    exact iff_of_true ((bits_sound_iff hs).mpr (bitsCopy_of_all htriv)) fun _ _ => ends_of_all htriv
  unfold moveAssign at h
  split at h
  · split at h
    · next hcopy =>
      split at h
      · split at h
        · next hmove => exact hbits .move hmove (Option.some.inj h).symm
        · cases h
      · exact hbits .copy hcopy (Option.some.inj h).symm
    · obtain rfl := Option.some.inj h
      exact copyAssignBase_sound_iff hs throws
  · split at h
    · next hmove => exact hbits .move hmove.2 (Option.some.inj h).symm
    · cases h

/-- The copy and the move constructor are always sound. -/
theorem constructFrom_sound (hs : Sound s) (hv : s.var v = none)
    (h : constructFrom ts k v w s = some s') : Sound s' := by
  unfold constructFrom at h
  split at h
  · next hall =>
    obtain rfl := Option.some.inj h
    exact (bits_sound_iff hs).mpr (bitsCopy_of_all (all_apply hall))
  · split at h
    · obtain rfl := Option.some.inj h
      have hobject : s.object v = none := by
        unfold State.object
        rw [hv]
        rfl
      have hclears : Clears s (s.put v (some none)) v True :=
        ⟨fun _ => by rw [ledger_put_empty (.inr rfl), Ledger.release_of_none hobject,
          ledger_destroy_none hobject], fun hn => absurd trivial hn⟩
      exact (helper_sound_iff hclears hs).mpr trivial
    · cases h

theorem constructFrom_copied (hvw : v ≠ w) (hw : s.var w = some (some (j, source)))
    (h : constructFrom ts k v w s = some s') :
    ∃ o, s'.var v = some (some (j, o)) ∧
    (s'.calls.head? = some (.constructFrom k o source) ∨
      s'.calls.head? = some (.assignFrom k o source)) := by
  unfold constructFrom at h
  split at h
  · next hall =>
    obtain rfl := Option.some.inj h
    exact bits_copied (bitsCopy_of_all (all_apply hall)) hvw hw
  · split at h
    · obtain rfl := Option.some.inj h
      have hw' : (s.put v (some none)).var w = some (some (j, source)) :=
        (Function.update_of_ne hvw.symm _ _).trans hw
      refine ⟨s.made, ?_, ?_⟩
      · rw [helper, hw']
        exact Function.update_self _ _ _
      · rw [helper, hw']
        exact .inl rfl
    · cases h

theorem construct_sound (hs : Sound s) (hv : s.var v = none) : Sound (create v i .construct s) := by
  refine sound_create (by nofun) hs ?_
  unfold State.object
  rw [hv]
  rfl

/-! ## Steps and runs -/

theorem step_sound_iff (hs : Sound s) {a : Act I n} (h : step ts s a = some s') :
    Sound s' ↔ Clean ts s a := by
  cases a with
  | defaultConstruct v =>
    obtain ⟨hv, h⟩ := Option.ite_none_right_eq_some.mp h
    obtain ⟨_, h⟩ := Option.ite_none_right_eq_some.mp h
    obtain rfl := Option.some.inj h
    exact iff_of_true (construct_sound hs hv) trivial
  | convert v i =>
    obtain ⟨hv, h⟩ := Option.ite_none_right_eq_some.mp h
    obtain ⟨_, h⟩ := Option.ite_none_right_eq_some.mp h
    obtain rfl := Option.some.inj h
    exact iff_of_true (construct_sound hs hv) trivial
  | copyConstruct v other =>
    obtain ⟨⟨hv, _⟩, h⟩ := Option.ite_none_right_eq_some.mp h
    exact iff_of_true (constructFrom_sound hs hv h) trivial
  | moveConstruct v other =>
    obtain ⟨⟨hv, _⟩, h⟩ := Option.ite_none_right_eq_some.mp h
    exact iff_of_true (constructFrom_sound hs hv h) trivial
  | copyAssign v other =>
    obtain ⟨_, h⟩ := Option.ite_none_right_eq_some.mp h
    obtain ⟨_, h⟩ := Option.ite_none_right_eq_some.mp h
    obtain rfl := Option.some.inj h
    exact bits_sound_iff hs
  | moveAssign throws v other =>
    obtain ⟨_, h⟩ := Option.ite_none_right_eq_some.mp h
    exact moveAssign_sound_iff hs h
  | convertAssign throws v i =>
    obtain ⟨_, h⟩ := Option.ite_none_right_eq_some.mp h
    exact convertAssign_sound_iff hs h
  | emplace throws v i =>
    obtain ⟨_, h⟩ := Option.ite_none_right_eq_some.mp h
    obtain rfl := Option.some.inj h
    exact emplace_sound_iff hs throws
  | destroy v =>
    obtain ⟨_, h⟩ := Option.ite_none_right_eq_some.mp h
    obtain rfl := Option.some.inj h
    exact (destroy_clears v s).sound_iff hs

theorem step_copied {a : Act I n} (h : step ts s a = some s') (hc : Clean ts s a) :
    Copied s a s' := by
  rintro v other (rfl | rfl) hvw j source hw
  · obtain ⟨_, h⟩ := Option.ite_none_right_eq_some.mp h
    exact constructFrom_copied hvw hw h
  · obtain ⟨_, h⟩ := Option.ite_none_right_eq_some.mp h
    obtain ⟨_, h⟩ := Option.ite_none_right_eq_some.mp h
    obtain rfl := Option.some.inj h
    exact bits_copied hc hvw hw

end ledgers

section runs
variable [DecidableEq I]

def Step (s : State I n) (a : Act I n) (s' : State I n) : Prop := step ts s a = some s'

theorem step_deterministic : Deterministic (Step (I := I) ts) :=
  fun _ _ _ _ h h' => Option.some.inj (h.symm.trans h')

/-- The objects are right in every step of a run exactly when the run is clean. -/
theorem objects_sound_iff_clean {as : List (Act I n)} {s : State I n}
    (h : Run (Step ts) .initial as s) :
    (∀ bs a cs s₁ s₂, as = bs ++ a :: cs → Run (Step ts) .initial bs s₁ → Step ts s₁ a s₂ →
      Sound s₂ ∧ Copied s₁ a s₂) ↔
      ∀ bs a cs s₁, as = bs ++ a :: cs → Run (Step ts) .initial bs s₁ → Clean ts s₁ a :=
  h.each_iff (step_deterministic ts) sound_initial
    (fun _ _ _ hs hstep hc =>
      ⟨(step_sound_iff hs hstep).mpr hc, (step_sound_iff hs hstep).mpr hc, step_copied hstep hc⟩)
    fun _ _ _ hs hstep hgood => (step_sound_iff hs hstep).mp hgood.1

end runs

/-- `int`, and a class such as `std::string`. -/
def trivialType : Alternative :=
  ⟨true, true, true, fun _ => true, fun _ => true, fun _ => true, fun _ => true, fun _ => rfl⟩

def classType : Alternative :=
  ⟨true, true, false, fun _ => true, fun _ => true, fun _ => false, fun _ => false, nofun⟩

def twoTypes (i : Fin 2) : Alternative := if i = 0 then trivialType else classType

theorem objects_sound_emplace_and_copy :
    ∃ (as : List (Act Nat 1)) (s : State Nat 1), Run (Step twoTypes) .initial as s ∧
    s.object 0 = some 1 ∧ s.object 1 = some 2 ∧
    ∀ bs a cs s₁ s₂, as = bs ++ a :: cs → Run (Step twoTypes) .initial bs s₁ →
    Step twoTypes s₁ a s₂ → Sound s₂ ∧ Copied s₁ a s₂ := by
  have h₁ : Run (Step twoTypes) (.initial : State Nat 1) [.defaultConstruct 0] _ :=
    .single (show step _ _ (.defaultConstruct 0) = some _ from rfl)
  have h₂ := h₁.snoc (show step _ _ (.emplace false 0 1) = some _ from rfl)
  have h₃ := h₂.snoc (show step _ _ (.copyConstruct 1 0) = some _ from rfl)
  refine ⟨_, _, h₃, rfl, rfl, (objects_sound_iff_clean _ h₃).mpr ?_⟩
  refine h₂.steps_snoc (step_deterministic _) (h₁.steps_snoc (step_deterministic _) ?_ ?_) trivial
  · exact Run.steps_snoc (step_deterministic _) .nil steps_nil trivial
  · intro i hi _
    obtain rfl : 0 = i := Option.some.inj hi
    rfl

/-- `variant<std::string>`: the string of a variant that is destroyed is not, and an assignment
makes two variants share one. -/
theorem string_leaked_and_shared :
    (∃ (as : List (Act Nat 0)) (s : State Nat 0), Run (Step fun _ => classType) .initial as s ∧
      ¬ Sound s) ∧
    ∃ (as : List (Act Nat 0)) (s : State Nat 0), Run (Step fun _ => classType) .initial as s ∧
    s.object 0 = some 1 ∧ s.object 1 = some 1 := by
  have h₁ : Run (Step fun _ => classType) (.initial : State Nat 0) [.defaultConstruct 0] _ :=
    .single (show step _ _ (.defaultConstruct 0) = some _ from rfl)
  have hdestroy :
      step (fun _ => classType) (create 0 0 .construct (.initial : State Nat 0))
        (.destroy 0) = some _ := rfl
  have h₂ := h₁.snoc (show step _ _ (.defaultConstruct 1) = some _ from rfl)
  have h₃ := h₂.snoc (show step _ _ (.copyAssign 0 1) = some _ from rfl)
  refine ⟨⟨_, _, h₁.snoc hdestroy, fun hs => ?_⟩, _, _, h₃, rfl, rfl⟩
  have hends := (step_sound_iff (construct_sound sound_initial rfl) hdestroy).mp hs
  exact Bool.false_ne_true (hends 0 rfl rfl)

end Gpcl.Variant
