import Gpcl.Sync.AddressMutex

/-! # The entries of the table

`~mutex_deleter` runs when the last owner has gone, and asks whether the entry's `lock()` gives its
own mutex: it never does, so no entry is erased. A key that was looked up once keeps its entry. -/
namespace Gpcl.Sync.AddressMutex
open Lib.Runs

variable {ι H K : Type}

/-- No lookup and no destructor is in progress. -/
def Quiescent (s : State ι H K) : Prop := ∀ t, s.stack t = []

/-- The map has an entry for a key only if some `shared_ptr<mutex>` for that key is alive. -/
def Tidy (s : State ι H K) : Prop := ∀ k, (s.map k).isSome → ∃ h m, s.handle h = some (k, m)

/-- The lookup has made sure that there is an entry. -/
def GetPhase.past : GetPhase → Bool
  | .lock | .lookup => false
  | _ => true

/-- A lookup for the key on this stack is past the entry. -/
def Wanted (fs : List (Frame H K)) (k : K) : Prop := ∃ h ph, .get k h ph ∈ fs ∧ ph.past = true

/-- There is an entry exactly for the keys that a mutex was made for, or that a lookup is about to
make one for. -/
def Entries (s : State ι H K) : Prop :=
  ∀ k, (s.map k).isSome ↔ k ∈ s.keys ∨ ∃ t, Wanted (s.stack t) k

section
variable {s s' : State ι H K} {t : ι} {f g : Frame H K} {fs rest : List (Frame H K)} {k key : K}
    {h : H} {ph : GetPhase} {m : Nat}

theorem wanted_nil : ¬ Wanted ([] : List (Frame H K)) k := fun ⟨_, _, hmem, _⟩ => nomatch hmem

theorem wanted_cons_get :
    Wanted (.get key h ph :: rest) k ↔ (key = k ∧ ph.past = true) ∨ Wanted rest k := by
  constructor
  · rintro ⟨h', ph', hmem, hpast⟩
    rcases List.mem_cons.mp hmem with he | hmem
    · cases he
      exact .inl ⟨rfl, hpast⟩
    · exact .inr ⟨h', ph', hmem, hpast⟩
  · rintro (⟨rfl, hpast⟩ | ⟨h', ph', hmem, hpast⟩)
    · exact ⟨h, ph, List.mem_cons_self, hpast⟩
    · exact ⟨h', ph', List.mem_cons_of_mem _ hmem, hpast⟩

theorem wanted_cons_delete {ph : DeletePhase} :
    Wanted (.delete m ph :: rest) k ↔ Wanted rest k := by
  constructor
  · rintro ⟨h', ph', hmem, hpast⟩
    exact ⟨h', ph', (List.mem_cons.mp hmem).resolve_left nofun, hpast⟩
  · rintro ⟨h', ph', hmem, hpast⟩
    exact ⟨h', ph', List.mem_cons_of_mem _ hmem, hpast⟩

theorem Entries.initial : Entries (initial : State ι H K) :=
  fun _ => iff_of_false Bool.false_ne_true fun h => h.elim nofun fun ⟨_, h⟩ => wanted_nil h

variable [DecidableEq ι]

/-- A step of one thread: new entries are for what its stack or the new keys ask for, and what it
has asked for stays. -/
theorem Entries.changed (he : Entries s) (hst : s'.stack = Function.update s.stack t fs)
    (hmap : ∀ k, (s'.map k).isSome ↔ (s.map k).isSome ∨ Wanted fs k ∨ k ∈ s'.keys)
    (hkeys : ∀ k ∈ s.keys, k ∈ s'.keys)
    (hkeep : ∀ k, Wanted (s.stack t) k → k ∈ s'.keys ∨ Wanted fs k) : Entries s' := by
  intro k
  rw [hmap, he k]
  have hself : s'.stack t = fs := by rw [hst, Function.update_self]
  have hother : ∀ u, u ≠ t → s'.stack u = s.stack u :=
    fun u hu => by rw [hst, Function.update_of_ne hu]
  constructor
  · rintro ((hk | ⟨u, hw⟩) | hw | hk)
    · exact .inl (hkeys k hk)
    · by_cases hu : u = t
      · exact (hkeep k (hu ▸ hw)).imp id fun hw => ⟨t, hself ▸ hw⟩
      · exact .inr ⟨u, hother u hu ▸ hw⟩
    · exact .inr ⟨t, hself ▸ hw⟩
    · exact .inl hk
  · rintro (hk | ⟨u, hw⟩)
    · exact .inr (.inr hk)
    · by_cases hu : u = t
      · exact .inr (.inl (hself ▸ hu ▸ hw))
      · exact .inl (.inr ⟨u, hother u hu ▸ hw⟩)

/-- A step that neither changes the map nor what is asked for. -/
theorem Entries.kept (he : Entries s) (hst : s'.stack = Function.update s.stack t fs)
    (hmap : s'.map = s.map) (hkeys : s'.keys = s.keys)
    (hw : ∀ k, Wanted fs k ↔ Wanted (s.stack t) k) : Entries s' := by
  refine he.changed hst (fun k => ?_) (fun k hk => hkeys ▸ hk) fun k h => .inr ((hw k).mpr h)
  rw [hmap, hkeys]
  refine ⟨.inl, ?_⟩
  rintro (h | h | h)
  · exact h
  · exact (he k).mpr (.inr ⟨t, (hw k).mp h⟩)
  · exact (he k).mpr (.inl h)

omit [DecidableEq ι] in
theorem Entries.same (he : Entries s) (hst : s'.stack = s.stack) (hmap : s'.map = s.map)
    (hkeys : s'.keys = s.keys) : Entries s' := by
  intro k
  rw [hmap, hkeys, hst]
  exact he k

/-- The map's mutex is taken by a call that is not past the entry. -/
theorem Entries.lockMap (he : Entries s) (hst : s.stack t = f :: rest)
    (hs : lockMap t g rest s = some s')
    (hw : ∀ k, Wanted (g :: rest) k ↔ Wanted (f :: rest) k) : Entries s' := by
  unfold AddressMutex.lockMap at hs
  split at hs
  · cases hs
    exact he.kept rfl rfl rfl fun k => by rw [hst]; exact hw k
  · cases hs

variable [DecidableEq H] [DecidableEq K] [Fintype ι] [Fintype H]

omit [DecidableEq H] [DecidableEq K] in
theorem Entries.startDelete (he : Entries s) (t : ι) (m : Nat) : Entries (startDelete t m s) := by
  unfold AddressMutex.startDelete
  split
  · exact he
  · exact he.kept rfl rfl rfl fun k => wanted_cons_delete

omit [DecidableEq ι] [DecidableEq H] [Fintype ι] [Fintype H] in
theorem update_isSome (s : State ι H K) (key : K) (e : Option Nat) :
    (Function.update s.map key (some e) k).isSome ↔ (s.map k).isSome ∨ key = k := by
  rw [Function.update_apply]
  split
  · next he => exact iff_of_true rfl (.inr he.symm)
  · next hne => exact ⟨.inl, fun h => h.resolve_right fun he => hne he.symm⟩

omit [DecidableEq H] [Fintype ι] [Fintype H] in
/-- A lookup writes the entry of its key. -/
theorem Entries.wrote {e : Option Nat} {ph' : GetPhase} (he : Entries s)
    (hst : s'.stack = Function.update s.stack t [.get key h ph'])
    (hmap : s'.map = Function.update s.map key (some e)) (hkeys : s'.keys = s.keys)
    (hpast : ph'.past = true) (hw : ∀ k, Wanted (s.stack t) k → key = k) : Entries s' := by
  have hwant : ∀ k, Wanted [.get key h ph'] k ↔ key = k := fun k => by
    rw [wanted_cons_get, or_iff_left wanted_nil, and_iff_left hpast]
  refine he.changed hst (fun k => ?_) (fun k hk => hkeys ▸ hk) fun k hk =>
    .inr ((hwant k).mpr (hw k hk))
  rw [hmap, update_isSome, hwant, hkeys]
  constructor
  · rintro (hk | hk)
    · exact .inl hk
    · exact .inr (.inl hk)
  · rintro (hk | hk | hk)
    · exact .inl hk
    · exact .inr hk
    · exact .inl ((he k).mpr (.inl hk))

theorem Entries.advanceGet (hi : Inv s) (he : Entries s) (hst : s.stack t = .get key h ph :: rest)
    (hs : advanceGet t key h rest s ph = some s') : Entries s' := by
  obtain rfl := hi.rest_nil hst rfl
  have hwant : ∀ k, Wanted (s.stack t) k ↔ key = k ∧ ph.past = true := fun k => by
    rw [hst, wanted_cons_get, or_iff_left wanted_nil]
  have hrel := hi.relies t _ (hst ▸ List.mem_cons_self)
  cases ph with
  | lock =>
    have hs : AddressMutex.lockMap t (.get key h .lookup) [] s = some s' := hs
    refine he.lockMap hst hs fun k => ?_
    rw [wanted_cons_get, wanted_cons_get]
    rfl
  | lookup =>
    cases hs
    refine he.wrote rfl rfl rfl ?_ fun k hk => ((hwant k).mp hk).1
    split <;> rfl
  | create =>
    cases hs
    refine he.changed rfl (fun k => ?_) (fun k hk => List.mem_append_left _ hk) fun k hk => .inl ?_
    · show (s.map k).isSome ↔ (s.map k).isSome ∨ Wanted [.get key h (.publish s.keys.length)] k ∨
        k ∈ s.keys ++ [key]
      have hkey : key = k → (s.map k).isSome :=
        fun hk => (he k).mpr (.inr ⟨t, (hwant k).mpr ⟨hk, rfl⟩⟩)
      refine ⟨.inl, ?_⟩
      rintro (hk | hk | hk)
      · exact hk
      · exact hkey ((wanted_cons_get.mp hk).resolve_right wanted_nil).1
      · rcases List.mem_append.mp hk with hk | hk
        · exact (he k).mpr (.inl hk)
        · exact hkey (List.mem_singleton.mp hk).symm
    · exact List.mem_append_right _ (List.mem_singleton.mpr ((hwant k).mp hk).1.symm)
  | publish sp =>
    cases hs
    exact he.wrote rfl rfl rfl rfl fun k hk => ((hwant k).mp hk).1
  | unlock sp =>
    cases hs
    have hkey : key ∈ s.keys := List.mem_of_getElem? hrel
    refine he.changed rfl (fun k => ?_) (fun k hk => hk) fun k hk =>
      .inl (((hwant k).mp hk).1 ▸ hkey)
    refine ⟨.inl, ?_⟩
    rintro (hk | hk | hk)
    · exact hk
    · exact (wanted_nil hk).elim
    · exact (he k).mpr (.inl hk)

omit [DecidableEq H] in
/-- No entry is erased: what the condition compares is never equal. -/
theorem Entries.advanceDelete {ph : DeletePhase} (hi : Inv s) (he : Entries s)
    (hst : s.stack t = .delete m ph :: rest)
    (hs : advanceDelete t m rest s ph = some s') : Entries s' := by
  have hwant : ∀ (ph' : DeletePhase) k, Wanted (.delete m ph' :: rest) k ↔ Wanted (s.stack t) k :=
      fun ph' k => by
    rw [hst, wanted_cons_delete, wanted_cons_delete]
  have hrel := hi.relies t _ (hst ▸ List.mem_cons_self)
  unfold AddressMutex.advanceDelete at hs
  cases ph with
  | lock =>
    refine he.lockMap hst hs fun k => ?_
    rw [wanted_cons_delete, wanted_cons_delete]
  | find =>
    dsimp only at hs
    split at hs
    · cases hs
    · cases hs
      exact he.kept rfl rfl rfl (hwant _)
  | drop equal tmp =>
    have hmoved : Entries (setStack t (.delete m (.erase equal) :: rest) s) :=
      he.kept rfl rfl rfl (hwant _)
    cases tmp with
    | none =>
      cases hs
      exact hmoved
    | some m' =>
      cases hs
      exact hmoved.startDelete t m'
  | erase equal =>
    obtain ⟨_, rfl⟩ := hrel
    dsimp only at hs
    split at hs
    · cases hs
    · cases hs
      exact he.kept rfl rfl rfl (hwant _)
  | unlock =>
    cases hs
    exact he.kept rfl rfl rfl fun k => by rw [hst, wanted_cons_delete]

theorem Entries.step {a : Act ι H K} (hi : Inv s) (he : Entries s) (hs : Step s a s') :
    Entries s' := by
  unfold Step AddressMutex.step at hs
  cases a with
  | get t key h =>
    obtain ⟨rfl, hst, _⟩ := get_starts hs
    refine he.kept rfl rfl rfl fun k => ?_
    rw [hst, wanted_cons_get]
    exact or_iff_right fun hk => Bool.false_ne_true hk.2
  | copy h h' =>
    dsimp only at hs
    split at hs
    · split at hs
      · cases hs
        exact he.same rfl rfl rfl
      · cases hs
    · cases hs
  | drop t h =>
    dsimp only [AddressMutex.drop] at hs
    split at hs
    · cases hs
      have hdropped : Entries { s with handle := Function.update s.handle h none } :=
        he.same rfl rfl rfl
      exact hdropped.startDelete t _
    · cases hs
  | advance t =>
    dsimp only [AddressMutex.advance] at hs
    split at hs
    · cases hs
    · next hst => exact he.advanceGet hi hst hs
    · next hst => exact he.advanceDelete hi hst hs

end

/-! ## Runs that keep an owner of every mutex -/

/-- A handle that a lookup in progress will write to is empty, and no other lookup's. -/
structure Reserved (s : State ι H K) : Prop where
  empty : ∀ t k h ph, .get k h ph ∈ s.stack t → s.handle h = none
  apart : ∀ t u k k' h ph ph', .get k h ph ∈ s.stack t → .get k' h ph' ∈ s.stack u → t = u

/-- Every mutex that was ever made has an owner. -/
def Owned (s : State ι H K) : Prop := ∀ m < s.keys.length, Alive s m

section
variable {s s' : State ι H K} {t : ι} {f : Frame H K} {fs rest : List (Frame H K)} {k key : K}
    {h : H} {ph : GetPhase} {m : Nat}

theorem Reserved.initial : Reserved (initial : State ι H K) where
  empty _ _ _ _ _ := rfl
  apart _ _ _ _ _ _ _ hf := nomatch hf

theorem Owned.initial : Owned (initial : State ι H K) := fun _ hm => nomatch hm

/-- No destructor runs. -/
theorem Owned.no_delete (ho : Owned s) (hi : Inv s) {ph : DeletePhase} :
    .delete m ph ∉ s.stack t := by
  intro hf
  have halive := ho m (hi.dying t m ph hf)
  have hrel := hi.relies t _ hf
  cases ph with
  | drop => exact hrel.1 halive
  | erase => exact hrel.1 halive
  | lock => exact hrel halive
  | find => exact hrel halive
  | unlock => exact hrel halive

variable [DecidableEq ι]

/-- An owner stays if it is a handle that keeps its value, or a local variable that is taken
over. -/
theorem Alive.kept (ha : Alive s m) (hst : s'.stack = Function.update s.stack t fs)
    (hh : ∀ h p, s.handle h = some p → s'.handle h = some p)
    (htmp : ∀ g ∈ s.stack t, g.temp = some m → Alive s' m) : Alive s' m := by
  rcases ha with ⟨h, hm⟩ | ⟨u, g, hg, hm⟩
  · obtain ⟨p, hp, he⟩ := Option.map_eq_some_iff.mp hm
    exact .inl ⟨h, Option.map_eq_some_iff.mpr ⟨p, hh h p hp, he⟩⟩
  · by_cases hu : u = t
    · exact htmp g (hu ▸ hg) hm
    · exact .inr ⟨u, g, by rw [hst, Function.update_of_ne hu]; exact hg, hm⟩

/-- A lookup goes on with its local variable. -/
theorem Owned.moved {ph' : GetPhase} (ho : Owned s) (hst : s.stack t = [.get key h ph])
    (hst' : s'.stack = Function.update s.stack t [.get key h ph']) (hh : s'.handle = s.handle)
    (hkeys : s'.keys = s.keys) (htmp : ∀ m, (Frame.get key h ph : Frame H K).temp = some m →
      (Frame.get key h ph' : Frame H K).temp = some m) :
    Owned s' := by
  intro m hm
  refine (ho m (hkeys ▸ hm)).kept hst' (fun _ _ hp => hh ▸ hp) fun g hg hg' => ?_
  rw [hst, List.mem_singleton] at hg
  subst hg
  exact .inr ⟨t, _, by rw [hst', Function.update_self]; exact List.mem_singleton_self _, htmp m hg'⟩

variable [DecidableEq H] [DecidableEq K] [Fintype ι] [Fintype H]

/-- The step does not take away the last owner of a mutex. -/
def KeepsOwner (s : State ι H K) : Act ι H K → Prop
  | .drop _ h =>
    ∀ k m, s.handle h = some (k, m) → Alive { s with handle := Function.update s.handle h none } m
  | _ => True

theorem Owned.advanceGet (hi : Inv s) (hr : Reserved s) (ho : Owned s)
    (hst : s.stack t = .get key h ph :: rest)
    (hs : advanceGet t key h rest s ph = some s') : Owned s' := by
  obtain rfl := hi.rest_nil hst rfl
  cases ph with
  | lock =>
    have hs : AddressMutex.lockMap t (.get key h .lookup) [] s = some s' := hs
    unfold AddressMutex.lockMap at hs
    split at hs
    · cases hs
      exact ho.moved hst rfl rfl rfl nofun
    · cases hs
  | lookup =>
    cases hs
    exact ho.moved hst rfl rfl rfl nofun
  | create =>
    cases hs
    intro m hm
    have hlen : m < s.keys.length + 1 := by
      rw [← List.length_singleton, ← List.length_append]
      exact hm
    by_cases hnew : m = s.keys.length
    · refine .inr ⟨t, .get key h (.publish s.keys.length), ?_, congrArg some hnew.symm⟩
      show _ ∈ Function.update s.stack t _ t
      rw [Function.update_self]
      exact List.mem_singleton_self _
    · refine (ho m (by omega)).kept rfl (fun _ _ hp => hp) fun g hg hg' => ?_
      rw [hst, List.mem_singleton] at hg
      subst hg
      cases hg'
  | publish sp =>
    cases hs
    exact ho.moved hst rfl rfl rfl fun _ hm => hm
  | unlock sp =>
    cases hs
    intro m hm
    refine (ho m hm).kept rfl (fun h' p hp => ?_) fun g hg hg' => ?_
    · -- the handle was empty
      have hne : h' ≠ h := fun he => by
        rw [he, hr.empty t key h _ (hst ▸ List.mem_cons_self)] at hp
        cases hp
      exact (Function.update_of_ne hne _ s.handle).trans hp
    · rw [hst, List.mem_singleton] at hg
      subst hg
      cases hg'
      have hself : Function.update s.handle h (some (key, sp)) h = some (key, sp) :=
        Function.update_self ..
      exact .handle hself

theorem Owned.step {a : Act ι H K} (hi : Inv s) (hr : Reserved s) (ho : Owned s) (hs : Step s a s')
    (hG : KeepsOwner s a) :
    Owned s' := by
  unfold Step at hs
  cases a with
  | get t key h =>
    obtain ⟨rfl, hst, _⟩ := get_starts hs
    refine fun m hm => (ho m hm).kept rfl (fun _ _ hp => hp) fun g hg _ => ?_
    rw [hst] at hg
    cases hg
  | copy h h' =>
    dsimp only [AddressMutex.step] at hs
    split at hs
    · next p hp =>
      split at hs
      · next hun =>
        cases hs
        refine fun m hm => (ho m hm).imp (fun ⟨x, hx⟩ => ⟨x, ?_⟩) id
        have hne : x ≠ h' := fun he => by
          rw [he, hun.1] at hx
          cases hx
        exact (congrArg _ (Function.update_of_ne hne _ s.handle)).trans hx
      · cases hs
    · cases hs
  | drop t h =>
    dsimp only [AddressMutex.step, AddressMutex.drop] at hs
    split at hs
    · next k m hst hh =>
      have hdropped : Owned { s with handle := Function.update s.handle h none } := fun m' hm' => by
        by_cases he : m' = m
        · exact he ▸ hG k m hh
        · refine (ho m' hm').imp (fun ⟨x, hx⟩ => ⟨x, ?_⟩) id
          have hne : x ≠ h := fun hxh => by
            rw [hxh, hh] at hx
            exact he (Option.some.inj hx).symm
          exact (congrArg _ (Function.update_of_ne hne _ s.handle)).trans hx
      cases hs
      rw [AddressMutex.startDelete, if_pos (hG k m hh)]
      exact hdropped
    · cases hs
  | advance t =>
    dsimp only [AddressMutex.step, AddressMutex.advance] at hs
    split at hs
    · cases hs
    · next hst => exact ho.advanceGet hi hr hst hs
    · next hst => exact absurd (hst ▸ List.mem_cons_self) (ho.no_delete hi)

omit [DecidableEq ι] [DecidableEq H] [DecidableEq K] [Fintype ι] [Fintype H] in
/-- No lookup starts, and the handles that are written to are no lookup's. -/
theorem Reserved.kept (hr : Reserved s)
    (hcalls : ∀ u k h ph, .get k h ph ∈ s'.stack u → ∃ ph', .get k h ph' ∈ s.stack u)
    (hh : ∀ u k h ph, .get k h ph ∈ s'.stack u → s.handle h = none → s'.handle h = none) :
    Reserved s' where
  empty u k h ph hf := by
    obtain ⟨ph', hf'⟩ := hcalls u k h ph hf
    exact hh u k h ph hf (hr.empty u k h ph' hf')
  apart u v k k' h ph ph' hf hg := by
    obtain ⟨_, hf'⟩ := hcalls u k h ph hf
    obtain ⟨_, hg'⟩ := hcalls v k' h ph' hg
    exact hr.apart u v k k' h _ _ hf' hg'

/-- The handle that a lookup writes to is that lookup's own, which has then returned. -/
theorem Reserved.advance (hi : Inv s) (hr : Reserved s) (hs : advance t s = some s') :
    Reserved s' := by
  have ha := advance_advanced hs
  have hcalls : ∀ u k h ph, .get k h ph ∈ s'.stack u → ∃ ph', .get k h ph' ∈ s.stack u :=
      fun u k h ph hf => by
    by_cases hu : u = t
    · subst hu
      exact ha.calls k h ph hf
    · exact ⟨ph, ha.others u hu ▸ hf⟩
  refine hr.kept hcalls fun u k h ph hf hnone => ?_
  rcases ha.handle with hsame | ⟨k', h', sp, hcall, hupdate⟩
  · rw [hsame]
    exact hnone
  · rw [hupdate]
    by_cases he : h = h'
    · subst he
      obtain ⟨ph', hf'⟩ := hcalls u k h ph hf
      obtain rfl := hr.apart u t k k' h ph' _ hf' hcall
      have hst := hi.alone u _ hcall rfl
      rw [AddressMutex.advance, hst] at hs
      cases hs
      have hf : .get k h ph ∈ Function.update s.stack u [] u := hf
      rw [Function.update_self] at hf
      cases hf
    · rw [Function.update_of_ne he]
      exact hnone

theorem Reserved.step {a : Act ι H K} (hi : Inv s) (hr : Reserved s) (hs : Step s a s') :
    Reserved s' := by
  unfold Step at hs
  cases a with
  | get t key h =>
    obtain ⟨rfl, hst, hun⟩ := get_starts hs
    have hframe : ∀ u k' h' ph', .get k' h' ph' ∈ Function.update s.stack t [.get key h .lock] u →
        (u = t ∧ h' = h) ∨ (.get k' h' ph' ∈ s.stack u ∧ h' ≠ h) := fun u k' h' ph' hf => by
      by_cases hu : u = t
      · rw [hu, Function.update_self, List.mem_singleton] at hf
        cases hf
        exact .inl ⟨hu, rfl⟩
      · rw [Function.update_of_ne hu] at hf
        exact .inr ⟨hf, fun he => hun.2 u _ hf (congrArg some he)⟩
    refine ⟨fun u k' h' ph' hf => ?_, fun u v k' k'' h' ph' ph'' hf hg => ?_⟩
    · rcases hframe u k' h' ph' hf with ⟨_, rfl⟩ | ⟨hf, _⟩
      · exact hun.1
      · exact hr.empty u k' h' ph' hf
    · rcases hframe u k' h' ph' hf with ⟨hu, he⟩ | ⟨hf, hne⟩
      · rcases hframe v k'' h' ph'' hg with ⟨hv, _⟩ | ⟨_, hne⟩
        · rw [hu, hv]
        · exact absurd he hne
      · rcases hframe v k'' h' ph'' hg with ⟨_, he⟩ | ⟨hg, _⟩
        · exact absurd he hne
        · exact hr.apart u v k' k'' h' ph' ph'' hf hg
  | copy h h' =>
    dsimp only [AddressMutex.step] at hs
    split at hs
    · split at hs
      · next hun =>
        cases hs
        refine hr.kept (fun u k x ph hf => ⟨ph, hf⟩) fun u k x ph hf hnone => ?_
        have hne : x ≠ h' := fun he => hun.2 u _ hf (congrArg some he)
        exact (Function.update_of_ne hne _ s.handle).trans hnone
      · cases hs
    · cases hs
  | drop t h =>
    obtain ⟨hhandle, hothers, hnone⟩ := drop_advanced hs
    refine hr.kept (fun u k x ph hf => ⟨ph, ?_⟩) fun u k x ph _ hx => ?_
    · by_cases hu : u = t
      · exact absurd (hu ▸ hf) (hnone k x ph)
      · exact hothers u hu ▸ hf
    · rw [hhandle, Function.update_apply]
      split
      · rfl
      · exact hx
  | advance t => exact hr.advance hi hs

end

section
variable [DecidableEq ι] [DecidableEq H] [DecidableEq K] [Fintype ι] [Fintype H] {s : State ι H K}
    {as : List (Act ι H K)}

omit [DecidableEq ι] [DecidableEq H] [DecidableEq K] [Fintype ι] [Fintype H] in
/-- Between the calls the owners are handles. -/
theorem Quiescent.handle (hq : Quiescent s) {m : Nat} (ha : Alive s m) :
    ∃ h k, s.handle h = some (k, m) := by
  rcases ha with ⟨h, hm⟩ | ⟨t, f, hf, _⟩
  · obtain ⟨⟨k, _⟩, hp, rfl⟩ := Option.map_eq_some_iff.mp hm
    exact ⟨h, k, hp⟩
  · rw [hq t] at hf
    cases hf

theorem run_owned (hr : Run Step initial as s)
    (hG : ∀ bs a cs u, as = bs ++ a :: cs → Run Step initial bs u → KeepsOwner u a) :
    Owned s := by
  suffices h : Inv s ∧ Reserved s ∧ Owned s from h.2.2
  induction hr with
  | nil => exact ⟨Inv.initial, Reserved.initial, Owned.initial⟩
  | @snoc as s u a hr hs ih =>
    obtain ⟨hi, hres, ho⟩ :=
      ih fun bs b cs v he => hG bs b (cs ++ [a]) v (by rw [he, List.append_assoc]; rfl)
    exact ⟨hi.step hs, hres.step hi hs, ho.step hi hres hs (hG as a [] s rfl hr)⟩

/-- Between the calls of a run the table is tidy exactly when every key that a mutex was made for
has an owner yet; in a run that takes away no last owner it is. -/
theorem tidy_iff (hr : Run Step initial as s) (hq : Quiescent s) :
    (Tidy s ↔ ∀ k ∈ s.keys, ∃ h m, s.handle h = some (k, m)) ∧
      ((∀ bs a cs u, as = bs ++ a :: cs → Run Step initial bs u → KeepsOwner u a) → Tidy s) := by
  obtain ⟨hi, he⟩ := hr.invariant (I := fun s => Inv s ∧ Entries s) ⟨Inv.initial, Entries.initial⟩
    fun _ _ _ h hs => ⟨h.1.step hs, h.2.step h.1 hs⟩
  have hmap : ∀ k, (s.map k).isSome ↔ k ∈ s.keys := fun k => by
    rw [he k]
    refine or_iff_left ?_
    rintro ⟨t, hw⟩
    rw [hq t] at hw
    exact wanted_nil hw
  refine ⟨forall_congr' fun k => by rw [hmap], fun hG k hk => ?_⟩
  obtain ⟨m, hlt, hm⟩ := List.mem_iff_getElem.mp ((hmap k).mp hk)
  obtain ⟨h, k', hh⟩ := hq.handle (run_owned hr hG m hlt)
  have hkey : s.keys[m]? = some k' := hi.handles h k' m hh
  rw [List.getElem?_eq_getElem hlt, hm] at hkey
  obtain rfl := Option.some.inj hkey
  exact ⟨h, m, hh⟩

end

theorem run_advance {as : List (Act Bool Bool Bool)} {s s' : State Bool Bool Bool}
    (hr : Run Step initial as s)
    (hs : step s (.advance false) = some s') : Run Step initial (as ++ [.advance false]) s' :=
  hr.snoc hs

/-- A thread looks one key up, and keeps the pointer. -/
theorem looked_up_run :
    ∃ (as : List (Act Bool Bool Bool)) (s : State Bool Bool Bool), Run Step initial as s ∧
    Quiescent s ∧ s.keys = [true] ∧ s.map true = some (some 0) ∧
    s.handle false = some (true, 0) := by
  have h₁ : Run Step (initial : State Bool Bool Bool) [.get false true false] _ :=
    .single (show step _ (.get false true false) = some _ from rfl)
  have h₂ := run_advance (run_advance
    (run_advance (run_advance (run_advance h₁ rfl) rfl) rfl) rfl) rfl
  exact ⟨_, _, h₂, fun t => by cases t <;> rfl, rfl, rfl, rfl⟩

theorem tidy_looked_up :
    ∃ (as : List (Act Bool Bool Bool)) (s : State Bool Bool Bool), Run Step initial as s ∧
    Quiescent s ∧ Tidy s := by
  obtain ⟨as, s, hr, hq, hkeys, _, hh⟩ := looked_up_run
  refine ⟨as, s, hr, hq, (tidy_iff hr hq).1.mpr fun k hk => ?_⟩
  rw [hkeys, List.mem_singleton] at hk
  exact ⟨false, 0, hk ▸ hh⟩

/-- The pointer is dropped and the destructor runs to its end: the entry is still there, and no
pointer. -/
theorem entry_left :
    ∃ (as : List (Act Bool Bool Bool)) (s : State Bool Bool Bool), Run Step initial as s ∧
    Quiescent s ∧
    s.map true = some (some 0) ∧ (∀ h, s.handle h = none) ∧ ¬ Tidy s := by
  have h₁ : Run Step (initial : State Bool Bool Bool) [.get false true false] _ :=
    .single (show step _ (.get false true false) = some _ from rfl)
  have h₂ := run_advance (run_advance
    (run_advance (run_advance (run_advance h₁ rfl) rfl) rfl) rfl) rfl
  have h₃ := h₂.snoc (show step _ (.drop false false) = some _ from rfl)
  have h₄ := run_advance (run_advance
    (run_advance (run_advance (run_advance h₃ rfl) rfl) rfl) rfl) rfl
  refine ⟨_, _, h₄, fun t => by cases t <;> rfl, rfl, fun h => by cases h <;> rfl, fun htidy => ?_⟩
  obtain ⟨h, m, hh⟩ := htidy true rfl
  cases h <;> cases hh

end Gpcl.Sync.AddressMutex
