import Gpcl.Lists.Spec
import Gpcl.Lib.Runs

/-! # Lists as sequences

Runs of a client on any number of lists, beside the same run on sequences. The copy assignment
of lists with unequal allocators that are to be propagated is the exception: it splices a
temporary list with the allocator of the source, and `splice` asserts that the allocators are
equal. -/
namespace Gpcl.Lists
open Lib.Rings Lib.Runs

variable {I T A : Type}

inductive Act (I T A : Type)
  | construct (l : I) (a : A)
  | destroy (l : I)
  | emplace (l : I) (i : Nat) (v : T)
  | pushFront (l : I) (v : T)
  | pushBack (l : I) (v : T)
  -- the elements `j` to `k` of another list
  | insertRange (l : I) (i : Nat) (other : I) (j k : Nat)
  | erase (l : I) (i : Nat)
  | eraseRange (l : I) (i j : Nat)
  | popFront (l : I)
  | popBack (l : I)
  | resize (l : I) (count : Nat)
  | clear (l : I)
  | copyConstruct (l other : I)
  | copyAssign (l other : I)

/-- Beside the lists of the client there is the temporary one of the copy assignment, `none`. -/
structure State (I T A : Type) where
  mem : Mem (Option I) T A
  alive : I → Bool

/-- What the lists are for. -/
structure Seqs (I T A : Type) where
  seq : I → List T
  alloc : I → A
  alive : I → Bool

/-- The allocator of what has not been constructed does not matter. -/
def initial (a : A) : State I T A :=
  ⟨⟨⟨id, id⟩, fun _ => none, 0, fun _ => 0, fun _ => a⟩, fun _ => false⟩

def Seqs.initial (a : A) : Seqs I T A := ⟨fun _ => [], fun _ => a, fun _ => false⟩

variable [DecidableEq I] [DecidableEq A]

def onList (l : I) (f : Mem (Option I) T A → Option (Mem (Option I) T A)) (s : State I T A) :
    Option (State I T A) :=
  if s.alive l then (f s.mem).map fun m => { s with mem := m } else none

def step (τ : Traits T A) (fuel : Nat) (s : State I T A) : Act I T A → Option (State I T A)
  | .construct l a =>
    if s.alive l then none else some ⟨construct (some l) a s.mem, Function.update s.alive l true⟩
  | .destroy l =>
    (onList l (clear fuel (some l)) s).map fun s =>
      { s with alive := Function.update s.alive l false }
  | .emplace l i v => onList l (fun m => some (emplace (some l) (iter (some l) i m) v m).1) s
  | .pushFront l v => onList l (fun m => some (emplace (some l) (begin (some l) m) v m).1) s
  | .pushBack l v => onList l (fun m => some (emplace (some l) (.head (some l)) v m).1) s
  | .insertRange l i other j k =>
    if s.alive other then
      onList l (fun m =>
        (insertRange fuel (some l) (iter (some l) i m) (iter (some other) j m)
          (iter (some other) k m) m).map
        Prod.fst) s
    else none
  | .erase l i => onList l (fun m => (erase (some l) (iter (some l) i m) m).map Prod.fst) s
  | .eraseRange l i j =>
    onList l (fun m =>
      (eraseRange fuel (some l) (iter (some l) i m) (iter (some l) j m) m).map Prod.fst) s
  | .popFront l => onList l (popFront (some l)) s
  | .popBack l => onList l (popBack (some l)) s
  | .resize l count => onList l (resize τ fuel (some l) count) s
  | .clear l => onList l (clear fuel (some l)) s
  | .copyConstruct l other =>
    if s.alive l then none
    else
      (onList other (fun m =>
        copyConstruct fuel (some l) (some other)
          (τ.selectOnCopyConstruction (m.alloc (some other))) m) s).map
        fun s => { s with alive := Function.update s.alive l true }
  | .copyAssign l other =>
    if s.alive other then onList l (copyAssign τ fuel none (some l) (some other)) s else none

def Step (τ : Traits T A) (fuel : Nat) (s : State I T A) (a : Act I T A) (s' : State I T A) :
    Prop := step τ fuel s a = some s'

/-- An operation on the sequence of a list; without a result where a client may not use it. -/
def onSeq (l : I) (xs : Option (List T)) (S : Seqs I T A) : Option (Seqs I T A) :=
  if S.alive l then xs.map fun xs => { S with seq := Function.update S.seq l xs } else none

def specStep (τ : Traits T A) (S : Seqs I T A) : Act I T A → Option (Seqs I T A)
  | .construct l a =>
    if S.alive l then none
      else some { S with
        alloc := Function.update S.alloc l a, alive := Function.update S.alive l true }
  | .destroy l =>
    (onSeq l (some []) S).map fun S => { S with alive := Function.update S.alive l false }
  | .emplace l i v =>
    onSeq l (if i ≤ (S.seq l).length then some ((S.seq l).take i ++ v :: (S.seq l).drop i)
      else none) S
  | .pushFront l v => onSeq l (some (v :: S.seq l)) S
  | .pushBack l v => onSeq l (some (S.seq l ++ [v])) S
  | .insertRange l i other j k =>
    if S.alive other ∧ other ≠ l ∧ i ≤ (S.seq l).length ∧ j ≤ k ∧ k ≤ (S.seq other).length then
      onSeq l (some ((S.seq l).take i ++
        (((S.seq other).drop j).take (k - j) ++ (S.seq l).drop i))) S
    else none
  | .erase l i =>
    onSeq l (if i < (S.seq l).length then some ((S.seq l).take i ++ (S.seq l).drop (i + 1))
      else none) S
  | .eraseRange l i j =>
    onSeq l (if i ≤ j ∧ j ≤ (S.seq l).length then some ((S.seq l).take i ++ (S.seq l).drop j)
      else none) S
  | .popFront l => onSeq l (if S.seq l = [] then none else some (S.seq l).tail) S
  | .popBack l => onSeq l (if S.seq l = [] then none else some (S.seq l).dropLast) S
  | .resize l count =>
    onSeq l (some ((S.seq l).take count ++ List.replicate (count - (S.seq l).length) τ.value)) S
  | .clear l => onSeq l (some []) S
  | .copyConstruct l other =>
    if S.alive l = false ∧ S.alive other then
      some ⟨Function.update S.seq l (S.seq other),
        Function.update S.alloc l (τ.selectOnCopyConstruction (S.alloc other)),
          Function.update S.alive l true⟩
    else none
  | .copyAssign l other =>
    if S.alive other then
      (onSeq l (some (S.seq other)) S).map fun S =>
        if τ.propagateOnCopyAssignment
          then { S with alloc := Function.update S.alloc l (S.alloc other) } else S
    else none

def SpecStep (τ : Traits T A) (S : Seqs I T A) (a : Act I T A) (S' : Seqs I T A) : Prop :=
  specStep τ S a = some S'

/-- Each list has its ring, no node is in two of them, `size_` is the number of its nodes, and from
`begin()` to `end()` they hold its sequence. -/
structure Refines (s : State I T A) (S : Seqs I T A) : Prop where
  alive : s.alive = S.alive
  dead : ∀ l, S.alive l = false → S.seq l = []
  alloc : ∀ l, s.mem.alloc (some l) = S.alloc l
  rep : ∃ nodes, Rep s.mem nodes (byHead S.seq)

/-- The rounds of the loops of an operation. -/
def rounds (S : Seqs I T A) : Act I T A → Nat
  | .destroy l | .clear l | .eraseRange l _ _ => (S.seq l).length + 1
  | .insertRange _ _ other _ _ | .copyConstruct _ other => (S.seq other).length + 1
  | .resize l count => count + (S.seq l).length + 1
  | .copyAssign l other => (S.seq l).length + (S.seq other).length + 1
  | _ => 0

/-- A copy assignment that propagates the allocator does so between equal ones. -/
def Clean (τ : Traits T A) (S : Seqs I T A) : Act I T A → Prop
  | .copyAssign l other => τ.propagateOnCopyAssignment = true → S.alloc l = S.alloc other
  | _ => True

omit [DecidableEq I] [DecidableEq A] in
/-- Allocators that are always equal. -/
theorem clean_of_equal {τ : Traits T A} {S : Seqs I T A} {a : Act I T A}
    (h : ∀ l l', S.alloc l = S.alloc l') : Clean τ S a := by
  cases a with
  | copyAssign l other => exact fun _ => h l other
  | _ => trivial

section steps
variable {τ : Traits T A} {s : State I T A} {S S' : Seqs I T A} {l : I} {fuel : Nat}

omit [DecidableEq I] [DecidableEq A] in
theorem Refines.initial (a : A) : Refines (initial a : State I T A) (Seqs.initial a) where
  alive := rfl
  dead _ _ := rfl
  alloc _ := rfl
  rep := by
    have hseq : byHead (fun _ : I => ([] : List T)) = fun _ => [] := by
      funext l
      cases l <;> rfl
    refine ⟨fun _ => [], ?_⟩
    show Rep (Mem.empty a) (fun _ => []) (byHead fun _ => [])
    rw [hseq]
    exact Rep.empty a

omit [DecidableEq A] in
/-- An operation on a list of the client, and what it is for. -/
theorem Refines.onList (hr : Refines s S) {f : Mem (Option I) T A → Option (Mem (Option I) T A)}
    {o : Option (List T)} (h : onSeq l o S = some S')
    (hf : ∀ nodes xs, Rep s.mem nodes (byHead S.seq) → o = some xs →
      ∃ m' nodes', f s.mem = some m' ∧
      Rep m' nodes' (Function.update (byHead S.seq) (some l) xs) ∧ m'.alloc = s.mem.alloc) :
    ∃ s', onList l f s = some s' ∧ Refines s' S' := by
  unfold onSeq at h
  split at h
  · next hl =>
    obtain ⟨xs, ho, rfl⟩ := Option.map_eq_some_iff.mp h
    obtain ⟨nodes, hrep⟩ := hr.rep
    obtain ⟨m', nodes', hf, hrep', ha⟩ := hf nodes xs hrep ho
    refine ⟨{ s with mem := m' }, by rw [Lists.onList, hr.alive, if_pos hl, hf]; rfl, hr.alive,
      fun l' hl' => ?_, fun l' => ?_,
      nodes', by rw [byHead_update]; exact hrep'⟩
    · show Function.update S.seq l xs l' = []
      rw [Function.update_of_ne fun he => by rw [he, hl] at hl'; cases hl']
      exact hr.dead l' hl'
    · exact (congrFun ha _).trans (hr.alloc l')
  · cases h

omit [DecidableEq A] in
theorem onSeq_self {xs : List T} (h : onSeq l (some xs) S = some S') : S'.seq l = xs := by
  unfold onSeq at h
  split at h
  · cases h; exact Function.update_self _ _ _
  · cases h

omit [DecidableEq A] in
theorem onSeq_alloc {o : Option (List T)} (h : onSeq l o S = some S') : S'.alloc = S.alloc := by
  unfold onSeq at h
  split at h
  · obtain ⟨xs, _, rfl⟩ := Option.map_eq_some_iff.mp h
    rfl
  · cases h

omit [DecidableEq A] in
/-- A list that is constructed: the other lists are as they were. -/
theorem Refines.born (hr : Refines s S) {m : Mem (Option I) T A} {nodes : Option I → List Nat}
    {xs : List T} {a : A} (hrep : Rep m nodes (Function.update (byHead S.seq) (some l) xs))
    (ha : m.alloc = Function.update s.mem.alloc (some l) a) :
    Refines ⟨m, Function.update S.alive l true⟩
      ⟨Function.update S.seq l xs, Function.update S.alloc l a,
        Function.update S.alive l true⟩ where
  alive := rfl
  dead l' hl' := by
    change Function.update S.alive l true l' = false at hl'
    show Function.update S.seq l xs l' = []
    rw [Function.update_apply] at hl' ⊢
    split at hl'
    · cases hl'
    · next hne => rw [if_neg hne]; exact hr.dead l' hl'
  alloc l' := by
    show m.alloc (some l') = Function.update S.alloc l a l'
    by_cases he : l' = l
    · rw [ha, he, Function.update_self, Function.update_self]
    · rw [ha, Function.update_of_ne he, Function.update_of_ne fun h => he (Option.some.inj h),
        hr.alloc l']
  rep := ⟨nodes, by rw [byHead_update]; exact hrep⟩

theorem Refines.construct (hr : Refines s S) {a : A} (h : SpecStep τ S (.construct l a) S') :
    ∃ s', Step τ fuel s (.construct l a) s' ∧ Refines s' S' := by
  dsimp only [SpecStep, specStep] at h
  split at h
  · cases h
  · next hl =>
    cases h
    obtain ⟨nodes, hrep⟩ := hr.rep
    have hl : S.alive l = false := by simpa using hl
    have hnil : Function.update (byHead S.seq) (some l) (S.seq l) = byHead S.seq :=
      Function.update_eq_self _ _
    have hborn := hr.born (hnil.symm ▸ hrep.construct (some l) (hr.dead l hl) a) rfl
    rw [Function.update_eq_self] at hborn
    refine ⟨_, ?_, hborn⟩
    rw [Step, Lists.step, hr.alive, if_neg (by rw [hl]; exact nofun)]

theorem Refines.copyConstruct (hr : Refines s S) {other : I}
    (h : SpecStep τ S (.copyConstruct l other) S') (hfuel : (S.seq other).length + 1 ≤ fuel) :
    ∃ s', Step τ fuel s (.copyConstruct l other) s' ∧ Refines s' S' := by
  dsimp only [SpecStep, specStep] at h
  split at h
  · next hl =>
    obtain ⟨hl, ho⟩ := hl
    cases h
    obtain ⟨nodes, hrep⟩ := hr.rep
    have hlo : some other ≠ some l := fun he => by
      rw [Option.some.inj he, hl] at ho
      cases ho
    obtain ⟨m', nodes', he, hrep', ha⟩ := hrep.copyConstruct hlo (hr.dead l hl)
      (τ.selectOnCopyConstruction (s.mem.alloc (some other))) hfuel
    rw [hr.alloc other] at ha
    refine ⟨_, ?_, hr.born hrep' ha⟩
    rw [Step, Lists.step, Lists.onList, hr.alive, if_neg (by rw [hl]; exact nofun), if_pos ho, he]
    rfl
  · cases h

omit [DecidableEq A] in
/-- A list is cleared. -/
theorem Refines.cleared (hr : Refines s S) (h : onSeq l (some []) S = some S')
    (hfuel : (S.seq l).length + 1 ≤ fuel) :
    ∃ s', Lists.onList l (Lists.clear fuel (some l)) s = some s' ∧ Refines s' S' := by
  refine hr.onList h fun nodes xs hrep ho => ?_
  cases ho
  obtain ⟨m', he, hrep', ha⟩ := hrep.clear (some l) hfuel
  exact ⟨m', _, he, hrep', ha⟩

theorem Refines.destroy (hr : Refines s S) (h : SpecStep τ S (.destroy l) S')
    (hfuel : (S.seq l).length + 1 ≤ fuel) :
    ∃ s', Step τ fuel s (.destroy l) s' ∧ Refines s' S' := by
  obtain ⟨S₁, h₁, rfl⟩ := Option.map_eq_some_iff.mp h
  obtain ⟨s₁, hs₁, hr₁⟩ := hr.cleared h₁ hfuel
  refine ⟨{ s₁ with alive := Function.update s₁.alive l false }, ?_, by rw [hr₁.alive],
    fun l' hl' => ?_, hr₁.alloc, hr₁.rep⟩
  · rw [Step, Lists.step, hs₁]
    rfl
  · change Function.update S₁.alive l false l' = false at hl'
    rw [Function.update_apply] at hl'
    split at hl'
    · next he =>
      have hself := onSeq_self h₁
      rw [he]
      exact hself
    · exact hr₁.dead l' hl'

/-! ### Insertions -/

theorem Refines.emplace (hr : Refines s S) {i : Nat} {v : T}
    (h : SpecStep τ S (.emplace l i v) S') :
    ∃ s', Step τ fuel s (.emplace l i v) s' ∧ Refines s' S' := by
  refine hr.onList (f := fun m => some (Lists.emplace (some l) (iter (some l) i m) v m).1) h
    fun nodes xs hrep ho => ?_
  split at ho
  · next hi =>
    cases ho
    obtain ⟨nodes', hrep'⟩ := hrep.emplaceAt (l := some l) hi v
    exact ⟨_, nodes', rfl, hrep', rfl⟩
  · cases ho

theorem Refines.pushFront (hr : Refines s S) {v : T} (h : SpecStep τ S (.pushFront l v) S') :
    ∃ s', Step τ fuel s (.pushFront l v) s' ∧ Refines s' S' := by
  refine hr.onList (f := fun m => some (Lists.emplace (some l) (Lists.begin (some l) m) v m).1) h
    fun nodes xs hrep ho => ?_
  cases ho
  have hrep' := hrep.emplace (l := some l) (List.nil_append _).symm
    (List.nil_append (S.seq l)).symm rfl v
  rw [← hrep.begin] at hrep'
  exact ⟨_, _, rfl, hrep', rfl⟩

theorem Refines.pushBack (hr : Refines s S) {v : T} (h : SpecStep τ S (.pushBack l v) S') :
    ∃ s', Step τ fuel s (.pushBack l v) s' ∧ Refines s' S' := by
  refine hr.onList (f := fun m => some (Lists.emplace (some l) (.head (some l)) v m).1) h
    fun nodes xs hrep ho => ?_
  cases ho
  have hrep' := hrep.emplace (l := some l) (List.append_nil _).symm (List.append_nil (S.seq l)).symm
    (hrep.length _) v
  exact ⟨_, _, rfl, hrep', rfl⟩

theorem Refines.insertRange (hr : Refines s S) {other : I} {i j k : Nat}
    (h : SpecStep τ S (.insertRange l i other j k) S') (hfuel : (S.seq other).length + 1 ≤ fuel) :
    ∃ s', Step τ fuel s (.insertRange l i other j k) s' ∧ Refines s' S' := by
  dsimp only [SpecStep, specStep] at h
  split at h
  · next hv =>
    obtain ⟨ho, hne, hi, hjk, hk⟩ := hv
    unfold Step
    rw [Lists.step, hr.alive, if_pos ho]
    refine hr.onList h fun nodes xs hrep ho => ?_
    cases ho
    exact hrep.insertFromTo (fun he => hne (Option.some.inj he)) hi hjk hk hfuel
  · cases h

/-! ### Removals -/

theorem Refines.erase (hr : Refines s S) {i : Nat} (h : SpecStep τ S (.erase l i) S') :
    ∃ s', Step τ fuel s (.erase l i) s' ∧ Refines s' S' := by
  refine hr.onList (f := fun m => (Lists.erase (some l) (iter (some l) i m) m).map Prod.fst) h
    fun nodes xs hrep ho => ?_
  split at ho
  · next hi =>
    cases ho
    exact hrep.eraseAt hi
  · cases ho

theorem Refines.eraseRange (hr : Refines s S) {i j : Nat} (h : SpecStep τ S (.eraseRange l i j) S')
    (hfuel : (S.seq l).length + 1 ≤ fuel) :
    ∃ s', Step τ fuel s (.eraseRange l i j) s' ∧ Refines s' S' := by
  refine hr.onList (f := fun m =>
    (Lists.eraseRange fuel (some l) (iter (some l) i m) (iter (some l) j m) m).map Prod.fst) h
    fun nodes xs hrep ho => ?_
  split at ho
  · next hij =>
    cases ho
    exact hrep.eraseFromTo (l := some l) hij.1 hij.2 hfuel
  · cases ho

theorem Refines.popFront (hr : Refines s S) (h : SpecStep τ S (.popFront l) S') :
    ∃ s', Step τ fuel s (.popFront l) s' ∧ Refines s' S' := by
  refine hr.onList (f := Lists.popFront (some l)) h fun nodes xs hrep ho => ?_
  cases hs : S.seq l with
  | nil => rw [if_pos hs] at ho; cases ho
  | cons v ws =>
    rw [if_neg (by rw [hs]; exact nofun), hs] at ho
    cases ho
    exact hrep.popFront hs

theorem Refines.popBack (hr : Refines s S) (h : SpecStep τ S (.popBack l) S') :
    ∃ s', Step τ fuel s (.popBack l) s' ∧ Refines s' S' := by
  refine hr.onList (f := Lists.popBack (some l)) h fun nodes xs hrep ho => ?_
  rcases List.eq_nil_or_concat (S.seq l) with hs | ⟨ys, v, hs⟩
  · rw [if_pos hs] at ho; cases ho
  · rw [List.concat_eq_append] at hs
    rw [if_neg (by rw [hs]; simp), hs, List.dropLast_concat] at ho
    cases ho
    exact hrep.popBack hs

/-! ### Assignment -/

theorem Refines.resize (hr : Refines s S) {count : Nat} (h : SpecStep τ S (.resize l count) S')
    (hfuel : count + (S.seq l).length + 1 ≤ fuel) :
    ∃ s', Step τ fuel s (.resize l count) s' ∧ Refines s' S' := by
  refine hr.onList (f := Lists.resize τ fuel (some l) count) h fun nodes xs hrep ho => ?_
  cases ho
  exact hrep.resize τ (some l) count hfuel

/-- The allocator that is propagated is the one that the list has. -/
theorem Refines.copyAssign (hr : Refines s S) {other : I}
    (h : SpecStep τ S (.copyAssign l other) S')
    (hc : τ.propagateOnCopyAssignment = true → S.alloc l = S.alloc other)
    (hfuel : (S.seq l).length + (S.seq other).length + 1 ≤ fuel) :
    ∃ s', Step τ fuel s (.copyAssign l other) s' ∧ Refines s' S' := by
  dsimp only [SpecStep, specStep] at h
  split at h
  · next ho =>
    obtain ⟨S₁, h₁, rfl⟩ := Option.map_eq_some_iff.mp h
    have heq : τ.propagateOnCopyAssignment = true →
        s.mem.alloc (some l) = s.mem.alloc (some other) := fun hp => by
      rw [hr.alloc l, hr.alloc other]
      exact hc hp
    obtain ⟨s₁, hs₁, hr₁⟩ :=
        hr.onList (f := Lists.copyAssign τ fuel none (some l) (some other)) h₁
            fun nodes xs hrep ho => by
      cases ho
      exact hrep.copyAssign none (some l) (some other) hfuel heq
    refine ⟨s₁, ?_, ?_⟩
    · rw [Step, Lists.step, hr.alive, if_pos ho, hs₁]
    · split
      · next hp =>
        have hsame : Function.update S₁.alloc l (S₁.alloc other) = S₁.alloc := by
          rw [onSeq_alloc h₁, ← hc hp, Function.update_eq_self]
        rw [hsame]
        exact hr₁
      · exact hr₁
  · cases h

/-- An operation that a client may use is carried out, with enough fuel for its loops, and
refined. -/
theorem Refines.step (hr : Refines s S) {a : Act I T A} (h : SpecStep τ S a S') (hc : Clean τ S a)
    (hfuel : rounds S a ≤ fuel) :
    ∃ s', Step τ fuel s a s' ∧ Refines s' S' := by
  cases a with
  | construct l a => exact hr.construct h
  | destroy l => exact hr.destroy h hfuel
  | emplace l i v => exact hr.emplace h
  | pushFront l v => exact hr.pushFront h
  | pushBack l v => exact hr.pushBack h
  | insertRange l i other j k => exact hr.insertRange h hfuel
  | erase l i => exact hr.erase h
  | eraseRange l i j => exact hr.eraseRange h hfuel
  | popFront l => exact hr.popFront h
  | popBack l => exact hr.popBack h
  | resize l count => exact hr.resize h hfuel
  | clear l => exact hr.cleared h hfuel
  | copyConstruct l other => exact hr.copyConstruct h hfuel
  | copyAssign l other => exact hr.copyAssign h hc hfuel

/-- A copy assignment that has to propagate an unequal allocator never returns. -/
theorem copyAssign_no_step {other : I} (hp : τ.propagateOnCopyAssignment = true)
    (hne : s.mem.alloc (some l) ≠ s.mem.alloc (some other)) (s' : State I T A) :
    ¬ Step τ fuel s (.copyAssign l other) s' := by
  have hnone : Lists.copyAssign τ fuel none (some l) (some other) s.mem = none :=
    copyAssign_of_ne none nofun hp hne
  intro h
  have h : (if s.alive other
    then Lists.onList l (Lists.copyAssign τ fuel none (some l) (some other)) s
    else none) = some s' := h
  rw [Lists.onList, hnone] at h
  split at h
  · split at h
    · cases h
    · cases h
  · cases h

theorem Refines.no_step (hr : Refines s S) {a : Act I T A} (hc : ¬ Clean τ S a) (s' : State I T A) :
    ¬ Step τ fuel s a s' := by
  cases a with
  | copyAssign l other =>
    unfold Clean at hc
    push Not at hc
    obtain ⟨hp, hne⟩ := hc
    rw [← hr.alloc l, ← hr.alloc other] at hne
    exact copyAssign_no_step hp hne s'
  | _ => exact absurd trivial hc

theorem step_deterministic :
    Deterministic (Step τ fuel : State I T A → Act I T A → State I T A → Prop) :=
  fun _ _ _ _ h h' => Option.some.inj (h.symm.trans h')

omit [DecidableEq A] in
theorem specStep_deterministic :
    Deterministic (SpecStep τ : Seqs I T A → Act I T A → Seqs I T A → Prop) :=
  fun _ _ _ _ h h' => Option.some.inj (h.symm.trans h')

variable {a₀ : A} {as : List (Act I T A)}

theorem refines_of_clean (h : Run (SpecStep τ) (Seqs.initial a₀) as S)
    (hc : ∀ bs a cs S₁, as = bs ++ a :: cs → Run (SpecStep τ) (Seqs.initial a₀) bs S₁ →
      Clean τ S₁ a) :
    ∃ k, ∀ fuel ≥ k, ∃ s, Run (Step τ fuel) (Lists.initial a₀) as s ∧ Refines s S := by
  induction h with
  | nil => exact ⟨0, fun fuel _ => ⟨_, .nil, .initial a₀⟩⟩
  | @snoc as S S' a hrun hstep ih =>
    obtain ⟨k, hk⟩ := ih fun bs b cs S₁ he => hc bs b (cs ++ [a]) S₁ (by simp [he])
    refine ⟨max k (rounds S a), fun fuel hfuel => ?_⟩
    obtain ⟨s, hs, hr⟩ := hk fuel (le_trans (Nat.le_max_left _ _) hfuel)
    obtain ⟨s', hs', hr'⟩ :=
      hr.step hstep (hc as a [] S rfl hrun) (le_trans (Nat.le_max_right _ _) hfuel)
    exact ⟨s', hs.snoc hs', hr'⟩

theorem clean_of_completes (h : Run (SpecStep τ) (Seqs.initial a₀) as S)
    (hrun : ∃ k, ∀ fuel ≥ k, ∃ s, Run (Step τ fuel) (Lists.initial a₀) as s) :
    ∀ bs a cs S₁, as = bs ++ a :: cs → Run (SpecStep τ) (Seqs.initial a₀) bs S₁ → Clean τ S₁ a := by
  induction h with
  | nil => exact steps_nil
  | @snoc as S S' a hpre hstep ih =>
    obtain ⟨k, hk⟩ := hrun
    have hclean := ih ⟨k, fun fuel hfuel => by
      obtain ⟨s, hs⟩ := hk fuel hfuel
      obtain ⟨t, ht, _⟩ := hs.last
      exact ⟨t, ht⟩⟩
    refine hpre.steps_snoc specStep_deterministic hclean ?_
    by_contra hc
    obtain ⟨k', hk'⟩ := refines_of_clean hpre hclean
    obtain ⟨t, ht, hr⟩ := hk' (max k k') (Nat.le_max_right _ _)
    obtain ⟨s, hs⟩ := hk (max k k') (Nat.le_max_left _ _)
    obtain ⟨t', ht', hst⟩ := hs.last
    obtain rfl := ht'.deterministic step_deterministic ht
    exact hr.no_step hc s hst

end steps

/-- Any number of lists, every run of a client: the lists carry it out and have the sequences that
the operations on sequences give, exactly when no copy assignment has to propagate an unequal
allocator. -/
theorem refines_iff_clean {τ : Traits T A} {a₀ : A} {as : List (Act I T A)} {S : Seqs I T A}
    (h : Run (SpecStep τ) (Seqs.initial a₀) as S) :
    (∃ k, ∀ fuel ≥ k, ∃ s, Run (Step τ fuel) (initial a₀) as s ∧ Refines s S) ↔
      ∀ bs a cs S₁, as = bs ++ a :: cs → Run (SpecStep τ) (Seqs.initial a₀) bs S₁ →
      Clean τ S₁ a := by
  refine ⟨fun hall => clean_of_completes h ?_, refines_of_clean h⟩
  obtain ⟨k, hk⟩ := hall
  refine ⟨k, fun fuel hfuel => ?_⟩
  obtain ⟨s, hs, _⟩ := hk fuel hfuel
  exact ⟨s, hs⟩

/-- A shorter and a longer list are assigned, and elements inserted from one list into another. -/
theorem refines_assign_and_insert :
    ∃ (as : List (Act Bool Nat Unit)) (S : Seqs Bool Nat Unit), S.seq false = [1, 2, 0, 1] ∧
    S.seq true = [1, 2, 0] ∧
    ∃ k, ∀ fuel ≥ k, ∃ s, Run (Step ⟨true, true, id, 0, id⟩ fuel) (initial ()) as s ∧
    Refines s S := by
  have hgo : ∀ {as : List (Act Bool Nat Unit)} {S},
    Run (SpecStep ⟨true, true, id, 0, id⟩) (Seqs.initial ()) as S →
      ∀ (a : Act Bool Nat Unit) (S'), specStep ⟨true, true, id, 0, id⟩ S a = some S' →
      Run (SpecStep ⟨true, true, id, 0, id⟩) (Seqs.initial ()) (as ++ [a]) S' :=
        fun h _ _ hs => h.snoc hs
  have h₁ :
      Run (SpecStep ⟨true, true, id, 0, id⟩) (Seqs.initial () : Seqs Bool Nat Unit)
        [.construct false ()] _ :=
    .single (show specStep _ _ (.construct false ()) = some _ from rfl)
  have h₂ := hgo (hgo (hgo h₁ (.pushBack false 2) _ rfl) (.pushFront false 1) _ rfl)
    (.resize false 3) _ rfl
  have h₃ := hgo (hgo (hgo h₂ (.copyConstruct true false) _ rfl) (.popBack false) _ rfl)
    (.copyAssign false true) _ rfl
  have h₄ := hgo (hgo h₃ (.erase false 2) _ rfl) (.insertRange false 2 true 0 1) _ rfl
  have h₅ := hgo (hgo h₄ (.emplace false 2 0) _ rfl) (.copyAssign true true) _ rfl
  exact ⟨_, _, rfl, rfl,
    (refines_iff_clean h₅).mpr fun _ _ _ _ _ _ => clean_of_equal fun _ _ => rfl⟩

/-- Two lists with unequal allocators that are to be propagated. -/
theorem copyAssign_unequal_allocators :
    ∃ (τ : Traits Nat Bool) (as : List (Act Bool Nat Bool)) (S : Seqs Bool Nat Bool),
    Run (SpecStep τ) (Seqs.initial false) as S ∧
    ∀ fuel s, ¬ Run (Step τ fuel) (initial false) as s := by
  have h₁ :
      Run (SpecStep ⟨true, true, id, 0, id⟩) (Seqs.initial false : Seqs Bool Nat Bool)
        [.construct false false] _ :=
    .single (show specStep _ _ (.construct false false) = some _ from rfl)
  have h₂ := h₁.snoc (show specStep _ _ (.construct true true) = some _ from rfl)
  have h₃ := h₂.snoc (show specStep _ _ (.copyAssign false true) = some _ from rfl)
  refine ⟨⟨true, true, id, 0, id⟩, _, _, h₃, fun fuel s hs => ?_⟩
  have hc₁ :
      Run (Step ⟨true, true, id, 0, id⟩ fuel) (initial false : State Bool Nat Bool)
        [.construct false false] _ :=
    .single (show step _ _ _ (.construct false false) = some _ from rfl)
  have hc₂ := hc₁.snoc (show step _ _ _ (.construct true true) = some _ from rfl)
  obtain ⟨t, ht, hst⟩ := hs.last
  obtain rfl := ht.deterministic step_deterministic hc₂
  refine copyAssign_no_step rfl (fun he => ?_) s hst
  exact Bool.false_ne_true he

end Gpcl.Lists
