import Gpcl.Lib.Runs
import Mathlib.Data.Fintype.Basic
import Mathlib.Logic.Function.Basic

/-! # get_mutex_for_address

Threads that look mutexes up by a key, copy the pointers and drop them. A mutex is its place
in the list `keys` of the keys for which one was made; it is alive while a `shared_ptr` owns
it: a handle of the program or a local variable of a call. The map holds `weak_ptr`s, and
`lock()` on one gives an owner while the mutex is alive. When the last owner goes, its thread
runs `~mutex_deleter`, possibly inside another one: the map's mutex is recursive. -/
namespace Gpcl.Sync.AddressMutex
open Lib.Runs

variable {ι H K : Type}

/-- The next step of `get_mutex_for_address`; `sp` is its local `shared_ptr`. -/
inductive GetPhase
  | lock
  | lookup
  | create
  | publish (sp : Nat)
  | unlock (sp : Nat)

/-- The next step of `~mutex_deleter`. -/
inductive DeletePhase
  | lock
  | find
  -- the end of the condition `it->second.lock().get() == &mutex_`: the temporary goes
  | drop (equal : Bool) (tmp : Option Nat)
  | erase (equal : Bool)
  | unlock

/-- A call in progress: a lookup with the handle for its result, or a destructor. -/
inductive Frame (H K : Type)
  | get (key : K) (h : H) (phase : GetPhase)
  | delete (m : Nat) (phase : DeletePhase)

/-- The owner among the local variables of a call. -/
def Frame.temp : Frame H K → Option Nat
  | .get _ _ (.publish sp) | .get _ _ (.unlock sp) => some sp
  | .delete _ (.drop _ tmp) => tmp
  | _ => none

/-- The call holds the map's mutex. -/
def Frame.critical : Frame H K → Bool
  | .get _ _ .lock | .delete _ .lock => false
  | _ => true

/-- `owner` and `depth` are the recursive mutex of the map. A handle carries the key it was obtained
for. -/
structure State (ι H K : Type) where
  map : K → Option (Option Nat)
  owner : Option ι
  depth : Nat
  keys : List K
  handle : H → Option (K × Nat)
  stack : ι → List (Frame H K)

def initial : State ι H K := ⟨fun _ => none, none, 0, [], fun _ => none, fun _ => []⟩

def Alive (s : State ι H K) (m : Nat) : Prop :=
  (∃ h, (s.handle h).map Prod.snd = some m) ∨ ∃ t, ∃ f ∈ s.stack t, f.temp = some m

instance [Fintype ι] [Fintype H] (s : State ι H K) (m : Nat) : Decidable (Alive s m) :=
  inferInstanceAs (Decidable
    ((∃ h, (s.handle h).map Prod.snd = some m) ∨ ∃ t, ∃ f ∈ s.stack t, f.temp = some m))

/-- A lookup in progress will write to the handle. -/
def Frame.targets : Frame H K → Option H
  | .get _ h _ => some h
  | _ => none

def Unused (s : State ι H K) (h : H) : Prop :=
  s.handle h = none ∧ ∀ t, ∀ f ∈ s.stack t, f.targets ≠ some h

inductive Act (ι H K : Type)
  | get (t : ι) (key : K) (h : H)
  | copy (h h' : H)
  | drop (t : ι) (h : H)
  | advance (t : ι)

variable [DecidableEq ι] [DecidableEq H] [DecidableEq K]

instance [Fintype ι] (s : State ι H K) (h : H) : Decidable (Unused s h) :=
  inferInstanceAs (Decidable (s.handle h = none ∧ ∀ t, ∀ f ∈ s.stack t, f.targets ≠ some h))

def setStack (t : ι) (fs : List (Frame H K)) (s : State ι H K) : State ι H K :=
  { s with stack := Function.update s.stack t fs }

/-- `mt_map::lock`, for the call on top of the stack, which goes on as `f`. -/
def lockMap (t : ι) (f : Frame H K) (rest : List (Frame H K)) (s : State ι H K) :
    Option (State ι H K) :=
  if s.owner = none ∨ s.owner = some t then
    some (setStack t (f :: rest) { s with owner := some t, depth := s.depth + 1 })
  else none

/-- The pointer returned by `mt_map::lock` goes, and with it the call. -/
def unlockMap (t : ι) (rest : List (Frame H K)) (s : State ι H K) : State ι H K :=
  setStack t rest { s with owner := if s.depth = 1 then none else s.owner, depth := s.depth - 1 }

variable [Fintype ι] [Fintype H]

/-- `weak_ptr::lock` of an entry of the map. -/
def lockEntry (s : State ι H K) (entry : Option (Option Nat)) : Option Nat :=
  match entry with
  | some (some m) => if Alive s m then some m else none
  | _ => none

/-- The destructor starts if the owner that has just gone was the last one. -/
def startDelete (t : ι) (m : Nat) (s : State ι H K) : State ι H K :=
  if Alive s m then s else setStack t (.delete m .lock :: s.stack t) s

def advanceGet (t : ι) (key : K) (h : H) (rest : List (Frame H K)) (s : State ι H K) :
    GetPhase → Option (State ι H K)
  | .lock => lockMap t (.get key h .lookup) rest s
  | .lookup =>
    let next := match lockEntry s (s.map key) with
      | some m => GetPhase.unlock m
      | none => GetPhase.create
    -- `operator[]` makes an empty entry if there is none
    some (setStack t (.get key h next :: rest)
      { s with map := Function.update s.map key (some ((s.map key).getD none)) })
  | .create =>
    some (setStack t (.get key h (.publish s.keys.length) :: rest)
      { s with keys := s.keys ++ [key] })
  | .publish sp =>
    some (setStack t (.get key h (.unlock sp) :: rest)
      { s with map := Function.update s.map key (some (some sp)) })
  | .unlock sp =>
    some (unlockMap t rest { s with handle := Function.update s.handle h (some (key, sp)) })

def advanceDelete (t : ι) (m : Nat) (rest : List (Frame H K)) (s : State ι H K) :
    DeletePhase → Option (State ι H K)
  | .lock => lockMap t (.delete m .find) rest s
  | .find => match s.keys[m]? with
    | none => none
    | some key =>
      let next := match s.map key with
        | none => DeletePhase.unlock
        | some entry => .drop (lockEntry s (some entry) = some m) (lockEntry s (some entry))
      some (setStack t (.delete m next :: rest) s)
  | .drop equal tmp =>
    let s := setStack t (.delete m (.erase equal) :: rest) s
    some (match tmp with
      | some m' => startDelete t m' s
      | none => s)
  | .erase equal => match s.keys[m]? with
    | none => none
    | some key =>
      some (setStack t (.delete m .unlock :: rest)
        (if equal then { s with map := Function.update s.map key none } else s))
  | .unlock => some (unlockMap t rest s)

def advance (t : ι) (s : State ι H K) : Option (State ι H K) :=
  match s.stack t with
  | [] => none
  | .get key h phase :: rest => advanceGet t key h rest s phase
  | .delete m phase :: rest => advanceDelete t m rest s phase

def drop (t : ι) (h : H) (s : State ι H K) : Option (State ι H K) :=
  match s.stack t, s.handle h with
  | [], some (_, m) => some (startDelete t m { s with handle := Function.update s.handle h none })
  | _, _ => none

def step (s : State ι H K) : Act ι H K → Option (State ι H K)
  | .get t key h => match s.stack t with
    | [] => if Unused s h then some (setStack t [.get key h .lock] s) else none
    | _ => none
  | .copy h h' => match s.handle h with
    | some p =>
      if Unused s h' then some { s with handle := Function.update s.handle h' (some p) } else none
    | none => none
  | .drop t h => drop t h s
  | .advance t => advance t s

def Step (s : State ι H K) (a : Act ι H K) (s' : State ι H K) : Prop := step s a = some s'

section invariant
omit [DecidableEq ι] [DecidableEq H] [DecidableEq K] [Fintype ι] [Fintype H]
variable {s s' : State ι H K} {t : ι} {m : Nat}

theorem Alive.handle {h : H} {k : K} (hh : s.handle h = some (k, m)) : Alive s m :=
  .inl ⟨h, Option.map_eq_some_iff.mpr ⟨_, hh, rfl⟩⟩

/-- A `shared_ptr` obtained for the key: a handle of the program, or the result of a lookup before
it returns. -/
def Obtained (s : State ι H K) (k : K) (m : Nat) : Prop :=
  (∃ h, s.handle h = some (k, m)) ∨ ∃ t h ph, .get k h ph ∈ s.stack t ∧
    (Frame.get k h ph : Frame H K).temp = some m

def Frame.isGet : Frame H K → Bool
  | .get _ _ _ => true
  | .delete _ _ => false

/-- What a call in progress relies on. -/
def Relies (s : State ι H K) : Frame H K → Prop
  | .get k _ .create => ∀ m, Alive s m → s.keys[m]? ≠ some k
  | .get k _ (.publish sp) => s.keys[sp]? = some k ∧ ∀ m, Alive s m → s.keys[m]? = some k → m = sp
  | .get k _ (.unlock sp) => s.keys[sp]? = some k
  | .delete m (.drop equal _) | .delete m (.erase equal) => ¬ Alive s m ∧ equal = false
  | .delete m _ => ¬ Alive s m
  | _ => True

/-- The recursive mutex of the map counts the calls of its owner that hold it. -/
structure Locked (s : State ι H K) : Prop where
  count : ∀ t, s.owner ≠ some t → (s.stack t).countP Frame.critical = 0
  depth : ∀ t, s.owner = some t → (s.stack t).countP Frame.critical = s.depth
  free : s.owner = none → s.depth = 0

/-- A living mutex is the one in the map under its key, or about to become it. -/
structure Inv (s : State ι H K) : Prop where
  locked : Locked s
  alone : ∀ t, ∀ f ∈ s.stack t, f.isGet = true → s.stack t = [f]
  relies : ∀ t, ∀ f ∈ s.stack t, Relies s f
  known : ∀ m, Alive s m → m < s.keys.length
  dying : ∀ t m ph, .delete m ph ∈ s.stack t → m < s.keys.length
  entry : ∀ m k, Alive s m → s.keys[m]? = some k →
    s.map k = some (some m) ∨ ∃ t h, .get k h (.publish m) ∈ s.stack t
  handles : ∀ h k m, s.handle h = some (k, m) → s.keys[m]? = some k
  mapped : ∀ k m, s.map k = some (some m) → s.keys[m]? = some k

theorem Inv.initial : Inv (initial : State ι H K) where
  locked := ⟨fun _ _ => rfl, fun _ h => (nomatch h), fun _ => rfl⟩
  alone _ _ h := nomatch h
  relies _ _ h := nomatch h
  known m h := by
    rcases h with ⟨h, hh⟩ | ⟨t, f, hf, _⟩
    · cases hh
    · cases hf
  dying _ _ _ h := nomatch h
  entry m k h := by
    rcases h with ⟨h, hh⟩ | ⟨t, f, hf, _⟩
    · cases hh
    · cases hf
  handles _ _ _ h := nomatch h
  mapped _ _ h := nomatch h

/-- Two calls that hold the map's mutex belong to one thread. -/
theorem Inv.exclusive (hi : Inv s) {u : ι} {f g : Frame H K} (hf : f ∈ s.stack t)
    (hg : g ∈ s.stack u) (hfc : f.critical = true) (hgc : g.critical = true) : t = u := by
  have hown : ∀ {v : ι} {f : Frame H K}, f ∈ s.stack v → f.critical = true → s.owner = some v := by
    intro v f hf hfc
    by_contra hne
    exact List.countP_eq_zero.mp (hi.locked.count v hne) f hf hfc
  exact Option.some.inj ((hown hf hfc).symm.trans (hown hg hgc))

/-- Two living mutexes for one key are one. -/
theorem Inv.unique (hi : Inv s) {m' : Nat} {k : K} (hm : Alive s m) (hm' : Alive s m')
    (hk : s.keys[m]? = some k) (hk' : s.keys[m']? = some k) : m = m' := by
  rcases hi.entry m k hm hk with h | ⟨t, h, hf⟩
  · rcases hi.entry m' k hm' hk' with h' | ⟨t, h', hf⟩
    · exact Option.some.inj (Option.some.inj (h.symm.trans h'))
    · exact (hi.relies t _ hf).2 m hm hk
  · exact ((hi.relies t _ hf).2 m' hm' hk').symm

theorem Inv.obtained (hi : Inv s) {k : K} (h : Obtained s k m) :
    Alive s m ∧ s.keys[m]? = some k := by
  rcases h with ⟨h, hh⟩ | ⟨t, h, ph, hf, hm⟩
  · exact ⟨.handle hh, hi.handles h k m hh⟩
  · refine ⟨.inr ⟨t, _, hf, hm⟩, ?_⟩
    have hrel := hi.relies t _ hf
    cases ph with
    | publish sp => cases hm; exact hrel.1
    | unlock sp => cases hm; exact hrel
    | lock => cases hm
    | lookup => cases hm
    | create => cases hm

theorem Relies.mono {f : Frame H K} (h : Relies s f) (hk : s'.keys = s.keys)
    (ha : ∀ m, Alive s' m → Alive s m) :
    Relies s' f := by
  cases f with
  | get k h' ph =>
    cases ph with
    | create => exact fun m hm => hk ▸ h m (ha m hm)
    | publish sp => exact ⟨hk ▸ h.1, fun m hm hkm => h.2 m (ha m hm) (hk ▸ hkm)⟩
    | unlock sp => exact (hk ▸ h : s'.keys[sp]? = some k)
    | lock => trivial
    | lookup => trivial
  | delete m ph =>
    cases ph with
    | drop equal tmp => exact ⟨fun hm => h.1 (ha m hm), h.2⟩
    | erase equal => exact ⟨fun hm => h.1 (ha m hm), h.2⟩
    | lock => exact fun hm => h (ha m hm)
    | find => exact fun hm => h (ha m hm)
    | unlock => exact fun hm => h (ha m hm)

/-- Handles are copied and dropped. -/
theorem Inv.handed (hi : Inv s) {handle : H → Option (K × Nat)}
    (hh : ∀ h k m, handle h = some (k, m) → s.keys[m]? = some k ∧ Alive s m) :
    Inv { s with handle := handle } := by
  have halive : ∀ m, Alive { s with handle := handle } m → Alive s m := by
    rintro m (⟨h, hm⟩ | hm)
    · obtain ⟨⟨k, m'⟩, he, rfl⟩ := Option.map_eq_some_iff.mp hm
      exact (hh h k m' he).2
    · exact .inr hm
  exact ⟨⟨hi.locked.count, hi.locked.depth, hi.locked.free⟩, hi.alone,
    fun t f hf => (hi.relies t f hf).mono rfl halive,
    fun m hm => hi.known m (halive m hm), hi.dying, fun m k hm hk => hi.entry m k (halive m hm) hk,
    fun h k m hm => (hh h k m hm).1, hi.mapped⟩

variable {f f' : Frame H K} {fs rest : List (Frame H K)}

/-- A lookup has its stack to itself. -/
theorem Inv.rest_nil (hi : Inv s) (hst : s.stack t = f :: rest) (hf : f.isGet = true) :
    rest = [] := by
  have h := hi.alone t f (hst ▸ List.mem_cons_self) hf
  rw [hst] at h
  exact (List.cons.inj h).2

/-- Under a destructor there are only destructors. -/
theorem Inv.rest_delete (hi : Inv s) (hst : s.stack t = f :: rest) (hf : f.isGet = false) :
    ∀ g ∈ s.stack t, g.isGet = false := by
  intro g hg
  by_contra hgg
  have h := hi.alone t g hg (by simpa using hgg)
  rw [hst] at h
  rw [← (List.cons.inj h).1, hf] at hgg
  exact hgg rfl

variable [DecidableEq ι]

theorem Locked.kept (h : Locked s) (ho : s'.owner = s.owner) (hd : s'.depth = s.depth)
    (hst : s'.stack = Function.update s.stack t fs)
    (hc : fs.countP Frame.critical = (s.stack t).countP Frame.critical) :
    Locked s' := by
  have hcount : ∀ u, (s'.stack u).countP Frame.critical = (s.stack u).countP Frame.critical := by
    intro u
    rw [hst, Function.update_apply]
    split
    · next he => rw [he]; exact hc
    · rfl
  refine ⟨fun u hu => ?_, fun u hu => ?_, fun hn => ?_⟩
  · rw [hcount u]; exact h.count u (ho ▸ hu)
  · rw [hcount u, hd]; exact h.depth u (ho ▸ hu)
  · rw [hd]; exact h.free (ho ▸ hn)

theorem Locked.acquired (h : Locked s) (hfree : s.owner = none ∨ s.owner = some t)
    (ho : s'.owner = some t) (hd : s'.depth = s.depth + 1)
    (hst : s'.stack = Function.update s.stack t fs)
    (hc : fs.countP Frame.critical = (s.stack t).countP Frame.critical + 1) : Locked s' := by
  have hbefore : (s.stack t).countP Frame.critical = s.depth := by
    rcases hfree with hn | hn
    · rw [h.free hn]
      exact h.count t (by rw [hn]; exact nofun)
    · exact h.depth t hn
  refine ⟨fun u hu => ?_, fun u hu => ?_, fun hn => ?_⟩
  · have hut : u ≠ t := fun he => hu (he ▸ ho)
    rw [hst, Function.update_of_ne hut]
    refine h.count u fun hs => ?_
    rcases hfree with hn | hn <;> rw [hn] at hs
    · cases hs
    · exact hut (Option.some.inj hs).symm
  · obtain rfl : t = u := Option.some.inj (ho.symm.trans hu)
    rw [hst, Function.update_self, hc, hbefore, hd]
  · rw [ho] at hn; cases hn

theorem Locked.released (h : Locked s) (hst : s.stack t = f :: rest) (hf : f.critical = true)
    (ho : s'.owner = if s.depth = 1 then none else s.owner) (hd : s'.depth = s.depth - 1)
    (hst' : s'.stack = Function.update s.stack t rest) : Locked s' := by
  have hcount : (s.stack t).countP Frame.critical = rest.countP Frame.critical + 1 := by
    rw [hst, List.countP_cons_of_pos hf]
  have hown : s.owner = some t := by
    by_contra hne
    have := h.count t hne
    omega
  have hdepth := h.depth t hown
  refine ⟨fun u hu => ?_, fun u hu => ?_, fun hn => ?_⟩
  · rw [hst', Function.update_apply]
    split
    · next he =>
      by_cases h1 : s.depth = 1
      · omega
      · rw [ho, if_neg h1, hown, he] at hu
        exact absurd rfl hu
    · next he => exact h.count u (by rw [hown]; exact fun hs => he (Option.some.inj hs).symm)
  · rw [ho] at hu
    split at hu
    · cases hu
    · obtain rfl : t = u := Option.some.inj (hown.symm.trans hu)
      rw [hst', Function.update_self, hd]
      omega
  · rw [ho] at hn
    split at hn
    · omega
    · rw [hown] at hn; cases hn

/-- With the handles as they were, the living come from the new calls and from those that were
there. -/
theorem Alive.of_update (h : Alive s' m) (hh : s'.handle = s.handle)
    (hst : s'.stack = Function.update s.stack t fs)
    (hfs : ∀ g ∈ fs, g.temp = some m → Alive s m) : Alive s m := by
  rcases h with ⟨x, hx⟩ | ⟨u, g, hg, hm⟩
  · exact .inl ⟨x, hh ▸ hx⟩
  · rw [hst, Function.update_apply] at hg
    split at hg
    · exact hfs g hg hm
    · exact .inr ⟨u, g, hg, hm⟩

/-- A step of thread `t` that makes no mutex: nothing comes to life, the new calls rely on what
holds, and what was in the map or about to be is in the map. -/
theorem Inv.changed (hi : Inv s) (hst : s'.stack = Function.update s.stack t fs) (hlock : Locked s')
    (hk : s'.keys = s.keys) (halive : ∀ m, Alive s' m → Alive s m)
    (hh : ∀ h k m, s'.handle h = some (k, m) → s.keys[m]? = some k)
    (halone : ∀ g ∈ fs, g.isGet = true → fs = [g])
    (hnew : ∀ g ∈ fs, g ∈ s.stack t ∨ Relies s' g ∧ ∀ m ph, g = .delete m ph → m < s.keys.length)
    (hmap : ∀ m k, Alive s m → s.keys[m]? = some k →
      s.map k = some (some m) ∨ (∃ h, .get k h (.publish m) ∈ s.stack t) → s'.map k = some (some m))
    (hmapped : ∀ k m, s'.map k = some (some m) → s.keys[m]? = some k) : Inv s' := by
  have hother : ∀ u, u ≠ t → s'.stack u = s.stack u :=
    fun u hu => by rw [hst, Function.update_of_ne hu]
  have hself : s'.stack t = fs := by rw [hst, Function.update_self]
  refine ⟨hlock, fun u g hg hgg => ?_, fun u g hg => ?_, fun m hm => ?_, fun u m ph hg => ?_,
    fun m k hm hkm => ?_,
    fun h k m hm => ?_, fun k m hm => ?_⟩
  · by_cases hu : u = t
    · rw [hu, hself] at hg ⊢
      exact halone g hg hgg
    · rw [hother u hu] at hg ⊢
      exact hi.alone u g hg hgg
  · by_cases hu : u = t
    · rw [hu, hself] at hg
      rcases hnew g hg with h | h
      · exact (hi.relies t g h).mono hk halive
      · exact h.1
    · exact (hi.relies u g (hother u hu ▸ hg)).mono hk halive
  · rw [hk]; exact hi.known m (halive m hm)
  · rw [hk]
    by_cases hu : u = t
    · rw [hu, hself] at hg
      rcases hnew _ hg with h | h
      · exact hi.dying t m ph h
      · exact h.2 m ph rfl
    · exact hi.dying u m ph (hother u hu ▸ hg)
  · rw [hk] at hkm
    have hm := halive m hm
    rcases hi.entry m k hm hkm with he | ⟨u, h, hg⟩
    · exact .inl (hmap m k hm hkm (.inl he))
    · by_cases hu : u = t
      · exact .inl (hmap m k hm hkm (.inr ⟨h, hu ▸ hg⟩))
      · exact .inr ⟨u, h, by rw [hother u hu]; exact hg⟩
  · rw [hk]; exact hh h k m hm
  · rw [hk]; exact hmapped k m hm

/-- The call on top of a stack makes a step that neither makes a mutex nor gives one away. -/
theorem Inv.moved (hi : Inv s) (hst : s.stack t = f :: rest)
    (hst' : s'.stack = Function.update s.stack t (f' :: rest)) (hlock : Locked s')
    (hk : s'.keys = s.keys) (hh : s'.handle = s.handle) (htmp : ∀ m, f'.temp = some m → Alive s m)
    (hget : f'.isGet = f.isGet) (hdel : ∀ m ph, f' = .delete m ph → ∃ ph', f = .delete m ph')
    (hrel : (∀ m, Alive s' m → Alive s m) → Relies s' f')
    (hmap : ∀ m k, Alive s m → s.keys[m]? = some k →
      s.map k = some (some m) ∨ (∃ h, f = .get k h (.publish m)) → s'.map k = some (some m))
    (hmapped : ∀ k m, s'.map k = some (some m) → s.keys[m]? = some k) : Inv s' := by
  have hold : ∀ g ∈ rest, g ∈ s.stack t := fun g hg => hst ▸ List.mem_cons_of_mem _ hg
  have halive : ∀ m, Alive s' m → Alive s m := fun m hm => hm.of_update hh hst' fun g hg htm => by
    rcases List.mem_cons.mp hg with rfl | hg
    · exact htmp m htm
    · exact .inr ⟨t, g, hold g hg, htm⟩
  refine hi.changed hst' hlock hk halive (fun h k m hm => hi.handles h k m (hh ▸ hm))
    (fun g hg hgg => ?_)
    (fun g hg => ?_) (fun m k hm hkm he =>
      hmap m k hm hkm (he.imp id fun ⟨h, hg⟩ => ⟨h, ?_⟩)) hmapped
  · by_cases hf : f.isGet = true
    · rw [hi.rest_nil hst hf] at hg ⊢
      rw [List.mem_singleton.mp hg]
    · have hf : f.isGet = false := by simpa using hf
      rcases List.mem_cons.mp hg with rfl | hg
      · rw [hget, hf] at hgg; cases hgg
      · rw [hi.rest_delete hst hf g (hold g hg)] at hgg; cases hgg
  · rcases List.mem_cons.mp hg with rfl | hg
    · refine .inr ⟨hrel halive, fun m ph he => ?_⟩
      obtain ⟨ph', hf⟩ := hdel m ph he
      exact hi.dying t m ph' (by rw [hst, hf]; exact List.mem_cons_self)
    · exact .inl (hold g hg)
  · have h1 := hi.alone t _ hg rfl
    rw [hst] at h1
    exact (List.cons.inj h1).1

/-- A destructor starts on top of other destructors. -/
theorem Inv.deleting (hi : Inv s) (hm : ¬ Alive s m) (hk : m < s.keys.length)
    (hno : ∀ g ∈ s.stack t, g.isGet = false) :
    Inv (setStack t (.delete m .lock :: s.stack t) s) := by
  have halive : ∀ m', Alive (setStack t (.delete m .lock :: s.stack t) s) m' → Alive s m' :=
      fun m' h =>
    h.of_update rfl rfl fun g hg htm => by
      rcases List.mem_cons.mp hg with rfl | hg
      · cases htm
      · exact .inr ⟨t, g, hg, htm⟩
  refine hi.changed rfl (hi.locked.kept rfl rfl rfl (List.countP_cons_of_neg Bool.false_ne_true))
    rfl halive hi.handles
    (fun g hg hgg => ?_) (fun g hg => ?_)
      (fun m' k _ _ he => he.resolve_right fun ⟨h, hg⟩ => ?_) hi.mapped
  · rcases List.mem_cons.mp hg with rfl | hg
    · cases hgg
    · rw [hno g hg] at hgg; cases hgg
  · rcases List.mem_cons.mp hg with rfl | hg
    · exact .inr ⟨fun h => hm (halive m h), fun m' ph he => by cases he; exact hk⟩
    · exact .inl hg
  · cases hno _ hg

/-- A call gives the map's mutex back and returns; its local owner becomes the handle or there is
none. -/
theorem Inv.popped (hi : Inv s) (hst : s.stack t = f :: rest) (hf : f.critical = true)
    (hp : ∀ k h sp, f ≠ .get k h (.publish sp))
    (ho : s'.owner = if s.depth = 1 then none else s.owner) (hd : s'.depth = s.depth - 1)
    (hst' : s'.stack = Function.update s.stack t rest) (hk : s'.keys = s.keys) (hm : s'.map = s.map)
    (hh : ∀ h k m, s'.handle h = some (k, m) → s.keys[m]? = some k ∧ Alive s m) : Inv s' := by
  have hold : ∀ g ∈ rest, g ∈ s.stack t := fun g hg => hst ▸ List.mem_cons_of_mem _ hg
  have halive : ∀ m, Alive s' m → Alive s m := by
    rintro m (⟨x, hx⟩ | ⟨u, g, hg, htm⟩)
    · obtain ⟨⟨k, m'⟩, he, rfl⟩ := Option.map_eq_some_iff.mp hx
      exact (hh x k m' he).2
    · rw [hst', Function.update_apply] at hg
      split at hg
      · exact .inr ⟨t, g, hold g hg, htm⟩
      · exact .inr ⟨u, g, hg, htm⟩
  refine hi.changed hst' (hi.locked.released hst hf ho hd hst') hk halive
    (fun h k m he => (hh h k m he).1)
    (fun g hg hgg => ?_) (fun g hg => .inl (hold g hg))
      (fun m k _ _ he => hm ▸ he.resolve_right fun ⟨h, hg⟩ => ?_)
    (fun k m he => hi.mapped k m (hm ▸ he))
  · have h1 := hi.alone t g (hold g hg) hgg
    rw [hst] at h1
    rw [(List.cons.inj h1).2] at hg
    cases hg
  · have h1 := hi.alone t _ hg rfl
    rw [hst] at h1
    exact hp _ _ _ (List.cons.inj h1).1

/-- A new mutex, for a key that no living one has. -/
theorem Inv.created (hi : Inv s) {k : K} {h : H} (hst : s.stack t = .get k h .create :: rest) :
    Inv (setStack t (.get k h (.publish s.keys.length) :: rest)
      { s with keys := s.keys ++ [k] }) := by
  obtain rfl := hi.rest_nil hst rfl
  have htop : .get k h .create ∈ s.stack t := hst ▸ List.mem_cons_self
  have hno := hi.relies t _ htop
  have hnew : (s.keys ++ [k])[s.keys.length]? = some k := List.getElem?_concat_length
  have hold : ∀ {m : Nat}, m < s.keys.length → (s.keys ++ [k])[m]? = s.keys[m]? :=
    fun hm => List.getElem?_append_left hm
  have hself :
      (setStack t [.get k h (.publish s.keys.length)] { s with keys := s.keys ++ [k] }).stack t =
        _ :=
    Function.update_self _ _ _
  have hother : ∀ u, u ≠ t →
      (setStack t [.get k h (.publish s.keys.length)] { s with keys := s.keys ++ [k] }).stack u =
        s.stack u :=
    fun u hu => Function.update_of_ne hu _ _
  have halive : ∀ m,
    Alive (setStack t [.get k h (.publish s.keys.length)] { s with keys := s.keys ++ [k] }) m →
      m = s.keys.length ∨ Alive s m := by
    rintro m (hx | ⟨u, g, hg, htm⟩)
    · exact .inr (.inl hx)
    · by_cases hu : u = t
      · rw [hu, hself, List.mem_singleton] at hg
        rw [hg] at htm
        exact .inl (Option.some.inj htm).symm
      · exact .inr (.inr ⟨u, g, hother u hu ▸ hg, htm⟩)
  -- the other threads wait for the map's mutex
  have houtside : ∀ u g, u ≠ t → g ∈ s.stack u → g.critical = false := fun u g hu hg =>
    Bool.eq_false_iff.mpr fun hc => hu (hi.exclusive hg htop hc rfl)
  refine ⟨hi.locked.kept rfl rfl rfl (by rw [hst]; rfl), fun u g hg hgg => ?_, fun u g hg => ?_,
    fun m hm => ?_,
    fun u m ph hg => ?_, fun m k' hm hkm => ?_, fun x k' m hx => ?_, fun k' m hx => ?_⟩
  · by_cases hu : u = t
    · rw [hu, hself] at hg ⊢
      rw [List.mem_singleton.mp hg]
    · rw [hother u hu] at hg ⊢
      exact hi.alone u g hg hgg
  · by_cases hu : u = t
    · rw [hu, hself, List.mem_singleton] at hg
      subst hg
      refine ⟨hnew, fun m hm hkm => (halive m hm).resolve_right fun ha => ?_⟩
      exact hno m ha ((hold (hi.known m ha)).symm.trans hkm)
    · rw [hother u hu] at hg
      have hc := houtside u g hu hg
      have hrel := hi.relies u g hg
      cases g with
      | get k' h' ph =>
        cases ph with
        | lock => trivial
        | _ => cases hc
      | delete m ph =>
        cases ph with
        | lock =>
          intro hm
          rcases halive m hm with he | ha
          · exact absurd (hi.dying u m _ hg) (by omega)
          · exact hrel ha
        | _ => cases hc
  · show m < (s.keys ++ [k]).length
    rw [List.length_append, List.length_singleton]
    rcases halive m hm with he | ha
    · omega
    · have := hi.known m ha
      omega
  · show m < (s.keys ++ [k]).length
    rw [List.length_append, List.length_singleton]
    by_cases hu : u = t
    · rw [hu, hself, List.mem_singleton] at hg
      cases hg
    · have := hi.dying u m ph (hother u hu ▸ hg)
      omega
  · rcases halive m hm with he | ha
    · subst he
      obtain rfl : k = k' := Option.some.inj (hnew.symm.trans hkm)
      exact .inr ⟨t, h, by rw [hself]; exact List.mem_cons_self⟩
    · have hkm' : s.keys[m]? = some k' := (hold (hi.known m ha)).symm.trans hkm
      refine .inl ((hi.entry m k' ha hkm').resolve_right fun ⟨u, x, hg⟩ => ?_)
      obtain rfl := hi.exclusive hg htop rfl rfl
      rw [hst, List.mem_singleton] at hg
      cases hg
  · have hk' := hi.handles x k' m hx
    exact (hold (List.getElem?_eq_some_iff.mp hk').1).trans hk'
  · have hk' := hi.mapped k' m hx
    exact (hold (List.getElem?_eq_some_iff.mp hk').1).trans hk'

end invariant

section steps
variable {s s' : State ι H K} {t : ι} {rest : List (Frame H K)}

omit [DecidableEq H] [DecidableEq K] in
theorem Inv.startDelete (hi : Inv s) {m : Nat} (hk : m < s.keys.length)
    (hno : ∀ g ∈ s.stack t, g.isGet = false) :
    Inv (startDelete t m s) := by
  unfold AddressMutex.startDelete
  split
  · exact hi
  · next hm => exact hi.deleting hm hk hno

omit [DecidableEq ι] [DecidableEq H] [DecidableEq K] in
theorem lockEntry_alive {entry : Option (Option Nat)} {m : Nat} (h : lockEntry s entry = some m) :
    Alive s m := by
  unfold lockEntry at h
  split at h
  · split at h
    · next ha => exact Option.some.inj h ▸ ha
    · cases h
  · cases h

omit [DecidableEq ι] [DecidableEq H] [DecidableEq K] in
theorem lockEntry_eq {entry : Option (Option Nat)} {m : Nat} (h : lockEntry s entry = some m) :
    entry = some (some m) := by
  unfold lockEntry at h
  split at h
  · split at h
    · cases h; rfl
    · cases h
  · cases h

omit [DecidableEq ι] [DecidableEq H] [DecidableEq K] in
theorem lockEntry_none {m : Nat} (h : lockEntry s (some (some m)) = none) : ¬ Alive s m := by
  intro ha
  rw [lockEntry, if_pos ha] at h
  cases h

omit [DecidableEq H] [DecidableEq K] [Fintype ι] [Fintype H] in
/-- `mt_map::lock` at the start of a call. -/
theorem Inv.lockMap (hi : Inv s) {f f' : Frame H K} (hst : s.stack t = f :: rest)
    (h : lockMap t f' rest s = some s') (hf : f.critical = false)
    (hf' : f'.critical = true) (htmp : f'.temp = none) (hget : f'.isGet = f.isGet)
    (hdel : ∀ m ph, f' = .delete m ph → ∃ ph', f = .delete m ph')
    (hrel : ∀ s' : State ι H K, s'.keys = s.keys → (∀ m, Alive s' m → Alive s m) → Relies s' f') :
    Inv s' := by
  unfold AddressMutex.lockMap at h
  split at h
  · next hfree =>
    cases h
    refine hi.moved hst rfl (hi.locked.acquired hfree rfl rfl rfl ?_) rfl rfl
      (fun m hm => by rw [htmp] at hm; cases hm)
      hget hdel (hrel _ rfl) (fun m k _ _ he => he.resolve_right fun ⟨h, he⟩ => ?_) hi.mapped
    · rw [hst, List.countP_cons_of_pos hf',
        List.countP_cons_of_neg (by rw [hf]; exact Bool.false_ne_true)]
    · rw [he] at hf; cases hf
  · cases h

theorem Inv.advanceGet (hi : Inv s) {k : K} {h : H} {ph : GetPhase}
    (hst : s.stack t = .get k h ph :: rest)
    (hs : advanceGet t k h rest s ph = some s') : Inv s' := by
  have htop : .get k h ph ∈ s.stack t := hst ▸ List.mem_cons_self
  have hrel := hi.relies t _ htop
  have hcount : ∀ {ph' : GetPhase},
    (Frame.get k h ph' : Frame H K).critical = (Frame.get k h ph : Frame H K).critical →
      (Frame.get k h ph' :: rest).countP Frame.critical = (s.stack t).countP Frame.critical :=
        fun he => by
    rw [hst, List.countP_cons, List.countP_cons, he]
  cases ph with
  | lock =>
    have hs : AddressMutex.lockMap t (.get k h .lookup) rest s = some s' := hs
    exact hi.lockMap hst hs rfl rfl rfl rfl nofun (fun _ _ _ => trivial)
  | lookup =>
    cases hs
    have hmap : ∀ m k', Alive s m → s.keys[m]? = some k' →
        s.map k' = some (some m) ∨ (∃ h', Frame.get k h .lookup = .get k' h' (.publish m)) →
        Function.update s.map k (some ((s.map k).getD none)) k' = some (some m) := by
      intro m k' _ _ he
      have he := he.resolve_right fun ⟨_, he⟩ => nomatch he
      rw [Function.update_apply]
      split
      · next hk => rw [← hk, he]; rfl
      · exact he
    have hmapped : ∀ k' m, Function.update s.map k (some ((s.map k).getD none)) k' = some (some m) →
        s.keys[m]? = some k' := by
      intro k' m he
      refine hi.mapped k' m ?_
      rw [Function.update_apply] at he
      split at he
      · next hk =>
        rw [hk]
        cases hm : s.map k with
        | none => rw [hm] at he; cases he
        | some entry => rw [hm] at he; exact he
      · exact he
    cases hl : lockEntry s (s.map k) with
    | some m =>
      have ha := lockEntry_alive hl
      refine hi.moved hst rfl (hi.locked.kept rfl rfl rfl (hcount rfl)) rfl rfl
        (fun m' hm' => ?_) rfl nofun (fun _ => ?_) hmap
        hmapped
      · cases hm'; exact ha
      · exact hi.mapped k m (lockEntry_eq hl)
    | none =>
      refine hi.moved hst rfl (hi.locked.kept rfl rfl rfl (hcount rfl)) rfl rfl nofun rfl nofun
        (fun halive m hm hk => ?_) hmap
        hmapped
      have ha := halive m hm
      rcases hi.entry m k ha hk with he | ⟨u, x, hg⟩
      · rw [he] at hl
        exact lockEntry_none hl ha
      · obtain rfl := hi.exclusive hg htop rfl rfl
        have h1 := hi.rest_nil hst rfl
        rw [hst, h1, List.mem_singleton] at hg
        cases hg
  | create => cases hs; exact hi.created hst
  | publish sp =>
    cases hs
    refine hi.moved hst rfl (hi.locked.kept rfl rfl rfl (hcount rfl)) rfl rfl
      (fun m hm => ?_) rfl nofun (fun _ => hrel.1)
      (fun m k' ha hk he => ?_) (fun k' m he => ?_)
    · exact .inr ⟨t, _, htop, hm⟩
    · show Function.update s.map k (some (some sp)) k' = some (some m)
      rw [Function.update_apply]
      split
      · next hkk => rw [hrel.2 m ha (hkk ▸ hk)]
      · next hkk =>
        refine he.resolve_right fun ⟨_, he⟩ => hkk ?_
        cases he; rfl
    · change Function.update s.map k (some (some sp)) k' = some (some m) at he
      rw [Function.update_apply] at he
      split at he
      · next hkk =>
        cases he
        rw [hkk]; exact hrel.1
      · exact hi.mapped k' m he
  | unlock sp =>
    cases hs
    refine hi.popped hst rfl nofun rfl rfl rfl rfl rfl (fun x k' m hx => ?_)
    change Function.update s.handle h (some (k, sp)) x = some (k', m) at hx
    rw [Function.update_apply] at hx
    split at hx
    · cases hx
      exact ⟨hrel, .inr ⟨t, _, htop, rfl⟩⟩
    · exact ⟨hi.handles x k' m hx, .handle hx⟩

omit [DecidableEq H] in
/-- A destructor finds a mutex of its key that is alive or none, and erases neither. -/
theorem Inv.advanceDelete (hi : Inv s) {m : Nat} {ph : DeletePhase}
    (hst : s.stack t = .delete m ph :: rest)
    (hs : advanceDelete t m rest s ph = some s') : Inv s' := by
  have htop : .delete m ph ∈ s.stack t := hst ▸ List.mem_cons_self
  have hrel := hi.relies t _ htop
  have hcount : ∀ {ph' : DeletePhase},
    (Frame.delete m ph' : Frame H K).critical = (Frame.delete m ph : Frame H K).critical →
      (Frame.delete m ph' :: rest).countP Frame.critical = (s.stack t).countP Frame.critical :=
        fun he => by
    rw [hst, List.countP_cons, List.countP_cons, he]
  have hsame : ∀ (ph' : DeletePhase) (m' : Nat) (ph'' : DeletePhase),
    (Frame.delete m ph' : Frame H K) = .delete m' ph'' →
      ∃ ph''', (Frame.delete m ph : Frame H K) = .delete m' ph''' := fun ph' m' ph'' he => by
    cases he; exact ⟨ph, rfl⟩
  have hmap : ∀ m' k, Alive s m' → s.keys[m']? = some k →
      s.map k = some (some m') ∨ (∃ h, (Frame.delete m ph : Frame H K) = .get k h (.publish m')) →
        s.map k = some (some m') :=
    fun m' k _ _ he => he.resolve_right fun ⟨_, he⟩ => nomatch he
  cases ph with
  | lock =>
    have hs : AddressMutex.lockMap t (.delete m .find) rest s = some s' := hs
    exact hi.lockMap hst hs rfl rfl rfl rfl (hsame _) (fun _ _ ha hm => hrel (ha m hm))
  | find =>
    unfold AddressMutex.advanceDelete at hs
    cases hk : s.keys[m]? with
    | none => rw [hk] at hs; cases hs
    | some k =>
      rw [hk] at hs
      cases hs
      cases he : s.map k with
      | none =>
        exact hi.moved hst rfl (hi.locked.kept rfl rfl rfl (hcount rfl)) rfl rfl nofun rfl (hsame _)
          (fun ha hm => hrel (ha m hm)) hmap hi.mapped
      | some entry =>
        refine hi.moved hst rfl (hi.locked.kept rfl rfl rfl (hcount rfl)) rfl rfl
          (fun m' hm' => lockEntry_alive hm') rfl
          (hsame _) (fun ha => ⟨fun hm => hrel (ha m hm), ?_⟩) hmap hi.mapped
        -- what the entry gives is alive, and `m` is not
        exact decide_eq_false fun hl => hrel (lockEntry_alive hl)
  | drop equal tmp =>
    have hm : Inv (setStack t (.delete m (.erase equal) :: rest) s) :=
      hi.moved hst rfl (hi.locked.kept rfl rfl rfl (hcount rfl)) rfl rfl nofun rfl (hsame _)
        (fun ha => ⟨fun hm => hrel.1 (ha m hm), hrel.2⟩) hmap hi.mapped
    cases tmp with
    | none => cases hs; exact hm
    | some m' =>
      cases hs
      refine hm.startDelete (hi.known m' (.inr ⟨t, _, htop, rfl⟩))
        (hm.rest_delete (Function.update_self _ _ _) rfl)
  | erase equal =>
    unfold AddressMutex.advanceDelete at hs
    cases hk : s.keys[m]? with
    | none => rw [hk] at hs; cases hs
    | some k =>
      obtain ⟨hdead, rfl⟩ := hrel
      rw [hk] at hs
      cases hs
      exact hi.moved hst rfl (hi.locked.kept rfl rfl rfl (hcount rfl)) rfl rfl nofun rfl (hsame _)
        (fun ha hm => hdead (ha m hm)) hmap hi.mapped
  | unlock =>
    cases hs
    exact hi.popped hst rfl nofun rfl rfl rfl rfl rfl
      (fun x k m' hx => ⟨hi.handles x k m' hx, .handle hx⟩)

theorem Inv.advance (hi : Inv s) (hs : advance t s = some s') : Inv s' := by
  unfold AddressMutex.advance at hs
  split at hs
  · cases hs
  · next hst => exact hi.advanceGet hst hs
  · next hst => exact hi.advanceDelete hst hs

omit [DecidableEq K] in
theorem Inv.drop (hi : Inv s) {h : H} (hs : drop t h s = some s') : Inv s' := by
  unfold AddressMutex.drop at hs
  split at hs
  · next k m hst hh =>
    cases hs
    have hd : Inv { s with handle := Function.update s.handle h none } :=
        hi.handed fun x k' m' hx => by
      rw [Function.update_apply] at hx
      split at hx
      · cases hx
      · exact ⟨hi.handles x k' m' hx, .handle hx⟩
    exact hd.startDelete (hi.known m (.handle hh)) fun g hg => by
      change g ∈ s.stack t at hg
      rw [hst] at hg
      cases hg
  · cases hs

omit [DecidableEq H] [DecidableEq K] [Fintype ι] [Fintype H] in
/-- A call of `get_mutex_for_address`. -/
theorem Inv.called (hi : Inv s) (k : K) (h : H) (hst : s.stack t = []) :
    Inv (setStack t [.get k h .lock] s) := by
  refine hi.changed rfl (hi.locked.kept rfl rfl rfl ?_) rfl
    (fun m hm => hm.of_update rfl rfl fun g hg htm => ?_)
    hi.handles (fun g hg _ => ?_) (fun g hg => .inr ?_)
      (fun m k _ _ he => he.resolve_right fun ⟨h, hg⟩ => ?_) hi.mapped
  · rw [hst]; rfl
  · rw [List.mem_singleton.mp hg] at htm
    cases htm
  · rw [List.mem_singleton.mp hg]
  · rw [List.mem_singleton.mp hg]
    exact ⟨trivial, nofun⟩
  · rw [hst] at hg
    cases hg

theorem Inv.step (hi : Inv s) {a : Act ι H K} (hs : Step s a s') : Inv s' := by
  unfold Step AddressMutex.step at hs
  cases a with
  | get t k h =>
    dsimp only at hs
    split at hs
    · next hst =>
      split at hs
      · cases hs; exact hi.called k h hst
      · cases hs
    · cases hs
  | copy h h' =>
    dsimp only at hs
    split at hs
    · next p hh =>
      split at hs
      · cases hs
        refine hi.handed fun x k m hx => ?_
        rw [Function.update_apply] at hx
        split at hx
        · cases hx
          exact ⟨hi.handles h k m hh, .handle hh⟩
        · exact ⟨hi.handles x k m hx, .handle hx⟩
      · cases hs
    · cases hs
  | drop t h => exact hi.drop hs
  | advance t => exact hi.advance hs

end steps

section frame
variable {s s' : State ι H K} {t : ι} {f g : Frame H K} {fs rest : List (Frame H K)}

/-- What a step of thread `t` inside the calls can do to the handles and to the lookups in
progress. -/
structure Advanced (t : ι) (s s' : State ι H K) : Prop where
  others : ∀ u, u ≠ t → s'.stack u = s.stack u
  calls : ∀ k h ph', .get k h ph' ∈ s'.stack t → ∃ ph, .get k h ph ∈ s.stack t
  handle : s'.handle = s.handle ∨
    ∃ k h sp, .get k h (.unlock sp) ∈ s.stack t ∧
      s'.handle = Function.update s.handle h (some (k, sp))

omit [DecidableEq ι] [DecidableEq H] [DecidableEq K] [Fintype ι] [Fintype H] in
theorem calls_cons (hst : s.stack t = f :: rest)
    (hg : ∀ k h ph', g = .get k h ph' → ∃ ph, f = .get k h ph) :
    ∀ k h ph', .get k h ph' ∈ g :: rest → ∃ ph, .get k h ph ∈ s.stack t := by
  intro k h ph' hm
  rcases List.mem_cons.mp hm with he | hm
  · obtain ⟨ph, rfl⟩ := hg k h ph' he.symm
    exact ⟨ph, hst ▸ List.mem_cons_self⟩
  · exact ⟨ph', hst ▸ List.mem_cons_of_mem _ hm⟩

omit [DecidableEq K] [Fintype ι] [Fintype H] in
theorem Advanced.of_update (hst' : s'.stack = Function.update s.stack t fs)
    (hcalls : ∀ k h ph', .get k h ph' ∈ fs → ∃ ph, .get k h ph ∈ s.stack t)
    (hh : s'.handle = s.handle) :
    Advanced t s s' where
  others u hu := by rw [hst', Function.update_of_ne hu]
  calls k h ph' hm := hcalls k h ph' (by rwa [hst', Function.update_self] at hm)
  handle := .inl hh

omit [DecidableEq K] [Fintype ι] [Fintype H] in
theorem lockMap_advanced (hst : s.stack t = f :: rest) (hs : lockMap t g rest s = some s')
    (hg : ∀ k h ph', g = .get k h ph' → ∃ ph, f = .get k h ph) : Advanced t s s' := by
  unfold lockMap at hs
  split at hs
  · cases hs; exact .of_update rfl (calls_cons hst hg) rfl
  · cases hs

theorem advanceGet_advanced {k : K} {h : H} {ph : GetPhase} (hst : s.stack t = .get k h ph :: rest)
    (hs : advanceGet t k h rest s ph = some s') : Advanced t s s' := by
  have hg : ∀ (ph' : GetPhase) (k' : K) (h' : H) (ph'' : GetPhase),
    Frame.get k h ph' = .get k' h' ph'' →
      ∃ ph''', Frame.get k h ph = .get k' h' ph''' := fun ph' k' h' ph'' he => by
    cases he; exact ⟨ph, rfl⟩
  cases ph with
  | lock =>
    have hs : lockMap t (.get k h .lookup) rest s = some s' := hs
    exact lockMap_advanced hst hs (hg _)
  | lookup => cases hs; exact .of_update rfl (calls_cons hst (hg _)) rfl
  | create => cases hs; exact .of_update rfl (calls_cons hst (hg _)) rfl
  | publish sp => cases hs; exact .of_update rfl (calls_cons hst (hg _)) rfl
  | unlock sp =>
    cases hs
    refine ⟨fun u hu => Function.update_of_ne hu _ _, fun k' h' ph' hm => ⟨ph', ?_⟩,
      .inr ⟨k, h, sp, hst ▸ List.mem_cons_self, rfl⟩⟩
    have hm : .get k' h' ph' ∈ Function.update s.stack t rest t := hm
    rw [Function.update_self] at hm
    exact hst ▸ List.mem_cons_of_mem _ hm

omit [DecidableEq H] [DecidableEq K] in
theorem startDelete_handle (m : Nat) : (startDelete t m s).handle = s.handle := by
  unfold startDelete
  split <;> rfl

omit [DecidableEq K] in
theorem startDelete_advanced (m : Nat) : Advanced t s (startDelete t m s) := by
  unfold startDelete
  split
  · exact ⟨fun _ _ => rfl, fun k h ph hm => ⟨ph, hm⟩, .inl rfl⟩
  · refine .of_update rfl (fun k h ph hm => ⟨ph, ?_⟩) rfl
    exact (List.mem_cons.mp hm).resolve_left nofun

theorem advanceDelete_advanced {m : Nat} {ph : DeletePhase} (hst : s.stack t = .delete m ph :: rest)
    (hs : advanceDelete t m rest s ph = some s') : Advanced t s s' := by
  have hg : ∀ (ph' : DeletePhase) (k : K) (h : H) (ph'' : GetPhase),
    Frame.delete m ph' = .get k h ph'' →
      ∃ ph''', Frame.delete m ph = .get k h ph''' := nofun
  unfold advanceDelete at hs
  cases ph with
  | lock => exact lockMap_advanced hst hs (hg _)
  | find =>
    dsimp only at hs
    split at hs
    · cases hs
    · cases hs; exact .of_update rfl (calls_cons hst (hg _)) rfl
  | drop equal tmp =>
    have h₁ : Advanced t s (setStack t (.delete m (.erase equal) :: rest) s) :=
      .of_update rfl (calls_cons hst (hg _)) rfl
    cases tmp with
    | none => cases hs; exact h₁
    | some m' =>
      cases hs
      have h₂ : Advanced t (setStack t (.delete m (.erase equal) :: rest) s) _ :=
        startDelete_advanced m'
      refine ⟨fun u hu => (h₂.others u hu).trans (h₁.others u hu), fun k h ph' hm => ?_,
        .inl (startDelete_handle m')⟩
      obtain ⟨ph, hm⟩ := h₂.calls k h ph' hm
      exact h₁.calls k h ph hm
  | erase equal =>
    dsimp only at hs
    split at hs
    · cases hs
    · cases hs
      cases equal with
      | false => exact .of_update rfl (calls_cons hst (hg _)) rfl
      | true => exact .of_update rfl (calls_cons hst (hg _)) rfl
  | unlock =>
    cases hs
    exact .of_update rfl (fun k h ph' hm => ⟨ph', hst ▸ List.mem_cons_of_mem _ hm⟩) rfl

theorem advance_advanced (hs : advance t s = some s') : Advanced t s s' := by
  unfold advance at hs
  split at hs
  · cases hs
  · next hst => exact advanceGet_advanced hst hs
  · next hst => exact advanceDelete_advanced hst hs

omit [DecidableEq K] in
theorem drop_advanced {h : H} (hs : drop t h s = some s') :
    s'.handle = Function.update s.handle h none ∧ (∀ u, u ≠ t → s'.stack u = s.stack u) ∧
      ∀ k h ph, .get k h ph ∉ s'.stack t := by
  unfold drop at hs
  split at hs
  · next k m hst _ =>
    cases hs
    have ha : Advanced t { s with handle := Function.update s.handle h none } _ :=
      startDelete_advanced m
    refine ⟨startDelete_handle m, ha.others, fun k h ph hm => ?_⟩
    obtain ⟨ph', hm⟩ := ha.calls k h ph hm
    change _ ∈ s.stack t at hm
    rw [hst] at hm
    cases hm
  · cases hs

/-- A call of `get_mutex_for_address` starts in a thread with no other, for a handle that is not in
use. -/
theorem get_starts {k : K} {h : H} (hs : step s (.get t k h) = some s') :
    s' = setStack t [.get k h .lock] s ∧ s.stack t = [] ∧ Unused s h := by
  dsimp only [step] at hs
  split at hs
  · next hst =>
    split at hs
    · next hu => cases hs; exact ⟨rfl, hst, hu⟩
    · cases hs
  · cases hs

end frame

/-- In every run, two pointers point to one mutex exactly when they were obtained for one key. -/
theorem same_mutex_iff_same_key {as : List (Act ι H K)} {s : State ι H K}
    (hr : Run Step initial as s) {k k' : K} {m m' : Nat} (h : Obtained s k m)
    (h' : Obtained s k' m') : m = m' ↔ k = k' := by
  have hi : Inv s := hr.invariant Inv.initial fun _ _ _ hi hs => hi.step hs
  obtain ⟨ha, hk⟩ := hi.obtained h
  obtain ⟨ha', hk'⟩ := hi.obtained h'
  constructor
  · rintro rfl
    exact Option.some.inj (hk.symm.trans hk')
  · rintro rfl
    exact hi.unique ha ha' hk hk'

/-- The first mutex is dropped, and its destructor delayed until there is a second one for the key,
with two owners. -/
theorem same_mutex_after_drop : ∃ (as : List (Act Bool Bool Bool)) (s : State Bool Bool Bool),
    Run Step initial as s ∧ s.stack false = [.delete 0 (.drop false (some 1))] ∧
    s.handle false = some (true, 1) ∧ s.handle true = some (true, 1) ∧ (1 = 1 ↔ true = true) := by
  have hgo : ∀ {as : List (Act Bool Bool Bool)} {s}, Run Step initial as s →
    ∀ (t : Bool) (s'), step s (.advance t) = some s' →
      Run Step initial (as ++ [.advance t]) s' := fun h _ _ hs => h.snoc hs
  have h₁ : Run Step (initial : State Bool Bool Bool) [.get false true false] _ :=
    .single (show step _ (.get false true false) = some _ from rfl)
  have h₂ := hgo (hgo (hgo (hgo (hgo h₁ false _ rfl) false _ rfl) false _ rfl) false _ rfl) false
    _ rfl
  have h₃ := h₂.snoc (show step _ (.drop false false) = some _ from rfl)
  have h₄ := h₃.snoc (show step _ (.get true true true) = some _ from rfl)
  have h₅ := hgo (hgo (hgo (hgo (hgo h₄ true _ rfl) true _ rfl) true _ rfl) true _ rfl) true _ rfl
  have h₆ := h₅.snoc (show step _ (.copy true false) = some _ from rfl)
  have h₇ := hgo (hgo h₆ false _ rfl) false _ rfl
  exact ⟨_, _, h₇, rfl, rfl, rfl, same_mutex_iff_same_key h₇ (.inl ⟨false, rfl⟩) (.inl ⟨true, rfl⟩)⟩

end Gpcl.Sync.AddressMutex
