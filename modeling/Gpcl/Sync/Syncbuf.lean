import Gpcl.Sync.AddressMutex

/-! # basic_syncbuf

Syncbufs, each used by its own thread, in front of streambufs. The mutex of a syncbuf is found by
the address of the streambuf it wraps, with `get_mutex_for_address`; the syncbuf is its handle. A
streambuf takes the characters of `sputn` one by one, so that others may come in between unless
the mutex keeps them out. `accepted` and `segments` are not in the code: they record what a
syncbuf has accepted, and what each `emit` has handed on from which buffer. -/
namespace Gpcl.Sync.Syncbuf
open Lib.Runs

variable {ι W C : Type}

/-- Who called `emit()`. -/
inductive Caller
  | client
  | sync
  | destructor

/-- Where the thread of a syncbuf is; the running `sputn` has taken `n` characters. -/
inductive Loc
  | absent
  | idle
  | lock (c : Caller)
  | sputn (c : Caller) (n : Nat)
  | pubsync (c : Caller)
  | unlock (c : Caller) (result : Bool)
  -- the destructor of `mutex_`
  | release
  | gone

/-- What the last call returned; `overflow` returns `eof` or something else. -/
inductive Returned
  | nothing
  | emit (ok : Bool)
  | sync (status : Int)
  | overflow (eof : Bool)
  | xsputn (count : Nat)

structure Buf (W C : Type) where
  wrapped : Option W
  emitOnSync : Bool
  pendingFlush : Bool
  buffer : List C
  loc : Loc
  returned : Returned
  accepted : List C

/-- The characters that one `emit` has handed on, and the buffer they were taken from. -/
structure Segment (ι W C : Type) where
  source : ι
  target : W
  buffer : List C
  chars : List C

/-- `held` has the owner of each mutex. -/
structure State (ι W C : Type) where
  bufs : ι → Buf W C
  mutexes : AddressMutex.State ι ι (Option W)
  held : Nat → Option ι
  received : W → List C
  segments : List (Segment ι W C)

def initial : State ι W C :=
  ⟨fun _ => ⟨none, false, false, [], .absent, .nothing, []⟩, AddressMutex.initial, fun _ => none,
    fun _ => [], []⟩

/-- `emit()` returns. -/
def finish (c : Caller) (result : Bool) (b : Buf W C) : Buf W C :=
  match c with
  | .client => { b with loc := .idle, returned := .emit result }
  | .sync => { b with loc := .idle, returned := .sync (if result then 0 else -1) }
  | .destructor => { b with loc := .release }

def emit (c : Caller) (b : Buf W C) : Buf W C :=
  match b.wrapped with
  | none => finish c false b
  | some _ => { b with loc := .lock c }

def sync (b : Buf W C) : Buf W C :=
  let b := { b with pendingFlush := true }
  if b.emitOnSync then emit .sync b else { b with returned := .sync 0 }

/-- `push_back` may throw. -/
def overflow (ch : Option C) (throws : Bool) (b : Buf W C) : Buf W C :=
  match ch with
  | none => { b with returned := .overflow false }
  | some ch =>
    if throws then { b with returned := .overflow true }
    else { b with
      buffer := b.buffer ++ [ch], returned := .overflow false, accepted := b.accepted ++ [ch] }

def xsputn (s : List C) (throws : Bool) (b : Buf W C) : Buf W C :=
  if throws then { b with returned := .xsputn 0 }
  else { b with buffer := b.buffer ++ s, returned := .xsputn s.length, accepted := b.accepted ++ s }

def setEmitOnSync (on : Bool) (b : Buf W C) : Buf W C := { b with emitOnSync := on }

/-- `sputn` has returned `n`. -/
def erase (c : Caller) (n : Nat) (b : Buf W C) : Buf W C :=
  let b := { b with buffer := b.buffer.drop n }
  if b.pendingFlush then { b with pendingFlush := false, loc := .pubsync c }
    else { b with loc := .unlock c b.buffer.isEmpty }

inductive Act (ι W C : Type)
  | construct (i : ι) (streambuf : Option W)
  | overflow (i : ι) (ch : Option C) (throws : Bool)
  | xsputn (i : ι) (s : List C) (throws : Bool)
  | setEmitOnSync (i : ι) (on : Bool)
  | sync (i : ι)
  | emit (i : ι)
  | destroy (i : ι)
  -- the next step of a running `emit()`: does `sputn` take one more, does `pubsync` succeed
  | advance (i : ι) (choice : Bool)
  -- the next step of `get_mutex_for_address` or `~mutex_deleter`
  | mutex (i : ι)

/-- The constructor has returned and no call is running. -/
def Ready (s : State ι W C) (i : ι) : Prop :=
  (s.bufs i).loc = .idle ∧ s.mutexes.stack i = [] ∧ s.mutexes.handle i ≠ none

def isReady (s : State ι W C) (i : ι) : Bool :=
  match (s.bufs i).loc with
  | .idle => (s.mutexes.stack i).isEmpty && (s.mutexes.handle i).isSome
  | _ => false

theorem isReady_iff {s : State ι W C} {i : ι} : isReady s i = true ↔ Ready s i := by
  unfold isReady Ready
  cases (s.bufs i).loc <;> simp [Option.isSome_iff_ne_none]

variable [DecidableEq ι] [DecidableEq W]

def setBuf (i : ι) (b : Buf W C) (s : State ι W C) : State ι W C :=
  { s with bufs := Function.update s.bufs i b }

def call (i : ι) (f : Buf W C → Buf W C) (s : State ι W C) : Option (State ι W C) :=
  if isReady s i then some (setBuf i (f (s.bufs i)) s) else none

variable [Fintype ι]

def advance (i : ι) (choice : Bool) (s : State ι W C) : Option (State ι W C) :=
  let b := s.bufs i
  match b.loc, b.wrapped, s.mutexes.handle i with
  | .lock c, _, some (_, m) =>
    if s.held m = none
      then some (setBuf i { b with loc := .sputn c 0 }
        { s with held := Function.update s.held m (some i) })
    else none
  | .sputn c n, some w, _ =>
    if choice then match b.buffer[n]? with
      | some ch => some (setBuf i { b with loc := .sputn c (n + 1) }
          { s with received := Function.update s.received w (s.received w ++ [ch]) })
      | none => none
    else some (setBuf i (erase c n b)
      { s with segments := s.segments ++ [⟨i, w, b.buffer, b.buffer.take n⟩] })
  | .pubsync c, _, _ => some (setBuf i { b with loc := .unlock c (choice && b.buffer.isEmpty) } s)
  | .unlock c result, _, some (_, m) =>
    some (setBuf i (finish c result b) { s with held := Function.update s.held m none })
  | .release, _, _ =>
    (AddressMutex.drop i i s.mutexes).map fun mutexes =>
      setBuf i { b with loc := .gone } { s with mutexes := mutexes }
  | _, _, _ => none

def construct (i : ι) (streambuf : Option W) (s : State ι W C) : Option (State ι W C) :=
  match (s.bufs i).loc with
  | .absent => (AddressMutex.step s.mutexes (.get i streambuf i)).map fun mutexes =>
      setBuf i ⟨streambuf, false, false, [], .idle, .nothing, []⟩ { s with mutexes := mutexes }
  | _ => none

def step (s : State ι W C) : Act ι W C → Option (State ι W C)
  | .construct i streambuf => construct i streambuf s
  | .overflow i ch throws => call i (overflow ch throws) s
  | .xsputn i cs throws => call i (xsputn cs throws) s
  | .setEmitOnSync i on => call i (setEmitOnSync on) s
  | .sync i => call i sync s
  | .emit i => call i (emit .client) s
  | .destroy i => call i (emit .destructor) s
  | .advance i choice => advance i choice s
  | .mutex i => (AddressMutex.advance i s.mutexes).map fun mutexes => { s with mutexes := mutexes }

def Step (s : State ι W C) (a : Act ι W C) (s' : State ι W C) : Prop := step s a = some s'

/-! ## The mutex -/

def Loc.busy : Loc → Bool
  | .absent | .idle | .gone => false
  | _ => true

def Loc.holds : Loc → Bool
  | .sputn _ _ | .pubsync _ | .unlock _ _ => true
  | _ => false

theorem Loc.busy_of_holds {l : Loc} (h : l.holds = true) : l.busy = true := by
  cases l <;> first | rfl | cases h

/-- The mutexes are those of the wrapped streambufs, and an `emit` behind its `lock` holds one. -/
structure Guarded (s : State ι W C) : Prop where
  mutexes : AddressMutex.Inv s.mutexes
  asked : ∀ t k h ph, .get k h ph ∈ s.mutexes.stack t → h = t ∧ k = (s.bufs t).wrapped
  found : ∀ i k m, s.mutexes.handle i = some (k, m) → k = (s.bufs i).wrapped
  busy : ∀ i, (s.bufs i).loc.busy = true → s.mutexes.stack i = []
  holds : ∀ i, (s.bufs i).loc.holds = true → ∃ k m, s.mutexes.handle i = some (k, m) ∧
    s.held m = some i

section guarded
omit [DecidableEq ι] [DecidableEq W] [Fintype ι]
variable {s s' : State ι W C} {i j : ι}

theorem Guarded.initial : Guarded (initial : State ι W C) where
  mutexes := .initial
  asked _ _ _ _ h := nomatch h
  found _ _ _ h := nomatch h
  busy _ h := nomatch h
  holds _ h := nomatch h

/-- Two syncbufs of one streambuf have one mutex. -/
theorem Guarded.same_mutex (hg : Guarded s) (hw : (s.bufs i).wrapped = (s.bufs j).wrapped)
    {k k' : Option W} {m m' : Nat} (hi : s.mutexes.handle i = some (k, m))
    (hj : s.mutexes.handle j = some (k', m')) : m = m' := by
  obtain ⟨ha, hk⟩ := hg.mutexes.obtained (.inl ⟨i, hi⟩)
  obtain ⟨ha', hk'⟩ := hg.mutexes.obtained (.inl ⟨j, hj⟩)
  rw [hg.found i k m hi, hw, ← hg.found j k' m' hj] at hk
  exact hg.mutexes.unique ha ha' hk hk'

/-- Only one `emit` at a time is behind its `lock`, of those to one streambuf. -/
theorem Guarded.exclusive (hg : Guarded s) (hw : (s.bufs i).wrapped = (s.bufs j).wrapped)
    (hi : (s.bufs i).loc.holds = true) (hj : (s.bufs j).loc.holds = true) : i = j := by
  obtain ⟨k, m, hm, ho⟩ := hg.holds i hi
  obtain ⟨k', m', hm', ho'⟩ := hg.holds j hj
  rw [hg.same_mutex hw hm hm', ho'] at ho
  exact (Option.some.inj ho).symm

variable [DecidableEq ι]

/-- A step of the syncbuf `i` outside the search for mutexes. -/
theorem Guarded.moved (hg : Guarded s) {b : Buf W C} (hmx : s'.mutexes = s.mutexes)
    (hb : s'.bufs = Function.update s.bufs i b) (hw : b.wrapped = (s.bufs i).wrapped)
    (hbusy : b.loc.busy = true → s.mutexes.stack i = [])
    (hholds : b.loc.holds = true → ∃ k m, s.mutexes.handle i = some (k, m) ∧ s'.held m = some i)
    (hheld : ∀ j m, j ≠ i → s.held m = some j → s'.held m = some j) : Guarded s' := by
  have hwrap : ∀ j, (s'.bufs j).wrapped = (s.bufs j).wrapped := by
    intro j
    rw [hb, Function.update_apply]
    split
    · next he => rw [he]; exact hw
    · rfl
  refine ⟨hmx ▸ hg.mutexes, fun t k h ph hm => ?_, fun j k m hm => ?_, fun j hj => ?_,
    fun j hj => ?_⟩
  · rw [hmx] at hm
    rw [hwrap]; exact hg.asked t k h ph hm
  · rw [hmx] at hm
    rw [hwrap]; exact hg.found j k m hm
  · rw [hmx]
    rw [hb, Function.update_apply] at hj
    split at hj
    · next he => rw [he]; exact hbusy hj
    · exact hg.busy j hj
  · rw [hmx]
    rw [hb, Function.update_apply] at hj
    split at hj
    · next he => rw [he]; exact hholds hj
    · next he =>
      obtain ⟨k, m, hm, ho⟩ := hg.holds j hj
      exact ⟨k, m, hm, hheld j m he ho⟩

variable [DecidableEq W] [Fintype ι] {mutexes : AddressMutex.State ι ι (Option W)}

/-- A step of the search for a mutex, or of the destructor of one. -/
theorem Guarded.advanced (hg : Guarded s) (h : AddressMutex.advance i s.mutexes = some mutexes) :
    Guarded { s with mutexes := mutexes } := by
  have ha := AddressMutex.advance_advanced h
  have hst : s.mutexes.stack i ≠ [] := fun he => by
    rw [AddressMutex.advance, he] at h
    cases h
  have hhandle : ∀ j, j ≠ i → mutexes.handle j = s.mutexes.handle j := by
    intro j hj
    rcases ha.handle with he | ⟨k, h', sp, hm, he⟩
    · rw [he]
    · rw [he, (hg.asked i k h' _ hm).1, Function.update_of_ne hj]
  refine ⟨hg.mutexes.advance h, fun t k h' ph hm => ?_, fun j k m hm => ?_, fun j hj => ?_,
    fun j hj => ?_⟩
  · by_cases ht : t = i
    · rw [ht] at hm ⊢
      obtain ⟨ph', hm⟩ := ha.calls k h' ph hm
      exact hg.asked i k h' ph' hm
    · exact hg.asked t k h' ph (ha.others t ht ▸ hm)
  · by_cases hj : j = i
    · rcases ha.handle with he | ⟨k', h', sp, hf, he⟩
      · exact hg.found j k m (he ▸ hm)
      · obtain ⟨rfl, hk'⟩ := hg.asked i k' h' _ hf
        change mutexes.handle j = _ at hm
        rw [he, hj, Function.update_self] at hm
        cases hm
        rw [hj]; exact hk'
    · exact hg.found j k m (hhandle j hj ▸ hm)
  · have hj' : j ≠ i := fun he => hst (he ▸ hg.busy j hj)
    exact (ha.others j hj').trans (hg.busy j hj)
  · have hj' : j ≠ i := fun he => hst (he ▸ hg.busy j (Loc.busy_of_holds hj))
    obtain ⟨k, m, hm, ho⟩ := hg.holds j hj
    exact ⟨k, m, (hhandle j hj').trans hm, ho⟩

omit [DecidableEq W] in
/-- The destructor of a syncbuf drops its mutex. -/
theorem Guarded.released (hg : Guarded s) (h : AddressMutex.drop i i s.mutexes = some mutexes)
    {b : Buf W C} (hb : b.loc = .gone) : Guarded (setBuf i b { s with mutexes := mutexes }) := by
  obtain ⟨hhandle, hothers, hcalls⟩ := AddressMutex.drop_advanced h
  have hself : (setBuf i b { s with mutexes := mutexes }).bufs i = b := Function.update_self _ _ _
  have hother : ∀ j, j ≠ i → (setBuf i b { s with mutexes := mutexes }).bufs j = s.bufs j :=
    fun j hj => Function.update_of_ne hj _ _
  refine ⟨hg.mutexes.drop h, fun t k h' ph hm => ?_, fun j k m hm => ?_, fun j hj => ?_,
    fun j hj => ?_⟩
  · have ht : t ≠ i := fun he => hcalls k h' ph (he ▸ hm)
    rw [hother t ht]
    exact hg.asked t k h' ph (hothers t ht ▸ hm)
  · have hm : mutexes.handle j = some (k, m) := hm
    rw [hhandle, Function.update_apply] at hm
    split at hm
    · cases hm
    · next hj => rw [hother j hj]; exact hg.found j k m hm
  · have hji : j ≠ i := fun he => by
      rw [he, hself, hb] at hj
      cases hj
    exact (hothers j hji).trans (hg.busy j (hother j hji ▸ hj))
  · have hji : j ≠ i := fun he => by
      rw [he, hself, hb] at hj
      cases hj
    obtain ⟨k, m, hm, ho⟩ := hg.holds j (hother j hji ▸ hj)
    refine ⟨k, m, ?_, ho⟩
    show mutexes.handle j = some (k, m)
    rw [hhandle, Function.update_of_ne hji, hm]

/-- A syncbuf is constructed. -/
theorem Guarded.constructed (hg : Guarded s) {b : Buf W C}
    (h : AddressMutex.step s.mutexes (.get i b.wrapped i) = some mutexes) (hb : b.loc = .idle) :
    Guarded (setBuf i b { s with mutexes := mutexes }) := by
  have hi : AddressMutex.Inv mutexes := hg.mutexes.step h
  obtain ⟨rfl, hst, hfree, hno⟩ := AddressMutex.get_starts h
  have hself :
      (setBuf i b { s with
          mutexes := AddressMutex.setStack i [.get b.wrapped i .lock] s.mutexes }).bufs i = b :=
    Function.update_self _ _ _
  have hother : ∀ j, j ≠ i →
      (setBuf i b { s with
        mutexes := AddressMutex.setStack i [.get b.wrapped i .lock] s.mutexes }).bufs j = s.bufs
          j :=
    fun j hj => Function.update_of_ne hj _ _
  refine ⟨hi, fun t k h' ph hm => ?_, fun j k m hm => ?_, fun j hj => ?_, fun j hj => ?_⟩
  · have hm : _ ∈ Function.update s.mutexes.stack i [.get b.wrapped i .lock] t := hm
    rw [Function.update_apply] at hm
    split at hm
    · next he =>
      cases List.mem_singleton.mp hm
      rw [he, hself]
      exact ⟨rfl, rfl⟩
    · next ht => rw [hother t ht]; exact hg.asked t k h' ph hm
  · have hji : j ≠ i := fun he => by
      have hm : s.mutexes.handle j = some (k, m) := hm
      rw [he, hfree] at hm
      cases hm
    rw [hother j hji]; exact hg.found j k m hm
  · have hji : j ≠ i := fun he => by
      rw [he, hself, hb] at hj
      cases hj
    exact (Function.update_of_ne hji _ _).trans (hg.busy j (hother j hji ▸ hj))
  · have hji : j ≠ i := fun he => by
      rw [he, hself, hb] at hj
      cases hj
    exact hg.holds j (hother j hji ▸ hj)

end guarded

/-! ## The characters -/

/-- What the `emit`s that have ended handed on to a streambuf. -/
def sent (s : State ι W C) (w : W) : List C :=
  (s.segments.filter (·.target = w)).flatMap Segment.chars

/-- What the `emit`s of a syncbuf that have ended handed on. -/
def sentBy (s : State ι W C) (i : ι) : List C :=
  (s.segments.filter (·.source = i)).flatMap Segment.chars

/-- The running `sputn` of a syncbuf, if there is one. -/
def Loc.taken : Loc → Option Nat
  | .sputn _ n => some n
  | _ => none

/-- A streambuf has received the segments of the `emit`s that have ended and the beginning of the
running one, and each syncbuf still has what it has not handed on. -/
structure Counted (s : State ι W C) : Prop where
  absent : ∀ i, (s.bufs i).loc = .absent → (s.bufs i).accepted = []
  source : ∀ g ∈ s.segments, (s.bufs g.source).wrapped = some g.target ∧
    (s.bufs g.source).loc ≠ .absent
  part : ∀ g ∈ s.segments, g.chars <+: g.buffer
  kept : ∀ i, sentBy s i ++ (s.bufs i).buffer = (s.bufs i).accepted
  quiet : ∀ w, (∀ i, (s.bufs i).wrapped = some w → (s.bufs i).loc.taken = none) →
    s.received w = sent s w
  running : ∀ i w n, (s.bufs i).wrapped = some w → (s.bufs i).loc.taken = some n →
    n ≤ (s.bufs i).buffer.length ∧ s.received w = sent s w ++ (s.bufs i).buffer.take n

section counted
omit [Fintype ι]
variable {s s' : State ι W C} {i : ι} {b : Buf W C}

theorem Counted.initial : Counted (initial : State ι W C) where
  absent _ _ := rfl
  source _ h := nomatch h
  part _ h := nomatch h
  kept _ := rfl
  quiet _ _ := rfl
  running _ _ _ h := nomatch h

/-- A streambuf to which no `sputn` is running behind a step, and to which the syncbuf `i` was not
sending before. -/
theorem Counted.quiet_before (hc : Counted s) (hb : s'.bufs = Function.update s.bufs i b) {w : W}
    (hi : (s.bufs i).wrapped = some w → (s.bufs i).loc.taken = none)
    (hq : ∀ j, (s'.bufs j).wrapped = some w → (s'.bufs j).loc.taken = none) :
    s.received w = sent s w := by
  refine hc.quiet w fun j hj => ?_
  by_cases hji : j = i
  · rw [hji] at hj ⊢
    exact hi hj
  · have h := hq j
    rw [hb, Function.update_of_ne hji] at h
    exact h hj

/-- A syncbuf that does not exist after a step of the syncbuf `i` did not before. -/
theorem Counted.absent_update (hc : Counted s) (hb : s'.bufs = Function.update s.bufs i b)
    (hne : b.loc ≠ .absent) (j : ι)
    (hj : (s'.bufs j).loc = .absent) : (s'.bufs j).accepted = [] := by
  have hji : j ≠ i := fun he => hne (by rw [he, hb, Function.update_self] at hj; exact hj)
  rw [hb, Function.update_of_ne hji] at hj ⊢
  exact hc.absent j hj

/-- The segments that have been handed on keep their sources. -/
theorem Counted.source_update (hc : Counted s) (hb : s'.bufs = Function.update s.bufs i b)
    (hw : b.wrapped = (s.bufs i).wrapped) (hne : b.loc ≠ .absent) {g : Segment ι W C}
    (hg : g ∈ s.segments) :
    (s'.bufs g.source).wrapped = some g.target ∧ (s'.bufs g.source).loc ≠ .absent := by
  obtain ⟨htarget, hloc⟩ := hc.source g hg
  by_cases hgi : g.source = i
  · rw [hgi] at htarget
    rw [hgi, hb, Function.update_self, hw]
    exact ⟨htarget, hne⟩
  · rw [hb, Function.update_of_ne hgi]
    exact ⟨htarget, hloc⟩

/-- A step of the syncbuf `i` in which no `sputn` ends. -/
theorem Counted.changed (hc : Counted s) (hb : s'.bufs = Function.update s.bufs i b)
    (hs : s'.segments = s.segments) (hw : b.wrapped = (s.bufs i).wrapped) (hne : b.loc ≠ .absent)
    (hkept : ∃ cs, b.buffer = (s.bufs i).buffer ++ cs ∧ b.accepted = (s.bufs i).accepted ++ cs)
    (hquiet : ∀ w, (∀ j, (s'.bufs j).wrapped = some w → (s'.bufs j).loc.taken = none) →
      s'.received w = sent s w)
    (hrunning : ∀ j w n, (s'.bufs j).wrapped = some w → (s'.bufs j).loc.taken = some n →
      n ≤ (s'.bufs j).buffer.length ∧ s'.received w = sent s w ++
      (s'.bufs j).buffer.take n) : Counted s' := by
  have hself : s'.bufs i = b := by rw [hb, Function.update_self]
  have hother : ∀ j, j ≠ i → s'.bufs j = s.bufs j :=
    fun j hj => by rw [hb, Function.update_of_ne hj]
  have hsent : ∀ w, sent s' w = sent s w := fun w => by rw [sent, hs, sent]
  refine ⟨hc.absent_update hb hne, fun g hg => hc.source_update hb hw hne (hs ▸ hg),
    fun g hg => hc.part g (hs ▸ hg), fun j => ?_,
    fun w hq => ?_, fun j w n hj hn => ?_⟩
  · have hsentBy : sentBy s' j = sentBy s j := by rw [sentBy, hs, sentBy]
    by_cases hji : j = i
    · obtain ⟨cs, hbuf, hacc⟩ := hkept
      rw [hsentBy, hji, hself, hbuf, hacc, ← List.append_assoc, hc.kept i]
    · rw [hsentBy, hother j hji]
      exact hc.kept j
  · rw [hsent]; exact hquiet w hq
  · rw [hsent]; exact hrunning j w n hj hn

/-- A step of the syncbuf `i` outside `sputn`. -/
theorem Counted.moved (hc : Counted s) (hb : s'.bufs = Function.update s.bufs i b)
    (hr : s'.received = s.received) (hs : s'.segments = s.segments)
    (hw : b.wrapped = (s.bufs i).wrapped) (hl : (s.bufs i).loc.taken = none)
    (hl' : b.loc.taken = none) (hne : b.loc ≠ .absent)
    (hkept : ∃ cs, b.buffer = (s.bufs i).buffer ++ cs ∧ b.accepted = (s.bufs i).accepted ++ cs) :
    Counted s' := by
  have hself : s'.bufs i = b := by rw [hb, Function.update_self]
  have hother : ∀ j, j ≠ i → s'.bufs j = s.bufs j :=
    fun j hj => by rw [hb, Function.update_of_ne hj]
  refine hc.changed hb hs hw hne hkept (fun w hq => ?_) (fun j w n hj hn => ?_)
  · rw [hr]
    exact hc.quiet_before hb (fun _ => hl) hq
  · have hji : j ≠ i := fun he => by
      rw [he, hself, hl'] at hn
      cases hn
    rw [hother j hji] at hj hn ⊢
    rw [hr]
    exact hc.running j w n hj hn

/-- `sputn` is called, and no other one to the streambuf is running. -/
theorem Counted.began (hc : Counted s) (hb : s'.bufs = Function.update s.bufs i b)
    (hr : s'.received = s.received) (hs : s'.segments = s.segments)
    (hw : b.wrapped = (s.bufs i).wrapped) (hl' : b.loc.taken = some 0)
    (hkept : b.buffer = (s.bufs i).buffer ∧ b.accepted = (s.bufs i).accepted)
    (hquiet : ∀ j, (s.bufs j).wrapped = (s.bufs i).wrapped → (s.bufs j).loc.taken = none) :
    Counted s' := by
  have hself : s'.bufs i = b := by rw [hb, Function.update_self]
  have hother : ∀ j, j ≠ i → s'.bufs j = s.bufs j :=
    fun j hj => by rw [hb, Function.update_of_ne hj]
  refine hc.changed hb hs hw (fun he => ?_) ⟨[], by simpa using hkept⟩ (fun w hq => ?_)
    (fun j w n hj hn => ?_)
  · rw [he] at hl'; cases hl'
  · rw [hr]
    exact hc.quiet_before hb (fun _ => hquiet i rfl) hq
  · rw [hr]
    by_cases hji : j = i
    · rw [hji, hself] at hj hn ⊢
      obtain rfl : 0 = n := Option.some.inj (hl'.symm.trans hn)
      rw [List.take_zero, List.append_nil]
      exact ⟨Nat.zero_le _, hc.quiet w fun j' hj' => hquiet j' (hj'.trans (hj.symm.trans hw))⟩
    · rw [hother j hji] at hj hn ⊢
      exact hc.running j w n hj hn

/-- A character goes to the streambuf. -/
theorem Counted.put (hc : Counted s) {w : W} {n : Nat} {ch : C}
    (hb : s'.bufs = Function.update s.bufs i b)
    (hr : s'.received = Function.update s.received w (s.received w ++ [ch]))
    (hs : s'.segments = s.segments) (hwi : (s.bufs i).wrapped = some w)
    (hw : b.wrapped = (s.bufs i).wrapped) (hl : (s.bufs i).loc.taken = some n)
    (hl' : b.loc.taken = some (n + 1))
    (hkept : b.buffer = (s.bufs i).buffer ∧ b.accepted = (s.bufs i).accepted)
    (hch : (s.bufs i).buffer[n]? = some ch)
    (halone : ∀ j, (s.bufs j).wrapped = some w → (s.bufs j).loc.taken ≠ none → j = i) :
    Counted s' := by
  have hself : s'.bufs i = b := by rw [hb, Function.update_self]
  have hother : ∀ j, j ≠ i → s'.bufs j = s.bufs j :=
    fun j hj => by rw [hb, Function.update_of_ne hj]
  obtain ⟨hn, hrec⟩ := hc.running i w n hwi hl
  obtain ⟨hlt, hget⟩ := List.getElem?_eq_some_iff.mp hch
  refine hc.changed hb hs hw (fun he => ?_) ⟨[], by simpa using hkept⟩ (fun w' hq => ?_)
    (fun j w' n' hj hn' => ?_)
  · rw [he] at hl'; cases hl'
  · have hww : w' ≠ w := fun he => by
      have h := hq i
      rw [hself, hl', hw, hwi, he] at h
      cases h rfl
    rw [hr, Function.update_of_ne hww]
    exact hc.quiet_before hb (fun h => absurd (Option.some.inj (h.symm.trans hwi)) hww) hq
  · by_cases hji : j = i
    · rw [hji, hself] at hj hn' ⊢
      obtain rfl : w = w' := Option.some.inj (hwi.symm.trans (hw.symm.trans hj))
      obtain rfl : n + 1 = n' := Option.some.inj (hl'.symm.trans hn')
      rw [hr, Function.update_self, hrec, hkept.1, List.append_assoc, List.take_add_one, hch]
      exact ⟨hlt, rfl⟩
    · rw [hother j hji] at hj hn' ⊢
      have hww : w' ≠ w := fun he => hji (halone j (he ▸ hj) (by rw [hn']; exact nofun))
      rw [hr, Function.update_of_ne hww]
      exact hc.running j w' n' hj hn'

/-- `sputn` returns, and what it has taken is erased from the buffer. -/
theorem Counted.ended (hc : Counted s) {w : W} {n : Nat} (hb : s'.bufs = Function.update s.bufs i b)
    (hr : s'.received = s.received)
    (hs : s'.segments = s.segments ++ [⟨i, w, (s.bufs i).buffer, (s.bufs i).buffer.take n⟩])
    (hwi : (s.bufs i).wrapped = some w) (hw : b.wrapped = (s.bufs i).wrapped)
    (hl : (s.bufs i).loc.taken = some n) (hl' : b.loc.taken = none) (hne : b.loc ≠ .absent)
    (hkept : b.buffer = (s.bufs i).buffer.drop n ∧ b.accepted = (s.bufs i).accepted)
    (halone : ∀ j, (s.bufs j).wrapped = some w → (s.bufs j).loc.taken ≠ none → j = i) :
    Counted s' := by
  have hself : s'.bufs i = b := by rw [hb, Function.update_self]
  have hother : ∀ j, j ≠ i → s'.bufs j = s.bufs j :=
    fun j hj => by rw [hb, Function.update_of_ne hj]
  obtain ⟨hn, hrec⟩ := hc.running i w n hwi hl
  have hsent : sent s' w = sent s w ++ (s.bufs i).buffer.take n := by
    simp [sent, hs]
  have hsent' : ∀ w', w' ≠ w → sent s' w' = sent s w' := by
    intro w' hww
    simp [sent, hs, Ne.symm hww]
  refine ⟨hc.absent_update hb hne, fun g hg => ?_, fun g hg => ?_, fun j => ?_, fun w' hq => ?_,
    fun j w' n' hj hn' => ?_⟩
  · rw [hs] at hg
    rcases List.mem_append.mp hg with hg | hg
    · exact hc.source_update hb hw hne hg
    · rw [List.mem_singleton.mp hg]
      show (s'.bufs i).wrapped = some w ∧ (s'.bufs i).loc ≠ .absent
      rw [hself]
      exact ⟨hw.trans hwi, hne⟩
  · rw [hs] at hg
    rcases List.mem_append.mp hg with hg | hg
    · exact hc.part g hg
    · rw [List.mem_singleton.mp hg]
      exact List.take_prefix _ _
  · by_cases hji : j = i
    · have hsentBy : sentBy s' i = sentBy s i ++ (s.bufs i).buffer.take n := by
        simp [sentBy, hs]
      rw [hji, hsentBy, hself, hkept.1, hkept.2, List.append_assoc, List.take_append_drop,
        hc.kept i]
    · have hsentBy : sentBy s' j = sentBy s j := by
        simp [sentBy, hs, Ne.symm hji]
      rw [hsentBy, hother j hji]
      exact hc.kept j
  · rw [hr]
    by_cases hww : w' = w
    · rw [hww, hrec, hsent]
    · rw [hsent' w' hww]
      exact hc.quiet_before hb (fun h => absurd (Option.some.inj (h.symm.trans hwi)) hww) hq
  · have hji : j ≠ i := fun he => by
      rw [he, hself, hl'] at hn'
      cases hn'
    rw [hother j hji] at hj hn' ⊢
    have hww : w' ≠ w := fun he => hji (halone j (he ▸ hj) (by rw [hn']; exact nofun))
    rw [hr, hsent' w' hww]
    exact hc.running j w' n' hj hn'

/-- A syncbuf is constructed. -/
theorem Counted.constructed (hc : Counted s) (hb : s'.bufs = Function.update s.bufs i b)
    (hr : s'.received = s.received) (hs : s'.segments = s.segments) (hl : (s.bufs i).loc = .absent)
    (hl' : b.loc = .idle) (hkept : b.buffer = [] ∧ b.accepted = []) :
    Counted s' := by
  have hself : s'.bufs i = b := by rw [hb, Function.update_self]
  have hother : ∀ j, j ≠ i → s'.bufs j = s.bufs j :=
    fun j hj => by rw [hb, Function.update_of_ne hj]
  have hsent : ∀ w, sent s' w = sent s w := fun w => by rw [sent, hs, sent]
  have hsentBy : ∀ j, sentBy s' j = sentBy s j := fun j => by rw [sentBy, hs, sentBy]
  refine ⟨fun j hj => ?_, fun g hg => ?_, fun g hg => hc.part g (hs ▸ hg), fun j => ?_,
    fun w hq => ?_, fun j w n hj hn => ?_⟩
  · by_cases hji : j = i
    · rw [hji, hself]; exact hkept.2
    · rw [hother j hji] at hj ⊢
      exact hc.absent j hj
  · obtain ⟨h₁, h₂⟩ := hc.source g (hs ▸ hg)
    have hgi : g.source ≠ i := fun he => h₂ (by rw [he]; exact hl)
    rw [hother _ hgi]
    exact ⟨h₁, h₂⟩
  · rw [hsentBy]
    by_cases hji : j = i
    · have h := hc.kept i
      rw [hc.absent i hl] at h
      rw [hji, hself, hkept.1, hkept.2, (List.append_eq_nil_iff.mp h).1]
      rfl
    · rw [hother j hji]; exact hc.kept j
  · rw [hr, hsent]
    exact hc.quiet_before hb (fun _ => by rw [hl]; rfl) hq
  · have hji : j ≠ i := fun he => by
      rw [he, hself, hl'] at hn
      cases hn
    rw [hother j hji] at hj hn ⊢
    rw [hr, hsent]
    exact hc.running j w n hj hn

end counted

/-! ## Runs -/

structure Inv (s : State ι W C) : Prop where
  guarded : Guarded s
  counted : Counted s

/-- A call that does not hold the mutex when it returns or waits, and hands nothing on. -/
structure Keeps (b b' : Buf W C) : Prop where
  wrapped : b'.wrapped = b.wrapped
  holds : b'.loc.holds = false
  absent : b'.loc ≠ .absent
  kept : ∃ cs, b'.buffer = b.buffer ++ cs ∧ b'.accepted = b.accepted ++ cs

section calls
omit [DecidableEq ι] [DecidableEq W] [Fintype ι]
variable {b : Buf W C}

theorem Loc.taken_none {l : Loc} (h : l.holds = false) : l.taken = none := by
  cases l <;> first | rfl | cases h

theorem Loc.holds_of_taken {l : Loc} (h : l.taken ≠ none) : l.holds = true := by
  cases l <;> first | rfl | exact absurd rfl h

theorem keeps_of_idle (hb : b.loc = .idle) (b' : Buf W C) (hw : b'.wrapped = b.wrapped)
    (hl : b'.loc = b.loc) (cs : List C) (hbuf : b'.buffer = b.buffer ++ cs)
    (hacc : b'.accepted = b.accepted ++ cs) : Keeps b b' := by
  rw [hb] at hl
  exact ⟨hw, by rw [hl]; rfl, by rw [hl]; exact nofun, cs, hbuf, hacc⟩

theorem finish_keeps (c : Caller) (result : Bool) : Keeps b (finish c result b) := by
  cases c <;> exact ⟨rfl, rfl, nofun, [], (List.append_nil _).symm, (List.append_nil _).symm⟩

theorem emit_keeps (c : Caller) : Keeps b (emit c b) := by
  unfold emit
  split
  · exact finish_keeps c false
  · exact ⟨rfl, rfl, nofun, [], (List.append_nil _).symm, (List.append_nil _).symm⟩

theorem sync_keeps (hb : b.loc = .idle) : Keeps b (sync b) := by
  have h₁ : Keeps { b with pendingFlush := true } (emit .sync { b with pendingFlush := true }) :=
    emit_keeps .sync
  unfold sync
  dsimp only
  split
  · exact ⟨h₁.wrapped, h₁.holds, h₁.absent, h₁.kept⟩
  · exact keeps_of_idle hb _ rfl rfl [] (List.append_nil _).symm (List.append_nil _).symm

theorem overflow_keeps (hb : b.loc = .idle) (ch : Option C) (throws : Bool) :
    Keeps b (overflow ch throws b) := by
  unfold overflow
  split
  · exact keeps_of_idle hb _ rfl rfl [] (List.append_nil _).symm (List.append_nil _).symm
  · next ch =>
    split
    · exact keeps_of_idle hb _ rfl rfl [] (List.append_nil _).symm (List.append_nil _).symm
    · exact keeps_of_idle hb _ rfl rfl [ch] rfl rfl

theorem xsputn_keeps (hb : b.loc = .idle) (cs : List C) (throws : Bool) :
    Keeps b (xsputn cs throws b) := by
  unfold xsputn
  split
  · exact keeps_of_idle hb _ rfl rfl [] (List.append_nil _).symm (List.append_nil _).symm
  · exact keeps_of_idle hb _ rfl rfl cs rfl rfl

theorem setEmitOnSync_keeps (hb : b.loc = .idle) (on : Bool) : Keeps b (setEmitOnSync on b) :=
  keeps_of_idle hb _ rfl rfl [] (List.append_nil _).symm (List.append_nil _).symm

theorem erase_spec (c : Caller) (n : Nat) (b : Buf W C) :
    (erase c n b).wrapped = b.wrapped ∧ (erase c n b).loc.holds = true ∧
    (erase c n b).loc.taken = none ∧
      (erase c n b).buffer = b.buffer.drop n ∧ (erase c n b).accepted = b.accepted := by
  unfold erase
  dsimp only
  split <;> exact ⟨rfl, rfl, rfl, rfl, rfl⟩

end calls

section steps
variable {s s' : State ι W C} {i : ι}

omit [Fintype ι] in
theorem Inv.call (hi : Inv s) {f : Buf W C → Buf W C}
    (hf : (s.bufs i).loc = .idle → Keeps (s.bufs i) (f (s.bufs i)))
    (h : call i f s = some s') : Inv s' := by
  unfold Syncbuf.call at h
  split at h
  · next hr =>
    obtain ⟨hl, hst, -⟩ := isReady_iff.mp hr
    have hk := hf hl
    cases h
    refine ⟨hi.guarded.moved rfl rfl hk.wrapped (fun _ => hst) (fun hh => ?_) (fun _ _ _ ho => ho),
      hi.counted.moved rfl rfl rfl hk.wrapped (by rw [hl]; rfl)
        (Loc.taken_none hk.holds) hk.absent hk.kept⟩
    rw [hk.holds] at hh
    cases hh
  · cases h

omit [Fintype ι] in
/-- Nobody else has a `sputn` to the streambuf running. -/
theorem Inv.alone (hi : Inv s) {w : W} (hw : (s.bufs i).wrapped = some w)
    (hl : (s.bufs i).loc.holds = true) :
    ∀ j, (s.bufs j).wrapped = some w → (s.bufs j).loc.taken ≠ none → j = i :=
  fun _ hj hn => hi.guarded.exclusive (hj.trans hw.symm) (Loc.holds_of_taken hn) hl

theorem Inv.advance (hi : Inv s) {choice : Bool} (h : advance i choice s = some s') : Inv s' := by
  have hg := hi.guarded
  have hc := hi.counted
  unfold Syncbuf.advance at h
  dsimp only at h
  split at h
  · next c _ k m hl hm =>
    -- `lock`
    split at h
    · next hfree =>
      cases h
      refine ⟨hg.moved rfl rfl rfl (fun _ => hg.busy i (by rw [hl]; rfl))
        (fun _ => ⟨k, m, hm, Function.update_self _ _ _⟩)
        (fun j m' hj ho => ?_), hc.began rfl rfl rfl rfl rfl ⟨rfl, rfl⟩ (fun j hj => ?_)⟩
      · refine (Function.update_of_ne (fun he => ?_) _ _).trans ho
        rw [he, hfree] at ho
        cases ho
      · by_contra hn
        obtain ⟨k', m', hm', ho⟩ := hg.holds j (Loc.holds_of_taken hn)
        rw [hg.same_mutex hj hm' hm, hfree] at ho
        cases ho
    · cases h
  · next c n w hl hw =>
    have hholds : (s.bufs i).loc.holds = true := by rw [hl]; rfl
    have halone := hi.alone hw hholds
    split at h
    · split at h
      · next ch hch =>
        cases h
        exact ⟨hg.moved rfl rfl rfl (fun _ => hg.busy i (Loc.busy_of_holds hholds))
          (fun _ => hg.holds i hholds) (fun _ _ _ ho => ho),
          hc.put rfl rfl rfl hw rfl (by rw [hl]; rfl) rfl ⟨rfl, rfl⟩ hch halone⟩
      · cases h
    · cases h
      obtain ⟨hew, heh, het, hek⟩ := erase_spec c n (s.bufs i)
      exact ⟨hg.moved rfl rfl hew (fun _ => hg.busy i (Loc.busy_of_holds hholds))
        (fun _ => hg.holds i hholds) (fun _ _ _ ho => ho),
        hc.ended rfl rfl rfl hw hew (by rw [hl]; rfl) het
          (fun he => by rw [he] at heh; cases heh) hek halone⟩
  · next c hl =>
    have hholds : (s.bufs i).loc.holds = true := by rw [hl]; rfl
    cases h
    exact ⟨hg.moved rfl rfl rfl (fun _ => hg.busy i (Loc.busy_of_holds hholds))
      (fun _ => hg.holds i hholds) (fun _ _ _ ho => ho),
      hc.moved rfl rfl rfl rfl (by rw [hl]; rfl) rfl nofun
        ⟨[], (List.append_nil _).symm, (List.append_nil _).symm⟩⟩
  · next c result k m hl hm =>
    -- `~scoped_lock`
    have hholds : (s.bufs i).loc.holds = true := by rw [hl]; rfl
    have hk : Keeps (s.bufs i) (finish c result (s.bufs i)) := finish_keeps c result
    cases h
    refine ⟨hg.moved rfl rfl hk.wrapped (fun _ => hg.busy i (Loc.busy_of_holds hholds))
      (fun hh => ?_) (fun j m' hj ho => ?_),
      hc.moved rfl rfl rfl hk.wrapped (by rw [hl]; rfl) (Loc.taken_none hk.holds) hk.absent hk.kept⟩
    · rw [hk.holds] at hh
      cases hh
    · obtain ⟨k', m'', hm'', ho'⟩ := hg.holds i hholds
      cases hm.symm.trans hm''
      refine (Function.update_of_ne (fun he => hj ?_) _ _).trans ho
      rw [he, ho'] at ho
      exact (Option.some.inj ho).symm
  · next hl =>
    obtain ⟨mutexes, hd, rfl⟩ := Option.map_eq_some_iff.mp h
    exact ⟨hg.released hd rfl, hc.moved rfl rfl rfl rfl (by rw [hl]; rfl) rfl nofun
      ⟨[], (List.append_nil _).symm, (List.append_nil _).symm⟩⟩
  · cases h

theorem Inv.construct (hi : Inv s) {w : Option W} (h : construct i w s = some s') : Inv s' := by
  unfold Syncbuf.construct at h
  split at h
  · next hl =>
    obtain ⟨mutexes, hd, rfl⟩ := Option.map_eq_some_iff.mp h
    exact ⟨hi.guarded.constructed hd rfl, hi.counted.constructed rfl rfl rfl hl rfl ⟨rfl, rfl⟩⟩
  · cases h

theorem Inv.step (hi : Inv s) {a : Act ι W C} (h : Step s a s') : Inv s' := by
  cases a with
  | construct i w => exact hi.construct h
  | overflow i ch throws => exact hi.call (fun hl => overflow_keeps hl ch throws) h
  | xsputn i cs throws => exact hi.call (fun hl => xsputn_keeps hl cs throws) h
  | setEmitOnSync i on => exact hi.call (fun hl => setEmitOnSync_keeps hl on) h
  | sync i => exact hi.call sync_keeps h
  | emit i => exact hi.call (fun _ => emit_keeps .client) h
  | destroy i => exact hi.call (fun _ => emit_keeps .destructor) h
  | advance i choice => exact hi.advance h
  | mutex i =>
    obtain ⟨mutexes, ha, rfl⟩ := Option.map_eq_some_iff.mp h
    have hc := hi.counted
    exact ⟨hi.guarded.advanced ha, ⟨hc.absent, hc.source, hc.part, hc.kept, hc.quiet, hc.running⟩⟩

end steps

/-- The accounts of the characters. An `emit` that has not ended has handed on the first `n`
characters of its buffer. -/
structure Accounted (s : State ι W C) : Prop where
  received : ∀ w,
    ((∀ i, (s.bufs i).wrapped = some w → (s.bufs i).loc.taken = none) ∧ s.received w = sent s w) ∨
    ∃ i n, (s.bufs i).wrapped = some w ∧ (s.bufs i).loc.taken = some n ∧
      n ≤ (s.bufs i).buffer.length ∧
      s.received w = sent s w ++ (s.bufs i).buffer.take n
  segments : ∀ g ∈ s.segments, (s.bufs g.source).wrapped = some g.target ∧ g.chars <+: g.buffer
  accepted : ∀ i, sentBy s i ++ (s.bufs i).buffer = (s.bufs i).accepted

/-- Any number of syncbufs and streambufs, any interleaving: what a streambuf has received is
segment after segment, and the segments of a syncbuf and its buffer are what it has accepted. -/
theorem accounted_along_runs {as : List (Act ι W C)} {s : State ι W C} (h : Run Step initial as s) :
    Accounted s := by
  have hi : Inv s := h.invariant ⟨.initial, .initial⟩ fun _ _ _ hi hs => hi.step hs
  have hc := hi.counted
  refine ⟨fun w => ?_, fun g hg => ⟨(hc.source g hg).1, hc.part g hg⟩, hc.kept⟩
  by_cases hq : ∀ i, (s.bufs i).wrapped = some w → (s.bufs i).loc.taken = none
  · exact .inl ⟨hq, hc.quiet w hq⟩
  · push Not at hq
    obtain ⟨i, hw, hn⟩ := hq
    obtain ⟨n, hn⟩ := Option.ne_none_iff_exists'.mp hn
    exact .inr ⟨i, n, hw, hn, hc.running i w n hw hn⟩

/-- Two characters of three are taken from one syncbuf, and then one from another. -/
theorem accounted_partial_emit :
    ∃ (as : List (Act Bool Unit Nat)) (s : State Bool Unit Nat), Run Step initial as s ∧
    s.received () = [1, 2, 4] ∧ (s.bufs false).buffer = [3] ∧ (s.bufs true).loc.taken = some 1 ∧
    Accounted s := by
  have hgo : ∀ {as : List (Act Bool Unit Nat)} {s}, Run Step initial as s →
    ∀ (a : Act Bool Unit Nat) (s'), step s a = some s' →
      Run Step initial (as ++ [a]) s' := fun h _ _ hs => h.snoc hs
  have h₁ : Run Step (initial : State Bool Unit Nat) [.construct false (some ())] _ :=
    .single (show step _ (.construct false (some ())) = some _ from rfl)
  have h₂ := hgo (hgo (hgo (hgo (hgo h₁ (.mutex false) _ rfl) (.mutex false) _ rfl)
    (.mutex false) _ rfl) (.mutex false) _ rfl)
    (.mutex false) _ rfl
  have h₃ := hgo (hgo h₂ (.xsputn false [1, 2, 3] false) _ rfl) (.emit false) _ rfl
  have h₄ := hgo (hgo (hgo h₃ (.advance false true) _ rfl) (.advance false true) _ rfl)
    (.advance false true) _ rfl
  have h₅ := hgo (hgo h₄ (.advance false false) _ rfl) (.advance false true) _ rfl
  have h₆ := hgo (hgo (hgo (hgo h₅ (.construct true (some ())) _ rfl) (.mutex true) _ rfl)
    (.mutex true) _ rfl) (.mutex true) _ rfl
  have h₇ := hgo (hgo h₆ (.overflow true (some 4) false) _ rfl) (.emit true) _ rfl
  have h₈ := hgo (hgo h₇ (.advance true true) _ rfl) (.advance true true) _ rfl
  exact ⟨_, _, h₈, rfl, rfl, rfl, accounted_along_runs h₈⟩

end Gpcl.Sync.Syncbuf
