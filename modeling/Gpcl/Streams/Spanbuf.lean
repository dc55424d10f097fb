import Mathlib.Logic.Function.Basic
import Gpcl.Lib.Runs

/-! # basic_spanbuf

A spanbuf is a span of characters and the pointers of `std::basic_streambuf` into it: three for the
get area, three for the put area. Pointers are counted in characters, null is 0. The place of the
next character is known only as `pptr() - pbase()`, so everything hangs on `pbase()` being the
beginning of the span. -/
namespace Gpcl.Spanbuf
open Lib.Runs

/-- `std::ios_base::openmode`. -/
inductive Flag
  | app
  | ate
  | binary
  | in_
  | out
  | trunc
deriving DecidableEq

abbrev Openmode := List Flag

inductive Seekdir
  | beg
  | cur
  | end_
deriving DecidableEq

/-- `gpcl::span<CharType>`; what begins at null is empty. -/
structure Span where
  data : Nat
  size : Nat
  null_empty : data = 0 → size = 0

structure State (C : Type) where
  openmode : Openmode
  span : Span
  eback : Nat
  gptr : Nat
  egptr : Nat
  pbase : Nat
  pptr : Nat
  epptr : Nat
  mem : Nat → C

variable {C : Type}

namespace State

def setg (eback gptr egptr : Nat) (s : State C) : State C :=
  { s with eback := eback, gptr := gptr, egptr := egptr }

def setp (pbase epptr : Nat) (s : State C) : State C :=
  { s with pbase := pbase, pptr := pbase, epptr := epptr }

/-- `span(buf)`. -/
def setSpan (buf : Span) (s : State C) : State C :=
  let s := { s with span := buf }
  let begin_ := s.span.data
  let stop := begin_ + s.span.size
  let s := if .in_ ∈ s.openmode then s.setg begin_ begin_ stop else s
  if .out ∈ s.openmode then
    if .ate ∈ s.openmode then s.setp stop stop else s.setp begin_ stop
  else s

/-- `basic_spanbuf(buf, which)`. -/
def construct (mem : Nat → C) (buf : Span) (which : Openmode) : State C :=
  setSpan buf ⟨which, ⟨0, 0, fun _ => rfl⟩, 0, 0, 0, 0, 0, 0, mem⟩

/-- `span()`: where it begins and where it ends. -/
def getSpan (s : State C) : Nat × Nat :=
  if .out ∈ s.openmode then (s.pbase, s.pptr) else (s.span.data, s.span.data + s.span.size)

/-- `sputc`; `overflow` is not overridden and refuses the character. -/
def sputc (c : C) (s : State C) : State C × Bool :=
  if s.pptr < s.epptr
    then ({ s with mem := Function.update s.mem s.pptr c, pptr := s.pptr + 1 }, true)
    else (s, false)

/-- The `switch` of `seekoff`; nothing for an early `return off_type(-1)`. -/
def newoff (off : Int) (dir : Seekdir) (which : Openmode) (s : State C) : Option Int :=
  match dir with
  | .beg => some off
  | .cur =>
    if .in_ ∈ which ∧ .out ∈ which then none
    else if .out ∈ which then some ((s.pptr : Int) - s.pbase + off)
    else if .in_ ∈ which then some ((s.gptr : Int) - s.eback + off)
    else none
  | .end_ =>
    if .out ∈ s.openmode ∧ .in_ ∉ s.openmode then some ((s.pptr : Int) - s.pbase + off)
    else some (off + s.span.size)

def seekoff (off : Int) (dir : Seekdir) (which : Openmode) (s : State C) : Int × State C :=
  if ¬ which ⊆ s.openmode then (-1, s)
  else match newoff off dir which s with
    | none => (-1, s)
    | some newoff =>
      if s.pptr = 0 ∧ s.gptr = 0 ∧ newoff ≠ 0 then (-1, s)
      else if newoff < 0 ∨ newoff.toNat > s.span.size then (-1, s)
      else
        let pbuf := s.span.data
        let s := if .in_ ∈ which then s.setg pbuf (pbuf + newoff.toNat) (pbuf + s.span.size) else s
        let s := if .out ∈ which then s.setp (pbuf + newoff.toNat) (pbuf + s.span.size) else s
        (newoff, s)

def seekpos (pos : Int) (which : Openmode) (s : State C) : Int × State C := seekoff pos .beg which s

/-- Where in the span the next character is written. -/
def index (s : State C) : Int := (s.pptr : Int) - s.span.data

end State

inductive Act (C : Type)
  | write (c : C)
  | seekoff (off : Int) (dir : Seekdir) (which : Openmode)
  | seekpos (pos : Int) (which : Openmode)

/-- A seek on the output side that succeeds. -/
def Seeks (which : Openmode) (r : Int × State C) (s' : State C) : Prop :=
  .out ∈ which ∧ r.1 ≠ -1 ∧ s' = r.2

def Step (s : State C) (a : Act C) (s' : State C) : Prop :=
  match a with
  | .write c => s' = (s.sputc c).1
  | .seekoff off dir which => Seeks which (s.seekoff off dir which) s'
  | .seekpos pos which => Seeks which (s.seekpos pos which) s'

/-- The index that a seek is for, seen from the index of the next character. -/
def target (s : State C) (off : Int) : Seekdir → Int
  | .beg => off
  | .cur => s.index + off
  | .end_ => if .out ∈ s.openmode ∧ .in_ ∉ s.openmode then s.index + off else s.span.size + off

/-- The seek goes to the first character. -/
def ToFront (s : State C) : Act C → Prop
  | .write _ => True
  | .seekoff off dir _ => target s off dir = 0
  | .seekpos pos _ => pos = 0

/-- The position that is told and the one that relative seeks count from is that of the next
character, and `span()` is what comes before it. -/
structure Positioned (s : State C) : Prop where
  tell : (s.seekoff 0 .cur [.out]).1 = s.index
  move : ∀ off, 0 ≤ s.index + off → s.index + off ≤ s.span.size →
    (s.seekoff off .cur [.out]).1 = s.index + off ∧
      (s.seekoff off .cur [.out]).2.index = s.index + off
  span : s.getSpan = (s.span.data, s.span.data + s.index.toNat)

/-- The put area is inside the span and ends with it. -/
structure Inv (s : State C) : Prop where
  out : .out ∈ s.openmode
  data_le : s.span.data ≤ s.pbase
  pbase_le : s.pbase ≤ s.pptr
  pptr_le : s.pptr ≤ s.epptr
  epptr : s.epptr = s.span.data + s.span.size

section
variable {s s' : State C} {off : Int} {dir : Seekdir} {which : Openmode} {c : C} {a : Act C}

theorem Inv.index_eq (hi : Inv s) : s.index = ((s.pptr - s.span.data : Nat) : Int) := by
  have h := Nat.le_trans hi.data_le hi.pbase_le
  unfold State.index
  omega

/-- The put area of a new spanbuf; with `ate` it begins where it ends. -/
theorem construct_spec (mem : Nat → C) (buf : Span) {mode : Openmode} (h : .out ∈ mode) :
    (State.construct mem buf mode).openmode = mode ∧ (State.construct mem buf mode).span = buf ∧
      (State.construct mem buf mode).pbase =
        (if .ate ∈ mode then buf.data + buf.size else buf.data) ∧
      (State.construct mem buf mode).pptr = (State.construct mem buf mode).pbase ∧
      (State.construct mem buf mode).epptr = buf.data + buf.size := by
  unfold State.construct State.setSpan
  by_cases hin : .in_ ∈ mode <;> by_cases hate : .ate ∈
    mode <;> simp [h, hin, hate, State.setp, State.setg]

theorem Inv.construct (mem : Nat → C) (buf : Span) {mode : Openmode} (h : .out ∈ mode) :
    Inv (.construct mem buf mode) := by
  obtain ⟨hmode, hspan, hpbase, hpptr, hepptr⟩ := construct_spec mem buf h
  have hle : buf.data ≤ (State.construct mem buf mode).pbase ∧
      (State.construct mem buf mode).pbase ≤ buf.data + buf.size := by
    rw [hpbase]
    split <;> omega
  refine ⟨hmode.symm ▸ h, ?_, Nat.le_of_eq hpptr.symm, ?_, ?_⟩
  · rw [hspan]
    exact hle.1
  · rw [hpptr, hepptr]
    exact hle.2
  · rw [hepptr, hspan]

theorem construct_pbase (mem : Nat → C) (buf : Span) {mode : Openmode} (h : .out ∈ mode) :
    (State.construct mem buf mode).pbase = (State.construct mem buf mode).span.data ↔
    (.ate ∈ mode → buf.size = 0) := by
  obtain ⟨_, hspan, hpbase, _⟩ := construct_spec mem buf h
  rw [hpbase, hspan]
  by_cases hate : .ate ∈ mode
  · rw [if_pos hate]
    simp [hate]
  · rw [if_neg hate]
    simp [hate]

/-- A seek that is possible. -/
theorem seekoff_eq {k : Nat} (hsub : which ⊆ s.openmode)
    (hn : State.newoff off dir which s = some (k : Int))
    (hnull : ¬ (s.pptr = 0 ∧ s.gptr = 0 ∧ (k : Int) ≠ 0)) (hk : k ≤ s.span.size)
    (hout : .out ∈ which) :
    (s.seekoff off dir which).1 = k ∧ (s.seekoff off dir which).2.openmode = s.openmode ∧
      (s.seekoff off dir which).2.span = s.span ∧
      (s.seekoff off dir which).2.pbase = s.span.data + k ∧
      (s.seekoff off dir which).2.pptr = s.span.data + k ∧
      (s.seekoff off dir which).2.epptr = s.span.data + s.span.size := by
  unfold State.seekoff
  rw [if_neg (not_not.mpr hsub), hn]
  dsimp only
  rw [if_neg hnull, if_neg (by omega)]
  rw [if_pos hout]
  by_cases hin : .in_ ∈ which
  · rw [if_pos hin]
    exact ⟨rfl, rfl, rfl, rfl, rfl, rfl⟩
  · rw [if_neg hin]
    exact ⟨rfl, rfl, rfl, rfl, rfl, rfl⟩

/-- What a successful seek on the output side does to the put area. -/
theorem Seeks.spec (h : Seeks which (s.seekoff off dir which) s') :
    ∃ k : Nat, State.newoff off dir which s = some (k : Int) ∧ k ≤ s.span.size ∧
    s'.openmode = s.openmode ∧ s'.span = s.span ∧
      s'.pbase = s.span.data + k ∧ s'.pptr = s.span.data + k ∧
      s'.epptr = s.span.data + s.span.size := by
  obtain ⟨hout, hok, rfl⟩ := h
  have hfail : ∀ r : Int × State C, s.seekoff off dir which = r → r.1 ≠ -1 := fun r hr => hr ▸ hok
  by_cases hsub : which ⊆ s.openmode
  · cases hn : State.newoff off dir which s with
    | none =>
      refine absurd rfl (hfail (-1, s) ?_)
      rw [State.seekoff, if_neg (not_not.mpr hsub), hn]
    | some z =>
      by_cases hnull : s.pptr = 0 ∧ s.gptr = 0 ∧ z ≠ 0
      · refine absurd rfl (hfail (-1, s) ?_)
        rw [State.seekoff, if_neg (not_not.mpr hsub), hn]
        exact if_pos hnull
      · by_cases hrange : z < 0 ∨ z.toNat > s.span.size
        · refine absurd rfl (hfail (-1, s) ?_)
          rw [State.seekoff, if_neg (not_not.mpr hsub), hn]
          exact (if_neg hnull).trans (if_pos hrange)
        · obtain ⟨k, rfl⟩ := Int.eq_ofNat_of_zero_le (show 0 ≤ z by omega)
          have hk : k ≤ s.span.size := by omega
          obtain ⟨_, h⟩ := seekoff_eq hsub hn hnull hk hout
          exact ⟨k, rfl, hk, h⟩
  · refine absurd rfl (hfail (-1, s) ?_)
    rw [State.seekoff, if_pos hsub]

/-- Where the put area begins with the span, a seek goes to its target. -/
theorem Seeks.target_eq (h : Seeks which (s.seekoff off dir which) s')
    (hbase : s.pbase = s.span.data) :
    s'.pbase = s.span.data + (target s off dir).toNat ∧ 0 ≤ target s off dir := by
  obtain ⟨k, hn, _, _, _, hpbase, _⟩ := h.spec
  have htarget : target s off dir = k := by
    cases dir with
    | beg => exact Option.some.inj hn
    | cur =>
      simp only [State.newoff] at hn
      split at hn
      · cases hn
      · rw [if_pos h.1, Option.some.injEq, hbase] at hn
        exact hn
    | end_ =>
      simp only [State.newoff, target] at hn ⊢
      split at hn
      · next ho =>
        rw [if_pos ho]
        rw [Option.some.injEq, hbase] at hn
        exact hn
      · next ho =>
        rw [if_neg ho, Int.add_comm]
        exact Option.some.inj hn
  rw [htarget]
  exact ⟨hpbase, Int.natCast_nonneg k⟩

theorem Inv.seek (hi : Inv s) (h : Seeks which (s.seekoff off dir which) s') : Inv s' := by
  obtain ⟨k, _, hk, hmode, hspan, hpbase, hpptr, hepptr⟩ := h.spec
  refine ⟨hmode ▸ hi.out, ?_, ?_, ?_, ?_⟩
  · rw [hspan, hpbase]
    exact Nat.le_add_right _ _
  · exact Nat.le_of_eq (hpbase.trans hpptr.symm)
  · rw [hpptr, hepptr]
    exact Nat.add_le_add_left hk _
  · rw [hepptr, hspan]

theorem Inv.sputc (hi : Inv s) (c : C) :
    Inv (s.sputc c).1 ∧ (s.sputc c).1.pbase = s.pbase ∧ (s.sputc c).1.span = s.span := by
  unfold State.sputc
  split
  · next hroom =>
      exact ⟨⟨hi.out, hi.data_le, Nat.le_succ_of_le hi.pbase_le, hroom, hi.epptr⟩, rfl, rfl⟩
  · exact ⟨hi, rfl, rfl⟩

/-- All positions are right where the put area begins with the span. -/
theorem Inv.positioned (hi : Inv s) (hbase : s.pbase = s.span.data) : Positioned s := by
  have hindex := hi.index_eq
  have hpptr := hi.pptr_le
  have hepptr := hi.epptr
  have hsub : [Flag.out] ⊆ s.openmode := by
    intro f hf
    rw [List.mem_singleton.mp hf]
    exact hi.out
  have hnew : ∀ off, State.newoff off .cur [.out] s = some (s.index + off) := by
    intro off
    simp only [State.newoff, State.index]
    rw [hbase]
    rfl
  -- a span at null has no other place to go to
  have hseek : ∀ off, 0 ≤ s.index + off → s.index + off ≤ s.span.size →
      (s.seekoff off .cur [.out]).1 = s.index + off ∧
        (s.seekoff off .cur [.out]).2.index = s.index + off := by
    intro off h0 hle
    obtain ⟨k, hk⟩ := Int.eq_ofNat_of_zero_le h0
    have hnull : ¬ (s.pptr = 0 ∧ s.gptr = 0 ∧ (k : Int) ≠ 0) := by
      rintro ⟨hp, _, hk0⟩
      have hzero := s.span.null_empty (by have := hi.pbase_le; omega)
      omega
    obtain ⟨hr, _, hspan, _, hp, _⟩ :=
      seekoff_eq hsub (hk ▸ hnew off) hnull (by omega) (List.mem_singleton_self _)
    refine ⟨hr.trans hk.symm, ?_⟩
    rw [State.index, hp, hspan, hk]
    omega
  refine ⟨?_, hseek, ?_⟩
  · have h := (hseek 0 (by omega) (by omega)).1
    rw [Int.add_zero] at h
    exact h
  · rw [State.getSpan, if_pos hi.out, hbase, hindex]
    have := hi.pbase_le
    refine Prod.ext rfl ?_
    dsimp only
    omega

/-- Elsewhere `span()` begins at another character. -/
theorem Positioned.pbase_eq (h : Positioned s) (hi : Inv s) : s.pbase = s.span.data := by
  have hspan := h.span
  rw [State.getSpan, if_pos hi.out] at hspan
  exact (Prod.mk.inj hspan).1

theorem Inv.step (hi : Inv s) (h : Step s a s') : Inv s' := by
  cases a with
  | write c =>
    obtain rfl : s' = (s.sputc c).1 := h
    exact (hi.sputc c).1
  | seekoff off dir which => exact hi.seek h
  | seekpos pos which => exact hi.seek (show Seeks which (s.seekoff pos .beg which) s' from h)

/-- A step keeps the beginning of the put area where it is exactly when it does not seek to another
character. -/
theorem Inv.step_base (hi : Inv s) (hbase : s.pbase = s.span.data) (h : Step s a s') :
    s'.pbase = s'.span.data ↔ ToFront s a := by
  have hseek : ∀ {off dir which}, Seeks which (s.seekoff off dir which) s' →
      (s'.pbase = s'.span.data ↔ target s off dir = 0) := by
    intro off dir which hs
    obtain ⟨hpbase, hnn⟩ := hs.target_eq hbase
    obtain ⟨_, _, _, _, hspan, _⟩ := hs.spec
    rw [hpbase, hspan]
    omega
  cases a with
  | write c =>
    obtain rfl : s' = (s.sputc c).1 := h
    obtain ⟨_, hp, hs⟩ := hi.sputc c
    rw [hp, hs]
    exact iff_of_true hbase trivial
  | seekoff off dir which => exact hseek h
  | seekpos pos which => exact hseek (show Seeks which (s.seekoff pos .beg which) s' from h)

end

/-! ## Along runs -/

theorem step_deterministic : Deterministic (Step (C := C)) := by
  intro s a t u h h'
  cases a with
  | write c => exact Eq.trans h (Eq.symm h')
  | seekoff off dir which => exact h.2.2.trans h'.2.2.symm
  | seekpos pos which => exact h.2.2.trans h'.2.2.symm

/-- The positions are right all along a run exactly when the buffer is not opened at the end of a
span that is not empty, and every seek goes to the first character. -/
theorem positioned_iff {mem : Nat → C} {buf : Span} {mode : Openmode} (hout : .out ∈ mode)
    {as : List (Act C)} {s : State C} (h : Run Step (.construct mem buf mode) as s) :
    (∀ bs cs u, as = bs ++ cs → Run Step (.construct mem buf mode) bs u → Positioned u) ↔
      (.ate ∈ mode → buf.size = 0) ∧
        ∀ bs a cs u, as = bs ++ a :: cs → Run Step (.construct mem buf mode) bs u →
        ToFront u a := by
  have hstart := construct_pbase mem buf hout
  by_cases hate : .ate ∈ mode → buf.size = 0
  · rw [and_iff_right hate]
    refine h.always_iff (J := fun s => Inv s ∧ s.pbase = s.span.data) step_deterministic
      ⟨.construct mem buf hout, hstart.mpr hate⟩ (fun t ht => ht.1.positioned ht.2) ?_ ?_
    · intro t a u ht hs hfront
      exact ⟨ht.1.step hs, (ht.1.step_base ht.2 hs).mpr hfront⟩
    · intro t a u ht hs hno hpos
      exact hno ((ht.1.step_base ht.2 hs).mp (hpos.pbase_eq (ht.1.step hs)))
  · refine iff_of_false (fun hall => hate (hstart.mp ?_)) fun hand => hate hand.1
    exact (hall [] as _ rfl .nil).pbase_eq (.construct mem buf hout)

theorem step_write (s : State C) (c : C) : Step s (.write c) (s.sputc c).1 := rfl

theorem step_seekoff {s : State C} (off : Int) (dir : Seekdir) {which : Openmode}
    (hout : .out ∈ which) (h : (s.seekoff off dir which).1 ≠ -1) :
    Step s (.seekoff off dir which) (s.seekoff off dir which).2 := ⟨hout, h, rfl⟩

/-- Four characters. -/
def fourAt : Span := ⟨100, 4, nofun⟩

/-- A character is written, and another one over it. -/
theorem positioned_overwritten : ∃ s : State Nat, Run Step (.construct (fun _ => 0) fourAt [.out])
    [.write 1, .seekoff 0 .beg [.out], .write 2] s ∧ s.mem 100 = 2 ∧ Positioned s := by
  have h₁ : Run Step (.construct (fun _ => 0) fourAt [.out]) [.write 1] _ :=
    .single (step_write _ 1)
  have h₂ := h₁.snoc (step_seekoff 0 .beg (List.mem_singleton_self Flag.out) (by decide))
  have h₃ := h₂.snoc (step_write _ 2)
  refine ⟨_, h₃, rfl,
    (positioned_iff (List.mem_singleton_self _) h₃).mpr ⟨by decide, ?_⟩ _ [] _ rfl h₃⟩
  refine h₂.steps_snoc step_deterministic (h₁.steps_snoc step_deterministic ?_ rfl) trivial
  exact Run.steps_snoc step_deterministic .nil steps_nil trivial

/-- Two characters are written and the position is asked for twice: it is 2 and then 0. -/
theorem told_twice :
    ∃ s : State Nat,
    Run Step (.construct (fun _ => 0) fourAt [.out])
      [.write 1, .write 2, .seekoff 0 .cur [.out]] s ∧
    s.index = 2 ∧ (s.seekoff 0 .cur [.out]).1 = 0 ∧ s.getSpan = (102, 102) ∧ ¬ Positioned s := by
  have h₁ : Run Step (.construct (fun _ => 0) fourAt [.out]) [.write 1] _ :=
    .single (step_write _ 1)
  have h₂ := h₁.snoc (step_write _ 2)
  have h₃ := h₂.snoc (step_seekoff 0 .cur (List.mem_singleton_self Flag.out) (by decide))
  refine ⟨_, h₃, rfl, rfl, rfl, fun h => ?_⟩
  exact absurd (Prod.mk.inj h.span).1 (by decide)

end Gpcl.Spanbuf
