import Gpcl.Buffers.FlatBuffer

/-! # prepare that throws

`callPrepare` is `prepare` assignment by assignment, so that the buffer an exception leaves behind
is there to look at; the allocator may throw as well. The guard adds in 64 bits: a sum that wraps
around to a small one passes it, and the block that is then allocated has that small size. -/
namespace Gpcl.FlatBuffer
open Lib.Memory Lib.Runs

/-- The result of `prepare`, and the buffer after it also when it throws. `newbuf` is what the
allocator returns if it is called, or nothing if it throws. -/
def callPrepare (n : Nat) (newbuf : Option Nat) (s : State) : Except Failure Region × State :=
  match size s with
  | .error e => (.error e, s)
  | .ok isize =>
    if (isize + n) % addressSpace > maxSize then (.error .lengthError, s)
    else if s.end_ - s.output < n then
      if n ≤ s.end_ - s.output + (s.input - s.start) then
        let s := { s with mem := copyBytes s.mem s.start s.input isize }
        let s := { s with input := s.start }
        let s := { s with output := s.input + isize }
        (.ok ⟨s.output, n⟩, s)
      else match newbuf with
        | none => (.error .badAlloc, s)
        | some block =>
          let s := { s with
            mem := if isize ≠ 0 then copyBytes s.mem block s.input isize else s.mem }
          let s := { s with
            held := ⟨block, (isize + n) % addressSpace⟩ ::
              s.held.erase ⟨s.start, s.end_ - s.start⟩ }
          let s := { s with start := block }
          let s := { s with input := s.start }
          let s := { s with output := s.input + isize }
          let s := { s with end_ := s.start + (isize + n) % addressSpace }
          (.ok ⟨s.output, n⟩, s)
    else (.ok ⟨s.output, n⟩, s)

inductive Call
  | prepare (n : Nat) (newbuf : Option Nat)
  | other (a : Act)

/-- Any number of 64 bits, and what an allocator may return. -/
def Callable (w : World) : Call → Prop
  | .prepare n newbuf => n < addressSpace ∧ ∀ block, newbuf = some block → Reallocates w.buffer n →
      Fresh w.buffer ⟨block, (w.buffer.output - w.buffer.input + n) % addressSpace⟩
  | .other a => Legal w a

/-- The world after a call; an exception leaves the region of the last `prepare` as it is. -/
def callExec (w : World) : Call → Except Failure World
  | .prepare n newbuf =>
    match callPrepare n newbuf w.buffer with
    | (.ok r, s) => .ok { w with buffer := s, region := r, committed := 0 }
    | (.error _, s) => .ok { w with buffer := s }
  | .other a => exec w a

def CallStep (w : World) (c : Call) (w' : World) : Prop := Callable w c ∧ callExec w c = .ok w'

/-- The sum of 64 bits that the guard looks at has wrapped around and is small. -/
def SlipsThrough (w : World) : Call → Prop
  | .prepare n _ => addressSpace ≤ w.buffer.output - w.buffer.input + n ∧
      (w.buffer.output - w.buffer.input + n) % addressSpace ≤ maxSize
  | .other _ => False

/-- `prepare` throws `length_error` exactly when the sum is too large, changes nothing when it
throws, and returns a region inside the block. -/
structure PreparesExactly (s : State) (n : Nat) (newbuf : Option Nat) : Prop where
  throws : (callPrepare n newbuf s).1 = .error .lengthError ↔ maxSize < s.output - s.input + n
  unchanged : ∀ e, (callPrepare n newbuf s).1 = .error e → (callPrepare n newbuf s).2 = s
  inside : ∀ r, (callPrepare n newbuf s).1 = .ok r → r.size = n ∧
    (callPrepare n newbuf s).2.start ≤ r.base ∧
    r.stop ≤ (callPrepare n newbuf s).2.end_ ∧ Writable (callPrepare n newbuf s).2 r

def Exactly (w : World) : Call → Prop
  | .prepare n newbuf => PreparesExactly w.buffer n newbuf
  | .other _ => True

section
variable {w w' : World} {s : State} {n isize block : Nat} {newbuf : Option Nat} {c : Call}

theorem callPrepare_throws (hs : size s = .ok isize) (h : (isize + n) % addressSpace > maxSize) :
    callPrepare n newbuf s = (.error .lengthError, s) := by
  unfold callPrepare
  rw [hs]
  exact if_pos h

/-- Past the guard the allocator throws, or the call is `prepare`. -/
theorem callPrepare_passes (newbuf : Option Nat) (hs : size s = .ok isize)
    (h : ¬ (isize + n) % addressSpace > maxSize) :
    (callPrepare n newbuf s = (.error .badAlloc, s)) ∨
      ∃ s' r, prepare n (newbuf.getD 0) s = .ok (s', r) ∧ callPrepare n newbuf s = (.ok r, s') ∧
        (Reallocates s n → newbuf ≠ none) := by
  unfold callPrepare prepare
  rw [hs]
  simp only [bind, Except.bind, if_neg h]
  split
  · next hlt =>
    split
    · next hroom => exact .inr ⟨_, _, rfl, rfl, fun hr => absurd hroom (Nat.not_le.mpr hr.2)⟩
    · next hroom =>
      cases newbuf with
      | none => exact .inl rfl
      | some block => exact .inr ⟨_, _, rfl, rfl, fun _ => nofun⟩
  · next hroom => exact .inr ⟨_, _, rfl, rfl, fun hr => absurd hr.1 hroom⟩

/-- The region that a legal call returns is inside the block. -/
theorem Prepared.inside {s' : State} {r : Region} (h : Prepared s s' r n) :
    r.size = n ∧ s'.start ≤ r.base ∧ r.stop ≤ s'.end_ ∧ Writable s' r := by
  have hroom := h.room
  have hstart := h.start_le
  have hinput := h.input_le
  refine ⟨h.size, ?_, ?_, h.writable⟩
  · rw [h.base]
    omega
  · rw [Region.stop, h.base, h.size]
    exact hroom

/-- A call whose sum does not slip through throws, or has the effect of a legal `prepare`. -/
theorem Inv.call_spec (hi : Inv w) (hc : Callable w (.prepare n newbuf))
    (hno : ¬ SlipsThrough w (.prepare n newbuf)) :
    (∃ e, callPrepare n newbuf w.buffer = (.error e, w.buffer) ∧
      (e = .lengthError ↔ maxSize < w.buffer.output - w.buffer.input + n)) ∨
      (w.buffer.output - w.buffer.input + n ≤ maxSize ∧
        ∃ s' r, callPrepare n newbuf w.buffer = (.ok r, s') ∧ Prepared w.buffer s' r n) := by
  obtain ⟨hn, hfresh⟩ := hc
  have hsize := hi.size_eq
  by_cases hguard : (w.buffer.output - w.buffer.input + n) % addressSpace > maxSize
  · refine .inl ⟨.lengthError, callPrepare_throws hsize hguard, iff_of_true rfl ?_⟩
    exact Nat.lt_of_lt_of_le hguard (Nat.mod_le _ _)
  · have hlt : w.buffer.output - w.buffer.input + n < addressSpace := by
      by_contra hge
      exact hno ⟨Nat.not_lt.mp hge, Nat.not_lt.mp hguard⟩
    have hmod := Nat.mod_eq_of_lt hlt
    rw [hmod] at hfresh
    have hmax : w.buffer.output - w.buffer.input + n ≤ maxSize := by
      rw [hmod] at hguard
      exact Nat.not_lt.mp hguard
    rcases callPrepare_passes newbuf hsize hguard with hbad | ⟨s', r, hp, hcall, hblock⟩
    · exact .inl ⟨.badAlloc, hbad, iff_of_false nofun (Nat.not_lt.mpr hmax)⟩
    · have hlegal : Legal w (.prepare n (newbuf.getD 0)) := by
        refine ⟨hmax, fun hr => ?_⟩
        obtain ⟨block, hb⟩ := Option.ne_none_iff_exists'.mp (hblock hr)
        rw [hb]
        exact hfresh block hb hr
      obtain ⟨s'', r', hp', hprep⟩ := hi.prepare_spec hlegal
      rw [hp] at hp'
      obtain ⟨rfl, rfl⟩ := Prod.mk.inj (Except.ok.inj hp')
      exact .inr ⟨hmax, _, _, hcall, hprep⟩

/-- Where no sum slips through, a call is exact and keeps the invariant. -/
theorem Inv.callStep (hi : Inv w) (h : CallStep w c w') (hno : ¬ SlipsThrough w c) :
    Inv w' ∧ Exactly w c := by
  obtain ⟨hc, he⟩ := h
  cases c with
  | other a => exact ⟨hi.step ⟨hc, he⟩, trivial⟩
  | prepare n newbuf =>
    rcases hi.call_spec hc hno with ⟨e, hcall, hiff⟩ | ⟨hmax, s', r, hcall, hprep⟩
    · simp only [callExec, hcall, Except.ok.injEq] at he
      subst he
      refine ⟨hi, ⟨?_, ?_, ?_⟩⟩
      · rw [hcall, Except.error.injEq]
        exact hiff
      · rw [hcall]
        exact fun _ _ => rfl
      · rw [hcall]
        nofun
    · simp only [callExec, hcall, Except.ok.injEq] at he
      subst he
      refine ⟨hi.prepared hprep, ⟨?_, ?_, ?_⟩⟩
      · rw [hcall]
        exact iff_of_false nofun (Nat.not_lt.mpr hmax)
      · rw [hcall]
        nofun
      · rw [hcall]
        rintro _ ⟨⟩
        exact hprep.inside

/-- A sum that slips through is not reported. -/
theorem Inv.not_exactly (hi : Inv w) (h : SlipsThrough w c) : ¬ Exactly w c := by
  cases c with
  | other a => exact h.elim
  | prepare n newbuf =>
    intro hx
    have hover : maxSize < w.buffer.output - w.buffer.input + n :=
      Nat.lt_of_lt_of_le (by decide) h.1
    have hthrow := hx.throws.mpr hover
    rcases callPrepare_passes newbuf hi.size_eq (Nat.not_lt.mpr h.2) with hbad | ⟨_, _, _, hcall, _⟩
    · rw [hbad] at hthrow
      cases hthrow
    · rw [hcall] at hthrow
      cases hthrow

end

/-! ## Along runs -/

theorem callStep_deterministic : Deterministic CallStep :=
  fun _ _ _ _ h h' => Except.ok.inj (h.2.symm.trans h'.2)

/-- Every `prepare` of a run is exact precisely when the guard of none of them is passed by a sum
that has wrapped around. -/
theorem prepare_exact_iff {m : Mem} {as : List Call} {w : World}
    (h : Run CallStep (.empty m) as w) :
    (∀ bs c cs u v, as = bs ++ c :: cs → Run CallStep (.empty m) bs u → CallStep u c v →
      Exactly u c) ↔
      ∀ bs c cs u, as = bs ++ c :: cs → Run CallStep (.empty m) bs u → ¬ SlipsThrough u c :=
  h.each_iff callStep_deterministic (Inv.empty m) (fun _ _ _ hi hs hno => hi.callStep hs hno)
    fun _ _ _ hi _ hx hslip => hi.not_exactly hslip hx

/-- Two bytes of a block of two. -/
structure TwoBytes (w : World) : Prop where
  held : w.buffer.held = [⟨4096, 2⟩]
  start : w.buffer.start = 4096
  end_ : w.buffer.end_ = 4098
  input : w.buffer.input = 4096
  output : w.buffer.output = 4098

theorem TwoBytes.size_eq {w : World} (h : TwoBytes w) : size w.buffer = .ok 2 := by
  rw [size, h.input, h.output]
  rfl

theorem run_two_bytes :
    ∃ w, Run CallStep (.empty fun _ => 0) [.prepare 2 (some 4096), .other (.commit 2)] w ∧
    TwoBytes w ∧
    ∀ bs c cs u, [.prepare 2 (some 4096), .other (.commit 2)] = bs ++ c :: cs →
      Run CallStep (.empty fun _ => 0) bs u → ¬ SlipsThrough u c := by
  have h₁ : Run CallStep (.empty fun _ => 0) [.prepare 2 (some 4096)] _ :=
    .single ⟨⟨by decide, fun b hb _ => by obtain rfl := Option.some.inj hb; decide⟩, rfl⟩
  have h₂ := h₁.snoc (a := .other (.commit 2)) ⟨by unfold Callable; decide, rfl⟩
  refine ⟨_, h₂, ⟨rfl, rfl, rfl, rfl, rfl⟩, h₁.steps_snoc callStep_deterministic ?_ not_false⟩
  exact Run.steps_snoc callStep_deterministic .nil steps_nil fun hslip => absurd hslip.1 (by decide)

/-- Half of the address space is refused. -/
theorem prepare_exact_refused :
    ∃ w v, Run CallStep (.empty fun _ => 0) [.prepare 2 (some 4096), .other (.commit 2)] w ∧
    CallStep w (.prepare (2 ^ 63) none) v ∧ Exactly w (.prepare (2 ^ 63) none) := by
  obtain ⟨w, h, htwo, hno⟩ := run_two_bytes
  have hs : CallStep w (.prepare (2 ^ 63) none) w := by
    refine ⟨⟨by decide, nofun⟩, ?_⟩
    rw [callExec, callPrepare_throws htwo.size_eq (by decide)]
  have hlast : ¬ SlipsThrough w (.prepare (2 ^ 63) none) := by
    rintro ⟨hwrap, _⟩
    rw [htwo.input, htwo.output] at hwrap
    exact absurd hwrap (by decide)
  exact ⟨w, w, h, hs,
    (prepare_exact_iff (h.snoc hs)).mpr (h.steps_snoc callStep_deterministic hno hlast) _ _
      [] _ _ rfl h hs⟩

/-- With two bytes in the buffer, a region of 2^64 - 1 bytes is returned, behind a block of one
byte. -/
theorem prepare_slips_through :
    ∃ w, Run CallStep (.empty fun _ => 0) [.prepare 2 (some 4096), .other (.commit 2)] w ∧
    Callable w (.prepare (2 ^ 64 - 1) (some 8192)) ∧
    ¬ Exactly w (.prepare (2 ^ 64 - 1) (some 8192)) ∧
    ∃ s, callPrepare (2 ^ 64 - 1) (some 8192) w.buffer = (.ok ⟨8194, 2 ^ 64 - 1⟩, s) ∧
    s.start = 8192 ∧ s.end_ = 8193 := by
  obtain ⟨w, h, htwo, _⟩ := run_two_bytes
  have hcall : ∃ s, callPrepare (2 ^ 64 - 1) (some 8192) w.buffer = (.ok ⟨8194, 2 ^ 64 - 1⟩, s) ∧
      s.start = 8192 ∧ s.end_ = 8193 := by
    unfold callPrepare
    simp only [htwo.size_eq, htwo.start, htwo.end_, htwo.input, htwo.output]
    rw [if_neg (by decide), if_pos (by decide), if_neg (by decide)]
    exact ⟨_, rfl, rfl, rfl⟩
  refine ⟨w, h, ⟨by decide, ?_⟩, fun hx => ?_, hcall⟩
  · rintro b ⟨⟩ _
    rw [htwo.input, htwo.output]
    refine ⟨by decide, by decide, ?_⟩
    rw [htwo.held]
    decide
  · obtain ⟨s, hs, _⟩ := hcall
    have hthrow := hx.throws.mpr (by rw [htwo.input, htwo.output]; decide)
    rw [hs] at hthrow
    cases hthrow

end Gpcl.FlatBuffer
