import Gpcl.Lib.Memory
import Gpcl.Lib.Runs

/-! # basic_flat_buffer

Four pointers into one block of the allocator: the bytes from `input_` to `output_` are a queue,
those from `output_` to `end_` are room. A client writes into the region that `prepare` has returned
last, also into the part of it that it has committed since. The queue keeps all bytes that were ever
committed and how many of them have been consumed. -/
namespace Gpcl.FlatBuffer
open Lib.Memory Lib.Runs

inductive Failure
  | assertion
  | lengthError
  | badAlloc
deriving DecidableEq

structure State where
  mem : Mem
  -- the blocks the allocator has given and not got back
  held : List Region
  start : Nat
  end_ : Nat
  input : Nat
  output : Nat

def State.empty (m : Mem) : State := ⟨m, [], 0, 0, 0, 0⟩

/-! ## The operations -/

def size (s : State) : Except Failure Nat :=
  if s.input ≤ s.output then .ok (s.output - s.input) else .error .assertion

/-- `INT_MAX`. -/
def maxSize : Nat := 2 ^ 31 - 1

def data (s : State) : Except Failure Region := do
  return ⟨s.input, ← size s⟩

/-- `newbuf` is what the allocator returns if it is called; the size it is called with wraps around,
as does the end of the block. -/
def prepare (n newbuf : Nat) (s : State) : Except Failure (State × Region) := do
  let isize ← size s
  if (isize + n) % addressSpace > maxSize then throw .lengthError
  let s : State :=
    if s.end_ - s.output < n then
      if n ≤ s.end_ - s.output + (s.input - s.start) then
        { s with
          mem := copyBytes s.mem s.start s.input isize, input := s.start, output :=
            s.start + isize }
      else
        { mem := if isize ≠ 0 then copyBytes s.mem newbuf s.input isize else s.mem
          held := ⟨newbuf, (isize + n) % addressSpace⟩ :: s.held.erase ⟨s.start, s.end_ - s.start⟩
          start := newbuf, end_ := newbuf + (isize + n) % addressSpace, input := newbuf,
            output := newbuf + isize }
    else s
  return (s, ⟨s.output, n⟩)

def commit (n : Nat) (s : State) : State :=
  { s with output := if s.output + n > s.end_ then s.end_ else s.output + n }

def consume (n : Nat) (s : State) : State :=
  { s with input := if s.input + n > s.output then s.output else s.input + n }

/-! ## The queue -/

structure Queue where
  stream : List UInt8
  consumed : Nat

namespace Queue

def contents (q : Queue) : List UInt8 := q.stream.drop q.consumed

def push (bs : List UInt8) (q : Queue) : Queue := { q with stream := q.stream ++ bs }

def consume (n : Nat) (q : Queue) : Queue :=
  { q with consumed := q.consumed + min n q.contents.length }

/-- A byte that was committed gets another value, the `i`-th of the last `n`. -/
def rewrite (n i : Nat) (v : UInt8) (q : Queue) : Queue :=
  { q with stream := q.stream.set (q.stream.length - n + i) v }

end Queue

structure World where
  buffer : State
  region : Region
  -- how much of the region has been committed
  committed : Nat
  queue : Queue

def World.empty (m : Mem) : World := ⟨.empty m, ⟨0, 0⟩, 0, ⟨[], 0⟩⟩

inductive Act
  | prepare (n newbuf : Nat)
  | write (i : Nat) (v : UInt8)
  | commit (n : Nat)
  | consume (n : Nat)

def exec (w : World) : Act → Except Failure World
  | .prepare n newbuf => do
    let (s, r) ← prepare n newbuf w.buffer
    return { w with buffer := s, region := r, committed := 0 }
  | .write i v => .ok { w with
      buffer := { w.buffer with mem := Function.update w.buffer.mem (w.region.base + i) v }
      queue := if i < w.committed then w.queue.rewrite w.committed i v else w.queue }
  | .commit n => .ok { w with
      buffer := commit n w.buffer
      committed := w.committed + n
      queue := w.queue.push (bytes w.buffer.mem ⟨w.region.base + w.committed, n⟩) }
  | .consume n => .ok { w with buffer := consume n w.buffer, queue := w.queue.consume n }

/-- `prepare` needs another block. -/
def Reallocates (s : State) (n : Nat) : Prop :=
  s.end_ - s.output < n ∧ s.end_ - s.output + (s.input - s.start) < n

/-- What an allocator may return. -/
def Fresh (s : State) (r : Region) : Prop :=
  0 < r.base ∧ r.stop ≤ addressSpace ∧ ∀ b ∈ s.held, r.Disjoint b

/-- A sum of 31 bits, room in the region, and no computation of an address that wraps around. -/
def Legal (w : World) : Act → Prop
  | .prepare n newbuf => w.buffer.output - w.buffer.input + n ≤ maxSize ∧
      (Reallocates w.buffer n → Fresh w.buffer ⟨newbuf, w.buffer.output - w.buffer.input + n⟩)
  | .write i _ => i < w.region.size
  | .commit n => w.committed + n ≤ w.region.size
  | .consume n => w.buffer.input + n < addressSpace

instance (s : State) (n : Nat) : Decidable (Reallocates s n) := inferInstanceAs (Decidable (_ ∧ _))

instance (s : State) (r : Region) : Decidable (Fresh s r) := inferInstanceAs (Decidable (_ ∧ _ ∧ _))

instance (w : World) (a : Act) : Decidable (Legal w a) :=
  match a with
  | .prepare _ _ => inferInstanceAs (Decidable (_ ∧ _))
  | .write _ _ => inferInstanceAs (Decidable (_ < _))
  | .commit _ => inferInstanceAs (Decidable (_ ≤ _))
  | .consume _ => inferInstanceAs (Decidable (_ < _))

def Step (w : World) (a : Act) (w' : World) : Prop := Legal w a ∧ exec w a = .ok w'

/-! ## The invariant -/

structure Inv (w : World) : Prop where
  start_le : w.buffer.start ≤ w.buffer.input
  input_le : w.buffer.input ≤ w.buffer.output
  output_le : w.buffer.output ≤ w.buffer.end_
  block : (w.buffer.held = [] ∧ w.buffer.end_ = 0) ∨
    w.buffer.held = [⟨w.buffer.start, w.buffer.end_ - w.buffer.start⟩]
  region : w.region.base + w.committed = w.buffer.output
  room : w.region.stop ≤ w.buffer.end_
  part : w.committed ≤ w.region.size
  recent : w.committed ≤ w.queue.stream.length
  consumed : w.queue.consumed ≤ w.queue.stream.length
  queue : bytes w.buffer.mem ⟨w.buffer.input, w.buffer.output - w.buffer.input⟩ = w.queue.contents

section
variable {w w' : World} {s : State} {n k newbuf : Nat}

theorem Inv.empty (m : Mem) : Inv (.empty m) where
  start_le := Nat.le_refl _
  input_le := Nat.le_refl _
  output_le := Nat.le_refl _
  block := .inl ⟨rfl, rfl⟩
  region := rfl
  room := Nat.le_refl _
  part := Nat.le_refl _
  recent := Nat.le_refl _
  consumed := Nat.le_refl _
  queue := rfl

theorem Inv.size_eq (hi : Inv w) : size w.buffer = .ok (w.buffer.output - w.buffer.input) := by
  simp [size, hi.input_le]

theorem Inv.data_eq (hi : Inv w) :
    data w.buffer = .ok ⟨w.buffer.input, w.buffer.output - w.buffer.input⟩ := by
  rw [data, hi.size_eq]
  rfl

theorem Inv.length_contents (hi : Inv w) :
    w.queue.contents.length = w.buffer.output - w.buffer.input := by
  rw [← hi.queue, length_bytes]

theorem Inv.commit (hi : Inv w) (h : w.committed + n ≤ w.region.size) :
    Inv { w with
      buffer := commit n w.buffer, committed := w.committed + n
      queue := w.queue.push (bytes w.buffer.mem ⟨w.region.base + w.committed, n⟩) } := by
  have hregion := hi.region
  have hroom := hi.room
  have hinput := hi.input_le
  simp only [Region.stop] at hroom
  have hout : (FlatBuffer.commit n w.buffer).output = w.buffer.output + n := by
    simp only [FlatBuffer.commit]
    rw [if_neg (by omega)]
  refine ⟨hi.start_le, ?_, ?_, hi.block, ?_, hi.room, h, ?_, ?_, ?_⟩
  · rw [hout]
    exact Nat.le_add_right_of_le hinput
  · rw [hout]
    show w.buffer.output + n ≤ w.buffer.end_
    omega
  · rw [hout]
    dsimp only
    omega
  · have hrecent := hi.recent
    simp only [Queue.push, List.length_append, length_bytes]
    omega
  · simp only [Queue.push, List.length_append]
    exact Nat.le_add_right_of_le hi.consumed
  · have hsplit : w.buffer.output + n - w.buffer.input = w.buffer.output - w.buffer.input + n := by
      omega
    have hend : w.buffer.input + (w.buffer.output - w.buffer.input) = w.buffer.output := by omega
    rw [hout]
    show bytes w.buffer.mem ⟨w.buffer.input, w.buffer.output + n - w.buffer.input⟩ = _
    rw [hsplit, bytes_append, hi.queue, hend, hregion]
    simp only [Queue.push, Queue.contents]
    rw [List.drop_append_of_le_length hi.consumed]

theorem Inv.consume (hi : Inv w) (n : Nat) :
    Inv { w with buffer := consume n w.buffer, queue := w.queue.consume n } := by
  have hstart := hi.start_le
  have hinput := hi.input_le
  have hlen := hi.length_contents
  have hin :
      (FlatBuffer.consume n w.buffer).input =
        w.buffer.input + min n (w.buffer.output - w.buffer.input) := by
    simp only [FlatBuffer.consume]
    split <;> omega
  have hlen' : w.queue.contents.length = w.queue.stream.length - w.queue.consumed := by
    simp [Queue.contents]
  refine ⟨?_, ?_, hi.output_le, hi.block, hi.region, hi.room, hi.part, hi.recent, ?_, ?_⟩
  · rw [hin]
    exact Nat.le_add_right_of_le hstart
  · rw [hin]
    show _ ≤ w.buffer.output
    omega
  · have hconsumed := hi.consumed
    simp only [Queue.consume]
    omega
  · rw [hin]
    show bytes w.buffer.mem ⟨_, w.buffer.output - _⟩ = _
    rw [← Nat.sub_sub, ← bytes_drop _ _ _ _ (Nat.min_le_right _ _), hi.queue]
    simp only [Queue.consume, Queue.contents, List.drop_drop]
    rw [show (List.drop w.queue.consumed w.queue.stream).length = _ from hlen]

theorem Inv.write (hi : Inv w) (i : Nat) (v : UInt8) :
    Inv { w with
      buffer := { w.buffer with mem := Function.update w.buffer.mem (w.region.base + i) v }
      queue := if i < w.committed then w.queue.rewrite w.committed i v else w.queue } := by
  have hregion := hi.region
  have hinput := hi.input_le
  have hrecent := hi.recent
  have hconsumed := hi.consumed
  have hlen := hi.length_contents
  have hlength :
      (if i < w.committed then w.queue.rewrite w.committed i v else w.queue).stream.length =
        w.queue.stream.length := by
    split <;> simp [Queue.rewrite]
  have hsame :
      (if i < w.committed then w.queue.rewrite w.committed i v else w.queue).consumed =
        w.queue.consumed := by
    split <;> rfl
  refine ⟨hi.start_le, hinput, hi.output_le, hi.block, hregion, hi.room, hi.part, ?_, ?_, ?_⟩
  · rw [hlength]
    exact hrecent
  · rw [hlength, hsame]
    exact hconsumed
  · dsimp only
    simp only [Queue.contents, List.length_drop] at hlen
    split
    · next hic =>
      simp only [Queue.rewrite, Queue.contents]
      rw [List.drop_set]
      split
      · -- the byte has been consumed
        rw [bytes_update_of_not_contains, hi.queue]
        · rfl
        · simp only [Region.Contains, Region.stop]
          omega
      · have haddr :
            w.region.base + i = w.buffer.input +
              (w.queue.stream.length - w.committed + i - w.queue.consumed) := by omega
        rw [haddr, bytes_update, hi.queue]
        rfl
    · -- a byte of the room
      rw [bytes_update_of_not_contains, hi.queue]
      simp only [Region.Contains, Region.stop]
      omega

/-! ## prepare -/

/-- What a `prepare` that returns has done. -/
structure Prepared (s s' : State) (r : Region) (n : Nat) : Prop where
  base : r.base = s'.output
  size : r.size = n
  start_le : s'.start ≤ s'.input
  input_le : s'.input ≤ s'.output
  room : s'.output + n ≤ s'.end_
  block : (s'.held = [] ∧ s'.end_ = 0) ∨ s'.held = [⟨s'.start, s'.end_ - s'.start⟩]
  length : s'.output - s'.input = s.output - s.input
  bytes : bytes s'.mem ⟨s'.input, s'.output - s'.input⟩ = bytes s.mem ⟨s.input, s.output - s.input⟩

theorem Inv.prepare_spec (hi : Inv w) (h : Legal w (.prepare n newbuf)) :
    ∃ s' r, prepare n newbuf w.buffer = .ok (s', r) ∧ Prepared w.buffer s' r n := by
  obtain ⟨hmax, hfresh⟩ := h
  have hstart := hi.start_le
  have hinput := hi.input_le
  have houtput := hi.output_le
  have hmod :
      (w.buffer.output - w.buffer.input + n) % addressSpace =
        w.buffer.output - w.buffer.input + n :=
    Nat.mod_eq_of_lt (by simp only [maxSize, addressSpace] at *; omega)
  have hthrow : ¬ (w.buffer.output - w.buffer.input + n) % addressSpace > maxSize := by
    rw [hmod]
    omega
  rw [prepare, hi.size_eq]
  simp only [bind, Except.bind, if_neg hthrow]
  rw [hmod]
  split
  · next hlt =>
    split
    · next hroom =>
      -- the bytes go to the front of the block
      refine ⟨_, _, rfl, rfl, rfl, Nat.le_refl _, Nat.le_add_right _ _, ?_, hi.block, ?_, ?_⟩
      · dsimp only
        omega
      · simp
      · simp [bytes_copyBytes]
    · next hroom =>
      obtain ⟨hnull, hstop, hdisj⟩ := hfresh ⟨hlt, by omega⟩
      refine ⟨_, _, rfl, rfl, rfl, Nat.le_refl _, Nat.le_add_right _ _,
        Nat.le_of_eq (Nat.add_assoc _ _ _), .inr ?_, ?_, ?_⟩
      · have herase :
            w.buffer.held.erase ⟨w.buffer.start, w.buffer.end_ - w.buffer.start⟩ = [] := by
          rcases hi.block with ⟨hb, _⟩ | hb <;> simp [hb]
        dsimp only
        rw [herase, Nat.add_sub_cancel_left]
      · simp
      · simp only [Nat.add_sub_cancel_left]
        split
        · exact bytes_copyBytes _ _ _ _
        · next hzero => simp [Lib.Memory.bytes, not_not.mp hzero]
  · next hroom =>
    refine ⟨_, _, rfl, rfl, rfl, hstart, hinput, ?_, hi.block, rfl, rfl⟩
    omega

theorem Inv.prepared (hi : Inv w) {s' : State} {r : Region} (h : Prepared w.buffer s' r n) :
    Inv { w with buffer := s', region := r, committed := 0 } := by
  have hroom := h.room
  refine ⟨h.start_le, h.input_le, by dsimp only; omega, h.block, h.base, ?_, Nat.zero_le _,
    Nat.zero_le _, hi.consumed, ?_⟩
  · simp only [Region.stop, h.base, h.size]
    exact hroom
  · exact h.bytes.trans hi.queue

theorem Inv.step (hi : Inv w) {a : Act} (h : Step w a w') : Inv w' := by
  obtain ⟨hl, he⟩ := h
  cases a with
  | prepare n newbuf =>
    obtain ⟨s', r, hp, hprep⟩ := hi.prepare_spec hl
    simp only [exec, hp, bind, Except.bind] at he
    cases he
    exact hi.prepared hprep
  | write i v =>
    cases he
    exact hi.write i v
  | commit n =>
    cases he
    exact hi.commit hl
  | consume n =>
    cases he
    exact hi.consume n

end

/-! ## Along runs -/

/-- Every byte of the region lies in a block of the allocator. -/
def Writable (s : State) (r : Region) : Prop := ∀ x, r.Contains x → ∃ b ∈ s.held, b.Contains x

theorem Prepared.writable {s s' : State} {r : Region} {n : Nat} (h : Prepared s s' r n) :
    Writable s' r := by
  intro x hx
  have hroom := h.room
  have hstart := h.start_le
  have hinput := h.input_le
  simp only [Region.Contains, Region.stop, h.base, h.size] at hx
  rcases h.block with ⟨_, hend⟩ | hblock
  · omega
  · refine ⟨_, hblock ▸ List.mem_singleton_self _, ?_⟩
    simp only [Region.Contains, Region.stop]
    omega

/-- The buffer is the queue: `data` is its contents, and `prepare` returns `n` bytes of room beside
them and changes nothing of them. -/
structure Refines (w : World) : Prop where
  ordered : w.buffer.start ≤ w.buffer.input ∧ w.buffer.input ≤ w.buffer.output ∧
    w.buffer.output ≤ w.buffer.end_
  data : ∃ r, data w.buffer = .ok r ∧ bytes w.buffer.mem r = w.queue.contents
  prepare : ∀ n newbuf, Legal w (.prepare n newbuf) →
    ∃ s' r r', prepare n newbuf w.buffer = .ok (s', r) ∧
    r.size = n ∧ Writable s' r ∧ FlatBuffer.data s' = .ok r' ∧ r.Disjoint r' ∧
      bytes s'.mem r' = w.queue.contents

theorem Inv.refines {w : World} (hi : Inv w) : Refines w := by
  refine ⟨⟨hi.start_le, hi.input_le, hi.output_le⟩, ⟨_, hi.data_eq, hi.queue⟩, ?_⟩
  intro n newbuf hl
  obtain ⟨s', r, hp, hprep⟩ := hi.prepare_spec hl
  have hi' := hi.prepared hprep
  refine ⟨s', r, _, hp, hprep.size, hprep.writable, hi'.data_eq, ?_, hi'.queue⟩
  have hinput := hprep.input_le
  simp only [Region.Disjoint, Region.stop, hprep.base]
  omega

/-- Any sequence of `prepare`, writes, `commit` and `consume` from the empty buffer on. -/
theorem refines_along_buffer_runs {m : Mem} {as : List Act} {w : World}
    (h : Run Step (.empty m) as w) : Refines w :=
  Inv.refines (h.invariant (I := Inv) (Inv.empty m) fun _ _ _ hi hs => hi.step hs)

/-- Two bytes are committed, one is consumed, and the rest is moved to a larger block. -/
theorem refines_reallocated : ∃ w, Run Step (.empty fun _ => 0)
    [.prepare 2 4096, .write 0 7, .write 1 8, .commit 2, .consume 1, .prepare 4 8192] w ∧
    Refines w := by
  have h₁ : Run Step (.empty fun _ => 0) [.prepare 2 4096] _ := .single ⟨by decide, rfl⟩
  have h₂ := h₁.snoc (a := .write 0 7) ⟨by decide, rfl⟩
  have h₃ := h₂.snoc (a := .write 1 8) ⟨by decide, rfl⟩
  have h₄ := h₃.snoc (a := .commit 2) ⟨by decide, rfl⟩
  have h₅ := h₄.snoc (a := .consume 1) ⟨by decide, rfl⟩
  have h₆ := h₅.snoc (a := .prepare 4 8192) ⟨by decide, rfl⟩
  exact ⟨_, h₆, refines_along_buffer_runs h₆⟩

end Gpcl.FlatBuffer
