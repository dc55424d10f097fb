import Gpcl.Pool.Reach

/-! # Refused requests

`request_new_block` doubles `next_size_` before it asks the user allocator, and does not take
it back when the answer is null. The sizing loop doubles modulo the size of the address space:
once enough requests were refused, no doubling reaches the target. -/
namespace Gpcl.Pool
open Lib.Memory Lib.Runs

/-- Any call that returns, whatever the clients and the user allocator do. -/
def Call (w : World) (op : Op) (w' : World) : Prop :=
  (∀ n, op = .setNextSize n → n < addressSpace) ∧ ∃ p, w.exec op = some (w', p)

/-- A request should end its sizing loop, and leave the pool as it was if the user allocator
refuses. -/
def Settles (s : Pool) (ua : Nat → Nat) (minSize : Nat) (ordered : Bool) : Prop :=
  (∃ sz, growSize (target minSize) (s.nextSize * s.chunkSize % addressSpace) = some sz) ∧
    ∀ s', s.requestNewBlock ua minSize ordered = some (s', false) → s' = s

section
variable {s : Pool} {ua : Nat → Nat} {minSize : Nat} {ordered : Bool}

/-- What a request does whose sizing loop ends with a size that is refused. -/
theorem requestNewBlock_refused (ua : Nat → Nat) (ordered : Bool) {k : Nat}
    (hk : s.AsksAt minSize k) (hz : ua (s.doubled k) = 0) :
    s.requestNewBlock ua minSize ordered =
      some ({ s with nextSize := s.nextSize * 2 % addressSpace }, false) := by
  have hgrow := (growSize_eq_some_iff (s := s)).mpr ⟨k, hk, rfl⟩
  rw [target] at hgrow
  simp [requestNewBlock, hgrow, hz]

/-- A request that is granted is not reported as refused. -/
theorem requestNewBlock_granted {k : Nat} (hk : s.AsksAt minSize k) (hz : ua (s.doubled k) ≠ 0)
    (s' : Pool) :
    s.requestNewBlock ua minSize ordered ≠ some (s', false) := by
  intro h
  obtain ⟨k', hk', ⟨h0, -⟩ | ⟨-, hok, -⟩⟩ := requestNewBlock_cases h
  · obtain rfl := hk'.unique hk
    exact hz h0
  · cases hok

theorem settles_iff (hword : s.nextSize < addressSpace) :
    s.Settles ua minSize ordered ↔ ∃ k, s.AsksAt minSize k ∧
    (ua (s.doubled k) ≠ 0 ∨ s.nextSize = 0) := by
  constructor
  · intro ⟨⟨sz, hsz⟩, hsame⟩
    obtain ⟨k, hk, rfl⟩ := (growSize_eq_some_iff (s := s)).mp hsz
    refine ⟨k, hk, ?_⟩
    by_cases hz : ua (s.doubled k) = 0
    · have he := congrArg Pool.nextSize (hsame _ (requestNewBlock_refused ua ordered hk hz))
      right
      unfold addressSpace at *
      dsimp only at he
      omega
    · exact .inl hz
  · intro ⟨k, hk, hor⟩
    refine ⟨⟨s.doubled k, (growSize_eq_some_iff (s := s)).mpr ⟨k, hk, rfl⟩⟩, ?_⟩
    intro s' hs'
    by_cases hz : ua (s.doubled k) = 0
    · have hnext := hor.resolve_left (fun hne => hne hz)
      rw [requestNewBlock_refused ua ordered hk hz] at hs'
      obtain ⟨rfl, -⟩ := Prod.mk.inj (Option.some.inj hs')
      cases s
      simp_all
    · exact absurd hs' (requestNewBlock_granted hk hz s')

/-- The next size is a machine word in every state. -/
theorem nextSize_lt {requestedSize : Nat} {m : Mem} {ops : List Op} {w : World}
    (h0 : new requestedSize m = some s)
    (h : Run Call ⟨s, []⟩ ops w) : w.pool.nextSize < addressSpace := by
  refine h.invariant (I := fun w => w.pool.nextSize < addressSpace) ?_ ?_
  · obtain ⟨-, rfl⟩ := new_eq_some h0
    show 32 < addressSpace
    decide
  · intro t op u ht ⟨hw, q, hexec⟩
    exact (run_sizes hw (exec_eq_some hexec).1).next ht

/-- **When a request settles.** After any calls, granted and refused ones among them, a request ends
its sizing loop and leaves the pool alone if refused, exactly when some doubling reaches its target
and the block is granted (or `next_size_` is 0). -/
theorem request_settles_iff {requestedSize : Nat} {m : Mem} {ops : List Op} {w : World}
    (h0 : new requestedSize m = some s) (h : Run Call ⟨s, []⟩ ops w) :
    w.pool.Settles ua minSize ordered ↔
      ∃ k, w.pool.AsksAt minSize k ∧ (ua (w.pool.doubled k) ≠ 0 ∨ w.pool.nextSize = 0) :=
  settles_iff (nextSize_lt h0 h)

/-! ## Only refusals -/

theorem request_settles_granted : fresh8.Settles (fun _ => 4096) 8 false := by
  have hnew : new 8 (fun _ => 0) = some fresh8 := rfl
  refine (request_settles_iff hnew .nil).mpr ⟨0, ⟨by decide, by simp⟩, .inl (by decide)⟩

/-- The pool after `j` refusals. -/
def refused (j : Nat) : Pool := { fresh8 with nextSize := 32 * 2 ^ j }

theorem doubled_refused (j : Nat) : (refused j).doubled 0 = 2 ^ (j + 8) % addressSpace := by
  have : 32 * 2 ^ j * 8 * 2 ^ 0 = 2 ^ (j + 8) := by
    rw [Nat.pow_add]
    omega
  rw [doubled, ← this]
  rfl

/-- A refusal doubles the next size. -/
theorem malloc_refused {j : Nat} (hj : j < 56) :
    (refused j).malloc (fun _ => 0) = some (refused (j + 1), 0) := by
  have hle : 2 ^ 8 ≤ 2 ^ (j + 8) := Nat.pow_le_pow_right (by decide) (by omega)
  have hlt : 2 ^ (j + 8) < addressSpace := Nat.pow_lt_pow_right (by decide) (by omega)
  have hask : (refused j).AsksAt 8 0 := by
    refine ⟨?_, by simp⟩
    rw [doubled_refused, Nat.mod_eq_of_lt hlt]
    have : target 8 = 40 := by decide
    omega
  have hreq := requestNewBlock_refused (fun _ => 0) false hask rfl
  have hnext : (refused j).nextSize * 2 % addressSpace = 32 * 2 ^ (j + 1) := by
    have hp : 32 * 2 ^ j * 2 = 32 * 2 ^ (j + 1) := by rw [Nat.pow_succ, Nat.mul_assoc]
    have hp' : 2 ^ (j + 8) = 8 * (32 * 2 ^ j) := by rw [Nat.pow_add]; omega
    rw [show (refused j).nextSize = 32 * 2 ^ j from rfl, hp, Nat.mod_eq_of_lt]
    omega
  rw [hnext] at hreq
  have hempty : (refused j).storage.empty = true := rfl
  rw [malloc, mallocOne, if_pos hempty, show (refused j).chunkSize = 8 from rfl, hreq]
  rfl

theorem run_refused :
    ∀ j ≤ 56, Run Call ⟨refused 0, []⟩ (List.replicate j (.malloc fun _ => 0)) ⟨refused j, []⟩
  | 0, _ => .nil
  | j + 1, hj => by
    rw [List.replicate_succ']
    refine (run_refused j (by omega)).snoc ⟨by simp, 0, ?_⟩
    simp [World.exec, Op.run, malloc_refused (show j < 56 by omega), Op.liveAfter]

/-- A refused `malloc()` doubles the next size; after 56 of them the sizing loop of the next one
does not end. -/
theorem refusals_accumulate : new 8 (fun _ => 0) = some (refused 0) ∧
    (refused 0).requestNewBlock (fun _ => 0) 8 false = some (refused 1, false) ∧
    (refused 1).nextSize ≠ (refused 0).nextSize ∧
    Run Call ⟨refused 0, []⟩ (List.replicate 56 (.malloc fun _ => 0)) ⟨refused 56, []⟩ ∧
    ¬ ∃ sz, growSize (target 8)
      ((refused 56).nextSize * (refused 56).chunkSize % addressSpace) = some sz := by
  refine ⟨rfl, ?_, by decide, run_refused 56 (by decide), ?_⟩
  · have hask : (refused 0).AsksAt 8 0 := ⟨by decide, by simp⟩
    exact requestNewBlock_refused (fun _ => 0) false hask rfl
  · intro ⟨sz, hsz⟩
    obtain ⟨k, hk, -⟩ := (growSize_eq_some_iff (s := refused 56)).mp hsz
    have hzero : (refused 56).doubled k = 0 := by
      rw [doubled, show (refused 56).nextSize * (refused 56).chunkSize = addressSpace by decide,
        Nat.mul_mod_right]
    have := hk.1
    rw [hzero] at this
    exact absurd this (by decide)

end

end Gpcl.Pool
