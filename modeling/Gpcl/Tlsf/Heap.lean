import Gpcl.Lib.Runs
import Gpcl.Tlsf.Serve

/-! # What tlsf is for

To a client tlsf is a partial function from addresses to sizes, the blocks that it has. Each call is
a step of it, with an answer; whatever calls are made, in whatever order, tlsf makes the step and
never fails an assertion. -/
namespace Gpcl.Tlsf
open Lib.Memory Lib.Runs

inductive Call
  | malloc (size : Nat)
  | memalign (align size : Nat)
  | free (p : Nat)
  | realloc (p size : Nat)
  | addPool (mem bytes : Nat)
  | removePool (mem : Nat)
deriving DecidableEq, Repr

/-! ## Blocks of clients -/

namespace Heap

/-- An answer to a request for new memory: null, or a block that nobody has. -/
def Gives (live : Nat → Option Nat) (align size p : Nat) (live' : Nat → Option Nat) : Prop :=
  (p = 0 ∧ live' = live) ∨
    (p ≠ 0 ∧ align ∣ p ∧ live p = none ∧ ∃ s, size ≤ s ∧ live' = Function.update live p (some s))

/-- An answer to a request for another size of the block at `q`, which keeps its place or does
not. -/
def Resizes (live : Nat → Option Nat) (q size p : Nat) (live' : Nat → Option Nat) : Prop :=
  if q = 0 then Gives live alignSize size p live'
  else if size = 0 then p = 0 ∧ live' = Function.update live q none
  else (p = 0 ∧ live' = live) ∨
    (p ≠ 0 ∧ (p = q ∨ live p = none) ∧ ∃ s, size ≤ s ∧
      live' = Function.update (Function.update live q none) p (some s))

/-- The steps, with their answers. -/
def Step (live : Nat → Option Nat) : Call × Nat → (Nat → Option Nat) → Prop
  | (.malloc size, p), live' => Gives live alignSize size p live'
  | (.memalign align size, p), live' => Gives live align size p live'
  | (.free q, _), live' => live' = Function.update live q none
  | (.realloc q size, p), live' => Resizes live q size p live'
  | (.addPool mem _, p), live' => p = mem ∧ live' = live
  | (.removePool _, _), live' => live' = live

end Heap

/-! ## The system -/

/-- tlsf, with the pools that it has been given. -/
structure System where
  control : Control
  pools : List Region

namespace System
open Control (poolBytes)

def created : System := ⟨.construct, []⟩

def live (s : System) : Nat → Option Nat := usedSize s.control.headers

/-- The region of a pool: its first block, and two headers. -/
def poolRegion (mem bytes : Nat) : Region := ⟨mem, poolBytes bytes + 16⟩

def perform (s : System) : Call → Option (System × Nat)
  | .malloc size => (s.control.malloc size).map fun (c, p) => (⟨c, s.pools⟩, p)
  | .memalign align size => (s.control.memalign align size).map fun (c, p) => (⟨c, s.pools⟩, p)
  | .free p => (s.control.free p).map fun c => (⟨c, s.pools⟩, 0)
  | .realloc p size => (s.control.realloc p size).map fun (c, p) => (⟨c, s.pools⟩, p)
  | .addPool mem bytes =>
    (s.control.addPool mem bytes).map fun (c, p) => (⟨c, poolRegion mem bytes :: s.pools⟩, p)
  | .removePool mem =>
    (s.control.removePool mem).map fun c => (⟨c, s.pools.filter (·.base ≠ mem)⟩, 0)

/-- What clients promise: they free and resize what they have, and the memory of a pool is theirs to
give. Three requests that the types admit are left out, since the source answers them with a block
that is too small:
- a size above 2⁶⁴ - 8, which rounds up to 0 and is served with the smallest block;
- an alignment of 2⁶³, with which the size rounds up to 0 as well (other alignments are powers of
two by an assertion);
- `tlsf_realloc` of a block to a size that no block has, 2³² - 7 or more, which it takes for 0: it
cuts the block there, writes a header over what the client has in it, and returns it. -/
def Permitted (s : System) : Call → Prop
  | .malloc size => size + alignSize ≤ addressSpace
  | .memalign align size => (∃ k < 63, align = 2 ^ k) ∧ size + alignSize ≤ addressSpace
  | .free p => p = 0 ∨ s.live p ≠ none
  | .realloc p size => (p = 0 ∨ s.live p ≠ none) ∧ size + alignSize ≤ addressSpace ∧
    (p = 0 ∨ size = 0 ∨ adjustRequestSize size alignSize ≠ 0)
  | .addPool mem bytes =>
    alignSize ∣ mem ∧ poolOverhead ≤ bytes ∧ bytes < addressSpace ∧ blockSizeMin ≤ poolBytes bytes ∧
    poolBytes bytes < blockSizeMax ∧ (poolRegion mem bytes).stop < addressSpace ∧
      ∀ r ∈ s.pools, (poolRegion mem bytes).Disjoint r
  | .removePool mem => ∃ r ∈ s.pools, r.base = mem ∧ ∀ p, r.Contains p → s.live p = none

-- the third of these requests: a client has a block of 104 bytes, and afterwards one of none
example : (do
    let (s, _) ← created.perform (.addPool 4096 1024)
    let (s, p) ← s.perform (.malloc 100)
    let (s', q) ← s.perform (.realloc p (2 ^ 32))
    pure (p, s.live p, q, (s'.control.headers q).map Header.size) : Option
      (Nat × Option Nat × Nat × Option Nat)) =
      some (4104, some 104, 4104, some 0) := rfl

/-- A call that clients may make, with its answer. -/
def Step (s : System) (a : Call × Nat) (s' : System) : Prop :=
  s.Permitted a.1 ∧ s.perform a.1 = some (s', a.2)

/-- What holds between two calls. -/
def Ok (s : System) : Prop := Settled s.pools s.control s.live

theorem ok_created : created.Ok := Settled.create

end System

section
variable {c : Control} {pools : List Region} {live : Nat → Option Nat} {p t : Nat}

theorem Served.aligned (h : Served pools c live p t) :
    alignSize ∣ p := by
  obtain ⟨u, -, -, hsettled⟩ := h.settled
  obtain ⟨b, n, hb, -⟩ := hsettled.used_block (p := p) (Function.update_self ..)
  exact (hsettled.sound.laid.aligned p b hb).1

theorem Settled.live_zero (h : Settled pools c live) : live 0 = none := by
  cases hlive : live 0 with
  | none => rfl
  | some t =>
    obtain ⟨b, n, hb, -⟩ := h.used_block hlive
    have := (h.sound.laid.bounds hb).1
    omega

/-- Pools begin in different places. -/
theorem Settled.pools_by_base (h : Settled pools c live) {r : Region}
    (hr : r ∈ pools) : pools.filter (·.base ≠ r.base) = pools.filter (· ≠ r) := by
  refine List.filter_congr fun r' hr' => ?_
  have hroom := h.marked.room r hr
  rw [decide_eq_decide, not_iff_not]
  constructor
  · intro heq
    exact h.marked.pool_unique h.sound.laid hr hr'
      (.inl ⟨Nat.le_of_eq heq.symm, by unfold Region.stop; omega⟩)
  · exact fun heq => congrArg Region.base heq

end

namespace System
variable {s s' : System} {p q size : Nat} {a : Call × Nat}

theorem Ok.settled {c : Control} {pools : List Region} {live : Nat → Option Nat}
    (h : Settled pools c live) :
    (⟨c, pools⟩ : System).Ok ∧ (⟨c, pools⟩ : System).live = live := by
  have hlive : (⟨c, pools⟩ : System).live = live := h.live
  exact ⟨by rw [Ok, hlive]; exact h, hlive⟩

theorem Ok.serve {c : Control} {t align : Nat} (h : Served s.pools c s.live p t) (hle : size ≤ t)
    (hdvd : align ∣ p) :
    (⟨c, s.pools⟩ : System).Ok ∧ Heap.Gives s.live align size p (⟨c, s.pools⟩ : System).live := by
  obtain ⟨u, htu, -, hsettled⟩ := h.settled
  obtain ⟨hok, hlive⟩ := Ok.settled hsettled
  exact ⟨hok, .inr ⟨h.ne, hdvd, h.fresh, u, Nat.le_trans hle htu, hlive⟩⟩

theorem Ok.malloc (h : s.Ok) (hsize : size + alignSize ≤ addressSpace) :
    ∃ c' p, s.control.malloc size = some (c', p) ∧ (⟨c', s.pools⟩ : System).Ok ∧
      Heap.Gives s.live alignSize size p (⟨c', s.pools⟩ : System).live := by
  have hlt : size < addressSpace := by
    unfold alignSize at hsize
    omega
  obtain ⟨-, hrun⟩ | ⟨c', p, hloc, hrun, hserved⟩ := Settled.malloc h hlt
  · exact ⟨_, _, hrun, h, .inl ⟨rfl, rfl⟩⟩
  · have hle : size ≤ adjustRequestSize size alignSize :=
      le_adjust (k := 3) (by decide) hsize hloc.1
    exact ⟨c', p, hrun, Ok.serve hserved hle hserved.aligned⟩

theorem Ok.memalign (h : s.Ok) {k : Nat} (hk : k < 63) (hsize : size + alignSize ≤ addressSpace) :
    ∃ c' p, s.control.memalign (2 ^ k) size = some (c', p) ∧ (⟨c', s.pools⟩ : System).Ok ∧
      Heap.Gives s.live (2 ^ k) size p (⟨c', s.pools⟩ : System).live := by
  have hlt : size < addressSpace := by
    unfold alignSize at hsize
    omega
  obtain ⟨-, hrun⟩ | ⟨c', p, hloc, hrun, hdvd, hserved⟩ := Settled.memalign h hk hlt
  · exact ⟨_, _, hrun, h, .inl ⟨rfl, rfl⟩⟩
  · have hne := (alignedSize_spec (show k < 64 by omega) hlt).2.2 hloc.1
    have hle : size ≤ adjustRequestSize size alignSize := le_adjust (k := 3) (by decide) hsize hne
    exact ⟨c', p, hrun, Ok.serve hserved hle hdvd⟩

theorem Ok.free (h : s.Ok) (hp : p = 0 ∨ s.live p ≠ none) :
    ∃ c', s.control.free p = some c' ∧ (⟨c', s.pools⟩ : System).Ok ∧
      (⟨c', s.pools⟩ : System).live = Function.update s.live p none := by
  by_cases hp0 : p = 0
  · refine ⟨s.control, by rw [Control.free, if_pos hp0], h, ?_⟩
    have hnone : s.live p = none := hp0 ▸ Settled.live_zero h
    exact (Function.update_eq_self_iff.mpr hnone.symm).symm
  · obtain ⟨t, ht⟩ := Option.ne_none_iff_exists'.mp (hp.resolve_left hp0)
    obtain ⟨c', hrun, hsettled⟩ := Settled.free h ht
    exact ⟨c', hrun, Ok.settled hsettled⟩

theorem Ok.realloc (h : s.Ok) (hp : p = 0 ∨ s.live p ≠ none)
    (hsize : size + alignSize ≤ addressSpace)
    (hadjust : p = 0 ∨ size = 0 ∨ adjustRequestSize size alignSize ≠ 0) :
    ∃ c' q, s.control.realloc p size = some (c', q) ∧ (⟨c', s.pools⟩ : System).Ok ∧
      Heap.Resizes s.live p size q (⟨c', s.pools⟩ : System).live := by
  unfold Heap.Resizes
  by_cases hp0 : p = 0
  · obtain ⟨c', q, hrun, hok, hgives⟩ := h.malloc hsize
    refine ⟨c', q, ?_, hok, by rw [if_pos hp0]; exact hgives⟩
    rw [Control.realloc, if_neg fun hc => hc.1 hp0, if_pos hp0]
    exact hrun
  · by_cases hs0 : size = 0
    · obtain ⟨c', hrun, hok, hlive⟩ := h.free hp
      refine ⟨c', 0, ?_, hok, by rw [if_neg hp0, if_pos hs0]; exact ⟨rfl, hlive⟩⟩
      rw [Control.realloc, if_pos ⟨hp0, hs0⟩]
      simp [hrun]
    · obtain ⟨t, ht⟩ := Option.ne_none_iff_exists'.mp (hp.resolve_left hp0)
      have hlt : size < addressSpace := by
        unfold alignSize at hsize
        omega
      have hadjust := (hadjust.resolve_left hp0).resolve_left hs0
      have hle : size ≤ adjustRequestSize size alignSize :=
        le_adjust (k := 3) (by decide) hsize hadjust
      simp only [if_neg hp0, if_neg hs0]
      obtain ⟨c', hrun, u, hlu, hsettled⟩ |
          ⟨-, hrun | ⟨c', q, u, hrun, hq0, hfresh, hlu, hsettled⟩⟩ :=
        Settled.realloc h ht hlt hadjust
      · obtain ⟨hok, hlive⟩ := Ok.settled hsettled
        refine ⟨c', p, hrun, hok, .inr ⟨hp0, .inl rfl, u, Nat.le_trans hle hlu, ?_⟩⟩
        rw [hlive, Function.update_idem]
      · exact ⟨_, 0, hrun, h, .inl ⟨rfl, rfl⟩⟩
      · obtain ⟨hok, hlive⟩ := Ok.settled hsettled
        refine ⟨c', q, hrun, hok, .inr ⟨hq0, .inr hfresh, u, Nat.le_trans hle hlu, ?_⟩⟩
        have hqp : q ≠ p := by
          rintro rfl
          rw [hfresh] at ht
          cases ht
        rw [hlive, Function.update_comm hqp]

theorem Ok.addPool (h : s.Ok) {mem bytes : Nat} (hbytes : Control.poolBytes bytes = size)
    (hmem : 8 ∣ mem) (h8 : 8 ∣ size) (hmin : 24 ≤ size) (hmax : size < blockSizeMax)
    (hspace : mem + (size + 16) < addressSpace)
    (hfresh : ∀ r ∈ s.pools, Region.Disjoint ⟨mem, size + 16⟩ r) :
    ∃ c', s.control.addPool mem bytes = some (c', mem) ∧
    (⟨c', ⟨mem, size + 16⟩ :: s.pools⟩ : System).Ok ∧
      (⟨c', ⟨mem, size + 16⟩ :: s.pools⟩ : System).live = s.live := by
  obtain ⟨c', hrun, hsettled⟩ := Settled.addPool h hmem hbytes h8 hmin hmax (by omega) hfresh
  exact ⟨c', hrun, Ok.settled hsettled⟩

/-- Every call that clients may make is answered, as the step says, and clients may go on. -/
theorem Ok.perform (h : s.Ok) {call : Call} (hp : s.Permitted call) :
    ∃ s' p, s.perform call = some (s', p) ∧ s'.Ok ∧ Heap.Step s.live (call, p) s'.live := by
  cases call with
  | malloc size =>
    obtain ⟨c', p, hrun, hok, hgives⟩ := h.malloc hp
    exact ⟨_, p, by rw [System.perform, hrun]; rfl, hok, hgives⟩
  | memalign align size =>
    obtain ⟨⟨k, hk, rfl⟩, hsize⟩ := hp
    obtain ⟨c', p, hrun, hok, hgives⟩ := h.memalign hk hsize
    exact ⟨_, p, by rw [System.perform, hrun]; rfl, hok, hgives⟩
  | free p =>
    obtain ⟨c', hrun, hok, hlive⟩ := h.free hp
    exact ⟨_, 0, by rw [System.perform, hrun]; rfl, hok, hlive⟩
  | realloc p size =>
    obtain ⟨hlive, hsize, hadjust⟩ := hp
    obtain ⟨c', q, hrun, hok, hstep⟩ := h.realloc hlive hsize hadjust
    exact ⟨_, q, by rw [System.perform, hrun]; rfl, hok, hstep⟩
  | addPool mem bytes =>
    obtain ⟨hmem, -, hbytes, hmin, hmax, hspace, hfresh⟩ := hp
    obtain ⟨c', hrun, hok, hlive⟩ :=
      h.addPool rfl hmem (poolBytes_spec hbytes).1 hmin hmax hspace hfresh
    exact ⟨_, mem, by rw [System.perform, hrun]; rfl, hok, rfl, hlive⟩
  | removePool mem =>
    obtain ⟨r, hr, rfl, hnone⟩ := hp
    obtain ⟨b, n, hv⟩ := Settled.vacant h hr hnone
    obtain ⟨c', hrun, hsettled⟩ := Settled.removePool h hr hv
    have hpools : s.pools.filter (·.base ≠ r.base) = s.pools.filter (· ≠ r) :=
      Settled.pools_by_base h hr
    rw [← hpools] at hsettled
    obtain ⟨hok, hlive⟩ := Ok.settled hsettled
    exact ⟨_, 0, by rw [System.perform, hrun]; rfl, hok, hlive⟩

/-! ## Runs -/

theorem Ok.run {as : List (Call × Nat)} (h : Run Step created as s) : s.Ok :=
  h.invariant ok_created fun t a u ht hstep => by
    obtain ⟨u', p, hrun, hok, -⟩ := Ok.perform ht hstep.1
    cases hrun.symm.trans hstep.2
    exact hok

theorem Ok.heap_step (h : s.Ok) {a : Call × Nat} (hstep : Step s a s') :
    Heap.Step s.live a s'.live := by
  obtain ⟨u', p, hu, -, hheap⟩ := h.perform hstep.1
  cases hu.symm.trans hstep.2
  exact hheap

/-- The steps that were made are steps of the abstract heap. -/
theorem Run.heap {as : List (Call × Nat)} (h : Run Step created as s) :
    Run Heap.Step (fun _ => none) as s.live := by
  induction h with
  | nil => exact .nil
  | snoc hrun hstep ih => exact ih.snoc ((Ok.run hrun).heap_step hstep)

/-- What a client has. -/
theorem Ok.owned {t : Nat} (h : s.Ok) (hp : s.live p = some t) :
    blockSizeMin ≤ t ∧ alignSize ∣ p ∧ ∃ r ∈ s.pools, r.base + 8 ≤ p ∧ p + t + 8 ≤ r.stop := by
  obtain ⟨b, n, hb, -, rfl, hne, -⟩ := Settled.used_block h hp
  obtain ⟨r, hr, hbase, -, hend⟩ := h.sound.laid.within p b hb
  exact ⟨(h.sound.laid.next p b hb hne).1, (h.sound.laid.aligned p b hb).1, r, hr, hbase, hend hne⟩

theorem Ok.disjoint {t u : Nat} (h : s.Ok) (hp : s.live p = some t) (hq : s.live q = some u)
    (hne : p ≠ q) :
    p + t + 8 ≤ q ∨ q + u + 8 ≤ p := by
  obtain ⟨b, -, hb, -, rfl, -⟩ := Settled.used_block h hp
  obtain ⟨d, -, hd, -, rfl, -⟩ := Settled.used_block h hq
  exact h.sound.laid.apart_of_ne hd hb hne

theorem permitted_addPool : created.Permitted (.addPool 4096 1024) :=
  ⟨by decide, by decide, by decide, by decide, by decide, by decide,
    fun r hr => absurd hr List.not_mem_nil⟩

theorem run_step {as : List (Call × Nat)} (h : Run Step created as s) {a : Call × Nat}
    (hstep : Step s a s') :
    Run Step created (as ++ [a]) s' ∧ Heap.Step s.live a s'.live :=
  ⟨h.snoc hstep, (Ok.run h).heap_step hstep⟩

/-- Two blocks are taken from a pool and given back. -/
theorem run_given_back : ∃ s, Run Step created
    [(.addPool 4096 1024, 4096), (.malloc 100, 4104), (.malloc 200, 4216), (.free 4104, 0),
      (.free 4216, 0)] s ∧
      s.pools = [⟨4096, 1024⟩] ∧ ∀ p, s.live p = none := by
  obtain ⟨h₁, -, l₁⟩ := run_step .nil (a := (.addPool 4096 1024, 4096)) ⟨permitted_addPool, rfl⟩
  obtain ⟨h₂, l₂⟩ := run_step h₁ (a := (.malloc 100, 4104)) ⟨by unfold Permitted; decide, rfl⟩
  obtain ⟨h₃, l₃⟩ := run_step h₂ (a := (.malloc 200, 4216)) ⟨by unfold Permitted; decide, rfl⟩
  obtain ⟨h₄, l₄⟩ := run_step h₃ (a := (.free 4104, 0)) ⟨by unfold Permitted; exact .inr nofun, rfl⟩
  obtain ⟨h₅, l₅⟩ := run_step h₄ (a := (.free 4216, 0)) ⟨by unfold Permitted; exact .inr nofun, rfl⟩
  obtain ⟨hzero, -⟩ | ⟨-, -, -, t, -, l₂⟩ := l₂
  · cases hzero
  obtain ⟨hzero, -⟩ | ⟨-, -, -, u, -, l₃⟩ := l₃
  · cases hzero
  refine ⟨_, h₅, rfl, fun p => (congrFun l₅ p).trans ?_⟩
  by_cases hq : p = 4216
  · rw [hq, Function.update_self]
  · rw [Function.update_of_ne hq]
    refine (congrFun l₄ p).trans ?_
    by_cases hp : p = 4104
    · rw [hp, Function.update_self]
    · rw [Function.update_of_ne hp]
      refine (congrFun l₃ p).trans ?_
      rw [Function.update_of_ne hq]
      refine (congrFun l₂ p).trans ?_
      rw [Function.update_of_ne hp]
      exact congrFun l₁ p

end System

end Gpcl.Tlsf
