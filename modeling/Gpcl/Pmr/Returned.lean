import Gpcl.Pmr.MonotonicUse
import Gpcl.Pmr.Window

/-! # The traffic of a monotonic_buffer_resource with its upstream

The blocks that upstream has handed out and those that have been passed to its `deallocate` are
recorded beside the world. Until the first `release` the chain has every block that was handed out,
so `release` and the destructor give back exactly these. -/
namespace Gpcl.Pmr.Monotonic
open Lib.Memory Lib.Chain Lib.Runs

/-- The block that upstream hands out for a request, if it does not throw. -/
def answer (up : Upstream) (bytes : Nat) : List Grant :=
  ((up bytes maxAlign).map fun p => ⟨p, bytes, maxAlign⟩).toList

/-- What upstream hands out during an operation. -/
def obtainedBy (w : World) : Op → List Grant
  | .ofSize _ up initialBuffer => answer up ((sizeofBlockInfo + initialBuffer) % addressSpace)
  | .allocate up bytes alignment => w.res.elim [] fun s =>
    if (s.allocFromBuffer bytes alignment).2 ≠ 0 then []
      else answer up ((sizeofBlockInfo + s.asked bytes) % addressSpace)
  | _ => []

/-- What is passed to upstream's `deallocate` during an operation. -/
def returnedBy (w : World) : Op → List Grant
  | .release give | .destroy give => ((w.res.bind (·.release give)).map Prod.snd).getD []
  | _ => []

structure Traced where
  world : World
  obtained : List Grant
  returned : List Grant

def Traced.start : Traced := ⟨World.start, [], []⟩

/-- A step in which no size computation wraps, with its traffic. -/
def TracedStep (t : Traced) (op : Op) (t' : Traced) : Prop :=
  FitStep t.world op t'.world ∧ t'.obtained = obtainedBy t.world op ++ t.obtained ∧
    t'.returned = t.returned ++ returnedBy t.world op

/-- `release` and the destructor. -/
def Op.GivesBack : Op → Prop
  | .release _ | .destroy _ => True
  | _ => False

/-- The blocks that the resource has, if there is one. -/
def World.held (w : World) : List Grant := w.res.elim [] (·.held)

theorem requestFromUpstream_held {s s' : Monotonic} {up : Upstream} {ok : Bool}
    (h : s.requestFromUpstream up = some (s', ok)) :
    s'.held = answer up ((sizeofBlockInfo + s.nextBufferBytes) % addressSpace) ++ s.held ∧
      (ok = false → answer up ((sizeofBlockInfo + s.nextBufferBytes) % addressSpace) = []) := by
  unfold requestFromUpstream at h
  unfold answer
  cases hup : up ((sizeofBlockInfo + s.nextBufferBytes) % addressSpace) maxAlign with
  | none =>
    simp only [hup, Option.some.injEq, Prod.mk.injEq] at h
    obtain ⟨rfl, -⟩ := h
    simp
  | some p =>
    by_cases hp : p % maxAlign = 0
    · simp [hup, guard, hp] at h
      obtain ⟨rfl, rfl⟩ := h
      simp
    · simp [hup, guard, hp] at h

theorem allocFromBuffer_held (s : Monotonic) (bytes : Nat) {alignment : Nat} (ha : 0 < alignment) :
    (s.allocFromBuffer bytes alignment).1.held = s.held ∧
    (s.allocFromBuffer bytes alignment).1.nextBufferBytes = s.nextBufferBytes := by
  obtain ⟨b, p, hrun, -⟩ := s.allocFromBuffer_spec bytes ha
  rw [hrun]
  exact ⟨rfl, rfl⟩

/-- One block at most is asked for, and it is held from then on. -/
theorem allocate_held {s s' : Monotonic} {up : Upstream} {bytes alignment : Nat} {ret : Option Nat}
    (ha : 0 < alignment) (h : s.allocate up bytes alignment = some (s', ret)) :
    s'.held = (if (s.allocFromBuffer bytes alignment).2 ≠ 0 then []
      else answer up ((sizeofBlockInfo + s.asked bytes) % addressSpace)) ++
      s.held := by
  obtain ⟨hheld, hnext⟩ := s.allocFromBuffer_held bytes ha
  simp only [allocate, doAllocate, Option.bind_eq_bind, Option.bind_eq_some_iff] at h
  obtain ⟨⟨s₁, ret₁⟩, hdo, h⟩ := h
  obtain ⟨-, -, h⟩ := h
  obtain ⟨rfl, -⟩ := Prod.mk.inj (Option.some.inj h)
  split at hdo
  · next hret =>
    obtain ⟨rfl, -⟩ := Prod.mk.inj (Option.some.inj hdo)
    rw [if_pos hret, hheld]
    rfl
  · next hret =>
    rw [if_neg hret]
    simp only [Option.bind_eq_some_iff] at hdo
    obtain ⟨⟨s₂, ok⟩, hreq, hdo⟩ := hdo
    obtain ⟨hheld₂, -⟩ := requestFromUpstream_held hreq
    simp only [hheld, hnext] at hheld₂
    have hlast : s₁.held = s₂.held := by
      split at hdo
      · obtain ⟨rfl, -⟩ := Prod.mk.inj (Option.some.inj hdo)
        exact (s₂.allocFromBuffer_held bytes ha).1
      · obtain ⟨rfl, -⟩ := Prod.mk.inj (Option.some.inj hdo)
        rfl
    rw [hlast, hheld₂]
    rfl

/-- Before anything is given back, what is handed out is held. -/
theorem held_exec {w w' : World} {op : Op} (ha : op.Allowed w) (h : w.exec op = some w')
    (hop : ¬ op.GivesBack) :
    w'.held = obtainedBy w op ++ w.held := by
  cases op with
  | ofBuffer m buffer size =>
    obtain ⟨hres, hpos, -⟩ := ha
    have hw : w' = ⟨some ⟨⟨buffer, size⟩, 1024, ⟨0, 0, 0⟩, m, []⟩, ⟨buffer, size⟩, []⟩ := by
      simpa [World.exec, ofBuffer, guard, Nat.ne_of_gt hpos] using h.symm
    simp [hw, World.held, obtainedBy, hres]
  | ofSize m up initialBuffer =>
    obtain ⟨hres, hpos, -, -⟩ := ha
    simp only [World.exec, ofSize, Option.bind_eq_bind, Option.bind_eq_some_iff] at h
    obtain ⟨⟨s, ok⟩, ⟨-, -, hreq⟩, hw⟩ := h
    obtain ⟨hheld, hnone⟩ := requestFromUpstream_held hreq
    obtain rfl := Option.some.inj hw
    cases ok with
    | true => simpa [World.held, obtainedBy, hres] using hheld
    | false => simpa [World.held, obtainedBy, hres] using (hnone rfl)
  | allocate up bytes alignment =>
    obtain ⟨s, hres, hal, -, -⟩ := ha
    simp only [World.exec, hres, Option.bind_eq_bind, Option.bind_some,
      Option.bind_eq_some_iff] at h
    obtain ⟨⟨s', ret⟩, hrun, hw⟩ := h
    obtain rfl := Option.some.inj hw
    simpa [World.held, obtainedBy, hres] using allocate_held hal hrun
  | deallocate p bytes alignment =>
    obtain ⟨hres, -⟩ := ha
    obtain ⟨s, hres⟩ := Option.isSome_iff_exists.mp hres
    simp only [World.exec, deallocate, hres, Option.bind_eq_bind, Option.bind_some,
      Option.bind_eq_some_iff] at h
    obtain ⟨s', ⟨-, -, hs⟩, hw⟩ := h
    obtain rfl := Option.some.inj hs
    obtain rfl := Option.some.inj hw
    simp [World.held, obtainedBy, hres]
  | write a v =>
    obtain ⟨hres, -⟩ := ha
    obtain ⟨s, hres⟩ := Option.isSome_iff_exists.mp hres
    simp only [World.exec, hres, Option.bind_eq_bind, Option.bind_some] at h
    obtain rfl := Option.some.inj h
    simp [World.held, obtainedBy, hres]
  | release give => exact absurd trivial hop
  | destroy give => exact absurd trivial hop

structure TracedInv (t : Traced) : Prop where
  inv : t.world.Inv
  obtained : t.obtained = t.world.held
  returned : t.returned = []

theorem TracedInv.step {t t' : Traced} {op : Op} (hi : TracedInv t) (h : TracedStep t op t')
    (hop : ¬ op.GivesBack) : TracedInv t' := by
  obtain ⟨⟨hfits, hallowed, hexec⟩, hobtained, hreturned⟩ := h
  obtain ⟨w', hexec', hclean, -⟩ := hi.inv.exec_spec hallowed hfits
  obtain rfl := Option.some.inj (hexec.symm.trans hexec')
  refine ⟨hclean ?_, ?_, ?_⟩
  · cases op with
    | release give => exact absurd trivial hop
    | _ => trivial
  · rw [hobtained, hi.obtained, held_exec hallowed hexec hop]
  · rw [hreturned, hi.returned]
    cases op with
    | release give => exact absurd trivial hop
    | destroy give => exact absurd trivial hop
    | _ => rfl

theorem TracedInv.run {ops : List Op} {t : Traced} (h : Run TracedStep Traced.start ops t)
    (hops : ∀ op ∈ ops, ¬ op.GivesBack) :
    TracedInv t := by
  induction h with
  | nil => exact ⟨start_inv, rfl, rfl⟩
  | snoc _ hstep ih =>
    have ht := ih fun op hop => hops op (List.mem_append_left _ hop)
    exact ht.step hstep (hops _ (by simp))

/-- The blocks that are held have different addresses. -/
theorem Inv.ptrs_nodup {user : Region} {live : List Grant} {s : Monotonic} (h : Inv user live s) :
    (s.held.map Grant.ptr).Nodup := by
  refine List.pairwise_map.mpr ((List.Pairwise.and_mem.mp h.apart).imp ?_)
  intro g g' hgg heq
  obtain ⟨hg, hg', hd⟩ := hgg
  obtain ⟨-, -, -, hsize, -⟩ := h.blocks g hg
  obtain ⟨-, -, -, hsize', -⟩ := h.blocks g' hg'
  have hpos : 0 < sizeofBlockInfo := by decide
  simp only [Region.Disjoint, Region.stop, region] at hd
  omega

/-- `release` and the destructor return, and have then given back each block that was obtained once,
as it was obtained, and nothing else. -/
theorem blocks_given_back_once {ops : List Op} {t : Traced} (h : Run TracedStep Traced.start ops t)
    (hops : ∀ op ∈ ops, ¬ op.GivesBack) {last : Op} (hlast : last.GivesBack)
    (ha : last.Allowed t.world) :
    ∃ t', TracedStep t last t' ∧ t'.obtained = t.obtained ∧ t'.returned = t'.obtained ∧
    (t'.obtained.map Grant.ptr).Nodup := by
  have hi := TracedInv.run h hops
  have hfits : last.Fits t.world := by
    cases last with
    | release give => trivial
    | destroy give => trivial
    | _ => exact hlast.elim
  obtain ⟨w', hexec, -, -⟩ := hi.inv.exec_spec ha hfits
  have hfreed : obtainedBy t.world last = [] ∧ ∃ s, t.world.res = some s ∧
      returnedBy t.world last = s.held := by
    cases last with
    | release give =>
      obtain ⟨hres, hgive⟩ := ha
      obtain ⟨s, hres⟩ := Option.isSome_iff_exists.mp hres
      obtain ⟨m, hrel⟩ := (hi.inv s hres).release_spec hgive
      exact ⟨rfl, s, hres, by simp [returnedBy, hres, hrel]⟩
    | destroy give =>
      obtain ⟨hres, hgive⟩ := ha
      obtain ⟨s, hres⟩ := Option.isSome_iff_exists.mp hres
      obtain ⟨m, hrel⟩ := (hi.inv s hres).release_spec hgive
      exact ⟨rfl, s, hres, by simp [returnedBy, hres, hrel]⟩
    | _ => exact hlast.elim
  obtain ⟨hnone, s, hres, hback⟩ := hfreed
  have hheld : t.obtained = s.held := by
    rw [hi.obtained, World.held, hres]
    rfl
  refine ⟨⟨w', t.obtained, s.held⟩, ⟨⟨hfits, ha, hexec⟩, ?_, ?_⟩, rfl, hheld.symm, ?_⟩
  · rw [hnone]
    rfl
  · rw [hi.returned, hback]
    rfl
  · rw [hheld]
    exact (hi.inv s hres).ptrs_nodup

/-- A resource with a first block of 64 bytes, at 4096. -/
def oneBlock : World :=
  ⟨some ⟨⟨4096, 64⟩, 128, ⟨4096, 64, 16⟩, storeInfo (fun _ => 0) 4160 ⟨0, 0, 0⟩, [⟨4096, 88, 16⟩]⟩,
    ⟨0, 0⟩, []⟩

/-- It is destroyed after an allocation of 100 bytes, for which a second block was obtained. -/
theorem two_blocks_given_back :
    ∃ (ops : List Op) (t t' : Traced), Run TracedStep Traced.start ops t ∧
    TracedStep t (.destroy fun m _ => m) t' ∧
    t'.obtained = [⟨8192, 152, 16⟩, ⟨4096, 88, 16⟩] ∧ t'.returned = t'.obtained := by
  have ha₁ : Op.Allowed World.start (.ofSize (fun _ => 0) (fun _ _ => some 4096) 64) := by
    refine ⟨rfl, by decide, by decide, ?_⟩
    intro p hp
    obtain rfl := Option.some.inj hp
    exact ⟨by decide, by decide, by decide, by decide, by simp⟩
  have hf₁ : Op.Fits World.start (.ofSize (fun _ => 0) (fun _ _ => some 4096) 64) :=
    (by decide : sizeofBlockInfo + 64 < addressSpace)
  have hr₁ :
      Run TracedStep Traced.start [.ofSize (fun _ => 0) (fun _ _ => some 4096) 64]
        ⟨oneBlock, [⟨4096, 88, 16⟩], []⟩ :=
    .single ⟨⟨hf₁, ha₁, rfl⟩, rfl, rfl⟩
  have ha₂ : Op.Allowed oneBlock (.allocate (fun _ _ => some 8192) 100 8) := by
    refine ⟨_, rfl, by decide, by decide, ?_⟩
    intro _ p hp
    obtain rfl := Option.some.inj hp
    refine ⟨by decide, by decide, by decide, by decide, ?_⟩
    intro g hg
    rw [List.mem_singleton.mp hg]
    exact Or.inl (by decide : 4096 + 88 ≤ 8192)
  have hf₂ : Op.Fits oneBlock (.allocate (fun _ _ => some 8192) 100 8) := by
    intro s hs _
    obtain rfl := Option.some.inj hs
    exact (by decide : sizeofBlockInfo + 128 < addressSpace)
  have hr₂ : Run TracedStep Traced.start _ ⟨_, [⟨8192, 152, 16⟩, ⟨4096, 88, 16⟩], []⟩ :=
    hr₁.snoc ⟨⟨hf₂, ha₂, rfl⟩, rfl, rfl⟩
  have hback : (Op.destroy fun m _ => m).GivesBack := trivial
  obtain ⟨t', hstep, hobtained, hreturned, -⟩ :=
    blocks_given_back_once hr₂ (by simp [Op.GivesBack]) hback
    ⟨rfl, fun m r => Outside.refl _ m⟩
  exact ⟨_, _, t', hr₂, hstep, hobtained, hreturned⟩

end Gpcl.Pmr.Monotonic
