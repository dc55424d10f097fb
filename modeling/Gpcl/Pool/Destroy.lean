import Gpcl.Pool.Use

/-! # The destructor

After every run the chain of trailers leads through the obtained blocks, newest
first. The destructor reads each trailer before it gives the block back, and a
block given back takes no other trailer with it. -/
namespace Gpcl.Pool
open Lib.Memory Lib.Chain Lib.Runs

theorem Blocks.tail {r : Region} {bs : List Region} (h : Blocks (r :: bs)) : Blocks bs :=
  ⟨fun r' hr' => h.placed r' (List.mem_cons_of_mem _ hr'), (List.pairwise_cons.mp h.apart).2⟩

/-- Blocks that do not overlap start at different addresses. -/
theorem Blocks.nodup {bs : List Region} (h : Blocks bs) : (bs.map Region.base).Nodup := by
  refine List.pairwise_map.mpr (h.apart.imp_of_mem fun {a b} ha hb hd he => ?_)
  have hza := (h.placed a ha).2.2
  have hzb := (h.placed b hb).2.2
  have h0 : 0 < sizeofBlockInfo := by decide
  unfold Region.Disjoint Region.stop at hd
  omega

/-- The loop frees the blocks of its chain and ends. -/
theorem destroyLoop_spec {release : Mem → Region → Mem} (hr : ∀ m r, Outside [r] m (release m r)) :
    ∀ {bs : List Region} {m : Mem} {b : BlockInfo}, Blocks bs →
      Path (nextInfo m) ⟨0, 0⟩ b (bs.map info) ⟨0, 0⟩ →
      destroyLoop release m b = some (bs.map Region.base)
  | [], m, b, _, hp => by
    obtain rfl : b = ⟨0, 0⟩ := hp
    rw [destroyLoop, if_pos rfl, List.map_nil]
  | r :: bs, m, b, hbs, hp => by
    obtain ⟨hb, -, hp⟩ := hp
    have hb' : b = info r := hb
    subst hb'
    have hpos : (info r).ptr ≠ 0 := Nat.ne_of_gt (hbs.placed r List.mem_cons_self).1
    -- the trailers of the blocks still to be freed lie outside the block given back
    have hp' := chain_outside hp (hr m r) fun r' hr' a ha => by
      obtain rfl := List.mem_singleton.mp ha
      obtain ⟨-, hs', hz'⟩ := hbs.placed r' (List.mem_cons_of_mem _ hr')
      exact (((List.pairwise_cons.mp hbs.apart).1 r' hr').mono (.refl _)
        (trailer_inside hz' hs')).symm
    have hrest := destroyLoop_spec hr hbs.tail hp'
    rw [destroyLoop, if_neg hpos, List.map_cons]
    simp only [info] at hrest ⊢
    simp [hrest]

/-- **After every run the destructor frees exactly the obtained blocks, each once.** -/
theorem destroy_frees_obtained {requestedSize : Nat} {m : Mem} {s : Pool} {ops : List Op}
    {w : World} (h0 : new requestedSize m = some s) (h : Run Step ⟨s, []⟩ ops w)
    {release : Mem → Region → Mem} (hr : ∀ m r, Outside [r] m (release m r)) :
    (∀ op : Op, op.Allowed w → ∃ w' p, w.exec op = some (w', p)) ∧
      w.pool.destroy release = some (w.pool.obtained.map Region.base) ∧
      (w.pool.obtained.map Region.base).Nodup := by
  obtain ⟨l, hl⟩ := inv_run h0 h
  refine ⟨fun op ha => ?_, destroyLoop_spec hr hl.blocks hl.chain, hl.blocks.nodup⟩
  obtain ⟨w', p, -, hrun, -⟩ := hl.exec_spec ha
  exact ⟨w', p, hrun⟩

/-- A pool of objects of 24 bytes obtains a block; the user allocator overwrites what it
takes back. -/
theorem destroy_frees_one_block : ∃ s w, new 24 (fun _ => 0) = some s ∧
    Run Step ⟨s, []⟩ [.malloc fun _ => 4096] w ∧
    w.pool.destroy (fun m r x => if r.Contains x then 255 else m x) =
      some (w.pool.obtained.map Region.base) ∧ (w.pool.obtained.map Region.base).Nodup := by
  have hnew : new 24 (fun _ => 0) = some ⟨24, 24, 32, ⟨0, 0⟩, ⟨fun _ => 0, 0⟩, []⟩ := rfl
  have hgrow : growSize (24 + sizeofBlockInfo * 2) (32 * 24) = some 768 := by
    rw [growSize, if_neg (by decide)]
  have ha : Op.Allowed ⟨⟨24, 24, 32, ⟨0, 0⟩, ⟨fun _ => 0, 0⟩, []⟩, []⟩ (.malloc fun _ => 4096) := by
    refine fun _ => ⟨⟨0, by decide, by decide⟩, fun sz hsz _ => ⟨?_, by simp⟩⟩
    obtain rfl := Option.some.inj (hgrow.symm.trans hsz)
    decide
  obtain ⟨w, p, l, he, -⟩ := (inv_new hnew).exec_spec (w := ⟨_, []⟩) ha
  have hrun := Run.single (show Step _ _ w from ⟨ha, p, he⟩)
  refine ⟨_, w, hnew, hrun, (destroy_frees_obtained hnew hrun fun m r x hx => ?_).2⟩
  exact if_neg (hx r (List.mem_singleton_self r))

end Gpcl.Pool
