import Gpcl.Pool.Reach

/-! # A pool and the memory of its clients

What clients write to the objects they hold, and anywhere outside the blocks, leaves the pool
alone. `malloc` leaves all blocks alone that the pool had, and `free` all but the chunk that is
given back. -/
namespace Gpcl.Pool
open Lib.Memory Lib.Chain
open Storage (chunks chunk grant held)

section
variable {s s' : Pool} {live : List (Nat × Nat)} {l : List Nat} {ua : Nat → Nat} {p : Nat}

/-- A byte of a run of chunks is a byte of one of them. -/
theorem contains_grant {psz x : Nat} {g : Nat × Nat} (h0 : 0 < psz)
    (hx : (grant psz g).Contains x) :
    ∃ c ∈ chunks psz g.1 g.2, (chunk psz c).Contains x := by
  obtain ⟨hlo, hhi⟩ := hx
  simp only [grant, Region.stop] at hlo hhi
  have hdiv := Nat.div_add_mod (x - g.1) psz
  have hmod := Nat.mod_lt (x - g.1) h0
  refine ⟨g.1 + (x - g.1) / psz * psz,
    Storage.mem_chunks.mpr ⟨_, (Nat.div_lt_iff_lt_mul h0).mpr (by omega), rfl⟩, ?_⟩
  rw [Nat.mul_comm] at hdiv
  simp only [Region.Contains, Region.stop, chunk]
  omega

/-- The bytes of the allocations, and what is not in the blocks, are no concern of the pool. -/
theorem Inv.overwrite (h : Inv s live l) {m : Mem} (hm : ∀ x, (∃ r ∈ s.obtained, r.Contains x) →
      (∀ g ∈ live, ¬ Region.Contains ⟨g.1, s.countOf g.2 * s.chunkSize⟩ x) →
      m x = s.storage.mem x) : Inv { s with storage.mem := m } live l := by
  have hgrant : ∀ x, (∀ g ∈ (s.view live).live, ¬ (grant s.chunkSize g).Contains x) →
      ∀ g ∈ live, ¬ Region.Contains ⟨g.1, s.countOf g.2 * s.chunkSize⟩ x := by
    intro x hx g hg
    exact hx _ (List.mem_map_of_mem hg)
  have hstorage := h.storage.overwrite h.sizes.2.2 (m := m) fun x hx hno => by
    obtain ⟨a, ha, hxa⟩ := hx
    obtain ⟨r, hr, rfl⟩ := List.mem_map.mp ha
    obtain ⟨-, hs, hz⟩ := h.blocks.placed r hr
    exact hm x ⟨r, hr, (chunkArea_inside hz hs).contains hxa⟩ (hgrant x hno)
  refine ⟨hstorage, h.sizes, h.counts, ?_, h.blocks, h.small, h.roomy, h.cut⟩
  refine h.chain.congr fun i hi => ?_
  obtain ⟨r, hr, rfl⟩ := List.mem_map.mp hi
  obtain ⟨-, hs, hz⟩ := h.blocks.placed r hr
  -- a trailer lies in its block, and no allocation reaches into it
  have htrailer : ∀ x, (trailer r).Contains x → m x = s.storage.mem x := by
    intro x hx
    refine hm x ⟨r, hr, (trailer_inside hz hs).contains hx⟩ fun g hg hxg => ?_
    have hxg' : (grant s.chunkSize (g.1, s.countOf g.2)).Contains x := hxg
    obtain ⟨c, hc, hxc⟩ := contains_grant h.chunkSize_pos hxg'
    have hheld : c ∈ l ++ held s.chunkSize (s.view live).live :=
      List.mem_append_right _ (List.mem_flatMap.mpr ⟨_, List.mem_map_of_mem hg, hc⟩)
    obtain ⟨a, ha, hin⟩ := h.storage.laid.inside c hheld
    obtain ⟨r', hr', rfl⟩ := List.mem_map.mp ha
    have hd := h.blocks.trailer_apart hr hr'
    have hxa := hin.contains hxc
    simp only [Region.Disjoint, Region.Contains] at hd hx hxa
    omega
  have hword : ∀ a, (trailer r).base ≤ a → a + wordSize ≤ (trailer r).stop →
      loadWord m a = loadWord s.storage.mem a :=
    fun a hlo hhi => loadWord_congr fun x hx hx' => htrailer x ⟨by omega, by omega⟩
  have hsize : (trailer r).stop = (trailer r).base + wordSize + wordSize := rfl
  rw [nextInfo, nextInfo, loadInfo, loadInfo]
  have h1 := hword (r.base + blockInfoOffset r.size) (Nat.le_refl _)
    (by rw [hsize]; exact Nat.le_add_right _ _)
  have h2 := hword (r.base + blockInfoOffset r.size + wordSize) (Nat.le_add_right _ _)
    (Nat.le_of_eq hsize.symm)
  simp only [info, h1, h2]

/-! ## Single objects -/

section
variable {objs : List Nat}

theorem Inv.view_objects (h : Inv s (objs.map (·, 1)) l) :
    (s.view (objs.map (·, 1))).live = objs.map (·, 1) := by
  simp [view, countOf_one h.sizes.1 h.sizes.2.1]

theorem Inv.held_objects (h : Inv s (objs.map (·, 1)) l) :
    held s.chunkSize (s.view (objs.map (·, 1))).live = objs := by
  rw [h.view_objects, held, List.flatMap_map]
  simp [chunks]

/-- Each object has a chunk in a block. -/
theorem Inv.object_placed (h : Inv s (objs.map (·, 1)) l) (hp : p ∈ objs) :
    0 < p ∧ ∃ r ∈ s.obtained, Region.Inside ⟨p, s.chunkSize⟩ r := by
  have hmem : p ∈ l ++ held s.chunkSize (s.view (objs.map (·, 1))).live := by
    rw [h.held_objects]
    exact List.mem_append_right l hp
  obtain ⟨a, ha, hin⟩ := h.storage.laid.inside p hmem
  obtain ⟨r, hr, rfl⟩ := List.mem_map.mp ha
  obtain ⟨-, hs, hz⟩ := h.blocks.placed r hr
  have harea := chunkArea_inside hz hs
  exact ⟨(h.storage.chunk_placed hmem).1, r, hr, Nat.le_trans harea.1 hin.1,
    Nat.le_trans hin.2 harea.2⟩

/-- The chunks of the objects do not overlap. -/
theorem Inv.objects_apart (h : Inv s (objs.map (·, 1)) l) :
    objs.Pairwise fun p q => Region.Disjoint ⟨p, s.chunkSize⟩ ⟨q, s.chunkSize⟩ := by
  have hs := h.storage.laid.spread
  rw [h.held_objects] at hs
  exact (List.pairwise_append.mp hs).2.1

/-- What changes in the chunks of the objects is no concern of the pool. -/
theorem Inv.overwrite_objects (h : Inv s (objs.map (·, 1)) l) {m : Mem}
    (hm : ∀ x, (∃ r ∈ s.obtained, r.Contains x) →
      (∀ p ∈ objs, ¬ Region.Contains ⟨p, s.chunkSize⟩ x) → m x = s.storage.mem x) :
    Inv { s with storage.mem := m } (objs.map (·, 1)) l := by
  refine h.overwrite fun x hx hno => hm x hx fun p hp hpx => ?_
  refine hno (p, 1) (List.mem_map_of_mem hp) ?_
  rw [countOf_one h.sizes.1 h.sizes.2.1, Nat.one_mul]
  exact hpx

end

/-! ## What the methods write -/

/-- A new block, added in front, is written to in that block alone. -/
theorem addBlock_outside {r : Region} {stop i : BlockInfo}
    (hempty : Storage.Threads s.chunkSize s.storage []) (h8 : wordSize ≤ s.chunkSize)
    (hpos : 0 < r.base) (hstop : r.stop < addressSpace) (hz : sizeofBlockInfo ≤ r.size)
    (hc : s.chunkSize ≤ blockInfoOffset r.size)
    (hrun : s.addBlock r.base r.size stop false = some (s', i)) :
    Outside [r] s.storage.mem s'.storage.mem := by
  have harea := chunkArea_inside hz hstop
  obtain ⟨st, hadd, -, ho⟩ :=
    Storage.addBlock_spec h8 hempty hpos hc (Nat.lt_of_le_of_lt harea.2 hstop) (by simp)
  simp only [addBlock, hadd, Bool.false_eq_true, if_false, Option.bind_eq_bind, Option.bind_some,
    Option.pure_def, Option.some.injEq, Prod.mk.injEq] at hrun
  obtain ⟨rfl, -⟩ := hrun
  refine Outside.trans (ho.mono fun a ha => ?_)
    ((outside_storeInfo st.mem r stop).mono fun a ha => ?_)
  · rw [List.mem_singleton.mp ha]
    exact ⟨r, List.mem_singleton_self r, harea⟩
  · rw [List.mem_singleton.mp ha]
    exact ⟨r, List.mem_singleton_self r, trailer_inside hz hstop⟩

/-- A pool without a free chunk that is given a block returns a chunk of it. -/
theorem Inv.malloc_served (h : Inv s live l) (hsmall : s.Counts 1)
    (hfit : s.chunkSize + sizeofBlockInfo * 2 < addressSpace) (he : s.storage.empty = true)
    {k : Nat} (hk : s.AsksAt s.chunkSize k) (hans : s.Answer ua (s.doubled k))
    (hz : ua (s.doubled k) ≠ 0) :
    ∃ s' p, s.malloc ua = some (s', p) ∧ p ≠ 0 := by
  obtain ⟨h0, -⟩ | ⟨-, s₁, hreq, hne, -, -, -, -, -, hi⟩ :=
    h.requestAt_spec ua false hsmall (Nat.le_refl _) hfit hk hans
  · exact absurd h0 hz
  · obtain ⟨st, p, l', hm, hp, -⟩ := hi.mallocFromStorage_spec hne
    refine ⟨{ s₁ with storage := st }, p, ?_, hp⟩
    rw [malloc, mallocOne, if_pos he, hreq]
    exact hm

/-- One that is refused a block returns null. -/
theorem Inv.malloc_refused (h : Inv s live l) (hsmall : s.Counts 1)
    (hfit : s.chunkSize + sizeofBlockInfo * 2 < addressSpace) (he : s.storage.empty = true)
    {k : Nat} (hk : s.AsksAt s.chunkSize k)
    (hz : ua (s.doubled k) = 0) : ∃ s', s.malloc ua = some (s', 0) := by
  obtain ⟨-, hreq, -⟩ | ⟨hne, -⟩ :=
    h.requestAt_spec ua false hsmall (Nat.le_refl _) hfit hk fun hne => absurd hz hne
  · refine ⟨{ s with nextSize := s.nextSize * 2 % addressSpace }, ?_⟩
    rw [malloc, mallocOne, if_pos he, hreq]
    rfl
  · exact absurd hz hne

/-- A request leaves the blocks that the pool had. -/
theorem Inv.request_keeps (h : Inv s live l)
    (hfit : s.chunkSize + sizeofBlockInfo * 2 < addressSpace) (he : s.storage.empty = true)
    (hoff : s.Offers ua s.chunkSize) {ok : Bool}
    (hrun : s.requestNewBlock ua s.chunkSize false = some (s', ok)) :
    (∀ r ∈ s.obtained, r ∈ s'.obtained) ∧ ∀ x, (∃ r ∈ s.obtained, r.Contains x) →
    s'.storage.mem x = s.storage.mem x := by
  obtain ⟨k, hk, ⟨-, -, rfl⟩ | ⟨hz, -, t, i, hadd, rfl⟩⟩ := requestNewBlock_cases hrun
  · exact ⟨fun r hr => hr, fun x _ => rfl⟩
  · have hge := hk.1
    rw [target_eq hfit] at hge
    obtain ⟨h16, hc⟩ := chunks_fit_size (Nat.le_refl s.chunkSize) hge (mod_addressSpace_lt _)
    obtain ⟨hstop, hd⟩ := hoff k hk hz
    have hnil : l = [] := by
      have hz : s.storage.freeList = 0 := by simpa [Storage.empty] using he
      cases l with
      | nil => rfl
      | cons c l => exact absurd hz (Path.head_ne_null h.storage.threads.path)
    subst hnil
    have ho := addBlock_outside (s := s.recorded ⟨ua (s.doubled k), s.doubled k⟩)
      (r := ⟨ua (s.doubled k), s.doubled k⟩)
      h.storage.threads h.sizes.2.2 (Nat.pos_of_ne_zero hz) hstop h16 (Nat.le_of_lt hc) hadd
    obtain ⟨st, rfl⟩ := addBlock_cases hadd
    refine ⟨fun r hr => List.mem_cons_of_mem _ hr, fun x hx => ho x fun r hr hxr => ?_⟩
    obtain ⟨r', hr', hxr'⟩ := hx
    have hd' := hd r' hr'
    rw [List.mem_singleton.mp hr] at hxr
    simp only [Region.Disjoint, Region.Contains] at hd' hxr hxr'
    omega

/-- `malloc` changes nothing in the blocks that the pool had. -/
theorem Inv.malloc_keeps (h : Inv s live l)
    (hfit : s.chunkSize + sizeofBlockInfo * 2 < addressSpace)
    (hoff : s.storage.empty = true → s.Offers ua s.chunkSize) (hrun : s.malloc ua = some (s', p)) :
    (∀ r ∈ s.obtained, r ∈ s'.obtained) ∧ ∀ x, (∃ r ∈ s.obtained, r.Contains x) →
    s'.storage.mem x = s.storage.mem x := by
  obtain ⟨-, hm⟩ | ⟨he, t, ok, hreq, hm⟩ := mallocOne_cases hrun
  · obtain ⟨st, -, hmem, rfl⟩ := mallocFromStorage_cases hm
    exact ⟨fun r hr => hr, fun x _ => congrFun hmem x⟩
  · obtain ⟨hold, hkeep⟩ := h.request_keeps hfit he (hoff he) hreq
    cases ok with
    | false =>
      obtain ⟨rfl, -⟩ := Prod.mk.inj (Option.some.inj hm)
      exact ⟨hold, hkeep⟩
    | true =>
      obtain ⟨st, -, hmem, rfl⟩ := mallocFromStorage_cases hm
      exact ⟨hold, fun x hx => (congrFun hmem x).trans (hkeep x hx)⟩

/-- `free` writes the first word of the chunk. -/
theorem Inv.free_object {objs : List Nat} (h : Inv s (objs.map (·, 1)) l) (hp : p ∈ objs) :
    ∃ st l', s.free p = some { s with storage := st } ∧
    Outside [⟨p, wordSize⟩] s.storage.mem st.mem ∧
      Inv { s with storage := st } ((objs.erase p).map (·, 1)) l' := by
  have hone := countOf_one h.sizes.1 h.sizes.2.1
  obtain ⟨st, q, l', hrun, -, hi⟩ := h.free_spec (.free p) (n := 1) (List.mem_map_of_mem hp)
    (fun hm => by rw [hone] at hm; exact hm) (fun _ => rfl) fun _ => by rw [hone]; rfl
  obtain ⟨st', hst, he⟩ := Option.map_eq_some_iff.mp hrun
  obtain rfl := (Prod.mk.inj he).1
  have hinj : Function.Injective fun q : Nat => (q, 1) := fun a b he => (Prod.mk.inj he).1
  refine ⟨st', l', by simp [free, hst], ?_, by rwa [List.map_erase hinj]⟩
  simp only [Storage.free, Storage.set, Option.bind_eq_bind, Option.bind_eq_some_iff,
    Option.pure_def, Option.some.injEq] at hst
  obtain ⟨_, -, rfl⟩ := hst
  exact Outside.storeWord ⟨_, List.mem_singleton_self _, .refl _⟩

end

end Gpcl.Pool
