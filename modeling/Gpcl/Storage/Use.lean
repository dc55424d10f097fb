import Mathlib.Data.List.Perm.Subperm
import Gpcl.Lib.Runs
import Gpcl.Storage.Spec

/-! # A storage in use

A `World` is a storage together with what its clients know: the blocks that were
added and the runs of chunks that are handed out. An operation is allowed when
its documented precondition holds; clients may also write to the bytes of the
chunks they hold. `Inv` is the invariant of every run of allowed operations:
the free chunks and the chunks handed out are pairwise disjoint and lie inside
the added blocks. -/
namespace Gpcl.Storage
open Lib.Memory Lib.Chain Lib.Runs

structure World where
  st : Storage
  blocks : List Region
  live : List (Nat × Nat)

/-- A default-constructed storage: no block, whatever the memory holds. -/
def World.start (m : Mem) : World := ⟨⟨m, 0⟩, [], []⟩

inductive Op
  | addBlock (block sz : Nat)
  | addOrderedBlock (block sz : Nat)
  | malloc
  | mallocN (n : Nat)
  | free (p : Nat)
  | freeN (p n : Nat)
  | orderedFree (p : Nat)
  | orderedFreeN (p n : Nat)
  | write (a : Nat) (v : UInt8)
deriving DecidableEq, Repr

/-- The bytes of a run of chunks that was handed out. -/
def grant (psz : Nat) (g : Nat × Nat) : Region := ⟨g.1, g.2 * psz⟩

/-- The preconditions: a new block is a region of the address space, large enough and
disjoint from the blocks added before; `malloc` needs a free chunk; what is freed
was handed out; a client writes to what it holds. -/
def Op.Allowed (psz : Nat) (w : World) : Op → Prop
  | .addBlock block sz | .addOrderedBlock block sz =>
    0 < block ∧ psz ≤ sz ∧ block + sz < addressSpace ∧ ∀ r ∈ w.blocks, Region.Disjoint ⟨block, sz⟩ r
  | .malloc => w.st.empty = false
  | .mallocN n => n < addressSpace
  | .free p | .orderedFree p => (p, 1) ∈ w.live
  | .freeN p n | .orderedFreeN p n => (p, n) ∈ w.live
  | .write a _ => ∃ g ∈ w.live, (grant psz g).Contains a

/-- What an operation does to the storage, and the pointer it returns (null if none). -/
def Op.run (psz : Nat) (st : Storage) : Op → Option (Storage × Nat)
  | .addBlock block sz => (st.addBlock block sz psz).map (·, 0)
  | .addOrderedBlock block sz => (st.addOrderedBlock block sz psz).map (·, 0)
  | .malloc => st.malloc
  | .mallocN n => st.mallocN n psz
  | .free p => (st.free p).map (·, 0)
  | .freeN p n => (st.freeN p psz n).map (·, 0)
  | .orderedFree p => (st.orderedFree p).map (·, 0)
  | .orderedFreeN p n => (st.orderedFreeN p n psz).map (·, 0)
  | .write a v => some ({ st with mem := Function.update st.mem a v }, 0)

def Op.blocksAfter : Op → List Region → List Region
  | .addBlock block sz, blocks | .addOrderedBlock block sz, blocks => ⟨block, sz⟩ :: blocks
  | _, blocks => blocks

/-- The runs handed out after an operation that returned `p`. -/
def Op.liveAfter : Op → Nat → List (Nat × Nat) → List (Nat × Nat)
  | .malloc, p, live => (p, 1) :: live
  | .mallocN n, p, live => if p = 0 then live else (p, n) :: live
  | .free p, _, live | .orderedFree p, _, live => live.erase (p, 1)
  | .freeN p n, _, live | .orderedFreeN p n, _, live => live.erase (p, n)
  | _, _, live => live

def World.exec (psz : Nat) (w : World) (op : Op) : Option (World × Nat) := do
  let (st, p) ← op.run psz w.st
  pure (⟨st, op.blocksAfter w.blocks, op.liveAfter p w.live⟩, p)

/-- The free list of `st` is `l`: its links lead through the chunks of `l` to null. -/
def FreeChunks (st : Storage) (l : List Nat) : Prop := Path st.nextChunk 0 st.freeList l 0

/-- An allowed operation that returns. -/
def Step (psz : Nat) (w : World) (op : Op) (w' : World) : Prop :=
  op.Allowed psz w ∧ ∃ p, w.exec psz op = some (w', p)

/-- The chunks that are handed out. -/
def held (psz : Nat) (live : List (Nat × Nat)) : List Nat :=
  live.flatMap fun g => chunks psz g.1 g.2

/-- The chunks of a list lie in the blocks and do not overlap one another. -/
structure Laid (psz : Nat) (blocks : List Region) (cs : List Nat) : Prop where
  spread : Spread psz cs
  inside : ∀ c ∈ cs, ∃ r ∈ blocks, (chunk psz c).Inside r

structure Inv (psz : Nat) (w : World) (l : List Nat) : Prop where
  threads : Threads psz w.st l
  laid : Laid psz w.blocks (l ++ held psz w.live)
  pos : ∀ g ∈ w.live, 0 < g.2
  placed : ∀ r ∈ w.blocks, 0 < r.base ∧ r.stop < addressSpace

/-! ## Lists of chunks -/

theorem Spread.perm {psz : Nat} {l l' : List Nat} (h : l.Perm l') : Spread psz l ↔ Spread psz l' :=
  h.pairwise_iff Region.Disjoint.symm

theorem Laid.mono {psz : Nat} {blocks : List Region} {cs cs' : List Nat} (h : Laid psz blocks cs)
    (hs : cs'.Subperm cs) : Laid psz blocks cs' := by
  obtain ⟨ds, hp, hsub⟩ := hs
  refine ⟨(Spread.perm hp).mp (h.spread.sublist hsub), fun c hc => h.inside c ?_⟩
  exact hsub.subset (hp.mem_iff.mpr hc)

theorem chunks_add (psz : Nat) :
    ∀ b i j, chunks psz b (i + j) = chunks psz b i ++ chunks psz (b + i * psz) j
  | b, 0, j => by simp [chunks]
  | b, i + 1, j => by
    rw [Nat.succ_add, chunks, chunks, chunks_add psz (b + psz) i j, List.cons_append]
    congr 3
    rw [Nat.succ_mul]; omega

theorem chunks_sublist {psz b i n : Nat} (h : i ≤ n) :
    (chunks psz b i).Sublist (chunks psz b n) := by
  obtain ⟨j, rfl⟩ := Nat.exists_eq_add_of_le h
  rw [chunks_add]
  exact List.sublist_append_left _ _

theorem held_erase (psz : Nat) {live : List (Nat × Nat)} {g : Nat × Nat} (h : g ∈ live) :
    (held psz live).Perm (chunks psz g.1 g.2 ++ held psz (live.erase g)) := by
  have := (List.perm_cons_erase h).flatMap_right (fun g => chunks psz g.1 g.2)
  simpa [held] using this

/-- A chunk that meets none of the chunks of a run does not meet their region. -/
theorem disjoint_grant {psz c : Nat} (h0 : 0 < psz) : ∀ {n p : Nat}, 0 < n →
    (∀ d ∈ chunks psz p n, (chunk psz c).Disjoint (chunk psz d)) →
    (chunk psz c).Disjoint (grant psz (p, n))
  | 1, p, _, h => by simpa [grant, chunk] using h p (by simp [chunks])
  | n + 2, p, _, h => by
    have h1 := h p (by simp [chunks])
    have h2 := disjoint_grant (p := p + psz) h0 (Nat.succ_pos n) fun d hd =>
      h d (by rw [chunks]; simp [hd])
    simp only [Region.Disjoint, Region.stop, chunk, grant, Nat.succ_mul] at *
    omega

/-! ## One operation -/

/-- What an operation that returns `p` makes of the list of free chunks. -/
inductive Effect (psz : Nat) : Op → Nat → List Nat → List Nat → Prop
  | addBlock {block sz l} :
      Effect psz (.addBlock block sz) 0 l (chunks psz block (segCount sz psz) ++ l)
  | addOrderedBlock {block sz l} : Effect psz (.addOrderedBlock block sz) 0 l
      (orderedInsert block (chunks psz block (segCount sz psz)) l)
  | malloc {c l} : Effect psz .malloc c (c :: l) l
  | mallocNull {n l} : findRun n psz [] [] l = none → Effect psz (.mallocN n) 0 l l
  | mallocN {n p pre post} : 0 < n → p ≠ 0 →
      Effect psz (.mallocN n) p (pre ++ chunks psz p n ++ post) (pre ++ post)
  | free {p l} : Effect psz (.free p) 0 l (p :: l)
  | freeN {p n l} : Effect psz (.freeN p n) 0 l (chunks psz p (segCount (psz * n) psz) ++ l)
  | orderedFree {p l} : Effect psz (.orderedFree p) 0 l (orderedInsert p [p] l)
  | orderedFreeN {p n l} : Effect psz (.orderedFreeN p n) 0 l
      (orderedInsert p (chunks psz p (segCount (psz * n) psz)) l)
  | write {a v l} : Effect psz (.write a v) 0 l l

section
variable {psz : Nat} {w : World} {l : List Nat}

theorem Inv.chunk_placed (h : Inv psz w l) {c : Nat} (hc : c ∈ l ++ held psz w.live) :
    0 < c ∧ c + psz < addressSpace := by
  obtain ⟨r, hr, hi⟩ := h.laid.inside c hc
  have := h.placed r hr
  simp only [Region.Inside, Region.stop, chunk] at *
  omega

/-- A run that is handed out: no free chunk meets it, and it ends inside the address space. -/
theorem Inv.grant_placed (h : Inv psz w l) (h0 : 0 < psz) {g : Nat × Nat} (hg : g ∈ w.live) :
    0 < g.1 ∧ psz ≤ psz * g.2 ∧ g.1 + psz * g.2 < addressSpace ∧
      ∀ c ∈ l, (chunk psz c).Disjoint ⟨g.1, psz * g.2⟩ := by
  have hpos := h.pos g hg
  have hmem : ∀ d ∈ chunks psz g.1 g.2, d ∈ held psz w.live := fun d hd =>
    List.mem_flatMap.mpr ⟨g, hg, hd⟩
  obtain ⟨k, hk⟩ := Nat.exists_eq_succ_of_ne_zero (Nat.ne_of_gt hpos)
  have hfirst := h.chunk_placed (List.mem_append_right _ (hmem g.1 (by rw [hk]; simp [chunks])))
  have hlast := h.chunk_placed (List.mem_append_right _
    (hmem (g.1 + k * psz) (mem_chunks.mpr ⟨k, by omega, rfl⟩)))
  refine ⟨hfirst.1, Nat.le_mul_of_pos_right _ hpos, ?_, fun c hc => ?_⟩
  · rw [hk, Nat.mul_succ, Nat.mul_comm]; omega
  · rw [Nat.mul_comm]
    refine disjoint_grant h0 hpos fun d hd => ?_
    exact (List.pairwise_append.mp h.laid.spread).2.2 c hc d (hmem d hd)

theorem Inv.block_fresh (h : Inv psz w l) {block sz : Nat}
    (hd : ∀ r ∈ w.blocks, Region.Disjoint ⟨block, sz⟩ r) :
    ∀ c ∈ l ++ held psz w.live, (chunk psz c).Disjoint ⟨block, sz⟩ := by
  intro c hc
  obtain ⟨r, hr, hi⟩ := h.laid.inside c hc
  exact (hd r hr).symm.mono hi (.refl _)

/-- Chunks of the list and of runs handed out lie inside the blocks. -/
theorem Inv.inside_blocks (h : Inv psz w l) (cs : List Nat)
    (hcs : ∀ c ∈ cs, c ∈ l ++ held psz w.live) {r : Region}
    (hr : r ∈ cs.map (chunk psz)) : ∃ r' ∈ w.blocks, r.Inside r' := by
  obtain ⟨c, hc, rfl⟩ := List.mem_map.mp hr
  exact h.laid.inside c (hcs c hc)

/-- A region of whole chunks changes nothing but the bytes of these chunks. -/
theorem outside_chunks {m m' : Mem} {p n : Nat} {rs : List Region} (h0 : 0 < psz)
    (ho : Outside (⟨p, psz * n⟩ :: rs) m m') :
    Outside ((chunks psz p n).map (chunk psz) ++ rs) m m' := by
  intro x hx
  refine ho x fun r hr hc => ?_
  rcases List.mem_cons.mp hr with rfl | hr
  · simp only [Region.Contains, Region.stop] at hc
    have hi : (x - p) / psz < n := (Nat.div_lt_iff_lt_mul h0).mpr (by rw [Nat.mul_comm]; omega)
    have hm := Nat.div_add_mod (x - p) psz
    have hl := Nat.mod_lt (x - p) h0
    refine hx (chunk psz (p + (x - p) / psz * psz)) ?_ ?_
    · exact List.mem_append_left _ (List.mem_map_of_mem (mem_chunks.mpr ⟨_, hi, rfl⟩))
    · rw [Nat.mul_comm] at hm
      simp only [Region.Contains, Region.stop, chunk]
      omega
  · exact hx r (List.mem_append_right _ hr) hc

/-- Memory outside the blocks is no concern of the storage. -/
theorem Inv.frame (h : Inv psz w l) (h8 : wordSize ≤ psz) {m : Mem} {rs : List Region}
    (ho : Outside rs w.st.mem m) (hd : ∀ r ∈ rs, ∀ b ∈ w.blocks, r.Disjoint b) :
    Inv psz { w with st.mem := m } l := by
  refine ⟨⟨path_outside h8 h.threads.path ho fun c hc r hr => ?_, h.threads.spread, h.threads.fits⟩,
    h.laid, h.pos, h.placed⟩
  obtain ⟨b, hb, hi⟩ := h.laid.inside c (List.mem_append_left _ hc)
  exact ((hd r hr b hb).mono (.refl _) hi).symm

/-- The order of the runs handed out does not matter. -/
theorem Inv.perm_live (h : Inv psz w l) {live : List (Nat × Nat)} (hp : w.live.Perm live) :
    Inv psz { w with live } l := by
  have hheld : (held psz w.live).Perm (held psz live) := hp.flatMap_right _
  exact ⟨h.threads, h.laid.mono (hheld.symm.append_left l).subperm,
    fun g hg => h.pos g (hp.mem_iff.mpr hg), h.placed⟩

/-- The bytes of the runs that are handed out, and what is not in the blocks, are no concern of the
storage. -/
theorem Inv.overwrite (h : Inv psz w l) (h8 : wordSize ≤ psz) {m : Mem}
    (hm : ∀ x, (∃ r ∈ w.blocks, r.Contains x) → (∀ g ∈ w.live, ¬ (grant psz g).Contains x) →
      m x = w.st.mem x) :
    Inv psz { w with st.mem := m } l := by
  have h0 : 0 < psz := pos_of_wordSize_le h8
  refine ⟨⟨h.threads.path.congr fun c hc => ?_, h.threads.spread, h.threads.fits⟩, h.laid, h.pos,
    h.placed⟩
  refine loadWord_congr fun x hlo hhi => hm x ?_ fun g hg hx => ?_
  · obtain ⟨r, hr, hin⟩ := h.laid.inside c (List.mem_append_left _ hc)
    exact ⟨r, hr, hin.contains ⟨hlo, Nat.lt_of_lt_of_le hhi (Nat.add_le_add_left h8 c)⟩⟩
  · have hd := (h.grant_placed h0 hg).2.2.2 c hc
    rw [grant, Nat.mul_comm] at hx
    simp only [Region.Disjoint, Region.Contains, Region.stop, chunk] at hd hx
    omega

/-- Every allowed operation returns; it has its effect on the free list and changes
the memory of the blocks only. -/
theorem Inv.run_spec (h : Inv psz w l) (h8 : wordSize ≤ psz) {op : Op} (ha : op.Allowed psz w) :
    ∃ st p l', op.run psz w.st = some (st, p) ∧ Effect psz op p l l' ∧ Threads psz st l' ∧
      Outside (op.blocksAfter w.blocks) w.st.mem st.mem := by
  have h0 : 0 < psz := pos_of_wordSize_le h8
  have hfree : ∀ c ∈ l, c ∈ l ++ held psz w.live := fun c hc => List.mem_append_left _ hc
  cases op with
  | addBlock block sz =>
    obtain ⟨hb, hsz, hfit, hd⟩ := ha
    obtain ⟨st, hrun, ht, ho⟩ := addBlock_spec h8 h.threads hb hsz hfit
      fun c hc => h.block_fresh hd c (hfree c hc)
    refine ⟨st, 0, _, by simp [Op.run, hrun], .addBlock, ht, ho.mono fun r hr => ?_⟩
    exact ⟨r, by simp [Op.blocksAfter, List.mem_singleton.mp hr], .refl r⟩
  | addOrderedBlock block sz =>
    obtain ⟨hb, hsz, hfit, hd⟩ := ha
    obtain ⟨st, hrun, ht, ho⟩ := addOrderedBlock_spec h8 h.threads hb hsz hfit
      fun c hc => h.block_fresh hd c (hfree c hc)
    refine ⟨st, 0, _, by simp [Op.run, hrun], .addOrderedBlock, ht, ho.mono fun r hr => ?_⟩
    rcases List.mem_cons.mp hr with rfl | hr
    · exact ⟨_, by simp [Op.blocksAfter], .refl _⟩
    · obtain ⟨r', hr', hi⟩ := h.inside_blocks l hfree hr
      exact ⟨r', by simp [Op.blocksAfter, hr'], hi⟩
  | malloc =>
    cases l with
    | nil =>
      have hz : w.st.freeList = 0 := h.threads.path
      simp [Op.Allowed, empty, hz] at ha
    | cons c l =>
      obtain ⟨st, hrun, ht, hm⟩ := malloc_spec h8 h.threads
      exact ⟨st, c, l, hrun, .malloc, ht, fun x _ => by rw [hm]⟩
  | mallocN n =>
    rcases mallocN_spec (n := n) h8 h.threads with ⟨hf, hrun⟩ |
      ⟨pre, p, post, st, rfl, hn, hp, hrun, ht, ho⟩
    · exact ⟨w.st, 0, l, hrun, .mallocNull hf, h.threads, Outside.refl _ _⟩
    · refine ⟨st, p, _, hrun, .mallocN hn hp, ht, ho.mono fun r hr => ?_⟩
      exact h.inside_blocks _ (fun c hc => hfree c (by simp [hc])) hr
  | free p =>
    obtain ⟨hp, -, hfit, hd⟩ := h.grant_placed h0 ha
    obtain ⟨st, hrun, ht, ho⟩ :=
      free_spec h8 h.threads hp (by simpa using hfit) (by simpa [chunk] using hd)
    refine ⟨st, 0, _, by simp [Op.run, hrun], .free, ht, ho.mono fun r hr => ?_⟩
    refine h.inside_blocks [p] (fun c hc => List.mem_append_right _ ?_) hr
    exact List.mem_flatMap.mpr ⟨_, ha, by simpa [chunks] using hc⟩
  | freeN p n =>
    obtain ⟨hp, hsz, hfit, hd⟩ := h.grant_placed h0 ha
    dsimp only at hp hsz hfit hd
    have hmod : psz * n % addressSpace = psz * n := Nat.mod_eq_of_lt (by omega)
    obtain ⟨st, hrun, ht, ho⟩ := addBlock_spec h8 h.threads hp hsz hfit hd
    refine ⟨st, 0, _, by simp [Op.run, freeN, hmod, hrun], .freeN, ht,
      (outside_chunks h0 ho).mono fun r hr => ?_⟩
    rw [List.append_nil] at hr
    exact h.inside_blocks _ (fun c hc =>
      List.mem_append_right _ (List.mem_flatMap.mpr ⟨_, ha, hc⟩)) hr
  | orderedFree p =>
    obtain ⟨hp, -, hfit, hd⟩ := h.grant_placed h0 ha
    obtain ⟨st, hrun, ht, ho⟩ :=
      orderedFree_spec h8 h.threads hp (by simpa using hfit) (by simpa [chunk] using hd)
    refine ⟨st, 0, _, by simp [Op.run, hrun], .orderedFree, ht, ho.mono fun r hr => ?_⟩
    refine h.inside_blocks (p :: l) (fun c hc => ?_) hr
    rcases List.mem_cons.mp hc with rfl | hc
    · exact List.mem_append_right _ (List.mem_flatMap.mpr ⟨_, ha, by simp [chunks]⟩)
    · exact hfree c hc
  | orderedFreeN p n =>
    obtain ⟨hp, hsz, hfit, hd⟩ := h.grant_placed h0 ha
    dsimp only at hp hsz hfit hd
    have hmod : psz * n % addressSpace = psz * n := Nat.mod_eq_of_lt (by omega)
    obtain ⟨st, hrun, ht, ho⟩ := addOrderedBlock_spec h8 h.threads hp hsz hfit hd
    refine ⟨st, 0, _, by simp [Op.run, orderedFreeN, hmod, hrun], .orderedFreeN, ht,
      (outside_chunks h0 ho).mono fun r hr => ?_⟩
    rw [← List.map_append] at hr
    refine h.inside_blocks _ (fun c hc => ?_) hr
    rcases List.mem_append.mp hc with hc | hc
    · exact List.mem_append_right _ (List.mem_flatMap.mpr ⟨_, ha, hc⟩)
    · exact hfree c hc
  | write a v =>
    obtain ⟨g, hg, ha⟩ := ha
    have ho : Outside [grant psz g] w.st.mem (Function.update w.st.mem a v) := by
      intro x hx
      refine Function.update_of_ne (fun he => hx _ (List.mem_singleton_self _) ?_) _ _
      exact he ▸ ha
    have hi := h.overwrite h8 fun x _ hx => ho x fun r hr => List.mem_singleton.mp hr ▸ hx g hg
    refine ⟨_, 0, l, rfl, .write, hi.threads, ?_⟩
    have ho' : Outside [⟨g.1, psz * g.2⟩] w.st.mem (Function.update w.st.mem a v) := by
      rw [Nat.mul_comm]; exact ho
    refine (outside_chunks h0 ho').mono fun r hr => ?_
    rw [List.append_nil] at hr
    exact h.inside_blocks _ (fun c hc =>
      List.mem_append_right _ (List.mem_flatMap.mpr ⟨_, hg, hc⟩)) hr

/-! ## Runs -/

theorem Laid.addBlock {blocks : List Region} {cs : List Nat} (h : Laid psz blocks cs)
    {block sz : Nat} (hsz : psz ≤ sz) (hd : ∀ c ∈ cs, (chunk psz c).Disjoint ⟨block, sz⟩) :
    Laid psz (⟨block, sz⟩ :: blocks) (chunks psz block (segCount sz psz) ++ cs) := by
  have hin : ∀ c ∈ chunks psz block (segCount sz psz), (chunk psz c).Inside ⟨block, sz⟩ :=
    fun c hc => chunk_inside_block hsz hc
  constructor
  · refine List.pairwise_append.mpr ⟨spread_chunks _ _ _, h.spread, fun c hc d hd' => ?_⟩
    exact ((hd d hd').mono (.refl _) (hin c hc)).symm
  · intro c hc
    rcases List.mem_append.mp hc with hc | hc
    · exact ⟨_, List.mem_cons_self, hin c hc⟩
    · obtain ⟨r, hr, hi⟩ := h.inside c hc
      exact ⟨r, List.mem_cons_of_mem _ hr, hi⟩

theorem segCount_le {n : Nat} (h0 : 0 < psz) (hn : 0 < n) : segCount (psz * n) psz ≤ n := by
  have := segCount_mul_le (Nat.le_mul_of_pos_right psz hn)
  rw [Nat.mul_comm psz n] at this
  exact Nat.le_of_mul_le_mul_right (Nat.mul_comm psz n ▸ this) h0

/-- Giving back chunks of a run that was handed out adds no chunk. -/
theorem freed_subperm {live : List (Nat × Nat)} {p n : Nat} (cs : List Nat) (hg : (p, n) ∈ live)
    (hcs : cs.Sublist (chunks psz p n)) :
    (cs ++ l ++ held psz (live.erase (p, n))).Subperm (l ++ held psz live) := by
  have hheld := (held_erase psz hg).append_left l
  refine List.Subperm.trans ?_ hheld.symm.subperm
  refine List.Subperm.trans (List.Perm.subperm ?_)
    ((hcs.append_right (held psz (live.erase (p, n)))).append_left l).subperm
  rw [← List.append_assoc]
  exact List.perm_append_comm.append_right _

/-- An operation that brings no block moves chunks between the list and the clients, or drops
some. -/
theorem Inv.subperm_step (h : Inv psz w l) (h0 : 0 < psz) {op : Op} {p : Nat} {l' : List Nat}
    (ha : op.Allowed psz w) (hb : ∀ bs, op.blocksAfter bs = bs) (he : Effect psz op p l l') :
    (l' ++ held psz (op.liveAfter p w.live)).Subperm (l ++ held psz w.live) := by
  cases he with
  | @addBlock block sz l => simpa [Op.blocksAfter] using hb []
  | @addOrderedBlock block sz l => simpa [Op.blocksAfter] using hb []
  | @malloc c l =>
    refine List.Perm.subperm ?_
    simp [Op.liveAfter, held, chunks]
  | mallocNull _ => exact List.Subperm.refl _
  | @mallocN n p pre post hn hp =>
    refine List.Perm.subperm ?_
    simp only [Op.liveAfter, hp, if_false, held, List.flatMap_cons, List.append_assoc]
    refine List.Perm.append_left pre ?_
    rw [← List.append_assoc, ← List.append_assoc]
    exact List.perm_append_comm.append_right _
  | @free p l =>
    exact freed_subperm [p] ha (List.Sublist.refl _)
  | @freeN p n l =>
    exact freed_subperm _ ha (chunks_sublist (segCount_le h0 (h.pos _ ha)))
  | @orderedFree p l =>
    refine List.Subperm.trans ((orderedInsert_perm _ _ _).append_right _).subperm ?_
    exact freed_subperm [p] ha (List.Sublist.refl _)
  | @orderedFreeN p n l =>
    refine List.Subperm.trans ((orderedInsert_perm _ _ _).append_right _).subperm ?_
    exact freed_subperm _ ha (chunks_sublist (segCount_le h0 (h.pos _ ha)))
  | write => exact List.Subperm.refl _

/-- The chunks stay laid out: a new block brings its own. -/
theorem Inv.laid_step (h : Inv psz w l) (h0 : 0 < psz) {op : Op} {p : Nat} {l' : List Nat}
    (ha : op.Allowed psz w) (he : Effect psz op p l l') :
    Laid psz (op.blocksAfter w.blocks) (l' ++ held psz (op.liveAfter p w.live)) := by
  cases op with
  | addBlock block sz =>
    obtain ⟨-, hsz, -, hd⟩ := ha
    cases he with
    | addBlock =>
      rw [List.append_assoc]
      exact h.laid.addBlock hsz (h.block_fresh hd)
  | addOrderedBlock block sz =>
    obtain ⟨-, hsz, -, hd⟩ := ha
    cases he with
    | addOrderedBlock =>
      have := h.laid.addBlock hsz (h.block_fresh hd)
      rw [← List.append_assoc] at this
      exact this.mono ((orderedInsert_perm _ _ _).append_right _).subperm
  | malloc | mallocN n | free p | freeN p n | orderedFree p | orderedFreeN p n | write a v =>
    exact h.laid.mono (h.subperm_step h0 ha (fun _ => rfl) he)

theorem Inv.pos_step (h : Inv psz w l) {op : Op} {p : Nat} {l' : List Nat}
    (he : Effect psz op p l l') : ∀ g ∈ op.liveAfter p w.live, 0 < g.2 := by
  intro g hg
  cases he with
  | malloc =>
    rcases List.mem_cons.mp hg with rfl | hg
    · exact Nat.one_pos
    · exact h.pos g hg
  | mallocN hn hp =>
    simp only [Op.liveAfter, hp, if_false] at hg
    rcases List.mem_cons.mp hg with rfl | hg
    · exact hn
    · exact h.pos g hg
  | mallocNull _ => exact h.pos g (by simpa [Op.liveAfter] using hg)
  | free | freeN | orderedFree | orderedFreeN => exact h.pos g (List.mem_of_mem_erase hg)
  | addBlock | addOrderedBlock | write => exact h.pos g hg

theorem Inv.placed_step (h : Inv psz w l) {op : Op} (ha : op.Allowed psz w) :
    ∀ r ∈ op.blocksAfter w.blocks, 0 < r.base ∧ r.stop < addressSpace := by
  cases op with
  | addBlock block sz | addOrderedBlock block sz =>
    intro r hr
    rcases List.mem_cons.mp hr with rfl | hr
    · exact ⟨ha.1, ha.2.2.1⟩
    · exact h.placed r hr
  | _ => exact h.placed

/-- Every allowed operation returns, has its effect, and keeps the invariant. -/
theorem Inv.op_spec (h : Inv psz w l) (h8 : wordSize ≤ psz) {op : Op} (ha : op.Allowed psz w) :
    ∃ st p l', op.run psz w.st = some (st, p) ∧ Effect psz op p l l' ∧
      Inv psz ⟨st, op.blocksAfter w.blocks, op.liveAfter p w.live⟩ l' ∧
      Outside (op.blocksAfter w.blocks) w.st.mem st.mem := by
  obtain ⟨st, p, l', hrun, he, ht, ho⟩ := h.run_spec h8 ha
  have h0 : 0 < psz := pos_of_wordSize_le h8
  exact ⟨st, p, l', hrun, he, ⟨ht, h.laid_step h0 ha he, h.pos_step he, h.placed_step ha⟩, ho⟩

/-- The same for the world around the storage. -/
theorem Inv.exec_spec (h : Inv psz w l) (h8 : wordSize ≤ psz) {op : Op} (ha : op.Allowed psz w) :
    ∃ st p l', w.exec psz op = some (⟨st, op.blocksAfter w.blocks, op.liveAfter p w.live⟩, p) ∧
      Effect psz op p l l' ∧ Inv psz ⟨st, op.blocksAfter w.blocks, op.liveAfter p w.live⟩ l' := by
  obtain ⟨st, p, l', hrun, he, hi, -⟩ := h.op_spec h8 ha
  exact ⟨st, p, l', by simp [World.exec, hrun], he, hi⟩

/-- The same, read from the result of the operation. -/
theorem Inv.exec_cases (h : Inv psz w l) (h8 : wordSize ≤ psz) {op : Op} {w' : World} {p : Nat}
    (ha : op.Allowed psz w) (he : w.exec psz op = some (w', p)) :
    ∃ l', Effect psz op p l l' ∧ Inv psz w' l' ∧
      w'.blocks = op.blocksAfter w.blocks ∧ w'.live = op.liveAfter p w.live := by
  obtain ⟨st, q, l', hrun, heff, hi⟩ := h.exec_spec h8 ha
  rw [he] at hrun
  obtain ⟨rfl, rfl⟩ := Prod.mk.inj (Option.some.inj hrun)
  exact ⟨l', heff, hi, rfl, rfl⟩

/-- The same for a step of a run. -/
theorem Inv.step_spec (h : Inv psz w l) (h8 : wordSize ≤ psz) {op : Op} {w' : World}
    (hs : Step psz w op w') : ∃ p l', Effect psz op p l l' ∧ Inv psz w' l' ∧
      w'.blocks = op.blocksAfter w.blocks ∧ w'.live = op.liveAfter p w.live := by
  obtain ⟨ha, p, he⟩ := hs
  obtain ⟨l', hl'⟩ := h.exec_cases h8 ha he
  exact ⟨p, l', hl'⟩

/-- An allowed operation is a step. -/
theorem Inv.progress (h : Inv psz w l) (h8 : wordSize ≤ psz) {op : Op} (ha : op.Allowed psz w) :
    ∃ w' p l', Step psz w op w' ∧ Effect psz op p l l' ∧ Inv psz w' l' ∧
      w'.blocks = op.blocksAfter w.blocks ∧ w'.live = op.liveAfter p w.live := by
  obtain ⟨st, p, l', hrun, he, hi⟩ := h.exec_spec h8 ha
  exact ⟨_, p, l', ⟨ha, p, hrun⟩, he, hi, rfl, rfl⟩

/-- The first chunk of the list is taken. -/
theorem Inv.takes {c : Nat} (h : Inv psz w (c :: l)) (h8 : wordSize ≤ psz) :
    ∃ w', Step psz w .malloc w' ∧ Inv psz w' l ∧ w'.blocks = w.blocks ∧
      w'.live = (c, 1) :: w.live := by
  have hne : w.st.empty = false := by simpa [empty] using h.threads.head_ne (by simp)
  obtain ⟨w', p, l', hs, he, hi, hb, hlive⟩ :=
    h.progress h8 (show Op.Allowed psz w .malloc from hne)
  cases he
  exact ⟨w', hs, hi, hb, hlive⟩

/-- The run that the search finds is taken. -/
theorem Inv.takesN {n p : Nat} {pre post : List Nat} (h : Inv psz w l) (h8 : wordSize ≤ psz)
    (hn : n < addressSpace) (hf : findRun n psz [] [] l = some (pre, chunks psz p n, post)) :
    ∃ w', Step psz w (.mallocN n) w' ∧ Inv psz w' (pre ++ post) ∧ w'.blocks = w.blocks ∧
      w'.live = (p, n) :: w.live := by
  have h0 : 0 < psz := pos_of_wordSize_le h8
  rcases mallocN_find (n := n) h8 h0 h.threads h.threads.fits with
    ⟨hnone, -⟩ | ⟨pre', r, post', st, hf', -, hpos, hr, -, hrun, ht, -⟩
  · rw [hnone] at hf
    cases hf
  · rw [hf', Option.some.injEq, Prod.mk.injEq, Prod.mk.injEq] at hf
    obtain ⟨rfl, hchunks, rfl⟩ := hf
    obtain ⟨k, rfl⟩ := Nat.exists_eq_succ_of_ne_zero (Nat.ne_of_gt hpos)
    obtain rfl : r = p := (List.cons.inj hchunks).1
    have he : w.exec psz (.mallocN (k + 1)) = some (⟨st, w.blocks, (r, k + 1) :: w.live⟩, r) := by
      simp [World.exec, Op.run, hrun, Op.blocksAfter, Op.liveAfter, hr]
    obtain ⟨l', -, hi, -⟩ := h.exec_cases h8 (show Op.Allowed psz w (.mallocN (k + 1)) from hn) he
    rw [hi.threads.path.unique ht.path] at hi
    exact ⟨_, ⟨hn, r, he⟩, hi, rfl, rfl⟩
theorem inv_start (psz : Nat) (m : Mem) : Inv psz (World.start m) [] :=
  ⟨⟨rfl, List.Pairwise.nil, by simp⟩, ⟨List.Pairwise.nil, by simp [World.start, held]⟩, by
    simp [World.start], by simp [World.start]⟩

/-- The invariant holds after every run. -/
theorem inv_run (h8 : wordSize ≤ psz) {m : Mem} {ops : List Op}
    (h : Run (Step psz) (World.start m) ops w) : ∃ l, Inv psz w l := by
  refine h.invariant (I := fun w => ∃ l, Inv psz w l) ⟨[], inv_start psz m⟩ ?_
  intro t op u ⟨l, hl⟩ hs
  obtain ⟨-, l', -, hi, -⟩ := hl.step_spec h8 hs
  exact ⟨l', hi⟩

end

end Gpcl.Storage
