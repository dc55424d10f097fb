import Gpcl.Lib.Chain
import Gpcl.Storage.Basic

/-! # What the operations do to the free list

`Threads psz s l`: the free list of `s` is the list `l` of chunks, any two of them
at least `psz` bytes apart. Each operation returns and takes the list to an
explicit new list; the memory it touches lies in the chunks of the old list and
in the block or chunk it was given. -/
namespace Gpcl.Storage
open Lib.Memory Lib.Chain

/-- The bytes of the chunk at `c`. -/
def chunk (psz c : Nat) : Region := ⟨c, psz⟩

/-- `k` chunks side by side from `b` on. -/
def chunks (psz : Nat) : Nat → Nat → List Nat
  | _, 0 => []
  | b, k + 1 => b :: chunks psz (b + psz) k

/-- The number of chunks `segregate` makes of `sz` bytes. The loop stops one chunk
early when `sz` is a multiple of the chunk size. -/
def segCount (sz psz : Nat) : Nat := (sz - psz - 1) / psz + 1

def Spread (psz : Nat) (l : List Nat) : Prop :=
  l.Pairwise fun c d => (chunk psz c).Disjoint (chunk psz d)

structure Threads (psz : Nat) (s : Storage) (l : List Nat) : Prop where
  path : Path s.nextChunk 0 s.freeList l 0
  spread : Spread psz l
  fits : ∀ c ∈ l, c + psz < addressSpace

/-- The link behind the last chunk of `pre`. -/
def linkAfter (pre : List Nat) : Link :=
  match pre.getLast? with
  | none => .head
  | some c => .next c

@[simp] theorem linkAfter_nil : linkAfter [] = .head := rfl

@[simp] theorem linkAfter_append (pre : List Nat) (c : Nat) : linkAfter (pre ++ [c]) = .next c := by
  simp [linkAfter]

/-! ## Chunks of a block -/

theorem chunks_snoc (psz : Nat) : ∀ b k, chunks psz b (k + 1) = chunks psz b k ++ [b + k * psz]
  | b, 0 => by simp [chunks]
  | b, k + 1 => by
    rw [chunks, chunks_snoc psz (b + psz) k, chunks, List.cons_append]
    congr 3
    rw [Nat.succ_mul]; omega

@[simp] theorem length_chunks (psz : Nat) : ∀ b k, (chunks psz b k).length = k
  | _, 0 => rfl
  | b, k + 1 => by simp [chunks, length_chunks psz (b + psz) k]

theorem mem_chunks {psz c : Nat} : ∀ {b k}, c ∈ chunks psz b k ↔ ∃ i, i < k ∧ c = b + i * psz
  | b, 0 => by simp [chunks]
  | b, k + 1 => by
    rw [chunks_snoc, List.mem_append, mem_chunks, List.mem_singleton]
    constructor
    · rintro (⟨i, hi, rfl⟩ | rfl)
      · exact ⟨i, by omega, rfl⟩
      · exact ⟨k, by omega, rfl⟩
    · rintro ⟨i, hi, rfl⟩
      rcases Nat.lt_succ_iff_lt_or_eq.mp hi with hi | rfl
      · exact .inl ⟨i, hi, rfl⟩
      · exact .inr rfl

theorem chunk_inside_chunks {psz b k c : Nat} (h : c ∈ chunks psz b k) :
    (chunk psz c).Inside ⟨b, k * psz⟩ := by
  obtain ⟨i, hi, rfl⟩ := mem_chunks.mp h
  have := Nat.mul_le_mul_right psz (Nat.succ_le_of_lt hi)
  rw [Nat.succ_mul] at this
  simp only [Region.Inside, Region.stop, chunk]
  omega

theorem spread_chunks (psz : Nat) : ∀ b k, Spread psz (chunks psz b k)
  | _, 0 => List.Pairwise.nil
  | b, k + 1 => by
    refine List.pairwise_cons.mpr ⟨fun c hc => .inl ?_, spread_chunks psz (b + psz) k⟩
    exact (chunk_inside_chunks hc).1

/-- The chunks `segregate` makes lie inside the block. -/
theorem segCount_mul_le {sz psz : Nat} (h : psz ≤ sz) : segCount sz psz * psz ≤ sz := by
  unfold segCount
  have := Nat.div_mul_le_self (sz - psz - 1) psz
  rw [Nat.succ_mul]
  omega

theorem chunk_inside_block {psz block sz c : Nat} (h : psz ≤ sz)
    (hc : c ∈ chunks psz block (segCount sz psz)) : (chunk psz c).Inside ⟨block, sz⟩ := by
  have := chunk_inside_chunks hc
  have := segCount_mul_le h
  simp only [Region.Inside, Region.stop] at *
  omega

/-! ## Reading and writing links -/

theorem get_linkAfter {s : Storage} {pre : List Nat} {q : Nat}
    (h : Path s.nextChunk 0 s.freeList pre q) : s.get (linkAfter pre) = q := by
  rcases List.eq_nil_or_concat pre with rfl | ⟨pre, c, rfl⟩
  · exact h
  · obtain ⟨r, _, rfl, _, hq⟩ := path_append.mp (by simpa using h)
    simpa [get] using hq

@[simp] theorem set_head_nextChunk (s : Storage) (p : Nat) :
    (s.set .head p).nextChunk = s.nextChunk :=
  rfl

@[simp] theorem set_head_mem (s : Storage) (p : Nat) : (s.set .head p).mem = s.mem := rfl

@[simp] theorem set_next_freeList (s : Storage) (c p : Nat) :
    (s.set (.next c) p).freeList = s.freeList := rfl

theorem set_next_nextChunk {s : Storage} {c p : Nat} (hp : p < addressSpace) :
    (s.set (.next c) p).nextChunk c = p := loadWord_storeWord _ _ hp

theorem set_next_nextChunk_apart {s : Storage} {psz c d p : Nat} (h8 : wordSize ≤ psz)
    (h : (chunk psz d).Disjoint (chunk psz c)) :
    (s.set (.next c) p).nextChunk d = s.nextChunk d := by
  refine loadWord_storeWord_apart ?_
  simp only [Region.Disjoint, Region.stop, chunk] at h
  omega

theorem outside_set_next {s : Storage} {psz c p : Nat} (h8 : wordSize ≤ psz) :
    Outside [chunk psz c] s.mem (s.set (.next c) p).mem :=
  Outside.storeWord ⟨_, List.mem_singleton_self _, Nat.le_refl _, by
    simpa [Region.stop, chunk] using h8⟩

/-- Writing the link behind `pre` redirects the end of the path along `pre`. -/
theorem path_set {s : Storage} {psz : Nat} {pre : List Nat} {q v : Nat} (h8 : wordSize ≤ psz)
    (hv : v < addressSpace) (hs : Spread psz pre) (h : Path s.nextChunk 0 s.freeList pre q) :
    Path (s.set (linkAfter pre) v).nextChunk 0 (s.set (linkAfter pre) v).freeList pre v := by
  rcases List.eq_nil_or_concat pre with rfl | ⟨pre, c, rfl⟩
  · rfl
  · simp only [List.concat_eq_append, linkAfter_append, set_next_freeList] at h hs ⊢
    obtain ⟨r, hr, rfl, hc, _⟩ := path_append.mp h
    obtain ⟨_, _, hap⟩ := List.pairwise_append.mp hs
    refine path_append.mpr ⟨r, hr.congr fun d hd => ?_, rfl, hc, set_next_nextChunk hv⟩
    exact set_next_nextChunk_apart h8 (hap d hd r (by simp))

/-- Writing the link behind `pre` keeps the paths through chunks apart from `pre`. -/
theorem path_set_apart {s : Storage} {psz : Nat} {pre l : List Nat} {p q v : Nat}
    (h8 : wordSize ≤ psz) (hd : ∀ c ∈ pre, ∀ d ∈ l, (chunk psz c).Disjoint (chunk psz d))
    (h : Path s.nextChunk 0 p l q) : Path (s.set (linkAfter pre) v).nextChunk 0 p l q := by
  rcases List.eq_nil_or_concat pre with rfl | ⟨pre, c, rfl⟩
  · exact h
  · simp only [List.concat_eq_append, linkAfter_append]
    exact h.congr fun d hd' => set_next_nextChunk_apart h8 (hd c (by simp) d hd').symm

theorem outside_set {s : Storage} {psz v : Nat} {pre : List Nat} (h8 : wordSize ≤ psz) :
    Outside (pre.map (chunk psz)) s.mem (s.set (linkAfter pre) v).mem := by
  rcases List.eq_nil_or_concat pre with rfl | ⟨pre, c, rfl⟩
  · exact Outside.refl _ _
  · simp only [List.concat_eq_append, linkAfter_append]
    refine (outside_set_next h8).mono fun r hr => ⟨r, ?_, .refl r⟩
    rw [List.mem_singleton] at hr
    simp [hr]

/-- A path is kept when the memory changes only outside its chunks. -/
theorem path_outside {s s' : Storage} {psz p q : Nat} {rs : List Region} {l : List Nat}
    (h8 : wordSize ≤ psz) (h : Path s.nextChunk 0 p l q) (ho : Outside rs s.mem s'.mem)
    (hd : ∀ c ∈ l, ∀ r ∈ rs, (chunk psz c).Disjoint r) : Path s'.nextChunk 0 p l q := by
  refine h.congr fun c hc => ho.loadWord fun r hr => (hd c hc r hr).mono ?_ (.refl _)
  simp only [Region.Inside, Region.stop, chunk]
  omega

/-! ## segregate -/

/-- The loop links the `n` chunks in front of the last one. The induction is on
the number of chunks still to be linked. -/
theorem segregateLoop_spec {psz blockEnd : Nat} (h8 : wordSize ≤ psz)
    (he : blockEnd < addressSpace) :
    ∀ (n : Nat) (s : Storage) (b : Nat), 0 < b → (blockEnd - b - 1) / psz = n →
      ∃ s', segregateLoop psz blockEnd s b = some (s', b + n * psz) ∧ s'.freeList = s.freeList ∧
        Path s'.nextChunk 0 b (chunks psz b n) (b + n * psz) ∧
        Outside [⟨b, n * psz⟩] s.mem s'.mem
  | 0, s, b, hb, hn => by
    have hw : wordSize = 8 := rfl
    have := Nat.div_eq_zero_iff.mp hn
    refine ⟨s, ?_, rfl, by simp [chunks], Outside.refl _ _⟩
    rw [segregateLoop, if_neg (by omega)]
    simp
  | n + 1, s, b, hb, hn => by
    have hw : wordSize = 8 := rfl
    have hlt : psz ≤ blockEnd - b - 1 := by
      by_contra hc
      rw [Nat.div_eq_of_lt (by omega)] at hn
      omega
    have hn' : (blockEnd - (b + psz) - 1) / psz = n := by
      have : blockEnd - b - 1 = blockEnd - (b + psz) - 1 + psz := by omega
      rw [this, Nat.add_div_right _ (by omega)] at hn
      omega
    have hld : (s.set (.next b) (b + psz)).nextChunk b = b + psz := set_next_nextChunk (by omega)
    obtain ⟨s', hrun, hfl, hpath, hout⟩ :=
      segregateLoop_spec h8 he n (s.set (.next b) (b + psz)) (b + psz) (by omega) hn'
    have hsum : b + psz + n * psz = b + (n + 1) * psz := by rw [Nat.succ_mul]; omega
    refine ⟨s', ?_, hfl, ⟨rfl, by omega, ?_⟩, ?_⟩
    · rw [segregateLoop, if_pos (by omega)]
      simp only [hld, hrun, hsum]
    · have hkeep : s'.nextChunk b = (s.set (.next b) (b + psz)).nextChunk b :=
        hout.loadWord fun r hr => by
          rw [List.mem_singleton.mp hr]
          exact .inl (by simp only [Region.stop]; omega)
      rw [hkeep, hld, ← hsum]
      exact hpath
    · refine ((outside_set_next h8).mono ?_).trans (hout.mono ?_)
      all_goals
        intro r hr
        rw [List.mem_singleton.mp hr]
        refine ⟨_, List.mem_singleton_self _, ?_⟩
        simp only [Region.Inside, Region.stop, chunk]
        rw [Nat.succ_mul]
        omega

/-- `segregate` makes `segCount` chunks of the block, linked in address order and
ended by `stop`. -/
theorem segregate_spec {s : Storage} {psz block sz stop : Nat} (h8 : wordSize ≤ psz)
    (hb : 0 < block) (hsz : psz ≤ sz) (hfit : block + sz < addressSpace)
    (hstop : stop < addressSpace) :
    ∃ s', s.segregate block sz psz stop = some (s', block) ∧ s'.freeList = s.freeList ∧
      Path s'.nextChunk 0 block (chunks psz block (segCount sz psz)) stop ∧
      Outside [⟨block, sz⟩] s.mem s'.mem := by
  have hw : wordSize = 8 := rfl
  have hcnt : (block + sz - psz - block - 1) / psz + 1 = segCount sz psz := by
    unfold segCount
    congr 2; omega
  have hle := segCount_mul_le hsz
  rw [← hcnt, Nat.succ_mul] at hle
  generalize hn : (block + sz - psz - block - 1) / psz = n at hcnt hle
  obtain ⟨s₁, hrun, hfl, hpath, hout⟩ := segregateLoop_spec h8 (by omega) n s block hb hn
  refine ⟨s₁.set (.next (block + n * psz)) stop, ?_, hfl, ?_, ?_⟩
  · simp [segregate, hrun, hsz, Nat.ne_of_gt hb, guard]
  · rw [← hcnt, chunks_snoc]
    refine path_append.mpr ⟨_, hpath.congr fun c hc => ?_, rfl, by omega, set_next_nextChunk hstop⟩
    refine set_next_nextChunk_apart h8 (.inl ?_)
    exact (chunk_inside_chunks hc).2
  · refine (hout.mono ?_).trans ((outside_set_next h8).mono ?_)
    all_goals
      intro r hr
      rw [List.mem_singleton.mp hr]
      refine ⟨_, List.mem_singleton_self _, ?_⟩
      simp only [Region.Inside, Region.stop, chunk]
      omega

/-! ## Putting chunks on the list -/

theorem link_lt {psz : Nat} {s : Storage} {post : List Nat} {q : Nat}
    (hf : ∀ c ∈ post, c + psz < addressSpace) (h : Path s.nextChunk 0 q post 0) :
    q < addressSpace := by
  cases post with
  | nil => rw [show q = 0 from h]; decide
  | cons c post =>
    have := hf c (by simp)
    rw [h.1]; omega

/-- The chunks `cs`, linked up to the link behind `pre`, are put in there. -/
theorem Threads.splice {psz : Nat} {s s₁ : Storage} {pre post cs : List Nat} {p : Nat}
    (h8 : wordSize ≤ psz) (h : Threads psz s (pre ++ post)) (hcs : Spread psz cs)
    (hfit : ∀ c ∈ cs, c + psz < addressSpace)
    (hd : ∀ c ∈ cs, ∀ d ∈ pre ++ post, (chunk psz c).Disjoint (chunk psz d))
    (hhead : s₁.freeList = s.freeList)
    (hkeep : ∀ d ∈ pre ++ post, s₁.nextChunk d = s.nextChunk d)
    (hcut : Path s₁.nextChunk 0 p cs (s.get (linkAfter pre))) (hp : p < addressSpace) :
    Threads psz (s₁.set (linkAfter pre) p) (pre ++ cs ++ post) := by
  obtain ⟨q, hpre, hpost⟩ := path_append.mp h.path
  obtain ⟨hspre, hspost, hx⟩ := List.pairwise_append.mp h.spread
  rw [get_linkAfter hpre] at hcut
  have hpre₁ : Path s₁.nextChunk 0 s₁.freeList pre q := by
    rw [hhead]; exact hpre.congr fun d hd' => hkeep d (by simp [hd'])
  have hpost₁ : Path s₁.nextChunk 0 q post 0 := hpost.congr fun d hd' => hkeep d (by simp [hd'])
  have hpc : ∀ c ∈ pre, ∀ d ∈ cs, (chunk psz c).Disjoint (chunk psz d) :=
    fun c hc d hd' => (hd d hd' c (by simp [hc])).symm
  refine ⟨?_, ?_, ?_⟩
  · refine path_append.mpr ⟨q, path_append.mpr ⟨p, path_set h8 hp hspre hpre₁, ?_⟩, ?_⟩
    · exact path_set_apart h8 hpc hcut
    · exact path_set_apart h8 hx hpost₁
  · refine List.pairwise_append.mpr ⟨List.pairwise_append.mpr ⟨hspre, hcs, hpc⟩, hspost, ?_⟩
    intro c hc d hd'
    rcases List.mem_append.mp hc with hc | hc
    · exact hx c hc d hd'
    · exact hd c hc d (by simp [hd'])
  · intro c hc
    simp only [List.mem_append] at hc
    rcases hc with (hc | hc) | hc
    · exact h.fits c (by simp [hc])
    · exact hfit c hc
    · exact h.fits c (by simp [hc])

theorem Threads.get_lt {psz : Nat} {s : Storage} {pre post : List Nat}
    (h : Threads psz s (pre ++ post)) : s.get (linkAfter pre) < addressSpace := by
  obtain ⟨q, hpre, hpost⟩ := path_append.mp h.path
  rw [get_linkAfter hpre]
  exact link_lt (fun c hc => h.fits c (by simp [hc])) hpost

theorem Threads.head_ne {psz : Nat} {s : Storage} {l : List Nat} (h : Threads psz s l)
    (hl : l ≠ []) : s.freeList ≠ 0 := by
  cases l with
  | nil => exact absurd rfl hl
  | cons c l => exact h.path.head_ne_null

/-- A block is carved up and its chunks are put behind `pre`. -/
theorem Threads.spliceBlock {psz block sz : Nat} {s : Storage} (pre post : List Nat)
    (h8 : wordSize ≤ psz) (h : Threads psz s (pre ++ post)) (hb : 0 < block) (hsz : psz ≤ sz)
    (hfit : block + sz < addressSpace)
    (hd : ∀ c ∈ pre ++ post, (chunk psz c).Disjoint ⟨block, sz⟩) :
    ∃ s₁, s.segregate block sz psz (s.get (linkAfter pre)) = some (s₁, block) ∧
      Threads psz (s₁.set (linkAfter pre) block)
        (pre ++ chunks psz block (segCount sz psz) ++ post) ∧
      Outside (⟨block, sz⟩ :: pre.map (chunk psz)) s.mem (s₁.set (linkAfter pre) block).mem := by
  obtain ⟨s₁, hrun, hhead, hpath, hout⟩ := segregate_spec (s := s) h8 hb hsz hfit h.get_lt
  have hin : ∀ c ∈ chunks psz block (segCount sz psz), (chunk psz c).Inside ⟨block, sz⟩ :=
    fun c hc => chunk_inside_block hsz hc
  refine ⟨s₁, hrun, ?_, ?_⟩
  · refine h.splice h8 (spread_chunks _ _ _) ?_ ?_ hhead ?_ hpath (by omega)
    · intro c hc
      have := (hin c hc).2
      simp only [Region.stop, chunk] at this
      omega
    · intro c hc d hd'
      exact ((hd d hd').mono (.refl _) (hin c hc)).symm
    · intro d hd'
      refine hout.loadWord fun r hr => ?_
      rw [List.mem_singleton.mp hr]
      refine (hd d hd').mono ?_ (.refl _)
      simp only [Region.Inside, Region.stop, chunk]
      omega
  · refine (hout.mono ?_).trans ((outside_set h8).mono ?_)
    · intro r hr; exact ⟨r, by simp [List.mem_singleton.mp hr], .refl r⟩
    · intro r hr; exact ⟨r, List.mem_cons_of_mem _ hr, .refl r⟩

/-- One chunk is put behind `pre`. -/
theorem Threads.spliceChunk {psz c : Nat} {s : Storage} (pre post : List Nat)
    (h8 : wordSize ≤ psz) (h : Threads psz s (pre ++ post)) (hc : 0 < c)
    (hfit : c + psz < addressSpace)
    (hd : ∀ d ∈ pre ++ post, (chunk psz d).Disjoint (chunk psz c)) :
    Threads psz ((s.set (.next c) (s.get (linkAfter pre))).set (linkAfter pre) c)
        (pre ++ [c] ++ post) ∧
      Outside (chunk psz c :: pre.map (chunk psz)) s.mem
        ((s.set (.next c) (s.get (linkAfter pre))).set (linkAfter pre) c).mem := by
  constructor
  · refine h.splice h8 (List.pairwise_singleton _ _) ?_ ?_ rfl ?_ ?_ (by omega)
    · intro d hd'; rw [List.mem_singleton.mp hd']; exact hfit
    · intro d hd' e he; rw [List.mem_singleton.mp hd']; exact (hd e he).symm
    · intro d hd'; exact set_next_nextChunk_apart h8 (hd d hd')
    · exact ⟨rfl, by omega, set_next_nextChunk h.get_lt⟩
  · refine ((outside_set_next h8).mono ?_).trans ((outside_set h8).mono ?_)
    · intro r hr; exact ⟨r, by simp [List.mem_singleton.mp hr], .refl r⟩
    · intro r hr; exact ⟨r, List.mem_cons_of_mem _ hr, .refl r⟩

theorem addBlock_spec {psz block sz : Nat} {s : Storage} {l : List Nat} (h8 : wordSize ≤ psz)
    (h : Threads psz s l) (hb : 0 < block) (hsz : psz ≤ sz) (hfit : block + sz < addressSpace)
    (hd : ∀ c ∈ l, (chunk psz c).Disjoint ⟨block, sz⟩) :
    ∃ s', s.addBlock block sz psz = some s' ∧
      Threads psz s' (chunks psz block (segCount sz psz) ++ l) ∧
      Outside [⟨block, sz⟩] s.mem s'.mem := by
  obtain ⟨s₁, hrun, ht, hout⟩ := Threads.spliceBlock [] l h8 h hb hsz hfit hd
  refine ⟨s₁.set .head block, ?_, ht, hout⟩
  have hne : (s₁.set .head block).freeList ≠ 0 := Nat.ne_of_gt hb
  simp only [linkAfter_nil, get] at hrun
  simp [addBlock, hrun, guard, hne]

theorem free_spec {psz c : Nat} {s : Storage} {l : List Nat} (h8 : wordSize ≤ psz)
    (h : Threads psz s l) (hc : 0 < c) (hfit : c + psz < addressSpace)
    (hd : ∀ d ∈ l, (chunk psz d).Disjoint (chunk psz c)) :
    ∃ s', s.free c = some s' ∧ Threads psz s' (c :: l) ∧ Outside [chunk psz c] s.mem s'.mem := by
  obtain ⟨ht, hout⟩ := Threads.spliceChunk [] l h8 h hc hfit hd
  refine ⟨_, ?_, ht, hout⟩
  simp [free, guard, Nat.ne_of_gt hc, get]

/-! ## Ordered insertion -/

/-- Where `upper_bound(p)` cuts the list: behind its first chunk and behind every
further chunk up to `p`. -/
def upperSplit (p : Nat) : List Nat → List Nat × List Nat
  | [] => ([], [])
  | a :: l => (a :: l.takeWhile (· ≤ p), l.dropWhile (· ≤ p))

theorem upperSplit_append (p : Nat) (l : List Nat) :
    (upperSplit p l).1 ++ (upperSplit p l).2 = l := by
  cases l with
  | nil => rfl
  | cons a l => simp [upperSplit]

theorem upperBoundLoop_spec {s : Storage} {p : Nat} :
    ∀ (l pre : List Nat), Path s.nextChunk 0 s.freeList (pre ++ l) 0 →
      upperBoundLoop s p (linkAfter pre) = some (linkAfter (pre ++ (upperSplit p l).1))
  | [], pre, h => by
    rw [List.append_nil] at h
    rw [upperBoundLoop, get_linkAfter h]
    simp [upperSplit]
  | a :: l, pre, h => by
    obtain ⟨q, hpre, rfl, hq, hl⟩ := path_append.mp h
    rw [upperBoundLoop, get_linkAfter hpre, if_neg hq]
    dsimp only
    cases l with
    | nil =>
      have hz : s.get (.next q) = 0 := hl
      rw [if_neg (by omega), ← linkAfter_append pre q,
        upperBoundLoop_spec [] (pre ++ [q]) (by simpa using h)]
      simp [upperSplit]
    | cons b l =>
      have hb : s.get (.next q) = b := hl.1
      by_cases hp : p < b
      · rw [if_pos (by omega)]
        have : ¬ b ≤ p := by omega
        simp [upperSplit, this]
      · rw [if_neg (by omega), ← linkAfter_append pre q,
          upperBoundLoop_spec (b :: l) (pre ++ [q]) (by simpa using h)]
        have : b ≤ p := by omega
        simp [upperSplit, this]

theorem upperBound_spec {psz p : Nat} {s : Storage} {l : List Nat} (h : Threads psz s l) :
    s.upperBound p = some (linkAfter (upperSplit p l).1) := by
  simpa [upperBound] using upperBoundLoop_spec l [] h.path

/-- The list with the chunks `cs` put where `upper_bound(p)` points. -/
def orderedInsert (p : Nat) (cs l : List Nat) : List Nat :=
  (upperSplit p l).1 ++ cs ++ (upperSplit p l).2

theorem orderedInsert_perm (p : Nat) (cs l : List Nat) : (orderedInsert p cs l).Perm (cs ++ l) := by
  have h := upperSplit_append p l
  unfold orderedInsert
  refine (List.perm_append_comm.append_right _).trans ?_
  rw [List.append_assoc, h]

theorem addOrderedBlock_spec {psz block sz : Nat} {s : Storage} {l : List Nat} (h8 : wordSize ≤ psz)
    (h : Threads psz s l) (hb : 0 < block) (hsz : psz ≤ sz) (hfit : block + sz < addressSpace)
    (hd : ∀ c ∈ l, (chunk psz c).Disjoint ⟨block, sz⟩) :
    ∃ s', s.addOrderedBlock block sz psz = some s' ∧
      Threads psz s' (orderedInsert block (chunks psz block (segCount sz psz)) l) ∧
      Outside (⟨block, sz⟩ :: l.map (chunk psz)) s.mem s'.mem := by
  have happ := upperSplit_append block l
  obtain ⟨s₁, hrun, ht, hout⟩ := Threads.spliceBlock (upperSplit block l).1
    (upperSplit block l).2 h8 (by rwa [happ]) hb hsz hfit (by rwa [happ])
  refine ⟨_, ?_, ht, hout.mono fun r hr => ⟨r, ?_, .refl r⟩⟩
  · have hne := ht.head_ne (by simp [segCount, chunks])
    simp [addOrderedBlock, upperBound_spec h, hrun, guard, hne]
  · rw [← happ, List.map_append]
    rcases List.mem_cons.mp hr with rfl | hr
    · simp
    · exact List.mem_cons_of_mem _ (List.mem_append_left _ hr)

theorem orderedFree_spec {psz c : Nat} {s : Storage} {l : List Nat} (h8 : wordSize ≤ psz)
    (h : Threads psz s l) (hc : 0 < c) (hfit : c + psz < addressSpace)
    (hd : ∀ d ∈ l, (chunk psz d).Disjoint (chunk psz c)) :
    ∃ s', s.orderedFree c = some s' ∧ Threads psz s' (orderedInsert c [c] l) ∧
      Outside (chunk psz c :: l.map (chunk psz)) s.mem s'.mem := by
  have happ := upperSplit_append c l
  obtain ⟨ht, hout⟩ := Threads.spliceChunk (upperSplit c l).1
    (upperSplit c l).2 h8 (by rwa [happ]) hc hfit (by rwa [happ])
  refine ⟨_, ?_, ht, hout.mono fun r hr => ⟨r, ?_, .refl r⟩⟩
  · simp [orderedFree, upperBound_spec h, guard, Nat.ne_of_gt hc]
  · rw [← happ, List.map_append]
    rcases List.mem_cons.mp hr with rfl | hr
    · simp
    · exact List.mem_cons_of_mem _ (List.mem_append_left _ hr)

/-! ## Taking chunks off the list -/

/-- The chunks of `run` are cut out of the list. -/
theorem Threads.cut {psz : Nat} {s : Storage} (pre run post : List Nat) (h8 : wordSize ≤ psz)
    (h : Threads psz s (pre ++ run ++ post)) :
    Threads psz (s.set (linkAfter pre) (s.get (linkAfter (pre ++ run)))) (pre ++ post) ∧
      Outside (pre.map (chunk psz)) s.mem
        (s.set (linkAfter pre) (s.get (linkAfter (pre ++ run)))).mem := by
  refine ⟨?_, outside_set h8⟩
  have hlt := h.get_lt
  obtain ⟨q, hpr, hpost⟩ := path_append.mp h.path
  obtain ⟨q', hpre, hrun⟩ := path_append.mp hpr
  obtain ⟨hsp, hspost, hx⟩ := List.pairwise_append.mp h.spread
  obtain ⟨hspre, -, -⟩ := List.pairwise_append.mp hsp
  have hpp : ∀ c ∈ pre, ∀ d ∈ post, (chunk psz c).Disjoint (chunk psz d) :=
    fun c hc d hd => hx c (by simp [hc]) d hd
  rw [get_linkAfter hpr] at hlt ⊢
  refine ⟨path_append.mpr ⟨q, path_set h8 hlt hspre hpre, path_set_apart h8 hpp hpost⟩, ?_, ?_⟩
  · exact List.pairwise_append.mpr ⟨hspre, hspost, hpp⟩
  · intro c hc
    refine h.fits c ?_
    rcases List.mem_append.mp hc with hc | hc <;> simp [hc]

theorem malloc_spec {psz c : Nat} {s : Storage} {l : List Nat} (h8 : wordSize ≤ psz)
    (h : Threads psz s (c :: l)) :
    ∃ s', s.malloc = some (s', c) ∧ Threads psz s' l ∧ s'.mem = s.mem := by
  obtain ⟨hc, hne, hl⟩ := h.path
  refine ⟨s.set .head (s.nextChunk s.freeList), ?_, ?_, rfl⟩
  · have : s.empty = false := by simp [empty, hc, hne]
    simp [malloc, guard, this, hc]
  · have := (Threads.cut [] [c] l h8 h).1
    simpa [get, linkAfter, hc] using this

/-- The search of `malloc_n` on the list: `run` is the run of chunks it is in, `pre`
what comes before it. A run is found when one more chunk follows it. -/
def findRun (n psz : Nat) : List Nat → List Nat → List Nat → Option (List Nat × List Nat × List Nat)
  | _, _, [] => none
  | pre, run, c :: rest =>
    if rest.headD 0 ≠ c + psz then findRun n psz (pre ++ run ++ [c]) [] rest
    else if run.length + 1 = n then some (pre, run ++ [c], rest)
    else findRun n psz pre (run ++ [c]) rest

/-- `run`, followed by the next chunk of `rest`, is a run of adjacent chunks. -/
def Joins (psz : Nat) (run rest : List Nat) : Prop :=
  ∀ c ∈ rest.head?, ∃ r, run ++ [c] = chunks psz r (run.length + 1)

theorem joins_nil (psz : Nat) (rest : List Nat) : Joins psz [] rest :=
  fun c _ => ⟨c, by simp [chunks]⟩

theorem Joins.snoc {psz c : Nat} {run rest : List Nat} (h : Joins psz run (c :: rest))
    (hn : ∀ d ∈ rest.head?, d = c + psz) : Joins psz (run ++ [c]) rest := by
  intro d hd
  obtain ⟨r, hr⟩ := h c (by simp)
  refine ⟨r, ?_⟩
  rw [chunks_snoc, List.length_append, List.length_singleton, ← hr, hn d hd]
  rw [chunks_snoc] at hr
  have hc := (List.append_singleton_inj.mp hr).2
  rw [hc, Nat.succ_mul]; congr 2; omega

theorem findRun_sound {n psz : Nat} : ∀ (rest pre run : List Nat) {pre' run' rest' : List Nat},
    Joins psz run rest → findRun n psz pre run rest = some (pre', run', rest') →
      pre' ++ run' ++ rest' = pre ++ run ++ rest ∧
      ∃ r, run' = chunks psz r n ∧ 0 < n ∧ rest'.headD 0 = r + n * psz
  | [], _, _, _, _, _, _, h => by simp [findRun] at h
  | c :: rest, pre, run, pre', run', rest', hj, h => by
    rw [findRun] at h
    split_ifs at h with hne hm
    · obtain ⟨he, hr⟩ := findRun_sound rest _ _ (joins_nil psz rest) h
      exact ⟨by simpa using he, hr⟩
    · simp only [Option.some.injEq, Prod.mk.injEq] at h
      obtain ⟨rfl, rfl, rfl⟩ := h
      obtain ⟨r, hr⟩ := hj c (by simp)
      have hc := hr
      rw [chunks_snoc] at hc
      refine ⟨by simp, r, by rw [← hm, hr], by omega, ?_⟩
      rw [not_not.mp hne, (List.append_singleton_inj.mp hc).2, ← hm, Nat.succ_mul]
      omega
    · refine (findRun_sound rest _ _ (hj.snoc fun d hd => ?_) h).imp_left
        fun he => by simpa using he
      rw [← not_not.mp hne, List.headD_eq_head?_getD, hd]
      rfl

theorem ptrDiff_eq {psz p q : Nat} (hp : p + psz < addressSpace) (hq : q < addressSpace) :
    ptrDiff q p = psz % addressSpace ↔ q = p + psz := by
  unfold ptrDiff addressSpace at *
  omega

/-- The loop is the search, for any distance `psz` between the chunks it looks for. -/
theorem mallocNLoop_spec {n psz csz : Nat} {s : Storage} : ∀ (rest pre run : List Nat),
    0 < psz → Joins psz run rest → Threads csz s (pre ++ run ++ rest) →
      (∀ c ∈ pre ++ run ++ rest, c + psz < addressSpace) →
      mallocNLoop n psz s (linkAfter (pre ++ run)) (linkAfter pre) run.length =
        match findRun n psz pre run rest with
        | none => some (s, 0)
        | some (pre', run', _) =>
          some (s.set (linkAfter pre') (s.get (linkAfter (pre' ++ run'))), s.get (linkAfter pre'))
  | [], pre, run, h0, hj, h, hf => by
    have hp := h.path
    rw [List.append_nil] at hp
    rw [mallocNLoop, if_pos (get_linkAfter hp)]
    rfl
  | c :: rest, pre, run, h0, hj, h, hf => by
    obtain ⟨q, hpr, rfl, hc, hrest⟩ := path_append.mp h.path
    have hnext : s.nextChunk q = rest.headD 0 := by
      cases rest with
      | nil => exact hrest
      | cons d rest => exact hrest.1
    have hfit : q + psz < addressSpace := hf q (by simp)
    have hlt : s.nextChunk q < addressSpace := link_lt (fun c hc => h.fits c (by simp [hc])) hrest
    rw [mallocNLoop, if_neg (by rw [get_linkAfter hpr]; exact hc), findRun, get_linkAfter hpr]
    rw [hnext] at hlt
    simp only [ne_eq, hnext, ptrDiff_eq hfit hlt]
    by_cases hd : rest.headD 0 = q + psz
    · -- the run goes on; its length stays far below the size of the address space
      obtain ⟨r, hr⟩ := hj q (by simp)
      rw [chunks_snoc] at hr
      have hq := (List.append_singleton_inj.mp hr).2
      have hlen : run.length ≤ run.length * psz := Nat.le_mul_of_pos_right _ h0
      have hm : (run.length + 1) % addressSpace = run.length + 1 := Nat.mod_eq_of_lt (by omega)
      simp only [hd, not_true_eq_false, if_false, hm]
      by_cases hn : run.length + 1 = n
      · rw [if_pos hn, if_pos hn]
        simp [← List.append_assoc]
      · rw [if_neg hn, if_neg hn]
        have ih := mallocNLoop_spec (n := n) rest pre (run ++ [q]) h0 (hj.snoc fun d hd' => by
          rw [← hd, List.headD_eq_head?_getD, hd']; rfl) (by simpa using h) (by simpa using hf)
        simpa [← List.append_assoc] using ih
    · simp only [hd, not_false_eq_true, if_true]
      have ih := mallocNLoop_spec (n := n) rest (pre ++ run ++ [q]) [] h0 (joins_nil psz rest)
        (by simpa using h)
        (by simpa using hf)
      simpa [← List.append_assoc] using ih

/-- `malloc_n` returns null and changes nothing, or cuts out the run that the search finds. -/
theorem mallocN_find {n psz csz : Nat} {s : Storage} {l : List Nat} (h8 : wordSize ≤ csz)
    (h0 : 0 < psz) (h : Threads csz s l) (hfit : ∀ c ∈ l, c + psz < addressSpace) :
    (findRun n psz [] [] l = none ∧ s.mallocN n psz = some (s, 0)) ∨
      ∃ pre r post s', findRun n psz [] [] l = some (pre, chunks psz r n, post) ∧
        l = pre ++ chunks psz r n ++ post ∧ 0 < n ∧ r ≠ 0 ∧ post.headD 0 = r + n * psz ∧
        s.mallocN n psz = some (s', r) ∧ Threads csz s' (pre ++ post) ∧
        Outside (pre.map (chunk csz)) s.mem s'.mem := by
  have hloop := mallocNLoop_spec (n := n) l [] [] h0 (joins_nil psz l) h hfit
  simp only [List.nil_append, linkAfter_nil, List.length_nil] at hloop
  cases hf : findRun n psz [] [] l with
  | none => exact .inl ⟨rfl, by rw [mallocN, hloop, hf]⟩
  | some t =>
    right
    obtain ⟨pre, run, post⟩ := t
    obtain ⟨happ, r, rfl, hn, hnext⟩ := findRun_sound l [] [] (joins_nil psz l) hf
    simp only [List.nil_append] at happ
    subst happ
    obtain ⟨ht, hout⟩ := Threads.cut pre (chunks psz r n) post h8 h
    -- the run is not empty, so the link in front of it holds its first chunk
    obtain ⟨k, rfl⟩ := Nat.exists_eq_succ_of_ne_zero (Nat.ne_of_gt hn)
    obtain ⟨q, hpr, -⟩ := path_append.mp h.path
    obtain ⟨q', hpre, hq, hr, -⟩ := path_append.mp hpr
    refine ⟨pre, r, post, _, rfl, rfl, hn, hr, hnext, ?_, ht, hout⟩
    rw [mallocN, hloop, hf]
    simp only [get_linkAfter hpre, hq]

/-- `malloc_n` returns null and changes nothing, or cuts `n` adjacent chunks out of the list. -/
theorem mallocN_spec {n psz : Nat} {s : Storage} {l : List Nat} (h8 : wordSize ≤ psz)
    (h : Threads psz s l) :
    (findRun n psz [] [] l = none ∧ s.mallocN n psz = some (s, 0)) ∨
      ∃ pre r post s', l = pre ++ chunks psz r n ++ post ∧ 0 < n ∧ r ≠ 0 ∧
        s.mallocN n psz = some (s', r) ∧ Threads psz s' (pre ++ post) ∧
        Outside (pre.map (chunk psz)) s.mem s'.mem := by
  have hw : wordSize = 8 := rfl
  rcases mallocN_find (n := n) h8 (by omega) h h.fits with hnone |
    ⟨pre, r, post, s', -, hl, hn, hr, -, hrest⟩
  · exact .inl hnone
  · exact .inr ⟨pre, r, post, s', hl, hn, hr, hrest⟩

end Gpcl.Storage
