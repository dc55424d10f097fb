import Gpcl.Storage.Use

/-! # What malloc_n finds

The search counts links, not chunks: a run of `n` chunks is taken only when the link of
its last chunk leads to one more adjacent chunk. So `malloc_n(n)` succeeds exactly when
the list holds `n + 1` adjacent entries somewhere. -/
namespace Gpcl.Storage
open Lib.Memory Lib.Chain

/-- The list holds `k` consecutive entries, each `psz` bytes after the one before it. -/
def HasRun (psz : Nat) (l : List Nat) (k : Nat) : Prop :=
  ∃ pre r post, l = pre ++ chunks psz r k ++ post

theorem getElem?_chunks {psz : Nat} :
    ∀ {k i : Nat} (r : Nat), i < k → (chunks psz r k)[i]? = some (r + i * psz)
  | k + 1, 0, r, _ => by simp [chunks]
  | k + 1, i + 1, r, h => by
    rw [chunks, List.getElem?_cons_succ, getElem?_chunks _ (by omega), Nat.succ_mul]
    congr 1
    omega

/-- The entries of a run, by position. -/
theorem getElem?_run (psz r : Nat) (pre post : List Nat) {k i : Nat} (h : i < k) :
    (pre ++ chunks psz r k ++ post)[pre.length + i]? = some (r + i * psz) := by
  rw [List.append_assoc, List.getElem?_append_right (by omega), Nat.add_sub_cancel_left,
    List.getElem?_append_left (by simpa using h), getElem?_chunks r h]

theorem HasRun.mono {psz k : Nat} {l : List Nat} (h : HasRun psz l (k + 1)) : HasRun psz l k := by
  obtain ⟨pre, r, post, rfl⟩ := h
  refine ⟨pre, r, (r + k * psz) :: post, ?_⟩
  rw [chunks_snoc]
  simp

/-- A run of a list lies in one of its parts when the chunks at the cut are not adjacent. -/
theorem HasRun.split {psz k : Nat} {xs ys : List Nat} (h : HasRun psz (xs ++ ys) k)
    (hcut : ∀ c ∈ xs.getLast?, ∀ d ∈ ys.head?, d ≠ c + psz) :
    HasRun psz xs k ∨ HasRun psz ys k := by
  obtain ⟨p, r, post, he⟩ := h
  rw [List.append_assoc] at he
  rcases List.append_eq_append_iff.mp he with ⟨a, rfl, hys⟩ | ⟨a, hxs, hrest⟩
  · exact .inr ⟨a, r, post, by rw [hys, List.append_assoc]⟩
  · rcases List.append_eq_append_iff.mp hrest with ⟨b, ha, hpost⟩ | ⟨b, hrun, hys⟩
    · exact .inl ⟨p, r, b, by rw [hxs, ha, List.append_assoc]⟩
    · -- the window is cut into `a` and `b`
      have hk : k = a.length + b.length := by simpa using congrArg List.length hrun
      rw [hk, chunks_add] at hrun
      obtain ⟨ha, hb⟩ := List.append_inj hrun (by simp)
      cases hla : a.length with
      | zero =>
        refine .inr ⟨[], r, post, ?_⟩
        rw [hys, ← hb, hk, hla]
        simp
      | succ i =>
        cases hlb : b.length with
        | zero =>
          refine .inl ⟨p, r, [], ?_⟩
          rw [hxs, ← ha, hk, hlb]
          simp
        | succ j =>
          rw [hla, chunks_snoc] at ha
          rw [hlb, hla, chunks] at hb
          refine absurd ?_ (hcut (r + i * psz) ?_ (r + (i + 1) * psz) ?_)
          · rw [Nat.succ_mul]; omega
          · rw [hxs, ← ha]; simp
          · rw [hys, ← hb]; simp

theorem hasRun_chunks {psz b n k : Nat} : HasRun psz (chunks psz b n) k ↔ k ≤ n := by
  constructor
  · intro ⟨pre, r, post, he⟩
    have := congrArg List.length he
    simp only [List.length_append, length_chunks] at this
    omega
  · intro h
    obtain ⟨j, rfl⟩ := Nat.exists_eq_add_of_le h
    exact ⟨[], b, _, by rw [chunks_add]; rfl⟩

theorem HasRun.append_left {psz k : Nat} {xs : List Nat} (h : HasRun psz xs k) (ys : List Nat) :
    HasRun psz (xs ++ ys) k := by
  obtain ⟨pre, r, post, rfl⟩ := h
  exact ⟨pre, r, post ++ ys, by simp⟩

theorem HasRun.append_right {psz k : Nat} {ys : List Nat} (xs : List Nat) (h : HasRun psz ys k) :
    HasRun psz (xs ++ ys) k := by
  obtain ⟨pre, r, post, rfl⟩ := h
  exact ⟨xs ++ pre, r, post, by simp⟩

/-- Where the search gives up there is no run of `n + 1` chunks, not even one that starts in the
run it was in. -/
theorem findRun_none {n psz : Nat} : ∀ (rest pre run : List Nat), run.length < n →
    findRun n psz pre run rest = none → ¬ HasRun psz (run ++ rest) (n + 1)
  | [], pre, run, hlen, _ => by
    rintro ⟨p, r, post, he⟩
    have := congrArg List.length he
    simp only [List.length_append, length_chunks, List.length_nil] at this
    omega
  | c :: rest, pre, run, hlen, h => by
    rw [findRun] at h
    split_ifs at h with hne hm
    · have ih := findRun_none rest _ [] (by simpa using Nat.zero_lt_of_lt hlen) h
      rintro ⟨p, r, post, he⟩
      by_cases hp : p.length ≤ run.length
      · -- the window covers `c` and the entry behind it
        obtain ⟨i, hi⟩ := Nat.exists_eq_add_of_le hp
        have hc := getElem?_run psz r p post (show i < n + 1 by omega)
        have hd := getElem?_run psz r p post (show i + 1 < n + 1 by omega)
        rw [← he, ← hi, List.getElem?_append_right (Nat.le_refl _), Nat.sub_self] at hc
        rw [← he, ← Nat.add_assoc, ← hi, List.getElem?_append_right (by omega),
          Nat.add_sub_cancel_left] at hd
        simp only [List.getElem?_cons_zero, Option.some.injEq, List.getElem?_cons_succ] at hc hd
        refine hne ?_
        rw [List.headD_eq_head?_getD, List.head?_eq_getElem?, hd, hc, Nat.succ_mul,
          Option.getD_some]
        omega
      · have he' : (run ++ [c]) ++ rest = p ++ (chunks psz r (n + 1) ++ post) := by simpa using he
        rcases List.append_eq_append_iff.mp he' with ⟨p', rfl, hrest⟩ | ⟨q, hq, hrest⟩
        · exact ih ⟨p', r, post, by simpa using hrest⟩
        · have hlen' := congrArg List.length hq
          simp only [List.length_append, List.length_singleton] at hlen'
          obtain rfl : q = [] := List.length_eq_zero_iff.mp (by omega)
          exact ih ⟨[], r, post, by simpa using hrest.symm⟩
    · have ih := findRun_none rest pre (run ++ [c]) (by simp; omega) h
      simpa using ih

/-- The search succeeds exactly on lists with a run of `n + 1` chunks. -/
theorem findRun_eq_none_iff {n psz : Nat} {l : List Nat} (hn : 0 < n) (h0 : 0 < psz) :
    findRun n psz [] [] l = none ↔ ¬ HasRun psz l (n + 1) := by
  constructor
  · intro h
    exact findRun_none l [] [] hn h
  · intro h
    by_contra hne
    obtain ⟨⟨pre, run, post⟩, hf⟩ := Option.ne_none_iff_exists'.mp hne
    obtain ⟨he, r, rfl, -, hnext⟩ := findRun_sound l [] [] (joins_nil psz l) hf
    cases post with
    | nil =>
      have := Nat.mul_pos hn h0
      simp only [List.headD_nil] at hnext
      omega
    | cons d post =>
      refine h ⟨pre, r, post, ?_⟩
      simp only [List.headD_cons] at hnext
      rw [chunks_snoc, ← hnext]
      simpa using he.symm

section
variable {n psz csz : Nat} {s : Storage} {l : List Nat}

/-- What `malloc_n(n, psz)` should do with the list: take `n` adjacent entries out of it if there
are any. -/
def TakesRun (n psz csz : Nat) (s : Storage) (l : List Nat) : Prop :=
  ∃ s' p, s.mallocN n psz = some (s', p) ∧ (p ≠ 0 ↔ HasRun psz l n) ∧ (p = 0 → s' = s) ∧
    (p ≠ 0 → ∃ pre post, l = pre ++ chunks psz p n ++ post ∧ Threads csz s' (pre ++ post))

/-- **`malloc_n(n)` finds the runs it should find exactly on the lists where a run of `n` chunks
comes with one of `n + 1`.** The chunks of the list may have any size `csz` that holds a link. -/
theorem mallocN_takes_run_iff (h8 : wordSize ≤ csz) (h0 : 0 < psz) (hn : 0 < n)
    (h : Threads csz s l) (hfit : ∀ c ∈ l, c + psz < addressSpace) :
    TakesRun n psz csz s l ↔ (HasRun psz l n → HasRun psz l (n + 1)) := by
  have hiff := findRun_eq_none_iff (l := l) hn h0
  rcases mallocN_find (n := n) h8 h0 h hfit with ⟨hf, hrun⟩ |
    ⟨pre, r, post, s', hf, hl, -, hr, -, hrun, ht, -⟩
  · have hno := hiff.mp hf
    constructor
    · intro ⟨s', p, hrun', hp, _⟩ hhas
      rw [hrun] at hrun'
      obtain ⟨-, rfl⟩ := Prod.mk.inj (Option.some.inj hrun')
      exact absurd rfl (hp.mpr hhas)
    · intro himp
      refine ⟨s, 0, hrun, ⟨fun hne => absurd rfl hne, fun hhas => absurd (himp hhas) hno⟩,
        fun _ => rfl, fun hne => absurd rfl hne⟩
  · have hhas : HasRun psz l (n + 1) := by
      by_contra hno
      rw [hiff.mpr hno] at hf
      cases hf
    exact ⟨fun _ _ => hhas,
      fun _ => ⟨s', r, hrun, ⟨fun _ => hhas.mono, fun _ => hr⟩, fun he => absurd he hr,
        fun _ => ⟨pre, post, hl, ht⟩⟩⟩

theorem mallocN_nil (h8 : wordSize ≤ csz) (h0 : 0 < psz) (h : Threads csz s []) (n : Nat) :
    s.mallocN n psz = some (s, 0) := by
  rcases mallocN_find (n := n) h8 h0 h (by simp) with ⟨-, hrun⟩ | ⟨pre, r, post, s', hf, -⟩
  · exact hrun
  · cases hf

/-- One chunk, from a list that starts with two adjacent ones. -/
theorem mallocN_one {c : Nat} (h8 : wordSize ≤ csz) (h : Threads csz s (c :: (c + csz) :: l)) :
    ∃ s', s.mallocN 1 csz = some (s', c) ∧ Threads csz s' ((c + csz) :: l) := by
  have hfind :
      findRun 1 csz [] [] (c :: (c + csz) :: l) = some ([], chunks csz c 1, (c + csz) :: l) := by
    simp [findRun, chunks]
  rcases mallocN_find (n := 1) h8 (pos_of_wordSize_le h8) h h.fits with ⟨hf, -⟩ |
    ⟨pre, r, post, s', hf, -, -, -, -, hrun, ht, -⟩
  · rw [hf] at hfind
    cases hfind
  · have he := Option.some.inj (hf.symm.trans hfind)
    simp only [chunks, Prod.mk.injEq, List.cons.injEq, and_true] at he
    obtain ⟨rfl, rfl, rfl⟩ := he
    exact ⟨s', hrun, ht⟩

/-- Two adjacent chunks and a request for one of them. -/
theorem mallocN_takes_one_of_two : ∃ s, Threads 32 s [64, 96] ∧ TakesRun 1 32 32 s [64, 96] := by
  have ht : Threads 32 (Storage.set ⟨fun _ => 0, 64⟩ (.next 64) 96) [64, 96] := by
    refine ⟨⟨rfl, by decide, ?_⟩, spread_chunks 32 64 2, by decide⟩
    rw [set_next_nextChunk (by decide)]
    exact ⟨rfl, by decide, rfl⟩
  refine ⟨_, ht,
    (mallocN_takes_run_iff (by decide) (by decide) (by decide) ht (by decide)).mpr
      fun _ => ⟨[], 64, [], rfl⟩⟩

/-- The last chunk of a list is a run of one chunk that `malloc_n(1)` does not find. -/
theorem mallocN_misses_last_chunk :
    ∃ s, Threads 32 s [64] ∧ HasRun 32 [64] 1 ∧ s.mallocN 1 32 = some (s, 0) ∧
    ¬ TakesRun 1 32 32 s [64] := by
  have ht : Threads 32 ⟨fun _ => 0, 64⟩ [64] :=
    ⟨⟨rfl, by decide, rfl⟩, spread_chunks 32 64 1, by decide⟩
  have hhas : HasRun 32 [64] 1 := ⟨[], 64, [], rfl⟩
  have hnull : Storage.mallocN ⟨fun _ => 0, 64⟩ 1 32 = some (⟨fun _ => 0, 64⟩, 0) := by
    rcases mallocN_find (n := 1) (by decide) (by decide) ht ht.fits with ⟨-, hrun⟩ |
      ⟨pre, r, post, s', hf, -⟩
    · exact hrun
    · exact absurd hf (by simp [findRun])
  refine ⟨_, ht, hhas, hnull, ?_⟩
  rintro ⟨s', p, hrun, hp, -⟩
  rw [hnull] at hrun
  obtain ⟨-, rfl⟩ := Prod.mk.inj (Option.some.inj hrun)
  exact hp.mpr hhas rfl

end

end Gpcl.Storage
