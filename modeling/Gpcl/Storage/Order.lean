import Mathlib.Data.List.TakeWhile
import Gpcl.Storage.Use

/-! # Address order of the free list

The ordered operations are documented to keep the free list in address order.
`upper_bound` never compares its argument with the head of the list, so an
insertion below the head ends up behind it. The list is in order after every step
of a run exactly when no insertion of the run goes below the head. -/
namespace Gpcl.Storage
open Lib.Memory Lib.Chain Lib.Runs

/-- The operations that are documented to keep an ordered list ordered. -/
def Op.KeepsOrder : Op → Prop
  | .addOrderedBlock .. | .malloc | .mallocN _ | .orderedFree _ | .orderedFreeN .. | .write .. =>
    True
  | .addBlock .. | .free _ | .freeN .. => False

def OrderedStep (psz : Nat) (w : World) (op : Op) (w' : World) : Prop :=
  op.KeepsOrder ∧ Step psz w op w'

def Ascending (w : World) : Prop := ∃ l, FreeChunks w.st l ∧ l.Pairwise (· < ·)

/-- An insertion that does not go below the head of the list. -/
def Op.AboveHead (w : World) : Op → Prop
  | .addOrderedBlock p _ | .orderedFree p | .orderedFreeN p _ =>
    w.st.freeList = 0 ∨ w.st.freeList < p
  | _ => True

theorem orderedStep_deterministic (psz : Nat) : Deterministic (OrderedStep psz) := by
  rintro w op w₁ w₂ ⟨-, -, p, h₁⟩ ⟨-, -, q, h₂⟩
  rw [h₁] at h₂
  exact (Prod.mk.inj (Option.some.inj h₂)).1

theorem chunks_sorted {psz : Nat} (h0 : 0 < psz) (b k : Nat) :
    (chunks psz b k).Pairwise (· < ·) := by
  induction k generalizing b with
  | zero => exact List.Pairwise.nil
  | succ k ih =>
    refine List.pairwise_cons.mpr ⟨fun c hc => ?_, ih (b + psz)⟩
    obtain ⟨i, -, rfl⟩ := mem_chunks.mp hc
    omega

theorem lt_of_mem_dropWhile {p : Nat} {l : List Nat} (hl : l.Pairwise (· < ·)) :
    ∀ c ∈ l.dropWhile (· ≤ p), p < c := by
  induction l with
  | nil => simp
  | cons a l ih =>
    obtain ⟨ha, hl⟩ := List.pairwise_cons.mp hl
    rw [List.dropWhile_cons]
    split
    · exact ih hl
    · rename_i hp
      have hp : p < a := by simpa using hp
      intro c hc
      rcases List.mem_cons.mp hc with rfl | hc
      · exact hp
      · exact Nat.lt_trans hp (ha c hc)

/-- Inserting above the head keeps the order: nothing of the list lies among the
inserted chunks. -/
theorem orderedInsert_sorted {p : Nat} {cs l : List Nat} (hl : l.Pairwise (· < ·))
    (hcs : cs.Pairwise (· < ·)) (hhead : ∀ a ∈ l.head?, a ≤ p)
    (hlo : ∀ c ∈ l, c ≤ p → ∀ d ∈ cs, c < d) (hhi : ∀ c ∈ l, p < c → ∀ d ∈ cs, d < c) :
    (orderedInsert p cs l).Pairwise (· < ·) := by
  cases l with
  | nil => simpa [orderedInsert, upperSplit] using hcs
  | cons a l =>
    have hap : a ≤ p := hhead a (by simp)
    obtain ⟨ha, hl'⟩ := List.pairwise_cons.mp hl
    have hlow : ∀ c ∈ a :: l.takeWhile (· ≤ p), c ∈ a :: l ∧ c ≤ p := by
      intro c hc
      rcases List.mem_cons.mp hc with rfl | hc
      · exact ⟨by simp, hap⟩
      · have hle : c ≤ p := by simpa using List.mem_takeWhile_imp hc
        exact ⟨List.mem_cons_of_mem _ ((List.takeWhile_sublist _).subset hc), hle⟩
    have hhigh : ∀ c ∈ l.dropWhile (· ≤ p), c ∈ a :: l ∧ p < c := fun c hc =>
      ⟨List.mem_cons_of_mem _ ((List.dropWhile_sublist _).subset hc), lt_of_mem_dropWhile hl' c hc⟩
    refine List.pairwise_append.mpr ⟨List.pairwise_append.mpr ⟨?_, hcs, ?_⟩, ?_, ?_⟩
    · exact hl.sublist ((List.takeWhile_sublist _).cons_cons a)
    · exact fun c hc d hd => hlo c (hlow c hc).1 (hlow c hc).2 d hd
    · exact hl'.sublist (List.dropWhile_sublist _)
    · intro c hc d hd
      rcases List.mem_append.mp hc with hc | hc
      · exact Nat.lt_of_le_of_lt (hlow c hc).2 (hhigh d hd).2
      · exact hhi d (hhigh d hd).1 (hhigh d hd).2 c hc

/-- The same for chunks that lie in a region which meets no chunk of the list. -/
theorem orderedInsert_region {psz sz p : Nat} {cs l : List Nat} (h0 : 0 < psz) (hsz : psz ≤ sz)
    (hl : l.Pairwise (· < ·)) (hcs : cs.Pairwise (· < ·)) (hhead : ∀ a ∈ l.head?, a ≤ p)
    (hin : ∀ d ∈ cs, (chunk psz d).Inside ⟨p, sz⟩)
    (hd : ∀ c ∈ l, (chunk psz c).Disjoint ⟨p, sz⟩) : (orderedInsert p cs l).Pairwise (· < ·) := by
  refine orderedInsert_sorted hl hcs hhead ?_ ?_
  all_goals
    intro c hc hp d hd'
    have := hin d hd'
    have := hd c hc
    simp only [Region.Inside, Region.Disjoint, Region.stop, chunk] at *
    omega

theorem head_le_of_aboveHead {psz p : Nat} {w : World} {l : List Nat} (h : Threads psz w.st l)
    (ha : w.st.freeList = 0 ∨ w.st.freeList < p) : ∀ a ∈ l.head?, a ≤ p := by
  intro a hm
  cases l with
  | nil => simp at hm
  | cons c l =>
    obtain rfl : c = a := by simpa using hm
    obtain ⟨he, hne, -⟩ := h.path
    omega

/-- An insertion whose result is in order did not go below the head. -/
theorem aboveHead_of_sorted {psz p : Nat} {w : World} {cs l : List Nat} (h : Threads psz w.st l)
    (hs : (orderedInsert p (p :: cs) l).Pairwise (· < ·)) :
    w.st.freeList = 0 ∨ w.st.freeList < p := by
  cases l with
  | nil => exact .inl h.path
  | cons a l =>
    right
    rw [h.path.1]
    have hs :
        (a :: (l.takeWhile (· ≤ p) ++ (p :: cs) ++ l.dropWhile (· ≤ p))).Pairwise (· < ·) := hs
    exact (List.pairwise_cons.mp hs).1 p (by simp)

section
variable {psz : Nat} {w w' : World} {l : List Nat} {op : Op}

/-- A step from an ordered list leads to an ordered list exactly when it inserts
nothing below the head. -/
theorem Inv.ascending_step (h : Inv psz w l) (h8 : wordSize ≤ psz) (hl : l.Pairwise (· < ·))
    (hs : OrderedStep psz w op w') : Ascending w' ↔ op.AboveHead w := by
  have h0 : 0 < psz := pos_of_wordSize_le h8
  obtain ⟨hk, hst⟩ := hs
  obtain ⟨p, l', he, hi, -, -⟩ := h.step_spec h8 hst
  have hasc : Ascending w' ↔ l'.Pairwise (· < ·) := by
    refine ⟨fun ⟨l₂, hp, hs⟩ => ?_, fun hs => ⟨l', hi.threads.path, hs⟩⟩
    rwa [hi.threads.path.unique hp]
  rw [hasc]
  have ha := hst.1
  cases he with
  | addBlock | free | freeN => exact absurd hk id
  | @addOrderedBlock block sz l =>
    obtain ⟨-, hsz, -, hd⟩ := ha
    refine ⟨aboveHead_of_sorted h.threads, fun hab => ?_⟩
    exact orderedInsert_region h0 hsz hl (chunks_sorted h0 _ _) (head_le_of_aboveHead h.threads hab)
      (fun d hd' => chunk_inside_block hsz hd')
      (fun c hc => h.block_fresh hd c (List.mem_append_left _ hc))
  | @malloc c l => exact ⟨fun _ => trivial, fun _ => (List.pairwise_cons.mp hl).2⟩
  | mallocNull _ => exact ⟨fun _ => trivial, fun _ => hl⟩
  | @mallocN n p pre post _ _ =>
    refine ⟨fun _ => trivial, fun _ => hl.sublist ?_⟩
    exact (List.sublist_append_left _ _).append_right _
  | @orderedFree p l =>
    obtain ⟨-, hsz, -, hd⟩ := h.grant_placed h0 ha
    refine ⟨aboveHead_of_sorted h.threads, fun hab => ?_⟩
    refine orderedInsert_region h0 hsz hl (List.pairwise_singleton _ _)
      (head_le_of_aboveHead h.threads hab) (fun d hd' => ?_) hd
    rw [List.mem_singleton.mp hd', Nat.mul_one]
    exact .refl _
  | @orderedFreeN p n l =>
    obtain ⟨-, hsz, -, hd⟩ := h.grant_placed h0 ha
    refine ⟨aboveHead_of_sorted h.threads, fun hab => ?_⟩
    exact orderedInsert_region h0 hsz hl (chunks_sorted h0 _ _) (head_le_of_aboveHead h.threads hab)
      (fun d hd' => chunk_inside_block hsz hd') hd
  | write => exact ⟨fun _ => trivial, fun _ => hl⟩

end

/-- **The list is in address order after every step of a run of ordered operations if and
only if no operation of the run inserts below the head of the list.** -/
theorem ascending_iff_aboveHead {psz : Nat} (h0 : 0 < psz) (hw : wordSize ∣ psz) {m : Mem}
    {ops : List Op} {w : World} (h : Run (OrderedStep psz) (World.start m) ops w) :
    (∀ pre post v, ops = pre ++ post → Run (OrderedStep psz) (World.start m) pre v → Ascending v) ↔
      (∀ pre op post v, ops = pre ++ op :: post →
        Run (OrderedStep psz) (World.start m) pre v → op.AboveHead v) := by
  have h8 : wordSize ≤ psz := Nat.le_of_dvd h0 hw
  have hstep : ∀ t op u, (∃ l, Inv psz t l ∧ l.Pairwise (· < ·)) → OrderedStep psz t op u →
      (Ascending u ↔ op.AboveHead t) := by
    intro t op u ⟨l, hi, hl⟩ hs
    exact hi.ascending_step h8 hl hs
  refine h.always_iff (J := fun w => ∃ l, Inv psz w l ∧ l.Pairwise (· < ·))
    (orderedStep_deterministic _) ⟨[], inv_start psz m, List.Pairwise.nil⟩ ?_ ?_ ?_
  · exact fun t ⟨l, hi, hl⟩ => ⟨l, hi.threads.path, hl⟩
  · intro t op u ht hs hg
    obtain ⟨l₁, hp, hl₁⟩ := (hstep t op u ht hs).mpr hg
    obtain ⟨l, hi, hl⟩ := ht
    obtain ⟨-, l', -, hi', -⟩ := hi.step_spec h8 hs.2
    exact ⟨l', hi', hi'.threads.path.unique hp ▸ hl₁⟩
  · exact fun t op u ht hs hg ha => hg ((hstep t op u ht hs).mp ha)

/-- An array and a chunk, given back in the order of their addresses. -/
theorem ascending_frees : ∃ w, Run (OrderedStep 16) (World.start fun _ => 0)
    [.addOrderedBlock 4096 64, .mallocN 2, .malloc, .orderedFreeN 4096 2, .orderedFree 4128] w ∧
      w.st.freeList = 4096 ∧ Ascending w := by
  obtain ⟨w₁, p₁, l₁, hs₁, he₁, hi₁, hb₁, hlive₁⟩ := (inv_start 16 fun _ => 0).progress (by decide)
    (show Op.Allowed 16 _ (.addOrderedBlock 4096 64) from
      ⟨by decide, by decide, by decide, by simp [World.start]⟩)
  cases he₁
  obtain ⟨w₂, hs₂, hi₂, -, hlive₂⟩ := hi₁.takesN (by decide) (by decide)
    (show findRun 2 16 [] [] _ = some ([], chunks 16 4096 2, [4128]) by decide)
  obtain ⟨w₃, hs₃, hi₃, -, hlive₃⟩ := hi₂.takes (by decide)
  have hlive : w₃.live = [(4128, 1), (4096, 2)] := by rw [hlive₃, hlive₂, hlive₁]; rfl
  obtain ⟨w₄, p₄, l₄, hs₄, he₄, hi₄, -, hlive₄⟩ := hi₃.progress (by decide)
    (show Op.Allowed 16 w₃ (.orderedFreeN 4096 2) by simp [Op.Allowed, hlive])
  cases he₄
  obtain ⟨w₅, p₅, l₅, hs₅, he₅, hi₅, -⟩ := hi₄.progress (by decide)
    (show Op.Allowed 16 w₄ (.orderedFree 4128) by simp [Op.Allowed, hlive₄, hlive, Op.liveAfter])
  cases he₅
  have hr₁ : Run (OrderedStep 16) _ [.addOrderedBlock 4096 64] w₁ := .single ⟨trivial, hs₁⟩
  have hr₂ := hr₁.snoc (show OrderedStep 16 w₁ (.mallocN 2) w₂ from ⟨trivial, hs₂⟩)
  have hr₃ := hr₂.snoc (show OrderedStep 16 w₂ .malloc w₃ from ⟨trivial, hs₃⟩)
  have hr₄ := hr₃.snoc (show OrderedStep 16 w₃ (.orderedFreeN 4096 2) w₄ from ⟨trivial, hs₄⟩)
  have hr₅ := hr₄.snoc (show OrderedStep 16 w₄ (.orderedFree 4128) w₅ from ⟨trivial, hs₅⟩)
  have hiff := ascending_iff_aboveHead (by decide) (by decide) hr₅
  refine ⟨w₅, hr₅, hi₅.threads.path.1, hiff.mpr ?_ _ [] w₅ (by simp) hr₅⟩
  have hd := orderedStep_deterministic 16
  refine hr₄.steps_snoc hd (hr₃.steps_snoc hd (hr₂.steps_snoc hd (hr₁.steps_snoc hd
    (Run.nil.steps_snoc hd steps_nil (.inl rfl)) trivial) trivial) (.inl hi₃.threads.path))
      (.inr ?_)
  rw [hi₄.threads.path.1]
  decide

/-- Taking the first chunk of a block and giving it back leaves the list out of order:
4112, 4096, 4128. -/
theorem orderedFree_below_head : ∃ w, Run (OrderedStep 16) (World.start fun _ => 0)
    [.addOrderedBlock 4096 64, .malloc, .orderedFree 4096] w ∧ ¬ Ascending w := by
  obtain ⟨w₁, p₁, l₁, hs₁, he₁, hi₁, -, hlive₁⟩ := (inv_start 16 fun _ => 0).progress (by decide)
    (show Op.Allowed 16 _ (.addOrderedBlock 4096 64) from
      ⟨by decide, by decide, by decide, by simp [World.start]⟩)
  cases he₁
  obtain ⟨w₂, hs₂, hi₂, -, hlive₂⟩ := hi₁.takes (c := 4096) (l := [4112, 4128]) (by decide)
  obtain ⟨w₃, p₃, l₃, hs₃, he₃, hi₃, -⟩ := hi₂.progress (by decide)
    (show Op.Allowed 16 _ (.orderedFree 4096) by simp [Op.Allowed, hlive₂])
  cases he₃
  refine ⟨w₃, ((Run.single ⟨trivial, hs₁⟩).snoc ⟨trivial, hs₂⟩).snoc ⟨trivial, hs₃⟩, ?_⟩
  rintro ⟨l, hl, hasc⟩
  rw [← hi₃.threads.path.unique hl] at hasc
  exact absurd hasc (by decide)

end Gpcl.Storage
