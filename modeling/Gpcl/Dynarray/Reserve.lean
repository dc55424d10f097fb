import Gpcl.Dynarray.Spec

/-! # Reallocation

`reserve` takes the buffer out of the array, keeps it in local variables, and puts it
back when an element cannot be copied. The old buffer is the array under the key `none`
while that lasts. Once `allocate` has returned, an exception leaves everything as it was;
the exception of `allocate` itself does not. -/
namespace Gpcl.Dynarray
open Lib.Memory Lib.Objects Lib.Objects.Heap
open Lib.Objects.Prog hiding pure bind

variable {α A : Type} {t : Traits α A} {s : State α A} {x : Option (Dynarray A)}
    {ls : Key → List (Obj α)}
  {a n : Nat} {d : Dynarray A}

/-- Lists at keys without an array do not matter. -/
theorem Owns.congr {h : Heap α A} {ds : Key → Option (Dynarray A)} {ls' : Key → List (Obj α)}
    (ho : Owns t h ds ls) (hl : ∀ k, ds k ≠ none → ls' k = ls k) : Owns t h ds ls' := by
  refine ⟨fun k d hk => ?_, ho.apart, ho.owned⟩
  rw [hl k (by rw [hk]; exact nofun)]
  exact ho.shape k d hk

theorem Inv.congr {ls' : Key → List (Obj α)} (hi : Inv t s none ls)
    (hl : ∀ a, ls' (some a) = ls (some a)) : Inv t s none ls' := by
  refine ⟨hi.ledger, hi.owns.congr fun k hk => ?_, hi.fresh⟩
  cases k with
  | none => exact absurd rfl hk
  | some a => exact hl a

/-- The arrays of a program are what they should be. -/
def WellFormed (t : Traits α A) (s : State α A) : Prop := ∃ ls, Inv t s none ls

/-- The same array objects, whatever they hold. -/
def SameArrays (s s' : State α A) : Prop := ∀ a, (s'.arrs a).isSome = (s.arrs a).isSome

theorem Sets.sameArrays {s' : State α A} {d' : Dynarray A} (h : Sets s s' a d')
    (ha : s.arrs a = some d) :
    SameArrays s s' := by
  intro a'
  rw [h.arrs]
  by_cases haa : a' = a
  · rw [haa, Function.update_self, ha]; rfl
  · rw [Function.update_of_ne haa]

/-- Before there is any array. `fail` says which calls throw. -/
def initial (fail : Nat → Bool) : State α A :=
  ⟨⟨fun _ => none, 0, 0, [], 0, fail⟩, fun _ => none, 0⟩

theorem Inv.initial (fail : Nat → Bool) : Inv t (initial fail) none (fun _ => []) := by
  refine ⟨⟨List.nodup_nil, nofun, nofun, nofun, nofun, nofun, fun _ _ => rfl⟩, ⟨?_, ?_, nofun⟩,
    fun _ _ => rfl⟩
  · intro k d hk
    cases k <;> cases hk
  · intro k k' d d' b hk
    cases k <;> cases hk

/-- A new array without a buffer. -/
theorem Inv.created (hi : Inv t s x ls) (al : A) :
    Inv t ⟨s.heap, Function.update s.arrs s.nextArr (some ⟨al, none, 0, 0⟩), s.nextArr + 1⟩ x
      (Function.update ls (some s.nextArr) []) := by
  refine ⟨hi.ledger, ?_, fun a ha => ?_⟩
  · rw [fam_arr]
    refine hi.owns.drop (fun _ _ _ _ _ _ => rfl) (fun d b hd => ?_) (fun _ _ => id) _ fun e he => ?_
    · rw [show fam s x (some s.nextArr) = none from hi.fresh _ (Nat.le_refl _)] at hd
      cases hd
    · obtain rfl := Option.some.inj he
      exact ⟨rfl, rfl, rfl⟩
  · dsimp only at ha ⊢
    rw [Function.update_of_ne (by omega)]
    exact hi.fresh a (by omega)

/-- One round of `reserve`: the element is moved, or copied if moving may throw. -/
theorem Inv.relocateOne_spec (hi : Inv t s x ls) (ha : s.arrs a = some d)
    (hlt : d.size < d.capacity) {k : Key} {o : Dynarray A} (hk : fam s x k = some o)
    (hne : k ≠ some a) {j : Nat} {e : Obj α} (hj : (ls k)[j]? = some e) :
    Post ((do constructMoveIfNoexcept t d.data d.size o.data j;
              setArr a { d with size := d.size + 1 }) s)
      (fun _ s' => (∃ e', Inv t s' x (Function.update (Function.update ls (some a)
          (ls (some a) ++ [⟨s.heap.nextObj, e.val⟩])) k ((ls k).set j e')) ∧
            (t.nothrowMove = false → e' = e)) ∧
        Sets s s' a { d with size := d.size + 1 })
      (fun s' => Inv t s' x ls ∧ s'.arrs = s.arrs ∧ s'.nextArr = s.nextArr ∧
        t.nothrowMove = false) := by
  unfold constructMoveIfNoexcept
  by_cases hnm : t.nothrowMove = true
  · rw [if_pos hnm]
    refine (hi.moveOne_spec ha hlt hk hne hj).mono ?_ (fun _ => id)
    rintro - s' ⟨hi', hset⟩
    exact ⟨⟨_, hi', fun hf => by rw [hnm] at hf; cases hf⟩, hset⟩
  · rw [if_neg hnm]
    refine (hi.append_spec ha hlt _).mono ?_ ?_
    · rintro - s' ⟨hi', hset, -⟩
      rw [hi.read_ref hk hj] at hi'
      refine ⟨⟨e, ?_, fun _ => rfl⟩, hset⟩
      have hself : (ls k).set j e = Function.update ls (some a)
          (ls (some a) ++ [⟨s.heap.nextObj, e.val⟩]) k := by
        rw [Function.update_of_ne hne]
        obtain ⟨hjl, rfl⟩ := List.getElem?_eq_some_iff.mp hj
        exact List.set_getElem_self hjl
      rwa [hself, Function.update_eq_self]
    · intro s' ⟨hi', harr, hnext⟩
      exact ⟨hi', harr, hnext, Bool.eq_false_iff.mpr hnm⟩

/-- The loop that fills the new buffer. `l₀` is what the old one held when the loop was entered:
its elements from the present round on are as they were, and all of them if moving may throw. -/
theorem Inv.relocateLoop_spec (n : Nat) {s : State α A} {d : Dynarray A} {ls : Key → List (Obj α)}
    (hi : Inv t s x ls) (ha : s.arrs a = some d) {k : Key} {o : Dynarray A}
    (hk : fam s x k = some o) (hne : k ≠ some a) (hcap : d.size + n ≤ d.capacity)
    (l₀ : List (Obj α)) (hlen : d.size + n = l₀.length)
    (hvals : (ls (some a)).map Obj.val = (l₀.take d.size).map Obj.val)
    (hrest : (ls k).drop d.size = l₀.drop d.size) (hold : (ls k).length = l₀.length)
    (hcopy : t.nothrowMove = false → ls k = l₀) :
    Post (relocateLoop t a o.data n s)
      (fun _ s' => ∃ ls', Inv t s' x ls' ∧ (∀ j, j ≠ some a → j ≠ k → ls' j = ls j) ∧
        (ls' (some a)).map Obj.val = l₀.map Obj.val ∧ (ls' k).length = l₀.length ∧
        Sets s s' a { d with size := l₀.length })
      (fun s' => ∃ l, Inv t s' x (Function.update (Function.update ls (some a) l) k l₀) ∧
        Sets s s' a { d with size := l.length }) := by
  induction n generalizing s d ls with
  | zero =>
    rw [Nat.add_zero] at hlen
    refine ⟨ls, hi, fun _ _ _ => rfl, ?_, hold, ?_⟩
    · rw [hvals, hlen, List.take_length]
    · rw [← hlen]; exact Sets.refl ha
  | succ n ih =>
    have hlt : d.size < l₀.length := by omega
    have hej : (ls k)[d.size]? = some l₀[d.size] := by
      have := congrArg (·[0]?) hrest
      rw [← List.getElem?_eq_getElem hlt]
      simpa only [List.getElem?_drop, Nat.add_zero] using this
    rw [relocateLoop, bind_ok (arr_apply ha), ← bind_assoc]
    refine Post.bind ((hi.relocateOne_spec ha (by omega) hk hne hej).mono (fun _ _ => id) ?_) ?_
    · intro s₁ ⟨hi₁, harr, hnext, hnm⟩
      refine ⟨ls (some a), ?_, ⟨?_, hnext⟩⟩
      · rwa [Function.update_eq_self, ← hcopy hnm, Function.update_eq_self]
      · rw [harr, ← (hi.shape ha).size]
        exact (Sets.refl ha).arrs
    · rintro - s₁ ⟨⟨e', hi₁, he'⟩, hset₁⟩
      have hsz : d.size = (ls (some a)).length := (hi.shape ha).size
      have hval₁ : Function.update (Function.update ls (some a)
          (ls (some a) ++ [⟨s.heap.nextObj, l₀[d.size].val⟩])) k ((ls k).set d.size e') (some a) =
          ls (some a) ++ [⟨s.heap.nextObj, l₀[d.size].val⟩] := by
        rw [Function.update_of_ne hne.symm, Function.update_self]
      refine (ih hi₁ hset₁.self (by rw [hset₁.fam_ne hne]; exact hk) (by dsimp only; omega)
        (by dsimp only; omega)
        ?_ ?_ ?_ ?_).mono ?_ ?_
      · rw [hval₁, List.map_append, hvals, List.take_succ_eq_append_getElem hlt, List.map_append]
        rfl
      · rw [Function.update_self, List.drop_set_of_lt (Nat.lt_succ_self _)]
        simpa only [List.drop_drop] using congrArg (List.drop 1) hrest
      · rw [Function.update_self, List.length_set]; exact hold
      · intro hnm
        rw [Function.update_self, he' hnm, hcopy hnm]
        exact List.set_getElem_self hlt
      · rintro - s₂ ⟨ls', hi₂, hothers, hmap, hl, hset₂⟩
        refine ⟨ls', hi₂, fun j hja hjk => ?_, hmap, hl, hset₁.trans hset₂⟩
        rw [hothers j hja hjk, Function.update_of_ne hjk, Function.update_of_ne hja]
      · intro s₂ ⟨l, hi₂, hset₂⟩
        refine ⟨l, ?_, hset₁.trans hset₂⟩
        rwa [Function.update_comm hne, Function.update_idem, Function.update_idem] at hi₂

/-- The loop that empties the old buffer. -/
theorem Inv.destroyBackup_spec (os : List (Obj α)) {s : State α A} {o : Dynarray A}
    {ls : Key → List (Obj α)} (hi : Inv t s (some o) ls) (hl : ls none = os) :
    ∃ h', destroyBackup o.data os.length s = .ok () { s with heap := h' } ∧
      Inv t { s with heap := h' } (some { o with size := 0 }) (Function.update ls none []) := by
  induction os using List.reverseRecOn generalizing s o ls with
  | nil =>
    refine ⟨s.heap, rfl, ?_⟩
    have hz : o.size = 0 := by simpa [hl] using (hi.owns.shape none o rfl).size
    rwa [← hl, Function.update_eq_self, ← hz]
  | append_singleton os e ih =>
    have hs := hi.owns.shape none o rfl
    rw [hl] at hs
    rcases data_cases o with hd | ⟨b, hd⟩
    · exact absurd ((shape_null hd).mp hs).1 (by simp)
    · obtain ⟨hsz, hle, hmax, al, hal, hbuf⟩ := (shape_some hd).mp hs
      rw [List.length_append, List.length_singleton] at hsz hle
      have hdes := destroy_row hbuf
      rw [show o.capacity - (os ++ [e]).length + 1 = o.capacity - os.length by
        rw [List.length_append, List.length_singleton]; omega] at hdes
      obtain ⟨h₁, hdes, hbufs⟩ : ∃ h₁, s.heap.destroy b os.length = some h₁ ∧ h₁.bufs =
          Function.update s.heap.bufs b (some ⟨al, row os (o.capacity - os.length)⟩) :=
            ⟨_, hdes, rfl⟩
      have hshape : Shape t h₁ { o with size := os.length } os :=
        (shape_some (d := { o with size := os.length }) hd).mpr
          ⟨rfl, by dsimp only; omega, hmax, al, hal, by rw [hbufs, Function.update_self]⟩
      have hi₁ :
          Inv t { s with heap := h₁ } (some { o with size := os.length })
            (Function.update ls none os) := by
        refine ⟨hi.ledger.destroy hdes, ?_, hi.fresh⟩
        rw [fam_local (some o)]
        exact hi.owns.set (k := none) rfl hd hd
          (fun b' hne => by rw [hbufs, Function.update_of_ne hne]) hshape
      obtain ⟨h', hloop, hi'⟩ := ih hi₁ (Function.update_self ..)
      refine ⟨h', ?_, by rwa [Function.update_idem] at hi'⟩
      have hrun : destroyAt o.data os.length s = .ok () { s with heap := h₁ } := by
        simp only [destroyAt, onHeap, hd, Option.bind_some, hdes]
      rw [List.length_append, List.length_singleton, destroyBackup, bind_ok hrun]
      exact hloop

/-! ## The allocator -/

theorem allocate_ok (al : A) (hf : allocFails s n = false) :
    allocate al n s = .ok (s.heap.next.2.allocate al n).2
      { s with heap := (s.heap.next.2.allocate al n).1 } := by
  unfold allocate
  rw [hf]
  rfl

theorem allocate_thrown (al : A) (hf : allocFails s n = true) :
    allocate al n s = .thrown { s with heap := s.heap.next.2 } := by
  unfold allocate
  rw [hf]
  rfl

/-- The buffer just allocated, in an array that had none. -/
theorem Inv.acquire (hi : Inv t s x ls) (ha : s.arrs a = some d) (hd : d.data = none)
    (hf : allocFails s n = false) :
    Inv t ⟨(s.heap.next.2.allocate d.alloc n).1, Function.update s.arrs a
        (some ⟨d.alloc, some (s.heap.next.2.allocate d.alloc n).2, 0, n⟩), s.nextArr⟩ x
      (Function.update ls (some a) []) := by
  have hmax : n ≤ maxSize := by
    simp only [allocFails, Bool.or_eq_false_iff, decide_eq_false_iff_not] at hf
    omega
  refine ⟨hi.ledger.next.allocate d.alloc n, ?_, fresh_update hi.fresh (hi.arr_lt ha)⟩
  rw [fam_arr]
  refine hi.owns.acquire (k := some a) (fun e he => ?_) (hi.ledger.fresh _ (Nat.le_refl _)) rfl
    (fun b' hne => ?_) ?_
  · obtain rfl := Option.some.inj (ha.symm.trans he)
    exact hd
  · exact Function.update_of_ne hne ..
  · refine (shape_some (b := s.heap.nextBuf) rfl).mpr
      ⟨rfl, Nat.zero_le _, hmax, d.alloc, t.equal_refl _, ?_⟩
    exact Function.update_self ..

/-! ## The local variables of reserve -/

/-- The buffer of an array goes to the local variables. -/
theorem Inv.takeOut (hi : Inv t s none ls) (ha : s.arrs a = some d) :
    Inv t { s with arrs := Function.update s.arrs a (some ⟨d.alloc, none, 0, 0⟩) } (some d)
      (Function.update (Function.update ls none (ls (some a))) (some a) []) := by
  refine ⟨hi.ledger, ?_, fresh_update hi.fresh (hi.arr_lt ha)⟩
  have hnull := hi.owns.drop (k := none) (fun _ _ _ _ _ _ => rfl) nofun (fun _ _ => id)
    (some ⟨d.alloc, none, 0, 0⟩) fun e he => by
      obtain rfl := Option.some.inj he
      exact ⟨rfl, rfl, rfl⟩
  have hex := hnull.exchange (k := none) (Function.update_self ..) (by
    rw [Function.update_of_ne (Option.some_ne_none a)]; exact ha) (Like.refl d) (Like.refl _)
  rw [Function.update_idem, Function.update_idem, Function.update_self,
    Function.update_of_ne (Option.some_ne_none a)] at hex
  rwa [fam_arr, fam_local none]

/-- The buffer in the local variables goes back to the array, which has none. -/
theorem Inv.putBack {o : Dynarray A} (hi : Inv t s (some o) ls)
    (ha : s.arrs a = some ⟨o.alloc, none, 0, 0⟩) :
    Inv t { s with arrs := Function.update s.arrs a (some o) } none
      (Function.update ls (some a) (ls none)) := by
  refine ⟨hi.ledger, ?_, fresh_update hi.fresh (hi.arr_lt ha)⟩
  have hfam : fam s (some o) (some a) = some ⟨o.alloc, none, 0, 0⟩ := ha
  have hex := hi.owns.exchange (k := none) rfl hfam (Like.refl _) (Like.refl o)
  have hnull : ls (some a) = [] := ((shape_null rfl).mp (hi.shape ha)).1
  have hdrop := hex.drop (k := none) (fun _ _ _ _ _ _ => rfl) (fun e b he hb => ?_)
    (fun _ _ => id) none nofun
  · rw [hnull, Function.update_comm (Option.some_ne_none a).symm, Function.update_idem,
      Function.update_comm (Option.some_ne_none a).symm, Function.update_idem,
      Function.update_comm (Option.some_ne_none a)] at hdrop
    rw [fam_arr, fam_local (some o)]
    refine hdrop.congr fun k hk => ?_
    cases k with
    | none =>
      rw [Function.update_of_ne (Option.some_ne_none a).symm, Function.update_self] at hk
      exact absurd rfl hk
    | some k => rw [Function.update_of_ne (Option.some_ne_none k)]
  · rw [Function.update_of_ne (Option.some_ne_none a).symm, Function.update_self] at he
    rw [← Option.some.inj he] at hb
    cases hb

/-! ## reserve -/

theorem reserve_le (ha : s.arrs a = some d) (hn : n ≤ d.capacity) : reserve t a n s = .ok () s := by
  rw [reserve, bind_ok (arr_apply ha), if_pos hn]
  rfl

/-- `allocate` throws: the array keeps its buffer, under the size and the capacity of the new
one. -/
theorem reserve_fails (ha : s.arrs a = some d) (hn : d.capacity < n) (hf : allocFails s n = true) :
    reserve t a n s = .thrown ⟨s.heap.next.2,
      Function.update s.arrs a (some { d with size := 0, capacity := n }), s.nextArr⟩ := by
  rw [reserve, bind_ok (arr_apply ha), if_neg (Nat.not_le.mpr hn)]
  rw [bind_ok (setArr_apply ..)]
  exact bind_thrown (allocate_thrown d.alloc hf)

/-- The body of the `try` block. -/
theorem Inv.reallocate_spec {D : Dynarray A} (hi : Inv t s (some d) ls) (ha : s.arrs a = some D)
    (hz : D.size = 0) (hcap : d.size ≤ D.capacity) :
    Post ((do
        relocateLoop t a d.data d.size
        destroyBackup d.data d.size
        deallocate t d.alloc d.data d.capacity) s)
      (fun _ s' => ∃ l, l.map Obj.val = (ls none).map Obj.val ∧
        Inv t s' none (Function.update ls (some a) l) ∧
        Sets s s' a { D with size := d.size })
      (fun s' => ∃ l, Inv t s' (some d) (Function.update ls (some a) l) ∧
        Sets s s' a { D with size := l.length }) := by
  have hsz : d.size = (ls none).length := (hi.owns.shape none d rfl).size
  have hnil : ls (some a) = [] := List.length_eq_zero_iff.mp ((hi.shape ha).size.symm.trans hz)
  refine Post.bind ((hi.relocateLoop_spec d.size ha (k := none) rfl (Option.some_ne_none a).symm
    (by omega) (ls none)
    (by omega) (by simp [hnil, hz]) rfl rfl (fun _ => rfl)).mono (fun _ _ => id) ?_) ?_
  · intro s₁ ⟨l, hi₁, hset₁⟩
    refine ⟨l, ?_, hset₁⟩
    rwa [Function.update_comm (Option.some_ne_none a), Function.update_eq_self] at hi₁
  · rintro - s₁ ⟨ls₁, hi₁, hothers, hmap, hlen, hset₁⟩
    obtain ⟨h₂, hdes, hi₂⟩ := hi₁.destroyBackup_spec (ls₁ none) rfl
    obtain ⟨h₃, hdeal, hled, howns⟩ := hi₂.deallocate_spec (k := none) rfl (Function.update_self ..)
    rw [hlen, ← hsz] at hdes
    rw [bind_ok hdes,
      show deallocate t d.alloc d.data d.capacity { s₁ with heap := h₂ } = _ from hdeal]
    refine ⟨ls₁ (some a), hmap, ?_, ⟨hset₁.arrs.trans (by rw [hsz]), hset₁.nextArr⟩⟩
    have hi₃ : Inv t { s₁ with heap := h₃ } none (Function.update ls₁ none []) := by
      refine ⟨hled, ?_, hi₁.fresh⟩
      have := howns none nofun
      rwa [Function.update_idem, ← fam_local] at this
    refine hi₃.congr fun j => ?_
    rw [Function.update_of_ne (Option.some_ne_none j)]
    by_cases hja : some j = some a
    · rw [hja, Function.update_self]
    · rw [Function.update_of_ne hja, hothers _ hja (Option.some_ne_none j)]

/-- The `catch` block. -/
theorem Inv.restore_spec {D : Dynarray A} (hi : Inv t s (some d) ls) (ha : s.arrs a = some D)
    (hal : D.alloc = d.alloc) :
    ∃ s', (do
        release t a
        let e ← arr a
        setArr a { e with data := d.data, size := d.size, capacity := d.capacity }) s = .ok () s' ∧
      Inv t s' none (Function.update ls (some a) (ls none)) ∧ Sets s s' a d := by
  obtain ⟨s₁, hrel, hi₁, hset⟩ := hi.release_spec ha
  rw [hal] at hset
  have hback := hi₁.putBack hset.self
  rw [Function.update_idem, Function.update_of_ne (Option.some_ne_none a).symm] at hback
  refine ⟨_, ?_, hback, hset.trans ⟨rfl, rfl⟩⟩
  rw [bind_ok hrel, bind_ok (arr_apply hset.self)]
  rfl

theorem Inv.reserve_spec (hi : Inv t s none ls) (ha : s.arrs a = some d) (hn : d.capacity < n)
    (hf : allocFails s n = false) :
    Post (reserve t a n s)
      (fun _ s' => ∃ l b, s.heap.bufs b = none ∧ l.map Obj.val = (ls (some a)).map Obj.val ∧
        Inv t s' none (Function.update ls (some a) l) ∧
        Sets s s' a { d with data := some b, capacity := n })
      (fun s' => Inv t s' none ls ∧ Sets s s' a d) := by
  have hcap := (hi.shape ha).le_capacity
  rw [← (hi.shape ha).size] at hcap
  have hi₁ := (hi.takeOut ha).acquire (n := n) (Function.update_self ..) rfl hf
  dsimp only at hi₁
  rw [Function.update_idem, Function.update_idem] at hi₁
  have hf' :
      allocFails { s with
        arrs := Function.update s.arrs a (some { d with size := 0, capacity := n }) } n =
      false := hf
  rw [reserve, bind_ok (arr_apply ha), if_neg (Nat.not_le.mpr hn), bind_ok (setArr_apply ..),
    bind_ok (allocate_ok d.alloc hf'), bind_ok (setArr_apply ..)]
  dsimp only
  rw [Function.update_idem]
  generalize hs₁ : (State.mk _ _ _ : State α A) = s₁ at hi₁ ⊢
  have hset₁ : Sets s s₁ a ⟨d.alloc, some (s.heap.next.2.allocate d.alloc n).2, 0, n⟩ := by
    subst hs₁; exact ⟨rfl, rfl⟩
  clear hs₁
  have hla :
      Function.update (Function.update ls none (ls (some a))) (some a) [] none = ls (some a) := by
    rw [Function.update_of_ne (Option.some_ne_none a).symm, Function.update_self]
  have hlist : ∀ l j, Function.update ls (some a) l (some j) =
      Function.update (Function.update (Function.update ls none (ls (some a))) (some a) [])
        (some a) l (some j) := by
    intro l j
    rw [Function.update_idem]
    by_cases hja : some j = some a
    · rw [hja, Function.update_self, Function.update_self]
    · rw [Function.update_of_ne hja, Function.update_of_ne hja,
        Function.update_of_ne (Option.some_ne_none j)]
  refine Post.bind (Q := fun _ s' => ∃ l b, s.heap.bufs b = none ∧
    l.map Obj.val = (ls (some a)).map Obj.val ∧
    Inv t s' none (Function.update ls (some a) l) ∧
      Sets s s' a { d with data := some b, capacity := n })
    (Post.onThrow ((hi₁.reallocate_spec hset₁.self rfl (by dsimp only; omega)).mono ?_
      (fun _ => id)) ?_) ?_
  · rintro - s₂ ⟨l, hmap, hi₂, hset₂⟩
    rw [hla] at hmap
    exact ⟨l, _, hi.ledger.fresh _ (Nat.le_refl _), hmap, hi₂.congr (hlist l), hset₁.trans hset₂⟩
  · intro s₂ ⟨l, hi₂, hset₂⟩
    obtain ⟨s₃, hrun, hi₃, hset₃⟩ := hi₂.restore_spec hset₂.self rfl
    rw [hrun]
    refine ⟨hi₃.congr fun j => ?_, (hset₁.trans hset₂).trans hset₃⟩
    rw [Function.update_idem, Function.update_of_ne (Option.some_ne_none a).symm, hla,
      ← hlist (ls (some a)) j, Function.update_eq_self]
  · rintro - s₂ ⟨l, b, hb, hmap, hi₂, hset₂⟩
    rw [bind_ok (arr_apply hset₂.self), assert_true (Nat.le_refl n)]
    exact ⟨l, b, hb, hmap, hi₂, hset₂⟩

end Gpcl.Dynarray
