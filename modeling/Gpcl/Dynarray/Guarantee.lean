import Gpcl.Dynarray.Reserve

/-! # The exception guarantee

The calls that may take more memory first ask `reserve` for a capacity and then
construct behind the last element. Whatever constructor throws, the array is as it was
before the call. When `allocate` throws, it is not: `reserve` has already written the new
size and the new capacity, outside its `try` block. -/
namespace Gpcl.Dynarray
open Lib.Memory Lib.Objects Lib.Objects.Heap
open Lib.Objects.Prog hiding pure bind

variable {α A : Type} {t : Traits α A} {s s' : State α A} {ls : Key → List (Obj α)} {a n : Nat}
    {d : Dynarray A}

inductive Call (α : Type)
  | reserve (n : Nat)
  | grow (n : Nat)
  | resize (n : Nat)
  | resizeVal (n : Nat) (x : Arg α)
  | pushBack (x : Arg α)
  | emplaceBack (x : Arg α)

def Call.run (t : Traits α A) (a : Nat) : Call α → Action α A Unit
  | .reserve n => Dynarray.reserve t a n
  | .grow n => Dynarray.grow t a n
  | .resize n => Dynarray.resize t a n
  | .resizeVal n x => Dynarray.resizeVal t a n x
  | .pushBack x => Dynarray.pushBack t a x
  | .emplaceBack x => Dynarray.emplaceBack t a x

/-- The capacity `grow(n)` asks for; 0 if it asks for nothing. -/
def growTo (capacity n : Nat) : Nat :=
  if capacity = 0 ∧ n ≠ 0 then n else if capacity < n then roundUp capacity n else 0

/-- The capacity a call asks of `reserve`. -/
def Call.asks (d : Dynarray A) : Call α → Nat
  | .reserve n | .resize n | .resizeVal n _ => n
  | .grow n => growTo d.capacity n
  | .pushBack _ | .emplaceBack _ => growTo d.capacity (d.size + 1)

/-- The call needs a buffer and `allocate` throws. -/
def Call.outOfMemory (s : State α A) (d : Dynarray A) (c : Call α) : Prop :=
  d.capacity < c.asks d ∧ allocFails s (c.asks d) = true

/-- The object in slot `i` of the buffer of an array. -/
def slot (s : State α A) (d : Dynarray A) (i : Nat) : Option (Obj α) :=
  d.data.bind fun b => s.heap.at? b i

/-- The object with this identity is an element of the array. -/
def IsElement (s : State α A) (d : Dynarray A) (id : Nat) : Prop :=
  ∃ i o, i < d.size ∧ slot s d i = some o ∧ o.id = id

/-- What the strong guarantee promises of the state `s'` in which a call on the array `a`, from
state `s`, throws. Freeing a buffer twice or destroying an object twice is a fault of the call
and not an exception. A call that has replaced the buffer by the time of the exception has
relocated the elements: the objects it made for them are elements then. -/
structure Restored (s : State α A) (a : Nat) (s' : State α A) (d d' : Dynarray A) : Prop where
  before : s.arrs a = some d
  after : s'.arrs a = some d'
  size : d'.size = d.size
  values : ∀ i, i < d.size → (slot s' d' i).map Obj.val = (slot s d i).map Obj.val
  capacity : ∀ b, d'.data = some b → ∃ buf, s'.heap.bufs b = some buf ∧
    buf.slots.length = d'.capacity
  null : d'.data = none → d'.capacity = 0
  objects : ∀ id, s.heap.nextObj ≤ id → id < s'.heap.nextObj → id ∈ s'.heap.destroyed ∨
    IsElement s' d' id
  kept : d'.data = d.data → ∀ id, s.heap.nextObj ≤ id → id < s'.heap.nextObj →
    id ∈ s'.heap.destroyed
  once : s'.heap.destroyed.Nodup
  buffers : ∀ b buf, s'.heap.bufs b = some buf → ∃ a' e, s'.arrs a' = some e ∧ e.data = some b
  others : ∀ a', a' ≠ a → s'.arrs a' = s.arrs a'

/-! ## What comes after reserve -/

theorem grow_eq (ha : s.arrs a = some d) : grow t a n s = (do
    reserve t a (growTo d.capacity n)
    let d ← arr a
    Prog.assert (decide (n ≤ d.capacity))) s := by
  rw [grow, bind_ok (arr_apply ha)]
  unfold growTo
  by_cases h0 : d.capacity = 0 ∧ n ≠ 0
  · simp only [if_pos h0]
  · by_cases hlt : d.capacity < n
    · simp only [if_neg h0, if_pos hlt]
    · simp only [if_neg h0, if_neg hlt]
      rw [bind_ok (reserve_le ha (Nat.zero_le _))]

/-- `resize` after `reserve`. -/
def fillTo (t : Traits α A) (a n : Nat) (x : Arg α) : Action α A Unit := do
  let d ← arr a
  if n ≤ d.size then keepFirstN a n
  else Prog.onThrow (fillLoop t a (List.replicate (n - d.size) x)) (keepFirstN a d.size)

/-- `emplace_back` after `reserve`, in an array that had `size` elements. -/
def appendTo (t : Traits α A) (a size : Nat) (x : Arg α) : Action α A Unit := do
  let d ← arr a
  Prog.assert (decide (size + 1 ≤ d.capacity))
  let d ← arr a
  construct t d.data d.size x
  setArr a { d with size := d.size + 1 }

def Call.rest (t : Traits α A) (a size : Nat) : Call α → Action α A Unit
  | .reserve _ => pure ()
  | .grow n => do
    let d ← arr a
    Prog.assert (decide (n ≤ d.capacity))
  | .resize n => fillTo t a n (.val t.default)
  | .resizeVal n x => fillTo t a n x
  | .pushBack x | .emplaceBack x => appendTo t a size x

theorem emplaceBack_eq (ha : s.arrs a = some d) (x : Arg α) : emplaceBack t a x s =
    (do reserve t a (growTo d.capacity (d.size + 1)); appendTo t a d.size x) s := by
  rw [emplaceBack, bind_ok (arr_apply ha), bind_congr_apply (grow_eq ha), bind_assoc]
  simp only [bind_assoc]
  rfl

/-- Every call is `reserve` and a rest. -/
theorem Call.run_eq (ha : s.arrs a = some d) (c : Call α) :
    c.run t a s = (do Dynarray.reserve t a (c.asks d); c.rest t a d.size) s := by
  cases c with
  | reserve n =>
    show Dynarray.reserve t a n s = (do Dynarray.reserve t a n; pure ()) s
    rw [bind_pure]
  | grow n => exact grow_eq ha
  | resize n => rfl
  | resizeVal n x => rfl
  | pushBack x => exact emplaceBack_eq ha x
  | emplaceBack x => exact emplaceBack_eq ha x

/-- When a constructor throws, the elements made so far are destroyed. -/
theorem Inv.fillTo_spec (hi : Inv t s none ls) (ha : s.arrs a = some d) (hn : n ≤ d.capacity)
    (x : Arg α) :
    Post (fillTo t a n x s) (fun _ s' => WellFormed t s' ∧ SameArrays s s')
      (fun s' => Inv t s' none ls ∧ Sets s s' a d) := by
  rw [fillTo, bind_ok (arr_apply ha)]
  by_cases hle : n ≤ d.size
  · obtain ⟨s₁, hkeep, hi₁, hset₁⟩ := hi.keepFirstN_spec ha hle
    rw [if_pos hle, hkeep]
    exact ⟨⟨_, hi₁⟩, hset₁.sameArrays ha⟩
  · rw [if_neg hle]
    have hfill := hi.fillLoop_spec (List.replicate (n - d.size) x) ha
      (by rw [List.length_replicate]; omega)
    refine Post.onThrow (hfill.mono ?_ (fun _ => id)) ?_
    · rintro - s₁ ⟨os, -, hi₁, hset₁⟩
      exact ⟨⟨_, hi₁⟩, hset₁.sameArrays ha⟩
    · rintro s₁ ⟨os, -, hi₁, hset₁⟩
      obtain ⟨s₂, hkeep, hi₂, hset₂⟩ :=
        hi₁.keepFirstN_spec hset₁.self (n := d.size) (Nat.le_add_right ..)
      rw [hkeep]
      refine ⟨?_, hset₁.trans hset₂⟩
      rwa [Function.update_self, Function.update_idem, (hi.shape ha).size, List.take_left,
        Function.update_eq_self] at hi₂

theorem Inv.appendTo_spec (hi : Inv t s none ls) (ha : s.arrs a = some d)
    (hlt : d.size < d.capacity) (x : Arg α) :
    Post (appendTo t a d.size x s) (fun _ s' => WellFormed t s' ∧ SameArrays s s')
      (fun s' => Inv t s' none ls ∧ Sets s s' a d) := by
  rw [appendTo, bind_ok (arr_apply ha), bind_ok (assert_true (Nat.succ_le_of_lt hlt) s),
    bind_ok (arr_apply ha)]
  refine (hi.append_spec ha hlt x).mono ?_ ?_
  · rintro - s₁ ⟨hi₁, hset₁, -⟩
    exact ⟨⟨_, hi₁⟩, hset₁.sameArrays ha⟩
  · intro s₁ ⟨hi₁, harr, hnext⟩
    exact ⟨hi₁, by rw [harr]; exact (Sets.refl ha).arrs, hnext⟩

/-- Doubling leaves room for one more. -/
theorem le_growTo {capacity size : Nat} (hle : size ≤ capacity) (hmax : capacity ≤ maxSize) :
    size + 1 ≤ capacity ∨ capacity < growTo capacity (size + 1) ∧
    size + 1 ≤ growTo capacity (size + 1) := by
  by_cases hlt : size + 1 ≤ capacity
  · exact .inl hlt
  · obtain rfl : size = capacity := by omega
    refine .inr ?_
    unfold growTo
    by_cases h0 : size = 0
    · rw [if_pos ⟨h0, Nat.succ_ne_zero _⟩]
      omega
    · rw [if_neg (fun h => h0 h.1), if_pos (Nat.lt_succ_self _)]
      have hsum : (addressSpace - 1 + (size + 1 + size)) % addressSpace = size * 2 := by
        simp only [addressSpace, maxSize] at hmax ⊢
        omega
      rw [roundUp, hsum, Nat.mul_div_cancel_left _ (Nat.pos_of_ne_zero h0)]
      omega

/-- An exception after `reserve` leaves what `reserve` left. Only `grow` may fail its assertion, for
a capacity beyond any buffer. -/
theorem Inv.rest_spec (hi : Inv t s none ls) (ha : s.arrs a = some d) (c : Call α) {d₀ : Dynarray A}
    (hsize : d.size = d₀.size) (hold : d₀.capacity ≤ d.capacity) (hle : d₀.size ≤ d₀.capacity)
    (hmax : d₀.capacity ≤ maxSize) (hcap : c.asks d₀ ≤ d.capacity) :
    c.rest t a d₀.size s = .fault ∧ (∃ n, c = .grow n) ∨
      Post (c.rest t a d₀.size s) (fun _ s' => WellFormed t s' ∧ SameArrays s s')
        (fun s' => Inv t s' none ls ∧ Sets s s' a d) := by
  have happ : growTo d₀.capacity (d₀.size + 1) ≤ d.capacity →
    ∀ x : Arg α, Post (appendTo t a d₀.size x s)
      (fun _ s' => WellFormed t s' ∧ SameArrays s s')
        (fun s' => Inv t s' none ls ∧ Sets s s' a d) := by
    intro hgrow x
    rw [← hsize]
    refine hi.appendTo_spec ha ?_ x
    rcases le_growTo hle hmax with h | ⟨-, h⟩ <;> omega
  cases c with
  | reserve n => exact .inr ⟨⟨ls, hi⟩, fun _ => rfl⟩
  | grow n =>
    rw [Call.rest, bind_ok (arr_apply ha)]
    by_cases hn : n ≤ d.capacity
    · rw [assert_true hn]
      exact .inr ⟨⟨ls, hi⟩, fun _ => rfl⟩
    · exact .inl ⟨assert_false hn s, n, rfl⟩
  | resize n => exact .inr (hi.fillTo_spec ha hcap _)
  | resizeVal n x => exact .inr (hi.fillTo_spec ha hcap x)
  | pushBack x => exact .inr (happ hcap x)
  | emplaceBack x => exact .inr (happ hcap x)

/-! ## The whole call -/

/-- With memory, an exception leaves the values of the elements; the objects too, unless they
have been relocated. -/
theorem Inv.run_spec (hi : Inv t s none ls) (ha : s.arrs a = some d) (c : Call α)
    (hmem : ¬ c.outOfMemory s d) :
    c.run t a s = .fault ∧ (∃ n, c = .grow n) ∨
      Post (c.run t a s) (fun _ s' => WellFormed t s' ∧ SameArrays s s')
        (fun s' => ∃ l d', Inv t s' none (Function.update ls (some a) l) ∧ Sets s s' a d' ∧
          d'.size = d.size ∧
          l.map Obj.val = (ls (some a)).map Obj.val ∧ (d'.data = d.data → l = ls (some a))) := by
  have hsz := (hi.shape ha).size
  have hle := (hi.shape ha).le_capacity
  have hmax := (hi.shape ha).capacity_le
  rw [← hsz] at hle
  rw [c.run_eq ha]
  -- nothing was relocated
  have hsame : ∀ s', Inv t s' none ls ∧ Sets s s' a d →
    ∃ l d', Inv t s' none (Function.update ls (some a) l) ∧
      Sets s s' a d' ∧ d'.size = d.size ∧ l.map Obj.val = (ls (some a)).map Obj.val ∧
      (d'.data = d.data → l = ls (some a)) := by
    intro s' ⟨hi', hset⟩
    exact ⟨ls (some a), d, by rwa [Function.update_eq_self], hset, rfl, rfl, fun _ => rfl⟩
  by_cases hask : c.asks d ≤ d.capacity
  · rw [bind_ok (reserve_le ha hask)]
    exact (hi.rest_spec ha c rfl (Nat.le_refl _) hle hmax hask).imp_right fun h =>
      h.mono (fun _ _ => id) hsame
  · have hlt := Nat.lt_of_not_le hask
    have hf : allocFails s (c.asks d) = false := Bool.eq_false_iff.mpr fun hf => hmem ⟨hlt, hf⟩
    have hres := hi.reserve_spec ha hlt hf
    cases hr : reserve t a (c.asks d) s with
    | ok u s₁ =>
      obtain ⟨l, b, hb, hmap, hi₁, hset₁⟩ := hres.ok hr
      rw [bind_ok hr]
      refine (hi₁.rest_spec hset₁.self c (show _ = d.size from rfl) (Nat.le_of_lt hlt) hle hmax
        (Nat.le_refl _)).imp_right fun h => h.mono ?_ ?_
      · rintro - s₂ ⟨hw, hdom⟩
        exact ⟨hw, fun a' => (hdom a').trans (hset₁.sameArrays ha a')⟩
      · intro s₂ ⟨hi₂, hset₂⟩
        refine ⟨l, _, hi₂, hset₁.trans hset₂, rfl, hmap, fun hdata => ?_⟩
        obtain ⟨-, -, -, al, -, hbuf⟩ := (shape_some hdata.symm).mp (hi.shape ha)
        rw [hb] at hbuf; cases hbuf
    | thrown s₁ =>
      rw [bind_thrown hr]
      exact .inr (hsame s₁ (hres.thrown hr))
    | fault => rw [hr] at hres; exact hres.elim
    | pending =>
      rw [bind_pending hr]
      exact .inr trivial

theorem Inv.run_thrown (hi : Inv t s none ls) (ha : s.arrs a = some d) (c : Call α)
    (hmem : ¬ c.outOfMemory s d) (h : c.run t a s = .thrown s') :
    ∃ l d', Inv t s' none (Function.update ls (some a) l) ∧ Sets s s' a d' ∧ d'.size = d.size ∧
      l.map Obj.val = (ls (some a)).map Obj.val ∧ (d'.data = d.data → l = ls (some a)) := by
  rcases hi.run_spec ha c hmem with ⟨hf, -⟩ | hp
  · rw [hf] at h; cases h
  · exact hp.thrown h

/-- The slots of an array are its elements. -/
theorem Inv.slot_eq (hi : Inv t s none ls) (ha : s.arrs a = some d) (i : Nat) :
    slot s d i = (ls (some a))[i]? := by
  have hs := hi.shape ha
  rcases data_cases d with hd | ⟨b, hd⟩
  · rw [slot, hd, ((shape_null hd).mp hs).1]; rfl
  · obtain ⟨-, -, -, al, -, hbuf⟩ := (shape_some hd).mp hs
    rw [slot, hd, Option.bind_some, at?_row hbuf]

/-- Every object there ever was is destroyed or an element of some array. -/
theorem Inv.object_cases (hi : Inv t s none ls) {id : Nat} (hid : id < s.heap.nextObj) :
    id ∈ s.heap.destroyed ∨ ∃ (a : Nat) (d : Dynarray A) (i : Nat) (o : Obj α),
      s.arrs a = some d ∧ (ls (some a))[i]? = some o ∧ o.id = id := by
  rcases hi.ledger.all id hid with hm | ⟨b, i, o, ho, he⟩
  · exact .inl hm
  · obtain ⟨buf, hbuf⟩ : ∃ buf, s.heap.bufs b = some buf := by
      cases hb : s.heap.bufs b with
      | none => rw [at?_none hb] at ho; cases ho
      | some buf => exact ⟨buf, rfl⟩
    obtain ⟨k, d, hk, hd⟩ := hi.owns.owned b buf hbuf
    cases k with
    | none => cases hk
    | some a =>
      refine .inr ⟨a, d, i, o, hk, ?_, he⟩
      rw [← hi.slot_eq hk, slot, hd]
      exact ho

theorem Inv.element_issued (hi : Inv t s none ls) (ha : s.arrs a = some d) {i : Nat} {o : Obj α}
    (hio : (ls (some a))[i]? = some o) : o.id < s.heap.nextObj := by
  rw [← hi.slot_eq ha] at hio
  obtain ⟨b, -, hat⟩ := Option.bind_eq_some_iff.mp hio
  exact hi.ledger.issued b i o hat

theorem Inv.restored (hi : Inv t s none ls) (ha : s.arrs a = some d) (c : Call α)
    (hmem : ¬ c.outOfMemory s d) (h : c.run t a s = .thrown s') : ∃ d', Restored s a s' d d' := by
  obtain ⟨l, d', hi', hset, hsize, hmap, hkept⟩ := hi.run_thrown ha c hmem h
  have hself : Function.update ls (some a) l (some a) = l := Function.update_self ..
  have hlen : l.length = d'.size := by rw [(hi'.shape hset.self).size, hself]
  -- an object made by the call is not an element of another array
  have hnew : ∀ id, s.heap.nextObj ≤ id → id < s'.heap.nextObj → id ∈ s'.heap.destroyed ∨
      ∃ (i : Nat) (o : Obj α), l[i]? = some o ∧ o.id = id := by
    intro id hge hlt
    rcases hi'.object_cases hlt with hm | ⟨a', e, i, o, ha', hio, he⟩
    · exact .inl hm
    · by_cases haa : some a' = some a
      · rw [haa, hself] at hio
        exact .inr ⟨i, o, hio, he⟩
      · rw [Function.update_of_ne haa] at hio
        rw [hset.arrs, Function.update_of_ne (fun hc => haa (congrArg some hc))] at ha'
        exact absurd (hi.element_issued ha' hio) (by omega)
  refine ⟨d', ha, hset.self, hsize, ?_, ?_, ?_, ?_, ?_, hi'.ledger.once, ?_, ?_⟩
  · intro i hlt
    rw [hi'.slot_eq hset.self, hi.slot_eq ha, hself, ← List.getElem?_map, hmap, List.getElem?_map]
  · intro b hb
    obtain ⟨-, hle, -, al, -, hbuf⟩ := (shape_some hb).mp (hi'.shape hset.self)
    exact ⟨_, hbuf, by rw [length_row]; omega⟩
  · exact fun hd => ((shape_null hd).mp (hi'.shape hset.self)).2.2
  · intro id hge hlt
    rcases hnew id hge hlt with hm | ⟨i, o, hio, he⟩
    · exact .inl hm
    · refine .inr ⟨i, o, ?_, by rw [hi'.slot_eq hset.self, hself]; exact hio, he⟩
      rw [← hlen]
      exact (List.getElem?_eq_some_iff.mp hio).1
  · intro hd id hge hlt
    rcases hnew id hge hlt with hm | ⟨i, o, hio, he⟩
    · exact hm
    · rw [hkept hd] at hio
      exact absurd (hi.element_issued ha hio) (by omega)
  · intro b buf hbuf
    obtain ⟨k, e, hk, he⟩ := hi'.owns.owned b buf hbuf
    cases k with
    | none => cases hk
    | some a' => exact ⟨a', e, hk, he⟩
  · intro a' hne
    rw [hset.arrs, Function.update_of_ne hne]

/-- Without memory, the capacity is not that of the buffer. -/
theorem Inv.not_restored (hi : Inv t s none ls) (ha : s.arrs a = some d) (c : Call α)
    (hmem : c.outOfMemory s d) : ∃ s', c.run t a s = .thrown s' ∧ ∀ d', ¬ Restored s a s' d d' := by
  obtain ⟨hlt, hf⟩ := hmem
  refine ⟨_, by rw [c.run_eq ha, bind_thrown (reserve_fails ha hlt hf)], fun d' hr => ?_⟩
  have hd' : d' = { d with size := 0, capacity := c.asks d } :=
    Option.some.inj (hr.after.symm.trans (Function.update_self ..))
  subst hd'
  rcases data_cases d with hd | ⟨b, hd⟩
  · have hnull : c.asks d = 0 := hr.null hd
    omega
  · obtain ⟨buf, hbuf, hlen⟩ := hr.capacity b hd
    obtain ⟨-, hle, -, al, -, hbuf'⟩ := (shape_some hd).mp (hi.shape ha)
    obtain rfl := Option.some.inj (hbuf.symm.trans hbuf')
    rw [length_row] at hlen
    dsimp only at hlen
    omega

/-- The strong exception guarantee: a call that throws restores the array exactly when it is not
`allocate` that throws. -/
theorem restored_iff_memory (c : Call α) (hw : WellFormed t s) (ha : s.arrs a = some d) :
    (∀ s', c.run t a s = .thrown s' → ∃ d', Restored s a s' d d') ↔ ¬ c.outOfMemory s d := by
  obtain ⟨ls, hi⟩ := hw
  constructor
  · intro hall hmem
    obtain ⟨s', hrun, hnot⟩ := hi.not_restored ha c hmem
    obtain ⟨d', hr⟩ := hall s' hrun
    exact hnot d' hr
  · intro hmem s' hrun
    exact hi.restored ha c hmem hrun

/-- Numbers that move without throwing, and allocators that are all equal. -/
def plain : Traits Nat Unit where
  default := 0
  junk := 0
  movedFrom := id
  nothrowMove := true
  nothrowCopyAssign := true
  alwaysEqual := true
  propagateOnCopy := false
  propagateOnMove := false
  propagateOnSwap := false
  selectOnCopy := id
  equal _ _ := true
  equal_refl _ := rfl
  equal_symm _ _ _ := rfl
  equal_trans _ _ _ _ _ := rfl
  equal_always _ _ _ := rfl

/-- An array of two elements grows; `allocate` succeeds, the elements move, and the constructor of
the new one throws. -/
theorem restored_pushBack_throws :
    ∃ s s₁ s', empty () (initial (· == 4)) = .ok 0 s ∧
    (Call.resizeVal 2 (.val 5)).run plain 0 s = .ok () s₁ ∧
      s₁.arrs 0 = some ⟨(), some 0, 2, 2⟩ ∧ (Call.pushBack (.val 6)).run plain 0 s₁ = .thrown s' ∧
      ∃ d', Restored s₁ 0 s' ⟨(), some 0, 2, 2⟩ d' := by
  obtain ⟨s, hempty, ha, ⟨ls, hi⟩, hfits, hrun⟩ : ∃ s, empty () (initial (· == 4)) = .ok 0 s ∧
      s.arrs 0 = some ⟨(), none, 0, 0⟩ ∧ WellFormed plain s ∧ allocFails s 2 = false ∧
      ((Call.resizeVal 2 (.val 5)).run plain 0 s).returned.any
        (fun s₁ => s₁.arrs 0 = some ⟨(), some 0, 2, 2⟩ &&
        ((Call.pushBack (.val 6)).run plain 0 s₁).left.isSome && !allocFails s₁ 4) = true :=
    ⟨_, rfl, rfl, ⟨_, (Inv.initial (t := plain) (· == 4)).created ()⟩, by decide, by decide +kernel⟩
  obtain ⟨s₁, hret, hfacts⟩ := (Option.any_eq_true _ _).mp hrun
  simp only [Bool.and_eq_true, decide_eq_true_eq, Bool.not_eq_true'] at hfacts
  obtain ⟨⟨ha₁, hleft⟩, hmem⟩ := hfacts
  obtain ⟨⟨⟩, hret⟩ := Res.returned_eq_some hret
  obtain ⟨s', hleft⟩ := Option.isSome_iff_exists.mp hleft
  have hw : WellFormed plain s₁ := by
    obtain ⟨hfault, -⟩ | hpost := hi.run_spec ha (Call.resizeVal 2 (.val 5)) fun h =>
      Bool.false_ne_true (hfits.symm.trans h.2)
    · cases hret.symm.trans hfault
    · exact (hpost.ok hret).1
  refine ⟨s, s₁, s', hempty, hret, ha₁, Res.left_eq_some hleft, ?_⟩
  refine (restored_iff_memory (Call.pushBack (.val 6)) hw ha₁).mpr (fun h => ?_) s'
    (Res.left_eq_some hleft)
  exact Bool.false_ne_true (hmem.symm.trans h.2)

/-- `reserve(3)` on a full array of two elements, when `allocate` throws. -/
theorem reserve_loses_elements :
    ∃ s s', ofRange plain () [.val 5, .val 6] (initial (· == 3)) = .ok 0 s ∧
      s.arrs 0 = some ⟨(), some 0, 2, 2⟩ ∧ reserve plain 0 3 s = .thrown s' ∧
      s'.arrs 0 = some ⟨(), some 0, 0, 3⟩ ∧
      (s'.heap.bufs 0).map (fun buf => buf.slots.length) = some 2 ∧
      ¬ ∀ s', (Call.reserve 3).run plain 0 s = .thrown s' →
      ∃ d', Restored s 0 s' ⟨(), some 0, 2, 2⟩ d' := by
  refine ⟨_, _, rfl, rfl, rfl, rfl, rfl, fun hall => ?_⟩
  obtain ⟨d', hr⟩ := hall _ rfl
  have hd' := Option.some.inj (hr.after.symm.trans rfl)
  have hsize := hr.size
  rw [hd'] at hsize
  cases hsize

end Gpcl.Dynarray
