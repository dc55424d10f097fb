import Mathlib.Data.List.Forall2
import Gpcl.Dynarray.Guarantee
import Gpcl.Dynarray.Assign

/-! # Sequences of values

What the methods that return do to the values of the elements. An argument may be an element of
another array: it keeps its value while the method works on its own array. -/
namespace Gpcl.Dynarray
open Lib.Memory Lib.Objects Lib.Objects.Heap
open Lib.Objects.Prog hiding pure bind

variable {α A : Type} {t : Traits α A} {s s' : State α A} {x : Option (Dynarray A)}
    {ls : Key → List (Obj α)} {a b n : Nat}
  {d o : Dynarray A}

/-- The values of the elements from `begin()` to `end()`. -/
def values (t : Traits α A) (s : State α A) (d : Dynarray A) : List α :=
  (List.range d.size).map fun i => read t s (.ref d.data i)

/-- The sequence of each array. -/
def contents (t : Traits α A) (s : State α A) (a : Nat) : Option (List α) :=
  (s.arrs a).map (values t s)

theorem Inv.values_eq (hi : Inv t s none ls) (ha : s.arrs a = some d) :
    values t s d = (ls (some a)).map Obj.val := by
  refine List.ext_getElem? ?_
  intro i
  have hsize := (hi.shape ha).size
  by_cases hlt : i < (ls (some a)).length
  · have hget := List.getElem?_eq_getElem hlt
    have hread := hi.read_ref (k := some a) ha hget
    simp [values, hsize, hlt, hread]
  · simp [values, hsize, hlt]

theorem Inv.contents_eq (hi : Inv t s none ls) (a : Nat) :
    contents t s a = (s.arrs a).map fun _ => (ls (some a)).map Obj.val := by
  cases ha : s.arrs a with
  | none => simp [contents, ha]
  | some d => simp [contents, ha, hi.values_eq ha]

/-- One array has new elements. -/
theorem Inv.contents_sets (hi : Inv t s none ls) {l : List (Obj α)}
    (hi' : Inv t s' none (Function.update ls (some a) l))
    (harrs : s'.arrs = Function.update s.arrs a (some d)) :
    contents t s' = Function.update (contents t s) a (some (l.map Obj.val)) := by
  funext a'
  rw [hi'.contents_eq, harrs]
  by_cases haa : a' = a
  · subst haa
    simp
  · have hne : some a' ≠ some a := fun h => haa (Option.some.inj h)
    rw [Function.update_of_ne haa, Function.update_of_ne haa, Function.update_of_ne hne,
      hi.contents_eq]

/-- One array is gone. -/
theorem Inv.contents_discard (hi : Inv t s none ls) {l : List (Obj α)}
    (hi' : Inv t s' none (Function.update ls (some a) l))
    (harrs : s'.arrs = Function.update s.arrs a none) :
    contents t s' = Function.update (contents t s) a none := by
  funext a'
  rw [hi'.contents_eq, harrs]
  by_cases haa : a' = a
  · subst haa
    simp
  · have hne : some a' ≠ some a := fun h => haa (Option.some.inj h)
    rw [Function.update_of_ne haa, Function.update_of_ne haa, Function.update_of_ne hne,
      hi.contents_eq]

/-- Two arrays have exchanged their elements. -/
theorem Inv.contents_exchange (hi : Inv t s none ls) (ha : s.arrs a = some d)
    (hb : s.arrs b = some o) {e f : Dynarray A}
    (hi' : Inv t s' none (Function.update (Function.update ls (some a) (ls (some b))) (some b)
      (ls (some a))))
    (harrs : s'.arrs = Function.update (Function.update s.arrs a (some e)) b (some f)) :
    contents t s' = Function.update (Function.update (contents t s) a (contents t s b)) b
      (contents t s a) := by
  funext c
  rw [hi'.contents_eq, harrs]
  by_cases hcb : c = b
  · subst hcb
    simp [hi.contents_eq, ha]
  · have hne : some c ≠ some b := fun h => hcb (Option.some.inj h)
    rw [Function.update_of_ne hcb, Function.update_of_ne hcb, Function.update_of_ne hne]
    by_cases hca : c = a
    · subst hca
      simp [hi.contents_eq, hb]
    · have hne' : some c ≠ some a := fun h => hca (Option.some.inj h)
      rw [Function.update_of_ne hca, Function.update_of_ne hca, Function.update_of_ne hne',
        hi.contents_eq]

/-! ## Arguments -/

/-- The argument is a value, or an element of an array other than `a`. -/
def ReadsAs (s : State α A) (x : Option (Dynarray A)) (ls : Key → List (Obj α)) (a : Nat)
    (v : Arg α) (val : α) : Prop :=
  v = .val val ∨ ∃ k o j e, k ≠ some a ∧ fam s x k = some o ∧ v = .ref o.data j ∧
    (ls k)[j]? = some e ∧ e.val = val

theorem ReadsAs.read {v : Arg α} {val : α} (h : ReadsAs s x ls a v val) (hi : Inv t s x ls) :
    read t s v = val := by
  obtain rfl | ⟨k, o, j, e, -, hk, rfl, hj, rfl⟩ := h
  · rfl
  · exact hi.read_ref hk hj

/-- Work on the array `a` does not change it. -/
theorem ReadsAs.keep {v : Arg α} {val : α} (h : ReadsAs s x ls a v val) (hset : Sets s s' a d)
    (l : List (Obj α)) :
    ReadsAs s' x (Function.update ls (some a) l) a v val := by
  obtain rfl | ⟨k, o, j, e, hne, hk, rfl, hj, rfl⟩ := h
  · exact .inl rfl
  · refine .inr ⟨k, o, j, e, hne, ?_, rfl, ?_, rfl⟩
    · rw [hset.fam_ne hne]
      exact hk
    · rw [Function.update_of_ne hne]
      exact hj

theorem readsAs_forall_keep {xs : List (Arg α)} {vs : List α}
    (h : List.Forall₂ (ReadsAs s x ls a) xs vs) (hset : Sets s s' a d)
    (l : List (Obj α)) : List.Forall₂ (ReadsAs s' x (Function.update ls (some a) l) a) xs vs :=
  List.Forall₂.imp (fun _ _ hread => hread.keep hset l) h

/-! ## Loops -/

theorem Inv.fillLoop_values {xs : List (Arg α)} {vs : List α} (hi : Inv t s x ls)
    (ha : s.arrs a = some d) (hfit : d.size + xs.length ≤ d.capacity)
    (hreads : List.Forall₂ (ReadsAs s x ls a) xs vs) (hrun : fillLoop t a xs s = .ok () s') :
    ∃ os, os.map Obj.val = vs ∧ Inv t s' x (Function.update ls (some a) (ls (some a) ++ os)) ∧
      Sets s s' a { d with size := d.size + xs.length } := by
  induction xs generalizing s d ls vs with
  | nil =>
    cases hreads
    cases hrun
    refine ⟨[], rfl, ?_, Sets.refl ha⟩
    rwa [List.append_nil, Function.update_eq_self]
  | cons v xs ih =>
    obtain ⟨val, vs, hv, hrest, rfl⟩ := List.forall₂_cons_left_iff.mp hreads
    rw [List.length_cons] at hfit
    rw [fillLoop, bind_ok (arr_apply ha), ← bind_assoc] at hrun
    obtain ⟨_, s₁, happend, hloop⟩ := bind_eq_ok hrun
    obtain ⟨hi₁, hset₁, -⟩ := (hi.append_spec ha (by omega) v).ok happend
    rw [hv.read hi] at hi₁
    obtain ⟨os, hos, hi₂, hset₂⟩ :=
      ih hi₁ hset₁.self (by dsimp only; omega) (readsAs_forall_keep hrest hset₁ _) hloop
    refine ⟨⟨s.heap.nextObj, val⟩ :: os, by rw [List.map_cons, hos], ?_, ?_⟩
    · rwa [Function.update_idem, Function.update_self, List.append_assoc] at hi₂
    · have hset := hset₁.trans hset₂
      simpa only [List.length_cons, Nat.add_assoc, Nat.add_comm 1] using hset

/-- Assignment to the elements from `i` on, from elsewhere. -/
theorem Inv.assignLoop_values {xs : List (Arg α)} {vs : List α} {i : Nat} (hi : Inv t s none ls)
    (ha : s.arrs a = some d) (hlen : i + xs.length = d.size)
    (hreads : List.Forall₂ (ReadsAs s none ls a) xs vs) (hrun : assignLoop t a i xs s = .ok () s') :
    ∃ l, l.map Obj.val = ((ls (some a)).take i).map Obj.val ++ vs ∧
    Inv t s' none (Function.update ls (some a) l) ∧
      s'.arrs = s.arrs := by
  induction xs generalizing s ls i vs with
  | nil =>
    cases hreads
    cases hrun
    have hsize := (hi.shape ha).size
    refine ⟨ls (some a), ?_, ?_, rfl⟩
    · rw [List.take_of_length_le (by rw [List.length_nil] at hlen; omega), List.append_nil]
    · rwa [Function.update_eq_self]
  | cons v xs ih =>
    obtain ⟨val, vs, hv, hrest, rfl⟩ := List.forall₂_cons_left_iff.mp hreads
    rw [List.length_cons] at hlen
    have hsize := (hi.shape ha).size
    have hlt : i < (ls (some a)).length := by omega
    obtain ⟨h', hset, -, hi₁⟩ :=
      hi.setVal (k := some a) ha (List.getElem?_eq_getElem hlt) (read t s v)
    have hassign : assignAt d.data i (read t s v) s = .ok () { s with heap := h' } := by
      simp only [assignAt, onHeap, hset]
    rw [assignLoop, bind_ok (arr_apply ha),
      bind_ok (assert_true (show i < d.size by omega) s)] at hrun
    rw [bind_ok (show (Prog.get : Action α A (State α A)) s = .ok s s from rfl),
      bind_ok hassign] at hrun
    rw [hv.read hi] at hi₁
    have hsets : Sets s { s with heap := h' } a d := ⟨(Sets.refl ha).arrs, rfl⟩
    obtain ⟨l, hl, hi₂, harrs⟩ :=
      ih hi₁ ha (show i + 1 + xs.length = d.size by omega) (readsAs_forall_keep hrest hsets _) hrun
    refine ⟨l, ?_, ?_, harrs⟩
    · rw [hl, Function.update_self]
      rw [List.take_succ_eq_append_getElem (by simpa using hlt)]
      simp [List.take_set_of_le]
    · rwa [Function.update_idem] at hi₂

/-- Assignment of an array to itself. -/
theorem Inv.assignLoop_self (hi : Inv t s none ls) (ha : s.arrs a = some d) {i k : Nat}
    (hlen : i + k = d.size)
    (hrun : assignLoop t a i ((List.range' i k).map fun j => .ref d.data j) s = .ok () s') :
    Inv t s' none ls ∧ s'.arrs = s.arrs := by
  induction k generalizing s i with
  | zero =>
    cases hrun
    exact ⟨hi, rfl⟩
  | succ k ih =>
    have hsize := (hi.shape ha).size
    have hlt : i < (ls (some a)).length := by omega
    have hget := List.getElem?_eq_getElem hlt
    have hread := hi.read_ref (k := some a) ha hget
    obtain ⟨h', hset, -, hi₁⟩ := hi.setVal (k := some a) ha hget (read t s (.ref d.data i))
    have hassign :
        assignAt d.data i (read t s (.ref d.data i)) s = .ok () { s with heap := h' } := by
      simp only [assignAt, onHeap, hset]
    rw [List.range'_succ, List.map_cons, assignLoop, bind_ok (arr_apply ha),
      bind_ok (assert_true (show i < d.size by omega) s)] at hrun
    rw [bind_ok (show (Prog.get : Action α A (State α A)) s = .ok s s from rfl),
      bind_ok hassign] at hrun
    have hsame :
        Function.update ls (some a)
          ((ls (some a)).set i ⟨(ls (some a))[i].id, read t s (.ref d.data i)⟩) = ls := by
      rw [hread, List.set_getElem_self, Function.update_eq_self]
    rw [hsame] at hi₁
    obtain ⟨hi₂, harrs⟩ := ih hi₁ ha (show i + 1 + k = d.size by omega) hrun
    exact ⟨hi₂, harrs⟩

/-! ## Capacity -/

theorem allocate_eq_ok {al : A} {p : Nat} (h : allocate al n s = .ok p s') :
    allocFails s n = false := by
  cases hf : allocFails s n with
  | false => rfl
  | true =>
    rw [allocate_thrown al hf] at h
    cases h

/-- `reserve(n)` keeps the values and makes room for `n` elements. -/
theorem Inv.reserve_values (hi : Inv t s none ls) (ha : s.arrs a = some d)
    (hrun : reserve t a n s = .ok () s') :
    ∃ l d', l.map Obj.val = (ls (some a)).map Obj.val ∧
    Inv t s' none (Function.update ls (some a) l) ∧ Sets s s' a d' ∧
      d'.size = d.size ∧ n ≤ d'.capacity := by
  by_cases hn : n ≤ d.capacity
  · rw [reserve_le ha hn] at hrun
    cases hrun
    refine ⟨ls (some a), d, rfl, ?_, Sets.refl ha, rfl, hn⟩
    rwa [Function.update_eq_self]
  · have hlt : d.capacity < n := Nat.lt_of_not_le hn
    cases hf : allocFails s n with
    | true =>
      rw [reserve_fails ha hlt hf] at hrun
      cases hrun
    | false =>
      obtain ⟨l, b, -, hmap, hi', hset⟩ := (hi.reserve_spec ha hlt hf).ok hrun
      exact ⟨l, _, hmap, hi', hset, rfl, Nat.le_refl n⟩

/-- `grow(n)`, if the assertion at its end holds. -/
theorem Inv.grow_values (hi : Inv t s none ls) (ha : s.arrs a = some d)
    (hrun : grow t a n s = .ok () s') :
    ∃ l d', l.map Obj.val = (ls (some a)).map Obj.val ∧
    Inv t s' none (Function.update ls (some a) l) ∧ Sets s s' a d' ∧
      d'.size = d.size ∧ n ≤ d'.capacity := by
  rw [grow_eq ha] at hrun
  obtain ⟨_, s₁, hreserve, hrest⟩ := bind_eq_ok hrun
  obtain ⟨l, d', hmap, hi', hset, hsize, -⟩ := hi.reserve_values ha hreserve
  rw [bind_ok (arr_apply hset.self)] at hrest
  by_cases hle : n ≤ d'.capacity
  · rw [assert_true hle] at hrest
    cases hrest
    exact ⟨l, d', hmap, hi', hset, hsize, hle⟩
  · rw [assert_false hle] at hrest
    cases hrest

theorem Inv.resizeVal_values (hi : Inv t s none ls) (ha : s.arrs a = some d) {v : Arg α} {val : α}
    (hv : ReadsAs s none ls a v val) (hrun : resizeVal t a n v s = .ok () s') :
    ∃ l d', l.map Obj.val = ((ls (some a)).map Obj.val).take n ++
      List.replicate (n - (ls (some a)).length) val ∧
      Inv t s' none (Function.update ls (some a) l) ∧ Sets s s' a d' := by
  unfold resizeVal at hrun
  obtain ⟨_, s₁, hreserve, hrest⟩ := bind_eq_ok hrun
  obtain ⟨l₁, d₁, hmap₁, hi₁, hset₁, hsize₁, hcap₁⟩ := hi.reserve_values ha hreserve
  have hlen : l₁.length = (ls (some a)).length := by simpa using congrArg List.length hmap₁
  have hsize : d₁.size = (ls (some a)).length := hsize₁.trans (hi.shape ha).size
  rw [bind_ok (arr_apply hset₁.self)] at hrest
  by_cases hn : n ≤ d₁.size
  · rw [if_pos hn] at hrest
    obtain ⟨s₂, hkeep, hi₂, hset₂⟩ := hi₁.keepFirstN_spec hset₁.self hn
    rw [hkeep] at hrest
    cases hrest
    rw [Function.update_self, Function.update_idem] at hi₂
    refine ⟨_, _, ?_, hi₂, hset₁.trans hset₂⟩
    rw [← List.map_take, Nat.sub_eq_zero_of_le (by omega), List.replicate_zero, List.append_nil]
    rw [List.map_take, List.map_take, hmap₁]
  · rw [if_neg hn] at hrest
    have hloop := onThrow_eq_ok hrest
    have hreads :
        List.Forall₂ (ReadsAs s₁ none (Function.update ls (some a) l₁) a)
          (List.replicate (n - d₁.size) v)
        (List.replicate (n - d₁.size) val) := by
      generalize n - d₁.size = k
      induction k with
      | zero => exact .nil
      | succ k ih => exact .cons (hv.keep hset₁ l₁) ih
    obtain ⟨os, hos, hi₂, hset₂⟩ :=
      hi₁.fillLoop_values hset₁.self (by rw [List.length_replicate]; omega) hreads hloop
    rw [Function.update_self, Function.update_idem] at hi₂
    refine ⟨_, _, ?_, hi₂, hset₁.trans hset₂⟩
    rw [List.map_append, hos, hmap₁, hsize, List.take_of_length_le (by rw [List.length_map]; omega)]

theorem Inv.emplaceBack_values (hi : Inv t s none ls) (ha : s.arrs a = some d) {v : Arg α} {val : α}
    (hv : ReadsAs s none ls a v val) (hrun : emplaceBack t a v s = .ok () s') :
    ∃ l d', l.map Obj.val = (ls (some a)).map Obj.val ++ [val] ∧
    Inv t s' none (Function.update ls (some a) l) ∧ Sets s s' a d' := by
  rw [emplaceBack, bind_ok (arr_apply ha)] at hrun
  obtain ⟨_, s₁, hgrow, hrest⟩ := bind_eq_ok hrun
  obtain ⟨l₁, d₁, hmap₁, hi₁, hset₁, hsize₁, hcap₁⟩ := hi.grow_values ha hgrow
  rw [bind_ok (arr_apply hset₁.self)] at hrest
  obtain ⟨hi₂, hset₂, -⟩ := (hi₁.append_spec hset₁.self (by omega) v).ok hrest
  rw [(hv.keep hset₁ l₁).read hi₁, Function.update_self, Function.update_idem] at hi₂
  refine ⟨_, _, ?_, hi₂, hset₁.trans hset₂⟩
  rw [List.map_append, hmap₁]
  rfl

/-! ## Constructors -/

/-- A constructor that allocates a buffer and fills it: when it returns, the new array had the
buffer and no elements yet before it was filled. -/
theorem Inv.filled (hi : Inv t s none ls) {al : A} {body : Nat → Action α A Unit}
    (hrun : (do
      let a ← create ⟨al, none, 0, n⟩
      Prog.onThrow (do
        let p ← allocate al n
        setArr a ⟨al, some p, 0, n⟩
        Prog.onThrow (body a) (release t a)) (discard a)
      pure a : Action α A Nat) s = .ok a s') :
    a = s.nextArr ∧ ∃ s₁ p, s₁.arrs = Function.update s.arrs a (some ⟨al, some p, 0, n⟩) ∧
      Inv t s₁ none (Function.update ls (some a) []) ∧ body a s₁ = .ok () s' := by
  have hcreate : create ⟨al, none, 0, n⟩ s = .ok s.nextArr ⟨s.heap, Function.update s.arrs s.nextArr
    (some ⟨al, none, 0, n⟩), s.nextArr + 1⟩ := rfl
  rw [bind_ok hcreate] at hrun
  obtain ⟨_, s₁, hbody, hpure⟩ := bind_eq_ok hrun
  obtain ⟨rfl, rfl⟩ : s.nextArr = a ∧ s₁ = s' := by
    cases hpure
    exact ⟨rfl, rfl⟩
  obtain ⟨p, s₂, hallocate, hfill⟩ := bind_eq_ok (onThrow_eq_ok hbody)
  have hf := allocate_eq_ok hallocate
  have hi₁ := (hi.created al).acquire (n := n) (Function.update_self ..) rfl hf
  rw [allocate_ok al hf] at hallocate
  cases hallocate
  rw [bind_ok (setArr_apply ..)] at hfill
  dsimp only at hfill hi₁
  rw [Function.update_idem] at hfill
  rw [Function.update_idem, Function.update_idem] at hi₁
  exact ⟨rfl, _, _, rfl, hi₁, onThrow_eq_ok hfill⟩

/-- A new array has the values of its range. -/
theorem Inv.ofRange_values (hi : Inv t s none ls) {al : A} {xs : List (Arg α)} {vs : List α}
    (hreads : List.Forall₂ (ReadsAs s none ls s.nextArr) xs vs)
    (hrun : ofRange t al xs s = .ok a s') :
    a = s.nextArr ∧ ∃ l d', l.map Obj.val = vs ∧ Inv t s' none (Function.update ls (some a) l) ∧
      s'.arrs = Function.update s.arrs a (some d') ∧ d'.alloc = al := by
  obtain ⟨rfl, s₁, p, harrs₁, hi₁, hloop⟩ := hi.filled hrun
  refine ⟨rfl, ?_⟩
  have ha₁ : s₁.arrs s.nextArr = some ⟨al, some p, 0, xs.length⟩ := by
    rw [harrs₁, Function.update_self]
  have hreads₁ :
      List.Forall₂ (ReadsAs s₁ none (Function.update ls (some s.nextArr) []) s.nextArr) xs vs := by
    refine List.Forall₂.imp ?_ hreads
    intro v val hv
    obtain rfl | ⟨k, o, j, e, hne, hk, rfl, hj, rfl⟩ := hv
    · exact .inl rfl
    · refine .inr ⟨k, o, j, e, hne, ?_, rfl, ?_, rfl⟩
      · cases k with
        | none => exact hk
        | some c =>
          have hc : c ≠ s.nextArr := fun he => hne (congrArg some he)
          show s₁.arrs c = _
          rw [harrs₁, Function.update_of_ne hc]
          exact hk
      · rw [Function.update_of_ne hne]
        exact hj
  obtain ⟨os, hos, hi₂, hset₂⟩ := hi₁.fillLoop_values ha₁ (by dsimp only; omega) hreads₁ hloop
  rw [Function.update_self, Function.update_idem, List.nil_append] at hi₂
  have harrs := hset₂.arrs
  rw [harrs₁, Function.update_idem] at harrs
  exact ⟨os, _, hos, hi₂, harrs, rfl⟩

/-- The elements of an array, read as arguments for another one. -/
theorem Inv.reads_range (hi : Inv t s none ls) (hb : s.arrs b = some o) (hne : b ≠ a) :
    List.Forall₂ (ReadsAs s none ls a) (range o) ((ls (some b)).map Obj.val) := by
  have hsize := (hi.shape hb).size
  refine List.forall₂_iff_get.mpr ⟨by simp [range, hsize], ?_⟩
  intro i h₁ h₂
  have hlt : i < (ls (some b)).length := by simpa using h₂
  refine .inr ⟨some b, o, i, (ls (some b))[i], fun h => hne (Option.some.inj h), hb, ?_, ?_, ?_⟩
  · simp [range]
  · exact List.getElem?_eq_getElem hlt
  · simp

/-- Elements moved out of another array. -/
theorem Inv.moveLoop_values (n : Nat) {s : State α A} {d : Dynarray A} {ls : Key → List (Obj α)}
    (hi : Inv t s none ls) (ha : s.arrs a = some d) (hb : s.arrs b = some o) (hne : b ≠ a)
    (hcap : d.size + n ≤ d.capacity) (hlen : d.size + n ≤ (ls (some b)).length)
    (hrun : moveLoop t a o.data n s = .ok () s') :
    ∃ os m, os.map Obj.val = (((ls (some b)).drop d.size).take n).map Obj.val ∧
      Inv t s' none (Function.update (Function.update ls (some a) (ls (some a) ++ os)) (some b) m) ∧
      Sets s s' a { d with size := d.size + n } := by
  have hne' : some b ≠ some a := fun h => hne (Option.some.inj h)
  induction n generalizing s d ls with
  | zero =>
    cases hrun
    refine ⟨[], ls (some b), rfl, ?_, Sets.refl ha⟩
    rw [List.append_nil, Function.update_eq_self, Function.update_eq_self]
    exact hi
  | succ n ih =>
    have hlt : d.size < (ls (some b)).length := by omega
    have hget := List.getElem?_eq_getElem hlt
    rw [moveLoop, bind_ok (arr_apply ha), ← bind_assoc] at hrun
    obtain ⟨_, s₁, hone, hloop⟩ := bind_eq_ok hrun
    obtain ⟨hi₁, hset₁⟩ := (hi.moveOne_spec ha (by omega) (k := some b) hb hne' hget).ok hone
    have hb₁ : s₁.arrs b = some o := by rw [hset₁.arrs, Function.update_of_ne hne, hb]
    obtain ⟨os, m, hos, hi₂, hset₂⟩ := ih hi₁ hset₁.self hb₁ (by dsimp only; omega) (by
      rw [Function.update_self, List.length_set]; dsimp only; omega) hloop
    refine ⟨⟨s.heap.nextObj, (ls (some b))[d.size].val⟩ :: os, m, ?_, ?_, ?_⟩
    · rw [Function.update_self, List.drop_set_of_lt (Nat.lt_succ_self _)] at hos
      rw [List.map_cons, hos, List.drop_eq_getElem_cons hlt]
      rfl
    · rw [Function.update_of_ne hne'.symm, Function.update_self, Function.update_comm hne'.symm,
        Function.update_idem, Function.update_comm hne', Function.update_idem,
        List.append_assoc] at hi₂
      exact hi₂
    · have hset := hset₁.trans hset₂
      simpa only [Nat.add_assoc, Nat.add_comm 1] using hset

/-! ## Constructors that give their array an allocator -/

/-- Nothing has happened to the array `c`. -/
def Same (t : Traits α A) (s s' : State α A) (c : Nat) : Prop :=
  s'.arrs c = s.arrs c ∧ contents t s' c = contents t s c

theorem Same.trans {s₁ s₂ : State α A} {c : Nat} (h₁ : Same t s s₁ c) (h₂ : Same t s₁ s₂ c) :
    Same t s s₂ c :=
  ⟨h₂.1.trans h₁.1, h₂.2.trans h₁.2⟩

/-- The array `a` is new, with an allocator and a sequence. -/
structure Builds (t : Traits α A) (s s' : State α A) (a : Nat) (al : A)
  (v : Option (List α)) : Prop where
  order : WellFormed t s'
  new : a = s.nextArr
  here : ∃ e, s'.arrs a = some e ∧ e.alloc = al
  got : contents t s' a = v

theorem Builds.contents_eq {al : A} {v : Option (List α)} (h : Builds t s s' a al v)
    (hsame : ∀ c, c ≠ a → Same t s s' c) :
    contents t s' = Function.update (contents t s) s.nextArr v := by
  funext c
  rw [← h.new]
  by_cases hc : c = a
  · rw [hc, Function.update_self, h.got]
  · rw [Function.update_of_ne hc, (hsame c hc).2]

theorem Inv.contents_fresh (hi : Inv t s none ls) : contents t s s.nextArr = none := by
  simp [contents, hi.fresh s.nextArr (Nat.le_refl _)]

/-- A new array changes no other. -/
theorem Inv.built (hi : Inv t s none ls) {l : List (Obj α)}
    (hi' : Inv t s' none (Function.update ls (some s.nextArr) l))
    (harrs : s'.arrs = Function.update s.arrs s.nextArr (some d)) :
    Builds t s s' s.nextArr d.alloc (some (l.map Obj.val)) ∧ ∀ c, c ≠ s.nextArr →
    Same t s s' c := by
  have hcontents := hi.contents_sets hi' harrs
  refine ⟨⟨⟨_, hi'⟩, rfl, ⟨d, by rw [harrs, Function.update_self], rfl⟩,
    by rw [hcontents, Function.update_self]⟩, ?_⟩
  intro c hc
  exact ⟨by rw [harrs, Function.update_of_ne hc], by rw [hcontents, Function.update_of_ne hc]⟩

theorem Inv.ofRange_builds (hi : Inv t s none ls) {al : A} {xs : List (Arg α)} {vs : List α}
    (hreads : List.Forall₂ (ReadsAs s none ls s.nextArr) xs vs)
    (hrun : ofRange t al xs s = .ok a s') :
    Builds t s s' a al (some vs) ∧ ∀ c, c ≠ a → Same t s s' c := by
  obtain ⟨rfl, l, e, rfl, hi', harrs, rfl⟩ := hi.ofRange_values hreads hrun
  exact hi.built hi' harrs

theorem Inv.copyWith_builds (hi : Inv t s none ls) (hb : s.arrs b = some o) {al : A}
    (hrun : copyWith t b al s = .ok a s') :
    Builds t s s' a al (contents t s b) ∧ ∀ c, c ≠ a → Same t s s' c := by
  rw [copyWith, bind_ok (arr_apply hb)] at hrun
  have hvalues : contents t s b = some ((ls (some b)).map Obj.val) := by
    rw [hi.contents_eq, hb]; rfl
  rw [hvalues]
  exact hi.ofRange_builds (hi.reads_range hb (Nat.ne_of_lt (hi.arr_lt hb))) hrun

theorem Inv.copy_builds (hi : Inv t s none ls) (hb : s.arrs b = some o)
    (hrun : copy t b s = .ok a s') :
    Builds t s s' a (t.selectOnCopy o.alloc) (contents t s b) ∧ ∀ c, c ≠ a → Same t s s' c := by
  rw [copy, bind_ok (arr_apply hb)] at hrun
  exact hi.copyWith_builds hb hrun

/-- The move constructor with an allocator takes the sequence, by its buffer or element by element,
and leaves the source its allocator. -/
theorem Inv.moveWith_builds (hae : t.alwaysEqual = false) (hi : Inv t s none ls)
    (hb : s.arrs b = some o) {al : A} (hrun : moveWith t b al s = .ok a s') :
    Builds t s s' a al (contents t s b) ∧ (∃ o', s'.arrs b = some o' ∧ o'.alloc = o.alloc) ∧
      ∀ c, c ≠ a → c ≠ b → Same t s s' c := by
  have hne : b ≠ s.nextArr := Nat.ne_of_lt (hi.arr_lt hb)
  have hvalues : contents t s b = some ((ls (some b)).map Obj.val) := by
    rw [hi.contents_eq, hb]; rfl
  unfold moveWith at hrun
  rw [if_neg (by rw [hae]; exact Bool.false_ne_true), bind_ok (arr_apply hb)] at hrun
  by_cases heq : t.equal al o.alloc = true
  · rw [if_pos heq] at hrun
    have hi₁ := hi.created o.alloc
    have hb₁ : Function.update s.arrs s.nextArr (some ⟨o.alloc, none, 0, 0⟩) b = some o := by
      rw [Function.update_of_ne hne]
      exact hb
    have hex := (hi₁.exchanged (Function.update_self ..) hb₁ (e := ⟨al, o.data, o.size, o.capacity⟩)
      (f := { o with data := none, size := 0, capacity := 0 }) ⟨rfl, rfl, rfl, heq⟩
        ⟨rfl, rfl, rfl, t.equal_refl _⟩).1
    have hcontents := hi₁.contents_exchange (Function.update_self ..) hb₁ hex rfl
    dsimp only at hex hcontents
    rw [Function.update_idem] at hex hcontents
    rw [hi.contents_sets hi₁ rfl, Function.update_idem, Function.update_of_ne hne] at hcontents
    cases hrun
    refine ⟨⟨⟨_, hex⟩, rfl, ⟨⟨al, o.data, o.size, o.capacity⟩, ?_, rfl⟩, ?_⟩,
      ⟨_, Function.update_self .., rfl⟩, fun c hca hcb => ⟨?_, ?_⟩⟩
    · dsimp only
      rw [Function.update_of_ne hne.symm, Function.update_self]
    · rw [hcontents, Function.update_of_ne hne.symm, Function.update_self]
    · dsimp only
      rw [Function.update_of_ne hcb, Function.update_of_ne hca]
    · rw [hcontents, Function.update_of_ne hcb, Function.update_of_ne hca]
  · rw [if_neg heq] at hrun
    obtain ⟨rfl, s₁, p, harrs₁, hi₁, hloop⟩ := hi.filled hrun
    have hsize := (hi.shape hb).size
    have hne' : some b ≠ some s.nextArr := fun h => hne (Option.some.inj h)
    have ha₁ : s₁.arrs s.nextArr = some ⟨al, some p, 0, o.size⟩ := by
      rw [harrs₁, Function.update_self]
    have hb₁ : s₁.arrs b = some o := by rw [harrs₁, Function.update_of_ne hne, hb]
    obtain ⟨os, m, hos, hi₂, hset⟩ := hi₁.moveLoop_values o.size ha₁ hb₁ hne (by dsimp only; omega)
      (by rw [Function.update_of_ne hne']; dsimp only; omega) hloop
    have harrs := hset.arrs
    rw [harrs₁, Function.update_idem] at harrs
    rw [Function.update_self, Function.update_idem, List.nil_append] at hi₂
    rw [Function.update_of_ne hne', List.drop_zero, List.take_of_length_le (by omega)] at hos
    refine ⟨⟨⟨_, hi₂⟩, rfl, ⟨_, by rw [harrs, Function.update_self], rfl⟩, ?_⟩, ⟨o, ?_, rfl⟩,
      fun c hca hcb => ⟨?_, ?_⟩⟩
    · rw [hvalues, hi₂.contents_eq, harrs, Function.update_self, Function.update_of_ne hne'.symm,
        Function.update_self, ← hos]
      rfl
    · rw [harrs, Function.update_of_ne hne, hb]
    · rw [harrs, Function.update_of_ne hca]
    · have hca' : some c ≠ some s.nextArr := fun h => hca (Option.some.inj h)
      have hcb' : some c ≠ some b := fun h => hcb (Option.some.inj h)
      rw [hi₂.contents_eq, harrs, Function.update_of_ne hca, Function.update_of_ne hcb',
        Function.update_of_ne hca', hi.contents_eq]

/-! ## Assignment and swap -/

/-- What move assignment does when it returns. What it leaves in the source is not said. -/
structure Moves (t : Traits α A) (s s' : State α A) (a b : Nat) : Prop where
  order : WellFormed t s'
  got : contents t s' a = contents t s b
  others : ∀ c, c ≠ a → c ≠ b → Same t s s' c

/-- What swap does when it returns. -/
structure Trades (t : Traits α A) (s s' : State α A)
  (a b : Nat) : Prop extends Moves t s s' a b where
  gave : contents t s' b = contents t s a

theorem Trades.contents_eq (h : Trades t s s' a b) :
    contents t s' = Function.update (Function.update (contents t s) a (contents t s b)) b
      (contents t s a) := by
  funext c
  by_cases hcb : c = b
  · rw [hcb, Function.update_self, h.gave]
  · rw [Function.update_of_ne hcb]
    by_cases hca : c = a
    · rw [hca, Function.update_self, h.got]
    · rw [Function.update_of_ne hca, (h.others c hca hcb).2]

/-- Two arrays take each other's buffers. -/
theorem Inv.exchange_trades (hi : Inv t s none ls) (ha : s.arrs a = some d) (hb : s.arrs b = some o)
    {e f : Dynarray A} (he : Like t e o) (hf : Like t f d) :
    Trades t s { s with
      arrs := Function.update (Function.update s.arrs a (some e)) b (some f) } a b := by
  have hex := (hi.exchanged ha hb he hf).1
  have hcontents := hi.contents_exchange ha hb hex rfl
  refine { order := ⟨_, hex⟩, got := ?_, others := fun c hca hcb => ⟨?_, ?_⟩, gave := ?_ }
  · rw [hcontents]
    by_cases hab : a = b
    · rw [hab, Function.update_self]
    · rw [Function.update_of_ne hab, Function.update_self]
  · dsimp only
    rw [Function.update_of_ne hcb, Function.update_of_ne hca]
  · rw [hcontents, Function.update_of_ne hcb, Function.update_of_ne hca]
  · rw [hcontents, Function.update_self]

theorem swapAll_apply (ha : s.arrs a = some d) (hb : s.arrs b = some o) : swapAll a b s =
    .ok () { s with arrs := Function.update (Function.update s.arrs a (some o)) b (some d) } := by
  rw [swapAll, bind_ok (arr_apply ha), bind_ok (arr_apply hb)]
  rfl

theorem swapData_apply (ha : s.arrs a = some d) (hb : s.arrs b = some o) :
    swapData a b s = .ok () { s with
    arrs := Function.update (Function.update s.arrs a (some { o with alloc := d.alloc })) b
      (some { d with alloc := o.alloc }) } := by
  rw [swapData, bind_ok (arr_apply ha), bind_ok (arr_apply hb)]
  rfl

/-- The end of a temporary that was not there before. -/
theorem temp_gone {s₁ s₂ : State α A} {tmp : Nat} (hw : WellFormed t s) (hnew : tmp = s.nextArr)
    (hw₁ : WellFormed t s₁) (hhere : ∃ e, s₁.arrs tmp = some e)
    (hrun : destruct t tmp s₁ = .ok () s₂) :
    WellFormed t s₂ ∧ Same t s s₂ tmp ∧ ∀ c, c ≠ tmp → Same t s₁ s₂ c := by
  obtain ⟨ls, hi⟩ := hw
  obtain ⟨ls₁, hi₁⟩ := hw₁
  obtain ⟨e, htmp⟩ := hhere
  obtain ⟨s₃, hdestruct, hi₂, harrs, -⟩ := hi₁.destruct_spec htmp
  rw [hdestruct] at hrun
  cases hrun
  have hcontents := hi₁.contents_discard hi₂ harrs
  refine ⟨⟨_, hi₂⟩, ⟨?_, ?_⟩, fun c hc => ⟨?_, ?_⟩⟩
  · rw [harrs, Function.update_self, hnew, hi.fresh s.nextArr (Nat.le_refl _)]
  · rw [hcontents, Function.update_self, hnew, hi.contents_fresh]
  · rw [harrs, Function.update_of_ne hc]
  · rw [hcontents, Function.update_of_ne hc]

/-- Move assignment exchanges the arrays, allocators included. -/
def exchanges (t : Traits α A) (p q : A) : Bool := t.propagateOnMove || t.alwaysEqual || t.equal p q

theorem moveAssign_exchanges (fuel : Nat) (ha : s.arrs a = some d) (hb : s.arrs b = some o)
    (hc : exchanges t d.alloc o.alloc = true) :
    moveAssign t (fuel + 1) a b s =
      .ok () { s with arrs := Function.update (Function.update s.arrs a (some o)) b (some d) } := by
  rw [exchanges] at hc
  rw [moveAssign, bind_ok (arr_apply ha), bind_ok (arr_apply hb), if_pos hc, swapAll_apply ha hb]

theorem moveAssign_moves (fuel : Nat) (ha : s.arrs a = some d) (hb : s.arrs b = some o)
    (hc : exchanges t d.alloc o.alloc = false) :
    moveAssign t (fuel + 1) a b s = (do
      let tmp ← moveWith t b d.alloc
      Prog.onThrow (swap t fuel tmp a) (destruct t tmp)
      destruct t tmp) s := by
  rw [exchanges] at hc
  rw [moveAssign, bind_ok (arr_apply ha), bind_ok (arr_apply hb), if_neg (Bool.eq_false_iff.mp hc)]

theorem not_alwaysEqual {p q : A} (hc : exchanges t p q = false) : t.alwaysEqual = false := by
  rw [exchanges, Bool.or_eq_false_iff, Bool.or_eq_false_iff] at hc
  exact hc.1.2

/-- Move assignment and swap, at every depth of their calls. Where move assignment does not exchange
the arrays, the source keeps its allocator. -/
theorem moveAssign_swap_values (fuel : Nat) :
    (∀ (s s' : State α A) a b d o, WellFormed t s → s.arrs a = some d → s.arrs b = some o →
      moveAssign t fuel a b s = .ok () s' → Moves t s s' a b ∧
        (exchanges t d.alloc o.alloc = false → ∃ o', s'.arrs b = some o' ∧ o'.alloc = o.alloc)) ∧
    (∀ (s s' : State α A) a b d o, WellFormed t s → s.arrs a = some d → s.arrs b = some o →
      swap t fuel a b s = .ok () s' → Trades t s s' a b) := by
  induction fuel with
  | zero => exact ⟨fun _ _ _ _ _ _ _ _ _ => nofun, fun _ _ _ _ _ _ _ _ _ => nofun⟩
  | succ fuel ih =>
    obtain ⟨ihMove, ihSwap⟩ := ih
    constructor
    · intro s s' a b d o ⟨ls, hi⟩ ha hb hrun
      by_cases hc : exchanges t d.alloc o.alloc = true
      · rw [moveAssign_exchanges fuel ha hb hc] at hrun
        cases hrun
        exact ⟨(hi.exchange_trades ha hb (Like.refl o) (Like.refl d)).toMoves,
          fun h => absurd hc (Bool.eq_false_iff.mp h)⟩
      · rw [Bool.not_eq_true] at hc
        rw [moveAssign_moves fuel ha hb hc] at hrun
        obtain ⟨tmp, s₁, hmake, hrest⟩ := bind_eq_ok hrun
        obtain ⟨_, s₂, hswap, hdestruct⟩ := bind_eq_ok hrest
        have hadd := ((hi.moveWith_spec hb d.alloc).ok hmake).2
        obtain ⟨hbuilt, ⟨o₁, hb₁, ho₁⟩, hsame⟩ := hi.moveWith_builds (not_alwaysEqual hc) hb hmake
        obtain ⟨e, he, -⟩ := hbuilt.here
        obtain ⟨d₁, ha₁⟩ := hadd.old ha
        have htrade := ihSwap s₁ s₂ tmp a e d₁ hbuilt.order he ha₁ (onThrow_eq_ok hswap)
        have hkeep := ((moveAssign_swap_spec fuel).2 s₁ tmp a e d₁ hbuilt.order he ha₁).ok
          (onThrow_eq_ok hswap)
        obtain ⟨hw, hgone, hlast⟩ :=
          temp_gone ⟨ls, hi⟩ hbuilt.new htrade.order (hkeep.2.here he) hdestruct
        have hatmp : a ≠ tmp := hbuilt.new ▸ Nat.ne_of_lt (hi.arr_lt ha)
        have hbtmp : b ≠ tmp := hbuilt.new ▸ Nat.ne_of_lt (hi.arr_lt hb)
        have hba : b ≠ a := by
          rintro rfl
          obtain rfl := Option.some.inj (ha.symm.trans hb)
          simp [exchanges, t.equal_refl] at hc
        refine ⟨⟨hw, ?_, fun c hca hcb => ?_⟩, fun _ => ⟨o₁, ?_, ho₁⟩⟩
        · rw [(hlast a hatmp).2, htrade.gave, hbuilt.got]
        · by_cases hct : c = tmp
          · rw [hct]
            exact hgone
          · exact ((hsame c hct hcb).trans (htrade.others c hct hca)).trans (hlast c hct)
        · rw [(hlast b hbtmp).1, (htrade.others b hbtmp hba).1, hb₁]
    · intro s s' a b d o ⟨ls, hi⟩ ha hb hrun
      rw [swap] at hrun
      by_cases hps : t.propagateOnSwap = true
      · rw [if_pos hps, swapAll_apply ha hb] at hrun
        cases hrun
        exact hi.exchange_trades ha hb (Like.refl o) (Like.refl d)
      · rw [if_neg hps] at hrun
        by_cases hae : t.alwaysEqual = true
        · rw [if_pos hae, swapData_apply ha hb] at hrun
          cases hrun
          exact hi.exchange_trades ha hb ⟨rfl, rfl, rfl, t.equal_always hae _ _⟩
            ⟨rfl, rfl, rfl, t.equal_always hae _ _⟩
        · rw [if_neg hae] at hrun
          obtain ⟨tmp, s₁, hmake, hrest⟩ := bind_eq_ok hrun
          obtain ⟨_, s₃, hmoves, hdestruct⟩ := bind_eq_ok hrest
          obtain ⟨_, s₂, hfirst, hsecond⟩ := bind_eq_ok (onThrow_eq_ok hmoves)
          obtain ⟨hbuilt, hsame⟩ := hi.copy_builds ha hmake
          obtain ⟨e, he, -⟩ := hbuilt.here
          have hatmp : a ≠ tmp := hbuilt.new ▸ Nat.ne_of_lt (hi.arr_lt ha)
          have hbtmp : b ≠ tmp := hbuilt.new ▸ Nat.ne_of_lt (hi.arr_lt hb)
          have ha₁ : s₁.arrs a = some d := (hsame a hatmp).1.trans ha
          have hb₁ : s₁.arrs b = some o := (hsame b hbtmp).1.trans hb
          have hmove₁ := (ihMove s₁ s₂ a b d o hbuilt.order ha₁ hb₁ hfirst).1
          have hkeep₁ := ((moveAssign_swap_spec fuel).1 s₁ a b d o hbuilt.order ha₁ hb₁).ok hfirst
          obtain ⟨e₂, he₂⟩ := hkeep₁.2.here he
          obtain ⟨o₂, hb₂⟩ := hkeep₁.2.here hb₁
          have hmove₂ := (ihMove s₂ s₃ b tmp o₂ e₂ hmove₁.order hb₂ he₂ hsecond).1
          have hkeep₂ :=
            ((moveAssign_swap_spec fuel).1 s₂ b tmp o₂ e₂ hmove₁.order hb₂ he₂).ok hsecond
          obtain ⟨hw, hgone, hlast⟩ :=
            temp_gone ⟨ls, hi⟩ hbuilt.new hmove₂.order (hkeep₂.2.here he₂) hdestruct
          have hgave : contents t s' b = contents t s a := by
            rw [(hlast b hbtmp).2, hmove₂.got, (hmove₁.others tmp hatmp.symm hbtmp.symm).2,
              hbuilt.got]
          refine { order := hw, got := ?_, others := fun c hca hcb => ?_, gave := hgave }
          · by_cases hab : a = b
            · rw [hab, hgave, hab]
            · rw [(hlast a hatmp).2, (hmove₂.others a hab hatmp).2, hmove₁.got, (hsame b hbtmp).2]
          · by_cases hct : c = tmp
            · rw [hct]
              exact hgone
            · exact (((hsame c hct).trans (hmove₁.others c hca hcb)).trans
                (hmove₂.others c hcb hct)).trans (hlast c hct)

/-- A new array trades places with an old one and is destroyed. -/
theorem Inv.swapTemp_values (hi : Inv t s none ls) (ha : s.arrs a = some d) {make : Action α A Nat}
    {fuel : Nat} {al : A} {v : Option (List α)}
    (hmake : ∀ tmp s₁, make s = .ok tmp s₁ → Builds t s s₁ tmp al v ∧ ∀ c, c ≠ tmp → Same t s s₁ c)
    (hrun : (do
      let tmp ← make
      Prog.onThrow (swap t fuel tmp a) (destruct t tmp)
      destruct t tmp) s = .ok () s') :
    WellFormed t s' ∧ contents t s' = Function.update (contents t s) a v := by
  obtain ⟨tmp, s₁, hmade, hrest⟩ := bind_eq_ok hrun
  obtain ⟨_, s₂, hswap, hdestruct⟩ := bind_eq_ok hrest
  obtain ⟨hbuilt, hsame⟩ := hmake tmp s₁ hmade
  obtain ⟨e, he, -⟩ := hbuilt.here
  have hatmp : a ≠ tmp := hbuilt.new ▸ Nat.ne_of_lt (hi.arr_lt ha)
  have ha₁ : s₁.arrs a = some d := (hsame a hatmp).1.trans ha
  have htrade :=
    (moveAssign_swap_values fuel).2 s₁ s₂ tmp a e d hbuilt.order he ha₁ (onThrow_eq_ok hswap)
  have hkeep := ((moveAssign_swap_spec fuel).2 s₁ tmp a e d hbuilt.order he ha₁).ok
    (onThrow_eq_ok hswap)
  obtain ⟨hw, hgone, hlast⟩ :=
    temp_gone ⟨ls, hi⟩ hbuilt.new htrade.order (hkeep.2.here he) hdestruct
  refine ⟨hw, ?_⟩
  funext c
  by_cases hca : c = a
  · rw [hca, Function.update_self, (hlast a hatmp).2, htrade.gave, hbuilt.got]
  · rw [Function.update_of_ne hca]
    by_cases hct : c = tmp
    · rw [hct]
      exact hgone.2
    · exact (((hsame c hct).trans (htrade.others c hct hca)).trans (hlast c hct)).2

theorem Inv.assignTemp_values {fuel : Nat} {xs : List (Arg α)} {vs : List α} {al : A}
    (hi : Inv t s none ls) (ha : s.arrs a = some d)
    (hreads : List.Forall₂ (ReadsAs s none ls s.nextArr) xs vs)
    (hrun : assignTemp t fuel a xs al s = .ok () s') :
    WellFormed t s' ∧ contents t s' = Function.update (contents t s) a (some vs) :=
  hi.swapTemp_values ha (fun _ _ hmade => hi.ofRange_builds hreads hmade) hrun

/-- `assign` from a range, which is foreign where the array may be assigned to in place. -/
theorem Inv.assignWith_values {fuel : Nat} {xs : List (Arg α)} {vs : List α} {al : A}
    (hi : Inv t s none ls) (ha : s.arrs a = some d)
    (hreads : t.alwaysEqual = true → List.Forall₂ (ReadsAs s none ls a) xs vs)
    (htemp : List.Forall₂ (ReadsAs s none ls s.nextArr) xs vs)
    (hrun : assignWith t fuel a xs al s = .ok () s') :
    WellFormed t s' ∧ contents t s' = Function.update (contents t s) a (some vs) := by
  unfold assignWith at hrun
  by_cases hae : t.alwaysEqual = true
  · rw [if_pos hae, bind_ok (arr_apply ha)] at hrun
    by_cases hc : (decide (xs.length > d.size) || !t.nothrowCopyAssign) = true
    · rw [if_pos hc] at hrun
      exact hi.assignTemp_values ha htemp hrun
    · rw [if_neg hc] at hrun
      have hle : xs.length ≤ d.size := by
        simp only [Bool.or_eq_true, decide_eq_true_eq, not_or] at hc
        omega
      obtain ⟨s₁, hkeep, hi₁, hset₁⟩ := hi.keepFirstN_spec ha hle
      rw [bind_ok hkeep] at hrun
      obtain ⟨l, hl, hi₂, harrs⟩ :=
        hi₁.assignLoop_values hset₁.self (show 0 + xs.length = xs.length by omega)
        (readsAs_forall_keep (hreads hae) hset₁ _) hrun
      rw [Function.update_idem] at hi₂
      rw [List.take_zero, List.map_nil, List.nil_append] at hl
      refine ⟨⟨_, hi₂⟩, ?_⟩
      rw [hi.contents_sets hi₂ (harrs.trans hset₁.arrs), hl]
  · rw [if_neg hae] at hrun
    exact hi.assignTemp_values ha htemp hrun

/-- Copy assignment, also of an array to itself. -/
theorem Inv.copyAssign_values {fuel : Nat} (hi : Inv t s none ls) (ha : s.arrs a = some d)
    (hb : s.arrs b = some o) (hrun : copyAssign t fuel a b s = .ok () s') :
    WellFormed t s' ∧ contents t s' = Function.update (contents t s) a (contents t s b) := by
  have hvalues : contents t s b = some ((ls (some b)).map Obj.val) := by
    rw [hi.contents_eq, hb]; rfl
  have htemp := hi.reads_range hb (Nat.ne_of_lt (hi.arr_lt hb))
  rw [copyAssign, bind_ok (arr_apply ha), bind_ok (arr_apply hb)] at hrun
  rw [hvalues]
  by_cases hab : b = a
  · subst hab
    obtain rfl := Option.some.inj (ha.symm.trans hb)
    unfold assignWith at hrun
    by_cases hae : t.alwaysEqual = true
    · rw [if_pos hae, bind_ok (arr_apply ha)] at hrun
      have hlen : (range d : List (Arg α)).length = d.size := by simp [range]
      by_cases hc : (decide ((range d : List (Arg α)).length > d.size) ||
        !t.nothrowCopyAssign) = true
      · rw [if_pos hc] at hrun
        exact hi.assignTemp_values ha htemp hrun
      · rw [if_neg hc] at hrun
        obtain ⟨s₁, hkeep, hi₁, hset₁⟩ := hi.keepFirstN_spec ha (Nat.le_of_eq hlen)
        rw [bind_ok hkeep] at hrun
        have hsize := (hi.shape ha).size
        rw [List.take_of_length_le (by omega), Function.update_eq_self] at hi₁
        obtain ⟨hi₂, harrs⟩ :=
            hi₁.assignLoop_self hset₁.self (show 0 + d.size = _ by dsimp only; omega) (by
          rw [range, List.range_eq_range'] at hrun
          exact hrun)
        refine ⟨⟨ls, hi₂⟩, ?_⟩
        have hi₂' : Inv t s' none (Function.update ls (some b) (ls (some b))) := by
          rwa [Function.update_eq_self]
        exact hi.contents_sets hi₂' (harrs.trans hset₁.arrs)
    · rw [if_neg hae] at hrun
      exact hi.assignTemp_values ha htemp hrun
  · exact hi.assignWith_values ha (fun _ => hi.reads_range hb hab) htemp hrun

theorem Inv.shrinkToFit_values {fuel : Nat} (hi : Inv t s none ls) (ha : s.arrs a = some d)
    (hrun : shrinkToFit t fuel a s = .ok () s') :
    WellFormed t s' ∧ contents t s' = contents t s := by
  rw [shrinkToFit, bind_ok (arr_apply ha)] at hrun
  obtain ⟨hw, hcontents⟩ :=
    hi.swapTemp_values ha (fun _ _ hmade => hi.copyWith_builds ha hmade) hrun
  rw [Function.update_eq_self] at hcontents
  exact ⟨hw, hcontents⟩

end Gpcl.Dynarray
