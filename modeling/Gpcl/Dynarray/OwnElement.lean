import Gpcl.Dynarray.Refine

/-! # Appending an element of the array itself

The argument is a reference into the buffer. As long as the buffer is kept the reference names the
element; where `reserve` takes a new one, the old buffer is gone before the first constructor runs,
and what is read is what is read from a slot without an object. -/
namespace Gpcl.Dynarray
open Lib.Memory Lib.Objects Lib.Objects.Heap
open Lib.Objects.Prog hiding pure bind

variable {α A : Type} {t : Traits α A} {s s' : State α A} {ls : Key → List (Obj α)} {a i n : Nat}
    {d : Dynarray A} {v val : α}
  {p : Option Nat} {x : Arg α}

/-- No array has the buffer. -/
def Dangling (s : State α A) (p : Option Nat) : Prop :=
  ∀ a d b, s.arrs a = some d → d.data = some b → p ≠ some b

theorem Inv.read_dangling (hi : Inv t s none ls) (h : Dangling s p) (i : Nat) :
    read t s (.ref p i) = t.junk := by
  cases p with
  | none => rfl
  | some b =>
    have hgone : s.heap.bufs b = none := by
      cases hb : s.heap.bufs b with
      | none => rfl
      | some buf =>
        obtain ⟨k, d, hk, hd⟩ := hi.owns.owned b buf hb
        cases k with
        | none => cases hk
        | some a => exact absurd rfl (h a d b hk hd)
    rw [read, Option.bind_some, at?_none hgone]
    rfl

/-- The argument reads as `val` now, and while elements are appended to the array. -/
structure Steady (t : Traits α A) (a : Nat) (x : Arg α) (val : α)
  (R : State α A → (Key → List (Obj α)) → Prop) : Prop where
  reads : ∀ {s ls}, Inv t s none ls → R s ls → read t s x = val
  keeps : ∀ {s s' ls d} (o : Obj α), s.arrs a = some d → Sets s s' a { d with size := d.size + 1 } →
    R s ls →
    R s' (Function.update ls (some a) (ls (some a) ++ [o]))

/-- An element of the array itself. -/
theorem steady_element (t : Traits α A) (a i : Nat) (p : Option Nat) (v : α) :
    Steady t a (.ref p i) v fun s ls => ∃ d e, s.arrs a = some d ∧ d.data = p ∧
    (ls (some a))[i]? = some e ∧ e.val = v where
  reads := by
    intro s ls hi ⟨d, e, ha, hd, he, hv⟩
    rw [← hd, ← hv]
    exact hi.read_ref (k := some a) ha he
  keeps := by
    intro s s' ls d o ha hset ⟨d', e, ha', hd, he, hv⟩
    obtain rfl := Option.some.inj (ha.symm.trans ha')
    refine ⟨_, e, hset.self, hd, ?_, hv⟩
    have hlt : i < (ls (some a)).length := (List.getElem?_eq_some_iff.mp he).1
    rw [Function.update_self, List.getElem?_append_left hlt, he]

/-- A reference into a buffer that is gone. -/
theorem steady_dangling (t : Traits α A) (a i : Nat) (p : Option Nat) :
    Steady t a (.ref p i) t.junk fun s _ => Dangling s p where
  reads hi h := hi.read_dangling h i
  keeps := by
    intro s s' ls d o ha hset h a' e b ha' he
    rw [hset.arrs, Function.update_apply] at ha'
    split at ha'
    · obtain rfl := Option.some.inj ha'
      exact h a d b ha he
    · exact h a' e b ha' he

theorem Inv.fillLoop_steady {R : State α A → (Key → List (Obj α)) → Prop} (hx : Steady t a x val R)
    {k : Nat} (hi : Inv t s none ls) (ha : s.arrs a = some d) (hfit : d.size + k ≤ d.capacity)
    (hR : R s ls) (hrun : fillLoop t a (List.replicate k x) s = .ok () s') :
    ∃ os d', os.map Obj.val = List.replicate k val ∧
    Inv t s' none (Function.update ls (some a) (ls (some a) ++ os)) ∧
      Sets s s' a d' := by
  induction k generalizing s d ls with
  | zero =>
    cases hrun
    refine ⟨[], d, rfl, ?_, Sets.refl ha⟩
    rwa [List.append_nil, Function.update_eq_self]
  | succ k ih =>
    rw [List.replicate_succ, fillLoop, bind_ok (arr_apply ha), ← bind_assoc] at hrun
    obtain ⟨_, s₁, happend, hloop⟩ := bind_eq_ok hrun
    obtain ⟨hi₁, hset₁, -⟩ := (hi.append_spec ha (by omega) x).ok happend
    rw [hx.reads hi hR] at hi₁
    obtain ⟨os, d', hos, hi₂, hset₂⟩ :=
      ih hi₁ hset₁.self (by dsimp only; omega) (hx.keeps _ ha hset₁ hR) hloop
    refine ⟨⟨s.heap.nextObj, val⟩ :: os, d', by rw [List.map_cons, hos, List.replicate_succ], ?_,
      hset₁.trans hset₂⟩
    rwa [Function.update_idem, Function.update_self, List.append_assoc] at hi₂

/-! ## After reserve -/

/-- A buffer that is given up is no array's. -/
theorem Inv.reserve_moves (hi : Inv t s none ls) (ha : s.arrs a = some d) (hn : d.capacity < n)
    (hrun : reserve t a n s = .ok () s') :
    ∃ l d', l.map Obj.val = (ls (some a)).map Obj.val ∧
    Inv t s' none (Function.update ls (some a) l) ∧ Sets s s' a d' ∧
      d'.size = d.size ∧ d'.capacity = n ∧ Dangling s' d.data := by
  cases hf : allocFails s n with
  | true =>
    rw [reserve_fails ha hn hf] at hrun
    cases hrun
  | false =>
    obtain ⟨l, b, hb, hmap, hi', hset⟩ := (hi.reserve_spec ha hn hf).ok hrun
    refine ⟨l, _, hmap, hi', hset, rfl, rfl, fun a' e b' ha' he hd => ?_⟩
    rw [hset.arrs, Function.update_apply] at ha'
    split at ha'
    · obtain rfl := Option.some.inj ha'
      obtain rfl := Option.some.inj he
      obtain ⟨-, -, -, al, -, hbuf⟩ := (shape_some hd).mp (hi.shape ha)
      rw [hb] at hbuf
      cases hbuf
    · next hne => exact hne (Option.some.inj (hi.owns.apart (some a') (some a) e d b' ha' ha he hd))

theorem Inv.appendTo_steady {R : State α A → (Key → List (Obj α)) → Prop} (hx : Steady t a x val R)
    (hi : Inv t s none ls) (ha : s.arrs a = some d) (hR : R s ls)
    (hrun : appendTo t a d.size x s = .ok () s') :
    ∃ os d', os.map Obj.val = [val] ∧
    Inv t s' none (Function.update ls (some a) (ls (some a) ++ os)) ∧ Sets s s' a d' := by
  rw [appendTo, bind_ok (arr_apply ha)] at hrun
  by_cases hle : d.size + 1 ≤ d.capacity
  · rw [bind_ok (assert_true hle s), bind_ok (arr_apply ha)] at hrun
    obtain ⟨hi', hset, -⟩ := (hi.append_spec ha hle x).ok hrun
    rw [hx.reads hi hR] at hi'
    exact ⟨_, _, rfl, hi', hset⟩
  · rw [bind_fault (assert_false hle s)] at hrun
    cases hrun

theorem Inv.fillTo_steady {R : State α A → (Key → List (Obj α)) → Prop} (hx : Steady t a x val R)
    (hi : Inv t s none ls) (ha : s.arrs a = some d) (hcap : n ≤ d.capacity) (hn : d.size < n)
    (hR : R s ls) (hrun : fillTo t a n x s = .ok () s') :
    ∃ os d', os.map Obj.val = List.replicate (n - d.size) val ∧
      Inv t s' none (Function.update ls (some a) (ls (some a) ++ os)) ∧ Sets s s' a d' := by
  rw [fillTo, bind_ok (arr_apply ha), if_neg (Nat.not_le.mpr hn)] at hrun
  exact hi.fillLoop_steady hx ha (by omega) hR (onThrow_eq_ok hrun)

/-- The values of an array that has been relocated and appended to. -/
theorem Inv.contents_append (hi : Inv t s none ls) (ha : s.arrs a = some d) {l os : List (Obj α)}
    {d' : Dynarray A} (hmap : l.map Obj.val = (ls (some a)).map Obj.val)
    (hi' : Inv t s' none (Function.update ls (some a) (l ++ os))) (hset : Sets s s' a d') :
    contents t s' a = some (values t s d ++ os.map Obj.val) := by
  rw [hi'.contents_eq, hset.self, hi.values_eq ha, Function.update_self, List.map_append, hmap]
  rfl

/-- `reserve` keeps the buffer, and the argument is still the element. -/
theorem Inv.element (hi : Inv t s none ls) (ha : s.arrs a = some d)
    (hv : (values t s d)[i]? = some v) :
    ∃ d' e, s.arrs a = some d' ∧ d'.data = d.data ∧ (ls (some a))[i]? = some e ∧ e.val = v := by
  rw [hi.values_eq ha, List.getElem?_map] at hv
  obtain ⟨e, he, hev⟩ := Option.map_eq_some_iff.mp hv
  exact ⟨d, e, ha, rfl, he, hev⟩

theorem Inv.pushBack_kept (hi : Inv t s none ls) (ha : s.arrs a = some d)
    (hv : (values t s d)[i]? = some v) (hcap : d.size < d.capacity)
    (hrun : pushBack t a (.ref d.data i) s = .ok () s') :
    contents t s' a = some (values t s d ++ [v]) := by
  have hasks : growTo d.capacity (d.size + 1) = 0 := by
    rw [growTo, if_neg (by omega), if_neg (by omega)]
  rw [pushBack, emplaceBack_eq ha, hasks, bind_ok (reserve_le ha (Nat.zero_le _))] at hrun
  obtain ⟨os, d', hos, hi', hset⟩ :=
    hi.appendTo_steady (steady_element t a i d.data v) ha (hi.element ha hv) hrun
  rw [hi.contents_append ha rfl hi' hset, hos]

theorem Inv.pushBack_moved (hi : Inv t s none ls) (ha : s.arrs a = some d)
    (hcap : ¬ d.size < d.capacity) (hrun : pushBack t a (.ref d.data i) s = .ok () s') :
    contents t s' a = some (values t s d ++ [t.junk]) := by
  have hle := (hi.shape ha).le_capacity
  rw [← (hi.shape ha).size] at hle
  have hgrow := (le_growTo hle (hi.shape ha).capacity_le).resolve_left (by omega)
  rw [pushBack, emplaceBack_eq ha] at hrun
  obtain ⟨_, s₁, hreserve, hrest⟩ := bind_eq_ok hrun
  obtain ⟨l, d₁, hmap, hi₁, hset₁, hsize, -, hgone⟩ := hi.reserve_moves ha hgrow.1 hreserve
  rw [← hsize] at hrest
  obtain ⟨os, d', hos, hi', hset⟩ :=
    hi₁.appendTo_steady (steady_dangling t a i d.data) hset₁.self hgone hrest
  rw [Function.update_self, Function.update_idem] at hi'
  rw [hi.contents_append ha hmap hi' (hset₁.trans hset), hos]

theorem Inv.resizeVal_kept (hi : Inv t s none ls) (ha : s.arrs a = some d)
    (hv : (values t s d)[i]? = some v) (hcap : n ≤ d.capacity) (hn : d.size < n)
    (hrun : resizeVal t a n (.ref d.data i) s = .ok () s') :
    contents t s' a = some (values t s d ++ List.replicate (n - d.size) v) := by
  have hrest : fillTo t a n (.ref d.data i) s = .ok () s' := by
    rw [resizeVal, bind_ok (reserve_le ha hcap)] at hrun
    exact hrun
  obtain ⟨os, d', hos, hi', hset⟩ :=
    hi.fillTo_steady (steady_element t a i d.data v) ha hcap hn (hi.element ha hv) hrest
  rw [hi.contents_append ha rfl hi' hset, hos]

theorem Inv.resizeVal_moved (hi : Inv t s none ls) (ha : s.arrs a = some d) (hcap : d.capacity < n)
    (hn : d.size < n) (hrun : resizeVal t a n (.ref d.data i) s = .ok () s') :
    contents t s' a = some (values t s d ++ List.replicate (n - d.size) t.junk) := by
  obtain ⟨_, s₁, hreserve, hrest⟩ := bind_eq_ok hrun
  obtain ⟨l, d₁, hmap, hi₁, hset₁, hsize, hcap₁, hgone⟩ := hi.reserve_moves ha hcap hreserve
  have hfill : fillTo t a n (.ref d.data i) s₁ = .ok () s' := hrest
  obtain ⟨os, d', hos, hi', hset⟩ :=
    hi₁.fillTo_steady (steady_dangling t a i d.data) hset₁.self (Nat.le_of_eq hcap₁.symm)
      (by omega) hgone hfill
  rw [Function.update_self, Function.update_idem] at hi'
  rw [hi.contents_append ha hmap hi' (hset₁.trans hset), hos, hsize]

/-- `push_back` and `resize` do not stop at an assertion. -/
theorem Inv.ends (hi : Inv t s none ls) (ha : s.arrs a = some d) (x : Arg α) (n : Nat) :
    ((∃ s', pushBack t a x s = .thrown s') ∨ ∃ s', pushBack t a x s = .ok () s') ∧
      ((∃ s', resizeVal t a n x s = .thrown s') ∨ ∃ s', resizeVal t a n x s = .ok () s') :=
  ⟨returns_or_throws (settles_emplaceBack a x) (hi.call_spec ha (.pushBack x) fun _ => by simp),
    returns_or_throws (settles_resizeVal a n x) (hi.call_spec ha (.resizeVal n x) fun _ => by simp)⟩

/-- What is appended when an element of the array is, if a slot without an object holds no element's
value: it is copies of the element if and only if the buffer is kept. -/
theorem appends_own_element_iff (hw : WellFormed t s) (ha : s.arrs a = some d)
    (hv : (values t s d)[i]? = some v) (hjunk : v ≠ t.junk) :
    (∀ s', pushBack t a (.ref d.data i) s = .ok () s' →
      (contents t s' a = some (values t s d ++ [v]) ↔ d.size < d.capacity)) ∧
    (∀ n s', d.size < n → resizeVal t a n (.ref d.data i) s = .ok () s' →
      (contents t s' a = some (values t s d ++ List.replicate (n - d.size) v) ↔ n ≤ d.capacity)) ∧
    ∀ n, ((∃ s', pushBack t a (.ref d.data i) s = .thrown s') ∨
      ∃ s', pushBack t a (.ref d.data i) s = .ok () s') ∧
      ((∃ s', resizeVal t a n (.ref d.data i) s = .thrown s') ∨
        ∃ s', resizeVal t a n (.ref d.data i) s = .ok () s') := by
  obtain ⟨ls, hi⟩ := hw
  refine ⟨fun s' hrun => ⟨fun hc => ?_, fun hcap => hi.pushBack_kept ha hv hcap hrun⟩,
      fun n s' hn hrun => ⟨fun hc => ?_, fun hcap =>
    hi.resizeVal_kept ha hv hcap hn hrun⟩, fun n => hi.ends ha _ n⟩
  · by_contra hcap
    rw [hi.pushBack_moved ha hcap hrun, Option.some.injEq, List.append_cancel_left_eq,
      List.cons.injEq] at hc
    exact hjunk hc.1.symm
  · by_contra hcap
    rw [hi.resizeVal_moved ha (Nat.lt_of_not_le hcap) hn hrun, Option.some.injEq,
      List.append_cancel_left_eq, List.replicate_right_inj] at hc
    · exact hjunk hc.symm
    · omega

/-! ## An array of one element -/

def returns (r : Res (State α A) Unit) : Bool :=
  match r with
  | .ok _ _ => true
  | _ => false

theorem exists_of_returns {r : Res (State α A) Unit} (h : returns r = true) :
    ∃ s', r = .ok () s' := by
  cases r with
  | ok x s' => exact ⟨s', rfl⟩
  | thrown s' => cases h
  | fault => cases h
  | pending => cases h

/-- The state with an array of the value 5 that is full. -/
def fullArray : State Nat Unit :=
  match ofRange plain () [.val 5] (initial fun _ => false) with
  | .ok _ s => s
  | _ => initial fun _ => false

theorem inv_fullArray :
    ∃ ls, Inv plain fullArray none ls ∧ fullArray.arrs 0 = some ⟨(), some 0, 1, 1⟩ ∧
    values plain fullArray ⟨(), some 0, 1, 1⟩ = [5] := by
  have hreads :
      List.Forall₂ (ReadsAs (initial fun _ => false : State Nat Unit) none (fun _ => []) 0) [.val 5]
        [5] :=
    .cons (.inl rfl) .nil
  obtain ⟨-, l, d, -, hi, -⟩ := (Inv.initial (t := plain) fun _ => false).ofRange_values hreads
    (show ofRange plain () [.val 5] (initial fun _ => false) = .ok 0 fullArray from rfl)
  exact ⟨_, hi, rfl, rfl⟩

/-- The element is appended to the full array. -/
theorem pushBack_own_of_full :
    WellFormed plain fullArray ∧ fullArray.arrs 0 = some ⟨(), some 0, 1, 1⟩ ∧
    values plain fullArray ⟨(), some 0, 1, 1⟩ = [5] ∧
    ∃ s', pushBack plain 0 (.ref (some 0) 0) fullArray = .ok () s' ∧
    contents plain s' 0 ≠ some ([5] ++ [5]) := by
  obtain ⟨ls, hi, ha, hvalues⟩ := inv_fullArray
  obtain ⟨s', hrun⟩ :=
    exists_of_returns (r := pushBack plain 0 (.ref (some 0) 0) fullArray) (by decide +kernel)
  refine ⟨⟨ls, hi⟩, ha, hvalues, s', hrun, ?_⟩
  rw [hi.pushBack_moved ha (by decide) hrun, hvalues]
  decide

theorem appends_own_of_full : ∃ s', pushBack plain 0 (.ref (some 0) 0) fullArray = .ok () s' ∧
    (contents plain s' 0 = some ([5] ++ [5]) ↔ 1 < 1) := by
  obtain ⟨ls, hi, ha, hvalues⟩ := inv_fullArray
  obtain ⟨s', hrun⟩ :=
    exists_of_returns (r := pushBack plain 0 (.ref (some 0) 0) fullArray) (by decide +kernel)
  have happ := appends_own_element_iff ⟨ls, hi⟩ ha
    (show (values plain fullArray ⟨(), some 0, 1, 1⟩)[0]? = some 5 by rw [hvalues]; rfl)
    (show 5 ≠ plain.junk by decide)
  rw [hvalues] at happ
  exact ⟨s', hrun, happ.1 s' hrun⟩

end Gpcl.Dynarray
