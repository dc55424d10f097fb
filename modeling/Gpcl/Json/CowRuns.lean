import Gpcl.Json.CowPlaces

/-! # Value semantics

What an operation does to the contents of the variables and the cells. The references that may be
written through are to variables, since a `cow_visitor` never calls its function with what is behind
a pointer; so a write changes the content of one variable at one place, and `operator==` sees the
contents only. -/
namespace Gpcl.Cow
open Lib.Runs

variable {R I : Type}

/-- The content of a variable or a cell. -/
def State.value (s : State I R) (b : Base I) : Option (Json R) := (s.root b).map (content s.heap)

def State.contentAt (s : State I R) (b : Base I) (path : List Place) : Option (Json R) :=
  (s.value b).bind (findIn path)

structure Inv (s : State I R) : Prop where
  ordered : Ordered s.heap
  ok : ∀ v d, s.vars v = some d → Ok s.heap d
  refs : ∀ r ∈ s.refs, ∃ v, r.base = .var v

/-- The content of the value that is referred to. -/
def State.source (s : State I R) (r : Ref I) : Json R :=
  ((s.read r).map (content s.heap)).getD .null

def tagOf : Json R → Tag
  | .null => .null
  | .boolean _ => .boolean
  | .integer _ => .integer
  | .real _ => .real
  | .string _ => .string
  | .object _ => .object
  | .array _ => .array

def cleared [Zero R] : Json R → Json R
  | .null => .null
  | .boolean _ => .boolean false
  | .integer _ => .integer 0
  | .real _ => .real 0
  | .string _ => .string []
  | .object _ => .object []
  | .array _ => .array []

/-- The value that an operation changes. -/
def target : Act I R → Option (Ref I)
  | .copyAssign r _ | .assign r _ | .index r _ | .getAssign r _ | .pushBack r _ |
    .pushBackChar r _ | .insert r _ _ | .erase r _ _
  | .eraseMember r _ | .clear r => some r
  | .construct _ _ | .copyConstruct _ _ | .atPlace _ _ | .constAtPlace _ _ | .get _ => none

/-- What it does to the content there; an operation on a value of another type throws. -/
def effect [Zero R] (s : State I R) (a : Act I R) (j : Json R) : Json R :=
  match a, j with
  | .copyAssign _ source, _ => s.source source
  | .assign _ x, _ => x
  | .index _ k, .object fields => .object (insertKey k .null fields)
  | .getAssign _ x, j => if tagOf j = tagOf x then x else j
  | .pushBack _ source, .array xs => .array (xs ++ [s.source source])
  | .pushBackChar _ ch, .string t => .string (t ++ [ch])
  | .insert _ k source, .object fields => .object (insertKey k (s.source source) fields)
  | .erase _ pos count, .array xs => .array (xs.take pos ++ xs.drop (pos + count))
  | .erase _ pos count, .string t =>
    if pos ≤ t.length then .string (t.take pos ++ t.drop (pos + count)) else .string t
  | .eraseMember _ k, .object fields => .object (eraseKey k fields)
  | .clear _, j => cleared j
  | _, j => j

/-- No content has changed. -/
structure Keeps (s s' : State I R) : Prop where
  inv : Inv s'
  grown : s.heap <+: s'.heap
  value : ∀ b, s.root b ≠ none → s'.value b = s.value b

/-- The content of `v` has been changed by `f` at one place. -/
structure Updates (s s' : State I R) (v : I) (path : List Place) (f : Json R → Json R) : Prop where
  inv : Inv s'
  grown : s.heap <+: s'.heap
  changed : s'.value (.var v) = (s.value (.var v)).map (modifyIn f path)
  value : ∀ b, b ≠ .var v → s.root b ≠ none → s'.value b = s.value b

section states
variable {s s' s₁ s₂ : State I R} {r : Ref I} {v : I} {path : List Place} {d d' : Data R}
    {H : Heap R} {f : Json R → Json R}

theorem Inv.initial : Inv (.initial : State I R) := ⟨.nil, nofun, nofun⟩

theorem Inv.root (hi : Inv s) {b : Base I} (h : s.root b = some d) : Ok s.heap d := by
  cases b with
  | var v => exact hi.ok v d h
  | cell p => exact (hi.ordered.cell h).1

theorem Inv.read (hi : Inv s) (h : s.read r = some d) : Ok s.heap d := by
  obtain ⟨x, hx, h⟩ := Option.bind_eq_some_iff.mp h
  exact ((hi.root hx).find h).1

theorem Keeps.root (h : Keeps s s₁) {b : Base I} (hb : s.root b ≠ none) : s₁.root b ≠ none :=
    fun hn => by
  have hv := h.value b hb
  rw [State.value, hn] at hv
  exact hb (Option.map_eq_none_iff.mp hv.symm)

theorem Keeps.updates (h : Keeps s s₁) (h' : Updates s₁ s₂ v path f) (hv : s.vars v ≠ none) :
    Updates s s₂ v path f := by
  refine ⟨h'.inv, h.grown.trans h'.grown, ?_, fun b hbv hb => ?_⟩
  · rw [h'.changed, h.value (.var v) hv]
  · rw [h'.value b hbv (h.root hb), h.value b hb]

/-- The contents of what is there do not depend on new cells. -/
theorem Inv.value_grown (hi : Inv s) (hgrown : s.heap <+: s'.heap) {b : Base I}
    (hb : s.root b ≠ none)
    (hvar : ∀ w, b = .var w → s'.vars w = s.vars w) : s'.value b = s.value b := by
  obtain ⟨c, hc⟩ := Option.ne_none_iff_exists'.mp hb
  have hroot : s'.root b = some c := by
    cases b with
    | var w => exact (hvar w rfl).trans hc
    | cell p =>
      obtain ⟨new, hnew⟩ := hgrown
      have hp : s.heap[p]? = some c := hc
      show s'.heap[p]? = some c
      rw [← hnew, List.getElem?_append_left (List.getElem?_eq_some_iff.mp hp).1, hp]
  rw [State.value, State.value, hc, hroot, Option.map_some, Option.map_some,
    content_grown (hi.root hc) hgrown]

theorem Inv.grow (hi : Inv s) (hgrown : s.heap <+: H) (ho : Ordered H) :
    Keeps s { s with heap := H } :=
  ⟨⟨ho, fun v d hd => (hi.ok v d hd).grown hgrown, hi.refs⟩, hgrown,
    fun _ hb => hi.value_grown hgrown hb fun _ _ => rfl⟩

variable [DecidableEq I]

theorem write_var {x : Data R} (hr : r.base = .var v) (hx : s.vars v = some x) :
    State.write r d' { s with heap := H } =
      { s with
        heap := H, vars := Function.update s.vars v (some (x.modify (fun _ => d') r.path)) } := by
  rw [State.write, hr]
  dsimp only
  rw [hx]
  rfl

theorem read_write (hr : r.base = .var v) (hread : s.read r = some d) :
    (State.write r d' { s with heap := H }).read r = some d' := by
  obtain ⟨x, hx, hfind⟩ := Option.bind_eq_some_iff.mp hread
  rw [hr] at hx
  rw [write_var hr hx, State.read, hr]
  show (Function.update s.vars v _ v).bind _ = _
  rw [Function.update_self, Option.bind_some]
  exact find_modify hfind

/-- A write through a reference to a variable, with a heap that has grown. -/
theorem write_updates (hi : Inv s) (hr : r.base = .var v) (hread : s.read r = some d)
    (hgrown : s.heap <+: H) (ho : Ordered H) (hok : Ok H d')
    (hc : content H d' = f (content s.heap d)) :
    Updates s (State.write r d' { s with heap := H }) v r.path f := by
  obtain ⟨x, hx, hfind⟩ := Option.bind_eq_some_iff.mp hread
  rw [hr] at hx
  have hx : s.vars v = some x := hx
  have hokx := hi.ok v x hx
  have hokd := (hokx.find hfind).1
  obtain ⟨hmok, hmc⟩ := (hokx.grown hgrown).modify (f := fun _ => d') (g := f) hfind hok
    (by rw [content_grown hokd hgrown]; exact hc)
  rw [write_var hr hx]
  refine ⟨⟨ho, fun w y hy => ?_, hi.refs⟩, hgrown, ?_,
    fun b hbv hb => hi.value_grown hgrown hb fun w hw => ?_⟩
  · change Function.update s.vars v (some (x.modify (fun _ => d') r.path)) w = some y at hy
    by_cases hw : w = v
    · rw [hw, Function.update_self] at hy
      obtain rfl := Option.some.inj hy
      exact hmok
    · rw [Function.update_of_ne hw] at hy
      exact (hi.ok w y hy).grown hgrown
  · show (Function.update s.vars v _ v).map (content H) =
      ((s.vars v).map (content s.heap)).map (modifyIn f r.path)
    rw [Function.update_self, hx, Option.map_some, Option.map_some, Option.map_some, hmc,
      content_grown hokx hgrown]
  · refine Function.update_of_ne (fun he => hbv ?_) _ _
    rw [hw, he]

omit [DecidableEq I] in
theorem Inv.value_fixed (hi : Inv s) (hr : r.base = .var v) (hread : s.read r = some d)
    (hf : f (content s.heap d) = content s.heap d) :
    (s.value (.var v)).map (modifyIn f r.path) = s.value (.var v) := by
  obtain ⟨x, hx, hfind⟩ := Option.bind_eq_some_iff.mp hread
  rw [hr] at hx
  rw [State.value, hx, Option.map_some, Option.map_some,
    modifyIn_fixed ((hi.root hx).find hfind).2 hf]

/-- What a visit with a `cow_visitor` has done when it calls its function. -/
structure Visited (s s₁ : State I R) (r : Ref I) (v : I) (d d' : Data R) : Prop where
  base : r.base = .var v
  alive : s.vars v ≠ none
  read : s.read r = some d
  keeps : Keeps s s₁
  reread : s₁.read r = some d'
  direct : d'.Direct
  content : content s₁.heap d' = content s.heap d
  ok : Ok s₁.heap d'
  tag : d'.tag = d.tag
  same : s₁.refs = s.refs ∧ s₁.constRefs = s.constRefs

theorem onCow_visited (hi : Inv s) {k : Data R → State I R → Option (State I R)}
    (h : onCow r k s = some s') :
    ∃ s₁ v d d', Visited s s₁ r v d d' ∧ k d' s₁ = some s' := by
  obtain ⟨hr, h⟩ := Option.ite_none_right_eq_some.mp h
  obtain ⟨d, hread, h⟩ := Option.bind_eq_some_iff.mp h
  obtain ⟨v, hv⟩ := hi.refs r hr
  obtain ⟨hcopy, hdirect, htag⟩ := cow_copy hi.ordered (hi.read hread)
  have hup :
      Updates s (State.write r (cow s.heap d).2 { s with heap := (cow s.heap d).1 }) v r.path id :=
    write_updates hi hv hread hcopy.grown hcopy.ordered hcopy.ok hcopy.content
  obtain ⟨x, hx, _⟩ := Option.bind_eq_some_iff.mp hread
  rw [hv] at hx
  have hx : s.vars v = some x := hx
  have hheap :
      (State.write r (cow s.heap d).2 { s with heap := (cow s.heap d).1 }).heap =
        (cow s.heap d).1 := by
    rw [write_var hv hx]
  refine ⟨_, v, d, _,
    ⟨hv, fun hn => ?_, hread, ⟨hup.inv, hup.grown, fun b hb => ?_⟩, read_write hv hread, hdirect,
      ?_, ?_, htag, ?_⟩, h⟩
  · rw [hx] at hn
    cases hn
  · by_cases hbv : b = .var v
    · rw [hbv, hup.changed]
      exact hi.value_fixed hv hread rfl
    · exact hup.value b hbv hb
  · rw [hheap]; exact hcopy.content
  · rw [hheap]; exact hcopy.ok
  · rw [write_var hv hx]; exact ⟨rfl, rfl⟩

omit [DecidableEq I] in
/-- What is behind a reference keeps its content. -/
theorem Keeps.read (h : Keeps s s₁) (hi : Inv s) (hread : s.read r = some d)
    (hread' : s₁.read r = some d') :
    content s₁.heap d' = content s.heap d := by
  obtain ⟨x, hx, hfind⟩ := Option.bind_eq_some_iff.mp hread
  obtain ⟨x', hx', hfind'⟩ := Option.bind_eq_some_iff.mp hread'
  have hvalue := h.value r.base (by rw [hx]; nofun)
  rw [State.value, State.value, hx, hx', Option.map_some, Option.map_some] at hvalue
  have hin := ((hi.root hx).find hfind).2
  have hin' := ((h.inv.root hx').find hfind').2
  rw [Option.some.inj hvalue, hin] at hin'
  exact (Option.some.inj hin').symm

omit [DecidableEq I] in
theorem source_eq (h : s.read r = some d) : s.source r = content s.heap d := by
  rw [State.source, h]
  rfl

omit [DecidableEq I] in
theorem tagOf_content (h : d.Direct) : tagOf (content H d) = d.tag := by
  cases d with
  | stringPtr | objectPtr | arrayPtr => cases h
  | _ => rfl

theorem tag_ofJson (j : Json R) : (ofJson j).tag = tagOf j := by
  cases j <;> rfl

theorem content_cleared [Zero R] (h : d.Direct) :
    Ok H d.cleared ∧ content H d.cleared = cleared (content H d) := by
  cases d with
  | stringPtr | objectPtr | arrayPtr => cases h
  | null => exact ⟨.null, rfl⟩
  | boolean b => exact ⟨.boolean false, rfl⟩
  | integer i => exact ⟨.integer 0, rfl⟩
  | real r => exact ⟨.real 0, rfl⟩
  | string s => exact ⟨.string [], rfl⟩
  | object fields => exact ⟨.object nofun, rfl⟩
  | array xs => exact ⟨.array nofun, rfl⟩

section containers
variable {x : Data R} {xs : List (Data R)} {fields : List (Str × Data R)} {k : Str}

omit [DecidableEq I]

theorem insertKey_spec (hd : Ok H (.object fields)) (hx : Ok H x) (k : Str) :
    Ok H (.object (insertKey k x fields)) ∧
      content H (.object (insertKey k x fields)) =
        .object (insertKey k (content H x) (fields.map (Prod.map id (content H)))) := by
  cases hd with
  | object hok =>
    refine ⟨.object fun f hf => ?_, ?_⟩
    · rcases mem_insertKey hf with rfl | hf
      · exact hx
      · exact hok f hf
    · rw [content_object, insertKey_map]

theorem eraseKey_spec (hd : Ok H (.object fields)) (k : Str) :
    Ok H (.object (eraseKey k fields)) ∧
      content H (.object (eraseKey k fields)) =
        .object (eraseKey k (fields.map (Prod.map id (content H)))) := by
  cases hd with
  | object hok =>
    exact ⟨.object fun f hf => hok f (eraseKey_subset hf), by rw [content_object, eraseKey_map]⟩

theorem append_spec (hd : Ok H (.array xs)) (hx : Ok H x) :
    Ok H (.array (xs ++ [x])) ∧
    content H (.array (xs ++ [x])) = .array (xs.map (content H) ++ [content H x]) := by
  cases hd with
  | array hok =>
    refine ⟨.array fun y hy => ?_, ?_⟩
    · rcases List.mem_append.mp hy with hy | hy
      · exact hok y hy
      · exact List.mem_singleton.mp hy ▸ hx
    · rw [content_array, List.map_append, List.map_singleton]

theorem erase_spec (hd : Ok H (.array xs)) (pos count : Nat) :
    Ok H (.array (xs.take pos ++ xs.drop (pos + count))) ∧
    content H (.array (xs.take pos ++ xs.drop (pos + count))) =
      .array ((xs.map (content H)).take pos ++ (xs.map (content H)).drop (pos + count)) := by
  cases hd with
  | array hok =>
    refine ⟨.array fun y hy => ?_, ?_⟩
    · rcases List.mem_append.mp hy with hy | hy
      · exact hok y (List.mem_of_mem_take hy)
      · exact hok y (List.mem_of_mem_drop hy)
    · rw [content_array, List.map_append, List.map_take, List.map_drop]

end containers

/-! ## The operations -/

/-- What a value that an operation changes is, and that nothing else changes. -/
def Mutates (s s' : State I R) (r : Ref I) (f : Json R → Json R) : Prop :=
  ∃ v, r.base = .var v ∧ Updates s s' v r.path f

/-- A write with the heap as it is. -/
theorem write_mutates (hi : Inv s) (hr : r ∈ s.refs) (hread : s.read r = some d)
    (hok : Ok s.heap d')
    (hc : content s.heap d' = f (content s.heap d)) : Mutates s (s.write r d') r f := by
  obtain ⟨v, hv⟩ := hi.refs r hr
  exact ⟨v, hv, write_updates (H := s.heap) hi hv hread List.prefix_rfl hi.ordered hok hc⟩

/-- The function writes, after copies that it may have made. -/
theorem Visited.mutates_grown (hv : Visited s s₁ r v d d') {x : Data R} (hgrown : s₁.heap <+: H)
    (ho : Ordered H) (hok : Ok H x) (hc : Cow.content H x = f (Cow.content s₁.heap d')) :
    Mutates s (State.write r x { s₁ with heap := H }) r f :=
  ⟨v, hv.base, hv.keeps.updates
    (write_updates hv.keeps.inv hv.base hv.reread hgrown ho hok hc) hv.alive⟩

theorem Visited.mutates (hv : Visited s s₁ r v d d') {x : Data R}
    (h : Ok s₁.heap x ∧ Cow.content s₁.heap x = f (Cow.content s₁.heap d')) :
    Mutates s (s₁.write r x) r f := hv.mutates_grown List.prefix_rfl hv.keeps.inv.ordered h.1 h.2

omit [DecidableEq I] in
/-- An operation that changes nothing. -/
theorem Keeps.mutates (h : Keeps s s') (hi : Inv s) (hr : r.base = .var v)
    (hread : s.read r = some d)
    (hf : f (content s.heap d) = content s.heap d) : Mutates s s' r f := by
  refine ⟨v, hr, h.inv, h.grown, ?_, fun b _ hb => h.value b hb⟩
  rw [hi.value_fixed hr hread hf]
  obtain ⟨x, hx, _⟩ := Option.bind_eq_some_iff.mp hread
  rw [hr] at hx
  exact h.value _ (by rw [hx]; nofun)

omit [DecidableEq I] in
theorem Visited.throws (hv : Visited s s₁ r v d d') (hi : Inv s)
    (hf : f (Cow.content s₁.heap d') = Cow.content s₁.heap d') :
    Mutates s s₁ r f := hv.keeps.mutates hi hv.base hv.read (hv.content ▸ hf)

variable [Zero R] {source : Ref I}

theorem copyAssign_mutates (hi : Inv s) (h : copyAssign r source s = some s') :
    Mutates s s' r (effect s (.copyAssign r source)) := by
  obtain ⟨⟨hr, hsome, _⟩, h⟩ := Option.ite_none_right_eq_some.mp h
  obtain ⟨d, hread⟩ := Option.isSome_iff_exists.mp hsome
  obtain ⟨x, hx, h⟩ := Option.map_eq_some_iff.mp h
  obtain ⟨v, hv⟩ := hi.refs r hr
  by_cases hself : r = source
  · rw [if_pos hself] at h
    subst h
    refine Keeps.mutates ⟨hi, List.prefix_rfl, fun _ _ => rfl⟩ hi hv hread ?_
    rw [hself, hx] at hread
    obtain rfl := Option.some.inj hread
    exact source_eq hx
  · rw [if_neg hself] at h
    have hcopy := clone_copy x s.heap hi.ordered (hi.read hx)
    subst h
    exact ⟨v, hv, write_updates hi hv hread hcopy.grown hcopy.ordered hcopy.ok
      (hcopy.content.trans (source_eq hx).symm)⟩

omit [DecidableEq I] [Zero R] in
/-- The reference to a part of what a function of a `cow_visitor` is called with is to the same
variable. -/
theorem child_base (h : d.Direct) (p : Place) : (r.child d p).base = r.base := by
  cases d with
  | stringPtr | objectPtr | arrayPtr => cases h
  | _ => rfl

omit [DecidableEq I] [Zero R] in
theorem Inv.addRef (hi : Inv s) {r' : Ref I} (hr : r'.base = .var v) :
    Inv { s with refs := r' :: s.refs } := by
  refine ⟨hi.ordered, hi.ok, fun r'' hm => ?_⟩
  rcases List.mem_cons.mp hm with rfl | hm
  · exact ⟨v, hr⟩
  · exact hi.refs r'' hm

theorem index_mutates (hi : Inv s) {k : Str} (h : index r k s = some s') :
    Mutates s s' r (effect s (.index r k)) := by
  obtain ⟨s₁, v, d, d', hv, h⟩ := onCow_visited hi h
  cases d' with
  | object fields =>
    obtain rfl := Option.some.inj h
    obtain ⟨hok, hc⟩ := insertKey_spec hv.ok .null k
    have heffect :
        effect s (.index r k) (content s₁.heap (.object fields)) =
          content s₁.heap (.object (insertKey k .null fields)) := by
      rw [hc, content_object]
      rfl
    obtain ⟨w, hw, hup⟩ := hv.mutates ⟨hok, heffect.symm⟩
    exact ⟨w, hw, hup.inv.addRef ((child_base hv.direct _).trans hw), hup.grown, hup.changed,
      hup.value⟩
  | stringPtr | objectPtr | arrayPtr => cases hv.direct
  | _ =>
    obtain rfl := Option.some.inj h
    exact hv.throws hi rfl

theorem getAssign_mutates (hi : Inv s) {x : Json R} (h : getAssign r x s = some s') :
    Mutates s s' r (effect s (.getAssign r x)) := by
  obtain ⟨s₁, v, d, d', hv, h⟩ := onCow_visited hi h
  obtain rfl := Option.some.inj h
  obtain ⟨hok, hc⟩ := ofJson_spec s₁.heap x
  have htag : d'.tag = (ofJson x).tag ↔ tagOf (content s₁.heap d') = tagOf x := by
    rw [tagOf_content hv.direct, tag_ofJson]
  split
  · next ht => exact hv.mutates ⟨hok, hc.trans (if_pos (htag.mp ht)).symm⟩
  · next ht => exact hv.throws hi (if_neg fun he => ht (htag.mpr he))

theorem pushBack_mutates (hi : Inv s) (h : pushBack r source s = some s') :
    Mutates s s' r (effect s (.pushBack r source)) := by
  obtain ⟨⟨_, hsome⟩, h⟩ := Option.ite_none_right_eq_some.mp h
  obtain ⟨x, hx⟩ := Option.isSome_iff_exists.mp hsome
  obtain ⟨s₁, v, d, d', hv, h⟩ := onCow_visited hi h
  obtain ⟨x', hx', h⟩ := Option.map_eq_some_iff.mp h
  have hsource : content s₁.heap x' = s.source source :=
    (hv.keeps.read hi hx hx').trans (source_eq hx).symm
  cases d' with
  | array xs =>
    obtain rfl := h
    have hcopy := clone_copy x' s₁.heap hv.keeps.inv.ordered (hv.keeps.inv.read hx')
    obtain ⟨hok, hc⟩ := append_spec (hv.ok.grown hcopy.grown) hcopy.ok
    refine hv.mutates_grown hcopy.grown hcopy.ordered hok ?_
    have hold := content_grown hv.ok hcopy.grown
    rw [content_array, content_array] at hold
    rw [hc, content_array, Json.array.inj hold, hcopy.content, hsource]
    rfl
  | stringPtr | objectPtr | arrayPtr => cases hv.direct
  | _ =>
    obtain rfl := h
    exact hv.throws hi rfl

theorem pushBackChar_mutates (hi : Inv s) {ch : Char} (h : pushBackChar r ch s = some s') :
    Mutates s s' r (effect s (.pushBackChar r ch)) := by
  obtain ⟨s₁, v, d, d', hv, h⟩ := onCow_visited hi h
  cases d' with
  | string t =>
    obtain rfl := Option.some.inj h
    exact hv.mutates ⟨.string _, rfl⟩
  | stringPtr | objectPtr | arrayPtr => cases hv.direct
  | _ =>
    obtain rfl := Option.some.inj h
    exact hv.throws hi rfl

theorem insert_mutates (hi : Inv s) {k : Str} (h : insert r k source s = some s') :
    Mutates s s' r (effect s (.insert r k source)) := by
  obtain ⟨_, h⟩ := Option.ite_none_right_eq_some.mp h
  obtain ⟨x, hx, h⟩ := Option.bind_eq_some_iff.mp h
  have hcopy := clone_copy x s.heap hi.ordered (hi.read hx)
  have hkeeps : Keeps s { s with heap := (clone s.heap x).1 } := hi.grow hcopy.grown hcopy.ordered
  obtain ⟨s₁, v, d, d', hv, h⟩ := onCow_visited hkeeps.inv h
  suffices hm :
      Mutates { s with heap := (clone s.heap x).1 } s' r (effect s (.insert r k source)) by
    obtain ⟨w, hw, hup⟩ := hm
    obtain rfl : v = w := Base.var.inj (hv.base.symm.trans hw)
    exact ⟨v, hw, hkeeps.updates hup hv.alive⟩
  cases d' with
  | object fields =>
    obtain rfl := Option.some.inj h
    obtain ⟨hok, hc⟩ := insertKey_spec hv.ok (hcopy.ok.grown hv.keeps.grown) k
    refine hv.mutates ⟨hok, ?_⟩
    rw [hc, content_object, content_grown hcopy.ok hv.keeps.grown, hcopy.content, ← source_eq hx]
    rfl
  | stringPtr | objectPtr | arrayPtr => cases hv.direct
  | _ =>
    obtain rfl := Option.some.inj h
    exact hv.throws hkeeps.inv rfl

theorem erase_mutates (hi : Inv s) {pos count : Nat} (h : erase r pos count s = some s') :
    Mutates s s' r (effect s (.erase r pos count)) := by
  obtain ⟨s₁, v, d, d', hv, h⟩ := onCow_visited hi h
  cases d' with
  | array xs =>
    obtain ⟨_, h⟩ := Option.ite_none_right_eq_some.mp h
    obtain rfl := Option.some.inj h
    obtain ⟨hok, hc⟩ := erase_spec hv.ok pos count
    refine hv.mutates ⟨hok, ?_⟩
    rw [hc, content_array]
    rfl
  | string t =>
    obtain rfl := Option.some.inj h
    split
    · next hpos => exact hv.mutates ⟨.string _, (if_pos hpos).symm⟩
    · next hpos => exact hv.throws hi (if_neg hpos)
  | stringPtr | objectPtr | arrayPtr => cases hv.direct
  | _ =>
    obtain rfl := Option.some.inj h
    exact hv.throws hi rfl

theorem eraseMember_mutates (hi : Inv s) {k : Str} (h : eraseMember r k s = some s') :
    Mutates s s' r (effect s (.eraseMember r k)) := by
  obtain ⟨s₁, v, d, d', hv, h⟩ := onCow_visited hi h
  cases d' with
  | object fields =>
    obtain rfl := Option.some.inj h
    obtain ⟨hok, hc⟩ := eraseKey_spec hv.ok k
    refine hv.mutates ⟨hok, ?_⟩
    rw [hc, content_object]
    rfl
  | stringPtr | objectPtr | arrayPtr => cases hv.direct
  | _ => cases h

theorem clear_mutates (hi : Inv s) (h : clear r s = some s') :
    Mutates s s' r (effect s (.clear r)) := by
  obtain ⟨hr, h⟩ := Option.ite_none_right_eq_some.mp h
  obtain ⟨d, hread, rfl⟩ := Option.map_eq_some_iff.mp h
  obtain ⟨_, hc, hdirect, _⟩ := deref_spec hi.ordered (hi.read hread)
  obtain ⟨hok, hcc⟩ := content_cleared (H := s.heap) hdirect
  exact write_mutates hi hr hread hok (hcc.trans (congrArg cleared hc))

theorem assign_mutates (hi : Inv s) {x : Json R} (h : assign r x s = some s') :
    Mutates s s' r (effect s (.assign r x)) := by
  obtain ⟨⟨hr, hsome⟩, h⟩ := Option.ite_none_right_eq_some.mp h
  obtain ⟨d, hread⟩ := Option.isSome_iff_exists.mp hsome
  obtain rfl := Option.some.inj h
  obtain ⟨hok, hc⟩ := ofJson_spec s.heap x
  exact write_mutates hi hr hread hok hc

/-- An operation changes the content of its value, as it is meant to, and no other. -/
theorem step_mutates (hi : Inv s) {a : Act I R} (h : step s a = some s') (ht : target a = some r) :
    Mutates s s' r (effect s a) := by
  cases a with
  | construct | copyConstruct | atPlace | constAtPlace | get => cases ht
  | copyAssign r source => obtain rfl := Option.some.inj ht; exact copyAssign_mutates hi h
  | assign r x => obtain rfl := Option.some.inj ht; exact assign_mutates hi h
  | index r k => obtain rfl := Option.some.inj ht; exact index_mutates hi h
  | getAssign r x => obtain rfl := Option.some.inj ht; exact getAssign_mutates hi h
  | pushBack r source => obtain rfl := Option.some.inj ht; exact pushBack_mutates hi h
  | pushBackChar r ch => obtain rfl := Option.some.inj ht; exact pushBackChar_mutates hi h
  | insert r k source => obtain rfl := Option.some.inj ht; exact insert_mutates hi h
  | erase r pos count => obtain rfl := Option.some.inj ht; exact erase_mutates hi h
  | eraseMember r k => obtain rfl := Option.some.inj ht; exact eraseMember_mutates hi h
  | clear r => obtain rfl := Option.some.inj ht; exact clear_mutates hi h

omit [Zero R] in
/-- A new variable. -/
theorem create_keeps (hi : Inv s) (hnew : s.vars v = none) (hgrown : s.heap <+: H) (ho : Ordered H)
    (hok : Ok H d) :
    Keeps s (State.create v d { s with heap := H }) := by
  have hne : ∀ {w x}, s.vars w = some x → w ≠ v := fun h he => by
    rw [he, hnew] at h
    cases h
  refine ⟨⟨ho, fun w x hx => ?_, fun r hr => ?_⟩, hgrown,
    fun b hb => hi.value_grown hgrown hb fun w hw => ?_⟩
  · change Function.update s.vars v (some d) w = some x at hx
    by_cases hw : w = v
    · rw [hw, Function.update_self] at hx
      obtain rfl := Option.some.inj hx
      exact hok
    · rw [Function.update_of_ne hw] at hx
      exact (hi.ok w x hx).grown hgrown
  · rcases List.mem_cons.mp hr with rfl | hr
    · exact ⟨v, rfl⟩
    · exact hi.refs r hr
  · subst hw
    obtain ⟨x, hx⟩ := Option.ne_none_iff_exists'.mp hb
    exact Function.update_of_ne (hne hx) _ _

/-- The other operations change no content. -/
theorem step_keeps (hi : Inv s) {a : Act I R} (h : step s a = some s') (ht : target a = none) :
    Keeps s s' := by
  cases a with
  | copyAssign | assign | index | getAssign | pushBack | pushBackChar | insert | erase |
    eraseMember | clear => cases ht
  | construct v x =>
    obtain ⟨hnew, h⟩ := Option.ite_none_right_eq_some.mp h
    obtain rfl := Option.some.inj h
    exact create_keeps hi (Option.isNone_iff_eq_none.mp hnew) List.prefix_rfl hi.ordered
      (ofJson_spec s.heap x).1
  | copyConstruct v source =>
    obtain ⟨⟨_, hnew⟩, h⟩ := Option.ite_none_right_eq_some.mp h
    obtain ⟨d, hread, rfl⟩ := Option.map_eq_some_iff.mp h
    have hcopy := clone_copy d s.heap hi.ordered (hi.read hread)
    exact create_keeps hi (Option.isNone_iff_eq_none.mp hnew) hcopy.grown hcopy.ordered hcopy.ok
  | atPlace r p =>
    change atPlace r p s = some s' at h
    obtain ⟨s₁, v, d, d', hv, h⟩ := onCow_visited hi h
    obtain rfl := Option.some.inj h
    split
    · exact ⟨hv.keeps.inv.addRef ((child_base hv.direct p).trans hv.base), hv.keeps.grown,
        hv.keeps.value⟩
    · exact hv.keeps
  | constAtPlace r p =>
    obtain ⟨_, h⟩ := Option.ite_none_right_eq_some.mp h
    obtain ⟨d, _, rfl⟩ := Option.map_eq_some_iff.mp h
    split
    · exact ⟨⟨hi.ordered, hi.ok, hi.refs⟩, List.prefix_rfl, fun _ _ => rfl⟩
    · exact ⟨hi, List.prefix_rfl, fun _ _ => rfl⟩
  | get r =>
    change get r s = some s' at h
    obtain ⟨s₁, v, d, d', hv, h⟩ := onCow_visited hi h
    obtain rfl := Option.some.inj h
    exact hv.keeps

theorem step_inv (hi : Inv s) {a : Act I R} (h : step s a = some s') : Inv s' := by
  cases ht : target a with
  | none => exact (step_keeps hi h ht).inv
  | some r =>
    obtain ⟨_, _, hup⟩ := step_mutates hi h ht
    exact hup.inv

/-! ## Along runs -/

/-- The value at a place of `b` is neither the one at `r` nor a part of it nor around it. -/
def Ref.Outside (r : Ref I) (b : Base I) (path : List Place) : Prop :=
  r.base = b → ¬ r.path <+: path ∧ ¬ path <+: r.path

omit [DecidableEq I] [Zero R] in
theorem Mutates.outside (h : Mutates s s' r f) {b : Base I} (hb : s.root b ≠ none)
    (ho : r.Outside b path) :
    s'.contentAt b path = s.contentAt b path := by
  obtain ⟨v, hv, hup⟩ := h
  unfold State.contentAt
  by_cases hbv : b = .var v
  · obtain ⟨hin, haround⟩ := ho (hv.trans hbv.symm)
    rw [hbv, hup.changed, Option.bind_map]
    exact Option.bind_congr fun j _ => findIn_modifyIn hin haround
  · rw [hup.value b hbv hb]

/-- What two references are to is compared by `operator==`, with the pointers of the heap `H`. -/
def EqualData [BEq R] (H : Heap R) (d d' : Data R) (b : Bool) : Prop :=
  ∃ n, ∀ fuel, n ≤ fuel → equal fuel H d d' = some b

omit [DecidableEq I] [Zero R] in
theorem equalData_content [BEq R] (ho : Ordered H) (hd : Ok H d) (hd' : Ok H d') :
    EqualData H d d' (equalJson (content H d) (content H d')) :=
  ⟨sizeOf (content H d) + 1, fun _ hfuel => equal_content ho hd hd' hfuel⟩

/-- Where an operation puts a copy of which value. -/
def copied : Act I R → Option (Ref I × Ref I)
  | .copyConstruct v source => some (⟨.var v, []⟩, source)
  | .copyAssign r source => some (r, source)
  | _ => none

/-- Value semantics in `s`: `outside` and `changed` say what an operation does to the contents,
`copies` compares a copy with what its source was, `equality` is `operator==` on any two values. -/
structure ValueSemantics [BEq R] (s : State I R) : Prop where
  outside : ∀ a s', step s a = some s' → ∀ b path, s.root b ≠ none →
    (∀ r, target a = some r → r.Outside b path) →
    s'.contentAt b path = s.contentAt b path
  changed : ∀ a s' r, step s a = some s' → target a = some r →
    ∃ v, r.base = .var v ∧ s'.value r.base = (s.value r.base).map (modifyIn (effect s a) r.path)
  copies : ∀ a s' r source, step s a = some s' → copied a = some (r, source) →
    ∃ d d', s.read source = some d ∧ s'.read r = some d' ∧ content s'.heap d' = content s.heap d ∧
      EqualData s'.heap d' d true
  equality : ∀ r r' d d', s.read r = some d → s.read r' = some d' →
    EqualData s.heap d d' (equalJson (content s.heap d) (content s.heap d'))

omit [Zero R] in
theorem read_create (s : State I R) : (State.create v d s).read ⟨.var v, []⟩ = some d := by
  show (Function.update s.vars v (some d) v).bind (Data.find []) = some d
  rw [Function.update_self]
  rfl

/-- The copy that an operation has made, in the heap that it leaves. -/
theorem copy_made (hi : Inv s) {a : Act I R} (h : step s a = some s')
    (hc : copied a = some (r, source)) :
    ∃ d d', s.read source = some d ∧ s'.read r = some d' ∧ IsCopy s.heap s'.heap d d' := by
  cases a with
  | copyConstruct v source' =>
    obtain ⟨rfl, rfl⟩ := Prod.mk.inj (Option.some.inj hc)
    obtain ⟨_, h⟩ := Option.ite_none_right_eq_some.mp h
    obtain ⟨d, hread, rfl⟩ := Option.map_eq_some_iff.mp h
    exact ⟨d, _, hread, read_create _, clone_copy d s.heap hi.ordered (hi.read hread)⟩
  | copyAssign r' source' =>
    obtain ⟨rfl, rfl⟩ := Prod.mk.inj (Option.some.inj hc)
    obtain ⟨⟨hr, hsome, _⟩, h⟩ := Option.ite_none_right_eq_some.mp h
    obtain ⟨d₀, hread⟩ := Option.isSome_iff_exists.mp hsome
    obtain ⟨d, hd, h⟩ := Option.map_eq_some_iff.mp h
    obtain ⟨v, hv⟩ := hi.refs r' hr
    by_cases hself : r' = source'
    · rw [if_pos hself] at h
      subst h
      exact ⟨d, d, hd, hself ▸ hd, .refl hi.ordered (hi.read hd)⟩
    · rw [if_neg hself] at h
      subst h
      have hheap :
          (State.write r' (clone s.heap d).2 { s with heap := (clone s.heap d).1 }).heap =
            (clone s.heap d).1 := by
        rw [State.write, hv]
      refine ⟨d, _, hd, read_write hv hread, ?_⟩
      rw [hheap]
      exact clone_copy d s.heap hi.ordered (hi.read hd)
  | _ => cases hc

theorem Inv.valueSemantics [BEq R] [ReflBEq R] (hi : Inv s) : ValueSemantics s := by
  refine ⟨fun a s' h b path hb ho => ?_, fun a s' r h ht => ?_, fun a s' r source h hc => ?_,
    fun r r' d d' hd hd' => ?_⟩
  · cases ht : target a with
    | none => exact congrArg (·.bind (findIn path)) ((step_keeps hi h ht).value b hb)
    | some r => exact (step_mutates hi h ht).outside hb (ho r ht)
  · obtain ⟨v, hv, hup⟩ := step_mutates hi h ht
    exact ⟨v, hv, hv ▸ hup.changed⟩
  · obtain ⟨d, d', hd, hd', hcopy⟩ := copy_made hi h hc
    have hok := (hi.read hd).grown hcopy.grown
    have hsame : content s'.heap d' = content s'.heap d :=
      hcopy.content.trans (content_grown (hi.read hd) hcopy.grown).symm
    refine ⟨d, d', hd, hd', hcopy.content, ?_⟩
    have heq := equalData_content hcopy.ordered hcopy.ok hok
    rwa [hsame, equalJson_self] at heq
  · exact equalData_content hi.ordered (hi.read hd) (hi.read hd')

/-- Any number of variables and references, any nesting: an operation changes the content of its
value and of no value outside it, a copy is equal to its source, and equality sees contents only. -/
theorem value_semantics_along_runs [BEq R] [ReflBEq R] {as : List (Act I R)}
    (h : Run Step .initial as s) : ValueSemantics s :=
  Inv.valueSemantics (h.invariant (I := Inv) Inv.initial fun _ _ _ hi hs => step_inv hi hs)

/-- An array, a copy of it, and a change of an element of the copy. -/
theorem value_semantics_of_copy : ∃ s : State Bool Int,
    Run Step .initial [.construct false (.array [.integer 1, .array []]),
      .copyConstruct true ⟨.var false, []⟩,
      .atPlace ⟨.var true, []⟩ (.index 0), .assign ⟨.var true, [.index 0]⟩ .null] s ∧
        ValueSemantics s := by
  have h₁ :
      Run Step (.initial : State Bool Int) [.construct false (.array [.integer 1, .array []])] _ :=
    .single (show step _ _ = some _ from rfl)
  have h₂ := h₁.snoc (show step _ (.copyConstruct true ⟨.var false, []⟩) = some _ from rfl)
  have h₃ := h₂.snoc (show step _ (.atPlace ⟨.var true, []⟩ (.index 0)) = some _ from rfl)
  have h₄ := h₃.snoc (show step _ (.assign ⟨.var true, [.index 0]⟩ .null) = some _ from rfl)
  exact ⟨_, h₄, value_semantics_along_runs h₄⟩

end states

end Gpcl.Cow
