import Gpcl.Json.Cow

/-! # The content of copied values

`content`: the JSON value that a `data_type` stands for, whether its parts are held directly or
through pointers. The contents of the cells are computed in the order of their allocation, and a
cell that is there never changes: copies extend the heap and keep all contents. -/
namespace Gpcl.Cow

variable {R I : Type}

mutual

/-- The content, from those of the cells. -/
def contentOf (t : List (Json R)) : Data R → Json R
  | .null => .null
  | .boolean b => .boolean b
  | .integer i => .integer i
  | .real r => .real r
  | .string s => .string s
  | .object fields => .object (contentFields t fields)
  | .array xs => .array (contentList t xs)
  | .stringPtr p => t.getD p .null
  | .objectPtr p => t.getD p .null
  | .arrayPtr p => t.getD p .null

def contentList (t : List (Json R)) : List (Data R) → List (Json R)
  | [] => []
  | x :: xs => contentOf t x :: contentList t xs

def contentFields (t : List (Json R)) : List (Str × Data R) → List (Str × Json R)
  | [] => []
  | (k, x) :: fields => (k, contentOf t x) :: contentFields t fields

end

def table (H : Heap R) : List (Json R) := H.foldl (fun t d => t ++ [contentOf t d]) []

def content (H : Heap R) (d : Data R) : Json R := contentOf (table H) d

/-- The pointers are to cells of their type. -/
inductive Ok (H : Heap R) : Data R → Prop
  | null : Ok H .null
  | boolean (b : Bool) : Ok H (.boolean b)
  | integer (i : Int) : Ok H (.integer i)
  | real (r : R) : Ok H (.real r)
  | string (s : Str) : Ok H (.string s)
  | stringPtr {p : Nat} {s : Str} : H[p]? = some (.string s) → Ok H (.stringPtr p)
  | object {fields : List (Str × Data R)} : (∀ f ∈ fields, Ok H f.2) → Ok H (.object fields)
  | objectPtr {p : Nat} {fields : List (Str × Data R)} : H[p]? = some (.object fields) →
    Ok H (.objectPtr p)
  | array {xs : List (Data R)} : (∀ x ∈ xs, Ok H x) → Ok H (.array xs)
  | arrayPtr {p : Nat} {xs : List (Data R)} : H[p]? = some (.array xs) → Ok H (.arrayPtr p)

/-- Every cell has pointers to earlier ones only. -/
inductive Ordered : Heap R → Prop
  | nil : Ordered []
  | concat {H : Heap R} {d : Data R} : Ordered H → Ok H d → Ordered (H ++ [d])

section data
variable {H : Heap R} {d : Data R} {t : List (Json R)}

/-- Induction over data: an array from its elements, an object from its members. -/
@[elab_as_elim]
theorem Data.rec_members {P : Data R → Prop} (null : P null) (boolean : ∀ b, P (boolean b))
    (integer : ∀ i, P (integer i)) (real : ∀ r, P (real r)) (string : ∀ s, P (string s))
    (stringPtr : ∀ p, P (stringPtr p))
    (object : ∀ fields, (∀ f ∈ fields, P f.2) → P (object fields))
    (objectPtr : ∀ p, P (objectPtr p)) (array : ∀ xs, (∀ x ∈ xs, P x) → P (array xs))
    (arrayPtr : ∀ p, P (arrayPtr p)) (d : Data R) :
    P d :=
  @Data.rec R P (fun fields => ∀ f ∈ fields, P f.2) (fun xs => ∀ x ∈ xs, P x)
    (fun f => P f.2) null boolean integer real string
    stringPtr object objectPtr array arrayPtr nofun
    (fun _ _ hf hfs _ hm => (List.mem_cons.mp hm).elim (fun h => h ▸ hf) (hfs _)) nofun
    (fun _ _ hx hxs _ hm => (List.mem_cons.mp hm).elim (fun h => h ▸ hx) (hxs _)) (fun _ _ h => h) d

theorem contentList_eq_map (xs : List (Data R)) : contentList t xs = xs.map (contentOf t) := by
  induction xs with
  | nil => rfl
  | cons x xs ih => rw [contentList, ih, List.map_cons]

theorem contentFields_eq_map (fields : List (Str × Data R)) :
    contentFields t fields = fields.map (Prod.map id (contentOf t)) := by
  induction fields with
  | nil => rfl
  | cons f fields ih => rw [contentFields, ih, List.map_cons]; rfl

theorem content_array (xs : List (Data R)) : content H (.array xs) = .array (xs.map (content H)) :=
  congrArg Json.array (contentList_eq_map xs)

theorem content_object (fields : List (Str × Data R)) :
    content H (.object fields) = .object (fields.map (Prod.map id (content H))) :=
  congrArg Json.object (contentFields_eq_map fields)

theorem table_concat (H : Heap R) (d : Data R) : table (H ++ [d]) = table H ++ [content H d] := by
  unfold table content
  rw [List.foldl_append]
  rfl

theorem table_append (H new : Heap R) : ∃ ts, table (H ++ new) = table H ++ ts := by
  induction new using List.reverseRecOn with
  | nil => exact ⟨[], by simp⟩
  | append_singleton new d ih =>
    obtain ⟨ts, hts⟩ := ih
    rw [← List.append_assoc, table_concat, hts]
    exact ⟨ts ++ [content (H ++ new) d], List.append_assoc _ _ _⟩

theorem table_length (H : Heap R) : (table H).length = H.length := by
  induction H using List.reverseRecOn with
  | nil => rfl
  | append_singleton H d ih => rw [table_concat, List.length_append, List.length_append, ih]; rfl

theorem Ok.mono (h : Ok H d) (new : Heap R) : Ok (H ++ new) d := by
  have hcell : ∀ {p c}, H[p]? = some c → (H ++ new)[p]? = some c := fun {p c} hp => by
    rw [List.getElem?_append_left (List.getElem?_eq_some_iff.mp hp).1, hp]
  induction h with
  | null => exact .null
  | boolean b => exact .boolean b
  | integer i => exact .integer i
  | real r => exact .real r
  | string s => exact .string s
  | stringPtr hp => exact .stringPtr (hcell hp)
  | object _ ih => exact .object ih
  | objectPtr hp => exact .objectPtr (hcell hp)
  | array _ ih => exact .array ih
  | arrayPtr hp => exact .arrayPtr (hcell hp)

/-- New cells do not matter. -/
theorem content_append (h : Ok H d) (new : Heap R) : content (H ++ new) d = content H d := by
  obtain ⟨ts, hts⟩ := table_append H new
  have hcell : ∀ {p c}, H[p]? = some c → (table (H ++ new)).getD p .null = (table H).getD p .null :=
      fun {p c} hp => by
    have hlt : p < (table H).length := by
      rw [table_length]; exact (List.getElem?_eq_some_iff.mp hp).1
    rw [hts, List.getD_eq_getElem?_getD, List.getD_eq_getElem?_getD, List.getElem?_append_left hlt]
  induction h with
  | null | boolean | integer | real | string => rfl
  | stringPtr hp => exact hcell hp
  | objectPtr hp => exact hcell hp
  | arrayPtr hp => exact hcell hp
  | object _ ih =>
    rw [content_object, content_object]
    exact congrArg Json.object (List.map_congr_left fun f hf => Prod.ext rfl (ih f hf))
  | array _ ih =>
    rw [content_array, content_array]
    exact congrArg Json.array (List.map_congr_left ih)

variable {H' : Heap R} {p : Nat}

theorem Ok.grown (h : Ok H d) (hp : H <+: H') : Ok H' d := by
  obtain ⟨new, rfl⟩ := hp
  exact h.mono new

theorem content_grown (h : Ok H d) (hp : H <+: H') : content H' d = content H d := by
  obtain ⟨new, rfl⟩ := hp
  exact content_append h new

/-- What a cell holds, and what its pointers stand for. -/
theorem Ordered.cell (h : Ordered H) (hp : H[p]? = some d) :
    Ok H d ∧ (table H).getD p .null = content H d := by
  induction h with
  | nil => cases hp
  | @concat H c h hc ih =>
    by_cases hlt : p < H.length
    · rw [List.getElem?_append_left hlt] at hp
      obtain ⟨hok, hcell⟩ := ih hp
      have hlt' : p < (table H).length := by rw [table_length]; exact hlt
      refine ⟨hok.mono _, ?_⟩
      rw [content_append hok, ← hcell, table_concat, List.getD_eq_getElem?_getD,
        List.getElem?_append_left hlt', List.getD_eq_getElem?_getD]
    · obtain rfl : p = H.length := by
        have := (List.getElem?_eq_some_iff.mp hp).1
        rw [List.length_append, List.length_singleton] at this
        omega
      obtain rfl : c = d := by simpa using hp
      refine ⟨hc.mono _, ?_⟩
      rw [content_append hc, table_concat, ← table_length H, List.getD_eq_getElem?_getD,
        List.getElem?_concat_length]
      rfl

theorem ofJsonList_eq_map (js : List (Json R)) : ofJsonList js = js.map ofJson := by
  induction js with
  | nil => rfl
  | cons j js ih => rw [ofJsonList, ih, List.map_cons]

theorem ofJsonFields_eq_map (fields : List (Str × Json R)) :
    ofJsonFields fields = fields.map (Prod.map id ofJson) := by
  induction fields with
  | nil => rfl
  | cons f fields ih => rw [ofJsonFields, ih, List.map_cons]; rfl

/-- A value that has been built has no pointers and the content it was built for. -/
theorem ofJson_spec (H : Heap R) (j : Json R) : Ok H (ofJson j) ∧ content H (ofJson j) = j := by
  induction j using Json.rec_members with
  | null => exact ⟨.null, rfl⟩
  | boolean b => exact ⟨.boolean b, rfl⟩
  | integer i => exact ⟨.integer i, rfl⟩
  | real r => exact ⟨.real r, rfl⟩
  | string s => exact ⟨.string s, rfl⟩
  | array js ih =>
    rw [ofJson, ofJsonList_eq_map]
    refine ⟨.array fun x hx => ?_, ?_⟩
    · obtain ⟨j, hj, rfl⟩ := List.mem_map.mp hx
      exact (ih j hj).1
    · have hmap : js.map (content H ∘ ofJson) = js.map id :=
        List.map_congr_left fun j hj => (ih j hj).2
      rw [content_array, List.map_map, hmap, List.map_id]
  | object fields ih =>
    rw [ofJson, ofJsonFields_eq_map]
    refine ⟨.object fun f hf => ?_, ?_⟩
    · obtain ⟨g, hg, rfl⟩ := List.mem_map.mp hf
      exact (ih g hg).1
    · have hmap : fields.map (Prod.map id (content H) ∘ Prod.map id ofJson) = fields.map id :=
        List.map_congr_left fun g hg => Prod.ext rfl (ih g hg).2
      rw [content_object, List.map_map, hmap, List.map_id]

/-! ## Copies -/

/-- `x'` in `H'` is a copy of `x` in `H`; the heap has only grown. -/
structure IsCopy (H H' : Heap R) (x x' : Data R) : Prop where
  grown : H <+: H'
  ordered : Ordered H'
  ok : Ok H' x'
  content : content H' x' = content H x

/-- The same for the elements of an array. -/
structure AreCopies (H H' : Heap R) (xs xs' : List (Data R)) : Prop where
  grown : H <+: H'
  ordered : Ordered H'
  ok : ∀ x ∈ xs', Ok H' x
  content : xs'.map (content H') = xs.map (content H)

theorem IsCopy.refl (ho : Ordered H) (hd : Ok H d) : IsCopy H H d d :=
  ⟨List.prefix_rfl, ho, hd, rfl⟩

theorem cloneList_copies {xs : List (Data R)}
    (ih : ∀ x ∈ xs, ∀ H, Ordered H → Ok H x → IsCopy H (clone H x).1 x (clone H x).2)
    (ho : Ordered H) (hok : ∀ x ∈ xs, Ok H x) :
    AreCopies H (cloneList H xs).1 xs (cloneList H xs).2 := by
  induction xs generalizing H with
  | nil => exact ⟨List.prefix_rfl, ho, nofun, rfl⟩
  | cons x xs ihxs =>
    have hx := ih x List.mem_cons_self H ho (hok x List.mem_cons_self)
    have hxs := ihxs (fun y hy => ih y (List.mem_cons_of_mem _ hy)) hx.ordered fun y hy =>
      (hok y (List.mem_cons_of_mem _ hy)).grown hx.grown
    rw [cloneList]
    refine ⟨hx.grown.trans hxs.grown, hxs.ordered, fun y hy => ?_, ?_⟩
    · rcases List.mem_cons.mp hy with rfl | hy
      · exact hx.ok.grown hxs.grown
      · exact hxs.ok y hy
    · rw [List.map_cons, List.map_cons, content_grown hx.ok hxs.grown, hx.content, hxs.content]
      refine congrArg _ (List.map_congr_left fun y hy => ?_)
      exact content_grown (hok y (List.mem_cons_of_mem _ hy)) hx.grown

/-- A map is copied like the array of its values. -/
theorem cloneFields_eq (H : Heap R) (fields : List (Str × Data R)) :
    (cloneFields H fields).1 = (cloneList H (fields.map Prod.snd)).1 ∧
    (cloneFields H fields).2.map Prod.fst = fields.map Prod.fst ∧
      (cloneFields H fields).2.map Prod.snd = (cloneList H (fields.map Prod.snd)).2 := by
  induction fields generalizing H with
  | nil => exact ⟨rfl, rfl, rfl⟩
  | cons f fields ih =>
    obtain ⟨k, x⟩ := f
    obtain ⟨hheap, hkeys, hvalues⟩ := ih (clone H x).1
    rw [cloneFields, List.map_cons, cloneList]
    exact ⟨hheap, congrArg (k :: ·) hkeys, congrArg ((clone H x).2 :: ·) hvalues⟩

theorem map_members {V W : Type} (f : V → W) (fields : List (Str × V)) :
    fields.map (Prod.map id f) = (fields.map Prod.fst).zip ((fields.map Prod.snd).map f) := by
  induction fields with
  | nil => rfl
  | cons e fields ih => rw [List.map_cons, ih]; rfl

theorem ok_object {fields : List (Str × Data R)} (h : ∀ x ∈ fields.map Prod.snd, Ok H x) :
    Ok H (.object fields) :=
  .object fun f hf => h f.2 (List.mem_map_of_mem hf)

/-- The copy constructors of `array_type` and `object_type`, from that of their values. -/
theorem array_copy {xs : List (Data R)}
    (ih : ∀ x ∈ xs, ∀ H, Ordered H → Ok H x → IsCopy H (clone H x).1 x (clone H x).2)
    (ho : Ordered H) (hd : Ok H (.array xs)) :
    IsCopy H (cloneList H xs).1 (.array xs) (.array (cloneList H xs).2) := by
  cases hd with
  | array hok =>
    have hc := cloneList_copies ih ho hok
    refine ⟨hc.grown, hc.ordered, .array hc.ok, ?_⟩
    rw [content_array, content_array, hc.content]

theorem object_copy {fields : List (Str × Data R)}
    (ih : ∀ f ∈ fields, ∀ H, Ordered H → Ok H f.2 → IsCopy H (clone H f.2).1 f.2 (clone H f.2).2)
    (ho : Ordered H) (hd : Ok H (.object fields)) :
    IsCopy H (cloneFields H fields).1 (.object fields) (.object (cloneFields H fields).2) := by
  cases hd with
  | object hok =>
    obtain ⟨hheap, hkeys, hvalues⟩ := cloneFields_eq H fields
    have hc :
        AreCopies H (cloneList H (fields.map Prod.snd)).1 (fields.map Prod.snd)
          (cloneList H (fields.map Prod.snd)).2 := by
      refine cloneList_copies (fun x hx => ?_) ho fun x hx => ?_
      · obtain ⟨f, hf, rfl⟩ := List.mem_map.mp hx
        exact ih f hf
      · obtain ⟨f, hf, rfl⟩ := List.mem_map.mp hx
        exact hok f hf
    rw [← hheap, ← hvalues] at hc
    refine ⟨hc.grown, hc.ordered, ok_object hc.ok, ?_⟩
    rw [content_object, content_object, map_members, map_members, hkeys, hc.content]

/-- A copy goes into a new cell. -/
theorem IsCopy.cell {x x' : Data R} (h : IsCopy H H' x x') {ptr : Nat → Data R}
    (hok : Ok (H' ++ [x']) (ptr H'.length))
    (hptr : ∀ t : List (Json R), contentOf t (ptr H'.length) = t.getD H'.length .null) :
    IsCopy H (H' ++ [x']) x (ptr H'.length) := by
  have ho : Ordered (H' ++ [x']) := h.ordered.concat h.ok
  have hcell := (ho.cell (List.getElem?_concat_length)).2
  refine ⟨h.grown.trans (List.prefix_append _ _), ho, hok, ?_⟩
  rw [Cow.content, hptr, hcell, content_append h.ok, h.content]

theorem clone_copy (d : Data R) :
    ∀ H, Ordered H → Ok H d → IsCopy H (clone H d).1 d (clone H d).2 := by
  induction d using Data.rec_members with
  | null | boolean | integer | real | stringPtr | objectPtr | arrayPtr =>
    exact fun H ho hd => .refl ho hd
  | string s =>
    exact fun H ho hd => (IsCopy.refl ho hd).cell (.stringPtr List.getElem?_concat_length)
      fun _ => rfl
  | object fields ih =>
    intro H ho hd
    exact (object_copy ih ho hd).cell (.objectPtr List.getElem?_concat_length) fun _ => rfl
  | array xs ih =>
    intro H ho hd
    exact (array_copy ih ho hd).cell (.arrayPtr List.getElem?_concat_length) fun _ => rfl

theorem copyDirect_copy (ho : Ordered H) (hd : Ok H d) :
    IsCopy H (copyDirect H d).1 d (copyDirect H d).2 := by
  cases d with
  | array xs => exact array_copy (fun x _ => clone_copy x) ho hd
  | object fields => exact object_copy (fun f _ => clone_copy f.2) ho hd
  | _ => exact .refl ho hd

/-! ## The visitors -/

/-- Not a pointer. -/
def Data.Direct : Data R → Prop
  | .stringPtr _ | .objectPtr _ | .arrayPtr _ => False
  | _ => True

/-- The dereferenced data is as good as the data. -/
theorem deref_spec (ho : Ordered H) (hd : Ok H d) :
    Ok H (deref H d) ∧ content H (deref H d) = content H d ∧ (deref H d).Direct ∧
    (deref H d).tag = d.tag := by
  have hcell : ∀ {p c}, H[p]? = some c → H.getD p .null = c :=
    fun {p c} hp => by rw [List.getD_eq_getElem?_getD, hp]; rfl
  cases hd with
  | stringPtr hp =>
    obtain ⟨hok, hc⟩ := ho.cell hp
    rw [deref, hcell hp]
    exact ⟨hok, hc.symm, trivial, rfl⟩
  | objectPtr hp =>
    obtain ⟨hok, hc⟩ := ho.cell hp
    rw [deref, hcell hp]
    exact ⟨hok, hc.symm, trivial, rfl⟩
  | arrayPtr hp =>
    obtain ⟨hok, hc⟩ := ho.cell hp
    rw [deref, hcell hp]
    exact ⟨hok, hc.symm, trivial, rfl⟩
  | null => exact ⟨.null, rfl, trivial, rfl⟩
  | boolean b => exact ⟨.boolean b, rfl, trivial, rfl⟩
  | integer i => exact ⟨.integer i, rfl, trivial, rfl⟩
  | real r => exact ⟨.real r, rfl, trivial, rfl⟩
  | string s => exact ⟨.string s, rfl, trivial, rfl⟩
  | object h => exact ⟨.object h, rfl, trivial, rfl⟩
  | array h => exact ⟨.array h, rfl, trivial, rfl⟩

theorem copyDirect_direct (H : Heap R) (h : d.Direct) :
    (copyDirect H d).2.Direct ∧ (copyDirect H d).2.tag = d.tag := by
  cases d with
  | stringPtr | objectPtr | arrayPtr => cases h
  | _ => exact ⟨trivial, rfl⟩

/-- `cow_visitor` calls its function with data held directly that has the same content. -/
theorem cow_copy (ho : Ordered H) (hd : Ok H d) :
    IsCopy H (cow H d).1 d (cow H d).2 ∧ (cow H d).2.Direct ∧ (cow H d).2.tag = d.tag := by
  obtain ⟨hok, hcontent, hdirect, htag⟩ := deref_spec ho hd
  have hcopy := copyDirect_copy ho hok
  have hpointer : IsCopy H (copyDirect H (deref H d)).1 d (copyDirect H (deref H d)).2 ∧
    (copyDirect H (deref H d)).2.Direct ∧
      (copyDirect H (deref H d)).2.tag = d.tag :=
    ⟨⟨hcopy.grown, hcopy.ordered, hcopy.ok, hcopy.content.trans hcontent⟩,
      (copyDirect_direct H hdirect).1,
      (copyDirect_direct H hdirect).2.trans htag⟩
  cases d with
  | stringPtr | objectPtr | arrayPtr => exact hpointer
  | _ => exact ⟨.refl ho hd, trivial, rfl⟩

end data

/-! ## Equality -/

mutual

/-- Equality of contents. -/
def equalJson [BEq R] : Json R → Json R → Bool
  | .null, .null => true
  | .boolean b, .boolean c => b == c
  | .integer i, .integer j => i == j
  | .real r, .real q => r == q
  | .string s, .string t => s == t
  | .array xs, .array ys => equalJsonList xs ys
  | .object fs, .object gs => equalJsonFields fs gs
  | _, _ => false

def equalJsonList [BEq R] : List (Json R) → List (Json R) → Bool
  | [], [] => true
  | x :: xs, y :: ys => equalJson x y && equalJsonList xs ys
  | _, _ => false

def equalJsonFields [BEq R] : List (Str × Json R) → List (Str × Json R) → Bool
  | [], [] => true
  | (k, x) :: fs, (k', y) :: gs => k == k' && equalJson x y && equalJsonFields fs gs
  | _, _ => false

end

section equality
variable [BEq R] {H : Heap R} {x y : Data R}

theorem equalJsonList_of_length :
    ∀ {xs ys : List (Json R)}, xs.length ≠ ys.length → equalJsonList xs ys = false
  | [], [], h => absurd rfl h
  | [], _ :: _, _ => rfl
  | _ :: _, [], _ => rfl
  | x :: xs, y :: ys, h => by
    rw [equalJsonList, equalJsonList_of_length fun he => h (congrArg (· + 1) he), Bool.and_false]

theorem equalJsonFields_of_length :
    ∀ {fs gs : List (Str × Json R)}, fs.length ≠ gs.length → equalJsonFields fs gs = false
  | [], [], h => absurd rfl h
  | [], _ :: _, _ => rfl
  | _ :: _, [], _ => rfl
  | (k, x) :: fs, (k', y) :: gs, h => by
    rw [equalJsonFields, equalJsonFields_of_length fun he => h (congrArg (· + 1) he),
      Bool.and_false]

/-- `std::equal` over arrays of the same size, from the equality of their elements. -/
theorem equalLists_array {eq : Data R → Data R → Option Bool} : ∀ {xs ys : List (Data R)},
    (∀ x ∈ xs, ∀ y ∈ ys, eq x y = some (equalJson (content H x) (content H y))) →
    xs.length = ys.length →
    equalLists eq xs ys = some (equalJsonList (xs.map (content H)) (ys.map (content H)))
  | [], [], _, _ => rfl
  | x :: xs, y :: ys, h, hl => by
    have ih := equalLists_array
      (fun a ha b hb => h a (List.mem_cons_of_mem _ ha) b (List.mem_cons_of_mem _ hb))
        (Nat.succ.inj hl)
    rw [equalLists, h x List.mem_cons_self y List.mem_cons_self, Option.bind_some, ih,
      List.map_cons, List.map_cons, equalJsonList]
    cases equalJson (content H x) (content H y) <;> rfl

theorem equalLists_object {eq : Data R → Data R → Option Bool} : ∀ {fs gs : List (Str × Data R)},
    (∀ f ∈ fs, ∀ g ∈ gs, eq f.2 g.2 = some (equalJson (content H f.2) (content H g.2))) →
    fs.length = gs.length →
    equalLists (fun f g => if f.1 = g.1 then eq f.2 g.2 else some false) fs gs =
      some (equalJsonFields (fs.map (Prod.map id (content H))) (gs.map (Prod.map id (content H))))
  | [], [], _, _ => rfl
  | (k, x) :: fs, (k', y) :: gs, h, hl => by
    have ih := equalLists_object
      (fun a ha b hb => h a (List.mem_cons_of_mem _ ha) b (List.mem_cons_of_mem _ hb))
        (Nat.succ.inj hl)
    rw [equalLists, ih, h (k, x) List.mem_cons_self (k', y) List.mem_cons_self, List.map_cons,
      List.map_cons, Prod.map, Prod.map, equalJsonFields]
    by_cases hk : k = k'
    · subst hk
      cases equalJson (content H x) (content H y) <;> simp
    · simp [hk]

/-- `operator==` is the equality of the contents. -/
theorem equal_content (ho : Ordered H) {fuel : Nat} (hx : Ok H x) (hy : Ok H y)
    (hfuel : sizeOf (content H x) < fuel) :
    equal fuel H x y = some (equalJson (content H x) (content H y)) := by
  induction fuel generalizing x y with
  | zero => cases hfuel
  | succ fuel ih =>
    obtain ⟨hxok, hxc, hxd, _⟩ := deref_spec ho hx
    obtain ⟨hyok, hyc, hyd, _⟩ := deref_spec ho hy
    rw [equal]
    rw [← hxc] at hfuel
    rw [← hxc, ← hyc]
    generalize deref H x = x₀ at *
    generalize deref H y = y₀ at *
    cases x₀ with
    | stringPtr | objectPtr | arrayPtr => cases hxd
    | array xs =>
      cases y₀ with
      | stringPtr | objectPtr | arrayPtr => cases hyd
      | array ys =>
        cases hxok with
        | array hxs =>
        cases hyok with
        | array hys =>
        rw [content_array] at hfuel
        rw [content_array, content_array, equalJson]
        dsimp only
        split
        · next hl =>
          refine equalLists_array (fun a ha b hb => ih (hxs a ha) (hys b hb) ?_) hl
          have hlt := List.sizeOf_lt_of_mem (List.mem_map_of_mem (f := content H) ha)
          rw [Json.array.sizeOf_spec] at hfuel
          omega
        · next hl =>
          rw [equalJsonList_of_length (by rw [List.length_map, List.length_map]; exact hl)]
      | _ => rfl
    | object fs =>
      cases y₀ with
      | stringPtr | objectPtr | arrayPtr => cases hyd
      | object gs =>
        cases hxok with
        | object hfs =>
        cases hyok with
        | object hgs =>
        rw [content_object] at hfuel
        rw [content_object, content_object, equalJson]
        dsimp only
        split
        · next hl =>
          refine equalLists_object (fun a ha b hb => ih (hfs a ha) (hgs b hb) ?_) hl
          have hlt := List.sizeOf_lt_of_mem (List.mem_map_of_mem (f := Prod.map id (content H)) ha)
          have hsize :
              sizeOf (Prod.map id (content H) a) = 1 + sizeOf a.1 + sizeOf (content H a.2) := rfl
          rw [Json.object.sizeOf_spec] at hfuel
          omega
        · next hl =>
          rw [equalJsonFields_of_length (by rw [List.length_map, List.length_map]; exact hl)]
      | _ => rfl
    | _ =>
      cases y₀ with
      | stringPtr | objectPtr | arrayPtr => cases hyd
      | _ => rfl

/-- Equality with itself, for reals other than NaN. -/
theorem equalJson_self [ReflBEq R] (j : Json R) : equalJson j j = true := by
  induction j using Json.rec_members with
  | null => rfl
  | boolean b => exact beq_self_eq_true b
  | integer i => exact beq_self_eq_true i
  | real r => exact BEq.rfl
  | string s => exact beq_self_eq_true s
  | array xs ih =>
    rw [equalJson]
    induction xs with
    | nil => rfl
    | cons x xs ihxs =>
      rw [equalJsonList, ih x List.mem_cons_self, ihxs fun y hy => ih y (List.mem_cons_of_mem _ hy)]
      rfl
  | object fs ih =>
    rw [equalJson]
    induction fs with
    | nil => rfl
    | cons f fs ihfs =>
      obtain ⟨k, x⟩ := f
      rw [equalJsonFields, ih (k, x) List.mem_cons_self,
        ihfs fun g hg => ih g (List.mem_cons_of_mem _ hg), beq_self_eq_true]
      rfl

end equality

end Gpcl.Cow
